import HeliosLite.Theory.FileTree

/-!
# The data directory

The write database and the legacy database are copied to temporary paths of the new directory
and moved to their places there, with the files beside them. A database that is in the way is
removed before the move.

## Main definitions

* `migrateDataDir` — the migration
* `Install.run` — the installation of one database
* `Install.Displaces`, `Install.Completes` — what it overwrites or removes, and when it succeeds

## Main results

* `Install.run_fst` — when an installation succeeds
* `Install.run_error` — an installation that fails leaves what it does not displace
* `Install.absent_run` — a content that was in one file is lost when that is displaced
-/

namespace HeliosLite

open Theory

structure ForgeMigrateReport where
  sourcePath : PathBuf
  destinationPath : PathBuf
  outcome : String
  bytesCopied : ℕ
  conversationsVerified : ℕ
  renamedLegacyTo : Option PathBuf
  deriving DecidableEq

inductive MigrateError where
  | io (op : FileOp)
  | message (text : String)
  deriving DecidableEq

/-- What the migration finds: which operations fail, the home directory if a variable names it,
the size of a content, the number of conversations that an open database counts, and the time. -/
structure MigrateEnv (γ : Type) where
  fails : FileOp → Bool
  home : Option PathBuf
  len : γ → ℕ
  openError : PathBuf → String
  count : FileTree γ → PathBuf → ℤ
  timestamp : String

/-! ### Paths -/

/-- The last component, if it is a name. -/
def fileName (p : PathBuf) : Option String :=
  p.getLast?.filter fun name => name ≠ ".." ∧ name ≠ "/"

def withFileName (p : PathBuf) (name : String) : PathBuf :=
  if (fileName p).isSome then p.dropLast ++ [name] else p ++ [name]

/-- The path of a file that stands beside a database. -/
def sidecar (p : PathBuf) (ext : String) : PathBuf := p.dropLast ++ [p.getLast?.getD "" ++ ext]

@[simp] theorem sidecar_append (dir : PathBuf) (name ext : String) :
    sidecar (dir ++ [name]) ext = dir ++ [name ++ ext] := by
  rw [sidecar, List.dropLast_concat, List.getLast?_concat, Option.getD_some]

def sidecarExts : List String := ["-wal", "-shm", "-journal"]

/-- A database, where it is copied to, and where the copy is moved. -/
structure Install where
  source : PathBuf
  tmp : PathBuf
  target : PathBuf

/-- The old directory, the home directory, and the last component of the write database. -/
structure Migration where
  sourceDir : PathBuf
  home : PathBuf
  writeFile : String

namespace Migration

variable (m : Migration)

def destinationDir : PathBuf := m.home ++ [".helioslite"]

def sourceDirName : String := (fileName m.sourceDir).getD ""

def writeDbName : String :=
  if m.writeFile = ".." ∨ m.writeFile = "/" then ".forge.writes.db" else m.writeFile

def write : Install where
  source := m.sourceDir ++ [m.writeFile]
  tmp := m.destinationDir ++ ["." ++ m.writeDbName ++ ".tmp"]
  target := m.destinationDir ++ [m.writeDbName]

def legacy : Install where
  source := m.sourceDir ++ [".forge.db"]
  tmp := m.destinationDir ++ ["." ++ ".forge.db" ++ ".tmp"]
  target := m.destinationDir ++ [".forge.db"]

def report (outcome : String) : ForgeMigrateReport where
  sourcePath := m.sourceDir
  destinationPath := m.destinationDir
  outcome := outcome
  bytesCopied := 0
  conversationsVerified := 0
  renamedLegacyTo := none

end Migration

/-! ### Files -/

section Files

variable {γ : Type} (fails : FileOp → Bool)

/-- The files beside a database are copied as far as they can be. -/
def copySidecars (source target : PathBuf) (exts : List String) (fs : FileTree γ) : FileTree γ :=
  exts.foldl (fun fs ext =>
    if fs.present fails (sidecar source ext) then
      (fs.copy fails (sidecar source ext) (sidecar target ext)).getD fs
    else fs) fs

/-- The files beside a database are moved as far as they can be. -/
def moveSidecars (source target : PathBuf) (exts : List String) (fs : FileTree γ) : FileTree γ :=
  exts.foldl (fun fs ext =>
    if fs.present fails (sidecar source ext) then
      (fs.rename fails (sidecar source ext) (sidecar target ext)).getD fs
    else fs) fs

def copyWithWal (source target : PathBuf) (fs : FileTree γ) : Option (FileTree γ) :=
  (fs.copy fails source target).map (copySidecars fails source target sidecarExts)

/-- A file that is in the way is removed, if possible. -/
def clear (target : PathBuf) (fs : FileTree γ) : FileTree γ :=
  if fs.present fails target then (fs.remove fails target).getD fs else fs

/-- The copy takes the place of the target. -/
def moveIntoPlace (i : Install) (fs : FileTree γ) : Except MigrateError Unit × FileTree γ :=
  match (clear fails i.target fs).rename fails i.tmp i.target with
  | none => (.error (.io (.rename i.tmp i.target)), clear fails i.target fs)
  | some moved => (.ok (), moveSidecars fails i.tmp i.target sidecarExts moved)

end Files

/-! ### The migration -/

section Migration

variable {γ : Type} (env : MigrateEnv γ) (m : Migration) (dryRun : Bool)

/-- The size of a file, or 0. -/
def MigrateEnv.fileLen (fs : FileTree γ) (p : PathBuf) : ℕ :=
  match fs p with
  | some (.file content) => if env.fails (.metadata p) then 0 else env.len content
  | _ => 0

/-- The write database is copied as it is. -/
def Migration.migrateWriteDb (fs : FileTree γ) : Except MigrateError Unit × FileTree γ :=
  if dryRun then (.ok (), fs)
  else
    match copyWithWal env.fails m.write.source m.write.tmp fs with
    | none => (.error (.io (.copy m.write.source m.write.tmp)), fs)
    | some copied => moveIntoPlace env.fails m.write copied

/-- The legacy database is copied, and the copy is opened and counted before it is moved. In a
dry run the source stands for the copy. -/
def Migration.migrateLegacyDb (fs : FileTree γ) : Except MigrateError ℕ × FileTree γ :=
  let tmpDst := if dryRun then m.legacy.source else m.legacy.tmp
  let staged :=
    if dryRun then some fs else copyWithWal env.fails m.legacy.source m.legacy.tmp fs
  match staged with
  | none => (.error (.io (.copy m.legacy.source m.legacy.tmp)), fs)
  | some staged =>
    if env.fails (.opening tmpDst) then
      (.error (.message ("post-copy validation failed: " ++ env.openError tmpDst)),
        (staged.remove env.fails tmpDst).getD staged)
    else
      let count := (env.count staged tmpDst).toNat
      if dryRun then (.ok count, staged)
      else
        match moveIntoPlace env.fails m.legacy staged with
        | (.error e, fs) => (.error e, fs)
        | (.ok _, fs) => (.ok count, fs)

/-- The old directory is renamed, if possible. -/
def Migration.setAside (report : ForgeMigrateReport) (fs : FileTree γ) :
    ForgeMigrateReport × FileTree γ :=
  let renamed := withFileName m.sourceDir (m.sourceDirName ++ ".migrated-" ++ env.timestamp)
  if dryRun then (report, fs)
  else
    match fs.renameDir env.fails m.sourceDir renamed with
    | none => (report, fs)
    | some moved => ({ report with renamedLegacyTo := some renamed }, moved)

/-- The steps behind the creation of the directory. -/
def Migration.migrateFiles (fs : FileTree γ) :
    Except MigrateError ForgeMigrateReport × FileTree γ :=
  let report := m.report "migrated"
  let writeSeen := fs.present env.fails m.write.source
  let written := if writeSeen then m.migrateWriteDb env dryRun fs else (.ok (), fs)
  let writeLen := if writeSeen then env.fileLen fs m.write.source else 0
  match written with
  | (.error e, fs) => (.error e, fs)
  | (.ok _, fs) =>
    if fs.present env.fails m.legacy.source then
      let len := env.fileLen fs m.legacy.source
      match m.migrateLegacyDb env dryRun fs with
      | (.error e, fs) => (.error e, fs)
      | (.ok count, fs) =>
        let (report, fs) := m.setAside env dryRun
          { report with bytesCopied := writeLen + len, conversationsVerified := count } fs
        (.ok report, fs)
    else
      let (report, fs) := m.setAside env dryRun { report with bytesCopied := writeLen } fs
      (.ok report, fs)

/-- The migration of the directory of a database. -/
def MigrateEnv.migration (dbPath : PathBuf) : Option Migration :=
  dbPath.parent.map fun sourceDir =>
    { sourceDir := sourceDir
      home := env.home.getD (sourceDir.parent.getD [])
      writeFile := dbPath.getLast?.getD "" }

def migrateDataDir (dbPath : PathBuf) (fs : FileTree γ) :
    Except MigrateError ForgeMigrateReport × FileTree γ :=
  match env.migration dbPath with
  | none => (.error (.message "could not determine parent directory of DB path"), fs)
  | some m =>
    if m.sourceDirName = ".helioslite" then
      (.ok { m.report "already_migrated" with destinationPath := m.sourceDir }, fs)
    else
      match fs.createDirAll env.fails m.destinationDir with
      | (false, created) => (.error (.io (.createDir m.destinationDir)), created)
      | (true, created) =>
        if fs.present env.fails m.legacy.source || fs.present env.fails m.write.source then
          m.migrateFiles env dryRun created
        else (.ok (m.report "noop_legacy_missing"), created)

end Migration

/-! ### Sidecar files -/

variable {γ : Type} {fails : FileOp → Bool} {fs fs' : FileTree γ} {source target q : PathBuf}
  {exts : List String} {c : γ}

/-- The file beside the source is seen, and can be copied. -/
def CopiesSidecar (fails : FileOp → Bool) (fs : FileTree γ) (source target : PathBuf)
    (ext : String) : Prop :=
  fs.present fails (sidecar source ext) = true ∧
    (fs.copy fails (sidecar source ext) (sidecar target ext)).isSome

theorem copiesSidecar_congr {ext : String}
    (hsource : fs' (sidecar source ext) = fs (sidecar source ext))
    (hdir : ∀ p, fs'.isDir p = fs.isDir p) :
    CopiesSidecar fails fs' source target ext ↔ CopiesSidecar fails fs source target ext := by
  rw [CopiesSidecar, CopiesSidecar, FileTree.present_congr hsource,
    FileTree.copy_isSome_congr hsource hdir]

/-- One file beside the source is copied, or nothing changes. -/
theorem copySidecars_cons (ext : String) :
    ∃ fs₁, copySidecars fails source target (ext :: exts) fs =
        copySidecars fails source target exts fs₁ ∧
      ((¬ CopiesSidecar fails fs source target ext ∧ fs₁ = fs) ∨
        (CopiesSidecar fails fs source target ext ∧
          fs.copy fails (sidecar source ext) (sidecar target ext) = some fs₁)) := by
  rw [copySidecars, List.foldl_cons]
  refine ⟨_, rfl, ?_⟩
  cases hpresent : fs.present fails (sidecar source ext) with
  | false =>
    refine Or.inl ⟨?_, if_neg Bool.false_ne_true⟩
    rintro ⟨hseen, -⟩
    rw [hpresent] at hseen
    cases hseen
  | true =>
    rw [if_pos rfl]
    cases hcopy : fs.copy fails (sidecar source ext) (sidecar target ext) with
    | none =>
      refine Or.inl ⟨?_, rfl⟩
      rintro ⟨-, hcopied⟩
      rw [hcopy] at hcopied
      cases hcopied
    | some copied =>
      refine Or.inr ⟨⟨hpresent, ?_⟩, rfl⟩
      rw [hcopy]
      rfl

theorem changes_copySidecars {T : PathBuf → Prop}
    (hT : ∀ ext ∈ exts, CopiesSidecar fails fs source target ext → T (sidecar target ext))
    (hsource : ∀ ext ∈ exts, ¬ T (sidecar source ext)) :
    FileTree.Changes fails T (fun p => ∃ ext ∈ exts, p = sidecar source ext) fs
      (copySidecars fails source target exts fs) := by
  induction exts generalizing fs with
  | nil => exact .refl
  | cons ext exts ih =>
    rw [List.forall_mem_cons] at hT hsource
    obtain ⟨fs₁, heq, hstep⟩ :=
      @copySidecars_cons _ fails fs source target exts ext
    have hfirst : FileTree.Changes fails T (fun p => ∃ e ∈ ext :: exts, p = sidecar source e)
        fs fs₁ := by
      rcases hstep with ⟨-, rfl⟩ | ⟨hcopies, hcopy⟩
      · exact .refl
      · exact .copy .refl ⟨ext, List.mem_cons_self, rfl⟩ (hT.1 hcopies) hcopy
    rw [heq]
    apply hfirst.trans
    have hrest : FileTree.Changes fails T (fun p => ∃ e ∈ exts, p = sidecar source e) fs₁
        (copySidecars fails source target exts fs₁) := by
      refine ih ?_ hsource.2
      intro e he hcopies
      apply hT.2 e he
      exact (copiesSidecar_congr (hfirst.eq_of_not (hsource.2 e he)) hfirst.isDir_eq).mp hcopies
    exact hrest.mono (fun _ h => h) fun p ⟨e, he, hp⟩ => ⟨e, List.mem_cons_of_mem _ he, hp⟩

/-- A content that a copied file overwrites is lost. -/
theorem absent_copySidecars (honly : fs.Only c q) (hq : ∀ ext ∈ exts, sidecar source ext ≠ q)
    (hapart : ∀ e ∈ exts, ∀ ext ∈ exts, sidecar source e ≠ sidecar target ext)
    (hcopies : ∃ ext ∈ exts, CopiesSidecar fails fs source target ext ∧ q = sidecar target ext) :
    (copySidecars fails source target exts fs).Absent c := by
  induction exts generalizing fs with
  | nil =>
    obtain ⟨ext, hext, -⟩ := hcopies
    cases hext
  | cons first exts ih =>
    obtain ⟨fs₁, heq, hstep⟩ :=
      @copySidecars_cons _ fails fs source target exts first
    obtain ⟨ext, hext, hcopied, rfl⟩ := hcopies
    rw [heq]
    have happart : ∀ e ∈ exts, ¬ ∃ ext ∈ first :: exts, sidecar source e = sidecar target ext := by
      rintro e he ⟨ext, hext, hsame⟩
      exact hapart e (List.mem_cons_of_mem _ he) ext hext hsame
    rcases List.mem_cons.mp hext with rfl | hlater
    · rcases hstep with ⟨hnot, -⟩ | ⟨-, hcopy⟩
      · exact absurd hcopied hnot
      · -- the later copies do not bring the content back
        have hlost := honly.copy (hq _ List.mem_cons_self) hcopy
        exact (changes_copySidecars (T := fun p => ∃ e ∈ ext :: exts, p = sidecar target e)
          (fun e he _ => ⟨e, List.mem_cons_of_mem _ he, rfl⟩) happart).absent hlost
    · have hfirst : FileTree.Changes fails (fun p => p = sidecar target first)
          (fun p => p = sidecar source first) fs fs₁ := by
        rcases hstep with ⟨-, rfl⟩ | ⟨-, hcopy⟩
        · exact .refl
        · exact .copy .refl rfl rfl hcopy
      have hsource := hfirst.eq_of_not
        (hapart ext (List.mem_cons_of_mem _ hlater) first List.mem_cons_self)
      apply ih (hfirst.only (fun heq => hq first List.mem_cons_self heq.symm) honly)
      · exact fun e he => hq e (List.mem_cons_of_mem _ he)
      · exact fun e he e' he' =>
          hapart e (List.mem_cons_of_mem _ he) e' (List.mem_cons_of_mem _ he')
      · exact ⟨ext, hlater, (copiesSidecar_congr hsource hfirst.isDir_eq).mpr hcopied, rfl⟩

theorem changes_moveSidecars {T R : PathBuf → Prop}
    (hT : ∀ ext ∈ exts, T (sidecar source ext) ∧ T (sidecar target ext))
    (hR : ∀ ext ∈ exts, R (sidecar source ext)) :
    FileTree.Changes fails T R fs (moveSidecars fails source target exts fs) := by
  induction exts generalizing fs with
  | nil => exact .refl
  | cons ext exts ih =>
    rw [List.forall_mem_cons] at hT hR
    rw [moveSidecars, List.foldl_cons]
    refine FileTree.Changes.trans ?_ (ih hT.2 hR.2)
    split
    · cases hmove : fs.rename fails (sidecar source ext) (sidecar target ext) with
      | none => exact .refl
      | some moved => exact .rename .refl ⟨hR.1, hT.1.1⟩ hT.1.2 hmove
    · exact .refl

/-! ### One database -/

namespace Install

variable (i : Install)

/-- The paths that are copied from. -/
def Reads (p : PathBuf) : Prop := p = i.source ∨ ∃ ext ∈ sidecarExts, p = sidecar i.source ext

/-- The paths that are written to. -/
def Writes (p : PathBuf) : Prop :=
  p = i.tmp ∨ p = i.target ∨
    ∃ ext ∈ sidecarExts, p = sidecar i.tmp ext ∨ p = sidecar i.target ext

/-- The paths of an installation are different. -/
structure Apart : Prop where
  reads : ∀ p, i.Reads p → ¬ i.Writes p
  target : i.tmp ≠ i.target
  sidecar : ∀ ext ∈ sidecarExts, sidecar i.tmp ext ≠ i.tmp

/-- The copy of a database, if it opens, is moved into its place. -/
def run (fails : FileOp → Bool) (opens : Bool) (fs : FileTree γ) : Bool × FileTree γ :=
  match copyWithWal fails i.source i.tmp fs with
  | none => (false, fs)
  | some copied =>
    if opens then ((moveIntoPlace fails i copied).1.isOk, (moveIntoPlace fails i copied).2)
    else (false, (copied.remove fails i.tmp).getD copied)

/-- The database can be copied. -/
def Copies (fails : FileOp → Bool) (fs : FileTree γ) : Prop :=
  (fs.copy fails i.source i.tmp).isSome

/-- What is at the target is seen, and can be removed. -/
def Clears (fails : FileOp → Bool) (fs : FileTree γ) : Prop :=
  fs.present fails i.target = true ∧ (fs.remove fails i.target).isSome

/-- A copy can be moved to the target. -/
def Moves (fails : FileOp → Bool) (fs : FileTree γ) : Prop :=
  fails (.rename i.tmp i.target) = false ∧ fs.writable i.target = true

/-- The file at the path is overwritten or removed. -/
def Displaces (fails : FileOp → Bool) (opens : Bool) (fs : FileTree γ) (q : PathBuf) : Prop :=
  i.Copies fails fs ∧
    (q = i.tmp ∨
      (∃ ext ∈ sidecarExts, CopiesSidecar fails fs i.source i.tmp ext ∧ q = sidecar i.tmp ext) ∨
      (opens = true ∧ q = i.target ∧ (i.Clears fails fs ∨ i.Moves fails fs)))

/-- The database is installed. -/
def Completes (fails : FileOp → Bool) (opens : Bool) (fs : FileTree γ) : Prop :=
  i.Copies fails fs ∧ opens = true ∧ i.Moves fails fs

variable {i} {opens : Bool} {p : PathBuf}

theorem copyWithWal_eq_some_iff {copied : FileTree γ} :
    copyWithWal fails source target fs = some copied ↔
      ∃ fs₁, fs.copy fails source target = some fs₁ ∧
        copySidecars fails source target sidecarExts fs₁ = copied :=
  Option.map_eq_some_iff

/-- The copy of a database changes nothing that is copied later. -/
theorem copiesSidecar_of_copy {fs₁ : FileTree γ} {ext : String} (h : i.Apart)
    (hcopy : fs.copy fails i.source i.tmp = some fs₁) (hext : ext ∈ sidecarExts) :
    CopiesSidecar fails fs₁ i.source i.tmp ext ↔ CopiesSidecar fails fs i.source i.tmp ext := by
  have hfirst : FileTree.Changes fails (fun p => p = i.tmp) i.Reads fs fs₁ :=
    .copy .refl (Or.inl rfl) rfl hcopy
  apply copiesSidecar_congr (hfirst.eq_of_not _) hfirst.isDir_eq
  exact fun heq => h.reads _ (Or.inr ⟨ext, hext, rfl⟩) (Or.inl heq)

/-- The copy of a database and of the files beside it. -/
theorem copyWithWal_some {copied : FileTree γ} (h : i.Apart)
    (hcopied : copyWithWal fails i.source i.tmp fs = some copied) :
    FileTree.Changes fails
        (fun p => p = i.tmp ∨ ∃ ext ∈ sidecarExts,
          CopiesSidecar fails fs i.source i.tmp ext ∧ p = sidecar i.tmp ext)
        i.Reads fs copied ∧
      copied.isFile i.tmp = true := by
  obtain ⟨fs₁, hcopy, rfl⟩ := copyWithWal_eq_some_iff.mp hcopied
  have hrest := @changes_copySidecars _ fails fs₁ i.source i.tmp sidecarExts
    (fun p => ∃ ext ∈ sidecarExts,
      CopiesSidecar fails fs i.source i.tmp ext ∧ p = sidecar i.tmp ext)
    (fun ext hext hcopies => ⟨ext, hext, (copiesSidecar_of_copy h hcopy hext).mp hcopies, rfl⟩)
    (by
      rintro ext hext ⟨e, he, -, heq⟩
      exact h.reads _ (Or.inr ⟨ext, hext, rfl⟩) (Or.inr (Or.inr ⟨e, he, Or.inl heq⟩)))
  constructor
  · apply FileTree.Changes.trans (.copy .refl (Or.inl rfl) (Or.inl rfl) hcopy)
    exact hrest.mono (fun _ hp => Or.inr hp) fun _ hp => Or.inr hp
  · have htmp := hrest.eq_of_not (p := i.tmp) (by
      rintro ⟨ext, hext, -, heq⟩
      exact h.sidecar ext hext heq.symm)
    obtain ⟨-, -, content, -, rfl⟩ := FileTree.copy_eq_some_iff.mp hcopy
    rw [FileTree.isFile_congr htmp]
    exact FileTree.isFile_iff.mpr ⟨content, Function.update_self _ _ _⟩

/-- What is in the way is removed, or nothing changes. -/
theorem clear_cases (fails : FileOp → Bool) (fs : FileTree γ) (target : PathBuf) :
    (fs.present fails target = true ∧ fs.remove fails target = some (clear fails target fs)) ∨
      (¬ (fs.present fails target = true ∧ (fs.remove fails target).isSome) ∧
        clear fails target fs = fs) := by
  rw [clear]
  cases hpresent : fs.present fails target with
  | false => exact Or.inr ⟨by simp, if_neg Bool.false_ne_true⟩
  | true =>
    rw [if_pos rfl]
    cases fs.remove fails target with
    | none => exact Or.inr ⟨by simp, rfl⟩
    | some cleared => exact Or.inl ⟨rfl, rfl⟩

theorem changes_clear (fails : FileOp → Bool) (fs : FileTree γ) (target : PathBuf) :
    FileTree.Changes fails
      (fun p => p = target ∧ fs.present fails target = true ∧ (fs.remove fails target).isSome)
      (fun _ => False) fs (clear fails target fs) := by
  rcases clear_cases fails fs target with ⟨hpresent, hremove⟩ | ⟨-, heq⟩
  · refine .remove .refl ⟨rfl, hpresent, ?_⟩ hremove
    rw [hremove]
    rfl
  · rw [heq]
    exact .refl

/-- The move succeeds if nothing but a file is in the way. -/
theorem moveIntoPlace_isOk (h : i.Apart) (hfile : fs.isFile i.tmp = true) :
    (moveIntoPlace fails i fs).1.isOk = true ↔ i.Moves fails fs := by
  have hclear := changes_clear fails fs i.target
  have htmp := hclear.eq_of_not (p := i.tmp) fun hp => h.target hp.1
  have hmoves : ((clear fails i.target fs).rename fails i.tmp i.target).isSome ↔
      i.Moves fails fs := by
    rw [FileTree.rename_isSome_iff, FileTree.writable_congr hclear.isDir_eq,
      FileTree.isFile_congr htmp, Moves, hfile]
    simp
  rw [← hmoves, moveIntoPlace]
  cases (clear fails i.target fs).rename fails i.tmp i.target <;> simp [Except.isOk, Except.toBool]

/-- Before a move that fails nothing but the target is removed. -/
theorem moveIntoPlace_error (h : (moveIntoPlace fails i fs).1.isOk = false) :
    (moveIntoPlace fails i fs).2 = clear fails i.target fs := by
  rw [moveIntoPlace] at h ⊢
  cases hmove : (clear fails i.target fs).rename fails i.tmp i.target with
  | none => rfl
  | some moved =>
    rw [hmove] at h
    cases h

theorem changes_moveIntoPlace :
    FileTree.Changes fails i.Writes i.Writes fs (moveIntoPlace fails i fs).2 := by
  have hclear : FileTree.Changes fails i.Writes i.Writes fs (clear fails i.target fs) :=
    (changes_clear fails fs i.target).mono (fun p hp => Or.inr (Or.inl hp.1)) fun _ hp => hp.elim
  rw [moveIntoPlace]
  cases hmove : (clear fails i.target fs).rename fails i.tmp i.target with
  | none => exact hclear
  | some moved =>
    refine FileTree.Changes.trans
      (hclear.rename ⟨Or.inl rfl, Or.inl rfl⟩ (Or.inr (Or.inl rfl)) hmove) ?_
    apply changes_moveSidecars
    · exact fun ext hext => ⟨Or.inr (Or.inr ⟨ext, hext, Or.inl rfl⟩),
        Or.inr (Or.inr ⟨ext, hext, Or.inr rfl⟩)⟩
    · exact fun ext hext => Or.inr (Or.inr ⟨ext, hext, Or.inl rfl⟩)

/-- A content that was at the target only is lost if the target is removed or overwritten. -/
theorem absent_moveIntoPlace (h : i.Apart) (hfile : fs.isFile i.tmp = true)
    (honly : fs.Only c i.target) (hdisplaces : i.Clears fails fs ∨ i.Moves fails fs) :
    (moveIntoPlace fails i fs).2.Absent c := by
  rcases clear_cases fails fs i.target with ⟨-, hremove⟩ | ⟨hnot, heq⟩
  · have hgone := honly.remove hremove
    rw [moveIntoPlace]
    cases hmove : (clear fails i.target fs).rename fails i.tmp i.target with
    | none => exact hgone
    | some moved =>
      have hmoved : FileTree.Changes fails (fun _ => True) (fun _ => True)
          (clear fails i.target fs) moved := .rename .refl ⟨trivial, trivial⟩ trivial hmove
      exact (hmoved.trans (changes_moveSidecars (fun _ _ => ⟨trivial, trivial⟩)
        fun _ _ => trivial)).absent hgone
  · have hmoves := (moveIntoPlace_isOk h hfile).mpr (hdisplaces.resolve_left hnot)
    rw [moveIntoPlace, heq] at hmoves ⊢
    cases hmove : fs.rename fails i.tmp i.target with
    | none =>
      rw [hmove] at hmoves
      cases hmoves
    | some moved =>
      have hgone := honly.rename h.target hmove
      exact (changes_moveSidecars (T := fun _ => True) (R := fun _ => True)
        (fun _ _ => ⟨trivial, trivial⟩) fun _ _ => trivial).absent hgone

/-! ### The installation -/

theorem copyWithWal_isSome : (copyWithWal fails i.source i.tmp fs).isSome ↔ i.Copies fails fs := by
  rw [copyWithWal, Option.isSome_map, Copies]

/-- The copies leave what decides about the move. -/
theorem moves_of_copyWithWal {copied : FileTree γ} (h : i.Apart)
    (hcopied : copyWithWal fails i.source i.tmp fs = some copied) :
    i.Moves fails copied ↔ i.Moves fails fs := by
  rw [Moves, Moves, FileTree.writable_congr (copyWithWal_some h hcopied).1.isDir_eq]

theorem run_fst (h : i.Apart) : (i.run fails opens fs).1 = true ↔ i.Completes fails opens fs := by
  rw [run, Completes, ← copyWithWal_isSome]
  cases hcopied : copyWithWal fails i.source i.tmp fs with
  | none => simp
  | some copied =>
    have hmoves := @moveIntoPlace_isOk _ fails _ _ h (copyWithWal_some h hcopied).2
    rw [moves_of_copyWithWal h hcopied] at hmoves
    cases opens with
    | true => simpa using hmoves
    | false => simp

theorem changes_run (h : i.Apart) :
    FileTree.Changes fails i.Writes (fun p => i.Reads p ∨ i.Writes p) fs
      (i.run fails opens fs).2 := by
  rw [run]
  cases hcopied : copyWithWal fails i.source i.tmp fs with
  | none => exact .refl
  | some copied =>
    have hcopy : FileTree.Changes fails i.Writes (fun p => i.Reads p ∨ i.Writes p) fs copied := by
      apply (copyWithWal_some h hcopied).1.mono
      · rintro p (rfl | ⟨ext, hext, -, rfl⟩)
        · exact Or.inl rfl
        · exact Or.inr (Or.inr ⟨ext, hext, Or.inl rfl⟩)
      · exact fun _ hp => Or.inl hp
    cases opens with
    | true => exact hcopy.trans (changes_moveIntoPlace.mono (fun _ hp => hp) fun _ hp => Or.inr hp)
    | false =>
      dsimp only
      rw [if_neg Bool.false_ne_true]
      cases hremove : copied.remove fails i.tmp with
      | none => exact hcopy
      | some removed => exact hcopy.remove (Or.inl rfl) hremove

/-- An installation that fails leaves what it does not displace. -/
theorem run_error (h : i.Apart) (herror : (i.run fails opens fs).1 = false)
    (hq : ¬ i.Displaces fails opens fs q) : (i.run fails opens fs).2 q = fs q := by
  rw [run] at herror ⊢
  cases hcopied : copyWithWal fails i.source i.tmp fs with
  | none => rfl
  | some copied =>
    have hcopies : i.Copies fails fs := by
      rw [← copyWithWal_isSome, hcopied]
      rfl
    obtain ⟨hcopy, hfile⟩ := copyWithWal_some h hcopied
    have hkept : copied q = fs q := by
      apply hcopy.eq_of_not
      rintro (htmp | ⟨ext, hext, hsidecar⟩)
      · exact hq ⟨hcopies, Or.inl htmp⟩
      · exact hq ⟨hcopies, Or.inr (Or.inl ⟨ext, hext, hsidecar⟩)⟩
    rw [hcopied] at herror
    cases opens with
    | true =>
      dsimp only at herror ⊢
      rw [if_pos rfl] at herror ⊢
      rw [moveIntoPlace_error herror, (changes_clear fails copied i.target).eq_of_not, hkept]
      rintro ⟨htarget, hpresent, hremove⟩
      refine hq ⟨hcopies, Or.inr (Or.inr ⟨rfl, htarget, Or.inl ?_⟩)⟩
      rw [← htarget] at hpresent hremove
      rw [Clears, ← htarget, ← FileTree.present_congr hkept, FileTree.remove_isSome_iff,
        ← FileTree.isFile_congr hkept, ← FileTree.remove_isSome_iff]
      exact ⟨hpresent, hremove⟩
    | false =>
      dsimp only
      rw [if_neg Bool.false_ne_true]
      cases hremove : copied.remove fails i.tmp with
      | none => exact hkept
      | some removed =>
        have hremoved : FileTree.Changes fails (fun p => p = i.tmp) (fun _ => False) copied
            removed := .remove .refl rfl hremove
        exact (hremoved.eq_of_not fun htmp => hq ⟨hcopies, Or.inl htmp⟩).trans hkept

/-- A content that the copies overwrite is lost. -/
theorem absent_copyWithWal {copied : FileTree γ} (h : i.Apart)
    (hcopied : copyWithWal fails i.source i.tmp fs = some copied) (honly : fs.Only c q)
    (hreads : ¬ i.Reads q)
    (hq : q = i.tmp ∨ ∃ ext ∈ sidecarExts,
      CopiesSidecar fails fs i.source i.tmp ext ∧ q = sidecar i.tmp ext) :
    copied.Absent c := by
  obtain ⟨fs₁, hcopy, rfl⟩ := copyWithWal_eq_some_iff.mp hcopied
  have hapart : ∀ e ∈ sidecarExts, ∀ ext ∈ sidecarExts,
      sidecar i.source e ≠ sidecar i.tmp ext := by
    intro e he ext hext heq
    exact h.reads _ (Or.inr ⟨e, he, rfl⟩) (Or.inr (Or.inr ⟨ext, hext, Or.inl heq⟩))
  have hsource : i.source ≠ q := fun heq => hreads (Or.inl heq.symm)
  rcases hq with rfl | ⟨ext, hext, hcopies, rfl⟩
  · have hgone := honly.copy hsource hcopy
    exact (changes_copySidecars (T := fun p => ∃ ext ∈ sidecarExts, p = sidecar i.tmp ext)
      (fun ext hext _ => ⟨ext, hext, rfl⟩)
      fun e he ⟨ext, hext, heq⟩ => hapart e he ext hext heq).absent hgone
  · have hfirst : FileTree.Changes fails (fun p => p = i.tmp) (fun p => p = i.source) fs fs₁ :=
      .copy .refl rfl rfl hcopy
    apply absent_copySidecars (hfirst.only (fun heq => hsource heq.symm) honly)
    · exact fun e he heq => hreads (Or.inr ⟨e, he, heq.symm⟩)
    · exact hapart
    · exact ⟨ext, hext, (copiesSidecar_of_copy h hcopy hext).mpr hcopies, rfl⟩

/-- The content of the only file that has it is lost when the file is displaced. -/
theorem absent_run (h : i.Apart) (honly : fs.Only c q) (hreads : ¬ i.Reads q)
    (hq : i.Displaces fails opens fs q) : (i.run fails opens fs).2.Absent c := by
  obtain ⟨hcopies, hwhere⟩ := hq
  obtain ⟨copied, hcopied⟩ := Option.isSome_iff_exists.mp (copyWithWal_isSome.mpr hcopies)
  obtain ⟨hcopy, hfile⟩ := copyWithWal_some h hcopied
  by_cases hover : q = i.tmp ∨ ∃ ext ∈ sidecarExts,
      CopiesSidecar fails fs i.source i.tmp ext ∧ q = sidecar i.tmp ext
  · have hgone := absent_copyWithWal h hcopied honly hreads hover
    rw [run, hcopied]
    dsimp only
    split
    · exact changes_moveIntoPlace.absent hgone
    · cases hremove : copied.remove fails i.tmp with
      | none => exact hgone
      | some removed =>
        have hremoved : FileTree.Changes fails (fun p => p = i.tmp) (fun _ => False) copied
            removed := .remove .refl rfl hremove
        exact hremoved.absent hgone
  · rw [← or_assoc, or_iff_right hover] at hwhere
    obtain ⟨rfl, rfl, hdisplaces⟩ := hwhere
    have hkept := hcopy.eq_of_not hover
    rw [run, hcopied]
    apply absent_moveIntoPlace h hfile (hcopy.only hreads honly)
    rw [moves_of_copyWithWal h hcopied, Clears, FileTree.present_congr hkept,
      FileTree.remove_isSome_iff, FileTree.isFile_congr hkept, ← FileTree.remove_isSome_iff]
    exact hdisplaces

end Install

end HeliosLite
