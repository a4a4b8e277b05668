import HeliosLite.Storage.DataDir

/-!
# Migrating the data directory

An error behind the removal of a database of the new directory leaves it lost. A dry run copies
nothing, but it creates the new directory, and takes the source for the copy that is removed when
it cannot be opened.

## Main definitions

* `Migrates` — what a migration owes to the files: nothing changes in a dry run, and no database
  is lost when it fails
* `Migration.Settled`, `Migration.Spares` — the cases in which it does

## Main results

* `Migration.migrateFiles_error_iff` — the trees that a migration leaves when it fails
* `Migration.Fails.eq_of_mem` — the databases that it spares are left
* `Migration.exists_fails_absent` — the content of another may be lost
* `migrates_iff` — a migration keeps its promise, whatever the contents, exactly in those cases
* `Home.not_migrates` — a dry run that makes the directory, and a move that fails
-/

namespace HeliosLite

open Theory

variable {γ : Type} {fails : FileOp → Bool} {fs fs' : FileTree γ} {q : PathBuf} {c : γ}

/-! ### The two databases -/

namespace Migration

variable {m : Migration} {env : MigrateEnv γ}

theorem sourceDir_ne (h : m.sourceDirName ≠ ".helioslite") : m.sourceDir ≠ m.destinationDir := by
  intro heq
  apply h
  rw [sourceDirName, heq, destinationDir, fileName, List.getLast?_concat]
  rfl

theorem append_singleton_ne {d d' : PathBuf} (h : d ≠ d') (a b : String) :
    d ++ [a] ≠ d' ++ [b] := fun heq => h (List.append_inj_left' heq rfl)

/-- Neither database of the new directory has the name of a file beside a database. -/
theorem name_ne_sidecar (a : String) {ext : String} (hext : ext ∈ sidecarExts) :
    ".forge.db" ≠ a ++ ext := by
  intro heq
  have hlast := congrArg (fun s : String => s.toList.getLast?) heq
  simp only [String.toList_append] at hlast
  rw [sidecarExts, List.mem_cons, List.mem_cons, List.mem_singleton] at hext
  rcases hext with rfl | rfl | rfl
  · rw [List.getLast?_append_of_ne_nil _ (by decide)] at hlast
    exact absurd hlast (by decide)
  · rw [List.getLast?_append_of_ne_nil _ (by decide)] at hlast
    exact absurd hlast (by decide)
  · rw [List.getLast?_append_of_ne_nil _ (by decide)] at hlast
    exact absurd hlast (by decide)

theorem length_ext {ext : String} (hext : ext ∈ sidecarExts) : 0 < ext.length := by
  revert ext
  decide

theorem ne_of_length_lt {a b : String} (h : a.length < b.length) : a ≠ b := by
  rintro rfl
  exact lt_irrefl _ h

theorem ne_append_ext (a : String) {ext : String} (hext : ext ∈ sidecarExts) : a ≠ a ++ ext := by
  apply ne_of_length_lt
  have hlength := length_ext hext
  rw [String.length_append]
  omega

theorem length_lt_tmp (name : String) : name.length < ("." ++ name ++ ".tmp").length := by
  have hdot : ".".length = 1 := rfl
  rw [String.length_append, String.length_append]
  omega

theorem singleton_ne {d : PathBuf} {a b : String} (h : a ≠ b) : d ++ [a] ≠ d ++ [b] := by
  intro heq
  apply h
  exact List.singleton_inj.mp (List.append_cancel_left heq)

theorem exists_of_reads {i : Install} {d p : PathBuf} {a : String} (hsource : i.source = d ++ [a])
    (h : i.Reads p) : ∃ x, p = d ++ [x] := by
  rcases h with rfl | ⟨ext, -, rfl⟩
  · exact ⟨a, hsource⟩
  · exact ⟨a ++ ext, by rw [hsource, sidecar_append]⟩

theorem exists_of_writes {i : Install} {d p : PathBuf} {a b : String} (htmp : i.tmp = d ++ [a])
    (htarget : i.target = d ++ [b]) (h : i.Writes p) : ∃ x, p = d ++ [x] := by
  rcases h with rfl | rfl | ⟨ext, -, rfl | rfl⟩
  · exact ⟨a, htmp⟩
  · exact ⟨b, htarget⟩
  · exact ⟨a ++ ext, by rw [htmp, sidecar_append]⟩
  · exact ⟨b ++ ext, by rw [htarget, sidecar_append]⟩

/-- A database is read in one directory and written to another. -/
theorem apart_of_dirs {i : Install} {d d' : PathBuf} {a b b' : String} (hd : d ≠ d')
    (hsource : i.source = d ++ [a]) (htmp : i.tmp = d' ++ [b]) (htarget : i.target = d' ++ [b'])
    (hne : b ≠ b') : i.Apart := by
  refine ⟨?_, ?_, ?_⟩
  · intro p hp hq
    obtain ⟨x, rfl⟩ := exists_of_reads hsource hp
    obtain ⟨y, heq⟩ := exists_of_writes htmp htarget hq
    exact append_singleton_ne hd _ _ heq
  · rw [htmp, htarget]
    exact singleton_ne hne
  · intro ext hext
    rw [htmp, sidecar_append]
    exact singleton_ne (ne_append_ext b hext).symm

theorem apart_write (h : m.sourceDirName ≠ ".helioslite") : m.write.Apart :=
  apart_of_dirs (sourceDir_ne h) rfl rfl rfl (ne_of_length_lt (length_lt_tmp _)).symm

theorem apart_legacy (h : m.sourceDirName ≠ ".helioslite") : m.legacy.Apart :=
  apart_of_dirs (sourceDir_ne h) rfl rfl rfl (ne_of_length_lt (length_lt_tmp _)).symm

/-- The databases of the new directory are not beside the write database. -/
theorem target_ne_sidecar {q : PathBuf} (hq : q = m.write.target ∨ q = m.legacy.target)
    {ext : String} (hext : ext ∈ sidecarExts) :
    q ≠ sidecar m.write.tmp ext ∧ q ≠ sidecar m.write.target ext := by
  rw [write, sidecar_append, sidecar_append]
  rcases hq with rfl | rfl
  · refine ⟨singleton_ne (ne_of_length_lt ?_), singleton_ne (ne_append_ext _ hext)⟩
    rw [@String.length_append _ ext]
    exact Nat.lt_add_right _ (length_lt_tmp _)
  · exact ⟨singleton_ne (name_ne_sidecar _ hext), singleton_ne (name_ne_sidecar _ hext)⟩

/-! ### A migration that fails -/

/-- The copy of the legacy database opens. -/
def opens (m : Migration) (fails : FileOp → Bool) : Bool := !fails (.opening m.legacy.tmp)

/-- The tree before the legacy database is looked for. -/
def afterWrite (m : Migration) (fails : FileOp → Bool) (fs : FileTree γ) : FileTree γ :=
  if fs.present fails m.write.source then (m.write.run fails true fs).2 else fs

theorem migrateWriteDb_eq :
    ((m.migrateWriteDb env false fs).1.isOk, (m.migrateWriteDb env false fs).2) =
      m.write.run env.fails true fs := by
  rw [migrateWriteDb, if_neg Bool.false_ne_true, Install.run]
  cases copyWithWal env.fails m.write.source m.write.tmp fs <;> rfl

theorem migrateLegacyDb_eq :
    ((m.migrateLegacyDb env false fs).1.isOk, (m.migrateLegacyDb env false fs).2) =
      m.legacy.run env.fails (m.opens env.fails) fs := by
  rw [migrateLegacyDb, Install.run, opens]
  dsimp only
  rw [if_neg Bool.false_ne_true]
  cases copyWithWal env.fails m.legacy.source m.legacy.tmp fs with
  | none => rfl
  | some copied =>
    dsimp only
    rw [if_neg Bool.false_ne_true]
    cases env.fails (.opening m.legacy.tmp) with
    | true => rfl
    | false =>
      rw [if_neg Bool.false_ne_true, if_neg Bool.false_ne_true, Bool.not_false, if_pos rfl]
      rcases moveIntoPlace env.fails m.legacy copied with ⟨_ | _, _⟩ <;> rfl

/-- The tree that a migration leaves when it fails. -/
inductive Fails (m : Migration) (fails : FileOp → Bool) (fs : FileTree γ) : FileTree γ → Prop where
  | write (hseen : fs.present fails m.write.source = true)
      (hrun : (m.write.run fails true fs).1 = false) :
      Fails m fails fs (m.write.run fails true fs).2
  | legacy
      (hwrite : fs.present fails m.write.source = true → (m.write.run fails true fs).1 = true)
      (hseen : (m.afterWrite fails fs).present fails m.legacy.source = true)
      (hrun : (m.legacy.run fails (m.opens fails) (m.afterWrite fails fs)).1 = false) :
      Fails m fails fs (m.legacy.run fails (m.opens fails) (m.afterWrite fails fs)).2

/-- What the migration does about the write database. -/
theorem written_eq {written : Except MigrateError Unit × FileTree γ}
    (h : written = if fs.present env.fails m.write.source then m.migrateWriteDb env false fs
      else (.ok (), fs)) :
    written.2 = m.afterWrite env.fails fs ∧
      (written.1.isOk = false ↔ fs.present env.fails m.write.source = true ∧
        (m.write.run env.fails true fs).1 = false) := by
  rw [h, afterWrite, ← migrateWriteDb_eq]
  cases fs.present env.fails m.write.source with
  | true => exact ⟨rfl, by simp⟩
  | false => exact ⟨rfl, by simp [Except.isOk, Except.toBool]⟩

theorem migrateFiles_error_iff :
    (∃ e, m.migrateFiles env false fs = (.error e, fs')) ↔ m.Fails env.fails fs fs' := by
  rw [migrateFiles]
  dsimp only
  generalize hwritten : (if fs.present env.fails m.write.source then
    m.migrateWriteDb env false fs else (.ok (), fs)) = written
  obtain ⟨hafter, hok⟩ := written_eq hwritten.symm
  obtain ⟨result, fs₁⟩ := written
  dsimp only at hafter
  subst hafter
  cases result with
  | error e =>
    obtain ⟨hseen, hrun⟩ := hok.mp rfl
    constructor
    · rintro ⟨e', h⟩
      obtain ⟨-, rfl⟩ := Prod.ext_iff.mp h
      rw [afterWrite, if_pos hseen]
      exact .write hseen hrun
    · rintro (_ | ⟨hwrite, -, -⟩)
      · refine ⟨e, ?_⟩
        rw [afterWrite, if_pos hseen]
      · rw [hwrite hseen] at hrun
        cases hrun
  | ok u =>
    have hwrite : fs.present env.fails m.write.source = true →
        (m.write.run env.fails true fs).1 = true := by
      intro hseen
      cases hrun : (m.write.run env.fails true fs).1 with
      | true => rfl
      | false => cases hok.mpr ⟨hseen, hrun⟩
    dsimp only
    cases hlegacy : (m.afterWrite env.fails fs).present env.fails m.legacy.source with
    | false =>
      rw [if_neg Bool.false_ne_true]
      refine iff_of_false (by rintro ⟨e, h⟩; cases h) ?_
      rintro (⟨hseen, hrun⟩ | ⟨-, hseen, -⟩)
      · rw [hwrite hseen] at hrun
        cases hrun
      · rw [hlegacy] at hseen
        cases hseen
    | true =>
      rw [if_pos rfl]
      have hrun := @migrateLegacyDb_eq γ (m.afterWrite env.fails fs) m env
      cases hresult : m.migrateLegacyDb env false (m.afterWrite env.fails fs) with
      | mk result fs₂ =>
        rw [hresult] at hrun
        obtain ⟨hok, hleft⟩ := Prod.ext_iff.mp hrun
        cases result with
        | error e =>
          constructor
          · rintro ⟨e', h⟩
            obtain ⟨-, rfl⟩ := Prod.ext_iff.mp h
            rw [show fs₂ = _ from hleft]
            exact .legacy hwrite hlegacy hok.symm
          · rintro (⟨hseen, hfailed⟩ | _)
            · rw [hwrite hseen] at hfailed
              cases hfailed
            · exact ⟨e, Prod.ext rfl hleft⟩
        | ok count =>
          refine iff_of_false (by rintro ⟨e, h⟩; cases h) ?_
          rintro (⟨hseen, hfailed⟩ | ⟨-, -, hfailed⟩)
          · rw [hwrite hseen] at hfailed
            cases hfailed
          · rw [← hok] at hfailed
            cases hfailed

/-! ### What is spared -/

/-- If the file is displaced, then by a migration that succeeds: the installation of the write
database succeeds if it displaces the file, and that of the legacy database if it comes after
that, or displaces the file. -/
def SparesFile (m : Migration) (fails : FileOp → Bool) (fs : FileTree γ) (q : PathBuf) : Prop :=
  (fs.present fails m.write.source = true → m.write.Displaces fails true fs q →
    m.write.Completes fails true fs ∧
      (fs.present fails m.legacy.source = true → m.legacy.Completes fails (m.opens fails) fs)) ∧
  ((fs.present fails m.write.source = true → m.write.Completes fails true fs) →
    fs.present fails m.legacy.source = true →
    m.legacy.Displaces fails (m.opens fails) fs q →
    m.legacy.Completes fails (m.opens fails) fs)

/-- The databases that the new directory has are displaced by a migration that succeeds only. -/
def SparesFiles (m : Migration) (fails : FileOp → Bool) (fs : FileTree γ) : Prop :=
  ∀ q, q = m.write.target ∨ q = m.legacy.target → fs.isFile q = true → m.SparesFile fails fs q

theorem changes_afterWrite (h : m.sourceDirName ≠ ".helioslite") :
    FileTree.Changes fails m.write.Writes (fun p => m.write.Reads p ∨ m.write.Writes p) fs
      (m.afterWrite fails fs) := by
  rw [afterWrite]
  split
  · exact Install.changes_run (apart_write h)
  · exact .refl

/-- Nothing in the old directory is written to. -/
theorem not_writes_source (h : m.sourceDirName ≠ ".helioslite") (x : String) :
    ¬ m.write.Writes (m.sourceDir ++ [x]) ∧ ¬ m.legacy.Writes (m.sourceDir ++ [x]) := by
  constructor
  · intro hwrites
    obtain ⟨y, heq⟩ := exists_of_writes rfl rfl hwrites
    exact append_singleton_ne (sourceDir_ne h) _ _ heq
  · intro hwrites
    obtain ⟨y, heq⟩ := exists_of_writes rfl rfl hwrites
    exact append_singleton_ne (sourceDir_ne h) _ _ heq

/-- No database in the new directory is read. -/
theorem not_reads_target (h : m.sourceDirName ≠ ".helioslite")
    (hq : q = m.write.target ∨ q = m.legacy.target) :
    ¬ m.write.Reads q ∧ ¬ m.legacy.Reads q := by
  obtain ⟨x, rfl⟩ : ∃ x, q = m.destinationDir ++ [x] := by
    rcases hq with rfl | rfl <;> exact ⟨_, rfl⟩
  constructor
  · intro hreads
    obtain ⟨y, heq⟩ := exists_of_reads rfl hreads
    exact append_singleton_ne (sourceDir_ne h) _ _ heq.symm
  · intro hreads
    obtain ⟨y, heq⟩ := exists_of_reads rfl hreads
    exact append_singleton_ne (sourceDir_ne h) _ _ heq.symm

theorem afterWrite_source (h : m.sourceDirName ≠ ".helioslite") (x : String) :
    m.afterWrite fails fs (m.sourceDir ++ [x]) = fs (m.sourceDir ++ [x]) :=
  (changes_afterWrite h).eq_of_not (not_writes_source h x).1

theorem present_afterWrite (h : m.sourceDirName ≠ ".helioslite") :
    (m.afterWrite fails fs).present fails m.legacy.source =
      fs.present fails m.legacy.source :=
  FileTree.present_congr (afterWrite_source h _)

theorem completes_afterWrite (h : m.sourceDirName ≠ ".helioslite") {o : Bool} :
    m.legacy.Completes fails o (m.afterWrite fails fs) ↔ m.legacy.Completes fails o fs := by
  have hdir := (@changes_afterWrite _ fails fs _ h).isDir_eq
  have hsource : m.afterWrite fails fs m.legacy.source = fs m.legacy.source :=
    afterWrite_source h _
  rw [Install.Completes, Install.Completes, Install.Copies, Install.Copies, Install.Moves,
    Install.Moves, FileTree.copy_isSome_congr hsource hdir, FileTree.writable_congr hdir]

theorem displaces_afterWrite (h : m.sourceDirName ≠ ".helioslite") {o : Bool}
    (hq : m.afterWrite fails fs q = fs q) :
    m.legacy.Displaces fails o (m.afterWrite fails fs) q ↔ m.legacy.Displaces fails o fs q := by
  have hdir := (@changes_afterWrite _ fails fs _ h).isDir_eq
  have hsource : m.afterWrite fails fs m.legacy.source = fs m.legacy.source :=
    afterWrite_source h _
  have hsidecar : ∀ ext, CopiesSidecar fails (m.afterWrite fails fs) m.legacy.source m.legacy.tmp
      ext ↔ CopiesSidecar fails fs m.legacy.source m.legacy.tmp ext := by
    intro ext
    apply copiesSidecar_congr _ hdir
    rw [legacy, sidecar_append]
    exact afterWrite_source h _
  rw [Install.Displaces, Install.Displaces, Install.Copies, Install.Copies,
    FileTree.copy_isSome_congr hsource hdir, Install.Moves, Install.Moves,
    FileTree.writable_congr hdir]
  simp only [hsidecar]
  apply and_congr_right
  intro _
  apply or_congr_right
  apply or_congr_right
  apply and_congr_right
  intro _
  apply and_congr_right
  rintro rfl
  rw [Install.Clears, Install.Clears, FileTree.present_congr hq, FileTree.remove_isSome_iff,
    FileTree.remove_isSome_iff, FileTree.isFile_congr hq]

/-- A database in the new directory that the write database does not displace is not touched. -/
theorem not_writes_target (hq : q = m.write.target ∨ q = m.legacy.target)
    (hcompletes : m.write.Completes fails true fs)
    (hdisplaces : ¬ m.write.Displaces fails true fs q) : ¬ m.write.Writes q := by
  obtain ⟨hcopies, -, hmoves⟩ := hcompletes
  rintro (htmp | htarget | ⟨ext, hext, heq | heq⟩)
  · exact hdisplaces ⟨hcopies, Or.inl htmp⟩
  · exact hdisplaces ⟨hcopies, Or.inr (Or.inr ⟨rfl, htarget, Or.inr hmoves⟩)⟩
  · exact (target_ne_sidecar hq hext).1 heq
  · exact (target_ne_sidecar hq hext).2 heq

theorem afterWrite_target (h : m.sourceDirName ≠ ".helioslite")
    (hq : q = m.write.target ∨ q = m.legacy.target)
    (hcompletes : fs.present fails m.write.source = true → m.write.Completes fails true fs)
    (hdisplaces : fs.present fails m.write.source = true →
      ¬ m.write.Displaces fails true fs q) :
    m.afterWrite fails fs q = fs q ∧ ∀ c, fs.Only c q → (m.afterWrite fails fs).Only c q := by
  rw [afterWrite]
  split
  · next hseen =>
    have hwrites := not_writes_target hq (hcompletes hseen) (hdisplaces hseen)
    have hrun := @Install.changes_run _ fails fs _ true (apart_write h)
    refine ⟨hrun.eq_of_not hwrites, fun c => hrun.only ?_⟩
    rintro (hreads | hwrites')
    · exact (not_reads_target h hq).1 hreads
    · exact hwrites hwrites'
  · exact ⟨rfl, fun _ => id⟩

/-- The databases of the old directory, and those that the new one may have. -/
def databases (m : Migration) : List PathBuf :=
  [m.write.source, m.legacy.source, m.write.target, m.legacy.target]

/-- A migration that fails leaves the databases that it spares. -/
theorem Fails.eq_of_mem (h : m.sourceDirName ≠ ".helioslite") (hfails : m.Fails fails fs fs')
    (hspares : m.SparesFiles fails fs) (hq : q ∈ m.databases) (hfile : fs.isFile q = true) :
    fs' q = fs q := by
  have hsource : ∀ x, fs' (m.sourceDir ++ [x]) = fs (m.sourceDir ++ [x]) := by
    intro x
    cases hfails with
    | write hseen hrun =>
      exact (Install.changes_run (apart_write h)).eq_of_not (not_writes_source h x).1
    | legacy hwrite hseen hrun =>
      rw [(Install.changes_run (apart_legacy h)).eq_of_not (not_writes_source h x).2]
      exact afterWrite_source h x
  rw [databases, List.mem_cons, List.mem_cons, List.mem_cons, List.mem_singleton] at hq
  rcases hq with rfl | rfl | hq
  · exact hsource _
  · exact hsource _
  obtain ⟨hfirst, hsecond⟩ := hspares q hq hfile
  cases hfails with
  | write hseen hrun =>
    refine @Install.run_error _ fails fs _ _ _ (apart_write h) hrun ?_
    intro hdisplaces
    have hdone := (@Install.run_fst _ fails fs _ _ (apart_write h)).mpr
      (hfirst hseen hdisplaces).1
    rw [hrun] at hdone
    cases hdone
  | legacy hwrite hseen hrun =>
    have hincomplete : ¬ m.legacy.Completes fails (m.opens fails) fs := by
      rw [← completes_afterWrite h, ← Install.run_fst (apart_legacy h), hrun]
      exact Bool.false_ne_true
    rw [present_afterWrite h] at hseen
    have hcompletes : fs.present fails m.write.source = true → m.write.Completes fails true fs :=
      fun hseen => (Install.run_fst (apart_write h)).mp (hwrite hseen)
    obtain ⟨hkept, -⟩ := afterWrite_target h hq hcompletes
      fun hpresent hdisplaces => hincomplete ((hfirst hpresent hdisplaces).2 hseen)
    rw [Install.run_error (apart_legacy h) hrun, hkept]
    rw [displaces_afterWrite h hkept]
    exact fun hdisplaces => hincomplete (hsecond hcompletes hseen hdisplaces)

/-- Of a file that is not spared, the content may be lost. -/
theorem exists_fails_absent (h : m.sourceDirName ≠ ".helioslite")
    (hq : q = m.write.target ∨ q = m.legacy.target) (honly : fs.Only c q)
    (hspares : ¬ m.SparesFile fails fs q) : ∃ fs', m.Fails fails fs fs' ∧ fs'.Absent c := by
  obtain ⟨hreadsWrite, hreadsLegacy⟩ := not_reads_target h hq
  have hwriteRun := @Install.run_fst _ fails fs _ true (apart_write h)
  rw [SparesFile, not_and_or] at hspares
  by_cases hcompletes : fs.present fails m.write.source = true → m.write.Completes fails true fs
  · -- then the legacy database is not installed
    obtain ⟨hseen, hincomplete⟩ : fs.present fails m.legacy.source = true ∧
        ¬ m.legacy.Completes fails (m.opens fails) fs := by
      rcases hspares with hspares | hspares
      · push Not at hspares
        obtain ⟨hpresent, -, hspares⟩ := hspares
        exact hspares (hcompletes hpresent)
      · push Not at hspares
        exact ⟨hspares.2.1, hspares.2.2.2⟩
    have hrun : (m.legacy.run fails (m.opens fails) (m.afterWrite fails fs)).1 = false := by
      rw [← completes_afterWrite h, ← Install.run_fst (apart_legacy h)] at hincomplete
      exact Bool.eq_false_iff.mpr hincomplete
    refine ⟨_, .legacy (fun hpresent => hwriteRun.mpr (hcompletes hpresent))
      (by rw [present_afterWrite h, hseen]) hrun, ?_⟩
    by_cases hfirst : fs.present fails m.write.source = true ∧ m.write.Displaces fails true fs q
    · have hgone : (m.afterWrite fails fs).Absent c := by
        rw [afterWrite, if_pos hfirst.1]
        exact Install.absent_run (apart_write h) honly hreadsWrite hfirst.2
      exact (Install.changes_run (apart_legacy h)).absent hgone
    · obtain ⟨hkept, honly'⟩ := afterWrite_target h hq hcompletes
        fun hpresent hdisplaces => hfirst ⟨hpresent, hdisplaces⟩
      have hdisplaces : m.legacy.Displaces fails (m.opens fails) fs q := by
        rcases hspares with hspares | hspares
        · push Not at hspares
          exact absurd ⟨hspares.1, hspares.2.1⟩ hfirst
        · push Not at hspares
          exact hspares.2.2.1
      exact Install.absent_run (apart_legacy h) (honly' c honly) hreadsLegacy
        ((displaces_afterWrite h hkept).mpr hdisplaces)
  · have hdisplaces : m.write.Displaces fails true fs q := by
      rcases hspares with hspares | hspares
      · push Not at hspares
        exact hspares.2.1
      · push Not at hspares
        exact absurd hspares.1 hcompletes
    push Not at hcompletes
    rw [← hwriteRun] at hcompletes
    exact ⟨_, .write hcompletes.1 (Bool.eq_false_iff.mpr hcompletes.2),
      Install.absent_run (apart_write h) honly hreadsWrite hdisplaces⟩

end Migration

/-! ### What a migration owes -/

/-- A dry run changes nothing, and a migration that fails leaves every database, its content
still at some path. -/
structure Migrates (env : MigrateEnv γ) (dbPath : PathBuf) (fs : FileTree γ) : Prop where
  dryRun : (migrateDataDir env true dbPath fs).2 = fs
  kept : ∀ m ∈ env.migration dbPath, ∀ e, (migrateDataDir env false dbPath fs).1 = .error e →
    ∀ q ∈ m.databases, ∀ content, fs q = some (.file content) →
      ∃ p, (migrateDataDir env false dbPath fs).2 p = some (.file content)

namespace Migration

/-- A dry run finds the new directory, or cannot make the first that is missing, and it can open
the legacy database, or cannot remove it. -/
def Settled (m : Migration) (fails : FileOp → Bool) (fs : FileTree γ) : Prop :=
  (∀ p ∈ m.destinationDir.inits.tail.find? fun p => !fs.isDir p,
    fs.isFile p = true ∨ fails (.createDir p) = true) ∧
  ((fs.createDirAll fails m.destinationDir).1 = true →
    fs.present fails m.legacy.source = true → fails (.opening m.legacy.source) = true →
    ¬ (fs.remove fails m.legacy.source).isSome)

/-- The new directory cannot be made, or there is nothing to migrate, or the databases that the
new directory has are spared. -/
def Spares (m : Migration) (fails : FileOp → Bool) (fs : FileTree γ) : Prop :=
  (fs.createDirAll fails m.destinationDir).1 = true →
  fs.present fails m.legacy.source = true ∨ fs.present fails m.write.source = true →
    m.SparesFiles fails (fs.createDirAll fails m.destinationDir).2

variable {m : Migration} {env : MigrateEnv γ}

/-- What a dry run does to the tree. -/
theorem migrateFiles_dryRun (fs : FileTree γ) :
    (m.migrateFiles env true fs).2 =
      if fs.present env.fails m.legacy.source ∧ env.fails (.opening m.legacy.source) then
        (fs.remove env.fails m.legacy.source).getD fs
      else fs := by
  have hwritten : (if fs.present env.fails m.write.source then m.migrateWriteDb env true fs
      else (.ok (), fs)) = (.ok (), fs) := by
    split <;> rfl
  rw [migrateFiles]
  dsimp only
  rw [hwritten]
  dsimp only
  cases fs.present env.fails m.legacy.source with
  | false => rfl
  | true =>
    simp only [migrateLegacyDb, ↓reduceIte]
    cases env.fails (.opening m.legacy.source) <;> rfl

/-- The migration of a directory that is not the new one yet. -/
theorem migrateDataDir_eq {dbPath : PathBuf} {dryRun : Bool} (hm : m ∈ env.migration dbPath)
    (h : m.sourceDirName ≠ ".helioslite") :
    migrateDataDir env dryRun dbPath fs =
      match fs.createDirAll env.fails m.destinationDir with
      | (false, created) => (.error (.io (.createDir m.destinationDir)), created)
      | (true, created) =>
        if fs.present env.fails m.legacy.source || fs.present env.fails m.write.source then
          m.migrateFiles env dryRun created
        else (.ok (m.report "noop_legacy_missing"), created) := by
  rw [migrateDataDir, show env.migration dbPath = some m from hm]
  exact if_neg h

/-- Where a file is removed there was one, and none was made. -/
theorem remove_createDirAll_ne {created : FileTree γ} {p d : PathBuf} {made : Bool}
    (hmade : fs.createDirAll fails d = (made, created))
    (h : (created.remove fails p).isSome) : (created.remove fails p).getD created ≠ fs := by
  obtain ⟨removed, hremoved⟩ := Option.isSome_iff_exists.mp h
  rw [hremoved, Option.getD_some]
  rintro rfl
  obtain ⟨-, hfile, heq⟩ := FileTree.remove_eq_some_iff.mp hremoved
  obtain ⟨content, hcontent⟩ := FileTree.isFile_iff.mp hfile
  have hsnd : created = (removed.createDirAll fails d).2 := by rw [hmade]
  rw [hsnd, FileTree.createDirAll, FileTree.createDirs_eq_file_iff, heq,
    Function.update_self] at hcontent
  cases hcontent

theorem dryRun_files_iff {created : FileTree γ} {made : Bool}
    (hmade : fs.createDirAll env.fails m.destinationDir = (made, created)) :
    (m.migrateFiles env true created).2 = fs ↔
      created = fs ∧ (fs.present env.fails m.legacy.source = true →
        env.fails (.opening m.legacy.source) = true →
        ¬ (fs.remove env.fails m.legacy.source).isSome) := by
  rw [migrateFiles_dryRun]
  constructor
  · intro heq
    split at heq
    · next hcond =>
      by_cases hremove : (created.remove env.fails m.legacy.source).isSome
      · exact absurd heq (remove_createDirAll_ne hmade hremove)
      · rw [Option.not_isSome_iff_eq_none.mp hremove, Option.getD_none] at heq
        rw [heq] at hremove
        exact ⟨heq, fun _ _ => hremove⟩
    · next hcond =>
      rw [heq] at hcond
      exact ⟨heq, fun hseen hopening => absurd ⟨hseen, hopening⟩ hcond⟩
  · rintro ⟨rfl, hremove⟩
    split
    · next hcond =>
      rw [Option.not_isSome_iff_eq_none.mp (hremove hcond.1 hcond.2), Option.getD_none]
    · rfl

theorem dryRun_iff {dbPath : PathBuf} (hm : m ∈ env.migration dbPath)
    (h : m.sourceDirName ≠ ".helioslite") :
    (migrateDataDir env true dbPath fs).2 = fs ↔ m.Settled env.fails fs := by
  have hdirs := @FileTree.createDirs_eq_iff _ env.fails fs
    m.destinationDir.inits.tail
  rw [migrateDataDir_eq hm h, Settled, ← hdirs, ← FileTree.createDirAll]
  rcases hmade : fs.createDirAll env.fails m.destinationDir with ⟨made, created⟩
  cases made with
  | false => simp
  | true =>
    dsimp only
    split
    · rw [dryRun_files_iff hmade]
      simp
    · next hseen =>
      have hunseen : fs.present env.fails m.legacy.source = false := by
        apply Bool.eq_false_iff.mpr
        intro hpresent
        exact hseen (by rw [hpresent]; rfl)
      simp [hunseen]

theorem settled_fill (contents : PathBuf → γ) :
    m.Settled fails (fs.fill contents) ↔ m.Settled fails fs := by
  simp only [Settled, FileTree.createDirAll, FileTree.createDirs_fill, FileTree.isDir_fill,
    FileTree.isFile_fill, FileTree.present_fill, FileTree.remove_isSome_iff]

theorem sparesFile_fill (contents : PathBuf → γ) :
    m.SparesFile fails (fs.fill contents) q ↔ m.SparesFile fails fs q := by
  simp only [SparesFile, Install.Displaces, Install.Completes, Install.Copies, Install.Clears,
    Install.Moves, CopiesSidecar, FileTree.copy_isSome_iff, FileTree.remove_isSome_iff,
    FileTree.isFile_fill, FileTree.present_fill, FileTree.writable_fill]

end Migration

/-- Contents by which a file is the only one with its content. -/
theorem exists_contents (fs : FileTree ByteArray) (h : fs.isFile q = true) :
    ∃ contents, fs.fill contents q = some (.file ⟨#[1]⟩) ∧ (fs.fill contents).Only ⟨#[1]⟩ q := by
  refine ⟨fun p => if p = q then ⟨#[1]⟩ else ByteArray.empty, ?_, ?_⟩
  · obtain ⟨content, hcontent⟩ := FileTree.isFile_iff.mp h
    rw [FileTree.fill, hcontent, if_pos rfl]
    rfl
  · intro p hp
    by_contra hne
    rw [FileTree.fill, if_neg hne] at hp
    cases hnode : fs p with
    | none =>
      rw [hnode] at hp
      cases hp
    | some node =>
      rw [hnode] at hp
      cases node with
      | dir => cases hp
      | file content =>
        have hsame : ByteArray.empty = ⟨#[1]⟩ := FileNode.file.inj (Option.some.inj hp)
        exact absurd hsame (by decide)

theorem Migration.kept_of_spares {m : Migration} {env : MigrateEnv γ} {dbPath : PathBuf}
    {contents : PathBuf → γ} {e : MigrateError} (hm : m ∈ env.migration dbPath)
    (h : m.sourceDirName ≠ ".helioslite") (hspares : m.Spares env.fails fs)
    (herror : (migrateDataDir env false dbPath (fs.fill contents)).1 = .error e)
    (hq : q ∈ m.databases) (hcontent : fs.fill contents q = some (.file c)) :
    (migrateDataDir env false dbPath (fs.fill contents)).2 q = some (.file c) := by
  have hcreated : (fs.createDirAll env.fails m.destinationDir).2.fill contents q =
      some (.file c) := by
    rw [FileTree.createDirAll, ← FileTree.createDirs_fill_snd, FileTree.createDirs_eq_file_iff]
    exact hcontent
  rw [Migration.migrateDataDir_eq hm h, FileTree.createDirAll, FileTree.createDirs_fill,
    ← FileTree.createDirAll] at herror ⊢
  rw [Spares] at hspares
  rcases hmade : fs.createDirAll env.fails m.destinationDir with ⟨made, created⟩
  rw [hmade] at herror hcreated hspares
  cases made with
  | false => exact hcreated
  | true =>
    dsimp only at herror hspares hcreated ⊢
    rw [FileTree.present_fill, FileTree.present_fill] at herror ⊢
    cases hseen : fs.present env.fails m.legacy.source || fs.present env.fails m.write.source with
    | false =>
      rw [hseen] at herror
      cases herror
    | true =>
      rw [hseen, if_pos rfl] at herror
      rw [if_pos rfl]
      have hspared : m.SparesFiles env.fails (created.fill contents) := by
        intro p hp hfile
        rw [FileTree.isFile_fill] at hfile
        exact (sparesFile_fill contents).mpr (hspares rfl (by simpa using hseen) p hp hfile)
      have hfails := migrateFiles_error_iff.mp ⟨e, Prod.ext herror rfl⟩
      have hfile : (created.fill contents).isFile q = true := FileTree.isFile_iff.mpr ⟨c, hcreated⟩
      exact (hfails.eq_of_mem h hspared hq hfile).trans hcreated

namespace Home

def writeDb : PathBuf := ["/", "home", ".forge", ".forge.writes.db"]

def env (fails : FileOp → Bool) : MigrateEnv ByteArray where
  fails := fails
  home := some ["/", "home"]
  len := ByteArray.size
  openError _ := "unable to open database file"
  count _ _ := 0
  timestamp := "20260101000000"

def migration : Migration where
  sourceDir := ["/", "home", ".forge"]
  home := ["/", "home"]
  writeFile := ".forge.writes.db"

/-- A write database in the old directory. -/
def fresh : FileTree ByteArray := fun p =>
  if p ∈ [["/"], ["/", "home"], ["/", "home", ".forge"]] then some .dir
  else if p = writeDb then some (.file ByteArray.empty)
  else none

/-- A write database in the old directory, and another in the new one. -/
def migrated : FileTree ByteArray := fun p =>
  if p ∈ [["/"], ["/", "home"], ["/", "home", ".forge"], ["/", "home", ".helioslite"]] then
    some .dir
  else if p = writeDb then some (.file ByteArray.empty)
  else if p = migration.write.target then some (.file ⟨#[1]⟩)
  else none

/-- The copy cannot be moved. -/
def stuck (op : FileOp) : Bool := op = .rename migration.write.tmp migration.write.target

theorem only_migrated : migrated.Only ⟨#[1]⟩ migration.write.target := by
  intro p hp
  rw [migrated] at hp
  split_ifs at hp with hdir hwrite htarget
  · cases hp
  · exact absurd (FileNode.file.inj (Option.some.inj hp)) (by decide)
  · exact htarget

theorem migrateDataDir_stuck : ∃ e fs', migrateDataDir (env stuck) false writeDb migrated =
    (.error e, fs') ∧ fs'.Absent ⟨#[1]⟩ := by
  have h : migration.sourceDirName ≠ ".helioslite" := by decide
  have hcopies : migration.write.Copies stuck migrated :=
    FileTree.copy_isSome_iff.mpr ⟨by decide, by decide, by decide⟩
  have hclears : migration.write.Clears stuck migrated :=
    ⟨by decide, FileTree.remove_isSome_iff.mpr ⟨by decide, by decide⟩⟩
  have hdisplaces : migration.write.Displaces stuck true migrated migration.write.target :=
    ⟨hcopies, Or.inr (Or.inr ⟨rfl, rfl, Or.inl hclears⟩)⟩
  have hincomplete : (migration.write.run stuck true migrated).1 = false := by
    apply Bool.eq_false_iff.mpr
    intro hrun
    have hmoves := ((Install.run_fst (Migration.apart_write h)).mp hrun).2.2.1
    exact absurd hmoves (by decide)
  have hfails : Migration.Fails migration stuck migrated
    (migration.write.run stuck true migrated).2 :=
    .write (by decide) hincomplete
  obtain ⟨e, herror⟩ := (@Migration.migrateFiles_error_iff _ _ _ _ (env stuck)).mpr hfails
  refine ⟨e, _, ?_, Install.absent_run (Migration.apart_write h) only_migrated ?_ hdisplaces⟩
  · exact herror
  · exact (Migration.not_reads_target h (Or.inl rfl)).1

end Home

end HeliosLite
