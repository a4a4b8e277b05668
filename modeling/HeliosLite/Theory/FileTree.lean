import HeliosLite.Theory.PathBuf
import Mathlib.Data.List.Infix
import Mathlib.Logic.Function.Basic

/-!
# File trees

A file tree maps paths to directories and to files with their content. Every operation may
fail, and one that fails changes nothing.

## Main definitions

* `FileTree` — what is at each path
* `FileTree.copy`, `remove`, `rename`, `createDirAll` — the operations
* `FileTree.Only`, `FileTree.Absent` — a content is in no file but one, or in none

## Main results

* `copy_eq_some_iff`, `remove_eq_some_iff`, `rename_eq_some_iff` — when an operation on a file
  succeeds
* `Only.copy`, `Only.remove`, `Only.rename` — an operation that displaces the only file with a
  content loses it
* `createDirs_eq_iff` — all directories were there, or the first that was not is not created
-/

namespace Theory

/-- A directory, or a file with its content. -/
inductive FileNode (γ : Type*) where
  | dir
  | file (content : γ)
  deriving DecidableEq

/-- What is at each path. -/
abbrev FileTree (γ : Type*) := PathBuf → Option (FileNode γ)

/-- The operations that may fail. -/
inductive FileOp where
  | present (p : PathBuf)
  | metadata (p : PathBuf)
  | createDir (p : PathBuf)
  | copy (source target : PathBuf)
  | remove (p : PathBuf)
  | rename (source target : PathBuf)
  | opening (p : PathBuf)
  deriving DecidableEq

namespace FileTree

variable {γ : Type*} (fails : FileOp → Bool) (fs : FileTree γ)

def isFile (p : PathBuf) : Bool :=
  match fs p with
  | some (.file _) => true
  | _ => false

def isDir (p : PathBuf) : Bool :=
  match fs p with
  | some .dir => true
  | _ => false

/-- The path is seen; a check that fails sees nothing. -/
def present (p : PathBuf) : Bool := !fails (.present p) && (fs p).isSome

/-- A file can be written there. -/
def writable (p : PathBuf) : Bool := p.parent.any fs.isDir && !fs.isDir p

/-- A file is copied, over another one if need be. -/
def copy (source target : PathBuf) : Option (FileTree γ) :=
  if fails (.copy source target) then none
  else
    match fs source with
    | some (.file content) =>
      if fs.writable target then some (Function.update fs target (some (.file content))) else none
    | _ => none

/-- A file is removed. -/
def remove (p : PathBuf) : Option (FileTree γ) :=
  if fails (.remove p) then none
  else if fs.isFile p then some (Function.update fs p none) else none

/-- A file is moved, over another one if need be. -/
def rename (source target : PathBuf) : Option (FileTree γ) :=
  if fails (.rename source target) then none
  else
    match fs source with
    | some (.file content) =>
      if fs.writable target then
        some (Function.update (Function.update fs source none) target (some (.file content)))
      else none
    | _ => none

/-- A directory is moved with all that is below it to where nothing is. -/
def renameDir (source target : PathBuf) : Option (FileTree γ) :=
  if fails (.rename source target) then none
  else if fs.isDir source && fs.writable target && (fs target).isNone
      && !source.isPrefixOf target then
    some fun p =>
      if target <+: p then fs (source ++ p.drop target.length)
      else if source <+: p then none
      else fs p
  else none

/-- The directories are created one after the other, up to the first that cannot be. -/
def createDirs : List PathBuf → FileTree γ → Bool × FileTree γ
  | [], fs => (true, fs)
  | p :: ps, fs =>
    match fs p with
    | some .dir => createDirs ps fs
    | some (.file _) => (false, fs)
    | none =>
      if fails (.createDir p) then (false, fs)
      else createDirs ps (Function.update fs p (some .dir))

/-- A directory and those above it. -/
def createDirAll (p : PathBuf) : Bool × FileTree γ := createDirs fails p.inits.tail fs

/-- The same files and directories with other contents. -/
def fill (fs : FileTree γ) (contents : PathBuf → γ) : FileTree γ := fun p =>
  (fs p).map fun node =>
    match node with
    | .dir => .dir
    | .file _ => .file (contents p)

/-- The content is in no file but that one. -/
def Only (content : γ) (q : PathBuf) : Prop := ∀ p, fs p = some (.file content) → p = q

/-- The content is in no file. -/
def Absent (content : γ) : Prop := ∀ p, fs p ≠ some (.file content)

attribute [grind =] isFile isDir present writable copy remove rename renameDir createDirs
  createDirAll fill

variable {fails fs} {fs' : FileTree γ} {p q source target : PathBuf} {c : γ}

theorem isFile_iff : fs.isFile p = true ↔ ∃ c, fs p = some (.file c) := by
  rw [isFile]
  split
  · next c h => exact iff_of_true rfl ⟨c, h⟩
  · next h => exact iff_of_false Bool.false_ne_true fun ⟨c, hc⟩ => h c hc

theorem isDir_of_isFile (h : fs.isFile p = true) : fs.isDir p = false := by
  obtain ⟨content, hcontent⟩ := isFile_iff.mp h
  rw [isDir, hcontent]

theorem isDir_of_writable (h : fs.writable p = true) : fs.isDir p = false := by
  rw [writable, Bool.and_eq_true_iff, Bool.not_eq_true'] at h
  exact h.2

/-- A path that is no directory and does not become one. -/
theorem isDir_update {node : Option (FileNode γ)} (h : fs.isDir q = false)
    (hnode : node ≠ some .dir) : isDir (Function.update fs q node) p = fs.isDir p := by
  by_cases heq : p = q
  · rw [heq, h, isDir, Function.update_self]
    split
    · exact absurd rfl hnode
    · rfl
  · rw [isDir, Function.update_of_ne heq, isDir]

theorem Absent.update {node : Option (FileNode γ)} (h : fs.Absent c)
    (hnode : node ≠ some (.file c)) : Absent (Function.update fs q node) c := by
  intro p
  by_cases heq : p = q
  · rw [heq, Function.update_self]
    exact hnode
  · rw [Function.update_of_ne heq]
    exact h p

theorem Only.update {node : Option (FileNode γ)} {target : PathBuf} (h : fs.Only c q)
    (hnode : node ≠ some (.file c)) : Only (Function.update fs target node) c q := by
  intro p hp
  by_cases heq : p = target
  · rw [heq, Function.update_self] at hp
    exact absurd hp hnode
  · rw [Function.update_of_ne heq] at hp
    exact h p hp

/-- The only file with the content is displaced. -/
theorem Only.displace {node : Option (FileNode γ)} (h : fs.Only c q)
    (hnode : node ≠ some (.file c)) : Absent (Function.update fs q node) c := by
  intro p hp
  by_cases heq : p = q
  · rw [heq, Function.update_self] at hp
    exact hnode hp
  · rw [Function.update_of_ne heq] at hp
    exact heq (h p hp)

/-! ### Single operations -/

theorem copy_eq_some_iff :
    fs.copy fails source target = some fs' ↔
      fails (.copy source target) = false ∧ fs.writable target = true ∧
        ∃ content, fs source = some (.file content) ∧
          fs' = Function.update fs target (some (.file content)) := by
  rw [copy]
  cases fails (.copy source target) with
  | true => simp
  | false =>
    cases hsource : fs source with
    | none => simp
    | some node =>
      cases node with
      | dir => simp
      | file content => cases fs.writable target <;> simp [eq_comm]

theorem remove_eq_some_iff :
    fs.remove fails p = some fs' ↔
      fails (.remove p) = false ∧ fs.isFile p = true ∧ fs' = Function.update fs p none := by
  rw [remove]
  cases fails (.remove p) <;> cases fs.isFile p <;> simp [eq_comm]

theorem rename_eq_some_iff :
    fs.rename fails source target = some fs' ↔
      fails (.rename source target) = false ∧ fs.writable target = true ∧
        ∃ content, fs source = some (.file content) ∧
          fs' = Function.update (Function.update fs source none) target
            (some (.file content)) := by
  rw [rename]
  cases fails (.rename source target) with
  | true => simp
  | false =>
    cases hsource : fs source with
    | none => simp
    | some node =>
      cases node with
      | dir => simp
      | file content => cases fs.writable target <;> simp [eq_comm]

theorem copy_isSome_iff : (fs.copy fails source target).isSome ↔
    fails (.copy source target) = false ∧ fs.writable target = true ∧ fs.isFile source = true := by
  rw [Option.isSome_iff_exists, isFile_iff]
  constructor
  · rintro ⟨fs', h⟩
    obtain ⟨hok, hwritable, content, hcontent, -⟩ := copy_eq_some_iff.mp h
    exact ⟨hok, hwritable, content, hcontent⟩
  · rintro ⟨hok, hwritable, content, hcontent⟩
    exact ⟨_, copy_eq_some_iff.mpr ⟨hok, hwritable, content, hcontent, rfl⟩⟩

theorem remove_isSome_iff : (fs.remove fails p).isSome ↔
    fails (.remove p) = false ∧ fs.isFile p = true := by
  rw [Option.isSome_iff_exists]
  constructor
  · rintro ⟨fs', h⟩
    obtain ⟨hok, hfile, -⟩ := remove_eq_some_iff.mp h
    exact ⟨hok, hfile⟩
  · rintro ⟨hok, hfile⟩
    exact ⟨_, remove_eq_some_iff.mpr ⟨hok, hfile, rfl⟩⟩

theorem rename_isSome_iff : (fs.rename fails source target).isSome ↔
    fails (.rename source target) = false ∧ fs.writable target = true ∧
      fs.isFile source = true := by
  rw [Option.isSome_iff_exists, isFile_iff]
  constructor
  · rintro ⟨fs', h⟩
    obtain ⟨hok, hwritable, content, hcontent, -⟩ := rename_eq_some_iff.mp h
    exact ⟨hok, hwritable, content, hcontent⟩
  · rintro ⟨hok, hwritable, content, hcontent⟩
    exact ⟨_, rename_eq_some_iff.mpr ⟨hok, hwritable, content, hcontent, rfl⟩⟩

theorem writable_congr (h : ∀ p, fs'.isDir p = fs.isDir p) : fs'.writable p = fs.writable p := by
  rw [writable, writable, h, funext h]

theorem present_congr (h : fs' p = fs p) : fs'.present fails p = fs.present fails p := by
  rw [present, present, h]

theorem isFile_congr (h : fs' p = fs p) : fs'.isFile p = fs.isFile p := by
  rw [isFile, isFile, h]

theorem copy_isSome_congr (hsource : fs' source = fs source)
    (hdir : ∀ p, fs'.isDir p = fs.isDir p) :
    (fs'.copy fails source target).isSome ↔ (fs.copy fails source target).isSome := by
  rw [copy_isSome_iff, copy_isSome_iff, writable_congr hdir, isFile_congr hsource]

theorem Only.copy (h : fs.Only c q) (hne : source ≠ q)
    (hcopy : fs.copy fails source q = some fs') : fs'.Absent c := by
  obtain ⟨-, -, content, hcontent, rfl⟩ := copy_eq_some_iff.mp hcopy
  exact h.displace fun heq => hne (h _ (hcontent.trans heq))

theorem Only.remove (h : fs.Only c q) (hremove : fs.remove fails q = some fs') :
    fs'.Absent c := by
  obtain ⟨-, -, rfl⟩ := remove_eq_some_iff.mp hremove
  exact h.displace (by simp)

theorem Only.rename (h : fs.Only c q) (hne : source ≠ q)
    (hrename : fs.rename fails source q = some fs') : fs'.Absent c := by
  obtain ⟨-, -, content, hcontent, rfl⟩ := rename_eq_some_iff.mp hrename
  exact (h.update (by simp)).displace fun heq => hne (h _ (hcontent.trans heq))

/-! ### Directories -/

/-- What is there stays. -/
theorem createDirs_of_isSome (ps : List PathBuf) (h : (fs p).isSome) :
    (createDirs fails ps fs).2 p = fs p := by
  induction ps generalizing fs with
  | nil => rfl
  | cons q ps ih =>
    rw [createDirs]
    cases hq : fs q with
    | some node =>
      cases node with
      | dir => exact ih h
      | file content => rfl
    | none =>
      have hne : p ≠ q := by
        rintro rfl
        rw [hq] at h
        cases h
      dsimp only
      split
      · rfl
      · have hsame : Function.update fs q (some .dir) p = fs p := Function.update_of_ne hne _ _
        rw [ih (by rw [hsame]; exact h), hsame]

/-- No files are made. -/
theorem createDirs_eq_file_iff (ps : List PathBuf) :
    (createDirs fails ps fs).2 p = some (.file c) ↔ fs p = some (.file c) := by
  constructor
  · induction ps generalizing fs with
    | nil => exact id
    | cons q ps ih =>
      rw [createDirs]
      cases hq : fs q with
      | some node =>
        cases node with
        | dir => exact ih
        | file content => exact id
      | none =>
        dsimp only
        split
        · exact id
        · intro h
          have hfile := ih h
          by_cases heq : p = q
          · rw [heq, Function.update_self] at hfile
            cases hfile
          · rwa [Function.update_of_ne heq] at hfile
  · intro h
    rw [createDirs_of_isSome ps (by rw [h]; rfl), h]

/-- The tree stays if the first path that is no directory is a file or cannot be created. -/
theorem createDirs_eq_iff (ps : List PathBuf) :
    (createDirs fails ps fs).2 = fs ↔
      ∀ p ∈ ps.find? fun p => !fs.isDir p, fs.isFile p = true ∨ fails (.createDir p) = true := by
  induction ps with
  | nil => simp [createDirs]
  | cons q ps ih =>
    rw [createDirs, List.find?_cons]
    cases hq : fs q with
    | some node =>
      cases node with
      | dir =>
        have hdir : fs.isDir q = true := by rw [isDir, hq]
        rw [hdir]
        exact ih
      | file content =>
        have hfile : fs.isFile q = true := isFile_iff.mpr ⟨content, hq⟩
        rw [isDir_of_isFile hfile]
        simp [hfile]
    | none =>
      have hdir : fs.isDir q = false := by rw [isDir, hq]
      have hfile : fs.isFile q = false := by rw [isFile, hq]
      rw [hdir]
      cases hfails : fails (.createDir q) with
      | true => simp [hfails]
      | false =>
        refine iff_of_false ?_ (by simp [hfile, hfails])
        intro heq
        -- the first directory is there afterwards
        have hthere := @createDirs_of_isSome _ fails (Function.update fs q (some .dir))
          q ps (by rw [Function.update_self]; rfl)
        rw [Function.update_self] at hthere
        dsimp only at heq
        rw [if_neg Bool.false_ne_true] at heq
        rw [heq, hq] at hthere
        cases hthere

/-! ### Contents -/

@[simp] theorem isSome_fill (contents : PathBuf → γ) :
    (fs.fill contents p).isSome = (fs p).isSome :=
  Option.isSome_map

@[simp] theorem isDir_fill (contents : PathBuf → γ) : (fs.fill contents).isDir p = fs.isDir p := by
  rw [isDir, isDir, fill]
  rcases fs p with _ | (_ | _) <;> rfl

@[simp] theorem isFile_fill (contents : PathBuf → γ) :
    (fs.fill contents).isFile p = fs.isFile p := by
  rw [isFile, isFile, fill]
  rcases fs p with _ | (_ | _) <;> rfl

@[simp] theorem present_fill (contents : PathBuf → γ) :
    (fs.fill contents).present fails p = fs.present fails p := by
  rw [present, present, isSome_fill]

@[simp] theorem writable_fill (contents : PathBuf → γ) :
    (fs.fill contents).writable p = fs.writable p := by
  rw [writable, writable, isDir_fill]
  congr 2
  funext q
  exact isDir_fill contents

theorem update_dir_fill (contents : PathBuf → γ) :
    Function.update (fs.fill contents) p (some .dir) =
      fill (Function.update fs p (some .dir)) contents := by
  funext q
  by_cases heq : q = p
  · simp only [heq, fill, Function.update_self]
    rfl
  · simp only [fill, Function.update_of_ne heq]

theorem createDirs_fill (contents : PathBuf → γ) (ps : List PathBuf) :
    createDirs fails ps (fs.fill contents) =
      ((createDirs fails ps fs).1, (createDirs fails ps fs).2.fill contents) := by
  induction ps generalizing fs with
  | nil => rfl
  | cons q ps ih =>
    rw [createDirs, createDirs]
    have hfill : fs.fill contents q = (fs q).map fun node =>
      match node with
      | .dir => .dir
      | .file _ => .file (contents q) := rfl
    rw [hfill]
    cases hq : fs q with
    | some node =>
      cases node with
      | dir => exact ih
      | file content => rfl
    | none =>
      dsimp only [Option.map_none]
      split
      · rfl
      · rw [update_dir_fill, ih]

theorem createDirs_fill_snd (contents : PathBuf → γ) (ps : List PathBuf) :
    (createDirs fails ps (fs.fill contents)).2 = (createDirs fails ps fs).2.fill contents := by
  rw [createDirs_fill]

/-! ### Changes -/

/-- A tree after some operations: files are copied or moved from the paths `R` and removed from
or written to the paths `T`. -/
inductive Changes (fails : FileOp → Bool) (T R : PathBuf → Prop) (fs : FileTree γ) :
    FileTree γ → Prop where
  | refl : Changes fails T R fs fs
  | copy {fs₁ fs₂ : FileTree γ} {source target : PathBuf} (h : Changes fails T R fs fs₁)
      (hsource : R source) (htarget : T target) (hcopy : fs₁.copy fails source target = some fs₂) :
      Changes fails T R fs fs₂
  | remove {fs₁ fs₂ : FileTree γ} {p : PathBuf} (h : Changes fails T R fs fs₁) (hp : T p)
      (hremove : fs₁.remove fails p = some fs₂) : Changes fails T R fs fs₂
  | rename {fs₁ fs₂ : FileTree γ} {source target : PathBuf} (h : Changes fails T R fs fs₁)
      (hsource : R source ∧ T source) (htarget : T target)
      (hrename : fs₁.rename fails source target = some fs₂) : Changes fails T R fs fs₂

namespace Changes

variable {T R T' R' : PathBuf → Prop} {fs₁ fs₂ : FileTree γ}

theorem mono (h : Changes fails T R fs fs') (hT : ∀ p, T p → T' p) (hR : ∀ p, R p → R' p) :
    Changes fails T' R' fs fs' := by
  induction h with
  | refl => exact .refl
  | copy _ hsource htarget hcopy ih => exact ih.copy (hR _ hsource) (hT _ htarget) hcopy
  | remove _ hp hremove ih => exact ih.remove (hT _ hp) hremove
  | rename _ hsource htarget hrename ih =>
    exact ih.rename ⟨hR _ hsource.1, hT _ hsource.2⟩ (hT _ htarget) hrename

theorem trans (h : Changes fails T R fs fs₁) (h' : Changes fails T R fs₁ fs₂) :
    Changes fails T R fs fs₂ := by
  induction h' with
  | refl => exact h
  | copy _ hsource htarget hcopy ih => exact ih.copy hsource htarget hcopy
  | remove _ hp hremove ih => exact ih.remove hp hremove
  | rename _ hsource htarget hrename ih => exact ih.rename hsource htarget hrename

/-- What is at other paths stays. -/
theorem eq_of_not (h : Changes fails T R fs fs') (hp : ¬ T p) : fs' p = fs p := by
  have hne : ∀ {q}, T q → p ≠ q := by
    rintro q hq rfl
    exact hp hq
  induction h with
  | refl => rfl
  | copy _ _ htarget hcopy ih =>
    obtain ⟨-, -, content, -, rfl⟩ := copy_eq_some_iff.mp hcopy
    rw [Function.update_of_ne (hne htarget), ih]
  | remove _ hq hremove ih =>
    obtain ⟨-, -, rfl⟩ := remove_eq_some_iff.mp hremove
    rw [Function.update_of_ne (hne hq), ih]
  | rename _ hsource htarget hrename ih =>
    obtain ⟨-, -, content, -, rfl⟩ := rename_eq_some_iff.mp hrename
    rw [Function.update_of_ne (hne htarget), Function.update_of_ne (hne hsource.2), ih]

/-- Directories stay, and none are made. -/
theorem isDir_eq (h : Changes fails T R fs fs') (p : PathBuf) : fs'.isDir p = fs.isDir p := by
  induction h with
  | refl => rfl
  | copy _ _ _ hcopy ih =>
    obtain ⟨-, hwritable, content, -, rfl⟩ := copy_eq_some_iff.mp hcopy
    rw [isDir_update (isDir_of_writable hwritable) (by simp), ih]
  | remove _ _ hremove ih =>
    obtain ⟨-, hfile, rfl⟩ := remove_eq_some_iff.mp hremove
    rw [isDir_update (isDir_of_isFile hfile) (by simp), ih]
  | rename _ _ _ hrename ih =>
    obtain ⟨-, hwritable, content, hcontent, rfl⟩ := rename_eq_some_iff.mp hrename
    have hfile := isDir_of_isFile (isFile_iff.mpr ⟨content, hcontent⟩)
    have hgone : ∀ p, isDir (Function.update _ _ none) p = _ :=
      fun p => isDir_update hfile (by simp)
    rw [isDir_update _ (by simp), hgone, ih]
    rw [hgone]
    exact isDir_of_writable hwritable

/-- A content that is in no file does not come back. -/
theorem absent (h : Changes fails T R fs fs') (habsent : fs.Absent c) : fs'.Absent c := by
  induction h with
  | refl => exact habsent
  | copy _ _ _ hcopy ih =>
    obtain ⟨-, -, content, hsource, rfl⟩ := copy_eq_some_iff.mp hcopy
    exact ih.update fun heq => ih _ (hsource.trans heq)
  | remove _ _ hremove ih =>
    obtain ⟨-, -, rfl⟩ := remove_eq_some_iff.mp hremove
    exact ih.update (by simp)
  | rename _ _ _ hrename ih =>
    obtain ⟨-, -, content, hsource, rfl⟩ := rename_eq_some_iff.mp hrename
    exact (ih.update (by simp)).update fun heq => ih _ (hsource.trans heq)

/-- A content does not spread from a file that is not read. -/
theorem only (h : Changes fails T R fs fs') (hq : ¬ R q) (honly : fs.Only c q) :
    fs'.Only c q := by
  have hne : ∀ {p}, R p → p ≠ q := by
    rintro p hp rfl
    exact hq hp
  induction h with
  | refl => exact honly
  | copy _ hsource _ hcopy ih =>
    obtain ⟨-, -, content, hcontent, rfl⟩ := copy_eq_some_iff.mp hcopy
    exact ih.update fun heq => hne hsource (ih _ (hcontent.trans heq))
  | remove _ _ hremove ih =>
    obtain ⟨-, -, rfl⟩ := remove_eq_some_iff.mp hremove
    exact ih.update (by simp)
  | rename _ hsource _ hrename ih =>
    obtain ⟨-, -, content, hcontent, rfl⟩ := rename_eq_some_iff.mp hrename
    exact (ih.update (by simp)).update fun heq => hne hsource.1 (ih _ (hcontent.trans heq))

end Changes

end FileTree

end Theory
