import Mathlib.Data.List.Dedup
import Mathlib.Data.List.Sort

/-!
# The status of a workspace

The hashes of the local files are compared with those that the server lists. What only the server
has is to be deleted, and what is new or modified is to be uploaded.

## Main definitions

* `WorkspaceStatus.fileStatuses` — the status of each path that one side has
* `WorkspaceStatus.getSyncPaths` — the paths to delete and to upload

## Main results

* `WorkspaceStatus.mem_delete`, `WorkspaceStatus.mem_upload` — which paths these are
-/

namespace HeliosLite

/-! ### The comparison -/

structure FileHash where
  path : String
  hash : String
  deriving DecidableEq, Repr

inductive SyncStatus where
  | inSync
  | modified
  | new
  | deleted
  | failed
  deriving DecidableEq, Repr

structure FileStatus where
  path : String
  status : SyncStatus
  deriving DecidableEq, Repr

def IsAbsolute (path : String) : Prop := path.toList.head? = some '/'

instance (path : String) : Decidable (IsAbsolute path) :=
  inferInstanceAs (Decidable (path.toList.head? = some '/'))

/-- A relative path is joined to the base directory. -/
def absolutize (baseDir path : String) : String :=
  if IsAbsolute path ∨ baseDir = "" then path
  else if baseDir.toList.getLast? = some '/' then baseDir ++ path
  else baseDir ++ "/" ++ path

/-- The hashes by path; the last entry of a path counts. -/
def hashMap : List FileHash → String → Option String
  | [], _ => none
  | f :: files, path => (hashMap files path).or (if f.path = path then some f.hash else none)

/-- The remote files with absolute paths. -/
structure WorkspaceStatus where
  baseDir : String
  remoteFiles : List FileHash

namespace WorkspaceStatus

def absolute (baseDir : String) (files : List FileHash) : List FileHash :=
  files.map fun f => { f with path := absolutize baseDir f.path }

def new (baseDir : String) (remoteFiles : List FileHash) : WorkspaceStatus :=
  { baseDir := baseDir, remoteFiles := absolute baseDir remoteFiles }

/-- The status of a path with these hashes. -/
def statusOf : Option String → Option String → Option SyncStatus
  | some l, some r => some (if l = r then .inSync else .modified)
  | some _, none => some .new
  | none, some _ => some .deleted
  | none, none => none

def fileStatuses (plan : WorkspaceStatus) (localFiles : List FileHash) : List FileStatus :=
  let localFiles := absolute plan.baseDir localFiles
  let allPaths := ((localFiles ++ plan.remoteFiles).map (·.path)).dedup.insertionSort (· ≤ ·)
  allPaths.filterMap fun path =>
    (statusOf (hashMap localFiles path) (hashMap plan.remoteFiles path)).map (⟨path, ·⟩)

/-- The paths to delete from the server and those to upload. -/
structure SyncPaths where
  delete : List String
  upload : List String

def getSyncPaths (plan : WorkspaceStatus) (localHashes : List FileHash) : SyncPaths :=
  let statuses := plan.fileStatuses localHashes
  { delete := (statuses.filter (·.status = .deleted)).map (·.path)
    upload := (statuses.filter fun s => s.status = .modified ∨ s.status = .new).map (·.path) }

end WorkspaceStatus

/-! ### Hashes by path -/

theorem absolutize_of_isAbsolute {path : String} (h : IsAbsolute path) (baseDir : String) :
    absolutize baseDir path = path := if_pos (Or.inl h)

theorem hashMap_append (files more : List FileHash) (path : String) :
    hashMap (files ++ more) path = (hashMap more path).or (hashMap files path) := by
  induction files with
  | nil => simp [hashMap]
  | cons f files ih => rw [List.cons_append, hashMap, ih, hashMap, Option.or_assoc]

theorem isSome_hashMap (files : List FileHash) (path : String) :
    (hashMap files path).isSome ↔ path ∈ files.map (·.path) := by
  induction files with
  | nil => simp [hashMap]
  | cons f files ih =>
    rw [hashMap, Option.isSome_or, Bool.or_eq_true, ih, List.map_cons, List.mem_cons, or_comm]
    apply or_congr_left
    by_cases hpath : f.path = path
    · simp [hpath]
    · simp [hpath, Ne.symm hpath]

theorem hashMap_filter (files : List FileHash) (p : String → Bool) (path : String) :
    hashMap (files.filter fun f => p f.path) path =
      if p path then hashMap files path else none := by
  induction files with
  | nil => simp [hashMap]
  | cons f files ih =>
    rw [List.filter_cons]
    by_cases hpath : f.path = path
    · subst hpath
      by_cases hp : p f.path <;> simp [hashMap, hp, ih]
    · have hskip : hashMap (f :: files) path = hashMap files path := by simp [hashMap, hpath]
      rw [hskip, ← ih]
      split_ifs
      · simp [hashMap, hpath]
      · rfl

namespace WorkspaceStatus

theorem absolute_eq_self {files : List FileHash} (h : ∀ f ∈ files, IsAbsolute f.path)
    (baseDir : String) : absolute baseDir files = files := by
  rw [absolute, List.map_congr_left fun f hf =>
    show _ = f by rw [absolutize_of_isAbsolute (h f hf)], List.map_id']

theorem absolute_append (baseDir : String) (files more : List FileHash) :
    absolute baseDir (files ++ more) = absolute baseDir files ++ absolute baseDir more :=
  List.map_append

variable {plan : WorkspaceStatus} {localHashes : List FileHash} {path : String}

theorem mem_fileStatuses {status : SyncStatus} :
    ⟨path, status⟩ ∈ plan.fileStatuses localHashes ↔
      statusOf (hashMap (absolute plan.baseDir localHashes) path)
        (hashMap plan.remoteFiles path) = some status := by
  unfold fileStatuses
  rw [List.mem_filterMap]
  constructor
  · rintro ⟨other, -, hstatus⟩
    obtain ⟨found, hfound, heq⟩ := Option.map_eq_some_iff.mp hstatus
    obtain ⟨rfl, rfl⟩ := FileStatus.mk.inj heq
    exact hfound
  · intro hstatus
    refine ⟨path, ?_, by rw [hstatus]; rfl⟩
    rw [List.mem_insertionSort, List.mem_dedup, List.map_append, List.mem_append,
      ← isSome_hashMap, ← isSome_hashMap]
    by_contra hnone
    rw [not_or, Bool.not_eq_true, Bool.not_eq_true, Option.isSome_eq_false_iff,
      Option.isSome_eq_false_iff, Option.isNone_iff_eq_none, Option.isNone_iff_eq_none] at hnone
    rw [hnone.1, hnone.2] at hstatus
    cases hstatus

theorem mem_delete : path ∈ (plan.getSyncPaths localHashes).delete ↔
    hashMap (absolute plan.baseDir localHashes) path = none ∧
      (hashMap plan.remoteFiles path).isSome := by
  have hmem : path ∈ (plan.getSyncPaths localHashes).delete ↔
      ⟨path, .deleted⟩ ∈ plan.fileStatuses localHashes := by
    simp only [getSyncPaths, List.mem_map, List.mem_filter, decide_eq_true_eq]
    constructor
    · rintro ⟨⟨other, status⟩, ⟨hstatus, rfl⟩, rfl⟩
      exact hstatus
    · intro hstatus
      exact ⟨_, ⟨hstatus, rfl⟩, rfl⟩
  rw [hmem, mem_fileStatuses]
  cases hashMap (absolute plan.baseDir localHashes) path <;>
    cases hashMap plan.remoteFiles path <;> simp [statusOf]
  split_ifs <;> nofun

theorem mem_upload : path ∈ (plan.getSyncPaths localHashes).upload ↔
    ∃ l, hashMap (absolute plan.baseDir localHashes) path = some l ∧
      hashMap plan.remoteFiles path ≠ some l := by
  have hmem : path ∈ (plan.getSyncPaths localHashes).upload ↔
      ⟨path, .modified⟩ ∈ plan.fileStatuses localHashes ∨
        ⟨path, .new⟩ ∈ plan.fileStatuses localHashes := by
    simp only [getSyncPaths, List.mem_map, List.mem_filter, decide_eq_true_eq]
    constructor
    · rintro ⟨⟨other, status⟩, ⟨hstatus, rfl | rfl⟩, rfl⟩
      · exact Or.inl hstatus
      · exact Or.inr hstatus
    · rintro (hstatus | hstatus)
      · exact ⟨_, ⟨hstatus, Or.inl rfl⟩, rfl⟩
      · exact ⟨_, ⟨hstatus, Or.inr rfl⟩, rfl⟩
  rw [hmem, mem_fileStatuses, mem_fileStatuses]
  cases hashMap (absolute plan.baseDir localHashes) path with
  | none => cases hashMap plan.remoteFiles path <;> simp [statusOf]
  | some l =>
    cases hashMap plan.remoteFiles path with
    | none => simp [statusOf]
    | some r =>
      by_cases heq : l = r
      · simp [statusOf, heq]
      · simp [statusOf, heq, Ne.symm heq]

/-- The comparison finds no failures. -/
theorem countP_failed_fileStatuses (plan : WorkspaceStatus) (localHashes : List FileHash) :
    (plan.fileStatuses localHashes).countP (·.status = .failed) = 0 := by
  rw [List.countP_eq_zero]
  rintro ⟨path, status⟩ hstatus
  rw [mem_fileStatuses] at hstatus
  simp only [decide_eq_true_eq]
  rintro rfl
  unfold statusOf at hstatus
  split at hstatus
  · split_ifs at hstatus <;> cases hstatus
  · cases hstatus
  · cases hstatus
  · cases hstatus

end WorkspaceStatus

end HeliosLite
