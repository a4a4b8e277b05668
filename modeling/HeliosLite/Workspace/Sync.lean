import HeliosLite.Workspace.Status

/-!
# Synchronisation of a workspace

A run hashes the local files and compares them with the remote index. What only the server has is
deleted there, and what is new or modified is uploaded in batches. A file that cannot be read is
missing from the local hashes, and so is every file when discovery fails; the comparison then
takes it for a file that was deleted.

## Main definitions

* `SyncWorld` — the files, the remote index, and what succeeds during a run
* `WorkspaceSyncEngine.run` — a run, with the remote index that it leaves
* `SyncRun.Right` — what is promised of a run

## Main results

* `WorkspaceSyncEngine.deleted_safe_iff` — when a run deletes no file that exists
* `WorkspaceSyncEngine.run_synced_iff` — when a run keeps the promise
-/

namespace HeliosLite

/-! ### The engine -/

/-- The items of a stream that are gathered into batches of a size. -/
def chunksFrom {α : Type} (size : ℕ) : List α → List α → List (List α)
  | batch, [] => if batch = [] then [] else [batch]
  | batch, x :: xs =>
    if batch.length + 1 = size then (batch ++ [x]) :: chunksFrom size [] xs
    else chunksFrom size (batch ++ [x]) xs

structure WorkspaceSyncEngine where
  workspaceRoot : String
  batchSize : ℕ

/-- The local files that discovery lists if it succeeds, the disk, the remote index, and what
succeeds during a run: discovery, the reads for the hashes, the listing of the remote index, the
deletion, and the reads and batches of the upload. -/
structure SyncWorld where
  files : List String
  absolute : ∀ path ∈ files, IsAbsolute path
  disk : String → Option String
  remote : List FileHash
  discovers : Bool
  hashable : String → Bool
  lists : Bool
  deletes : Bool
  readable : String → Bool
  uploads : ℕ → Bool

inductive SyncError where
  | discovery
  | fileRead (path : String)
  deriving DecidableEq, Repr

inductive SyncResult where
  | ok
  /-- Failed to sync {count} file(s) -/
  | syncFailed (count : ℕ)
  | listingFailed
  | panicked
  deriving DecidableEq, Repr

/-- The end of a run: its result, the remote index, and the paths that were deleted from it. -/
structure SyncRun where
  result : SyncResult
  remote : List FileHash
  deleted : List String

/-- Only the reads of single files count as failures. -/
def extractFailedStatuses {α : Type} (results : List (Except SyncError α)) : List FileStatus :=
  results.filterMap fun r =>
    match r with
    | .error (.fileRead path) => some { path := path, status := .failed }
    | _ => none

namespace WorkspaceSyncEngine

variable (computeHash : String → String) (engine : WorkspaceSyncEngine) (w : SyncWorld)

/-- A file is read and hashed. -/
def readHash (path : String) : Except SyncError FileHash :=
  match w.disk path with
  | some content =>
    if w.hashable path then .ok { path := path, hash := computeHash content }
    else .error (.fileRead path)
  | none => .error (.fileRead path)

/-- A failed discovery is an item of the stream like a file that cannot be read. -/
def readHashes : List (Except SyncError FileHash) :=
  if w.discovers then w.files.map (readHash computeHash w) else [.error .discovery]

/-- Entries are removed by their absolute paths. -/
def removed (remote : List FileHash) (paths : List String) : List FileHash :=
  remote.filter fun f => absolutize engine.workspaceRoot f.path ∉ paths

def put (remote : List FileHash) (f : FileHash) : List FileHash :=
  engine.removed remote [f.path] ++ [f]

/-- The files of a batch, if each can be read. -/
def readBatch (batch : List String) : Option (List FileHash) :=
  batch.mapM fun path =>
    if w.readable path then (w.disk path).map fun content => ⟨path, computeHash content⟩ else none

/-- The batches are sent in order; the number of files in those that fail is added up. -/
def uploadFiles : ℕ → List (List String) → List FileHash → List FileHash × ℕ
  | _, [], remote => (remote, 0)
  | number, batch :: batches, remote =>
    match readBatch computeHash w batch, w.uploads number with
    | some files, true => uploadFiles (number + 1) batches (files.foldl engine.put remote)
    | _, _ =>
      let (remote, failed) := uploadFiles (number + 1) batches remote
      (remote, batch.length + failed)

/-- Splitting into batches of no files panics: when the files are read, and else before the
upload. -/
def run : SyncRun :=
  if w.discovers ∧ engine.batchSize = 0 then
    { result := .panicked, remote := w.remote, deleted := [] }
  else
    let results := readHashes computeHash w
    let failedStatuses := extractFailedStatuses results
    let localHashes := results.filterMap Except.toOption
    if w.lists then
      let plan := WorkspaceStatus.new engine.workspaceRoot w.remote
      let statuses := plan.fileStatuses localHashes ++ failedStatuses
      let failedFiles := statuses.countP (·.status = .failed)
      let syncPaths := plan.getSyncPaths localHashes
      let deleted := if syncPaths.delete ≠ [] ∧ w.deletes then syncPaths.delete else []
      let failedFiles :=
        if syncPaths.delete ≠ [] ∧ ¬w.deletes then failedFiles + syncPaths.delete.length
        else failedFiles
      let remote := engine.removed w.remote deleted
      if engine.batchSize = 0 then { result := .panicked, remote := remote, deleted := deleted }
      else
        let (remote, failed) :=
          engine.uploadFiles computeHash w 0 (chunksFrom engine.batchSize [] syncPaths.upload)
            remote
        let failedFiles := failedFiles + failed
        { result := if failedFiles > 0 then .syncFailed failedFiles else .ok
          remote := remote
          deleted := deleted }
    else { result := .listingFailed, remote := w.remote, deleted := [] }

end WorkspaceSyncEngine

/-! ### Runs -/

theorem flatten_chunksFrom {α : Type} (size : ℕ) (batch l : List α) :
    (chunksFrom size batch l).flatten = batch ++ l := by
  induction l generalizing batch with
  | nil =>
    rw [chunksFrom]
    split_ifs with hbatch
    · rw [hbatch]
      rfl
    · simp
  | cons x l ih =>
    rw [chunksFrom]
    split_ifs
    · rw [List.flatten_cons, ih, List.nil_append, List.append_assoc]
      rfl
    · rw [ih, List.append_assoc]
      rfl

theorem ne_nil_of_mem_chunksFrom {α : Type} {size : ℕ} {batch l b : List α}
    (h : b ∈ chunksFrom size batch l) : b ≠ [] := by
  induction l generalizing batch with
  | nil =>
    rw [chunksFrom] at h
    split_ifs at h with hbatch
    · cases h
    · rw [List.mem_singleton.mp h]
      exact hbatch
  | cons x l ih =>
    rw [chunksFrom] at h
    split_ifs at h
    · rcases List.mem_cons.mp h with rfl | h
      · exact List.append_ne_nil_of_right_ne_nil _ (List.cons_ne_nil _ _)
      · exact ih h
    · exact ih h

/-- The hash of a local file. -/
def SyncWorld.localHash (computeHash : String → String) (w : SyncWorld) (path : String) :
    Option String :=
  if path ∈ w.files then (w.disk path).map computeHash else none

/-- The remote index as a map from absolute paths. -/
def WorkspaceSyncEngine.indexed (engine : WorkspaceSyncEngine) (remote : List FileHash) :
    String → Option String :=
  hashMap (WorkspaceStatus.absolute engine.workspaceRoot remote)

/-- No path of a file that exists is deleted. If the run is successful, the remote index lists the
local files with their hashes. -/
def SyncRun.Right (computeHash : String → String) (engine : WorkspaceSyncEngine) (w : SyncWorld)
    (r : SyncRun) : Prop :=
  (∀ path ∈ w.files, (w.disk path).isSome → path ∉ r.deleted) ∧
    (r.result = .ok → ∀ path, engine.indexed r.remote path = w.localHash computeHash path)

/-- If the server lists its files: when discovery succeeds, no file that exists and cannot be read
for its hash is in the remote index, or the deletion fails. When discovery fails, there is no local
file, or there is something to delete and the deletion fails. -/
def SyncWorld.Careful (engine : WorkspaceSyncEngine) (w : SyncWorld) : Prop :=
  w.lists = true →
    if w.discovers then
      engine.batchSize ≠ 0 → w.deletes = true → ∀ path ∈ w.files, (w.disk path).isSome →
        w.hashable path = false → engine.indexed w.remote path = none
    else if engine.batchSize = 0 then
      w.deletes = true → ∀ path ∈ w.files, (w.disk path).isSome →
        engine.indexed w.remote path = none
    else (∀ path ∈ w.files, w.disk path = none) ∨ (w.deletes = false ∧ w.remote ≠ [])

namespace WorkspaceSyncEngine

open WorkspaceStatus

variable {computeHash : String → String} {engine : WorkspaceSyncEngine} {w : SyncWorld}

theorem indexed_removed (remote : List FileHash) (paths : List String) (path : String) :
    engine.indexed (engine.removed remote paths) path =
      if path ∈ paths then none else engine.indexed remote path := by
  have hfilter : absolute engine.workspaceRoot (engine.removed remote paths) =
      (absolute engine.workspaceRoot remote).filter fun f => f.path ∉ paths := by
    rw [removed, absolute, absolute, List.filter_map]
    rfl
  rw [indexed, hfilter, hashMap_filter _ fun path => decide (path ∉ paths)]
  by_cases hpath : path ∈ paths <;> simp [hpath, indexed]

theorem indexed_put (remote : List FileHash) {f : FileHash} (hf : IsAbsolute f.path)
    (path : String) : engine.indexed (engine.put remote f) path =
      if f.path = path then some f.hash else engine.indexed remote path := by
  have hself : absolute engine.workspaceRoot [f] = [f] :=
    absolute_eq_self (by simpa using hf) _
  rw [put, indexed, absolute_append, hself, hashMap_append, ← indexed, indexed_removed]
  by_cases hpath : f.path = path
  · simp [hashMap, hpath]
  · simp [hashMap, hpath, Ne.symm hpath]

theorem indexed_foldl_put {files : List FileHash} (hfiles : ∀ f ∈ files, IsAbsolute f.path)
    (remote : List FileHash) (path : String) :
    engine.indexed (files.foldl engine.put remote) path =
      (hashMap files path).or (engine.indexed remote path) := by
  induction files generalizing remote with
  | nil => simp [hashMap]
  | cons f files ih =>
    obtain ⟨hf, hfiles⟩ := List.forall_mem_cons.mp hfiles
    rw [List.foldl_cons, ih hfiles, indexed_put remote hf, hashMap, Option.or_assoc]
    split_ifs <;> simp

/-- A batch that is read has the content of each of its files. -/
theorem hashMap_readBatch {batch : List String} {files : List FileHash}
    (h : readBatch computeHash w batch = some files) :
    files.map (·.path) = batch ∧ ∀ path, hashMap files path =
      if path ∈ batch then (w.disk path).map computeHash else none := by
  unfold readBatch at h
  induction batch generalizing files with
  | nil =>
    obtain rfl := Option.some.inj h
    exact ⟨rfl, fun _ => rfl⟩
  | cons first batch ih =>
    rw [List.mapM_cons] at h
    obtain ⟨f, hf, hrest⟩ := Option.bind_eq_some_iff.mp h
    obtain ⟨rest, hbatch, hcons⟩ := Option.bind_eq_some_iff.mp hrest
    obtain rfl := Option.some.inj hcons
    obtain ⟨hpaths, hhashes⟩ := ih hbatch
    split_ifs at hf
    obtain ⟨content, hcontent, rfl⟩ := Option.map_eq_some_iff.mp hf
    refine ⟨by rw [List.map_cons, hpaths], ?_⟩
    intro path
    rw [hashMap, hhashes]
    by_cases hpath : first = path
    · subst hpath
      by_cases hmem : first ∈ batch <;> simp [hmem, hcontent]
    · simp [hpath, Ne.symm hpath]

/-- If no batch fails, the files of all batches are put into the index. -/
theorem indexed_uploadFiles {batches : List (List String)} (hbatches : ∀ b ∈ batches, b ≠ [])
    (habsolute : ∀ path ∈ batches.flatten, IsAbsolute path) {number : ℕ} {remote : List FileHash}
    (h : (engine.uploadFiles computeHash w number batches remote).2 = 0) (path : String) :
    engine.indexed (engine.uploadFiles computeHash w number batches remote).1 path =
      if path ∈ batches.flatten then (w.disk path).map computeHash
      else engine.indexed remote path := by
  induction batches generalizing number remote with
  | nil => rfl
  | cons batch batches ih =>
    obtain ⟨hbatch, hbatches⟩ := List.forall_mem_cons.mp hbatches
    have hlater : ∀ path ∈ batches.flatten, IsAbsolute path := fun path hpath =>
      habsolute path (by simp [List.flatten_cons, hpath])
    have hfailed : readBatch computeHash w batch = none ∨ w.uploads number = false → False := by
      intro hfails
      have hzero : batch.length = 0 := by
        unfold uploadFiles at h
        rcases hfails with hfails | hfails <;> rw [hfails] at h
        · exact (Nat.add_eq_zero_iff.mp h).1
        · cases hread : readBatch computeHash w batch <;> rw [hread] at h <;>
            exact (Nat.add_eq_zero_iff.mp h).1
      exact hbatch (List.length_eq_zero_iff.mp hzero)
    cases hread : readBatch computeHash w batch with
    | none => exact (hfailed (Or.inl hread)).elim
    | some files =>
      have hsent : w.uploads number = true := by
        by_contra hnot
        exact hfailed (Or.inr (Bool.eq_false_of_not_eq_true hnot))
      rw [uploadFiles, hread, hsent] at h ⊢
      obtain ⟨hpaths, hhashes⟩ := hashMap_readBatch hread
      have hfiles : ∀ f ∈ files, IsAbsolute f.path := by
        intro f hf
        apply habsolute
        rw [List.flatten_cons, List.mem_append]
        exact Or.inl (hpaths ▸ List.mem_map_of_mem hf)
      have hsome : ∀ path ∈ batch, (w.disk path).isSome := by
        intro path hpath
        rw [← hpaths, ← isSome_hashMap, hhashes] at hpath
        split_ifs at hpath
        · rwa [Option.isSome_map] at hpath
        · cases hpath
      rw [ih hbatches hlater h, indexed_foldl_put hfiles, hhashes, List.flatten_cons]
      by_cases hmem : path ∈ batches.flatten
      · simp [hmem]
      · by_cases hfirst : path ∈ batch
        · obtain ⟨content, hcontent⟩ := Option.isSome_iff_exists.mp (hsome path hfirst)
          simp [hmem, hfirst, hcontent]
        · simp [hmem, hfirst]

/-! ### Hashes of the local files -/

/-- The hashes that the first pass finds. -/
def localHashes (computeHash : String → String) (w : SyncWorld) : List FileHash :=
  (readHashes computeHash w).filterMap Except.toOption

theorem toOption_readHash (w : SyncWorld) (path : String) :
    (readHash computeHash w path).toOption =
      if w.hashable path then (w.disk path).map fun content => ⟨path, computeHash content⟩
      else none := by
  unfold readHash
  cases w.disk path with
  | none => simp [Except.toOption]
  | some content =>
    by_cases hpath : w.hashable path <;> simp [hpath, Except.toOption]

theorem hashMap_localHashes (w : SyncWorld) (path : String) :
    hashMap (localHashes computeHash w) path =
      if w.discovers ∧ path ∈ w.files ∧ w.hashable path then (w.disk path).map computeHash
      else none := by
  unfold localHashes readHashes
  cases w.discovers with
  | false => rfl
  | true =>
    simp only [if_true, true_and]
    rw [List.filterMap_map, Function.comp_def]
    induction w.files with
    | nil => rfl
    | cons first files ih =>
      rw [List.filterMap_cons, toOption_readHash]
      by_cases hpath : first = path
      · subst hpath
        cases hdisk : w.disk first with
        | none => simp [ih, hdisk]
        | some content =>
          by_cases hread : w.hashable first
          · by_cases hmem : first ∈ files <;> simp [hread, hashMap, ih, hdisk, hmem]
          · simp [hread, ih]
      · have hmem : path ∈ first :: files ↔ path ∈ files := by
          simp [Ne.symm hpath]
        simp only [hmem]
        rw [← ih]
        cases w.disk first with
        | none => simp
        | some content =>
          by_cases hread : w.hashable first <;> simp [hread, hashMap, hpath]

theorem isAbsolute_localHashes (w : SyncWorld) :
    ∀ f ∈ localHashes computeHash w, IsAbsolute f.path := by
  intro f hf
  have hsome : (hashMap (localHashes computeHash w) f.path).isSome :=
    (isSome_hashMap _ _).mpr (List.mem_map_of_mem hf)
  rw [hashMap_localHashes] at hsome
  split_ifs at hsome with hpath
  · exact w.absolute _ hpath.2.1
  · cases hsome

/-- The number of failures that the reads of single files count for. -/
theorem countP_failed_eq_zero (computeHash : String → String) (w : SyncWorld) :
    (extractFailedStatuses (readHashes computeHash w)).countP (·.status = .failed) = 0 ↔
      (w.discovers = true → ∀ path ∈ w.files, (w.disk path).isSome ∧ w.hashable path = true) := by
  unfold readHashes
  cases w.discovers with
  | false => simp [extractFailedStatuses]
  | true =>
    simp only [if_true, forall_const]
    induction w.files with
    | nil => simp [extractFailedStatuses]
    | cons path files ih =>
      rw [List.forall_mem_cons, ← ih, List.map_cons, extractFailedStatuses, List.filterMap_cons]
      cases hdisk : w.disk path with
      | none => simp [readHash, hdisk]
      | some content =>
        by_cases hread : w.hashable path <;>
          simp [readHash, hdisk, hread, extractFailedStatuses]

/-- What a run deletes is in the remote index and has no hash. -/
theorem mem_delete_iff (path : String) :
    path ∈ ((WorkspaceStatus.new engine.workspaceRoot w.remote).getSyncPaths
        (localHashes computeHash w)).delete ↔
      hashMap (localHashes computeHash w) path = none ∧
        (engine.indexed w.remote path).isSome := by
  rw [mem_delete, WorkspaceStatus.new, absolute_eq_self (isAbsolute_localHashes w)]
  rfl

theorem mem_upload_iff (path : String) :
    path ∈ ((WorkspaceStatus.new engine.workspaceRoot w.remote).getSyncPaths
        (localHashes computeHash w)).upload ↔
      ∃ l, hashMap (localHashes computeHash w) path = some l ∧
        engine.indexed w.remote path ≠ some l := by
  rw [mem_upload, WorkspaceStatus.new, absolute_eq_self (isAbsolute_localHashes w)]
  rfl

/-- The paths that a run deletes and uploads. -/
def syncPaths (computeHash : String → String) (engine : WorkspaceSyncEngine) (w : SyncWorld) :
    SyncPaths :=
  (WorkspaceStatus.new engine.workspaceRoot w.remote).getSyncPaths (localHashes computeHash w)

/-- The remote index after the deletion. -/
def remaining (computeHash : String → String) (engine : WorkspaceSyncEngine) (w : SyncWorld) :
    List FileHash :=
  engine.removed w.remote (if w.deletes then (syncPaths computeHash engine w).delete else [])

/-- The upload of a run. -/
def uploaded (computeHash : String → String) (engine : WorkspaceSyncEngine) (w : SyncWorld) :
    List FileHash × ℕ :=
  engine.uploadFiles computeHash w 0
    (chunksFrom engine.batchSize [] (syncPaths computeHash engine w).upload)
    (remaining computeHash engine w)

theorem deleted_eq (paths : List String) (deletes : Bool) :
    (if paths ≠ [] ∧ deletes then paths else []) = if deletes then paths else [] := by
  cases paths <;> simp

/-- A run that does not panic before it asks for the remote index. -/
theorem deleted_run (hlists : w.lists = true)
    (hstarts : ¬(w.discovers = true ∧ engine.batchSize = 0)) :
    (run computeHash engine w).deleted =
      if w.deletes then (syncPaths computeHash engine w).delete else [] := by
  unfold run
  rw [if_neg hstarts, if_pos hlists]
  dsimp only
  rw [apply_ite SyncRun.deleted, ite_self]
  exact deleted_eq _ _

theorem deleted_run_of_unlisted (hlists : w.lists = false) :
    (run computeHash engine w).deleted = [] := by
  unfold run
  by_cases hstarts : w.discovers = true ∧ engine.batchSize = 0
  · rw [if_pos hstarts]
  · rw [if_neg hstarts, if_neg (by rw [hlists]; exact Bool.false_ne_true)]

/-- A run that goes on after the deletion. -/
theorem remote_run (hlists : w.lists = true) (hbatch : engine.batchSize ≠ 0) :
    (run computeHash engine w).remote = (uploaded computeHash engine w).1 := by
  unfold run
  rw [if_neg fun h => hbatch h.2, if_pos hlists]
  dsimp only
  rw [if_neg hbatch]
  dsimp only
  rw [deleted_eq]
  rfl

/-- A successful run has no failed read, deletion or batch. -/
theorem run_ok_iff : (run computeHash engine w).result = .ok ↔
    w.lists = true ∧ engine.batchSize ≠ 0 ∧
      (w.discovers = true → ∀ path ∈ w.files, (w.disk path).isSome ∧ w.hashable path = true) ∧
        ((syncPaths computeHash engine w).delete = [] ∨ w.deletes = true) ∧
          (uploaded computeHash engine w).2 = 0 := by
  unfold run
  by_cases hbatch : engine.batchSize = 0
  · simp only [hbatch, and_true]
    split_ifs <;> simp
  · rw [if_neg fun h => hbatch h.2]
    cases hlists : w.lists with
    | false => simp
    | true =>
      have hresult : ∀ n : ℕ, (if n > 0 then SyncResult.syncFailed n else .ok) = .ok ↔ n = 0 := by
        intro n
        cases n <;> simp
      dsimp only
      rw [if_pos rfl, if_neg hbatch]
      dsimp only
      rw [hresult, deleted_eq, Nat.add_eq_zero_iff, List.countP_append,
        countP_failed_fileStatuses, Nat.zero_add]
      change _ ∧ (uploaded computeHash engine w).2 = 0 ↔ _
      change (if (syncPaths computeHash engine w).delete ≠ [] ∧ ¬w.deletes = true then
        _ + (syncPaths computeHash engine w).delete.length else _) = 0 ∧ _ ↔ _
      rw [← countP_failed_eq_zero computeHash, and_iff_right rfl, and_iff_right hbatch,
        ← and_assoc]
      apply and_congr_left'
      by_cases hfails : (syncPaths computeHash engine w).delete ≠ [] ∧ ¬w.deletes = true
      · rw [if_pos hfails]
        refine iff_of_false ?_ ?_
        · intro hzero
          exact hfails.1 (List.length_eq_zero_iff.mp (Nat.add_eq_zero_iff.mp hzero).2)
        · rintro ⟨-, hempty | hdeletes⟩
          · exact hfails.1 hempty
          · exact hfails.2 hdeletes
      · rw [if_neg hfails, and_iff_left]
        rwa [not_and_or, not_not, not_not] at hfails

/-! ### The promise -/

/-- The index after a successful run. -/
theorem indexed_uploaded (hzero : (uploaded computeHash engine w).2 = 0) (path : String) :
    engine.indexed (uploaded computeHash engine w).1 path =
      if path ∈ (syncPaths computeHash engine w).upload then (w.disk path).map computeHash
      else engine.indexed (remaining computeHash engine w) path := by
  have hflatten := flatten_chunksFrom engine.batchSize [] (syncPaths computeHash engine w).upload
  rw [List.nil_append] at hflatten
  rw [uploaded, indexed_uploadFiles _ _ hzero, hflatten]
  · intro batch hbatch
    exact ne_nil_of_mem_chunksFrom hbatch
  · rw [hflatten]
    intro path hpath
    obtain ⟨l, hl, -⟩ := (mem_upload_iff path).mp hpath
    rw [hashMap_localHashes] at hl
    split_ifs at hl with hhashed
    exact w.absolute path hhashed.2.1

/-- A file that is hashed keeps its place, and is put right if the server has another hash. -/
theorem indexed_of_hashed (hempty : (syncPaths computeHash engine w).delete = [] ∨
      w.deletes = true) (hzero : (uploaded computeHash engine w).2 = 0) (path : String) :
    engine.indexed (uploaded computeHash engine w).1 path =
      hashMap (localHashes computeHash w) path := by
  have hdeleted : (if w.deletes then (syncPaths computeHash engine w).delete else []) =
      (syncPaths computeHash engine w).delete := by
    rcases hempty with hempty | hdeletes
    · rw [hempty, ite_self]
    · rw [if_pos hdeletes]
  rw [indexed_uploaded hzero, remaining, hdeleted, indexed_removed]
  cases hhash : hashMap (localHashes computeHash w) path with
  | none =>
    have hupload : path ∉ (syncPaths computeHash engine w).upload := by
      intro hmem
      obtain ⟨l, hl, -⟩ := (mem_upload_iff path).mp hmem
      rw [hhash] at hl
      cases hl
    rw [if_neg hupload]
    split_ifs with hdelete
    · rfl
    · by_contra hsome
      exact hdelete ((mem_delete_iff path).mpr ⟨hhash, Option.isSome_iff_ne_none.mpr hsome⟩)
  | some l =>
    have hdelete : path ∉ (syncPaths computeHash engine w).delete := by
      intro hmem
      have hnone := ((mem_delete_iff path).mp hmem).1
      rw [hhash] at hnone
      cases hnone
    have hdisk : (w.disk path).map computeHash = some l := by
      rw [hashMap_localHashes] at hhash
      split_ifs at hhash
      exact hhash
    rw [if_neg hdelete, hdisk]
    split_ifs with hupload
    · rfl
    · by_contra hother
      exact hupload ((mem_upload_iff path).mpr ⟨l, hhash, hother⟩)

theorem hashMap_localHashes_of_all (hdiscovers : w.discovers = true)
    (hall : ∀ path ∈ w.files, (w.disk path).isSome ∧ w.hashable path = true) (path : String) :
    hashMap (localHashes computeHash w) path = w.localHash computeHash path := by
  rw [hashMap_localHashes, SyncWorld.localHash]
  by_cases hmem : path ∈ w.files
  · simp [hdiscovers, hmem, (hall path hmem).2]
  · simp [hmem]

/-- No existing file is deleted if the deletion fails or the server does not have the files without
a hash. -/
theorem deleted_safe_iff (hlists : w.lists = true)
    (hstarts : ¬(w.discovers = true ∧ engine.batchSize = 0)) :
    (∀ path ∈ w.files, (w.disk path).isSome → path ∉ (run computeHash engine w).deleted) ↔
      (w.deletes = true → ∀ path ∈ w.files, (w.disk path).isSome →
        ¬(w.discovers = true ∧ w.hashable path = true) →
          engine.indexed w.remote path = none) := by
  rw [deleted_run hlists hstarts]
  cases w.deletes with
  | false => simp
  | true =>
    rw [if_pos rfl, forall_prop_of_true rfl]
    refine forall₃_congr fun path hpath hdisk => ?_
    rw [syncPaths, mem_delete_iff, hashMap_localHashes, not_and, Option.not_isSome_iff_eq_none]
    have hhash : (if w.discovers = true ∧ path ∈ w.files ∧ w.hashable path = true then
        (w.disk path).map computeHash else none) = none ↔
          ¬(w.discovers = true ∧ w.hashable path = true) := by
      obtain ⟨content, hcontent⟩ := Option.isSome_iff_exists.mp hdisk
      simp [hpath, hcontent]
    rw [hhash]

/-- When discovery fails, a run has nothing to upload and deletes the whole index. -/
theorem syncPaths_of_undiscovered (computeHash : String → String)
    (engine : WorkspaceSyncEngine) (hdiscovers : w.discovers = false) :
    (syncPaths computeHash engine w).upload = [] ∧
      ((syncPaths computeHash engine w).delete = [] ↔ w.remote = []) := by
  have hnone : ∀ path, hashMap (localHashes computeHash w) path = none := by
    intro path
    rw [hashMap_localHashes, hdiscovers]
    rfl
  constructor
  · rw [List.eq_nil_iff_forall_not_mem]
    intro path hmem
    obtain ⟨l, hl, -⟩ := (mem_upload_iff path).mp hmem
    rw [hnone] at hl
    cases hl
  · rw [List.eq_nil_iff_forall_not_mem]
    constructor
    · intro hall
      cases hremote : w.remote with
      | nil => rfl
      | cons f files =>
        refine absurd ((mem_delete_iff _).mpr ⟨hnone _, ?_⟩)
          (hall (absolutize engine.workspaceRoot f.path))
        rw [hremote, indexed, isSome_hashMap]
        exact List.mem_cons_self
    · intro hremote path hmem
      have hsome := ((mem_delete_iff path).mp hmem).2
      rw [hremote] at hsome
      cases hsome

/-- For every set of files, every remote index and every pattern of failures, a run keeps its
promise if and only if the files that exist are in the hashes, or are not on the server, or cannot
be deleted there. -/
theorem run_synced_iff (computeHash : String → String) (engine : WorkspaceSyncEngine)
    (w : SyncWorld) :
    SyncRun.Right computeHash engine w (run computeHash engine w) ↔ w.Careful engine := by
  unfold SyncRun.Right SyncWorld.Careful
  cases hlists : w.lists with
  | false =>
    refine iff_of_true ⟨?_, ?_⟩ nofun
    · intro path _ _
      rw [deleted_run_of_unlisted hlists]
      exact List.not_mem_nil
    · intro hok
      have htrue := (run_ok_iff.mp hok).1
      rw [hlists] at htrue
      cases htrue
  | true =>
    rw [forall_prop_of_true rfl]
    cases hdiscovers : w.discovers with
    | true =>
      rw [if_pos rfl]
      -- Without failed reads the hashes are those of all files, so a successful run is right.
      have hright : (run computeHash engine w).result = .ok → ∀ path,
          engine.indexed (run computeHash engine w).remote path =
            w.localHash computeHash path := by
        intro hok path
        obtain ⟨-, hbatch, hall, hempty, hzero⟩ := run_ok_iff.mp hok
        rw [remote_run hlists hbatch, indexed_of_hashed hempty hzero,
          hashMap_localHashes_of_all hdiscovers (hall hdiscovers)]
      rw [and_iff_left hright]
      by_cases hbatch : engine.batchSize = 0
      · refine iff_of_true ?_ fun h => absurd hbatch h
        intro path _ _
        unfold run
        rw [if_pos ⟨hdiscovers, hbatch⟩]
        exact List.not_mem_nil
      · rw [deleted_safe_iff hlists fun h => hbatch h.2, forall_prop_of_true hbatch, hdiscovers]
        simp only [true_and, Bool.not_eq_true]
    | false =>
      have hsafe : (∀ path ∈ w.files, (w.disk path).isSome →
          path ∉ (run computeHash engine w).deleted) ↔
            (w.deletes = true → ∀ path ∈ w.files, (w.disk path).isSome →
              engine.indexed w.remote path = none) := by
        rw [deleted_safe_iff hlists (by rw [hdiscovers]; nofun), hdiscovers]
        simp only [Bool.false_eq_true, false_and, not_false_eq_true, forall_const]
      rw [if_neg Bool.false_ne_true, hsafe]
      obtain ⟨hupload, hdelete⟩ := syncPaths_of_undiscovered computeHash engine hdiscovers
      split_ifs with hbatch
      · refine and_iff_left ?_
        intro hok
        exact absurd hbatch (run_ok_iff.mp hok).2.1
      · -- The hashes are empty, so a successful run leaves an empty index.
        have hzero : (uploaded computeHash engine w).2 = 0 := by
          rw [uploaded, hupload]
          rfl
        have hok : (run computeHash engine w).result = .ok ↔
            w.remote = [] ∨ w.deletes = true := by
          rw [run_ok_iff, hdelete]
          simp [hlists, hbatch, hdiscovers, hzero]
        have hempty : ∀ path, w.localHash computeHash path = none ↔
            (path ∈ w.files → w.disk path = none) := by
          intro path
          rw [SyncWorld.localHash]
          by_cases hmem : path ∈ w.files <;> simp [hmem]
        rw [hok]
        constructor
        · rintro ⟨-, hright⟩
          by_cases hends : w.remote = [] ∨ w.deletes = true
          · left
            intro path hpath
            have hindex := hright hends path
            rw [remote_run hlists hbatch, indexed_of_hashed
              (hends.imp_left fun h => hdelete.mpr h) hzero,
              hashMap_localHashes, hdiscovers] at hindex
            exact (hempty path).mp hindex.symm hpath
          · right
            rw [not_or, Bool.not_eq_true] at hends
            exact hends.symm
        · rintro (hall | ⟨hdeletes, hremote⟩)
          · constructor
            · intro _ path hpath hdisk
              rw [hall path hpath] at hdisk
              cases hdisk
            · intro hends path
              rw [remote_run hlists hbatch, indexed_of_hashed
                (hends.imp_left fun h => hdelete.mpr h) hzero, hashMap_localHashes, hdiscovers]
              exact ((hempty path).mpr (hall path)).symm
          · rw [hdeletes]
            refine ⟨nofun, ?_⟩
            rintro (hnil | h)
            · exact absurd hnil hremote
            · cases h

end WorkspaceSyncEngine

namespace LostFile

/-- The digest of an empty file. -/
def computeHash (_ : String) : String :=
  "e3b0c44298fc1c149afbf4c8996fb92427ae41e4649b934ca495991b7852b855"

def engine : WorkspaceSyncEngine := { workspaceRoot := "/w", batchSize := 1 }

/-- An empty file that the server has, in a run in which nothing fails except what is given. -/
def world (discovers hashable : Bool) : SyncWorld where
  files := ["/w/a.rs"]
  absolute := by decide
  disk path := if path = "/w/a.rs" then some "" else none
  remote := [{ path := "/w/a.rs", hash := computeHash "" }]
  discovers := discovers
  hashable _ := hashable
  lists := true
  deletes := true
  readable _ := true
  uploads _ := true

/-- A file that exists is deleted from the remote index when discovery fails, and the run is
successful; it is deleted too when the file cannot be read. -/
theorem run_deletes_existing :
    ¬SyncRun.Right computeHash engine (world false true)
        (engine.run computeHash (world false true)) ∧
      (engine.run computeHash (world false true)).result = .ok ∧
        ¬SyncRun.Right computeHash engine (world true false)
          (engine.run computeHash (world true false)) := by
  refine ⟨?_, by decide +kernel, ?_⟩
  · rintro ⟨hsafe, -⟩
    exact hsafe "/w/a.rs" (by decide) (by decide) (by decide +kernel)
  · rintro ⟨hsafe, -⟩
    exact hsafe "/w/a.rs" (by decide) (by decide) (by decide +kernel)

end LostFile

end HeliosLite
