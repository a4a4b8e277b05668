import HeliosLite.Orchestration.ToolCalls
import HeliosLite.Tools.FileServices
import Mathlib.Data.List.Sort

/-!
# Files that are changed by others

Before a turn the files that the conversation knows are compared with what is known of them, and the
model is told which of them changed.

## Main definitions

* `FileChangeDetector.detect` — the files whose hash is not the known one
* `ChangedFiles.updateFileStats` — the conversation with a note on them
* `TrackedFiles` — the world and the metrics, and what the conversation should know of each file
* `TrackedFiles.Exact` — the files that are reported are those that someone else changed

## Main results

* `TrackedFiles.Known.exact` — reports are exact where the hashes are those of what is known
* `TrackedFiles.Known.step` — a call that names its file by one absolute path keeps this
* `TrackedFiles.exact_run` — reports are exact in runs of such calls
-/

namespace HeliosLite

open Serde Theory FileContents

/-! ### Detection -/

structure FileChange where
  path : String
  contentHash : Option String
  deriving DecidableEq, Repr

/-- Paths are compared component by component. -/
def FileChange.le (a b : FileChange) : Prop :=
  components a.path.toList ≤ components b.path.toList

instance : DecidableRel FileChange.le := fun _ _ => inferInstanceAs (Decidable (_ ≤ _))

/-- The files whose hash is not the known one, in the order of their paths. -/
def FileChangeDetector.detect (readFile : String → Option String) (metrics : Metrics) :
    List FileChange :=
  (metrics.fileOperations.entries.filterMap fun e =>
    let current := readFile e.1
    if current ≠ e.2.contentHash then some { path := e.1, contentHash := current }
    else none).insertionSort FileChange.le

namespace ChangedFiles

/-- The note for the model. -/
def notification (env : Environment) (changes : List FileChange) : String :=
  let files := changes.map fun change =>
    "\n<file>" ++ encodeText (formatDisplayPath change.path env) ++ "</file>"
  "<information>\n<critical>The following files have been modified externally. " ++
    "Please re-read them if its relevant for the task.</critical>\n<files>" ++ String.join files ++
    "\n</files>\n</information>"

/-- The hashes of the changed files become the known ones. -/
def updateMetrics (metrics : Metrics) (changes : List FileChange) : Metrics :=
  { metrics with
    fileOperations := changes.foldl
      (fun operations change =>
        match operations.get? change.path with
        | some operation =>
          operations.insert change.path { operation with contentHash := change.contentHash }
        | none => operations)
      metrics.fileOperations }

/-- The conversation with the changed files noted, if there are any. -/
def updateFileStats (env : Environment) (readFile : String → Option String) (model : String)
    (conversation : Conversation) : Conversation :=
  let changes := FileChangeDetector.detect readFile conversation.metrics
  if changes = [] then conversation
  else
    let message : ContextMessage :=
      match ContextMessage.user (notification env changes) (some model) with
      | .text message => .text { message with droppable := true }
      | other => other
    { conversation with
      metrics := updateMetrics conversation.metrics changes
      context := some ((conversation.context.getD Context.default).addMessage message) }

end ChangedFiles

/-! ### What is known of the files -/

/-- The world and the metrics of the conversation. `known` is the state of each file after the last
call on it or the last report, for the files that some call was on. -/
structure TrackedFiles (ι η : Type) where
  world : FileWorld ι η
  metrics : Metrics
  known : ι → Option (Option String)

/-- A call, a change of the world by someone else, or a report. -/
inductive TrackEvent (ι η : Type) where
  | call (call : ToolCatalog) (sent : Bool)
  | outside (world : FileWorld ι η)
  | report

namespace TrackedFiles

variable {ι η : Type}

section Known

variable (fs : FileSystem ι η) (env : Environment) [FileContents]

/-- A new conversation. -/
def start (world : FileWorld ι η) : TrackedFiles ι η :=
  { world := world
    metrics := Metrics.default
    known := fun _ => none }

def changes (l : TrackedFiles ι η) : List FileChange :=
  FileChangeDetector.detect (l.world.read fs) l.metrics

/-- The report names each file once whose state is not the one that is known, and no other file. If
there is no such file, the conversation stays as it is. -/
structure Exact (l : TrackedFiles ι η) : Prop where
  nodup : ((l.changes fs).map fun change => fs.locate change.path).Nodup
  mem_iff : ∀ i, i ∈ (l.changes fs).map (fun change => fs.locate change.path) ↔
    ∃ file, l.known i = some file ∧ file ≠ l.world.files i
  unchanged : (∀ i file, l.known i = some file → file = l.world.files i) →
    ∀ (model : String) (conversation : Conversation), conversation.metrics = l.metrics →
      ChangedFiles.updateFileStats env (l.world.read fs) model conversation = conversation

/-- The hashes are those of what is known, under one absolute path for each file. -/
structure Known (l : TrackedFiles ι η) : Prop where
  absolute : ∀ path, l.metrics.fileOperations.contains path → isAbsolute path
  injective : ∀ path other, l.metrics.fileOperations.contains path →
    l.metrics.fileOperations.contains other → fs.locate path = fs.locate other → path = other
  hash : ∀ path operation, l.metrics.fileOperations.get? path = some operation →
    ∃ file, l.known (fs.locate path) = some file ∧ operation.contentHash = file.map computeHash
  named : ∀ i file, l.known i = some file →
    ∃ path, l.metrics.fileOperations.contains path ∧ fs.locate path = i

variable {fs env} {l : TrackedFiles ι η}

theorem mem_changes {change : FileChange} :
    change ∈ l.changes fs ↔ ∃ operation,
      l.metrics.fileOperations.get? change.path = some operation ∧
        change.contentHash = l.world.read fs change.path ∧
        l.world.read fs change.path ≠ operation.contentHash := by
  rw [changes, FileChangeDetector.detect, List.mem_insertionSort, List.mem_filterMap]
  constructor
  · rintro ⟨⟨path, operation⟩, hmem, hchange⟩
    dsimp only at hchange
    split_ifs at hchange with hne
    obtain rfl := Option.some.inj hchange
    exact ⟨operation, StringMap.get?_eq_some_iff.mpr hmem, rfl, hne⟩
  · rintro ⟨operation, hget, hhash, hne⟩
    refine ⟨(change.path, operation), StringMap.get?_eq_some_iff.mp hget, ?_⟩
    dsimp only
    rw [if_pos hne, ← hhash]

theorem nodup_changes : ((l.changes fs).map FileChange.path).Nodup := by
  rw [changes, FileChangeDetector.detect,
    ((List.perm_insertionSort FileChange.le _).map FileChange.path).nodup_iff]
  refine List.pairwise_map.mpr (List.pairwise_filterMap.mpr ?_)
  refine (List.pairwise_map.mp l.metrics.fileOperations.sorted).imp ?_
  intro e e' hlt change hchange change' hchange'
  dsimp only at hchange hchange'
  split_ifs at hchange hchange'
  obtain rfl := Option.some.inj hchange
  obtain rfl := Option.some.inj hchange'
  exact ne_of_lt hlt

omit [FileContents] in
/-- The hashes of some files are set to what is read of them. -/
theorem get?_foldl_changes {readFile : String → Option String} (path : String)
    {changes : List FileChange} (h : ∀ c ∈ changes, c.contentHash = readFile c.path)
    (operations : StringMap FileOperation) :
    (changes.foldl
      (fun operations change =>
        match operations.get? change.path with
        | some operation =>
          operations.insert change.path { operation with contentHash := change.contentHash }
        | none => operations)
      operations).get? path =
      (operations.get? path).map fun operation =>
        if path ∈ changes.map FileChange.path then
          { operation with contentHash := readFile path }
        else operation := by
  induction changes generalizing operations with
  | nil => simp
  | cons c changes ih =>
    obtain ⟨hc, hchanges⟩ := List.forall_mem_cons.mp h
    rw [List.foldl_cons, ih hchanges, List.map_cons]
    cases hget : operations.get? c.path with
    | none =>
      dsimp only
      by_cases hpath : path = c.path
      · simp [hpath, hget]
      · simp [hpath]
    | some operation =>
      dsimp only
      rw [StringMap.get?_insert]
      by_cases hpath : path = c.path
      · -- the hash is the same if the file is set again
        rw [if_pos hpath, hpath, hget, hc]
        simp
      · simp [hpath]

/-- A report sets every hash to what is read. -/
theorem get?_updateMetrics (path : String) :
    (ChangedFiles.updateMetrics l.metrics (l.changes fs)).fileOperations.get? path =
      (l.metrics.fileOperations.get? path).map fun operation =>
        { operation with contentHash := l.world.read fs path } := by
  have hread : ∀ c ∈ l.changes fs, c.contentHash = l.world.read fs c.path := by
    intro c hc
    obtain ⟨_, _, hhash, _⟩ := mem_changes.mp hc
    exact hhash
  rw [ChangedFiles.updateMetrics, get?_foldl_changes path hread]
  cases hget : l.metrics.fileOperations.get? path with
  | none => rfl
  | some operation =>
    rw [Option.map_some, Option.map_some, Option.some_inj]
    split_ifs with hmem
    · rfl
    · -- a file that is not reported has the hash that is read
      have hsame : l.world.read fs path = operation.contentHash := by
        by_contra hne
        exact hmem (List.mem_map.mpr ⟨⟨path, l.world.read fs path⟩,
          mem_changes.mpr ⟨operation, hget, rfl, hne⟩, rfl⟩)
      rw [hsame]

/-- The files that are known can be read as texts. -/
def Plain (fs : FileSystem ι η) (l : TrackedFiles ι η) : Prop :=
  ∀ path, l.metrics.fileOperations.contains path →
    FileWorld.IsText fs path (l.world.files (fs.locate path)) ∧
      FileWorld.Readable fs (l.world.files (fs.locate path))

/-- The files that are known are read with their hash. -/
theorem Known.read_eq (h : Known fs l) (hplain : Plain fs l) {path : String}
    (hpath : l.metrics.fileOperations.contains path) :
    l.world.read fs path = (l.world.files (fs.locate path)).map computeHash :=
  FileWorld.read_of_isText (h.absolute path hpath) (hplain path hpath).1 (hplain path hpath).2

omit [FileContents] in
theorem contains_of_get? {path : String} {operation : FileOperation}
    (h : l.metrics.fileOperations.get? path = some operation) :
    l.metrics.fileOperations.contains path := by
  rw [StringMap.contains, h]
  rfl

/-- Reports are exact where the hashes are those of what is known. -/
theorem Known.exact (hinjective : Function.Injective (computeHash : String → String))
    (h : Known fs l) (hplain : Plain fs l) : Exact fs env l := by
  -- a hash differs from the known one exactly if the file does
  have hmem (i : ι) : i ∈ (l.changes fs).map (fun change => fs.locate change.path) ↔
      ∃ file, l.known i = some file ∧ file ≠ l.world.files i := by
    constructor
    · intro hi
      obtain ⟨change, hchange, rfl⟩ := List.mem_map.mp hi
      obtain ⟨operation, hget, -, hne⟩ := mem_changes.mp hchange
      obtain ⟨file, hknown, hhash⟩ := h.hash _ _ hget
      refine ⟨file, hknown, ?_⟩
      rintro rfl
      exact hne (by rw [h.read_eq hplain (contains_of_get? hget), hhash])
    · rintro ⟨file, hknown, hne⟩
      obtain ⟨path, hpath, rfl⟩ := h.named i file hknown
      obtain ⟨operation, hget⟩ := Option.isSome_iff_exists.mp hpath
      obtain ⟨file', hknown', hhash⟩ := h.hash _ _ hget
      obtain rfl : file = file' := Option.some.inj (hknown.symm.trans hknown')
      refine List.mem_map.mpr ⟨⟨path, l.world.read fs path⟩, ?_, rfl⟩
      refine mem_changes.mpr ⟨operation, hget, rfl, ?_⟩
      rw [h.read_eq hplain hpath, hhash]
      intro heq
      exact hne (Option.map_injective hinjective heq).symm
  refine ⟨?_, hmem, ?_⟩
  · have hnodup : (l.changes fs).Nodup := nodup_changes.of_map
    refine hnodup.map_on ?_
    intro c hc c' hc' heq
    obtain ⟨_, hget, hhash, -⟩ := mem_changes.mp hc
    obtain ⟨_, hget', hhash', -⟩ := mem_changes.mp hc'
    have hpath := h.injective _ _ (contains_of_get? hget) (contains_of_get? hget') heq
    obtain ⟨path, contentHash⟩ := c
    obtain ⟨path', contentHash'⟩ := c'
    dsimp only at hpath hhash hhash'
    rw [hhash, hhash', hpath]
  · intro hsame model conversation hmetrics
    have hnil : l.changes fs = [] := by
      rw [List.eq_nil_iff_forall_not_mem]
      intro change hchange
      obtain ⟨file, hknown, hne⟩ :=
        (hmem (fs.locate change.path)).mp (List.mem_map_of_mem hchange)
      exact hne (hsame _ file hknown)
    rw [ChangedFiles.updateFileStats, hmetrics]
    exact if_pos hnil

theorem known_start (world : FileWorld ι η) : Known fs (start world) := by
  refine ⟨?_, ?_, ?_, ?_⟩
  · intro path hpath
    cases hpath
  · intro path other hpath
    cases hpath
  · intro path operation hget
    cases hget
  · intro i file hknown
    cases hknown

end Known

/-! ### Steps -/

section Steps

variable [DecidableEq ι] (fs : FileSystem ι η) (env : Environment) [FileContents]

def execute (l : TrackedFiles ι η) (call : ToolCatalog) (sent : Bool) :
    ToolState (FileWorld ι η) × Bool :=
  Executor.execute (FileWorld.services fs) env { world := l.world, metrics := l.metrics } call sent

/-- The file that a path of a call leads to. -/
def fileOf (path : String) : ι := fs.locate (normalizePath env path)

def step (l : TrackedFiles ι η) : TrackEvent ι η → TrackedFiles ι η
  | .call call sent =>
    let result := l.execute fs env call sent
    { world := result.1.world
      metrics := result.1.metrics
      known :=
        match call.filePath with
        | some path =>
          if result.2 then
            Function.update l.known (fileOf fs env path)
              (some (result.1.world.files (fileOf fs env path)))
          else l.known
        | none => l.known }
  | .outside world => { l with world := world }
  | .report =>
    { l with
      metrics := ChangedFiles.updateMetrics l.metrics (l.changes fs)
      known := fun i => (l.known i).map fun _ => l.world.files i }

/-- A call that is made succeeds and is one on a text, as are the files that are known. -/
def Covered (l : TrackedFiles ι η) (e : TrackEvent ι η) : Prop :=
  (∀ call sent, e = .call call sent → (l.execute fs env call sent).2 = true ∧
    ∃ path, call.filePath = some path ∧ FileWorld.IsText fs (normalizePath env path)
      (l.world.files (fileOf fs env path))) ∧
    ∀ path, l.metrics.fileOperations.contains path →
      FileWorld.IsText fs path (l.world.files (fs.locate path))

/-- A call names its file by an absolute path, under which alone the file is known, and no file that
is known is too large to be read when a report is made. -/
def SpelledOnce (l : TrackedFiles ι η) : TrackEvent ι η → Prop
  | .call call _ =>
    ∀ path, call.filePath = some path → isAbsolute path ∧
      ∀ other, l.metrics.fileOperations.contains other → fs.locate other = fs.locate path →
        other = path
  | .outside _ => True
  | .report =>
    ∀ path, l.metrics.fileOperations.contains path →
      FileWorld.Readable fs (l.world.files (fs.locate path))

variable {fs env} {l : TrackedFiles ι η}

/-- When a report is made the files that are known can be read. -/
theorem Covered.plain (hcovered : Covered fs env l .report)
    (hspelled : SpelledOnce fs l .report) : Plain fs l :=
  fun path hpath => ⟨hcovered.2 path hpath, hspelled path hpath⟩

/-- A call that succeeds notes the hash of its file, which is then known, and leaves the others. -/
theorem step_call_eq {call : ToolCatalog} {sent : Bool} {path : String}
    (hpath : call.filePath = some path) (hsucceeds : (l.execute fs env call sent).2 = true)
    (hnormal : normalizePath env path = path) :
    ∃ noted after,
      l.step fs env (.call call sent) =
        { world := after
          metrics := l.metrics.insert path noted
          known := Function.update l.known (fs.locate path)
            (some (after.files (fs.locate path))) } ∧
      (FileWorld.IsText fs path (l.world.files (fs.locate path)) →
        FileWorld.Leaves fs l.world path after noted.contentHash) := by
  obtain ⟨-, hfails⟩ | ⟨operation, hoperation, -, hexecute⟩ :=
    Executor.execute_cases (FileWorld.services fs) env
      { world := l.world, metrics := l.metrics } call sent
  · rw [execute, hfails] at hsucceeds
    cases hsucceeds
  · obtain ⟨path', noted, hpath', hnoted, hleaves⟩ := FileWorld.noted_of_callInternal hoperation
    obtain rfl : path = path' := Option.some.inj (hpath.symm.trans hpath')
    rw [hnormal] at hleaves
    refine ⟨noted, _, ?_, hleaves⟩
    rw [step, execute, hexecute, hpath]
    simp only [fileOf, hnormal, ToolOperation.record, hnoted, if_true]

/-- A step keeps what is known if its files are named once each and can be read. -/
theorem Known.step {e : TrackEvent ι η} (h : Known fs l) (hcovered : Covered fs env l e)
    (hspelled : SpelledOnce fs l e) : Known fs (l.step fs env e) := by
  cases e with
  | outside world => exact ⟨h.absolute, h.injective, h.hash, h.named⟩
  | report =>
    have hcontains (path : String) :
        (l.step fs env .report).metrics.fileOperations.contains path ↔
          l.metrics.fileOperations.contains path := by
      rw [StringMap.contains, StringMap.contains, TrackedFiles.step, get?_updateMetrics,
        Option.isSome_map]
    refine ⟨?_, ?_, ?_, ?_⟩
    · intro path hpath
      exact h.absolute path ((hcontains path).mp hpath)
    · intro path other hpath hother
      exact h.injective path other ((hcontains path).mp hpath) ((hcontains other).mp hother)
    · intro path operation hget
      rw [TrackedFiles.step, get?_updateMetrics] at hget
      obtain ⟨before, hbefore, rfl⟩ := Option.map_eq_some_iff.mp hget
      obtain ⟨file, hknown, -⟩ := h.hash path before hbefore
      refine ⟨l.world.files (fs.locate path), ?_,
        h.read_eq (hcovered.plain hspelled) (contains_of_get? hbefore)⟩
      change (l.known (fs.locate path)).map _ = _
      rw [hknown]
      rfl
    · intro i file hknown
      obtain ⟨before, hbefore, -⟩ := Option.map_eq_some_iff.mp hknown
      obtain ⟨path, hpath, hi⟩ := h.named i before hbefore
      exact ⟨path, (hcontains path).mpr hpath, hi⟩
  | call call sent =>
    obtain ⟨hsucceeds, path, hpath, htext⟩ := hcovered.1 call sent rfl
    obtain ⟨habsolute, honce⟩ := hspelled path hpath
    have hnormal : normalizePath env path = path := normalizePath_of_isAbsolute habsolute
    rw [fileOf, hnormal] at htext
    obtain ⟨noted, after, hstep, hleaves⟩ := step_call_eq hpath hsucceeds hnormal
    rw [hstep]
    -- the files of the table are the earlier ones and the file of the call
    have hcontains (other : String) :
        (l.metrics.fileOperations.insert path noted).contains other ↔
          other = path ∨ l.metrics.fileOperations.contains other := by
      rw [StringMap.contains_insert]
    have hother {other : String} (hne : other ≠ path)
        (hcontained : l.metrics.fileOperations.contains other) :
        fs.locate other ≠ fs.locate path :=
      fun heq => hne (honce other hcontained heq)
    obtain ⟨-, hhash⟩ := hleaves htext
    refine ⟨?_, ?_, ?_, ?_⟩
    · intro other hmem
      obtain rfl | hmem := (hcontains other).mp hmem
      · exact habsolute
      · exact h.absolute other hmem
    · intro p q hp hq heq
      by_cases hpp : p = path
      · subst hpp
        by_contra hne
        exact hother (Ne.symm hne) (((hcontains q).mp hq).resolve_left (Ne.symm hne)) heq.symm
      · have hp := ((hcontains p).mp hp).resolve_left hpp
        obtain hqq | hq := (hcontains q).mp hq
        · rw [hqq] at heq
          exact absurd heq (hother hpp hp)
        · exact h.injective p q hp hq heq
    · intro other operation hget
      replace hget : (l.metrics.fileOperations.insert path noted).get? other =
        some operation := hget
      rw [StringMap.get?_insert] at hget
      split_ifs at hget with heq
      · obtain rfl := heq
        obtain rfl := Option.some.inj hget
        exact ⟨_, Function.update_self .., hhash⟩
      · obtain ⟨file, hknown, hfile⟩ := h.hash other operation hget
        refine ⟨file, ?_, hfile⟩
        exact (Function.update_of_ne (hother heq (contains_of_get? hget)) ..).trans hknown
    · intro i file hknown
      by_cases hi : i = fs.locate path
      · exact ⟨path, (hcontains path).mpr (.inl rfl), hi.symm⟩
      · obtain ⟨other, hmem, hlocate⟩ :=
          h.named i file ((Function.update_of_ne hi ..).symm.trans hknown)
        exact ⟨other, (hcontains other).mpr (.inr hmem), hlocate⟩

/-- In every run of a new conversation in which each file is named by one absolute path, and no file
that is known is too large to be read, each report is exact. -/
theorem exact_run (hinjective : Function.Injective (computeHash : String → String))
    (world : FileWorld ι η) (events : List (TrackEvent ι η))
    (hcovered : Meets (step fs env) (Covered fs env) (start world) events)
    (hspelled : Meets (step fs env) (SpelledOnce fs) (start world) events)
    (before after : List (TrackEvent ι η)) (hreport : events = before ++ .report :: after) :
    Exact fs env (run (step fs env) (start world) before) := by
  subst hreport
  rw [meets_append] at hcovered hspelled
  have hmeets : Meets (step fs env) (fun l e => Covered fs env l e ∧ SpelledOnce fs l e)
      (start world) before := meets_and hcovered.1 hspelled.1
  have hknown : Known fs (run (step fs env) (start world) before) :=
    run_invariant (fun _ _ hstep h => h.step hstep.1 hstep.2) hmeets (known_start world)
  exact hknown.exact hinjective (hcovered.2.1.plain hspelled.2.1)

end Steps

end TrackedFiles

/-! ### Examples -/

namespace RelativeReport

local instance contents : FileContents where
  computeHash content := content
  linesAdded _ _ := 0
  linesRemoved _ _ := 0

/-- Texts under absolute paths without links. -/
def fs : FileSystem String Unit where
  locate path := path
  insertSnapshot _ _ _ := some ()
  undoSnapshot _ _ := none
  applyReplace _ _ _ _ := none
  isVisual _ _ := false
  imageUrl _ content := content
  maxFileSizeBytes := 100
  maxImageSizeBytes := 100

def env : Environment where
  cwd := "/w"
  absolute := isAbsolute_w
  resolved := resolve_w

/-- One file. -/
def world (content : String) : FileWorld String Unit where
  files path := if path = "/w/a.txt" then some content else none
  snapshots := ()

def read (path : String) : TrackEvent String Unit := .call (.read ⟨path, none, none⟩) true

/-- A change of a file that was read under its absolute path is reported exactly. -/
theorem exact_absolute :
    TrackedFiles.Exact fs env (run (TrackedFiles.step fs env) (TrackedFiles.start (world "one"))
      [read "/w/a.txt", .outside (world "two")]) := by
  refine TrackedFiles.exact_run (fun _ _ h => h) (world "one")
    [read "/w/a.txt", .outside (world "two"), .report] ?_ ?_ _ [] rfl
  · refine ⟨⟨?_, ?_⟩, ⟨nofun, ?_⟩, ⟨nofun, ?_⟩, trivial⟩
    · rintro call sent heq
      cases heq
      exact ⟨by decide, _, rfl, fun _ _ => rfl⟩
    all_goals exact fun _ _ _ _ => rfl
  · refine ⟨?_, trivial, ?_, trivial⟩
    · intro path hpath
      obtain rfl := Option.some.inj hpath
      exact ⟨by decide, nofun⟩
    · intro path _ content hcontent
      obtain ⟨-, htwo⟩ := (Option.ite_none_right_eq_some ..).mp hcontent
      obtain rfl := Option.some.inj htwo
      decide

/-- A file that was read under a relative path is reported although nobody changed it, and then its
changes are not. -/
theorem not_exact_relative :
    let events := [read "a.txt", .report, .outside (world "two"), .report]
    Function.Injective (FileContents.computeHash : String → String) ∧
      Meets (TrackedFiles.step fs env) (TrackedFiles.Covered fs env)
        (TrackedFiles.start (world "one")) events ∧
      ¬ TrackedFiles.Exact fs env
        (run (TrackedFiles.step fs env) (TrackedFiles.start (world "one")) (events.take 1)) ∧
      ¬ TrackedFiles.Exact fs env
        (run (TrackedFiles.step fs env) (TrackedFiles.start (world "one")) (events.take 3)) := by
  refine ⟨fun _ _ h => h, ⟨⟨?_, ?_⟩, ⟨nofun, ?_⟩, ⟨nofun, ?_⟩, ⟨nofun, ?_⟩, trivial⟩, ?_, ?_⟩
  · rintro call sent heq
    cases heq
    exact ⟨by decide, _, rfl, fun _ _ => rfl⟩
  · exact fun _ _ _ _ => rfl
  · exact fun _ _ _ _ => rfl
  · exact fun _ _ _ _ => rfl
  · exact fun _ _ _ _ => rfl
  · intro h
    obtain ⟨file, hknown, -⟩ := (h.mem_iff "a.txt").mp (by decide)
    cases hknown
  · intro h
    have hmem := (h.mem_iff "/w/a.txt").mpr ⟨some "one", by decide, by decide⟩
    revert hmem
    decide

end RelativeReport

end HeliosLite
