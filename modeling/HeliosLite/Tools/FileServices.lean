import HeliosLite.Snapshots.Undo
import HeliosLite.Tools.Executor
import Mathlib.Data.Option.Basic

/-!
# The file services

The services of the tools that work on files, over a file system of texts. Where a path leads, the
snapshots, the search for the text to replace and the detection of images are parameters.

## Main definitions

* `FileSystem` — the parameters; `FileWorld` — the files and the snapshots
* `FileWorld.services` — the services

## Main results

* `FileWorld.noted_of_callInternal` — a call changes its own file at most, and notes its hash
-/

namespace HeliosLite

open Theory

/-- What the services rest on. -/
structure FileSystem (ι η : Type) where
  /-- The file that an absolute path leads to. -/
  locate : String → ι
  insertSnapshot : η → String → Option String → Option η
  /-- The content that is written back, and the snapshots without it. -/
  undoSnapshot : η → String → Option (String × η)
  applyReplace : String → String → String → Bool → Option String
  /-- A content that is taken for an image or a PDF, and its URL. -/
  isVisual : String → String → Bool
  imageUrl : String → String → String
  maxFileSizeBytes : ℕ
  maxImageSizeBytes : ℕ

/-- The content of each file that exists, and the snapshots. -/
structure FileWorld (ι η : Type) where
  files : ι → Option String
  snapshots : η

namespace FileWorld

variable {ι η : Type} [DecidableEq ι] (fs : FileSystem ι η) [FileContents]

open FileContents

section Services

variable (w : FileWorld ι η)

/-- The world with another state of a file. -/
def set (i : ι) (file : Option String) (snapshots : η) : FileWorld ι η :=
  { files := Function.update w.files i file, snapshots := snapshots }

/-- The hash of a file that is not too large, or of its URL if it is an image. -/
def read (path : String) : Option String := do
  guard (isAbsolute path)
  let content ← w.files (fs.locate path)
  guard (content.utf8ByteSize ≤ max fs.maxFileSizeBytes fs.maxImageSizeBytes)
  if fs.isVisual path content then
    guard (content.utf8ByteSize ≤ fs.maxImageSizeBytes)
    some (computeHash (fs.imageUrl path content))
  else some (computeHash content)

/-- The content with the line endings of the file. -/
def normalized (content : String) (lineEnding : List Char) : String :=
  String.ofList ((FileState.toLineFeeds content.toList).flatMap fun c =>
    if c = '\n' then lineEnding else [c])

def lineEnding (existing : String) : List Char :=
  if ['\r', '\n'] <:+: existing.toList then ['\r', '\n'] else ['\n']

/-- A file that exists is copied first, and is overwritten only if that is asked for. -/
def write (path content : String) (overwrite : Bool) :
    Option (FileWorld ι η × FsWriteOutput) := do
  guard (isAbsolute path)
  let i := fs.locate path
  match w.files i with
  | some existing =>
    guard overwrite
    let snapshots ← fs.insertSnapshot w.snapshots path (some existing)
    let after := normalized content (lineEnding existing)
    some (w.set i (some after) snapshots,
      { before := some existing, contentHash := computeHash after })
  | none =>
    let after := normalized content ['\n']
    some (w.set i (some after) w.snapshots, { before := none, contentHash := computeHash after })

def remove (path : String) : Option (FileWorld ι η × String) := do
  guard (isAbsolute path)
  let i := fs.locate path
  let content ← w.files i
  let snapshots ← fs.insertSnapshot w.snapshots path (some content)
  some (w.set i none snapshots, content)

/-- The file with a change of its content. -/
def change (path : String) (edit : String → Option String) :
    Option (FileWorld ι η × PatchOutput) := do
  guard (isAbsolute path)
  let i := fs.locate path
  let before ← w.files i
  let after ← edit before
  let snapshots ← fs.insertSnapshot w.snapshots path (some before)
  some (w.set i (some after) snapshots,
    { before := before, after := after, contentHash := computeHash after })

def patch (path oldString newString : String) (replaceAll : Bool) :
    Option (FileWorld ι η × PatchOutput) :=
  w.change fs path fun content => fs.applyReplace content oldString newString replaceAll

/-- The edits are made one after the other. -/
def multiPatch (path : String) (edits : List PatchEdit) : Option (FileWorld ι η × PatchOutput) :=
  w.change fs path fun content =>
    edits.foldlM (fun content edit =>
      fs.applyReplace content edit.oldString edit.newString edit.replaceAll) content

def undo (path : String) : Option (FileWorld ι η × FsUndoOutput) := do
  guard (isAbsolute path)
  let i := fs.locate path
  let (content, snapshots) ← fs.undoSnapshot w.snapshots path
  some (w.set i (some content) snapshots,
    { beforeUndo := w.files i, afterUndo := some content })

/-- Nothing changes if a service fails. -/
def commit {α : Type} : Option (FileWorld ι η × α) → FileWorld ι η × Option α
  | some (after, output) => (after, some output)
  | none => (w, none)

end Services

/-- The other tools are not called here. -/
def services : Services (FileWorld ι η) where
  read w path _ _ := w.read fs path
  write w path content overwrite := w.commit (w.write fs path content overwrite)
  remove w path := w.commit (w.remove fs path)
  patch w path oldString newString replaceAll :=
    w.commit (w.patch fs path oldString newString replaceAll)
  multiPatch w path edits := w.commit (w.multiPatch fs path edits)
  undo w path := w.commit (w.undo fs path)
  other w _ := (w, false)

/-! ### What a service leaves -/

/-- The world differs in one file at most, and the hash is that of the file, if it exists. -/
def Leaves (w : FileWorld ι η) (path : String) (after : FileWorld ι η) (hash : Option String) :
    Prop :=
  (∀ j, j ≠ fs.locate path → after.files j = w.files j) ∧
    hash = (after.files (fs.locate path)).map computeHash

/-- A file that is not taken for an image, or that does not exist. -/
def IsText (path : String) (file : Option String) : Prop :=
  ∀ content ∈ file, fs.isVisual path content = false

/-- A file that is not too large to be read, or that does not exist. -/
def Readable (file : Option String) : Prop :=
  ∀ content ∈ file, content.utf8ByteSize ≤ max fs.maxFileSizeBytes fs.maxImageSizeBytes

variable {fs} {w : FileWorld ι η} {path : String}

theorem leaves_set (file : Option String) (snapshots : η) :
    Leaves fs w path (w.set (fs.locate path) file snapshots) (file.map computeHash) := by
  refine ⟨fun j hj => Function.update_of_ne hj _ _, ?_⟩
  simp [set]

omit [DecidableEq ι] in
/-- A text is read with the hash of its content. -/
theorem read_of_isText (habsolute : isAbsolute path)
    (htext : IsText fs path (w.files (fs.locate path)))
    (hreadable : Readable fs (w.files (fs.locate path))) :
    w.read fs path = (w.files (fs.locate path)).map computeHash := by
  cases hfile : w.files (fs.locate path) with
  | none => simp [read, hfile]
  | some content =>
    have hsize := le_max_iff.mp (hreadable content hfile)
    simp [read, hfile, habsolute, hsize, htext content hfile, guard]

omit [DecidableEq ι] in
/-- What is read is not too large. -/
theorem readable_of_read {hash : String} (h : w.read fs path = some hash) :
    Readable fs (w.files (fs.locate path)) := by
  obtain ⟨-, -, h⟩ := Option.bind_eq_some_iff.mp h
  obtain ⟨content, hfile, h⟩ := Option.bind_eq_some_iff.mp h
  obtain ⟨_, hsize, -⟩ := Option.bind_eq_some_iff.mp h
  intro other hother
  obtain rfl : content = other := Option.some.inj (hfile.symm.trans hother)
  by_contra hlarge
  rw [guard, if_neg hlarge] at hsize
  cases hsize

theorem leaves_write {content : String} {overwrite : Bool} {after : FileWorld ι η}
    {output : FsWriteOutput} (h : w.write fs path content overwrite = some (after, output)) :
    Leaves fs w path after (some output.contentHash) := by
  obtain ⟨-, -, h⟩ := Option.bind_eq_some_iff.mp h
  dsimp only at h
  split at h
  · obtain ⟨-, -, h⟩ := Option.bind_eq_some_iff.mp h
    obtain ⟨snapshots, -, h⟩ := Option.bind_eq_some_iff.mp h
    cases h
    exact leaves_set (some _) _
  · cases h
    exact leaves_set (some _) _

theorem leaves_remove {after : FileWorld ι η} {output : String}
    (h : w.remove fs path = some (after, output)) : Leaves fs w path after none := by
  obtain ⟨-, -, h⟩ := Option.bind_eq_some_iff.mp h
  obtain ⟨content, -, h⟩ := Option.bind_eq_some_iff.mp h
  obtain ⟨snapshots, -, h⟩ := Option.bind_eq_some_iff.mp h
  cases h
  exact leaves_set none _

theorem leaves_change {edit : String → Option String} {after : FileWorld ι η}
    {output : PatchOutput} (h : w.change fs path edit = some (after, output)) :
    Leaves fs w path after (some output.contentHash) := by
  obtain ⟨-, -, h⟩ := Option.bind_eq_some_iff.mp h
  obtain ⟨before, -, h⟩ := Option.bind_eq_some_iff.mp h
  obtain ⟨content, -, h⟩ := Option.bind_eq_some_iff.mp h
  obtain ⟨snapshots, -, h⟩ := Option.bind_eq_some_iff.mp h
  cases h
  exact leaves_set (some _) _

theorem leaves_undo {after : FileWorld ι η} {output : FsUndoOutput}
    (h : w.undo fs path = some (after, output)) :
    Leaves fs w path after (output.afterUndo.map computeHash) := by
  obtain ⟨-, -, h⟩ := Option.bind_eq_some_iff.mp h
  obtain ⟨⟨content, snapshots⟩, -, h⟩ := Option.bind_eq_some_iff.mp h
  cases h
  exact leaves_set (some _) _

omit [DecidableEq ι] [FileContents] in
theorem commit_eq_some {α : Type} {result : Option (FileWorld ι η × α)} {output : α}
    (h : (w.commit result).2 = some output) :
    result = some ((w.commit result).1, output) := by
  cases result with
  | none => cases h
  | some result =>
    cases h
    rfl

/-- A call that succeeds changes its own file at most, and what is noted for its text is the hash of
the file, if it is a text. -/
theorem noted_of_callInternal {env : Environment} {call : ToolCatalog} {operation : ToolOperation}
    (h : (Executor.callInternal (services fs) env w call).2 = some operation) :
    ∃ path noted, call.filePath = some path ∧ operation.noted = some (path, noted) ∧
      (IsText fs (normalizePath env path) (w.files (fs.locate (normalizePath env path))) →
        Leaves fs w (normalizePath env path) (Executor.callInternal (services fs) env w call).1
          noted.contentHash) := by
  cases call with
  | read input =>
    obtain ⟨hash, hread, rfl⟩ := Option.map_eq_some_iff.mp h
    refine ⟨_, _, rfl, rfl, ?_⟩
    intro htext
    refine ⟨fun _ _ => rfl, ?_⟩
    exact hread.symm.trans
      (read_of_isText isAbsolute_normalizePath htext (readable_of_read hread))
  | write input =>
    obtain ⟨output, hwrite, rfl⟩ := Option.map_eq_some_iff.mp h
    exact ⟨_, _, rfl, rfl, fun _ => leaves_write (commit_eq_some hwrite)⟩
  | remove path =>
    obtain ⟨output, hremove, rfl⟩ := Option.map_eq_some_iff.mp h
    exact ⟨_, _, rfl, rfl, fun _ => leaves_remove (commit_eq_some hremove)⟩
  | patch input =>
    obtain ⟨output, hpatch, rfl⟩ := Option.map_eq_some_iff.mp h
    exact ⟨_, _, rfl, rfl, fun _ => leaves_change (commit_eq_some hpatch)⟩
  | multiPatch input =>
    obtain ⟨output, hpatch, rfl⟩ := Option.map_eq_some_iff.mp h
    exact ⟨_, _, rfl, rfl, fun _ => leaves_change (commit_eq_some hpatch)⟩
  | undo path =>
    obtain ⟨output, hundo, rfl⟩ := Option.map_eq_some_iff.mp h
    exact ⟨_, _, rfl, rfl, fun _ => leaves_undo (commit_eq_some hundo)⟩
  | _ => cases h

end FileWorld

end HeliosLite
