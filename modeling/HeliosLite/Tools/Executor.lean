import HeliosLite.Theory.Lines
import HeliosLite.Theory.Run
import HeliosLite.Tools.Catalog

/-!
# The tool executor

A call becomes a request to the services, with the path made absolute, and what the services did is
noted in the metrics of the conversation under the path as the model wrote it. A file is edited only
if it was read.

## Main definitions

* `ToolCatalog.toRequest` — the request of a call
* `Services` — what the services do, over any state of the world
* `ToolOperation.record` — the metrics after an operation
* `Executor.requirePriorRead`, `Executor.execute` — the check, and the whole call
* `Executor.step` — a call, or something that happens outside
-/

namespace HeliosLite

open Serde Theory

/-! ### Requests -/

/-- What the services are asked. -/
inductive ServiceRequest where
  | read (path : String) (startLine endLine : Option UInt64)
  | write (path content : String) (overwrite : Bool)
  | search (path : Option String) (pattern : String)
  | remove (path : String)
  | patch (path oldString newString : String) (replaceAll : Bool)
  | multiPatch (path : String) (edits : List PatchEdit)
  | undo (path : String)
  | execute (command cwd : String)
  | fetch (url : String)
  | createPlan (input : PlanCreate)
  | other (tool : ToolKind)
  deriving DecidableEq, Repr

/-- The request of a call, with its path made absolute. -/
def ToolCatalog.toRequest (env : Environment) : ToolCatalog → ServiceRequest
  | read input =>
    .read (normalizePath env input.filePath) (input.startLine.map fun i => i.toInt64.toUInt64)
      (input.endLine.map fun i => i.toInt64.toUInt64)
  | write input => .write (normalizePath env input.filePath) input.content input.overwrite
  | fsSearch input => .search (input.path.map (normalizePath env)) input.pattern
  | remove path => .remove (normalizePath env path)
  | patch input =>
    .patch (normalizePath env input.filePath) input.oldString input.newString input.replaceAll
  | multiPatch input => .multiPatch (normalizePath env input.filePath) input.edits
  | undo path => .undo (normalizePath env path)
  | shell input => .execute input.command (normalizePath env (input.cwd.getD env.cwd))
  | fetch url => .fetch url
  | plan input => .createPlan input
  | semSearch => .other .semSearch
  | followup => .other .followup
  | skill => .other .skill
  | todoWrite => .other .todoWrite
  | todoRead => .other .todoRead
  | task => .other .task

/-! ### Services -/

structure FsWriteOutput where
  before : Option String
  contentHash : String
  deriving DecidableEq, Repr

structure PatchOutput where
  before : String
  after : String
  contentHash : String
  deriving DecidableEq, Repr

structure FsUndoOutput where
  beforeUndo : Option String
  afterUndo : Option String
  deriving DecidableEq, Repr

/-- The services over a state of the world; a read gives the hash of the whole file. -/
structure Services (σ : Type) where
  read : σ → String → Option UInt64 → Option UInt64 → Option String
  write : σ → String → String → Bool → σ × Option FsWriteOutput
  remove : σ → String → σ × Option String
  patch : σ → String → String → String → Bool → σ × Option PatchOutput
  multiPatch : σ → String → List PatchEdit → σ × Option PatchOutput
  undo : σ → String → σ × Option FsUndoOutput
  other : σ → ServiceRequest → σ × Bool

/-- The hash of a content, and the lines that a change adds and removes. -/
class FileContents where
  computeHash : String → String
  linesAdded : String → String → UInt64
  linesRemoved : String → String → UInt64

/-- What the services did for a call. -/
inductive ToolOperation where
  | fsRead (input : FSRead) (contentHash : String)
  | fsWrite (input : FSWrite) (output : FsWriteOutput)
  | fsRemove (path content : String)
  | fsPatch (input : FSPatch) (output : PatchOutput)
  | fsMultiPatch (input : FSMultiPatch) (output : PatchOutput)
  | fsUndo (path : String) (output : FsUndoOutput)
  | other (tool : ToolKind)
  deriving DecidableEq, Repr

namespace ToolOperation

/-- Whether the user is shown what was done. -/
def toContent : ToolOperation → Bool
  | fsWrite _ output => output.before.isSome
  | fsPatch .. | fsMultiPatch .. => true
  | other tool => tool = .plan ∨ tool = .todoWrite ∨ tool = .todoRead
  | fsRead .. | fsRemove .. | fsUndo .. => false

end ToolOperation

/-! ### Metrics -/

namespace Metrics

/-- The operation becomes the last one of the file; reads are kept in a set too. -/
def insert (metrics : Metrics) (path : String) (operation : FileOperation) : Metrics :=
  { metrics with
    filesAccessed :=
      if operation.tool = .read then metrics.filesAccessed.insert path () else metrics.filesAccessed
    fileOperations := metrics.fileOperations.insert path operation }

end Metrics

section Record

variable [FileContents]

open FileContents

/-- The number of lines of a text. -/
def countLines (content : String) : UInt64 := .ofNat (lines '\n' content.toList).length

namespace ToolOperation

/-- The path that is noted, with the operation noted for it. -/
def noted : ToolOperation → Option (String × FileOperation)
  | fsRead input contentHash =>
    some (input.filePath,
      { linesAdded := 0, linesRemoved := 0, contentHash := some contentHash, tool := .read })
  | fsWrite input output =>
    let before := output.before.getD ""
    some (input.filePath,
      { linesAdded := linesAdded before input.content
        linesRemoved := linesRemoved before input.content
        contentHash := some output.contentHash
        tool := .write })
  | fsRemove path content =>
    some (path,
      { linesAdded := 0
        linesRemoved := countLines content
        contentHash := none
        tool := .remove })
  | fsPatch input output =>
    some (input.filePath,
      { linesAdded := linesAdded output.before output.after
        linesRemoved := linesRemoved output.before output.after
        contentHash := some output.contentHash
        tool := .patch })
  | fsMultiPatch input output =>
    some (input.filePath,
      { linesAdded := linesAdded output.before output.after
        linesRemoved := linesRemoved output.before output.after
        contentHash := some output.contentHash
        tool := .multiPatch })
  | fsUndo path output =>
    let before := output.beforeUndo.getD ""
    let after := output.afterUndo.getD ""
    some (path,
      { linesAdded := linesAdded after before
        linesRemoved := linesRemoved after before
        contentHash := output.afterUndo.map computeHash
        tool := .undo })
  | other _ => none

/-- The metrics after the operation. -/
def record (operation : ToolOperation) (metrics : Metrics) : Metrics :=
  match operation.noted with
  | some (path, operation) => metrics.insert path operation
  | none => metrics

end ToolOperation

end Record

/-! ### The executor -/

/-- The world, and what the conversation knows of it. -/
structure ToolState (σ : Type) where
  world : σ
  metrics : Metrics

namespace Executor

variable {σ : Type} (services : Services σ) (env : Environment)

/-- The operation of a call, if the services succeed. -/
def callInternal (world : σ) (call : ToolCatalog) : σ × Option ToolOperation :=
  match call, call.toRequest env with
  | .read input, .read path startLine endLine =>
    (world, (services.read world path startLine endLine).map (.fsRead input))
  | .write input, .write path content overwrite =>
    (services.write world path content overwrite).map id (Option.map (.fsWrite input))
  | .remove raw, .remove path => (services.remove world path).map id (Option.map (.fsRemove raw))
  | .patch input, .patch path oldString newString replaceAll =>
    (services.patch world path oldString newString replaceAll).map id (Option.map (.fsPatch input))
  | .multiPatch input, .multiPatch path edits =>
    (services.multiPatch world path edits).map id (Option.map (.fsMultiPatch input))
  | .undo raw, .undo path => (services.undo world path).map id (Option.map (.fsUndo raw))
  | call, request =>
    (services.other world request).map id fun ok => if ok then some (.other call.kind) else none

/-- The file was read under this text or under the absolute path. -/
def requirePriorRead (metrics : Metrics) (rawPath : String) : Bool :=
  metrics.filesAccessed.contains (normalizePath env rawPath) ||
    metrics.filesAccessed.contains rawPath

/-- The file that a call edits. -/
def editedPath : ToolCatalog → Option String
  | .patch input => some input.filePath
  | .multiPatch input => some input.filePath
  | .write input => if input.overwrite then some input.filePath else none
  | _ => none

variable [FileContents]

/-- The state after a call, and whether it succeeded. `sent` says whether the user can be shown what
was done; if not, the call fails after its operation. -/
def execute (s : ToolState σ) (call : ToolCatalog) (sent : Bool) : ToolState σ × Bool :=
  if (editedPath call).all (requirePriorRead env s.metrics) then
    match callInternal services env s.world call with
    | (world, some operation) =>
      if operation.toContent && !sent then ({ s with world := world }, false)
      else ({ world := world, metrics := operation.record s.metrics }, true)
    | (world, none) => ({ s with world := world }, false)
  else (s, false)

/-- What a call does to the metrics: nothing, or its operation is recorded. -/
theorem execute_cases (s : ToolState σ) (call : ToolCatalog) (sent : Bool) :
    ((execute services env s call sent).1.metrics = s.metrics ∧
      (execute services env s call sent).2 = false) ∨
    ∃ operation, (callInternal services env s.world call).2 = some operation ∧
      (editedPath call).all (requirePriorRead env s.metrics) ∧
      execute services env s call sent =
        ({ world := (callInternal services env s.world call).1
           metrics := operation.record s.metrics }, true) := by
  rw [execute]
  split_ifs with hread
  · cases hcall : callInternal services env s.world call with
    | mk world operation =>
      cases operation with
      | none => exact .inl ⟨rfl, rfl⟩
      | some operation =>
        dsimp only
        split_ifs
        · exact .inl ⟨rfl, rfl⟩
        · exact .inr ⟨operation, rfl, hread, rfl⟩
  · exact .inl ⟨rfl, rfl⟩

end Executor

/-- The file that a call works on, as the model wrote it. -/
def ToolCatalog.filePath : ToolCatalog → Option String
  | read input => some input.filePath
  | write input => some input.filePath
  | remove path | undo path => some path
  | patch input => some input.filePath
  | multiPatch input => some input.filePath
  | _ => none

namespace Executor

variable {σ : Type} {services : Services σ} {env : Environment} [FileContents]

/-- An operation is noted for the file of its call, with the tool of its call. -/
theorem noted_of_callInternal {world : σ} {call : ToolCatalog} {operation : ToolOperation}
    (h : (callInternal services env world call).2 = some operation) :
    operation.noted.map Prod.fst = call.filePath ∧
      ∀ noted ∈ operation.noted, noted.2.tool = call.kind := by
  cases call with
  | read | write | remove | patch | multiPatch | undo =>
    obtain ⟨output, -, rfl⟩ := Option.map_eq_some_iff.mp h
    refine ⟨rfl, ?_⟩
    intro noted hnoted
    obtain rfl := Option.some.inj hnoted
    rfl
  | _ =>
    replace h : (if (services.other _ _).2 then some (ToolOperation.other _) else none) =
      some operation := h
    split_ifs at h
    obtain rfl := Option.some.inj h
    exact ⟨rfl, nofun⟩

end Executor

/-! ### Runs -/

/-- A call of the model, or something that happens outside. -/
inductive ToolEvent (σ : Type) where
  | call (call : ToolCatalog) (sent : Bool)
  | outside (world : σ)

namespace Executor

variable {σ : Type} (services : Services σ) (env : Environment) [FileContents]

def step (s : ToolState σ) : ToolEvent σ → ToolState σ
  | .call call sent => (execute services env s call sent).1
  | .outside world => { s with world := world }

end Executor

end HeliosLite
