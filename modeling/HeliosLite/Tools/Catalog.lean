import HeliosLite.Domain.Conversation
import HeliosLite.Policies.Policy
import HeliosLite.Tools.Paths

/-!
# The tools

The built-in tools with what a call gives them, and the operation that the policies are asked about
for a call.

## Main definitions

* `ToolCatalog` — a call of a built-in tool
* `ToolCatalog.toPolicyOperation` — the operation of a call, if it needs a permission
-/

namespace HeliosLite

structure FSRead where
  filePath : String
  startLine : Option Int32
  endLine : Option Int32
  deriving DecidableEq, Repr

structure FSWrite where
  filePath : String
  content : String
  overwrite : Bool
  deriving DecidableEq, Repr

structure FSSearch where
  pattern : String
  path : Option String
  glob : Option String
  fileType : Option String
  deriving DecidableEq, Repr

structure PatchEdit where
  oldString : String
  newString : String
  replaceAll : Bool
  deriving DecidableEq, Repr

structure FSPatch where
  filePath : String
  oldString : String
  newString : String
  replaceAll : Bool
  deriving DecidableEq, Repr

structure FSMultiPatch where
  filePath : String
  edits : List PatchEdit
  deriving DecidableEq, Repr

structure Shell where
  command : String
  cwd : Option String
  deriving DecidableEq, Repr

structure PlanCreate where
  planName : String
  version : String
  content : String
  deriving DecidableEq, Repr

/-- A call of a tool. What the tools without files are given is left out. -/
inductive ToolCatalog where
  | read (input : FSRead)
  | write (input : FSWrite)
  | fsSearch (input : FSSearch)
  | semSearch
  | remove (path : String)
  | patch (input : FSPatch)
  | multiPatch (input : FSMultiPatch)
  | undo (path : String)
  | shell (input : Shell)
  | fetch (url : String)
  | followup
  | plan (input : PlanCreate)
  | skill
  | todoWrite
  | todoRead
  | task
  deriving DecidableEq, Repr

namespace ToolCatalog

def kind : ToolCatalog → ToolKind
  | read _ => .read
  | write _ => .write
  | fsSearch _ => .fsSearch
  | semSearch => .semSearch
  | remove _ => .remove
  | patch _ => .patch
  | multiPatch _ => .multiPatch
  | undo _ => .undo
  | shell _ => .shell
  | fetch _ => .fetch
  | followup => .followup
  | plan _ => .plan
  | skill => .skill
  | todoWrite => .todoWrite
  | todoRead => .todoRead
  | task => .task

/-- The message of a search. -/
def searchMessage (input : FSSearch) (displayPath : String) : String :=
  let baseMessage := "Search in directory/file: " ++ displayPath
  match input.glob, input.fileType with
  | some glob, _ => baseMessage ++ " for pattern: '" ++ input.pattern ++
      "' in '" ++ glob ++ "' files"
  | none, some fileType =>
    baseMessage ++ " for pattern: '" ++ input.pattern ++ "' in " ++ fileType ++ " files"
  | none, none => baseMessage ++ " for pattern: " ++ input.pattern

/-- The operation whose permission is asked for; a call without one needs no permission. -/
def toPolicyOperation (env : Environment) : ToolCatalog → Option PermissionOperation
  | read input => some (.read input.filePath env.cwd ("Read file: " ++ display input.filePath))
  | write input =>
    some (.write input.filePath env.cwd ("Create/overwrite file: " ++ display input.filePath))
  | fsSearch input =>
    let path := input.path.getD "."
    some (.read path env.cwd (searchMessage input (display path)))
  | remove path => some (.write path env.cwd ("Remove file: " ++ display path))
  | patch input => some (.write input.filePath env.cwd ("Modify file: " ++ display input.filePath))
  | multiPatch input =>
    some (.write input.filePath env.cwd
      ("Modify file with " ++ toString input.edits.length ++ " edits: " ++ display input.filePath))
  | shell input => some (.execute input.command env.cwd)
  | fetch url => some (.fetch url env.cwd ("Fetch content from URL: " ++ url))
  -- operations that don't require permission checks
  | semSearch | undo _ | followup | plan _ | skill | todoWrite | todoRead | task => none
where
  display (path : String) : String := "`" ++ formatDisplayPath path env ++ "`"

end ToolCatalog

end HeliosLite
