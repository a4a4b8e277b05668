import HeliosLite.Storage.MessageRecord

/-!
# Context and metrics records

The record of a whole context, as it stands in the context columns, and the record of the
metrics of a session.

## Main definitions

* `ContextRecord` — the record of a context
* `MetricsRecord` — the record of the metrics; a file may hold one operation or a list
* `Metrics.serialize` — the JSON of the domain type itself
-/

namespace HeliosLite

open Serde Serde.Json

variable [Libraries]

/-! ### Tools and sampling -/

structure ToolDefinitionRecord where
  name : String
  description : String
  inputSchema : Value
  deriving DecidableEq

def ToolDefinitionRecord.from (definition : ToolDefinition) : ToolDefinitionRecord :=
  { name := definition.name
    description := definition.description
    inputSchema := definition.inputSchema.value }

def Schema.ofValue (value : Value) : Option Schema :=
  if h : isSchema value.val then some { value := value, shape := h } else none

namespace ToolDefinitionRecord

def tryInto (r : ToolDefinitionRecord) : Option ToolDefinition := do
  let inputSchema ← Schema.ofValue r.inputSchema
  some { name := r.name, description := r.description, inputSchema := inputSchema }

def serialize (r : ToolDefinitionRecord) : Json :=
  record
    [("name", some (.str r.name)),
      ("description", some (.str r.description)),
      ("input_schema", some r.inputSchema.val)]

def deserialize (v : Json) : Option ToolDefinitionRecord := do
  let fields ← structFields ["name", "description", "input_schema"] 0 v
  let name ← required string fields "name"
  let description ← required string fields "description"
  let inputSchema ← required anyValue fields "input_schema"
  some { name, description, inputSchema }

end ToolDefinitionRecord

namespace ToolChoice

def serialize : ToolChoice → Json
  | .none => .str "None"
  | .auto => .str "Auto"
  | .required => .str "Required"
  | .call name => record [("Call", some (.str name))]

def deserialize : Json → Option ToolChoice :=
  tagged
    [("None", unitCase .none), ("Auto", unitCase .auto), ("Required", unitCase .required),
      ("Call", newtypeCase string .call)]

end ToolChoice

namespace Effort

def serialize : Effort → Json
  | .none => .str "none"
  | .minimal => .str "minimal"
  | .low => .str "low"
  | .medium => .str "medium"
  | .high => .str "high"
  | .xHigh => .str "xhigh"
  | .max => .str "max"

def deserialize : Json → Option Effort :=
  tagged
    [("none", unitCase .none), ("minimal", unitCase .minimal), ("low", unitCase .low),
      ("medium", unitCase .medium), ("high", unitCase .high), ("xhigh", unitCase .xHigh),
      ("max", unitCase .max)]

end Effort

namespace ReasoningConfig

def serialize (config : ReasoningConfig) : Json :=
  record
    [("effort", config.effort.map Effort.serialize),
      ("max_tokens", config.maxTokens.map ofU64),
      ("exclude", config.exclude.map .bool),
      ("enabled", config.enabled.map .bool)]

def deserialize (v : Json) : Option ReasoningConfig := do
  let fields ← structFields ["effort", "max_tokens", "exclude", "enabled"] 0 v
  let effort ← optional Effort.deserialize fields "effort"
  let maxTokens ← optional u64 fields "max_tokens"
  let exclude ← optional boolean fields "exclude"
  let enabled ← optional boolean fields "enabled"
  some { effort, maxTokens, exclude, enabled }

end ReasoningConfig

/-! ### Contexts -/

structure ContextRecord where
  conversationId : Option String
  initiator : Option String
  messages : List ContextMessageRecord
  tools : List ToolDefinitionRecord
  toolChoice : Option ToolChoice
  maxTokens : Option UInt64
  temperature : Option F32
  topP : Option F32
  topK : Option UInt32
  reasoning : Option ReasoningConfig
  stream : Option Bool
  deriving DecidableEq

/-- The response format is not stored. -/
def ContextRecord.from (context : Context) : ContextRecord :=
  { conversationId := context.conversationId.map (·.intoString)
    initiator := context.initiator
    messages := context.messages.map ContextMessageRecord.from
    tools := context.tools.map ToolDefinitionRecord.from
    toolChoice := context.toolChoice
    maxTokens := context.maxTokens
    temperature := context.temperature
    topP := context.topP
    topK := context.topK
    reasoning := context.reasoning
    stream := context.stream }

namespace ContextRecord

def tryInto (r : ContextRecord) : Option Context := do
  let conversationId ← match r.conversationId with
    | none => some none
    | some id => (ConversationId.parse id).map some
  let messages ← r.messages.mapM ContextMessageRecord.tryInto
  let tools ← r.tools.mapM ToolDefinitionRecord.tryInto
  some
    { conversationId := conversationId
      initiator := r.initiator
      messages := messages
      tools := tools
      toolChoice := r.toolChoice
      maxTokens := r.maxTokens
      temperature := r.temperature
      topP := r.topP
      topK := r.topK
      reasoning := r.reasoning
      stream := r.stream
      responseFormat := none }

/-- A list that is skipped when it is empty. -/
def nonEmpty (items : List Json) : Option Json :=
  if items.isEmpty then none else some (.arr items)

def serialize (r : ContextRecord) : Json :=
  record
    [("conversation_id", r.conversationId.map .str),
      ("initiator", r.initiator.map .str),
      ("messages", nonEmpty (r.messages.map ContextMessageRecord.serialize)),
      ("tools", nonEmpty (r.tools.map ToolDefinitionRecord.serialize)),
      ("tool_choice", r.toolChoice.map ToolChoice.serialize),
      ("max_tokens", r.maxTokens.map ofU64),
      ("temperature", r.temperature.map ofF32),
      ("top_p", r.topP.map ofF32),
      ("top_k", r.topK.map ofU32),
      ("reasoning", r.reasoning.map ReasoningConfig.serialize),
      ("stream", r.stream.map .bool)]

def deserialize (v : Json) : Option ContextRecord := do
  let fields ← structFields
    ["conversation_id", "initiator", "messages", "tools", "tool_choice", "max_tokens",
      "temperature", "top_p", "top_k", "reasoning", "stream"] 11 v
  let conversationId ← optional string fields "conversation_id"
  let initiator ← optional string fields "initiator"
  let messages ← defaulted (listOf ContextMessageRecord.deserialize) [] fields "messages"
  let tools ← defaulted (listOf ToolDefinitionRecord.deserialize) [] fields "tools"
  let toolChoice ← optional ToolChoice.deserialize fields "tool_choice"
  let maxTokens ← optional u64 fields "max_tokens"
  let temperature ← optional f32 fields "temperature"
  let topP ← optional f32 fields "top_p"
  let topK ← optional u32 fields "top_k"
  let reasoning ← optional ReasoningConfig.deserialize fields "reasoning"
  let stream ← optional boolean fields "stream"
  some
    { conversationId, initiator, messages, tools, toolChoice, maxTokens, temperature, topP, topK
      reasoning, stream }

end ContextRecord

/-! ### Metrics -/

namespace ToolKind

def serialize : ToolKind → Json
  | .read => .str "read"
  | .write => .str "write"
  | .fsSearch => .str "fs_search"
  | .semSearch => .str "sem_search"
  | .remove => .str "remove"
  | .patch => .str "patch"
  | .multiPatch => .str "multi_patch"
  | .undo => .str "undo"
  | .shell => .str "shell"
  | .fetch => .str "fetch"
  | .followup => .str "followup"
  | .plan => .str "plan"
  | .skill => .str "skill"
  | .todoWrite => .str "todo_write"
  | .todoRead => .str "todo_read"
  | .task => .str "task"

def deserialize : Json → Option ToolKind :=
  tagged
    [("read", unitCase .read), ("write", unitCase .write), ("fs_search", unitCase .fsSearch),
      ("sem_search", unitCase .semSearch), ("remove", unitCase .remove),
      ("patch", unitCase .patch), ("multi_patch", unitCase .multiPatch),
      ("undo", unitCase .undo), ("shell", unitCase .shell), ("fetch", unitCase .fetch),
      ("followup", unitCase .followup), ("plan", unitCase .plan), ("skill", unitCase .skill),
      ("todo_write", unitCase .todoWrite), ("todo_read", unitCase .todoRead),
      ("task", unitCase .task)]

end ToolKind

structure FileChangeMetricsRecord where
  linesAdded : UInt64
  linesRemoved : UInt64
  contentHash : Option String
  tool : Option ToolKind
  deriving DecidableEq

def FileChangeMetricsRecord.from (operation : FileOperation) : FileChangeMetricsRecord :=
  { linesAdded := operation.linesAdded
    linesRemoved := operation.linesRemoved
    contentHash := operation.contentHash
    tool := some operation.tool }

namespace FileChangeMetricsRecord

/-- Old records have no tool; their operations were writes. -/
def into (r : FileChangeMetricsRecord) : FileOperation :=
  { linesAdded := r.linesAdded
    linesRemoved := r.linesRemoved
    contentHash := r.contentHash
    tool := r.tool.getD .write }

def serialize (r : FileChangeMetricsRecord) : Json :=
  record
    [("lines_added", some (ofU64 r.linesAdded)),
      ("lines_removed", some (ofU64 r.linesRemoved)),
      ("content_hash", r.contentHash.map .str),
      ("tool", r.tool.map ToolKind.serialize)]

def deserialize (v : Json) : Option FileChangeMetricsRecord := do
  let fields ← structFields ["lines_added", "lines_removed", "content_hash", "tool"] 0 v
  let linesAdded ← required u64 fields "lines_added"
  let linesRemoved ← required u64 fields "lines_removed"
  let contentHash ← optional string fields "content_hash"
  let tool ← optional ToolKind.deserialize fields "tool"
  some { linesAdded, linesRemoved, contentHash, tool }

end FileChangeMetricsRecord

/-- The operations of a file: the last one, or the list that older rows have. -/
inductive FileOperationOrArray where
  | single (operation : FileChangeMetricsRecord)
  | array (operations : List FileChangeMetricsRecord)
  deriving DecidableEq

namespace FileOperationOrArray

/-- The last operation of the file, if there is one. -/
def operation : FileOperationOrArray → Option FileOperation
  | .single r => some r.into
  | .array rs => rs.getLast?.map FileChangeMetricsRecord.into

def serialize : FileOperationOrArray → Json
  | .single r => r.serialize
  | .array rs => .arr (rs.map FileChangeMetricsRecord.serialize)

def deserialize (v : Json) : Option FileOperationOrArray :=
  match FileChangeMetricsRecord.deserialize v with
  | some r => some (.single r)
  | none => (listOf FileChangeMetricsRecord.deserialize v).map .array

end FileOperationOrArray

/-- A time in a JSON document. -/
def time (v : Json) : Option DateTime := (string v).bind Libraries.parseJsonTime

/-- An object read as a map, the last of equal keys kept. -/
def mapOf {α : Type} (decode : Json → Option α) : Json → Option (StringMap α)
  | .obj fields => do
    let entries ← fields.mapM fun p => (decode p.2).map fun a => (p.1, a)
    some (StringMap.ofEntries entries)
  | _ => none

/-- An array of strings read as a set. -/
def setOf (v : Json) : Option StringSet :=
  (listOf string v).map fun items => StringMap.ofEntries (items.map fun s => (s, ()))

/-- The array of the strings of a set. -/
def serializeSet (s : StringSet) : Json := .arr (s.entries.map fun p => .str p.1)

def serializeMap {α : Type} (encode : α → Json) (m : StringMap α) : Json :=
  .obj (m.entries.map fun p => (p.1, encode p.2))

structure MetricsRecord where
  startedAt : Option DateTime
  filesChanged : StringMap FileOperationOrArray
  filesAccessed : StringSet
  deriving DecidableEq

/-- The todos are not stored. -/
def MetricsRecord.from (metrics : Metrics) : MetricsRecord :=
  { startedAt := metrics.startedAt
    filesChanged := metrics.fileOperations.filterMap fun _ operation =>
      some (.single (FileChangeMetricsRecord.from operation))
    filesAccessed := metrics.filesAccessed }

namespace MetricsRecord

/-- Rows without accessed files get them from the read operations. -/
def into (r : MetricsRecord) : Metrics :=
  let fileOperations := r.filesChanged.filterMap fun _ file => file.operation
  { startedAt := r.startedAt
    fileOperations := fileOperations
    filesAccessed :=
      if r.filesAccessed.isEmpty then Metrics.filesRead fileOperations else r.filesAccessed
    todos := [] }

def serialize (r : MetricsRecord) : Json :=
  record
    [("started_at", some (nullable (r.startedAt.map fun t => .str (Libraries.jsonTime t)))),
      ("files_changed", some (serializeMap FileOperationOrArray.serialize r.filesChanged)),
      ("files_accessed",
        if r.filesAccessed.isEmpty then none else some (serializeSet r.filesAccessed))]

def deserialize (v : Json) : Option MetricsRecord := do
  let fields ← structFields ["started_at", "files_changed", "files_accessed"] 1 v
  let startedAt ← optional time fields "started_at"
  let filesChanged ← required (mapOf FileOperationOrArray.deserialize) fields "files_changed"
  let filesAccessed ← defaulted setOf StringMap.empty fields "files_accessed"
  some { startedAt, filesChanged, filesAccessed }

end MetricsRecord

/-! ### Metrics as the domain writes them -/

namespace TodoStatus

def serialize : TodoStatus → Json
  | .pending => .str "pending"
  | .inProgress => .str "in_progress"
  | .completed => .str "completed"
  | .cancelled => .str "cancelled"

end TodoStatus

namespace Todo

def serialize (todo : Todo) : Json :=
  record
    [("id", some (.str todo.id)),
      ("content", some (.str todo.content)),
      ("status", some todo.status.serialize)]

end Todo

namespace FileOperation

def serialize (operation : FileOperation) : Json :=
  record
    [("lines_added", some (ofU64 operation.linesAdded)),
      ("lines_removed", some (ofU64 operation.linesRemoved)),
      ("content_hash", some (nullable (operation.contentHash.map .str))),
      ("tool", some operation.tool.serialize)]

end FileOperation

namespace Metrics

/-- The JSON of the metrics themselves, without a record in between. -/
def serialize (metrics : Metrics) : Json :=
  record
    [("started_at", metrics.startedAt.map fun t => .str (Libraries.jsonTime t)),
      ("file_operations",
        if metrics.fileOperations.isEmpty then none
        else some (serializeMap FileOperation.serialize metrics.fileOperations)),
      ("files_accessed",
        if metrics.filesAccessed.isEmpty then none
        else some (serializeSet metrics.filesAccessed)),
      ("todos",
        if metrics.todos.isEmpty then none else some (.arr (metrics.todos.map Todo.serialize)))]

end Metrics

end HeliosLite
