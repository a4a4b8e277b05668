import HeliosLite.Serde.Record
import HeliosLite.Storage.Libraries

/-!
# Message records

The records in which the messages of a conversation are stored: their conversion from the
domain types, their JSON, and the way back. Where a record has the fields of its domain
type, the domain type stands for both. The write daemon has its own copy of the writing
half, field for field the same.

## Main definitions

* `ContextMessageRecord` — the record of a message with its usage
* `ContextMessageRecord.deserialize` — reading a message, also one with stray variant keys
-/

namespace HeliosLite

open Serde Serde.Json

variable [Libraries]

/-! ### Leaves -/

namespace Role

def serialize : Role → Json
  | .system => .str "System"
  | .user => .str "User"
  | .assistant => .str "Assistant"
  | .tool => .str "Tool"

def deserialize : Json → Option Role :=
  tagged
    [("System", unitCase .system), ("User", unitCase .user),
      ("Assistant", unitCase .assistant), ("Tool", unitCase .tool)]

end Role

namespace TokenCount

def serialize : TokenCount → Json
  | .actual n => record [("actual", some (ofU64 n))]
  | .approx n => record [("approx", some (ofU64 n))]

/-- Older rows have the tags with a capital letter. -/
def deserialize : Json → Option TokenCount :=
  tagged
    [("actual", newtypeCase u64 .actual), ("Actual", newtypeCase u64 .actual),
      ("approx", newtypeCase u64 .approx), ("Approx", newtypeCase u64 .approx)]

end TokenCount

namespace Usage

def serialize (usage : Usage) : Json :=
  record
    [("prompt_tokens", some usage.promptTokens.serialize),
      ("completion_tokens", some usage.completionTokens.serialize),
      ("total_tokens", some usage.totalTokens.serialize),
      ("cached_tokens", some usage.cachedTokens.serialize),
      ("cost", usage.cost.map ofF64)]

def deserialize (v : Json) : Option Usage := do
  let fields ← structFields
    ["prompt_tokens", "completion_tokens", "total_tokens", "cached_tokens", "cost"] 0 v
  let promptTokens ← required TokenCount.deserialize fields "prompt_tokens"
  let completionTokens ← required TokenCount.deserialize fields "completion_tokens"
  let totalTokens ← required TokenCount.deserialize fields "total_tokens"
  let cachedTokens ← required TokenCount.deserialize fields "cached_tokens"
  let cost ← optional f64 fields "cost"
  some { promptTokens, completionTokens, totalTokens, cachedTokens, cost }

end Usage

namespace ReasoningFull

def serialize (reasoning : ReasoningFull) : Json :=
  record
    [("text", reasoning.text.map .str),
      ("signature", reasoning.signature.map .str),
      ("data", reasoning.data.map .str),
      ("id", reasoning.id.map .str),
      ("format", reasoning.format.map .str),
      ("index", reasoning.index.map ofI32),
      ("type_of", reasoning.typeOf.map .str)]

def deserialize (v : Json) : Option ReasoningFull := do
  let fields ← structFields
    ["text", "signature", "data", "id", "format", "index", "type_of"] 0 v
  let text ← optional string fields "text"
  let signature ← optional string fields "signature"
  let data ← optional string fields "data"
  let id ← optional string fields "id"
  let format ← optional string fields "format"
  let index ← optional i32 fields "index"
  let typeOf ← optional string fields "type_of"
  some { text, signature, data, id, format, index, typeOf }

end ReasoningFull

/-! ### Images -/

structure ImageRecord where
  url : String
  mimeType : String
  deriving DecidableEq

def ImageRecord.from (image : Image) : ImageRecord :=
  { url := image.url, mimeType := image.mimeType }

namespace ImageRecord

/-- The image rebuilt from its base64 data: the data is what follows the prefix of a
base64 URL, or else the whole URL. -/
def into (r : ImageRecord) : Image :=
  let start := "data:" ++ r.mimeType ++ ";base64,"
  let data := if start.toList.isPrefixOf r.url.toList then
    String.ofList (r.url.toList.drop start.toList.length) else r.url
  { url := "data:" ++ r.mimeType ++ ";base64," ++ data, mimeType := r.mimeType }

def serialize (r : ImageRecord) : Json :=
  record [("url", some (.str r.url)), ("mime_type", some (.str r.mimeType))]

def deserialize (v : Json) : Option ImageRecord := do
  let fields ← structFields ["url", "mime_type"] 0 v
  let url ← required string fields "url"
  let mimeType ← required string fields "mime_type"
  some { url, mimeType }

end ImageRecord

/-! ### Tool calls -/

namespace ToolCallArguments

/-- `serde_json::to_value`: an unparsed text is passed through when it is JSON, and is a
string otherwise. The parser refuses some texts that are JSON, such as those nested too
deeply. -/
def toValue : ToolCallArguments → Option Value
  | .unparsed json =>
    if JsonText.isRaw json then (fromText json).map Json.value else some (Json.str json).value
  | .parsed value => some value

/-- A string is taken for JSON text; it stays unparsed when it is beyond repair. -/
def fromValue (value : Value) : ToolCallArguments :=
  match value.val with
  | .str json =>
    match Libraries.jsonRepair json with
    | some repaired => .parsed repaired
    | none => .unparsed json
  | _ => .parsed value

/-- The arguments as a JSON value, if they can be parsed. -/
def parse : ToolCallArguments → Option Value
  | .unparsed json => Libraries.jsonRepair json
  | .parsed value => some value

end ToolCallArguments

structure ToolCallFullRecord where
  name : String
  callId : Option String
  arguments : Value
  thoughtSignature : Option String
  deriving DecidableEq

def ToolCallFullRecord.from (call : ToolCallFull) : ToolCallFullRecord :=
  { name := call.name
    callId := call.callId
    arguments := call.arguments.toValue.getD Json.null.value
    thoughtSignature := call.thoughtSignature }

namespace ToolCallFullRecord

def into (r : ToolCallFullRecord) : ToolCallFull :=
  { name := r.name
    callId := r.callId
    arguments := .fromValue r.arguments
    thoughtSignature := r.thoughtSignature }

def serialize (r : ToolCallFullRecord) : Json :=
  record
    [("name", some (.str r.name)),
      ("call_id", some (nullable (r.callId.map .str))),
      ("arguments", some r.arguments.val),
      ("thought_signature", r.thoughtSignature.map .str)]

def deserialize (v : Json) : Option ToolCallFullRecord := do
  let fields ← structFields ["name", "call_id", "arguments", "thought_signature"] 0 v
  let name ← required string fields "name"
  let callId ← optional string fields "call_id"
  let arguments ← required anyValue fields "arguments"
  let thoughtSignature ← optional string fields "thought_signature"
  some { name, callId, arguments, thoughtSignature }

end ToolCallFullRecord

/-! ### Text messages -/

namespace UserCommand

def serialize (command : UserCommand) : Json :=
  record
    [("name", some (.str command.name)),
      ("template", some (.str command.template)),
      ("parameters", some (.arr (command.parameters.map .str)))]

def deserialize (v : Json) : Option UserCommand := do
  let fields ← structFields ["name", "template", "parameters"] 0 v
  let name ← required string fields "name"
  let template ← required string fields "template"
  let parameters ← required (listOf string) fields "parameters"
  some { name, template, parameters }

end UserCommand

namespace EventValue

def serialize : EventValue → Json
  | .text prompt => record [("Text", some (.str prompt))]
  | .command userCommand => record [("Command", some userCommand.serialize)]

def deserialize : Json → Option EventValue :=
  tagged
    [("Text", newtypeCase string .text), ("Command", newtypeCase UserCommand.deserialize .command)]

end EventValue

structure TextMessageRecord where
  role : Role
  content : String
  rawContent : Option Value
  toolCalls : Option (List ToolCallFullRecord)
  thoughtSignature : Option String
  model : Option String
  reasoningDetails : Option (List ReasoningFull)
  droppable : Bool
  deriving DecidableEq

/-- The phase of the message is not stored. -/
def TextMessageRecord.from (message : TextMessage) : TextMessageRecord :=
  { role := message.role
    content := message.content
    rawContent := message.rawContent.map fun event => event.serialize.value
    toolCalls := message.toolCalls.map fun calls => calls.map ToolCallFullRecord.from
    thoughtSignature := message.thoughtSignature
    model := message.model
    reasoningDetails := message.reasoningDetails
    droppable := message.droppable }

namespace TextMessageRecord

def tryInto (r : TextMessageRecord) : Option TextMessage := do
  let rawContent ← match r.rawContent with
    | none => some none
    | some event => (EventValue.deserialize event.val).map some
  some
    { role := r.role
      content := r.content
      rawContent := rawContent
      toolCalls := r.toolCalls.map fun calls => calls.map ToolCallFullRecord.into
      thoughtSignature := r.thoughtSignature
      model := r.model
      reasoningDetails := r.reasoningDetails
      droppable := r.droppable
      phase := none }

def serialize (r : TextMessageRecord) : Json :=
  record
    [("role", some r.role.serialize),
      ("content", some (.str r.content)),
      ("raw_content", r.rawContent.map (·.val)),
      ("tool_calls", r.toolCalls.map fun calls => .arr (calls.map ToolCallFullRecord.serialize)),
      ("thought_signature", r.thoughtSignature.map .str),
      ("model", r.model.map .str),
      ("reasoning_details",
        r.reasoningDetails.map fun details => .arr (details.map ReasoningFull.serialize)),
      ("droppable", if r.droppable then some (.bool true) else none)]

def deserialize (v : Json) : Option TextMessageRecord := do
  let fields ← structFields
    ["role", "content", "raw_content", "tool_calls", "thought_signature", "model",
      "reasoning_details", "droppable"] 1 v
  let role ← required Role.deserialize fields "role"
  let content ← required string fields "content"
  let rawContent ← optional anyValue fields "raw_content"
  let toolCalls ← optional (listOf ToolCallFullRecord.deserialize) fields "tool_calls"
  let thoughtSignature ← optional string fields "thought_signature"
  let model ← optional string fields "model"
  let reasoningDetails ← optional (listOf ReasoningFull.deserialize) fields "reasoning_details"
  let droppable ← defaulted boolean false fields "droppable"
  some
    { role, content, rawContent, toolCalls, thoughtSignature, model, reasoningDetails, droppable }

end TextMessageRecord

/-! ### Tool results -/

/-- A legacy value of a tool: a changed file. -/
structure FileDiffRecord where
  path : String
  oldText : Option String
  newText : String
  deriving DecidableEq

namespace FileDiffRecord

def serialize (r : FileDiffRecord) : Json :=
  record
    [("path", some (.str r.path)),
      ("old_text", some (nullable (r.oldText.map .str))),
      ("new_text", some (.str r.newText))]

def deserialize (v : Json) : Option FileDiffRecord := do
  let fields ← structFields ["path", "old_text", "new_text"] 0 v
  let path ← required string fields "path"
  let oldText ← optional string fields "old_text"
  let newText ← required string fields "new_text"
  some { path, oldText, newText }

end FileDiffRecord

/-- A value of a tool; the last three variants stand in older rows only. -/
inductive ToolValueRecord where
  | text (text : String)
  | ai (value : String) (conversationId : String)
  | image (image : ImageRecord)
  | empty
  | markdown (text : String)
  | fileDiff (diff : FileDiffRecord)
  | pair (first second : ToolValueRecord)
  deriving DecidableEq

def ToolValueRecord.from : ToolValue → ToolValueRecord
  | .text content => .text content
  | .ai value conversationId => .ai value conversationId.intoString
  | .image img => .image (ImageRecord.from img)
  | .empty => .empty

namespace ToolValueRecord

/-- Markdown becomes text, a diff its summary, and a pair its first value. -/
def tryInto : ToolValueRecord → Option ToolValue
  | .text content => some (.text content)
  | .ai value conversationId => (ConversationId.parse conversationId).map (.ai value)
  | .image img => some (.image img.into)
  | .empty => some .empty
  | .markdown content => some (.text content)
  | .fileDiff diff => some (.text ("[File diff: " ++ diff.path ++ "]"))
  | .pair first _ => first.tryInto

def serialize : ToolValueRecord → Json
  | .text content => record [("text", some (.str content))]
  | .ai value conversationId =>
    record [("aI", some (record
      [("value", some (.str value)), ("conversation_id", some (.str conversationId))]))]
  | .image img => record [("image", some img.serialize)]
  | .empty => .str "empty"
  | .markdown content => record [("markdown", some (.str content))]
  | .fileDiff diff => record [("fileDiff", some diff.serialize)]
  | .pair first second =>
    record [("pair", some (.arr [first.serialize, second.serialize]))]

def deserializeAi (v : Json) : Option ToolValueRecord := do
  let fields ← structFields ["value", "conversation_id"] 0 v
  let value ← required string fields "value"
  let conversationId ← required string fields "conversation_id"
  some (.ai value conversationId)

/-- The variants that hold no other value. -/
def deserializeFlat : Json → Option ToolValueRecord :=
  tagged
    [("text", newtypeCase string .text), ("aI", newtypeCase deserializeAi id),
      ("image", newtypeCase ImageRecord.deserialize .image), ("empty", unitCase .empty),
      ("markdown", newtypeCase string .markdown),
      ("fileDiff", newtypeCase FileDiffRecord.deserialize .fileDiff)]

def deserialize : Json → Option ToolValueRecord
  | .obj [("pair", .arr [first, second])] => do
    let first ← deserialize first
    let second ← deserialize second
    some (.pair first second)
  | v => deserializeFlat v

end ToolValueRecord

structure ToolOutputRecord where
  isError : Bool
  values : List ToolValueRecord
  deriving DecidableEq

def ToolOutputRecord.from (output : ToolOutput) : ToolOutputRecord :=
  { isError := output.isError, values := output.values.map ToolValueRecord.from }

namespace ToolOutputRecord

def tryInto (r : ToolOutputRecord) : Option ToolOutput := do
  let values ← r.values.mapM ToolValueRecord.tryInto
  some { isError := r.isError, values := values }

def serialize (r : ToolOutputRecord) : Json :=
  record
    [("is_error", some (.bool r.isError)),
      ("values", some (.arr (r.values.map ToolValueRecord.serialize)))]

def deserialize (v : Json) : Option ToolOutputRecord := do
  let fields ← structFields ["is_error", "values"] 0 v
  let isError ← required boolean fields "is_error"
  let values ← required (listOf ToolValueRecord.deserialize) fields "values"
  some { isError, values }

end ToolOutputRecord

structure ToolResultRecord where
  name : String
  callId : Option String
  output : ToolOutputRecord
  deriving DecidableEq

def ToolResultRecord.from (result : ToolResult) : ToolResultRecord :=
  { name := result.name
    callId := result.callId
    output := ToolOutputRecord.from result.output }

namespace ToolResultRecord

def tryInto (r : ToolResultRecord) : Option ToolResult := do
  let output ← r.output.tryInto
  some { name := r.name, callId := r.callId, output := output }

def serialize (r : ToolResultRecord) : Json :=
  record
    [("name", some (.str r.name)),
      ("call_id", some (nullable (r.callId.map .str))),
      ("output", some r.output.serialize)]

def deserialize (v : Json) : Option ToolResultRecord := do
  let fields ← structFields ["name", "call_id", "output"] 0 v
  let name ← required string fields "name"
  let callId ← optional string fields "call_id"
  let output ← required ToolOutputRecord.deserialize fields "output"
  some { name, callId, output }

end ToolResultRecord

/-! ### Messages -/

inductive ContextMessageValueRecord where
  | text (message : TextMessageRecord)
  | tool (result : ToolResultRecord)
  | image (image : ImageRecord)
  deriving DecidableEq

def ContextMessageValueRecord.from : ContextMessage → ContextMessageValueRecord
  | .text message => .text (TextMessageRecord.from message)
  | .tool result => .tool (ToolResultRecord.from result)
  | .image img => .image (ImageRecord.from img)

namespace ContextMessageValueRecord

def tryInto : ContextMessageValueRecord → Option ContextMessage
  | .text message => message.tryInto.map .text
  | .tool result => result.tryInto.map .tool
  | .image img => some (.image img.into)

def serialize : ContextMessageValueRecord → Json
  | .text message => record [("text", some message.serialize)]
  | .tool result => record [("tool", some result.serialize)]
  | .image img => record [("image", some img.serialize)]

def deserialize : Json → Option ContextMessageValueRecord :=
  tagged
    [("text", newtypeCase TextMessageRecord.deserialize .text),
      ("tool", newtypeCase ToolResultRecord.deserialize .tool),
      ("image", newtypeCase ImageRecord.deserialize .image)]

end ContextMessageValueRecord

/-- The variant tags of a message, in the order in which a stray tag loses. -/
def messageVariantKeys : List String := ["text", "tool", "image"]

/-- A non-empty object that reads as the variant of its key. -/
def isValidVariant (value : Option Json) (key : String) : Bool :=
  match value with
  | some (.obj (p :: payload)) =>
    (ContextMessageValueRecord.deserialize (.obj [(key, .obj (p :: payload))])).isSome
  | _ => false

/-- All keys but the first valid variant are dropped, if there is one. -/
def dropStrayKeys (fields : List (String × Json)) : List (String × Json) :=
  match messageVariantKeys.find? fun key => isValidVariant (fields.lookup key) key with
  | none => fields
  | some keep => fields.filter fun p => p.1 == keep

/-- The message inside the wrapper, without its stray keys. -/
def cleanWrapped : String × Json → String × Json
  | ("message", .obj msg) => ("message", .obj (dropStrayKeys msg))
  | p => p

/-- Stray variant keys are dropped inside the wrapper and from the message itself. -/
def stripStrayVariantKeys : Json → Json
  | .obj fields => .obj (dropStrayKeys (fields.map cleanWrapped))
  | other => other

structure ContextMessageRecord where
  message : ContextMessageValueRecord
  usage : Option Usage
  deriving DecidableEq

def ContextMessageRecord.from (entry : MessageEntry) : ContextMessageRecord :=
  { message := ContextMessageValueRecord.from entry.message, usage := entry.usage }

namespace ContextMessageRecord

def tryInto (r : ContextMessageRecord) : Option MessageEntry := do
  let message ← r.message.tryInto
  some { message := message, usage := r.usage }

def serialize (r : ContextMessageRecord) : Json :=
  record
    [("message", some r.message.serialize),
      ("usage", r.usage.map Usage.serialize)]

/-- The current format, a message with its usage. -/
def deserializeWrapper (v : Json) : Option ContextMessageRecord := do
  let fields ← structFields ["message", "usage"] 0 v
  let message ← required ContextMessageValueRecord.deserialize fields "message"
  let usage ← optional Usage.deserialize fields "usage"
  some { message, usage }

/-- The message is read as a value and cleaned; the old format, a message alone, is tried
when the current one does not fit. -/
def deserialize (v : Json) : Option ContextMessageRecord :=
  let cleaned := stripStrayVariantKeys v.toValue
  match deserializeWrapper cleaned with
  | some r => some r
  | none => (ContextMessageValueRecord.deserialize cleaned).map fun message => ⟨message, none⟩

theorem deserialize_wrapped {v : Json} {r : ContextMessageRecord}
    (h : deserializeWrapper (stripStrayVariantKeys v.toValue) = some r) :
    deserialize v = some r := by
  simp only [deserialize, h]

theorem deserialize_direct {v : Json}
    (h : deserializeWrapper (stripStrayVariantKeys v.toValue) = none) :
    deserialize v = (ContextMessageValueRecord.deserialize (stripStrayVariantKeys v.toValue)).map
      fun message => ⟨message, none⟩ := by
  simp only [deserialize, h]

end ContextMessageRecord

end HeliosLite
