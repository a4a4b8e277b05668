import HeliosLite.Serde.JsonText

/-!
# Messages

The messages of a conversation: text with its tool calls and reasoning, tool results and
images.

## Main definitions

* `TextMessage`, `ToolResult`, `Image` — the three kinds of message
* `ContextMessage` — a message; `MessageEntry` — a message with the usage reported for it
* `ContextMessage.tokenCountApprox` — the estimated number of tokens of a message
-/

namespace HeliosLite

open Serde

/-- Who wrote a text message. -/
inductive Role where
  | system
  | user
  | assistant
  | tool
  deriving DecidableEq, Repr

inductive TokenCount where
  | actual (n : UInt64)
  | approx (n : UInt64)
  deriving DecidableEq, Repr

/-- Token usage as a provider reports it. -/
structure Usage where
  promptTokens : TokenCount
  completionTokens : TokenCount
  totalTokens : TokenCount
  cachedTokens : TokenCount
  cost : Option F64
  deriving DecidableEq, Repr

structure ReasoningFull where
  text : Option String
  signature : Option String
  data : Option String
  id : Option String
  format : Option String
  index : Option Int32
  typeOf : Option String
  deriving DecidableEq

structure Image where
  url : String
  mimeType : String
  deriving DecidableEq, Repr

/-- A conversation id is a UUID. -/
structure ConversationId where
  uuid : BitVec 128
  deriving DecidableEq, Repr

inductive ToolValue where
  | text (text : String)
  | ai (value : String) (conversationId : ConversationId)
  | image (image : Image)
  | empty
  deriving DecidableEq, Repr

structure ToolOutput where
  isError : Bool
  values : List ToolValue
  deriving DecidableEq, Repr

/-- The result of a tool call; `callId` names the call it answers. -/
structure ToolResult where
  name : String
  callId : Option String
  output : ToolOutput
  deriving DecidableEq, Repr

/-- The arguments of a tool call: as the provider streamed them, or as a JSON value. -/
inductive ToolCallArguments where
  | unparsed (json : String)
  | parsed (value : Value)
  deriving DecidableEq

structure ToolCallFull where
  name : String
  callId : Option String
  arguments : ToolCallArguments
  thoughtSignature : Option String
  deriving DecidableEq

structure UserCommand where
  name : String
  template : String
  parameters : List String
  deriving DecidableEq, Repr

/-- The raw content of a message before any template rendering. -/
inductive EventValue where
  | text (prompt : String)
  | command (command : UserCommand)
  deriving DecidableEq, Repr

inductive MessagePhase where
  | commentary
  | finalAnswer
  deriving DecidableEq, Repr

structure TextMessage where
  role : Role
  content : String
  rawContent : Option EventValue
  toolCalls : Option (List ToolCallFull)
  thoughtSignature : Option String
  model : Option String
  reasoningDetails : Option (List ReasoningFull)
  /-- Whether compaction may drop the message, as it does with attachments. -/
  droppable : Bool
  phase : Option MessagePhase
  deriving DecidableEq

inductive ContextMessage where
  | text (message : TextMessage)
  | tool (result : ToolResult)
  | image (image : Image)
  deriving DecidableEq

/-- A message together with the usage reported for it. -/
structure MessageEntry where
  message : ContextMessage
  usage : Option Usage
  deriving DecidableEq

/-- A message without reported usage. -/
def MessageEntry.from (message : ContextMessage) : MessageEntry :=
  { message := message, usage := none }

/-- The number of characters of a text. -/
def charCount (s : String) : ℕ := s.toList.length

namespace ToolCallArguments

/-- The arguments as the text sent to a provider. -/
def intoString [JsonText] : ToolCallArguments → String
  | .unparsed json => json
  | .parsed value => toText value.val

end ToolCallArguments

namespace ContextMessage

/-- A user message with the given content. -/
def user (content : String) (model : Option String) : ContextMessage :=
  .text
    { role := .user
      content := content
      rawContent := none
      toolCalls := none
      thoughtSignature := none
      model := model
      reasoningDetails := none
      droppable := false
      phase := none }

def system (content : String) : ContextMessage :=
  .text
    { role := .system
      content := content
      rawContent := none
      toolCalls := none
      thoughtSignature := none
      model := none
      reasoningDetails := none
      droppable := false
      phase := none }

/-- An assistant message; an empty list of tool calls counts as none. -/
def assistant (content : String) (thoughtSignature : Option String)
    (reasoningDetails : Option (List ReasoningFull))
    (toolCalls : Option (List ToolCallFull)) : ContextMessage :=
  .text
    { role := .assistant
      content := content
      rawContent := none
      toolCalls := toolCalls.filter fun calls => !calls.isEmpty
      thoughtSignature := thoughtSignature
      model := none
      reasoningDetails := reasoningDetails
      droppable := false
      phase := none }

def toolResult (result : ToolResult) : ContextMessage := .tool result

def hasRole (role : Role) : ContextMessage → Bool
  | .text message => message.role == role
  | .tool _ => false
  | .image _ => role == .user

def isDroppable : ContextMessage → Bool
  | .text message => message.droppable
  | .tool _ => false
  | .image _ => false

def hasToolResult : ContextMessage → Bool
  | .text _ => false
  | .tool _ => true
  | .image _ => false

def hasToolCall : ContextMessage → Bool
  | .text message => message.toolCalls.isSome
  | .tool _ => false
  | .image _ => false

section TokenCount

variable [JsonText]

def toolCallContentCharCount (message : TextMessage) : ℕ :=
  ((message.toolCalls.getD []).map fun call =>
    charCount call.arguments.intoString + charCount call.name).sum

def reasoningContentCharCount (message : TextMessage) : ℕ :=
  ((message.reasoningDetails.getD []).map fun detail => (detail.text.map charCount).getD 0).sum

/-- The estimated number of tokens: a quarter of the characters, rounded up. -/
def tokenCountApprox (message : ContextMessage) : ℕ :=
  let chars : ℕ := match message with
    | .text message =>
      charCount message.content + toolCallContentCharCount message
        + reasoningContentCharCount message
    | .tool result =>
      (result.output.values.map fun
        | .text value => charCount value
        | _ => 0).sum
    | .image _ => 0
  (chars + 3) / 4

end TokenCount

end ContextMessage

end HeliosLite
