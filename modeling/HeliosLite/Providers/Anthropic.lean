import HeliosLite.Domain.Conversation
import HeliosLite.Domain.ResultStream
import HeliosLite.Storage.MessageRecord

/-!
# The Anthropic API

The events of a stream become messages one by one, and a context becomes the messages of a request.

## Main definitions

* `ContentBlock.toMessage`, `EventData.toMessage` — the message of an event
* `Content.ofToolResult`, `Message.tryFrom` — the content of a message of the request
* `requestMessages` — the messages of a request
-/

namespace HeliosLite.Anthropic

open Serde

/-! ### Events -/

inductive ContentBlock where
  | text (text : String)
  | textDelta (text : String)
  | toolUse (id name : String) (input : Value)
  | inputJsonDelta (partialJson : String)
  | thinking (thinking signature : Option String)
  | thinkingDelta (thinking : Option String)
  | signatureDelta (signature : Option String)
  | redactedThinking (data : Option String)
  deriving DecidableEq

structure Usage where
  inputTokens : Option UInt64
  outputTokens : Option UInt64
  cacheReadInputTokens : Option UInt64
  cacheCreationInputTokens : Option UInt64
  deriving DecidableEq, Repr

inductive StopReason where
  | endTurn
  | maxTokens
  | stopSequence
  | toolUse
  | refusal
  deriving DecidableEq, Repr

inductive StringOrF64 where
  | number (x : F64)
  | string (s : String)
  deriving DecidableEq, Repr

/-- An event, with what is read of it. -/
inductive EventData where
  | error (message : String)
  | messageStart (usage : Usage)
  | contentBlockStart (index : UInt32) (block : ContentBlock)
  | ping (cost : Option StringOrF64)
  | contentBlockDelta (index : UInt32) (delta : ContentBlock)
  | contentBlockStop (index : UInt32)
  | messageDelta (stopReason : StopReason) (usage : Usage)
  | messageStop
  | unknown
  deriving DecidableEq

/-! ### The message of an event -/

def Usage.intoDomain (u : Usage) : HeliosLite.Usage :=
  let prompt := u.inputTokens.getD 0 + u.cacheCreationInputTokens.getD 0 +
    u.cacheReadInputTokens.getD 0
  { promptTokens := .actual prompt
    completionTokens := .actual (u.outputTokens.getD 0)
    totalTokens := .actual (prompt + u.outputTokens.getD 0)
    cachedTokens := .actual (u.cacheReadInputTokens.getD 0)
    cost := none }

def StopReason.intoDomain : StopReason → FinishReason
  | endTurn | stopSequence => .stop
  | maxTokens => .length
  | toolUse => .toolCalls
  | refusal => .refusal

/-- A message with no text of its own. -/
def emptyMessage : ChatCompletionMessage := .assistant (.part "")

/-- A message with a part of the reasoning, and a detail without a type. -/
def reasoningMessage (text : String) (signature : Option String) : ChatCompletionMessage :=
  { emptyMessage.addReasoningDetail (.part
      [{ ReasoningFull.default with
        text := some text, signature := signature }]) with
    reasoning := some (.part text) }

namespace ContentBlock

variable [JsonText]

def toolPart (callId name : Option String) (argumentsPart : String) : ChatCompletionMessage :=
  emptyMessage.addToolCall (.part
    { callId := callId
      name := name
      argumentsPart := argumentsPart
      thoughtSignature := none })

def toMessage : ContentBlock → ChatCompletionMessage
  | text content | textDelta content => .assistant (.part content)
  | thinking (some content) signature => reasoningMessage content signature
  | thinking none _ => emptyMessage
  | redactedThinking (some data) => reasoningMessage data none
  | redactedThinking none => emptyMessage
  | thinkingDelta (some content) => reasoningMessage content none
  | thinkingDelta none => emptyMessage
  | signatureDelta signature =>
    emptyMessage.addReasoningDetail (.part
      [{ ReasoningFull.default with signature := signature }])
  -- an empty input is the prefix of one that is streamed
  | toolUse id name input =>
    toolPart (some id) (some name)
      (if input.val = .null ∨ input.val = .obj [] then "" else toText input.val)
  | inputJsonDelta partialJson => toolPart none none partialJson

end ContentBlock

/-- The float zero. -/
def zeroF64 : F64 := ⟨0⟩

def StringOrF64.value [FloatText] : StringOrF64 → F64
  | number x => x
  | string s => (FloatText.parseF64 s).getD zeroF64

/-- The message of an event. The index of a block is not read. -/
def EventData.toMessage [JsonText] [FloatText] : EventData → Except String ChatCompletionMessage
  | contentBlockStart _ block | contentBlockDelta _ block => .ok block.toMessage
  | messageStart usage => .ok { emptyMessage with usage := some usage.intoDomain }
  | messageDelta stopReason usage =>
    .ok { emptyMessage with
      finishReason := some stopReason.intoDomain
      usage := some usage.intoDomain }
  | error message => .error message
  | ping (some cost) =>
    .ok { emptyMessage with
      usage := some { HeliosLite.Usage.default with cost := some cost.value } }
  | ping none | contentBlockStop _ | messageStop | unknown => .ok emptyMessage

/-! ### The messages of a request -/

inductive Role where
  | user
  | assistant
  deriving DecidableEq, Repr

inductive Content where
  | image (mediaType data : String)
  | text (text : String)
  | toolUse (id : String) (input : Option Value) (name : String)
  | toolResult (toolUseId : String) (content : Option String) (isError : Option Bool)
  | thinking (signature thinking : Option String)
  deriving DecidableEq

structure Message where
  content : List Content
  role : Role
  deriving DecidableEq

end HeliosLite.Anthropic

namespace HeliosLite

/-- The data of an image, without the prefix of its URL. -/
def Image.data (img : Image) : String :=
  let start := "data:" ++ img.mimeType ++ ";base64,"
  if start.toList <+: img.url.toList then String.ofList (img.url.toList.drop start.toList.length)
  else img.url

/-- The text of a value, if it has one. -/
def ToolValue.asStr : ToolValue → Option String
  | .text content => some content
  | .ai value _ => some value
  | .image _ | .empty => none

end HeliosLite

namespace HeliosLite.Anthropic

open Serde

section Request

variable [Libraries]

def Content.ofToolCall (call : ToolCallFull) : Except String Content :=
  match call.callId with
  | some callId => .ok (.toolUse callId call.arguments.toValue call.name)
  | none => .error "Missing tool id"

/-- The first text of a result is its content. -/
def Content.ofToolResult (result : ToolResult) : Except String Content :=
  match result.callId with
  | some callId =>
    .ok (.toolResult callId (result.output.values.filterMap ToolValue.asStr).head?
      (some result.output.isError))
  | none => .error "Missing tool id"

/-- The first detail with a signature and a text. -/
def thinkingOf (details : List ReasoningFull) : Option Content :=
  details.findSome? fun d =>
    match d.signature, d.text with
    | some signature, some text => some (.thinking (some signature) (some text))
    | _, _ => none

def Message.tryFrom : ContextMessage → Except String Message
  | .text message => do
    let thinking := (message.reasoningDetails.bind thinkingOf).toList
    let text := if message.content.isEmpty then [] else [Content.text message.content]
    let calls ← (message.toolCalls.getD []).mapM Content.ofToolCall
    let content := thinking ++ text ++ calls
    match message.role with
    | .user | .tool => .ok { content := content, role := .user }
    | .assistant => .ok { content := content, role := .assistant }
    | .system => .error "Unsupported role: System"
  | .tool result => do
    let content ← Content.ofToolResult result
    .ok { content := [content], role := .user }
  | .image img => .ok { content := [.image img.mimeType img.data], role := .user }

/-- The messages of a request; those of the system are sent apart. -/
def requestMessages (context : Context) : Except String (List Message) :=
  (context.messages.filter fun entry => !entry.message.hasRole .system).mapM fun entry =>
    Message.tryFrom entry.message

end Request

end HeliosLite.Anthropic
