import HeliosLite.Domain.ChatMessage
import HeliosLite.Theory.Run
import Mathlib.Data.List.ReduceOption

/-!
# The stream of the Responses API

Events are turned into messages one after the other. Two tables remember which function call has
which output index, and which of them have received a part of their arguments.

## Main definitions

* `ResponseStreamEvent` — an event of the stream, with what is read of it
* `CodexStreamState.step`, `CodexStreamState.message` — what an event changes and gives
* `intoDomain` — the messages of a stream
-/

namespace HeliosLite

open Theory

/-! ### Events -/

structure FunctionToolCall where
  callId : String
  name : String
  arguments : String
  deriving DecidableEq, Repr

structure ReasoningItem where
  id : Option String
  encryptedContent : Option String
  content : Option (List String)
  summary : List String
  deriving DecidableEq, Repr

/-- An output item; of the other kinds nothing is read. -/
inductive OutputItem where
  | message (phase : Option MessagePhase)
  | functionCall (call : FunctionToolCall)
  | reasoning (item : ReasoningItem)
  | other
  deriving DecidableEq, Repr

structure ResponseUsage where
  inputTokens : UInt32
  outputTokens : UInt32
  totalTokens : UInt32
  cachedTokens : UInt32
  deriving DecidableEq, Repr

/-- A response, with what `output_text` says of it. -/
structure Oai.Response where
  outputText : Option String
  output : List OutputItem
  usage : Option ResponseUsage
  deriving DecidableEq, Repr

structure ErrorObject where
  code : String
  message : String
  deriving DecidableEq, Repr

/-- An event of the stream. -/
inductive ResponseStreamEvent where
  | outputTextDelta (delta : String)
  | reasoningTextDelta (itemId delta : String)
  | reasoningSummaryTextDelta (itemId delta : String)
  | outputItemAdded (outputIndex : UInt32) (item : OutputItem)
  | functionCallArgumentsDelta (outputIndex : UInt32) (delta : String)
  | functionCallArgumentsDone (outputIndex : UInt32) (name : Option String) (arguments : String)
  | completed (response : Oai.Response)
  | incomplete (response : Oai.Response)
  | failed (error : Option ErrorObject)
  | error (code : Option String) (message : String)
  | other
  deriving DecidableEq, Repr

/-! ### Errors -/

/-- An error of the stream: a text, or what the provider or the server reports, with texts around
it. -/
inductive StreamError where
  | text (message : String)
  | response (code message : Option String) (context : String)
  | invalidStatusCode (status : UInt16) (contexts : List String)
  deriving DecidableEq, Repr

/-! ### Whole responses -/

def ResponseUsage.intoDomain (u : ResponseUsage) : Usage :=
  { promptTokens := .actual u.inputTokens.toUInt64
    completionTokens := .actual u.outputTokens.toUInt64
    totalTokens := .actual u.totalTokens.toUInt64
    cachedTokens := .actual u.cachedTokens.toUInt64
    cost := none }

namespace ReasoningItem

variable (item : ReasoningItem)

/-- The details of an item: its encrypted content, its text and its summary, as far as it has
them. -/
def details : List Reasoning :=
  let text := String.join (item.content.getD [])
  let summary := String.join item.summary
  let detail (typeOf : String) (data text : Option String) : Reasoning :=
    .full [{ ReasoningFull.default with
      data := data, text := text, id := item.id, typeOf := some typeOf }]
  (item.encryptedContent.map fun data => detail "reasoning.encrypted" (some data) none).toList ++
    (if text.isEmpty then [] else [detail "reasoning.text" none (some text)]) ++
      if summary.isEmpty then [] else [detail "reasoning.summary" none (some summary)]

/-- The text of an item and its summary. -/
def allText : String := String.join (item.content.getD []) ++ String.join item.summary

end ReasoningItem

namespace OutputItem

/-- What an item of a whole response adds to the message. -/
def addTo (m : ChatCompletionMessage) : OutputItem → ChatCompletionMessage
  | message phase => { m with phase := phase.or m.phase }
  | functionCall call =>
    m.addToolCall (.full
      { name := call.name
        callId := some call.callId
        arguments := .unparsed call.arguments
        thoughtSignature := none })
  | reasoning item =>
    let m := item.details.foldl ChatCompletionMessage.addReasoningDetail m
    if item.allText.isEmpty then m else { m with reasoning := some (.full item.allText) }
  | other => m

def isFunctionCall : OutputItem → Bool
  | functionCall _ => true
  | message _ | reasoning _ | other => false

end OutputItem

def Oai.Response.intoDomain (r : Oai.Response) : ChatCompletionMessage :=
  let m := { ChatCompletionMessage.default with content := r.outputText.map .full }
  let m := r.output.foldl OutputItem.addTo m
  { m with
    usage := r.usage.map ResponseUsage.intoDomain
    finishReason :=
      some (if r.output.any OutputItem.isFunctionCall then .toolCalls else .stop) }

/-! ### The stream -/

/-- An event, or a message that was made before. -/
inductive StreamItem where
  | event (event : ResponseStreamEvent)
  | message (message : ChatCompletionMessage)
  deriving DecidableEq

/-- The function calls by their output index, and the indices that have received a part of the
arguments. -/
structure CodexStreamState where
  outputIndexToToolCall : UInt32 → Option (String × String)
  receivedToolcallDeltas : UInt32 → Bool

/-- The details with encrypted content. -/
def retainEncryptedReasoningDetails (details : Option (List Reasoning)) :
    Option (List Reasoning) :=
  details.bind fun details =>
    let encrypted := details.filter fun r =>
      r.asFull.any fun fulls => fulls.any fun f => f.typeOf = some "reasoning.encrypted"
    if encrypted.isEmpty then none else some encrypted

/-- The message of a response whose content was streamed. -/
def Oai.Response.terminal (r : Oai.Response) : ChatCompletionMessage :=
  let m := r.intoDomain
  { m with
    content := none
    reasoning := none
    reasoningDetails := retainEncryptedReasoningDetails m.reasoningDetails
    toolCalls := [] }

def intoResponseFailedError : Option ErrorObject → StreamError
  | none => .text "Upstream response failed: no error object returned"
  | some e =>
    .response (if e.code.isEmpty then none else some e.code)
      (if e.message.isEmpty then none else some e.message) "Upstream response failed"

def intoResponseErrorError (code : Option String) (message : String) : StreamError :=
  .response code (if message.isEmpty then none else some message) "Upstream response error"

namespace CodexStreamState

def start : CodexStreamState :=
  { outputIndexToToolCall := fun _ => none
    receivedToolcallDeltas := fun _ => false }

variable (s : CodexStreamState)

/-- What an item does to the tables. -/
def step : Except StreamError StreamItem → CodexStreamState
  | .ok (.event (.outputItemAdded index (.functionCall call))) =>
    { s with
      outputIndexToToolCall :=
        Function.update s.outputIndexToToolCall index (some (call.callId, call.name)) }
  | .ok (.event (.functionCallArgumentsDelta index _)) =>
    { s with receivedToolcallDeltas := Function.update s.receivedToolcallDeltas index true }
  | _ => s

/-- The id and the name for an output index; without an announcement they are made up. -/
def toolCall (index : UInt32) (name : String) : String × String :=
  (s.outputIndexToToolCall index).getD ("output_" ++ toString index.toNat, name)

/-- The message of a part of a call. An empty name is none. -/
def partMessage (call : String × String) (argumentsPart : String) : ChatCompletionMessage :=
  ChatCompletionMessage.default.addToolCall (.part
    { callId := some call.1
      name := if call.2.isEmpty then none else some call.2
      argumentsPart := argumentsPart
      thoughtSignature := none })

/-- The message of a part of the reasoning. -/
def reasoningMessage (itemId delta typeOf : String) : ChatCompletionMessage :=
  { ChatCompletionMessage.default.addReasoningDetail (.part
      [{ ReasoningFull.default with
        text := some delta, id := some itemId, typeOf := some typeOf }]) with
    reasoning := some (.part delta) }

/-- What an event gives. The name that comes with an announcement is kept, also if it is empty. -/
def eventMessage : ResponseStreamEvent → Option (Except StreamError ChatCompletionMessage)
  | .outputTextDelta delta => some (.ok (.assistant (.part delta)))
  | .reasoningTextDelta itemId delta => some (.ok (reasoningMessage itemId delta "reasoning.text"))
  | .reasoningSummaryTextDelta itemId delta =>
    some (.ok (reasoningMessage itemId delta "reasoning.summary"))
  | .outputItemAdded _ (.functionCall call) =>
    if call.arguments.isEmpty then none
    else
      some (.ok (ChatCompletionMessage.default.addToolCall (.part
        { callId := some call.callId
          name := some call.name
          argumentsPart := call.arguments
          thoughtSignature := none })))
  | .outputItemAdded _ _ => none
  | .functionCallArgumentsDelta index delta => some (.ok (partMessage (s.toolCall index "") delta))
  | .functionCallArgumentsDone index name arguments =>
    if s.receivedToolcallDeltas index then none
    else some (.ok (partMessage (s.toolCall index (name.getD "")) arguments))
  | .completed r => some (.ok r.terminal)
  | .incomplete r => some (.ok { r.terminal with finishReason := some .length })
  | .failed e => some (.error (intoResponseFailedError e))
  | .error code message => some (.error (intoResponseErrorError code message))
  | .other => none

/-- What an item gives. -/
def message : Except StreamError StreamItem → Option (Except StreamError ChatCompletionMessage)
  | .ok (.message m) => some (.ok m)
  | .ok (.event e) => s.eventMessage e
  | .error e => some (.error e)

end CodexStreamState

/-- The messages of a stream. -/
def intoDomain (items : List (Except StreamError StreamItem)) :
    List (Except StreamError ChatCompletionMessage) :=
  (outputs CodexStreamState.step CodexStreamState.message .start items).reduceOption

/-- What is read of the messages, event by event. -/
theorem flatMap_intoDomain {α : Type} (g : Except StreamError ChatCompletionMessage → List α)
    (items : List (Except StreamError StreamItem)) :
    (intoDomain items).flatMap g =
      (outputs CodexStreamState.step (fun s x => (s.message x).toList.flatMap g) .start
        items).flatten := by
  have hreduce (os : List (Option (Except StreamError ChatCompletionMessage))) :
      os.reduceOption.flatMap g = (os.map fun o => o.toList.flatMap g).flatten := by
    rw [List.reduceOption, List.filterMap_eq_flatMap_toList, List.flatMap_assoc, List.flatMap_def]
    rfl
  rw [intoDomain, hreduce, map_outputs]

end HeliosLite
