import HeliosLite.Responses.Response
import HeliosLite.Serde.Record

/-!
# Server-sent events of the Responses API

The data of an event is a JSON text. It is first read as one of the events with a type of this
provider's own, then as an event of the API, and else it is unknown.

## Main definitions

* `AsyncOpenai` — the readers of another crate
* `ResponsesStreamEvent.tagged`, `ResponsesStreamEvent.deserialize` — reading an event
* `chat` — the messages of a source of events
-/

namespace HeliosLite

open Serde Serde.Json

/-! ### The readers of the API's types -/

/-- The type that an event names. -/
def eventType : Json → Option String
  | .obj fields => required string fields "type"
  | _ => none

/-- An object with different keys. -/
def objectFields : Json → Option (List (String × Json))
  | .obj fields => if (fields.map Prod.fst).Nodup then some fields else none
  | _ => none

/-- An object that says its type, as every output item does. -/
def itemFields (v : Json) : Option (List (String × Json)) :=
  (objectFields v).filter fun fields => (required string fields "type").isSome

/-- The id and the encrypted content of a listed item, if it is a reasoning item with both. -/
def listedItem (fields : List (String × Json)) : Option (String × String) :=
  match fields.lookup "type", fields.lookup "id", fields.lookup "encrypted_content" with
  | some (.str "reasoning"), some (.str id), some (.str data) => some (id, data)
  | _, _, _ => none

/-- The reasoning items that an event lists, in the output of its response. -/
def listedReasoning (event : Json) : Option (List (String × String)) := do
  let fields ← objectFields event
  let response ← fields.lookup "response" >>= objectFields
  let items ← match response.lookup "output" with
    | none => some []
    | some output => listOf itemFields output
  some (items.filterMap listedItem)

/-- The id and the encrypted content of an item that is read. -/
def OutputItem.encrypted : OutputItem → Option (String × String)
  | .reasoning item => item.id.bind fun id => item.encryptedContent.map fun data => (id, data)
  | _ => none

namespace ResponseStreamEvent

/-- Whether the event is one with which a response ends, of a given type. -/
def hasType (type : String) : ResponseStreamEvent → Bool
  | completed _ => type = "response.completed"
  | incomplete _ => type = "response.incomplete"
  | _ => type ≠ "response.completed" ∧ type ≠ "response.incomplete"

end ResponseStreamEvent

/-- The types of another crate, with the readers that it derives for them. An event is what its
type says, and its response has the reasoning items that are listed. -/
class AsyncOpenai where
  responseStreamEvent : Json → Option ResponseStreamEvent
  responseUsage : Json → Option ResponseUsage
  /-- The reason of the incomplete details. -/
  incompleteDetails : Json → Option String
  hasType_of_eventType : ∀ v type e, eventType v = some type → responseStreamEvent v = some e →
    e.hasType type
  encrypted_eq : ∀ v listed r, listedReasoning v = some listed →
    responseStreamEvent v = some (.completed r) →
      r.output.filterMap OutputItem.encrypted = listed

/-! ### Events of this provider -/

structure ResponseCompletedPayload where
  endTurn : Option Bool
  usage : Option ResponseUsage
  deriving DecidableEq, Repr

structure ResponseIncompletePayload where
  incompleteDetails : Option String
  deriving DecidableEq, Repr

inductive ResponsesStreamEvent where
  | keepalive (sequenceNumber : UInt64)
  | ping (cost : F64)
  | responseCompleted (response : ResponseCompletedPayload)
  | responseIncomplete (response : ResponseIncompletePayload)
  | response (event : ResponseStreamEvent)
  | unknown (value : Json)

section Deserialize

variable [AsyncOpenai]

def ResponseCompletedPayload.deserialize (v : Json) : Option ResponseCompletedPayload := do
  let fields ← structFields ["end_turn", "usage"] 2 v
  let endTurn ← optional boolean fields "end_turn"
  let usage ← optional AsyncOpenai.responseUsage fields "usage"
  some { endTurn, usage }

def ResponseIncompletePayload.deserialize (v : Json) : Option ResponseIncompletePayload := do
  let fields ← structFields ["incomplete_details"] 1 v
  let incompleteDetails ← optional AsyncOpenai.incompleteDetails fields "incomplete_details"
  some { incompleteDetails }

variable [JsonText] [FloatText]

def deserializeStringOrF64 : Json → Option F64
  | .str s => FloatText.parseF64 s
  | v => f64 v

namespace ResponsesStreamEvent

def tags : List String := ["keepalive", "ping", "response.completed", "response.incomplete"]

/-- A tag is a name, or the place of a name. -/
def readTag : Json → Option String
  | .str tag => some tag
  | .int n => if 0 ≤ n.val then tags[n.val.toNat]? else none
  | _ => none

/-- The tag of an event, with what stands beside it. -/
def taggedContent : Json → Option (String × Json)
  | .obj fields => do
    let tag ← required readTag fields "type"
    some (tag, .obj (fields.filter fun p => p.1 != "type"))
  | .arr (tag :: items) => (readTag tag).map fun tag => (tag, .arr items)
  | _ => none

/-- The events with a tag. -/
def tagged (v : Json) : Option ResponsesStreamEvent := do
  let (tag, content) ← taggedContent v
  match tag with
  | "keepalive" =>
    let fields ← structFields ["sequence_number"] 0 content
    (required u64 fields "sequence_number").map keepalive
  | "ping" =>
    let fields ← structFields ["cost"] 0 content
    (required deserializeStringOrF64 fields "cost").map ping
  | "response.completed" =>
    let fields ← structFields ["response"] 0 content
    (required ResponseCompletedPayload.deserialize fields "response").map responseCompleted
  | "response.incomplete" =>
    let fields ← structFields ["response"] 0 content
    (required ResponseIncompletePayload.deserialize fields "response").map responseIncomplete
  | _ => none

/-- The variants without a tag are tried after those with one. -/
def deserialize (v : Json) : ResponsesStreamEvent :=
  (tagged v).getD (((AsyncOpenai.responseStreamEvent v).map response).getD (unknown v))

end ResponsesStreamEvent

end Deserialize

/-! ### The source of events -/

inductive SseEvent where
  | open
  | message (data : String)
  deriving DecidableEq, Repr

/-- An error of the source. The reason of a refused request was read before. -/
inductive SseError where
  | streamEnded
  | invalidStatusCode (status : UInt16) (reason : String)
  | invalidContentType (status : UInt16) (reason : String)
  | other (message : String)
  deriving DecidableEq, Repr

/-- The texts after which nothing more comes. -/
def isSseTerminal (data : String) : Bool := data = "[DONE]" ∨ data = ""

/-- With `end_turn: false` the turn goes on, without a reason to finish. -/
def intoResponseCompletedMessage (payload : ResponseCompletedPayload) : ChatCompletionMessage :=
  { ChatCompletionMessage.default with
    usage := payload.usage.map ResponseUsage.intoDomain
    finishReason := if payload.endTurn = some false then none else some .stop }

def intoResponseIncompleteError (reason : Option String) : StreamError :=
  .text ("Upstream response incomplete: " ++ reason.getD "unknown")

/-- What an event that was read becomes. -/
def ResponsesStreamEvent.toItem : ResponsesStreamEvent → Option (Except StreamError StreamItem)
  | keepalive _ => none
  | ping cost =>
    some (.ok (.message { ChatCompletionMessage.assistant (.part "") with
      usage := some { Usage.default with cost := some cost } }))
  | responseCompleted payload => some (.ok (.message (intoResponseCompletedMessage payload)))
  | responseIncomplete payload =>
    some (.error (intoResponseIncompleteError payload.incompleteDetails))
  | response event => some (.ok (.event event))
  | unknown _ => none

variable [JsonText] [FloatText] [AsyncOpenai]

/-- What a text of the source becomes. -/
def dataItem (data : String) : Option (Except StreamError StreamItem) :=
  if isSseTerminal data then none
  else
    match fromText data with
    | none => some (.error (.text ("Failed to parse SSE event: " ++ data)))
    | some v => (ResponsesStreamEvent.deserialize v).toItem

/-- What the source becomes, event by event. -/
def sseItem (url : String) : Except SseError SseEvent → Option (Except StreamError StreamItem)
  | .ok .open => none
  | .ok (.message data) => dataItem data
  | .error .streamEnded => none
  | .error (.invalidStatusCode status reason)
  | .error (.invalidContentType status reason) =>
    some (.error (.invalidStatusCode status [reason, "POST " ++ url]))
  | .error (.other message) => some (.error (.text ("POST " ++ url ++ ": " ++ message)))

/-- The source up to its end. -/
def eventStream (url : String) (source : List (Except SseError SseEvent)) :
    List (Except StreamError StreamItem) :=
  (source.takeWhile fun e => e matches .ok _ | .error (.invalidStatusCode ..)
    | .error (.invalidContentType ..) | .error (.other _)).filterMap (sseItem url)

/-- The messages of a source. -/
def chat (url : String) (source : List (Except SseError SseEvent)) :
    List (Except StreamError ChatCompletionMessage) :=
  intoDomain (eventStream url source)

end HeliosLite
