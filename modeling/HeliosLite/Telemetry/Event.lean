import HeliosLite.Domain.Conversation
import HeliosLite.Serde.JsonLines
import HeliosLite.Storage.ReloadContext

/-!
# Events of the Tracera protocol

An event is written as an object, without a session and without tags where it has none. It is
read back as it was, up to the floats of its payload.

## Main definitions

* `TraceraEvent` — one event, as it is buffered, journaled and sent
* `Entry` — an event with its place in the order of submission
* `UtcText` — the text of a time
* `TraceraEvent.serialize`, `TraceraEvent.deserialize` — the object of an event
* `TraceraEvent.Readable` — the event is read back from its text

## Main results

* `TraceraEvent.deserialize_serialize` — what is read back of an event
-/

namespace HeliosLite

open Serde

inductive EventKind where
  | toolCall
  | toolResult
  | prompt
  | response
  | userAction
  | session
  | drift
  | custom
  deriving DecidableEq, Repr

/-- A single observability event. -/
structure TraceraEvent where
  schema : String
  id : String
  ts : DateTime
  source : String
  sessionId : Option String
  kind : EventKind
  payload : Value
  tags : StringMap String
  deriving DecidableEq

/-- An accepted event, with a number that grows from one accepted event to the next. -/
structure Entry where
  ticket : ℕ
  event : TraceraEvent
  deriving DecidableEq

/-- The schema of every event. -/
def traceraSchema : String := "tracera.v1"

end HeliosLite

/-! ### The JSON of an event -/

namespace HeliosLite

open Serde Serde.Json

/-- The text of a UTC time in a document. -/
class UtcText where
  utcText : DateTime → String
  parseUtc : String → Option DateTime
  parseUtc_utcText : ∀ t, parseUtc (utcText t) = some t

namespace EventKind

def serialize : EventKind → Json
  | toolCall => .str "tool_call"
  | toolResult => .str "tool_result"
  | prompt => .str "prompt"
  | response => .str "response"
  | userAction => .str "user_action"
  | session => .str "session"
  | drift => .str "drift"
  | custom => .str "custom"

def deserialize : Json → Option EventKind :=
  tagged
    [("tool_call", unitCase toolCall), ("tool_result", unitCase toolResult),
      ("prompt", unitCase prompt), ("response", unitCase response),
      ("user_action", unitCase userAction), ("session", unitCase session),
      ("drift", unitCase drift), ("custom", unitCase custom)]

theorem deserialize_reparsed [JsonText] (k : EventKind) :
    deserialize k.serialize.reparsed = some k := by
  cases k <;> rfl

end EventKind

namespace TraceraEvent

variable [UtcText]

def fields (ev : TraceraEvent) : List (String × Option Json) :=
  [("schema", some (.str ev.schema)), ("id", some (.str ev.id)),
    ("ts", some (.str (UtcText.utcText ev.ts))), ("source", some (.str ev.source)),
    ("session_id", ev.sessionId.map .str), ("kind", some ev.kind.serialize),
    ("payload", some ev.payload.val),
    ("tags", if ev.tags.isEmpty then none else some (serializeMap .str ev.tags))]

def serialize (ev : TraceraEvent) : Json := record ev.fields

def deserialize (v : Json) : Option TraceraEvent := do
  let fields ← structFields
    ["schema", "id", "ts", "source", "session_id", "kind", "payload", "tags"] 1 v
  let schema ← required string fields "schema"
  let id ← required string fields "id"
  let ts ← required (fun v => (string v).bind UtcText.parseUtc) fields "ts"
  let source ← required string fields "source"
  let sessionId ← optional string fields "session_id"
  let kind ← required EventKind.deserialize fields "kind"
  let payload ← required anyValue fields "payload"
  let tags ← defaulted (mapOf string) StringMap.empty fields "tags"
  some { schema, id, ts, source, sessionId, kind, payload, tags }

theorem nodup_fields (ev : TraceraEvent) : (ev.fields.map Prod.fst).Nodup := by
  have hnames : ["schema", "id", "ts", "source", "session_id", "kind", "payload",
    "tags"].Nodup := by decide
  exact hnames

variable [JsonText]

/-- The event that is read back. -/
def reloaded (ev : TraceraEvent) : TraceraEvent := { ev with payload := ev.payload.reloaded }

theorem deserialize_serialize (ev : TraceraEvent) :
    deserialize ev.serialize.reparsed = some ev.reloaded := by
  have hstring : ∀ name s, ev.fields.lookup name = some (some (.str s)) →
      required string (parsedFields ev.fields) name = some s := by
    intro name s hlookup
    rw [required_parsed ev.nodup_fields, hlookup]
    rfl
  have hts : required (fun v => (string v).bind UtcText.parseUtc) (parsedFields ev.fields) "ts" =
      some ev.ts := by
    rw [required_parsed ev.nodup_fields]
    exact UtcText.parseUtc_utcText ev.ts
  have hsession : optional string (parsedFields ev.fields) "session_id" = some ev.sessionId := by
    rw [optional_parsed ev.nodup_fields]
    show readOption string ((ev.sessionId.map .str).map reparsed) = _
    rw [Option.map_map]
    exact readOption_string_reparsed ev.sessionId
  have hkind : required EventKind.deserialize (parsedFields ev.fields) "kind" = some ev.kind := by
    rw [required_parsed ev.nodup_fields]
    exact ev.kind.deserialize_reparsed
  have hpayload : required anyValue (parsedFields ev.fields) "payload" =
      some ev.payload.reloaded := by
    rw [required_parsed ev.nodup_fields]
    exact anyValue_reparsed ev.payload
  have htags : defaulted (mapOf string) StringMap.empty (parsedFields ev.fields) "tags" =
      some ev.tags := by
    have hlookup : ev.fields.lookup "tags" =
        some (if ev.tags.isEmpty then none else some (serializeMap .str ev.tags)) := rfl
    rw [defaulted_parsed ev.nodup_fields, hlookup]
    split_ifs with hempty
    · rw [StringMap.isEmpty_iff.mp hempty]
      rfl
    · exact mapOf_reparsed ev.tags fun _ _ => rfl
  rw [reloaded, deserialize, serialize, structFields_reparsed]
  simp only [Option.bind_eq_bind, Option.bind_some, hstring "schema" _ rfl, hstring "id" _ rfl,
    hstring "source" _ rfl, hts, hsession, hkind, hpayload, htags]

/-- The text of an event is read back as the event: it is not nested too deeply, and the floats of
its payload are read back. -/
def Readable (ev : TraceraEvent) : Prop :=
  ev.serialize.depth ≤ recursionLimit ∧ ev.payload.reloaded = ev.payload

instance (ev : TraceraEvent) : Decidable ev.Readable := inferInstanceAs (Decidable (_ ∧ _))

theorem Readable.bind_deserialize {ev : TraceraEvent} (h : ev.Readable) :
    (fromText (toText ev.serialize)).bind deserialize = some ev := by
  rw [fromText_toText h.1, Option.bind_some, deserialize_serialize, reloaded, h.2]

end TraceraEvent

end HeliosLite
