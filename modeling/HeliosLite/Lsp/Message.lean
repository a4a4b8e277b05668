import HeliosLite.Serde.Record

/-!
# Messages of a language server

The envelopes of `crates/forge_lsp/src/lsp_client.rs`, and the messages that a server may
send under JSON-RPC: responses, notifications, and requests of its own. The client reads
every one of them as a response.

## Main definitions

* `LspResponse.ofJson` — the derived reader
* `ServerMessage` — a message of a server, with its document

## Main results

* `ofJson_notification`, `ofJson_request`, `ofJson_response` — what the client makes of each
-/

namespace HeliosLite.Lsp

open Serde Json

structure LspRequest where
  id : UInt64
  method : String
  params : Value
deriving DecidableEq

/-- A request, with the number of the send that makes it. -/
structure Send where
  number : ℕ
  request : LspRequest
deriving DecidableEq

/-- An integer within an `i64`. -/
def i64 : Json → Option Int64
  | .int n => if n.val < 2 ^ 63 then some (Int64.ofInt n.val) else none
  | _ => none

def ofI64 (n : Int64) : Json :=
  .int ⟨n.toInt, n.le_toInt, by have := n.toInt_lt; omega⟩

/-- A value that `levels` objects and arrays enclose. -/
def valueWithin (levels : ℕ) (v : Json) : Option Value :=
  if v.depth + levels ≤ recursionLimit then anyValue v else none

structure LspError where
  code : Int64
  message : String
  data : Option Value
deriving DecidableEq

def LspError.ofJson (v : Json) : Option LspError := do
  let fields ← structFields ["code", "message", "data"] 1 v
  let code ← required i64 fields "code"
  let message ← required string fields "message"
  let data ← optional (valueWithin 2) fields "data"
  some { code, message, data }

structure LspResponse where
  jsonrpc : Option String
  id : Option UInt64
  result : Option Value
  error : Option LspError
deriving DecidableEq

def LspResponse.ofJson (v : Json) : Option LspResponse := do
  let fields ← structFields ["jsonrpc", "id", "result", "error"] 2 v
  let jsonrpc ← optional string fields "jsonrpc"
  let id ← optional u64 fields "id"
  let result ← optional (valueWithin 1) fields "result"
  let error ← optional LspError.ofJson fields "error"
  some { jsonrpc, id, result, error }

/-! ### What servers send -/

/-- An id that a server chooses: JSON-RPC has integers and strings. -/
inductive RequestId where
  | number (n : JsonInt)
  | string (s : String)
deriving DecidableEq

def RequestId.toJson : RequestId → Json
  | .number n => .int n
  | .string s => .str s

/-- The error object of a response. -/
structure ResponseError where
  code : Int64
  message : String
  data : Option Json
deriving DecidableEq

def ResponseError.toJson (e : ResponseError) : Json :=
  record [("code", some (ofI64 e.code)), ("message", some (.str e.message)), ("data", e.data)]

inductive ServerMessage where
  /-- The response to a request. -/
  | response (sent : Send) (answer : Except ResponseError Json)
  | notification (method : String) (params : Option Json)
  | request (id : RequestId) (method : String) (params : Option Json)

namespace ServerMessage

def fields : ServerMessage → List (String × Option Json)
  | .response sent (.ok result) =>
    [("jsonrpc", some (.str "2.0")), ("id", some (ofU64 sent.request.id)), ("result", some result)]
  | .response sent (.error e) =>
    [("jsonrpc", some (.str "2.0")), ("id", some (ofU64 sent.request.id)), ("error", some e.toJson)]
  | .notification method params =>
    [("jsonrpc", some (.str "2.0")), ("method", some (.str method)), ("params", params)]
  | .request id method params =>
    [("jsonrpc", some (.str "2.0")), ("id", some id.toJson), ("method", some (.str method)),
      ("params", params)]

/-- The document in the body of the message. -/
def toJson (m : ServerMessage) : Json := record m.fields

end ServerMessage

theorem nodup_fields (m : ServerMessage) : (m.fields.map Prod.fst).Nodup := by
  rcases m with ⟨_, _ | _⟩ | _ | _ <;>
    simp only [ServerMessage.fields, List.map_cons, List.map_nil] <;> decide

/-- The client reads a message by its keys. -/
theorem ofJson_toJson (m : ServerMessage) :
    LspResponse.ofJson m.toJson = (do
      let jsonrpc ← readOption string (m.fields.lookup "jsonrpc").join
      let id ← readOption u64 (m.fields.lookup "id").join
      let result ← readOption (valueWithin 1) (m.fields.lookup "result").join
      let error ← readOption LspError.ofJson (m.fields.lookup "error").join
      some { jsonrpc, id, result, error }) := by
  have hfield (key : String) : field (present m.fields) key = some (m.fields.lookup key).join :=
    field_present (nodup_fields m) key
  simp only [LspResponse.ofJson, ServerMessage.toJson, record, structFields, Json.optional, hfield,
    Option.bind_eq_bind, Option.bind_some]

/-- A notification has no id and is told apart by that. -/
theorem ofJson_notification (method : String) (params : Option Json) :
    LspResponse.ofJson (ServerMessage.notification method params).toJson =
      some ⟨some "2.0", none, none, none⟩ := by
  rw [ofJson_toJson]
  simp only [ServerMessage.fields]
  rfl

/-- The id of a server's request as the client reads it. -/
def RequestId.asU64 (id : RequestId) : Option UInt64 := u64 id.toJson

/-- A request of the server reads as a response without a result, if its id is a `u64`. -/
theorem ofJson_request (id : RequestId) (method : String) (params : Option Json) :
    LspResponse.ofJson (ServerMessage.request id method params).toJson =
      id.asU64.map fun n => ⟨some "2.0", some n, none, none⟩ := by
  rw [ofJson_toJson]
  have hid : readOption u64 (some id.toJson) = id.asU64.map some := by
    cases id <;> rfl
  simp only [ServerMessage.fields]
  change (readOption u64 (some id.toJson)).bind _ = _
  rw [hid]
  cases id.asU64 <;> rfl

/-! ### Responses -/

/-- A value that is there and not `null`. -/
def presentValue (v : Json) : Option Value := if v = .null then none else some v.value

/-- What the client is given for a response. -/
def LspResponse.ofAnswer (sent : Send) : Except ResponseError Json → LspResponse
  | .ok result => ⟨some "2.0", some sent.request.id, presentValue result, none⟩
  | .error e =>
    ⟨some "2.0", some sent.request.id, none, some ⟨e.code, e.message, e.data.bind presentValue⟩⟩

theorem readOption_valueWithin {levels : ℕ} {v : Option Json} {value : Option Value}
    (h : readOption (valueWithin levels) v = some value) : value = v.bind presentValue := by
  cases v with
  | none => exact (Option.some.inj h).symm
  | some v =>
    by_cases hnull : v = .null
    · subst hnull
      exact (Option.some.inj h).symm
    · have hread : readOption (valueWithin levels) (some v) = (valueWithin levels v).map some := by
        cases v <;> first | rfl | exact absurd rfl hnull
      rw [hread, valueWithin] at h
      rw [Option.bind_some, presentValue, if_neg hnull]
      split_ifs at h
      · exact (Option.some.inj h).symm
      · cases h

@[simp] theorem i64_ofI64 (n : Int64) : i64 (ofI64 n) = some n := by
  have hlt := n.toInt_lt
  rw [ofI64, i64, if_pos hlt, Int64.ofInt_toInt]

theorem ofJson_error {e : ResponseError} {err : LspError}
    (h : LspError.ofJson e.toJson = some err) :
    err = ⟨e.code, e.message, e.data.bind presentValue⟩ := by
  have hnodup : (List.map Prod.fst [("code", some (ofI64 e.code)),
      ("message", some (.str e.message)), ("data", e.data)]).Nodup := by
    simp only [List.map_cons, List.map_nil]
    decide
  have hfield := field_present hnodup
  simp only [LspError.ofJson, ResponseError.toJson, record, structFields, Json.optional,
    Json.required, hfield, Option.bind_eq_bind, Option.bind_some] at h
  change ((i64 (ofI64 e.code)).bind fun code => (string (.str e.message)).bind fun message =>
    (readOption (valueWithin 2) e.data).bind fun data => some (LspError.mk code message data)) =
    some err at h
  rw [i64_ofI64, string_str, Option.bind_some, Option.bind_some] at h
  obtain ⟨data, hdata, herr⟩ := Option.bind_eq_some_iff.mp h
  rw [← Option.some.inj herr, readOption_valueWithin hdata]

/-- A response reads as what the server answered; it is not read if it nests too deeply. -/
theorem ofJson_response {sent : Send} {answer : Except ResponseError Json}
    {resp : LspResponse} (h : LspResponse.ofJson (ServerMessage.response sent answer).toJson =
      some resp) : resp = .ofAnswer sent answer := by
  rw [ofJson_toJson] at h
  have hid : readOption u64 (some (ofU64 sent.request.id)) = some (some sent.request.id) := by
    change (u64 (ofU64 sent.request.id)).map some = _
    rw [u64_ofU64]
    rfl
  cases answer with
  | ok result =>
    simp only [ServerMessage.fields] at h
    change ((readOption u64 (some (ofU64 sent.request.id))).bind fun id =>
      (readOption (valueWithin 1) (some result)).bind fun result =>
        some (LspResponse.mk (some "2.0") id result none)) = some resp at h
    rw [hid, Option.bind_some] at h
    obtain ⟨value, hvalue, hresp⟩ := Option.bind_eq_some_iff.mp h
    rw [← Option.some.inj hresp, readOption_valueWithin hvalue]
    rfl
  | error e =>
    simp only [ServerMessage.fields] at h
    change ((readOption u64 (some (ofU64 sent.request.id))).bind fun id =>
      ((LspError.ofJson e.toJson).map some).bind fun error =>
        some (LspResponse.mk (some "2.0") id none error)) = some resp at h
    rw [hid, Option.bind_some] at h
    obtain ⟨error, herror, hresp⟩ := Option.bind_eq_some_iff.mp h
    obtain ⟨err, herr, rfl⟩ := Option.map_eq_some_iff.mp herror
    rw [← Option.some.inj hresp, ofJson_error herr]
    rfl

end HeliosLite.Lsp
