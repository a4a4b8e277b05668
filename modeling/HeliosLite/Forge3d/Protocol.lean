import HeliosLite.Serde.Record
import HeliosLite.Theory.Bytes

/-!
# Frames and requests

`crates/forge3d/src/protocol.rs`: a payload is sent behind its length in four bytes, and a payload
is a JSON-RPC request. What a peer has sent is a sequence of frames, behind which there are bytes
that are no frame.

## Main definitions

* `encodeFrame`, `decodeFrame` — one frame
* `readFrames` — the frames of an input, one after the other
* `parseRequest` — the request of a payload

## Main results

* `decodeFrame_encodeFrame_iff` — the payloads that are read back
* `readFrames_eq_iff` — the frames of an input are the only way to cut it into frames
-/

namespace HeliosLite.Forge3d

open Theory Serde Json

inductive Forge3Error where
  | io (message : String)
  | json (message : String)
  | lock (message : String)
  | registry (message : String)
  | protocol (message : String)
  | frameLength (len : UInt32)
  | unknownAgent (agentId : String)
  | unknownAlert (alertId : String)
  | lockHeld (pid : UInt32)
  | alreadyRunning
  deriving DecidableEq, Repr

/-! ### Frames -/

/-- Maximum size of a single framed JSON-RPC payload (4 MiB). -/
def maxFrameBytes : ℕ := 4 * 1024 * 1024

/-- The frame of a payload; its length is taken as a `u32`. -/
def encodeFrame (payload : List UInt8) : List UInt8 :=
  toBigEndian 4 (payload.length % 2 ^ 32) ++ payload

/-- A single frame and what follows it. The input is what the peer sends before it closes. -/
def decodeFrame (input : List UInt8) :
    Except Forge3Error (Option (List UInt8 × List UInt8)) :=
  if input.length < 4 then .ok none
  else
    let len := ofBigEndian (input.take 4)
    if maxFrameBytes < len then .error (.frameLength (UInt32.ofNat len))
    else if (input.drop 4).length < len then .error (.io "early eof")
    else .ok (some ((input.drop 4).take len, (input.drop 4).drop len))

/-- The payloads of so many frames at most, what follows them, and how that ends. -/
def readFramesWith : ℕ → List UInt8 → List (List UInt8) × List UInt8 × Except Forge3Error Unit
  | 0, input => ([], input, .ok ())
  | fuel + 1, input =>
    match decodeFrame input with
    | .error e => ([], input, .error e)
    | .ok none => ([], input, .ok ())
    | .ok (some (payload, rest)) =>
      let (payloads, after) := readFramesWith fuel rest
      (payload :: payloads, after)

/-- The payloads of the frames of an input, what follows them, and how that ends. -/
def readFrames (input : List UInt8) : List (List UInt8) × List UInt8 × Except Forge3Error Unit :=
  readFramesWith input.length input

/-! ### Requests -/

structure Request where
  jsonrpc : String
  method : String
  id : Option Value
  params : Value

/-- The derived reader. -/
def Request.ofJson (v : Json) : Option Request := do
  let fields ← structFields ["jsonrpc", "method", "id", "params"] 2 v
  let jsonrpc ← required string fields "jsonrpc"
  let method ← required string fields "method"
  let id ← optional anyValue fields "id"
  let params ← defaulted anyValue (Json.value .null) fields "params"
  some { jsonrpc, method, id, params }

/-- The texts that the JSON library gives for its errors, and for a string that is shown. -/
structure Reports where
  json : List UInt8 → String
  request : Value → String
  debug : String → String

def parseRequest [JsonText] (reports : Reports) (bytes : List UInt8) :
    Except Forge3Error Request :=
  match (decodeUtf8 bytes).bind fromText with
  | none => .error (.json (reports.json bytes))
  | some v =>
    match Request.ofJson v.toValue with
    | none => .error (.protocol ("invalid json-rpc request: " ++ reports.request v.value))
    | some req =>
      if req.jsonrpc ≠ "2.0" then
        .error (.protocol ("jsonrpc field must be \"2.0\", got " ++ reports.debug req.jsonrpc))
      else .ok req

/-! ### Responses -/

structure SuccessResponse where
  jsonrpc : String
  result : Value
  id : Value

structure ErrorBody where
  code : Int32
  message : String

structure ErrorResponse where
  jsonrpc : String
  error : ErrorBody
  id : Value

inductive Response where
  | success (s : SuccessResponse)
  | error (e : ErrorResponse)

def Response.toJson : Response → Value
  | .success s => (record [("jsonrpc", some (.str s.jsonrpc)), ("result", some s.result.val),
      ("id", some s.id.val)]).value
  | .error e => (record [("jsonrpc", some (.str e.jsonrpc)),
      ("error", some (record [("code", some (ofI32 e.error.code)),
        ("message", some (.str e.error.message))])),
      ("id", some e.id.val)]).value

/-- The payload of a response. -/
def Response.payload [JsonText] (resp : Response) : List UInt8 :=
  utf8Bytes (toText resp.toJson.val)

/-! ### What is read of an input -/

/-- Bytes that are no frame: they are too few for a length, or there are fewer than their length
says, or that is too large. -/
inductive NoFrame : List UInt8 → Except Forge3Error Unit → Prop where
  | closed {rest : List UInt8} (short : rest.length < 4) : NoFrame rest (.ok ())
  | tooLong {len : ℕ} (tail : List UInt8) (long : maxFrameBytes < len) (fits : len < 2 ^ 32) :
    NoFrame (toBigEndian 4 len ++ tail) (.error (.frameLength (UInt32.ofNat len)))
  | cut {len : ℕ} {tail : List UInt8} (short : tail.length < len) (fits : len ≤ maxFrameBytes) :
    NoFrame (toBigEndian 4 len ++ tail) (.error (.io "early eof"))

section Frames

variable {input payload rest tail : List UInt8} {payloads : List (List UInt8)} {len : ℕ}
  {result : Except Forge3Error Unit} {e : Forge3Error}

theorem maxFrameBytes_lt : maxFrameBytes < 2 ^ 32 := by decide

theorem length_encodeFrame : (encodeFrame payload).length = 4 + payload.length := by
  rw [encodeFrame, List.length_append, length_toBigEndian]

theorem encodeFrame_of_le (h : payload.length ≤ maxFrameBytes) :
    encodeFrame payload = toBigEndian 4 payload.length ++ payload := by
  have hmax := maxFrameBytes_lt
  rw [encodeFrame, Nat.mod_eq_of_lt (by omega)]

/-- An input is read by its first four bytes. -/
theorem decodeFrame_header (h : len < 2 ^ 32) :
    decodeFrame (toBigEndian 4 len ++ tail) =
      if maxFrameBytes < len then .error (.frameLength (UInt32.ofNat len))
      else if tail.length < len then .error (.io "early eof")
      else .ok (some (tail.take len, tail.drop len)) := by
  have hlen : ofBigEndian (toBigEndian 4 len) = len := ofBigEndian_toBigEndian h
  rw [decodeFrame, if_neg (by rw [List.length_append, length_toBigEndian]; omega)]
  simp only [List.take_left' length_toBigEndian, List.drop_left' length_toBigEndian, hlen]

theorem exists_header (h : ¬ input.length < 4) :
    ∃ len tail, len < 2 ^ 32 ∧ input = toBigEndian 4 len ++ tail := by
  have hlength : (input.take 4).length = 4 := by
    rw [List.length_take]
    omega
  refine ⟨ofBigEndian (input.take 4), input.drop 4, ?_, ?_⟩
  · have hlt : ofBigEndian (input.take 4) < 256 ^ (input.take 4).length := ofBigEndian_lt
    rw [hlength] at hlt
    exact hlt
  · have hheader : toBigEndian (input.take 4).length (ofBigEndian (input.take 4)) = input.take 4 :=
      toBigEndian_ofBigEndian
    rw [hlength] at hheader
    rw [hheader, List.take_append_drop]

theorem decodeFrame_encodeFrame (h : payload.length ≤ maxFrameBytes) :
    decodeFrame (encodeFrame payload ++ rest) = .ok (some (payload, rest)) := by
  have hmax := maxFrameBytes_lt
  rw [encodeFrame_of_le h, List.append_assoc, decodeFrame_header (by omega), if_neg (by omega),
    if_neg (by rw [List.length_append]; omega), List.take_left, List.drop_left]

/-- What is read as a frame is the frame of what was read. -/
theorem decodeFrame_eq_some (h : decodeFrame input = .ok (some (payload, rest))) :
    input = encodeFrame payload ++ rest ∧ payload.length ≤ maxFrameBytes := by
  by_cases hshort : input.length < 4
  · rw [decodeFrame, if_pos hshort] at h
    cases h
  · obtain ⟨len, tail, hlen, rfl⟩ := exists_header hshort
    rw [decodeFrame_header hlen] at h
    split_ifs at h with hlong hcut
    -- the length is at most 4 MiB, and so many bytes are there
    obtain ⟨rfl, rfl⟩ : tail.take len = payload ∧ tail.drop len = rest := by
      simpa using h
    have hpayload : (tail.take len).length = len := by
      rw [List.length_take]
      omega
    have hle : (tail.take len).length ≤ maxFrameBytes := by omega
    refine ⟨?_, hle⟩
    rw [encodeFrame_of_le hle, hpayload, List.append_assoc, List.take_append_drop]

theorem noFrame_iff : NoFrame rest result ↔ decodeFrame rest = result.map fun _ => none := by
  have hmax := maxFrameBytes_lt
  constructor
  · intro h
    cases h with
    | closed short => exact if_pos short
    | tooLong tail long fits => rw [decodeFrame_header fits, if_pos long]; rfl
    | cut short fits =>
      rw [decodeFrame_header (by omega), if_neg (by omega), if_pos short]
      rfl
  · intro h
    by_cases hshort : rest.length < 4
    · rw [decodeFrame, if_pos hshort] at h
      cases result with
      | ok _ => exact .closed hshort
      | error e => cases h
    · obtain ⟨len, tail, hlen, rfl⟩ := exists_header hshort
      rw [decodeFrame_header hlen] at h
      split_ifs at h with hlong hcut
      · cases result with
        | ok _ => cases h
        | error e =>
          cases h
          exact .tooLong tail hlong hlen
      · cases result with
        | ok _ => cases h
        | error e =>
          cases h
          exact .cut hcut (by omega)
      · cases result with
        | ok _ => cases h
        | error e => cases h

/-- A peer's frames that can be read are exactly those of payloads of at most 4 MiB. -/
theorem decodeFrame_encodeFrame_iff :
    decodeFrame (encodeFrame payload ++ rest) = .ok (some (payload, rest)) ↔
      payload.length ≤ maxFrameBytes :=
  ⟨fun h => (decodeFrame_eq_some h).2, decodeFrame_encodeFrame⟩

theorem readFramesWith_append {fuel : ℕ} (hfuel : input.length ≤ fuel)
    (hinput : input = payloads.flatMap encodeFrame ++ rest)
    (hpayloads : ∀ payload ∈ payloads, payload.length ≤ maxFrameBytes)
    (hrest : NoFrame rest result) : readFramesWith fuel input = (payloads, rest, result) := by
  induction payloads generalizing fuel input with
  | nil =>
    obtain rfl : input = rest := hinput
    cases fuel with
    | zero =>
      -- nothing was sent, and the peer has closed
      obtain rfl := List.length_eq_zero_iff.mp (Nat.le_zero.mp hfuel)
      have hclosed : Except.ok none = result.map fun _ => none := noFrame_iff.mp hrest
      cases result with
      | ok _ => rfl
      | error e => cases hclosed
    | succ fuel =>
      rw [readFramesWith, noFrame_iff.mp hrest]
      cases result with
      | ok _ => rfl
      | error e => rfl
  | cons payload payloads ih =>
    rw [List.forall_mem_cons] at hpayloads
    rw [List.flatMap_cons, List.append_assoc] at hinput
    subst hinput
    rw [List.length_append, length_encodeFrame] at hfuel
    -- a frame has at least four bytes, so that fewer than the fuel are left
    obtain ⟨fuel, rfl⟩ : ∃ n, fuel = n + 1 := ⟨fuel - 1, by omega⟩
    have hafter : readFramesWith fuel (payloads.flatMap encodeFrame ++ rest) =
        (payloads, rest, result) := ih (by omega) rfl hpayloads.2
    rw [readFramesWith, decodeFrame_encodeFrame hpayloads.1]
    simp only [hafter]

theorem readFramesWith_spec {fuel : ℕ} (hfuel : input.length ≤ fuel) :
    ∃ (payloads : List (List UInt8)) (rest : List UInt8) (result : Except Forge3Error Unit),
      input = payloads.flatMap encodeFrame ++ rest ∧
      (∀ payload ∈ payloads, payload.length ≤ maxFrameBytes) ∧ NoFrame rest result := by
  induction fuel generalizing input with
  | zero =>
    obtain rfl := List.length_eq_zero_iff.mp (Nat.le_zero.mp hfuel)
    exact ⟨[], [], .ok (), rfl, List.forall_mem_nil _, .closed (by decide)⟩
  | succ fuel ih =>
    cases hdecode : decodeFrame input with
    | error e => exact ⟨[], input, .error e, rfl, List.forall_mem_nil _, noFrame_iff.mpr hdecode⟩
    | ok frame =>
      cases frame with
      | none => exact ⟨[], input, .ok (), rfl, List.forall_mem_nil _, noFrame_iff.mpr hdecode⟩
      | some frame =>
        obtain ⟨payload, rest⟩ := frame
        obtain ⟨rfl, hle⟩ := decodeFrame_eq_some hdecode
        rw [List.length_append, length_encodeFrame] at hfuel
        have hshort : rest.length ≤ fuel := by omega
        obtain ⟨payloads, rest', result, hrest, hpayloads, hend⟩ := ih hshort
        refine ⟨payload :: payloads, rest', result, ?_, ?_, hend⟩
        · rw [List.flatMap_cons, List.append_assoc, ← hrest]
        · exact List.forall_mem_cons.mpr ⟨hle, hpayloads⟩

/-- The frames that are read of an input are the only way to cut it into frames of payloads of at
most 4 MiB and bytes that are no frame. -/
theorem readFrames_eq_iff :
    readFrames input = (payloads, rest, result) ↔
      input = payloads.flatMap encodeFrame ++ rest ∧
        (∀ payload ∈ payloads, payload.length ≤ maxFrameBytes) ∧ NoFrame rest result := by
  constructor
  · intro h
    obtain ⟨payloads', rest', result', hinput, hpayloads, hrest⟩ :=
      readFramesWith_spec (Nat.le_refl input.length)
    rw [readFrames, readFramesWith_append (Nat.le_refl _) hinput hpayloads hrest] at h
    cases h
    exact ⟨hinput, hpayloads, hrest⟩
  · intro h
    obtain ⟨hinput, hpayloads, hrest⟩ := h
    exact readFramesWith_append (Nat.le_refl _) hinput hpayloads hrest

theorem readFrames_of_noFrame (h : NoFrame input result) :
    readFrames input = ([], input, result) :=
  readFrames_eq_iff.mpr ⟨rfl, List.forall_mem_nil _, h⟩

theorem readFrames_of_some (h : decodeFrame input = .ok (some (payload, rest))) :
    readFrames input = (payload :: (readFrames rest).1, (readFrames rest).2) := by
  obtain ⟨rfl, hle⟩ := decodeFrame_eq_some h
  rcases hread : readFrames rest with ⟨payloads, after, result⟩
  obtain ⟨hrest, hpayloads, hend⟩ := readFrames_eq_iff.mp hread
  refine readFrames_eq_iff.mpr ⟨?_, List.forall_mem_cons.mpr ⟨hle, hpayloads⟩, hend⟩
  rw [List.flatMap_cons, List.append_assoc, ← hrest]

end Frames

end HeliosLite.Forge3d
