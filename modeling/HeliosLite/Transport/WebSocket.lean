import HeliosLite.Theory.Bytes

/-!
# Frames of a web socket

The frames of RFC 6455 that a connection reads from a client and writes to it. What a client sends
is masked with a key of four bytes, and its length is written in one of three ways. A frame of the
server is not masked and is never cut in two.

## Main definitions

* `readFrame` — the frame at the start of some bytes
* `encodeDataFrame` — the bytes of a frame of the server
* `ClientFrame` — a frame that a client may send

## Main results

* `readFrame_eq_ok_iff` — what is read is what a client may send, with the mask taken off
* `serverStream_injective` — the frames of the server are read back from their bytes
-/

namespace HeliosLite

namespace WebSocket

open Theory

/-! ### Reading bytes -/

inductive ErrorKind where
  | unexpectedEof
  | invalidData
  deriving DecidableEq, Repr

structure IoError where
  kind : ErrorKind
  message : String
  deriving DecidableEq, Repr

def invalidData (message : String) : IoError := ⟨.invalidData, message⟩

/-- What is read from the bytes that come in before the end of the stream. -/
abbrev Reader (α : Type) := StateT (List UInt8) (Except IoError) α

def readByte : Reader UInt8
  | [] => .error ⟨.unexpectedEof, "ws: eof"⟩
  | b :: input => .ok (b, input)

def readExact (n : ℕ) : Reader (List UInt8) := fun input =>
  if input.length < n then .error ⟨.unexpectedEof, "early eof"⟩
  else .ok (input.take n, input.drop n)

def fail {α : Type} (message : String) : Reader α := fun _ => .error (invalidData message)

/-! ### Opcodes -/

inductive OpCode where
  | continuation
  | text
  | binary
  | close
  | ping
  | pong
  deriving DecidableEq, Repr

namespace OpCode

def toU8 : OpCode → UInt8
  | continuation => 0x0
  | text => 0x1
  | binary => 0x2
  | close => 0x8
  | ping => 0x9
  | pong => 0xA

def fromU8 (b : UInt8) : Except IoError OpCode :=
  if b = 0x0 then .ok continuation
  else if b = 0x1 then .ok text
  else if b = 0x2 then .ok binary
  else if b = 0x8 then .ok close
  else if b = 0x9 then .ok ping
  else if b = 0xA then .ok pong
  else .error (invalidData ("ws: unknown opcode " ++ toString b.toNat))

end OpCode

/-! ### Frames of a client -/

structure Frame where
  opcode : OpCode
  payload : List UInt8
  deriving DecidableEq, Repr

structure MaskKey where
  k₀ : UInt8
  k₁ : UInt8
  k₂ : UInt8
  k₃ : UInt8
  deriving DecidableEq, Repr

def MaskKey.at (key : MaskKey) (i : ℕ) : UInt8 :=
  if i &&& 3 = 0 then key.k₀ else if i &&& 3 = 1 then key.k₁
  else if i &&& 3 = 2 then key.k₂ else key.k₃

/-- The key laid over the payload. Doing it twice changes nothing. -/
def mask (key : MaskKey) (payload : List UInt8) : List UInt8 :=
  payload.mapIdx fun i b => b ^^^ key.at i

/-- `usize::MAX`. -/
def usizeMax : ℕ := 2 ^ 64 - 1

/-- The length of a payload, whose first seven bits were read. -/
def readLength (len : ℕ) : Reader ℕ :=
  if len = 126 then do
    let ext ← readExact 2
    return ofBigEndian ext
  else if len = 127 then do
    let ext ← readExact 8
    if usizeMax / 2 < ofBigEndian ext then fail "ws: payload too large"
    else return ofBigEndian ext
  else return len

def readMaskKey : Reader MaskKey := do
  let m ← readExact 4
  return ⟨m.getD 0 0, m.getD 1 0, m.getD 2 0, m.getD 3 0⟩

/-- The most that a payload may have. -/
def maxPayload : ℕ := 1 <<< 20

def readFrame : Reader Frame := do
  let b₀ ← readByte
  if b₀ &&& 0x70 ≠ 0 then fail "ws: reserved bits set"
  else
    let opcode ← OpCode.fromU8 (b₀ &&& 0x0F)
    if b₀ &&& 0x80 = 0 ∧ opcode ≠ .continuation then fail "ws: fragmented frames not supported"
    else
      let b₁ ← readByte
      let len ← readLength (b₁ &&& 0x7F).toNat
      if maxPayload < len then fail "ws: payload exceeds 1 MiB"
      else if b₁ &&& 0x80 = 0 then fail "ws: client frame must be masked"
      else
        let key ← readMaskKey
        let payload ← readExact len
        return ⟨opcode, mask key payload⟩

/-! ### Frames of the server -/

inductive CloseCode where
  | normal
  | policyViolation
  | internalError
  deriving DecidableEq, Repr

def CloseCode.toU16 : CloseCode → ℕ
  | normal => 1000
  | policyViolation => 1008
  | internalError => 1011

def encodeDataFrame (opcode : OpCode) (payload : List UInt8) : Except IoError (List UInt8) :=
  let len := payload.length
  let head := [0x80 ||| opcode.toU8]
  if len < 126 then .ok (head ++ [UInt8.ofNat len] ++ payload)
  else if len ≤ 2 ^ 16 - 1 then .ok (head ++ 126 :: toBigEndian 2 len ++ payload)
  else if len ≤ 2 ^ 64 - 1 then .ok (head ++ 127 :: toBigEndian 8 len ++ payload)
  else .error (invalidData "ws: payload too large")

def encodeTextFrame (payload : List UInt8) : Except IoError (List UInt8) :=
  encodeDataFrame .text payload

/-- A close frame; the reason is given by the bytes of its text. -/
def encodeCloseFrame (code : CloseCode) (reason : List UInt8) : Except IoError (List UInt8) :=
  encodeDataFrame .close (toBigEndian 2 code.toU16 ++ reason)

def encodeControlFrame (opcode : OpCode) (payload : List UInt8) : Except IoError (List UInt8) :=
  encodeDataFrame opcode payload

/-! ### What a client may send -/

/-- The ways to write a length: in the second byte, or in two or eight bytes after it. -/
inductive LengthForm where
  | short
  | medium
  | long
  deriving DecidableEq, Repr

namespace LengthForm

/-- The length can be written in this way. -/
def Fits (len : ℕ) : LengthForm → Prop
  | short => len < 126
  | medium => len < 2 ^ 16
  | long => len < 2 ^ 64

instance (len : ℕ) (form : LengthForm) : Decidable (form.Fits len) :=
  match form with
  | short => inferInstanceAs (Decidable (_ < _))
  | medium => inferInstanceAs (Decidable (_ < _))
  | long => inferInstanceAs (Decidable (_ < _))

/-- The seven bits of the second byte. -/
def code (len : ℕ) : LengthForm → UInt8
  | short => UInt8.ofNat len
  | medium => 126
  | long => 127

/-- The bytes after the second one. -/
def bytes (len : ℕ) : LengthForm → List UInt8
  | short => []
  | medium => toBigEndian 2 len
  | long => toBigEndian 8 len

end LengthForm

/-- A frame of a client. Only a continuation may be one of several. -/
structure ClientFrame where
  fin : Bool
  opcode : OpCode
  form : LengthForm
  key : MaskKey
  payload : List UInt8
  fits : form.Fits payload.length
  small : payload.length ≤ maxPayload
  whole : fin = false → opcode = .continuation

def MaskKey.bytes (key : MaskKey) : List UInt8 := [key.k₀, key.k₁, key.k₂, key.k₃]

/-- The first bytes: whether there is more, what it is, and how long. -/
def header (fin masked : Bool) (opcode : OpCode) (form : LengthForm) (len : ℕ) : List UInt8 :=
  ((if fin then 0x80 else 0x00) ||| opcode.toU8) ::
    ((if masked then 0x80 else 0x00) ||| form.code len) :: form.bytes len

namespace ClientFrame

def frame (f : ClientFrame) : Frame := ⟨f.opcode, f.payload⟩

def bytes (f : ClientFrame) : List UInt8 :=
  header f.fin true f.opcode f.form f.payload.length ++ f.key.bytes ++ mask f.key f.payload

end ClientFrame

/-! ### What is read -/

section Read

variable {α β : Type} {input rest : List UInt8}

theorem error_ne_ok {e : IoError} {a : α} : (.error e : Except IoError α) ≠ .ok a := by
  intro h
  cases h

theorem bind_eq_ok_iff {x : Reader α} {f : α → Reader β} {b : β} :
    (x >>= f) input = .ok (b, rest) ↔
      ∃ a mid, x input = .ok (a, mid) ∧ f a mid = .ok (b, rest) := by
  change Except.bind (x input) _ = _ ↔ _
  cases hx : x input with
  | error e => exact ⟨fun h => (error_ne_ok h).elim, fun ⟨_, _, h, _⟩ => (error_ne_ok h).elim⟩
  | ok p =>
    obtain ⟨a, mid⟩ := p
    refine ⟨fun h => ⟨a, mid, rfl, h⟩, fun ⟨a', mid', h, h'⟩ => ?_⟩
    cases h
    exact h'

theorem bind_of_ok {x : Reader α} {f : α → Reader β} {a : α} {mid : List UInt8}
    (h : x input = .ok (a, mid)) : (x >>= f) input = f a mid := by
  change Except.bind (x input) _ = _
  rw [h]
  rfl

theorem pure_eq_ok_iff {a b : α} :
    (pure a : Reader α) input = .ok (b, rest) ↔ a = b ∧ input = rest := by
  change Except.ok (a, input) = _ ↔ _
  rw [Except.ok.injEq, Prod.mk.injEq]

theorem lift_eq_ok_iff {x : Except IoError α} {a : α} :
    (liftM x : Reader α) input = .ok (a, rest) ↔ x = .ok a ∧ input = rest := by
  cases x with
  | error e => exact ⟨fun h => (error_ne_ok h).elim, fun h => (error_ne_ok h.1).elim⟩
  | ok b =>
    change Except.ok (b, input) = _ ↔ _
    rw [Except.ok.injEq, Prod.mk.injEq, Except.ok.injEq]

theorem fail_ne_ok {message : String} {p : α × List UInt8} : fail message input ≠ .ok p :=
  error_ne_ok

theorem readByte_eq_ok_iff {b : UInt8} : readByte input = .ok (b, rest) ↔ input = b :: rest := by
  cases input with
  | nil => exact ⟨fun h => (error_ne_ok h).elim, fun h => (List.cons_ne_nil _ _ h.symm).elim⟩
  | cons b' input =>
    rw [readByte, Except.ok.injEq, Prod.mk.injEq, List.cons.injEq]

theorem readExact_eq_ok_iff {n : ℕ} {bytes : List UInt8} :
    readExact n input = .ok (bytes, rest) ↔ input = bytes ++ rest ∧ bytes.length = n := by
  unfold readExact
  constructor
  · intro h
    split_ifs at h with hshort
    cases h
    exact ⟨(List.take_append_drop n input).symm, List.length_take_of_le (Nat.le_of_not_lt hshort)⟩
  · rintro ⟨rfl, rfl⟩
    rw [if_neg (by rw [List.length_append]; omega), List.take_left, List.drop_left]

end Read

/-! ### The first two bytes -/

theorem fromU8_eq_ok_iff {b : UInt8} {op : OpCode} : OpCode.fromU8 b = .ok op ↔ b = op.toU8 := by
  constructor
  · intro h
    unfold OpCode.fromU8 at h
    split_ifs at h <;> cases h <;> assumption
  · rintro rfl
    cases op <;> rfl

/-- A property of every byte holds of every number below 256. -/
theorem forall_byte {P : UInt8 → Prop} (h : ∀ n : Fin 256, P (UInt8.ofNat n)) (b : UInt8) :
    P b := by
  rw [← @UInt8.ofNat_toNat b]
  exact h ⟨b.toNat, b.toNat_lt⟩

theorem first_bits (fin : Bool) (op : OpCode) :
    ((if fin then 0x80 else 0x00) ||| op.toU8) &&& 0x70 = 0 ∧
      ((if fin then 0x80 else 0x00) ||| op.toU8) &&& 0x0F = op.toU8 ∧
      (((if fin then 0x80 else 0x00) ||| op.toU8) &&& 0x80 = 0 ↔ fin = false) := by
  cases fin <;> cases op <;> decide

theorem eq_of_first_bits {b : UInt8} (hrsv : b &&& 0x70 = 0) :
    b = (if decide (b &&& 0x80 ≠ 0) then 0x80 else 0x00) ||| (b &&& 0x0F) := by
  revert hrsv
  apply forall_byte ?_ b
  decide +kernel

theorem second_bits (masked : Bool) {c : UInt8} (hc : c < 128) :
    ((if masked then 0x80 else 0x00) ||| c) &&& 0x7F = c ∧
      (((if masked then 0x80 else 0x00) ||| c) &&& 0x80 = 0 ↔ masked = false) := by
  revert hc
  apply forall_byte ?_ c
  cases masked <;> decide +kernel

theorem eq_of_second_bits (b : UInt8) :
    (b &&& 0x7F) < 128 ∧ b = (if decide (b &&& 0x80 ≠ 0) then 0x80 else 0x00) ||| (b &&& 0x7F) := by
  apply forall_byte ?_ b
  decide +kernel

/-! ### The length -/

section Length

variable {input rest : List UInt8} {len : ℕ}

theorem code_lt {form : LengthForm} (h : form.Fits len) : form.code len < 128 := by
  cases form with
  | short =>
    rw [LengthForm.code, UInt8.lt_iff_toNat_lt, UInt8.toNat_ofNat']
    rw [LengthForm.Fits] at h
    change len % 256 < 128
    omega
  | _ => rw [LengthForm.code]; decide

theorem readLength_bytes {form : LengthForm} (h : form.Fits len) (hlen : len ≤ usizeMax / 2) :
    readLength (form.code len).toNat (form.bytes len ++ rest) = .ok (len, rest) := by
  cases form with
  | short =>
    rw [LengthForm.Fits] at h
    have hcode : (LengthForm.short.code len).toNat = len := by
      rw [LengthForm.code, UInt8.toNat_ofNat']
      omega
    rw [hcode, readLength, if_neg (by omega), if_neg (by omega)]
    rfl
  | medium =>
    have hread : readExact 2 (toBigEndian 2 len ++ rest) = .ok (toBigEndian 2 len, rest) :=
      readExact_eq_ok_iff.mpr ⟨rfl, length_toBigEndian⟩
    change (readExact 2 >>= fun ext => pure (ofBigEndian ext)) _ = _
    rw [LengthForm.bytes, bind_of_ok hread, ofBigEndian_toBigEndian h]
    rfl
  | long =>
    have hread : readExact 8 (toBigEndian 8 len ++ rest) = .ok (toBigEndian 8 len, rest) :=
      readExact_eq_ok_iff.mpr ⟨rfl, length_toBigEndian⟩
    change (readExact 8 >>= fun ext => if usizeMax / 2 < ofBigEndian ext then
      fail "ws: payload too large" else pure (ofBigEndian ext)) _ = _
    rw [LengthForm.bytes, bind_of_ok hread, ofBigEndian_toBigEndian h, if_neg (by omega)]
    rfl

/-- A length that was read was written in one of the ways. -/
theorem exists_form_of_readLength {c : UInt8} (hc : c < 128)
    (h : readLength c.toNat input = .ok (len, rest)) :
    ∃ form : LengthForm, form.Fits len ∧ c = form.code len ∧ input = form.bytes len ++ rest := by
  unfold readLength at h
  split_ifs at h with hmedium hlong
  · obtain ⟨ext, mid, hext, hlen⟩ := bind_eq_ok_iff.mp h
    obtain ⟨rfl, hlength⟩ := readExact_eq_ok_iff.mp hext
    obtain ⟨rfl, rfl⟩ := pure_eq_ok_iff.mp hlen
    refine ⟨.medium, ?_, UInt8.toNat_inj.mp hmedium, ?_⟩
    · have hlt := @ofBigEndian_lt ext
      rwa [hlength] at hlt
    · rw [LengthForm.bytes, ← hlength, toBigEndian_ofBigEndian]
  · obtain ⟨ext, mid, hext, hlen⟩ := bind_eq_ok_iff.mp h
    obtain ⟨rfl, hlength⟩ := readExact_eq_ok_iff.mp hext
    split_ifs at hlen with hlarge
    · exact (fail_ne_ok hlen).elim
    · obtain ⟨rfl, rfl⟩ := pure_eq_ok_iff.mp hlen
      refine ⟨.long, ?_, UInt8.toNat_inj.mp hlong, ?_⟩
      · have hlt := @ofBigEndian_lt ext
        rwa [hlength] at hlt
      · rw [LengthForm.bytes, ← hlength, toBigEndian_ofBigEndian]
  · obtain ⟨rfl, rfl⟩ := pure_eq_ok_iff.mp h
    refine ⟨.short, ?_, UInt8.ofNat_toNat.symm, rfl⟩
    rw [UInt8.lt_iff_toNat_lt] at hc
    change c.toNat < 128 at hc
    change c.toNat < 126
    omega

end Length

/-! ### The mask -/

theorem length_mask (key : MaskKey) (payload : List UInt8) :
    (mask key payload).length = payload.length := List.length_mapIdx

theorem mask_mask (key : MaskKey) (payload : List UInt8) :
    mask key (mask key payload) = payload := by
  apply List.ext_getElem
  · rw [length_mask, length_mask]
  · intro i hi hi'
    simp only [mask, List.getElem_mapIdx]
    rw [UInt8.xor_assoc, UInt8.xor_self, UInt8.xor_zero]

theorem readMaskKey_eq_ok_iff {key : MaskKey} {input rest : List UInt8} :
    readMaskKey input = .ok (key, rest) ↔ input = key.bytes ++ rest := by
  unfold readMaskKey
  rw [bind_eq_ok_iff]
  constructor
  · rintro ⟨m, mid, hm, h⟩
    obtain ⟨rfl, hlength⟩ := readExact_eq_ok_iff.mp hm
    obtain ⟨rfl, rfl⟩ := pure_eq_ok_iff.mp h
    rcases m with _ | ⟨k₀, _ | ⟨k₁, _ | ⟨k₂, _ | ⟨k₃, _ | ⟨k₄, m⟩⟩⟩⟩⟩
    case cons.cons.cons.cons.nil => rfl
    all_goals cases hlength
  · rintro rfl
    exact ⟨key.bytes, rest, readExact_eq_ok_iff.mpr ⟨rfl, rfl⟩, rfl⟩

/-! ### The frame -/

theorem maxPayload_le : maxPayload ≤ usizeMax / 2 := by decide

theorem readFrame_bytes (f : ClientFrame) (rest : List UInt8) :
    readFrame (f.bytes ++ rest) = .ok (f.frame, rest) := by
  obtain ⟨hrsv, hop, hfin⟩ := first_bits f.fin f.opcode
  obtain ⟨hcode, hmasked⟩ := second_bits true (code_lt f.fits)
  have hopcode : OpCode.fromU8 (f.opcode.toU8) = .ok f.opcode := fromU8_eq_ok_iff.mpr rfl
  have hbytes : f.bytes ++ rest =
      ((if f.fin then 0x80 else 0x00) ||| f.opcode.toU8) ::
        ((if true then 0x80 else 0x00) ||| f.form.code f.payload.length) ::
          (f.form.bytes f.payload.length ++ (f.key.bytes ++ (mask f.key f.payload ++ rest))) := by
    simp only [ClientFrame.bytes, header, List.cons_append, List.append_assoc]
  unfold readFrame
  rw [hbytes, bind_of_ok (readByte_eq_ok_iff.mpr rfl), if_neg (by rw [hrsv]; exact fun h => h rfl),
    bind_of_ok (lift_eq_ok_iff.mpr ⟨by rw [hop]; exact hopcode, rfl⟩)]
  rw [if_neg (by rintro ⟨hzero, hne⟩; exact hne (f.whole (hfin.mp hzero))),
    bind_of_ok (readByte_eq_ok_iff.mpr rfl), hcode,
    bind_of_ok (readLength_bytes f.fits (f.small.trans maxPayload_le)),
    if_neg (Nat.not_lt.mpr f.small), if_neg (by rw [hmasked]; decide),
    bind_of_ok (readMaskKey_eq_ok_iff.mpr rfl),
    bind_of_ok (readExact_eq_ok_iff.mpr ⟨rfl, length_mask f.key f.payload⟩), mask_mask]
  rfl

/-- What is read is what a client may send, with the mask taken off. -/
theorem readFrame_eq_ok_iff {input rest : List UInt8} {frame : Frame} :
    readFrame input = .ok (frame, rest) ↔
      ∃ f : ClientFrame, input = f.bytes ++ rest ∧ frame = f.frame := by
  constructor
  · intro h
    unfold readFrame at h
    obtain ⟨b₀, input₁, hb₀, h⟩ := bind_eq_ok_iff.mp h
    split_ifs at h with hrsv
    · exact (fail_ne_ok h).elim
    rw [not_not] at hrsv
    obtain ⟨opcode, input₂, hlift, h⟩ := bind_eq_ok_iff.mp h
    obtain ⟨hopcode, rfl⟩ := lift_eq_ok_iff.mp hlift
    split_ifs at h with hwhole
    · exact (fail_ne_ok h).elim
    obtain ⟨b₁, input₃, hb₁, h⟩ := bind_eq_ok_iff.mp h
    obtain ⟨len, input₄, hlen, h⟩ := bind_eq_ok_iff.mp h
    split_ifs at h with hsmall hmasked
    · exact (fail_ne_ok h).elim
    · exact (fail_ne_ok h).elim
    obtain ⟨key, input₅, hkey, h⟩ := bind_eq_ok_iff.mp h
    obtain ⟨payload, input₆, hpayload, h⟩ := bind_eq_ok_iff.mp h
    obtain ⟨rfl, rfl⟩ := pure_eq_ok_iff.mp h
    obtain ⟨hseven, hsecond⟩ := eq_of_second_bits b₁
    obtain ⟨form, hfits, hcode, rfl⟩ := exists_form_of_readLength hseven hlen
    rw [readByte_eq_ok_iff] at hb₀ hb₁
    rw [readMaskKey_eq_ok_iff] at hkey
    rw [readExact_eq_ok_iff] at hpayload
    obtain ⟨rfl, rfl⟩ := hpayload
    subst hkey hb₁ hb₀
    rw [← length_mask key payload] at hfits hsmall
    refine ⟨⟨decide (b₀ &&& 0x80 ≠ 0), opcode, form, key, mask key payload, hfits,
      Nat.not_lt.mp hsmall, ?_⟩, ?_, rfl⟩
    · intro hfin
      rw [decide_eq_false_iff_not, not_not] at hfin
      by_contra hne
      exact hwhole ⟨hfin, hne⟩
    · have hfirst := eq_of_first_bits hrsv
      rw [fromU8_eq_ok_iff.mp hopcode] at hfirst
      rw [decide_eq_true hmasked, hcode, if_pos rfl] at hsecond
      simp only [ClientFrame.bytes, header, length_mask, mask_mask, List.cons_append,
        List.append_assoc, if_true]
      rw [← hfirst, ← hsecond]
  · rintro ⟨f, rfl, rfl⟩
    exact readFrame_bytes f rest

/-! ### What the server sends -/

/-- The shortest way to write a length. -/
def minimalForm (len : ℕ) : LengthForm :=
  if len < 126 then .short else if len < 2 ^ 16 then .medium else .long

theorem fits_minimalForm {len : ℕ} (h : len ≤ usizeMax) : (minimalForm len).Fits len := by
  rw [usizeMax] at h
  unfold minimalForm
  split_ifs with hshort hmedium
  · exact hshort
  · exact hmedium
  · exact Nat.lt_of_le_of_lt h (by decide)

/-- The bytes of a frame of the server: whole, not masked, its length written in the shortest
way. -/
def Frame.bytes (f : Frame) : List UInt8 :=
  header true false f.opcode (minimalForm f.payload.length) f.payload.length ++ f.payload

theorem header_server {opcode : OpCode} {form : LengthForm} {len : ℕ} :
    header true false opcode form len =
      (0x80 ||| opcode.toU8) :: form.code len :: form.bytes len := by
  rw [header, if_pos rfl, if_neg Bool.false_ne_true, UInt8.zero_or]

theorem encodeDataFrame_eq {opcode : OpCode} {payload : List UInt8}
    (h : payload.length ≤ usizeMax) :
    encodeDataFrame opcode payload = .ok (Frame.bytes ⟨opcode, payload⟩) := by
  rw [usizeMax] at h
  unfold encodeDataFrame
  simp only [Frame.bytes, header_server, minimalForm]
  split_ifs with hshort hmedium hmedium' hmedium'
  · rfl
  · rfl
  · exact absurd (Nat.lt_of_le_of_lt hmedium (by decide)) hmedium'
  · exact absurd (Nat.le_sub_one_of_lt hmedium') hmedium
  · rfl

theorem opcode_inj {op op' : OpCode} (h : 0x80 ||| op.toU8 = 0x80 ||| op'.toU8) : op = op' := by
  revert h
  cases op <;> cases op' <;> decide

/-- One frame of the server is read back from the start of some bytes. -/
theorem Frame.bytes_append_inj {f f' : Frame} {rest rest' : List UInt8}
    (hf : f.payload.length ≤ usizeMax / 2) (hf' : f'.payload.length ≤ usizeMax / 2)
    (h : f.bytes ++ rest = f'.bytes ++ rest') : f = f' ∧ rest = rest' := by
  obtain ⟨opcode, payload⟩ := f
  obtain ⟨opcode', payload'⟩ := f'
  have hfits := fits_minimalForm (hf.trans (Nat.div_le_self _ _))
  have hfits' := fits_minimalForm (hf'.trans (Nat.div_le_self _ _))
  simp only [Frame.bytes, header_server, List.cons_append, List.append_assoc,
    List.cons.injEq] at h
  obtain ⟨hopcode, hcode, htail⟩ := h
  obtain rfl := opcode_inj hopcode
  -- both lengths are read off the same bytes
  have hread := @readLength_bytes (payload ++ rest) _ _ hfits hf
  rw [hcode, htail, readLength_bytes hfits' hf', Except.ok.injEq, Prod.mk.injEq] at hread
  obtain ⟨hlength, hpayload⟩ := hread
  obtain ⟨rfl, rfl⟩ := List.append_inj hpayload.symm hlength.symm
  exact ⟨rfl, rfl⟩

/-- The bytes of some frames, one after the other. -/
def serverStream (frames : List Frame) : Except IoError (List UInt8) :=
  (frames.mapM fun f => encodeDataFrame f.opcode f.payload).map List.flatten

theorem serverStream_eq {frames : List Frame}
    (h : ∀ f ∈ frames, f.payload.length ≤ usizeMax / 2) :
    serverStream frames = .ok (frames.flatMap Frame.bytes) := by
  have hmapM : frames.mapM (fun f => encodeDataFrame f.opcode f.payload) =
      .ok (frames.map Frame.bytes) := by
    induction frames with
    | nil => rfl
    | cons f frames ih =>
      rw [List.forall_mem_cons] at h
      rw [List.mapM_cons, encodeDataFrame_eq (h.1.trans (Nat.div_le_self _ _)), ih h.2]
      rfl
  rw [serverStream, hmapM]
  rfl

/-- The frames of the server are read back from their bytes. -/
theorem serverStream_injective {frames frames' : List Frame}
    (h : ∀ f ∈ frames, f.payload.length ≤ usizeMax / 2)
    (h' : ∀ f ∈ frames', f.payload.length ≤ usizeMax / 2)
    (heq : serverStream frames = serverStream frames') : frames = frames' := by
  rw [serverStream_eq h, serverStream_eq h', Except.ok.injEq] at heq
  have hne : ∀ (f : Frame) (rest : List UInt8), f.bytes ++ rest ≠ [] :=
    fun f rest => List.cons_ne_nil _ _
  induction frames generalizing frames' with
  | nil =>
    cases frames' with
    | nil => rfl
    | cons f' frames' => exact absurd heq.symm (hne f' _)
  | cons f frames ih =>
    cases frames' with
    | nil => exact absurd heq (hne f _)
    | cons f' frames' =>
      rw [List.forall_mem_cons] at h h'
      rw [List.flatMap_cons, List.flatMap_cons] at heq
      obtain ⟨rfl, hrest⟩ := Frame.bytes_append_inj h.1 h'.1 heq
      rw [ih h.2 h'.2 hrest]

theorem serverStream_injective_pongs :
    [⟨.pong, [1, 2]⟩, ⟨.close, []⟩] = ([⟨.pong, [1, 2]⟩, ⟨.close, []⟩] : List Frame) :=
  serverStream_injective (by decide) (by decide) rfl

end WebSocket

end HeliosLite
