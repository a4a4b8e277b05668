import HeliosLite.EventSource.Line
import Mathlib.Data.Nat.Find

/-!
# Text from a stream of bytes

`crates/forge_eventsource_stream/src/utf8_stream.rs`: the bytes of a character that is cut
by a chunk boundary are kept for the next chunk.

## Main definitions

* `Utf8Stream.pollNext` — the next piece of text
* `Utf8Stream.Holds` — the text that is still to come

## Main results

* `Utf8Stream.pollNext_holds` — a poll gives a front of the text that is to come
-/

namespace HeliosLite.EventSource

/-- What a poll of a stream gives. -/
inductive Poll (α : Type) where
  | ready (value : α)
  | pending

/-- `Utf8Error::valid_up_to`: the largest number of bytes that are UTF-8 by themselves. -/
def validUpTo (bytes : ByteArray) : ℕ :=
  Nat.findGreatest (fun n => (bytes.extract 0 n).IsValidUTF8) bytes.size

theorem isValidUTF8_validUpTo (bytes : ByteArray) :
    (bytes.extract 0 (validUpTo bytes)).IsValidUTF8 :=
  @Nat.findGreatest_spec 0 (fun n => (bytes.extract 0 n).IsValidUTF8) _ bytes.size
    (Nat.zero_le _) (by rw [ByteArray.extract_same]; exact ByteArray.isValidUTF8_empty)

/-- Maximum number of bytes kept for a character that has not arrived in full. -/
def maxUtf8Buffer : ℕ := 4 * 1024

inductive Utf8StreamError (ε : Type) where
  /-- The bytes that are no UTF-8. -/
  | utf8 (bytes : ByteArray)
  | transport (e : ε)

structure Utf8Stream (ε : Type) where
  /-- What the polls of the stream below give; when it is used up, that stream has ended. -/
  stream : List (Poll (Except ε ByteArray))
  buffer : ByteArray
  terminated : Bool

namespace Utf8Stream

variable {ε : Type}

def new (stream : List (Poll (Except ε ByteArray))) : Utf8Stream ε :=
  { stream, buffer := .empty, terminated := false }

def pollNext (this : Utf8Stream ε) :
    Utf8Stream ε × Poll (Option (Except (Utf8StreamError ε) String)) :=
  if this.terminated then (this, .ready none)
  else
    match this.stream with
    | .ready (.ok bytes) :: stream =>
      let bytes := this.buffer ++ bytes
      match String.fromUTF8? bytes with
      | some string => ({ this with stream, buffer := .empty }, .ready (some (.ok string)))
      | none =>
        let rem := bytes.extract (validUpTo bytes) bytes.size
        if rem.size > maxUtf8Buffer then
          ({ this with stream, buffer := .empty }, .ready (some (.error (.utf8 rem))))
        else
          ({ this with stream, buffer := rem },
            .ready (some (.ok (String.fromUTF8 _ (isValidUTF8_validUpTo bytes)))))
    | .ready (.error e) :: stream =>
      ({ this with stream }, .ready (some (.error (.transport e))))
    | [] =>
      if this.buffer.isEmpty then ({ this with terminated := true }, .ready none)
      else
        ({ this with terminated := true, buffer := .empty },
          .ready (some (match String.fromUTF8? this.buffer with
            | some string => .ok string
            | none => .error (.utf8 this.buffer))))
    | .pending :: stream => ({ this with stream }, .pending)

/-- The polls that can still give something. -/
def remaining (this : Utf8Stream ε) : ℕ :=
  if this.terminated then 0 else this.stream.length + 1

/-- Text costs a poll. -/
theorem remaining_lt {this next : Utf8Stream ε} {string : String}
    (h : this.pollNext = (next, .ready (some (.ok string)))) : next.remaining < this.remaining := by
  obtain ⟨stream, buffer, terminated⟩ := this
  cases terminated with
  | true => cases h
  | false =>
    have hlt : ∀ stream' buffer', (⟨stream', buffer', false⟩ : Utf8Stream ε).remaining =
        stream'.length + 1 := fun _ _ => rfl
    rw [hlt]
    match stream with
    | [] =>
      rw [pollNext, if_neg Bool.false_ne_true] at h
      dsimp only at h
      split_ifs at h
      · cases h
      · have hnext := congrArg (fun r => r.1.terminated) h
        rw [remaining, ← hnext]
        exact Nat.one_pos
    | .pending :: stream => cases h
    | .ready (.error e) :: stream => cases h
    | .ready (.ok bytes) :: stream =>
      rw [pollNext, if_neg Bool.false_ne_true] at h
      dsimp only at h
      split at h
      · cases h
        exact Nat.lt_succ_self _
      · split_ifs at h
        · cases h
        · cases h
          exact Nat.lt_succ_self _

end Utf8Stream

/-- The polls give these bytes, in chunks, and nothing else. -/
inductive Splits {ε : Type} : List (Poll (Except ε ByteArray)) → ByteArray → Prop where
  | nil : Splits [] .empty
  | pending {stream bytes} : Splits stream bytes → Splits (.pending :: stream) bytes
  | chunk {stream bytes} (chunk : ByteArray) :
    Splits stream bytes → Splits (.ready (.ok chunk) :: stream) (chunk ++ bytes)

variable {ε : Type} {this : Utf8Stream ε} {text : List Char} {bytes more : ByteArray}

/-! ### UTF-8 in pieces -/

theorem fromUTF8?_eq_some {string : String} (h : String.fromUTF8? bytes = some string) :
    bytes = string.toList.utf8Encode := by
  rw [String.fromUTF8?] at h
  split at h
  · cases h
    rw [String.utf8Encode_toList]
    rfl
  · cases h

theorem fromUTF8?_utf8Encode (text : List Char) :
    String.fromUTF8? text.utf8Encode = some (String.ofList text) := by
  rw [String.fromUTF8?, dif_pos ByteArray.isValidUTF8_utf8Encode]
  rfl

theorem toList_fromUTF8 (h : bytes.IsValidUTF8) (htext : bytes = text.utf8Encode) :
    (String.fromUTF8 bytes h).toList = text := by
  subst htext
  exact String.toList_ofList

/-- Text at the front of the bytes of a text is a front of that text. -/
theorem front_of_utf8Encode {front : List Char}
    (h : front.utf8Encode ++ more = text.utf8Encode) :
    ∃ rest, text = front ++ rest ∧ more = rest.utf8Encode := by
  obtain ⟨rest, rfl⟩ := List.isPrefix_of_utf8Encode_append_eq_utf8Encode more h
  refine ⟨rest, rfl, ?_⟩
  rwa [List.utf8Encode_append, ByteArray.append_right_inj] at h

theorem validUpTo_le (bytes : ByteArray) : validUpTo bytes ≤ bytes.size := Nat.findGreatest_le _

theorem extract_validUpTo_append (bytes : ByteArray) :
    bytes.extract 0 (validUpTo bytes) ++ bytes.extract (validUpTo bytes) bytes.size = bytes := by
  rw [← ByteArray.extract_eq_extract_append_extract _ (Nat.zero_le _) (validUpTo_le bytes),
    ByteArray.extract_zero_size]

/-- Of two ways to cut the same bytes, the longer front begins with the shorter one. -/
theorem exists_append_of_append_eq {a b c d : ByteArray} (h : a ++ b = c ++ d)
    (hle : c.size ≤ a.size) : ∃ e, a = c ++ e := by
  have hfront : a.extract 0 c.size = c := by
    have hcut : (a ++ b).extract 0 c.size = c := by
      rw [h, ByteArray.extract_append_eq_left rfl]
    rwa [ByteArray.extract_append, Nat.sub_eq_zero_of_le hle, Nat.zero_sub,
      ByteArray.extract_same, ByteArray.append_empty] at hcut
  refine ⟨a.extract c.size a.size, ?_⟩
  have hsplit := @ByteArray.extract_eq_extract_append_extract a 0 a.size c.size (Nat.zero_le _) hle
  rwa [ByteArray.extract_zero_size, hfront] at hsplit

/-- What is kept back is less than one character. -/
theorem size_kept_lt (h : bytes.extract (validUpTo bytes) bytes.size ++ more = text.utf8Encode) :
    (bytes.extract (validUpTo bytes) bytes.size).size < 4 := by
  cases text with
  | nil =>
    have hsize := congrArg ByteArray.size h
    rw [List.utf8Encode_nil, ByteArray.size_append, ByteArray.size_empty] at hsize
    omega
  | cons c text =>
    by_contra hlong
    have hc := c.utf8Size_le_four
    have hpos := c.utf8Size_pos
    have hsize : [c].utf8Encode.size = c.utf8Size := by
      rw [List.utf8Encode_singleton, List.size_toByteArray, String.length_utf8EncodeChar]
    rw [List.utf8Encode_cons] at h
    obtain ⟨tail, htail⟩ := exists_append_of_append_eq h (by omega)
    -- a whole character would be valid as well, and more bytes with it
    have hbytes := extract_validUpTo_append bytes
    rw [htail, ← ByteArray.append_assoc] at hbytes
    have hlength : (bytes.extract 0 (validUpTo bytes)).size = validUpTo bytes := by
      rw [ByteArray.size_extract, Nat.min_eq_left (validUpTo_le bytes), Nat.sub_zero]
    have hvalid : (bytes.extract 0 (validUpTo bytes + c.utf8Size)).IsValidUTF8 := by
      have hfront : validUpTo bytes + c.utf8Size =
          (bytes.extract 0 (validUpTo bytes) ++ [c].utf8Encode).size := by
        rw [ByteArray.size_append, hlength, hsize]
      conv => enter [1, 1]; rw [← hbytes]
      rw [ByteArray.extract_append_eq_left hfront]
      exact (isValidUTF8_validUpTo bytes).append ByteArray.isValidUTF8_utf8Encode
    have hroom : validUpTo bytes + c.utf8Size ≤ bytes.size := by
      have htotal := congrArg ByteArray.size hbytes
      rw [ByteArray.size_append, ByteArray.size_append, hlength, hsize] at htotal
      omega
    have hmore : validUpTo bytes < validUpTo bytes + c.utf8Size := Nat.lt_add_of_pos_right hpos
    exact @Nat.findGreatest_is_greatest _ (fun n => (bytes.extract 0 n).IsValidUTF8) _ _ hmore
      hroom hvalid

namespace Utf8Stream

/-- The text that is still to come. -/
def Holds (this : Utf8Stream ε) (text : List Char) : Prop :=
  if this.terminated then text = []
  else ∃ bytes, Splits this.stream bytes ∧ this.buffer ++ bytes = text.utf8Encode

/-- What a poll gives while text is to come. -/
inductive Polled (this : Utf8Stream ε) (text : List Char) :
    Utf8Stream ε × Poll (Option (Except (Utf8StreamError ε) String)) → Prop where
  | pending (next : Utf8Stream ε) : next.Holds text → next.remaining < this.remaining →
    Polled this text (next, .pending)
  | ended (next : Utf8Stream ε) : text = [] → Polled this text (next, .ready none)
  | text (next : Utf8Stream ε) (string : String) (rest : List Char) :
    text = string.toList ++ rest → next.Holds rest → next.remaining < this.remaining →
    Polled this text (next, .ready (some (.ok string)))

/-- A poll gives a front of the text that is to come. -/
theorem pollNext_holds (h : this.Holds text) : Polled this text this.pollNext := by
  obtain ⟨stream, buffer, terminated⟩ := this
  cases terminated with
  | true => exact .ended _ h
  | false =>
    obtain ⟨bytes, hsplits, hbytes⟩ := h
    cases hsplits with
    | nil =>
      rw [ByteArray.append_empty] at hbytes
      rw [pollNext, if_neg Bool.false_ne_true]
      dsimp only at hbytes ⊢
      by_cases hempty : buffer.isEmpty
      · rw [if_pos hempty]
        apply Polled.ended
        rw [← List.utf8Encode_eq_empty, ← hbytes]
        exact ByteArray.size_eq_zero_iff.mp (beq_iff_eq.mp hempty)
      · rw [if_neg hempty, hbytes, fromUTF8?_utf8Encode]
        exact .text _ _ [] (by rw [String.toList_ofList, List.append_nil]) rfl (Nat.one_pos)
    | pending hsplits =>
      exact .pending _ ⟨_, hsplits, hbytes⟩ (Nat.lt_succ_self _)
    | @chunk stream more chunk hsplits =>
      rw [pollNext, if_neg Bool.false_ne_true]
      dsimp only at hbytes ⊢
      rw [← ByteArray.append_assoc] at hbytes
      cases hstring : String.fromUTF8? (buffer ++ chunk) with
      | some string =>
        rw [fromUTF8?_eq_some hstring] at hbytes
        obtain ⟨rest, rfl, rfl⟩ := front_of_utf8Encode hbytes
        exact .text _ string rest rfl ⟨_, hsplits, ByteArray.empty_append⟩ (Nat.lt_succ_self _)
      | none =>
        set bytes := buffer ++ chunk
        obtain ⟨front, hfront⟩ := isValidUTF8_validUpTo bytes
        rw [← extract_validUpTo_append bytes, ByteArray.append_assoc, hfront] at hbytes
        obtain ⟨rest, rfl, hrest⟩ := front_of_utf8Encode hbytes
        have hsize := size_kept_lt hrest
        dsimp only
        rw [if_neg (by rw [maxUtf8Buffer]; omega)]
        refine .text _ _ rest ?_ ⟨_, hsplits, hrest⟩ (Nat.lt_succ_self _)
        rw [toList_fromUTF8 _ hfront]

end Utf8Stream

end HeliosLite.EventSource
