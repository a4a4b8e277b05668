import Mathlib.Algebra.Order.Group.Nat
import Mathlib.Algebra.Ring.Nat
import Mathlib.Data.List.Induction

/-!
# Numbers and texts as bytes

A number is written with so many bytes, the most significant first, and read back from them. A text
is its UTF-8 bytes.

## Main results

* `ofBigEndian_toBigEndian` — a number that fits is read back
* `toBigEndian_ofBigEndian` — bytes are the way to write their number
* `decodeUtf8_utf8Bytes` — a text is read back
-/

namespace Theory

/-- The number that bytes make, the most significant first. -/
def ofBigEndian (bytes : List UInt8) : ℕ := bytes.foldl (fun n b => 256 * n + b.toNat) 0

/-- A number as so many bytes, the most significant first. -/
def toBigEndian : ℕ → ℕ → List UInt8
  | 0, _ => []
  | k + 1, n => toBigEndian k (n / 256) ++ [UInt8.ofNat n]

variable {k n : ℕ} {bytes : List UInt8}

@[simp] theorem length_toBigEndian : (toBigEndian k n).length = k := by
  induction k generalizing n with
  | zero => rfl
  | succ k ih => rw [toBigEndian, List.length_append, ih, List.length_singleton]

@[simp] theorem ofBigEndian_concat (b : UInt8) :
    ofBigEndian (bytes ++ [b]) = 256 * ofBigEndian bytes + b.toNat := by
  rw [ofBigEndian, List.foldl_append]
  rfl

theorem ofBigEndian_toBigEndian (h : n < 256 ^ k) : ofBigEndian (toBigEndian k n) = n := by
  induction k generalizing n with
  | zero => exact (Nat.lt_one_iff.mp h).symm
  | succ k ih =>
    rw [pow_succ] at h
    rw [toBigEndian, ofBigEndian_concat, ih (Nat.div_lt_of_lt_mul (by rwa [Nat.mul_comm] at h)),
      UInt8.toNat_ofNat']
    exact Nat.div_add_mod n 256

theorem toBigEndian_ofBigEndian : toBigEndian bytes.length (ofBigEndian bytes) = bytes := by
  induction bytes using List.reverseRecOn with
  | nil => rfl
  | append_singleton bytes b ih =>
    have hlt : b.toNat < 256 := b.toNat_lt
    have hdiv : (256 * ofBigEndian bytes + b.toNat) / 256 = ofBigEndian bytes := by omega
    have hlast : UInt8.ofNat (256 * ofBigEndian bytes + b.toNat) = b := by
      apply UInt8.toNat_inj.mp
      rw [UInt8.toNat_ofNat']
      omega
    rw [List.length_append, List.length_singleton, ofBigEndian_concat, toBigEndian, hdiv, hlast, ih]

theorem ofBigEndian_lt : ofBigEndian bytes < 256 ^ bytes.length := by
  induction bytes using List.reverseRecOn with
  | nil => exact Nat.one_pos
  | append_singleton bytes b ih =>
    have hlt : b.toNat < 256 := b.toNat_lt
    rw [List.length_append, List.length_singleton, ofBigEndian_concat, pow_succ]
    omega

/-! ### Texts -/

section Texts

def decodeUtf8 (bytes : List UInt8) : Option String := String.fromUTF8? ⟨bytes.toArray⟩

def utf8Bytes (text : String) : List UInt8 := text.toUTF8.data.toList

/-- The byte of a character that is one. -/
def byteOf (c : Char) : UInt8 := UInt8.ofNat c.toNat

theorem decodeUtf8_utf8Bytes (text : String) : decodeUtf8 (utf8Bytes text) = some text := by
  rw [decodeUtf8, utf8Bytes, Array.toArray_toList]
  exact dif_pos text.isValidUTF8

theorem length_utf8Bytes (text : String) : (utf8Bytes text).length = text.utf8ByteSize := by
  rw [utf8Bytes, Array.length_toList]
  rfl

theorem utf8EncodeChar_of_lt {c : Char} (h : c.toNat < 128) :
    String.utf8EncodeChar c = [byteOf c] := by
  have hle : c.val.toNat ≤ 127 := Nat.le_of_lt_succ h
  rw [String.utf8EncodeChar, if_pos hle]
  rfl

theorem utf8Bytes_ofList {text : List Char} (h : ∀ c ∈ text, c.toNat < 128) :
    utf8Bytes (String.ofList text) = text.map byteOf := by
  have hencode : utf8Bytes (String.ofList text) = text.utf8Encode.data.toList := by
    rw [utf8Bytes, String.toUTF8, String.toByteArray_ofList]
  rw [hencode]
  clear hencode
  induction text with
  | nil => rfl
  | cons c text ih =>
    rw [List.forall_mem_cons] at h
    rw [List.utf8Encode_cons, ByteArray.data_append, Array.toList_append, ih h.2,
      List.utf8Encode_singleton, utf8EncodeChar_of_lt h.1, List.data_toByteArray]
    rfl

theorem byteOf_ne {c d : Char} (hc : c.toNat < 128) (hd : d.toNat < 128) (h : c ≠ d) :
    byteOf c ≠ byteOf d := by
  intro heq
  refine h (Char.toNat_inj.mp ?_)
  have hmod := congrArg UInt8.toNat heq
  rw [byteOf, byteOf, UInt8.toNat_ofNat', UInt8.toNat_ofNat'] at hmod
  omega

end Texts

end Theory
