import Mathlib.Algebra.BigOperators.Group.List.Basic
import Mathlib.Algebra.Ring.Nat
import Mathlib.Data.Nat.Notation

/-!
# Positions that count bytes

A text is a list of characters, and a position in its UTF-8 form counts bytes. Where each
character has one byte the two ways to count agree.

## Main definitions

* `byteLen` — the bytes of a text
* `splitAtByte`, `slice` — a text cut at a position, and between two positions
* `extraBytes` — how many bytes there are more than characters

## Main results

* `splitAtByte_eq_some_iff` — a text is cut where the bytes before the cut are counted
* `byteLen_eq` — the bytes are the characters and the extra bytes
-/

namespace Theory

/-- The bytes of a text in UTF-8. -/
def byteLen (text : List Char) : ℕ := (text.map Char.utf8Size).sum

/-- The text cut after so many bytes, unless this is inside a character or behind the end. -/
def splitAtByte : List Char → ℕ → Option (List Char × List Char)
  | text, 0 => some ([], text)
  | [], _ + 1 => none
  | c :: text, n + 1 =>
    if c.utf8Size ≤ n + 1 then
      (splitAtByte text (n + 1 - c.utf8Size)).map fun p => (c :: p.1, p.2)
    else
      none

attribute [grind =] byteLen splitAtByte

variable {text front back : List Char} {n : ℕ}

@[simp] theorem byteLen_nil : byteLen [] = 0 := rfl

@[simp] theorem byteLen_cons (c : Char) (text : List Char) :
    byteLen (c :: text) = c.utf8Size + byteLen text := rfl

@[simp] theorem byteLen_append (front back : List Char) :
    byteLen (front ++ back) = byteLen front + byteLen back := by
  simp [byteLen]

/-- A text is cut where the bytes before the cut are counted. -/
theorem splitAtByte_append (front back : List Char) :
    splitAtByte (front ++ back) (byteLen front) = some (front, back) := by
  induction front with
  | nil => cases back <;> rfl
  | cons c front ih =>
    obtain ⟨n, hn⟩ := Nat.exists_eq_add_of_le c.utf8Size_pos
    have hlen : byteLen (c :: front) = (byteLen front + n) + 1 := by
      rw [byteLen_cons]
      omega
    rw [List.cons_append, hlen, splitAtByte, if_pos (by omega)]
    have hrest : byteLen front + n + 1 - c.utf8Size = byteLen front := by omega
    rw [hrest, ih, Option.map_some]

theorem splitAtByte_eq_some_iff :
    splitAtByte text n = some (front, back) ↔ text = front ++ back ∧ byteLen front = n := by
  constructor
  · intro h
    induction text generalizing n front with
    | nil =>
      cases n with
      | zero =>
        obtain ⟨rfl, rfl⟩ := Prod.mk.inj (Option.some.inj h)
        exact ⟨rfl, rfl⟩
      | succ n => cases h
    | cons c text ih =>
      cases n with
      | zero =>
        obtain ⟨rfl, rfl⟩ := Prod.mk.inj (Option.some.inj h)
        exact ⟨rfl, rfl⟩
      | succ n =>
        rw [splitAtByte] at h
        split_ifs at h with hle
        obtain ⟨⟨front', back'⟩, hsplit, heq⟩ := Option.map_eq_some_iff.mp h
        obtain ⟨rfl, rfl⟩ := Prod.mk.inj heq
        obtain ⟨rfl, hlen⟩ := ih hsplit
        refine ⟨rfl, ?_⟩
        rw [byteLen_cons, hlen]
        omega
  · rintro ⟨rfl, rfl⟩
    exact splitAtByte_append front back

/-- The text between two positions, unless one of them is inside a character or behind the end, or
they are in the wrong order. -/
def slice (text : List Char) (start stop : ℕ) : Option (List Char) :=
  if start ≤ stop then
    (splitAtByte text start).bind fun p => (splitAtByte p.2 (stop - start)).map Prod.fst
  else none

theorem slice_eq_some_iff {mid : List Char} {start stop : ℕ} :
    slice text start stop = some mid ↔
      ∃ front back, text = front ++ mid ++ back ∧ byteLen front = start ∧
        start + byteLen mid = stop := by
  rw [slice]
  constructor
  · intro h
    split_ifs at h with hle
    obtain ⟨⟨front, rest⟩, hfront, hmid⟩ := Option.bind_eq_some_iff.mp h
    obtain ⟨⟨mid', back⟩, hback, rfl⟩ := Option.map_eq_some_iff.mp hmid
    obtain ⟨rfl, hstart⟩ := splitAtByte_eq_some_iff.mp hfront
    obtain ⟨hrest, hlen⟩ := splitAtByte_eq_some_iff.mp hback
    refine ⟨front, back, ?_, hstart, ?_⟩
    · dsimp only at hrest ⊢
      rw [hrest, List.append_assoc]
    · dsimp only
      omega
  · rintro ⟨front, back, rfl, rfl, rfl⟩
    rw [if_pos (Nat.le_add_right _ _), List.append_assoc, splitAtByte_append, Option.bind_some,
      Nat.add_sub_cancel_left, splitAtByte_append, Option.map_some]

/-- The text between what stands before and after it. -/
theorem slice_append (front mid back : List Char) :
    slice (front ++ mid ++ back) (byteLen front) (byteLen front + byteLen mid) = some mid :=
  slice_eq_some_iff.mpr ⟨front, back, rfl, rfl, rfl⟩

/-- How many bytes there are more than characters. -/
def extraBytes (text : List Char) : ℕ := (text.map fun c => c.utf8Size - 1).sum

@[simp] theorem extraBytes_nil : extraBytes [] = 0 := rfl

@[simp] theorem extraBytes_cons (c : Char) (text : List Char) :
    extraBytes (c :: text) = c.utf8Size - 1 + extraBytes text := rfl

@[simp] theorem extraBytes_append (front back : List Char) :
    extraBytes (front ++ back) = extraBytes front + extraBytes back := by
  simp [extraBytes]

theorem byteLen_eq (text : List Char) : byteLen text = text.length + extraBytes text := by
  induction text with
  | nil => rfl
  | cons c text ih =>
    have hpos := c.utf8Size_pos
    rw [byteLen_cons, extraBytes_cons, List.length_cons, ih]
    omega

theorem length_le_byteLen (text : List Char) : text.length ≤ byteLen text :=
  byteLen_eq text ▸ Nat.le_add_right _ _

end Theory
