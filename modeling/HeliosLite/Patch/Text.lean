import HeliosLite.Theory.ByteIndex
import HeliosLite.Theory.Lines
import HeliosLite.Theory.Splice

/-!
# Texts and positions in them

A text is a list of characters; a position in it counts bytes. A slice of a text exists where
both of its ends are between two characters.

## Main definitions

* `getFrom`, `getTo`, `getRange` — slices
* `find` — the position of the first occurrence of a text
* `sourceLines` — the lines of a text

## Main results

* `getRange_eq_some_iff` — a range stands between the texts before and after it
-/

namespace HeliosLite.Patch

open Theory

abbrev Text := List Char

/-- `text.get(start..)`. -/
def getFrom (text : Text) (start : ℕ) : Option Text := (splitAtByte text start).map Prod.snd

/-- `text.get(..stop)`. -/
def getTo (text : Text) (stop : ℕ) : Option Text := (splitAtByte text stop).map Prod.fst

/-- `text.get(start..stop)`. -/
def getRange (text : Text) (start stop : ℕ) : Option Text :=
  (getTo text stop).bind fun front => getFrom front start

/-- `text.find(word)`. -/
def find (text word : Text) : Option ℕ := (splitFirst word text).map fun p => byteLen p.1

/-- The lines of the segments between line feeds: what follows the last line feed is a line
unless it is empty, and only a carriage return with a line feed behind it is no part of its line. -/
def linesOf : List Text → List Text
  | [] => []
  | [last] => if last.isEmpty then [] else [last]
  | segment :: next :: segments => stripReturn segment :: linesOf (next :: segments)

/-- `text.split('\n')`. -/
def segments (text : Text) : List Text := text.splitOn '\n'

/-- `text.lines()`. -/
def sourceLines (text : Text) : List Text := linesOf (segments text)

variable {text front back : Text} {n : ℕ}

theorem getFrom_append (front back : Text) :
    getFrom (front ++ back) (byteLen front) = some back := by
  rw [getFrom, splitAtByte_append, Option.map_some]

theorem getTo_append (front back : Text) :
    getTo (front ++ back) (byteLen front) = some front := by
  rw [getTo, splitAtByte_append, Option.map_some]

theorem getTo_append_append (before word after : Text) :
    getTo (before ++ word ++ after) (byteLen before) = some before := by
  rw [List.append_assoc]
  exact getTo_append _ _

theorem getTo_eq_some_iff : getTo text n = some front ↔ ∃ back, text = front ++ back ∧
    byteLen front = n := by
  constructor
  · intro h
    obtain ⟨⟨front', back⟩, hsplit, rfl⟩ := Option.map_eq_some_iff.mp h
    exact ⟨back, splitAtByte_eq_some_iff.mp hsplit⟩
  · rintro ⟨back, rfl, rfl⟩
    exact getTo_append front back

theorem getFrom_eq_some_iff : getFrom text n = some back ↔ ∃ front, text = front ++ back ∧
    byteLen front = n := by
  constructor
  · intro h
    obtain ⟨⟨front, back'⟩, hsplit, rfl⟩ := Option.map_eq_some_iff.mp h
    exact ⟨front, splitAtByte_eq_some_iff.mp hsplit⟩
  · rintro ⟨front, rfl, rfl⟩
    exact getFrom_append front back

theorem getRange_append (before word after : Text) :
    getRange (before ++ word ++ after) (byteLen before) (byteLen (before ++ word)) =
      some word := by
  rw [getRange, getTo_append, Option.bind_some, getFrom_append]

/-- A range of a text stands between the text before it and the text after it. -/
theorem getRange_eq_some_iff {start stop : ℕ} {word : Text} :
    getRange text start stop = some word ↔ ∃ before after, text = before ++ word ++ after ∧
      byteLen before = start ∧ byteLen (before ++ word) = stop := by
  constructor
  · intro h
    obtain ⟨front, hto, hfrom⟩ := Option.bind_eq_some_iff.mp h
    obtain ⟨after, rfl, rfl⟩ := getTo_eq_some_iff.mp hto
    obtain ⟨before, rfl, rfl⟩ := getFrom_eq_some_iff.mp hfrom
    exact ⟨before, after, rfl, rfl, rfl⟩
  · rintro ⟨before, after, rfl, rfl, rfl⟩
    exact getRange_append before word after

end HeliosLite.Patch
