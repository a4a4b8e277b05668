import HeliosLite.Serde.Text

/-!
# Documents on lines of their own

A log keeps one document on each line. The compact text of a document has no line break in it,
since the control characters in its strings are escaped, and the text of an object stands between
braces: it begins neither with a blank nor with the mark of a comment.

## Main definitions

* `JsonLines` — a JSON library whose texts fit on a line
* `referenceLines` — the reference library is one
-/

namespace Serde

/-- A JSON library whose compact texts have no line break. -/
class JsonLines extends JsonText where
  newline_notMem_toText : ∀ v : Json, '\n' ∉ (toText v).toList
  /-- An object stands between braces. -/
  toText_obj : ∀ fields : List (String × Json), ∃ inner,
    (toText (.obj fields)).toList = '{' :: inner ++ ['}']

namespace Reference

/-! ### The reference library -/

theorem newline_notMem_toDigits (n : ℕ) : '\n' ∉ Nat.toDigits 10 n := by
  intro hmem
  have hdigit := Nat.isDigit_of_mem_toDigits (by decide) (by decide) hmem
  cases hdigit

theorem hexDigit_ne_newline {n : ℕ} (hn : n < 16) : hexDigit n ≠ '\n' := by
  have hall : ∀ m : Fin 16, hexDigit m ≠ '\n' := by decide
  exact hall ⟨n, hn⟩

theorem newline_notMem_escapeChar (c : Char) : '\n' ∉ escapeChar c := by
  unfold escapeChar
  split_ifs with hquote hslash hnewline hreturn htab hback hfeed hcontrol
  · decide
  · decide
  · decide
  · decide
  · decide
  · decide
  · decide
  · have hhigh := hexDigit_ne_newline (n := c.toNat / 16) (by omega)
    have hlow := hexDigit_ne_newline (n := c.toNat % 16) (by omega)
    simp [hhigh.symm, hlow.symm]
  · simpa using Ne.symm hnewline

theorem newline_notMem_stringText (s : String) : '\n' ∉ stringText s := by
  have hescaped : '\n' ∉ s.toList.flatMap escapeChar := by
    intro hmem
    obtain ⟨c, -, hc⟩ := List.mem_flatMap.mp hmem
    exact newline_notMem_escapeChar c hc
  simp [stringText, hescaped]

theorem newline_notMem_intText (n : ℤ) : '\n' ∉ intText n := by
  unfold intText
  split_ifs
  · simp [newline_notMem_toDigits]
  · exact newline_notMem_toDigits _

mutual

/-- The text of a document has no line break. -/
theorem newline_notMem_print : ∀ v : Json, '\n' ∉ print v
  | .null => by decide
  | .bool true => by decide
  | .bool false => by decide
  | .int n => newline_notMem_intText n
  | .float x => by simp [print, newline_notMem_toDigits]
  | .str s => newline_notMem_stringText s
  | .arr [] => by decide
  | .arr (v :: vs) => by
    simp [print, newline_notMem_print v, newline_notMem_printItems vs]
  | .obj [] => by decide
  | .obj ((k, v) :: fs) => by
    simp [print, newline_notMem_stringText k, newline_notMem_print v, newline_notMem_printFields fs]

theorem newline_notMem_printItems : ∀ vs : List Json, '\n' ∉ printItems vs
  | [] => by decide
  | v :: vs => by
    simp [printItems, newline_notMem_print v, newline_notMem_printItems vs]

theorem newline_notMem_printFields : ∀ fs : List (String × Json), '\n' ∉ printFields fs
  | [] => by decide
  | (k, v) :: fs => by
    simp [printFields, newline_notMem_stringText k, newline_notMem_print v,
      newline_notMem_printFields fs]

end

/-- The fields end with the closing brace. -/
theorem exists_printFields (fs : List (String × Json)) : ∃ inner,
    printFields fs = inner ++ ['}'] := by
  induction fs with
  | nil => exact ⟨[], rfl⟩
  | cons p fs ih =>
    obtain ⟨k, v⟩ := p
    obtain ⟨inner, hinner⟩ := ih
    refine ⟨',' :: (stringText k ++ ':' :: (print v ++ inner)), ?_⟩
    simp [printFields, hinner]

theorem print_obj (fields : List (String × Json)) : ∃ inner,
    print (.obj fields) = '{' :: inner ++ ['}'] := by
  cases fields with
  | nil => exact ⟨[], rfl⟩
  | cons p fs =>
    obtain ⟨k, v⟩ := p
    obtain ⟨inner, hinner⟩ := exists_printFields fs
    refine ⟨stringText k ++ ':' :: (print v ++ inner), ?_⟩
    simp [print, hinner]

theorem newline_notMem_toText (v : Json) : '\n' ∉ (toText v).toList := by
  rw [toText, String.toList_ofList]
  exact newline_notMem_print v

theorem toText_obj (fields : List (String × Json)) : ∃ inner,
    (toText (.obj fields)).toList = '{' :: inner ++ ['}'] := by
  rw [toText, String.toList_ofList]
  exact print_obj fields

end Reference

/-- The reference library prints on one line. -/
abbrev referenceLines : JsonLines :=
  { reference with
    newline_notMem_toText := Reference.newline_notMem_toText
    toText_obj := Reference.toText_obj }

end Serde
