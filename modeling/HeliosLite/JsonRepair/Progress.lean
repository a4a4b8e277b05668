import HeliosLite.JsonRepair.Scanner
import Mathlib.Data.List.TakeWhile

/-!
# How far the scanner gets

The scanner never moves back, and what it reads takes at least one character. Whitespace
is read to its end, so that an unquoted symbol behind it has a first character that is not
given back.

## Main results

* `Ahead.parseWhitespaceAndSkipComments`, `Ahead.skipEllipsis` — nothing moves back
* `atText_parseWhitespaceAndSkipComments` — no whitespace is left
* `past_parseNumber`, `past_parseKeywords`, `past_parseRegex` — what is read is not empty
* `settled_scan`, `scan_of_retryAtComma` — when a string is read again
-/

namespace HeliosLite.JsonRepairParser

/-- The second state is in the same text, at the same position or behind it. -/
def Ahead (p q : JsonRepairParser) : Prop := q.chars = p.chars ∧ p.i ≤ q.i

/-- The second state is in the same text, at least one character further. -/
def Past (p q : JsonRepairParser) : Prop :=
  q.chars = p.chars ∧ p.i < p.chars.length ∧ p.i < q.i

variable {p q r : JsonRepairParser}

theorem Ahead.refl (p : JsonRepairParser) : Ahead p p := ⟨rfl, le_rfl⟩

theorem Ahead.trans (h : Ahead p q) (h' : Ahead q r) : Ahead p r :=
  ⟨h'.1.trans h.1, h.2.trans h'.2⟩

theorem Past.ahead (h : Past p q) : Ahead p q := ⟨h.1, h.2.2.le⟩

theorem Past.trans_ahead (h : Past p q) (h' : Ahead q r) : Past p r :=
  ⟨h'.1.trans h.1, h.2.1, h.2.2.trans_le h'.2⟩

theorem Ahead.trans_past (h : Ahead p q) (h' : Past q r) : Past p r :=
  ⟨h'.1.trans h.1, h.2.trans_lt (h.1 ▸ h'.2.1), h.2.trans_lt h'.2.2⟩

theorem lt_length_of_currentChar {ch : Char} (h : p.currentChar = some ch) :
    p.i < p.chars.length :=
  (List.getElem?_eq_some_iff.mp h).1

/-- A state that has not moved has the same current character. -/
theorem Ahead.currentChar_eq (h : Ahead p q) (hi : q.i = p.i) :
    q.currentChar = p.currentChar := by
  rw [currentChar, currentChar, h.1, hi]

/-! ## Loops over positions -/

theorem le_skipWhile (cond : ℕ → Bool) (steps i : ℕ) : i ≤ skipWhile cond steps i := by
  induction steps generalizing i with
  | zero => exact le_rfl
  | succ steps ih =>
    rw [skipWhile]
    split_ifs
    · exact (Nat.le_succ i).trans (ih (i + 1))
    · exact le_rfl

theorem skipWhile_le (cond : ℕ → Bool) (steps i : ℕ) : skipWhile cond steps i ≤ i + steps := by
  induction steps generalizing i with
  | zero => exact le_rfl
  | succ steps ih =>
    rw [skipWhile]
    split_ifs
    · exact (ih (i + 1)).trans (by omega)
    · exact Nat.le_add_right i _

theorem le_advance (p : JsonRepairParser) (cond : Option Char → Bool) (i : ℕ) :
    i ≤ p.advance cond i :=
  le_skipWhile _ _ i

/-- A loop that moves starts inside the text. -/
theorem lt_length_of_lt_advance {cond : Option Char → Bool} {i : ℕ} (h : i < p.advance cond i) :
    i < p.chars.length := by
  have hle := skipWhile_le (fun j => cond p.chars[j]?) (p.chars.length - i) i
  rw [advance] at h
  omega

/-! ## Whitespace and comments -/

theorem Ahead.parseWhitespace (p : JsonRepairParser) (skipNewline : Bool) :
    Ahead p (p.parseWhitespace skipNewline) :=
  ⟨rfl, Nat.le_add_right p.i _⟩

theorem drop_length_takeWhile {α : Type*} (cond : α → Bool) (l : List α) :
    l.drop (l.takeWhile cond).length = l.dropWhile cond := by
  induction l with
  | nil => rfl
  | cons a l ih =>
    rw [List.takeWhile_cons, List.dropWhile_cons]
    split_ifs
    · exact ih
    · rfl

theorem currentChar_parseWhitespace {ch : Char} {skipNewline : Bool}
    (h : (p.parseWhitespace skipNewline).currentChar = some ch) :
    (isWhitespace ch skipNewline || isSpecialWhitespace ch) = false := by
  have hdrop : (p.parseWhitespace skipNewline).currentChar =
      ((p.chars.drop p.i).dropWhile fun c =>
        isWhitespace c skipNewline || isSpecialWhitespace c).head? := by
    rw [← drop_length_takeWhile, List.drop_drop, List.head?_drop]
    rfl
  rw [hdrop] at h
  have hnot := List.head?_dropWhile_not (fun c =>
    isWhitespace c skipNewline || isSpecialWhitespace c) (p.chars.drop p.i)
  rw [h] at hnot
  exact hnot

theorem Ahead.parseComment (h : p.parseComment = some q) : Ahead p q := by
  rw [JsonRepairParser.parseComment] at h
  split_ifs at h
  · cases h
    exact ⟨rfl, (le_skipWhile _ _ p.i).trans (Nat.le_add_right _ 2)⟩
  · cases h
    exact ⟨rfl, p.le_advance (· ≠ some '\n') p.i⟩

theorem Ahead.skipComments (skipNewline : Bool) (steps : ℕ) (p : JsonRepairParser) :
    Ahead p (skipComments skipNewline steps p) := by
  induction steps generalizing p with
  | zero => exact Ahead.refl p
  | succ steps ih =>
    rw [JsonRepairParser.skipComments]
    split
    · next q hq =>
      exact ((Ahead.parseComment hq).trans (Ahead.parseWhitespace q skipNewline)).trans (ih _)
    · exact Ahead.refl p

theorem Ahead.parseWhitespaceAndSkipComments (p : JsonRepairParser) (skipNewline : Bool) :
    Ahead p (p.parseWhitespaceAndSkipComments skipNewline) :=
  (Ahead.parseWhitespace p skipNewline).trans (Ahead.skipComments skipNewline _ _)

/-- A state whose current character is no whitespace. -/
def AtText (skipNewline : Bool) (p : JsonRepairParser) : Prop :=
  ∀ ch, p.currentChar = some ch → isWhitespace ch skipNewline = false

theorem atText_skipComments {skipNewline : Bool} (steps : ℕ) (h : AtText skipNewline p) :
    AtText skipNewline (skipComments skipNewline steps p) := by
  induction steps generalizing p with
  | zero => exact h
  | succ steps ih =>
    rw [JsonRepairParser.skipComments]
    split
    · next q hq =>
      apply ih
      intro ch hch
      exact (Bool.or_eq_false_iff.mp (currentChar_parseWhitespace hch)).1
    · exact h

/-- No whitespace is left. -/
theorem atText_parseWhitespaceAndSkipComments (p : JsonRepairParser) (skipNewline : Bool) :
    AtText skipNewline (p.parseWhitespaceAndSkipComments skipNewline) := by
  apply atText_skipComments
  intro ch hch
  exact (Bool.or_eq_false_iff.mp (currentChar_parseWhitespace hch)).1

theorem Ahead.skipCharacter (p : JsonRepairParser) (expected : Char) :
    Ahead p (p.skipCharacter expected) := by
  rw [JsonRepairParser.skipCharacter]
  split_ifs
  · exact ⟨rfl, Nat.le_succ p.i⟩
  · exact Ahead.refl p

theorem Ahead.parseCharacter (p : JsonRepairParser) (expected : Char) :
    Ahead p (p.parseCharacter expected).2 := by
  rw [JsonRepairParser.parseCharacter]
  split_ifs
  · exact ⟨rfl, Nat.le_succ p.i⟩
  · exact Ahead.refl p

theorem Ahead.stripLastOccurrenceWithRemaining (p : JsonRepairParser) (ch : Char)
    (stripRemaining : Bool) : Ahead p (p.stripLastOccurrenceWithRemaining ch stripRemaining) := by
  rw [JsonRepairParser.stripLastOccurrenceWithRemaining]
  split <;> exact ⟨rfl, le_rfl⟩

theorem Ahead.stripLastOccurrence (p : JsonRepairParser) (ch : Char) :
    Ahead p (p.stripLastOccurrence ch) :=
  Ahead.stripLastOccurrenceWithRemaining p ch false

/-- An ellipsis moves the parser; without one it stops before a character that is no
whitespace. -/
theorem skipEllipsis_cases (p : JsonRepairParser) :
    Ahead p p.skipEllipsis ∧ (p.skipEllipsis.i = p.i → AtText true p.skipEllipsis) := by
  rw [skipEllipsis]
  set q := p.parseWhitespaceAndSkipComments true with hq
  have hahead : Ahead p q := Ahead.parseWhitespaceAndSkipComments p true
  split_ifs
  · have hpast : Ahead { q with i := q.i + 3 }
        (({ q with i := q.i + 3 }.parseWhitespaceAndSkipComments true).skipCharacter ',') :=
      (Ahead.parseWhitespaceAndSkipComments _ true).trans (Ahead.skipCharacter _ ',')
    have hmoved : p.i + 3 ≤ q.i + 3 := Nat.add_le_add_right hahead.2 3
    refine ⟨⟨hpast.1.trans hahead.1, ?_⟩, fun hi => ?_⟩
    · exact (Nat.le_add_right p.i 3).trans (hmoved.trans hpast.2)
    · have hle := hmoved.trans hpast.2
      omega
  · exact ⟨hahead, fun _ => atText_parseWhitespaceAndSkipComments p true⟩

/-! ## What is read without a call -/

theorem past_of_currentChar {ch : Char} {i : ℕ} {output : List Char}
    (h : p.currentChar = some ch) (hi : p.i < i) :
    Past p { p with i := i, output := output } :=
  ⟨rfl, lt_length_of_currentChar h, hi⟩

/-- Where a number that begins at the parser may be read to. -/
def NumberEnd.Within (p : JsonRepairParser) : NumberEnd → Prop
  | .notNumber => True
  | .brokenOff i => p.i < p.chars.length ∧ p.i < i
  | .upTo i => p.i ≤ i ∧ (p.i < i → p.i < p.chars.length)

theorem NumberEnd.Within.bind {e : NumberEnd} {next : ℕ → NumberEnd} (h : e.Within p)
    (hnext : ∀ i, p.i ≤ i → (p.i < i → p.i < p.chars.length) → (next i).Within p) :
    (e.bind next).Within p := by
  cases e with
  | notNumber => trivial
  | brokenOff i => exact h
  | upTo i => exact hnext i h.1 h.2

theorem within_digitsAfter {i j : ℕ} (hi : p.i ≤ i) (hlt : i < p.chars.length) (hj : i < j) :
    (p.digitsAfter j).Within p := by
  have hstart : p.i < p.chars.length := hi.trans_lt hlt
  rw [digitsAfter]
  split_ifs
  · exact ⟨hstart, hi.trans_lt hj⟩
  · exact ⟨(hi.trans hj.le).trans (p.le_advance isDigit j), fun _ => hstart⟩
  · trivial

theorem lt_length_of_getElem? {α : Type*} {l : List α} {i : ℕ} {a : α} (h : l[i]? = some a) :
    i < l.length :=
  (List.getElem?_eq_some_iff.mp h).1

theorem within_integerEnd (p : JsonRepairParser) : (p.integerEnd p.i).Within p := by
  rw [integerEnd]
  split_ifs with h
  · exact within_digitsAfter le_rfl (lt_length_of_getElem? h) (Nat.lt_succ_self p.i)
  · exact ⟨p.le_advance isDigit p.i, lt_length_of_lt_advance⟩

theorem within_fractionEnd {i : ℕ} (hi : p.i ≤ i) (hlt : p.i < i → p.i < p.chars.length) :
    (p.fractionEnd i).Within p := by
  rw [fractionEnd]
  split_ifs with h
  · exact within_digitsAfter hi (lt_length_of_getElem? h) (Nat.lt_succ_self i)
  · exact ⟨hi, hlt⟩

theorem within_exponentEnd {i : ℕ} (hi : p.i ≤ i) (hlt : p.i < i → p.i < p.chars.length) :
    (p.exponentEnd i).Within p := by
  rw [exponentEnd]
  split_ifs with h
  · have hlength : i < p.chars.length := h.elim lt_length_of_getElem? lt_length_of_getElem?
    apply within_digitsAfter hi hlength
    split_ifs <;> omega
  · exact ⟨hi, hlt⟩

theorem past_parseNumber (h : p.parseNumber = some q) : Past p q := by
  have hwithin : (((p.integerEnd p.i).bind p.fractionEnd).bind p.exponentEnd).Within p :=
    ((within_integerEnd p).bind fun _ => within_fractionEnd).bind fun _ => within_exponentEnd
  rw [parseNumber] at h
  split at h
  · cases h
  · next i hend =>
    rw [hend] at hwithin
    cases h
    exact ⟨rfl, hwithin⟩
  · next i hend =>
    rw [hend] at hwithin
    split_ifs at h with hnumber
    cases h
    exact ⟨rfl, hwithin.2 hnumber.2, hnumber.2⟩

theorem past_parseKeywords (h : p.parseKeywords = some q) : Past p q := by
  obtain ⟨⟨name, value⟩, hmem, hread⟩ := List.exists_of_findSome?_eq_some h
  have hne : 0 < name.toList.length := by
    simp only [keywords, List.mem_cons, Prod.mk.injEq, List.not_mem_nil, or_false] at hmem
    rcases hmem with ⟨rfl, -⟩ | ⟨rfl, -⟩ | ⟨rfl, -⟩ | ⟨rfl, -⟩ | ⟨rfl, -⟩ | ⟨rfl, -⟩ <;> decide
  change p.parseKeyword name value = some q at hread
  rw [parseKeyword] at hread
  split_ifs at hread with hinitial
  cases hread
  have hle := (List.isPrefixOf_iff_prefix.mp hinitial).length_le
  rw [List.length_drop] at hle
  refine ⟨rfl, by omega, ?_⟩
  exact Nat.lt_add_of_pos_right hne

theorem past_parseRegex (h : p.parseRegex = some q) : Past p q := by
  rw [parseRegex] at h
  split_ifs at h with hslash
  cases h
  apply past_of_currentChar hslash
  have hle := le_skipWhile (fun j => p.chars[j]? != some '/' || p.chars[j - 1]? == some '\\')
    (p.chars.length - (p.i + 1)) (p.i + 1)
  split_ifs <;> omega

theorem past_functionCall (h : p.functionCall = some q) : Past p q := by
  rw [functionCall] at h
  split at h
  · next hstart =>
    have hname : p.i < p.chars.length := by
      cases hch : p.currentChar with
      | none => rw [hch] at hstart; cases hstart
      | some ch => exact lt_length_of_currentChar hch
    have hle := (p.le_advance isFunctionNameChar p.i).trans
      (p.le_advance (fun ch => ch.any (isWhitespace · true)) (p.advance isFunctionNameChar p.i))
    dsimp only at h
    split_ifs at h
    cases h
    exact ⟨rfl, hname, Nat.lt_succ_of_le hle⟩
  · cases h

/-! ## Symbols -/

theorem length_splitTrailing_pos {ch : Char} {text : List Char} (h : text.head? = some ch)
    (hch : isWhitespace ch true = false) : 0 < (splitTrailing text).1.length := by
  obtain ⟨rest, rfl⟩ := List.head?_eq_some_iff.mp h
  have hlt : ((ch :: rest).reverse.takeWhile (isWhitespace · true)).length <
      (ch :: rest).length := by
    have hreverse : (ch :: rest).reverse.length = (ch :: rest).length := List.length_reverse
    rw [← hreverse]
    have hle := (List.takeWhile_prefix (isWhitespace · true) (l := (ch :: rest).reverse)).length_le
    refine lt_of_le_of_ne hle fun hlength => ?_
    have hall := (List.takeWhile_prefix (isWhitespace · true)).eq_of_length hlength
    have hmem := List.mem_takeWhile_imp (hall ▸ List.mem_reverse.mpr List.mem_cons_self)
    rw [hch] at hmem
    cases hmem
  rw [splitTrailing, List.length_take]
  omega

theorem symbolEnd_lt_length {isKey : Bool} (h : p.i < p.symbolEnd isKey) :
    p.i < p.chars.length := by
  rw [symbolEnd] at h
  split_ifs at h with hurl
  · exact hurl.2.2.1
  · exact lt_length_of_lt_advance h

theorem unquotedSymbol_spec {isKey : Bool} (h : p.unquotedSymbol isKey = some q) :
    Ahead p q ∧ p.i < p.chars.length ∧ (AtText true p → p.i < q.i) := by
  rw [unquotedSymbol] at h
  dsimp only at h
  split_ifs at h with hlt
  cases h
  have hlength := symbolEnd_lt_length hlt
  set symbol := (splitTrailing (p.slice p.i (p.symbolEnd isKey))).1 with hsymbol
  set r : JsonRepairParser := { p with
    i := p.i + symbol.length
    output := p.output ++ symbolText isKey symbol } with hr
  have hahead : Ahead p r := ⟨rfl, Nat.le_add_right p.i _⟩
  refine ⟨hahead.trans (Ahead.skipCharacter r '"'), hlength, fun htext => ?_⟩
  have hhead : (p.slice p.i (p.symbolEnd isKey)).head? = some p.chars[p.i] := by
    rw [slice, List.head?_drop, List.getElem?_take_of_lt hlt, List.getElem?_eq_getElem hlength]
  have hpos := length_splitTrailing_pos hhead
    (htext _ (List.getElem?_eq_getElem hlength))
  have hmoved : p.i < r.i := Nat.lt_add_of_pos_right hpos
  exact hmoved.trans_le (Ahead.skipCharacter r '"').2

/-! ## Strings -/

/-- A pass that ends the string ends behind its start quote, and one that stops at delimiters
does not have the string read again. -/
def StringEnd.Settled (stopAtDelimiter : Bool) (i : ℕ) : StringEnd → Prop
  | .unfinished _ j | .closed _ j | .delimited _ j | .escapedComma _ j => i < j
  | .retryAtComma _ | .retryAtDelimiter => stopAtDelimiter = false
  | .failed _ => True

/-- A round goes on behind its position, or the pass ends as it should. -/
def StepSettled (stopAtDelimiter : Bool) (i j : ℕ) : StringStep → Prop
  | .inl (_, k) => j < k
  | .inr stop => stop.Settled stopAtDelimiter i

section Rounds

variable {i j : ℕ} {content : List Char} {quoteChar : Char} {skipEscapeChars stopAtDelimiter : Bool}
  {stopAtIndex : Option ℕ}

theorem settled_textEnd (h : i < j) :
    (p.textEnd stopAtDelimiter content j).Settled stopAtDelimiter i := by
  rw [textEnd]
  split_ifs with hretry
  · exact Bool.not_eq_true' _ |>.mp hretry.1
  · exact h

theorem settled_endQuoteStep (h : i < j) :
    StepSettled stopAtDelimiter i j (p.endQuoteStep stopAtDelimiter content j) := by
  rw [endQuoteStep]
  split_ifs with hlegitimate
  · exact h
  · have hdelimiter : stopAtDelimiter = false := by
      rw [isLegitimateEndQuote] at hlegitimate
      simp only [Bool.or_eq_true, not_or, Bool.not_eq_true] at hlegitimate
      exact hlegitimate.1.1.1.1
    dsimp only
    split_ifs
    · exact hdelimiter
    · exact hdelimiter
    · exact Nat.lt_succ_self j

theorem settled_delimiterStep (h : i < j) :
    StepSettled stopAtDelimiter i j (p.delimiterStep content j) := by
  have hle := p.le_advance isUrlCharAt j
  rw [delimiterStep]
  change i < _
  split_ifs
  · exact h.trans_le hle
  · exact h

theorem settled_unicodeStep (hj : j < p.chars.length) :
    StepSettled stopAtDelimiter i j (p.unicodeStep content j) := by
  rw [unicodeStep]
  split_ifs
  · exact Nat.lt_add_of_pos_right (by decide)
  · exact hj
  · trivial

theorem settled_escapeStep (h : i < j) (hj : j < p.chars.length) :
    StepSettled stopAtDelimiter i j (p.escapeStep skipEscapeChars content j) := by
  rw [escapeStep]
  split
  · exact Nat.lt_succ_self j
  · split_ifs
    · exact Nat.lt_add_of_pos_right (by decide)
    · exact h
    · exact settled_unicodeStep hj
    · exact Nat.lt_add_of_pos_right (by decide)

theorem settled_plainStep (ch : Char) :
    StepSettled stopAtDelimiter i j (p.plainStep content j ch) := by
  rw [plainStep]
  split_ifs
  · exact Nat.lt_succ_self j
  · exact Nat.lt_succ_self j
  · exact Nat.lt_succ_self j
  · trivial

theorem settled_stringStep (h : i < j) :
    StepSettled stopAtDelimiter i j
      (p.stringStep quoteChar skipEscapeChars stopAtDelimiter stopAtIndex content j) := by
  rw [stringStep]
  split
  · exact settled_textEnd h
  · next ch hch =>
    split_ifs
    · exact h
    · rw [characterStep]
      split_ifs
      · exact settled_endQuoteStep h
      · exact settled_delimiterStep h
      · exact settled_escapeStep h (lt_length_of_getElem? hch)
      · exact settled_plainStep ch

theorem le_skipEscape (p : JsonRepairParser) (skipEscapeChars : Bool) (i : ℕ) :
    i ≤ p.skipEscape skipEscapeChars i := by
  rw [skipEscape]
  split_ifs
  · exact Nat.le_succ i
  · exact le_rfl

theorem settled_scanString (steps : ℕ) (h : i < j) :
    (p.scanString quoteChar skipEscapeChars stopAtDelimiter stopAtIndex steps content j).Settled
      stopAtDelimiter i := by
  induction steps generalizing content j with
  | zero => exact settled_textEnd h
  | succ steps ih =>
    have hstep : StepSettled stopAtDelimiter i j
        (p.stringStep quoteChar skipEscapeChars stopAtDelimiter stopAtIndex content j) :=
      settled_stringStep h
    rw [scanString]
    split
    · next content' k hk =>
      rw [hk] at hstep
      exact ih ((h.trans hstep).trans_le (p.le_skipEscape skipEscapeChars k))
    · next stop hstop =>
      rw [hstop] at hstep
      exact hstep

/-- A stop index ends the pass there, or the pass goes as it does without one. -/
theorem scanString_stopAtIndex (index steps : ℕ) (content : List Char) (j : ℕ) :
    (∃ content', p.scanString quoteChar skipEscapeChars stopAtDelimiter (some index) steps
        content j = .unfinished content' index) ∨
      p.scanString quoteChar skipEscapeChars stopAtDelimiter (some index) steps content j =
        p.scanString quoteChar skipEscapeChars stopAtDelimiter none steps content j := by
  induction steps generalizing content j with
  | zero => exact .inr rfl
  | succ steps ih =>
    by_cases hstop : index = j ∧ p.chars[j]?.isSome
    · obtain ⟨rfl, hsome⟩ := hstop
      obtain ⟨ch, hch⟩ := Option.isSome_iff_exists.mp hsome
      refine .inl ⟨content, ?_⟩
      rw [scanString, stringStep, hch]
      dsimp only
      rw [if_pos rfl]
    · have hstep : p.stringStep quoteChar skipEscapeChars stopAtDelimiter (some index) content j =
          p.stringStep quoteChar skipEscapeChars stopAtDelimiter none content j := by
        rw [stringStep, stringStep]
        cases hch : p.chars[j]? with
        | none => rfl
        | some ch =>
          have hne : index ≠ j := fun heq => hstop ⟨heq, by rw [hch]; rfl⟩
          dsimp only
          rw [if_neg (by simpa using hne), if_neg (by simp)]
      rw [scanString, scanString, hstep]
      split
      · exact ih _ _
      · exact .inr rfl

end Rounds

/-- What ends the string ends it behind its start quote. -/
theorem settled_scan (p : JsonRepairParser) (skipEscapeChars stopAtDelimiter : Bool)
    (stopAtIndex : Option ℕ) :
    (p.scan skipEscapeChars stopAtDelimiter stopAtIndex).Settled stopAtDelimiter p.i :=
  settled_scanString _ (Nat.lt_succ_self p.i)

/-- A pass with a stop index that has the string read again does so for the comma for which
a pass without one does. -/
theorem scan_of_retryAtComma {skipEscapeChars stopAtDelimiter : Bool} {index k : ℕ}
    (h : p.scan skipEscapeChars stopAtDelimiter (some index) = .retryAtComma k) :
    p.scan skipEscapeChars stopAtDelimiter none = .retryAtComma k := by
  rcases p.scanString_stopAtIndex index (p.chars.length - (p.i + 1)) ['"'] (p.i + 1) with
    ⟨content, hstop⟩ | hsame
  · rw [scan, hstop] at h
    cases h
  · rw [scan, hsame] at h
    exact h

end HeliosLite.JsonRepairParser
