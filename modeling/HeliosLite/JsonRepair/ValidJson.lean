import HeliosLite.JsonRepair.Grammar
import HeliosLite.JsonRepair.Parser
import HeliosLite.JsonRepair.Progress
import Mathlib.Tactic.IntervalCases

/-!
# Valid documents

The repair parser copies a JSON document to its output as it stands: no repair applies to
text that the grammar admits. The proof follows the grammar. Every part of a document is
*consumed*: the position moves over it and the output grows by it.

## Main results

* `scanString_chars` — a valid string is read up to its end quote without a change
* `parseNumber_consume` — a valid number is read to its end
* `computes_part` — every part of a document is consumed
* `jsonRepair_document` — the value of a document is what is read from the document itself
-/

namespace HeliosLite.JsonRepairParser

open JsonGrammar Theory

variable {p q : JsonRepairParser} {w tail : List Char} {c : Char}

/-- The text that is left. -/
def rest (p : JsonRepairParser) : List Char := p.chars.drop p.i

/-- The text that is read is copied to the output. -/
def consume (p : JsonRepairParser) (w : List Char) : JsonRepairParser :=
  { p with
    i := p.i + w.length
    output := p.output ++ w }

theorem rest_consume (h : p.rest = w ++ tail) : (p.consume w).rest = tail := by
  have hdrop : (p.consume w).rest = p.rest.drop w.length := by
    rw [rest, rest, List.drop_drop]
    rfl
  rw [hdrop, h, List.drop_left]

@[simp] theorem consume_nil (p : JsonRepairParser) : p.consume [] = p := by
  rw [consume, List.append_nil]
  rfl

theorem consume_consume (p : JsonRepairParser) (v w : List Char) :
    (p.consume v).consume w = p.consume (v ++ w) := by
  simp only [consume, List.length_append, List.append_assoc, Nat.add_assoc]

theorem currentChar_eq (p : JsonRepairParser) : p.currentChar = p.rest.head? := by
  rw [currentChar, rest, List.head?_drop]

theorem lt_length_of_rest (h : p.rest = c :: tail) : p.i < p.chars.length := by
  apply lt_length_of_currentChar
  rw [currentChar_eq, h]
  rfl

theorem length_le_of_rest (h : p.rest = []) : p.chars.length ≤ p.i := List.drop_eq_nil_iff.mp h

theorem slice_rest (h : p.rest = w ++ tail) : p.slice p.i (p.i + w.length) = w := by
  have htake : p.slice p.i (p.i + w.length) = p.rest.take w.length := by
    rw [slice, rest, List.drop_take, Nat.add_sub_cancel_left]
  rw [htake, h, List.take_left]

/-! ## Whitespace -/

/-- The text goes on with something that is neither whitespace nor a comment. -/
def Stops (tail : List Char) : Prop :=
  ∀ c, tail.head? = some c →
    isWhitespace c true = false ∧ isSpecialWhitespace c = false ∧ c ≠ '/'

theorem isWhitespace_of_mem (hw : JsonGrammar.IsWhitespace w) (hc : c ∈ w) :
    isWhitespace c true = true := by
  rcases hw c hc with rfl | rfl | rfl | rfl <;> decide

theorem takeWhile_append {α : Type*} {cond : α → Bool} {l m : List α} (hl : ∀ a ∈ l, cond a)
    (hm : ∀ a, m.head? = some a → cond a = false) : (l ++ m).takeWhile cond = l := by
  rw [List.takeWhile_append_of_pos hl]
  cases m with
  | nil => rw [List.takeWhile_nil, List.append_nil]
  | cons a m => rw [List.takeWhile_cons_of_neg (by rw [hm a rfl]; decide), List.append_nil]

theorem parseWhitespace_consume {skipNewline : Bool} (h : p.rest = w ++ tail)
    (hw : ∀ c ∈ w, isWhitespace c skipNewline)
    (htail : ∀ c, tail.head? = some c →
      isWhitespace c skipNewline = false ∧ isSpecialWhitespace c = false) :
    p.parseWhitespace skipNewline = p.consume w := by
  have hread : ((p.chars.drop p.i).takeWhile fun ch =>
      isWhitespace ch skipNewline || isSpecialWhitespace ch) = w := by
    change (p.rest.takeWhile _) = w
    rw [h]
    apply takeWhile_append
    · intro c hc
      rw [hw c hc, Bool.true_or]
    · intro c hc
      rw [(htail c hc).1, (htail c hc).2, Bool.or_false]
  have hcopy : (w.map fun ch => if isWhitespace ch skipNewline then ch else ' ') = w :=
    (List.map_congr_left fun c hc => if_pos (hw c hc)).trans (List.map_id' w)
  rw [parseWhitespace, consume, hread, hcopy]

theorem skipComments_of_stops {skipNewline : Bool} (steps : ℕ)
    (h : p.currentChar ≠ some '/') : skipComments skipNewline steps p = p := by
  cases steps with
  | zero => rfl
  | succ steps =>
    have hcomment : p.parseComment = none := by
      rw [parseComment, if_neg fun hblock => h hblock.1, if_neg fun hline => h hline.1]
    rw [skipComments, hcomment]

/-- All whitespace is read, and copied. -/
theorem parseWhitespaceAndSkipComments_consume (h : p.rest = w ++ tail)
    (hw : JsonGrammar.IsWhitespace w) (htail : Stops tail) :
    p.parseWhitespaceAndSkipComments true = p.consume w := by
  have hread : p.parseWhitespace true = p.consume w :=
    parseWhitespace_consume h (fun c hc => isWhitespace_of_mem hw hc)
      fun c hc => ⟨(htail c hc).1, (htail c hc).2.1⟩
  have hcurrent : (p.consume w).currentChar ≠ some '/' := by
    intro hslash
    rw [currentChar_eq, rest_consume h] at hslash
    exact (htail _ hslash).2.2 rfl
  rw [parseWhitespaceAndSkipComments, hread]
  exact skipComments_of_stops _ hcurrent

/-- What may follow a string in a document. -/
def Follows (tail : List Char) : Prop :=
  ∀ c, tail.head? = some c → c = ',' ∨ c = ':' ∨ c = ']' ∨ c = '}'

theorem Follows.stops (h : Follows tail) : Stops tail := by
  intro c hc
  rcases h c hc with rfl | rfl | rfl | rfl <;> decide

/-- The text ends, or goes on with what ends a string and is not whitespace or a comment. -/
def Delimits (tail : List Char) : Prop :=
  ∀ c, tail.head? = some c → isDelimiter (some c) ∧ isWhitespace c true = false ∧
    isSpecialWhitespace c = false ∧ c ≠ '/'

theorem Follows.delimits (h : Follows tail) : Delimits tail := by
  intro c hc
  rcases h c hc with rfl | rfl | rfl | rfl <;> decide

theorem Delimits.stops (h : Delimits tail) : Stops tail := fun c hc => (h c hc).2

theorem isWhitespace_line (h : isWhitespace c true = false) : isWhitespace c false = false := by
  simp only [isWhitespace, if_true, Bool.or_eq_false_iff] at h
  simp only [isWhitespace, Bool.false_eq_true, if_false, Bool.or_eq_false_iff]
  exact ⟨⟨h.1.1.1, h.1.2⟩, h.2⟩

/-- The whitespace of the line is read, up to what follows or to a line break. -/
theorem parseWhitespaceAndSkipComments_line (h : p.rest = w ++ tail)
    (hw : JsonGrammar.IsWhitespace w) (htail : Delimits tail) :
    ∃ u v, w = u ++ v ∧ p.parseWhitespaceAndSkipComments false = p.consume u ∧
      ∀ c, (v ++ tail).head? = some c → isDelimiter (some c) := by
  set u := w.takeWhile (isWhitespace · false)
  set v := w.dropWhile (isWhitespace · false) with hv
  have hsplit : w = u ++ v := List.takeWhile_append_dropWhile.symm
  -- what is left of the whitespace begins with a line break
  have hline : ∀ c, v.head? = some c → c = '\n' := by
    intro c hc
    have hmem : c ∈ w := hsplit ▸ List.mem_append_right u (List.mem_of_mem_head? hc)
    have hnot := List.head?_dropWhile_not (isWhitespace · false) w
    rw [← hv, hc] at hnot
    rcases hw c hmem with rfl | rfl | rfl | rfl
    · cases hnot
    · rfl
    · cases hnot
    · cases hnot
  have hnext : ∀ c, (v ++ tail).head? = some c →
      isDelimiter (some c) ∧ isWhitespace c false = false ∧ isSpecialWhitespace c = false ∧
        c ≠ '/' := by
    intro c hc
    rw [List.head?_append] at hc
    cases hvc : v.head? with
    | some d =>
      rw [hvc] at hc
      obtain rfl := Option.some.inj hc
      obtain rfl := hline d hvc
      decide
    | none =>
      rw [hvc] at hc
      obtain ⟨hdelimiter, hspace, hspecial, hslash⟩ := htail c hc
      exact ⟨hdelimiter, isWhitespace_line hspace, hspecial, hslash⟩
  have hrest : p.rest = u ++ (v ++ tail) := by rw [h, hsplit, List.append_assoc]
  refine ⟨u, v, hsplit, ?_, fun c hc => (hnext c hc).1⟩
  have hread : p.parseWhitespace false = p.consume u :=
    parseWhitespace_consume hrest
      (fun c hc => List.mem_takeWhile_imp (p := (isWhitespace · false)) hc)
      fun c hc => ⟨(hnext c hc).2.1, (hnext c hc).2.2.1⟩
  have hcurrent : (p.consume u).currentChar ≠ some '/' := by
    intro hslash
    rw [currentChar_eq, rest_consume hrest] at hslash
    exact (hnext _ hslash).2.2.2 rfl
  rw [parseWhitespaceAndSkipComments, hread]
  exact skipComments_of_stops _ hcurrent

/-- A quote before whitespace and what may follow a string ends the string. -/
theorem isLegitimateEndQuote_of_delimits {ws : List Char} {i : ℕ} {output : List Char}
    (h : { p with i := i + 1, output := output }.rest = ws ++ tail)
    (hws : JsonGrammar.IsWhitespace ws) (htail : Delimits tail) :
    p.isLegitimateEndQuote false i := by
  have h' : { p with i := i + 1 }.rest = ws ++ tail := h
  obtain ⟨u, v, hsplit, hline, hdelimiter⟩ := parseWhitespaceAndSkipComments_line h' hws htail
  have hrest : ({ p with i := i + 1 }.consume u).rest = v ++ tail := by
    apply rest_consume
    rw [h', hsplit, List.append_assoc]
  rw [isLegitimateEndQuote, hline]
  simp only [Bool.or_eq_true, decide_eq_true_eq]
  cases hnext : v ++ tail with
  | nil => exact .inl (.inl (.inl (.inr (length_le_of_rest (hrest.trans hnext)))))
  | cons c l =>
    refine .inl (.inl (.inr ?_))
    rw [currentChar_eq, hrest, hnext]
    exact hdelimiter c (by rw [hnext]; rfl)

/-! ## Strings -/

section Strings

variable {content : List Char} {i : ℕ}

theorem getElem?_of_drop {α : Type*} {l m : List α} (h : l.drop i = m) (k : ℕ) :
    l[i + k]? = m[k]? := by
  rw [← h, List.getElem?_drop]

theorem stringStep_unescaped (h : p.chars[i]? = some c) (hc : ' ' ≤ c) (hquote : c ≠ '"')
    (hescape : c ≠ '\\') :
    p.stringStep '"' false false none content i = .inl (content ++ [c], i + 1) := by
  have hcontrol : isControlCharacter c = false := by
    have hval : 32 ≤ c.toNat := hc
    have hne : ∀ d : Char, d.toNat < 32 → c ≠ d := by
      rintro d hd rfl
      omega
    simp only [isControlCharacter, Bool.or_eq_false_iff, beq_eq_false_iff_ne]
    exact ⟨⟨⟨⟨hne _ (by decide), hne _ (by decide)⟩, hne _ (by decide)⟩, by omega⟩, by omega⟩
  have hvalid : isValidStringCharacter c = true := decide_eq_true hc
  have hend : getEndQuoteMatcher '"' c = false := beq_eq_false_iff_ne.mpr hquote
  rw [stringStep, h]
  simp only [characterStep, plainStep, hend, hescape, hquote, hcontrol, hvalid, reduceCtorEq,
    Bool.false_eq_true, false_and, if_true, if_false]

theorem stringStep_escaped (h : p.chars[i]? = some '\\') (hnext : p.chars[i + 1]? = some c)
    (hc : c ∈ escapes) :
    p.stringStep '"' false false none content i = .inl (content ++ ['\\', c], i + 2) := by
  have hcontains : ['"', '\\', '/', 'b', 'f', 'n', 'r', 't'].contains c = true :=
    List.contains_iff_mem.mpr hc
  rw [stringStep, h]
  change p.characterStep '"' false false content i '\\' = _
  change p.escapeStep false content i = _
  rw [escapeStep, hnext]
  exact if_pos hcontains

theorem isHex_of_isHexDigit (h : IsHexDigit c) : isHex c = true := by
  simp only [isHex, Bool.or_eq_true, Bool.and_eq_true, decide_eq_true_eq]
  rcases h with h | h | h
  · exact .inl (.inl h)
  · exact .inl (.inr h)
  · exact .inr h

theorem stringStep_unicode {digits : List Char}
    (h : p.chars.drop i = '\\' :: 'u' :: (digits ++ tail)) (hlength : digits.length = 4)
    (hdigits : ∀ d ∈ digits, IsHexDigit d) :
    p.stringStep '"' false false none content i =
      .inl (content ++ '\\' :: 'u' :: digits, i + 6) := by
  have hchar : p.chars[i]? = some '\\' := getElem?_of_drop h 0
  have hnext : p.chars[i + 1]? = some 'u' := getElem?_of_drop h 1
  have hbehind : p.chars.drop (i + 2) = digits ++ tail := by
    rw [← List.drop_drop, h]
    rfl
  have hread : ((p.chars.drop (i + 2)).take 4).takeWhile isHex = digits := by
    rw [hbehind, ← hlength, List.take_left, List.takeWhile_eq_self_iff]
    exact fun d hd => isHex_of_isHexDigit (hdigits d hd)
  have hsix : ('\\' :: 'u' :: digits).length = 6 := by
    rw [List.length_cons, List.length_cons, hlength]
  have hslice : p.slice i (i + 6) = '\\' :: 'u' :: digits := by
    rw [slice, List.drop_take, h, Nat.add_sub_cancel_left]
    exact (congrArg (List.take · _) hsix.symm).trans List.take_left
  rw [stringStep, hchar]
  change p.escapeStep false content i = _
  rw [escapeStep, hnext]
  change p.unicodeStep content i = _
  rw [unicodeStep, hread, hlength, hslice]
  rfl

/-- A round that reads a part of the string and the rounds that read the other part. -/
theorem scanString_step {steps : ℕ} {v w : List Char}
    (hstep : p.stringStep '"' false false none content i = .inl (content ++ v, i + v.length))
    (hread : p.scanString '"' false false none steps (content ++ v) (i + v.length) =
      .closed (content ++ v ++ w ++ ['"']) (i + v.length + w.length)) :
    p.scanString '"' false false none (steps + 1) content i =
      .closed (content ++ (v ++ w) ++ ['"']) (i + (v ++ w).length) := by
  have hskip : p.skipEscape false (i + v.length) = i + v.length :=
    if_neg fun h => Bool.false_ne_true h.1
  rw [scanString, hstep]
  dsimp only
  rw [hskip, hread, List.length_append, List.append_assoc content, Nat.add_assoc]

/-- A valid string is read up to its end quote without a change. -/
theorem scanString_chars (hw : IsChars w) {steps : ℕ} (hsteps : w.length < steps)
    (h : p.chars.drop i = w ++ '"' :: tail)
    (hlegitimate : p.isLegitimateEndQuote false (i + w.length)) :
    p.scanString '"' false false none steps content i =
      .closed (content ++ w ++ ['"']) (i + w.length) := by
  induction hw generalizing content i steps with
  | nil =>
    obtain ⟨steps, rfl⟩ := Nat.exists_eq_add_one_of_ne_zero (Nat.ne_zero_of_lt hsteps)
    have hchar : p.chars[i]? = some '"' := getElem?_of_drop h 0
    have hstep : p.stringStep '"' false false none content i =
        .inr (.closed (content ++ ['"']) i) := by
      rw [stringStep, hchar]
      change p.endQuoteStep false content i = _
      rw [endQuoteStep]
      exact if_pos hlegitimate
    rw [scanString, hstep, List.append_nil]
    rfl
  | @unescaped c w hc hquote hescape hw ih =>
    obtain ⟨steps, rfl⟩ := Nat.exists_eq_add_one_of_ne_zero (Nat.ne_zero_of_lt hsteps)
    have hdrop : p.chars.drop (i + 1) = w ++ '"' :: tail := by
      rw [← List.drop_drop, h]
      rfl
    rw [List.length_cons, Nat.add_comm w.length, ← Nat.add_assoc] at hlegitimate
    exact scanString_step (stringStep_unescaped (getElem?_of_drop h 0) hc hquote hescape)
      (ih (Nat.lt_of_succ_lt_succ hsteps) hdrop hlegitimate)
  | @escaped c w hc hw ih =>
    obtain ⟨steps, rfl⟩ := Nat.exists_eq_add_one_of_ne_zero (Nat.ne_zero_of_lt hsteps)
    have hdrop : p.chars.drop (i + 2) = w ++ '"' :: tail := by
      rw [← List.drop_drop, h]
      rfl
    have hlength : i + ('\\' :: c :: w).length = i + 2 + w.length := by
      rw [List.length_cons, List.length_cons]
      omega
    have hlt : w.length < steps := by
      rw [List.length_cons, List.length_cons] at hsteps
      omega
    rw [hlength] at hlegitimate
    exact scanString_step (stringStep_escaped (getElem?_of_drop h 0) (getElem?_of_drop h 1) hc)
      (ih hlt hdrop hlegitimate)
  | @unicode digits w hlength hdigits hw ih =>
    obtain ⟨steps, rfl⟩ := Nat.exists_eq_add_one_of_ne_zero (Nat.ne_zero_of_lt hsteps)
    have hsix : ('\\' :: 'u' :: digits).length = 6 := by
      rw [List.length_cons, List.length_cons, hlength]
    have hread : p.chars.drop i = '\\' :: 'u' :: (digits ++ (w ++ '"' :: tail)) := by
      rw [h, List.cons_append, List.cons_append, List.append_assoc]
    have hdrop : p.chars.drop (i + 6) = w ++ '"' :: tail := by
      rw [← List.drop_drop, hread, ← hsix]
      exact List.drop_left
    have htotal : ('\\' :: 'u' :: (digits ++ w)).length = 6 + w.length := by
      rw [List.length_cons, List.length_cons, List.length_append, hlength]
      omega
    have hlt : w.length < steps := by omega
    rw [htotal, ← Nat.add_assoc] at hlegitimate
    have hstep : p.stringStep '"' false false none content i = _ :=
      stringStep_unicode hread hlength hdigits
    rw [← hsix] at hstep hlegitimate hdrop
    exact scanString_step hstep (ih hlt hdrop hlegitimate)

end Strings

/-! ## Numbers -/

section Numbers

variable {i : ℕ} {digits : List Char}

theorem skipWhile_of_drop {cond : Option Char → Bool} {steps : ℕ} (hsteps : w.length ≤ steps)
    (h : p.chars.drop i = w ++ tail) (hw : ∀ c ∈ w, cond (some c))
    (htail : cond tail.head? = false) :
    skipWhile (fun j => cond p.chars[j]?) steps i = i + w.length := by
  induction w generalizing i steps with
  | nil =>
    have hchar : p.chars[i]? = tail.head? := by
      rw [← List.head?_drop, h]
      rfl
    cases steps with
    | zero => rfl
    | succ steps =>
      rw [skipWhile, hchar, htail]
      rfl
  | cons c w ih =>
    obtain ⟨steps, rfl⟩ := Nat.exists_eq_add_of_le' hsteps
    have hchar : p.chars[i]? = some c := getElem?_of_drop h 0
    have hdrop : p.chars.drop (i + 1) = w ++ tail := by
      rw [← List.drop_drop, h]
      rfl
    rw [List.length_cons, ← Nat.add_assoc, skipWhile, hchar, if_pos (hw c List.mem_cons_self),
      ih (Nat.le_add_left w.length steps) hdrop fun d hd => hw d (List.mem_cons_of_mem c hd)]
    omega

theorem advance_of_drop {cond : Option Char → Bool} (h : p.chars.drop i = w ++ tail)
    (hw : ∀ c ∈ w, cond (some c)) (htail : cond tail.head? = false) :
    p.advance cond i = i + w.length := by
  have hlength := congrArg List.length h
  rw [List.length_drop, List.length_append] at hlength
  exact skipWhile_of_drop (by omega) h hw htail

theorem not_atEndOfNumber (h : p.chars[i]? = some c) (hc : c.isDigit) :
    p.atEndOfNumber i = false := by
  have hlt := lt_length_of_getElem? h
  have hne : ∀ d : Char, d.isDigit = false → c ≠ d := by
    rintro d hd rfl
    rw [hd] at hc
    cases hc
  have hdelimiter : isDelimiter (some c) = false := by
    simp [isDelimiter, hne]
  have hspace : isWhitespace c true = false := by
    simp [isWhitespace, hne]
  rw [atEndOfNumber, h, hdelimiter]
  simp only [Option.getD_some, hspace, Bool.or_false, decide_eq_false_iff_not]
  omega

theorem digitsAfter_of_drop (h : p.chars.drop i = digits ++ tail) (hdigits : IsDigits digits)
    (htail : isDigit tail.head? = false) : p.digitsAfter i = .upTo (i + digits.length) := by
  obtain ⟨d, l, rfl⟩ := List.exists_cons_of_ne_nil hdigits.1
  have hchar : p.chars[i]? = some d := getElem?_of_drop h 0
  have hd := hdigits.2 d List.mem_cons_self
  rw [digitsAfter, not_atEndOfNumber hchar hd, hchar]
  simp only [Bool.false_eq_true, if_false]
  rw [if_pos (show isDigit (some d) from hd), advance_of_drop h (fun c hc => hdigits.2 c hc) htail]

theorem isDigits_of_isInteger (hw : IsInteger w) : IsDigits w := by
  cases hw with
  | zero => exact ⟨List.cons_ne_nil _ _, by simp⟩
  | @digits c w hc _ hw =>
    refine ⟨List.cons_ne_nil _ _, fun d hd => ?_⟩
    rcases List.mem_cons.mp hd with rfl | hd
    · exact hc
    · exact hw d hd

theorem integerEnd_of_rest {sign integer : List Char} (hsign : sign = [] ∨ sign = ['-'])
    (hinteger : IsInteger integer) (h : p.rest = sign ++ (integer ++ tail))
    (htail : isDigit tail.head? = false) :
    p.integerEnd p.i = .upTo (p.i + (sign ++ integer).length) := by
  have hdigits := isDigits_of_isInteger hinteger
  rcases hsign with rfl | rfl
  · obtain ⟨d, l, rfl⟩ := List.exists_cons_of_ne_nil hdigits.1
    have hchar : p.chars[p.i]? = some d := getElem?_of_drop h 0
    have hne : p.chars[p.i]? ≠ some '-' := by
      rw [hchar]
      rintro ⟨⟩
      exact absurd (hdigits.2 _ List.mem_cons_self) (by decide)
    have hdrop : p.chars.drop p.i = d :: l ++ tail := h
    rw [integerEnd, if_neg hne, advance_of_drop hdrop (fun c hc => hdigits.2 c hc) htail]
    rfl
  · have hchar : p.chars[p.i]? = some '-' := getElem?_of_drop h 0
    have hdrop : p.chars.drop (p.i + 1) = integer ++ tail := by
      rw [← List.drop_drop]
      change p.rest.drop 1 = _
      rw [h]
      rfl
    rw [integerEnd, if_pos hchar, digitsAfter_of_drop hdrop hdigits htail, List.length_append,
      List.length_singleton, Nat.add_assoc]

theorem fractionEnd_of_drop {fraction : List Char} (hfraction : IsFraction fraction)
    (h : p.chars.drop i = fraction ++ tail) (htail : isDigit tail.head? = false)
    (hpoint : tail.head? ≠ some '.') : p.fractionEnd i = .upTo (i + fraction.length) := by
  cases hfraction with
  | none =>
    have hchar : p.chars[i]? = tail.head? := by
      rw [← List.head?_drop, h]
      rfl
    rw [fractionEnd, hchar, if_neg hpoint]
    rfl
  | @some w hw =>
    have hchar : p.chars[i]? = some '.' := getElem?_of_drop h 0
    have hdrop : p.chars.drop (i + 1) = w ++ tail := by
      rw [← List.drop_drop, h]
      rfl
    rw [fractionEnd, if_pos hchar, digitsAfter_of_drop hdrop hw htail, List.length_cons]
    congr 1
    omega

theorem exponentEnd_of_drop {exponent : List Char} (hexponent : IsExponent exponent)
    (h : p.chars.drop i = exponent ++ tail) (htail : isDigit tail.head? = false)
    (hmark : tail.head? ≠ some 'e' ∧ tail.head? ≠ some 'E') :
    p.exponentEnd i = .upTo (i + exponent.length) := by
  cases hexponent with
  | none =>
    have hchar : p.chars[i]? = tail.head? := by
      rw [← List.head?_drop, h]
      rfl
    rw [exponentEnd, hchar, if_neg (not_or.mpr hmark)]
    rfl
  | @some e sign w he hsign hw =>
    have hchar : p.chars[i]? = some e := getElem?_of_drop h 0
    have hmark : p.chars[i]? = some 'e' ∨ p.chars[i]? = some 'E' := by
      rw [hchar]
      exact he.imp (congrArg some) (congrArg some)
    rw [exponentEnd, if_pos hmark]
    obtain ⟨d, l, rfl⟩ := List.exists_cons_of_ne_nil hw.1
    rcases hsign with rfl | rfl | rfl
    · have hnext : p.chars[i + 1]? = some d := getElem?_of_drop h 1
      have hdigit := hw.2 d List.mem_cons_self
      have hunsigned : ¬ (p.chars[i + 1]? = some '-' ∨ p.chars[i + 1]? = some '+') := by
        rw [hnext]
        rintro (⟨⟨⟩⟩ | ⟨⟨⟩⟩) <;> exact absurd hdigit (by decide)
      have hdrop : p.chars.drop (i + 1) = d :: l ++ tail := by
        rw [← List.drop_drop, h]
        rfl
      simp only [if_neg hunsigned]
      rw [digitsAfter_of_drop hdrop hw htail]
      congr 1
      simp only [List.length_cons, List.nil_append]
      omega
    all_goals
      have hnext := getElem?_of_drop h 1
      have hdrop : p.chars.drop (i + 2) = d :: l ++ tail := by
        rw [← List.drop_drop, h]
        rfl
      have hsigned : p.chars[i + 1]? = some '-' ∨ p.chars[i + 1]? = some '+' := by
        rw [hnext]
        simp
      simp only [if_pos hsigned]
      rw [digitsAfter_of_drop hdrop hw htail]
      congr 1
      simp only [List.length_cons, List.length_append, List.length_nil]
      omega

theorem length_pos_of_isNumber (hw : IsNumber w) : 0 < w.length := by
  obtain ⟨-, hinteger, -, -⟩ := hw
  have hpos := List.length_pos_iff.mpr (isDigits_of_isInteger hinteger).1
  simp only [List.length_append]
  omega

/-- No zero is in front of another digit. -/
theorem not_hasInvalidLeadingZero (hw : IsNumber w) : hasInvalidLeadingZero w = false := by
  obtain ⟨hsign, hinteger, hfraction, hexponent⟩ := hw
  rename_i sign integer fraction exponent
  have hmark : ∀ l : List Char, IsExponent l → isDigit l.head? = false := by
    rintro l (_ | ⟨rfl | rfl, -, -⟩) <;> rfl
  have hnext : isDigit (fraction ++ exponent).head? = false := by
    cases hfraction with
    | none => exact hmark exponent hexponent
    | some _ => rfl
  rcases hsign with rfl | rfl
  · cases hinteger with
    | zero =>
      have hsecond : (['0'] ++ (fraction ++ exponent))[1]? = (fraction ++ exponent).head? :=
        List.head?_eq_getElem?.symm
      rw [hasInvalidLeadingZero, List.nil_append, hsecond, hnext, Bool.and_false]
    | @digits c w hc hzero hw =>
      have hhead : (some c == some '0') = false :=
        beq_eq_false_iff_ne.mpr fun h => hzero (Option.some.inj h)
      rw [hasInvalidLeadingZero, List.nil_append, List.cons_append, List.head?_cons, hhead,
        Bool.and_false, Bool.false_and]
  · have hhead : (some '-' == some '0') = false := by decide
    rw [hasInvalidLeadingZero, List.cons_append, List.head?_cons, hhead, Bool.and_false,
      Bool.false_and]

/-- What may follow a number or a literal in a document. -/
def EndsToken (tail : List Char) : Prop :=
  ∀ c, tail.head? = some c → c ∈ [' ', '\n', '\t', '\r', ',', ':', ']', '}']

theorem Follows.endsToken {ws : List Char} (hws : JsonGrammar.IsWhitespace ws)
    (h : Follows tail) : EndsToken (ws ++ tail) := by
  intro c hc
  cases ws with
  | nil =>
    rcases h c hc with rfl | rfl | rfl | rfl <;> decide
  | cons d ws =>
    obtain rfl := Option.some.inj hc
    rcases hws d List.mem_cons_self with rfl | rfl | rfl | rfl <;> decide

theorem EndsToken.atEndOfNumber (h : EndsToken tail) (hdrop : p.chars.drop i = tail) :
    p.atEndOfNumber i = true := by
  rw [JsonRepairParser.atEndOfNumber, Bool.or_eq_true, Bool.or_eq_true]
  cases tail with
  | nil => exact .inl (.inl (decide_eq_true (List.drop_eq_nil_iff.mp hdrop)))
  | cons c tail =>
    have hchar : p.chars[i]? = some c := getElem?_of_drop hdrop 0
    have hends : ∀ d ∈ [' ', '\n', '\t', '\r', ',', ':', ']', '}'],
        isDelimiter (some d) = true ∨ isWhitespace d true = true :=
      List.forall_iff_forall_mem.mp (by decide)
    rw [hchar]
    exact (hends c (h c rfl)).elim (fun h => .inl (.inr h)) .inr

theorem EndsToken.head_ne (h : EndsToken tail) :
    isDigit tail.head? = false ∧ tail.head? ≠ some '.' ∧ tail.head? ≠ some 'e' ∧
      tail.head? ≠ some 'E' := by
  cases tail with
  | nil => decide
  | cons c tail =>
    have hends : ∀ d ∈ [' ', '\n', '\t', '\r', ',', ':', ']', '}'],
        isDigit (some d) = false ∧ some d ≠ some '.' ∧ some d ≠ some 'e' ∧ some d ≠ some 'E' :=
      List.forall_iff_forall_mem.mp (by decide)
    exact hends c (h c rfl)

theorem exponent_head_ne {exponent : List Char} (hexponent : IsExponent exponent)
    (h : EndsToken tail) :
    isDigit (exponent ++ tail).head? = false ∧ (exponent ++ tail).head? ≠ some '.' := by
  cases hexponent with
  | none => exact ⟨h.head_ne.1, h.head_ne.2.1⟩
  | some he hsign hw => rcases he with rfl | rfl <;> exact ⟨rfl, by simp⟩

/-- A valid number is read to its end. -/
theorem parseNumber_consume (hw : IsNumber w) (h : p.rest = w ++ tail) (htail : EndsToken tail) :
    p.parseNumber = some (p.consume w) := by
  have hvalid := not_hasInvalidLeadingZero hw
  have hpos := length_pos_of_isNumber hw
  have hslice := slice_rest h
  have hend : p.chars.drop (p.i + w.length) = tail := by
    rw [← List.drop_drop]
    change p.rest.drop w.length = tail
    rw [h, List.drop_left]
  have hread : ((p.integerEnd p.i).bind p.fractionEnd).bind p.exponentEnd =
      .upTo (p.i + w.length) := by
    obtain ⟨hsign, hinteger, hfraction, hexponent⟩ := hw
    rename_i sign integer fraction exponent
    have hmark := exponent_head_ne hexponent htail
    have hpoint : isDigit (fraction ++ (exponent ++ tail)).head? = false := by
      cases hfraction with
      | none => exact hmark.1
      | some _ => rfl
    have hrest : p.rest = sign ++ (integer ++ (fraction ++ (exponent ++ tail))) := by
      simpa only [List.append_assoc] using h
    have hfirst : p.chars.drop (p.i + (sign ++ integer).length) =
        fraction ++ (exponent ++ tail) := by
      rw [← List.drop_drop]
      change p.rest.drop _ = _
      rw [hrest, ← List.append_assoc, List.drop_left]
    have hsecond : p.chars.drop (p.i + (sign ++ integer).length + fraction.length) =
        exponent ++ tail := by
      rw [← List.drop_drop, hfirst, List.drop_left]
    rw [integerEnd_of_rest hsign hinteger hrest hpoint, NumberEnd.bind,
      fractionEnd_of_drop hfraction hfirst hmark.1 hmark.2, NumberEnd.bind,
      exponentEnd_of_drop hexponent hsecond htail.head_ne.1 htail.head_ne.2.2]
    simp only [List.length_append, Nat.add_assoc]
  rw [parseNumber, hread]
  dsimp only
  rw [if_pos ⟨htail.atEndOfNumber hend, Nat.lt_add_of_pos_right hpos⟩, hslice, hvalid]
  rfl

end Numbers

/-! ## Parts of a document -/

/-- The program computes an answer of a function and the state it leaves. -/
abbrev Reads {α : Type} (body : Calls → P α) (p : JsonRepairParser) (a : α)
    (q : JsonRepairParser) : Prop :=
  Computes (fun fuel => (body (calls false fuel) p : Option _)) (.ok (a, q))

theorem reads_concatenationLoop_end (h : p.currentChar ≠ some '+') :
    Reads (fun call => call.concatenationLoop) p () p := by
  apply Computes.succ _ rfl
  apply Computes.get_bind
  simp only [if_neg h]
  exact computes_pure

/-- A string is consumed with the whitespace behind it, and the loop goes on there. -/
theorem reads_parseString_of_loop {ws : List Char} (hw : IsChars w)
    (hws : JsonGrammar.IsWhitespace ws) (htail : Delimits tail)
    (h : p.rest = stringText w ++ (ws ++ tail))
    (hloop : Reads (fun call => call.concatenationLoop) (p.consume (stringText w ++ ws)) () q) :
    Reads (fun call => call.parseString false none) p true q := by
  have hquote : p.currentChar = some '"' := by
    rw [currentChar_eq, h]
    rfl
  have hisQuote : isQuote p.currentChar := by
    rw [hquote]
    decide
  set content := ['"'] ++ w ++ ['"'] with hcontent
  have hclosed : { p with i := p.i + 1 + w.length + 1, output := p.output ++ content } =
      p.consume (stringText w) := by
    rw [consume, stringText, hcontent, List.length_cons, List.length_append, List.length_singleton]
    congr 1
    omega
  have hrest : (p.consume (stringText w)).rest = ws ++ tail := rest_consume h
  obtain ⟨u, v, hsplit, hline, hdelimiter⟩ :=
    parseWhitespaceAndSkipComments_line hrest hws htail
  -- the end quote is legitimate, since a delimiter or the end of the text follows its line
  have hlegitimate : p.isLegitimateEndQuote false (p.i + 1 + w.length) :=
    isLegitimateEndQuote_of_delimits (hclosed ▸ hrest) hws htail
  have hdrop : p.chars.drop (p.i + 1) = w ++ '"' :: (ws ++ tail) := by
    rw [← List.drop_drop]
    change List.drop 1 p.rest = _
    rw [h, stringText, List.cons_append, List.append_assoc]
    rfl
  have hsteps : w.length < p.chars.length - (p.i + 1) := by
    have hlength := congrArg List.length hdrop
    rw [List.length_drop, List.length_append, List.length_cons] at hlength
    omega
  have hscan : p.scan false false none = .closed content (p.i + 1 + w.length) := by
    rw [scan, hquote]
    exact scanString_chars hw hsteps hdrop hlegitimate
  apply Computes.succ _ rfl
  have hbody : ∀ fuel, (calls false (fuel + 1)).parseString false none p =
      endString (calls false fuel) false none p (.closed content (p.i + 1 + w.length)) p := by
    intro fuel
    rw [← hscan]
    exact parseString_of_isQuote _ hisQuote
  simp only [hbody]
  apply Computes.set_bind
  rw [hclosed, hline]
  have hrest' : (p.consume (stringText w)).rest = u ++ (v ++ tail) := by
    rw [hrest, hsplit, List.append_assoc]
  have hv : JsonGrammar.IsWhitespace v := fun c hc => hws c (hsplit ▸ List.mem_append_right u hc)
  have hend : (p.consume (stringText w ++ ws)) =
      ((p.consume (stringText w)).consume u).consume v := by
    rw [consume_consume, consume_consume, hsplit]
  have hread : ((p.consume (stringText w)).consume u).parseWhitespaceAndSkipComments true =
      p.consume (stringText w ++ ws) :=
    (parseWhitespaceAndSkipComments_consume (rest_consume hrest') hv htail.stops).trans hend.symm
  have hstring : Reads parseConcatenatedString ((p.consume (stringText w)).consume u) () q := by
    apply Computes.modify_bind
    rw [hread]
    exact hloop
  exact hstring.bind computes_pure

/-- A string is consumed with the whitespace behind it. -/
theorem reads_parseString {ws : List Char} (hw : IsChars w) (hws : JsonGrammar.IsWhitespace ws)
    (htail : Follows tail) (h : p.rest = stringText w ++ (ws ++ tail)) :
    Reads (fun call => call.parseString false none) p true
      (p.consume (stringText w ++ ws)) := by
  apply reads_parseString_of_loop hw hws htail.delimits h
  have hrest : (p.consume (stringText w ++ ws)).rest = tail := by
    apply rest_consume
    rw [h, List.append_assoc]
  apply reads_concatenationLoop_end
  intro heq
  rw [currentChar_eq, hrest] at heq
  rcases htail _ heq with h | h | h | h <;> cases h

/-- The characters with which a number begins. -/
def numberStarters : List Char := ['-', '0', '1', '2', '3', '4', '5', '6', '7', '8', '9']

/-- The characters with which a value begins. -/
def starters : List Char := ['{', '[', '"', 't', 'f', 'n'] ++ numberStarters

theorem mem_numberStarters_of_isDigit (hc : c.isDigit) : c ∈ numberStarters := by
  have hrange : 48 ≤ c.toNat ∧ c.toNat ≤ 57 := by
    simpa [Char.isDigit, UInt32.le_iff_toNat_le] using hc
  have hofNat : c = Char.ofNat c.toNat := (Char.ofNat_toNat c).symm
  obtain ⟨hlow, hhigh⟩ := hrange
  rw [hofNat]
  generalize c.toNat = n at hlow hhigh
  interval_cases n <;> decide

/-- What begins with a value is no whitespace, comment, ellipsis or closing bracket. -/
theorem starters_spec : ∀ c ∈ starters,
    (isWhitespace c true = false ∧ isSpecialWhitespace c = false ∧ c ≠ '/') ∧ c ≠ '.' ∧ c ≠ ',' ∧
      c ≠ ']' ∧ c ≠ '}' :=
    List.forall_iff_forall_mem.mp (by decide)

theorem stops_of_mem_starters (hc : c ∈ starters) : Stops (c :: tail) := by
  intro d hd
  obtain rfl := Option.some.inj hd
  exact (starters_spec c hc).1

theorem exists_starter_of_isNumber (hw : IsNumber w) :
    ∃ c l, w = c :: l ∧ c ∈ numberStarters := by
  obtain ⟨hsign, hinteger, -, -⟩ := hw
  have hdigits := isDigits_of_isInteger hinteger
  obtain ⟨d, l, rfl⟩ := List.exists_cons_of_ne_nil hdigits.1
  rcases hsign with rfl | rfl
  · exact ⟨d, _, rfl, mem_numberStarters_of_isDigit (hdigits.2 d List.mem_cons_self)⟩
  · exact ⟨'-', _, rfl, by decide⟩

theorem eq_of_mem_literals (hw : w ∈ literals) :
    w = "true".toList ∨ w = "false".toList ∨ w = "null".toList := by
  simpa only [literals, List.mem_cons, List.not_mem_nil, or_false] using hw

theorem exists_starter_of_value (hw : IsPart .value w) : ∃ c l, w = c :: l ∧ c ∈ starters := by
  cases hw with
  | literal hw =>
    rcases eq_of_mem_literals hw with rfl | rfl | rfl
    · exact ⟨'t', _, rfl, by decide⟩
    · exact ⟨'f', _, rfl, by decide⟩
    · exact ⟨'n', _, rfl, by decide⟩
  | number hw =>
    obtain ⟨c, l, rfl, hc⟩ := exists_starter_of_isNumber hw
    exact ⟨c, l, rfl, List.mem_append_right _ hc⟩
  | string hw => exact ⟨'"', _, rfl, by decide⟩
  | emptyObject hu => exact ⟨'{', _, rfl, by decide⟩
  | object hm => exact ⟨'{', _, rfl, by decide⟩
  | emptyArray hu => exact ⟨'[', _, rfl, by decide⟩
  | array hm => exact ⟨'[', _, rfl, by decide⟩

/-- A part that is not a value begins with whitespace and then with a value or a key. -/
theorem exists_starter_of_element (hw : IsPart .element w) :
    ∃ u c l, w = u ++ c :: l ∧ JsonGrammar.IsWhitespace u ∧ c ∈ starters := by
  cases hw with
  | @element u v w hu hv hw =>
    obtain ⟨c, l, rfl, hc⟩ := exists_starter_of_value hv
    exact ⟨u, c, l ++ w, rfl, hu, hc⟩

theorem exists_starter_of_elements (hw : IsPart .elements w) :
    ∃ u c l, w = u ++ c :: l ∧ JsonGrammar.IsWhitespace u ∧ c ∈ starters := by
  cases hw with
  | single he => exact exists_starter_of_element he
  | @elements e m he hm =>
    obtain ⟨u, c, l, rfl, hu, hc⟩ := exists_starter_of_element he
    exact ⟨u, c, l ++ ',' :: m, by rw [List.append_assoc, List.cons_append], hu, hc⟩

theorem exists_starter_of_members (hw : IsPart .members w) :
    ∃ u c l, w = u ++ c :: l ∧ JsonGrammar.IsWhitespace u ∧ c ∈ starters := by
  cases hw with
  | @member u k w e hu hk hw he => exact ⟨u, '"', _, rfl, hu, by decide⟩
  | @members u k w e m hu hk hw he hm => exact ⟨u, '"', _, rfl, hu, by decide⟩

/-! ### Whitespace before a part -/

/-- Before a part of a document only whitespace is read. -/
theorem parseWhitespaceAndSkipComments_starter {u l : List Char} (h : p.rest = u ++ c :: l)
    (hu : JsonGrammar.IsWhitespace u) (hc : c ∈ starters) :
    p.parseWhitespaceAndSkipComments true = p.consume u :=
  parseWhitespaceAndSkipComments_consume h hu (stops_of_mem_starters hc)

theorem isWhitespace_nil : JsonGrammar.IsWhitespace [] := fun _ h => absurd h List.not_mem_nil

theorem parseWhitespaceAndSkipComments_self (h : Stops p.rest) :
    p.parseWhitespaceAndSkipComments true = p := by
  rw [parseWhitespaceAndSkipComments_consume (w := []) rfl isWhitespace_nil h, consume_nil]

/-- Whitespace that is read is not read again. -/
theorem parseWhitespaceAndSkipComments_twice {u l : List Char} (h : p.rest = u ++ c :: l)
    (hu : JsonGrammar.IsWhitespace u) (hc : c ∈ starters) :
    (p.parseWhitespaceAndSkipComments true).parseWhitespaceAndSkipComments true =
      p.parseWhitespaceAndSkipComments true := by
  rw [parseWhitespaceAndSkipComments_starter h hu hc]
  apply parseWhitespaceAndSkipComments_self
  rw [rest_consume h]
  exact stops_of_mem_starters hc

theorem skipEllipsis_starter {u l : List Char} (h : p.rest = u ++ c :: l)
    (hu : JsonGrammar.IsWhitespace u) (hc : c ∈ starters) : p.skipEllipsis = p.consume u := by
  have hdots : (p.consume u).currentChar ≠ some '.' := by
    rw [currentChar_eq, rest_consume h]
    exact fun heq => (starters_spec c hc).2.1 (Option.some.inj heq)
  rw [skipEllipsis, parseWhitespaceAndSkipComments_starter h hu hc]
  exact if_neg fun hellipsis => hdots hellipsis.1

theorem skipEllipsis_twice {u l : List Char} (h : p.rest = u ++ c :: l)
    (hu : JsonGrammar.IsWhitespace u) (hc : c ∈ starters) :
    (p.parseWhitespaceAndSkipComments true).skipEllipsis = p.skipEllipsis := by
  rw [skipEllipsis, parseWhitespaceAndSkipComments_twice h hu hc, skipEllipsis]

/-! ### Values -/

section Values

theorem reads_attempt {scanner : JsonRepairParser → Option JsonRepairParser}
    (h : scanner p = some q) : Reads (fun _ => attempt scanner) p true q := by
  apply Computes.get_bind
  simp only [h]
  exact computes_pure

theorem reads_attempt_none {scanner : JsonRepairParser → Option JsonRepairParser}
    (h : scanner p = none) : Reads (fun _ => attempt scanner) p false p := by
  apply Computes.get_bind
  simp only [h]
  exact computes_pure

theorem reads_parseBrackets_false {opening closing : Char} {loop : Calls → P Unit}
    (h : p.currentChar ≠ some opening) :
    Reads (fun call => parseBrackets opening closing (loop call)) p false p := by
  apply Computes.get_bind
  simp only [if_neg h]
  exact computes_pure

theorem reads_parseString_false (h : p.rest = c :: tail) (hescape : c ≠ '\\')
    (hquote : isQuote (some c) = false) :
    Reads (fun call => call.parseString false none) p false p := by
  have hchar : p.currentChar = some c := by
    rw [currentChar_eq, h]
    rfl
  have hdrop : p.dropEscape = p := by
    apply if_neg
    rw [hchar]
    exact fun heq => hescape (Option.some.inj heq)
  apply Computes.succ _ rfl
  apply Computes.get_bind
  simp only [hdrop, hchar, hquote, Bool.false_eq_true, if_false]
  exact computes_pure

/-- The alternatives before numbers are not taken. -/
theorem reads_parseAlternatives {r : Except Stop (Bool × JsonRepairParser)}
    (h : p.rest = c :: tail) (hc : c ≠ '{' ∧ c ≠ '[' ∧ c ≠ '\\' ∧ isQuote (some c) = false)
    (hread : Computes (fun fuel => ((attempt parseNumber <||> attempt parseKeywords <||>
      parseUnquotedString (calls false fuel) false <||> attempt parseRegex) p : Option _)) r) :
    Computes (fun fuel => (parseAlternatives (calls false fuel) p : Option _)) r := by
  have hne : ∀ d, c ≠ d → p.currentChar ≠ some d := by
    intro d hd heq
    rw [currentChar_eq, h] at heq
    exact hd (Option.some.inj heq)
  have hobject : Reads parseObject p false p := reads_parseBrackets_false (hne _ hc.1)
  have harray : Reads parseArray p false p := reads_parseBrackets_false (hne _ hc.2.1)
  apply Computes.orElse_false hobject
  apply Computes.orElse_false harray
  exact Computes.orElse_false (reads_parseString_false h hc.2.2.1 hc.2.2.2) hread

theorem reads_number (hw : IsNumber w) (h : p.rest = w ++ tail) (htail : EndsToken tail) :
    Reads parseAlternatives p true (p.consume w) := by
  have hnumber := parseNumber_consume hw h htail
  obtain ⟨c, l, rfl, hc⟩ := exists_starter_of_isNumber hw
  have hspec : ∀ d ∈ numberStarters,
      d ≠ '{' ∧ d ≠ '[' ∧ d ≠ '\\' ∧ isQuote (some d) = false :=
      List.forall_iff_forall_mem.mp (by decide)
  exact reads_parseAlternatives h (hspec c hc) (reads_attempt hnumber).orElse_true

/-- A literal is no number. -/
theorem parseNumber_literal (hw : w ∈ literals) (h : p.rest = w ++ tail) :
    p.parseNumber = none := by
  have hspec : ∀ v ∈ literals, ∃ d, v.head? = some d ∧ isDigit (some d) = false ∧ d ≠ '-' ∧
      d ≠ '.' ∧ d ≠ 'e' ∧ d ≠ 'E' ∧ isDelimiter (some d) = false ∧ isWhitespace d true = false := by
    intro v hv
    rcases eq_of_mem_literals hv with rfl | rfl | rfl <;> exact ⟨_, rfl, by decide⟩
  obtain ⟨d, hd, hdigit, hminus, hpoint, hmark, hmark', hdelimiter, hspace⟩ := hspec w hw
  obtain ⟨l, rfl⟩ := List.head?_eq_some_iff.mp hd
  have hchar : p.chars[p.i]? = some d := getElem?_of_drop h 0
  have hlt : ¬ p.chars.length ≤ p.i := Nat.not_le_of_lt (lt_length_of_getElem? hchar)
  have hadvance : p.advance isDigit p.i = p.i := by
    have hnone : p.advance isDigit p.i = p.i + ([] : List Char).length :=
      advance_of_drop h (fun _ hc => absurd hc List.not_mem_nil) hdigit
    exact hnone
  have hend : p.atEndOfNumber p.i = false := by
    rw [atEndOfNumber, hchar, hdelimiter, Option.getD_some, hspace, decide_eq_false hlt]
    rfl
  have hread : ((p.integerEnd p.i).bind p.fractionEnd).bind p.exponentEnd = .upTo p.i := by
    rw [integerEnd, hchar, if_neg (by simpa using hminus), hadvance, NumberEnd.bind, fractionEnd,
      hchar, if_neg (by simpa using hpoint), NumberEnd.bind, exponentEnd, hchar,
      if_neg (by simpa using ⟨hmark, hmark'⟩)]
  rw [parseNumber, hread]
  exact if_neg fun hnumber => (lt_irrefl _ hnumber.2).elim

theorem parseKeyword_consume {name : String} (h : p.rest = name.toList ++ tail) :
    p.parseKeyword name name = some (p.consume name.toList) := by
  have hinitial : name.toList.isPrefixOf (p.chars.drop p.i) := by
    change name.toList.isPrefixOf p.rest
    rw [h, List.isPrefixOf_iff_prefix]
    exact List.prefix_append _ _
  rw [parseKeyword, if_pos hinitial]
  rfl

theorem parseKeyword_none {name value : String} {d : Char} (h : p.rest = c :: tail)
    (hname : name.toList.head? = some d) (hne : c ≠ d) : p.parseKeyword name value = none := by
  obtain ⟨l, hl⟩ := List.head?_eq_some_iff.mp hname
  rw [parseKeyword, hl]
  apply if_neg
  change ¬ (d :: l).isPrefixOf p.rest = true
  rw [h, List.isPrefixOf_iff_prefix, List.cons_prefix_cons]
  exact fun hinitial => hne hinitial.1.symm

theorem parseKeywords_literal (hw : w ∈ literals) (h : p.rest = w ++ tail) :
    p.parseKeywords = some (p.consume w) := by
  rcases eq_of_mem_literals hw with rfl | rfl | rfl
  · simp only [parseKeywords, keywords, List.findSome?_cons, parseKeyword_consume h]
  · have htrue : p.parseKeyword "true" "true" = none := parseKeyword_none h rfl (by decide)
    simp only [parseKeywords, keywords, List.findSome?_cons, htrue, parseKeyword_consume h]
  · have htrue : p.parseKeyword "true" "true" = none := parseKeyword_none h rfl (by decide)
    have hfalse : p.parseKeyword "false" "false" = none := parseKeyword_none h rfl (by decide)
    simp only [parseKeywords, keywords, List.findSome?_cons, htrue, hfalse,
      parseKeyword_consume h]

theorem reads_literal (hw : w ∈ literals) (h : p.rest = w ++ tail) :
    Reads parseAlternatives p true (p.consume w) := by
  have hnumber := parseNumber_literal hw h
  have hkeyword := parseKeywords_literal hw h
  have hspec : ∀ v ∈ literals, ∃ d l, v = d :: l ∧ d ≠ '{' ∧ d ≠ '[' ∧ d ≠ '\\' ∧
      isQuote (some d) = false := by
    intro v hv
    rcases eq_of_mem_literals hv with rfl | rfl | rfl <;> exact ⟨_, _, rfl, by decide⟩
  obtain ⟨d, l, rfl, hd⟩ := hspec w hw
  apply reads_parseAlternatives h hd
  apply Computes.orElse_false (reads_attempt_none hnumber)
  exact (reads_attempt hkeyword).orElse_true

/-- An opening bracket is consumed with the whitespace behind it. -/
theorem openBracket_eq {bracket : Char} {u l : List Char} (h : p.rest = bracket :: (u ++ c :: l))
    (hu : JsonGrammar.IsWhitespace u) (hstops : Stops (c :: l)) (hcomma : c ≠ ',') :
    p.openBracket bracket = (p.consume [bracket]).consume u := by
  have hrest : (p.consume [bracket]).rest = u ++ c :: l := rest_consume h
  have hread : (p.consume [bracket]).parseWhitespaceAndSkipComments true =
      (p.consume [bracket]).consume u := parseWhitespaceAndSkipComments_consume hrest hu hstops
  have hcurrent : ((p.consume [bracket]).consume u).currentChar ≠ some ',' := by
    rw [currentChar_eq, rest_consume hrest]
    exact fun heq => hcomma (Option.some.inj heq)
  rw [openBracket]
  change (if ((p.consume [bracket]).parseWhitespaceAndSkipComments true).currentChar = some ','
    then _ else (p.consume [bracket]).parseWhitespaceAndSkipComments true) = _
  rw [hread, if_neg hcurrent]

/-- Brackets are consumed with what their loop consumes. -/
theorem reads_parseBrackets {opening closing : Char} {loop : Calls → P Unit} {m u l : List Char}
    (hp : p.rest = opening :: (m ++ closing :: tail)) (hm : m ++ closing :: tail = u ++ c :: l)
    (hu : JsonGrammar.IsWhitespace u) (hstops : Stops (c :: l)) (hcomma : c ≠ ',')
    (hloop : Reads loop ((p.consume [opening]).consume u) () ((p.consume [opening]).consume m)) :
    Reads (fun call => parseBrackets opening closing (loop call)) p true
      (p.consume (opening :: (m ++ [closing]))) := by
  have hopen : p.currentChar = some opening := by
    rw [currentChar_eq, hp]
    rfl
  have hread := openBracket_eq (hm ▸ hp) hu hstops hcomma
  have hrest : ((p.consume [opening]).consume m).rest = closing :: tail :=
    rest_consume (rest_consume hp)
  have hclosing : ((p.consume [opening]).consume m).currentChar = some closing := by
    rw [currentChar_eq, hrest]
    rfl
  have hclose : ((p.consume [opening]).consume m).closeBracket closing =
      p.consume (opening :: (m ++ [closing])) := by
    rw [closeBracket, if_pos hclosing]
    change ((p.consume [opening]).consume m).consume [closing] = _
    rw [consume_consume, consume_consume]
    rfl
  apply Computes.get_bind
  simp only [if_pos hopen]
  apply Computes.set_bind
  rw [hread]
  apply Computes.bind hloop
  apply Computes.modify_bind
  rw [hclose]
  exact computes_pure

/-- A loop that stands before its closing bracket ends. -/
theorem reads_objectLoop_end {initial : Bool} (h : p.rest = '}' :: tail) :
    Reads (fun call => call.objectLoop initial) p () p := by
  have hchar : p.currentChar = some '}' := by
    rw [currentChar_eq, h]
    rfl
  have hguard : ¬ (p.i < p.chars.length ∧ p.currentChar ≠ some '}') := fun hg => hg.2 hchar
  apply Computes.succ _ rfl
  apply Computes.get_bind
  simp only [if_neg hguard]
  exact computes_pure

theorem reads_arrayLoop_end {initial : Bool} (h : p.rest = ']' :: tail) :
    Reads (fun call => call.arrayLoop initial) p () p := by
  have hchar : p.currentChar = some ']' := by
    rw [currentChar_eq, h]
    rfl
  have hguard : ¬ (p.i < p.chars.length ∧ p.currentChar ≠ some ']') := fun hg => hg.2 hchar
  apply Computes.succ _ rfl
  apply Computes.get_bind
  simp only [if_neg hguard]
  exact computes_pure

theorem parseCharacter_consume (h : p.rest = c :: tail) :
    p.parseCharacter c = (true, p.consume [c]) := by
  have hchar : p.currentChar = some c := by
    rw [currentChar_eq, h]
    rfl
  rw [parseCharacter, if_pos hchar]
  rfl

theorem commaStep_consume (h : p.rest = ',' :: tail) : p.commaStep = p.consume [','] := by
  rw [commaStep, parseCharacter_consume h]

theorem stops_of_rest (h : p.rest = c :: tail) (hstops : Stops (c :: tail)) :
    p.parseWhitespaceAndSkipComments true = p :=
  parseWhitespaceAndSkipComments_self (h ▸ hstops)

end Values

/-! ### The induction over the grammar -/

/-- What it means for the parser to consume a part. A part other than a value may be reached
with the whitespace before it already read. -/
def Consumed : Part → List Char → Prop
  | .value, w => ∀ (p : JsonRepairParser) (ws tail : List Char),
      p.rest = w ++ (ws ++ tail) → JsonGrammar.IsWhitespace ws → Follows tail →
      ∃ q, Reads parseAlternatives p true q ∧
        q.parseWhitespaceAndSkipComments true = p.consume (w ++ ws)
  | .element, w => ∀ (p p₀ : JsonRepairParser) (tail : List Char),
      p.rest = w ++ tail → Follows tail →
      p₀.parseWhitespaceAndSkipComments true = p.parseWhitespaceAndSkipComments true →
      Reads (fun call => call.parseValue) p₀ true (p.consume w)
  | .members, w => ∀ (p p₀ : JsonRepairParser) (initial : Bool) (tail : List Char),
      p.rest = w ++ '}' :: tail → (p₀.objectComma initial).skipEllipsis = p.skipEllipsis →
      (p₀.i < p₀.chars.length ∧ p₀.currentChar ≠ some '}') →
      Reads (fun call => call.objectLoop initial) p₀ () (p.consume w)
  | .elements, w => ∀ (p p₀ : JsonRepairParser) (initial : Bool) (tail : List Char),
      p.rest = w ++ ']' :: tail → (p₀.arrayComma initial).skipEllipsis = p.skipEllipsis →
      (p₀.i < p₀.chars.length ∧ p₀.currentChar ≠ some ']') →
      Reads (fun call => call.arrayLoop initial) p₀ () (p.consume w)

section Induction

variable {u v k e m : List Char}

/-- The state behind a value that reads no whitespace. -/
theorem consumed_of_reads {ws : List Char} (h : p.rest = w ++ (ws ++ tail))
    (hws : JsonGrammar.IsWhitespace ws) (htail : Follows tail)
    (hread : Reads parseAlternatives p true (p.consume w)) :
    ∃ q, Reads parseAlternatives p true q ∧
      q.parseWhitespaceAndSkipComments true = p.consume (w ++ ws) := by
  refine ⟨p.consume w, hread, ?_⟩
  rw [parseWhitespaceAndSkipComments_consume (rest_consume h) hws htail.stops, consume_consume]

theorem consumed_string (hw : IsChars w) : Consumed .value (stringText w) := by
  intro p ws tail h hws htail
  have hne : ∀ d, '"' ≠ d → p.currentChar ≠ some d := by
    intro d hd heq
    rw [currentChar_eq, h] at heq
    exact hd (Option.some.inj heq)
  refine ⟨p.consume (stringText w ++ ws), ?_, ?_⟩
  · have hobject : Reads parseObject p false p := reads_parseBrackets_false (hne _ (by decide))
    have harray : Reads parseArray p false p := reads_parseBrackets_false (hne _ (by decide))
    apply Computes.orElse_false hobject
    apply Computes.orElse_false harray
    exact (reads_parseString hw hws htail h).orElse_true
  · apply parseWhitespaceAndSkipComments_self
    have hrest : (p.consume (stringText w ++ ws)).rest = tail := by
      apply rest_consume
      rw [h, List.append_assoc]
    rw [hrest]
    exact htail.stops

theorem stops_closing {closing : Char} (h : closing = '}' ∨ closing = ']') :
    Stops (closing :: tail) := by
  intro c hc
  obtain rfl := Option.some.inj hc
  rcases h with rfl | rfl <;> decide

theorem reads_object (h : Reads parseObject p true q) : Reads parseAlternatives p true q :=
  h.orElse_true

theorem reads_array (hp : p.rest = '[' :: tail) (h : Reads parseArray p true q) :
    Reads parseAlternatives p true q := by
  have hne : p.currentChar ≠ some '{' := by
    rw [currentChar_eq, hp]
    exact fun heq => by cases heq
  have hobject : Reads parseObject p false p := reads_parseBrackets_false hne
  apply Computes.orElse_false hobject
  exact h.orElse_true

theorem consumed_emptyObject (hu : JsonGrammar.IsWhitespace u) :
    Consumed .value ('{' :: (u ++ ['}'])) := by
  intro p ws tail h hws htail
  have hp : p.rest = '{' :: (u ++ '}' :: (ws ++ tail)) := by
    rw [h, List.cons_append, List.append_assoc]
    rfl
  have hrest : ((p.consume ['{']).consume u).rest = '}' :: (ws ++ tail) :=
    rest_consume (rest_consume hp)
  apply consumed_of_reads h hws htail
  apply reads_object
  exact reads_parseBrackets hp rfl hu (stops_closing (.inl rfl)) (by decide)
    (reads_objectLoop_end hrest)

theorem consumed_emptyArray (hu : JsonGrammar.IsWhitespace u) :
    Consumed .value ('[' :: (u ++ [']'])) := by
  intro p ws tail h hws htail
  have hp : p.rest = '[' :: (u ++ ']' :: (ws ++ tail)) := by
    rw [h, List.cons_append, List.append_assoc]
    rfl
  have hrest : ((p.consume ['[']).consume u).rest = ']' :: (ws ++ tail) :=
    rest_consume (rest_consume hp)
  apply consumed_of_reads h hws htail
  apply reads_array hp
  exact reads_parseBrackets hp rfl hu (stops_closing (.inr rfl)) (by decide)
    (reads_arrayLoop_end hrest)

/-- The loop of a bracket is entered with the whitespace before its first part read. -/
theorem enters_loop {opening : Char} {u l : List Char} (h : p.rest = opening :: (u ++ c :: l))
    (hu : JsonGrammar.IsWhitespace u) (hc : c ∈ starters) :
    ((p.consume [opening]).consume u).skipEllipsis = (p.consume [opening]).skipEllipsis ∧
      ((p.consume [opening]).consume u).i < p.chars.length ∧
      ((p.consume [opening]).consume u).currentChar = some c := by
  have hrest : (p.consume [opening]).rest = u ++ c :: l := rest_consume h
  have hrest' := rest_consume hrest
  refine ⟨?_, lt_length_of_rest hrest', ?_⟩
  · rw [← parseWhitespaceAndSkipComments_starter hrest hu hc, skipEllipsis_twice hrest hu hc]
  · rw [currentChar_eq, hrest']
    rfl

theorem consumed_object (hm : IsPart .members m) (ih : Consumed .members m) :
    Consumed .value ('{' :: (m ++ ['}'])) := by
  intro p ws tail h hws htail
  obtain ⟨u, c, l, rfl, hu, hc⟩ := exists_starter_of_members hm
  have hp : p.rest = '{' :: ((u ++ c :: l) ++ '}' :: (ws ++ tail)) := by
    rw [h, List.cons_append, List.append_assoc]
    rfl
  have hsplit : (u ++ c :: l) ++ '}' :: (ws ++ tail) = u ++ c :: (l ++ '}' :: (ws ++ tail)) := by
    rw [List.append_assoc, List.cons_append]
  obtain ⟨hellipsis, hlt, hcurrent⟩ := enters_loop (hsplit ▸ hp) hu hc
  have hspec := starters_spec c hc
  have hnot : some c ≠ some '}' := fun heq => hspec.2.2.2.2 (Option.some.inj heq)
  apply consumed_of_reads h hws htail
  apply reads_object
  exact reads_parseBrackets hp hsplit hu (stops_of_mem_starters hc) hspec.2.2.1
    (ih _ _ true (ws ++ tail) (rest_consume hp) hellipsis ⟨hlt, hcurrent ▸ hnot⟩)

theorem consumed_array (hm : IsPart .elements m) (ih : Consumed .elements m) :
    Consumed .value ('[' :: (m ++ [']'])) := by
  intro p ws tail h hws htail
  obtain ⟨u, c, l, rfl, hu, hc⟩ := exists_starter_of_elements hm
  have hp : p.rest = '[' :: ((u ++ c :: l) ++ ']' :: (ws ++ tail)) := by
    rw [h, List.cons_append, List.append_assoc]
    rfl
  have hsplit : (u ++ c :: l) ++ ']' :: (ws ++ tail) = u ++ c :: (l ++ ']' :: (ws ++ tail)) := by
    rw [List.append_assoc, List.cons_append]
  obtain ⟨hellipsis, hlt, hcurrent⟩ := enters_loop (hsplit ▸ hp) hu hc
  have hspec := starters_spec c hc
  have hnot : some c ≠ some ']' := fun heq => hspec.2.2.2.1 (Option.some.inj heq)
  apply consumed_of_reads h hws htail
  apply reads_array hp
  exact reads_parseBrackets hp hsplit hu (stops_of_mem_starters hc) hspec.2.2.1
    (ih _ _ true (ws ++ tail) (rest_consume hp) hellipsis ⟨hlt, hcurrent ▸ hnot⟩)

theorem consumed_element (hu : JsonGrammar.IsWhitespace u) (hv : IsPart .value v)
    (hw : JsonGrammar.IsWhitespace w) (ih : Consumed .value v) :
    Consumed .element (u ++ (v ++ w)) := by
  intro p p₀ tail h htail hsame
  obtain ⟨c, l, hcons, hc⟩ := exists_starter_of_value hv
  have hp : p.rest = u ++ (v ++ (w ++ tail)) := by
    rw [h, List.append_assoc, List.append_assoc]
  have hread : p.parseWhitespaceAndSkipComments true = p.consume u := by
    apply parseWhitespaceAndSkipComments_starter (c := c) (l := l ++ (w ++ tail)) _ hu hc
    rw [hp, hcons, List.cons_append]
  obtain ⟨q, hvalue, hq⟩ := ih (p.consume u) w tail (rest_consume hp) hw htail
  apply Computes.succ _ rfl
  apply Computes.modify_bind
  rw [hsame, hread]
  apply Computes.bind hvalue
  apply Computes.modify_bind
  rw [hq, consume_consume]
  exact computes_pure

/-- A key, its colon and its value are consumed, and the loop goes on. -/
theorem reads_member {p₀ : JsonRepairParser} {initial : Bool} (hu : JsonGrammar.IsWhitespace u)
    (hk : IsChars k) (hw : JsonGrammar.IsWhitespace w) (ih : Consumed .element e)
    (htail : Follows tail)
    (h : p.rest = (u ++ (stringText k ++ (w ++ ':' :: e))) ++ tail)
    (hellipsis : (p₀.objectComma initial).skipEllipsis = p.skipEllipsis)
    (hguard : p₀.i < p₀.chars.length ∧ p₀.currentChar ≠ some '}')
    (hloop : Reads (fun call => call.objectLoop false)
      (p.consume (u ++ (stringText k ++ (w ++ ':' :: e)))) () q) :
    Reads (fun call => call.objectLoop initial) p₀ () q := by
  have hp : p.rest = u ++ (stringText k ++ (w ++ ':' :: (e ++ tail))) := by
    simpa only [List.append_assoc, List.cons_append] using h
  have hskip : p.skipEllipsis = p.consume u := skipEllipsis_starter hp hu (by decide)
  have hkey : (p.consume u).rest = stringText k ++ (w ++ ':' :: (e ++ tail)) := rest_consume hp
  have hcolonFollows : Follows (':' :: (e ++ tail)) := by
    intro c hc
    exact .inr (.inl (Option.some.inj hc).symm)
  set q₁ := (p.consume u).consume (stringText k ++ w) with hq₁
  have hcolon : q₁.rest = ':' :: (e ++ tail) := by
    apply rest_consume
    rw [hkey, List.append_assoc]
  have hstops : q₁.parseWhitespaceAndSkipComments true = q₁ :=
    stops_of_rest hcolon hcolonFollows.stops
  have hvalue : (q₁.consume [':']).rest = e ++ tail := rest_consume hcolon
  have hend : (q₁.consume [':']).consume e =
      p.consume (u ++ (stringText k ++ (w ++ ':' :: e))) := by
    rw [hq₁, consume_consume, consume_consume, consume_consume]
    congr 1
    simp only [List.append_assoc, List.cons_append, List.nil_append]
  have hparseKey : Reads parseKey (p.consume u) true q₁ :=
    (reads_parseString hk hw hcolonFollows hkey).orElse_true
  have hparseColon : Reads (fun _ => parseColon) q₁
      (true, decide ((q₁.consume [':']).chars.length ≤ (q₁.consume [':']).i))
      (q₁.consume [':']) := by
    apply Computes.modify_bind
    rw [hstops]
    apply Computes.modifyGet_bind
    rw [parseCharacter_consume hcolon]
    apply Computes.get_bind
    exact computes_pure
  apply Computes.succ _ rfl
  apply Computes.get_bind
  simp only [if_pos hguard]
  apply Computes.set_bind
  rw [hellipsis, hskip]
  apply Computes.bind hparseKey
  apply Computes.bind hparseColon
  apply Computes.bind (ih _ _ tail hvalue htail rfl)
  have hrequire : Reads (fun _ => requireValue true
      (decide ((q₁.consume [':']).chars.length ≤ (q₁.consume [':']).i)) true)
      ((q₁.consume [':']).consume e) () ((q₁.consume [':']).consume e) := by
    apply Computes.get_bind
    exact computes_pure
  apply Computes.bind hrequire
  rw [hend]
  exact hloop

theorem follows_cons (h : c = ',' ∨ c = ':' ∨ c = ']' ∨ c = '}') : Follows (c :: tail) := by
  intro d hd
  obtain rfl := Option.some.inj hd
  exact h

theorem consumed_member (hu : JsonGrammar.IsWhitespace u) (hk : IsChars k)
    (hw : JsonGrammar.IsWhitespace w) (ih : Consumed .element e) :
    Consumed .members (u ++ (stringText k ++ (w ++ ':' :: e))) := by
  intro p p₀ initial tail h hellipsis hguard
  exact reads_member hu hk hw ih (follows_cons (by decide)) h hellipsis hguard
    (reads_objectLoop_end (rest_consume h))

theorem consumed_members (hu : JsonGrammar.IsWhitespace u) (hk : IsChars k)
    (hw : JsonGrammar.IsWhitespace w) (he : Consumed .element e) (hm : IsPart .members m)
    (ih : Consumed .members m) :
    Consumed .members (u ++ (stringText k ++ (w ++ ':' :: (e ++ ',' :: m)))) := by
  intro p p₀ initial tail h hellipsis hguard
  set first := u ++ (stringText k ++ (w ++ ':' :: e)) with hfirst
  have hsplit : u ++ (stringText k ++ (w ++ ':' :: (e ++ ',' :: m))) = first ++ ',' :: m := by
    simp only [hfirst, List.append_assoc, List.cons_append]
  have hp : p.rest = first ++ ',' :: (m ++ '}' :: tail) := by
    rw [h, hsplit, List.append_assoc, List.cons_append]
  have hcomma : (p.consume first).rest = ',' :: (m ++ '}' :: tail) := rest_consume hp
  have hbehind : ((p.consume first).consume [',']).rest = m ++ '}' :: tail := rest_consume hcomma
  obtain ⟨u', c, l, hm', hu', hc⟩ := exists_starter_of_members hm
  have hnext : ((p.consume first).consume [',']).rest = u' ++ c :: (l ++ '}' :: tail) := by
    rw [hbehind, hm', List.append_assoc, List.cons_append]
  have hobjectComma : ((p.consume first).objectComma false).skipEllipsis =
      ((p.consume first).consume [',']).skipEllipsis := by
    change ((p.consume first).commaStep.parseWhitespaceAndSkipComments true).skipEllipsis = _
    rw [commaStep_consume hcomma, skipEllipsis_twice hnext hu' hc]
  have hcurrent : (p.consume first).currentChar ≠ some '}' := by
    rw [currentChar_eq, hcomma]
    exact fun heq => by cases heq
  have hrest : Reads (fun call => call.objectLoop false) (p.consume first) ()
      (p.consume (first ++ ',' :: m)) := by
    have hread := ih _ (p.consume first) false tail hbehind hobjectComma
      ⟨lt_length_of_rest hcomma, hcurrent⟩
    rw [consume_consume, consume_consume] at hread
    simpa only [List.append_assoc, List.cons_append, List.nil_append] using hread
  rw [hsplit]
  exact reads_member hu hk hw he (follows_cons (.inl rfl)) hp hellipsis hguard hrest

/-- A value of an array is consumed, and the loop goes on. -/
theorem reads_arrayElement {p₀ : JsonRepairParser} {initial : Bool} (he : IsPart .element e)
    (ih : Consumed .element e) (htail : Follows tail) (h : p.rest = e ++ tail)
    (hellipsis : (p₀.arrayComma initial).skipEllipsis = p.skipEllipsis)
    (hguard : p₀.i < p₀.chars.length ∧ p₀.currentChar ≠ some ']')
    (hloop : Reads (fun call => call.arrayLoop false) (p.consume e) () q) :
    Reads (fun call => call.arrayLoop initial) p₀ () q := by
  obtain ⟨u, c, l, hsplit, hu, hc⟩ := exists_starter_of_element he
  have hp : p.rest = u ++ c :: (l ++ tail) := by
    rw [h, hsplit, List.append_assoc, List.cons_append]
  have hskip : p.skipEllipsis = p.parseWhitespaceAndSkipComments true := by
    rw [skipEllipsis_starter hp hu hc, parseWhitespaceAndSkipComments_starter hp hu hc]
  apply Computes.succ _ rfl
  apply Computes.get_bind
  simp only [if_pos hguard]
  apply Computes.set_bind
  rw [hellipsis, hskip]
  apply Computes.bind
    (ih p _ tail h htail (parseWhitespaceAndSkipComments_twice hp hu hc))
  exact hloop

theorem consumed_single (he : IsPart .element e) (ih : Consumed .element e) :
    Consumed .elements e := by
  intro p p₀ initial tail h hellipsis hguard
  exact reads_arrayElement he ih (follows_cons (by decide)) h hellipsis hguard
    (reads_arrayLoop_end (rest_consume h))

theorem consumed_elements (he : IsPart .element e) (ihe : Consumed .element e)
    (ih : Consumed .elements m) : Consumed .elements (e ++ ',' :: m) := by
  intro p p₀ initial tail h hellipsis hguard
  have hp : p.rest = e ++ ',' :: (m ++ ']' :: tail) := by
    rw [h, List.append_assoc, List.cons_append]
  have hcomma : (p.consume e).rest = ',' :: (m ++ ']' :: tail) := rest_consume hp
  have hbehind : ((p.consume e).consume [',']).rest = m ++ ']' :: tail := rest_consume hcomma
  have harrayComma : ((p.consume e).arrayComma false).skipEllipsis =
      ((p.consume e).consume [',']).skipEllipsis := by
    change (p.consume e).commaStep.skipEllipsis = _
    rw [commaStep_consume hcomma]
  have hcurrent : (p.consume e).currentChar ≠ some ']' := by
    rw [currentChar_eq, hcomma]
    exact fun heq => by cases heq
  have hrest : Reads (fun call => call.arrayLoop false) (p.consume e) ()
      (p.consume (e ++ ',' :: m)) := by
    have hread := ih _ (p.consume e) false tail hbehind harrayComma
      ⟨lt_length_of_rest hcomma, hcurrent⟩
    rw [consume_consume, consume_consume] at hread
    simpa only [List.append_assoc, List.cons_append, List.nil_append] using hread
  exact reads_arrayElement he ihe (follows_cons (.inl rfl)) hp hellipsis hguard hrest

/-- Every part of a document is consumed. -/
theorem computes_part {part : Part} (h : IsPart part w) : Consumed part w := by
  induction h with
  | literal hw =>
    intro p ws tail h hws htail
    exact consumed_of_reads h hws htail (reads_literal hw h)
  | number hw =>
    intro p ws tail h hws htail
    exact consumed_of_reads h hws htail (reads_number hw h (htail.endsToken hws))
  | string hw => exact consumed_string hw
  | emptyObject hu => exact consumed_emptyObject hu
  | object hm ih => exact consumed_object hm ih
  | emptyArray hu => exact consumed_emptyArray hu
  | array hm ih => exact consumed_array hm ih
  | element hu hv hw ih => exact consumed_element hu hv hw ih
  | member hu hk hw _ ih => exact consumed_member hu hk hw ih
  | members hu hk hw _ hm ihe ih => exact consumed_members hu hk hw ihe hm ih
  | single he ih => exact consumed_single he ih
  | elements he _ ihe ih => exact consumed_elements he ihe ih

end Induction

/-! ## Documents -/

/-- The character of a markdown fence. -/
def fence : Char := Char.ofNat 0x60

theorem head?_ne_fence {u l : List Char} (hu : JsonGrammar.IsWhitespace u) (hc : c ≠ fence) :
    (u ++ c :: l).head? ≠ some fence := by
  cases u with
  | nil => exact fun h => hc (Option.some.inj h)
  | cons d u =>
    intro h
    obtain rfl := Option.some.inj h
    rcases hu _ List.mem_cons_self with h | h | h | h <;> exact absurd h (by decide)

theorem ne_fence_of_mem_starters (hc : c ∈ starters) : c ≠ fence := by
  have hall : ∀ d ∈ starters, d ≠ fence :=
    List.forall_iff_forall_mem.mp (by decide)
  exact hall c hc

/-- No fence follows the opening bracket of a value. -/
theorem bracket_ne_fence {b : Char} {l : List Char} (h : IsPart .value (b :: l))
    (hb : b = '[' ∨ b = '{') : (l ++ tail).head? ≠ some fence := by
  generalize hw : b :: l = w at h
  have hstarter : ∀ v m : List Char, (∃ u c l, m = u ++ c :: l ∧ JsonGrammar.IsWhitespace u ∧
      c ∈ starters) → l = m ++ v → (l ++ tail).head? ≠ some fence := by
    rintro v m ⟨u, c, l', rfl, hu, hc⟩ rfl
    rw [List.append_assoc, List.append_assoc, List.cons_append]
    exact head?_ne_fence hu (ne_fence_of_mem_starters hc)
  have hclosing : ∀ (u : List Char) (d : Char), JsonGrammar.IsWhitespace u → d ≠ fence →
      l = u ++ [d] → (l ++ tail).head? ≠ some fence := by
    rintro u d hu hd rfl
    rw [List.append_assoc]
    exact head?_ne_fence hu hd
  cases h with
  | literal hl =>
    rcases eq_of_mem_literals hl with rfl | rfl | rfl <;> cases hw <;>
      exact absurd hb (by decide)
  | number hn =>
    obtain ⟨c, l', rfl, hc⟩ := exists_starter_of_isNumber hn
    cases hw
    have hnone : ∀ d ∈ numberStarters, ¬ (d = '[' ∨ d = '{') :=
      List.forall_iff_forall_mem.mp (by decide)
    exact absurd hb (hnone b hc)
  | string _ =>
    cases hw
    exact absurd hb (by decide)
  | emptyObject hu =>
    cases hw
    exact hclosing _ _ hu (by decide) rfl
  | object hm =>
    cases hw
    exact hstarter _ _ (exists_starter_of_members hm) rfl
  | emptyArray hu =>
    cases hw
    exact hclosing _ _ hu (by decide) rfl
  | array hm =>
    cases hw
    exact hstarter _ _ (exists_starter_of_elements hm) rfl

/-- A document does not begin with a markdown fence. -/
theorem skipMarkdownCodeBlock_document (h : IsPart .element p.rest) :
    p.skipMarkdownCodeBlock ["```", "[```", "\x7b```"] = none := by
  obtain ⟨u, c, l, hsplit, hu, hc⟩ := exists_starter_of_element h
  have hfirst : ¬ "```".toList <+: p.rest := by
    rintro ⟨l', hl'⟩
    apply head?_ne_fence (l := l) hu (ne_fence_of_mem_starters hc)
    rw [← hsplit, ← hl']
    rfl
  have hsecond : ∀ b, b = '[' ∨ b = '{' → ¬ b :: "```".toList <+: p.rest := by
    rintro b hb ⟨l', hl'⟩
    generalize p.rest = w at h hl'
    cases h with
    | @element u v w hu hv hw =>
      cases u with
      | cons d u =>
        have hbd : b = d := (List.cons.inj hl').1
        have hspace := hu d List.mem_cons_self
        rw [← hbd] at hspace
        rcases hb with rfl | rfl <;> rcases hspace with h | h | h | h <;>
          exact absurd h (by decide)
      | nil =>
        obtain ⟨d, l, rfl, -⟩ := exists_starter_of_value hv
        have hcons := List.cons.inj hl'
        obtain rfl : b = d := hcons.1
        have hne : (l ++ w).head? ≠ some fence := bracket_ne_fence hv hb
        apply hne
        have hbehind : l ++ w = "```".toList ++ l' := hcons.2.symm
        rw [hbehind]
        rfl
  have hnone : ["```", "[```", "\x7b```"].find?
      (fun block => block.toList.isPrefixOf (p.chars.drop p.i)) = none := by
    rw [List.find?_eq_none]
    intro block hblock
    rw [List.isPrefixOf_iff_prefix]
    rcases List.mem_cons.mp hblock with rfl | hblock
    · exact hfirst
    rcases List.mem_cons.mp hblock with rfl | hblock
    · exact hsecond '[' (.inl rfl)
    · obtain rfl := List.mem_singleton.mp hblock
      exact hsecond '{' (.inr rfl)
  rw [skipMarkdownCodeBlock, hnone]
  rfl

theorem reads_parseRest (h : p.rest = []) : Reads parseRest p () p := by
  have hchar : p.currentChar = none := by
    rw [currentChar_eq, h]
    rfl
  have hfence : p.parseMarkdownCodeBlock ["```", "```]", "```\x7d"] = p := by
    have hnone : p.skipMarkdownCodeBlock ["```", "```]", "```\x7d"] = none := by
      have hdrop : p.chars.drop p.i = [] := h
      rw [skipMarkdownCodeBlock, hdrop]
      rfl
    rw [parseMarkdownCodeBlock, hnone]
  have hcomma : p.parseCharacter ',' = (false, p) := by
    rw [parseCharacter, hchar]
    rfl
  have hends : skipRedundantEnds p.chars.length p = p := by
    cases p.chars.length with
    | zero => rfl
    | succ steps =>
      rw [skipRedundantEnds, hchar]
      rfl
  have hfollowing : Reads (fun call => parseFollowing call false) p () p := by
    apply Computes.get_bind
    simp only [hchar]
    exact computes_pure
  apply Computes.modify_bind
  rw [hfence]
  apply Computes.modifyGet_bind
  rw [hcomma]
  apply Computes.modify_bind
  apply Computes.bind hfollowing
  have hlast : Reads (fun _ => modify fun q => skipRedundantEnds q.chars.length q) p ()
      (skipRedundantEnds p.chars.length p) := computes_const
  rw [hends] at hlast
  exact hlast

/-- A document is copied to the output. -/
theorem reads_parseDocument (h : IsPart .element p.rest) :
    Reads parseDocument p () (p.consume p.rest) := by
  have hrest : (p.consume p.rest).rest = [] := rest_consume (List.append_nil _).symm
  have hfence : p.parseMarkdownCodeBlock ["```", "[```", "\x7b```"] = p := by
    rw [parseMarkdownCodeBlock, skipMarkdownCodeBlock_document h]
  have hvalue := computes_part h p p [] (List.append_nil _).symm (fun c hc => by cases hc) rfl
  apply Computes.modify_bind
  rw [hfence]
  apply Computes.bind hvalue
  exact reads_parseRest hrest

end HeliosLite.JsonRepairParser

namespace HeliosLite

open JsonRepairParser Theory JsonGrammar

/-- A JSON document is read as it stands: `json_repair` gives the value that is read from it. -/
theorem jsonRepair_document {α : Type} (fromStr : String → Except String α) {text : String}
    {value : α} (hdocument : JsonGrammar.IsDocument text) (hvalue : fromStr text = .ok value) :
    Computes (fun fuel => jsonRepair fromStr fuel text) (.ok value) := by
  have hread : Reads parseDocument (new text) () ((new text).consume text.toList) :=
    reads_parseDocument hdocument
  have hlength : ((new text).consume text.toList).chars.length ≤
      ((new text).consume text.toList).i := (Nat.zero_add _).ge
  have houtput : String.ofList ((new text).consume text.toList).output = text :=
    String.ofList_toList
  apply hread.map rfl
  rw [answer, outcome, if_pos hlength, houtput, hvalue]
  rfl

/-- What reads compact documents as `serde_json::from_str` does. -/
def readDocument (text : String) : Except String Serde.Json :=
  match Serde.Reference.fromText text with
  | some v => .ok v
  | none => .error "invalid document"

theorem isDocument_nested : JsonGrammar.IsDocument "[\"\\n\",[true]]" := by
  have hspace := isWhitespace_nil
  have helement : ∀ {v : List Char}, IsPart .value v → IsPart .element v := by
    intro v hv
    have h := IsPart.element hspace hv hspace
    rw [List.nil_append, List.append_nil] at h
    exact h
  have hstring : IsPart .value (stringText ['\\', 'n']) := .string (.escaped (by decide) .nil)
  have hinner : IsPart .value ('[' :: ("true".toList ++ [']'])) :=
    .array (.single (helement (.literal (by decide))))
  exact helement (.array (.elements (helement hstring) (.single (helement hinner))))

theorem jsonRepair_nested :
    Computes (fun fuel => jsonRepair readDocument fuel "[\"\\n\",[true]]")
      (.ok (.arr [.str "\n", .arr [.bool true]])) :=
  jsonRepair_document readDocument isDocument_nested (by decide +kernel)

end HeliosLite
