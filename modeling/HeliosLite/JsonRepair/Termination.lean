import HeliosLite.JsonRepair.Parser
import HeliosLite.JsonRepair.Progress

/-!
# Termination of the JSON repair parser

A string that is read again for a comma before a rejected end quote is read up to that
comma. Where the comma is the second character of an escape, no pass stops at it: the quote
is rejected again for the same comma, and `parse_string` calls itself with the arguments it
has, from the state it began in. This is the only way in which the parser does not end.

The calls settle by induction on the part of the text that is left. A string is read with
stop index at most three times: the passes that follow the first all begin at the quote, so
that they all reject the same quote.

## Main results

* `settles_parseDocument` — the parser ends, or it comes to a call that repeats itself
* `terminates_iff` — the parser ends exactly if it does not come to such a call
* `not_terminates_escapedComma` — a text on which it does not end
-/

namespace HeliosLite.JsonRepairParser

open Theory

variable {p q r : JsonRepairParser}

/-! ## Steps between the calls -/

theorem Ahead.dropEscape (p : JsonRepairParser) : Ahead p p.dropEscape :=
  Ahead.skipCharacter p '\\'

theorem Ahead.commaStep (p : JsonRepairParser) : Ahead p p.commaStep := by
  have hcomma := Ahead.parseCharacter p ','
  rw [JsonRepairParser.commaStep]
  split
  · next q hq =>
    rw [hq] at hcomma
    exact hcomma
  · next q hq =>
    rw [hq] at hcomma
    exact hcomma

theorem Ahead.objectComma (initial : Bool) (p : JsonRepairParser) :
    Ahead p (p.objectComma initial) := by
  rw [JsonRepairParser.objectComma]
  split_ifs
  · exact Ahead.refl p
  · exact (Ahead.commaStep p).trans (Ahead.parseWhitespaceAndSkipComments _ true)

theorem Ahead.arrayComma (initial : Bool) (p : JsonRepairParser) :
    Ahead p (p.arrayComma initial) := by
  rw [JsonRepairParser.arrayComma]
  split_ifs
  · exact Ahead.refl p
  · exact Ahead.commaStep p

theorem past_openBracket {bracket : Char} (h : p.currentChar = some bracket) :
    Past p (p.openBracket bracket) := by
  have hopen : Past p { p with output := p.output ++ [bracket], i := p.i + 1 } :=
    past_of_currentChar h (Nat.lt_succ_self p.i)
  have hread := hopen.trans_ahead (Ahead.parseWhitespaceAndSkipComments _ true)
  rw [openBracket]
  split_ifs
  · exact (hread.trans_ahead (Ahead.skipCharacter _ ',')).trans_ahead
      (Ahead.parseWhitespaceAndSkipComments _ true)
  · exact hread

theorem Ahead.closeBracket (bracket : Char) (p : JsonRepairParser) :
    Ahead p (p.closeBracket bracket) := by
  rw [JsonRepairParser.closeBracket]
  split_ifs
  · exact ⟨rfl, Nat.le_succ p.i⟩
  · exact ⟨rfl, le_rfl⟩

theorem past_beginConcatenation (h : p.currentChar = some '+') : Past p p.beginConcatenation := by
  have hplus : Past p { p with i := p.i + 1 } :=
    past_of_currentChar h (Nat.lt_succ_self p.i)
  exact (hplus.trans_ahead (Ahead.parseWhitespaceAndSkipComments _ true)).trans_ahead
    (Ahead.stripLastOccurrenceWithRemaining _ '"' true)

theorem Ahead.endConcatenation (start : ℕ) (parsedStr : Bool) (p : JsonRepairParser) :
    Ahead p (p.endConcatenation start parsedStr) := by
  rw [JsonRepairParser.endConcatenation]
  split_ifs <;> exact ⟨rfl, le_rfl⟩

theorem Ahead.skipCallEnd (p : JsonRepairParser) : Ahead p p.skipCallEnd := by
  rw [JsonRepairParser.skipCallEnd]
  split_ifs
  · have hbracket : Ahead p { p with i := p.i + 1 } := ⟨rfl, Nat.le_succ p.i⟩
    exact hbracket.trans (Ahead.skipCharacter _ ';')
  · exact Ahead.refl p

/-! ## What settles -/

/-- The guarded parser and the program, both over the calls they make. -/
abbrev Settled {α : Type} (body : Bool → Calls → P α) (p : JsonRepairParser)
    (post : α → JsonRepairParser → Prop) : Prop :=
  Settles Stop.repeated (fun fuel => body true (calls true fuel))
    (fun fuel => body false (calls false fuel)) p post

/-- What reads a value moves if it succeeds and does not move back if it does not. -/
def Moves (p : JsonRepairParser) (processed : Bool) (q : JsonRepairParser) : Prop :=
  if processed then Past p q else Ahead p q

theorem Moves.ahead {processed : Bool} (h : Moves p processed q) : Ahead p q := by
  cases processed with
  | false => exact h
  | true => exact Past.ahead h

theorem Ahead.trans_moves {processed : Bool} (h : Ahead p q) (h' : Moves q processed r) :
    Moves p processed r := by
  cases processed with
  | false => exact Ahead.trans h h'
  | true => exact Ahead.trans_past h h'

/-- The part of the text that is left. -/
def remaining (p : JsonRepairParser) : ℕ := p.chars.length - p.i

theorem Past.remaining_lt (h : Past p q) : q.remaining < p.remaining := by
  have hchars : q.chars.length = p.chars.length := congrArg List.length h.1
  have hlt := h.2.1
  have hmoved := h.2.2
  rw [remaining, remaining, hchars]
  omega

theorem Ahead.remaining_le (h : Ahead p q) : q.remaining ≤ p.remaining := by
  have hchars : q.chars.length = p.chars.length := congrArg List.length h.1
  have hmoved := h.2
  rw [remaining, remaining, hchars]
  omega

theorem settled_attempt {scanner : JsonRepairParser → Option JsonRepairParser}
    {post : Bool → JsonRepairParser → Prop} (hsome : ∀ q, scanner p = some q → post true q)
    (hnone : post false p) : Settled (fun _ _ => attempt scanner) p post := by
  apply Settles.get_bind
  cases hread : scanner p with
  | some q =>
    apply Settles.set_bind
    exact Settles.pure (hsome q hread)
  | none => exact Settles.pure hnone

theorem settled_fail {α : Type} {post : α → JsonRepairParser → Prop} (e : JsonRepairError) :
    Settled (fun _ _ => fail e) p post :=
  Settles.of_error (fun _ => rfl) (fun _ => rfl) (fun h => by cases h)

/-! ## The calls -/

section Calls

variable {post : Bool → JsonRepairParser → Prop} {postUnit : Unit → JsonRepairParser → Prop}

theorem settled_call_parseValue (h : Settled (fun _ call => parseValue call) p post) :
    Settled (fun _ call => call.parseValue) p post :=
  Settles.succ h rfl rfl

theorem settled_call_parseString {stopAtDelimiter : Bool} {stopAtIndex : Option ℕ}
    (h : Settled (fun guarded call => parseString call guarded stopAtDelimiter stopAtIndex)
      p post) :
    Settled (fun _ call => call.parseString stopAtDelimiter stopAtIndex) p post :=
  Settles.succ h rfl rfl

theorem settled_call_objectLoop {initial : Bool}
    (h : Settled (fun _ call => objectLoop call initial) p postUnit) :
    Settled (fun _ call => call.objectLoop initial) p postUnit :=
  Settles.succ h rfl rfl

theorem settled_call_arrayLoop {initial : Bool}
    (h : Settled (fun _ call => arrayLoop call initial) p postUnit) :
    Settled (fun _ call => call.arrayLoop initial) p postUnit :=
  Settles.succ h rfl rfl

theorem settled_call_concatenationLoop
    (h : Settled (fun _ call => concatenationLoop call) p postUnit) :
    Settled (fun _ call => call.concatenationLoop) p postUnit :=
  Settles.succ h rfl rfl

theorem settled_call_newlineLoop {initial : Bool}
    (h : Settled (fun _ call => newlineLoop call initial) p postUnit) :
    Settled (fun _ call => call.newlineLoop initial) p postUnit :=
  Settles.succ h rfl rfl

end Calls

/-! ### Strings -/

theorem lt_length_of_isQuote (h : isQuote p.currentChar) : p.i < p.chars.length := by
  cases hch : p.currentChar with
  | none => rw [hch] at h; cases h
  | some ch => exact lt_length_of_currentChar hch

/-- A string is read if it begins here, perhaps behind an escape character. -/
theorem settled_parseString_of_quote {stopAtDelimiter : Bool} {stopAtIndex : Option ℕ}
    (hquote : isQuote p.dropEscape.currentChar →
      Settled (fun guarded call => endString call guarded stopAtIndex p.dropEscape
        (p.dropEscape.scan (p.currentChar == some '\\') stopAtDelimiter stopAtIndex)) p
        (Moves p.dropEscape)) :
    Settled (fun _ call => call.parseString stopAtDelimiter stopAtIndex) p (Moves p) := by
  have hahead := Ahead.dropEscape p
  apply settled_call_parseString
  apply Settles.get_bind
  by_cases hread : isQuote p.dropEscape.currentChar
  · simp only [if_pos hread]
    exact (hquote hread).mono fun processed q hq => hahead.trans_moves hq
  · simp only [if_neg hread]
    apply Settles.set_bind
    exact Settles.pure hahead

/-- A pass that rejects an end quote for a comma at which it did not stop is repeated
forever. -/
theorem diverges_of_retryAtComma {index : ℕ} (hquote : isQuote q.currentChar)
    (hscan : q.scan false false (some index) = .retryAtComma index) :
    Diverges fun fuel => ((calls false fuel).parseString false (some index) q : Option _) := by
  intro fuel
  induction fuel with
  | zero => rfl
  | succ fuel ih =>
    have hcall : ((calls false (fuel + 1)).parseString false (some index) q : Option _) =
        endString (calls false fuel) false (some index) q
          (q.scan false false (some index)) q :=
      parseString_of_isQuote _ hquote
    rw [hscan] at hcall
    exact hcall.trans ih

/-! ### Brackets -/

theorem settled_parseBrackets {opening closing : Char} {loop : Calls → P Unit}
    (hloop : ∀ q, Past p q → Settled (fun _ call => loop call) q fun _ => Ahead q) :
    Settled (fun _ call => parseBrackets opening closing (loop call)) p fun processed q =>
      if processed then Past p q else q = p := by
  apply Settles.get_bind
  by_cases hopen : p.currentChar = some opening
  · have hpast := past_openBracket hopen
    simp only [if_pos hopen]
    apply Settles.set_bind
    apply (hloop _ hpast).bind
    intro _ q hq
    apply Settles.modify_bind
    apply Settles.pure
    exact (hpast.trans_ahead hq).trans_ahead (Ahead.closeBracket closing q)
  · simp only [if_neg hopen]
    exact Settles.pure rfl

/-! ### Members -/

theorem settled_missingKey : Settled (fun _ _ => missingKey) p fun _ => Ahead p := by
  apply Settles.get_bind
  split_ifs
  · exact Settles.of_ok (fun _ => rfl) (fun _ => rfl) (Ahead.stripLastOccurrence p ',')
  · exact settled_fail _

theorem settled_parseColon : Settled (fun _ _ => parseColon) p fun _ => Ahead p := by
  apply Settles.modify_bind
  apply Settles.modifyGet_bind
  set q := ((p.parseWhitespaceAndSkipComments true).parseCharacter ':').2
  have hread : Ahead p q :=
    (Ahead.parseWhitespaceAndSkipComments p true).trans (Ahead.parseCharacter _ ':')
  apply Settles.get_bind
  dsimp only
  split_ifs
  · exact Settles.pure hread
  · apply Settles.set_bind
    exact Settles.pure (hread.trans ⟨rfl, le_rfl⟩)
  · exact settled_fail _

theorem settled_requireValue (processedColon truncatedText processedValue : Bool) :
    Settled (fun _ _ => requireValue processedColon truncatedText processedValue) p
      fun _ => Ahead p := by
  apply Settles.get_bind
  split_ifs
  · exact Settles.pure (Ahead.refl p)
  · exact Settles.of_ok (fun _ => rfl) (fun _ => rfl) ⟨rfl, le_rfl⟩
  · exact settled_fail _

/-- All calls on less than `k` characters settle. -/
structure SettledBelow (k : ℕ) : Prop where
  value : ∀ p, remaining p < k → Settled (fun _ call => call.parseValue) p (Moves p)
  string : ∀ p, remaining p < k →
    Settled (fun _ call => call.parseString false none) p (Moves p)
  object : ∀ p initial, remaining p < k →
    Settled (fun _ call => call.objectLoop initial) p fun _ => Ahead p
  array : ∀ p initial, remaining p < k →
    Settled (fun _ call => call.arrayLoop initial) p fun _ => Ahead p
  concatenation : ∀ p, remaining p < k →
    Settled (fun _ call => call.concatenationLoop) p fun _ => Ahead p
  newline : ∀ p initial, remaining p < k →
    Settled (fun _ call => call.newlineLoop initial) p fun _ => Ahead p

section Level

variable {k : ℕ} (below : SettledBelow k)

include below

theorem settled_concatenationLoop (hp : remaining p ≤ k) :
    Settled (fun _ call => call.concatenationLoop) p fun _ => Ahead p := by
  apply settled_call_concatenationLoop
  apply Settles.get_bind
  by_cases hplus : p.currentChar = some '+'
  · have hpast := past_beginConcatenation hplus
    have hlt : remaining p.beginConcatenation < k := hpast.remaining_lt.trans_le hp
    simp only [if_pos hplus]
    apply Settles.set_bind
    apply (below.string _ hlt).bind
    intro parsedStr q hq
    apply Settles.modify_bind
    set r := q.endConcatenation p.beginConcatenation.outputLen parsedStr
    have hr : Past p r :=
      (hpast.trans_ahead hq.ahead).trans_ahead (Ahead.endConcatenation _ parsedStr q)
    exact (below.concatenation r (hr.remaining_lt.trans_le hp)).mono
      fun _ t ht => (hr.trans_ahead ht).ahead
  · simp only [if_neg hplus]
    exact Settles.pure (Ahead.refl p)

theorem settled_parseConcatenatedString (hp : remaining p ≤ k) :
    Settled (fun _ call => parseConcatenatedString call) p fun _ => Ahead p := by
  apply Settles.modify_bind
  have hread := Ahead.parseWhitespaceAndSkipComments p true
  exact (settled_concatenationLoop below (hread.remaining_le.trans hp)).mono
    fun _ q hq => hread.trans hq

/-- An end of a string that does not have it read again. -/
theorem settled_endString {stopAtIndex : Option ℕ} {stopAtDelimiter : Bool} {e : StringEnd}
    (hq : q.i < q.chars.length) (hp : remaining q ≤ k) (he : e.Settled stopAtDelimiter q.i)
    (hcomma : ∀ index, e = .retryAtComma index →
      Settled (fun guarded call => endString call guarded stopAtIndex q e) p (Moves q))
    (hdelimiter : e = .retryAtDelimiter →
      Settled (fun guarded call => endString call guarded stopAtIndex q e) p (Moves q)) :
    Settled (fun guarded call => endString call guarded stopAtIndex q e) p (Moves q) := by
  cases e with
  | unfinished content i =>
    apply Settles.set_bind
    apply Settles.pure
    exact ⟨rfl, hq, he⟩
  | closed content iQuote =>
    apply Settles.set_bind
    have hpast : Past q { q with i := iQuote + 1, output := q.output ++ content } :=
      ⟨rfl, hq, Nat.lt_succ_of_lt he⟩
    have hread := hpast.trans_ahead (Ahead.parseWhitespaceAndSkipComments _ false)
    apply (settled_parseConcatenatedString below (hread.remaining_lt.le.trans hp)).bind
    intro _ r hr
    exact Settles.pure (hread.trans_ahead hr)
  | delimited content i =>
    apply Settles.set_bind
    have hpast : Past q { q with
        i := i
        output := q.output ++ insertBeforeLastWhitespaceStr content ['"'] } :=
      ⟨rfl, hq, he⟩
    apply (settled_parseConcatenatedString below (hpast.remaining_lt.le.trans hp)).bind
    intro _ r hr
    exact Settles.pure (hpast.trans_ahead hr)
  | escapedComma content i =>
    apply Settles.set_bind
    apply Settles.pure
    have hpast : Past q { q with
        i := i + 2
        output := q.output ++ insertBeforeLastWhitespaceStr content ['"'] ++ [','] } :=
      ⟨rfl, hq, Nat.lt_add_right 2 he⟩
    exact hpast.trans_ahead (Ahead.parseWhitespaceAndSkipComments _ true)
  | retryAtComma index => exact hcomma index rfl
  | retryAtDelimiter => exact hdelimiter rfl
  | failed e => exact settled_fail e

theorem settled_parseString_delimiter (hp : remaining p ≤ k) :
    Settled (fun _ call => call.parseString true none) p (Moves p) := by
  apply settled_parseString_of_quote
  intro hquote
  have hends := settled_scan p.dropEscape (p.currentChar == some '\\') true none
  apply settled_endString below (lt_length_of_isQuote hquote)
    ((Ahead.dropEscape p).remaining_le.trans hp) hends
  · intro index hretry
    rw [hretry] at hends
    cases hends
  · intro hretry
    rw [hretry] at hends
    cases hends

/-- The string that begins at the current quote, read up to a comma: it settles when it does
so for every other comma for which it may be read again. -/
theorem settled_parseString_of_others {index : ℕ} (hquote : isQuote q.currentChar)
    (hq : remaining q ≤ k)
    (hother : ∀ index' ≠ index, q.scan false false (some index) = .retryAtComma index' →
      Settled (fun _ call => call.parseString false (some index')) q (Moves q)) :
    Settled (fun _ call => call.parseString false (some index)) q (Moves q) := by
  by_cases hsame : q.scan false false (some index) = .retryAtComma index
  · apply settled_call_parseString
    apply Settles.of_stop
    · intro fuel
      have hcall : parseString (calls true fuel) true false (some index) q = _ :=
        parseString_of_isQuote _ hquote
      rw [hsame] at hcall
      apply hcall.trans
      change (if true = true ∧ some index = some index then throw Stop.repeated
        else _ : P Bool) q = _
      rw [if_pos ⟨rfl, rfl⟩]
      rfl
    · intro fuel
      exact diverges_of_retryAtComma hquote hsame (fuel + 1)
  · have hescape : (q.currentChar == some '\\') = false :=
      beq_eq_false_iff_ne.mpr (currentChar_ne_escape hquote)
    apply settled_parseString_of_quote
    intro _
    rw [dropEscape_of_isQuote hquote, hescape]
    apply settled_endString below (lt_length_of_isQuote hquote) hq (settled_scan q false false _)
    · intro index' hretry
      have hne : index' ≠ index := by
        rintro rfl
        exact hsame hretry
      rw [hretry]
      apply Settles.set_bind
      have hindex : some index ≠ some index' := fun h => hne (Option.some.inj h).symm
      simp only [hindex, and_false, if_false]
      exact hother index' hne hretry
    · intro hretry
      rw [hretry]
      apply Settles.set_bind
      exact settled_parseString_delimiter below hq

/-- All passes that follow the first begin at the quote and reject the same end quote. -/
theorem settled_parseString_stopAtIndex {index : ℕ} (hquote : isQuote q.currentChar)
    (hq : remaining q ≤ k) :
    Settled (fun _ call => call.parseString false (some index)) q (Moves q) := by
  apply settled_parseString_of_others below hquote hq
  intro index' _ hretry
  apply settled_parseString_of_others below hquote hq
  intro index'' hne hretry'
  have hindex := (scan_of_retryAtComma hretry).symm.trans (scan_of_retryAtComma hretry')
  cases hindex
  exact absurd rfl hne

theorem settled_parseString (hp : remaining p ≤ k) :
    Settled (fun _ call => call.parseString false none) p (Moves p) := by
  have hahead := (Ahead.dropEscape p).remaining_le.trans hp
  apply settled_parseString_of_quote
  intro hquote
  apply settled_endString below (lt_length_of_isQuote hquote) hahead (settled_scan _ _ false none)
  · intro index hretry
    rw [hretry]
    apply Settles.set_bind
    simp only [reduceCtorEq, and_false, if_false]
    exact settled_parseString_stopAtIndex below hquote hahead
  · intro hretry
    rw [hretry]
    apply Settles.set_bind
    exact settled_parseString_delimiter below hahead

/-! ### Values -/

theorem settled_parseUnquotedString (isKey : Bool) (hp : remaining p ≤ k) :
    Settled (fun _ call => parseUnquotedString call isKey) p fun processed q =>
      Ahead p q ∧ (processed → p.i < p.chars.length ∧ (AtText true p → p.i < q.i)) := by
  apply Settles.get_bind
  cases hcall : p.functionCall with
  | some q =>
    have hpast := past_functionCall hcall
    apply Settles.set_bind
    apply (below.value q (hpast.remaining_lt.trans_le hp)).bind
    intro _ r hr
    apply Settles.modify_bind
    apply Settles.pure
    have hend := (hpast.trans_ahead hr.ahead).trans_ahead (Ahead.skipCallEnd r)
    exact ⟨hend.ahead, fun _ => ⟨hend.2.1, fun _ => hend.2.2⟩⟩
  | none =>
    apply settled_attempt
    · intro q hq
      have hread := unquotedSymbol_spec hq
      exact ⟨hread.1, fun _ => hread.2⟩
    · exact ⟨Ahead.refl p, fun h => by cases h⟩

/-- Where no whitespace is left, what is read as a value takes a character. -/
theorem settled_parseAlternatives (hp : remaining p ≤ k) (htext : AtText true p) :
    Settled (fun _ call => parseAlternatives call) p (Moves p) := by
  have hobject : Settled (fun _ call => parseObject call) p fun processed q =>
      if processed then Past p q else q = p :=
    settled_parseBrackets fun q hq => below.object q true (hq.remaining_lt.trans_le hp)
  apply hobject.orElse fun _ h => h
  intro q (hq : q = p)
  subst q
  have harray : Settled (fun _ call => parseArray call) p fun processed q =>
      if processed then Past p q else q = p :=
    settled_parseBrackets fun q hq => below.array q true (hq.remaining_lt.trans_le hp)
  apply harray.orElse fun _ h => h
  intro q (hq : q = p)
  subst q
  apply (settled_parseString below hp).orElse fun _ h => h
  intro q hq
  have hleft := hq.ahead.remaining_le.trans hp
  have hread : Settled (fun _ _ => attempt parseNumber) q fun processed r =>
      if processed then Past p r else r = q :=
    settled_attempt (fun r hr => Ahead.trans_past hq.ahead (past_parseNumber hr)) rfl
  apply hread.orElse fun _ h => h
  intro r (hr : r = q)
  subst r
  have hread : Settled (fun _ _ => attempt parseKeywords) q fun processed r =>
      if processed then Past p r else r = q :=
    settled_attempt (fun r hr => Ahead.trans_past hq.ahead (past_parseKeywords hr)) rfl
  apply hread.orElse fun _ h => h
  intro r (hr : r = q)
  subst r
  apply (settled_parseUnquotedString below false hleft).orElse
  · rintro r ⟨hr, hsymbol⟩
    obtain ⟨hlength, hmoved⟩ := hsymbol rfl
    refine ⟨hr.1.trans hq.ahead.1, hq.ahead.2.trans_lt (hq.ahead.1 ▸ hlength), ?_⟩
    -- an escape character was dropped, or the symbol begins where no whitespace is
    rcases hq.ahead.2.lt_or_eq with hlt | heq
    · exact hlt.trans_le hr.2
    · have hat : AtText true q := by
        intro ch hch
        rw [hq.ahead.currentChar_eq heq.symm] at hch
        exact htext ch hch
      rw [heq]
      exact hmoved hat
  · rintro r ⟨hr, -⟩
    have hr' := hq.ahead.trans hr
    exact settled_attempt (fun u hu => Ahead.trans_past hr' (past_parseRegex hu)) hr'

theorem settled_parseValue (hp : remaining p ≤ k) :
    Settled (fun _ call => call.parseValue) p (Moves p) := by
  have hread := Ahead.parseWhitespaceAndSkipComments p true
  apply settled_call_parseValue
  apply Settles.modify_bind
  apply (settled_parseAlternatives below (hread.remaining_le.trans hp)
    (atText_parseWhitespaceAndSkipComments p true)).bind
  intro processed q hq
  apply Settles.modify_bind
  apply Settles.pure
  have hmoves := hread.trans_moves hq
  cases processed with
  | false => exact Ahead.trans hmoves (Ahead.parseWhitespaceAndSkipComments q true)
  | true => exact Past.trans_ahead hmoves (Ahead.parseWhitespaceAndSkipComments q true)

/-! ### Loops -/

theorem settled_arrayLoop (initial : Bool) (hp : remaining p ≤ k) :
    Settled (fun _ call => call.arrayLoop initial) p fun _ => Ahead p := by
  apply settled_call_arrayLoop
  apply Settles.get_bind
  split_ifs
  · apply Settles.set_bind
    set q := (p.arrayComma initial).skipEllipsis
    have hread : Ahead p q := (Ahead.arrayComma initial p).trans (skipEllipsis_cases _).1
    apply (settled_parseValue below (hread.remaining_le.trans hp)).bind
    intro processed r hr
    cases processed with
    | true =>
      have hpast : Past p r := Ahead.trans_past hread hr
      exact (below.array r false (hpast.remaining_lt.trans_le hp)).mono
        fun _ t ht => (hpast.trans_ahead ht).ahead
    | false =>
      have hend : Ahead p r := Ahead.trans hread hr
      exact Settles.of_ok (fun _ => rfl) (fun _ => rfl)
        (hend.trans (Ahead.stripLastOccurrence r ','))
  · exact Settles.pure (Ahead.refl p)

/-- A key takes a character, or an ellipsis before it did. -/
theorem settled_parseKey {initial : Bool} (hp : remaining p ≤ k) (hlt : p.i < p.chars.length) :
    Settled (fun _ call => parseKey call) (p.objectComma initial).skipEllipsis (Moves p) := by
  set q := (p.objectComma initial).skipEllipsis with hq
  obtain ⟨hellipsis, htext⟩ := skipEllipsis_cases (p.objectComma initial)
  have hcomma := Ahead.objectComma initial p
  have hread : Ahead p q := hcomma.trans hellipsis
  have hstring := settled_parseString below (hread.remaining_le.trans hp)
  apply hstring.orElse
  · intro r hr
    exact Ahead.trans_past hread hr
  · intro r hr
    have hr' : Ahead p r := Ahead.trans hread hr
    apply (settled_parseUnquotedString below true (hr'.remaining_le.trans hp)).mono
    rintro processed t ⟨ht, hsymbol⟩
    cases processed with
    | false => exact Ahead.trans hr' ht
    | true =>
      refine ⟨ht.1.trans hr'.1, hlt, ?_⟩
      rcases hr'.2.lt_or_eq with hmoved | heq
      · exact hmoved.trans_le ht.2
      · -- neither an ellipsis nor an escape character was read
        have hqi : q.i = p.i := le_antisymm (heq ▸ hr.2) hread.2
        have hsame : q.i = (p.objectComma initial).i := le_antisymm (hqi ▸ hcomma.2) hellipsis.2
        have hri : r.i = q.i := heq.symm.trans hqi.symm
        have hat : AtText true r := by
          intro ch hch
          rw [Ahead.currentChar_eq hr hri] at hch
          exact htext hsame ch hch
        rw [heq]
        exact (hsymbol rfl).2 hat

theorem settled_objectLoop (initial : Bool) (hp : remaining p ≤ k) :
    Settled (fun _ call => call.objectLoop initial) p fun _ => Ahead p := by
  apply settled_call_objectLoop
  apply Settles.get_bind
  split_ifs with hguard
  · apply Settles.set_bind
    apply (settled_parseKey below hp hguard.1).bind
    intro processed q hq
    cases processed with
    | true =>
      apply settled_parseColon.bind
      rintro ⟨processedColon, truncatedText⟩ r hr
      have hcolon : Past p r := Past.trans_ahead hq hr
      apply (below.value r (hcolon.remaining_lt.trans_le hp)).bind
      intro processedValue t ht
      have hvalue : Past p t := hcolon.trans_ahead ht.ahead
      apply (settled_requireValue processedColon truncatedText processedValue).bind
      intro _ u hu
      have hmember : Past p u := hvalue.trans_ahead hu
      exact (below.object u false (hmember.remaining_lt.trans_le hp)).mono
        fun _ v hv => (hmember.trans_ahead hv).ahead
    | false => exact settled_missingKey.mono fun _ r hr => Ahead.trans hq hr
  · exact Settles.pure (Ahead.refl p)

theorem settled_newlineLoop (initial : Bool) (hp : remaining p ≤ k) :
    Settled (fun _ call => call.newlineLoop initial) p fun _ => Ahead p := by
  apply settled_call_newlineLoop
  apply Settles.modify_bind
  set q := if initial then p else p.commaStep
  have hread : Ahead p q := Ahead.arrayComma initial p
  apply (settled_parseValue below (hread.remaining_le.trans hp)).bind
  intro processed r hr
  cases processed with
  | true =>
    have hpast : Past p r := Ahead.trans_past hread hr
    exact (below.newline r false (hpast.remaining_lt.trans_le hp)).mono
      fun _ t ht => (hpast.trans_ahead ht).ahead
  | false =>
    have hend : Ahead p r := Ahead.trans hread hr
    exact Settles.of_ok (fun _ => rfl) (fun _ => rfl)
      (hend.trans (Ahead.stripLastOccurrence r ','))

end Level

/-- Every call settles. -/
theorem settledBelow (k : ℕ) : SettledBelow k := by
  induction k with
  | zero =>
    constructor <;> intros <;> exact absurd ‹_› (Nat.not_lt_zero _)
  | succ k below =>
    exact
      { value := fun p hp => settled_parseValue below (Nat.le_of_lt_succ hp)
        string := fun p hp => settled_parseString below (Nat.le_of_lt_succ hp)
        object := fun p initial hp => settled_objectLoop below initial (Nat.le_of_lt_succ hp)
        array := fun p initial hp => settled_arrayLoop below initial (Nat.le_of_lt_succ hp)
        concatenation := fun p hp => settled_concatenationLoop below (Nat.le_of_lt_succ hp)
        newline := fun p initial hp => settled_newlineLoop below initial (Nat.le_of_lt_succ hp) }

/-! ## Documents -/

theorem settled_parseFollowing (processedComma : Bool) :
    Settled (fun _ call => parseFollowing call processedComma) p fun _ _ => True := by
  apply Settles.get_bind
  split_ifs
  all_goals try apply Settles.set_bind
  · apply ((settledBelow _).newline _ true (Nat.lt_succ_self _)).bind
    intro _ q _
    exact Settles.of_ok (fun _ => rfl) (fun _ => rfl) trivial
  · apply ((settledBelow _).newline _ true (Nat.lt_succ_self _)).bind
    intro _ q _
    exact Settles.of_ok (fun _ => rfl) (fun _ => rfl) trivial
  · exact Settles.of_ok (fun _ => rfl) (fun _ => rfl) trivial
  · exact Settles.pure trivial

/-- The parser ends, or it comes to a call that repeats itself. -/
theorem settles_parseDocument (p : JsonRepairParser) :
    Settled (fun _ call => parseDocument call) p fun _ _ => True := by
  apply Settles.modify_bind
  apply ((settledBelow _).value _ (Nat.lt_succ_self _)).bind
  intro processed q _
  cases processed with
  | true =>
    apply Settles.modify_bind
    apply Settles.modifyGet_bind
    apply Settles.modify_bind
    apply (settled_parseFollowing _).bind
    intro _ r _
    exact Settles.of_ok (fun _ => rfl) (fun _ => rfl) trivial
  | false =>
    apply Settles.get_bind
    exact settled_fail _

end HeliosLite.JsonRepairParser

namespace HeliosLite

open JsonRepairParser Theory

section JsonRepair

variable {α : Type} {fromStr : String → Except String α} {text : String}

theorem repeatsCall_iff {fuel : ℕ} : repeatsCall fuel text = true ↔
    (parseDocument (calls true fuel) (new text) : Option _) = some (.error .repeated) := by
  rw [repeatsCall]
  split
  · next h => exact iff_of_true rfl h
  · next h => exact iff_of_false Bool.false_ne_true h

/-- A parser that computes an outcome gives a value or an error. -/
theorem computes_jsonRepair {r : Except Stop (Unit × JsonRepairParser)}
    (h : Computes (fun fuel => (parseDocument (calls false fuel) (new text) : Option _)) r)
    (hr : r ≠ .error .repeated) :
    ∃ result, Computes (fun fuel => jsonRepair fromStr fuel text) result := by
  match r with
  | .ok (_, p) => exact ⟨p.outcome fromStr, h.map rfl rfl⟩
  | .error (.error e) => exact ⟨.error e, h.map rfl rfl⟩
  | .error .repeated => exact absurd rfl hr

/-- The parser gives one answer with every large budget, or none with any. -/
theorem decided_jsonRepair (fromStr : String → Except String α) (text : String) :
    Decided fun fuel => jsonRepair fromStr fuel text := by
  rcases settles_parseDocument (new text) with
    ⟨_, _, -, hplain, -⟩ | ⟨e, he, -, hplain⟩ | ⟨-, hnone⟩
  · exact .inl (computes_jsonRepair hplain fun h => by cases h)
  · exact .inl (computes_jsonRepair hplain fun h => he (Except.error.inj h))
  · refine .inr fun fuel => ?_
    have hfuel : (parseDocument (calls false fuel) (new text) : Option _) = none := hnone fuel
    simp only [jsonRepair, hfuel]
    rfl

/-- A parser that repeats a call gives nothing. -/
theorem jsonRepair_of_repeatsCall {n : ℕ} (h : repeatsCall n text = true) (fuel : ℕ) :
    jsonRepair fromStr fuel text = none := by
  rw [repeatsCall_iff] at h
  rcases settles_parseDocument (new text) with ⟨_, _, hread, -, -⟩ | ⟨e, he, hread, -⟩ | ⟨-, hnone⟩
  · cases hread.unique h
  · cases hread.unique h
    exact absurd rfl he
  · have hfuel : (parseDocument (calls false fuel) (new text) : Option _) = none := hnone fuel
    rw [jsonRepair, hfuel]
    rfl

end JsonRepair

end HeliosLite
