import HeliosLite.JsonRepair.ValidJson
import HeliosLite.Theory.ByteIndex

/-!
# Strings joined by a plus sign

Each string of a concatenation is read behind the output of the strings before it, from which the
last end quote has been taken. When the strings behind it have been read, its start quote is
removed. The place of that quote is the length of the output in bytes, but the character that is
removed is found by counting characters: where the output has characters of more than one byte,
the quote stays and something behind it goes.

## Main definitions

* `Addend` — a string with the plus sign before it
* `joinedOutput` — the output of a concatenation
* `Joins` — the quotes that are removed are the right ones, or it does not matter

## Main results

* `reads_concatenation` — what the parser reads
* `jsonRepair_concatenation_iff` — a concatenation is repaired to the string of all its parts
  exactly if `Joins` holds
-/

namespace HeliosLite.JsonRepairParser

open Theory JsonGrammar

/-! ### The text -/

/-- A plus sign and a string, with the whitespace before and behind the sign. -/
structure Addend where
  before : List Char
  behind : List Char
  body : List Char
  value : List Char
  whitespace_before : JsonGrammar.IsWhitespace before
  whitespace_behind : JsonGrammar.IsWhitespace behind
  encodes : Encodes body value

def Addend.text (a : Addend) : List Char := a.before ++ '+' :: (a.behind ++ stringText a.body)

def concatenation (first : List Char) (addends : List Addend) : List Char :=
  stringText first ++ addends.flatMap Addend.text

/-- The output behind strings that are read where it has been `output`. -/
def joinedOutput (output : List Char) : List Char → List (List Char) → List Char
  | body, [] => output ++ stringText body
  | body, next :: bodies =>
    let stripped := output ++ '"' :: body
    let read := joinedOutput stripped next bodies
    read.take (byteLen stripped) ++ read.drop (byteLen stripped + 1)

/-! ### What the parser reads -/

section Reading

variable {p : JsonRepairParser}

theorem takeWhile_append_cons {α : Type*} {cond : α → Bool} {l m : List α} {a : α}
    (hl : ∀ b ∈ l, cond b) (ha : cond a = false) : (l ++ a :: m).takeWhile cond = l := by
  apply takeWhile_append hl
  rintro b hb
  obtain rfl := Option.some.inj hb
  exact ha

/-- The output is cut off at its last quote. -/
theorem stripLastOccurrence_quote {before after : List Char} (h : p.output = before ++ '"' :: after)
    (hafter : '"' ∉ after) :
    p.stripLastOccurrenceWithRemaining '"' true = { p with output := before } := by
  have hreverse : p.output.reverse = after.reverse ++ '"' :: before.reverse := by
    rw [h, List.reverse_append, List.reverse_cons, List.append_assoc]
    rfl
  have htake : p.output.reverse.takeWhile (· ≠ '"') = after.reverse := by
    rw [hreverse]
    apply takeWhile_append_cons
    · intro c hc
      rw [decide_eq_true_eq]
      rintro rfl
      exact hafter (List.mem_reverse.mp hc)
    · decide
  have hlength : p.output.length = before.length + (after.length + 1) := by
    rw [h, List.length_append, List.length_cons]
  have hcut : p.output.take (p.output.length - after.reverse.length - 1) = before := by
    have hindex : p.output.length - after.reverse.length - 1 = before.length := by
      rw [List.length_reverse]
      omega
    rw [hindex, h, List.take_left]
  have hlt : after.reverse.length < p.output.length := by
    rw [List.length_reverse]
    omega
  simp only [stripLastOccurrenceWithRemaining, rfind, htake, if_pos hlt, hcut]
  rfl

theorem quote_notMem_whitespace {w : List Char} (hw : JsonGrammar.IsWhitespace w) : '"' ∉ w := by
  intro hmem
  rcases hw _ hmem with h | h | h | h <;> exact absurd h (by decide)

theorem delimits_plus {l : List Char} : Delimits ('+' :: l) := by
  intro c hc
  obtain rfl := Option.some.inj hc
  decide

theorem stops_quote {l : List Char} : Stops ('"' :: l) := by
  intro c hc
  obtain rfl := Option.some.inj hc
  decide

/-- The plus sign is read, and the end quote before it goes. -/
theorem beginConcatenation_eq {output body before behind l : List Char}
    (houtput : p.output = output ++ stringText body ++ before)
    (hbefore : JsonGrammar.IsWhitespace before) (hbehind : JsonGrammar.IsWhitespace behind)
    (h : p.rest = '+' :: (behind ++ '"' :: l)) :
    p.beginConcatenation =
      { p with
        i := p.i + 1 + behind.length
        output := output ++ '"' :: body } := by
  have hrest : { p with i := p.i + 1 }.rest = behind ++ '"' :: l := by
    change p.chars.drop (p.i + 1) = _
    rw [← List.drop_drop]
    change List.drop 1 p.rest = _
    rw [h]
    rfl
  have hread := parseWhitespaceAndSkipComments_consume hrest hbehind stops_quote
  rw [beginConcatenation, hread]
  refine @stripLastOccurrence_quote _ (output ++ '"' :: body) (before ++ behind) ?_ ?_
  · change p.output ++ behind = _
    rw [houtput, stringText]
    simp only [List.append_assoc, List.cons_append, List.nil_append]
  · rw [List.mem_append]
    exact not_or.mpr ⟨quote_notMem_whitespace hbefore, quote_notMem_whitespace hbehind⟩

/-- Nothing is left behind the text that is left. -/
theorem rest_of_length {w output : List Char} (h : p.rest = w) :
    { p with i := p.i + w.length, output := output }.rest = [] := by
  change p.chars.drop (p.i + w.length) = []
  rw [List.drop_eq_nil_iff, ← h, rest, List.length_drop]
  omega

theorem concatenation_cons (first : List Char) (a : Addend) (addends : List Addend) :
    concatenation first (a :: addends) =
      stringText first ++
        (a.before ++ '+' :: (a.behind ++ concatenation a.body addends)) := by
  simp only [concatenation, List.flatMap_cons, Addend.text, List.append_assoc, List.cons_append]

/-- A concatenation is read to its end. -/
theorem reads_concatenation {first : List Char} (hfirst : IsChars first) (addends : List Addend)
    (h : p.rest = concatenation first addends) :
    Reads (fun call => call.parseString false none) p true
      { p with
        i := p.i + (concatenation first addends).length
        output := joinedOutput p.output first (addends.map Addend.body) } := by
  induction addends generalizing p first with
  | nil =>
    have hrest : p.rest = stringText first ++ ([] ++ []) := h
    have hread := reads_parseString hfirst isWhitespace_nil (fun c hc => by cases hc) hrest
    rw [List.append_nil] at hread
    rw [concatenation, List.flatMap_nil, List.append_nil]
    exact hread
  | cons a addends ih =>
    rw [concatenation_cons] at h
    apply reads_parseString_of_loop hfirst a.whitespace_before delimits_plus h
    set p₁ := p.consume (stringText first ++ a.before) with hp₁
    have hrest₁ : p₁.rest = '+' :: (a.behind ++ concatenation a.body addends) := by
      apply rest_consume
      rw [h, List.append_assoc]
    have hplus : p₁.currentChar = some '+' := by
      rw [currentChar_eq, hrest₁]
      rfl
    have houtput : p₁.output = p.output ++ stringText first ++ a.before := by
      rw [hp₁, List.append_assoc]
      rfl
    have hbegin := beginConcatenation_eq houtput a.whitespace_before a.whitespace_behind hrest₁
    set p₂ : JsonRepairParser :=
      { p₁ with
        i := p₁.i + 1 + a.behind.length
        output := p.output ++ '"' :: first } with hp₂
    have hrest₂ : p₂.rest = concatenation a.body addends := by
      change p₁.chars.drop (p₁.i + 1 + a.behind.length) = _
      rw [← List.drop_drop, ← List.drop_drop]
      change (p₁.rest.drop 1).drop a.behind.length = _
      rw [hrest₁, List.drop_succ_cons, List.drop_zero, List.drop_left]
    have hread := ih a.encodes.isChars hrest₂
    have hlength : p₂.i + (concatenation a.body addends).length =
        p.i + (concatenation first (a :: addends)).length := by
      rw [concatenation_cons, hp₂, hp₁, consume]
      simp only [List.length_append, List.length_cons]
      omega
    have hend : endConcatenation p₂.outputLen true
        { p₂ with
          i := p₂.i + (concatenation a.body addends).length
          output := joinedOutput p₂.output a.body (addends.map Addend.body) } =
        { p with
          i := p.i + (concatenation first (a :: addends)).length
          output := joinedOutput p.output first ((a :: addends).map Addend.body) } := by
      rw [hlength]
      rfl
    apply Computes.succ _ rfl
    apply Computes.get_bind
    simp only [if_pos hplus]
    rw [hbegin]
    apply Computes.set_bind
    apply Computes.bind hread
    apply Computes.modify_bind
    rw [hend]
    apply reads_concatenationLoop_end
    rw [concatenation_cons, currentChar_eq, rest_of_length h]
    intro hchar
    cases hchar

/-- A document that is a string, or a concatenation of strings. -/
theorem reads_parseDocument_of_string {q : JsonRepairParser} {l : List Char}
    (h : p.rest = '"' :: l)
    (hstring : Reads (fun call => call.parseString false none) p true q) (hq : q.rest = []) :
    Reads parseDocument p () q := by
  have hfence : p.parseMarkdownCodeBlock ["```", "[```", "\x7b```"] = p := by
    have hnone : p.skipMarkdownCodeBlock ["```", "[```", "\x7b```"] = none := by
      have hdrop : p.chars.drop p.i = '"' :: l := h
      rw [skipMarkdownCodeBlock, hdrop]
      rfl
    rw [parseMarkdownCodeBlock, hnone]
  have hne : ∀ d, '"' ≠ d → p.currentChar ≠ some d := by
    intro d hd heq
    rw [currentChar_eq, h] at heq
    exact hd (Option.some.inj heq)
  have hobject : Reads parseObject p false p := reads_parseBrackets_false (hne _ (by decide))
  have harray : Reads parseArray p false p := reads_parseBrackets_false (hne _ (by decide))
  have halternatives : Reads parseAlternatives p true q := by
    apply Computes.orElse_false hobject
    apply Computes.orElse_false harray
    exact hstring.orElse_true
  have hstart : p.parseWhitespaceAndSkipComments true = p :=
    parseWhitespaceAndSkipComments_self (h ▸ stops_quote)
  have hend : q.parseWhitespaceAndSkipComments true = q := by
    apply parseWhitespaceAndSkipComments_self
    rw [hq]
    exact fun c hc => by cases hc
  have hvalue : Reads (fun call => call.parseValue) p true q := by
    apply Computes.succ _ rfl
    apply Computes.modify_bind
    rw [hstart]
    apply Computes.bind halternatives
    apply Computes.modify_bind
    rw [hend]
    exact computes_pure
  apply Computes.modify_bind
  rw [hfence]
  apply Computes.bind hvalue
  exact reads_parseRest hq

end Reading

/-- What is read from the output of a concatenation. -/
theorem jsonRepair_concatenation {α : Type} (fromStr : String → Except String α)
    {first : List Char} (hfirst : IsChars first) (addends : List Addend) :
    Computes (fun fuel => jsonRepair fromStr fuel (String.ofList (concatenation first addends)))
      ((fromStr (String.ofList (joinedOutput [] first (addends.map Addend.body)))).mapError
        .jsonError) := by
  have hrest : (new (String.ofList (concatenation first addends))).rest =
      concatenation first addends := by
    rw [rest, new, String.toList_ofList]
    rfl
  have hstring := reads_concatenation hfirst addends hrest
  have hend := @rest_of_length _ _ (joinedOutput [] first (addends.map Addend.body)) hrest
  have hread := reads_parseDocument_of_string hrest hstring hend
  apply hread.map rfl
  rw [answer, outcome, if_pos (length_le_of_rest hend)]
  rfl

/-! ### The quotes that go -/

/-- The output of a concatenation behind its first quote, where so many bytes have been counted
too many. -/
def tailText (e : ℕ) : List Char → List (List Char) → List Char
  | body, [] => body ++ ['"']
  | body, next :: bodies =>
    body ++ ('"' :: tailText (e + extraBytes body) next bodies).eraseIdx (e + extraBytes body)

theorem joinedOutput_eq (output body : List Char) (bodies : List (List Char)) :
    joinedOutput output body bodies =
      output ++ '"' :: tailText (extraBytes output) body bodies := by
  induction bodies generalizing output body with
  | nil => rfl
  | cons next bodies ih =>
    have hextra : extraBytes (output ++ '"' :: body) = extraBytes output + extraBytes body := by
      rw [extraBytes_append]
      exact congrArg (extraBytes output + ·) (Nat.zero_add _)
    have hindex := length_le_byteLen (output ++ '"' :: body)
    rw [joinedOutput, tailText, ih, ← List.eraseIdx_eq_take_drop_succ,
      List.eraseIdx_append_of_length_le hindex, byteLen_eq, Nat.add_sub_cancel_left, hextra,
      List.append_assoc]
    rfl

/-- Behind a character of more than one byte a quote stays. -/
theorem exists_tailText_eq {e : ℕ} (he : 0 < e) (bodies : List (List Char)) :
    ∃ l, tailText e [] bodies = '"' :: l := by
  cases bodies with
  | nil => exact ⟨[], rfl⟩
  | cons next bodies =>
    obtain ⟨e, rfl⟩ := Nat.exists_eq_add_one_of_ne_zero he.ne'
    exact ⟨_, rfl⟩

/-- One byte too many takes the quote of an empty string at its end instead of at its start. -/
theorem tailText_one {bodies : List (List Char)} (h : ∀ b ∈ bodies, b = []) :
    tailText 1 [] bodies = ['"'] := by
  induction bodies with
  | nil => rfl
  | cons next bodies ih =>
    obtain ⟨rfl, hbodies⟩ := List.forall_mem_cons.mp h
    have hrest : tailText (1 + extraBytes []) [] bodies = ['"'] := ih hbodies
    rw [tailText, hrest]
    rfl

/-- Each string but the last is ASCII, or the first one that is not has one character of two
bytes and nothing but empty strings behind it. -/
def Joins : List Char → List (List Char) → Prop
  | _, [] => True
  | body, next :: bodies =>
    (extraBytes body = 0 ∧ Joins next bodies) ∨
      (extraBytes body = 1 ∧ ∀ b ∈ next :: bodies, b = [])

/-! ### What is read -/

/-- How a JSON text that begins with a string is read. -/
structure ReadsStrings (fromStr : String → Except String Serde.Json) : Prop where
  ok : ∀ {w s}, Encodes w s →
    fromStr (String.ofList (stringText w)) = .ok (.str (String.ofList s))
  trailing : ∀ {w s rest v}, Encodes w s →
    fromStr (String.ofList (stringText w ++ rest)) = .ok v →
      v = .str (String.ofList s) ∧ JsonGrammar.IsWhitespace rest

section Reading

variable {fromStr : String → Except String Serde.Json}

theorem flatMap_value_eq_nil_iff {addends : List Addend} :
    addends.flatMap Addend.value = [] ↔ ∀ b ∈ addends.map Addend.body, b = [] := by
  simp only [List.flatMap_eq_nil_iff, List.mem_map, forall_exists_index, and_imp,
    forall_apply_eq_imp_iff₂]
  exact forall₂_congr fun a _ => a.encodes.eq_nil_iff.symm

/-- A quote that stays ends the string that is read. -/
theorem fromStr_quoteStays_iff (hread : ReadsStrings fromStr) {w s : List Char}
    (hw : Encodes w s) {e : ℕ} (he : 0 < e) (a : Addend) (addends : List Addend) :
    fromStr (String.ofList (stringText w ++
        (tailText e a.body (addends.map Addend.body)).eraseIdx (e - 1))) =
      .ok (.str (String.ofList (s ++ (a :: addends).flatMap Addend.value))) ↔
    e = 1 ∧ ∀ b ∈ (a :: addends).map Addend.body, b = [] := by
  constructor
  · intro h
    obtain ⟨hvalue, hrest⟩ := hread.trailing hw h
    have hvalues : s ++ (a :: addends).flatMap Addend.value = s ++ [] := by
      rw [List.append_nil]
      exact String.ofList_injective (Serde.Json.str.inj hvalue)
    have hempty := flatMap_value_eq_nil_iff.mp (List.append_cancel_left hvalues)
    refine ⟨?_, hempty⟩
    -- with two bytes too many some quote is left
    by_contra hone
    have hbody : a.body = [] := hempty a.body (List.mem_cons_self ..)
    obtain ⟨l, hl⟩ := exists_tailText_eq he (addends.map Addend.body)
    obtain ⟨k, hk⟩ := Nat.exists_eq_add_of_le' (show 2 ≤ e by omega)
    have hindex : e - 1 = k + 1 := by omega
    rw [hbody, hl, hindex, List.eraseIdx_cons_succ] at hrest
    exact quote_notMem_whitespace hrest (List.mem_cons_self ..)
  · rintro ⟨rfl, hempty⟩
    have hvalues := flatMap_value_eq_nil_iff.mpr hempty
    obtain ⟨hbody, hrest⟩ := List.forall_mem_cons.mp hempty
    rw [hvalues, hbody, tailText_one hrest, List.append_nil]
    have htext : stringText w ++ ['"'].eraseIdx (1 - 1) = stringText w := List.append_nil _
    rw [htext]
    exact hread.ok hw

theorem fromStr_tailText_iff (hread : ReadsStrings fromStr) {w s body t : List Char}
    (hw : Encodes w s) (hbody : Encodes body t) (addends : List Addend) :
    fromStr (String.ofList ('"' :: (w ++ tailText 0 body (addends.map Addend.body)))) =
      .ok (.str (String.ofList (s ++ (t ++ addends.flatMap Addend.value)))) ↔
    Joins body (addends.map Addend.body) := by
  induction addends generalizing w s body t with
  | nil =>
    refine iff_of_true ?_ trivial
    have htext : '"' :: (w ++ (body ++ ['"'])) = stringText (w ++ body) := by
      rw [stringText, List.append_assoc]
    rw [List.map_nil, tailText, htext, List.flatMap_nil, List.append_nil]
    exact hread.ok (hw.append hbody)
  | cons a addends ih =>
    rw [List.map_cons, tailText, Nat.zero_add, Joins]
    rcases Nat.eq_zero_or_pos (extraBytes body) with hzero | hpos
    · have hnext := ih (hw.append hbody) a.encodes
      rw [hzero, List.eraseIdx_cons_zero, List.flatMap_cons, ← List.append_assoc w,
        ← List.append_assoc s]
      rw [hnext]
      simp
    · have hquote := fromStr_quoteStays_iff hread (hw.append hbody) hpos a addends
      obtain ⟨k, hk⟩ := Nat.exists_eq_add_one_of_ne_zero hpos.ne'
      have htext : '"' :: (w ++ (body ++ ('"' :: tailText (extraBytes body) a.body
          (addends.map Addend.body)).eraseIdx (extraBytes body))) =
          stringText (w ++ body) ++ (tailText (extraBytes body) a.body
            (addends.map Addend.body)).eraseIdx (extraBytes body - 1) := by
        rw [hk, List.eraseIdx_cons_succ, stringText]
        simp only [List.append_assoc, List.cons_append, List.nil_append, Nat.add_sub_cancel]
      rw [htext, ← List.append_assoc s, hquote, List.map_cons]
      simp only [hpos.ne', false_and, false_or]

/-- A concatenation is repaired to the string of all its parts exactly if each string but the
last is ASCII, or the first that is not has one character of two bytes and nothing but empty
strings behind it. -/
theorem jsonRepair_concatenation_iff (hread : ReadsStrings fromStr) {first value : List Char}
    (hfirst : Encodes first value) (addends : List Addend) :
    Computes (fun fuel => jsonRepair fromStr fuel (String.ofList (concatenation first addends)))
        (.ok (.str (String.ofList (value ++ addends.flatMap Addend.value)))) ↔
      Joins first (addends.map Addend.body) := by
  have hcomputes := jsonRepair_concatenation fromStr hfirst.isChars addends
  rw [joinedOutput_eq] at hcomputes
  rw [← fromStr_tailText_iff hread .nil hfirst addends]
  constructor
  · intro h
    have heq := h.eq hcomputes
    change (fromStr (String.ofList ('"' :: tailText 0 first (addends.map Addend.body)))).mapError
      _ = _ at heq
    cases hresult : fromStr (String.ofList ('"' :: tailText 0 first (addends.map Addend.body))) with
    | error e =>
      rw [hresult] at heq
      cases heq
    | ok v =>
      rw [hresult] at heq
      rw [List.nil_append, hresult, Except.ok.inj heq]
      rfl
  · intro h
    have hresult : fromStr (String.ofList ([] ++ '"' :: tailText (extraBytes []) first
        (addends.map Addend.body))) =
        .ok (.str (String.ofList (value ++ addends.flatMap Addend.value))) := h
    rw [hresult] at hcomputes
    exact hcomputes

end Reading

/-! ### A reader of strings -/

/-- The characters up to the closing quotation mark, and what follows it; `steps` of them are
left. -/
def readChars : ℕ → List Char → Option (List Char × List Char)
  | 0, _ => none
  | _ + 1, [] => none
  | steps + 1, c :: cs =>
    if c = '"' then
      some ([], cs)
    else if c = '\\' then
      if cs.head? = some 'u' then
        let unit := codeUnit (cs.tail.take 4)
        if 0xd800 ≤ unit ∧ unit < 0xdc00 then
          let pair := Char.ofNat (0x10000 + 0x400 * (unit - 0xd800) +
            (codeUnit ((cs.drop 7).take 4) - 0xdc00))
          (readChars steps (cs.drop 11)).map fun (s, rest) => (pair :: s, rest)
        else
          (readChars steps (cs.drop 5)).map fun (s, rest) => (Char.ofNat unit :: s, rest)
      else
        (cs.head?.bind (List.lookup · escapeTable)).bind fun d =>
          (readChars steps cs.tail).map fun (s, rest) => (d :: s, rest)
    else
      (readChars steps cs).map fun (s, rest) => (c :: s, rest)

/-- A string and the whitespace behind it. -/
def readString (text : String) : Except String Serde.Json :=
  match text.toList with
  | '"' :: cs =>
    match readChars (cs.length + 1) cs with
    | some (s, rest) =>
      if rest.all (isWhitespace · true) then .ok (.str (String.ofList s))
      else .error "trailing characters"
    | none => .error "expected a string"
  | _ => .error "expected a string"

theorem lookup_of_mem_escapeTable {c d : Char} (h : (c, d) ∈ escapeTable) :
    c ≠ 'u' ∧ List.lookup c escapeTable = some d := by
  have hall : ∀ p ∈ escapeTable, p.1 ≠ 'u' ∧ List.lookup p.1 escapeTable = some p.2 := by decide
  exact hall (c, d) h

theorem readChars_encodes {w s rest : List Char} (h : Encodes w s) {steps : ℕ}
    (hsteps : w.length < steps) : readChars steps (w ++ '"' :: rest) = some (s, rest) := by
  induction h generalizing steps with
  | nil =>
    obtain ⟨steps, rfl⟩ := Nat.exists_eq_add_one_of_ne_zero (Nat.ne_zero_of_lt hsteps)
    rfl
  | unescaped hc hquote hescape hw ih =>
    obtain ⟨steps, rfl⟩ := Nat.exists_eq_add_one_of_ne_zero (Nat.ne_zero_of_lt hsteps)
    rw [List.cons_append, readChars, if_neg hquote, if_neg hescape,
      ih (Nat.lt_of_succ_lt_succ hsteps)]
    rfl
  | @escaped c d w s hc hw ih =>
    obtain ⟨steps, rfl⟩ := Nat.exists_eq_add_one_of_ne_zero (Nat.ne_zero_of_lt hsteps)
    obtain ⟨hu, hlookup⟩ := lookup_of_mem_escapeTable hc
    have hlt : w.length < steps := by
      simp only [List.length_cons] at hsteps
      omega
    have hread := ih hlt
    have hhead : (c :: (w ++ '"' :: rest)).head? ≠ some 'u' := fun h => hu (Option.some.inj h)
    rw [List.cons_append, List.cons_append, readChars, if_neg (by decide), if_pos rfl,
      if_neg hhead]
    simp only [List.head?_cons, Option.bind_some, hlookup, List.tail_cons, hread, Option.map_some]
  | @unicode digits w s hlength hdigits hcode hw ih =>
    obtain ⟨steps, rfl⟩ := Nat.exists_eq_add_one_of_ne_zero (Nat.ne_zero_of_lt hsteps)
    match digits, hlength with
    | [a, b, c, d], _ =>
      have hlt : w.length < steps := by
        simp only [List.length_cons, List.cons_append, List.nil_append] at hsteps
        omega
      have hread := ih hlt
      have hunit : ¬ (0xd800 ≤ codeUnit [a, b, c, d] ∧ codeUnit [a, b, c, d] < 0xdc00) := by omega
      simp only [List.cons_append, List.nil_append]
      rw [readChars, if_neg (by decide), if_pos rfl, if_pos List.head?_cons]
      change (if 0xd800 ≤ codeUnit [a, b, c, d] ∧ codeUnit [a, b, c, d] < 0xdc00 then _
        else (readChars steps (w ++ '"' :: rest)).map _) = _
      rw [if_neg hunit, hread]
      rfl
  | @surrogates high low w s hhigh hlow hhighDigits hlowDigits hhighCode hlowCode hw ih =>
    obtain ⟨steps, rfl⟩ := Nat.exists_eq_add_one_of_ne_zero (Nat.ne_zero_of_lt hsteps)
    match high, hhigh, low, hlow with
    | [a, b, c, d], _, [e, f, g, h], _ =>
      have hlt : w.length < steps := by
        simp only [List.length_cons, List.cons_append, List.nil_append] at hsteps
        omega
      have hread := ih hlt
      simp only [List.cons_append, List.nil_append]
      rw [readChars, if_neg (by decide), if_pos rfl, if_pos List.head?_cons]
      change (if 0xd800 ≤ codeUnit [a, b, c, d] ∧ codeUnit [a, b, c, d] < 0xdc00 then
        (readChars steps (w ++ '"' :: rest)).map _ else _) = _
      rw [if_pos hhighCode, hread]
      rfl

theorem isWhitespace_of_all {w : List Char} (h : w.all (isWhitespace · true)) :
    JsonGrammar.IsWhitespace w := by
  intro c hc
  have hspace := List.all_eq_true.mp h c hc
  simp only [isWhitespace, if_true, Bool.or_eq_true, beq_iff_eq] at hspace
  rcases hspace with ((h | h) | h) | h
  · exact .inl h
  · exact .inr (.inl h)
  · exact .inr (.inr (.inl h))
  · exact .inr (.inr (.inr h))

theorem readString_encodes {w s rest : List Char} (h : Encodes w s) :
    readString (String.ofList (stringText w ++ rest)) =
      if rest.all (isWhitespace · true) then .ok (.str (String.ofList s))
      else .error "trailing characters" := by
  have htext : (String.ofList (stringText w ++ rest)).toList = '"' :: (w ++ '"' :: rest) := by
    rw [String.toList_ofList, stringText, List.cons_append, List.append_assoc]
    rfl
  have hread := @readChars_encodes w s rest h ((w ++ '"' :: rest).length + 1) (by
    rw [List.length_append]
    omega)
  rw [readString, htext]
  simp only [hread]

theorem readsStrings_readString : ReadsStrings readString where
  ok {w s} h := by
    have hread := @readString_encodes w s [] h
    rw [List.append_nil] at hread
    exact hread
  trailing {w s rest v} h hv := by
    rw [readString_encodes h] at hv
    split at hv
    · next hspace =>
      cases hv
      exact ⟨rfl, isWhitespace_of_all hspace⟩
    · cases hv

/-! ### Two strings -/

/-- The string with the letter b, behind a plus sign. -/
def plusB : Addend where
  before := [' ']
  behind := [' ']
  body := ['b']
  value := ['b']
  whitespace_before := by simp [JsonGrammar.IsWhitespace]
  whitespace_behind := by simp [JsonGrammar.IsWhitespace]
  encodes := .unescaped (by decide) (by decide) (by decide) .nil

/-- The text `"a" + "b"`. -/
theorem jsonRepair_concatenation_ab :
    Computes (fun fuel => jsonRepair readString fuel (String.ofList (concatenation ['a'] [plusB])))
      (.ok (.str "ab")) :=
  (jsonRepair_concatenation_iff readsStrings_readString
    (.unescaped (by decide) (by decide) (by decide) .nil) [plusB]).mpr (.inl ⟨rfl, trivial⟩)

/-- The text `"é" + "b"`: the quote before the letter b stays, and the letter goes. -/
theorem not_jsonRepair_concatenation_eAcute :
    ¬ Computes (fun fuel => jsonRepair readString fuel
      (String.ofList (concatenation ['\u00e9'] [plusB]))) (.ok (.str "\u00e9b")) := by
  intro h
  have hread : jsonRepair readString 8 (String.ofList (concatenation ['\u00e9'] [plusB])) =
      some (.error (.jsonError "trailing characters")) := by decide +kernel
  cases h.unique hread

end HeliosLite.JsonRepairParser
