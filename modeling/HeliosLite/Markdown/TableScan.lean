import HeliosLite.Markdown.Table
import Mathlib.Data.List.Basic

/-!
# The pieces of a word of a table

The scanner that cuts a word counts the bytes of a command where it means its characters. If the
command has a character of more than one byte, the rest of the word becomes part of it.

## Main definitions

* `multibyte` — a command with a character of more than one byte
* `tokensWidth` — the width of the characters of tokens

## Main results

* `readCommand_chars`, `readCommand_missed` — where the scanners end a command
* `splitWordAtWidth_plain`, `splitWordAtWidth_marked` — the pieces of a word
-/

namespace HeliosLite

open Theory UnicodeWidthChar

namespace TableText

/-! ### The scanners -/

theorem length_le_byteLength (s : List Char) : s.length ≤ byteLength s := by
  induction s with
  | nil => exact le_rfl
  | cons c s ih =>
    have hpos := Char.utf8Size_pos c
    rw [byteLength, List.map_cons, List.sum_cons, List.length_cons]
    rw [byteLength] at ih
    omega

theorem byteLength_append (s t : List Char) :
    byteLength (s ++ t) = byteLength s + byteLength t := by
  rw [byteLength, List.map_append, List.sum_append]
  rfl

theorem closesByChars_concat (esc : List Char) :
    closesByChars (esc ++ ['\\']) = (esc.getLast? = some escapeChar : Bool) := by
  rcases List.eq_nil_or_concat' esc with rfl | ⟨esc, c, rfl⟩
  · rfl
  · have hlen := length_le_byteLength (esc ++ [c] ++ ['\\'])
    rw [List.length_append, List.length_append, List.length_singleton, List.length_singleton]
      at hlen
    have htwo : 2 ≤ byteLength (esc ++ [c] ++ ['\\']) := by omega
    rw [closesByChars, decide_eq_true htwo, Bool.true_and, List.getLast?_concat,
      List.reverse_concat, List.reverse_concat]
    rfl

/-- The position that is counted in bytes is that of the last character only if all characters
have one byte. -/
theorem closesByBytes_concat (esc : List Char) : closesByBytes (esc ++ ['\\']) = true ↔
    byteLength esc = esc.length ∧ esc.getLast? = some escapeChar := by
  have hlen := length_le_byteLength esc
  have hbytes : byteLength (esc ++ ['\\']) = byteLength esc + 1 := byteLength_append esc ['\\']
  rw [closesByBytes, Bool.and_eq_true, decide_eq_true_eq, decide_eq_true_eq, hbytes]
  constructor
  · rintro ⟨htwo, hget⟩
    have hlt : byteLength esc + 1 - 2 < (esc ++ ['\\']).length := by
      by_contra hge
      rw [List.getElem?_eq_none (Nat.not_lt.mp hge)] at hget
      exact Option.some_ne_none _ hget.symm
    rw [List.length_append, List.length_singleton] at hlt
    by_cases heq : byteLength esc = esc.length
    · refine ⟨heq, ?_⟩
      rw [List.getElem?_append_left (by omega)] at hget
      rw [List.getLast?_eq_getElem?, ← hget, heq]
      congr 1
    · -- the position is that of the backslash
      have hpos : byteLength esc + 1 - 2 = esc.length := by omega
      rw [hpos, List.getElem?_append_right le_rfl, Nat.sub_self, List.getElem?_cons_zero] at hget
      exact absurd hget (by decide)
  · rintro ⟨heq, hlast⟩
    have hne : esc ≠ [] := by
      rintro rfl
      exact Option.some_ne_none _ hlast.symm
    have hpos := List.length_pos_iff.mpr hne
    refine ⟨by omega, ?_⟩
    rw [List.getElem?_append_left (by omega), ← hlast, List.getLast?_eq_getElem?, heq]
    congr 1

theorem readControl_params {params : List Char}
    (h : ∀ c ∈ params, 0x20 ≤ c.toNat ∧ c.toNat < 0x40) (rest : List Char) :
    readControl (params ++ 'm' :: rest) = (params ++ ['m'], rest) := by
  induction params with
  | nil => rfl
  | cons c params ih =>
    have hc := (h c List.mem_cons_self).2
    have hnot : ¬ (c = 'm' ∨ c = 'K' ∨ c = 'H' ∨ c = 'J') := by
      rintro (rfl | rfl | rfl | rfl) <;> exact absurd hc (by decide)
    rw [List.cons_append, readControl, if_neg hnot,
      ih fun c' hc' => h c' (List.mem_cons_of_mem _ hc')]
    rfl

section Command

variable {closes : List Char → Bool}

/-- A command that is closed by its last two characters. -/
theorem readCommand_closed {esc body : List Char} (hbell : bell ∉ body)
    (hopen : ∀ p q, body = p ++ '\\' :: q → closes (esc ++ p ++ ['\\']) = false)
    (hclosed : closes (esc ++ body ++ [escapeChar] ++ ['\\']) = true) (rest : List Char) :
    readCommand closes esc (body ++ escapeChar :: '\\' :: rest) =
      (esc ++ body ++ [escapeChar, '\\'], rest, true) := by
  induction body generalizing esc with
  | nil =>
    rw [List.append_nil] at hclosed
    rw [List.nil_append, readCommand, if_neg, readCommand, if_pos (.inl ⟨rfl, hclosed⟩),
      List.append_nil, List.append_assoc]
    · rfl
    · rintro (⟨heq, -⟩ | heq)
      · exact absurd heq (by decide)
      · exact absurd heq (by decide)
  | cons c body ih =>
    rw [List.mem_cons, not_or] at hbell
    have hnot : ¬ (c = '\\' ∧ closes (esc ++ [c]) = true ∨ c = bell) := by
      rintro (⟨rfl, hcloses⟩ | rfl)
      · have hfalse := hopen [] body rfl
        rw [List.append_nil] at hfalse
        exact Bool.false_ne_true (hfalse.symm.trans hcloses)
      · exact hbell.1 rfl
    rw [List.cons_append, readCommand, if_neg hnot, ih hbell.2]
    · rw [List.append_assoc esc]
      rfl
    · intro p q hbody
      have hfalse := hopen (c :: p) q (congrArg (c :: ·) hbody)
      rwa [List.append_assoc esc]
    · rwa [List.append_assoc esc]

/-- A command that is not closed is the rest of the text. -/
theorem readCommand_open {esc rest : List Char} (hbell : bell ∉ rest)
    (hopen : ∀ p q, rest = p ++ '\\' :: q → closes (esc ++ p ++ ['\\']) = false) :
    readCommand closes esc rest = (esc ++ rest, [], false) := by
  induction rest generalizing esc with
  | nil => rw [readCommand, List.append_nil]
  | cons c rest ih =>
    rw [List.mem_cons, not_or] at hbell
    have hnot : ¬ (c = '\\' ∧ closes (esc ++ [c]) = true ∨ c = bell) := by
      rintro (⟨rfl, hcloses⟩ | rfl)
      · have hfalse := hopen [] rest rfl
        rw [List.append_nil] at hfalse
        exact Bool.false_ne_true (hfalse.symm.trans hcloses)
      · exact hbell.1 rfl
    rw [readCommand, if_neg hnot, ih hbell.2]
    · rw [List.append_assoc]
      rfl
    · intro p q hrest
      have hfalse := hopen (c :: p) q (congrArg (c :: ·) hrest)
      rwa [List.append_assoc esc]

end Command

/-! ### Tokens -/

/-- A command with a character of more than one byte. -/
def multibyte : EscapeToken → Bool
  | .command body _ => body.any fun c => 1 < c.utf8Size
  | _ => false

theorem byteLength_eq_length_iff (s : List Char) :
    byteLength s = s.length ↔ (s.any fun c => 1 < c.utf8Size) = false := by
  induction s with
  | nil => exact ⟨fun _ => rfl, fun _ => rfl⟩
  | cons c s ih =>
    have hle := length_le_byteLength s
    have hpos := Char.utf8Size_pos c
    have hcons : byteLength (c :: s) = c.utf8Size + byteLength s := rfl
    rw [List.any_cons, Bool.or_eq_false_iff, ← ih, decide_eq_false_iff_not, hcons, List.length_cons]
    omega

/-- Within a command no escape character stands before a backslash. -/
theorem getLast?_open {p q body : List Char} (hbody : body = p ++ '\\' :: q)
    (hplain : escapeChar ∉ body) : ([escapeChar, ']'] ++ p).getLast? ≠ some escapeChar := by
  rcases List.eq_nil_or_concat' p with rfl | ⟨p, c, rfl⟩
  · decide
  · intro hlast
    rw [← List.append_assoc, List.getLast?_concat] at hlast
    rw [hbody, Option.some.inj hlast] at hplain
    exact hplain (by simp)

theorem readCommand_chars {body : List Char} (plain : escapeChar ∉ body ∧ bell ∉ body)
    (rest : List Char) :
    readCommand closesByChars [escapeChar, ']'] (body ++ escapeChar :: '\\' :: rest) =
      ([escapeChar, ']'] ++ body ++ [escapeChar, '\\'], rest, true) := by
  refine readCommand_closed plain.2 ?_ ?_ rest
  · intro p q hbody
    rw [closesByChars_concat]
    exact decide_eq_false (getLast?_open hbody plain.1)
  · rw [closesByChars_concat, List.getLast?_concat]
    rfl

theorem readCommand_bytes {body : List Char} (plain : escapeChar ∉ body ∧ bell ∉ body)
    (hascii : byteLength body = body.length) (rest : List Char) :
    readCommand closesByBytes [escapeChar, ']'] (body ++ escapeChar :: '\\' :: rest) =
      ([escapeChar, ']'] ++ body ++ [escapeChar, '\\'], rest, true) := by
  refine readCommand_closed plain.2 ?_ ?_ rest
  · intro p q hbody
    rw [← Bool.not_eq_true, closesByBytes_concat]
    exact fun h => getLast?_open hbody plain.1 h.2
  · rw [closesByBytes_concat, List.getLast?_concat, byteLength_append, byteLength_append, hascii]
    refine ⟨?_, rfl⟩
    rw [List.length_append, List.length_append]
    rfl

/-- The position of the end of the command is missed. -/
theorem readCommand_missed {body : List Char} (plain : escapeChar ∉ body ∧ bell ∉ body)
    (hmulti : byteLength body ≠ body.length) {rest : List Char} (hbell : bell ∉ rest) :
    readCommand closesByBytes [escapeChar, ']'] (body ++ escapeChar :: '\\' :: rest) =
      ([escapeChar, ']'] ++ (body ++ escapeChar :: '\\' :: rest), [], false) := by
  refine readCommand_open ?_ ?_
  · rw [List.mem_append, List.mem_cons, List.mem_cons]
    rintro (hmem | heq | heq | hmem)
    · exact plain.2 hmem
    · exact absurd heq (by decide)
    · exact absurd heq (by decide)
    · exact hbell hmem
  · intro p q hsplit
    rw [← Bool.not_eq_true, closesByBytes_concat]
    rintro ⟨hbytes, hlast⟩
    rcases List.append_eq_append_iff.mp hsplit with ⟨p', rfl, -⟩ | ⟨q', hbody, hrest⟩
    · -- the character of more than one byte has been read
      have hbody := length_le_byteLength body
      have hp' := length_le_byteLength p'
      rw [byteLength_append, byteLength_append, List.length_append, List.length_append] at hbytes
      have htwo : byteLength [escapeChar, ']'] = [escapeChar, ']'].length := by decide
      omega
    · match q' with
      | [] =>
        rw [List.append_nil] at hbody
        have hp := length_le_byteLength p
        rw [byteLength_append, List.length_append] at hbytes
        have htwo : byteLength [escapeChar, ']'] = [escapeChar, ']'].length := by decide
        rw [hbody] at hmulti
        omega
      | c :: q' =>
        obtain ⟨rfl, -⟩ := List.cons.inj hrest
        exact getLast?_open hbody plain.1 hlast

theorem bell_not_mem_toText (token : EscapeToken) : bell ∉ token.toText := by
  cases token with
  | char c plain =>
    rw [EscapeToken.toText, List.mem_singleton]
    exact Ne.symm plain.2
  | control params numeric =>
    have hparams : bell ∉ params := fun h => absurd (numeric bell h).1 (by decide)
    simp [EscapeToken.toText, hparams]
    decide
  | command body plain =>
    simp [EscapeToken.toText, plain.2]
    decide

theorem bell_not_mem_render (tokens : List EscapeToken) : bell ∉ render tokens := by
  intro h
  obtain ⟨token, -, hmem⟩ := List.mem_flatMap.mp h
  exact bell_not_mem_toText token hmem

theorem length_le_length_render (tokens : List EscapeToken) :
    tokens.length ≤ (render tokens).length := by
  induction tokens with
  | nil => exact le_rfl
  | cons token tokens ih =>
    have hpos : 0 < token.toText.length := by
      cases token with
      | char c plain => exact Nat.one_pos
      | control params numeric => exact Nat.succ_pos _
      | command body plain => exact Nat.succ_pos _
    rw [render, List.flatMap_cons, List.length_append, List.length_cons]
    rw [render] at ih
    omega

/-! ### The pieces of a word -/

section Split

variable [UnicodeWidthChar] {width : ℕ}

def tokensWidth (tokens : List EscapeToken) : ℕ := textWidth (tokens.flatMap EscapeToken.shown)

theorem textWidth_append (s t : List Char) : textWidth (s ++ t) = textWidth s + textWidth t := by
  rw [textWidth, List.map_append, List.sum_append]
  rfl

theorem visibleLength_render (tokens : List EscapeToken) :
    visibleLength (render tokens) = tokensWidth tokens := by
  rw [visibleLength, visible_render]
  rfl

theorem tokensWidth_append (s t : List EscapeToken) :
    tokensWidth (s ++ t) = tokensWidth s + tokensWidth t := by
  rw [tokensWidth, List.flatMap_append, textWidth_append]
  rfl

theorem tokensWidth_cons (token : EscapeToken) (tokens : List EscapeToken) :
    tokensWidth (token :: tokens) = textWidth token.shown + tokensWidth tokens := by
  rw [tokensWidth, List.flatMap_cons, textWidth_append]
  rfl

/-- A token is added to the chunk or to the rest. -/
def Split.token (width : ℕ) (s : Split) : EscapeToken → Split
  | .char c _ => s.addChar width c
  | .control params h => s.addEscape (EscapeToken.control params h).toText
  | .command body h => s.addEscape (EscapeToken.command body h).toText

theorem splitLoop_token {token : EscapeToken} (hplain : multibyte token = false) (fuel : ℕ)
    (s : Split) (rest : List Char) :
    splitLoop width (fuel + 1) s (token.toText ++ rest) =
      splitLoop width fuel (s.token width token) rest := by
  cases token with
  | char c plain =>
    rw [EscapeToken.toText, List.singleton_append, splitLoop, if_neg plain.1]
    rfl
  | control params numeric =>
    rw [EscapeToken.toText, List.cons_append, List.cons_append, List.append_assoc,
      List.singleton_append, splitLoop, if_pos rfl, splitEscape, readControl_params numeric]
    rfl
  | command body plain =>
    have hascii := (byteLength_eq_length_iff body).mpr hplain
    rw [EscapeToken.toText, List.cons_append, List.cons_append, List.append_assoc,
      List.cons_append, List.singleton_append, splitLoop, if_pos rfl, splitEscape,
      readCommand_bytes plain hascii]
    rfl

/-- Tokens that fit become part of the chunk. -/
theorem splitLoop_fits {tokens : List EscapeToken} (hplain : ∀ t ∈ tokens, multibyte t = false)
    {s : Split} (hin : s.inChunk = true) (hfits : s.chunkWidth + tokensWidth tokens ≤ width)
    (fuel : ℕ) (rest : List Char) :
    splitLoop width (fuel + tokens.length) s (render tokens ++ rest) =
      splitLoop width fuel
        ⟨s.chunk ++ render tokens, s.chunkWidth + tokensWidth tokens, s.remaining, true⟩ rest := by
  induction tokens generalizing s with
  | nil =>
    rw [List.length_nil, render, List.flatMap_nil, List.nil_append, List.append_nil, ← hin]
    rfl
  | cons token tokens ih =>
    rw [tokensWidth_cons] at hfits
    have htoken : s.token width token =
        ⟨s.chunk ++ token.toText, s.chunkWidth + textWidth token.shown, s.remaining, true⟩ := by
      cases token with
      | char c plain =>
        have hwidth : textWidth [c] = charWidth c := Nat.add_zero _
        rw [EscapeToken.shown, hwidth] at hfits
        rw [Split.token, Split.addChar, if_pos hin, if_pos (by omega), EscapeToken.shown, hwidth,
          ← hin]
        rfl
      | control params numeric =>
        rw [Split.token, Split.addEscape, if_pos hin, ← hin]
        rfl
      | command body plain =>
        rw [Split.token, Split.addEscape, if_pos hin, ← hin]
        rfl
    rw [render, List.flatMap_cons, List.append_assoc, List.length_cons, ← Nat.add_assoc,
      splitLoop_token (hplain token List.mem_cons_self), htoken]
    refine (ih (fun t ht => hplain t (List.mem_cons_of_mem _ ht)) rfl ?_).trans ?_
    · rw [Nat.add_assoc]
      exact hfits
    · rw [tokensWidth_cons, List.append_assoc, Nat.add_assoc]
      rfl

variable {tokens : List EscapeToken} {c : Char} {plain : c ≠ escapeChar ∧ c ≠ bell}

theorem splitLoop_start (hplain : ∀ t ∈ tokens, multibyte t = false)
    (hfits : tokensWidth tokens ≤ width) (fuel : ℕ) (rest : List Char) :
    splitLoop width (fuel + tokens.length) ⟨[], 0, [], true⟩ (render tokens ++ rest) =
      splitLoop width fuel ⟨render tokens, tokensWidth tokens, [], true⟩ rest := by
  have hstart : (⟨[], 0, [], true⟩ : Split).chunkWidth + tokensWidth tokens ≤ width := by
    rw [Nat.zero_add]
    exact hfits
  have hsplit := splitLoop_fits hplain rfl hstart fuel rest
  rw [Nat.zero_add] at hsplit
  exact hsplit

omit [UnicodeWidthChar] in
theorem render_concat_char (tokens : List EscapeToken) (c : Char)
    (plain : c ≠ escapeChar ∧ c ≠ bell) :
    render (tokens ++ [.char c plain]) = render tokens ++ [c] := by
  rw [render_append]
  rfl

omit [UnicodeWidthChar] in
theorem exists_fuel (before after : List EscapeToken) {text : List Char} (htext : text ≠ [])
    (hafter : render after = text) :
    ∃ fuel, (render (before ++ after)).length = fuel + 1 + before.length := by
  have hlen := length_le_length_render before
  have hpos := List.length_pos_iff.mpr htext
  rw [render_append, List.length_append, hafter]
  exact ⟨(render before).length + text.length - 1 - before.length, by omega⟩

/-- The character that does not fit is left. -/
theorem splitWordAtWidth_plain (hplain : ∀ t ∈ tokens, multibyte t = false)
    (hfits : tokensWidth tokens ≤ width) (hwide : width < tokensWidth tokens + charWidth c) :
    splitWordAtWidth (render (tokens ++ [.char c plain])) width = (render tokens, [c]) := by
  obtain ⟨fuel, hfuel⟩ := exists_fuel tokens [.char c plain] (List.cons_ne_nil c []) rfl
  rw [splitWordAtWidth, hfuel, render_concat_char, splitLoop_start hplain hfits, splitLoop,
    if_neg plain.1, Split.addChar, if_pos rfl, if_neg (Nat.not_le.mpr hwide), splitLoop]
  rfl

/-- After a command with a character of more than one byte nothing is left. -/
theorem splitWordAtWidth_marked (hmarked : tokens.any multibyte = true)
    (hfits : tokensWidth tokens ≤ width) :
    splitWordAtWidth (render (tokens ++ [.char c plain])) width =
      (render (tokens ++ [.char c plain]), []) := by
  obtain ⟨t, ht, hmulti⟩ := List.any_eq_true.mp hmarked
  obtain ⟨command, hfind⟩ := Option.isSome_iff_exists.mp (List.find?_isSome.mpr ⟨t, ht, hmulti⟩)
  obtain ⟨hmulti, before, after, rfl, hbefore⟩ := List.find?_eq_some_iff_append.mp hfind
  cases command with
  | char c plain => exact absurd hmulti Bool.false_ne_true
  | control params numeric => exact absurd hmulti Bool.false_ne_true
  | command body bodyPlain =>
    have hbytes : byteLength body ≠ body.length := fun heq =>
      Bool.false_ne_true (((byteLength_eq_length_iff body).mp heq).symm.trans hmulti)
    have hplain : ∀ t ∈ before, multibyte t = false := by
      intro t ht
      have hnot := hbefore t ht
      rwa [Bool.not_eq_true'] at hnot
    rw [tokensWidth_append] at hfits
    -- the rest of the word is read as part of the command
    have hrest : render (.command body bodyPlain :: (after ++ [.char c plain])) =
        escapeChar :: ']' :: (body ++ escapeChar :: '\\' :: render (after ++ [.char c plain])) := by
      rw [render, List.flatMap_cons, EscapeToken.toText, List.cons_append, List.cons_append,
        List.append_assoc]
      rfl
    rw [List.append_assoc, List.cons_append]
    obtain ⟨fuel, hfuel⟩ := exists_fuel before _ (List.cons_ne_nil _ _) hrest
    rw [splitWordAtWidth, hfuel, render_append, hrest, splitLoop_start hplain (by omega), splitLoop,
      if_pos rfl, splitEscape, readCommand_missed bodyPlain hbytes (bell_not_mem_render _),
      splitLoop]
    rfl

end Split

end TableText

end HeliosLite
