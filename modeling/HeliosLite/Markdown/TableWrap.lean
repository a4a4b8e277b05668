import HeliosLite.Markdown.TableScan

/-!
# Which cells are wrapped to the width of their column

If a word is cut after a command with a character of more than one byte, the rest of it is put on
one line, which is wider than the column. All other lines fit, and show the characters of the cell.

## Main definitions

* `Piece`, `Swallows` — a word is cut where a piece of it has such a command
* `Wrapped` — what is known of a cell that is wrapped

## Main results

* `wrap_spec` — the lines of a cell
-/

namespace HeliosLite

open Theory UnicodeWidthChar

namespace TableText

section Wrap

variable [UnicodeWidthChar] {width : ℕ}

/-- One token of a cell. -/
def CellWrap.token (width : ℕ) (s : CellWrap) : EscapeToken → Option CellWrap
  | .char c _ => if isWhitespace c then some (s.space width c) else s.char width c
  | .control params h =>
    some { s with
      word := s.word ++ (EscapeToken.control params h).toText
      activeStyle :=
        if (EscapeToken.control params h).toText = resetCode then none
        else some (EscapeToken.control params h).toText }
  | .command body h =>
    some { s with
      word := s.word ++ (EscapeToken.command body h).toText
      inOsc := false }

theorem wrapLoop_token (token : EscapeToken) (fuel : ℕ) (s : CellWrap) (rest : List Char) :
    wrapLoop width (fuel + 1) s (token.toText ++ rest) =
      (s.token width token).bind fun s => wrapLoop width fuel s rest := by
  cases token with
  | char c plain =>
    rw [EscapeToken.toText, List.singleton_append, wrapLoop, if_neg plain.1, CellWrap.token]
    split
    · rfl
    · rfl
  | control params numeric =>
    have hlast : (escapeChar :: '[' :: (params ++ ['m'])).getLast? = some 'm' := by
      rw [← List.cons_append, ← List.cons_append, List.getLast?_concat]
    rw [EscapeToken.toText, List.cons_append, List.cons_append, List.append_assoc,
      List.singleton_append, wrapLoop, if_pos rfl, CellWrap.escape, readControl_params numeric]
    simp only [hlast, if_true]
    rfl
  | command body plain =>
    rw [EscapeToken.toText, List.cons_append, List.cons_append, List.append_assoc,
      List.cons_append, List.singleton_append, wrapLoop, if_pos rfl, CellWrap.escape,
      readCommand_chars plain]
    rfl

theorem wrapLoop_render {tokens : List EscapeToken} {fuel : ℕ} (hfuel : tokens.length ≤ fuel)
    (s : CellWrap) :
    wrapLoop width fuel s (render tokens) = tokens.foldlM (CellWrap.token width) s := by
  induction tokens generalizing fuel s with
  | nil => cases fuel <;> rfl
  | cons token tokens ih =>
    obtain ⟨n, rfl⟩ : ∃ n, fuel = n + 1 := by
      rw [List.length_cons] at hfuel
      exact ⟨fuel - 1, by omega⟩
    rw [render, List.flatMap_cons, wrapLoop_token, List.foldlM_cons]
    exact congrArg _ (funext fun s' => ih (Nat.le_of_succ_le_succ hfuel) s')

/-- The piece of a word since it was last cut: its width, whether it has a command with a character
of more than one byte, and whether a word has been cut after such a command. -/
structure Piece where
  width : ℕ
  marked : Bool
  swallowed : Bool
  deriving DecidableEq, Repr

def Piece.step (width : ℕ) (p : Piece) : EscapeToken → Piece
  | .char c _ =>
    if isWhitespace c then ⟨0, false, p.swallowed⟩
    else if p.width + charWidth c ≤ width then { p with width := p.width + charWidth c }
    else ⟨charWidth c, false, p.swallowed || p.marked⟩
  | token => { p with marked := p.marked || multibyte token }

/-- A word is cut where the piece has a command with a character of more than one byte. -/
def Swallows (width : ℕ) (tokens : List EscapeToken) : Bool :=
  (tokens.foldl (Piece.step width) ⟨0, false, false⟩).swallowed

/-! #### The line that is filled -/

/-- What the lines show. -/
def linesShown (lines : List (List Char)) (line : List Char) : List Char :=
  lines.flatMap visible ++ visible line

omit [UnicodeWidthChar] in
theorem closed_resetCode : Closed resetCode := by decide

omit [UnicodeWidthChar] in
theorem visible_resetCode : visible resetCode = [] := by decide

/-- The lines are closed texts, and the last one fits. -/
structure LineOk (width : ℕ) (lines : List (List Char)) (line : List Char) (lineWidth : ℕ)
    (style : Option (List Char)) : Prop where
  closed : Closed line
  length : lineWidth = visibleLength line
  fits : lineWidth ≤ width
  lines : ∀ line ∈ lines, Closed line
  style : ∀ code, style = some code → Closed code ∧ visible code = []

variable {lines : List (List Char)} {line : List Char} {lineWidth : ℕ} {style : Option (List Char)}
  {text : List Char}

theorem visibleLength_append (hline : Closed line) (text : List Char) :
    visibleLength (line ++ text) = visibleLength line + visibleLength text := by
  rw [visibleLength, visible_append hline, textWidth_append]
  rfl

theorem LineOk.append (h : LineOk width lines line lineWidth style) (htext : Closed text)
    (hfits : lineWidth + visibleLength text ≤ width) :
    LineOk width lines (line ++ text) (lineWidth + visibleLength text) style where
  closed := h.closed.append htext
  length := by rw [visibleLength_append h.closed, h.length]
  fits := hfits
  lines := h.lines
  style := h.style

theorem LineOk.linesShown_append (h : LineOk width lines line lineWidth style) (text : List Char) :
    linesShown lines (line ++ text) = linesShown lines line ++ visible text := by
  rw [linesShown, visible_append h.closed, ← List.append_assoc]
  rfl

theorem LineOk.style_getD (h : LineOk width lines line lineWidth style) :
    Closed (style.getD []) ∧ visible (style.getD []) = [] := by
  cases hstyle : style with
  | none => exact ⟨closed_nil, rfl⟩
  | some code => exact h.style code hstyle

/-- A line ends after more text. -/
theorem LineOk.breakLine (h : LineOk width lines line lineWidth style) (htext : Closed text) :
    LineOk width (lines ++ [line ++ text ++ resetCode]) (style.getD []) 0 style ∧
      linesShown (lines ++ [line ++ text ++ resetCode]) (style.getD []) =
        linesShown lines line ++ visible text ∧
      visibleLength (line ++ text ++ resetCode) = lineWidth + visibleLength text := by
  have hclosed : Closed (line ++ text) := h.closed.append htext
  have hvisible : visible (line ++ text ++ resetCode) = visible line ++ visible text := by
    rw [visible_append hclosed, visible_resetCode, List.append_nil, visible_append h.closed]
  refine ⟨⟨h.style_getD.1, ?_, Nat.zero_le _, ?_, h.style⟩, ?_, ?_⟩
  · rw [visibleLength, h.style_getD.2]
    rfl
  · intro l hl
    rcases List.mem_append.mp hl with hl | hl
    · exact h.lines l hl
    · rw [List.mem_singleton.mp hl]
      exact hclosed.append closed_resetCode
  · rw [linesShown, h.style_getD.2, List.flatMap_append, List.flatMap_singleton, hvisible,
      List.append_nil, ← List.append_assoc]
    rfl
  · rw [visibleLength, hvisible, textWidth_append, h.length]
    rfl

/-! #### Tokens one after the other -/

/-- The characters that are not whitespace. -/
def nonblank (text : List Char) : List Char := text.filter fun c => !isWhitespace c

omit [UnicodeWidthChar] in
theorem nonblank_append (s t : List Char) : nonblank (s ++ t) = nonblank s ++ nonblank t :=
  List.filter_append ..

/-- What is known of a cell after some tokens, the last of them in the word. -/
structure Wrapped (width : ℕ) (tokens word : List EscapeToken) (p : Piece) (s : CellWrap) :
    Prop where
  line : LineOk width s.lines s.line s.lineWidth s.activeStyle
  word_eq : s.word = render word
  wordWidth : s.wordWidth = tokensWidth word
  wordFits : s.wordWidth ≤ width
  kept : nonblank (linesShown s.lines s.line ++ visible s.word) =
    nonblank (tokens.flatMap EscapeToken.shown)
  fits : p.swallowed = false → ∀ line ∈ s.lines, visibleLength line ≤ width
  tooWide : p.swallowed = true → ∃ line ∈ s.lines, width < visibleLength line
  piece : p.swallowed = false → p.width = tokensWidth word ∧ p.marked = word.any multibyte
  pos : p.swallowed = false → tokensWidth tokens = 0 ∨ 0 < s.lineWidth + s.wordWidth

/-- A line may have ended. -/
structure Flushed (width : ℕ) (s s' : CellWrap) : Prop where
  line : LineOk width s'.lines s'.line s'.lineWidth s'.activeStyle
  shown : linesShown s'.lines s'.line = linesShown s.lines s.line
  subset : ∀ line ∈ s.lines, line ∈ s'.lines
  fits : ∀ line ∈ s'.lines, line ∈ s.lines ∨ visibleLength line ≤ width
  word : s'.word = s.word
  wordWidth : s'.wordWidth = s.wordWidth

variable {s : CellWrap} {tokens word : List EscapeToken} {p : Piece} {c : Char}
  {plain : c ≠ escapeChar ∧ c ≠ bell}

theorem flushed_refl (h : LineOk width s.lines s.line s.lineWidth s.activeStyle) :
    Flushed width s s :=
  ⟨h, rfl, fun _ hl => hl, fun _ hl => .inl hl, rfl, rfl⟩

theorem flushed_breakLine (h : LineOk width s.lines s.line s.lineWidth s.activeStyle) :
    Flushed width s s.breakLine := by
  obtain ⟨hline, hshown, hlength⟩ := h.breakLine closed_nil
  rw [List.append_nil] at hline hshown hlength
  refine ⟨hline, ?_, fun l hl => List.mem_append_left _ hl, ?_, rfl, rfl⟩
  · exact hshown.trans (List.append_nil _)
  · intro l hl
    rcases List.mem_append.mp hl with hl | hl
    · exact .inl hl
    · rw [List.mem_singleton.mp hl, hlength]
      exact .inr h.fits

theorem tokensWidth_concat (tokens : List EscapeToken) (token : EscapeToken) :
    tokensWidth (tokens ++ [token]) = tokensWidth tokens + textWidth token.shown := by
  rw [tokensWidth_append, tokensWidth_cons]
  rfl

theorem textWidth_singleton (c : Char) : textWidth [c] = charWidth c := Nat.add_zero _

theorem visibleLength_char (plain : c ≠ escapeChar ∧ c ≠ bell) :
    visibleLength [c] = charWidth c := by
  have hvisible : visible [c] = [c] := visible_toText (EscapeToken.char c plain)
  rw [visibleLength, hvisible, textWidth_singleton]

/-- An escape sequence becomes part of the word. -/
theorem Wrapped.escape (h : Wrapped width tokens word p s) {token : EscapeToken}
    (hshown : token.shown = []) (hstep : p.step width token =
      { p with marked := p.marked || multibyte token })
    {s' : CellWrap} (hlines : s'.lines = s.lines ∧ s'.line = s.line ∧ s'.lineWidth = s.lineWidth)
    (hword : s'.word = s.word ++ token.toText ∧ s'.wordWidth = s.wordWidth)
    (hstyle : ∀ code, s'.activeStyle = some code →
      s.activeStyle = some code ∨ code = token.toText) :
    Wrapped width (tokens ++ [token]) (word ++ [token]) (p.step width token) s' := by
  obtain ⟨hlines, hline, hlineWidth⟩ := hlines
  obtain ⟨hword, hwordWidth⟩ := hword
  have hnone : textWidth token.shown = 0 := by rw [hshown]; rfl
  rw [hstep]
  constructor
  · rw [hlines, hline, hlineWidth]
    refine ⟨h.line.closed, h.line.length, h.line.fits, h.line.lines, fun code hcode => ?_⟩
    rcases hstyle code hcode with hold | rfl
    · exact h.line.style code hold
    · exact ⟨closed_toText token, (visible_toText token).trans hshown⟩
  · rw [hword, h.word_eq, render_append]
    exact congrArg (render word ++ ·) (List.append_nil _).symm
  · rw [hwordWidth, tokensWidth_concat, hnone, h.wordWidth]
    rfl
  · rw [hwordWidth]
    exact h.wordFits
  · rw [hlines, hline, hword, h.word_eq, visible_append (closed_render word), visible_toText,
      hshown, List.append_nil, List.flatMap_append, List.flatMap_singleton, hshown, List.append_nil,
      ← h.kept, h.word_eq]
  · rw [hlines]
    exact h.fits
  · rw [hlines]
    exact h.tooWide
  · intro hfine
    obtain ⟨hwidth, hmarked⟩ := h.piece hfine
    refine ⟨?_, ?_⟩
    · rw [tokensWidth_concat, hnone]
      exact hwidth
    · rw [List.any_append, ← hmarked, List.any_cons, List.any_nil, Bool.or_false]
  · intro hfine
    rw [tokensWidth_concat, hnone, hlineWidth, hwordWidth]
    exact h.pos hfine

/-- The line ends before the whitespace if both do not fit. -/
theorem Wrapped.flush_space (h : Wrapped width tokens word p s) (c : Char) :
    ∃ s', s' = (if 0 < s.lineWidth ∧ width < s.lineWidth + s.wordWidth + charWidth c then
        s.breakLine else s) ∧
      Flushed width s s' ∧ s'.lineWidth + s.wordWidth ≤ width ∧
      (0 < s.lineWidth + s.wordWidth → s'.lineWidth + s.wordWidth = 0 → 0 < charWidth c) := by
  have hfits := h.line.fits
  have hword := h.wordFits
  refine ⟨_, rfl, ?_⟩
  split
  case isTrue hwide =>
    have hzero : s.breakLine.lineWidth = 0 := rfl
    refine ⟨flushed_breakLine h.line, ?_, ?_⟩ <;> rw [hzero] <;> omega
  case isFalse hnot =>
    refine ⟨flushed_refl h.line, ?_, ?_⟩ <;> omega

/-- The word and the whitespace after it are put on the line. -/
theorem Wrapped.space (h : Wrapped width tokens word p s) (hblank : isWhitespace c = true)
    (hchar : charWidth c ≤ width) :
    Wrapped width (tokens ++ [.char c plain]) [] (p.step width (.char c plain))
      (s.space width c) := by
  obtain ⟨s', hs', hflush, hroom, hpos⟩ := h.flush_space c
  have hclosed : Closed s'.word := by
    rw [hflush.word, h.word_eq]
    exact closed_render word
  have hlength : s'.wordWidth = visibleLength s'.word := by
    rw [hflush.word, hflush.wordWidth, h.wordWidth, h.word_eq, visibleLength_render]
  have hsame := hflush.wordWidth
  rw [← hsame] at hroom
  have hline := hflush.line.append hclosed (by rwa [← hlength])
  rw [← hlength] at hline
  have hshown := hflush.line.linesShown_append s'.word
  have hc : Closed [c] ∧ visible [c] = [c] :=
    ⟨closed_toText (EscapeToken.char c plain), visible_toText (EscapeToken.char c plain)⟩
  have hcLength := visibleLength_char plain
  have hnone : nonblank [c] = [] := by
    rw [nonblank, List.filter_cons_of_neg (by rw [hblank]; decide)]
    rfl
  have hkept : nonblank (linesShown s'.lines (s'.line ++ s'.word)) =
      nonblank ((tokens ++ [EscapeToken.char c plain]).flatMap EscapeToken.shown) := by
    rw [hshown, hflush.shown, hflush.word, h.kept, List.flatMap_append, nonblank_append,
      List.flatMap_singleton, EscapeToken.shown, hnone, List.append_nil]
  have htotal :
      tokensWidth (tokens ++ [EscapeToken.char c plain]) = tokensWidth tokens + charWidth c := by
    rw [tokensWidth_concat, EscapeToken.shown, textWidth_singleton]
  have hstep : p.step width (.char c plain) = ⟨0, false, p.swallowed⟩ := if_pos hblank
  have hfits : p.swallowed = false → ∀ line ∈ s'.lines, visibleLength line ≤ width := by
    intro hfine l hl
    rcases hflush.fits l hl with hl | hl
    · exact h.fits hfine l hl
    · exact hl
  have htooWide : p.swallowed = true → ∃ line ∈ s'.lines, width < visibleLength line := by
    intro hswallowed
    obtain ⟨l, hl, hwide⟩ := h.tooWide hswallowed
    exact ⟨l, hflush.subset l hl, hwide⟩
  rw [hstep, CellWrap.space, ← hs']
  simp only
  split
  case isTrue hc' =>
    have hline' := hline.append hc.1 (by rwa [hcLength])
    rw [hcLength] at hline'
    refine ⟨hline', rfl, rfl, Nat.zero_le _, ?_, hfits, htooWide, fun _ => ⟨rfl, rfl⟩, ?_⟩
    · show nonblank (linesShown s'.lines (s'.line ++ s'.word ++ [c]) ++ visible []) = _
      rw [hline.linesShown_append, hc.2, List.append_assoc, nonblank_append, hkept]
      exact (congrArg (_ ++ ·) hnone).trans (List.append_nil _)
    · intro hfine
      have hold := h.pos hfine
      show _ ∨ 0 < s'.lineWidth + s'.wordWidth + charWidth c + 0
      omega
  case isFalse hc' =>
    refine ⟨hline, rfl, rfl, Nat.zero_le _, ?_, hfits, htooWide, fun _ => ⟨rfl, rfl⟩, ?_⟩
    · exact (congrArg nonblank (List.append_nil _)).trans hkept
    · intro hfine
      have hold := h.pos hfine
      show _ ∨ 0 < s'.lineWidth + s'.wordWidth + 0
      omega

/-! #### A character of a word -/

theorem breakWord_done (h : visibleLength s.word ≤ width) (fuel : ℕ) :
    s.breakWord width fuel = some s := by
  cases fuel with
  | zero => rw [CellWrap.breakWord, if_pos h]
  | succ fuel => rw [CellWrap.breakWord, if_pos h]

theorem visibleLength_render_concat (word : List EscapeToken) (c : Char)
    (plain : c ≠ escapeChar ∧ c ≠ bell) :
    visibleLength (render (word ++ [EscapeToken.char c plain])) =
      tokensWidth word + charWidth c := by
  rw [visibleLength_render, tokensWidth_concat, EscapeToken.shown, textWidth_singleton]

omit [UnicodeWidthChar] in
theorem render_ne_nil (h : word ≠ []) : render word ≠ [] := by
  have hlen := length_le_length_render word
  have hpos := List.length_pos_iff.mpr h
  rw [← List.length_pos_iff]
  omega

/-- The word is cut before the character that does not fit. -/
theorem breakWord_plain (hword : s.word = render (word ++ [EscapeToken.char c plain]))
    (hplain : word.any multibyte = false) (hfits : tokensWidth word ≤ width)
    (hwide : width < tokensWidth word + charWidth c) (hchar : charWidth c ≤ width) (fuel : ℕ) :
    s.breakWord width (fuel + 1) =
      some { CellWrap.breakLine { s with line := s.line ++ render word } with word := [c] } := by
  have hlong : ¬ visibleLength s.word ≤ width := by
    rw [hword, visibleLength_render_concat]
    exact Nat.not_le.mpr hwide
  have hne : word ≠ [] := by
    rintro rfl
    have hzero : tokensWidth [] = 0 := rfl
    omega
  have hnone : ∀ t ∈ word, multibyte t = false := fun t ht =>
    Bool.eq_false_iff.mpr fun hmulti =>
      Bool.false_ne_true (hplain.symm.trans (List.any_eq_true.mpr ⟨t, ht, hmulti⟩))
  rw [CellWrap.breakWord, if_neg hlong, hword, splitWordAtWidth_plain hnone hfits hwide]
  simp only [if_neg (render_ne_nil hne)]
  exact breakWord_done ((visibleLength_char plain).trans_le hchar) fuel

/-- The word is not cut, and put on a line as a whole. -/
theorem breakWord_marked (hword : s.word = render (word ++ [EscapeToken.char c plain]))
    (hmarked : word.any multibyte = true) (hfits : tokensWidth word ≤ width)
    (hwide : width < tokensWidth word + charWidth c) (fuel : ℕ) :
    s.breakWord width (fuel + 1) =
      some { CellWrap.breakLine { s with line := s.line ++ s.word } with word := [] } := by
  have hlong : ¬ visibleLength s.word ≤ width := by
    rw [hword, visibleLength_render_concat]
    exact Nat.not_le.mpr hwide
  have hne : render (word ++ [EscapeToken.char c plain]) ≠ [] :=
    render_ne_nil (List.append_ne_nil_of_right_ne_nil _ (List.cons_ne_nil _ _))
  rw [CellWrap.breakWord, if_neg hlong, hword, splitWordAtWidth_marked hmarked hfits]
  simp only [if_neg hne]
  exact breakWord_done (Nat.zero_le _) fuel

/-- A character that fits. -/
theorem Wrapped.char_fits (h : Wrapped width tokens word p s) (hvisible : isWhitespace c = false)
    (hfits : s.wordWidth + charWidth c ≤ width) :
    ∃ s', s.char width c = some s' ∧
      Wrapped width (tokens ++ [.char c plain]) (word ++ [.char c plain])
        (p.step width (.char c plain)) s' := by
  refine ⟨_, if_pos hfits, ?_⟩
  have hnot : ¬ isWhitespace c = true := Bool.not_eq_true _ ▸ hvisible
  have hstep : p.swallowed = false →
      p.step width (.char c plain) = { p with width := p.width + charWidth c } := by
    intro hfine
    rw [Piece.step, if_neg hnot, if_pos]
    rw [(h.piece hfine).1, ← h.wordWidth]
    exact hfits
  have hswallowed : (p.step width (.char c plain)).swallowed = p.swallowed := by
    cases hfine : p.swallowed with
    | false => rw [hstep hfine, hfine]
    | true =>
      rw [Piece.step, if_neg hnot]
      split
      · exact hfine
      · rw [hfine]
        rfl
  have hwidth : tokensWidth (word ++ [EscapeToken.char c plain]) =
      tokensWidth word + charWidth c := by
    rw [tokensWidth_concat, EscapeToken.shown, textWidth_singleton]
  constructor
  · exact h.line
  · rw [render_concat_char, h.word_eq]
  · rw [hwidth, h.wordWidth]
  · exact hfits
  · rw [h.word_eq, ← render_concat_char _ c plain, render_append,
      visible_append (closed_render word), ← List.append_assoc, nonblank_append, ← h.word_eq,
      h.kept, List.flatMap_append, nonblank_append, visible_render]
  · rw [hswallowed]
    exact h.fits
  · rw [hswallowed]
    exact h.tooWide
  · rw [hswallowed]
    intro hfine
    rw [hstep hfine, hwidth, (h.piece hfine).1, List.any_append, ← (h.piece hfine).2]
    exact ⟨rfl, (Bool.or_false _).symm⟩
  · rw [hswallowed]
    intro hfine
    have hold := h.pos hfine
    rw [tokensWidth_concat, EscapeToken.shown, textWidth_singleton]
    show _ ∨ 0 < s.lineWidth + (s.wordWidth + charWidth c)
    omega

/-- The line ends before a word that is cut. -/
theorem flush_char (h : LineOk width s.lines s.line s.lineWidth s.activeStyle) :
    ∃ s', s' = (if 0 < s.lineWidth then s.breakLine else s) ∧ Flushed width s s' ∧
      s'.lineWidth = 0 := by
  refine ⟨_, rfl, ?_⟩
  split
  case isTrue => exact ⟨flushed_breakLine h, rfl⟩
  case isFalse hzero => exact ⟨flushed_refl h, Nat.eq_zero_of_not_pos hzero⟩

/-- A piece of a word stands on a line that has ended, and the rest is the word. -/
theorem Wrapped.cut {s' : CellWrap} (h : Wrapped width tokens word p s)
    (hflush : Flushed width { s with
      word := s.word ++ [c]
      wordWidth := s.wordWidth + charWidth c } s')
    (hzero : s'.lineWidth = 0) {piece rest : List EscapeToken} {p' : Piece}
    (hpiece : render word ++ [c] = render piece ++ render rest)
    (hrest : tokensWidth rest ≤ width)
    (hfits : p'.swallowed = false → p.swallowed = false ∧ tokensWidth piece ≤ width ∧
      p'.width = tokensWidth rest ∧ p'.marked = rest.any multibyte ∧ 0 < tokensWidth rest)
    (htooWide : p'.swallowed = true → p.swallowed = true ∨ width < tokensWidth piece) :
    Wrapped width (tokens ++ [EscapeToken.char c plain]) rest p'
      { CellWrap.breakLine { s' with line := s'.line ++ render piece } with
        word := render rest
        wordWidth := visibleLength (render rest) } := by
  obtain ⟨hline, hshown, hlength⟩ := hflush.line.breakLine (closed_render piece)
  rw [hzero, Nat.zero_add, visibleLength_render] at hlength
  constructor
  · exact hline
  · rfl
  · exact visibleLength_render rest
  · exact (visibleLength_render rest).trans_le hrest
  · refine (congrArg (fun shown => nonblank (shown ++ _)) hshown).trans ?_
    rw [hflush.shown, List.append_assoc, ← visible_append (closed_render piece), ← hpiece,
      visible_append (closed_render word), ← h.word_eq, ← List.append_assoc, nonblank_append,
      h.kept, List.flatMap_append, nonblank_append, List.flatMap_singleton,
      ← visible_toText (EscapeToken.char c plain)]
    rfl
  · intro hfine l hl
    obtain ⟨hold, hpieceFits, -⟩ := hfits hfine
    rcases List.mem_append.mp hl with hl | hl
    · rcases hflush.fits l hl with hl | hl
      · exact h.fits hold l hl
      · exact hl
    · rw [List.mem_singleton.mp hl, hlength]
      exact hpieceFits
  · intro hswallowed
    rcases htooWide hswallowed with hold | hwide
    · obtain ⟨l, hl, hlong⟩ := h.tooWide hold
      exact ⟨l, List.mem_append_left _ (hflush.subset l hl), hlong⟩
    · exact ⟨_, List.mem_append_right _ (List.mem_singleton.mpr rfl), by rwa [hlength]⟩
  · intro hfine
    obtain ⟨-, -, hwidth, hmarked, -⟩ := hfits hfine
    exact ⟨hwidth, hmarked⟩
  · intro hfine
    obtain ⟨-, -, -, -, hpos⟩ := hfits hfine
    right
    show 0 < 0 + visibleLength (render rest)
    rw [Nat.zero_add, visibleLength_render]
    exact hpos

/-- A character that does not fit. -/
theorem Wrapped.char_overflow (h : Wrapped width tokens word p s)
    (hvisible : isWhitespace c = false) (hchar : charWidth c ≤ width)
    (hwide : width < s.wordWidth + charWidth c) :
    ∃ s' word', s.char width c = some s' ∧
      Wrapped width (tokens ++ [.char c plain]) word' (p.step width (.char c plain)) s' := by
  obtain ⟨s₁, hs₁, hflush, hzero⟩ := flush_char (s := { s with
    word := s.word ++ [c]
    wordWidth := s.wordWidth + charWidth c }) h.line
  have hnot : ¬ isWhitespace c = true := Bool.not_eq_true _ ▸ hvisible
  have hword : s₁.word = render (word ++ [EscapeToken.char c plain]) := by
    rw [hflush.word, render_concat_char, h.word_eq]
  have hfits := h.wordFits
  rw [h.wordWidth] at hwide hfits
  have heq : s.char width c = (s₁.breakWord width s₁.word.length).map fun s =>
      { s with wordWidth := visibleLength s.word } := by
    rw [CellWrap.char, if_neg (by rw [h.wordWidth]; exact Nat.not_le.mpr hwide), ← hs₁]
  obtain ⟨fuel, hfuel⟩ : ∃ fuel, s₁.word.length = fuel + 1 := by
    rw [hflush.word, List.length_append]
    exact ⟨_, rfl⟩
  have hone : tokensWidth [EscapeToken.char c plain] = charWidth c := by
    rw [tokensWidth_cons, EscapeToken.shown, textWidth_singleton]
    rfl
  have hswallowed : p.swallowed = false →
      p.step width (.char c plain) = ⟨charWidth c, false, word.any multibyte⟩ := by
    intro hfine
    rw [Piece.step, if_neg hnot, if_neg, hfine, (h.piece hfine).2, Bool.false_or]
    rw [(h.piece hfine).1]
    exact Nat.not_le.mpr hwide
  have hold : p.swallowed = true → (p.step width (.char c plain)).swallowed = true := by
    intro hbad
    rw [Piece.step, if_neg hnot]
    split
    · exact hbad
    · rw [hbad]
      rfl
  rw [heq, hfuel]
  cases hmarked : word.any multibyte with
  | false =>
    rw [breakWord_plain hword hmarked hfits hwide hchar]
    have hpiece : render word ++ [c] = render word ++ render [EscapeToken.char c plain] := rfl
    refine ⟨_, [.char c plain], rfl, h.cut hflush hzero hpiece (hone.trans_le hchar) ?_ ?_⟩
    · intro hfine
      have hfine' : p.swallowed = false := Bool.eq_false_iff.mpr fun hbad =>
        Bool.false_ne_true (hfine.symm.trans (hold hbad))
      rw [hswallowed hfine', hone]
      exact ⟨hfine', hfits, rfl, rfl, by omega⟩
    · intro hbad
      left
      by_contra hfine
      rw [hswallowed (Bool.eq_false_iff.mpr hfine), hmarked] at hbad
      exact Bool.false_ne_true hbad
  | true =>
    rw [breakWord_marked hword hmarked hfits hwide, hword]
    have hpiece : render word ++ [c] =
        render (word ++ [EscapeToken.char c plain]) ++ render [] := by
      rw [render_concat_char]
      exact (List.append_nil _).symm
    refine ⟨_, [], rfl, h.cut hflush hzero hpiece (Nat.zero_le _) ?_ ?_⟩
    · intro hfine
      have hfine' : p.swallowed = false := Bool.eq_false_iff.mpr fun hbad =>
        Bool.false_ne_true (hfine.symm.trans (hold hbad))
      rw [hswallowed hfine', hmarked] at hfine
      exact absurd hfine.symm Bool.false_ne_true
    · intro _
      right
      rw [tokensWidth_concat, EscapeToken.shown, textWidth_singleton]
      exact hwide

/-! #### A whole cell -/

theorem wrapped_start (width : ℕ) : Wrapped width [] [] ⟨0, false, false⟩ .start where
  line := ⟨closed_nil, rfl, Nat.zero_le _, fun _ h => absurd h List.not_mem_nil,
    fun _ h => absurd h.symm (Option.some_ne_none _)⟩
  word_eq := rfl
  wordWidth := rfl
  wordFits := Nat.zero_le _
  kept := rfl
  fits _ := fun _ h => absurd h List.not_mem_nil
  tooWide h := absurd h Bool.false_ne_true
  piece _ := ⟨rfl, rfl⟩
  pos _ := .inl rfl

/-- One more token. -/
theorem Wrapped.token (h : Wrapped width tokens word p s) (hchars : ∀ c, charWidth c ≤ width)
    (token : EscapeToken) :
    ∃ s' word', s.token width token = some s' ∧
      Wrapped width (tokens ++ [token]) word' (p.step width token) s' := by
  cases token with
  | char c plain =>
    cases hblank : isWhitespace c with
    | true => exact ⟨_, [], if_pos hblank, h.space hblank (hchars c)⟩
    | false =>
      have htoken : s.token width (.char c plain) = s.char width c :=
        if_neg (Bool.not_eq_true _ ▸ hblank)
      rw [htoken]
      by_cases hfits : s.wordWidth + charWidth c ≤ width
      · obtain ⟨s', hs', hwrapped⟩ : ∃ s', s.char width c = some s' ∧
            Wrapped width (tokens ++ [EscapeToken.char c plain])
              (word ++ [EscapeToken.char c plain]) _ s' := h.char_fits hblank hfits
        exact ⟨s', _, hs', hwrapped⟩
      · exact h.char_overflow hblank (hchars c) (Nat.not_le.mp hfits)
  | control params numeric =>
    refine ⟨_, _, rfl, h.escape rfl rfl ⟨rfl, rfl, rfl⟩
      ⟨rfl, rfl⟩ fun code hcode => ?_⟩
    by_cases hreset : (EscapeToken.control params numeric).toText = resetCode
    · simp only [if_pos hreset] at hcode
      exact absurd hcode.symm (Option.some_ne_none code)
    · simp only [if_neg hreset] at hcode
      exact .inr (Option.some.inj hcode).symm
  | command body plain =>
    exact ⟨_, _, rfl, h.escape rfl rfl ⟨rfl, rfl, rfl⟩ ⟨rfl, rfl⟩
      fun code hcode => .inl hcode⟩

theorem Wrapped.foldlM (h : Wrapped width tokens word p s) (hchars : ∀ c, charWidth c ≤ width)
    (rest : List EscapeToken) :
    ∃ s' word', rest.foldlM (CellWrap.token width) s = some s' ∧
      Wrapped width (tokens ++ rest) word' (rest.foldl (Piece.step width) p) s' := by
  induction rest generalizing tokens word p s with
  | nil =>
    refine ⟨s, word, rfl, ?_⟩
    rw [List.append_nil]
    exact h
  | cons token rest ih =>
    obtain ⟨s', word', hs', hwrapped⟩ := h.token hchars token
    obtain ⟨s'', word'', hs'', hwrapped'⟩ := ih hwrapped
    refine ⟨s'', word'', ?_, ?_⟩
    · rw [List.foldlM_cons, hs']
      exact hs''
    · rw [List.append_assoc] at hwrapped'
      exact hwrapped'

/-- The lines with the last one, unless nothing is visible on it. -/
def closeLines (lines : List (List Char)) (line : List Char) (lineWidth : ℕ) : List (List Char) :=
  let lines := if 0 < lineWidth then lines ++ [line] else lines
  if lines = [] then [[]] else lines

/-- The last word is put on the last line, or on one of its own. -/
theorem Wrapped.finish_eq (h : Wrapped width tokens word p s) :
    ∃ s' : CellWrap,
      s.finish width = closeLines s'.lines (s'.line ++ s.word) (s'.lineWidth + s.wordWidth) ∧
        Flushed width s s' ∧ s'.lineWidth + s.wordWidth ≤ width ∧
          (0 < s.lineWidth + s.wordWidth → 0 < s'.lineWidth + s.wordWidth) := by
  have hfits := h.line.fits
  have hword := h.wordFits
  by_cases hnil : s.word = []
  · have hzero : s.wordWidth = 0 := by
      rw [h.wordWidth, ← visibleLength_render, ← h.word_eq, hnil]
      rfl
    refine ⟨s, ?_, flushed_refl h.line, by omega, id⟩
    rw [CellWrap.finish, if_pos hnil, hnil, hzero, List.append_nil]
    rfl
  · by_cases hwide : width < s.lineWidth + s.wordWidth ∧ 0 < s.lineWidth
    · have hzero : s.breakLine.lineWidth = 0 := rfl
      refine ⟨s.breakLine, ?_, flushed_breakLine h.line, by omega, by omega⟩
      rw [CellWrap.finish, if_neg hnil, if_pos hwide, hzero, Nat.zero_add]
      rfl
    · refine ⟨s, ?_, flushed_refl h.line, by omega, id⟩
      rw [CellWrap.finish, if_neg hnil, if_neg hwide]
      rfl

omit [UnicodeWidthChar] in
theorem mem_closeLines {l : List Char} (h : l ∈ closeLines lines line lineWidth) :
    l ∈ lines ∨ l = line ∨ l = [] := by
  rw [closeLines] at h
  by_cases hpos : 0 < lineWidth
  · simp only [if_pos hpos] at h
    rw [if_neg (List.append_ne_nil_of_right_ne_nil _ (List.cons_ne_nil _ _))] at h
    rcases List.mem_append.mp h with h | h
    · exact .inl h
    · exact .inr (.inl (List.mem_singleton.mp h))
  · simp only [if_neg hpos] at h
    split at h
    case isTrue => exact .inr (.inr (List.mem_singleton.mp h))
    case isFalse => exact .inl h

omit [UnicodeWidthChar] in
theorem mem_closeLines_of_mem {l : List Char} (h : l ∈ lines) :
    l ∈ closeLines lines line lineWidth := by
  have hne := List.ne_nil_of_mem h
  rw [closeLines]
  by_cases hpos : 0 < lineWidth
  · simp only [if_pos hpos]
    rw [if_neg (List.append_ne_nil_of_left_ne_nil hne _)]
    exact List.mem_append_left _ h
  · simp only [if_neg hpos, if_neg hne]
    exact h

/-- What is to be known of the lines of a cell. -/
structure CellLines (width : ℕ) (tokens : List EscapeToken) (lines : List (List Char)) : Prop where
  nonempty : lines ≠ []
  closed : ∀ line ∈ lines, Closed line
  fits : Swallows width tokens = false → ∀ line ∈ lines, visibleLength line ≤ width
  kept : Swallows width tokens = false →
    nonblank (lines.flatMap visible) = nonblank (visible (render tokens))
  tooWide : Swallows width tokens = true → ∃ line ∈ lines, width < visibleLength line

theorem Wrapped.finish (h : Wrapped width tokens word p s)
    (hp : p.swallowed = Swallows width tokens) (hlong : width < tokensWidth tokens) :
    CellLines width tokens (s.finish width) := by
  obtain ⟨s', hfinish, hflush, hroom, hpos⟩ := h.finish_eq
  have hclosed : Closed s.word := by
    rw [h.word_eq]
    exact closed_render word
  have hwidth : s.wordWidth = visibleLength s.word := by
    rw [h.wordWidth, h.word_eq, visibleLength_render]
  have hline := hflush.line.append hclosed (by rwa [← hwidth])
  rw [← hwidth] at hline
  have hkept : nonblank (linesShown s'.lines (s'.line ++ s.word)) =
      nonblank (visible (render tokens)) := by
    rw [hflush.line.linesShown_append, hflush.shown, h.kept, visible_render]
  have hfine : Swallows width tokens = false → 0 < s'.lineWidth + s.wordWidth := by
    intro hfine
    rcases h.pos (hp.trans hfine) with hzero | hpositive
    · omega
    · exact hpos hpositive
  rw [hfinish]
  constructor
  · rw [closeLines]
    generalize (if 0 < s'.lineWidth + s.wordWidth then s'.lines ++ [s'.line ++ s.word]
      else s'.lines) = lines
    by_cases hne : lines = []
    · rw [if_pos hne]
      exact List.cons_ne_nil _ _
    · rw [if_neg hne]
      exact hne
  · intro l hl
    rcases mem_closeLines hl with hl | rfl | rfl
    · exact hline.lines l hl
    · exact hline.closed
    · exact closed_nil
  · intro hnot l hl
    rcases mem_closeLines hl with hl | rfl | rfl
    · rcases hflush.fits l hl with hl | hl
      · exact h.fits (hp.trans hnot) l hl
      · exact hl
    · exact hline.length.symm.trans_le hline.fits
    · exact Nat.zero_le _
  · intro hnot
    have happend : closeLines s'.lines (s'.line ++ s.word) (s'.lineWidth + s.wordWidth) =
        s'.lines ++ [s'.line ++ s.word] := by
      rw [closeLines]
      simp only [if_pos (hfine hnot)]
      exact if_neg (List.append_ne_nil_of_right_ne_nil _ (List.cons_ne_nil _ _))
    rw [happend, List.flatMap_append, List.flatMap_singleton]
    exact hkept
  · intro hswallowed
    obtain ⟨l, hl, hwide⟩ := h.tooWide (hp.trans hswallowed)
    exact ⟨l, mem_closeLines_of_mem (hflush.subset l hl), hwide⟩

/-- No word of a text that fits is cut. -/
theorem swallowed_foldl (hfits : p.width + tokensWidth tokens ≤ width) :
    (tokens.foldl (Piece.step width) p).swallowed = p.swallowed := by
  induction tokens generalizing p with
  | nil => rfl
  | cons token tokens ih =>
    rw [tokensWidth_cons] at hfits
    rw [List.foldl_cons]
    cases token with
    | char c plain =>
      rw [EscapeToken.shown, textWidth_singleton] at hfits
      rw [Piece.step]
      split
      case isTrue => exact ih (by show 0 + tokensWidth tokens ≤ width; omega)
      case isFalse =>
        rw [if_pos (by omega)]
        exact ih (by show p.width + charWidth c + tokensWidth tokens ≤ width; omega)
    | control params numeric => exact ih (by show p.width + tokensWidth tokens ≤ width; omega)
    | command body plain => exact ih (by show p.width + tokensWidth tokens ≤ width; omega)

/-- The lines of a cell. -/
theorem wrap_spec (tokens : List EscapeToken)
    (hroom : tokensWidth tokens ≤ width ∨ 0 < width ∧ ∀ c, charWidth c ≤ width) :
    ∃ lines, wrap (render tokens) width = some lines ∧ CellLines width tokens lines := by
  by_cases hfits : tokensWidth tokens ≤ width
  · have hnot : Swallows width tokens = false :=
      swallowed_foldl ((Nat.zero_add _).trans_le hfits)
    refine ⟨[render tokens], ?_, List.cons_ne_nil _ _, ?_, ?_, ?_, ?_⟩
    · rw [wrap, if_pos (.inr ((visibleLength_render tokens).trans_le hfits))]
    · intro l hl
      rw [List.mem_singleton.mp hl]
      exact closed_render tokens
    · intro _ l hl
      rw [List.mem_singleton.mp hl]
      exact (visibleLength_render tokens).trans_le hfits
    · intro _
      rw [List.flatMap_singleton]
    · rw [hnot]
      exact fun h => absurd h Bool.false_ne_true
  · obtain ⟨hpos, hchars⟩ := hroom.resolve_left hfits
    obtain ⟨s', word', hfold, hwrapped⟩ := (wrapped_start width).foldlM hchars tokens
    refine ⟨s'.finish width, ?_, hwrapped.finish rfl (Nat.not_le.mp hfits)⟩
    rw [wrap, if_neg, wrapLoop_render (length_le_length_render tokens), hfold]
    · rfl
    · rw [visibleLength_render]
      exact not_or.mpr ⟨hpos.ne', hfits⟩

end Wrap

end TableText

end HeliosLite
