import HeliosLite.Markdown.WrapLayout

/-!
# The styles of wrapped lines

The state of the wrapping is compared with the layout of the text so far. As long as no part that
was left out mattered, the lines show the text as it is. After the first one that does, a grapheme
is shown in another style, and stays so.

## Main definitions

* `Laid` — the state of the wrapping is that of the layout
* `InStep`, `OutOfStep` — the lines show the text so far, or they do not

## Main results

* `appendWrappedWord_spec` — a word on lines of its own
* `wrappedRight_iff` — for which texts the lines are right
-/

namespace HeliosLite

open Theory UnicodeWidth

/-! ### Lines of the pieces of a word -/

section Pieces

variable {lay : WrapLayout} {s r : Wrapping} {u : Style} {word : StyledText}

/-- The line has only the codes of the style. -/
structure Fresh (u : Style) (s : Wrapping) : Prop where
  line : s.currentLine = codesText u
  style : s.currentStyle = u.codes

theorem Fresh.width [UnicodeWidth] (h : Fresh u s) : visibleLength s.currentLine = 0 := by
  rw [h.line]
  exact visibleLength_of_graphemes (graphemes_codesText u)

theorem fresh_breakLine (h : s.currentStyle = u.codes) (lay : WrapLayout) :
    Fresh u (s.breakLine lay) where
  line := congrArg (List.map WrapAtom.escape) h
  style := h

theorem Fresh.style_extend (h : Fresh u s) (word : StyledText) :
    (s.extend word).currentStyle = (styleAfter u word).codes := by
  rw [Wrapping.extend, h.style, applyStyleTransition_codes]

/-- The texts of the lines. -/
def texts (s : Wrapping) : List StyledText := s.lines.map WrappedLine.text

theorem texts_breakLine (h : ∃ g ∈ graphemes s.currentLine, isBlank g = false) :
    texts (s.breakLine lay) = texts s ++ [s.currentLine] := by
  obtain ⟨g, hg, hvisible⟩ := h
  have hnot : ¬ (graphemes s.currentLine).all isBlank := by
    intro hall
    rw [List.all_eq_true.mp hall g hg] at hvisible
    exact Bool.noConfusion hvisible
  rw [texts, Wrapping.breakLine, pushWrappedLine, if_neg hnot, List.map_append]
  rfl

/-- A word stands on lines of its own, a first part of it on those that have ended. -/
structure Placed (u : Style) (front last : StyledText) (s r : Wrapping) (new : List StyledText) :
    Prop where
  style : r.currentStyle = (styleAfter u (front ++ last)).codes
  line : r.currentLine = codesText (styleAfter u front) ++ last
  lines : texts r = texts s ++ new
  shown : ∀ t, shown t (new.flatten ++ r.currentLine) =
    HeliosLite.shown (t.overlay u) (front ++ last)
  ends : ∀ t, styleAfter t (new.flatten ++ r.currentLine) =
    styleAfter (t.overlay u) (front ++ last)
  ended : new ≠ [] → ∀ t, styleAfter t new.flatten = styleAfter (t.overlay u) front
  whole : new = [] → front = []

theorem Fresh.placed (h : Fresh u s) (word : StyledText) :
    Placed u [] word s (s.extend word) [] where
  style := h.style_extend word
  line := by
    rw [Wrapping.extend, h.line]
    rfl
  lines := (List.append_nil _).symm
  shown t := by
    rw [Wrapping.extend, h.line, List.flatten_nil, List.nil_append, shown_append, shown_codesText,
      styleAfter_codesText]
    rfl
  ends t := by
    rw [Wrapping.extend, h.line, List.flatten_nil, List.nil_append, styleAfter_append,
      styleAfter_codesText]
    rfl
  ended hne := absurd rfl hne
  whole _ := rfl

/-- A line ends after a piece of the word. -/
theorem Placed.cons {piece front last : StyledText} {new : List StyledText} (hfresh : Fresh u s)
    (hvisible : ∃ g ∈ graphemes piece, isBlank g = false)
    (h : Placed (styleAfter u piece) front last ((s.extend piece).breakLine lay) r new) :
    Placed u (piece ++ front) last s r ((codesText u ++ piece) :: new) := by
  have hline : (s.extend piece).currentLine = codesText u ++ piece := by
    rw [Wrapping.extend, hfresh.line]
  -- the codes with which the next line starts change nothing
  have hstyle : ∀ t : Style, (styleAfter (t.overlay u) piece).overlay (styleAfter u piece) =
      styleAfter (t.overlay u) piece := by
    intro t
    rw [← styleAfter_overlay, Style.overlay_overlay]
  constructor
  · rw [h.style, ← styleAfter_append, List.append_assoc]
  · rw [h.line, ← styleAfter_append]
  · rw [h.lines, texts_breakLine, hline, List.append_assoc]
    · rfl
    · obtain ⟨g, hg, hblank⟩ := hvisible
      refine ⟨g, ?_, hblank⟩
      rw [hline, graphemes_append]
      exact List.mem_append_right _ hg
  · intro t
    rw [List.flatten_cons, List.append_assoc, List.append_assoc, shown_append, shown_append,
      shown_codesText, styleAfter_codesText, h.shown, hstyle, List.append_assoc,
      shown_append _ piece, List.nil_append]
  · intro t
    rw [List.flatten_cons, List.append_assoc, List.append_assoc, styleAfter_append,
      styleAfter_append, styleAfter_codesText, h.ends, hstyle, List.append_assoc,
      styleAfter_append _ piece]
  · intro _ t
    rw [List.flatten_cons, styleAfter_append, styleAfter_append, styleAfter_codesText,
      styleAfter_append]
    by_cases hnew : new = []
    · rw [hnew, h.whole hnew]
      rfl
    · rw [h.ended hnew, hstyle]
  · exact fun hnil => absurd hnil (List.cons_ne_nil _ _)

end Pieces

/-! ### The widths of the lines -/

section Widths

variable [UnicodeWidth] {lay : WrapLayout} {s : Wrapping} {u : Style} {firstWidth : ℕ}

theorem fitsIn_congr {n : ℕ} {text text' : StyledText} (h : graphemes text = graphemes text') :
    FitsIn n text ↔ FitsIn n text' := by
  rw [FitsIn, FitsIn, visibleLength, visibleLength, h]

/-- The lines keep to their widths. -/
structure Fitted (firstWidth nextWidth : ℕ) (s : Wrapping) : Prop where
  lines : ∀ i line, (texts s)[i]? = some line →
    FitsIn (if i = 0 then firstWidth else nextWidth) line
  width : s.currentWidth = if s.lines = [] then firstWidth else nextWidth
  line : FitsIn s.currentWidth s.currentLine

theorem Fitted.extend {nextWidth : ℕ} (h : Fitted firstWidth nextWidth s) (hfresh : Fresh u s)
    {piece : StyledText} (hfits : FitsIn s.currentWidth piece) :
    Fitted firstWidth nextWidth (s.extend piece) where
  lines := h.lines
  width := h.width
  line := by
    have hgraphemes : graphemes (codesText u ++ piece) = graphemes piece := by
      rw [graphemes_append, graphemes_codesText, List.nil_append]
    rw [Wrapping.extend, hfresh.line]
    exact (fitsIn_congr hgraphemes).mpr hfits

theorem fitsIn_codes {n : ℕ} (h : s.currentStyle = u.codes) :
    FitsIn n (s.breakLine lay).currentLine := by
  rw [(fresh_breakLine h lay).line, FitsIn, visibleLength_of_graphemes (graphemes_codesText u)]
  exact .inl (Nat.zero_le n)

/-- A line with visible text ends. -/
theorem Fitted.breakLine (h : Fitted firstWidth lay.nextWidth s) (hstyle : s.currentStyle = u.codes)
    (hvisible : ∃ g ∈ graphemes s.currentLine, isBlank g = false) :
    Fitted firstWidth lay.nextWidth (s.breakLine lay) := by
  have htexts : texts (s.breakLine lay) = texts s ++ [s.currentLine] := texts_breakLine hvisible
  refine ⟨?_, ?_, fitsIn_codes hstyle⟩
  · intro i line hline
    rw [htexts] at hline
    rcases Nat.lt_or_ge i (texts s).length with hlt | hge
    · rw [List.getElem?_append_left hlt] at hline
      exact h.lines i line hline
    · rw [List.getElem?_append_right hge, List.getElem?_singleton] at hline
      split at hline
      case isFalse => exact absurd hline (Option.some_ne_none line).symm
      case isTrue hi =>
        obtain rfl := Option.some.inj hline
        have hzero : i = 0 ↔ s.lines = [] := by
          have hlength : (texts s).length = s.lines.length := List.length_map _
          rw [← List.length_eq_zero_iff]
          omega
        have hfits := h.line
        rw [h.width] at hfits
        simp only [hzero]
        exact hfits
  · have hne : (s.breakLine lay).lines ≠ [] := by
      intro hnil
      rw [texts, hnil] at htexts
      exact List.append_ne_nil_of_right_ne_nil _ (List.cons_ne_nil _ _) htexts.symm
    rw [if_neg hne]
    rfl

/-- A line without visible text is left out. -/
theorem Fitted.dropLine (h : Fitted firstWidth lay.nextWidth s) (hstyle : s.currentStyle = u.codes)
    (hblank : graphemes s.currentLine = []) (hlines : s.lines ≠ []) :
    Fitted firstWidth lay.nextWidth (s.breakLine lay) := by
  have hpush : (s.breakLine lay).lines = s.lines := by
    rw [Wrapping.breakLine, pushWrappedLine, hblank]
    rfl
  refine ⟨?_, ?_, fitsIn_codes hstyle⟩
  · rw [texts, hpush]
    exact h.lines
  · rw [hpush, if_neg hlines]
    rfl

end Widths

/-! ### A word on lines of its own -/

section Words

variable [UnicodeWidth] {lay : WrapLayout} {s r : Wrapping} {u : Style} {word : StyledText}
  {fuel firstWidth nextWidth : ℕ}

theorem takePrefixFitting_eq (n : ℕ) (h : word ≠ []) :
    takePrefixFitting word n = some (fitting n 0 false word) := by
  rw [takePrefixFitting, if_neg h, if_neg (fitting_ne_nil h)]

theorem appendWrappedWord_succ (hline : visibleLength s.currentLine = 0)
    (hroom : 0 < s.currentWidth) (hne : word ≠ []) :
    appendWrappedWord lay (fuel + 1) s word =
      if visibleLength word ≤ s.currentWidth then s.extend word
      else if word.drop (fitting s.currentWidth 0 false word).length = [] then
        s.extend (fitting s.currentWidth 0 false word)
      else
        appendWrappedWord lay fuel ((s.extend (fitting s.currentWidth 0 false word)).breakLine lay)
          (word.drop (fitting s.currentWidth 0 false word).length) := by
  have hfull : ¬ s.currentWidth - visibleLength s.currentLine = 0 := by
    rw [hline]
    omega
  rw [appendWrappedWord, if_neg hne]
  simp only [if_neg hfull]
  rw [hline, Nat.sub_zero, takePrefixFitting_eq _ hne]
  rfl

theorem length_drop_fitting_lt (n : ℕ) (h : word ≠ []) :
    (word.drop (fitting n 0 false word).length).length < word.length := by
  have hpos : 0 < (fitting n 0 false word).length := List.length_pos_iff.mpr (fitting_ne_nil h)
  have hword := List.length_pos_iff.mpr h
  rw [List.length_drop]
  omega

theorem lastPiece_ne_nil {room : ℕ} (h : word ≠ []) :
    (lastPiece nextWidth fuel room word).2 ≠ [] := by
  induction fuel generalizing room word with
  | zero => exact h
  | succ fuel ih =>
    rw [lastPiece]
    split
    case isTrue => exact h
    case isFalse hrest => exact ih fun hnil => hrest (.inr hnil)

/-- The pieces of a word are put on lines of their own. -/
theorem appendWrappedWord_spec (hfresh : Fresh u s) (hroom : 0 < s.currentWidth)
    (hnext : 0 < lay.nextWidth) (hvisible : ∀ g ∈ graphemes word, isBlank g = false)
    (hne : word ≠ []) (hfuel : word.length ≤ fuel) :
    (appendWrappedWord lay fuel s word).currentWidth =
        (lastPiece lay.nextWidth fuel s.currentWidth word).1 ∧
      ∃ front new, word = front ++ (lastPiece lay.nextWidth fuel s.currentWidth word).2 ∧
        Placed u front (lastPiece lay.nextWidth fuel s.currentWidth word).2 s
          (appendWrappedWord lay fuel s word) new ∧
        (Fitted firstWidth lay.nextWidth s →
          Fitted firstWidth lay.nextWidth (appendWrappedWord lay fuel s word)) := by
  induction fuel generalizing s u word with
  | zero => exact absurd (List.length_eq_zero_iff.mp (Nat.le_zero.mp hfuel)) hne
  | succ fuel ih =>
    rw [appendWrappedWord_succ hfresh.width hroom hne, lastPiece]
    generalize hpiece : fitting s.currentWidth 0 false word = piece
    have hword : piece ++ word.drop piece.length = word := by
      rw [← hpiece]
      exact fitting_append_drop ..
    by_cases hfits : visibleLength word ≤ s.currentWidth
    · rw [if_pos hfits, if_pos (.inl hfits)]
      exact ⟨rfl, [], [], rfl, hfresh.placed word, fun h => h.extend hfresh (.inl hfits)⟩
    · have hpieceFits : FitsIn s.currentWidth piece := by
        rw [← hpiece]
        exact fitsIn_fitting _ word
      rw [if_neg hfits]
      by_cases hrest : word.drop piece.length = []
      · rw [if_pos hrest, if_pos (.inr hrest)]
        rw [hrest, List.append_nil] at hword
        rw [hword] at hpieceFits ⊢
        exact ⟨rfl, [], [], rfl, hfresh.placed word, fun h => h.extend hfresh hpieceFits⟩
      · rw [if_neg hrest, if_neg (not_or.mpr ⟨hfits, hrest⟩)]
        have hlt := length_drop_fitting_lt s.currentWidth hne
        rw [hpiece] at hlt
        have hsub : ∀ g ∈ graphemes (word.drop piece.length), isBlank g = false := by
          intro g hg
          refine hvisible g ?_
          rw [← hword, graphemes_append]
          exact List.mem_append_right _ hg
        -- a word without graphemes fits
        have hgraphemes : graphemes piece ≠ [] := by
          rw [← hpiece]
          refine graphemes_fitting_ne_nil fun hnone => hfits ?_
          rw [visibleLength_of_graphemes hnone]
          exact Nat.zero_le _
        obtain ⟨g, hg⟩ := List.exists_mem_of_ne_nil _ hgraphemes
        have hg' : isBlank g = false := by
          refine hvisible g ?_
          rw [← hword, graphemes_append]
          exact List.mem_append_left _ hg
        obtain ⟨hwidth, front, new, hfront, hplaced, hfitted⟩ := ih
          (fresh_breakLine (hfresh.style_extend piece) lay) hnext hsub hrest (by omega)
        refine ⟨hwidth, piece ++ front, _, ?_, hplaced.cons hfresh ⟨g, hg, hg'⟩, ?_⟩
        · rw [List.append_assoc]
          exact hword.symm.trans (congrArg (piece ++ ·) hfront)
        · intro h
          refine hfitted ((h.extend hfresh hpieceFits).breakLine (hfresh.style_extend piece) ?_)
          refine ⟨g, ?_, hg'⟩
          rw [Wrapping.extend, graphemes_append]
          exact List.mem_append_right _ hg

end Words

/-! ### Steps of the wrapping and of the layout -/

section Steps

/-- Two lists differ in a place that both have. -/
def Differ {α : Type} (xs ys : List α) : Prop :=
  ∃ (n : ℕ) (x y : α), xs[n]? = some x ∧ ys[n]? = some y ∧ x ≠ y

theorem Differ.append {α : Type} {xs ys : List α} (h : Differ xs ys) (xs' ys' : List α) :
    Differ (xs ++ xs') (ys ++ ys') := by
  obtain ⟨n, x, y, hx, hy, hne⟩ := h
  refine ⟨n, x, y, ?_, ?_, hne⟩
  · rw [List.getElem?_append_left (List.getElem?_eq_some_iff.mp hx).1, hx]
  · rw [List.getElem?_append_left (List.getElem?_eq_some_iff.mp hy).1, hy]

theorem differ_concat {α : Type} {x y : α} (hne : x ≠ y) (common xs ys : List α) :
    Differ (common ++ x :: xs) (common ++ y :: ys) := by
  refine ⟨common.length, x, y, ?_, ?_, hne⟩
  · rw [List.getElem?_append_right le_rfl, Nat.sub_self, List.getElem?_cons_zero]
  · rw [List.getElem?_append_right le_rfl, Nat.sub_self, List.getElem?_cons_zero]

theorem Differ.ne {α : Type} {xs ys : List α} (h : Differ xs ys) : xs ≠ ys := by
  rintro rfl
  obtain ⟨n, x, y, hx, hy, hne⟩ := h
  exact hne (Option.some.inj (hx.symm.trans hy))

/-- What is printed so far. -/
def printed (s : Wrapping) : StyledText := (texts s).flatten ++ s.currentLine

/-- The text so far is shown as it is. -/
structure InStep (l : Layout) (s : Wrapping) : Prop where
  shown : shown .plain (printed s) = HeliosLite.shown .plain (l.before ++ l.loose)
  ends : styleAfter .plain (printed s) = styleAfter .plain (l.before ++ l.loose)
  kept : (styleAfter .plain l.before).overlay (styleAfter .plain l.kept) =
    styleAfter .plain l.before
  ended : graphemes s.currentLine = [] →
    styleAfter .plain (texts s).flatten = styleAfter .plain l.before

/-- A grapheme of the text so far is shown in another style. -/
def OutOfStep (l : Layout) (s : Wrapping) : Prop :=
  Differ (shown .plain (printed s)) (shown .plain (l.before ++ l.loose))

variable {l : Layout} {s : Wrapping} {segment : WrapSegment}

theorem extend_extend (s : Wrapping) (separator word : StyledText) :
    ((s.extend separator).extend word).currentLine = s.currentLine ++ separator ++ word := rfl

theorem printed_extend_extend (s : Wrapping) (separator word : StyledText) :
    printed ((s.extend separator).extend word) = printed s ++ (separator ++ word) := by
  rw [printed, extend_extend, printed, List.append_assoc, List.append_assoc]
  rfl

theorem exists_visible (hword : segment.IsWord) :
    ∃ g ∈ graphemes segment.word, isBlank g = false := by
  obtain ⟨g, hg⟩ := List.exists_mem_of_ne_nil _ hword.nonempty
  exact ⟨g, hg, hword.visible g hg⟩

theorem Placed.printed_eq {r : Wrapping} {u : Style} {front last : StyledText}
    {new : List StyledText} (h : Placed u front last s r new) :
    printed r = (texts s).flatten ++ (new.flatten ++ r.currentLine) := by
  rw [printed, h.lines, List.flatten_append, List.append_assoc]

section Join

variable [UnicodeWidth]

theorem before_join (l : Layout) (segment : WrapSegment) :
    (l.join segment).before ++ (l.join segment).loose =
      l.before ++ l.loose ++ (segment.separator ++ segment.word) := by
  rw [Layout.join, List.append_nil, List.append_assoc _ segment.separator]

theorem InStep.join (h : InStep l s) (hword : segment.IsWord) :
    InStep (l.join segment) ((s.extend segment.separator).extend segment.word) := by
  constructor
  · rw [printed_extend_extend, before_join, shown_append, shown_append _ (l.before ++ l.loose),
      h.shown, h.ends]
  · rw [printed_extend_extend, before_join, styleAfter_append,
      styleAfter_append _ (l.before ++ l.loose), h.ends]
  · simp only [Layout.join, List.append_assoc]
    rw [styleAfter_append, styleAfter_append _ l.kept, ← styleAfter_overlay, h.kept]
  · intro hblank
    rw [extend_extend, graphemes_append, List.append_eq_nil_iff] at hblank
    exact absurd hblank.2 hword.nonempty

theorem OutOfStep.join (h : OutOfStep l s) (segment : WrapSegment) :
    OutOfStep (l.join segment) ((s.extend segment.separator).extend segment.word) := by
  rw [OutOfStep, printed_extend_extend, before_join, shown_append,
    shown_append _ (l.before ++ l.loose)]
  exact h.append _ _

end Join

end Steps

/-! ### The state of the wrapping and the layout -/

section Run

variable [UnicodeWidth] {lay : WrapLayout} {s : Wrapping} {text : StyledText} {l : Layout}
  {segment : WrapSegment} {firstWidth : ℕ}

/-- The state of the wrapping is that of the layout of the text so far. -/
structure Laid (text : StyledText) (l : Layout) (s : Wrapping) : Prop where
  text : l.before ++ l.loose = text
  style : s.currentStyle = (styleAfter .plain (l.kept ++ l.loose)).codes
  width : s.currentWidth = l.room
  used : visibleLength s.currentLine = l.used
  nonempty : s.currentLine ≠ []
  loose : graphemes l.loose = []
  visible : (l.loose = [] ∧ ∃ g ∈ graphemes s.currentLine, isBlank g = false) ∨
    graphemes s.currentLine = [] ∧ s.lines ≠ []

theorem Laid.join (h : Laid text l s) (hword : segment.IsWord) :
    Laid (text ++ (segment.separator ++ segment.word)) (l.join segment)
      ((s.extend segment.separator).extend segment.word) := by
  obtain ⟨g, hg, hvisible⟩ := exists_visible hword
  constructor
  · rw [before_join, h.text]
  · rw [Wrapping.extend, Wrapping.extend, h.style, applyStyleTransition_codes,
      applyStyleTransition_codes, ← styleAfter_append, ← styleAfter_append, Layout.join,
      List.append_nil]
  · exact h.width
  · rw [extend_extend, visibleLength_append, visibleLength_append, h.used]
    rfl
  · rw [extend_extend, List.append_assoc]
    exact List.append_ne_nil_of_left_ne_nil h.nonempty _
  · rfl
  · refine .inl ⟨rfl, g, ?_, hvisible⟩
    rw [extend_extend, graphemes_append]
    exact List.mem_append_right _ hg

section Place

variable {r : Wrapping} {u : Style} {nextWidth room : ℕ} {front last : StyledText}
  {new : List StyledText}

/-- A word starts a line, and its last piece stands on the line on which it ends. -/
structure PlacedWord (nextWidth room : ℕ) (u : Style) (segment : WrapSegment)
    (front last : StyledText) (s r : Wrapping) (new : List StyledText) : Prop where
  isWord : segment.IsWord
  word : segment.word = front ++ last
  last_eq : last = (lastPiece nextWidth segment.word.length room segment.word).2
  placed : Placed u front last s r new
  width : r.currentWidth = (lastPiece nextWidth segment.word.length room segment.word).1

/-- If no grapheme is left for the last line, lines have ended. -/
theorem PlacedWord.new_ne_nil (h : PlacedWord nextWidth room u segment front last s r new)
    (hnone : graphemes last = []) : new ≠ [] := by
  intro hnil
  refine h.isWord.nonempty ?_
  rw [h.word, h.placed.whole hnil, graphemes_append, hnone]
  rfl

/-- What of a word is set before the codes that stand alone on the line. -/
theorem PlacedWord.fields (h : PlacedWord nextWidth room u segment front last s r new)
    (l : Layout) :
    ∃ set, set ++ (l.place nextWidth room segment).loose = segment.word ∧
      (l.place nextWidth room segment).before = l.before ++ l.loose ++ segment.separator ++ set ∧
      (l.place nextWidth room segment).kept = l.kept ++ l.loose ++ set ∧
      (graphemes last ≠ [] ∧ (l.place nextWidth room segment).loose = [] ∨
        graphemes last = [] ∧ set = front ∧ (l.place nextWidth room segment).loose = last) := by
  refine ⟨_, ?_, rfl, rfl, ?_⟩
  · simp only [Layout.place, ← h.last_eq]
    split
    · rw [h.word, List.length_append, Nat.add_sub_cancel, List.take_left]
    · rw [List.length_nil, Nat.sub_zero, List.take_length, List.append_nil]
  · simp only [Layout.place, ← h.last_eq]
    by_cases hnone : graphemes last = []
    · rw [if_pos hnone, h.word, List.length_append, Nat.add_sub_cancel, List.take_left]
      exact .inr ⟨hnone, rfl, rfl⟩
    · rw [if_neg hnone]
      exact .inl ⟨hnone, rfl⟩

theorem Laid.place (hloose : l.before ++ l.loose = text)
    (h : PlacedWord nextWidth room (styleAfter .plain (l.kept ++ l.loose)) segment front last s r
      new) :
    Laid (text ++ (segment.separator ++ segment.word)) (l.place nextWidth room segment) r := by
  obtain ⟨set, hset, hbefore, hkept, hcases⟩ := h.fields l
  have hgraphemes : graphemes r.currentLine = graphemes last := by
    rw [h.placed.line, graphemes_append, graphemes_codesText, List.nil_append]
  constructor
  · rw [hbefore, hloose, ← hset, List.append_assoc, List.append_assoc]
  · rw [h.placed.style, ← h.word, ← hset, ← styleAfter_append, hkept, List.append_assoc _ set]
  · exact h.width
  · rw [visibleLength, hgraphemes, h.last_eq]
    rfl
  · rw [h.placed.line, h.last_eq]
    have hne : segment.word ≠ [] := fun hnil => h.isWord.nonempty (congrArg graphemes hnil)
    exact List.append_ne_nil_of_right_ne_nil _ (lastPiece_ne_nil hne)
  · rcases hcases with ⟨-, hnil⟩ | ⟨hnone, -, hlast⟩
    · rw [hnil]
      rfl
    · rw [hlast, hnone]
  · rcases hcases with ⟨hsome, hnil⟩ | ⟨hnone, -, -⟩
    · obtain ⟨g, hg⟩ := List.exists_mem_of_ne_nil _ hsome
      refine .inl ⟨hnil, g, by rw [hgraphemes]; exact hg, h.isWord.visible g ?_⟩
      rw [h.word, graphemes_append]
      exact List.mem_append_right _ hg
    · refine .inr ⟨hgraphemes.trans hnone, fun hnil => h.new_ne_nil hnone ?_⟩
      have hlines := h.placed.lines
      rw [texts, hnil, List.map_nil, eq_comm, List.append_eq_nil_iff] at hlines
      exact hlines.2

/-- What is known of the lines when the word starts a line. -/
structure Ready (l : Layout) (s : Wrapping) : Prop where
  shown : shown .plain (texts s).flatten = HeliosLite.shown .plain (l.before ++ l.loose)
  ends : styleAfter .plain (texts s).flatten = styleAfter .plain l.before

theorem PlacedWord.shown_before (h : PlacedWord nextWidth room u segment front last s r new)
    (l : Layout) :
    shown .plain ((l.place nextWidth room segment).before ++
        (l.place nextWidth room segment).loose) =
      shown .plain (l.before ++ l.loose) ++
        shown (styleAfter .plain (l.before ++ l.loose ++ segment.separator)) segment.word := by
  obtain ⟨set, hset, hbefore, -, -⟩ := h.fields l
  rw [hbefore, List.append_assoc, hset, shown_append, shown_append _ (l.before ++ l.loose),
    shown_of_blank _ h.isWord.blank, List.append_nil]

theorem InStep.place (hready : Ready l s)
    (h : PlacedWord nextWidth room (styleAfter .plain (l.kept ++ l.loose)) segment front last s r
      new)
    (hharmless : Gap.Harmless ⟨l.before, l.kept, l.loose, segment.separator⟩) :
    InStep (l.place nextWidth room segment) r := by
  obtain ⟨set, hset, hbefore, hkept, hcases⟩ := h.fields l
  have hstyle : (styleAfter .plain l.before).overlay (styleAfter .plain (l.kept ++ l.loose)) =
      styleAfter .plain (l.before ++ l.loose ++ segment.separator) := hharmless
  constructor
  · rw [h.shown_before, h.placed.printed_eq, shown_append, hready.shown, hready.ends,
      h.placed.shown, hstyle, ← h.word]
  · rw [h.placed.printed_eq, styleAfter_append, hready.ends, h.placed.ends, hstyle, ← h.word,
      hbefore, List.append_assoc _ set, hset, ← styleAfter_append]
  · -- the style that is kept has been laid over the style of the text
    rw [hbefore, hkept, styleAfter_append, styleAfter_append _ (l.kept ++ l.loose), ← hstyle,
      ← styleAfter_overlay, Style.overlay_overlay]
  · intro hblank
    rw [h.placed.line, graphemes_append, List.append_eq_nil_iff] at hblank
    rcases hcases with ⟨hsome, -⟩ | ⟨hnone, rfl, -⟩
    · exact absurd hblank.2 hsome
    · rw [h.placed.lines, List.flatten_append, styleAfter_append, hready.ends,
        h.placed.ended (h.new_ne_nil hnone), hstyle, hbefore, ← styleAfter_append]

/-- The word is shown in another style. -/
theorem outOfStep_place (hready : Ready l s)
    (h : PlacedWord nextWidth room (styleAfter .plain (l.kept ++ l.loose)) segment front last s r
      new)
    (hstarts : Starts segment.word)
    (hharm : ¬ Gap.Harmless ⟨l.before, l.kept, l.loose, segment.separator⟩) :
    OutOfStep (l.place nextWidth room segment) r := by
  rw [OutOfStep, h.shown_before, h.placed.printed_eq, shown_append, hready.shown, hready.ends,
    h.placed.shown, ← h.word]
  obtain ⟨g, rest, hstart⟩ := hstarts
  have hg : ¬ isBlank g := by
    rw [h.isWord.visible g (by rw [hstart]; exact List.mem_cons_self)]
    exact Bool.false_ne_true
  rw [hstart, shown, shown, if_neg hg, if_neg hg]
  exact differ_concat (fun heq => hharm (Prod.mk.inj heq).2) _ _ _

theorem OutOfStep.place
    (hdiffer : Differ (shown .plain (texts s).flatten) (shown .plain (l.before ++ l.loose)))
    (h : PlacedWord nextWidth room u segment front last s r new) :
    OutOfStep (l.place nextWidth room segment) r := by
  rw [OutOfStep, h.shown_before, h.placed.printed_eq, shown_append]
  exact hdiffer.append _ _

end Place

/-! ### Runs -/

/-- The state of the wrapping after some segments. -/
structure Tracks (firstWidth nextWidth : ℕ) (text : StyledText) (l : Layout) (s : Wrapping) :
    Prop where
  laid : Laid text l s
  fitted : Fitted firstWidth nextWidth s
  inStep : (∀ gap ∈ l.gaps, gap.Harmless) → InStep l s
  outOfStep : ∀ gap ∈ l.gaps, ¬ gap.Harmless → OutOfStep l s

theorem tracks_place (hfresh : Fresh (styleAfter .plain (l.kept ++ l.loose)) s)
    (hloose : l.before ++ l.loose = text) (hfitted : Fitted firstWidth lay.nextWidth s)
    (hroom : 0 < s.currentWidth) (hnext : 0 < lay.nextWidth) (hisWord : segment.IsWord)
    (hstarts : Starts segment.word ∨
      Gap.Harmless ⟨l.before, l.kept, l.loose, segment.separator⟩)
    (hready : (∀ gap ∈ l.gaps, gap.Harmless) → Ready l s)
    (hdiffer : ∀ gap ∈ l.gaps, ¬ gap.Harmless →
      Differ (shown .plain (texts s).flatten) (shown .plain (l.before ++ l.loose))) :
    Tracks firstWidth lay.nextWidth (text ++ (segment.separator ++ segment.word))
      (l.place lay.nextWidth s.currentWidth segment)
      (appendWrappedWord lay segment.word.length s segment.word) := by
  have hne : segment.word ≠ [] := fun hnil => hisWord.nonempty (congrArg graphemes hnil)
  obtain ⟨hwidth, front, new, hfront, hplaced, hfit⟩ :=
    @appendWrappedWord_spec _ lay s _ segment.word segment.word.length firstWidth hfresh hroom hnext
      hisWord.visible hne le_rfl
  have hword : PlacedWord lay.nextWidth s.currentWidth _ segment front _ s _ new :=
    ⟨hisWord, hfront, rfl, hplaced, hwidth⟩
  refine ⟨.place hloose hword, hfit hfitted, ?_, ?_⟩
  · intro hharmless
    refine .place (hready fun gap hgap => hharmless gap (List.mem_append_left _ hgap)) hword ?_
    exact hharmless _ (List.mem_append_right _ (List.mem_singleton.mpr rfl))
  · intro gap hgap hharm
    by_cases hold : ∀ gap ∈ l.gaps, gap.Harmless
    · rcases List.mem_append.mp hgap with hgap | hgap
      · exact absurd (hold gap hgap) hharm
      · obtain rfl := List.mem_singleton.mp hgap
        exact outOfStep_place (hready hold) hword (hstarts.resolve_right hharm) hharm
    · -- a grapheme before the word is shown in another style
      obtain ⟨gap', hgap'⟩ := not_forall.mp hold
      obtain ⟨hmem, hharm'⟩ := Classical.not_imp.mp hgap'
      exact .place (hdiffer gap' hmem hharm') hword

/-! #### A line ends -/

theorem Laid.texts_breakLine (h : Laid text l s) (lay : WrapLayout) :
    l.loose = [] ∧ texts (s.breakLine lay) = texts s ++ [s.currentLine] ∨
      graphemes s.currentLine = [] ∧ s.lines ≠ [] ∧ texts (s.breakLine lay) = texts s := by
  rcases h.visible with ⟨hloose, hvisible⟩ | ⟨hnone, hlines⟩
  · exact .inl ⟨hloose, HeliosLite.texts_breakLine hvisible⟩
  · refine .inr ⟨hnone, hlines, ?_⟩
    rw [texts, Wrapping.breakLine, pushWrappedLine, hnone]
    rfl

/-- The codes that stand alone on a line show nothing. -/
theorem Laid.shown_breakLine (h : Laid text l s) (lay : WrapLayout) :
    shown .plain (texts (s.breakLine lay)).flatten = shown .plain (printed s) := by
  rcases h.texts_breakLine lay with ⟨-, htexts⟩ | ⟨hnone, -, htexts⟩
  · rw [htexts, List.flatten_concat, printed]
  · have hempty : ∀ g ∈ graphemes s.currentLine, isBlank g := by
      rw [hnone]
      exact fun _ h => absurd h List.not_mem_nil
    rw [htexts, printed, shown_append, shown_of_blank _ hempty, List.append_nil]

theorem Laid.fitted_breakLine (h : Laid text l s) (hfitted : Fitted firstWidth lay.nextWidth s) :
    Fitted firstWidth lay.nextWidth (s.breakLine lay) := by
  rcases h.visible with ⟨-, hvisible⟩ | ⟨hnone, hlines⟩
  · exact hfitted.breakLine h.style hvisible
  · exact hfitted.dropLine h.style hnone hlines

theorem InStep.ready (h : InStep l s) (hlaid : Laid text l s) (lay : WrapLayout) :
    Ready l (s.breakLine lay) := by
  refine ⟨(hlaid.shown_breakLine lay).trans h.shown, ?_⟩
  rcases hlaid.texts_breakLine lay with ⟨hloose, htexts⟩ | ⟨hnone, -, htexts⟩
  · have hends := h.ends
    rw [hloose, List.append_nil] at hends
    rw [htexts, List.flatten_concat]
    exact hends
  · rw [htexts]
    exact h.ended hnone

/-- One more segment. -/
theorem Tracks.step (h : Tracks firstWidth lay.nextWidth text l s) (hnext : 0 < lay.nextWidth)
    (hisWord : segment.IsWord) (hstarts : Starts segment.word) :
    Tracks firstWidth lay.nextWidth (text ++ (segment.separator ++ segment.word))
      (l.step lay.nextWidth segment) (wrapSegment lay s segment) := by
  rw [wrapSegment, Layout.step, if_neg h.laid.nonempty, h.laid.used, h.laid.width, ← Nat.add_assoc]
  by_cases hfits : l.used + visibleLength segment.separator + visibleLength segment.word ≤ l.room
  · rw [if_pos hfits, if_pos ⟨h.laid.nonempty, hfits⟩]
    refine ⟨h.laid.join hisWord, ?_, ?_, ?_⟩
    · refine ⟨h.fitted.lines, h.fitted.width, .inl ?_⟩
      rw [extend_extend, visibleLength_append, visibleLength_append, h.laid.used]
      exact hfits.trans_eq h.laid.width.symm
    · exact fun hharmless => (h.inStep hharmless).join hisWord
    · exact fun gap hgap hharm => (h.outOfStep gap hgap hharm).join segment
  · rw [if_neg hfits, if_neg fun hand => hfits hand.2,
      if_neg fun hand => h.laid.nonempty hand.1]
    simp only [if_neg h.laid.nonempty]
    refine tracks_place (fresh_breakLine h.laid.style lay) h.laid.text
      (h.laid.fitted_breakLine h.fitted) hnext hnext hisWord (.inl hstarts) ?_ ?_
    · exact fun hharmless => (h.inStep hharmless).ready h.laid lay
    · intro gap hgap hharm
      rw [h.laid.shown_breakLine lay]
      exact h.outOfStep gap hgap hharm

omit [UnicodeWidth] in
theorem fresh_start (n : ℕ) : Fresh .plain ⟨[], [], [], n⟩ := ⟨rfl, rfl⟩

/-- The first segment. -/
theorem tracks_first (hfirst : 0 < firstWidth) (hnext : 0 < lay.nextWidth)
    (hisWord : segment.IsWord) (hstarts : segment.separator = [] ∨ Starts segment.word) :
    Tracks firstWidth lay.nextWidth (segment.separator ++ segment.word)
      (Layout.start.place lay.nextWidth firstWidth segment)
      (wrapSegment lay ⟨[], [], [], firstWidth⟩ segment) := by
  have hne : segment.word ≠ [] := fun hnil => hisWord.nonempty (congrArg graphemes hnil)
  have hfitted : Fitted firstWidth lay.nextWidth ⟨[], [], [], firstWidth⟩ :=
    ⟨fun i line hline => by simp [texts] at hline, rfl, .inl (Nat.zero_le _)⟩
  -- a word that fits is put on the line in one piece
  have hwrap : wrapSegment lay ⟨[], [], [], firstWidth⟩ segment =
      appendWrappedWord lay segment.word.length ⟨[], [], [], firstWidth⟩ segment.word := by
    obtain ⟨n, hn⟩ := Nat.exists_eq_succ_of_ne_zero fun h =>
      hne (List.length_eq_zero_iff.mp h)
    rw [wrapSegment, if_neg fun hand => hand.1 rfl]
    split
    case isTrue hfits => rw [hn, appendWrappedWord_succ rfl hfirst hne, if_pos hfits.2]
    case isFalse => rfl
  rw [hwrap]
  show Tracks firstWidth lay.nextWidth ([] ++ (segment.separator ++ segment.word)) _ _
  refine tracks_place (l := Layout.start) (fresh_start firstWidth) rfl hfitted hfirst hnext hisWord
    ?_ (fun _ => ⟨rfl, rfl⟩) (fun gap hgap => absurd hgap List.not_mem_nil)
  rcases hstarts with hnil | hstarts
  · right
    rw [hnil]
    exact Style.overlay_self _
  · exact .inl hstarts

theorem Tracks.foldl (h : Tracks firstWidth lay.nextWidth text l s) (hnext : 0 < lay.nextWidth)
    {segments : List WrapSegment} (hisWord : ∀ segment ∈ segments, segment.IsWord)
    (hstarts : ∀ segment ∈ segments, Starts segment.word) :
    Tracks firstWidth lay.nextWidth
      (text ++ segments.flatMap fun segment => segment.separator ++ segment.word)
      (segments.foldl (Layout.step lay.nextWidth) l) (segments.foldl (wrapSegment lay) s) := by
  induction segments generalizing text l s with
  | nil =>
    rw [List.flatMap_nil, List.append_nil]
    exact h
  | cons segment segments ih =>
    have hstep := h.step hnext (hisWord segment List.mem_cons_self)
      (hstarts segment List.mem_cons_self)
    rw [List.flatMap_cons, ← List.append_assoc]
    exact ih hstep (fun other hother => hisWord other (List.mem_cons_of_mem _ hother))
      fun other hother => hstarts other (List.mem_cons_of_mem _ hother)

/-! ### The lines of a text -/

/-- The lines after a run are those of the layout, and show the text or not. -/
theorem Tracks.right_iff (h : Tracks firstWidth lay.nextWidth text l s)
    {rest : StyledText} (hrest : ∀ g ∈ graphemes rest, isBlank g) :
    WrappedRight firstWidth lay.nextWidth (text ++ rest) (texts (s.breakLine lay)) ↔
      (∀ gap ∈ l.gaps, gap.Harmless) ∧
        styleAfter .plain l.before = styleAfter .plain (text ++ rest) := by
  have hshown : shown .plain (text ++ rest) = shown .plain (l.before ++ l.loose) := by
    rw [shown_append, shown_of_blank _ hrest, List.append_nil, h.laid.text]
  constructor
  · intro hright
    have hharmless : ∀ gap ∈ l.gaps, gap.Harmless := by
      by_contra hnot
      obtain ⟨gap, hgap⟩ := not_forall.mp hnot
      obtain ⟨hmem, hharm⟩ := Classical.not_imp.mp hgap
      have hdiffer := h.outOfStep gap hmem hharm
      rw [OutOfStep, ← h.laid.shown_breakLine lay, ← hshown] at hdiffer
      exact hdiffer.ne hright.shown
    refine ⟨hharmless, ?_⟩
    rw [← hright.ends, ((h.inStep hharmless).ready h.laid lay).ends]
  · rintro ⟨hharmless, hends⟩
    have hready := (h.inStep hharmless).ready h.laid lay
    refine ⟨?_, hready.ends.trans hends, (h.laid.fitted_breakLine h.fitted).lines⟩
    rw [hready.shown, hshown]

/-- The lines are right if and only if no part that is left out matters. -/
theorem wrappedRight_iff {nextWidth : ℕ} (hfirst : 0 < firstWidth) (hnext : 0 < nextWidth)
    (text : StyledText) (firstPrefix nextPrefix : String) :
    WrappedRight firstWidth nextWidth text
        ((wrapTextPreservingSpaces text firstWidth nextWidth firstPrefix nextPrefix).map
          WrappedLine.text) ↔
      KeepsStyles firstWidth nextWidth text := by
  have hsegmented := segmented text
  have hkeeps : KeepsStyles firstWidth nextWidth text ↔
      (∀ gap ∈ (layout firstWidth nextWidth (wrapSegments text)).gaps, gap.Harmless) ∧
        styleAfter .plain (layout firstWidth nextWidth (wrapSegments text)).before =
          styleAfter .plain text := ⟨fun h => ⟨h.gaps, h.rest⟩, fun h => ⟨h.1, h.2⟩⟩
  rw [hkeeps, wrapTextPreservingSpaces, if_neg fun hzero => hfirst.ne' hzero.1]
  match hsegments : wrapSegments text with
  | [] =>
    -- there is no line, and nothing is visible
    rw [hsegments] at hsegmented
    have htext : trailing text = text := hsegmented.text
    have hblank := hsegmented.rest
    rw [htext] at hblank
    rw [if_pos rfl, layout]
    constructor
    · exact fun hright => ⟨fun _ hgap => absurd hgap List.not_mem_nil, hright.ends⟩
    · rintro ⟨-, hends⟩
      exact ⟨(shown_of_blank _ hblank).symm, hends, fun i line hline => by simp at hline⟩
  | segment :: segments =>
    rw [hsegments] at hsegmented
    have hwords := hsegmented.words
    let lay : WrapLayout := ⟨nextWidth, firstPrefix, nextPrefix⟩
    have hfirstTracks : Tracks firstWidth lay.nextWidth (segment.separator ++ segment.word) _
        (wrapSegment lay ⟨[], [], [], firstWidth⟩ segment) :=
      tracks_first hfirst hnext (hwords.isWord segment List.mem_cons_self)
        (hwords.head segment rfl)
    have htracks := hfirstTracks.foldl hnext
      (fun other hother => hwords.isWord other (List.mem_cons_of_mem _ hother)) hwords.tail
    have htext := hsegmented.text
    rw [List.flatMap_cons] at htext
    rw [if_neg (List.cons_ne_nil _ _), layout, ← htext]
    exact htracks.right_iff hsegmented.rest

end Run

/-! ### A coloured word -/

namespace ColouredWord

/-- Every grapheme has the width one. -/
@[reducible] def narrow : UnicodeWidth := ⟨fun _ => 1⟩

/-- A word and a red one after it. -/
def text : StyledText :=
  [.grapheme "a", .grapheme " ", .escape [31], .grapheme "b", .escape [39]]

theorem wrappedRight_wide :
    @WrappedRight narrow 3 3 text
      ((@wrapTextPreservingSpaces narrow text 3 3 "" "").map WrappedLine.text) :=
  (@wrappedRight_iff narrow 3 3 (by decide) (by decide) text "" "").mpr
    (@KeepsStyles.mk narrow 3 3 text (by decide +kernel) (by decide +kernel))

/-- The second line is not red. -/
theorem not_wrappedRight :
    ¬ @WrappedRight narrow 1 1 text
      ((@wrapTextPreservingSpaces narrow text 1 1 "" "").map WrappedLine.text) := by
  intro h
  exact absurd (@WrappedRight.shown narrow _ _ _ _ h) (by decide +kernel)

end ColouredWord

end HeliosLite
