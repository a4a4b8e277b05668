import HeliosLite.Markdown.TableWrap
import Mathlib.Algebra.BigOperators.Group.List.Basic
import Mathlib.Algebra.Order.BigOperators.Group.List
import Mathlib.Data.List.Forall2

/-!
# The widths of the lines of a table

The columns fit after they have been shrunk and trimmed, and each of them is as wide as its widest
cell or at least five columns wide. A line of a row has the width of the borders, unless a cell has
a line that is wider than its column.

## Main definitions

* `StylesText`, `TerminalWidths` — what is known of styles and of the widths of characters
* `fullWidth`, `cellsWidth` — the widths of the borders and of the cells of a line

## Main results

* `columnWidths_spec` — the widths of the columns
* `visibleLength_hline`, `visibleLength_rowLine` — the widths of the lines
-/

namespace HeliosLite

open Theory UnicodeWidth UnicodeWidthChar

namespace TableText

/-! ### The widths of the columns -/

/-- The column has its width, or is not narrower than the least width. -/
def Shrunk (w w' : List ℕ) : Prop := List.Forall₂ (fun x y => y = x ∨ minColWidth ≤ y) w w'

theorem shrunk_map (f : ℕ → ℕ) (w : List ℕ) :
    Shrunk w (w.map fun x => min (max (f x) minColWidth) x) := by
  rw [Shrunk, List.forall₂_map_right_iff, List.forall₂_same]
  intro x _
  omega

theorem shrunk_narrowLast {w w' : List ℕ} {widest : ℕ} (h : Shrunk w w')
    (hwide : minColWidth < widest) : Shrunk w (narrowLast widest w') := by
  induction h with
  | nil => exact .nil
  | cons hxy htail ih =>
    rw [narrowLast]
    split
    case isTrue heq =>
      refine .cons (.inr ?_) htail
      omega
    case isFalse => exact .cons hxy ih

theorem sum_narrowLast {w : List ℕ} {widest : ℕ} (h : widest ∈ w) (hpos : 0 < widest) :
    (narrowLast widest w).sum + 1 = w.sum := by
  induction w with
  | nil => exact absurd h List.not_mem_nil
  | cons x w ih =>
    rw [narrowLast]
    split
    case isTrue heq =>
      rw [List.sum_cons, List.sum_cons, heq.1]
      omega
    case isFalse hnot =>
      have hmem : widest ∈ w := by
        by_contra hout
        rcases List.mem_cons.mp h with rfl | hin
        · exact hnot ⟨rfl, hout⟩
        · exact hout hin
      have hsum := ih hmem
      rw [List.sum_cons, List.sum_cons]
      omega

theorem shrunk_trim {w w' : List ℕ} (h : Shrunk w w') (excess : ℕ) : Shrunk w (trim excess w') := by
  induction excess generalizing w' with
  | zero => exact h
  | succ excess ih =>
    rw [trim]
    split
    · exact h
    · rename_i widest hwidest
      have hmem := List.max?_mem hwidest
      exact ih (shrunk_narrowLast h (of_decide_eq_true (List.mem_filter.mp hmem).2))

/-- The trimming ends with the excess, or when no column is wider than the least width. -/
theorem sum_trim (excess : ℕ) (w : List ℕ) :
    (trim excess w).sum + excess ≤ w.sum ∨ ∀ x ∈ trim excess w, x ≤ minColWidth := by
  induction excess generalizing w with
  | zero => exact .inl le_rfl
  | succ excess ih =>
    rw [trim]
    split
    · rename_i hnone
      right
      intro x hx
      by_contra hwide
      have hmem : x ∈ w.filter (minColWidth < ·) :=
        List.mem_filter.mpr ⟨hx, decide_eq_true (Nat.not_le.mp hwide)⟩
      rw [List.max?_eq_none_iff.mp hnone] at hmem
      exact absurd hmem List.not_mem_nil
    · rename_i widest hwidest
      have hmem := List.mem_filter.mp (List.max?_mem hwidest)
      have hsum := sum_narrowLast hmem.1 (Nat.zero_lt_of_lt (of_decide_eq_true hmem.2))
      rcases ih (narrowLast widest w) with hle | hsmall
      · left
        omega
      · exact .inr hsmall

section Columns

variable [UnicodeWidthChar] {rows : List (List (List Char))} {row : List (List Char)} {w : List ℕ}

theorem length_widen (w : List ℕ) (row : List (List Char)) : (widen w row).length = w.length := by
  induction w generalizing row with
  | nil => rfl
  | cons x w ih =>
    match row with
    | [] => rfl
    | cell :: row => rw [widen, List.length_cons, List.length_cons, ih]

theorem length_foldl_widen (rows : List (List (List Char))) (w : List ℕ) :
    (rows.foldl widen w).length = w.length := by
  induction rows generalizing w with
  | nil => rfl
  | cons row rows ih => rw [List.foldl_cons, ih, length_widen]

/-- A column gets as wide as the cell of one more row. -/
theorem getElem?_widen {i x : ℕ} (h : (widen w row)[i]? = some x) :
    (∃ y, w[i]? = some y ∧ y ≤ x) ∧ ∀ cell, row[i]? = some cell → visibleLength cell ≤ x := by
  induction w generalizing row i with
  | nil => exact absurd h (Option.some_ne_none x).symm
  | cons y w ih =>
    match row, i with
    | [], i =>
      refine ⟨⟨x, h, le_rfl⟩, fun cell hcell => ?_⟩
      exact absurd hcell (Option.some_ne_none cell).symm
    | cell :: row, 0 =>
      obtain rfl := Option.some.inj h
      refine ⟨⟨y, rfl, le_max_left _ _⟩, fun cell' hcell => ?_⟩
      obtain rfl := Option.some.inj hcell
      exact le_max_right _ _
    | cell :: row, i + 1 => exact ih h

theorem getElem?_foldl_widen {i x : ℕ} (h : (rows.foldl widen w)[i]? = some x) :
    (∃ y, w[i]? = some y ∧ y ≤ x) ∧
      ∀ row ∈ rows, ∀ cell, row[i]? = some cell → visibleLength cell ≤ x := by
  induction rows generalizing w with
  | nil => exact ⟨⟨x, h, le_rfl⟩, fun row hrow => absurd hrow List.not_mem_nil⟩
  | cons row rows ih =>
    obtain ⟨⟨y, hy, hle⟩, hrows⟩ := ih h
    obtain ⟨⟨z, hz, hle'⟩, hcells⟩ := getElem?_widen hy
    refine ⟨⟨z, hz, hle'.trans hle⟩, fun row' hrow' cell hcell => ?_⟩
    rcases List.mem_cons.mp hrow' with rfl | hmem
    · exact (hcells cell hcell).trans hle
    · exact hrows row' hmem cell hcell

/-- Each column is wide enough for its cells or for the least width, and all of them fit. -/
theorem columnWidths_spec {n overhead maxWidth : ℕ} (hn : 0 < n)
    (hmax : overhead + minColWidth * n ≤ maxWidth) :
    (columnWidths rows n overhead maxWidth).length = n ∧
      overhead + (columnWidths rows n overhead maxWidth).sum ≤ maxWidth ∧
      ∀ i x : ℕ, (columnWidths rows n overhead maxWidth)[i]? = some x →
        minColWidth ≤ x ∨ ∀ row ∈ rows, ∀ cell, row[i]? = some cell → visibleLength cell ≤ x := by
  have hroom : overhead < maxWidth := by
    have hmin : 0 < minColWidth * n := Nat.mul_pos (by decide) hn
    omega
  have hnatural : (rows.foldl widen (List.replicate n 0)).length = n := by
    rw [length_foldl_widen, List.length_replicate]
  have hcells : ∀ i x : ℕ, (rows.foldl widen (List.replicate n 0))[i]? = some x →
      ∀ row ∈ rows, ∀ cell : List Char, row[i]? = some cell → visibleLength cell ≤ x :=
    fun i x h => (getElem?_foldl_widen h).2
  rw [columnWidths]
  generalize rows.foldl widen (List.replicate n 0) = w at hnatural hcells
  by_cases hshrink : maxWidth < overhead + w.sum ∧ overhead < maxWidth
  · simp only [if_pos hshrink]
    generalize hw' :
      (w.map fun x => min (max (x * (maxWidth - overhead) / w.sum) minColWidth) x) = w'
    have hshrunk : Shrunk w (trim (w'.sum - (maxWidth - overhead)) w') := by
      rw [← hw']
      exact shrunk_trim (shrunk_map _ w) _
    have hlength := List.Forall₂.length_eq hshrunk
    refine ⟨hlength.symm.trans hnatural, ?_, ?_⟩
    · rcases sum_trim (w'.sum - (maxWidth - overhead)) w' with hle | hsmall
      · omega
      · -- no column is wider than the least width
        have hsum : (trim (w'.sum - (maxWidth - overhead)) w').sum ≤
            (trim (w'.sum - (maxWidth - overhead)) w').length * minColWidth :=
          List.sum_le_card_nsmul _ _ hsmall
        rw [← hlength, hnatural, Nat.mul_comm] at hsum
        omega
    · intro i x hx
      obtain ⟨hi, rfl⟩ := List.getElem?_eq_some_iff.mp hx
      have hi' : i < w.length := hlength ▸ hi
      rcases (List.forall₂_iff_get.mp hshrunk).2 i hi' hi with heq | hmin
      · right
        refine hcells i _ (List.getElem?_eq_some_iff.mpr ⟨hi', ?_⟩)
        exact heq.symm
      · exact .inl hmin
  · simp only [if_neg hshrink]
    refine ⟨hnatural, ?_, fun i x hx => .inr (hcells i x hx)⟩
    omega

end Columns

/-! ### The lines of a table -/

section Lines

variable [UnicodeWidthChar]

/-- Styles add escape sequences only. -/
structure StylesText (styler : TableStyler) : Prop where
  border : ∀ text, Closed text →
    Closed (styler.border text) ∧ visible (styler.border text) = visible text
  header : ∀ text, Closed text →
    Closed (styler.header text) ∧ visible (styler.header text) = visible text

/-- The widths of characters in a terminal. -/
structure TerminalWidths : Prop where
  le_two : ∀ c, charWidth c ≤ 2
  blank : charWidth ' ' = 1
  box : ∀ c ∈ ['─', '│', '┌', '┬', '┐', '├', '┼', '┤', '└', '┴', '┘'], charWidth c = 1

theorem textWidth_replicate (n : ℕ) {c : Char} (hc : charWidth c = 1) :
    textWidth (List.replicate n c) = n := by
  rw [textWidth, List.map_replicate, hc, List.sum_replicate]
  exact Nat.mul_one n

omit [UnicodeWidthChar] in
theorem plain_replicate (n : ℕ) {c : Char} (hc : c ≠ escapeChar) :
    escapeChar ∉ List.replicate n c := fun h => hc (List.eq_of_mem_replicate h).symm

/-- The texts between others are closed, and each separator counts. -/
theorem intercalate_spec {separator : List Char} (hseparator : Closed separator)
    {texts : List (List Char)} (htexts : ∀ text ∈ texts, Closed text) :
    Closed (List.intercalate separator texts) ∧
      visibleLength (List.intercalate separator texts) =
        (texts.map visibleLength).sum + (texts.length - 1) * visibleLength separator := by
  induction texts with
  | nil =>
    rw [List.intercalate_nil]
    refine ⟨closed_nil, ?_⟩
    rw [List.length_nil, Nat.zero_sub, Nat.zero_mul]
    rfl
  | cons text texts ih =>
    have htext := htexts text List.mem_cons_self
    obtain ⟨hclosed, hlength⟩ := ih fun t ht => htexts t (List.mem_cons_of_mem _ ht)
    match texts with
    | [] =>
      rw [List.intercalate_singleton]
      refine ⟨htext, ?_⟩
      simp
    | text' :: texts =>
      have hcons : List.intercalate separator (text :: text' :: texts) =
          text ++ (separator ++ List.intercalate separator (text' :: texts)) := by
        simp [List.intercalate]
      rw [hcons]
      refine ⟨htext.append (hseparator.append hclosed), ?_⟩
      rw [visibleLength_append htext, visibleLength_append hseparator, hlength]
      simp only [List.map_cons, List.sum_cons, List.length_cons, Nat.add_sub_cancel, Nat.add_mul,
        Nat.one_mul]
      omega

variable {styler : TableStyler} {margin : List Char} {w : List ℕ}

theorem border_spec (hstyles : StylesText styler) (hwidths : TerminalWidths) {c : Char}
    (hc : c ∈ ['─', '│', '┌', '┬', '┐', '├', '┼', '┤', '└', '┴', '┘']) (n : ℕ) :
    Closed (styler.border (List.replicate n c)) ∧
      visibleLength (styler.border (List.replicate n c)) = n := by
  have hplain : c ≠ escapeChar := by
    rintro rfl
    exact absurd hc (by decide)
  obtain ⟨hclosed, hvisible⟩ := plain_text (plain_replicate n hplain)
  obtain ⟨hborder, hshown⟩ := hstyles.border _ hclosed
  refine ⟨hborder, ?_⟩
  rw [visibleLength, hshown, hvisible, textWidth_replicate n (hwidths.box c hc)]

/-- The width of all lines of a table that is right. -/
def fullWidth (margin : List Char) (w : List ℕ) : ℕ :=
  visibleLength margin + 1 + ((w.map (· + 2)).sum + (w.length - 1)) + 1

/-- Cells between borders. -/
theorem bordered_spec (hstyles : StylesText styler) (hwidths : TerminalWidths)
    (hmargin : Closed margin) {left middle right : Char}
    (hbox : ∀ c ∈ [left, middle, right],
      c ∈ ['─', '│', '┌', '┬', '┐', '├', '┼', '┤', '└', '┴', '┘'])
    {cells : List (List Char)} (hcells : ∀ cell ∈ cells, Closed cell) :
    visibleLength (margin ++ styler.border [left] ++
        List.intercalate (styler.border [middle]) cells ++ styler.border [right]) =
      visibleLength margin + 1 + ((cells.map visibleLength).sum + (cells.length - 1)) + 1 := by
  obtain ⟨hleft, hleftWidth⟩ := border_spec hstyles hwidths (hbox left (by simp)) 1
  obtain ⟨hmiddle, hmiddleWidth⟩ := border_spec hstyles hwidths (hbox middle (by simp)) 1
  obtain ⟨hright, hrightWidth⟩ := border_spec hstyles hwidths (hbox right (by simp)) 1
  rw [List.replicate_one] at hleft hleftWidth hmiddle hmiddleWidth hrightWidth
  obtain ⟨hclosed, hlength⟩ := intercalate_spec hmiddle hcells
  rw [visibleLength_append ((hmargin.append hleft).append hclosed),
    visibleLength_append (hmargin.append hleft), visibleLength_append hmargin, hlength, hleftWidth,
    hmiddleWidth, hrightWidth, Nat.mul_one]

theorem visibleLength_hline (hstyles : StylesText styler) (hwidths : TerminalWidths)
    (hmargin : Closed margin) {left middle right : Char}
    (hbox : ∀ c ∈ [left, middle, right],
      c ∈ ['─', '│', '┌', '┬', '┐', '├', '┼', '┤', '└', '┴', '┘']) :
    visibleLength (hline styler margin w left middle right) = fullWidth margin w := by
  have hcells : ∀ cell ∈ w.map fun x => styler.border (List.replicate (x + 2) '─'),
      Closed cell := by
    intro cell hcell
    obtain ⟨x, -, rfl⟩ := List.mem_map.mp hcell
    exact (border_spec hstyles hwidths List.mem_cons_self (x + 2)).1
  have hwidth : (w.map fun x => styler.border (List.replicate (x + 2) '─')).map visibleLength =
      w.map (· + 2) := by
    rw [List.map_map]
    exact List.map_congr_left fun x _ =>
      (border_spec hstyles hwidths List.mem_cons_self (x + 2)).2
  rw [hline, bordered_spec hstyles hwidths hmargin hbox hcells, hwidth, List.length_map, fullWidth]

/-- A cell is as wide as its column, or as its line if that is wider. -/
theorem cellText_spec (hstyles : StylesText styler) (hwidths : TerminalWidths) (isHeader : Bool)
    (width : ℕ) {c : List Char} (hc : Closed c) :
    Closed (cellText styler isHeader width c) ∧
      visibleLength (cellText styler isHeader width c) = max width (visibleLength c) + 2 := by
  have hblank : Closed [' '] ∧ visibleLength [' '] = 1 := by
    refine ⟨by decide, ?_⟩
    rw [visibleLength_char (by decide), hwidths.blank]
  have hcontent : Closed (if isHeader ∧ c ≠ [] then styler.header c else c) ∧
      visibleLength (if isHeader ∧ c ≠ [] then styler.header c else c) = visibleLength c := by
    split
    · obtain ⟨hclosed, hvisible⟩ := hstyles.header c hc
      exact ⟨hclosed, by rw [visibleLength, hvisible]; rfl⟩
    · exact ⟨hc, rfl⟩
  obtain ⟨hclosed, hlength⟩ := hcontent
  obtain ⟨hpad, hpadVisible⟩ := plain_text
    (plain_replicate (width - visibleLength c) (c := ' ') (by decide))
  have hpadLength : visibleLength (List.replicate (width - visibleLength c) ' ') =
      width - visibleLength c := by
    rw [visibleLength, hpadVisible, textWidth_replicate _ hwidths.blank]
  refine ⟨hblank.1.append ((hclosed.append hpad).append hblank.1), ?_⟩
  rw [cellText, ← List.singleton_append, visibleLength_append hblank.1,
    visibleLength_append (hclosed.append hpad), visibleLength_append hclosed, hlength, hpadLength,
    hblank.2]
  omega

/-- The width of a row of cells. -/
def cellsWidth (li : ℕ) (w : List ℕ) (wrapped : List (List (List Char))) : ℕ :=
  (List.zipWith (fun x lines => max x (visibleLength (lines[li]?.getD [])) + 2) w wrapped).sum

/-- The texts of the cells of a line. -/
theorem cellTexts_spec (hstyles : StylesText styler) (hwidths : TerminalWidths) (isHeader : Bool)
    (li : ℕ) {wrapped : List (List (List Char))}
    (hwrapped : ∀ lines ∈ wrapped, ∀ line ∈ lines, Closed line) :
    (∀ cell ∈ List.zipWith (fun width lines =>
        cellText styler isHeader width (lines[li]?.getD [])) w wrapped, Closed cell) ∧
      ((List.zipWith (fun width lines =>
        cellText styler isHeader width (lines[li]?.getD [])) w wrapped).map visibleLength).sum =
          cellsWidth li w wrapped := by
  induction w generalizing wrapped with
  | nil => exact ⟨fun _ h => absurd h List.not_mem_nil, rfl⟩
  | cons x w ih =>
    match wrapped with
    | [] => exact ⟨fun _ h => absurd h List.not_mem_nil, rfl⟩
    | lines :: wrapped =>
      have hline : Closed (lines[li]?.getD []) := by
        cases hget : lines[li]? with
        | none => exact closed_nil
        | some line =>
          exact hwrapped lines List.mem_cons_self line (List.mem_of_getElem? hget)
      obtain ⟨hclosed, hlength⟩ := cellText_spec hstyles hwidths isHeader x hline
      obtain ⟨hcells, hsum⟩ := ih fun lines hlines =>
        hwrapped lines (List.mem_cons_of_mem _ hlines)
      refine ⟨?_, ?_⟩
      · rw [List.zipWith_cons_cons]
        exact List.forall_mem_cons.mpr ⟨hclosed, hcells⟩
      · rw [List.zipWith_cons_cons, List.map_cons, List.sum_cons, hsum, hlength, cellsWidth,
          cellsWidth, List.zipWith_cons_cons, List.sum_cons]

theorem le_cellsWidth (li : ℕ) {w : List ℕ} {wrapped : List (List (List Char))}
    (hlength : w.length = wrapped.length) : (w.map (· + 2)).sum ≤ cellsWidth li w wrapped := by
  induction w generalizing wrapped with
  | nil => exact Nat.zero_le _
  | cons x w ih =>
    match wrapped with
    | [] => exact absurd hlength (Nat.succ_ne_zero _)
    | lines :: wrapped =>
      have hrest := ih (Nat.succ.inj hlength)
      rw [cellsWidth] at hrest ⊢
      rw [List.zipWith_cons_cons, List.map_cons, List.sum_cons, List.sum_cons]
      omega

/-- If all lines of the cells fit, the row has the width of the borders. -/
theorem cellsWidth_eq (li : ℕ) {w : List ℕ} {wrapped : List (List (List Char))}
    (hlength : w.length = wrapped.length)
    (hfits : ∀ (i x : ℕ) lines, w[i]? = some x → wrapped[i]? = some lines →
      ∀ line ∈ lines, visibleLength line ≤ x) :
    cellsWidth li w wrapped = (w.map (· + 2)).sum := by
  induction w generalizing wrapped with
  | nil => rfl
  | cons x w ih =>
    match wrapped with
    | [] => exact absurd hlength (Nat.succ_ne_zero _)
    | lines :: wrapped =>
      have hrest := ih (Nat.succ.inj hlength) fun i y lines => hfits (i + 1) y lines
      have hline : visibleLength (lines[li]?.getD []) ≤ x := by
        cases hget : lines[li]? with
        | none => exact Nat.zero_le x
        | some line => exact hfits 0 x lines rfl rfl line (List.mem_of_getElem? hget)
      rw [cellsWidth] at hrest ⊢
      rw [List.zipWith_cons_cons, List.map_cons, List.sum_cons, List.sum_cons, hrest,
        max_eq_left hline]

/-- A line that is wider than its column makes the row wider. -/
theorem lt_cellsWidth {li i x : ℕ} {w : List ℕ} {wrapped : List (List (List Char))}
    {lines : List (List Char)} {line : List Char} (hlength : w.length = wrapped.length)
    (hx : w[i]? = some x) (hlines : wrapped[i]? = some lines) (hline : lines[li]? = some line)
    (hwide : x < visibleLength line) : (w.map (· + 2)).sum < cellsWidth li w wrapped := by
  induction w generalizing wrapped i with
  | nil => exact absurd hx (Option.some_ne_none x).symm
  | cons y w ih =>
    match wrapped, i with
    | [], i => exact absurd hlength (Nat.succ_ne_zero _)
    | lines' :: wrapped, 0 =>
      obtain rfl := Option.some.inj hx
      obtain rfl := Option.some.inj hlines
      have hrest := le_cellsWidth li (Nat.succ.inj hlength)
      rw [cellsWidth] at hrest ⊢
      rw [List.zipWith_cons_cons, List.map_cons, List.sum_cons, List.sum_cons, hline,
        Option.getD_some]
      omega
    | lines' :: wrapped, i + 1 =>
      have hrest := ih (Nat.succ.inj hlength) hx hlines
      rw [cellsWidth] at hrest ⊢
      rw [List.zipWith_cons_cons, List.map_cons, List.sum_cons, List.sum_cons]
      omega

/-- The width of a line of a row. -/
theorem visibleLength_rowLine (hstyles : StylesText styler) (hwidths : TerminalWidths)
    (hmargin : Closed margin) (isHeader : Bool) (li : ℕ) {wrapped : List (List (List Char))}
    (hlength : w.length = wrapped.length)
    (hwrapped : ∀ lines ∈ wrapped, ∀ line ∈ lines, Closed line) :
    visibleLength (rowLine styler margin isHeader w wrapped li) =
      visibleLength margin + 1 + (cellsWidth li w wrapped + (w.length - 1)) + 1 := by
  obtain ⟨hcells, hsum⟩ := cellTexts_spec (w := w) hstyles hwidths isHeader li hwrapped
  rw [rowLine, bordered_spec hstyles hwidths hmargin (by simp) hcells, hsum, List.length_zipWith,
    ← hlength, min_self]

end Lines

end TableText

end HeliosLite
