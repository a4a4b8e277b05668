import HeliosLite.Markdown.TableLines

/-!
# Which tables are rendered right

All lines of a table have one width if and only if no word of a cell is cut after a command with a
character of more than one byte. Then each cell shows its characters on its lines.

## Main definitions

* `TableRight` — what the lines of a table are to be

## Main results

* `bodyLines_spec` — the lines of the rows
* `table_right_iff` — for which tables the lines are right
-/

namespace HeliosLite

open Theory UnicodeWidth UnicodeWidthChar

namespace TableText

/-! ### Rows -/

section Rows

variable [UnicodeWidthChar] {styler : TableStyler} {margin : List Char} {w : List ℕ}
  {row : List (List Char)}

/-- The column is wide enough for the cell, or for each character. -/
def HasRoom (x : ℕ) (tokens : List EscapeToken) : Prop :=
  tokensWidth tokens ≤ x ∨ 0 < x ∧ ∀ c, charWidth c ≤ x

/-- The cells of a row are wrapped to the widths of their columns. -/
theorem wrapRow_spec {cells : ℕ → List EscapeToken}
    (hcells : ∀ i x : ℕ, w[i]? = some x →
      row[i]?.getD [] = render (cells i) ∧ HasRoom x (cells i)) :
    ∃ wrapped, wrapRow w row = some wrapped ∧ w.length = wrapped.length ∧
      ∀ i x : ℕ, w[i]? = some x → ∃ lines, wrapped[i]? = some lines ∧
        wrap (row[i]?.getD []) x = some lines ∧ CellLines x (cells i) lines := by
  induction w generalizing row cells with
  | nil => exact ⟨[], rfl, rfl, fun i x hx => absurd hx (Option.some_ne_none x).symm⟩
  | cons x w ih =>
    have htail : ∀ i : ℕ, row.tail[i]? = row[i + 1]? := fun i => List.getElem?_tail
    have hcells' : ∀ i y : ℕ, w[i]? = some y →
        row.tail[i]?.getD [] = render (cells (i + 1)) ∧ HasRoom y (cells (i + 1)) := by
      intro i y hy
      rw [htail]
      exact hcells (i + 1) y hy
    obtain ⟨wrapped, hwrapped, hlength, hrest⟩ := ih hcells'
    obtain ⟨hhead, hroom⟩ := hcells 0 x rfl
    obtain ⟨lines, hlines, hcell⟩ := wrap_spec (cells 0) hroom
    rw [← hhead] at hlines
    refine ⟨lines :: wrapped, ?_, congrArg (· + 1) hlength, ?_⟩
    · rw [wrapRow, List.head?_eq_getElem?, hlines, hwrapped]
      rfl
    · intro i y hy
      match i with
      | 0 =>
        obtain rfl := Option.some.inj hy
        exact ⟨lines, rfl, hlines, hcell⟩
      | i + 1 =>
        have hi := hrest i y hy
        rw [htail] at hi
        exact hi

/-- No word of the cells is cut after such a command. -/
def RowFine (w : List ℕ) (cells : ℕ → List EscapeToken) : Prop :=
  ∀ i x : ℕ, w[i]? = some x → Swallows x (cells i) = false

variable {wrapped : List (List (List Char))} {cells : ℕ → List EscapeToken}

/-- The lines of the cells of a row. -/
structure RowWrapped (w : List ℕ) (cells : ℕ → List EscapeToken)
    (wrapped : List (List (List Char))) : Prop where
  length : w.length = wrapped.length
  cells : ∀ i x : ℕ, w[i]? = some x →
    ∃ lines, wrapped[i]? = some lines ∧ CellLines x (cells i) lines

theorem RowWrapped.closed (h : RowWrapped w cells wrapped) :
    ∀ lines ∈ wrapped, ∀ line ∈ lines, Closed line := by
  intro lines hlines
  obtain ⟨i, hi⟩ := List.mem_iff_getElem?.mp hlines
  have hlt : i < w.length := h.length ▸ (List.getElem?_eq_some_iff.mp hi).1
  obtain ⟨lines', hlines', hcell⟩ := h.cells i w[i] (List.getElem?_eq_getElem hlt)
  obtain rfl := Option.some.inj (hi.symm.trans hlines')
  exact hcell.closed

omit [UnicodeWidthChar] in
theorem le_max?_getD {l : List ℕ} {x : ℕ} (hx : x ∈ l) (d : ℕ) : x ≤ l.max?.getD d := by
  cases hmax : l.max? with
  | none =>
    rw [List.max?_eq_none_iff.mp hmax] at hx
    exact absurd hx List.not_mem_nil
  | some m => exact (List.max?_eq_some_iff.mp hmax).2 x hx

/-- The widths of the lines of a row. -/
theorem rowLines_spec (hstyles : StylesText styler) (hwidths : TerminalWidths)
    (hmargin : Closed margin) (first : Bool) (h : RowWrapped w cells wrapped) :
    (RowFine w cells → ∀ line ∈ rowLines styler margin first w wrapped,
      visibleLength line = fullWidth margin w) ∧
    (¬ RowFine w cells → ∃ line ∈ rowLines styler margin first w wrapped,
      fullWidth margin w < visibleLength line) := by
  have hwidth := fun (isHeader : Bool) (li : ℕ) =>
    visibleLength_rowLine hstyles hwidths hmargin isHeader li h.length h.closed
  constructor
  · intro hfine line hline
    obtain ⟨li, -, rfl⟩ := List.mem_map.mp hline
    rw [hwidth, cellsWidth_eq li h.length, fullWidth]
    intro i x lines hx hlines
    obtain ⟨lines', hlines', hcell⟩ := h.cells i x hx
    obtain rfl := Option.some.inj (hlines.symm.trans hlines')
    exact hcell.fits (hfine i x hx)
  · intro hnot
    obtain ⟨i, hnot⟩ := not_forall.mp hnot
    obtain ⟨x, hnot⟩ := not_forall.mp hnot
    obtain ⟨hx, hswallows⟩ := Classical.not_imp.mp hnot
    obtain ⟨lines, hlines, hcell⟩ := h.cells i x hx
    obtain ⟨line, hline, hwide⟩ := hcell.tooWide (Bool.not_eq_false _ ▸ hswallows)
    obtain ⟨li, hli⟩ := List.mem_iff_getElem?.mp hline
    have hlt : li < (wrapped.map List.length).max?.getD 1 :=
      (List.getElem?_eq_some_iff.mp hli).1.trans_le
        (le_max?_getD (List.mem_map_of_mem (List.mem_of_getElem? hlines)) 1)
    refine ⟨_, List.mem_map_of_mem (List.mem_range.mpr hlt), ?_⟩
    have hsum := lt_cellsWidth h.length hx hlines hli hwide
    rw [hwidth, fullWidth]
    omega

/-- The lines of the rows. -/
theorem bodyLines_spec (hstyles : StylesText styler) (hwidths : TerminalWidths)
    (hmargin : Closed margin) {rows : List (List (List Char))}
    {cells : List (List Char) → ℕ → List EscapeToken}
    (hcells : ∀ row ∈ rows, ∀ i x : ℕ, w[i]? = some x →
      row[i]?.getD [] = render (cells row i) ∧ HasRoom x (cells row i)) (first : Bool) :
    ∃ body, bodyLines styler margin w first rows = some body ∧
      ((∀ row ∈ rows, RowFine w (cells row)) →
        ∀ line ∈ body, visibleLength line = fullWidth margin w) ∧
      ∀ row ∈ rows, ¬ RowFine w (cells row) →
        ∃ line ∈ body, fullWidth margin w < visibleLength line := by
  induction rows generalizing first with
  | nil =>
    exact ⟨[], rfl, fun _ _ h => absurd h List.not_mem_nil, fun _ h => absurd h List.not_mem_nil⟩
  | cons row rows ih =>
    obtain ⟨wrapped, hwrapped, hlength, hlines⟩ := wrapRow_spec (hcells row List.mem_cons_self)
    obtain ⟨rest, hrest, hfine, hbad⟩ := ih (fun row' hrow' =>
      hcells row' (List.mem_cons_of_mem _ hrow')) false
    have hrow : RowWrapped w (cells row) wrapped := by
      refine ⟨hlength, fun i x hx => ?_⟩
      obtain ⟨lines, hget, -, hcell⟩ := hlines i x hx
      exact ⟨lines, hget, hcell⟩
    obtain ⟨hrowFine, hrowBad⟩ := rowLines_spec hstyles hwidths hmargin first hrow
    refine ⟨_, by rw [bodyLines, hwrapped, hrest]; rfl, ?_, ?_⟩
    · intro hall line hline
      rcases List.mem_append.mp hline with hline | hline
      · exact hrowFine (hall row List.mem_cons_self) line hline
      · rcases List.mem_append.mp hline with hline | hline
        · split at hline
          · exact absurd hline List.not_mem_nil
          · rw [List.mem_singleton.mp hline]
            exact visibleLength_hline hstyles hwidths hmargin (by simp)
        · exact hfine (fun row' hrow' => hall row' (List.mem_cons_of_mem _ hrow')) line hline
    · intro row' hrow' hnot
      rcases List.mem_cons.mp hrow' with rfl | hmem
      · obtain ⟨line, hline, hwide⟩ := hrowBad hnot
        exact ⟨line, List.mem_append_left _ hline, hwide⟩
      · obtain ⟨line, hline, hwide⟩ := hbad row' hmem hnot
        exact ⟨line, List.mem_append_right _ (List.mem_append_right _ hline), hwide⟩

end Rows

/-! ### Tables -/

section Tables

variable [UnicodeWidth] [UnicodeWidthChar]

/-- All lines of the table have one width that is not too large, and the lines of each cell show its
characters, except for whitespace. -/
structure TableRight (styler : TableStyler) (margin : List Char) (rows : List (List (List Char)))
    (maxWidth : ℕ) : Prop where
  lines : ∃ out, renderTable styler margin rows maxWidth = some out ∧
    ∃ n ≤ maxWidth, ∀ line ∈ out, visibleLength line = n
  cells : ∀ row ∈ rows, ∀ (i : ℕ) content, row[i]? = some content →
    ∃ x lines, (tableWidths styler margin rows maxWidth)[i]? = some x ∧
      wrap (styler.inline content) x = some lines ∧
      nonblank (lines.flatMap visible) = nonblank (visible (styler.inline content))

/-- No word of a cell is cut to the width of its column after a command with a character of more
than one byte. -/
def NoneSwallows (styler : TableStyler) (margin : List Char) (rows : List (List (List Char)))
    (maxWidth : ℕ) (tokens : List Char → List EscapeToken) : Prop :=
  ∀ row ∈ rows, ∀ (i x : ℕ) content, row[i]? = some content →
    (tableWidths styler margin rows maxWidth)[i]? = some x →
      Swallows x (tokens (styler.inline content)) = false

variable {styler : TableStyler} {margin : List Char} {rows : List (List (List Char))}
  {maxWidth : ℕ} {tokens : List Char → List EscapeToken}

omit [UnicodeWidth] [UnicodeWidthChar] in
theorem length_le_columnCount {row : List (List Char)} (hrow : row ∈ rows) :
    row.length ≤ columnCount styler rows := by
  have hmem : row.length ∈ (renderedRows styler rows).map List.length := by
    refine List.mem_map.mpr ⟨row.map styler.inline, List.mem_map_of_mem hrow, ?_⟩
    exact List.length_map _
  exact le_max?_getD hmem 0

omit [UnicodeWidth] [UnicodeWidthChar] in
theorem sum_map_add_two (w : List ℕ) : (w.map (· + 2)).sum = w.sum + 2 * w.length := by
  induction w with
  | nil => rfl
  | cons x w ih =>
    rw [List.map_cons, List.sum_cons, List.sum_cons, ih, List.length_cons]
    omega

/-- The tokens of a cell of a rendered row, of none if the row is too short. -/
def cellTokens (tokens : List Char → List EscapeToken) (row : List (List Char)) (i : ℕ) :
    List EscapeToken :=
  (row[i]?.map tokens).getD []

/-- The cells of a table have room in their columns. -/
theorem hasRoom_cell (hwidths : TerminalWidths)
    (htokens : ∀ row ∈ rows, ∀ content ∈ row,
      render (tokens (styler.inline content)) = styler.inline content)
    (hn : 0 < columnCount styler rows)
    (hmax : overhead margin (columnCount styler rows) + 5 * columnCount styler rows ≤ maxWidth) :
    ∀ row ∈ renderedRows styler rows, ∀ i x : ℕ,
      (tableWidths styler margin rows maxWidth)[i]? = some x →
        row[i]?.getD [] = render (cellTokens tokens row i) ∧
          HasRoom x (cellTokens tokens row i) := by
  obtain ⟨-, -, hcolumns⟩ := @columnWidths_spec _ (renderedRows styler rows) _ _ _ hn hmax
  intro row hrow i x hx
  obtain ⟨contents, hcontents, rfl⟩ := List.mem_map.mp hrow
  have hwide : minColWidth ≤ x → HasRoom x (cellTokens tokens (contents.map styler.inline) i) := by
    intro hmin
    have hfive : minColWidth = 5 := rfl
    exact .inr ⟨by omega, fun c => (hwidths.le_two c).trans (by omega)⟩
  cases hcell : (contents.map styler.inline)[i]? with
  | none =>
    refine ⟨?_, .inl ?_⟩
    · rw [cellTokens, hcell]
      rfl
    · rw [cellTokens, hcell]
      exact Nat.zero_le x
  | some cell =>
    have htext : render (cellTokens tokens (contents.map styler.inline) i) = cell := by
      obtain ⟨content, hcontent, rfl⟩ := List.mem_map.mp (List.mem_of_getElem? hcell)
      rw [cellTokens, hcell]
      exact htokens contents hcontents content hcontent
    refine ⟨htext.symm, ?_⟩
    rcases hcolumns i x hx with hmin | hcells
    · exact hwide hmin
    · left
      rw [← visibleLength_render, htext]
      exact hcells _ hrow cell hcell

theorem noneSwallows_iff :
    NoneSwallows styler margin rows maxWidth tokens ↔
      ∀ row ∈ renderedRows styler rows,
        RowFine (tableWidths styler margin rows maxWidth) (cellTokens tokens row) := by
  constructor
  · intro h row hrow i x hx
    obtain ⟨contents, hcontents, rfl⟩ := List.mem_map.mp hrow
    rw [cellTokens, List.getElem?_map]
    cases hcontent : contents[i]? with
    | none => rfl
    | some content => exact h contents hcontents i x content hcontent hx
  · intro h row hrow i x content hcontent hx
    have hfine := h _ (List.mem_map_of_mem hrow) i x hx
    rw [cellTokens, List.getElem?_map, hcontent] at hfine
    exact hfine

/-- The lines of a table are right if and only if no word is cut after such a command. -/
theorem table_right_iff (hstyles : StylesText styler) (hwidths : TerminalWidths)
    (hmargin : Closed margin) (hmarginWidth : visibleLength margin ≤ width (String.ofList margin))
    (htokens : ∀ row ∈ rows, ∀ content ∈ row,
      render (tokens (styler.inline content)) = styler.inline content)
    (hmax : overhead margin (columnCount styler rows) + 5 * columnCount styler rows ≤ maxWidth) :
    TableRight styler margin rows maxWidth ↔
      NoneSwallows styler margin rows maxWidth tokens := by
  by_cases hn : columnCount styler rows = 0
  · -- there are no cells
    have hnone : ∀ row ∈ rows, ∀ (i : ℕ) content, row[i]? ≠ some content := by
      intro row hrow i content hcontent
      have hlt := (List.getElem?_eq_some_iff.mp hcontent).1
      have hle : row.length ≤ columnCount styler rows := length_le_columnCount hrow
      omega
    constructor
    · intro _ row hrow i x content hcontent
      exact absurd hcontent (hnone row hrow i content)
    · intro _
      refine ⟨⟨[], ?_, 0, Nat.zero_le _, fun _ h => absurd h List.not_mem_nil⟩, ?_⟩
      · rw [renderTable, if_pos (.inr hn)]
      · intro row hrow i content hcontent
        exact absurd hcontent (hnone row hrow i content)
  · have hpos := Nat.pos_of_ne_zero hn
    have hne : renderedRows styler rows ≠ [] := by
      intro hnil
      refine hn ?_
      rw [columnCount, hnil]
      rfl
    have hcells := hasRoom_cell hwidths htokens hpos hmax
    obtain ⟨hlength, hsum, -⟩ := @columnWidths_spec _ (renderedRows styler rows) _ _ _ hpos hmax
    obtain ⟨body, hbody, hfine, hbad⟩ := bodyLines_spec hstyles hwidths hmargin hcells true
    have htable : renderTable styler margin rows maxWidth =
        some (hline styler margin (tableWidths styler margin rows maxWidth) '┌' '┬' '┐' ::
          (body ++
            [hline styler margin (tableWidths styler margin rows maxWidth) '└' '┴' '┘'])) := by
      rw [renderTable, if_neg (not_or.mpr ⟨hne, hn⟩)]
      simp only [hbody]
      rfl
    have hfull : fullWidth margin (tableWidths styler margin rows maxWidth) ≤ maxWidth := by
      rw [fullWidth, sum_map_add_two, tableWidths, hlength]
      rw [overhead] at hsum ⊢
      omega
    rw [noneSwallows_iff]
    constructor
    · intro hright row hrow
      obtain ⟨out, hout, n, -, hlines⟩ := hright.lines
      obtain rfl := Option.some.inj (htable.symm.trans hout)
      by_contra hnot
      obtain ⟨line, hline, hwide⟩ := hbad row hrow hnot
      have htop := hlines _ List.mem_cons_self
      rw [visibleLength_hline hstyles hwidths hmargin (by simp)] at htop
      have hsame := hlines line (List.mem_cons_of_mem _ (List.mem_append_left _ hline))
      omega
    · intro hall
      refine ⟨⟨_, htable, _, hfull, ?_⟩, ?_⟩
      · intro line hline
        rcases List.mem_cons.mp hline with rfl | hline
        · exact visibleLength_hline hstyles hwidths hmargin (by simp)
        · rcases List.mem_append.mp hline with hline | hline
          · exact hfine hall line hline
          · rw [List.mem_singleton.mp hline]
            exact visibleLength_hline hstyles hwidths hmargin (by simp)
      · intro row hrow i content hcontent
        have hlt : i < (tableWidths styler margin rows maxWidth).length := by
          have hi := (List.getElem?_eq_some_iff.mp hcontent).1
          have hle : row.length ≤ columnCount styler rows := length_le_columnCount hrow
          rw [tableWidths, hlength]
          omega
        have hx := List.getElem?_eq_getElem hlt
        have hrow' : row.map styler.inline ∈ renderedRows styler rows := List.mem_map_of_mem hrow
        obtain ⟨htext, hroom⟩ := hcells _ hrow' i _ hx
        rw [List.getElem?_map, hcontent] at htext
        obtain ⟨lines, hlines, hcell⟩ := wrap_spec _ hroom
        rw [← htext] at hlines
        refine ⟨_, lines, hx, hlines, ?_⟩
        rw [hcell.kept (hall _ hrow' i _ hx), ← htext]
        rfl

end Tables

/-! ### A link in a narrow table -/

namespace NarrowLink

/-- Control characters have no width, and all others one column. -/
@[reducible] def charWidths : UnicodeWidthChar := ⟨fun c => if c.toNat < 32 then 0 else 1⟩

@[reducible] def stringWidths : UnicodeWidth := ⟨String.length⟩

/-- A text in a style. -/
def styled (code : Char) (text : List Char) : List Char :=
  [escapeChar, '[', code, 'm'] ++ text ++ resetCode

/-- The cells are given as they are rendered. -/
def styler : TableStyler := ⟨id, styled '2', styled '1'⟩

/-- A link whose text is longer than a narrow column. -/
def linkTokens (url : List Char) (plain : escapeChar ∉ '8' :: ';' :: ';' :: url ∧
    bell ∉ '8' :: ';' :: ';' :: url) : List EscapeToken :=
  .command ('8' :: ';' :: ';' :: url) plain ::
    (['a', 'b', 'c', 'd', 'e', 'f', 'g', 'h', 'i'].pmap EscapeToken.char
        (List.forall_iff_forall_mem.mp (by decide)) ++
      [.command ['8', ';', ';'] (by decide)])

theorem styled_spec {code : Char} (hcode : code = '1' ∨ code = '2') {text : List Char}
    (htext : Closed text) :
    Closed (styled code text) ∧ visible (styled code text) = visible text := by
  have hstart :
      Closed [escapeChar, '[', code, 'm'] ∧ visible [escapeChar, '[', code, 'm'] = [] := by
    rcases hcode with rfl | rfl <;> decide
  refine ⟨(hstart.1.append htext).append closed_resetCode, ?_⟩
  rw [styled, visible_append (hstart.1.append htext), visible_append hstart.1, hstart.2,
    visible_resetCode, List.append_nil, List.nil_append]

theorem stylesText_styler : StylesText styler where
  border _ h := styled_spec (.inr rfl) h
  header _ h := styled_spec (.inl rfl) h

theorem terminalWidths : @TerminalWidths charWidths :=
  @TerminalWidths.mk charWidths (fun c => by
    show (if c.toNat < 32 then 0 else 1) ≤ 2
    split <;> decide) (by decide) (List.forall_iff_forall_mem.mp (by decide))

/-- A link to an address of one-byte characters. -/
def asciiTokens : List EscapeToken := linkTokens ['e'] (by decide)

theorem noneSwallows_ascii :
    @NoneSwallows stringWidths charWidths styler [] [[render asciiTokens]] 9
      fun _ => asciiTokens := by
  intro row hrow i x content hcontent hx
  obtain rfl := List.mem_singleton.mp hrow
  match i with
  | 0 =>
    have hwidths : @tableWidths charWidths styler [] stringWidths [[render asciiTokens]] 9 =
        [5] := by
      decide +kernel
    rw [hwidths] at hx
    obtain rfl := Option.some.inj hx
    have hfine : @Swallows charWidths 5 asciiTokens = false := by decide +kernel
    exact hfine
  | i + 1 => exact absurd hcontent (Option.some_ne_none content).symm

theorem tableRight_ascii :
    @TableRight stringWidths charWidths styler [] [[render asciiTokens]] 9 :=
  (@table_right_iff stringWidths charWidths styler [] [[render asciiTokens]] 9
    (fun _ => asciiTokens) stylesText_styler terminalWidths closed_nil (Nat.zero_le _)
    (by
      intro row hrow content hcontent
      rw [List.mem_singleton.mp hrow] at hcontent
      rw [List.mem_singleton.mp hcontent]
      rfl) (by decide +kernel)).mpr noneSwallows_ascii

/-- A link to an address with a character of two bytes. -/
def accentTokens : List EscapeToken := linkTokens ['é'] (by decide)

/-- The line with the link is wider than the borders. -/
theorem not_tableRight :
    ¬ @TableRight stringWidths charWidths styler [] [[render accentTokens]] 9 := by
  intro h
  have hwidths : (@renderTable charWidths styler [] stringWidths [[render accentTokens]] 9).map
      (fun out => out.map (@visibleLength charWidths)) = some [9, 10, 9, 9] := by decide +kernel
  obtain ⟨out, hout, n, -, hlines⟩ :=
    @TableRight.lines stringWidths charWidths styler [] [[render accentTokens]] 9 h
  rw [hout] at hwidths
  have hmap := Option.some.inj hwidths
  have hsame : ∀ x ∈ [9, 10, 9, 9], x = n := by
    intro x hx
    rw [← hmap] at hx
    obtain ⟨line, hline, rfl⟩ := List.mem_map.mp hx
    exact hlines line hline
  have hnine := hsame 9 (by decide)
  have hten := hsame 10 (by decide)
  omega

end NarrowLink

end TableText

end HeliosLite
