import HeliosLite.Markdown.Wrap
import HeliosLite.Theory.Escapes

/-!
# Tables in a terminal

Cells are rendered to text with escape sequences. Columns that are too wide together are shrunk, and
the text of a cell is wrapped to the width of its column by words. A word that is wider than the
column is cut by a second scanner of escape sequences.

## Main definitions

* `columnWidths` — the widths of the columns, shrunk and trimmed
* `splitWordAtWidth`, `wrap` — the lines of a cell
* `renderTable` — the lines of a table
-/

namespace HeliosLite

open Theory UnicodeWidth

/-- The number of columns of a character, where control characters have none. -/
class UnicodeWidthChar where
  charWidth : Char → ℕ

open UnicodeWidthChar

namespace TableText

/-! ### Escape sequences -/

/-- The bytes of a text. -/
def byteLength (s : List Char) : ℕ := (s.map Char.utf8Size).sum

/-- A control sequence is read until one of four characters. -/
def readControl : List Char → List Char × List Char
  | [] => ([], [])
  | c :: cs =>
    if c = 'm' ∨ c = 'K' ∨ c = 'H' ∨ c = 'J' then ([c], cs)
    else (c :: (readControl cs).1, (readControl cs).2)

/-- The character before the last one is an escape character. -/
def closesByChars (esc : List Char) : Bool :=
  2 ≤ byteLength esc && esc.reverse[1]? = some escapeChar

/-- The same, where the position of the character is counted in bytes. -/
def closesByBytes (esc : List Char) : Bool :=
  2 ≤ byteLength esc && esc[byteLength esc - 2]? = some escapeChar

/-- A command is read until a backslash that closes it, or a bell. The text that has been read, the
rest, and whether the command has been closed. -/
def readCommand (closes : List Char → Bool) : List Char → List Char → List Char × List Char × Bool
  | esc, [] => (esc, [], false)
  | esc, c :: cs =>
    if c = '\\' ∧ closes (esc ++ [c]) ∨ c = bell then (esc ++ [c], cs, true)
    else readCommand closes (esc ++ [c]) cs

/-! ### Splitting a word -/

/-- An escape sequence after its first character, and the rest. -/
def splitEscape : List Char → List Char × List Char
  | [] => ([escapeChar], [])
  | '[' :: rest => (escapeChar :: '[' :: (readControl rest).1, (readControl rest).2)
  | ']' :: rest =>
    ((readCommand closesByBytes [escapeChar, ']'] rest).1,
      (readCommand closesByBytes [escapeChar, ']'] rest).2.1)
  | next :: rest => ([escapeChar, next], rest)

structure Split where
  chunk : List Char
  chunkWidth : ℕ
  remaining : List Char
  inChunk : Bool
  deriving DecidableEq, Repr

def Split.addEscape (s : Split) (esc : List Char) : Split :=
  if s.inChunk then { s with chunk := s.chunk ++ esc }
  else { s with remaining := s.remaining ++ esc }

section Width

variable [UnicodeWidthChar]

def textWidth (text : List Char) : ℕ := (text.map charWidth).sum

/-- The width of the characters outside escape sequences. -/
def visibleLength (text : List Char) : ℕ := textWidth (visible text)

/-- The first character that does not fit ends the chunk. -/
def Split.addChar (width : ℕ) (s : Split) (c : Char) : Split :=
  if s.inChunk then
    if s.chunkWidth + charWidth c ≤ width then
      { s with
        chunk := s.chunk ++ [c]
        chunkWidth := s.chunkWidth + charWidth c }
    else { s with remaining := s.remaining ++ [c], inChunk := false }
  else { s with remaining := s.remaining ++ [c] }

def splitLoop (width : ℕ) : ℕ → Split → List Char → Split
  | _, s, [] => s
  | 0, s, _ :: _ => s
  | fuel + 1, s, c :: cs =>
    if c = escapeChar then
      splitLoop width fuel (s.addEscape (splitEscape cs).1) (splitEscape cs).2
    else splitLoop width fuel (s.addChar width c) cs

def splitWordAtWidth (word : List Char) (width : ℕ) : List Char × List Char :=
  let s := splitLoop width word.length ⟨[], 0, [], true⟩ word
  (s.chunk, s.remaining)

/-! ### Wrapping a cell -/

/-- The escape sequence that ends all styles. -/
def resetCode : List Char := [escapeChar, '[', '0', 'm']

structure CellWrap where
  lines : List (List Char)
  line : List Char
  lineWidth : ℕ
  word : List Char
  wordWidth : ℕ
  inOsc : Bool
  activeStyle : Option (List Char)
  deriving DecidableEq, Repr

namespace CellWrap

def start : CellWrap := ⟨[], [], 0, [], 0, false, none⟩

/-- The line ends, and the next one starts with the style that is active. -/
def breakLine (s : CellWrap) : CellWrap :=
  { s with
    lines := s.lines ++ [s.line ++ resetCode]
    line := s.activeStyle.getD []
    lineWidth := 0 }

/-- An escape sequence becomes part of the word. -/
def escape (s : CellWrap) : List Char → CellWrap × List Char
  | [] => (s, [])
  | '[' :: rest =>
    let esc := escapeChar :: '[' :: (readControl rest).1
    ({ s with
        word := s.word ++ esc
        activeStyle :=
          if esc.getLast? = some 'm' then if esc = resetCode then none else some esc
          else s.activeStyle },
      (readControl rest).2)
  | ']' :: rest =>
    let command := readCommand closesByChars [escapeChar, ']'] rest
    ({ s with word := s.word ++ command.1, inOsc := !command.2.2 }, command.2.1)
  | next :: rest =>
    ({ s with
        word := s.word ++ [escapeChar, next]
        inOsc := s.inOsc && next ≠ '\\' },
      rest)

/-- Whitespace ends the word, and is left out where it does not fit. -/
def space (width : ℕ) (s : CellWrap) (c : Char) : CellWrap :=
  let s :=
    if 0 < s.lineWidth ∧ width < s.lineWidth + s.wordWidth + charWidth c then s.breakLine else s
  let s := { s with
    line := s.line ++ s.word
    lineWidth := s.lineWidth + s.wordWidth
    word := []
    wordWidth := 0 }
  if s.lineWidth + charWidth c ≤ width then
    { s with
      line := s.line ++ [c]
      lineWidth := s.lineWidth + charWidth c }
  else s

/-- The word is cut while it is wider than the line, at most so often. -/
def breakWord (width : ℕ) : ℕ → CellWrap → Option CellWrap
  | 0, s => if visibleLength s.word ≤ width then some s else none
  | fuel + 1, s =>
    if visibleLength s.word ≤ width then some s
    else
      let chunk := (splitWordAtWidth s.word width).1
      let remaining := (splitWordAtWidth s.word width).2
      if chunk = [] then breakWord width fuel { s with word := remaining }
      else
        breakWord width fuel
          { CellWrap.breakLine { s with line := s.line ++ chunk } with word := remaining }

/-- Another character becomes part of the word. -/
def char (width : ℕ) (s : CellWrap) (c : Char) : Option CellWrap :=
  let s := { s with
    word := s.word ++ [c]
    wordWidth := s.wordWidth + charWidth c }
  if s.wordWidth ≤ width then some s
  else
    let s := if 0 < s.lineWidth then s.breakLine else s
    (breakWord width s.word.length s).map fun s => { s with wordWidth := visibleLength s.word }

/-- The last word is put on a line. -/
def finish (width : ℕ) (s : CellWrap) : List (List Char) :=
  let s :=
    if s.word = [] then s
    else if width < s.lineWidth + s.wordWidth ∧ 0 < s.lineWidth then
      { s.breakLine with
        line := s.breakLine.line ++ s.word
        lineWidth := s.wordWidth }
    else
      { s with
        line := s.line ++ s.word
        lineWidth := s.lineWidth + s.wordWidth }
  let lines := if 0 < s.lineWidth then s.lines ++ [s.line] else s.lines
  if lines = [] then [[]] else lines

end CellWrap

def wrapLoop (width : ℕ) : ℕ → CellWrap → List Char → Option CellWrap
  | _, s, [] => some s
  | 0, _, _ :: _ => none
  | fuel + 1, s, c :: cs =>
    if c = escapeChar then wrapLoop width fuel (s.escape cs).1 (s.escape cs).2
    else if isWhitespace c then wrapLoop width fuel (s.space width c) cs
    else (s.char width c).bind fun s => wrapLoop width fuel s cs

/-- The lines of a cell, unless the wrapping does not end. -/
def wrap (text : List Char) (width : ℕ) : Option (List (List Char)) :=
  if width = 0 ∨ visibleLength text ≤ width then some [text]
  else (wrapLoop width text.length .start text).map (CellWrap.finish width)

/-! ### The widths of the columns -/

/-- The columns are as wide as the cells of one more row. -/
def widen : List ℕ → List (List Char) → List ℕ
  | [], _ => []
  | w, [] => w
  | wi :: w, cell :: row => max wi (visibleLength cell) :: widen w row

def minColWidth : ℕ := 5

/-- The last of the widest columns gets narrower. -/
def narrowLast (widest : ℕ) : List ℕ → List ℕ
  | [] => []
  | x :: w => if x = widest ∧ widest ∉ w then (x - 1) :: w else x :: narrowLast widest w

/-- So many columns are taken from the widest column that is wider than the least width. -/
def trim : ℕ → List ℕ → List ℕ
  | 0, w => w
  | excess + 1, w =>
    match (w.filter (minColWidth < ·)).max? with
    | none => w
    | some widest => trim excess (narrowLast widest w)

def columnWidths (rows : List (List (List Char))) (n overhead maxWidth : ℕ) : List ℕ :=
  let w := rows.foldl widen (List.replicate n 0)
  let total := w.sum
  if maxWidth < overhead + total ∧ overhead < maxWidth then
    let avail := maxWidth - overhead
    let w := w.map fun x => min (max (x * avail / total) minColWidth) x
    trim (w.sum - avail) w
  else w

/-! ### The lines of a table -/

/-- How the content of cells, borders and headers are rendered. -/
structure TableStyler where
  inline : List Char → List Char
  border : List Char → List Char
  header : List Char → List Char

variable (styler : TableStyler) (margin : List Char)

def hline (w : List ℕ) (left middle right : Char) : List Char :=
  margin ++ styler.border [left] ++
    List.intercalate (styler.border [middle])
      (w.map fun x => styler.border (List.replicate (x + 2) '─')) ++
    styler.border [right]

/-- A line of a cell between blanks. -/
def cellText (isHeader : Bool) (width : ℕ) (c : List Char) : List Char :=
  ' ' :: ((if isHeader ∧ c ≠ [] then styler.header c else c) ++
    List.replicate (width - visibleLength c) ' ' ++ [' '])

def rowLine (isHeader : Bool) (w : List ℕ) (wrapped : List (List (List Char))) (li : ℕ) :
    List Char :=
  margin ++ styler.border ['│'] ++
    List.intercalate (styler.border ['│'])
      (List.zipWith (fun width lines => cellText styler isHeader width (lines[li]?.getD [])) w
        wrapped) ++
    styler.border ['│']

/-- The cells of a row, and nothing in the other columns. -/
def wrapRow : List ℕ → List (List Char) → Option (List (List (List Char)))
  | [], _ => some []
  | width :: w, row =>
    (wrap (row.head?.getD []) width).bind fun lines => (wrapRow w row.tail).map (lines :: ·)

def rowLines (first : Bool) (w : List ℕ) (wrapped : List (List (List Char))) : List (List Char) :=
  (List.range ((wrapped.map List.length).max?.getD 1)).map fun li =>
    rowLine styler margin (first && li = 0) w wrapped li

/-- The lines of the rows, with a line between rows. -/
def bodyLines (w : List ℕ) : Bool → List (List (List Char)) → Option (List (List Char))
  | _, [] => some []
  | first, row :: rows =>
    (wrapRow w row).bind fun wrapped => (bodyLines w false rows).map fun rest =>
      rowLines styler margin first w wrapped ++
        ((if rows = [] then [] else [hline styler margin w '├' '┼' '┤']) ++ rest)

section Table

variable [UnicodeWidth] (rows : List (List (List Char)))

/-- The columns that are not for content. -/
def overhead (n : ℕ) : ℕ := width (String.ofList margin) + 1 + 3 * n

def renderedRows : List (List (List Char)) := rows.map fun row => row.map styler.inline

def columnCount : ℕ := ((renderedRows styler rows).map List.length).max?.getD 0

/-- The widths of the columns of a table. -/
def tableWidths (maxWidth : ℕ) : List ℕ :=
  columnWidths (renderedRows styler rows) (columnCount styler rows)
    (overhead margin (columnCount styler rows)) maxWidth

def renderTable (maxWidth : ℕ) : Option (List (List Char)) :=
  if renderedRows styler rows = [] ∨ columnCount styler rows = 0 then some []
  else
    let w := tableWidths styler margin rows maxWidth
    (bodyLines styler margin w true (renderedRows styler rows)).map fun body =>
      hline styler margin w '┌' '┬' '┐' :: (body ++ [hline styler margin w '└' '┴' '┘'])

end Table

end Width

end TableText

end HeliosLite
