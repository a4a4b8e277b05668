import HeliosLite.Orchestration.ToolCalls
import HeliosLite.Theory.Sgr

/-!
# Wrapping styled text

A text is cut into words and the whitespace before them, and the words are put on lines while they
fit. The whitespace at which a line ends is left out. A word that is wider than a line is cut. Each
line starts with the codes of the style in which the one before it ended.

## Main definitions

* `WrapAtom`, `StyledText` — graphemes and style codes
* `wrapSegments`, `appendWrappedWord`, `wrapTextPreservingSpaces` — the wrapping
* `shown`, `styleAfter` — how a terminal shows a text, and the style after it
* `WrappedRight` — what the lines are to be
-/

namespace HeliosLite

open Theory

/-! ### Styled text -/

/-- A style code or a grapheme. -/
inductive WrapAtom where
  | escape (params : List ℕ)
  | grapheme (g : String)
  deriving DecidableEq, Repr

abbrev StyledText := List WrapAtom

/-- The number of columns of a grapheme. -/
class UnicodeWidth where
  width : String → ℕ

open UnicodeWidth

def extractAnsiCodes (text : StyledText) : List (List ℕ) :=
  text.filterMap fun
    | .escape params => some params
    | .grapheme _ => none

def graphemes (text : StyledText) : List String :=
  text.filterMap fun
    | .escape _ => none
    | .grapheme g => some g

/-- A text is as wide as its graphemes. -/
def visibleLength [UnicodeWidth] (text : StyledText) : ℕ := ((graphemes text).map width).sum

def isBlank (g : String) : Bool := g.toList.all isWhitespace

/-! ### Words and the whitespace before them -/

structure WrapSegment where
  separator : StyledText
  word : StyledText
  deriving DecidableEq, Repr

/-- The segments, and what has been read since. -/
structure WrapSegments where
  segments : List WrapSegment
  separator : StyledText
  current : StyledText
  currentIsWhitespace : Option Bool
  deriving DecidableEq, Repr

namespace WrapSegments

def start : WrapSegments := ⟨[], [], [], none⟩

/-- Where whitespace ends it is a separator, and where a word ends it is a segment. -/
def turn (s : WrapSegments) (isWhitespace : Bool) : WrapSegments :=
  match s.currentIsWhitespace with
  | none => { s with currentIsWhitespace := some isWhitespace }
  | some kind =>
    if kind = isWhitespace then s
    else if kind then
      { s with
        separator := s.separator ++ s.current
        current := []
        currentIsWhitespace := some isWhitespace }
    else
      { segments := s.segments ++ [⟨s.separator, s.current⟩]
        separator := []
        current := []
        currentIsWhitespace := some isWhitespace }

def push (s : WrapSegments) : WrapAtom → WrapSegments
  | .escape params => { s with current := s.current ++ [.escape params] }
  | .grapheme g =>
    let s := s.turn (isBlank g)
    { s with current := s.current ++ [.grapheme g] }

/-- The last word is a segment, too. -/
def finish (s : WrapSegments) : WrapSegments :=
  if s.currentIsWhitespace = some false ∧ s.current ≠ [] then
    { s with
      segments := s.segments ++ [⟨s.separator, s.current⟩]
      separator := []
      current := [] }
  else s

end WrapSegments

def parseSegments (text : StyledText) : WrapSegments :=
  (text.foldl WrapSegments.push .start).finish

def wrapSegments (text : StyledText) : List WrapSegment := (parseSegments text).segments

/-! ### Lines -/

def collapseAnsiCodes (codeList : List (List ℕ)) : List (List ℕ) :=
  (codeList.foldl Style.feed .plain).codes

def applyStyleTransition (currentStyle : List (List ℕ)) (text : StyledText) : List (List ℕ) :=
  collapseAnsiCodes (currentStyle ++ extractAnsiCodes text)

structure WrapLayout where
  nextWidth : ℕ
  firstPrefix : String
  nextPrefix : String
  deriving DecidableEq, Repr

/-- A line, and what stands before it. -/
structure WrappedLine where
  lead : String
  text : StyledText
  deriving DecidableEq, Repr

structure Wrapping where
  lines : List WrappedLine
  currentLine : StyledText
  currentStyle : List (List ℕ)
  currentWidth : ℕ
  deriving DecidableEq, Repr

/-- A line without visible text is left out. -/
def pushWrappedLine (layout : WrapLayout) (lines : List WrappedLine) (currentLine : StyledText) :
    List WrappedLine :=
  if (graphemes currentLine).all isBlank then lines
  else lines ++ [⟨if lines = [] then layout.firstPrefix else layout.nextPrefix, currentLine⟩]

namespace Wrapping

/-- The text is put on the line. -/
def extend (s : Wrapping) (text : StyledText) : Wrapping :=
  { s with
    currentLine := s.currentLine ++ text
    currentStyle := applyStyleTransition s.currentStyle text }

/-- The line ends, and the next one starts with the codes of the style. -/
def breakLine (layout : WrapLayout) (s : Wrapping) : Wrapping where
  lines := pushWrappedLine layout s.lines s.currentLine
  currentLine := s.currentStyle.map .escape
  currentStyle := s.currentStyle
  currentWidth := layout.nextWidth

end Wrapping

section Width

variable [UnicodeWidth]

/-- The atoms that fit, but not less than one grapheme. -/
def fitting (maxWidth : ℕ) : ℕ → Bool → StyledText → StyledText
  | _, _, [] => []
  | taken, consumedVisible, .escape params :: text =>
    .escape params :: fitting maxWidth taken consumedVisible text
  | taken, consumedVisible, .grapheme g :: text =>
    if consumedVisible ∧ maxWidth < taken + width g then []
    else if ¬ consumedVisible ∧ maxWidth < width g then [.grapheme g]
    else .grapheme g :: fitting maxWidth (taken + width g) true text

def takePrefixFitting (text : StyledText) (maxWidth : ℕ) : Option StyledText :=
  if text = [] then none
  else if fitting maxWidth 0 false text = [] then none
  else some (fitting maxWidth 0 false text)

/-- A word is put on the lines, at most so many pieces of it. -/
def appendWrappedWord (layout : WrapLayout) : ℕ → Wrapping → StyledText → Wrapping
  | 0, s, _ => s
  | fuel + 1, s, remainder =>
    if remainder = [] then s
    else
      let full := s.currentWidth - visibleLength s.currentLine = 0
      let available :=
        if full then max layout.nextWidth 1 else s.currentWidth - visibleLength s.currentLine
      let s := if full then s.breakLine layout else s
      if visibleLength remainder ≤ available then s.extend remainder
      else
        let piece := ((takePrefixFitting remainder available).or
          (takePrefixFitting remainder 1)).getD remainder
        let s := s.extend piece
        if remainder.drop piece.length = [] then s
        else appendWrappedWord layout fuel (s.breakLine layout) (remainder.drop piece.length)

def wrapSegment (layout : WrapLayout) (s : Wrapping) (segment : WrapSegment) : Wrapping :=
  let separator := if s.currentLine = [] then [] else segment.separator
  let combinedWidth := visibleLength separator + visibleLength segment.word
  if s.currentLine ≠ [] ∧ visibleLength s.currentLine + combinedWidth ≤ s.currentWidth then
    (s.extend separator).extend segment.word
  else if s.currentLine = [] ∧ visibleLength segment.word ≤ s.currentWidth then
    s.extend segment.word
  else
    let s := if s.currentLine = [] then s else s.breakLine layout
    appendWrappedWord layout segment.word.length s segment.word

def wrapTextPreservingSpaces (text : StyledText) (firstWidth nextWidth : ℕ)
    (firstPrefix nextPrefix : String) : List WrappedLine :=
  if firstWidth = 0 ∧ nextWidth = 0 then []
  else if wrapSegments text = [] then []
  else
    let layout : WrapLayout := ⟨nextWidth, firstPrefix, nextPrefix⟩
    let s := (wrapSegments text).foldl (wrapSegment layout) ⟨[], [], [], firstWidth⟩
    pushWrappedLine layout s.lines s.currentLine

end Width

/-! ### What a terminal shows -/

/-- The style after a text. -/
def styleAfter (s : Style) (text : StyledText) : Style :=
  (extractAnsiCodes text).foldl Style.feed s

/-- The graphemes that are not whitespace, and their styles. -/
def shown (s : Style) : StyledText → List (String × Style)
  | [] => []
  | .escape params :: text => shown (s.feed params) text
  | .grapheme g :: text => if isBlank g then shown s text else (g, s) :: shown s text

/-- The lines of a text show it as it is shown without them, in the styles in which they are
printed one after the other, and keep to their widths. -/
structure WrappedRight [UnicodeWidth] (firstWidth nextWidth : ℕ) (text : StyledText)
    (lines : List StyledText) : Prop where
  shown : shown .plain lines.flatten = HeliosLite.shown .plain text
  ends : styleAfter .plain lines.flatten = styleAfter .plain text
  widths : ∀ i line, lines[i]? = some line →
    visibleLength line ≤ (if i = 0 then firstWidth else nextWidth) ∨
      ∃ g, graphemes line = [g] ∧ (if i = 0 then firstWidth else nextWidth) < width g

end HeliosLite
