import HeliosLite.Patch.Text

/-!
# The ends of an output

Of an output with more lines than are wanted the first and the last ones are shown, each cut to
a width, with the numbers of the lines shown.

## Main definitions

* `clipByLines`, `tagOutput`, `processStream`, `truncateShellOutput` — the output that is shown
* `ShowsAll`, `ShowsEnds` — the lines of a stream that are shown, with their numbers
* `Accounts` — the lines are counted and shown as they should

## Main results

* `take_clipLine` — a line is cut to the width
* `accounts_truncateShellOutput` — both streams are accounted for
-/

namespace HeliosLite

namespace Truncation

open Patch

/-- A line, cut to a width with a note on what was cut off. -/
def clipLine (maxLineLength : ℕ) (line : Text) : Text :=
  if maxLineLength < line.length then
    line.take maxLineLength ++ "...[".toList ++
      (toString (line.length - maxLineLength)).toList ++ " more chars truncated]".toList
  else line

/-- What is shown of the lines, how many lines stand before and among those hidden, and how many
lines were cut. -/
def clipByLines (content : Text) (prefixLines suffixLines maxLineLength : ℕ) :
    List Text × Option (ℕ × ℕ) × ℕ :=
  let truncatedLinesCount :=
    (sourceLines content).countP fun line => maxLineLength < line.length
  let lines := (sourceLines content).map (clipLine maxLineLength)
  let totalLines := lines.length
  -- The sum saturates in the source, far above any number of lines.
  if totalLines ≤ prefixLines + suffixLines then (lines, none, truncatedLinesCount)
  else
    (lines.take prefixLines ++ lines.drop (totalLines - suffixLines),
      some (prefixLines, totalLines - prefixLines - suffixLines), truncatedLinesCount)

structure FormattedOutput where
  head : Text
  tail : Option Text
  suffixStartLine : Option ℕ
  suffixEndLine : Option ℕ
  prefixEndLine : ℕ
  truncatedLinesCount : ℕ
deriving DecidableEq

/-- Lines with an ending each. -/
def ended (lines : List Text) : Text := lines.flatMap (· ++ ['\n'])

/-- Lines with an ending between them. -/
def separated : List Text → Text
  | [] => []
  | [line] => line
  | line :: next :: lines => line ++ '\n' :: separated (next :: lines)

attribute [grind =] separated

def tagOutput (lines : List Text) (truncationInfo : Option (ℕ × ℕ))
    (totalLines truncatedLinesCount : ℕ) : FormattedOutput :=
  match truncationInfo with
  | some (prefixCount, hiddenCount) =>
    let tail := ended (lines.drop prefixCount)
    { head := ended (lines.take prefixCount)
      tail := if tail.isEmpty then none else some tail
      suffixStartLine := some (prefixCount + hiddenCount + 1)
      suffixEndLine := some totalLines
      prefixEndLine := prefixCount
      truncatedLinesCount := truncatedLinesCount }
  | none =>
    { head := separated lines
      tail := none
      suffixStartLine := none
      suffixEndLine := none
      prefixEndLine := totalLines
      truncatedLinesCount := truncatedLinesCount }

structure ProcessedStream where
  output : FormattedOutput
  totalLines : ℕ
deriving DecidableEq

def processStream (content : Text) (prefixLines suffixLines maxLineLength : ℕ) :
    ProcessedStream :=
  let (lines, truncationInfo, truncatedLinesCount) :=
    clipByLines content prefixLines suffixLines maxLineLength
  let totalLines := (sourceLines content).length
  { output := tagOutput lines truncationInfo totalLines truncatedLinesCount
    totalLines := totalLines }

/-- A stream of a command, as it is shown. -/
structure Stream where
  head : Text
  tail : Option Text
  totalLines : ℕ
  headEndLine : ℕ
  tailStartLine : Option ℕ
  tailEndLine : Option ℕ
  truncatedLinesCount : ℕ
deriving DecidableEq

def ProcessedStream.stream (result : ProcessedStream) : Stream where
  head := result.output.head
  tail := result.output.tail
  totalLines := result.totalLines
  headEndLine := result.output.prefixEndLine
  tailStartLine := result.output.suffixStartLine
  tailEndLine := result.output.suffixEndLine
  truncatedLinesCount := result.output.truncatedLinesCount

structure TruncatedShellOutput where
  stdout : Stream
  stderr : Stream
deriving DecidableEq

def truncateShellOutput (stdout stderr : Text) (prefixLines suffixLines maxLineLength : ℕ) :
    TruncatedShellOutput where
  stdout := (processStream stdout prefixLines suffixLines maxLineLength).stream
  stderr := (processStream stderr prefixLines suffixLines maxLineLength).stream

/-! ### What is shown -/

variable {content : Text} {lines : List Text} {prefixLines suffixLines maxLineLength : ℕ}

/-- Up to the width a line is shown as it is. -/
theorem take_clipLine (maxLineLength : ℕ) (line : Text) :
    (clipLine maxLineLength line).take maxLineLength = line.take maxLineLength := by
  unfold clipLine
  split
  · rename_i hlong
    have hlength : (line.take maxLineLength).length = maxLineLength := by
      rw [List.length_take]
      omega
    rw [List.append_assoc, List.append_assoc, List.take_left' hlength]
  · rfl

/-- All lines are shown, with an ending between them. -/
structure ShowsAll (lines : List Text) (stream : Stream) : Prop where
  head : stream.head = separated lines
  headEndLine : stream.headEndLine = lines.length
  tail : stream.tail = none
  tailStartLine : stream.tailStartLine = none
  tailEndLine : stream.tailEndLine = none

/-- The first lines and the last ones are shown with their numbers, which count from one, and at
least one line between them is hidden. -/
structure ShowsEnds (lines : List Text) (prefixLines hiddenLines suffixLines : ℕ)
    (stream : Stream) : Prop where
  total : prefixLines + hiddenLines + suffixLines = lines.length
  hidden : 0 < hiddenLines
  head : stream.head = ended (lines.take prefixLines)
  headEndLine : stream.headEndLine = prefixLines
  tail : stream.tail =
    if suffixLines = 0 then none else some (ended (lines.drop (prefixLines + hiddenLines)))
  tailStartLine : stream.tailStartLine = some (prefixLines + hiddenLines + 1)
  tailEndLine : stream.tailEndLine = some lines.length

/-- The lines of a stream are counted, and all of them or the first and the last ones are shown,
each cut to the width. -/
def Accounts (content : Text) (prefixLines suffixLines maxLineLength : ℕ) (stream : Stream) :
    Prop :=
  stream.totalLines = (sourceLines content).length ∧
    (stream.totalLines ≤ prefixLines + suffixLines →
      ShowsAll ((sourceLines content).map (clipLine maxLineLength)) stream) ∧
    (prefixLines + suffixLines < stream.totalLines →
      ShowsEnds ((sourceLines content).map (clipLine maxLineLength)) prefixLines
        (stream.totalLines - prefixLines - suffixLines) suffixLines stream)

theorem ended_eq_nil_iff : ended lines = [] ↔ lines = [] := by
  cases lines with
  | nil => simp [ended]
  | cons line lines => simp [ended]

theorem processStream_of_le
    (h : (sourceLines content).length ≤ prefixLines + suffixLines) :
    processStream content prefixLines suffixLines maxLineLength =
      { output := tagOutput ((sourceLines content).map (clipLine maxLineLength)) none
          (sourceLines content).length
          ((sourceLines content).countP fun line => maxLineLength < line.length)
        totalLines := (sourceLines content).length } := by
  unfold processStream clipByLines
  simp only [List.length_map, if_pos h]

theorem processStream_of_lt
    (h : prefixLines + suffixLines < (sourceLines content).length) :
    processStream content prefixLines suffixLines maxLineLength =
      { output := tagOutput
          (((sourceLines content).map (clipLine maxLineLength)).take prefixLines ++
            ((sourceLines content).map (clipLine maxLineLength)).drop
              ((sourceLines content).length - suffixLines))
          (some (prefixLines, (sourceLines content).length - prefixLines - suffixLines))
          (sourceLines content).length
          ((sourceLines content).countP fun line => maxLineLength < line.length)
        totalLines := (sourceLines content).length } := by
  unfold processStream clipByLines
  simp only [List.length_map, if_neg (Nat.not_le.mpr h)]

/-- What is shown of the first and the last lines. -/
theorem showsEnds_tagOutput (h : prefixLines + suffixLines < lines.length) (count : ℕ) :
    ShowsEnds lines prefixLines (lines.length - prefixLines - suffixLines) suffixLines
      (ProcessedStream.stream
        { output := tagOutput
            (lines.take prefixLines ++ lines.drop (lines.length - suffixLines))
            (some (prefixLines, lines.length - prefixLines - suffixLines)) lines.length count
          totalLines := lines.length }) := by
  have hlength : (lines.take prefixLines).length = prefixLines := by
    rw [List.length_take]
    omega
  have hstart : prefixLines + (lines.length - prefixLines - suffixLines) =
      lines.length - suffixLines := by omega
  refine ⟨by omega, by omega, ?_, rfl, ?_, rfl, rfl⟩
  · change ended ((lines.take prefixLines ++ _).take prefixLines) = _
    rw [List.take_left' hlength]
  · change (if (ended ((lines.take prefixLines ++ _).drop prefixLines)).isEmpty then none
      else some (ended ((lines.take prefixLines ++ _).drop prefixLines))) = _
    rw [List.drop_left' hlength, hstart]
    refine if_congr ?_ rfl rfl
    rw [List.isEmpty_iff, ended_eq_nil_iff, List.drop_eq_nil_iff]
    omega

theorem accounts_processStream (content : Text) (prefixLines suffixLines maxLineLength : ℕ) :
    Accounts content prefixLines suffixLines maxLineLength
      (processStream content prefixLines suffixLines maxLineLength).stream := by
  have hlength : ((sourceLines content).map (clipLine maxLineLength)).length =
      (sourceLines content).length := List.length_map _
  rcases Nat.lt_or_ge (prefixLines + suffixLines) (sourceLines content).length with hlt | hle
  · rw [processStream_of_lt hlt]
    refine ⟨rfl, fun hle => absurd hlt (Nat.not_lt.mpr hle), fun _ => ?_⟩
    rw [← hlength] at hlt ⊢
    exact showsEnds_tagOutput hlt _
  · rw [processStream_of_le hle]
    refine ⟨rfl, fun _ => ⟨rfl, hlength.symm, rfl, rfl, rfl⟩, fun hlt => ?_⟩
    exact absurd hlt (Nat.not_lt.mpr hle)

end Truncation

end HeliosLite
