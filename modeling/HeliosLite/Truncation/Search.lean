import Mathlib.Algebra.Ring.Nat
import Mathlib.Data.List.Basic
import Mathlib.Data.List.TakeDrop
import Mathlib.Order.Lattice
import Mathlib.Order.Nat

/-!
# The window of a search

The lines of a search are cut to a window that starts at an offset and has a number of lines,
and then to a number of bytes. What is left is returned with the range that it is said to be.

## Main definitions

* `formatMatch` — the line of a match
* `truncateByLines`, `truncateByBytes`, `truncateSearchOutput` — the two cuts
* `IsWindow` — the lines returned are those of the range reported

## Main results

* `truncateSearchOutput_isWindow_iff` — when they are
-/

namespace HeliosLite

namespace Truncation

inductive MatchResult where
  | error (err : String)
  | found (lineNumber : Option ℕ) (line : String)
  | count (count : ℕ)
  | fileMatch
  | contextMatch (lineNumber : Option ℕ) (line : String) (beforeContext afterContext : List String)
deriving DecidableEq

structure Match where
  path : String
  result : Option MatchResult
deriving DecidableEq

/-- A line with where it stands. -/
def formatLine (path : String) (lineNumber : Option ℕ) (line : String) : String :=
  match lineNumber with
  | some num => path ++ ":" ++ toString num ++ ":" ++ line
  | none => path ++ ":" ++ line

/-- The text of a match, with its path as it is shown relative to the directory searched. -/
def formatMatch (formatDisplayPath : String → String) (matched : Match) : String :=
  let path := formatDisplayPath matched.path
  match matched.result with
  | some (.error err) => "Error reading " ++ matched.path ++ ": " ++ err
  | some (.found lineNumber line) => formatLine path lineNumber line
  | some (.count count) => path ++ ":" ++ toString count
  | some .fileMatch => path
  | some (.contextMatch lineNumber line beforeContext afterContext) =>
    String.join (beforeContext.map fun context => path ++ "-" ++ context ++ "\n") ++
      formatLine path lineNumber line ++
      String.join (afterContext.map fun context => "\n" ++ path ++ "-" ++ context)
  | none => path

inductive TruncationMode where
  | line
  | byte
  | full
deriving DecidableEq

/-- Lines of a search, with the range of lines that they are of all lines. -/
structure TruncatedSearchOutput where
  data : List String
  start : ℕ
  total : ℕ
  «end» : ℕ
  strategy : TruncationMode
deriving DecidableEq

namespace TruncatedSearchOutput

def ofLines (value : List String) : TruncatedSearchOutput where
  data := value
  start := 0
  total := value.length
  «end» := value.length
  strategy := .full

/-- The lines from an offset on, if there are more than are wanted. -/
def truncateByLines (self : TruncatedSearchOutput) (start maxLines : ℕ) :
    TruncatedSearchOutput :=
  let totalLines := self.data.length
  let data := if maxLines < totalLines then (self.data.drop start).take maxLines else self.data
  -- The sum saturates in the source, far above any number of lines.
  if totalLines ≠ data.length then
    { self with data := data, start := start, «end» := start + maxLines, strategy := .line }
  else { self with data := data }

/-- The items before the one with which the bytes reach the limit. -/
def withinBytes (maxBytes : ℕ) : ℕ → List String → List String
  | _, [] => []
  | totalBytes, item :: items =>
    if maxBytes ≤ totalBytes + item.utf8ByteSize then []
    else item :: withinBytes maxBytes (totalBytes + item.utf8ByteSize) items

def truncateByBytes (self : TruncatedSearchOutput) (maxBytes : ℕ) : TruncatedSearchOutput :=
  let totalLines := self.data.length
  let data := withinBytes maxBytes 0 self.data
  if data.length ≠ totalLines then
    { self with data := data, «end» := self.start + data.length, strategy := .byte }
  else { self with data := data }

attribute [grind =] withinBytes

end TruncatedSearchOutput

open TruncatedSearchOutput

def truncateSearchOutput (formatDisplayPath : String → String) (output : List Match)
    (startLine maxLines maxBytes : ℕ) : TruncatedSearchOutput :=
  ((ofLines (output.map (formatMatch formatDisplayPath))).truncateByLines startLine
    maxLines).truncateByBytes maxBytes

/-- The lines returned are those of the range reported, and all lines were counted. -/
structure IsWindow (lines : List String) (out : TruncatedSearchOutput) : Prop where
  start_le : out.start ≤ out.end
  end_le : out.end ≤ out.total
  total : out.total = lines.length
  data : out.data = (lines.take out.end).drop out.start

/-! ### The cut to a number of bytes -/

/-- The bytes of some lines. -/
def byteCount (lines : List String) : ℕ := (lines.map (·.utf8ByteSize)).sum

variable {lines : List String} {maxLines maxBytes : ℕ}

theorem withinBytes_prefix (maxBytes totalBytes : ℕ) (lines : List String) :
    withinBytes maxBytes totalBytes lines <+: lines := by
  induction lines generalizing totalBytes with
  | nil => exact List.prefix_rfl
  | cons item items ih =>
    rw [withinBytes]
    split
    · exact List.nil_prefix
    · exact (List.prefix_cons_inj item).mpr (ih _)

/-- Nothing is cut off if the bytes stay below the limit. -/
theorem length_withinBytes_iff (maxBytes totalBytes : ℕ) (lines : List String) :
    (withinBytes maxBytes totalBytes lines).length = lines.length ↔
      lines = [] ∨ totalBytes + byteCount lines < maxBytes := by
  induction lines generalizing totalBytes with
  | nil => simp [withinBytes]
  | cons item items ih =>
    have hcount : byteCount (item :: items) = item.utf8ByteSize + byteCount items := by
      simp [byteCount]
    rw [withinBytes, hcount]
    split
    · rename_i hreached
      simp
      omega
    · rename_i hbelow
      simp only [List.length_cons, Nat.add_right_cancel_iff, ih, reduceCtorEq, false_or]
      constructor
      · rintro (rfl | hrest)
        · simp [byteCount]
          omega
        · omega
      · intro hall
        right
        omega

/-- What is left of the data after the second cut. -/
theorem truncateByBytes_data (self : TruncatedSearchOutput) (maxBytes : ℕ) :
    (self.truncateByBytes maxBytes).data = withinBytes maxBytes 0 self.data := by
  unfold truncateByBytes
  dsimp only
  split <;> rfl

/-- The second cut moves the end of the range only, and only if it takes lines off. -/
theorem truncateByBytes_end (self : TruncatedSearchOutput) (maxBytes : ℕ) :
    (self.truncateByBytes maxBytes).end =
      if self.data = [] ∨ byteCount self.data < maxBytes then self.end
      else self.start + (withinBytes maxBytes 0 self.data).length := by
  have hlength := length_withinBytes_iff maxBytes 0 self.data
  rw [Nat.zero_add] at hlength
  unfold truncateByBytes
  by_cases hfits : self.data = [] ∨ byteCount self.data < maxBytes
  · simp [hlength.mpr hfits, hfits]
  · simp [hlength, hfits]

@[simp] theorem truncateByBytes_start (self : TruncatedSearchOutput) (maxBytes : ℕ) :
    (self.truncateByBytes maxBytes).start = self.start := by
  unfold truncateByBytes
  dsimp only
  split <;> rfl

@[simp] theorem truncateByBytes_total (self : TruncatedSearchOutput) (maxBytes : ℕ) :
    (self.truncateByBytes maxBytes).total = self.total := by
  unfold truncateByBytes
  dsimp only
  split <;> rfl

/-- A range whose lines were cut once more is the window of fewer lines. -/
theorem isWindow_truncateByBytes_iff {self : TruncatedSearchOutput} (hle : self.start ≤ self.end)
    (htotal : self.total = lines.length)
    (hdata : self.data = (lines.take self.end).drop self.start) :
    IsWindow lines (self.truncateByBytes maxBytes) ↔
      self.end ≤ lines.length ∨ self.data ≠ [] ∧ maxBytes ≤ byteCount self.data := by
  have hprefix := withinBytes_prefix maxBytes 0 self.data
  have hlength := length_withinBytes_iff maxBytes 0 self.data
  rw [Nat.zero_add] at hlength
  by_cases hfits : self.data = [] ∨ byteCount self.data < maxBytes
  · have hall : withinBytes maxBytes 0 self.data = self.data :=
      hprefix.eq_of_length (hlength.mpr hfits)
    have hshort : ¬ (self.data ≠ [] ∧ maxBytes ≤ byteCount self.data) := by
      rintro ⟨hsome, hreached⟩
      exact hfits.elim hsome (not_lt.mpr hreached)
    rw [or_iff_left hshort]
    constructor
    · intro h
      have hend := h.end_le
      rwa [truncateByBytes_end, if_pos hfits, truncateByBytes_total, htotal] at hend
    · intro hend
      refine ⟨?_, ?_, ?_, ?_⟩
      · rwa [truncateByBytes_start, truncateByBytes_end, if_pos hfits]
      · rwa [truncateByBytes_end, if_pos hfits, truncateByBytes_total, htotal]
      · rw [truncateByBytes_total, htotal]
      · rw [truncateByBytes_data, truncateByBytes_start, truncateByBytes_end, if_pos hfits, hall,
          hdata]
  · have hcut : self.data ≠ [] ∧ maxBytes ≤ byteCount self.data := by
      simpa only [not_or, not_lt] using hfits
    refine iff_of_true ?_ (Or.inr hcut)
    -- Fewer lines are left than the range has, and the end is counted from its start.
    have hlt : (withinBytes maxBytes 0 self.data).length < self.data.length :=
      lt_of_le_of_ne hprefix.length_le fun heq => hfits (hlength.mp heq)
    have hdataLength : self.data.length = min self.end lines.length - self.start := by
      rw [hdata, List.length_drop, List.length_take]
    have htake : withinBytes maxBytes 0 self.data =
        (lines.take (self.start + (withinBytes maxBytes 0 self.data).length)).drop self.start := by
      conv_lhs => rw [List.prefix_iff_eq_take.mp hprefix]
      rw [hdata, List.take_drop, List.take_take, ← hdata, min_eq_left (by omega)]
    refine ⟨?_, ?_, ?_, ?_⟩
    · rw [truncateByBytes_start, truncateByBytes_end, if_neg hfits]
      exact Nat.le_add_right ..
    · rw [truncateByBytes_end, if_neg hfits, truncateByBytes_total, htotal]
      omega
    · rw [truncateByBytes_total, htotal]
    · rw [truncateByBytes_data, truncateByBytes_start, truncateByBytes_end, if_neg hfits]
      exact htake

/-! ### The cut to a number of lines -/

theorem truncateByLines_of_le (h : lines.length ≤ maxLines) (startLine : ℕ) :
    (ofLines lines).truncateByLines startLine maxLines = ofLines lines := by
  have hkept : ¬ maxLines < lines.length := not_lt.mpr h
  simp [truncateByLines, ofLines, hkept]

theorem truncateByLines_of_lt (h : maxLines < lines.length) (startLine : ℕ) :
    (ofLines lines).truncateByLines startLine maxLines =
      { data := (lines.drop startLine).take maxLines
        start := startLine
        total := lines.length
        «end» := startLine + maxLines
        strategy := .line } := by
  have hne : lines.length ≠ ((lines.drop startLine).take maxLines).length := by
    rw [List.length_take]
    omega
  unfold truncateByLines ofLines
  dsimp only
  rw [if_pos h, if_pos hne]

/-- The lines of the window that is asked for. -/
def window (lines : List String) (startLine maxLines : ℕ) : List String :=
  (lines.drop startLine).take maxLines

/-- The lines returned are those of the range reported exactly if no line is cut off by the
number of lines, or the window ends within the lines, or lines are cut off it by the number of
bytes. -/
theorem truncateSearchOutput_isWindow_iff (formatDisplayPath : String → String)
    (output : List Match) (startLine maxLines maxBytes : ℕ) :
    IsWindow (output.map (formatMatch formatDisplayPath))
        (truncateSearchOutput formatDisplayPath output startLine maxLines maxBytes) ↔
      output.length ≤ maxLines ∨ startLine + maxLines ≤ output.length ∨
        window (output.map (formatMatch formatDisplayPath)) startLine maxLines ≠ [] ∧
          maxBytes ≤
            byteCount (window (output.map (formatMatch formatDisplayPath)) startLine maxLines) := by
  have hlength : (output.map (formatMatch formatDisplayPath)).length = output.length :=
    List.length_map _
  unfold truncateSearchOutput
  rw [← hlength]
  generalize output.map (formatMatch formatDisplayPath) = lines
  rcases le_or_gt lines.length maxLines with hle | hlt
  · refine iff_of_true ?_ (Or.inl hle)
    rw [truncateByLines_of_le hle]
    refine (isWindow_truncateByBytes_iff (Nat.zero_le _) rfl ?_).mpr (Or.inl le_rfl)
    simp [ofLines]
  · rw [truncateByLines_of_lt hlt, or_iff_right (not_le.mpr hlt)]
    refine isWindow_truncateByBytes_iff (Nat.le_add_right ..) rfl ?_
    rw [List.take_drop]

/-- Two matches, of which one line is wanted from an offset behind both. -/
theorem not_isWindow_beyond :
    ¬ IsWindow ([⟨"a.rs", some .fileMatch⟩, ⟨"b.rs", some .fileMatch⟩].map (formatMatch id))
      (truncateSearchOutput id [⟨"a.rs", some .fileMatch⟩, ⟨"b.rs", some .fileMatch⟩] 2 1 100) := by
  intro h
  exact absurd h.end_le (by decide)

end Truncation

end HeliosLite
