import Mathlib.Data.List.ReduceOption
import HeliosLite.Telemetry.Event
import HeliosLite.Theory.Lines

/-!
# The journal of the disk store

A file with one event on each line, after a header. A line that starts with `#` and an empty line
are skipped when the file is read, and a line that is no event makes the whole file unreadable.

## Main definitions

* `Journal` — the contents of the file
* `replay` — the events of the file
* `Holds` — the file has been written with these events and no others

## Main results

* `Holds.replay` — the events are read back
* `Holds.append`, `Holds.append_unfinished`, `holds_content` — how such a file comes about
-/

namespace HeliosLite

open Serde Theory

/-- The contents of a file: its characters, and `none` for bytes that are no character. -/
abbrev Journal := List (Option Char)

/-- The journal cannot be opened, or has a line that is no event. The line is counted without
those that start with `#`. -/
inductive JournalError where
  | openFailed
  | corrupt (line : ℕ)
  deriving DecidableEq, Repr

def header : String := "# forge_tracera::DiskStore v1"

section Read

variable [JsonText] [UtcText]

/-- The events of some lines; `index` lines were read before, `headerLines` of them started
with `#`. -/
def replayLines : ℕ → ℕ → List (List (Option Char)) → Except JournalError (List TraceraEvent)
  | _, _, [] => .ok []
  | index, headerLines, bytes :: rest =>
    match bytes.mapM id with
    | none => .error .openFailed
    | some chars =>
      let line := stripReturn chars
      if line.head? = some '#' then replayLines (index + 1) (headerLines + 1) rest
      else if line = [] then replayLines (index + 1) headerLines rest
      else
        match (fromText (String.ofList line)).bind TraceraEvent.deserialize with
        | some ev => (replayLines (index + 1) headerLines rest).map (ev :: ·)
        | none => .error (.corrupt (index + 1 - headerLines))

/-- The events of the file. -/
def replay (journal : Journal) : Except JournalError (List TraceraEvent) :=
  replayLines 0 0 (lines (some '\n') journal)

end Read

/-- The file ends with a line. -/
def AtLineEnd (journal : Journal) : Prop :=
  journal = [] ∨ journal.getLast? = some (some '\n')

instance (journal : Journal) : Decidable (AtLineEnd journal) := inferInstanceAs (Decidable (_ ∨ _))

section Write

variable [JsonText] [UtcText]

/-- The line of an event. -/
def eventLine (ev : TraceraEvent) : List Char := (toText ev.serialize).toList

/-- A line of the file: that of an event, or the header. -/
def lineText : Option TraceraEvent → List Char
  | some ev => eventLine ev
  | none => header.toList

/-- The file that `rewrite` writes. -/
def content (queue : List TraceraEvent) : List Char :=
  unlines '\n' (header.toList :: queue.map eventLine)

/-- The file has the lines of these events, each of which can be read back, and header lines. The
last event may still lack its line break. -/
def Holds (journal : Journal) (events : List TraceraEvent) : Prop :=
  ∃ (ls : List (Option TraceraEvent)) (unfinished : Option TraceraEvent),
    journal = (unlines '\n' (ls.map lineText) ++ (unfinished.map eventLine).getD []).map some ∧
      events = ls.reduceOption ++ unfinished.toList ∧ ∀ ev ∈ events, ev.Readable

end Write

/-! ### Reading the lines back -/

theorem newline_notMem_header : '\n' ∉ header.toList := by decide

theorem head?_stripReturn_header : (stripReturn header.toList).head? = some '#' := by decide

theorem mapM_id_map_some {α : Type} (l : List α) : (l.map some).mapM id = some l := by
  induction l with
  | nil => rfl
  | cons a l ih =>
    rw [List.map_cons, List.mapM_cons, ih]
    rfl

section Lines

variable [JsonLines] [UtcText] {ev : TraceraEvent}

theorem exists_eventLine (ev : TraceraEvent) : ∃ inner, eventLine ev = '{' :: inner ++ ['}'] :=
  JsonLines.toText_obj _

theorem newline_notMem_lineText (l : Option TraceraEvent) : '\n' ∉ lineText l := by
  cases l with
  | none => exact newline_notMem_header
  | some ev => exact JsonLines.newline_notMem_toText _

theorem stripReturn_eventLine (ev : TraceraEvent) : stripReturn (eventLine ev) = eventLine ev := by
  obtain ⟨inner, hinner⟩ := exists_eventLine ev
  have hlast : (eventLine ev).getLast? = some '}' := by
    rw [hinner, List.getLast?_append]
    rfl
  rw [stripReturn, hlast]
  rfl

theorem eventLine_ne_nil (ev : TraceraEvent) : eventLine ev ≠ [] := by
  obtain ⟨inner, hinner⟩ := exists_eventLine ev
  rw [hinner]
  exact List.cons_ne_nil _ _

/-- A header line is skipped, and a line of an event gives the event. -/
theorem replayLines_cons (l : Option TraceraEvent) (hread : ∀ ev ∈ l, ev.Readable)
    (index headerLines : ℕ) (rest : List (List (Option Char))) :
    ∃ headerLines', replayLines index headerLines ((lineText l).map some :: rest) =
      (replayLines (index + 1) headerLines' rest).map (l.toList ++ ·) := by
  rw [replayLines, mapM_id_map_some]
  cases l with
  | none =>
    refine ⟨headerLines + 1, ?_⟩
    have hhash : (stripReturn (lineText none)).head? = some '#' := head?_stripReturn_header
    dsimp only
    rw [if_pos hhash]
    exact (congrFun Except.map_id _).symm
  | some ev =>
    refine ⟨headerLines, ?_⟩
    obtain ⟨inner, hinner⟩ := exists_eventLine ev
    have hbrace : (eventLine ev).head? = some '{' := by
      rw [hinner]
      rfl
    have hhash : ¬(eventLine ev).head? = some '#' := by
      rw [hbrace]
      decide
    have hevent : (fromText (String.ofList (eventLine ev))).bind TraceraEvent.deserialize =
        some ev := by
      rw [eventLine, String.ofList_toList]
      exact (hread ev rfl).bind_deserialize
    simp only [lineText, stripReturn_eventLine, if_neg hhash, if_neg (eventLine_ne_nil ev), hevent]
    rfl

theorem replayLines_map (ls : List (Option TraceraEvent))
    (hread : ∀ ev ∈ ls.reduceOption, ev.Readable) (index headerLines : ℕ) :
    replayLines index headerLines (ls.map fun l => (lineText l).map some) =
      .ok ls.reduceOption := by
  induction ls generalizing index headerLines with
  | nil => rfl
  | cons l ls ih =>
    have hsplit : (l :: ls).reduceOption = l.toList ++ ls.reduceOption := by
      cases l with
      | none => rw [List.reduceOption_cons_of_none, Option.toList_none, List.nil_append]
      | some ev => rw [List.reduceOption_cons_of_some, Option.toList_some, List.singleton_append]
    rw [hsplit] at hread ⊢
    obtain ⟨headerLines', hline⟩ := replayLines_cons l
      (fun ev hev => hread ev (List.mem_append_left _ (by simpa using hev))) index headerLines
      (ls.map fun l => (lineText l).map some)
    rw [List.map_cons, hline, ih fun ev hev => hread ev (List.mem_append_right _ hev)]
    rfl

/-- The lines of a file, as they are read. -/
theorem lines_map_some (ls : List (Option TraceraEvent)) (unfinished : Option TraceraEvent) :
    lines (some '\n')
        ((unlines '\n' (ls.map lineText) ++ (unfinished.map eventLine).getD []).map some) =
      (ls ++ unfinished.toList.map some).map fun l => (lineText l).map some := by
  have hunlines : (unlines '\n' (ls.map lineText)).map some =
      unlines (some '\n') (ls.map fun l => (lineText l).map some) := by
    simp [unlines, List.map_flatMap, List.flatMap_map]
  have hnewline : ∀ l : Option TraceraEvent, some '\n' ∉ (lineText l).map some := by
    intro l hmem
    obtain ⟨c, hc, hceq⟩ := List.mem_map.mp hmem
    exact newline_notMem_lineText l (Option.some.inj hceq ▸ hc)
  rw [List.map_append, hunlines, lines_unlines_append (by simpa using fun l _ => hnewline l)]
  cases unfinished with
  | none => simp
  | some ev =>
    have hlast : lines (some '\n') ((eventLine ev).map some) = [(eventLine ev).map some] := by
      apply lines_of_notMem (hnewline (some ev))
      exact mt List.map_eq_nil_iff.mp (eventLine_ne_nil ev)
    simp [hlast, lineText]

end Lines

/-! ### Files that were written whole -/

namespace Holds

variable [JsonLines] [UtcText] {journal : Journal} {events : List TraceraEvent} {ev : TraceraEvent}

theorem empty : Holds [] [] := ⟨[], none, rfl, rfl, by simp⟩

theorem readable (h : Holds journal events) : ∀ ev ∈ events, ev.Readable := by
  obtain ⟨-, -, -, -, hread⟩ := h
  exact hread

/-- The events of the file are read back. -/
theorem replay (h : Holds journal events) : replay journal = .ok events := by
  obtain ⟨ls, unfinished, rfl, rfl, hread⟩ := h
  have hevents : (ls ++ unfinished.toList.map some).reduceOption =
      ls.reduceOption ++ unfinished.toList := by
    cases unfinished <;> simp [List.reduceOption_append]
  rw [HeliosLite.replay, lines_map_some, replayLines_map, hevents]
  rwa [hevents]

/-- A file that ends with a line has no unfinished event. -/
theorem exists_of_atLineEnd (h : Holds journal events) (hend : AtLineEnd journal) :
    ∃ ls : List (Option TraceraEvent), journal = (unlines '\n' (ls.map lineText)).map some ∧
      events = ls.reduceOption := by
  obtain ⟨ls, unfinished, rfl, rfl, -⟩ := h
  cases unfinished with
  | none => exact ⟨ls, by simp, by simp⟩
  | some ev =>
    obtain ⟨inner, hinner⟩ := exists_eventLine ev
    rcases hend with hnil | hlast
    · simp [hinner] at hnil
    · rw [Option.map_some, Option.getD_some, hinner, ← List.append_assoc, List.map_append,
        List.getLast?_append] at hlast
      cases hlast

/-- An event that is appended to a file which ends with a line, all but its line break. -/
theorem append_unfinished (h : Holds journal events) (hend : AtLineEnd journal)
    (hread : ev.Readable) :
    Holds (journal ++ (eventLine ev).map some) (events ++ [ev]) := by
  have hall := List.forall_mem_append.mpr ⟨h.readable, List.forall_mem_singleton.mpr hread⟩
  obtain ⟨ls, rfl, rfl⟩ := h.exists_of_atLineEnd hend
  refine ⟨ls, some ev, ?_, rfl, hall⟩
  rw [Option.map_some, Option.getD_some, List.map_append]

/-- An event that is appended to a file which ends with a line. -/
theorem append (h : Holds journal events) (hend : AtLineEnd journal) (hread : ev.Readable) :
    Holds (journal ++ (eventLine ev ++ ['\n']).map some) (events ++ [ev]) := by
  have hall := List.forall_mem_append.mpr ⟨h.readable, List.forall_mem_singleton.mpr hread⟩
  obtain ⟨ls, rfl, rfl⟩ := h.exists_of_atLineEnd hend
  refine ⟨ls ++ [some ev], none, ?_, ?_, hall⟩
  · simp [unlines, lineText]
  · simp [List.reduceOption_append]

end Holds

/-- A file that is written anew holds the events of the queue. -/
theorem holds_content [JsonLines] [UtcText] {queue : List TraceraEvent}
    (hread : ∀ ev ∈ queue, ev.Readable) : Holds ((content queue).map some) queue := by
  refine ⟨none :: queue.map some, none, ?_, ?_, hread⟩
  · simp [content, lineText, Function.comp_def]
  · simp [List.reduceOption, List.filterMap_map]

end HeliosLite
