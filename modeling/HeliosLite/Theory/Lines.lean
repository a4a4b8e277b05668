import Mathlib.Data.List.Basic

/-!
# Files of lines

A file is written one line after the other, each with a separator at its end. It is read back
line by line; what stands after the last separator counts as a line unless it is empty.

## Main definitions

* `lines` — the lines of a file
* `unlines` — the file of some lines
* `stripReturn` — a line that was written with `\r\n`

## Main results

* `lines_unlines_append` — whole lines are read back, whatever follows them
-/

namespace Theory

variable {α : Type*} [DecidableEq α] {sep : α}

/-- The lines of a file. -/
def lines (sep : α) (file : List α) : List (List α) :=
  if (file.splitOn sep).getLast? = some [] then (file.splitOn sep).dropLast else file.splitOn sep

/-- The file of some lines. -/
def unlines (sep : α) (ls : List (List α)) : List α := ls.flatMap (· ++ [sep])

/-- A line without the carriage return before its separator. -/
def stripReturn (line : List Char) : List Char :=
  if line.getLast? = some '\r' then line.dropLast else line

theorem stripReturn_append {front : List Char} (h : front.getLast? ≠ some '\r')
    (back : List Char) : stripReturn (front ++ back) = front ++ stripReturn back := by
  rcases List.eq_nil_or_concat' back with rfl | ⟨init, c, rfl⟩
  · rw [List.append_nil, stripReturn, if_neg h]
    exact (List.append_nil front).symm
  · rw [stripReturn, stripReturn, ← List.append_assoc, List.getLast?_concat,
      List.getLast?_concat, List.dropLast_concat, List.dropLast_concat]
    split_ifs
    · rfl
    · rw [List.append_assoc]

theorem stripReturn_cases (line : List Char) :
    (line.getLast? = some '\r' ∧ line = stripReturn line ++ ['\r']) ∨
      (line.getLast? ≠ some '\r' ∧ stripReturn line = line) := by
  rw [stripReturn]
  split_ifs with hlast
  · exact Or.inl ⟨hlast, (List.dropLast_append_getLast? _ hlast).symm⟩
  · exact Or.inr ⟨hlast, rfl⟩

theorem stripReturn_sublist (line : List Char) : (stripReturn line).Sublist line := by
  rw [stripReturn]
  split_ifs
  · exact List.dropLast_sublist line
  · exact List.Sublist.refl line

@[simp] theorem lines_nil : lines sep [] = [] := rfl

omit [DecidableEq α] in
@[simp] theorem unlines_nil : unlines sep [] = [] := rfl

omit [DecidableEq α] in
theorem unlines_cons (l : List α) (ls : List (List α)) :
    unlines sep (l :: ls) = l ++ sep :: unlines sep ls := by
  simp [unlines]

omit [DecidableEq α] in
theorem unlines_append (ls ms : List (List α)) :
    unlines sep (ls ++ ms) = unlines sep ls ++ unlines sep ms := List.flatMap_append

theorem lines_append_sep {l : List α} (hl : sep ∉ l) (rest : List α) :
    lines sep (l ++ sep :: rest) = l :: lines sep rest := by
  obtain ⟨m, ms, hrest⟩ := List.exists_cons_of_ne_nil (List.splitOn_ne_nil sep rest)
  unfold lines
  rw [List.splitOn_append_cons_self_of_not_mem hl, hrest, List.getLast?_cons_cons]
  split_ifs
  · rfl
  · rfl

theorem notMem_of_mem_splitOn {file l : List α} (hl : l ∈ file.splitOn sep) : sep ∉ l := by
  induction file generalizing l with
  | nil =>
    rw [List.splitOn_nil, List.mem_singleton] at hl
    rw [hl]
    exact List.not_mem_nil
  | cons a file ih =>
    obtain ⟨m, ms, hrest⟩ := List.exists_cons_of_ne_nil (List.splitOn_ne_nil sep file)
    rw [List.splitOn_cons_eq_if_modifyHead] at hl
    split_ifs at hl with ha
    · rcases List.mem_cons.mp hl with rfl | hl
      · exact List.not_mem_nil
      · exact ih hl
    · rw [hrest, List.modifyHead_cons] at hl
      rw [hrest] at ih
      rcases List.mem_cons.mp hl with rfl | hl
      · rw [List.mem_cons, not_or]
        exact ⟨fun hsep => ha (beq_iff_eq.mpr hsep.symm), ih List.mem_cons_self⟩
      · exact ih (List.mem_cons_of_mem m hl)

/-- No line has a separator in it. -/
theorem notMem_of_mem_lines {file l : List α} (hl : l ∈ lines sep file) : sep ∉ l := by
  unfold lines at hl
  split_ifs at hl
  · exact notMem_of_mem_splitOn ((List.dropLast_sublist _).subset hl)
  · exact notMem_of_mem_splitOn hl

/-- Whole lines are read back, whatever follows them. -/
theorem lines_unlines_append {ls : List (List α)} (hls : ∀ l ∈ ls, sep ∉ l) (rest : List α) :
    lines sep (unlines sep ls ++ rest) = ls ++ lines sep rest := by
  induction ls with
  | nil => rfl
  | cons l ls ih =>
    obtain ⟨hl, hls⟩ := List.forall_mem_cons.mp hls
    rw [unlines_cons, List.append_assoc, List.cons_append, lines_append_sep hl, ih hls]
    rfl

theorem lines_unlines {ls : List (List α)} (hls : ∀ l ∈ ls, sep ∉ l) :
    lines sep (unlines sep ls) = ls := by
  rw [← List.append_nil (unlines sep ls), lines_unlines_append hls, lines_nil, List.append_nil]

/-- What stands after the last separator is a line. -/
theorem lines_of_notMem {l : List α} (hl : sep ∉ l) (hne : l ≠ []) : lines sep l = [l] := by
  unfold lines
  rw [List.splitOn_eq_singleton hl, if_neg]
  intro hlast
  exact hne (Option.some.inj hlast)

end Theory
