import HeliosLite.Theory.ShellWords

/-!
# Commands for the sandbox

A sandboxed command is not given to a shell: `parse_shell_command` of `tool_executor.rs` splits it
into a program and its arguments, with one flag for each kind of quoting. A word is put out when it
has collected characters.

## Main definitions

* `ShellSplitter` — the state of the splitter, with `step` and `flush`
* `parseShellCommand` — the program and the arguments

## Main results

* `parseShellCommand_command` — the words that are put out, for quoted words between blanks
* `parseShellCommand_eq_iff` — when they are the words of the shell
-/

namespace HeliosLite

open Theory

structure ShellSplitter where
  out : List (List Char)
  cur : List Char
  inSingle : Bool
  inDouble : Bool
  escape : Bool
deriving DecidableEq

namespace ShellSplitter

def start : ShellSplitter := ⟨[], [], false, false, false⟩

def push (s : ShellSplitter) (c : Char) : ShellSplitter := { s with cur := s.cur ++ [c] }

/-- The word so far is put out if it has characters. -/
def flush (s : ShellSplitter) : ShellSplitter :=
  if s.cur = [] then s else { s with out := s.out ++ [s.cur], cur := [] }

def step (s : ShellSplitter) (c : Char) : ShellSplitter :=
  if s.escape then { s.push c with escape := false }
  else if c = '\\' then
    if s.inSingle then s.push '\\' else { s with escape := true }
  else if c = '\'' ∧ ¬ s.inDouble then { s with inSingle := !s.inSingle }
  else if c = '"' ∧ ¬ s.inSingle then { s with inDouble := !s.inDouble }
  else if (c = ' ' ∨ c = '\t') ∧ ¬ s.inSingle ∧ ¬ s.inDouble then s.flush
  else s.push c

end ShellSplitter

open ShellSplitter

def parseShellCommand (input : List Char) : List Char × List (List Char) :=
  match (input.foldl step start).flush.out with
  | [] => ([], [])
  | program :: args => (program, args)

/-! ### Quoted words -/

namespace ShellSplitter

variable {out : List (List Char)} {cur : List Char}

/-- Outside quotation marks. -/
def reading (out : List (List Char)) (cur : List Char) : ShellSplitter :=
  ⟨out, cur, false, false, false⟩

theorem step_escaped (s : ShellSplitter) (c : Char) (hsingle : s.inSingle = false)
    (hescape : s.escape = false) : [('\\' : Char), c].foldl step s = s.push c := by
  obtain ⟨out, cur, inSingle, inDouble, escape⟩ := s
  subst hsingle hescape
  rfl

theorem step_reading {c : Char} (hc : c ∉ shellSpecial) :
    step (reading out cur) c = reading out (cur ++ [c]) := by
  simp only [shellSpecial, List.mem_cons, List.not_mem_nil, or_false, not_or] at hc
  simp [step, reading, push, hc]

theorem foldl_unquoted {cs : List ShellChar} (h : ∀ c, .plain c ∈ cs → c ∉ shellSpecial) :
    (cs.flatMap ShellChar.text).foldl step (reading out cur) =
      reading out (cur ++ cs.map ShellChar.char) := by
  induction cs generalizing cur with
  | nil => simp
  | cons c cs ih =>
    have hrest := fun cur => @ih cur fun c hc => h c (List.mem_cons_of_mem _ hc)
    rw [List.flatMap_cons, List.foldl_append, List.map_cons, List.append_cons, ← hrest]
    congr 1
    cases c with
    | plain c => exact step_reading (h c List.mem_cons_self)
    | escaped c => exact step_escaped _ c rfl rfl

theorem foldl_single {cs : List Char} (h : '\'' ∉ cs) :
    cs.foldl step ⟨out, cur, true, false, false⟩ = ⟨out, cur ++ cs, true, false, false⟩ := by
  induction cs generalizing cur with
  | nil => simp
  | cons c cs ih =>
    obtain ⟨hc, hcs⟩ := not_or.mp (mt List.mem_cons.mpr h)
    have hstep : step ⟨out, cur, true, false, false⟩ c = ⟨out, cur ++ [c], true, false, false⟩ := by
      by_cases hback : c = '\\'
      · subst hback
        rfl
      · simp [step, push, hback, Ne.symm hc]
    rw [List.foldl_cons, hstep, ih hcs, ← List.append_cons]

theorem foldl_double {cs : List ShellChar}
    (h : ∀ c, .plain c ∈ cs → c ∉ ShellChar.doubleSpecial) :
    (cs.flatMap ShellChar.text).foldl step ⟨out, cur, false, true, false⟩ =
      ⟨out, cur ++ cs.map ShellChar.char, false, true, false⟩ := by
  induction cs generalizing cur with
  | nil => simp
  | cons c cs ih =>
    have hrest := fun cur => @ih cur fun c hc => h c (List.mem_cons_of_mem _ hc)
    rw [List.flatMap_cons, List.foldl_append, List.map_cons, List.append_cons, ← hrest]
    congr 1
    cases c with
    | plain c =>
      have hc := h c List.mem_cons_self
      simp only [ShellChar.doubleSpecial, List.mem_cons, List.not_mem_nil, or_false, not_or] at hc
      simp [ShellChar.text, ShellChar.char, step, push, hc]
    | escaped c => exact step_escaped _ c rfl rfl

/-- The splitter takes a backslash for a mark of the character behind it. -/
theorem foldl_quoting {q : Quoting} (h : q.WellFormed) :
    q.text.foldl step (reading out cur) = reading out (cur ++ q.marked) := by
  cases q with
  | unquoted cs => exact foldl_unquoted h.1
  | single cs =>
    rw [Quoting.text, List.foldl_append]
    change ['\''].foldl step (cs.foldl step ⟨out, cur, true, false, false⟩) = _
    rw [foldl_single h]
    rfl
  | double cs =>
    rw [Quoting.text, List.foldl_append]
    change ['"'].foldl step
      ((cs.flatMap ShellChar.text).foldl step ⟨out, cur, false, true, false⟩) = _
    rw [foldl_double h]
    rfl

/-! ### Commands -/

/-- Blanks and the word behind them. -/
structure Argument where
  gap : List Char
  blank : ∀ c ∈ gap, c = ' ' ∨ c = '\t'
  gap_ne_nil : gap ≠ []
  quoting : Quoting
  wellFormed : quoting.WellFormed

def Argument.text (a : Argument) : List Char := a.gap ++ a.quoting.text

theorem flush_reading : (reading out cur).flush = reading (out ++ [cur].filter (· ≠ [])) [] := by
  by_cases h : cur = []
  · simp [flush, reading, h]
  · simp [flush, reading, h]

theorem step_blank {c : Char} (hc : c = ' ' ∨ c = '\t') :
    step (reading out cur) c = (reading out cur).flush := by
  rcases hc with rfl | rfl <;> rfl

theorem foldl_blanks {gap : List Char} (hblank : ∀ c ∈ gap, c = ' ' ∨ c = '\t') :
    gap.foldl step (reading out []) = reading out [] := by
  induction gap with
  | nil => rfl
  | cons c gap ih =>
    rw [List.foldl_cons, step_blank (hblank c List.mem_cons_self)]
    exact ih fun d hd => hblank d (List.mem_cons_of_mem _ hd)

/-- Blanks end the word before them. -/
theorem foldl_gap (a : Argument) :
    a.gap.foldl step (reading out cur) = reading (out ++ [cur].filter (· ≠ [])) [] := by
  obtain ⟨c, gap, hgap⟩ := List.exists_cons_of_ne_nil a.gap_ne_nil
  have hblank := a.blank
  rw [hgap] at hblank ⊢
  rw [List.foldl_cons, step_blank (hblank c List.mem_cons_self), flush_reading]
  exact foldl_blanks fun d hd => hblank d (List.mem_cons_of_mem _ hd)

/-- The words that have characters are put out. -/
theorem out_arguments (args : List Argument) :
    ((args.flatMap Argument.text).foldl step (reading out cur)).flush.out =
      out ++ (cur :: args.map fun a => a.quoting.marked).filter (· ≠ []) := by
  induction args generalizing out cur with
  | nil => rw [List.flatMap_nil, List.foldl_nil, flush_reading, reading, List.map_nil]
  | cons a args ih =>
    rw [List.flatMap_cons, List.foldl_append, Argument.text, List.foldl_append, foldl_gap,
      foldl_quoting a.wellFormed, ih, List.nil_append, List.append_assoc, ← List.filter_append]
    rfl

end ShellSplitter

/-- The quoted words with blanks between them. -/
def shellCommand (program : Quoting) (args : List Argument) : List Char :=
  program.text ++ args.flatMap Argument.text

theorem parseShellCommand_command {program : Quoting} (h : program.WellFormed)
    (args : List Argument) :
    parseShellCommand (shellCommand program args) =
      match (program.marked :: args.map fun a => a.quoting.marked).filter (· ≠ []) with
      | [] => ([], [])
      | program :: args => (program, args) := by
  have hout := @out_arguments [] program.marked args
  rw [List.nil_append] at hout
  rw [parseShellCommand, shellCommand, List.foldl_append, ← hout]
  have hprogram := @foldl_quoting [] [] program h
  rw [List.nil_append] at hprogram
  rw [← hprogram]
  rfl

/-- Words with characters are put out as they were marked. -/
theorem filter_eq_words_iff {qs : List Quoting} :
    (qs.map Quoting.marked).filter (· ≠ []) = qs.map Quoting.word ↔
      ∀ q ∈ qs, q.word ≠ [] ∧ q.AsMarked := by
  constructor
  · intro heq
    -- as many words come out, so none is dropped
    have hlength := congrArg List.length heq
    rw [List.length_map, ← List.length_map Quoting.marked,
      List.length_filter_eq_length_iff] at hlength
    rw [List.filter_eq_self.mpr hlength] at heq
    intro q hq
    have hword := List.map_inj_left.mp heq q hq
    have hne := hlength _ (List.mem_map_of_mem hq)
    rw [hword, decide_eq_true_eq] at hne
    exact ⟨hne, (Quoting.marked_eq_word_iff q).mp hword⟩
  · intro h
    have hwords : qs.map Quoting.marked = qs.map Quoting.word :=
      List.map_congr_left fun q hq => (Quoting.marked_eq_word_iff q).mpr (h q hq).2
    rw [hwords, List.filter_eq_self]
    intro word hword
    obtain ⟨q, hq, rfl⟩ := List.mem_map.mp hword
    exact decide_eq_true (h q hq).1

/-- The program and the arguments are those of a shell if no argument is empty, no line break is
quoted by a backslash, and between double quotation marks a backslash marks what it is before. -/
theorem parseShellCommand_eq_iff {program : Quoting} (h : program.WellFormed)
    (hprogram : program.word ≠ []) (args : List Argument) :
    parseShellCommand (shellCommand program args) =
        (program.word, args.map fun a => a.quoting.word) ↔
      program.AsMarked ∧ ∀ a ∈ args, a.quoting.word ≠ [] ∧ a.quoting.AsMarked := by
  have hwords := @filter_eq_words_iff (program :: args.map Argument.quoting)
  rw [List.map_cons, List.map_cons, List.map_map, List.map_map] at hwords
  rw [parseShellCommand_command h]
  constructor
  · intro heq
    have hlist : (program.marked :: args.map fun a => a.quoting.marked).filter (· ≠ []) =
        program.word :: args.map fun a => a.quoting.word := by
      split at heq
      · exact absurd (Prod.mk.inj heq).1.symm hprogram
      · next hfilter =>
        obtain ⟨rfl, rfl⟩ := Prod.mk.inj heq
        exact hfilter
    have hall := hwords.mp hlist
    exact ⟨(hall program List.mem_cons_self).2, fun a ha =>
      hall a.quoting (List.mem_cons_of_mem _ (List.mem_map_of_mem ha))⟩
  · rintro ⟨hfirst, hargs⟩
    have hlist := hwords.mpr (by
      intro q hq
      rcases List.mem_cons.mp hq with rfl | hq
      · exact ⟨hprogram, hfirst⟩
      · obtain ⟨a, ha, rfl⟩ := List.mem_map.mp hq
        exact hargs a ha)
    simp only [Function.comp_def] at hlist
    rw [hlist]

/-- The text in single quotation marks behind one blank. -/
def singleBehindBlank (cs : List Char) (h : '\'' ∉ cs) : Argument :=
  ⟨[' '], fun _ hc => .inl (List.mem_singleton.mp hc), List.cons_ne_nil _ _, .single cs, h⟩

def echo : Quoting := .unquoted [.plain 'e', .plain 'c', .plain 'h', .plain 'o']

theorem wellFormed_echo : echo.WellFormed := by
  refine ⟨?_, by decide⟩
  intro c hc
  simp only [List.mem_cons, ShellChar.plain.injEq, List.not_mem_nil, or_false] at hc
  rcases hc with rfl | rfl | rfl | rfl <;> decide

/-- `echo 'a b'`. -/
theorem parseShellCommand_echo :
    parseShellCommand
        (shellCommand echo [singleBehindBlank ['a', ' ', 'b'] (by decide)]) =
      (echo.word, [['a', ' ', 'b']]) :=
  (parseShellCommand_eq_iff wellFormed_echo (by decide)
    [singleBehindBlank ['a', ' ', 'b'] (by decide)]).mpr
    ⟨(by decide : ShellChar.escaped '\n' ∉ [.plain 'e', .plain 'c', .plain 'h', .plain 'o']),
      fun a ha => by
        obtain rfl := List.mem_singleton.mp ha
        exact ⟨by decide, trivial⟩⟩

/-- In `echo ''` there is no argument. -/
theorem parseShellCommand_empty :
    ¬ ∀ (program : Quoting) (args : List Argument), program.WellFormed → program.word ≠ [] →
      parseShellCommand (shellCommand program args) =
        (program.word, args.map fun a => a.quoting.word) := by
  intro hwords
  have hecho := hwords echo [singleBehindBlank [] (by decide)] wellFormed_echo (by decide)
  revert hecho
  decide

end HeliosLite
