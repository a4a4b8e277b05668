import HeliosLite.Orchestration.ToolCalls
import HeliosLite.Theory.Lines
import HeliosLite.Theory.Occurrence

/-!
# Diagnostics of the TypeScript compiler

`crates/forge_lsp/src/tsc.rs` reads the output of `tsc` line by line. A line is cut at its first
colon, and the place in the file is looked for behind the first parenthesis, which may be one of
the path.

## Main definitions

* `parseTscLine` — the diagnostic of a line
* `diagnostics` — the diagnostics of the output
* `TscReport` — what the compiler has to say, with the line that it writes

## Main results

* `notMem_file` — no diagnostic is about a path with a parenthesis
* `parseTscLine_reports_iff` — which reports are read as they were written
* `diagnostics_unlines` — an output of such reports is read in full
-/

namespace HeliosLite.Lsp

open Theory

inductive DiagnosticSeverity where
  | error
  | warning
  | information
  | hint
deriving DecidableEq

def DiagnosticSeverity.asStr : DiagnosticSeverity → String
  | error => "error"
  | warning => "warning"
  | information => "information"
  | hint => "hint"

structure Diagnostic where
  file : String
  severity : DiagnosticSeverity
  line : UInt32
  message : String
  source : Option String
deriving DecidableEq

def Diagnostic.new (file : String) (severity : DiagnosticSeverity) (line : UInt32)
    (message : String) : Diagnostic :=
  { file, severity, line, message, source := none }

def Diagnostic.withSource (d : Diagnostic) (source : String) : Diagnostic :=
  { d with source := some source }

/-! ### Lines -/

/-- `str::parse::<u32>`. -/
def parseU32 (text : List Char) : Option UInt32 :=
  let digits := match text with
    | '+' :: digits => digits
    | digits => digits
  if digits ≠ [] ∧ digits.all Char.isDigit ∧ Nat.ofDigitChars 10 digits 0 < 2 ^ 32 then
    some (UInt32.ofNat (Nat.ofDigitChars 10 digits 0))
  else none

def kindSeverity (kind : List Char) : DiagnosticSeverity :=
  if kind = "error".toList then .error
  else if kind = "warning".toList then .warning
  else .information

def parseTscLine (line : List Char) : Option Diagnostic := do
  let (pathPart, rest) ←
    (splitFirst [':', ' '] line).orElse fun _ => splitFirst [':'] line
  let (file, afterOpen) ← splitFirst ['('] pathPart
  let (loc, _) ← splitFirst [')'] afterOpen
  if loc = [] then none
  else do
    let lineNum ← parseU32 (loc.takeWhile (· ≠ ','))
    let (kind, rest) ← splitFirst [' '] rest
    let message := trim (String.ofList rest)
    some ((Diagnostic.new (String.ofList file) (kindSeverity kind) lineNum message).withSource
      "tsc")

/-- The diagnostics that `TscProvider` reads in the output. -/
def diagnostics (stderr : List Char) : List Diagnostic :=
  ((lines '\n' stderr).map stripReturn).filterMap parseTscLine

/-- The path of a diagnostic ends before the first parenthesis. -/
theorem notMem_file {line : List Char} {d : Diagnostic} (h : parseTscLine line = some d) :
    '(' ∉ d.file.toList := by
  simp only [parseTscLine, Option.bind_eq_bind, Option.bind_eq_some_iff] at h
  obtain ⟨⟨pathPart, rest⟩, -, ⟨file, afterOpen⟩, hfile, ⟨loc, _⟩, -, h⟩ := h
  split_ifs at h
  obtain ⟨lineNum, -, h⟩ := Option.bind_eq_some_iff.mp h
  obtain ⟨⟨kind, rest⟩, -, h⟩ := Option.bind_eq_some_iff.mp h
  obtain rfl := Option.some.inj h
  rw [Diagnostic.withSource, Diagnostic.new, String.toList_ofList]
  exact notMem_of_splitFirst hfile

/-! ### Numbers and texts -/

theorem parseU32_toDigits (n : ℕ) :
    parseU32 (Nat.toDigits 10 n) = if n < 2 ^ 32 then some (UInt32.ofNat n) else none := by
  have hdigit : ∀ c ∈ Nat.toDigits 10 n, c.isDigit := fun c hc =>
    Nat.isDigit_of_mem_toDigits (by decide) (by decide) hc
  rw [parseU32, Nat.ofDigitChars_toDigits (by decide) (by decide)]
  · apply if_congr _ rfl rfl
    rw [List.all_eq_true]
    exact ⟨fun h => h.2.2, fun h => ⟨Nat.toDigits_ne_nil, hdigit, h⟩⟩
  · -- the first digit is no sign
    intro digits hplus
    exact absurd (hdigit '+' (hplus ▸ List.mem_cons_self)) (by decide)

/-- A text without blanks at its ends has none at its end. -/
theorem getLast_of_trim {text : String} (h : trim text = text) (hne : text.toList ≠ []) :
    isWhitespace (text.toList.getLast hne) = false := by
  have hlist : (text.toList.dropWhile isWhitespace).rdropWhile isWhitespace = text.toList := by
    have hchars := congrArg String.toList h
    rwa [trim, String.toList_ofList] at hchars
  have hfront : text.toList.dropWhile isWhitespace = text.toList := by
    apply (List.dropWhile_suffix isWhitespace).eq_of_length_le
    calc text.toList.length
        = ((text.toList.dropWhile isWhitespace).rdropWhile isWhitespace).length := by rw [hlist]
      _ ≤ _ := (List.rdropWhile_prefix isWhitespace _).length_le
  rw [hfront] at hlist
  simpa using List.rdropWhile_eq_self_iff.mp hlist hne

/-! ### Reports -/

/-- What the compiler has to say about a place in a file. -/
structure TscReport where
  path : String
  line : ℕ
  column : ℕ
  severity : DiagnosticSeverity
  code : ℕ
  message : String

namespace TscReport

/-- The code and the message. -/
def title (r : TscReport) : List Char :=
  'T' :: 'S' :: Nat.toDigits 10 r.code ++ ':' :: ' ' :: r.message.toList

def place (r : TscReport) : List Char :=
  Nat.toDigits 10 r.line ++ ',' :: Nat.toDigits 10 r.column

/-- The line that the compiler writes. -/
def text (r : TscReport) : List Char :=
  r.path.toList ++ ['('] ++ r.place ++ [')'] ++ [':', ' '] ++
    (r.severity.asStr.toList ++ [' '] ++ r.title)

/-- The diagnostic says what the compiler had to say. -/
structure ReportedAs (r : TscReport) (d : Diagnostic) : Prop where
  file : d.file = r.path
  line : d.line.toNat = r.line
  severity : d.severity = r.severity
  message : d.message.toList = r.title

variable {r : TscReport}

theorem notMem_toDigits {c : Char} (hc : c.isDigit = false) (n : ℕ) :
    c ∉ Nat.toDigits 10 n := by
  intro hmem
  rw [Nat.isDigit_of_mem_toDigits (by decide) (by decide) hmem] at hc
  cases hc

theorem notMem_place {c : Char} (hc : c.isDigit = false) (hcomma : c ≠ ',') : c ∉ r.place := by
  rw [place, List.mem_append, List.mem_cons]
  rintro (hline | rfl | hcolumn)
  · exact notMem_toDigits hc _ hline
  · exact hcomma rfl
  · exact notMem_toDigits hc _ hcolumn

theorem place_ne_nil : r.place ≠ [] := by
  rw [place]
  exact List.append_ne_nil_of_right_ne_nil _ (List.cons_ne_nil _ _)

theorem takeWhile_place : r.place.takeWhile (· ≠ ',') = Nat.toDigits 10 r.line := by
  rw [place, List.takeWhile_append_of_pos]
  · simp
  · intro c hc
    rw [decide_eq_true_eq]
    rintro rfl
    exact notMem_toDigits (by decide) _ hc

/-- The title is trimmed as it is, unless the message is missing. -/
theorem trim_title_iff (htrim : trim r.message = r.message) :
    (trim (String.ofList r.title)).toList = r.title ↔ r.message ≠ "" := by
  have hfront : r.title.dropWhile isWhitespace = r.title := by
    rw [title]
    exact List.dropWhile_cons_of_neg (by decide)
  rw [trim, String.toList_ofList, String.toList_ofList, hfront, List.rdropWhile_eq_self_iff]
  have hmessage : r.message.toList = [] ↔ r.message = "" := String.toList_eq_nil_iff
  have hne : r.title ≠ [] := List.cons_ne_nil _ _
  constructor
  · -- a missing message leaves the blank at the end
    rintro hlast hempty
    have hblank : r.title = ('T' :: 'S' :: Nat.toDigits 10 r.code ++ [':']) ++ [' '] := by
      rw [title, hmessage.mpr hempty]
      simp
    apply hlast hne
    simp only [hblank, List.getLast_concat]
    decide
  · intro hempty _
    have hchars : r.message.toList ≠ [] := fun hnil => hempty (hmessage.mp hnil)
    have hlast : r.title.getLast hne = r.message.toList.getLast hchars := by
      simp only [title]
      rw [List.getLast_append_of_ne_nil _ (List.cons_ne_nil _ _), List.getLast_cons (by simp),
        List.getLast_cons hchars]
    rw [hlast, getLast_of_trim htrim]
    decide

theorem kindSeverity_asStr (h : r.severity = .error ∨ r.severity = .warning) :
    kindSeverity r.severity.asStr.toList = r.severity := by
  rcases h with h | h <;> rw [h] <;> decide

/-- A report about a path without a parenthesis is cut where it was put together. -/
theorem parseTscLine_text (hseverity : r.severity = .error ∨ r.severity = .warning)
    (hcolon : ':' ∉ r.path.toList) (hparen : '(' ∉ r.path.toList) :
    parseTscLine r.text = if r.line < 2 ^ 32 then
      some ((Diagnostic.new r.path r.severity (UInt32.ofNat r.line)
        (trim (String.ofList r.title))).withSource "tsc") else none := by
  have hhead : splitFirst [':', ' '] r.text = some (r.path.toList ++ ['('] ++ r.place ++ [')'],
      r.severity.asStr.toList ++ [' '] ++ r.title) := by
    have hplace : ':' ∉ r.place := notMem_place (by decide) (by decide)
    exact splitFirst_append (by simp [hcolon, hplace])
  have hfile : splitFirst ['('] (r.path.toList ++ ['('] ++ r.place ++ [')'])
      = some (r.path.toList, r.place ++ [')']) := by
    rw [List.append_assoc]
    exact splitFirst_append hparen
  have hloc : splitFirst [')'] (r.place ++ [')']) = some (r.place, []) := by
    have hplace : ')' ∉ r.place := notMem_place (by decide) (by decide)
    simpa using @splitFirst_append _ r.place [] _ [] ')' hplace
  have hkind : splitFirst [' '] (r.severity.asStr.toList ++ [' '] ++ r.title)
      = some (r.severity.asStr.toList, r.title) := by
    apply splitFirst_append
    rcases hseverity with h | h <;> rw [h] <;> decide
  simp only [parseTscLine, hhead, hfile, hloc, hkind, Option.orElse_some, Option.bind_eq_bind,
    Option.bind_some, if_neg place_ne_nil, takeWhile_place, parseU32_toDigits,
    kindSeverity_asStr hseverity, String.ofList_toList]
  split_ifs <;> rfl

/-- A report is read as it was written unless its path has a parenthesis, its message is missing,
or its line number is no `u32`. -/
theorem parseTscLine_reports_iff (hseverity : r.severity = .error ∨ r.severity = .warning)
    (hcolon : ':' ∉ r.path.toList) (htrim : trim r.message = r.message) :
    (∃ d, parseTscLine r.text = some d ∧ r.ReportedAs d) ↔
      '(' ∉ r.path.toList ∧ r.message ≠ "" ∧ r.line < 2 ^ 32 := by
  constructor
  · rintro ⟨d, hparse, hreported⟩
    have hparen : '(' ∉ r.path.toList := hreported.file ▸ notMem_file hparse
    rw [parseTscLine_text hseverity hcolon hparen] at hparse
    split_ifs at hparse with hline
    obtain rfl := Option.some.inj hparse
    exact ⟨hparen, (trim_title_iff htrim).mp hreported.message, hline⟩
  · rintro ⟨hparen, hmessage, hline⟩
    refine ⟨_, (parseTscLine_text hseverity hcolon hparen).trans (if_pos hline), rfl, ?_, rfl, ?_⟩
    · exact UInt32.toNat_ofNat_of_lt' hline
    · exact (trim_title_iff htrim).mpr hmessage

/-- The type of a name is not found. -/
def nameNotFound (path : String) : TscReport :=
  { path, line := 10, column := 5, severity := .error, code := 2304,
    message := "Cannot find name 'bar'." }

theorem reported_nameNotFound :
    ∃ d, parseTscLine (nameNotFound "src/foo.ts").text = some d ∧
      (nameNotFound "src/foo.ts").ReportedAs d :=
  (parseTscLine_reports_iff (.inl rfl) (by decide) (by decide)).mpr
    ⟨by decide, by decide, by decide⟩

/-- A route group in the path is taken for the place. -/
theorem not_reported_routeGroup :
    ¬ ∀ r : TscReport, r.severity = .error ∨ r.severity = .warning →
      ':' ∉ r.path.toList → '\n' ∉ r.path.toList → '\n' ∉ r.message.toList →
      trim r.message = r.message → ∃ d, parseTscLine r.text = some d ∧ r.ReportedAs d := by
  intro hreported
  obtain ⟨d, hparse, hd⟩ := hreported (nameNotFound "app/(auth)/page.tsx") (.inl rfl) (by decide)
    (by decide) (by decide) (by decide)
  have hparen := notMem_file hparse
  rw [hd.file] at hparen
  exact hparen (by decide)

end TscReport

/-! ### Outputs -/

namespace TscReport

/-- A report on one line that is read as it was written. -/
structure Plain (r : TscReport) : Prop where
  severity : r.severity = .error ∨ r.severity = .warning
  colon : ':' ∉ r.path.toList
  paren : '(' ∉ r.path.toList
  path_line : '\n' ∉ r.path.toList
  message_line : '\n' ∉ r.message.toList
  message : r.message ≠ ""
  trimmed : trim r.message = r.message
  line : r.line < 2 ^ 32

variable {r : TscReport}

theorem Plain.notMem_text (h : r.Plain) : '\n' ∉ r.text := by
  have hplace : '\n' ∉ r.place := notMem_place (by decide) (by decide)
  have hcode : '\n' ∉ Nat.toDigits 10 r.code := notMem_toDigits (by decide) _
  have hword : '\n' ∉ r.severity.asStr.toList := by
    rcases h.severity with h | h <;> rw [h] <;> decide
  simp [text, title, h.path_line, h.message_line, hplace, hcode, hword]

/-- A line of the compiler does not end with a carriage return. -/
theorem Plain.stripReturn_text (h : r.Plain) : stripReturn r.text = r.text := by
  have hchars : r.message.toList ≠ [] := fun hnil => h.message (String.toList_eq_nil_iff.mp hnil)
  have htext : r.text = r.path.toList ++ ['('] ++ r.place ++ [')'] ++ [':', ' '] ++
      (r.severity.asStr.toList ++ [' '] ++ ('T' :: 'S' :: Nat.toDigits 10 r.code ++ [':', ' '])) ++
        r.message.toList := by
    simp [text, title]
  rw [stripReturn, if_neg]
  rw [htext, List.getLast?_append_of_ne_nil _ hchars, List.getLast?_eq_some_getLast hchars]
  intro hreturn
  have hblank := getLast_of_trim h.trimmed hchars
  rw [Option.some.inj hreturn] at hblank
  exact absurd hblank (by decide)

/-- The diagnostic of a plain report. -/
def diagnostic (r : TscReport) : Diagnostic :=
  (Diagnostic.new r.path r.severity (UInt32.ofNat r.line) (String.ofList r.title)).withSource "tsc"

theorem Plain.parseTscLine_text (h : r.Plain) : parseTscLine r.text = some r.diagnostic := by
  rw [TscReport.parseTscLine_text h.severity h.colon h.paren, if_pos h.line, diagnostic,
    String.toList_inj.mp (((trim_title_iff h.trimmed).mpr h.message).trans
      String.toList_ofList.symm)]

end TscReport

open TscReport

/-- An output of plain reports is read in full and in order. -/
theorem diagnostics_unlines {rs : List TscReport} (h : ∀ r ∈ rs, r.Plain) :
    diagnostics (unlines '\n' (rs.map text)) = rs.map diagnostic := by
  have hlines : ∀ line ∈ rs.map text, '\n' ∉ line := by
    intro line hline
    obtain ⟨r, hr, rfl⟩ := List.mem_map.mp hline
    exact (h r hr).notMem_text
  rw [diagnostics, lines_unlines hlines]
  induction rs with
  | nil => rfl
  | cons r rs ih =>
    have hr := h r List.mem_cons_self
    rw [List.map_cons, List.map_cons, hr.stripReturn_text,
      List.filterMap_cons_some hr.parseTscLine_text, List.map_cons,
      ih (fun r hmem => h r (List.mem_cons_of_mem _ hmem))
        fun line hline => hlines line (List.mem_cons_of_mem _ hline)]

/-- A file whose path has a parenthesis gets no diagnostic, whatever the compiler writes. -/
theorem diagnostics_silent {stderr : List Char} {path : String} (h : '(' ∈ path.toList) :
    ∀ d ∈ diagnostics stderr, d.file ≠ path := by
  rintro d hd rfl
  obtain ⟨line, -, hparse⟩ := List.mem_filterMap.mp hd
  exact notMem_file hparse h

end HeliosLite.Lsp
