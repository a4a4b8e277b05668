import HeliosLite.Tools.Executor

/-!
# Read before edit

A file is edited only after a read of it succeeded. Reads are kept under the text that the model
wrote, and looked up under the text of the edit and under its absolute path.

## Main definitions

* `Executor.reads` — the texts of the reads of a run that succeeded
* `ReadBefore` — the file was read, under whatever text
* `SpelledRelative` — it was read under a relative text only, and is edited under the absolute one

## Main results

* `contains_run` — what the check looks up
* `requirePriorRead_iff` — the check passes for the files that were read, up to such spellings
-/

namespace HeliosLite

open Serde Theory

namespace Executor

variable {σ : Type} (services : Services σ) (env : Environment) [FileContents]

/-- The text of a read that succeeds. -/
def readPath (s : ToolState σ) : ToolEvent σ → Option String
  | .call (.read input) sent =>
    if (execute services env s (.read input) sent).2 then some input.filePath else none
  | _ => none

/-- The texts of the reads that succeed in a run. -/
def reads (s : ToolState σ) (events : List (ToolEvent σ)) : List String :=
  (outputs (step services env) (readPath services env) s events).filterMap id

variable {services env}

/-- A step adds the text of the read that succeeds in it, and nothing else. -/
theorem contains_step {s : ToolState σ} {e : ToolEvent σ} {path : String} :
    (step services env s e).metrics.filesAccessed.contains path ↔
      s.metrics.filesAccessed.contains path ∨ readPath services env s e = some path := by
  cases e with
  | outside world => simp [step, readPath]
  | call call sent =>
    rw [step]
    rcases execute_cases services env s call sent with ⟨hmetrics, hfailed⟩ | ⟨op, hop, -, hexecute⟩
    · have hnone : readPath services env s (.call call sent) = none := by
        cases call <;> simp [readPath, hfailed]
      rw [hmetrics, hnone]
      simp
    · obtain ⟨hpath, htool⟩ := noted_of_callInternal hop
      rw [hexecute]
      by_cases hread : call.kind = .read
      · -- a read is noted under its text
        obtain ⟨input, rfl⟩ : ∃ input, call = .read input := by
          cases call <;> cases hread
          exact ⟨_, rfl⟩
        have hreadPath : readPath services env s (.call (.read input) sent) =
            some input.filePath := by
          rw [readPath, hexecute]
          rfl
        obtain ⟨⟨noted, operation⟩, hnoted, hfst⟩ := Option.map_eq_some_iff.mp hpath
        obtain rfl : noted = input.filePath := hfst
        have hkind : operation.tool = .read := htool _ hnoted
        have hinsert : (s.metrics.insert input.filePath operation).filesAccessed =
            s.metrics.filesAccessed.insert input.filePath () := if_pos hkind
        rw [hreadPath, ToolOperation.record, hnoted]
        dsimp only
        rw [hinsert, StringMap.contains_insert, or_comm, Option.some_inj, @eq_comm _ path]
      · have hnone : readPath services env s (.call call sent) = none := by
          cases call <;> first | rfl | exact absurd rfl hread
        have hsame : (op.record s.metrics).filesAccessed = s.metrics.filesAccessed := by
          rw [ToolOperation.record]
          cases hnoted : op.noted with
          | none => rfl
          | some noted =>
            have hkind : noted.2.tool ≠ .read := htool noted hnoted ▸ hread
            exact if_neg hkind
        simp [hsame, hnone]

/-- The check looks for what was read in the run, under the text of the read. -/
theorem contains_run {s : ToolState σ} {events : List (ToolEvent σ)} {path : String} :
    (run (step services env) s events).metrics.filesAccessed.contains path ↔
      s.metrics.filesAccessed.contains path ∨ path ∈ reads services env s events := by
  induction events generalizing s with
  | nil => simp [reads, outputs]
  | cons e events ih =>
    have hreads : reads services env s (e :: events) =
        (readPath services env s e).toList ++
          reads services env (step services env s e) events := by
      rw [reads, outputs, List.filterMap_cons]
      cases readPath services env s e <;> rfl
    rw [run_cons, ih, contains_step, or_assoc, hreads, List.mem_append, Option.mem_toList]

end Executor

/-! ### The check -/

/-- The file of the edit was read, under whatever text. -/
def ReadBefore (env : Environment) (reads : List String) (path : String) : Prop :=
  ∃ read ∈ reads, normalizePath env read = normalizePath env path

/-- The edit names the file by its absolute path, and it was read under a relative text only. -/
def SpelledRelative (env : Environment) (reads : List String) (path : String) : Prop :=
  isAbsolute path ∧ path ∉ reads ∧
    ∃ read ∈ reads, isAbsolute read = false ∧ normalizePath env read = path

section Check

variable {env : Environment} {reads : List String} {path : String}

theorem readBefore_of_mem (h : normalizePath env path ∈ reads ∨ path ∈ reads) :
    ReadBefore env reads path := by
  rcases h with h | h
  · exact ⟨_, h, normalizePath_of_isAbsolute isAbsolute_normalizePath⟩
  · exact ⟨_, h, rfl⟩

/-- The texts that the check looks up are those of a file that was read, unless it was read under
a relative text and is edited under the absolute one. -/
theorem mem_iff_readBefore_iff :
    ((normalizePath env path ∈ reads ∨ path ∈ reads) ↔ ReadBefore env reads path) ↔
      ¬ SpelledRelative env reads path := by
  constructor
  · rintro h ⟨habsolute, hnot, read, hread, -, hname⟩
    have hpath := @normalizePath_of_isAbsolute env _ habsolute
    rcases h.mpr ⟨read, hread, hname.trans hpath.symm⟩ with hmem | hmem
    · exact hnot (hpath ▸ hmem)
    · exact hnot hmem
  · intro h
    refine ⟨readBefore_of_mem, ?_⟩
    rintro ⟨read, hread, hname⟩
    cases hreadAbsolute : isAbsolute read with
    | true =>
      rw [normalizePath_of_isAbsolute hreadAbsolute] at hname
      exact .inl (hname ▸ hread)
    | false =>
      cases habsolute : isAbsolute path with
      | false => exact .inr (normalizePath_injective hreadAbsolute habsolute hname ▸ hread)
      | true =>
        rw [normalizePath_of_isAbsolute habsolute] at hname
        by_contra hnot
        exact h ⟨habsolute, fun hmem => hnot (.inr hmem), read, hread, hreadAbsolute, hname⟩

end Check

section Run

variable {σ : Type} {services : Services σ} [FileContents]

/-- After any run of a new conversation, the check passes for exactly the files that were read if
and only if the edit is not spelled as an absolute path that was read under a relative one. -/
theorem requirePriorRead_iff (env : Environment) (world : σ) (events : List (ToolEvent σ))
    (path : String) :
    let start : ToolState σ := { world := world, metrics := Metrics.default }
    let reads := Executor.reads services env start events
    (Executor.requirePriorRead env (run (Executor.step services env) start events).metrics path ↔
        ReadBefore env reads path) ↔
      ¬ SpelledRelative env reads path := by
  intro start reads
  have hstart (p : String) : ¬ start.metrics.filesAccessed.contains p := nofun
  rw [← mem_iff_readBefore_iff, Executor.requirePriorRead, Bool.or_eq_true, Executor.contains_run,
    Executor.contains_run, or_iff_right (hstart _), or_iff_right (hstart _)]

end Run

namespace RelativeRead

abbrev contents : FileContents where
  computeHash content := content
  linesAdded _ _ := 0
  linesRemoved _ _ := 0

/-- One file, which can be read and is not changed. -/
def services : Services Unit where
  read _ path _ _ := if path = "/w/src/a.rs" then some "hash" else none
  write s _ _ _ := (s, none)
  remove s _ := (s, none)
  patch s _ _ _ _ := (s, none)
  multiPatch s _ _ := (s, none)
  undo s _ := (s, none)
  other s _ := (s, false)

def env : Environment where
  cwd := "/w"
  absolute := isAbsolute_w
  resolved := resolve_w

def events : List (ToolEvent Unit) := [.call (.read ⟨"src/a.rs", none, none⟩) true]

/-- A file that was read under a relative text cannot be edited under its absolute path. -/
theorem not_requirePriorRead :
    letI := contents
    let start : ToolState Unit := { world := (), metrics := Metrics.default }
    ReadBefore env (Executor.reads services env start events) "/w/src/a.rs" ∧
      Executor.requirePriorRead env (run (Executor.step services env) start events).metrics
        "/w/src/a.rs" = false := by
  refine ⟨⟨"src/a.rs", by decide, by decide⟩, by decide⟩

end RelativeRead

end HeliosLite
