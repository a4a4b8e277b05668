import Mathlib.Data.List.Dedup
import Mathlib.Data.List.Nodup
import HeliosLite.Orchestration.ToolCalls
import HeliosLite.Theory.Entries

/-!
# The count of failures by tool

A round of results raises the count of every tool that failed in it by one and takes back the
count of every tool that succeeded and did not fail.

## Main definitions

* `ToolErrorTracker.new`, `ToolErrorTracker.ofRounds` — the tracker at the start and after
  some rounds
* `failuresSince` — the rounds in which a tool failed since it last succeeded without failing

## Main results

* `errorCount_ofRounds` — the count is that number of rounds
* `limitReached_iff` — the limit is reached by a tool whose count is positive and at least the limit
-/

namespace HeliosLite

/-- The tool failed in the round. -/
def FailsIn (tool : String) (round : List Record) : Prop :=
  ∃ record ∈ round, record.2.name = tool ∧ record.2.output.isError = true

/-- The tool succeeded in the round and did not fail in it. -/
def SucceedsIn (tool : String) (round : List Record) : Prop :=
  (∃ record ∈ round, record.2.name = tool ∧ record.2.output.isError = false) ∧
    ¬ FailsIn tool round

instance (tool : String) (round : List Record) : Decidable (FailsIn tool round) := by
  unfold FailsIn
  infer_instance

instance (tool : String) (round : List Record) : Decidable (SucceedsIn tool round) := by
  unfold SucceedsIn
  infer_instance

/-- In how many rounds the tool failed since the last one in which it succeeded without
failing. -/
def failuresSince (tool : String) (rounds : List (List Record)) : ℕ :=
  (rounds.reverse.takeWhile fun round => ¬ SucceedsIn tool round).countP (FailsIn tool)

theorem failuresSince_concat (tool : String) (rounds : List (List Record)) (round : List Record) :
    failuresSince tool (rounds ++ [round]) =
      if SucceedsIn tool round then 0
      else failuresSince tool rounds + if FailsIn tool round then 1 else 0 := by
  unfold failuresSince
  rw [List.reverse_append, List.reverse_singleton, List.singleton_append, List.takeWhile_cons]
  by_cases hsucceeds : SucceedsIn tool round
  · simp [hsucceeds]
  · simp [hsucceeds, List.countP_cons]

namespace ToolErrorTracker

def new (limit : ℕ) : ToolErrorTracker where
  errors := []
  limit := limit

/-- The tracker after some rounds of results. -/
def ofRounds (limit : ℕ) (rounds : List (List Record)) : ToolErrorTracker :=
  rounds.foldl adjustRecord (new limit)

variable {self : ToolErrorTracker} {tool : String}

/-! ### Counts -/

theorem lookup_filter_key (p : String → Bool) (l : List (String × ℕ)) (tool : String) :
    (l.filter fun entry => p entry.1).lookup tool = if p tool then l.lookup tool else none := by
  induction l with
  | nil => simp
  | cons entry l ih =>
    obtain ⟨key, count⟩ := entry
    by_cases hkey : tool = key
    · subst hkey
      cases hp : p tool <;> simp [hp, ih]
    · have hbeq : (tool == key) = false := beq_eq_false_iff_ne.mpr hkey
      cases hp : p key <;> simp [hp, ih, hbeq, List.lookup_cons]

theorem errorCount_failed (self : ToolErrorTracker) (failure tool : String) :
    (self.failed failure).errorCount tool =
      self.errorCount tool + if tool = failure then 1 else 0 := by
  have hother := lookup_filter_key (fun key => key ≠ failure) self.errors tool
  unfold failed errorCount
  by_cases htool : tool = failure
  · subst htool
    simp
  · have hbeq : (tool == failure) = false := beq_eq_false_iff_ne.mpr htool
    simp only [List.lookup_cons, hbeq, hother]
    simp [htool]

theorem errorCount_foldl_failed {failures : List String} (h : failures.Nodup) :
    (failures.foldl failed self).errorCount tool =
      self.errorCount tool + if tool ∈ failures then 1 else 0 := by
  induction failures generalizing self with
  | nil => simp
  | cons failure failures ih =>
    obtain ⟨hnot, hrest⟩ := List.nodup_cons.mp h
    rw [List.foldl_cons, ih hrest, errorCount_failed]
    by_cases htool : tool = failure
    · subst htool
      simp [hnot]
    · simp [htool]

theorem errorCount_adjust (self : ToolErrorTracker) (failures successes : List String)
    (tool : String) :
    (self.adjust failures successes).errorCount tool =
      if tool ∈ successes ∧ tool ∉ failures then 0
      else self.errorCount tool + if tool ∈ failures then 1 else 0 := by
  have hcounted : (failures.dedup.foldl failed self).errorCount tool =
      self.errorCount tool + if tool ∈ failures then 1 else 0 := by
    rw [errorCount_foldl_failed (List.nodup_dedup failures)]
    simp only [List.mem_dedup]
  have hfilter := lookup_filter_key
    (fun key => !(successes.contains key && !failures.contains key))
    (failures.dedup.foldl failed self).errors tool
  rw [← hcounted]
  unfold adjust errorCount
  rw [hfilter]
  by_cases hclear : tool ∈ successes ∧ tool ∉ failures
  · simp [hclear]
  · rw [if_neg hclear, if_pos (by simpa [or_iff_not_imp_left] using hclear)]

theorem errorCount_adjustRecord (self : ToolErrorTracker) (round : List Record) (tool : String) :
    (self.adjustRecord round).errorCount tool =
      if SucceedsIn tool round then 0
      else self.errorCount tool + if FailsIn tool round then 1 else 0 := by
  have hfails : tool ∈ (round.filter (·.2.output.isError)).map (·.2.name) ↔ FailsIn tool round := by
    simp only [FailsIn, List.mem_map, List.mem_filter]
    grind
  have hsucceeds : tool ∈ (round.filter (!·.2.output.isError)).map (·.2.name) ∧
      ¬ FailsIn tool round ↔ SucceedsIn tool round := by
    rw [SucceedsIn]
    refine and_congr_left fun _ => ?_
    simp only [List.mem_map, List.mem_filter, Bool.not_eq_true']
    grind
  unfold adjustRecord
  rw [errorCount_adjust]
  simp only [hfails, hsucceeds]

/-- The count of a tool is the number of rounds in which it failed since it last succeeded
without failing. -/
theorem errorCount_ofRounds (limit : ℕ) (rounds : List (List Record)) (tool : String) :
    (ofRounds limit rounds).errorCount tool = failuresSince tool rounds := by
  induction rounds using List.reverseRecOn with
  | nil => rfl
  | append_singleton rounds round ih =>
    have hlast : ofRounds limit (rounds ++ [round]) =
        (ofRounds limit rounds).adjustRecord round := List.foldl_append
    rw [hlast, errorCount_adjustRecord, failuresSince_concat, ih]

/-! ### The limit -/

/-- Each tool has one entry, whose count is positive. -/
structure Counted (tracker : ToolErrorTracker) : Prop where
  nodup : (tracker.errors.map Prod.fst).Nodup
  pos : ∀ entry ∈ tracker.errors, 0 < entry.2

theorem Counted.failed (h : self.Counted) (failure : String) : (self.failed failure).Counted := by
  refine ⟨?_, fun entry hentry => ?_⟩
  · change (failure :: (self.errors.filter (·.1 ≠ failure)).map Prod.fst).Nodup
    refine List.nodup_cons.mpr ⟨?_, h.nodup.sublist (List.filter_sublist.map _)⟩
    simp
  · rcases List.mem_cons.mp hentry with rfl | hold
    · exact Nat.succ_pos _
    · exact h.pos entry (List.mem_filter.mp hold).1

theorem Counted.foldl_failed (h : self.Counted) (failures : List String) :
    (failures.foldl ToolErrorTracker.failed self).Counted := by
  induction failures generalizing self with
  | nil => exact h
  | cons failure failures ih => exact ih (h.failed failure)

theorem Counted.adjustRecord (h : self.Counted) (round : List Record) :
    (self.adjustRecord round).Counted := by
  have hcounted := h.foldl_failed ((round.filter (·.2.output.isError)).map (·.2.name)).dedup
  exact ⟨hcounted.nodup.sublist (List.filter_sublist.map _),
    fun entry hentry => hcounted.pos entry (List.mem_filter.mp hentry).1⟩

theorem counted_ofRounds (limit : ℕ) (rounds : List (List Record)) :
    (ofRounds limit rounds).Counted := by
  induction rounds using List.reverseRecOn with
  | nil => exact ⟨List.nodup_nil, fun entry hentry => absurd hentry List.not_mem_nil⟩
  | append_singleton rounds round ih =>
    unfold ofRounds
    rw [List.foldl_append]
    exact ih.adjustRecord round

theorem limit_ofRounds (limit : ℕ) (rounds : List (List Record)) :
    (ofRounds limit rounds).limit = limit := by
  have hfailed : ∀ (failures : List String) (self : ToolErrorTracker),
      (failures.foldl failed self).limit = self.limit := by
    intro failures
    induction failures with
    | nil => exact fun _ => rfl
    | cons failure failures ih => exact fun self => ih (self.failed failure)
  induction rounds using List.reverseRecOn with
  | nil => rfl
  | append_singleton rounds round ih =>
    unfold ofRounds
    rw [List.foldl_append]
    exact (hfailed _ _).trans ih

/-- The limit is reached by a tool that has failed, and at least as often as is allowed. -/
theorem Counted.limitReached_iff (h : self.Counted) :
    self.limitReached = true ↔
      ∃ tool, 0 < self.errorCount tool ∧ self.limit ≤ self.errorCount tool := by
  unfold limitReached
  rw [List.any_eq_true]
  constructor
  · rintro ⟨⟨tool, count⟩, hentry, hlimit⟩
    have hlookup : self.errors.lookup tool = some count := Theory.lookup_of_mem h.nodup hentry
    refine ⟨tool, ?_, ?_⟩
    · simpa [errorCount, hlookup] using h.pos _ hentry
    · simpa [errorCount, hlookup] using hlimit
  · rintro ⟨tool, hpos, hlimit⟩
    unfold errorCount at hpos hlimit
    cases hlookup : self.errors.lookup tool with
    | none => simp [hlookup] at hpos
    | some count =>
      rw [hlookup] at hlimit
      exact ⟨(tool, count), Theory.mem_of_lookup hlookup, by simpa using hlimit⟩

/-- The counts of a tracker after any rounds, the limit and the attempts left. -/
theorem tracks_rounds (limit : ℕ) (rounds : List (List Record)) :
    (∀ tool, (ofRounds limit rounds).errorCount tool = failuresSince tool rounds) ∧
      ((ofRounds limit rounds).limitReached = true ↔
        ∃ tool, 0 < (ofRounds limit rounds).errorCount tool ∧
          limit ≤ (ofRounds limit rounds).errorCount tool) ∧
      ∀ tool, (ofRounds limit rounds).remainingAttempts tool =
        limit - (ofRounds limit rounds).errorCount tool := by
  have hlimit := limit_ofRounds limit rounds
  refine ⟨errorCount_ofRounds limit rounds, ?_, fun tool => ?_⟩
  · rw [(counted_ofRounds limit rounds).limitReached_iff, hlimit]
  · rw [remainingAttempts, hlimit]

/-- With no failures allowed the limit is not reached before a tool fails, although every count
is at least the limit. -/
theorem limit_zero :
    ¬ ((ofRounds 0 []).limitReached = true ↔ ∃ tool, 0 ≤ (ofRounds 0 []).errorCount tool) := by
  intro h
  exact absurd (h.mpr ⟨"read", le_rfl⟩) (by decide)

end ToolErrorTracker

end HeliosLite
