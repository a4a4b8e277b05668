import HeliosLite.Theory.Run
import Mathlib.Data.Finset.Card
import Mathlib.Data.Rat.Defs
import Mathlib.Algebra.Order.Field.Rat
import Mathlib.Tactic.Linarith

/-!
# Overlapping prompts

The detector keeps the last prompt of each agent in an index and raises an alert when a new prompt
overlaps with it. A call records the prompt first and compares afterwards, so that the prompt is
compared with itself.

## Main definitions

* `DriftIndex` — the hash and the words of each agent's last prompt
* `DriftDetector.observe` — a prompt is recorded and compared
* `lastPrompt`, `ShouldAlert` — what a call is to be compared with, from the calls before it

## Main results

* `index_run` — after a run the index holds the last prompt of each agent
* `alerts_iff` — whether a call alerts depends on the configuration only
* `alerts_rightly_iff` — the runs in which exactly the overlapping prompts alert
-/

namespace HeliosLite

open Theory

namespace Drift

/-! ### The index -/

section Index

variable (digest : List UInt8 → List UInt8) (toLowercase : String → String)
variable (isAlphanumeric : Char → Bool)

/-- The lower-cased alphanumeric words of at least three bytes. -/
def wordSet (prompt : String) : Finset String :=
  ((((toLowercase prompt).toList.splitOnP fun c => !isAlphanumeric c).map String.ofList).filter
    fun s => 3 ≤ s.utf8ByteSize).toFinset

structure AgentPromptIndex where
  promptSha : List UInt8
  words : Finset String

abbrev DriftIndex := String → Option AgentPromptIndex

namespace DriftIndex

def new : DriftIndex := fun _ => none

/-- What is kept of a prompt. -/
def entry (prompt : String) : AgentPromptIndex where
  promptSha := digest prompt.toUTF8.toList
  words := wordSet toLowercase isAlphanumeric prompt

def observe (index : DriftIndex) (agentId prompt : String) : DriftIndex :=
  Function.update index agentId (some (entry digest toLowercase isAlphanumeric prompt))

/-- The shared words among all words, of two sets of words. -/
def similarityOf (stored incoming : Finset String) : ℚ :=
  if (stored ∪ incoming).card = 0 then 1
  else (stored ∩ incoming).card / (stored ∪ incoming).card

def jaccard (index : DriftIndex) (agentId prompt : String) : Option ℚ :=
  (index agentId).map fun stored =>
    similarityOf stored.words (wordSet toLowercase isAlphanumeric prompt)

def isExactMatch (index : DriftIndex) (agentId prompt : String) : Bool :=
  match index agentId with
  | some stored => digest prompt.toUTF8.toList = stored.promptSha
  | none => false

end DriftIndex

end Index

/-! ### The detector -/

inductive Tier where
  | t0
  | t1
  | t2
  | t3
  deriving DecidableEq, Repr

inductive ApprovalMode where
  | off
  | alert
  | auto
  deriving DecidableEq, Repr

structure DriftConfig where
  tier : Tier := .t0
  threshold : ℚ := 80 / 100
  approvalMode : ApprovalMode := .alert
  deriving DecidableEq, Repr

inductive DriftEvent where
  | overlapAlert (id : UInt64) (agentId : String) (similarity : ℚ) (lane promptExcerpt : String)
  deriving DecidableEq, Repr

inductive SimilarityError where
  | provider (message : String)
  | serviceUnavailable
  deriving DecidableEq, Repr

/-- A provider scores a prompt for an agent, declines, or fails. -/
abbrev SimilarityProvider := String → String → Except SimilarityError (Option ℚ)

def hashOnlyProvider : SimilarityProvider := fun _ _ => .ok none

def localFallbackProvider : SimilarityProvider := fun _ _ => .ok none

def selectProvider : Tier → Option String → SimilarityProvider
  | .t0, _ => hashOnlyProvider
  | .t1, _ => hashOnlyProvider
  | .t2, _ => localFallbackProvider
  | .t3, _ => localFallbackProvider

/-- The detector, with the next id of an alert and the events sent to the subscribers. -/
structure DriftDetector where
  config : DriftConfig
  index : DriftIndex
  similarity : Option SimilarityProvider
  nextAlert : UInt64
  sent : List DriftEvent

/-- The arguments of a call. -/
structure Call where
  agentId : String
  prompt : String
  lane : String
  nowMs : Int64
  deriving DecidableEq, Repr

namespace DriftDetector

def new (config : DriftConfig) (index : DriftIndex) (similarity : Option SimilarityProvider)
    (nextAlert : UInt64) : DriftDetector :=
  ⟨config, index, similarity, nextAlert, []⟩

/-- The alert is sent and returned. -/
def emit (d : DriftDetector) (call : Call) (similarity : ℚ) : Option DriftEvent × DriftDetector :=
  let ev := .overlapAlert d.nextAlert call.agentId similarity call.lane
    (String.ofList (call.prompt.toList.take 80))
  (some ev, { d with nextAlert := d.nextAlert + 1, sent := d.sent ++ [ev] })

def emitIfAbove (d : DriftDetector) (call : Call) (similarity : ℚ) :
    Option DriftEvent × DriftDetector :=
  if similarity < d.config.threshold then (none, d) else d.emit call similarity

section Observe

variable (digest : List UInt8 → List UInt8) (toLowercase : String → String)
variable (isAlphanumeric : Char → Bool)

def tier0OrHigher (d : DriftDetector) (call : Call) : Option DriftEvent × DriftDetector :=
  if d.index.isExactMatch digest call.agentId call.prompt then d.emit call 1 else (none, d)

def jaccardFallback (d : DriftDetector) (call : Call) : Option DriftEvent × DriftDetector :=
  d.emitIfAbove call
    ((d.index.jaccard toLowercase isAlphanumeric call.agentId call.prompt).getD 0)

/-- The prompt is recorded, and then compared with what the index holds. -/
def observe (d : DriftDetector) (call : Call) : Option DriftEvent × DriftDetector :=
  if d.config.approvalMode = .off then (none, d)
  else
    let d := { d with
      index := d.index.observe digest toLowercase isAlphanumeric call.agentId call.prompt }
    if d.config.tier = .t0 then d.tier0OrHigher digest call
    else
      let sim : Option (Except SimilarityError (Option ℚ)) :=
        d.similarity.map fun provider => provider call.agentId call.prompt
      match sim with
      | some (.ok (some score)) => d.emitIfAbove call score
      -- the provider declined or failed
      | some (.ok none) => d.jaccardFallback toLowercase isAlphanumeric call
      | some (.error _) => d.jaccardFallback toLowercase isAlphanumeric call
      | none => d.jaccardFallback toLowercase isAlphanumeric call

/-- The detector after a call. -/
def step (d : DriftDetector) (call : Call) : DriftDetector :=
  (d.observe digest toLowercase isAlphanumeric call).2

/-- The call returns an alert. -/
def Alerts (d : DriftDetector) (call : Call) : Prop :=
  (d.observe digest toLowercase isAlphanumeric call).1.isSome

instance (d : DriftDetector) (call : Call) :
    Decidable (d.Alerts digest toLowercase isAlphanumeric call) :=
  inferInstanceAs (Decidable (_ = true))

end Observe

end DriftDetector

/-! ### What a call is to be compared with -/

/-- The last prompt of an agent in the calls. -/
def lastPrompt (calls : List Call) (agentId : String) : Option String :=
  (calls.findRev? fun call => call.agentId = agentId).map Call.prompt

theorem lastPrompt_concat (calls : List Call) (call : Call) (agentId : String) :
    lastPrompt (calls ++ [call]) agentId =
      if call.agentId = agentId then some call.prompt else lastPrompt calls agentId := by
  rw [lastPrompt, lastPrompt, List.findRev?_eq_find?_reverse, List.findRev?_eq_find?_reverse,
    List.reverse_append, List.reverse_singleton, List.singleton_append, List.find?_cons]
  by_cases hagent : call.agentId = agentId
  · simp [hagent]
  · simp [hagent]

section Expected

variable (toLowercase : String → String) (isAlphanumeric : Char → Bool)

/-- The prompt of the call is close enough to the one before it of the same agent. -/
def ShouldAlert (config : DriftConfig) (before : List Call) (call : Call) : Prop :=
  ∃ earlier ∈ lastPrompt before call.agentId,
    if config.tier = .t0 then call.prompt = earlier
    else config.threshold ≤ DriftIndex.similarityOf (wordSet toLowercase isAlphanumeric earlier)
      (wordSet toLowercase isAlphanumeric call.prompt)

end Expected

/-! ### Similarity -/

theorem similarityOf_self (words : Finset String) : DriftIndex.similarityOf words words = 1 := by
  rw [DriftIndex.similarityOf, Finset.union_idempotent, Finset.inter_self]
  split_ifs with hempty
  · rfl
  · exact div_self (Nat.cast_ne_zero.mpr hempty)

theorem similarityOf_le_one (stored incoming : Finset String) :
    DriftIndex.similarityOf stored incoming ≤ 1 := by
  rw [DriftIndex.similarityOf]
  split_ifs with hempty
  · exact le_rfl
  · have hcard : (stored ∩ incoming).card ≤ (stored ∪ incoming).card :=
      Finset.card_le_card (Finset.inter_subset_left.trans Finset.subset_union_left)
    exact div_le_one_of_le₀ (Nat.cast_le.mpr hcard) (Nat.cast_nonneg _)

/-! ### What the calls do -/

namespace DriftDetector

variable {digest : List UInt8 → List UInt8} {toLowercase : String → String}
variable {isAlphanumeric : Char → Bool} {d : DriftDetector}

@[simp] theorem emit_index (call : Call) (similarity : ℚ) :
    (d.emit call similarity).2.index = d.index := rfl

@[simp] theorem emit_config (call : Call) (similarity : ℚ) :
    (d.emit call similarity).2.config = d.config := rfl

@[simp] theorem emit_similarity (call : Call) (similarity : ℚ) :
    (d.emit call similarity).2.similarity = d.similarity := rfl

/-- Without a provider the prompt is compared with the entry that it has just become. -/
theorem observe_eq (hmode : d.config.approvalMode ≠ .off) (hprovider : d.similarity = none)
    (call : Call) :
    d.observe digest toLowercase isAlphanumeric call =
      if d.config.tier = .t0 ∨ d.config.threshold ≤ 1 then
        emit { d with
          index := d.index.observe digest toLowercase isAlphanumeric call.agentId call.prompt }
          call 1
      else
        (none, { d with
          index :=
            d.index.observe digest toLowercase isAlphanumeric call.agentId call.prompt }) := by
  have hentry : d.index.observe digest toLowercase isAlphanumeric call.agentId call.prompt
      call.agentId = some (DriftIndex.entry digest toLowercase isAlphanumeric call.prompt) :=
    Function.update_self ..
  rw [observe, if_neg hmode]
  by_cases htier : d.config.tier = .t0
  · simp only [tier0OrHigher, DriftIndex.isExactMatch, hentry, DriftIndex.entry, decide_true,
      if_true, htier, true_or]
  · simp only [hprovider, Option.map_none, jaccardFallback, emitIfAbove, DriftIndex.jaccard, hentry,
      Option.map_some, Option.getD_some, DriftIndex.entry, similarityOf_self, htier, false_or,
      if_false]
    by_cases hthreshold : d.config.threshold ≤ 1
    · rw [if_pos hthreshold, if_neg (not_lt.mpr hthreshold)]
    · rw [if_neg hthreshold, if_pos (not_le.mp hthreshold)]

/-- The configuration alone decides whether a call alerts. -/
theorem alerts_iff (hmode : d.config.approvalMode ≠ .off) (hprovider : d.similarity = none)
    (call : Call) :
    d.Alerts digest toLowercase isAlphanumeric call ↔
      d.config.tier = .t0 ∨ d.config.threshold ≤ 1 := by
  rw [Alerts, observe_eq hmode hprovider]
  split_ifs with h
  · exact iff_of_true rfl h
  · exact iff_of_false (by simp) h

/-- The configuration, without a provider. -/
def Configured (config : DriftConfig) (d : DriftDetector) : Prop :=
  d.config = config ∧ d.similarity = none

section Run

variable (hmode : d.config.approvalMode ≠ .off) (hprovider : d.similarity = none)

include hmode hprovider

theorem step_index (call : Call) :
    (d.step digest toLowercase isAlphanumeric call).index =
      d.index.observe digest toLowercase isAlphanumeric call.agentId call.prompt := by
  rw [step, observe_eq hmode hprovider]
  split_ifs <;> rfl

theorem step_config (call : Call) :
    (d.step digest toLowercase isAlphanumeric call).config = d.config := by
  rw [step, observe_eq hmode hprovider]
  split_ifs <;> rfl

theorem step_similarity (call : Call) :
    (d.step digest toLowercase isAlphanumeric call).similarity = none := by
  rw [step, observe_eq hmode hprovider]
  split_ifs <;> exact hprovider

theorem run_configured (calls : List Call) :
    Configured d.config (run (step digest toLowercase isAlphanumeric) d calls) := by
  refine run_induction (fun d' call h => ?_) ⟨rfl, hprovider⟩ calls
  have hmode' : d'.config.approvalMode ≠ .off := h.1 ▸ hmode
  exact ⟨(step_config hmode' h.2 call).trans h.1, step_similarity hmode' h.2 call⟩

/-- The index holds the last prompt of each agent that has called. -/
theorem index_run (calls : List Call) (agentId : String) :
    (run (step digest toLowercase isAlphanumeric) d calls).index agentId =
      ((lastPrompt calls agentId).map
        (DriftIndex.entry digest toLowercase isAlphanumeric)).or (d.index agentId) := by
  induction calls using List.reverseRecOn with
  | nil => rfl
  | append_singleton calls call ih =>
    obtain ⟨hconfig, hsimilarity⟩ :
        Configured d.config (run (step digest toLowercase isAlphanumeric) d calls) :=
      run_configured hmode hprovider calls
    rw [← hconfig] at hmode
    rw [run_append, run_cons, run_nil, step_index hmode hsimilarity, DriftIndex.observe,
      lastPrompt_concat]
    by_cases hagent : agentId = call.agentId
    · rw [hagent, Function.update_self, if_pos rfl]
      rfl
    · rw [Function.update_of_ne hagent, ih, if_neg (Ne.symm hagent)]

end Run

/-- Which runs of a detector with an empty index alert exactly on the overlapping prompts: none
but the empty run, unless no similarity reaches the threshold. -/
theorem alerts_rightly_iff (digest : List UInt8 → List UInt8) (toLowercase : String → String)
    (isAlphanumeric : Char → Bool) {config : DriftConfig} (hmode : config.approvalMode ≠ .off)
    (nextAlert : UInt64) (calls : List Call) :
    (∀ before call, before ++ [call] <+: calls →
      ((run (step digest toLowercase isAlphanumeric)
        (new config DriftIndex.new none nextAlert) before).Alerts
          digest toLowercase isAlphanumeric call ↔
        ShouldAlert toLowercase isAlphanumeric config before call)) ↔
    calls = [] ∨ (config.tier ≠ .t0 ∧ 1 < config.threshold) := by
  set d := new config DriftIndex.new none nextAlert
  have halerts : ∀ before call, (run (step digest toLowercase isAlphanumeric) d before).Alerts
      digest toLowercase isAlphanumeric call ↔ config.tier = .t0 ∨ config.threshold ≤ 1 := by
    intro before call
    have hrun : Configured config (run (step digest toLowercase isAlphanumeric) d before) :=
      run_configured hmode rfl before
    rw [alerts_iff (hrun.1 ▸ hmode) hrun.2, hrun.1]
  simp only [halerts]
  constructor
  · intro hrightly
    rcases calls with _ | ⟨call, calls⟩
    · exact .inl rfl
    · -- the first call has nothing to be compared with
      have hfirst := hrightly [] call ⟨calls, rfl⟩
      have hquiet : ¬ (config.tier = .t0 ∨ config.threshold ≤ 1) := fun h => by
        obtain ⟨earlier, hearlier, -⟩ := hfirst.mp h
        exact Option.not_mem_none earlier hearlier
      rw [not_or, not_le] at hquiet
      exact .inr hquiet
  · rintro (rfl | ⟨htier, hthreshold⟩) before call hinitial
    · exact absurd (List.prefix_nil.mp hinitial) (by simp)
    · refine iff_of_false (not_or.mpr ⟨htier, not_le.mpr hthreshold⟩) ?_
      rintro ⟨earlier, -, hclose⟩
      rw [if_neg htier] at hclose
      exact absurd (hthreshold.trans_le hclose) (not_lt.mpr (similarityOf_le_one _ _))

end DriftDetector

/-- The providers that can be selected leave the comparison to the index. -/
theorem selectProvider_eq (tier : Tier) (url : Option String) (agentId prompt : String) :
    selectProvider tier url agentId prompt = .ok none := by
  cases tier <;> rfl

/-- With a provider that can be selected the calls alert as they do without one. -/
theorem alerts_selectProvider (digest : List UInt8 → List UInt8) (toLowercase : String → String)
    (isAlphanumeric : Char → Bool) (d : DriftDetector) (tier : Tier) (url : Option String)
    (call : Call) :
    DriftDetector.Alerts digest toLowercase isAlphanumeric
        { d with similarity := some (selectProvider tier url) } call ↔
      DriftDetector.Alerts digest toLowercase isAlphanumeric
        { d with similarity := none } call := by
  simp only [DriftDetector.Alerts, DriftDetector.observe, Option.map_some, Option.map_none,
    selectProvider_eq, DriftDetector.tier0OrHigher, DriftDetector.jaccardFallback,
    DriftDetector.emitIfAbove]
  split_ifs <;> rfl

namespace FirstPrompt

def call : Call := ⟨"alice", "create a user profile endpoint", "api", 0⟩

theorem alerts_rightly_iff_one :
    (∀ before call', before ++ [call'] <+: [call] →
      ((run (DriftDetector.step id id Char.isAlphanum)
        (DriftDetector.new {} DriftIndex.new none 1) before).Alerts id id Char.isAlphanum call' ↔
        ShouldAlert id Char.isAlphanum {} before call')) ↔
    [call] = [] ∨ (({} : DriftConfig).tier ≠ .t0 ∧ 1 < ({} : DriftConfig).threshold) :=
  DriftDetector.alerts_rightly_iff id id Char.isAlphanum (by decide) 1 [call]

/-- The first prompt of an agent alerts. -/
theorem not_alerts_rightly :
    ¬ ((DriftDetector.new {} DriftIndex.new none 1).Alerts id id Char.isAlphanum call ↔
      ShouldAlert id Char.isAlphanum {} [] call) := by
  have hnothing : ¬ ShouldAlert id Char.isAlphanum {} [] call := by
    rintro ⟨earlier, hearlier, -⟩
    exact Option.not_mem_none earlier hearlier
  have halerts : (DriftDetector.new {} DriftIndex.new none 1).Alerts id id Char.isAlphanum call :=
    (DriftDetector.alerts_iff (by decide) rfl call).mpr (.inl rfl)
  exact fun h => hnothing (h.mp halerts)

end FirstPrompt

end Drift

end HeliosLite
