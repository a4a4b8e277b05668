import HeliosLite.Compaction.Range
import HeliosLite.Serde.Text

/-!
# Importance of messages

Messages have an importance score, and a strategy may protect those that reach a threshold
from eviction. The range of a compaction is then cut off in front of the last protected
message in it. Other protected messages in front of that one stay in the range.

## Main definitions

* `MessageImportance.from` — the score of a message and what contributes to it
* `CompactionStrategy.evictionRangeWithImportance` — the range cut off in front of the last
  protected message
* `SparesProtected` — no message of the range is protected, and the range is within the
  one found without importance

## Main results

* `evictionRangeWithImportance_spares_iff` — the range spares the protected messages exactly
  when its last message is one, or there is at most one and the context does not open with it
-/

namespace HeliosLite

open Serde

/-- What contributes to the importance of a message. -/
inductive ImportanceFactor where
  | hasToolCalls
  | hasToolResults
  | hasErrors
  | hasFileChanges
  | hasShellExecution
  | hasSearchOperations
  | hasReasoning
  | hasUserIntent
  | hasDecision
  | systemMessage
  deriving DecidableEq, Repr

structure MessageImportance where
  score : UInt8
  factors : List ImportanceFactor
  deriving DecidableEq, Repr

namespace MessageImportance

def baseScore : UInt8 := 50

/-- What the tool calls of a message of the assistant add. -/
def addToolCalls (calls : List ToolCallFull) (importance : MessageImportance) :
    MessageImportance :=
  let calls := calls.map (·.name)
  let importance : MessageImportance :=
    ⟨importance.score + 20, importance.factors ++ [.hasToolCalls]⟩
  let importance : MessageImportance :=
    if calls.any fun name => name ∈ ["write", "patch", "remove", "fs_write"] then
      ⟨importance.score + 10, importance.factors ++ [.hasFileChanges]⟩
    else importance
  let importance : MessageImportance :=
    if calls.any fun name => name = "shell" then
      ⟨importance.score + 5, importance.factors ++ [.hasShellExecution]⟩
    else importance
  if calls.any fun name => name ∈ ["fs_search", "sem_search"] then
    ⟨importance.score + 5, importance.factors ++ [.hasSearchOperations]⟩
  else importance

/-- The importance of a text message. -/
def ofText (message : TextMessage) : MessageImportance :=
  match message.role with
  | .system => ⟨30, [.systemMessage]⟩
  | .user => ⟨60, [.hasUserIntent]⟩
  | .assistant =>
    let importance : MessageImportance := ⟨baseScore, []⟩
    let importance := match message.toolCalls with
      | some calls => importance.addToolCalls calls
      | none => importance
    let importance : MessageImportance :=
      if message.reasoningDetails.isSome then
        ⟨importance.score + 10, importance.factors ++ [.hasReasoning]⟩
      else importance
    -- Content length can indicate importance
    if 500 < message.content.utf8ByteSize then
      ⟨importance.score + 5, importance.factors⟩
    else importance
  | .tool =>
    ⟨if 200 < message.content.utf8ByteSize then 55 + 5 else 55, [.hasToolResults]⟩

/-- The importance of a message, at most 100. -/
def «from» (message : ContextMessage) : MessageImportance :=
  let importance : MessageImportance := match message with
    | .text message => ofText message
    | .tool result =>
      if result.output.isError then ⟨100, [.hasErrors]⟩ else ⟨55, [.hasToolResults]⟩
    | .image _ => ⟨30, []⟩
  ⟨min importance.score 100, importance.factors⟩

end MessageImportance

/-- How important a message has to be to be protected from eviction. -/
structure ImportanceEvictionStrategy where
  protectionThreshold : UInt8
  enabled : Bool

namespace ImportanceEvictionStrategy

/-- An enabled strategy with the threshold. -/
def new (protectionThreshold : UInt8) : ImportanceEvictionStrategy :=
  { protectionThreshold := protectionThreshold, enabled := true }

def isProtected (self : ImportanceEvictionStrategy) (importance : MessageImportance) : Bool :=
  if !self.enabled then false else self.protectionThreshold ≤ importance.score

/-- Whether there is a message at the index and it is protected. -/
def protects (self : ImportanceEvictionStrategy) (messages : List MessageEntry) (index : ℕ) :
    Bool :=
  messageAt messages index fun message => self.isProtected (.from message)

end ImportanceEvictionStrategy

/-- The scan for protected messages, back over the `n` indices from `start` on: the end of the
range in front of the first that is met, or none if that is `last`. -/
def protectedEnd (isProtected : ℕ → Bool) (start last : ℕ) : ℕ → Option ℕ
  | 0 => some last
  | n + 1 =>
    if isProtected (start + n) then
      if start + n = last then none else some (start + n - 1)
    else protectedEnd isProtected start last n

/-- The range of messages to replace, cut off in front of the last protected message. -/
def CompactionStrategy.evictionRangeWithImportance [JsonText] (strategy : CompactionStrategy)
    (context : Context) (importance : ImportanceEvictionStrategy) : Option (ℕ × ℕ) :=
  if !importance.enabled then strategy.evictionRange context
  else
    match strategy.evictionRange context with
    | none => none
    | some (start, last) =>
      match protectedEnd (importance.protects context.messages) start last (last + 1 - start) with
      | none => none
      | some last => if start ≤ last then some (start, last) else none

/-- No message of the range with importance is protected, and that range is within the one
found without. -/
def SparesProtected [JsonText] (strategy : CompactionStrategy) (context : Context)
    (importance : ImportanceEvictionStrategy) : Prop :=
  ∀ start last, strategy.evictionRangeWithImportance context importance = some (start, last) →
    (∀ i, start ≤ i → i ≤ last → importance.protects context.messages i = false) ∧
      ∃ first end_, strategy.evictionRange context = some (first, end_) ∧
        first ≤ start ∧ last ≤ end_

/-! ### The scan -/

section Scan

variable {isProtected : ℕ → Bool} {start last : ℕ}

/-- The scan passes over all indices, or ends at the last one that is protected. -/
theorem protectedEnd_cases (isProtected : ℕ → Bool) (start last n : ℕ) :
    ((∀ i, start ≤ i → i < start + n → isProtected i = false) ∧
      protectedEnd isProtected start last n = some last) ∨
    ∃ i, start ≤ i ∧ i < start + n ∧ isProtected i ∧
      (∀ j, i < j → j < start + n → isProtected j = false) ∧
      protectedEnd isProtected start last n = if i = last then none else some (i - 1) := by
  induction n with
  | zero => exact Or.inl ⟨fun i hle hlt => absurd hle (by omega), rfl⟩
  | succ n ih =>
    rw [protectedEnd]
    by_cases hprotected : isProtected (start + n) = true
    · rw [if_pos hprotected]
      exact Or.inr ⟨start + n, by omega, by omega, hprotected, fun j hj hlt => by omega, rfl⟩
    · rw [if_neg hprotected]
      rw [Bool.not_eq_true] at hprotected
      have hlast : ∀ j, ¬ j < start + n → j < start + (n + 1) → isProtected j = false := by
        intro j hge hlt
        obtain rfl : j = start + n := by omega
        exact hprotected
      rcases ih with ⟨hnone, hend⟩ | ⟨i, hle, hlt, hi, hnone, hend⟩
      · refine Or.inl ⟨fun j hj hlt => ?_, hend⟩
        by_cases hbefore : j < start + n
        · exact hnone j hj hbefore
        · exact hlast j hbefore hlt
      · refine Or.inr ⟨i, hle, by omega, hi, fun j hj hlt => ?_, hend⟩
        by_cases hbefore : j < start + n
        · exact hnone j hj hbefore
        · exact hlast j hbefore hlt

/-- The last index of the range is protected, or at most one is and that is not the first
message of all. -/
def CutSuffices (isProtected : ℕ → Bool) (start last : ℕ) : Prop :=
  isProtected last ∨
    (∀ i j, start ≤ i → i < j → j ≤ last → ¬ (isProtected i ∧ isProtected j)) ∧
      (start = 0 → isProtected 0 = false)

/-- The indices from `start` to the end that the scan finds are not protected exactly when
one cut suffices. -/
theorem protectedEnd_spares_iff (hle : start ≤ last) :
    (∀ out, protectedEnd isProtected start last (last + 1 - start) = some out → start ≤ out →
      (∀ i, start ≤ i → i ≤ out → isProtected i = false) ∧ out ≤ last) ↔
    CutSuffices isProtected start last := by
  rcases protectedEnd_cases isProtected start last (last + 1 - start) with
    ⟨hnone, hend⟩ | ⟨p, hp, hplast, hprotected, hnone, hend⟩
  · rw [hend, CutSuffices]
    have hall : ∀ i, start ≤ i → i ≤ last → isProtected i = false :=
      fun i hi hilast => hnone i hi (by omega)
    refine ⟨fun _ => Or.inr ⟨fun i j hi hj hjlast hboth => ?_, fun hzero => ?_⟩,
      fun _ out hout _ => ?_⟩
    · rw [hall i hi (by omega)] at hboth
      exact Bool.noConfusion hboth.1
    · exact hall 0 (by omega) (by omega)
    · obtain rfl := Option.some.inj hout
      exact ⟨hall, le_rfl⟩
  · rw [hend, CutSuffices]
    by_cases hpl : p = last
    · rw [if_pos hpl, ← hpl]
      exact ⟨fun _ => Or.inl hprotected, fun _ out hout => nomatch hout⟩
    · rw [if_neg hpl]
      have hlast : isProtected last = false := hnone last (by omega) (by omega)
      constructor
      · intro h
        refine Or.inr ⟨fun i j hi hj hjlast hboth => ?_, fun hzero => ?_⟩
        · have hjp : j ≤ p := by
            by_contra hlt
            rw [hnone j (by omega) (by omega)] at hboth
            exact Bool.noConfusion hboth.2
          have hspared := (h (p - 1) rfl (by omega)).1 i hi (by omega)
          rw [hspared] at hboth
          exact Bool.noConfusion hboth.1
        · by_contra hzeroProtected
          rw [Bool.not_eq_false] at hzeroProtected
          have hspared := (h (p - 1) rfl (by omega)).1 0 (by omega) (by omega)
          rw [hzeroProtected] at hspared
          exact Bool.noConfusion hspared
      · rintro (hl | ⟨hone, hzero⟩) out hout hstart
        · rw [hlast] at hl
          exact Bool.noConfusion hl
        · obtain rfl := Option.some.inj hout
          refine ⟨fun i hi hip => ?_, by omega⟩
          by_contra hiProtected
          rw [Bool.not_eq_false] at hiProtected
          by_cases hlt : i < p
          · exact hone i p hi hlt (by omega) ⟨hiProtected, hprotected⟩
          · -- the range in front of the first message of all is that message again
            obtain rfl : i = 0 := by omega
            rw [hzero (by omega)] at hiProtected
            exact Bool.noConfusion hiProtected

end Scan

/-- A range that the strategy finds is not empty. -/
theorem evictionRange_le [JsonText] {strategy : CompactionStrategy} {context : Context}
    {start last : ℕ} (hfound : strategy.evictionRange context = some (start, last)) :
    start ≤ last := by
  rw [CompactionStrategy.evictionRange] at hfound
  rcases findsSpan context (strategy.toFixed context) with ⟨hnone, -⟩ | ⟨pre, post, hsplit, hsome⟩
  · rw [hnone] at hfound
    cases hfound
  · rw [hsome] at hfound
    obtain ⟨rfl, rfl⟩ := Prod.mk.inj (Option.some.inj hfound)
    have hpos := List.length_pos_iff.mpr hsplit.nonempty
    omega

theorem evictionRangeWithImportance_eq_some_iff [JsonText] {strategy : CompactionStrategy}
    {context : Context} {importance : ImportanceEvictionStrategy} {start last : ℕ}
    (henabled : importance.enabled = true) :
    strategy.evictionRangeWithImportance context importance = some (start, last) ↔
      ∃ end_, strategy.evictionRange context = some (start, end_) ∧
        protectedEnd (importance.protects context.messages) start end_ (end_ + 1 - start)
          = some last ∧ start ≤ last := by
  rw [CompactionStrategy.evictionRangeWithImportance, henabled, if_neg (by decide)]
  cases hrange : strategy.evictionRange context with
  | none => simp
  | some range =>
    obtain ⟨first, end_⟩ := range
    dsimp only
    cases hend : protectedEnd (importance.protects context.messages) first end_
        (end_ + 1 - first) with
    | none =>
      constructor
      · intro h
        cases h
      · rintro ⟨_, hsame, hout, -⟩
        obtain ⟨rfl, rfl⟩ := Prod.mk.inj (Option.some.inj hsame)
        rw [hend] at hout
        cases hout
    | some out =>
      dsimp only
      constructor
      · intro h
        split_ifs at h with hle
        obtain ⟨rfl, rfl⟩ := Prod.mk.inj (Option.some.inj h)
        exact ⟨end_, rfl, hend, hle⟩
      · rintro ⟨_, hsame, hout, hle⟩
        obtain ⟨rfl, rfl⟩ := Prod.mk.inj (Option.some.inj hsame)
        rw [hend] at hout
        obtain rfl := Option.some.inj hout
        rw [if_pos hle]

/-- The range with importance spares the protected messages, within the range found without
it, exactly when the last message of that range is protected, or at most one message of it is
and that is not the first message of the context. -/
theorem evictionRangeWithImportance_spares_iff [JsonText] (strategy : CompactionStrategy)
    (context : Context) {importance : ImportanceEvictionStrategy}
    (henabled : importance.enabled = true) :
    SparesProtected strategy context importance ↔
      ∀ start last, strategy.evictionRange context = some (start, last) →
        CutSuffices (importance.protects context.messages) start last := by
  constructor
  · intro h start last hrange
    refine (protectedEnd_spares_iff (evictionRange_le hrange)).mp fun out hout hle => ?_
    obtain ⟨hspared, first, end_, hsame, -, hlast⟩ := h start out
      ((evictionRangeWithImportance_eq_some_iff henabled).mpr ⟨last, hrange, hout, hle⟩)
    rw [hrange] at hsame
    obtain ⟨rfl, rfl⟩ := Prod.mk.inj (Option.some.inj hsame)
    exact ⟨hspared, hlast⟩
  · intro h start last hfound
    obtain ⟨end_, hrange, hout, hle⟩ :=
      (evictionRangeWithImportance_eq_some_iff henabled).mp hfound
    obtain ⟨hspared, hlast⟩ :=
      (protectedEnd_spares_iff (evictionRange_le hrange)).mpr (h start end_ hrange) last hout hle
    exact ⟨hspared, start, end_, hrange, le_rfl, hlast⟩

namespace ProtectedMessages

/-- Questions and answers, up to an answer in two messages. -/
def asked : Context :=
  { Context.default with
    messages := [.from (.user "a" none), .from (.assistant "b" none none none),
      .from (.user "c" none), .from (.assistant "d" none none none), .from (.user "e" none),
      .from (.assistant "f" none none none), .from (.assistant "g" none none none)] }

/-- Where no message reaches the threshold, the range spares the protected messages. -/
theorem spares_without_protected :
    @SparesProtected Serde.reference (.retain 1) asked (.new 100) := by
  refine (@evictionRangeWithImportance_spares_iff Serde.reference (.retain 1) asked (.new 100)
    rfl).mpr fun start last hrange => ?_
  obtain ⟨rfl, rfl⟩ := Prod.mk.inj (Option.some.inj hrange)
  have hnone : ∀ i ≤ 5, (ImportanceEvictionStrategy.new 100).protects asked.messages i = false := by
    decide
  exact Or.inr ⟨fun i j _ _ hj hboth => by simp [hnone j hj] at hboth, fun hzero => nomatch hzero⟩

/-- The range ends in front of the last question but takes in the one before, although
questions are protected. -/
theorem not_spares_protected :
    ¬ @SparesProtected Serde.reference (.retain 1) asked (.new 60) := by
  intro h
  have hspared := (h 1 3 rfl).1 2 (by decide) (by decide)
  exact absurd hspared (by decide)

end ProtectedMessages

end HeliosLite
