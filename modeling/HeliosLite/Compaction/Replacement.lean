import HeliosLite.Compaction.Retention

/-!
# One summary for a range

A compaction that finds a range puts one summary in the place of the range. Around it every
message that is not droppable stays as it is, but for the reasoning that the first remaining
assistant message may be handed, and the usage last reported in the context stays the usage
last reported.

A range opens with a message of the assistant, so each compaction leaves fewer of them, and
compacting again and again ends.

## Main definitions

* `Context.accumulateUsage` — the usage last reported in a context
* `HandedOver` — two lists of messages that differ at most in the reasoning of the first
  assistant message
* `Summarises` — a context as it is after one range was summarised
* `Compactor.compactTimes` — a number of compactions in a row

## Main results

* `compact_summarises` — a compaction that finds a range summarises it
* `compact_reaches_none` — repeated compaction reaches a context without a range
-/

namespace HeliosLite

open Serde

/-- The usage of the most recent message that has one. -/
def Context.accumulateUsage (context : Context) : Option Usage :=
  context.messages.reverse.findSome? (·.usage)

/-- The text message with the given reasoning, where it has none of its own. -/
def TextMessage.orReasoning (message : TextMessage) (reasoning : Option (List ReasoningFull)) :
    TextMessage :=
  if (message.reasoningDetails.getD []).isEmpty then
    { message with reasoningDetails := reasoning.or message.reasoningDetails }
  else message

/-- The messages are unchanged, but that the first assistant message takes the reasoning when
it has none of its own. -/
def HandedOver (reasoning : Option (List ReasoningFull)) (messages out : List MessageEntry) :
    Prop :=
  ((∀ entry ∈ messages, isAssistant entry = false) ∧ out = messages) ∨
    ∃ front message usage back,
      (∀ entry ∈ front, isAssistant entry = false) ∧ message.role = .assistant ∧
      messages = front ++ ⟨.text message, usage⟩ :: back ∧
      out = front ++ ⟨.text (message.orReasoning reasoning), usage⟩ :: back

/-- The context after its messages from `start` to `last` were replaced by one summary, where
`lastOf` is the reasoning that such messages hand over. -/
def Summarises (self : Compactor) (lastOf : List MessageEntry → Option (List ReasoningFull))
    (context : Context) (start last : ℕ) (out : Context) : Prop :=
  ∃ pre mid post summary,
    context.messages = pre ++ mid ++ post ∧ pre.length = start ∧
    (pre ++ mid).length = last + 1 ∧ mid ≠ [] ∧
    self.renderSummary (withoutDroppable mid) = .ok summary ∧
    HandedOver (lastOf mid)
      (withoutDroppable pre ++ summaryEntry summary mid :: withoutDroppable post) out.messages ∧
    out = { context with messages := out.messages } ∧
    ((∀ entry ∈ pre ++ post, entry.message.isDroppable → entry.usage = none) →
      out.accumulateUsage = context.accumulateUsage)

/-! ### The reasoning that is handed over -/

theorem TextMessage.orReasoning_none (message : TextMessage) :
    message.orReasoning none = message := by
  rw [TextMessage.orReasoning]
  split_ifs <;> rfl

theorem exists_text_of_isAssistant {entry : MessageEntry} (h : isAssistant entry) :
    ∃ message usage, entry = ⟨.text message, usage⟩ ∧ message.role = .assistant := by
  obtain ⟨message, usage⟩ := entry
  cases message with
  | text message => exact ⟨message, usage, rfl, eq_of_beq h⟩
  | tool result => exact Bool.noConfusion h
  | image image => exact Bool.noConfusion h

theorem injectReasoning_text (reasoning : Option (List ReasoningFull)) {message : TextMessage}
    (hrole : message.role = .assistant) (usage : Option Usage) (back : List MessageEntry) :
    injectReasoning reasoning (⟨.text message, usage⟩ :: back) =
      ⟨.text (message.orReasoning reasoning), usage⟩ :: back := by
  cases reasoning with
  | none => rw [message.orReasoning_none, injectReasoning]
  | some reasoning =>
    rw [injectReasoning, setFirstReasoning, if_pos (by simp [ContextMessage.hasRole, hrole]),
      TextMessage.orReasoning]
    dsimp only
    split_ifs <;> rfl

theorem injectReasoning_append (reasoning : Option (List ReasoningFull))
    {front : List MessageEntry} (hfront : ∀ entry ∈ front, isAssistant entry = false)
    (back : List MessageEntry) :
    injectReasoning reasoning (front ++ back) = front ++ injectReasoning reasoning back := by
  cases reasoning with
  | none => rfl
  | some reasoning =>
    rw [injectReasoning, setFirstReasoning_append, if_neg (by simpa using hfront)]
    rfl

theorem handedOver_injectReasoning (reasoning : Option (List ReasoningFull))
    (messages : List MessageEntry) :
    HandedOver reasoning messages (injectReasoning reasoning messages) := by
  cases hfind : messages.find? isAssistant with
  | none =>
    have hnone : ∀ entry ∈ messages, isAssistant entry = false := by
      simpa using List.find?_eq_none.mp hfind
    refine Or.inl ⟨hnone, ?_⟩
    have happend := injectReasoning_append reasoning hnone []
    have hnil : injectReasoning reasoning [] = [] := by cases reasoning <;> rfl
    rwa [hnil, List.append_nil] at happend
  | some entry =>
    obtain ⟨hentry, front, back, rfl, hfront⟩ := List.find?_eq_some_iff_append.mp hfind
    obtain ⟨message, usage, rfl, hrole⟩ := exists_text_of_isAssistant hentry
    have hfront' : ∀ entry ∈ front, isAssistant entry = false := by simpa using hfront
    refine Or.inr ⟨front, message, usage, back, hfront', hrole, rfl, ?_⟩
    rw [injectReasoning_append reasoning hfront', injectReasoning_text reasoning hrole]

/-- A first assistant message that was handed a reasoning has one. -/
theorem HandedOver.reasoningOf_isSome {reasoning : List ReasoningFull}
    {messages out : List MessageEntry} {entry : MessageEntry}
    (h : HandedOver (some reasoning) messages out) (hreasoning : reasoning ≠ [])
    (hfind : out.find? isAssistant = some entry) : (reasoningOf entry).isSome := by
  rcases h with ⟨hnone, rfl⟩ | ⟨front, message, usage, back, hfront, hrole, -, rfl⟩
  · have hentry := List.find?_some hfind
    rw [hnone entry (List.mem_of_find?_eq_some hfind)] at hentry
    exact Bool.noConfusion hentry
  · have hskip : front.find? isAssistant = none := by simpa using hfront
    have hat : isAssistant ⟨.text (message.orReasoning (some reasoning)), usage⟩ = true := by
      rw [isAssistant, TextMessage.orReasoning]
      split_ifs <;> simp [ContextMessage.hasRole, hrole]
    rw [List.find?_append, hskip, Option.none_or, List.find?_cons_of_pos hat] at hfind
    obtain rfl := Option.some.inj hfind
    rw [reasoningOf, TextMessage.orReasoning]
    split_ifs with hempty
    · simp [hreasoning]
    · cases hown : message.reasoningDetails with
      | none => simp [hown] at hempty
      | some details => simpa [hown, Option.filter] using hempty

/-! ### The usage that stays -/

theorem findSome?_usage_withoutDroppable {messages : List MessageEntry}
    (h : ∀ entry ∈ messages, entry.message.isDroppable → entry.usage = none) :
    (withoutDroppable messages).reverse.findSome? (·.usage)
      = messages.reverse.findSome? (·.usage) := by
  induction messages with
  | nil => rfl
  | cons entry messages ih =>
    have hrest := ih fun other hother => h other (List.mem_cons_of_mem _ hother)
    rw [withoutDroppable] at hrest ⊢
    rw [List.filter_cons]
    split_ifs with hkept
    · rw [List.reverse_cons, List.findSome?_append, hrest, List.reverse_cons,
        List.findSome?_append]
    · have hnone : entry.usage = none := h entry List.mem_cons_self (by simpa using hkept)
      simp [hrest, List.findSome?_append, hnone]

/-- Where the droppable messages around a span report no usage, the usage last reported
survives the compaction of the span. -/
theorem findSome?_usage_compacted {pre mid post : List MessageEntry} (summary : String)
    (h : ∀ entry ∈ pre ++ post, entry.message.isDroppable → entry.usage = none) :
    (compacted summary pre mid post).reverse.findSome? (·.usage)
      = (pre ++ mid ++ post).reverse.findSome? (·.usage) := by
  have hkept : ∀ entry ∈ pre ++ summaryEntry summary mid :: post,
      entry.message.isDroppable → entry.usage = none := by
    intro entry hentry
    rcases List.mem_append.mp hentry with hpre | hpost
    · exact h entry (List.mem_append_left _ hpre)
    · rcases List.mem_cons.mp hpost with rfl | hpost
      · exact fun hdrop => Bool.noConfusion hdrop
      · exact h entry (List.mem_append_right _ hpost)
  have husage : ∀ l : List MessageEntry, l.reverse.findSome? (·.usage)
      = (l.map (·.usage)).reverse.findSome? id := by
    intro l
    rw [← List.map_reverse, List.findSome?_map, Function.id_comp]
  rw [husage, compacted, injectReasoning_map _ _ _ fun _ _ _ => rfl, ← husage,
    findSome?_usage_withoutDroppable hkept]
  have hsummary : (summaryEntry summary mid).usage = mid.reverse.findSome? (·.usage) := rfl
  simp only [List.reverse_append, List.reverse_cons, List.findSome?_append,
    List.findSome?_singleton, hsummary, Option.or_assoc]

section Compactions

variable [JsonText]

/-! ### One compaction -/

/-- A compaction that finds a range renders the messages of the range and replaces them. -/
theorem compact_of_found {self : Compactor} {context : Context} {max : Bool} {start last : ℕ}
    (hfound : (self.strategy max).evictionRange context = some (start, last)) :
    ∃ pre mid post,
      RangeSplit context.messages ((self.strategy max).toFixed context) pre mid post ∧
      pre.length = start ∧ (pre ++ mid).length = last + 1 ∧
      self.compact context max = (self.renderSummary (withoutDroppable mid)).map fun summary =>
        { context with messages := compacted summary pre mid post } := by
  rcases findsSpan context ((self.strategy max).toFixed context) with
    ⟨hnone, -⟩ | ⟨pre, post, hsplit, hsome⟩
  · rw [CompactionStrategy.evictionRange, hnone] at hfound
    cases hfound
  · have hrange := hfound
    rw [CompactionStrategy.evictionRange, hsome] at hrange
    obtain ⟨rfl, rfl⟩ := Prod.mk.inj (Option.some.inj hrange)
    have hpos := List.length_pos_iff.mpr hsplit.nonempty
    refine ⟨pre, _, post, hsplit, rfl, by rw [List.length_append]; omega, ?_⟩
    rw [Compactor.compact, hfound]
    exact self.compressSingleSequence_append hsplit.append hsplit.nonempty

/-- A compaction that finds a range puts one summary in its place. Around it the messages that
are not droppable stay, the first assistant message takes the last reasoning of those messages
of the range that are not droppable, and the usage last reported stays. -/
theorem compact_summarises {self : Compactor} {context out : Context} {max : Bool}
    {start last : ℕ} (hfound : (self.strategy max).evictionRange context = some (start, last))
    (hout : self.compact context max = .ok out) :
    Summarises self lastReasoning context start last out := by
  obtain ⟨pre, mid, post, hsplit, hstart, hlast, hcompact⟩ := compact_of_found hfound
  cases hsummary : self.renderSummary (withoutDroppable mid) with
  | error e =>
    rw [hcompact, hsummary] at hout
    cases hout
  | ok summary =>
    rw [hcompact, hsummary] at hout
    obtain rfl := Except.ok.inj hout
    refine ⟨pre, mid, post, summary, hsplit.append, hstart, hlast, hsplit.nonempty, hsummary,
      ?_, rfl, fun h => ?_⟩
    · have hkept : withoutDroppable (pre ++ summaryEntry summary mid :: post) =
          withoutDroppable pre ++ summaryEntry summary mid :: withoutDroppable post := by
        rw [withoutDroppable, List.filter_append, List.filter_cons_of_pos rfl]
        rfl
      rw [← hkept]
      exact handedOver_injectReasoning _ _
    · rw [Context.accumulateUsage, Context.accumulateUsage, hsplit.append]
      exact findSome?_usage_compacted summary h

/-! ### Compacting again and again -/

/-- A number of compactions in a row. -/
def Compactor.compactTimes (self : Compactor) (max : Bool) : ℕ → Context → Except String Context
  | 0, context => .ok context
  | n + 1, context => self.compact context max >>= self.compactTimes max n

theorem assistantCount_lt_of_compact {self : Compactor} {context out : Context} {max : Bool}
    (hout : self.compact context max = .ok out) (hne : out ≠ context) :
    assistantCount out.messages < assistantCount context.messages := by
  rcases Compactor.compact_cases hout with ⟨-, heq⟩ | ⟨pre, post, summary, hsplit, rfl⟩
  · exact absurd heq hne
  · exact assistantCount_compacted_lt hsplit summary

/-- A compaction that changes the context leaves fewer messages of the assistant. Compacting
again and again thus reaches, within as many steps as there are such messages, a context
without a range to evict, unless the summary of a range cannot be rendered. -/
theorem compact_reaches_none (self : Compactor) (context : Context) (max : Bool) :
    (∀ out, self.compact context max = .ok out → out ≠ context →
      assistantCount out.messages < assistantCount context.messages) ∧
    ∃ n ≤ assistantCount context.messages, ∃ out,
      self.compactTimes max n context = .ok out ∧
      ((self.strategy max).evictionRange out = none ∨
        ∃ messages e, self.renderSummary messages = .error e ∧
          self.compact out max = .error e) := by
  refine ⟨fun out => assistantCount_lt_of_compact, ?_⟩
  induction hcount : assistantCount context.messages using Nat.strong_induction_on
    generalizing context with
  | _ count ih =>
    cases hrange : (self.strategy max).evictionRange context with
    | none => exact ⟨0, Nat.zero_le _, context, rfl, Or.inl hrange⟩
    | some range =>
      obtain ⟨pre, mid, post, hsplit, -, -, hcompact⟩ := compact_of_found hrange
      cases hsummary : self.renderSummary (withoutDroppable mid) with
      | error e =>
        refine ⟨0, Nat.zero_le _, context, rfl, Or.inr ⟨_, e, hsummary, ?_⟩⟩
        rw [hcompact, hsummary]
        rfl
      | ok summary =>
        have hlt := assistantCount_compacted_lt hsplit summary
        rw [hcount] at hlt
        obtain ⟨n, hn, out, hout, hend⟩ :=
          ih _ hlt { context with messages := compacted summary pre mid post } rfl
        refine ⟨n + 1, by omega, out, ?_, hend⟩
        rw [Compactor.compactTimes, hcompact, hsummary]
        exact hout

end Compactions

namespace DroppedReasoning

/-- A compactor that keeps the last message. -/
def compactor : Compactor :=
  { settings := { retentionWindow := 1, evictionWindow := 0 }
    renderSummary := fun _ => .ok "summary" }

def thought : ReasoningFull :=
  { text := some "thought"
    signature := none
    data := none
    id := none
    format := none
    index := none
    typeOf := none }

/-- A message of the assistant that may be dropped, with its reasoning. -/
def aside : TextMessage :=
  { role := .assistant
    content := "aside"
    rawContent := none
    toolCalls := none
    thoughtSignature := none
    model := none
    reasoningDetails := some [thought]
    droppable := true
    phase := none }

/-- A question between two messages of the assistant, where the first one is `opening`. -/
def asked (opening : TextMessage) : Context :=
  ((Context.default.addMessage (.text opening)).addMessage (.user "hi" none)).addMessage
    (.assistant "hello" none none none)

def summarised : Context :=
  (Context.default.addMessage (.user "summary" none)).addMessage
    (.assistant "hello" none none none)

/-- The first message is replaced by its summary, and its reasoning goes to the second. -/
theorem compact_summarises_asked :
    let out := (Context.default.addMessage (.user "summary" none)).addMessage
      (.assistant "hello" none (some [thought]) none)
    Summarises compactor lastReasoning (asked { aside with droppable := false }) 0 1 out :=
  @compact_summarises Serde.reference compactor (asked { aside with droppable := false }) _ true
    0 1 rfl rfl

/-- The reasoning of a droppable message in the range is lost: the first remaining assistant
message has none and takes none. -/
theorem compact_loses_reasoning :
    ∃ out, @Compactor.compact Serde.reference compactor (asked aside) true = .ok out ∧
      @CompactionStrategy.evictionRange Serde.reference (compactor.strategy true) (asked aside)
        = some (0, 1) ∧
      ¬ Summarises compactor (fun mid => mid.reverse.findSome? reasoningOf) (asked aside) 0 1
        out := by
  refine ⟨summarised, rfl, rfl, ?_⟩
  rintro ⟨pre, mid, post, summary, happend, hstart, hlast, -, -, hover, -⟩
  obtain rfl := List.eq_nil_of_length_eq_zero hstart
  have hmid : mid = (asked aside).messages.take 2 := by
    rw [happend, List.nil_append, List.take_left' (by simpa using hlast)]
  rw [hmid] at hover
  have hsome := hover.reasoningOf_isSome (List.cons_ne_nil _ _) rfl
  exact absurd hsome (by decide)

end DroppedReasoning

end HeliosLite
