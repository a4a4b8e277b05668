import HeliosLite.Compaction.Range
import HeliosLite.Serde.Text
import HeliosLite.Theory.Pairing

/-!
# Well-formed contexts

A context is well formed when its tool calls and tool results are paired and droppable
messages call no tool. Compaction keeps a context well formed unless the context opens
with a call group that the retention divides.

## Main definitions

* `WellFormed` — calls and results are paired, droppable messages call nothing
* `DividesOpeningGroup` — the messages to keep start among the results of an opening group

## Main results

* `compact_wellFormed_iff` — compaction of a well-formed context is well formed exactly
  when it divides no opening group
-/

namespace HeliosLite

open Serde Theory

/-- The ids of the tool calls of an assistant message. -/
def callIds (entry : MessageEntry) : List (Option String) :=
  match entry.message with
  | .text message =>
    if message.role = .assistant then (message.toolCalls.getD []).map (·.callId) else []
  | _ => []

/-- The call that a tool result answers. -/
def answeredId (entry : MessageEntry) : Option (Option String) :=
  match entry.message with
  | .tool result => some result.callId
  | _ => none

/-- Every assistant message that calls tools is followed at once by exactly the results of
its calls, results occur nowhere else, and droppable messages call no tool. -/
structure WellFormed (messages : List MessageEntry) : Prop where
  paired : Paired callIds answeredId messages
  droppable : ∀ entry ∈ messages, entry.message.isDroppable →
    ∀ message, entry.message = .text message → message.toolCalls.getD [] = []

/-- The context opens with an assistant message whose results lie on both sides of the
last `k` messages. -/
def DividesOpeningGroup (messages : List MessageEntry) (k : ℕ) : Prop :=
  2 ≤ messages.length - k ∧
    ∀ opening ∈ messages.head?, messages.length - k ≤ (callIds opening).length

instance (messages : List MessageEntry) (k : ℕ) :
    Decidable (DividesOpeningGroup messages k) := by
  unfold DividesOpeningGroup
  infer_instance

/-! ### Calls and answers of the messages -/

theorem isResult_eq_isSome (entry : MessageEntry) :
    isResult entry = (answeredId entry).isSome := by
  obtain ⟨message, usage⟩ := entry
  cases message <;> rfl

theorem answeredId_eq_none_iff {entry : MessageEntry} :
    answeredId entry = none ↔ isResult entry = false := by
  rw [isResult_eq_isSome]
  simp

theorem callIds_eq_nil_of_not_isAssistant {entry : MessageEntry}
    (h : isAssistant entry = false) : callIds entry = [] := by
  obtain ⟨message, usage⟩ := entry
  cases message with
  | text message => simp_all [isAssistant, ContextMessage.hasRole, callIds]
  | tool result => rfl
  | image image => rfl

theorem callIds_eq_nil_of_not_isCall {entry : MessageEntry} (h : isCall entry = false) :
    callIds entry = [] := by
  obtain ⟨message, usage⟩ := entry
  cases message with
  | text message => simp_all [isCall, ContextMessage.hasToolCall, callIds]
  | tool result => rfl
  | image image => rfl

theorem isAssistant_of_callIds_ne_nil {entry : MessageEntry} (h : callIds entry ≠ []) :
    isAssistant entry := by
  by_contra hnot
  exact h (callIds_eq_nil_of_not_isAssistant (by simpa using hnot))

theorem WellFormed.quiet_of_isDroppable {messages : List MessageEntry} {entry : MessageEntry}
    (h : WellFormed messages) (hmem : entry ∈ messages) (hdrop : entry.message.isDroppable) :
    callIds entry = [] ∧ answeredId entry = none := by
  have hcalls := h.droppable entry hmem hdrop
  obtain ⟨message, usage⟩ := entry
  cases message with
  | text message => simp [callIds, answeredId, hcalls message rfl]
  | tool result => simp [ContextMessage.isDroppable] at hdrop
  | image image => simp [ContextMessage.isDroppable] at hdrop

@[simp] theorem callIds_summaryEntry (summary : String) (mid : List MessageEntry) :
    callIds (summaryEntry summary mid) = [] := rfl

@[simp] theorem answeredId_summaryEntry (summary : String) (mid : List MessageEntry) :
    answeredId (summaryEntry summary mid) = none := rfl

@[simp] theorem isDroppable_summaryEntry (summary : String) (mid : List MessageEntry) :
    (summaryEntry summary mid).message.isDroppable = false := rfl

/-! ### Carrying the reasoning over -/

/-- Setting the reasoning changes neither calls, nor answers, nor what is droppable. -/
theorem setFirstReasoning_map {β : Type*} (reasoning : List ReasoningFull)
    (messages : List MessageEntry) (f : MessageEntry → β)
    (hf : ∀ message usage, f ⟨.text { message with reasoningDetails := some reasoning }, usage⟩
      = f ⟨.text message, usage⟩) :
    (setFirstReasoning reasoning messages).map f = messages.map f := by
  induction messages with
  | nil => rfl
  | cons entry messages ih =>
    obtain ⟨message, usage⟩ := entry
    rw [setFirstReasoning]
    split_ifs
    · cases message with
      | text message =>
        dsimp only
        split_ifs
        · rw [List.map_cons, List.map_cons, hf]
        · rfl
      | tool result => rfl
      | image image => rfl
    · rw [List.map_cons, List.map_cons, ih]

theorem injectReasoning_map {β : Type*} (reasoning : Option (List ReasoningFull))
    (messages : List MessageEntry) (f : MessageEntry → β)
    (hf : ∀ details message usage,
      f ⟨.text { message with reasoningDetails := some details }, usage⟩
        = f ⟨.text message, usage⟩) :
    (injectReasoning reasoning messages).map f = messages.map f := by
  cases reasoning with
  | none => rfl
  | some details => exact setFirstReasoning_map details messages f (hf details)

theorem paired_injectReasoning (reasoning : Option (List ReasoningFull))
    (messages : List MessageEntry) :
    Paired callIds answeredId (injectReasoning reasoning messages) ↔
      Paired callIds answeredId messages :=
  paired_congr (injectReasoning_map reasoning messages _ fun _ _ _ => rfl)

/-! ### The cut of a well-formed context -/

theorem splitsFirstGroup_cons_iff {opening : MessageEntry} {messages : List MessageEntry}
    {k : ℕ} : splitsFirstGroup (opening :: messages) k ↔
      ∃ n, (opening :: messages).length - k = n + 2 ∧ isAssistant opening ∧
        (∀ entry ∈ messages.take (n + 1), isResult entry) ∧
          (messages.drop (n + 1)).head?.any isResult := by
  rw [splitsFirstGroup, List.rdrop, List.rtake]
  rcases (opening :: messages).length - k with _ | _ | n
  · simp
  · simp
  · cases messages with
    | nil => simp
    | cons entry messages => simp [and_assoc]

/-- Answers end where the first other element stands: an element lies behind a stretch of
answers and is one itself exactly when it lies in the stretch. -/
private theorem answers_reach_iff {results rest : List MessageEntry}
    (hresults : ∀ entry ∈ results, isResult entry)
    (hrest : ∀ entry ∈ rest.head?, isResult entry = false) (n : ℕ) :
    (∀ entry ∈ (results ++ rest).take n, isResult entry) ∧
        ((results ++ rest).drop n).head?.any isResult ↔ n < results.length := by
  induction results generalizing n with
  | nil =>
    cases rest with
    | nil => simp
    | cons entry rest =>
      have hentry : isResult entry = false := hrest entry (by simp)
      cases n <;> simp [hentry]
  | cons result results ih =>
    have hresult : isResult result = true := hresults result List.mem_cons_self
    cases n with
    | zero => simp [hresult]
    | succ n =>
      have := ih (fun entry hentry => hresults entry (List.mem_cons_of_mem _ hentry)) n
      simpa [hresult] using this

theorem head?_not_isResult {messages : List MessageEntry}
    (h : Paired callIds answeredId messages) :
    ∀ entry ∈ messages.head?, isResult entry = false := by
  intro entry hentry
  cases messages with
  | nil => simp at hentry
  | cons opening messages =>
    obtain rfl : opening = entry := by simpa using hentry
    exact answeredId_eq_none_iff.mp (paired_cons_iff.mp h).1

/-- In a paired context the cut divides the opening group exactly when it falls behind the
first and in front of the last of its results. -/
theorem splitsFirstGroup_iff_divides {messages : List MessageEntry} {k : ℕ}
    (h : Paired callIds answeredId messages) :
    splitsFirstGroup messages k ↔ DividesOpeningGroup messages k := by
  cases messages with
  | nil => simp [splitsFirstGroup, DividesOpeningGroup, List.rdrop]
  | cons opening messages =>
    obtain ⟨-, results, rest, rfl, hanswered, hrest⟩ := paired_cons_iff.mp h
    have hcount : results.length = (callIds opening).length := by
      simpa using hanswered.length_eq
    have hresults : ∀ entry ∈ results, isResult entry := fun entry hentry => by
      rw [isResult_eq_isSome, Option.isSome_iff_ne_none]
      exact allAnswer_of_perm hanswered entry hentry
    rw [splitsFirstGroup_cons_iff, DividesOpeningGroup]
    generalize (opening :: (results ++ rest)).length - k = cut
    simp only [answers_reach_iff hresults (head?_not_isResult hrest), List.head?_cons,
      Option.mem_some_iff, forall_eq']
    constructor
    · rintro ⟨n, rfl, -, hn⟩
      omega
    · rintro ⟨htwo, hcut⟩
      refine ⟨cut - 2, by omega, isAssistant_of_callIds_ne_nil ?_, by omega⟩
      rw [Ne, ← List.length_eq_zero_iff]
      omega

/-- Where no opening group is split, both sides of the replaced span are paired. -/
theorem RangeSplit.paired {messages pre mid post : List MessageEntry} {k : ℕ}
    (h : RangeSplit messages k pre mid post) (hpaired : Paired callIds answeredId messages)
    (hsplits : splitsFirstGroup messages k = false) :
    Paired callIds answeredId pre ∧ Paired callIds answeredId post := by
  rw [h.append] at hpaired
  have hpost : ∀ entry ∈ post.head?, answeredId entry = none := by
    rcases h.cut hsplits with hnext | hlast
    · exact fun entry hentry => answeredId_eq_none_iff.mpr (hnext entry hentry)
    · -- the span ends with a message that neither calls nor answers: a block of its own
      obtain ⟨init, last, rfl⟩ := (List.eq_nil_or_concat' mid).resolve_left h.nonempty
      obtain ⟨hcall, hresult⟩ := hlast last (by simp)
      have hblock : Paired callIds answeredId (last :: post) := by
        rw [← List.append_assoc, List.append_assoc, List.singleton_append] at hpaired
        refine (hpaired.split fun entry hentry => ?_).2
        obtain rfl : last = entry := by simpa using hentry
        exact answeredId_eq_none_iff.mpr hresult
      rw [paired_cons_of_calls_nil (callIds_eq_nil_of_not_isCall hcall)] at hblock
      exact fun entry hentry =>
        answeredId_eq_none_iff.mpr (head?_not_isResult hblock.2 entry hentry)
  obtain ⟨hfront, hback⟩ := hpaired.split hpost
  refine ⟨?_, hback⟩
  refine (hfront.split fun entry hentry => ?_).1
  exact answeredId_eq_none_iff.mpr (not_isResult_of_isAssistant (h.opens entry hentry))

/-- Where the opening group is split, only its opening message is replaced, and the first
result is left behind. -/
theorem RangeSplit.eq_nil_of_splits {messages pre mid post : List MessageEntry} {k : ℕ}
    (h : RangeSplit messages k pre mid post) (hsplits : splitsFirstGroup messages k)
    (hmid : mid = messages.take 1) :
    pre = [] ∧ ∃ result rest, post = result :: rest ∧ isResult result := by
  have happend := h.append
  cases messages with
  | nil => simp [splitsFirstGroup, List.rdrop] at hsplits
  | cons opening messages =>
    obtain ⟨n, -, hopening, hresults, hnext⟩ := splitsFirstGroup_cons_iff.mp hsplits
    rw [List.take_succ_cons, List.take_zero] at hmid
    subst hmid
    cases pre with
    | cons entry pre =>
      obtain ⟨rfl, -⟩ := List.cons.inj happend
      simp [h.before opening List.mem_cons_self] at hopening
    | nil =>
      obtain ⟨-, rfl⟩ := List.cons.inj happend
      refine ⟨rfl, ?_⟩
      cases messages with
      | nil => simp at hnext
      | cons result rest => exact ⟨result, rest, rfl, hresults result (by simp)⟩

/-! ### The messages after compaction -/

theorem isDroppable_of_mem_compacted {summary : String} {pre mid post : List MessageEntry}
    {entry : MessageEntry} (h : entry ∈ compacted summary pre mid post) :
    entry.message.isDroppable = false := by
  have hmap := injectReasoning_map (lastReasoning mid)
    (withoutDroppable (pre ++ summaryEntry summary mid :: post))
    (fun entry => entry.message.isDroppable) fun _ _ _ => rfl
  have hmem := List.mem_map_of_mem (f := fun entry : MessageEntry => entry.message.isDroppable) h
  rw [compacted, hmap] at hmem
  obtain ⟨kept, hkept, heq⟩ := List.mem_map.mp hmem
  rw [← heq]
  simpa using (List.mem_filter.mp hkept).2

theorem wellFormed_compacted {messages : List MessageEntry} {summary : String}
    {pre mid post : List MessageEntry} (hwf : WellFormed messages)
    (happend : messages = pre ++ mid ++ post) (hpre : Paired callIds answeredId pre)
    (hpost : Paired callIds answeredId post) :
    WellFormed (compacted summary pre mid post) where
  paired := by
    rw [compacted, paired_injectReasoning]
    have hsummary : Paired callIds answeredId (summaryEntry summary mid :: post) :=
      (paired_cons_of_calls_nil rfl).mpr ⟨rfl, hpost⟩
    refine (hpre.append hsummary).filter fun entry hentry hdrop => ?_
    have hdrop : entry.message.isDroppable = true := by simpa using hdrop
    rcases List.mem_append.mp hentry with hmem | hmem
    · exact hwf.quiet_of_isDroppable (by simp [happend, hmem]) hdrop
    · rcases List.mem_cons.mp hmem with rfl | hmem
      · exact ⟨rfl, rfl⟩
      · exact hwf.quiet_of_isDroppable (by simp [happend, hmem]) hdrop
  droppable := by
    intro entry hentry hdrop
    rw [isDroppable_of_mem_compacted hentry] at hdrop
    exact Bool.noConfusion hdrop

theorem not_wellFormed_compacted {summary : String} {mid rest : List MessageEntry}
    {result : MessageEntry} (hresult : isResult result) :
    ¬ WellFormed (compacted summary [] mid (result :: rest)) := by
  intro hwf
  have hkept : result.message.isDroppable = false := by
    obtain ⟨message, usage⟩ := result
    cases message <;> simp_all [isResult, ContextMessage.hasToolResult,
      ContextMessage.isDroppable]
  have hpaired := hwf.paired
  rw [compacted, paired_injectReasoning, withoutDroppable, List.nil_append,
    List.filter_cons_of_pos (by simp), List.filter_cons_of_pos (by simp [hkept])] at hpaired
  refine @not_paired_of_orphan _ _ _ _ [summaryEntry summary mid] _ _ (by simp) ?_ hpaired
  rw [← Option.isSome_iff_ne_none, ← isResult_eq_isSome]
  exact hresult

/-- Compaction of a well-formed context is well formed exactly when the messages to keep do
not start among the results of a call group that opens the context. -/
theorem compact_wellFormed_iff [JsonText] {self : Compactor} {context out : Context} {max : Bool}
    (hwf : WellFormed context.messages) (hout : self.compact context max = .ok out) :
    WellFormed out.messages ↔
      ¬ DividesOpeningGroup context.messages ((self.strategy max).toFixed context) := by
  rw [← splitsFirstGroup_iff_divides hwf.paired]
  rcases Compactor.compact_cases hout with ⟨hempty, rfl⟩ | ⟨pre, post, summary, hsplit, rfl⟩
  · refine iff_of_true hwf fun hsplits => ?_
    rw [replacedSpan, if_pos hsplits, List.take_eq_nil_iff] at hempty
    simp [splitsFirstGroup, hempty.resolve_left one_ne_zero, List.rdrop] at hsplits
  by_cases hsplits : splitsFirstGroup context.messages ((self.strategy max).toFixed context)
  · obtain ⟨rfl, result, rest, rfl, hresult⟩ :=
      hsplit.eq_nil_of_splits hsplits (by rw [replacedSpan, if_pos hsplits])
    exact iff_of_false (not_wellFormed_compacted hresult) (not_not_intro hsplits)
  · obtain ⟨hpre, hpost⟩ := hsplit.paired hwf.paired (by simpa using hsplits)
    exact iff_of_true (wellFormed_compacted hwf hsplit.append hpre hpost) hsplits

/-! ### A context that opens with two parallel calls -/

namespace OpeningGroup

def call (id : String) : ToolCallFull :=
  { name := "read", callId := some id, arguments := .unparsed "", thoughtSignature := none }

def result (id : String) : ContextMessage :=
  .toolResult
    { name := "read", callId := some id, output := { isError := false, values := [] } }

/-- An assistant message with two calls, and their results. -/
def context : Context :=
  ((Context.default.addMessage (.assistant "" none none (some [call "a", call "b"]))).addMessage
    (result "a")).addMessage (result "b")

/-- A compactor that keeps the last `retention` messages. -/
def compactor (retention : ℕ) : Compactor :=
  { settings := { retentionWindow := retention, evictionWindow := 0 }
    renderSummary := fun _ => .ok "summary" }

theorem wellFormed : WellFormed context.messages where
  paired := by
    refine @Paired.block _ _ _ _ _ [_, _] [] rfl ?_ .nil
    exact List.Perm.refl _
  droppable := by
    intro entry hentry hdrop
    have hkept : ∀ entry ∈ context.messages, entry.message.isDroppable = false := by decide
    rw [hkept entry hentry] at hdrop
    exact Bool.noConfusion hdrop

/-- Keeping no message replaces the whole group. -/
theorem compact_wellFormed_iff_whole :
    WellFormed [MessageEntry.from (.user "summary" none)] ↔
      ¬ DividesOpeningGroup context.messages 0 :=
  @compact_wellFormed_iff Serde.reference (compactor 0) context
    { context with messages := [MessageEntry.from (.user "summary" none)] } true wellFormed rfl

/-- Keeping one message divides the group: the calls are replaced and both results stay. -/
theorem compact_orphans_results :
    WellFormed context.messages ∧ ∃ out,
      @Compactor.compact Serde.reference (compactor 1) context true = .ok out ∧
        ¬ WellFormed out.messages := by
  refine ⟨wellFormed, { context with messages := MessageEntry.from (.user "summary" none) ::
    [MessageEntry.from (result "a"), MessageEntry.from (result "b")] }, rfl, fun hwf => ?_⟩
  exact @not_paired_of_orphan _ _ callIds answeredId [_] _ _ (by simp; rfl) (by simp [answeredId,
    MessageEntry.from, result, ContextMessage.toolResult]) hwf.paired

end OpeningGroup

end HeliosLite
