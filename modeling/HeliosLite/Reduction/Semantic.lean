import HeliosLite.Compaction.Retention
import HeliosLite.Theory.Removal

/-!
# Semantic compression

A context that exceeds its token budget loses messages from its middle: those of the
assistant, and those that may be dropped, unless they call a tool. The candidates are
collected by index and removed from the last one on, so that the indices stay valid, until
the budget is met. What goes first is therefore the newest candidate.

## Main definitions

* `semanticCandidates` — the indices of the messages that may be removed
* `compressSemantic` — semantic compression of a context
* `RemovesOldestFirst` — no candidate is removed before an older one, and none once the
  budget is met

## Main results

* `removeCandidates_cases` — how far the loop over the candidates gets
* `compressSemantic_removes_oldest_iff` — the oldest candidates are removed first exactly
  when none is removed or all are
-/

namespace HeliosLite

open Serde Theory

/-- The settings of a compaction that the reduction of a context reads as well. -/
structure ReductionSettings extends Compact where
  tokenThreshold : Option ℕ
  pruneThreshold : ℕ

/-- The tokens that a reduced context may have. -/
def ReductionSettings.budget (config : ReductionSettings) : ℕ := config.tokenThreshold.getD 80000

/-- What a compression did. -/
structure CompressionReport where
  removed : List ℕ
  summarized : List ℕ
  truncated : Bool
  tokensSaved : ℕ
  remainingTokens : ℕ

def CompressionReport.default : CompressionReport :=
  { removed := [], summarized := [], truncated := false, tokensSaved := 0, remainingTokens := 0 }

/-- The number of messages that are kept at each end. -/
def keepEnds : ℕ := 6

/-- The indices of the messages that may be removed, in the order of the messages. -/
def semanticCandidates (messages : List MessageEntry) : List ℕ :=
  let total := messages.length
  (messages.zipIdx.filter fun (m, i) =>
    keepEnds ≤ i && i < total - keepEnds &&
      (m.message.isDroppable || m.message.hasRole .assistant) && !m.message.hasToolCall).map (·.2)

section Tokens

variable [JsonText]

/-- The loop over the candidates: removes the message at each index until the messages are
within the budget. Returns the messages left and the indices removed. -/
def removeCandidates (budget : ℕ) :
    List ℕ → List MessageEntry → List ℕ → List MessageEntry × List ℕ
  | [], messages, removed => (messages, removed)
  | idx :: candidates, messages, removed =>
    if weight messages ≤ budget then (messages, removed)
    else if idx < messages.length then
      removeCandidates budget candidates (messages.eraseIdx idx) (removed ++ [idx])
    else removeCandidates budget candidates messages removed

/-- Semantic compression of a context. -/
def compressSemantic (context : Context) (config : ReductionSettings) :
    Context × CompressionReport :=
  let before := context.tokenCountApprox
  if before ≤ config.budget then (context, .default)
  else
    let candidates := semanticCandidates context.messages
    let (messages, removed) :=
      removeCandidates config.budget candidates.reverse context.messages []
    let context := { context with messages := messages }
    (context,
      { CompressionReport.default with
        summarized := removed
        tokensSaved := before - context.tokenCountApprox })

/-- The compression removes the candidates it reports, no candidate before an older one, and
no further one once the budget is met. -/
structure RemovesOldestFirst (context : Context) (config : ReductionSettings)
    (out : Context × CompressionReport) : Prop where
  messages : out.1.messages = without context.messages out.2.summarized
  oldest : ∀ i ∈ out.2.summarized, ∀ j ∈ semanticCandidates context.messages, j < i →
    j ∈ out.2.summarized
  /-- Each removal took place with the budget exceeded. -/
  exceeded : ∀ earlier i later, out.2.summarized = earlier ++ i :: later →
    config.budget < weight (without context.messages earlier)
  /-- The budget is met in the end, or there was nothing left to remove. -/
  exhausted : config.budget < weight out.1.messages →
    ∀ j ∈ semanticCandidates context.messages, j ∈ out.2.summarized

end Tokens

/-! ### The candidates -/

theorem semanticCandidates_ascending (messages : List MessageEntry) :
    (semanticCandidates messages).Pairwise (· < ·) := by
  have hidx : messages.zipIdx.Pairwise fun a b => a.2 < b.2 := by
    rw [← List.pairwise_map, List.zipIdx_map_snd]
    exact List.pairwise_lt_range'
  rw [semanticCandidates, List.pairwise_map]
  exact hidx.filter _

theorem lt_length_of_mem_semanticCandidates {messages : List MessageEntry} {i : ℕ}
    (h : i ∈ semanticCandidates messages) : i < messages.length := by
  obtain ⟨⟨m, j⟩, hmem, rfl⟩ := List.mem_map.mp h
  have hget := List.mem_zipIdx_iff_getElem?.mp (List.mem_of_mem_filter hmem)
  exact (List.getElem?_eq_some_iff.mp hget).1

section Loop

variable [JsonText]

theorem weight_le_of_sublist {messages messages' : List MessageEntry}
    (h : messages.Sublist messages') : weight messages ≤ weight messages' :=
  (h.map _).sum_le_sum fun _ _ => Nat.zero_le _

/-- The loop removes the first `r` of the indices: as long as the budget is exceeded, and no
longer. -/
theorem removeCandidates_cases (budget : ℕ) {indices : List ℕ} {messages : List MessageEntry}
    (hvalid : Erasable messages.length indices) (removed : List ℕ) :
    ∃ r ≤ indices.length,
      removeCandidates budget indices messages removed =
        (eraseEach messages (indices.take r), removed ++ indices.take r) ∧
      (∀ j < r, budget < weight (eraseEach messages (indices.take j))) ∧
      (r < indices.length → weight (eraseEach messages (indices.take r)) ≤ budget) := by
  induction indices generalizing messages removed with
  | nil => exact ⟨0, le_rfl, by simp [removeCandidates], by simp, by simp⟩
  | cons idx indices ih =>
    by_cases hbudget : weight messages ≤ budget
    · refine ⟨0, Nat.zero_le _, ?_, by simp, fun _ => hbudget⟩
      rw [removeCandidates, if_pos hbudget]
      simp
    · have hlen : (messages.eraseIdx idx).length = messages.length - 1 :=
        List.length_eraseIdx_of_lt hvalid.1
      obtain ⟨r, hr, heq, hexceeded, hstop⟩ :=
        @ih (messages.eraseIdx idx) (hlen ▸ hvalid.2) (removed ++ [idx])
      refine ⟨r + 1, Nat.succ_le_succ hr, ?_, ?_, fun h => hstop (Nat.lt_of_succ_lt_succ h)⟩
      · rw [removeCandidates, if_neg hbudget, if_pos hvalid.1, heq]
        simp
      · rintro (_ | j) hj
        · exact not_le.mp hbudget
        · exact hexceeded j (Nat.lt_of_succ_lt_succ hj)

theorem compressSemantic_eq (context : Context) (config : ReductionSettings) :
    ((compressSemantic context config).1.messages,
      (compressSemantic context config).2.summarized) =
      removeCandidates config.budget (semanticCandidates context.messages).reverse
        context.messages [] := by
  have hcount : context.tokenCountApprox = weight context.messages := rfl
  rw [compressSemantic, hcount]
  by_cases hbudget : weight context.messages ≤ config.budget
  · rw [if_pos hbudget]
    cases (semanticCandidates context.messages).reverse with
    | nil => rfl
    | cons idx candidates =>
      rw [removeCandidates, if_pos hbudget]
      rfl
  · rw [if_neg hbudget]

/-- Semantic compression removes the newest `r` candidates, as long as the budget is exceeded
and no longer. -/
theorem compressSemantic_cases (context : Context) (config : ReductionSettings) :
    let indices := (semanticCandidates context.messages).reverse
    let out := compressSemantic context config
    ∃ r ≤ indices.length,
      out.2.summarized = indices.take r ∧
      out.1.messages = without context.messages (indices.take r) ∧
      (∀ j < r, config.budget < weight (without context.messages (indices.take j))) ∧
      (r < indices.length →
        weight (without context.messages (indices.take r)) ≤ config.budget) := by
  intro indices out
  have hdesc : indices.Pairwise (· > ·) :=
    List.pairwise_reverse.mpr (semanticCandidates_ascending context.messages)
  have hlt : ∀ i ∈ indices, i < context.messages.length :=
    fun i hi => lt_length_of_mem_semanticCandidates (List.mem_reverse.mp hi)
  have herase : ∀ j, eraseEach context.messages (indices.take j) =
      without context.messages (indices.take j) := fun j =>
    eraseEach_of_descending (hdesc.sublist (List.take_sublist _ _))
      fun i hi => hlt i (List.mem_of_mem_take hi)
  obtain ⟨r, hr, heq, hexceeded, hstop⟩ :=
    removeCandidates_cases config.budget (erasable_of_descending hdesc hlt) []
  simp only [herase] at heq hexceeded hstop
  obtain ⟨hmessages, hremoved⟩ := Prod.mk.inj ((compressSemantic_eq context config).trans heq)
  exact ⟨r, hr, hremoved.trans (List.nil_append _), hmessages, hexceeded, hstop⟩

omit [JsonText] in
theorem mem_take_reverse_iff {α : Type*} {l : List α} {oldest : α} (hnodup : (oldest :: l).Nodup)
    {r : ℕ} : oldest ∈ (oldest :: l).reverse.take r ↔ l.length < r := by
  rw [List.reverse_cons, List.take_append, List.mem_append, List.length_reverse]
  have hnot : oldest ∉ l.reverse.take r := fun h =>
    (List.nodup_cons.mp hnodup).1 (List.mem_reverse.mp (List.mem_of_mem_take h))
  rw [or_iff_right hnot]
  by_cases hr : l.length < r
  · obtain ⟨n, hn⟩ := Nat.exists_eq_add_of_lt hr
    rw [iff_true_right hr, hn, show l.length + n + 1 - l.length = n + 1 by omega]
    exact List.mem_cons_self
  · rw [iff_false_right hr, Nat.sub_eq_zero_of_le (not_lt.mp hr)]
    exact List.not_mem_nil

/-- Where no candidate was removed or all were, the oldest went first. -/
theorem removesOldestFirst_of_none_or_all {context : Context} {config : ReductionSettings}
    {out : Context × CompressionReport} {indices : List ℕ} {r : ℕ}
    (hindices : indices = (semanticCandidates context.messages).reverse)
    (hremoved : out.2.summarized = indices.take r)
    (hmessages : out.1.messages = without context.messages (indices.take r))
    (hexceeded : ∀ j < r, config.budget < weight (without context.messages (indices.take j)))
    (hstop : r < indices.length →
      weight (without context.messages (indices.take r)) ≤ config.budget)
    (hr : r = 0 ∨ r = indices.length) : RemovesOldestFirst context config out where
  messages := by rw [hmessages, hremoved]
  oldest := by
    intro i hi j hj hji
    rw [hremoved] at hi ⊢
    rcases hr with rfl | rfl
    · exact absurd hi List.not_mem_nil
    · rw [List.take_length, hindices]
      exact List.mem_reverse.mpr hj
  exceeded := by
    intro earlier i later h
    rw [hremoved] at h
    have hlt : earlier.length < r := by
      have hlen := congrArg List.length h
      rw [List.length_take, List.length_append, List.length_cons] at hlen
      omega
    have hearlier : indices.take earlier.length = earlier := by
      have htake := congrArg (List.take earlier.length) h
      rwa [List.take_take, min_eq_left hlt.le, List.take_left' rfl] at htake
    rw [← hearlier]
    exact hexceeded _ hlt
  exhausted := by
    intro hbudget j hj
    have hall : r = indices.length := by
      by_contra hne
      have hle := hstop (by omega)
      rw [← hmessages] at hle
      omega
    rw [hremoved, hall, List.take_length, hindices]
    exact List.mem_reverse.mpr hj

/-- Semantic compression removes the oldest candidates first exactly when the budget is not
exceeded, so that none is removed, or is still exceeded without all candidates but the oldest,
so that all are. -/
theorem compressSemantic_removes_oldest_iff (context : Context) (config : ReductionSettings) :
    RemovesOldestFirst context config (compressSemantic context config) ↔
      weight context.messages ≤ config.budget ∨
        config.budget <
          weight (without context.messages (semanticCandidates context.messages).tail) := by
  obtain ⟨r, hr, hremoved, hmessages, hexceeded, hstop⟩ := compressSemantic_cases context config
  have hof := removesOldestFirst_of_none_or_all rfl hremoved hmessages hexceeded hstop
  have hempty : without context.messages [] = context.messages :=
    (eraseEach_of_descending .nil (by simp)).symm
  cases hcandidates : semanticCandidates context.messages with
  | nil =>
    rw [hcandidates, List.reverse_nil, List.length_nil] at hr
    refine iff_of_true (hof (Or.inl (Nat.le_zero.mp hr))) ?_
    rw [List.tail_nil, hempty]
    exact le_or_gt _ _
  | cons oldest newer =>
    have hascending : (oldest :: newer).Pairwise (· < ·) :=
      hcandidates ▸ semanticCandidates_ascending context.messages
    have hlength : (semanticCandidates context.messages).reverse.length = newer.length + 1 := by
      rw [hcandidates, List.length_reverse, List.length_cons]
    have hmem : oldest ∈ (compressSemantic context config).2.summarized ↔ newer.length < r := by
      rw [hremoved, hcandidates, mem_take_reverse_iff (hascending.imp fun h => h.ne)]
    have hnewer : (semanticCandidates context.messages).reverse.take newer.length =
        newer.reverse := by
      rw [hcandidates, List.reverse_cons, List.take_left' List.length_reverse]
    have htail : without context.messages newer = without context.messages newer.reverse :=
      without_congr fun i => List.mem_reverse.symm
    rw [List.tail_cons, htail, ← hnewer]
    constructor
    · intro h
      by_cases hzero : r = 0
      · left
        rw [hzero, List.take_zero, hempty] at hstop
        exact hstop (by omega)
      · right
        apply hexceeded
        by_contra hle
        obtain ⟨i, hi⟩ := List.exists_mem_of_ne_nil
          (compressSemantic context config).2.summarized (by
            rw [hremoved, Ne, List.take_eq_nil_iff, not_or]
            exact ⟨hzero, fun hnil => by simp [hnil] at hlength⟩)
        have hkept := hmem.not.mpr hle
        have hcandidate : i ∈ oldest :: newer := by
          rw [hremoved] at hi
          rw [← hcandidates]
          exact List.mem_reverse.mp (List.mem_of_mem_take hi)
        rcases List.mem_cons.mp hcandidate with rfl | hnew
        · exact hkept hi
        · exact hkept (h.oldest i hi oldest (by simp [hcandidates])
            (List.rel_of_pairwise_cons hascending hnew))
    · rintro (hbudget | hexceeds)
      · refine hof (Or.inl ?_)
        by_contra hne
        have := hexceeded 0 (Nat.pos_of_ne_zero hne)
        rw [List.take_zero, hempty] at this
        omega
      · refine hof (Or.inr ?_)
        by_contra hne
        have hstopped := hstop (by omega)
        have hsublist := @without_sublist _ context.messages
          ((semanticCandidates context.messages).reverse.take r)
          ((semanticCandidates context.messages).reverse.take newer.length)
          fun i hi => List.take_subset_take_left _ (by omega) hi
        have := weight_le_of_sublist hsublist
        omega

end Loop

namespace NewestFirst

/-- Fourteen answers of one token each: the two in the middle are candidates. -/
def answers : Context :=
  { Context.default with
    messages := List.replicate 14 (.from (.assistant "word" none none none)) }

def config : ReductionSettings :=
  { retentionWindow := 0
    evictionWindow := 0
    tokenThreshold := some 13
    pruneThreshold := 0 }

/-- The newer candidate is removed, and the older one stays. -/
theorem compressSemantic_keeps_older :
    ¬ @RemovesOldestFirst Serde.reference answers config
      (@compressSemantic Serde.reference answers config) := by
  intro h
  have holder := @RemovesOldestFirst.oldest Serde.reference _ _ _ h 7 (by decide) 6 (by decide)
    (by decide)
  exact absurd holder (by decide)

end NewestFirst

end HeliosLite
