import Mathlib.Data.List.Sort
import HeliosLite.Reduction.Semantic

/-!
# Pruning

Pruning removes whole messages, the least important ones first, until a context is within its
token budget. The order is computed once, by the indices of the messages; the messages are
then removed from a list that shrinks, where an index behind a removed message stands for
another message, or for none.

## Main definitions

* `pruneOrder` — the indices of the messages, by importance
* `prune` — pruning of a context; `none` where the removal of a message panics
* `EachRemoval` — a property of every removal of a run, of the index and those removed before
* `DeletesReported`, `KeepsBoundaries` — what pruning promises

## Main results

* `pruneLoop_cases` — what a run leaves, removal by removal
* `prune_deletes_reported_iff` — the reported messages are deleted exactly when each removal
  is in front of those before it
* `prune_keeps_boundaries_iff` — the promised messages are kept exactly when no removal is out
  of range or hits the first user message
-/

namespace HeliosLite

open Serde Theory

def ContextMessage.hasReasoningDetails : ContextMessage → Bool
  | .text message => message.reasoningDetails.isSome
  | .tool _ => false
  | .image _ => false

/-- What a pruning did. -/
structure PruneReport where
  pruned : List ℕ
  tokensSaved : ℕ
  remainingTokens : ℕ
  didPrune : Bool

/-- The score of a message at an index. -/
def pruneScore (messages : List MessageEntry) (i : ℕ) (m : ContextMessage) : ℚ :=
  if i = 0 ∨ i = messages.length - 1 ∨ m.hasRole .system then 1 -- always preserve
  else if m.isDroppable then 0.2 -- easy to drop
  else if m.hasToolCall ∨ m.hasToolResult then 0.8 -- important
  else if m.hasReasoningDetails then 0.6 -- moderately important
  else 0.4 -- default

/-- The indices of the messages, those of the lowest score first. -/
def pruneOrder (messages : List MessageEntry) : List ℕ :=
  let scores := messages.zipIdx.map fun (m, i) => pruneScore messages i m.message
  let indices := scores.zipIdx.map fun (score, i) => (i, score)
  (indices.insertionSort fun a b => a.2 ≤ b.2).map (·.1)

section Prune

variable [JsonText]

/-- The loop over the indices, which removes messages until the rest is within the budget. -/
def pruneLoop (budget pruneThreshold : ℕ) :
    List ℕ → List MessageEntry → List ℕ → Option (List MessageEntry × List ℕ)
  | [], remaining, pruned => some (remaining, pruned)
  | idx :: indices, remaining, pruned =>
    if weight remaining ≤ budget then some (remaining, pruned)
    else if pruneThreshold ≤ pruned.length then some (remaining, pruned)
    -- Don't prune boundaries
    else if idx = 0 ∨ idx = remaining.length - 1 then
      pruneLoop budget pruneThreshold indices remaining pruned
    else if messageAt remaining idx fun message => message.hasRole .system then
      pruneLoop budget pruneThreshold indices remaining pruned
    else if idx < remaining.length then
      pruneLoop budget pruneThreshold indices (remaining.eraseIdx idx) (pruned ++ [idx])
    else none

/-- Pruning of a context. -/
def prune (ctx : Context) (config : ReductionSettings) : Option (Context × PruneReport) :=
  let currentTokens := ctx.tokenCountApprox
  if currentTokens ≤ config.budget then
    some (ctx,
      { pruned := [], tokensSaved := 0, remainingTokens := currentTokens, didPrune := false })
  else
    match pruneLoop config.budget config.pruneThreshold (pruneOrder ctx.messages) ctx.messages
        [] with
    | none => none
    | some (messages, pruned) =>
      let remaining := { ctx with messages := messages }
      let tokensAfter := remaining.tokenCountApprox
      some (remaining,
        { pruned := pruned
          tokensSaved := currentTokens - tokensAfter
          remainingTokens := tokensAfter
          didPrune := !pruned.isEmpty })

/-- `P` holds of every index at which the loop removes a message, and of the indices removed
before it. -/
def EachRemoval (P : List ℕ → ℕ → Prop) (budget pruneThreshold : ℕ) :
    List ℕ → List MessageEntry → List ℕ → Prop
  | [], _, _ => True
  | idx :: indices, remaining, pruned =>
    if weight remaining ≤ budget ∨ pruneThreshold ≤ pruned.length then True
    else if (idx = 0 ∨ idx = remaining.length - 1) ∨
        messageAt remaining idx fun message => message.hasRole .system then
      EachRemoval P budget pruneThreshold indices remaining pruned
    else P pruned idx ∧
      EachRemoval P budget pruneThreshold indices (remaining.eraseIdx idx) (pruned ++ [idx])

/-- `P` holds of every removal when the context is pruned. -/
def EachPruned (P : List ℕ → ℕ → Prop) (ctx : Context) (config : ReductionSettings) : Prop :=
  EachRemoval P config.budget config.pruneThreshold (pruneOrder ctx.messages) ctx.messages []

end Prune

/-- The messages that were at the reported indices are deleted and no others, and no index is
reported twice. -/
structure DeletesReported (ctx out : Context) (report : PruneReport) : Prop where
  nodup : report.pruned.Nodup
  /-- The places that the removals leave are those that were not reported. -/
  places : eraseEach (List.range ctx.messages.length) report.pruned =
    unnamed ctx.messages.length report.pruned
  out_eq : out = { ctx with messages := without ctx.messages report.pruned }

/-- The places of the messages that are always to be preserved: the first and the last one,
those of the system and the first one of the user. -/
def Preserved (messages : List MessageEntry) (place : ℕ) : Prop :=
  place < messages.length ∧ (place = 0 ∨ place = messages.length - 1 ∨
    (messageAt messages place fun message => message.hasRole .system) ∨
    messages.findIdx? (fun entry => entry.message.hasRole .user) = some place)

/-- The places that the removals leave hold the messages of the result and include those to
be preserved. -/
structure KeepsBoundaries (ctx out : Context) (report : PruneReport) : Prop where
  messages : out.messages =
    (eraseEach (List.range ctx.messages.length) report.pruned).filterMap (ctx.messages[·]?)
  kept : ∀ place, Preserved ctx.messages place →
    place ∈ eraseEach (List.range ctx.messages.length) report.pruned

/-! ### The order -/

theorem pruneOrder_perm (messages : List MessageEntry) :
    (pruneOrder messages).Perm (List.range messages.length) := by
  rw [pruneOrder]
  refine ((List.perm_insertionSort _ _).map _).trans (List.Perm.of_eq ?_)
  rw [List.map_map]
  exact (List.zipIdx_map_snd 0 _).trans (by simp [List.range_eq_range'])

theorem pruneOrder_nodup (messages : List MessageEntry) : (pruneOrder messages).Nodup :=
  (pruneOrder_perm messages).nodup_iff.mpr List.nodup_range

theorem lt_length_of_mem_pruneOrder {messages : List MessageEntry} {i : ℕ}
    (h : i ∈ pruneOrder messages) : i < messages.length :=
  List.mem_range.mp ((pruneOrder_perm messages).mem_iff.mp h)

/-! ### The loop -/

section Loop

variable [JsonText] {budget pruneThreshold : ℕ}

/-- A run that returns: the messages left are those after the removals of the indices `more`,
each of which is in range and not passed over, and every removal has a property exactly when
each of these has. -/
theorem pruneLoop_cases {indices : List ℕ} {remaining out : List MessageEntry}
    {pruned pruned' : List ℕ}
    (h : pruneLoop budget pruneThreshold indices remaining pruned = some (out, pruned')) :
    ∃ more, pruned' = pruned ++ more ∧ out = eraseEach remaining more ∧
      Erasable remaining.length more ∧ more.Sublist indices ∧
      (∀ front idx back, more = front ++ idx :: back →
        idx ≠ 0 ∧ idx ≠ (eraseEach remaining front).length - 1 ∧
        ¬ messageAt (eraseEach remaining front) idx fun message => message.hasRole .system) ∧
      ∀ P, EachRemoval P budget pruneThreshold indices remaining pruned ↔
        ∀ front idx back, more = front ++ idx :: back → P (pruned ++ front) idx := by
  induction indices generalizing remaining pruned with
  | nil =>
    obtain ⟨rfl, rfl⟩ := Prod.mk.inj (Option.some.inj h)
    exact ⟨[], by simp, rfl, trivial, .slnil, by simp, fun P => by simp [EachRemoval]⟩
  | cons idx indices ih =>
    rw [pruneLoop] at h
    by_cases hstop : weight remaining ≤ budget ∨ pruneThreshold ≤ pruned.length
    · have hdone : some (remaining, pruned) = some (out, pruned') := by
        rcases hstop with hbudget | hthreshold
        · rwa [if_pos hbudget] at h
        · rwa [if_pos hthreshold, ite_self] at h
      obtain ⟨rfl, rfl⟩ := Prod.mk.inj (Option.some.inj hdone)
      exact ⟨[], by simp, rfl, trivial, List.nil_sublist _, by simp, fun P => by
        simp [EachRemoval, hstop]⟩
    rw [if_neg fun hle => hstop (Or.inl hle), if_neg fun hle => hstop (Or.inr hle)] at h
    by_cases hpassed : (idx = 0 ∨ idx = remaining.length - 1) ∨
        messageAt remaining idx fun message => message.hasRole .system
    · have hrest : pruneLoop budget pruneThreshold indices remaining pruned =
          some (out, pruned') := by
        rcases hpassed with hboundary | hsystem
        · rwa [if_pos hboundary] at h
        · rwa [if_pos hsystem, ite_self] at h
      obtain ⟨more, heq, hout, hvalid, hsublist, hkept, hP⟩ := ih hrest
      refine ⟨more, heq, hout, hvalid, hsublist.cons idx, hkept, fun P => ?_⟩
      rw [EachRemoval, if_neg hstop, if_pos hpassed]
      exact hP P
    · obtain ⟨hboundary, hsystem⟩ := not_or.mp hpassed
      rw [if_neg hboundary, if_neg hsystem] at h
      by_cases hlt : idx < remaining.length
      · rw [if_pos hlt] at h
        obtain ⟨more, heq, hout, hvalid, hsublist, hkept, hP⟩ := ih h
        refine ⟨idx :: more, by simpa using heq, hout,
          ⟨hlt, List.length_eraseIdx_of_lt hlt ▸ hvalid⟩, hsublist.cons_cons idx,
          forall_split_cons_iff.mpr ⟨⟨fun hz => hboundary (Or.inl hz),
            fun hl => hboundary (Or.inr hl), hsystem⟩, hkept⟩, fun P => ?_⟩
        rw [EachRemoval, if_neg hstop, if_neg hpassed, hP P,
          @forall_split_cons_iff fun front j => P (pruned ++ front) j]
        simp [List.append_assoc]
      · rw [if_neg hlt] at h
        cases h

/-- Where every removal is in range, as it is where `P` holds and the indices removed before
satisfy `Inv`, the run returns. -/
theorem pruneLoop_isSome {P : List ℕ → ℕ → Prop} {Inv : List ℕ → Prop} {n : ℕ}
    (hP : ∀ front idx, Inv front → idx < n → P front idx →
      idx + front.length < n ∧ Inv (front ++ [idx]))
    {indices : List ℕ} (hindices : ∀ i ∈ indices, i < n)
    {remaining : List MessageEntry} {pruned : List ℕ} (hpruned : Inv pruned)
    (hlength : remaining.length + pruned.length = n)
    (h : EachRemoval P budget pruneThreshold indices remaining pruned) :
    (pruneLoop budget pruneThreshold indices remaining pruned).isSome := by
  induction indices generalizing remaining pruned with
  | nil => rfl
  | cons idx indices ih =>
    have hrest := fun i hi => hindices i (List.mem_cons_of_mem idx hi)
    rw [EachRemoval] at h
    rw [pruneLoop]
    by_cases hbudget : weight remaining ≤ budget
    · rw [if_pos hbudget]
      rfl
    by_cases hthreshold : pruneThreshold ≤ pruned.length
    · rw [if_pos hthreshold, ite_self]
      rfl
    rw [if_neg (not_or.mpr ⟨hbudget, hthreshold⟩)] at h
    rw [if_neg hbudget, if_neg hthreshold]
    by_cases hpassed : (idx = 0 ∨ idx = remaining.length - 1) ∨
        messageAt remaining idx fun message => message.hasRole .system
    · rw [if_pos hpassed] at h
      have hreturns := ih hrest hpruned hlength h
      rcases hpassed with hboundary | hsystem
      · rwa [if_pos hboundary]
      · rwa [if_pos hsystem, ite_self]
    · rw [if_neg hpassed] at h
      obtain ⟨hboundary, hsystem⟩ := not_or.mp hpassed
      obtain ⟨hrange, hinv⟩ := hP pruned idx hpruned (hindices idx List.mem_cons_self) h.1
      have hlt : idx < remaining.length := by omega
      rw [if_neg hboundary, if_neg hsystem, if_pos hlt]
      refine ih hrest hinv ?_ h.2
      rw [List.length_eraseIdx_of_lt hlt, List.length_append, List.length_singleton]
      omega

/-! ### Pruning -/

variable {ctx out : Context} {config : ReductionSettings} {report : PruneReport}

/-- Pruning is what its loop makes of the messages, also where the loop has nothing to do. -/
theorem prune_eq (ctx : Context) (config : ReductionSettings) :
    ∃ report : List MessageEntry × List ℕ → PruneReport,
      (∀ result, (report result).pruned = result.2) ∧
      prune ctx config =
        (pruneLoop config.budget config.pruneThreshold (pruneOrder ctx.messages) ctx.messages
          []).map fun result => ({ ctx with messages := result.1 }, report result) := by
  have hcount : ctx.tokenCountApprox = weight ctx.messages := rfl
  refine ⟨fun result =>
    { pruned := result.2
      tokensSaved := weight ctx.messages - weight result.1
      remainingTokens := weight result.1
      didPrune := !result.2.isEmpty }, fun _ => rfl, ?_⟩
  rw [prune, hcount]
  by_cases hbudget : weight ctx.messages ≤ config.budget
  · have hloop : pruneLoop config.budget config.pruneThreshold (pruneOrder ctx.messages)
        ctx.messages [] = some (ctx.messages, []) := by
      cases pruneOrder ctx.messages with
      | nil => rfl
      | cons idx indices => rw [pruneLoop, if_pos hbudget]
    rw [if_pos hbudget, hloop]
    simp only [Option.map_some, Nat.sub_self, List.isEmpty_nil, Bool.not_true]
  · rw [if_neg hbudget]
    cases pruneLoop config.budget config.pruneThreshold (pruneOrder ctx.messages) ctx.messages []
      with
    | none => rfl
    | some result => rfl

/-- A pruning that returns, removal by removal. -/
theorem prune_cases (h : prune ctx config = some (out, report)) :
    out = { ctx with messages := eraseEach ctx.messages report.pruned } ∧
      Erasable ctx.messages.length report.pruned ∧ report.pruned.Nodup ∧
      (∀ i ∈ report.pruned, i < ctx.messages.length) ∧
      (∀ front idx back, report.pruned = front ++ idx :: back →
        idx ≠ 0 ∧ idx ≠ (eraseEach ctx.messages front).length - 1 ∧
        ¬ messageAt (eraseEach ctx.messages front) idx fun message =>
          message.hasRole .system) ∧
      ∀ P, EachPruned P ctx config ↔
        ∀ front idx back, report.pruned = front ++ idx :: back → P front idx := by
  obtain ⟨reportOf, hreport, hprune⟩ := prune_eq ctx config
  rw [hprune] at h
  obtain ⟨⟨messages, pruned⟩, hloop, heq⟩ := Option.map_eq_some_iff.mp h
  obtain ⟨rfl, rfl⟩ := Prod.mk.inj heq
  obtain ⟨more, hmore, rfl, hvalid, hsublist, hkept, hP⟩ := pruneLoop_cases hloop
  rw [List.nil_append] at hmore
  rw [hreport]
  subst hmore
  exact ⟨rfl, hvalid, hsublist.nodup (pruneOrder_nodup _),
    fun i hi => lt_length_of_mem_pruneOrder (hsublist.subset hi), hkept, hP⟩

theorem exists_prune_of_eachPruned {P : List ℕ → ℕ → Prop} {Inv : List ℕ → Prop}
    (hP : ∀ front idx, Inv front → idx < ctx.messages.length → P front idx →
      idx + front.length < ctx.messages.length ∧ Inv (front ++ [idx]))
    (hnil : Inv []) (h : EachPruned P ctx config) :
    ∃ out report, prune ctx config = some (out, report) := by
  have hreturns := pruneLoop_isSome hP (fun i => lt_length_of_mem_pruneOrder) hnil rfl h
  obtain ⟨result, hloop⟩ := Option.isSome_iff_exists.mp hreturns
  obtain ⟨reportOf, -, hprune⟩ := prune_eq ctx config
  rw [hprune, hloop]
  exact ⟨_, _, rfl⟩

/-- Pruning returns and deletes the messages that it reports, no index twice, exactly when each
message is removed in front of those removed before. -/
theorem prune_deletes_reported_iff (ctx : Context) (config : ReductionSettings) :
    (∃ out report, prune ctx config = some (out, report) ∧ DeletesReported ctx out report) ↔
      EachPruned (fun earlier idx => ∀ i ∈ earlier, idx < i) ctx config := by
  constructor
  · rintro ⟨out, report, hprune, hdeletes⟩
    obtain ⟨-, hvalid, hnodup, hlt, -, hP⟩ := prune_cases hprune
    rw [hP]
    exact descending_iff_forall_split.mp
      ((eraseEach_range_eq_iff hvalid hnodup hlt).mp hdeletes.places)
  · intro h
    have hrange : ∀ front idx,
        (front.Pairwise (· > ·) ∧ ∀ i ∈ front, i < ctx.messages.length) →
        idx < ctx.messages.length → (∀ i ∈ front, idx < i) →
        idx + front.length < ctx.messages.length ∧
          (front ++ [idx]).Pairwise (· > ·) ∧ ∀ i ∈ front ++ [idx], i < ctx.messages.length := by
      rintro front idx ⟨hdesc, hfront⟩ hidx hbelow
      have hdesc' : (front ++ [idx]).Pairwise (· > ·) := by
        rw [List.pairwise_append]
        exact ⟨hdesc, List.pairwise_singleton _ _, fun i hi j hj => by
          rw [List.mem_singleton.mp hj]
          exact hbelow i hi⟩
      have hlt' : ∀ i ∈ front ++ [idx], i < ctx.messages.length := by
        intro i hi
        rcases List.mem_append.mp hi with hi | hi
        · exact hfront i hi
        · rwa [List.mem_singleton.mp hi]
      have hlast := (erasable_append.mp (erasable_of_descending hdesc' hlt')).2.1
      exact ⟨by omega, hdesc', hlt'⟩
    obtain ⟨out, report, hprune⟩ := exists_prune_of_eachPruned hrange ⟨.nil, by simp⟩ h
    obtain ⟨rfl, hvalid, hnodup, hlt, -, hP⟩ := prune_cases hprune
    have hdesc := descending_iff_forall_split.mpr ((hP _).mp h)
    refine ⟨_, report, hprune, hnodup, eraseEach_range_of_descending hdesc hlt, ?_⟩
    rw [eraseEach_of_descending hdesc hlt]

omit [JsonText] in
/-- A removal that is not passed over hits neither end nor a message of the system. -/
theorem ne_preserved_of_not_passed {messages : List MessageEntry} {front : List ℕ}
    {idx place : ℕ}
    (hat : (eraseEach (List.range messages.length) front)[idx]? = some place)
    (hzero : idx ≠ 0) (hlast : idx ≠ (eraseEach messages front).length - 1)
    (hsystem : ¬ messageAt (eraseEach messages front) idx fun message =>
      message.hasRole .system) :
    place ≠ 0 ∧ place ≠ messages.length - 1 ∧
      ¬ messageAt messages place fun message => message.hasRole .system := by
  have hascending : (eraseEach (List.range messages.length) front).Pairwise (· < ·) :=
    List.pairwise_lt_range.sublist (eraseEach_sublist _ _)
  have hlen : (eraseEach (List.range messages.length) front).length =
      (eraseEach messages front).length := length_eraseEach_range _ _
  obtain ⟨hlt, hval⟩ := List.getElem?_eq_some_iff.mp hat
  have hle := le_getElem_of_ascending hascending hlt
  refine ⟨by omega, fun hplace => ?_, ?_⟩
  · have hnext : idx + 1 < (eraseEach (List.range messages.length) front).length := by omega
    have hgreater := List.pairwise_iff_getElem.mp hascending idx (idx + 1) hlt hnext (by omega)
    have hmem : (eraseEach (List.range messages.length) front)[idx + 1] ∈
        List.range messages.length := (eraseEach_sublist _ _).subset (List.getElem_mem hnext)
    rw [List.mem_range] at hmem
    omega
  · rwa [messageAt, ← getElem?_eraseEach hat]

/-- Pruning returns and keeps the first and the last message, those of the system and the first
one of the user exactly when no message is removed behind the end and none that was the first
one of the user. -/
theorem prune_keeps_boundaries_iff (ctx : Context) (config : ReductionSettings) :
    (∃ out report, prune ctx config = some (out, report) ∧ KeepsBoundaries ctx out report) ↔
      EachPruned (fun earlier idx => idx + earlier.length < ctx.messages.length ∧
        ∀ place, (ctx.messages.findIdx? fun entry => entry.message.hasRole .user) = some place →
          (eraseEach (List.range ctx.messages.length) earlier)[idx]? ≠ some place)
        ctx config := by
  constructor
  · rintro ⟨out, report, hprune, hkeeps⟩
    obtain ⟨-, hvalid, -, -, -, hP⟩ := prune_cases hprune
    rw [hP]
    intro front idx back hsplit
    constructor
    · rw [hsplit] at hvalid
      have hidx := (erasable_append.mp hvalid).2.1
      omega
    · intro place hplace
      have hlt := (List.findIdx?_eq_some_iff_getElem.mp hplace).1
      have hkept := hkeeps.kept place ⟨hlt, Or.inr (Or.inr (Or.inr hplace))⟩
      exact ((mem_eraseEach_iff List.nodup_range).mp hkept).2 front idx back hsplit
  · intro h
    obtain ⟨out, report, hprune⟩ := exists_prune_of_eachPruned
      (fun front idx (_ : True) _ hidx => ⟨hidx.1, trivial⟩) trivial h
    obtain ⟨rfl, -, -, -, hpassed, hP⟩ := prune_cases hprune
    refine ⟨_, report, hprune, eraseEach_eq_places _ _, fun place hplace => ?_⟩
    refine (mem_eraseEach_iff List.nodup_range).mpr
      ⟨List.mem_range.mpr hplace.1, fun front idx back hsplit hat => ?_⟩
    obtain ⟨hzero, hlast, hsystem⟩ := hpassed front idx back hsplit
    obtain ⟨hne, hnelast, hnesystem⟩ := ne_preserved_of_not_passed hat hzero hlast hsystem
    rcases hplace.2 with hfirst | hend | hsys | huser
    · exact hne hfirst
    · exact hnelast hend
    · exact hnesystem hsys
    · exact ((hP _).mp h front idx back hsplit).2 place huser hat

end Loop

namespace ShiftedIndices

/-- A user and the assistant in turn. -/
def talk : Context :=
  { Context.default with
    messages := [.from (.user "a" none), .from (.assistant "b" none none none),
      .from (.user "c" none), .from (.assistant "d" none none none), .from (.user "e" none)] }

/-- A prompt of the system, a question and its answer. -/
def prompted : Context :=
  { Context.default with
    messages := [.from (.system "a"), .from (.user "b" none),
      .from (.assistant "c" none none none)] }

/-- No budget at all, and at most so many messages to remove. -/
def config (pruneThreshold : ℕ) : ReductionSettings :=
  { retentionWindow := 0
    evictionWindow := 0
    tokenThreshold := some 0
    pruneThreshold := pruneThreshold }

/-- The second removal hits the message behind the reported one, and removals that nothing stops
end in a panic. -/
theorem prune_deletes_unreported :
    (∀ out report, @prune Serde.reference talk (config 2) = some (out, report) →
      out.messages ≠ without talk.messages report.pruned) ∧
    @prune Serde.reference talk (config 10) = none := by
  constructor
  · intro out report hprune
    have hrun : (@prune Serde.reference talk (config 2)).map
        (fun r => decide (r.1.messages = without talk.messages r.2.pruned)) = some false := by
      decide +kernel
    rw [hprune] at hrun
    exact of_decide_eq_false (Option.some.inj hrun)
  · have hpanics : (@prune Serde.reference talk (config 10)).isNone := by decide +kernel
    exact Option.isNone_iff_eq_none.mp hpanics

/-- The first message of the user, behind a prompt of the system, is removed. -/
theorem prune_drops_first_user :
    ¬ ∃ out report, @prune Serde.reference prompted (config 1) = some (out, report) ∧
      KeepsBoundaries prompted out report := by
  rintro ⟨out, report, hprune, hkeeps⟩
  have hrun : (@prune Serde.reference prompted (config 1)).map (·.2.pruned) = some [1] := by
    decide +kernel
  rw [hprune] at hrun
  have hpruned : report.pruned = [1] := Option.some.inj hrun
  have hkept := hkeeps.kept 1 ⟨by decide, by decide⟩
  rw [hpruned] at hkept
  exact absurd hkept (by decide)

end ShiftedIndices

end HeliosLite
