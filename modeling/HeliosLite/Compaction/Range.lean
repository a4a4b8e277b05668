import Mathlib.Data.List.DropRight
import HeliosLite.Compaction.Compactor

/-!
# The range of a compaction

The index search of `findSequencePreservingLastN` described on the messages themselves:
the candidates are the messages from the first assistant message up to the last `k`, and
the span is what remains of them when a call group that the cut would divide is left out.
The context that `Compactor.compact` returns is described by the three parts into which the
replaced span divides the messages.

## Main definitions

* `candidates`, `span` — the messages that may be replaced, and those that should be
* `splitsFirstGroup` — the cut falls between the results of a call group that opens the
  context
* `replacedSpan` — the messages that are replaced

## Main results

* `findsSpan` — the range search finds exactly `replacedSpan`
* `Compactor.compact_cases` — compaction returns its input, or the messages around the
  replaced span with the summary in its place, the droppable messages removed and the
  reasoning carried over
-/

namespace HeliosLite

open Serde

/-- A text message of the assistant. -/
def isAssistant (entry : MessageEntry) : Bool := entry.message.hasRole .assistant

def isResult (entry : MessageEntry) : Bool := entry.message.hasToolResult

def isCall (entry : MessageEntry) : Bool := entry.message.hasToolCall

/-- The messages from the first assistant message up to the last `k`. -/
def candidates (messages : List MessageEntry) (k : ℕ) : List MessageEntry :=
  (messages.rdrop k).dropWhile fun entry => !isAssistant entry

/-- The candidates without the call group that the cut in front of the last `k` messages
would divide. -/
def span (messages : List MessageEntry) (k : ℕ) : List MessageEntry :=
  let group := candidates messages k
  if group.getLast?.any isCall then group.dropLast
  else if group.getLast?.any isResult && (messages.rtake k).head?.any isResult then
    (group.rdropWhile isResult).dropLast
  else group

/-- Whether the context opens with a call group and the cut in front of the last `k`
messages falls between its results. -/
def splitsFirstGroup (messages : List MessageEntry) (k : ℕ) : Bool :=
  match messages.rdrop k with
  | opening :: result :: results =>
    isAssistant opening && (result :: results).all isResult
      && (messages.rtake k).head?.any isResult
  | _ => false

/-- The messages that the range search picks. Where it would have to move back past the
start of the context it stops at the opening message instead. -/
def replacedSpan (messages : List MessageEntry) (k : ℕ) : List MessageEntry :=
  if splitsFirstGroup messages k then messages.take 1 else span messages k

theorem not_isResult_of_isAssistant {entry : MessageEntry} (h : isAssistant entry) :
    isResult entry = false := by
  obtain ⟨message, usage⟩ := entry
  cases message <;> simp_all [isAssistant, isResult, ContextMessage.hasRole,
    ContextMessage.hasToolResult]

theorem not_isResult_of_isCall {entry : MessageEntry} (h : isCall entry) :
    isResult entry = false := by
  obtain ⟨message, usage⟩ := entry
  cases message <;> simp_all [isCall, isResult, ContextMessage.hasToolCall,
    ContextMessage.hasToolResult]

theorem messageAt_length {l l' : List MessageEntry} {entry : MessageEntry}
    {p : ContextMessage → Bool} : messageAt (l ++ entry :: l') l.length p = p entry.message := by
  simp [messageAt]

theorem messageAt_eq_head {l l' : List MessageEntry} {p : ContextMessage → Bool} :
    messageAt (l ++ l') l.length p = l'.head?.any fun entry => p entry.message := by
  cases l' <;> simp [messageAt]

theorem messageAt_eq_getLast {l l' : List MessageEntry} {p : ContextMessage → Bool}
    (h : l ≠ []) :
    messageAt (l ++ l') (l.length - 1) p = l.getLast?.any fun entry => p entry.message := by
  obtain ⟨init, entry, rfl⟩ := (List.eq_nil_or_concat' l).resolve_left h
  simp [messageAt]

/-- The walk back over tool results stops at the last candidate that is none. -/
theorem skipToolResults_eq {pre mid : List MessageEntry} {opening : MessageEntry}
    (hopening : isAssistant opening) (tail : List MessageEntry) :
    skipToolResults (pre ++ opening :: mid ++ tail) pre.length (pre.length + mid.length)
      = pre.length + ((opening :: mid).rdropWhile isResult).length - 1 := by
  have hres : isResult opening = false := not_isResult_of_isAssistant hopening
  induction mid using List.reverseRecOn generalizing tail with
  | nil =>
    have hstop : messageAt (pre ++ opening :: tail) pre.length
        ContextMessage.hasToolResult = false := by
      rw [messageAt_length]
      exact hres
    rw [List.rdropWhile_singleton, if_neg (by simp [hres])]
    cases hlen : pre.length with
    | zero => simp [skipToolResults]
    | succ n =>
      rw [hlen] at hstop
      simp [skipToolResults, hstop]
  | append_singleton mid entry ih =>
    have hat : messageAt (pre ++ opening :: (mid ++ [entry]) ++ tail)
        (pre.length + mid.length + 1) ContextMessage.hasToolResult = isResult entry := by
      have := @messageAt_length (pre ++ opening :: mid) tail entry ContextMessage.hasToolResult
      rw [isResult]
      simpa [Nat.add_assoc] using this
    have hindex : pre.length + (mid ++ [entry]).length = pre.length + mid.length + 1 := by
      simp [Nat.add_assoc]
    rw [hindex, skipToolResults, hat, ← List.cons_append]
    by_cases hentry : isResult entry = true
    · have hrest := ih (entry :: tail)
      rw [if_pos ⟨by omega, hentry⟩, List.rdropWhile_concat_pos _ _ _ hentry, ← hrest]
      simp
    · rw [if_neg (by simp [hentry]), List.rdropWhile_concat_neg _ _ _ hentry]
      simp [Nat.add_assoc]

/-- The context cut into what precedes the first assistant message, the candidates, which
are `opening :: mid`, and the last `k` messages. -/
structure CandidateSplit (messages : List MessageEntry) (k : ℕ)
    (pre : List MessageEntry) (opening : MessageEntry) (mid tail : List MessageEntry) :
    Prop where
  append : messages = pre ++ opening :: mid ++ tail
  before : ∀ entry ∈ pre, isAssistant entry = false
  opens : isAssistant opening
  length : tail.length = k

theorem exists_candidateSplit {messages : List MessageEntry} {k : ℕ}
    (h : candidates messages k ≠ []) :
    ∃ pre opening mid tail, CandidateSplit messages k pre opening mid tail := by
  obtain ⟨opening, mid, hcand⟩ := List.exists_cons_of_ne_nil h
  have hsplit : messages.rdrop k =
      (messages.rdrop k).takeWhile (fun entry => !isAssistant entry) ++ opening :: mid := by
    rw [← hcand, candidates, List.takeWhile_append_dropWhile]
  have hlt : k < messages.length := by
    by_contra hle
    rw [candidates, List.rdrop, Nat.sub_eq_zero_of_le (not_lt.mp hle)] at h
    simp at h
  refine ⟨(messages.rdrop k).takeWhile fun entry => !isAssistant entry, opening, mid,
    messages.rtake k, ?_, ?_, ?_, ?_⟩
  · rw [← hsplit, List.rdrop, List.rtake, List.take_append_drop]
  · intro entry hentry
    simpa using List.mem_takeWhile_imp hentry
  · have := List.head?_dropWhile_not (fun entry => !isAssistant entry) (messages.rdrop k)
    rw [← candidates, hcand] at this
    simpa using this
  · rw [List.rtake, List.length_drop]
    omega

namespace CandidateSplit

variable {messages : List MessageEntry} {k : ℕ} {pre mid tail : List MessageEntry}
  {opening : MessageEntry}

theorem rdrop_eq (h : CandidateSplit messages k pre opening mid tail) :
    messages.rdrop k = pre ++ opening :: mid := by
  rw [h.append, ← h.length, List.rdrop_append_length]

theorem rtake_eq (h : CandidateSplit messages k pre opening mid tail) :
    messages.rtake k = tail := by
  rw [h.append, ← h.length, List.rtake, List.length_append, Nat.add_sub_cancel, List.drop_left]

theorem candidates_eq (h : CandidateSplit messages k pre opening mid tail) :
    candidates messages k = opening :: mid := by
  rw [candidates, h.rdrop_eq, List.dropWhile_append_of_pos (by simpa using h.before)]
  simp [h.opens]

end CandidateSplit

theorem findSequence_of_candidates_nil {context : Context} {k : ℕ}
    (h : candidates context.messages k = []) : findSequencePreservingLastN context k = none := by
  rw [findSequencePreservingLastN]
  cases hfind : context.messages.findIdx? fun entry => entry.message.hasRole .assistant with
  | none => simp
  | some start =>
    obtain ⟨hstart, hrole, _⟩ := List.findIdx?_eq_some_iff_getElem.mp hfind
    by_cases hk : context.messages.length ≤ k
    · simp [hk]
    have hbefore : context.messages.length - k - 1 < start := by
      by_contra hle
      have hmem : context.messages[start] ∈ context.messages.rdrop k := by
        rw [List.rdrop, List.mem_take_iff_getElem]
        exact ⟨start, by omega, rfl⟩
      have hnot := List.dropWhile_eq_nil_iff.mp h _ hmem
      simp [isAssistant, hrole] at hnot
    simp [hbefore]

/-- The range search on a context cut into what precedes the first assistant message, the
candidates and the messages to keep. -/
theorem CandidateSplit.findSequence {context : Context} {k : ℕ}
    {pre mid tail : List MessageEntry} {opening : MessageEntry}
    (h : CandidateSplit context.messages k pre opening mid tail) :
    findSequencePreservingLastN context k =
      if (opening :: mid).getLast?.any isCall then
        if mid = [] then none else some (pre.length, pre.length + mid.length - 1)
      else if (opening :: mid).getLast?.any isResult ∧ tail.head?.any isResult then
        let last := pre.length + ((opening :: mid).rdropWhile isResult).length - 1 - 1
        if pre.length ≤ last then some (pre.length, last) else none
      else some (pre.length, pre.length + mid.length) := by
  obtain ⟨hmessages, hpre, hopening, rfl⟩ := h
  have hlen : context.messages.length = pre.length + mid.length + 1 + tail.length := by
    simp only [hmessages, List.length_append, List.length_cons]
    omega
  have hlast : context.messages.length - tail.length - 1 = pre.length + mid.length := by omega
  have hfind : (context.messages.findIdx? fun entry => entry.message.hasRole .assistant)
      = some pre.length := by
    have hnone : (pre.findIdx? fun entry => entry.message.hasRole .assistant) = none :=
      List.findIdx?_eq_none_iff.mpr hpre
    have hrole : opening.message.hasRole .assistant = true := hopening
    simp [hmessages, List.findIdx?_append, List.findIdx?_cons, hnone, hrole]
  have hat : ∀ p, messageAt context.messages (pre.length + mid.length) p
      = (opening :: mid).getLast?.any fun entry => p entry.message := by
    intro p
    have hne : (opening :: mid).getLast?.isSome := by simp
    have := @messageAt_eq_getLast (pre ++ opening :: mid) tail p (by simp)
    rw [List.getLast?_append, Option.or_of_isSome hne] at this
    simpa [hmessages] using this
  have hnext : ∀ p, messageAt context.messages (pre.length + mid.length + 1) p
      = tail.head?.any fun entry => p entry.message := by
    intro p
    have := @messageAt_eq_head (pre ++ opening :: mid) tail p
    simpa [hmessages, Nat.add_assoc] using this
  have hcall : messageAt context.messages (pre.length + mid.length) ContextMessage.hasToolCall
      = (opening :: mid).getLast?.any isCall := hat _
  have hresult : messageAt context.messages (pre.length + mid.length)
      ContextMessage.hasToolResult = (opening :: mid).getLast?.any isResult := hat _
  have hnextResult : messageAt context.messages (pre.length + mid.length + 1)
      ContextMessage.hasToolResult = tail.head?.any isResult := hnext _
  have hmid : pre.length + mid.length = pre.length ↔ mid = [] := by simp
  have hskip := @skipToolResults_eq pre mid opening hopening tail
  rw [← hmessages] at hskip
  rw [findSequencePreservingLastN, if_neg (by simp [hmessages])]
  simp only [hfind, hlast]
  rw [if_neg (by omega), if_neg (by omega), if_neg (by omega)]
  simp only [hcall, hresult, hnextResult, hskip, hmid]
  by_cases hdivided : (opening :: mid).getLast?.any isResult ∧ tail.head?.any isResult
  · simp only [if_pos hdivided]
  · simp only [if_neg hdivided, Nat.le_add_right, if_true]

/-- The context cut around a range that is replaced. -/
structure RangeSplit (messages : List MessageEntry) (k : ℕ)
    (pre mid post : List MessageEntry) : Prop where
  append : messages = pre ++ mid ++ post
  before : ∀ entry ∈ pre, isAssistant entry = false
  nonempty : mid ≠ []
  opens : ∀ entry ∈ mid.head?, isAssistant entry
  /-- The last `k` messages stay behind the range. -/
  keeps : k ≤ post.length
  /-- Where no opening group is split, the range ends in front of a message that is no
  result, or behind one that is neither a call nor a result. -/
  cut : splitsFirstGroup messages k = false →
    (∀ entry ∈ post.head?, isResult entry = false) ∨
      ∀ entry ∈ mid.getLast?, isCall entry = false ∧ isResult entry = false

/-- The range search finds the span to replace, and no range where the span is empty. -/
def FindsSpan (context : Context) (k : ℕ) : Prop :=
  (findSequencePreservingLastN context k = none ∧ replacedSpan context.messages k = []) ∨
    ∃ pre post, RangeSplit context.messages k pre (replacedSpan context.messages k) post ∧
      findSequencePreservingLastN context k =
        some (pre.length, pre.length + (replacedSpan context.messages k).length - 1)

theorem getLast?_any_isResult {opening : MessageEntry} {mid : List MessageEntry}
    (hmid : mid ≠ []) (h : ∀ entry ∈ mid, isResult entry) :
    (opening :: mid).getLast?.any isResult := by
  rw [List.getLast?_cons_of_ne_nil hmid, List.getLast?_eq_some_getLast hmid]
  exact h _ (List.getLast_mem hmid)

/-- The candidates without their trailing results still start with the opening message. -/
theorem rdropWhile_isResult_eq {opening : MessageEntry} (mid : List MessageEntry)
    (hopening : isAssistant opening) :
    ∃ r results, (opening :: mid).rdropWhile isResult = opening :: r ∧ mid = r ++ results ∧
      (∀ entry ∈ results, isResult entry) ∧ ∀ h : r ≠ [], isResult (r.getLast h) = false := by
  have hres : isResult opening = false := not_isResult_of_isAssistant hopening
  have hne : (opening :: mid).rdropWhile isResult ≠ [] := by
    rw [Ne, List.rdropWhile_eq_nil_iff]
    intro hall
    simpa [hres] using hall opening List.mem_cons_self
  have hsplit := @List.rdropWhile_append_rtakeWhile _ isResult (opening :: mid)
  obtain ⟨entry, r, hr⟩ := List.exists_cons_of_ne_nil hne
  rw [hr, List.cons_append] at hsplit
  obtain ⟨rfl, hmid⟩ := List.cons.inj hsplit
  refine ⟨r, _, hr, hmid.symm, fun entry hentry => List.mem_rtakeWhile_imp hentry, ?_⟩
  intro hr'
  have hlast := List.rdropWhile_last_not isResult (entry :: mid) hne
  simp only [hr, List.getLast_cons hr'] at hlast
  simpa using hlast

namespace CandidateSplit

variable {messages : List MessageEntry} {k : ℕ} {pre mid tail : List MessageEntry}
  {opening : MessageEntry}

/-- The opening group is split exactly when the candidates are one call group at the start of
the context and its results continue behind the cut. -/
theorem splitsFirstGroup_iff (h : CandidateSplit messages k pre opening mid tail) :
    splitsFirstGroup messages k ↔ pre = [] ∧ mid ≠ [] ∧ (∀ entry ∈ mid, isResult entry) ∧
      tail.head?.any isResult := by
  rw [splitsFirstGroup, h.rdrop_eq, h.rtake_eq]
  cases pre with
  | nil =>
    cases mid with
    | nil => simp
    | cons result results => simp [h.opens, and_assoc]
  | cons entry pre =>
    have hentry : isAssistant entry = false := h.before entry List.mem_cons_self
    cases pre <;> simp [hentry]

theorem span_eq (h : CandidateSplit messages k pre opening mid tail) :
    span messages k =
      if (opening :: mid).getLast?.any isCall then (opening :: mid).dropLast
      else if (opening :: mid).getLast?.any isResult ∧ tail.head?.any isResult then
        ((opening :: mid).rdropWhile isResult).dropLast
      else opening :: mid := by
  rw [span, h.candidates_eq, h.rtake_eq]
  simp

/-- A cut behind a call does not fall between results. -/
theorem not_splitsFirstGroup_of_call (h : CandidateSplit messages k pre opening mid tail)
    (hcall : (opening :: mid).getLast?.any isCall) : splitsFirstGroup messages k = false := by
  rw [Bool.eq_false_iff, Ne, h.splitsFirstGroup_iff]
  rintro ⟨-, hmid, hall, -⟩
  rw [List.getLast?_cons_of_ne_nil hmid, List.getLast?_eq_some_getLast hmid] at hcall
  have hres := not_isResult_of_isCall hcall
  rw [hall _ (List.getLast_mem hmid)] at hres
  exact Bool.noConfusion hres

/-- A cut behind a call: the call stays with the messages that are kept. -/
private theorem cases_of_call {context : Context}
    (h : CandidateSplit context.messages k pre opening mid tail)
    (hcall : (opening :: mid).getLast?.any isCall) :
    FindsSpan context k := by
  have hfind := h.findSequence
  have hspan := h.span_eq
  rw [if_pos hcall] at hfind hspan
  have hsplits := h.not_splitsFirstGroup_of_call hcall
  have hreplaced : replacedSpan context.messages k = (opening :: mid).dropLast := by
    simpa [replacedSpan, hsplits] using hspan
  rw [FindsSpan, hreplaced, hfind]
  rcases List.eq_nil_or_concat' mid with rfl | ⟨init, entry, rfl⟩
  · exact Or.inl ⟨by simp, by simp⟩
  · rw [← List.cons_append, List.getLast?_concat] at hcall
    have hentry : isCall entry = true := hcall
    rw [← List.cons_append, List.dropLast_concat]
    refine Or.inr ⟨pre, entry :: tail, ⟨?_, h.before, by simp, by simp [h.opens], ?_, ?_⟩,
      by simp⟩
    · simpa using h.append
    · simp [h.length]
    · intro _
      exact Or.inl (by simpa using not_isResult_of_isCall hentry)

/-- A cut between two results: the whole call group stays with the messages that are kept,
unless it opens the context. -/
private theorem cases_of_divided {context : Context}
    (h : CandidateSplit context.messages k pre opening mid tail)
    (hcall : (opening :: mid).getLast?.any isCall = false)
    (hdivided : (opening :: mid).getLast?.any isResult ∧ tail.head?.any isResult) :
    FindsSpan context k := by
  have hfind := h.findSequence
  have hspan := h.span_eq
  have hiff := h.splitsFirstGroup_iff
  rw [if_neg (by simp [hcall]), if_pos hdivided] at hfind hspan
  obtain ⟨r, results, hr, hmid, hresults, hlast⟩ := rdropWhile_isResult_eq mid h.opens
  rw [hr] at hfind hspan
  have happend := h.append
  have hlength := h.length
  rcases List.eq_nil_or_concat' r with rfl | ⟨init, entry, rfl⟩
  · -- the group reaches back to the opening message
    rw [List.nil_append] at hmid
    subst hmid
    have hne : mid ≠ [] := by
      rintro rfl
      simpa [not_isResult_of_isAssistant h.opens] using hdivided.1
    by_cases hpre : pre = []
    · subst hpre
      have hsplits : splitsFirstGroup context.messages k :=
        hiff.mpr ⟨rfl, hne, hresults, hdivided.2⟩
      have hreplaced : replacedSpan context.messages k = [opening] := by
        rw [replacedSpan, if_pos hsplits, happend]
        rfl
      rw [FindsSpan, hreplaced, hfind]
      refine Or.inr ⟨[], mid ++ tail,
        ⟨by simpa using happend, h.before, by simp, by simp [h.opens], ?_, ?_⟩, by simp⟩
      · simp [hlength]
      · simp [hsplits]
    · have hsplits : splitsFirstGroup context.messages k = false := by
        rw [Bool.eq_false_iff, Ne, hiff]
        exact fun hcontra => hpre hcontra.1
      have hpos : 0 < pre.length := List.length_pos_iff.mpr hpre
      refine Or.inl ⟨?_, by simp [replacedSpan, hsplits, hspan]⟩
      rw [hfind]
      exact if_neg (by simp; omega)
  · -- a message that is no result stands between the opening message and the results
    have hentry : isResult entry = false := by simpa using hlast (by simp)
    have hsplits : splitsFirstGroup context.messages k = false := by
      rw [Bool.eq_false_iff, Ne, hiff]
      rintro ⟨-, -, hall, -⟩
      have := hall entry (by simp [hmid])
      simp [hentry] at this
    have hreplaced : replacedSpan context.messages k = opening :: init := by
      rw [replacedSpan, hsplits, hspan, ← List.cons_append, List.dropLast_concat]
      simp
    rw [FindsSpan, hreplaced, hfind]
    refine Or.inr ⟨pre, entry :: results ++ tail,
      ⟨?_, h.before, by simp, by simp [h.opens], ?_, ?_⟩, ?_⟩
    · simpa [hmid] using happend
    · simp only [List.cons_append, List.length_cons, List.length_append, hlength]
      omega
    · intro _
      exact Or.inl (by simpa using hentry)
    · simp

/-- A cut that divides nothing. -/
private theorem cases_of_whole {context : Context}
    (h : CandidateSplit context.messages k pre opening mid tail)
    (hcall : (opening :: mid).getLast?.any isCall = false)
    (hwhole : ¬ ((opening :: mid).getLast?.any isResult ∧ tail.head?.any isResult)) :
    FindsSpan context k := by
  have hfind := h.findSequence
  have hspan := h.span_eq
  rw [if_neg (by simp [hcall]), if_neg hwhole] at hfind hspan
  have hsplits : splitsFirstGroup context.messages k = false := by
    rw [Bool.eq_false_iff, Ne, h.splitsFirstGroup_iff]
    rintro ⟨-, hmid, hall, htail⟩
    exact hwhole ⟨getLast?_any_isResult hmid hall, htail⟩
  have hreplaced : replacedSpan context.messages k = opening :: mid := by
    simpa [replacedSpan, hsplits] using hspan
  rw [FindsSpan, hreplaced, hfind]
  refine Or.inr ⟨pre, tail,
    ⟨h.append, h.before, by simp, by simp [h.opens], h.length.ge, ?_⟩, by simp⟩
  intro _
  by_cases htail : tail.head?.any isResult = true
  · refine Or.inr fun entry hentry => ?_
    rw [Option.mem_def] at hentry
    rw [hentry] at hcall hwhole
    exact ⟨by simpa using hcall, by simpa [htail] using hwhole⟩
  · rw [Option.any_eq_true] at htail
    refine Or.inl fun entry hentry => ?_
    by_contra hresult
    exact htail ⟨entry, hentry, by simpa using hresult⟩

end CandidateSplit

/-- The range search finds exactly the span to replace, and no range where the span is
empty. -/
theorem findsSpan (context : Context) (k : ℕ) : FindsSpan context k := by
  by_cases hcand : candidates context.messages k = []
  · have hsplits : splitsFirstGroup context.messages k = false := by
      rw [splitsFirstGroup]
      split
      · next opening _ _ hrdrop =>
        have hopening := List.dropWhile_eq_nil_iff.mp hcand opening (by simp [hrdrop])
        simp_all
      · rfl
    refine Or.inl ⟨findSequence_of_candidates_nil hcand, ?_⟩
    simp [replacedSpan, hsplits, span, hcand]
  obtain ⟨pre, opening, mid, tail, h⟩ := exists_candidateSplit hcand
  by_cases hcall : (opening :: mid).getLast?.any isCall
  · exact h.cases_of_call hcall
  rw [Bool.not_eq_true] at hcall
  by_cases hdivided : (opening :: mid).getLast?.any isResult ∧ tail.head?.any isResult
  · exact h.cases_of_divided hcall hdivided
  · exact h.cases_of_whole hcall hdivided

/-! ### What compaction returns -/

/-- The messages without the droppable ones. -/
def withoutDroppable (messages : List MessageEntry) : List MessageEntry :=
  messages.filter fun entry => !entry.message.isDroppable

/-- The entry of the summary, which carries the usage last reported in the span. -/
def summaryEntry (summary : String) (span : List MessageEntry) : MessageEntry :=
  { message := .user summary none
    usage := span.reverse.findSome? (·.usage) }

/-- The reasoning that a span hands over: the last one of its messages that stay. -/
def lastReasoning (span : List MessageEntry) : Option (List ReasoningFull) :=
  (withoutDroppable span).reverse.findSome? reasoningOf

/-- The messages after the compaction of the span between `pre` and `post`. -/
def compacted (summary : String) (pre span post : List MessageEntry) : List MessageEntry :=
  injectReasoning (lastReasoning span)
    (withoutDroppable (pre ++ summaryEntry summary span :: post))

theorem getRange_append {pre mid post : List MessageEntry} (hmid : mid ≠ []) :
    getRange (pre ++ mid ++ post) pre.length (pre.length + mid.length - 1) = some mid := by
  have hpos : 0 < mid.length := List.length_pos_iff.mpr hmid
  have hcount : pre.length + mid.length - 1 + 1 - pre.length = mid.length := by omega
  rw [getRange, if_pos ⟨by omega, by simp; omega⟩, hcount, List.append_assoc, List.drop_left,
    List.take_left]

namespace Compactor

theorem compressSingleSequence_append (self : Compactor) {context : Context}
    {pre mid post : List MessageEntry} (happend : context.messages = pre ++ mid ++ post)
    (hmid : mid ≠ []) :
    self.compressSingleSequence context (pre.length, pre.length + mid.length - 1) =
      (self.renderSummary (withoutDroppable mid)).map fun summary =>
        { context with messages := compacted summary pre mid post } := by
  have hpos : 0 < mid.length := List.length_pos_iff.mpr hmid
  have htake : context.messages.take pre.length = pre := by simp [happend]
  have hdrop : context.messages.drop (pre.length + mid.length - 1 + 1) = post := by
    rw [Nat.sub_add_cancel (by omega), happend, ← List.length_append, List.drop_left]
  have hrange : getRange context.messages pre.length (pre.length + mid.length - 1) = some mid := by
    rw [happend, getRange_append hmid]
  simp only [compressSingleSequence, htake, hdrop, hrange]
  rfl

variable [JsonText]

/-- Compaction returns its input, or replaces the span between two parts of it. -/
theorem compact_cases {self : Compactor} {context out : Context} {max : Bool}
    (h : self.compact context max = .ok out) :
    let k := (self.strategy max).toFixed context
    let mid := replacedSpan context.messages k
    (mid = [] ∧ out = context) ∨
      ∃ pre post summary, RangeSplit context.messages k pre mid post ∧
        out = { context with messages := compacted summary pre mid post } := by
  intro k mid
  rw [compact, CompactionStrategy.evictionRange] at h
  rcases findsSpan context k with ⟨hnone, hempty⟩ | ⟨pre, post, hsplit, hsome⟩
  · rw [hnone] at h
    exact Or.inl ⟨hempty, (Except.ok.inj h).symm⟩
  · rw [hsome] at h
    simp only [self.compressSingleSequence_append hsplit.append hsplit.nonempty] at h
    cases hsummary : self.renderSummary (withoutDroppable (replacedSpan context.messages k)) with
    | error e => simp [hsummary, Except.map] at h
    | ok summary =>
      rw [hsummary] at h
      exact Or.inr ⟨pre, post, summary, hsplit, (Except.ok.inj h).symm⟩

end Compactor

end HeliosLite
