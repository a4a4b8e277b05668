import Mathlib.Data.List.Induction
import Mathlib.Data.List.Forall2
import Mathlib.Logic.Function.Basic

/-!
# Search results of several queries

Several queries may find the same node. `deduplicate_results` keeps a node only in the query
in which it ranks best: the higher relevance first, then the smaller distance, then the
earlier query.

## Main definitions

* `Score.cmp` — the order of two results for the same node
* `deduplicateResults` — the results of the queries, each node in its best query only
* `IsBest` — an occurrence of a node that no other occurrence outranks
* `Deduplicated` — each node once, in the query of its best occurrence

## Main results

* `bestScores_spec` — the score kept for a node is that of a best occurrence
* `deduplicateResults_deduplicated_iff` — when a node is kept only once
-/

namespace HeliosLite

namespace Search

/-- A node that a query found, with its scores. -/
structure Node (F D : Type*) where
  nodeId : String
  node : D
  relevance : Option F
  distance : Option F
deriving DecidableEq

/-- What a result is ranked by. -/
structure Score (F : Type*) where
  queryIdx : ℕ
  relevance : Option F
  distance : Option F
deriving DecidableEq

variable {F D : Type*}

namespace Score

def new (queryIdx : ℕ) (result : Node F D) : Score F where
  queryIdx := queryIdx
  relevance := result.relevance
  distance := result.distance

variable [Ord F]

/-- Two scores of which the higher is better, unless they decide nothing. -/
def compare (a b : Option F) : Option Ordering :=
  match a, b with
  | some x, some y =>
    match Ord.compare x y with
    | .eq => none
    | ord => some ord
  | some _, none => some .gt
  | none, some _ => some .lt
  | none, none => none

/-- Relevance, then distance, then the query. -/
def cmp (self other : Score F) : Ordering :=
  ((compare self.relevance other.relevance).or (compare other.distance self.distance)).getD
    (Ord.compare self.queryIdx other.queryIdx).swap

end Score

/-- The best score of each node so far. -/
abbrev BestScores (F : Type*) := String → Option (Score F)

variable [Ord F]

/-- One result of the first pass. -/
def BestScores.record (bestScores : BestScores F) (queryIdx : ℕ) (result : Node F D) :
    BestScores F :=
  let currentScore := Score.new queryIdx result
  match bestScores result.nodeId with
  | some entry =>
    if currentScore.cmp entry = .gt then
      Function.update bestScores result.nodeId (some currentScore)
    else bestScores
  | none => Function.update bestScores result.nodeId (some currentScore)

/-- The first pass. -/
def bestScores (results : List (List (Node F D))) : BestScores F :=
  results.zipIdx.foldl
    (fun best query => query.1.foldl (fun best result => best.record query.2 result) best)
    fun _ => none

/-- The second pass: what a query keeps. -/
def retained (best : BestScores F) (queryIdx : ℕ) (queryResults : List (Node F D)) :
    List (Node F D) :=
  queryResults.filter fun result =>
    (best result.nodeId).all fun score => score.queryIdx == queryIdx

def deduplicateResults (results : List (List (Node F D))) : List (List (Node F D)) :=
  results.zipIdx.map fun query => retained (bestScores results) query.2 query.1

/-! ### The order of scores -/

namespace Score

theorem compare_eq (a b : Option F) :
    compare a b = if Ord.compare a b = .eq then none else some (Ord.compare a b) := by
  cases a with
  | none => cases b <;> rfl
  | some x =>
    cases b with
    | none => rfl
    | some y =>
      have hsome : Ord.compare (some x) (some y) = Ord.compare x y := rfl
      rw [compare, hsome]
      cases Ord.compare x y <;> rfl

/-- The hand-written order is the lexicographic one, with two of its parts turned round. -/
theorem cmp_eq : (cmp : Score F → Score F → Ordering) =
    compareLex (compareOn relevance)
      (compareLex (fun a b => compareOn distance b a) fun a b => compareOn queryIdx b a) := by
  funext self other
  unfold cmp compareLex compareOn
  rw [compare_eq, compare_eq, ← Nat.compare_swap]
  cases hrelevance : Ord.compare self.relevance other.relevance with
  | lt => rfl
  | gt => rfl
  | eq =>
    cases hdistance : Ord.compare other.distance self.distance with
    | lt => simp [hdistance]
    | gt => simp [hdistance]
    | eq => simp [hdistance]

instance [Std.TransOrd F] : Std.TransCmp (cmp : Score F → Score F → Ordering) := by
  rw [cmp_eq]
  infer_instance

theorem cmp_swap [Std.TransOrd F] (a b : Score F) : a.cmp b = (b.cmp a).swap :=
  Std.OrientedCmp.eq_swap

theorem queryIdx_eq_of_cmp {a b : Score F} (h : a.cmp b = .eq) : a.queryIdx = b.queryIdx := by
  rw [cmp_eq] at h
  simp only [compareLex_eq_eq, compareOn] at h
  exact (Nat.compare_eq_eq.mp h.2.2).symm

end Score

/-! ### The best occurrence of a node -/

/-- The results with the index of the query they are for, in the order of the first pass. -/
def occurrences (results : List (List (Node F D))) : List (ℕ × Node F D) :=
  results.zipIdx.flatMap fun query => query.1.map fun result => (query.2, result)

/-- A result for a query that no result for the same node outranks. -/
def IsBest (results : List (List (Node F D))) (queryIdx : ℕ) (result : Node F D) : Prop :=
  (queryIdx, result) ∈ occurrences results ∧
    ∀ other ∈ occurrences results, other.2.nodeId = result.nodeId →
      ((Score.new other.1 other.2).cmp (Score.new queryIdx result)).isLE

/-- The score is that of the best among the results seen for a node. -/
def Tracks (nodeId : String) (seen : List (ℕ × Node F D)) : Option (Score F) → Prop
  | none => ∀ other ∈ seen, other.2.nodeId ≠ nodeId
  | some score =>
    (∃ result ∈ seen, result.2.nodeId = nodeId ∧ Score.new result.1 result.2 = score) ∧
      ∀ other ∈ seen, other.2.nodeId = nodeId → ((Score.new other.1 other.2).cmp score).isLE

/-- What is kept for a node after one more result for it. -/
theorem BestScores.record_same (best : BestScores F) (queryIdx : ℕ) (result : Node F D) :
    best.record queryIdx result result.nodeId =
      match best result.nodeId with
      | some entry =>
        if (Score.new queryIdx result).cmp entry = .gt then some (Score.new queryIdx result)
        else some entry
      | none => some (Score.new queryIdx result) := by
  unfold record
  cases hbest : best result.nodeId with
  | none => exact Function.update_self ..
  | some entry =>
    by_cases hcmp : (Score.new queryIdx result).cmp entry = .gt
    · simp only [hcmp, if_true]
      exact Function.update_self ..
    · simp only [hcmp, if_false]
      exact hbest

theorem BestScores.record_other (best : BestScores F) (queryIdx : ℕ) {result : Node F D}
    {nodeId : String} (h : nodeId ≠ result.nodeId) :
    best.record queryIdx result nodeId = best nodeId := by
  unfold record
  cases best result.nodeId with
  | none => exact Function.update_of_ne h ..
  | some entry =>
    dsimp only
    split
    · exact Function.update_of_ne h ..
    · rfl

variable {seen : List (ℕ × Node F D)} {nodeId : String} {queryIdx : ℕ} {result : Node F D}

/-- A result for another node changes nothing. -/
theorem Tracks.other {score : Option (Score F)} (h : Tracks nodeId seen score)
    (hother : result.nodeId ≠ nodeId) : Tracks nodeId (seen ++ [(queryIdx, result)]) score := by
  have hlast : ∀ other ∈ seen ++ [(queryIdx, result)], other.2.nodeId = nodeId →
      other ∈ seen := by
    intro other hmem hid
    rcases List.mem_append.mp hmem with hseen | hnew
    · exact hseen
    · rw [List.mem_singleton.mp hnew] at hid
      exact absurd hid hother
  cases score with
  | none => exact fun other hmem hid => h other (hlast other hmem hid) hid
  | some score =>
    obtain ⟨⟨first, hfirst, hscore⟩, hall⟩ := h
    exact ⟨⟨first, List.mem_append_left _ hfirst, hscore⟩,
      fun other hmem hid => hall other (hlast other hmem hid) hid⟩

variable [Std.TransOrd F]

/-- A result that everything seen is at most is the best. -/
theorem tracks_new
    (h : ∀ other ∈ seen, other.2.nodeId = result.nodeId →
      ((Score.new other.1 other.2).cmp (Score.new queryIdx result)).isLE) :
    Tracks result.nodeId (seen ++ [(queryIdx, result)]) (some (Score.new queryIdx result)) := by
  refine ⟨⟨(queryIdx, result), by simp, rfl, rfl⟩, fun other hmem hid => ?_⟩
  rcases List.mem_append.mp hmem with hseen | hnew
  · exact h other hseen hid
  · rw [List.mem_singleton.mp hnew]
    exact Std.ReflCmp.isLE_rfl

theorem Tracks.record {best : BestScores F} (h : Tracks nodeId seen (best nodeId)) :
    Tracks nodeId (seen ++ [(queryIdx, result)]) (best.record queryIdx result nodeId) := by
  by_cases hid : nodeId = result.nodeId
  · subst hid
    rw [BestScores.record_same]
    cases hbest : best result.nodeId with
    | none =>
      rw [hbest] at h
      exact tracks_new fun other hmem hid => absurd hid (h other hmem)
    | some entry =>
      rw [hbest] at h
      obtain ⟨⟨first, hfirst, hentry⟩, hall⟩ := h
      by_cases hgt : (Score.new queryIdx result).cmp entry = .gt
      · simp only [hgt, if_true]
        have hle : (entry.cmp (Score.new queryIdx result)).isLE := by
          rw [Score.cmp_swap, hgt]
          rfl
        exact tracks_new fun other hmem hid => Std.TransCmp.isLE_trans (hall other hmem hid) hle
      · simp only [hgt, if_false]
        refine ⟨⟨first, List.mem_append_left _ hfirst, hentry⟩, fun other hmem hid => ?_⟩
        rcases List.mem_append.mp hmem with hseen | hnew
        · exact hall other hseen hid
        · rw [List.mem_singleton.mp hnew]
          exact Ordering.isLE_iff_ne_gt.mpr hgt
  · rw [BestScores.record_other _ _ hid]
    exact h.other (Ne.symm hid)

omit [Std.TransOrd F] in
/-- The first pass goes through the occurrences in order. -/
theorem bestScores_eq (results : List (List (Node F D))) :
    bestScores results =
      (occurrences results).foldl (fun best result => BestScores.record best result.1 result.2)
        fun _ => none := by
  unfold bestScores occurrences
  rw [List.foldl_flatMap]
  simp only [List.foldl_map]

/-- The score kept for a node is that of a best occurrence. -/
theorem bestScores_spec (results : List (List (Node F D))) (nodeId : String) :
    Tracks nodeId (occurrences results) (bestScores results nodeId) := by
  rw [bestScores_eq]
  induction occurrences results using List.reverseRecOn with
  | nil => exact fun other hmem => absurd hmem List.not_mem_nil
  | append_singleton seen result ih =>
    rw [List.foldl_append]
    exact ih.record

/-- The score kept for a node has the query of its best occurrence. -/
theorem bestScores_of_isBest {results : List (List (Node F D))}
    (h : IsBest results queryIdx result) :
    ∃ score, bestScores results result.nodeId = some score ∧ score.queryIdx = queryIdx := by
  obtain ⟨hmem, hall⟩ := h
  have hspec := bestScores_spec results result.nodeId
  cases hbest : bestScores results result.nodeId with
  | none =>
    rw [hbest] at hspec
    exact absurd rfl (hspec _ hmem)
  | some score =>
    rw [hbest] at hspec
    obtain ⟨⟨first, hfirst, hid, rfl⟩, hle⟩ := hspec
    have hge := hle (queryIdx, result) hmem rfl
    rw [Score.cmp_swap, Ordering.isLE_swap] at hge
    have heq : (Score.new first.1 first.2).cmp (Score.new queryIdx result) = .eq :=
      Ordering.eq_eq_of_isLE_of_isGE (hall first hfirst hid) hge
    exact ⟨_, rfl, Score.queryIdx_eq_of_cmp heq⟩

omit [Ord F] [Std.TransOrd F] in
theorem mem_occurrences_iff {results : List (List (Node F D))} :
    (queryIdx, result) ∈ occurrences results ↔
      ∃ queryResults, results[queryIdx]? = some queryResults ∧ result ∈ queryResults := by
  simp [occurrences, List.mem_zipIdx_iff_getElem?]

/-- Every node of the input has a best occurrence. -/
theorem exists_isBest {results : List (List (Node F D))} (h : result ∈ results.flatten) :
    ∃ queryIdx best, IsBest results queryIdx best ∧ best.nodeId = result.nodeId := by
  obtain ⟨queryResults, hquery, hresult⟩ := List.mem_flatten.mp h
  obtain ⟨i, hi⟩ := List.mem_iff_getElem?.mp hquery
  have hmem : (i, result) ∈ occurrences results :=
    mem_occurrences_iff.mpr ⟨queryResults, hi, hresult⟩
  have hspec := bestScores_spec results result.nodeId
  cases hbest : bestScores results result.nodeId with
  | none =>
    rw [hbest] at hspec
    exact absurd rfl (hspec _ hmem)
  | some score =>
    rw [hbest] at hspec
    obtain ⟨⟨first, hfirst, hid, rfl⟩, hle⟩ := hspec
    refine ⟨first.1, first.2, ⟨hfirst, fun other hother hsame => ?_⟩, hid⟩
    exact hle other hother (hsame.trans hid)

/-! ### What is left of a node -/

omit [Std.TransOrd F] in
theorem deduplicateResults_sublists (results : List (List (Node F D))) :
    List.Forall₂ List.Sublist (deduplicateResults results) results := by
  unfold deduplicateResults
  generalize bestScores results = best, 0 = first
  induction results generalizing first with
  | nil => exact .nil
  | cons queryResults results ih => exact .cons List.filter_sublist (ih (first + 1))

omit [Ord F] [Std.TransOrd F] in
/-- A query keeps all results for a node or none. -/
theorem countP_retained {best : BestScores F} {score : Score F} (hscore : best nodeId = some score)
    (queryIdx : ℕ) (queryResults : List (Node F D)) :
    (retained best queryIdx queryResults).countP (·.nodeId = nodeId) =
      if score.queryIdx = queryIdx then queryResults.countP (·.nodeId = nodeId) else 0 := by
  unfold retained
  rw [List.countP_filter]
  split
  · rename_i hquery
    refine List.countP_congr fun result _ => ?_
    simp only [Bool.and_eq_true, decide_eq_true_eq, and_iff_left_iff_imp]
    intro hid
    simp [hid, hscore, hquery]
  · rename_i hquery
    refine List.countP_eq_zero.mpr fun result _ => ?_
    simp only [Bool.and_eq_true, decide_eq_true_eq, not_and]
    intro hid
    simp [hid, hscore, hquery]

omit [Ord F] [Std.TransOrd F] in
/-- The results for a node that are left are those of its best query. -/
theorem countP_flatten_retained {best : BestScores F} {score : Score F}
    (hscore : best nodeId = some score) (results : List (List (Node F D))) (first : ℕ) :
    ((results.zipIdx first).map fun query => retained best query.2 query.1).flatten.countP
        (·.nodeId = nodeId) =
      if first ≤ score.queryIdx then
        (results.getD (score.queryIdx - first) []).countP (·.nodeId = nodeId)
      else 0 := by
  induction results generalizing first with
  | nil => simp
  | cons queryResults results ih =>
    rw [List.zipIdx_cons, List.map_cons, List.flatten_cons, List.countP_append, ih,
      countP_retained hscore]
    rcases Nat.lt_trichotomy score.queryIdx first with hlt | heq | hgt
    · rw [if_neg (by omega), if_neg (by omega), if_neg (by omega)]
    · rw [if_pos heq, if_neg (by omega), if_pos (by omega), heq, Nat.sub_self,
        List.getD_cons_zero, Nat.add_zero]
    · obtain ⟨k, hk⟩ : ∃ k, score.queryIdx - first = k + 1 := ⟨score.queryIdx - first - 1, by omega⟩
      rw [if_neg (by omega), if_pos (by omega), if_pos (by omega), hk, List.getD_cons_succ,
        Nat.zero_add]
      congr 2
      omega

/-- Each node of the input once, in the query of its best occurrence, and nothing moved. -/
structure Deduplicated (results out : List (List (Node F D))) : Prop where
  sublists : List.Forall₂ List.Sublist out results
  once : ∀ result ∈ results.flatten, out.flatten.countP (·.nodeId = result.nodeId) = 1
  placed : ∀ queryIdx result, IsBest results queryIdx result →
    ∃ kept ∈ out.getD queryIdx [], kept.nodeId = result.nodeId

/-- A node is left as often as its best query lists it. -/
theorem countP_deduplicateResults {results : List (List (Node F D))}
    (h : IsBest results queryIdx result) :
    (deduplicateResults results).flatten.countP (·.nodeId = result.nodeId) =
      (results.getD queryIdx []).countP (·.nodeId = result.nodeId) := by
  obtain ⟨score, hscore, rfl⟩ := bestScores_of_isBest h
  exact countP_flatten_retained hscore results 0

/-- The best occurrence of a node is kept. -/
theorem IsBest.retained {results : List (List (Node F D))} (h : IsBest results queryIdx result) :
    result ∈ (deduplicateResults results).getD queryIdx [] := by
  obtain ⟨queryResults, hquery, hresult⟩ := mem_occurrences_iff.mp h.1
  obtain ⟨score, hscore, hqueryIdx⟩ := bestScores_of_isBest h
  have hout : (deduplicateResults results)[queryIdx]? =
      some (Search.retained (bestScores results) queryIdx queryResults) := by
    simp [deduplicateResults, hquery]
  rw [List.getD_eq_getElem?_getD, hout]
  exact List.mem_filter.mpr ⟨hresult, by simp [hscore, hqueryIdx]⟩

/-- Each node is kept once exactly if the query in which it ranks best lists it once. -/
theorem deduplicateResults_deduplicated_iff (results : List (List (Node F D))) :
    Deduplicated results (deduplicateResults results) ↔
      ∀ queryIdx result, IsBest results queryIdx result →
        (results.getD queryIdx []).countP (·.nodeId = result.nodeId) = 1 := by
  constructor
  · intro h queryIdx result hbest
    obtain ⟨queryResults, hquery, hresult⟩ := mem_occurrences_iff.mp hbest.1
    have hmem : result ∈ results.flatten :=
      List.mem_flatten.mpr ⟨queryResults, List.mem_of_getElem? hquery, hresult⟩
    rw [← countP_deduplicateResults hbest]
    exact h.once result hmem
  · intro h
    refine ⟨deduplicateResults_sublists results, fun result hresult => ?_, fun i result hbest => ?_⟩
    · obtain ⟨i, best, hbest, hid⟩ := exists_isBest hresult
      rw [← hid, countP_deduplicateResults hbest]
      exact h i best hbest
    · exact ⟨result, hbest.retained, rfl⟩

/-- Two queries that find the same node, the second one nearer. -/
def sharedNode : List (List (Node ℕ Unit)) :=
  [[⟨"a", (), some 1, some 5⟩, ⟨"b", (), none, none⟩], [⟨"a", (), some 1, some 2⟩]]

theorem sharedNode_deduplicated_iff :
    Deduplicated sharedNode (deduplicateResults sharedNode) ↔
      ∀ queryIdx result, IsBest sharedNode queryIdx result →
        (sharedNode.getD queryIdx []).countP (·.nodeId = result.nodeId) = 1 :=
  deduplicateResults_deduplicated_iff sharedNode

example : deduplicateResults sharedNode =
    [[⟨"b", (), none, none⟩], [⟨"a", (), some 1, some 2⟩]] := by decide

/-- A query that lists a node twice keeps both. -/
theorem deduplicateResults_repeated :
    ¬ Deduplicated [[⟨"a", (), some 1, none⟩, ⟨"a", (), some 1, none⟩]]
      (deduplicateResults
        [[⟨"a", (), some (1 : ℕ), none⟩, ⟨"a", (), some 1, none⟩]]) := by
  intro h
  have honce := h.once ⟨"a", (), some 1, none⟩ (by simp)
  exact absurd honce (by decide)

end Search

end HeliosLite
