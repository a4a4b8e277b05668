import Mathlib.Data.List.Induction
import Mathlib.Data.List.Shortlex
import Mathlib.Data.Nat.Notation
import Mathlib.Logic.Relation
import Mathlib.Order.Basic
import Mathlib.Order.Nat

/-!
# Walks by positions

The successors of each node are listed, so that a walk from a node is the list of the positions of
the successors that it takes. Walks are ordered by length, and walks of one length by the first
position in which they differ; each node that can be reached has a first walk.

## Main definitions

* `follow` — the node to which a walk leads
* `Before`, `AtMost` — the order of walks
* `IsFirst` — the first walk to a node
* `along` — the nodes of a walk

## Main results

* `before_concat` — walks that end in one more step are ordered as before it, and then by the step
* `reflTransGen_iff_follow` — the nodes that can be reached are those that walks lead to
* `exists_isFirst` — each of them has a first walk
-/

namespace Theory

/-! ### The order of walks -/

/-- A walk is shorter, or of the same length and smaller in the first place that differs. -/
def Before (v w : List ℕ) : Prop := List.Shortlex (· < ·) v w

def AtMost (v w : List ℕ) : Prop := v = w ∨ Before v w

section Order

variable {u v w : List ℕ} {p q : ℕ}

theorem before_iff : Before v w ↔ v.length < w.length ∨ v.length = w.length ∧ v < w :=
  List.shortlex_def

theorem Before.trans (huv : Before u v) (hvw : Before v w) : Before u w := by
  rw [before_iff] at *
  rcases huv with huv | ⟨hlen, huv⟩
  · exact .inl (by omega)
  · rcases hvw with hvw | ⟨hlen', hvw⟩
    · exact .inl (by omega)
    · exact .inr ⟨hlen.trans hlen', huv.trans hvw⟩

theorem not_before_self (v : List ℕ) : ¬ Before v v := by
  rw [before_iff]
  rintro (hlen | ⟨-, hlt⟩)
  · exact lt_irrefl _ hlen
  · exact lt_irrefl _ hlt

theorem before_total (v w : List ℕ) : Before v w ∨ v = w ∨ Before w v := by
  simp only [before_iff]
  rcases lt_trichotomy v.length w.length with hlt | heq | hgt
  · exact .inl (.inl hlt)
  · rcases lt_trichotomy v w with hlt | rfl | hgt
    · exact .inl (.inr ⟨heq, hlt⟩)
    · exact .inr (.inl rfl)
    · exact .inr (.inr (.inr ⟨heq.symm, hgt⟩))
  · exact .inr (.inr (.inl hgt))

theorem AtMost.trans_before (huv : AtMost u v) (hvw : Before v w) : Before u w := by
  rcases huv with rfl | huv
  · exact hvw
  · exact huv.trans hvw

theorem AtMost.trans (huv : AtMost u v) (hvw : AtMost v w) : AtMost u w := by
  rcases hvw with rfl | hvw
  · exact huv
  · exact .inr (huv.trans_before hvw)

theorem not_before_nil (v : List ℕ) : ¬ Before v [] := List.not_shortlex_nil_right

theorem before_concat_self (v : List ℕ) (p : ℕ) : Before v (v ++ [p]) := by
  rw [before_iff, List.length_append, List.length_singleton]
  exact .inl (Nat.lt_succ_self _)

theorem lt_concat_iff (h : v.length = w.length) : v ++ [p] < w ++ [q] ↔ v < w ∨ v = w ∧ p < q := by
  induction v generalizing w with
  | nil =>
    obtain rfl := List.length_eq_zero_iff.mp h.symm
    rw [List.nil_append, List.nil_append, List.cons_lt_cons_iff]
    simp
  | cons a v ih =>
    match w with
    | [] => simp at h
    | b :: w =>
      rw [List.cons_append, List.cons_append, List.cons_lt_cons_iff, List.cons_lt_cons_iff,
        ih (Nat.succ.inj h), List.cons.injEq]
      tauto

/-- Walks that end in one more step. -/
theorem before_concat : Before (v ++ [p]) (w ++ [q]) ↔ Before v w ∨ v = w ∧ p < q := by
  rw [before_iff, before_iff, List.length_append, List.length_append, List.length_singleton,
    List.length_singleton]
  by_cases hlen : v.length = w.length
  · rw [lt_concat_iff hlen]
    simp [hlen]
  · have hne : v ≠ w := fun h => hlen (congrArg List.length h)
    simp [hlen, hne]

end Order

/-! ### Walks -/

variable {α : Type*} (next : α → List α)

/-- The node to which a walk leads. -/
def follow (a : α) : List ℕ → Option α
  | [] => some a
  | p :: w => (next a)[p]?.bind fun b => follow b w

/-- The nodes of a walk, as far as it can be taken. -/
def along (a : α) : List ℕ → List α
  | [] => [a]
  | p :: w =>
    match (next a)[p]? with
    | some b => a :: along b w
    | none => [a]

/-- No walk before this one leads to the node. -/
def IsFirst (a b : α) (w : List ℕ) : Prop :=
  follow next a w = some b ∧ ∀ v, Before v w → follow next a v ≠ some b

variable {next} {a b c : α} {v w : List ℕ} {p : ℕ}

theorem follow_append (v w : List ℕ) :
    follow next a (v ++ w) = (follow next a v).bind fun b => follow next b w := by
  induction v generalizing a with
  | nil => rfl
  | cons p v ih =>
    rw [List.cons_append, follow, follow, Option.bind_assoc]
    congr 1
    funext b
    exact ih

theorem follow_concat :
    follow next a (w ++ [p]) = (follow next a w).bind fun b => (next b)[p]? := by
  rw [follow_append]
  congr 1
  funext b
  cases hb : (next b)[p]? with
  | none => rw [follow, hb, Option.bind_none]
  | some c => rw [follow, hb, Option.bind_some, follow]

theorem follow_concat_eq_some_iff :
    follow next a (w ++ [p]) = some c ↔
      ∃ b, follow next a w = some b ∧ (next b)[p]? = some c := by
  rw [follow_concat, Option.bind_eq_some_iff]

theorem along_concat (hb : follow next a w = some b) (hc : (next b)[p]? = some c) :
    along next a (w ++ [p]) = along next a w ++ [c] := by
  induction w generalizing a with
  | nil =>
    obtain rfl := Option.some.inj hb
    rw [List.nil_append, along, along, hc]
    rfl
  | cons q w ih =>
    obtain ⟨d, hd, hb⟩ := Option.bind_eq_some_iff.mp hb
    rw [List.cons_append, along, along, hd]
    exact congrArg (a :: ·) (ih hb)

theorem length_along (hb : follow next a w = some b) : (along next a w).length = w.length + 1 := by
  induction w generalizing a with
  | nil => rfl
  | cons q w ih =>
    obtain ⟨d, hd, hb⟩ := Option.bind_eq_some_iff.mp hb
    rw [along, hd]
    exact congrArg (· + 1) (ih hb)

theorem head?_along (w : List ℕ) : (along next a w).head? = some a := by
  cases w with
  | nil => rfl
  | cons p w =>
    rw [along]
    split <;> rfl

theorem getLast?_along (hb : follow next a w = some b) : (along next a w).getLast? = some b := by
  induction w using List.reverseRecOn generalizing b with
  | nil =>
    obtain rfl := Option.some.inj hb
    rfl
  | append_singleton w p ih =>
    obtain ⟨c, hc, hp⟩ := follow_concat_eq_some_iff.mp hb
    rw [along_concat hc hp, List.getLast?_concat]

theorem reflTransGen_iff_follow :
    Relation.ReflTransGen (fun x y => y ∈ next x) a b ↔ ∃ w, follow next a w = some b := by
  constructor
  · intro h
    induction h with
    | refl => exact ⟨[], rfl⟩
    | tail _ hstep ih =>
      obtain ⟨w, hw⟩ := ih
      obtain ⟨p, hp⟩ := List.mem_iff_getElem?.mp hstep
      exact ⟨w ++ [p], follow_concat_eq_some_iff.mpr ⟨_, hw, hp⟩⟩
  · rintro ⟨w, hw⟩
    induction w using List.reverseRecOn generalizing b with
    | nil =>
      obtain rfl := Option.some.inj hw
      exact .refl
    | append_singleton w p ih =>
      obtain ⟨c, hc, hp⟩ := follow_concat_eq_some_iff.mp hw
      exact (ih hc).tail (List.mem_of_getElem? hp)

/-- Each node that a walk leads to has a first walk. -/
theorem exists_isFirst (h : follow next a w = some b) : ∃ v, IsFirst next a b v := by
  have hwf : WellFounded Before := List.Shortlex.wf wellFounded_lt
  obtain ⟨v, hv, hmin⟩ := hwf.has_min {v | follow next a v = some b} ⟨w, h⟩
  exact ⟨v, hv, fun u hu hfollow => hmin u hfollow hu⟩

theorem IsFirst.unique (hv : IsFirst next a b v) (hw : IsFirst next a b w) : v = w := by
  rcases before_total v w with hlt | heq | hgt
  · exact absurd hv.1 (hw.2 v hlt)
  · exact heq
  · exact absurd hw.1 (hv.2 w hgt)

/-- A first walk is a shortest one. -/
theorem IsFirst.length_le (hv : IsFirst next a b v) (hw : follow next a w = some b) :
    v.length ≤ w.length := by
  by_contra hlt
  exact hv.2 w (before_iff.mpr (.inl (Nat.not_le.mp hlt))) hw

end Theory
