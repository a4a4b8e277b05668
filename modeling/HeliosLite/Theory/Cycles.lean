import Mathlib.Data.Fintype.Card
import Mathlib.Data.Set.Finite.List
import Mathlib.Logic.Relation
import Mathlib.Order.WellFounded

/-!
# Steps that go down or return

A walk whose steps make a measure smaller, or return to one of finitely many places, ends
when no place that it reaches lies on a cycle.

## Main results

* `acc_of_acyclic` — such a walk ends
-/

namespace Theory

open Relation

variable {α : Type*} {r : α → α → Prop} {places : Set α} {μ : α → ℕ} {start : α}

/-- A point is the start of no infinite walk when no place after it is. -/
theorem acc_of_places (hstep : ∀ a b, r a b → b ∈ places ∨ μ b < μ a) {a : α}
    (h : ∀ b ∈ places, TransGen r a b → Acc (flip r) b) : Acc (flip r) a := by
  induction hn : μ a using Nat.strong_induction_on generalizing a with
  | _ n ih =>
    subst hn
    refine Acc.intro a fun b hb => ?_
    have hab : r a b := hb
    rcases hstep a b hab with hplace | hlt
    · exact h b hplace (.single hab)
    · exact ih (μ b) hlt (fun c hc hbc => h c hc (hbc.head hab)) rfl

theorem acc_of_acyclic (hfinite : places.Finite)
    (hstep : ∀ a b, r a b → b ∈ places ∨ μ b < μ a)
    (hacyclic : ∀ a, ReflTransGen r start a → ¬ TransGen r a a) : Acc (flip r) start := by
  have hwf : WellFounded fun b a : { c // c ∈ places ∧ ReflTransGen r start c } =>
      TransGen r a.1 b.1 := by
    have : Finite { c // c ∈ places ∧ ReflTransGen r start c } :=
      (hfinite.subset fun _ hc => hc.1).to_subtype
    have : IsTrans { c // c ∈ places ∧ ReflTransGen r start c } fun b a => TransGen r a.1 b.1 :=
      ⟨fun _ _ _ hab hbc => hbc.trans hab⟩
    have : Std.Irrefl fun b a : { c // c ∈ places ∧ ReflTransGen r start c } =>
        TransGen r a.1 b.1 := ⟨fun a hcycle => hacyclic a.1 a.2.2 hcycle⟩
    exact Finite.wellFounded_of_trans_of_irrefl _
  have hplaces : ∀ a : { c // c ∈ places ∧ ReflTransGen r start c }, Acc (flip r) a.1 := by
    intro a
    induction a using hwf.induction with
    | _ a ih =>
      refine acc_of_places hstep fun b hb hab => ?_
      exact ih ⟨b, hb, a.2.2.trans hab.to_reflTransGen⟩ hab
  exact acc_of_places hstep fun b hb hreach => hplaces ⟨b, hb, hreach.to_reflTransGen⟩

end Theory
