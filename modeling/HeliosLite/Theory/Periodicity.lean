import Mathlib.Data.List.PeriodicityLemma
import Mathlib.Data.Nat.Find

/-!
# Periods at the end of a list

A list ends with copies of one block if and only if its end has the length of the block as a
period. How far a period reaches from the end of a list says how many copies there are.

## Main definitions

* `reach` — the length of the longest suffix that has the period

## Main results

* `hasPeriod_append_iff`, `hasPeriod_append_right_iff` — a period of an extended list
* `eq_flatten_replicate` — a list with a period that divides its length is a power
* `le_reach_iff` — the suffixes that have the period are those up to the reach
* `reach_append` — the reach of a list with the front of another copy
-/

namespace Theory

variable {α : Type*}

/-! ### Periods of extended lists -/

/-- A block before a list keeps the period if the list begins with it. -/
theorem hasPeriod_append_iff {u s : List α} (h : u.length ≤ s.length) :
    (u ++ s).HasPeriod u.length ↔ u = s.take u.length ∧ s.HasPeriod u.length := by
  rw [List.HasPeriod, List.take_left', List.prefix_append_right_inj]
  · constructor
    · intro hs
      have hu : u = s.take u.length := by
        rw [List.prefix_iff_eq_take] at hs
        rw [hs, List.take_take, min_eq_left h, List.take_left' rfl]
      exact ⟨hu, by rwa [List.HasPeriod, ← hu]⟩
    · rintro ⟨hu, hs⟩
      rwa [List.HasPeriod, ← hu] at hs
  · rfl

/-- A list after another one keeps the period if it continues it. -/
theorem hasPeriod_append_right_iff {s t : List α} {p : ℕ} (hp : p ≤ s.length)
    (ht : t.length ≤ p) :
    (s ++ t).HasPeriod p ↔ s.HasPeriod p ∧ t = (s.drop (s.length - p)).take t.length := by
  have hcontinue : t = (s.drop (s.length - p)).take t.length ↔
      ∀ j < t.length, s[s.length - p + j]? = t[j]? := by
    constructor
    · intro heq j hj
      rw [heq, List.getElem?_take_of_lt hj, List.getElem?_drop]
    · intro h
      apply List.ext_getElem?
      intro j
      by_cases hj : j < t.length
      · rw [List.getElem?_take_of_lt hj, List.getElem?_drop, h j hj]
      · rw [List.getElem?_eq_none (not_lt.mp hj), List.getElem?_take_eq_none (not_lt.mp hj)]
  rw [hcontinue, List.hasPeriod_iff_getElem?, List.hasPeriod_iff_getElem?, List.length_append]
  constructor
  · intro h
    constructor
    · intro i hi
      have heq := h i (by omega)
      rwa [List.getElem?_append_left (by omega), List.getElem?_append_left (by omega)] at heq
    · intro j hj
      have heq := h (s.length - p + j) (by omega)
      rw [List.getElem?_append_left (by omega), List.getElem?_append_right (by omega)] at heq
      rw [heq]
      congr 1
      omega
  · rintro ⟨hs, ht'⟩ i hi
    rw [List.getElem?_append_left (by omega)]
    by_cases hsmall : i < s.length - p
    · rw [List.getElem?_append_left (by omega), hs i hsmall]
    · rw [List.getElem?_append_right (by omega), ← ht' (i + p - s.length) (by omega)]
      congr 1
      omega

theorem length_flatten_replicate (m : ℕ) (block : List α) :
    (List.replicate m block).flatten.length = m * block.length := by
  simp

/-- Copies of a block have its length as a period. -/
theorem hasPeriod_flatten_replicate (m : ℕ) (block : List α) :
    (List.replicate m block).flatten.HasPeriod block.length := by
  induction m with
  | zero => exact List.hasPeriod_empty _
  | succ m ih =>
    rw [List.replicate_succ, List.flatten_cons]
    cases m with
    | zero => exact List.hasPeriod_of_length_le _ _ (by simp)
    | succ m =>
      apply (hasPeriod_append_iff (by simp [Nat.succ_mul])).mpr
      refine ⟨?_, ih⟩
      rw [List.replicate_succ, List.flatten_cons, List.take_left' rfl]

/-- A list with a period that divides its length consists of copies of its front. -/
theorem eq_flatten_replicate {p : ℕ} (m : ℕ) {w : List α} (hw : w.HasPeriod p)
    (hlength : w.length = m * p) : w = (List.replicate m (w.take p)).flatten := by
  induction m generalizing w with
  | zero => simpa using hlength
  | succ m ih =>
    have hrest : (w.drop p).HasPeriod p := hw.infix (List.drop_suffix p w).isInfix
    have hrestlength : (w.drop p).length = m * p := by
      rw [List.length_drop, hlength, Nat.succ_mul, Nat.add_sub_cancel]
    conv_lhs => rw [← List.take_append_drop p w, ih hrest hrestlength]
    rw [List.replicate_succ, List.flatten_cons]
    cases m with
    | zero => rfl
    | succ m =>
      -- the front of the rest is the front of the list
      have hle : p ≤ w.length := by rw [hlength]; exact Nat.le_mul_of_pos_left p (Nat.succ_pos _)
      have hlen : (w.take p).length = p := List.length_take_of_le hle
      have hfront := (hasPeriod_append_iff (u := w.take p) (s := w.drop p) (by
        rw [hlen, hrestlength]; exact Nat.le_mul_of_pos_left p (Nat.succ_pos _))).mp (by
          rwa [List.take_append_drop, hlen])
      rw [hlen] at hfront
      rw [← hfront.1]

/-! ### How far a period reaches -/

section Reach

variable [DecidableEq α]

instance instDecidableHasPeriod (p : ℕ) (w : List α) : Decidable (w.HasPeriod p) :=
  inferInstanceAs (Decidable (w <+: w.take p ++ w))

/-- The last elements. -/
def lastly (m : ℕ) (l : List α) : List α := l.drop (l.length - m)

/-- The length of the longest suffix that has the period. -/
def reach (p : ℕ) (l : List α) : ℕ :=
  Nat.findGreatest (fun m => (lastly m l).HasPeriod p) l.length

variable {p m : ℕ} {l : List α}

omit [DecidableEq α] in
theorem length_lastly (h : m ≤ l.length) : (lastly m l).length = m := by
  rw [lastly, List.length_drop]
  omega

theorem reach_le : reach p l ≤ l.length := Nat.findGreatest_le _

/-- The suffixes that have the period are those up to the reach. -/
theorem le_reach_iff (h : m ≤ l.length) : m ≤ reach p l ↔ (lastly m l).HasPeriod p := by
  constructor
  · intro hm
    have hreach : (lastly (reach p l) l).HasPeriod p :=
      Nat.findGreatest_spec (P := fun m => (lastly m l).HasPeriod p) (Nat.zero_le _) (by
        rw [lastly, Nat.sub_zero, List.drop_length]
        exact List.hasPeriod_empty p)
    apply hreach.infix
    rw [lastly, lastly, show l.length - m = (l.length - reach p l) + (reach p l - m) by
      have := reach_le (p := p) (l := l); omega, ← List.drop_drop]
    exact (List.drop_suffix _ _).isInfix
  · exact fun hm => Nat.le_findGreatest h hm

theorem le_reach_of_le (h : m ≤ l.length) (hp : m ≤ p) : m ≤ reach p l :=
  (le_reach_iff h).mpr (List.hasPeriod_of_length_le _ _ (by rwa [length_lastly h]))

/-- One more block reaches as far as its front is the block after it. -/
theorem add_le_reach_iff (hp : p ≤ m) (h : m + p ≤ l.length) :
    m + p ≤ reach p l ↔
      m ≤ reach p l ∧ (lastly (m + p) l).take p = (lastly m l).take p := by
  have hsplit : lastly (m + p) l = (lastly (m + p) l).take p ++ lastly m l := by
    have hdrop : lastly m l = (lastly (m + p) l).drop p := by
      rw [lastly, lastly, List.drop_drop]
      congr 1
      omega
    rw [hdrop, List.take_append_drop]
  have hblock : ((lastly (m + p) l).take p).length = p := by
    rw [List.length_take, length_lastly h]
    omega
  have hiff := hasPeriod_append_iff (u := (lastly (m + p) l).take p) (s := lastly m l) (by
    rw [hblock, length_lastly (by omega)]
    exact hp)
  rw [hblock, ← hsplit] at hiff
  rw [le_reach_iff h, hiff, le_reach_iff (by omega), and_comm]

/-- The front of another copy is reached if it matches the last block. -/
theorem le_reach_append_iff {w t : List α} (hp : p ≤ m) (hm : m ≤ w.length)
    (ht : t.length ≤ p) :
    m + t.length ≤ reach p (w ++ t) ↔ m ≤ reach p w ∧ t = (lastly p w).take t.length := by
  have hlast : lastly (m + t.length) (w ++ t) = lastly m w ++ t := by
    rw [lastly, lastly, List.length_append, Nat.add_sub_add_right,
      List.drop_append_of_le_length (by omega)]
  have hblock : (lastly m w).drop ((lastly m w).length - p) = lastly p w := by
    rw [length_lastly hm, lastly, lastly, List.drop_drop]
    congr 1
    omega
  rw [le_reach_iff (by rw [List.length_append]; omega), hlast,
    hasPeriod_append_right_iff (by rw [length_lastly hm]; exact hp) ht, hblock, le_reach_iff hm]

theorem reach_append {w t : List α} (hp : p ≤ w.length) (ht : t.length ≤ p)
    (hmatch : t = (lastly p w).take t.length) : reach p (w ++ t) = reach p w + t.length := by
  have hpw : p ≤ reach p w := le_reach_of_le hp le_rfl
  apply le_antisymm
  · have hall := reach_le (p := p) (l := w ++ t)
    rw [List.length_append] at hall
    by_contra hlt
    have hmore : reach p (w ++ t) - t.length ≤ reach p w :=
      ((le_reach_append_iff (by omega) (by omega) ht).mp (by omega)).1
    omega
  · exact (le_reach_append_iff hpw reach_le ht).mpr ⟨le_rfl, hmatch⟩

end Reach

end Theory
