import Mathlib.Data.List.Infix

/-!
# Occurrences of a word

The first and the last place at which a word stands in a list, with what is before it and what
follows.

## Main definitions

* `FirstAt`, `LastAt` — the word stands after a prefix of the list, and nowhere before or after that
* `splitFirst`, `splitLast` — the list, cut at the first or the last occurrence of a word

## Main results

* `splitFirst_eq_some_iff`, `splitLast_eq_some_iff` — where the cut is
* `FirstAt.extend` — the first occurrence in a list is that in a longer one
-/

namespace Theory

variable {α : Type}

/-! ### Places -/

/-- The first place of a word is after the prefix. -/
def FirstAt (w l before : List α) : Prop :=
  before ++ w <+: l ∧ ∀ other, other ++ w <+: l → before.length ≤ other.length

/-- The last place of a word is after the prefix. -/
def LastAt (w l before : List α) : Prop :=
  before ++ w <+: l ∧ ∀ other, other ++ w <+: l → other.length ≤ before.length

variable {w l l' before after : List α}

theorem FirstAt.unique {other : List α} (h : FirstAt w l before) (h' : FirstAt w l other) :
    before = other := by
  have hlength : before.length = other.length := le_antisymm (h.2 _ h'.1) (h'.2 _ h.1)
  have hinitial := ((List.prefix_append before w).trans h.1)
  have hinitial' := ((List.prefix_append other w).trans h'.1)
  exact (List.prefix_of_prefix_length_le hinitial hinitial' hlength.le).eq_of_length hlength

theorem LastAt.unique {other : List α} (h : LastAt w l before) (h' : LastAt w l other) :
    before = other := by
  have hlength : before.length = other.length := le_antisymm (h'.2 _ h.1) (h.2 _ h'.1)
  have hinitial := ((List.prefix_append before w).trans h.1)
  have hinitial' := ((List.prefix_append other w).trans h'.1)
  exact (List.prefix_of_prefix_length_le hinitial hinitial' hlength.le).eq_of_length hlength

/-- The first occurrence in a list is that in a longer one. -/
theorem FirstAt.extend (h : FirstAt w l before) (hinitial : l <+: l') : FirstAt w l' before := by
  refine ⟨h.1.trans hinitial, ?_⟩
  intro other hother
  by_contra hlt
  -- an earlier place would be one in the shorter list
  have hlength : (other ++ w).length ≤ l.length := by
    refine le_trans ?_ h.1.length_le
    simp only [List.length_append]
    omega
  exact hlt (h.2 other (List.prefix_of_prefix_length_le hother hinitial hlength))

/-- The first occurrence in a list is that in a shorter one that has it. -/
theorem FirstAt.restrict (h : FirstAt w l' before) (hinitial : l <+: l')
    (hmem : before ++ w <+: l) :
    FirstAt w l before :=
  ⟨hmem, fun other hother => h.2 other (hother.trans hinitial)⟩

/-- A word at the end is the last one. -/
theorem lastAt_append (before w : List α) : LastAt w (before ++ w) before := by
  refine ⟨List.prefix_rfl, ?_⟩
  intro other hother
  have hlength := hother.length_le
  simp only [List.length_append] at hlength
  omega

/-- A word before the last letter is the last one, unless it overlaps itself. -/
theorem lastAt_append_singleton (before : List α) (a : α) (hw : w ≠ [])
    (h : w.drop 1 ++ [a] ≠ w) :
    LastAt w (before ++ w ++ [a]) before := by
  refine ⟨List.prefix_append _ _, ?_⟩
  intro other hother
  by_contra hlt
  obtain ⟨rest, hrest⟩ := hother
  have hlength := congrArg List.length hrest
  simp only [List.length_append, List.length_singleton] at hlength
  have hother : other.length = before.length + 1 := by omega
  obtain rfl : rest = [] := List.eq_nil_of_length_eq_zero (by omega)
  apply h
  calc w.drop 1 ++ [a] = (before ++ w ++ [a]).drop (before.length + 1) := by
        cases w with
        | nil => exact absurd rfl hw
        | cons b w => simp [List.drop_append]
    _ = (other ++ w ++ []).drop (before.length + 1) := by rw [hrest]
    _ = w := by rw [← hother]; simp

theorem cons_append_prefix_cons {a b : α} {other : List α} :
    (b :: other) ++ w <+: a :: l ↔ b = a ∧ other ++ w <+: l := List.cons_prefix_cons

/-! ### Cuts -/

section Split

variable [DecidableEq α] (w : List α)

/-- What is before the first occurrence of the word, and what follows it. -/
def splitFirst : List α → Option (List α × List α)
  | [] => if w = [] then some ([], []) else none
  | a :: l =>
    if w <+: a :: l then some ([], (a :: l).drop w.length)
    else (splitFirst l).map fun p => (a :: p.1, p.2)

/-- What is before the last occurrence of the word, and what follows it. -/
def splitLast : List α → Option (List α × List α)
  | [] => if w = [] then some ([], []) else none
  | a :: l =>
    match splitLast l with
    | some p => some (a :: p.1, p.2)
    | none => if w <+: a :: l then some ([], (a :: l).drop w.length) else none

variable {w}

theorem of_splitFirst (h : splitFirst w l = some (before, after)) :
    FirstAt w l before ∧ l = before ++ w ++ after := by
  induction l generalizing before after with
  | nil =>
    rw [splitFirst] at h
    split_ifs at h with hw
    obtain ⟨rfl, rfl⟩ := Prod.mk.inj (Option.some.inj h)
    exact ⟨⟨by simp [hw], fun _ _ => Nat.zero_le _⟩, by simp [hw]⟩
  | cons a l ih =>
    rw [splitFirst] at h
    split_ifs at h with hinitial
    · obtain ⟨rfl, rfl⟩ := Prod.mk.inj (Option.some.inj h)
      exact ⟨⟨hinitial, fun _ _ => Nat.zero_le _⟩, (List.prefix_iff_eq_append.mp hinitial).symm⟩
    · obtain ⟨⟨before, after⟩, hsplit, heq⟩ := Option.map_eq_some_iff.mp h
      obtain ⟨rfl, rfl⟩ := Prod.mk.inj heq
      obtain ⟨⟨hmem, hfirst⟩, hl⟩ := ih hsplit
      refine ⟨⟨cons_append_prefix_cons.mpr ⟨rfl, hmem⟩, ?_⟩, by rw [hl]; simp⟩
      intro other hother
      cases other with
      | nil => exact absurd hother hinitial
      | cons b other =>
        exact Nat.succ_le_succ (hfirst other (cons_append_prefix_cons.mp hother).2)

theorem not_prefix_of_splitFirst (h : splitFirst w l = none) (other : List α) :
    ¬ other ++ w <+: l := by
  induction l generalizing other with
  | nil =>
    intro hother
    have hnil := List.append_eq_nil_iff.mp (List.prefix_nil.mp hother)
    rw [splitFirst, if_pos hnil.2] at h
    cases h
  | cons a l ih =>
    rw [splitFirst] at h
    split_ifs at h with hinitial
    intro hother
    cases other with
    | nil => exact hinitial hother
    | cons b other =>
      exact ih (Option.map_eq_none_iff.mp h) other (cons_append_prefix_cons.mp hother).2

theorem splitFirst_eq_some_iff :
    splitFirst w l = some (before, after) ↔ FirstAt w l before ∧ l = before ++ w ++ after := by
  refine ⟨of_splitFirst, ?_⟩
  rintro ⟨hfirst, hl⟩
  cases hsplit : splitFirst w l with
  | none => exact absurd hfirst.1 (not_prefix_of_splitFirst hsplit before)
  | some p =>
    obtain ⟨before', after'⟩ := p
    obtain ⟨hfirst', hl'⟩ := of_splitFirst hsplit
    obtain rfl := hfirst.unique hfirst'
    rw [List.append_cancel_left (hl.symm.trans hl')]

theorem notMem_of_splitFirst {a : α} (h : splitFirst [a] l = some (before, after)) :
    a ∉ before := by
  intro hmem
  obtain ⟨front, back, rfl⟩ := List.append_of_mem hmem
  obtain ⟨⟨hbefore, hfirst⟩, -⟩ := of_splitFirst h
  -- the letter before the cut would be an earlier place
  have hearlier : front ++ [a] <+: l := by
    refine List.IsPrefix.trans ⟨back ++ [a], ?_⟩ hbefore
    simp
  have hlength := hfirst front hearlier
  rw [List.length_append, List.length_cons] at hlength
  omega

/-- A word whose first letter is not before it is cut where it stands. -/
theorem splitFirst_append {a : α} (h : a ∉ before) :
    splitFirst (a :: w) (before ++ a :: w ++ after) = some (before, after) := by
  induction before with
  | nil =>
    rw [List.nil_append, List.cons_append, splitFirst, ← List.cons_append,
      if_pos (List.prefix_append (a :: w) after), List.drop_left]
  | cons b before ih =>
    have hne : ¬ a :: w <+: b :: (before ++ a :: w ++ after) := by
      intro hinitial
      exact h (List.mem_cons.mpr (.inl (List.cons_prefix_cons.mp hinitial).1))
    rw [List.cons_append, List.cons_append, splitFirst, if_neg hne,
      ih fun hmem => h (List.mem_cons_of_mem b hmem), Option.map_some]

theorem not_prefix_of_splitLast (h : splitLast w l = none) (other : List α) :
    ¬ other ++ w <+: l := by
  induction l generalizing other with
  | nil =>
    intro hother
    have hnil := List.append_eq_nil_iff.mp (List.prefix_nil.mp hother)
    rw [splitLast, if_pos hnil.2] at h
    cases h
  | cons a l ih =>
    rw [splitLast] at h
    cases hsplit : splitLast w l with
    | some p =>
      rw [hsplit] at h
      cases h
    | none =>
      rw [hsplit] at h
      intro hother
      cases other with
      | nil =>
        rw [List.nil_append] at hother
        simp [hother] at h
      | cons b other => exact ih hsplit other (cons_append_prefix_cons.mp hother).2

theorem of_splitLast (h : splitLast w l = some (before, after)) :
    LastAt w l before ∧ l = before ++ w ++ after := by
  induction l generalizing before after with
  | nil =>
    rw [splitLast] at h
    split_ifs at h with hw
    obtain ⟨rfl, rfl⟩ := Prod.mk.inj (Option.some.inj h)
    refine ⟨⟨by simp [hw], ?_⟩, by simp [hw]⟩
    intro other hother
    rw [(List.append_eq_nil_iff.mp (List.prefix_nil.mp hother)).1]
  | cons a l ih =>
    rw [splitLast] at h
    cases hsplit : splitLast w l with
    | some p =>
      obtain ⟨before', after'⟩ := p
      rw [hsplit] at h
      obtain ⟨rfl, rfl⟩ := Prod.mk.inj (Option.some.inj h)
      obtain ⟨⟨hmem, hlast⟩, hl⟩ := ih hsplit
      refine ⟨⟨cons_append_prefix_cons.mpr ⟨rfl, hmem⟩, ?_⟩, by rw [hl]; simp⟩
      intro other hother
      cases other with
      | nil => exact Nat.zero_le _
      | cons b other =>
        exact Nat.succ_le_succ (hlast other (cons_append_prefix_cons.mp hother).2)
    | none =>
      rw [hsplit] at h
      dsimp only at h
      split_ifs at h with hinitial
      obtain ⟨rfl, rfl⟩ := Prod.mk.inj (Option.some.inj h)
      refine ⟨⟨hinitial, ?_⟩, (List.prefix_iff_eq_append.mp hinitial).symm⟩
      intro other hother
      cases other with
      | nil => exact Nat.le_refl _
      | cons b other =>
        exact absurd (cons_append_prefix_cons.mp hother).2 (not_prefix_of_splitLast hsplit other)

theorem splitLast_eq_some_iff :
    splitLast w l = some (before, after) ↔ LastAt w l before ∧ l = before ++ w ++ after := by
  refine ⟨of_splitLast, ?_⟩
  rintro ⟨hlast, hl⟩
  cases hsplit : splitLast w l with
  | none => exact absurd hlast.1 (not_prefix_of_splitLast hsplit before)
  | some p =>
    obtain ⟨before', after'⟩ := p
    obtain ⟨hlast', hl'⟩ := of_splitLast hsplit
    obtain rfl := hlast.unique hlast'
    rw [List.append_cancel_left (hl.symm.trans hl')]

end Split

end Theory
