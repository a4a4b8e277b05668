import Mathlib.Data.List.Perm.Basic

/-!
# Lists whose entries hold values

Each entry of a list holds some values. Setting an entry exchanges the values that it holds, and
where at most one entry holds any, it says which values are held.

## Main results

* `flatMap_set_perm`, `filterMap_set_perm` — what is held after an entry was set
* `flatMap_set_of_alone`, `flatMap_set_of_nil` — at most one entry holds values
-/

namespace Theory

variable {α β : Type*} {l : List α} {i : ℕ} {a a' : α} {f : α → List β}

/-- The list around an entry. -/
theorem exists_around (h : l[i]? = some a) : ∃ before after,
    l = before ++ a :: after ∧ ∀ a', l.set i a' = before ++ a' :: after := by
  obtain ⟨hi, rfl⟩ := List.getElem?_eq_some_iff.mp h
  refine ⟨l.take i, l.drop (i + 1), ?_, ?_⟩
  · rw [← List.drop_eq_getElem_cons hi, List.take_append_drop]
  · intro a'
    rw [List.set_eq_take_append_cons_drop, if_pos hi]

/-- Setting an entry exchanges what it holds. -/
theorem flatMap_set_perm (f : α → List β) (h : l[i]? = some a) (a' : α) :
    ((l.set i a').flatMap f ++ f a).Perm (l.flatMap f ++ f a') := by
  obtain ⟨before, after, rfl, hset⟩ := exists_around h
  rw [hset]
  simp only [List.flatMap_append, List.flatMap_cons, List.append_assoc]
  apply List.Perm.append_left
  calc (f a' ++ (after.flatMap f ++ f a)).Perm ((after.flatMap f ++ f a) ++ f a') :=
        List.perm_append_comm
    _ |>.Perm ((f a ++ after.flatMap f) ++ f a') := List.perm_append_comm.append_right _
    _ = f a ++ (after.flatMap f ++ f a') := List.append_assoc _ _ _

/-- Setting an entry exchanges what a partial function makes of it. -/
theorem filterMap_set_perm (f : α → Option β) (h : l[i]? = some a) (a' : α) :
    ((l.set i a').filterMap f ++ (f a).toList).Perm (l.filterMap f ++ (f a').toList) := by
  rw [List.filterMap_eq_flatMap_toList, List.filterMap_eq_flatMap_toList]
  exact flatMap_set_perm (fun a => (f a).toList) h a'

theorem flatMap_set_of_same (h : l[i]? = some a) (hsame : f a' = f a) :
    (l.set i a').flatMap f = l.flatMap f := by
  obtain ⟨before, after, rfl, hset⟩ := exists_around h
  rw [hset]
  simp only [List.flatMap_append, List.flatMap_cons, hsame]

/-- Where nothing is held, an entry that is set holds everything. -/
theorem flatMap_set_of_nil (h : l[i]? = some a) (hnil : l.flatMap f = []) (a' : α) :
    (l.set i a').flatMap f = f a' ∧
      ∀ b ∈ l.set i a', f b = [] ∨ f b = (l.set i a').flatMap f := by
  have hempty : ∀ b ∈ l, f b = [] := List.flatMap_eq_nil_iff.mp hnil
  have hall : (l.set i a').flatMap f = f a' := by
    obtain ⟨before, after, rfl, hset⟩ := exists_around h
    rw [List.flatMap_append, List.flatMap_cons, List.append_eq_nil_iff,
      List.append_eq_nil_iff] at hnil
    obtain ⟨hbefore, -, hafter⟩ := hnil
    rw [hset, List.flatMap_append, List.flatMap_cons, hbefore, hafter, List.nil_append,
      List.append_nil]
  refine ⟨hall, ?_⟩
  intro b hb
  rcases List.mem_or_eq_of_mem_set hb with hold | rfl
  · exact Or.inl (hempty b hold)
  · exact Or.inr hall.symm

/-- Where one entry holds everything, an entry that is emptied gives up what it held. -/
theorem flatMap_set_of_alone (h : l[i]? = some a)
    (halone : ∀ b ∈ l, f b = [] ∨ f b = l.flatMap f) (hempty : f a' = []) :
    l.flatMap f = f a ++ (l.set i a').flatMap f ∧
      ∀ b ∈ l.set i a', f b = [] ∨ f b = (l.set i a').flatMap f := by
  obtain ⟨before, after, rfl, hset⟩ := exists_around h
  rcases halone a (by simp) with ha | ha
  · -- the entry held nothing, and nothing changes
    have hsame := flatMap_set_of_same h (hempty.trans ha.symm)
    rw [ha, hsame]
    refine ⟨rfl, ?_⟩
    intro b hb
    rcases List.mem_or_eq_of_mem_set hb with hold | rfl
    · exact halone b hold
    · exact Or.inl hempty
  · -- the entry held everything, and nothing is left
    have hnone : (before ++ a' :: after).flatMap f = [] := by
      have hlength := congrArg List.length ha
      simp only [List.flatMap_append, List.flatMap_cons, List.length_append] at hlength
      have hbefore : before.flatMap f = [] := List.length_eq_zero_iff.mp (by omega)
      have hafter : after.flatMap f = [] := List.length_eq_zero_iff.mp (by omega)
      rw [List.flatMap_append, List.flatMap_cons, hbefore, hafter, hempty]
      rfl
    rw [hset, hnone, ← ha, List.append_nil]
    refine ⟨rfl, ?_⟩
    intro b hb
    exact Or.inl (List.flatMap_eq_nil_iff.mp hnone b hb)

end Theory
