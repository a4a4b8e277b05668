import Mathlib.Data.List.Forall2

/-!
# Lists of fallible computations

What is known of the values when a computation that may fail is made at each place of a list, and
none of them failed.

## Main results

* `forall₂_of_mapM` — the values belong to the places one by one
* `exists_of_mem_mapM` — every value comes from a place
* `getElem?_of_mapM` — the value of a place
* `mapM_eq_some_map_iff` — the values that are known beforehand
-/

namespace Theory

variable {α β ε : Type} {f : α → Except ε β}

theorem forall₂_of_mapM {l : List α} {l' : List β} (h : l.mapM f = .ok l') :
    List.Forall₂ (fun a b => f a = .ok b) l l' := by
  induction l generalizing l' with
  | nil =>
    cases h
    exact .nil
  | cons a l ih =>
    rw [List.mapM_cons] at h
    cases ha : f a with
    | error e =>
      rw [ha] at h
      cases h
    | ok b =>
      cases hl : l.mapM f with
      | error e =>
        rw [ha, hl] at h
        cases h
      | ok bs =>
        rw [ha, hl] at h
        cases h
        exact .cons ha (ih hl)

theorem exists_of_forall₂_right {R : α → β → Prop} {l : List α} {l' : List β}
    (h : List.Forall₂ R l l') {b : β} (hb : b ∈ l') : ∃ a ∈ l, R a b := by
  induction h with
  | nil => cases hb
  | cons hfirst _ ih =>
    rcases List.mem_cons.mp hb with rfl | hb
    · exact ⟨_, List.mem_cons_self .., hfirst⟩
    · obtain ⟨a, ha, hab⟩ := ih hb
      exact ⟨a, List.mem_cons_of_mem _ ha, hab⟩

/-- A value comes from a place. -/
theorem exists_of_mem_mapM {l : List α} {l' : List β} (h : l.mapM f = .ok l') {b : β}
    (hb : b ∈ l') : ∃ a ∈ l, f a = .ok b :=
  exists_of_forall₂_right (forall₂_of_mapM h) hb

/-- The value of the place that stands between two parts of the list. -/
theorem getElem?_of_mapM {before after : List α} {a : α} {l' : List β}
    (h : (before ++ a :: after).mapM f = .ok l') :
    ∃ b, l'[before.length]? = some b ∧ f a = .ok b := by
  obtain ⟨hlength, hget⟩ := List.forall₂_iff_get.mp (forall₂_of_mapM h)
  have hbefore : before.length < (before ++ a :: after).length := by
    rw [List.length_append, List.length_cons]
    omega
  have hplace := hget before.length hbefore (hlength ▸ hbefore)
  refine ⟨_, List.getElem?_eq_getElem (hlength ▸ hbefore), ?_⟩
  rw [List.get_eq_getElem, List.getElem_append_right (Nat.le_refl _)] at hplace
  simpa using hplace

/-! ### Computations that give nothing -/

section Option

variable {f : α → Option β} {l : List α}

theorem forall₂_of_mapM_some {l' : List β} (h : l.mapM f = some l') :
    List.Forall₂ (fun a b => f a = some b) l l' := by
  induction l generalizing l' with
  | nil =>
    cases h
    exact .nil
  | cons a l ih =>
    rw [List.mapM_cons] at h
    obtain ⟨b, hb, h⟩ := Option.bind_eq_some_iff.mp h
    obtain ⟨bs, hbs, h⟩ := Option.bind_eq_some_iff.mp h
    cases h
    exact .cons hb (ih hbs)

theorem mapM_eq_some_map_iff {g : α → β} :
    l.mapM f = some (l.map g) ↔ ∀ a ∈ l, f a = some (g a) := by
  constructor
  · intro h
    have hplaces := forall₂_of_mapM_some h
    rw [List.forall₂_map_right_iff] at hplaces
    exact List.forall₂_same.mp hplaces
  · intro h
    induction l with
    | nil => rfl
    | cons a l ih =>
      rw [List.forall_mem_cons] at h
      rw [List.mapM_cons, h.1, ih h.2]
      rfl

/-- A value that is not the expected one belongs to some place. -/
theorem exists_of_mapM_ne {g : α → β} {l' : List β} (h : l.mapM f = some l')
    (hne : l' ≠ l.map g) : ∃ a ∈ l, ∃ b, f a = some b ∧ b ≠ g a := by
  have hplaces := forall₂_of_mapM_some h
  clear h
  induction hplaces with
  | nil => exact absurd rfl hne
  | @cons a b l l' hfirst _ ih =>
    by_cases heq : b = g a
    · have hrest : l' ≠ l.map g := by
        intro hrest
        exact hne (by rw [heq, hrest, List.map_cons])
      obtain ⟨a', hmem, hchange⟩ := ih hrest
      exact ⟨a', List.mem_cons_of_mem a hmem, hchange⟩
    · exact ⟨a, List.mem_cons_self .., b, hfirst, heq⟩

end Option

end Theory
