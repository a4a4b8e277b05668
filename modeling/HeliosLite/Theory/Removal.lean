import Mathlib.Algebra.BigOperators.Group.List.Basic
import Mathlib.Algebra.Order.BigOperators.Group.List
import Mathlib.Algebra.Ring.Nat
import Mathlib.Data.List.InsertIdx

/-!
# Removing entries by index

A list from which one entry after the other is removed by index shrinks, and an index behind
a removed one then stands for another entry than before. The entries at the given indices of
the list as it was are removed exactly when each index lies in front of those before it.

## Main definitions

* `eraseEach` — the entries at the indices removed one after the other
* `without` — the list without the entries at the indices
* `Erasable` — each index is one of the list when its turn comes

## Main results

* `eraseEach_eq_places` — what is left, by the places in the list as it was
* `eraseEach_range_eq_iff` — the places left are those that were not named exactly when the
  indices descend
-/

namespace Theory

variable {α β : Type*}

/-- The list after the entries at the indices were removed, one after the other. -/
def eraseEach (l : List α) (indices : List ℕ) : List α := indices.foldl List.eraseIdx l

/-- The places `0, …, n - 1` that are not among the indices. -/
def unnamed (n : ℕ) (indices : List ℕ) : List ℕ := (List.range n).filter (· ∉ indices)

/-- The list without its entries at the indices. -/
def without (l : List α) (indices : List ℕ) : List α :=
  (unnamed l.length indices).filterMap (l[·]?)

/-- Each index is one of a list with `n` entries when its turn comes to be removed. -/
def Erasable : ℕ → List ℕ → Prop
  | _, [] => True
  | n, i :: indices => i < n ∧ Erasable (n - 1) indices

@[simp] theorem eraseEach_nil (l : List α) : eraseEach l [] = l := rfl

@[simp] theorem eraseEach_cons (l : List α) (i : ℕ) (indices : List ℕ) :
    eraseEach l (i :: indices) = eraseEach (l.eraseIdx i) indices := rfl

theorem eraseEach_sublist (l : List α) (indices : List ℕ) : (eraseEach l indices).Sublist l := by
  induction indices generalizing l with
  | nil => exact List.Sublist.refl l
  | cons i indices ih => exact (ih _).trans (List.eraseIdx_sublist l i)

theorem without_congr {l : List α} {indices indices' : List ℕ}
    (h : ∀ i, i ∈ indices ↔ i ∈ indices') : without l indices = without l indices' := by
  simp only [without, unnamed, h]

/-- The more indices, the less is left. -/
theorem without_sublist {l : List α} {indices indices' : List ℕ}
    (h : ∀ i ∈ indices, i ∈ indices') : (without l indices').Sublist (without l indices) := by
  apply List.Sublist.filterMap
  apply List.monotone_filter_right
  intro i hi
  simp only [decide_eq_true_eq] at hi ⊢
  exact fun hmem => hi (h i hmem)

theorem eraseEach_map (f : α → β) (l : List α) (indices : List ℕ) :
    eraseEach (l.map f) indices = (eraseEach l indices).map f := by
  induction indices generalizing l with
  | nil => rfl
  | cons i indices ih => rw [eraseEach_cons, List.eraseIdx_map, ih, eraseEach_cons]

theorem map_getElem?_range (l : List α) : (List.range l.length).map (l[·]?) = l.map some := by
  apply List.ext_getElem
  · simp
  · intro i h h'
    simp

theorem map_some_eraseEach (l : List α) (indices : List ℕ) :
    (eraseEach l indices).map some =
      (eraseEach (List.range l.length) indices).map (l[·]?) := by
  rw [← eraseEach_map, ← eraseEach_map, map_getElem?_range]

theorem length_eraseEach_range (l : List α) (indices : List ℕ) :
    (eraseEach (List.range l.length) indices).length = (eraseEach l indices).length := by
  have hlength := congrArg List.length (map_some_eraseEach l indices)
  rwa [List.length_map, List.length_map, eq_comm] at hlength

/-- The entries that are left are those at the places that are left. -/
theorem eraseEach_eq_places (l : List α) (indices : List ℕ) :
    eraseEach l indices = (eraseEach (List.range l.length) indices).filterMap (l[·]?) := by
  calc eraseEach l indices = ((eraseEach l indices).map some).filterMap id := by
        rw [List.filterMap_map]
        exact (List.filterMap_some).symm
    _ = (eraseEach (List.range l.length) indices).filterMap (l[·]?) := by
        rw [map_some_eraseEach, List.filterMap_map]
        rfl

/-- The entry at an index after removals is the one at the place that is left there. -/
theorem getElem?_eraseEach {l : List α} {indices : List ℕ} {i place : ℕ}
    (h : (eraseEach (List.range l.length) indices)[i]? = some place) :
    (eraseEach l indices)[i]? = l[place]? := by
  have hat := congrArg (·[i]?) (map_some_eraseEach l indices)
  simp only [List.getElem?_map, h, Option.map_some] at hat
  obtain ⟨a, ha, hplace⟩ := Option.map_eq_some_iff.mp hat
  rw [ha, ← hplace]

theorem erasable_append {n : ℕ} {indices more : List ℕ} :
    Erasable n (indices ++ more) ↔ Erasable n indices ∧ Erasable (n - indices.length) more := by
  induction indices generalizing n with
  | nil => simp [Erasable]
  | cons i indices ih =>
    rw [List.cons_append, Erasable, Erasable, ih, and_assoc, List.length_cons,
      Nat.sub_sub, Nat.add_comm 1]

/-! ### Descending indices -/

theorem eraseEach_append_of_lt {front back : List α} {indices : List ℕ}
    (h : Erasable front.length indices) :
    eraseEach (front ++ back) indices = eraseEach front indices ++ back := by
  induction indices generalizing front with
  | nil => rfl
  | cons i indices ih =>
    have hlen : (front.eraseIdx i).length = front.length - 1 := List.length_eraseIdx_of_lt h.1
    rw [eraseEach_cons, List.eraseIdx_append_of_lt_length h.1, ih (hlen ▸ h.2), eraseEach_cons]

/-- Descending indices are those of entries when their turn comes. -/
theorem erasable_of_descending {n : ℕ} {indices : List ℕ} (h : indices.Pairwise (· > ·))
    (hlt : ∀ i ∈ indices, i < n) : Erasable n indices := by
  induction indices generalizing n with
  | nil => trivial
  | cons i indices ih =>
    have hi := hlt i List.mem_cons_self
    refine ⟨hi, ih h.of_cons fun j hj => ?_⟩
    have hji : i > j := List.rel_of_pairwise_cons h hj
    omega

theorem eraseEach_range_of_descending {n : ℕ} {indices : List ℕ}
    (h : indices.Pairwise (· > ·)) (hlt : ∀ i ∈ indices, i < n) :
    eraseEach (List.range n) indices = unnamed n indices := by
  induction indices generalizing n with
  | nil => simp [unnamed]
  | cons i indices ih =>
    have hi := hlt i List.mem_cons_self
    have hbelow : ∀ j ∈ indices, j < i := fun j hj => List.rel_of_pairwise_cons h hj
    obtain ⟨k, rfl⟩ := Nat.exists_eq_add_of_lt hi
    have hsplit : List.range (i + k + 1) =
        List.range i ++ i :: (List.range k).map (i + 1 + ·) := by
      rw [show i + k + 1 = i + (1 + k) by omega, List.range_add, List.range_add]
      simp [Function.comp_def, Nat.add_assoc]
    have herase : (List.range (i + k + 1)).eraseIdx i =
        List.range i ++ (List.range k).map (i + 1 + ·) := by
      rw [hsplit, List.eraseIdx_append_of_length_le (by simp)]
      simp
    have hback : ∀ j ∈ (List.range k).map (i + 1 + ·), j ∉ i :: indices := by
      intro j hj hmem
      obtain ⟨m, -, rfl⟩ := List.mem_map.mp hj
      rcases List.mem_cons.mp hmem with heq | hmem
      · omega
      · have := hbelow _ hmem
        omega
    have hfront : (List.range i).filter (· ∉ i :: indices) = unnamed i indices := by
      apply List.filter_congr
      intro j hj
      have hne : j ≠ i := (List.mem_range.mp hj).ne
      simp [hne]
    have hunnamed : unnamed (i + k + 1) (i :: indices) =
        unnamed i indices ++ (List.range k).map (i + 1 + ·) := by
      rw [unnamed, hsplit, List.filter_append, hfront, List.filter_cons_of_neg (by simp),
        List.filter_eq_self.mpr fun j hj => decide_eq_true (hback j hj)]
    rw [hunnamed, eraseEach_cons, herase, eraseEach_append_of_lt
      (by simpa using erasable_of_descending h.of_cons hbelow), ih h.of_cons hbelow]

theorem eraseEach_of_descending {l : List α} {indices : List ℕ}
    (h : indices.Pairwise (· > ·)) (hlt : ∀ i ∈ indices, i < l.length) :
    eraseEach l indices = without l indices := by
  rw [eraseEach_eq_places, eraseEach_range_of_descending h hlt, without]

/-! ### Removal by removal -/

/-- A property of each index with those before it, one index more. -/
theorem forall_split_cons_iff {P : List ℕ → ℕ → Prop} {i : ℕ} {indices : List ℕ} :
    (∀ front j back, i :: indices = front ++ j :: back → P front j) ↔
      P [] i ∧ ∀ front j back, indices = front ++ j :: back → P (i :: front) j := by
  constructor
  · intro h
    refine ⟨h [] i indices rfl, fun front j back hsplit => h (i :: front) j back ?_⟩
    rw [hsplit, List.cons_append]
  · rintro ⟨hfirst, hrest⟩ (_ | ⟨k, front⟩) j back hsplit
    · obtain ⟨rfl, -⟩ := List.cons.inj hsplit
      exact hfirst
    · obtain ⟨rfl, hrest'⟩ := List.cons.inj hsplit
      exact hrest front j back hrest'

theorem descending_iff_forall_split {indices : List ℕ} :
    indices.Pairwise (· > ·) ↔
      ∀ front j back, indices = front ++ j :: back → ∀ i ∈ front, j < i := by
  constructor
  · rintro h front j back rfl i hi
    exact (List.pairwise_append.mp h).2.2 i hi j List.mem_cons_self
  · intro h
    induction indices with
    | nil => exact .nil
    | cons i indices ih =>
      have hcons := forall_split_cons_iff.mp h
      refine List.pairwise_cons.mpr ⟨fun j hj => ?_, ih fun front j back hsplit k hk =>
        hcons.2 front j back hsplit k (List.mem_cons_of_mem i hk)⟩
      obtain ⟨front, back, rfl⟩ := List.append_of_mem hj
      exact hcons.2 front j back rfl i List.mem_cons_self

theorem mem_eraseIdx_iff_of_nodup {l : List α} (hnodup : l.Nodup) {a : α} {i : ℕ} :
    a ∈ l.eraseIdx i ↔ a ∈ l ∧ l[i]? ≠ some a := by
  rw [List.mem_eraseIdx_iff_getElem?]
  constructor
  · rintro ⟨j, hji, hj⟩
    refine ⟨List.mem_of_getElem? hj, fun hi => hji ?_⟩
    have hlt := (List.getElem?_eq_some_iff.mp hi).1
    exact ((List.getElem?_inj hlt hnodup).mp (hi.trans hj.symm)).symm
  · rintro ⟨hmem, hi⟩
    obtain ⟨j, hj⟩ := List.mem_iff_getElem?.mp hmem
    refine ⟨j, ?_, hj⟩
    rintro rfl
    exact hi hj

/-- An entry is left exactly when no removal hits it. -/
theorem mem_eraseEach_iff {l : List α} (hnodup : l.Nodup) {a : α} {indices : List ℕ} :
    a ∈ eraseEach l indices ↔
      a ∈ l ∧ ∀ front j back, indices = front ++ j :: back → (eraseEach l front)[j]? ≠ some a := by
  induction indices generalizing l with
  | nil => simp
  | cons i indices ih =>
    rw [eraseEach_cons, ih (hnodup.eraseIdx i), mem_eraseIdx_iff_of_nodup hnodup,
      forall_split_cons_iff, and_assoc]
    rfl

/-! ### Indices behind removed ones -/

/-- In an ascending list of numbers no entry is less than its index. -/
theorem le_getElem_of_ascending {l : List ℕ} (h : l.Pairwise (· < ·)) {i : ℕ}
    (hi : i < l.length) : i ≤ l[i] := by
  induction i with
  | zero => exact Nat.zero_le _
  | succ i ih =>
    have hstep := List.pairwise_iff_getElem.mp h i (i + 1) (by omega) hi (by omega)
    have := ih (by omega)
    omega

/-- The entries that are removed from an ascending list of numbers add up to no less than
their indices. -/
theorem sum_eraseEach_le {l : List ℕ} {indices : List ℕ} (h : l.Pairwise (· < ·))
    (hvalid : Erasable l.length indices) :
    (eraseEach l indices).sum + indices.sum ≤ l.sum := by
  induction indices generalizing l with
  | nil => simp
  | cons i indices ih =>
    have hi := hvalid.1
    have hlen : (l.eraseIdx i).length = l.length - 1 := List.length_eraseIdx_of_lt hi
    have hrest := @ih (l.eraseIdx i) (h.eraseIdx i) (hlen ▸ hvalid.2)
    have hsum := List.CommMonoid.add_sum_eraseIdx hi
    have hle := le_getElem_of_ascending h hi
    rw [eraseEach_cons, List.sum_cons]
    omega

/-- Where the removed entries add up to their indices, each index is the entry at it, and the
indices descend. -/
theorem descending_of_sum_eraseEach {l : List ℕ} {indices : List ℕ} (h : l.Pairwise (· < ·))
    (hvalid : Erasable l.length indices)
    (hsum : (eraseEach l indices).sum + indices.sum = l.sum) :
    indices.Pairwise (· > ·) ∧ ∀ i ∈ indices, l[i]? = some i := by
  induction indices generalizing l with
  | nil => simp
  | cons i indices ih =>
    have hi := hvalid.1
    have hlen : (l.eraseIdx i).length = l.length - 1 := List.length_eraseIdx_of_lt hi
    have hvalid' : Erasable (l.eraseIdx i).length indices := hlen ▸ hvalid.2
    have hpair := h.eraseIdx i
    have hbound := sum_eraseEach_le hpair hvalid'
    have hsplit := List.CommMonoid.add_sum_eraseIdx hi
    have hle := le_getElem_of_ascending h hi
    rw [eraseEach_cons, List.sum_cons] at hsum
    have hat : l[i] = i := by omega
    obtain ⟨hdesc, hplaces⟩ := ih hpair hvalid' (by omega)
    have hbelow : ∀ j ∈ indices, j < i ∧ l[j]? = some j := by
      intro j hj
      have hplace := hplaces j hj
      by_cases hlt : j < i
      · rw [List.getElem?_eraseIdx_of_lt hlt] at hplace
        exact ⟨hlt, hplace⟩
      · rw [List.getElem?_eraseIdx_of_ge (by omega)] at hplace
        obtain ⟨hjl, hval⟩ := List.getElem?_eq_some_iff.mp hplace
        have := le_getElem_of_ascending h hjl
        omega
    refine ⟨List.pairwise_cons.mpr ⟨fun j hj => (hbelow j hj).1, hdesc⟩, ?_⟩
    intro j hj
    rcases List.mem_cons.mp hj with rfl | hj
    · rw [List.getElem?_eq_getElem hi, hat]
    · exact (hbelow j hj).2

theorem sum_unnamed_add {n : ℕ} {indices : List ℕ} (hnodup : indices.Nodup)
    (hlt : ∀ i ∈ indices, i < n) :
    (unnamed n indices).sum + indices.sum = (List.range n).sum := by
  have hperm : ((List.range n).filter (· ∈ indices)).Perm indices := by
    refine (List.perm_ext_iff_of_nodup (List.nodup_range.filter _) hnodup).mpr fun i => ?_
    simpa using hlt i
  have hall := (List.filter_append_perm (· ∈ indices) (List.range n)).sum_eq
  rw [List.sum_append, hperm.sum_eq] at hall
  rw [unnamed, Nat.add_comm, ← hall]
  simp

/-- The places that are left are those that were not named exactly when each index lies in
front of those before it. -/
theorem eraseEach_range_eq_iff {n : ℕ} {indices : List ℕ} (hvalid : Erasable n indices)
    (hnodup : indices.Nodup) (hlt : ∀ i ∈ indices, i < n) :
    eraseEach (List.range n) indices = unnamed n indices ↔ indices.Pairwise (· > ·) := by
  constructor
  · intro h
    refine (@descending_of_sum_eraseEach (List.range n) indices List.pairwise_lt_range
      (by simpa using hvalid) ?_).1
    rw [h, sum_unnamed_add hnodup hlt]
  · exact fun h => eraseEach_range_of_descending h hlt

end Theory
