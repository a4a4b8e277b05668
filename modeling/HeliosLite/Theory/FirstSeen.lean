import Mathlib.Data.Finset.Card
import Mathlib.Data.Finset.Dedup
import Mathlib.Data.Finset.Lattice.Lemmas

/-!
# The first element of each key

A list is read from the front, and an element is kept if its key was not seen before. The
keys of what is kept are different, and they are all the keys of the list.

## Main definitions

* `firstSeen` — the elements whose key is new
* `distinct` — the number of different keys of a list
* `atMost` — the front of a list, up to a limit if there is one

## Main results

* `mem_firstSeen_iff` — what is kept has no element with its key before it
* `length_firstSeen` — one element is kept for each key
* `distinct_atMost_eq_iff` — when the front of a list has as many keys as it can
-/

namespace Theory

variable {α κ : Type*} [DecidableEq κ]

/-- The elements whose key is not among those seen, each key once. -/
def firstSeen (key : α → κ) : List κ → List α → List α
  | _, [] => []
  | seen, a :: l =>
    if key a ∈ seen then firstSeen key seen l else a :: firstSeen key (key a :: seen) l

/-- The number of different keys. -/
def distinct (key : α → κ) (l : List α) : ℕ := (l.map key).toFinset.card

omit [DecidableEq κ] in
/-- The first elements, as many as the limit allows. -/
def atMost (limit : Option ℕ) (l : List α) : List α :=
  match limit with
  | none => l
  | some n => l.take n

omit [DecidableEq κ] in
/-- The smaller of a number and a limit. -/
def capped (limit : Option ℕ) (m : ℕ) : ℕ :=
  match limit with
  | none => m
  | some n => min n m

variable {key : α → κ} {seen : List κ} {l : List α} {limit : Option ℕ}

/-! ### What is kept -/

theorem firstSeen_cons_of_mem {a : α} (h : key a ∈ seen) :
    firstSeen key seen (a :: l) = firstSeen key seen l := if_pos h

theorem firstSeen_cons_of_not_mem {a : α} (h : key a ∉ seen) :
    firstSeen key seen (a :: l) = a :: firstSeen key (key a :: seen) l := if_neg h

theorem firstSeen_sublist : (firstSeen key seen l).Sublist l := by
  induction l generalizing seen with
  | nil => exact List.Sublist.slnil
  | cons a l ih =>
    by_cases h : key a ∈ seen
    · rw [firstSeen_cons_of_mem h]
      exact ih.cons a
    · rw [firstSeen_cons_of_not_mem h]
      exact ih.cons_cons a

/-- An element is kept if its key is not among those seen, and no element before it has it. -/
theorem mem_firstSeen_iff {a : α} : a ∈ firstSeen key seen l ↔
    ∃ before after, l = before ++ a :: after ∧ key a ∉ seen ∧ key a ∉ before.map key := by
  induction l generalizing seen with
  | nil => simp [firstSeen]
  | cons b l ih =>
    by_cases hb : key b ∈ seen
    · rw [firstSeen_cons_of_mem hb, ih]
      constructor
      · rintro ⟨before, after, rfl, hseen, hbefore⟩
        have hne : key a ≠ key b := fun h => hseen (h ▸ hb)
        exact ⟨b :: before, after, rfl, hseen, by simp_all⟩
      · rintro ⟨before, after, hl, hseen, hbefore⟩
        cases before with
        | nil =>
          obtain ⟨rfl, rfl⟩ := List.cons.inj hl
          exact absurd hb hseen
        | cons c before =>
          obtain ⟨rfl, rfl⟩ := List.cons.inj hl
          exact ⟨before, after, rfl, hseen, by simp_all⟩
    · rw [firstSeen_cons_of_not_mem hb, List.mem_cons, ih]
      constructor
      · rintro (rfl | ⟨before, after, rfl, hseen, hbefore⟩)
        · exact ⟨[], l, rfl, hb, by simp⟩
        · exact ⟨b :: before, after, rfl, by simp_all, by simp_all⟩
      · rintro ⟨before, after, hl, hseen, hbefore⟩
        cases before with
        | nil =>
          obtain ⟨rfl, rfl⟩ := List.cons.inj hl
          exact Or.inl rfl
        | cons c before =>
          obtain ⟨rfl, rfl⟩ := List.cons.inj hl
          exact Or.inr ⟨before, after, rfl, by simp_all, by simp_all⟩

theorem not_mem_seen_of_mem_firstSeen {a : α} (h : a ∈ firstSeen key seen l) : key a ∉ seen := by
  obtain ⟨before, after, -, hseen, -⟩ := mem_firstSeen_iff.mp h
  exact hseen

theorem nodup_firstSeen (key : α → κ) (seen : List κ) (l : List α) :
    ((firstSeen key seen l).map key).Nodup := by
  induction l generalizing seen with
  | nil => exact List.nodup_nil
  | cons a l ih =>
    by_cases h : key a ∈ seen
    · rw [firstSeen_cons_of_mem h]
      exact ih seen
    · rw [firstSeen_cons_of_not_mem h, List.map_cons, List.nodup_cons]
      refine ⟨?_, ih (key a :: seen)⟩
      intro hmem
      obtain ⟨b, hb, hkey⟩ := List.mem_map.mp hmem
      exact not_mem_seen_of_mem_firstSeen hb (by simp [hkey])

/-- The keys that are kept are those of the list that were not seen. -/
theorem mem_keys_firstSeen_iff {k : κ} :
    k ∈ (firstSeen key seen l).map key ↔ k ∈ l.map key ∧ k ∉ seen := by
  induction l generalizing seen with
  | nil => simp [firstSeen]
  | cons a l ih =>
    by_cases h : key a ∈ seen
    · rw [firstSeen_cons_of_mem h, ih, List.map_cons, List.mem_cons]
      constructor
      · exact fun ⟨hl, hseen⟩ => ⟨Or.inr hl, hseen⟩
      · rintro ⟨rfl | hl, hseen⟩
        · exact absurd h hseen
        · exact ⟨hl, hseen⟩
    · rw [firstSeen_cons_of_not_mem h, List.map_cons, List.map_cons, List.mem_cons, List.mem_cons,
        ih, List.mem_cons]
      by_cases hk : k = key a
      · simp [hk, h]
      · simp [hk]

theorem exists_mem_firstSeen (key : α → κ) {a : α} (h : a ∈ l) :
    ∃ b ∈ firstSeen key [] l, key b = key a := by
  have hmem : key a ∈ (firstSeen key [] l).map key :=
    mem_keys_firstSeen_iff.mpr ⟨List.mem_map_of_mem h, List.not_mem_nil⟩
  exact List.mem_map.mp hmem

/-! ### How much is kept -/

theorem distinct_eq_length_of_nodup (h : (l.map key).Nodup) : distinct key l = l.length := by
  rw [distinct, List.toFinset_card_of_nodup h, List.length_map]

theorem distinct_le_length (key : α → κ) (l : List α) : distinct key l ≤ l.length := by
  have hle := List.toFinset_card_le (l.map key)
  rwa [List.length_map] at hle

theorem nodup_of_distinct_eq_length (h : distinct key l = l.length) : (l.map key).Nodup := by
  rw [distinct, List.card_toFinset] at h
  apply List.dedup_eq_self.mp
  apply (List.dedup_sublist _).eq_of_length
  rw [h, List.length_map]

theorem distinct_mono {l' : List α} (h : ∀ a ∈ l, key a ∈ l'.map key) :
    distinct key l ≤ distinct key l' := by
  apply Finset.card_le_card
  intro k hk
  obtain ⟨a, ha, rfl⟩ := List.mem_map.mp (List.mem_toFinset.mp hk)
  exact List.mem_toFinset.mpr (h a ha)

theorem distinct_perm {l' : List α} (h : l.Perm l') : distinct key l = distinct key l' := by
  rw [distinct, distinct, List.toFinset_eq_of_perm _ _ (h.map key)]

/-- One element is kept for each key. -/
theorem length_firstSeen : (firstSeen key [] l).length = distinct key l := by
  rw [← distinct_eq_length_of_nodup (nodup_firstSeen key [] l), distinct,
    distinct]
  congr 1
  ext k
  rw [List.mem_toFinset, List.mem_toFinset, mem_keys_firstSeen_iff]
  simp

/-- A change that keeps the keys keeps the choice. -/
theorem firstSeen_map {β : Type*} {key' : β → κ} {f : α → β} (hf : ∀ a, key' (f a) = key a) :
    firstSeen key' seen (l.map f) = (firstSeen key seen l).map f := by
  induction l generalizing seen with
  | nil => rfl
  | cons a l ih =>
    rw [List.map_cons]
    by_cases h : key a ∈ seen
    · rw [firstSeen_cons_of_mem h, firstSeen_cons_of_mem (by rwa [hf]), ih]
    · rw [firstSeen_cons_of_not_mem h, firstSeen_cons_of_not_mem (by rwa [hf]), hf, ih,
        List.map_cons]

/-- The choice depends on which keys were seen, not on their order. -/
theorem firstSeen_congr {seen' : List κ} (h : ∀ k, k ∈ seen ↔ k ∈ seen') :
    firstSeen key seen l = firstSeen key seen' l := by
  induction l generalizing seen seen' with
  | nil => rfl
  | cons a l ih =>
    by_cases ha : key a ∈ seen
    · rw [firstSeen_cons_of_mem ha, firstSeen_cons_of_mem ((h _).mp ha), ih h]
    · rw [firstSeen_cons_of_not_mem ha, firstSeen_cons_of_not_mem fun ha' => ha ((h _).mpr ha')]
      congr 1
      apply ih
      intro k
      rw [List.mem_cons, List.mem_cons, h]

/-- A key that was seen before is left out of the choice. -/
theorem firstSeen_cons_seen (k : κ) :
    firstSeen key (k :: seen) l = (firstSeen key seen l).filter fun a => !decide (key a = k) := by
  induction l generalizing seen with
  | nil => rfl
  | cons a l ih =>
    by_cases ha : key a ∈ seen
    · rw [firstSeen_cons_of_mem ha, firstSeen_cons_of_mem (List.mem_cons_of_mem _ ha), ih]
    · rw [firstSeen_cons_of_not_mem ha]
      have hswap : firstSeen key (key a :: k :: seen) l = firstSeen key (k :: key a :: seen) l := by
        apply firstSeen_congr
        intro k'
        rw [List.mem_cons, List.mem_cons, List.mem_cons, List.mem_cons, or_left_comm]
      by_cases hk : key a = k
      · -- the element itself is left out, and so are those after it
        have hsame : firstSeen key (k :: k :: seen) l = firstSeen key (k :: seen) l := by
          apply firstSeen_congr
          intro k'
          rw [List.mem_cons, or_iff_right_of_imp]
          rintro rfl
          exact List.mem_cons_self
        rw [firstSeen_cons_of_mem (hk ▸ List.mem_cons_self),
          List.filter_cons_of_neg (by simpa using hk),
          ← ih, hk, hsame]
      · rw [firstSeen_cons_of_not_mem, List.filter_cons_of_pos (by simpa using hk), hswap, ih]
        rw [List.mem_cons, not_or]
        exact ⟨hk, ha⟩

theorem firstSeen_of_nodup (h : (l.map key).Nodup) : firstSeen key [] l = l := by
  apply firstSeen_sublist.eq_of_length
  rw [length_firstSeen, distinct_eq_length_of_nodup h]

/-- A list without repetitions, joined with the elements of another list that it lacks. -/
theorem nodup_append_firstSeen {m : List α} (h : (l.map key).Nodup) :
    ((l ++ firstSeen key (l.map key) m).map key).Nodup := by
  rw [List.map_append, List.nodup_append]
  refine ⟨h, nodup_firstSeen _ _ _, ?_⟩
  intro k hk k' hk' hkk'
  exact (mem_keys_firstSeen_iff.mp hk').2 (hkk' ▸ hk)

theorem length_append_firstSeen {m : List α} (h : (l.map key).Nodup) :
    (l ++ firstSeen key (l.map key) m).length = distinct key (l ++ m) := by
  rw [← distinct_eq_length_of_nodup (nodup_append_firstSeen h), distinct, distinct]
  congr 1
  ext k
  simp only [List.map_append, List.mem_toFinset, List.mem_append, mem_keys_firstSeen_iff]
  tauto

/-! ### Limits -/

omit [DecidableEq κ] in
theorem atMost_sublist : (atMost limit l).Sublist l := by
  cases limit with
  | none => exact List.Sublist.refl l
  | some n => exact List.take_sublist n l

omit [DecidableEq κ] in
theorem atMost_map {β : Type*} (f : α → β) : atMost limit (l.map f) = (atMost limit l).map f := by
  cases limit with
  | none => rfl
  | some n => exact List.map_take.symm

omit [DecidableEq κ] in
theorem length_atMost (limit : Option ℕ) (l : List α) :
    (atMost limit l).length = capped limit l.length := by
  cases limit with
  | none => rfl
  | some n => exact List.length_take

/-- A front in which no key is repeated is as long as the limit and the keys allow. -/
theorem length_atMost_of_nodup (h : ((atMost limit l).map key).Nodup) :
    (atMost limit l).length = capped limit (distinct key l) := by
  have hlength := length_atMost limit l
  have hfront := distinct_eq_length_of_nodup h
  have hmono : distinct key (atMost limit l) ≤ distinct key l :=
    distinct_mono fun a ha => List.mem_map_of_mem (atMost_sublist.subset ha)
  have hle := distinct_le_length key l
  cases limit with
  | none => exact hfront.symm
  | some n =>
    simp only [capped] at hlength ⊢
    omega

/-- The front of a list has as many keys as the limit allows if it repeats none, or has them
all. -/
theorem distinct_atMost_eq_iff :
    distinct key (atMost limit l) = capped limit (distinct key l) ↔
      ((atMost limit l).map key).Nodup ∨ ∀ a ∈ l, key a ∈ (atMost limit l).map key := by
  constructor
  · intro h
    by_cases hall : distinct key (atMost limit l) = distinct key l
    · -- all keys are there
      right
      have hsubset : ((atMost limit l).map key).toFinset ⊆ (l.map key).toFinset := by
        intro k hk
        obtain ⟨a, ha, rfl⟩ := List.mem_map.mp (List.mem_toFinset.mp hk)
        exact List.mem_toFinset.mpr (List.mem_map_of_mem (atMost_sublist.subset ha))
      have hsame := Finset.eq_of_subset_of_card_le hsubset hall.ge
      intro a ha
      have hkey : key a ∈ (l.map key).toFinset := List.mem_toFinset.mpr (List.mem_map_of_mem ha)
      rw [← hsame] at hkey
      exact List.mem_toFinset.mp hkey
    · -- the front is as long as the limit
      left
      apply nodup_of_distinct_eq_length
      have hlength := length_atMost limit l
      have hle := distinct_le_length key (atMost limit l)
      cases limit with
      | none => exact absurd h hall
      | some n =>
        simp only [capped] at h hlength
        omega
  · rintro (hnodup | hall)
    · rw [distinct_eq_length_of_nodup hnodup, length_atMost_of_nodup hnodup]
    · have hge : distinct key l ≤ distinct key (atMost limit l) := distinct_mono hall
      have hmono : distinct key (atMost limit l) ≤ distinct key l :=
        distinct_mono fun a ha => List.mem_map_of_mem (atMost_sublist.subset ha)
      have hlength := length_atMost limit l
      have hle := distinct_le_length key (atMost limit l)
      cases limit with
      | none => rfl
      | some n =>
        simp only [capped] at hlength ⊢
        omega

/-- Two lists that are cut at the limit before they are joined have as many keys, up to the
limit, as the whole lists. -/
theorem capped_distinct_append {m : List α} (h : (l.map key).Nodup) :
    capped limit (distinct key (atMost limit l ++ atMost limit (firstSeen key [] m)))
      = capped limit (distinct key (l ++ m)) := by
  have hkeys : distinct key (l ++ firstSeen key [] m) = distinct key (l ++ m) := by
    rw [distinct, distinct]
    congr 1
    ext k
    simp only [List.map_append, List.mem_toFinset, List.mem_append, mem_keys_firstSeen_iff]
    simp
  cases limit with
  | none => exact hkeys
  | some n =>
    have hleft : distinct key (l.take n) ≤ distinct key (l.take n ++ (firstSeen key [] m).take n) :=
      distinct_mono fun a ha => List.mem_map_of_mem (List.mem_append_left _ ha)
    have hright : distinct key ((firstSeen key [] m).take n)
        ≤ distinct key (l.take n ++ (firstSeen key [] m).take n) :=
      distinct_mono fun a ha => List.mem_map_of_mem (List.mem_append_right _ ha)
    have hwhole : distinct key (l.take n ++ (firstSeen key [] m).take n) ≤
        distinct key (l ++ m) := by
      rw [← hkeys]
      apply distinct_mono
      intro a ha
      apply List.mem_map_of_mem
      rcases List.mem_append.mp ha with ha | ha
      · exact List.mem_append_left _ (List.mem_of_mem_take ha)
      · exact List.mem_append_right _ (List.mem_of_mem_take ha)
    have hl : distinct key (l.take n) = min n l.length := by
      rw [distinct_eq_length_of_nodup (h.sublist ((List.take_sublist n l).map key)),
        List.length_take]
    have hm : distinct key ((firstSeen key [] m).take n) = min n (firstSeen key [] m).length := by
      rw [distinct_eq_length_of_nodup
        ((nodup_firstSeen _ _ _).sublist ((List.take_sublist n (firstSeen key [] m)).map key)),
        List.length_take]
    simp only [capped, atMost]
    by_cases hshort : l.length ≤ n ∧ (firstSeen key [] m).length ≤ n
    · rw [List.take_of_length_le hshort.1, List.take_of_length_le hshort.2, hkeys]
    · omega

end Theory
