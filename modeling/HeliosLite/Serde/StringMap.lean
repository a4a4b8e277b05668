import HeliosLite.Serde.Json

/-!
# Maps with string keys

A hash map or a hash set of the program, in one canonical form: its entries with their
keys in increasing order. The iteration order of the program's own maps is unspecified,
and nothing that is read back depends on it.

## Main definitions

* `StringMap` — entries with increasing keys; `StringSet` — a map without values
* `StringMap.get?`, `StringMap.insert` — the value under a key
* `StringMap.ofEntries` — entries inserted in order, the last of equal keys kept

## Main results

* `get?_insert`, `get?_eq_some_iff` — what stands under a key
* `ofEntries_entries` — a map is rebuilt from its entries
-/

namespace Serde

open Json (insertField SortedKeys sortedKeys_nil sortedKeys_insertField insertField_of_lt)

/-- A map with string keys. -/
structure StringMap (α : Type*) where
  entries : List (String × α)
  sorted : SortedKeys entries
  deriving DecidableEq

/-- A set of strings. -/
abbrev StringSet := StringMap Unit

namespace StringMap

variable {α β : Type*}

@[ext] theorem ext {m n : StringMap α} (h : m.entries = n.entries) : m = n := by
  cases m
  cases n
  simpa using h

def empty : StringMap α := ⟨[], sortedKeys_nil⟩

def isEmpty (m : StringMap α) : Bool := m.entries.isEmpty

/-- The map with the value under the key replaced. -/
def insert (m : StringMap α) (key : String) (value : α) : StringMap α :=
  ⟨insertField key value m.entries, sortedKeys_insertField m.sorted⟩

/-- The value under the key. -/
def get? (m : StringMap α) (key : String) : Option α := m.entries.lookup key

def contains (m : StringMap α) (key : String) : Bool := (m.get? key).isSome

/-- The entries inserted in order. -/
def ofEntries (entries : List (String × α)) : StringMap α :=
  entries.foldl (fun m p => m.insert p.1 p.2) empty

/-- The entries for which `f` has a value. -/
def filterMap (f : String → α → Option β) (m : StringMap α) : StringMap β :=
  ⟨m.entries.filterMap fun p => (f p.1 p.2).map fun b => (p.1, b), by
    refine List.pairwise_map.mpr (List.pairwise_filterMap.mpr ?_)
    refine (List.pairwise_map.mp m.sorted).imp fun {p q} hlt b hb c hc => ?_
    obtain ⟨_, -, rfl⟩ := Option.map_eq_some_iff.mp hb
    obtain ⟨_, -, rfl⟩ := Option.map_eq_some_iff.mp hc
    exact hlt⟩

/-- The map without the key. -/
def erase (m : StringMap α) (key : String) : StringMap α :=
  m.filterMap fun k a => if k = key then none else some a

@[simp] theorem entries_empty : (empty : StringMap α).entries = [] := rfl

theorem isEmpty_iff {m : StringMap α} : m.isEmpty ↔ m = empty := by
  rw [isEmpty, List.isEmpty_iff]
  exact ⟨fun h => ext h, fun h => congrArg entries h⟩

@[simp] theorem get?_empty (key : String) : (empty : StringMap α).get? key = none := rfl

theorem lookup_cons_ite (key other : String) (value : α) (l : List (String × α)) :
    ((key, value) :: l).lookup other = if other = key then some value else l.lookup other := by
  rw [List.lookup_cons]
  by_cases h : other = key
  · rw [if_pos h, beq_iff_eq.mpr h]
  · rw [if_neg h, beq_false_of_ne h]

theorem lookup_insertField (key other : String) (value : α) (l : List (String × α)) :
    (insertField key value l).lookup other =
      if other = key then some value else l.lookup other := by
  induction l with
  | nil => exact lookup_cons_ite key other value []
  | cons p l ih =>
    obtain ⟨k, v⟩ := p
    rw [insertField]
    by_cases hlt : key < k
    · rw [if_pos hlt, lookup_cons_ite]
    by_cases heq : key = k
    · subst heq
      rw [if_neg hlt, if_pos rfl, lookup_cons_ite, lookup_cons_ite]
      by_cases hother : other = key
      · rw [if_pos hother, if_pos hother]
      · rw [if_neg hother, if_neg hother, if_neg hother]
    · rw [if_neg hlt, if_neg heq, lookup_cons_ite, lookup_cons_ite, ih]
      by_cases hother : other = k
      · -- the key that is passed is not the one that is inserted
        subst hother
        rw [if_pos rfl, if_pos rfl, if_neg (Ne.symm heq)]
      · rw [if_neg hother, if_neg hother]

theorem get?_insert (m : StringMap α) (key other : String) (value : α) :
    (m.insert key value).get? other = if other = key then some value else m.get? other :=
  lookup_insertField key other value m.entries

@[simp] theorem contains_insert (m : StringMap α) (key other : String) (value : α) :
    (m.insert key value).contains other ↔ other = key ∨ m.contains other := by
  rw [contains, get?_insert]
  split_ifs with h
  · simp [h]
  · simp [h, contains]

theorem lookup_eq_some_iff {l : List (String × α)} (h : (l.map Prod.fst).Nodup) {key : String}
    {value : α} : l.lookup key = some value ↔ (key, value) ∈ l := by
  induction l with
  | nil => simp
  | cons p l ih =>
    obtain ⟨k, v⟩ := p
    obtain ⟨hk, hl⟩ := List.nodup_cons.mp h
    rw [lookup_cons_ite, List.mem_cons]
    by_cases hkey : key = k
    · -- no later entry has the key
      subst hkey
      have hlater : (key, value) ∉ l := fun hmem => hk (List.mem_map.mpr ⟨_, hmem, rfl⟩)
      simp [hlater, eq_comm]
    · rw [if_neg hkey, ih hl]
      simp [hkey]

theorem get?_eq_some_iff {m : StringMap α} {key : String} {value : α} :
    m.get? key = some value ↔ (key, value) ∈ m.entries :=
  lookup_eq_some_iff (m.sorted.imp fun h => ne_of_lt h)

@[simp] theorem get?_erase_self (m : StringMap α) (key : String) :
    (m.erase key).get? key = none := by
  rw [Option.eq_none_iff_forall_ne_some]
  intro value hget
  obtain ⟨⟨k, a⟩, -, hentry⟩ := List.mem_filterMap.mp (get?_eq_some_iff.mp hget)
  dsimp only at hentry
  split_ifs at hentry with hkey
  · cases hentry
  · obtain ⟨_, -, heq⟩ := Option.map_eq_some_iff.mp hentry
    exact hkey (congrArg Prod.fst heq)

theorem entries_foldl_insert {l : List (String × α)} (hl : SortedKeys l) :
    ∀ m : StringMap α, (∀ p ∈ m.entries, ∀ q ∈ l, p.1 < q.1) →
      (l.foldl (fun m p => m.insert p.1 p.2) m).entries = m.entries ++ l := by
  induction l with
  | nil => simp
  | cons f l ih =>
    intro m hm
    obtain ⟨hhead, htail⟩ := List.pairwise_cons.mp hl
    have hinsert : (m.insert f.1 f.2).entries = m.entries ++ [f] :=
      insertField_of_lt fun p hp => hm p hp f List.mem_cons_self
    rw [List.foldl_cons, ih htail, hinsert, List.append_assoc, List.singleton_append]
    intro p hp q hq
    rw [hinsert] at hp
    rcases List.mem_append.mp hp with hp | hp
    · exact hm p hp q (List.mem_cons_of_mem _ hq)
    · obtain rfl := List.mem_singleton.mp hp
      exact hhead _ (List.mem_map_of_mem hq)

/-- A map is rebuilt from its entries. -/
theorem ofEntries_entries (m : StringMap α) : ofEntries m.entries = m := by
  apply ext
  rw [ofEntries, entries_foldl_insert m.sorted _ (by simp)]
  rfl

end StringMap

end Serde
