import Mathlib.Data.List.Basic
import Mathlib.Data.List.Nodup
import HeliosLite.Theory.Fuel

/-!
# Objects as lists of entries

An object is the list of its entries, each a key and a value; a key is looked up from the front.
An entry is replaced where it stands, or else added at the end. The values of some keys are
rewritten, each by a rewriting for its key that may give nothing; the keys stay as they are, and a
key that is not there is not added.

Two multisets of entries agree if they agree for each key. What the entries of a table give has for
each key the part that the entry with this key gives.

## Main definitions

* `hasEntry`, `insertEntry`, `removeEntry` — the operations on an object
* `updateEntry`, `updateEntries` — the value of one key, and of some keys, rewritten

## Main results

* `lookup_insertEntry`, `lookup_removeEntry` — what is found afterwards
* `insertEntry_of_lookup`, `removeEntry_of_lookup` — operations that change nothing
* `mem_insertEntry`, `nodup_insertEntry` — the entries and the keys afterwards
* `lookup_updateEntries`, `mem_updateEntries` — what is found after rewriting
* `computes_updateEntries_self` — values that are rewritten to themselves
* `exists_computes_updateEntries` — values that are rewritten to something
* `perm_iff_filter_key` — permutations, key by key
* `filter_flatMap_of_nodup` — the part of one key
-/

namespace Theory

variable {κ β : Type*} [DecidableEq κ]

def hasEntry (map : List (κ × β)) (key : κ) : Bool := (map.lookup key).isSome

/-- The object without the key. -/
def removeEntry (map : List (κ × β)) (key : κ) : List (κ × β) := map.filter (·.1 ≠ key)

/-- The object with the value under the key. -/
def insertEntry (map : List (κ × β)) (key : κ) (value : β) : List (κ × β) :=
  match map with
  | [] => [(key, value)]
  | entry :: map =>
    if entry.1 = key then (key, value) :: map else entry :: insertEntry map key value

attribute [grind =] insertEntry

variable {map : List (κ × β)} {key other : κ} {value : β}

theorem lookup_insertEntry :
    (insertEntry map key value).lookup other =
      if other = key then some value else map.lookup other := by
  induction map with
  | nil => grind
  | cons entry map ih => grind

@[simp] theorem lookup_insertEntry_self : (insertEntry map key value).lookup key = some value := by
  rw [lookup_insertEntry, if_pos rfl]

theorem lookup_insertEntry_of_ne (h : other ≠ key) :
    (insertEntry map key value).lookup other = map.lookup other := by
  rw [lookup_insertEntry, if_neg h]

theorem lookup_removeEntry :
    (removeEntry map key).lookup other = if other = key then none else map.lookup other := by
  unfold removeEntry
  induction map with
  | nil => simp
  | cons entry map ih => grind

/-- Writing what is there changes nothing. -/
theorem insertEntry_of_lookup (h : map.lookup key = some value) :
    insertEntry map key value = map := by
  induction map with
  | nil => simp at h
  | cons entry map ih => grind

theorem removeEntry_of_lookup (h : map.lookup key = none) : removeEntry map key = map := by
  unfold removeEntry
  rw [List.filter_eq_self]
  intro entry hentry
  have hne := List.lookup_eq_none_iff.mp h entry hentry
  rw [bne_iff_ne] at hne
  exact decide_eq_true (Ne.symm hne)

theorem lookup_foldl_removeEntry {keys : List κ} :
    (keys.foldl removeEntry map).lookup other =
      if other ∈ keys then none else map.lookup other := by
  induction keys generalizing map with
  | nil => rw [List.foldl_nil, if_neg List.not_mem_nil]
  | cons key keys ih =>
    rw [List.foldl_cons, ih, lookup_removeEntry]
    by_cases h : other = key <;> simp [h]

theorem mem_of_mem_foldl_removeEntry {keys : List κ} {entry : κ × β}
    (h : entry ∈ keys.foldl removeEntry map) : entry ∈ map := by
  induction keys generalizing map with
  | nil => exact h
  | cons key keys ih => exact List.mem_of_mem_filter (ih h)

theorem foldl_removeEntry_of_lookup {keys : List κ} (h : ∀ key ∈ keys, map.lookup key = none) :
    keys.foldl removeEntry map = map := by
  induction keys with
  | nil => rfl
  | cons key keys ih =>
    rw [List.forall_mem_cons] at h
    rw [List.foldl_cons, removeEntry_of_lookup h.1, ih h.2]

theorem hasEntry_insertEntry :
    hasEntry (insertEntry map key value) other = (decide (other = key) || hasEntry map other) := by
  unfold hasEntry
  rw [lookup_insertEntry]
  by_cases h : other = key <;> simp [h]

theorem hasEntry_iff : hasEntry map key = true ↔ ∃ value, map.lookup key = some value :=
  Option.isSome_iff_exists

theorem hasEntry_eq_false_iff : hasEntry map key = false ↔ map.lookup key = none := by
  unfold hasEntry
  rw [Option.isSome_eq_false_iff, Option.isNone_iff_eq_none]

/-- The entries are added from the last to the first, so that the first of a key stays. -/
theorem lookup_foldr_insertEntry {entries : List (κ × β)} :
    (entries.foldr (fun entry map => insertEntry map entry.1 entry.2) map).lookup other =
      (entries.lookup other).or (map.lookup other) := by
  induction entries with
  | nil => rfl
  | cons entry entries ih =>
    rw [List.foldr_cons, lookup_insertEntry, ih, List.lookup_cons]
    by_cases h : other = entry.1
    · rw [if_pos h, h, beq_self_eq_true]
      rfl
    · rw [if_neg h, beq_false_of_ne h]

/-- The entries whose key is not there are added. -/
theorem lookup_foldl_insertNew {entries : List (κ × β)} :
    (entries.foldl (fun map entry => if hasEntry map entry.1 then map
      else insertEntry map entry.1 entry.2) map).lookup other =
      (map.lookup other).or (entries.lookup other) := by
  induction entries generalizing map with
  | nil => rw [List.foldl_nil, List.lookup_nil, Option.or_none]
  | cons entry entries ih =>
    rw [List.foldl_cons, ih, List.lookup_cons]
    by_cases h : other = entry.1
    · subst h
      rw [beq_self_eq_true]
      split_ifs with hentry
      · obtain ⟨value, hvalue⟩ := hasEntry_iff.mp hentry
        rw [hvalue]
        rfl
      · rw [Bool.not_eq_true, hasEntry_eq_false_iff] at hentry
        rw [lookup_insertEntry_self, hentry]
        rfl
    · rw [beq_false_of_ne h]
      split_ifs
      · rfl
      · rw [lookup_insertEntry_of_ne h]

/-! ### Entries and keys -/

theorem mem_insertEntry {entry : κ × β} (h : entry ∈ insertEntry map key value) :
    entry = (key, value) ∨ entry ∈ map := by
  induction map with
  | nil => exact .inl (List.mem_singleton.mp h)
  | cons first map ih =>
    rw [insertEntry] at h
    split_ifs at h
    · exact (List.mem_cons.mp h).imp_right (List.mem_cons_of_mem first)
    · rcases List.mem_cons.mp h with rfl | hrest
      · exact .inr List.mem_cons_self
      · exact (ih hrest).imp_right (List.mem_cons_of_mem first)

theorem length_insertEntry_le : (insertEntry map key value).length ≤ map.length + 1 := by
  induction map with
  | nil => exact Nat.le_refl 1
  | cons entry map ih =>
    rw [insertEntry]
    split_ifs
    · exact Nat.le_succ _
    · exact Nat.succ_le_succ ih

theorem nodup_insertEntry (h : (map.map Prod.fst).Nodup) :
    ((insertEntry map key value).map Prod.fst).Nodup := by
  induction map with
  | nil => exact List.nodup_singleton key
  | cons entry map ih =>
    obtain ⟨hnew, hrest⟩ := List.nodup_cons.mp h
    rw [insertEntry]
    split_ifs with hkey
    · rwa [List.map_cons, ← hkey]
    · refine List.nodup_cons.mpr ⟨?_, ih hrest⟩
      intro hmem
      obtain ⟨other, hother, heq⟩ := List.mem_map.mp hmem
      rcases mem_insertEntry hother with rfl | hmap
      · exact hkey heq.symm
      · exact hnew (List.mem_map.mpr ⟨other, hmap, heq⟩)

theorem insertEntry_of_lookup_none (h : map.lookup key = none) :
    insertEntry map key value = map ++ [(key, value)] := by
  induction map with
  | nil => rfl
  | cons entry map ih => grind

theorem nodup_removeEntry (h : (map.map Prod.fst).Nodup) :
    ((removeEntry map key).map Prod.fst).Nodup :=
  h.sublist (List.filter_sublist.map Prod.fst)

/-- Where the keys are different, an entry that is there is replaced wherever its key stands. -/
theorem map_eq_insertEntry (h : (map.map Prod.fst).Nodup) (hkey : map.lookup key ≠ none) :
    (map.map fun entry => if entry.1 = key then (key, value) else entry) =
      insertEntry map key value := by
  induction map with
  | nil => exact absurd rfl hkey
  | cons entry map ih =>
    obtain ⟨hnew, hrest⟩ := List.nodup_cons.mp h
    rw [List.map_cons, insertEntry]
    split_ifs with heq
    · have hself : ∀ other ∈ map, (if other.1 = key then (key, value) else other) = other := by
        intro other hother
        refine if_neg fun hsame => hnew ?_
        rw [heq, ← hsame]
        exact List.mem_map_of_mem hother
      rw [List.map_congr_left hself, List.map_id']
    · rw [List.lookup_cons, beq_false_of_ne (Ne.symm heq)] at hkey
      rw [ih hrest hkey]

end Theory

/-! ### Rewriting the values of an object -/

namespace Theory

variable {κ β : Type} [DecidableEq κ]

/-- The object with the value under the key rewritten. -/
def updateEntry (f : β → Option β) (map : List (κ × β)) (key : κ) : Option (List (κ × β)) :=
  match map.lookup key with
  | some value => (f value).map (insertEntry map key)
  | none => some map

/-- The object with the values under the keys rewritten, one after the other. -/
def updateEntries (f : κ → β → Option β) (keys : List κ) (map : List (κ × β)) :
    Option (List (κ × β)) :=
  keys.foldlM (fun map key => updateEntry (f key) map key) map

variable {f : κ → β → Option β} {map map' : List (κ × β)} {key other : κ} {keys : List κ}

theorem lookup_updateEntry {g : β → Option β} (h : updateEntry g map key = some map') :
    map'.lookup other = if other = key then (map.lookup key).bind g else map.lookup other := by
  unfold updateEntry at h
  split at h
  next value hvalue =>
    obtain ⟨value', hvalue', rfl⟩ := Option.map_eq_some_iff.mp h
    rw [lookup_insertEntry, hvalue, Option.bind_some, hvalue']
  next hnone =>
    obtain rfl := Option.some.inj h
    split_ifs with hkey
    · rw [hkey, hnone, Option.bind_none]
    · rfl

theorem mem_updateEntry {g : β → Option β} {entry : κ × β} (h : updateEntry g map key = some map')
    (hentry : entry ∈ map') :
    entry ∈ map ∨
      ∃ value, map.lookup key = some value ∧ entry.1 = key ∧ g value = some entry.2 := by
  unfold updateEntry at h
  split at h
  next value hvalue =>
    obtain ⟨value', hvalue', rfl⟩ := Option.map_eq_some_iff.mp h
    rcases mem_insertEntry hentry with rfl | hmem
    · exact .inr ⟨value, hvalue, rfl, hvalue'⟩
    · exact .inl hmem
  next =>
    obtain rfl := Option.some.inj h
    exact .inl hentry

theorem updateEntries_cons :
    updateEntries f (key :: keys) map = (updateEntry (f key) map key).bind (updateEntries f keys) :=
  List.foldlM_cons ..

theorem updateEntries_append {others : List κ} :
    updateEntries f (keys ++ others) map =
      (updateEntries f keys map).bind (updateEntries f others) :=
  List.foldlM_append

/-- Steps that rewrite the value of their key. -/
theorem foldlM_eq_updateEntries {step : List (κ × β) → κ → Option (List (κ × β))}
    (h : ∀ key ∈ keys, ∀ map, step map key = updateEntry (f key) map key) :
    keys.foldlM step map = updateEntries f keys map := by
  induction keys generalizing map with
  | nil => rfl
  | cons key keys ih =>
    rw [List.forall_mem_cons] at h
    rw [List.foldlM_cons, updateEntries_cons, h.1]
    exact congrArg _ (funext fun map => ih h.2)

theorem updateEntries_congr {g : κ → β → Option β} (h : ∀ key ∈ keys, f key = g key) :
    updateEntries f keys map = updateEntries g keys map :=
  foldlM_eq_updateEntries fun key hkey map => by rw [h key hkey]

theorem lookup_updateEntries (hkeys : keys.Nodup) (h : updateEntries f keys map = some map') :
    map'.lookup key = if key ∈ keys then (map.lookup key).bind (f key) else map.lookup key := by
  induction keys generalizing map with
  | nil =>
    obtain rfl := Option.some.inj h
    rw [if_neg List.not_mem_nil]
  | cons first keys ih =>
    obtain ⟨hfirst, hkeys⟩ := List.nodup_cons.mp hkeys
    rw [updateEntries_cons] at h
    obtain ⟨map₁, h₁, h⟩ := Option.bind_eq_some_iff.mp h
    rw [ih hkeys h, lookup_updateEntry h₁]
    by_cases hkey : key = first
    · subst hkey
      rw [if_neg hfirst, if_pos rfl, if_pos List.mem_cons_self]
    · simp only [List.mem_cons, hkey, false_or, if_false]

theorem mem_updateEntries {entry : κ × β} (hkeys : keys.Nodup)
    (h : updateEntries f keys map = some map') (hentry : entry ∈ map') :
    entry ∈ map ∨ entry.1 ∈ keys ∧
      ∃ value, map.lookup entry.1 = some value ∧ f entry.1 value = some entry.2 := by
  induction keys generalizing map with
  | nil =>
    obtain rfl := Option.some.inj h
    exact .inl hentry
  | cons first keys ih =>
    obtain ⟨hfirst, hkeys⟩ := List.nodup_cons.mp hkeys
    rw [updateEntries_cons] at h
    obtain ⟨map₁, h₁, h⟩ := Option.bind_eq_some_iff.mp h
    rcases ih hkeys h with hmem | ⟨hmem, value, hvalue, hf⟩
    · rcases mem_updateEntry h₁ hmem with hmem | ⟨value, hvalue, hkey, hf⟩
      · exact .inl hmem
      · rw [← hkey] at hvalue hf ⊢
        exact .inr ⟨List.mem_cons_self, value, hvalue, hf⟩
    · -- a key is rewritten once, so that the first step left this one alone
      have hne : entry.1 ≠ first := ne_of_mem_of_not_mem hmem hfirst
      rw [lookup_updateEntry h₁, if_neg hne] at hvalue
      exact .inr ⟨List.mem_cons_of_mem first hmem, value, hvalue, hf⟩

theorem hasEntry_updateEntries (hkeys : keys.Nodup) (h : updateEntries f keys map = some map') :
    hasEntry map' key = hasEntry map key := by
  induction keys generalizing map with
  | nil => rw [Option.some.inj h]
  | cons first keys ih =>
    rw [updateEntries_cons] at h
    obtain ⟨map₁, h₁, h⟩ := Option.bind_eq_some_iff.mp h
    rw [ih (List.nodup_cons.mp hkeys).2 h]
    unfold updateEntry at h₁
    split at h₁
    next value hvalue =>
      obtain ⟨value', -, rfl⟩ := Option.map_eq_some_iff.mp h₁
      rw [hasEntry_insertEntry]
      by_cases hkey : key = first
      · subst hkey
        rw [hasEntry_iff.mpr ⟨value, hvalue⟩, Bool.or_true]
      · rw [decide_eq_false hkey, Bool.false_or]
    next => rw [Option.some.inj h₁]

/-! ### Rewritings under a budget -/

section Budget

variable {f : ℕ → κ → β → Option β}

theorem computes_updateEntries_self
    (h : ∀ key ∈ keys, ∀ value, map.lookup key = some value →
      Computes (fun n => f n key value) value) :
    Computes (fun n => updateEntries (f n) keys map) map := by
  induction keys with
  | nil => exact computes_const
  | cons key keys ih =>
    rw [List.forall_mem_cons] at h
    simp only [updateEntries_cons]
    refine Computes.option_bind ?_ (ih h.2)
    unfold updateEntry
    split
    next value hvalue =>
      have hmap := (h.1 value hvalue).option_map (g := insertEntry map key)
      rwa [insertEntry_of_lookup hvalue] at hmap
    next => exact computes_const

theorem exists_computes_updateEntries (hkeys : keys.Nodup)
    (h : ∀ key ∈ keys, ∀ value, map.lookup key = some value →
      ∃ value', Computes (fun n => f n key value) value') :
    ∃ map', Computes (fun n => updateEntries (f n) keys map) map' := by
  induction keys generalizing map with
  | nil => exact ⟨map, computes_const⟩
  | cons key keys ih =>
    obtain ⟨hkey, hkeys⟩ := List.nodup_cons.mp hkeys
    rw [List.forall_mem_cons] at h
    have hfirst : ∃ map₁, Computes (fun n => updateEntry (f n key) map key) map₁ ∧
        ∀ other ≠ key, map₁.lookup other = map.lookup other := by
      unfold updateEntry
      split
      next value hvalue =>
        obtain ⟨value', hvalue'⟩ := h.1 value hvalue
        exact ⟨_, hvalue'.option_map, fun other hne => lookup_insertEntry_of_ne hne⟩
      next => exact ⟨map, computes_const, fun _ _ => rfl⟩
    obtain ⟨map₁, hmap₁, hlookup⟩ := hfirst
    have hrest : ∀ other ∈ keys, ∀ value, map₁.lookup other = some value →
        ∃ value', Computes (fun n => f n other value) value' := by
      intro other hother value hvalue
      rw [hlookup other (ne_of_mem_of_not_mem hother hkey)] at hvalue
      exact h.2 other hother value hvalue
    obtain ⟨map₂, hmap₂⟩ := ih hkeys hrest
    simp only [updateEntries_cons]
    exact ⟨map₂, hmap₁.option_bind hmap₂⟩

end Budget

end Theory

/-! ### Different keys -/

namespace Theory

variable {κ β γ : Type}

/-- Lists are permutations of each other if their parts for each key are. -/
theorem perm_iff_filter_key [DecidableEq κ] [DecidableEq γ] (key : γ → κ) {l m : List γ} :
    l.Perm m ↔ ∀ k, (l.filter (key · = k)).Perm (m.filter (key · = k)) := by
  constructor
  · intro h k
    exact h.filter _
  · intro h
    rw [List.perm_iff_count]
    intro a
    have hkey := List.perm_iff_count.mp (h (key a)) a
    rwa [List.count_filter (by simp), List.count_filter (by simp)] at hkey

theorem lookup_of_notMem_keys [BEq κ] [LawfulBEq κ] {l : List (κ × β)} {k : κ}
    (hk : k ∉ l.map Prod.fst) : l.lookup k = none := by
  rw [List.lookup_eq_none_iff]
  intro b hb
  rw [bne_iff_ne]
  rintro heq
  exact hk (heq ▸ List.mem_map_of_mem hb)

theorem mem_of_lookup [BEq κ] [LawfulBEq κ] {l : List (κ × β)} {k : κ} {b : β}
    (h : l.lookup k = some b) : (k, b) ∈ l := by
  obtain ⟨before, after, rfl, -⟩ := List.lookup_eq_some_iff.mp h
  exact List.mem_append_right before (List.mem_cons_self ..)

theorem lookup_of_mem [BEq κ] [LawfulBEq κ] {l : List (κ × β)} (hl : (l.map Prod.fst).Nodup)
    {k : κ} {b : β} (h : (k, b) ∈ l) : l.lookup k = some b := by
  obtain ⟨before, after, rfl⟩ := List.append_of_mem h
  refine List.lookup_eq_some_iff.mpr ⟨before, after, rfl, fun entry hentry => ?_⟩
  rw [bne_iff_ne]
  rintro rfl
  rw [List.map_append, List.nodup_append] at hl
  exact hl.2.2 _ (List.mem_map_of_mem hentry) _ List.mem_cons_self rfl

/-- The part for one key of what the entries of a table give. -/
theorem filter_flatMap_of_nodup [DecidableEq κ] [BEq κ] [LawfulBEq κ] {l : List (κ × β)}
    (hl : (l.map Prod.fst).Nodup) {F : κ × β → List γ} {key : γ → κ}
    (hF : ∀ a, ∀ x ∈ F a, key x = a.1) (k : κ) :
    (l.flatMap F).filter (key · = k) = ((l.lookup k).map fun b => F (k, b)).getD [] := by
  induction l with
  | nil => rfl
  | cons a l ih =>
    obtain ⟨hnot, hl⟩ := List.nodup_cons.mp hl
    rw [List.flatMap_cons, List.filter_append, ih hl]
    by_cases hk : k = a.1
    · subst hk
      have hself : (F a).filter (key · = a.1) = F a := by
        rw [List.filter_eq_self]
        intro x hx
        simpa using hF a x hx
      rw [lookup_of_notMem_keys hnot, hself, List.lookup_cons_self]
      simp
    · have hempty : (F a).filter (key · = k) = [] := by
        rw [List.filter_eq_nil_iff]
        intro x hx
        rw [hF a x hx]
        simpa using Ne.symm hk
      have hskip : (a :: l).lookup k = l.lookup k := by
        rw [List.lookup_cons, beq_false_of_ne hk]
      rw [hempty, hskip, List.nil_append]

end Theory
