import Mathlib.Algebra.Ring.Int.Defs
import Mathlib.Algebra.Ring.Nat
import Mathlib.Data.Int.Notation
import Mathlib.Data.List.Nodup
import Mathlib.Data.String.Basic
import HeliosLite.Theory.Entries

/-!
# JSON documents

The data model that a serializer writes and a deserializer reads: a tree whose
objects list their fields in the order of the text. A document read into a map that
keeps its keys sorted (`Json.toValue`) forgets that order.

## Main definitions

* `Json` — documents, with the numbers a 64-bit JSON library distinguishes
* `Json.depth` — how deep arrays and objects nest
* `Json.toValue` — the same document with sorted, unique keys

## Main results

* `toValue_toValue` — sorting the keys twice changes nothing
* `toValueFields_perm` — fields with different keys are only reordered
* `depthFields_insertEntry`, `depth_of_lookup` — the depth of an object and of what is in it
-/

namespace Serde

/-- An `f64`, by its bits. -/
structure F64 where
  bits : BitVec 64
  deriving DecidableEq, Repr

/-- Neither an infinity nor a NaN: the exponent is not all ones. -/
def F64.isFinite (x : F64) : Bool := x.bits.extractLsb' 52 11 != BitVec.allOnes 11

/-- An `f32`, by its bits. -/
structure F32 where
  bits : BitVec 32
  deriving DecidableEq, Repr

def F32.isFinite (x : F32) : Bool := x.bits.extractLsb' 23 8 != BitVec.allOnes 8

abbrev FiniteF64 := { x : F64 // x.isFinite }

abbrev FiniteF32 := { x : F32 // x.isFinite }

/-- The integers a JSON number holds without becoming a float: an `i64` or a `u64`. -/
abbrev JsonInt := { n : ℤ // -2 ^ 63 ≤ n ∧ n < 2 ^ 64 }

/-- A JSON document. -/
inductive Json where
  | null
  | bool (b : Bool)
  | int (n : JsonInt)
  | float (x : FiniteF64)
  | str (s : String)
  | arr (items : List Json)
  | obj (fields : List (String × Json))

namespace Json

/-! ### Decidable equality -/

mutual

/-- Equality test, constructor by constructor. -/
def decEq : (v w : Json) → Decidable (v = w)
  | .null, .null => .isTrue rfl
  | .bool a, .bool b => decidable_of_iff (a = b) (by simp)
  | .int a, .int b => decidable_of_iff (a = b) (by simp)
  | .float a, .float b => decidable_of_iff (a = b) (by simp)
  | .str a, .str b => decidable_of_iff (a = b) (by simp)
  | .arr a, .arr b => @decidable_of_iff _ (a = b) (by simp) (decEqList a b)
  | .obj a, .obj b => @decidable_of_iff _ (a = b) (by simp) (decEqFields a b)
  | .null, .bool _ | .null, .int _ | .null, .float _ | .null, .str _ | .null, .arr _
  | .null, .obj _ | .bool _, .null | .bool _, .int _ | .bool _, .float _ | .bool _, .str _
  | .bool _, .arr _ | .bool _, .obj _ | .int _, .null | .int _, .bool _ | .int _, .float _
  | .int _, .str _ | .int _, .arr _ | .int _, .obj _ | .float _, .null | .float _, .bool _
  | .float _, .int _ | .float _, .str _ | .float _, .arr _ | .float _, .obj _ | .str _, .null
  | .str _, .bool _ | .str _, .int _ | .str _, .float _ | .str _, .arr _ | .str _, .obj _
  | .arr _, .null | .arr _, .bool _ | .arr _, .int _ | .arr _, .float _ | .arr _, .str _
  | .arr _, .obj _ | .obj _, .null | .obj _, .bool _ | .obj _, .int _ | .obj _, .float _
  | .obj _, .str _ | .obj _, .arr _ => .isFalse nofun

def decEqList : (vs ws : List Json) → Decidable (vs = ws)
  | [], [] => .isTrue rfl
  | [], _ :: _ | _ :: _, [] => .isFalse nofun
  | v :: vs, w :: ws =>
    @decidable_of_iff _ (v = w ∧ vs = ws) (by simp)
      (@instDecidableAnd _ _ (decEq v w) (decEqList vs ws))

def decEqFields : (fs gs : List (String × Json)) → Decidable (fs = gs)
  | [], [] => .isTrue rfl
  | [], _ :: _ | _ :: _, [] => .isFalse nofun
  | (k, v) :: fs, (l, w) :: gs =>
    @decidable_of_iff _ (k = l ∧ v = w ∧ fs = gs) (by simp [and_assoc])
      (@instDecidableAnd _ _ inferInstance
        (@instDecidableAnd _ _ (decEq v w) (decEqFields fs gs)))

end

instance : DecidableEq Json := decEq

/-! ### Depth -/

mutual

/-- How deep arrays and objects nest in the document. -/
def depth : Json → ℕ
  | .arr items => depthList items + 1
  | .obj fields => depthFields fields + 1
  | _ => 0

def depthList : List Json → ℕ
  | [] => 0
  | v :: vs => max v.depth (depthList vs)

def depthFields : List (String × Json) → ℕ
  | [] => 0
  | (_, v) :: fs => max v.depth (depthFields fs)

end

attribute [grind =] depth depthList depthFields

theorem depthList_le {n : ℕ} {vs : List Json} : depthList vs ≤ n ↔ ∀ v ∈ vs, v.depth ≤ n := by
  induction vs with
  | nil => simp [depthList]
  | cons v vs ih => rw [depthList, max_le_iff, ih, List.forall_mem_cons]

theorem depthFields_le {n : ℕ} {fs : List (String × Json)} :
    depthFields fs ≤ n ↔ ∀ p ∈ fs, p.2.depth ≤ n := by
  induction fs with
  | nil => simp [depthFields]
  | cons p fs ih => rw [depthFields, max_le_iff, ih, List.forall_mem_cons]

/-! ### Sorted keys -/

/-- Insertion into a map that keeps its keys sorted: a present key is overwritten. -/
def insertField {α : Type*} (key : String) (value : α) :
    List (String × α) → List (String × α)
  | [] => [(key, value)]
  | (k, v) :: fields =>
    if key < k then (key, value) :: (k, v) :: fields
    else if key = k then (key, value) :: fields
    else (k, v) :: insertField key value fields

mutual

/-- The document as a value in memory: the keys of every object sorted, the last of
equal keys kept. -/
def toValue : Json → Json
  | .arr items => .arr (toValueList items)
  | .obj fields => .obj (toValueFields fields [])
  | v => v

def toValueList : List Json → List Json
  | [] => []
  | v :: vs => v.toValue :: toValueList vs

/-- The fields inserted, in order, into the map `acc`. -/
def toValueFields : List (String × Json) → List (String × Json) → List (String × Json)
  | [], acc => acc
  | (k, v) :: fs, acc => toValueFields fs (insertField k v.toValue acc)

end

attribute [grind =] insertField toValue toValueList toValueFields

/-- The keys of an object are strictly increasing. -/
def SortedKeys {α : Type*} (fields : List (String × α)) : Prop :=
  (fields.map Prod.fst).Pairwise (· < ·)

@[simp] theorem sortedKeys_nil {α : Type*} : SortedKeys ([] : List (String × α)) :=
  List.Pairwise.nil

section InsertField

variable {α : Type*} {key : String} {value : α} {fields : List (String × α)}

theorem mem_insertField {p : String × α} (h : p ∈ insertField key value fields) :
    p = (key, value) ∨ p ∈ fields := by
  induction fields with
  | nil => simpa [insertField] using h
  | cons f fields ih =>
    rw [insertField] at h
    split_ifs at h
    · simpa using h
    · rcases List.mem_cons.mp h with rfl | h
      · exact Or.inl rfl
      · exact Or.inr (List.mem_cons_of_mem _ h)
    · rcases List.mem_cons.mp h with rfl | h
      · exact Or.inr List.mem_cons_self
      · exact (ih h).imp_right (List.mem_cons_of_mem _)

theorem sortedKeys_insertField (h : SortedKeys fields) :
    SortedKeys (insertField key value fields) := by
  induction fields with
  | nil => simp [insertField, SortedKeys]
  | cons f fields ih =>
    obtain ⟨k, v⟩ := f
    have hhead : ∀ l ∈ fields.map Prod.fst, k < l := (List.pairwise_cons.mp h).1
    have htail : SortedKeys fields := (List.pairwise_cons.mp h).2
    rw [insertField]
    split_ifs with hlt heq
    · refine List.pairwise_cons.mpr ⟨?_, h⟩
      intro l hl
      rcases List.mem_cons.mp hl with rfl | hl
      · exact hlt
      · exact hlt.trans (hhead l hl)
    · subst heq
      exact h
    · refine List.pairwise_cons.mpr ⟨?_, ih htail⟩
      intro l hl
      obtain ⟨p, hp, rfl⟩ := List.mem_map.mp hl
      rcases mem_insertField hp with rfl | hp
      · exact lt_of_le_of_ne (not_lt.mp hlt) (Ne.symm heq)
      · exact hhead _ (List.mem_map_of_mem hp)

/-- A key above every present key goes to the end. -/
theorem insertField_of_lt (h : ∀ p ∈ fields, p.1 < key) :
    insertField key value fields = fields ++ [(key, value)] := by
  induction fields with
  | nil => rfl
  | cons f fields ih =>
    have hf : f.1 < key := h f List.mem_cons_self
    rw [insertField, if_neg hf.asymm, if_neg hf.ne', List.cons_append,
      ih fun p hp => h p (List.mem_cons_of_mem _ hp)]

end InsertField

theorem insertField_map {α β : Type*} (g : α → β) (key : String) (value : α)
    (fs : List (String × α)) :
    insertField key (g value) (fs.map fun p => (p.1, g p.2))
      = (insertField key value fs).map fun p => (p.1, g p.2) := by
  induction fs with
  | nil => rfl
  | cons p fs ih =>
    obtain ⟨k, v⟩ := p
    rw [List.map_cons, insertField, insertField, ih]
    split_ifs <;> rfl

/-- A new key is added somewhere. -/
theorem insertField_perm {α : Type*} {key : String} {value : α} {fields : List (String × α)}
    (h : key ∉ fields.map Prod.fst) :
    (insertField key value fields).Perm ((key, value) :: fields) := by
  induction fields with
  | nil => exact List.Perm.refl _
  | cons f fields ih =>
    obtain ⟨hne, hfields⟩ := not_or.mp (List.mem_cons.not.mp h)
    rw [insertField, if_neg hne]
    split_ifs
    · exact List.Perm.refl _
    · exact ((ih hfields).cons f).trans (List.Perm.swap _ _ _)

open scoped List in
/-- Fields with different keys are only reordered. -/
theorem toValueFields_perm {fields : List (String × Json)} :
    ∀ acc : List (String × Json), (fields.map Prod.fst ++ acc.map Prod.fst).Nodup →
      (toValueFields fields acc).Perm (fields.map (fun p => (p.1, p.2.toValue)) ++ acc) := by
  induction fields with
  | nil => exact fun acc _ => List.Perm.refl _
  | cons f fields ih =>
    intro acc hnodup
    obtain ⟨k, v⟩ := f
    have hkey : k ∉ fields.map Prod.fst ++ acc.map Prod.fst := (List.nodup_cons.mp hnodup).1
    have hinsert : (insertField k v.toValue acc).Perm ((k, v.toValue) :: acc) :=
      insertField_perm fun h => hkey (List.mem_append_right _ h)
    -- the new key moves behind the fields that are still to be inserted
    have hkeys : (fields.map Prod.fst ++ (insertField k v.toValue acc).map Prod.fst).Nodup := by
      refine (List.Perm.nodup_iff ?_).mpr hnodup
      exact ((hinsert.map Prod.fst).append_left _).trans List.perm_middle
    calc toValueFields fields (insertField k v.toValue acc)
      _ ~ fields.map (fun p => (p.1, p.2.toValue)) ++ insertField k v.toValue acc := ih _ hkeys
      _ ~ fields.map (fun p => (p.1, p.2.toValue)) ++ (k, v.toValue) :: acc :=
        hinsert.append_left _
      _ ~ (k, v.toValue) :: fields.map (fun p => (p.1, p.2.toValue)) ++ acc := List.perm_middle

/-- Fields that are already sorted values are appended as they are. -/
theorem toValueFields_of_sorted {fields : List (String × Json)}
    (hsorted : SortedKeys fields) (hfixed : ∀ p ∈ fields, p.2.toValue = p.2) :
    ∀ acc : List (String × Json), (∀ p ∈ acc, ∀ q ∈ fields, p.1 < q.1) →
      toValueFields fields acc = acc ++ fields := by
  induction fields with
  | nil => simp [toValueFields]
  | cons f fields ih =>
    intro acc hacc
    obtain ⟨k, v⟩ := f
    obtain ⟨hhead, htail⟩ := List.pairwise_cons.mp hsorted
    have hv : v.toValue = v := hfixed (k, v) List.mem_cons_self
    rw [toValueFields, hv, insertField_of_lt fun p hp => hacc p hp (k, v) List.mem_cons_self,
      ih htail (fun p hp => hfixed p (List.mem_cons_of_mem _ hp))]
    · simp
    · intro p hp q hq
      rcases List.mem_append.mp hp with hp | hp
      · exact hacc p hp q (List.mem_cons_of_mem _ hq)
      · obtain rfl := List.mem_singleton.mp hp
        exact hhead _ (List.mem_map_of_mem hq)

theorem toValueList_eq_map (vs : List Json) : toValueList vs = vs.map toValue := by
  induction vs with
  | nil => rfl
  | cons v vs ih => rw [toValueList, List.map_cons, ih]

theorem sortedKeys_toValueFields {fields acc : List (String × Json)} (h : SortedKeys acc) :
    SortedKeys (toValueFields fields acc) := by
  induction fields generalizing acc with
  | nil => exact h
  | cons f fields ih => exact ih (sortedKeys_insertField h)

mutual

/-- Sorting the keys twice changes nothing. -/
theorem toValue_toValue : ∀ v : Json, v.toValue.toValue = v.toValue
  | .null | .bool _ | .int _ | .float _ | .str _ => rfl
  | .arr items => by
    rw [toValue, toValue, toValueList_toValueList]
  | .obj fields => by
    have hsorted : SortedKeys (toValueFields fields []) :=
      sortedKeys_toValueFields sortedKeys_nil
    have hfixed := toValue_of_mem_toValueFields fields [] (by simp)
    rw [toValue, toValue, toValueFields_of_sorted hsorted hfixed [] (by simp), List.nil_append]

theorem toValueList_toValueList :
    ∀ vs : List Json, toValueList (toValueList vs) = toValueList vs
  | [] => rfl
  | v :: vs => by
    rw [toValueList, toValueList, toValue_toValue v, toValueList_toValueList vs]

theorem toValue_of_mem_toValueFields :
    ∀ (fs acc : List (String × Json)), (∀ p ∈ acc, p.2.toValue = p.2) →
      ∀ p ∈ toValueFields fs acc, p.2.toValue = p.2
  | [], _, hacc => hacc
  | (k, v) :: fs, acc, hacc => by
    refine toValue_of_mem_toValueFields fs _ fun p hp => ?_
    rcases mem_insertField hp with rfl | hp
    · exact toValue_toValue v
    · exact hacc p hp

end

theorem depthFields_insertField_le (key : String) (value : Json) (fields : List (String × Json)) :
    depthFields (insertField key value fields) ≤ max value.depth (depthFields fields) := by
  apply depthFields_le.mpr
  intro p hp
  rcases mem_insertField hp with rfl | hp
  · exact le_max_left _ _
  · exact (depthFields_le.mp le_rfl p hp).trans (le_max_right _ _)

mutual

/-- Sorting the keys makes nothing deeper. -/
theorem depth_toValue_le : ∀ v : Json, v.toValue.depth ≤ v.depth
  | .null | .bool _ | .int _ | .float _ | .str _ => le_rfl
  | .arr items => Nat.succ_le_succ (depthList_toValueList_le items)
  | .obj fields =>
    Nat.succ_le_succ
      ((depthFields_toValueFields_le fields []).trans (max_le le_rfl (Nat.zero_le _)))

theorem depthList_toValueList_le : ∀ vs : List Json, depthList (toValueList vs) ≤ depthList vs
  | [] => le_rfl
  | v :: vs => max_le_max (depth_toValue_le v) (depthList_toValueList_le vs)

theorem depthFields_toValueFields_le : ∀ fs acc : List (String × Json),
    depthFields (toValueFields fs acc) ≤ max (depthFields fs) (depthFields acc)
  | [], acc => le_max_right _ _
  | (k, v) :: fs, acc => by
    have hinsert := depthFields_insertField_le k v.toValue acc
    have hv := depth_toValue_le v
    have hrest := depthFields_toValueFields_le fs (insertField k v.toValue acc)
    rw [toValueFields, depthFields]
    omega

end

end Json

/-- A value in memory: the keys of its objects are sorted and unique. -/
def Value := { v : Json // v.toValue = v }
  deriving DecidableEq

/-- The value a document stands for. -/
def Json.value (v : Json) : Value := ⟨v.toValue, v.toValue_toValue⟩

/-! ### Depth and the entries of an object -/

namespace Json

open Theory

variable {map : List (String × Json)} {key : String} {value : Json} {d : ℕ}

theorem depthFields_insertEntry (h : depthFields map ≤ d) (hvalue : value.depth ≤ d) :
    depthFields (insertEntry map key value) ≤ d := by
  rw [depthFields_le] at h ⊢
  intro entry hentry
  rcases mem_insertEntry hentry with rfl | hmem
  · exact hvalue
  · exact h entry hmem

theorem depthFields_removeEntry (h : depthFields map ≤ d) :
    depthFields (removeEntry map key) ≤ d := by
  rw [depthFields_le] at h ⊢
  intro entry hentry
  exact h entry (List.mem_of_mem_filter hentry)

theorem depth_of_lookup (h : depthFields map ≤ d) (hkey : map.lookup key = some value) :
    value.depth ≤ d := by
  obtain ⟨l₁, l₂, rfl, -⟩ := List.lookup_eq_some_iff.mp hkey
  exact depthFields_le.mp h (key, value) (List.mem_append_right l₁ List.mem_cons_self)

end Json

end Serde
