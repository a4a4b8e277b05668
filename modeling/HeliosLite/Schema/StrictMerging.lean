import HeliosLite.Schema.Strict
import HeliosLite.Serde.Json
import HeliosLite.Theory.Fuel

/-!
# Merging comes to an end

Merging the branches of `allOf` into a schema goes down a branch at each call, so that it comes
to an end. What it gives is no deeper than the schema was, has no `allOf` at its top, and has a
map for its properties wherever the schema had one.

## Main definitions

* `MapsProperties` — `properties` is a map wherever it stands in a schema

## Main results

* `exists_computes_flattenAllOfSchema` — the branches are merged
-/

namespace HeliosLite

namespace StrictSchema

open Serde Theory

/-! ### Schemas whose properties are maps -/

/-- The keywords whose value is a schema or a list of schemas. -/
def schemaKeywords : List String := ["items", "additionalProperties", "allOf", "anyOf", "oneOf"]

theorem notMem_namedKeywords {key : String} (h : key ∈ schemaKeywords) : key ∉ namedKeywords := by
  intro hnamed
  revert h hnamed
  simp only [schemaKeywords, namedKeywords, List.mem_cons, List.not_mem_nil, or_false]
  rintro (rfl | rfl | rfl | rfl | rfl) <;> decide

/-- `properties` is a map of schemas wherever it stands. -/
inductive MapsProperties : Json → Prop
  | leaf {v : Json} (harr : ∀ items, v ≠ .arr items) (hobj : ∀ map, v ≠ .obj map) :
    MapsProperties v
  | arr {items : List Json} (hitems : ∀ item ∈ items, MapsProperties item) :
    MapsProperties (.arr items)
  | obj {map : Fields}
      (hschemas : ∀ entry ∈ map, entry.1 ∈ schemaKeywords → MapsProperties entry.2)
      (hmap : ∀ entry ∈ map, entry.1 = "properties" → ∃ props, entry.2 = .obj props)
      (hprops : ∀ entry ∈ map, entry.1 = "properties" → ∀ props, entry.2 = .obj props →
        ∀ property ∈ props, MapsProperties property.2) :
    MapsProperties (.obj map)

/-- A map of schemas. -/
def IsPropertyMap (value : Json) : Prop :=
  ∃ props, value = .obj props ∧ ∀ property ∈ props, MapsProperties property.2

/-- The value may stand under the keyword. -/
structure Suits (key : String) (value : Json) : Prop where
  schema : key ∈ schemaKeywords → MapsProperties value
  properties : key = "properties" → IsPropertyMap value

section MapsProperties

variable {map : Fields} {key : String} {value : Json} {items : List Json}

@[simp] theorem mapsProperties_arr :
    MapsProperties (.arr items) ↔ ∀ item ∈ items, MapsProperties item := by
  constructor
  · intro h
    cases h with
    | leaf harr _ => exact absurd rfl (harr items)
    | arr hitems => exact hitems
  · exact .arr

theorem mapsProperties_obj :
    MapsProperties (.obj map) ↔ ∀ entry ∈ map, Suits entry.1 entry.2 := by
  constructor
  · intro h
    cases h with
    | leaf _ hobj => exact absurd rfl (hobj map)
    | obj hschemas hmap hprops =>
      intro entry hentry
      refine ⟨hschemas entry hentry, fun hkey => ?_⟩
      obtain ⟨props, hvalue⟩ := hmap entry hentry hkey
      exact ⟨props, hvalue, hprops entry hentry hkey props hvalue⟩
  · intro h
    refine .obj (fun entry hentry => (h entry hentry).schema) ?_ ?_
    · intro entry hentry hkey
      obtain ⟨props, hvalue, -⟩ := (h entry hentry).properties hkey
      exact ⟨props, hvalue⟩
    · intro entry hentry hkey props hvalue
      obtain ⟨props', hvalue', hprops⟩ := (h entry hentry).properties hkey
      rw [hvalue] at hvalue'
      cases hvalue'
      exact hprops

theorem MapsProperties.insertEntry (h : MapsProperties (.obj map)) (hvalue : Suits key value) :
    MapsProperties (.obj (insertEntry map key value)) := by
  rw [mapsProperties_obj] at h ⊢
  intro entry hentry
  rcases mem_insertEntry hentry with rfl | hmem
  · exact hvalue
  · exact h entry hmem

theorem MapsProperties.removeEntry (h : MapsProperties (.obj map)) :
    MapsProperties (.obj (removeEntry map key)) := by
  rw [mapsProperties_obj] at h ⊢
  intro entry hentry
  exact h entry (List.mem_of_mem_filter hentry)

theorem MapsProperties.suits (h : MapsProperties (.obj map)) (hkey : map.lookup key = some value) :
    Suits key value := by
  obtain ⟨l₁, l₂, rfl, -⟩ := List.lookup_eq_some_iff.mp hkey
  rw [mapsProperties_obj] at h
  exact h (key, value) (List.mem_append_right l₁ List.mem_cons_self)

end MapsProperties

/-! ### Merging -/

/-- What merging makes of two values. -/
structure Merged (d : ℕ) (key : String) (target source merged : Json) : Prop where
  depth : ∀ e ≥ d, target.depth ≤ e → merged.depth ≤ e
  schema : key ∉ namedKeywords → MapsProperties target → MapsProperties source →
    MapsProperties merged
  properties : key = "properties" → IsPropertyMap target → IsPropertyMap source →
    IsPropertyMap merged

/-- What merging makes of two objects. -/
structure MergedObject (d : ℕ) (target source merged : Fields) : Prop where
  depth : ∀ e ≥ d, Json.depthFields target ≤ e → Json.depthFields merged ≤ e
  allOf : target.lookup "allOf" = none → merged.lookup "allOf" = none
  maps : MapsProperties (.obj target) → MapsProperties (.obj source) →
    MapsProperties (.obj merged)

/-- What merging makes of two maps of schemas. -/
structure MergedMap (d : ℕ) (target source merged : Fields) : Prop where
  depth : ∀ e ≥ d, Json.depthFields target ≤ e → Json.depthFields merged ≤ e
  maps : (∀ entry ∈ target, MapsProperties entry.2) → (∀ entry ∈ source, MapsProperties entry.2) →
    ∀ entry ∈ merged, MapsProperties entry.2

/-- Sources of a depth can be merged under a keyword. -/
def MergesKeywords (d : ℕ) : Prop :=
  ∀ target source key, source.depth ≤ d → ∃ merged,
    Computes (fun n => mergeSchemaKeyword n target source key) merged ∧
      Merged d key target source merged

def MergesObjects (d : ℕ) : Prop :=
  ∀ target source, Json.depthFields source ≤ d → ∃ merged,
    Computes (fun n => mergeSchemaObject n target source) merged ∧
      MergedObject d target source merged

def Flattens (d : ℕ) : Prop :=
  ∀ map, Json.depthFields map ≤ d → ∃ flat,
    Computes (fun n => flattenAllOfSchema n map) flat ∧ Json.depthFields flat ≤ d ∧
      flat.lookup "allOf" = none ∧ (MapsProperties (.obj map) → MapsProperties (.obj flat))

theorem mem_mergeRequiredArrays {target source : List Json} {value : Json}
    (h : value ∈ mergeRequiredArrays target source) : value ∈ target ∨ value ∈ source := by
  have hmerged : ∀ source : List Json, ∀ target : List Json, ∀ value ∈ source.foldl
      (fun target value => if target.any (sameValue value) then target else target ++ [value])
      target, value ∈ target ∨ value ∈ source := by
    intro source
    induction source with
    | nil => exact fun target value h => .inl h
    | cons first source ih =>
      intro target value h
      rcases ih _ value h with hmem | hmem
      · dsimp only at hmem
        split_ifs at hmem
        · exact .inl hmem
        · rcases List.mem_append.mp hmem with hmem | hmem
          · exact .inl hmem
          · exact .inr (List.mem_cons.mpr (.inl (List.mem_singleton.mp hmem)))
      · exact .inr (List.mem_cons_of_mem first hmem)
  unfold mergeRequiredArrays at h
  dsimp only at h
  split_ifs at h
  · exact hmerged source target value (List.mem_mergeSort.mp h)
  · exact hmerged source target value h

/-- A list with values of the lists only. -/
theorem merged_arr {d : ℕ} {key : String} {target source merged : List Json}
    (hsource : (Json.arr source).depth ≤ d)
    (h : ∀ value ∈ merged, value ∈ target ∨ value ∈ source) :
    Merged d key (.arr target) (.arr source) (.arr merged) where
  depth e he htarget := by
    have hsource := Nat.le_trans hsource he
    cases e with
    | zero => simp [Json.depth] at htarget
    | succ e =>
      rw [Json.depth, Nat.succ_le_succ_iff, Json.depthList_le] at *
      intro value hvalue
      exact (h value hvalue).elim (htarget value) (hsource value)
  schema _ htarget hsource := by
    rw [mapsProperties_arr] at *
    intro value hvalue
    exact (h value hvalue).elim (htarget value) (hsource value)
  properties _ htarget _ := by
    obtain ⟨props, hprops, -⟩ := htarget
    cases hprops

theorem depth_obj_le {map merged : Fields} {d e : ℕ}
    (h : ∀ e' ≥ d, Json.depthFields map ≤ e' → Json.depthFields merged ≤ e') (hd : d < e)
    (hmap : (Json.obj map).depth ≤ e) : (Json.obj merged).depth ≤ e := by
  cases e with
  | zero => exact absurd hd (Nat.not_lt_zero d)
  | succ e =>
    rw [Json.depth, Nat.succ_le_succ_iff] at *
    exact h e (Nat.le_of_lt_succ hd) hmap

theorem merged_map {d : ℕ} {key : String} {target source merged : Fields}
    (hsource : Json.depthFields source < d) (hkey : key ∈ namedKeywords)
    (h : MergedMap (Json.depthFields source) target source merged) :
    Merged d key (.obj target) (.obj source) (.obj merged) where
  depth _ he := depth_obj_le h.depth (Nat.lt_of_lt_of_le hsource he)
  schema hnot := absurd hkey hnot
  properties _ htarget hsource := by
    obtain ⟨_, htarget', htarget⟩ := htarget
    obtain ⟨_, hsource', hsource⟩ := hsource
    cases htarget'
    cases hsource'
    exact ⟨merged, rfl, h.maps htarget hsource⟩

theorem merged_object {d : ℕ} {key : String} {target source merged : Fields}
    (hsource : Json.depthFields source < d) (hkey : key ∉ namedKeywords)
    (h : MergedObject (Json.depthFields source) target source merged) :
    Merged d key (.obj target) (.obj source) (.obj merged) where
  depth _ he := depth_obj_le h.depth (Nat.lt_of_lt_of_le hsource he)
  schema _ := h.maps
  properties hproperties := absurd (hproperties ▸ List.mem_cons_self) hkey

theorem merged_self {d : ℕ} {key : String} {target source : Json} :
    Merged d key target source target where
  depth _ _ h := h
  schema _ h _ := h
  properties _ h _ := h

theorem Merged.suits {d : ℕ} {key : String} {target source merged : Json}
    (h : Merged d key target source merged) (htarget : Suits key target)
    (hsource : Suits key source) : Suits key merged := by
  refine ⟨fun hkey => ?_, fun hkey => ?_⟩
  · exact h.schema (notMem_namedKeywords hkey) (htarget.schema hkey) (hsource.schema hkey)
  · exact h.properties hkey (htarget.properties hkey) (hsource.properties hkey)

section Steps

variable {d : ℕ} (hkeywords : MergesKeywords d) (hflattens : Flattens d)

include hkeywords in
theorem exists_computes_mergeNamedSchemaMap (target : Fields) {source : Fields}
    (hsource : Json.depthFields source ≤ d) :
    ∃ merged, Computes (fun n => mergeNamedSchemaMap n target source) merged ∧
      MergedMap d target source merged := by
  rw [Json.depthFields_le] at hsource
  have hbody : ∃ merged, Computes (fun n => mergeNamedSchemaMap (n + 1) target source) merged ∧
      MergedMap d target source merged := by
    simp only [mergeNamedSchemaMap]
    refine exists_computes_foldlM ?_ ⟨fun _ _ h => h, fun h _ => h⟩
    intro entry hentry map hmap
    cases hexisting : map.lookup entry.1 with
    | none =>
      refine ⟨_, computes_const, fun e he htarget => ?_, fun htarget hsource' => ?_⟩
      · exact Json.depthFields_insertEntry (hmap.depth e he htarget)
          (Nat.le_trans (hsource entry hentry) he)
      · intro other hother
        rcases mem_insertEntry hother with rfl | hmem
        · exact hsource' entry hentry
        · exact hmap.maps htarget hsource' other hmem
    | some existing =>
      obtain ⟨merged, hmerged, hspec⟩ :=
        hkeywords existing entry.2 "schema" (hsource entry hentry)
      refine ⟨_, hmerged.option_map, fun e he htarget => ?_, fun htarget hsource' => ?_⟩
      · have hmap := hmap.depth e he htarget
        exact Json.depthFields_insertEntry hmap (hspec.depth e he (Json.depth_of_lookup hmap hexisting))
      · have hmap := hmap.maps htarget hsource'
        intro other hother
        rcases mem_insertEntry hother with rfl | hmem
        · obtain ⟨l₁, l₂, rfl, -⟩ := List.lookup_eq_some_iff.mp hexisting
          exact hspec.schema (by decide)
            (hmap (entry.1, existing) (List.mem_append_right l₁ List.mem_cons_self))
            (hsource' entry hentry)
        · exact hmap other hmem
  obtain ⟨merged, hmerged, hspec⟩ := hbody
  exact ⟨merged, hmerged.succ rfl, hspec⟩

include hkeywords in
/-- A source without `allOf` brings none. -/
theorem exists_computes_mergeEntries (target : Fields) {source : Fields}
    (hsource : Json.depthFields source ≤ d) (hallOf : source.lookup "allOf" = none) :
    ∃ merged, Computes (fun n => mergeEntries n target source) merged ∧
      MergedObject d target source merged := by
  rw [Json.depthFields_le] at hsource
  have hbody : ∃ merged, Computes (fun n => mergeEntries (n + 1) target source) merged ∧
      MergedObject d target source merged := by
    simp only [mergeEntries]
    refine exists_computes_foldlM ?_ ⟨fun _ _ h => h, fun h => h, fun h _ => h⟩
    intro entry hentry map hmap
    have hne : "allOf" ≠ entry.1 := bne_iff_ne.mp (List.lookup_eq_none_iff.mp hallOf entry hentry)
    cases hexisting : map.lookup entry.1 with
    | none =>
      refine ⟨_, computes_const, fun e he htarget => ?_, fun htarget => ?_,
        fun htarget hsource' => ?_⟩
      · exact Json.depthFields_insertEntry (hmap.depth e he htarget)
          (Nat.le_trans (hsource entry hentry) he)
      · rw [lookup_insertEntry_of_ne hne, hmap.allOf htarget]
      · exact (hmap.maps htarget hsource').insertEntry
          (mapsProperties_obj.mp hsource' entry hentry)
    | some existing =>
      obtain ⟨merged, hmerged, hspec⟩ := hkeywords existing entry.2 entry.1 (hsource entry hentry)
      refine ⟨_, hmerged.option_map, fun e he htarget => ?_, fun htarget => ?_,
        fun htarget hsource' => ?_⟩
      · have hmap := hmap.depth e he htarget
        exact Json.depthFields_insertEntry hmap (hspec.depth e he (Json.depth_of_lookup hmap hexisting))
      · rw [lookup_insertEntry_of_ne hne, hmap.allOf htarget]
      · have hmap := hmap.maps htarget hsource'
        exact hmap.insertEntry
          (hspec.suits (hmap.suits hexisting) (mapsProperties_obj.mp hsource' entry hentry))
  obtain ⟨merged, hmerged, hspec⟩ := hbody
  exact ⟨merged, hmerged.succ rfl, hspec⟩

include hkeywords hflattens in
theorem mergesObjects : MergesObjects d := by
  intro target source hsource
  obtain ⟨flat, hflat, hdepth, hallOf, hmaps⟩ := hflattens source hsource
  obtain ⟨merged, hmerged, hspec⟩ :=
    exists_computes_mergeEntries hkeywords target hdepth hallOf
  have hbody : Computes (fun n => mergeSchemaObject (n + 1) target source) merged := by
    simp only [mergeSchemaObject]
    exact hflat.option_bind hmerged
  exact ⟨merged, hbody.succ rfl, hspec.depth, hspec.allOf,
    fun htarget hsource => hspec.maps htarget (hmaps hsource)⟩

end Steps

section Below

variable {d : ℕ} (hbelow : ∀ e < d, MergesKeywords e ∧ MergesObjects e)

include hbelow in
/-- Objects are merged by what is said of their depth. -/
theorem mergesKeywords : MergesKeywords d := by
  intro target source key hsource
  have hbody : ∃ merged, Computes (fun n => mergeSchemaKeyword (n + 1) target source key) merged ∧
      Merged d key target source merged := by
    simp only [mergeSchemaKeyword]
    split
    next targetMap sourceMap =>
      rw [Json.depth, Nat.succ_le_iff] at hsource
      obtain ⟨hkeywords, hobjects⟩ := hbelow _ hsource
      split_ifs with hkey
      · obtain ⟨merged, hmerged, hspec⟩ := exists_computes_mergeNamedSchemaMap hkeywords
          targetMap (Nat.le_refl _)
        exact ⟨_, hmerged.option_map, merged_map hsource hkey hspec⟩
      · obtain ⟨merged, hmerged, hspec⟩ := hobjects targetMap sourceMap (Nat.le_refl _)
        exact ⟨_, hmerged.option_map, merged_object hsource hkey hspec⟩
    next =>
      split_ifs
      · exact ⟨_, computes_const, merged_arr hsource fun _ h => mem_mergeRequiredArrays h⟩
      · exact ⟨_, computes_const, merged_arr hsource fun _ h => .inl (List.mem_of_mem_filter h)⟩
      · exact ⟨_, computes_const, merged_self⟩
    next => exact ⟨_, computes_const, merged_self⟩
  obtain ⟨merged, hmerged, hspec⟩ := hbody
  exact ⟨merged, hmerged.succ rfl, hspec⟩

include hbelow in
theorem flattens : Flattens d := by
  intro map hmap
  have hbody : ∃ flat, Computes (fun n => flattenAllOfSchema (n + 1) map) flat ∧
      Json.depthFields flat ≤ d ∧ flat.lookup "allOf" = none ∧
        (MapsProperties (.obj map) → MapsProperties (.obj flat)) := by
    have hremoved : Json.depthFields (removeEntry map "allOf") ≤ d ∧
        (removeEntry map "allOf").lookup "allOf" = none ∧
          (MapsProperties (.obj map) → MapsProperties (.obj (removeEntry map "allOf"))) :=
      ⟨Json.depthFields_removeEntry hmap, by rw [lookup_removeEntry, if_pos rfl], fun h => h.removeEntry⟩
    simp only [flattenAllOfSchema]
    split
    next allOf hallOf =>
      have hdepth := Json.depth_of_lookup hmap hallOf
      refine exists_computes_foldlM ?_ hremoved
      rintro subSchema hsub flat ⟨hflat, hnone, hmaps⟩
      cases subSchema with
      | obj source =>
        -- a branch is two levels down
        have hsource : Json.depthFields source < d := by
          rw [Json.depth, Nat.succ_le_iff] at hdepth
          have hobj := Json.depthList_le.mp (Nat.le_refl _) _ hsub
          rw [Json.depth] at hobj
          omega
        obtain ⟨merged, hmerged, hspec⟩ :=
          (hbelow _ hsource).2 flat source (Nat.le_refl _)
        refine ⟨merged, hmerged, hspec.depth d (Nat.le_of_lt hsource) hflat, hspec.allOf hnone, ?_⟩
        intro h
        refine hspec.maps (hmaps h) ?_
        have hallOf := (h.suits hallOf).schema (by decide)
        exact mapsProperties_arr.mp hallOf _ hsub
      | _ => exact ⟨flat, computes_const, hflat, hnone, hmaps⟩
    next => exact ⟨_, computes_const, hremoved⟩
  obtain ⟨flat, hflat, hspec⟩ := hbody
  exact ⟨flat, hflat.succ rfl, hspec⟩

end Below

/-- Merging comes to an end at any depth. -/
theorem merges (d : ℕ) : MergesKeywords d ∧ MergesObjects d := by
  induction d using Nat.strong_induction_on with
  | h d ih => exact ⟨mergesKeywords ih, mergesObjects (mergesKeywords ih) (flattens ih)⟩

theorem exists_computes_flattenAllOfSchema (map : Fields) :
    ∃ flat, Computes (fun n => flattenAllOfSchema n map) flat ∧
      Json.depthFields flat ≤ Json.depthFields map ∧ flat.lookup "allOf" = none ∧
        (MapsProperties (.obj map) → MapsProperties (.obj flat)) :=
  flattens (fun e _ => merges e) map (Nat.le_refl _)

end StrictSchema

end HeliosLite
