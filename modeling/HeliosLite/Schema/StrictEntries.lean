import HeliosLite.Schema.StrictForm

/-!
# The entries of a strict schema

Where the entries of a level come from: they stood in the schema, are added with its type, or
were rewritten. A schema whose properties are maps stays one.

## Main results

* `mem_normalizeTypes` — the entries of a level with its type
* `MapsProperties.enforceStrictSchema` — properties stay maps
-/

namespace HeliosLite

namespace StrictSchema

open Serde Theory

variable {strictMode : Bool} {map map' : Fields} {key : String} {value : Json}

/-! ### The entries of a level -/

section Entries

variable {enforce : Json → Option Json} {entry : String × Json}

/-- An entry that a level gets. -/
inductive Added (enforce : Json → Option Json) (map : Fields) : String × Json → Prop
  | type (name : String) : Added enforce map ("type", .str name)
  | properties : Added enforce map ("properties", .obj [])
  | closed : Added enforce map ("additionalProperties", .bool false)
  | others {props : Fields} {value : Json}
      (hprops : map.lookup "additionalProperties" = some (.obj props))
      (hvalue : enforce (.obj (typedAdditionalProperties props)) = some value) :
    Added enforce map ("additionalProperties", value)
  | required (names : List String) : Added enforce map ("required", .arr (names.map .str))
  | items : Added enforce map ("items", .obj [("type", .str "string")])

theorem Added.congr (h : Added enforce map' entry)
    (hlookup : map'.lookup "additionalProperties" = map.lookup "additionalProperties") :
    Added enforce map entry := by
  cases h with
  | type name => exact .type name
  | properties => exact .properties
  | closed => exact .closed
  | others hprops hvalue => exact .others (hlookup ▸ hprops) hvalue
  | required names => exact .required names
  | items => exact .items

theorem mem_normalizeStringFormatKeyword
    (h : entry ∈ normalizeStringFormatKeyword map strictMode) : entry ∈ map := by
  unfold normalizeStringFormatKeyword at h
  split_ifs at h
  · split at h
    · split_ifs at h
      · exact h
      · exact List.mem_of_mem_filter h
    · exact h
  · exact h

theorem mem_normalizeAdditionalProperties
    (h : normalizeAdditionalProperties enforce map = some map') (hentry : entry ∈ map') :
    entry ∈ map ∨ Added enforce map entry := by
  unfold normalizeAdditionalProperties at h
  split at h
  next props hprops =>
    obtain ⟨value, hvalue, rfl⟩ := Option.map_eq_some_iff.mp h
    rcases mem_insertEntry hentry with rfl | hmem
    · exact .inr (.others hprops hvalue)
    · exact .inl hmem
  next =>
    obtain rfl := Option.some.inj h
    exact .inl hentry
  next =>
    obtain rfl := Option.some.inj h
    rcases mem_insertEntry hentry with rfl | hmem
    · exact .inr .closed
    · exact .inl hmem

theorem mem_normalizeObject (h : normalizeObject enforce map strictMode = some map')
    (hentry : entry ∈ map') : entry ∈ map ∨ Added enforce map entry := by
  have hproperties : ∃ map₁, (if strictMode && !hasEntry map "properties" then
      insertEntry map "properties" (.obj []) else map) = map₁ ∧
      map₁.lookup "additionalProperties" = map.lookup "additionalProperties" ∧
      ∀ entry ∈ map₁, entry ∈ map ∨ Added enforce map entry := by
    refine ⟨_, rfl, ?_⟩
    split_ifs
    · refine ⟨lookup_insertEntry_of_ne (by decide), fun entry hentry => ?_⟩
      rcases mem_insertEntry hentry with rfl | hmem
      · exact .inr .properties
      · exact .inl hmem
    · exact ⟨rfl, fun _ => .inl⟩
  obtain ⟨map₁, hmap₁, hlookup, hmem₁⟩ := hproperties
  simp only [normalizeObject, hmap₁, Option.bind_eq_bind] at h
  obtain ⟨map₂, hmap₂, h⟩ := Option.bind_eq_some_iff.mp h
  obtain rfl := Option.some.inj h
  have hmem₂ : ∀ entry ∈ map₂, entry ∈ map ∨ Added enforce map entry := by
    intro entry hentry
    rcases mem_normalizeAdditionalProperties hmap₂ hentry with hmem | hadded
    · exact hmem₁ entry hmem
    · exact .inr (hadded.congr hlookup)
  split_ifs at hentry
  · rcases mem_insertEntry hentry with rfl | hmem
    · exact .inr (.required _)
    · exact hmem₂ entry hmem
  · exact hmem₂ entry hentry

/-- The entries of a level are those of the schema and some that it gets. -/
theorem mem_normalizeTypes (h : normalizeTypes enforce map strictMode = some map')
    (hentry : entry ∈ map') : entry ∈ map ∨ Added enforce map entry := by
  obtain ⟨typed, htyped, rfl⟩ := Option.map_eq_some_iff.mp h
  have hformat : ∀ entry ∈ normalizeStringFormatKeyword map strictMode, entry ∈ map := fun _ =>
    mem_normalizeStringFormatKeyword
  have hlookup : (normalizeStringFormatKeyword map strictMode).lookup "additionalProperties" =
      map.lookup "additionalProperties" := lookup_normalizeStringFormatKeyword (by decide)
  generalize normalizeStringFormatKeyword map strictMode = map₁ at htyped hformat hlookup
  have htype : ∃ map₂, (if isObjectSchema map₁ && !hasEntry map₁ "type" then
      insertEntry map₁ "type" (.str "object") else map₁) = map₂ ∧
      map₂.lookup "additionalProperties" = map.lookup "additionalProperties" ∧
      ∀ entry ∈ map₂, entry ∈ map ∨ Added enforce map entry := by
    refine ⟨_, rfl, ?_⟩
    split_ifs
    · refine ⟨?_, fun entry hentry => ?_⟩
      · rw [lookup_insertEntry_of_ne (by decide), hlookup]
      · rcases mem_insertEntry hentry with rfl | hmem
        · exact .inr (.type "object")
        · exact .inl (hformat entry hmem)
    · exact ⟨hlookup, fun entry hmem => .inl (hformat entry hmem)⟩
  obtain ⟨map₂, hmap₂, hlookup₂, hmem₂⟩ := htype
  rw [hmap₂] at htyped
  have hmem : ∀ entry ∈ typed, entry ∈ map ∨ Added enforce map entry := by
    intro entry hentry
    split_ifs at htyped
    · rcases mem_normalizeObject htyped hentry with hmem | hadded
      · exact hmem₂ entry hmem
      · exact .inr (hadded.congr hlookup₂)
    · obtain rfl := Option.some.inj htyped
      rcases mem_insertEntry hentry with rfl | hmem
      · exact .inr (.type "string")
      · exact hmem₂ entry hmem
    · obtain rfl := Option.some.inj htyped
      exact hmem₂ entry hentry
  unfold normalizeArrayItems at hentry
  split_ifs at hentry
  · rcases mem_insertEntry hentry with rfl | hitems
    · exact .inr .items
    · exact hmem entry hitems
  · exact hmem entry hentry

end Entries

/-! ### Properties stay maps -/

section Maps

variable {enforce : Json → Option Json}

/-- What is rewritten has a map for its properties wherever it had one before. -/
def KeepsMaps (enforce : Json → Option Json) : Prop :=
  ∀ v w, enforce v = some w → MapsProperties v → MapsProperties w

theorem suits_of_notMem (hkey : key ∉ "properties" :: schemaKeywords) : Suits key value where
  schema h := absurd (List.mem_cons_of_mem _ h) hkey
  properties h := absurd (h ▸ List.mem_cons_self) hkey

theorem suits_of_ne (hkey : key ≠ "properties") (h : MapsProperties value) : Suits key value where
  schema _ := h
  properties heq := absurd heq hkey

theorem mapsProperties_type (name : String) : MapsProperties (.obj [("type", .str name)]) := by
  rw [mapsProperties_obj, List.forall_mem_singleton]
  exact suits_of_notMem (show "type" ∉ _ by decide)

theorem MapsProperties.typedAdditionalProperties (h : MapsProperties (.obj map)) :
    MapsProperties (.obj (typedAdditionalProperties map)) := by
  unfold StrictSchema.typedAdditionalProperties
  dsimp only
  split_ifs
  · exact h.insertEntry (suits_of_notMem (by decide))
  · exact h

theorem MapsProperties.foldl_removeEntry (h : MapsProperties (.obj map)) (keys : List String) :
    MapsProperties (.obj (keys.foldl Theory.removeEntry map)) := by
  induction keys generalizing map with
  | nil => exact h
  | cons key keys ih => exact ih h.removeEntry

theorem MapsProperties.clearKeywords (h : MapsProperties (.obj map)) :
    MapsProperties (.obj (clearKeywords map)) := by
  have hopenai : MapsProperties (.obj (normalizeOpenaiSchemaSubsetKeywords map)) := by
    have hremoved := h.foldl_removeEntry removedKeywords
    unfold normalizeOpenaiSchemaSubsetKeywords
    dsimp only
    split
    · split_ifs
      · exact hremoved.removeEntry
      · exact hremoved.removeEntry.insertEntry (suits_of_notMem (by decide))
    · exact hremoved
  unfold StrictSchema.clearKeywords normalizeOneOfKeyword
  rw [if_pos rfl]
  split
  next oneOf honeOf =>
    have honeOf : MapsProperties oneOf := (hopenai.suits honeOf).schema (by decide)
    have hremoved : MapsProperties
        (.obj (Theory.removeEntry (normalizeOpenaiSchemaSubsetKeywords map) "oneOf")) :=
      hopenai.removeEntry
    dsimp only
    split
    next anyOf hanyOf =>
      have hanyOf := (hremoved.suits hanyOf).schema (by decide)
      rw [mapsProperties_arr] at hanyOf
      split
      · refine hremoved.insertEntry (suits_of_ne (by decide) ?_)
        rw [mapsProperties_arr] at honeOf ⊢
        exact List.forall_mem_append.mpr ⟨hanyOf, honeOf⟩
      · refine hremoved.insertEntry (suits_of_ne (by decide) ?_)
        rw [mapsProperties_arr]
        exact List.forall_mem_append.mpr ⟨hanyOf, List.forall_mem_singleton.mpr honeOf⟩
    next => exact hremoved.insertEntry (suits_of_ne (by decide) honeOf)
  next => exact hopenai

theorem MapsProperties.normalizeTypes (henforce : KeepsMaps enforce)
    (h : MapsProperties (.obj map)) (hmap' : normalizeTypes enforce map strictMode = some map') :
    MapsProperties (.obj map') := by
  have hentries := mapsProperties_obj.mp h
  rw [mapsProperties_obj]
  intro entry hentry
  rcases mem_normalizeTypes hmap' hentry with hmem | hadded
  · exact hentries entry hmem
  · cases hadded with
    | type name => exact suits_of_notMem (show "type" ∉ _ by decide)
    | properties =>
      exact ⟨fun hkey => absurd hkey (by decide), fun _ => ⟨[], rfl, List.forall_mem_nil _⟩⟩
    | closed =>
      refine suits_of_ne (show "additionalProperties" ≠ _ by decide) (.leaf ?_ ?_)
      · exact fun _ h => Json.noConfusion h
      · exact fun _ h => Json.noConfusion h
    | others hprops hvalue =>
      refine suits_of_ne (show "additionalProperties" ≠ _ by decide) (henforce _ _ hvalue ?_)
      exact ((h.suits hprops).schema (by decide)).typedAdditionalProperties
    | required names => exact suits_of_notMem (show "required" ∉ _ by decide)
    | items => exact suits_of_ne (show "items" ≠ _ by decide) (mapsProperties_type "string")

theorem MapsProperties.retainNonNull (h : MapsProperties (.obj map)) :
    MapsProperties (.obj (retainNonNull map)) := by
  unfold StrictSchema.retainNonNull
  split
  · exact h.insertEntry (suits_of_notMem (by decide))
  · exact h

theorem MapsProperties.normalizeNullable (h : MapsProperties (.obj map)) :
    MapsProperties (.obj (normalizeNullable map strictMode)) := by
  unfold StrictSchema.normalizeNullable
  split_ifs
  · rw [mapsProperties_obj]
    intro entry hentry
    rcases List.mem_append.mp hentry with hmem | hmem
    · obtain ⟨_, -, rfl⟩ := Option.map_eq_some_iff.mp (Option.mem_toList.mp hmem)
      exact suits_of_notMem (show "description" ∉ _ by decide)
    · obtain rfl := List.mem_singleton.mp hmem
      refine suits_of_ne (show "anyOf" ≠ _ by decide) ?_
      rw [mapsProperties_arr, List.forall_mem_cons, List.forall_mem_singleton]
      exact ⟨h.removeEntry.retainNonNull.removeEntry, mapsProperties_type "null"⟩
  · exact h

theorem Suits.enforceKeyword (henforce : KeepsMaps enforce) (h : Suits key value) {value' : Json}
    (hvalue' : enforceKeyword enforce key value = some value') : Suits key value' := by
  unfold StrictSchema.enforceKeyword at hvalue'
  split at hvalue'
  · split_ifs at hvalue' with hnamed
    · obtain ⟨props', hprops', rfl⟩ := Option.map_eq_some_iff.mp hvalue'
      refine ⟨fun hkey => absurd hnamed (notMem_namedKeywords hkey), fun hkey => ⟨props', rfl, ?_⟩⟩
      intro property hproperty
      obtain ⟨entry, hentry, hvalue⟩ := (mapM_entries hprops').2 property hproperty
      obtain ⟨_, heq, hprops⟩ := h.properties hkey
      cases heq
      exact henforce _ _ hvalue (hprops entry hentry)
    · refine ⟨fun hkey => henforce _ _ hvalue' (h.schema hkey), fun hkey => ?_⟩
      exact absurd (hkey ▸ List.mem_cons_self) hnamed
  · split_ifs at hvalue' with hnamed
    · obtain rfl := Option.some.inj hvalue'
      exact h
    · refine ⟨fun hkey => henforce _ _ hvalue' (h.schema hkey), fun hkey => ?_⟩
      exact absurd (hkey ▸ List.mem_cons_self) hnamed
  · obtain rfl := Option.some.inj hvalue'
    exact h

theorem MapsProperties.updateEntries (henforce : KeepsMaps enforce)
    (h : MapsProperties (.obj map))
    (hmap' : updateEntries (enforceKeyword enforce) (visitedKeywords strictMode) map = some map') :
    MapsProperties (.obj map') := by
  have hentries := mapsProperties_obj.mp h
  rw [mapsProperties_obj]
  intro entry hentry
  rcases mem_updateEntries (nodup_visitedKeywords strictMode) hmap' hentry with
    hmem | ⟨-, value, hlookup, hvalue⟩
  · exact hentries entry hmem
  · exact (h.suits hlookup).enforceKeyword henforce hvalue

/-- A strict schema has a map for its properties wherever the schema had one. -/
theorem MapsProperties.enforceStrictSchema {n : ℕ} : KeepsMaps (enforceStrictSchema n true) := by
  induction n with
  | zero => exact fun _ _ h => by cases h
  | succ n ih =>
    intro v w hw h
    cases v with
    | obj map =>
      obtain ⟨prepared, typed, map', rfl, hprepared, htyped, hmap'⟩ :=
        exists_of_enforceStrictSchema_obj hw
      obtain ⟨flat, hflat, rfl⟩ := Option.map_eq_some_iff.mp hprepared
      obtain ⟨flat', hflat', -, -, hmaps⟩ := exists_computes_flattenAllOfSchema map
      obtain rfl := hflat'.unique hflat
      exact (((hmaps h).clearKeywords.normalizeTypes ih htyped).normalizeNullable).updateEntries ih
        hmap'
    | arr items =>
      obtain ⟨items', hitems', rfl⟩ := Option.map_eq_some_iff.mp hw
      rw [mapsProperties_arr] at h ⊢
      intro item' hitem'
      obtain ⟨item, hitem, hvalue⟩ := exists_of_forall₂_right (forall₂_of_mapM_some hitems') hitem'
      exact ih item item' hvalue (h item hitem)
    | _ =>
      obtain rfl := Option.some.inj hw
      exact h

end Maps

end StrictSchema

end HeliosLite
