import HeliosLite.Schema.StrictEntries

/-!
# Every schema has a strict form

The rewriting comes to an end on every schema: what is left to do is less deep, has the form
already, or is a level that may no longer be null. What comes out of a strict rewriting says of
every object in it what is to be said.

## Main definitions

* `Subschema` — the schemas of a document
* `IsStrictObject` — what a strict schema says of an object

## Main results

* `ready_of_depth` — the rewriting comes to an end
* `enforceStrictSchema_spec` — what comes out, and that it is not changed again
-/

namespace HeliosLite

namespace StrictSchema

open Serde Theory

variable {strictMode : Bool} {map map' : Fields} {key : String} {value : Json} {d : ℕ}

/-! ### The rewriting comes to an end -/

/-- The schema is rewritten to something. -/
def Ready (strictMode : Bool) (v : Json) : Prop :=
  ∃ w, Computes (fun n => enforceStrictSchema n strictMode v) w

theorem ready_arr {items : List Json} (h : ∀ item ∈ items, Ready strictMode item) :
    Ready strictMode (.arr items) := by
  obtain ⟨items', hitems'⟩ := exists_computes_mapM h
  have hbody : Computes (fun n => enforceStrictSchema (n + 1) strictMode (.arr items))
      (.arr items') := hitems'.option_map
  exact ⟨_, hbody.succ rfl⟩

theorem Normal.ready (h : Normal strictMode value) : Ready strictMode value := ⟨value, h.computes⟩

/-- The schemas in a level are rewritten to something. -/
structure ReadyAt (strictMode : Bool) (key : String) (value : Json) : Prop where
  named : key ∈ namedKeywords → ∀ props, value = .obj props →
    ∀ property ∈ props, Ready strictMode property.2
  schema : key ∉ namedKeywords → Ready strictMode value

/-- The schemas in the keywords that are looked at are rewritten to something. -/
def SchemasReady (strictMode : Bool) (map : Fields) : Prop :=
  ∀ entry ∈ map, entry.1 ∈ visitedKeywords strictMode → ReadyAt strictMode entry.1 entry.2

section Ready

variable {enforce : ℕ → Json → Option Json}

theorem exists_computes_enforceKeyword (h : ReadyAt strictMode key value) :
    ∃ value', Computes (fun n => enforceKeyword (enforceStrictSchema n strictMode) key value)
      value' := by
  unfold enforceKeyword
  split
  next props =>
    split_ifs with hnamed
    · have hprops : ∀ entry ∈ props, ∃ entry',
          Computes (fun n => (enforceStrictSchema n strictMode entry.2).map (Prod.mk entry.1))
            entry' := by
        intro entry hentry
        obtain ⟨w, hw⟩ := h.named hnamed props rfl entry hentry
        exact ⟨_, hw.option_map⟩
      obtain ⟨props', hprops'⟩ := exists_computes_mapM hprops
      exact ⟨_, hprops'.option_map⟩
    · exact h.schema hnamed
  next =>
    split_ifs with hnamed
    · exact ⟨_, computes_const⟩
    · exact h.schema hnamed
  next => exact ⟨_, computes_const⟩

theorem exists_computes_updateEntries_of_ready (h : SchemasReady strictMode map) :
    ∃ map', Computes (fun n => updateEntries
      (enforceKeyword (enforceStrictSchema n strictMode)) (visitedKeywords strictMode) map)
        map' := by
  refine exists_computes_updateEntries (nodup_visitedKeywords strictMode) ?_
  intro key hkey value hvalue
  obtain ⟨l₁, l₂, rfl, -⟩ := List.lookup_eq_some_iff.mp hvalue
  exact exists_computes_enforceKeyword
    (h (key, value) (List.mem_append_right l₁ List.mem_cons_self) hkey)

/-- The level with a type, before what belongs to its type is looked at. -/
def typedMap (map : Fields) (strictMode : Bool) : Fields :=
  let map := normalizeStringFormatKeyword map strictMode
  if isObjectSchema map && !hasEntry map "type" then insertEntry map "type" (.str "object") else map

theorem lookup_typedMap (strictMode : Bool) :
    (typedMap map strictMode).lookup "additionalProperties" =
      map.lookup "additionalProperties" := by
  unfold typedMap
  dsimp only
  split_ifs
  · rw [lookup_insertEntry_of_ne (by decide), lookup_normalizeStringFormatKeyword (by decide)]
  · exact lookup_normalizeStringFormatKeyword (by decide)

theorem exists_computes_normalizeObject
    (hothers : ∀ props, map.lookup "additionalProperties" = some (.obj props) →
      Ready strictMode (.obj (typedAdditionalProperties props))) :
    ∃ typed, Computes (fun n => normalizeObject (enforceStrictSchema n strictMode) map strictMode)
      typed := by
  have hadditional : ∀ map₁ : Fields,
      map₁.lookup "additionalProperties" = map.lookup "additionalProperties" →
      ∃ map₂, Computes (fun n =>
        normalizeAdditionalProperties (enforceStrictSchema n strictMode) map₁) map₂ := by
    intro map₁ hlookup
    unfold normalizeAdditionalProperties
    split
    next props hprops =>
      obtain ⟨w, hw⟩ := hothers props (hlookup ▸ hprops)
      exact ⟨_, hw.option_map⟩
    next => exact ⟨_, computes_const⟩
    next => exact ⟨_, computes_const⟩
  have hproperties : (if strictMode && !hasEntry map "properties" then
      insertEntry map "properties" (.obj []) else map).lookup "additionalProperties" =
      map.lookup "additionalProperties" := by
    split_ifs
    · exact lookup_insertEntry_of_ne (by decide)
    · rfl
  obtain ⟨map₂, hmap₂⟩ := hadditional _ hproperties
  simp only [normalizeObject]
  exact ⟨_, hmap₂.option_bind computes_const⟩

theorem exists_computes_normalizeTypes
    (hothers : ∀ props, map.lookup "additionalProperties" = some (.obj props) →
      Ready strictMode (.obj (typedAdditionalProperties props))) :
    ∃ typed, Computes (fun n => normalizeTypes (enforceStrictSchema n strictMode) map strictMode)
      typed := by
  rw [← lookup_typedMap strictMode] at hothers
  have htyped : ∃ typed, Computes (fun n =>
      if isObjectSchema (normalizeStringFormatKeyword map strictMode) then
        normalizeObject (enforceStrictSchema n strictMode) (typedMap map strictMode) strictMode
      else if strictMode && !hasEntry (typedMap map strictMode) "type" &&
          !hasEntry (typedMap map strictMode) "anyOf" &&
          !hasEntry (typedMap map strictMode) "allOf" then
        some (insertEntry (typedMap map strictMode) "type" (.str "string"))
      else some (typedMap map strictMode)) typed := by
    split_ifs
    · exact exists_computes_normalizeObject hothers
    · exact ⟨_, computes_const⟩
    · exact ⟨_, computes_const⟩
  obtain ⟨typed, htyped⟩ := htyped
  exact ⟨_, htyped.option_map⟩

/-- What is said of other properties was rewritten already. -/
theorem exists_of_lookup_normalizeTypes {enforce : Json → Option Json} {props : Fields}
    (h : normalizeTypes enforce map strictMode = some map')
    (hprops : map'.lookup "additionalProperties" = some (.obj props)) :
    ∃ v, enforce v = some (.obj props) := by
  obtain ⟨typed, htyped, rfl⟩ := Option.map_eq_some_iff.mp h
  have hitems : (normalizeArrayItems typed strictMode).lookup "additionalProperties" =
      typed.lookup "additionalProperties" := by
    unfold normalizeArrayItems
    split_ifs
    · exact lookup_insertEntry_of_ne (by decide)
    · rfl
  rw [hitems] at hprops
  cases hobject : isObjectSchema (normalizeStringFormatKeyword map strictMode) with
  | true =>
    simp only [hobject, if_true, normalizeObject, Option.bind_eq_bind] at htyped
    obtain ⟨map₁, hmap₁, htyped⟩ := Option.bind_eq_some_iff.mp htyped
    obtain rfl := Option.some.inj htyped
    have hrequired : map₁.lookup "additionalProperties" = some (.obj props) := by
      split_ifs at hprops
      · rwa [lookup_insertEntry_of_ne (by decide)] at hprops
      · exact hprops
    unfold normalizeAdditionalProperties at hmap₁
    split at hmap₁
    next =>
      obtain ⟨value, hvalue, rfl⟩ := Option.map_eq_some_iff.mp hmap₁
      rw [lookup_insertEntry_self] at hrequired
      cases hrequired
      exact ⟨_, hvalue⟩
    next b hb =>
      obtain rfl := Option.some.inj hmap₁
      rw [hb] at hrequired
      cases hrequired
    next =>
      obtain rfl := Option.some.inj hmap₁
      rw [lookup_insertEntry_self] at hrequired
      cases hrequired
  | false =>
    -- a level that says what other properties it has is that of an object
    have hnone : (normalizeStringFormatKeyword map strictMode).lookup "additionalProperties" =
        none := by
      rw [← hasEntry_eq_false_iff, ← Bool.not_eq_true]
      intro hentry
      rw [isObjectSchema_iff.mpr (.inr (.inr (.inr hentry)))] at hobject
      cases hobject
    simp only [hobject, Bool.false_and, Bool.false_eq_true, if_false] at htyped
    split_ifs at htyped
    · obtain rfl := Option.some.inj htyped
      rw [lookup_insertEntry_of_ne (by decide), hnone] at hprops
      cases hprops
    · obtain rfl := Option.some.inj htyped
      rw [hnone] at hprops
      cases hprops

/-! ### One level of an unknown schema -/

/-- The value is so deep at most, or a list of values that are. -/
def Shallow (d : ℕ) (value : Json) : Prop :=
  value.depth ≤ d ∨ ∃ items, value = .arr items ∧ ∀ item ∈ items, item.depth ≤ d

theorem Shallow.item {items : List Json} (h : Shallow d (.arr items)) :
    ∀ item ∈ items, item.depth ≤ d := by
  rcases h with hdepth | ⟨_, heq, hitems⟩
  · rw [Json.depth, Nat.succ_le_iff] at hdepth
    exact fun item hitem => Nat.le_of_lt
      (Nat.lt_of_le_of_lt (Json.depthList_le.mp (Nat.le_refl _) item hitem) hdepth)
  · cases heq
    exact hitems

/-- No keyword with schemas is deeper. -/
def ShallowSchemas (d : ℕ) (map : Fields) : Prop :=
  ∀ entry ∈ map, entry.1 = "enum" ∨ Shallow d entry.2

theorem mem_normalizeOpenaiSchemaSubsetKeywords {entry : String × Json}
    (h : entry ∈ normalizeOpenaiSchemaSubsetKeywords map) : entry.1 = "enum" ∨ entry ∈ map := by
  unfold normalizeOpenaiSchemaSubsetKeywords at h
  dsimp only at h
  split at h
  · split_ifs at h
    · exact .inr (mem_of_mem_foldl_removeEntry (List.mem_of_mem_filter h))
    · rcases mem_insertEntry h with rfl | hmem
      · exact .inl rfl
      · exact .inr (mem_of_mem_foldl_removeEntry (List.mem_of_mem_filter hmem))
  · exact .inr (mem_of_mem_foldl_removeEntry h)

theorem shallowSchemas_normalizeOneOfKeyword
    (h : ∀ entry ∈ map, entry.1 = "enum" ∨ entry.2.depth ≤ d) :
    ShallowSchemas d (normalizeOneOfKeyword map true) := by
  have hlookup : ∀ entries : Fields, (∀ entry ∈ entries, entry.1 = "enum" ∨ entry.2.depth ≤ d) →
      ∀ key ≠ "enum", ∀ value, entries.lookup key = some value → value.depth ≤ d := by
    intro entries hentries key hkey value hvalue
    obtain ⟨l₁, l₂, rfl, -⟩ := List.lookup_eq_some_iff.mp hvalue
    exact (hentries (key, value) (List.mem_append_right l₁ List.mem_cons_self)).resolve_left hkey
  have hremoved : ∀ entry ∈ removeEntry map "oneOf", entry.1 = "enum" ∨ entry.2.depth ≤ d :=
    fun entry hentry => h entry (List.mem_of_mem_filter hentry)
  have hinsert : ∀ value, Shallow d value →
      ShallowSchemas d (insertEntry (removeEntry map "oneOf") "anyOf" value) := by
    intro value hvalue entry hentry
    rcases mem_insertEntry hentry with rfl | hmem
    · exact .inr hvalue
    · exact (hremoved entry hmem).imp_right .inl
  unfold normalizeOneOfKeyword
  rw [if_pos rfl]
  split
  next oneOf honeOf =>
    have honeOf := hlookup map h "oneOf" (by decide) oneOf honeOf
    dsimp only
    split
    next anyOf hanyOf =>
      have hanyOf := Shallow.item (.inl (hlookup _ hremoved "anyOf" (by decide) _ hanyOf))
      split
      · exact hinsert _ (.inr ⟨_, rfl, List.forall_mem_append.mpr
          ⟨hanyOf, Shallow.item (.inl honeOf)⟩⟩)
      · exact hinsert _ (.inr ⟨_, rfl, List.forall_mem_append.mpr
          ⟨hanyOf, List.forall_mem_singleton.mpr honeOf⟩⟩)
    next => exact hinsert _ (.inl honeOf)
  next => exact fun entry hentry => (h entry hentry).imp_right .inl

theorem shallowSchemas_clearKeywords (h : Json.depthFields map ≤ d) :
    ShallowSchemas d (clearKeywords map) := by
  refine shallowSchemas_normalizeOneOfKeyword fun entry hentry => ?_
  exact (mem_normalizeOpenaiSchemaSubsetKeywords hentry).imp_right
    (Json.depthFields_le.mp h entry)

theorem depth_typedAdditionalProperties :
    (Json.obj (typedAdditionalProperties map)).depth ≤ (Json.obj map).depth := by
  rw [Json.depth, Json.depth, Nat.succ_le_succ_iff]
  unfold typedAdditionalProperties
  dsimp only
  split_ifs
  · exact Json.depthFields_insertEntry (Nat.le_refl _) (Nat.zero_le _)
  · exact Nat.le_refl _

theorem Shallow.readyAt (hready : ∀ v : Json, v.depth ≤ d → Ready strictMode v)
    (h : Shallow d value) : ReadyAt strictMode key value := by
  refine ⟨fun _ props hprops property hproperty => ?_, fun _ => ?_⟩
  · rcases h with hdepth | ⟨_, heq, -⟩
    · rw [hprops, Json.depth, Nat.succ_le_iff] at hdepth
      exact hready _ (Nat.le_of_lt (Nat.lt_of_le_of_lt
        (Json.depthFields_le.mp (Nat.le_refl _) property hproperty) hdepth))
    · rw [hprops] at heq
      cases heq
  · rcases h with hdepth | ⟨items, rfl, hitems⟩
    · exact hready value hdepth
    · exact ready_arr fun item hitem => hready item (hitems item hitem)

theorem readyAt_of_normal (hkey : key ∉ namedKeywords) (h : Normal strictMode value) :
    ReadyAt strictMode key value :=
  ⟨fun hnamed => absurd hnamed hkey, fun _ => h.ready⟩

/-- A type that asks for nothing else. -/
theorem normal_type {name : String} (hobject : name ≠ "object") (harray : name ≠ "array") :
    Normal strictMode (.obj [("type", .str name)]) := by
  have hlookup : ∀ key : String,
      ([("type", Json.str name)] : Fields).lookup key =
        if key = "type" then some (.str name) else none := by
    intro key
    rw [List.lookup_cons]
    split_ifs with hkey
    · rw [hkey]
      rfl
    · rw [beq_false_of_ne hkey]
      rfl
  have hnone : ∀ key : String, key ≠ "type" →
      ([("type", Json.str name)] : Fields).lookup key = none := by
    intro key hkey
    rw [hlookup, if_neg hkey]
  have hentry : ∀ key : String, key ≠ "type" →
      hasEntry ([("type", Json.str name)] : Fields) key = false := fun key hkey =>
    hasEntry_eq_false_iff.mpr (hnone key hkey)
  refine .obj ⟨⟨⟨fun _ key hkey => ?_, fun _ format hformat => ?_⟩, fun hobj => ?_,
    fun _ harr => ?_, fun _ => .inl rfl⟩, fun _ => ?_⟩ ?_ ?_
  · exact hnone key (ne_of_mem_of_not_mem hkey (by decide))
  · rw [hnone "format" (by decide)] at hformat
    cases hformat
  · rw [isObjectSchema_iff, hentry "properties" (by decide), hentry "required" (by decide),
      hentry "additionalProperties" (by decide)] at hobj
    simp [hlookup, asStr, hobject] at hobj
  · rw [isArraySchema_iff, hentry "items" (by decide)] at harr
    simp [hlookup, asStr, harray] at harr
  · rw [hnone "nullable" (by decide)]
    exact (Option.some_ne_none _).symm
  · intro key hkey hnamed props hprops
    rw [hnone key (ne_of_mem_of_not_mem hnamed (by decide))] at hprops
    cases hprops
  · intro key hkey hnamed value hvalue
    rw [hnone key (ne_of_mem_of_not_mem hkey (by cases strictMode <;> decide))] at hvalue
    cases hvalue

theorem schemasReady_normalizeTypes (hready : ∀ v : Json, v.depth ≤ d → Ready strictMode v)
    (hmap : ShallowSchemas d map) {n : ℕ}
    (h : normalizeTypes (enforceStrictSchema n strictMode) map strictMode = some map') :
    SchemasReady strictMode map' := by
  intro entry hentry hvisited
  rcases mem_normalizeTypes h hentry with hmem | hadded
  · rcases hmap entry hmem with henum | hshallow
    · rw [henum] at hvisited
      exact absurd hvisited (by cases strictMode <;> decide)
    · exact hshallow.readyAt hready
  · cases hadded with
    | type name => exact absurd hvisited (show "type" ∉ _ by cases strictMode <;> decide)
    | properties =>
      refine ⟨fun _ props hprops => ?_, fun h => absurd (List.mem_cons_self ..) h⟩
      cases hprops
      exact List.forall_mem_nil _
    | closed =>
      refine readyAt_of_normal (show "additionalProperties" ∉ _ by decide) (.leaf ?_ ?_)
      · exact fun _ h => Json.noConfusion h
      · exact fun _ h => Json.noConfusion h
    | others hprops hvalue =>
      exact readyAt_of_normal (show "additionalProperties" ∉ _ by decide)
        (normal_of_enforceStrictSchema hvalue)
    | required names => exact absurd hvisited (show "required" ∉ _ by cases strictMode <;> decide)
    | items =>
      exact readyAt_of_normal (show "items" ∉ _ by decide) (normal_type (by decide) (by decide))

/-- A level in the form whose schemas are rewritten to something. -/
theorem ready_of_level (hlevel : Level strictMode map) (hschemas : SchemasReady strictMode map)
    (hothers : ∀ props, map.lookup "additionalProperties" = some (.obj props) →
      Normal strictMode (.obj props)) : Ready strictMode (.obj map) := by
  obtain ⟨map', hmap'⟩ := exists_computes_updateEntries_of_ready hschemas
  have hbody : Computes (fun n => enforceStrictSchema (n + 1) strictMode (.obj map))
      (.obj map') := by
    simp only [enforceStrictSchema_obj]
    refine (computes_preparedSchema_self hlevel.banned).option_bind ?_
    refine (computes_normalizeTypes_self hlevel.toTyped ?_).option_bind ?_
    · exact fun props hprops => (hothers props hprops).computes
    · rw [normalizeNullable_of_level hlevel]
      exact hmap'.option_map
  exact ⟨_, hbody.succ rfl⟩

theorem SchemasReady.nullableSchema {description branch : Fields}
    (hdescription : ∀ entry ∈ description, entry.1 = "description")
    (hbranch : Ready strictMode (.obj branch)) :
    SchemasReady strictMode (nullableSchema description branch) := by
  intro entry hentry hvisited
  rcases List.mem_append.mp hentry with hmem | hmem
  · rw [hdescription entry hmem] at hvisited
    exact absurd hvisited (by cases strictMode <;> decide)
  · obtain rfl := List.mem_singleton.mp hmem
    refine ⟨fun h => absurd h (show "anyOf" ∉ _ by decide), fun _ => ready_arr ?_⟩
    rw [List.forall_mem_cons, List.forall_mem_singleton]
    exact ⟨hbranch, (normal_type (by decide) (by decide)).ready⟩

theorem schemasReady_normalizeNullable (htyped : Typed strictMode map)
    (hschemas : SchemasReady strictMode map)
    (hothers : ∀ props, map.lookup "additionalProperties" = some (.obj props) →
      Normal strictMode (.obj props)) :
    SchemasReady strictMode (normalizeNullable map strictMode) := by
  rcases normalizeNullable_spec htyped with
    ⟨-, heq⟩ | ⟨description, branch, heq, hlevel, hdescription, hmem, hlookup⟩
  · rwa [heq]
  · rw [heq]
    refine .nullableSchema hdescription (ready_of_level hlevel ?_ ?_)
    · intro entry hentry hvisited
      rcases hmem entry hentry with henum | hentry
      · rw [henum] at hvisited
        exact absurd hvisited (by cases strictMode <;> decide)
      · exact hschemas entry hentry hvisited
    · rw [hlookup]
      exact hothers

theorem ready_obj (hready : ∀ v : Json, v.depth ≤ d → Ready strictMode v)
    (hmap : Json.depthFields map ≤ d) : Ready strictMode (.obj map) := by
  obtain ⟨prepared, hprepared, hbanned, hshallow⟩ : ∃ prepared,
      Computes (fun n => preparedSchema strictMode n map) prepared ∧
        (strictMode = true → ∀ key ∈ bannedKeywords, prepared.lookup key = none) ∧
          ShallowSchemas d prepared := by
    cases strictMode with
    | false =>
      refine ⟨map, computes_const, fun h => absurd h Bool.false_ne_true, fun entry hentry => ?_⟩
      exact .inr (.inl (Json.depthFields_le.mp hmap entry hentry))
    | true =>
      obtain ⟨flat, hflat, hdepth, hallOf, -⟩ := exists_computes_flattenAllOfSchema map
      exact ⟨_, hflat.option_map, fun _ key => lookup_clearKeywords hallOf,
        shallowSchemas_clearKeywords (Nat.le_trans hdepth hmap)⟩
  have hothers : ∀ props, prepared.lookup "additionalProperties" = some (.obj props) →
      Ready strictMode (.obj (typedAdditionalProperties props)) := by
    intro props hprops
    obtain ⟨l₁, l₂, rfl, -⟩ := List.lookup_eq_some_iff.mp hprops
    have hshallow := hshallow _ (List.mem_append_right l₁ List.mem_cons_self)
    rcases hshallow.resolve_left (show "additionalProperties" ≠ _ by decide) with
      hdepth | ⟨_, heq, -⟩
    · exact hready _ (Nat.le_trans depth_typedAdditionalProperties hdepth)
    · cases heq
  obtain ⟨typed, htyped⟩ := exists_computes_normalizeTypes hothers
  -- what the types are under one budget they are under all
  obtain ⟨n, hn⟩ := htyped.1
  have hn := hn n (Nat.le_refl n)
  have hform := typed_normalizeTypes
    (keepsType_enforceStrictSchema fun _ _ => normal_of_enforceStrictSchema) hbanned hn
  have hschemas := schemasReady_normalizeNullable hform
    (schemasReady_normalizeTypes hready hshallow hn) fun props hprops => by
      obtain ⟨v, hv⟩ := exists_of_lookup_normalizeTypes hn hprops
      exact normal_of_enforceStrictSchema hv
  obtain ⟨map', hmap'⟩ := exists_computes_updateEntries_of_ready hschemas
  have hbody : Computes (fun n => enforceStrictSchema (n + 1) strictMode (.obj map))
      (.obj map') := by
    simp only [enforceStrictSchema_obj]
    exact hprepared.option_bind (htyped.option_bind hmap'.option_map)
  exact ⟨_, hbody.succ rfl⟩

theorem ready_of_depth (d : ℕ) : ∀ v : Json, v.depth ≤ d → Ready strictMode v := by
  induction d with
  | zero =>
    intro v hv
    cases v with
    | arr items => simp [Json.depth] at hv
    | obj map => simp [Json.depth] at hv
    | _ => exact Normal.ready (.leaf (fun _ h => Json.noConfusion h) fun _ h => Json.noConfusion h)
  | succ d ih =>
    intro v hv
    cases v with
    | arr items =>
      rw [Json.depth, Nat.succ_le_succ_iff, Json.depthList_le] at hv
      exact ready_arr fun item hitem => ih item (hv item hitem)
    | obj map =>
      rw [Json.depth, Nat.succ_le_succ_iff] at hv
      exact ready_obj ih hv
    | _ => exact Normal.ready (.leaf (fun _ h => Json.noConfusion h) fun _ h => Json.noConfusion h)

end Ready

/-! ### Strict schemas -/

/-- The schemas of a document. -/
inductive Subschema (root : Json) : Json → Prop
  | root : Subschema root root
  | named {map props : Fields} {key : String} {property : String × Json}
      (h : Subschema root (.obj map)) (hkey : key ∈ ["properties", "$defs", "definitions"])
      (hprops : map.lookup key = some (.obj props)) (hproperty : property ∈ props) :
    Subschema root property.2
  | keyword {map : Fields} {key : String} {value : Json} (h : Subschema root (.obj map))
      (hkey : key ∈ ["items", "additionalProperties", "anyOf"])
      (hvalue : map.lookup key = some value) : Subschema root value
  | item {items : List Json} {item : Json} (h : Subschema root (.arr items))
      (hitem : item ∈ items) : Subschema root item

/-- The names of the properties, if they are a map. -/
def propertyNames (map : Fields) : List String :=
  match map.lookup "properties" with
  | some (.obj props) => props.map Prod.fst
  | _ => []

/-- What a strict schema says of an object. -/
structure IsStrictObject (map : Fields) : Prop where
  additional : (∃ b, map.lookup "additionalProperties" = some (.bool b)) ∨
    ∃ schema, map.lookup "additionalProperties" = some (.obj schema)
  properties : hasEntry map "properties" = true
  required : ∃ names : List String, map.lookup "required" = some (.arr (names.map .str)) ∧
    names.Perm (propertyNames map) ∧ names.Pairwise (· ≤ ·)

section Subschema

variable {root : Json}

theorem Normal.level (h : Normal strictMode (.obj map)) : Level strictMode map := by
  cases h with
  | leaf _ hobj => exact absurd rfl (hobj map)
  | obj hlevel _ _ => exact hlevel

theorem Normal.item {items : List Json} (h : Normal strictMode (.arr items)) :
    ∀ item ∈ items, Normal strictMode item := by
  cases h with
  | leaf harr _ => exact absurd rfl (harr items)
  | arr hitems => exact hitems

/-- The schemas in a strict schema have the form, and maps for their properties with it. -/
theorem Subschema.normal (hroot : Normal true root) (h : Subschema root value) :
    Normal true value ∧ (MapsProperties root → MapsProperties value) := by
  induction h with
  | root => exact ⟨hroot, id⟩
  | named h hkey hprops hproperty ih =>
    obtain ⟨hnormal, hmaps⟩ := ih
    have hnone := hnormal.level.banned rfl
    rw [List.mem_cons, List.mem_cons, List.mem_singleton] at hkey
    -- definitions are among what is removed
    rcases hkey with rfl | rfl | rfl
    · refine ⟨?_, fun hroot => ?_⟩
      · cases hnormal with
        | leaf _ hobj => exact absurd rfl (hobj _)
        | obj _ hnamed _ => exact hnamed "properties" (by decide) (by decide) _ hprops _ hproperty
      · obtain ⟨_, heq, hmap⟩ := ((hmaps hroot).suits hprops).properties rfl
        cases heq
        exact hmap _ hproperty
    · rw [hnone "$defs" (by decide)] at hprops
      cases hprops
    · rw [hnone "definitions" (by decide)] at hprops
      cases hprops
  | keyword h hkey hvalue ih =>
    obtain ⟨hnormal, hmaps⟩ := ih
    have hschema : ∀ key ∈ ["items", "additionalProperties", "anyOf"],
        key ∈ visitedKeywords true ∧ key ∉ namedKeywords ∧ key ∈ schemaKeywords := by
      simp only [List.forall_mem_cons]
      decide
    obtain ⟨hvisited, hnamed, hschema⟩ := hschema _ hkey
    refine ⟨?_, fun hroot => ((hmaps hroot).suits hvalue).schema hschema⟩
    cases hnormal with
    | leaf _ hobj => exact absurd rfl (hobj _)
    | obj _ _ hschemas => exact hschemas _ hvisited hnamed _ hvalue
  | item h hitem ih =>
    obtain ⟨hnormal, hmaps⟩ := ih
    exact ⟨hnormal.item _ hitem, fun hroot => mapsProperties_arr.mp (hmaps hroot) _ hitem⟩

theorem requiredKeys_eq :
    requiredKeys map = (propertyNames map).mergeSort fun left right => decide (left ≤ right) := by
  unfold requiredKeys propertyNames
  cases map.lookup "properties" with
  | none => rw [List.mergeSort_nil]
  | some value => cases value <;> simp only [List.mergeSort_nil]

theorem requiredKeys_perm : (requiredKeys map).Perm (propertyNames map) := by
  rw [requiredKeys_eq]
  exact List.mergeSort_perm _ _

theorem pairwise_requiredKeys : (requiredKeys map).Pairwise (· ≤ ·) := by
  rw [requiredKeys_eq]
  refine (List.pairwise_mergeSort ?_ ?_ (propertyNames map)).imp of_decide_eq_true
  · intro a b c hab hbc
    exact decide_eq_true (le_trans (of_decide_eq_true hab) (of_decide_eq_true hbc))
  · intro a b
    simpa using le_total a b

theorem ObjectLevel.isStrictObject (h : ObjectLevel true map) : IsStrictObject map where
  additional := h.additional.imp_right fun ⟨props, hprops, _⟩ => ⟨props, hprops⟩
  properties := h.properties rfl
  required := ⟨_, h.required rfl, requiredKeys_perm, pairwise_requiredKeys⟩

end Subschema

/-- The rewriting comes to an end, is idempotent, and in the strict mode says of every object what
other properties it may have, its properties and that all of them are required. -/
theorem enforceStrictSchema_spec (strictMode : Bool) (schema : Json) :
    ∃ output, Computes (fun n => enforceStrictSchema n strictMode schema) output ∧
      Computes (fun n => enforceStrictSchema n strictMode output) output ∧
      (strictMode = true → ∀ map, Subschema output (.obj map) →
        (∀ key ∈ bannedKeywords, map.lookup key = none) ∧
        (isObjectSchema map = true → IsStrictObject map ∧
          (MapsProperties schema → ∃ props, map.lookup "properties" = some (.obj props)))) := by
  obtain ⟨output, houtput⟩ : Ready strictMode schema := ready_of_depth _ schema (Nat.le_refl _)
  obtain ⟨n, hn⟩ := houtput.1
  have hn := hn n (Nat.le_refl n)
  have hnormal : Normal strictMode output := normal_of_enforceStrictSchema hn
  refine ⟨output, houtput, hnormal.computes, ?_⟩
  rintro rfl map hsub
  obtain ⟨hmap, hmaps⟩ := hsub.normal hnormal
  refine ⟨hmap.level.banned rfl, fun hobject => ?_⟩
  have hobject := (hmap.level.object hobject).isStrictObject
  refine ⟨hobject, fun hschema => ?_⟩
  obtain ⟨value, hvalue⟩ := hasEntry_iff.mp hobject.properties
  have hmaps := hmaps (MapsProperties.enforceStrictSchema _ _ hn hschema)
  obtain ⟨props, rfl, -⟩ := (hmaps.suits hvalue).properties rfl
  exact ⟨props, hvalue⟩

/-- Properties that are no map are left as they are. -/
theorem not_properties_map :
    ¬ ∃ output, Computes (fun n => enforceStrictSchema n true
        (.obj [("type", .str "object"), ("properties", .arr [])])) output ∧
      ∀ map, Subschema output (.obj map) → isObjectSchema map = true →
        ∃ props, map.lookup "properties" = some (.obj props) := by
  rintro ⟨output, houtput, hmaps⟩
  have hrun : enforceStrictSchema 2 true
      (.obj [("type", .str "object"), ("properties", .arr [])]) =
      some (.obj [("type", .str "object"), ("properties", .arr []),
        ("additionalProperties", .bool false), ("required", .arr [])]) := rfl
  obtain rfl := houtput.unique hrun
  obtain ⟨props, hprops⟩ := hmaps _ .root rfl
  cases hprops

end StrictSchema

end HeliosLite
