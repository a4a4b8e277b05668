import HeliosLite.Schema.StrictLevel
import HeliosLite.Theory.Traverse

/-!
# The form of strict schemas

A schema has the form when every level of it is one that the rewriting leaves alone. The
rewriting does not change such a schema, and gives no other.

## Main definitions

* `Normal` — schemas of the form

## Main results

* `Normal.computes` — a schema of the form is not changed
* `normal_of_enforceStrictSchema` — a schema that comes out has the form
-/

namespace HeliosLite

namespace StrictSchema

open Serde Theory

section Level

variable {strictMode : Bool} {map : Fields} {key : String} {value : Json}
  {enforce : Json → Option Json}

/-! ### The form -/

/-- All levels of the schema are such that the rewriting leaves them alone. -/
inductive Normal (strictMode : Bool) : Json → Prop
  | leaf {v : Json} (harr : ∀ items, v ≠ .arr items) (hobj : ∀ map, v ≠ .obj map) :
    Normal strictMode v
  | arr {items : List Json} (hitems : ∀ item ∈ items, Normal strictMode item) :
    Normal strictMode (.arr items)
  | obj {map : Fields} (hlevel : Level strictMode map)
      (hnamed : ∀ key ∈ visitedKeywords strictMode, key ∈ namedKeywords → ∀ props,
        map.lookup key = some (.obj props) → ∀ property ∈ props, Normal strictMode property.2)
      (hschemas : ∀ key ∈ visitedKeywords strictMode, key ∉ namedKeywords → ∀ value,
        map.lookup key = some value → Normal strictMode value) :
    Normal strictMode (.obj map)

section Self

variable {enforce : ℕ → Json → Option Json}

theorem computes_enforceKeyword_self
    (hnamed : key ∈ namedKeywords → ∀ props, value = .obj props →
      ∀ property ∈ props, Computes (fun n => enforce n property.2) property.2)
    (hschema : key ∉ namedKeywords → Computes (fun n => enforce n value) value) :
    Computes (fun n => enforceKeyword (enforce n) key value) value := by
  unfold enforceKeyword
  split
  next props =>
    split_ifs with hkey
    · have hprops : Computes (fun n => props.mapM fun entry =>
          (enforce n entry.2).map (Prod.mk entry.1)) (props.map id) :=
        Computes.mapM fun property hproperty =>
          (hnamed hkey props rfl property hproperty).option_map
      rw [List.map_id] at hprops
      exact hprops.option_map
    · exact hschema hkey
  next =>
    split_ifs with hkey
    · exact computes_const
    · exact hschema hkey
  next => exact computes_const

theorem normalizeStringFormatKeyword_of_cleared (h : Cleared strictMode map) :
    normalizeStringFormatKeyword map strictMode = map := by
  unfold normalizeStringFormatKeyword
  split_ifs with hstrict
  · split
    next format hformat => rw [if_pos (h.format hstrict format hformat)]
    next => rfl
  · rfl

theorem normalizeArrayItems_of_typed (h : Typed strictMode map) :
    normalizeArrayItems map strictMode = map := by
  unfold normalizeArrayItems
  split_ifs with hadd
  · simp only [Bool.and_eq_true, Bool.not_eq_true'] at hadd
    rw [h.items hadd.1.1 hadd.1.2] at hadd
    cases hadd.2
  · rfl

theorem computes_normalizeObject_self (h : ObjectLevel strictMode map)
    (hothers : ∀ props, map.lookup "additionalProperties" = some (.obj props) →
      Computes (fun n => enforce n (.obj props)) (.obj props)) :
    Computes (fun n => normalizeObject (enforce n) map strictMode) map := by
  have hproperties : (if strictMode && !hasEntry map "properties" then
      insertEntry map "properties" (.obj []) else map) = map := by
    refine if_neg fun hadd => ?_
    simp only [Bool.and_eq_true, Bool.not_eq_true'] at hadd
    rw [h.properties hadd.1] at hadd
    cases hadd.2
  have hadditional : Computes (fun n => normalizeAdditionalProperties (enforce n) map) map := by
    unfold normalizeAdditionalProperties
    rcases h.additional with ⟨b, hb⟩ | ⟨props, hprops, htyped⟩
    · simp only [hb]
      exact computes_const
    · simp only [hprops, htyped]
      have hmap := (hothers props hprops).option_map (g := insertEntry map "additionalProperties")
      rwa [insertEntry_of_lookup hprops] at hmap
  have hrequired : (if strictMode then
      insertEntry map "required" (.arr ((requiredKeys map).map .str)) else map) = map := by
    split_ifs with hstrict
    · exact insertEntry_of_lookup (h.required hstrict)
    · rfl
  simp only [normalizeObject, hproperties]
  refine hadditional.option_bind ?_
  rw [hrequired]
  exact computes_const

theorem computes_normalizeTypes_self (h : Typed strictMode map)
    (hothers : ∀ props, map.lookup "additionalProperties" = some (.obj props) →
      Computes (fun n => enforce n (.obj props)) (.obj props)) :
    Computes (fun n => normalizeTypes (enforce n) map strictMode) map := by
  have hsame : Computes (fun n : ℕ => if isObjectSchema map then
      normalizeObject (enforce n) map strictMode
    else if strictMode && !hasEntry map "type" && !hasEntry map "anyOf" &&
        !hasEntry map "allOf" then some (insertEntry map "type" (.str "string"))
    else some map) map := by
    split_ifs with hobject hadd
    · exact computes_normalizeObject_self (h.object hobject) hothers
    · -- a strict level has a type, or is put together
      simp only [Bool.and_eq_true, Bool.not_eq_true'] at hadd
      rcases h.typed hadd.1.1.1 with htyped | htyped
      · rw [hadd.1.1.2] at htyped
        cases htyped
      · rw [hadd.1.2] at htyped
        cases htyped
    · exact computes_const
  have htype : (if isObjectSchema map && !hasEntry map "type" then
      insertEntry map "type" (.str "object") else map) = map := by
    refine if_neg fun hadd => ?_
    simp only [Bool.and_eq_true, Bool.not_eq_true'] at hadd
    rw [(h.object hadd.1).type] at hadd
    cases hadd.2
  simp only [normalizeTypes, normalizeStringFormatKeyword_of_cleared h.toCleared, htype]
  have hmap := hsame.option_map (g := (normalizeArrayItems · strictMode))
  rwa [normalizeArrayItems_of_typed h] at hmap

theorem normalizeNullable_of_level (h : Level strictMode map) :
    normalizeNullable map strictMode = map := by
  unfold normalizeNullable
  refine if_neg fun hadd => ?_
  simp only [Bool.and_eq_true, beq_iff_eq] at hadd
  exact h.nullable hadd.1 hadd.2

end Self

theorem computes_preparedSchema_self
    (h : strictMode = true → ∀ key ∈ bannedKeywords, map.lookup key = none) :
    Computes (fun n => preparedSchema strictMode n map) map := by
  cases strictMode with
  | false => exact computes_const
  | true =>
    have hallOf : map.lookup "allOf" = none := h rfl "allOf" (by decide)
    have hflat : Computes (fun n => flattenAllOfSchema n map) map := by
      have hbody : Computes (fun n => flattenAllOfSchema (n + 1) map) map := by
        simp only [flattenAllOfSchema, hallOf, removeEntry_of_lookup hallOf]
        exact computes_const
      exact hbody.succ rfl
    have hprepared := hflat.option_map (g := clearKeywords)
    rwa [clearKeywords_of_banned (h rfl)] at hprepared

/-- A schema in the form is not changed. -/
theorem Normal.computes {v : Json} (h : Normal strictMode v) :
    Computes (fun n => enforceStrictSchema n strictMode v) v := by
  induction h with
  | leaf harr hobj =>
    rename_i v
    have hbody : Computes (fun n => enforceStrictSchema (n + 1) strictMode v) v := by
      cases v with
      | arr items => exact absurd rfl (harr items)
      | obj map => exact absurd rfl (hobj map)
      | _ => exact computes_const
    exact hbody.succ rfl
  | arr hitems ih =>
    rename_i items
    have hbody : Computes (fun n => enforceStrictSchema (n + 1) strictMode (.arr items))
        (.arr items) := by
      have hmap := (Computes.mapM (g := id) ih).option_map (g := Json.arr)
      rw [List.map_id] at hmap
      exact hmap
    exact hbody.succ rfl
  | obj hlevel hnamed hschemas ihnamed ihschemas =>
    rename_i map
    have hbody : Computes (fun n => enforceStrictSchema (n + 1) strictMode (.obj map))
        (.obj map) := by
      simp only [enforceStrictSchema_obj]
      refine (computes_preparedSchema_self hlevel.banned).option_bind ?_
      refine (computes_normalizeTypes_self hlevel.toTyped ?_).option_bind ?_
      · intro props hprops
        exact ihschemas "additionalProperties" (by cases strictMode <;> decide) (by decide) _ hprops
      · rw [normalizeNullable_of_level hlevel]
        refine Computes.option_map (computes_updateEntries_self ?_)
        intro key hkey value hvalue
        refine computes_enforceKeyword_self (fun hnamed => ?_) fun hnamed => ?_
        · intro props hprops
          exact ihnamed key hkey hnamed props (hprops ▸ hvalue)
        · exact ihschemas key hkey hnamed value hvalue
    exact hbody.succ rfl

/-! ### Schemas that come out -/

theorem mapM_entries {props props' : Fields}
    (h : props.mapM (fun entry => (enforce entry.2).map (Prod.mk entry.1)) = some props') :
    props'.map Prod.fst = props.map Prod.fst ∧
      ∀ property ∈ props', ∃ entry ∈ props, enforce entry.2 = some property.2 := by
  induction props generalizing props' with
  | nil =>
    obtain rfl := Option.some.inj h
    exact ⟨rfl, fun _ hmem => absurd hmem List.not_mem_nil⟩
  | cons entry props ih =>
    simp only [List.mapM_cons, Option.bind_eq_bind, Option.pure_def] at h
    obtain ⟨first, hfirst, h⟩ := Option.bind_eq_some_iff.mp h
    obtain ⟨rest, hrest, h⟩ := Option.bind_eq_some_iff.mp h
    obtain ⟨value, hvalue, rfl⟩ := Option.map_eq_some_iff.mp hfirst
    obtain rfl := Option.some.inj h
    obtain ⟨hkeys, hvalues⟩ := ih hrest
    refine ⟨by rw [List.map_cons, List.map_cons, hkeys], ?_⟩
    rw [List.forall_mem_cons]
    refine ⟨⟨entry, List.mem_cons_self, hvalue⟩, fun property hproperty => ?_⟩
    obtain ⟨other, hother, hvalue⟩ := hvalues property hproperty
    exact ⟨other, List.mem_cons_of_mem entry hother, hvalue⟩

section Update

variable {map' : Fields}
  (h : updateEntries (enforceKeyword enforce) (visitedKeywords strictMode) map = some map')

include h in
theorem lookup_visited (hkey : key ∈ visitedKeywords strictMode) :
    map'.lookup key = (map.lookup key).bind (enforceKeyword enforce key) := by
  rw [lookup_updateEntries (nodup_visitedKeywords strictMode) h, if_pos hkey]

include h in
theorem lookup_unvisited (hkey : key ∉ visitedKeywords strictMode) :
    map'.lookup key = map.lookup key := by
  rw [lookup_updateEntries (nodup_visitedKeywords strictMode) h, if_neg hkey]

include h in
/-- The names of the properties stay. -/
theorem requiredKeys_updateEntries : requiredKeys map' = requiredKeys map := by
  have hlookup := lookup_visited h (show "properties" ∈ _ by cases strictMode <;> decide)
  have hsome : (map'.lookup "properties").isSome = (map.lookup "properties").isSome :=
    hasEntry_updateEntries (nodup_visitedKeywords strictMode) h
  unfold requiredKeys
  cases hvalue : map.lookup "properties" with
  | none => rw [hlookup, hvalue, Option.bind_none]
  | some value =>
    rw [hvalue, Option.bind_some] at hlookup
    rw [hlookup]
    rw [hlookup, hvalue] at hsome
    cases value with
    | obj props =>
      simp only [enforceKeyword, show "properties" ∈ namedKeywords by decide, if_true] at hsome ⊢
      obtain ⟨props', hprops'⟩ := Option.isSome_iff_exists.mp hsome
      obtain ⟨props', hmapM, rfl⟩ := Option.map_eq_some_iff.mp hprops'
      simp only [hmapM, Option.map_some, (mapM_entries hmapM).1]
    | _ => simp [enforceKeyword, show "properties" ∈ namedKeywords by decide]

include h in
/-- The rewriting of the schemas in a level leaves the level as it is. -/
theorem level_updateEntries (henforce : KeepsType enforce) (hlevel : Level strictMode map) :
    Level strictMode map' := by
  have hentry : ∀ key, hasEntry map' key = hasEntry map key := fun _ =>
    hasEntry_updateEntries (nodup_visitedKeywords strictMode) h
  have htype : map'.lookup "type" = map.lookup "type" :=
    lookup_unvisited h (by cases strictMode <;> decide)
  constructor
  · constructor
    · constructor
      · intro hstrict key hkey
        rw [← hasEntry_eq_false_iff, hentry, hasEntry_eq_false_iff]
        exact hlevel.banned hstrict key hkey
      · rw [lookup_unvisited h (by cases strictMode <;> decide)]
        exact hlevel.format
    · intro hobject
      rw [isObjectSchema_iff, htype, hentry, hentry, hentry, ← isObjectSchema_iff] at hobject
      have hobject := hlevel.object hobject
      constructor
      · rw [hentry]
        exact hobject.type
      · rw [lookup_visited h (by cases strictMode <;> decide)]
        rcases hobject.additional with ⟨b, hb⟩ | ⟨props, hprops, htyped⟩
        · rw [hb]
          exact .inl ⟨b, rfl⟩
        · have hsome := hentry "additionalProperties"
          rw [hasEntry, hasEntry, lookup_visited h (by cases strictMode <;> decide), hprops,
            Option.bind_some] at hsome
          obtain ⟨value, hvalue⟩ := Option.isSome_iff_exists.mp hsome
          obtain ⟨props', rfl, htyped'⟩ := henforce props value hvalue
          rw [hprops, Option.bind_some, hvalue]
          exact .inr ⟨props', rfl, htyped' htyped⟩
      · rw [hentry]
        exact hobject.properties
      · rw [lookup_unvisited h (by cases strictMode <;> decide), requiredKeys_updateEntries h]
        exact hobject.required
    · rw [isArraySchema_iff, htype, hentry, ← isArraySchema_iff]
      exact hlevel.items
    · rw [hentry, hentry]
      exact hlevel.typed
  · rw [lookup_unvisited h (by cases strictMode <;> decide)]
    exact hlevel.nullable

include h in
theorem normal_updateEntries (henforce : KeepsType enforce)
    (hnormal : ∀ v w, enforce v = some w → Normal strictMode w) (hlevel : Level strictMode map) :
    Normal strictMode (.obj map') := by
  refine .obj (level_updateEntries h henforce hlevel) ?_ ?_
  · intro key hkey hnamed props hprops
    rw [lookup_visited h hkey] at hprops
    obtain ⟨value, -, hvalue⟩ := Option.bind_eq_some_iff.mp hprops
    unfold enforceKeyword at hvalue
    split at hvalue
    · rw [if_pos hnamed] at hvalue
      obtain ⟨props', hprops', heq⟩ := Option.map_eq_some_iff.mp hvalue
      cases heq
      intro property hproperty
      obtain ⟨entry, -, hentry⟩ := (mapM_entries hprops').2 property hproperty
      exact hnormal entry.2 _ hentry
    · rw [if_pos hnamed] at hvalue
      cases hvalue
    next hobj _ =>
      obtain rfl := Option.some.inj hvalue
      exact absurd rfl (hobj props)
  · intro key hkey hnamed value' hvalue'
    rw [lookup_visited h hkey] at hvalue'
    obtain ⟨value, -, hvalue⟩ := Option.bind_eq_some_iff.mp hvalue'
    unfold enforceKeyword at hvalue
    split at hvalue
    · rw [if_neg hnamed] at hvalue
      exact hnormal _ _ hvalue
    · rw [if_neg hnamed] at hvalue
      exact hnormal _ _ hvalue
    next hobj harr =>
      obtain rfl := Option.some.inj hvalue
      exact .leaf harr hobj

end Update

theorem hasEntry_insertEntry_of_hasEntry {other : String} (h : hasEntry map other = true) :
    hasEntry (insertEntry map key value) other = true := by
  rw [hasEntry_insertEntry, h, Bool.or_true]

theorem exists_normalizeAdditionalProperties {map' : Fields}
    (h : normalizeAdditionalProperties enforce map = some map') :
    ∃ value, map' = insertEntry map "additionalProperties" value := by
  unfold normalizeAdditionalProperties at h
  split at h
  next =>
    obtain ⟨value, -, rfl⟩ := Option.map_eq_some_iff.mp h
    exact ⟨value, rfl⟩
  next b hb =>
    obtain rfl := Option.some.inj h
    exact ⟨.bool b, (insertEntry_of_lookup hb).symm⟩
  next =>
    obtain rfl := Option.some.inj h
    exact ⟨_, rfl⟩

/-- Outside the strict mode entries are added only. -/
theorem hasEntry_normalizeTypes {map' : Fields} (h : normalizeTypes enforce map false = some map')
    (hkey : hasEntry map key = true) : hasEntry map' key = true := by
  obtain ⟨typed, htyped, rfl⟩ := Option.map_eq_some_iff.mp h
  simp only [normalizeStringFormatKeyword, normalizeArrayItems, Bool.false_and, if_neg,
    Bool.false_eq_true, not_false_eq_true] at htyped ⊢
  have htype : hasEntry (if isObjectSchema map && !hasEntry map "type" then
      insertEntry map "type" (.str "object") else map) key = true := by
    split_ifs
    · exact hasEntry_insertEntry_of_hasEntry hkey
    · exact hkey
  generalize (if isObjectSchema map && !hasEntry map "type" then
      insertEntry map "type" (.str "object") else map) = map₁ at htype htyped
  split_ifs at htyped
  · simp only [normalizeObject, Bool.false_and, if_neg, Bool.false_eq_true, not_false_eq_true,
      Option.bind_eq_bind] at htyped
    obtain ⟨map₂, hmap₂, htyped⟩ := Option.bind_eq_some_iff.mp htyped
    obtain rfl := Option.some.inj htyped
    obtain ⟨value, rfl⟩ := exists_normalizeAdditionalProperties hmap₂
    exact hasEntry_insertEntry_of_hasEntry htype
  · obtain rfl := Option.some.inj htyped
    exact htype

theorem exists_of_enforceStrictSchema_obj {n : ℕ} {w : Json}
    (h : enforceStrictSchema (n + 1) strictMode (.obj map) = some w) :
    ∃ prepared typed map', w = .obj map' ∧ preparedSchema strictMode n map = some prepared ∧
      normalizeTypes (enforceStrictSchema n strictMode) prepared strictMode = some typed ∧
      updateEntries (enforceKeyword (enforceStrictSchema n strictMode))
        (visitedKeywords strictMode) (normalizeNullable typed strictMode) = some map' := by
  rw [enforceStrictSchema_obj] at h
  obtain ⟨prepared, hprepared, h⟩ := Option.bind_eq_some_iff.mp h
  obtain ⟨typed, htyped, h⟩ := Option.bind_eq_some_iff.mp h
  obtain ⟨map', hmap', rfl⟩ := Option.map_eq_some_iff.mp h
  exact ⟨prepared, typed, map', rfl, hprepared, htyped, hmap'⟩

/-- Outside the strict mode no entry of an object is lost. -/
theorem keepsEntries_enforceStrictSchema : ∀ n props value,
    enforceStrictSchema n false (.obj props) = some value →
      ∃ props', value = .obj props' ∧ ∀ key, hasEntry props key = true →
        hasEntry props' key = true := by
  intro n props value h
  cases n with
  | zero => cases h
  | succ n =>
    obtain ⟨prepared, typed, map', rfl, hprepared, htyped, hmap'⟩ :=
      exists_of_enforceStrictSchema_obj h
    obtain rfl := Option.some.inj hprepared
    refine ⟨map', rfl, fun key hkey => ?_⟩
    rw [hasEntry_updateEntries (nodup_visitedKeywords false) hmap']
    exact hasEntry_normalizeTypes htyped hkey

theorem keepsType_enforceStrictSchema {n : ℕ}
    (hnormal : ∀ v w, enforceStrictSchema n strictMode v = some w → Normal strictMode w) :
    KeepsType (enforceStrictSchema n strictMode) := by
  intro props value h
  cases strictMode with
  | false =>
    obtain ⟨props', rfl, hentries⟩ := keepsEntries_enforceStrictSchema n props value h
    refine ⟨props', rfl, fun htyped => ?_⟩
    rw [typedAdditionalProperties_eq_self_iff] at htyped ⊢
    exact htyped.imp (hentries _) (Or.imp (hentries _) (Or.imp (hentries _) (hentries _)))
  | true =>
    cases n with
    | zero => cases h
    | succ n =>
      have hvalue := hnormal _ _ h
      obtain ⟨_, _, props', rfl, -⟩ := exists_of_enforceStrictSchema_obj h
      refine ⟨props', rfl, fun _ => ?_⟩
      -- a strict level has a type, or is put together
      rw [typedAdditionalProperties_eq_self_iff]
      cases hvalue with
      | leaf _ hobj => exact absurd rfl (hobj props')
      | obj hlevel _ _ => exact (hlevel.typed rfl).imp_right .inl

/-- Every schema that comes out is in the form. -/
theorem normal_of_enforceStrictSchema {n : ℕ} {v w : Json}
    (h : enforceStrictSchema n strictMode v = some w) : Normal strictMode w := by
  induction n generalizing v w with
  | zero => cases h
  | succ n ih =>
    cases v with
    | obj map =>
      obtain ⟨prepared, typed, map', rfl, hprepared, htyped, hmap'⟩ :=
        exists_of_enforceStrictSchema_obj h
      have henforce := keepsType_enforceStrictSchema fun _ _ => ih
      have hlevel := level_normalizeNullable
        (typed_normalizeTypes henforce (banned_of_preparedSchema hprepared) htyped)
      exact normal_updateEntries hmap' henforce (fun _ _ => ih) hlevel
    | arr items =>
      obtain ⟨items', hitems', rfl⟩ := Option.map_eq_some_iff.mp h
      refine .arr fun item hitem => ?_
      obtain ⟨v, -, hv⟩ := exists_of_forall₂_right (forall₂_of_mapM_some hitems') hitem
      exact ih hv
    | _ =>
      obtain rfl := Option.some.inj h
      exact .leaf (fun _ h => by cases h) fun _ h => by cases h

end Level

end StrictSchema

end HeliosLite
