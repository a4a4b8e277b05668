import HeliosLite.Schema.StrictMerging
import HeliosLite.Theory.Entries

/-!
# One level of a strict schema

What the rewriting makes of the keywords of one level of a schema, before it goes into the
schemas in it: in the strict mode nothing is left that is not taken, the level has a type or is put
together, and an object and an array have what belongs to them.

## Main definitions

* `Level` — a level that the rewriting leaves alone
* `preparedSchema` — the schema as its levels are looked at

## Main results

* `normalizeSchemaKeywords_eq` — the schemas in a level are rewritten key by key
* `typed_normalizeTypes`, `level_normalizeNullable` — what a level is afterwards
-/

namespace HeliosLite

namespace StrictSchema

open Serde Theory

/-! ### The keywords that hold schemas -/

/-- The keywords whose schemas are rewritten. -/
def visitedKeywords (strictMode : Bool) : List String :=
  ["properties", "items", "additionalProperties", "allOf", "anyOf"] ++
    if strictMode then []
    else ["$defs", "definitions", "patternProperties", "oneOf", "prefixItems", "contains", "not",
      "if", "then", "else"]

theorem nodup_visitedKeywords (strictMode : Bool) : (visitedKeywords strictMode).Nodup := by
  cases strictMode <;> decide

/-- The value of a keyword after its schemas were rewritten. -/
def enforceKeyword (enforce : Json → Option Json) (key : String) (value : Json) : Option Json :=
  match value with
  | .obj map =>
    if key ∈ namedKeywords then
      (map.mapM fun entry => (enforce entry.2).map (Prod.mk entry.1)).map .obj
    else enforce (.obj map)
  | .arr items => if key ∈ namedKeywords then some (.arr items) else enforce (.arr items)
  | value => some value

section Keywords

variable {enforce : Json → Option Json} {map : Fields} {key : String}

theorem normalizeNamedSchemaKeyword_eq (hkey : key ∈ namedKeywords) :
    normalizeNamedSchemaKeyword enforce map key =
      updateEntry (enforceKeyword enforce key) map key := by
  unfold normalizeNamedSchemaKeyword updateEntry
  cases hvalue : map.lookup key with
  | none => rfl
  | some value =>
    cases value <;> simp [enforceKeyword, hkey, insertEntry_of_lookup hvalue, Function.comp_def]

theorem normalizeSchemaKeyword_eq (hkey : key ∉ namedKeywords) :
    normalizeSchemaKeyword enforce map key = updateEntry (enforceKeyword enforce key) map key := by
  unfold normalizeSchemaKeyword updateEntry
  cases hvalue : map.lookup key with
  | none => rfl
  | some value => cases value <;> simp [enforceKeyword, hkey, insertEntry_of_lookup hvalue]

theorem normalizeSchemaKeywords_eq (strictMode : Bool) :
    normalizeSchemaKeywords enforce map strictMode =
      updateEntries (enforceKeyword enforce) (visitedKeywords strictMode) map := by
  have hnamed : ∀ keys : List String, (∀ key ∈ keys, key ∈ namedKeywords) → ∀ map : Fields,
      keys.foldlM (normalizeNamedSchemaKeyword enforce) map =
        updateEntries (enforceKeyword enforce) keys map := fun keys hkeys map =>
    foldlM_eq_updateEntries fun key hkey map => normalizeNamedSchemaKeyword_eq (hkeys key hkey)
  have hschemas : ∀ keys : List String, (∀ key ∈ keys, key ∉ namedKeywords) → ∀ map : Fields,
      keys.foldlM (normalizeSchemaKeyword enforce) map =
        updateEntries (enforceKeyword enforce) keys map := fun keys hkeys map =>
    foldlM_eq_updateEntries fun key hkey map => normalizeSchemaKeyword_eq (hkeys key hkey)
  unfold normalizeSchemaKeywords
  simp only [normalizeNamedSchemaKeyword_eq (show "properties" ∈ namedKeywords by decide)]
  rw [visitedKeywords, List.cons_append, updateEntries_cons]
  refine congrArg _ (funext fun map => ?_)
  simp only [updateEntries_append]
  rw [hschemas _ (by decide)]
  refine congrArg _ (funext fun map => ?_)
  split_ifs
  · rfl
  · have hsplit : ["$defs", "definitions", "patternProperties", "oneOf", "prefixItems", "contains",
        "not", "if", "then", "else"] = ["$defs", "definitions", "patternProperties"] ++
          ["oneOf", "prefixItems", "contains", "not", "if", "then", "else"] := rfl
    rw [hnamed _ (by decide), hsplit, updateEntries_append]
    exact congrArg _ (funext fun map => hschemas _ (by decide) map)

end Keywords

/-! ### One level -/

/-- The keywords that no strict schema has. -/
def bannedKeywords : List String := "allOf" :: "oneOf" :: "const" :: removedKeywords

/-- Nothing is left that is not taken. -/
structure Cleared (strictMode : Bool) (map : Fields) : Prop where
  banned : strictMode = true → ∀ key ∈ bannedKeywords, map.lookup key = none
  format : strictMode = true → ∀ format, (map.lookup "format").bind asStr = some format →
    isSupportedOpenaiStringFormat format = true

/-- What an object says. -/
structure ObjectLevel (strictMode : Bool) (map : Fields) : Prop where
  type : hasEntry map "type" = true
  additional : (∃ b, map.lookup "additionalProperties" = some (.bool b)) ∨
    ∃ props, map.lookup "additionalProperties" = some (.obj props) ∧
      typedAdditionalProperties props = props
  properties : strictMode = true → hasEntry map "properties" = true
  required : strictMode = true →
    map.lookup "required" = some (.arr ((requiredKeys map).map .str))

/-- A level that has its type, and what belongs to it. -/
structure Typed (strictMode : Bool) (map : Fields) : Prop extends Cleared strictMode map where
  object : isObjectSchema map = true → ObjectLevel strictMode map
  items : strictMode = true → isArraySchema map = true → hasEntry map "items" = true
  typed : strictMode = true → hasEntry map "type" = true ∨ hasEntry map "anyOf" = true

/-- A level that the rewriting leaves alone. -/
structure Level (strictMode : Bool) (map : Fields) : Prop extends Typed strictMode map where
  nullable : strictMode = true → map.lookup "nullable" ≠ some (.bool true)

section Level

variable {strictMode : Bool} {map : Fields} {key : String} {value : Json}

theorem isObjectSchema_iff :
    isObjectSchema map = true ↔ (map.lookup "type").bind asStr = some "object" ∨
      hasEntry map "properties" = true ∨ hasEntry map "required" = true ∨
        hasEntry map "additionalProperties" = true := by
  simp [isObjectSchema, or_assoc]

theorem isArraySchema_iff :
    isArraySchema map = true ↔
      (map.lookup "type").bind asStr = some "array" ∨ hasEntry map "items" = true := by
  simp [isArraySchema]

theorem Cleared.insertEntry (h : Cleared strictMode map) (hkey : key ∉ bannedKeywords)
    (hformat : key ≠ "format") : Cleared strictMode (insertEntry map key value) where
  banned hstrict other hother := by
    rw [lookup_insertEntry_of_ne (ne_of_mem_of_not_mem hother hkey)]
    exact h.banned hstrict other hother
  format hstrict := by
    rw [lookup_insertEntry_of_ne hformat.symm]
    exact h.format hstrict

theorem Cleared.removeEntry (h : Cleared strictMode map) :
    Cleared strictMode (removeEntry map key) where
  banned hstrict other hother := by
    rw [lookup_removeEntry, h.banned hstrict other hother, ite_self]
  format hstrict format hformat := by
    rw [lookup_removeEntry] at hformat
    split_ifs at hformat
    · cases hformat
    · exact h.format hstrict format hformat

theorem lookup_normalizeStringFormatKeyword (hne : key ≠ "format") :
    (normalizeStringFormatKeyword map strictMode).lookup key = map.lookup key := by
  unfold normalizeStringFormatKeyword
  split_ifs
  · split
    · split_ifs
      · rfl
      · rw [lookup_removeEntry, if_neg hne]
    · rfl
  · rfl

/-- A format that is not taken is removed. -/
theorem cleared_normalizeStringFormatKeyword
    (h : strictMode = true → ∀ key ∈ bannedKeywords, map.lookup key = none) :
    Cleared strictMode (normalizeStringFormatKeyword map strictMode) where
  banned hstrict key hkey := by
    rw [lookup_normalizeStringFormatKeyword (ne_of_mem_of_not_mem hkey (by decide))]
    exact h hstrict key hkey
  format hstrict format hformat := by
    unfold normalizeStringFormatKeyword at hformat
    rw [if_pos hstrict] at hformat
    split at hformat
    next other hother =>
      split_ifs at hformat with hsupported
      · rw [hother] at hformat
        cases hformat
        exact hsupported
      · rw [lookup_removeEntry, if_pos rfl] at hformat
        cases hformat
    next hnone =>
      rw [hnone] at hformat
      cases hformat

variable {enforce : Json → Option Json}

/-- Rewriting gives an object from an object, and one with a type from one with a type. -/
def KeepsType (enforce : Json → Option Json) : Prop :=
  ∀ props value, enforce (.obj props) = some value →
    ∃ props', value = .obj props' ∧
      (typedAdditionalProperties props = props → typedAdditionalProperties props' = props')

theorem typedAdditionalProperties_eq_self_iff :
    typedAdditionalProperties map = map ↔ hasEntry map "type" = true ∨ hasEntry map "anyOf" = true ∨
      hasEntry map "oneOf" = true ∨ hasEntry map "allOf" = true := by
  unfold typedAdditionalProperties
  dsimp only
  split_ifs with h
  · constructor
    · intro heq
      rw [← heq, hasEntry_insertEntry, decide_eq_true rfl]
      exact .inl rfl
    · grind
  · grind

theorem typedAdditionalProperties_twice :
    typedAdditionalProperties (typedAdditionalProperties map) = typedAdditionalProperties map := by
  rw [typedAdditionalProperties_eq_self_iff]
  unfold typedAdditionalProperties
  dsimp only
  split_ifs with h
  · exact .inl (by rw [hasEntry_insertEntry, decide_eq_true rfl, Bool.true_or])
  · grind

theorem normalizeAdditionalProperties_spec (henforce : KeepsType enforce) {map' : Fields}
    (h : normalizeAdditionalProperties enforce map = some map') :
    (∃ value, map' = insertEntry map "additionalProperties" value ∧
      ((∃ b, value = .bool b) ∨
        ∃ props, value = .obj props ∧ typedAdditionalProperties props = props)) := by
  unfold normalizeAdditionalProperties at h
  split at h
  next props hprops =>
    obtain ⟨value, hvalue, rfl⟩ := Option.map_eq_some_iff.mp h
    obtain ⟨props', rfl, htyped⟩ := henforce _ _ hvalue
    exact ⟨_, rfl, .inr ⟨props', rfl, htyped typedAdditionalProperties_twice⟩⟩
  next b hb =>
    obtain rfl := Option.some.inj h
    exact ⟨.bool b, (insertEntry_of_lookup hb).symm, .inl ⟨b, rfl⟩⟩
  next =>
    obtain rfl := Option.some.inj h
    exact ⟨_, rfl, .inl ⟨false, rfl⟩⟩

theorem normalizeObject_spec (henforce : KeepsType enforce) (hclear : Cleared strictMode map)
    (htype : hasEntry map "type" = true) {map' : Fields}
    (h : normalizeObject enforce map strictMode = some map') :
    Cleared strictMode map' ∧ ObjectLevel strictMode map' := by
  obtain ⟨map₁, hmap₁, hclear₁, htype₁, hproperties₁⟩ : ∃ map₁,
      (if strictMode && !hasEntry map "properties" then insertEntry map "properties" (.obj [])
        else map) = map₁ ∧ Cleared strictMode map₁ ∧ hasEntry map₁ "type" = true ∧
        (strictMode = true → hasEntry map₁ "properties" = true) := by
    refine ⟨_, rfl, ?_⟩
    split_ifs with hadd
    · refine ⟨hclear.insertEntry (by decide) (by decide), ?_, fun _ => ?_⟩
      · rw [hasEntry_insertEntry, htype, Bool.or_true]
      · rw [hasEntry_insertEntry, decide_eq_true rfl, Bool.true_or]
    · exact ⟨hclear, htype, fun hstrict => by simpa [hstrict] using hadd⟩
  simp only [normalizeObject, hmap₁, Option.bind_eq_bind] at h
  obtain ⟨map₂, hmap₂, h⟩ := Option.bind_eq_some_iff.mp h
  obtain ⟨value, rfl, hvalue⟩ := normalizeAdditionalProperties_spec henforce hmap₂
  have hclear₂ : Cleared strictMode (insertEntry map₁ "additionalProperties" value) :=
    hclear₁.insertEntry (by decide) (by decide)
  have hlookup : ∀ keys : List String, (insertEntry (insertEntry map₁ "additionalProperties" value)
      "required" (.arr (keys.map .str))).lookup "additionalProperties" = some value := by
    intro keys
    rw [lookup_insertEntry_of_ne (by decide), lookup_insertEntry_self]
  obtain rfl := Option.some.inj h
  split_ifs with hstrict
  · refine ⟨hclear₂.insertEntry (by decide) (by decide), ?_, ?_, fun _ => ?_, fun _ => ?_⟩
    · simp only [hasEntry_insertEntry, htype₁, Bool.or_true]
    · simp only [hlookup, Option.some.injEq]
      exact hvalue
    · simp only [hasEntry_insertEntry, hproperties₁ hstrict, Bool.or_true]
    · rw [lookup_insertEntry_self, requiredKeys, requiredKeys,
        lookup_insertEntry_of_ne (show "properties" ≠ "required" by decide)]
  · refine ⟨hclear₂, ?_, ?_, fun h => absurd h hstrict, fun h => absurd h hstrict⟩
    · simp only [hasEntry_insertEntry, htype₁, Bool.or_true]
    · simp only [lookup_insertEntry_self, Option.some.injEq]
      exact hvalue

/-- The default for the items of an array leaves all else as it is. -/
theorem typed_normalizeArrayItems (hclear : Cleared strictMode map)
    (hobject : isObjectSchema map = true → ObjectLevel strictMode map)
    (htyped : strictMode = true → hasEntry map "type" = true ∨ hasEntry map "anyOf" = true) :
    Typed strictMode (normalizeArrayItems map strictMode) := by
  unfold normalizeArrayItems
  split_ifs with hadd
  · refine ⟨hclear.insertEntry (by decide) (by decide), fun hobj => ?_, fun _ _ => ?_,
      fun hstrict => ?_⟩
    · have hobject := hobject (by
        simpa [isObjectSchema_iff, hasEntry_insertEntry, lookup_insertEntry] using hobj)
      refine ⟨?_, ?_, fun hstrict => ?_, fun hstrict => ?_⟩
      · rw [hasEntry_insertEntry, hobject.type, Bool.or_true]
      · rw [lookup_insertEntry_of_ne (by decide)]
        exact hobject.additional
      · rw [hasEntry_insertEntry, hobject.properties hstrict, Bool.or_true]
      · rw [lookup_insertEntry_of_ne (by decide), hobject.required hstrict, requiredKeys,
          requiredKeys, lookup_insertEntry_of_ne (show "properties" ≠ "items" by decide)]
    · rw [hasEntry_insertEntry, decide_eq_true rfl, Bool.true_or]
    · simp only [hasEntry_insertEntry, Bool.or_eq_true]
      exact (htyped hstrict).imp .inr .inr
  · exact ⟨hclear, hobject, fun hstrict harray => by simpa [hstrict, harray] using hadd, htyped⟩

theorem typed_normalizeTypes (henforce : KeepsType enforce)
    (h : strictMode = true → ∀ key ∈ bannedKeywords, map.lookup key = none) {map' : Fields}
    (hmap' : normalizeTypes enforce map strictMode = some map') : Typed strictMode map' := by
  have hclear := cleared_normalizeStringFormatKeyword h
  unfold normalizeTypes at hmap'
  generalize normalizeStringFormatKeyword map strictMode = map at hclear hmap'
  cases hobject : isObjectSchema map with
  | true =>
    have htype : ∃ map₁, (if !hasEntry map "type" then insertEntry map "type" (.str "object")
        else map) = map₁ ∧ Cleared strictMode map₁ ∧ hasEntry map₁ "type" = true := by
      refine ⟨_, rfl, ?_⟩
      split_ifs with hadd
      · refine ⟨hclear.insertEntry (by decide) (by decide), ?_⟩
        rw [hasEntry_insertEntry, decide_eq_true rfl, Bool.true_or]
      · exact ⟨hclear, by simpa using hadd⟩
    obtain ⟨map₁, hmap₁, hclear₁, htype₁⟩ := htype
    simp only [hobject, Bool.true_and, hmap₁, if_true] at hmap'
    obtain ⟨map₂, hmap₂, rfl⟩ := Option.map_eq_some_iff.mp hmap'
    obtain ⟨hclear₂, hobject₂⟩ := normalizeObject_spec henforce hclear₁ htype₁ hmap₂
    exact typed_normalizeArrayItems hclear₂ (fun _ => hobject₂) fun _ => .inl hobject₂.type
  | false =>
    simp only [hobject, Bool.false_and, Bool.false_eq_true, if_false] at hmap'
    split_ifs at hmap' with hadd
    · obtain rfl := Option.some.inj hmap'
      refine typed_normalizeArrayItems (hclear.insertEntry (by decide) (by decide)) ?_ ?_
      · intro hobj
        -- a new type is that of a string
        simp only [isObjectSchema_iff, hasEntry_insertEntry, lookup_insertEntry_self,
          Option.bind_some, asStr] at hobj
        have hobj : isObjectSchema map = true := isObjectSchema_iff.mpr (.inr (by simpa using hobj))
        rw [hobject] at hobj
        cases hobj
      · intro _
        left
        rw [hasEntry_insertEntry, decide_eq_true rfl, Bool.true_or]
    · obtain rfl := Option.some.inj hmap'
      refine typed_normalizeArrayItems hclear (fun hobj => ?_) fun hstrict => ?_
      · rw [hobject] at hobj
        cases hobj
      · have hallOf := hclear.banned hstrict "allOf" List.mem_cons_self
        rw [← hasEntry_eq_false_iff] at hallOf
        rw [hallOf, hstrict] at hadd
        grind

/-- The keywords that decide whether a level has its type. -/
def typeKeywords : List String :=
  ["type", "properties", "required", "additionalProperties", "items", "anyOf"]

theorem Typed.congr (h : Typed strictMode map) {map' : Fields} (hclear : Cleared strictMode map')
    (hlookup : ∀ key ∈ typeKeywords, map'.lookup key = map.lookup key) :
    Typed strictMode map' := by
  have hentry : ∀ key ∈ typeKeywords, hasEntry map' key = hasEntry map key := by
    intro key hkey
    rw [hasEntry, hasEntry, hlookup key hkey]
  have htype := hlookup "type" (by decide)
  have hkeys : requiredKeys map' = requiredKeys map := by
    rw [requiredKeys, requiredKeys, hlookup "properties" (by decide)]
  refine ⟨hclear, fun hobj => ?_, fun hstrict harray => ?_, fun hstrict => ?_⟩
  · have hobject : ObjectLevel strictMode map := by
      refine h.object ?_
      rwa [isObjectSchema_iff, htype, hentry "properties" (by decide),
        hentry "required" (by decide),
        hentry "additionalProperties" (by decide), ← isObjectSchema_iff] at hobj
    constructor
    · rw [hentry "type" (by decide)]
      exact hobject.type
    · rw [hlookup "additionalProperties" (by decide)]
      exact hobject.additional
    · rw [hentry "properties" (by decide)]
      exact hobject.properties
    · rw [hlookup "required" (by decide), hkeys]
      exact hobject.required
  · rw [isArraySchema_iff, htype, hentry "items" (by decide), ← isArraySchema_iff] at harray
    rw [hentry "items" (by decide)]
    exact h.items hstrict harray
  · rw [hentry "type" (by decide), hentry "anyOf" (by decide)]
    exact h.typed hstrict

/-- A choice between a schema and null. -/
def nullableSchema (description branch : Fields) : Fields :=
  description ++ [("anyOf", .arr [.obj branch, .obj [("type", .str "null")]])]

section Nullable

variable {description branch : Fields}
  (hdescription : ∀ entry ∈ description, entry.1 = "description")

include hdescription in
theorem lookup_nullableSchema (hne : key ≠ "description") (hne' : key ≠ "anyOf") :
    (nullableSchema description branch).lookup key = none := by
  rw [List.lookup_eq_none_iff]
  intro entry hentry
  rcases List.mem_append.mp hentry with hmem | hmem
  · rwa [hdescription entry hmem, bne_iff_ne]
  · rwa [List.mem_singleton.mp hmem, bne_iff_ne]

include hdescription in
theorem lookup_anyOf_nullableSchema :
    (nullableSchema description branch).lookup "anyOf" =
      some (.arr [.obj branch, .obj [("type", .str "null")]]) := by
  rw [nullableSchema, List.lookup_append, List.lookup_eq_none_iff.mpr, Option.none_or]
  · rfl
  · intro entry hentry
    rw [hdescription entry hentry]
    rfl

include hdescription in
theorem level_nullableSchema : Level strictMode (nullableSchema description branch) := by
  have hnone : ∀ key : String, key ≠ "description" → key ≠ "anyOf" →
      (nullableSchema description branch).lookup key = none := fun _ =>
    lookup_nullableSchema hdescription
  have hentry : ∀ key : String, key ≠ "description" → key ≠ "anyOf" →
      hasEntry (nullableSchema description branch) key = false := fun key hne hne' =>
    hasEntry_eq_false_iff.mpr (hnone key hne hne')
  constructor
  · constructor
    · constructor
      · intro _ key hkey
        exact hnone key (ne_of_mem_of_not_mem hkey (by decide))
          (ne_of_mem_of_not_mem hkey (by decide))
      · intro _ format hformat
        rw [hnone "format" (by decide) (by decide)] at hformat
        cases hformat
    · intro hobj
      rw [isObjectSchema_iff, hnone "type" (by decide) (by decide),
        hentry "properties" (by decide) (by decide), hentry "required" (by decide) (by decide),
        hentry "additionalProperties" (by decide) (by decide)] at hobj
      simp at hobj
    · intro _ harray
      rw [isArraySchema_iff, hnone "type" (by decide) (by decide),
        hentry "items" (by decide) (by decide)] at harray
      simp at harray
    · exact fun _ => .inr (hasEntry_iff.mpr ⟨_, lookup_anyOf_nullableSchema hdescription⟩)
  · intro _
    rw [hnone "nullable" (by decide) (by decide)]
    exact (Option.some_ne_none _).symm

end Nullable

theorem lookup_retainNonNull (hne : key ≠ "enum") :
    (retainNonNull map).lookup key = map.lookup key := by
  unfold retainNonNull
  split
  · exact lookup_insertEntry_of_ne hne
  · rfl

theorem mem_retainNonNull {entry : String × Json} (h : entry ∈ retainNonNull map) :
    entry.1 = "enum" ∨ entry ∈ map := by
  unfold retainNonNull at h
  split at h
  · exact (mem_insertEntry h).imp_left fun heq => by rw [heq]
  · exact .inr h

theorem Cleared.retainNonNull (h : Cleared strictMode map) :
    Cleared strictMode (retainNonNull map) := by
  unfold StrictSchema.retainNonNull
  split
  · exact h.insertEntry (by decide) (by decide)
  · exact h

/-- A schema that may be null is put together from one that may not. -/
theorem normalizeNullable_spec (h : Typed strictMode map) :
    (Level strictMode map ∧ normalizeNullable map strictMode = map) ∨ ∃ description branch,
      normalizeNullable map strictMode = nullableSchema description branch ∧
        Level strictMode branch ∧
        (∀ entry ∈ description, entry.1 = "description") ∧
        (∀ entry ∈ branch, entry.1 = "enum" ∨ entry ∈ map) ∧
        branch.lookup "additionalProperties" = map.lookup "additionalProperties" := by
  unfold normalizeNullable
  split_ifs with hnullable
  · right
    have hlookup : ∀ key ∈ typeKeywords,
        (removeEntry (retainNonNull (removeEntry map "nullable")) "description").lookup key =
          map.lookup key := by
      intro key hkey
      rw [lookup_removeEntry, if_neg (ne_of_mem_of_not_mem hkey (by decide)),
        lookup_retainNonNull (ne_of_mem_of_not_mem hkey (by decide)),
        lookup_removeEntry, if_neg (ne_of_mem_of_not_mem hkey (by decide))]
    refine ⟨_, _, rfl, ⟨h.congr ?_ hlookup, fun _ => ?_⟩, ?_, ?_, hlookup _ (by decide)⟩
    · exact h.toCleared.removeEntry.retainNonNull.removeEntry
    · rw [lookup_removeEntry, if_neg (by decide), lookup_retainNonNull (by decide),
        lookup_removeEntry, if_pos rfl]
      exact (Option.some_ne_none _).symm
    · intro entry hentry
      obtain ⟨value, -, rfl⟩ := Option.map_eq_some_iff.mp (Option.mem_toList.mp hentry)
      rfl
    · intro entry hentry
      exact (mem_retainNonNull (List.mem_of_mem_filter hentry)).imp_right List.mem_of_mem_filter
  · left
    refine ⟨⟨h, fun hstrict hvalue => hnullable ?_⟩, rfl⟩
    rw [hstrict, hvalue]
    rfl

theorem level_normalizeNullable (h : Typed strictMode map) :
    Level strictMode (normalizeNullable map strictMode) := by
  rcases normalizeNullable_spec h with ⟨hlevel, heq⟩ | ⟨_, _, heq, -, hdescription, -⟩
  · rwa [heq]
  · rw [heq]
    exact level_nullableSchema hdescription

/-! ### What a strict schema has not -/

/-- A strict schema without `allOf` after its other keywords were looked at. -/
def clearKeywords (map : Fields) : Fields :=
  normalizeOneOfKeyword (normalizeOpenaiSchemaSubsetKeywords map) true

theorem lookup_normalizeOpenaiSchemaSubsetKeywords (hne : key ≠ "enum") :
    (normalizeOpenaiSchemaSubsetKeywords map).lookup key =
      if key ∈ "const" :: removedKeywords then none else map.lookup key := by
  have hremoved : (removeEntry (removedKeywords.foldl removeEntry map) "const").lookup key =
      if key ∈ "const" :: removedKeywords then none else map.lookup key := by
    rw [lookup_removeEntry, lookup_foldl_removeEntry]
    by_cases hconst : key = "const" <;> simp [hconst]
  unfold normalizeOpenaiSchemaSubsetKeywords
  dsimp only
  rw [← hremoved]
  split
  next =>
    split_ifs
    · rfl
    · exact lookup_insertEntry_of_ne hne
  next hnone => rw [removeEntry_of_lookup hnone]

theorem lookup_normalizeOneOfKeyword (hne : key ≠ "anyOf") :
    (normalizeOneOfKeyword map true).lookup key =
      if key = "oneOf" then none else map.lookup key := by
  unfold normalizeOneOfKeyword
  rw [if_pos rfl]
  split
  next oneOf _ =>
    dsimp only
    split
    · split <;> rw [lookup_insertEntry_of_ne hne, lookup_removeEntry]
    · rw [lookup_insertEntry_of_ne hne, lookup_removeEntry]
  next hnone =>
    split_ifs with hkey
    · rw [hkey, hnone]
    · rfl

theorem lookup_clearKeywords (hallOf : map.lookup "allOf" = none) (hkey : key ∈ bannedKeywords) :
    (clearKeywords map).lookup key = none := by
  rw [clearKeywords, lookup_normalizeOneOfKeyword (ne_of_mem_of_not_mem hkey (by decide)),
    lookup_normalizeOpenaiSchemaSubsetKeywords (ne_of_mem_of_not_mem hkey (by decide))]
  rw [bannedKeywords, List.mem_cons, List.mem_cons] at hkey
  rcases hkey with rfl | rfl | hkey
  · rw [hallOf, ite_self, ite_self]
  · rw [if_pos rfl]
  · rw [if_pos hkey, ite_self]

theorem clearKeywords_of_banned (h : ∀ key ∈ bannedKeywords, map.lookup key = none) :
    clearKeywords map = map := by
  have hopenai : normalizeOpenaiSchemaSubsetKeywords map = map := by
    have hremoved : removedKeywords.foldl removeEntry map = map :=
      foldl_removeEntry_of_lookup fun key hkey =>
        h key (List.mem_cons_of_mem _ (List.mem_cons_of_mem _ (List.mem_cons_of_mem _ hkey)))
    unfold normalizeOpenaiSchemaSubsetKeywords
    simp only [hremoved, h "const" (by decide)]
  rw [clearKeywords, hopenai, normalizeOneOfKeyword, if_pos rfl, h "oneOf" (by decide)]

/-- The schema as its levels are looked at. -/
def preparedSchema (strictMode : Bool) (n : ℕ) (map : Fields) : Option Fields :=
  if strictMode then (flattenAllOfSchema n map).map clearKeywords else some map

theorem enforceStrictSchema_obj (n : ℕ) :
    enforceStrictSchema (n + 1) strictMode (.obj map) =
      (preparedSchema strictMode n map).bind fun map =>
        (normalizeTypes (enforceStrictSchema n strictMode) map strictMode).bind fun map =>
          (updateEntries (enforceKeyword (enforceStrictSchema n strictMode))
            (visitedKeywords strictMode) (normalizeNullable map strictMode)).map .obj := by
  simp only [enforceStrictSchema, normalizeSchemaKeywords_eq, preparedSchema, Option.bind_eq_bind]
  cases strictMode <;> rfl

theorem exists_computes_preparedSchema (map : Fields) :
    ∃ prepared, Computes (fun n => preparedSchema strictMode n map) prepared ∧
      (strictMode = true → ∀ key ∈ bannedKeywords, prepared.lookup key = none) := by
  cases strictMode with
  | false => exact ⟨map, computes_const, fun h => by cases h⟩
  | true =>
    obtain ⟨flat, hflat, -, hallOf, -⟩ := exists_computes_flattenAllOfSchema map
    exact ⟨_, hflat.option_map, fun _ key => lookup_clearKeywords hallOf⟩

theorem banned_of_preparedSchema {n : ℕ} {prepared : Fields}
    (h : preparedSchema strictMode n map = some prepared) (hstrict : strictMode = true) :
    ∀ key ∈ bannedKeywords, prepared.lookup key = none := by
  obtain ⟨prepared', hprepared', hbanned⟩ := exists_computes_preparedSchema map
  rw [hprepared'.unique h]
  exact hbanned hstrict

end Level

end StrictSchema

end HeliosLite
