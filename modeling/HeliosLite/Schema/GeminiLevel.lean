import HeliosLite.Schema.Gemini

/-!
# One level of a sanitized schema

What stands under a keyword after one level of a schema was rewritten. All of it is said of the
level as it came in: its type after a list of types was taken apart, its choice, and the branch
that is merged into it when null is the only other one.

## Main definitions

* `choiceOf`, `mergedBranch` — what is read off a level
* `Settled` — a level that is not changed

## Main results

* `lookup_sanitizeTypes_of_merged`, `lookup_sanitizeTypes` — what is found afterwards
-/

namespace HeliosLite

namespace GeminiSchema

open Serde Theory
open StrictSchema (Fields asStr)

variable {map : Fields} {key : String} {value : Json}

/-! ### The keywords of the level itself -/

/-- The keywords that are left nowhere. -/
def bannedKeywords : List String :=
  "exclusiveMinimum" :: "exclusiveMaximum" :: "const" :: removedKeywords

theorem lookup_moveBound {exclusive inclusive : String} (hkey : key ≠ inclusive) :
    (moveBound map exclusive inclusive).lookup key =
      if key = exclusive then none else map.lookup key := by
  unfold moveBound
  split
  next =>
    dsimp only
    split_ifs with hentry hkey'
    · rw [lookup_removeEntry, if_pos hkey']
    · rw [lookup_removeEntry, if_neg hkey']
    · rw [lookup_insertEntry_of_ne hkey, lookup_removeEntry, if_pos ‹_›]
    · rw [lookup_insertEntry_of_ne hkey, lookup_removeEntry, if_neg ‹_›]
  next hnone =>
    split_ifs with hkey'
    · rw [hkey', hnone]
    · rfl

theorem lookup_normalizeGeminiSchemaSubsetKeywords (hmin : key ≠ "minimum")
    (hmax : key ≠ "maximum") :
    (normalizeGeminiSchemaSubsetKeywords map).lookup key =
      if key ∈ "exclusiveMinimum" :: "exclusiveMaximum" :: removedKeywords then none
      else map.lookup key := by
  rw [normalizeGeminiSchemaSubsetKeywords, lookup_foldl_removeEntry, lookup_moveBound hmax,
    lookup_moveBound hmin]
  by_cases hmin' : key = "exclusiveMinimum"
  · simp [hmin']
  · by_cases hmax' : key = "exclusiveMaximum" <;> simp [hmin', hmax']

theorem lookup_convertConst (hkey : key ≠ "enum") :
    (convertConst map).lookup key = if key = "const" then none else map.lookup key := by
  unfold convertConst
  split
  next =>
    dsimp only
    split_ifs with hentry hkey'
    · rw [lookup_removeEntry, if_pos hkey']
    · rw [lookup_removeEntry, if_neg hkey']
    · rw [lookup_insertEntry_of_ne hkey, lookup_removeEntry, if_pos ‹_›]
    · rw [lookup_insertEntry_of_ne hkey, lookup_removeEntry, if_neg ‹_›]
  next hnone =>
    split_ifs with hkey'
    · rw [hkey', hnone]
    · rfl

/-! ### Lists of types -/

/-- The choice of a level: that between several types, or its own. -/
def choiceOf (map : Fields) : Option Json :=
  match map.lookup "type" with
  | some (.arr types) =>
    match nonNullTypes types with
    | type :: other :: types =>
      some (.arr ((type :: other :: types).map fun type => .obj [("type", type)]))
    | _ => map.lookup "anyOf"
  | _ => map.lookup "anyOf"

theorem lookup_setNullable {hasNull : Bool} (hkey : key ≠ "nullable") :
    (setNullable map hasNull).lookup key = map.lookup key := by
  unfold setNullable
  split_ifs
  · exact lookup_insertEntry_of_ne hkey
  · rfl

theorem lookup_anyOf_convertTypes : (convertTypes map).lookup "anyOf" = choiceOf map := by
  simp only [convertTypes, choiceOf]
  cases htype : map.lookup "type" with
  | none => rfl
  | some type =>
    cases type with
    | arr types =>
      dsimp only
      rcases nonNullTypes types with _ | ⟨type, _ | ⟨other, types⟩⟩
      · rw [lookup_insertEntry_of_ne (by decide), lookup_removeEntry, if_neg (by decide)]
      · rw [lookup_setNullable (by decide), lookup_insertEntry_of_ne (by decide),
          lookup_removeEntry, if_neg (by decide)]
      · exact (lookup_setNullable (by decide)).trans lookup_insertEntry_self
    | _ => rfl

theorem lookup_convertTypes (htype : key ≠ "type") (hanyOf : key ≠ "anyOf")
    (hnullable : key ≠ "nullable") : (convertTypes map).lookup key = map.lookup key := by
  unfold convertTypes
  split
  next types _ =>
    dsimp only
    split
    · rw [lookup_insertEntry_of_ne htype, lookup_removeEntry, if_neg htype]
    · rw [lookup_setNullable hnullable, lookup_insertEntry_of_ne htype, lookup_removeEntry,
        if_neg htype]
    · rw [lookup_setNullable hnullable, lookup_insertEntry_of_ne hanyOf, lookup_removeEntry,
        if_neg htype]
  next => rfl

/-! ### The level before its types are looked at -/

theorem lookup_type_own :
    (convertConst (normalizeGeminiSchemaSubsetKeywords map)).lookup "type" = map.lookup "type" := by
  rw [lookup_convertConst (by decide), if_neg (by decide),
    lookup_normalizeGeminiSchemaSubsetKeywords (by decide) (by decide), if_neg (by decide)]

theorem lookup_anyOf_own :
    (convertConst (normalizeGeminiSchemaSubsetKeywords map)).lookup "anyOf" =
      map.lookup "anyOf" := by
  rw [lookup_convertConst (by decide), if_neg (by decide),
    lookup_normalizeGeminiSchemaSubsetKeywords (by decide) (by decide), if_neg (by decide)]

/-- The level without what is not taken, and without a list of types. -/
def ownKeywords (map : Fields) : Fields :=
  convertTypes (convertConst (normalizeGeminiSchemaSubsetKeywords map))

theorem lookup_anyOf_ownKeywords : (ownKeywords map).lookup "anyOf" = choiceOf map := by
  rw [ownKeywords, lookup_anyOf_convertTypes, choiceOf, choiceOf, lookup_type_own,
    lookup_anyOf_own]

/-- The keywords that a level may get. -/
def gainedKeywords : List String := ["minimum", "maximum", "enum", "type", "anyOf", "nullable"]

theorem lookup_ownKeywords (hkey : key ∉ gainedKeywords) :
    (ownKeywords map).lookup key = if key ∈ bannedKeywords then none else map.lookup key := by
  have hne : ∀ other ∈ gainedKeywords, key ≠ other := fun other hother =>
    (ne_of_mem_of_not_mem hother hkey).symm
  rw [ownKeywords, lookup_convertTypes (hne _ (by decide)) (hne _ (by decide)) (hne _ (by decide)),
    lookup_convertConst (hne _ (by decide)),
    lookup_normalizeGeminiSchemaSubsetKeywords (hne _ (by decide)) (hne _ (by decide))]
  by_cases hconst : key = "const"
  · simp [hconst, bannedKeywords]
  · simp [hconst, bannedKeywords]

theorem lookup_ownKeywords_of_banned (hkey : key ∈ bannedKeywords) :
    (ownKeywords map).lookup key = none := by
  rw [lookup_ownKeywords, if_pos hkey]
  revert key
  simp only [bannedKeywords, removedKeywords, gainedKeywords, List.forall_mem_cons]
  decide

/-! ### Choices with null -/

/-- The entries of the only branch besides null. -/
def collapsed (anyOf : List Json) : Option Fields :=
  if anyOf.any isNullSchema then
    match anyOf.filter fun schema => !isNullSchema schema with
    | [.obj branch] => some branch
    | [_] => some []
    | _ => none
  else none

/-- The entries that are merged into a level. -/
def mergedBranch (map : Fields) : Option Fields :=
  match choiceOf map with
  | some (.arr anyOf) => collapsed anyOf
  | _ => none

section Elevate

variable {anyOf : List Json} {branch : Fields}

theorem lookup_mergeBranch :
    (mergeBranch map branch).lookup key = (branch.lookup key).or (map.lookup key) :=
  lookup_foldl_insertNew

/-- A level becomes the one branch, or loses its choice where the branch is no object. -/
theorem elevateNull_of_collapsed (hanyOf : map.lookup "anyOf" = some (.arr anyOf))
    (hbranch : collapsed anyOf = some branch) :
    elevateNull map =
        (mergeBranch (removeEntry map "anyOf") branch).foldr
          (fun entry map => insertEntry map entry.1 entry.2)
          (insertEntry (removeEntry map "anyOf") "nullable" (.bool true)) ∨
      (branch = [] ∧
        elevateNull map = insertEntry (removeEntry map "anyOf") "nullable" (.bool true)) := by
  unfold collapsed at hbranch
  split_ifs at hbranch with hnull
  simp only [elevateNull, hanyOf, hnull]
  split at hbranch
  next branch' hfilter =>
    obtain rfl := Option.some.inj hbranch
    rw [hfilter]
    exact .inl rfl
  next single hsingle hfilter =>
    obtain rfl := Option.some.inj hbranch
    rw [hfilter]
    refine .inr ⟨rfl, ?_⟩
    cases single with
    | obj branch => exact absurd rfl (hsingle branch)
    | _ => rfl
  next => cases hbranch

theorem lookup_elevateNull_of_collapsed (hanyOf : map.lookup "anyOf" = some (.arr anyOf))
    (hbranch : collapsed anyOf = some branch) (hkey : key ≠ "nullable") :
    (elevateNull map).lookup key =
      (branch.lookup key).or (if key = "anyOf" then none else map.lookup key) := by
  rcases elevateNull_of_collapsed hanyOf hbranch with heq | ⟨rfl, heq⟩
  · rw [heq, lookup_foldr_insertEntry, lookup_mergeBranch, lookup_insertEntry_of_ne hkey,
      lookup_removeEntry, Option.or_assoc, Option.or_self]
  · rw [heq, lookup_insertEntry_of_ne hkey, lookup_removeEntry, List.lookup_nil, Option.none_or]

theorem hasEntry_elevateNull_of_collapsed (hanyOf : map.lookup "anyOf" = some (.arr anyOf))
    (hbranch : collapsed anyOf = some branch) : hasEntry (elevateNull map) "nullable" = true := by
  rcases elevateNull_of_collapsed hanyOf hbranch with heq | ⟨rfl, heq⟩
  · rw [heq, hasEntry, lookup_foldr_insertEntry, lookup_insertEntry_self, Option.isSome_or,
      Option.isSome_some, Bool.or_true]
  · rw [heq, hasEntry, lookup_insertEntry_self, Option.isSome_some]

theorem elevateNull_of_not_collapsed (hanyOf : map.lookup "anyOf" = some (.arr anyOf))
    (hbranch : collapsed anyOf = none) :
    elevateNull map =
      setNullable (insertEntry map "anyOf"
        (.arr (anyOf.filter fun schema => !isNullSchema schema))) (anyOf.any isNullSchema) := by
  simp only [elevateNull, hanyOf]
  unfold collapsed at hbranch
  cases hnull : anyOf.any isNullSchema with
  | false => rfl
  | true =>
    rw [if_pos hnull] at hbranch
    generalize anyOf.filter (fun schema => !isNullSchema schema) = schemas at hbranch ⊢
    rcases schemas with _ | ⟨first, _ | ⟨second, rest⟩⟩
    · rfl
    · cases first <;> cases hbranch
    · cases first <;> rfl

/-- The choice of a level whose choice is not taken apart. -/
def remainingChoice (map : Fields) : Option Json :=
  match choiceOf map with
  | some (.arr anyOf) => some (.arr (anyOf.filter fun schema => !isNullSchema schema))
  | _ => none

theorem sanitizeTypes_eq : sanitizeTypes map = elevateNull (ownKeywords map) := rfl

/-- The branch that is merged into a level comes first. -/
theorem lookup_sanitizeTypes_of_merged (h : mergedBranch map = some branch)
    (hkey : key ≠ "nullable") :
    (sanitizeTypes map).lookup key =
      (branch.lookup key).or (if key = "anyOf" then none else (ownKeywords map).lookup key) := by
  unfold mergedBranch at h
  split at h
  next anyOf hanyOf =>
    rw [← lookup_anyOf_ownKeywords] at hanyOf
    exact lookup_elevateNull_of_collapsed hanyOf h hkey
  next => cases h

theorem hasEntry_nullable_of_merged (h : mergedBranch map = some branch) :
    hasEntry (sanitizeTypes map) "nullable" = true := by
  unfold mergedBranch at h
  split at h
  next anyOf hanyOf =>
    rw [← lookup_anyOf_ownKeywords] at hanyOf
    exact hasEntry_elevateNull_of_collapsed hanyOf h
  next => cases h

theorem lookup_sanitizeTypes (h : mergedBranch map = none) (hkey : key ≠ "nullable") :
    (sanitizeTypes map).lookup key =
      if key = "anyOf" then remainingChoice map else (ownKeywords map).lookup key := by
  rw [sanitizeTypes_eq]
  unfold mergedBranch at h
  unfold remainingChoice
  split at h
  next anyOf hanyOf =>
    rw [← lookup_anyOf_ownKeywords] at hanyOf
    rw [elevateNull_of_not_collapsed hanyOf h]
    rw [lookup_setNullable hkey, lookup_insertEntry]
  next hother =>
    unfold elevateNull
    split
    next anyOf hanyOf =>
      rw [lookup_anyOf_ownKeywords] at hanyOf
      exact absurd hanyOf (hother anyOf)
    next => rw [lookup_removeEntry]
    next hanyOf =>
      split_ifs with hanyOf'
      · rw [hanyOf', hanyOf]
      · rfl

end Elevate

/-! ### What belongs to a type -/

section Finish

variable {floatText : FiniteF64 → String}

theorem lookup_stringifyEnum (htype : key ≠ "type") (henum : key ≠ "enum") :
    (stringifyEnum floatText map).lookup key = map.lookup key := by
  have hmap : (if hasNumericTypeWithEnum map then insertEntry map "type" (.str "string")
      else map).lookup key = map.lookup key := by
    split_ifs
    · exact lookup_insertEntry_of_ne htype
    · rfl
  unfold stringifyEnum
  dsimp only
  split
  · rw [lookup_insertEntry_of_ne henum, hmap]
  · exact hmap

theorem lookup_type_stringifyEnum :
    (stringifyEnum floatText map).lookup "type" =
      if hasNumericTypeWithEnum map then some (.str "string") else map.lookup "type" := by
  have hmap : (if hasNumericTypeWithEnum map then insertEntry map "type" (.str "string")
      else map).lookup "type" =
      if hasNumericTypeWithEnum map then some (.str "string") else map.lookup "type" := by
    split_ifs
    · exact lookup_insertEntry_self
    · rfl
  unfold stringifyEnum
  dsimp only
  split
  · rw [lookup_insertEntry_of_ne (by decide), hmap]
  · exact hmap

theorem lookup_enum_stringifyEnum :
    (stringifyEnum floatText map).lookup "enum" =
      (map.lookup "enum").map fun
        | .arr values => .arr (values.map (numberText floatText))
        | value => value := by
  have hmap : (if hasNumericTypeWithEnum map then insertEntry map "type" (.str "string")
      else map).lookup "enum" = map.lookup "enum" := by
    split_ifs
    · exact lookup_insertEntry_of_ne (by decide)
    · rfl
  unfold stringifyEnum
  dsimp only
  rw [hmap]
  split
  next values hvalues => rw [lookup_insertEntry_self, hvalues, Option.map_some]
  next hother =>
    rw [hmap]
    cases henum : map.lookup "enum" with
    | none => rfl
    | some value =>
      cases value with
      | arr values => exact absurd henum (hother values)
      | _ => rfl

theorem lookup_ensureItems (hitems : key ≠ "items") :
    (ensureItems map).lookup key = map.lookup key := by
  unfold ensureItems
  split_ifs
  · split
    · exact lookup_insertEntry_of_ne hitems
    · split_ifs
      · rfl
      · exact lookup_insertEntry_of_ne hitems
    · rfl
  · rfl

theorem lookup_removeObjectKeywords (hproperties : key ≠ "properties")
    (hrequired : key ≠ "required") :
    (removeObjectKeywords map).lookup key = map.lookup key := by
  unfold removeObjectKeywords
  split_ifs
  · rw [lookup_removeEntry, if_neg hrequired, lookup_removeEntry, if_neg hproperties]
  · rfl

theorem lookup_filterRequired (hrequired : key ≠ "required") :
    (filterRequired map).lookup key = map.lookup key := by
  unfold filterRequired
  split
  · exact lookup_insertEntry_of_ne hrequired
  · rfl

/-- The keywords that are looked at with the type. -/
def finishedKeywords : List String := ["type", "enum", "items", "properties", "required"]

theorem lookup_finishLevel (hkey : key ∉ finishedKeywords) :
    (finishLevel floatText map).lookup key = map.lookup key := by
  have hne : ∀ other ∈ finishedKeywords, key ≠ other := fun other hother =>
    (ne_of_mem_of_not_mem hother hkey).symm
  rw [finishLevel, lookup_filterRequired (hne _ (by decide)),
    lookup_removeObjectKeywords (hne _ (by decide)) (hne _ (by decide)),
    lookup_ensureItems (hne _ (by decide)), lookup_stringifyEnum (hne _ (by decide))
      (hne _ (by decide))]

theorem lookup_type_finishLevel :
    (finishLevel floatText map).lookup "type" =
      if hasNumericTypeWithEnum map then some (.str "string") else map.lookup "type" := by
  rw [finishLevel, lookup_filterRequired (by decide),
    lookup_removeObjectKeywords (by decide) (by decide), lookup_ensureItems (by decide),
    lookup_type_stringifyEnum]

theorem hasCombiner_congr {map' : Fields}
    (h : ∀ key ∈ ["anyOf", "oneOf", "allOf"], hasEntry map' key = hasEntry map key) :
    hasCombiner map' = hasCombiner map := by
  rw [hasCombiner, hasCombiner, h _ (by decide), h _ (by decide), h _ (by decide)]

theorem hasCombiner_finishLevel : hasCombiner (finishLevel floatText map) = hasCombiner map := by
  refine hasCombiner_congr fun key hkey => ?_
  have hfinished : key ∉ finishedKeywords := by
    revert key
    simp only [List.forall_mem_cons]
    decide
  rw [hasEntry, hasEntry, lookup_finishLevel hfinished]

/-- A level that has what belongs to its type. -/
structure Finished (floatText : FiniteF64 → String) (map : Fields) : Prop where
  number : hasNumericTypeWithEnum map = false
  values : ∀ values, map.lookup "enum" = some (.arr values) →
    values.map (numberText floatText) = values
  items : map.lookup "type" = some (.str "array") → hasCombiner map = false →
    ∃ items, map.lookup "items" = some items ∧
      ∀ fields, items = .obj fields → hasSchemaIntent fields = true
  object : typeIsNotObject map = true → hasCombiner map = false →
    map.lookup "properties" = none ∧ map.lookup "required" = none
  required : ∀ props required, map.lookup "properties" = some (.obj props) →
    map.lookup "required" = some (.arr required) → retainRequired props required = required

theorem Finished.finishLevel (h : Finished floatText map) : finishLevel floatText map = map := by
  have hstringify : stringifyEnum floatText map = map := by
    unfold stringifyEnum
    simp only [h.number, Bool.false_eq_true, if_false]
    split
    next values hvalues => rw [h.values values hvalues, insertEntry_of_lookup hvalues]
    next => rfl
  have hitems : ensureItems map = map := by
    unfold ensureItems
    split_ifs with harray
    · simp only [Bool.and_eq_true, beq_iff_eq, Bool.not_eq_true'] at harray
      obtain ⟨items, hitems, hintent⟩ := h.items harray.1 harray.2
      rw [hitems]
      cases items with
      | obj fields => simp only [hintent fields rfl, if_true]
      | _ => rfl
    · rfl
  have hobject : removeObjectKeywords map = map := by
    unfold removeObjectKeywords
    split_ifs with hobject
    · simp only [Bool.and_eq_true, Bool.not_eq_true'] at hobject
      obtain ⟨hproperties, hrequired⟩ := h.object hobject.1 hobject.2
      rw [removeEntry_of_lookup hproperties, removeEntry_of_lookup hrequired]
    · rfl
  have hrequired : filterRequired map = map := by
    unfold filterRequired
    split
    next props required hprops hrequired =>
      rw [h.required props required hprops hrequired, insertEntry_of_lookup hrequired]
    next => rfl
  rw [GeminiSchema.finishLevel, hstringify, hitems, hobject, hrequired]

theorem lookup_enum_finishLevel :
    (GeminiSchema.finishLevel floatText map).lookup "enum" =
      (map.lookup "enum").map fun
        | .arr values => .arr (values.map (numberText floatText))
        | value => value := by
  rw [GeminiSchema.finishLevel, lookup_filterRequired (by decide),
    lookup_removeObjectKeywords (by decide) (by decide), lookup_ensureItems (by decide),
    lookup_enum_stringifyEnum]

theorem numberText_numberText (v : Json) :
    numberText floatText (numberText floatText v) = numberText floatText v := by
  cases v <;> rfl

theorem lookup_items_finishLevel :
    (GeminiSchema.finishLevel floatText map).lookup "items" =
      (ensureItems (stringifyEnum floatText map)).lookup "items" := by
  rw [GeminiSchema.finishLevel, lookup_filterRequired (by decide),
    lookup_removeObjectKeywords (by decide) (by decide)]

theorem hasSchemaIntent_type (fields : Fields) (name : Json) :
    hasSchemaIntent (insertEntry fields "type" name) = true := by
  rw [hasSchemaIntent, List.any_eq_true]
  exact ⟨"type", by decide, by rw [hasEntry_insertEntry, decide_eq_true rfl, Bool.true_or]⟩

/-- The items of an array, afterwards. -/
theorem exists_items_ensureItems (harray : map.lookup "type" = some (.str "array"))
    (hcombiner : hasCombiner map = false) :
    ∃ items, (ensureItems map).lookup "items" = some items ∧
      ∀ fields, items = .obj fields → hasSchemaIntent fields = true := by
  unfold ensureItems
  rw [if_pos (by rw [harray, hcombiner]; rfl)]
  split
  next =>
    refine ⟨_, lookup_insertEntry_self, fun fields hfields => ?_⟩
    cases hfields
    rfl
  next items hitems =>
    split_ifs with hintent
    · refine ⟨_, hitems, fun fields hfields => ?_⟩
      cases hfields
      exact hintent
    · refine ⟨_, lookup_insertEntry_self, fun fields hfields => ?_⟩
      cases hfields
      exact hasSchemaIntent_type items _
  next hnone hobj =>
    obtain ⟨items, hitems⟩ := Option.ne_none_iff_exists'.mp hnone
    exact ⟨items, hitems, fun fields hfields => absurd (hfields ▸ hitems) (hobj fields)⟩

theorem typeIsNotObject_congr {map' : Fields} (h : map'.lookup "type" = map.lookup "type") :
    typeIsNotObject map' = typeIsNotObject map := by
  rw [typeIsNotObject, typeIsNotObject, h]

theorem finished_finishLevel : Finished floatText (GeminiSchema.finishLevel floatText map) := by
  have htype : (GeminiSchema.finishLevel floatText map).lookup "type" =
      (stringifyEnum floatText map).lookup "type" := by
    rw [lookup_type_finishLevel, lookup_type_stringifyEnum]
  have hcombiner : hasCombiner (GeminiSchema.finishLevel floatText map) =
      hasCombiner (stringifyEnum floatText map) := by
    rw [hasCombiner_finishLevel]
    refine (hasCombiner_congr fun key hkey => ?_).symm
    rw [hasEntry, hasEntry, lookup_stringifyEnum (ne_of_mem_of_not_mem hkey (by decide))
      (ne_of_mem_of_not_mem hkey (by decide))]
  constructor
  · have henum :
        hasEntry (GeminiSchema.finishLevel floatText map) "enum" = hasEntry map "enum" := by
      rw [hasEntry, lookup_enum_finishLevel, Option.isSome_map, hasEntry]
    rw [hasNumericTypeWithEnum, henum, lookup_type_finishLevel]
    split_ifs with hnumeric
    · rfl
    · rw [← Bool.not_eq_true]
      exact hnumeric
  · intro values hvalues
    rw [lookup_enum_finishLevel] at hvalues
    obtain ⟨value, -, heq⟩ := Option.map_eq_some_iff.mp hvalues
    split at heq
    next values' =>
      cases heq
      rw [List.map_map]
      exact List.map_congr_left fun v _ => numberText_numberText v
    next hother =>
      exact absurd heq (hother values)
  · intro harray hnone
    rw [htype] at harray
    rw [hcombiner] at hnone
    rw [lookup_items_finishLevel]
    exact exists_items_ensureItems harray hnone
  · intro hobject hnone
    have hobject' : typeIsNotObject (ensureItems (stringifyEnum floatText map)) = true := by
      rwa [typeIsNotObject_congr (lookup_ensureItems (by decide)), ← typeIsNotObject_congr htype]
    have hnone' : hasCombiner (ensureItems (stringifyEnum floatText map)) = false := by
      rw [← hnone, hcombiner]
      refine hasCombiner_congr fun key hkey => ?_
      rw [hasEntry, hasEntry, lookup_ensureItems (ne_of_mem_of_not_mem hkey (by decide))]
    rw [GeminiSchema.finishLevel, removeObjectKeywords, if_pos (by rw [hobject', hnone']; rfl)]
    have hproperties : (removeEntry (removeEntry (ensureItems (stringifyEnum floatText map))
        "properties") "required").lookup "properties" = none := by
      rw [lookup_removeEntry, if_neg (by decide), lookup_removeEntry, if_pos rfl]
    unfold filterRequired
    rw [hproperties]
    exact ⟨hproperties, by rw [lookup_removeEntry, if_pos rfl]⟩
  · intro props required hprops hrequired
    rw [GeminiSchema.finishLevel] at hprops hrequired
    rw [lookup_filterRequired (by decide)] at hprops
    unfold filterRequired at hrequired
    split at hrequired
    next props' required' hprops' hrequired' =>
      rw [hprops'] at hprops
      cases hprops
      rw [lookup_insertEntry_self] at hrequired
      cases hrequired
      rw [retainRequired, retainRequired, List.filter_filter]
      simp only [Bool.and_self]
    next hother => exact absurd hrequired (hother props required hprops)

end Finish

/-! ### Levels that are not changed -/

/-- A level whose types were taken apart. -/
structure Plain (map : Fields) : Prop where
  banned : ∀ key ∈ bannedKeywords, map.lookup key = none
  type : ∀ types, map.lookup "type" ≠ some (.arr types)
  anyOf : ∀ anyOf, map.lookup "anyOf" = some anyOf →
    ∃ branches, anyOf = .arr branches ∧ ∀ branch ∈ branches, isNullSchema branch = false

/-- A level that is not changed. -/
structure Settled (floatText : FiniteF64 → String) (map : Fields) : Prop
    extends Plain map, Finished floatText map

theorem Plain.sanitizeTypes (h : Plain map) : sanitizeTypes map = map := by
  have hbound : ∀ exclusive inclusive, exclusive ∈ bannedKeywords →
      moveBound map exclusive inclusive = map := by
    intro exclusive inclusive hexclusive
    rw [moveBound, h.banned exclusive hexclusive]
  have hsubset : normalizeGeminiSchemaSubsetKeywords map = map := by
    rw [normalizeGeminiSchemaSubsetKeywords, hbound _ _ (by decide), hbound _ _ (by decide)]
    refine foldl_removeEntry_of_lookup fun key hkey => h.banned key ?_
    exact List.mem_cons_of_mem _ (List.mem_cons_of_mem _ (List.mem_cons_of_mem _ hkey))
  have hconst : convertConst map = map := by
    rw [convertConst, h.banned "const" (by decide)]
  have htypes : convertTypes map = map := by
    unfold convertTypes
    split
    next types htypes => exact absurd htypes (h.type types)
    next => rfl
  rw [GeminiSchema.sanitizeTypes, hsubset, hconst, htypes]
  unfold elevateNull
  split
  next anyOf hanyOf =>
    obtain ⟨branches, heq, hbranches⟩ := h.anyOf _ hanyOf
    cases heq
    have hnone : anyOf.any isNullSchema = false := by
      rw [List.any_eq_false]
      intro branch hbranch
      rw [hbranches branch hbranch]
      exact Bool.false_ne_true
    have hfilter : anyOf.filter (fun schema => !isNullSchema schema) = anyOf := by
      rw [List.filter_eq_self]
      intro branch hbranch
      rw [hbranches branch hbranch]
      rfl
    simp only [hnone, hfilter, setNullable, Bool.false_eq_true, if_false]
    exact insertEntry_of_lookup hanyOf
  next other hother hanyOf =>
    obtain ⟨branches, heq, -⟩ := h.anyOf _ hanyOf
    exact absurd heq (hother branches)
  next => rfl

theorem Settled.sanitizeLevel {floatText : FiniteF64 → String} (h : Settled floatText map) :
    sanitizeLevel floatText map = map := by
  rw [GeminiSchema.sanitizeLevel, h.toPlain.sanitizeTypes, h.toFinished.finishLevel]

end GeminiSchema

end HeliosLite
