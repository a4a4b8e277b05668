import HeliosLite.Schema.Coercion
import HeliosLite.Theory.Traverse

/-!
# What coercion changes

Coercion replaces strings by what they are read as, at the top of a value and below. A relation
between values that allows this holds between a value and what it is coerced to, so most facts
about the result follow from one induction over the calls.

## Main definitions

* `Reads` — a string is read as a type, before the items of an array are coerced
* `Respected` — a relation that holds between a value and the value with a string replaced
* `Touches` — the schema reaches a string that it replaces

## Main results

* `Respected.of_coerce` — a respected relation holds between a value and its coercion
* `coerce_grows` — a value that is changed has fewer strings or more of other values
* `coerce_ne_iff_touches` — coercion changes a value exactly if the schema touches it
-/

namespace HeliosLite.SchemaCoercion

open Serde Theory

/-! ### Strings that are left -/

mutual

/-- The number of parts that are not strings. -/
def weight : Json → ℕ
  | .str _ => 0
  | .arr items => weightList items + 1
  | .obj fields => weightFields fields + 1
  | _ => 1

def weightList : List Json → ℕ
  | [] => 0
  | v :: items => weight v + weightList items

def weightFields : List (String × Json) → ℕ
  | [] => 0
  | (_, v) :: fields => weight v + weightFields fields

end

theorem weightList_grows {items items' : List Json}
    (h : List.Forall₂ (fun v r => r = v ∨ weight v < weight r) items items') :
    items' = items ∨ weightList items < weightList items' := by
  induction h with
  | nil => exact .inl rfl
  | cons hfirst _ ih =>
    rw [weightList, weightList]
    rcases hfirst with rfl | hlt
    · rcases ih with rfl | hrest
      · exact .inl rfl
      · exact .inr (by omega)
    · rcases ih with rfl | hrest <;> exact .inr (by omega)

theorem weightFields_grows {fields fields' : List (String × Json)}
    (h : List.Forall₂ (fun p q => q.1 = p.1 ∧ (q.2 = p.2 ∨ weight p.2 < weight q.2))
      fields fields') :
    fields' = fields ∨ weightFields fields < weightFields fields' := by
  induction h with
  | nil => exact .inl rfl
  | @cons p q fields fields' hfirst _ ih =>
    obtain ⟨key, v⟩ := p
    obtain ⟨_, w⟩ := q
    obtain ⟨rfl, hfirst⟩ := hfirst
    rw [weightFields, weightFields]
    rcases hfirst with rfl | hlt
    · rcases ih with rfl | hrest
      · exact .inl rfl
      · exact .inr (by dsimp only; omega)
    · rcases ih with rfl | hrest <;> exact .inr (by dsimp only at hlt; omega)

theorem int_of_bind_jsonInt {n : Option ℤ} {value : Json} (h : n.bind jsonInt = some value) :
    ∃ k, value = .int k := by
  obtain ⟨n, -, h⟩ := Option.bind_eq_some_iff.mp h
  unfold jsonInt at h
  split at h
  · exact ⟨_, (Option.some.inj h).symm⟩
  · cases h

variable [TextReaders]

/-! ### Readings of a string -/

/-- A string stands for an array, or has one in it. -/
def ReadsArray (s : String) (items : List Json) : Prop :=
  jsonReader.Answers s (some (.arr items)) ∨
    ∃ answer, jsonReader.Answers s answer ∧ (∀ items, answer ≠ some (.arr items)) ∧
      arrayReader.Answers s (some (.arr items))

/-- A string is read as a type; the items of an array are not coerced yet. -/
def Reads (s : String) (value : Json) : InstanceType → Prop
  | .integer => parseInteger s = some value
  | .number => parseNumber s = some value
  | .boolean =>
    (lowersTo "true" (trim s) ∧ value = .bool true) ∨
      (lowersTo "true" (trim s) = false ∧ lowersTo "false" (trim s) ∧ value = .bool false)
  | .null => lowersTo "null" (trim s) ∧ value = .null
  | .string => False
  | .object => ∃ fields, value = .obj fields ∧ jsonReader.Answers s (some (.obj fields))
  | .array => ∃ items, value = .arr items ∧ ReadsArray s items

theorem readsArray_of_readArray {fuel : ℕ} {s : String} {items : List Json}
    (h : readArray fuel s = some (some items)) : ReadsArray s items := by
  obtain ⟨answer, hanswer, h⟩ := Option.bind_eq_some_iff.mp h
  split at h
  · next items' =>
    cases h
    exact .inl (Reader.answers_of_run hanswer)
  · next hne =>
    obtain ⟨found, hfound, h⟩ := Option.map_eq_some_iff.mp h
    split at h
    · next items' =>
      cases h
      exact .inr ⟨answer, Reader.answers_of_run hanswer, hne, Reader.answers_of_run hfound⟩
    · cases h

theorem readArray_ne_of_readsArray {fuel : ℕ} {s : String} {items : List Json}
    (h : ReadsArray s items) : readArray fuel s ≠ some none := by
  intro hnone
  obtain ⟨answer, hanswer, hnone⟩ := Option.bind_eq_some_iff.mp hnone
  rcases h with h | ⟨answer', h, hne, harray⟩
  · obtain rfl := h.unique hanswer
    cases hnone
  · obtain rfl := h.unique hanswer
    split at hnone
    · next items' => exact hne items' rfl
    · obtain ⟨found, hfound, hnone⟩ := Option.map_eq_some_iff.mp hnone
      obtain rfl := harray.unique hfound
      cases hnone

section Readings

variable {call : Json → Json → Option Json} {fuel : ℕ} {schema : SchemaObject} {s : String}
  {value : Json} {type : InstanceType}

/-- A reading gives a value as it stands, or an array whose items have been coerced. -/
theorem reads_of_tryCoerceString
    (h : tryCoerceString call fuel schema s type = some (some value)) :
    (type ≠ .array ∧ Reads s value type) ∨ ∃ items items', type = .array ∧
      value = .arr items' ∧ Reads s (.arr items) type ∧
      coerceItems call schema items = some items' := by
  cases type with
  | integer => exact .inl ⟨nofun, Option.some.inj h⟩
  | number => exact .inl ⟨nofun, Option.some.inj h⟩
  | boolean =>
    simp only [tryCoerceString, Option.some.injEq] at h
    split at h
    · next htrue => exact .inl ⟨nofun, .inl ⟨htrue, (Option.some.inj h).symm⟩⟩
    · next htrue =>
      split at h
      · next hfalse =>
        exact .inl ⟨nofun, .inr ⟨by simpa using htrue, hfalse, (Option.some.inj h).symm⟩⟩
      · cases h
  | null =>
    simp only [tryCoerceString, Option.some.injEq] at h
    split at h
    · next hnull => exact .inl ⟨nofun, hnull, (Option.some.inj h).symm⟩
    · cases h
  | string => cases h
  | object =>
    obtain ⟨answer, hanswer, h⟩ := Option.map_eq_some_iff.mp h
    split at h
    · next fields =>
      cases h
      exact .inl ⟨nofun, fields, rfl, Reader.answers_of_run hanswer⟩
    · cases h
  | array =>
    obtain ⟨answer, hanswer, h⟩ := Option.bind_eq_some_iff.mp h
    cases answer with
    | none => cases h
    | some items =>
      obtain ⟨items', hitems, h⟩ := Option.map_eq_some_iff.mp h
      cases h
      exact .inr ⟨items, items', rfl, rfl, ⟨items, rfl, readsArray_of_readArray hanswer⟩, hitems⟩

theorem tryCoerceString_ne_of_reads (h : Reads s value type) :
    tryCoerceString call fuel schema s type ≠ some none := by
  intro hnone
  cases type with
  | integer =>
    have hread : parseInteger s = some value := h
    have hnone : parseInteger s = none := Option.some.inj hnone
    rw [hread] at hnone
    cases hnone
  | number =>
    have hread : parseNumber s = some value := h
    have hnone : parseNumber s = none := Option.some.inj hnone
    rw [hread] at hnone
    cases hnone
  | boolean =>
    simp only [tryCoerceString, Option.some.injEq] at hnone
    rcases h with ⟨htrue, -⟩ | ⟨htrue, hfalse, -⟩
    · rw [if_pos htrue] at hnone
      cases hnone
    · rw [if_neg (by simp [htrue]), if_pos hfalse] at hnone
      cases hnone
  | null =>
    simp only [tryCoerceString, Option.some.injEq, if_pos h.1] at hnone
    cases hnone
  | string => exact h
  | object =>
    obtain ⟨fields, -, h⟩ := h
    obtain ⟨answer, hanswer, hnone⟩ := Option.map_eq_some_iff.mp hnone
    obtain rfl := h.unique hanswer
    cases hnone
  | array =>
    obtain ⟨items, -, h⟩ := h
    obtain ⟨answer, hanswer, hnone⟩ := Option.bind_eq_some_iff.mp hnone
    cases answer with
    | none => exact readArray_ne_of_readsArray h hanswer
    | some items' =>
      obtain ⟨_, -, hnone⟩ := Option.map_eq_some_iff.mp hnone
      cases hnone

end Readings

/-! ### Relations that coercion respects -/

/-- A relation that holds between a value and the value with a string in it replaced. -/
structure Respected (R : Json → Json → Prop) : Prop where
  refl : ∀ v, R v v
  trans : ∀ {u v w}, R u v → R v w → R u w
  arr : ∀ {items items'}, List.Forall₂ R items items' → R (.arr items) (.arr items')
  obj : ∀ {fields fields'}, List.Forall₂ (fun p q => q.1 = p.1 ∧ R p.2 q.2) fields fields' →
    R (.obj fields) (.obj fields')
  empty : R (.str "") .null
  reads : ∀ {s value type}, Reads s value type → R (.str s) value

namespace Respected

variable {R : Json → Json → Prop} {call : Json → Json → Option Json} {fuel : ℕ}
  {schema : SchemaObject} {root value result : Json}

section Body

variable (hR : Respected R) (hcall : ∀ schema v r, call schema v = some r → R v r)

include hR hcall

theorem of_coerceAt {member : Option Json} (h : coerceAt call member value = some result) :
    R value result := by
  unfold coerceAt at h
  split at h
  · split at h
    · exact hcall _ _ _ h
    · cases h
      exact hR.refl _
  · cases h
    exact hR.refl _

theorem of_coerceItems {items items' : List Json}
    (h : coerceItems call schema items = some items') : R (.arr items) (.arr items') := by
  apply hR.arr
  have hplaces := (forall₂_of_mapM_some h).imp fun _ _ hitem => hR.of_coerceAt hcall hitem
  rw [← List.forall₂_map_left_iff, List.zipIdx_map_fst] at hplaces
  exact hplaces

theorem of_coerceFields {fields fields' : List (String × Json)}
    (h : coerceFields call schema fields = some fields') : R (.obj fields) (.obj fields') := by
  apply hR.obj
  refine (forall₂_of_mapM_some h).imp fun field field' hfield => ?_
  obtain ⟨v, hv, rfl⟩ := Option.map_eq_some_iff.mp hfield
  exact ⟨rfl, hR.of_coerceAt hcall hv⟩

theorem of_tryCoerceString {s : String} {type : InstanceType}
    (h : tryCoerceString call fuel schema s type = some (some result)) : R (.str s) result := by
  rcases reads_of_tryCoerceString h with ⟨-, hread⟩ | ⟨items, items', -, rfl, hread, hitems⟩
  · exact hR.reads hread
  · exact hR.trans (hR.reads hread) (hR.of_coerceItems hcall hitems)

theorem of_coerceByType (h : coerceByType call fuel schema value = some result) :
    R value result := by
  unfold coerceByType at h
  split at h
  · cases h
    exact hR.refl _
  · split at h
    · cases h
      exact hR.refl _
    · split at h
      · obtain ⟨answer, hanswer, h⟩ := Option.map_eq_some_iff.mp h
        cases answer with
        | none =>
          cases h
          exact hR.refl _
        | some answer =>
          cases h
          obtain ⟨type, -, htype⟩ := exists_of_firstAnswer hanswer
          exact hR.of_tryCoerceString hcall htype
      · cases h
        exact hR.refl _

theorem of_coerceParts (h : coerceParts call fuel schema value = some result) :
    R value result := by
  unfold coerceParts at h
  split at h
  · obtain ⟨fields, hfields, rfl⟩ := Option.map_eq_some_iff.mp h
    exact hR.of_coerceFields hcall hfields
  · obtain ⟨items, hitems, rfl⟩ := Option.map_eq_some_iff.mp h
    exact hR.of_coerceItems hcall hitems
  · exact hR.of_coerceByType hcall h

theorem of_foldlM {members : List Json}
    (h : members.foldlM (fun result member => coerceAt call (some member) result) value
      = some result) : R value result := by
  induction members generalizing value with
  | nil =>
    cases h
    exact hR.refl _
  | cons member members ih =>
    rw [List.foldlM_cons] at h
    obtain ⟨next, hnext, h⟩ := Option.bind_eq_some_iff.mp h
    exact hR.trans (hR.of_coerceAt hcall hnext) (ih h)

theorem of_coerceMembers (h : coerceMembers call fuel schema value = some result) :
    R value result := by
  obtain ⟨answer, hanswer, h⟩ := Option.bind_eq_some_iff.mp h
  cases answer with
  | some answer =>
    cases h
    obtain ⟨member, -, hmember⟩ := exists_of_firstAnswer hanswer
    obtain ⟨r, hr, hmember⟩ := Option.map_eq_some_iff.mp hmember
    split at hmember
    · cases hmember
      exact hR.of_coerceAt hcall hr
    · cases hmember
  | none =>
    dsimp only at h
    split at h
    · exact hR.of_foldlM hcall h
    · exact hR.of_coerceParts hcall h

theorem of_coerceObject (h : coerceObject call fuel schema root value = some result) :
    R value result := by
  unfold coerceObject at h
  split at h
  · exact hcall _ _ _ h
  · split at h
    · next hnull =>
      cases h
      rw [hnull.1]
      exact hR.empty
    · exact hR.of_coerceMembers hcall h

end Body

/-- A respected relation holds between a value and what it is coerced to. -/
theorem of_coerce (hR : Respected R) {schema : Json}
    (h : coerce root fuel schema value = some result) : R value result := by
  induction fuel generalizing schema value result with
  | zero => cases h
  | succ fuel ih =>
    cases schema with
    | obj schema => exact hR.of_coerceObject (fun _ _ _ hcall => ih hcall) h
    | _ =>
      cases h
      exact hR.refl _

end Respected

/-! ### Values only grow -/

/-- The value is null, a boolean or a number. -/
def IsScalar : Json → Prop
  | .null | .bool _ | .int _ | .float _ => True
  | _ => False

theorem Reads.isScalar {s : String} {value : Json} {type : InstanceType} (h : Reads s value type)
    (hobject : type ≠ .object) (harray : type ≠ .array) : IsScalar value := by
  cases type with
  | integer =>
    rcases Option.or_eq_some_iff.mp h with h | ⟨-, h⟩ <;>
    · obtain ⟨n, rfl⟩ := int_of_bind_jsonInt h
      exact trivial
  | number =>
    rcases Option.or_eq_some_iff.mp h with h | ⟨-, h⟩
    · obtain ⟨n, rfl⟩ := int_of_bind_jsonInt h
      exact trivial
    · obtain ⟨x, -, h⟩ := Option.bind_eq_some_iff.mp h
      split at h
      · cases h
        exact trivial
      · cases h
  | boolean => rcases h with ⟨-, rfl⟩ | ⟨-, -, rfl⟩ <;> exact trivial
  | null =>
    obtain ⟨-, rfl⟩ := h
    exact trivial
  | string => exact h.elim
  | object => exact absurd rfl hobject
  | array => exact absurd rfl harray

omit [TextReaders] in
theorem weight_pos_of_isScalar {value : Json} (h : IsScalar value) : 0 < weight value := by
  cases value with
  | str | arr | obj => exact h.elim
  | null | bool | int | float => exact Nat.one_pos

theorem weight_pos_of_reads {s : String} {value : Json} {type : InstanceType}
    (h : Reads s value type) : 0 < weight value := by
  cases type with
  | object =>
    obtain ⟨fields, rfl, -⟩ := h
    exact Nat.succ_pos _
  | array =>
    obtain ⟨items, rfl, -⟩ := h
    exact Nat.succ_pos _
  | integer | number | boolean | null | string =>
    exact weight_pos_of_isScalar (Reads.isScalar h nofun nofun)

theorem respected_grows : Respected fun v r => r = v ∨ weight v < weight r where
  refl v := .inl rfl
  trans {u v w} h h' := by
    rcases h with rfl | h
    · exact h'
    · rcases h' with rfl | h'
      · exact .inr h
      · exact .inr (Nat.lt_trans h h')
  arr {items items'} h := by
    rcases weightList_grows h with rfl | h
    · exact .inl rfl
    · exact .inr (Nat.succ_lt_succ h)
  obj {fields fields'} h := by
    rcases weightFields_grows h with rfl | h
    · exact .inl rfl
    · exact .inr (Nat.succ_lt_succ h)
  empty := .inr Nat.one_pos
  reads h := .inr (weight_pos_of_reads h)

/-- A value that is changed has more parts that are not strings. -/
theorem coerce_grows {root schema value result : Json} {fuel : ℕ}
    (h : coerce root fuel schema value = some result) :
    result = value ∨ weight value < weight result :=
  respected_grows.of_coerce h

/-! ### Strings that the schema reaches -/

/-- Why a string is replaced: it stands where another type is expected, it is empty and the
schema nullable, or a member of `anyOf` or `oneOf` replaces it. -/
inductive Cause
  | mismatch | nullable | alternative

/-- The schema reaches a string of the value that it replaces. -/
inductive Touches (root : Json) : Cause → Json → Json → Prop
  | reference {schema definition value cause}
      (href : resolveReference root schema = some definition)
      (h : Touches root cause definition value) : Touches root cause (.obj schema) value
  | nullable {schema} (href : resolveReference root schema = none) (h : isNullable schema) :
      Touches root .nullable (.obj schema) (.str "")
  | alternative {schema member value cause} (href : resolveReference root schema = none)
      (hmem : member ∈ alternatives schema) (hschema : isSchema member)
      (h : Touches root cause member value) : Touches root .alternative (.obj schema) value
  | allOf {schema members member value cause} (href : resolveReference root schema = none)
      (hall : arrayAt schema "allOf" = some members) (hmem : member ∈ members)
      (hschema : isSchema member) (h : Touches root cause member value) :
      Touches root cause (.obj schema) value
  | property {schema member fields field cause} (href : resolveReference root schema = none)
      (hall : arrayAt schema "allOf" = none) (hfield : field ∈ fields)
      (hmember : propertySchema schema field.1 = some member) (hschema : isSchema member)
      (h : Touches root cause member field.2) : Touches root cause (.obj schema) (.obj fields)
  | item {schema member items index item cause} (href : resolveReference root schema = none)
      (hall : arrayAt schema "allOf" = none) (hitem : items[index]? = some item)
      (hmember : itemSchema schema index = some member) (hschema : isSchema member)
      (h : Touches root cause member item) : Touches root cause (.obj schema) (.arr items)
  | mismatch {schema types s type value} (href : resolveReference root schema = none)
      (hall : arrayAt schema "allOf" = none) (htypes : targetTypes schema = some types)
      (hmatch : types.any (typeMatches · (.str s)) = false) (hmem : type ∈ types)
      (hread : Reads s value type) : Touches root .mismatch (.obj schema) (.str s)

/-- The keywords `properties`, `prefixItems`, `items` and `type` touch the value. -/
inductive OwnTouches (root : Json) (schema : SchemaObject) : Json → Prop
  | property {member fields field cause} (hfield : field ∈ fields)
      (hmember : propertySchema schema field.1 = some member) (hschema : isSchema member)
      (h : Touches root cause member field.2) : OwnTouches root schema (.obj fields)
  | item {member items index item cause} (hitem : items[index]? = some item)
      (hmember : itemSchema schema index = some member) (hschema : isSchema member)
      (h : Touches root cause member item) : OwnTouches root schema (.arr items)
  | mismatch {types s type value} (htypes : targetTypes schema = some types)
      (hmatch : types.any (typeMatches · (.str s)) = false) (hmem : type ∈ types)
      (hread : Reads s value type) : OwnTouches root schema (.str s)

theorem OwnTouches.touches {root value : Json} {schema : SchemaObject}
    (h : OwnTouches root schema value) (href : resolveReference root schema = none)
    (hall : arrayAt schema "allOf" = none) : ∃ cause, Touches root cause (.obj schema) value := by
  cases h with
  | property hfield hmember hschema h => exact ⟨_, .property href hall hfield hmember hschema h⟩
  | item hitem hmember hschema h => exact ⟨_, .item href hall hitem hmember hschema h⟩
  | mismatch htypes hmatch hmem hread => exact ⟨_, .mismatch href hall htypes hmatch hmem hread⟩

section Body

variable {call : Json → Json → Option Json} {value result : Json}

omit [TextReaders] in
/-- A member that is a schema and changes a value. -/
theorem exists_of_coerceAt_ne {member : Option Json}
    (h : coerceAt call member value = some result) (hne : result ≠ value) :
    ∃ schema, member = some schema ∧ isSchema schema ∧ call schema value = some result := by
  unfold coerceAt at h
  split at h
  · next schema =>
    split at h
    · next hschema => exact ⟨schema, rfl, hschema, h⟩
    · cases h
      exact absurd rfl hne
  · cases h
    exact absurd rfl hne

omit [TextReaders] in
/-- The first member that changes a value, and the members after it. -/
theorem exists_split_of_foldlM_ne {members : List Json}
    (h : members.foldlM (fun result member => coerceAt call (some member) result) value
      = some result) (hne : result ≠ value) :
    ∃ before member after next, members = before ++ member :: after ∧
      coerceAt call (some member) value = some next ∧ next ≠ value ∧
      after.foldlM (fun result member => coerceAt call (some member) result) next
        = some result := by
  induction members with
  | nil =>
    cases h
    exact absurd rfl hne
  | cons member members ih =>
    rw [List.foldlM_cons] at h
    obtain ⟨next, hnext, h⟩ := Option.bind_eq_some_iff.mp h
    by_cases heq : next = value
    · rw [heq] at h
      obtain ⟨before, member', after, next', rfl, hchange⟩ := ih h
      exact ⟨member :: before, member', after, next', rfl, hchange⟩
    · exact ⟨[], member, members, next, rfl, hnext, heq, h⟩

omit [TextReaders] in
theorem exists_of_foldlM_ne {members : List Json}
    (h : members.foldlM (fun result member => coerceAt call (some member) result) value
      = some result) (hne : result ≠ value) :
    ∃ member ∈ members, ∃ next, coerceAt call (some member) value = some next ∧
      next ≠ value := by
  obtain ⟨before, member, after, next, rfl, hnext, hchange, -⟩ := exists_split_of_foldlM_ne h hne
  exact ⟨member, List.mem_append_right before (List.mem_cons_self ..), next, hnext, hchange⟩

omit [TextReaders] in
/-- The first alternative that changes a value. -/
theorem exists_of_changedBy {members : List Json}
    (h : firstAnswer (changedBy call value) members = some (some result)) :
    ∃ member ∈ members, isSchema member ∧ call member value = some result ∧ result ≠ value := by
  obtain ⟨member, hmem, h⟩ := exists_of_firstAnswer h
  obtain ⟨r, hr, h⟩ := Option.map_eq_some_iff.mp h
  split at h
  · next hne =>
    cases h
    obtain ⟨_, ⟨⟩, hschema, hcall⟩ := exists_of_coerceAt_ne hr hne
    exact ⟨member, hmem, hschema, hcall, hne⟩
  · cases h

variable {root : Json} {schema : SchemaObject} {fuel : ℕ}

theorem touches_of_coerceByType_ne
    (h : coerceByType call fuel schema value = some result) (hne : result ≠ value) :
    OwnTouches root schema value := by
  unfold coerceByType at h
  split at h
  · cases h
    exact absurd rfl hne
  · next types htypes =>
    split at h
    · cases h
      exact absurd rfl hne
    · next hmatch =>
      split at h
      · next s =>
        obtain ⟨answer, hanswer, h⟩ := Option.map_eq_some_iff.mp h
        cases answer with
        | none =>
          cases h
          exact absurd rfl hne
        | some answer =>
          obtain ⟨type, hmem, htype⟩ := exists_of_firstAnswer hanswer
          have hmatch := Bool.eq_false_iff.mpr hmatch
          rcases reads_of_tryCoerceString htype with ⟨-, hread⟩ | ⟨items, _, -, -, hread, -⟩
          · exact .mismatch htypes hmatch hmem hread
          · exact .mismatch htypes hmatch hmem hread
      · cases h
        exact absurd rfl hne

variable (hcall : ∀ schema v r, call schema v = some r → r ≠ v →
  ∃ cause, Touches root cause schema v)

include hcall

theorem touches_of_coerceParts_ne
    (h : coerceParts call fuel schema value = some result) (hne : result ≠ value) :
    OwnTouches root schema value := by
  unfold coerceParts at h
  split at h
  · next fields =>
    obtain ⟨fields', hfields, rfl⟩ := Option.map_eq_some_iff.mp h
    have hfields' : fields' ≠ fields.map id := by
      intro heq
      exact hne (by rw [heq, List.map_id])
    obtain ⟨field, hfield, field', h, hchange⟩ := exists_of_mapM_ne hfields hfields'
    obtain ⟨v, hv, rfl⟩ := Option.map_eq_some_iff.mp h
    have hchange : v ≠ field.2 := fun heq => hchange (by rw [heq]; rfl)
    obtain ⟨member, hmember, hschema, hv⟩ := exists_of_coerceAt_ne hv hchange
    obtain ⟨cause, htouch⟩ := hcall _ _ _ hv hchange
    exact .property hfield hmember hschema htouch
  · next items =>
    obtain ⟨items', hitems, rfl⟩ := Option.map_eq_some_iff.mp h
    have hitems' : items' ≠ items.zipIdx.map Prod.fst := by
      intro heq
      exact hne (by rw [heq, List.zipIdx_map_fst])
    obtain ⟨⟨item, index⟩, hitem, v, hv, hchange⟩ := exists_of_mapM_ne hitems hitems'
    rw [List.mem_zipIdx_iff_getElem?] at hitem
    obtain ⟨member, hmember, hschema, hv⟩ := exists_of_coerceAt_ne hv hchange
    obtain ⟨cause, htouch⟩ := hcall _ _ _ hv hchange
    exact .item hitem hmember hschema htouch
  · exact touches_of_coerceByType_ne h hne

theorem touches_of_coerceMembers_ne (href : resolveReference root schema = none)
    (h : coerceMembers call fuel schema value = some result) (hne : result ≠ value) :
    ∃ cause, Touches root cause (.obj schema) value := by
  obtain ⟨answer, hanswer, h⟩ := Option.bind_eq_some_iff.mp h
  cases answer with
  | some answer =>
    obtain ⟨member, hmem, hschema, hmember, hchange⟩ := exists_of_changedBy hanswer
    obtain ⟨cause, htouch⟩ := hcall _ _ _ hmember hchange
    exact ⟨.alternative, .alternative href hmem hschema htouch⟩
  | none =>
    dsimp only at h
    split at h
    · next members hall =>
      obtain ⟨member, hmem, next, hnext, hchange⟩ := exists_of_foldlM_ne h hne
      obtain ⟨_, ⟨⟩, hschema, hnext⟩ := exists_of_coerceAt_ne hnext hchange
      obtain ⟨cause, htouch⟩ := hcall _ _ _ hnext hchange
      exact ⟨cause, .allOf href hall hmem hschema htouch⟩
    · next hall => exact (touches_of_coerceParts_ne hcall h hne).touches href hall

theorem touches_of_coerceObject_ne (h : coerceObject call fuel schema root value = some result)
    (hne : result ≠ value) : ∃ cause, Touches root cause (.obj schema) value := by
  unfold coerceObject at h
  split at h
  · next definition href =>
    obtain ⟨cause, htouch⟩ := hcall _ _ _ h hne
    exact ⟨cause, .reference href htouch⟩
  · next href =>
    split at h
    · next hnull =>
      rw [hnull.1]
      exact ⟨.nullable, .nullable href hnull.2⟩
    · exact touches_of_coerceMembers_ne hcall href h hne

end Body

/-- A change is made where the schema touches the value. -/
theorem touches_of_coerce_ne {root schema value result : Json} {fuel : ℕ}
    (h : coerce root fuel schema value = some result) (hne : result ≠ value) :
    ∃ cause, Touches root cause schema value := by
  induction fuel generalizing schema value result with
  | zero => cases h
  | succ fuel ih =>
    cases schema with
    | obj schema => exact touches_of_coerceObject_ne (fun _ _ _ hcall => ih hcall) h hne
    | _ =>
      cases h
      exact absurd rfl hne

/-! ### A value that is not changed -/

section Unchanged

variable {root value : Json} {schema : SchemaObject} {fuel : ℕ}

theorem foldlM_eq_self {members : List Json}
    (h : members.foldlM (fun result member => coerceAt (coerce root fuel) (some member) result)
      value = some value) :
    ∀ member ∈ members, coerceAt (coerce root fuel) (some member) value = some value := by
  induction members with
  | nil => simp
  | cons member members ih =>
    rw [List.foldlM_cons] at h
    obtain ⟨next, hnext, h⟩ := Option.bind_eq_some_iff.mp h
    have hgrows : next = value ∨ weight value < weight next :=
      respected_grows.of_coerceAt (fun _ _ _ => coerce_grows) hnext
    have hback : value = next ∨ weight next < weight value :=
      respected_grows.of_foldlM (fun _ _ _ => coerce_grows) h
    -- a later member cannot bring a string back
    have heq : next = value := by
      rcases hgrows with heq | hlt
      · exact heq
      · exact hback.elim Eq.symm fun hlt' => absurd hlt' (Nat.lt_asymm hlt)
    rw [heq] at hnext h
    exact List.forall_mem_cons.mpr ⟨hnext, ih h⟩

variable (href : resolveReference root schema = none)
  (h : coerce root (fuel + 1) (.obj schema) value = some value)

include href h

theorem coerceMembers_of_coerce_eq_self :
    coerceMembers (coerce root fuel) fuel schema value = some value := by
  simp only [coerce, coerceObject, href] at h
  split at h
  · next hnull =>
    rw [hnull.1] at h
    cases h
  · exact h

theorem firstAnswer_of_coerce_eq_self :
    firstAnswer (changedBy (coerce root fuel) value) (alternatives schema) = some none := by
  have hmembers := coerceMembers_of_coerce_eq_self href h
  obtain ⟨answer, hanswer, hmembers⟩ := Option.bind_eq_some_iff.mp hmembers
  cases answer with
  | none => exact hanswer
  | some answer =>
    obtain ⟨_, -, -, -, hne⟩ := exists_of_changedBy hanswer
    exact absurd (Option.some.inj hmembers) hne

/-- No alternative changes the value. -/
theorem alternative_of_coerce_eq_self {member : Json} (hmem : member ∈ alternatives schema)
    (hschema : isSchema member) : coerce root fuel member value = some value := by
  have hsilent := firstAnswer_eq_some_none.mp (firstAnswer_of_coerce_eq_self href h) member hmem
  obtain ⟨r, hr, hsilent⟩ := Option.map_eq_some_iff.mp hsilent
  simp only [coerceAt, hschema, if_true] at hr
  split at hsilent
  · cases hsilent
  · next heq =>
    rw [not_not] at heq
    rw [hr, heq]

/-- No member of `allOf` changes the value. -/
theorem allOf_of_coerce_eq_self {members : List Json} (hall : arrayAt schema "allOf" = some members)
    {member : Json} (hmem : member ∈ members) (hschema : isSchema member) :
    coerce root fuel member value = some value := by
  have hmembers := coerceMembers_of_coerce_eq_self href h
  simp only [coerceMembers, firstAnswer_of_coerce_eq_self href h, hall,
    Option.bind_some] at hmembers
  have hmember := foldlM_eq_self hmembers member hmem
  simpa only [coerceAt, hschema, if_true] using hmember

variable (hall : arrayAt schema "allOf" = none)

include hall

theorem coerceParts_of_coerce_eq_self :
    coerceParts (coerce root fuel) fuel schema value = some value := by
  have hmembers := coerceMembers_of_coerce_eq_self href h
  simpa only [coerceMembers, firstAnswer_of_coerce_eq_self href h, hall, Option.bind_some]
    using hmembers

end Unchanged

section Unchanged

variable {root : Json} {schema : SchemaObject} {fuel : ℕ}
  (href : resolveReference root schema = none)
  (hall : arrayAt schema "allOf" = none)

include href hall

/-- No field is changed. -/
theorem property_of_coerce_eq_self {fields : List (String × Json)}
    (h : coerce root (fuel + 1) (.obj schema) (.obj fields) = some (.obj fields))
    {field : String × Json} (hfield : field ∈ fields) {member : Json}
    (hmember : propertySchema schema field.1 = some member) (hschema : isSchema member) :
    coerce root fuel member field.2 = some field.2 := by
  have hparts := coerceParts_of_coerce_eq_self href h hall
  obtain ⟨_, hfields, ⟨⟩⟩ := Option.map_eq_some_iff.mp hparts
  have hfields := mapM_eq_some_map_iff.mp (hfields.trans (congrArg some (List.map_id fields).symm))
  obtain ⟨v, hv, heq⟩ := Option.map_eq_some_iff.mp (hfields field hfield)
  simp only [coerceAt, hmember, hschema, if_true] at hv
  have hsame : v = field.2 := congrArg Prod.snd heq
  rw [hv, hsame]

/-- No item is changed. -/
theorem item_of_coerce_eq_self {items : List Json}
    (h : coerce root (fuel + 1) (.obj schema) (.arr items) = some (.arr items))
    {item : Json} {index : ℕ} (hitem : items[index]? = some item) {member : Json}
    (hmember : itemSchema schema index = some member) (hschema : isSchema member) :
    coerce root fuel member item = some item := by
  have hparts := coerceParts_of_coerce_eq_self href h hall
  obtain ⟨_, hitems, ⟨⟩⟩ := Option.map_eq_some_iff.mp hparts
  have hitems := mapM_eq_some_map_iff.mp
    (hitems.trans (congrArg some (List.zipIdx_map_fst 0 items).symm))
  have hsame := hitems (item, index) (List.mem_zipIdx_iff_getElem?.mpr hitem)
  simpa only [coerceAt, hmember, hschema, if_true] using hsame

end Unchanged

/-- A string of another type that can be read is read. -/
theorem coerceByType_ne_self {call : Json → Json → Option Json} {schema : SchemaObject}
    {fuel : ℕ} {types : List InstanceType} {s : String} {type : InstanceType} {value : Json}
    (htypes : targetTypes schema = some types)
    (hmatch : types.any (typeMatches · (.str s)) = false) (hmem : type ∈ types)
    (hread : Reads s value type) : coerceByType call fuel schema (.str s) ≠ some (.str s) := by
  intro h
  simp only [coerceByType, htypes, hmatch] at h
  obtain ⟨answer, hanswer, h⟩ := Option.map_eq_some_iff.mp h
  cases answer with
  | none => exact tryCoerceString_ne_of_reads hread (firstAnswer_eq_some_none.mp hanswer type hmem)
  | some answer =>
    cases h
    obtain ⟨type', -, htype'⟩ := exists_of_firstAnswer hanswer
    rcases reads_of_tryCoerceString htype' with ⟨-, hread'⟩ | ⟨_, _, -, ⟨⟩, -, -⟩
    exact Nat.lt_irrefl 0 (weight_pos_of_reads hread')

/-- A value that the schema touches is changed. -/
theorem coerce_ne_of_touches {root schema value : Json} {cause : Cause}
    (h : Touches root cause schema value) {fuel : ℕ} :
    coerce root fuel schema value ≠ some value := by
  induction h generalizing fuel with
  | reference href _ ih =>
    cases fuel with
    | zero => nofun
    | succ fuel =>
      simp only [coerce, coerceObject, href]
      exact ih
  | nullable href hnull =>
    cases fuel with
    | zero => nofun
    | succ fuel =>
      simp only [coerce, coerceObject, href, hnull]
      nofun
  | alternative href hmem hschema _ ih =>
    cases fuel with
    | zero => nofun
    | succ fuel => exact fun h => ih (alternative_of_coerce_eq_self href h hmem hschema)
  | allOf href hall hmem hschema _ ih =>
    cases fuel with
    | zero => nofun
    | succ fuel => exact fun h => ih (allOf_of_coerce_eq_self href h hall hmem hschema)
  | property href hall hfield hmember hschema _ ih =>
    cases fuel with
    | zero => nofun
    | succ fuel => exact fun h => ih (property_of_coerce_eq_self href hall h hfield hmember hschema)
  | item href hall hitem hmember hschema _ ih =>
    cases fuel with
    | zero => nofun
    | succ fuel => exact fun h => ih (item_of_coerce_eq_self href hall h hitem hmember hschema)
  | mismatch href hall htypes hmatch hmem hread =>
    cases fuel with
    | zero => nofun
    | succ fuel =>
      intro h
      have hparts := coerceParts_of_coerce_eq_self href h hall
      exact coerceByType_ne_self htypes hmatch hmem hread hparts

/-- Coercion changes a value exactly if the schema touches it. -/
theorem coerce_ne_iff_touches {root schema value result : Json} {fuel : ℕ}
    (h : coerce root fuel schema value = some result) :
    result ≠ value ↔ ∃ cause, Touches root cause schema value := by
  constructor
  · exact touches_of_coerce_ne h
  · rintro ⟨cause, htouch⟩ rfl
    exact coerce_ne_of_touches htouch h

end HeliosLite.SchemaCoercion
