import HeliosLite.Schema.Termination

/-!
# Coercing twice

A second coercion with the same schema may find more to do: a string that has been read as an
object has fields that were not coerced, and a schema stops at the first alternative that changes
the value, so that its other parts come to see the value only then. Where neither happens the
first coercion has done everything.

## Main definitions

* `Part` — a member of `anyOf`, `oneOf` or `allOf`, or the other keywords of a schema
* `Replaced` — a value with some of its strings replaced
* `Idle` — a part that has nothing to do with what the value may become
* `Unsettled` — the value comes to a schema with more to do than one coercion does

## Main results

* `not_touches_of_coerce` — the schema does not touch what it has been coerced to
* `coerceToSchema_twice` — coercing a coerced value changes nothing
-/

namespace HeliosLite.SchemaCoercion

open Serde Theory Relation

/-! ### Strings replaced -/

/-- The value is a string. -/
def IsString : Json → Prop
  | .str _ => True
  | _ => False

/-- The value with some of its strings replaced by other values. -/
inductive Replaced : Json → Json → Prop
  | refl {value} : Replaced value value
  | str {s value} (hvalue : ¬ IsString value) : Replaced (.str s) value
  | arr {items items'} (hlength : items.length = items'.length)
      (h : ∀ (i : ℕ) (v w : Json), items[i]? = some v → items'[i]? = some w → Replaced v w) :
      Replaced (.arr items) (.arr items')
  | obj {fields fields'} (hkeys : fields.map Prod.fst = fields'.map Prod.fst)
      (h : ∀ (i : ℕ) (p q : String × Json), fields[i]? = some p → fields'[i]? = some q →
        Replaced p.2 q.2) : Replaced (.obj fields) (.obj fields')

theorem Replaced.eq_or_not_isString {value result : Json} (h : Replaced value result) :
    result = value ∨ ¬ IsString result := by
  cases h with
  | refl => exact .inl rfl
  | str hvalue => exact .inr hvalue
  | arr => exact .inr id
  | obj => exact .inr id

theorem Replaced.trans {u v w : Json} (h : Replaced u v) (h' : Replaced v w) : Replaced u w := by
  induction h generalizing w with
  | refl => exact h'
  | str hv =>
    rcases h'.eq_or_not_isString with rfl | hw
    · exact .str hv
    · exact .str hw
  | @arr items items' hlength h ih =>
    cases h' with
    | refl => exact .arr hlength h
    | @arr _ items'' hlength' h' =>
      refine .arr (hlength.trans hlength') fun i v w hv hw => ?_
      have hi : i < items'.length := by
        rw [← hlength]
        exact (List.getElem?_eq_some_iff.mp hv).1
      have hmiddle := List.getElem?_eq_getElem hi
      exact ih i v _ hv hmiddle (h' i _ w hmiddle hw)
  | @obj fields fields' hkeys h ih =>
    cases h' with
    | refl => exact .obj hkeys h
    | @obj _ fields'' hkeys' h' =>
      refine .obj (hkeys.trans hkeys') fun i p q hp hq => ?_
      have hi : i < fields'.length := by
        rw [← List.length_map (f := Prod.fst), ← hkeys, List.length_map]
        exact (List.getElem?_eq_some_iff.mp hp).1
      have hmiddle := List.getElem?_eq_getElem hi
      exact ih i p _ hp hmiddle (h' i _ q hmiddle hq)

/-! ### The parts of a schema -/

/-- A part of a schema that may change a value. -/
inductive Part
  | member (schema : Json)
  | own

/-- The alternatives and the members of `allOf`; without `allOf` the other keywords count. -/
def parts (schema : SchemaObject) : List Part :=
  (alternatives schema).map Part.member ++
    match arrayAt schema "allOf" with
    | some members => members.map Part.member
    | none => [Part.own]

variable [TextReaders]

/-- The part touches the value. -/
def Part.Touches (root : Json) (schema : SchemaObject) (value : Json) : Part → Prop
  | .member other => isSchema other ∧ ∃ cause, SchemaCoercion.Touches root cause other value
  | .own => OwnTouches root schema value

/-- The part has nothing to do with the value once its strings, and the value itself if it is a
string, may have been replaced. -/
def Part.Idle (root : Json) (schema : SchemaObject) (value : Json) (part : Part) : Prop :=
  ∀ result, Replaced value result → ¬ IsString result → ¬ part.Touches root schema result

/-- The schema does not hand the value on to a definition, and does not make it null. -/
structure Applies (root : Json) (schema : SchemaObject) (value : Json) : Prop where
  reference : resolveReference root schema = none
  nullable : ¬ (value = .str "" ∧ isNullable schema)

/-- The string is read as the first type that it can be read as. -/
structure FirstReads (schema : SchemaObject) (s : String) (value : Json) (type : InstanceType) :
    Prop where
  noAllOf : arrayAt schema "allOf" = none
  split : ∃ before after, targetTypes schema = some (before ++ type :: after) ∧
    (before ++ type :: after).any (typeMatches · (.str s)) = false ∧
    ∀ other ∈ before, ∀ value, ¬ Reads s value other
  reads : Reads s value type

/-- The value comes to a schema of which one part changes it while another may have something to
do with what it becomes, or a string is read as an object that the schema touches. -/
inductive Unsettled (root : Json) : Json → Json → Prop
  | reference {schema definition value} (href : resolveReference root schema = some definition)
      (h : Unsettled root definition value) : Unsettled root (.obj schema) value
  | clash {schema value part other} {i j : ℕ}
      (happlies : Applies root schema value)
      (hpart : (parts schema)[i]? = some part) (hother : (parts schema)[j]? = some other)
      (hne : i ≠ j) (htouch : part.Touches root schema value)
      (hidle : ¬ other.Idle root schema value) : Unsettled root (.obj schema) value
  | member {schema member value} (happlies : Applies root schema value)
      (hpart : Part.member member ∈ parts schema) (hschema : isSchema member)
      (h : Unsettled root member value) : Unsettled root (.obj schema) value
  | property {schema member fields field} (href : resolveReference root schema = none)
      (hall : arrayAt schema "allOf" = none) (hfield : field ∈ fields)
      (hmember : propertySchema schema field.1 = some member) (hschema : isSchema member)
      (h : Unsettled root member field.2) : Unsettled root (.obj schema) (.obj fields)
  | item {schema member items index item} (href : resolveReference root schema = none)
      (hall : arrayAt schema "allOf" = none) (hitem : items[index]? = some item)
      (hmember : itemSchema schema index = some member) (hschema : isSchema member)
      (h : Unsettled root member item) : Unsettled root (.obj schema) (.arr items)
  | object {schema s fields} (happlies : Applies root schema (.str s))
      (hread : FirstReads schema s (.obj fields) .object)
      (h : OwnTouches root schema (.obj fields)) : Unsettled root (.obj schema) (.str s)
  | array {schema s items index item member} (happlies : Applies root schema (.str s))
      (hread : FirstReads schema s (.arr items) .array) (hitem : items[index]? = some item)
      (hmember : itemSchema schema index = some member) (hschema : isSchema member)
      (h : Unsettled root member item) : Unsettled root (.obj schema) (.str s)

theorem respected_replaced : Respected Replaced where
  refl _ := .refl
  trans h h' := h.trans h'
  arr {items items'} h := by
    obtain ⟨hlength, hget⟩ := List.forall₂_iff_get.mp h
    refine .arr hlength fun i v w hv hw => ?_
    obtain ⟨hi, rfl⟩ := List.getElem?_eq_some_iff.mp hv
    obtain ⟨hi', rfl⟩ := List.getElem?_eq_some_iff.mp hw
    exact hget i hi hi'
  obj {fields fields'} h := by
    obtain ⟨hlength, hget⟩ := List.forall₂_iff_get.mp h
    refine .obj ?_ fun i p q hp hq => ?_
    · refine List.ext_getElem (by simpa using hlength) fun i hi hi' => ?_
      rw [List.length_map] at hi hi'
      rw [List.getElem_map, List.getElem_map]
      exact (hget i hi hi').1.symm
    · obtain ⟨hi, rfl⟩ := List.getElem?_eq_some_iff.mp hp
      obtain ⟨hi', rfl⟩ := List.getElem?_eq_some_iff.mp hq
      exact (hget i hi hi').2
  empty := .str id
  reads {s value type} h := by
    refine .str fun hvalue => ?_
    cases value with
    | str => exact Nat.lt_irrefl 0 (weight_pos_of_reads h)
    | _ => exact hvalue

/-- Coercion replaces strings and nothing else. -/
theorem replaced_of_coerce {root schema value result : Json} {fuel : ℕ}
    (h : coerce root fuel schema value = some result) : Replaced value result :=
  respected_replaced.of_coerce h

/-! ### Scalars -/

theorem OwnTouches.not_isScalar {root value : Json} {schema : SchemaObject}
    (h : OwnTouches root schema value) : ¬ IsScalar value := by
  cases h with
  | property => exact id
  | item => exact id
  | mismatch => exact id

theorem Touches.not_isScalar {root schema value : Json} {cause : Cause}
    (h : Touches root cause schema value) : ¬ IsScalar value := by
  induction h with
  | reference _ _ ih => exact ih
  | alternative _ _ _ _ ih => exact ih
  | allOf _ _ _ _ _ ih => exact ih
  | nullable => exact id
  | property => exact id
  | item => exact id
  | mismatch => exact id

theorem Touches.of_reference {root definition value : Json} {schema : SchemaObject}
    {cause : Cause} (h : Touches root cause (.obj schema) value)
    (href : resolveReference root schema = some definition) :
    Touches root cause definition value := by
  cases h with
  | reference href' h =>
    rw [href] at href'
    cases href'
    exact h
  | nullable href' | alternative href' | allOf href' | property href' | item href'
  | mismatch href' =>
    rw [href] at href'
    cases href'

/-! ### The keywords of the schema itself -/

section Own

variable {root value result : Json} {schema : SchemaObject} {fuel : ℕ}

omit [TextReaders] in
theorem getElem?_of_coerceItems {call : Json → Json → Option Json} {items items' : List Json}
    (h : coerceItems call schema items = some items') {index : ℕ} {item' : Json}
    (hitem' : items'[index]? = some item') :
    ∃ item, items[index]? = some item ∧
      coerceAt call (itemSchema schema index) item = some item' := by
  obtain ⟨hlength, hget⟩ := List.forall₂_iff_get.mp (forall₂_of_mapM_some h)
  obtain ⟨hlt, rfl⟩ := List.getElem?_eq_some_iff.mp hitem'
  have hplace := hget index (hlength ▸ hlt) hlt
  rw [List.get_eq_getElem, List.getElem_zipIdx, Nat.zero_add] at hplace
  have hindex : index < items.length := by
    rw [← List.length_zipIdx (i := 0), hlength]
    exact hlt
  exact ⟨items[index], List.getElem?_eq_getElem hindex, hplace⟩

/-- A string that is changed is read as the first type that it can be read as. -/
theorem exists_firstReads {call : Json → Json → Option Json}
    (hall : arrayAt schema "allOf" = none)
    (h : coerceByType call fuel schema value = some result) (hne : result ≠ value) :
    ∃ s, value = .str s ∧ ((∃ type, type ≠ .array ∧ FirstReads schema s result type) ∨
      ∃ items items', result = .arr items' ∧ FirstReads schema s (.arr items) .array ∧
        coerceItems call schema items = some items') := by
  unfold coerceByType at h
  split at h
  · cases h
    exact absurd rfl hne
  · next types htypes =>
    split at h
    · cases h
      exact absurd rfl hne
    · next hmatch =>
      split at h
      · next s =>
        obtain ⟨answer, hanswer, h⟩ := Option.map_eq_some_iff.mp h
        cases answer with
        | none =>
          cases h
          exact absurd rfl hne
        | some answer =>
          cases h
          obtain ⟨before, type, after, rfl, hbefore, htype⟩ := exists_split_of_firstAnswer hanswer
          have hfirst : ∀ other ∈ before, ∀ value, ¬ Reads s value other :=
            fun other hother value hread => tryCoerceString_ne_of_reads hread (hbefore other hother)
          have hmatch := Bool.eq_false_iff.mpr hmatch
          rcases reads_of_tryCoerceString htype with
            ⟨harray, hread⟩ | ⟨items, items', rfl, rfl, hread, hitems⟩
          · have hsplit : FirstReads schema s answer type :=
              ⟨hall, ⟨before, after, htypes, hmatch, hfirst⟩, hread⟩
            exact ⟨s, rfl, .inl ⟨type, harray, hsplit⟩⟩
          · have hsplit : FirstReads schema s (.arr items) .array :=
              ⟨hall, ⟨before, after, htypes, hmatch, hfirst⟩, hread⟩
            exact ⟨s, rfl, .inr ⟨items, items', rfl, hsplit, hitems⟩⟩
      · cases h
        exact absurd rfl hne

variable (hchildren : ∀ schema v r, coerce root fuel schema v = some r → ¬ Unsettled root schema v →
  ∀ cause, ¬ Touches root cause schema r)

include hchildren

theorem not_touches_items {items items' : List Json}
    (h : coerceItems (coerce root fuel) schema items = some items')
    (hsettled : ∀ index item member, items[index]? = some item →
      itemSchema schema index = some member → isSchema member → ¬ Unsettled root member item) :
    ¬ OwnTouches root schema (.arr items') := by
  intro htouch
  cases htouch with
  | @item member _ index item' _ hitem' hmember hschema htouch =>
    obtain ⟨item, hitem, hcall⟩ := getElem?_of_coerceItems h hitem'
    simp only [coerceAt, hmember, hschema, if_true] at hcall
    exact hchildren member item item' hcall (hsettled index item member hitem hmember hschema) _
      htouch

theorem not_touches_fields {fields fields' : List (String × Json)}
    (h : coerceFields (coerce root fuel) schema fields = some fields')
    (hsettled : ∀ field ∈ fields, ∀ member, propertySchema schema field.1 = some member →
      isSchema member → ¬ Unsettled root member field.2) :
    ¬ OwnTouches root schema (.obj fields') := by
  intro htouch
  cases htouch with
  | @property member _ field' _ hfield' hmember hschema htouch =>
    obtain ⟨field, hfield, hcall⟩ := exists_of_forall₂_right (forall₂_of_mapM_some h) hfield'
    obtain ⟨v, hv, rfl⟩ := Option.map_eq_some_iff.mp hcall
    dsimp only at hmember htouch
    simp only [coerceAt, hmember, hschema, if_true] at hv
    exact hchildren member field.2 v hv (hsettled field hfield member hmember hschema) _ htouch

/-- The keywords have done with a value that they have been applied to. -/
theorem not_ownTouches_of_coerceParts (happlies : Applies root schema value)
    (hall : arrayAt schema "allOf" = none)
    (h : coerceParts (coerce root fuel) fuel schema value = some result)
    (hsettled : ¬ Unsettled root (.obj schema) value) : ¬ OwnTouches root schema result := by
  unfold coerceParts at h
  split at h
  · next fields =>
    obtain ⟨fields', hfields, rfl⟩ := Option.map_eq_some_iff.mp h
    apply not_touches_fields hchildren hfields
    intro field hfield member hmember hschema hchild
    exact hsettled (.property happlies.reference hall hfield hmember hschema hchild)
  · next items =>
    obtain ⟨items', hitems, rfl⟩ := Option.map_eq_some_iff.mp h
    apply not_touches_items hchildren hitems
    intro index item member hitem hmember hschema hchild
    exact hsettled (.item happlies.reference hall hitem hmember hschema hchild)
  · next hobj harr =>
    by_cases hsame : result = value
    · subst hsame
      intro htouch
      cases htouch with
      | property => exact hobj _ rfl
      | item => exact harr _ rfl
      | mismatch htypes hmatch hmem hread =>
        exact coerceByType_ne_self htypes hmatch hmem hread h
    · obtain ⟨s, rfl, ⟨type, harray, hread⟩ | ⟨items, items', rfl, hread, hitems⟩⟩ :=
        exists_firstReads hall h hsame
      · intro htouch
        by_cases hobject : type = .object
        · subst hobject
          obtain ⟨fields, rfl, -⟩ := hread.reads
          exact hsettled (.object happlies hread htouch)
        · exact htouch.not_isScalar (hread.reads.isScalar hobject harray)
      · apply not_touches_items hchildren hitems
        intro index item member hitem hmember hschema hchild
        exact hsettled (.array happlies hread hitem hmember hschema hchild)

end Own

/-! ### The parts of the schema -/

section Parts

variable {root value result : Json} {schema : SchemaObject} {fuel : ℕ} {part : Part}

omit [TextReaders] in
theorem parts_of_allOf {members : List Json} (hall : arrayAt schema "allOf" = some members) :
    parts schema = (alternatives schema ++ members).map Part.member := by
  rw [parts, hall, List.map_append]

omit [TextReaders] in
theorem noAllOf_of_own (h : Part.own ∈ parts schema) : arrayAt schema "allOf" = none := by
  cases hall : arrayAt schema "allOf" with
  | none => rfl
  | some members =>
    rw [parts_of_allOf hall] at h
    obtain ⟨_, -, ⟨⟩⟩ := List.mem_map.mp h

theorem Part.Touches.touches (h : part.Touches root schema value) (hpart : part ∈ parts schema)
    (href : resolveReference root schema = none) :
    ∃ cause, SchemaCoercion.Touches root cause (.obj schema) value := by
  cases part with
  | own => exact OwnTouches.touches h href (noAllOf_of_own hpart)
  | member other =>
    obtain ⟨hschema, cause, h⟩ := h
    rcases List.mem_append.mp hpart with hmem | hmem
    · obtain ⟨_, hmem, ⟨⟩⟩ := List.mem_map.mp hmem
      exact ⟨_, .alternative href hmem hschema h⟩
    · split at hmem
      · next members hall =>
        obtain ⟨_, hmem, ⟨⟩⟩ := List.mem_map.mp hmem
        exact ⟨_, .allOf href hall hmem hschema h⟩
      · cases List.mem_singleton.mp hmem

/-- What touches a value that is not a string touches it with one of its parts. -/
theorem exists_part_of_touches {cause : Cause} (h : Touches root cause (.obj schema) value)
    (href : resolveReference root schema = none) (hvalue : ¬ IsString value) :
    ∃ part ∈ parts schema, part.Touches root schema value := by
  have hown : arrayAt schema "allOf" = none → Part.own ∈ parts schema := by
    intro hall
    rw [parts, hall]
    exact List.mem_append_right _ (List.mem_singleton_self _)
  cases h with
  | reference href' =>
    rw [href] at href'
    cases href'
  | nullable => exact absurd trivial hvalue
  | alternative _ hmem hschema h =>
    exact ⟨.member _, List.mem_append_left _ (List.mem_map_of_mem hmem), hschema, _, h⟩
  | allOf _ hall hmem hschema h =>
    refine ⟨.member _, ?_, hschema, _, h⟩
    rw [parts_of_allOf hall, List.map_append]
    exact List.mem_append_right _ (List.mem_map_of_mem hmem)
  | property _ hall hfield hmember hschema h =>
    exact ⟨.own, hown hall, .property hfield hmember hschema h⟩
  | item _ hall hitem hmember hschema h => exact ⟨.own, hown hall, .item hitem hmember hschema h⟩
  | mismatch => exact absurd trivial hvalue

/-- The part applied to a value. -/
def Part.coerce (root : Json) (fuel : ℕ) (schema : SchemaObject) (value : Json) :
    Part → Option Json
  | .member other => coerceAt (SchemaCoercion.coerce root fuel) (some other) value
  | .own => coerceParts (SchemaCoercion.coerce root fuel) fuel schema value

theorem Part.touches_of_coerce_ne (h : part.coerce root fuel schema value = some result)
    (hne : result ≠ value) : part.Touches root schema value := by
  cases part with
  | own => exact touches_of_coerceParts_ne (fun _ _ _ => SchemaCoercion.touches_of_coerce_ne) h hne
  | member other =>
    have hcall : coerceAt (SchemaCoercion.coerce root fuel) (some other) value = some result := h
    obtain ⟨_, ⟨⟩, hschema, hcall⟩ := exists_of_coerceAt_ne hcall hne
    exact ⟨hschema, SchemaCoercion.touches_of_coerce_ne hcall hne⟩

/-- A change is the change of one part; the members of `allOf` after it are applied to what it
gives. -/
theorem exists_active (h : coerceMembers (coerce root fuel) fuel schema value = some result)
    (hne : result ≠ value) :
    ∃ (i : ℕ) (part : Part) (next : Json) (after : List Json),
      (parts schema)[i]? = some part ∧ part.coerce root fuel schema value = some next ∧
      next ≠ value ∧
      after.foldlM (fun v member => coerceAt (coerce root fuel) (some member) v) next
        = some result ∧
      ∀ member ∈ after, ∃ j, i ≠ j ∧ (parts schema)[j]? = some (.member member) := by
  obtain ⟨answer, hanswer, h⟩ := Option.bind_eq_some_iff.mp h
  cases answer with
  | some answer =>
    cases h
    obtain ⟨member, hmem, hschema, hcall, -⟩ := exists_of_changedBy hanswer
    have hpart : Part.member member ∈ parts schema :=
      List.mem_append_left _ (List.mem_map_of_mem hmem)
    obtain ⟨i, hi⟩ := List.mem_iff_getElem?.mp hpart
    refine ⟨i, .member member, result, [], hi, ?_, hne, rfl, List.forall_mem_nil _⟩
    simpa only [Part.coerce, coerceAt, hschema, if_true] using hcall
  | none =>
    dsimp only at h
    split at h
    · next members hall =>
      obtain ⟨before, member, after, next, rfl, hnext, hchange, hafter⟩ :=
        exists_split_of_foldlM_ne h hne
      refine ⟨(alternatives schema ++ before).length, .member member, next, after, ?_, hnext,
        hchange, hafter, fun later hlater => ?_⟩
      · rw [parts_of_allOf hall, ← List.append_assoc, List.getElem?_map,
          List.getElem?_append_right (Nat.le_refl _), Nat.sub_self]
        rfl
      · obtain ⟨k, hk⟩ := List.mem_iff_getElem?.mp hlater
        refine ⟨(alternatives schema ++ before).length + (k + 1), by omega, ?_⟩
        rw [parts_of_allOf hall, ← List.append_assoc, List.getElem?_map,
          List.getElem?_append_right (Nat.le_add_right _ _), Nat.add_sub_cancel_left,
          List.getElem?_cons_succ, hk]
        rfl
    · next hall =>
      have hpart : Part.own ∈ parts schema := by
        rw [parts, hall]
        exact List.mem_append_right _ (List.mem_singleton_self _)
      obtain ⟨i, hi⟩ := List.mem_iff_getElem?.mp hpart
      exact ⟨i, .own, result, [], hi, h, hne, rfl, List.forall_mem_nil _⟩

theorem replaced_of_part (h : part.coerce root fuel schema value = some result) :
    Replaced value result := by
  cases part with
  | own => exact respected_replaced.of_coerceParts (fun _ _ _ => replaced_of_coerce) h
  | member other =>
    have hcall : coerceAt (coerce root fuel) (some other) value = some result := h
    exact respected_replaced.of_coerceAt (fun _ _ _ => replaced_of_coerce) hcall

variable (hchildren : ∀ schema v r, coerce root fuel schema v = some r →
    ¬ Unsettled root schema v → ∀ cause, ¬ Touches root cause schema r)
  (happlies : Applies root schema value) (hsettled : ¬ Unsettled root (.obj schema) value)

include hchildren happlies hsettled

/-- The part has done with what it gives. -/
theorem not_touches_of_part (hpart : part ∈ parts schema)
    (h : part.coerce root fuel schema value = some result) (hne : result ≠ value) :
    ¬ part.Touches root schema result := by
  cases part with
  | own =>
    exact not_ownTouches_of_coerceParts hchildren happlies (noAllOf_of_own hpart) h hsettled
  | member other =>
    have hcall : coerceAt (coerce root fuel) (some other) value = some result := h
    obtain ⟨_, ⟨⟩, hschema, hcall⟩ := exists_of_coerceAt_ne hcall hne
    rintro ⟨-, cause, htouch⟩
    refine hchildren other value result hcall (fun hother => ?_) cause htouch
    exact hsettled (.member happlies hpart hschema hother)

/-- No part touches a value that the parts have been applied to. -/
theorem not_touches_of_coerceMembers
    (h : coerceMembers (coerce root fuel) fuel schema value = some result)
    (hpart : part ∈ parts schema) : ¬ part.Touches root schema result := by
  by_cases hsame : result = value
  · intro htouch
    rw [hsame] at h htouch
    obtain ⟨cause, htouch⟩ := htouch.touches hpart happlies.reference
    have hself : coerce root (fuel + 1) (.obj schema) value = some value := by
      simp only [coerce, coerceObject, happlies.reference, if_neg happlies.nullable]
      exact h
    exact coerce_ne_of_touches htouch hself
  · obtain ⟨i, active, next, after, hi, hactive, hchange, hafter, hothers⟩ :=
      exists_active h hsame
    have htouch : active.Touches root schema value := active.touches_of_coerce_ne hactive hchange
    have hidle : ∀ j other, i ≠ j → (parts schema)[j]? = some other →
        other.Idle root schema value := by
      intro j other hij hj
      by_contra hidle
      exact hsettled (.clash happlies hi hj hij htouch hidle)
    have hreplaced : Replaced value next := replaced_of_part hactive
    have hnext : ¬ IsString next := hreplaced.eq_or_not_isString.resolve_left hchange
    -- the later members of `allOf` have nothing to do
    have heq : result = next := by
      by_contra hne
      obtain ⟨member, hmem, w, hw, hwne⟩ := exists_of_foldlM_ne hafter hne
      obtain ⟨j, hij, hj⟩ := hothers member hmem
      have hother : Part.coerce root fuel schema next (.member member) = some w := hw
      exact hidle j _ hij hj next hreplaced hnext (Part.touches_of_coerce_ne hother hwne)
    rw [heq]
    obtain ⟨j, hj⟩ := List.mem_iff_getElem?.mp hpart
    by_cases hij : i = j
    · subst hij
      rw [hi] at hj
      cases hj
      exact not_touches_of_part hchildren happlies hsettled hpart hactive hchange
    · exact hidle j part hij hj next hreplaced hnext

end Parts

/-- The schema does not touch what a settled value has been coerced to. -/
theorem not_touches_of_coerce {root schema value result : Json} {fuel : ℕ}
    (h : coerce root fuel schema value = some result) (hsettled : ¬ Unsettled root schema value)
    (cause : Cause) : ¬ Touches root cause schema result := by
  induction fuel generalizing schema value result cause with
  | zero => cases h
  | succ fuel ih =>
    by_cases hsame : result = value
    · rw [hsame] at h ⊢
      exact fun htouch => coerce_ne_of_touches htouch h
    have hstring : ¬ IsString result :=
      (replaced_of_coerce h).eq_or_not_isString.resolve_left hsame
    cases schema with
    | obj schema =>
      simp only [coerce, coerceObject] at h
      split at h
      · next definition href =>
        intro htouch
        exact ih h (fun hdefinition => hsettled (.reference href hdefinition)) cause
          (htouch.of_reference href)
      · next href =>
        split at h
        · cases h
          exact fun htouch => htouch.not_isScalar trivial
        · next hnull =>
          intro htouch
          obtain ⟨part, hpart, htouch⟩ := exists_part_of_touches htouch href hstring
          exact not_touches_of_coerceMembers (fun _ _ _ h hs c => ih h hs c) ⟨href, hnull⟩
            hsettled h hpart htouch
    | _ =>
      cases h
      exact absurd rfl hsame

/-- An object with a field that is an integer. -/
def counterSchema : Json :=
  .obj [("type", .str "object"), ("properties", .obj [("a", .obj [("type", .str "integer")])])]

end HeliosLite.SchemaCoercion
