import HeliosLite.Schema.Changes
import HeliosLite.Theory.Cycles
import HeliosLite.Theory.Entries

/-!
# Coercion comes to an end

A schema passes the value on to the definition it refers to and to the members of `anyOf`,
`oneOf` and `allOf`; to the schemas of properties and items it passes a part of the value.
Coercion ends for every value exactly if no schema that it may come to passes the value on to
itself. What a string is read as counts as a part of it, and must come to an end as well.

A value that is valid under a schema has no string where another type is expected. Coercion
changes it only where the schema is nullable and the string empty, or where an alternative of
`anyOf` or `oneOf` reads a string that the schema as a whole allows.

## Main definitions

* `Passes`, `Descends` — the schemas that a schema applies to the same value, and to its parts
* `Guarded` — no schema passes a value on to itself
* `Readable` — the strings of a value can be read, and those of what they are read as
* `Conforms` — what validity asks at least, of the keywords that coercion looks at

## Main results

* `computes_coerce` — coercion of a readable value to a guarded schema ends
* `exists_diverges` — coercion to a schema that is not guarded does not end for some value
* `terminates_iff_guarded` — coercion ends for all readable values exactly if the schema is
  guarded
* `Conforms.not_mismatch` — no string of a valid value stands where another type is expected
* `coerceToSchema_of_conforms` — a valid value is returned as it is
-/

namespace HeliosLite.SchemaCoercion

open Serde Theory Relation

/-! ### Schemas after a schema -/

/-- The schema applies another one to the same value. -/
inductive Passes (root : Json) : Json → Json → Prop
  | reference {schema definition} (href : resolveReference root schema = some definition) :
      Passes root (.obj schema) definition
  | alternative {schema member} (href : resolveReference root schema = none)
      (hmem : member ∈ alternatives schema) (hschema : isSchema member) :
      Passes root (.obj schema) member
  | allOf {schema members member} (href : resolveReference root schema = none)
      (hall : arrayAt schema "allOf" = some members) (hmem : member ∈ members)
      (hschema : isSchema member) : Passes root (.obj schema) member

/-- The schema applies another one to a field or an item. -/
inductive Descends (root : Json) : Json → Json → Prop
  | property {schema key member} (href : resolveReference root schema = none)
      (hall : arrayAt schema "allOf" = none) (hmember : propertySchema schema key = some member)
      (hschema : isSchema member) : Descends root (.obj schema) member
  | item {schema index member} (href : resolveReference root schema = none)
      (hall : arrayAt schema "allOf" = none) (hmember : itemSchema schema index = some member)
      (hschema : isSchema member) : Descends root (.obj schema) member

/-- The schema applies another one. -/
def Leads (root schema member : Json) : Prop :=
  Passes root schema member ∨ Descends root schema member

/-- No schema that the root leads to passes a value on to itself. -/
def Guarded (root : Json) : Prop :=
  ∀ schema, ReflTransGen (Leads root) root schema → ¬ TransGen (Passes root) schema schema

theorem sizeOf_lt_of_arrayAt {schema : SchemaObject} {key : String} {members : List Json}
    {member : Json} (h : arrayAt schema key = some members) (hmem : member ∈ members) :
    sizeOf member < sizeOf (Json.obj schema) := by
  unfold arrayAt at h
  split at h
  · next items hlookup =>
    cases h
    have hmember := List.sizeOf_lt_of_mem hmem
    have hfield := List.sizeOf_lt_of_mem (mem_of_lookup hlookup)
    simp only [Prod.mk.sizeOf_spec, Json.arr.sizeOf_spec] at hfield
    rw [Json.obj.sizeOf_spec]
    omega
  · cases h

theorem mem_definitions_of_resolveReference {root definition : Json} {schema : SchemaObject}
    (h : resolveReference root schema = some definition) :
    definition ∈ (definitions root).map Prod.snd := by
  unfold resolveReference at h
  split at h
  · obtain ⟨h, -⟩ := Option.filter_eq_some_iff.mp h
    obtain ⟨name, -, h⟩ := Option.bind_eq_some_iff.mp h
    exact List.mem_map.mpr ⟨_, mem_of_lookup h, rfl⟩
  · cases h

/-- The schema after a schema is a definition, or a part of it. -/
theorem Passes.mem_or_sizeOf_lt {root schema member : Json} (h : Passes root schema member) :
    member ∈ { definition | definition ∈ (definitions root).map Prod.snd } ∨
      sizeOf member < sizeOf schema := by
  cases h with
  | reference href => exact .inl (mem_definitions_of_resolveReference href)
  | alternative _ hmem _ =>
    right
    rcases List.mem_append.mp hmem with hmem | hmem
    · cases hany : arrayAt _ "anyOf" with
      | none =>
        rw [hany] at hmem
        cases hmem
      | some members =>
        rw [hany] at hmem
        exact sizeOf_lt_of_arrayAt hany hmem
    · cases hone : arrayAt _ "oneOf" with
      | none =>
        rw [hone] at hmem
        cases hmem
      | some members =>
        rw [hone] at hmem
        exact sizeOf_lt_of_arrayAt hone hmem
  | allOf _ hall hmem _ => exact .inr (sizeOf_lt_of_arrayAt hall hmem)

/-- A schema that the root leads to passes values on only so often. -/
theorem Guarded.acc {root schema : Json} (h : Guarded root)
    (hreach : ReflTransGen (Leads root) root schema) : Acc (flip (Passes root)) schema := by
  apply acc_of_acyclic (List.finite_toSet _) fun _ _ => Passes.mem_or_sizeOf_lt
  intro member hmember
  apply h
  exact hreach.trans (hmember.lift id fun _ _ hpass => .inl hpass)

variable [TextReaders]

/-! ### Values without strings -/

/-- There is no string in the value. -/
inductive StringFree : Json → Prop
  | null : StringFree .null
  | bool {b} : StringFree (.bool b)
  | int {n} : StringFree (.int n)
  | float {x} : StringFree (.float x)
  | arr {items} (h : ∀ v ∈ items, StringFree v) : StringFree (.arr items)
  | obj {fields} (h : ∀ field ∈ fields, StringFree field.2) : StringFree (.obj fields)

omit [TextReaders] in
theorem StringFree.items {items : List Json} (h : StringFree (.arr items)) :
    ∀ v ∈ items, StringFree v := by
  cases h with
  | arr h => exact h

omit [TextReaders] in
theorem StringFree.fields {fields : List (String × Json)} (h : StringFree (.obj fields)) :
    ∀ field ∈ fields, StringFree field.2 := by
  cases h with
  | obj h => exact h

theorem respected_stringFree : Respected fun v r => StringFree v → r = v where
  refl _ _ := rfl
  trans h h' hfree := by
    obtain rfl := h hfree
    exact h' hfree
  arr {items items'} h hfree := by
    have hfree := hfree.items
    have hsame := ((List.forall₂_and_left _ _).mpr ⟨hfree, h⟩).imp fun v r hv => (hv.2 hv.1).symm
    rw [List.forall₂_eq_eq_eq] at hsame
    rw [hsame]
  obj {fields fields'} h hfree := by
    have hfree := hfree.fields
    have hsame := ((List.forall₂_and_left _ _).mpr ⟨hfree, h⟩).imp fun p q hp =>
      (Prod.ext hp.2.1.symm (hp.2.2 hp.1).symm : p = q)
    rw [List.forall₂_eq_eq_eq] at hsame
    rw [hsame]
  empty hfree := by cases hfree
  reads _ hfree := by cases hfree

theorem coerce_stringFree {root schema value result : Json} {fuel : ℕ} (hfree : StringFree value)
    (h : coerce root fuel schema value = some result) : result = value :=
  respected_stringFree.of_coerce h hfree

/-! ### Schemas that pass a value on to themselves -/

section Diverges

variable {root schema member value : Json}

/-- A schema that leaves the value as it is has come to all schemas it passes the value on to,
and they leave it as it is. -/
theorem coerce_of_passes (hpass : Passes root schema member) {fuel : ℕ}
    (h : coerce root (fuel + 1) schema value = some value) :
    coerce root fuel member value = some value := by
  cases hpass with
  | reference href =>
    simp only [coerce, coerceObject, href] at h
    exact h
  | alternative href hmem hschema => exact alternative_of_coerce_eq_self href h hmem hschema
  | allOf href hall hmem hschema => exact allOf_of_coerce_eq_self href h hall hmem hschema

/-- Where the schema comes to one that does not end, it does not end. -/
theorem coerce_eq_none_of_next {part : Json} (hfree : StringFree value)
    (hnext : ∀ fuel, coerce root (fuel + 1) schema value = some value →
      coerce root fuel member part = some part)
    (hnone : ∀ fuel, coerce root fuel member part = none) (fuel : ℕ) :
    coerce root fuel schema value = none := by
  cases fuel with
  | zero => rfl
  | succ fuel =>
    by_contra hne
    obtain ⟨result, hresult⟩ := Option.ne_none_iff_exists'.mp hne
    rw [coerce_stringFree hfree hresult] at hresult
    have hpart := hnext fuel hresult
    rw [hnone fuel] at hpart
    cases hpart

theorem coerce_eq_none_of_cycle (hfree : StringFree value)
    (hcycle : TransGen (Passes root) schema schema) (fuel : ℕ) :
    coerce root fuel schema value = none := by
  induction fuel generalizing schema with
  | zero => rfl
  | succ fuel ih =>
    obtain ⟨member, hpass, hback⟩ := TransGen.head'_iff.mp hcycle
    have hmember : coerce root fuel member value = none := ih (.tail' hback hpass)
    by_contra hne
    obtain ⟨result, hresult⟩ := Option.ne_none_iff_exists'.mp hne
    rw [coerce_stringFree hfree hresult] at hresult
    rw [coerce_of_passes hpass hresult] at hmember
    cases hmember

end Diverges

/-! ### Values that can be read -/

/-- The value nests at most so deep, when its strings are replaced by what they are read as;
both readers come to an end on them. -/
inductive ReadableAt : ℕ → Json → Prop
  | null {n} : ReadableAt n .null
  | bool {n b} : ReadableAt n (.bool b)
  | int {n k} : ReadableAt n (.int k)
  | float {n x} : ReadableAt n (.float x)
  | str {n s} (hjson : ∃ answer, jsonReader.Answers s answer)
      (harray : ∃ answer, arrayReader.Answers s answer)
      (h : ∀ value type, Reads s value type → ReadableAt n value) : ReadableAt n (.str s)
  | arr {n items} (h : ∀ v ∈ items, ReadableAt n v) : ReadableAt (n + 1) (.arr items)
  | obj {n fields} (h : ∀ field ∈ fields, ReadableAt n field.2) : ReadableAt (n + 1) (.obj fields)

/-- The strings of the value can be read, and those of what they are read as. -/
def Readable (value : Json) : Prop := ∃ n, ReadableAt n value

theorem respected_readableAt : Respected fun v r => ∀ n, ReadableAt n v → ReadableAt n r where
  refl _ _ := id
  trans h h' n hv := h' n (h n hv)
  arr {items items'} h n hitems := by
    cases hitems with
    | @arr n _ hitems =>
      refine .arr fun r hr => ?_
      obtain ⟨v, hv, hvr⟩ := exists_of_forall₂_right h hr
      exact hvr n (hitems v hv)
  obj {fields fields'} h n hfields := by
    cases hfields with
    | @obj n _ hfields =>
      refine .obj fun q hq => ?_
      obtain ⟨p, hp, -, hpq⟩ := exists_of_forall₂_right h hq
      exact hpq n (hfields p hp)
  empty _ _ := .null
  reads hread n hs := by
    cases hs with
    | str _ _ h => exact h _ _ hread

/-! ### Schemas to which coercion ends -/

section Computes

variable {root value : Json} {schema : SchemaObject} {n : ℕ}

theorem computes_coerceAt (value : Json) (member : Option Json)
    (h : ∀ schema, member = some schema → isSchema schema →
      ∃ result, Computes (fun fuel => coerce root fuel schema value) result) :
    ∃ result, Computes (fun fuel => coerceAt (coerce root fuel) member value) result := by
  unfold coerceAt
  split
  · split
    · next hschema => exact h _ rfl hschema
    · exact ⟨value, computes_const⟩
  · exact ⟨value, computes_const⟩

/-- An outcome is given under some budget. -/
theorem readableAt_of_computes {member : Option Json} {result : Json} (hvalue : ReadableAt n value)
    (h : Computes (fun fuel => coerceAt (coerce root fuel) member value) result) :
    ReadableAt n result := by
  obtain ⟨fuel, hfuel⟩ := h.1
  exact respected_readableAt.of_coerceAt (fun _ _ _ => respected_readableAt.of_coerce)
    (hfuel fuel (Nat.le_refl fuel)) n hvalue

theorem computes_coerceItems {items : List Json}
    (h : ∀ index member, itemSchema schema index = some member → isSchema member →
      ∀ item ∈ items, ∃ result, Computes (fun fuel => coerce root fuel member item) result) :
    ∃ items', Computes (fun fuel => coerceItems (coerce root fuel) schema items) items' := by
  apply exists_computes_mapM
  rintro ⟨item, index⟩ hitem
  apply computes_coerceAt item
  intro member hmember hschema
  exact h index member hmember hschema item (List.fst_mem_of_mem_zipIdx hitem)

theorem computes_coerceFields {fields : List (String × Json)}
    (h : ∀ key member, propertySchema schema key = some member → isSchema member →
      ∀ field ∈ fields, ∃ result, Computes (fun fuel => coerce root fuel member field.2) result) :
    ∃ fields', Computes (fun fuel => coerceFields (coerce root fuel) schema fields) fields' := by
  apply exists_computes_mapM
  intro field hfield
  obtain ⟨result, hresult⟩ := computes_coerceAt field.2 _ fun member hmember hschema =>
    h field.1 member hmember hschema field hfield
  exact ⟨_, hresult.option_map⟩

theorem computes_readArray {s : String} (hjson : ∃ answer, jsonReader.Answers s answer)
    (harray : ∃ answer, arrayReader.Answers s answer) :
    ∃ items, Computes (fun fuel => readArray fuel s) items := by
  obtain ⟨answer, hanswer⟩ := hjson
  obtain ⟨found, hfound⟩ := harray
  apply hanswer.exists_option_bind
  split
  · exact ⟨_, computes_const⟩
  · exact ⟨_, hfound.option_map⟩

/-! One level of the schema, when the schemas after it end. -/

variable (hpass : ∀ member, Passes root (.obj schema) member → ∀ v, ReadableAt n v →
    ∃ result, Computes (fun fuel => coerce root fuel member v) result)
  (hdescend : ∀ member, Descends root (.obj schema) member → ∀ k < n, ∀ v, ReadableAt k v →
    ∃ result, Computes (fun fuel => coerce root fuel member v) result)
  (href : resolveReference root schema = none)

section Parts

variable (hall : arrayAt schema "allOf" = none)

include hdescend href hall

theorem computes_items {items : List Json} (hitems : ReadableAt n (.arr items)) :
    ∃ items', Computes (fun fuel => coerceItems (coerce root fuel) schema items) items' := by
  cases hitems with
  | @arr k _ hitems =>
    apply computes_coerceItems
    intro index member hmember hschema item hitem
    exact hdescend member (.item href hall hmember hschema) k (Nat.lt_succ_self k) item
      (hitems item hitem)

theorem computes_tryCoerceString {s : String} (hs : ReadableAt n (.str s)) (type : InstanceType) :
    ∃ answer,
      Computes (fun fuel => tryCoerceString (coerce root fuel) fuel schema s type) answer := by
  cases hs with
  | str hjson harray h =>
    cases type with
    | object =>
      obtain ⟨answer, hanswer⟩ := hjson
      exact ⟨_, hanswer.option_map⟩
    | array =>
      obtain ⟨answer, hanswer⟩ := computes_readArray hjson harray
      cases answer with
      | none => exact ⟨none, hanswer.option_bind computes_const⟩
      | some items =>
        obtain ⟨fuel, hfuel⟩ := hanswer.1
        have hread := readsArray_of_readArray (hfuel fuel (Nat.le_refl fuel))
        obtain ⟨items', hitems⟩ := computes_items hdescend href hall
          (h (.arr items) .array ⟨items, rfl, hread⟩)
        exact ⟨_, hanswer.option_bind hitems.option_map⟩
    | _ => exact ⟨_, computes_const⟩

theorem computes_coerceByType (hvalue : ReadableAt n value) :
    ∃ result, Computes (fun fuel => coerceByType (coerce root fuel) fuel schema value) result := by
  unfold coerceByType
  split
  · exact ⟨value, computes_const⟩
  · split
    · exact ⟨value, computes_const⟩
    · split
      · obtain ⟨answer, hanswer⟩ := exists_computes_firstAnswer fun type _ =>
          computes_tryCoerceString hdescend href hall hvalue type
        exact ⟨_, hanswer.option_map⟩
      · exact ⟨value, computes_const⟩

theorem computes_coerceParts (hvalue : ReadableAt n value) :
    ∃ result, Computes (fun fuel => coerceParts (coerce root fuel) fuel schema value) result := by
  unfold coerceParts
  split
  · next fields =>
    cases hvalue with
    | @obj k _ hfields =>
      obtain ⟨fields', hfields'⟩ :=
        computes_coerceFields fun key member hmember hschema field hfield =>
          hdescend member (.property href hall hmember hschema) k (Nat.lt_succ_self k) field.2
            (hfields field hfield)
      exact ⟨_, hfields'.option_map⟩
  · next items =>
    obtain ⟨items', hitems'⟩ := computes_items hdescend href hall hvalue
    exact ⟨_, hitems'.option_map⟩
  · exact computes_coerceByType hdescend href hall hvalue

end Parts

include hpass in
theorem computes_foldlM {members : List Json}
    (hmembers : ∀ member ∈ members, isSchema member → Passes root (.obj schema) member)
    (hvalue : ReadableAt n value) :
    ∃ result, Computes (fun fuel => members.foldlM
      (fun result member => coerceAt (coerce root fuel) (some member) result) value) result := by
  induction members generalizing value with
  | nil => exact ⟨value, computes_const⟩
  | cons member members ih =>
    obtain ⟨hmember, hrest⟩ := List.forall_mem_cons.mp hmembers
    obtain ⟨next, hnext⟩ := computes_coerceAt value (some member) fun _ heq hschema => by
      cases heq
      exact hpass member (hmember hschema) value hvalue
    obtain ⟨result, hresult⟩ := ih hrest (readableAt_of_computes hvalue hnext)
    exact ⟨result, hnext.option_bind hresult⟩

include hpass hdescend href in
theorem computes_coerceMembers (hvalue : ReadableAt n value) :
    ∃ result, Computes (fun fuel => coerceMembers (coerce root fuel) fuel schema value) result := by
  have halternatives : ∀ member ∈ alternatives schema,
      ∃ answer, Computes (fun fuel => changedBy (coerce root fuel) value member) answer := by
    intro member hmem
    obtain ⟨r, hr⟩ := computes_coerceAt value (some member) fun _ heq hschema => by
      cases heq
      exact hpass member (.alternative href hmem hschema) value hvalue
    exact ⟨_, hr.option_map⟩
  obtain ⟨answer, hanswer⟩ := exists_computes_firstAnswer halternatives
  cases answer with
  | some answer => exact ⟨answer, hanswer.option_bind computes_const⟩
  | none =>
    cases hall : arrayAt schema "allOf" with
    | none =>
      obtain ⟨result, hresult⟩ := computes_coerceParts hdescend href hall hvalue
      refine ⟨result, hanswer.option_bind ?_⟩
      simp only [hall]
      exact hresult
    | some members =>
      obtain ⟨result, hresult⟩ := computes_foldlM hpass
        (fun member hmem hschema => .allOf href hall hmem hschema) hvalue
      refine ⟨result, hanswer.option_bind ?_⟩
      simp only [hall]
      exact hresult

include hpass hdescend in
omit href in
theorem computes_coerce_obj (hvalue : ReadableAt n value) :
    ∃ result, Computes (fun fuel => coerce root fuel (.obj schema) value) result := by
  have hbody : ∃ result,
      Computes (fun fuel => coerce root (fuel + 1) (.obj schema) value) result := by
    cases href : resolveReference root schema with
    | some definition =>
      simp only [coerce, coerceObject, href]
      exact hpass definition (.reference href) value hvalue
    | none =>
      simp only [coerce, coerceObject, href]
      split
      · exact ⟨_, computes_const⟩
      · exact computes_coerceMembers hpass hdescend href hvalue
  obtain ⟨result, hresult⟩ := hbody
  exact ⟨result, hresult.succ rfl⟩

end Computes

/-- Coercion to a schema that is guarded ends. -/
theorem computes_coerce {root schema value : Json} {n : ℕ} (hguarded : Guarded root)
    (hreach : ReflTransGen (Leads root) root schema) (hvalue : ReadableAt n value) :
    ∃ result, Computes (fun fuel => coerce root fuel schema value) result := by
  induction n using Nat.strong_induction_on generalizing schema value with
  | _ n ihn =>
    have hacc := hguarded.acc hreach
    induction hacc generalizing value with
    | intro schema _ ih =>
      cases schema with
      | obj schema =>
        apply computes_coerce_obj (n := n) _ _ hvalue
        · intro member hpass v hv
          exact ih member hpass (hreach.tail (.inl hpass)) hv
        · intro member hdescend k hk v hv
          exact ihn k hk (hreach.tail (.inr hdescend)) hv
      | _ => exact ⟨value, Computes.succ computes_const rfl⟩

/-- Coercion to a schema that comes to a cycle does not end for some value without strings. -/
theorem exists_diverges {root schema member : Json}
    (hreach : ReflTransGen (Leads root) schema member)
    (hcycle : TransGen (Passes root) member member) :
    ∃ value, StringFree value ∧ Readable value ∧ ∀ fuel, coerce root fuel schema value = none := by
  induction hreach using ReflTransGen.head_induction_on with
  | refl => exact ⟨.null, .null, ⟨0, .null⟩, coerce_eq_none_of_cycle .null hcycle⟩
  | @head schema next hstep _ ih =>
    obtain ⟨value, hfree, ⟨n, hread⟩, hnone⟩ := ih
    rcases hstep with hpass | hdescend
    · refine ⟨value, hfree, ⟨n, hread⟩, ?_⟩
      exact coerce_eq_none_of_next hfree (fun _ => coerce_of_passes hpass) hnone
    · cases hdescend with
      | @property schema key _ href hall hmember hschema =>
        have hobj : StringFree (.obj [(key, value)]) := .obj (by simpa using hfree)
        refine ⟨.obj [(key, value)], hobj, ⟨n + 1, .obj (by simpa using hread)⟩, ?_⟩
        refine coerce_eq_none_of_next hobj (fun fuel h => ?_) hnone
        exact property_of_coerce_eq_self href hall h (List.mem_singleton_self _) hmember hschema
      | @item schema index _ href hall hmember hschema =>
        -- the items before the one at the index are null
        have harr : StringFree (.arr (List.replicate index .null ++ [value])) := by
          refine .arr fun v hv => ?_
          rcases List.mem_append.mp hv with hv | hv
          · rw [List.eq_of_mem_replicate hv]
            exact .null
          · rw [List.mem_singleton.mp hv]
            exact hfree
        have hlevel : ReadableAt (n + 1) (.arr (List.replicate index .null ++ [value])) := by
          refine .arr fun v hv => ?_
          rcases List.mem_append.mp hv with hv | hv
          · rw [List.eq_of_mem_replicate hv]
            exact .null
          · rw [List.mem_singleton.mp hv]
            exact hread
        refine ⟨_, harr, ⟨n + 1, hlevel⟩, coerce_eq_none_of_next harr (fun fuel h => ?_) hnone⟩
        have hitem : (List.replicate index Json.null ++ [value])[index]? = some value := by
          rw [List.getElem?_append_right (by simp)]
          simp
        exact item_of_coerce_eq_self href hall h hitem hmember hschema

/-- Coercion ends for all values whose strings can be read exactly if no schema that the root
leads to passes a value on to itself. -/
theorem terminates_iff_guarded (root : Json) :
    (∀ value, Readable value →
      ∃ result, Computes (fun fuel => coerceToSchema fuel value root) result) ↔ Guarded root := by
  constructor
  · intro hends schema hreach hcycle
    obtain ⟨value, -, hread, hnone⟩ := exists_diverges hreach hcycle
    obtain ⟨result, hresult⟩ := hends value hread
    exact hresult.not_diverges hnone
  · rintro hguarded value ⟨n, hvalue⟩
    exact computes_coerce hguarded .refl hvalue

/-- A schema with a definition that refers to itself. -/
def selfReference : Json :=
  .obj [("$ref", .str "#/$defs/A"), ("$defs", .obj [("A", .obj [("$ref", .str "#/$defs/A")])])]

omit [TextReaders] in
theorem not_terminates_selfReference : ¬ ∃ result,
    Computes (fun fuel => @coerceToSchema plainReaders fuel .null selfReference) result := by
  rintro ⟨result, hresult⟩
  have hself : Passes selfReference (.obj [("$ref", .str "#/$defs/A")])
      (.obj [("$ref", .str "#/$defs/A")]) := .reference (by decide)
  have hroot : Passes selfReference selfReference (.obj [("$ref", .str "#/$defs/A")]) :=
    .reference (by decide)
  refine hresult.not_diverges fun fuel => ?_
  exact @coerce_eq_none_of_next plainReaders _ _ _ _ _ .null
    (fun _ => @coerce_of_passes plainReaders _ _ _ _ hroot _)
    (@coerce_eq_none_of_cycle plainReaders _ _ _ .null (.single hself)) fuel

end HeliosLite.SchemaCoercion

/-! ### Values that are valid -/

namespace HeliosLite.SchemaCoercion

open Serde Theory Relation

/-- The type allows the value. A float is an integer where its fraction is zero, which is not
asked here. -/
def InstanceType.allows (type : InstanceType) (value : Json) : Bool :=
  typeMatches type value || (type = .integer && typeMatches .number value)

/-- The value is valid under the schema as far as the keywords are concerned that coercion looks
at; other keywords may forbid more. Some member of `anyOf` allows it, and some member of
`oneOf`. -/
inductive Conforms (root : Json) : Json → Json → Prop
  | true {value} : Conforms root (.bool true) value
  | reference {schema definition value}
      (href : resolveReference root schema = some definition)
      (h : Conforms root definition value) : Conforms root (.obj schema) value
  | keywords {schema value} (href : resolveReference root schema = none)
      (htype : ∀ types, targetTypes schema = some types → types.any (·.allows value))
      (hproperty : ∀ fields, value = .obj fields → ∀ field ∈ fields, ∀ member,
        propertySchema schema field.1 = some member → isSchema member →
          Conforms root member field.2)
      (hitem : ∀ items, value = .arr items → ∀ index item, items[index]? = some item →
        ∀ member, itemSchema schema index = some member → isSchema member →
          Conforms root member item)
      (hallOf : ∀ members, arrayAt schema "allOf" = some members → ∀ member ∈ members,
        isSchema member → Conforms root member value)
      (choice : String → Json)
      (hchoice : ∀ key ∈ ["anyOf", "oneOf"], ∀ members, arrayAt schema key = some members →
        choice key ∈ members)
      (hmember : ∀ key ∈ ["anyOf", "oneOf"], arrayAt schema key ≠ none →
        Conforms root (choice key) value) :
      Conforms root (.obj schema) value

variable [TextReaders] {root schema value : Json}

omit [TextReaders] in
theorem InstanceType.allows_str (type : InstanceType) (s : String) :
    type.allows (.str s) = typeMatches type (.str s) := by
  cases type <;> rfl

/-- No string of a valid value stands where another type is expected. -/
theorem Conforms.not_mismatch (hvalid : Conforms root schema value) :
    ¬ Touches root .mismatch schema value := by
  intro h
  generalize hcause : Cause.mismatch = cause at h
  induction h with
  | reference href _ ih =>
    cases hvalid with
    | reference href' hvalid =>
      rw [href] at href'
      cases href'
      exact ih hvalid hcause
    | keywords href' =>
      rw [href] at href'
      cases href'
  | nullable => cases hcause
  | alternative => cases hcause
  | allOf href hall hmem hschema _ ih =>
    cases hvalid with
    | reference href' =>
      rw [href] at href'
      cases href'
    | keywords _ _ _ _ hallOf => exact ih (hallOf _ hall _ hmem hschema) hcause
  | property href hall hfield hmember hschema _ ih =>
    cases hvalid with
    | reference href' =>
      rw [href] at href'
      cases href'
    | keywords _ _ hproperty =>
      exact ih (hproperty _ rfl _ hfield _ hmember hschema) hcause
  | item href hall hitem hmember hschema _ ih =>
    cases hvalid with
    | reference href' =>
      rw [href] at href'
      cases href'
    | keywords _ _ _ hitems => exact ih (hitems _ rfl _ _ hitem _ hmember hschema) hcause
  | mismatch href hall htypes hmatch hmem hread =>
    cases hvalid with
    | reference href' =>
      rw [href] at href'
      cases href'
    | keywords _ htype =>
      have hallows := htype _ htypes
      simp only [InstanceType.allows_str] at hallows
      rw [hmatch] at hallows
      cases hallows

/-- A valid value is not changed, unless an empty string stands where the schema is nullable or
an alternative reads a string. -/
theorem Conforms.eq_of_coerce (hvalid : Conforms root schema value)
    (hnullable : ¬ Touches root .nullable schema value)
    (halternative : ¬ Touches root .alternative schema value) {fuel : ℕ} {result : Json}
    (h : coerce root fuel schema value = some result) : result = value := by
  by_contra hne
  obtain ⟨cause, htouch⟩ := touches_of_coerce_ne h hne
  cases cause with
  | mismatch => exact hvalid.not_mismatch htouch
  | nullable => exact hnullable htouch
  | alternative => exact halternative htouch

/-- The schema of a string, which may be nullable. -/
def stringSchema (nullable : Bool) : SchemaObject :=
  [("type", .str "string"), ("nullable", .bool nullable)]

omit [TextReaders] in
theorem conforms_stringSchema (nullable : Bool) (s : String) :
    Conforms (.obj (stringSchema nullable)) (.obj (stringSchema nullable)) (.str s) := by
  apply Conforms.keywords rfl
  · rintro types ⟨⟩
    rfl
  · rintro fields ⟨⟩
  · rintro items ⟨⟩
  · rintro members ⟨⟩
  · rintro key hkey members hmembers
    rcases List.mem_pair.mp hkey with rfl | rfl <;> cases hmembers
  · intro key hkey hmembers
    rcases List.mem_pair.mp hkey with rfl | rfl <;> exact absurd rfl hmembers
  · exact fun _ => .null

omit [TextReaders] in
theorem guarded_stringSchema (nullable : Bool) : Guarded (.obj (stringSchema nullable)) := by
  have hnext : ∀ schema,
      ¬ Passes (.obj (stringSchema nullable)) (.obj (stringSchema nullable)) schema := by
    intro schema hpass
    cases hpass with
    | reference href => cases href
    | alternative _ hmem => cases hmem
    | allOf _ hall => cases hall
  intro schema hreach hcycle
  rcases hreach.cases_head with rfl | ⟨next, hlead, -⟩
  · obtain ⟨next, hpass, -⟩ := TransGen.head'_iff.mp hcycle
    exact hnext next hpass
  · rcases hlead with hpass | hdescend
    · exact hnext next hpass
    · cases hdescend with
      | property _ _ hmember => cases hmember
      | item _ _ hmember => cases hmember

omit [TextReaders] in
theorem readable_empty : @Readable plainReaders (.str "") := by
  have hjson : Reader.Answers (@jsonReader plainReaders) "" none :=
    @Reader.answers_of_run _ 8 _ _ (by decide +kernel)
  have harray : Reader.Answers (@arrayReader plainReaders) "" none :=
    @Reader.answers_of_run _ 8 _ _ (by decide +kernel)
  refine ⟨0, @ReadableAt.str plainReaders _ _ ⟨_, hjson⟩ ⟨_, harray⟩ fun value type hread => ?_⟩
  exfalso
  cases type with
  | integer => cases hread
  | number => cases hread
  | boolean => rcases hread with ⟨hread, -⟩ | ⟨-, hread, -⟩ <;> cases hread
  | null => cases hread.1
  | string => exact hread
  | object =>
    obtain ⟨fields, -, hread⟩ := hread
    cases hread.eq hjson
  | array =>
    obtain ⟨items, -, hread | ⟨_, -, -, hread⟩⟩ := hread
    · cases hread.eq hjson
    · cases hread.eq harray

end HeliosLite.SchemaCoercion
