import HeliosLite.Serde.JsonText

/-!
# Records in JSON

How a serializer derived for a record type writes its fields and enumerations, and how
the derived deserializer reads them: unknown keys are ignored, a repeated key is an error,
and each field says what its absence means. A record that is written, printed, parsed and
read gives back its fields, each of them reloaded by itself.

## Main definitions

* `Json.record` — the object with the present fields of a record
* `Json.structFields`, `Json.required`, `Json.optional`, `Json.defaulted` — reading a record
* `Json.tagged` — reading an externally tagged enumeration
* `Json.reparsed`, `Json.reloaded` — a document after it was printed and parsed, as it
  stands in the text and as a value in memory

## Main results

* `field_parsed`, `field_loaded` — a field of a record reads back
-/

namespace Serde

namespace Json

/-! ### Writing -/

/-- The fields of a record that are not skipped. -/
def present (fields : List (String × Option Json)) : List (String × Json) :=
  fields.filterMap fun p => p.2.map fun v => (p.1, v)

/-- The object of a record, its fields in the order of their declaration. -/
def record (fields : List (String × Option Json)) : Json := .obj (present fields)

/-- An option that is written as `null` when it is absent. -/
def nullable (v : Option Json) : Json := v.getD .null

def ofU64 (n : UInt64) : Json :=
  .int ⟨n.toNat, by have := n.toNat_lt; omega, by have := n.toNat_lt; omega⟩

def ofU32 (n : UInt32) : Json :=
  .int ⟨n.toNat, by have := n.toNat_lt; omega, by have := n.toNat_lt; omega⟩

def ofI32 (n : Int32) : Json :=
  .int ⟨n.toInt, by have := n.le_toInt; omega, by have := n.toInt_lt; omega⟩

/-- A float; JSON has no number for an infinity or a NaN. -/
def ofF64 (x : F64) : Json := if h : x.isFinite then .float ⟨x, h⟩ else .null

def ofF32 [JsonText] (x : F32) : Json :=
  if h : x.isFinite then .float (JsonText.ofF32 ⟨x, h⟩) else .null

/-! ### Reading -/

/-- The fields of a struct, given by an object or by an array in the order of their
declaration. The array may leave out fields from the end, up to the number of
`defaults`. -/
def structFields (names : List String) (defaults : ℕ) : Json → Option (List (String × Json))
  | .obj fields => some fields
  | .arr items =>
    if names.length ≤ items.length + defaults ∧ items.length ≤ names.length then
      some (names.zip items)
    else none
  | _ => none

/-- The value of at most one field. -/
def atMostOne : List (String × Json) → Option (Option Json)
  | [] => some none
  | [p] => some (some p.2)
  | _ => none

/-- The value under a key, if any; a repeated key is an error. -/
def field (fields : List (String × Json)) (key : String) : Option (Option Json) :=
  atMostOne (fields.filter fun p => p.1 == key)

section Decode

variable {α : Type*} (decode : Json → Option α)

/-- A value that may be `null`. -/
def readOption : Option Json → Option (Option α)
  | none | some .null => some none
  | some v => (decode v).map some

/-- A field that must be there. -/
def required (fields : List (String × Json)) (key : String) : Option α :=
  (field fields key).join.bind decode

/-- A field of an optional type: it may be missing or `null`. -/
def optional (fields : List (String × Json)) (key : String) : Option (Option α) :=
  (field fields key).bind (readOption decode)

/-- A field that takes its default when it is missing. -/
def defaulted (default : α) (fields : List (String × Json)) (key : String) : Option α :=
  (field fields key).bind fun
    | none => some default
    | some v => decode v

def listOf : Json → Option (List α)
  | .arr items => items.mapM decode
  | _ => none

end Decode

/-- The tag of an externally tagged enumeration, with its content. -/
def variant : Json → Option (String × Option Json)
  | .str tag => some (tag, none)
  | .obj [(tag, v)] => some (tag, some v)
  | _ => none

section Tagged

variable {α β : Type*}

/-- A variant without fields. -/
def unitCase (a : α) : Option Json → Option α
  | none | some .null => some a
  | some _ => none

/-- A variant with one field, or with the fields of a struct. -/
def newtypeCase (decode : Json → Option α) (f : α → β) : Option Json → Option β
  | some v => (decode v).map f
  | none => none

/-- An externally tagged enumeration, by the readers of its variants. -/
def tagged (cases : List (String × (Option Json → Option α))) (v : Json) : Option α :=
  (variant v).bind fun (tag, content) => (cases.lookup tag).bind fun decode => decode content

end Tagged

def string : Json → Option String
  | .str s => some s
  | _ => none

def boolean : Json → Option Bool
  | .bool b => some b
  | _ => none

def u64 : Json → Option UInt64
  | .int n => if 0 ≤ n.val then some (UInt64.ofNat n.val.toNat) else none
  | _ => none

def u32 : Json → Option UInt32
  | .int n =>
    if 0 ≤ n.val ∧ n.val < 2 ^ 32 then some (UInt32.ofNat n.val.toNat) else none
  | _ => none

def i32 : Json → Option Int32
  | .int n => if -2 ^ 31 ≤ n.val ∧ n.val < 2 ^ 31 then some (Int32.ofInt n.val) else none
  | _ => none

def f64 [JsonText] : Json → Option F64
  | .float x => some x.val
  | .int n => some (JsonText.ofInt n).val
  | _ => none

def f32 [JsonText] : Json → Option F32
  | .float x => some (JsonText.toF32 x)
  | .int n => some (JsonText.intToF32 n)
  | _ => none

/-! ### Fields of a written record -/

theorem atMostOne_perm : ∀ {fs gs : List (String × Json)}, fs.Perm gs →
    atMostOne fs = atMostOne gs
  | [], _, h => by rw [h.nil_eq]
  | [p], _, h => by rw [List.singleton_perm.mp h]
  | _ :: _ :: _, [], h | _ :: _ :: _, [_], h => absurd h.length_eq (by simp)
  | _ :: _ :: _, _ :: _ :: _, _ => rfl

theorem field_perm {fs gs : List (String × Json)} (h : fs.Perm gs) (key : String) :
    field fs key = field gs key :=
  atMostOne_perm (h.filter _)

theorem atMostOne_map (g : Json → Json) : ∀ fs : List (String × Json),
    atMostOne (fs.map fun p => (p.1, g p.2)) = (atMostOne fs).map (Option.map g)
  | [] | [_] | _ :: _ :: _ => rfl

theorem field_map (g : Json → Json) (fs : List (String × Json)) (key : String) :
    field (fs.map fun p => (p.1, g p.2)) key = (field fs key).map (Option.map g) := by
  rw [field, List.filter_map]
  exact atMostOne_map g _

theorem present_cons_none (k : String) (l : List (String × Option Json)) :
    present ((k, none) :: l) = present l := rfl

theorem present_cons_some (k : String) (v : Json) (l : List (String × Option Json)) :
    present ((k, some v) :: l) = (k, v) :: present l := rfl

theorem mem_keys_of_mem_present {l : List (String × Option Json)} {p : String × Json}
    (h : p ∈ present l) : p.1 ∈ l.map Prod.fst := by
  obtain ⟨q, hq, hp⟩ := List.mem_filterMap.mp h
  obtain ⟨v, -, rfl⟩ := Option.map_eq_some_iff.mp hp
  exact List.mem_map_of_mem hq

/-- A record is one level deeper than its fields. -/
theorem depth_record_le {n : ℕ} {l : List (String × Option Json)}
    (h : ∀ p ∈ l, ∀ v ∈ p.2, v.depth ≤ n) : (record l).depth ≤ n + 1 := by
  rw [record, depth]
  apply Nat.succ_le_succ
  apply depthFields_le.mpr
  intro p hp
  obtain ⟨q, hq, hp⟩ := List.mem_filterMap.mp hp
  obtain ⟨v, hv, rfl⟩ := Option.map_eq_some_iff.mp hp
  exact h q hq v hv

/-- A field of a record with different keys is the one that was put there. -/
theorem field_present {l : List (String × Option Json)} (h : (l.map Prod.fst).Nodup)
    (key : String) : field (present l) key = some (l.lookup key).join := by
  induction l with
  | nil => rfl
  | cons p l ih =>
    obtain ⟨k, v⟩ := p
    obtain ⟨hk, hl⟩ := List.nodup_cons.mp h
    by_cases hkey : k = key
    · -- no later field has the key
      subst hkey
      have hrest : (present l).filter (fun p => p.1 == k) = [] := by
        apply List.filter_eq_nil_iff.mpr
        intro p hp heq
        exact hk (eq_of_beq heq ▸ mem_keys_of_mem_present hp)
      cases v with
      | none => rw [field, present_cons_none, hrest, List.lookup_cons_self]; rfl
      | some v =>
        rw [field, present_cons_some, List.filter_cons_of_pos (by simp), hrest,
          List.lookup_cons_self]
        rfl
    · have hne : (key == k) = false := beq_false_of_ne (Ne.symm hkey)
      rw [List.lookup_cons, hne, ← ih hl]
      cases v with
      | none => rfl
      | some v => rw [field, present_cons_some, List.filter_cons_of_neg (by simpa), field]

theorem nodup_present {l : List (String × Option Json)} (h : (l.map Prod.fst).Nodup) :
    ((present l).map Prod.fst).Nodup := by
  induction l with
  | nil => exact List.nodup_nil
  | cons p l ih =>
    obtain ⟨k, v⟩ := p
    obtain ⟨hk, hl⟩ := List.nodup_cons.mp h
    cases v with
    | none => exact ih hl
    | some v =>
      refine List.nodup_cons.mpr ⟨?_, ih hl⟩
      intro hmem
      obtain ⟨p, hp, rfl⟩ := List.mem_map.mp hmem
      exact hk (mem_keys_of_mem_present hp)

/-! ### Leaves and options -/

@[simp] theorem string_str (s : String) : string (.str s) = some s := rfl

@[simp] theorem boolean_bool (b : Bool) : boolean (.bool b) = some b := rfl

@[simp] theorem u64_ofU64 (n : UInt64) : u64 (ofU64 n) = some n := by
  simp [u64, ofU64]

@[simp] theorem u32_ofU32 (n : UInt32) : u32 (ofU32 n) = some n := by
  have := n.toNat_lt
  simp [u32, ofU32]
  omega

@[simp] theorem i32_ofI32 (n : Int32) : i32 (ofI32 n) = some n := by
  have hlow := n.le_toInt
  have hhigh := n.toInt_lt
  simp [i32, ofI32]
  omega

/-- A conversion that always succeeds on a list. -/
theorem mapM_some {α β : Type*} {decode : α → Option β} {f : α → β}
    (h : ∀ x, decode x = some (f x)) (xs : List α) : xs.mapM decode = some (xs.map f) := by
  have hdecode : decode = fun x => some (f x) := by
    funext x
    exact h x
  rw [hdecode]
  exact List.mapM_pure

section Options

variable {α β : Type*} {encode : α → Json} {decode : Json → Option β} {f : α → β}
  {reload : Json → Json}

/-- An option that is skipped when absent reads back when its values do. -/
theorem readOption_map (x : Option α)
    (h : ∀ a ∈ x, decode (reload (encode a)) = some (f a))
    (hnull : ∀ a, reload (encode a) ≠ .null) :
    readOption decode (x.map (reload ∘ encode)) = some (x.map f) := by
  cases x with
  | none => rfl
  | some a =>
    rw [Option.map_some, Function.comp_apply, readOption, h a rfl]
    · rfl
    · exact hnull a

/-- An option written as `null` when absent reads back when its values do. -/
theorem readOption_nullable (x : Option α)
    (hreload : reload .null = .null)
    (h : ∀ a ∈ x, decode (reload (encode a)) = some (f a))
    (hnull : ∀ a, reload (encode a) ≠ .null) :
    readOption decode (some (reload (nullable (x.map encode)))) = some (x.map f) := by
  cases x with
  | none => rw [Option.map_none, nullable, Option.getD_none, hreload]; rfl
  | some a => exact readOption_map (some a) h hnull

end Options

/-! ### Documents that were printed and parsed -/

variable [JsonText]

/-- The document of the text of a document. -/
def reparsed (v : Json) : Json := v.mapFloat JsonText.reread

/-- The value in memory of the text of a document. -/
def reloaded (v : Json) : Json := v.reparsed.toValue

/-- The fields of a record in its text. -/
def parsedFields (l : List (String × Option Json)) : List (String × Json) :=
  (present l).map fun p => (p.1, p.2.reparsed)

/-- The fields of a record in the value of its text. -/
def loadedFields (l : List (String × Option Json)) : List (String × Json) :=
  toValueFields (parsedFields l) []

theorem reparsed_record (l : List (String × Option Json)) :
    (record l).reparsed = .obj (parsedFields l) := by
  rw [reparsed, record, mapFloat, mapFloatFields_eq_map]
  rfl

theorem reloaded_record (l : List (String × Option Json)) :
    (record l).reloaded = .obj (loadedFields l) := by
  rw [reloaded, reparsed_record]
  rfl

theorem structFields_reparsed (names : List String) (defaults : ℕ)
    (l : List (String × Option Json)) :
    structFields names defaults (record l).reparsed = some (parsedFields l) := by
  rw [reparsed_record]
  rfl

theorem structFields_reloaded (names : List String) (defaults : ℕ)
    (l : List (String × Option Json)) :
    structFields names defaults (record l).reloaded = some (loadedFields l) := by
  rw [reloaded_record]
  rfl

theorem reparsed_record_ne_null (l : List (String × Option Json)) :
    (record l).reparsed ≠ .null := by
  rw [reparsed_record]
  nofun

theorem reloaded_record_ne_null (l : List (String × Option Json)) :
    (record l).reloaded ≠ .null := by
  rw [reloaded_record]
  nofun

section Tagged

variable {α : Type*} (cases : List (String × (Option Json → Option α))) (tag : String)

theorem tagged_reparsed (v : Json) :
    tagged cases (record [(tag, some v)]).reparsed
      = (cases.lookup tag).bind fun f => f (some v.reparsed) := by
  rw [reparsed_record]
  rfl

theorem tagged_reloaded (v : Json) :
    tagged cases (record [(tag, some v)]).reloaded
      = (cases.lookup tag).bind fun f => f (some v.reloaded) := by
  rw [reloaded_record]
  rfl

end Tagged

section Fields

variable {l : List (String × Option Json)} (h : (l.map Prod.fst).Nodup) (key : String)

include h

theorem field_parsed :
    field (parsedFields l) key = some ((l.lookup key).join.map reparsed) := by
  rw [parsedFields, field_map, field_present h]
  rfl

theorem field_loaded :
    field (loadedFields l) key = some ((l.lookup key).join.map reloaded) := by
  -- sorting the keys only reorders the fields
  have hperm := @toValueFields_perm (parsedFields l) []
    (by simpa [parsedFields, Function.comp_def] using nodup_present h)
  rw [loadedFields, field_perm hperm, List.append_nil, field_map, field_parsed h,
    Option.map_some, Option.map_map]
  rfl

variable {α : Type*} (decode : Json → Option α)

theorem required_parsed :
    required decode (parsedFields l) key
      = (l.lookup key).join.bind fun v => decode v.reparsed := by
  rw [required, field_parsed h]
  cases (l.lookup key).join <;> rfl

theorem required_loaded :
    required decode (loadedFields l) key
      = (l.lookup key).join.bind fun v => decode v.reloaded := by
  rw [required, field_loaded h]
  cases (l.lookup key).join <;> rfl

theorem optional_parsed :
    optional decode (parsedFields l) key
      = readOption decode ((l.lookup key).join.map reparsed) := by
  rw [optional, field_parsed h]
  rfl

theorem optional_loaded :
    optional decode (loadedFields l) key
      = readOption decode ((l.lookup key).join.map reloaded) := by
  rw [optional, field_loaded h]
  rfl

theorem defaulted_parsed (default : α) :
    defaulted decode default (parsedFields l) key
      = ((l.lookup key).join.map fun v => decode v.reparsed).getD (some default) := by
  rw [defaulted, field_parsed h]
  cases (l.lookup key).join <;> rfl

theorem defaulted_loaded (default : α) :
    defaulted decode default (loadedFields l) key
      = ((l.lookup key).join.map fun v => decode v.reloaded).getD (some default) := by
  rw [defaulted, field_loaded h]
  cases (l.lookup key).join <;> rfl

end Fields

/-! ### Leaves and lists -/

@[simp] theorem reparsed_str (s : String) : (Json.str s).reparsed = .str s := rfl

@[simp] theorem reloaded_str (s : String) : (Json.str s).reloaded = .str s := rfl

@[simp] theorem reparsed_bool (b : Bool) : (Json.bool b).reparsed = .bool b := rfl

@[simp] theorem reloaded_bool (b : Bool) : (Json.bool b).reloaded = .bool b := rfl

@[simp] theorem reparsed_null : Json.null.reparsed = .null := rfl

@[simp] theorem reloaded_null : Json.null.reloaded = .null := rfl

@[simp] theorem reparsed_ofU64 (n : UInt64) : (ofU64 n).reparsed = ofU64 n := rfl

@[simp] theorem reloaded_ofU64 (n : UInt64) : (ofU64 n).reloaded = ofU64 n := rfl

@[simp] theorem reparsed_ofU32 (n : UInt32) : (ofU32 n).reparsed = ofU32 n := rfl

@[simp] theorem reloaded_ofI32 (n : Int32) : (ofI32 n).reloaded = ofI32 n := rfl

theorem reparsed_arr (items : List Json) :
    (Json.arr items).reparsed = .arr (items.map reparsed) := by
  rw [reparsed, mapFloat, mapFloatList_eq_map]
  rfl

theorem reloaded_arr (items : List Json) :
    (Json.arr items).reloaded = .arr (items.map reloaded) := by
  rw [reloaded, reparsed_arr, toValue, toValueList_eq_map, List.map_map]
  rfl

section Compose

variable {α β : Type*} {encode : α → Json} {decode : Json → Option β} {f : α → β}

theorem listOf_reparsed (xs : List α)
    (h : ∀ x ∈ xs, decode (encode x).reparsed = some (f x)) :
    listOf decode (Json.arr (xs.map encode)).reparsed = some (xs.map f) := by
  rw [reparsed_arr, listOf, List.map_map]
  induction xs with
  | nil => rfl
  | cons x xs ih =>
    rw [List.map_cons, List.mapM_cons, Function.comp_apply, h x List.mem_cons_self,
      ih fun y hy => h y (List.mem_cons_of_mem _ hy)]
    rfl

theorem listOf_reloaded (xs : List α)
    (h : ∀ x ∈ xs, decode (encode x).reloaded = some (f x)) :
    listOf decode (Json.arr (xs.map encode)).reloaded = some (xs.map f) := by
  rw [reloaded_arr, listOf, List.map_map]
  induction xs with
  | nil => rfl
  | cons x xs ih =>
    rw [List.map_cons, List.mapM_cons, Function.comp_apply, h x List.mem_cons_self,
      ih fun y hy => h y (List.mem_cons_of_mem _ hy)]
    rfl

end Compose

/-! ### Optional leaves -/

@[simp] theorem readOption_string_reparsed (x : Option String) :
    readOption string (x.map (reparsed ∘ .str)) = some x := by
  cases x <;> rfl

@[simp] theorem readOption_string_reloaded (x : Option String) :
    readOption string (x.map (reloaded ∘ .str)) = some x := by
  cases x <;> rfl

@[simp] theorem readOption_boolean_reparsed (x : Option Bool) :
    readOption boolean (x.map (reparsed ∘ .bool)) = some x := by
  cases x <;> rfl

@[simp] theorem readOption_u64_reparsed (x : Option UInt64) :
    readOption u64 (x.map (reparsed ∘ ofU64)) = some x := by
  have h := @readOption_map _ _ ofU64 u64 id reparsed x (fun n _ => u64_ofU64 n) nofun
  rwa [Option.map_id] at h

@[simp] theorem readOption_u32_reparsed (x : Option UInt32) :
    readOption u32 (x.map (reparsed ∘ ofU32)) = some x := by
  have h := @readOption_map _ _ ofU32 u32 id reparsed x (fun n _ => u32_ofU32 n) nofun
  rwa [Option.map_id] at h

@[simp] theorem readOption_i32_reloaded (x : Option Int32) :
    readOption i32 (x.map (reloaded ∘ ofI32)) = some x := by
  have h := @readOption_map _ _ ofI32 i32 id reloaded x (fun n _ => i32_ofI32 n) nofun
  rwa [Option.map_id] at h

/-- The float read back from the text of a float; an infinity or a NaN is lost. -/
def rereadF64 (x : F64) : Option F64 :=
  if h : x.isFinite then some (JsonText.reread ⟨x, h⟩).val else none

@[simp] theorem readOption_f64_reloaded (x : Option F64) :
    readOption f64 (x.map (reloaded ∘ ofF64)) = some (x.bind rereadF64) := by
  cases x with
  | none => rfl
  | some x =>
    rw [Option.map_some, Function.comp_apply, Option.bind_some, ofF64, rereadF64]
    split_ifs <;> rfl

/-- The `f32` read back from the text of an `f32`. -/
def rereadF32 (x : F32) : Option F32 :=
  if h : x.isFinite then some (JsonText.toF32 (JsonText.reread (JsonText.ofF32 ⟨x, h⟩)))
  else none

@[simp] theorem readOption_f32_reparsed (x : Option F32) :
    readOption f32 (x.map (reparsed ∘ ofF32)) = some (x.bind rereadF32) := by
  cases x with
  | none => rfl
  | some x =>
    rw [Option.map_some, Function.comp_apply, Option.bind_some, ofF32, rereadF32]
    split_ifs <;> rfl

/-! ### Values -/

mutual

/-- Floats keep their place when the keys are sorted. -/
theorem toValue_reparsed : ∀ v : Json, v.reparsed.toValue = v.toValue.reparsed
  | .null | .bool _ | .int _ | .float _ | .str _ => rfl
  | .arr items => by
    rw [reparsed_arr, toValue, toValue, reparsed_arr, toValueList_eq_map, toValueList_eq_map,
      List.map_map, List.map_map]
    congr 1
    exact toValue_reparsed_list items
  | .obj fields => by
    have h := toValue_reparsed_fields fields []
    rw [reparsed, mapFloat, mapFloatFields_eq_map]
    rw [toValue, toValue, reparsed, mapFloat, mapFloatFields_eq_map]
    exact congrArg Json.obj h

theorem toValue_reparsed_list : ∀ vs : List Json,
    vs.map (toValue ∘ reparsed) = vs.map (reparsed ∘ toValue)
  | [] => rfl
  | v :: vs => by
    rw [List.map_cons, List.map_cons, toValue_reparsed_list vs]
    exact congrArg (· :: _) (toValue_reparsed v)

theorem toValue_reparsed_fields : ∀ fs acc : List (String × Json),
    toValueFields (fs.map fun p => (p.1, p.2.reparsed)) (acc.map fun p => (p.1, p.2.reparsed))
      = (toValueFields fs acc).map fun p => (p.1, p.2.reparsed)
  | [], _ => rfl
  | (k, v) :: fs, acc => by
    rw [List.map_cons, toValueFields, toValueFields, toValue_reparsed v, insertField_map,
      toValue_reparsed_fields fs]

end

theorem reloaded_toValue (v : Json) : v.toValue.reloaded = v.reloaded := by
  rw [reloaded, reloaded, toValue_reparsed, toValue_reparsed, toValue_toValue]

theorem reloaded_value (v : Value) : v.val.reloaded = v.val.reparsed := by
  rw [reloaded, toValue_reparsed, v.property]

/-- A value, whatever it is. -/
def anyValue (v : Json) : Option Value := some v.value

/-- What is printed is read back as the reparsed document. -/
theorem fromText_toText {v : Json} (h : v.depth ≤ recursionLimit) :
    fromText (toText v) = some v.reparsed :=
  JsonText.fromText_toText v h

end Json

variable [JsonText]

/-- The value in memory of the text of a value. -/
def Value.reloaded (v : Value) : Value :=
  ⟨v.val.reparsed, by rw [Json.toValue_reparsed, v.property]⟩

theorem anyValue_reparsed (v : Value) : Json.anyValue v.val.reparsed = some v.reloaded := by
  rw [Json.anyValue, Json.value]
  exact congrArg some (Subtype.ext v.reloaded.property)

theorem anyValue_reloaded (v : Value) : Json.anyValue v.val.reloaded = some v.reloaded := by
  rw [Json.reloaded_value, anyValue_reparsed]

theorem reloaded_json_value (v : Json) : v.value.val.reloaded = v.reloaded :=
  Json.reloaded_toValue v

end Serde
