import HeliosLite.Serde.Json
import HeliosLite.Theory.Entries

/-!
# Schemas for strict tools

`enforce_strict_schema` rewrites the schema of a tool for providers that take a part of JSON
schema only: `allOf` is merged into the schema, `oneOf` becomes `anyOf`, keywords that are not
known are removed, and objects list their properties as required and say what other properties
they may have. The rewriting goes from the top of a schema down, with a budget of nested calls.

An object is the list of its entries; in which order they stand is not observed.

## Main definitions

* `flattenAllOfSchema`, `mergeSchemaObject` — `allOf` merged into a schema
* `enforceStrictSchema` — the rewriting
-/

namespace HeliosLite

namespace StrictSchema

open Serde Theory

abbrev Fields := List (String × Json)

/-! ### Merging -/

def asStr : Json → Option String
  | .str s => some s
  | _ => none

/-- The values are equal, in whichever order their entries stand. -/
def sameValue (left right : Json) : Bool := left.toValue = right.toValue

/-- Required names of both, sorted if they are all names. -/
def mergeRequiredArrays (target source : List Json) : List Json :=
  let merged := source.foldl
    (fun target value => if target.any (sameValue value) then target else target ++ [value]) target
  if merged.all fun value => (asStr value).isSome then
    merged.mergeSort fun left right => decide ((asStr left).getD "" ≤ (asStr right).getD "")
  else merged

/-- Values of both. -/
def mergeEnumArrays (target source : List Json) : List Json :=
  target.filter fun value => source.any (sameValue value)

/-- The keywords whose value is a map of schemas. -/
def namedKeywords : List String := ["properties", "$defs", "definitions", "patternProperties"]

mutual

/-- The schema with the branches of its `allOf` merged into it. -/
def flattenAllOfSchema : ℕ → Fields → Option Fields
  | 0, _ => none
  | n + 1, map =>
    match map.lookup "allOf" with
    | some (.arr allOf) =>
      allOf.foldlM
        (fun map subSchema =>
          match subSchema with
          | .obj source => mergeSchemaObject n map source
          | _ => some map)
        (removeEntry map "allOf")
    | _ => some (removeEntry map "allOf")

def mergeSchemaObject : ℕ → Fields → Fields → Option Fields
  | 0, _, _ => none
  | n + 1, target, source => do
    let source ← flattenAllOfSchema n source
    mergeEntries n target source

/-- The entries of the source merged one after the other. -/
def mergeEntries : ℕ → Fields → Fields → Option Fields
  | 0, _, _ => none
  | n + 1, target, source =>
    source.foldlM
      (fun target entry =>
        match target.lookup entry.1 with
        | some existing =>
          (mergeSchemaKeyword n existing entry.2 entry.1).map (insertEntry target entry.1)
        | none => some (insertEntry target entry.1 entry.2))
      target

def mergeSchemaKeyword : ℕ → Json → Json → String → Option Json
  | 0, _, _, _ => none
  | n + 1, target, source, key =>
    match target, source with
    | .obj targetMap, .obj sourceMap =>
      if key ∈ namedKeywords then (mergeNamedSchemaMap n targetMap sourceMap).map .obj
      else (mergeSchemaObject n targetMap sourceMap).map .obj
    | .arr targetValues, .arr sourceValues =>
      if key = "required" then some (.arr (mergeRequiredArrays targetValues sourceValues))
      else if key = "enum" then some (.arr (mergeEnumArrays targetValues sourceValues))
      else some target
    | _, _ => some target

def mergeNamedSchemaMap : ℕ → Fields → Fields → Option Fields
  | 0, _, _ => none
  | n + 1, target, source =>
    source.foldlM
      (fun target entry =>
        match target.lookup entry.1 with
        | some existing =>
          (mergeSchemaKeyword n existing entry.2 "schema").map (insertEntry target entry.1)
        | none => some (insertEntry target entry.1 entry.2))
      target

end

/-! ### One level of a schema -/

/-- The keywords that are not taken. -/
def removedKeywords : List String :=
  ["$schema", "$id", "$anchor", "$comment", "$defs", "$ref", "additionalItems", "contains",
    "definitions", "dependentRequired", "dependentSchemas", "deprecated", "else", "examples",
    "exclusiveMaximum", "exclusiveMinimum", "if", "maxContains", "maxItems", "maxLength",
    "maxProperties", "maximum", "minContains", "minItems", "minLength", "minProperties",
    "multipleOf", "not", "pattern", "patternProperties", "prefixItems", "propertyNames",
    "readOnly", "then", "title", "unevaluatedItems", "unevaluatedProperties", "uniqueItems",
    "writeOnly"]

def normalizeOpenaiSchemaSubsetKeywords (map : Fields) : Fields :=
  let map := removedKeywords.foldl removeEntry map
  match map.lookup "const" with
  | some constValue =>
    let map := removeEntry map "const"
    if hasEntry map "enum" then map else insertEntry map "enum" (.arr [constValue])
  | none => map

/-- `oneOf` as `anyOf`, or at the end of it. -/
def normalizeOneOfKeyword (map : Fields) (strictMode : Bool) : Fields :=
  if strictMode then
    match map.lookup "oneOf" with
    | some oneOf =>
      let map := removeEntry map "oneOf"
      match map.lookup "anyOf" with
      | some (.arr anyOf) =>
        match oneOf with
        | .arr oneOf => insertEntry map "anyOf" (.arr (anyOf ++ oneOf))
        | value => insertEntry map "anyOf" (.arr (anyOf ++ [value]))
      | _ => insertEntry map "anyOf" oneOf
    | none => map
  else map

def isSupportedOpenaiStringFormat (format : String) : Bool :=
  format ∈ ["date-time", "time", "date", "duration", "email", "hostname", "ipv4", "ipv6", "uuid"]

def normalizeStringFormatKeyword (map : Fields) (strictMode : Bool) : Fields :=
  if strictMode then
    match (map.lookup "format").bind asStr with
    | some format => if isSupportedOpenaiStringFormat format then map else removeEntry map "format"
    | none => map
  else map

def isObjectSchema (map : Fields) : Bool :=
  (map.lookup "type").bind asStr == some "object" || hasEntry map "properties" ||
    hasEntry map "required" || hasEntry map "additionalProperties"

def isArraySchema (map : Fields) : Bool :=
  (map.lookup "type").bind asStr == some "array" || hasEntry map "items"

def normalizeArrayItems (map : Fields) (strictMode : Bool) : Fields :=
  if strictMode && isArraySchema map && !hasEntry map "items" then
    insertEntry map "items" (.obj [("type", .str "string")])
  else map

/-- The schema of other properties, with a type unless it has one or is put together. -/
def typedAdditionalProperties (map : Fields) : Fields :=
  let hasCombiners := hasEntry map "anyOf" || hasEntry map "oneOf" || hasEntry map "allOf"
  if !hasEntry map "type" && !hasCombiners then insertEntry map "type" (.str "object") else map

def normalizeAdditionalProperties (enforce : Json → Option Json) (map : Fields) : Option Fields :=
  match map.lookup "additionalProperties" with
  | some (.obj additionalProps) =>
    (enforce (.obj (typedAdditionalProperties additionalProps))).map
      (insertEntry map "additionalProperties")
  | some (.bool _) => some map
  | _ => some (insertEntry map "additionalProperties" (.bool false))

/-- The names of the properties, sorted. -/
def requiredKeys (map : Fields) : List String :=
  match map.lookup "properties" with
  | some (.obj props) => (props.map Prod.fst).mergeSort fun left right => decide (left ≤ right)
  | _ => []

/-- The schema without null among its values. -/
def retainNonNull (map : Fields) : Fields :=
  match map.lookup "enum" with
  | some (.arr enumValues) => insertEntry map "enum" (.arr (enumValues.filter (· ≠ .null)))
  | _ => map

/-- A schema that may be null is one of itself and null. -/
def normalizeNullable (map : Fields) (strictMode : Bool) : Fields :=
  if strictMode && map.lookup "nullable" == some (.bool true) then
    let map := retainNonNull (removeEntry map "nullable")
    let description := map.lookup "description"
    let nonNullBranch := Json.obj (removeEntry map "description")
    let nullBranch := Json.obj [("type", .str "null")]
    (description.map fun desc => ("description", desc)).toList ++
      [("anyOf", .arr [nonNullBranch, nullBranch])]
  else map

/-! ### All levels of a schema -/

section Keywords

variable (enforce : Json → Option Json)

def normalizeNamedSchemaKeyword (map : Fields) (key : String) : Option Fields :=
  match map.lookup key with
  | some (.obj namedSchemas) =>
    (namedSchemas.mapM fun entry => (enforce entry.2).map (Prod.mk entry.1)).map fun schemas =>
      insertEntry map key (.obj schemas)
  | _ => some map

def normalizeSchemaKeyword (map : Fields) (key : String) : Option Fields :=
  match map.lookup key with
  | some (.obj schema) => (enforce (.obj schema)).map (insertEntry map key)
  | some (.arr schemas) => (enforce (.arr schemas)).map (insertEntry map key)
  | _ => some map

def normalizeSchemaKeywords (map : Fields) (strictMode : Bool) : Option Fields := do
  let map ← normalizeNamedSchemaKeyword enforce map "properties"
  let map ← ["items", "additionalProperties", "allOf", "anyOf"].foldlM
    (normalizeSchemaKeyword enforce) map
  if strictMode then some map
  else
    let map ← ["$defs", "definitions", "patternProperties"].foldlM
      (normalizeNamedSchemaKeyword enforce) map
    ["oneOf", "prefixItems", "contains", "not", "if", "then", "else"].foldlM
      (normalizeSchemaKeyword enforce) map

/-- What becomes of the keywords of an object. -/
def normalizeObject (map : Fields) (strictMode : Bool) : Option Fields := do
  let map := if strictMode && !hasEntry map "properties" then
    insertEntry map "properties" (.obj []) else map
  let map ← normalizeAdditionalProperties enforce map
  some (if strictMode then
    insertEntry map "required" (.arr ((requiredKeys map).map Json.str)) else map)

/-- The schema with a type, and with what belongs to its type. -/
def normalizeTypes (map : Fields) (strictMode : Bool) : Option Fields :=
  let map := normalizeStringFormatKeyword map strictMode
  let isObject := isObjectSchema map
  let map :=
    if isObject && !hasEntry map "type" then insertEntry map "type" (.str "object") else map
  let typed :=
    if isObject then normalizeObject enforce map strictMode
    else if strictMode && !hasEntry map "type" && !hasEntry map "anyOf" &&
        !hasEntry map "allOf" then
      some (insertEntry map "type" (.str "string"))
    else some map
  typed.map (normalizeArrayItems · strictMode)

end Keywords

def enforceStrictSchema : ℕ → Bool → Json → Option Json
  | 0, _, _ => none
  | n + 1, strictMode, .obj map => do
    let map ←
      if strictMode then
        (flattenAllOfSchema n map).map fun map =>
          normalizeOneOfKeyword (normalizeOpenaiSchemaSubsetKeywords map) strictMode
      else some map
    let map ← normalizeTypes (enforceStrictSchema n strictMode) map strictMode
    let map := normalizeNullable map strictMode
    (normalizeSchemaKeywords (enforceStrictSchema n strictMode) map strictMode).map .obj
  | n + 1, strictMode, .arr items => (items.mapM (enforceStrictSchema n strictMode)).map .arr
  | _ + 1, _, schema => some schema

end StrictSchema

end HeliosLite
