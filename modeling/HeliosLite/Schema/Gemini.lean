import HeliosLite.Schema.Strict
import HeliosLite.Theory.Entries

/-!
# Schemas for Gemini

`sanitize_gemini_schema` rewrites the schema of a tool for a provider that takes a part of an older
schema language: keywords that are not known are removed, a list of types becomes a choice, a
choice with null becomes `nullable`, and numbers in an enumeration become texts. A level of a schema
is rewritten first and then the schemas in it, with a budget of nested calls.

An object is the list of its entries; in which order they stand is not observed. How a float is
written as a text is left open.

## Main definitions

* `sanitizeLevel` — one level rewritten
* `sanitizeGeminiSchema` — all levels rewritten
-/

namespace HeliosLite

namespace GeminiSchema

open Serde Theory
open StrictSchema (Fields asStr)

/-! ### Keywords -/

/-- The keywords that are not taken. -/
def removedKeywords : List String :=
  ["$schema", "$id", "$anchor", "$comment", "$defs", "$ref", "additionalItems",
    "additionalProperties", "definitions", "deprecated", "examples", "propertyNames", "title",
    "unevaluatedItems", "unevaluatedProperties", "writeOnly", "readOnly"]

/-- An exclusive bound as an inclusive one, unless there is one. -/
def moveBound (map : Fields) (exclusive inclusive : String) : Fields :=
  match map.lookup exclusive with
  | some bound =>
    let map := removeEntry map exclusive
    if hasEntry map inclusive then map else insertEntry map inclusive bound
  | none => map

def normalizeGeminiSchemaSubsetKeywords (map : Fields) : Fields :=
  let map := moveBound map "exclusiveMinimum" "minimum"
  let map := moveBound map "exclusiveMaximum" "maximum"
  removedKeywords.foldl removeEntry map

/-- A constant as an enumeration, unless there is one. -/
def convertConst (map : Fields) : Fields :=
  match map.lookup "const" with
  | some constValue =>
    let map := removeEntry map "const"
    if hasEntry map "enum" then map else insertEntry map "enum" (.arr [constValue])
  | none => map

/-! ### Types -/

def nonNullTypes (types : List Json) : List Json := types.filter (· ≠ .str "null")

def setNullable (map : Fields) (hasNull : Bool) : Fields :=
  if hasNull then insertEntry map "nullable" (.bool true) else map

/-- A list of types as one type, or as a choice. -/
def convertTypes (map : Fields) : Fields :=
  match map.lookup "type" with
  | some (.arr types) =>
    let map := removeEntry map "type"
    let hasNull := types.any (· = .str "null")
    match nonNullTypes types with
    | [] => insertEntry map "type" (.str "null")
    | [type] => setNullable (insertEntry map "type" type) hasNull
    | types =>
      setNullable (insertEntry map "anyOf" (.arr (types.map fun type => .obj [("type", type)])))
        hasNull
  | _ => map

/-- The only key is the type, and it is null. -/
def isNullSchema : Json → Bool
  | .obj map => map.all (·.1 = "type") && map.lookup "type" == some (.str "null")
  | _ => false

/-- The entries of the branch, and those of the schema that it has not. -/
def mergeBranch (map branch : Fields) : Fields :=
  map.foldl
    (fun merged entry => if hasEntry merged entry.1 then merged
      else insertEntry merged entry.1 entry.2) branch

/-- A choice with null as `nullable`: what is left of it, or the one branch that is left. -/
def elevateNull (map : Fields) : Fields :=
  match map.lookup "anyOf" with
  | some (.arr anyOf) =>
    let rest := removeEntry map "anyOf"
    let hasNull := anyOf.any isNullSchema
    match hasNull, anyOf.filter fun schema => !isNullSchema schema with
    | true, [.obj branch] =>
      (mergeBranch rest branch).foldr (fun entry map => insertEntry map entry.1 entry.2)
        (insertEntry rest "nullable" (.bool true))
    | true, [_] => insertEntry rest "nullable" (.bool true)
    -- the choice is put back where it stood
    | _, nonNullSchemas => setNullable (insertEntry map "anyOf" (.arr nonNullSchemas)) hasNull
  | some _ => removeEntry map "anyOf"
  | none => map

/-! ### What belongs to a type -/

section Level

variable (floatText : FiniteF64 → String)

/-- A number as its text. -/
def numberText : Json → Json
  | .int n => .str (toString n.val)
  | .float x => .str (floatText x)
  | v => v

def hasNumericTypeWithEnum (map : Fields) : Bool :=
  (((map.lookup "type").bind asStr).any fun type => type = "integer" || type = "number") &&
    hasEntry map "enum"

/-- Numbers in an enumeration as texts. -/
def stringifyEnum (map : Fields) : Fields :=
  let map := if hasNumericTypeWithEnum map then insertEntry map "type" (.str "string") else map
  match map.lookup "enum" with
  | some (.arr values) => insertEntry map "enum" (.arr (values.map (numberText floatText)))
  | _ => map

def hasCombiner (map : Fields) : Bool :=
  hasEntry map "anyOf" || hasEntry map "oneOf" || hasEntry map "allOf"

/-- The keywords that say what a schema is about. -/
def intentKeywords : List String :=
  ["type", "$ref", "enum", "const", "anyOf", "oneOf", "allOf", "properties", "additionalProperties",
    "patternProperties", "required", "not", "if", "then", "else"]

def hasSchemaIntent (map : Fields) : Bool := intentKeywords.any (hasEntry map)

/-- An array says what its items are. -/
def ensureItems (map : Fields) : Fields :=
  if map.lookup "type" == some (.str "array") && !hasCombiner map then
    match map.lookup "items" with
    | none => insertEntry map "items" (.obj [("type", .str "string")])
    | some (.obj items) =>
      if hasSchemaIntent items then map
      else insertEntry map "items" (.obj (insertEntry items "type" (.str "string")))
    | _ => map
  else map

/-- The type is given, and not that of an object. -/
def typeIsNotObject (map : Fields) : Bool :=
  ((map.lookup "type").bind asStr).any fun type => type ≠ "object"

/-- What is not an object has no properties. -/
def removeObjectKeywords (map : Fields) : Fields :=
  if typeIsNotObject map && !hasCombiner map then
    removeEntry (removeEntry map "properties") "required"
  else map

/-- Names of properties that there are. -/
def retainRequired (props : Fields) (required : List Json) : List Json :=
  required.filter fun value => (asStr value).any fun field => props.any (·.1 = field)

def filterRequired (map : Fields) : Fields :=
  match map.lookup "properties", map.lookup "required" with
  | some (.obj props), some (.arr required) =>
    insertEntry map "required" (.arr (retainRequired props required))
  | _, _ => map

/-- What a level has, before what belongs to its type is looked at. -/
def sanitizeTypes (map : Fields) : Fields :=
  elevateNull (convertTypes (convertConst (normalizeGeminiSchemaSubsetKeywords map)))

/-- What belongs to the type of a level. -/
def finishLevel (map : Fields) : Fields :=
  filterRequired (removeObjectKeywords (ensureItems (stringifyEnum floatText map)))

/-- One level of a schema. -/
def sanitizeLevel (map : Fields) : Fields := finishLevel floatText (sanitizeTypes map)

/-! ### All levels -/

/-- The keywords whose value is a map of schemas. -/
def namedKeywords : List String := ["properties", "$defs", "definitions", "patternProperties"]

/-- The keywords whose value is a schema. -/
def schemaKeywords : List String :=
  ["items", "contains", "not", "if", "then", "else", "additionalItems", "unevaluatedProperties"]

/-- The keywords whose value is a list of schemas. -/
def listKeywords : List String := ["allOf", "anyOf", "oneOf", "prefixItems"]

def sanitizeNamed (sanitize : Json → Option Json) : Json → Option Json
  | .obj namedSchemas =>
    (namedSchemas.mapM fun entry => (sanitize entry.2).map (Prod.mk entry.1)).map .obj
  | value => some value

def sanitizeItems (sanitize : Json → Option Json) : Json → Option Json
  | .arr items => (items.mapM sanitize).map .arr
  | value => some value

def sanitizeGeminiSchema : ℕ → Json → Option Json
  | 0, _ => none
  | n + 1, .obj map => do
    let sanitize := sanitizeGeminiSchema n
    let map := sanitizeLevel floatText map
    let map ← updateEntries (fun _ => sanitizeNamed sanitize) namedKeywords map
    let map ← updateEntries (fun _ => sanitize) schemaKeywords map
    let map ← updateEntries (fun _ => sanitizeItems sanitize) listKeywords map
    some (.obj map)
  | n + 1, .arr items => (items.mapM (sanitizeGeminiSchema n)).map .arr
  | _ + 1, schema => some schema

end Level

end GeminiSchema

end HeliosLite
