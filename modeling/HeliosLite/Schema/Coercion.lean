import HeliosLite.JsonRepair.Termination
import HeliosLite.Orchestration.ToolCalls
import HeliosLite.Serde.Json
import HeliosLite.Serde.Text

/-!
# Coercion of a value to a schema

A schema says what types a value and its parts may have. Coercion walks over the value and its
schema together and replaces strings that stand where another type is expected. Both are JSON
documents; a member of a schema that is not a boolean or an object is no schema and is skipped.

A string is read as a number, as a word, or as a JSON text, which may have to be repaired. The
repair parser may not come to an end, so what goes through it has a budget of calls.

## Main definitions

* `TextReaders` — the readers that are not part of the program
* `tryParseJsonString` — a JSON text, a text that reads as JSON, or a string with one in it
* `extractArrayFromString` — an array with other text around it
* `Reader` — a reader with a budget that gives one answer or none
* `resolveReference` — the definition a `$ref` names
* `itemSchema`, `propertySchema` — the schema of a part of the value
* `tryCoerceString` — a string read as a type
* `coerce` — one schema after the other, with calls nested at most so deep
* `coerceToSchema` — a value coerced to a whole schema

## Main results

* `jsonReader`, `arrayReader` — both readings give one answer for all large budgets, or none
-/

namespace HeliosLite.SchemaCoercion

open Serde Theory

/-- The readers of other libraries. -/
class TextReaders where
  /-- `serde_json::from_str`. -/
  fromStr : String → Except String Json
  /-- `serde_json5::from_str`. -/
  json5 : String → Option Json
  /-- `str::parse::<f64>`. -/
  parseF64 : String → Option F64
  /-- `char::is_numeric`. -/
  isNumeric : Char → Bool

/-! ### Numbers -/

/-- A number in ASCII digits. -/
def parseDigits (digits : List Char) : Option ℕ :=
  if digits ≠ [] ∧ digits.all Char.isDigit then
    some (digits.foldl (fun n c => 10 * n + (c.toNat - '0'.toNat)) 0)
  else
    none

/-- An integer that fits in a JSON number. -/
def jsonInt (n : ℤ) : Option Json :=
  if h : -2 ^ 63 ≤ n ∧ n < 2 ^ 64 then some (.int ⟨n, h⟩) else none

/-- `str::parse::<i64>`. -/
def parseI64 (s : String) : Option ℤ :=
  let n : Option ℤ := match s.toList with
    | '+' :: digits => (parseDigits digits).map Int.ofNat
    | '-' :: digits => (parseDigits digits).map fun n => -Int.ofNat n
    | digits => (parseDigits digits).map Int.ofNat
  n.filter fun n => decide (-2 ^ 63 ≤ n ∧ n < 2 ^ 63)

/-- `str::parse::<u64>`. -/
def parseU64 (s : String) : Option ℤ :=
  let n : Option ℤ := match s.toList with
    | '+' :: digits => (parseDigits digits).map Int.ofNat
    | digits => (parseDigits digits).map Int.ofNat
  n.filter fun n => decide (n < 2 ^ 64)

variable [TextReaders]

def parseInteger (s : String) : Option Json :=
  ((parseI64 s).bind jsonInt).or ((parseU64 s).bind jsonInt)

/-- An `i64`, or a float that is finite. -/
def parseNumber (s : String) : Option Json :=
  ((parseI64 s).bind jsonInt).or
    ((TextReaders.parseF64 s).bind fun x =>
      if h : x.isFinite then some (.float ⟨x, h⟩) else none)

/-! ### JSON texts -/

/-- A JSON text, a JSON5 text, or a text that can be repaired; the answer is `none` for an
error. -/
def parseJsonLikeValue (fuel : ℕ) (s : String) : Option (Option Json) :=
  match TextReaders.fromStr s with
  | .ok parsed => some (some parsed)
  | .error _ =>
    match TextReaders.json5 s with
    | some parsed => some (some parsed)
    | none => (jsonRepair TextReaders.fromStr fuel s).map Except.toOption

/-- The loop that reads a string once more, so many times at most. -/
def unwrapStrings (fuel : ℕ) : ℕ → Json → Option Json
  | k + 1, .str inner =>
    (parseJsonLikeValue fuel inner).bind fun
      | none => some (.str inner)
      | some next => unwrapStrings fuel k next
  | _, parsed => some parsed

def tryParseJsonString (fuel : ℕ) (s : String) : Option (Option Json) :=
  (parseJsonLikeValue fuel s).bind fun
    | none => some none
    | some parsed => (unwrapStrings fuel 4 parsed).map some

/-- The array that a text is repaired to. -/
def repairArray (fuel : ℕ) (candidate : List Char) : Option (Option Json) :=
  (jsonRepair TextReaders.fromStr fuel (String.ofList candidate)).map fun
    | .ok (.arr items) => some (.arr items)
    | _ => none

/-- What follows the bracket looks like the content of an array. -/
def hasArrayLikeContent (afterBracket : List Char) : Bool :=
  afterBracket.contains '"' || afterBracket.contains ',' || afterBracket.contains ']' ||
    afterBracket.head?.any TextReaders.isNumeric

/-- The text from the first bracket, without its end: the longest one first, and the whole text
last. -/
def candidates (text : List Char) : List (List Char) :=
  (List.range text.length).reverse.dropLast.map text.take ++ [text]

def extractArrayFromString (fuel : ℕ) (s : String) : Option (Option Json) :=
  match s.toList.dropWhile (· ≠ '[') with
  | [] => some none
  | bracket :: afterBracket =>
    if hasArrayLikeContent afterBracket then
      firstAnswer (repairArray fuel) (candidates (bracket :: afterBracket))
    else
      some none

/-! ### One answer or none -/

theorem decided_parseJsonLikeValue (s : String) :
    Decided fun fuel => parseJsonLikeValue fuel s := by
  unfold parseJsonLikeValue
  split
  · exact computes_const.decided
  · split
    · exact computes_const.decided
    · exact (decided_jsonRepair _ s).option_map

theorem decided_unwrapStrings (k : ℕ) (parsed : Json) :
    Decided fun fuel => unwrapStrings fuel k parsed := by
  induction k generalizing parsed with
  | zero => exact computes_const.decided
  | succ k ih =>
    cases parsed with
    | str inner =>
      apply (decided_parseJsonLikeValue inner).option_bind
      intro next
      cases next with
      | none => exact computes_const.decided
      | some next => exact ih next
    | _ => exact computes_const.decided

theorem decided_tryParseJsonString (s : String) :
    Decided fun fuel => tryParseJsonString fuel s := by
  apply (decided_parseJsonLikeValue s).option_bind
  intro parsed
  cases parsed with
  | none => exact computes_const.decided
  | some parsed => exact (decided_unwrapStrings 4 parsed).option_map

theorem decided_extractArrayFromString (s : String) :
    Decided fun fuel => extractArrayFromString fuel s := by
  unfold extractArrayFromString
  split
  · exact computes_const.decided
  · split
    · exact Decided.firstAnswer fun text _ => (decided_jsonRepair _ _).option_map
    · exact computes_const.decided

/-- A reader that gives one answer to a text with every large budget, or none with any. -/
structure Reader where
  run : ℕ → String → Option (Option Json)
  decided : ∀ s, Decided fun fuel => run fuel s

/-- The reader answers. -/
def Reader.Answers (reader : Reader) (s : String) (answer : Option Json) : Prop :=
  Computes (fun fuel => reader.run fuel s) answer

omit [TextReaders] in
theorem Reader.answers_of_run {reader : Reader} {fuel : ℕ} {s : String} {answer : Option Json}
    (h : reader.run fuel s = some answer) : reader.Answers s answer :=
  (reader.decided s).computes h

/-- `try_parse_json_string`. -/
def jsonReader : Reader where
  run := tryParseJsonString
  decided := decided_tryParseJsonString

/-- `extract_array_from_string`. -/
def arrayReader : Reader where
  run := extractArrayFromString
  decided := decided_extractArrayFromString

/-- Readers of texts without blanks and floats, in ASCII. -/
abbrev plainReaders : TextReaders where
  fromStr s := (Reference.fromText s).elim (.error "expected value") .ok
  json5 := Reference.fromText
  parseF64 _ := none
  isNumeric := Char.isDigit

end HeliosLite.SchemaCoercion

namespace HeliosLite.SchemaCoercion

open Serde Theory

/-! ### The keywords of a schema -/

/-- The fields of a schema that is an object. -/
abbrev SchemaObject := List (String × Json)

/-- What deserializes to a schema. -/
def isSchema : Json → Bool
  | .bool _ | .obj _ => true
  | _ => false

/-- The array under a key. -/
def arrayAt (schema : SchemaObject) (key : String) : Option (List Json) :=
  match schema.lookup key with
  | some (.arr items) => some items
  | _ => none

/-- The name in a reference to a definition. -/
def definitionName (reference : String) : Option String :=
  if "#/$defs/".toList.isPrefixOf reference.toList then
    some (String.ofList (reference.toList.drop 8))
  else if "#/definitions/".toList.isPrefixOf reference.toList then
    some (String.ofList (reference.toList.drop 14))
  else
    none

/-- The definitions of the root: those under `definitions` count only without `$defs`. -/
def definitions : Json → List (String × Json)
  | .obj root =>
    match (root.lookup "$defs").or (root.lookup "definitions") with
    | some (.obj defs) => defs
    | _ => []
  | _ => []

/-- The definition that the schema refers to. -/
def resolveReference (root : Json) (schema : SchemaObject) : Option Json :=
  match schema.lookup "$ref" with
  | some (.str reference) =>
    ((definitionName reference).bind fun name => (definitions root).lookup name).filter isSchema
  | _ => none

def isNullable (schema : SchemaObject) : Bool := schema.lookup "nullable" = some (.bool true)

/-- The members of `anyOf`, then those of `oneOf`. -/
def alternatives (schema : SchemaObject) : List Json :=
  (arrayAt schema "anyOf").getD [] ++ (arrayAt schema "oneOf").getD []

def propertySchema (schema : SchemaObject) (key : String) : Option Json :=
  match schema.lookup "properties" with
  | some (.obj properties) => properties.lookup key
  | _ => none

/-- The schema of the item at an index: `prefixItems` comes before `items`, which is one schema
for all items or an array of schemas. -/
def itemSchema (schema : SchemaObject) (index : ℕ) : Option Json :=
  match arrayAt schema "prefixItems" with
  | some schemas => schemas[index]?
  | none =>
    match schema.lookup "items" with
    | some (.arr schemas) => schemas[index]?
    | items => items

/-! ### Types -/

inductive InstanceType
  | null | boolean | object | array | number | string | integer
  deriving DecidableEq, Repr

def InstanceType.ofName (name : String) : Option InstanceType :=
  match name with
  | "null" => some .null
  | "boolean" => some .boolean
  | "object" => some .object
  | "array" => some .array
  | "number" => some .number
  | "string" => some .string
  | "integer" => some .integer
  | _ => none

/-- The types under `type`: one name, or an array of them. Other names match nothing and are
read as nothing. -/
def targetTypes (schema : SchemaObject) : Option (List InstanceType) :=
  match schema.lookup "type" with
  | some (.str name) => some (InstanceType.ofName name).toList
  | some (.arr names) => some (names.filterMap fun
      | .str name => InstanceType.ofName name
      | _ => none)
  | _ => none

def typeMatches : InstanceType → Json → Bool
  | .null, .null => true
  | .boolean, .bool _ => true
  | .object, .obj _ => true
  | .array, .arr _ => true
  | .number, .int _ | .number, .float _ => true
  | .string, .str _ => true
  | .integer, .int _ => true
  | _, _ => false

/-! ### Coercion -/

section Body

variable [TextReaders] (call : Json → Json → Option Json) (fuel : ℕ) (schema : SchemaObject)

/-- A part under the schema that belongs to it, if there is one. -/
def coerceAt (member : Option Json) (value : Json) : Option Json :=
  match member with
  | some member => if isSchema member then call member value else some value
  | none => some value

def coerceItems (items : List Json) : Option (List Json) :=
  items.zipIdx.mapM fun item => coerceAt call (itemSchema schema item.2) item.1

def coerceFields (fields : List (String × Json)) : Option (List (String × Json)) :=
  fields.mapM fun field =>
    (coerceAt call (propertySchema schema field.1) field.2).map (Prod.mk field.1)

/-- The array that a string stands for, or that is found in it. -/
def readArray (s : String) : Option (Option (List Json)) :=
  (jsonReader.run fuel s).bind fun
    | some (.arr items) => some (some items)
    | _ => (arrayReader.run fuel s).map fun
      | some (.arr items) => some items
      | _ => none

/-- A string read as a type; the items of an array are coerced, the fields of an object are
not. -/
def tryCoerceString (s : String) : InstanceType → Option (Option Json)
  | .integer => some (parseInteger s)
  | .number => some (parseNumber s)
  | .boolean =>
    some (if lowersTo "true" (trim s) then some (.bool true)
      else if lowersTo "false" (trim s) then some (.bool false)
      else none)
  | .null => some (if lowersTo "null" (trim s) then some .null else none)
  | .string => some none
  | .object => (jsonReader.run fuel s).map fun
    | some (.obj fields) => some (.obj fields)
    | _ => none
  | .array => (readArray fuel s).bind fun
    | some items => (coerceItems call schema items).map fun items => some (.arr items)
    | none => some none

def coerceByType (value : Json) : Option Json :=
  match targetTypes schema with
  | none => some value
  | some types =>
    if types.any (typeMatches · value) then
      some value
    else
      match value with
      | .str s => (firstAnswer (tryCoerceString call fuel schema s) types).map (·.getD value)
      | _ => some value

/-- The value under an alternative, if that changes it. -/
def changedBy (value member : Json) : Option (Option Json) :=
  (coerceAt call (some member) value).map fun result =>
    if result ≠ value then some result else none

/-- The fields, the items, or the value itself. -/
def coerceParts (value : Json) : Option Json :=
  match value with
  | .obj fields => (coerceFields call schema fields).map .obj
  | .arr items => (coerceItems call schema items).map .arr
  | value => coerceByType call fuel schema value

/-- The first alternative that changes the value decides; the members of `allOf` are applied one
after the other. -/
def coerceMembers (value : Json) : Option Json :=
  (firstAnswer (changedBy call value) (alternatives schema)).bind fun
    | some result => some result
    | none =>
      match arrayAt schema "allOf" with
      | some members =>
        members.foldlM (fun result member => coerceAt call (some member) result) value
      | none => coerceParts call fuel schema value

/-- `coerce_value_with_schema_object`. -/
def coerceObject (root value : Json) : Option Json :=
  match resolveReference root schema with
  | some definition => call definition value
  | none =>
    if value = .str "" ∧ isNullable schema then some .null
    else coerceMembers call fuel schema value

end Body

variable [TextReaders]

/-- `coerce_value_with_schema`, with calls nested at most `fuel` deep. -/
def coerce (root : Json) : ℕ → Json → Json → Option Json
  | 0, _, _ => none
  | fuel + 1, .obj schema, value => coerceObject (coerce root fuel) fuel schema root value
  | _ + 1, _, value => some value

def coerceToSchema (fuel : ℕ) (value schema : Json) : Option Json := coerce schema fuel schema value

end HeliosLite.SchemaCoercion
