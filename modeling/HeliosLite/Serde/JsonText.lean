import HeliosLite.Serde.Json

/-!
# The text of a JSON document

A JSON library prints documents and parses texts. The two agree on every document the
parser's recursion limit lets through, up to the digits of a float: a parser without
exact float support may read back a neighbour of the float that was printed.

## Main definitions

* `Json.mapFloat` — a function applied to every float of a document
* `JsonText` — a printer and a parser, with the laws that tie them together
-/

namespace Serde

namespace Json

mutual

/-- The document with `f` applied to each of its floats. -/
def mapFloat (f : FiniteF64 → FiniteF64) : Json → Json
  | .float x => .float (f x)
  | .arr items => .arr (mapFloatList f items)
  | .obj fields => .obj (mapFloatFields f fields)
  | v => v

def mapFloatList (f : FiniteF64 → FiniteF64) : List Json → List Json
  | [] => []
  | v :: vs => v.mapFloat f :: mapFloatList f vs

def mapFloatFields (f : FiniteF64 → FiniteF64) : List (String × Json) → List (String × Json)
  | [] => []
  | (k, v) :: fs => (k, v.mapFloat f) :: mapFloatFields f fs

end

theorem mapFloatFields_eq_map (f : FiniteF64 → FiniteF64) (fs : List (String × Json)) :
    mapFloatFields f fs = fs.map fun p => (p.1, p.2.mapFloat f) := by
  induction fs with
  | nil => rfl
  | cons p fs ih => rw [mapFloatFields, List.map_cons, ih]

theorem mapFloatList_eq_map (f : FiniteF64 → FiniteF64) (vs : List Json) :
    mapFloatList f vs = vs.map (mapFloat f) := by
  induction vs with
  | nil => rfl
  | cons v vs ih => rw [mapFloatList, List.map_cons, ih]

end Json

/-- The nesting that the parser accepts: 128 levels are refused. -/
def recursionLimit : ℕ := 127

/-- A JSON library: a printer, a parser and the conversions of numbers they use. -/
class JsonText where
  /-- The text of a document. -/
  toText : Json → String
  /-- The document of a text, when the text is JSON within the recursion limit. -/
  fromText : String → Option Json
  /-- Whether a text is syntactically JSON, whatever its depth. -/
  isRaw : String → Bool
  /-- The float read back from the text of a float. -/
  reread : FiniteF64 → FiniteF64
  /-- The float whose text is the text of an `f32`. -/
  ofF32 : FiniteF32 → FiniteF64
  /-- The nearest `f32`. -/
  toF32 : FiniteF64 → F32
  /-- The float nearest to an integer. -/
  ofInt : JsonInt → FiniteF64
  /-- The `f32` nearest to an integer. -/
  intToF32 : JsonInt → F32
  /-- What is printed is read back, up to the digits of its floats. -/
  fromText_toText : ∀ v : Json, v.depth ≤ recursionLimit →
    fromText (toText v) = some (v.mapFloat reread)
  /-- Documents nested too deeply are printed but not read back. -/
  fromText_deep : ∀ v : Json, recursionLimit < v.depth → fromText (toText v) = none

export JsonText (toText fromText)

end Serde
