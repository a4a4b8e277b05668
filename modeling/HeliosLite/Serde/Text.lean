import HeliosLite.Serde.JsonText

/-!
# A reference JSON library

A printer and a parser for documents, without blanks as a serializer writes them. They
show that the laws of `JsonText` can be met, and evaluate on concrete documents. A float
is written by its bits, which stand in for its shortest digits.

## Main definitions

* `print`, `parseValue` — the printer and the parser
* `reference` — the JSON library they make

## Main results

* `parseValue_print` — every document is read back from its text
-/

namespace Serde.Reference

/-! ### Strings -/

def hexDigit (n : ℕ) : Char := if n < 10 then Char.ofNat (48 + n) else Char.ofNat (87 + n)

def hexValue (c : Char) : ℕ := if c.toNat < 58 then c.toNat - 48 else c.toNat - 87

/-- A character as it stands inside a JSON string. -/
def escapeChar (c : Char) : List Char :=
  if c = '"' then ['\\', '"']
  else if c = '\\' then ['\\', '\\']
  else if c = '\n' then ['\\', 'n']
  else if c = '\r' then ['\\', 'r']
  else if c = '\t' then ['\\', 't']
  else if c.toNat = 8 then ['\\', 'b']
  else if c.toNat = 12 then ['\\', 'f']
  else if c.toNat < 32 then
    ['\\', 'u', '0', '0', hexDigit (c.toNat / 16), hexDigit (c.toNat % 16)]
  else [c]

def unescape (c : Char) : Option Char :=
  if c = 'n' then some '\n'
  else if c = 'r' then some '\r'
  else if c = 't' then some '\t'
  else if c = 'b' then some (Char.ofNat 8)
  else if c = 'f' then some (Char.ofNat 12)
  else if c = '"' ∨ c = '\\' ∨ c = '/' then some c
  else none

/-- The characters up to the closing quotation mark, and what follows it. -/
def parseString : List Char → Option (List Char × List Char)
  | [] => none
  | '"' :: rest => some ([], rest)
  | '\\' :: 'u' :: '0' :: '0' :: a :: b :: rest =>
    (parseString rest).map fun (s, rest) =>
      (Char.ofNat (16 * hexValue a + hexValue b) :: s, rest)
  | '\\' :: c :: rest => do
    let c ← unescape c
    let (s, rest) ← parseString rest
    some (c :: s, rest)
  | c :: rest => (parseString rest).map fun (s, rest) => (c :: s, rest)

theorem hexValue_hexDigit {n : ℕ} (h : n < 16) : hexValue (hexDigit n) = n := by
  have : ∀ m : Fin 16, hexValue (hexDigit m) = m := by decide
  exact this ⟨n, h⟩

theorem parseString_escapeChar (c : Char) (cs : List Char) :
    parseString (escapeChar c ++ cs) =
      (parseString cs).map fun (s, rest) => (c :: s, rest) := by
  have hofNat : ∀ n, c.toNat = n → Char.ofNat n = c := fun n hn => by
    rw [← hn, Char.ofNat_toNat]
  rw [escapeChar]
  split_ifs with h1 h2 h3 h4 h5 h6 h7 h8
  · subst h1
    cases h : parseString cs <;> simp [parseString, unescape, h]
  · subst h2
    cases h : parseString cs <;> simp [parseString, unescape, h]
  · subst h3
    cases h : parseString cs <;> simp [parseString, unescape, h]
  · subst h4
    cases h : parseString cs <;> simp [parseString, unescape, h]
  · subst h5
    cases h : parseString cs <;> simp [parseString, unescape, h]
  · cases h : parseString cs with
    | none => simp [parseString, unescape, h]
    | some parsed => simpa [parseString, unescape, h] using hofNat 8 h6
  · cases h : parseString cs with
    | none => simp [parseString, unescape, h]
    | some parsed => simpa [parseString, unescape, h] using hofNat 12 h7
  · have hcode : 16 * (c.toNat / 16) + c.toNat % 16 = c.toNat := by omega
    simp only [List.cons_append, List.nil_append, parseString,
      hexValue_hexDigit (n := c.toNat / 16) (by omega),
      hexValue_hexDigit (n := c.toNat % 16) (by omega), hcode, Char.ofNat_toNat]
  · rw [List.singleton_append, parseString]
    · exact h1
    · rintro a b rest rfl
      exact absurd rfl h2
    · rintro d rest rfl
      exact absurd rfl h2

theorem parseString_escape (s rest : List Char) :
    parseString (s.flatMap escapeChar ++ '"' :: rest) = some (s, rest) := by
  induction s with
  | nil => simp [parseString]
  | cons c s ih => rw [List.flatMap_cons, List.append_assoc, parseString_escapeChar, ih]; rfl

/-! ### Printing -/

def stringText (s : String) : List Char := '"' :: (s.toList.flatMap escapeChar ++ ['"'])

def intText (n : ℤ) : List Char :=
  if n < 0 then '-' :: Nat.toDigits 10 n.natAbs else Nat.toDigits 10 n.natAbs

mutual

/-- The text of a document. -/
def print : Json → List Char
  | .null => ['n', 'u', 'l', 'l']
  | .bool true => ['t', 'r', 'u', 'e']
  | .bool false => ['f', 'a', 'l', 's', 'e']
  | .int n => intText n
  | .float x => Nat.toDigits 10 x.val.bits.toNat ++ ['.', '0']
  | .str s => stringText s
  | .arr [] => ['[', ']']
  | .arr (v :: vs) => '[' :: (print v ++ printItems vs)
  | .obj [] => ['{', '}']
  | .obj ((k, v) :: fs) => '{' :: (stringText k ++ ':' :: (print v ++ printFields fs))

/-- The remaining items of an array, to its closing bracket. -/
def printItems : List Json → List Char
  | [] => [']']
  | v :: vs => ',' :: (print v ++ printItems vs)

def printFields : List (String × Json) → List Char
  | [] => ['}']
  | (k, v) :: fs => ',' :: (stringText k ++ ':' :: (print v ++ printFields fs))

end

/-! ### Parsing -/

/-- The integer, when a JSON number holds it. -/
def jsonInt (n : ℤ) : Option Json :=
  if h : -2 ^ 63 ≤ n ∧ n < 2 ^ 64 then some (.int ⟨n, h⟩) else none

def jsonFloat (bits : ℕ) : Option Json :=
  let x : F64 := ⟨BitVec.ofNat 64 bits⟩
  if h : x.isFinite then some (.float ⟨x, h⟩) else none

def parseNumber (cs : List Char) : Option (Json × List Char) :=
  let digits := cs.takeWhile Char.isDigit
  let n := Nat.ofDigitChars 10 digits 0
  match cs.dropWhile Char.isDigit with
  | '.' :: '0' :: rest => (jsonFloat n).map (·, rest)
  | rest => if digits = [] then none else (jsonInt n).map (·, rest)

def parseNegative (cs : List Char) : Option (Json × List Char) :=
  (jsonInt (-Nat.ofDigitChars 10 (cs.takeWhile Char.isDigit) 0)).map
    (·, cs.dropWhile Char.isDigit)

/-- A key with its colon. -/
def parseKey : List Char → Option (String × List Char)
  | '"' :: cs =>
    match parseString cs with
    | some (k, ':' :: rest) => some (String.ofList k, rest)
    | _ => none
  | _ => none

mutual

/-- The document at the start of a text, and what follows it. -/
def parseValue : ℕ → List Char → Option (Json × List Char)
  | 0, _ => none
  | fuel + 1, cs =>
    match cs with
    | 'n' :: 'u' :: 'l' :: 'l' :: rest => some (.null, rest)
    | 't' :: 'r' :: 'u' :: 'e' :: rest => some (.bool true, rest)
    | 'f' :: 'a' :: 'l' :: 's' :: 'e' :: rest => some (.bool false, rest)
    | '"' :: rest => (parseString rest).map fun (s, rest) => (.str (String.ofList s), rest)
    | '[' :: ']' :: rest => some (.arr [], rest)
    | '[' :: rest => do
      let (v, rest) ← parseValue fuel rest
      let (vs, rest) ← parseItems fuel rest
      some (.arr (v :: vs), rest)
    | '{' :: '}' :: rest => some (.obj [], rest)
    | '{' :: rest => do
      let (k, rest) ← parseKey rest
      let (v, rest) ← parseValue fuel rest
      let (fs, rest) ← parseFields fuel rest
      some (.obj ((k, v) :: fs), rest)
    | '-' :: rest => parseNegative rest
    | cs => parseNumber cs

def parseItems : ℕ → List Char → Option (List Json × List Char)
  | 0, _ => none
  | fuel + 1, cs =>
    match cs with
    | ']' :: rest => some ([], rest)
    | ',' :: rest => do
      let (v, rest) ← parseValue fuel rest
      let (vs, rest) ← parseItems fuel rest
      some (v :: vs, rest)
    | _ => none

def parseFields : ℕ → List Char → Option (List (String × Json) × List Char)
  | 0, _ => none
  | fuel + 1, cs =>
    match cs with
    | '}' :: rest => some ([], rest)
    | ',' :: rest => do
      let (k, rest) ← parseKey rest
      let (v, rest) ← parseValue fuel rest
      let (fs, rest) ← parseFields fuel rest
      some ((k, v) :: fs, rest)
    | _ => none

end

/-! ### Reading back -/

/-- What may follow a number: no digit and no fraction. -/
def Delimited (rest : List Char) : Prop := ∀ c ∈ rest.head?, c.isDigit = false ∧ c ≠ '.'

theorem delimited_printItems (vs : List Json) (rest : List Char) :
    Delimited (printItems vs ++ rest) := by
  cases vs <;> simp [Delimited, printItems]

theorem delimited_printFields (fs : List (String × Json)) (rest : List Char) :
    Delimited (printFields fs ++ rest) := by
  rcases fs with _ | ⟨⟨k, v⟩, fs⟩ <;> simp [Delimited, printFields]

theorem takeWhile_toDigits (n : ℕ) {rest : List Char}
    (h : ∀ c ∈ rest.head?, c.isDigit = false) :
    (Nat.toDigits 10 n ++ rest).takeWhile Char.isDigit = Nat.toDigits 10 n := by
  have hdigits : ∀ c ∈ Nat.toDigits 10 n, c.isDigit := fun c hc =>
    Nat.isDigit_of_mem_toDigits (by decide) (by decide) hc
  rw [List.takeWhile_append_of_pos hdigits]
  cases rest with
  | nil => simp
  | cons c rest => simp [h c (by simp)]

theorem dropWhile_toDigits (n : ℕ) {rest : List Char}
    (h : ∀ c ∈ rest.head?, c.isDigit = false) :
    (Nat.toDigits 10 n ++ rest).dropWhile Char.isDigit = rest := by
  have hdigits : ∀ c ∈ Nat.toDigits 10 n, c.isDigit := fun c hc =>
    Nat.isDigit_of_mem_toDigits (by decide) (by decide) hc
  rw [List.dropWhile_append_of_pos hdigits]
  cases rest with
  | nil => simp
  | cons c rest => simp [h c (by simp)]

theorem parseNumber_toDigits {n : ℕ} {rest : List Char} (h : Delimited rest) :
    parseNumber (Nat.toDigits 10 n ++ rest) = (jsonInt n).map (·, rest) := by
  have hhead : ∀ c ∈ rest.head?, c.isDigit = false := fun c hc => (h c hc).1
  rw [parseNumber, takeWhile_toDigits n hhead, dropWhile_toDigits n hhead,
    Nat.ofDigitChars_toDigits (by decide) (by decide)]
  split
  · exact absurd rfl (h '.' (by simp)).2
  · rw [if_neg Nat.toDigits_ne_nil]

theorem parseNumber_float (x : FiniteF64) (rest : List Char) :
    parseNumber (Nat.toDigits 10 x.val.bits.toNat ++ '.' :: '0' :: rest) =
      some (.float x, rest) := by
  have hhead : ∀ c ∈ ('.' :: '0' :: rest).head?, c.isDigit = false := by simp
  rw [parseNumber, takeWhile_toDigits _ hhead, dropWhile_toDigits _ hhead,
    Nat.ofDigitChars_toDigits (by decide) (by decide)]
  simp [jsonFloat, x.property]

/-- A number starts with a digit, which starts nothing else. -/
theorem parseValue_of_digit {c : Char} (hc : c.isDigit) (cs : List Char) (fuel : ℕ) :
    parseValue (fuel + 1) (c :: cs) = parseNumber (c :: cs) := by
  rw [parseValue]
  all_goals
    rintro rest heq
    rw [(List.cons.inj heq).1] at hc
    simp at hc

theorem exists_digit_of_toDigits (n : ℕ) :
    ∃ c cs, Nat.toDigits 10 n = c :: cs ∧ c.isDigit := by
  obtain ⟨c, cs, h⟩ := List.exists_cons_of_ne_nil (Nat.toDigits_ne_nil (n := n) (b := 10))
  exact ⟨c, cs, h, Nat.isDigit_of_mem_toDigits (by decide) (by decide) (h ▸ List.mem_cons_self)⟩

theorem parseValue_intText (n : JsonInt) {rest : List Char} (h : Delimited rest) (fuel : ℕ) :
    parseValue (fuel + 1) (intText n ++ rest) = some (.int n, rest) := by
  have hhead : ∀ c ∈ rest.head?, c.isDigit = false := fun c hc => (h c hc).1
  rw [intText]
  split_ifs with hneg
  · have habs : -((n.val.natAbs : ℕ) : ℤ) = n.val := by omega
    rw [List.cons_append, parseValue]
    · rw [parseNegative, takeWhile_toDigits _ hhead, dropWhile_toDigits _ hhead,
        Nat.ofDigitChars_toDigits (by decide) (by decide), habs, jsonInt, dif_pos n.property]
      rfl
  · have habs : ((n.val.natAbs : ℕ) : ℤ) = n.val := by omega
    obtain ⟨c, cs, hdigits, hc⟩ := exists_digit_of_toDigits n.val.natAbs
    have hparse := @parseNumber_toDigits n.val.natAbs rest h
    rw [hdigits, List.cons_append] at hparse ⊢
    rw [parseValue_of_digit hc, hparse, habs, jsonInt, dif_pos n.property]
    rfl

theorem parseKey_stringText (k : String) (rest : List Char) :
    parseKey (stringText k ++ ':' :: rest) = some (k, rest) := by
  simp [stringText, parseKey, parseString_escape]

/-- No document starts with a closing bracket. -/
theorem exists_cons_print (v : Json) :
    ∃ c cs, print v = c :: cs ∧ c ≠ ']' := by
  have hdigits : ∀ (n : ℕ) (rest : List Char),
      ∃ c cs, Nat.toDigits 10 n ++ rest = c :: cs ∧ c ≠ ']' := fun n rest => by
    obtain ⟨c, cs, h, hc⟩ := exists_digit_of_toDigits n
    refine ⟨c, cs ++ rest, by rw [h, List.cons_append], ?_⟩
    rintro rfl
    simp at hc
  cases v with
  | null => simp [print]
  | bool b => cases b <;> simp [print]
  | int n =>
    rw [print, intText]
    split_ifs
    · simp
    · simpa using hdigits n.val.natAbs []
  | float x =>
    rw [print]
    exact hdigits _ _
  | str s => simp [print, stringText]
  | arr items => cases items <;> simp [print]
  | obj fields => rcases fields with _ | ⟨⟨k, v⟩, fields⟩ <;> simp [print]

mutual

/-- Every document is read back from its text. -/
theorem parseValue_print : ∀ (v : Json) (fuel : ℕ) {rest : List Char}, Delimited rest →
    (print v).length < fuel → parseValue fuel (print v ++ rest) = some (v, rest)
  | v, 0, _, _, hfuel => absurd hfuel (Nat.not_lt_zero _)
  | .null, fuel + 1, _, _, _ => by simp [print, parseValue]
  | .bool true, fuel + 1, _, _, _ => by simp [print, parseValue]
  | .bool false, fuel + 1, _, _, _ => by simp [print, parseValue]
  | .int n, fuel + 1, _, hrest, _ => by rw [print, parseValue_intText n hrest]
  | .float x, fuel + 1, rest, _, _ => by
    obtain ⟨c, cs, hdigits, hc⟩ := exists_digit_of_toDigits x.val.bits.toNat
    have hparse := parseNumber_float x rest
    rw [print, List.append_assoc]
    rw [hdigits, List.cons_append] at hparse ⊢
    rw [parseValue_of_digit hc]
    exact hparse
  | .str s, fuel + 1, _, _, _ => by
    simp [print, stringText, parseValue, parseString_escape]
  | .arr [], fuel + 1, _, _, _ => by simp [print, parseValue]
  | .arr (v :: vs), fuel + 1, rest, _, hfuel => by
    simp only [print, List.length_cons, List.length_append] at hfuel
    have hv := parseValue_print v fuel (delimited_printItems vs rest) (by omega)
    have hvs := parseItems_print vs fuel rest (by omega)
    obtain ⟨c, cs, hcons, hc⟩ := exists_cons_print v
    rw [print, List.cons_append, List.append_assoc]
    rw [hcons, List.cons_append] at hv ⊢
    rw [parseValue]
    · simp [hv, hvs]
    · rintro rest heq
      exact hc (List.cons.inj heq).1
  | .obj [], fuel + 1, _, _, _ => by simp [print, parseValue]
  | .obj ((k, v) :: fs), fuel + 1, rest, _, hfuel => by
    simp only [print, List.length_cons, List.length_append] at hfuel
    have hv := parseValue_print v fuel (delimited_printFields fs rest) (by omega)
    have hfs := parseFields_print fs fuel rest (by omega)
    have hk := parseKey_stringText k (print v ++ (printFields fs ++ rest))
    rw [stringText, List.cons_append] at hk
    rw [print, stringText]
    simp only [List.cons_append, List.append_assoc, List.nil_append] at hk ⊢
    rw [parseValue]
    · simp [hk, hv, hfs]
    · rintro rest heq
      simp at heq

theorem parseItems_print : ∀ (vs : List Json) (fuel : ℕ) (rest : List Char),
    (printItems vs).length < fuel →
      parseItems fuel (printItems vs ++ rest) = some (vs, rest)
  | vs, 0, _, hfuel => absurd hfuel (Nat.not_lt_zero _)
  | [], fuel + 1, _, _ => by simp [printItems, parseItems]
  | v :: vs, fuel + 1, rest, hfuel => by
    simp only [printItems, List.length_cons, List.length_append] at hfuel
    have hv := parseValue_print v fuel (delimited_printItems vs rest) (by omega)
    have hvs := parseItems_print vs fuel rest (by omega)
    rw [printItems, List.cons_append, List.append_assoc, parseItems]
    simp [hv, hvs]

theorem parseFields_print : ∀ (fs : List (String × Json)) (fuel : ℕ) (rest : List Char),
    (printFields fs).length < fuel →
      parseFields fuel (printFields fs ++ rest) = some (fs, rest)
  | fs, 0, _, hfuel => absurd hfuel (Nat.not_lt_zero _)
  | [], fuel + 1, _, _ => by simp [printFields, parseFields]
  | (k, v) :: fs, fuel + 1, rest, hfuel => by
    simp only [printFields, List.length_cons, List.length_append] at hfuel
    have hv := parseValue_print v fuel (delimited_printFields fs rest) (by omega)
    have hfs := parseFields_print fs fuel rest (by omega)
    have hk := parseKey_stringText k (print v ++ (printFields fs ++ rest))
    simp only [printFields, List.cons_append, List.append_assoc, parseFields]
    simp [hk, hv, hfs]

end

/-- The text of a document, without blanks. -/
def toText (v : Json) : String := String.ofList (print v)

/-- The document that is the whole text, whatever its depth. -/
def parseText (s : String) : Option Json :=
  match parseValue (s.toList.length + 1) s.toList with
  | some (v, []) => some v
  | _ => none

def fromText (s : String) : Option Json :=
  (parseText s).filter fun v => v.depth ≤ recursionLimit

theorem parseText_toText (v : Json) : parseText (toText v) = some v := by
  have h := @parseValue_print v ((print v).length + 1) [] (by simp [Delimited]) (by omega)
  rw [List.append_nil] at h
  rw [parseText, toText, String.toList_ofList, h]

theorem fromText_toText (v : Json) :
    fromText (toText v) = if v.depth ≤ recursionLimit then some v else none := by
  rw [fromText, parseText_toText]
  simp [Option.filter]

end Serde.Reference

namespace Serde

mutual

/-- Applying the identity to every float changes nothing. -/
theorem Json.mapFloat_id : ∀ v : Json, v.mapFloat id = v
  | .null | .bool _ | .int _ | .float _ | .str _ => rfl
  | .arr items => by rw [mapFloat, mapFloatList_id]
  | .obj fields => by rw [mapFloat, mapFloatFields_id]

theorem Json.mapFloatList_id : ∀ vs : List Json, mapFloatList id vs = vs
  | [] => rfl
  | v :: vs => by rw [mapFloatList, mapFloat_id v, mapFloatList_id vs]

theorem Json.mapFloatFields_id : ∀ fs : List (String × Json), mapFloatFields id fs = fs
  | [] => rfl
  | (k, v) :: fs => by rw [mapFloatFields, mapFloat_id v, mapFloatFields_id fs]

end

/-- The low half of the bits is always finite. -/
theorem isFinite_setWidth (b : BitVec 32) : (F64.mk (b.setWidth 64)).isFinite := by
  have hzero : (b.setWidth 64).extractLsb' 52 11 = 0#11 := by
    apply BitVec.eq_of_toNat_eq
    have := b.isLt
    simp only [BitVec.extractLsb'_toNat, BitVec.toNat_setWidth, BitVec.toNat_ofNat,
      Nat.shiftRight_eq_div_pow]
    omega
  rw [F64.isFinite, hzero]
  decide

/-- The reference library: floats are read back exactly, and an `f32` is widened by its
bits. -/
abbrev reference : JsonText where
  toText := Reference.toText
  fromText := Reference.fromText
  isRaw s := (Reference.parseText s).isSome
  reread := id
  ofF32 x := ⟨⟨x.val.bits.setWidth 64⟩, isFinite_setWidth _⟩
  toF32 x := ⟨x.val.bits.setWidth 32⟩
  ofInt n := ⟨⟨(BitVec.ofInt 32 n).setWidth 64⟩, isFinite_setWidth _⟩
  intToF32 n := ⟨BitVec.ofInt 32 n⟩
  fromText_toText v hv := by rw [Reference.fromText_toText, if_pos hv, Json.mapFloat_id]
  fromText_deep v hv := by rw [Reference.fromText_toText, if_neg (not_le.mpr hv)]

end Serde
