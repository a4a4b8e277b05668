import Mathlib.Data.Nat.Notation

/-!
# The grammar of JSON

The texts that are JSON documents, by the productions of RFC 8259: whitespace, literals,
numbers, strings, and the parts of a document that are built from them. The grammar names
nothing of a parser.
-/

namespace JsonGrammar

def IsWhitespace (w : List Char) : Prop := ∀ c ∈ w, c = ' ' ∨ c = '\n' ∨ c = '\t' ∨ c = '\r'

def IsHexDigit (c : Char) : Prop := c.isDigit ∨ ('a' ≤ c ∧ c ≤ 'f') ∨ ('A' ≤ c ∧ c ≤ 'F')

def escapes : List Char := ['"', '\\', '/', 'b', 'f', 'n', 'r', 't']

/-- What stands between the quotation marks of a string. -/
inductive IsChars : List Char → Prop
  | nil : IsChars []
  | unescaped {c : Char} {w : List Char} (hc : ' ' ≤ c) (hquote : c ≠ '"') (hescape : c ≠ '\\')
      (hw : IsChars w) : IsChars (c :: w)
  | escaped {c : Char} {w : List Char} (hc : c ∈ escapes) (hw : IsChars w) :
      IsChars ('\\' :: c :: w)
  | unicode {digits w : List Char} (hlength : digits.length = 4)
      (hdigits : ∀ c ∈ digits, IsHexDigit c) (hw : IsChars w) :
      IsChars ('\\' :: 'u' :: (digits ++ w))

def stringText (w : List Char) : List Char := '"' :: (w ++ ['"'])

/-- At least one digit. -/
def IsDigits (w : List Char) : Prop := w ≠ [] ∧ ∀ c ∈ w, c.isDigit

/-- A number without a zero in front. -/
inductive IsInteger : List Char → Prop
  | zero : IsInteger ['0']
  | digits {c : Char} {w : List Char} (hc : c.isDigit) (hzero : c ≠ '0')
      (hw : ∀ d ∈ w, d.isDigit) : IsInteger (c :: w)

inductive IsFraction : List Char → Prop
  | none : IsFraction []
  | some {w : List Char} (hw : IsDigits w) : IsFraction ('.' :: w)

inductive IsExponent : List Char → Prop
  | none : IsExponent []
  | some {e : Char} {sign w : List Char} (he : e = 'e' ∨ e = 'E')
      (hsign : sign = [] ∨ sign = ['+'] ∨ sign = ['-']) (hw : IsDigits w) :
      IsExponent (e :: (sign ++ w))

inductive IsNumber : List Char → Prop
  | mk {sign integer fraction exponent : List Char} (hsign : sign = [] ∨ sign = ['-'])
      (hinteger : IsInteger integer) (hfraction : IsFraction fraction)
      (hexponent : IsExponent exponent) :
      IsNumber (sign ++ (integer ++ (fraction ++ exponent)))

def literals : List (List Char) := ["true".toList, "false".toList, "null".toList]

/-- The productions that are built from one another. -/
inductive Part
  | value
  /-- A value with the whitespace around it. -/
  | element
  | members
  | elements

/-- The text of a part of a document. -/
inductive IsPart : Part → List Char → Prop
  | literal {w : List Char} (hw : w ∈ literals) : IsPart .value w
  | number {w : List Char} (hw : IsNumber w) : IsPart .value w
  | string {w : List Char} (hw : IsChars w) : IsPart .value (stringText w)
  | emptyObject {u : List Char} (hu : IsWhitespace u) : IsPart .value ('{' :: (u ++ ['}']))
  | object {m : List Char} (hm : IsPart .members m) : IsPart .value ('{' :: (m ++ ['}']))
  | emptyArray {u : List Char} (hu : IsWhitespace u) : IsPart .value ('[' :: (u ++ [']']))
  | array {m : List Char} (hm : IsPart .elements m) : IsPart .value ('[' :: (m ++ [']']))
  | element {u v w : List Char} (hu : IsWhitespace u) (hv : IsPart .value v)
      (hw : IsWhitespace w) : IsPart .element (u ++ (v ++ w))
  | member {u k w e : List Char} (hu : IsWhitespace u) (hk : IsChars k) (hw : IsWhitespace w)
      (he : IsPart .element e) : IsPart .members (u ++ (stringText k ++ (w ++ ':' :: e)))
  | members {u k w e m : List Char} (hu : IsWhitespace u) (hk : IsChars k)
      (hw : IsWhitespace w) (he : IsPart .element e) (hm : IsPart .members m) :
      IsPart .members (u ++ (stringText k ++ (w ++ ':' :: (e ++ ',' :: m))))
  | single {e : List Char} (he : IsPart .element e) : IsPart .elements e
  | elements {e m : List Char} (he : IsPart .element e) (hm : IsPart .elements m) :
      IsPart .elements (e ++ ',' :: m)

/-- A text that is a JSON document. -/
def IsDocument (text : String) : Prop := IsPart .element text.toList

/-! ### What a string stands for -/

def hexValue (c : Char) : ℕ :=
  if c.isDigit then c.toNat - 48 else if 'a' ≤ c then c.toNat - 87 else c.toNat - 55

/-- The number that hexadecimal digits stand for. -/
def codeUnit (digits : List Char) : ℕ := digits.foldl (fun n c => 16 * n + hexValue c) 0

/-- The escaped characters with what they stand for. -/
def escapeTable : List (Char × Char) :=
  [('"', '"'), ('\\', '\\'), ('/', '/'), ('b', '\x08'), ('f', '\x0c'), ('n', '\n'),
    ('r', '\r'), ('t', '\t')]

/-- What stands between the quotation marks of a string, and the characters of the string. A
character above the first plane may be written as a pair of surrogates. -/
inductive Encodes : List Char → List Char → Prop
  | nil : Encodes [] []
  | unescaped {c : Char} {w s : List Char} (hc : ' ' ≤ c) (hquote : c ≠ '"') (hescape : c ≠ '\\')
      (hw : Encodes w s) : Encodes (c :: w) (c :: s)
  | escaped {c d : Char} {w s : List Char} (hc : (c, d) ∈ escapeTable) (hw : Encodes w s) :
      Encodes ('\\' :: c :: w) (d :: s)
  | unicode {digits w s : List Char} (hlength : digits.length = 4)
      (hdigits : ∀ c ∈ digits, IsHexDigit c)
      (hcode : codeUnit digits < 0xd800 ∨ 0xe000 ≤ codeUnit digits) (hw : Encodes w s) :
      Encodes ('\\' :: 'u' :: (digits ++ w)) (Char.ofNat (codeUnit digits) :: s)
  | surrogates {high low w s : List Char} (hhigh : high.length = 4) (hlow : low.length = 4)
      (hhighDigits : ∀ c ∈ high, IsHexDigit c) (hlowDigits : ∀ c ∈ low, IsHexDigit c)
      (hhighCode : 0xd800 ≤ codeUnit high ∧ codeUnit high < 0xdc00)
      (hlowCode : 0xdc00 ≤ codeUnit low ∧ codeUnit low < 0xe000) (hw : Encodes w s) :
      Encodes ('\\' :: 'u' :: (high ++ '\\' :: 'u' :: (low ++ w)))
        (Char.ofNat (0x10000 + 0x400 * (codeUnit high - 0xd800) + (codeUnit low - 0xdc00)) :: s)

theorem mem_escapes_of_mem_escapeTable {c d : Char} (h : (c, d) ∈ escapeTable) : c ∈ escapes := by
  have hall : ∀ p ∈ escapeTable, p.1 ∈ escapes := by decide
  exact hall (c, d) h

theorem Encodes.isChars {w s : List Char} (h : Encodes w s) : IsChars w := by
  induction h with
  | nil => exact .nil
  | unescaped hc hquote hescape _ ih => exact .unescaped hc hquote hescape ih
  | escaped hc _ ih => exact .escaped (mem_escapes_of_mem_escapeTable hc) ih
  | unicode hlength hdigits _ _ ih => exact .unicode hlength hdigits ih
  | surrogates hhigh hlow hhighDigits hlowDigits _ _ _ ih =>
    exact .unicode hhigh hhighDigits (.unicode hlow hlowDigits ih)

theorem Encodes.append {v w s t : List Char} (h : Encodes v s) (h' : Encodes w t) :
    Encodes (v ++ w) (s ++ t) := by
  induction h with
  | nil => exact h'
  | unescaped hc hquote hescape _ ih => exact .unescaped hc hquote hescape ih
  | escaped hc _ ih => exact .escaped hc ih
  | unicode hlength hdigits hcode _ ih =>
    have hunicode := Encodes.unicode hlength hdigits hcode ih
    rw [← List.append_assoc] at hunicode
    exact hunicode
  | surrogates hhigh hlow hhighDigits hlowDigits hhighCode hlowCode _ ih =>
    have hpair := Encodes.surrogates hhigh hlow hhighDigits hlowDigits hhighCode hlowCode ih
    simpa only [List.cons_append, List.append_assoc] using hpair

theorem Encodes.eq_nil_iff {w s : List Char} (h : Encodes w s) : w = [] ↔ s = [] := by
  cases h <;> simp

end JsonGrammar
