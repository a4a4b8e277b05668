import HeliosLite.Serde.Text

/-!
# The scanner of the JSON repair parser

Embedding of what `crates/forge_json_repair/src/parser.rs` reads without calling itself:
whitespace and comments, markdown fences, numbers, keywords, unquoted symbols, regular
expressions, and the loop of `parse_string` up to the point where it ends the string or
starts it again. The output is the list of its characters.

A loop that moves `i` to the right is bounded by the length of the text. The results that
no caller reads, such as that of `parse_whitespace`, are left out.

## Main definitions

* `JsonRepairParser` — the text, the position in it and the output
* `parseWhitespaceAndSkipComments`, `parseNumber`, `parseKeywords`, `parseRegex`
* `scanString` — the loop of `parse_string`, which ends in a `StringEnd`
-/

namespace HeliosLite

/-- The ways in which the parser fails. -/
inductive JsonRepairError
  | invalidCharacter (character : Char) (position : ℕ)
  | unexpectedCharacter (character : Char) (position : ℕ)
  | unexpectedEnd (position : ℕ)
  | objectKeyExpected (position : ℕ)
  | colonExpected (position : ℕ)
  | invalidUnicodeCharacter (chars : List Char) (position : ℕ)
  | jsonError (message : String)
  deriving DecidableEq

structure JsonRepairParser where
  chars : List Char
  i : ℕ
  output : List Char
  deriving DecidableEq

namespace JsonRepairParser

def new (text : String) : JsonRepairParser := { chars := text.toList, i := 0, output := [] }

/-! ## Characters -/

def isWhitespace (ch : Char) (skipNewline : Bool) : Bool :=
  if skipNewline then ch == ' ' || ch == '\n' || ch == '\t' || ch == '\r'
  else ch == ' ' || ch == '\t' || ch == '\r'

def isSpecialWhitespace (ch : Char) : Bool :=
  ch.toNat == 0xa0 || (0x2000 ≤ ch.toNat && ch.toNat ≤ 0x200a) || ch.toNat == 0x202f ||
    ch.toNat == 0x205f || ch.toNat == 0x3000

def quotes : List Char :=
  ['"', '\'', Char.ofNat 0x60, '\u2018', '\u2019', '\u201c', '\u201d', '\u00b4']

def isQuote (ch : Option Char) : Bool := ch.any quotes.contains

def isDigit (ch : Option Char) : Bool := ch.any Char.isDigit

def isHex (ch : Char) : Bool :=
  ch.isDigit || ('a' ≤ ch && ch ≤ 'f') || ('A' ≤ ch && ch ≤ 'F')

def isFunctionNameCharStart (ch : Option Char) : Bool :=
  ch.any fun c => c.isAlpha || c == '_' || c == '$'

def isFunctionNameChar (ch : Option Char) : Bool :=
  ch.any fun c => c.isAlphanum || c == '_' || c == '$'

def isDelimiter (ch : Option Char) : Bool :=
  ch.any [',', ':', '[', ']', '/', '{', '}', '(', ')', '\n', '+'].contains

def isUnquotedStringDelimiter (ch : Char) : Bool :=
  [',', '[', ']', '/', '{', '}', '\n', '+'].contains ch

def isStartOfValue (ch : Option Char) : Bool :=
  isQuote ch || ch.any fun c => c == '[' || c == '{' || c.isAlphanum || c == '_' || c == '-'

def isControlCharacter (ch : Char) : Bool :=
  ch == '\n' || ch == '\r' || ch == '\t' || ch.toNat == 0x08 || ch.toNat == 0x0c

def isValidStringCharacter (ch : Char) : Bool := ' ' ≤ ch

def urlSchemes : List String :=
  ["http://", "https://", "ftp://", "mailto:", "file://", "data:", "irc://"]

def isUrlStart (chars : List Char) : Bool :=
  7 ≤ chars.length && urlSchemes.any fun scheme => scheme.toList.isPrefixOf chars

def isUrlChar (ch : Char) : Bool :=
  ch.isAlphanum ||
    ['-', '.', '_', '~', ':', '/', '?', '#', '@', '!', '$', '&', '\'', '(', ')', '*', '+', ';',
      '='].contains ch

/-- The characters that end a string which the given quote begins. -/
def getEndQuoteMatcher (quoteChar : Char) : Char → Bool :=
  if quoteChar = '"' then (· == '"')
  else if quoteChar = '\'' then (· == '\'')
  else if quoteChar = '\u2018' ∨ quoteChar = '\u2019' then ['\u2018', '\u2019'].contains
  else if quoteChar = '\u201c' ∨ quoteChar = '\u201d' then ['\u201c', '\u201d'].contains
  else if quoteChar = Char.ofNat 0x60 ∨ quoteChar = '\u00b4' then
    [Char.ofNat 0x60, '\u00b4', '\''].contains
  else (· == '"')

def getControlCharacterEscape (ch : Char) : List Char :=
  if ch.toNat = 0x08 then ['\\', 'b']
  else if ch.toNat = 0x0c then ['\\', 'f']
  else if ch = '\n' then ['\\', 'n']
  else if ch = '\r' then ['\\', 'r']
  else if ch = '\t' then ['\\', 't']
  else [ch]

/-! ## Positions -/

variable (p : JsonRepairParser)

def currentChar : Option Char := p.chars[p.i]?

/-- `chars[from .. to]`. -/
def slice (start stop : ℕ) : List Char := (p.chars.take stop).drop start

/-- `while i < end && cond(i) { i += 1 }`, where `steps` positions are left. -/
def skipWhile (cond : ℕ → Bool) : ℕ → ℕ → ℕ
  | 0, i => i
  | steps + 1, i => if cond i then skipWhile cond steps (i + 1) else i

/-- The first position from `i` on, at most the end of the text, that fails the condition. -/
def advance (cond : Option Char → Bool) (i : ℕ) : ℕ :=
  skipWhile (fun j => cond p.chars[j]?) (p.chars.length - i) i

def parseCharacter (expected : Char) : Bool × JsonRepairParser :=
  if p.currentChar = some expected then
    (true, { p with output := p.output ++ [expected], i := p.i + 1 })
  else (false, p)

def skipCharacter (expected : Char) : JsonRepairParser :=
  if p.currentChar = some expected then { p with i := p.i + 1 } else p

/-! ## Whitespace and comments -/

def parseWhitespace (skipNewline : Bool) : JsonRepairParser :=
  let whitespace := (p.chars.drop p.i).takeWhile fun ch =>
    isWhitespace ch skipNewline || isSpecialWhitespace ch
  { p with
    i := p.i + whitespace.length
    output := p.output ++ whitespace.map fun ch => if isWhitespace ch skipNewline then ch else ' ' }

def atEndOfBlockComment (i : ℕ) : Bool := p.chars[i]? == some '*' && p.chars[i + 1]? == some '/'

def parseComment : Option JsonRepairParser :=
  if p.currentChar = some '/' ∧ p.chars[p.i + 1]? = some '*' then
    let stop := skipWhile (fun j => !p.atEndOfBlockComment j) (p.chars.length - p.i) p.i
    some { p with i := stop + 2 }
  else if p.currentChar = some '/' ∧ p.chars[p.i + 1]? = some '/' then
    some { p with i := p.advance (· ≠ some '\n') p.i }
  else none

/-- The loop over comments; each takes at least two characters, so that the length of the
text bounds it. -/
def skipComments (skipNewline : Bool) : ℕ → JsonRepairParser → JsonRepairParser
  | 0, p => p
  | steps + 1, p =>
    match p.parseComment with
    | some q => skipComments skipNewline steps (q.parseWhitespace skipNewline)
    | none => p

def parseWhitespaceAndSkipComments (skipNewline : Bool) : JsonRepairParser :=
  skipComments skipNewline p.chars.length (p.parseWhitespace skipNewline)

def skipMarkdownCodeBlock (blocks : List String) : Option JsonRepairParser :=
  (blocks.find? fun block => block.toList.isPrefixOf (p.chars.drop p.i)).map fun block =>
    { p with i := p.i + block.toList.length }

def skipLanguageName : JsonRepairParser :=
  if isFunctionNameCharStart p.currentChar then { p with i := p.advance isFunctionNameChar p.i }
  else p

def parseMarkdownCodeBlock (blocks : List String) : JsonRepairParser :=
  match p.skipMarkdownCodeBlock blocks with
  | some q => q.skipLanguageName.parseWhitespaceAndSkipComments true
  | none => p

def skipEllipsis : JsonRepairParser :=
  let q := p.parseWhitespaceAndSkipComments true
  if q.currentChar = some '.' ∧ q.chars[q.i + 1]? = some '.' ∧ q.chars[q.i + 2]? = some '.' then
    ({ q with i := q.i + 3 }.parseWhitespaceAndSkipComments true).skipCharacter ','
  else q

/-! ## Repairs of the output -/

/-- `text` up to its trailing whitespace, and that whitespace. -/
def splitTrailing (text : List Char) : List Char × List Char :=
  let trailing := text.reverse.takeWhile (isWhitespace · true)
  (text.take (text.length - trailing.length), trailing.reverse)

def insertBeforeLastWhitespaceStr (text textToInsert : List Char) : List Char :=
  (splitTrailing text).1 ++ textToInsert ++ (splitTrailing text).2

def insertBeforeLastWhitespace (textToInsert : List Char) : JsonRepairParser :=
  { p with output := insertBeforeLastWhitespaceStr p.output textToInsert }

/-- The output before and after its last occurrence of a character (`rfind`). -/
def rfind (ch : Char) : Option (List Char × List Char) :=
  let after := p.output.reverse.takeWhile (· ≠ ch)
  if after.length < p.output.length then
    some (p.output.take (p.output.length - after.length - 1), after.reverse)
  else none

def stripLastOccurrenceWithRemaining (ch : Char) (stripRemaining : Bool) : JsonRepairParser :=
  match p.rfind ch with
  | some (before, after) =>
    { p with output := if stripRemaining then before else before ++ after }
  | none => p

def stripLastOccurrence (ch : Char) : JsonRepairParser :=
  p.stripLastOccurrenceWithRemaining ch false

def removeAtIndex (start count : ℕ) : JsonRepairParser :=
  { p with output := p.output.take start ++ p.output.drop (start + count) }

/-- `output.len()`, which counts bytes. -/
def outputLen : ℕ := (p.output.map Char.utf8Size).sum

/-- The regular expression `[,\n][ \t\r]*$`. -/
def endsWithCommaOrNewline : Bool :=
  let rest := p.output.reverse.dropWhile fun ch => ch == ' ' || ch == '\t' || ch == '\r'
  rest.head? == some ',' || rest.head? == some '\n'

/-- `serde_json::to_string` of a string. -/
def quoted (text : List Char) : List Char := Serde.Reference.stringText (String.ofList text)

/-! ## Numbers -/

def atEndOfNumber (i : ℕ) : Bool :=
  p.chars.length ≤ i || isDelimiter p.chars[i]? || isWhitespace (p.chars[i]?.getD '\x00') true

/-- Where a number is read to: not a number, one that breaks off after a sign, a point or
an exponent mark, or one read up to a position. -/
inductive NumberEnd
  | notNumber
  | brokenOff (i : ℕ)
  | upTo (i : ℕ)
  deriving DecidableEq

def NumberEnd.bind : NumberEnd → (ℕ → NumberEnd) → NumberEnd
  | .upTo i, next => next i
  | other, _ => other

/-- The digits that have to follow a sign, a point or an exponent mark. -/
def digitsAfter (i : ℕ) : NumberEnd :=
  if p.atEndOfNumber i then .brokenOff i
  else if isDigit p.chars[i]? then .upTo (p.advance isDigit i)
  else .notNumber

def integerEnd (i : ℕ) : NumberEnd :=
  if p.chars[i]? = some '-' then p.digitsAfter (i + 1) else .upTo (p.advance isDigit i)

def fractionEnd (i : ℕ) : NumberEnd :=
  if p.chars[i]? = some '.' then p.digitsAfter (i + 1) else .upTo i

def exponentEnd (i : ℕ) : NumberEnd :=
  if p.chars[i]? = some 'e' ∨ p.chars[i]? = some 'E' then
    let signed := p.chars[i + 1]? = some '-' ∨ p.chars[i + 1]? = some '+'
    p.digitsAfter (if signed then i + 2 else i + 1)
  else .upTo i

def hasInvalidLeadingZero (num : List Char) : Bool :=
  1 < num.length && num.head? == some '0' && isDigit num[1]?

/-- `none` where the source resets `i` and answers `false`. -/
def parseNumber : Option JsonRepairParser :=
  match ((p.integerEnd p.i).bind p.fractionEnd).bind p.exponentEnd with
  | .notNumber => none
  | .brokenOff i => some { p with i := i, output := p.output ++ p.slice p.i i ++ ['0'] }
  | .upTo i =>
    if p.atEndOfNumber i ∧ p.i < i then
      let num := p.slice p.i i
      some { p with
        i := i
        output := p.output ++ if hasInvalidLeadingZero num then quoted num else num }
    else none

/-! ## Keywords, symbols and regular expressions -/

def keywords : List (String × String) :=
  [("true", "true"), ("false", "false"), ("null", "null"), ("True", "true"), ("False", "false"),
    ("None", "null")]

def parseKeyword (name value : String) : Option JsonRepairParser :=
  if name.toList.isPrefixOf (p.chars.drop p.i) then
    some { p with output := p.output ++ value.toList, i := p.i + name.toList.length }
  else none

def parseKeywords : Option JsonRepairParser := keywords.findSome? fun (n, v) => p.parseKeyword n v

/-- The parser behind the opening bracket of a function call that begins here. -/
def functionCall : Option JsonRepairParser :=
  if isFunctionNameCharStart p.currentChar then
    let name := p.advance isFunctionNameChar p.i
    let j := p.advance (fun ch => ch.any (isWhitespace · true)) name
    if p.chars[j]? = some '(' then some { p with i := j + 1 } else none
  else none

def skipCallEnd : JsonRepairParser :=
  if p.currentChar = some ')' then { p with i := p.i + 1 }.skipCharacter ';' else p

def isUrlCharAt (ch : Option Char) : Bool := ch.any isUrlChar

/-- The texts that `parse::<f64>` accepts. -/
def isF64 (text : List Char) : Bool :=
  let unsigned := if text.head? = some '-' ∨ text.head? = some '+' then text.tail else text
  let lower := unsigned.map Char.toLower
  let whole := unsigned.takeWhile Char.isDigit
  let rest := unsigned.dropWhile Char.isDigit
  let fraction := if rest.head? = some '.' then rest.tail.takeWhile Char.isDigit else []
  let rest := if rest.head? = some '.' then rest.tail.dropWhile Char.isDigit else rest
  let exponent := match rest with
    | 'e' :: ds | 'E' :: ds =>
      let ds := if ds.head? = some '-' ∨ ds.head? = some '+' then ds.tail else ds
      !ds.isEmpty && ds.all Char.isDigit
    | [] => true
    | _ => false
  lower == "inf".toList || lower == "infinity".toList || lower == "nan".toList ||
    ((!whole.isEmpty || !fraction.isEmpty) && exponent)

def symbolText (isKey : Bool) (symbol : List Char) : List Char :=
  if symbol = "undefined".toList then "null".toList
  else if isKey then quoted symbol
  else if isF64 symbol then symbol
  else quoted symbol

/-- The end of an unquoted string, before the whitespace at its end is given back. -/
def symbolEnd (isKey : Bool) : ℕ :=
  let stop := p.advance
    (fun ch => ch.any fun c =>
      !(isUnquotedStringDelimiter c || isQuote (some c) || isKey && c == ':')) p.i
  if 0 < stop ∧ p.chars[stop - 1]? = some ':' ∧ p.i < p.chars.length ∧
      stop + 2 ≤ p.chars.length ∧ isUrlStart (p.slice p.i (stop + 2)) then
    p.advance isUrlCharAt stop
  else stop

/-- The part of `parse_unquoted_string` behind its function call. -/
def unquotedSymbol (isKey : Bool) : Option JsonRepairParser :=
  let stop := p.symbolEnd isKey
  if p.i < stop then
    let symbol := (splitTrailing (p.slice p.i stop)).1
    some ({ p with
      i := p.i + symbol.length
      output := p.output ++ symbolText isKey symbol }.skipCharacter '"')
  else none

def parseRegex : Option JsonRepairParser :=
  if p.currentChar = some '/' then
    let stop := skipWhile
      (fun j => p.chars[j]? != some '/' || p.chars[j - 1]? == some '\\')
      (p.chars.length - (p.i + 1)) (p.i + 1)
    let stop := if stop < p.chars.length then stop + 1 else stop
    some { p with i := stop, output := p.output ++ quoted (p.slice p.i stop) }
  else none

/-! ## Strings -/

/-- How a pass over a string ends. -/
inductive StringEnd
  /-- The text ended or the stop index was reached: the end quote is added. -/
  | unfinished (content : List Char) (i : ℕ)
  /-- An end quote was found. -/
  | closed (content : List Char) (iQuote : ℕ)
  /-- The string was stopped at a delimiter. -/
  | delimited (content : List Char) (i : ℕ)
  /-- An escaped comma ends the string. -/
  | escapedComma (content : List Char) (i : ℕ)
  /-- The string is read again, up to a comma before a rejected end quote. -/
  | retryAtComma (index : ℕ)
  /-- The string is read again, up to the first delimiter. -/
  | retryAtDelimiter
  | failed (error : JsonRepairError)
  deriving DecidableEq

/-- What one round of the loop gives: the content and the position it goes on with, or the
end of the string. -/
abbrev StringStep := (List Char × ℕ) ⊕ StringEnd

def prevNonWhitespaceIndex : ℕ → ℕ
  | 0 => 0
  | prev + 1 =>
    if p.chars[prev + 1]?.any (isWhitespace · true) then prevNonWhitespaceIndex prev else prev + 1

def textEnd (stopAtDelimiter : Bool) (content : List Char) (i : ℕ) : StringEnd :=
  if !stopAtDelimiter ∧ isDelimiter p.chars[p.prevNonWhitespaceIndex (i - 1)]? then
    .retryAtDelimiter
  else .unfinished content i

/-- What follows a quote decides whether it ends the string. -/
def isLegitimateEndQuote (stopAtDelimiter : Bool) (iQuote : ℕ) : Bool :=
  let q := { p with i := iQuote + 1 }.parseWhitespaceAndSkipComments false
  stopAtDelimiter || q.chars.length ≤ q.i || isDelimiter q.currentChar ||
    isQuote q.currentChar || isDigit q.currentChar

def endQuoteStep (stopAtDelimiter : Bool) (content : List Char) (i : ℕ) : StringStep :=
  if p.isLegitimateEndQuote stopAtDelimiter i then .inr (.closed (content ++ ['"']) i)
  else
    let iPrevChar := p.prevNonWhitespaceIndex (i - 1)
    if p.chars[iPrevChar]? = some ',' then .inr (.retryAtComma iPrevChar)
    else if isDelimiter p.chars[iPrevChar]? then .inr .retryAtDelimiter
    else .inl (content ++ ['\\', '"'], i + 1)

/-- A delimiter ends the string unless it belongs to a web address. -/
def delimiterStep (content : List Char) (i : ℕ) : StringStep :=
  let isUrl := p.chars[i - 1]? = some ':' ∧ p.i + 1 < p.chars.length ∧
    i + 2 ≤ p.chars.length ∧ isUrlStart (p.slice (p.i + 1) (i + 2))
  let stop := if isUrl then p.advance isUrlCharAt i else i
  .inr (.delimited (content ++ p.slice i stop) stop)

def unicodeStep (content : List Char) (i : ℕ) : StringStep :=
  let j := 2 + (((p.chars.drop (i + 2)).take 4).takeWhile isHex).length
  if j = 6 then .inl (content ++ p.slice i (i + 6), i + 6)
  else if p.chars.length ≤ i + j then .inl (content, p.chars.length)
  else .inr (.failed (.invalidUnicodeCharacter (p.slice i (i + j)) i))

def escapeStep (skipEscapeChars : Bool) (content : List Char) (i : ℕ) : StringStep :=
  match p.chars[i + 1]? with
  | none => .inl (content, i + 1)
  | some next =>
    if ['"', '\\', '/', 'b', 'f', 'n', 'r', 't'].contains next then
      .inl (content ++ ['\\', next], i + 2)
    else if next = ',' ∧ skipEscapeChars then .inr (.escapedComma content i)
    else if next = 'u' then p.unicodeStep content i
    else .inl (content ++ [next], i + 2)

def plainStep (content : List Char) (i : ℕ) (ch : Char) : StringStep :=
  if ch = '"' ∧ p.chars[i - 1]? ≠ some '\\' then .inl (content ++ ['\\', '"'], i + 1)
  else if isControlCharacter ch then .inl (content ++ getControlCharacterEscape ch, i + 1)
  else if isValidStringCharacter ch then .inl (content ++ [ch], i + 1)
  else .inr (.failed (.invalidCharacter ch i))

/-- The body of the loop at a character. -/
def characterStep (quoteChar : Char) (skipEscapeChars stopAtDelimiter : Bool)
    (content : List Char) (i : ℕ) (ch : Char) : StringStep :=
  if getEndQuoteMatcher quoteChar ch then p.endQuoteStep stopAtDelimiter content i
  else if stopAtDelimiter ∧ isUnquotedStringDelimiter ch then p.delimiterStep content i
  else if ch = '\\' then p.escapeStep skipEscapeChars content i
  else p.plainStep content i ch

def stringStep (quoteChar : Char) (skipEscapeChars stopAtDelimiter : Bool)
    (stopAtIndex : Option ℕ) (content : List Char) (i : ℕ) : StringStep :=
  match p.chars[i]? with
  | none => .inr (p.textEnd stopAtDelimiter content i)
  | some ch =>
    if stopAtIndex = some i then .inr (.unfinished content i)
    else p.characterStep quoteChar skipEscapeChars stopAtDelimiter content i ch

/-- The repair at the end of the loop: an escape character is skipped. -/
def skipEscape (skipEscapeChars : Bool) (i : ℕ) : ℕ :=
  if skipEscapeChars ∧ p.chars[i]? = some '\\' then i + 1 else i

/-- The loop of `parse_string`; `steps` positions of the text are left. -/
def scanString (quoteChar : Char) (skipEscapeChars stopAtDelimiter : Bool)
    (stopAtIndex : Option ℕ) : ℕ → List Char → ℕ → StringEnd
  | 0, content, i => p.textEnd stopAtDelimiter content i
  | steps + 1, content, i =>
    match p.stringStep quoteChar skipEscapeChars stopAtDelimiter stopAtIndex content i with
    | .inl (content, i) =>
      scanString quoteChar skipEscapeChars stopAtDelimiter stopAtIndex steps content
        (p.skipEscape skipEscapeChars i)
    | .inr stop => stop

/-- The pass over the string that begins at the current quote. -/
def scan (skipEscapeChars stopAtDelimiter : Bool) (stopAtIndex : Option ℕ) : StringEnd :=
  p.scanString (p.currentChar.getD '"') skipEscapeChars stopAtDelimiter stopAtIndex
    (p.chars.length - (p.i + 1)) ['"'] (p.i + 1)

end JsonRepairParser

end HeliosLite
