import HeliosLite.JsonRepair.Scanner
import HeliosLite.Theory.Fuel

/-!
# The JSON repair parser

Embedding of the functions of `crates/forge_json_repair/src/parser.rs` that call one
another: values, objects, arrays, strings and their concatenation, function calls, and the
document around them. Each is written over the calls it makes, and `calls` ties the knot
under a budget of nested calls.

The same functions are read twice. As the program they call `parse_string` again for a stop
index; guarded, they report `repeated` where that call is the one that is running.

## Main definitions

* `Calls`, `calls` — the functions that call themselves, and what they compute
* `jsonRepair` — the value of a text
* `repeatsCall` — the parser begins a call that is running already
-/

namespace HeliosLite

/-- What ends the parser before it reads a value. -/
inductive Stop
  | error (e : JsonRepairError)
  | repeated
  deriving DecidableEq

abbrev P (α : Type) := Theory.Budgeted JsonRepairParser Stop α

/-- The functions that the parser calls from within themselves; the loops are functions of
their own. -/
structure Calls where
  parseValue : P Bool
  parseString : Bool → Option ℕ → P Bool
  objectLoop : Bool → P Unit
  arrayLoop : Bool → P Unit
  concatenationLoop : P Unit
  newlineLoop : Bool → P Unit

namespace JsonRepairParser

/-- A part of the scanner as a part of the parser: `false` leaves the state as it is. -/
def attempt (scanner : JsonRepairParser → Option JsonRepairParser) : P Bool := do
  let p ← get
  match scanner p with
  | some q => do
    set q
    pure true
  | none => pure false

def fail {α : Type} (e : JsonRepairError) : P α := throw (.error e)

variable (call : Calls)

/-! ## Strings -/

/-- One `+` and the string behind it. -/
def beginConcatenation (p : JsonRepairParser) : JsonRepairParser :=
  let q := { p with i := p.i + 1 }.parseWhitespaceAndSkipComments true
  q.stripLastOccurrenceWithRemaining '"' true

/-- The start quote of the second string goes; without one the end quote comes back. -/
def endConcatenation (start : ℕ) (parsedStr : Bool) (p : JsonRepairParser) : JsonRepairParser :=
  if parsedStr then p.removeAtIndex start 1 else p.insertBeforeLastWhitespace ['"']

def concatenationLoop : P Unit := do
  let p ← get
  if p.currentChar = some '+' then do
    let q := p.beginConcatenation
    set q
    let parsedStr ← call.parseString false none
    modify (endConcatenation q.outputLen parsedStr)
    call.concatenationLoop
  else pure ()

def parseConcatenatedString : P Unit := do
  modify (parseWhitespaceAndSkipComments · true)
  call.concatenationLoop

/-- What `parse_string` does once a pass over the string that begins at `q` has ended. -/
def endString (guarded : Bool) (stopAtIndex : Option ℕ) (q : JsonRepairParser) :
    StringEnd → P Bool
  | .unfinished content i => do
    set { q with
      i := i
      output := q.output ++ insertBeforeLastWhitespaceStr content ['"'] }
    pure true
  | .closed content iQuote => do
    set ({ q with
      i := iQuote + 1
      output := q.output ++ content }.parseWhitespaceAndSkipComments false)
    parseConcatenatedString call
    pure true
  | .delimited content i => do
    set { q with
      i := i
      output := q.output ++ insertBeforeLastWhitespaceStr content ['"'] }
    parseConcatenatedString call
    pure true
  | .escapedComma content i => do
    set ({ q with
      i := i + 2
      output := q.output ++ insertBeforeLastWhitespaceStr content ['"'] ++ [','] }
      |>.parseWhitespaceAndSkipComments true)
    pure true
  | .retryAtComma index => do
    set q
    if guarded ∧ stopAtIndex = some index then throw .repeated
    else call.parseString false (some index)
  | .retryAtDelimiter => do
    set q
    call.parseString true none
  | .failed e => fail e

/-- An escape character before the string is dropped. -/
def dropEscape (p : JsonRepairParser) : JsonRepairParser := p.skipCharacter '\\'

def parseString (guarded stopAtDelimiter : Bool) (stopAtIndex : Option ℕ) : P Bool := do
  let p ← get
  let skipEscapeChars := p.currentChar == some '\\'
  let q := p.dropEscape
  if isQuote q.currentChar then
    endString call guarded stopAtIndex q (q.scan skipEscapeChars stopAtDelimiter stopAtIndex)
  else do
    set q
    pure false

/-- A function call gives its argument, and anything else that is not quoted a string. -/
def parseUnquotedString (isKey : Bool) : P Bool := do
  let p ← get
  match p.functionCall with
  | some q => do
    set q
    let _ ← call.parseValue
    modify skipCallEnd
    pure true
  | none => attempt (unquotedSymbol · isKey)

/-! ## Objects -/

/-- The comma before a member, with the repair of a missing one. -/
def commaStep (p : JsonRepairParser) : JsonRepairParser :=
  match p.parseCharacter ',' with
  | (true, q) => q
  | (false, q) => q.insertBeforeLastWhitespace [',']

def objectComma (initial : Bool) (p : JsonRepairParser) : JsonRepairParser :=
  if initial then p else p.commaStep.parseWhitespaceAndSkipComments true

/-- A member that has no key ends the object, or the parser. -/
def missingKey : P Unit := do
  let p ← get
  if [some '}', some '{', some ']', some '[', none].contains p.currentChar then
    set (p.stripLastOccurrence ',')
  else fail (.objectKeyExpected p.i)

/-- Whether the colon is there and whether the text ends at it. -/
def parseColon : P (Bool × Bool) := do
  modify (parseWhitespaceAndSkipComments · true)
  let processedColon ← modifyGet (parseCharacter · ':')
  let p ← get
  let truncatedText : Bool := p.chars.length ≤ p.i
  if processedColon then pure (processedColon, truncatedText)
  else if isStartOfValue p.currentChar || truncatedText then do
    set (p.insertBeforeLastWhitespace [':'])
    pure (processedColon, truncatedText)
  else fail (.colonExpected p.i)

def requireValue (processedColon truncatedText processedValue : Bool) : P Unit := do
  let p ← get
  if processedValue then pure ()
  else if processedColon || truncatedText then
    set { p with output := p.output ++ "null".toList }
  else fail (.colonExpected p.i)

def parseKey : P Bool := call.parseString false none <||> parseUnquotedString call true

def objectLoop (initial : Bool) : P Unit := do
  let p ← get
  if p.i < p.chars.length ∧ p.currentChar ≠ some '}' then do
    set (p.objectComma initial).skipEllipsis
    let processedKey ← parseKey call
    if processedKey then do
      let (processedColon, truncatedText) ← parseColon
      let processedValue ← call.parseValue
      requireValue processedColon truncatedText processedValue
      call.objectLoop false
    else missingKey
  else pure ()

/-- An opening bracket, with the comma that may follow it by mistake. -/
def openBracket (bracket : Char) (p : JsonRepairParser) : JsonRepairParser :=
  let q := { p with
    output := p.output ++ [bracket]
    i := p.i + 1 }.parseWhitespaceAndSkipComments true
  if q.currentChar = some ',' then
    (q.skipCharacter ',').parseWhitespaceAndSkipComments true
  else q

/-- A closing bracket, with the repair of a missing one. -/
def closeBracket (bracket : Char) (p : JsonRepairParser) : JsonRepairParser :=
  if p.currentChar = some bracket then
    { p with
      output := p.output ++ [bracket]
      i := p.i + 1 }
  else p.insertBeforeLastWhitespace [bracket]

/-- `parse_object` and `parse_array`: the brackets and the loop between them. -/
def parseBrackets (opening closing : Char) (loop : P Unit) : P Bool := do
  let p ← get
  if p.currentChar = some opening then do
    set (p.openBracket opening)
    loop
    modify (closeBracket closing)
    pure true
  else pure false

def parseObject : P Bool := parseBrackets '{' '}' (call.objectLoop true)

/-! ## Arrays -/

def arrayComma (initial : Bool) (p : JsonRepairParser) : JsonRepairParser :=
  if initial then p else p.commaStep

def arrayLoop (initial : Bool) : P Unit := do
  let p ← get
  if p.i < p.chars.length ∧ p.currentChar ≠ some ']' then do
    set (p.arrayComma initial).skipEllipsis
    let processedValue ← call.parseValue
    if processedValue then call.arrayLoop false
    else modify (stripLastOccurrence · ',')
  else pure ()

def parseArray : P Bool := parseBrackets '[' ']' (call.arrayLoop true)

/-! ## Values -/

/-- The kinds of values, in the order in which they are tried. -/
def parseAlternatives : P Bool :=
  parseObject call <||> parseArray call <||> call.parseString false none <||>
    attempt parseNumber <||> attempt parseKeywords <||> parseUnquotedString call false <||>
    attempt parseRegex

def parseValue : P Bool := do
  modify (parseWhitespaceAndSkipComments · true)
  let processed ← parseAlternatives call
  modify (parseWhitespaceAndSkipComments · true)
  pure processed

/-! ## Documents -/

def newlineLoop (initial : Bool) : P Unit := do
  modify fun p => if initial then p else p.commaStep
  let processedValue ← call.parseValue
  if processedValue then call.newlineLoop false
  else modify (stripLastOccurrence · ',')

def parseNewlineDelimitedJson : P Unit := do
  call.newlineLoop true
  modify fun p => { p with output := "[\n".toList ++ p.output ++ "\n]".toList }

/-- The values that follow the first one on lines of their own, or behind a comma. -/
def parseFollowing (processedComma : Bool) : P Unit := do
  let p ← get
  if isStartOfValue p.currentChar ∧ p.endsWithCommaOrNewline then do
    set (if processedComma then p else p.insertBeforeLastWhitespace [','])
    parseNewlineDelimitedJson call
  else if processedComma then set (p.stripLastOccurrence ',')
  else pure ()

/-- Redundant closing brackets; each takes a character of the text. -/
def skipRedundantEnds : ℕ → JsonRepairParser → JsonRepairParser
  | 0, p => p
  | steps + 1, p =>
    if p.currentChar = some '}' ∨ p.currentChar = some ']' then
      skipRedundantEnds steps ({ p with i := p.i + 1 }.parseWhitespaceAndSkipComments true)
    else p

/-- What follows the first value up to the end of the text. -/
def parseRest : P Unit := do
  modify (parseMarkdownCodeBlock · ["```", "```]", "```\x7d"])
  let processedComma ← modifyGet (parseCharacter · ',')
  modify fun p => if processedComma then p.parseWhitespaceAndSkipComments true else p
  parseFollowing call processedComma
  modify fun p => skipRedundantEnds p.chars.length p

def parseDocument : P Unit := do
  modify (parseMarkdownCodeBlock · ["```", "[```", "\x7b```"])
  let processed ← call.parseValue
  if processed then parseRest call
  else do
    let p ← get
    fail (.unexpectedEnd p.chars.length)

/-! ## The knot -/

/-- No call is left. -/
def noCalls : Calls where
  parseValue _ := none
  parseString _ _ _ := none
  objectLoop _ _ := none
  arrayLoop _ _ := none
  concatenationLoop _ := none
  newlineLoop _ _ := none

/-- The functions of the parser with calls nested at most `fuel` deep. -/
def calls (guarded : Bool) : ℕ → Calls
  | 0 => noCalls
  | fuel + 1 =>
    { parseValue := parseValue (calls guarded fuel)
      parseString := parseString (calls guarded fuel) guarded
      objectLoop := objectLoop (calls guarded fuel)
      arrayLoop := arrayLoop (calls guarded fuel)
      concatenationLoop := concatenationLoop (calls guarded fuel)
      newlineLoop := newlineLoop (calls guarded fuel) }

/-- The value of the output, once the whole text is read. -/
def outcome {α : Type} (fromStr : String → Except String α) (p : JsonRepairParser) :
    Except JsonRepairError α :=
  if p.chars.length ≤ p.i then (fromStr (String.ofList p.output)).mapError .jsonError
  else .error (.unexpectedCharacter (p.currentChar.getD '\x00') p.i)

/-! ## Strings at a quote -/

variable {p q : JsonRepairParser}

/-- No escape character is before a quote. -/
theorem currentChar_ne_escape (h : isQuote p.currentChar) : p.currentChar ≠ some '\\' := by
  intro heq
  rw [heq] at h
  revert h
  decide

theorem dropEscape_of_isQuote (h : isQuote p.currentChar) : p.dropEscape = p :=
  if_neg (currentChar_ne_escape h)

/-- A string that begins at the current quote is read in one pass, with what its end asks
for. -/
theorem parseString_of_isQuote {guarded stopAtDelimiter : Bool}
    {stopAtIndex : Option ℕ} (hquote : isQuote q.currentChar) :
    parseString call guarded stopAtDelimiter stopAtIndex q =
      endString call guarded stopAtIndex q (q.scan false stopAtDelimiter stopAtIndex) q := by
  have hescape : (q.currentChar == some '\\') = false :=
    beq_eq_false_iff_ne.mpr (currentChar_ne_escape hquote)
  change (if isQuote q.dropEscape.currentChar then
    endString call guarded stopAtIndex q.dropEscape
      (q.dropEscape.scan (q.currentChar == some '\\') stopAtDelimiter stopAtIndex)
    else _ : P Bool) q = _
  rw [dropEscape_of_isQuote hquote, if_pos hquote, hescape]

end JsonRepairParser

open JsonRepairParser

/-- What `json_repair` answers; the program never reports `repeated`. -/
def answer {α : Type} (fromStr : String → Except String α) :
    Option (Except Stop (Unit × JsonRepairParser)) → Option (Except JsonRepairError α)
  | some (.ok (_, p)) => some (p.outcome fromStr)
  | some (.error (.error e)) => some (.error e)
  | some (.error .repeated) | none => none

/-- `json_repair` with calls nested at most `fuel` deep; `fromStr` is `serde_json::from_str`
at the type of the value. -/
def jsonRepair {α : Type} (fromStr : String → Except String α) (fuel : ℕ) (text : String) :
    Option (Except JsonRepairError α) :=
  answer fromStr (parseDocument (calls false fuel) (new text))

/-- The guarded parser comes to a call of `parse_string` that is the one it is in. -/
def repeatsCall (fuel : ℕ) (text : String) : Bool :=
  match (parseDocument (calls true fuel) (new text) : Option _) with
  | some (.error .repeated) => true
  | _ => false

end HeliosLite
