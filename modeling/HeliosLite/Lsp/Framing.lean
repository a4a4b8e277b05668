import Mathlib.Data.List.Infix
import HeliosLite.Orchestration.ToolCalls
import HeliosLite.Theory.Bytes
import HeliosLite.Theory.Lines
import HeliosLite.Theory.Occurrence

/-!
# Messages on the pipe of a language server

`crates/forge_lsp/src/lsp_client.rs` reads a message from the pipe: header lines up to an empty one,
and then as many bytes as the header says. What is read byte by byte is never more than the message,
so that the next one can be read from what remains.

## Main definitions

* `readFramed`, `writeFramed` — one message read and written
* `FramedMessage` — a message with any header lines that say its length

## Main results

* `readFramed_bytes` — such a message is read, whatever follows it
* `framing_right` — messages on the pipe are read one after the other, those of the client among
  them
-/

namespace HeliosLite.Lsp

open Theory

/-! ### Reading and writing -/

inductive FramingError where
  /-- header too large -/
  | headerTooLarge
  /-- header read failed -/
  | headerRead
  /-- header not utf-8 -/
  | headerUtf8
  /-- missing Content-Length header -/
  | missingContentLength
  /-- body read failed -/
  | bodyRead
  /-- body not utf-8 -/
  | bodyUtf8
  deriving DecidableEq, Repr

/-- The end of a header. -/
def blankLine : List UInt8 := [13, 10, 13, 10]

/-- The header is read byte by byte; the input is what comes before the pipe is closed. -/
def readHeader (header : List UInt8) :
    List UInt8 → Except FramingError (List UInt8 × List UInt8)
  | [] => .error .headerRead
  | byte :: input =>
    if blankLine <:+ header ++ [byte] then .ok (header ++ [byte], input)
    else if 8 * 1024 < (header ++ [byte]).length then .error .headerTooLarge
    else readHeader (header ++ [byte]) input

/-- `str::parse::<usize>`. -/
def parseUsize (text : List Char) : Option ℕ :=
  let digits := match text with
    | '+' :: digits => digits
    | digits => digits
  if digits ≠ [] ∧ digits.all Char.isDigit ∧ Nat.ofDigitChars 10 digits 0 < 2 ^ 64 then
    some (Nat.ofDigitChars 10 digits 0)
  else none

/-- The length that a header field gives, if it is the one for it. -/
def fieldLength (field : List Char × List Char) : Option ℕ :=
  if eqIgnoreAsciiCase "content-length" (String.ofList field.1) then
    parseUsize (trim (String.ofList field.2)).toList
  else none

/-- The first line that gives a length. -/
def contentLength (header : List Char) : Option ℕ :=
  ((lines '\n' header).map stripReturn).findSome? fun line =>
    (splitFirst [':'] line).bind fieldLength

def readFramed (input : List UInt8) : Except FramingError (String × List UInt8) :=
  match readHeader [] input with
  | .error e => .error e
  | .ok (header, input) =>
    match decodeUtf8 header with
    | none => .error .headerUtf8
    | some headerStr =>
      match contentLength headerStr.toList with
      | none => .error .missingContentLength
      | some length =>
        if input.length < length then .error .bodyRead
        else
          match decodeUtf8 (input.take length) with
          | none => .error .bodyUtf8
          | some body => .ok (body, input.drop length)

def writeFramed (body : String) : List UInt8 :=
  utf8Bytes ("Content-Length: " ++ toString body.utf8ByteSize ++ "\r\n\r\n") ++ utf8Bytes body

/-- So many messages, one after the other. -/
def readMany : ℕ → List UInt8 → Except FramingError (List String × List UInt8)
  | 0, input => .ok ([], input)
  | n + 1, input =>
    match readFramed input with
    | .error e => .error e
    | .ok (body, input) =>
      match readMany n input with
      | .error e => .error e
      | .ok (bodies, input) => .ok (body :: bodies, input)

/-! ### Reading a header -/

section Header

variable {header part input : List UInt8} {byte : UInt8}

theorem not_blank_of_last (h : byte ≠ 10) : ¬ blankLine <:+ header ++ [byte] := by
  rintro ⟨front, hfront⟩
  have happend : front ++ [13, 10, 13] ++ [10] = header ++ [byte] := by
    simpa [blankLine] using hfront
  exact h (List.singleton_inj.mp (List.append_inj' happend rfl).2).symm

/-- A line end after a line that is not empty. -/
theorem not_blank_of_line (h : byte ≠ 10) : ¬ blankLine <:+ header ++ [byte, 13, 10] := by
  rintro ⟨front, hfront⟩
  have happend : front ++ [13] ++ [10, 13, 10] = header ++ [byte, 13, 10] := by
    simpa [blankLine] using hfront
  exact h (List.cons_eq_cons.mp (List.append_inj' happend rfl).2).1.symm

theorem readHeader_cons (hblank : ¬ blankLine <:+ header ++ [byte])
    (hlength : header.length + 1 ≤ 8 * 1024) :
    readHeader header (byte :: input) = readHeader (header ++ [byte]) input := by
  rw [readHeader, if_neg hblank, if_neg]
  rw [List.length_append, List.length_singleton]
  omega

/-- Bytes without a line feed are read over. -/
theorem readHeader_append (hpart : ∀ b ∈ part, b ≠ 10)
    (hlength : header.length + part.length ≤ 8 * 1024) :
    readHeader header (part ++ input) = readHeader (header ++ part) input := by
  induction part generalizing header with
  | nil => rw [List.nil_append, List.append_nil]
  | cons b part ih =>
    rw [List.forall_mem_cons] at hpart
    rw [List.length_cons] at hlength
    rw [List.cons_append, readHeader_cons (not_blank_of_last hpart.1) (by omega), ih hpart.2,
      List.append_assoc, List.singleton_append]
    rw [List.length_append, List.length_singleton]
    omega

theorem readHeader_line (hpart : ∀ b ∈ part, b ≠ 10) (hne : part ≠ [])
    (hlength : header.length + part.length + 2 ≤ 8 * 1024) :
    readHeader header (part ++ 13 :: 10 :: input) =
      readHeader (header ++ (part ++ [13, 10])) input := by
  -- the blank line could only end here if the last byte of the line were a line feed
  obtain ⟨front, last, rfl⟩ := (List.eq_nil_or_concat' part).resolve_left hne
  have hlast : last ≠ 10 := hpart last (List.mem_append_right _ (List.mem_singleton.mpr rfl))
  have hblank : ¬ blankLine <:+ header ++ (front ++ [last]) ++ [13] ++ [10] := by
    have h : ¬ blankLine <:+ header ++ front ++ [last, 13, 10] := not_blank_of_line hlast
    simpa [List.append_assoc] using h
  rw [readHeader_append hpart (by omega), readHeader_cons (not_blank_of_last (by decide)) ?_,
    readHeader_cons hblank ?_]
  · simp [List.append_assoc]
  · simp only [List.length_append, List.length_singleton] at hlength ⊢
    omega
  · simp only [List.length_append, List.length_singleton] at hlength ⊢
    omega

/-- An empty line ends the header. -/
theorem readHeader_blank (h : [13, 10] <:+ header) (hlength : header.length + 1 ≤ 8 * 1024) :
    readHeader header (13 :: 10 :: input) = .ok (header ++ [13, 10], input) := by
  obtain ⟨front, rfl⟩ := h
  have hblank : blankLine <:+ front ++ [13, 10] ++ [13] ++ [10] :=
    ⟨front, by simp [blankLine]⟩
  rw [readHeader_cons (not_blank_of_last (by decide)) hlength, readHeader, if_pos hblank]
  simp [List.append_assoc]

end Header

/-! ### Messages -/

/-- The characters of a header line. -/
def IsHeaderChar (c : Char) : Prop := c.toNat < 128 ∧ c ≠ '\r' ∧ c ≠ '\n'

def fieldLine (field : List Char × List Char) : List Char := field.1 ++ ':' :: field.2

/-- The header with some fields. -/
def headerText (fields : List (List Char × List Char)) : List Char :=
  fields.flatMap (fun field => fieldLine field ++ ['\r', '\n']) ++ ['\r', '\n']

/-- A message with header fields of which the first for the length gives it. -/
structure FramedMessage where
  fields : List (List Char × List Char)
  body : String
  chars : ∀ field ∈ fields, ∀ c ∈ fieldLine field, IsHeaderChar c
  names : ∀ field ∈ fields, ':' ∉ field.1
  length : fields.findSome? fieldLength = some body.utf8ByteSize
  short : (headerText fields).length ≤ 8 * 1024 + 1

/-- The message on the pipe. -/
def FramedMessage.bytes (m : FramedMessage) : List UInt8 :=
  (headerText m.fields).map byteOf ++ utf8Bytes m.body

section Fields

variable {fields : List (List Char × List Char)} {header input : List UInt8}

theorem headerText_cons (field : List Char × List Char) (fields : List (List Char × List Char)) :
    headerText (field :: fields) = fieldLine field ++ '\r' :: '\n' :: headerText fields := by
  simp [headerText]

theorem two_le_length_headerText (fields : List (List Char × List Char)) :
    2 ≤ (headerText fields).length := by
  rw [headerText, List.length_append]
  exact Nat.le_add_left 2 _

/-- The header is read up to its end. -/
theorem readHeader_fields (hchars : ∀ field ∈ fields, ∀ c ∈ fieldLine field, IsHeaderChar c)
    (hlength : header.length + (headerText fields).length ≤ 8 * 1024 + 1)
    (hheader : fields = [] → [13, 10] <:+ header) :
    readHeader header ((headerText fields).map byteOf ++ input) =
      .ok (header ++ (headerText fields).map byteOf, input) := by
  -- a line end has been read before the last line, if only the one of the last field
  induction fields generalizing header with
  | nil => exact readHeader_blank (hheader rfl) (by simp [headerText] at hlength; omega)
  | cons field fields ih =>
    rw [List.forall_mem_cons] at hchars
    have htwo := two_le_length_headerText fields
    have hline : ∀ b ∈ (fieldLine field).map byteOf, b ≠ 10 := by
      intro b hb
      obtain ⟨c, hc, rfl⟩ := List.mem_map.mp hb
      obtain ⟨hascii, -, hfeed⟩ := hchars.1 c hc
      exact byteOf_ne hascii (by decide) hfeed
    have hne : (fieldLine field).map byteOf ≠ [] := by simp [fieldLine]
    have hbytes : (headerText (field :: fields)).map byteOf =
        (fieldLine field).map byteOf ++ 13 :: 10 :: (headerText fields).map byteOf := by
      rw [headerText_cons, List.map_append]
      rfl
    rw [headerText_cons, List.length_append, List.length_cons, List.length_cons] at hlength
    rw [hbytes, List.append_assoc, List.cons_append, List.cons_append,
      readHeader_line hline hne (by rw [List.length_map]; omega), ih hchars.2 ?_ ?_]
    · simp [List.append_assoc]
    · simp only [List.length_append, List.length_map, List.length_cons, List.length_nil]
      omega
    · intro _
      rw [← List.append_assoc]
      exact List.suffix_append _ _

theorem lines_headerText (hchars : ∀ field ∈ fields, ∀ c ∈ fieldLine field, IsHeaderChar c) :
    (lines '\n' (headerText fields)).map stripReturn = fields.map fieldLine ++ [[]] := by
  -- the header splits at its line feeds, and each line keeps its carriage return
  have hunlines : headerText fields =
      unlines '\n' (fields.map (fun field => fieldLine field ++ ['\r']) ++ [['\r']]) := by
    rw [headerText, unlines_append, unlines, List.flatMap_map]
    simp [unlines]
  have hfeed : ∀ l ∈ fields.map (fun field => fieldLine field ++ ['\r']) ++ [['\r']],
      '\n' ∉ l := by
    intro l hl hmem
    rcases List.mem_append.mp hl with hl | hl
    · obtain ⟨field, hfield, rfl⟩ := List.mem_map.mp hl
      rcases List.mem_append.mp hmem with hmem | hmem
      · exact (hchars field hfield _ hmem).2.2 rfl
      · exact absurd (List.mem_singleton.mp hmem) (by decide)
    · rw [List.mem_singleton.mp hl] at hmem
      exact absurd (List.mem_singleton.mp hmem) (by decide)
  -- which is then taken off
  rw [hunlines, lines_unlines hfeed, List.map_append, List.map_map]
  refine congrArg (· ++ [[]]) (List.map_congr_left fun field _ => ?_)
  rw [Function.comp_apply, stripReturn, List.getLast?_concat, if_pos rfl, List.dropLast_concat]

/-- The length is found in the fields. -/
theorem contentLength_headerText
    (hchars : ∀ field ∈ fields, ∀ c ∈ fieldLine field, IsHeaderChar c)
    (hnames : ∀ field ∈ fields, ':' ∉ field.1) :
    contentLength (headerText fields) = fields.findSome? fieldLength := by
  have hsplit : ∀ field ∈ fields,
      (splitFirst [':'] (fieldLine field)).bind fieldLength = fieldLength field := by
    -- a name has no colon, so that the line is cut where the field is
    intro field hfield
    have h : splitFirst [':'] (field.1 ++ [':'] ++ field.2) = some field :=
      splitFirst_append (hnames field hfield)
    rw [List.append_assoc, List.singleton_append] at h
    rw [fieldLine, h, Option.bind_some]
  rw [contentLength, lines_headerText hchars, List.findSome?_append, List.findSome?_map]
  -- the line that ends the header is no field
  have hlast : List.findSome? (fun line => (splitFirst [':'] line).bind fieldLength) [[]] = none :=
    rfl
  rw [hlast, Option.or_none]
  clear hchars hnames
  induction fields with
  | nil => rfl
  | cons field fields ih =>
    rw [List.forall_mem_cons] at hsplit
    rw [List.findSome?_cons, List.findSome?_cons, Function.comp_apply, hsplit.1, ih hsplit.2]

end Fields

theorem FramedMessage.isAscii (m : FramedMessage) : ∀ c ∈ headerText m.fields, c.toNat < 128 := by
  have hends : ∀ c ∈ ['\r', '\n'], c.toNat < 128 :=
    List.forall_mem_cons.mpr ⟨by decide, List.forall_mem_singleton.mpr (by decide)⟩
  intro c hc
  rcases List.mem_append.mp hc with hc | hc
  · obtain ⟨field, hfield, hc⟩ := List.mem_flatMap.mp hc
    rcases List.mem_append.mp hc with hc | hc
    · exact (m.chars field hfield c hc).1
    · exact hends c hc
  · exact hends c hc

/-- A message is read from the pipe, whatever follows it. -/
theorem readFramed_bytes (m : FramedMessage) (input : List UInt8) :
    readFramed (m.bytes ++ input) = .ok (m.body, input) := by
  -- a message without fields would not give its length
  have hne : m.fields = [] → [13, 10] <:+ ([] : List UInt8) := by
    intro hnil
    have h := m.length
    rw [hnil] at h
    cases h
  have hheader : decodeUtf8 ((headerText m.fields).map byteOf) =
      some (String.ofList (headerText m.fields)) := by
    rw [← utf8Bytes_ofList m.isAscii, decodeUtf8_utf8Bytes]
  have hlength : (utf8Bytes m.body).length = m.body.utf8ByteSize := length_utf8Bytes m.body
  rw [readFramed, FramedMessage.bytes, List.append_assoc,
    readHeader_fields m.chars (by simpa using m.short) hne]
  simp only [List.nil_append, hheader, String.toList_ofList,
    contentLength_headerText m.chars m.names, m.length]
  rw [if_neg (by rw [List.length_append, hlength]; omega), ← hlength, List.take_left,
    List.drop_left, decodeUtf8_utf8Bytes]

/-! ### The messages of the client -/

section Written

variable {c : Char} {n : ℕ}

theorem isHeaderChar_of_isDigit (h : c.isDigit) : IsHeaderChar c := by
  have hrange : 48 ≤ c.toNat ∧ c.toNat ≤ 57 := by
    simpa [Char.isDigit, UInt32.le_iff_toNat_le] using h
  refine ⟨by omega, ?_, ?_⟩
  · rintro rfl
    exact absurd hrange (by decide)
  · rintro rfl
    exact absurd hrange (by decide)

theorem isWhitespace_of_isDigit (h : c.isDigit) : isWhitespace c = false := by
  have hrange : 48 ≤ c.toNat ∧ c.toNat ≤ 57 := by
    simpa [Char.isDigit, UInt32.le_iff_toNat_le] using h
  simp only [isWhitespace, Bool.or_eq_false_iff, Bool.and_eq_false_iff, decide_eq_false_iff_not]
  omega

theorem isDigit_of_mem (h : c ∈ Nat.toDigits 10 n) : c.isDigit :=
  Nat.isDigit_of_mem_toDigits (by decide) (by decide) h

theorem parseUsize_toDigits (h : n < 2 ^ 64) : parseUsize (Nat.toDigits 10 n) = some n := by
  rw [parseUsize, Nat.ofDigitChars_toDigits (by decide) (by decide)]
  · refine if_pos ⟨Nat.toDigits_ne_nil, ?_, h⟩
    exact List.all_eq_true.mpr fun c hc => isDigit_of_mem hc
  · -- the first digit is no sign
    intro digits hplus
    exact absurd (isDigit_of_mem (hplus ▸ List.mem_cons_self)) (by decide)

theorem trim_toDigits (n : ℕ) :
    trim (String.ofList (' ' :: Nat.toDigits 10 n)) = String.ofList (Nat.toDigits 10 n) := by
  have hdigit : ∀ c ∈ Nat.toDigits 10 n, isWhitespace c = false := fun c hc =>
    isWhitespace_of_isDigit (isDigit_of_mem hc)
  have hfirst : (' ' :: Nat.toDigits 10 n).dropWhile isWhitespace = Nat.toDigits 10 n := by
    rw [List.dropWhile_cons_of_pos (by decide), List.dropWhile_eq_self_iff]
    intro hpos
    rw [hdigit _ (List.getElem_mem _)]
    exact Bool.false_ne_true
  rw [trim, String.toList_ofList, hfirst, List.rdropWhile_eq_self_iff.mpr]
  intro hne
  rw [hdigit _ (List.getLast_mem _)]
  exact Bool.false_ne_true

/-- The only field that the client writes. -/
def writtenField (n : ℕ) : List Char × List Char :=
  ("Content-Length".toList, ' ' :: Nat.toDigits 10 n)

theorem fieldLine_writtenField (n : ℕ) :
    fieldLine (writtenField n) = "Content-Length: ".toList ++ Nat.toDigits 10 n := rfl

theorem fieldLength_writtenField (h : n < 2 ^ 64) : fieldLength (writtenField n) = some n := by
  have hname : eqIgnoreAsciiCase "content-length" (String.ofList "Content-Length".toList) := by
    decide
  have hvalue : parseUsize (trim (String.ofList (' ' :: Nat.toDigits 10 n))).toList = some n := by
    rw [trim_toDigits, String.toList_ofList, parseUsize_toDigits h]
  unfold fieldLength writtenField
  exact (if_pos hname).trans hvalue

theorem isHeaderChar_writtenField (hc : c ∈ fieldLine (writtenField n)) : IsHeaderChar c := by
  -- as one Boolean, since a quantifier over that many characters is too deep to decide
  have hname : ("Content-Length: ".toList.all fun c => c.toNat < 128 ∧ c ≠ '\r' ∧ c ≠ '\n') := by
    decide
  rw [fieldLine_writtenField] at hc
  rcases List.mem_append.mp hc with hc | hc
  · unfold IsHeaderChar
    exact of_decide_eq_true (List.all_eq_true.mp hname c hc)
  · exact isHeaderChar_of_isDigit (isDigit_of_mem hc)

theorem headerText_writtenField (n : ℕ) :
    headerText [writtenField n] =
      "Content-Length: ".toList ++ Nat.toDigits 10 n ++ "\r\n\r\n".toList := by
  rw [headerText, List.flatMap_singleton, fieldLine_writtenField, List.append_assoc,
    List.append_assoc, List.append_assoc]
  rfl

/-- A message that the client writes. -/
def FramedMessage.written (body : String) (h : body.utf8ByteSize < 2 ^ 64) : FramedMessage where
  fields := [writtenField body.utf8ByteSize]
  body := body
  chars field hfield c hc := by
    obtain rfl := List.mem_singleton.mp hfield
    exact isHeaderChar_writtenField hc
  names field hfield := by
    rw [List.mem_singleton.mp hfield]
    change ':' ∉ "Content-Length".toList
    decide
  length := by
    rw [List.findSome?_cons, fieldLength_writtenField h]
  short := by
    have hdigits : (Nat.toDigits 10 body.utf8ByteSize).length ≤ 20 :=
      (Nat.length_toDigits_le_iff (by decide) (by decide)).mpr (by omega)
    rw [headerText_writtenField]
    simp only [List.length_append, String.length_toList]
    have hname : "Content-Length: ".length + "\r\n\r\n".length = 20 := by decide
    omega

theorem bytes_written (body : String) (h : body.utf8ByteSize < 2 ^ 64) :
    (FramedMessage.written body h).bytes = writeFramed body := by
  have hascii : ∀ c ∈ headerText [writtenField body.utf8ByteSize], c.toNat < 128 :=
    (FramedMessage.written body h).isAscii
  have htext : "Content-Length: " ++ toString body.utf8ByteSize ++ "\r\n\r\n" =
      String.ofList (headerText [writtenField body.utf8ByteSize]) := by
    rw [headerText_writtenField, String.ofList_append, String.ofList_append, String.ofList_toList,
      String.ofList_toList, Nat.toString_eq_ofList_toDigits]
  rw [writeFramed, htext, utf8Bytes_ofList hascii]
  rfl

end Written

/-- Messages are read one after the other. -/
theorem readMany_bytes (messages : List FramedMessage) (input : List UInt8) :
    readMany messages.length (messages.flatMap FramedMessage.bytes ++ input) =
      .ok (messages.map (·.body), input) := by
  induction messages with
  | nil => rfl
  | cons m messages ih =>
    rw [List.flatMap_cons, List.append_assoc, List.length_cons, readMany, readFramed_bytes]
    simp only [ih, List.map_cons]

/-- Messages with any header fields that give their length are read from the pipe one after the
other, whatever follows them, and what the client writes is such a message. -/
theorem framing_right :
    (∀ (messages : List FramedMessage) (input : List UInt8),
      readMany messages.length (messages.flatMap FramedMessage.bytes ++ input) =
        .ok (messages.map (·.body), input)) ∧
    ∀ body : String, body.utf8ByteSize < 2 ^ 64 →
      ∃ m : FramedMessage, m.body = body ∧ m.bytes = writeFramed body :=
  ⟨readMany_bytes, fun body h => ⟨.written body h, rfl, bytes_written body h⟩⟩

theorem framing_right_empty : ∃ m : FramedMessage, m.body = "{}" ∧ m.bytes = writeFramed "{}" :=
  framing_right.2 "{}" (by decide)

end HeliosLite.Lsp
