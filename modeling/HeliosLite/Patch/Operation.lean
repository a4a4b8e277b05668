import HeliosLite.Patch.Text

/-!
# Patching a file

A patch looks for a text in a file and puts another text in its place. If the text does not
occur, the replacing operations ask a service for a similar place, or for a whole patch.

## Main definitions

* `Range` — a stretch of a file, by its position and length in bytes
* `Range.normalizeSearchLineEndings` — a text with the line ending of a file
* `Range.fromSearchMatch` — the stretch of some lines
* `computeRange`, `applyReplacement` — the search and the edit
* `applyReplaceOperation` — both, with the fallback
-/

namespace HeliosLite.Patch

open Theory

inductive PatchOperation where
  | prepend
  | append
  | replace
  | replaceAll
  | swap
  deriving DecidableEq, Repr

/-- Lines of a file that were found, counted from 0; the last one belongs to the match. -/
structure SearchMatch where
  startLine : UInt32
  endLine : UInt32
  deriving DecidableEq, Repr

structure TextPatchBlock where
  patch : Text
  patchedText : Text
  deriving DecidableEq, Repr

inductive PatchError where
  | noMatch (search : Text)
  | noSwapTarget (target : Text)
  | multipleMatches (needle : Text)
  | rangeOutOfBounds (start stop length : ℕ)
  | patchBuild (message : String)
  deriving DecidableEq, Repr

inductive LineEnding where
  | lf
  | crlf
  deriving DecidableEq, Repr

def LineEnding.text : LineEnding → Text
  | lf => ['\n']
  | crlf => ['\r', '\n']

/-- A stretch of a text, in bytes. -/
structure Range where
  start : ℕ
  length : ℕ
  deriving DecidableEq, Repr

namespace Range

def stop (range : Range) : ℕ := range.start + range.length

def findExact (source search : Text) : Option Range :=
  (find source search).map fun start => ⟨start, byteLen search⟩

def detectLineEnding (source : Text) : LineEnding :=
  if LineEnding.crlf.text <:+: source then .crlf else .lf

/-- The text with the line ending of the source. -/
def normalizeSearchLineEndings (source search : Text) : Text :=
  let unix := Theory.replace LineEnding.crlf.text LineEnding.lf.text search
  match detectLineEnding source with
  | .crlf => Theory.replace LineEnding.lf.text LineEnding.crlf.text unix
  | .lf => unix

/-- The lines of a match, without the line ending of the last one. -/
def fromSearchMatch (source : Text) (searchMatch : SearchMatch) : Range :=
  let lines := sourceLines source
  if lines.isEmpty then ⟨0, 0⟩
  else
    let startIdx := min searchMatch.startLine.toNat lines.length
    let endIdx := min (searchMatch.endLine.toNat + 1) lines.length
    let startPos :=
      min (((segments source).take startIdx).map fun l => byteLen l + 1).sum (byteLen source)
    let length :=
      if startIdx = endIdx then
        (lines[startIdx]?.map byteLen).getD 0
      else
        let contentLen :=
          if lines.length ≤ startIdx || lines.length < endIdx || endIdx < startIdx then 0
          else (((lines.drop startIdx).take (endIdx - startIdx)).map byteLen).sum
        -- Lines that end before they start are subtracted with the wraparound of the machine.
        let newlinesBetween := (endIdx + 2 ^ 64 - startIdx - 1) % 2 ^ 64
        let newlineBytes := (((segments source).drop startIdx).take newlinesBetween).map
          fun l => if l.getLast? = some '\r' then 2 else 1
        contentLen + newlineBytes.sum
    ⟨startPos, length⟩

end Range

open Range

/-- The range of a text that is searched for. Operations that replace something fail without
a match. -/
def computeRange (source : Text) (search : Option Text) (operation : PatchOperation) :
    Except PatchError (Option Range) :=
  match search with
  | some search =>
    if search.isEmpty then .ok none
    else
      match findExact source (normalizeSearchLineEndings source search) with
      | some range => .ok (some range)
      | none =>
        match operation with
        | .replace | .replaceAll | .swap => .error (.noMatch search)
        | .prepend | .append => .ok none
  | none => .ok none

/-- A slice, or the error that the range is out of bounds. -/
def slice (found : Option Text) (start stop length : ℕ) : Except PatchError Text :=
  match found with
  | some text => .ok text
  | none => .error (.rangeOutOfBounds start stop length)

/-- The loop that counts matches, each behind the one before it, and stops at the second. -/
def hasMultipleMatches (haystack needle : Text) : Bool :=
  match (getFrom haystack 0).bind fun s => find s needle with
  | none => false
  | some pos => ((getFrom haystack (pos + byteLen needle)).bind fun s => find s needle).isSome

/-- The text before a range, the new text, and the text behind the range. -/
def replaceRange (haystack : Text) (patch : Range) (content : Text) : Except PatchError Text := do
  let before ← slice (getTo haystack patch.start) 0 patch.start (byteLen haystack)
  let after ← slice (getFrom haystack patch.stop) patch.stop (byteLen haystack) (byteLen haystack)
  .ok (before ++ content ++ after)

/-- The text of the range exchanged with another one; ranges that overlap are replaced. -/
def swapRange (haystack : Text) (patch : Range) (content normalizedContent : Text) :
    Except PatchError Text :=
  match findExact haystack content with
  | none => .error (.noSwapTarget content)
  | some target =>
    let len := byteLen haystack
    if (patch.start ≤ target.start ∧ target.start < patch.stop) ∨
        (target.start ≤ patch.start ∧ patch.start < target.stop) then
      replaceRange haystack patch normalizedContent
    else if patch.start < target.start then do
      let part₁ ← slice (getTo haystack patch.start) 0 patch.start len
      let part₂ ← slice (getRange haystack patch.stop target.start) patch.stop target.start len
      let part₃ ← slice (getRange haystack patch.start patch.stop) patch.start patch.stop len
      let part₄ ← slice (getFrom haystack target.stop) target.stop len len
      .ok (part₁ ++ normalizedContent ++ part₂ ++ part₃ ++ part₄)
    else do
      let part₁ ← slice (getTo haystack target.start) 0 target.start len
      let part₂ ← slice (getRange haystack patch.start patch.stop) patch.start patch.stop len
      let part₃ ← slice (getRange haystack target.stop patch.start) target.stop patch.start len
      let part₄ ← slice (getFrom haystack patch.stop) patch.stop len len
      .ok (part₁ ++ part₂ ++ part₃ ++ normalizedContent ++ part₄)

/-- The file after the operation at a range, or on the whole file without one. -/
def applyReplacement (haystack : Text) (range : Option Range) (operation : PatchOperation)
    (content : Text) : Except PatchError Text :=
  let lineEnding := (detectLineEnding haystack).text
  let normalizedContent := normalizeSearchLineEndings haystack content
  let len := byteLen haystack
  match range with
  | some patch =>
    if len < patch.stop then .error (.rangeOutOfBounds patch.start patch.stop len)
    else do
      let needle ← slice (getRange haystack patch.start patch.stop) patch.start patch.stop len
      match operation with
      | .prepend =>
        let before ← slice (getTo haystack patch.start) 0 patch.start len
        let after ← slice (getFrom haystack patch.start) patch.start len len
        .ok (before ++ normalizedContent ++ after)
      | .replaceAll => .ok (Theory.replace needle normalizedContent haystack)
      | .append =>
        let before ← slice (getTo haystack patch.stop) 0 patch.stop len
        let after ← slice (getFrom haystack patch.stop) patch.stop len len
        .ok (before ++ lineEnding ++ normalizedContent ++ after)
      | .replace =>
        if hasMultipleMatches haystack needle then .error (.multipleMatches needle)
        else replaceRange haystack patch normalizedContent
      | .swap => swapRange haystack patch content normalizedContent
  | none =>
    match operation with
    | .append => .ok (haystack ++ lineEnding ++ normalizedContent)
    | .prepend => .ok (normalizedContent ++ haystack)
    | .replace | .replaceAll => .ok normalizedContent
    | .swap => .ok haystack

/-! ### The fallback -/

/-- The services that are asked where a text does not occur. -/
structure PatchInfra where
  /-- The matches, unless the service cannot be reached. -/
  fuzzySearch : Text → Text → Bool → Option (List SearchMatch)
  buildTextPatch : Text → Text → Text → Except String TextPatchBlock

/-- The first match of the search service is taken for the range. -/
def applyFuzzySearchFallback (infra : PatchInfra) (currentContent searchText content : Text)
    (operation : PatchOperation) : Except PatchError Text :=
  match infra.fuzzySearch searchText currentContent false with
  | some (searchMatch :: _) =>
    applyReplacement currentContent (some (fromSearchMatch currentContent searchMatch)) operation
      content
  | _ => .error (.noMatch searchText)

/-- The text of the patch that the service builds. -/
def applyTextPatchFallback (infra : PatchInfra) (currentContent searchText content : Text) :
    Except PatchError Text :=
  let normalizedSearch := normalizeSearchLineEndings currentContent searchText
  let normalizedContent := normalizeSearchLineEndings currentContent content
  match infra.buildTextPatch currentContent normalizedSearch normalizedContent with
  | .ok patch => .ok patch.patchedText
  | .error message => .error (.patchBuild message)

/-- The operation at the place of the search text, or the fallback if there is none. -/
def applyReplaceOperation (infra : PatchInfra) (currentContent search content : Text)
    (operation : PatchOperation) (useTextPatchFallback : Bool) : Except PatchError Text :=
  match computeRange currentContent (some search) operation with
  | .ok range => applyReplacement currentContent range operation content
  | .error (.noMatch searchText) =>
    if operation = .replace ∨ operation = .replaceAll ∨ operation = .swap then
      if useTextPatchFallback then
        applyTextPatchFallback infra currentContent searchText content
      else
        applyFuzzySearchFallback infra currentContent searchText content operation
    else
      .error (.noMatch searchText)
  | .error e => .error e

end HeliosLite.Patch
