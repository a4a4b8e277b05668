import HeliosLite.Orchestration.ToolCalls
import HeliosLite.Theory.ByteIndex
import HeliosLite.Theory.Lines
import Mathlib.Order.Interval.Finset.Nat

/-!
# Long pastes

A paste is classified, and a long one is replaced by a placeholder that quotes the beginning of its
first and its last line. How many bytes are kept is counted as if the two windows did not overlap,
and the quoted lines are cut at a byte position.

## Main definitions

* `classify` — the kind of a paste
* `collapsePaste` — what becomes of a paste
* `Collapses` — the paste is replaced
* `CollapseOutcome.Right` — what the outcome is to report

## Main results

* `truncate_eq_some_iff` — where a line can be cut
* `kept_eq_card_iff` — when the kept bytes are counted once
* `collapse_right_iff` — which pastes are collapsed rightly
-/

namespace HeliosLite

open Theory

namespace Paste

/-! ### Classification -/

inductive PasteKind where
  | text
  | code
  | path
  | url
  | escapeSequence
  | image
  | largeBlob
  deriving DecidableEq, Repr

def PasteKind.asStr : PasteKind → String
  | text => "text"
  | code => "code"
  | path => "path"
  | url => "url"
  | escapeSequence => "escape"
  | image => "image"
  | largeBlob => "large_blob"

inductive ClassifierSignal where
  | urlScheme
  | posixPath
  | windowsPath
  | imageMagic
  | escapeMagic
  | codeShape
  | largeBlob
  deriving DecidableEq, Repr

structure ClassifierResult where
  kind : PasteKind
  signals : List ClassifierSignal
  confidence : ℕ
  deriving DecidableEq, Repr

/-- The bytes of an ASCII text. -/
def ascii (s : String) : List UInt8 := s.toList.map fun c => UInt8.ofNat c.toNat

/-- The first bytes of a PNG, JPEG, GIF or WEBP file. -/
def looksLikeImage (b : List UInt8) : Bool :=
  8 ≤ b.length &&
    ([0x89, 0x50, 0x4e, 0x47, 0x0d, 0x0a, 0x1a, 0x0a].isPrefixOf b ||
      [0xff, 0xd8, 0xff].isPrefixOf b ||
      (ascii "GIF87a").isPrefixOf b || (ascii "GIF89a").isPrefixOf b ||
      (12 ≤ b.length && b.take 4 = ascii "RIFF" && (b.drop 8).take 4 = ascii "WEBP"))

/-- The text without white space at both ends. -/
def trimmed (s : List Char) : List Char := (s.dropWhile isWhitespace).rdropWhile isWhitespace

def looksLikeUrl (s : List Char) : Bool :=
  ["http://", "https://", "file://", "git://", "ssh://", "ftp://"].any fun scheme =>
    scheme.toList.isPrefixOf ((trimmed s).map Char.toLower)

def looksLikeWindowsPath : List Char → Bool
  | drive :: ':' :: c :: _ => drive.isAlpha && (c = '\\' || c = '/')
  | _ => false

def looksLikePosixPath (s : List Char) : Bool := s.head? = some '/' && !s.any isWhitespace

/-- Several lines, with as many opening as closing brackets or a keyword. -/
def looksLikeCode (s : List Char) : Bool :=
  let opens := s.countP fun b => b = '{' || b = '(' || b = '['
  let closes := s.countP fun b => b = '}' || b = ')' || b = ']'
  2 ≤ s.count '\n' &&
    ((0 < opens && opens = closes) ||
      ["fn ", "def ", "function ", "class ", "import ", "use ", "struct ", "#include "].any
        fun keyword => keyword.toList <:+: s)

section Collapse

variable (lossy : List UInt8 → List Char)

def classify (bytes : List UInt8) (hugeThreshold : ℕ) : ClassifierResult :=
  let s := lossy bytes
  let signals := if hugeThreshold ≤ bytes.length then [ClassifierSignal.largeBlob] else []
  if looksLikeImage bytes then ⟨.image, signals ++ [.imageMagic], 95⟩
  else if bytes.contains 0x1b then ⟨.escapeSequence, signals ++ [.escapeMagic], 90⟩
  else if looksLikeUrl s then ⟨.url, signals ++ [.urlScheme], 90⟩
  else if looksLikeWindowsPath s then ⟨.path, signals ++ [.windowsPath], 85⟩
  else if looksLikePosixPath s then ⟨.path, signals ++ [.posixPath], 85⟩
  else if looksLikeCode s then ⟨.code, signals ++ [.codeShape], 70⟩
  else ⟨.text, signals, 30⟩

/-! ### The outcome -/

structure CollapseConfig where
  thresholdBytes : ℕ := 4 * 1024
  headKeepBytes : ℕ := 256
  tailKeepBytes : ℕ := 256
  keepKinds : List PasteKind := [.image, .escapeSequence]
  deriving DecidableEq, Repr

inductive CollapseOutcome where
  | passthrough (len : ℕ) (pasteKind : PasteKind)
  | collapsed (originalLen keptBytes : ℕ) (pasteKind : PasteKind) (placeholder : String)
  deriving DecidableEq, Repr

/-- A text of more bytes is cut and marked; nothing if the cut is inside a character. -/
def truncate (s : List Char) (max : ℕ) : Option (List Char) :=
  if byteLen s ≤ max then some s else (splitAtByte s max).map fun p => p.1 ++ ['…']

def firstLine (text : List Char) : List Char :=
  trimmed ((((lines '\n' text).map stripReturn).head?).getD [])

def lastLine (text : List Char) : List Char :=
  trimmed ((((lines '\n' text).map stripReturn).getLast?).getD [])

/-- The placeholder, with the texts that are quoted. -/
def placeholder (total : ℕ) (kind : PasteKind) (first last : List Char) : String :=
  "@[collapsed:" ++ toString total ++ " bytes kind=" ++ kind.asStr ++ " first=\"" ++
    String.ofList first ++ "\" last=\"" ++ String.ofList last ++ "\"]"

variable (cfg : CollapseConfig) (bytes : List UInt8)

/-- The bytes that are kept at the beginning of a paste, and at its end. -/
def headBytes : List UInt8 := bytes.take (min cfg.headKeepBytes bytes.length)

def tailBytes : List UInt8 := bytes.drop (bytes.length - cfg.tailKeepBytes)

/-- What becomes of the bytes of a paste; nothing if a slice panics. -/
def collapsePaste : Option CollapseOutcome :=
  let cr := classify lossy bytes cfg.thresholdBytes
  if cfg.keepKinds.contains cr.kind then some (.passthrough bytes.length cr.kind)
  else if bytes.length < cfg.thresholdBytes then some (.passthrough bytes.length cr.kind)
  else
    let total := bytes.length
    let headEnd := min cfg.headKeepBytes total
    let tailStart := total - cfg.tailKeepBytes
    let kept := headEnd + (total - tailStart)
    (truncate (firstLine (lossy (headBytes cfg bytes))) 60).bind fun first =>
      (truncate (lastLine (lossy (tailBytes cfg bytes))) 60).map fun last =>
        .collapsed total kept cr.kind (placeholder total cr.kind first last)

/-! ### What is to be reported -/

/-- The paste is replaced by a placeholder. -/
def Collapses : Prop :=
  ¬ cfg.keepKinds.contains (classify lossy bytes cfg.thresholdBytes).kind ∧
    cfg.thresholdBytes ≤ bytes.length

/-- The text quotes a prefix of the line, of at most so many bytes, which is marked if it is cut. -/
def Quotes (max : ℕ) (line quoted : List Char) : Prop :=
  ∃ front, front <+: line ∧ byteLen front ≤ max ∧ (quoted = front ∨ quoted = front ++ ['…'])

/-- The positions of the bytes in the windows at the two ends. -/
def keptPositions : Finset ℕ :=
  (Finset.range bytes.length).filter fun i =>
    i < cfg.headKeepBytes ∨ bytes.length ≤ i + cfg.tailKeepBytes

/-- A collapsed paste is reported with its length, the number of the bytes that are kept, and a
placeholder that quotes the first line of the head and the last line of the tail. -/
def CollapseOutcome.Right : CollapseOutcome → Prop
  | .passthrough _ _ => True
  | .collapsed originalLen keptBytes kind text =>
    originalLen = bytes.length ∧ keptBytes ≤ originalLen ∧
      keptBytes = (keptPositions cfg bytes).card ∧
      ∃ first last, text = placeholder originalLen kind first last ∧
        Quotes 60 (firstLine (lossy (headBytes cfg bytes))) first ∧
        Quotes 60 (lastLine (lossy (tailBytes cfg bytes))) last

end Collapse

/-- A position is at the boundary of a character of the text. -/
def IsBoundary (s : List Char) (n : ℕ) : Prop := (splitAtByte s n).isSome

/-! ### Cuts and windows -/

theorem truncate_isSome_iff (s : List Char) (max : ℕ) :
    (truncate s max).isSome ↔ byteLen s ≤ max ∨ IsBoundary s max := by
  rw [truncate, IsBoundary]
  split_ifs with hle
  · exact iff_of_true rfl (.inl hle)
  · rw [Option.isSome_map, or_iff_right hle]

theorem quotes_of_truncate {s quoted : List Char} {max : ℕ} (h : truncate s max = some quoted) :
    Quotes max s quoted := by
  rw [truncate] at h
  split_ifs at h with hle
  · obtain rfl := Option.some.inj h
    exact ⟨s, List.prefix_rfl, hle, .inl rfl⟩
  · obtain ⟨⟨front, back⟩, hsplit, rfl⟩ := Option.map_eq_some_iff.mp h
    obtain ⟨rfl, hlen⟩ := splitAtByte_eq_some_iff.mp hsplit
    exact ⟨front, List.prefix_append front back, hlen.le, .inr rfl⟩

section Kept

variable (cfg : CollapseConfig) (bytes : List UInt8)

/-- The positions in the two windows are as many as the windows are long, or all if they meet. -/
theorem card_keptPositions :
    (keptPositions cfg bytes).card =
      min bytes.length
        (min cfg.headKeepBytes bytes.length + min cfg.tailKeepBytes bytes.length) := by
  by_cases hmeet : bytes.length - cfg.tailKeepBytes ≤ min cfg.headKeepBytes bytes.length
  · have hall : keptPositions cfg bytes = Finset.range bytes.length := by
      ext i
      rw [keptPositions, Finset.mem_filter, Finset.mem_range]
      omega
    rw [hall, Finset.card_range]
    omega
  · have hsplit : keptPositions cfg bytes = Finset.range (min cfg.headKeepBytes bytes.length) ∪
        Finset.Ico (bytes.length - cfg.tailKeepBytes) bytes.length := by
      ext i
      rw [keptPositions, Finset.mem_filter, Finset.mem_range, Finset.mem_union, Finset.mem_range,
        Finset.mem_Ico]
      omega
    have hdisjoint : Disjoint (Finset.range (min cfg.headKeepBytes bytes.length))
        (Finset.Ico (bytes.length - cfg.tailKeepBytes) bytes.length) := by
      rw [Finset.disjoint_left]
      intro i hi hi'
      rw [Finset.mem_range] at hi
      rw [Finset.mem_Ico] at hi'
      omega
    rw [hsplit, Finset.card_union_of_disjoint hdisjoint, Finset.card_range, Nat.card_Ico]
    omega

/-- The kept bytes are counted once exactly if the windows do not overlap. -/
theorem kept_eq_card_iff {kept : ℕ}
    (hkept : kept = min cfg.headKeepBytes bytes.length +
      (bytes.length - (bytes.length - cfg.tailKeepBytes))) :
    kept ≤ bytes.length ∧ kept = (keptPositions cfg bytes).card ↔
      cfg.headKeepBytes + cfg.tailKeepBytes ≤ bytes.length ∨ cfg.headKeepBytes = 0 ∨
        cfg.tailKeepBytes = 0 ∨ bytes = [] := by
  rw [card_keptPositions, ← List.length_eq_zero_iff]
  omega

end Kept

/-- Which pastes are collapsed rightly: those that are forwarded, and those whose windows do not
overlap and whose quoted lines are short or can be cut after 60 bytes. -/
theorem collapse_right_iff (lossy : List UInt8 → List Char) (cfg : CollapseConfig)
    (bytes : List UInt8) :
    (∃ outcome, collapsePaste lossy cfg bytes = some outcome ∧ outcome.Right lossy cfg bytes) ↔
    (Collapses lossy cfg bytes →
      (cfg.headKeepBytes + cfg.tailKeepBytes ≤ bytes.length ∨ cfg.headKeepBytes = 0 ∨
        cfg.tailKeepBytes = 0 ∨ bytes = []) ∧
      ∀ line ∈ [firstLine (lossy (headBytes cfg bytes)), lastLine (lossy (tailBytes cfg bytes))],
        byteLen line ≤ 60 ∨ IsBoundary line 60) := by
  set first := firstLine (lossy (headBytes cfg bytes)) with hfirst
  set last := lastLine (lossy (tailBytes cfg bytes)) with hlast
  by_cases hcollapses : Collapses lossy cfg bytes
  · have hpaste : collapsePaste lossy cfg bytes =
        (truncate first 60).bind fun front => (truncate last 60).map fun back =>
          .collapsed bytes.length (min cfg.headKeepBytes bytes.length +
            (bytes.length - (bytes.length - cfg.tailKeepBytes)))
            (classify lossy bytes cfg.thresholdBytes).kind
            (placeholder bytes.length (classify lossy bytes cfg.thresholdBytes).kind
              front back) := by
      rw [collapsePaste, if_neg hcollapses.1, if_neg (Nat.not_lt.mpr hcollapses.2)]
    simp only [hpaste, List.forall_mem_cons, ← truncate_isSome_iff, forall_prop_of_true hcollapses,
      ← kept_eq_card_iff cfg bytes rfl]
    constructor
    · rintro ⟨outcome, houtcome, hright⟩
      obtain ⟨front, hfront, houtcome⟩ := Option.bind_eq_some_iff.mp houtcome
      obtain ⟨back, hback, rfl⟩ := Option.map_eq_some_iff.mp houtcome
      obtain ⟨-, hle, hcard, -⟩ := hright
      exact ⟨⟨hle, hcard⟩, by rw [hfront]; rfl, by rw [hback]; rfl, by simp⟩
    · rintro ⟨⟨hle, hcard⟩, hfront, hback, -⟩
      obtain ⟨front, hfront⟩ := Option.isSome_iff_exists.mp hfront
      obtain ⟨back, hback⟩ := Option.isSome_iff_exists.mp hback
      rw [hfront, hback]
      exact ⟨_, rfl, rfl, hle, hcard, front, back, rfl, quotes_of_truncate hfront,
        quotes_of_truncate hback⟩
  · refine iff_of_true ?_ fun h => absurd h hcollapses
    refine ⟨.passthrough bytes.length (classify lossy bytes cfg.thresholdBytes).kind, ?_, trivial⟩
    rw [collapsePaste]
    dsimp only
    split_ifs with hkeep hbelow
    · rfl
    · rfl
    · exact absurd ⟨hkeep, Nat.not_lt.mp hbelow⟩ hcollapses

namespace LongPaste

/-- Bytes of characters with one and two bytes, as they are decoded. -/
def lossy : List UInt8 → List Char
  | 0xc3 :: b :: bytes => Char.ofNat (b.toNat + 64) :: lossy bytes
  | b :: bytes => Char.ofNat b.toNat :: lossy bytes
  | [] => []

def cfg : CollapseConfig := { thresholdBytes := 8 }

/-- A short paste, all of which is in both windows. -/
def overlapping : List UInt8 := ascii "hello world"

/-- A line whose sixtieth byte is the second one of a character. -/
def accented : List UInt8 := 0x61 :: (List.replicate 300 [0xc3, 0xa9]).flatten

theorem not_collapsed_rightly :
    ¬ (∃ outcome, collapsePaste lossy cfg overlapping = some outcome ∧
      outcome.Right lossy cfg overlapping) ∧
    ¬ ∃ outcome, collapsePaste lossy cfg accented = some outcome ∧
      outcome.Right lossy cfg accented := by
  constructor
  · have hpaste : collapsePaste lossy cfg overlapping = some (.collapsed 11 22 .text
        "@[collapsed:11 bytes kind=text first=\"hello world\" last=\"hello world\"]") := by
      decide +kernel
    rintro ⟨outcome, houtcome, hright⟩
    rw [hpaste] at houtcome
    obtain rfl := Option.some.inj houtcome
    exact absurd hright.2.1 (by decide)
  · have hpanic : collapsePaste lossy cfg accented = none := by decide +kernel
    rintro ⟨outcome, houtcome, -⟩
    rw [hpanic] at houtcome
    cases houtcome

end LongPaste

end Paste

end HeliosLite
