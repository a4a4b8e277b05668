import HeliosLite.Markdown.Wrap
import Mathlib.Data.List.Induction

/-!
# Where wrapping loses style codes

The lines of a text leave out the whitespace at which they end, with the style codes in it, and so
they do with the codes before the first word and after the last one, and with codes that would
stand alone on a line. The layout of a text is found from the widths only, and with it the parts of
the text that are left out.

## Main definitions

* `Gap`, `Gap.Harmless` — a part of the text between lines
* `Layout`, `layout` — the parts that are left out

## Main results

* `reading_foldl_push` — what the segments of a text are
* `segmented` — a text is words after whitespace, and what follows them
* `fitsIn_fitting` — a piece of a word fits, or is a single wider grapheme
-/

namespace HeliosLite

open Theory UnicodeWidth

/-! ### Texts and styles -/

section Texts

variable (s t : Style) (text text' : StyledText)

theorem extractAnsiCodes_append :
    extractAnsiCodes (text ++ text') = extractAnsiCodes text ++ extractAnsiCodes text' :=
  List.filterMap_append

theorem graphemes_append : graphemes (text ++ text') = graphemes text ++ graphemes text' :=
  List.filterMap_append

theorem visibleLength_append [UnicodeWidth] :
    visibleLength (text ++ text') = visibleLength text + visibleLength text' := by
  rw [visibleLength, graphemes_append, List.map_append, List.sum_append]
  rfl

theorem visibleLength_of_graphemes [UnicodeWidth] {text : StyledText} (h : graphemes text = []) :
    visibleLength text = 0 := by
  rw [visibleLength, h]
  rfl

theorem styleAfter_append :
    styleAfter s (text ++ text') = styleAfter (styleAfter s text) text' := by
  rw [styleAfter, extractAnsiCodes_append, List.foldl_append]
  rfl

theorem shown_append :
    shown s (text ++ text') = shown s text ++ shown (styleAfter s text) text' := by
  induction text generalizing s with
  | nil => rfl
  | cons atom text ih =>
    cases atom with
    | escape params => exact ih (s.feed params)
    | grapheme g =>
      rw [List.cons_append, shown, shown]
      split
      · exact ih s
      · rw [ih s]
        rfl

/-- The text of the codes of a style. -/
def codesText : StyledText := s.codes.map .escape

theorem extractAnsiCodes_codesText : extractAnsiCodes (codesText s) = s.codes := by
  rw [codesText, extractAnsiCodes, List.filterMap_map]
  exact List.filterMap_some

theorem graphemes_codesText : graphemes (codesText s) = [] := by
  rw [codesText, graphemes, List.filterMap_map, List.filterMap_eq_nil_iff]
  exact fun _ _ => rfl

theorem styleAfter_codesText : styleAfter t (codesText s) = t.overlay s := by
  rw [styleAfter, extractAnsiCodes_codesText, Style.foldl_feed_codes]

theorem shown_of_blank {text : StyledText} (h : ∀ g ∈ graphemes text, isBlank g) :
    shown s text = [] := by
  induction text generalizing s with
  | nil => rfl
  | cons atom text ih =>
    cases atom with
    | escape params => exact ih (s.feed params) h
    | grapheme g =>
      rw [shown, if_pos (h g List.mem_cons_self)]
      exact ih s fun g' hg' => h g' (List.mem_cons_of_mem _ hg')

theorem shown_codesText : shown t (codesText s) = [] := by
  refine shown_of_blank t fun g hg => ?_
  rw [graphemes_codesText] at hg
  exact absurd hg List.not_mem_nil

theorem styleAfter_overlay :
    styleAfter (t.overlay s) text = (styleAfter t text).overlay (styleAfter s text) := by
  rw [styleAfter, styleAfter, styleAfter]
  generalize extractAnsiCodes text = codes
  induction codes generalizing s t with
  | nil => rfl
  | cons code codes ih =>
    rw [List.foldl_cons, List.foldl_cons, List.foldl_cons, Style.feed_overlay, ih]

/-- The codes that are kept stand for the style after the text. -/
theorem applyStyleTransition_codes :
    applyStyleTransition s.codes text = (styleAfter s text).codes := by
  rw [applyStyleTransition, collapseAnsiCodes, List.foldl_append, Style.foldl_feed_codes,
    Style.overlay_plain, styleAfter]

end Texts

/-! ### The segments of a text -/

/-- A word of visible graphemes after whitespace. -/
structure WrapSegment.IsWord (segment : WrapSegment) : Prop where
  blank : ∀ g ∈ graphemes segment.separator, isBlank g
  visible : ∀ g ∈ graphemes segment.word, isBlank g = false
  nonempty : graphemes segment.word ≠ []

/-- The text starts with a grapheme. -/
def Starts (text : StyledText) : Prop := ∃ g rest, text = .grapheme g :: rest

/-- Only the first word can start with codes, if no whitespace stands before it. -/
structure AreWords (segments : List WrapSegment) : Prop where
  isWord : ∀ segment ∈ segments, segment.IsWord
  head : ∀ segment ∈ segments.head?, segment.separator = [] ∨ Starts segment.word
  tail : ∀ segment ∈ segments.tail, Starts segment.word

theorem areWords_concat {segments : List WrapSegment} {segment : WrapSegment}
    (h : AreWords segments) (hword : segment.IsWord)
    (hstarts : Starts segment.word ∨ segments = [] ∧ segment.separator = []) :
    AreWords (segments ++ [segment]) := by
  constructor
  · intro segment' hmem
    rcases List.mem_append.mp hmem with hmem | hmem
    · exact h.isWord segment' hmem
    · rw [List.mem_singleton.mp hmem]
      exact hword
  · match segments with
    | [] =>
      intro segment' hmem
      obtain rfl := Option.some.inj hmem
      exact hstarts.symm.imp_left And.right
    | first :: segments => exact h.head
  · match segments with
    | [] => exact fun _ hmem => absurd hmem List.not_mem_nil
    | first :: segments =>
      intro segment' hmem
      rcases List.mem_append.mp hmem with hmem | hmem
      · exact h.tail segment' hmem
      · rw [List.mem_singleton.mp hmem]
        exact hstarts.resolve_right fun hnil => List.cons_ne_nil _ _ hnil.1

theorem Starts.append {text : StyledText} (h : Starts text) (text' : StyledText) :
    Starts (text ++ text') := by
  obtain ⟨g, rest, rfl⟩ := h
  exact ⟨g, rest ++ text', rfl⟩

namespace WrapSegments

/-- What is known of the whitespace or the word that is read. -/
def Current (s : WrapSegments) : Option Bool → Prop
  | none => s.segments = [] ∧ s.separator = [] ∧ graphemes s.current = []
  | some true => s.separator = [] ∧ ∀ g ∈ graphemes s.current, isBlank g
  | some false => WrapSegment.IsWord ⟨s.separator, s.current⟩ ∧
      (Starts s.current ∨ s.segments = [] ∧ s.separator = [])

/-- What has been read of a text. -/
structure Reading (text : StyledText) (s : WrapSegments) : Prop where
  text : (s.segments.flatMap fun segment => segment.separator ++ segment.word) ++ s.separator ++
    s.current = text
  words : AreWords s.segments
  current : s.Current s.currentIsWhitespace

variable {s : WrapSegments} {text : StyledText} {g : String}

theorem reading_start : Reading [] start where
  text := rfl
  words := ⟨fun _ h => absurd h List.not_mem_nil, fun _ h => by simp [start] at h,
    fun _ h => absurd h List.not_mem_nil⟩
  current := ⟨rfl, rfl, rfl⟩

theorem Reading.escape (h : Reading text s) (params : List ℕ) :
    Reading (text ++ [.escape params]) (s.push (.escape params)) := by
  have hgraphemes : graphemes (s.current ++ [.escape params]) = graphemes s.current := by
    rw [graphemes_append]
    exact List.append_nil _
  constructor
  · rw [push, ← List.append_assoc, h.text]
  · exact h.words
  · have hcurrent := h.current
    rw [push]
    match hkind : s.currentIsWhitespace with
    | none =>
      rw [hkind] at hcurrent
      exact ⟨hcurrent.1, hcurrent.2.1, hgraphemes.trans hcurrent.2.2⟩
    | some true =>
      rw [hkind] at hcurrent
      refine ⟨hcurrent.1, ?_⟩
      rw [hgraphemes]
      exact hcurrent.2
    | some false =>
      rw [hkind] at hcurrent
      obtain ⟨hword, hstarts⟩ := hcurrent
      refine ⟨⟨hword.blank, ?_, ?_⟩, hstarts.imp_left fun h => h.append _⟩
      · rw [hgraphemes]
        exact hword.visible
      · rw [hgraphemes]
        exact hword.nonempty

/-- A visible grapheme after codes or at the end of a word. -/
theorem isWord_concat {separator current : StyledText}
    (hblank : ∀ g ∈ graphemes separator, isBlank g)
    (hvisible : ∀ g ∈ graphemes current, isBlank g = false) (hg : isBlank g = false) :
    WrapSegment.IsWord ⟨separator, current ++ [.grapheme g]⟩ where
  blank := hblank
  visible g' hg' := by
    rw [graphemes_append] at hg'
    rcases List.mem_append.mp hg' with hg' | hg'
    · exact hvisible g' hg'
    · rw [List.mem_singleton.mp hg']
      exact hg
  nonempty := by
    rw [graphemes_append]
    exact List.append_ne_nil_of_right_ne_nil _ (List.cons_ne_nil g [])

theorem blank_concat {current : StyledText} (hblank : ∀ g ∈ graphemes current, isBlank g)
    (hg : isBlank g = true) : ∀ g' ∈ graphemes (current ++ [.grapheme g]), isBlank g' := by
  intro g' hg'
  rw [graphemes_append] at hg'
  rcases List.mem_append.mp hg' with hg' | hg'
  · exact hblank g' hg'
  · rw [List.mem_singleton.mp hg']
    exact hg

theorem Reading.grapheme (h : Reading text s) (g : String) :
    Reading (text ++ [.grapheme g]) (s.push (.grapheme g)) := by
  have hcurrent := h.current
  have htext := h.text
  match hkind : s.currentIsWhitespace, hg : isBlank g with
  | none, blank =>
    rw [hkind] at hcurrent
    obtain ⟨hsegments, hseparator, hnone⟩ := hcurrent
    have hempty : ∀ P : String → Prop, ∀ g ∈ graphemes s.current, P g := by
      intro P g hg
      rw [hnone] at hg
      exact absurd hg List.not_mem_nil
    simp only [push, turn, hkind, hg]
    refine ⟨by rw [← htext, List.append_assoc _ s.current], h.words, ?_⟩
    cases blank with
    | true => exact ⟨hseparator, blank_concat (hempty _) hg⟩
    | false =>
      refine ⟨isWord_concat ?_ (hempty _) hg, .inr ⟨hsegments, hseparator⟩⟩
      rw [hseparator]
      exact fun _ h => absurd h List.not_mem_nil
  | some true, true =>
    rw [hkind] at hcurrent
    simp only [push, turn, hkind, hg, if_true]
    refine ⟨by rw [← htext, List.append_assoc _ s.current], h.words, ?_⟩
    exact ⟨hcurrent.1, blank_concat hcurrent.2 hg⟩
  | some false, false =>
    rw [hkind] at hcurrent
    obtain ⟨hword, hstarts⟩ := hcurrent
    simp only [push, turn, hkind, hg, if_true]
    refine ⟨by rw [← htext, List.append_assoc _ s.current], h.words, ?_⟩
    exact ⟨isWord_concat hword.blank hword.visible hg, hstarts.imp_left fun h => h.append _⟩
  | some true, false =>
    -- the whitespace ends, and a word starts
    rw [hkind] at hcurrent
    obtain ⟨hseparator, hblank⟩ := hcurrent
    simp only [push, turn, hkind, hg, Bool.true_eq_false, if_false, if_true, List.nil_append]
    refine ⟨?_, h.words, ?_, .inl ⟨g, [], rfl⟩⟩
    · rw [← htext, List.append_assoc _ s.separator]
    · have hempty : ∀ g ∈ graphemes [], isBlank g = false := fun _ h => absurd h List.not_mem_nil
      rw [hseparator]
      show WrapSegment.IsWord ⟨s.current, [] ++ [.grapheme g]⟩
      exact isWord_concat hblank hempty hg
  | some false, true =>
    -- the word ends, and whitespace starts
    rw [hkind] at hcurrent
    obtain ⟨hword, hstarts⟩ := hcurrent
    simp only [push, turn, hkind, hg, Bool.false_eq_true, if_false, List.nil_append]
    refine ⟨?_, areWords_concat h.words hword hstarts, rfl, ?_⟩
    · rw [← htext, List.flatMap_append, List.flatMap_singleton, List.append_nil,
        List.append_assoc _ s.separator]
    · intro g' hg'
      rw [List.mem_singleton.mp hg']
      exact hg

theorem reading_foldl_push (text : StyledText) : Reading text (text.foldl push start) := by
  induction text using List.reverseRecOn with
  | nil => exact reading_start
  | append_singleton text atom ih =>
    rw [List.foldl_append]
    cases atom with
    | escape params => exact ih.escape params
    | grapheme g => exact ih.grapheme g

end WrapSegments

/-- What follows the last word. -/
def trailing (text : StyledText) : StyledText :=
  (parseSegments text).separator ++ (parseSegments text).current

/-- A text is words after whitespace, and what follows them. -/
structure Segmented (text : StyledText) (segments : List WrapSegment) (rest : StyledText) :
    Prop where
  text : (segments.flatMap fun segment => segment.separator ++ segment.word) ++ rest = text
  words : AreWords segments
  rest : ∀ g ∈ graphemes rest, isBlank g

theorem segmented (text : StyledText) : Segmented text (wrapSegments text) (trailing text) := by
  have hread := WrapSegments.reading_foldl_push text
  rw [wrapSegments, trailing, parseSegments]
  generalize text.foldl WrapSegments.push .start = s at hread
  have hcurrent := hread.current
  match hkind : s.currentIsWhitespace with
  | none =>
    rw [hkind] at hcurrent
    obtain ⟨-, hseparator, hnone⟩ := hcurrent
    have hfinish : s.finish = s := if_neg fun h => by simp [hkind] at h
    rw [hfinish]
    refine ⟨by rw [← List.append_assoc, hread.text], hread.words, ?_⟩
    rw [hseparator, List.nil_append, hnone]
    exact fun _ h => absurd h List.not_mem_nil
  | some true =>
    rw [hkind] at hcurrent
    obtain ⟨hseparator, hblank⟩ := hcurrent
    have hfinish : s.finish = s := if_neg fun h => by simp [hkind] at h
    rw [hfinish]
    refine ⟨by rw [← List.append_assoc, hread.text], hread.words, ?_⟩
    rw [hseparator]
    exact hblank
  | some false =>
    rw [hkind] at hcurrent
    obtain ⟨hword, hstarts⟩ := hcurrent
    have hne : s.current ≠ [] := fun h => hword.nonempty (congrArg graphemes h)
    have hfinish : s.finish = ⟨s.segments ++ [⟨s.separator, s.current⟩], [], [],
        s.currentIsWhitespace⟩ := if_pos ⟨hkind, hne⟩
    rw [hfinish]
    refine ⟨?_, areWords_concat hread.words hword hstarts, fun _ h => absurd h List.not_mem_nil⟩
    rw [← hread.text, List.flatMap_append, List.flatMap_singleton, List.append_nil,
      List.append_nil, List.append_assoc _ s.separator]

/-! ### The layout -/

/-- A part of the text between lines: codes that would stand alone on a line, and whitespace. -/
structure Gap where
  before : StyledText
  kept : StyledText
  loose : StyledText
  separator : StyledText
  deriving DecidableEq, Repr

/-- The codes with which the next line starts restore the style after the part that is left
out. -/
def Gap.Harmless (gap : Gap) : Prop :=
  (styleAfter .plain gap.before).overlay (styleAfter .plain (gap.kept ++ gap.loose)) =
    styleAfter .plain (gap.before ++ gap.loose ++ gap.separator)

instance : DecidablePred Gap.Harmless := fun gap =>
  inferInstanceAs (Decidable ((styleAfter .plain gap.before).overlay _ = _))

/-- The text up to the codes that stand alone on the line, what of it is kept, and the parts that
are left out. -/
structure Layout where
  before : StyledText
  kept : StyledText
  loose : StyledText
  used : ℕ
  room : ℕ
  gaps : List Gap
  deriving DecidableEq, Repr

section Layout

variable [UnicodeWidth]

/-- The width of the line on which a word ends, and what of the word stands on it. -/
def lastPiece (nextWidth : ℕ) : ℕ → ℕ → StyledText → ℕ × StyledText
  | 0, room, word => (room, word)
  | fuel + 1, room, word =>
    let rest := word.drop (fitting room 0 false word).length
    if visibleLength word ≤ room ∨ rest = [] then (room, word)
    else lastPiece nextWidth fuel nextWidth rest

namespace Layout

def start : Layout := ⟨[], [], [], 0, 0, []⟩

/-- The word is put on the line. -/
def join (l : Layout) (segment : WrapSegment) : Layout :=
  { l with
    before := l.before ++ l.loose ++ segment.separator ++ segment.word
    kept := l.kept ++ l.loose ++ segment.separator ++ segment.word
    loose := []
    used := l.used + visibleLength segment.separator + visibleLength segment.word }

/-- The word starts a line. -/
def place (nextWidth room : ℕ) (l : Layout) (segment : WrapSegment) : Layout :=
  let word := segment.word
  let last := lastPiece nextWidth word.length room word
  let loose := if graphemes last.2 = [] then last.2 else []
  let set := word.take (word.length - loose.length)
  { before := l.before ++ l.loose ++ segment.separator ++ set
    kept := l.kept ++ l.loose ++ set
    loose := loose
    used := visibleLength last.2
    room := last.1
    gaps := l.gaps ++ [⟨l.before, l.kept, l.loose, segment.separator⟩] }

def step (nextWidth : ℕ) (l : Layout) (segment : WrapSegment) : Layout :=
  if l.used + visibleLength segment.separator + visibleLength segment.word ≤ l.room then
    l.join segment
  else l.place nextWidth nextWidth segment

end Layout

def layout (firstWidth nextWidth : ℕ) : List WrapSegment → Layout
  | [] => .start
  | segment :: segments =>
    segments.foldl (Layout.step nextWidth) (Layout.start.place nextWidth firstWidth segment)

/-- No part that is left out between lines matters, nor what follows them. -/
structure KeepsStyles (firstWidth nextWidth : ℕ) (text : StyledText) : Prop where
  gaps : ∀ gap ∈ (layout firstWidth nextWidth (wrapSegments text)).gaps, gap.Harmless
  rest : styleAfter .plain (layout firstWidth nextWidth (wrapSegments text)).before =
    styleAfter .plain text

end Layout

/-! ### The pieces of a word -/

section Pieces

variable [UnicodeWidth] {maxWidth taken : ℕ} {consumed : Bool} {word : StyledText}

/-- The line is not wider than it may be, unless it is a single wider grapheme. -/
def FitsIn (n : ℕ) (text : StyledText) : Prop :=
  visibleLength text ≤ n ∨ ∃ g, graphemes text = [g] ∧ n < width g

theorem fitting_append_drop (maxWidth taken : ℕ) (consumed : Bool) (word : StyledText) :
    fitting maxWidth taken consumed word ++
      word.drop (fitting maxWidth taken consumed word).length = word := by
  induction word generalizing taken consumed with
  | nil => rfl
  | cons atom word ih =>
    cases atom with
    | escape params => exact congrArg (_ :: ·) (ih taken consumed)
    | grapheme g =>
      rw [fitting]
      split
      · rfl
      · split
        · rfl
        · exact congrArg (_ :: ·) (ih _ _)

theorem fitting_ne_nil (h : word ≠ []) : fitting maxWidth taken false word ≠ [] := by
  match word with
  | .escape params :: word => exact List.cons_ne_nil _ _
  | .grapheme g :: word =>
    rw [fitting, if_neg fun h => Bool.false_ne_true h.1]
    split <;> exact List.cons_ne_nil _ _

theorem graphemes_fitting_ne_nil (h : graphemes word ≠ []) :
    graphemes (fitting maxWidth taken false word) ≠ [] := by
  induction word with
  | nil => exact absurd rfl h
  | cons atom word ih =>
    cases atom with
    | escape params => exact ih h
    | grapheme g =>
      rw [fitting, if_neg fun h => Bool.false_ne_true h.1]
      split <;> exact List.cons_ne_nil _ _

theorem visibleLength_grapheme (g : String) (text : StyledText) :
    visibleLength (.grapheme g :: text) = width g + visibleLength text := rfl

theorem visibleLength_fitting_consumed (h : taken ≤ maxWidth) :
    taken + visibleLength (fitting maxWidth taken true word) ≤ maxWidth := by
  induction word generalizing taken with
  | nil => exact h
  | cons atom word ih =>
    cases atom with
    | escape params => exact ih h
    | grapheme g =>
      rw [fitting]
      split
      case isTrue => exact h
      case isFalse hfits =>
        have hle : taken + width g ≤ maxWidth := Nat.not_lt.mp fun hlt => hfits ⟨rfl, hlt⟩
        rw [if_neg fun h => h.1 rfl, visibleLength_grapheme, ← Nat.add_assoc]
        exact ih hle

theorem fitsIn_fitting (maxWidth : ℕ) (word : StyledText) :
    FitsIn maxWidth (fitting maxWidth 0 false word) := by
  induction word with
  | nil => exact .inl (Nat.zero_le _)
  | cons atom word ih =>
    cases atom with
    | escape params => exact ih
    | grapheme g =>
      rw [fitting, if_neg fun h => Bool.false_ne_true h.1]
      split
      case isTrue hwide => exact .inr ⟨g, rfl, hwide.2⟩
      case isFalse hfits =>
        have hle : width g ≤ maxWidth := Nat.not_lt.mp fun hlt => hfits ⟨Bool.false_ne_true, hlt⟩
        left
        rw [visibleLength_grapheme, Nat.zero_add]
        exact visibleLength_fitting_consumed hle

end Pieces

end HeliosLite
