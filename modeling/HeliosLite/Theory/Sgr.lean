import Mathlib.Data.List.Basic
import Mathlib.Data.Nat.Notation

/-!
# Terminal styles

A style code is a list of numbers. It changes the style in which a terminal shows what follows. A
style can also be set by codes of its own, which add to what has been set before.

## Main definitions

* `Sgr`, `Sgr.ofParams` — the changes of the style, and those that a code makes
* `Style`, `Style.feed` — a style, and the style after a code
* `Style.codes`, `Style.overlay` — the codes of a style, and what they make of another one

## Main results

* `foldl_feed_codes` — the codes of a style lay it over another one
* `feed_overlay` — a code changes a style that is laid over another one as it changes both
-/

namespace Theory

inductive Color where
  | palette (n : Fin 16)
  | rgb (red green blue : ℕ)
  deriving DecidableEq, Repr

/-- The changes that codes can make. -/
inductive Sgr where
  | reset
  | bold
  | dim
  | italic
  | underline
  | strikeout
  | notBoldDim
  | notItalic
  | notUnderline
  | notStrikeout
  | foreground (color : Option Color)
  | background (color : Option Color)
  deriving DecidableEq, Repr

namespace Sgr

/-- The colours 30 to 37 and 90 to 97. -/
def paletteColor (n : ℕ) : Option Color :=
  if 30 ≤ n ∧ n ≤ 37 then some (.palette (Fin.ofNat 16 (n - 30)))
  else if 90 ≤ n ∧ n ≤ 97 then some (.palette (Fin.ofNat 16 (n - 82)))
  else none

def ofParam (n : ℕ) : Option Sgr :=
  match n with
  | 0 => some .reset
  | 1 => some .bold
  | 2 => some .dim
  | 3 => some .italic
  | 4 => some .underline
  | 9 => some .strikeout
  | 22 => some .notBoldDim
  | 23 => some .notItalic
  | 24 => some .notUnderline
  | 29 => some .notStrikeout
  | 39 => some (.foreground none)
  | 49 => some (.background none)
  | n =>
    match paletteColor n, paletteColor (n - 10) with
    | some color, _ => some (.foreground color)
    | none, some color => some (.background color)
    | none, none => none

/-- The numbers of a code are read one after the other, a colour by its parts at once. -/
def ofParams : List ℕ → List Sgr
  | [] => []
  | 38 :: 2 :: red :: green :: blue :: params =>
    .foreground (some (.rgb red green blue)) :: ofParams params
  | 48 :: 2 :: red :: green :: blue :: params =>
    .background (some (.rgb red green blue)) :: ofParams params
  | n :: params => (ofParam n).toList ++ ofParams params

end Sgr

/-! ### Styles -/

structure Style where
  bold : Bool
  dim : Bool
  italic : Bool
  underline : Bool
  strikeout : Bool
  fgColor : Option Color
  bgColor : Option Color
  deriving DecidableEq, Repr

namespace Style

def plain : Style := ⟨false, false, false, false, false, none, none⟩

def apply (s : Style) : Sgr → Style
  | .reset => plain
  | .bold => { s with bold := true }
  | .dim => { s with dim := true }
  | .italic => { s with italic := true }
  | .underline => { s with underline := true }
  | .strikeout => { s with strikeout := true }
  | .notBoldDim => { s with bold := false, dim := false }
  | .notItalic => { s with italic := false }
  | .notUnderline => { s with underline := false }
  | .notStrikeout => { s with strikeout := false }
  | .foreground color => { s with fgColor := color }
  | .background color => { s with bgColor := color }

/-- The style after a code. -/
def feed (s : Style) (params : List ℕ) : Style := (Sgr.ofParams params).foldl apply s

/-- The numbers of the attributes that are set. -/
def attributes (s : Style) : List ℕ :=
  (if s.bold then [1] else []) ++ (if s.dim then [2] else []) ++
    (if s.italic then [3] else []) ++ (if s.underline then [4] else []) ++
      (if s.strikeout then [9] else [])

def paletteParam (n : Fin 16) : ℕ := if n < 8 then 30 + n else 82 + n

def fgCode : Color → List ℕ
  | .palette n => [paletteParam n]
  | .rgb red green blue => [38, 2, red, green, blue]

def bgCode : Color → List ℕ
  | .palette n => [paletteParam n + 10]
  | .rgb red green blue => [48, 2, red, green, blue]

/-- The codes by which a style is set. -/
def codes (s : Style) : List (List ℕ) :=
  (if s.attributes = [] then [] else [s.attributes]) ++ (s.fgColor.map fgCode).toList ++
    (s.bgColor.map bgCode).toList

/-- What the codes of the second style make of the first one. -/
def overlay (t s : Style) : Style where
  bold := t.bold || s.bold
  dim := t.dim || s.dim
  italic := t.italic || s.italic
  underline := t.underline || s.underline
  strikeout := t.strikeout || s.strikeout
  fgColor := s.fgColor.or t.fgColor
  bgColor := s.bgColor.or t.bgColor

theorem feed_attributes (t s : Style) : t.feed s.attributes =
    ⟨t.bold || s.bold, t.dim || s.dim, t.italic || s.italic, t.underline || s.underline,
      t.strikeout || s.strikeout, t.fgColor, t.bgColor⟩ := by
  obtain ⟨b, d, i, u, k, -, -⟩ := s
  cases b <;> cases d <;> cases i <;> cases u <;> cases k <;>
    simp [feed, attributes, Sgr.ofParams, Sgr.ofParam, apply]

theorem ofParams_fgCode (color : Color) :
    Sgr.ofParams (fgCode color) = [.foreground (some color)] := by
  have hpalette : ∀ n : Fin 16,
      Sgr.ofParams [paletteParam n] = [.foreground (some (.palette n))] := by decide
  cases color with
  | palette n => exact hpalette n
  | rgb red green blue => rfl

theorem ofParams_bgCode (color : Color) :
    Sgr.ofParams (bgCode color) = [.background (some color)] := by
  have hpalette : ∀ n : Fin 16,
      Sgr.ofParams [paletteParam n + 10] = [.background (some (.palette n))] := by decide
  cases color with
  | palette n => exact hpalette n
  | rgb red green blue => rfl

theorem feed_fgCode (t : Style) (color : Color) :
    t.feed (fgCode color) = { t with fgColor := some color } := by
  rw [feed, ofParams_fgCode]
  rfl

theorem feed_bgCode (t : Style) (color : Color) :
    t.feed (bgCode color) = { t with bgColor := some color } := by
  rw [feed, ofParams_bgCode]
  rfl

/-- The codes of a style lay it over another one. -/
theorem foldl_feed_codes (t s : Style) : s.codes.foldl feed t = t.overlay s := by
  have hattributes : (if s.attributes = [] then [] else [s.attributes]).foldl feed t =
      t.feed s.attributes := by
    split
    case isTrue h => rw [h]; rfl
    case isFalse => rfl
  rw [codes, List.foldl_append, List.foldl_append, hattributes, feed_attributes]
  cases hfg : s.fgColor <;> cases hbg : s.bgColor <;>
    simp [overlay, hfg, hbg, feed_fgCode, feed_bgCode]

@[simp] theorem overlay_plain (s : Style) : plain.overlay s = s := by
  simp [overlay, plain]

theorem overlay_self (s : Style) : s.overlay s = s := by
  simp [overlay]

theorem overlay_overlay (t s : Style) : (t.overlay s).overlay s = t.overlay s := by
  obtain ⟨b, d, i, u, k, fg, bg⟩ := s
  cases fg <;> cases bg <;> simp [overlay]

theorem apply_overlay (t s : Style) (change : Sgr) :
    (t.overlay s).apply change = (t.apply change).overlay (s.apply change) := by
  cases change with
  | reset => rfl
  | foreground color => cases color <;> simp [overlay, apply]
  | background color => cases color <;> simp [overlay, apply]
  | _ => simp [overlay, apply]

/-- A code changes a style that is laid over another one as it changes both. -/
theorem feed_overlay (t s : Style) (params : List ℕ) :
    (t.overlay s).feed params = (t.feed params).overlay (s.feed params) := by
  rw [feed, feed, feed]
  generalize Sgr.ofParams params = changes
  induction changes generalizing t s with
  | nil => rfl
  | cons change changes ih =>
    rw [List.foldl_cons, List.foldl_cons, List.foldl_cons, apply_overlay, ih]

end Style

end Theory
