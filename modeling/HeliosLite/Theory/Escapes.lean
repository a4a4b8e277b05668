import Mathlib.Data.List.Basic

/-!
# Escape sequences

A terminal shows the characters of a text that stand outside escape sequences. A control sequence
ends with its final character, a command with a bell or with an escape character and a backslash.

## Main definitions

* `EscapeMode`, `visible` — how a terminal reads a text, and the characters that it shows
* `Closed` — texts that do not end within an escape sequence
* `EscapeToken`, `render` — characters, control sequences and commands, and their text

## Main results

* `visible_append` — what a terminal shows of one text after another
* `closed_render`, `visible_render` — texts of tokens are closed, and show their characters
-/

namespace Theory

def escapeChar : Char := '\x1b'

def bell : Char := '\x07'

/-- What a terminal has read last. -/
inductive EscapeMode where
  | text
  | escape
  | control
  | command
  | commandEscape
  deriving DecidableEq, Repr

/-- The characters that end a control sequence. -/
def isFinal (c : Char) : Bool := 0x40 ≤ c.toNat && c.toNat ≤ 0x7e

def EscapeMode.step : EscapeMode → Char → EscapeMode
  | .text, c => if c = escapeChar then .escape else .text
  | .escape, c => if c = '[' then .control else if c = ']' then .command else .text
  | .control, c => if isFinal c then .text else .control
  | .command, c => if c = bell then .text else if c = escapeChar then .commandEscape else .command
  | .commandEscape, c =>
    if c = bell ∨ c = '\\' then .text else if c = escapeChar then .commandEscape else .command

def modeAfter (mode : EscapeMode) (text : List Char) : EscapeMode := text.foldl EscapeMode.step mode

def visibleFrom : EscapeMode → List Char → List Char
  | _, [] => []
  | mode, c :: text =>
    if mode = .text ∧ c ≠ escapeChar then c :: visibleFrom (mode.step c) text
    else visibleFrom (mode.step c) text

/-- The characters outside escape sequences. -/
def visible (text : List Char) : List Char := visibleFrom .text text

/-- The text does not end within an escape sequence. -/
def Closed (text : List Char) : Prop := modeAfter .text text = .text

instance : DecidablePred Closed := fun text =>
  inferInstanceAs (Decidable (modeAfter .text text = .text))

section Append

variable {mode : EscapeMode} {s t : List Char}

theorem modeAfter_append (mode : EscapeMode) (s t : List Char) :
    modeAfter mode (s ++ t) = modeAfter (modeAfter mode s) t :=
  List.foldl_append

theorem visibleFrom_append (mode : EscapeMode) (s t : List Char) :
    visibleFrom mode (s ++ t) = visibleFrom mode s ++ visibleFrom (modeAfter mode s) t := by
  induction s generalizing mode with
  | nil => rfl
  | cons c s ih =>
    rw [List.cons_append, visibleFrom, visibleFrom]
    split
    · rw [ih, List.cons_append]
      rfl
    · exact ih (mode.step c)

theorem closed_nil : Closed [] := rfl

theorem Closed.append (hs : Closed s) (ht : Closed t) : Closed (s ++ t) := by
  rw [Closed, modeAfter_append, hs]
  exact ht

theorem visible_append (hs : Closed s) (t : List Char) :
    visible (s ++ t) = visible s ++ visible t := by
  rw [visible, visibleFrom_append, hs]
  rfl

/-- A text without escape characters is shown as it is. -/
theorem plain_text (h : escapeChar ∉ s) : Closed s ∧ visible s = s := by
  induction s with
  | nil => exact ⟨rfl, rfl⟩
  | cons c s ih =>
    rw [List.mem_cons, not_or] at h
    have hne : c ≠ escapeChar := Ne.symm h.1
    have hstep : EscapeMode.step .text c = .text := if_neg hne
    obtain ⟨hclosed, hvisible⟩ := ih h.2
    refine ⟨?_, ?_⟩
    · rw [Closed, modeAfter, List.foldl_cons, hstep]
      exact hclosed
    · rw [visible, visibleFrom, if_pos ⟨rfl, hne⟩, hstep]
      exact congrArg (c :: ·) hvisible

end Append

/-! ### Tokens -/

/-- A character, a control sequence or a command. -/
inductive EscapeToken where
  | char (c : Char) (plain : c ≠ escapeChar ∧ c ≠ bell)
  | control (params : List Char) (numeric : ∀ c ∈ params, 0x20 ≤ c.toNat ∧ c.toNat < 0x40)
  | command (body : List Char) (plain : escapeChar ∉ body ∧ bell ∉ body)
  deriving DecidableEq

namespace EscapeToken

def toText : EscapeToken → List Char
  | char c _ => [c]
  | control params _ => escapeChar :: '[' :: (params ++ ['m'])
  | command body _ => escapeChar :: ']' :: (body ++ [escapeChar, '\\'])

/-- The character that a terminal shows. -/
def shown : EscapeToken → List Char
  | char c _ => [c]
  | control _ _ => []
  | command _ _ => []

end EscapeToken

/-- The text of tokens. -/
def render (tokens : List EscapeToken) : List Char := tokens.flatMap EscapeToken.toText

theorem modeAfter_control {params : List Char}
    (h : ∀ c ∈ params, 0x20 ≤ c.toNat ∧ c.toNat < 0x40) (rest : List Char) :
    modeAfter .control (params ++ rest) = modeAfter .control rest ∧
      visibleFrom .control (params ++ rest) = visibleFrom .control rest := by
  induction params with
  | nil => exact ⟨rfl, rfl⟩
  | cons c params ih =>
    have hc := h c List.mem_cons_self
    have hstep : EscapeMode.step .control c = .control := by
      rw [EscapeMode.step, if_neg]
      rw [isFinal, Bool.and_eq_true, decide_eq_true_eq, decide_eq_true_eq]
      omega
    obtain ⟨hmode, hvisible⟩ := ih fun c' hc' => h c' (List.mem_cons_of_mem _ hc')
    rw [List.cons_append, visibleFrom, if_neg fun hand => EscapeMode.noConfusion hand.1, hstep]
    refine ⟨?_, hvisible⟩
    rw [modeAfter, List.foldl_cons, hstep]
    exact hmode

theorem modeAfter_command {body : List Char} (h : escapeChar ∉ body ∧ bell ∉ body)
    (rest : List Char) :
    modeAfter .command (body ++ rest) = modeAfter .command rest ∧
      visibleFrom .command (body ++ rest) = visibleFrom .command rest := by
  induction body with
  | nil => exact ⟨rfl, rfl⟩
  | cons c body ih =>
    obtain ⟨hescape, hbell⟩ := h
    rw [List.mem_cons, not_or] at hescape hbell
    have hstep : EscapeMode.step .command c = .command := by
      rw [EscapeMode.step, if_neg (Ne.symm hbell.1), if_neg (Ne.symm hescape.1)]
    obtain ⟨hmode, hvisible⟩ := ih ⟨hescape.2, hbell.2⟩
    rw [List.cons_append, visibleFrom, if_neg fun hand => EscapeMode.noConfusion hand.1, hstep]
    refine ⟨?_, hvisible⟩
    rw [modeAfter, List.foldl_cons, hstep]
    exact hmode

theorem closed_toText (token : EscapeToken) : Closed token.toText := by
  cases token with
  | char c plain => exact if_neg plain.1
  | control params numeric => exact (modeAfter_control numeric ['m']).1
  | command body plain => exact (modeAfter_command plain [escapeChar, '\\']).1

theorem visible_toText (token : EscapeToken) : visible token.toText = token.shown := by
  cases token with
  | char c plain => exact if_pos ⟨rfl, plain.1⟩
  | control params numeric => exact (modeAfter_control numeric ['m']).2
  | command body plain => exact (modeAfter_command plain [escapeChar, '\\']).2

theorem render_append (s t : List EscapeToken) : render (s ++ t) = render s ++ render t :=
  List.flatMap_append

theorem closed_render (tokens : List EscapeToken) : Closed (render tokens) := by
  induction tokens with
  | nil => exact closed_nil
  | cons token tokens ih => exact (closed_toText token).append ih

theorem visible_render (tokens : List EscapeToken) :
    visible (render tokens) = tokens.flatMap EscapeToken.shown := by
  induction tokens with
  | nil => rfl
  | cons token tokens ih =>
    rw [render, List.flatMap_cons, visible_append (closed_toText token), visible_toText,
      List.flatMap_cons]
    exact congrArg (token.shown ++ ·) ih

end Theory
