import Mathlib.Data.List.Basic

/-!
# Parsers of input that is still arriving

A streaming parser reads the input that has come so far. It gives a value with the input
that is left, finds an error, or asks for more; what it has given does not change when
more arrives. Such a parser is run over and over, as far as the input goes, and a state is
folded along. The outcome does not depend on how the input came in.

## Main definitions

* `IResult` — what a parser makes of the input so far
* `Streams` — more input behind does not change an answer
* `runs` — a parser run as often as the input allows

## Main results

* `Streams.andThen`, `Streams.opt`, `Streams.orElse` — parsers of parts in a row, or tried in turn
* `runs_of_ok`, `runs_of_incomplete` — one answer more of a run
-/

namespace Theory

/-- What a parser makes of the input so far: a value and what is left, an error, or neither
before more input comes. -/
inductive IResult (τ ε α : Type) where
  | ok (rest : List τ) (value : α)
  | error (e : ε)
  | incomplete

variable {τ ε α β σ : Type}

/-- More input behind changes neither a value nor that there is an error. -/
structure Streams (p : List τ → IResult τ ε α) : Prop where
  ok_append : ∀ {input rest value}, p input = .ok rest value →
    ∀ more, p (input ++ more) = .ok (rest ++ more) value
  error_append : ∀ {input e}, p input = .error e → ∀ more, ∃ e', p (input ++ more) = .error e'
  suffix : ∀ {input rest value}, p input = .ok rest value → rest <:+ input

/-- A value costs input. -/
def Consumes (p : List τ → IResult τ ε α) : Prop :=
  ∀ input rest value, p input = .ok rest value → rest.length < input.length

theorem Streams.length_le {p : List τ → IResult τ ε α} (hp : Streams p) {input rest : List τ}
    {value : α} (h : p input = .ok rest value) : rest.length ≤ input.length :=
  (hp.suffix h).length_le

section Sequence

variable {p : List τ → IResult τ ε α} {q : α → List τ → IResult τ ε β}

/-- One parser after another on what it left. -/
def IResult.andThen (p : List τ → IResult τ ε α) (q : α → List τ → IResult τ ε β)
    (input : List τ) : IResult τ ε β :=
  match p input with
  | .ok rest value => q value rest
  | .error e => .error e
  | .incomplete => .incomplete

/-- The second parser reads the same input if the first one finds an error. -/
def IResult.orElse (p q : List τ → IResult τ ε α) (input : List τ) : IResult τ ε α :=
  match p input with
  | .error _ => q input
  | answer => answer

theorem andThen_eq_ok {input rest : List τ} {value : β} :
    IResult.andThen p q input = .ok rest value ↔
      ∃ between a, p input = .ok between a ∧ q a between = .ok rest value := by
  rw [IResult.andThen]
  cases p input with
  | ok between a =>
    constructor
    · exact fun h => ⟨between, a, rfl, h⟩
    · rintro ⟨_, _, h, h'⟩
      cases h
      exact h'
  | error e => exact ⟨nofun, nofun⟩
  | incomplete => exact ⟨nofun, nofun⟩

theorem andThen_eq_error {input : List τ} {e : ε} :
    IResult.andThen p q input = .error e ↔
      p input = .error e ∨ ∃ between a, p input = .ok between a ∧ q a between = .error e := by
  rw [IResult.andThen]
  cases p input with
  | ok between a =>
    constructor
    · exact fun h => Or.inr ⟨between, a, rfl, h⟩
    · rintro (h | ⟨_, _, h, h'⟩)
      · cases h
      · cases h
        exact h'
  | error e' =>
    constructor
    · intro h
      cases h
      exact Or.inl rfl
    · rintro (h | ⟨_, _, h, _⟩) <;> cases h
      rfl
  | incomplete => exact ⟨nofun, by rintro (h | ⟨_, _, h, _⟩) <;> cases h⟩

theorem Streams.andThen (hp : Streams p) (hq : ∀ a, Streams (q a)) :
    Streams (IResult.andThen p q) where
  ok_append h more := by
    obtain ⟨between, a, hfirst, hsecond⟩ := andThen_eq_ok.mp h
    exact andThen_eq_ok.mpr ⟨_, a, hp.ok_append hfirst more, (hq a).ok_append hsecond more⟩
  error_append h more := by
    rcases andThen_eq_error.mp h with hfirst | ⟨between, a, hfirst, hsecond⟩
    · obtain ⟨e', he'⟩ := hp.error_append hfirst more
      exact ⟨e', andThen_eq_error.mpr (Or.inl he')⟩
    · obtain ⟨e', he'⟩ := (hq a).error_append hsecond more
      exact ⟨e', andThen_eq_error.mpr (Or.inr ⟨_, a, hp.ok_append hfirst more, he'⟩)⟩
  suffix h := by
    obtain ⟨between, a, hfirst, hsecond⟩ := andThen_eq_ok.mp h
    exact ((hq a).suffix hsecond).trans (hp.suffix hfirst)

theorem Consumes.andThen (hp : Consumes p) (hq : ∀ a, Streams (q a)) :
    Consumes (IResult.andThen p q) := by
  intro input rest value h
  obtain ⟨between, a, hfirst, hsecond⟩ := andThen_eq_ok.mp h
  exact Nat.lt_of_le_of_lt ((hq a).length_le hsecond) (hp _ _ _ hfirst)

theorem andThen_ne_error {input : List τ} (hp : ∀ e, p input ≠ .error e)
    (hq : ∀ rest a, p input = .ok rest a → ∀ e, q a rest ≠ .error e) (e : ε) :
    IResult.andThen p q input ≠ .error e := by
  intro h
  rcases andThen_eq_error.mp h with h | ⟨rest, a, hfirst, hsecond⟩
  · exact hp e h
  · exact hq rest a hfirst e hsecond

/-- A value without reading. -/
theorem streams_pure (b : β) : Streams fun input => (.ok input b : IResult τ ε β) where
  ok_append h more := by cases h; rfl
  error_append h := by cases h
  suffix h := by cases h; exact List.suffix_rfl

theorem Streams.map (hp : Streams p) (f : α → β) :
    Streams (IResult.andThen p fun a input => .ok input (f a)) :=
  hp.andThen fun a => streams_pure (f a)

end Sequence

section Optional

variable {p : List τ → IResult τ ε α}

/-- No value if the parser finds an error; nothing is read then. -/
def IResult.opt (p : List τ → IResult τ ε α) (input : List τ) : IResult τ ε (Option α) :=
  match p input with
  | .ok rest value => .ok rest (some value)
  | .error _ => .ok input none
  | .incomplete => .incomplete

theorem opt_ne_error (input : List τ) (e : ε) : IResult.opt p input ≠ .error e := by
  rw [IResult.opt]
  cases p input <;> exact nofun

theorem opt_eq_ok {input rest : List τ} {value : Option α}
    (h : IResult.opt p input = .ok rest value) :
    (∃ a, p input = .ok rest a ∧ value = some a) ∨
      (∃ e, p input = .error e) ∧ rest = input ∧ value = none := by
  rw [IResult.opt] at h
  cases hp : p input with
  | ok rest' a =>
    rw [hp] at h
    cases h
    exact Or.inl ⟨a, rfl, rfl⟩
  | error e =>
    rw [hp] at h
    cases h
    exact Or.inr ⟨⟨e, rfl⟩, rfl, rfl⟩
  | incomplete =>
    rw [hp] at h
    cases h

theorem Streams.opt (hp : Streams p) : Streams (IResult.opt p) where
  ok_append h more := by
    rcases opt_eq_ok h with ⟨a, ha, rfl⟩ | ⟨⟨e, he⟩, rfl, rfl⟩
    · rw [IResult.opt, hp.ok_append ha more]
    · obtain ⟨e', he'⟩ := hp.error_append he more
      rw [IResult.opt, he']
  error_append h := absurd h (opt_ne_error _ _)
  suffix h := by
    rcases opt_eq_ok h with ⟨a, ha, rfl⟩ | ⟨_, rfl, rfl⟩
    · exact hp.suffix ha
    · exact List.suffix_rfl

end Optional

section Choice

variable {p q : List τ → IResult τ ε α}

theorem orElse_of_error {input : List τ} {e : ε} (h : p input = .error e) :
    IResult.orElse p q input = q input := by
  rw [IResult.orElse, h]

theorem orElse_eq_ok {input rest : List τ} {value : α} :
    IResult.orElse p q input = .ok rest value ↔
      p input = .ok rest value ∨ (∃ e, p input = .error e) ∧ q input = .ok rest value := by
  rw [IResult.orElse]
  cases p input with
  | ok rest' value' =>
    exact ⟨Or.inl, fun h => h.elim id fun h => by obtain ⟨⟨e, he⟩, _⟩ := h; cases he⟩
  | error e =>
    exact ⟨fun h => Or.inr ⟨⟨e, rfl⟩, h⟩, fun h => h.elim nofun And.right⟩
  | incomplete =>
    exact ⟨nofun, fun h => h.elim nofun fun h => by obtain ⟨⟨e, he⟩, _⟩ := h; cases he⟩

theorem Streams.orElse (hp : Streams p) (hq : Streams q) : Streams (IResult.orElse p q) where
  ok_append h more := by
    rcases orElse_eq_ok.mp h with h | ⟨⟨e, he⟩, h⟩
    · exact orElse_eq_ok.mpr (Or.inl (hp.ok_append h more))
    · exact orElse_eq_ok.mpr (Or.inr ⟨hp.error_append he more, hq.ok_append h more⟩)
  error_append := by
    intro input e h more
    cases hfirst : p input with
    | ok rest value =>
      rw [IResult.orElse, hfirst] at h
      cases h
    | error e' =>
      rw [orElse_of_error hfirst] at h
      obtain ⟨e'', he''⟩ := hp.error_append hfirst more
      rw [orElse_of_error he'']
      exact hq.error_append h more
    | incomplete =>
      rw [IResult.orElse, hfirst] at h
      cases h
  suffix h := by
    rcases orElse_eq_ok.mp h with h | ⟨_, h⟩
    · exact hp.suffix h
    · exact hq.suffix h

theorem orElse_ne_error {input : List τ} (h : (∀ e, p input ≠ .error e) ∨ ∀ e, q input ≠ .error e)
    (e : ε) : IResult.orElse p q input ≠ .error e := by
  intro herror
  cases hp : p input with
  | ok rest value =>
    rw [IResult.orElse, hp] at herror
    cases herror
  | error e' =>
    rw [orElse_of_error hp] at herror
    exact h.elim (fun h => h e' hp) fun h => h e herror
  | incomplete =>
    rw [IResult.orElse, hp] at herror
    cases herror

theorem Consumes.orElse (hp : Consumes p) (hq : Consumes q) : Consumes (IResult.orElse p q) := by
  intro input rest value h
  rcases orElse_eq_ok.mp h with h | ⟨_, h⟩
  · exact hp _ _ _ h
  · exact hq _ _ _ h

end Choice

/-! ### Running a parser as far as the input goes -/

section Run

variable {p : List τ → IResult τ ε α} {step : σ → α → σ}

/-- The parser is run again on what it left, and the state takes each value. -/
def runs (p : List τ → IResult τ ε α) (step : σ → α → σ) (s : σ) (input : List τ) :
    σ × List τ :=
  match p input with
  | .ok rest value =>
    if rest.length < input.length then runs p step (step s value) rest else (s, input)
  | _ => (s, input)
termination_by input.length

theorem runs_of_ok {s : σ} {input rest : List τ} {value : α} (hp : Consumes p)
    (h : p input = .ok rest value) : runs p step s input = runs p step (step s value) rest := by
  rw [runs, h]
  exact if_pos (hp _ _ _ h)

theorem runs_of_incomplete {s : σ} {input : List τ} (h : p input = .incomplete) :
    runs p step s input = (s, input) := by
  rw [runs, h]

end Run

end Theory
