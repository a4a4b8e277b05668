import HeliosLite.Theory.Streaming
import Mathlib.Data.List.TakeWhile

/-!
# The parser combinators of `nom`

The functions that `crates/forge_eventsource_stream/src/parser.rs` takes from the `nom`
crate, with what they document, and the rules by which the parsers built from them keep
their answers when more text arrives.

## Main definitions

* `Nom` — the functions and their laws
* `Nom.reference` — functions that obey them

## Main results

* `streams_takeWhile`, `streams_takeWhile1`, `streams_takeOne` — the streaming forms
-/

namespace HeliosLite.EventSource

open Theory

/-- The functions of the `nom` crate, in their streaming form unless it says otherwise. -/
class Nom where
  Error : Type
  /-- `Error::new(text, ErrorKind::TooLarge)`. -/
  tooLarge : String → Error
  tag : List Char → List Char → IResult Char Error (List Char)
  takeWhile : (Char → Bool) → List Char → IResult Char Error (List Char)
  takeWhile1 : (Char → Bool) → List Char → IResult Char Error (List Char)
  takeWhileMN : (m n : ℕ) → (Char → Bool) → List Char → IResult Char Error (List Char)
  takeWhileMNComplete : (m n : ℕ) → (Char → Bool) → List Char → IResult Char Error (List Char)
  opt {α : Type} : (List Char → IResult Char Error α) → List Char → IResult Char Error (Option α)
  pair {α β : Type} : (List Char → IResult Char Error α) → (List Char → IResult Char Error β) →
    List Char → IResult Char Error (α × β)
  preceded {α β : Type} : (List Char → IResult Char Error α) →
    (List Char → IResult Char Error β) → List Char → IResult Char Error β
  terminated {α β : Type} : (List Char → IResult Char Error α) →
    (List Char → IResult Char Error β) → List Char → IResult Char Error α
  alt {α : Type} : List (List Char → IResult Char Error α) → List Char → IResult Char Error α
  tag_ok : ∀ t rest, tag t (t ++ rest) = .ok rest t
  /-- The input ends within the tag. -/
  tag_incomplete : ∀ t input, input <+: t → input ≠ t → tag t input = .incomplete
  tag_error : ∀ t input, ¬ t <+: input → ¬ input <+: t → ∃ e, tag t input = .error e
  takeWhile_ok : ∀ cond run next rest, (∀ c ∈ run, cond c) → cond next = false →
    takeWhile cond (run ++ next :: rest) = .ok (next :: rest) run
  /-- What follows might belong to the run as well. -/
  takeWhile_incomplete : ∀ cond input, (∀ c ∈ input, cond c) → takeWhile cond input = .incomplete
  takeWhile1_ok : ∀ cond run next rest, run ≠ [] → (∀ c ∈ run, cond c) → cond next = false →
    takeWhile1 cond (run ++ next :: rest) = .ok (next :: rest) run
  takeWhile1_incomplete : ∀ cond input, (∀ c ∈ input, cond c) →
    takeWhile1 cond input = .incomplete
  takeWhile1_error : ∀ cond next rest, cond next = false →
    ∃ e, takeWhile1 cond (next :: rest) = .error e
  takeWhileMN_ok : ∀ m n cond run next rest, m ≤ run.length → run.length ≤ n →
    (∀ c ∈ run, cond c) → run.length = n ∨ cond next = false →
    takeWhileMN m n cond (run ++ next :: rest) = .ok (next :: rest) run
  takeWhileMN_error : ∀ m n cond run next rest, m ≤ n → run.length < m →
    (∀ c ∈ run, cond c) → cond next = false →
    ∃ e, takeWhileMN m n cond (run ++ next :: rest) = .error e
  /-- At the end of the input it waits, unless the run is as long as it may be. -/
  takeWhileMN_end : ∀ m n cond run, (∀ c ∈ run, cond c) → run.length ≤ n →
    takeWhileMN m n cond run = .incomplete ∨
      run.length = n ∧ takeWhileMN m n cond run = .ok [] run
  takeWhileMNComplete_ok : ∀ m n cond run rest, m ≤ run.length → run.length ≤ n →
    (∀ c ∈ run, cond c) → run.length = n ∨ (∀ c ∈ rest.head?, cond c = false) →
    takeWhileMNComplete m n cond (run ++ rest) = .ok rest run
  takeWhileMNComplete_error : ∀ m n cond run rest, m ≤ n → run.length < m →
    (∀ c ∈ run, cond c) → (∀ c ∈ rest.head?, cond c = false) →
    ∃ e, takeWhileMNComplete m n cond (run ++ rest) = .error e
  opt_eq : ∀ {α : Type} (p : List Char → IResult Char Error α), opt p = IResult.opt p
  pair_eq : ∀ {α β : Type} (p : List Char → IResult Char Error α)
    (q : List Char → IResult Char Error β),
    pair p q = IResult.andThen p fun a => IResult.andThen q fun b input => .ok input (a, b)
  preceded_eq : ∀ {α β : Type} (p : List Char → IResult Char Error α)
    (q : List Char → IResult Char Error β), preceded p q = IResult.andThen p fun _ => q
  terminated_eq : ∀ {α β : Type} (p : List Char → IResult Char Error α)
    (q : List Char → IResult Char Error β),
    terminated p q = IResult.andThen p fun a => IResult.andThen q fun _ input => .ok input a
  alt_singleton : ∀ {α : Type} (p : List Char → IResult Char Error α), alt [p] = p
  alt_cons : ∀ {α : Type} (p q : List Char → IResult Char Error α)
    (ps : List (List Char → IResult Char Error α)),
    alt (p :: q :: ps) = IResult.orElse p (alt (q :: ps))

/-! ### Functions that obey the laws -/

section Reference

/-- The first parser that finds no error answers. -/
def Nom.firstOf {ε α : Type} (e : ε) :
    List (List Char → IResult Char ε α) → List Char → IResult Char ε α
  | [] => fun _ => .error e
  | [p] => p
  | p :: q :: ps => IResult.orElse p (firstOf e (q :: ps))

/-- The run of a kind that stands in front, no longer than `n`. -/
def Nom.front (n : ℕ) (cond : Char → Bool) (input : List Char) : List Char :=
  (input.takeWhile cond).take n

variable {cond : Char → Bool} {run rest : List Char} {next : Char} {m n : ℕ}

theorem Nom.front_append (hrun : ∀ c ∈ run, cond c = true) (hn : run.length ≤ n)
    (h : run.length = n ∨ ∀ c ∈ rest.head?, cond c = false) :
    Nom.front n cond (run ++ rest) = run := by
  rw [Nom.front, List.takeWhile_append_of_pos hrun]
  rcases h with rfl | hrest
  · exact List.take_left
  · have hnil : rest.takeWhile cond = [] := by
      cases rest with
      | nil => rfl
      | cons c rest => rw [List.takeWhile_cons, hrest c rfl]; rfl
    rw [hnil, List.append_nil, List.take_of_length_le hn]

theorem Nom.head_of_next {c : Char} (hnext : cond next = false)
    (hc : c ∈ (next :: rest).head?) : cond c = false := by
  rw [List.head?_cons, Option.mem_some_iff] at hc
  exact hc ▸ hnext

theorem Nom.dropWhile_append (hrun : ∀ c ∈ run, cond c = true) (hnext : cond next = false) :
    (run ++ next :: rest).dropWhile cond = next :: rest := by
  rw [List.dropWhile_append_of_pos hrun, List.dropWhile_cons, hnext]
  rfl

theorem Nom.takeWhile_append (hrun : ∀ c ∈ run, cond c = true) (hnext : cond next = false) :
    (run ++ next :: rest).takeWhile cond = run := by
  rw [List.takeWhile_append_of_pos hrun, List.takeWhile_cons, hnext]
  exact List.append_nil run

/-- The combinators as plain functions on lists. -/
@[reducible] def Nom.reference : Nom where
  Error := String
  tooLarge := id
  tag t input :=
    if t <+: input then .ok (input.drop t.length) t
    else if input <+: t then .incomplete else .error "Tag"
  takeWhile cond input :=
    match input.dropWhile cond with
    | [] => .incomplete
    | next :: rest => .ok (next :: rest) (input.takeWhile cond)
  takeWhile1 cond input :=
    match input.dropWhile cond with
    | [] => .incomplete
    | next :: rest =>
      if input.takeWhile cond = [] then .error "TakeWhile1"
      else .ok (next :: rest) (input.takeWhile cond)
  takeWhileMN m n cond input :=
    match input.drop (Nom.front n cond input).length with
    | [] => .incomplete
    | next :: rest =>
      if (Nom.front n cond input).length < m then .error "TakeWhileMN"
      else .ok (next :: rest) (Nom.front n cond input)
  takeWhileMNComplete m n cond input :=
    if (Nom.front n cond input).length < m then .error "TakeWhileMN"
    else .ok (input.drop (Nom.front n cond input).length) (Nom.front n cond input)
  opt := IResult.opt
  pair p q := IResult.andThen p fun a => IResult.andThen q fun b input => .ok input (a, b)
  preceded p q := IResult.andThen p fun _ => q
  terminated p q := IResult.andThen p fun a => IResult.andThen q fun _ input => .ok input a
  alt := Nom.firstOf "Alt"
  tag_ok t rest := by
    rw [if_pos (List.prefix_append t rest), List.drop_left]
  tag_incomplete t input hfront hne := by
    rw [if_neg fun h => hne (hfront.eq_of_length_le h.length_le), if_pos hfront]
  tag_error t input h h' := ⟨"Tag", by rw [if_neg h, if_neg h']⟩
  takeWhile_ok cond run next rest hrun hnext := by
    rw [Nom.dropWhile_append hrun hnext, Nom.takeWhile_append hrun hnext]
  takeWhile_incomplete cond input hall := by
    rw [List.dropWhile_eq_nil_iff.mpr hall]
  takeWhile1_ok cond run next rest hne hrun hnext := by
    rw [Nom.dropWhile_append hrun hnext, Nom.takeWhile_append hrun hnext]
    exact if_neg hne
  takeWhile1_incomplete cond input hall := by
    rw [List.dropWhile_eq_nil_iff.mpr hall]
  takeWhile1_error cond next rest hnext := by
    refine ⟨"TakeWhile1", ?_⟩
    rw [List.dropWhile_cons, List.takeWhile_cons, hnext]
    rfl
  takeWhileMN_ok m n cond run next rest hm hn hrun h := by
    rw [Nom.front_append hrun hn (h.imp_right fun h _ => Nom.head_of_next h),
      List.drop_left]
    exact if_neg (Nat.not_lt.mpr hm)
  takeWhileMN_error m n cond run next rest hmn hm hrun hnext := by
    refine ⟨"TakeWhileMN", ?_⟩
    rw [Nom.front_append hrun (hm.le.trans hmn) (Or.inr fun _ => Nom.head_of_next hnext),
      List.drop_left]
    exact if_pos hm
  takeWhileMN_end m n cond run hrun hn := by
    have hfront : Nom.front n cond run = run := by
      rw [Nom.front, List.takeWhile_eq_self_iff.mpr hrun, List.take_of_length_le hn]
    rw [hfront, List.drop_length]
    exact Or.inl rfl
  takeWhileMNComplete_ok m n cond run rest hm hn hrun h := by
    rw [Nom.front_append hrun hn h, if_neg (Nat.not_lt.mpr hm), List.drop_left]
  takeWhileMNComplete_error m n cond run rest hmn hm hrun hrest := by
    refine ⟨"TakeWhileMN", ?_⟩
    rw [Nom.front_append hrun (hm.le.trans hmn) (Or.inr hrest), if_pos hm]
  opt_eq _ := rfl
  pair_eq _ _ := rfl
  preceded_eq _ _ := rfl
  terminated_eq _ _ := rfl
  alt_singleton _ := rfl
  alt_cons _ _ _ := rfl

end Reference

/-! ### Runs of characters -/

/-- A text is all of one kind, or a run of that kind before something else. -/
theorem all_or_split (cond : Char → Bool) (input : List Char) :
    (∀ c ∈ input, cond c) ∨
      ∃ run next rest, input = run ++ next :: rest ∧ (∀ c ∈ run, cond c) ∧ cond next = false := by
  induction input with
  | nil => exact Or.inl fun _ h => absurd h List.not_mem_nil
  | cons c input ih =>
    cases hc : cond c with
    | false => exact Or.inr ⟨[], c, input, rfl, fun _ h => absurd h List.not_mem_nil, hc⟩
    | true =>
      rcases ih with hall | ⟨run, next, rest, rfl, hrun, hnext⟩
      · exact Or.inl (List.forall_mem_cons.mpr ⟨hc, hall⟩)
      · exact Or.inr ⟨c :: run, next, rest, rfl, List.forall_mem_cons.mpr ⟨hc, hrun⟩, hnext⟩

variable [Nom] {input rest : List Char} {cond : Char → Bool} {c : Char}

/-- A parser over the text in the buffer. -/
abbrev Parser (α : Type) := List Char → IResult Char Nom.Error α

theorem takeWhile_eq_ok {value : List Char} (h : Nom.takeWhile cond input = .ok rest value) :
    ∃ next tail, rest = next :: tail ∧ input = value ++ next :: tail ∧ (∀ c ∈ value, cond c) ∧
      cond next = false := by
  rcases all_or_split cond input with hall | ⟨run, next, tail, rfl, hrun, hnext⟩
  · rw [Nom.takeWhile_incomplete cond input hall] at h
    cases h
  · rw [Nom.takeWhile_ok cond run next tail hrun hnext] at h
    cases h
    exact ⟨next, tail, rfl, rfl, hrun, hnext⟩

theorem takeWhile_ne_error (cond : Char → Bool) (input : List Char) (e : Nom.Error) :
    Nom.takeWhile cond input ≠ .error e := by
  rcases all_or_split cond input with hall | ⟨run, next, tail, rfl, hrun, hnext⟩
  · rw [Nom.takeWhile_incomplete cond input hall]
    exact nofun
  · rw [Nom.takeWhile_ok cond run next tail hrun hnext]
    exact nofun

theorem streams_takeWhile (cond : Char → Bool) : Streams (Nom.takeWhile cond) where
  ok_append h more := by
    obtain ⟨next, tail, rfl, rfl, hrun, hnext⟩ := takeWhile_eq_ok h
    rw [List.append_assoc]
    exact Nom.takeWhile_ok cond _ next (tail ++ more) hrun hnext
  error_append h := absurd h (takeWhile_ne_error cond _ _)
  suffix h := by
    obtain ⟨next, tail, rfl, rfl, _, _⟩ := takeWhile_eq_ok h
    exact List.suffix_append _ _

theorem takeWhile1_eq_ok {value : List Char} (h : Nom.takeWhile1 cond input = .ok rest value) :
    ∃ next tail, rest = next :: tail ∧ input = value ++ next :: tail ∧ value ≠ [] ∧
      (∀ c ∈ value, cond c) ∧ cond next = false := by
  rcases all_or_split cond input with hall | ⟨run, next, tail, rfl, hrun, hnext⟩
  · rw [Nom.takeWhile1_incomplete cond input hall] at h
    cases h
  · cases run with
    | nil =>
      obtain ⟨e, he⟩ := Nom.takeWhile1_error cond next tail hnext
      rw [List.nil_append, he] at h
      cases h
    | cons c run =>
      rw [Nom.takeWhile1_ok cond (c :: run) next tail nofun hrun hnext] at h
      cases h
      exact ⟨next, tail, rfl, rfl, nofun, hrun, hnext⟩

theorem takeWhile1_eq_error {e : Nom.Error} (h : Nom.takeWhile1 cond input = .error e) :
    ∃ next tail, input = next :: tail ∧ cond next = false := by
  rcases all_or_split cond input with hall | ⟨run, next, tail, rfl, hrun, hnext⟩
  · rw [Nom.takeWhile1_incomplete cond input hall] at h
    cases h
  · cases run with
    | nil => exact ⟨next, tail, rfl, hnext⟩
    | cons c run =>
      rw [Nom.takeWhile1_ok cond (c :: run) next tail nofun hrun hnext] at h
      cases h

theorem streams_takeWhile1 (cond : Char → Bool) : Streams (Nom.takeWhile1 cond) where
  ok_append h more := by
    obtain ⟨next, tail, rfl, rfl, hne, hrun, hnext⟩ := takeWhile1_eq_ok h
    rw [List.append_assoc]
    exact Nom.takeWhile1_ok cond _ next (tail ++ more) hne hrun hnext
  error_append h more := by
    obtain ⟨next, tail, rfl, hnext⟩ := takeWhile1_eq_error h
    exact Nom.takeWhile1_error cond next (tail ++ more) hnext
  suffix h := by
    obtain ⟨next, tail, rfl, rfl, _⟩ := takeWhile1_eq_ok h
    exact List.suffix_append _ _

theorem consumes_takeWhile1 (cond : Char → Bool) : Consumes (Nom.takeWhile1 cond) := by
  intro input rest value h
  obtain ⟨next, tail, rfl, rfl, hne, _⟩ := takeWhile1_eq_ok h
  rw [List.length_append]
  exact Nat.lt_add_of_pos_left (List.length_pos_iff.mpr hne)

theorem takeOne_nil (cond : Char → Bool) : Nom.takeWhileMN 1 1 cond [] = .incomplete := by
  rcases Nom.takeWhileMN_end 1 1 cond [] (fun _ h => absurd h List.not_mem_nil)
    (Nat.zero_le 1) with hend | ⟨hend, _⟩
  · exact hend
  · cases hend

/-- A single character; whether it waits for the one behind is left open. -/
theorem takeOne_of_cond (hc : cond c = true) (tail : List Char) :
    Nom.takeWhileMN 1 1 cond (c :: tail) = .ok tail [c] ∨
      tail = [] ∧ Nom.takeWhileMN 1 1 cond (c :: tail) = .incomplete := by
  have hrun : ∀ d ∈ [c], cond d = true := fun d hd => List.mem_singleton.mp hd ▸ hc
  cases tail with
  | nil =>
    rcases Nom.takeWhileMN_end 1 1 cond [c] hrun (Nat.le_refl 1) with hend | ⟨_, hend⟩
    · exact Or.inr ⟨rfl, hend⟩
    · exact Or.inl hend
  | cons next tail =>
    exact Or.inl (Nom.takeWhileMN_ok 1 1 cond [c] next tail (Nat.le_refl 1) (Nat.le_refl 1)
      hrun (Or.inl rfl))

theorem takeOne_of_not_cond (hc : cond c = false) (tail : List Char) :
    ∃ e, Nom.takeWhileMN 1 1 cond (c :: tail) = .error e :=
  Nom.takeWhileMN_error 1 1 cond [] c tail (Nat.le_refl 1) Nat.one_pos
    (fun _ h => absurd h List.not_mem_nil) hc

theorem takeOne_eq_ok {value : List Char} (h : Nom.takeWhileMN 1 1 cond input = .ok rest value) :
    ∃ c, input = c :: rest ∧ value = [c] ∧ cond c = true := by
  cases input with
  | nil =>
    rw [takeOne_nil] at h
    cases h
  | cons c tail =>
    cases hc : cond c with
    | false =>
      obtain ⟨e, he⟩ := takeOne_of_not_cond hc tail
      rw [he] at h
      cases h
    | true =>
      rcases takeOne_of_cond hc tail with hok | ⟨_, hend⟩
      · rw [hok] at h
        cases h
        exact ⟨c, rfl, rfl, hc⟩
      · rw [hend] at h
        cases h

theorem takeOne_eq_error {e : Nom.Error} (h : Nom.takeWhileMN 1 1 cond input = .error e) :
    ∃ c tail, input = c :: tail ∧ cond c = false := by
  cases input with
  | nil =>
    rw [takeOne_nil] at h
    cases h
  | cons c tail =>
    cases hc : cond c with
    | false => exact ⟨c, tail, rfl, hc⟩
    | true =>
      rcases takeOne_of_cond hc tail with hok | ⟨_, hend⟩
      · rw [hok] at h
        cases h
      · rw [hend] at h
        cases h

theorem streams_takeOne (cond : Char → Bool) : Streams (Nom.takeWhileMN 1 1 cond) where
  ok_append h more := by
    obtain ⟨c, rfl, rfl, hc⟩ := takeOne_eq_ok h
    rcases takeOne_of_cond hc (_ ++ more) with hok | ⟨hnil, _⟩
    · exact hok
    · obtain ⟨rfl, rfl⟩ := List.append_eq_nil_iff.mp hnil
      exact h
  error_append h more := by
    obtain ⟨c, tail, rfl, hc⟩ := takeOne_eq_error h
    exact takeOne_of_not_cond hc (tail ++ more)
  suffix h := by
    obtain ⟨c, rfl, _, _⟩ := takeOne_eq_ok h
    exact List.suffix_cons _ _

theorem consumes_takeOne (cond : Char → Bool) : Consumes (Nom.takeWhileMN 1 1 cond) := by
  intro input rest value h
  obtain ⟨c, rfl, _, _⟩ := takeOne_eq_ok h
  exact Nat.lt_succ_self _

theorem takeOneComplete_of_cond (hc : cond c = true) (tail : List Char) :
    Nom.takeWhileMNComplete 1 1 cond (c :: tail) = .ok tail [c] :=
  Nom.takeWhileMNComplete_ok 1 1 cond [c] tail (Nat.le_refl 1) (Nat.le_refl 1)
    (fun _ hd => List.mem_singleton.mp hd ▸ hc) (Or.inl rfl)

theorem takeOneComplete_of_not_cond (hc : cond c = false) (tail : List Char) :
    ∃ e, Nom.takeWhileMNComplete 1 1 cond (c :: tail) = .error e := by
  apply Nom.takeWhileMNComplete_error 1 1 cond [] (c :: tail) (Nat.le_refl 1) Nat.one_pos
    (fun _ h => absurd h List.not_mem_nil)
  intro d hd
  rw [List.head?_cons, Option.mem_some_iff] at hd
  exact hd ▸ hc

/-! ### Combinations -/

theorem streams_preceded {α β : Type} {p : Parser α} {q : Parser β} (hp : Streams p)
    (hq : Streams q) : Streams (Nom.preceded p q) := by
  rw [Nom.preceded_eq]
  exact hp.andThen fun _ => hq

theorem streams_terminated {α β : Type} {p : Parser α} {q : Parser β} (hp : Streams p)
    (hq : Streams q) : Streams (Nom.terminated p q) := by
  rw [Nom.terminated_eq]
  exact hp.andThen fun a => hq.andThen fun _ => streams_pure a

theorem streams_pair {α β : Type} {p : Parser α} {q : Parser β} (hp : Streams p)
    (hq : Streams q) : Streams (Nom.pair p q) := by
  rw [Nom.pair_eq]
  exact hp.andThen fun a => hq.andThen fun b => streams_pure (a, b)

theorem streams_opt {α : Type} {p : Parser α} (hp : Streams p) : Streams (Nom.opt p) := by
  rw [Nom.opt_eq]
  exact hp.opt

end HeliosLite.EventSource
