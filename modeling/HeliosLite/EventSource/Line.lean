import HeliosLite.EventSource.Nom

/-!
# The lines of an event stream

The line parser of `crates/forge_eventsource_stream/src/parser.rs`. A line is taken from the text
that has arrived; a carriage return at the very end has to wait, for a line feed may follow.

## Main definitions

* `line` — a comment, a field or an empty line

## Main results

* `streams_line`, `consumes_line` — text that arrives later changes no line
* `line_ne_error` — no text is refused
-/

namespace HeliosLite.EventSource

open Theory

inductive RawEventLine where
  | comment (text : List Char)
  | field (name : List Char) (value : Option (List Char))
  | empty

def isLf (c : Char) : Bool := c = '\n'

def isCr (c : Char) : Bool := c = '\r'

def isSpace (c : Char) : Bool := c = ' '

def isColon (c : Char) : Bool := c = ':'

def isBom (c : Char) : Bool := c = '\uFEFF'

def isNameChar (c : Char) : Bool :=
  c.toNat ≤ 0x9 || (0xB ≤ c.toNat && c.toNat ≤ 0xC) || (0xE ≤ c.toNat && c.toNat ≤ 0x39) ||
    (0x3B ≤ c.toNat && c.toNat ≤ 0x10FFFF)

def isAnyChar (c : Char) : Bool :=
  c.toNat ≤ 0x9 || (0xB ≤ c.toNat && c.toNat ≤ 0xC) || (0xE ≤ c.toNat && c.toNat ≤ 0x10FFFF)

theorem toNat_lt (c : Char) : c.toNat < 0x110000 := by
  rcases c.valid with h | ⟨_, h⟩
  · exact Nat.lt_trans h (by decide)
  · exact h

theorem eq_of_not_isNameChar {c : Char} (h : isNameChar c = false) :
    c = '\r' ∨ c = '\n' ∨ c = ':' := by
  have hcr : '\r'.toNat = 13 := rfl
  have hlf : '\n'.toNat = 10 := rfl
  have hcolon : ':'.toNat = 58 := rfl
  have hmax := toNat_lt c
  rw [← Char.toNat_inj, ← Char.toNat_inj, ← Char.toNat_inj, hcr, hlf, hcolon]
  rw [isNameChar] at h
  simp only [Bool.or_eq_false_iff, Bool.and_eq_false_iff, decide_eq_false_iff_not] at h
  omega

theorem eq_of_not_isAnyChar {c : Char} (h : isAnyChar c = false) : c = '\r' ∨ c = '\n' := by
  have hcr : '\r'.toNat = 13 := rfl
  have hlf : '\n'.toNat = 10 := rfl
  have hmax := toNat_lt c
  rw [← Char.toNat_inj, ← Char.toNat_inj, hcr, hlf]
  rw [isAnyChar] at h
  simp only [Bool.or_eq_false_iff, Bool.and_eq_false_iff, decide_eq_false_iff_not] at h
  omega

theorem not_prefix_of_ne_cr {c : Char} (hc : c ≠ '\r') (tail : List Char) :
    (¬ c :: tail <+: ['\r', '\n']) ∧ ¬ ['\r', '\n'] <+: c :: tail := by
  rw [List.cons_prefix_cons, List.cons_prefix_cons]
  exact ⟨fun h => hc h.1, fun h => hc h.1.symm⟩

variable [Nom]

def crlf : Parser (List Char) := Nom.tag ['\r', '\n']

def endOfLine : Parser (List Char) :=
  Nom.alt [crlf, Nom.takeWhileMNComplete 1 1 isCr, Nom.takeWhileMNComplete 1 1 isLf]

def comment : Parser RawEventLine :=
  IResult.andThen
    (Nom.preceded (Nom.takeWhileMN 1 1 isColon)
      (Nom.terminated (Nom.takeWhile isAnyChar) endOfLine))
    fun comment input => .ok input (.comment comment)

def field : Parser RawEventLine :=
  IResult.andThen
    (Nom.terminated
      (Nom.pair (Nom.takeWhile1 isNameChar)
        (Nom.opt
          (Nom.preceded (Nom.takeWhileMN 1 1 isColon)
            (Nom.preceded (Nom.opt (Nom.takeWhileMN 1 1 isSpace)) (Nom.takeWhile isAnyChar)))))
      endOfLine)
    fun a input => .ok input (.field a.1 a.2)

def empty : Parser RawEventLine :=
  IResult.andThen endOfLine fun _ input => .ok input .empty

def line : Parser RawEventLine := Nom.alt [comment, field, empty]

variable {input rest : List Char} {cond : Char → Bool} {c : Char}

/-! ### The end of a line -/

theorem endOfLine_nil : endOfLine ([] : List Char) = .incomplete := by
  have hcrlf : crlf ([] : List Char) = .incomplete :=
    Nom.tag_incomplete ['\r', '\n'] [] List.nil_prefix nofun
  rw [endOfLine, Nom.alt_cons, IResult.orElse, hcrlf]

/-- A carriage return that ends the text waits for what follows. -/
theorem endOfLine_cr : endOfLine ['\r'] = .incomplete := by
  have hcrlf : crlf ['\r'] = .incomplete :=
    Nom.tag_incomplete ['\r', '\n'] ['\r'] ⟨['\n'], rfl⟩ (by decide)
  rw [endOfLine, Nom.alt_cons, IResult.orElse, hcrlf]

theorem endOfLine_crlf (tail : List Char) :
    endOfLine ('\r' :: '\n' :: tail) = .ok tail ['\r', '\n'] := by
  have hcrlf : crlf ('\r' :: '\n' :: tail) = .ok tail ['\r', '\n'] :=
    Nom.tag_ok ['\r', '\n'] tail
  rw [endOfLine, Nom.alt_cons, IResult.orElse, hcrlf]

/-- Where no line feed can be joined to a carriage return, one character is read. -/
theorem endOfLine_of_not_crlf {tail : List Char} (h : ¬ c :: tail <+: ['\r', '\n'])
    (h' : ¬ ['\r', '\n'] <+: c :: tail) :
    endOfLine (c :: tail) =
      IResult.orElse (Nom.takeWhileMNComplete 1 1 isCr) (Nom.takeWhileMNComplete 1 1 isLf)
        (c :: tail) := by
  obtain ⟨e, he⟩ := Nom.tag_error ['\r', '\n'] (c :: tail) h' h
  have hcrlf : crlf (c :: tail) = .error e := he
  rw [endOfLine, Nom.alt_cons, orElse_of_error hcrlf, Nom.alt_cons, Nom.alt_singleton]

theorem endOfLine_cr_cons {next : Char} (hnext : next ≠ '\n') (tail : List Char) :
    endOfLine ('\r' :: next :: tail) = .ok (next :: tail) ['\r'] := by
  rw [endOfLine_of_not_crlf, IResult.orElse, takeOneComplete_of_cond rfl]
  · intro hprefix
    rw [List.cons_prefix_cons, List.cons_prefix_cons] at hprefix
    exact hnext hprefix.2.1
  · intro hprefix
    rw [List.cons_prefix_cons, List.cons_prefix_cons] at hprefix
    exact hnext hprefix.2.1.symm

theorem endOfLine_lf (tail : List Char) : endOfLine ('\n' :: tail) = .ok tail ['\n'] := by
  obtain ⟨h, h'⟩ := not_prefix_of_ne_cr (show '\n' ≠ '\r' by decide) tail
  obtain ⟨e, he⟩ := takeOneComplete_of_not_cond (show isCr '\n' = false by decide) tail
  rw [endOfLine_of_not_crlf h h', orElse_of_error he, takeOneComplete_of_cond rfl]

theorem endOfLine_other (hcr : c ≠ '\r') (hlf : c ≠ '\n') (tail : List Char) :
    ∃ e, endOfLine (c :: tail) = .error e := by
  have hisCr : isCr c = false := decide_eq_false hcr
  have hisLf : isLf c = false := decide_eq_false hlf
  obtain ⟨h, h'⟩ := not_prefix_of_ne_cr hcr tail
  obtain ⟨e, he⟩ := takeOneComplete_of_not_cond hisCr tail
  rw [endOfLine_of_not_crlf h h', orElse_of_error he]
  exact takeOneComplete_of_not_cond hisLf tail

/-- The ways in which a line can end, or wait, or go on. -/
theorem endOfLine_cases (input : List Char) :
    endOfLine input = .incomplete ∨
      (∃ ending, ending ≠ [] ∧ ∃ rest, input = ending ++ rest ∧
        ∀ more, endOfLine (input ++ more) = .ok (rest ++ more) ending) ∨
      ∃ c tail, input = c :: tail ∧ c ≠ '\r' ∧ c ≠ '\n' := by
  cases input with
  | nil => exact Or.inl endOfLine_nil
  | cons c tail =>
    by_cases hcr : c = '\r'
    · subst hcr
      cases tail with
      | nil => exact Or.inl endOfLine_cr
      | cons next tail =>
        by_cases hlf : next = '\n'
        · subst hlf
          exact Or.inr (Or.inl ⟨['\r', '\n'], nofun, tail, rfl,
            fun more => endOfLine_crlf (tail ++ more)⟩)
        · exact Or.inr (Or.inl ⟨['\r'], nofun, next :: tail, rfl,
            fun more => endOfLine_cr_cons hlf (tail ++ more)⟩)
    · by_cases hlf : c = '\n'
      · subst hlf
        exact Or.inr (Or.inl ⟨['\n'], nofun, tail, rfl, fun more => endOfLine_lf (tail ++ more)⟩)
      · exact Or.inr (Or.inr ⟨c, tail, rfl, hcr, hlf⟩)

theorem endOfLine_eq_ok {value : List Char} (h : endOfLine input = .ok rest value) :
    value ≠ [] ∧ input = value ++ rest ∧
      ∀ more, endOfLine (input ++ more) = .ok (rest ++ more) value := by
  rcases endOfLine_cases input with hwait | ⟨ending, hne, rest', hinput, hall⟩ | ⟨c, tail, rfl, hc⟩
  · rw [hwait] at h
    cases h
  · have hnow := hall []
    rw [List.append_nil, List.append_nil, h] at hnow
    cases hnow
    exact ⟨hne, hinput, hall⟩
  · obtain ⟨e, he⟩ := endOfLine_other hc.1 hc.2 tail
    rw [he] at h
    cases h

theorem endOfLine_eq_error {e : Nom.Error} (h : endOfLine input = .error e) :
    ∃ c tail, input = c :: tail ∧ c ≠ '\r' ∧ c ≠ '\n' := by
  rcases endOfLine_cases input with hwait | ⟨ending, _, rest', _, hall⟩ | hother
  · rw [hwait] at h
    cases h
  · have hnow := hall []
    rw [List.append_nil, h] at hnow
    cases hnow
  · exact hother

theorem streams_endOfLine : Streams endOfLine where
  ok_append h := (endOfLine_eq_ok h).2.2
  error_append h more := by
    obtain ⟨c, tail, rfl, hcr, hlf⟩ := endOfLine_eq_error h
    exact endOfLine_other hcr hlf (tail ++ more)
  suffix h := by
    rw [(endOfLine_eq_ok h).2.1]
    exact List.suffix_append _ _

theorem consumes_endOfLine : Consumes endOfLine := by
  intro input rest value h
  obtain ⟨hne, hinput, _⟩ := endOfLine_eq_ok h
  rw [hinput, List.length_append]
  exact Nat.lt_add_of_pos_left (List.length_pos_iff.mpr hne)

/-! ### Lines -/

theorem line_eq : line = IResult.orElse comment (IResult.orElse field empty) := by
  rw [line, Nom.alt_cons, Nom.alt_cons, Nom.alt_singleton]

/-- What stands behind the name of a field. -/
def value : Parser (Option (List Char)) :=
  Nom.opt
    (Nom.preceded (Nom.takeWhileMN 1 1 isColon)
      (Nom.preceded (Nom.opt (Nom.takeWhileMN 1 1 isSpace)) (Nom.takeWhile isAnyChar)))

theorem streams_value : Streams value :=
  streams_opt (streams_preceded (streams_takeOne isColon)
    (streams_preceded (streams_opt (streams_takeOne isSpace)) (streams_takeWhile isAnyChar)))

theorem streams_comment : Streams comment :=
  Streams.map (streams_preceded (streams_takeOne isColon)
    (streams_terminated (streams_takeWhile isAnyChar) streams_endOfLine)) RawEventLine.comment

theorem streams_field : Streams field :=
  Streams.map (streams_terminated (streams_pair (streams_takeWhile1 isNameChar) streams_value)
    streams_endOfLine) fun a => RawEventLine.field a.1 a.2

theorem streams_empty : Streams empty :=
  streams_endOfLine.map fun _ => RawEventLine.empty

/-- Text that arrives later changes no line. -/
theorem streams_line : Streams line := by
  rw [line_eq]
  exact streams_comment.orElse (streams_field.orElse streams_empty)

theorem consumes_comment : Consumes comment := by
  have hparts : Consumes (Nom.preceded (Nom.takeWhileMN 1 1 isColon)
      (Nom.terminated (Nom.takeWhile isAnyChar) endOfLine)) := by
    rw [Nom.preceded_eq]
    exact (consumes_takeOne isColon).andThen fun _ =>
      streams_terminated (streams_takeWhile isAnyChar) streams_endOfLine
  exact hparts.andThen fun a => streams_pure (RawEventLine.comment a)

theorem consumes_field : Consumes field := by
  have hname : Consumes (Nom.pair (Nom.takeWhile1 isNameChar) value) := by
    rw [Nom.pair_eq]
    exact (consumes_takeWhile1 isNameChar).andThen fun a => streams_value.map fun b => (a, b)
  have hparts :
      Consumes (Nom.terminated (Nom.pair (Nom.takeWhile1 isNameChar) value) endOfLine) := by
    rw [Nom.terminated_eq]
    exact hname.andThen fun a => streams_endOfLine.map fun _ => a
  exact hparts.andThen fun a => streams_pure (RawEventLine.field a.1 a.2)

theorem consumes_empty : Consumes empty :=
  consumes_endOfLine.andThen fun _ => streams_pure RawEventLine.empty

/-- A line takes at least its end from the text. -/
theorem consumes_line : Consumes line := by
  rw [line_eq]
  exact consumes_comment.orElse (consumes_field.orElse consumes_empty)

/-! ### No text is refused -/

theorem endOfLine_ne_error {tail : List Char} (hc : c = '\r' ∨ c = '\n') (e : Nom.Error) :
    endOfLine (c :: tail) ≠ .error e := by
  intro h
  obtain ⟨d, tail', hd, hcr, hlf⟩ := endOfLine_eq_error h
  cases hd
  exact hc.elim hcr hlf

/-- Where a run of characters stops, the line ends. -/
theorem takeWhile_isAnyChar_stops {text : List Char}
    (h : Nom.takeWhile isAnyChar input = .ok rest text) :
    ∃ c tail, rest = c :: tail ∧ (c = '\r' ∨ c = '\n') := by
  obtain ⟨next, tail, rfl, _, _, hnext⟩ := takeWhile_eq_ok h
  exact ⟨next, tail, rfl, eq_of_not_isAnyChar hnext⟩

theorem comment_ne_error (tail : List Char) (e : Nom.Error) : comment (':' :: tail) ≠ .error e := by
  apply andThen_ne_error
  · rw [Nom.preceded_eq]
    apply andThen_ne_error
    · intro e
      rcases takeOne_of_cond (show isColon ':' = true by decide) tail with hok | ⟨_, hwait⟩
      · rw [hok]
        exact nofun
      · rw [hwait]
        exact nofun
    · intro between _ _
      rw [Nom.terminated_eq]
      apply andThen_ne_error (takeWhile_ne_error isAnyChar between)
      intro stop text hstop
      obtain ⟨c, tail', rfl, hc⟩ := takeWhile_isAnyChar_stops hstop
      exact andThen_ne_error (endOfLine_ne_error hc) fun _ _ _ => nofun
  · exact fun _ _ _ => nofun

/-- The line ends behind a value as well as where there is none. -/
theorem value_stops {next : Char} {tail : List Char} {data : Option (List Char)}
    (hnext : isNameChar next = false) (h : value (next :: tail) = .ok rest data) :
    ∃ c tail', rest = c :: tail' ∧ (c = '\r' ∨ c = '\n') := by
  rw [value, Nom.opt_eq, Nom.preceded_eq] at h
  rcases opt_eq_ok h with ⟨text, hsome, _⟩ | ⟨⟨e, hnone⟩, rfl, _⟩
  · obtain ⟨_, _, _, hafter⟩ := andThen_eq_ok.mp hsome
    rw [Nom.preceded_eq] at hafter
    obtain ⟨_, _, _, hrun⟩ := andThen_eq_ok.mp hafter
    exact takeWhile_isAnyChar_stops hrun
  · refine ⟨next, tail, rfl, ?_⟩
    rcases eq_of_not_isNameChar hnext with hcr | hlf | rfl
    · exact Or.inl hcr
    · exact Or.inr hlf
    -- behind a colon there is always a value
    · refine absurd hnone (andThen_ne_error ?_ ?_ e)
      · intro e
        rcases takeOne_of_cond (show isColon ':' = true by decide) tail with hok | ⟨_, hwait⟩
        · rw [hok]
          exact nofun
        · rw [hwait]
          exact nofun
      · intro between _ _
        rw [Nom.preceded_eq, Nom.opt_eq]
        exact andThen_ne_error (opt_ne_error between) fun _ _ _ => takeWhile_ne_error isAnyChar _

theorem field_ne_error {tail : List Char} (hc : isNameChar c = true) (e : Nom.Error) :
    field (c :: tail) ≠ .error e := by
  have hname : ∀ e, Nom.takeWhile1 isNameChar (c :: tail) ≠ .error e := by
    intro e h
    obtain ⟨next, tail', heq, hnext⟩ := takeWhile1_eq_error h
    cases heq
    rw [hc] at hnext
    cases hnext
  apply andThen_ne_error
  · rw [Nom.terminated_eq, Nom.pair_eq]
    apply andThen_ne_error
    · apply andThen_ne_error hname
      intro between _ _
      apply andThen_ne_error
      · rw [Nom.opt_eq]
        exact opt_ne_error between
      · exact fun _ _ _ => nofun
    · intro stop _ hstop
      obtain ⟨between, name, hbetween, hdata⟩ := andThen_eq_ok.mp hstop
      obtain ⟨rest', data, hvalue, hrest⟩ := andThen_eq_ok.mp hdata
      cases hrest
      obtain ⟨next, tail', rfl, _, _, _, hnext⟩ := takeWhile1_eq_ok hbetween
      obtain ⟨d, tail'', rfl, hd⟩ := value_stops hnext hvalue
      exact andThen_ne_error (endOfLine_ne_error hd) fun _ _ _ => nofun
  · exact fun _ _ _ => nofun

theorem empty_ne_error {tail : List Char} (hc : c = '\r' ∨ c = '\n') (e : Nom.Error) :
    empty (c :: tail) ≠ .error e := by
  apply andThen_ne_error (endOfLine_ne_error hc)
  exact fun _ _ _ => nofun

/-- No text is refused. -/
theorem line_ne_error (input : List Char) (e : Nom.Error) : line input ≠ .error e := by
  rw [line_eq]
  cases input with
  | nil =>
    apply orElse_ne_error (Or.inl _)
    intro e
    rw [comment, Nom.preceded_eq]
    apply andThen_ne_error _ fun _ _ _ => nofun
    apply andThen_ne_error
    · rw [takeOne_nil]
      exact fun _ => nofun
    · intro between _ h
      rw [takeOne_nil] at h
      cases h
  | cons c tail =>
    cases hc : isNameChar c with
    | true => exact orElse_ne_error (Or.inr (orElse_ne_error (Or.inl (field_ne_error hc)))) e
    | false =>
      rcases eq_of_not_isNameChar hc with hcr | hlf | rfl
      · exact orElse_ne_error (Or.inr (orElse_ne_error (Or.inr (empty_ne_error (Or.inl hcr))))) e
      · exact orElse_ne_error (Or.inr (orElse_ne_error (Or.inr (empty_ne_error (Or.inr hlf))))) e
      · exact orElse_ne_error (Or.inl (comment_ne_error tail)) e

end HeliosLite.EventSource
