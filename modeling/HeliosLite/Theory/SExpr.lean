import Mathlib.Data.List.Infix

/-!
# S-expressions

A text is read in two passes: a scan that cuts it into tokens character by character, and a pass
over the tokens that closes lists. Strings stand between double quotes, and a backslash in them
gives the next character another meaning; a semicolon starts a comment.

## Main definitions

* `SExpr` — atoms, strings and lists
* `scan`, `lex` — the tokens of a text
* `parse`, `readAll` — the expressions of a list of tokens, and of a text
* `literal` — the string that is read up to the next quote

## Main results

* `readAll_eq_some_iff` — what is read has exactly the tokens of the text
* `literal_eq_self_iff` — a text between quotes is read as itself if nothing in it is special
* `tokens_scan_str` — the token of a string that has been opened
-/

namespace Theory

inductive SExpr where
  | atom (name : String)
  | str (text : List Char)
  | list (items : List SExpr)
  deriving Repr

namespace SExpr

inductive Token where
  | lparen
  | rparen
  | atom (name : String)
  | str (text : List Char)
  deriving DecidableEq, Repr

/-! ### The scan -/

/-- Where the scan stands: between tokens, or in one. -/
inductive Mode where
  | blank
  | atom (name : List Char)
  | str (text : List Char)
  | escape (text : List Char)
  | comment
  deriving DecidableEq, Repr

structure Scanner where
  tokens : List Token
  mode : Mode
  deriving DecidableEq, Repr

/-- The meaning of a character after a backslash. -/
def unescape (c : Char) : Char :=
  if c = 'n' then '\n' else if c = 't' then '\t' else if c = 'r' then '\r'
  else if c = 'a' then '\x07' else c

theorem unescape_eq_backslash {c : Char} : unescape c = '\\' ↔ c = '\\' := by
  unfold unescape
  split_ifs with hn ht hr ha
  · simp [hn]
  · simp [ht]
  · simp [hr]
  · simp [ha]
  · rfl

/-- The characters that end an atom. -/
def isDelimiter (c : Char) : Bool :=
  c = '(' || c = ')' || c = '"' || c = ';' || c.isWhitespace

namespace Scanner

/-- A character after a token. -/
def start (tokens : List Token) (c : Char) : Scanner :=
  if c = '(' then ⟨tokens ++ [.lparen], .blank⟩
  else if c = ')' then ⟨tokens ++ [.rparen], .blank⟩
  else if c = '"' then ⟨tokens, .str []⟩
  else if c = ';' then ⟨tokens, .comment⟩
  else if c.isWhitespace then ⟨tokens, .blank⟩
  else ⟨tokens, .atom [c]⟩

def step (s : Scanner) (c : Char) : Scanner :=
  match s.mode with
  | .blank => start s.tokens c
  | .atom name =>
    if isDelimiter c then start (s.tokens ++ [.atom (String.ofList name)]) c
    else ⟨s.tokens, .atom (name ++ [c])⟩
  | .str text =>
    if c = '"' then ⟨s.tokens ++ [.str text], .blank⟩
    else if c = '\\' then ⟨s.tokens, .escape text⟩
    else ⟨s.tokens, .str (text ++ [c])⟩
  | .escape text => ⟨s.tokens, .str (text ++ [unescape c])⟩
  | .comment => ⟨s.tokens, if c = '\n' then .blank else .comment⟩

/-- The tokens at the end of the text, unless a string is still open. -/
def finish (s : Scanner) : Option (List Token) :=
  match s.mode with
  | .blank => some s.tokens
  | .atom name => some (s.tokens ++ [.atom (String.ofList name)])
  | .str _ => none
  | .escape _ => none
  | .comment => some s.tokens

/-- The scanner with tokens before its own. -/
def after (tokens : List Token) (s : Scanner) : Scanner := ⟨tokens ++ s.tokens, s.mode⟩

end Scanner

open Scanner

def scan (s : Scanner) (text : List Char) : Scanner := text.foldl Scanner.step s

def lex (text : List Char) : Option (List Token) := (scan ⟨[], .blank⟩ text).finish

theorem scan_append (s : Scanner) (l r : List Char) : scan s (l ++ r) = scan (scan s l) r :=
  List.foldl_append

@[simp] theorem scan_cons (s : Scanner) (c : Char) (text : List Char) :
    scan s (c :: text) = scan (s.step c) text := rfl

@[simp] theorem scan_nil (s : Scanner) : scan s [] = s := rfl

theorem start_after (ts us : List Token) (c : Char) :
    start (ts ++ us) c = (start us c).after ts := by
  unfold start
  split_ifs <;> simp [after]

theorem step_after (ts : List Token) (s : Scanner) (c : Char) :
    (s.after ts).step c = (s.step c).after ts := by
  obtain ⟨us, mode⟩ := s
  cases mode with
  | blank => exact start_after ts us c
  | atom name =>
    simp only [step, after, List.append_assoc]
    split_ifs
    · exact start_after ts _ c
    · rfl
  | str text =>
    simp only [step, after, List.append_assoc]
    split_ifs <;> rfl
  | escape text => rfl
  | comment => rfl

/-- Tokens that are already there do not change the scan. -/
theorem scan_after (ts : List Token) (s : Scanner) (text : List Char) :
    scan (s.after ts) text = (scan s text).after ts := by
  induction text generalizing s with
  | nil => rfl
  | cons c text ih => rw [scan_cons, step_after, ih, scan_cons]

theorem scan_blank (ts : List Token) (text : List Char) :
    scan ⟨ts, .blank⟩ text = (scan ⟨[], .blank⟩ text).after ts := by
  rw [← scan_after, after, List.append_nil]

theorem prefix_tokens_scan (s : Scanner) (text : List Char) :
    s.tokens <+: (scan s text).tokens := by
  have hscan := scan_after s.tokens ⟨[], s.mode⟩ text
  rw [after, List.append_nil] at hscan
  exact ⟨_, congrArg Scanner.tokens hscan.symm⟩

theorem prefix_of_finish {s : Scanner} {ts : List Token} (h : s.finish = some ts) :
    s.tokens <+: ts := by
  obtain ⟨us, mode⟩ := s
  cases mode with
  | blank => exact (Option.some.inj h) ▸ List.prefix_rfl
  | atom name => exact (Option.some.inj h) ▸ List.prefix_append _ _
  | str text => cases h
  | escape text => cases h
  | comment => exact (Option.some.inj h) ▸ List.prefix_rfl

/-! ### Strings -/

/-- A text without quotes and backslashes. -/
def Plain (text : List Char) : Prop := ∀ c ∈ text, c ≠ '"' ∧ c ≠ '\\'

instance (text : List Char) : Decidable (Plain text) :=
  List.decidableBAll _ text

/-- What is read up to the next quote, if there is one. -/
def literal : List Char → Option (List Char)
  | [] => none
  | '"' :: _ => some []
  | '\\' :: c :: text => (literal text).map (unescape c :: ·)
  | c :: text => (literal text).map (c :: ·)

theorem literal_cons {c : Char} (hquote : c ≠ '"') (hescape : c ≠ '\\') (text : List Char) :
    literal (c :: text) = (literal text).map (c :: ·) := by
  rw [literal.eq_4] <;> simp [hquote, hescape]

/-- Text that follows backslashes is not read as what follows more of them. -/
theorem literal_ne_backslashes (text rest : List Char) (k : ℕ) :
    literal (text ++ '"' :: rest) ≠ some (List.replicate (k + 1) '\\' ++ text) := by
  induction hn : text.length using Nat.strongRecOn generalizing text k with
  | ind n ih =>
    intro hread
    match text with
    | [] => simp [literal] at hread
    | c :: text =>
      rw [List.replicate_succ, List.cons_append, List.cons_append] at hread
      by_cases hquote : c = '"'
      · simp [hquote, literal] at hread
      by_cases hescape : c = '\\'
      · match text with
        | [] =>
          simp only [hescape, List.nil_append, literal, Option.map_eq_some_iff] at hread
          obtain ⟨v, -, hv⟩ := hread
          exact absurd (List.cons.inj hv).1 (by decide)
        | d :: text =>
          simp only [hescape, List.cons_append, literal, Option.map_eq_some_iff] at hread
          obtain ⟨v, hread, hv⟩ := hread
          obtain ⟨hd, hv⟩ := List.cons.inj hv
          rw [unescape_eq_backslash] at hd
          -- two characters are read as one, so that more backslashes stand before the rest
          refine ih text.length ?_ text (k + 1) rfl ?_
          · simp only [List.length_cons] at hn
            omega
          · rw [hread, hv, hd, List.append_cons, List.append_cons, List.replicate_succ',
              List.replicate_succ']
      · rw [literal_cons hquote hescape, Option.map_eq_some_iff] at hread
        obtain ⟨v, -, hv⟩ := hread
        exact hescape (List.cons.inj hv).1

/-- A text between quotes is read as itself exactly if nothing in it is special. -/
theorem literal_eq_self_iff (text rest : List Char) :
    literal (text ++ '"' :: rest) = some text ↔ Plain text := by
  induction text with
  | nil => simp [literal, Plain]
  | cons c text ih =>
    rw [List.cons_append]
    by_cases hquote : c = '"'
    · simp [hquote, literal, Plain]
    by_cases hescape : c = '\\'
    · refine iff_of_false (fun hread => ?_) (fun h => (h c List.mem_cons_self).2 hescape)
      subst hescape
      match text with
      | [] =>
        simp only [List.nil_append, literal, Option.map_eq_some_iff] at hread
        obtain ⟨v, -, hv⟩ := hread
        exact absurd (List.cons.inj hv).1 (by decide)
      | d :: text =>
        simp only [List.cons_append, literal, Option.map_eq_some_iff] at hread
        obtain ⟨v, hread, hv⟩ := hread
        obtain ⟨hd, hv⟩ := List.cons.inj hv
        rw [unescape_eq_backslash] at hd
        refine literal_ne_backslashes text rest 0 ?_
        rw [hread, hv, hd]
        rfl
    · rw [literal_cons hquote hescape, Option.map_eq_some_iff]
      have hplain : Plain (c :: text) ↔ Plain text := by
        simp [Plain, hquote, hescape]
      rw [hplain, ← ih]
      simp

theorem step_str {c : Char} (hquote : c ≠ '"') (hescape : c ≠ '\\') (ts : List Token)
    (acc : List Char) : Scanner.step ⟨ts, .str acc⟩ c = ⟨ts, .str (acc ++ [c])⟩ := by
  simp only [step, if_neg hquote, if_neg hescape]

theorem scan_plain {text : List Char} (h : Plain text) (ts : List Token) (acc : List Char) :
    scan ⟨ts, .str acc⟩ text = ⟨ts, .str (acc ++ text)⟩ := by
  induction text generalizing acc with
  | nil => rw [scan_nil, List.append_nil]
  | cons c text ih =>
    obtain ⟨hc, htext⟩ := List.forall_mem_cons.mp h
    rw [scan_cons, step_str hc.1 hc.2, ih htext, List.append_assoc, List.singleton_append]

/-- A string that has been opened becomes a token if it is closed. -/
theorem tokens_scan_str (text : List Char) (ts : List Token) (acc : List Char)
    {us : List Token} (hfinish : (scan ⟨ts, .str acc⟩ text).finish = some us) :
    ∃ v, literal text = some v ∧ ts ++ [.str (acc ++ v)] <+: us := by
  induction text using literal.induct generalizing acc with
  | case1 => cases hfinish
  | case2 text =>
    refine ⟨[], rfl, ?_⟩
    rw [List.append_nil]
    exact (prefix_tokens_scan _ text).trans (prefix_of_finish hfinish)
  | case3 c text ih =>
    obtain ⟨v, hread, hafter⟩ := ih (acc ++ [unescape c]) hfinish
    refine ⟨unescape c :: v, by rw [literal, hread]; rfl, ?_⟩
    rwa [List.append_assoc, List.singleton_append] at hafter
  | case4 c text hquote hescape ih =>
    have hc : c ≠ '\\' := by
      rintro rfl
      match text with
      | [] => cases hfinish
      | d :: text => exact hescape d text rfl rfl
    have hread := literal_cons hquote hc text
    rw [scan_cons, step_str hquote hc] at hfinish
    obtain ⟨v, hv, hafter⟩ := ih (acc ++ [c]) hfinish
    rw [List.append_assoc, List.singleton_append] at hafter
    exact ⟨c :: v, by rw [hread, hv]; rfl, hafter⟩

/-! ### Lists -/

mutual

/-- The tokens of an expression. -/
def flatten : SExpr → List Token
  | .atom name => [.atom name]
  | .str text => [.str text]
  | .list items => .lparen :: (flattenAll items ++ [.rparen])

def flattenAll : List SExpr → List Token
  | [] => []
  | e :: es => flatten e ++ flattenAll es

end

theorem flattenAll_append (as bs : List SExpr) :
    flattenAll (as ++ bs) = flattenAll as ++ flattenAll bs := by
  induction as with
  | nil => rfl
  | cons a as ih => rw [List.cons_append, flattenAll, flattenAll, ih, List.append_assoc]

/-- The items of the list that is read, and of the lists around it. -/
structure Reader where
  items : List SExpr
  outer : List (List SExpr)

namespace Reader

def step (r : Reader) : Token → Option Reader
  | .lparen => some ⟨[], r.items :: r.outer⟩
  | .rparen =>
    match r.outer with
    | [] => none
    | items :: outer => some ⟨items ++ [.list r.items], outer⟩
  | .atom name => some ⟨r.items ++ [.atom name], r.outer⟩
  | .str text => some ⟨r.items ++ [.str text], r.outer⟩

/-- The expressions at the end, if every list has been closed. -/
def finish (r : Reader) : Option (List SExpr) := if r.outer.isEmpty then some r.items else none

/-- The tokens that have been read. -/
def tokens (r : Reader) : List Token :=
  r.outer.reverse.flatMap (fun items => flattenAll items ++ [.lparen]) ++ flattenAll r.items

end Reader

def parse (ts : List Token) : Option (List SExpr) :=
  (ts.foldlM Reader.step ⟨[], []⟩).bind Reader.finish

/-- The expressions of a text. -/
def readAll (text : List Char) : Option (List SExpr) := (lex text).bind parse

theorem tokens_step {r r' : Reader} {t : Token} (h : r.step t = some r') :
    r'.tokens = r.tokens ++ [t] := by
  obtain ⟨items, outer⟩ := r
  cases t with
  | lparen =>
    cases h
    simp [Reader.tokens, flattenAll]
  | rparen =>
    cases outer with
    | nil => cases h
    | cons up outer =>
      cases h
      simp [Reader.tokens, flattenAll_append, flattenAll, flatten]
  | atom name =>
    cases h
    simp [Reader.tokens, flattenAll_append, flattenAll, flatten]
  | str text =>
    cases h
    simp [Reader.tokens, flattenAll_append, flattenAll, flatten]

theorem tokens_foldlM {r r' : Reader} {ts : List Token} (h : ts.foldlM Reader.step r = some r') :
    r'.tokens = r.tokens ++ ts := by
  induction ts generalizing r with
  | nil =>
    cases h
    rw [List.append_nil]
  | cons t ts ih =>
    rw [List.foldlM_cons] at h
    obtain ⟨mid, hmid, hrest⟩ := Option.bind_eq_some_iff.mp h
    rw [ih hrest, tokens_step hmid, List.append_assoc, List.singleton_append]

mutual

/-- The tokens of an expression add it to the list that is read. -/
theorem foldlM_flatten (e : SExpr) (r : Reader) :
    (flatten e).foldlM Reader.step r = some ⟨r.items ++ [e], r.outer⟩ := by
  match e with
  | .atom name => rfl
  | .str text => rfl
  | .list items =>
    rw [flatten, List.foldlM_cons, Reader.step, Option.bind_eq_bind, Option.bind_some,
      List.foldlM_append, foldlM_flattenAll items]
    rfl

theorem foldlM_flattenAll (es : List SExpr) (r : Reader) :
    (flattenAll es).foldlM Reader.step r = some ⟨r.items ++ es, r.outer⟩ := by
  match es with
  | [] =>
    rw [flattenAll, List.append_nil]
    rfl
  | e :: es =>
    rw [flattenAll, List.foldlM_append, foldlM_flatten e, Option.bind_eq_bind, Option.bind_some,
      foldlM_flattenAll es, List.append_assoc, List.singleton_append]

end

theorem parse_eq_some_iff {ts : List Token} {es : List SExpr} :
    parse ts = some es ↔ ts = flattenAll es := by
  constructor
  · intro h
    obtain ⟨⟨items, outer⟩, hfold, hfinish⟩ := Option.bind_eq_some_iff.mp h
    have htokens := tokens_foldlM hfold
    match outer with
    | [] =>
      cases hfinish
      simpa [Reader.tokens, flattenAll] using htokens.symm
    | items :: outer => cases hfinish
  · rintro rfl
    rw [parse, foldlM_flattenAll]
    rfl

/-- What is read of a text has exactly its tokens. -/
theorem readAll_eq_some_iff {text : List Char} {es : List SExpr} :
    readAll text = some es ↔ lex text = some (flattenAll es) := by
  rw [readAll, Option.bind_eq_some_iff]
  simp only [parse_eq_some_iff, exists_eq_right]

/-! ### Texts one after the other -/

theorem finish_after (ts : List Token) (s : Scanner) :
    (s.after ts).finish = s.finish.map (ts ++ ·) := by
  obtain ⟨us, mode⟩ := s
  cases mode with
  | blank => rfl
  | atom name => simp [after, finish]
  | str text => rfl
  | escape text => rfl
  | comment => rfl

namespace Reader

/-- The expressions outside all lists. -/
def bottom (r : Reader) : List SExpr := (r.items :: r.outer).getLast (List.cons_ne_nil _ _)

theorem prefix_bottom (items more : List SExpr) (outer : List (List SExpr)) :
    bottom ⟨items, outer⟩ <+: bottom ⟨items ++ more, outer⟩ := by
  cases outer with
  | nil => exact List.prefix_append items more
  | cons up outer => simp only [bottom, List.getLast_cons_cons, List.prefix_rfl]

theorem bottom_step {r r' : Reader} {t : Token} (h : r.step t = some r') :
    r.bottom <+: r'.bottom := by
  obtain ⟨items, outer⟩ := r
  cases t with
  | lparen =>
    cases h
    rw [bottom, bottom, List.getLast_cons_cons]
  | rparen =>
    match outer with
    | [] => cases h
    | [up] =>
      cases h
      exact List.prefix_append up _
    | up :: mid :: outer =>
      cases h
      simp only [bottom, List.getLast_cons_cons, List.prefix_rfl]
  | atom name =>
    cases h
    exact prefix_bottom items _ outer
  | str text =>
    cases h
    exact prefix_bottom items _ outer

theorem bottom_foldlM {r r' : Reader} {ts : List Token} (h : ts.foldlM step r = some r') :
    r.bottom <+: r'.bottom := by
  induction ts generalizing r with
  | nil =>
    cases h
    exact List.prefix_rfl
  | cons t ts ih =>
    rw [List.foldlM_cons] at h
    obtain ⟨mid, hmid, hrest⟩ := Option.bind_eq_some_iff.mp h
    exact (bottom_step hmid).trans (ih hrest)

end Reader

/-- Tokens that begin with those of some expressions are read as these and others. -/
theorem exists_append_of_flattenAll {es all : List SExpr} {us : List Token}
    (h : flattenAll es ++ us = flattenAll all) :
    ∃ rest, all = es ++ rest ∧ us = flattenAll rest := by
  have hread := foldlM_flattenAll all ⟨[], []⟩
  rw [← h, List.foldlM_append, foldlM_flattenAll, Option.bind_eq_bind, Option.bind_some] at hread
  obtain ⟨rest, hrest⟩ : es <+: all := Reader.bottom_foldlM hread
  rw [← hrest, flattenAll_append, List.append_cancel_left_eq] at h
  exact ⟨rest, hrest.symm, h⟩

/-- A text whose expressions are complete, before another one. -/
theorem readAll_append {a b : List Char} {es : List SExpr}
    (ha : scan ⟨[], .blank⟩ a = ⟨flattenAll es, .blank⟩) {all : List SExpr} :
    readAll (a ++ b) = some all ↔ ∃ rest, all = es ++ rest ∧ readAll b = some rest := by
  rw [readAll_eq_some_iff, lex, scan_append, ha, scan_blank, finish_after, ← lex,
    Option.map_eq_some_iff]
  constructor
  · rintro ⟨us, hlex, hflatten⟩
    obtain ⟨rest, hall, rfl⟩ := exists_append_of_flattenAll hflatten
    exact ⟨rest, hall, readAll_eq_some_iff.mpr hlex⟩
  · rintro ⟨rest, rfl, hread⟩
    exact ⟨flattenAll rest, readAll_eq_some_iff.mp hread, (flattenAll_append es rest).symm⟩

/-! ### A text between quotes -/

section Quoted

variable {opening text : List Char} {us : List Token}
variable (hopen : scan ⟨[], .blank⟩ opening = ⟨us, .str []⟩)

include hopen

theorem scan_quoted (hplain : Plain text) (ts : List Token) (rest : List Char) :
    scan ⟨ts, .blank⟩ (opening ++ text ++ '"' :: rest) =
      scan ⟨ts ++ us ++ [.str text], .blank⟩ rest := by
  rw [scan_append, scan_append, scan_blank, hopen, after, scan_plain hplain]
  rfl

/-- A text that stands between quotes and is read as itself is plain. -/
theorem plain_of_quoted {ts more : List Token} {rest : List Char}
    (h : (scan ⟨ts, .blank⟩ (opening ++ text ++ '"' :: rest)).finish =
      some (ts ++ us ++ .str text :: more)) : Plain text := by
  rw [List.append_assoc, scan_append, scan_blank, hopen, after] at h
  obtain ⟨v, hread, hafter⟩ := tokens_scan_str _ _ _ h
  rw [List.prefix_append_right_inj, List.nil_append, List.cons_prefix_cons] at hafter
  rw [Token.str.inj hafter.1] at hread
  exact (literal_eq_self_iff text rest).mp hread

end Quoted

end SExpr

end Theory
