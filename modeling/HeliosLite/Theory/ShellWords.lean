import Mathlib.Data.List.Basic

/-!
# Quoted words of a POSIX shell

The quotings of a word that a shell reads without expansions, with the text of each and the word
that the shell reads. A backslash before a line break is read as nothing, and inside double
quotation marks a backslash stays unless it stands before one of four characters.

## Main definitions

* `Quoting` — a quoted word, with `Quoting.text` and `Quoting.word`
* `Quoting.WellFormed` — the shell reads the text as one word
* `Quoting.AsMarked` — each backslash marks the character behind it, as most splitters take it

## Main results

* `Quoting.marked_eq_word_iff` — taking every backslash for a mark is right only then
-/

namespace Theory

/-- A character as it stands, or one behind a backslash. -/
inductive ShellChar where
  | plain (c : Char)
  | escaped (c : Char)
deriving DecidableEq

namespace ShellChar

def char : ShellChar → Char
  | plain c => c
  | escaped c => c

def text : ShellChar → List Char
  | plain c => [c]
  | escaped c => ['\\', c]

/-- What is read outside quotation marks. -/
def unquoted : ShellChar → List Char
  | plain c => [c]
  | escaped c => if c = '\n' then [] else [c]

/-- The characters that a backslash marks between double quotation marks. -/
def doubleSpecial : List Char := ['$', '`', '"', '\\']

/-- What is read between double quotation marks. -/
def inDouble : ShellChar → List Char
  | plain c => [c]
  | escaped c =>
    if c = '\n' then [] else if c ∈ doubleSpecial then [c] else ['\\', c]

end ShellChar

open ShellChar

/-- The characters that have to be quoted. -/
def shellSpecial : List Char :=
  ['|', '&', ';', '<', '>', '(', ')', '$', '`', '\\', '"', '\'', ' ', '\t', '\n']

inductive Quoting where
  | unquoted (cs : List ShellChar)
  | single (cs : List Char)
  | double (cs : List ShellChar)
deriving DecidableEq

namespace Quoting

def text : Quoting → List Char
  | unquoted cs => cs.flatMap ShellChar.text
  | single cs => '\'' :: cs ++ ['\'']
  | double cs => '"' :: cs.flatMap ShellChar.text ++ ['"']

/-- The word that the shell reads. -/
def word : Quoting → List Char
  | unquoted cs => cs.flatMap ShellChar.unquoted
  | single cs => cs
  | double cs => cs.flatMap ShellChar.inDouble

def WellFormed : Quoting → Prop
  | unquoted cs => (∀ c, .plain c ∈ cs → c ∉ shellSpecial) ∧ cs.flatMap ShellChar.unquoted ≠ []
  | single cs => '\'' ∉ cs
  | double cs => ∀ c, .plain c ∈ cs → c ∉ doubleSpecial

/-- The word if a backslash always marks the character behind it. -/
def marked : Quoting → List Char
  | unquoted cs => cs.map char
  | single cs => cs
  | double cs => cs.map char

def AsMarked : Quoting → Prop
  | unquoted cs => .escaped '\n' ∉ cs
  | single _ => True
  | double cs => ∀ c, .escaped c ∈ cs → c ∈ doubleSpecial

/-- Outside quotation marks only line breaks can be lost. -/
theorem length_unquoted_le (cs : List ShellChar) :
    (cs.flatMap ShellChar.unquoted).length ≤ cs.length := by
  induction cs with
  | nil => exact Nat.le_refl 0
  | cons c cs ih =>
    have hc : c.unquoted.length ≤ 1 := by
      cases c with
      | plain c => exact Nat.le_refl 1
      | escaped c =>
        rw [ShellChar.unquoted]
        split_ifs
        · exact Nat.zero_le 1
        · exact Nat.le_refl 1
    rw [List.flatMap_cons, List.length_append, List.length_cons]
    omega

theorem unquoted_eq_iff {cs : List ShellChar} :
    cs.map char = cs.flatMap ShellChar.unquoted ↔ .escaped '\n' ∉ cs := by
  induction cs with
  | nil => simp
  | cons c cs ih =>
    rw [List.map_cons, List.flatMap_cons, List.mem_cons, not_or, ← ih]
    cases c with
    | plain c => simp [ShellChar.unquoted, char]
    | escaped c =>
      rw [ShellChar.unquoted, char]
      split_ifs with hbreak
      · -- the line break is read as nothing, and then a character is missing
        subst hbreak
        refine iff_of_false ?_ fun h => h.1 rfl
        intro heq
        have hlength := congrArg List.length heq
        rw [List.length_cons, List.length_map, List.nil_append] at hlength
        have := length_unquoted_le cs
        omega
      · simp [Ne.symm hbreak]

/-- Line breaks that are read as nothing stay ahead of what is read. -/
theorem inDouble_ne_breaks (cs : List ShellChar) (n : ℕ) :
    List.replicate (n + 1) '\n' ++ cs.map char ≠ cs.flatMap ShellChar.inDouble := by
  induction cs generalizing n with
  | nil => simp
  | cons c cs ih =>
    rw [List.map_cons, List.flatMap_cons]
    -- a character that stands for itself must be a line break and takes the place of the first one
    have hself : ∀ a : Char,
        List.replicate (n + 1) '\n' ++ a :: cs.map char ≠
          a :: cs.flatMap ShellChar.inDouble := by
      intro a heq
      rw [List.replicate_succ, List.cons_append] at heq
      obtain ⟨rfl, heq⟩ := List.cons.inj heq
      apply ih n
      rw [← heq, List.replicate_succ', List.append_assoc]
      rfl
    cases c with
    | plain c => exact hself c
    | escaped c =>
      rw [ShellChar.inDouble, char]
      split_ifs with hbreak hspecial
      · subst hbreak
        intro heq
        apply ih (n + 1)
        rw [List.nil_append] at heq
        rw [← heq, List.replicate_succ', List.append_assoc]
        rfl
      · exact hself c
      · intro heq
        rw [List.replicate_succ, List.cons_append] at heq
        exact absurd (List.cons.inj heq).1 (by decide)

theorem inDouble_eq_iff {cs : List ShellChar} :
    cs.map char = cs.flatMap ShellChar.inDouble ↔ ∀ c, .escaped c ∈ cs → c ∈ doubleSpecial := by
  induction cs with
  | nil => simp
  | cons c cs ih =>
    rw [List.map_cons, List.flatMap_cons]
    simp only [List.mem_cons, or_imp, forall_and]
    rw [← ih]
    cases c with
    | plain c => simp [ShellChar.inDouble, char]
    | escaped c =>
      rw [ShellChar.inDouble, char]
      split_ifs with hbreak hspecial
      · subst hbreak
        refine iff_of_false ?_ fun h => absurd (h.1 '\n' rfl) (by decide)
        exact inDouble_ne_breaks cs 0
      · simp [hspecial]
      · refine iff_of_false ?_ fun h => hspecial (h.1 c rfl)
        intro heq
        obtain ⟨rfl, -⟩ := List.cons.inj heq
        exact hspecial (by decide)

theorem marked_eq_word_iff (q : Quoting) : q.marked = q.word ↔ q.AsMarked := by
  cases q with
  | unquoted cs => exact unquoted_eq_iff
  | single cs => exact iff_of_true rfl trivial
  | double cs => exact inDouble_eq_iff

end Quoting

end Theory
