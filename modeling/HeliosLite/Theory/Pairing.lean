import Mathlib.Data.List.Perm.Basic

/-!
# Calls paired with their answers

A log in which some elements open calls and others answer one. The log is paired
when every element that opens `n` calls is followed at once by exactly `n` answers,
one for each of its calls and in any order, and answers occur nowhere else.

The file is about logs over an arbitrary type: what an element opens and what it
answers are two functions.

## Main definitions

* `Paired calls answer l` — every call of `l` is answered in place

## Main results

* `Paired.append` — two paired logs concatenate to a paired log
* `Paired.split` — a paired log cut in front of an element that is no answer gives
  two paired logs
* `Paired.filter` — elements that neither call nor answer may be removed
* `paired_congr` — pairing looks at calls and answers only
* `paired_cons_iff` — the first element of a paired log is followed by its answers
-/

namespace Theory

variable {α ι : Type*} {calls : α → List ι} {answer : α → Option ι}

/-- Each element of the log is followed by one answer for each call it opens, in any
order, and the log has no other answers. -/
inductive Paired (calls : α → List ι) (answer : α → Option ι) : List α → Prop
  | nil : Paired calls answer []
  | block {m : α} {results rest : List α} (opens : answer m = none)
      (answered : (results.map answer).Perm ((calls m).map some))
      (tail : Paired calls answer rest) : Paired calls answer (m :: (results ++ rest))

/-- Every element of the list answers some call. -/
def AllAnswer (answer : α → Option ι) (l : List α) : Prop := ∀ x ∈ l, answer x ≠ none

theorem allAnswer_of_perm {results : List α} {ids : List ι}
    (h : (results.map answer).Perm (ids.map some)) : AllAnswer answer results := by
  intro x hx hnone
  have hmem : answer x ∈ ids.map some := h.subset (List.mem_map_of_mem hx)
  rw [hnone] at hmem
  simp at hmem

theorem paired_cons_iff {m : α} {l : List α} :
    Paired calls answer (m :: l) ↔
      answer m = none ∧ ∃ results rest, l = results ++ rest ∧
        (results.map answer).Perm ((calls m).map some) ∧ Paired calls answer rest := by
  constructor
  · intro h
    cases h with
    | block opens answered tail => exact ⟨opens, _, _, rfl, answered, tail⟩
  · rintro ⟨opens, results, rest, rfl, answered, tail⟩
    exact Paired.block opens answered tail

/-- An element that opens no call is a block of its own. -/
theorem paired_cons_of_calls_nil {m : α} {l : List α} (hm : calls m = []) :
    Paired calls answer (m :: l) ↔ answer m = none ∧ Paired calls answer l := by
  rw [paired_cons_iff, hm]
  constructor
  · rintro ⟨opens, results, rest, rfl, answered, tail⟩
    obtain rfl : results = [] := by simpa using answered.length_eq
    exact ⟨opens, tail⟩
  · rintro ⟨opens, tail⟩
    exact ⟨opens, [], l, rfl, List.Perm.refl _, tail⟩

theorem not_paired_of_head_answer {x : α} {l : List α} (hx : answer x ≠ none) :
    ¬ Paired calls answer (x :: l) := by
  intro h
  exact hx (paired_cons_iff.mp h).1

theorem Paired.append {l₁ l₂ : List α} (h₁ : Paired calls answer l₁)
    (h₂ : Paired calls answer l₂) : Paired calls answer (l₁ ++ l₂) := by
  induction h₁ with
  | nil => exact h₂
  | block opens answered _ ih =>
    rw [List.cons_append, List.append_assoc]
    exact Paired.block opens answered ih

/-- The answers that follow a block stop where a non-answer stands: if `results` are all
answers and `l₂` does not start with one, then `results` ends inside `l₁`. -/
private theorem answers_within {results rest l₁ l₂ : List α}
    (hres : AllAnswer answer results) (hcut : ∀ x ∈ l₂.head?, answer x = none)
    (h : results ++ rest = l₁ ++ l₂) :
    ∃ mid, l₁ = results ++ mid ∧ rest = mid ++ l₂ := by
  rcases List.append_eq_append_iff.mp h with ⟨mid, hl₁, hrest⟩ | ⟨mid, hres', hl₂⟩
  · exact ⟨mid, hl₁, hrest⟩
  · cases mid with
    | nil => exact ⟨[], by simpa using hres'.symm, by simpa using hl₂.symm⟩
    | cons x mid =>
      subst hl₂
      have hx : answer x = none := hcut x (by simp)
      have hmem : x ∈ results := by simp [hres']
      exact absurd hx (hres x hmem)

/-- Cutting a paired log in front of a non-answer never separates a call from an answer. -/
theorem Paired.split {l₁ l₂ : List α} (h : Paired calls answer (l₁ ++ l₂))
    (hcut : ∀ x ∈ l₂.head?, answer x = none) :
    Paired calls answer l₁ ∧ Paired calls answer l₂ := by
  generalize hl : l₁ ++ l₂ = l at h
  induction h generalizing l₁ with
  | nil =>
    obtain ⟨rfl, rfl⟩ := List.append_eq_nil_iff.mp hl
    exact ⟨.nil, .nil⟩
  | @block m results rest opens answered tail ih =>
    cases l₁ with
    | nil =>
      rw [List.nil_append] at hl
      rw [hl]
      exact ⟨.nil, Paired.block opens answered tail⟩
    | cons a l₁ =>
      obtain ⟨rfl, hl'⟩ := List.cons.inj hl
      obtain ⟨mid, rfl, hrest⟩ :=
        answers_within (allAnswer_of_perm answered) hcut hl'.symm
      obtain ⟨hmid, hl₂⟩ := ih hrest.symm
      exact ⟨Paired.block opens answered hmid, hl₂⟩

/-- Elements that open no call and answer none can be removed. -/
theorem Paired.filter {l : List α} {p : α → Bool} (h : Paired calls answer l)
    (hp : ∀ x ∈ l, p x = false → calls x = [] ∧ answer x = none) :
    Paired calls answer (l.filter p) := by
  induction h with
  | nil => exact .nil
  | @block m results rest opens answered tail ih =>
    have hres : results.filter p = results := by
      refine List.filter_eq_self.mpr fun x hx => ?_
      by_contra hpx
      exact allAnswer_of_perm answered x hx (hp x (by simp [hx]) (by simpa using hpx)).2
    have htail : Paired calls answer (rest.filter p) :=
      ih fun x hx => hp x (by simp [hx])
    by_cases hm : p m = true
    · rw [List.filter_cons_of_pos hm, List.filter_append, hres]
      exact Paired.block opens answered htail
    · have hcalls := (hp m (by simp) (by simpa using hm)).1
      rw [hcalls] at answered
      obtain rfl : results = [] := by simpa using answered.length_eq
      simpa [List.filter_cons_of_neg hm] using htail

/-- Pairing only looks at calls and answers. -/
theorem paired_map_iff {β : Type*} {f : β → α} {l : List β} :
    Paired calls answer (l.map f) ↔ Paired (calls ∘ f) (answer ∘ f) l := by
  constructor
  · intro h
    generalize hl : l.map f = l' at h
    induction h generalizing l with
    | nil =>
      obtain rfl := List.map_eq_nil_iff.mp hl
      exact .nil
    | block opens answered _ ih =>
      obtain ⟨m, l', rfl, rfl, hl'⟩ := List.map_eq_cons_iff.mp hl
      obtain ⟨results, rest, rfl, rfl, hrest⟩ := List.map_eq_append_iff.mp hl'
      rw [List.map_map] at answered
      exact Paired.block opens answered (ih hrest)
  · intro h
    induction h with
    | nil => exact .nil
    | block opens answered _ ih =>
      rw [List.map_cons, List.map_append]
      rw [← List.map_map] at answered
      exact Paired.block opens answered ih

/-- Two logs that call and answer alike, element by element, are paired alike. -/
theorem paired_congr {l l' : List α}
    (h : l.map (fun x => (calls x, answer x)) = l'.map (fun x => (calls x, answer x))) :
    Paired calls answer l ↔ Paired calls answer l' := by
  have key : ∀ k : List α, Paired calls answer k ↔
      Paired Prod.fst Prod.snd (k.map fun x => (calls x, answer x)) :=
    fun k => (@paired_map_iff _ ι Prod.fst Prod.snd _ (fun x => (calls x, answer x)) k).symm
  rw [key l, key l', h]

/-- A log whose first answer has no call in front of it is not paired. -/
theorem not_paired_of_orphan {l₁ l₂ : List α} {x : α} (hl₁ : ∀ y ∈ l₁, calls y = [])
    (hx : answer x ≠ none) : ¬ Paired calls answer (l₁ ++ x :: l₂) := by
  induction l₁ with
  | nil => exact not_paired_of_head_answer hx
  | cons y l₁ ih =>
    rw [List.cons_append, paired_cons_of_calls_nil (hl₁ y (by simp))]
    rintro ⟨_, h⟩
    exact ih (fun z hz => hl₁ z (by simp [hz])) h

end Theory
