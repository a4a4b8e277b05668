import HeliosLite.Theory.Occurrence
import Mathlib.Algebra.Ring.Nat
import Mathlib.Data.List.Chain

/-!
# Replacing a word

A list is cut at the occurrences of a word, each looked for behind the one before it, and the
parts are joined with another word between them.

## Main definitions

* `parts` — the parts of a list between the occurrences of a word
* `replace` — the list with another word in place of each occurrence
* `Cut` — how the parts come about
* `Adjoins` — the parts, empty ones aside, fit together

## Main results

* `intercalate_parts` — the word joins the parts to the list
* `isChain_intercalate_iff` — a relation between neighbours holds all over a joined list
* `eq_of_intercalate_eq` — the parts can be read off what long words make of them
* `flatMap_eq_iff_of_length_le` — parts that are no longer make up the whole only if none is shorter
-/

namespace Theory

variable {α : Type}

section Parts

variable [DecidableEq α] (w : List α)

/-- The list cut at the first occurrences of a word, so many at most. -/
def cutUpTo : ℕ → List α → List (List α)
  | 0, l => [l]
  | n + 1, l =>
    match splitFirst w l with
    | none => [l]
    | some (before, after) => before :: cutUpTo n after

/-- The parts of a list between the occurrences of a word. The empty word stands before each
element and at the end. -/
def parts (l : List α) : List (List α) :=
  if w = [] then [] :: l.map (fun a => [a]) ++ [[]] else cutUpTo w l.length l

/-- The list with `v` in place of each occurrence of `w`. -/
def replace (v l : List α) : List α := v.intercalate (parts w l)

end Parts

/-- A word that occurs in the list is cut out of it. -/
theorem splitFirst_isSome_iff [DecidableEq α] {w l : List α} :
    (splitFirst w l).isSome ↔ w <:+: l := by
  constructor
  · intro h
    obtain ⟨⟨before, after⟩, hsplit⟩ := Option.isSome_iff_exists.mp h
    exact ⟨before, after, (of_splitFirst hsplit).2.symm⟩
  · rintro ⟨before, after, rfl⟩
    rw [Option.isSome_iff_ne_none]
    exact fun hnone => not_prefix_of_splitFirst hnone before (List.prefix_append _ _)

/-- Of two places that do not overlap, the second is behind the first of all. -/
theorem infix_of_two {w l : List α} {a b c before after : List α} (hfirst : FirstAt w l before)
    (hl : l = before ++ w ++ after) (htwo : l = a ++ w ++ b ++ w ++ c) :
    w <:+: after := by
  have hle : before.length ≤ a.length :=
    hfirst.2 a ⟨b ++ w ++ c, by rw [htwo]; simp only [List.append_assoc]⟩
  have hlength : (before ++ w).length ≤ (a ++ w ++ b).length := by
    simp only [List.length_append]
    omega
  have hinitial : before ++ w <+: a ++ w ++ b := by
    refine List.prefix_of_prefix_length_le ⟨after, hl.symm⟩ ⟨w ++ c, ?_⟩ hlength
    rw [htwo]
    simp only [List.append_assoc]
  obtain ⟨t, ht⟩ := hinitial
  have heq : before ++ w ++ (t ++ w ++ c) = before ++ w ++ after := by
    rw [← hl, htwo, ← ht]
    simp only [List.append_assoc]
  exact ⟨t, c, List.append_cancel_left heq⟩

/-- The list is cut at the first occurrence of the word, and so is what follows it. -/
inductive Cut (w : List α) : List α → List (List α) → Prop
  | last {l : List α} (h : ∀ before, ¬ before ++ w <+: l) : Cut w l [l]
  | cons {l before after : List α} {ps : List (List α)} (hfirst : FirstAt w l before)
      (heq : l = before ++ w ++ after) (hafter : Cut w after ps) : Cut w l (before :: ps)

variable {w v l : List α} {ps : List (List α)}

theorem Cut.ne_nil (h : Cut w l ps) : ps ≠ [] := by cases h <;> exact List.cons_ne_nil _ _

/-- The word joins the parts. -/
theorem Cut.intercalate_eq (h : Cut w l ps) : w.intercalate ps = l := by
  induction h with
  | last => simp [List.intercalate]
  | cons _ heq hafter ih =>
    rw [List.intercalate_cons_of_ne_nil hafter.ne_nil, ih, heq, List.append_assoc]

theorem Cut.infix_of_mem (h : Cut w l ps) {p : List α} (hp : p ∈ ps) : p <:+: l := by
  induction h with
  | last => rw [List.mem_singleton.mp hp]
  | cons _ heq _ ih =>
    rcases List.mem_cons.mp hp with rfl | hmem
    · exact ⟨[], w ++ _, by rw [heq, List.nil_append, List.append_assoc]⟩
    · rw [heq]
      exact (ih hmem).trans (List.suffix_append _ _).isInfix

/-- A word that occurs cuts the list in two at least. -/
theorem Cut.two_le_length (h : Cut w l ps) (hmem : w <:+: l) : 2 ≤ ps.length := by
  cases h with
  | last h =>
    obtain ⟨before, after, heq⟩ := hmem
    exact absurd ⟨after, heq⟩ (h before)
  | cons _ _ hafter => exact Nat.succ_le_succ (List.length_pos_iff.mpr hafter.ne_nil)

section Parts

variable [DecidableEq α]

theorem cut_cutUpTo (hw : w ≠ []) {n : ℕ} (hn : l.length ≤ n) : Cut w l (cutUpTo w n l) := by
  have hempty : ∀ before, ¬ before ++ w <+: [] := fun before h =>
    hw (List.append_eq_nil_iff.mp (List.prefix_nil.mp h)).2
  induction n generalizing l with
  | zero =>
    obtain rfl := List.eq_nil_of_length_eq_zero (Nat.le_zero.mp hn)
    exact .last hempty
  | succ n ih =>
    unfold cutUpTo
    cases hsplit : splitFirst w l with
    | none => exact .last (not_prefix_of_splitFirst hsplit)
    | some p =>
      obtain ⟨hfirst, heq⟩ := of_splitFirst hsplit
      refine .cons hfirst heq (ih ?_)
      have hlength := congrArg List.length heq
      have hpos := List.length_pos_iff.mpr hw
      simp only [List.length_append] at hlength
      omega

theorem cut_parts (hw : w ≠ []) (l : List α) : Cut w l (parts w l) := by
  rw [parts, if_neg hw]
  exact cut_cutUpTo hw le_rfl

theorem parts_nil (l : List α) : parts [] l = [] :: l.map (fun a => [a]) ++ [[]] := if_pos rfl

omit [DecidableEq α] in
theorem nil_intercalate (ps : List (List α)) : [].intercalate ps = ps.flatten := by
  induction ps with
  | nil => rfl
  | cons p ps ih =>
    by_cases hps : ps = []
    · simp [hps]
    · rw [List.intercalate_cons_of_ne_nil hps, ih, List.flatten_cons, List.append_nil]

omit [DecidableEq α] in
theorem flatten_map_singleton (l : List α) : (l.map fun a => [a]).flatten = l := by
  rw [← List.flatMap_def, List.flatMap_singleton']

/-- The word joins the parts to the list. -/
theorem intercalate_parts (w l : List α) : w.intercalate (parts w l) = l := by
  by_cases hw : w = []
  · subst hw
    rw [parts_nil, nil_intercalate, List.flatten_append, List.flatten_cons,
      flatten_map_singleton, List.nil_append, List.flatten_singleton, List.append_nil]
  · exact (cut_parts hw l).intercalate_eq

theorem infix_of_mem_parts {p : List α} (hp : p ∈ parts w l) : p <:+: l := by
  by_cases hw : w = []
  · subst hw
    rw [parts_nil, List.mem_append, List.mem_cons, List.mem_map, List.mem_singleton] at hp
    rcases hp with (rfl | ⟨a, ha, rfl⟩) | rfl
    · exact List.nil_infix
    · obtain ⟨before, after, rfl⟩ := List.append_of_mem ha
      exact ⟨before, after, by simp⟩
    · exact List.nil_infix
  · exact (cut_parts hw l).infix_of_mem hp

theorem two_le_length_parts (hmem : w <:+: l) : 2 ≤ (parts w l).length := by
  by_cases hw : w = []
  · subst hw
    simp [parts_nil]
  · exact (cut_parts hw l).two_le_length hmem

theorem parts_ne_nil (w l : List α) : parts w l ≠ [] := by
  by_cases hw : w = []
  · subst hw
    simp [parts_nil]
  · exact (cut_parts hw l).ne_nil

/-- In place of a single letter the list is rewritten letter by letter. -/
theorem replace_singleton (a : α) (v l : List α) :
    replace [a] v l = l.flatMap fun b => if b = a then v else [b] := by
  have hcut := cut_parts (List.cons_ne_nil a []) l
  unfold replace
  generalize parts [a] l = ps at hcut
  have hfree : ∀ l' : List α, a ∉ l' → (l'.flatMap fun b => if b = a then v else [b]) = l' := by
    intro l' hmem
    conv_rhs => rw [← List.flatMap_singleton' l']
    refine List.flatMap_congr fun b hb => if_neg ?_
    rintro rfl
    exact hmem hb
  induction hcut with
  | last h =>
    rw [List.intercalate_singleton, hfree]
    intro hmem
    obtain ⟨before, after, rfl⟩ := List.append_of_mem hmem
    exact h before ⟨after, by simp⟩
  | @cons l before after ps hfirst heq hafter ih =>
    have hbefore : a ∉ before := by
      intro hmem
      obtain ⟨before', after', rfl⟩ := List.append_of_mem hmem
      have hle := hfirst.2 before' ⟨after' ++ [a] ++ after, by rw [heq]; simp⟩
      simp only [List.length_append, List.length_cons] at hle
      omega
    rw [List.intercalate_cons_of_ne_nil hafter.ne_nil, ih, heq, List.flatMap_append,
      List.flatMap_append, List.flatMap_singleton, if_pos rfl, hfree before hbefore,
      List.append_assoc]

/-- A list without the word is one part. -/
theorem replace_of_not_infix (hw : w ≠ []) (h : ¬ w <:+: l) (v : List α) : replace w v l = l := by
  have hparts : parts w l = [l] := by
    have hcut := cut_parts hw l
    generalize parts w l = ps at hcut
    cases hcut with
    | last => rfl
    | cons hfirst heq => exact absurd ⟨_, _, heq.symm⟩ h
  rw [replace, hparts, List.intercalate_singleton]

end Parts

/-! ### Relations between neighbours -/

/-- Where one of the lists ends and the next one begins, empty lists aside, the relation holds. -/
def Adjoins (R : α → α → Prop) (ls : List (List α)) : Prop :=
  (ls.filter (!·.isEmpty)).IsChain fun l l' => ∀ x ∈ l.getLast?, ∀ y ∈ l'.head?, R x y

variable {R : α → α → Prop}

theorem flatten_filter_ne_nil (ls : List (List α)) :
    (ls.filter (!·.isEmpty)).flatten = ls.flatten := by
  induction ls with
  | nil => rfl
  | cons l ls ih => cases l <;> simp [ih]

/-- The relation holds between all neighbours if it does in each list and where two of them
meet. -/
theorem isChain_flatten_iff {ls : List (List α)} :
    ls.flatten.IsChain R ↔ (∀ l ∈ ls, l.IsChain R) ∧ Adjoins R ls := by
  have hnil : [] ∉ ls.filter (!·.isEmpty) := by simp
  rw [← flatten_filter_ne_nil, List.isChain_flatten hnil]
  refine and_congr_left fun _ => ⟨fun h l hl => ?_, fun h l hl => h l (List.mem_of_mem_filter hl)⟩
  cases l with
  | nil => exact List.isChain_nil
  | cons a l => exact h _ (List.mem_filter.mpr ⟨hl, rfl⟩)

theorem forall_mem_intersperse {P : List α → Prop} (hps : 2 ≤ ps.length) :
    (∀ l ∈ ps.intersperse v, P l) ↔ (∀ p ∈ ps, P p) ∧ P v := by
  induction ps with
  | nil => simp at hps
  | cons p ps ih =>
    cases ps with
    | nil => simp at hps
    | cons q qs =>
      rw [List.intersperse_cons_cons, List.forall_mem_cons, List.forall_mem_cons]
      cases qs with
      | nil => simp; tauto
      | cons r rs =>
        rw [ih (by simp)]
        simp only [List.forall_mem_cons]
        tauto

/-! ### What long words make of the parts -/

theorem infix_intercalate_of_mem {p : List α} (hp : p ∈ ps) : p <:+: w.intercalate ps := by
  induction ps with
  | nil => cases hp
  | cons q ps ih =>
    by_cases hps : ps = []
    · subst hps
      rw [List.intercalate_singleton, List.mem_singleton.mp hp]
    · rw [List.intercalate_cons_of_ne_nil hps]
      rcases List.mem_cons.mp hp with rfl | hmem
      · exact ⟨[], w ++ w.intercalate ps, by simp⟩
      · exact (ih hmem).trans (List.suffix_append _ _).isInfix

theorem suffix_intercalate_concat (w : List α) (ps : List (List α)) (p : List α) :
    p <:+ w.intercalate (ps ++ [p]) := by
  induction ps with
  | nil => rw [List.nil_append, List.intercalate_singleton]
  | cons q ps ih =>
    rw [List.cons_append, List.intercalate_cons_of_ne_nil (by simp)]
    exact ih.trans (List.suffix_append _ _)

theorem length_intercalate (hps : ps ≠ []) :
    (w.intercalate ps).length + w.length = (ps.map List.length).sum + ps.length * w.length := by
  induction ps with
  | nil => exact absurd rfl hps
  | cons p ps ih =>
    by_cases hrest : ps = []
    · simp [hrest]
    · have hlength := ih hrest
      rw [List.intercalate_cons_of_ne_nil hrest]
      simp only [List.length_append, List.map_cons, List.sum_cons, List.length_cons, Nat.succ_mul]
      omega

/-- Parts that two different words join to equally long lists are equally many. -/
theorem length_eq_of_intercalate {qs : List (List α)} (hps : ps ≠ []) (hqs : qs ≠ [])
    (hlt : w.length < v.length) (hw : (w.intercalate ps).length = (w.intercalate qs).length)
    (hv : (v.intercalate ps).length = (v.intercalate qs).length) : ps.length = qs.length := by
  have h₁ := length_intercalate (w := w) hps
  have h₂ := length_intercalate (w := w) hqs
  have h₃ := length_intercalate (w := v) hps
  have h₄ := length_intercalate (w := v) hqs
  obtain ⟨d, hd⟩ := Nat.exists_eq_add_of_lt hlt
  rw [hd] at h₃ h₄
  have hmul : ps.length * (d + 1) = qs.length * (d + 1) := by
    rw [Nat.add_assoc, Nat.mul_add] at h₃ h₄
    omega
  exact Nat.eq_of_mul_eq_mul_right d.succ_pos hmul

/-- A word that ends with its only letter of the kind does not begin inside itself. -/
theorem eq_nil_of_append_long {x y : α} (hxy : x ≠ y) {n : ℕ} {t rest rest' : List α}
    (ht : t.length ≤ n)
    (h : List.replicate n x ++ [y] ++ rest = t ++ (List.replicate n x ++ [y] ++ rest')) :
    t = [] := by
  by_contra hne
  have hpos := List.length_pos_iff.mpr hne
  have hleft : (List.replicate n x ++ [y] ++ rest)[n]? = some y := by simp
  have hright : (t ++ (List.replicate n x ++ [y] ++ rest'))[n]? = some x := by
    have hindex : n - t.length < (List.replicate n x).length := by
      rw [List.length_replicate]
      omega
    rw [List.getElem?_append_right ht, List.append_assoc, List.getElem?_append_left hindex,
      List.getElem?_replicate, if_pos (by omega)]
  rw [h, hright] at hleft
  exact hxy (Option.some.inj hleft)

/-- The parts can be read off what a long word makes of them. -/
theorem eq_of_intercalate_eq {x y : α} (hxy : x ≠ y) {n : ℕ} {qs : List (List α)}
    (hps : ∀ p ∈ ps, p.length ≤ n) (hqs : ∀ q ∈ qs, q.length ≤ n) (hlength : ps.length = qs.length)
    (h : (List.replicate n x ++ [y]).intercalate ps = (List.replicate n x ++ [y]).intercalate qs) :
    ps = qs := by
  induction ps generalizing qs with
  | nil => exact (List.eq_nil_of_length_eq_zero hlength.symm).symm
  | cons p ps ih =>
    obtain ⟨q, qs, rfl⟩ := List.exists_cons_of_length_eq_add_one hlength.symm
    obtain ⟨hp, hpsrest⟩ := List.forall_mem_cons.mp hps
    obtain ⟨hq, hqsrest⟩ := List.forall_mem_cons.mp hqs
    have hrest : ps.length = qs.length := by simpa using hlength
    by_cases hnil : ps = []
    · obtain rfl : qs = [] := List.eq_nil_of_length_eq_zero (by rw [← hrest, hnil]; rfl)
      subst hnil
      simpa using h
    · have hnil' : qs ≠ [] := fun heq =>
        hnil (List.eq_nil_of_length_eq_zero (by rw [hrest, heq]; rfl))
      rw [List.intercalate_cons_of_ne_nil hnil, List.intercalate_cons_of_ne_nil hnil'] at h
      have hpq : p = q := by
        simp only [List.append_assoc p, List.append_assoc q] at h
        obtain ⟨t, rfl, heq⟩ | ⟨t, rfl, heq⟩ := List.append_eq_append_iff.mp h
        · have ht : t.length ≤ n := by rw [List.length_append] at hq; omega
          rw [eq_nil_of_append_long hxy ht heq, List.append_nil]
        · have ht : t.length ≤ n := by rw [List.length_append] at hp; omega
          rw [eq_nil_of_append_long hxy ht heq, List.append_nil]
      subst hpq
      rw [ih hpsrest hqsrest hrest (List.append_cancel_left h)]

/-! ### Shortened parts -/

theorem length_flatMap_le {β : Type} {f g : β → List α} {l : List β}
    (h : ∀ x ∈ l, (f x).length ≤ (g x).length) : (l.flatMap f).length ≤ (l.flatMap g).length := by
  induction l with
  | nil => exact Nat.le_refl 0
  | cons x l ih =>
    rw [List.flatMap_cons, List.flatMap_cons, List.length_append, List.length_append]
    exact Nat.add_le_add (h x List.mem_cons_self) (ih fun y hy => h y (List.mem_cons_of_mem x hy))

/-- Parts that are no longer than those of a whole make it up only if they are the same parts. -/
theorem flatMap_eq_iff_of_length_le {β : Type} {f g : β → List α} {l : List β}
    (h : ∀ x ∈ l, (f x).length ≤ (g x).length) :
    l.flatMap f = l.flatMap g ↔ ∀ x ∈ l, f x = g x := by
  induction l with
  | nil => simp
  | cons x l ih =>
    have hrest : ∀ y ∈ l, (f y).length ≤ (g y).length := fun y hy =>
      h y (List.mem_cons_of_mem x hy)
    rw [List.flatMap_cons, List.flatMap_cons, List.forall_mem_cons, ← ih hrest]
    constructor
    · intro heq
      -- neither the first part nor the others can make up for what is missing
      have hlength := congrArg List.length heq
      rw [List.length_append, List.length_append] at hlength
      have hfirst := h x List.mem_cons_self
      have hothers := length_flatMap_le hrest
      exact List.append_inj heq (by omega)
    · rintro ⟨hfirst, hothers⟩
      rw [hfirst, hothers]

end Theory
