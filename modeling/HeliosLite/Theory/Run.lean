import Mathlib.Data.List.Infix

/-!
# Runs of a step function

A run applies one action after the other. An invariant that every step keeps holds in
every state that is reached, also when the steps keep it only under a condition that each
of them meets.

## Main definitions

* `run` — the state after a list of actions
* `outputs` — what the steps of a run give
* `Meets` — every step of a run meets a condition when it is taken

## Main results

* `run_invariant` — an invariant holds in every state reached
* `meets_iff` — two conditions on the steps of a run that agree under an invariant
* `forall_initial_iff` — a property holds in every state if every step meets a condition
* `run_constant` — an observation that no step changes stays the same
* `exists_last_stretch` — the last stretch of a run on which a property holds
-/

namespace Theory

variable {σ α β : Type*} (step : σ → α → σ)

/-- The state after a list of actions. -/
def run (s : σ) (as : List α) : σ := as.foldl step s

/-- What each step of the run gives, in the state in which it is taken. -/
def outputs (out : σ → α → β) : σ → List α → List β
  | _, [] => []
  | s, a :: as => out s a :: outputs out (step s a) as

/-- Every step of the run meets the condition in the state in which it is taken. -/
def Meets (guard : σ → α → Prop) : σ → List α → Prop
  | _, [] => True
  | s, a :: as => guard s a ∧ Meets guard (step s a) as

/-- A condition that can be decided is decided along the run. -/
instance decidableMeets (guard : σ → α → Prop) [∀ s a, Decidable (guard s a)] :
    ∀ (s : σ) (as : List α), Decidable (Meets step guard s as)
  | _, [] => .isTrue trivial
  | s, a :: as =>
    have := decidableMeets guard (step s a) as
    inferInstanceAs (Decidable (guard s a ∧ Meets step guard (step s a) as))

variable {step} {guard : σ → α → Prop} {s : σ}

@[simp] theorem run_nil : run step s [] = s := rfl

@[simp] theorem run_cons (a : α) (as : List α) : run step s (a :: as) = run step (step s a) as :=
  rfl

theorem run_append (as bs : List α) : run step s (as ++ bs) = run step (run step s as) bs :=
  List.foldl_append

theorem map_outputs {γ : Type*} (f : β → γ) (out : σ → α → β) (as : List α) :
    (outputs step out s as).map f = outputs step (fun s a => f (out s a)) s as := by
  induction as generalizing s with
  | nil => rfl
  | cons a as ih => rw [outputs, List.map_cons, ih, outputs]

/-- Steps that give the same in every state of the run in which they are taken. -/
theorem outputs_eq_map {out : σ → α → β} {f : α → β} {as : List α}
    (h : ∀ before a after, as = before ++ a :: after → out (run step s before) a = f a) :
    outputs step out s as = as.map f := by
  induction as generalizing s with
  | nil => rfl
  | cons a as ih =>
    have hfirst : out s a = f a := h [] a as rfl
    rw [outputs, List.map_cons, hfirst, ih]
    intro before b after has
    exact h (a :: before) b after (by rw [has, List.cons_append])

theorem meets_append {as bs : List α} :
    Meets step guard s (as ++ bs) ↔ Meets step guard s as ∧
      Meets step guard (run step s as) bs := by
  induction as generalizing s with
  | nil => simp [Meets]
  | cons a as ih => rw [List.cons_append, Meets, Meets, ih, run_cons, and_assoc]

theorem Meets.initial {as bs : List α} (h : Meets step guard s bs) (hinitial : as <+: bs) :
    Meets step guard s as := by
  obtain ⟨cs, rfl⟩ := hinitial
  exact (meets_append.mp h).1

theorem Meets.imp {guard' : σ → α → Prop} (himp : ∀ s a, guard s a → guard' s a) {as : List α}
    (h : Meets step guard s as) : Meets step guard' s as := by
  induction as generalizing s with
  | nil => trivial
  | cons a as ih => exact ⟨himp s a h.1, ih h.2⟩

theorem meets_and {guard' : σ → α → Prop} {as : List α} (h : Meets step guard s as)
    (h' : Meets step guard' s as) : Meets step (fun s a => guard s a ∧ guard' s a) s as := by
  induction as generalizing s with
  | nil => trivial
  | cons a as ih => exact ⟨⟨h.1, h'.1⟩, ih h.2 h'.2⟩

/-- A condition on the actions alone. -/
theorem meets_of_forall {p : α → Prop} {as : List α} (h : ∀ a ∈ as, p a) :
    Meets step (fun _ a => p a) s as := by
  induction as generalizing s with
  | nil => trivial
  | cons a as ih =>
    exact ⟨h a List.mem_cons_self, ih fun b hb => h b (List.mem_cons_of_mem a hb)⟩

/-- Two conditions agree along a run if they agree wherever an invariant holds that steps which
meet them keep. -/
theorem meets_iff {P guard' : σ → α → Prop} {inv : σ → Prop}
    (hiff : ∀ s a, P s a → inv s → (guard s a ↔ guard' s a))
    (hstep : ∀ s a, P s a → guard' s a → inv s → inv (step s a)) {as : List α}
    (hP : Meets step P s as) (hinv : inv s) : Meets step guard s as ↔ Meets step guard' s as := by
  induction as generalizing s with
  | nil => exact Iff.rfl
  | cons a as ih =>
    rw [Meets, Meets, hiff s a hP.1 hinv]
    apply and_congr_right
    intro ha
    exact ih hP.2 (hstep s a hP.1 ha hinv)

/-- Two conditions that agree under a third. -/
theorem meets_congr {P guard' : σ → α → Prop} (hiff : ∀ s a, P s a → (guard s a ↔ guard' s a))
    {as : List α} (hP : Meets step P s as) :
    Meets step guard s as ↔ Meets step guard' s as := by
  induction as generalizing s with
  | nil => exact Iff.rfl
  | cons a as ih => rw [Meets, Meets, hiff s a hP.1, ih hP.2]

/-- A property holds in every state of a run exactly if every step meets the condition, where the
steps that meet it are those that keep the property. All steps meet an assumption. -/
theorem forall_initial_iff_of_meets {P inv : σ → Prop} {assumed : σ → α → Prop}
    (hP : ∀ s, inv s → P s)
    (hiff : ∀ s a, assumed s a → inv s → (P (step s a) ↔ guard s a))
    (hstep : ∀ s a, assumed s a → inv s → guard s a → inv (step s a)) {as : List α}
    (has : Meets step assumed s as) (hinv : inv s) :
    (∀ bs, bs <+: as → P (run step s bs)) ↔ Meets step guard s as := by
  induction as generalizing s with
  | nil =>
    refine iff_of_true ?_ trivial
    intro bs hbs
    obtain rfl := List.prefix_nil.mp hbs
    exact hP s hinv
  | cons a as ih =>
    rw [Meets]
    constructor
    · intro hall
      have ha : guard s a := (hiff s a has.1 hinv).mp (hall [a] ⟨as, rfl⟩)
      refine ⟨ha, (ih has.2 (hstep s a has.1 hinv ha)).mp ?_⟩
      intro bs hbs
      exact hall (a :: bs) ((List.prefix_cons_inj a).mpr hbs)
    · rintro ⟨ha, hrest⟩ bs hbs
      cases bs with
      | nil => exact hP s hinv
      | cons b bs =>
        obtain ⟨rfl, htail⟩ := List.cons_prefix_cons.mp hbs
        exact (ih has.2 (hstep s b has.1 hinv ha)).mpr hrest bs htail

/-- The same without an assumption. -/
theorem forall_initial_iff {P inv : σ → Prop} (hP : ∀ s, inv s → P s)
    (hiff : ∀ s a, inv s → (P (step s a) ↔ guard s a))
    (hstep : ∀ s a, inv s → guard s a → inv (step s a)) {as : List α} (hinv : inv s) :
    (∀ bs, bs <+: as → P (run step s bs)) ↔ Meets step guard s as := by
  have hall : Meets step (fun _ _ => True) s as := meets_of_forall (p := fun _ => True)
    fun _ _ => trivial
  exact forall_initial_iff_of_meets hP (fun s a _ => hiff s a) (fun s a _ => hstep s a) hall hinv

/-- An invariant that the steps of a run keep holds in the state that it reaches. -/
theorem run_invariant {inv : σ → Prop}
    (hstep : ∀ s a, guard s a → inv s → inv (step s a)) {as : List α}
    (h : Meets step guard s as) (hinv : inv s) : inv (run step s as) := by
  induction as generalizing s with
  | nil => exact hinv
  | cons a as ih => exact ih h.2 (hstep s a h.1 hinv)

/-- An invariant that every step keeps. -/
theorem run_induction {inv : σ → Prop} (hstep : ∀ s a, inv s → inv (step s a)) (hinv : inv s)
    (as : List α) : inv (run step s as) := by
  induction as generalizing s with
  | nil => exact hinv
  | cons a as ih => exact ih (hstep s a hinv)

/-- An observation that no step changes, as long as `P` holds, is the same at the end of a
run through states in which `P` holds. -/
theorem run_constant {P : σ → Prop} {observe : σ → β}
    (hstep : ∀ s a, guard s a → P s → P (step s a) → observe (step s a) = observe s)
    {as : List α} (h : Meets step guard s as) (hP : ∀ bs, bs <+: as → P (run step s bs)) :
    observe (run step s as) = observe s := by
  induction as generalizing s with
  | nil => rfl
  | cons a as ih =>
    have hstart : P s := hP [] List.nil_prefix
    have hnext : P (step s a) := hP [a] ⟨as, rfl⟩
    have hrest : ∀ bs, bs <+: as → P (run step (step s a) bs) := fun bs hbs =>
      hP (a :: bs) ((List.prefix_cons_inj a).mpr hbs)
    rw [run_cons, ih h.2 hrest]
    exact hstep s a h.1 hstart hnext

/-- If `P` holds at the end of a run, the run has a last stretch on which it holds: it starts
with the run, or with a step after a state in which `P` fails. -/
theorem exists_last_stretch {P : σ → Prop} {as : List α} (h : P (run step s as)) :
    ∃ bs cs, as = bs ++ cs ∧ (bs = [] ∨ ¬P (run step s bs.dropLast)) ∧
      ∀ ds, ds <+: cs → P (run step s (bs ++ ds)) := by
  induction as using List.reverseRecOn with
  | nil =>
    refine ⟨[], [], rfl, Or.inl rfl, ?_⟩
    intro ds hds
    obtain rfl := List.prefix_nil.mp hds
    exact h
  | append_singleton as a ih =>
    by_cases hbefore : P (run step s as)
    · obtain ⟨bs, cs, rfl, hstart, hstretch⟩ := ih hbefore
      refine ⟨bs, cs ++ [a], List.append_assoc _ _ _, hstart, ?_⟩
      intro ds hds
      rcases List.prefix_concat_iff.mp hds with rfl | hds
      · rwa [← List.append_assoc]
      · exact hstretch ds hds
    · refine ⟨as ++ [a], [], (List.append_nil _).symm, Or.inr ?_, ?_⟩
      · rwa [List.dropLast_concat]
      · intro ds hds
        obtain rfl := List.prefix_nil.mp hds
        rwa [List.append_nil]

end Theory
