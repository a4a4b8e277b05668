import Mathlib.Data.Nat.Notation

/-!
# Recursion under a budget of calls

A recursive program that may run forever is read as a family of computations, one for each
budget of nested calls, and a computation whose budget is used up gives nothing. The
program computes an outcome when every large enough budget gives it and no budget gives
another, and it diverges when no budget gives one.

A guarded program is a program that stops with an error of its own where the plain program
is about to repeat a call. It settles when it computes an outcome that the plain program
computes as well, or stops at its guard where the plain program diverges.

## Main results

* `Decided.option_bind` — two computations one after the other have an outcome, or none
* `Settles.bind` — two settled computations one after the other
* `Settles.succ` — a call settles when its body does
-/

namespace Theory

/-- A computation with a state and errors that gives nothing when its budget is used up. -/
abbrev Budgeted (σ ε α : Type) := StateT σ (ExceptT ε Option) α

section Outcome

variable {ρ : Type} {x : ℕ → Option ρ} {r : ρ}

/-- Every large enough budget gives the outcome and no budget gives another. -/
def Computes (x : ℕ → Option ρ) (r : ρ) : Prop :=
  (∃ n, ∀ m ≥ n, x m = some r) ∧ ∀ m r', x m = some r' → r' = r

/-- No budget is enough. -/
def Diverges (x : ℕ → Option ρ) : Prop := ∀ m, x m = none

theorem computes_const : Computes (fun _ => some r) r :=
  ⟨⟨0, fun _ _ => rfl⟩, fun _ _ h => (Option.some.inj h).symm⟩

theorem Computes.unique {r' : ρ} (h : Computes x r) {m : ℕ} (h' : x m = some r') : r' = r :=
  h.2 m r' h'

theorem Computes.eq {r' : ρ} (h : Computes x r) (h' : Computes x r') : r' = r := by
  obtain ⟨n, hn⟩ := h'.1
  exact h.unique (hn n (Nat.le_refl n))

theorem Computes.not_diverges (h : Computes x r) : ¬ Diverges x := by
  intro hx
  obtain ⟨n, hn⟩ := h.1
  have hnone := hx n
  rw [hn n (Nat.le_refl n)] at hnone
  cases hnone

/-- What is read off an outcome. -/
theorem Computes.map {ρ' : Type} {g : Option ρ → Option ρ'} {r' : ρ'} (h : Computes x r)
    (hnone : g none = none) (hr : g (some r) = some r') : Computes (fun n => g (x n)) r' := by
  obtain ⟨⟨n, hn⟩, hunique⟩ := h
  refine ⟨⟨n, fun m hm => ?_⟩, fun m r'' hr'' => ?_⟩
  · dsimp only
    rw [hn m hm, hr]
  · dsimp only at hr''
    cases hx : x m with
    | none =>
      rw [hx, hnone] at hr''
      cases hr''
    | some s =>
      rw [hx, hunique m s hx, hr] at hr''
      exact (Option.some.inj hr'').symm

/-- The budget of a call is one more than the budget of its body. -/
theorem Computes.succ (h : Computes (fun n => x (n + 1)) r) (hzero : x 0 = none) :
    Computes x r := by
  obtain ⟨⟨n, hn⟩, huniq⟩ := h
  refine ⟨⟨n + 1, fun m hm => ?_⟩, fun m r' hr' => ?_⟩
  · obtain ⟨k, rfl⟩ := Nat.exists_eq_add_of_le' (Nat.le_trans (Nat.le_add_left 1 n) hm)
    exact hn k (Nat.le_of_succ_le_succ hm)
  · cases m with
    | zero => rw [hzero] at hr'; cases hr'
    | succ m => exact huniq m r' hr'

theorem Diverges.succ (h : Diverges fun n => x (n + 1)) (hzero : x 0 = none) : Diverges x := by
  intro m
  cases m with
  | zero => exact hzero
  | succ m => exact h m

/-- The computation has an outcome, or no budget is enough. -/
def Decided (x : ℕ → Option ρ) : Prop := (∃ r, Computes x r) ∨ Diverges x

theorem Computes.decided (h : Computes x r) : Decided x := .inl ⟨r, h⟩

/-- A decided computation that gives something under one budget computes it. -/
theorem Decided.computes (h : Decided x) {n : ℕ} (hn : x n = some r) : Computes x r := by
  obtain ⟨r', hr'⟩ | hdiverges := h
  · obtain rfl := hr'.unique hn
    exact hr'
  · rw [hdiverges n] at hn
    cases hn

end Outcome

section Option

variable {α β : Type} {x : ℕ → Option α} {f : ℕ → α → Option β} {a : α} {b : β}

theorem Computes.option_bind (hx : Computes x a) (hf : Computes (fun n => f n a) b) :
    Computes (fun n => (x n).bind (f n)) b := by
  obtain ⟨⟨n, hn⟩, hunique⟩ := hx
  obtain ⟨⟨k, hk⟩, hunique'⟩ := hf
  refine ⟨⟨max n k, fun m hm => ?_⟩, fun m b' hb' => ?_⟩
  · have hfirst := hn m (Nat.le_trans (Nat.le_max_left n k) hm)
    have hsecond := hk m (Nat.le_trans (Nat.le_max_right n k) hm)
    dsimp only
    rw [hfirst]
    exact hsecond
  · obtain ⟨a', ha', hb'⟩ := Option.bind_eq_some_iff.mp hb'
    obtain rfl := hunique m a' ha'
    exact hunique' m b' hb'

theorem Computes.exists_option_bind (hx : Computes x a) (hf : ∃ b, Computes (fun n => f n a) b) :
    ∃ b, Computes (fun n => (x n).bind (f n)) b := by
  obtain ⟨b, hb⟩ := hf
  exact ⟨b, hx.option_bind hb⟩

theorem Computes.option_map {g : α → β} (hx : Computes x a) :
    Computes (fun n => (x n).map g) (g a) :=
  hx.map rfl rfl

theorem Diverges.option_bind (hx : Diverges x) : Diverges fun n => (x n).bind (f n) := by
  intro n
  dsimp only
  rw [hx n]
  rfl

theorem Computes.option_bind_diverges (hx : Computes x a) (hf : Diverges fun n => f n a) :
    Diverges fun n => (x n).bind (f n) := by
  intro n
  refine Option.bind_eq_none_iff.mpr fun a' ha' => ?_
  obtain rfl := hx.unique ha'
  exact hf n

theorem Decided.option_bind (hx : Decided x) (hf : ∀ a, Decided fun n => f n a) :
    Decided fun n => (x n).bind (f n) := by
  obtain ⟨a, ha⟩ | hdiverges := hx
  · obtain ⟨b, hb⟩ | hdiverges := hf a
    · exact (ha.option_bind hb).decided
    · exact .inr (ha.option_bind_diverges hdiverges)
  · exact .inr hdiverges.option_bind

theorem Decided.option_map {g : α → β} (hx : Decided x) : Decided fun n => (x n).map g := by
  obtain ⟨a, ha⟩ | hdiverges := hx
  · exact ha.option_map.decided
  · refine .inr fun n => ?_
    dsimp only
    rw [hdiverges n]
    rfl

/-- The first answer among those to some questions. -/
def firstAnswer (ask : α → Option (Option β)) : List α → Option (Option β)
  | [] => some none
  | a :: l => (ask a).bind fun
    | some answer => some (some answer)
    | none => firstAnswer ask l

theorem firstAnswer_eq_some_none {ask : α → Option (Option β)} {l : List α} :
    firstAnswer ask l = some none ↔ ∀ a ∈ l, ask a = some none := by
  induction l with
  | nil => simp [firstAnswer]
  | cons a l ih =>
    rw [firstAnswer, List.forall_mem_cons, ← ih]
    rcases ask a with _ | _ | _ <;> simp

/-- The questions before the first answer have none. -/
theorem exists_split_of_firstAnswer {ask : α → Option (Option β)} {l : List α}
    (h : firstAnswer ask l = some (some b)) :
    ∃ before a after, l = before ++ a :: after ∧ (∀ a' ∈ before, ask a' = some none) ∧
      ask a = some (some b) := by
  induction l with
  | nil => cases h
  | cons a l ih =>
    obtain ⟨answer, ha, h⟩ := Option.bind_eq_some_iff.mp h
    cases answer with
    | none =>
      obtain ⟨before, a', after, rfl, hbefore, ha'⟩ := ih h
      exact ⟨a :: before, a', after, rfl, List.forall_mem_cons.mpr ⟨ha, hbefore⟩, ha'⟩
    | some answer =>
      cases h
      exact ⟨[], a, l, rfl, List.forall_mem_nil _, ha⟩

theorem exists_of_firstAnswer {ask : α → Option (Option β)} {l : List α}
    (h : firstAnswer ask l = some (some b)) : ∃ a ∈ l, ask a = some (some b) := by
  obtain ⟨before, a, after, rfl, -, ha⟩ := exists_split_of_firstAnswer h
  exact ⟨a, List.mem_append_right before (List.mem_cons_self ..), ha⟩

theorem Decided.firstAnswer {ask : ℕ → α → Option (Option β)} {l : List α}
    (h : ∀ a ∈ l, Decided fun n => ask n a) :
    Decided fun n => Theory.firstAnswer (ask n) l := by
  induction l with
  | nil => exact computes_const.decided
  | cons a l ih =>
    rw [List.forall_mem_cons] at h
    apply h.1.option_bind
    intro answer
    cases answer with
    | none => exact ih h.2
    | some answer => exact computes_const.decided

theorem exists_computes_firstAnswer {ask : ℕ → α → Option (Option β)} {l : List α}
    (h : ∀ a ∈ l, ∃ answer, Computes (fun n => ask n a) answer) :
    ∃ answer, Computes (fun n => firstAnswer (ask n) l) answer := by
  induction l with
  | nil => exact ⟨none, computes_const⟩
  | cons a l ih =>
    obtain ⟨⟨answer, ha⟩, hrest⟩ := List.forall_mem_cons.mp h
    cases answer with
    | none =>
      obtain ⟨answer, hl⟩ := ih hrest
      exact ⟨answer, ha.option_bind hl⟩
    | some answer => exact ⟨some answer, ha.option_bind computes_const⟩

theorem exists_computes_mapM {f : ℕ → α → Option β} {l : List α}
    (h : ∀ a ∈ l, ∃ b, Computes (fun n => f n a) b) :
    ∃ bs, Computes (fun n => l.mapM (f n)) bs := by
  induction l with
  | nil => exact ⟨[], computes_const⟩
  | cons a l ih =>
    obtain ⟨⟨b, hb⟩, hrest⟩ := List.forall_mem_cons.mp h
    obtain ⟨bs, hbs⟩ := ih hrest
    refine ⟨b :: bs, ?_⟩
    simp only [List.mapM_cons]
    exact hb.option_bind (hbs.option_bind computes_const)

theorem Computes.mapM {f : ℕ → α → Option β} {g : α → β} {l : List α}
    (h : ∀ a ∈ l, Computes (fun n => f n a) (g a)) :
    Computes (fun n => l.mapM (f n)) (l.map g) := by
  induction l with
  | nil => exact computes_const
  | cons a l ih =>
    obtain ⟨ha, hrest⟩ := List.forall_mem_cons.mp h
    simp only [List.mapM_cons, List.map_cons]
    exact ha.option_bind ((ih hrest).option_bind computes_const)

theorem computes_mapM_self {f : ℕ → α → Option α} {l : List α}
    (h : ∀ a ∈ l, Computes (fun n => f n a) a) : Computes (fun n => l.mapM (f n)) l := by
  have hmap : Computes (fun n => l.mapM (f n)) (l.map id) := Computes.mapM h
  rwa [List.map_id] at hmap

/-- Steps that compute and keep an invariant, one after the other. -/
theorem exists_computes_foldlM {f : ℕ → β → α → Option β} {l : List α} {inv : β → Prop}
    (h : ∀ a ∈ l, ∀ b, inv b → ∃ b', Computes (fun n => f n b a) b' ∧ inv b') (hb : inv b) :
    ∃ b', Computes (fun n => l.foldlM (f n) b) b' ∧ inv b' := by
  induction l generalizing b with
  | nil => exact ⟨b, computes_const, hb⟩
  | cons a l ih =>
    rw [List.forall_mem_cons] at h
    obtain ⟨b₁, hb₁, hinv₁⟩ := h.1 b hb
    obtain ⟨b₂, hb₂, hinv₂⟩ := ih h.2 hinv₁
    refine ⟨b₂, ?_, hinv₂⟩
    simp only [List.foldlM_cons]
    exact hb₁.option_bind hb₂

end Option

variable {σ ε α β : Type} {s t : σ}

/-- What a computation followed by another gives. -/
theorem bind_apply (x : Budgeted σ ε α) (f : α → Budgeted σ ε β) (s : σ) :
    (x >>= f) s = match (x s : Option (Except ε (α × σ))) with
      | none => (none : Option (Except ε (β × σ)))
      | some (.error e) => some (.error e)
      | some (.ok (a, t)) => f a t := by
  have hbind : (x >>= f) s =
      Option.bind (x s : Option (Except ε (α × σ))) (ExceptT.bindCont fun p => f p.1 p.2) := rfl
  rw [hbind]
  rcases (x s : Option (Except ε (α × σ))) with _ | _ | _ <;> rfl

section Bind

variable {x : ℕ → Budgeted σ ε α} {f : ℕ → α → Budgeted σ ε β}

theorem Computes.bind {a : α} {r : Except ε (β × σ)}
    (hx : Computes (fun n => (x n s : Option _)) (.ok (a, t)))
    (hf : Computes (fun n => (f n a t : Option _)) r) :
    Computes (fun n => ((x n >>= f n) s : Option _)) r := by
  obtain ⟨⟨n, hn⟩, hunique⟩ := hx
  obtain ⟨⟨k, hk⟩, hunique'⟩ := hf
  refine ⟨⟨max n k, fun m hm => ?_⟩, fun m r' hr' => ?_⟩
  · have hfirst := hn m (Nat.le_trans (Nat.le_max_left n k) hm)
    have hsecond := hk m (Nat.le_trans (Nat.le_max_right n k) hm)
    simp only [bind_apply, hfirst, hsecond]
  · simp only [bind_apply] at hr'
    split at hr'
    · cases hr'
    · next e he => cases hunique m _ he
    · next b u hb =>
      cases hunique m _ hb
      exact hunique' m r' hr'

theorem Computes.bind_error {e : ε} (hx : Computes (fun n => (x n s : Option _)) (.error e)) :
    Computes (fun n => ((x n >>= f n) s : Option _)) (.error e) := by
  obtain ⟨⟨n, hn⟩, hunique⟩ := hx
  refine ⟨⟨n, fun m hm => ?_⟩, fun m r' hr' => ?_⟩
  · simp only [bind_apply, hn m hm]
  · simp only [bind_apply] at hr'
    split at hr'
    · cases hr'
    · next e' he' =>
      cases hunique m _ he'
      exact (Option.some.inj hr').symm
    · next b u hb => cases hunique m _ hb

theorem Diverges.bind (hx : Diverges fun n => (x n s : Option _)) :
    Diverges fun n => ((x n >>= f n) s : Option _) := by
  intro m
  have hnone := hx m
  simp only [bind_apply, hnone]

theorem Computes.bind_diverges {a : α} (hx : Computes (fun n => (x n s : Option _)) (.ok (a, t)))
    (hf : Diverges fun n => (f n a t : Option _)) :
    Diverges fun n => ((x n >>= f n) s : Option _) := by
  intro m
  have hnone := hf m
  simp only [bind_apply]
  split
  · rfl
  · next e he => cases hx.unique he
  · next b u hb =>
    cases hx.unique hb
    exact hnone

/-! The steps that every budget takes alike. -/

variable {next : ℕ → σ → Budgeted σ ε β} {rest : ℕ → Unit → Budgeted σ ε β}
  {r : Except ε (β × σ)}

theorem Computes.get_bind (h : Computes (fun n => (next n s s : Option _)) r) :
    Computes (fun n => ((get >>= next n) s : Option _)) r := h

theorem Computes.set_bind (h : Computes (fun n => (rest n () t : Option _)) r) :
    Computes (fun n => ((set t >>= rest n) s : Option _)) r := h

theorem Computes.modify_bind {change : σ → σ}
    (h : Computes (fun n => (rest n () (change s) : Option _)) r) :
    Computes (fun n => ((modify change >>= rest n) s : Option _)) r := h

theorem Computes.modifyGet_bind {change : σ → α × σ}
    (h : Computes (fun n => (f n (change s).1 (change s).2 : Option _)) r) :
    Computes (fun n => ((modifyGet change >>= f n) s : Option _)) r := h

theorem computes_pure {a : α} :
    Computes (fun _ => ((pure a : Budgeted σ ε α) s : Option _)) (.ok (a, s)) :=
  computes_const

/-- An alternative that answers `true` ends the choice. -/
theorem Computes.orElse_true {y y' : ℕ → Budgeted σ ε Bool}
    (h : Computes (fun n => (y n s : Option _)) (.ok (true, t))) :
    Computes (fun n => ((y n <||> y' n) s : Option _)) (.ok (true, t)) :=
  h.bind computes_pure

theorem Computes.orElse_false {y y' : ℕ → Budgeted σ ε Bool} {r : Except ε (Bool × σ)}
    (h : Computes (fun n => (y n s : Option _)) (.ok (false, t)))
    (h' : Computes (fun n => (y' n t : Option _)) r) :
    Computes (fun n => ((y n <||> y' n) s : Option _)) r :=
  h.bind h'

end Bind

/-! ## Guarded programs -/

/-- The guarded program computes what the plain one computes, and the state left by a
success meets the condition, or it stops at its guard and the plain program diverges. -/
def Settles (stop : ε) (guarded plain : ℕ → Budgeted σ ε α) (s : σ) (post : α → σ → Prop) :
    Prop :=
  (∃ a t, Computes (fun n => (guarded n s : Option _)) (.ok (a, t)) ∧
    Computes (fun n => (plain n s : Option _)) (.ok (a, t)) ∧ post a t) ∨
  (∃ e ≠ stop, Computes (fun n => (guarded n s : Option _)) (.error e) ∧
    Computes (fun n => (plain n s : Option _)) (.error e)) ∨
  (Computes (fun n => (guarded n s : Option _)) (.error stop) ∧
    Diverges fun n => (plain n s : Option _))

namespace Settles

variable {stop : ε} {x y : ℕ → Budgeted σ ε α} {f g : ℕ → α → Budgeted σ ε β}
  {post : α → σ → Prop} {post' : β → σ → Prop}

/-- A computation that gives the same under every budget. -/
theorem of_ok {a : α} (hx : ∀ n, (x n s : Option _) = some (.ok (a, t)))
    (hy : ∀ n, (y n s : Option _) = some (.ok (a, t))) (h : post a t) :
    Settles stop x y s post := by
  refine .inl ⟨a, t, ?_, ?_, h⟩
  · rw [funext hx]
    exact computes_const
  · rw [funext hy]
    exact computes_const

theorem of_error {e : ε} (hx : ∀ n, (x n s : Option _) = some (.error e))
    (hy : ∀ n, (y n s : Option _) = some (.error e)) (h : e ≠ stop) :
    Settles stop x y s post := by
  refine .inr (.inl ⟨e, h, ?_, ?_⟩)
  · rw [funext hx]
    exact computes_const
  · rw [funext hy]
    exact computes_const

theorem mono {weaker : α → σ → Prop} (h : Settles stop x y s post)
    (himp : ∀ a t, post a t → weaker a t) : Settles stop x y s weaker := by
  rcases h with ⟨a, t, hx, hy, hp⟩ | herror | hstop
  · exact .inl ⟨a, t, hx, hy, himp a t hp⟩
  · exact .inr (.inl herror)
  · exact .inr (.inr hstop)

/-- Two computations one after the other. -/
theorem bind (h : Settles stop x y s post)
    (hnext : ∀ a t, post a t → Settles stop (fun n => f n a) (fun n => g n a) t post') :
    Settles stop (fun n => x n >>= f n) (fun n => y n >>= g n) s post' := by
  rcases h with ⟨a, t, hx, hy, hp⟩ | ⟨e, he, hx, hy⟩ | ⟨hx, hy⟩
  · rcases hnext a t hp with ⟨b, u, hf, hg, hq⟩ | ⟨e, he, hf, hg⟩ | ⟨hf, hg⟩
    · exact .inl ⟨b, u, hx.bind hf, hy.bind hg, hq⟩
    · exact .inr (.inl ⟨e, he, hx.bind hf, hy.bind hg⟩)
    · exact .inr (.inr ⟨hx.bind hf, hy.bind_diverges hg⟩)
  · exact .inr (.inl ⟨e, he, hx.bind_error, hy.bind_error⟩)
  · exact .inr (.inr ⟨hx.bind_error, hy.bind⟩)

section Steps

variable {next next' : ℕ → σ → Budgeted σ ε β} {rest rest' : ℕ → Unit → Budgeted σ ε β}

/-- A first step that every budget takes alike. -/
theorem step_bind {a : α} (hx : ∀ n, (x n s : Option _) = some (.ok (a, t)))
    (hy : ∀ n, (y n s : Option _) = some (.ok (a, t)))
    (h : Settles stop (fun n => f n a) (fun n => g n a) t post') :
    Settles stop (fun n => x n >>= f n) (fun n => y n >>= g n) s post' := by
  have hstep : Settles stop x y s fun b u => b = a ∧ u = t := of_ok hx hy ⟨rfl, rfl⟩
  apply hstep.bind
  rintro b u ⟨rfl, rfl⟩
  exact h

theorem pure {a : α} (h : post a s) :
    Settles stop (fun _ => Pure.pure a) (fun _ => Pure.pure a) s post :=
  of_ok (fun _ => rfl) (fun _ => rfl) h

theorem get_bind (h : Settles stop (fun n => next n s) (fun n => next' n s) s post') :
    Settles stop (fun n => get >>= next n) (fun n => get >>= next' n) s post' :=
  step_bind (fun _ => rfl) (fun _ => rfl) h

theorem set_bind (h : Settles stop (fun n => rest n ()) (fun n => rest' n ()) t post') :
    Settles stop (fun n => set t >>= rest n) (fun n => set t >>= rest' n) s post' :=
  step_bind (fun _ => rfl) (fun _ => rfl) h

theorem modify_bind {change : σ → σ}
    (h : Settles stop (fun n => rest n ()) (fun n => rest' n ()) (change s) post') :
    Settles stop (fun n => modify change >>= rest n) (fun n => modify change >>= rest' n) s post' :=
  step_bind (fun _ => rfl) (fun _ => rfl) h

theorem modifyGet_bind {change : σ → α × σ}
    (h : Settles stop (fun n => f n (change s).1) (fun n => g n (change s).1) (change s).2 post') :
    Settles stop (fun n => modifyGet change >>= f n) (fun n => modifyGet change >>= g n) s post' :=
  step_bind (fun _ => rfl) (fun _ => rfl) h

end Steps

/-- A second computation that runs when the first answers `false`. -/
theorem orElse {x x' y y' : ℕ → Budgeted σ ε Bool} {post post' : Bool → σ → Prop}
    (h : Settles stop x y s post) (htrue : ∀ t, post true t → post' true t)
    (hfalse : ∀ t, post false t → Settles stop x' y' t post') :
    Settles stop (fun n => x n <||> x' n) (fun n => y n <||> y' n) s post' := by
  apply h.bind
  intro a t hp
  cases a with
  | false => exact hfalse t hp
  | true => exact pure (htrue t hp)

/-- A call settles when its body does. -/
theorem succ (h : Settles stop (fun n => x (n + 1)) (fun n => y (n + 1)) s post)
    (hx : (x 0 s : Option _) = none) (hy : (y 0 s : Option _) = none) :
    Settles stop x y s post := by
  rcases h with ⟨a, t, hx', hy', hp⟩ | ⟨e, he, hx', hy'⟩ | ⟨hx', hy'⟩
  · exact .inl ⟨a, t, hx'.succ hx, hy'.succ hy, hp⟩
  · exact .inr (.inl ⟨e, he, hx'.succ hx, hy'.succ hy⟩)
  · exact .inr (.inr ⟨hx'.succ hx, hy'.succ hy⟩)

/-- The guarded program stops at its guard where the plain one diverges. -/
theorem of_stop (hx : ∀ n, (x n s : Option _) = some (.error stop))
    (hy : Diverges fun n => (y n s : Option _)) : Settles stop x y s post := by
  refine .inr (.inr ⟨?_, hy⟩)
  rw [funext hx]
  exact computes_const

end Settles

end Theory
