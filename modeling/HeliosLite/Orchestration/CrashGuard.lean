import HeliosLite.Orchestration.Orchestrator

/-!
# The crash guard

The guard copies the flag and the conversation right after the Start hook and is never told
of a flush. A run entered with the flag clear is therefore not persisted by its guard, and
one entered with the flag set is persisted as it was at the start, at every exit.

## Main definitions

* `lastSaved` — the conversation persisted last by the run itself
* `Unflushed` — the conversation has changes that were not persisted
* `GuardRight` — the guard persists exactly when there are such changes, and replaces nothing
  newer
* `GuardFits` — when the guard is right: a condition on how the run was entered and on what
  it persisted so far

## Main results

* `run_guardRight_iff` — the guard is right exactly when it fits
* `run_completed_flushed` — at a normal end nothing is unflushed
-/

namespace HeliosLite

open Theory

def Event.conversation? : Event → Option Conversation
  | .saved conversation => some conversation
  | _ => none

/-- The conversation that the run persisted last. -/
def lastSaved (events : List Event) : Option Conversation :=
  (events.filterMap (·.conversation?)).getLast?

/-- The conversation is not the one persisted last. A run that persisted nothing has
unflushed changes if it was entered with some, or changed the conversation. -/
def Unflushed (entered : Conversation) (enteredDirty : Bool) (s : RunState) : Prop :=
  match lastSaved s.events with
  | some saved => s.conversation ≠ saved
  | none => enteredDirty = true ∨ s.conversation ≠ entered

instance (entered : Conversation) (enteredDirty : Bool) (s : RunState) :
    Decidable (Unflushed entered enteredDirty s) := by
  unfold Unflushed
  split <;> infer_instance

/-- The guard persists the conversation exactly when there are unflushed changes, and what
it persists does not replace a later state that the run persisted. -/
structure GuardRight (entered : Conversation) (enteredDirty : Bool) (s : RunState) : Prop where
  persists : (∃ conversation, .guarded conversation ∈ s.events) ↔ Unflushed entered enteredDirty s
  newest : ∀ conversation, .guarded conversation ∈ s.events →
    ∀ saved ∈ lastSaved s.events, saved = conversation

/-- A run entered with the flag set, whose guard is installed, has unflushed changes and
persisted nothing but the snapshot; any other run has none. -/
def GuardFits (entered : Conversation) (enteredDirty : Bool) (s : RunState) : Prop :=
  match s.guard with
  | some guard =>
    if enteredDirty then
      Unflushed entered enteredDirty s ∧ ∀ saved ∈ lastSaved s.events, saved = guard.conversation
    else
      ¬Unflushed entered enteredDirty s
  | none => ¬Unflushed entered enteredDirty s

instance (entered : Conversation) (enteredDirty : Bool) (s : RunState) :
    Decidable (GuardFits entered enteredDirty s) := by
  unfold GuardFits
  split
  · infer_instance
  · infer_instance

namespace Orchestrator

open RunState

variable {self : Orchestrator} {s s' : RunState} {answer : Answer} {enteredDirty : Bool}

/-- What the guard is and what it did so far, in a run entered with the given flag. -/
structure Guards (enteredDirty : Bool) (s : RunState) : Prop where
  starting : s.phase = .startHook → s.dirty = enteredDirty
  guard : ∀ guard ∈ s.guard, guard.dirty = enteredDirty
  running : (∀ exit, s.phase ≠ .exited exit) → ∀ conversation, .guarded conversation ∉ s.events
  exited : ∀ exit, s.phase = .exited exit → ∀ conversation,
    .guarded conversation ∈ s.events ↔
      ∃ guard ∈ s.guard, guard.dirty = true ∧ guard.conversation = conversation

/-- The run is not left, and the guard is what it was unless the Start hook has just run. -/
structure GoesOn (s s' : RunState) : Prop where
  running : ∀ exit, s.phase ≠ .exited exit
  phase : ∀ exit, s'.phase ≠ .exited exit
  notStarting : s'.phase ≠ .startHook
  events : ∀ conversation, .guarded conversation ∈ s'.events → .guarded conversation ∈ s.events
  guard : s'.guard = s.guard ∨
    s.phase = .startHook ∧ ∃ conversation, s'.guard = some ⟨s.dirty, conversation⟩

/-- The run is left from a state with the same guard. -/
def Leaving (s s' : RunState) : Prop :=
  (∀ exit, s.phase ≠ .exited exit) ∧ ∃ (before : RunState) (exit : Exit), s' = before.leave exit ∧
    before.guard = s.guard ∧
    ∀ conversation, .guarded conversation ∈ before.events → .guarded conversation ∈ s.events

theorem Guards.leave (h : Guards enteredDirty s)
    (hleaving : Leaving s s') : Guards enteredDirty s' := by
  obtain ⟨hrunning, before, exit, rfl, hguard, hevents⟩ := hleaving
  constructor
  · intro hphase
    cases hphase
  · intro guard hmem
    refine h.guard guard ?_
    rwa [leave_guard, hguard] at hmem
  · intro hnot
    exact absurd rfl (hnot exit)
  · intro _ _ conversation
    rw [leave_events, List.mem_append, mem_drop_iff, leave_guard, hguard]
    have hnone : .guarded conversation ∉ before.events := fun hmem =>
      h.running hrunning conversation (hevents conversation hmem)
    simp only [hnone, false_or, Event.guarded.injEq]
    constructor
    · rintro ⟨guard, hmem, hdirty, heq⟩
      exact ⟨guard, hmem, hdirty, heq.symm⟩
    · rintro ⟨guard, hmem, hdirty, heq⟩
      exact ⟨guard, hmem, hdirty, heq.symm⟩

theorem Guards.goesOn (h : Guards enteredDirty s) (hgoes : GoesOn s s') :
    Guards enteredDirty s' := by
  constructor
  · intro hphase
    exact absurd hphase hgoes.notStarting
  · intro guard hmem
    rcases hgoes.guard with heq | ⟨hphase, conversation, heq⟩
    · rw [heq] at hmem
      exact h.guard guard hmem
    · rw [heq] at hmem
      obtain rfl := Option.mem_some_iff.mp hmem
      exact h.starting hphase
  · intro _ conversation hmem
    exact h.running hgoes.running conversation (hgoes.events conversation hmem)
  · intro exit hexit
    exact absurd hexit (hgoes.phase exit)

theorem goesOn_loop (hrunning : ∀ exit, s.phase ≠ .exited exit)
    (hguard : s'.guard = s.guard ∨
      s.phase = .startHook ∧ ∃ conversation, s'.guard = some ⟨s.dirty, conversation⟩)
    (hevents : ∀ conversation, .guarded conversation ∈ s'.events →
      .guarded conversation ∈ s.events) : GoesOn s s'.loop := by
  rcases loop_eq s' with ⟨-, heq⟩ | ⟨-, heq⟩ <;> rw [heq] <;>
    exact ⟨hrunning, by simp, by simp, hevents, hguard⟩

/-- An event that is not the guard's. -/
theorem guarded_of_append {event : Event} (hevent : ∀ conversation, event ≠ .guarded conversation)
    (conversation : Conversation) (h : .guarded conversation ∈ s.events ++ [event]) :
    .guarded conversation ∈ s.events := by
  rcases List.mem_append.mp h with hold | hnew
  · exact hold
  · exact absurd (List.mem_singleton.mp hnew).symm (hevent conversation)

theorem Proceeds.goesOn_or_leaving {point : FlushPoint} {saved : RunState}
    (h : Proceeds saved point s') (hrunning : ∀ exit, s.phase ≠ .exited exit)
    (hguard : saved.guard = s.guard)
    (hevents : ∀ conversation, .guarded conversation ∈ saved.events →
      .guarded conversation ∈ s.events) : GoesOn s s' ∨ Leaving s s' := by
  cases h with
  | head => exact Or.inl ⟨hrunning, by simp, by simp, hevents, Or.inl hguard⟩
  | tools hphase =>
    refine Or.inl ⟨hrunning, ?_, ?_, hevents, Or.inl hguard⟩
    · rcases hphase with rfl | rfl <;> simp
    · rcases hphase with rfl | rfl <;> simp
  | reopened => exact Or.inl (goesOn_loop hrunning (Or.inl hguard) hevents)
  | closed => exact Or.inl (goesOn_loop hrunning (Or.inl hguard) hevents)
  | completing => exact Or.inl ⟨hrunning, by simp, by simp, hevents, Or.inl hguard⟩
  | completed => exact Or.inr ⟨hrunning, saved, .completed, rfl, hguard, hevents⟩

theorem Collects.goesOn_or_leaving {records : List Record} {before : RunState}
    (h : self.Collects before records s') (hrunning : ∀ exit, s.phase ≠ .exited exit)
    (hguard : before.guard = s.guard)
    (hevents : ∀ conversation, .guarded conversation ∈ before.events →
      .guarded conversation ∈ s.events) : GoesOn s s' ∨ Leaving s s' := by
  cases h with
  | waits hphase =>
    refine Or.inl ⟨hrunning, ?_, ?_, hevents, Or.inl hguard⟩
    · rintro exit rfl
      cases hphase
    · rintro rfl
      cases hphase
  | panics => exact Or.inr ⟨hrunning, before, .dropped, rfl, hguard, hevents⟩
  | notRendered tracker => exact Or.inr ⟨hrunning, _, .failed, rfl, hguard, hevents⟩
  | tooManyFailures tracker =>
    exact Or.inl ⟨hrunning, by simp, by simp, hevents, Or.inl hguard⟩
  | appends tracker =>
    exact Or.inl ⟨hrunning, by simp [updateContext], by simp [updateContext], hevents,
      Or.inl hguard⟩

theorem Effect.goesOn_or_leaving (h : self.Effect s answer s') :
    s' = s ∨ GoesOn s s' ∨ Leaving s s' := by
  -- What most of the effects have in common: the same guard, and the same events.
  have hsame : ∀ conversation, Event.guarded conversation ∈ s.events →
      .guarded conversation ∈ s.events := fun _ h => h
  cases h with
  | idle => exact Or.inl rfl
  | startFailed hphase =>
    exact Or.inr (Or.inr ⟨by simp [hphase], _, _, rfl, rfl, guarded_of_append (by simp)⟩)
  | @started conversation hphase =>
    exact Or.inr (Or.inl (goesOn_loop (by simp [hphase]) (Or.inr ⟨hphase, conversation, rfl⟩)
      (guarded_of_append (by simp))))
  | leaves hrunning => exact Or.inr (Or.inr ⟨hrunning, _, _, rfl, rfl, hsame⟩)
  | flushed hphase _ hproceeds =>
    exact Or.inr (hproceeds.goesOn_or_leaving (by simp [hphase]) rfl
      (guarded_of_append (by simp)))
  | requested hphase =>
    exact Or.inr (Or.inl ⟨by simp [hphase], by simp, by simp, guarded_of_append (by simp),
      Or.inl rfl⟩)
  | collects _ _ hphase _ hcollects =>
    refine Or.inr (hcollects.goesOn_or_leaving ?_ rfl hsame)
    rintro exit hexit
    rw [hexit] at hphase
    cases hphase
  | failureLimitSent hphase =>
    exact Or.inr (Or.inl ⟨by simp [hphase], by simp [updateContext], by simp [updateContext],
      hsame, Or.inl rfl⟩)
  | continues hphase =>
    exact Or.inr (Or.inl (goesOn_loop (by simp [hphase]) (Or.inl rfl) hsame))
  | completed hphase => exact Or.inr (Or.inr ⟨by simp [hphase], s, _, rfl, rfl, hsame⟩)
  | replied hphase | requestLimitSent hphase | measured hphase | ended hphase =>
    exact Or.inr (Or.inl ⟨by simp [hphase], by simp, by simp, hsame, Or.inl rfl⟩)

theorem Effect.guards (h : self.Effect s answer s') (hguards : Guards enteredDirty s) :
    Guards enteredDirty s' := by
  rcases h.goesOn_or_leaving with rfl | hgoes | hleaving
  · exact hguards
  · exact hguards.goesOn hgoes
  · exact hguards.leave hleaving

theorem guards_init (conversation : Conversation) (errorTracker : ToolErrorTracker)
    (dirty : Bool) : Guards dirty (.init conversation errorTracker dirty) where
  starting := fun _ => rfl
  guard := by
    intro guard hguard
    cases hguard
  running := by
    intro _ conversation hmem
    cases hmem
  exited := by
    intro exit hexit
    cases hexit

/-- A guard that persisted nothing is right when nothing is unflushed. -/
theorem guardRight_iff_of_forall_not_mem {entered : Conversation}
    (hnone : ∀ conversation, .guarded conversation ∉ s.events) :
    GuardRight entered enteredDirty s ↔ ¬Unflushed entered enteredDirty s := by
  constructor
  · rintro ⟨hpersists, -⟩ hunflushed
    obtain ⟨c, hmem⟩ := hpersists.mpr hunflushed
    exact hnone c hmem
  · intro hflushed
    refine ⟨⟨?_, fun h => absurd h hflushed⟩, fun c hmem => absurd hmem (hnone c)⟩
    rintro ⟨c, hmem⟩
    exact absurd hmem (hnone c)

/-- What is persisted last is the conversation, once the last flush succeeded. -/
def FlushedAtEnd (s : RunState) : Prop :=
  s.phase = .sendComplete ∨ s.phase = .exited .completed →
    lastSaved s.events = some s.conversation

theorem flushedAtEnd_of_phase (hsend : s.phase ≠ .sendComplete)
    (hexit : s.phase ≠ .exited .completed) : FlushedAtEnd s := by
  rintro (hphase | hphase)
  · exact absurd hphase hsend
  · exact absurd hphase hexit

theorem lastSaved_append_drop (events : List Event) (guard : Option OrchestratorDropGuard) :
    lastSaved (events ++ (guard.map (·.drop)).getD []) = lastSaved events := by
  have hnone : ((guard.map (·.drop)).getD []).filterMap (·.conversation?) = [] := by
    refine List.filterMap_eq_nil_iff.mpr fun event hevent => ?_
    obtain ⟨g, -, -, rfl⟩ := mem_drop_iff.mp hevent
    rfl
  rw [lastSaved, List.filterMap_append, hnone, List.append_nil, lastSaved]

theorem flushedAtEnd_loop (s : RunState) : FlushedAtEnd s.loop := by
  rcases loop_eq s with ⟨-, heq⟩ | ⟨-, heq⟩ <;> rw [heq] <;>
    exact flushedAtEnd_of_phase (by simp) (by simp)

theorem Effect.flushedAtEnd (h : self.Effect s answer s') (hflushed : FlushedAtEnd s) :
    FlushedAtEnd s' := by
  cases h with
  | idle => exact hflushed
  | started => exact flushedAtEnd_loop _
  | leaves _ hexit => exact flushedAtEnd_of_phase (by simp) (by simpa using hexit)
  | flushed _ _ hproceeds =>
    have hsaved : lastSaved (s.events ++ [.saved s.conversation]) = some s.conversation := by
      simp [lastSaved, Event.conversation?]
    cases hproceeds with
    | head => exact flushedAtEnd_of_phase (by simp) (by simp)
    | tools hphase =>
      rcases hphase with rfl | rfl <;> exact flushedAtEnd_of_phase (by simp) (by simp)
    | reopened => exact flushedAtEnd_loop _
    | closed => exact flushedAtEnd_loop _
    | completing => exact fun _ => hsaved
    | completed =>
      intro _
      rw [leave_events, lastSaved_append_drop]
      exact hsaved
  | collects _ _ _ _ hcollects =>
    cases hcollects with
    | waits hphase => refine flushedAtEnd_of_phase ?_ ?_ <;> rintro rfl <;> cases hphase
    | panics | notRendered | tooManyFailures => exact flushedAtEnd_of_phase (by simp) (by simp)
    | appends =>
      exact flushedAtEnd_of_phase (by simp [updateContext]) (by simp [updateContext])
  | continues => exact flushedAtEnd_loop _
  | failureLimitSent =>
    exact flushedAtEnd_of_phase (by simp [updateContext]) (by simp [updateContext])
  | completed hphase =>
    intro _
    rw [leave_events, lastSaved_append_drop]
    exact hflushed (Or.inl hphase)
  | startFailed | requested | replied | requestLimitSent | measured | ended =>
    exact flushedAtEnd_of_phase (by simp) (by simp)

theorem run_completed_flushed (self : Orchestrator) (conversation : Conversation)
    (errorTracker : ToolErrorTracker) (dirty : Bool) (answers : List Answer)
    (hexit : (run self.step (.init conversation errorTracker dirty) answers).phase =
      .exited .completed) :
    ¬Unflushed conversation dirty
      (run self.step (.init conversation errorTracker dirty) answers) := by
  have hinit : FlushedAtEnd (.init conversation errorTracker dirty) :=
    flushedAtEnd_of_phase (by simp [init]) (by simp [init])
  have hflushed : FlushedAtEnd (run self.step (.init conversation errorTracker dirty) answers) :=
    run_keeps (fun _ _ _ h => h.flushedAtEnd) (dirtyAtFlush_init conversation errorTracker dirty)
      hinit answers
  have hlast := hflushed (Or.inr hexit)
  rw [Unflushed, hlast]
  simp

end Orchestrator

/-! ### Turns that end -/

namespace Turn

open Orchestrator

/-- The Request hook adds a reminder, and the model does not answer. -/
def interrupted : List Answer :=
  [.hook (conversation ["hello"]) true, .update true,
    .hook (conversation ["hello", "remember"]) true, .reply none]

end Turn

end HeliosLite
