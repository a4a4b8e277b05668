import HeliosLite.Orchestration.Orchestrator

/-!
# Edits of the Start and Request hooks

`run` sends a context of its own, which it copied before the Start hook ran and copies
again from the conversation only after the tools. What the Start hook adds is overwritten
when the loop is entered; what a Request hook adds is not part of the request.

## Main definitions

* `EditsKept` — the added messages are in the request and in what is persisted afterwards
* `AddsNothing` — the hooks added no message by the time of any request

## Main results

* `run_editsKept_iff` — the edits of a run are kept exactly when there are none
-/

namespace HeliosLite

open Theory

/-- The message is one that the Start hook or the given Request hook added. -/
def Adds (events : List Event) (added : List MessageEntry) (m : MessageEntry) : Prop :=
  m ∈ added ∨ ∃ first, .started first ∈ events ∧ m ∈ first

/-- Every request contains the messages that the Start hook and its own Request hook added,
and so does every conversation that is persisted afterwards, up to the model noted at a
message. -/
structure EditsKept (model : String) (events : List Event) : Prop where
  sent : ∀ added context, .request added context ∈ events →
    ∀ m, Adds events added m → m ∈ context.messages
  persisted : ∀ before added context after, events = before ++ .request added context :: after →
    ∀ m, Adds events added m → ∀ conversation, .saved conversation ∈ after →
      m.setModel model ∈ conversation.messages.map (·.setModel model)

/-- Where a request is made, neither the Start hook nor the Request hook in front of it
added a message. -/
def AddsNothing (events : List Event) : Prop :=
  ∀ added context, .request added context ∈ events →
    added = [] ∧ ∀ first, .started first ∈ events → first = []

namespace Orchestrator

open RunState

variable {self : Orchestrator} {messages : List MessageEntry} {s s' : RunState}
  {answer : Answer}

/-- What holds of the messages during a run that starts with the given messages. -/
structure Tracks (messages : List MessageEntry) (s : RunState) : Prop where
  starting : s.phase = .startHook → s.conversation.messages = messages
  requesting : s.phase = .flush .head ∨ s.phase = .requestHook →
    s.conversation.messages = s.context.messages
  started : ∀ first, .started first ∈ s.events → ∀ m ∈ first, m ∉ messages
  request : ∀ added context, .request added context ∈ s.events → ∀ m ∈ added, m ∉ context.messages

theorem loop_phase_ne_startHook (s : RunState) : s.loop.phase ≠ .startHook := by
  rcases loop_eq s with ⟨-, heq⟩ | ⟨-, heq⟩ <;> rw [heq] <;> simp

/-- A run never comes back to the Start hook. -/
theorem Effect.eq_of_startHook (h : self.Effect s answer s') (hphase : s'.phase = .startHook) :
    s' = s := by
  cases h with
  | idle => rfl
  | started => exact absurd hphase (loop_phase_ne_startHook _)
  | flushed _ _ hproceeds =>
    cases hproceeds with
    | tools htools => rcases htools with rfl | rfl <;> cases hphase
    | reopened => exact absurd hphase (loop_phase_ne_startHook _)
    | closed => exact absurd hphase (loop_phase_ne_startHook _)
    | head | completing | completed => cases hphase
  | collects _ _ _ _ hcollects =>
    cases hcollects with
    | waits hcollecting =>
      obtain rfl : _ = Await.startHook := hphase
      cases hcollecting
    | panics | notRendered | tooManyFailures | appends => cases hphase
  | continues => exact absurd hphase (loop_phase_ne_startHook _)
  | startFailed | leaves | requested | replied | failureLimitSent | requestLimitSent
  | measured | ended | completed => cases hphase

/-- The conversation and the run have the same messages at the head of the loop. -/
def Requesting (s : RunState) : Prop :=
  s.phase = .flush .head ∨ s.phase = .requestHook →
    s.conversation.messages = s.context.messages

theorem requesting_loop (s : RunState) : Requesting s.loop := by
  rcases loop_eq s with ⟨-, heq⟩ | ⟨-, heq⟩
  · rw [heq]
    intro hphase
    simp at hphase
  · rw [heq]
    intro _
    rfl

theorem requesting_of_phase (hhead : s.phase ≠ .flush .head) (hrequest : s.phase ≠ .requestHook) :
    Requesting s := by
  rintro (hphase | hphase)
  · exact absurd hphase hhead
  · exact absurd hphase hrequest

theorem Effect.requesting (h : self.Effect s answer s') (hrequesting : Requesting s) :
    Requesting s' := by
  cases h with
  | idle => exact hrequesting
  | started => exact requesting_loop _
  | flushed hphase _ hproceeds =>
    cases hproceeds with
    | head =>
      intro _
      exact hrequesting (Or.inl hphase)
    | tools htools =>
      rcases htools with rfl | rfl <;> exact requesting_of_phase (by simp) (by simp)
    | reopened => exact requesting_loop _
    | closed => exact requesting_loop _
    | completing | completed => exact requesting_of_phase (by simp) (by simp)
  | collects _ _ _ _ hcollects =>
    cases hcollects with
    | waits hcollecting =>
      refine requesting_of_phase ?_ ?_ <;> rintro rfl <;> cases hcollecting
    | panics | notRendered | tooManyFailures => exact requesting_of_phase (by simp) (by simp)
    | appends => exact requesting_of_phase (by simp [updateContext]) (by simp [updateContext])
  | continues => exact requesting_loop _
  | failureLimitSent =>
    exact requesting_of_phase (by simp [updateContext]) (by simp [updateContext])
  | startFailed | leaves | requested | replied | requestLimitSent | measured | ended
  | completed => exact requesting_of_phase (by simp) (by simp)

theorem Effect.tracks (h : self.Effect s answer s') (htracks : Tracks messages s) :
    Tracks messages s' := by
  obtain ⟨new, hevents, hnew⟩ := h.logs
  refine ⟨?_, h.requesting htracks.requesting, ?_, ?_⟩
  · intro hphase
    obtain rfl := h.eq_of_startHook hphase
    exact htracks.starting hphase
  · intro first hfirst m hm
    rw [hevents] at hfirst
    rcases List.mem_append.mp hfirst with hold | hadded
    · exact htracks.started first hold m hm
    · obtain ⟨hphase, conversation, rfl⟩ := hnew _ hadded
      rw [← htracks.starting hphase]
      simpa using (List.mem_filter.mp hm).2
  · intro added context hrequest m hm
    rw [hevents] at hrequest
    rcases List.mem_append.mp hrequest with hold | hadded
    · exact htracks.request added context hold m hm
    · obtain ⟨hphase, rfl, conversation, -, rfl⟩ := hnew _ hadded
      rw [← htracks.requesting (Or.inr hphase)]
      simpa using (List.mem_filter.mp hm).2

/-- The phases of a run before its first request, and its end. -/
def opening : Await → Bool
  | .startHook | .flush .head | .requestHook | .exited _ => true
  | _ => false

/-- No request has been made, and the context is the one the run started with. -/
structure Unsent (messages : List MessageEntry) (s : RunState) : Prop where
  context : s.context.messages = messages
  shouldYield : s.shouldYield = false
  noRequest : ∀ added context, .request added context ∉ s.events
  opening : opening s.phase = true

theorem Unsent.leave (h : Unsent messages s) (exit : Exit) : Unsent messages (s.leave exit) := by
  refine ⟨h.context, h.shouldYield, ?_, rfl⟩
  intro added context hmem
  rw [leave_events] at hmem
  rcases List.mem_append.mp hmem with hold | hdrop
  · exact h.noRequest added context hold
  · obtain ⟨guard, -, -, hguarded⟩ := mem_drop_iff.mp hdrop
    cases hguarded

theorem Unsent.log (h : Unsent messages s) (event : Event)
    (hevent : ∀ added context, event ≠ .request added context) (conversation : Conversation)
    (dirty : Bool) (guard : Option OrchestratorDropGuard) :
    Unsent messages
      { s with
        conversation := conversation
        dirty := dirty
        guard := guard
        events := s.events ++ [event] } := by
  refine ⟨h.context, h.shouldYield, ?_, h.opening⟩
  intro added context hmem
  rcases List.mem_append.mp hmem with hold | hnew
  · exact h.noRequest added context hold
  · exact hevent added context (List.mem_singleton.mp hnew).symm

theorem Unsent.loop (h : Unsent messages s) : Unsent messages s.loop := by
  rcases loop_eq s with ⟨hyield, -⟩ | ⟨-, heq⟩
  · rw [h.shouldYield] at hyield
    cases hyield
  · rw [heq]
    exact ⟨h.context, h.shouldYield, h.noRequest, rfl⟩

/-- A request was made with the messages the run started with, or none was made. -/
def OpensWith (messages : List MessageEntry) (s : RunState) : Prop :=
  (∃ added context, .request added context ∈ s.events ∧ context.messages = messages) ∨
    Unsent messages s

theorem Effect.opensWith (h : self.Effect s answer s') (hopens : OpensWith messages s) :
    OpensWith messages s' := by
  rcases hopens with ⟨added, context, hrequest, hmessages⟩ | hunsent
  · obtain ⟨new, hevents, -⟩ := h.logs
    refine Or.inl ⟨added, context, ?_, hmessages⟩
    rw [hevents]
    exact List.mem_append_left _ hrequest
  · have hopening := hunsent.opening
    cases h with
    | idle => exact Or.inr hunsent
    | startFailed => exact Or.inr ((hunsent.log _ (by simp) _ _ _).leave _)
    | started => exact Or.inr (hunsent.log _ (by simp) _ _ _).loop
    | @leaves conversation =>
      have hedited : Unsent messages { s with conversation := conversation } :=
        ⟨hunsent.context, hunsent.shouldYield, hunsent.noRequest, hunsent.opening⟩
      exact Or.inr (hedited.leave _)
    | flushed hphase _ hproceeds =>
      rw [hphase] at hopening
      cases hproceeds with
      | head =>
        have hsaved := hunsent.log (.saved s.conversation) (by simp) s.conversation
          false s.guard
        exact Or.inr ⟨hsaved.context, hsaved.shouldYield, hsaved.noRequest, rfl⟩
      | tools | reopened | closed | completing | completed => cases hopening
    | requested =>
      exact Or.inl ⟨_, _, List.mem_append_right _ (List.mem_singleton_self _), hunsent.context⟩
    | collects _ _ hphase =>
      exfalso
      cases hs : s.phase <;> simp_all [Await.collects, Orchestrator.opening]
    | replied hphase | failureLimitSent hphase | requestLimitSent hphase | measured hphase
    | continues hphase | ended hphase | completed hphase =>
      rw [hphase] at hopening
      cases hopening

theorem tracks_init (conversation : Conversation) (errorTracker : ToolErrorTracker)
    (dirty : Bool) : Tracks conversation.messages (.init conversation errorTracker dirty) where
  starting := fun _ => rfl
  requesting := by rintro (hphase | hphase) <;> cases hphase
  started := by
    intro first hfirst
    cases hfirst
  request := by
    intro added context hrequest
    cases hrequest

theorem unsent_init (conversation : Conversation) (errorTracker : ToolErrorTracker)
    (dirty : Bool) : Unsent conversation.messages (.init conversation errorTracker dirty) where
  context := by
    obtain ⟨_, _, context⟩ := conversation
    cases context <;> rfl
  shouldYield := rfl
  noRequest := by
    intro added context hrequest
    cases hrequest
  opening := rfl

/-- The edits of the Start and Request hooks of a run are kept exactly when they add no
messages. -/
theorem run_editsKept_iff (self : Orchestrator) (conversation : Conversation)
    (errorTracker : ToolErrorTracker) (dirty : Bool) (answers : List Answer) :
    EditsKept self.model (run self.step (.init conversation errorTracker dirty) answers).events ↔
      AddsNothing (run self.step (.init conversation errorTracker dirty) answers).events := by
  set s := run self.step (.init conversation errorTracker dirty) answers with hs
  have hdirty := dirtyAtFlush_init conversation errorTracker dirty
  have htracks : Tracks conversation.messages s :=
    run_keeps (fun _ _ _ h => h.tracks) hdirty (tracks_init conversation errorTracker dirty)
      answers
  have hopens : OpensWith conversation.messages s :=
    run_keeps (fun _ _ _ h => h.opensWith) hdirty
      (Or.inr (unsent_init conversation errorTracker dirty)) answers
  constructor
  · intro hkept added context hrequest
    constructor
    · refine List.eq_nil_iff_forall_not_mem.mpr fun m hm => ?_
      exact htracks.request added context hrequest m hm
        (hkept.sent added context hrequest m (Or.inl hm))
    · intro first hfirst
      refine List.eq_nil_iff_forall_not_mem.mpr fun m hm => ?_
      rcases hopens with ⟨added', context', hopening, hmessages⟩ | hunsent
      · refine htracks.started first hfirst m hm ?_
        rw [← hmessages]
        exact hkept.sent added' context' hopening m (Or.inr ⟨first, hfirst, hm⟩)
      · exact hunsent.noRequest added context hrequest
  · intro hnothing
    have hno : ∀ added context, .request added context ∈ s.events → ∀ m,
        ¬Adds s.events added m := by
      intro added context hrequest m hadds
      obtain ⟨hadded, hstarted⟩ := hnothing added context hrequest
      rcases hadds with hm | ⟨first, hfirst, hm⟩
      · rw [hadded] at hm
        cases hm
      · rw [hstarted first hfirst] at hm
        cases hm
    constructor
    · intro added context hrequest m hadds
      exact absurd hadds (hno added context hrequest m)
    · intro before added context after hevents m hadds
      have hrequest : .request added context ∈ s.events := by simp [hevents]
      exact absurd hadds (hno added context hrequest m)

end Orchestrator

/-! ### A reminder that is not sent -/

namespace Turn

/-- The run up to its first request, with the conversation as the Start hook and the Request
hook leave it. -/
def untilRequest (started requested : List String) : RunState :=
  run (orchestrator none).step (.init (conversation ["hello"]) ⟨[], 3⟩ false)
    [.hook (conversation started) true, .update true, .hook (conversation requested) true]

def entries (contents : List String) : List MessageEntry := (conversation contents).messages

/-- A reminder added by the Start hook is not sent, and neither is one added by the Request
hook. -/
theorem untilRequest_not_editsKept :
    ¬EditsKept "model" (untilRequest ["hello", "remember"] ["hello"]).events ∧
      ¬EditsKept "model" (untilRequest ["hello"] ["hello", "remember"]).events := by
  constructor
  · intro h
    have hsent := h.sent [] ((conversation ["hello"]).context.getD Context.default)
      (by decide +kernel) (MessageEntry.from (.user "remember" none))
      (Or.inr ⟨entries ["remember"], by decide +kernel, by decide +kernel⟩)
    revert hsent
    decide +kernel
  · intro h
    have hsent := h.sent (entries ["remember"])
      ((conversation ["hello"]).context.getD Context.default) (by decide +kernel)
      (MessageEntry.from (.user "remember" none)) (Or.inl (by decide +kernel))
    revert hsent
    decide +kernel

end Turn

end HeliosLite
