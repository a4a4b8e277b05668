import HeliosLite.Orchestration.Orchestrator

/-!
# The limit on requests

A turn makes at most as many requests as its agent allows, unless the End hook adds
messages after the last request that is allowed: the loop is then entered again, and the
limit is looked at only when the next reply has been processed.

## Main definitions

* `requestsMade` — the requests of a run so far
* `EndsAtLimit` — a step at which the End hook does not reopen a turn at its limit

## Main results

* `run_requestsMade_le` — a run whose steps all end at the limit stays within it
-/

namespace HeliosLite

open Theory

/-- The context was sent to the model. -/
def Event.isRequest : Event → Bool
  | .request .. => true
  | _ => false

/-- The number of requests of a run so far. -/
def RunState.requestsMade (s : RunState) : ℕ := s.events.countP (·.isRequest)

namespace Orchestrator

open RunState

variable {self : Orchestrator} {n : ℕ} {s s' : RunState} {answer : Answer}

/-- The limit allows a request at all, and once it is used up the End hook adds no
messages. -/
def EndsAtLimit (n : ℕ) (s : RunState) : Answer → Prop
  | .hook conversation true =>
    (s.phase = .requestHook → 0 < n) ∧
      (s.phase = .endHook → n ≤ s.requestCount →
        conversation.messages.length ≤ s.conversation.messages.length)
  | _ => True

instance (n : ℕ) (s : RunState) (answer : Answer) : Decidable (EndsAtLimit n s answer) := by
  unfold EndsAtLimit
  split <;> infer_instance

/-- How the requests made relate to the counter in each phase, and what is known of the
flag that ends the loop. -/
def WithinLimit (n : ℕ) (s : RunState) : Prop :=
  match s.phase with
  | .startHook => s.requestsMade = s.requestCount ∧ s.requestCount = 0
  | .flush .head | .requestHook =>
    s.requestsMade = s.requestCount ∧ (s.requestCount = 0 ∨ s.requestCount < n)
  | .chat | .responseHook _ | .task .. | .tool .. | .sendFailureLimit | .flush .tools =>
    s.requestsMade = s.requestCount + 1 ∧ s.requestsMade ≤ n
  | .sendRequestLimit => s.requestsMade = s.requestCount ∧ s.requestsMade ≤ n
  | .metrics =>
    s.requestsMade = s.requestCount ∧ s.requestsMade ≤ n ∧
      (n ≤ s.requestCount → s.shouldYield = true)
  | .endHook =>
    s.requestsMade = s.requestCount ∧ s.requestsMade ≤ n ∧ s.shouldYield = true
  | .flush (.end endCountBefore) =>
    s.requestsMade = s.requestCount ∧ s.requestsMade ≤ n ∧ s.shouldYield = true ∧
      (n ≤ s.requestCount → s.conversation.messages.length ≤ endCountBefore)
  | .flush .final | .sendComplete | .exited _ => s.requestsMade ≤ n

/-- One more event, which may be a request. -/
theorem requestsMade_of_events {event : Event} (h : s'.events = s.events ++ [event]) :
    s'.requestsMade = s.requestsMade + if event.isRequest then 1 else 0 := by
  unfold requestsMade
  rw [h, List.countP_append, List.countP_singleton]

@[simp] theorem requestsMade_leave (s : RunState) (exit : Exit) :
    (s.leave exit).requestsMade = s.requestsMade := by
  unfold requestsMade
  rw [leave_events, List.countP_append]
  have hguard : ((s.guard.map (·.drop)).getD []).countP (·.isRequest) = 0 := by
    cases s.guard with
    | none => rfl
    | some guard =>
      obtain ⟨dirty, conversation⟩ := guard
      cases dirty <;> rfl
  rw [hguard, Nat.add_zero]

theorem withinLimit_leave (exit : Exit) (h : s.requestsMade ≤ n) :
    WithinLimit n (s.leave exit) := by
  have hleave : (s.leave exit).requestsMade ≤ n := by rwa [requestsMade_leave]
  exact hleave

/-- The phases between a request and the flush after its tools. -/
theorem withinLimit_iff_of_collects (hphase : s.phase.collects) :
    WithinLimit n s ↔ s.requestsMade = s.requestCount + 1 ∧ s.requestsMade ≤ n := by
  unfold WithinLimit
  cases hs : s.phase with
  | responseHook | task | tool => rfl
  | _ => simp [hs, Await.collects] at hphase

theorem withinLimit_loop (hmade : s.requestsMade = s.requestCount) (hle : s.requestsMade ≤ n)
    (hnext : s.shouldYield = false → s.requestCount = 0 ∨ s.requestCount < n) :
    WithinLimit n s.loop := by
  rcases loop_eq s with ⟨-, heq⟩ | ⟨hyield, heq⟩
  · rw [heq]
    exact hle
  · rw [heq]
    exact ⟨hmade, hnext hyield⟩

theorem WithinLimit.requestsMade_le (h : WithinLimit n s) : s.requestsMade ≤ n := by
  unfold WithinLimit at h
  split at h <;> omega

theorem withinLimit_afterFlush (hmax : self.maxRequestsPerTurn = some n) {point : FlushPoint}
    (hphase : s.phase = .flush point) (h : WithinLimit n s) :
    WithinLimit n (self.afterFlush s point) := by
  unfold WithinLimit at h
  rw [hphase] at h
  cases point with
  | head => exact h
  | tools =>
    obtain ⟨hmade, hle⟩ := h
    simp only [afterFlush, checkRequestLimit, hmax]
    split
    · exact ⟨hmade, hle⟩
    · rename_i hbelow
      refine ⟨hmade, hle, fun hreached => ?_⟩
      -- The counter is one more than before, and the limit is only checked for a turn that
      -- does not yield anyway.
      have hreached' : n ≤ s.requestCount + 1 := hreached
      have hyield : s.shouldYield = true := by simpa [hreached'] using hbelow
      exact hyield
  | «end» endCountBefore =>
    obtain ⟨hmade, hle, hyield, hcount⟩ := h
    simp only [afterFlush, afterEnd]
    split
    · rename_i hgrew
      refine withinLimit_loop hmade hle fun _ => Or.inr ?_
      by_contra hreached
      exact absurd (hcount (Nat.le_of_not_lt hreached)) (Nat.not_le_of_lt hgrew)
    · exact withinLimit_loop hmade hle fun hfalse => absurd hyield (by simp [hfalse])
  | final =>
    simp only [afterFlush]
    split
    · exact h
    · exact withinLimit_leave _ h

theorem Collects.withinLimit {records : List Record} (h : self.Collects s records s')
    (hmade : s.requestsMade = s.requestCount + 1) (hle : s.requestsMade ≤ n) :
    WithinLimit n s' := by
  cases h with
  | waits hphase => exact (withinLimit_iff_of_collects hphase).mpr ⟨hmade, hle⟩
  | panics => exact withinLimit_leave _ hle
  | notRendered tracker => exact withinLimit_leave _ hle
  | tooManyFailures tracker => exact ⟨hmade, hle⟩
  | appends tracker => exact ⟨hmade, hle⟩

theorem Effect.withinLimit (hmax : self.maxRequestsPerTurn = some n)
    (hends : EndsAtLimit n s answer) (h : self.Effect s answer s') (hwithin : WithinLimit n s) :
    WithinLimit n s' := by
  have hle : s.requestsMade ≤ n := hwithin.requestsMade_le
  have hcases := hwithin
  unfold WithinLimit at hcases
  cases h with
  | idle => exact hwithin
  | startFailed hphase =>
    refine withinLimit_leave _ ?_
    rw [requestsMade_of_events (s := s) rfl]
    exact hle
  | started hphase hanswer =>
    rw [hphase] at hcases
    refine withinLimit_loop ?_ ?_ fun _ => Or.inl hcases.2
    · rw [requestsMade_of_events (s := s) rfl]
      exact hcases.1
    · rw [requestsMade_of_events (s := s) rfl]
      exact hle
  | leaves hexit hconversation => exact withinLimit_leave _ hle
  | flushed hphase hafter =>
    rw [← hafter]
    refine withinLimit_afterFlush hmax hphase ?_
    -- A save is no request, and the phase is the same.
    have hmade : RunState.requestsMade
        { s with dirty := false, events := s.events ++ [.saved s.conversation] } =
          s.requestsMade := by
      rw [requestsMade_of_events (s := s) rfl]
      rfl
    unfold WithinLimit
    rw [hmade]
    exact hwithin
  | requested hphase hanswer =>
    rw [hphase] at hcases
    rw [hanswer] at hends
    have hpos : 0 < n := hends.1 hphase
    obtain ⟨hmade, hbelow⟩ := hcases
    refine ⟨?_, ?_⟩
    · rw [requestsMade_of_events (s := s) rfl, hmade]
      rfl
    · rw [requestsMade_of_events (s := s) rfl, hmade]
      have hcount : s.requestCount < n := by omega
      exact hcount
  | replied hphase =>
    rw [hphase] at hcases
    exact hcases
  | collects _ _ hphase hconversation hcollects =>
    obtain ⟨hmade, hle⟩ := (withinLimit_iff_of_collects hphase).mp hwithin
    exact hcollects.withinLimit hmade hle
  | failureLimitSent hphase =>
    rw [hphase] at hcases
    exact hcases
  | requestLimitSent hphase =>
    rw [hphase] at hcases
    exact ⟨hcases.1, hcases.2, fun _ => rfl⟩
  | measured hphase hyield =>
    rw [hphase] at hcases
    exact ⟨hcases.1, hcases.2.1, hyield⟩
  | continues hphase hyield =>
    rw [hphase] at hcases
    refine withinLimit_loop hcases.1 hcases.2.1 fun _ => Or.inr ?_
    by_contra hreached
    have hforced := hcases.2.2 (Nat.le_of_not_lt hreached)
    rw [hyield] at hforced
    cases hforced
  | ended hphase hanswer =>
    rw [hphase] at hcases
    rw [hanswer] at hends
    exact ⟨hcases.1, hcases.2.1, hcases.2.2, hends.2 hphase⟩
  | completed hphase => exact withinLimit_leave _ hle

/-- **A turn stays within its limit** as long as the End hook adds no messages once the
limit is used up. -/
theorem run_requestsMade_le (hmax : self.maxRequestsPerTurn = some n)
    (conversation : Conversation) (errorTracker : ToolErrorTracker) (dirty : Bool)
    {answers : List Answer}
    (h : Meets self.step (EndsAtLimit n) (.init conversation errorTracker dirty) answers) :
    (run self.step (.init conversation errorTracker dirty) answers).requestsMade ≤ n := by
  have hinit : WithinLimit n (.init conversation errorTracker dirty) := ⟨rfl, rfl⟩
  have hrun : WithinLimit n (run self.step (.init conversation errorTracker dirty) answers) :=
    run_effects (fun s answer s' hends heffect => heffect.withinLimit hmax hends) h
      (dirtyAtFlush_init conversation errorTracker dirty) hinit
  exact hrun.requestsMade_le

end Orchestrator

/-! ### Turns at their limit -/

namespace Turn

open Orchestrator

/-- The End hook adds a message, and the turn goes on. -/
def reopened : List Answer :=
  .hook (conversation ["hello"]) true ::
    iteration ["hello"] ["hello"] (conversation ["hello", "done", "go on"])
    ++ [.update true, .hook (conversation ["hello", "done", "go on"]) true]

/-- The turn goes on past a limit of one request, because the End hook added a message. -/
theorem run_requestsMade_exceeds :
    ¬ ∀ (self : Orchestrator) (n : ℕ) (conversation : Conversation)
        (errorTracker : ToolErrorTracker) (dirty : Bool) (answers : List Answer),
      self.maxRequestsPerTurn = some n →
        (run self.step (.init conversation errorTracker dirty) answers).requestsMade ≤ n := by
  intro h
  have hle := h (orchestrator (some 1)) 1 (conversation ["hello"]) ⟨[], 3⟩ false reopened rfl
  have hmade : (run (orchestrator (some 1)).step (start false) reopened).requestsMade = 2 := by
    decide +kernel
  have htwo : (2 : ℕ) ≤ 1 := hmade ▸ hle
  omega

theorem run_requestsMade_le_quiet :
    (run (orchestrator (some 1)).step (start false) quiet).requestsMade ≤ 1 ∧
      (run (orchestrator (some 1)).step (start false) quiet).phase = .exited .completed := by
  constructor
  · have hmax : (orchestrator (some 1)).maxRequestsPerTurn = some 1 := rfl
    exact run_requestsMade_le hmax _ _ _ (by decide +kernel)
  · decide +kernel

end Turn

end HeliosLite
