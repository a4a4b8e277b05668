import HeliosLite.Theory.Run

/-!
# The circuit breaker

After enough failures in a row the breaker opens and refuses requests until it has cooled
down. It is then half open: one request is to find out whether the target is well again.

Times are nanoseconds since the epoch of the wall clock, which is not set while the program
runs; the opening time is stored in whole milliseconds.

## Main definitions

* `CircuitBreaker`, `allow`, `record` — the breaker, a check and an outcome
* `Watch` — the breaker with what has happened since it opened or became half open
* `Sound` — one probe at most, and no way out of the open state before its time
* `Heeded` — a step of callers that wait for the probe and for the breaker

## Main results

* `forall_sound_iff` — every state of a run is sound exactly if all its steps are heeded
-/

namespace HeliosLite

open Theory

namespace Resilience

inductive CallOutcome where
  | success
  | failure
deriving DecidableEq

inductive BreakerState where
  | closed
  | opened
  | halfOpen
deriving DecidableEq

/-- A breaker. Durations are in nanoseconds. -/
structure CircuitBreaker where
  failureThreshold : UInt32
  coolDown : ℕ
  state : BreakerState
  consecutiveFailures : UInt32
  openedAtMs : ℕ
deriving DecidableEq

def nanosPerMilli : ℕ := 1000000

def instantToEpochMs (now : ℕ) : ℕ := now / nanosPerMilli

/-- The instant of a stored time. Without one it is the present. -/
def epochMsToInstant (ms now : ℕ) : ℕ := if ms = 0 then now else ms * nanosPerMilli

namespace CircuitBreaker

def new (failureThreshold : UInt32) (coolDown : ℕ) : CircuitBreaker where
  failureThreshold := max failureThreshold 1
  coolDown := coolDown
  state := .closed
  consecutiveFailures := 0
  openedAtMs := 0

/-- The state a caller sees, whether it may proceed, and the breaker after it. -/
def allow (self : CircuitBreaker) (now : ℕ) : (BreakerState × Bool) × CircuitBreaker :=
  match self.state with
  | .closed => ((.closed, true), self)
  | .opened =>
    if self.coolDown ≤ now - epochMsToInstant self.openedAtMs now then
      ((.halfOpen, true), { self with state := .halfOpen })
    else ((.opened, false), self)
  -- One probe at a time is meant, and every caller is let through.
  | .halfOpen => ((.halfOpen, true), self)

def «open» (self : CircuitBreaker) (now : ℕ) : CircuitBreaker :=
  { self with state := .opened, openedAtMs := instantToEpochMs now }

/-- The outcome of a call. -/
def record (self : CircuitBreaker) (outcome : CallOutcome) (now : ℕ) : CircuitBreaker :=
  match outcome with
  | .success => { self with consecutiveFailures := 0, state := .closed }
  | .failure =>
    let n := self.consecutiveFailures + 1
    let failed := { self with consecutiveFailures := n }
    if self.failureThreshold ≤ n then failed.open now else failed

end CircuitBreaker

/-- An operation on a breaker, and its time. -/
inductive Operation where
  | check (now : ℕ)
  | record (outcome : CallOutcome) (now : ℕ)
deriving DecidableEq

def Operation.now : Operation → ℕ
  | check now => now
  | record _ now => now

/-- A breaker that is watched: when it last opened, how many requests it has let through since it
became half open, as long as no outcome was recorded, and whether it has ever left the open state
before its time. -/
structure Watch where
  breaker : CircuitBreaker
  openedAt : ℕ
  probes : Option ℕ
  leftEarly : Bool
  clock : ℕ
deriving DecidableEq

namespace Watch

def start (failureThreshold : UInt32) (coolDown : ℕ) : Watch where
  breaker := .new failureThreshold coolDown
  openedAt := 0
  probes := none
  leftEarly := false
  clock := 0

/-- The breaker opens, again or for the first time. -/
def Opens (self : CircuitBreaker) (outcome : CallOutcome) : Prop :=
  outcome = .failure ∧ self.failureThreshold ≤ self.consecutiveFailures + 1

instance (self : CircuitBreaker) (outcome : CallOutcome) : Decidable (Opens self outcome) := by
  unfold Opens
  infer_instance

/-- The requests let through since the breaker became half open, after a check. -/
def probesAfter (w : Watch) (answer : (BreakerState × Bool) × CircuitBreaker) : Option ℕ :=
  match w.probes with
  | some probes => some (probes + if answer.1.2 then 1 else 0)
  | none =>
    if w.breaker.state ≠ .halfOpen ∧ answer.2.state = .halfOpen then
      some (if answer.1.2 then 1 else 0)
    else none

/-- The breaker leaves the open state although it has not cooled down. -/
def LeavesEarly (w : Watch) (breaker : CircuitBreaker) (now : ℕ) : Prop :=
  w.breaker.state = .opened ∧ breaker.state ≠ .opened ∧ now < w.openedAt + w.breaker.coolDown

instance (w : Watch) (breaker : CircuitBreaker) (now : ℕ) :
    Decidable (LeavesEarly w breaker now) := by
  unfold LeavesEarly
  infer_instance

def step (w : Watch) : Operation → Watch
  | .check now =>
    let answer := w.breaker.allow now
    { breaker := answer.2
      openedAt := w.openedAt
      probes := w.probesAfter answer
      leftEarly := w.leftEarly || LeavesEarly w answer.2 now
      clock := now }
  | .record outcome now =>
    let breaker := w.breaker.record outcome now
    { breaker := breaker
      openedAt := if Opens w.breaker outcome then now else w.openedAt
      probes := none
      leftEarly := w.leftEarly || LeavesEarly w breaker now
      clock := now }

/-- At most one request since the breaker became half open, and never out of the open state
before it has cooled down. -/
def Sound (w : Watch) : Prop := w.probes.getD 0 ≤ 1 ∧ w.leftEarly = false

/-- A check that does not come between the probe and its outcome, nor in the part of a
millisecond by which the stored opening time is too early; and no success while the breaker
is open and has not cooled down. -/
def Heeded (w : Watch) : Operation → Prop
  | .check now =>
    w.probes = none ∧
      (w.breaker.state = .opened →
        w.openedAt + w.breaker.coolDown ≤ now ∨
          now - epochMsToInstant w.breaker.openedAtMs now < w.breaker.coolDown)
  | .record .success now =>
    w.breaker.state = .opened → w.openedAt + w.breaker.coolDown ≤ now
  | .record .failure _ => True

/-- What is known of a watched breaker whose steps were all heeded. -/
structure Steady (w : Watch) : Prop where
  leftEarly : w.leftEarly = false
  probes : w.probes = none ∨ w.probes = some 1 ∧ w.breaker.state = .halfOpen
  openedAt : w.openedAt ≤ w.clock

variable {w : Watch} {now : ℕ} {outcome : CallOutcome}

theorem Steady.sound (h : Steady w) : Sound w := by
  refine ⟨?_, h.leftEarly⟩
  rcases h.probes with hnone | ⟨hone, -⟩
  · simp [hnone]
  · simp [hone]

/-- The answer of an open breaker. -/
theorem allow_opened (h : w.breaker.state = .opened) (now : ℕ) :
    w.breaker.allow now =
      if w.breaker.coolDown ≤ now - epochMsToInstant w.breaker.openedAtMs now then
        ((.halfOpen, true), { w.breaker with state := .halfOpen })
      else ((.opened, false), w.breaker) := by
  simp [CircuitBreaker.allow, h]

theorem allow_closed (h : w.breaker.state = .closed) (now : ℕ) :
    w.breaker.allow now = ((.closed, true), w.breaker) := by
  simp [CircuitBreaker.allow, h]

theorem allow_halfOpen (h : w.breaker.state = .halfOpen) (now : ℕ) :
    w.breaker.allow now = ((.halfOpen, true), w.breaker) := by
  simp [CircuitBreaker.allow, h]

/-- A check of a breaker that is steady. -/
theorem Steady.check_iff (h : Steady w) : Sound (w.step (.check now)) ↔ Heeded w (.check now) := by
  have hleft := h.leftEarly
  cases hstate : w.breaker.state with
  | closed =>
    have hprobes : w.probes = none := by simpa [hstate] using h.probes
    simp [Sound, Heeded, step, probesAfter, LeavesEarly, allow_closed hstate, hstate, hprobes,
      hleft]
  | halfOpen =>
    rcases h.probes with hprobes | ⟨hprobes, -⟩
    · simp [Sound, Heeded, step, probesAfter, LeavesEarly, allow_halfOpen hstate, hstate, hprobes,
        hleft]
    · simp [Sound, Heeded, step, probesAfter, allow_halfOpen hstate, hprobes]
  | opened =>
    have hprobes : w.probes = none := by simpa [hstate] using h.probes
    by_cases hcool : w.breaker.coolDown ≤ now - epochMsToInstant w.breaker.openedAtMs now
    · simp [Sound, Heeded, step, probesAfter, LeavesEarly, allow_opened hstate, hstate, hprobes,
        hleft, hcool, not_lt.mpr hcool]
    · simp [Sound, Heeded, step, probesAfter, LeavesEarly, allow_opened hstate, hstate, hprobes,
        hleft, hcool, not_le.mp hcool]

theorem Steady.check (h : Steady w) (hclock : w.clock ≤ now) (hheeded : Heeded w (.check now)) :
    Steady (w.step (.check now)) := by
  have hsound : Sound (w.step (.check now)) := h.check_iff.mpr hheeded
  refine ⟨hsound.2, ?_, h.openedAt.trans hclock⟩
  have hprobes : w.probes = none := hheeded.1
  cases hstate : w.breaker.state with
  | closed => simp [step, probesAfter, allow_closed hstate, hprobes, hstate]
  | halfOpen => simp [step, probesAfter, allow_halfOpen hstate, hprobes, hstate]
  | opened =>
    by_cases hcool : w.breaker.coolDown ≤ now - epochMsToInstant w.breaker.openedAtMs now
    · simp [step, probesAfter, allow_opened hstate, hprobes, hstate, hcool]
    · simp [step, probesAfter, allow_opened hstate, hprobes, hstate, hcool]

/-- A failure never takes the breaker out of the open state. -/
theorem not_leavesEarly_failure (w : Watch) (now : ℕ) :
    ¬ LeavesEarly w (w.breaker.record .failure now) now := by
  rintro ⟨hstate, hleaves, -⟩
  apply hleaves
  simp only [CircuitBreaker.record]
  split
  · rfl
  · exact hstate

theorem Steady.record_iff (h : Steady w) :
    Sound (w.step (.record outcome now)) ↔ Heeded w (.record outcome now) := by
  have hleft := h.leftEarly
  cases outcome with
  | success =>
    simp [Sound, Heeded, step, LeavesEarly, CircuitBreaker.record, hleft]
  | failure =>
    simp [Sound, Heeded, step, hleft, not_leavesEarly_failure]

theorem Steady.record (h : Steady w) (hclock : w.clock ≤ now)
    (hheeded : Heeded w (.record outcome now)) : Steady (w.step (.record outcome now)) := by
  have hsound : Sound (w.step (.record outcome now)) := h.record_iff.mpr hheeded
  refine ⟨hsound.2, Or.inl rfl, ?_⟩
  change (if Opens w.breaker outcome then now else w.openedAt) ≤ now
  split
  · exact le_rfl
  · exact h.openedAt.trans hclock

/-! ### Runs -/

theorem clock_step (w : Watch) (operation : Operation) :
    (w.step operation).clock = operation.now := by
  cases operation <;> rfl

/-- The clock of a run whose times do not decrease. -/
theorem meets_clock {operations : List Operation}
    (h : (operations.map Operation.now).Pairwise (· ≤ ·))
    (hstart : ∀ operation ∈ operations, w.clock ≤ operation.now) :
    Meets step (fun w operation => w.clock ≤ operation.now) w operations := by
  induction operations generalizing w with
  | nil => trivial
  | cons operation operations ih =>
    rw [List.map_cons, List.pairwise_cons] at h
    refine ⟨hstart operation List.mem_cons_self, ih h.2 fun later hlater => ?_⟩
    rw [clock_step]
    exact h.1 later.now (List.mem_map_of_mem hlater)

/-- Every state of a run is sound exactly if all its steps are heeded. -/
theorem forall_sound_iff (failureThreshold : UInt32) (coolDown : ℕ) {operations : List Operation}
    (h : (operations.map Operation.now).Pairwise (· ≤ ·)) :
    (∀ initial, initial <+: operations →
        Sound (run step (start failureThreshold coolDown) initial)) ↔
      Meets step Heeded (start failureThreshold coolDown) operations := by
  have hclock := meets_clock (w := start failureThreshold coolDown) h fun _ _ => Nat.zero_le _
  have hsteady : Steady (start failureThreshold coolDown) := ⟨rfl, Or.inl rfl, le_rfl⟩
  refine forall_initial_iff_of_meets (fun w hw => hw.sound) (fun w operation _ hw => ?_)
    (fun w operation hlater hw hheeded => ?_) hclock hsteady
  · cases operation with
    | check now => exact hw.check_iff
    | record outcome now => exact hw.record_iff
  · cases operation with
    | check now => exact hw.check hlater hheeded
    | record outcome now => exact hw.record hlater hheeded

/-- A failure that opens the breaker, and a check after the cool-down. -/
def cooledDown : List Operation := [.record .failure 5000000, .check 9000000]

theorem forall_sound_iff_cooledDown :
    (∀ initial, initial <+: cooledDown → Sound (run step (start 1 3000000) initial)) ↔
      Meets step Heeded (start 1 3000000) cooledDown :=
  forall_sound_iff 1 3000000 (by simp [cooledDown, Operation.now])

/-- Two callers that check after the cool-down are both let through. -/
theorem two_probes :
    ¬ ∀ initial, initial <+: [.record .failure 5000000, .check 9000000, .check 9000000] →
        Sound (run step (start 1 3000000) initial) := by
  intro h
  have hlast := h _ List.prefix_rfl
  exact absurd hlast.1 (by decide)

end Watch

end Resilience

end HeliosLite
