import Mathlib.Logic.Function.Basic
import HeliosLite.Theory.Run

/-!
# Delivery of writes through the daemon

`DaemonConversationRepository` hands a write to the daemon, or runs it through the direct
repository when no byte of the request was sent. Any number of writes run at the same time;
between any two of their steps others may take steps of theirs, and so may the daemon at the
other end of their connections.

## Main definitions

* `Write` — one write: where it stands, its connection and who has executed it
* `DaemonConversationRepository` — the writes with the lifecycle lock, the cached probe and
  the spawn flag they share
* `DaemonConversationRepository.step` — one step of a write or of the daemon

## Main results

* `advance_of_step` — a step changes one write, in one of a few ways
* `run_executed_once` — a write is executed at most once, exactly once if it returns `Ok`,
  and is not replayed if it returns `Err`
-/

namespace HeliosLite

open Theory

/-- What the daemon answers to a write. -/
inductive WriteResponse where
  | ack
  | error
  | unexpected
  deriving DecidableEq, Repr

/-- Where a write stands in `write_or_fallback`. -/
inductive WritePhase where
  | idle
  /-- `try_daemon` waits for the lifecycle lock. -/
  | locking
  /-- `ensure_client` looks for a cached probe. -/
  | ensuring
  | connecting
  | spawning
  /-- The socket is polled after a spawn; the attempts left. -/
  | polling (left : ℕ)
  /-- The cached probe is read. -/
  | taking
  /-- `send_classified` opens a fresh stream for the probe it took. -/
  | opening (client : ℕ)
  | sending
  | reading
  /-- The stream could not be opened, and the probe is to be dropped. -/
  | evicting (client : ℕ)
  /-- The daemon is unavailable, and the direct repository is to run the write. -/
  | falling
  | returned (ok : Bool)
  deriving DecidableEq, Repr

/-- One write, with the daemon's end of its connection. -/
structure Write where
  phase : WritePhase
  /-- Some bytes of the request were sent. -/
  bytesSent : Bool
  /-- The whole frame was sent. -/
  frameSent : Bool
  /-- The daemon has read the frame. -/
  received : Bool
  response : Option WriteResponse
  daemonRuns : ℕ
  directRuns : ℕ
  deriving DecidableEq, Repr

/-- A write that has not begun. -/
def Write.idle : Write :=
  { phase := .idle
    bytesSent := false
    frameSent := false
    received := false
    response := none
    daemonRuns := 0
    directRuns := 0 }

/-- The steps of a write; where something outside decides, what it decides. -/
inductive CallerAction where
  | call
  | lock
  | ensureClient
  | connect (ok : Bool)
  | spawnDaemon (ok : Bool)
  | poll (ok : Bool)
  | take
  | openStream (ok : Bool)
  /-- Some bytes of the frame go out; all of them with `last`. -/
  | send (last : Bool)
  | read
  /-- The transport fails. -/
  | lose
  | evict
  | fallback (ok : Bool)
  deriving DecidableEq, Repr

/-- The steps of the daemon on the connection of a write. -/
inductive DaemonAction where
  | receive
  | execute
  | respond (response : WriteResponse)
  deriving DecidableEq, Repr

/-- The daemon reads a frame that was sent, executes a request that it read, once, and
acknowledges only what it executed. Errors it may answer at any time: when it cannot execute
the request, and also when it executes it too late. -/
def Write.daemonStep (w : Write) : DaemonAction → Write
  | .receive => if w.frameSent then { w with received := true } else w
  | .execute =>
    if w.received ∧ w.daemonRuns = 0 then { w with daemonRuns := w.daemonRuns + 1 } else w
  | .respond response =>
    if w.received ∧ w.response = none ∧ (response = .ack → w.daemonRuns = 1) then
      { w with response := some response }
    else
      w

/-- The writes, and what they share. A probe is named by when it was made. -/
structure DaemonConversationRepository where
  lifecycleLock : Option ℕ
  client : Option ℕ
  probes : ℕ
  spawnAttempted : Bool
  writes : ℕ → Write

namespace DaemonConversationRepository

/-- A repository before its first write. -/
def new (spawnAttempted : Bool) : DaemonConversationRepository :=
  { lifecycleLock := none
    client := none
    probes := 0
    spawnAttempted := spawnAttempted
    writes := fun _ => Write.idle }

/-- The write goes on with the given phase. -/
def goto (s : DaemonConversationRepository) (i : ℕ) (phase : WritePhase) :
    DaemonConversationRepository :=
  { s with writes := Function.update s.writes i { s.writes i with phase := phase } }

def unlock (s : DaemonConversationRepository) : DaemonConversationRepository :=
  { s with lifecycleLock := none }

/-- A fresh successful probe is cached. -/
def cache (s : DaemonConversationRepository) : DaemonConversationRepository :=
  { s with client := some s.probes, probes := s.probes + 1 }

/-- A step of the `i`-th write; an action that its phase does not take changes nothing. -/
def callerStep (s : DaemonConversationRepository) (i : ℕ) (action : CallerAction) :
    DaemonConversationRepository :=
  match (s.writes i).phase, action with
  | .idle, .call => s.goto i .locking
  | .locking, .lock =>
    if s.lifecycleLock = none then
      { s with lifecycleLock := some i }.goto i .ensuring
    else
      s
  | .ensuring, .ensureClient => s.goto i (if s.client.isSome then .taking else .connecting)
  | .connecting, .connect true => s.cache.goto i .taking
  | .connecting, .connect false => s.goto i .spawning
  | .spawning, .spawnDaemon ok =>
    -- The flag is set by the first attempt, whether or not the daemon starts.
    if s.spawnAttempted then
      s.unlock.goto i .falling
    else if ok then
      { s with spawnAttempted := true }.goto i (.polling 10)
    else
      { s.unlock with spawnAttempted := true }.goto i .falling
  | .polling 0, .poll _ => s.unlock.goto i .falling
  | .polling (left + 1), .poll ok =>
    if ok then s.cache.goto i .taking else s.goto i (.polling left)
  | .taking, .take =>
    match s.client with
    | some client => s.unlock.goto i (.opening client)
    | none => s.unlock.goto i .falling
  | .opening client, .openStream ok => s.goto i (if ok then .sending else .evicting client)
  | .sending, .send last =>
    let w := { s.writes i with bytesSent := true }
    let sent := if last then { w with frameSent := true, phase := .reading } else w
    { s with writes := Function.update s.writes i sent }
  | .sending, .lose => s.goto i (.returned false)
  | .reading, .lose => s.goto i (.returned false)
  | .reading, .read =>
    match (s.writes i).response with
    | some response => s.goto i (.returned (response = .ack))
    | none => s
  | .evicting client, .evict =>
    if s.lifecycleLock = none then
      { s with client := if s.client = some client then none else s.client }.goto i .falling
    else
      s
  | .falling, .fallback ok =>
    let w := s.writes i
    let run := { w with directRuns := w.directRuns + 1, phase := .returned ok }
    { s with writes := Function.update s.writes i run }
  | _, _ => s

/-- A step of a write, or of the daemon on its connection. -/
inductive Action where
  | caller (i : ℕ) (action : CallerAction)
  | daemon (i : ℕ) (action : DaemonAction)
  deriving DecidableEq, Repr

def step (s : DaemonConversationRepository) : Action → DaemonConversationRepository
  | .caller i action => s.callerStep i action
  | .daemon i action =>
    { s with writes := Function.update s.writes i ((s.writes i).daemonStep action) }

end DaemonConversationRepository

/-! ### What a step does to a write -/

/-- The phases in which nothing of the request can have been sent. -/
def WritePhase.unsent : WritePhase → Bool
  | .sending | .reading | .returned _ => false
  | _ => true

/-- The ways in which a write changes. -/
inductive Advance (w : Write) : Write → Prop
  | stays : Advance w w
  | moves {phase : WritePhase} (hfrom : w.phase.unsent) (hto : phase.unsent ∨ phase = .sending) :
      Advance w { w with phase := phase }
  | sends (hphase : w.phase = .sending) : Advance w { w with bytesSent := true }
  | completes (hphase : w.phase = .sending) :
      Advance w { w with bytesSent := true, frameSent := true, phase := .reading }
  | loses (hphase : w.phase = .sending ∨ w.phase = .reading) :
      Advance w { w with phase := .returned false }
  | reads {response : WriteResponse} (hphase : w.phase = .reading)
      (hresponse : w.response = some response) :
      Advance w { w with phase := .returned (response = .ack) }
  | falls {ok : Bool} (hphase : w.phase = .falling) :
      Advance w { w with directRuns := w.directRuns + 1, phase := .returned ok }
  | receives (hframe : w.frameSent) : Advance w { w with received := true }
  | executes (hreceived : w.received) (hruns : w.daemonRuns = 0) :
      Advance w { w with daemonRuns := w.daemonRuns + 1 }
  | responds {response : WriteResponse} (hreceived : w.received)
      (hack : response = .ack → w.daemonRuns = 1) :
      Advance w { w with response := some response }

/-- Only the daemon changes a write that has returned. -/
theorem Advance.returned {w w' : Write} {ok : Bool} (h : Advance w w')
    (hphase : w.phase = .returned ok) :
    w'.phase = .returned ok ∧ w'.directRuns = w.directRuns := by
  cases h with
  | stays | receives | executes | responds => exact ⟨hphase, rfl⟩
  | moves hfrom =>
    rw [hphase] at hfrom
    cases hfrom
  | sends hother | completes hother | reads hother | falls hother =>
    rw [hphase] at hother
    cases hother
  | loses hother =>
    rw [hphase] at hother
    rcases hother with hother | hother <;> cases hother

theorem Write.daemonStep_advance (w : Write) (action : DaemonAction) :
    Advance w (w.daemonStep action) := by
  cases action with
  | receive =>
    by_cases hframe : w.frameSent
    · rw [daemonStep, if_pos hframe]
      exact .receives hframe
    · rw [daemonStep, if_neg hframe]
      exact .stays
  | execute =>
    by_cases hready : w.received ∧ w.daemonRuns = 0
    · rw [daemonStep, if_pos hready]
      exact .executes hready.1 hready.2
    · rw [daemonStep, if_neg hready]
      exact .stays
  | respond response =>
    by_cases hready : w.received ∧ w.response = none ∧ (response = .ack → w.daemonRuns = 1)
    · rw [daemonStep, if_pos hready]
      exact .responds hready.1 hready.2.2
    · rw [daemonStep, if_neg hready]
      exact .stays

namespace DaemonConversationRepository

variable {s : DaemonConversationRepository} {i j : ℕ}

/-- The step changes the `i`-th write only, in one of the ways of `Advance`. -/
def Changes (s : DaemonConversationRepository) (i : ℕ) (s' : DaemonConversationRepository) :
    Prop :=
  ∃ w, s'.writes = Function.update s.writes i w ∧ Advance (s.writes i) w

theorem changes_self : Changes s i s :=
  ⟨s.writes i, (Function.update_eq_self i s.writes).symm, .stays⟩

/-- A write goes on, possibly with a change of what the writes share. -/
theorem changes_goto {s' : DaemonConversationRepository} (hwrites : s'.writes = s.writes)
    {phase : WritePhase}
    (h : Advance (s.writes i) { s.writes i with phase := phase }) :
    Changes s i (s'.goto i phase) := by
  refine ⟨_, ?_, h⟩
  rw [goto, hwrites]

theorem callerStep_changes (s : DaemonConversationRepository) (i : ℕ) (action : CallerAction) :
    Changes s i (s.callerStep i action) := by
  -- A write that has not sent anything moves to another such phase, or starts to send.
  have hmoves : ∀ {phase phase' : WritePhase}, (s.writes i).phase = phase → phase.unsent →
      phase'.unsent → Advance (s.writes i) { s.writes i with phase := phase' } :=
    fun hphase hfrom hto => .moves (hphase ▸ hfrom) (Or.inl hto)
  unfold callerStep
  split
  · rename_i hphase
    exact changes_goto rfl (hmoves hphase rfl rfl)
  · rename_i hphase
    split
    · exact changes_goto rfl (hmoves hphase rfl rfl)
    · exact changes_self
  · rename_i hphase
    refine changes_goto rfl (hmoves hphase rfl ?_)
    split <;> rfl
  · rename_i hphase
    exact changes_goto rfl (hmoves hphase rfl rfl)
  · rename_i hphase
    exact changes_goto rfl (hmoves hphase rfl rfl)
  · rename_i hphase
    split
    · exact changes_goto rfl (hmoves hphase rfl rfl)
    · split
      · exact changes_goto rfl (hmoves hphase rfl rfl)
      · exact changes_goto rfl (hmoves hphase rfl rfl)
  · rename_i hphase
    exact changes_goto rfl (hmoves hphase rfl rfl)
  · rename_i hphase
    split
    · exact changes_goto rfl (hmoves hphase rfl rfl)
    · exact changes_goto rfl (hmoves hphase rfl rfl)
  · rename_i hphase
    split
    · exact changes_goto rfl (hmoves hphase rfl rfl)
    · exact changes_goto rfl (hmoves hphase rfl rfl)
  · rename_i ok hphase
    refine changes_goto rfl (.moves (hphase ▸ rfl) ?_)
    cases ok
    · exact Or.inl rfl
    · exact Or.inr rfl
  · rename_i last hphase
    cases last
    · exact ⟨_, rfl, .sends hphase⟩
    · exact ⟨_, rfl, .completes hphase⟩
  · rename_i hphase
    exact changes_goto rfl (.loses (Or.inl hphase))
  · rename_i hphase
    exact changes_goto rfl (.loses (Or.inr hphase))
  · rename_i hphase
    split
    · rename_i response hresponse
      exact changes_goto rfl (.reads hphase hresponse)
    · exact changes_self
  · rename_i hphase
    split
    · exact changes_goto rfl (hmoves hphase rfl rfl)
    · exact changes_self
  · rename_i hphase
    exact ⟨_, rfl, .falls hphase⟩
  · exact changes_self

/-- A step changes at most one write, in one of the ways of `Advance`. -/
theorem advance_of_step (s : DaemonConversationRepository) (action : Action) (i : ℕ) :
    Advance (s.writes i) ((s.step action).writes i) := by
  have hchanges : ∃ j, Changes s j (s.step action) := by
    cases action with
    | caller j action => exact ⟨j, callerStep_changes s j action⟩
    | daemon j action => exact ⟨j, _, rfl, (s.writes j).daemonStep_advance action⟩
  obtain ⟨j, w, hwrites, hadvance⟩ := hchanges
  rw [hwrites]
  by_cases hij : i = j
  · subst hij
    rwa [Function.update_self]
  · rw [Function.update_of_ne hij]
    exact .stays

end DaemonConversationRepository

/-! ### At most one executor -/

/-- What holds of a write at any time. -/
structure Write.Safe (w : Write) : Prop where
  unsent : w.phase.unsent → w.bytesSent = false
  notRun : (∀ ok, w.phase ≠ .returned ok) → w.directRuns = 0
  frame : w.frameSent → w.bytesSent
  received : w.received → w.frameSent
  daemon : 0 < w.daemonRuns → w.received
  daemonOnce : w.daemonRuns ≤ 1
  acked : w.response = some .ack → w.daemonRuns = 1
  direct : 0 < w.directRuns → w.bytesSent = false
  directOnce : w.directRuns ≤ 1
  ok : w.phase = .returned true → w.directRuns + w.daemonRuns = 1

theorem Write.safe_idle : Write.idle.Safe := by
  constructor <;> simp [Write.idle, WritePhase.unsent]

namespace Write.Safe

variable {w w' : Write}

theorem bytesSent_of_daemon (h : w.Safe) (hruns : 0 < w.daemonRuns) : w.bytesSent = true :=
  h.frame (h.received (h.daemon hruns))

/-- The daemon never executes what the direct repository runs. -/
theorem daemonRuns_eq_zero (h : w.Safe) (hbytes : w.bytesSent = false) : w.daemonRuns = 0 := by
  by_contra hruns
  have hsent := h.bytesSent_of_daemon (Nat.pos_of_ne_zero hruns)
  rw [hbytes] at hsent
  cases hsent

theorem runs_le_one (h : w.Safe) : w.directRuns + w.daemonRuns ≤ 1 := by
  by_cases hdirect : 0 < w.directRuns
  · rw [h.daemonRuns_eq_zero (h.direct hdirect)]
    exact h.directOnce
  · have hdaemon := h.daemonOnce
    omega

/-- A write that has sent nothing has not returned through the exchange. -/
theorem not_returned_of_unsent (h : w.phase.unsent) (ok : Bool) : w.phase ≠ .returned ok := by
  intro hphase
  rw [hphase] at h
  cases h

theorem advance (h : w.Safe) (hadvance : Advance w w') : w'.Safe := by
  cases hadvance with
  | stays => exact h
  | @moves phase hfrom hto =>
    have hdirect : w.directRuns = 0 := h.notRun (not_returned_of_unsent hfrom)
    refine { h with unsent := fun _ => h.unsent hfrom, notRun := fun _ => hdirect, ok := ?_ }
    intro hphase
    obtain rfl : phase = .returned true := hphase
    rcases hto with hto | hto <;> cases hto
  | sends hphase =>
    have hdirect : w.directRuns = 0 := h.notRun (by simp [hphase])
    refine
      { h with
        unsent := fun hunsent => ?_
        frame := fun _ => rfl
        direct := fun hruns => ?_ }
    · rw [hphase] at hunsent
      cases hunsent
    · rw [hdirect] at hruns
      cases hruns
  | completes hphase =>
    have hdirect : w.directRuns = 0 := h.notRun (by simp [hphase])
    refine
      { h with
        unsent := fun hunsent => ?_
        notRun := fun _ => hdirect
        frame := fun _ => rfl
        received := fun _ => rfl
        direct := fun hruns => ?_
        ok := fun hok => ?_ }
    · cases hunsent
    · rw [hdirect] at hruns
      cases hruns
    · cases hok
  | loses =>
    refine
      { h with
        unsent := fun hunsent => ?_
        notRun := fun hnot => absurd rfl (hnot false)
        ok := fun hok => ?_ }
    · cases hunsent
    · cases hok
  | @reads response hphase hresponse =>
    have hdirect : w.directRuns = 0 := h.notRun (by simp [hphase])
    refine
      { h with
        unsent := fun hunsent => ?_
        notRun := fun hnot => absurd rfl (hnot _)
        ok := fun hok => ?_ }
    · cases hunsent
    · have hack : response = .ack := by simpa using hok
      have hruns : w.daemonRuns = 1 := h.acked (hack ▸ hresponse)
      rw [show w.directRuns + w.daemonRuns = 1 by rw [hdirect, hruns]]
  | falls hphase =>
    have hdirect : w.directRuns = 0 := h.notRun (by simp [hphase])
    have hbytes : w.bytesSent = false := h.unsent (by rw [hphase]; rfl)
    have hdaemon : w.daemonRuns = 0 := h.daemonRuns_eq_zero hbytes
    refine
      { h with
        unsent := fun _ => hbytes
        notRun := fun hnot => absurd rfl (hnot _)
        direct := fun _ => hbytes
        directOnce := ?_
        ok := fun _ => ?_ }
    · rw [hdirect]
    · rw [hdirect, hdaemon]
  | receives hframe => exact { h with received := fun _ => hframe, daemon := fun _ => rfl }
  | executes hreceived hruns =>
    have hbytes : w.bytesSent = true := h.frame (h.received hreceived)
    refine
      { h with
        daemon := fun _ => hreceived
        daemonOnce := by rw [hruns]
        acked := fun _ => by rw [hruns]
        ok := fun hok => ?_ }
    -- A write that returned `Ok` and was not executed by the daemon was never sent to it.
    have honce : w.directRuns + w.daemonRuns = 1 := h.ok hok
    have hunsent := h.direct (by omega)
    rw [hbytes] at hunsent
    cases hunsent
  | responds hreceived hack =>
    exact { h with acked := fun hresponse => hack (Option.some.inj hresponse) }

end Write.Safe

namespace DaemonConversationRepository

theorem run_safe (spawnAttempted : Bool) (actions : List Action) (i : ℕ) :
    ((run step (new spawnAttempted) actions).writes i).Safe := by
  have hkeep : ∀ (s : DaemonConversationRepository) (action : Action),
      (∀ i, (s.writes i).Safe) → ∀ i, ((s.step action).writes i).Safe :=
    fun s action h i => (h i).advance (advance_of_step s action i)
  exact run_induction hkeep (fun _ => Write.safe_idle) actions i

/-- A write that has returned keeps its outcome, and the direct repository does not run it
any more. -/
theorem run_returned {s : DaemonConversationRepository} {i : ℕ} {ok : Bool}
    (h : (s.writes i).phase = .returned ok) (actions : List Action) :
    ((run step s actions).writes i).phase = .returned ok ∧
      ((run step s actions).writes i).directRuns = (s.writes i).directRuns := by
  let inv : DaemonConversationRepository → Prop := fun t =>
    (t.writes i).phase = .returned ok ∧ (t.writes i).directRuns = (s.writes i).directRuns
  have hkeep : ∀ t action, inv t → inv (t.step action) := by
    intro t action hinv
    obtain ⟨hphase, hdirect⟩ := (advance_of_step t action i).returned hinv.1
    exact ⟨hphase, hdirect.trans hinv.2⟩
  exact run_induction hkeep ⟨h, rfl⟩ actions

/-- **A write is executed at most once.** The direct repository runs it only if no byte of its
request is ever sent; a write that returns `Ok` was executed by exactly one of the two, and
one that returns `Err` is not run again. -/
theorem run_executed_once (spawnAttempted : Bool) (actions : List Action) (i : ℕ) :
    let w := (run step (new spawnAttempted) actions).writes i
    (0 < w.directRuns → w.bytesSent = false) ∧
      w.directRuns + w.daemonRuns ≤ 1 ∧
      (w.phase = .returned true → w.directRuns + w.daemonRuns = 1) ∧
      (w.phase = .returned false → ∀ later,
        let w' := (run step (new spawnAttempted) (actions ++ later)).writes i
        w'.phase = .returned false ∧ w'.directRuns = w.directRuns ∧
          w'.directRuns + w'.daemonRuns ≤ 1) := by
  intro w
  have hsafe := run_safe spawnAttempted actions i
  refine ⟨hsafe.direct, hsafe.runs_le_one, hsafe.ok, ?_⟩
  intro hphase later w'
  have hw' : w' = (run step (run step (new spawnAttempted) actions) later).writes i := by
    rw [← run_append]
  obtain ⟨hreturned, hdirect⟩ := run_returned hphase later
  refine ⟨hw' ▸ hreturned, hw' ▸ hdirect, ?_⟩
  exact (run_safe spawnAttempted (actions ++ later) i).runs_le_one

end DaemonConversationRepository

end HeliosLite
