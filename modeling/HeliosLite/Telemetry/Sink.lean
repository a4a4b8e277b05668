import HeliosLite.Telemetry.Event
import HeliosLite.Telemetry.Store
import HeliosLite.Theory.Places
import HeliosLite.Theory.Run

/-!
# Submitting, flushing and shutting down the Tracera sink

Many calls run at once. Each of them is a sequence of steps on the shared queue and on the
shutdown flag, and a batch that is being sent is in neither the queue nor the server. A log says
what became of every event that was accepted.

## Main definitions

* `Call` — where a call of `submit`, `flush` or `shutdown` stands
* `Sink.advance` — one step of a call
* `SinkLog.Right` — what is promised of the events
* `SinkLog.Undisturbed` — a step that keeps the promise

## Main results

* `SinkLog.run_accounted` — every event is accounted for in every run
* `SinkLog.run_delivers` — a run whose steps are undisturbed keeps the promise
-/

namespace HeliosLite

open Theory

/-! ### The sink -/

inductive SinkError where
  | invalidConfig (message : String)
  | invalidAuth (message : String)
  | transport (message : String)
  | serverRejected (status : ℕ) (body : String)
  | authRejected (status : ℕ)
  | storeFull (capacity dropped : ℕ)
  | shutdown
  | serde (message : String)
  deriving DecidableEq, Repr

/-- A configuration that passed `validate`. -/
structure SinkConfig where
  capacity : ℕ
  blockOnFull : Bool
  batchSize : ℕ
  maxRetries : ℕ
  source : String
  batchSize_pos : 0 < batchSize
  capacity_pos : 0 < capacity
  maxRetries_pos : 0 < maxRetries

/-- A running flush: whether it is that of `shutdown`, and what it has delivered. -/
structure Flush where
  shutdown : Bool
  delivered : ℕ
  deriving DecidableEq, Repr

/-- What a call has returned. -/
inductive Reply where
  | submitted (result : Except SinkError Unit)
  | flushed (result : Except SinkError ℕ)

/-- A call, by the step that it takes next. -/
inductive Call where
  /-- `submit` puts the stamped event into the store. -/
  | storing (event : TraceraEvent)
  /-- `submit` reads how many events were dropped. -/
  | refusing
  /-- `flush` looks whether the store is empty. -/
  | checking (f : Flush)
  /-- `flush` looks at the flag. -/
  | testing (f : Flush)
  | draining (f : Flush)
  /-- `send_batch_with_retry` starts an attempt, or has none left. -/
  | attempting (f : Flush) (batch : List Entry) (attempt : ℕ) (lastErr : Option SinkError)
  | sending (f : Flush) (batch : List Entry) (attempt : ℕ) (lastErr : Option SinkError)
  | requeueing (f : Flush) (batch : List Entry) (error : SinkError)
  | returned (reply : Reply)

namespace Call

/-- The events that a call has taken out of the queue. -/
def batch : Call → List Entry
  | attempting _ batch _ _ | sending _ batch _ _ | requeueing _ batch _ => batch
  | storing _ | refusing | checking _ | testing _ | draining _ | returned _ => []

/-- The events of a request that is under way. -/
def request : Call → List Entry
  | sending _ batch _ _ => batch
  | attempting .. | requeueing .. | storing _ | refusing | checking _ | testing _ | draining _
  | returned _ => []

/-- The events that a call holds and is not sending. -/
def held : Call → List Entry
  | attempting _ batch _ _ | requeueing _ batch _ => batch
  | sending .. | storing _ | refusing | checking _ | testing _ | draining _ | returned _ => []

/-- `flush` returns; `shutdown` makes a number of an error. -/
def finish (f : Flush) (result : Except SinkError ℕ) : Call :=
  returned (.flushed (if f.shutdown then .ok (result.toOption.getD 0) else result))

/-- After the answer to a request: errors of the credentials and the configuration are final. -/
def answered (f : Flush) (batch : List Entry) (attempt : ℕ) (lastErr : Option SinkError) :
    Except SinkError Unit → Call
  | .ok _ => checking { f with delivered := f.delivered + batch.length }
  | .error (.authRejected _) | .error (.invalidConfig _) =>
    requeueing f batch (lastErr.getD (.serverRejected 0 "unknown"))
  | .error e => attempting f batch (attempt + 1) (some e)

@[simp] theorem batch_finish (f : Flush) (result : Except SinkError ℕ) :
    (finish f result).batch = [] := rfl

end Call

/-- The part of a sink that calls share, and the calls. -/
structure Sink where
  store : StoreState Entry
  shutdown : Bool
  calls : List Call

/-- A batch that came back, with the queue before and after. -/
structure Requeue where
  batch : List Entry
  before : List Entry
  after : List Entry

/-- A call of `shutdown`, with the events that were pending and the number of events that had been
sent when it was made. -/
structure Duty where
  call : ℕ
  pending : List Entry
  since : ℕ

/-- A sink with what a run says about the events: those accepted, those of all requests in the
order of sending, those delivered, those cut from a batch, and the number of those refused. -/
structure SinkLog extends Sink where
  accepted : List Entry
  sent : List Entry
  delivered : List Entry
  lost : List Entry
  refused : ℕ
  requeues : List Requeue
  duties : List Duty

/-- What happens to a sink: a call is made, or a call takes its next step. The answer to a request
is given with the step. -/
inductive SinkAction where
  | submit (event : TraceraEvent)
  | flush
  | shutdown
  | advance (i : ℕ) (answer : Except SinkError Unit)

namespace SinkLog

variable (cfg : SinkConfig)

def new : SinkLog :=
  { store := .new cfg.capacity
    shutdown := false
    calls := []
    accepted := []
    sent := []
    delivered := []
    lost := []
    refused := 0
    requeues := []
    duties := [] }

/-- The source and the schema are filled in where they are missing. -/
def stamp (event : TraceraEvent) : TraceraEvent :=
  { event with
    source := if event.source.isEmpty then cfg.source else event.source
    schema := if event.schema.isEmpty then traceraSchema else event.schema }

variable (s : SinkLog) (i : ℕ)

/-- The events that are in no queue and not delivered. -/
def inFlight : List Entry := s.calls.flatMap Call.batch

/-- The events for which a new attempt has to be made. -/
def pending : List Entry := s.store.queue ++ s.calls.flatMap Call.held

def setCall (call : Call) : SinkLog := { s with calls := s.calls.set i call }

def start (call : Call) : SinkLog := { s with calls := s.calls ++ [call] }

/-- `submit` under the lock of the store. -/
def storeEvent (event : TraceraEvent) : SinkLog :=
  let entry : Entry := { ticket := s.accepted.length, event := event }
  match s.store.submit entry cfg.blockOnFull with
  | (.pushed, store) =>
    { s.setCall i (.returned (.submitted (.ok ()))) with
      store := store
      accepted := s.accepted ++ [entry] }
  | (.full, store) =>
    { s.setCall i .refusing with
      store := store
      refused := s.refused + 1 }
  | (.waiting, store) => { s with store := store }

/-- A batch is taken out of the queue; there is none if the queue is empty by now. -/
def drain (f : Flush) : SinkLog :=
  let (batch, store) := s.store.drainBatch cfg.batchSize
  let s := { s with store := store }
  if batch.isEmpty then s.setCall i (.finish f (.ok f.delivered))
  else s.setCall i (.attempting f batch 0 none)

/-- An attempt is made, unless there were enough of them or the flag is set. -/
def attempt (f : Flush) (batch : List Entry) (attempt : ℕ) (lastErr : Option SinkError) :
    SinkLog :=
  if attempt < cfg.maxRetries then
    if s.shutdown then s.setCall i (.requeueing f batch .shutdown)
    else { s.setCall i (.sending f batch attempt lastErr) with sent := s.sent ++ batch }
  else
    s.setCall i (.requeueing f batch (lastErr.getD (.transport "exhausted retries")))

/-- The answer to a request has arrived. -/
def receive (f : Flush) (batch : List Entry) (attempt : ℕ) (lastErr : Option SinkError)
    (answer : Except SinkError Unit) : SinkLog :=
  { s.setCall i (.answered f batch attempt lastErr answer) with
    delivered := if answer.toOption.isSome then s.delivered ++ batch else s.delivered }

/-- A batch comes back to the queue, and the flush fails. -/
def requeue (f : Flush) (batch : List Entry) (error : SinkError) : SinkLog :=
  { s.setCall i (.finish f (.error error)) with
    store := s.store.requeueFront batch
    lost := s.lost ++ s.store.overflow batch
    requeues := s.requeues ++
      [{ batch := batch
         before := s.store.queue
         after := (s.store.requeueFront batch).queue }] }

/-- One step of a call. -/
def advance (answer : Except SinkError Unit) : Call → SinkLog
  | .storing event => s.storeEvent cfg i event
  | .refusing =>
    s.setCall i (.returned (.submitted (.error
      (.storeFull s.store.capacity s.store.totalDropped))))
  | .checking f =>
    if s.store.queue.isEmpty then s.setCall i (.finish f (.ok f.delivered))
    else s.setCall i (.testing f)
  | .testing f =>
    if s.shutdown then s.setCall i (.finish f (.error .shutdown))
    else s.setCall i (.draining f)
  | .draining f => s.drain cfg i f
  | .attempting f batch n lastErr => s.attempt cfg i f batch n lastErr
  | .sending f batch n lastErr => s.receive i f batch n lastErr answer
  | .requeueing f batch error => s.requeue i f batch error
  | .returned _ => s

/-- One action. A call takes its first look at the sink when it is made. -/
def step : SinkAction → SinkLog
  | .submit event =>
    if s.shutdown then s.start (.returned (.submitted (.error .shutdown)))
    else s.start (.storing (stamp cfg event))
  | .flush => s.start (.checking { shutdown := false, delivered := 0 })
  | .shutdown =>
    { s.start (.checking { shutdown := true, delivered := 0 }) with
      shutdown := true
      duties := s.duties ++
        [{ call := s.calls.length
           pending := s.pending
           since := s.sent.length }] }
  | .advance i answer =>
    match s.calls[i]? with
    | some call => s.advance cfg i answer call
    | none => s

/-! ### The promise -/

/-- Every accepted event is in one place, and those that are in none were counted. -/
structure Accounted : Prop where
  conserved : (s.delivered ++ s.inFlight ++ s.store.queue ++ s.lost).Perm s.accepted
  counted : s.store.totalDropped = s.refused + s.lost.length
  bounded : s.store.queue.length ≤ cfg.capacity

/-- Events are delivered in the order of submission, and an event is sent only after those that
were accepted before it, unless they were dropped. -/
structure InOrder : Prop where
  delivered : (s.delivered.map Entry.ticket).Pairwise (· < ·)
  sent : ∀ before entry, before ++ [entry] <+: s.sent → ∀ older ∈ s.accepted,
    older.ticket < entry.ticket → older ∈ before ∨ older ∈ s.lost

/-- Where a batch did not fit, the oldest events of batch and queue were kept. -/
def KeepsOldest : Prop :=
  ∀ r ∈ s.requeues, cfg.capacity < r.batch.length + r.before.length →
    r.after = (r.batch ++ r.before).take cfg.capacity

/-- A shutdown that has returned has seen an attempt for each event that was pending. -/
def Attempted : Prop :=
  ∀ d ∈ s.duties, ∀ result, s.calls[d.call]? = some (.returned (.flushed result)) →
    ∀ entry ∈ d.pending, entry ∈ s.sent.drop d.since

/-- The promise. -/
structure Right : Prop where
  accounted : s.Accounted cfg
  inOrder : s.InOrder
  keepsOldest : s.KeepsOldest cfg
  attempted : s.Attempted

/-- A batch is taken while no other one is in flight, a batch that comes back fits, and a shutdown
finds nothing pending. -/
def Undisturbed : SinkAction → Prop
  | .submit _ | .flush => True
  | .shutdown => s.pending = []
  | .advance i _ =>
    match s.calls[i]? with
    | some (.draining _) => s.inFlight = [] ∨ s.store.queue = []
    | some (.requeueing _ batch _) => batch.length + s.store.queue.length ≤ cfg.capacity
    | _ => True

variable {cfg s i} {call next : Call}

instance (s : SinkLog) (a : SinkAction) : Decidable (s.Undisturbed cfg a) := by
  unfold Undisturbed
  split
  · infer_instance
  · infer_instance
  · infer_instance
  · split <;> infer_instance

/-! ### Where the events are -/

theorem inFlight_start (hnone : next.batch = []) : (s.start next).inFlight = s.inFlight := by
  unfold inFlight start
  rw [List.flatMap_append, List.flatMap_singleton, hnone, List.append_nil]

theorem inFlight_setCall (hcall : s.calls[i]? = some call) (next : Call) :
    ((s.setCall i next).inFlight ++ call.batch).Perm (s.inFlight ++ next.batch) :=
  flatMap_set_perm Call.batch hcall next

theorem inFlight_setCall_of_same (hcall : s.calls[i]? = some call)
    (hsame : next.batch = call.batch) : (s.setCall i next).inFlight = s.inFlight :=
  flatMap_set_of_same hcall hsame

/-- The events of the store add up, and the store has its capacity. -/
structure Valid (cfg : SinkConfig) (s : SinkLog) : Prop where
  accounted : s.Accounted cfg
  capacity : s.store.capacity = cfg.capacity

theorem valid_new : (new cfg).Valid cfg :=
  ⟨⟨List.Perm.nil, rfl, Nat.zero_le _⟩, rfl⟩

/-- Calls that hold the same events change nothing. -/
theorem Valid.of_inFlight (h : s.Valid cfg) {s' : SinkLog} (hflight : s'.inFlight = s.inFlight)
    (hstore : s'.store = s.store) (haccepted : s'.accepted = s.accepted)
    (hdelivered : s'.delivered = s.delivered) (hlost : s'.lost = s.lost)
    (hrefused : s'.refused = s.refused) : s'.Valid cfg := by
  obtain ⟨⟨hconserved, hcounted, hbounded⟩, hcapacity⟩ := h
  refine ⟨⟨?_, ?_, ?_⟩, ?_⟩
  · rwa [hdelivered, hflight, hstore, hlost, haccepted]
  · rwa [hstore, hrefused, hlost]
  · rwa [hstore]
  · rwa [hstore]

theorem Valid.start (h : s.Valid cfg) (hnone : next.batch = []) : (s.start next).Valid cfg :=
  h.of_inFlight (inFlight_start hnone) rfl rfl rfl rfl rfl

theorem Valid.setCall (h : s.Valid cfg) (hcall : s.calls[i]? = some call)
    (hsame : next.batch = call.batch) : (s.setCall i next).Valid cfg :=
  h.of_inFlight (inFlight_setCall_of_same hcall hsame) rfl rfl rfl rfl rfl

theorem Valid.storeEvent (h : s.Valid cfg) (hcall : s.calls[i]? = some call)
    (hbatch : call.batch = []) (event : TraceraEvent) : (s.storeEvent cfg i event).Valid cfg := by
  obtain ⟨⟨hconserved, hcounted, hbounded⟩, hcapacity⟩ := h
  unfold SinkLog.storeEvent StoreState.submit
  split_ifs with hfull hblock
  · exact ⟨⟨hconserved, hcounted, hbounded⟩, hcapacity⟩
  · have hflight : (s.setCall i .refusing).inFlight = s.inFlight :=
      inFlight_setCall_of_same hcall hbatch.symm
    refine ⟨⟨?_, ?_, hbounded⟩, hcapacity⟩
    · exact hflight ▸ hconserved
    · show s.store.totalDropped + 1 = s.refused + 1 + s.lost.length
      omega
  · have hflight : (s.setCall i (.returned (.submitted (.ok ())))).inFlight = s.inFlight :=
      inFlight_setCall_of_same hcall hbatch.symm
    refine ⟨⟨?_, hcounted, ?_⟩, hcapacity⟩
    · rw [List.perm_iff_count] at hconserved ⊢
      intro a
      have ha := hconserved a
      have hsame := congrArg (List.count a) hflight
      simp only [SinkLog.inFlight, SinkLog.setCall, StoreState.push, List.count_append] at *
      omega
    · show (s.store.queue ++ [_]).length ≤ cfg.capacity
      rw [List.length_append, List.length_singleton]
      omega

theorem Valid.drain (h : s.Valid cfg) {f : Flush} (hcall : s.calls[i]? = some (.draining f)) :
    (s.drain cfg i f).Valid cfg := by
  obtain ⟨⟨hconserved, hcounted, hbounded⟩, hcapacity⟩ := h
  have hsplit := List.take_append_drop cfg.batchSize s.store.queue
  have hlength : (s.store.queue.drop cfg.batchSize).length ≤ cfg.capacity := by
    rw [List.length_drop]
    omega
  -- what the call takes is gone from the queue
  have hplaced (next : Call) (hnext : next.batch = s.store.queue.take cfg.batchSize) :
      (s.delivered ++ (s.setCall i next).inFlight ++ s.store.queue.drop cfg.batchSize ++
        s.lost).Perm s.accepted := by
    have hflight := inFlight_setCall hcall next
    rw [hnext] at hflight
    rw [List.perm_iff_count] at hconserved hflight ⊢
    intro a
    have ha := hconserved a
    have hb := hflight a
    have hq := congrArg (List.count a) hsplit
    simp only [Call.batch, List.append_nil, List.count_append] at *
    omega
  unfold SinkLog.drain StoreState.drainBatch
  dsimp only
  split_ifs with hempty
  · have hnone := List.isEmpty_iff.mp hempty
    exact ⟨⟨hplaced _ (by rw [hnone]; rfl), hcounted, hlength⟩, hcapacity⟩
  · exact ⟨⟨hplaced _ rfl, hcounted, hlength⟩, hcapacity⟩

theorem Valid.attempt (h : s.Valid cfg) {f : Flush} {batch : List Entry} {n : ℕ}
    {lastErr : Option SinkError} (hcall : s.calls[i]? = some (.attempting f batch n lastErr)) :
    (s.attempt cfg i f batch n lastErr).Valid cfg := by
  unfold SinkLog.attempt
  split_ifs with hleft hflag
  · exact h.setCall hcall rfl
  · exact h.of_inFlight (inFlight_setCall_of_same hcall rfl) rfl rfl rfl rfl rfl
  · exact h.setCall hcall rfl

/-- A request that succeeds delivers its batch; the others leave it with the call. -/
theorem Call.batch_answered (f : Flush) (batch : List Entry) (n : ℕ)
    (lastErr : Option SinkError) (answer : Except SinkError Unit) :
    (Call.answered f batch n lastErr answer).batch =
      if answer.toOption.isSome then [] else batch := by
  cases answer with
  | ok _ => rfl
  | error e => cases e <;> rfl

theorem Call.request_answered (f : Flush) (batch : List Entry) (n : ℕ)
    (lastErr : Option SinkError) (answer : Except SinkError Unit) :
    (Call.answered f batch n lastErr answer).request = [] := by
  cases answer with
  | ok _ => rfl
  | error e => cases e <;> rfl

theorem Valid.receive (h : s.Valid cfg) {f : Flush} {batch : List Entry} {n : ℕ}
    {lastErr : Option SinkError} (hcall : s.calls[i]? = some (.sending f batch n lastErr))
    (answer : Except SinkError Unit) : (s.receive i f batch n lastErr answer).Valid cfg := by
  obtain ⟨⟨hconserved, hcounted, hbounded⟩, hcapacity⟩ := h
  refine ⟨⟨?_, hcounted, hbounded⟩, hcapacity⟩
  have hflight := inFlight_setCall hcall (.answered f batch n lastErr answer)
  rw [Call.batch_answered] at hflight
  show ((if answer.toOption.isSome then s.delivered ++ batch else s.delivered) ++
    (s.setCall i (.answered f batch n lastErr answer)).inFlight ++ s.store.queue ++
    s.lost).Perm s.accepted
  rw [List.perm_iff_count] at hconserved hflight ⊢
  intro a
  have ha := hconserved a
  have hb := hflight a
  split_ifs at hb ⊢ with hok
  · simp only [Call.batch, List.append_nil, List.count_append] at ha hb ⊢
    omega
  · simp only [Call.batch, List.count_append] at ha hb ⊢
    omega

theorem Valid.requeue (h : s.Valid cfg) {f : Flush} {batch : List Entry} {error : SinkError}
    (hcall : s.calls[i]? = some (.requeueing f batch error)) :
    (s.requeue i f batch error).Valid cfg := by
  obtain ⟨⟨hconserved, hcounted, hbounded⟩, hcapacity⟩ := h
  refine ⟨⟨?_, ?_, ?_⟩, ?_⟩
  · have hflight := inFlight_setCall hcall (.finish f (.error error))
    have hsplit := List.take_append_drop (s.store.capacity - s.store.queue.length) batch
    show (s.delivered ++ (s.setCall i (.finish f (.error error))).inFlight ++
      (s.store.requeueFront batch).queue ++ (s.lost ++ s.store.overflow batch)).Perm s.accepted
    rw [StoreState.queue_requeueFront, StoreState.overflow]
    rw [Call.batch_finish, List.append_nil] at hflight
    rw [List.perm_iff_count] at hconserved hflight ⊢
    intro a
    have ha := hconserved a
    have hb := hflight a
    have hq := congrArg (List.count a) hsplit
    simp only [Call.batch, List.count_append] at ha hb hq ⊢
    omega
  · show (s.store.requeueFront batch).totalDropped = s.refused + (s.lost ++ _).length
    rw [StoreState.totalDropped_requeueFront, List.length_append, hcounted, Nat.add_assoc]
  · show (s.store.requeueFront batch).queue.length ≤ cfg.capacity
    rw [← hcapacity] at hbounded ⊢
    exact StoreState.length_requeueFront_le hbounded
  · show (s.store.requeueFront batch).capacity = cfg.capacity
    rw [StoreState.capacity_requeueFront, hcapacity]

theorem Valid.advance (h : s.Valid cfg) (hcall : s.calls[i]? = some call)
    (answer : Except SinkError Unit) : (s.advance cfg i answer call).Valid cfg := by
  cases call with
  | storing event => exact h.storeEvent hcall rfl event
  | refusing => exact h.setCall hcall rfl
  | checking f =>
    unfold SinkLog.advance
    dsimp only
    split_ifs
    · exact h.setCall hcall rfl
    · exact h.setCall hcall rfl
  | testing f =>
    unfold SinkLog.advance
    dsimp only
    split_ifs
    · exact h.setCall hcall rfl
    · exact h.setCall hcall rfl
  | draining f => exact h.drain hcall
  | attempting f batch n lastErr => exact h.attempt hcall
  | sending f batch n lastErr => exact h.receive hcall answer
  | requeueing f batch error => exact h.requeue hcall
  | returned reply => exact h

theorem Valid.step (h : s.Valid cfg) (a : SinkAction) : (s.step cfg a).Valid cfg := by
  cases a with
  | submit event =>
    unfold SinkLog.step
    dsimp only
    split_ifs
    · exact h.start rfl
    · exact h.start rfl
  | flush => exact h.start rfl
  | shutdown => exact h.of_inFlight (inFlight_start rfl) rfl rfl rfl rfl rfl
  | advance i answer =>
    rw [SinkLog.step]
    cases hcall : s.calls[i]? with
    | none => exact h
    | some call => exact h.advance hcall answer

/-- Every event is accounted for in every run. -/
theorem run_accounted (actions : List SinkAction) :
    (run (step cfg) (new cfg) actions).Accounted cfg :=
  (run_induction (fun _ a hs => hs.step a) valid_new actions).accounted

/-! ### Undisturbed runs -/

/-- Nothing was lost, and the accepted events are delivered, in flight in one batch and queued, one
after the other. What has been sent was sent in this order. -/
structure Orderly (cfg : SinkConfig) (s : SinkLog) : Prop where
  placed : s.delivered ++ s.inFlight ++ s.store.queue = s.accepted
  alone : ∀ c ∈ s.calls, c.batch = [] ∨ c.batch = s.inFlight
  lost : s.lost = []
  tickets : s.accepted.map Entry.ticket = List.range s.accepted.length
  accepted : ∀ e ∈ s.sent, e ∈ s.accepted
  sent : ∀ e ∈ s.delivered, e ∈ s.sent
  requested : ∀ c ∈ s.calls, ∀ e ∈ c.request, e ∈ s.sent
  inOrder : ∀ before entry, before ++ [entry] <+: s.sent → ∀ older ∈ s.accepted,
    older.ticket < entry.ticket → older ∈ before
  keepsOldest : s.KeepsOldest cfg
  duties : ∀ d ∈ s.duties, d.pending = []

theorem orderly_new : (new cfg).Orderly cfg := by
  constructor <;> simp [new, inFlight, StoreState.new, KeepsOldest]

namespace Orderly

theorem sorted (h : s.Orderly cfg) : (s.accepted.map Entry.ticket).Pairwise (· < ·) := by
  rw [h.tickets]
  exact List.pairwise_lt_range

theorem ticket_lt (h : s.Orderly cfg) {e : Entry} (he : e ∈ s.accepted) :
    e.ticket < s.accepted.length := by
  have hmem := List.mem_map_of_mem (f := Entry.ticket) he
  rwa [h.tickets, List.mem_range] at hmem

/-- A call is made, or makes a step that leaves the events where they are. -/
theorem of_calls (h : s.Orderly cfg) {s' : SinkLog} (hflight : s'.inFlight = s.inFlight)
    (hcalls : ∀ c ∈ s'.calls, c ∈ s.calls ∨
      (c.batch = [] ∨ c.batch = s.inFlight) ∧ ∀ e ∈ c.request, e ∈ s.sent)
    (hstore : s'.store = s.store) (haccepted : s'.accepted = s.accepted)
    (hsent : s'.sent = s.sent) (hdelivered : s'.delivered = s.delivered)
    (hlost : s'.lost = s.lost) (hrequeues : s'.requeues = s.requeues)
    (hduties : ∀ d ∈ s'.duties, d ∈ s.duties ∨ d.pending = []) : s'.Orderly cfg := by
  refine ⟨?_, ?_, ?_, ?_, ?_, ?_, ?_, ?_, ?_, ?_⟩
  · rw [hdelivered, hflight, hstore, haccepted]
    exact h.placed
  · intro c hc
    rw [hflight]
    rcases hcalls c hc with hold | ⟨hbatch, -⟩
    · exact h.alone c hold
    · exact hbatch
  · rw [hlost]
    exact h.lost
  · rw [haccepted]
    exact h.tickets
  · rw [hsent, haccepted]
    exact h.accepted
  · rw [hdelivered, hsent]
    exact h.sent
  · intro c hc
    rw [hsent]
    rcases hcalls c hc with hold | ⟨-, hrequest⟩
    · exact h.requested c hold
    · exact hrequest
  · rw [hsent, haccepted]
    exact h.inOrder
  · unfold KeepsOldest
    rw [hrequeues]
    exact h.keepsOldest
  · intro d hd
    rcases hduties d hd with hold | hnone
    · exact h.duties d hold
    · exact hnone

theorem start (h : s.Orderly cfg) (hbatch : next.batch = []) (hrequest : next.request = []) :
    (s.start next).Orderly cfg := by
  apply h.of_calls (inFlight_start hbatch) ?_ rfl rfl rfl rfl rfl rfl fun d hd => Or.inl hd
  intro c hc
  rcases List.mem_append.mp hc with hold | hnew
  · exact Or.inl hold
  · obtain rfl := List.mem_singleton.mp hnew
    exact Or.inr ⟨Or.inl hbatch, by simp [hrequest]⟩

/-- A step of a call that keeps its batch and has no request under way. -/
theorem setCall (h : s.Orderly cfg) (hcall : s.calls[i]? = some call)
    (hsame : next.batch = call.batch) (hrequest : next.request = []) :
    (s.setCall i next).Orderly cfg := by
  apply h.of_calls (inFlight_setCall_of_same hcall hsame) ?_ rfl rfl rfl rfl rfl rfl
    fun d hd => Or.inl hd
  intro c hc
  rcases List.mem_or_eq_of_mem_set hc with hold | rfl
  · exact Or.inl hold
  · refine Or.inr ⟨?_, by simp [hrequest]⟩
    rw [hsame]
    exact h.alone call (List.mem_of_getElem? hcall)

theorem storeEvent (h : s.Orderly cfg) (hcall : s.calls[i]? = some call)
    (hbatch : call.batch = []) (event : TraceraEvent) : (s.storeEvent cfg i event).Orderly cfg := by
  unfold SinkLog.storeEvent StoreState.submit
  split_ifs with hfull hblock
  · exact h.of_calls rfl (fun c hc => Or.inl hc) rfl rfl rfl rfl rfl rfl fun d hd => Or.inl hd
  · have hset : (s.setCall i .refusing).Orderly cfg := h.setCall hcall hbatch.symm rfl
    exact ⟨hset.placed, hset.alone, hset.lost, hset.tickets, hset.accepted, hset.sent,
      hset.requested, hset.inOrder, hset.keepsOldest, hset.duties⟩
  · have hset : (s.setCall i (.returned (.submitted (.ok ())))).Orderly cfg :=
      h.setCall hcall hbatch.symm rfl
    refine ⟨?_, hset.alone, hset.lost, ?_, ?_, hset.sent, hset.requested, ?_, hset.keepsOldest,
      hset.duties⟩
    · show _ ++ (s.store.queue ++ [_]) = s.accepted ++ [_]
      rw [← List.append_assoc]
      congr 1
      exact hset.placed
    · show (s.accepted ++ [_]).map Entry.ticket = List.range (s.accepted ++ [_]).length
      rw [List.map_append, h.tickets, List.length_append, List.length_singleton, List.range_succ]
      rfl
    · intro e he
      exact List.mem_append_left _ (h.accepted e he)
    · intro before entry hinitial older holder hlt
      rcases List.mem_append.mp holder with hold | hnew
      · exact h.inOrder before entry hinitial older hold hlt
      · -- the new event is younger than all that were sent
        obtain rfl := List.mem_singleton.mp hnew
        have hentry : entry ∈ s.sent := hinitial.subset (by simp)
        exact absurd (h.ticket_lt (h.accepted entry hentry)) (Nat.not_lt.mpr hlt.le)

theorem drain (h : s.Orderly cfg) {f : Flush} (hcall : s.calls[i]? = some (.draining f))
    (hfree : s.inFlight = [] ∨ s.store.queue = []) : (s.drain cfg i f).Orderly cfg := by
  unfold SinkLog.drain StoreState.drainBatch
  dsimp only
  split_ifs with hempty
  · have hset : (s.setCall i (.finish f (.ok f.delivered))).Orderly cfg :=
      h.setCall hcall rfl rfl
    have hqueue : s.store.queue.drop cfg.batchSize = s.store.queue := by
      have htake := List.isEmpty_iff.mp hempty
      have hsplit := List.take_append_drop cfg.batchSize s.store.queue
      rwa [htake] at hsplit
    refine ⟨?_, hset.alone, hset.lost, hset.tickets, hset.accepted, hset.sent, hset.requested,
      hset.inOrder, hset.keepsOldest, hset.duties⟩
    exact (congrArg _ hqueue).trans hset.placed
  · have hnone : s.inFlight = [] := by
      apply hfree.resolve_right
      intro hqueue
      rw [hqueue, List.take_nil] at hempty
      exact hempty rfl
    obtain ⟨hall, halone⟩ := flatMap_set_of_nil hcall hnone
      (.attempting f (s.store.queue.take cfg.batchSize) 0 none)
    refine ⟨?_, halone, h.lost, h.tickets, h.accepted, h.sent, ?_, h.inOrder, h.keepsOldest,
      h.duties⟩
    · have hplaced := h.placed
      rw [hnone, List.append_nil] at hplaced
      show s.delivered ++ (s.calls.set i _).flatMap Call.batch ++
        s.store.queue.drop cfg.batchSize = s.accepted
      rw [hall, Call.batch, List.append_assoc, List.take_append_drop, hplaced]
    · intro c hc
      rcases List.mem_or_eq_of_mem_set hc with hold | rfl
      · exact h.requested c hold
      · simp [Call.request]

/-- The batch of a request comes after what was delivered, and before what is queued. -/
theorem inOrder_append (h : s.Orderly cfg) {batch : List Entry} (hbatch : batch = s.inFlight)
    {before : List Entry} {entry : Entry} (hinitial : before ++ [entry] <+: s.sent ++ batch)
    {older : Entry} (holder : older ∈ s.accepted) (hlt : older.ticket < entry.ticket) :
    older ∈ before := by
  have hbefore : before <+: s.sent ++ batch := (List.prefix_append _ _).trans hinitial
  rcases Nat.lt_or_ge before.length s.sent.length with hshort | hlong
  · have hold : before ++ [entry] <+: s.sent := by
      apply List.prefix_of_prefix_length_le hinitial (List.prefix_append _ _)
      rw [List.length_append, List.length_singleton]
      exact hshort
    exact h.inOrder before entry hold older holder hlt
  · obtain ⟨rest, rfl⟩ := List.prefix_of_prefix_length_le (List.prefix_append _ _) hbefore hlong
    rw [List.append_assoc, List.prefix_append_right_inj] at hinitial
    obtain ⟨after, rfl⟩ := hinitial
    have hplaced : s.delivered ++ rest ++ entry :: (after ++ s.store.queue) = s.accepted := by
      rw [← h.placed, ← hbatch]
      simp only [List.append_assoc, List.cons_append, List.nil_append]
    have hsorted := h.sorted
    rw [← hplaced, List.map_append, List.map_cons, List.pairwise_append,
      List.pairwise_cons] at hsorted
    rw [← hplaced, List.mem_append, List.mem_append, List.mem_cons] at holder
    rcases holder with (hdelivered | hrest) | rfl | hyounger
    · exact List.mem_append_left _ (h.sent older hdelivered)
    · exact List.mem_append_right _ hrest
    · exact absurd hlt (Nat.lt_irrefl _)
    · exact absurd hlt (hsorted.2.1.1 _ (List.mem_map_of_mem hyounger)).asymm

theorem attempt (h : s.Orderly cfg) {f : Flush} {batch : List Entry} {n : ℕ}
    {lastErr : Option SinkError} (hcall : s.calls[i]? = some (.attempting f batch n lastErr)) :
    (s.attempt cfg i f batch n lastErr).Orderly cfg := by
  unfold SinkLog.attempt
  split_ifs with hleft hflag
  · exact h.setCall hcall rfl rfl
  · have hflight : (s.setCall i (.sending f batch n lastErr)).inFlight = s.inFlight :=
      inFlight_setCall_of_same hcall rfl
    have hbatch : batch = [] ∨ batch = s.inFlight := h.alone _ (List.mem_of_getElem? hcall)
    have haccepted : ∀ e ∈ batch, e ∈ s.accepted := by
      intro e he
      rcases hbatch with hnone | hbatch
      · simp [hnone] at he
      · rw [← h.placed, ← hbatch]
        simp [he]
    refine ⟨?_, ?_, h.lost, h.tickets, ?_, ?_, ?_, ?_, h.keepsOldest, h.duties⟩
    · show s.delivered ++ (s.setCall i _).inFlight ++ s.store.queue = s.accepted
      rw [hflight]
      exact h.placed
    · intro c hc
      show c.batch = [] ∨ c.batch = (s.setCall i (.sending f batch n lastErr)).inFlight
      rw [hflight]
      rcases List.mem_or_eq_of_mem_set hc with hold | rfl
      · exact h.alone c hold
      · exact hbatch
    · intro e he
      rcases List.mem_append.mp he with hold | hnew
      · exact h.accepted e hold
      · exact haccepted e hnew
    · intro e he
      exact List.mem_append_left _ (h.sent e he)
    · intro c hc e he
      rcases List.mem_or_eq_of_mem_set hc with hold | rfl
      · exact List.mem_append_left _ (h.requested c hold e he)
      · exact List.mem_append_right _ he
    · intro before entry hinitial older holder hlt
      rcases hbatch with hnone | hbatch
      · rw [hnone, List.append_nil] at hinitial
        exact h.inOrder before entry hinitial older holder hlt
      · exact h.inOrder_append hbatch hinitial holder hlt
  · exact h.setCall hcall rfl rfl

/-- A call gives up its batch, which is the oldest of what is not delivered. -/
theorem inFlight_eq_append (h : s.Orderly cfg) (hcall : s.calls[i]? = some call) (next : Call)
    (hnext : next.batch = []) : s.inFlight = call.batch ++ (s.setCall i next).inFlight ∧
      ∀ c ∈ (s.setCall i next).calls, c.batch = [] ∨ c.batch = (s.setCall i next).inFlight :=
  flatMap_set_of_alone hcall h.alone hnext

/-- A step that ends the request of a call starts no other one. -/
theorem requested_setCall (h : s.Orderly cfg) (hnext : next.request = []) :
    ∀ c ∈ (s.setCall i next).calls, ∀ e ∈ c.request, e ∈ s.sent := by
  intro c hc
  rcases List.mem_or_eq_of_mem_set hc with hold | rfl
  · exact h.requested c hold
  · simp [hnext]

theorem receive (h : s.Orderly cfg) {f : Flush} {batch : List Entry} {n : ℕ}
    {lastErr : Option SinkError} (hcall : s.calls[i]? = some (.sending f batch n lastErr))
    (answer : Except SinkError Unit) : (s.receive i f batch n lastErr answer).Orderly cfg := by
  cases hanswer : answer.toOption.isSome with
  | true =>
    have hnext : (Call.answered f batch n lastErr answer).batch = [] := by
      rw [Call.batch_answered, if_pos hanswer]
    obtain ⟨hflight, halone⟩ := h.inFlight_eq_append hcall _ hnext
    unfold SinkLog.receive
    rw [if_pos hanswer]
    refine ⟨?_, halone, h.lost, h.tickets, h.accepted, ?_,
      h.requested_setCall (Call.request_answered f batch n lastErr answer), h.inOrder,
      h.keepsOldest, h.duties⟩
    · show s.delivered ++ batch ++ (s.setCall i _).inFlight ++ s.store.queue = s.accepted
      rw [← h.placed, hflight]
      simp only [Call.batch, List.append_assoc]
    · intro e he
      rcases List.mem_append.mp he with hold | hnew
      · exact h.sent e hold
      · exact h.requested _ (List.mem_of_getElem? hcall) e hnew
  | false =>
    have hnext : (Call.answered f batch n lastErr answer).batch = batch := by
      rw [Call.batch_answered, if_neg (by simp [hanswer])]
    unfold SinkLog.receive
    rw [if_neg (by simp [hanswer])]
    exact h.setCall hcall hnext (Call.request_answered f batch n lastErr answer)

theorem requeue (h : s.Orderly cfg) (hvalid : s.Valid cfg) {f : Flush} {batch : List Entry}
    {error : SinkError} (hcall : s.calls[i]? = some (.requeueing f batch error))
    (hroom : batch.length + s.store.queue.length ≤ cfg.capacity) :
    (s.requeue i f batch error).Orderly cfg := by
  rw [← hvalid.capacity] at hroom
  obtain ⟨hflight, halone⟩ := h.inFlight_eq_append hcall (.finish f (.error error)) rfl
  unfold SinkLog.requeue
  rw [StoreState.overflow_eq_nil hroom, List.append_nil]
  refine ⟨?_, halone, h.lost, h.tickets, h.accepted, h.sent, h.requested_setCall rfl, h.inOrder,
    ?_, h.duties⟩
  · show s.delivered ++ (s.setCall i (.finish f (.error error))).inFlight ++
      (s.store.requeueFront batch).queue = s.accepted
    rw [StoreState.queue_requeueFront_of_room hroom, ← h.placed, hflight]
    rcases h.alone _ (List.mem_of_getElem? hcall) with hnone | hall
    · rw [Call.batch] at hnone ⊢
      rw [hnone, List.nil_append, List.nil_append]
    · -- the batch was all that was in flight
      have hrest : (s.setCall i (.finish f (.error error))).inFlight = [] := by
        rw [hall] at hflight
        exact List.append_right_eq_self.mp hflight.symm
      rw [hrest, List.append_nil, List.append_nil, List.append_assoc]
      rfl
  · intro r hr hfull
    rcases List.mem_append.mp hr with hold | hnew
    · exact h.keepsOldest r hold hfull
    · obtain rfl := List.mem_singleton.mp hnew
      dsimp only at hfull
      rw [hvalid.capacity] at hroom
      omega

theorem advance (h : s.Orderly cfg) (hvalid : s.Valid cfg) (hcall : s.calls[i]? = some call)
    (answer : Except SinkError Unit) (hstep : s.Undisturbed cfg (.advance i answer)) :
    (s.advance cfg i answer call).Orderly cfg := by
  rw [Undisturbed, hcall] at hstep
  cases call with
  | storing event => exact h.storeEvent hcall rfl event
  | refusing => exact h.setCall hcall rfl rfl
  | checking f =>
    unfold SinkLog.advance
    dsimp only
    split_ifs
    · exact h.setCall hcall rfl rfl
    · exact h.setCall hcall rfl rfl
  | testing f =>
    unfold SinkLog.advance
    dsimp only
    split_ifs
    · exact h.setCall hcall rfl rfl
    · exact h.setCall hcall rfl rfl
  | draining f => exact h.drain hcall hstep
  | attempting f batch n lastErr => exact h.attempt hcall
  | sending f batch n lastErr => exact h.receive hcall answer
  | requeueing f batch error => exact h.requeue hvalid hcall hstep
  | returned reply => exact h

theorem step (h : s.Orderly cfg) (hvalid : s.Valid cfg) {a : SinkAction}
    (hstep : s.Undisturbed cfg a) : (s.step cfg a).Orderly cfg := by
  cases a with
  | submit event =>
    unfold SinkLog.step
    dsimp only
    split_ifs
    · exact h.start rfl rfl
    · exact h.start rfl rfl
  | flush => exact h.start rfl rfl
  | shutdown =>
    have hstart : (s.start (.checking { shutdown := true, delivered := 0 })).Orderly cfg :=
      h.start rfl rfl
    have hduties : ∀ d ∈ (s.step cfg .shutdown).duties, d ∈ s.duties ∨ d.pending = [] := by
      intro d hd
      rcases List.mem_append.mp hd with hold | hnew
      · exact Or.inl hold
      · obtain rfl := List.mem_singleton.mp hnew
        exact Or.inr hstep
    exact hstart.of_calls rfl (fun c hc => Or.inl hc) rfl rfl rfl rfl rfl rfl hduties
  | advance i answer =>
    rw [SinkLog.step]
    cases hcall : s.calls[i]? with
    | none => exact h
    | some call => exact h.advance hvalid hcall answer hstep

theorem right (h : s.Orderly cfg) (hvalid : s.Valid cfg) : s.Right cfg where
  accounted := hvalid.accounted
  inOrder :=
    { delivered := by
        have hsublist : s.delivered.Sublist s.accepted := by
          rw [← h.placed, List.append_assoc]
          exact List.sublist_append_left _ _
        exact h.sorted.sublist (hsublist.map _)
      sent := by
        intro before entry hinitial older holder hlt
        exact Or.inl (h.inOrder before entry hinitial older holder hlt) }
  keepsOldest := h.keepsOldest
  attempted := by
    intro d hd result hresult entry hentry
    rw [h.duties d hd] at hentry
    cases hentry

end Orderly

/-- A run whose steps are undisturbed keeps the promise in every state that it reaches. -/
theorem run_delivers {actions : List SinkAction}
    (h : Meets (step cfg) (Undisturbed cfg) (new cfg) actions) :
    ∀ before, before <+: actions → (run (step cfg) (new cfg) before).Right cfg := by
  intro before hinitial
  have hstep : ∀ (s : SinkLog) a, s.Undisturbed cfg a → s.Valid cfg ∧ s.Orderly cfg →
      (s.step cfg a).Valid cfg ∧ (s.step cfg a).Orderly cfg := by
    intro s a ha hs
    exact ⟨hs.1.step a, hs.2.step hs.1 ha⟩
  obtain ⟨hvalid, horderly⟩ := run_invariant hstep (h.initial hinitial) ⟨valid_new, orderly_new⟩
  exact horderly.right hvalid

end SinkLog

/-! ### Runs -/

namespace Telemetry

def cfg : SinkConfig :=
  { capacity := 2
    blockOnFull := false
    batchSize := 1
    maxRetries := 2
    source := "forgecode"
    batchSize_pos := by decide
    capacity_pos := by decide
    maxRetries_pos := by decide }

def event : TraceraEvent :=
  { schema := ""
    id := "01J"
    ts := .epoch
    source := ""
    sessionId := none
    kind := .session
    payload := Serde.Json.null.value
    tags := .empty }

/-- A call takes some steps, each with the same answer from the server. -/
def advances (i n : ℕ) (answer : Except SinkError Unit) : List SinkAction :=
  List.replicate n (.advance i answer)

/-- Two events are submitted. -/
def submitted : List SinkAction :=
  .submit event :: advances 0 1 (.ok ()) ++ .submit event :: advances 1 1 (.ok ())

/-- The first request fails once, and the sink is shut down when both events are delivered. -/
def delivered : List SinkAction :=
  submitted ++ .flush :: advances 2 5 (.error (.transport "timed out")) ++
    advances 2 12 (.ok ()) ++ .shutdown :: advances 3 1 (.ok ())

theorem run_delivers_both : (run (SinkLog.step cfg) (SinkLog.new cfg) delivered).Right cfg :=
  SinkLog.run_delivers (by decide +kernel) delivered (List.prefix_refl delivered)

/-- The sink is shut down while an event is queued. -/
def pendingShutdown : List SinkAction :=
  .submit event :: advances 0 1 (.ok ()) ++ .shutdown :: advances 1 2 (.ok ())

/-- While the first event is being sent without success, two others are submitted. -/
def overfull : List SinkAction :=
  .submit event :: advances 0 1 (.ok ()) ++ .flush :: advances 1 5 (.error (.authRejected 401)) ++
    .submit event :: advances 2 1 (.ok ()) ++ .submit event :: advances 3 1 (.ok ()) ++
    advances 1 1 (.ok ())

/-- Two flushes take one event each, and the second request is answered first. -/
def overtaken : List SinkAction :=
  submitted ++ .flush :: advances 2 4 (.ok ()) ++ .flush :: advances 3 5 (.ok ()) ++
    advances 2 1 (.ok ())

theorem run_disturbed_not_right :
    ¬(run (SinkLog.step cfg) (SinkLog.new cfg) pendingShutdown).Right cfg ∧
      ¬(run (SinkLog.step cfg) (SinkLog.new cfg) overfull).Right cfg ∧
      ¬(run (SinkLog.step cfg) (SinkLog.new cfg) overtaken).Right cfg := by
  refine ⟨?_, ?_, ?_⟩
  · intro h
    have hsent := h.attempted _ List.mem_cons_self (.ok 0) rfl _ List.mem_cons_self
    cases hsent
  · intro h
    have hkept := congrArg (List.map Entry.ticket)
      (h.keepsOldest _ List.mem_cons_self (by decide +kernel))
    revert hkept
    decide +kernel
  · intro h
    have hsorted := h.inOrder.delivered
    revert hsorted
    decide +kernel

end Telemetry

end HeliosLite
