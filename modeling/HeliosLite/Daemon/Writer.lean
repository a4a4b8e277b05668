import HeliosLite.Storage.Daemon
import HeliosLite.Theory.Run

/-!
# The writer task of the daemon

Each client has a handler that counts its request in, sends it into a channel and waits for
the response. One writer takes the requests out of the channel, collects them in a batch and
flushes the batch: when it has a hundred requests, when no request came for a while, and when
the channel is closed. The database is opened by the first flush; if that fails, the whole
batch is answered with an error, and the next flush tries again.

Handlers and writer run at the same time: any of them may take the next step.

## Main definitions

* `Executor` — what executing a request on the open database does
* `QueuedRequest`, `Handler`, `WriterPhase` — a request with its response channel, and where
  handlers and writer stand
* `Server` — the state they share, with a history of what was read, enqueued and handled
* `Server.step` — one step of a handler or of the writer

## Main results

* `Server.Effect` — everything that one step can do
* `Server.step_effect` — every step has one of these effects
-/

namespace HeliosLite

open Theory

namespace Daemon

variable {σ τ ρ κ : Type*}

/-- Executing a request on the open database, at some time, and the response when the
database cannot be opened. -/
structure Executor (σ τ ρ κ : Type*) where
  execute : τ → σ → ρ → κ × σ
  dbError : κ

/-- A request with the number of its response channel. The client is the one that reads
that channel. -/
structure QueuedRequest (ρ : Type*) where
  request : ρ
  responseTx : ℕ
  client : ℕ
  deriving DecidableEq

/-- Where the handler of a client stands. -/
inductive Handler (ρ : Type*) where
  | reading
  /-- The request is counted in, and waits for room in the channel. -/
  | enqueuing (queued : QueuedRequest ρ)
  | waiting (queued : QueuedRequest ρ)
  | closed
  deriving DecidableEq

/-- Where the writer stands. During a flush it remembers the length of the batch, and whether
the channel was closed. -/
inductive WriterPhase where
  | collecting
  | opening (len : ℕ) (last : Bool)
  | executing (len : ℕ) (last : Bool)
  | refusing (len : ℕ) (last : Bool)
  | exited
  deriving DecidableEq, Repr

/-- What became of a request that was taken out of a batch. -/
inductive Outcome (κ : Type*) where
  | executed (response : κ)
  | notOpened
  deriving DecidableEq

/-- What a client is told about its request. -/
inductive Reply (κ : Type*) where
  | response (response : κ)
  | processingTimeout
  | queueClosed
  deriving DecidableEq

/-- The daemon, and the history of what its handlers read (`counted`), what they put into the
channel (`enqueued`), what the writer took out of its batches (`handled`), the part of it that
is taken off the counter (`finished`), the batches for which the database could not be opened
(`failed`) and what each client was told (`told`). -/
structure Server (σ ρ κ : Type*) where
  /-- The machine's counter wraps below zero, which an integer shows as a negative value. -/
  queueDepth : ℤ
  /-- Whether the accept loop still holds its end of the channel. -/
  accepting : Bool
  handlers : List (Handler ρ)
  channel : List (QueuedRequest ρ)
  batch : List (QueuedRequest ρ)
  conn : Bool
  db : σ
  writer : WriterPhase
  /-- The responses sent, by response channel. -/
  responses : List (ℕ × κ)
  counted : List (QueuedRequest ρ)
  enqueued : List (QueuedRequest ρ)
  handled : List (QueuedRequest ρ × Outcome κ)
  finished : List (QueuedRequest ρ)
  failed : List (List (QueuedRequest ρ))
  told : List (ℕ × QueuedRequest ρ × Reply κ)

/-- The steps of handlers and writer; where something outside decides, what it decides. -/
inductive Action (τ ρ : Type*) where
  /-- A client connects, and gets a handler. -/
  | accept
  /-- The accept loop ends. -/
  | shutdown
  /-- The `i`-th handler reads a request that is not a health probe. -/
  | read (i : ℕ) (request : ρ)
  | send (i : ℕ)
  | receive (i : ℕ)
  /-- The handler has waited long enough for a response. -/
  | expire (i : ℕ)
  /-- The client is gone, or does not send anything. -/
  | disconnect (i : ℕ)
  | recv
  /-- The batch window elapses. -/
  | elapse
  /-- The channel reports that all its senders are dropped. -/
  | recvNone
  | openConnection (ok : Bool)
  /-- The next request of the batch is executed, or answered with an error. -/
  | drain (now : τ)
  /-- The flushed batch is taken off the counter. -/
  | subtract
  deriving DecidableEq

namespace Server

/-- A daemon without clients. -/
def new (db : σ) : Server σ ρ κ :=
  { queueDepth := 0
    accepting := true
    handlers := []
    channel := []
    batch := []
    conn := false
    db := db
    writer := .collecting
    responses := []
    counted := []
    enqueued := []
    handled := []
    finished := []
    failed := []
    told := [] }

/-- The capacity of the channel. -/
def capacity : ℕ := 1024

/-- The length at which a batch is flushed. -/
def batchThreshold : ℕ := 100

/-- Whether a handler holds its end of the channel. -/
def holdsSender : Handler ρ → Bool
  | .closed => false
  | _ => true

/-- All senders of the channel are dropped. -/
def sendersDropped (s : Server σ ρ κ) : Bool := !s.accepting && !s.handlers.any holdsSender

def setHandler (s : Server σ ρ κ) (i : ℕ) (handler : Handler ρ) : Server σ ρ κ :=
  { s with handlers := s.handlers.set i handler }

/-- The start of a flush: the connection is opened if it is not open yet. -/
def startFlush (s : Server σ ρ κ) (last : Bool) : Server σ ρ κ :=
  let len := s.batch.length
  { s with writer := if s.conn then .executing len last else .opening len last }

/-- The request that the `i`-th handler counts in next. -/
def nextRequest (s : Server σ ρ κ) (i : ℕ) (request : ρ) : QueuedRequest ρ :=
  { request := request, responseTx := s.counted.length, client := i }

/-- A step of a handler. -/
def handlerStep (s : Server σ ρ κ) (i : ℕ) (handler : Handler ρ) : Action τ ρ → Server σ ρ κ
  | .read _ request =>
    match handler with
    | .reading =>
      let queued := s.nextRequest i request
      { s with
        queueDepth := s.queueDepth + 1
        counted := s.counted ++ [queued] }.setHandler i (.enqueuing queued)
    | _ => s
  | .send _ =>
    match handler with
    | .enqueuing queued =>
      if s.writer = .exited then
        { s with
          queueDepth := s.queueDepth - 1
          told := s.told ++ [(i, queued, Reply.queueClosed)] }.setHandler i .closed
      else if s.channel.length < capacity then
        { s with
          channel := s.channel ++ [queued]
          enqueued := s.enqueued ++ [queued] }.setHandler i (.waiting queued)
      else
        s
    | _ => s
  | .receive _ =>
    match handler with
    | .waiting queued =>
      match s.responses.lookup queued.responseTx with
      | some response =>
        { s with told := s.told ++ [(i, queued, Reply.response response)] }.setHandler i .reading
      | none => s
    | _ => s
  | .expire _ =>
    match handler with
    | .waiting queued =>
      { s with told := s.told ++ [(i, queued, Reply.processingTimeout)] }.setHandler i .closed
    | _ => s
  | .disconnect _ =>
    match handler with
    | .reading => s.setHandler i .closed
    | _ => s
  | _ => s

/-- A step of the writer. -/
def writerStep (exec : Executor σ τ ρ κ) (s : Server σ ρ κ) (action : Action τ ρ) :
    Server σ ρ κ :=
  match s.writer, action with
  | .collecting, .recv =>
    match s.channel with
    | queued :: channel =>
      let s := { s with channel := channel, batch := s.batch ++ [queued] }
      if batchThreshold ≤ s.batch.length then s.startFlush false else s
    | [] => s
  | .collecting, .elapse => if s.batch.isEmpty then s else s.startFlush false
  | .collecting, .recvNone =>
    if s.channel.isEmpty && s.sendersDropped then
      if s.batch.isEmpty then { s with writer := .exited } else s.startFlush true
    else
      s
  | .opening len last, .openConnection true =>
    { s with conn := true, writer := .executing len last }
  | .opening len last, .openConnection false =>
    { s with writer := .refusing len last, failed := s.failed ++ [s.batch] }
  | .executing _ _, .drain now =>
    match s.batch with
    | queued :: batch =>
      let (response, db) := exec.execute now s.db queued.request
      { s with
        batch := batch
        db := db
        responses := s.responses ++ [(queued.responseTx, response)]
        handled := s.handled ++ [(queued, .executed response)] }
    | [] => s
  | .refusing _ _, .drain _ =>
    match s.batch with
    | queued :: batch =>
      { s with
        batch := batch
        responses := s.responses ++ [(queued.responseTx, exec.dbError)]
        handled := s.handled ++ [(queued, .notOpened)] }
    | [] => s
  | .executing len last, .subtract | .refusing len last, .subtract =>
    if s.batch.isEmpty then
      { s with
        queueDepth := s.queueDepth - len
        writer := if last then .exited else .collecting
        finished := s.handled.map Prod.fst }
    else
      s
  | _, _ => s

def step (exec : Executor σ τ ρ κ) (s : Server σ ρ κ) (action : Action τ ρ) : Server σ ρ κ :=
  match action with
  | .accept => if s.accepting then { s with handlers := s.handlers ++ [.reading] } else s
  | .shutdown => { s with accepting := false }
  | .read i _ | .send i | .receive i | .expire i | .disconnect i =>
    match s.handlers[i]? with
    | some handler => s.handlerStep i handler action
    | none => s
  | .recv | .elapse | .recvNone | .openConnection _ | .drain _ | .subtract =>
    s.writerStep exec action

end Server

end Daemon

variable [Libraries] in
/-- The daemon on its database, with the texts of an opening and of an execution that fail. -/
def DbServer.executor (dbPath openError executeError : String) :
    Daemon.Executor Store DateTime Request Response :=
  { execute := fun now db request =>
      match executeWithConn db request now with
      | some (response, db) => (response, db)
      | none => (.error s!"db error ({dbPath}): {executeError}", db)
    dbError := .error s!"db error ({dbPath}): {openError}" }

namespace Daemon

namespace Server

/-! ### What a step does -/

variable {σ τ ρ κ : Type*} {exec : Executor σ τ ρ κ} {s s' : Server σ ρ κ}

inductive Effect (exec : Executor σ τ ρ κ) (s : Server σ ρ κ) : Server σ ρ κ → Prop
  | idle : Effect exec s s
  | accepted (haccepting : s.accepting = true) :
      Effect exec s { s with handlers := s.handlers ++ [.reading] }
  | shut : Effect exec s { s with accepting := false }
  | read {i : ℕ} {request : ρ} (hhandler : s.handlers[i]? = some .reading) :
      Effect exec s
        ({ s with
            queueDepth := s.queueDepth + 1
            counted := s.counted ++ [s.nextRequest i request] }.setHandler i
          (.enqueuing (s.nextRequest i request)))
  | refused {i : ℕ} {queued : QueuedRequest ρ}
      (hhandler : s.handlers[i]? = some (.enqueuing queued)) (hexited : s.writer = .exited) :
      Effect exec s
        ({ s with
            queueDepth := s.queueDepth - 1
            told := s.told ++ [(i, queued, Reply.queueClosed)] }.setHandler i .closed)
  | sent {i : ℕ} {queued : QueuedRequest ρ}
      (hhandler : s.handlers[i]? = some (.enqueuing queued)) (hrunning : s.writer ≠ .exited) :
      Effect exec s
        ({ s with
            channel := s.channel ++ [queued]
            enqueued := s.enqueued ++ [queued] }.setHandler i (.waiting queued))
  | received {i : ℕ} {queued : QueuedRequest ρ} {response : κ}
      (hhandler : s.handlers[i]? = some (.waiting queued))
      (hresponse : s.responses.lookup queued.responseTx = some response) :
      Effect exec s
        ({ s with told := s.told ++ [(i, queued, Reply.response response)] }.setHandler i .reading)
  | expired {i : ℕ} {queued : QueuedRequest ρ}
      (hhandler : s.handlers[i]? = some (.waiting queued)) :
      Effect exec s
        ({ s with told := s.told ++ [(i, queued, Reply.processingTimeout)] }.setHandler i .closed)
  | disconnected {i : ℕ} (hhandler : s.handlers[i]? = some .reading) :
      Effect exec s (s.setHandler i .closed)
  | taken {queued : QueuedRequest ρ} {channel : List (QueuedRequest ρ)}
      (hwriter : s.writer = .collecting) (hchannel : s.channel = queued :: channel) :
      Effect exec s { s with channel := channel, batch := s.batch ++ [queued] }
  | takenFull {queued : QueuedRequest ρ} {channel : List (QueuedRequest ρ)}
      (hwriter : s.writer = .collecting) (hchannel : s.channel = queued :: channel) :
      Effect exec s
        ({ s with channel := channel, batch := s.batch ++ [queued] }.startFlush false)
  | flushes {last : Bool} (hwriter : s.writer = .collecting)
      (hlast : last = true → s.channel = [] ∧ s.sendersDropped = true) :
      Effect exec s (s.startFlush last)
  | exits (hwriter : s.writer = .collecting) (hchannel : s.channel = [])
      (hdropped : s.sendersDropped = true) (hbatch : s.batch = []) :
      Effect exec s { s with writer := .exited }
  | opened {len : ℕ} {last : Bool} (hwriter : s.writer = .opening len last) :
      Effect exec s { s with conn := true, writer := .executing len last }
  | notOpened {len : ℕ} {last : Bool} (hwriter : s.writer = .opening len last) :
      Effect exec s
        { s with writer := .refusing len last, failed := s.failed ++ [s.batch] }
  | executed {len : ℕ} {last : Bool} {queued : QueuedRequest ρ}
      {batch : List (QueuedRequest ρ)} (now : τ) (hwriter : s.writer = .executing len last)
      (hbatch : s.batch = queued :: batch) :
      Effect exec s
        { s with
          batch := batch
          db := (exec.execute now s.db queued.request).2
          responses := s.responses ++
            [(queued.responseTx, (exec.execute now s.db queued.request).1)]
          handled := s.handled ++
            [(queued, .executed (exec.execute now s.db queued.request).1)] }
  | answered {len : ℕ} {last : Bool} {queued : QueuedRequest ρ}
      {batch : List (QueuedRequest ρ)} (hwriter : s.writer = .refusing len last)
      (hbatch : s.batch = queued :: batch) :
      Effect exec s
        { s with
          batch := batch
          responses := s.responses ++ [(queued.responseTx, exec.dbError)]
          handled := s.handled ++ [(queued, .notOpened)] }
  | subtracted {len : ℕ} {last : Bool}
      (hwriter : s.writer = .executing len last ∨ s.writer = .refusing len last)
      (hbatch : s.batch = []) :
      Effect exec s
        { s with
          queueDepth := s.queueDepth - len
          writer := if last then .exited else .collecting
          finished := s.handled.map Prod.fst }

theorem handlerStep_effect {i : ℕ} {handler : Handler ρ} (hhandler : s.handlers[i]? = some handler)
    (action : Action τ ρ) : Effect exec s (s.handlerStep i handler action) := by
  unfold handlerStep
  split
  · split
    · exact .read hhandler
    · exact .idle
  · split
    · split
      · rename_i hexited
        exact .refused hhandler hexited
      · rename_i hrunning
        split
        · exact .sent hhandler hrunning
        · exact .idle
    · exact .idle
  · split
    · split
      · rename_i response hresponse
        exact .received hhandler hresponse
      · exact .idle
    · exact .idle
  · split
    · exact .expired hhandler
    · exact .idle
  · split
    · exact .disconnected hhandler
    · exact .idle
  · exact .idle

theorem writerStep_effect (action : Action τ ρ) : Effect exec s (s.writerStep exec action) := by
  unfold writerStep
  split
  · rename_i hwriter
    split
    · rename_i queued channel hchannel
      dsimp only
      split
      · exact .takenFull hwriter hchannel
      · exact .taken hwriter hchannel
    · exact .idle
  · rename_i hwriter
    split
    · exact .idle
    · exact .flushes hwriter (by simp)
  · rename_i hwriter
    split
    · rename_i hclosed
      have hchannel : s.channel = [] := by simp_all
      have hdropped : s.sendersDropped = true := by simp_all
      split
      · rename_i hbatch
        exact .exits hwriter hchannel hdropped (by simpa using hbatch)
      · exact .flushes hwriter fun _ => ⟨hchannel, hdropped⟩
    · exact .idle
  · rename_i hwriter
    exact .opened hwriter
  · rename_i hwriter
    exact .notOpened hwriter
  · rename_i now hwriter
    split
    · rename_i queued batch hbatch
      exact .executed now hwriter hbatch
    · exact .idle
  · rename_i hwriter
    split
    · rename_i queued batch hbatch
      exact .answered hwriter hbatch
    · exact .idle
  · rename_i hwriter
    split
    · rename_i hbatch
      exact .subtracted (Or.inl hwriter) (by simpa using hbatch)
    · exact .idle
  · rename_i hwriter
    split
    · rename_i hbatch
      exact .subtracted (Or.inr hwriter) (by simpa using hbatch)
    · exact .idle
  · exact .idle

theorem step_effect (s : Server σ ρ κ) (action : Action τ ρ) :
    Effect exec s (s.step exec action) := by
  unfold step
  split
  · split
    · rename_i haccepting
      exact .accepted haccepting
    · exact .idle
  · exact .shut
  all_goals first
    | exact writerStep_effect _
    | skip
  all_goals
    split
    · rename_i hhandler
      exact handlerStep_effect hhandler _
    · exact .idle

end Server

end Daemon

end HeliosLite
