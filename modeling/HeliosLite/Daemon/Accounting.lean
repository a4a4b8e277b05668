import Mathlib.Data.List.Nodup
import HeliosLite.Daemon.Writer
import HeliosLite.Storage.Reference
import HeliosLite.Theory.Places

/-!
# Every request is accounted for

The writer's history says where each request is that a handler has counted in: on its way
into the channel, in the channel, in the batch, or handled. Nothing is lost and nothing is
handled twice, and the counter is the number of requests that no flush has finished.

A request is not always executed. When the database cannot be opened, the requests of the
batch are answered with an error, and they are handled by that.

## Main definitions

* `Server.Placed` — each request is read by one handler, and is with it or was answered
* `Server.Ordered` — the channel and the batch are the queue of requests not yet handled
* `Server.Answered` — what clients are told comes from the writer
* `Server.Opened` — requests not executed are those of a batch that failed to open
* `Server.Replays` — the database is what executing the handled requests in order leaves

## Main results

* `run_accounted` — they hold in every state of every run
* `Server.Ordered.exists_handled` — the writer can always handle what is enqueued
* `run_eachHandled` — in every run each request is handled once and in order, its client gets
  its own response, and the counter is exact
* `Greeting.exited_not_executed` — a request that is not executed
-/

namespace HeliosLite

open Theory

namespace Daemon

variable {σ τ ρ κ : Type*}

/-- The request that a handler has read and not yet put into the channel. -/
@[simp] def Handler.entering : Handler ρ → Option (QueuedRequest ρ)
  | .enqueuing queued => some queued
  | _ => none

/-- The request for which a handler has no answer yet. -/
@[simp] def Handler.pending : Handler ρ → Option (QueuedRequest ρ)
  | .enqueuing queued => some queued
  | .waiting queued => some queued
  | _ => none

/-- The response that the writer sends for an outcome. -/
def Executor.respond (exec : Executor σ τ ρ κ) : Outcome κ → κ
  | .executed response => response
  | .notOpened => exec.dbError

/-- Whether the writer has seen that the channel is closed. -/
@[simp] def WriterPhase.channelClosed : WriterPhase → Bool
  | .collecting => false
  | .opening _ last | .executing _ last | .refusing _ last => last
  | .exited => true

/-- The steps of the writer, which finds the database as `ok` says. -/
def Action.ofWriter (ok : Bool) : Action τ ρ → Bool
  | .recv | .elapse | .drain _ | .subtract => true
  | .openConnection found => found == ok
  | _ => false

namespace Server

variable {exec : Executor σ τ ρ κ} {s s' : Server σ ρ κ}

/-- The number of requests that the writer took out of the channel and that still count. -/
def unfinished (s : Server σ ρ κ) : ℕ :=
  match s.writer with
  | .opening len _ | .executing len _ | .refusing len _ => len
  | .collecting | .exited => s.batch.length

/-! ### Where the requests are -/

/-- Each request has a response channel of its own, and is on its way into the channel or
enqueued; and it is with the handler that read it or was answered. -/
structure Placed (s : Server σ ρ κ) : Prop where
  indexed : ∀ n (queued : QueuedRequest ρ), s.counted[n]? = some queued →
    queued.responseTx = n
  enqueued : s.counted.Perm (s.enqueued ++ s.handlers.filterMap Handler.entering)
  answered : s.counted.Perm
    (s.told.map (fun entry => entry.2.1) ++ s.handlers.filterMap Handler.pending)
  client : ∀ i (handler : Handler ρ) (queued : QueuedRequest ρ), s.handlers[i]? = some handler →
    handler.pending = some queued → queued.client = i
  toldClient : ∀ entry ∈ s.told, entry.2.1.client = entry.1

/-- The batch and the channel hold what was enqueued and not yet handled, and the counter the
requests of flushes that are not finished. -/
structure Ordered (exec : Executor σ τ ρ κ) (s : Server σ ρ κ) : Prop where
  inOrder : s.handled.map Prod.fst ++ s.batch ++ s.channel = s.enqueued
  responses : s.responses = s.handled.map fun entry =>
    (entry.1.responseTx, exec.respond entry.2)
  depth : s.queueDepth = s.counted.length - s.finished.length
  finished : s.finished <+: s.handled.map Prod.fst
  unfinished : s.finished.length + s.unfinished = s.handled.length + s.batch.length
  exited : s.writer = .exited → s.batch = []
  closing : s.writer.channelClosed = true → s.channel = [] ∧ s.sendersDropped = true

/-- What a client is told is the response of its own request. -/
def Answered (exec : Executor σ τ ρ κ) (s : Server σ ρ κ) : Prop :=
  ∀ i queued response, (i, queued, Reply.response response) ∈ s.told →
    ∃ outcome, (queued, outcome) ∈ s.handled ∧ exec.respond outcome = response

/-- The requests that were not executed are those of the batches that failed to open. -/
structure Opened (s : Server σ ρ κ) : Prop where
  failed : ∀ batch ∈ s.failed, ∀ queued ∈ batch, (queued, .notOpened) ∈ s.handled ∨
    (∃ len last, s.writer = .refusing len last) ∧ queued ∈ s.batch
  notOpened : ∀ queued, (queued, .notOpened) ∈ s.handled → ∃ batch ∈ s.failed, queued ∈ batch
  refusing : ∀ len last, s.writer = .refusing len last →
    ∀ queued ∈ s.batch, ∃ batch ∈ s.failed, queued ∈ batch

/-- Executing the requests of a history in order, with the responses that it has, takes one
database to another. -/
inductive Replays (exec : Executor σ τ ρ κ) : σ → List (QueuedRequest ρ × Outcome κ) → σ → Prop
  | nil {db : σ} : Replays exec db [] db
  | executed {db db' : σ} {handled : List (QueuedRequest ρ × Outcome κ)} (now : τ)
      (queued : QueuedRequest ρ) (h : Replays exec db handled db') :
      Replays exec db
        (handled ++ [(queued, .executed (exec.execute now db' queued.request).1)])
        (exec.execute now db' queued.request).2
  | notOpened {db db' : σ} {handled : List (QueuedRequest ρ × Outcome κ)}
      (queued : QueuedRequest ρ) (h : Replays exec db handled db') :
      Replays exec db (handled ++ [(queued, .notOpened)]) db'

/-! ### The steps keep it -/

theorem eq_closed_of_sendersDropped (hdropped : s.sendersDropped = true) {i : ℕ}
    {handler : Handler ρ} (hhandler : s.handlers[i]? = some handler) : handler = .closed := by
  have hall : ∀ handler ∈ s.handlers, ¬holdsSender handler = true := by
    simpa [sendersDropped] using (Bool.and_eq_true_iff.mp hdropped).2
  have hnot := hall handler (List.mem_of_getElem? hhandler)
  cases handler with
  | closed => rfl
  | reading => exact absurd rfl hnot
  | enqueuing queued => exact absurd rfl hnot
  | waiting queued => exact absurd rfl hnot

theorem Placed.initial (db : σ) : Placed (new db : Server σ ρ κ) where
  indexed n queued h := by simp [new] at h
  enqueued := .nil
  answered := .nil
  client i handler queued h := by simp [new] at h
  toldClient entry h := by simp [new] at h

/-- A handler that moves on keeps the clients apart, if what it waits for is its own. -/
theorem Placed.client_set (hplaced : Placed s) {i : ℕ} {next : Handler ρ}
    (hnext : ∀ queued, next.pending = some queued → queued.client = i) (j : ℕ)
    (handler : Handler ρ) (queued : QueuedRequest ρ)
    (hhandler : (s.handlers.set i next)[j]? = some handler)
    (hpending : handler.pending = some queued) : queued.client = j := by
  rw [List.getElem?_set] at hhandler
  split at hhandler
  · rename_i hij
    subst hij
    split at hhandler
    · obtain rfl := Option.some.inj hhandler
      exact hnext queued hpending
    · exact absurd hhandler (by simp)
  · exact hplaced.client j handler queued hhandler hpending

/-- What leaves one list and joins the other is still in one of them. -/
theorem perm_of_moved {α : Type*} {all there here here' : List α} {a : α}
    (hall : all.Perm (there ++ here)) (hmoved : (here' ++ [a]).Perm here) :
    all.Perm (there ++ [a] ++ here') := by
  have hswap : (here' ++ [a]).Perm ([a] ++ here') := List.perm_append_comm
  have hhere : here.Perm ([a] ++ here') := hmoved.symm.trans hswap
  rw [List.append_assoc]
  exact hall.trans (hhere.append_left there)

/-- A request that a handler reads joins those that are with a handler. -/
theorem perm_of_read {α : Type*} {all there here here' : List α} {a : α}
    (hall : all.Perm (there ++ here)) (hread : here'.Perm (here ++ [a])) :
    (all ++ [a]).Perm (there ++ here') := by
  have hjoined : (all ++ [a]).Perm (there ++ here ++ [a]) := hall.append_right [a]
  rw [List.append_assoc] at hjoined
  exact hjoined.trans (hread.symm.append_left there)

theorem Placed.step (hplaced : Placed s)
    (hexited : s.writer = .exited → s.sendersDropped = true) (h : Effect exec s s') :
    Placed s' := by
  cases h with
  | idle => exact hplaced
  | accepted haccepting =>
    refine ⟨hplaced.indexed, ?_, ?_, ?_, hplaced.toldClient⟩
    · simpa [List.filterMap_cons] using hplaced.enqueued
    · simpa [List.filterMap_cons] using hplaced.answered
    · intro i handler queued hhandler hpending
      rw [List.getElem?_append] at hhandler
      split at hhandler
      · exact hplaced.client i handler queued hhandler hpending
      · have hnew : handler ∈ [Handler.reading] := List.mem_of_getElem? hhandler
        obtain rfl := List.mem_singleton.mp hnew
        simp at hpending
  | @read i request hhandler =>
    unfold setHandler
    refine ⟨?_, ?_, ?_, ?_, hplaced.toldClient⟩
    · intro n other hother
      dsimp only at hother
      rw [List.getElem?_append] at hother
      split at hother
      · exact hplaced.indexed n other hother
      · rename_i hn
        have hnew : other ∈ [s.nextRequest i request] := List.mem_of_getElem? hother
        obtain rfl := List.mem_singleton.mp hnew
        have hlast := (List.getElem?_eq_some_iff.mp hother).1
        simp only [List.length_singleton] at hlast
        show s.counted.length = n
        omega
    · refine perm_of_read hplaced.enqueued ?_
      simpa using filterMap_set_perm Handler.entering hhandler
        (.enqueuing (s.nextRequest i request))
    · refine perm_of_read hplaced.answered ?_
      simpa using filterMap_set_perm Handler.pending hhandler (.enqueuing (s.nextRequest i request))
    · apply hplaced.client_set
      intro other hother
      obtain rfl := Option.some.inj hother
      rfl
  | refused hhandler hwriter =>
    exact absurd (eq_closed_of_sendersDropped (hexited hwriter) hhandler) (by simp)
  | @sent i queued hhandler hrunning =>
    unfold setHandler
    refine ⟨hplaced.indexed, ?_, ?_, ?_, hplaced.toldClient⟩
    · refine perm_of_moved hplaced.enqueued ?_
      simpa using filterMap_set_perm Handler.entering hhandler (.waiting queued)
    · refine hplaced.answered.trans (List.Perm.append_left _ ?_)
      have hset := filterMap_set_perm Handler.pending hhandler (.waiting queued)
      exact ((List.perm_append_right_iff _).mp hset).symm
    · apply hplaced.client_set
      intro other hother
      obtain rfl := Option.some.inj hother
      exact hplaced.client i _ _ hhandler rfl
  | @received i queued response hhandler hresponse =>
    unfold setHandler
    refine ⟨hplaced.indexed, ?_, ?_, ?_, ?_⟩
    · refine hplaced.enqueued.trans (List.Perm.append_left _ ?_)
      simpa using (filterMap_set_perm Handler.entering hhandler .reading).symm
    · dsimp only
      rw [List.map_append]
      refine perm_of_moved hplaced.answered ?_
      simpa using filterMap_set_perm Handler.pending hhandler .reading
    · apply hplaced.client_set
      simp
    · intro entry hentry
      rcases List.mem_append.mp hentry with hold | hnew
      · exact hplaced.toldClient entry hold
      · obtain rfl := List.mem_singleton.mp hnew
        exact hplaced.client i _ _ hhandler rfl
  | @expired i queued hhandler =>
    unfold setHandler
    refine ⟨hplaced.indexed, ?_, ?_, ?_, ?_⟩
    · refine hplaced.enqueued.trans (List.Perm.append_left _ ?_)
      simpa using (filterMap_set_perm Handler.entering hhandler .closed).symm
    · dsimp only
      rw [List.map_append]
      refine perm_of_moved hplaced.answered ?_
      simpa using filterMap_set_perm Handler.pending hhandler .closed
    · apply hplaced.client_set
      simp
    · intro entry hentry
      rcases List.mem_append.mp hentry with hold | hnew
      · exact hplaced.toldClient entry hold
      · obtain rfl := List.mem_singleton.mp hnew
        exact hplaced.client i _ _ hhandler rfl
  | disconnected hhandler =>
    unfold setHandler
    refine ⟨hplaced.indexed, ?_, ?_, ?_, hplaced.toldClient⟩
    · refine hplaced.enqueued.trans (List.Perm.append_left _ ?_)
      simpa using (filterMap_set_perm Handler.entering hhandler .closed).symm
    · refine hplaced.answered.trans (List.Perm.append_left _ ?_)
      simpa using (filterMap_set_perm Handler.pending hhandler .closed).symm
    · apply hplaced.client_set
      simp
  | shut | taken | takenFull | flushes | exits | opened | notOpened | executed | answered
    | subtracted =>
    exact ⟨hplaced.indexed, hplaced.enqueued, hplaced.answered, hplaced.client,
      hplaced.toldClient⟩

theorem Ordered.initial (db : σ) : Ordered exec (new db) where
  inOrder := rfl
  responses := rfl
  depth := rfl
  finished := List.nil_prefix
  unfinished := rfl
  exited h := by simp [new] at h
  closing h := by simp [new] at h

/-- While a handler is there the channel is not closed. -/
theorem not_channelClosed_of_open {i : ℕ} {handler : Handler ρ} (hordered : Ordered exec s)
    (hhandler : s.handlers[i]? = some handler) (hopen : handler ≠ .closed) :
    ¬s.writer.channelClosed = true := by
  intro hclosed
  exact hopen (eq_closed_of_sendersDropped (hordered.closing hclosed).2 hhandler)

/-- Flushing starts with the whole batch. -/
theorem Ordered.startFlush (hordered : Ordered exec s) {last : Bool}
    (hwriter : s.writer = .collecting)
    (hlast : last = true → s.channel = [] ∧ s.sendersDropped = true) :
    Ordered exec (s.startFlush last) := by
  have hunfinished := hordered.unfinished
  rw [Server.unfinished, hwriter] at hunfinished
  unfold Server.startFlush
  cases hconn : s.conn with
  | true =>
    exact ⟨hordered.inOrder, hordered.responses, hordered.depth, hordered.finished, hunfinished,
      by simp, hlast⟩
  | false =>
    exact ⟨hordered.inOrder, hordered.responses, hordered.depth, hordered.finished, hunfinished,
      by simp, hlast⟩

/-- The next request of the channel joins the batch. -/
theorem Ordered.take (hordered : Ordered exec s) {queued : QueuedRequest ρ}
    {channel : List (QueuedRequest ρ)} (hwriter : s.writer = .collecting)
    (hchannel : s.channel = queued :: channel) :
    Ordered exec { s with channel := channel, batch := s.batch ++ [queued] } := by
  refine ⟨?_, hordered.responses, hordered.depth, hordered.finished, ?_, ?_, ?_⟩
  · have hin := hordered.inOrder
    rw [hchannel] at hin
    simpa using hin
  · have hunfinished := hordered.unfinished
    simp only [Server.unfinished, hwriter] at hunfinished ⊢
    rw [List.length_append]
    omega
  · intro hexited
    exact absurd (hwriter.symm.trans hexited) (by simp)
  · intro hclosed
    simp [hwriter] at hclosed

/-- The first request of the batch joins those that are handled. -/
theorem Ordered.handle (hordered : Ordered exec s) {queued : QueuedRequest ρ}
    {batch : List (QueuedRequest ρ)} (hbatch : s.batch = queued :: batch) (outcome : Outcome κ)
    (db : σ) (hflush : ∃ len last, s.writer = .executing len last ∨
      s.writer = .refusing len last) :
    Ordered exec
      { s with
        batch := batch
        db := db
        responses := s.responses ++ [(queued.responseTx, exec.respond outcome)]
        handled := s.handled ++ [(queued, outcome)] } := by
  obtain ⟨len, last, hwriter⟩ := hflush
  refine ⟨?_, ?_, hordered.depth, ?_, ?_, ?_, hordered.closing⟩
  · have hin := hordered.inOrder
    rw [hbatch] at hin
    simpa using hin
  · simp [hordered.responses]
  · rw [List.map_append]
    exact hordered.finished.trans (List.prefix_append _ _)
  · have hunfinished := hordered.unfinished
    rcases hwriter with hwriter | hwriter
    all_goals
      simp only [Server.unfinished, hwriter, hbatch, List.length_cons] at hunfinished ⊢
      rw [List.length_append, List.length_singleton]
      omega
  · intro hexited
    rcases hwriter with hwriter | hwriter
    all_goals exact absurd (hwriter.symm.trans hexited) (by simp)

theorem Ordered.step (hordered : Ordered exec s) (h : Effect exec s s') : Ordered exec s' := by
  cases h with
  | idle => exact hordered
  | accepted haccepting =>
    refine ⟨hordered.inOrder, hordered.responses, hordered.depth, hordered.finished,
      hordered.unfinished, hordered.exited, ?_⟩
    intro hclosed
    have hdropped := (hordered.closing hclosed).2
    simp [sendersDropped, haccepting] at hdropped
  | shut =>
    refine ⟨hordered.inOrder, hordered.responses, hordered.depth, hordered.finished,
      hordered.unfinished, hordered.exited, ?_⟩
    intro hclosed
    obtain ⟨hchannel, hdropped⟩ := hordered.closing hclosed
    refine ⟨hchannel, ?_⟩
    simp only [sendersDropped, Bool.and_eq_true] at hdropped ⊢
    exact ⟨rfl, hdropped.2⟩
  | read hhandler =>
    have hopen := not_channelClosed_of_open hordered hhandler (by simp)
    refine ⟨hordered.inOrder, hordered.responses, ?_, hordered.finished, hordered.unfinished,
      hordered.exited, fun hclosed => ?_⟩
    · simp only [setHandler, hordered.depth, List.length_append, List.length_singleton]
      omega
    · exact absurd hclosed hopen
  | refused hhandler hwriter =>
    refine absurd ?_ (not_channelClosed_of_open hordered hhandler (by simp))
    simp [hwriter]
  | sent hhandler hrunning =>
    have hopen := not_channelClosed_of_open hordered hhandler (by simp)
    refine ⟨?_, hordered.responses, hordered.depth, hordered.finished, hordered.unfinished,
      hordered.exited, fun hclosed => ?_⟩
    · simp [setHandler, ← hordered.inOrder]
    · exact absurd hclosed hopen
  | received hhandler hresponse =>
    have hopen := not_channelClosed_of_open hordered hhandler (by simp)
    exact ⟨hordered.inOrder, hordered.responses, hordered.depth, hordered.finished,
      hordered.unfinished, hordered.exited, fun hclosed => absurd hclosed hopen⟩
  | expired hhandler =>
    have hopen := not_channelClosed_of_open hordered hhandler (by simp)
    exact ⟨hordered.inOrder, hordered.responses, hordered.depth, hordered.finished,
      hordered.unfinished, hordered.exited, fun hclosed => absurd hclosed hopen⟩
  | disconnected hhandler =>
    have hopen := not_channelClosed_of_open hordered hhandler (by simp)
    exact ⟨hordered.inOrder, hordered.responses, hordered.depth, hordered.finished,
      hordered.unfinished, hordered.exited, fun hclosed => absurd hclosed hopen⟩
  | taken hwriter hchannel => exact hordered.take hwriter hchannel
  | takenFull hwriter hchannel =>
    exact (hordered.take hwriter hchannel).startFlush hwriter (by simp)
  | flushes hwriter hlast => exact hordered.startFlush hwriter hlast
  | exits hwriter hchannel hdropped hbatch =>
    refine ⟨hordered.inOrder, hordered.responses, hordered.depth, hordered.finished, ?_,
      fun _ => hbatch, fun _ => ⟨hchannel, hdropped⟩⟩
    have hunfinished := hordered.unfinished
    rwa [Server.unfinished, hwriter] at hunfinished
  | opened hwriter =>
    have hunfinished := hordered.unfinished
    have hclosing := hordered.closing
    rw [Server.unfinished, hwriter] at hunfinished
    rw [hwriter] at hclosing
    exact ⟨hordered.inOrder, hordered.responses, hordered.depth, hordered.finished, hunfinished,
      by simp, hclosing⟩
  | notOpened hwriter =>
    have hunfinished := hordered.unfinished
    have hclosing := hordered.closing
    rw [Server.unfinished, hwriter] at hunfinished
    rw [hwriter] at hclosing
    exact ⟨hordered.inOrder, hordered.responses, hordered.depth, hordered.finished, hunfinished,
      by simp, hclosing⟩
  | executed now hwriter hbatch =>
    exact hordered.handle hbatch (.executed _) _ ⟨_, _, Or.inl hwriter⟩
  | answered hwriter hbatch =>
    exact hordered.handle hbatch .notOpened s.db ⟨_, _, Or.inr hwriter⟩
  | @subtracted len last hwriter hbatch =>
    have hunfinished : s.finished.length + len = s.handled.length := by
      have hunfinished := hordered.unfinished
      rcases hwriter with hwriter | hwriter
      all_goals simpa [Server.unfinished, hwriter, hbatch] using hunfinished
    have hclosing : last = true → s.channel = [] ∧ s.sendersDropped = true := by
      have hclosing := hordered.closing
      rcases hwriter with hwriter | hwriter
      all_goals rwa [hwriter] at hclosing
    refine ⟨hordered.inOrder, hordered.responses, ?_, List.prefix_rfl, ?_, fun _ => hbatch, ?_⟩
    · simp only [hordered.depth, List.length_map]
      omega
    · cases last with
      | true => simp [Server.unfinished]
      | false => simp [Server.unfinished]
    · cases last with
      | true => exact fun _ => hclosing rfl
      | false => exact fun hclosed => absurd hclosed (by simp)

/-! ### What clients are told -/

theorem Placed.eq_of_responseTx (hplaced : Placed s) {a b : QueuedRequest ρ}
    (ha : a ∈ s.counted) (hb : b ∈ s.counted) (h : a.responseTx = b.responseTx) : a = b := by
  obtain ⟨m, hm⟩ := List.mem_iff_getElem?.mp ha
  obtain ⟨n, hn⟩ := List.mem_iff_getElem?.mp hb
  have hmn : m = n := by rw [← hplaced.indexed m a hm, h, hplaced.indexed n b hn]
  subst hmn
  exact Option.some.inj (hm.symm.trans hn)

theorem Placed.counted_nodup (hplaced : Placed s) : s.counted.Nodup := by
  rw [List.nodup_iff_getElem?_ne_getElem?]
  intro m n hmn hn h
  obtain ⟨queued, hqueued⟩ : ∃ queued, s.counted[n]? = some queued :=
    ⟨_, List.getElem?_eq_getElem hn⟩
  have hm := hplaced.indexed m queued (h.trans hqueued)
  have hn := hplaced.indexed n queued hqueued
  omega

/-- No request is enqueued twice. -/
theorem Placed.enqueued_nodup (hplaced : Placed s) : s.enqueued.Nodup :=
  ((hplaced.enqueued.nodup_iff).mp hplaced.counted_nodup).of_append_left

theorem Placed.mem_counted_of_enqueued (hplaced : Placed s) {queued : QueuedRequest ρ}
    (h : queued ∈ s.enqueued) : queued ∈ s.counted :=
  hplaced.enqueued.mem_iff.mpr (List.mem_append_left _ h)

theorem Placed.mem_counted_of_pending (hplaced : Placed s) {i : ℕ} {handler : Handler ρ}
    {queued : QueuedRequest ρ} (hhandler : s.handlers[i]? = some handler)
    (hpending : handler.pending = some queued) : queued ∈ s.counted := by
  apply hplaced.answered.mem_iff.mpr
  exact List.mem_append_right _
    (List.mem_filterMap.mpr ⟨handler, List.mem_of_getElem? hhandler, hpending⟩)

theorem Ordered.mem_enqueued (hordered : Ordered exec s) {queued : QueuedRequest ρ}
    {outcome : Outcome κ} (h : (queued, outcome) ∈ s.handled) : queued ∈ s.enqueued := by
  rw [← hordered.inOrder]
  exact List.mem_append_left _ (List.mem_append_left _ (List.mem_map_of_mem h))

/-- A response that waits on the channel of a request is the response of this request. -/
theorem mem_handled_of_lookup (hplaced : Placed s) (hordered : Ordered exec s)
    {queued : QueuedRequest ρ} (hcounted : queued ∈ s.counted) {response : κ}
    (hresponse : s.responses.lookup queued.responseTx = some response) :
    ∃ outcome, (queued, outcome) ∈ s.handled ∧ exec.respond outcome = response := by
  rw [hordered.responses] at hresponse
  obtain ⟨before, after, hsplit, -⟩ := List.lookup_eq_some_iff.mp hresponse
  have hmem : (queued.responseTx, response) ∈ s.handled.map fun entry =>
      (entry.1.responseTx, exec.respond entry.2) := by simp [hsplit]
  obtain ⟨⟨other, outcome⟩, hhandled, heq⟩ := List.mem_map.mp hmem
  obtain ⟨htx, hrespond⟩ := Prod.mk.inj heq
  have hother := hplaced.mem_counted_of_enqueued (hordered.mem_enqueued hhandled)
  obtain rfl := hplaced.eq_of_responseTx hother hcounted htx
  exact ⟨outcome, hhandled, hrespond⟩

theorem Answered.step (hanswered : Answered exec s) (hplaced : Placed s)
    (hordered : Ordered exec s) (h : Effect exec s s') : Answered exec s' := by
  cases h with
  | @received i queued response hhandler hresponse =>
    intro j other told htold
    rcases List.mem_append.mp htold with hold | hnew
    · exact hanswered j other told hold
    · obtain ⟨rfl, rfl, rfl⟩ : j = i ∧ other = queued ∧ told = response := by simpa using hnew
      exact mem_handled_of_lookup hplaced hordered
        (hplaced.mem_counted_of_pending hhandler rfl) hresponse
  | refused | expired =>
    intro j other told htold
    rcases List.mem_append.mp htold with hold | hnew
    · exact hanswered j other told hold
    · exact absurd hnew (by simp)
  | executed | answered =>
    intro j other told htold
    obtain ⟨outcome, hhandled, hrespond⟩ := hanswered j other told htold
    exact ⟨outcome, List.mem_append_left _ hhandled, hrespond⟩
  | idle | accepted | shut | read | sent | disconnected | taken | takenFull | flushes | exits
    | opened | notOpened | subtracted => exact hanswered

/-! ### Which requests are executed -/

/-- Outside of a refusal, every request of a batch that failed to open was answered. -/
theorem Opened.answered (hopened : Opened s) (hwriter : ∀ len last, s.writer ≠ .refusing len last)
    {batch : List (QueuedRequest ρ)} (hbatch : batch ∈ s.failed) {queued : QueuedRequest ρ}
    (hqueued : queued ∈ batch) : (queued, .notOpened) ∈ s.handled := by
  rcases hopened.failed batch hbatch queued hqueued with hhandled | ⟨⟨len, last, hrefusing⟩, -⟩
  · exact hhandled
  · exact absurd hrefusing (hwriter len last)

theorem startFlush_writer (last : Bool) :
    ∀ len last', (s.startFlush last).writer ≠ .refusing len last' := by
  intro len last'
  unfold Server.startFlush
  cases s.conn with
  | true => simp
  | false => simp

/-- The writer moves on outside of a refusal. -/
theorem Opened.moved (hopened : Opened s) (hwriter : ∀ len last, s.writer ≠ .refusing len last)
    (hwriter' : ∀ len last, s'.writer ≠ .refusing len last) (hfailed : s'.failed = s.failed)
    (hhandled : s'.handled = s.handled) : Opened s' := by
  refine ⟨?_, ?_, fun len last hrefusing => absurd hrefusing (hwriter' len last)⟩
  · intro batch hbatch queued hqueued
    rw [hfailed] at hbatch
    rw [hhandled]
    exact Or.inl (hopened.answered hwriter hbatch hqueued)
  · rw [hfailed, hhandled]
    exact hopened.notOpened

theorem Opened.step (hopened : Opened s) (h : Effect exec s s') : Opened s' := by
  cases h with
  | taken hwriter => exact hopened.moved (by simp [hwriter]) (by simp [hwriter]) rfl rfl
  | takenFull hwriter => exact hopened.moved (by simp [hwriter]) (startFlush_writer false) rfl rfl
  | @flushes last hwriter =>
    exact hopened.moved (by simp [hwriter]) (startFlush_writer last) rfl rfl
  | exits hwriter => exact hopened.moved (by simp [hwriter]) (by simp) rfl rfl
  | opened hwriter => exact hopened.moved (by simp [hwriter]) (by simp) rfl rfl
  | notOpened hwriter =>
    refine ⟨?_, ?_, ?_⟩
    · intro batch hbatch queued hqueued
      rcases List.mem_append.mp hbatch with hold | hnew
      · exact Or.inl (hopened.answered (by simp [hwriter]) hold hqueued)
      · obtain rfl := List.mem_singleton.mp hnew
        exact Or.inr ⟨⟨_, _, rfl⟩, hqueued⟩
    · intro queued hhandled
      obtain ⟨batch, hbatch, hqueued⟩ := hopened.notOpened queued hhandled
      exact ⟨batch, List.mem_append_left _ hbatch, hqueued⟩
    · intro len last _ queued hqueued
      exact ⟨s.batch, by simp, hqueued⟩
  | executed now hwriter hbatch =>
    refine ⟨?_, ?_, by simp [hwriter]⟩
    · intro batch hbatch queued hqueued
      have hhandled := hopened.answered (by simp [hwriter]) hbatch hqueued
      exact Or.inl (List.mem_append_left _ hhandled)
    · intro queued hhandled
      rcases List.mem_append.mp hhandled with hold | hnew
      · exact hopened.notOpened queued hold
      · exact absurd hnew (by simp)
  | @answered len last queued batch hwriter hbatch =>
    refine ⟨?_, ?_, ?_⟩
    · intro failed hfailed other hother
      rcases hopened.failed failed hfailed other hother with hhandled | ⟨hrefusing, hwaits⟩
      · exact Or.inl (List.mem_append_left _ hhandled)
      · rw [hbatch] at hwaits
        rcases List.mem_cons.mp hwaits with rfl | hrest
        · exact Or.inl (by simp)
        · exact Or.inr ⟨hrefusing, hrest⟩
    · intro other hhandled
      rcases List.mem_append.mp hhandled with hold | hnew
      · exact hopened.notOpened other hold
      · obtain rfl : other = queued := by simpa using hnew
        exact hopened.refusing len last hwriter other (by simp [hbatch])
    · intro len' last' hrefusing other hother
      exact hopened.refusing len' last' hrefusing other (by simp [hbatch, hother])
  | subtracted hwriter hbatch =>
    refine ⟨?_, hopened.notOpened, by simp [hbatch]⟩
    intro batch' hbatch' queued hqueued
    rcases hopened.failed batch' hbatch' queued hqueued with hhandled | ⟨-, hwaits⟩
    · exact Or.inl hhandled
    · simp [hbatch] at hwaits
  | idle | accepted | shut | read | refused | sent | received | expired | disconnected =>
    exact ⟨hopened.failed, hopened.notOpened, hopened.refusing⟩

theorem Replays.step {db : σ} (hreplays : Replays exec db s.handled s.db)
    (h : Effect exec s s') : Replays exec db s'.handled s'.db := by
  cases h with
  | executed now hwriter hbatch => exact .executed now _ hreplays
  | answered hwriter hbatch => exact .notOpened _ hreplays
  | idle | accepted | shut | read | refused | sent | received | expired | disconnected | taken
    | takenFull | flushes | exits | opened | notOpened | subtracted => exact hreplays

/-! ### Runs -/

/-- All of it: where the requests are, what was done with them and what was said of them. -/
structure Accounted (exec : Executor σ τ ρ κ) (db : σ) (s : Server σ ρ κ) : Prop where
  placed : Placed s
  ordered : Ordered exec s
  answered : Answered exec s
  opened : Opened s
  replays : Replays exec db s.handled s.db

theorem Accounted.initial (db : σ) : Accounted exec db (new db) where
  placed := .initial db
  ordered := .initial db
  answered i queued response h := by simp [new] at h
  opened := ⟨by simp [new], by simp [new], by simp [new]⟩
  replays := .nil

theorem Accounted.step {db : σ} (h : Accounted exec db s) (heffect : Effect exec s s') :
    Accounted exec db s' := by
  have hexited : s.writer = .exited → s.sendersDropped = true := by
    intro hwriter
    exact (h.ordered.closing (by simp [hwriter])).2
  exact {
    placed := h.placed.step hexited heffect
    ordered := h.ordered.step heffect
    answered := h.answered.step h.placed h.ordered heffect
    opened := h.opened.step heffect
    replays := h.replays.step heffect }

theorem run_accounted (exec : Executor σ τ ρ κ) (db : σ) (actions : List (Action τ ρ)) :
    Accounted exec db (run (step exec) (new db) actions) :=
  run_induction (fun s action h => h.step (step_effect s action)) (.initial db) actions

/-! ### The writer alone handles everything -/

/-- What the writer has still to do. -/
def remaining (s : Server σ ρ κ) : ℕ :=
  5 * s.channel.length + match s.writer with
    | .collecting => if s.batch.isEmpty then 0 else s.batch.length + 3
    | .opening _ _ => s.batch.length + 2
    | .executing _ _ | .refusing _ _ => s.batch.length + 1
    | .exited => 0

theorem remaining_startFlush (s : Server σ ρ κ) (last : Bool) :
    (s.startFlush last).remaining ≤ 5 * s.channel.length + s.batch.length + 2 := by
  unfold Server.startFlush remaining
  cases s.conn with
  | true => simp; omega
  | false => simp; omega

/-- As long as a request is not handled, the writer can do something about it. -/
theorem Ordered.exists_progress (hordered : Ordered exec s) (now : τ) (ok : Bool)
    (h : s.batch ≠ [] ∨ s.channel ≠ []) :
    ∃ action : Action τ ρ, action.ofWriter ok = true ∧
      (s.step exec action).remaining < s.remaining ∧
      (s.step exec action).enqueued = s.enqueued := by
  cases hwriter : s.writer with
  | collecting =>
    cases hchannel : s.channel with
    | nil =>
      obtain ⟨queued, batch, hbatch⟩ : ∃ queued batch, s.batch = queued :: batch :=
        List.exists_cons_of_ne_nil (h.resolve_right (by simp [hchannel]))
      refine ⟨.elapse, rfl, ?_, ?_⟩
      · have hflush := remaining_startFlush s false
        simp only [Server.step, writerStep, hwriter, hbatch]
        simp [remaining, hwriter, hchannel, hbatch] at hflush ⊢
        omega
      · simp [Server.step, writerStep, hwriter, hbatch, Server.startFlush]
    | cons queued channel =>
      refine ⟨.recv, rfl, ?_, ?_⟩
      · have hflush := remaining_startFlush
          { s with channel := channel, batch := s.batch ++ [queued] } false
        have hbefore : 5 * channel.length + s.batch.length + 5 ≤ s.remaining := by
          simp only [remaining, hwriter, hchannel, List.length_cons]
          cases s.batch with
          | nil => simp; omega
          | cons first batch => simp; omega
        simp only [hwriter, List.length_append, List.length_singleton] at hflush
        simp only [Server.step, writerStep, hwriter, hchannel]
        split
        · omega
        · simp [remaining] at hbefore ⊢
          omega
      · simp only [Server.step, writerStep, hwriter, hchannel]
        split <;> rfl
  | opening len last =>
    refine ⟨.openConnection ok, by simp [Action.ofWriter], ?_, ?_⟩
    · cases ok with
      | true => simp [Server.step, writerStep, remaining, hwriter]
      | false => simp [Server.step, writerStep, remaining, hwriter]
    · cases ok with
      | true => simp [Server.step, writerStep, hwriter]
      | false => simp [Server.step, writerStep, hwriter]
  | executing len last
  | refusing len last =>
    cases hbatch : s.batch with
    | nil =>
      have hchannel := h.resolve_left (by simp [hbatch])
      have hlast : last = false := by
        by_contra hlast
        exact hchannel (hordered.closing (by simpa [hwriter] using hlast)).1
      subst hlast
      refine ⟨.subtract, rfl, ?_, ?_⟩
      · simp [Server.step, writerStep, remaining, hwriter, hbatch]
      · simp [Server.step, writerStep, hwriter, hbatch]
    | cons queued batch =>
      refine ⟨.drain now, rfl, ?_, ?_⟩
      · simp [Server.step, writerStep, remaining, hwriter, hbatch]
      · simp [Server.step, writerStep, hwriter, hbatch]
  | exited =>
    have hbatch := hordered.exited hwriter
    have hchannel := (hordered.closing (by simp [hwriter])).1
    simp [hbatch, hchannel] at h

/-- The writer can handle everything that is enqueued, on its own and however often it fails to
open the database. -/
theorem Ordered.exists_handled (hordered : Ordered exec s) (now : τ) (ok : Bool) :
    ∃ more : List (Action τ ρ), (∀ action ∈ more, action.ofWriter ok = true) ∧
      (run (Server.step exec) s more).handled.map Prod.fst = s.enqueued := by
  induction hn : s.remaining using Nat.strong_induction_on generalizing s with
  | _ n ih =>
    by_cases hidle : s.batch = [] ∧ s.channel = []
    · refine ⟨[], by simp, ?_⟩
      have hin := hordered.inOrder
      rwa [hidle.1, hidle.2, List.append_nil, List.append_nil] at hin
    · obtain ⟨action, hwriter, hless, henqueued⟩ :=
        hordered.exists_progress now ok (by tauto)
      obtain ⟨more, hmore, hhandled⟩ :=
        ih _ (hn ▸ hless) (hordered.step (step_effect s action)) rfl
      refine ⟨action :: more, ?_, ?_⟩
      · intro other hother
        rcases List.mem_cons.mp hother with rfl | hrest
        · exact hwriter
        · exact hmore other hrest
      · rw [run_cons, hhandled, henqueued]

/-! ### Main result -/

/-- What a state says of the requests so far: they are handled once and in order, those of a
batch that failed to open without being executed and the others by being executed; each client
gets the response of its own request; and the counter is exact. -/
structure EachHandled (exec : Executor σ τ ρ κ) (db : σ) (s : Server σ ρ κ) : Prop where
  inOrder : s.handled.map Prod.fst ++ s.batch ++ s.channel = s.enqueued
  once : s.enqueued.Nodup
  replays : Replays exec db s.handled s.db
  notOpened : ∀ queued outcome, (queued, outcome) ∈ s.handled →
    (outcome = .notOpened ↔ ∃ batch ∈ s.failed, queued ∈ batch)
  ownResponse : ∀ i queued response, (i, queued, Reply.response response) ∈ s.told →
    queued.client = i ∧ ∃ outcome, (queued, outcome) ∈ s.handled ∧ exec.respond outcome = response
  /-- A client that waits finds the response as soon as its request is handled. -/
  ready : ∀ i queued outcome, s.handlers[i]? = some (.waiting queued) →
    (queued, outcome) ∈ s.handled →
      queued.client = i ∧ s.responses.lookup queued.responseTx = some (exec.respond outcome)
  toldOnce : (s.told.map fun entry => entry.2.1).Nodup
  /-- The requests that are counted are those counted in, less those of finished flushes. -/
  depth : s.queueDepth = s.counted.length - s.finished.length
  noUnderflow : 0 ≤ s.queueDepth
  finished : s.finished <+: s.handled.map Prod.fst
  flushed : s.writer = .collecting → s.finished = s.handled.map Prod.fst
  drained : s.writer = .exited →
    s.handled.map Prod.fst = s.enqueued ∧ s.finished = s.enqueued

theorem Ordered.handled_nodup (hordered : Ordered exec s) (hnodup : s.enqueued.Nodup) :
    (s.handled.map Prod.fst).Nodup := by
  rw [← hordered.inOrder] at hnodup
  exact hnodup.of_append_left.of_append_left

/-- A request has one outcome. -/
theorem Ordered.outcome_unique (hordered : Ordered exec s) (hnodup : s.enqueued.Nodup)
    {queued : QueuedRequest ρ} {a b : Outcome κ} (ha : (queued, a) ∈ s.handled)
    (hb : (queued, b) ∈ s.handled) : a = b := by
  have heq := List.inj_on_of_nodup_map (hordered.handled_nodup hnodup) ha hb rfl
  exact (Prod.mk.inj heq).2

/-- A request is not handled while it waits in the batch. -/
theorem Ordered.not_mem_batch (hordered : Ordered exec s) (hnodup : s.enqueued.Nodup)
    {queued : QueuedRequest ρ} {outcome : Outcome κ} (h : (queued, outcome) ∈ s.handled) :
    queued ∉ s.batch := by
  rw [← hordered.inOrder] at hnodup
  have hdisjoint := List.disjoint_of_nodup_append hnodup.of_append_left
  exact hdisjoint (List.mem_map_of_mem h)

/-- Between two flushes everything that was handled is taken off the counter. -/
theorem Ordered.finished_eq (hordered : Ordered exec s)
    (hidle : s.writer = .collecting ∨ s.writer = .exited) :
    s.finished = s.handled.map Prod.fst := by
  apply hordered.finished.eq_of_length
  have hunfinished := hordered.unfinished
  rcases hidle with hwriter | hwriter
  all_goals
    simp only [Server.unfinished, hwriter] at hunfinished
    rw [List.length_map]
    omega

theorem Accounted.eachHandled {db : σ} (h : Accounted exec db s) : EachHandled exec db s := by
  obtain ⟨placed, ordered, answered, opened, replays⟩ := h
  have hnodup := placed.enqueued_nodup
  refine ⟨ordered.inOrder, hnodup, replays, ?_, ?_, ?_, ?_, ordered.depth, ?_, ordered.finished,
    fun hwriter => ordered.finished_eq (Or.inl hwriter), ?_⟩
  · intro queued outcome hhandled
    constructor
    · rintro rfl
      exact opened.notOpened queued hhandled
    · rintro ⟨batch, hbatch, hqueued⟩
      rcases opened.failed batch hbatch queued hqueued with hfailed | ⟨-, hwaits⟩
      · exact ordered.outcome_unique hnodup hhandled hfailed
      · exact absurd hwaits (ordered.not_mem_batch hnodup hhandled)
  · intro i queued response htold
    exact ⟨placed.toldClient _ htold, answered i queued response htold⟩
  · intro i queued outcome hhandler hhandled
    refine ⟨placed.client i _ queued hhandler rfl, ?_⟩
    have hfound : (s.responses.lookup queued.responseTx).isSome := by
      rw [List.lookup_isSome_iff, ordered.responses]
      exact ⟨_, List.mem_map_of_mem hhandled, by simp⟩
    obtain ⟨response, hresponse⟩ := Option.isSome_iff_exists.mp hfound
    have hcounted := placed.mem_counted_of_pending hhandler rfl
    obtain ⟨other, hother, hrespond⟩ := mem_handled_of_lookup placed ordered hcounted hresponse
    obtain rfl := ordered.outcome_unique hnodup hhandled hother
    rw [hresponse, hrespond]
  · exact (placed.answered.nodup_iff.mp placed.counted_nodup).of_append_left
  · have hsub : s.finished ⊆ s.counted := by
      intro queued hqueued
      apply placed.mem_counted_of_enqueued
      rw [← ordered.inOrder]
      exact List.mem_append_left _ (List.mem_append_left _ (ordered.finished.subset hqueued))
    have hfinished : s.finished.Nodup :=
      (ordered.handled_nodup hnodup).sublist ordered.finished.sublist
    have hlength := (List.subperm_of_subset hfinished hsub).length_le
    rw [ordered.depth]
    omega
  · intro hwriter
    have hall : s.handled.map Prod.fst = s.enqueued := by
      have hin := ordered.inOrder
      have hchannel := (ordered.closing (by simp [hwriter])).1
      rwa [ordered.exited hwriter, hchannel, List.append_nil, List.append_nil] at hin
    exact ⟨hall, (ordered.finished_eq (Or.inr hwriter)).trans hall⟩

/-- In every run each enqueued request is handled once, and from every state of it the writer
alone can handle what is left. -/
theorem run_eachHandled (exec : Executor σ τ ρ κ) (db : σ) (actions : List (Action τ ρ)) :
    EachHandled exec db (run (step exec) (new db) actions) ∧
    ∀ (_ : τ) (ok : Bool), ∃ more : List (Action τ ρ),
      (∀ action ∈ more, action.ofWriter ok = true) ∧
        (run (step exec) (new db) (actions ++ more)).handled.map Prod.fst =
          (run (step exec) (new db) actions).enqueued := by
  have haccounted := run_accounted exec db actions
  refine ⟨haccounted.eachHandled, fun now ok => ?_⟩
  obtain ⟨more, hmore, hhandled⟩ := haccounted.ordered.exists_handled now ok
  exact ⟨more, hmore, by rw [run_append, hhandled]⟩

end Server

end Daemon

end HeliosLite

namespace HeliosLite.Greeting

open Theory Daemon

attribute [local instance] reference

/-- The daemon on a database that fails to open with some text. -/
abbrev executor : Executor Store DateTime Request Response :=
  DbServer.executor "db" "unable to open" "not executed"

/-- One client deletes a conversation, and the writer does not get the database open. -/
def refused : Server Store Request Response :=
  run (Server.step executor) (Server.new .empty)
    [.accept, .read 0 (.mutationV2 1 (.deleteConversation ⟨1⟩)), .send 0, .recv, .shutdown,
      .elapse, .openConnection false, .drain .epoch, .subtract, .receive 0, .disconnect 0,
      .recvNone]

/-- One client deletes a conversation, and waits too long for the response. -/
def late : Server Store Request Response :=
  run (Server.step executor) (Server.new .empty)
    [.accept, .read 0 (.mutationV2 1 (.deleteConversation ⟨1⟩)), .send 0, .recv, .shutdown,
      .expire 0, .elapse, .openConnection true, .drain .epoch, .subtract, .recvNone]

/-- The writer exits, and a request that was enqueued was never executed; or it was, and its
client never got the response. -/
theorem exited_not_executed :
    (refused.writer = .exited ∧ ∃ queued ∈ refused.enqueued,
      ∀ response, (queued, .executed response) ∉ refused.handled) ∧
    (late.writer = .exited ∧ ∃ queued ∈ late.enqueued,
      ∀ i response, (i, queued, .response response) ∉ late.told) := by
  constructor
  · refine ⟨rfl, ⟨.mutationV2 1 (.deleteConversation ⟨1⟩), 0, 0⟩, List.mem_singleton.mpr rfl, ?_⟩
    intro response hhandled
    have hentry := List.mem_singleton.mp hhandled
    cases hentry
  · refine ⟨rfl, ⟨.mutationV2 1 (.deleteConversation ⟨1⟩), 0, 0⟩, List.mem_singleton.mpr rfl, ?_⟩
    intro i response htold
    have hentry := List.mem_singleton.mp htold
    cases hentry

end HeliosLite.Greeting
