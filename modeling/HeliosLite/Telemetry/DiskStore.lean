import Mathlib.Data.List.Sort
import HeliosLite.Storage.Reference
import HeliosLite.Telemetry.Journal
import HeliosLite.Telemetry.Store
import HeliosLite.Theory.PathBuf
import HeliosLite.Theory.Run

/-!
# Crashes of the disk store

Only submissions are appended to the journal. What is drained and what comes back changes the
queue in memory, from which the journal is written anew now and then. A crash loses the memory,
and may leave a line or a new journal unfinished: it is an operation that fails, followed by a
crash.

## Main definitions

* `DiskLog` — the journal, the open store, and what a history of operations says of the events
* `DiskLog.step` — one operation
* `DiskLog.Right` — what is promised of a journal that is opened again
* `DiskLog.Lasting` — an operation that keeps the promise

## Main results

* `DiskLog.run_lasts` — a history of such operations keeps the promise at every point
-/

namespace HeliosLite

open Serde Theory

/-- How an append to the journal ends: with all characters written, or with some of them and
perhaps a part of the next one. -/
inductive Append where
  | written
  | failed (n : ℕ) (within : Bool)
  deriving DecidableEq, Repr

/-- How a rewrite of the journal ends: the new file takes the place of the journal, or it could not
be opened, or it was written in part or never renamed. -/
inductive Rewrite where
  | renamed
  | notOpened
  | failed (n : ℕ) (within : Bool)
  deriving DecidableEq, Repr

/-- What a file has of a text that was not written to its end. -/
def torn (text : List Char) (n : ℕ) (within : Bool) : Journal :=
  (text.take n).map some ++
    if within ∧ text[n]?.any fun c => 1 < c.utf8Size then [none] else []

/-- A batch that was drained, and whether the journal has been rewritten since. -/
structure Taken where
  events : List Entry
  rewritten : Bool

/-- A journal that was opened, with the events that were found and those that were kept. -/
structure Reopened where
  found : List TraceraEvent
  capacity : ℕ
  queue : List TraceraEvent

/-- The journal and the store that has it open. The rest is what a history says: the number of the
next event, the events whose submission succeeded or that the last opening should keep, those of
them that were drained and did not come back, the batches that may still come back, and the
journals that were opened. -/
structure DiskLog where
  journal : Journal
  store : Option (StoreState Entry)
  next : ℕ
  accepted : List Entry
  away : List Entry
  taken : List Taken
  opens : List Reopened

/-- The operations; a crash is one of them. A store whose clones are dropped at the same time may
go without a rewrite. -/
inductive DiskOp where
  | openStore (capacity : ℕ)
  | submit (event : TraceraEvent) (blockOnFull : Bool) (append : Append)
  | drainBatch (max : ℕ)
  | requeueFront (k : ℕ)
  | compact (rewrite : Rewrite)
  | close (rewrite : Rewrite)
  | drop (rewrite : Option Rewrite)
  | crash

namespace DiskLog

variable [JsonText] [UtcText] (path : PathBuf) (s : DiskLog)

/-- No journal yet. -/
def empty : DiskLog :=
  { journal := []
    store := none
    next := 0
    accepted := []
    away := []
    taken := []
    opens := [] }

/-- Events with their numbers. -/
def numbered : ℕ → List TraceraEvent → List Entry
  | _, [] => []
  | next, ev :: events => { ticket := next, event := ev } :: numbered (next + 1) events

/-- A journal is opened by one store at a time. -/
def openStore (capacity : ℕ) : DiskLog :=
  match s.store with
  | some _ => s
  | none =>
    match replay s.journal with
    | .error _ => s
    | .ok found =>
      let entries := numbered s.next found
      { s with
        store := some (.ofFound capacity entries)
        next := s.next + found.length
        accepted := entries.drop (found.length - capacity)
        away := []
        opens := s.opens ++
          [{ found := found
             capacity := capacity
             queue := found.take capacity }] }

/-- The event is appended to the journal before it is buffered. -/
def submit (event : TraceraEvent) (blockOnFull : Bool) (append : Append) : DiskLog :=
  match s.store with
  | none => s
  | some store =>
    if store.capacity ≤ store.queue.length then
      if blockOnFull then s else { s with store := some store.reject }
    else
      let entry : Entry := { ticket := s.next, event := event }
      let line := eventLine event ++ ['\n']
      match append with
      | .written =>
        { s with
          journal := s.journal ++ line.map some
          store := some (store.push entry)
          next := s.next + 1
          accepted := s.accepted ++ [entry] }
      | .failed n within =>
        { s with
          journal := s.journal ++ torn line n within
          store := some store.reject
          next := s.next + 1 }

/-- The journal stays as it is. -/
def drainBatch (max : ℕ) : DiskLog :=
  match s.store with
  | none => s
  | some store =>
    let (batch, store) := store.drainBatch max
    { s with
      store := some store
      away := s.away ++ batch
      taken := s.taken ++ [{ events := batch, rewritten := false }] }

/-- A batch comes back to the queue in memory. -/
def requeueFront (k : ℕ) : DiskLog :=
  match s.store, s.taken[k]? with
  | some store, some t =>
    { s with
      store := some (store.requeueFront t.events)
      away := s.away.filter (· ∉ t.events)
      taken := s.taken.eraseIdx k }
  | _, _ => s

/-- The journal is replaced. -/
def replace (journal : Journal) : DiskLog :=
  { s with
    journal := journal
    taken := s.taken.map fun t => { t with rewritten := true } }

/-- The events of the queue are written to a file next to the journal, which is renamed. It is the
journal itself if this has the extension of the other one. -/
def rewrite (outcome : Rewrite) : DiskLog :=
  match s.store with
  | none => s
  | some store =>
    let text := content (store.queue.map Entry.event)
    match outcome with
    | .renamed => s.replace (text.map some)
    | .notOpened => s
    | .failed n within =>
      if path.withExtension "tmp" = path then s.replace (torn text n within) else s

def compact (outcome : Rewrite) : DiskLog := s.rewrite path outcome

def close (outcome : Rewrite) : DiskLog := s.rewrite path outcome

/-- The memory is lost, and batches cannot come back. -/
def crash : DiskLog :=
  { s with
    store := none
    taken := [] }

def drop (outcome : Option Rewrite) : DiskLog :=
  match outcome with
  | some outcome => (s.rewrite path outcome).crash
  | none => s.crash

def step : DiskOp → DiskLog
  | .openStore capacity => s.openStore capacity
  | .submit event blockOnFull append => s.submit event blockOnFull append
  | .drainBatch max => s.drainBatch max
  | .requeueFront k => s.requeueFront k
  | .compact outcome => s.compact path outcome
  | .close outcome => s.close path outcome
  | .drop outcome => s.drop path outcome
  | .crash => s.crash

/-! ### The promise -/

/-- The events that were submitted with success and not drained for good, in this order. -/
def owed : List Entry := s.accepted.filter (· ∉ s.away)

/-- The journal can be opened at this point, and has the owed events in their order. Wherever a
journal had too many events, the oldest were dropped. -/
structure Right : Prop where
  replays : ∃ found, replay s.journal = .ok found ∧ (s.owed.map Entry.event).Sublist found
  keepsNewest : ∀ o ∈ s.opens, o.queue = o.found.drop (o.found.length - o.capacity)

/-- A line is appended after a whole line, and can be read back. -/
def Appendable (event : TraceraEvent) : Prop := AtLineEnd s.journal ∧ event.Readable

/-- What is promised of a rewrite that fails: the journal is not the file that is written. -/
def Separate : Rewrite → Prop
  | .failed _ _ => path.withExtension "tmp" ≠ path
  | .renamed | .notOpened => True

/-- An append leaves nothing or a line, a batch that comes back fits, is older than what is queued
and is still in the journal, an unfinished rewrite is not that of the journal itself, and a journal
that is opened has no more events than fit. -/
def Lasting : DiskOp → Prop
  | .openStore capacity =>
    match s.store, replay s.journal with
    | none, .ok found => found.length ≤ capacity
    | _, _ => True
  | .submit event _ append =>
    match s.store with
    | none => True
    | some store =>
      store.capacity ≤ store.queue.length ∨
        match append with
        | .written => s.Appendable event
        | .failed n _ => n = 0 ∨ (eventLine event).length ≤ n ∧ s.Appendable event
  | .requeueFront k =>
    match s.store, s.taken[k]? with
    | some store, some t =>
      t.rewritten = false ∧ t.events.length + store.queue.length ≤ store.capacity ∧
        ∀ e ∈ t.events, ∀ queued ∈ store.queue, e.ticket < queued.ticket
    | _, _ => True
  | .compact outcome | .close outcome => Separate path outcome
  | .drop outcome => ∀ w ∈ outcome, Separate path w
  | .drainBatch _ | .crash => True

instance (event : TraceraEvent) : Decidable (s.Appendable event) :=
  inferInstanceAs (Decidable (_ ∧ _))

instance (outcome : Rewrite) : Decidable (Separate path outcome) := by
  cases outcome <;> unfold Separate <;> infer_instance

instance (op : DiskOp) : Decidable (s.Lasting path op) := by
  cases op <;> unfold Lasting <;> dsimp only <;> repeat' (first | infer_instance | split)

end DiskLog

/-! ### The order of submission -/

/-- One event was accepted before another. -/
def Entry.Before (e e' : Entry) : Prop := e.ticket < e'.ticket

instance : Std.Antisymm Entry.Before :=
  ⟨fun _ _ h h' => absurd h (Nat.lt_asymm h')⟩

instance : Std.Irrefl Entry.Before := ⟨fun _ => Nat.lt_irrefl _⟩

theorem filter_notMem_take {α : Type} [DecidableEq α] {l : List α} (h : l.Nodup) (n : ℕ) :
    l.filter (· ∉ l.take n) = l.drop n := by
  have hdisjoint : ∀ a ∈ l.drop n, a ∉ l.take n := by
    rw [← List.take_append_drop n l, List.nodup_append] at h
    intro a hdrop htake
    exact h.2.2 a htake a hdrop rfl
  have hsplit := congrArg (List.filter (· ∉ l.take n)) (List.take_append_drop n l)
  rw [List.filter_append, List.filter_eq_nil_iff.mpr (by simp), List.nil_append] at hsplit
  rw [← hsplit, List.filter_eq_self]
  simpa using hdisjoint

namespace DiskLog

section Numbers

variable {next : ℕ} {events : List TraceraEvent}

theorem map_event_numbered : (numbered next events).map Entry.event = events := by
  induction events generalizing next with
  | nil => rfl
  | cons ev events ih => rw [numbered, List.map_cons, ih]

theorem length_numbered : (numbered next events).length = events.length := by
  rw [← List.length_map Entry.event, map_event_numbered]

theorem ticket_of_mem_numbered {e : Entry} (h : e ∈ numbered next events) :
    next ≤ e.ticket ∧ e.ticket < next + events.length := by
  induction events generalizing next with
  | nil => cases h
  | cons ev events ih =>
    rw [List.length_cons]
    rcases List.mem_cons.mp h with rfl | htail
    · dsimp only
      omega
    · have hrest := ih htail
      omega

theorem pairwise_numbered : (numbered next events).Pairwise Entry.Before := by
  induction events generalizing next with
  | nil => exact List.Pairwise.nil
  | cons ev events ih =>
    refine List.Pairwise.cons ?_ ih
    intro e he
    exact (ticket_of_mem_numbered he).1

end Numbers

/-- A new event comes after those that are known. -/
theorem append_next {l : List Entry} {next : ℕ} (hsorted : l.Pairwise Entry.Before)
    (hbelow : ∀ e ∈ l, e.ticket < next) (event : TraceraEvent) :
    (l ++ [Entry.mk next event]).Pairwise Entry.Before ∧
      ∀ e ∈ l ++ [Entry.mk next event], e.ticket < next + 1 := by
  constructor
  · rw [List.pairwise_append]
    refine ⟨hsorted, List.pairwise_singleton _ _, ?_⟩
    intro e he new hnew
    obtain rfl := List.mem_singleton.mp hnew
    exact hbelow e he
  · intro e he
    rcases List.mem_append.mp he with hold | hnew
    · exact (hbelow e hold).trans (Nat.lt_succ_self next)
    · obtain rfl := List.mem_singleton.mp hnew
      exact Nat.lt_succ_self next

/-- Where the next character is an ASCII character, no part of it is written. -/
theorem torn_of_ascii {text : List Char} {n : ℕ} (h : ∀ c, text[n]? = some c → c.utf8Size = 1)
    (within : Bool) : torn text n within = (text.take n).map some := by
  have hnone : (text[n]?.any fun c => decide (1 < c.utf8Size)) = false := by
    cases hc : text[n]? with
    | none => rfl
    | some c => rw [Option.any_some, h c hc, decide_eq_false (Nat.lt_irrefl 1)]
  rw [torn, hnone, if_neg (by simp), List.append_nil]

variable [JsonLines] [UtcText] {path : PathBuf} {s : DiskLog} {written : List Entry}

/-! ### What the journal has -/

/-- The journal has some events in the order of their numbers, and the owed events are among them.
The store has the owed events in its queue, and a batch that was taken since the last rewrite is
in the journal. -/
structure Kept (s : DiskLog) (written : List Entry) : Prop where
  holds : Holds s.journal (written.map Entry.event)
  sorted : written.Pairwise Entry.Before
  below : ∀ e ∈ written, e.ticket < s.next
  acceptedSorted : s.accepted.Pairwise Entry.Before
  acceptedBelow : ∀ e ∈ s.accepted, e.ticket < s.next
  awayBelow : ∀ e ∈ s.away, e.ticket < s.next
  owed : s.owed.Sublist written
  live : ∀ store, s.store = some store → store.queue = s.owed
  taken : ∀ t ∈ s.taken, t.events.Sublist s.accepted ∧
    (t.rewritten = false → t.events.Sublist written)
  closed : s.store = none → s.taken = []
  opens : ∀ o ∈ s.opens, o.queue = o.found.drop (o.found.length - o.capacity)

theorem kept_empty : empty.Kept [] := by
  constructor <;> simp [empty, DiskLog.owed, Holds.empty]

namespace Kept

theorem right (h : s.Kept written) : s.Right :=
  ⟨⟨_, h.holds.replay, h.owed.map _⟩, h.opens⟩

theorem openStore (h : s.Kept written) {capacity : ℕ}
    (hstep : s.Lasting path (.openStore capacity)) :
    ∃ written', (s.openStore capacity).Kept written' := by
  unfold DiskLog.openStore
  unfold Lasting at hstep
  cases hstore : s.store with
  | some store => exact ⟨written, h⟩
  | none =>
    rw [h.holds.replay]
    rw [hstore, h.holds.replay] at hstep
    dsimp only at hstep ⊢
    have hfit : (written.map Entry.event).length - capacity = 0 := Nat.sub_eq_zero_of_le hstep
    -- the events get new numbers, and all of them are owed
    refine ⟨numbered s.next (written.map Entry.event), ?_, pairwise_numbered,
      fun e he => (ticket_of_mem_numbered he).2, ?_, ?_, by simp, ?_, ?_, ?_, by simp, ?_⟩
    · rw [map_event_numbered]
      exact h.holds
    · rw [hfit, List.drop_zero]
      exact pairwise_numbered
    · rw [hfit, List.drop_zero]
      exact fun e he => (ticket_of_mem_numbered he).2
    · rw [DiskLog.owed, hfit, List.drop_zero]
      exact List.filter_sublist
    · intro store hnew
      obtain rfl := Option.some.inj hnew
      rw [DiskLog.owed, hfit, List.drop_zero]
      show (numbered s.next _).take capacity = _
      rw [List.take_of_length_le (by rwa [length_numbered])]
      exact (List.filter_eq_self.mpr (by simp)).symm
    · rw [h.closed hstore]
      simp
    · intro o ho
      rcases List.mem_append.mp ho with hold | hnew
      · exact h.opens o hold
      · obtain rfl := List.mem_singleton.mp hnew
        dsimp only
        rw [hfit, List.drop_zero, List.take_of_length_le hstep]

theorem submit_written (h : s.Kept written) {store : StoreState Entry}
    (hstore : s.store = some store) {event : TraceraEvent} (hline : s.Appendable event) :
    Kept { s with
      journal := s.journal ++ (eventLine event ++ ['\n']).map some
      store := some (store.push ⟨s.next, event⟩)
      next := s.next + 1
      accepted := s.accepted ++ [⟨s.next, event⟩] } (written ++ [⟨s.next, event⟩]) := by
  obtain ⟨hsorted, hbelow⟩ := append_next h.sorted h.below event
  obtain ⟨hacceptedSorted, hacceptedBelow⟩ := append_next h.acceptedSorted h.acceptedBelow event
  have howed : (s.accepted ++ [Entry.mk s.next event]).filter (· ∉ s.away) =
      s.owed ++ [Entry.mk s.next event] := by
    have hnew : Entry.mk s.next event ∉ s.away := fun hmem =>
      Nat.lt_irrefl _ (h.awayBelow _ hmem)
    rw [List.filter_append, List.filter_singleton, decide_eq_true hnew]
    rfl
  refine ⟨?_, hsorted, hbelow, hacceptedSorted, hacceptedBelow,
    fun e he => (h.awayBelow e he).trans (Nat.lt_succ_self _), ?_, ?_, ?_, nofun, h.opens⟩
  · have hmap : (written ++ [Entry.mk s.next event]).map Entry.event =
        written.map Entry.event ++ [event] := List.map_append
    rw [hmap]
    exact h.holds.append hline.1 hline.2
  · rw [DiskLog.owed, howed]
    exact h.owed.append_right _
  · intro store' hnew
    obtain rfl := Option.some.inj hnew
    rw [DiskLog.owed, howed, ← h.live store hstore]
    rfl
  · intro t ht
    obtain ⟨haccepted, hwritten⟩ := h.taken t ht
    exact ⟨haccepted.trans (List.sublist_append_left _ _),
      fun hfresh => (hwritten hfresh).trans (List.sublist_append_left _ _)⟩

/-- An event that is refused may leave something in the journal, but it is not owed. -/
theorem refused (h : s.Kept written) {store : StoreState Entry} (hstore : s.store = some store)
    {journal : Journal} {written' : List Entry}
    (hholds : Holds journal (written'.map Entry.event)) (hsorted : written'.Pairwise Entry.Before)
    (hbelow : ∀ e ∈ written', e.ticket < s.next + 1) (hmore : written.Sublist written') :
    Kept { s with
      journal := journal
      store := some store.reject
      next := s.next + 1 } written' := by
  have hnext : s.next < s.next + 1 := Nat.lt_succ_self _
  refine ⟨hholds, hsorted, hbelow, h.acceptedSorted, fun e he => (h.acceptedBelow e he).trans hnext,
    fun e he => (h.awayBelow e he).trans hnext, h.owed.trans hmore, ?_, ?_, nofun, h.opens⟩
  · intro store' hnew
    obtain rfl := Option.some.inj hnew
    exact h.live store hstore
  · intro t ht
    obtain ⟨haccepted, hwritten⟩ := h.taken t ht
    exact ⟨haccepted, fun hfresh => (hwritten hfresh).trans hmore⟩

theorem submit_failed (h : s.Kept written) {store : StoreState Entry}
    (hstore : s.store = some store) {event : TraceraEvent} {n : ℕ}
    (hline : n = 0 ∨ (eventLine event).length ≤ n ∧ s.Appendable event) (within : Bool) :
    ∃ written', Kept { s with
      journal := s.journal ++ torn (eventLine event ++ ['\n']) n within
      store := some store.reject
      next := s.next + 1 } written' := by
  rcases hline with rfl | ⟨hlength, hend, hread⟩
  · -- nothing is written
    refine ⟨written, h.refused hstore ?_ h.sorted (fun e he => (h.below e he).trans
      (Nat.lt_succ_self _)) (List.Sublist.refl _)⟩
    obtain ⟨inner, hinner⟩ := exists_eventLine event
    rw [torn_of_ascii, List.take_zero, List.map_nil, List.append_nil]
    · exact h.holds
    · intro c hc
      rw [hinner] at hc
      obtain rfl := Option.some.inj hc
      decide
  · obtain ⟨hsorted, hbelow⟩ := append_next h.sorted h.below event
    refine ⟨_, h.refused hstore ?_ hsorted hbelow (List.sublist_append_left _ _)⟩
    rw [List.map_append, torn_of_ascii]
    · -- the line is written, with or without its line break
      rcases Nat.eq_or_lt_of_le hlength with rfl | hmore
      · rw [List.take_left]
        exact h.holds.append_unfinished hend hread
      · rw [List.take_of_length_le (by rwa [List.length_append, List.length_singleton])]
        exact h.holds.append hend hread
    · intro c hc
      rw [List.getElem?_append_right hlength] at hc
      have hbreak : c = '\n' := List.mem_singleton.mp (List.mem_of_getElem? hc)
      subst hbreak
      decide

theorem submit (h : s.Kept written) {event : TraceraEvent} {blockOnFull : Bool} {append : Append}
    (hstep : s.Lasting path (.submit event blockOnFull append)) :
    ∃ written', (s.submit event blockOnFull append).Kept written' := by
  unfold DiskLog.submit
  simp only [Lasting] at hstep
  cases hstore : s.store with
  | none => exact ⟨written, h⟩
  | some store =>
    have hqueue := h.live store hstore
    rw [hstore] at hstep
    dsimp only at hstep ⊢
    split_ifs with hfull hblock
    · exact ⟨written, h⟩
    · refine ⟨written, h.holds, h.sorted, h.below, h.acceptedSorted, h.acceptedBelow, h.awayBelow,
        h.owed, ?_, h.taken, nofun, h.opens⟩
      intro store' hnew
      obtain rfl := Option.some.inj hnew
      exact hqueue
    · have hroom := hstep.resolve_left hfull
      cases append with
      | written => exact ⟨_, h.submit_written hstore hroom⟩
      | failed n within => exact h.submit_failed hstore hroom within

theorem drainBatch (h : s.Kept written) (max : ℕ) : (s.drainBatch max).Kept written := by
  unfold DiskLog.drainBatch
  cases hstore : s.store with
  | none => exact h
  | some store =>
    have hqueue := h.live store hstore
    have howed : ({ s with away := s.away ++ store.queue.take max } : DiskLog).owed =
        store.queue.drop max := by
      have hnodup : store.queue.Nodup := by
        rw [hqueue]
        exact (h.sorted.sublist h.owed).nodup
      rw [← filter_notMem_take hnodup max, hqueue]
      simp only [DiskLog.owed, List.filter_filter]
      apply List.filter_congr
      intro e _
      simp only [List.mem_append, not_or, Bool.decide_and]
      exact Bool.and_comm _ _
    have htake : (store.queue.take max).Sublist s.accepted := by
      apply (List.take_sublist max _).trans
      rw [hqueue]
      exact List.filter_sublist
    refine ⟨h.holds, h.sorted, h.below, h.acceptedSorted, h.acceptedBelow, ?_, ?_, ?_, ?_, nofun,
      h.opens⟩
    · intro e he
      rcases List.mem_append.mp he with hold | hnew
      · exact h.awayBelow e hold
      · exact h.acceptedBelow e (htake.subset hnew)
    · show ({ s with away := s.away ++ store.queue.take max } : DiskLog).owed.Sublist written
      rw [howed, hqueue]
      exact (List.drop_sublist max _).trans h.owed
    · intro store' hnew
      obtain rfl := Option.some.inj hnew
      exact howed.symm
    · intro t ht
      rcases List.mem_append.mp ht with hold | hnew
      · exact h.taken t hold
      · obtain rfl := List.mem_singleton.mp hnew
        refine ⟨htake, fun _ => (List.take_sublist max _).trans ?_⟩
        rw [hqueue]
        exact h.owed

theorem requeueFront (h : s.Kept written) {k : ℕ} (hstep : s.Lasting path (.requeueFront k)) :
    (s.requeueFront k).Kept written := by
  unfold DiskLog.requeueFront
  simp only [Lasting] at hstep
  cases hstore : s.store with
  | none => exact h
  | some store =>
    cases ht : s.taken[k]? with
    | none => exact h
    | some t =>
      rw [hstore, ht] at hstep
      obtain ⟨hfresh, hroom, hbefore⟩ := hstep
      obtain ⟨haccepted, hwritten⟩ := h.taken t (List.mem_of_getElem? ht)
      have hqueue := h.live store hstore
      have hsorted : (t.events ++ store.queue).Pairwise Entry.Before := by
        rw [List.pairwise_append]
        refine ⟨h.acceptedSorted.sublist haccepted, ?_, hbefore⟩
        rw [hqueue]
        exact h.sorted.sublist h.owed
      have hqueued : store.queue.Sublist written := hqueue ▸ h.owed
      have howed : ({ s with away := s.away.filter (· ∉ t.events) } : DiskLog).owed =
          t.events ++ store.queue := by
        apply (h.acceptedSorted.sublist List.filter_sublist).eq_of_mem_iff hsorted
        intro e
        rw [hqueue]
        simp only [DiskLog.owed, List.mem_append, List.mem_filter, decide_eq_true_iff]
        constructor
        · rintro ⟨hmem, hnot⟩
          by_cases hevent : e ∈ t.events
          · exact Or.inl hevent
          · exact Or.inr ⟨hmem, fun haway => hnot ⟨haway, hevent⟩⟩
        · rintro (hevent | ⟨hmem, hnot⟩)
          · exact ⟨haccepted.subset hevent, fun haway => haway.2 hevent⟩
          · exact ⟨hmem, fun haway => hnot haway.1⟩
      refine ⟨h.holds, h.sorted, h.below, h.acceptedSorted, h.acceptedBelow, ?_, ?_, ?_, ?_, nofun,
        h.opens⟩
      · intro e he
        exact h.awayBelow e (List.mem_of_mem_filter he)
      · show ({ s with away := s.away.filter (· ∉ t.events) } : DiskLog).owed.Sublist written
        rw [howed]
        apply List.sublist_of_subperm_of_pairwise ?_ hsorted h.sorted
        apply List.subperm_of_subset hsorted.nodup
        exact List.append_subset.mpr ⟨(hwritten hfresh).subset, hqueued.subset⟩
      · intro store' hnew
        obtain rfl := Option.some.inj hnew
        rw [StoreState.queue_requeueFront_of_room hroom]
        exact howed.symm
      · intro t' ht'
        exact h.taken t' (List.mem_of_mem_eraseIdx ht')

theorem rewrite (h : s.Kept written) {outcome : Rewrite} (hstep : Separate path outcome) :
    ∃ written', (s.rewrite path outcome).Kept written' := by
  unfold DiskLog.rewrite
  cases hstore : s.store with
  | none => exact ⟨written, h⟩
  | some store =>
    cases outcome with
    | notOpened => exact ⟨written, h⟩
    | failed n within =>
      dsimp only
      rw [if_neg hstep]
      exact ⟨written, h⟩
    | renamed =>
      -- the owed events are written anew, and batches that are out are in the journal no more
      have hqueue := h.live store hstore
      refine ⟨s.owed, ?_, h.sorted.sublist h.owed, fun e he => h.below e (h.owed.subset he),
        h.acceptedSorted, h.acceptedBelow, h.awayBelow, List.Sublist.refl _,
          h.live, ?_, ?_, h.opens⟩
      · rw [← hqueue]
        apply holds_content
        rw [hqueue]
        intro ev hev
        exact h.holds.readable ev ((h.owed.map _).subset hev)
      · intro t ht
        obtain ⟨t', ht', rfl⟩ := List.mem_map.mp ht
        exact ⟨(h.taken t' ht').1, nofun⟩
      · intro hnone
        exact absurd (hstore.symm.trans hnone) nofun

theorem crash (h : s.Kept written) : s.crash.Kept written :=
  ⟨h.holds, h.sorted, h.below, h.acceptedSorted, h.acceptedBelow, h.awayBelow, h.owed, nofun,
    by simp [DiskLog.crash], fun _ => rfl, h.opens⟩

theorem drop (h : s.Kept written) {outcome : Option Rewrite}
    (hstep : ∀ w ∈ outcome, Separate path w) : ∃ written', (s.drop path outcome).Kept written' := by
  cases outcome with
  | none => exact ⟨written, h.crash⟩
  | some w =>
    obtain ⟨written', hrewrite⟩ := h.rewrite (hstep w rfl)
    exact ⟨written', hrewrite.crash⟩

theorem step (h : s.Kept written) {op : DiskOp} (hstep : s.Lasting path op) :
    ∃ written', (s.step path op).Kept written' := by
  cases op with
  | openStore capacity => exact h.openStore hstep
  | submit event blockOnFull append => exact h.submit hstep
  | drainBatch max => exact ⟨written, h.drainBatch max⟩
  | requeueFront k => exact ⟨written, h.requeueFront hstep⟩
  | compact outcome => exact h.rewrite hstep
  | close outcome => exact h.rewrite hstep
  | drop outcome => exact h.drop hstep
  | crash => exact ⟨written, h.crash⟩

end Kept

end DiskLog

/-! ### Histories -/

namespace DiskLog

section Histories

variable [JsonLines] [UtcText] {ev ev' : TraceraEvent}

/-- Two events that were appended to a new journal are read back. -/
theorem replay_two (hev : ev.Readable) (hev' : ev'.Readable) :
    replay ((eventLine ev).map some ++ some '\n' :: ((eventLine ev').map some ++ [some '\n'])) =
      .ok [ev, ev'] := by
  have hend : AtLineEnd ([] ++ (eventLine ev ++ ['\n']).map some) := by
    right
    simp
  have htwo := ((Holds.empty.append (.inl rfl) hev).append hend hev').replay
  simpa using htwo

/-- A batch comes back, the process crashes while a line is appended that is written to its end,
and the journal is compacted when it is opened again. -/
theorem meets_lasting (path : PathBuf) (hev : ev.Readable) (hev' : ev'.Readable) {n : ℕ}
    (hn : (eventLine ev').length < n) :
    Meets (step path) (Lasting path) empty
      [.openStore 2, .submit ev false .written, .drainBatch 1, .requeueFront 0,
        .submit ev' false (.failed n false), .crash, .openStore 2, .compact .renamed,
        .drainBatch 1, .crash, .openStore 2] := by
  have hempty : replay [] = .ok [] := rfl
  have htwo := replay_two hev hev'
  have hcontent : replay ((content [ev, ev']).map some) = .ok [ev, ev'] :=
    (holds_content (by simp [hev, hev'])).replay
  have hwhole : torn (eventLine ev' ++ ['\n']) n false =
      (eventLine ev').map some ++ [some '\n'] := by
    have hall : (eventLine ev' ++ ['\n']).length ≤ n := by
      rw [List.length_append, List.length_singleton]
      omega
    rw [torn, List.take_of_length_le hall, if_neg (by simp), List.append_nil, List.map_append]
    rfl
  simp [Meets, step, openStore, empty, hempty, Lasting, submit, drainBatch, requeueFront,
    StoreState.ofFound, numbered, StoreState.push, StoreState.drainBatch,
    StoreState.requeueFront, StoreState.reject, hwhole, htwo, hcontent, crash, compact, rewrite,
    replace, Separate, Appendable, AtLineEnd, hev, hev', hn.le]

/-- A journal that is opened with a smaller capacity loses the newest event. -/
theorem not_right_crowded (path : PathBuf) (hev : ev.Readable) (hev' : ev'.Readable)
    (hne : ev ≠ ev') :
    ¬(run (step path) empty [.openStore 2, .submit ev false .written,
      .submit ev' false .written, .crash, .openStore 1]).Right := by
  intro h
  have hempty : replay [] = .ok [] := rfl
  have htwo := replay_two hev hev'
  have hopens := h.keepsNewest
  simp [run, step, openStore, empty, hempty, submit, StoreState.ofFound, numbered,
    StoreState.push, htwo, crash] at hopens
  exact hne hopens

end Histories

end DiskLog

namespace Journal

/-- The text of the epoch is that of the program. -/
abbrev referenceUtc : UtcText where
  utcText := Reference.timeText "1970-01-01T00:00:00Z"
  parseUtc := Reference.parseTime Reference.epochTexts
  parseUtc_utcText := Reference.parseTime_epochTexts Reference.jsonText_mem_epochTexts

attribute [local instance] referenceLines referenceUtc

theorem eventLine_reference (ev : TraceraEvent) :
    eventLine ev = Serde.Reference.print ev.serialize := String.toList_ofList

def path : PathBuf := ["/", "events.ndjson"]

def first : TraceraEvent :=
  { schema := traceraSchema
    id := "01"
    ts := .epoch
    source := "forgecode"
    sessionId := none
    kind := .session
    payload := Json.null.value
    tags := .empty }

def second : TraceraEvent := { first with id := "02" }

/-- A batch comes back, the process crashes while a line is appended that is written to its end,
and the journal is compacted when it is opened again. -/
def lasting : List DiskOp :=
  [.openStore 2, .submit first false .written, .drainBatch 1, .requeueFront 0,
    .submit second false (.failed 1000 false), .crash, .openStore 2, .compact .renamed,
    .drainBatch 1,
    .crash, .openStore 2]

/-- The process crashes within a line. -/
def tornLine : List DiskOp := [.openStore 2, .submit first false (.failed 1 false), .crash]

/-- The journal is compacted while a batch is out that comes back. -/
def compacted : List DiskOp :=
  [.openStore 2, .submit first false .written, .drainBatch 1, .compact .renamed, .requeueFront 0,
    .crash]

/-- The journal is opened again with a smaller capacity. -/
def crowded : List DiskOp :=
  [.openStore 2, .submit first false .written, .submit second false .written, .crash, .openStore 1]

end Journal

end HeliosLite
