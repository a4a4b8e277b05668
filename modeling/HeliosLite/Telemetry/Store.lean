import Mathlib.Data.List.Nodup

/-!
# The batch queue of the Tracera sink

A bounded queue with counters. Batches are taken from its front, and a batch that could not be
sent comes back to the front; what does not fit then is cut from the end of the batch.

## Main definitions

* `StoreState` — the queue with its capacity and counters
* `StoreState.submit`, `StoreState.drainBatch`, `StoreState.requeueFront` — the operations
* `StoreState.overflow` — what is cut from a batch that comes back

## Main results

* `length_requeueFront_le`, `totalDropped_requeueFront` — the bound and the counter
* `queue_requeueFront_eq_take_iff` — when the oldest events are kept
-/

namespace HeliosLite

variable {α : Type*}

/-- The state of a store, behind its lock. -/
structure StoreState (α : Type*) where
  queue : List α
  capacity : ℕ
  totalSubmitted : ℕ
  totalDropped : ℕ
  deriving DecidableEq, Repr

/-- What `submit` does under the lock. -/
inductive Room where
  | pushed
  | full
  | waiting
  deriving DecidableEq, Repr

namespace StoreState

def new (capacity : ℕ) : StoreState α :=
  { queue := []
    capacity := capacity
    totalSubmitted := 0
    totalDropped := 0 }

/-- The state of a store that is opened on some events: the first ones, as many as fit. -/
def ofFound (capacity : ℕ) (found : List α) : StoreState α :=
  { queue := found.take capacity
    capacity := capacity
    totalSubmitted := found.length
    totalDropped := found.length - capacity }

variable (s : StoreState α)

def push (ev : α) : StoreState α :=
  { s with
    queue := s.queue ++ [ev]
    totalSubmitted := s.totalSubmitted + 1 }

def reject : StoreState α :=
  { s with
    totalSubmitted := s.totalSubmitted + 1
    totalDropped := s.totalDropped + 1 }

/-- One turn of `submit`; where it blocks, it looks again later. -/
def submit (ev : α) (blockOnFull : Bool) : Room × StoreState α :=
  if s.capacity ≤ s.queue.length then
    if blockOnFull then (.waiting, s) else (.full, s.reject)
  else (.pushed, s.push ev)

/-- The oldest events, up to a number, and what is left. -/
def drainBatch (max : ℕ) : List α × StoreState α :=
  (s.queue.take max, { s with queue := s.queue.drop max })

/-- The events of a batch for which the queue has no room. -/
def overflow (events : List α) : List α := events.drop (s.capacity - s.queue.length)

/-- A batch comes back to the front, as far as there is room. -/
def requeueFront (events : List α) : StoreState α :=
  if s.capacity < s.queue.length + events.length then
    { s with
      queue := events.take (s.capacity - s.queue.length) ++ s.queue
      totalDropped :=
        s.totalDropped + (events.length - (s.capacity - s.queue.length)) }
  else { s with queue := events ++ s.queue }

variable {s} {events : List α}

@[simp] theorem capacity_requeueFront : (s.requeueFront events).capacity = s.capacity := by
  rw [requeueFront]
  split_ifs <;> rfl

theorem queue_requeueFront : (s.requeueFront events).queue =
    events.take (s.capacity - s.queue.length) ++ s.queue := by
  rw [requeueFront]
  split_ifs with hfull
  · rfl
  · rw [List.take_of_length_le (by omega)]

/-- Every event that is cut is counted. -/
theorem totalDropped_requeueFront :
    (s.requeueFront events).totalDropped = s.totalDropped + (s.overflow events).length := by
  rw [requeueFront, overflow, List.length_drop]
  split_ifs with hfull
  · rfl
  · have hnone : events.length - (s.capacity - s.queue.length) = 0 := by omega
    rw [hnone, Nat.add_zero]

theorem overflow_eq_nil (h : events.length + s.queue.length ≤ s.capacity) :
    s.overflow events = [] := by
  apply List.drop_eq_nil_of_le
  omega

theorem queue_requeueFront_of_room (h : events.length + s.queue.length ≤ s.capacity) :
    (s.requeueFront events).queue = events ++ s.queue := by
  rw [queue_requeueFront, List.take_of_length_le (by omega)]

/-- Of different events the oldest of batch and queue are kept exactly when nothing is cut. -/
theorem queue_requeueFront_eq_take_iff (hnodup : (events ++ s.queue).Nodup)
    (hlength : events.length ≤ s.capacity) (hqueue : s.queue.length ≤ s.capacity) :
    (s.requeueFront events).queue = (events ++ s.queue).take s.capacity ↔
      events.length + s.queue.length ≤ s.capacity := by
  rw [queue_requeueFront]
  constructor
  · intro heq
    by_contra hfull
    -- the first event that is cut is among the oldest, and no other event is equal to it
    have hcut : s.capacity - s.queue.length < events.length := by omega
    have hmem : events[s.capacity - s.queue.length] ∈
        events.take (s.capacity - s.queue.length) ++ s.queue := by
      rw [heq, List.take_append, List.take_of_length_le hlength]
      exact List.mem_append_left _ (List.getElem_mem hcut)
    obtain ⟨hevents, -, hdisjoint⟩ := List.nodup_append.mp hnodup
    rcases List.mem_append.mp hmem with hkept | hqueued
    · obtain ⟨i, hi, hget⟩ := List.getElem_of_mem hkept
      rw [List.getElem_take] at hget
      rw [List.length_take] at hi
      have hindex := (List.Nodup.getElem_inj_iff hevents).mp hget
      omega
    · exact hdisjoint _ (List.getElem_mem hcut) _ hqueued rfl
  · intro hroom
    rw [List.take_of_length_le (by omega), List.take_of_length_le]
    rw [List.length_append]
    exact hroom

theorem length_requeueFront_le (h : s.queue.length ≤ s.capacity) :
    (s.requeueFront events).queue.length ≤ s.capacity := by
  rw [queue_requeueFront, List.length_append, List.length_take]
  omega

end StoreState

end HeliosLite
