import Mathlib.Data.List.Nodup
import Mathlib.Data.List.Perm.Subperm
import Mathlib.Logic.Relation

/-!
# What can be reached, by a queue

The nodes that can be reached from a node are visited with a queue. A node is visited when it is
first seen, and its successors are seen when it is taken from the queue. The successors of each
node are listed, and may be listed more than once.

## Main definitions

* `Worklist` — the visited nodes and the queue
* `closure` — the nodes that are visited from a node on

## Main results

* `mem_closure_iff` — they are those that can be reached
* `nodup_closure` — none of them is visited twice
-/

namespace Theory

/-- The visited nodes, and those of them that have not been taken from the queue. -/
structure Worklist (α : Type*) where
  visited : List α
  queue : List α

namespace Worklist

variable {α : Type*} [DecidableEq α] {next : α → List α} {a u v : α} {done : List α}
  {s : Worklist α}

def start (a : α) : Worklist α := { visited := [a], queue := [a] }

/-- A node that has not been visited is visited and put into the queue. -/
def see (s : Worklist α) (v : α) : Worklist α :=
  if v ∈ s.visited then s else { visited := v :: s.visited, queue := s.queue ++ [v] }

/-- So many nodes are taken from the queue. -/
def drain (next : α → List α) : ℕ → Worklist α → Worklist α
  | 0, s => s
  | fuel + 1, s =>
    match s.queue with
    | [] => s
    | u :: queue => drain next fuel ((next u).foldl see { s with queue := queue })

/-! ### Seeing nodes -/

theorem see_of_mem (h : v ∈ s.visited) : s.see v = s := if_pos h

theorem see_of_notMem (h : v ∉ s.visited) :
    s.see v = { visited := v :: s.visited, queue := s.queue ++ [v] } := if_neg h

theorem mem_visited_see : u ∈ (s.see v).visited ↔ u ∈ s.visited ∨ u = v := by
  by_cases h : v ∈ s.visited
  · rw [see_of_mem h]
    constructor
    · exact Or.inl
    · rintro (hu | rfl)
      · exact hu
      · exact h
  · rw [see_of_notMem h, List.mem_cons, or_comm]

theorem mem_visited_foldl_see {vs : List α} :
    u ∈ (vs.foldl see s).visited ↔ u ∈ s.visited ∨ u ∈ vs := by
  induction vs generalizing s with
  | nil => simp
  | cons v vs ih => rw [List.foldl_cons, ih, mem_visited_see, List.mem_cons, or_assoc]

/-- The visited nodes are different, and they are some nodes and those in the queue. -/
structure Splits (done : List α) (s : Worklist α) : Prop where
  nodup : s.visited.Nodup
  perm : s.visited.Perm (done ++ s.queue)

theorem Splits.see (h : Splits done s) (v : α) : Splits done (s.see v) := by
  by_cases hv : v ∈ s.visited
  · rw [see_of_mem hv]
    exact h
  · rw [see_of_notMem hv]
    refine ⟨List.nodup_cons.mpr ⟨hv, h.nodup⟩, ?_⟩
    calc (v :: s.visited).Perm (v :: (done ++ s.queue)) := h.perm.cons v
      _ |>.Perm (done ++ s.queue ++ [v]) := (List.perm_append_singleton v _).symm
      _ |>.Perm (done ++ (s.queue ++ [v])) := by rw [List.append_assoc]

theorem Splits.foldl_see (h : Splits done s) (vs : List α) :
    Splits done (vs.foldl Worklist.see s) := by
  induction vs generalizing s with
  | nil => exact h
  | cons v vs ih => exact ih (h.see v)

/-! ### Taking nodes from the queue -/

/-- The successors of the nodes that were taken from the queue have been visited. -/
structure Inv (next : α → List α) (a : α) (done : List α) (s : Worklist α) : Prop where
  splits : Splits done s
  start : a ∈ s.visited
  reached : ∀ v ∈ s.visited, Relation.ReflTransGen (fun x y => y ∈ next x) a v
  closed : ∀ u ∈ done, ∀ v ∈ next u, v ∈ s.visited

omit [DecidableEq α] in
theorem inv_start (next : α → List α) (a : α) : Inv next a [] (start a) where
  splits := ⟨List.nodup_singleton a, .refl _⟩
  start := List.mem_singleton.mpr rfl
  reached v hv := by
    rw [List.mem_singleton.mp hv]
  closed u hu := absurd hu List.not_mem_nil

theorem Inv.step {queue : List α} (h : Inv next a done s) (hqueue : s.queue = u :: queue) :
    Inv next a (done ++ [u]) ((next u).foldl see { s with queue := queue }) := by
  have hu : u ∈ s.visited := by
    rw [h.splits.perm.mem_iff, hqueue]
    exact List.mem_append_right _ List.mem_cons_self
  constructor
  · have hperm : s.visited.Perm (done ++ [u] ++ queue) := by
      rw [List.append_assoc, List.singleton_append, ← hqueue]
      exact h.splits.perm
    have hsplits : Splits (done ++ [u]) { s with queue := queue } := ⟨h.splits.nodup, hperm⟩
    exact hsplits.foldl_see (next u)
  · exact mem_visited_foldl_see.mpr (.inl h.start)
  · intro v hv
    rcases mem_visited_foldl_see.mp hv with hv | hv
    · exact h.reached v hv
    · exact (h.reached u hu).tail hv
  · intro w hw v hv
    refine mem_visited_foldl_see.mpr ?_
    rcases List.mem_append.mp hw with hw | hw
    · exact .inl (h.closed w hw v hv)
    · rw [List.mem_singleton.mp hw] at hv
      exact .inr hv

/-- If there are no more nodes than may be taken, the queue is empty in the end. -/
theorem Inv.drain {nodes : List α} {fuel : ℕ} (h : Inv next a done s)
    (hnodes : ∀ v, Relation.ReflTransGen (fun x y => y ∈ next x) a v → v ∈ nodes)
    (hfuel : nodes.length ≤ fuel + done.length) :
    ∃ done', Inv next a done' (s.drain next fuel) ∧ (s.drain next fuel).queue = [] := by
  induction fuel generalizing done s with
  | zero =>
    have hsub : s.visited ⊆ nodes := fun v hv => hnodes v (h.reached v hv)
    have hlen := (List.subperm_of_subset h.splits.nodup hsub).length_le
    rw [h.splits.perm.length_eq, List.length_append] at hlen
    have hempty : s.queue = [] := List.length_eq_zero_iff.mp (by omega)
    exact ⟨done, h, hempty⟩
  | succ fuel ih =>
    rw [Worklist.drain]
    cases hqueue : s.queue with
    | nil => exact ⟨done, h, hqueue⟩
    | cons u queue =>
      refine ih (h.step hqueue) ?_
      rw [List.length_append, List.length_singleton]
      omega

omit [DecidableEq α] in
/-- When the queue is empty, all nodes that can be reached have been visited. -/
theorem Inv.mem_visited_iff (h : Inv next a done s) (hqueue : s.queue = []) :
    v ∈ s.visited ↔ Relation.ReflTransGen (fun x y => y ∈ next x) a v := by
  refine ⟨h.reached v, fun hreach => ?_⟩
  induction hreach with
  | refl => exact h.start
  | tail _ hstep ih =>
    rw [h.splits.perm.mem_iff, hqueue, List.append_nil] at ih
    exact h.closed _ ih _ hstep

end Worklist

section Closure

variable {α : Type*} [DecidableEq α] {next : α → List α} {a v : α} {nodes : List α} {fuel : ℕ}

/-- The nodes that are visited from a node on. -/
def closure (next : α → List α) (fuel : ℕ) (a : α) : List α :=
  ((Worklist.start a).drain next fuel).visited

theorem mem_closure_iff
    (hnodes : ∀ v, Relation.ReflTransGen (fun x y => y ∈ next x) a v → v ∈ nodes)
    (hfuel : nodes.length ≤ fuel) :
    v ∈ closure next fuel a ↔ Relation.ReflTransGen (fun x y => y ∈ next x) a v := by
  obtain ⟨done, hinv, hqueue⟩ := (Worklist.inv_start next a).drain hnodes hfuel
  exact hinv.mem_visited_iff hqueue

theorem nodup_closure
    (hnodes : ∀ v, Relation.ReflTransGen (fun x y => y ∈ next x) a v → v ∈ nodes)
    (hfuel : nodes.length ≤ fuel) : (closure next fuel a).Nodup := by
  obtain ⟨done, hinv, -⟩ := (Worklist.inv_start next a).drain hnodes hfuel
  exact hinv.splits.nodup

end Closure

end Theory
