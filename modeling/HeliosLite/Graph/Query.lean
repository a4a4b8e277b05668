import HeliosLite.Graph.Builder
import HeliosLite.Theory.Walks
import Mathlib.Data.List.Chain
import Mathlib.Data.List.Perm.Subperm

/-!
# Shortest paths between files

A breadth-first search keeps the nodes that it has visited, a queue, and for each node the one from
which it was found. When it finds the target it walks back along these, and gives the nodes names
of its own instead of the paths of their files.

## Main definitions

* `GraphQuery.shortestPath`, `GraphQuery.shortestPathWeighted` — the queries
* `IsPath`, `ShortestRight` — paths between files, and what a query is to return
* `Tree`, `Searching` — the first walks to the visited nodes, and which of them are finished

## Main results

* `search_spec` — the search finds the nodes of the first walk to the target
* `shortestPath_right_iff` — for which files a query is right
-/

namespace HeliosLite

open Theory

/-- The targets of the edges of a node, the newest edge first. -/
def CodebaseGraph.neighbors (g : CodebaseGraph) (i : ℕ) : List ℕ :=
  ((g.edges.filter fun e => e.1 = i).map fun e => e.2.1).reverse

namespace GraphQuery

/-! ### The search -/

/-- The visited nodes, the queue, and the nodes from which others were found. -/
structure Search where
  visited : List ℕ
  queue : List ℕ
  predecessor : List (ℕ × ℕ)
  deriving DecidableEq, Repr

/-- The node and its predecessors, at most so many. -/
def walkBack (predecessor : List (ℕ × ℕ)) : ℕ → ℕ → List ℕ
  | 0, current => [current]
  | n + 1, current =>
    match predecessor.lookup current with
    | some prev => current :: walkBack predecessor n prev
    | none => [current]

/-- The name that a node gets in a path. -/
def nodeName (i : ℕ) : PathBuf := PathBuf.ofString ("node_" ++ toString i)

def reconstructPath (predecessor : List (ℕ × ℕ)) (target : ℕ) : List PathBuf :=
  (walkBack predecessor predecessor.length target).reverse.map nodeName

/-- The neighbours of a node are visited, until the target is among them. -/
def visit (target current : ℕ) : List ℕ → Search → Bool × Search
  | [], s => (false, s)
  | neighbor :: neighbors, s =>
    if neighbor ∈ s.visited then visit target current neighbors s
    else
      let s := { s with
        visited := neighbor :: s.visited
        predecessor := (neighbor, current) :: s.predecessor }
      if neighbor = target then (true, s)
      else visit target current neighbors { s with queue := s.queue ++ [neighbor] }

/-- So many nodes are taken from the queue. -/
def search (neighbors : ℕ → List ℕ) (target : ℕ) : ℕ → Search → Option (List PathBuf)
  | 0, _ => none
  | fuel + 1, s =>
    match s.queue with
    | [] => none
    | current :: queue =>
      match visit target current (neighbors current) { s with queue := queue } with
      | (true, s) => some (reconstructPath s.predecessor target)
      | (false, s) => search neighbors target fuel s

/-- Every node but the first is found by an edge. -/
def shortestPath (g : CodebaseGraph) (source target : PathBuf) : Option (List PathBuf) :=
  (g.pathIndex source).bind fun fromIdx => (g.pathIndex target).bind fun toIdx =>
    if fromIdx = toIdx then some [source]
    else search g.neighbors toIdx (g.edges.length + 1) ⟨[fromIdx], [fromIdx], []⟩

/-- The costs of the nodes from a node on, up to a target. -/
abbrev Dijkstra := CodebaseGraph → ℕ → Option ℕ → ℕ → Option ℕ

def shortestPathWeighted (dijkstra : Dijkstra) (g : CodebaseGraph) (source target : PathBuf) :
    Option (List PathBuf) :=
  (g.pathIndex source).bind fun fromIdx => (g.pathIndex target).bind fun toIdx =>
    if (dijkstra g fromIdx (some toIdx) toIdx).isSome then shortestPath g source target else none

/-! ### Paths between files -/

/-- There is an edge from one file to another. -/
def Adjacent (g : CodebaseGraph) (x y : PathBuf) : Prop :=
  ∃ i j, g.pathIndex x = some i ∧ g.pathIndex y = some j ∧ j ∈ g.neighbors i

/-- A sequence of files of the graph from one to another along edges. -/
structure IsPath (g : CodebaseGraph) (source target : PathBuf) (path : List PathBuf) : Prop where
  head : path.head? = some source
  last : path.getLast? = some target
  files : ∀ x ∈ path, (g.pathIndex x).isSome
  edges : path.IsChain (Adjacent g)

/-- The second file can be reached from the first along edges. -/
def Reachable (g : CodebaseGraph) (source target : PathBuf) : Prop :=
  ∃ i j, g.pathIndex source = some i ∧ g.pathIndex target = some j ∧
    Relation.ReflTransGen (fun x y => y ∈ g.neighbors x) i j

/-- What a query for a shortest path is to return. -/
structure ShortestRight (g : CodebaseGraph) (source target : PathBuf)
    (result : Option (List PathBuf)) : Prop where
  isSome_iff : result.isSome ↔ Reachable g source target
  path : ∀ path ∈ result, IsPath g source target path
  shortest : ∀ path ∈ result, ∀ other, IsPath g source target other → path.length ≤ other.length

/-! ### The walks that have been found -/

/-- The first walks to the visited nodes, in the order in which they were found. -/
structure Tree (next : ℕ → List ℕ) (a : ℕ) (found : List (List ℕ × ℕ)) (s : Search) : Prop where
  root : ([], a) ∈ found
  sorted : found.Pairwise fun x y => Before x.1 y.1
  leads : ∀ x ∈ found, follow next a x.1 = some x.2
  nodup : (found.map Prod.snd).Nodup
  visited : ∀ v, v ∈ s.visited ↔ v ∈ found.map Prod.snd
  lookup : ∀ t p v, (t ++ [p], v) ∈ found → ∃ u, (t, u) ∈ found ∧ s.predecessor.lookup v = some u
  rootless : s.predecessor.lookup a = none
  depth : ∀ x ∈ found, x.1.length ≤ s.predecessor.length

section Tree

variable {next : ℕ → List ℕ} {a : ℕ} {found : List (List ℕ × ℕ)} {s : Search}

theorem tree_start (a : ℕ) : Tree next a [([], a)] ⟨[a], [a], []⟩ where
  root := List.mem_singleton.mpr rfl
  sorted := List.pairwise_singleton _ _
  leads x hx := by
    rw [List.mem_singleton.mp hx]
    rfl
  nodup := List.nodup_singleton _
  visited v := Iff.rfl
  lookup t p v h := by simp at h
  rootless := rfl
  depth x hx := by
    rw [List.mem_singleton.mp hx]
    exact le_rfl

/-- The walk back from a visited node has the nodes of its walk. -/
theorem Tree.walkBack (h : Tree next a found s) {t : List ℕ} {v n : ℕ} (hmem : (t, v) ∈ found)
    (hn : t.length ≤ n) : GraphQuery.walkBack s.predecessor n v = (along next a t).reverse := by
  induction t using List.reverseRecOn generalizing v n with
  | nil =>
    obtain rfl := Option.some.inj (h.leads _ hmem)
    cases n with
    | zero => rfl
    | succ n =>
      rw [GraphQuery.walkBack, h.rootless]
      rfl
  | append_singleton t p ih =>
    obtain ⟨u, hu, hlookup⟩ := h.lookup t p v hmem
    obtain ⟨u', hu', hv⟩ := follow_concat_eq_some_iff.mp (h.leads _ hmem)
    obtain rfl := Option.some.inj ((h.leads _ hu).symm.trans hu')
    rw [List.length_append, List.length_singleton] at hn
    obtain ⟨k, rfl⟩ : ∃ k, n = k + 1 := ⟨n - 1, by omega⟩
    rw [GraphQuery.walkBack, hlookup, along_concat hu' hv, List.reverse_concat]
    exact congrArg (v :: ·) (ih hu (by omega))

/-- A node that has not been visited is found from a visited one. -/
theorem Tree.extend (h : Tree next a found s) {t : List ℕ} {u p v : ℕ} (hmem : (t, u) ∈ found)
    (hnext : (next u)[p]? = some v) (hnew : v ∉ s.visited)
    (hbefore : ∀ x ∈ found, Before x.1 (t ++ [p])) (queue : List ℕ) :
    Tree next a (found ++ [(t ++ [p], v)])
      ⟨v :: s.visited, queue, (v, u) :: s.predecessor⟩ := by
  have hfresh : v ∉ found.map Prod.snd := fun hv => hnew ((h.visited v).mpr hv)
  have hold : ∀ w, w ∈ found.map Prod.snd →
      ((v, u) :: s.predecessor).lookup w = s.predecessor.lookup w := by
    intro w hw
    have hne : (w == v) = false := beq_eq_false_iff_ne.mpr fun heq => hfresh (heq ▸ hw)
    rw [List.lookup_cons, hne]
  constructor
  · exact List.mem_append_left _ h.root
  · refine List.pairwise_append.mpr ⟨h.sorted, List.pairwise_singleton _ _, ?_⟩
    intro x hx y hy
    rw [List.mem_singleton.mp hy]
    exact hbefore x hx
  · intro x hx
    rcases List.mem_append.mp hx with hx | hx
    · exact h.leads x hx
    · rw [List.mem_singleton.mp hx]
      exact follow_concat_eq_some_iff.mpr ⟨u, h.leads _ hmem, hnext⟩
  · rw [List.map_append, List.nodup_append]
    refine ⟨h.nodup, List.nodup_singleton v, ?_⟩
    intro w hw w' hw' heq
    rw [List.map_singleton, List.mem_singleton] at hw'
    rw [heq, hw'] at hw
    exact hfresh hw
  · intro w
    rw [List.mem_cons, h.visited, List.map_append, List.mem_append, or_comm]
    simp
  · intro t' p' v' hmem'
    rcases List.mem_append.mp hmem' with hmem' | hmem'
    · obtain ⟨u', hu', hlookup⟩ := h.lookup t' p' v' hmem'
      exact ⟨u', List.mem_append_left _ hu',
        (hold v' (List.mem_map_of_mem (f := Prod.snd) hmem')).trans hlookup⟩
    · obtain ⟨hwalk, rfl⟩ := Prod.mk.inj (List.mem_singleton.mp hmem')
      obtain ⟨rfl, -⟩ := List.append_inj' hwalk rfl
      exact ⟨u, List.mem_append_left _ hmem, by rw [List.lookup_cons, beq_self_eq_true]⟩
  · rw [hold a (List.mem_map_of_mem (f := Prod.snd) h.root)]
    exact h.rootless
  · intro x hx
    rw [List.length_cons]
    rcases List.mem_append.mp hx with hx | hx
    · exact (h.depth x hx).trans (Nat.le_succ _)
    · rw [List.mem_singleton.mp hx, List.length_append, List.length_singleton]
      exact Nat.succ_le_succ (h.depth _ hmem)

/-- A walk that is not after the given one leads to the node. -/
def Covers (found : List (List ℕ × ℕ)) (w : List ℕ) (v : ℕ) : Prop :=
  ∃ t, (t, v) ∈ found ∧ AtMost t w

/-- If the successors of some nodes have been found, so are the ends of all walks before the
others. -/
theorem Tree.covers {done rest : List (List ℕ × ℕ)} (h : Tree next a (done ++ rest) s)
    (hclosed : ∀ x ∈ done, ∀ p v, (next x.2)[p]? = some v →
      Covers (done ++ rest) (x.1 ++ [p]) v)
    {w : List ℕ} {v : ℕ} (hw : follow next a w = some v) (hbefore : ∀ z ∈ rest, Before w z.1) :
    Covers done w v := by
  -- a walk that is found is one of those whose successors are found
  have hdone : ∀ {t u w}, (t, u) ∈ done ++ rest → AtMost t w → (∀ z ∈ rest, Before w z.1) →
      (t, u) ∈ done := by
    intro t u w hmem ht hw
    rcases List.mem_append.mp hmem with hmem | hmem
    · exact hmem
    · exact absurd (ht.trans_before (hw _ hmem)) (not_before_self t)
  induction w using List.reverseRecOn generalizing v with
  | nil =>
    obtain rfl := Option.some.inj hw
    exact ⟨[], hdone h.root (.inl rfl) hbefore, .inl rfl⟩
  | append_singleton w p ih =>
    obtain ⟨u, hu, hv⟩ := follow_concat_eq_some_iff.mp hw
    obtain ⟨t, ht, hat⟩ := ih hu fun z hz => (before_concat_self w p).trans (hbefore z hz)
    obtain ⟨t', ht', hat'⟩ := hclosed _ ht p v hv
    have hle : AtMost (t ++ [p]) (w ++ [p]) := by
      rcases hat with rfl | hlt
      · exact .inl rfl
      · exact .inr (before_concat.mpr (.inl hlt))
    exact ⟨t', hdone ht' (hat'.trans hle) hbefore, hat'.trans hle⟩

end Tree

/-! ### The search finds the first walk -/

/-- The successors of some nodes have been found, and the others stand in the queue. -/
structure Searching (next : ℕ → List ℕ) (a b : ℕ) (done rest : List (List ℕ × ℕ)) (s : Search) :
    Prop where
  tree : Tree next a (done ++ rest) s
  queue : s.queue = rest.map Prod.snd
  closed : ∀ x ∈ done, ∀ p v, (next x.2)[p]? = some v → Covers (done ++ rest) (x.1 ++ [p]) v
  bound : ∀ x ∈ done ++ rest, ∀ z ∈ rest, Before x.1 (z.1 ++ [0])
  missing : b ∉ s.visited

section Visit

variable {next : ℕ → List ℕ} {a b u : ℕ} {t : List ℕ} {done rest : List (List ℕ × ℕ)} {s : Search}

/-- Some successors of the node that was taken from the queue have been found. -/
structure Visiting (next : ℕ → List ℕ) (a b : ℕ) (done : List (List ℕ × ℕ)) (t : List ℕ) (u : ℕ)
    (rest : List (List ℕ × ℕ)) (p : ℕ) (s : Search) : Prop where
  tree : Tree next a (done ++ (t, u) :: rest) s
  queue : s.queue = rest.map Prod.snd
  closed : ∀ x ∈ done, ∀ q v, (next x.2)[q]? = some v →
    Covers (done ++ (t, u) :: rest) (x.1 ++ [q]) v
  visited : ∀ q < p, ∀ v, (next u)[q]? = some v → Covers (done ++ (t, u) :: rest) (t ++ [q]) v
  bound : ∀ x ∈ done ++ (t, u) :: rest, Before x.1 (t ++ [p])
  missing : b ∉ s.visited

theorem Searching.visiting (h : Searching next a b done ((t, u) :: rest) s) :
    Visiting next a b done t u rest 0 { s with queue := rest.map Prod.snd } where
  tree := ⟨h.tree.root, h.tree.sorted, h.tree.leads, h.tree.nodup, h.tree.visited, h.tree.lookup,
    h.tree.rootless, h.tree.depth⟩
  queue := rfl
  closed := h.closed
  visited q hq := absurd hq (Nat.not_lt_zero q)
  bound x hx := h.bound x hx (t, u) List.mem_cons_self
  missing := h.missing

theorem before_next {x z z' : List ℕ} {p q : ℕ} (hx : Before x (z ++ [p])) (hz : Before z z') :
    Before x (z' ++ [q]) := by
  rcases List.eq_nil_or_concat' x with rfl | ⟨y, r, rfl⟩
  · exact before_iff.mpr (.inl (by simp))
  · rcases before_concat.mp hx with hy | ⟨rfl, -⟩
    · exact before_concat.mpr (.inl (hy.trans hz))
    · exact before_concat.mpr (.inl hz)

/-- The walks in the queue come after the one that was taken from it. -/
theorem Visiting.before {p : ℕ} (h : Visiting next a b done t u rest p s) :
    ∀ z ∈ rest, Before t z.1 :=
  (List.pairwise_cons.mp (List.pairwise_append.mp h.tree.sorted).2.1).1

/-- When all successors have been found the next node is taken. -/
theorem Visiting.searching {p : ℕ} (h : Visiting next a b done t u rest p s)
    (hp : (next u).length ≤ p) : Searching next a b (done ++ [(t, u)]) rest s := by
  have hfound : done ++ [(t, u)] ++ rest = done ++ (t, u) :: rest := by
    rw [List.append_assoc, List.singleton_append]
  constructor
  · rw [hfound]
    exact h.tree
  · exact h.queue
  · intro x hx q v hv
    rw [hfound]
    rcases List.mem_append.mp hx with hx | hx
    · exact h.closed x hx q v hv
    · obtain rfl := List.mem_singleton.mp hx
      obtain ⟨hq, -⟩ := List.getElem?_eq_some_iff.mp hv
      exact h.visited q (hq.trans_le hp) v hv
  · intro x hx z hz
    rw [hfound] at hx
    exact before_next (h.bound x hx) (h.before z hz)
  · exact h.missing

theorem Covers.mono {found found' : List (List ℕ × ℕ)} {w : List ℕ} {v : ℕ}
    (h : Covers found w v) (hsub : ∀ x ∈ found, x ∈ found') : Covers found' w v := by
  obtain ⟨t, ht, hat⟩ := h
  exact ⟨t, hsub _ ht, hat⟩

/-- A successor is found that is not the target. -/
theorem Visiting.extend {p v : ℕ} (h : Visiting next a b done t u rest p s)
    (hnext : (next u)[p]? = some v) (hnew : v ∉ s.visited) (hb : v ≠ b) :
    Visiting next a b done t u (rest ++ [(t ++ [p], v)]) (p + 1)
      ⟨v :: s.visited, s.queue ++ [v], (v, u) :: s.predecessor⟩ := by
  have hfound : done ++ (t, u) :: (rest ++ [(t ++ [p], v)]) =
      done ++ (t, u) :: rest ++ [(t ++ [p], v)] := by
    rw [List.append_assoc, List.cons_append]
  have hsub : ∀ x ∈ done ++ (t, u) :: rest,
      x ∈ done ++ (t, u) :: rest ++ [(t ++ [p], v)] := fun x hx => List.mem_append_left _ hx
  have hcur : (t, u) ∈ done ++ (t, u) :: rest := List.mem_append_right _ List.mem_cons_self
  have hstep : Before (t ++ [p]) (t ++ [p + 1]) :=
    before_concat.mpr (.inr ⟨rfl, Nat.lt_succ_self p⟩)
  constructor
  · rw [hfound]
    exact h.tree.extend hcur hnext hnew h.bound _
  · rw [h.queue, List.map_append]
    rfl
  · intro x hx q w hw
    rw [hfound]
    exact (h.closed x hx q w hw).mono hsub
  · intro q hq w hw
    rw [hfound]
    rcases Nat.lt_succ_iff_lt_or_eq.mp hq with hq | rfl
    · exact (h.visited q hq w hw).mono hsub
    · obtain rfl := Option.some.inj (hnext.symm.trans hw)
      exact ⟨t ++ [q], List.mem_append_right _ (List.mem_singleton.mpr rfl), .inl rfl⟩
  · intro x hx
    rw [hfound] at hx
    rcases List.mem_append.mp hx with hx | hx
    · exact (h.bound x hx).trans hstep
    · rw [List.mem_singleton.mp hx]
      exact hstep
  · rw [List.mem_cons, not_or]
    exact ⟨hb.symm, h.missing⟩

/-- A successor has been visited before. -/
theorem Visiting.skip {p v : ℕ} (h : Visiting next a b done t u rest p s)
    (hnext : (next u)[p]? = some v) (hold : v ∈ s.visited) :
    Visiting next a b done t u rest (p + 1) s := by
  have hstep : Before (t ++ [p]) (t ++ [p + 1]) :=
    before_concat.mpr (.inr ⟨rfl, Nat.lt_succ_self p⟩)
  constructor
  · exact h.tree
  · exact h.queue
  · exact h.closed
  · intro q hq w hw
    rcases Nat.lt_succ_iff_lt_or_eq.mp hq with hq | rfl
    · exact h.visited q hq w hw
    · obtain rfl := Option.some.inj (hnext.symm.trans hw)
      obtain ⟨⟨y, w⟩, hy, rfl⟩ := List.mem_map.mp ((h.tree.visited _).mp hold)
      exact ⟨y, hy, .inr (h.bound _ hy)⟩
  · intro x hx
    exact (h.bound x hx).trans hstep
  · exact h.missing

/-- The walk by which the target is found is the first one to it. -/
theorem Visiting.isFirst {p : ℕ} (h : Visiting next a b done t u rest p s)
    (hnext : (next u)[p]? = some b) : IsFirst next a b (t ++ [p]) := by
  have hcur : (t, u) ∈ done ++ (t, u) :: rest := List.mem_append_right _ List.mem_cons_self
  -- a covered node has been visited, and the target has not
  have hmissing : ∀ w, ¬ Covers (done ++ (t, u) :: rest) w b := by
    rintro w ⟨y, hy, -⟩
    exact h.missing ((h.tree.visited b).mpr (List.mem_map_of_mem (f := Prod.snd) hy))
  refine ⟨follow_concat_eq_some_iff.mpr ⟨u, h.tree.leads _ hcur, hnext⟩, ?_⟩
  intro w hbefore hw
  rcases List.eq_nil_or_concat' w with rfl | ⟨y, q, rfl⟩
  · obtain rfl := Option.some.inj hw
    exact hmissing [] ⟨[], h.tree.root, .inl rfl⟩
  · obtain ⟨c, hc, hq⟩ := follow_concat_eq_some_iff.mp hw
    rcases before_concat.mp hbefore with hy | ⟨rfl, hlt⟩
    · have hrest : ∀ z ∈ (t, u) :: rest, Before y z.1 := by
        intro z hz
        rcases List.mem_cons.mp hz with rfl | hz
        · exact hy
        · exact hy.trans (h.before z hz)
      obtain ⟨t', ht', -⟩ := h.tree.covers h.closed hc hrest
      exact hmissing _ (h.closed _ ht' q b hq)
    · obtain rfl := Option.some.inj ((h.tree.leads _ hcur).symm.trans hc)
      exact hmissing _ (h.visited q hlt b hq)

/-- The neighbours of a node are visited up to the target, which is found by the first walk, or
all of them. -/
theorem visit_spec {p : ℕ} (h : Visiting next a b done t u rest p s) :
    (∃ w s', IsFirst next a b w ∧ visit b u ((next u).drop p) s = (true, s') ∧
      reconstructPath s'.predecessor b = (along next a w).map nodeName) ∨
    ∃ rest' s', visit b u ((next u).drop p) s = (false, s') ∧
      Searching next a b (done ++ [(t, u)]) rest' s' := by
  generalize hdrop : (next u).drop p = neighbors
  induction neighbors generalizing p rest s with
  | nil => exact .inr ⟨rest, s, rfl, h.searching (List.drop_eq_nil_iff.mp hdrop)⟩
  | cons v neighbors ih =>
    have hnext : (next u)[p]? = some v := by
      rw [← List.head?_drop, hdrop, List.head?_cons]
    have htail : (next u).drop (p + 1) = neighbors := by
      rw [← List.tail_drop, hdrop, List.tail_cons]
    rw [visit]
    by_cases hold : v ∈ s.visited
    · rw [if_pos hold]
      exact ih (h.skip hnext hold) htail
    · rw [if_neg hold]
      by_cases hb : v = b
      · subst hb
        left
        have hcur : (t, u) ∈ done ++ (t, u) :: rest :=
          List.mem_append_right _ List.mem_cons_self
        have htree := h.tree.extend hcur hnext hold h.bound s.queue
        have hmem : (t ++ [p], v) ∈ done ++ (t, u) :: rest ++ [(t ++ [p], v)] :=
          List.mem_append_right _ (List.mem_singleton.mpr rfl)
        refine ⟨t ++ [p], _, h.isFirst hnext, if_pos rfl, ?_⟩
        rw [reconstructPath, htree.walkBack hmem (htree.depth _ hmem), List.reverse_reverse]
      · simp only [if_neg hb]
        exact ih (h.extend hnext hold hb) htail

/-- If no node is left, none of the walks leads to the target. -/
theorem Searching.unreachable (h : Searching next a b done [] s) (w : List ℕ) :
    follow next a w ≠ some b := by
  intro hw
  obtain ⟨t, ht, -⟩ := h.tree.covers h.closed hw fun z hz => absurd hz List.not_mem_nil
  refine h.missing ((h.tree.visited b).mpr ?_)
  rw [List.append_nil]
  exact List.mem_map_of_mem (f := Prod.snd) ht

/-- The search finds the nodes of the first walk to the target, if there is a walk to it. -/
theorem search_spec {nodes : List ℕ} {fuel : ℕ} (h : Searching next a b done rest s)
    (hnodes : ∀ w v, follow next a w = some v → v ∈ nodes)
    (hfuel : nodes.length ≤ fuel + done.length) :
    (∃ w, IsFirst next a b w ∧
      search next b fuel s = some ((along next a w).map nodeName)) ∨
    search next b fuel s = none ∧ ∀ w, follow next a w ≠ some b := by
  induction fuel generalizing done rest s with
  | zero =>
    -- all nodes have been taken from the queue, since they are different
    have hsub : (done ++ rest).map Prod.snd ⊆ nodes := by
      intro v hv
      obtain ⟨x, hx, rfl⟩ := List.mem_map.mp hv
      exact hnodes x.1 x.2 (h.tree.leads x hx)
    have hlen := (List.subperm_of_subset h.tree.nodup hsub).length_le
    rw [List.length_map, List.length_append] at hlen
    obtain rfl : rest = [] := List.length_eq_zero_iff.mp (by omega)
    exact .inr ⟨rfl, h.unreachable⟩
  | succ fuel ih =>
    rw [search, h.queue]
    match rest with
    | [] => exact .inr ⟨rfl, h.unreachable⟩
    | (t, u) :: rest =>
      rcases visit_spec h.visiting with ⟨w, s', hw, hvisit, hpath⟩ | ⟨rest', s', hvisit, hs'⟩
      · rw [List.drop_zero] at hvisit
        refine .inl ⟨w, hw, ?_⟩
        simp only [List.map_cons, hvisit, hpath]
      · rw [List.drop_zero] at hvisit
        simp only [List.map_cons, hvisit]
        refine ih hs' ?_
        rw [List.length_append, List.length_singleton]
        omega

end Visit

theorem searching_start {next : ℕ → List ℕ} {a b : ℕ} (hne : a ≠ b) :
    Searching next a b [] [([], a)] ⟨[a], [a], []⟩ where
  tree := tree_start a
  queue := rfl
  closed x hx := absurd hx List.not_mem_nil
  bound x hx z hz := by
    rw [List.mem_singleton.mp hx]
    exact before_iff.mpr (.inl (by simp))
  missing := by
    rw [List.mem_singleton]
    exact hne.symm

/-! ### What the queries return -/

section Queries

variable {g : CodebaseGraph} {source target : PathBuf} {i j : ℕ} {w : List ℕ}

/-- The nodes to which walks lead are the first one and the targets of edges. -/
theorem follow_mem {v : ℕ} (h : follow g.neighbors i w = some v) :
    v ∈ i :: g.edges.map fun e => e.2.1 := by
  rcases List.eq_nil_or_concat' w with rfl | ⟨y, p, rfl⟩
  · obtain rfl := Option.some.inj h
    exact List.mem_cons_self
  · obtain ⟨c, -, hp⟩ := follow_concat_eq_some_iff.mp h
    obtain ⟨e, he, rfl⟩ := List.mem_map.mp (List.mem_reverse.mp (List.mem_of_getElem? hp))
    exact List.mem_cons_of_mem _ (List.mem_map_of_mem (List.mem_of_mem_filter he))

theorem shortestPath_same (hi : g.pathIndex source = some i) (hj : g.pathIndex target = some i) :
    shortestPath g source target = some [source] := by
  rw [shortestPath, hi, hj, Option.bind_some, Option.bind_some, if_pos rfl]

/-- Between different nodes the query names the nodes of the first walk. -/
theorem shortestPath_spec (hi : g.pathIndex source = some i) (hj : g.pathIndex target = some j)
    (hne : i ≠ j) :
    (∃ w, IsFirst g.neighbors i j w ∧
      shortestPath g source target = some ((along g.neighbors i w).map nodeName)) ∨
    shortestPath g source target = none ∧ ∀ w, follow g.neighbors i w ≠ some j := by
  rw [shortestPath, hi, hj, Option.bind_some, Option.bind_some, if_neg hne]
  refine search_spec (searching_start hne) (fun w v => follow_mem) ?_
  rw [List.length_cons, List.length_map, List.length_nil]

theorem reachable_iff (hi : g.pathIndex source = some i) (hj : g.pathIndex target = some j) :
    Reachable g source target ↔ ∃ w, follow g.neighbors i w = some j := by
  rw [← reflTransGen_iff_follow]
  constructor
  · rintro ⟨i', j', hi', hj', hreach⟩
    obtain rfl := Option.some.inj (hi.symm.trans hi')
    obtain rfl := Option.some.inj (hj.symm.trans hj')
    exact hreach
  · intro hreach
    exact ⟨i, j, hi, hj, hreach⟩

/-- The query returns a path if and only if there is one. -/
theorem isSome_shortestPath :
    (shortestPath g source target).isSome ↔ Reachable g source target := by
  cases hi : g.pathIndex source with
  | none =>
    have hnone : shortestPath g source target = none := by rw [shortestPath, hi, Option.bind_none]
    rw [hnone]
    constructor
    · intro h
      exact absurd h Bool.false_ne_true
    · rintro ⟨i, j, hi', -, -⟩
      exact absurd (hi.symm.trans hi') (Option.some_ne_none i).symm
  | some i =>
    cases hj : g.pathIndex target with
    | none =>
      have hnone : shortestPath g source target = none := by
        rw [shortestPath, hi, hj, Option.bind_some, Option.bind_none]
      rw [hnone]
      constructor
      · intro h
        exact absurd h Bool.false_ne_true
      · rintro ⟨i, j, -, hj', -⟩
        exact absurd (hj.symm.trans hj') (Option.some_ne_none j).symm
    | some j =>
      rw [reachable_iff hi hj]
      by_cases hne : i = j
      · subst hne
        rw [shortestPath_same hi hj]
        exact ⟨fun _ => ⟨[], rfl⟩, fun _ => rfl⟩
      · rcases shortestPath_spec hi hj hne with ⟨w, hw, hpath⟩ | ⟨hnone, hunreachable⟩
        · rw [hpath]
          exact ⟨fun _ => ⟨w, hw.1⟩, fun _ => rfl⟩
        · rw [hnone]
          constructor
          · intro h
            exact absurd h Bool.false_ne_true
          · rintro ⟨w, hw⟩
            exact absurd hw (hunreachable w)

/-- The files of a path are the nodes of a walk. -/
theorem IsPath.walk {path : List PathBuf} (h : IsPath g source target path)
    (hi : g.pathIndex source = some i) (hj : g.pathIndex target = some j) :
    ∃ w, follow g.neighbors i w = some j ∧ path.length = w.length + 1 := by
  induction path generalizing source i with
  | nil => exact absurd h.head (Option.some_ne_none _).symm
  | cons x path ih =>
    obtain rfl : x = source := Option.some.inj h.head
    match path with
    | [] =>
      obtain rfl : x = target := Option.some.inj h.last
      obtain rfl := Option.some.inj (hi.symm.trans hj)
      exact ⟨[], rfl, rfl⟩
    | y :: path =>
      obtain ⟨hxy, hchain⟩ := List.isChain_cons_cons.mp h.edges
      obtain ⟨i', k, hi', hk, hnext⟩ := hxy
      obtain rfl := Option.some.inj (hi.symm.trans hi')
      have hrest : IsPath g y target (y :: path) := by
        refine ⟨rfl, ?_, fun z hz => h.files z (List.mem_cons_of_mem _ hz), hchain⟩
        rw [← h.last, List.getLast?_cons_cons]
      obtain ⟨w, hw, hlen⟩ := ih hrest hk
      obtain ⟨p, hp⟩ := List.mem_iff_getElem?.mp hnext
      refine ⟨p :: w, ?_, congrArg (· + 1) hlen⟩
      rw [follow, hp, Option.bind_some, hw]

/-- The names of nodes that are given to the files of a walk are those of files along edges. -/
structure Named (g : CodebaseGraph) (source target : PathBuf) (i j : ℕ) (w : List ℕ) : Prop where
  source : source = nodeName i
  target : target = nodeName j
  steps : (along g.neighbors i w).IsChain fun k l => Adjacent g (nodeName k) (nodeName l)

theorem isPath_named_iff (hi : g.pathIndex source = some i) (hw : follow g.neighbors i w = some j) :
    IsPath g source target ((along g.neighbors i w).map nodeName) ↔
      Named g source target i j w := by
  have hhead : ((along g.neighbors i w).map nodeName).head? = some (nodeName i) := by
    rw [List.head?_map, head?_along, Option.map_some]
  have hlast : ((along g.neighbors i w).map nodeName).getLast? = some (nodeName j) := by
    rw [List.getLast?_map, getLast?_along hw, Option.map_some]
  constructor
  · intro h
    have hsource := Option.some.inj (h.head.symm.trans hhead)
    have htarget := Option.some.inj (h.last.symm.trans hlast)
    exact ⟨hsource, htarget, (List.isChain_map nodeName).mp h.edges⟩
  · intro h
    have hedges := (List.isChain_map nodeName).mpr h.steps
    refine ⟨by rw [hhead, h.source], by rw [hlast, h.target], ?_, hedges⟩
    -- the first file has an index, and the others end an edge
    refine hedges.induction (fun x => (g.pathIndex x).isSome) _ ?_ ?_
    · rintro x y ⟨k, l, -, hl, -⟩ -
      rw [hl]
      rfl
    · intro hne
      rw [Option.some.inj ((List.head?_eq_some_head hne).symm.trans hhead), ← h.source, hi]
      rfl

/-- What a query for the shortest path between two files is to return, in both of its forms. -/
structure QueriesRight (dijkstra : Dijkstra) (g : CodebaseGraph) (source target : PathBuf) :
    Prop where
  shortest : ShortestRight g source target (shortestPath g source target)
  weighted : (shortestPathWeighted dijkstra g source target).map List.length =
    (shortestPath g source target).map List.length

/-- The files for which the names of the nodes do no harm. -/
structure NamedRight (g : CodebaseGraph) (source target : PathBuf) : Prop where
  same : ∀ i, g.pathIndex source = some i → g.pathIndex target = some i → source = target
  named : ∀ i j w, g.pathIndex source = some i → g.pathIndex target = some j → i ≠ j →
    IsFirst g.neighbors i j w → Named g source target i j w

theorem shortestRight_same (hi : g.pathIndex source = some i) (hj : g.pathIndex target = some i)
    (heq : source = target) : ShortestRight g source target (shortestPath g source target) := by
  subst heq
  refine ⟨isSome_shortestPath, ?_, ?_⟩
  · intro path hpath
    rw [shortestPath_same hi hj] at hpath
    obtain rfl := Option.some.inj hpath
    refine ⟨rfl, rfl, ?_, List.isChain_singleton _⟩
    intro x hx
    rw [List.mem_singleton.mp hx, hi]
    rfl
  · intro path hpath other hother
    rw [shortestPath_same hi hj] at hpath
    obtain rfl := Option.some.inj hpath
    obtain ⟨w, -, hlen⟩ := hother.walk hi hj
    rw [hlen]
    exact Nat.le_add_left 1 _

theorem shortestRight_named (hi : g.pathIndex source = some i) (hj : g.pathIndex target = some j)
    (hne : i ≠ j)
    (hnamed : ∀ w, IsFirst g.neighbors i j w → Named g source target i j w) :
    ShortestRight g source target (shortestPath g source target) := by
  refine ⟨isSome_shortestPath, ?_, ?_⟩
  · intro path hpath
    rcases shortestPath_spec hi hj hne with ⟨w, hw, hresult⟩ | ⟨hnone, -⟩
    · obtain rfl := Option.some.inj (hresult.symm.trans hpath)
      exact (isPath_named_iff hi hw.1).mpr (hnamed w hw)
    · exact absurd (hnone.symm.trans hpath) (Option.some_ne_none path).symm
  · intro path hpath other hother
    rcases shortestPath_spec hi hj hne with ⟨w, hw, hresult⟩ | ⟨hnone, -⟩
    · obtain rfl := Option.some.inj (hresult.symm.trans hpath)
      obtain ⟨v, hv, hlen⟩ := hother.walk hi hj
      rw [List.length_map, length_along hw.1, hlen]
      exact Nat.succ_le_succ (hw.length_le hv)
    · exact absurd (hnone.symm.trans hpath) (Option.some_ne_none path).symm

theorem ShortestRight.namedRight
    (h : ShortestRight g source target (shortestPath g source target)) :
    NamedRight g source target := by
  constructor
  · intro i hi hj
    have hpath := h.path _ (shortestPath_same hi hj)
    exact Option.some.inj hpath.last
  · intro i j w hi hj hne hw
    rcases shortestPath_spec hi hj hne with ⟨v, hv, hresult⟩ | ⟨-, hunreachable⟩
    · rw [hw.unique hv]
      exact (isPath_named_iff hi hv.1).mp (h.path _ hresult)
    · exact absurd hw.1 (hunreachable w)

theorem NamedRight.shortestRight (h : NamedRight g source target) :
    ShortestRight g source target (shortestPath g source target) := by
  by_cases hindexed : ∃ i j, g.pathIndex source = some i ∧ g.pathIndex target = some j
  · obtain ⟨i, j, hi, hj⟩ := hindexed
    by_cases hne : i = j
    · subst hne
      exact shortestRight_same hi hj (h.same i hi hj)
    · exact shortestRight_named hi hj hne fun w => h.named i j w hi hj hne
  · -- a file without a node is not reached, and nothing is returned
    have hunreachable : ¬ Reachable g source target := by
      rintro ⟨i, j, hi, hj, -⟩
      exact hindexed ⟨i, j, hi, hj⟩
    have hnone : shortestPath g source target = none :=
      Option.not_isSome_iff_eq_none.mp fun h => hunreachable (isSome_shortestPath.mp h)
    refine ⟨isSome_shortestPath, ?_, ?_⟩
    · intro path hpath
      exact absurd (hnone.symm.trans hpath) (Option.some_ne_none path).symm
    · intro path hpath
      exact absurd (hnone.symm.trans hpath) (Option.some_ne_none path).symm

/-- If the costs are those of the nodes that can be reached, both queries return the same. -/
theorem shortestPathWeighted_eq {dijkstra : Dijkstra}
    (hdijkstra : ∀ i j, (dijkstra g i (some j) j).isSome ↔
      Relation.ReflTransGen (fun x y => y ∈ g.neighbors x) i j) :
    shortestPathWeighted dijkstra g source target = shortestPath g source target := by
  cases hi : g.pathIndex source with
  | none => rw [shortestPathWeighted, shortestPath, hi, Option.bind_none, Option.bind_none]
  | some i =>
    cases hj : g.pathIndex target with
    | none =>
      rw [shortestPathWeighted, shortestPath, hi, hj]
      rfl
    | some j =>
      rw [shortestPathWeighted, hi, hj, Option.bind_some, Option.bind_some]
      by_cases hcost : (dijkstra g i (some j) j).isSome
      · rw [if_pos hcost]
      · rw [if_neg hcost]
        have hunreachable : ¬ Reachable g source target := by
          rw [reachable_iff hi hj, ← reflTransGen_iff_follow, ← hdijkstra]
          exact hcost
        exact (Option.not_isSome_iff_eq_none.mp fun h =>
          hunreachable (isSome_shortestPath.mp h)).symm

/-- The queries are right if and only if the names of the nodes on the first walk do no harm. -/
theorem queries_right_iff {dijkstra : Dijkstra}
    (hdijkstra : ∀ i j, (dijkstra g i (some j) j).isSome ↔
      Relation.ReflTransGen (fun x y => y ∈ g.neighbors x) i j) :
    QueriesRight dijkstra g source target ↔ NamedRight g source target := by
  constructor
  · intro h
    exact h.shortest.namedRight
  · intro h
    exact ⟨h.shortestRight, by rw [shortestPathWeighted_eq hdijkstra]⟩

end Queries

/-! ### Two files -/

namespace TwoFiles

/-- A file that imports another one. -/
def graph (x y : PathBuf) : CodebaseGraph where
  nodes := [⟨x, "rust", 0, 0, ""⟩, ⟨y, "rust", 0, 0, ""⟩]
  edges := [(0, 1, ⟨.import, none⟩)]
  pathIndex path := if path = x then some 0 else if path = y then some 1 else none

/-- The ends of the walks of a length. -/
def hops (g : CodebaseGraph) (i : ℕ) : ℕ → List ℕ
  | 0 => [i]
  | n + 1 => (hops g i n).flatMap g.neighbors

/-- The costs with the unit weights. -/
def unitDijkstra : Dijkstra := fun g i _ j =>
  (List.range g.nodes.length).find? fun n => j ∈ hops g i n

theorem neighbors_graph (x y : PathBuf) (i : ℕ) :
    (graph x y).neighbors i = if i = 0 then [1] else [] := by
  by_cases hi : i = 0
  · subst hi
    rfl
  · have hne : ¬ 0 = i := fun h => hi h.symm
    rw [if_neg hi]
    simp [CodebaseGraph.neighbors, graph, hne]

theorem step_graph {x y : PathBuf} {k l : ℕ} (h : l ∈ (graph x y).neighbors k) : k = 0 ∧ l = 1 := by
  rw [neighbors_graph] at h
  split at h
  case isTrue hk => exact ⟨hk, List.mem_singleton.mp h⟩
  case isFalse => exact absurd h List.not_mem_nil

theorem unitDijkstra_graph (x y : PathBuf) (i j : ℕ) :
    (unitDijkstra (graph x y) i (some j) j).isSome ↔
      Relation.ReflTransGen (fun k l => l ∈ (graph x y).neighbors k) i j := by
  have hrange : List.range (graph x y).nodes.length = [0, 1] := rfl
  rw [unitDijkstra, hrange, List.find?_isSome]
  constructor
  · rintro ⟨n, hn, hj⟩
    rcases List.mem_pair.mp hn with rfl | rfl
    · rw [decide_eq_true_eq, hops, List.mem_singleton] at hj
      rw [hj]
    · rw [decide_eq_true_eq, hops, hops, List.flatMap_singleton] at hj
      exact .single hj
  · intro h
    rcases Relation.ReflTransGen.cases_tail h with rfl | ⟨k, hwalk, hstep⟩
    · exact ⟨0, List.mem_cons_self, decide_eq_true (List.mem_singleton.mpr rfl)⟩
    · obtain ⟨rfl, rfl⟩ := step_graph hstep
      -- no edge leads to the first node
      rcases Relation.ReflTransGen.cases_tail hwalk with rfl | ⟨k, -, hstep'⟩
      · refine ⟨1, List.mem_cons_of_mem _ List.mem_cons_self, decide_eq_true ?_⟩
        rw [hops, hops, List.flatMap_singleton]
        exact hstep
      · exact absurd (step_graph hstep').2 Nat.zero_ne_one

/-- Files that are named as their nodes. -/
theorem named_right : NamedRight (graph ["node_0"] ["node_1"]) ["node_0"] ["node_1"] := by
  constructor
  · intro i hi hj
    exact absurd (hi.trans hj.symm) (by decide +kernel)
  · intro i j w hi hj _ hw
    obtain rfl : 0 = i := Option.some.inj hi
    obtain rfl : 1 = j := Option.some.inj hj
    have hone : IsFirst (graph ["node_0"] ["node_1"]).neighbors 0 1 [0] := by
      refine ⟨rfl, fun v hv => ?_⟩
      rcases List.eq_nil_or_concat' v with rfl | ⟨v, p, rfl⟩
      · exact fun h => Nat.zero_ne_one (Option.some.inj h)
      · rw [← List.nil_append [0], before_concat] at hv
        rcases hv with hv | ⟨-, hp⟩
        · exact absurd hv (not_before_nil v)
        · exact absurd hp (Nat.not_lt_zero p)
    rw [hw.unique hone]
    refine ⟨by decide +kernel, by decide +kernel, ?_⟩
    refine List.isChain_pair.mpr ⟨0, 1, by decide +kernel, by decide +kernel, ?_⟩
    exact List.mem_singleton.mpr rfl

theorem queries_right_named :
    QueriesRight unitDijkstra (graph ["node_0"] ["node_1"]) ["node_0"] ["node_1"] :=
  (queries_right_iff (unitDijkstra_graph ["node_0"] ["node_1"])).mpr named_right

/-- The path from one file to another has neither of them. -/
theorem not_queries_right :
    ¬ QueriesRight unitDijkstra (graph ["a.rs"] ["b.rs"]) ["a.rs"] ["b.rs"] := by
  intro h
  have hpath : shortestPath (graph ["a.rs"] ["b.rs"]) ["a.rs"] ["b.rs"] =
      some [["node_0"], ["node_1"]] := by decide +kernel
  exact absurd (h.shortest.path _ hpath).head (by decide +kernel)

end TwoFiles

end GraphQuery

end HeliosLite
