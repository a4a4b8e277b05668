import HeliosLite.Graph.Parsing
import HeliosLite.Graph.Query
import HeliosLite.Theory.Closure

/-!
# Dependents of a file

An edge leads from a file to one on which it depends. The files that depend on a file, directly or
through others, are found by a search along the edges to it.

## Main definitions

* `GraphQuery.findDependents`, `GraphQuery.findDependencies` — the files at the edges of a file
* `GraphQuery.findTransitiveDependents` — the files from which a file can be reached

## Main results

* `nodup_findTransitiveDependents`, `mem_findTransitiveDependents_iff` — the search lists each of
  them once, whatever the order of the hash set
-/

namespace HeliosLite

open Theory

/-- The sources of the edges to a node, the newest edge first. -/
def CodebaseGraph.incoming (g : CodebaseGraph) (i : ℕ) : List ℕ :=
  ((g.edges.filter fun e => e.2.1 = i).map Prod.fst).reverse

namespace GraphQuery

/-! ### The queries -/

/-- The order in which a hash set of nodes gives them. -/
structure SetOrder where
  order : List ℕ → List ℕ
  perm : ∀ nodes, (order nodes).Perm nodes

def findDependents (g : CodebaseGraph) (path : PathBuf) : List Node :=
  match g.pathIndex path with
  | none => []
  | some i => (g.incoming i).filterMap fun n => g.nodes[n]?

def findDependencies (g : CodebaseGraph) (path : PathBuf) : List Node :=
  match g.pathIndex path with
  | none => []
  | some i => (g.neighbors i).filterMap fun n => g.nodes[n]?

/-- Every node but the first is found by an edge. -/
def transitiveDependents (g : CodebaseGraph) (i : ℕ) : List ℕ :=
  closure g.incoming (g.edges.length + 1) i

def findTransitiveDependents (hash : SetOrder) (g : CodebaseGraph) (path : PathBuf) : List Node :=
  match g.pathIndex path with
  | none => []
  | some i =>
    ((hash.order (transitiveDependents g i)).filterMap fun n => g.nodes[n]?).filter fun node =>
      node.path ≠ path

variable {g : CodebaseGraph} {hash : SetOrder} {path : PathBuf} {i j : ℕ}

/-! ### Edges in both directions -/

theorem mem_incoming_iff : j ∈ g.incoming i ↔ i ∈ g.neighbors j := by
  simp only [CodebaseGraph.incoming, CodebaseGraph.neighbors, List.mem_reverse, List.mem_map,
    List.mem_filter, decide_eq_true_eq]
  constructor
  · rintro ⟨e, ⟨he, rfl⟩, rfl⟩
    exact ⟨e, ⟨he, rfl⟩, rfl⟩
  · rintro ⟨e, ⟨he, rfl⟩, rfl⟩
    exact ⟨e, ⟨he, rfl⟩, rfl⟩

theorem reflTransGen_incoming_iff :
    Relation.ReflTransGen (fun x y => y ∈ g.incoming x) i j ↔
      Relation.ReflTransGen (fun x y => y ∈ g.neighbors x) j i := by
  have hswap : (fun x y => y ∈ g.incoming x) = Function.swap fun x y => y ∈ g.neighbors x :=
    funext fun x => funext fun y => propext mem_incoming_iff
  rw [hswap, Relation.reflTransGen_swap]

/-! ### What the search visits -/

/-- The nodes from which a node can be reached are the node itself and the sources of edges. -/
theorem mem_of_reaches (h : Relation.ReflTransGen (fun x y => y ∈ g.incoming x) i j) :
    j ∈ i :: g.edges.map Prod.fst := by
  rcases Relation.ReflTransGen.cases_tail h with rfl | ⟨k, -, hstep⟩
  · exact List.mem_cons_self
  · obtain ⟨e, he, rfl⟩ := List.mem_map.mp (List.mem_reverse.mp hstep)
    exact List.mem_cons_of_mem _ (List.mem_map_of_mem (List.mem_of_mem_filter he))

theorem mem_transitiveDependents_iff :
    j ∈ transitiveDependents g i ↔ Relation.ReflTransGen (fun x y => y ∈ g.neighbors x) j i := by
  rw [← reflTransGen_incoming_iff]
  have hnodes : ∀ k, Relation.ReflTransGen (fun x y => y ∈ g.incoming x) i k →
      k ∈ i :: g.edges.map Prod.fst := fun k => mem_of_reaches
  exact mem_closure_iff hnodes (by rw [List.length_cons, List.length_map])

theorem nodup_transitiveDependents (g : CodebaseGraph) (i : ℕ) :
    (transitiveDependents g i).Nodup := by
  have hnodes : ∀ k, Relation.ReflTransGen (fun x y => y ∈ g.incoming x) i k →
      k ∈ i :: g.edges.map Prod.fst := fun k => mem_of_reaches
  exact nodup_closure hnodes (by rw [List.length_cons, List.length_map])

/-! ### The files -/

/-- A node is the one with its path. -/
theorem pathIndex_of_node (hg : g.Sound) {n : ℕ} {node : Node} (h : g.nodes[n]? = some node) :
    g.pathIndex node.path = some n := by
  rw [hg.index, CodebaseGraph.pathAt, h]
  rfl

/-- Of some nodes of the graph the files other than one are listed. -/
theorem mem_otherFiles_iff (hg : g.Sound) {nodes : List ℕ} {node : Node} :
    node ∈ ((nodes.filterMap fun n => g.nodes[n]?).filter fun node => node.path ≠ path) ↔
      node.path ≠ path ∧ ∃ n ∈ nodes, g.pathIndex node.path = some n ∧
        g.nodeByPath node.path = some node := by
  rw [List.mem_filter, List.mem_filterMap, decide_eq_true_eq, and_comm]
  refine and_congr_right fun _ => exists_congr fun n => and_congr_right fun _ => ?_
  constructor
  · intro h
    have hindex := pathIndex_of_node hg h
    exact ⟨hindex, by rw [CodebaseGraph.nodeByPath, hindex, Option.bind_some, h]⟩
  · rintro ⟨hindex, h⟩
    rwa [CodebaseGraph.nodeByPath, hindex, Option.bind_some] at h

/-- The nodes of the files that depend on a file, directly or through others, each once. -/
structure ListsDependents (g : CodebaseGraph) (path : PathBuf) (nodes : List Node) : Prop where
  nodup : nodes.Nodup
  mem_iff : ∀ node, node ∈ nodes ↔
    g.nodeByPath node.path = some node ∧ node.path ≠ path ∧ Reachable g node.path path

theorem listsDependents_of_index (hg : g.Sound) (hash : SetOrder) (hi : g.pathIndex path = some i) :
    ListsDependents g path (findTransitiveDependents hash g path) := by
  have hmem : ∀ n, n ∈ hash.order (transitiveDependents g i) ↔
      Relation.ReflTransGen (fun x y => y ∈ g.neighbors x) n i := fun n =>
    (hash.perm _).mem_iff.trans mem_transitiveDependents_iff
  rw [findTransitiveDependents, hi]
  constructor
  · refine List.Nodup.filter _ (List.Nodup.filterMap ?_ ?_)
    · intro n m node hn hm
      exact Option.some.inj ((pathIndex_of_node hg hn).symm.trans (pathIndex_of_node hg hm))
    · exact (hash.perm _).nodup_iff.mpr (nodup_transitiveDependents g i)
  · intro node
    rw [mem_otherFiles_iff hg]
    constructor
    · rintro ⟨hne, n, hn, hindex, hnode⟩
      exact ⟨hnode, hne, n, i, hindex, hi, (hmem n).mp hn⟩
    · rintro ⟨hnode, hne, n, j, hindex, hj, hreach⟩
      obtain rfl := Option.some.inj (hi.symm.trans hj)
      exact ⟨hne, n, (hmem n).mpr hreach, hindex, hnode⟩

/-- The query lists the files from which the file can be reached along edges. -/
theorem findTransitiveDependents_lists (hg : g.Sound) (hash : SetOrder) (path : PathBuf) :
    ListsDependents g path (findTransitiveDependents hash g path) := by
  cases hi : g.pathIndex path with
  | some i => exact listsDependents_of_index hg hash hi
  | none =>
    rw [findTransitiveDependents, hi]
    constructor
    · exact List.nodup_nil
    · intro node
      constructor
      · intro h
        exact absurd h List.not_mem_nil
      · rintro ⟨-, -, n, j, -, hj, -⟩
        exact absurd (hi.symm.trans hj) (Option.some_ne_none j).symm

end GraphQuery

/-- An edge between nodes of the graph keeps the graph sound. -/
theorem CodebaseGraph.Sound.addEdge {g : CodebaseGraph} (hg : g.Sound) {i j : ℕ}
    (hi : i < g.nodes.length) (hj : j < g.nodes.length) (edge : Edge) :
    (g.addEdge i j edge).Sound where
  index := hg.index
  edges e he := by
    rcases List.mem_append.mp he with he | he
    · exact hg.edges e he
    · rw [List.mem_singleton.mp he]
      exact ⟨hi, hj⟩

namespace MutualImports

/-- Files by name; the content does not matter. -/
def node (name : String) : Node :=
  { path := [name], language := "rust", size := 0, lastModified := 0, contentHash := "" }

def files : CodebaseGraph := ((CodebaseGraph.new.upsertNode (node "a.rs")).upsertNode
  (node "b.rs")).upsertNode (node "c.rs")

/-- Two files import each other, and a third one imports one of them. -/
def graph : CodebaseGraph :=
  ((files.addEdge 0 1 (importEdge "b")).addEdge 1 0 (importEdge "a")).addEdge 2 1 (importEdge "b")

theorem sound_graph : graph.Sound := by
  have hfiles : files.Sound :=
    ((CodebaseGraph.sound_new.upsertNode _).upsertNode _).upsertNode _
  have hlength : files.nodes.length = 3 := by decide
  refine ((hfiles.addEdge ?_ ?_ _).addEdge ?_ ?_ _).addEdge ?_ ?_ _ <;>
    simp [CodebaseGraph.addEdge, hlength]

def listed : GraphQuery.SetOrder := ⟨id, fun _ => .refl _⟩

end MutualImports

open MutualImports in
theorem findTransitiveDependents_lists_mutual :
    GraphQuery.ListsDependents graph ["a.rs"] [node "c.rs", node "b.rs"] :=
  GraphQuery.findTransitiveDependents_lists sound_graph listed ["a.rs"]

end HeliosLite
