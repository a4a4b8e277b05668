import HeliosLite.Graph.Builder
import Mathlib.Data.List.Perm.Basic

/-!
# Nodes and edges of a codebase graph

The edges of a graph are compared by the paths of their nodes, since two builds may number the
nodes differently. Parsing adds to them one edge for each import that can be resolved.

## Main definitions

* `CodebaseGraph.SameAs` — two graphs with the same nodes and edges
* `CodebaseGraph.Sound` — the index lists the nodes, and the edges have their nodes
* `CodebaseGraph.importLinks` — the edges that a text adds

## Main results

* `CodebaseGraph.Sound.nodeByPath_upsertNode` — insertion changes one node
* `CodebaseGraph.Sound.parseEdges` — what parsing adds to a graph
-/

namespace HeliosLite

open Theory

/-! ### Graphs -/

namespace CodebaseGraph

variable {g h : CodebaseGraph} {path : PathBuf}

/-- The path of a node. -/
def pathAt (g : CodebaseGraph) (i : ℕ) : Option PathBuf := g.nodes[i]?.map (·.path)

/-- An edge with the paths of its nodes. -/
def named (g : CodebaseGraph) (e : ℕ × ℕ × Edge) : Option (PathBuf × PathBuf × Edge) := do
  let source ← g.pathAt e.1
  let target ← g.pathAt e.2.1
  some (source, target, e.2.2)

def namedEdges (g : CodebaseGraph) : List (PathBuf × PathBuf × Edge) := g.edges.filterMap g.named

/-- The edges of the file with a path. -/
def edgesFrom (g : CodebaseGraph) (path : PathBuf) : List (PathBuf × PathBuf × Edge) :=
  g.namedEdges.filter (·.1 = path)

end CodebaseGraph

/-- A node without the time at which it was made. -/
def Node.described (n : Node) : Node := { n with lastModified := 0 }

namespace CodebaseGraph

variable {g h : CodebaseGraph} {path : PathBuf}

/-- The graphs have the same nodes and the same multiset of edges. -/
structure SameAs (g h : CodebaseGraph) : Prop where
  nodes : ∀ path, (g.nodeByPath path).map Node.described = (h.nodeByPath path).map Node.described
  edges : g.namedEdges.Perm h.namedEdges

/-- The index lists the nodes, and the edges have their nodes. -/
structure Sound (g : CodebaseGraph) : Prop where
  index : ∀ path i, g.pathIndex path = some i ↔ g.pathAt i = some path
  edges : ∀ e ∈ g.edges, e.1 < g.nodes.length ∧ e.2.1 < g.nodes.length

theorem sound_new : new.Sound where
  index := by
    intro path i
    simp [new, pathAt]
  edges := by
    intro e he
    cases he

theorem Sound.isSome_index (hg : g.Sound) (path : PathBuf) :
    (g.pathIndex path).isSome = (g.nodeByPath path).isSome := by
  unfold nodeByPath
  cases hindex : g.pathIndex path with
  | none => rfl
  | some i =>
    have hpath := (hg.index path i).mp hindex
    obtain ⟨node, hnode, -⟩ := Option.map_eq_some_iff.mp hpath
    simp [hnode]

theorem lt_of_pathAt {i : ℕ} (h : g.pathAt i = some path) : i < g.nodes.length := by
  obtain ⟨node, hnode, -⟩ := Option.map_eq_some_iff.mp h
  exact (List.getElem?_eq_some_iff.mp hnode).1

/-- A file without a node has no edges. -/
theorem Sound.edgesFrom_eq_nil (hg : g.Sound) (h : g.nodeByPath path = none) :
    g.edgesFrom path = [] := by
  rw [edgesFrom, List.filter_eq_nil_iff]
  intro e he
  obtain ⟨⟨i, j, edge⟩, -, hnamed⟩ := List.mem_filterMap.mp he
  obtain ⟨source, hsource, hrest⟩ := Option.bind_eq_some_iff.mp hnamed
  obtain ⟨target, -, htarget⟩ := Option.bind_eq_some_iff.mp hrest
  obtain rfl := Option.some.inj htarget
  have hindex := (hg.index source i).mpr hsource
  simp only [decide_eq_true_eq]
  rintro rfl
  have hsome := hg.isSome_index source
  rw [hindex, h] at hsome
  cases hsome

/-- Nodes may be added and replaced by nodes with the same path. -/
theorem Sound.namedEdges_eq (hg : g.Sound) (hedges : h.edges = g.edges)
    (hpath : ∀ i < g.nodes.length, h.pathAt i = g.pathAt i) : h.namedEdges = g.namedEdges := by
  rw [namedEdges, namedEdges, hedges]
  apply List.filterMap_congr
  intro e he
  obtain ⟨hsource, htarget⟩ := hg.edges e he
  rw [named, named, hpath _ hsource, hpath _ htarget]

/-! ### Insertion -/

theorem edges_upsertNode (g : CodebaseGraph) (node : Node) :
    (g.upsertNode node).edges = g.edges := by
  unfold upsertNode
  cases g.pathIndex node.path <;> rfl

theorem Sound.pathAt_upsertNode (hg : g.Sound) (node : Node) {i : ℕ} (hi : i < g.nodes.length) :
    (g.upsertNode node).pathAt i = g.pathAt i := by
  unfold upsertNode
  cases hindex : g.pathIndex node.path with
  | some j =>
    by_cases hij : j = i
    · subst hij
      rw [(hg.index node.path j).mp hindex]
      simp [pathAt, hi]
    · simp [pathAt, hij]
  | none => simp [pathAt, List.getElem?_append_left hi]

theorem Sound.upsertNode (hg : g.Sound) (node : Node) : (g.upsertNode node).Sound := by
  unfold CodebaseGraph.upsertNode
  cases hindex : g.pathIndex node.path with
  | some j =>
    have hj := (hg.index node.path j).mp hindex
    refine ⟨?_, by simpa using hg.edges⟩
    intro path i
    rw [hg.index]
    by_cases hij : j = i
    · subst hij
      rw [hj]
      simp [pathAt, lt_of_pathAt hj]
    · simp [pathAt, hij]
  | none =>
    constructor
    · intro path i
      simp only [pathAt, Function.update_apply]
      by_cases hi : i < g.nodes.length
      · rw [List.getElem?_append_left hi]
        have hold := hg.index path i
        by_cases hpath : path = node.path
        · subst hpath
          rw [hindex] at hold
          rw [if_pos rfl, ← pathAt, ← hold]
          simp [hi.ne']
        · rw [if_neg hpath, ← pathAt, hold]
      · have hnone : g.pathIndex path ≠ some i := fun h => hi (lt_of_pathAt ((hg.index _ _).mp h))
        by_cases hlast : i = g.nodes.length
        · subst hlast
          simp [eq_comm, hnone.symm]
        · have hlen : g.nodes.length + 1 ≤ i := by omega
          rw [List.getElem?_eq_none (by simpa using hlen)]
          split_ifs with hpath
          · simp [Ne.symm hlast]
          · simp [hnone]
    · intro e he
      have hold := hg.edges e he
      simp only [List.length_append, List.length_cons, List.length_nil]
      omega

theorem Sound.nodeByPath_upsertNode (hg : g.Sound) (node : Node) (path : PathBuf) :
    (g.upsertNode node).nodeByPath path =
      if path = node.path then some node else g.nodeByPath path := by
  unfold CodebaseGraph.upsertNode nodeByPath
  cases hindex : g.pathIndex node.path with
  | some j =>
    have hj := (hg.index node.path j).mp hindex
    by_cases hpath : path = node.path
    · subst hpath
      simp [hindex, lt_of_pathAt hj]
    · rw [if_neg hpath]
      cases hother : g.pathIndex path with
      | none => simp
      | some i =>
        have hne : j ≠ i := by
          rintro rfl
          have hi := (hg.index path j).mp hother
          exact hpath (Option.some.inj (hi.symm.trans hj))
        simp [List.getElem?_set, hne]
  | none =>
    by_cases hpath : path = node.path
    · subst hpath
      simp
    · rw [if_neg hpath]
      simp only [Function.update_of_ne hpath]
      cases hother : g.pathIndex path with
      | none => rfl
      | some i =>
        have hi := lt_of_pathAt ((hg.index path i).mp hother)
        simp [List.getElem?_append_left hi]

end CodebaseGraph

/-! ### Parsing -/

/-- The edge of an import, for a graph that has certain files. -/
def importLink (has : PathBuf → Bool) (path : PathBuf) (importStr : String) :
    Option (PathBuf × PathBuf × Edge) :=
  ((importCandidates importStr path).find? has).map fun target =>
    (path, target, importEdge importStr)

namespace CodebaseGraph

variable {g h : CodebaseGraph} {path : PathBuf} {links : List (PathBuf × PathBuf × Edge)}

/-- The graph has a file. -/
def has (g : CodebaseGraph) (path : PathBuf) : Bool := (g.nodeByPath path).isSome

theorem Sound.resolveImport_eq (hg : g.Sound) (importStr : String) (path : PathBuf) :
    (resolveImport importStr path g.pathIndex).bind g.pathAt =
      (importCandidates importStr path).find? g.has := by
  rw [resolveImport]
  induction importCandidates importStr path with
  | nil => rfl
  | cons candidate rest ih =>
    rw [List.findSome?_cons, List.find?_cons, has, ← hg.isSome_index]
    cases hindex : g.pathIndex candidate with
    | none => exact ih
    | some i => exact (hg.index candidate i).mp hindex

/-- The graph `h` has the nodes of `g`, and its edges and these. -/
structure Parsed (g h : CodebaseGraph) (links : List (PathBuf × PathBuf × Edge)) : Prop where
  nodes : h.nodes = g.nodes
  index : h.pathIndex = g.pathIndex
  edges : h.namedEdges = g.namedEdges ++ links
  sound : h.Sound

theorem Parsed.refl (hg : g.Sound) : g.Parsed g [] := ⟨rfl, rfl, (List.append_nil _).symm, hg⟩

theorem Parsed.pathAt_eq (hgh : g.Parsed h links) (i : ℕ) : h.pathAt i = g.pathAt i := by
  rw [pathAt, pathAt, hgh.nodes]

theorem Parsed.nodeByPath_eq (hgh : g.Parsed h links) (path : PathBuf) :
    h.nodeByPath path = g.nodeByPath path := by
  rw [nodeByPath, nodeByPath, hgh.nodes, hgh.index]

theorem Parsed.addEdge (hgh : g.Parsed h links) {source target : ℕ} {dest : PathBuf}
    (hsource : g.pathAt source = some path) (htarget : g.pathAt target = some dest) (edge : Edge) :
    g.Parsed (h.addEdge source target edge) (links ++ [(path, dest, edge)]) where
  nodes := hgh.nodes
  index := hgh.index
  edges := by
    have hnamed : h.named (source, target, edge) = some (path, dest, edge) := by
      simp [named, hgh.pathAt_eq, hsource, htarget]
    have hold : (h.edges.filterMap h.named) = g.namedEdges ++ links := hgh.edges
    change (h.edges ++ [(source, target, edge)]).filterMap h.named = _
    rw [List.filterMap_append, hold, List.filterMap_cons, hnamed, List.append_assoc]
    rfl
  sound := by
    refine ⟨hgh.sound.index, ?_⟩
    intro e he
    rcases List.mem_append.mp he with he | he
    · exact hgh.sound.edges e he
    · obtain rfl := List.mem_singleton.mp he
      rw [CodebaseGraph.addEdge, hgh.nodes]
      exact ⟨lt_of_pathAt hsource, lt_of_pathAt htarget⟩

theorem Parsed.parseImport (hg : g.Sound) (hgh : g.Parsed h links) {source : ℕ}
    (hsource : g.pathAt source = some path) (importStr : String) :
    g.Parsed (parseImport g.pathIndex path source h importStr)
      (links ++ (importLink g.has path importStr).toList) := by
  have hresolve := hg.resolveImport_eq importStr path
  unfold HeliosLite.parseImport importLink
  rw [← hresolve]
  cases hfound : resolveImport importStr path g.pathIndex with
  | none => simpa using hgh
  | some target =>
    obtain ⟨dest, -, hdest⟩ := List.exists_of_findSome?_eq_some hfound
    have htarget := (hg.index dest target).mp hdest
    rw [Option.bind_some, htarget]
    exact hgh.addEdge hsource htarget _

theorem Parsed.parseImports (hg : g.Sound) {source : ℕ} (hsource : g.pathAt source = some path)
    (importStrs : List String) (hgh : g.Parsed h links) :
    g.Parsed (importStrs.foldl (HeliosLite.parseImport g.pathIndex path source) h)
      (links ++ importStrs.filterMap (importLink g.has path)) := by
  induction importStrs generalizing h links with
  | nil => simpa using hgh
  | cons importStr rest ih =>
    have hnext := ih (hgh.parseImport hg hsource importStr)
    rw [List.foldl_cons]
    cases hlink : importLink g.has path importStr with
    | none => simpa [hlink] using hnext
    | some link => simpa [hlink] using hnext

section Parse

variable [ScanLibraries]

/-- The edges that a text adds, for a graph that has certain files. -/
def importLinks (has : PathBuf → Bool) (file : PathBuf × String) :
    List (PathBuf × PathBuf × Edge) :=
  (importsOf file.1 file.2).filterMap (importLink has file.1)

theorem Parsed.parseFile (hg : g.Sound) (hgh : g.Parsed h links) {file : PathBuf × String}
    (hfile : g.has file.1) :
    g.Parsed (parseFile g.pathIndex h file) (links ++ importLinks g.has file) := by
  rw [has, ← hg.isSome_index] at hfile
  obtain ⟨source, hsource⟩ := Option.isSome_iff_exists.mp hfile
  rw [HeliosLite.parseFile, hsource]
  exact hgh.parseImports hg ((hg.index _ _).mp hsource) _

/-- Parsing adds the edges of each text. -/
theorem Sound.parseEdges (hg : g.Sound) (contents : List (PathBuf × String))
    (hcontents : ∀ file ∈ contents, g.has file.1) :
    g.Parsed (parseEdges g contents) (contents.flatMap (importLinks g.has)) := by
  have hfold : ∀ {h : CodebaseGraph} {links}, g.Parsed h links →
      g.Parsed (contents.foldl (HeliosLite.parseFile g.pathIndex) h)
        (links ++ contents.flatMap (importLinks g.has)) := by
    induction contents with
    | nil =>
      intro h links hgh
      simpa using hgh
    | cons file rest ih =>
      intro h links hgh
      obtain ⟨hfile, hrest⟩ := List.forall_mem_cons.mp hcontents
      rw [List.foldl_cons, List.flatMap_cons, ← List.append_assoc]
      exact ih hrest (hgh.parseFile hg hfile)
  exact hfold (.refl hg)

end Parse

end CodebaseGraph

end HeliosLite
