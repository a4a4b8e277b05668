import HeliosLite.Graph.Parsing
import HeliosLite.Theory.Entries
import HeliosLite.Theory.Run

/-!
# Incremental builds

A build that starts from an existing graph skips the files whose content the graph has, and only
adds to it. So it keeps the nodes of deleted files and the edges of edited ones, and it does not
see that an import of a skipped file has come to name another file.

## Main definitions

* `Unaffected` — a change of the files that an incremental build takes in
* `Snapshot` — a graph with the source tree from which it was built
* `SameAsScratch` — the last graph is the one that a build from scratch gives

## Main results

* `GraphBuilder.scanned_foldl` — the first phase treats each file on its own
* `GraphBuilder.exists_built` — what a build does to a graph
* `GraphBuilder.sameAs_iff_fits` — when an existing graph does no harm
* `GraphBuilder.run_sameAsScratch_iff` — when every build of a history gives the graph that a
  build from scratch gives
-/

namespace HeliosLite

open Theory ScanLibraries

/-! ### Walks -/

namespace GraphBuilder

variable {ignores : List String}

theorem exists_of_bind_eq_ok {ε α β : Type} {x : Except ε α} {f : α → Except ε β} {b : β}
    (h : x.bind f = .ok b) : ∃ a, x = .ok a ∧ f a = .ok b := by
  cases x with
  | error e => cases h
  | ok a => exact ⟨a, rfl, h⟩

/-- A walk finds files under the entries of the directory. -/
theorem walkDir_under {l : Listing} {dir : PathBuf} {files : SourceFiles}
    (h : walkDir ignores dir l = .ok files) {file : PathBuf × Option ByteArray}
    (hfile : file ∈ files) : ∃ name ∈ l.names, dir ++ [name] <+: file.1 := by
  induction l generalizing dir files with
  | nil =>
    obtain rfl := Except.ok.inj h
    cases hfile
  | fails => cases h
  | file name content rest ih =>
    obtain ⟨later, hlater, hfiles⟩ := exists_of_bind_eq_ok h
    obtain rfl := Except.ok.inj hfiles
    have hmem : file = (dir ++ [name], content) ∨ file ∈ later := by
      split_ifs at hfile
      · exact List.mem_cons.mp hfile
      · exact Or.inr hfile
    rcases hmem with rfl | hmem
    · exact ⟨name, List.mem_cons_self, List.prefix_rfl⟩
    · obtain ⟨other, hother, hunder⟩ := ih hlater hmem
      exact ⟨other, List.mem_cons_of_mem _ hother, hunder⟩
  | unreadable name rest ih =>
    rw [walkDir] at h
    split_ifs at h
    obtain ⟨other, hother, hunder⟩ := ih h hfile
    exact ⟨other, List.mem_cons_of_mem _ hother, hunder⟩
  | dir name entries rest ihentries ih =>
    rw [walkDir] at h
    split_ifs at h
    · obtain ⟨other, hother, hunder⟩ := ih h hfile
      exact ⟨other, List.mem_cons_of_mem _ hother, hunder⟩
    · obtain ⟨inner, hinner, hrest⟩ := exists_of_bind_eq_ok h
      obtain ⟨later, hlater, hfiles⟩ := exists_of_bind_eq_ok hrest
      obtain rfl := Except.ok.inj hfiles
      rcases List.mem_append.mp hfile with hmem | hmem
      · obtain ⟨other, -, hunder⟩ := ihentries hinner hmem
        exact ⟨name, List.mem_cons_self, (List.prefix_append _ _).trans hunder⟩
      · obtain ⟨other, hother, hunder⟩ := ih hlater hmem
        exact ⟨other, List.mem_cons_of_mem _ hother, hunder⟩

/-- Two entries with files on the same path have the same name. -/
theorem name_eq_of_under {dir path : PathBuf} {name other : String}
    (h : dir ++ [name] <+: path) (h' : dir ++ [other] <+: path) : name = other := by
  have heq := List.prefix_of_prefix_length_le h h' (by simp)
  simpa using heq

/-- A walk finds each path once. -/
theorem nodup_walkDir {l : Listing} (hl : l.Distinct) {dir : PathBuf} {files : SourceFiles}
    (h : walkDir ignores dir l = .ok files) : (files.map Prod.fst).Nodup := by
  induction l generalizing dir files with
  | nil =>
    obtain rfl := Except.ok.inj h
    exact List.nodup_nil
  | fails => cases h
  | file name content rest ih =>
    obtain ⟨later, hlater, hfiles⟩ := exists_of_bind_eq_ok h
    obtain rfl := Except.ok.inj hfiles
    have hrest := ih hl.2 hlater
    split_ifs
    · rw [List.map_cons, List.nodup_cons]
      refine ⟨?_, hrest⟩
      intro hmem
      obtain ⟨file, hfile, hpath⟩ := List.mem_map.mp hmem
      obtain ⟨other, hother, hunder⟩ := walkDir_under hlater hfile
      rw [hpath] at hunder
      exact hl.1 (name_eq_of_under List.prefix_rfl hunder ▸ hother)
    · exact hrest
  | unreadable name rest ih =>
    rw [walkDir] at h
    split_ifs at h
    exact ih hl.2 h
  | dir name entries rest ihentries ih =>
    rw [walkDir] at h
    split_ifs at h
    · exact ih hl.2.2 h
    · obtain ⟨inner, hinner, hrest⟩ := exists_of_bind_eq_ok h
      obtain ⟨later, hlater, hfiles⟩ := exists_of_bind_eq_ok hrest
      obtain rfl := Except.ok.inj hfiles
      rw [List.map_append, List.nodup_append']
      refine ⟨ihentries hl.2.1 hinner, ih hl.2.2 hlater, ?_⟩
      intro path hpath hpath'
      obtain ⟨file, hfile, rfl⟩ := List.mem_map.mp hpath
      obtain ⟨file', hfile', heq⟩ := List.mem_map.mp hpath'
      obtain ⟨sub, -, hunder⟩ := walkDir_under hinner hfile
      obtain ⟨other, hother, hunder'⟩ := walkDir_under hlater hfile'
      rw [heq] at hunder'
      have hname := name_eq_of_under ((List.prefix_append _ _).trans hunder) hunder'
      exact hl.1 (hname ▸ hother)

theorem nodup_collectSourceFiles {b : GraphBuilder} {tree : SourceTree} {files : SourceFiles}
    (h : b.collectSourceFiles tree = .ok files) : (files.map Prod.fst).Nodup := by
  unfold collectSourceFiles at h
  cases hlisting : tree.listing with
  | none =>
    rw [hlisting] at h
    cases h
  | some listing =>
    rw [hlisting] at h
    obtain ⟨found, hfound, hsorted⟩ := exists_of_bind_eq_ok h
    obtain rfl := Except.ok.inj hsorted
    have hperm := List.perm_insertionSort (fun f g : PathBuf × Option ByteArray => f.1 ≤ g.1) found
    exact (hperm.map Prod.fst).nodup_iff.mpr (nodup_walkDir (tree.distinct _ hlisting) hfound)

end GraphBuilder

/-! ### Scanning -/

/-- What reading a file gives. -/
def readable (files : SourceFiles) (path : PathBuf) : Option ByteArray := (files.lookup path).join

theorem readable_cons (file : PathBuf × Option ByteArray) (files : SourceFiles) (path : PathBuf) :
    readable (file :: files) path = if path = file.1 then file.2 else readable files path := by
  rw [readable, readable, List.lookup_cons]
  by_cases hpath : path = file.1
  · simp [hpath]
  · rw [beq_false_of_ne hpath, if_neg hpath]

theorem readable_of_notMem {files : SourceFiles} {path : PathBuf}
    (h : path ∉ files.map Prod.fst) : readable files path = none := by
  rw [readable, lookup_of_notMem_keys h]
  rfl

/-- The content of a file that was found. -/
theorem readable_of_mem {files : SourceFiles} (hfiles : (files.map Prod.fst).Nodup)
    {file : PathBuf × Option ByteArray} (hfile : file ∈ files) :
    readable files file.1 = file.2 := by
  induction files with
  | nil => cases hfile
  | cons first rest ih =>
    obtain ⟨hnot, hrest⟩ := List.nodup_cons.mp hfiles
    rw [readable_cons]
    rcases List.mem_cons.mp hfile with rfl | hmem
    · rw [if_pos rfl]
    · have hne : file.1 ≠ first.1 := fun heq => hnot (heq ▸ List.mem_map_of_mem hmem)
      rw [if_neg hne, ih hrest hmem]

section Scan

variable [ScanLibraries] {now : PathBuf → ℕ} {g : CodebaseGraph}

namespace GraphBuilder

/-- The text of a file that the graph does not have with this content. -/
def changedText (g : CodebaseGraph) (file : PathBuf × Option ByteArray) :
    List (PathBuf × String) :=
  match file.2 with
  | none => []
  | some bytes =>
    if Unchanged g file.1 bytes then []
    else ((String.fromUTF8? bytes).map (file.1, ·)).toList

/-- The node of a path after a scan. -/
def scannedNode (now : PathBuf → ℕ) (g : CodebaseGraph) (path : PathBuf) :
    Option ByteArray → Option Node
  | none => g.nodeByPath path
  | some bytes =>
    if Unchanged g path bytes then g.nodeByPath path else some (fileNode path bytes (now path))

/-- What the first phase does to a graph. -/
structure Scanned (now : PathBuf → ℕ) (g : CodebaseGraph) (files : SourceFiles)
    (h : CodebaseGraph) : Prop where
  sound : h.Sound
  edges : h.namedEdges = g.namedEdges
  node : ∀ path, h.nodeByPath path = scannedNode now g path (readable files path)

/-- One file changes its own node only. -/
theorem scanFile_spec (hg : g.Sound) (now : PathBuf → ℕ)
    (file : PathBuf × Option ByteArray) (contents : List (PathBuf × String)) :
    Scanned now g [file] (scanFile now (g, contents) file).1 ∧
      (scanFile now (g, contents) file).2 = contents ++ changedText g file := by
  obtain ⟨path, content⟩ := file
  have hread : ∀ other, readable [(path, content)] other =
      if other = path then content else none := by
    intro other
    exact readable_cons _ [] other
  cases content with
  | none =>
    refine ⟨⟨hg, rfl, ?_⟩, (List.append_nil _).symm⟩
    intro other
    rw [hread, ite_self]
    rfl
  | some bytes =>
    by_cases hsame : Unchanged g path bytes
    · simp only [scanFile, changedText, hsame, if_true, List.append_nil, and_true]
      refine ⟨hg, rfl, ?_⟩
      intro other
      rw [hread]
      split_ifs with hother
      · rw [hother, scannedNode, if_pos hsame]
      · rfl
    · simp only [scanFile, changedText, hsame, if_false, and_true]
      refine ⟨hg.upsertNode _, ?_, ?_⟩
      · exact hg.namedEdges_eq (g.edges_upsertNode _) fun i hi => hg.pathAt_upsertNode _ hi
      · intro other
        rw [hread, hg.nodeByPath_upsertNode]
        by_cases hother : other = path
        · subst hother
          rw [if_pos rfl, scannedNode, if_neg hsame]
          simp [fileNode]
        · simp only [fileNode, hother, if_false, scannedNode]

theorem unchanged_congr {h : CodebaseGraph} {path : PathBuf}
    (heq : h.nodeByPath path = g.nodeByPath path) (bytes : ByteArray) :
    Unchanged h path bytes ↔ Unchanged g path bytes := by
  rw [Unchanged, Unchanged, heq]

/-- The first phase treats each file as if it were the only one. -/
theorem scanned_foldl (hg : g.Sound) {files : SourceFiles} (hfiles : (files.map Prod.fst).Nodup)
    (now : PathBuf → ℕ) (contents : List (PathBuf × String)) :
    Scanned now g files (files.foldl (scanFile now) (g, contents)).1 ∧
      (files.foldl (scanFile now) (g, contents)).2 =
        contents ++ files.flatMap (changedText g) := by
  induction files generalizing g contents with
  | nil =>
    refine ⟨⟨hg, rfl, fun _ => rfl⟩, (List.append_nil _).symm⟩
  | cons file files ih =>
    obtain ⟨hnot, hfiles⟩ := List.nodup_cons.mp hfiles
    obtain ⟨hfirst, hcontents⟩ := scanFile_spec hg now file contents
    obtain ⟨hrest, hmore⟩ := ih hfirst.sound hfiles (scanFile now (g, contents) file).2
    have hother : ∀ path, path ≠ file.1 →
        (scanFile now (g, contents) file).1.nodeByPath path = g.nodeByPath path := by
      intro path hpath
      have hnone : readable [file] path = none := (readable_cons file [] path).trans (if_neg hpath)
      rw [hfirst.node, hnone]
      rfl
    rw [List.foldl_cons]
    constructor
    · refine ⟨hrest.sound, hrest.edges.trans hfirst.edges, ?_⟩
      intro path
      rw [hrest.node]
      by_cases hpath : path = file.1
      · have hgone : readable files path = none := readable_of_notMem (hpath ▸ hnot)
        have hself : readable (file :: files) path = readable [file] path := by
          rw [readable_cons, readable_cons, if_pos hpath, if_pos hpath]
        rw [hgone, scannedNode, hfirst.node, hself]
      · rw [readable_cons, if_neg hpath]
        cases readable files path with
        | none => exact hother path hpath
        | some bytes =>
          simp only [scannedNode, hother path hpath, unchanged_congr (hother path hpath)]
    · rw [hmore, hcontents, List.flatMap_cons, List.append_assoc]
      congr 2
      apply List.flatMap_congr
      intro other hmem
      have hne : other.1 ≠ file.1 := fun heq => hnot (heq ▸ List.mem_map_of_mem hmem)
      unfold changedText
      cases other.2 with
      | none => rfl
      | some bytes => simp only [unchanged_congr (hother _ hne)]

/-- The files of the first phase are all in the graph. -/
theorem Scanned.has_of_mem {files : SourceFiles} {h : CodebaseGraph} (hscan : Scanned now g files h)
    (hfiles : (files.map Prod.fst).Nodup) {file : PathBuf × String}
    (hfile : file ∈ files.flatMap (changedText g)) : h.has file.1 := by
  obtain ⟨⟨path, content⟩, hmem, hchanged⟩ := List.mem_flatMap.mp hfile
  cases content with
  | none => cases hchanged
  | some bytes =>
    have hread := readable_of_mem hfiles hmem
    simp only [changedText] at hchanged
    split_ifs at hchanged with hsame
    · cases hchanged
    · obtain ⟨text, -, rfl⟩ := Option.map_eq_some_iff.mp (Option.mem_toList.mp hchanged)
      rw [CodebaseGraph.has, hscan.node, hread, scannedNode, if_neg hsame]
      rfl

/-- The edges of a file. -/
def fileLinks (has : PathBuf → Bool) (path : PathBuf) (bytes : ByteArray) :
    List (PathBuf × PathBuf × Edge) :=
  ((String.fromUTF8? bytes).map fun text => CodebaseGraph.importLinks has (path, text)).getD []

/-- The edges that a build adds for a path. -/
def addedLinks (g : CodebaseGraph) (has : PathBuf → Bool) (path : PathBuf) :
    Option ByteArray → List (PathBuf × PathBuf × Edge)
  | none => []
  | some bytes => if Unchanged g path bytes then [] else fileLinks has path bytes

/-- What a build does to a graph. -/
structure Built (now : PathBuf → ℕ) (g : CodebaseGraph) (files : SourceFiles)
    (h : CodebaseGraph) : Prop where
  sound : h.Sound
  node : ∀ path, h.nodeByPath path = scannedNode now g path (readable files path)
  edges : ∀ path,
    h.edgesFrom path = g.edgesFrom path ++ addedLinks g h.has path (readable files path)

theorem fst_of_mem_importLinks {has : PathBuf → Bool} {file : PathBuf × String}
    {link : PathBuf × PathBuf × Edge} (h : link ∈ CodebaseGraph.importLinks has file) :
    link.1 = file.1 := by
  obtain ⟨importStr, -, hlink⟩ := List.mem_filterMap.mp h
  obtain ⟨target, -, rfl⟩ := Option.map_eq_some_iff.mp hlink
  rfl

theorem flatMap_changedText (g : CodebaseGraph) (has : PathBuf → Bool)
    (file : PathBuf × Option ByteArray) :
    (changedText g file).flatMap (CodebaseGraph.importLinks has) =
      addedLinks g has file.1 file.2 := by
  obtain ⟨path, content⟩ := file
  cases content with
  | none => rfl
  | some bytes =>
    by_cases hsame : Unchanged g path bytes
    · simp [changedText, addedLinks, hsame]
    · simp only [changedText, addedLinks, fileLinks, hsame, if_false]
      cases String.fromUTF8? bytes with
      | none => rfl
      | some text => exact List.flatMap_singleton _ _

/-- The edges of a path after a scan and a parse. -/
theorem filter_flatMap_changedText {files : SourceFiles} (hfiles : (files.map Prod.fst).Nodup)
    (g : CodebaseGraph) (has : PathBuf → Bool) (path : PathBuf) :
    ((files.flatMap (changedText g)).flatMap (CodebaseGraph.importLinks has)).filter (·.1 = path) =
      addedLinks g has path (readable files path) := by
  have hfirst : ∀ file, ∀ link ∈ (changedText g file).flatMap (CodebaseGraph.importLinks has),
      link.1 = file.1 := by
    intro file link hlink
    obtain ⟨text, htext, hlink⟩ := List.mem_flatMap.mp hlink
    rw [fst_of_mem_importLinks hlink]
    unfold changedText at htext
    cases hcontent : file.2 with
    | none => simp [hcontent] at htext
    | some bytes =>
      rw [hcontent] at htext
      simp only at htext
      split_ifs at htext
      · cases htext
      · obtain ⟨_, -, rfl⟩ := Option.map_eq_some_iff.mp (Option.mem_toList.mp htext)
        rfl
  rw [List.flatMap_assoc, filter_flatMap_of_nodup hfiles hfirst, readable]
  cases files.lookup path with
  | none => rfl
  | some content => exact flatMap_changedText g has (path, content)

/-- A build gives a graph in which each file has been treated on its own. -/
theorem exists_built (now : PathBuf → ℕ)
    {b : GraphBuilder} {tree : SourceTree} {files : SourceFiles}
    (hcollect : b.collectSourceFiles tree = .ok files) (hg : (b.existing.getD .new).Sound) :
    ∃ h, b.build now tree = .ok h ∧ Built now (b.existing.getD .new) files h := by
  have hfiles := nodup_collectSourceFiles hcollect
  obtain ⟨hscan, hcontents⟩ := scanned_foldl hg hfiles now []
  rw [List.nil_append] at hcontents
  have hparsed := hscan.sound.parseEdges _ fun file hfile => hscan.has_of_mem hfiles hfile
  refine ⟨_, ?_, hparsed.sound, ?_, ?_⟩
  · rw [build, hcollect]
    simp only [bind, Except.bind, hcontents]
  · intro path
    rw [hparsed.nodeByPath_eq, hscan.node]
  · intro path
    have hhas : (_ : CodebaseGraph).has = (_ : CodebaseGraph).has :=
      funext fun path => congrArg Option.isSome (hparsed.nodeByPath_eq path)
    rw [CodebaseGraph.edgesFrom, hparsed.edges, hscan.edges, List.filter_append, hhas,
      filter_flatMap_changedText hfiles]
    rfl

/-! ### Existing graphs -/

/-- There is a file that can be read. -/
def hasFile (files : SourceFiles) (path : PathBuf) : Bool := (readable files path).isSome

/-- What an existing graph has about a path is right for the files. -/
def FitsAt (g : CodebaseGraph) (files : SourceFiles) (path : PathBuf) : Option ByteArray → Prop
  | none => g.nodeByPath path = none
  | some bytes => ∀ node ∈ g.nodeByPath path,
    if node.contentHash = contentHash bytes then
      node.described = (fileNode path bytes 0).described ∧
        (g.edgesFrom path).Perm (fileLinks (hasFile files) path bytes)
    else g.edgesFrom path = []

/-- What an existing graph has is right for the files. -/
def Fits (g : CodebaseGraph) (files : SourceFiles) : Prop :=
  ∀ path, FitsAt g files path (readable files path)

variable {now' : PathBuf → ℕ} {files : SourceFiles} {h s : CodebaseGraph}

theorem not_unchanged_new (path : PathBuf) (bytes : ByteArray) : ¬Unchanged .new path bytes := by
  rintro ⟨node, hnode, -⟩
  cases hnode

theorem node_scratch (hs : Built now' .new files s) (path : PathBuf) :
    s.nodeByPath path = (readable files path).map fun bytes => fileNode path bytes (now' path) := by
  rw [hs.node]
  cases readable files path with
  | none => rfl
  | some bytes => rw [scannedNode, if_neg (not_unchanged_new path bytes), Option.map_some]

theorem has_scratch (hs : Built now' .new files s) : s.has = hasFile files := by
  funext path
  rw [CodebaseGraph.has, node_scratch hs, Option.isSome_map, hasFile]

theorem edgesFrom_scratch (hs : Built now' .new files s) (path : PathBuf) : s.edgesFrom path =
    ((readable files path).map (fileLinks (hasFile files) path)).getD [] := by
  rw [hs.edges, has_scratch hs]
  cases readable files path with
  | none => rfl
  | some bytes =>
    rw [addedLinks, if_neg (not_unchanged_new path bytes)]
    rfl

/-- At a path, a build from a graph gives what a build from scratch gives if what the graph has
there is right. -/
theorem sameAt_iff_fitsAt (hg : g.Sound) (hh : Built now g files h) (hs : Built now' .new files s)
    (hhas : h.has = hasFile files) (path : PathBuf) :
    ((h.nodeByPath path).map Node.described = (s.nodeByPath path).map Node.described ∧
      (h.edgesFrom path).Perm (s.edgesFrom path)) ↔
        FitsAt g files path (readable files path) := by
  rw [hh.node, hh.edges, node_scratch hs, edgesFrom_scratch hs, hhas]
  cases readable files path with
  | none =>
    rw [scannedNode, addedLinks, FitsAt]
    constructor
    · rintro ⟨hnode, -⟩
      simpa using hnode
    · intro hnone
      rw [hnone, hg.edgesFrom_eq_nil hnone]
      exact ⟨rfl, .nil⟩
  | some bytes =>
    rw [scannedNode, addedLinks, FitsAt]
    simp only [Option.map_some, Option.getD_some]
    cases hnode : g.nodeByPath path with
    | none =>
      have hchanged : ¬Unchanged g path bytes := by
        rintro ⟨node, hmem, -⟩
        rw [hnode] at hmem
        cases hmem
      rw [if_neg hchanged, if_neg hchanged, hg.edgesFrom_eq_nil hnode]
      refine iff_of_true ⟨rfl, .rfl⟩ ?_
      intro node hmem
      cases hmem
    | some node =>
      have hiff : Unchanged g path bytes ↔ node.contentHash = contentHash bytes := by
        simp [Unchanged, hnode]
      simp only [hiff, Option.mem_def, Option.some.injEq, forall_eq']
      split_ifs with hhash
      · rw [Option.map_some, Option.some.injEq, List.append_nil]
        exact Iff.rfl
      · constructor
        · rintro ⟨-, hperm⟩
          have hlength := hperm.length_eq
          rw [List.length_append] at hlength
          exact List.length_eq_zero_iff.mp (by omega)
        · intro hnil
          rw [hnil]
          exact ⟨rfl, .rfl⟩

/-- A build from an existing graph gives what a build from scratch gives if and only if what the
graph has is right. -/
theorem sameAs_iff_fits (hg : g.Sound) (hh : Built now g files h) (hs : Built now' .new files s) :
    h.SameAs s ↔ Fits g files := by
  constructor
  · rintro ⟨hnodes, hedges⟩
    have hhas : h.has = hasFile files := by
      rw [← has_scratch hs]
      funext path
      have hnode := congrArg Option.isSome (hnodes path)
      rwa [Option.isSome_map, Option.isSome_map] at hnode
    intro path
    rw [← sameAt_iff_fitsAt hg hh hs hhas]
    exact ⟨hnodes path, (perm_iff_filter_key _).mp hedges path⟩
  · intro hfits
    have hhas : h.has = hasFile files := by
      funext path
      rw [CodebaseGraph.has, hh.node, hasFile]
      have hpath := hfits path
      cases hread : readable files path with
      | none =>
        rw [hread] at hpath
        exact congrArg Option.isSome hpath
      | some bytes =>
        rw [scannedNode]
        split_ifs with hsame
        · obtain ⟨node, hnode, -⟩ := hsame
          rw [Option.mem_def.mp hnode]
          rfl
        · rfl
    have hsame := fun path => (sameAt_iff_fitsAt hg hh hs hhas path).mpr (hfits path)
    exact ⟨fun path => (hsame path).1, (perm_iff_filter_key _).mpr fun path => (hsame path).2⟩

/-! ### Changes of the files -/

/-- No file is deleted. A file with a new content had no import that could be resolved, and the
imports of the other files are resolved as before. -/
def Unaffected (old new : SourceFiles) : Prop :=
  (∀ path, hasFile old path → hasFile new path) ∧
    ∀ path, ∀ before ∈ readable old path, ∀ after ∈ readable new path,
      if contentHash before = contentHash after then
        before.size = after.size ∧
          (fileLinks (hasFile old) path before).Perm (fileLinks (hasFile new) path after)
      else fileLinks (hasFile old) path before = []

theorem fits_iff_unaffected {old new : SourceFiles} (hs : Built now' .new old s)
    (hsame : g.SameAs s) : Fits g new ↔ Unaffected old new := by
  have hnode : ∀ path, (g.nodeByPath path).map Node.described =
      (readable old path).map fun bytes => (fileNode path bytes 0).described := by
    intro path
    rw [hsame.nodes, node_scratch hs, Option.map_map]
    rfl
  have hedges : ∀ path, (g.edgesFrom path).Perm
      (((readable old path).map (fileLinks (hasFile old) path)).getD []) := by
    intro path
    rw [← edgesFrom_scratch hs]
    exact (perm_iff_filter_key _).mp hsame.edges path
  have hpath : ∀ path, FitsAt g new path (readable new path) ↔
      (hasFile old path → hasFile new path) ∧
        ∀ before ∈ readable old path, ∀ after ∈ readable new path,
          if contentHash before = contentHash after then
            before.size = after.size ∧
              (fileLinks (hasFile old) path before).Perm (fileLinks (hasFile new) path after)
          else fileLinks (hasFile old) path before = [] := by
    intro path
    have hnode := hnode path
    have hedges := hedges path
    rw [hasFile, hasFile]
    cases hold : readable old path with
    | none =>
      rw [hold, Option.map_none, Option.map_eq_none_iff] at hnode
      cases readable new path <;> simp [FitsAt, hnode]
    | some before =>
      rw [hold, Option.map_some, Option.map_eq_some_iff] at hnode
      rw [hold, Option.map_some, Option.getD_some] at hedges
      obtain ⟨node, hnode, hdescribed⟩ := hnode
      cases hnew : readable new path with
      | none => simp [FitsAt, hnode]
      | some after =>
        have hhash : node.contentHash = contentHash before := congrArg Node.contentHash hdescribed
        have hsize : (fileNode path before 0).described = (fileNode path after 0).described ↔
            contentHash before = contentHash after ∧ before.size = after.size := by
          simp [Node.described, fileNode, and_comm]
        simp only [FitsAt, hnode, Option.mem_def, Option.some.injEq, forall_eq', hhash, hdescribed,
          hsize, Option.isSome_some, forall_const, true_and]
        split_ifs with heq
        · rw [and_iff_right heq, hedges.congr_left]
        · constructor
          · intro hnil
            rw [hnil] at hedges
            exact List.nil_perm.mp hedges
          · intro hnil
            rw [hnil] at hedges
            exact List.perm_nil.mp hedges
  unfold Fits Unaffected
  rw [← forall_and]
  exact forall_congr' hpath

/-! ### Histories of builds -/

/-- A graph with the tree from which it was built. -/
structure Snapshot where
  tree : SourceTree
  graph : CodebaseGraph

/-- A tree is built from the last graph, if there is one; a build that fails loses it. -/
def rebuild (b : GraphBuilder) (last : Option Snapshot) (change : SourceTree × (PathBuf → ℕ)) :
    Option Snapshot :=
  match { b with existing := last.map Snapshot.graph }.build change.2 change.1 with
  | .ok graph => some { tree := change.1, graph := graph }
  | .error _ => none

/-- The last graph is the one that a build from scratch gives for its tree. -/
def SameAsScratch (b : GraphBuilder) (last : Option Snapshot) : Prop :=
  ∀ snapshot ∈ last, ∀ now, ∃ scratch,
    { b with existing := none }.build now snapshot.tree = .ok scratch ∧
      snapshot.graph.SameAs scratch

/-- The next tree, if it can be scanned, changes nothing that an incremental build does not take
in. -/
def TakesIn (b : GraphBuilder) (last : Option Snapshot) (change : SourceTree × (PathBuf → ℕ)) :
    Prop :=
  ∀ snapshot ∈ last, ∀ old, b.collectSourceFiles snapshot.tree = .ok old →
    ∀ new, b.collectSourceFiles change.1 = .ok new → Unaffected old new

/-- The last graph is sound, and is the one from scratch. -/
structure UpToDate (b : GraphBuilder) (last : Option Snapshot) : Prop where
  sound : ((last.map Snapshot.graph).getD .new).Sound
  same : SameAsScratch b last

variable {b : GraphBuilder} {last : Option Snapshot} {change : SourceTree × (PathBuf → ℕ)}

theorem upToDate_none (b : GraphBuilder) : UpToDate b none where
  sound := CodebaseGraph.sound_new
  same := by
    intro snapshot hsnapshot
    cases hsnapshot

theorem rebuild_of_error {e : ScanError} (h : b.collectSourceFiles change.1 = .error e) :
    rebuild b last change = none := by
  have hcollect : ∀ existing, { b with existing := existing }.collectSourceFiles change.1 =
      .error e := fun _ => h
  rw [rebuild, build, hcollect]
  rfl

theorem exists_rebuild (h : b.collectSourceFiles change.1 = .ok files)
    (hsound : ((last.map Snapshot.graph).getD .new).Sound) : ∃ graph,
      rebuild b last change = some { tree := change.1, graph := graph } ∧
        Built change.2 ((last.map Snapshot.graph).getD .new) files graph := by
  obtain ⟨graph, hgraph, hbuilt⟩ :=
    exists_built change.2 (b := { b with existing := last.map Snapshot.graph }) h hsound
  refine ⟨graph, ?_, hbuilt⟩
  rw [rebuild, hgraph]

/-- A graph is the one from scratch if what it was built from is right. -/
theorem sameAsScratch_iff_fits (hg : g.Sound) {tree : SourceTree}
    (hcollect : b.collectSourceFiles tree = .ok files) (hh : Built now g files h) :
    SameAsScratch b (some { tree := tree, graph := h }) ↔ Fits g files := by
  constructor
  · intro hsame
    obtain ⟨scratch, hscratch, hsame⟩ := hsame _ rfl now
    obtain ⟨found, hfound, hbuilt⟩ := exists_built now (b := { b with existing := none })
      hcollect CodebaseGraph.sound_new
    obtain rfl := Except.ok.inj (hscratch.symm.trans hfound)
    exact (sameAs_iff_fits hg hh hbuilt).mp hsame
  · rintro hfits snapshot hsnapshot now'
    obtain rfl := Option.some.inj hsnapshot
    obtain ⟨found, hfound, hbuilt⟩ := exists_built now' (b := { b with existing := none })
      hcollect CodebaseGraph.sound_new
    exact ⟨found, hfound, (sameAs_iff_fits hg hh hbuilt).mpr hfits⟩

theorem fits_iff_takesIn (hlast : UpToDate b last)
    (hcollect : b.collectSourceFiles change.1 = .ok files) :
    Fits ((last.map Snapshot.graph).getD .new) files ↔ TakesIn b last change := by
  cases last with
  | none =>
    refine iff_of_true ?_ ?_
    · intro path
      cases readable files path with
      | none => rfl
      | some bytes =>
        intro node hnode
        cases hnode
    · intro snapshot hsnapshot
      cases hsnapshot
  | some snapshot =>
    obtain ⟨scratch, hscratch, hsame⟩ := hlast.same snapshot rfl fun _ => 0
    cases hold : b.collectSourceFiles snapshot.tree with
    | error e =>
      have hnone : { b with existing := none }.collectSourceFiles snapshot.tree = .error e := hold
      rw [build, hnone] at hscratch
      cases hscratch
    | ok old =>
      obtain ⟨found, hfound, hbuilt⟩ := exists_built (fun _ => 0)
        (b := { b with existing := none }) hold CodebaseGraph.sound_new
      obtain rfl := Except.ok.inj (hscratch.symm.trans hfound)
      rw [Option.map_some, Option.getD_some, fits_iff_unaffected hbuilt hsame]
      constructor
      · intro hunaffected snapshot' hsnapshot' old' hold' new hnew
        obtain rfl := Option.some.inj hsnapshot'
        obtain rfl := Except.ok.inj (hold.symm.trans hold')
        obtain rfl := Except.ok.inj (hcollect.symm.trans hnew)
        exact hunaffected
      · intro htakes
        exact htakes snapshot rfl old hold files hcollect

/-- A build gives the graph from scratch exactly if the change is one that it takes in. -/
theorem sameAsScratch_rebuild (hlast : UpToDate b last) (change : SourceTree × (PathBuf → ℕ)) :
    SameAsScratch b (rebuild b last change) ↔ TakesIn b last change := by
  cases hcollect : b.collectSourceFiles change.1 with
  | error e =>
    rw [rebuild_of_error hcollect]
    refine iff_of_true (upToDate_none b).same ?_
    intro snapshot hsnapshot old hold new hnew
    rw [hcollect] at hnew
    cases hnew
  | ok files =>
    obtain ⟨graph, hgraph, hbuilt⟩ := exists_rebuild hcollect hlast.sound
    rw [hgraph, sameAsScratch_iff_fits hlast.sound hcollect hbuilt,
      fits_iff_takesIn hlast hcollect]

theorem sound_rebuild (hlast : UpToDate b last) (change : SourceTree × (PathBuf → ℕ)) :
    (((rebuild b last change).map Snapshot.graph).getD .new).Sound := by
  cases hcollect : b.collectSourceFiles change.1 with
  | error e =>
    rw [rebuild_of_error hcollect]
    exact CodebaseGraph.sound_new
  | ok files =>
    obtain ⟨graph, hgraph, hbuilt⟩ := exists_rebuild hcollect hlast.sound
    rw [hgraph]
    exact hbuilt.sound

/-- A tree is built from scratch, and after each change it is built again from the last graph. All
of these builds give the graph from scratch if and only if each change is one that they take
in. -/
theorem run_sameAsScratch_iff (b : GraphBuilder) (changes : List (SourceTree × (PathBuf → ℕ))) :
    (∀ made, made <+: changes → SameAsScratch b (run (rebuild b) none made)) ↔
      Meets (rebuild b) (TakesIn b) none changes := by
  apply forall_initial_iff (P := SameAsScratch b) fun last (hlast : UpToDate b last) => hlast.same
  · intro last change hlast
    exact sameAsScratch_rebuild hlast change
  · intro last change hlast htakes
    exact ⟨sound_rebuild hlast change, (sameAsScratch_rebuild hlast change).mpr htakes⟩
  · exact upToDate_none b

end GraphBuilder

end Scan

namespace Deletion

/-- The digest of an empty file, and lines without imports. -/
@[reducible] def emptyFiles : ScanLibraries where
  contentHash bytes :=
    if bytes.size = 0 then "e3b0c44298fc1c149afbf4c8996fb92427ae41e4649b934ca495991b7852b855"
    else ""
  firstGroup _ _ := none

attribute [local instance] emptyFiles

def before : SourceTree where
  listing := some (.file "a.rs" (some .empty) .nil)
  distinct := by
    rintro l ⟨⟩
    decide

def after : SourceTree where
  listing := some .nil
  distinct := by
    rintro l ⟨⟩
    decide

/-- A file is deleted between two builds. -/
def deletion : List (SourceTree × (PathBuf → ℕ)) := [(before, fun _ => 0), (after, fun _ => 1)]

/-- The graph keeps the node of a file that was deleted. -/
theorem run_deletion_not_sameAsScratch :
    ¬GraphBuilder.SameAsScratch (.new ["/"])
      (run (GraphBuilder.rebuild (.new ["/"])) none deletion) := by
  intro hsame
  have hsome : (run (GraphBuilder.rebuild (.new ["/"])) none deletion).any
      fun snapshot => (snapshot.graph.nodeByPath ["/", "a.rs"]).isSome := by decide +kernel
  have htree : (run (GraphBuilder.rebuild (.new ["/"])) none deletion).map (·.tree) =
      some after := rfl
  obtain ⟨snapshot, hsnapshot, hnode⟩ := (Option.any_eq_true _ _).mp hsome
  obtain ⟨scratch, hscratch, hnodes, -⟩ := hsame snapshot hsnapshot fun _ => 1
  rw [hsnapshot, Option.map_some, Option.some.injEq] at htree
  rw [htree] at hscratch
  obtain rfl := Except.ok.inj hscratch
  have hnone := congrArg Option.isSome (hnodes ["/", "a.rs"])
  rw [Option.isSome_map, hnode] at hnone
  cases hnone

end Deletion

end HeliosLite
