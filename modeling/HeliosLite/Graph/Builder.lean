import HeliosLite.Orchestration.ToolCalls
import HeliosLite.Theory.Lines
import HeliosLite.Theory.PathBuf
import Mathlib.Data.List.Sort
import Mathlib.Logic.Function.Basic

/-!
# The dependency graph of a codebase

A build walks a directory, puts a node into the graph for each source file whose content has
changed, and then adds an edge for each import of these files that names a file of the graph. It
starts from an existing graph if there is one.

## Main definitions

* `CodebaseGraph` — nodes, edges and the index of paths
* `SourceTree` — a directory whose entries have distinct names
* `GraphBuilder.build` — the graph of a source tree
-/

namespace HeliosLite

open Theory

/-! ### Graphs -/

structure Node where
  path : PathBuf
  language : String
  size : ℕ
  lastModified : ℕ
  contentHash : String
  deriving DecidableEq, Repr

inductive DependencyKind where
  | import
  | call
  | type
  deriving DecidableEq, Repr

structure Edge where
  kind : DependencyKind
  label : Option String
  deriving DecidableEq, Repr

/-- A directed graph with the index of its nodes by path; an edge names its nodes by index. -/
structure CodebaseGraph where
  nodes : List Node
  edges : List (ℕ × ℕ × Edge)
  pathIndex : PathBuf → Option ℕ

namespace CodebaseGraph

def new : CodebaseGraph := { nodes := [], edges := [], pathIndex := fun _ => none }

def nodeByPath (g : CodebaseGraph) (path : PathBuf) : Option Node :=
  (g.pathIndex path).bind fun i => g.nodes[i]?

/-- A node is inserted, or the one with its path is replaced. -/
def upsertNode (g : CodebaseGraph) (node : Node) : CodebaseGraph :=
  match g.pathIndex node.path with
  | some i => { g with nodes := g.nodes.set i node }
  | none =>
    { g with
      nodes := g.nodes ++ [node]
      pathIndex := Function.update g.pathIndex node.path (some g.nodes.length) }

def addEdge (g : CodebaseGraph) (source target : ℕ) (edge : Edge) : CodebaseGraph :=
  { g with edges := g.edges ++ [(source, target, edge)] }

end CodebaseGraph

/-! ### Languages -/

def detectLanguage : String → String
  | "rs" => "rust"
  | "ts" | "tsx" => "typescript"
  | "js" | "jsx" => "javascript"
  | "py" => "python"
  | "go" => "go"
  | "java" => "java"
  | "rb" => "ruby"
  | "c" | "h" => "c"
  | "cpp" | "cxx" | "cc" | "hpp" => "cpp"
  | other => other

def isSourceFile (ext : String) : Bool :=
  ext ∈ ["rs", "ts", "tsx", "js", "jsx", "py", "go", "java", "rb", "c", "h", "cpp", "cxx", "cc",
    "hpp"]

/-- The patterns for the imports of a language, by file extension. -/
def importPatterns : String → Option (List String)
  | "rs" => some [ r#"^use\s+([\w:]+)"#, r#"^extern\s+crate\s+(\w+)"#]
  | "ts" | "tsx" =>
    some
      [ r#"^import\s+.*from\s+['"](.+?)['"]"#, r#"^import\s*\(\s*['"](.+?)['"]\s*\)"#,
        r#"^const\s+\w+\s*=\s*require\s*\(\s*['"](.+?)['"]\s*\)"#]
  | "js" =>
    some
      [ r#"^const\s+\w+\s*=\s*require\s*\(\s*['"](.+?)['"]\s*\)"#,
        r#"^import\s+.*from\s+['"](.+?)['"]"#]
  | "py" => some [ r#"^import\s+([\w.]+)"#, r#"^from\s+([\w.]+)\s+import"#]
  | "go" => some [ r#"^import\s+\(\s*$"#, r#"^import\s+"(.+?)""#, r#"^\s+"(.+?)"$"#]
  | _ => none

/-- The functions of other crates that a build calls. -/
class ScanLibraries where
  /-- The SHA-256 digest in hexadecimal digits. -/
  contentHash : ByteArray → String
  /-- The first group of the first match of a pattern in a line. -/
  firstGroup : (pattern line : String) → Option String

open ScanLibraries

/-! ### Imports -/

/-- The paths that are tried for an import, in their order. -/
def importCandidates (importStr : String) (fromFile : PathBuf) : List PathBuf :=
  match fromFile.parent with
  | none => []
  | some fromDir =>
    if importStr.toList.head? = some '.' then
      ["rs", "ts", "tsx", "js", "jsx", "py", "go"].flatMap fun ext =>
        fromDir.join (importStr ++ "." ++ ext) ::
          ["mod.rs", "index.ts", "index.tsx", "index.js", "__init__.py"].map fun indexName =>
            (fromDir.join importStr).join indexName
    else
      ["rs", "ts", "tsx", "js", "jsx", "py", "go"].map fun ext =>
        (fromFile.lastAncestor.join "src").join (rootSegment importStr ++ "." ++ ext)
where
  /-- The part of a name before its first `::`. -/
  rootSegment (name : String) : String := String.ofList (beforeColons name.toList)
  beforeColons : List Char → List Char
    | [] => []
    | ':' :: ':' :: _ => []
    | c :: cs => c :: beforeColons cs

/-- The first path that the graph has. -/
def resolveImport {α : Type} (importStr : String) (fromFile : PathBuf)
    (pathIndex : PathBuf → Option α) : Option α :=
  (importCandidates importStr fromFile).findSome? pathIndex

section Parse

variable [ScanLibraries]

/-- What the lines of a file import, for a language that has patterns. -/
def importsOf (path : PathBuf) (text : String) : List String :=
  match importPatterns (path.extension.getD "") with
  | none => []
  | some patterns =>
    (lines '\n' text.toList).flatMap fun line =>
      patterns.filterMap fun re => firstGroup re (trim (String.ofList (stripReturn line)))

/-- The edge of an import. -/
def importEdge (importStr : String) : Edge := { kind := .import, label := some importStr }

/-- One import adds an edge if it can be resolved. -/
def parseImport (index : PathBuf → Option ℕ) (path : PathBuf) (source : ℕ) (g : CodebaseGraph)
    (importStr : String) : CodebaseGraph :=
  match resolveImport importStr path index with
  | some target => g.addEdge source target (importEdge importStr)
  | none => g

def parseFile (index : PathBuf → Option ℕ) (g : CodebaseGraph) (file : PathBuf × String) :
    CodebaseGraph :=
  match index file.1 with
  | some source => (importsOf file.1 file.2).foldl (parseImport index file.1 source) g
  | none => g

/-- The index is the one before the first edge is added. -/
def parseEdges (g : CodebaseGraph) (contents : List (PathBuf × String)) : CodebaseGraph :=
  contents.foldl (parseFile g.pathIndex) g

end Parse

/-! ### Source trees -/

/-- The entries of a directory, in the order in which they are listed. A listing may fail, and so
may reading a file or a directory. -/
inductive Listing where
  | nil
  | fails
  | file (name : String) (content : Option ByteArray) (rest : Listing)
  | unreadable (name : String) (rest : Listing)
  | dir (name : String) (entries rest : Listing)

namespace Listing

def names : Listing → List String
  | nil | fails => []
  | file name _ rest | unreadable name rest | dir name _ rest => name :: rest.names

/-- The entries of each directory have distinct names. -/
def Distinct : Listing → Prop
  | nil | fails => True
  | file name _ rest | unreadable name rest => name ∉ rest.names ∧ rest.Distinct
  | dir name entries rest => name ∉ rest.names ∧ entries.Distinct ∧ rest.Distinct

instance decidableDistinct : (l : Listing) → Decidable l.Distinct
  | nil | fails => .isTrue trivial
  | file name _ rest =>
    have := rest.decidableDistinct
    inferInstanceAs (Decidable (name ∉ rest.names ∧ rest.Distinct))
  | unreadable name rest =>
    have := rest.decidableDistinct
    inferInstanceAs (Decidable (name ∉ rest.names ∧ rest.Distinct))
  | dir name entries rest =>
    have := entries.decidableDistinct
    have := rest.decidableDistinct
    inferInstanceAs (Decidable (name ∉ rest.names ∧ entries.Distinct ∧ rest.Distinct))

end Listing

/-- What is under a root, if the root can be read. -/
structure SourceTree where
  listing : Option Listing
  distinct : ∀ l ∈ listing, l.Distinct

inductive ScanError where
  /-- failed to read directory -/
  | readDirectory (dir : PathBuf)
  /-- failed to read directory entry -/
  | readEntry
  deriving DecidableEq, Repr

/-- The source files that a walk finds, each with what reading it gives. -/
abbrev SourceFiles := List (PathBuf × Option ByteArray)

/-! ### Builds -/

/-- A scan of the directory `root`; directories with an ignored name are skipped. -/
structure GraphBuilder where
  root : PathBuf
  existing : Option CodebaseGraph
  ignores : List String

namespace GraphBuilder

def new (root : PathBuf) : GraphBuilder :=
  { root := root
    existing := none
    ignores := ["target", "node_modules", ".git", "dist", "__pycache__", "vendor"] }

def withExistingGraph (b : GraphBuilder) (graph : CodebaseGraph) : GraphBuilder :=
  { b with existing := some graph }

def ignore (b : GraphBuilder) (dir : String) : GraphBuilder :=
  { b with ignores := b.ignores ++ [dir] }

def walkDir (ignores : List String) (dir : PathBuf) : Listing → Except ScanError SourceFiles
  | .nil => .ok []
  | .fails => .error .readEntry
  | .file name content rest => do
    let later ← walkDir ignores dir rest
    let path := dir ++ [name]
    .ok (if path.extension.any isSourceFile then (path, content) :: later else later)
  | .unreadable name rest =>
    if name ∈ ignores then walkDir ignores dir rest else .error (.readDirectory (dir ++ [name]))
  | .dir name entries rest =>
    if name ∈ ignores then walkDir ignores dir rest
    else do
      let files ← walkDir ignores (dir ++ [name]) entries
      let later ← walkDir ignores dir rest
      .ok (files ++ later)

/-- The files are sorted by path. -/
def collectSourceFiles (b : GraphBuilder) (tree : SourceTree) : Except ScanError SourceFiles := do
  match tree.listing with
  | some listing =>
    let files ← walkDir b.ignores b.root listing
    .ok (files.insertionSort fun f g => f.1 ≤ g.1)
  | none => .error (.readDirectory b.root)

section Build

variable [ScanLibraries]

/-- The node of a file that was read at a time. -/
def fileNode (path : PathBuf) (bytes : ByteArray) (now : ℕ) : Node :=
  { path := path
    language := (path.extension.map detectLanguage).getD ""
    size := bytes.size
    lastModified := now
    contentHash := contentHash bytes }

/-- The graph has the file with this content. -/
def Unchanged (g : CodebaseGraph) (path : PathBuf) (bytes : ByteArray) : Prop :=
  ∃ node ∈ g.nodeByPath path, node.contentHash = contentHash bytes

instance (g : CodebaseGraph) (path : PathBuf) (bytes : ByteArray) :
    Decidable (Unchanged g path bytes) :=
  inferInstanceAs (Decidable (∃ node ∈ g.nodeByPath path, node.contentHash = contentHash bytes))

/-- A file that cannot be read or has not changed is skipped. The content of another one is kept
for the edges if it is text. -/
def scanFile (now : PathBuf → ℕ) (state : CodebaseGraph × List (PathBuf × String))
    (file : PathBuf × Option ByteArray) : CodebaseGraph × List (PathBuf × String) :=
  match file.2 with
  | none => state
  | some bytes =>
    if Unchanged state.1 file.1 bytes then state
    else
      (state.1.upsertNode (fileNode file.1 bytes (now file.1)),
        state.2 ++ ((String.fromUTF8? bytes).map (file.1, ·)).toList)

/-- The graph of a source tree; `now` is the time at which the node of a file is made. -/
def build (b : GraphBuilder) (now : PathBuf → ℕ) (tree : SourceTree) :
    Except ScanError CodebaseGraph := do
  let files ← b.collectSourceFiles tree
  let scanned := files.foldl (scanFile now) (b.existing.getD .new, [])
  .ok (parseEdges scanned.1 scanned.2)

end Build

end GraphBuilder

end HeliosLite
