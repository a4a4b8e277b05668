import Mathlib.Data.List.DropRight

/-!
# Paths

A path is the list of its components, as paths are compared: the root is the component `/`, empty
components and `.` are dropped except for a leading `.`, and `..` is kept.

## Main definitions

* `PathBuf.ofString`, `PathBuf.join` — a path from text, and text after a path
* `PathBuf.parent`, `PathBuf.lastAncestor`, `PathBuf.extension` — parts of a path
* `PathBuf.withExtension` — the path with another extension
-/

namespace Theory

/-- The components of a path. -/
abbrev PathBuf := List String

namespace PathBuf

def ofString (s : String) : PathBuf :=
  let parts := (s.toList.splitOn '/').map String.ofList
  let named := parts.filter fun part => part ≠ "" ∧ part ≠ "."
  if parts.head? = some "" ∧ parts ≠ [""] then "/" :: named
  else if parts.head? = some "." then "." :: named
  else named

/-- A text that is an absolute path replaces the path before it. -/
def join (p : PathBuf) (s : String) : PathBuf :=
  match ofString s with
  | "/" :: rest => "/" :: rest
  | "." :: rest => if p = [] then "." :: rest else p ++ rest
  | rest => p ++ rest

def parent (p : PathBuf) : Option PathBuf :=
  if p = [] ∨ p = ["/"] then none else some p.dropLast

/-- The last of the ancestors: the root, or the empty path. -/
def lastAncestor (p : PathBuf) : PathBuf := if p.head? = some "/" then ["/"] else []

/-- What stands after the last dot of a name that does not start with it. -/
def nameExtension (name : String) : Option String :=
  if (name.toList.rdropWhile (· ≠ '.')).length ≤ 1 then none
  else some (String.ofList (name.toList.rtakeWhile (· ≠ '.')))

def extension (p : PathBuf) : Option String :=
  p.getLast?.bind fun name => if name = ".." ∨ name = "/" then none else nameExtension name

/-- A name without its extension. -/
def stem (name : String) : String :=
  if (name.toList.rdropWhile (· ≠ '.')).length ≤ 1 then name
  else String.ofList (name.toList.rdropWhile (· ≠ '.')).dropLast

/-- The extension is replaced, or added to a name that has none. -/
def withExtension (p : PathBuf) (ext : String) : PathBuf :=
  match p.getLast? with
  | some name =>
    if name = ".." ∨ name = "/" then p else p.dropLast ++ [stem name ++ "." ++ ext]
  | none => p

example : withExtension ["/", "a.ndjson"] "tmp" = ["/", "a.tmp"] := by decide

example : join ["/", "src"] "./a/../b.rs" = ["/", "src", "a", "..", "b.rs"] := by decide

example : nameExtension "main.test.rs" = some "rs" ∧ nameExtension ".rs" = none := by decide

end PathBuf

end Theory
