import Mathlib.Data.List.SplitBy
import Mathlib.Data.List.DropRight

/-!
# Paths as texts

A tool gets a path as the text that the model wrote. The executor makes it absolute and hands the
text on; the operating system then resolves what is left of `.` and `..`.

## Main definitions

* `isAbsolute`, `joinPath`, `normalizePath` — a text as an absolute path
* `resolve` — the path without `.`, `..` and repeated separators
* `formatDisplayPath` — the path as it is shown
* `Environment` — the working directory

## Main results

* `normalizePath_injective` — relative texts that name one path are equal
-/

namespace HeliosLite

def isAbsolute (path : String) : Bool := path.toList.head? = some '/'

/-- What is put between a path and one that follows it. -/
def separator (base : String) : String :=
  if base.toList = [] ∨ base.toList.getLast? = some '/' then "" else "/"

/-- `PathBuf::join`: an absolute path replaces the path before it. -/
def joinPath (base path : String) : String :=
  if isAbsolute path then path else base ++ separator base ++ path

/-! ### Components -/

/-- The components that are neither empty nor `.`. -/
def components (path : List Char) : List (List Char) :=
  (path.splitOn '/').filter fun part => part ≠ [] ∧ part ≠ ['.']

/-- A component after others; `..` goes back by one. -/
def enter (path : List (List Char)) (part : List Char) : List (List Char) :=
  if part = ['.', '.'] then path.dropLast else path ++ [part]

/-- The absolute path that a text names. -/
def resolve (path : String) : String :=
  String.ofList ((((components path.toList).foldl enter []).flatMap fun part => '/' :: part) ++
    if ((components path.toList).foldl enter []).isEmpty then ['/'] else [])

theorem isAbsolute_w : isAbsolute "/w" := by decide

theorem resolve_w : resolve "/w" = "/w" := by decide

/-! ### The working directory -/

/-- The working directory of the process, as the operating system gives it. -/
structure Environment where
  cwd : String
  absolute : isAbsolute cwd
  resolved : resolve cwd = cwd

/-- The text, after the working directory if it is relative. -/
def normalizePath (env : Environment) (path : String) : String :=
  if isAbsolute path then path else joinPath env.cwd path

section Normalize

variable {env : Environment} {path other : String}

theorem normalizePath_of_isAbsolute (h : isAbsolute path) : normalizePath env path = path :=
  if_pos h

theorem normalizePath_of_relative (h : isAbsolute path = false) :
    normalizePath env path = env.cwd ++ separator env.cwd ++ path := by
  have hneg : ¬ isAbsolute path := by simp [h]
  rw [normalizePath, if_neg hneg, joinPath, if_neg hneg]

theorem isAbsolute_append {s : String} (t : String) (h : isAbsolute s) : isAbsolute (s ++ t) := by
  unfold isAbsolute at h ⊢
  rw [decide_eq_true_eq] at h ⊢
  rw [String.toList_append, List.head?_append, h]
  rfl

theorem isAbsolute_normalizePath : isAbsolute (normalizePath env path) := by
  cases habsolute : isAbsolute path with
  | true => rwa [normalizePath_of_isAbsolute habsolute]
  | false =>
    rw [normalizePath_of_relative habsolute]
    exact isAbsolute_append _ (isAbsolute_append _ env.absolute)

/-- Relative texts that name one path are equal. -/
theorem normalizePath_injective (hpath : isAbsolute path = false)
    (hother : isAbsolute other = false) (h : normalizePath env path = normalizePath env other) :
    path = other := by
  rw [normalizePath_of_relative hpath, normalizePath_of_relative hother] at h
  exact (String.append_right_inj _).mp h

end Normalize

/-! ### Paths as they are shown -/

/-- The path from its next component on. -/
def skipSeparators : List Char → List Char
  | '/' :: cs => skipSeparators cs
  | ['.'] => []
  | '.' :: '/' :: cs => skipSeparators cs
  | cs => cs

/-- What follows the components, if the path starts with them. -/
def stripComponents : List (List Char) → List Char → Option (List Char)
  | [], path => some (skipSeparators path)
  | part :: parts, path =>
    let path := skipSeparators path
    if path.takeWhile (· ≠ '/') = part then stripComponents parts (path.dropWhile (· ≠ '/'))
    else none

/-- The path below the working directory, or else as it is. -/
def formatDisplayPath (path : String) (env : Environment) : String :=
  let displayPath :=
    if isAbsolute path then
      match stripComponents (components env.cwd.toList) path.toList with
      | some rest => String.ofList (skipSeparators rest.reverse).reverse
      | none => path
    else path
  if displayPath = "" then "." else displayPath

end HeliosLite
