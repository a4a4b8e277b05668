import HeliosLite.Guardian.Learning
import HeliosLite.Policies.Policy
import HeliosLite.Theory.PathBuf
import HeliosLite.Tools.Paths

/-!
# The heuristic risk judge of the guardian

An operation is scored without asking a model. A write is classified first by where it goes: when
the path and the workspace exist their canonical forms are compared, and otherwise their texts.

## Main definitions

* `HeuristicRiskJudge.score` — the risk of an operation
* `HeuristicRiskJudge.isOutsideWorkspace` — the check of a path that is written
* `LeadsInto` — what follows the text of the workspace ends in its subtree

## Main results

* `level_of_outside` — a write that is found outside is of high risk
* `leadsInto_of_below`, `not_leadsInto_of_sibling` — a file below the workspace and one beside it
* `writeOutside_reported_iff` — which writes outside the workspace are reported
-/

namespace HeliosLite

open Serde Theory

/-! ### Risks -/

structure Risk where
  score : F64
  factors : List RiskFactor
  deriving DecidableEq, Repr

/-- Numbers that are not negative are ordered as their bits. -/
def F64.max (x y : F64) : F64 := if x.bits ≤ y.bits then y else x

/-- `1.0` -/
def F64.one : F64 := ⟨0x3ff0000000000000#64⟩

namespace Risk

def new (score : F64) (factors : List RiskFactor) : Risk :=
  ⟨if F64.one.bits < score.bits then F64.one else score, factors⟩

def low : Risk := ⟨⟨0⟩, []⟩

/-- The level of a score, by the thresholds `0.33` and `0.66`. -/
def level (risk : Risk) : RiskLevel :=
  if risk.score.bits < 0x3fd51eb851eb851f#64 then .low
  else if risk.score.bits < 0x3fe51eb851eb851f#64 then .medium
  else .high

end Risk

/-! ### Places in the file system -/

/-- The directories that are entered from the root, as the components are followed. -/
def place (path : List Char) : List (List Char) := (components path).foldl enter []

/-- The text up to its last separator. -/
def closedPart (path : List Char) : List Char := path.rdropWhile (· ≠ '/')

/-- The component that text after the path goes on with. -/
def openPart (path : List Char) : List Char := path.rtakeWhile (· ≠ '/')

/-- The path lies in the subtree of the directory. -/
def Within (env : Environment) (dir path : String) : Prop :=
  place (normalizePath env dir).toList <+: place (normalizePath env path).toList

instance (env : Environment) (dir path : String) : Decidable (Within env dir path) :=
  inferInstanceAs (Decidable (_ <+: _))

/-- The canonical path, which exactly the paths that exist have. -/
def canonicalize (env : Environment) (existing : String → Bool) (path : String) :
    Option (List (List Char)) :=
  if existing path then some (place (normalizePath env path).toList) else none

/-! ### The judge -/

structure HeuristicRiskJudge where
  workspace : Option String := none
  destructiveMarkers : List String :=
    ["rm -rf", "rm -fr", "git push --force", "git push -f", "git reset --hard",
      ":()\x7b :|:& \x7d;:", "mkfs", "dd if=/dev/zero of=/dev/"]
  sensitiveMarkers : List String :=
    [".ssh", ".env", "id_rsa", "id_ed25519", "credential", "secret", "token", "password", ".pem",
      ".key", "aws"]

/-- The extension is one of a source file. -/
def isTrackedFile (path : String) : Bool :=
  match PathBuf.extension (PathBuf.ofString path) with
  | some ext =>
    ["rs", "toml", "ts", "tsx", "js", "jsx", "py", "go", "c", "h", "cpp", "hpp", "json", "yaml",
      "yml"].contains ext
  | none => false

namespace HeuristicRiskJudge

section Score

variable (toLowercase : String → String) (env : Environment) (existing : String → Bool)
variable (judge : HeuristicRiskJudge)

/-- The text, in lower case, contains one of the markers. -/
def containsMarker (markers : List String) (text : String) : Bool :=
  markers.any fun marker => (toLowercase marker).toList <:+: (toLowercase text).toList

def hasDestructive (command : String) : Bool :=
  containsMarker toLowercase judge.destructiveMarkers command

def touchesSensitive (path : String) : Bool :=
  containsMarker toLowercase judge.sensitiveMarkers path

def isOutsideWorkspace (path : String) : Bool :=
  match judge.workspace with
  | none => false
  | some ws =>
    match canonicalize env existing path, canonicalize env existing ws with
    | some p, some w => !w.isPrefixOf p
    -- one of them is not on the disk, so the texts are compared
    | _, _ => !ws.toList.isPrefixOf path.toList

/-- The factors of an operation, with the weights `0.7`, `0.9`, `0.4`, `0.8`, `0.95` and `0.5`. -/
def factors : PermissionOperation → List RiskFactor
  | .write path _ _ =>
    if judge.isOutsideWorkspace env existing path then
      [⟨.writeOutsideWorkspace, ⟨0x3fe6666666666666#64⟩⟩]
    else if judge.touchesSensitive toLowercase path then
      [⟨.sensitivePath, ⟨0x3feccccccccccccd#64⟩⟩]
    else if isTrackedFile path then [⟨.mutateTrackedFile, ⟨0x3fd999999999999a#64⟩⟩]
    else []
  | .read path _ _ =>
    if judge.touchesSensitive toLowercase path then
      [⟨.sensitiveRead, ⟨0x3fe999999999999a#64⟩⟩]
    else []
  | .execute command _ =>
    (if judge.hasDestructive toLowercase command then
      [⟨.destructiveCommand, ⟨0x3fee666666666666#64⟩⟩]
    else []) ++
    -- the command is also searched for the markers of paths
    if containsMarker toLowercase judge.sensitiveMarkers command then
      [⟨.sensitivePath, ⟨0x3fe0000000000000#64⟩⟩]
    else []
  | .fetch _ _ _ => [⟨.networkFetch, ⟨0x3fe0000000000000#64⟩⟩]

def score (op : PermissionOperation) : Risk :=
  let factors := judge.factors toLowercase env existing op
  Risk.new ((factors.map RiskFactor.weight).foldl F64.max ⟨0⟩) factors

/-- The judge names the write as one outside the workspace. -/
def ReportsOutside (op : PermissionOperation) : Prop :=
  RiskLabel.writeOutsideWorkspace ∈
    (judge.score toLowercase env existing op).factors.map RiskFactor.label

end Score

variable {toLowercase : String → String} {env : Environment} {existing : String → Bool}
variable {judge : HeuristicRiskJudge} {path cwd message : String}

@[simp] theorem factors_score (op : PermissionOperation) :
    (judge.score toLowercase env existing op).factors = judge.factors toLowercase env existing op :=
  rfl

instance (op : PermissionOperation) :
    Decidable (judge.ReportsOutside toLowercase env existing op) :=
  inferInstanceAs (Decidable (_ ∈ _))

theorem reportsOutside_iff :
    judge.ReportsOutside toLowercase env existing (.write path cwd message) ↔
      judge.isOutsideWorkspace env existing path := by
  rw [ReportsOutside, factors_score, factors]
  split_ifs <;> simp [*]

/-- A write that is found outside the workspace is of high risk. -/
theorem level_of_outside
    (h : judge.ReportsOutside toLowercase env existing (.write path cwd message)) :
    (judge.score toLowercase env existing (.write path cwd message)).level = .high := by
  rw [score, factors, if_pos (reportsOutside_iff.mp h)]
  rfl

theorem isOutsideWorkspace_of_existing {ws : String} (hws : judge.workspace = some ws)
    (hpath : existing path) (hexisting : existing ws) :
    judge.isOutsideWorkspace env existing path ↔ ¬ Within env ws path := by
  simp [isOutsideWorkspace, hws, canonicalize, hpath, hexisting, Within, List.isPrefixOf_iff_prefix,
    ← Bool.not_eq_true]

theorem isOutsideWorkspace_of_missing {ws : String} (hws : judge.workspace = some ws)
    (hmissing : ¬ (existing path ∧ existing ws)) :
    judge.isOutsideWorkspace env existing path ↔ ¬ ws.toList <+: path.toList := by
  have htexts : judge.isOutsideWorkspace env existing path =
      !ws.toList.isPrefixOf path.toList := by
    rw [isOutsideWorkspace, hws]
    by_cases hpath : existing path
    · have hexisting : ¬ existing ws := fun h => hmissing ⟨hpath, h⟩
      simp only [canonicalize, if_pos hpath, if_neg hexisting]
    · simp only [canonicalize, if_neg hpath]
  rw [htexts, Bool.not_eq_true', ← Bool.not_eq_true, List.isPrefixOf_iff_prefix]

end HeuristicRiskJudge

/-! ### What follows the text of the workspace -/

theorem components_append_cons (a b : List Char) :
    components (a ++ '/' :: b) = components a ++ components b := by
  rw [components, List.splitOn_append_cons_self, List.filter_append, components, components]

theorem closedPart_append_openPart (a : List Char) : closedPart a ++ openPart a = a :=
  List.rdropWhile_append_rtakeWhile

theorem notMem_openPart (a : List Char) : '/' ∉ openPart a := fun h => by
  simpa using List.mem_rtakeWhile_imp h

theorem closedPart_eq (a : List Char) : closedPart a = [] ∨ ∃ b, closedPart a = b ++ ['/'] := by
  rcases List.eq_nil_or_concat' (closedPart a) with hnil | ⟨b, c, hconcat⟩
  · exact .inl hnil
  · have hne : closedPart a ≠ [] := by
      rw [hconcat]
      exact List.append_ne_nil_of_right_ne_nil _ (List.cons_ne_nil c [])
    have hlast := List.rdropWhile_last_not (· ≠ '/') a hne
    change ¬ decide ((closedPart a).getLast hne ≠ '/') at hlast
    have hc : c = '/' := by simpa [hconcat] using hlast
    exact .inr ⟨b, hc ▸ hconcat⟩

/-- A name is its only component. -/
theorem components_name {name : List Char} (hname : name ∉ [[], ['.'], ['.', '.']])
    (hsep : '/' ∉ name) : components name = [name] := by
  rw [components, List.splitOn_eq_singleton hsep]
  simp_all

/-- The first component ends before the first separator. -/
theorem components_eq_cons {path : List Char}
    (h : path.takeWhile (· ≠ '/') ∉ [[], ['.']]) :
    ∃ parts, components path = path.takeWhile (· ≠ '/') :: parts := by
  have hsep : '/' ∉ path.takeWhile (· ≠ '/') := fun h => by
    simpa using List.mem_takeWhile_imp h
  have hkeep : path.takeWhile (· ≠ '/') ≠ [] ∧ path.takeWhile (· ≠ '/') ≠ ['.'] := by
    simpa using h
  have hsplit := List.takeWhile_append_dropWhile (p := (· ≠ '/')) (l := path)
  generalize path.takeWhile (· ≠ '/') = name at *
  match hrest : path.dropWhile (· ≠ '/') with
  | [] =>
    rw [hrest, List.append_nil] at hsplit
    rw [← hsplit, components, List.splitOn_eq_singleton hsep]
    exact ⟨[], by simp [hkeep]⟩
  | c :: cs =>
    have hc : c = '/' := by
      have hhead := List.head?_dropWhile_not (· ≠ '/') path
      rw [hrest] at hhead
      simpa using hhead
    rw [hrest, hc] at hsplit
    rw [← hsplit, components, List.splitOn_append_cons_self_of_not_mem hsep]
    exact ⟨components cs, by simp [components, hkeep]⟩

/-- The components of a text that goes on after another one. -/
theorem components_append (a b : List Char) :
    components (a ++ b) = components (closedPart a) ++ components (openPart a ++ b) := by
  rcases closedPart_eq a with hnil | ⟨stem, hstem⟩
  · have hopen : openPart a = a := by
      rw [← List.nil_append (openPart a), ← hnil, closedPart_append_openPart]
    rw [hnil, hopen]
    rfl
  · conv_lhs => rw [← closedPart_append_openPart a, hstem]
    rw [hstem, List.append_assoc, List.append_assoc, List.singleton_append,
      components_append_cons, components_append_cons]
    simp [components]

theorem place_append (a b : List Char) :
    place (a ++ b) = (components (openPart a ++ b)).foldl enter (place (closedPart a)) := by
  rw [place, components_append, List.foldl_append, place]

/-- Components other than `..` are entered below. -/
theorem foldl_enter {parts : List (List Char)} (h : ['.', '.'] ∉ parts) (dir : List (List Char)) :
    parts.foldl enter dir = dir ++ parts := by
  induction parts generalizing dir with
  | nil => rw [List.foldl_nil, List.append_nil]
  | cons part parts ih =>
    rw [List.mem_cons, not_or] at h
    rw [List.foldl_cons, enter, if_neg (Ne.symm h.1), ih h.2, List.append_assoc,
      List.singleton_append]

/-- What follows the text of the workspace ends in its subtree: its components are followed from
the directory in which the last component of the workspace is begun. -/
def LeadsInto (env : Environment) (ws : String) (rest : List Char) : Prop :=
  place (normalizePath env ws).toList <+:
    (components (openPart ws.toList ++ rest)).foldl enter (place (closedPart ws.toList))

section LeadsInto

variable {env : Environment} {ws path : String} {rest : List Char}

theorem within_iff_leadsInto (hpath : isAbsolute path) (h : path.toList = ws.toList ++ rest) :
    Within env ws path ↔ LeadsInto env ws rest := by
  rw [Within, LeadsInto, normalizePath_of_isAbsolute hpath, h, place_append]

/-- What begins a component of its own, without `..`, names something in the workspace. -/
theorem leadsInto_of_below (hws : isAbsolute ws) (h : ['.', '.'] ∉ components rest) :
    LeadsInto env ws ('/' :: rest) := by
  rw [LeadsInto, normalizePath_of_isAbsolute hws, ← place_append, place, place,
    components_append_cons, List.foldl_append, foldl_enter h]
  exact List.prefix_append _ _

/-- What makes the last name of the workspace longer, without `..`, names something beside it. -/
theorem not_leadsInto_of_sibling (hws : isAbsolute ws)
    (hname : openPart ws.toList ∉ [[], ['.'], ['.', '.']]) (hrest : rest.head? ≠ some '/')
    (hne : rest ≠ []) (h : ['.', '.'] ∉ components (openPart ws.toList ++ rest)) :
    ¬ LeadsInto env ws rest := by
  intro hleads
  obtain ⟨c, cs, rfl⟩ := List.exists_cons_of_ne_nil hne
  have hc : c ≠ '/' := fun hc => hrest (hc ▸ rfl)
  have hname' : openPart ws.toList ≠ [] := fun h => hname (h ▸ List.mem_cons_self)
  have hfirst : (openPart ws.toList ++ c :: cs).takeWhile (· ≠ '/') =
      openPart ws.toList ++ c :: cs.takeWhile (· ≠ '/') := by
    rw [List.takeWhile_append_of_pos fun a ha => by
      have hne : a ≠ '/' := fun h => notMem_openPart ws.toList (h ▸ ha)
      simpa using hne,
      List.takeWhile_cons_of_pos (by simpa using hc)]
  have hlong : openPart ws.toList ++ c :: cs.takeWhile (· ≠ '/') ∉ [[], ['.']] := by
    simp [List.append_eq_cons_iff, hname']
  obtain ⟨parts, hparts⟩ := components_eq_cons (hfirst ▸ hlong)
  rw [hfirst] at hparts
  have hplace : place ws.toList = place (closedPart ws.toList) ++ [openPart ws.toList] := by
    have hparent : openPart ws.toList ≠ ['.', '.'] := fun h => hname (by simp [h])
    rw [← List.append_nil ws.toList, place_append, List.append_nil, List.append_nil,
      components_name hname (notMem_openPart _), List.foldl_cons, List.foldl_nil, enter,
      if_neg hparent]
  rw [LeadsInto, normalizePath_of_isAbsolute hws, hplace, foldl_enter h, hparts,
    List.prefix_append_right_inj, List.cons_prefix_cons] at hleads
  exact List.cons_ne_nil c _ (List.self_eq_append_right.mp hleads.1)

end LeadsInto

namespace HeuristicRiskJudge

variable {env : Environment} {existing : String → Bool} {judge : HeuristicRiskJudge}
variable {ws path : String}

/-- Which writes outside the workspace are reported: where one of the two does not exist, all but
those whose path continues the text of the workspace to a place outside it. -/
theorem writeOutside_reported_iff (toLowercase : String → String)
    (hws : judge.workspace = some ws) (hpath : isAbsolute path) (cwd message : String) :
    (¬ Within env ws path →
      judge.ReportsOutside toLowercase env existing (.write path cwd message)) ↔
    (existing path ∧ existing ws) ∨ ¬ ws.toList <+: path.toList ∨
      ∃ rest, path.toList = ws.toList ++ rest ∧ LeadsInto env ws rest := by
  rw [reportsOutside_iff]
  by_cases hexisting : existing path ∧ existing ws
  · rw [isOutsideWorkspace_of_existing hws hexisting.1 hexisting.2]
    exact iff_of_true id (.inl hexisting)
  · rw [isOutsideWorkspace_of_missing hws hexisting, or_iff_right hexisting]
    constructor
    · intro h
      by_cases hprefix : ws.toList <+: path.toList
      · obtain ⟨rest, hrest⟩ := hprefix
        refine .inr ⟨rest, hrest.symm, (within_iff_leadsInto hpath hrest.symm).mp ?_⟩
        exact not_imp_comm.mp h (not_not_intro ⟨rest, hrest⟩)
      · exact .inl hprefix
    · rintro (hnotBegins | ⟨rest, hrest, hleads⟩) houtside
      · exact hnotBegins
      · exact absurd ((within_iff_leadsInto hpath hrest).mpr hleads) houtside

end HeuristicRiskJudge

namespace SiblingWrite

def env : Environment := ⟨"/home/user/proj", by decide, by decide⟩

def judge : HeuristicRiskJudge := { workspace := some "/home/user/proj" }

/-- A file that does not exist yet, in a directory whose name begins with the workspace's. -/
def path : String := "/home/user/proj-evil/x.txt"

def existing (path : String) : Bool := path = "/home/user/proj"

def toLowercase (text : String) : String := String.ofList (text.toList.map Char.toLower)

theorem reported_iff :
    (¬ Within env "/home/user/proj" path →
      judge.ReportsOutside toLowercase env existing (.write path "/home/user/proj" "")) ↔
    (existing path ∧ existing "/home/user/proj") ∨ ¬ "/home/user/proj".toList <+: path.toList ∨
      ∃ rest, path.toList = "/home/user/proj".toList ++ rest ∧
        LeadsInto env "/home/user/proj" rest :=
  HeuristicRiskJudge.writeOutside_reported_iff toLowercase rfl (by decide) "/home/user/proj" ""

theorem not_reported :
    ¬ (¬ Within env "/home/user/proj" path →
      judge.ReportsOutside toLowercase env existing (.write path "/home/user/proj" "")) := by
  decide +kernel

end SiblingWrite

end HeliosLite
