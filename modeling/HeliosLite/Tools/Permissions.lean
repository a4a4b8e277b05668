import HeliosLite.Policies.Engine
import HeliosLite.Tools.Executor

/-!
# Permissions of tool calls

In restricted mode the policy engine is asked before a call. It is asked about the path as the model
wrote it, and the executor then works on the path that this text names.

## Main definitions

* `verdict` — the permission of a call, if the engine is asked
* `ServiceRequest.touched` — the operation that a request is
* `AskedAbout` — the permission of the call is that of what it touches
* `SpelledOut` — the call names its path as it is resolved, and the engine is asked for it

## Main results

* `canPerform_eq_iff` — operations that every configuration treats alike
* `askedAbout_iff` — the engine is asked about what is touched if the call is spelled out
-/

namespace HeliosLite

open PolicyEngine

/-! ### Operations that the engine tells apart -/

section Engine

variable {matchPattern : String → String → Bool} {operation other : PermissionOperation}

mutual

theorem Policy.eval_congr
    (h : ∀ rule : Rule, rule.matches matchPattern operation = rule.matches matchPattern other) :
    ∀ policy : Policy, policy.eval matchPattern operation = policy.eval matchPattern other
  | .simple permission rule => by rw [Policy.eval, Policy.eval, h rule]
  | .all members => by rw [Policy.eval, Policy.eval, Policy.evalEach_congr h members]
  | .any members => by rw [Policy.eval, Policy.eval, Policy.evalEach_congr h members]
  | .not policy => by rw [Policy.eval, Policy.eval, Policy.eval_congr h policy]

theorem Policy.evalEach_congr
    (h : ∀ rule : Rule, rule.matches matchPattern operation = rule.matches matchPattern other) :
    ∀ policies : List Policy,
      Policy.evalEach matchPattern operation policies = Policy.evalEach matchPattern other policies
  | [] => rfl
  | policy :: policies => by
    rw [Policy.evalEach, Policy.evalEach, Policy.eval_congr h policy,
      Policy.evalEach_congr h policies]

end

theorem evaluatePolicySet_congr
    (h : ∀ rule : Rule, rule.matches matchPattern operation = rule.matches matchPattern other)
    (lastAllow : Option Permission) (policies : List Policy) :
    evaluatePolicySet matchPattern operation lastAllow policies =
      evaluatePolicySet matchPattern other lastAllow policies := by
  induction policies generalizing lastAllow with
  | nil => rfl
  | cons policy policies ih =>
    rw [evaluatePolicySet, evaluatePolicySet, Policy.eval_congr h policy, ih, ih]

/-- A configuration with one policy, which allows what the rule matches. -/
theorem canPerform_single (rule : Rule) :
    canPerform matchPattern operation (.ofList [.simple .allow rule]) = .allow ↔
      rule.matches matchPattern operation = true := by
  rw [canPerform_eq_allow_iff]
  simp only [PolicyConfig.mem_ofList, List.mem_singleton, exists_eq_left, forall_eq, Refuses,
    Policy.eval]
  cases rule.matches matchPattern operation <;> simp

/-- Every configuration treats two operations alike exactly if every rule does. -/
theorem canPerform_eq_iff :
    (∀ config, canPerform matchPattern operation config = canPerform matchPattern other config) ↔
      ∀ rule : Rule, rule.matches matchPattern operation = rule.matches matchPattern other := by
  constructor
  · intro h rule
    rw [Bool.eq_iff_iff, ← canPerform_single, ← canPerform_single, h]
  · intro h config
    rw [canPerform, canPerform, evaluatePolicies, evaluatePolicies, evaluatePolicySet_congr h]

end Engine

/-- For every text there is a pattern that matches it and nothing else, as `Pattern::escape` gives
one. -/
def CanEscape (matchPattern : String → String → Bool) : Prop :=
  ∀ text, ∃ pattern, ∀ other, matchPattern pattern other = true ↔ other = text

section Escape

variable {matchPattern : String → String → Bool} {path other cwd message message' command : String}

/-- Operations about a text, where some rules match exactly the texts that their pattern matches. -/
theorem canPerform_text_iff (hescape : CanEscape matchPattern)
    {f g : String → PermissionOperation} {r : String → Rule}
    (h : ∀ pattern text, (r pattern).matches matchPattern (f text) = matchPattern pattern text)
    (hsame : ∀ text (rule : Rule), rule.matches matchPattern (f text) =
      rule.matches matchPattern (g text)) :
    (∀ config, canPerform matchPattern (f path) config =
        canPerform matchPattern (g other) config) ↔ path = other := by
  rw [canPerform_eq_iff]
  constructor
  · intro hrules
    obtain ⟨pattern, hpattern⟩ := hescape path
    have hrule := hrules (r pattern)
    rw [← hsame, h, h, (hpattern path).mpr rfl] at hrule
    exact ((hpattern other).mp hrule.symm).symm
  · rintro rfl rule
    exact hsame path rule

theorem canPerform_write_iff (hescape : CanEscape matchPattern) :
    (∀ config, canPerform matchPattern (.write path cwd message) config =
        canPerform matchPattern (.write other cwd message') config) ↔ path = other :=
  canPerform_text_iff (f := fun text => .write text cwd message)
    (g := fun text => .write text cwd message') (r := fun pattern => .write pattern none) hescape
    (fun _ _ => Bool.and_true _) fun _ rule => by cases rule <;> rfl

theorem canPerform_read_iff (hescape : CanEscape matchPattern) :
    (∀ config, canPerform matchPattern (.read path cwd message) config =
        canPerform matchPattern (.read other cwd message') config) ↔ path = other :=
  canPerform_text_iff (f := fun text => .read text cwd message)
    (g := fun text => .read text cwd message') (r := fun pattern => .read pattern none) hescape
    (fun _ _ => Bool.and_true _) fun _ rule => by cases rule <;> rfl

/-- Commands are told apart by their directory. -/
theorem canPerform_execute_iff (hescape : CanEscape matchPattern) :
    (∀ config, canPerform matchPattern (.execute command path) config =
        canPerform matchPattern (.execute command other) config) ↔ path = other := by
  obtain ⟨pattern, hpattern⟩ := hescape command
  refine canPerform_text_iff (f := fun text => .execute command text)
    (g := fun text => .execute command text) (r := fun dir => .execute pattern (some dir)) hescape
    ?_ fun _ _ => rfl
  intro dir text
  rw [Rule.matches, (hpattern command).mpr rfl, Bool.true_and]
  rfl

end Escape

/-! ### What a call touches -/

/-- The file of a plan. -/
def planPath (env : Environment) (today : String) (input : PlanCreate) : String :=
  joinPath (joinPath env.cwd "plans")
    (today ++ "-" ++ input.planName ++ "-" ++ input.version ++ ".md")

/-- The operation that a request is: the file that is read, created, changed or removed, or the
directory in which a command runs. -/
def ServiceRequest.touched (env : Environment) (today : String) :
    ServiceRequest → Option PermissionOperation
  | .read path _ _ | .search (some path) _ => some (.read (resolve path) env.cwd "")
  | .write path _ _ | .remove path | .patch path _ _ _ | .multiPatch path _ | .undo path =>
    some (.write (resolve path) env.cwd "")
  | .execute command cwd => some (.execute command (resolve cwd))
  | .createPlan input => some (.write (resolve (planPath env today input)) env.cwd "")
  | .search none _ | .fetch _ | .other _ => none

section Verdict

variable (matchPattern : String → String → Bool) (env : Environment)

/-- The permission of a call, if the engine is asked. -/
def verdict (config : PolicyConfig) (call : ToolCatalog) : Option Permission :=
  (call.toPolicyOperation env).map fun operation => canPerform matchPattern operation config

/-- Whatever the policies are, the permission of the call is that of what it touches. -/
def AskedAbout (today : String) (call : ToolCatalog) : Prop :=
  ∀ object ∈ (call.toRequest env).touched env today, ∀ config,
    verdict matchPattern env config call = some (canPerform matchPattern object config)

/-- The path is written as it is resolved. -/
def Resolved (path : String) : Prop := resolve (normalizePath env path) = path

/-- The path of the call is written as it is resolved, or its command runs in the working directory;
and it is not one of the calls that change a file and are not asked about. -/
def SpelledOut : ToolCatalog → Prop
  | .read input => Resolved env input.filePath
  | .write input => Resolved env input.filePath
  | .fsSearch input => ∀ path ∈ input.path, Resolved env path
  | .remove path => Resolved env path
  | .patch input => Resolved env input.filePath
  | .multiPatch input => Resolved env input.filePath
  | .shell input => resolve (normalizePath env (input.cwd.getD env.cwd)) = env.cwd
  | .undo _ | .plan _ => False
  | .semSearch | .fetch _ | .followup | .skill | .todoWrite | .todoRead | .task => True

end Verdict

section Main

variable {matchPattern : String → String → Bool} {env : Environment} {today : String}

/-- A call that is not asked about. -/
theorem not_askedAbout {call : ToolCatalog} {object : PermissionOperation}
    (htouched : (call.toRequest env).touched env today = some object)
    (hnone : call.toPolicyOperation env = none) : ¬ AskedAbout matchPattern env today call := by
  intro h
  have hverdict := h object htouched PolicyConfig.new
  rw [verdict, hnone] at hverdict
  cases hverdict

theorem askedAbout_of_some {call : ToolCatalog} {object operation : PermissionOperation}
    (htouched : (call.toRequest env).touched env today = some object)
    (hoperation : call.toPolicyOperation env = some operation) :
    AskedAbout matchPattern env today call ↔
      ∀ config, canPerform matchPattern operation config =
        canPerform matchPattern object config := by
  simp only [AskedAbout, htouched, Option.mem_def, Option.some_inj, forall_eq', verdict,
    hoperation, Option.map_some]

theorem askedAbout_iff_spelledOut (hescape : CanEscape matchPattern) (call : ToolCatalog) :
    AskedAbout matchPattern env today call ↔ SpelledOut env call := by
  cases call with
  | read input =>
    rw [askedAbout_of_some rfl rfl, canPerform_read_iff hescape]
    exact eq_comm
  | write | remove | patch | multiPatch =>
    rw [askedAbout_of_some rfl rfl, canPerform_write_iff hescape]
    exact eq_comm
  | fsSearch input =>
    obtain ⟨pattern, path, glob, fileType⟩ := input
    cases path with
    | none => exact iff_of_true nofun nofun
    | some path =>
      rw [askedAbout_of_some rfl rfl, canPerform_read_iff hescape]
      simp [SpelledOut, Resolved, eq_comm]
  | shell input =>
    rw [askedAbout_of_some rfl rfl, canPerform_execute_iff hescape]
    exact eq_comm
  | undo | plan => exact iff_of_false (not_askedAbout rfl rfl) id
  | _ => exact iff_of_true nofun trivial

/-- The path that a call names. -/
def ToolCatalog.namedPath : ToolCatalog → Option String
  | fsSearch input => input.path
  | call => call.filePath

/-- The operation on a path that a tool is asked about. -/
def ToolKind.pathOperation (kind : ToolKind) (path cwd message : String) :
    Option PermissionOperation :=
  if kind = .undo then none
  else if kind = .read ∨ kind = .fsSearch then some (.read path cwd message)
  else some (.write path cwd message)

theorem toPolicyOperation_of_namedPath {call : ToolCatalog} {path : String}
    (h : call.namedPath = some path) :
    ∃ message, call.toPolicyOperation env = call.kind.pathOperation path env.cwd message := by
  cases call with
  | fsSearch input =>
    obtain ⟨pattern, searched, glob, fileType⟩ := input
    obtain rfl : searched = some path := h
    exact ⟨_, rfl⟩
  | read | write | remove | patch | multiPatch =>
    obtain rfl := Option.some.inj h
    exact ⟨_, rfl⟩
  | undo => exact ⟨"", rfl⟩
  | _ => cases h

/-- Two calls of one tool on one path: the engine tells them apart if they are spelled in different
ways. -/
theorem verdict_eq_iff (hescape : CanEscape matchPattern) {call other : ToolCatalog}
    {path path' : String} (hkind : call.kind = other.kind) (hcall : call.namedPath = some path)
    (hother : other.namedPath = some path') :
    (∀ config, verdict matchPattern env config call = verdict matchPattern env config other) ↔
      call.kind = .undo ∨ path = path' := by
  obtain ⟨message, hoperation⟩ := @toPolicyOperation_of_namedPath env _ _ hcall
  obtain ⟨message', hoperation'⟩ := @toPolicyOperation_of_namedPath env _ _ hother
  rw [← hkind] at hoperation'
  simp only [verdict, hoperation, hoperation', ToolKind.pathOperation]
  by_cases hundo : call.kind = .undo
  · simp [hundo]
  by_cases hread : call.kind = .read ∨ call.kind = .fsSearch
  · simpa [hundo, hread] using canPerform_read_iff hescape
  · simpa [hundo, hread] using canPerform_write_iff hescape

/-- For every call the engine is asked about what the call touches, and tells calls of one tool on
one path apart only if they touch different objects, exactly under the conditions on how their
paths are spelled. -/
theorem askedAbout_iff (hescape : CanEscape matchPattern) (env : Environment) (today : String)
    (call : ToolCatalog) :
    (AskedAbout matchPattern env today call ↔ SpelledOut env call) ∧
      ∀ other path path', call.kind = other.kind → call.namedPath = some path →
        other.namedPath = some path' →
        resolve (normalizePath env path) = resolve (normalizePath env path') →
        ((∀ config, verdict matchPattern env config call =
            verdict matchPattern env config other) ↔ call.kind = .undo ∨ path = path') :=
  ⟨askedAbout_iff_spelledOut hescape call,
    fun _ _ _ hkind hcall hother _ => verdict_eq_iff hescape hkind hcall hother⟩

end Main

namespace Glob

/-- Glob patterns with classes of one character. -/
def globMatches : List Char → List Char → Bool
  | [], text => text.isEmpty
  | '*' :: pattern, text => text.tails.any (globMatches pattern)
  | '?' :: pattern, _ :: text => globMatches pattern text
  | '[' :: c :: ']' :: pattern, d :: text => c = d && globMatches pattern text
  | c :: pattern, d :: text => c = d && globMatches pattern text
  | _ :: _, [] => false

def matchPattern (pattern text : String) : Bool := globMatches pattern.toList text.toList

/-- A character as a pattern for itself. -/
def escapeChar (c : Char) : List Char := if c ∈ ['?', '*', '[', ']'] then ['[', c, ']'] else [c]

attribute [grind =] globMatches matchPattern escapeChar

/-- A character that is not special stands for itself. -/
theorem globMatches_cons {c : Char} (h : c ∉ ['?', '*', '[', ']']) (pattern text : List Char) :
    globMatches (c :: pattern) text =
      (decide (text.head? = some c) && globMatches pattern text.tail) := by
  simp only [List.mem_cons, List.not_mem_nil, or_false, not_or] at h
  obtain ⟨hquestion, hstar, hopen, -⟩ := h
  cases text with
  | nil =>
    rw [globMatches]
    · rfl
    · exact hstar
  | cons d text =>
    rw [globMatches]
    · simp [eq_comm]
    · exact hstar
    · intro hc
      exact absurd hc hquestion
    · intro _ _ hc
      exact absurd hc hopen

theorem globMatches_class (c : Char) (pattern text : List Char) :
    globMatches ('[' :: c :: ']' :: pattern) text =
      (decide (text.head? = some c) && globMatches pattern text.tail) := by
  cases text with
  | nil => rfl
  | cons d text =>
    rw [globMatches]
    simp [eq_comm]

theorem globMatches_escapeChar (c : Char) (pattern text : List Char) :
    globMatches (escapeChar c ++ pattern) text ↔
      ∃ rest, text = c :: rest ∧ globMatches pattern rest := by
  have hmatches : globMatches (escapeChar c ++ pattern) text =
      (decide (text.head? = some c) && globMatches pattern text.tail) := by
    rw [escapeChar]
    split_ifs with hc
    · exact globMatches_class c pattern text
    · exact globMatches_cons hc pattern text
  rw [hmatches, Bool.and_eq_true, decide_eq_true_eq]
  constructor
  · rintro ⟨hhead, htail⟩
    exact ⟨text.tail, (List.cons_head?_tail hhead).symm, htail⟩
  · rintro ⟨rest, rfl, hrest⟩
    exact ⟨rfl, hrest⟩

theorem canEscape : CanEscape matchPattern := by
  intro text
  refine ⟨String.ofList (text.toList.flatMap escapeChar), ?_⟩
  intro other
  rw [matchPattern, String.toList_ofList, ← String.toList_inj]
  generalize text.toList = text
  generalize other.toList = other
  induction text generalizing other with
  | nil => simp [globMatches]
  | cons c text ih =>
    rw [List.flatMap_cons, globMatches_escapeChar]
    constructor
    · rintro ⟨rest, rfl, hrest⟩
      rw [(ih rest).mp hrest]
    · rintro rfl
      exact ⟨text, rfl, (ih text).mpr rfl⟩

def env : Environment where
  cwd := "/w"
  absolute := isAbsolute_w
  resolved := resolve_w

/-- A path that is spelled out is what the engine is asked about, and another spelling of it is
something else to the engine. -/
theorem askedAbout_spelledOut :
    AskedAbout matchPattern env "2026-01-01" (.remove "/w/src/a.rs") ∧
      ¬ ∀ config, verdict matchPattern env config (.remove "/w/src/a.rs") =
        verdict matchPattern env config (.remove "src/a.rs") := by
  obtain ⟨hasked, hpair⟩ := askedAbout_iff canEscape env "2026-01-01" (.remove "/w/src/a.rs")
  have hspelled : SpelledOut env (.remove "/w/src/a.rs") := by
    change resolve (normalizePath env "/w/src/a.rs") = "/w/src/a.rs"
    decide
  refine ⟨hasked.mpr hspelled, ?_⟩
  rw [hpair (.remove "src/a.rs") "/w/src/a.rs" "src/a.rs" rfl rfl rfl (by decide)]
  decide

/-- One file may not be written and everything else may; commands may run in one directory. -/
def config : PolicyConfig :=
  .ofList [.simple .deny (.write "/w/secret" none), .simple .allow (.write "**" none),
    .simple .allow (.execute "*" (some "/w"))]

/-- The file that may not be written is removed under a relative path, undone without being asked
about, and a command runs in a directory in which none may run. -/
theorem config_circumvented :
    verdict matchPattern env config (.remove "/w/secret") = some .deny ∧
      verdict matchPattern env config (.remove "secret") = some .allow ∧
      resolve (normalizePath env "secret") = "/w/secret" ∧
      verdict matchPattern env config (.undo "/w/secret") = none ∧
      (ToolCatalog.undo "/w/secret").toRequest env = .undo "/w/secret" ∧
      verdict matchPattern env config (.shell ⟨"ls", some "/etc"⟩) = some .allow ∧
      (ToolCatalog.shell ⟨"ls", some "/etc"⟩).toRequest env = .execute "ls" "/etc" ∧
      canPerform matchPattern (.execute "ls" "/etc") config = .deny := by
  decide +kernel

end Glob

end HeliosLite
