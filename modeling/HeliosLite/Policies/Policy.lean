import Mathlib.Data.List.Basic
import Mathlib.Data.Nat.Notation

/-!
# Policies

Rules match operations by glob patterns; policies combine permissions with the connectives
all, any and not. Glob matching is a parameter.

## Main definitions

* `Rule.matches` — whether a rule covers an operation
* `Policy.eval` — the permission a policy gives an operation, if it applies to it

## Main results

* `eval_all_isConjunction_iff` — a conjunction gives the most restrictive permission of its members
  exactly when none of them applies, or all apply and the first is the most restrictive
* `eval_all_insert_deny` — inserting a denying member allows nothing new
-/

namespace HeliosLite

inductive Permission where
  /-- Allow the operation without asking. -/
  | allow
  /-- Deny the operation without asking. -/
  | deny
  /-- Confirm with the user before allowing. -/
  | confirm
  deriving DecidableEq, Repr, Ord

/-- An operation whose permission is checked. -/
inductive PermissionOperation where
  | write (path cwd message : String)
  | read (path cwd message : String)
  | execute (command cwd : String)
  | fetch (url cwd message : String)
  deriving DecidableEq, Repr

/-- A glob pattern for one kind of operation, and one for the working directory. -/
inductive Rule where
  | write (write : String) (dir : Option String)
  | read (read : String) (dir : Option String)
  | execute (command : String) (dir : Option String)
  | fetch (url : String) (dir : Option String)
  deriving DecidableEq, Repr

inductive Policy where
  | simple (permission : Permission) (rule : Rule)
  | all (all : List Policy)
  | any (any : List Policy)
  | not (not : Policy)

section Eval

variable (matchPattern : String → String → Bool)

/-- Without a pattern for the working directory any directory matches. -/
def matchDir (dir : Option String) (cwd : String) : Bool :=
  match dir with
  | some pattern => matchPattern pattern cwd
  | none => true

def Rule.matches : Rule → PermissionOperation → Bool
  | .write pattern dir, .write path cwd _ =>
    matchPattern pattern path && matchDir matchPattern dir cwd
  | .read pattern dir, .read path cwd _ =>
    matchPattern pattern path && matchDir matchPattern dir cwd
  | .execute pattern dir, .execute command cwd =>
    matchPattern pattern command && matchDir matchPattern dir cwd
  | .fetch pattern dir, .fetch url cwd _ =>
    matchPattern pattern url && matchDir matchPattern dir cwd
  | _, _ => false

variable (operation : PermissionOperation)

mutual

/-- The permission that the policy gives the operation, if it applies. -/
def Policy.eval : Policy → Option Permission
  | .simple permission rule =>
    if rule.matches matchPattern operation then some permission else none
  -- For AND, we need all policies to pass, return the most restrictive permission
  | .all members => ((Policy.evalEach members).find? Option.isSome).join
  -- For OR, return the first matching permission
  | .any members => ((Policy.evalEach members).find? Option.isSome).join
  | .not policy =>
    match Policy.eval policy with
    | some .deny => some .allow
    | some .allow => some .deny
    | some .confirm => some .deny
    | none => none

def Policy.evalEach : List Policy → List (Option Permission)
  | [] => []
  | policy :: policies => Policy.eval policy :: Policy.evalEach policies

end

variable {matchPattern operation}

theorem Policy.evalEach_eq_map (policies : List Policy) :
    Policy.evalEach matchPattern operation policies =
      policies.map (Policy.eval matchPattern operation) := by
  induction policies with
  | nil => rfl
  | cons policy policies ih => rw [evalEach, List.map_cons, ih]

end Eval

/-! ### Conjunctions -/

/-- The result that comes first among those that apply. -/
def firstResult (results : List (Option Permission)) : Option Permission :=
  (results.find? Option.isSome).join

@[simp] theorem firstResult_nil : firstResult [] = none := rfl

@[simp] theorem firstResult_none_cons (results : List (Option Permission)) :
    firstResult (none :: results) = firstResult results := rfl

@[simp] theorem firstResult_some_cons (permission : Permission)
    (results : List (Option Permission)) :
    firstResult (some permission :: results) = some permission := rfl

theorem firstResult_eq_none_iff {results : List (Option Permission)} :
    firstResult results = none ↔ ∀ result ∈ results, result = none := by
  induction results with
  | nil => simp
  | cons result results ih => cases result <;> simp [ih]

theorem firstResult_append (front back : List (Option Permission)) :
    firstResult (front ++ back) = (firstResult front).or (firstResult back) := by
  induction front with
  | nil => rfl
  | cons result front ih =>
    cases result with
    | none => exact ih
    | some permission => rfl

/-- How much a permission restricts: denials most, confirmations less. -/
def Permission.severity : Permission → ℕ
  | .allow => 0
  | .confirm => 1
  | .deny => 2

/-- `result` is what a conjunction of members with these results should give: the most
restrictive of their permissions if all of them apply, and nothing otherwise. -/
def IsConjunction (results : List (Option Permission)) (result : Option Permission) : Prop :=
  match result with
  | some permission => (∀ r ∈ results, r.isSome) ∧ some permission ∈ results ∧
      ∀ other, some other ∈ results → other.severity ≤ permission.severity
  | none => results = [] ∨ none ∈ results

/-- Every member applies, and the first one restricts at least as much as any other. -/
def FirstMostRestrictive (results : List (Option Permission)) : Prop :=
  ∃ first, results.head? = some (some first) ∧
    ∀ result ∈ results, ∃ other, result = some other ∧ other.severity ≤ first.severity

theorem isConjunction_firstResult_iff (results : List (Option Permission)) :
    IsConjunction results (firstResult results) ↔
      (∀ result ∈ results, result = none) ∨ FirstMostRestrictive results := by
  rcases results with _ | ⟨_ | first, results⟩
  · simp [IsConjunction]
  · -- the first member does not apply: no other may apply either
    have hnot : ¬ FirstMostRestrictive (none :: results) := by
      rintro ⟨first, hhead, -⟩
      simp at hhead
    rw [firstResult_none_cons, or_iff_left hnot]
    cases hresult : firstResult results with
    | none =>
      have := firstResult_eq_none_iff.mp hresult
      simpa [IsConjunction] using this
    | some permission =>
      have hsome : ¬ ∀ result ∈ results, result = none := by
        rw [← firstResult_eq_none_iff, hresult]
        simp
      refine iff_of_false ?_ ?_
      · rintro ⟨hall, -, -⟩
        simpa using hall none List.mem_cons_self
      · intro hall
        exact hsome fun result hmem => hall result (List.mem_cons_of_mem _ hmem)
  · have hnot : ¬ ∀ result ∈ some first :: results, result = none := by simp
    rw [firstResult_some_cons, or_iff_right hnot]
    constructor
    · rintro ⟨hall, -, hmost⟩
      refine ⟨first, rfl, fun result hmem => ?_⟩
      obtain ⟨other, rfl⟩ := Option.isSome_iff_exists.mp (hall result hmem)
      exact ⟨other, rfl, hmost other hmem⟩
    · rintro ⟨first', hhead, hmost⟩
      obtain rfl : first = first' := by simpa using hhead
      refine ⟨fun result hmem => ?_, List.mem_cons_self, fun other hmem => ?_⟩
      · obtain ⟨other, rfl, -⟩ := hmost result hmem
        rfl
      · obtain ⟨other', heq, hle⟩ := hmost _ hmem
        obtain rfl : other = other' := by simpa using heq
        exact hle

section Conjunction

variable (matchPattern : String → String → Bool) (operation : PermissionOperation)

theorem eval_all (members : List Policy) :
    (Policy.all members).eval matchPattern operation =
      firstResult (members.map (Policy.eval matchPattern operation)) := by
  rw [Policy.eval, Policy.evalEach_eq_map, firstResult]

/-- A denying member, inserted anywhere, never turns a conjunction into one that allows. -/
theorem eval_all_insert_deny {front back : List Policy} {policy : Policy}
    (hdeny : policy.eval matchPattern operation = some .deny)
    (hmembers : (Policy.all (front ++ back)).eval matchPattern operation ≠ some .allow) :
    (Policy.all (front ++ policy :: back)).eval matchPattern operation ≠ some .allow := by
  rw [eval_all, List.map_append, firstResult_append] at hmembers ⊢
  rw [List.map_cons, hdeny, firstResult_some_cons]
  cases hfront : firstResult (front.map (Policy.eval matchPattern operation)) with
  | none => simp
  | some permission => simpa [hfront] using hmembers

/-- A conjunction gives the most restrictive permission of its members, and no denying member
added to it allows anything new, exactly when none of its members applies, or all apply and
the first is the most restrictive. -/
theorem eval_all_isConjunction_iff (members : List Policy) :
    (IsConjunction (members.map (Policy.eval matchPattern operation))
        ((Policy.all members).eval matchPattern operation) ∧
      ∀ front back policy, members = front ++ back →
        policy.eval matchPattern operation = some .deny →
        (Policy.all members).eval matchPattern operation ≠ some .allow →
        (Policy.all (front ++ policy :: back)).eval matchPattern operation ≠ some .allow) ↔
      (∀ policy ∈ members, policy.eval matchPattern operation = none) ∨
        FirstMostRestrictive (members.map (Policy.eval matchPattern operation)) := by
  have hinsert : ∀ front back policy, members = front ++ back →
      policy.eval matchPattern operation = some .deny →
      (Policy.all members).eval matchPattern operation ≠ some .allow →
      (Policy.all (front ++ policy :: back)).eval matchPattern operation ≠ some .allow := by
    rintro front back policy rfl
    exact eval_all_insert_deny matchPattern operation
  rw [and_iff_left hinsert, eval_all, isConjunction_firstResult_iff]
  simp

/-- A conjunction whose first member allows and whose second member denies allows. -/
theorem eval_all_allows_denied :
    let rule := Rule.read "**" none
    let members := [Policy.simple .allow rule, Policy.simple .deny rule]
    let operation := PermissionOperation.read "/tmp/notes" "/tmp" ""
    (Policy.all members).eval (fun _ _ => true) operation = some .allow ∧
      ¬ IsConjunction (members.map (Policy.eval (fun _ _ => true) operation))
        ((Policy.all members).eval (fun _ _ => true) operation) := by
  refine ⟨rfl, ?_⟩
  rintro ⟨-, -, hmost⟩
  exact absurd (hmost .deny (by decide)) (by decide)

end Conjunction

end HeliosLite
