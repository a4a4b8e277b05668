import HeliosLite.Policies.Order

/-!
# The policy engine

The engine walks the policies of a configuration in order and stops at the first one that
does not allow.

## Main definitions

* `PolicyEngine.canPerform` — the permission for an operation
* `ConfirmsFirst` — a policy that asks for confirmation precedes every policy that denies

## Main results

* `canPerform_cases` — the permission comes from the first policy that does not allow
* `canPerform_ofList` — a denial is overruled by an earlier confirmation only, and allowing
  takes a policy that allows and none that denies or asks
-/

namespace HeliosLite

namespace PolicyEngine

section Engine

variable (matchPattern : String → String → Bool) (operation : PermissionOperation)

/-- The first result that does not allow, or the last one that does; `lastAllow` is the
one found so far. -/
def evaluatePolicySet (lastAllow : Option Permission) : List Policy → Option Permission
  | [] => lastAllow
  | policy :: policies =>
    match policy.eval matchPattern operation with
    | some .deny => some .deny
    | some .confirm => some .confirm
    | some .allow => evaluatePolicySet (some .allow) policies
    | none => evaluatePolicySet lastAllow policies

def evaluatePolicies (config : PolicyConfig) : Permission :=
  -- default-deny when no policies are configured
  if config.policies.isEmpty then .deny
  else
    match evaluatePolicySet matchPattern operation none config.policies with
    | some .deny => .deny
    | some .confirm => .confirm
    | some .allow => .allow
    -- default-deny when no rule matches
    | none => .deny

/-- The permission for an operation. -/
def canPerform (config : PolicyConfig) : Permission :=
  evaluatePolicies matchPattern operation config

end Engine

variable {matchPattern : String → String → Bool} {operation : PermissionOperation}

/-- The policy denies the operation or asks for confirmation. -/
def Refuses (matchPattern : String → String → Bool) (operation : PermissionOperation)
    (policy : Policy) : Prop :=
  policy.eval matchPattern operation = some .deny ∨
    policy.eval matchPattern operation = some .confirm

instance (policy : Policy) : Decidable (Refuses matchPattern operation policy) := by
  unfold Refuses
  infer_instance

/-- Policies that do not refuse pass the walk on, and it remembers whether one allowed. -/
theorem evaluatePolicySet_append {front : List Policy} (rest : List Policy)
    (lastAllow : Option Permission)
    (h : ∀ policy ∈ front, ¬ Refuses matchPattern operation policy) :
    evaluatePolicySet matchPattern operation lastAllow (front ++ rest) =
      evaluatePolicySet matchPattern operation
        (if front.any fun policy => policy.eval matchPattern operation = some .allow
          then some .allow else lastAllow) rest := by
  induction front generalizing lastAllow with
  | nil => rfl
  | cons policy front ih =>
    have hpolicy := h policy List.mem_cons_self
    have hfront := fun last => ih last fun q hq => h q (List.mem_cons_of_mem _ hq)
    rw [List.cons_append, evaluatePolicySet, List.any_cons]
    cases heval : policy.eval matchPattern operation with
    | none => simpa using hfront lastAllow
    | some permission =>
      cases permission with
      | allow => simpa using hfront (some .allow)
      | deny => exact absurd (Or.inl heval) hpolicy
      | confirm => exact absurd (Or.inr heval) hpolicy

/-- The permission comes from the first policy that refuses; without one, it is to allow when
a policy allows, and to deny otherwise. -/
theorem canPerform_cases (config : PolicyConfig) :
    (∃ front policy back, config.policies = front ++ policy :: back ∧
      (∀ other ∈ front, ¬ Refuses matchPattern operation other) ∧
      Refuses matchPattern operation policy ∧
      policy.eval matchPattern operation = some (canPerform matchPattern operation config)) ∨
    ((∀ policy ∈ config.policies, ¬ Refuses matchPattern operation policy) ∧
      canPerform matchPattern operation config =
        if config.policies.any fun policy => policy.eval matchPattern operation = some .allow
        then .allow else .deny) := by
  rw [canPerform, evaluatePolicies]
  cases hfind : config.policies.find? fun policy => Refuses matchPattern operation policy with
  | some policy =>
    obtain ⟨hrefuses, front, back, happend, hfront⟩ := List.find?_eq_some_iff_append.mp hfind
    have hrefuses : Refuses matchPattern operation policy := by simpa using hrefuses
    have hfront : ∀ other ∈ front, ¬ Refuses matchPattern operation other := by simpa using hfront
    refine Or.inl ⟨front, policy, back, happend, hfront, hrefuses, ?_⟩
    rw [if_neg (by simp [happend]), happend, evaluatePolicySet_append _ _ hfront,
      evaluatePolicySet]
    rcases hrefuses with heval | heval <;> rw [heval]
  | none =>
    have hnone : ∀ policy ∈ config.policies, ¬ Refuses matchPattern operation policy := by
      simpa using hfind
    have hwalk := evaluatePolicySet_append [] none hnone
    rw [List.append_nil, evaluatePolicySet] at hwalk
    refine Or.inr ⟨hnone, ?_⟩
    rw [hwalk]
    split_ifs with hempty hallow
    · simp_all
    · rfl
    · rfl
    · rfl

/-- A policy of the list asks for confirmation and precedes every policy that denies. -/
def ConfirmsFirst (matchPattern : String → String → Bool) (operation : PermissionOperation)
    (policies : List Policy) : Prop :=
  ∃ confirming ∈ policies, confirming.eval matchPattern operation = some .confirm ∧
    ∀ denying ∈ policies, denying.eval matchPattern operation = some .deny →
      confirming.cmp denying = .lt

/-- Where one policy stands in a sorted list, the others stand before or behind it. -/
theorem mem_of_append {config : PolicyConfig} {front back : List Policy} {policy other : Policy}
    (happend : config.policies = front ++ policy :: back) (hmem : other ∈ config.policies) :
    other ∈ front ∨ other = policy ∨ policy.cmp other = .lt := by
  have hsorted := config.sorted
  rw [happend] at hsorted hmem
  rcases List.mem_append.mp hmem with hfront | hrest
  · exact Or.inl hfront
  rcases List.mem_cons.mp hrest with heq | hback
  · exact Or.inr (Or.inl heq)
  · have hrest := (List.pairwise_append.mp hsorted).2.1
    exact Or.inr (Or.inr ((List.pairwise_cons.mp hrest).1 other hback))

/-- Where some policy denies, the engine asks for confirmation if a policy that asks precedes
all that deny, and denies otherwise. -/
theorem canPerform_of_deny {config : PolicyConfig} {denying : Policy}
    (hmem : denying ∈ config.policies)
    (hdeny : denying.eval matchPattern operation = some .deny) :
    (ConfirmsFirst matchPattern operation config.policies →
        canPerform matchPattern operation config = .confirm) ∧
      (¬ ConfirmsFirst matchPattern operation config.policies →
        canPerform matchPattern operation config = .deny) := by
  rcases canPerform_cases config with
    ⟨front, policy, back, happend, hfront, hrefuses, heval⟩ | ⟨hnone, -⟩
  · rcases hrefuses with hpolicy | hpolicy
    · -- the first refusal is a denial: nothing that asks precedes it
      have hresult : canPerform matchPattern operation config = .deny := by
        simpa [hpolicy] using heval.symm
      refine ⟨?_, fun _ => hresult⟩
      rintro ⟨confirming, hconf, hconfirm, hfirst⟩
      have hlt := hfirst policy (by simp [happend]) hpolicy
      rcases mem_of_append happend hconf with hbefore | rfl | hbehind
      · exact absurd (Or.inr hconfirm) (hfront confirming hbefore)
      · simp [hpolicy] at hconfirm
      · simp [Policy.cmp_asymm hlt] at hbehind
    · have hresult : canPerform matchPattern operation config = .confirm := by
        simpa [hpolicy] using heval.symm
      refine ⟨fun _ => hresult, fun hnot => absurd ?_ hnot⟩
      refine ⟨policy, by simp [happend], hpolicy, fun other hother hdenies => ?_⟩
      rcases mem_of_append happend hother with hbefore | rfl | hbehind
      · exact absurd (Or.inl hdenies) (hfront other hbefore)
      · simp [hpolicy] at hdenies
      · exact hbehind
  · exact absurd (Or.inl hdeny) (hnone denying hmem)

theorem canPerform_eq_allow_iff (config : PolicyConfig) :
    canPerform matchPattern operation config = .allow ↔
      (∃ policy ∈ config.policies, policy.eval matchPattern operation = some .allow) ∧
        ∀ policy ∈ config.policies, ¬ Refuses matchPattern operation policy := by
  rcases canPerform_cases config with
    ⟨front, policy, back, happend, -, hrefuses, heval⟩ | ⟨hnone, heval⟩
  · refine iff_of_false (fun hallow => ?_) fun hall => hall.2 policy (by simp [happend]) hrefuses
    rw [hallow] at heval
    simp [Refuses, heval] at hrefuses
  · rw [and_iff_left hnone, heval]
    simp

/-- A simple policy that denies precedes every simple policy that asks for confirmation. -/
theorem not_confirmsFirst_of_simple {policies : List Policy}
    (hsimple : ∀ policy ∈ policies, ∃ permission rule, policy = .simple permission rule)
    (hdeny : ∃ policy ∈ policies, policy.eval matchPattern operation = some .deny) :
    ¬ ConfirmsFirst matchPattern operation policies := by
  have heval : ∀ permission rule result,
      (Policy.simple permission rule).eval matchPattern operation = some result →
        permission = result := fun permission rule result h => by
    rw [Policy.eval] at h
    split_ifs at h
    exact Option.some.inj h
  rintro ⟨confirming, hconf, hconfirm, hfirst⟩
  obtain ⟨denying, hmem, hdenies⟩ := hdeny
  have hlt := hfirst denying hmem hdenies
  obtain ⟨permission, rule, rfl⟩ := hsimple confirming hconf
  obtain ⟨permission', rule', rfl⟩ := hsimple denying hmem
  obtain rfl := heval _ _ _ hconfirm
  obtain rfl := heval _ _ _ hdenies
  exact Ordering.noConfusion hlt

/-- For the configuration of any list of policies: a denial is overruled only by a
confirmation that precedes every denial, and never where all policies are simple; and the
engine allows exactly when a policy allows and none denies or asks for confirmation. -/
theorem canPerform_ofList (matchPattern : String → String → Bool)
    (operation : PermissionOperation) (policies : List Policy) :
    ((∃ policy ∈ policies, policy.eval matchPattern operation = some .deny) →
      (ConfirmsFirst matchPattern operation policies →
        canPerform matchPattern operation (.ofList policies) = .confirm) ∧
      (¬ ConfirmsFirst matchPattern operation policies →
        canPerform matchPattern operation (.ofList policies) = .deny) ∧
      ((∀ policy ∈ policies, ∃ permission rule, policy = .simple permission rule) →
        canPerform matchPattern operation (.ofList policies) = .deny)) ∧
    (canPerform matchPattern operation (.ofList policies) = .allow ↔
      (∃ policy ∈ policies, policy.eval matchPattern operation = some .allow) ∧
        ∀ policy ∈ policies, policy.eval matchPattern operation ≠ some .deny ∧
          policy.eval matchPattern operation ≠ some .confirm) := by
  have hfirst : ConfirmsFirst matchPattern operation (PolicyConfig.ofList policies).policies ↔
      ConfirmsFirst matchPattern operation policies := by
    simp only [ConfirmsFirst, PolicyConfig.mem_ofList]
  constructor
  · rintro ⟨denying, hmem, hdeny⟩
    obtain ⟨hconfirm, hdenied⟩ := canPerform_of_deny (PolicyConfig.mem_ofList.mpr hmem) hdeny
    rw [hfirst] at hconfirm hdenied
    refine ⟨hconfirm, hdenied, fun hsimple => hdenied ?_⟩
    exact not_confirmsFirst_of_simple hsimple ⟨denying, hmem, hdeny⟩
  · rw [canPerform_eq_allow_iff]
    simp only [PolicyConfig.mem_ofList, Refuses, not_or, ne_eq]

/-- A simple policy that asks for confirmation precedes a conjunction that denies. -/
theorem canPerform_confirms_denied :
    let rule := Rule.execute "*" none
    let policies := [Policy.simple .confirm rule, Policy.all [Policy.simple .deny rule]]
    let operation := PermissionOperation.execute "ls" "/tmp"
    (∃ policy ∈ policies, policy.eval (fun _ _ => true) operation = some .deny) ∧
      canPerform (fun _ _ => true) operation (.ofList policies) = .confirm :=
  ⟨⟨_, List.mem_cons_of_mem _ List.mem_cons_self, rfl⟩, rfl⟩

end PolicyEngine

end HeliosLite
