import Mathlib.Data.String.Basic
import HeliosLite.Policies.Policy

/-!
# The order of policies

A configuration keeps its policies in a sorted set. The order compares the kind of two
policies first and then their parts from left to right.

## Main definitions

* `Policy.cmp` — the order
* `PolicyConfig` — a sorted set of policies

## Main results

* `Policy.cmp_eq_iff`, `Policy.cmp_swap`, `Policy.cmp_trans` — the order is total and strict
* `PolicyConfig.mem_addPolicy` — adding a policy adds that policy
-/

namespace HeliosLite

/-! ### Rules -/

def Rule.kind : Rule → ℕ
  | .write .. => 0
  | .read .. => 1
  | .execute .. => 2
  | .fetch .. => 3

def Rule.pattern : Rule → String
  | .write pattern _ | .read pattern _ | .execute pattern _ | .fetch pattern _ => pattern

def Rule.dir : Rule → Option String
  | .write _ dir | .read _ dir | .execute _ dir | .fetch _ dir => dir

/-- Rules are compared by their kind, their pattern and their directory. -/
def Rule.cmp (r s : Rule) : Ordering :=
  (compare r.kind s.kind).then ((compare r.pattern s.pattern).then (compare r.dir s.dir))

theorem Rule.cmp_eq_iff {r s : Rule} : r.cmp s = .eq ↔ r = s := by
  constructor
  · intro h
    simp only [Rule.cmp, Ordering.then_eq_eq, Std.LawfulEqOrd.compare_eq_iff_eq] at h
    obtain ⟨hkind, hpattern, hdir⟩ := h
    cases r <;> cases s <;> simp_all [Rule.kind, Rule.pattern, Rule.dir]
  · rintro rfl
    simp [Rule.cmp]

instance : Std.TransCmp Rule.cmp :=
  inferInstanceAs (Std.TransCmp (compareLex (compareOn Rule.kind)
    (compareLex (compareOn Rule.pattern) (compareOn Rule.dir))))

instance : Std.TransOrd Permission where
  eq_swap {a b} := by cases a <;> cases b <;> rfl
  isLE_trans {a b c} hab hbc := by
    revert hab hbc
    cases a <;> cases b <;> cases c <;> decide

instance : Std.LawfulEqOrd Permission where
  eq_of_compare {a b} h := by
    revert h
    cases a <;> cases b <;> decide

/-! ### Policies -/

namespace Policy

/-- The position of the kind of policy in its declaration. -/
def variant : Policy → ℕ
  | .simple .. => 0
  | .all _ => 1
  | .any _ => 2
  | .not _ => 3

mutual

/-- Policies of different kinds are compared by kind, others part by part. -/
def cmp : Policy → Policy → Ordering
  | .simple permission rule, .simple permission' rule' =>
    (compare permission permission').then (rule.cmp rule')
  | .all members, .all members' => cmpList members members'
  | .any members, .any members' => cmpList members members'
  | .not policy, .not policy' => cmp policy policy'
  | policy, policy' => compare policy.variant policy'.variant

/-- Lists are compared member by member, and a list comes after its proper prefixes. -/
def cmpList : List Policy → List Policy → Ordering
  | [], [] => .eq
  | [], _ :: _ => .lt
  | _ :: _, [] => .gt
  | policy :: policies, policy' :: policies' =>
    (cmp policy policy').then (cmpList policies policies')

end

mutual

theorem cmp_self : ∀ p : Policy, p.cmp p = .eq
  | .simple permission rule => by
    rw [cmp, Std.ReflOrd.compare_self, Rule.cmp_eq_iff.mpr rfl, Ordering.eq_then]
  | .all members => by rw [cmp, cmpList_self]
  | .any members => by rw [cmp, cmpList_self]
  | .not policy => by rw [cmp, cmp_self policy]

theorem cmpList_self : ∀ ps : List Policy, cmpList ps ps = .eq
  | [] => rfl
  | p :: ps => by rw [cmpList, cmp_self p, cmpList_self ps, Ordering.eq_then]

end

mutual

theorem cmp_swap : ∀ p q : Policy, (p.cmp q).swap = q.cmp p
  | .simple a r, .simple b s => by
    rw [cmp, cmp, Ordering.swap_then, ← Std.OrientedCmp.eq_swap, ← Std.OrientedCmp.eq_swap]
  | .all ps, .all qs => by rw [cmp, cmp, cmpList_swap]
  | .any ps, .any qs => by rw [cmp, cmp, cmpList_swap]
  | .not p, .not q => by rw [cmp, cmp, cmp_swap]
  | .simple .., .all _ | .simple .., .any _ | .simple .., .not _ | .all _, .simple ..
  | .all _, .any _ | .all _, .not _ | .any _, .simple .. | .any _, .all _ | .any _, .not _
  | .not _, .simple .. | .not _, .all _ | .not _, .any _ => rfl

theorem cmpList_swap : ∀ ps qs : List Policy, (cmpList ps qs).swap = cmpList qs ps
  | [], [] | [], _ :: _ | _ :: _, [] => rfl
  | p :: ps, q :: qs => by
    rw [cmpList, cmpList, Ordering.swap_then, cmp_swap, cmpList_swap]

end

mutual

theorem eq_of_cmp : ∀ p q : Policy, p.cmp q = .eq → p = q
  | .simple a r, .simple b s, h => by
    rw [cmp, Ordering.then_eq_eq, Std.LawfulEqOrd.compare_eq_iff_eq, Rule.cmp_eq_iff] at h
    rw [h.1, h.2]
  | .all ps, .all qs, h => by
    rw [cmp] at h
    rw [eq_of_cmpList ps qs h]
  | .any ps, .any qs, h => by
    rw [cmp] at h
    rw [eq_of_cmpList ps qs h]
  | .not p, .not q, h => by
    rw [cmp] at h
    rw [eq_of_cmp p q h]

theorem eq_of_cmpList : ∀ ps qs : List Policy, cmpList ps qs = .eq → ps = qs
  | [], [], _ => rfl
  | p :: ps, q :: qs, h => by
    rw [cmpList, Ordering.then_eq_eq] at h
    rw [eq_of_cmp p q h.1, eq_of_cmpList ps qs h.2]

end

theorem cmp_eq_iff {p q : Policy} : p.cmp q = .eq ↔ p = q :=
  ⟨eq_of_cmp p q, fun h => h ▸ cmp_self p⟩

/-- Comparisons by two keys compose when the comparisons by each key do. -/
private theorem then_lt_trans {a b c a' b' c' : Ordering}
    (hlt : a = .lt → b = .lt → c = .lt) (hleft : a = .eq → c = b) (hright : b = .eq → c = a)
    (hrest : a' = .lt → b' = .lt → c' = .lt) (h : a.then a' = .lt) (h' : b.then b' = .lt) :
    c.then c' = .lt := by
  rcases Ordering.then_eq_lt.mp h with ha | ⟨ha, ha'⟩
  · rcases Ordering.then_eq_lt.mp h' with hb | ⟨hb, -⟩
    · rw [hlt ha hb, Ordering.lt_then]
    · rw [hright hb, ha, Ordering.lt_then]
  · rcases Ordering.then_eq_lt.mp h' with hb | ⟨hb, hb'⟩
    · rw [hleft ha, hb, Ordering.lt_then]
    · rw [hleft ha, hb, Ordering.eq_then, hrest ha' hb']

theorem cmp_of_variant_lt {p q : Policy} (h : p.variant < q.variant) : p.cmp q = .lt := by
  cases p <;> cases q <;> first | rfl | (simp [variant] at h)

theorem variant_le_of_cmp {p q : Policy} (h : p.cmp q = .lt) : p.variant ≤ q.variant := by
  by_contra hlt
  have hswap := cmp_swap q p
  rw [cmp_of_variant_lt (not_le.mp hlt), h] at hswap
  exact Ordering.noConfusion hswap

/-- A comparison of three policies composes once it does when all three are of one kind. -/
private theorem cmp_trans_of_same {p q r : Policy} (h : p.cmp q = .lt) (h' : q.cmp r = .lt)
    (hsame : p.variant = q.variant → q.variant = r.variant → p.cmp r = .lt) :
    p.cmp r = .lt := by
  rcases (variant_le_of_cmp h).lt_or_eq with hpq | hpq
  · exact cmp_of_variant_lt (hpq.trans_le (variant_le_of_cmp h'))
  rcases (variant_le_of_cmp h').lt_or_eq with hqr | hqr
  · exact cmp_of_variant_lt (hpq.trans_lt hqr)
  · exact hsame hpq hqr

mutual

theorem cmp_trans_of_variant : ∀ p q r : Policy, p.variant = q.variant →
    q.variant = r.variant → p.cmp q = .lt → q.cmp r = .lt → p.cmp r = .lt
  | .simple a r, .simple b s, .simple c t, _, _, h, h' => by
    rw [cmp] at h h' ⊢
    refine then_lt_trans Std.TransCmp.lt_trans ?_ ?_ Std.TransCmp.lt_trans h h'
    · intro hab
      rw [Std.LawfulEqOrd.compare_eq_iff_eq.mp hab]
    · intro hbc
      rw [Std.LawfulEqOrd.compare_eq_iff_eq.mp hbc]
  | .all ps, .all qs, .all rs, _, _, h, h' => by
    rw [cmp] at h h' ⊢
    exact cmpList_trans ps qs rs h h'
  | .any ps, .any qs, .any rs, _, _, h, h' => by
    rw [cmp] at h h' ⊢
    exact cmpList_trans ps qs rs h h'
  | .not p, .not q, .not r, _, _, h, h' => by
    rw [cmp] at h h' ⊢
    exact cmp_trans_of_same h h' fun hpq hqr => cmp_trans_of_variant p q r hpq hqr h h'

theorem cmpList_trans : ∀ ps qs rs : List Policy,
    cmpList ps qs = .lt → cmpList qs rs = .lt → cmpList ps rs = .lt
  | [], _ :: _, _ :: _, _, _ => rfl
  | p :: ps, q :: qs, r :: rs, h, h' => by
    rw [cmpList] at h h' ⊢
    refine then_lt_trans (fun hpq hqr => ?_) ?_ ?_ (cmpList_trans ps qs rs) h h'
    · apply cmp_trans_of_same hpq hqr
      exact fun hvar hvar' => cmp_trans_of_variant p q r hvar hvar' hpq hqr
    · intro hpq
      rw [eq_of_cmp p q hpq]
    · intro hqr
      rw [eq_of_cmp q r hqr]

end

theorem cmp_trans {p q r : Policy} (h : p.cmp q = .lt) (h' : q.cmp r = .lt) :
    p.cmp r = .lt :=
  cmp_trans_of_same h h' fun hpq hqr => cmp_trans_of_variant p q r hpq hqr h h'

theorem cmp_asymm {p q : Policy} (h : p.cmp q = .lt) : q.cmp p = .gt := by
  rw [← cmp_swap, h]
  rfl

end Policy

/-! ### Sorted sets of policies -/

/-- Insertion into a sorted list; a policy that is already there stays. -/
def insertPolicy (policy : Policy) : List Policy → List Policy
  | [] => [policy]
  | other :: policies =>
    match policy.cmp other with
    | .lt => policy :: other :: policies
    | .eq => other :: policies
    | .gt => other :: insertPolicy policy policies

theorem mem_insertPolicy {p q : Policy} {policies : List Policy} :
    q ∈ insertPolicy p policies ↔ q = p ∨ q ∈ policies := by
  induction policies with
  | nil => simp [insertPolicy]
  | cons r policies ih =>
    rw [insertPolicy]
    cases hcmp : p.cmp r with
    | lt => simp
    | eq =>
      obtain rfl := Policy.cmp_eq_iff.mp hcmp
      simp
    | gt => simp [ih, or_left_comm]

theorem pairwise_insertPolicy {p : Policy} {policies : List Policy}
    (h : policies.Pairwise fun q r => q.cmp r = .lt) :
    (insertPolicy p policies).Pairwise fun q r => q.cmp r = .lt := by
  induction policies with
  | nil => simp [insertPolicy]
  | cons r policies ih =>
    obtain ⟨hr, hpolicies⟩ := List.pairwise_cons.mp h
    rw [insertPolicy]
    cases hcmp : p.cmp r with
    | lt =>
      refine List.pairwise_cons.mpr ⟨fun q hq => ?_, h⟩
      rcases List.mem_cons.mp hq with rfl | hq
      · exact hcmp
      · exact Policy.cmp_trans hcmp (hr q hq)
    | eq => exact h
    | gt =>
      refine List.pairwise_cons.mpr ⟨fun q hq => ?_, ih hpolicies⟩
      rcases mem_insertPolicy.mp hq with rfl | hq
      · rw [← Policy.cmp_swap, hcmp]
        rfl
      · exact hr q hq

/-- A set of policies, in the order in which it is iterated. -/
structure PolicyConfig where
  policies : List Policy
  sorted : policies.Pairwise fun p q => p.cmp q = .lt

namespace PolicyConfig

def new : PolicyConfig := ⟨[], List.Pairwise.nil⟩

def addPolicy (self : PolicyConfig) (policy : Policy) : PolicyConfig :=
  ⟨insertPolicy policy self.policies, pairwise_insertPolicy self.sorted⟩

/-- The configuration with the given policies. -/
def ofList (policies : List Policy) : PolicyConfig := policies.foldl addPolicy new

theorem mem_addPolicy {self : PolicyConfig} {p q : Policy} :
    q ∈ (self.addPolicy p).policies ↔ q = p ∨ q ∈ self.policies :=
  mem_insertPolicy

theorem mem_ofList {policies : List Policy} {q : Policy} :
    q ∈ (ofList policies).policies ↔ q ∈ policies := by
  have key : ∀ (policies : List Policy) (self : PolicyConfig),
      q ∈ (policies.foldl addPolicy self).policies ↔ q ∈ policies ∨ q ∈ self.policies := by
    intro policies
    induction policies with
    | nil => simp
    | cons p policies ih =>
      intro self
      rw [List.foldl_cons, ih, mem_addPolicy, List.mem_cons]
      tauto
  rw [ofList, key]
  simp [new]

end PolicyConfig

end HeliosLite
