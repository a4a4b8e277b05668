import HeliosLite.Theory.Entries
import HeliosLite.Theory.Run
import Mathlib.Algebra.Group.Int.Defs
import Mathlib.Data.List.DropRight
import Mathlib.Data.List.Sort

/-!
# The registry of running agents

`crates/forge3d/src/registry.rs`: agents register, renew their lease and leave. The lease of a new
agent starts one lease after its registration; an agent is listed until its lease has run out.

## Main definitions

* `Registry` and its operations
* `tenure` — the operations on an agent from the registration that it still has

## Main results

* `find_run` — what is stored of an agent, from the operations on it
* `registry_run` — the agents that are listed, and that are alive, after some operations
* `find_evictExpired` — what is left by an eviction
-/

namespace HeliosLite.Forge3d

open Theory

/-! ### The registry -/

/-- Default lease duration in milliseconds. -/
def leaseMs : Int64 := 60000

/-- `i64::saturating_sub`. -/
def saturatingSub (a b : Int64) : Int64 :=
  Int64.ofInt (max (-2 ^ 63) (min (2 ^ 63 - 1) (a.toInt - b.toInt)))

structure AgentInfo where
  agentId : String
  pid : UInt32
  lane : String
  promptExcerpt : Option String
  lastHeartbeatUnixMs : Int64
  registeredAtUnixMs : Int64
  deriving DecidableEq, Repr

/-- The stored agents, each under its own name. -/
structure Registry where
  inner : List (String × AgentInfo)
  nodup : (inner.map Prod.fst).Nodup
  named : ∀ entry ∈ inner, entry.2.agentId = entry.1

/-- The order in which the map gives its values. -/
structure MapOrder where
  walk : List AgentInfo → List AgentInfo
  perm : ∀ infos, (walk infos).Perm infos

namespace Registry

variable (r : Registry) (agentId : String) (now : Int64)

def new : Registry := ⟨[], List.nodup_nil, List.forall_mem_nil _⟩

def find : Option AgentInfo := r.inner.lookup agentId

/-- The registry with some information on an agent. -/
def insert (info : AgentInfo) (h : info.agentId = agentId) : Registry where
  inner := insertEntry r.inner agentId info
  nodup := nodup_insertEntry r.nodup
  named entry hentry := by
    rcases mem_insertEntry hentry with rfl | hmem
    · exact h
    · exact r.named entry hmem

def remove : Registry where
  inner := removeEntry r.inner agentId
  nodup := nodup_removeEntry r.nodup
  named entry hentry := r.named entry (List.mem_of_mem_filter hentry)

end Registry

theorem Registry.agentId_of_find {r : Registry} {agentId : String} {info : AgentInfo}
    (h : r.find agentId = some info) : info.agentId = agentId :=
  r.named (agentId, info) (mem_of_lookup h)

namespace Registry

variable (r : Registry) (agentId : String) (now : Int64)

/-- Register or update an agent. -/
def upsert (pid : UInt32) (lane : String) (promptExcerpt : Option String) : AgentInfo × Registry :=
  match h : r.find agentId with
  | some existing =>
    let info := { existing with pid, lane, promptExcerpt, lastHeartbeatUnixMs := now }
    (info, r.insert agentId info (agentId_of_find h :))
  | none =>
    let info : AgentInfo := {
      agentId, pid, lane, promptExcerpt
      lastHeartbeatUnixMs := now + leaseMs
      registeredAtUnixMs := now }
    (info, r.insert agentId info rfl)

/-- Renew the heartbeat for an existing agent. -/
def heartbeat : Option AgentInfo × Registry :=
  match h : r.find agentId with
  | some existing =>
    let info := { existing with lastHeartbeatUnixMs := now }
    (some info, r.insert agentId info (agentId_of_find h :))
  | none => (none, r)

/-- Remove an agent from the registry. -/
def deregister : Bool × Registry := ((r.find agentId).isSome, r.remove agentId)

/-- The agent exists and its lease, measured from its registration, has not expired. -/
def isAlive : Bool :=
  match r.find agentId with
  | some info => saturatingSub now info.registeredAtUnixMs < leaseMs
  | none => false

end Registry

/-- The lease of the agent has not expired. -/
def isActive (now : Int64) (info : AgentInfo) : Bool :=
  saturatingSub now info.lastHeartbeatUnixMs < leaseMs

namespace Registry

variable (r : Registry) (agentId : String) (now : Int64)

/-- List all agents whose lease has not expired. -/
def listActive (order : MapOrder) : List AgentInfo :=
  ((order.walk (r.inner.map Prod.snd)).filter (isActive now)).mergeSort
    fun a b => decide (a.registeredAtUnixMs ≤ b.registeredAtUnixMs)

/-- Evict all agents whose lease has expired; how many they are. -/
def evictExpired : ℕ × Registry :=
  let keys := (r.inner.filter fun entry =>
    leaseMs ≤ saturatingSub now entry.2.lastHeartbeatUnixMs).map Prod.fst
  (keys.length, keys.foldl remove r)

def len : ℕ := r.inner.length

end Registry

/-! ### Operations, one after the other -/

inductive Operation where
  | upsert (agentId : String) (pid : UInt32) (lane : String) (promptExcerpt : Option String)
      (now : Int64)
  | heartbeat (agentId : String) (now : Int64)
  | deregister (agentId : String)
  deriving DecidableEq, Repr

namespace Operation

def agentId : Operation → String
  | upsert agentId .. => agentId
  | heartbeat agentId _ => agentId
  | deregister agentId => agentId

def isUpsert : Operation → Bool
  | upsert .. => true
  | _ => false

def isDeregister : Operation → Bool
  | deregister _ => true
  | _ => false

/-- When the operation renews a lease. -/
def renewal : Operation → Option Int64
  | upsert _ _ _ _ now => some now
  | heartbeat _ now => some now
  | deregister _ => none

/-- What the operation says of an agent. -/
def details : Operation → Option (UInt32 × String × Option String)
  | upsert _ pid lane promptExcerpt _ => some (pid, lane, promptExcerpt)
  | _ => none

end Operation

def Registry.apply (r : Registry) : Operation → Registry
  | .upsert agentId pid lane promptExcerpt now => (r.upsert agentId now pid lane promptExcerpt).2
  | .heartbeat agentId now => (r.heartbeat agentId now).2
  | .deregister agentId => (r.deregister agentId).2

/-- The operations on an agent from the registration that it still has. -/
def tenure (agentId : String) (ops : List Operation) : List Operation :=
  ((ops.filter (·.agentId = agentId)).rtakeWhile (!·.isDeregister)).dropWhile (!·.isUpsert)

/-- What is known of an agent: it is what the last registration says, and the last operation renewed
its lease, which the first one made. -/
def recorded : List Operation → Option AgentInfo
  | .upsert agentId pid lane promptExcerpt now :: later =>
    let details := (later.reverse.findSome? Operation.details).getD (pid, lane, promptExcerpt)
    some {
      agentId
      pid := details.1
      lane := details.2.1
      promptExcerpt := details.2.2
      lastHeartbeatUnixMs := (later.getLast?.bind Operation.renewal).getD (now + leaseMs)
      registeredAtUnixMs := now }
  | _ => none

/-! ### One operation -/

namespace Registry

variable {r : Registry} {agentId other : String} {now : Int64}

theorem find_insert {info : AgentInfo} {h : info.agentId = agentId} :
    (r.insert agentId info h).find other = if other = agentId then some info else r.find other :=
  lookup_insertEntry

theorem find_remove :
    (r.remove agentId).find other = if other = agentId then none else r.find other :=
  lookup_removeEntry

theorem find_upsert {pid : UInt32} {lane : String} {promptExcerpt : Option String} :
    (r.upsert agentId now pid lane promptExcerpt).2.find other =
      if other = agentId then
        some ((r.find agentId).elim
          ⟨agentId, pid, lane, promptExcerpt, now + leaseMs, now⟩
          fun existing =>
            { existing with pid, lane, promptExcerpt, lastHeartbeatUnixMs := now })
      else r.find other := by
  unfold upsert
  split
  next existing h => rw [find_insert, h, Option.elim_some]
  next h => rw [find_insert, h, Option.elim_none]

theorem find_heartbeat :
    (r.heartbeat agentId now).2.find other =
      if other = agentId then
        (r.find agentId).map fun existing => { existing with lastHeartbeatUnixMs := now }
      else r.find other := by
  unfold heartbeat
  split
  next existing h => rw [find_insert, h, Option.map_some]
  next h =>
    rw [h, Option.map_none]
    split_ifs with hagent
    · rw [hagent, h]
    · rfl

/-- The other agents are left alone. -/
theorem find_apply_of_ne {op : Operation} (h : op.agentId ≠ agentId) :
    (r.apply op).find agentId = r.find agentId := by
  cases op with
  | upsert => exact find_upsert.trans (if_neg (Ne.symm h))
  | heartbeat => exact find_heartbeat.trans (if_neg (Ne.symm h))
  | deregister => exact find_remove.trans (if_neg (Ne.symm h))

end Registry

/-! ### The tenure of an agent -/

section Tenure

variable {agentId : String} {op first : Operation} {ops later : List Operation}

theorem tenure_concat_of_ne (h : op.agentId ≠ agentId) :
    tenure agentId (ops ++ [op]) = tenure agentId ops := by
  rw [tenure, List.filter_append, List.filter_singleton, decide_eq_false h]
  simp [tenure]

theorem tenure_concat_deregister : tenure agentId (ops ++ [.deregister agentId]) = [] := by
  have hfilter : [Operation.deregister agentId].filter (·.agentId = agentId) =
      [.deregister agentId] := List.filter_cons_of_pos (decide_eq_true rfl)
  rw [tenure, List.filter_append, hfilter, List.rtakeWhile_concat_neg]
  · rfl
  · exact Bool.not_eq_true _ ▸ rfl

/-- An operation that is not the last of a tenure belongs to the present one, if there is one. -/
theorem tenure_concat (h : op.agentId = agentId) (hop : op.isDeregister = false) :
    tenure agentId (ops ++ [op]) =
      if tenure agentId ops = [] then [op].dropWhile (!·.isUpsert)
      else tenure agentId ops ++ [op] := by
  have hfilter : [op].filter (·.agentId = agentId) = [op] :=
    List.filter_cons_of_pos (decide_eq_true h)
  rw [tenure, List.filter_append, hfilter, List.rtakeWhile_concat_pos _ _ _ (by rw [hop]; rfl),
    List.dropWhile_append]
  simp only [List.isEmpty_iff]
  rfl

/-- A tenure starts with a registration of the agent. -/
theorem tenure_eq_cons (h : tenure agentId ops = first :: later) :
    ∃ pid lane promptExcerpt now, first = .upsert agentId pid lane promptExcerpt now := by
  have hfirst : first.isUpsert := by
    have hhead := List.head?_dropWhile_not (!·.isUpsert)
      ((ops.filter (·.agentId = agentId)).rtakeWhile (!·.isDeregister))
    rw [tenure] at h
    rw [h] at hhead
    simpa using hhead
  have hagent : first.agentId = agentId := by
    have hmem : first ∈ tenure agentId ops := h ▸ List.mem_cons_self
    have hfilter := (List.rtakeWhile_suffix _ _).subset ((List.dropWhile_sublist _).subset hmem)
    exact of_decide_eq_true (List.mem_filter.mp hfilter).2
  cases first with
  | upsert agentId' pid lane promptExcerpt now =>
    obtain rfl : agentId' = agentId := hagent
    exact ⟨pid, lane, promptExcerpt, now, rfl⟩
  | heartbeat => cases hfirst
  | deregister => cases hfirst

end Tenure

/-! ### Any operations -/

section Runs

variable {agentId : String} {ops : List Operation} {now : Int64} {order : MapOrder}

/-- A renewal by an agent that is there. -/
theorem recorded_concat_heartbeat {first : Operation} {later : List Operation}
    (h : ∃ pid lane promptExcerpt now, first = .upsert agentId pid lane promptExcerpt now) :
    recorded (first :: later ++ [.heartbeat agentId now]) =
      (recorded (first :: later)).map fun info => { info with lastHeartbeatUnixMs := now } := by
  obtain ⟨pid, lane, promptExcerpt, start, rfl⟩ := h
  rw [List.cons_append, recorded, recorded, Option.map_some, List.reverse_append,
    List.getLast?_concat]
  rfl

/-- Another registration of an agent that is there. -/
theorem recorded_concat_upsert {first : Operation} {later : List Operation} {pid : UInt32}
    {lane : String} {promptExcerpt : Option String}
    (h : ∃ pid lane promptExcerpt now, first = .upsert agentId pid lane promptExcerpt now) :
    recorded (first :: later ++ [.upsert agentId pid lane promptExcerpt now]) =
      (recorded (first :: later)).map fun info =>
        { info with pid, lane, promptExcerpt, lastHeartbeatUnixMs := now } := by
  obtain ⟨pid', lane', promptExcerpt', start, rfl⟩ := h
  rw [List.cons_append, recorded, recorded, Option.map_some, List.reverse_append,
    List.getLast?_concat]
  rfl

/-- What is stored of an agent follows from its tenure. -/
theorem find_run :
    (run Registry.apply .new ops).find agentId = recorded (tenure agentId ops) := by
  -- the last operation ends the tenure, or continues it, or starts one
  induction ops using List.reverseRecOn with
  | nil => rfl
  | append_singleton ops op ih =>
    rw [run_append, run_cons, run_nil]
    by_cases hagent : op.agentId = agentId
    · cases op with
      | upsert agentId' pid lane promptExcerpt now =>
        rw [tenure_concat hagent rfl]
        obtain rfl : agentId' = agentId := hagent
        refine (Registry.find_upsert.trans (if_pos rfl)).trans ?_
        rw [ih]
        split_ifs with hnil
        · -- the tenure starts here, with the lease of a new agent
          rw [hnil]
          rfl
        · -- the start of the tenure stays, the data are the new ones
          obtain ⟨first, later, hcons⟩ := List.exists_cons_of_ne_nil hnil
          have hfirst := tenure_eq_cons hcons
          rw [hcons, recorded_concat_upsert hfirst]
          obtain ⟨pid', lane', promptExcerpt', start, rfl⟩ := hfirst
          rfl
      | heartbeat agentId' now =>
        rw [tenure_concat hagent rfl]
        obtain rfl : agentId' = agentId := hagent
        refine (Registry.find_heartbeat.trans (if_pos rfl)).trans ?_
        rw [ih]
        split_ifs with hnil
        · -- an agent that is not there has no lease to renew
          rw [hnil]
          rfl
        · obtain ⟨first, later, hcons⟩ := List.exists_cons_of_ne_nil hnil
          rw [hcons, recorded_concat_heartbeat (tenure_eq_cons hcons)]
      | deregister agentId' =>
        obtain rfl : agentId' = agentId := hagent
        rw [tenure_concat_deregister]
        exact Registry.find_remove.trans (if_pos rfl)
    · -- the operation is on another agent
      rw [Registry.find_apply_of_ne hagent, ih, tenure_concat_of_ne hagent]

namespace Registry

variable {r : Registry} {info : AgentInfo}

theorem mem_inner_iff {entry : String × AgentInfo} :
    entry ∈ r.inner ↔ r.find entry.1 = some entry.2 :=
  ⟨fun h => lookup_of_mem r.nodup h, mem_of_lookup⟩

theorem mem_values_iff : info ∈ r.inner.map Prod.snd ↔ r.find info.agentId = some info := by
  constructor
  · intro h
    obtain ⟨entry, hentry, rfl⟩ := List.mem_map.mp h
    rw [r.named entry hentry]
    exact mem_inner_iff.mp hentry
  · intro h
    exact List.mem_map.mpr ⟨(info.agentId, info), mem_inner_iff.mpr h, rfl⟩

theorem mem_listActive_iff :
    info ∈ r.listActive now order ↔ r.find info.agentId = some info ∧ isActive now info := by
  rw [listActive, List.mem_mergeSort, List.mem_filter, (order.perm _).mem_iff, mem_values_iff]

/-- No agent is listed twice. -/
theorem nodup_listActive : ((r.listActive now order).map AgentInfo.agentId).Nodup := by
  have hkeys : (r.inner.map Prod.snd).map AgentInfo.agentId = r.inner.map Prod.fst := by
    rw [List.map_map]
    exact List.map_congr_left r.named
  have hwalk : ((order.walk (r.inner.map Prod.snd)).map AgentInfo.agentId).Nodup := by
    rw [((order.perm _).map _).nodup_iff, hkeys]
    exact r.nodup
  rw [listActive, ((List.mergeSort_perm _ _).map _).nodup_iff]
  exact hwalk.sublist (List.filter_sublist.map _)

theorem sorted_listActive :
    (r.listActive now order).Pairwise fun a b => a.registeredAtUnixMs ≤ b.registeredAtUnixMs := by
  have htrans : ∀ a b c : AgentInfo, decide (a.registeredAtUnixMs ≤ b.registeredAtUnixMs) →
      decide (b.registeredAtUnixMs ≤ c.registeredAtUnixMs) →
      decide (a.registeredAtUnixMs ≤ c.registeredAtUnixMs) := by
    intro a b c hab hbc
    rw [decide_eq_true_eq] at hab hbc ⊢
    exact Int64.le_trans hab hbc
  have htotal : ∀ a b : AgentInfo, decide (a.registeredAtUnixMs ≤ b.registeredAtUnixMs) ||
      decide (b.registeredAtUnixMs ≤ a.registeredAtUnixMs) := by
    intro a b
    rw [Bool.or_eq_true, decide_eq_true_eq, decide_eq_true_eq]
    exact Int64.le_total _ _
  exact (List.pairwise_mergeSort htrans htotal _).imp of_decide_eq_true

end Registry

/-- Renewals do not count for `is_alive`, only the registration that the agent still has. -/
theorem isAlive_run :
    (run Registry.apply .new ops).isAlive agentId now =
      ((tenure agentId ops).head?.bind Operation.renewal).any
        fun start => saturatingSub now start < leaseMs := by
  rw [Registry.isAlive, find_run]
  cases htenure : tenure agentId ops with
  | nil => rfl
  | cons first later =>
    obtain ⟨pid, lane, promptExcerpt, start, rfl⟩ := tenure_eq_cons htenure
    rfl

/-- After any operations an agent is listed exactly if it has registered, has not left since, and
the last lease made for it has not run out; the list has it once, in the order of registration. It
is alive exactly if the registration is no older than a lease. -/
theorem registry_run (ops : List Operation) (now : Int64) (order : MapOrder) :
    (∀ info, info ∈ (run Registry.apply .new ops).listActive now order ↔
      recorded (tenure info.agentId ops) = some info ∧ isActive now info) ∧
    (((run Registry.apply .new ops).listActive now order).map AgentInfo.agentId).Nodup ∧
    ((run Registry.apply .new ops).listActive now order).Pairwise
      (fun a b => a.registeredAtUnixMs ≤ b.registeredAtUnixMs) ∧
    ∀ agentId, (run Registry.apply .new ops).isAlive agentId now =
      ((tenure agentId ops).head?.bind Operation.renewal).any
        fun start => saturatingSub now start < leaseMs := by
  refine ⟨?_, Registry.nodup_listActive, Registry.sorted_listActive, fun _ => isAlive_run⟩
  intro info
  rw [Registry.mem_listActive_iff, find_run]

end Runs

/-! ### Eviction -/

namespace Registry

variable {r : Registry} {now : Int64} {agentId : String}

theorem find_foldl_remove {keys : List String} :
    (keys.foldl remove r).find agentId = if agentId ∈ keys then none else r.find agentId := by
  induction keys generalizing r with
  | nil => rw [List.foldl_nil, if_neg List.not_mem_nil]
  | cons key keys ih =>
    rw [List.foldl_cons, ih, find_remove]
    by_cases h : agentId = key
    · simp [h]
    · simp [h]

theorem mem_expired_iff :
    agentId ∈ (r.inner.filter fun entry =>
        leaseMs ≤ saturatingSub now entry.2.lastHeartbeatUnixMs).map Prod.fst ↔
      ∃ info, r.find agentId = some info ∧ isActive now info = false := by
  rw [List.mem_map]
  constructor
  · rintro ⟨entry, hentry, rfl⟩
    rw [List.mem_filter, decide_eq_true_eq, mem_inner_iff] at hentry
    exact ⟨entry.2, hentry.1, decide_eq_false (Int64.not_lt.mpr hentry.2)⟩
  · rintro ⟨info, hinfo, hactive⟩
    refine ⟨(agentId, info), List.mem_filter.mpr ⟨mem_inner_iff.mpr hinfo, ?_⟩, rfl⟩
    exact decide_eq_true (Int64.not_lt.mp (of_decide_eq_false hactive))

/-- The agents that stay are those whose lease has not expired. -/
theorem find_evictExpired :
    (r.evictExpired now).2.find agentId = (r.find agentId).filter (isActive now) := by
  rw [evictExpired, find_foldl_remove]
  split_ifs with h
  · obtain ⟨info, hinfo, hactive⟩ := mem_expired_iff.mp h
    rw [hinfo, Option.filter_some_neg (by rw [hactive])]
  · rw [mem_expired_iff] at h
    cases hinfo : r.find agentId with
    | none => rfl
    | some info =>
      -- an agent that is not evicted has a lease that has not expired
      have hactive : isActive now info = true := by
        rw [← Bool.not_eq_false]
        exact fun hexpired => h ⟨info, hinfo, hexpired⟩
      rw [Option.filter_some_pos hactive]

/-- After an eviction only those are listed whose lease had not expired then. -/
theorem mem_listActive_evictExpired {later : Int64} {order : MapOrder} {info : AgentInfo} :
    info ∈ (r.evictExpired now).2.listActive later order ↔
      info ∈ r.listActive later order ∧ isActive now info := by
  rw [mem_listActive_iff, mem_listActive_iff, find_evictExpired, Option.filter_eq_some_iff]
  tauto

end Registry

end HeliosLite.Forge3d
