import HeliosLite.Storage.Mutation
import HeliosLite.Storage.Reference

/-!
# Concurrent changes of the intent state

A mark and a prune read the intent state of a row, decide, and write in a statement of its
own. Any number of callers may run at a time, and only single statements are atomic. The
changes follow the edges of the state machine in runs in which no caller's decision is
overtaken by the write of another.

## Main definitions

* `Caller.statement` — a caller's next statement
* `System.step` — a statement of one of the callers
* `System.Current` — the state that a caller decided on is still stored when it writes

## Main results

* `Caller.statements_alone` — alone, the statements are the mutation of the store
* `System.run_follows_edges` — every change is an edge, and extraction is taken once
* `Greeting.run_leaves_edges` — two decisions on the same state
-/

namespace HeliosLite

open Theory

theorem IntentState.fromStr_asStr (state : IntentState) : fromStr state.asStr = .ok state := by
  cases state <;> rfl

variable [Libraries]

/-! ### Callers -/

inductive IntentCall where
  | mark (newState : String)
  | prune
  deriving DecidableEq

namespace IntentCall

/-- What a call checks before its first statement. -/
def parse : IntentCall → Except String Unit
  | .mark newState => (IntentState.fromStr newState).map fun _ => ()
  | .prune => .ok ()

/-- What a call decides on the state that it read. -/
def decide : IntentCall → IntentState → Except String Unit
  | .mark newState, current => do
    let next ← IntentState.fromStr newState
    if current.canTransitionTo next then .ok ()
    else .error ("Illegal state transition: " ++ current.asStr ++ " → " ++ next.asStr)
  | .prune, current =>
    if current = .verified then .ok ()
    else
      .error ("Cannot prune conversation with intent_state='" ++ current.asStr
        ++ "'. Must be 'verified'.")

/-- The row that a call writes. -/
def write (id : String) (now : DateTime) (r : ConversationRecord) :
    IntentCall → ConversationRecord
  | .mark newState => { r with intentState := newState, updatedAt := some (.naive now) }
  | .prune =>
    { r with
      context := some (Serde.toText (Store.prunedContext id now).toValue)
      intentState := "pruned"
      updatedAt := some (.naive now) }

/-- The state that a call writes. -/
def written : IntentCall → String
  | .mark newState => newState
  | .prune => "pruned"

theorem write_conversationId (id : String) (now : DateTime) (call : IntentCall)
    (r : ConversationRecord) : (call.write id now r).conversationId = r.conversationId := by
  cases call <;> rfl

theorem write_intentState (id : String) (now : DateTime) (call : IntentCall)
    (r : ConversationRecord) : (call.write id now r).intentState = call.written := by
  cases call <;> rfl

end IntentCall

/-- Where a caller stands between its statements. -/
inductive Phase where
  | called
  /-- No workspace owns a local row; next it looks for legacy history. -/
  | unowned
  | validated
  | decided (current : IntentState)
  | returned (result : Except String Unit)
  deriving DecidableEq

structure Caller where
  wid : WorkspaceHash
  conversationId : ConversationId
  call : IntentCall

namespace Caller

def id (c : Caller) : String := c.conversationId.intoString

/-- The phase after the owner of the row was read. -/
def validate (c : Caller) (s : Store) : Phase :=
  match (s.conversations.find? c.id).bind (·.workspaceId) with
  | some owner =>
    if owner = c.wid.column then .validated
    else .returned (.error "Conversation belongs to another workspace")
  | none => .unowned

/-- The phase after legacy history was looked for. -/
def validateLegacy (c : Caller) (s : Store) : Phase :=
  if s.conversationsAll.any fun r => r.conversationId == c.id then
    .returned (.error "Conversation exists only in attached legacy history and is read-only")
  else .validated

/-- The phase after the row was read. -/
def read (c : Caller) (s : Store) : Phase :=
  match s.requireOwned c.id c.wid.column with
  | .error e => .returned (.error e)
  | .ok record =>
    match IntentState.fromStr record.intentState with
    | .error e => .returned (.error e)
    | .ok current =>
      match c.call.decide current with
      | .error e => .returned (.error e)
      | .ok _ => .decided current

/-- The update of the row. -/
def update (c : Caller) (s : Store) (now : DateTime) : Store :=
  s.updateOwned c.id c.wid.column (fun r => c.call.write c.id now r)
    fun r => c.call.write_conversationId c.id now r

/-- The next statement of a caller; each is atomic. -/
def statement (c : Caller) (now : DateTime) (state : Phase × Store) : Phase × Store :=
  let (phase, s) := state
  match phase with
  | .called =>
    match c.call.parse with
    | .error e => (.returned (.error e), s)
    | .ok _ => (c.validate s, s)
  | .unowned => (c.validateLegacy s, s)
  | .validated => (c.read s, s)
  | .decided _ => (.returned (.ok ()), c.update s now)
  | .returned result => (.returned result, s)

/-- The mutation of the store that the caller asks for. -/
def mutation (c : Caller) (s : Store) (now : DateTime) : Except String Store :=
  match c.call with
  | .mark newState => s.markIntentState c.wid c.conversationId newState now
  | .prune => s.pruneConversation c.wid c.conversationId now

/-- What the caller does once its right to write is checked. -/
def afterValidation (c : Caller) (s : Store) (now : DateTime) : Except String Store := do
  let record ← s.requireOwned c.id c.wid.column
  let current ← IntentState.fromStr record.intentState
  c.call.decide current
  .ok (c.update s now)

theorem mutation_eq (c : Caller) (s : Store) (now : DateTime) :
    c.mutation s now = (do
      c.call.parse
      s.validateLocalMutation c.id c.wid.column
      c.afterValidation s now) := by
  obtain ⟨wid, cid, call⟩ := c
  cases call with
  | prune =>
    simp only [mutation, IntentCall.parse, Store.pruneConversation, afterValidation,
      IntentCall.decide, bind, Except.bind, id]
    split
    · rfl
    split
    · rfl
    split
    · rfl
    split_ifs <;> rfl
  | mark newState =>
    simp only [mutation, IntentCall.parse, Store.markIntentState, afterValidation,
      IntentCall.decide, bind, Except.bind, id]
    cases IntentState.fromStr newState with
    | error e => rfl
    | ok next =>
      dsimp only [Except.map]
      split
      · rfl
      split
      · rfl
      split
      · rfl
      split_ifs <;> rfl

theorem iterate_returned (c : Caller) (s : Store) (now : DateTime) (result : Except String Unit)
    (n : ℕ) : (c.statement now)^[n] (.returned result, s) = (.returned result, s) :=
  Function.iterate_fixed rfl n

/-- From the validated phase a read and a write are left. -/
theorem iterate_validated (c : Caller) (s : Store) (now : DateTime) (n : ℕ) :
    (c.statement now)^[n + 2] (.validated, s)
      = (.returned ((c.afterValidation s now).map fun _ => ()),
        s.orSame (c.afterValidation s now)) := by
  rw [Function.iterate_add_apply, Function.iterate_succ_apply, Function.iterate_one]
  have hread : c.statement now (.validated, s) = (c.read s, s) := rfl
  rw [hread, read, afterValidation]
  cases s.requireOwned c.id c.wid.column with
  | error e => exact c.iterate_returned s now _ n
  | ok record =>
    simp only [bind, Except.bind]
    cases IntentState.fromStr record.intentState with
    | error e => exact c.iterate_returned s now _ n
    | ok current =>
      dsimp only
      cases c.call.decide current with
      | error e => exact c.iterate_returned s now _ n
      | ok _ => exact c.iterate_returned (c.update s now) now _ n

/-- Without other callers, four statements are the mutation. -/
theorem statements_alone (c : Caller) (s : Store) (now : DateTime) :
    (c.statement now)^[4] (.called, s)
      = (.returned ((c.mutation s now).map fun _ => ()), s.orSame (c.mutation s now)) := by
  rw [mutation_eq, Function.iterate_succ_apply, statement]
  cases c.call.parse with
  | error e => exact c.iterate_returned s now _ 3
  | ok _ =>
    simp only [bind, Except.bind, validate, Store.validateLocalMutation]
    cases (s.conversations.find? c.id).bind (·.workspaceId) with
    | some owner =>
      dsimp only
      split_ifs
      · exact c.iterate_validated s now 1
      · exact c.iterate_returned s now _ 3
    | none =>
      dsimp only
      have hlegacy : c.statement now (.unowned, s) = (c.validateLegacy s, s) := rfl
      rw [Function.iterate_succ_apply, hlegacy, validateLegacy]
      split_ifs
      · exact c.iterate_returned s now _ 2
      · exact c.iterate_validated s now 0

end Caller

/-! ### Interleavings -/

/-- The store, and where each caller stands. -/
structure System (ι : Type) where
  store : Store
  phase : ι → Phase

namespace System

variable {ι : Type} [DecidableEq ι] (callers : ι → Caller)

/-- All callers are about to start. -/
def start (s : Store) : System ι := { store := s, phase := fun _ => .called }

/-- The next statement of a caller. -/
def step (σ : System ι) (a : ι × DateTime) : System ι :=
  let next := (callers a.1).statement a.2 (σ.phase a.1, σ.store)
  { store := next.2, phase := Function.update σ.phase a.1 next.1 }

/-- The stored intent state of an id. -/
def intentState (σ : System ι) (id : String) : Option String :=
  (σ.store.conversations.find? id).map (·.intentState)

/-- A caller that is about to write decided on the state that is still stored. -/
def Current (σ : System ι) (a : ι × DateTime) : Prop :=
  ∀ current, σ.phase a.1 = .decided current →
    σ.intentState (callers a.1).id = some current.asStr

instance (σ : System ι) (a : ι × DateTime) : Decidable (σ.Current callers a) :=
  match hphase : σ.phase a.1 with
  | .decided current =>
    decidable_of_iff (σ.intentState (callers a.1).id = some current.asStr)
      ⟨fun h c hc => by
        obtain rfl := Phase.decided.inj (hphase.symm.trans hc)
        exact h, fun h => h current hphase⟩
  | .called | .unowned | .validated | .returned _ =>
    .isTrue fun c hc => by
      rw [hphase] at hc
      cases hc

/-- The caller is about to take the row from pending to extracting, and succeeds. -/
def Takes (σ : System ι) (id : String) (i : ι) : Prop :=
  (callers i).id = id ∧ (callers i).call = .mark "extracting" ∧ σ.phase i = .decided .pending

/-- The change of an intent state is an edge of the state machine. -/
def IsEdge (old new : String) : Prop :=
  ∃ current next, IntentState.fromStr old = .ok current ∧ IntentState.fromStr new = .ok next ∧
    current.canTransitionTo next

/-- Every change of the stored state in the run is an edge, and between two callers that take
the row to extracting it leaves that state. -/
structure FollowsEdges (σ : System ι) (as : List (ι × DateTime)) (id : String) : Prop where
  edges : ∀ bs a cs, as = bs ++ a :: cs → ∀ old new,
    (run (step callers) σ bs).intentState id = some old →
    (run (step callers) σ (bs ++ [a])).intentState id = some new → old ≠ new → IsEdge old new
  taken : ∀ bs a cs b ds, as = bs ++ a :: (cs ++ b :: ds) →
    (run (step callers) σ bs).Takes callers id a.1 →
    (run (step callers) σ (bs ++ a :: cs)).Takes callers id b.1 →
    ∃ es, es <+: cs ∧
      (run (step callers) σ (bs ++ a :: es)).intentState id ≠ some "extracting"

variable {callers}

omit [Libraries] in
/-- A caller that decided found an edge. -/
theorem isEdge_of_decide {call : IntentCall} {current : IntentState} {u : Unit}
    (h : call.decide current = .ok u) : IsEdge current.asStr call.written := by
  cases call with
  | mark newState =>
    simp only [IntentCall.decide, bind, Except.bind] at h
    split at h
    · cases h
    next next hnext =>
    split_ifs at h with htransition
    exact ⟨current, next, current.fromStr_asStr, hnext, htransition⟩
  | prune =>
    rw [IntentCall.decide] at h
    split_ifs at h with hverified
    rw [hverified]
    exact ⟨.verified, .pruned, rfl, rfl, rfl⟩

/-- Every caller that is about to write decided on an edge. -/
def Decided (callers : ι → Caller) (σ : System ι) : Prop :=
  ∀ i current, σ.phase i = .decided current → IsEdge current.asStr (callers i).call.written

/-- A decision is taken by the statement that reads the row. -/
theorem isEdge_of_statement {c : Caller} {phase : Phase} {s : Store} {now : DateTime}
    {current : IntentState} (h : (c.statement now (phase, s)).1 = .decided current) :
    phase = .decided current ∨ IsEdge current.asStr c.call.written := by
  cases phase with
  | called =>
    rw [Caller.statement] at h
    split at h
    · cases h
    · rw [Caller.validate] at h
      split at h
      · split_ifs at h
      · cases h
  | unowned =>
    rw [Caller.statement, Caller.validateLegacy] at h
    dsimp only at h
    split_ifs at h
  | validated =>
    right
    change c.read s = .decided current at h
    rw [Caller.read] at h
    split at h
    · cases h
    split at h
    · cases h
    split at h
    · cases h
    next decided _ u hdecide =>
    obtain rfl := Phase.decided.inj h
    exact isEdge_of_decide hdecide
  | decided => cases h
  | returned => cases h

theorem decided_step {σ : System ι} {a : ι × DateTime} (h : Decided callers σ) :
    Decided callers (step callers σ a) := by
  intro i current hi
  by_cases hne : i = a.1
  · subst hne
    have hnext : ((callers a.1).statement a.2 (σ.phase a.1, σ.store)).1 = .decided current := by
      simpa [step] using hi
    rcases isEdge_of_statement hnext with hphase | hedge
    · exact h a.1 current hphase
    · exact hedge
  · apply h i current
    simpa [step, Function.update_of_ne hne] using hi

/-- The store is changed by the statement of a caller that decided. -/
theorem store_statement (c : Caller) (now : DateTime) (phase : Phase) (s : Store) :
    (c.statement now (phase, s)).2 = s
      ∨ ∃ current, phase = .decided current ∧ (c.statement now (phase, s)).2 = c.update s now := by
  cases phase with
  | called =>
    left
    rw [Caller.statement]
    split <;> rfl
  | decided current => exact Or.inr ⟨current, rfl, rfl⟩
  | unowned | validated | returned => exact Or.inl rfl

/-- A write is to the row of the caller's id. -/
theorem intentState_update {c : Caller} {s : Store} {now : DateTime} {id : String}
    {old new : String} (hold : (s.conversations.find? id).map (·.intentState) = some old)
    (hnew : ((c.update s now).conversations.find? id).map (·.intentState) = some new)
    (hne : old ≠ new) : id = c.id ∧ new = c.call.written := by
  obtain ⟨r, hr, rfl⟩ := Option.map_eq_some_iff.mp hold
  have hupdate : (c.update s now).conversations.find? id
      = some (if r.isOwned c.id c.wid.column then c.call.write c.id now r else r) := by
    rw [Caller.update, Store.updateOwned, Table.find?_update, hr]
    rfl
  rw [hupdate, Option.map_some] at hnew
  obtain rfl := Option.some.inj hnew
  split_ifs at hne ⊢ with howned
  · obtain ⟨-, hid⟩ := Store.isOwned_iff.mp howned
    exact ⟨(Table.find?_eq_some_iff.mp hr).2.symm.trans hid, c.call.write_intentState c.id now r⟩
  · exact absurd rfl hne

/-- A change by a caller whose decision is current is an edge. -/
theorem isEdge_step {σ : System ι} {a : ι × DateTime} {id old new : String}
    (hdecided : Decided callers σ) (hcurrent : σ.Current callers a)
    (hold : σ.intentState id = some old) (hnew : (step callers σ a).intentState id = some new)
    (hne : old ≠ new) : IsEdge old new := by
  rcases store_statement (callers a.1) a.2 (σ.phase a.1) σ.store with
    hsame | ⟨current, hphase, hwrite⟩
  · rw [intentState, step, hsame] at hnew
    exact absurd (Option.some.inj (hold.symm.trans hnew)) hne
  · rw [intentState, step, hwrite] at hnew
    obtain ⟨hid, hwritten⟩ := intentState_update hold hnew hne
    have hstored := hcurrent current hphase
    rw [← hid, hold] at hstored
    rw [Option.some.inj hstored, hwritten]
    exact hdecided a.1 current hphase

/-- In a run in which every decision is current when it is written, the stored state follows
the edges, and extraction is taken by one caller at a time. -/
theorem run_follows_edges {s : Store} {as : List (ι × DateTime)}
    (h : Meets (step callers) (Current callers) (start s) as) (id : String) :
    (start s).FollowsEdges callers as id := by
  have hdecided : ∀ bs, Decided callers (run (step callers) (start s) bs) :=
    run_induction (fun _ _ => decided_step) fun _ _ hphase => by cases hphase
  constructor
  · rintro bs a cs rfl old new hold hnew hne
    have hcurrent := (meets_append.mp h).2.1
    rw [run_append] at hnew
    exact isEdge_step (hdecided bs) hcurrent hold hnew hne
  · rintro bs a cs b ds rfl - htakes
    refine ⟨cs, List.prefix_rfl, ?_⟩
    have happend : bs ++ a :: (cs ++ b :: ds) = (bs ++ a :: cs) ++ b :: ds := by simp
    rw [happend] at h
    obtain ⟨hid, -, hphase⟩ := htakes
    have hcurrent := (meets_append.mp h).2.1 .pending hphase
    rw [hid] at hcurrent
    rw [hcurrent]
    decide

end System

end HeliosLite

namespace HeliosLite.Greeting

open Theory

attribute [local instance] reference

/-- The greeting, stored and then put through the given mutations. -/
def storedThen (ops : List Op) : Store :=
  run Store.step .empty (atEpoch (.upsertConversation wid (saying "hi") :: ops))

/-- Two callers, of which the second is `true`. -/
def two (first second : IntentCall) (i : Bool) : Caller :=
  { wid := wid, conversationId := id, call := if i then second else first }

/-- Statements of the two callers, all at the epoch. -/
def schedule (turns : List Bool) : List (Bool × DateTime) := turns.map fun i => (i, .epoch)

theorem run_follows_edges_one_by_one :
    (System.start (storedThen [])).FollowsEdges (two (.mark "extracting") (.mark "extracted"))
      (schedule [false, false, false, true, true, true]) id.intoString :=
  System.run_follows_edges (by decide +kernel) id.intoString

/-- Both callers check and read before either writes. -/
def overtaken : List (Bool × DateTime) :=
  schedule [false, false, true, true, false, true]

/-- Two callers take the same row to extracting, and a row is reverted after its prune. -/
theorem run_leaves_edges :
    ¬(System.start (storedThen [])).FollowsEdges
        (two (.mark "extracting") (.mark "extracting")) overtaken id.intoString ∧
    ¬(System.start (storedThen [.markIntentState wid id "verified"])).FollowsEdges
        (two .prune (.mark "pending")) overtaken id.intoString := by
  constructor
  · intro h
    obtain ⟨es, hes, hstate⟩ := h.taken (overtaken.take 4) (false, .epoch) [] (true, .epoch) [] rfl
      ⟨rfl, rfl, by decide +kernel⟩ ⟨rfl, rfl, by decide +kernel⟩
    obtain rfl := List.prefix_nil.mp hes
    exact hstate (by decide +kernel)
  · intro h
    obtain ⟨current, next, hcurrent, hnext, htransition⟩ := h.edges (overtaken.take 5)
      (true, .epoch) [] rfl "pruned" "pending" (by decide +kernel) (by decide +kernel) (by decide)
    obtain rfl := Except.ok.inj hcurrent
    obtain rfl := Except.ok.inj hnext
    cases htransition

end HeliosLite.Greeting
