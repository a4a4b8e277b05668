import HeliosLite.Orchestration.ToolCalls

/-!
# Executing the tool calls of a turn

The calls are split into task calls, which are awaited together, and the others, each of which
runs between the notifications of its start and its end. Both lists of results are then put
back into one.

## Main definitions

* `Surroundings` — what is called on the way, over a state that it changes
* `executeToolCalls` — the results of all calls

## Main results

* `executeToolCalls_spec` — the results of both kinds carry the calls they were asked for
* `executeToolCalls_iff` — the calls come back in order exactly when no name lowers to `task`
  through a character outside ASCII
-/

namespace HeliosLite

/-- What the execution calls, over a state that each of them may change. A notification or a
hook may fail. -/
structure Surroundings where
  State : Type
  /-- The names of the tool definitions. -/
  toolDefinitions : List String
  /-- Calls in parallel: one result for each, in the order of the calls. -/
  callAll : List ToolCallFull → State → List ToolResult × State
  callAll_length : ∀ calls s, (callAll calls s).1.length = calls.length
  call : ToolCallFull → State → ToolResult × State
  /-- The message that a tool starts, sent and acknowledged. -/
  sendStart : ToolCallFull → State → Option State
  startHook : ToolCallFull → State → Option State
  endHook : ToolCallFull → ToolResult → State → Option State
  sendEnd : ToolResult → State → Option State

/-- How the execution ends. -/
inductive Executed where
  | failed
  | panicked
  | returned (records : List Record)
  deriving DecidableEq

namespace Surroundings

variable (env : Surroundings)

/-- A message about a tool, sent only for the tools of the system. -/
def announce (isSystemTool : Bool) (send : env.State → Option env.State) (s : env.State) :
    Option env.State :=
  if isSystemTool then send s else some s

/-- One call that is no task. -/
def executeTool (call : ToolCallFull) (s : env.State) : Option (Record × env.State) := do
  let isSystemTool := env.toolDefinitions.contains call.name
  let s ← env.announce isSystemTool (env.sendStart call) s
  let s ← env.startHook call s
  let (result, s) := env.call call s
  let s ← env.endHook call result s
  let s ← env.announce isSystemTool (env.sendEnd result) s
  some ((call, result), s)

/-- One call after the other; the first failure ends them. -/
def executeTools : List ToolCallFull → env.State → Option (List Record × env.State)
  | [], s => some ([], s)
  | call :: calls, s => do
    let (record, s) ← env.executeTool call s
    let (records, s) ← executeTools calls s
    some (record :: records, s)

/-- The results of all calls in their order. -/
def executeToolCalls (calls : List ToolCallFull) (s : env.State) : Executed :=
  let taskCalls := calls.filter (·.isTaskCall)
  let otherCalls := calls.filter (!·.isTaskCall)
  let (results, s) := env.callAll taskCalls s
  let taskResults := taskCalls.zip results
  match env.executeTools otherCalls s with
  | none => .failed
  | some (otherResults, _) =>
    match reconstruct calls taskResults otherResults with
    | none => .panicked
    | some records => .returned records

variable {env}

theorem executeTool_call {call : ToolCallFull} {record : Record} {s s' : env.State}
    (h : env.executeTool call s = some (record, s')) : record.1 = call := by
  obtain ⟨_, -, h⟩ := Option.bind_eq_some_iff.mp h
  obtain ⟨_, -, h⟩ := Option.bind_eq_some_iff.mp h
  obtain ⟨_, -, h⟩ := Option.bind_eq_some_iff.mp h
  obtain ⟨_, -, h⟩ := Option.bind_eq_some_iff.mp h
  obtain ⟨rfl, -⟩ := Prod.mk.inj (Option.some.inj h)
  rfl

theorem executeTools_calls {calls : List ToolCallFull} {records : List Record}
    {s s' : env.State} (h : env.executeTools calls s = some (records, s')) :
    records.map Prod.fst = calls := by
  induction calls generalizing records s s' with
  | nil =>
    obtain ⟨rfl, -⟩ := Prod.mk.inj (Option.some.inj h)
    rfl
  | cons call calls ih =>
    obtain ⟨⟨record, s₁⟩, hrecord, h⟩ := Option.bind_eq_some_iff.mp h
    obtain ⟨⟨rest, s₂⟩, hrest, h⟩ := Option.bind_eq_some_iff.mp h
    obtain ⟨rfl, -⟩ := Prod.mk.inj (Option.some.inj h)
    rw [List.map_cons, executeTool_call hrecord, ih hrest]

variable (env) in
/-- Unless a notification or a hook fails, both kinds of results carry the calls of their kind. -/
theorem executeToolCalls_spec (calls : List ToolCallFull) (s : env.State) :
    env.executeToolCalls calls s = .failed ∨
      ∃ tasks others : List Record,
        tasks.map Prod.fst = calls.filter (·.isTaskCall) ∧
        others.map Prod.fst = calls.filter (!·.isTaskCall) ∧
        env.executeToolCalls calls s =
          ((reconstruct calls tasks others).map Executed.returned).getD .panicked := by
  unfold executeToolCalls
  dsimp only
  split
  · exact Or.inl rfl
  · rename_i others _ hothers
    let taskCalls := calls.filter (·.isTaskCall)
    refine Or.inr ⟨taskCalls.zip (env.callAll taskCalls s).1, others, ?_,
      executeTools_calls hothers, ?_⟩
    · exact List.map_fst_zip (env.callAll_length _ s).ge
    · split
      · rename_i hnone
        rw [hnone]
        rfl
      · rename_i hsome
        rw [hsome]
        rfl

end Surroundings

/-! ### Names that lower to `task` -/

/-- The Kelvin sign is the only character outside ASCII in a name that lowers to `task`. -/
theorem ToolCallFull.isTask_iff_of_isTaskCall {call : ToolCallFull} (h : call.isTaskCall) :
    call.isTask ↔ '\u212a' ∉ call.name.toList := by
  have hlower : call.name.toList.map lowerChar = "task".toList := by
    simpa [isTaskCall, lowersTo] using h
  constructor
  · intro htask hmem
    have hascii : call.name.toList.map Char.toLower = "task".toList := by
      simpa [isTask, eqIgnoreAsciiCase] using htask
    have hkelvin : Char.toLower '\u212a' ∈ "task".toList := hascii ▸ List.mem_map_of_mem hmem
    revert hkelvin
    decide
  · intro hkelvin
    suffices hascii : call.name.toList.map Char.toLower = "task".toList by
      simpa [isTask, eqIgnoreAsciiCase] using hascii
    rw [← hlower]
    refine List.map_congr_left fun c hc => ?_
    rw [lowerChar, if_neg (ne_of_mem_of_not_mem hc hkelvin)]

/-- Surroundings in which nothing fails and every tool returns the same result. -/
def Surroundings.constant (result : ToolResult) : Surroundings where
  State := Unit
  toolDefinitions := []
  callAll calls s := (calls.map fun _ => result, s)
  callAll_length _ _ := List.length_map ..
  call _ s := (result, s)
  sendStart _ := some
  startHook _ := some
  endHook _ _ := some
  sendEnd _ := some

namespace Surroundings

variable (result : ToolResult)

theorem executeTools_constant (calls : List ToolCallFull) (s : (constant result).State) :
    (constant result).executeTools calls s = some (calls.map fun call => (call, result), s) := by
  induction calls with
  | nil => rfl
  | cons call calls ih =>
    have hcall : (constant result).executeTool call s = some ((call, result), s) := rfl
    rw [executeTools, hcall]
    simp only [Option.bind_eq_bind, Option.bind_some, List.map_cons, ih]

theorem executeToolCalls_constant (calls : List ToolCallFull) (s : (constant result).State) :
    (constant result).executeToolCalls calls s =
      ((reconstruct calls ((calls.filter (·.isTaskCall)).map fun call => (call, result))
        ((calls.filter (!·.isTaskCall)).map fun call => (call, result))).map
          Executed.returned).getD .panicked := by
  have hall : ∀ taskCalls, (constant result).callAll taskCalls s =
      (taskCalls.map fun _ => result, s) := fun _ => rfl
  unfold executeToolCalls
  simp only [hall, executeTools_constant, ← List.map_prod_left_eq_zip]
  cases reconstruct calls _ _ <;> rfl

end Surroundings

open Surroundings in
/-- In any surroundings the execution returns one record for each call, in the order of the
calls, unless a notification or a hook fails: exactly when no name lowers to `task` with a
Kelvin sign in it. -/
theorem executeToolCalls_iff (calls : List ToolCallFull) :
    (∀ (env : Surroundings) (s : env.State), env.executeToolCalls calls s ≠ .panicked ∧
        ∀ records, env.executeToolCalls calls s = .returned records →
          records.map Prod.fst = calls) ↔
      ∀ call ∈ calls, call.isTaskCall → '\u212a' ∉ call.name.toList := by
  constructor
  · intro hnever call hcall htask hkelvin
    have hnot : call.isTask = false := Bool.eq_false_iff.mpr fun h =>
      (ToolCallFull.isTask_iff_of_isTaskCall htask).mp h hkelvin
    -- Nothing fails in these surroundings, so the reconstruction is reached.
    let result : ToolResult := ⟨"", none, ⟨false, []⟩⟩
    have hnone : reconstruct calls
        ((calls.filter (·.isTaskCall)).map fun call => (call, result))
        ((calls.filter (!·.isTaskCall)).map fun call => (call, result)) = none :=
      (reconstruct_eq_none_iff (by simp [Function.comp_def]) (by simp [Function.comp_def])).mpr
        ⟨call, hcall, htask, hnot⟩
    refine (hnever (constant result) ()).1 ((executeToolCalls_constant result calls ()).trans ?_)
    rw [hnone]
    rfl
  · intro hnames env s
    obtain hfailed | ⟨tasks, others, htasks, hothers, hexecuted⟩ :=
      executeToolCalls_spec env calls s
    · exact ⟨by simp [hfailed], by simp [hfailed]⟩
    have hagree : ∀ call ∈ calls, call.isTask = call.isTaskCall := by
      intro call hcall
      cases htask : call.isTaskCall with
      | true => exact (ToolCallFull.isTask_iff_of_isTaskCall htask).mpr (hnames call hcall htask)
      | false =>
        refine Bool.eq_false_iff.mpr fun h => ?_
        rw [ToolCallFull.isTaskCall_of_isTask h] at htask
        cases htask
    obtain ⟨records, hrecords, hmap⟩ := exists_reconstruct hagree htasks hothers
    rw [hexecuted, hrecords]
    refine ⟨nofun, fun records' heq => ?_⟩
    obtain rfl : records = records' := Executed.returned.inj heq
    exact hmap

open Surroundings in
/-- The name `tas` with a Kelvin sign is split off as a task and then looked for among the
other results. -/
theorem executeToolCalls_kelvin :
    let call : ToolCallFull :=
      { name := "tas\u212a"
        callId := some "1"
        arguments := .unparsed "\x7b\x7d"
        thoughtSignature := none }
    ¬∀ (env : Surroundings) (s : env.State), env.executeToolCalls [call] s ≠ .panicked ∧
      ∀ records, env.executeToolCalls [call] s = .returned records →
        records.map Prod.fst = [call] := by
  intro call hnever
  let result : ToolResult := ⟨"", none, ⟨false, []⟩⟩
  refine (hnever (constant result) ()).1 ((executeToolCalls_constant result [call] ()).trans ?_)
  decide +kernel

end HeliosLite
