import HeliosLite.Orchestration.ToolCalls
import HeliosLite.Theory.Run

/-!
# The orchestrator

`Orchestrator::run` as a machine that stops wherever the source calls something else: a
hook, the model, a tool, the sender, or the service that persists the conversation. A step
takes the answer to that call and goes on to the next one. The future may also be dropped,
or unwound by a panic, at each of these points.

## Main definitions

* `Orchestrator` — what a run reads of the orchestrator and does not change
* `Await` — what a run waits for
* `Answer` — what is answered
* `RunState` — the fields of the orchestrator, the locals of `run`, and what happened so far
* `Orchestrator.step` — one answer taken

## Main results

* `step_effect` — what one step does
-/

namespace HeliosLite

open Theory

structure Orchestrator where
  /-- The model of the agent. -/
  model : String
  maxRequestsPerTurn : Option ℕ
  /-- The names of the tool definitions. -/
  toolDefinitions : List String
  /-- The retry message for the attempts left and the attempts allowed, if it renders. -/
  render : ℕ → ℕ → Option String

/-- The four calls of `flush_if_dirty`. -/
inductive FlushPoint where
  | head
  | tools
  | «end» (endCountBefore : ℕ)
  | final
  deriving DecidableEq

/-- Where the processing of a tool call stands. -/
inductive ToolStage where
  | sendStart
  | startHook
  | call
  | endHook (result : ToolResult)
  | sendEnd (result : ToolResult)
  deriving DecidableEq

/-- The result of a call that waits for its End hook, or for the message about it. -/
def ToolStage.records (call : ToolCallFull) : ToolStage → List Record
  | .endHook result | .sendEnd result => [(call, result)]
  | _ => []

/-- The ways out of `run`. -/
inductive Exit where
  | completed
  | failed
  | dropped
  deriving DecidableEq

/-- What the run waits for. -/
inductive Await where
  | startHook
  | flush (point : FlushPoint)
  | requestHook
  | chat
  | responseHook (message : ChatCompletionMessageFull)
  /-- A task call; the tasks done and the calls still to come. -/
  | task (message : ChatCompletionMessageFull) (done : List Record) (call : ToolCallFull)
      (pending : List ToolCallFull)
  /-- Another call; the results of the tasks, the calls done and the calls still to come. -/
  | tool (message : ChatCompletionMessageFull) (tasks done : List Record) (stage : ToolStage)
      (call : ToolCallFull) (pending : List ToolCallFull)
  | sendFailureLimit
  | sendRequestLimit
  | metrics
  | endHook
  | sendComplete
  | exited (exit : Exit)
  deriving DecidableEq

namespace Await

/-- A reply is processed. -/
def collects : Await → Bool
  | .responseHook _ | .task .. | .tool .. => true
  | _ => false

/-- The results that a phase holds. -/
def records : Await → List Record
  | .task _ done _ _ => done
  | .tool _ tasks done stage call _ => tasks ++ done ++ stage.records call
  | _ => []

/-- The tool call that is being executed. -/
def executes : Await → Option ToolCallFull
  | .task _ _ call _ => some call
  | .tool _ _ _ .call call _ => some call
  | _ => none

end Await

/-- The answer to what the run waits for. -/
inductive Answer where
  /-- A hook returned, with the conversation as it left it. -/
  | hook (conversation : Conversation) (ok : Bool)
  | update (ok : Bool)
  /-- The reply of the model after any retries. -/
  | reply (message : Option ChatCompletionMessageFull)
  | tool (result : ToolResult)
  /-- The message was sent; a started tool call was also acknowledged. -/
  | send (ok : Bool)
  /-- The metrics of the tool context, unless its lock is poisoned. -/
  | metrics (metrics : Option Metrics)
  /-- The future was dropped, or unwound by a panic. -/
  | dropped
  deriving DecidableEq

/-- What can be seen of a run from outside. -/
inductive Event where
  /-- The Start hook ran and added messages. -/
  | started (added : List MessageEntry)
  /-- The context was sent to the model; the Request hook of the iteration added messages. -/
  | request (added : List MessageEntry) (context : Context)
  /-- The conversation was persisted. -/
  | saved (conversation : Conversation)
  /-- The guard handed the conversation to the service. -/
  | guarded (conversation : Conversation)
  deriving DecidableEq

/-- The crash guard. -/
structure OrchestratorDropGuard where
  dirty : Bool
  conversation : Conversation
  deriving DecidableEq

/-- What dropping the guard does. The outcome of the last attempt to persist is ignored. -/
def OrchestratorDropGuard.drop (self : OrchestratorDropGuard) : List Event :=
  if self.dirty then [.guarded self.conversation] else []

structure RunState where
  -- The fields of the orchestrator
  conversation : Conversation
  errorTracker : ToolErrorTracker
  dirty : Bool
  -- The locals of `run`
  context : Context
  shouldYield : Bool
  isComplete : Bool
  requestCount : ℕ
  guard : Option OrchestratorDropGuard
  phase : Await
  events : List Event
  deriving DecidableEq

namespace RunState

/-- The beginning of a run. -/
def init (conversation : Conversation) (errorTracker : ToolErrorTracker) (dirty : Bool) :
    RunState :=
  { conversation := conversation
    errorTracker := errorTracker
    dirty := dirty
    context := conversation.context.getD Context.default
    shouldYield := false
    isComplete := false
    requestCount := 0
    guard := none
    phase := .startHook
    events := [] }

/-- The run waits for the given phase. -/
def goto (s : RunState) (phase : Await) : RunState := { s with phase := phase }

/-- The run is left, which drops the guard. -/
def leave (s : RunState) (exit : Exit) : RunState :=
  { s with
    phase := .exited exit
    events := s.events ++ (s.guard.map (·.drop)).getD [] }

/-- The messages that a hook added. -/
def added (s : RunState) (edited : Conversation) : List MessageEntry :=
  edited.messages.filter fun entry => entry ∉ s.conversation.messages

/-- `mark_dirty`, then `flush_if_dirty`. -/
def flush (s : RunState) (point : FlushPoint) : RunState :=
  { s with dirty := true, phase := .flush point }

/-- The condition of the loop, and the start of an iteration or what follows the loop. -/
def loop (s : RunState) : RunState :=
  if s.shouldYield then
    s.flush .final
  else
    { s with conversation := { s.conversation with context := some s.context } }.flush .head

/-- The context of the conversation taken over, if there is one. -/
def syncContext (s : RunState) : RunState :=
  { s with context := s.conversation.context.getD s.context }

end RunState

namespace Orchestrator

open RunState

variable (self : Orchestrator)

/-- The end of an iteration up to the flush: the context with the model noted. -/
def updateContext (s : RunState) : RunState :=
  let context := s.context.setModel self.model
  { s with context := context,
           conversation := { s.conversation with context := some context } }.flush .tools

/-- What happens with the results of all tool calls. -/
def finishTools (s : RunState) (message : ChatCompletionMessageFull)
    (tasks others : List Record) : RunState :=
  match reconstruct message.toolCalls tasks others with
  | none => s.leave .dropped
  | some records =>
    let tracker := s.errorTracker.adjustRecord records
    let s := { s.syncContext with errorTracker := tracker }
    match records.mapM (noteAttempts self.render tracker) with
    | none => s.leave .failed
    | some noted =>
      let s := { s with context := s.context.appendMessage message noted }
      if tracker.limitReached then s.goto .sendFailureLimit else self.updateContext s

/-- The next of the calls that are no tasks. -/
def nextTool (s : RunState) (message : ChatCompletionMessageFull) (tasks done : List Record) :
    List ToolCallFull → RunState
  | [] => self.finishTools s message tasks done
  | call :: pending =>
    let stage := if self.toolDefinitions.contains call.name then .sendStart else .startHook
    s.goto (.tool message tasks done stage call pending)

/-- The next of the task calls, and the other calls after them. The tasks run in parallel
and their results are collected in the order of the calls. -/
def nextTask (s : RunState) (message : ChatCompletionMessageFull) (done : List Record) :
    List ToolCallFull → RunState
  | [] => self.nextTool s message done [] (message.toolCalls.filter (!·.isTaskCall))
  | call :: pending => s.goto (.task message done call pending)

/-- A reply that the Response hook has seen. -/
def processReply (s : RunState) (message : ChatCompletionMessageFull) : RunState :=
  let isComplete := message.finishReason = some .stop && message.toolCalls.isEmpty
  let s :=
    { s with
      isComplete := isComplete
      shouldYield := isComplete || message.toolCalls.any (·.shouldYield) }
  self.nextTask s message [] (message.toolCalls.filter (·.isTaskCall))

/-- What follows the flush after the tools: the limit on the requests. -/
def checkRequestLimit (s : RunState) : RunState :=
  let s := { s with requestCount := s.requestCount + 1 }
  match self.maxRequestsPerTurn with
  | some max =>
    if !s.shouldYield && max ≤ s.requestCount then s.goto .sendRequestLimit else s.goto .metrics
  | none => s.goto .metrics

/-- What follows the flush after the End hook: the loop goes on if the hook added messages. -/
def afterEnd (s : RunState) (endCountBefore : ℕ) : RunState :=
  if endCountBefore < s.conversation.messages.length then
    { s.syncContext with shouldYield := false }.loop
  else
    s.loop

/-- What follows a flush. -/
def afterFlush (s : RunState) : FlushPoint → RunState
  | .head => s.goto .requestHook
  | .tools => self.checkRequestLimit s
  | .end endCountBefore => afterEnd s endCountBefore
  | .final => if s.isComplete then s.goto .sendComplete else s.leave .completed

/-- A call that is no task, one stage on. -/
def toolStep (s : RunState) (message : ChatCompletionMessageFull) (tasks done : List Record)
    (call : ToolCallFull) (pending : List ToolCallFull) : ToolStage → Answer → RunState
  | .sendStart, .send true => s.goto (.tool message tasks done .startHook call pending)
  | .sendStart, .send false => s.leave .failed
  | .startHook, .hook conversation ok =>
    let s := { s with conversation := conversation }
    if ok then s.goto (.tool message tasks done .call call pending) else s.leave .failed
  | .call, .tool result => s.goto (.tool message tasks done (.endHook result) call pending)
  | .endHook result, .hook conversation ok =>
    let s := { s with conversation := conversation }
    if !ok then
      s.leave .failed
    else if self.toolDefinitions.contains call.name then
      s.goto (.tool message tasks done (.sendEnd result) call pending)
    else
      self.nextTool s message tasks (done ++ [(call, result)]) pending
  | .sendEnd result, .send true =>
    self.nextTool s message tasks (done ++ [(call, result)]) pending
  | .sendEnd _, .send false => s.leave .failed
  | _, _ => s

/-- The answer taken, in the phase that waits for it; other answers change nothing. -/
def takeAnswer (s : RunState) (answer : Answer) : RunState :=
  match s.phase, answer with
  | .startHook, .hook conversation ok =>
    let s' :=
      { s with
        conversation := conversation
        events := s.events ++ [Event.started (s.added conversation)] }
    if ok then
      { s' with guard := some ⟨s.dirty, conversation⟩ }.loop
    else
      s'.leave .failed
  | .flush point, .update ok =>
    -- The flag is set in front of every flush, so the conversation is always handed over.
    if !s.dirty then
      self.afterFlush s point
    else if ok then
      self.afterFlush
        { s with dirty := false, events := s.events ++ [.saved s.conversation] } point
    else
      s.leave .failed
  | .requestHook, .hook conversation ok =>
    let s' := { s with conversation := conversation }
    if ok then
      { s' with events := s.events ++ [Event.request (s.added conversation) s.context] }.goto .chat
    else
      s'.leave .failed
  | .chat, .reply (some message) => s.goto (.responseHook message)
  | .chat, .reply none => s.leave .failed
  | .responseHook message, .hook conversation ok =>
    let s := { s with conversation := conversation }
    if ok then self.processReply s message else s.leave .failed
  | .task message done call pending, .tool result =>
    self.nextTask s message (done ++ [(call, result)]) pending
  | .tool message tasks done stage call pending, answer =>
    self.toolStep s message tasks done call pending stage answer
  | .sendFailureLimit, .send ok =>
    if ok then self.updateContext { s with shouldYield := true } else s.leave .failed
  | .sendRequestLimit, .send ok =>
    if ok then { s with shouldYield := true }.goto .metrics else s.leave .failed
  | .metrics, .metrics (some metrics) =>
    let s := { s with conversation := { s.conversation with metrics := metrics } }
    if s.shouldYield then s.goto .endHook else s.loop
  | .metrics, .metrics none => s.leave .failed
  | .endHook, .hook conversation ok =>
    let endCountBefore := s.conversation.messages.length
    let s := { s with conversation := conversation }
    if ok then s.flush (.end endCountBefore) else s.leave .failed
  | .sendComplete, .send ok => s.leave (if ok then .completed else .failed)
  | _, _ => s

/-- The future dropped at the point it waits at, or its answer taken. -/
def step (s : RunState) (answer : Answer) : RunState :=
  match s.phase, answer with
  | .exited _, _ => s
  | _, .dropped => s.leave .dropped
  | _, answer => self.takeAnswer s answer

/-! ### What a step does -/

/-- What can become of the results of the tools: the run waits for the next call, panics,
fails to render a note, or has a context with the reply. -/
inductive Collects (s : RunState) (records : List Record) :
    RunState → Prop
  | waits {phase : Await} (hphase : phase.collects) (hrecords : phase.records ⊆ records) :
      Collects s records (s.goto phase)
  | panics : Collects s records (s.leave .dropped)
  | notRendered (tracker : ToolErrorTracker) :
      Collects s records ({ s.syncContext with errorTracker := tracker }.leave .failed)
  | tooManyFailures {message : ChatCompletionMessageFull} {noted : List Record}
      (tracker : ToolErrorTracker) (hnoted : ∀ r ∈ noted, Notes records r) :
      Collects s records
        ({ s.syncContext with
            errorTracker := tracker
            context := s.syncContext.context.appendMessage message noted }.goto
          .sendFailureLimit)
  | appends {message : ChatCompletionMessageFull} {noted : List Record}
      (tracker : ToolErrorTracker) (hnoted : ∀ r ∈ noted, Notes records r) :
      Collects s records
        (self.updateContext
          { s.syncContext with
            errorTracker := tracker
            context := s.syncContext.context.appendMessage message noted })

theorem finishTools_collects (s : RunState) (message : ChatCompletionMessageFull)
    (tasks others : List Record) :
    self.Collects s (tasks ++ others) (self.finishTools s message tasks others) := by
  unfold finishTools
  cases hrecords : reconstruct message.toolCalls tasks others with
  | none => exact .panics
  | some records =>
    have hnotes : ∀ noted, records.mapM
        (noteAttempts self.render (s.errorTracker.adjustRecord records)) = some noted →
        ∀ r ∈ noted, Notes (tasks ++ others) r := by
      intro noted hnoted r hr
      obtain ⟨record, hrecord, heq⟩ := notes_of_mapM hnoted hr
      exact ⟨record, List.mem_append.mpr (mem_of_reconstruct hrecords hrecord), heq⟩
    dsimp only
    split
    · exact .notRendered _
    · rename_i noted hnoted
      split
      · exact .tooManyFailures _ (hnotes noted hnoted)
      · exact .appends _ (hnotes noted hnoted)

theorem nextTool_collects (s : RunState) (message : ChatCompletionMessageFull)
    (tasks done : List Record) (pending : List ToolCallFull) :
    self.Collects s (tasks ++ done) (self.nextTool s message tasks done pending) := by
  cases pending with
  | nil => exact self.finishTools_collects s message tasks done
  | cons call pending =>
    refine .waits rfl ?_
    by_cases hsystem : call.name ∈ self.toolDefinitions
    · simp [Await.records, ToolStage.records, hsystem]
    · simp [Await.records, ToolStage.records, hsystem]

theorem nextTask_collects (s : RunState) (message : ChatCompletionMessageFull)
    (done : List Record) (pending : List ToolCallFull) :
    self.Collects s done (self.nextTask s message done pending) := by
  cases pending with
  | nil =>
    have h := self.nextTool_collects s message done []
      (message.toolCalls.filter (!·.isTaskCall))
    rwa [List.append_nil] at h
  | cons call pending => exact .waits rfl (List.Subset.refl _)

/-- How the run goes on after a flush. -/
inductive Proceeds (s : RunState) : FlushPoint → RunState → Prop
  | head : Proceeds s .head (s.goto .requestHook)
  | tools {phase : Await} (hphase : phase = .sendRequestLimit ∨ phase = .metrics) :
      Proceeds s .tools ({ s with requestCount := s.requestCount + 1 }.goto phase)
  | reopened {endCountBefore : ℕ} :
      Proceeds s (.end endCountBefore) { s.syncContext with shouldYield := false }.loop
  | closed {endCountBefore : ℕ} : Proceeds s (.end endCountBefore) s.loop
  | completing : Proceeds s .final (s.goto .sendComplete)
  | completed : Proceeds s .final (s.leave .completed)

theorem afterFlush_proceeds (s : RunState) (point : FlushPoint) :
    Proceeds s point (self.afterFlush s point) := by
  cases point with
  | head => exact .head
  | tools =>
    simp only [afterFlush, checkRequestLimit]
    split
    · split
      · exact .tools (Or.inl rfl)
      · exact .tools (Or.inr rfl)
    · exact .tools (Or.inr rfl)
  | «end» endCountBefore =>
    simp only [afterFlush, afterEnd]
    split
    · exact .reopened
    · exact .closed
  | final =>
    simp only [afterFlush]
    split
    · exact .completing
    · exact .completed

/-- The result that an answer gives to the call that is being executed. -/
def received (s : RunState) : Answer → List Record
  | .tool result => (s.phase.executes.map fun call => (call, result)).toList
  | _ => []

/-- The conversation is the one before the answer, or as a hook left it. -/
def Leaves (s : RunState) (answer : Answer) (conversation : Conversation) : Prop :=
  conversation = s.conversation ∨ ∃ ok, answer = .hook conversation ok

/-- What an answer does to a run whose flag is set at every flush. -/
inductive Effect (s : RunState) (answer : Answer) : RunState → Prop
  | idle : Effect s answer s
  | startFailed {conversation : Conversation} (hphase : s.phase = .startHook)
      (hanswer : answer = .hook conversation false) :
      Effect s answer
        ({ s with
            conversation := conversation
            events := s.events ++ [Event.started (s.added conversation)] }.leave .failed)
  | started {conversation : Conversation} (hphase : s.phase = .startHook)
      (hanswer : answer = .hook conversation true) :
      Effect s answer
        { s with
          conversation := conversation
          events := s.events ++ [Event.started (s.added conversation)]
          guard := some ⟨s.dirty, conversation⟩ }.loop
  | leaves {conversation : Conversation} {exit : Exit} (hrunning : ∀ e, s.phase ≠ .exited e)
      (hexit : exit ≠ .completed) (hconversation : Leaves s answer conversation) :
      Effect s answer ({ s with conversation := conversation }.leave exit)
  | flushed {point : FlushPoint} {s' : RunState} (hphase : s.phase = .flush point)
      (hafter : self.afterFlush
        { s with dirty := false, events := s.events ++ [.saved s.conversation] } point = s')
      (hproceeds : Proceeds
        { s with dirty := false, events := s.events ++ [.saved s.conversation] } point s') :
      Effect s answer s'
  | requested {conversation : Conversation} (hphase : s.phase = .requestHook)
      (hanswer : answer = .hook conversation true) :
      Effect s answer
        ({ s with
            conversation := conversation
            events := s.events ++ [Event.request (s.added conversation) s.context] }.goto .chat)
  | replied {message : ChatCompletionMessageFull} (hphase : s.phase = .chat) :
      Effect s answer (s.goto (.responseHook message))
  | collects {conversation : Conversation} (isComplete shouldYield : Bool) {s' : RunState}
      (hphase : s.phase.collects) (hconversation : Leaves s answer conversation)
      (hcollects : self.Collects
        { s with
          conversation := conversation
          isComplete := isComplete
          shouldYield := shouldYield }
        (s.phase.records ++ received s answer) s') :
      Effect s answer s'
  | failureLimitSent (hphase : s.phase = .sendFailureLimit) :
      Effect s answer (self.updateContext { s with shouldYield := true })
  | requestLimitSent (hphase : s.phase = .sendRequestLimit) :
      Effect s answer ({ s with shouldYield := true }.goto .metrics)
  | measured {metrics : Metrics} (hphase : s.phase = .metrics) (hyield : s.shouldYield = true) :
      Effect s answer
        ({ s with conversation := { s.conversation with metrics := metrics } }.goto .endHook)
  | continues {metrics : Metrics} (hphase : s.phase = .metrics)
      (hyield : s.shouldYield = false) :
      Effect s answer
        { s with conversation := { s.conversation with metrics := metrics } }.loop
  | ended {conversation : Conversation} (hphase : s.phase = .endHook)
      (hanswer : answer = .hook conversation true) :
      Effect s answer
        ({ s with conversation := conversation }.flush
          (.end s.conversation.messages.length))
  | completed (hphase : s.phase = .sendComplete) : Effect s answer (s.leave .completed)

/-- The flag is set whenever the run is about to flush. -/
def DirtyAtFlush (s : RunState) : Prop := ∀ point, s.phase = .flush point → s.dirty = true

theorem leaves_self {s : RunState} {answer : Answer} : Leaves s answer s.conversation := Or.inl rfl

theorem leaves_hook {s : RunState} {conversation : Conversation} {ok : Bool} :
    Leaves s (.hook conversation ok) conversation := Or.inr ⟨ok, rfl⟩

variable {self} in
theorem Effect.left {s : RunState} {answer : Answer} {exit : Exit}
    (hrunning : ∀ e, s.phase ≠ .exited e) (hexit : exit ≠ .completed) :
    self.Effect s answer (s.leave exit) := .leaves hrunning hexit leaves_self

variable {self} in
/-- A collecting phase that only waits for something else. -/
theorem Effect.waits {s : RunState} {answer : Answer} {conversation : Conversation}
    {phase : Await} (hphase : s.phase.collects) (hconversation : Leaves s answer conversation)
    (hnext : phase.collects) (hrecords : phase.records ⊆ s.phase.records ++ received s answer) :
    self.Effect s answer ({ s with conversation := conversation }.goto phase) :=
  .collects s.isComplete s.shouldYield hphase hconversation
    (.waits hnext hrecords)

theorem toolStep_effect {s : RunState} {message : ChatCompletionMessageFull}
    {tasks done : List Record} {stage : ToolStage} {call : ToolCallFull}
    {pending : List ToolCallFull} (hphase : s.phase = .tool message tasks done stage call pending)
    (answer : Answer) :
    self.Effect s answer (self.toolStep s message tasks done call pending stage answer) := by
  have hcollects : s.phase.collects := by rw [hphase]; rfl
  -- The results so far stay what they are when the run goes on within one call.
  have hkeep : ∀ phase : Await, phase.records = tasks ++ done →
      phase.records ⊆ s.phase.records ++ received s answer := by
    intro phase hrecords
    rw [hrecords, hphase, Await.records, List.append_assoc (tasks ++ done)]
    exact List.subset_append_left _ _
  unfold toolStep
  split
  · exact .waits hcollects leaves_self rfl (hkeep _ (by simp [Await.records, ToolStage.records]))
  · exact .left (by simp [hphase]) (by decide)
  · split
    · exact .waits hcollects leaves_hook rfl (hkeep _ (by simp [Await.records, ToolStage.records]))
    · exact .leaves (by simp [hphase]) (by decide) leaves_hook
  · refine .waits hcollects leaves_self rfl ?_
    simp [Await.records, ToolStage.records, received, hphase, Await.executes]
  · rename_i result conversation ok
    dsimp only
    split
    · exact .leaves (by simp [hphase]) (by decide) leaves_hook
    · split
      · refine .waits hcollects leaves_hook rfl ?_
        simp [Await.records, ToolStage.records, hphase]
      · refine .collects s.isComplete s.shouldYield hcollects
          leaves_hook ?_
        have hrecords : s.phase.records ++ received s (.hook conversation ok) =
            tasks ++ (done ++ [(call, result)]) := by
          simp [Await.records, ToolStage.records, hphase, received]
        rw [hrecords]
        exact self.nextTool_collects { s with conversation := conversation } message tasks
          (done ++ [(call, result)]) pending
  · rename_i result
    refine .collects s.isComplete s.shouldYield hcollects
      leaves_self ?_
    have hrecords : s.phase.records ++ received s (.send true) =
        tasks ++ (done ++ [(call, result)]) := by
      simp [Await.records, ToolStage.records, hphase, received]
    rw [hrecords]
    exact self.nextTool_collects s message tasks (done ++ [(call, result)]) pending
  · exact .left (by simp [hphase]) (by decide)
  · exact .idle

theorem takeAnswer_effect {s : RunState} (hdirty : DirtyAtFlush s) (answer : Answer) :
    self.Effect s answer (self.takeAnswer s answer) := by
  unfold takeAnswer
  split
  · rename_i conversation ok hphase
    dsimp only
    split
    · rename_i hok
      exact .started hphase (by rw [hok])
    · rename_i hok
      exact .startFailed hphase (by rw [Bool.eq_false_iff.mpr hok])
  · rename_i point ok hphase
    rw [if_neg (by rw [hdirty point hphase]; decide)]
    split
    · exact .flushed hphase rfl (self.afterFlush_proceeds _ point)
    · exact .left (by simp [hphase]) (by decide)
  · rename_i conversation ok hphase
    dsimp only
    split
    · rename_i hok
      exact .requested hphase (by rw [hok])
    · exact .leaves (by simp [hphase]) (by decide) leaves_hook
  · rename_i message hphase
    exact .replied hphase
  · rename_i hphase
    exact .left (by simp [hphase]) (by decide)
  · rename_i message conversation ok hphase
    dsimp only
    split
    · refine .collects (message.finishReason = some .stop && message.toolCalls.isEmpty)
        ((message.finishReason = some .stop && message.toolCalls.isEmpty)
          || message.toolCalls.any (·.shouldYield)) (by rw [hphase]; rfl) leaves_hook ?_
      have hrecords : s.phase.records ++ received s (.hook conversation ok) = [] := by
        simp [Await.records, hphase, received]
      rw [hrecords]
      exact self.nextTask_collects _ message [] (message.toolCalls.filter (·.isTaskCall))
    · exact .leaves (by simp [hphase]) (by decide) leaves_hook
  · rename_i message done call pending result hphase
    refine .collects s.isComplete s.shouldYield
      (by rw [hphase]; rfl) leaves_self ?_
    have hrecords : s.phase.records ++ received s (.tool result) = done ++ [(call, result)] := by
      simp [Await.records, hphase, received, Await.executes]
    rw [hrecords]
    exact self.nextTask_collects s message (done ++ [(call, result)]) pending
  · rename_i message tasks done stage call pending hphase
    exact self.toolStep_effect hphase _
  · rename_i ok hphase
    split
    · exact .failureLimitSent hphase
    · exact .left (by simp [hphase]) (by decide)
  · rename_i ok hphase
    split
    · exact .requestLimitSent hphase
    · exact .left (by simp [hphase]) (by decide)
  · rename_i metrics hphase
    dsimp only
    split
    · rename_i hyield
      exact .measured hphase hyield
    · rename_i hyield
      exact .continues hphase (by simpa using hyield)
  · rename_i hphase
    exact .left (by simp [hphase]) (by decide)
  · rename_i conversation ok hphase
    dsimp only
    split
    · rename_i hok
      exact .ended hphase (by rw [hok])
    · exact .leaves (by simp [hphase]) (by decide) leaves_hook
  · rename_i ok hphase
    cases ok with
    | true => exact .completed hphase
    | false => exact .left (by simp [hphase]) (by decide)
  · exact .idle

theorem step_effect {s : RunState} (hdirty : DirtyAtFlush s) (answer : Answer) :
    self.Effect s answer (self.step s answer) := by
  unfold step
  split
  · exact .idle
  · rename_i hrunning
    exact .left (fun exit hexit => hrunning exit hexit) (by decide)
  · exact self.takeAnswer_effect hdirty _

/-! ### The flag and the guard -/

section Fields

variable (s : RunState) (phase : Await) (point : FlushPoint) (exit : Exit)

@[simp] theorem goto_phase : (s.goto phase).phase = phase := rfl
@[simp] theorem goto_events : (s.goto phase).events = s.events := rfl
@[simp] theorem goto_guard : (s.goto phase).guard = s.guard := rfl
@[simp] theorem goto_conversation : (s.goto phase).conversation = s.conversation := rfl
@[simp] theorem flush_phase : (s.flush point).phase = .flush point := rfl
@[simp] theorem flush_events : (s.flush point).events = s.events := rfl
@[simp] theorem flush_guard : (s.flush point).guard = s.guard := rfl
@[simp] theorem flush_conversation : (s.flush point).conversation = s.conversation := rfl
@[simp] theorem flush_dirty : (s.flush point).dirty = true := rfl
@[simp] theorem leave_phase : (s.leave exit).phase = .exited exit := rfl
theorem leave_events : (s.leave exit).events = s.events ++ (s.guard.map (·.drop)).getD [] := rfl
@[simp] theorem leave_guard : (s.leave exit).guard = s.guard := rfl
@[simp] theorem leave_conversation : (s.leave exit).conversation = s.conversation := rfl

end Fields

theorem dirtyAtFlush_init (conversation : Conversation) (errorTracker : ToolErrorTracker)
    (dirty : Bool) : DirtyAtFlush (.init conversation errorTracker dirty) := by
  intro point hphase
  cases hphase

theorem dirtyAtFlush_flush (s : RunState) (point : FlushPoint) : DirtyAtFlush (s.flush point) :=
  fun _ _ => rfl

/-- The loop is left, or entered with the context of the run. -/
theorem loop_eq (s : RunState) :
    s.shouldYield = true ∧ s.loop = s.flush .final ∨
      s.shouldYield = false ∧ s.loop =
        { s with conversation := { s.conversation with context := some s.context } }.flush
          .head := by
  by_cases hyield : s.shouldYield = true
  · exact Or.inl ⟨hyield, by rw [loop, if_pos hyield]⟩
  · exact Or.inr ⟨by simpa using hyield, by rw [loop, if_neg hyield]⟩

theorem dirtyAtFlush_loop (s : RunState) : DirtyAtFlush s.loop := by
  rcases loop_eq s with ⟨-, heq⟩ | ⟨-, heq⟩
  · rw [heq]
    exact dirtyAtFlush_flush _ _
  · rw [heq]
    exact dirtyAtFlush_flush _ _

theorem dirtyAtFlush_leave (s : RunState) (exit : Exit) : DirtyAtFlush (s.leave exit) := by
  intro point hphase
  cases hphase

theorem dirtyAtFlush_goto {s : RunState} {phase : Await} (h : ∀ point, phase ≠ .flush point) :
    DirtyAtFlush (s.goto phase) :=
  fun point hphase => absurd hphase (h point)

theorem Proceeds.dirtyAtFlush {s s' : RunState} {point : FlushPoint} (h : Proceeds s point s') :
    DirtyAtFlush s' := by
  cases h with
  | head => exact dirtyAtFlush_goto (by simp)
  | tools hphase =>
    refine dirtyAtFlush_goto fun point heq => ?_
    rcases hphase with rfl | rfl <;> cases heq
  | reopened => exact dirtyAtFlush_loop _
  | closed => exact dirtyAtFlush_loop _
  | completing => exact dirtyAtFlush_goto (by simp)
  | completed => exact dirtyAtFlush_leave _ _

variable {self} {s s' : RunState} {answer : Answer}

theorem Collects.dirtyAtFlush {records : List Record} (h : self.Collects s records s') :
    DirtyAtFlush s' := by
  cases h with
  | waits hphase =>
    refine dirtyAtFlush_goto fun point heq => ?_
    rw [heq] at hphase
    cases hphase
  | panics => exact dirtyAtFlush_leave _ _
  | notRendered tracker => exact dirtyAtFlush_leave _ _
  | tooManyFailures tracker => exact dirtyAtFlush_goto (by simp)
  | appends tracker => exact dirtyAtFlush_flush _ _

theorem Effect.dirtyAtFlush (h : self.Effect s answer s') (hdirty : DirtyAtFlush s) :
    DirtyAtFlush s' := by
  cases h with
  | idle => exact hdirty
  | startFailed => exact dirtyAtFlush_leave _ _
  | started => exact dirtyAtFlush_loop _
  | leaves => exact dirtyAtFlush_leave _ _
  | flushed _ _ hproceeds => exact hproceeds.dirtyAtFlush
  | requested => exact dirtyAtFlush_goto (by simp)
  | replied => exact dirtyAtFlush_goto (by simp)
  | collects _ _ _ _ hcollects => exact hcollects.dirtyAtFlush
  | failureLimitSent => exact dirtyAtFlush_flush _ _
  | requestLimitSent => exact dirtyAtFlush_goto (by simp)
  | measured => exact dirtyAtFlush_goto (by simp)
  | continues => exact dirtyAtFlush_loop _
  | ended => exact dirtyAtFlush_flush _ _
  | completed => exact dirtyAtFlush_leave _ _

/-! ### What a step adds to the events -/

/-- The event follows from the state and the answer. -/
def Logs (s : RunState) (answer : Answer) : Event → Prop
  | .started added => s.phase = .startHook ∧ ∃ conversation, added = s.added conversation
  | .request added context =>
    s.phase = .requestHook ∧ context = s.context ∧
      ∃ conversation, answer = .hook conversation true ∧ added = s.added conversation
  | .saved conversation => (∃ point, s.phase = .flush point) ∧ conversation = s.conversation
  | .guarded conversation =>
    (∃ guard ∈ s.guard, guard.dirty = true ∧ guard.conversation = conversation)

theorem events_loop (s : RunState) : s.loop.events = s.events := by
  rcases loop_eq s with ⟨-, heq⟩ | ⟨-, heq⟩ <;> rw [heq] <;> rfl

/-- What leaving the run adds is what a dirty guard hands over. -/
theorem mem_drop_iff {guard : Option OrchestratorDropGuard} {event : Event} :
    event ∈ (guard.map (·.drop)).getD [] ↔
      ∃ g ∈ guard, g.dirty = true ∧ event = .guarded g.conversation := by
  cases guard with
  | none => simp
  | some g => by_cases hdirty : g.dirty <;> simp [OrchestratorDropGuard.drop, hdirty]

theorem logs_leave (s : RunState) (answer : Answer) :
    ∀ event ∈ (s.guard.map (·.drop)).getD [], Logs s answer event := by
  intro event hevent
  obtain ⟨guard, hguard, hdirty, rfl⟩ := mem_drop_iff.mp hevent
  exact ⟨guard, hguard, hdirty, rfl⟩

theorem Proceeds.events {point : FlushPoint} (h : Proceeds s point s') :
    s'.events = s.events ∨ s'.events = s.events ++ (s.guard.map (·.drop)).getD [] := by
  cases h with
  | head => exact Or.inl rfl
  | tools => exact Or.inl rfl
  | reopened => exact Or.inl (events_loop _)
  | closed => exact Or.inl (events_loop _)
  | completing => exact Or.inl rfl
  | completed => exact Or.inr rfl

theorem Collects.events {records : List Record} (h : self.Collects s records s') :
    s'.events = s.events ∨ s'.events = s.events ++ (s.guard.map (·.drop)).getD [] := by
  cases h with
  | waits => exact Or.inl rfl
  | panics => exact Or.inr rfl
  | notRendered tracker => exact Or.inr rfl
  | tooManyFailures tracker => exact Or.inl rfl
  | appends tracker => exact Or.inl rfl

theorem Effect.logs (h : self.Effect s answer s') :
    ∃ new, s'.events = s.events ++ new ∧ ∀ event ∈ new, Logs s answer event := by
  have hleave := logs_leave s answer
  have hnone : ∃ new, s.events = s.events ++ new ∧ ∀ event ∈ new, Logs s answer event :=
    ⟨[], (List.append_nil _).symm, by simp⟩
  cases h with
  | idle => exact hnone
  | @startFailed conversation hphase hanswer =>
    refine ⟨.started (s.added conversation) :: _, List.append_assoc .., ?_⟩
    rintro event (_ | ⟨_, hevent⟩)
    · exact ⟨hphase, conversation, rfl⟩
    · exact hleave event hevent
  | @started conversation hphase hanswer =>
    refine ⟨[.started (s.added conversation)], events_loop _, ?_⟩
    intro event hevent
    obtain rfl := List.mem_singleton.mp hevent
    exact ⟨hphase, conversation, rfl⟩
  | leaves => exact ⟨_, rfl, hleave⟩
  | @flushed point _ hphase _ hproceeds =>
    have hsaved : Logs s answer (.saved s.conversation) := ⟨⟨point, hphase⟩, rfl⟩
    rcases hproceeds.events with heq | heq
    · refine ⟨[.saved s.conversation], heq, ?_⟩
      intro event hevent
      obtain rfl := List.mem_singleton.mp hevent
      exact hsaved
    · refine ⟨.saved s.conversation :: _, heq.trans (List.append_assoc ..), ?_⟩
      rintro event (_ | ⟨_, hevent⟩)
      · exact hsaved
      · exact hleave event hevent
  | @requested conversation hphase hanswer =>
    refine ⟨[.request (s.added conversation) s.context], rfl, ?_⟩
    intro event hevent
    obtain rfl := List.mem_singleton.mp hevent
    exact ⟨hphase, rfl, conversation, hanswer, rfl⟩
  | replied => exact hnone
  | collects _ _ _ _ hcollects =>
    rcases hcollects.events with heq | heq
    · exact ⟨[], heq.trans (List.append_nil _).symm, by simp⟩
    · exact ⟨_, heq, hleave⟩
  | failureLimitSent => exact hnone
  | requestLimitSent => exact hnone
  | measured => exact hnone
  | continues =>
    obtain ⟨new, heq, hnew⟩ := hnone
    exact ⟨new, (events_loop _).trans heq, hnew⟩
  | ended => exact hnone
  | completed => exact ⟨_, rfl, hleave⟩

/-! ### What holds along runs -/

/-- A run whose steps meet a condition keeps whatever the effects of such steps keep. -/
theorem run_effects {guard : RunState → Answer → Prop} {P : RunState → Prop}
    (heffect : ∀ s answer s', guard s answer → self.Effect s answer s' → P s → P s')
    {answers : List Answer} (h : Meets self.step guard s answers) (hdirty : DirtyAtFlush s)
    (hP : P s) : P (run self.step s answers) := by
  let inv : RunState → Prop := fun s => DirtyAtFlush s ∧ P s
  have hkeep : ∀ s answer, guard s answer → inv s → inv (self.step s answer) := by
    intro s answer hguard hinv
    have hstep : self.Effect s answer (self.step s answer) := self.step_effect hinv.1 answer
    exact ⟨hstep.dirtyAtFlush hinv.1, heffect s answer _ hguard hstep hinv.2⟩
  exact (run_invariant hkeep h ⟨hdirty, hP⟩).2

/-- Every run keeps what all effects keep. -/
theorem run_keeps {P : RunState → Prop}
    (heffect : ∀ s answer s', self.Effect s answer s' → P s → P s') (hdirty : DirtyAtFlush s)
    (hP : P s) (answers : List Answer) : P (run self.step s answers) := by
  let inv : RunState → Prop := fun s => DirtyAtFlush s ∧ P s
  have hkeep : ∀ s answer, inv s → inv (self.step s answer) := by
    intro s answer hinv
    have hstep : self.Effect s answer (self.step s answer) := self.step_effect hinv.1 answer
    exact ⟨hstep.dirtyAtFlush hinv.1, heffect s answer _ hstep hinv.2⟩
  exact (run_induction hkeep ⟨hdirty, hP⟩ answers).2

end Orchestrator

/-! ### A turn -/

namespace Turn

/-- The conversation of a user with the given messages. -/
def conversation (contents : List String) : Conversation :=
  { id := ⟨1⟩
    title := none
    context := some
      { Context.default with
        messages := contents.map fun content => MessageEntry.from (.user content none) }
    metrics := Metrics.default
    metadata := { createdAt := .epoch, updatedAt := none }
    parentId := none
    source := none
    cwd := none
    messageCount := none }

def orchestrator (maxRequestsPerTurn : Option ℕ) : Orchestrator :=
  { model := "model"
    maxRequestsPerTurn := maxRequestsPerTurn
    toolDefinitions := []
    render := fun _ _ => none }

/-- A reply without tool calls, at which the model stopped. -/
def reply : ChatCompletionMessageFull :=
  { content := "done"
    thoughtSignature := none
    reasoning := none
    toolCalls := []
    reasoningDetails := none
    usage :=
      { promptTokens := .actual 0
        completionTokens := .actual 0
        totalTokens := .actual 0
        cachedTokens := .actual 0
        cost := none }
    finishReason := some .stop
    phase := none }

/-- The conversation after the reply. -/
def replied (contents : List String) : Conversation :=
  { conversation contents with
    context := (conversation contents).context.map fun context =>
      (context.appendMessage reply []).setModel "model" }

/-- A turn of one message, entered with the given flag. -/
def start (dirty : Bool) : RunState := .init (conversation ["hello"]) ⟨[], 3⟩ dirty

/-- One iteration in which the model stops without calling a tool, and what the End hook
makes of the conversation. -/
def iteration (before after : List String) (ended : Conversation) : List Answer :=
  [.update true, .hook (conversation before) true, .reply (some reply),
    .hook (conversation after) true, .update true, .metrics (some Metrics.default),
    .hook ended true, .update true]

/-- A turn of one iteration: the End hook leaves the conversation as it is. -/
def quiet : List Answer :=
  .hook (conversation ["hello"]) true :: iteration ["hello"] ["hello"] (replied ["hello"])
    ++ [.update true, .send true]

end Turn

end HeliosLite
