import HeliosLite.Orchestration.Orchestrator
import HeliosLite.Theory.Pairing

/-!
# Calls and results in the saved contexts

A run that starts with a context in which every assistant message is followed at once by
the results of its calls, and whose hooks keep it so, saves such contexts only.

Pairing is stated for arbitrary keys of calls and results. With one key for everything it
says how many results follow; with the call ids as keys it also says which.

## Main definitions

* `InPlace` — each message that calls tools is followed by exactly the results of its calls
* `Respects` — the hooks keep this, and the results of the tools carry the keys of their calls

## Main results

* `run_saves_inPlace` — every conversation that is saved is in place, with any keys
* `run_saves_wellFormed` — in number for any tools, and by call id where tools keep the id
-/

namespace HeliosLite

open Theory

variable {ι : Type*}

/-- How calls and results are told apart. -/
structure Keys (ι : Type*) where
  call : ToolCallFull → ι
  result : String → Option String → ι

namespace Keys

/-- Calls and results are only counted. -/
def count : Keys Unit := ⟨fun _ => (), fun _ _ => ()⟩

/-- Calls and results are matched by the id of the call. -/
def byId : Keys (Option String) := ⟨fun call => call.callId, fun _ callId => callId⟩

variable (keys : Keys ι)

/-- The keys of the calls of an assistant message. -/
def calls (entry : MessageEntry) : List ι :=
  match entry.message with
  | .text message =>
    if message.role = .assistant then (message.toolCalls.getD []).map keys.call else []
  | _ => []

/-- The key of a tool result. -/
def answer (entry : MessageEntry) : Option ι :=
  match entry.message with
  | .tool result => some (keys.result result.name result.callId)
  | _ => none

/-- Every assistant message is followed at once by the results of its calls, and there are no
other results. -/
def InPlace (messages : List MessageEntry) : Prop := Paired keys.calls keys.answer messages

/-- The result has the key of the call. -/
def Answers (record : Record) : Prop :=
  keys.result record.2.name record.2.callId = keys.call record.1

variable {keys}

theorem Answers.of_notes {records : List Record} (h : ∀ r ∈ records, keys.Answers r)
    {noted : Record} (hnoted : Notes records noted) : keys.Answers noted := by
  obtain ⟨record, hrecord, hcall, hname, hid⟩ := hnoted
  unfold Answers
  rw [hcall, hname, hid]
  exact h record hrecord

theorem inPlace_setModel {messages : List MessageEntry} (model : String)
    (h : keys.InPlace messages) : keys.InPlace (messages.map (MessageEntry.setModel model)) := by
  refine (paired_congr ?_).mp h
  rw [List.map_map]
  refine List.map_congr_left fun entry _ => ?_
  obtain ⟨message, usage⟩ := entry
  cases message with
  | text message =>
    by_cases hmodel : message.model = none <;>
      simp [MessageEntry.setModel, calls, answer, hmodel]
  | tool | image => rfl

/-- The reply calls the tools whose results follow it. -/
theorem appendMessage_messages (keys : Keys ι) (context : Context)
    (message : ChatCompletionMessageFull) (records : List Record) :
    ∃ opening, (context.appendMessage message records).messages = context.messages ++
        opening :: records.map (fun record => MessageEntry.from (.toolResult record.2)) ∧
      keys.calls opening = records.map (fun record => keys.call record.1) ∧
      keys.answer opening = none := by
  refine ⟨_, rfl, ?_, rfl⟩
  cases records with
  | nil => rfl
  | cons record records => simp [calls, ContextMessage.assistant, Option.filter]

/-- The reply and its results are in place after a context that is. -/
theorem inPlace_appendMessage {context : Context} (message : ChatCompletionMessageFull)
    {records : List Record} (h : keys.InPlace context.messages)
    (hrecords : ∀ r ∈ records, keys.Answers r) :
    keys.InPlace (context.appendMessage message records).messages := by
  obtain ⟨opening, hmessages, hcalls, hopening⟩ :=
    appendMessage_messages keys context message records
  have hanswers : (records.map fun r => MessageEntry.from (.toolResult r.2)).map keys.answer =
      (keys.calls opening).map some := by
    rw [hcalls, List.map_map, List.map_map]
    exact List.map_congr_left fun r hr => congrArg some (hrecords r hr)
  have hblock : keys.InPlace
      (opening :: records.map fun r => MessageEntry.from (.toolResult r.2)) := by
    rw [← List.append_nil (records.map _)]
    exact Paired.block hopening (hanswers ▸ List.Perm.refl _) .nil
  rw [hmessages]
  exact Paired.append h hblock

end Keys

namespace Orchestrator

open RunState

variable {self : Orchestrator} {keys : Keys ι} {s s' : RunState} {answer : Answer}

/-- A hook that leaves the conversation in place if it was, or a tool whose result has the
key of its call. -/
def Respects (keys : Keys ι) (s : RunState) : Answer → Prop
  | .hook conversation _ =>
    keys.InPlace s.conversation.messages → keys.InPlace conversation.messages
  | .tool result => ∀ call ∈ s.phase.executes, keys.Answers (call, result)
  | _ => True

/-- Every context that the run holds is in place, and so are the results it collected. -/
structure HoldsInPlace (keys : Keys ι) (s : RunState) : Prop where
  conversation : keys.InPlace s.conversation.messages
  context : keys.InPlace s.context.messages
  guard : ∀ guard ∈ s.guard, keys.InPlace guard.conversation.messages
  records : ∀ r ∈ s.phase.records, keys.Answers r

/-- So is everything that it saved. -/
structure AllInPlace (keys : Keys ι) (s : RunState) : Prop extends HoldsInPlace keys s where
  events : ∀ conversation, (.saved conversation ∈ s.events ∨ .guarded conversation ∈ s.events) →
    keys.InPlace conversation.messages

theorem AllInPlace.events_of_logs (h : AllInPlace keys s) {new : List Event}
    (hevents : s'.events = s.events ++ new) (hnew : ∀ event ∈ new, Logs s answer event)
    (conversation : Conversation)
    (hsaved : .saved conversation ∈ s'.events ∨ .guarded conversation ∈ s'.events) :
    keys.InPlace conversation.messages := by
  rw [hevents, List.mem_append, List.mem_append] at hsaved
  rcases hsaved with (hold | hadded) | (hold | hadded)
  · exact h.events conversation (Or.inl hold)
  · obtain ⟨-, rfl⟩ := hnew _ hadded
    exact h.conversation
  · exact h.events conversation (Or.inr hold)
  · obtain ⟨guard, hguard, -, rfl⟩ := hnew _ hadded
    exact h.guard guard hguard

/-- A hook's conversation is in place if the one before it was. -/
theorem HoldsInPlace.leaves (h : HoldsInPlace keys s) (hrespects : Respects keys s answer)
    {conversation : Conversation} (hconversation : Leaves s answer conversation) :
    keys.InPlace conversation.messages := by
  rcases hconversation with rfl | ⟨ok, rfl⟩
  · exact h.conversation
  · exact hrespects h.conversation

theorem Respects.received (hrespects : Respects keys s answer) :
    ∀ r ∈ received s answer, keys.Answers r := by
  intro r hr
  cases answer with
  | tool result =>
    obtain ⟨call, hcall, rfl⟩ : ∃ call, s.phase.executes = some call ∧ (call, result) = r := by
      simpa [Orchestrator.received] using hr
    exact hrespects call hcall
  | hook | update | reply | send | metrics | dropped => cases hr

theorem inPlace_getD {context : Option Context} {default : Context}
    (hdefault : keys.InPlace default.messages)
    (h : keys.InPlace ((context.map (·.messages)).getD [])) :
    keys.InPlace (context.getD default).messages := by
  cases context with
  | none => exact hdefault
  | some context => exact h

namespace HoldsInPlace

theorem edit (h : HoldsInPlace keys s) {conversation : Conversation}
    (hconversation : keys.InPlace conversation.messages) :
    HoldsInPlace keys { s with conversation := conversation } :=
  ⟨hconversation, h.context, h.guard, h.records⟩

theorem goto (h : HoldsInPlace keys s) {phase : Await}
    (hrecords : ∀ r ∈ phase.records, keys.Answers r) : HoldsInPlace keys (s.goto phase) :=
  ⟨h.conversation, h.context, h.guard, hrecords⟩

theorem leave (h : HoldsInPlace keys s) (exit : Exit) : HoldsInPlace keys (s.leave exit) :=
  ⟨h.conversation, h.context, h.guard, by simp [Await.records]⟩

theorem flush (h : HoldsInPlace keys s) (point : FlushPoint) : HoldsInPlace keys (s.flush point) :=
  ⟨h.conversation, h.context, h.guard, by simp [Await.records]⟩

theorem loop (h : HoldsInPlace keys s) : HoldsInPlace keys s.loop := by
  rcases loop_eq s with ⟨-, heq⟩ | ⟨-, heq⟩ <;> rw [heq]
  · exact h.flush _
  · have hentered : HoldsInPlace keys
        { s with conversation := { s.conversation with context := some s.context } } :=
      ⟨h.context, h.context, h.guard, h.records⟩
    exact hentered.flush _

theorem syncContext (h : HoldsInPlace keys s) : HoldsInPlace keys s.syncContext :=
  ⟨h.conversation, inPlace_getD h.context h.conversation, h.guard, h.records⟩

theorem updateContext (h : HoldsInPlace keys s) : HoldsInPlace keys (self.updateContext s) :=
  ⟨Keys.inPlace_setModel self.model h.context, Keys.inPlace_setModel self.model h.context, h.guard,
    by simp [Await.records, Orchestrator.updateContext]⟩

end HoldsInPlace

theorem Proceeds.holdsInPlace {point : FlushPoint} (h : Proceeds s point s')
    (hplace : HoldsInPlace keys s) : HoldsInPlace keys s' := by
  cases h with
  | head => exact hplace.goto (by simp [Await.records])
  | tools hphase =>
    refine ⟨hplace.conversation, hplace.context, hplace.guard, ?_⟩
    rcases hphase with rfl | rfl <;> simp [Await.records]
  | reopened =>
    have hsync := hplace.syncContext
    exact HoldsInPlace.loop ⟨hsync.conversation, hsync.context, hsync.guard, hsync.records⟩
  | closed => exact hplace.loop
  | completing => exact hplace.goto (by simp [Await.records])
  | completed => exact hplace.leave _

theorem Collects.holdsInPlace {records : List Record} (h : self.Collects s records s')
    (hrecords : ∀ r ∈ records, keys.Answers r) (hplace : HoldsInPlace keys s) :
    HoldsInPlace keys s' := by
  have hsync := hplace.syncContext
  cases h with
  | waits _ hsubset => exact hplace.goto fun r hr => hrecords r (hsubset hr)
  | panics => exact hplace.leave _
  | notRendered tracker =>
    exact ⟨hsync.conversation, hsync.context, hsync.guard, by simp [Await.records]⟩
  | @tooManyFailures message noted tracker hnoted =>
    have happend := Keys.inPlace_appendMessage message hsync.context
      fun r hr => Keys.Answers.of_notes hrecords (hnoted r hr)
    exact ⟨hsync.conversation, happend, hsync.guard, by simp [Await.records]⟩
  | @appends message noted tracker hnoted =>
    have happend := Keys.inPlace_appendMessage message hsync.context
      fun r hr => Keys.Answers.of_notes hrecords (hnoted r hr)
    exact HoldsInPlace.updateContext ⟨hsync.conversation, happend, hsync.guard, hsync.records⟩

theorem Effect.holdsInPlace (h : self.Effect s answer s') (hrespects : Respects keys s answer)
    (hplace : HoldsInPlace keys s) : HoldsInPlace keys s' := by
  have hedit : ∀ {conversation}, Leaves s answer conversation →
      keys.InPlace conversation.messages := fun hleaves => hplace.leaves hrespects hleaves
  cases h with
  | idle => exact hplace
  | startFailed _ hanswer =>
    have hfailed := hplace.edit (hedit (Or.inr ⟨_, hanswer⟩))
    exact ⟨hfailed.conversation, hfailed.context, hfailed.guard, by simp [Await.records]⟩
  | started _ hanswer =>
    have hstarted := hedit (Or.inr ⟨_, hanswer⟩)
    refine HoldsInPlace.loop ⟨hstarted, hplace.context, ?_, hplace.records⟩
    intro guard hguard
    obtain rfl := Option.mem_some_iff.mp hguard
    exact hstarted
  | leaves _ _ hleaves => exact (hplace.edit (hedit hleaves)).leave _
  | flushed _ _ hproceeds =>
    exact hproceeds.holdsInPlace
      ⟨hplace.conversation, hplace.context, hplace.guard, hplace.records⟩
  | requested _ hanswer =>
    have hrequested := hplace.edit (hedit (Or.inr ⟨_, hanswer⟩))
    exact ⟨hrequested.conversation, hrequested.context, hrequested.guard, by simp [Await.records]⟩
  | replied => exact hplace.goto (by simp [Await.records])
  | collects _ _ _ hleaves hcollects =>
    refine hcollects.holdsInPlace ?_ ⟨hedit hleaves, hplace.context, hplace.guard, hplace.records⟩
    intro r hr
    rcases List.mem_append.mp hr with hold | hnew
    · exact hplace.records r hold
    · exact hrespects.received r hnew
  | failureLimitSent =>
    exact HoldsInPlace.updateContext
      ⟨hplace.conversation, hplace.context, hplace.guard, hplace.records⟩
  | requestLimitSent =>
    exact ⟨hplace.conversation, hplace.context, hplace.guard, by simp [Await.records]⟩
  | measured => exact ⟨hplace.conversation, hplace.context, hplace.guard, by simp [Await.records]⟩
  | continues =>
    exact HoldsInPlace.loop ⟨hplace.conversation, hplace.context, hplace.guard, hplace.records⟩
  | ended _ hanswer => exact (hplace.edit (hedit (Or.inr ⟨_, hanswer⟩))).flush _
  | completed => exact hplace.leave _

theorem Effect.allInPlace (hrespects : Respects keys s answer) (h : self.Effect s answer s')
    (hplace : AllInPlace keys s) : AllInPlace keys s' := by
  obtain ⟨new, hevents, hnew⟩ := h.logs
  exact ⟨h.holdsInPlace hrespects hplace.toHoldsInPlace, hplace.events_of_logs hevents hnew⟩

/-- The conversations that a run saved, itself or by its guard. -/
def Saves (s : RunState) (conversation : Conversation) : Prop :=
  .saved conversation ∈ s.events ∨ .guarded conversation ∈ s.events

theorem allInPlace_init {conversation : Conversation} (h : keys.InPlace conversation.messages)
    (errorTracker : ToolErrorTracker) (dirty : Bool) :
    AllInPlace keys (.init conversation errorTracker dirty) where
  conversation := h
  context := inPlace_getD .nil h
  guard := by
    intro guard hguard
    cases hguard
  records := by simp [Await.records, init]
  events := by
    rintro saved (hmem | hmem) <;> cases hmem

/-- A run from a context in place saves contexts in place only. -/
theorem run_saves_inPlace {conversation : Conversation} {errorTracker : ToolErrorTracker}
    {dirty : Bool} {answers : List Answer} (h : keys.InPlace conversation.messages)
    (hrespects : Meets self.step (Respects keys) (.init conversation errorTracker dirty) answers)
    {saved : Conversation}
    (hsaved : Saves (run self.step (.init conversation errorTracker dirty) answers) saved) :
    keys.InPlace saved.messages :=
  (run_effects (fun _ _ _ hrespects h => h.allInPlace hrespects) hrespects
    (dirtyAtFlush_init conversation errorTracker dirty)
    (allInPlace_init h errorTracker dirty)).events saved hsaved

/-- A hook leaves the conversation in place if it was. -/
def KeepsInPlace (keys : Keys ι) (s : RunState) : Answer → Prop
  | .hook conversation _ =>
    keys.InPlace s.conversation.messages → keys.InPlace conversation.messages
  | _ => True

/-- Counting results asks nothing of the tools. -/
theorem KeepsInPlace.respects (h : KeepsInPlace Keys.count s answer) :
    Respects Keys.count s answer := by
  cases answer with
  | tool result => exact fun _ _ => rfl
  | hook | update | reply | send | metrics | dropped => exact h

/-- **Every saved context is well formed.** Each assistant message is followed by as many
results as it has calls, whatever the tools return; and by the results of its calls, as far
as the tools return the ids of the calls. -/
theorem run_saves_wellFormed (self : Orchestrator) (conversation : Conversation)
    (errorTracker : ToolErrorTracker) (dirty : Bool) (answers : List Answer) :
    (Keys.count.InPlace conversation.messages →
      Meets self.step (KeepsInPlace Keys.count) (.init conversation errorTracker dirty) answers →
      ∀ saved, Saves (run self.step (.init conversation errorTracker dirty) answers) saved →
        Keys.count.InPlace saved.messages) ∧
    (Keys.byId.InPlace conversation.messages →
      Meets self.step (Respects Keys.byId) (.init conversation errorTracker dirty) answers →
      ∀ saved, Saves (run self.step (.init conversation errorTracker dirty) answers) saved →
        Keys.byId.InPlace saved.messages) := by
  constructor
  · intro h hkeeps saved hsaved
    have hrespects := hkeeps.imp fun _ _ => KeepsInPlace.respects
    exact run_saves_inPlace h hrespects hsaved
  · intro h hrespects saved hsaved
    exact run_saves_inPlace h hrespects hsaved

end Orchestrator

/-! ### A turn with a tool call -/

namespace Turn

open Orchestrator

def toolCall : ToolCallFull :=
  { name := "read"
    callId := some "1"
    arguments := .unparsed ""
    thoughtSignature := none }

def toolResult : ToolResult :=
  { name := "read"
    callId := some "1"
    output := { isError := false, values := [.text "contents"] } }

/-- The first reply calls a tool, and the second ends the turn. -/
def reading : List Answer :=
  let hello := conversation ["hello"]
  [.hook hello true, .update true, .hook hello true,
    .reply (some { reply with toolCalls := [toolCall], finishReason := some .toolCalls }),
    .hook hello true, .hook hello true, .tool toolResult, .hook hello true, .update true]

theorem hello_inPlace {ι : Type*} (keys : Keys ι) :
    keys.InPlace (conversation ["hello"]).messages :=
  @Paired.block _ _ _ _ _ [] [] rfl .nil .nil

/-- The reply and the result of its call are saved in place. -/
theorem reading_wellFormed :
    let saved := (run (orchestrator none).step (start false) reading).conversation
    saved.messages.length = 3 ∧ Keys.count.InPlace saved.messages ∧
      Keys.byId.InPlace saved.messages := by
  intro saved
  have hsaves : Saves (run (orchestrator none).step (start false) reading) saved :=
    Or.inl (by decide +kernel)
  obtain ⟨hcount, hbyId⟩ :=
    run_saves_wellFormed (orchestrator none) (conversation ["hello"]) ⟨[], 3⟩ false reading
  refine ⟨by decide +kernel, ?_, ?_⟩
  · have hkeep := hello_inPlace Keys.count
    exact hcount hkeep ⟨fun _ => hkeep, trivial, fun _ => hkeep, trivial, fun _ => hkeep,
      fun _ => hkeep, trivial, fun _ => hkeep, trivial, trivial⟩ saved hsaves
  · have hkeep := hello_inPlace Keys.byId
    refine hbyId hkeep ⟨fun _ => hkeep, trivial, fun _ => hkeep, trivial, fun _ => hkeep,
      fun _ => hkeep, ?_, fun _ => hkeep, trivial, trivial⟩ saved hsaves
    intro call hcall
    have hexecutes : (run (orchestrator none).step (start false)
        (reading.take 6)).phase.executes = some toolCall := by
      decide +kernel
    obtain rfl : toolCall = call := Option.some.inj (hexecutes.symm.trans hcall)
    rfl

end Turn

end HeliosLite
