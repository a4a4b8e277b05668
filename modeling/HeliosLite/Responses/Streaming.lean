import HeliosLite.Responses.Response

/-!
# Function calls in a stream

A function call is announced, continued by parts of its arguments and closed, between the events
of the other calls. The messages carry parts of calls, which are put together again.

## Main definitions

* `FunctionItem` — a function call, with the texts of its events
* `Carries` — the function-call events of a stream are those of some items, in any order
* `Reassembles` — the calls that come out are the items, with their complete arguments

## Main results

* `streamParts_eq` — the parts of the messages, read off the events alone
* `reassembles_iff` — the calls come out if and only if none is interrupted, and none has initial
  arguments but no further part
-/

namespace HeliosLite

open Theory

/-! ### Streams of calls -/

namespace ResponseStreamEvent

/-- The output index of a function-call event. -/
def callIndex : ResponseStreamEvent → Option UInt32
  | outputItemAdded index (.functionCall _) => some index
  | functionCallArgumentsDelta index _ => some index
  | functionCallArgumentsDone index _ _ => some index
  | _ => none

/-- The arguments in a function-call event. -/
def argumentsText : ResponseStreamEvent → String
  | outputItemAdded _ (.functionCall call) => call.arguments
  | functionCallArgumentsDelta _ delta => delta
  | functionCallArgumentsDone _ _ arguments => arguments
  | _ => ""

end ResponseStreamEvent

def StreamItem.asEvent : Except StreamError StreamItem → Option ResponseStreamEvent
  | .ok (.event e) => some e
  | _ => none

/-- The calls in a message that was made before. -/
def StreamItem.toolCalls : Except StreamError StreamItem → List ToolCall
  | .ok (.message m) => m.toolCalls
  | _ => []

/-- The events of a stream. -/
def streamEvents (stream : List (Except StreamError StreamItem)) : List ResponseStreamEvent :=
  stream.filterMap StreamItem.asEvent

/-- The parts of calls in a message. -/
def ChatCompletionMessage.parts : Except StreamError ChatCompletionMessage → List ToolCallPart
  | .ok m => m.toolCalls.filterMap ToolCall.asPartial
  | .error _ => []

/-- The parts in the messages of a stream. -/
def streamParts (stream : List (Except StreamError StreamItem)) : List ToolCallPart :=
  (intoDomain stream).flatMap ChatCompletionMessage.parts

/-- A function call with what its events say. -/
structure FunctionItem where
  outputIndex : UInt32
  callId : String
  name : String
  initial : String
  deltas : List String
  doneName : Option String
  done : String
  deriving DecidableEq, Repr

namespace FunctionItem

variable (item : FunctionItem)

def added : ResponseStreamEvent :=
  .outputItemAdded item.outputIndex (.functionCall
    { callId := item.callId
      name := item.name
      arguments := item.initial })

def delta (text : String) : ResponseStreamEvent :=
  .functionCallArgumentsDelta item.outputIndex text

def closed : ResponseStreamEvent :=
  .functionCallArgumentsDone item.outputIndex item.doneName item.done

/-- The events of a call, in their order. -/
def events : List ResponseStreamEvent := item.added :: item.deltas.map item.delta ++ [item.closed]

/-- The initial arguments, followed by the parts. -/
def streamed : String := item.initial ++ String.join item.deltas

/-- The call with its complete arguments. -/
def full : ToolCallFull :=
  { name := item.name
    callId := some item.callId
    arguments := .ofStreamed item.done
    thoughtSignature := none }

/-- Without parts there are no initial arguments either, and with parts the complete text is what
was streamed. -/
def PassedOn : Prop := if item.deltas = [] then item.initial = "" else item.done = item.streamed

instance : Decidable item.PassedOn := inferInstanceAs (Decidable (ite _ _ _))

/-- The events of a call that pass text on: the announcement if it has arguments, every part, and
the closing event of a call without parts. -/
def speaks : ResponseStreamEvent → Bool
  | .outputItemAdded index (.functionCall call) =>
    index = item.outputIndex && !call.arguments.isEmpty
  | .functionCallArgumentsDelta index _ => index = item.outputIndex
  | .functionCallArgumentsDone index _ _ => index = item.outputIndex && item.deltas.isEmpty
  | _ => false

end FunctionItem

variable {items : List FunctionItem} {stream : List (Except StreamError StreamItem)}

/-- The function-call events of the stream are those of the items. Each item has its own output
index and its own id, and its complete arguments are what was streamed, unless they are given
only at the end. -/
structure Carries (items : List FunctionItem) (stream : List (Except StreamError StreamItem)) :
    Prop where
  outputIndex : (items.map FunctionItem.outputIndex).Nodup
  callId : (items.map FunctionItem.callId).Nodup
  name : ∀ item ∈ items, item.name.isEmpty = false
  done : ∀ item ∈ items, item.done = item.streamed ∨ item.streamed = ""
  events : ∀ item ∈ items,
    (streamEvents stream).filter (·.callIndex = some item.outputIndex) = item.events
  items : ∀ e ∈ streamEvents stream,
    e.callIndex = none ∨ ∃ item ∈ items, e.callIndex = some item.outputIndex
  messages : ∀ x ∈ stream, StreamItem.toolCalls x = []

/-- The calls that are put together from the messages are the items, each once. -/
def Reassembles (items : List FunctionItem) (stream : List (Except StreamError StreamItem)) :
    Prop :=
  (ToolCallFull.tryFromParts (streamParts stream)).Perm (items.map FunctionItem.full)

instance : Decidable (Reassembles items stream) := inferInstanceAs (Decidable (List.Perm _ _))

/-- The call whose text an event passes on. -/
def speaker (items : List FunctionItem) (e : ResponseStreamEvent) : Option FunctionItem :=
  items.find? (·.speaks e)

/-- The calls whose text is passed on, event by event. -/
def speakers (items : List FunctionItem) (stream : List (Except StreamError StreamItem)) :
    List FunctionItem :=
  (streamEvents stream).filterMap (speaker items)

/-! ### The parts of one event -/

namespace FunctionItem

def part (item : FunctionItem) (text : String) : NamedPart :=
  { callId := item.callId
    name := item.name
    text := text }

/-- The texts that are passed on of a call. -/
def texts (item : FunctionItem) : List String :=
  (if item.initial.isEmpty then [] else [item.initial]) ++ item.deltas ++
    if item.deltas.isEmpty then [item.done] else []

theorem texts_ne_nil (item : FunctionItem) : item.texts ≠ [] := by
  unfold texts
  cases item.deltas <;> simp

@[simp] theorem speaks_added (item : FunctionItem) :
    item.speaks item.added = !item.initial.isEmpty := by simp [speaks, added]

@[simp] theorem speaks_delta (item : FunctionItem) (text : String) :
    item.speaks (item.delta text) = true := by simp [speaks, delta]

@[simp] theorem speaks_closed (item : FunctionItem) :
    item.speaks item.closed = item.deltas.isEmpty := by simp [speaks, closed]

theorem mem_events {item : FunctionItem} {e : ResponseStreamEvent} :
    e ∈ item.events ↔ e = item.added ∨ (∃ text ∈ item.deltas, e = item.delta text) ∨
      e = item.closed := by
  simp [events, eq_comm]

theorem callIndex_of_mem_events {item : FunctionItem} {e : ResponseStreamEvent}
    (h : e ∈ item.events) : e.callIndex = some item.outputIndex := by
  rcases mem_events.mp h with rfl | ⟨text, -, rfl⟩ | rfl <;> rfl

/-- The event of a call that speaks has its output index. -/
theorem callIndex_of_speaks {item : FunctionItem} {e : ResponseStreamEvent}
    (h : item.speaks e = true) : e.callIndex = some item.outputIndex := by
  unfold speaks at h
  split at h <;> simp_all [ResponseStreamEvent.callIndex]

end FunctionItem

/-! ### The tables -/

theorem streamEvents_append (as bs : List (Except StreamError StreamItem)) :
    streamEvents (as ++ bs) = streamEvents as ++ streamEvents bs := List.filterMap_append

namespace CodexStreamState

variable {s : CodexStreamState} {item : FunctionItem} {index : UInt32}

theorem step_of_asEvent_none {x : Except StreamError StreamItem}
    (hx : StreamItem.asEvent x = none) :
    s.step x = s := by
  rcases x with error | (event | message)
  · rfl
  · cases hx
  · rfl

theorem step_toolCall_of_ne {e : ResponseStreamEvent}
    (hne : ∀ call, e ≠ .outputItemAdded index (.functionCall call)) :
    (s.step (.ok (.event e))).outputIndexToToolCall index = s.outputIndexToToolCall index := by
  unfold step
  split
  · rename_i announced call heq
    have hother : announced ≠ index := by
      rintro rfl
      simp only [Except.ok.injEq, StreamItem.event.injEq] at heq
      exact hne call heq
    exact Function.update_of_ne hother.symm _ _
  · rfl
  · rfl

theorem step_received (e : ResponseStreamEvent) :
    (s.step (.ok (.event e))).receivedToolcallDeltas index = true ↔
      s.receivedToolcallDeltas index = true ∨
        ∃ text, e = .functionCallArgumentsDelta index text := by
  unfold step
  split
  · rename_i heq
    simp only [Except.ok.injEq, StreamItem.event.injEq] at heq
    simp [heq]
  · rename_i streamed text heq
    simp only [Except.ok.injEq, StreamItem.event.injEq] at heq
    by_cases hindex : index = streamed
    · simp [heq, hindex]
    · simp [heq, hindex, Ne.symm hindex]
  · rename_i hother
    simp only [iff_self_or, forall_exists_index]
    rintro text rfl
    exact absurd rfl (hother index text)

/-- An announced call is in the table, if the function-call events with its output index are its
own. -/
theorem run_toolCall (hadded : item.added ∈ streamEvents stream)
    (hown : ∀ e ∈ streamEvents stream, e.callIndex = some item.outputIndex → e ∈ item.events) :
    (run step s stream).outputIndexToToolCall item.outputIndex =
      some (item.callId, item.name) := by
  induction stream using List.reverseRecOn with
  | nil => cases hadded
  | append_singleton stream x ih =>
    rw [streamEvents_append] at hadded hown
    rw [run_append]
    have hbefore := fun hadded => ih hadded fun e he => hown e (List.mem_append_left _ he)
    cases hx : StreamItem.asEvent x with
    | none =>
      rw [run_cons, run_nil, step_of_asEvent_none hx]
      apply hbefore
      simpa [streamEvents, hx] using hadded
    | some e =>
      obtain rfl : x = .ok (.event e) := by
        rcases x with error | (event | message) <;> simp_all [StreamItem.asEvent]
      rw [run_cons, run_nil]
      by_cases hannounces : e = item.added
      · rw [hannounces]
        exact Function.update_self ..
      · rw [step_toolCall_of_ne, hbefore]
        · simpa [streamEvents, StreamItem.asEvent, Ne.symm hannounces] using hadded
        · rintro call rfl
          have hmem := hown _ (List.mem_append_right _ (List.mem_singleton_self _)) rfl
          rcases FunctionItem.mem_events.mp hmem with heq | ⟨text, -, heq⟩ | heq
          · exact hannounces heq
          · cases heq
          · cases heq

/-- The indices of the parts that came. -/
theorem run_received :
    (run step s stream).receivedToolcallDeltas index = true ↔
      s.receivedToolcallDeltas index = true ∨
        ∃ text, .functionCallArgumentsDelta index text ∈ streamEvents stream := by
  induction stream generalizing s with
  | nil => simp [streamEvents]
  | cons x stream ih =>
    rw [run_cons, ih]
    cases hx : StreamItem.asEvent x with
    | none => simp [streamEvents, step_of_asEvent_none hx, hx]
    | some e =>
      obtain rfl : x = .ok (.event e) := by
        rcases x with error | (event | message) <;> simp_all [StreamItem.asEvent]
      rw [step_received, or_assoc, ← exists_or]
      have hcons : streamEvents (.ok (.event e) :: stream) = e :: streamEvents stream := rfl
      simp only [hcons, List.mem_cons, @eq_comm _ e]

end CodexStreamState

/-- The part that an event passes on. -/
def namedPart (items : List FunctionItem) (e : ResponseStreamEvent) : Option NamedPart :=
  (speaker items e).map fun item => item.part e.argumentsText

/-- No item speaks in the other events. -/
theorem namedPart_of_callIndex_none {e : ResponseStreamEvent} (he : e.callIndex = none) :
    namedPart items e = none := by
  rw [namedPart, Option.map_eq_none_iff, speaker, List.find?_eq_none]
  intro item _ hspeaks
  rw [FunctionItem.callIndex_of_speaks hspeaks] at he
  cases he

/-- The ids of the parts are those of the calls that speak. -/
theorem uninterrupted_namedPart :
    Uninterrupted NamedPart.callId ((streamEvents stream).filterMap (namedPart items)) ↔
      Uninterrupted FunctionItem.callId (speakers items stream) := by
  have hkeys : ((streamEvents stream).filterMap (namedPart items)).map NamedPart.callId =
      (speakers items stream).map FunctionItem.callId := by
    rw [speakers, List.map_filterMap, List.map_filterMap]
    apply List.filterMap_congr
    intro e _
    rw [namedPart, Option.map_map]
    rfl
  have hid {α : Type} (key : α → String) (l : List α) :
      Uninterrupted id (l.map key) ↔ Uninterrupted key l := uninterrupted_map
  rw [← hid, hkeys, hid]

namespace CodexStreamState

variable {s : CodexStreamState}

/-- The other events give no part of a call. -/
theorem parts_of_callIndex_none {e : ResponseStreamEvent} (he : e.callIndex = none) :
    (s.eventMessage e).toList.flatMap ChatCompletionMessage.parts = [] := by
  cases e with
  | outputItemAdded index item => cases item <;> first | rfl | cases he
  | functionCallArgumentsDelta => cases he
  | functionCallArgumentsDone => cases he
  | _ => rfl

/-- An announcement gives its arguments. -/
theorem parts_added (item : FunctionItem) :
    (s.eventMessage item.added).toList.flatMap ChatCompletionMessage.parts =
      if item.initial.isEmpty then [] else [(item.part item.initial).toPart] := by
  rw [FunctionItem.added, eventMessage]
  split_ifs <;> rfl

theorem parts_partMessage {item : FunctionItem} (hname : item.name.isEmpty = false)
    (text : String) :
    ChatCompletionMessage.parts (.ok (partMessage (item.callId, item.name) text)) =
      [(item.part text).toPart] := by
  simp [ChatCompletionMessage.parts, partMessage, ChatCompletionMessage.addToolCall,
    ChatCompletionMessage.default, ToolCall.asPartial, hname, NamedPart.toPart, FunctionItem.part]

end CodexStreamState

namespace Carries

variable (h : Carries items stream) {item : FunctionItem} {e : ResponseStreamEvent}

include h

/-- Only the call with its output index speaks in an event. -/
theorem speaker_eq (hitem : item ∈ items) (hindex : e.callIndex = some item.outputIndex) :
    speaker items e = if item.speaks e then some item else none := by
  have honly : ∀ other ∈ items, other.speaks e = true → other = item := by
    intro other hother hspeaks
    have hsame := (FunctionItem.callIndex_of_speaks hspeaks).symm.trans hindex
    exact List.inj_on_of_nodup_map h.outputIndex hother hitem (Option.some.inj hsame)
  unfold speaker
  split_ifs with hspeaks
  · cases hfind : items.find? (·.speaks e) with
    | none => exact absurd hspeaks (List.find?_eq_none.mp hfind item hitem)
    | some other =>
      have hspeaks' : other.speaks e = true := by simpa using List.find?_some hfind
      rw [honly other (List.mem_of_find?_eq_some hfind) hspeaks']
  · rw [List.find?_eq_none]
    intro other hother hother'
    exact hspeaks (honly other hother hother' ▸ hother')

theorem namedPart_eq (hitem : item ∈ items) (hindex : e.callIndex = some item.outputIndex) :
    namedPart items e = if item.speaks e then some (item.part e.argumentsText) else none := by
  rw [namedPart, h.speaker_eq hitem hindex]
  split_ifs <;> rfl

/-- The text of an item's events. -/
theorem filterMap_namedPart (hitem : item ∈ items) :
    item.events.filterMap (namedPart items) = item.texts.map item.part := by
  have hpart : ∀ e ∈ item.events, namedPart items e =
      if item.speaks e then some (item.part e.argumentsText) else none :=
    fun e he => h.namedPart_eq hitem (FunctionItem.callIndex_of_mem_events he)
  have hdeltas : (item.deltas.map item.delta).filterMap
      (fun e => if item.speaks e then some (item.part e.argumentsText) else none) =
        item.deltas.map item.part := by
    rw [List.filterMap_map, ← List.filterMap_eq_map]
    apply List.filterMap_congr
    intro text _
    rw [Function.comp_apply, FunctionItem.speaks_delta]
    rfl
  rw [List.filterMap_congr hpart, FunctionItem.events, List.filterMap_append, List.filterMap_cons,
    hdeltas, FunctionItem.speaks_added, FunctionItem.texts, List.map_append, List.map_append]
  have hadded : item.added.argumentsText = item.initial := rfl
  have hclosed : item.closed.argumentsText = item.done := rfl
  cases hinitial : item.initial.isEmpty <;> cases hparts : item.deltas.isEmpty <;>
    simp [hadded, hclosed, hparts]

/-- The events of an item before one of its events. -/
theorem before_of_split (hitem : item ∈ items) {before after : List (Except StreamError StreamItem)}
    (hsplit : stream = before ++ .ok (.event e) :: after)
    (hindex : e.callIndex = some item.outputIndex) :
    ∃ rest, (streamEvents before).filter (·.callIndex = some item.outputIndex) ++ e :: rest =
      item.events := by
  refine ⟨(streamEvents after).filter (·.callIndex = some item.outputIndex), ?_⟩
  have hcons : streamEvents (.ok (.event e) :: after) = e :: streamEvents after := rfl
  rw [← h.events item hitem, hsplit, streamEvents_append, hcons, List.filter_append,
    List.filter_cons_of_pos (by simpa using hindex)]

/-- A call is announced before its other events. -/
theorem added_mem_before (hitem : item ∈ items)
    {before after : List (Except StreamError StreamItem)}
    (hsplit : stream = before ++ .ok (.event e) :: after)
    (hindex : e.callIndex = some item.outputIndex) (hne : e ≠ item.added) :
    item.added ∈ streamEvents before := by
  obtain ⟨rest, hrest⟩ := h.before_of_split hitem hsplit hindex
  unfold FunctionItem.events at hrest
  cases hbefore : (streamEvents before).filter (·.callIndex = some item.outputIndex) with
  | nil =>
    rw [hbefore] at hrest
    exact absurd (List.cons.inj hrest).1 hne
  | cons first others =>
    rw [hbefore] at hrest
    rw [← (List.cons.inj hrest).1]
    exact List.mem_of_mem_filter (hbefore ▸ List.mem_cons_self)

/-- The events with the output index of an item are its own. -/
theorem mem_events (hitem : item ∈ items) (he : e ∈ streamEvents stream)
    (hindex : e.callIndex = some item.outputIndex) : e ∈ item.events := by
  rw [← h.events item hitem, List.mem_filter]
  exact ⟨he, by simpa using hindex⟩

/-- The table has the id and the name of an item after its announcement. -/
theorem toolCall_eq (hitem : item ∈ items) {before after : List (Except StreamError StreamItem)}
    (hsplit : stream = before ++ .ok (.event e) :: after)
    (hindex : e.callIndex = some item.outputIndex) (hne : e ≠ item.added) (name : String) :
    (run CodexStreamState.step .start before).toolCall item.outputIndex name =
      (item.callId, item.name) := by
  have hown : ∀ e ∈ streamEvents before, e.callIndex = some item.outputIndex →
      e ∈ item.events := by
    intro e he
    apply h.mem_events hitem
    rw [hsplit, streamEvents_append]
    exact List.mem_append_left _ he
  have hadded := h.added_mem_before hitem hsplit hindex hne
  rw [CodexStreamState.toolCall, CodexStreamState.run_toolCall hadded hown, Option.getD_some]

/-- At the closing event of an item a part of its arguments has come if it has any. -/
theorem received_closed (hitem : item ∈ items)
    {before after : List (Except StreamError StreamItem)}
    (hsplit : stream = before ++ .ok (.event item.closed) :: after) :
    (run CodexStreamState.step .start before).receivedToolcallDeltas item.outputIndex =
      !item.deltas.isEmpty := by
  obtain ⟨rest, hrest⟩ := h.before_of_split hitem hsplit rfl
  have hfresh : item.closed ∉ item.added :: item.deltas.map item.delta := by
    simp [FunctionItem.closed, FunctionItem.added, FunctionItem.delta]
  have hbefore : (streamEvents before).filter (·.callIndex = some item.outputIndex) =
      item.added :: item.deltas.map item.delta :=
    ((List.append_cons_inj_of_notMem hfresh List.not_mem_nil).mp hrest.symm).1.symm
  rw [Bool.eq_iff_iff, CodexStreamState.run_received]
  have hmem (text : String) :
      .functionCallArgumentsDelta item.outputIndex text ∈ streamEvents before ↔
        text ∈ item.deltas := by
    have hfilter : item.delta text ∈ (streamEvents before).filter
        (·.callIndex = some item.outputIndex) ↔ text ∈ item.deltas := by
      rw [hbefore]
      simp [FunctionItem.added, FunctionItem.delta]
    rw [← hfilter, List.mem_filter]
    simp [FunctionItem.delta, ResponseStreamEvent.callIndex]
  simp only [hmem, CodexStreamState.start, Bool.false_eq_true, false_or]
  cases item.deltas <;> simp

/-- What an item of the stream gives, from the item alone. -/
theorem parts_message {x : Except StreamError StreamItem}
    {before after : List (Except StreamError StreamItem)} (hsplit : stream = before ++ x :: after) :
    ((run CodexStreamState.step .start before).message x).toList.flatMap
        ChatCompletionMessage.parts =
      (((StreamItem.asEvent x).bind (namedPart items)).map NamedPart.toPart).toList := by
  have hx : x ∈ stream := by
    rw [hsplit]
    exact List.mem_append_right _ List.mem_cons_self
  rcases x with error | (e | m)
  · rfl
  · have he : e ∈ streamEvents stream := List.mem_filterMap.mpr ⟨_, hx, rfl⟩
    have hevent : StreamItem.asEvent (.ok (.event e)) = some e := rfl
    rw [hevent, Option.bind_some, CodexStreamState.message]
    rcases h.items e he with hnone | ⟨item, hitem, hindex⟩
    · rw [CodexStreamState.parts_of_callIndex_none hnone, namedPart_of_callIndex_none hnone]
      rfl
    · have hname := h.name item hitem
      rw [h.namedPart_eq hitem hindex]
      rcases FunctionItem.mem_events.mp (h.mem_events hitem he hindex) with
        rfl | ⟨text, -, rfl⟩ | rfl
      · rw [FunctionItem.speaks_added]
        rw [CodexStreamState.parts_added]
        cases item.initial.isEmpty <;> rfl
      · have hcall := h.toolCall_eq hitem hsplit rfl (fun heq => by cases heq) ""
        rw [FunctionItem.speaks_delta, FunctionItem.delta, CodexStreamState.eventMessage, hcall]
        simp [CodexStreamState.parts_partMessage hname, ResponseStreamEvent.argumentsText]
      · have hcall := h.toolCall_eq hitem hsplit rfl (fun heq => by cases heq)
          (item.doneName.getD "")
        have hreceived := h.received_closed hitem hsplit
        rw [FunctionItem.speaks_closed, FunctionItem.closed, CodexStreamState.eventMessage, hcall,
          hreceived]
        cases item.deltas.isEmpty
        · rfl
        · simp [CodexStreamState.parts_partMessage hname, ResponseStreamEvent.argumentsText]
  · have hcalls : m.toolCalls = [] := h.messages _ hx
    simp [CodexStreamState.message, ChatCompletionMessage.parts, hcalls, StreamItem.asEvent]

/-- The parts of the messages, read off the events alone. -/
theorem streamParts_eq :
    streamParts stream =
      ((streamEvents stream).filterMap (namedPart items)).map NamedPart.toPart := by
  have hevents : ((streamEvents stream).filterMap (namedPart items)).map NamedPart.toPart =
      (stream.map fun x =>
        (((StreamItem.asEvent x).bind (namedPart items)).map NamedPart.toPart).toList).flatten := by
    rw [streamEvents, List.filterMap_filterMap, List.map_filterMap,
      List.filterMap_eq_flatMap_toList, List.flatMap_def]
  rw [streamParts, flatMap_intoDomain, hevents]
  congr 1
  exact outputs_eq_map fun before x after hsplit => h.parts_message hsplit

/-- The parts with the id of an item are its texts. -/
theorem filter_callId (hitem : item ∈ items) :
    ((streamEvents stream).filterMap (namedPart items)).filter (·.callId = item.callId) =
      item.texts.map item.part := by
  rw [← h.filterMap_namedPart hitem, ← h.events item hitem, List.filter_filterMap,
    List.filterMap_filter]
  apply List.filterMap_congr
  intro e he
  rcases h.items e he with hnone | ⟨other, hother, hindex⟩
  · rw [namedPart_of_callIndex_none hnone, hnone]
    rfl
  · -- an id and an output index stand for the same item
    have hsame : other.callId = item.callId ↔ other.outputIndex = item.outputIndex := by
      constructor <;> intro heq
      · rw [List.inj_on_of_nodup_map h.callId hother hitem heq]
      · rw [List.inj_on_of_nodup_map h.outputIndex hother hitem heq]
    rw [h.namedPart_eq hother hindex, hindex]
    by_cases heq : other.outputIndex = item.outputIndex
    · split_ifs <;> simp_all [FunctionItem.part, Option.filter]
    · split_ifs <;> simp_all [FunctionItem.part, Option.filter]

/-- Uninterrupted calls come out one by one, each with its texts. -/
theorem stretches_perm
    (huninterrupted : Uninterrupted FunctionItem.callId (speakers items stream)) :
    (stretches NamedPart.callId ((streamEvents stream).filterMap (namedPart items))).Perm
      (items.map fun item => (item.callId, item.texts.map item.part)) := by
  rw [← uninterrupted_namedPart, ← nodup_stretches_iff] at huninterrupted
  have hitems : ((items.map fun item => (item.callId, item.texts.map item.part)).map
      Prod.fst).Nodup := by
    rw [List.map_map]
    exact h.callId
  -- the stretch of an item's id has all its parts
  have htexts : ∀ stretch ∈ stretches NamedPart.callId
      ((streamEvents stream).filterMap (namedPart items)), ∀ item ∈ items,
      stretch.1 = item.callId → stretch = (item.callId, item.texts.map item.part) := by
    intro stretch hstretch item hitem hkey
    rw [← h.filter_callId hitem, ← hkey]
    exact Prod.ext rfl (stretch_eq_filter huninterrupted hstretch)
  rw [List.perm_ext_iff_of_nodup (huninterrupted.of_map _) (hitems.of_map _)]
  intro stretch
  constructor
  · intro hstretch
    obtain ⟨part, hpart, hkey⟩ :=
      List.mem_map.mp (mem_keys_stretches.mp (List.mem_map_of_mem hstretch))
    obtain ⟨e, -, he⟩ := List.mem_filterMap.mp hpart
    obtain ⟨item, hspeaker, rfl⟩ := Option.map_eq_some_iff.mp he
    have hitem := List.mem_of_find?_eq_some hspeaker
    exact List.mem_map.mpr ⟨item, hitem, (htexts stretch hstretch item hitem hkey.symm).symm⟩
  · intro hstretch
    obtain ⟨item, hitem, rfl⟩ := List.mem_map.mp hstretch
    obtain ⟨text, htext⟩ := List.exists_mem_of_ne_nil _ item.texts_ne_nil
    have hpart : item.part text ∈ (streamEvents stream).filterMap (namedPart items) := by
      apply List.mem_of_mem_filter (p := (·.callId = item.callId))
      rw [h.filter_callId hitem]
      exact List.mem_map_of_mem htext
    have hkey : item.callId ∈ (stretches NamedPart.callId
        ((streamEvents stream).filterMap (namedPart items))).map Prod.fst :=
      mem_keys_stretches.mpr (List.mem_map.mpr ⟨_, hpart, rfl⟩)
    obtain ⟨stretch, hstretch, hkey⟩ := List.mem_map.mp hkey
    rwa [← htexts stretch hstretch item hitem hkey]

end Carries

/-! ### What comes out -/

namespace FunctionItem

theorem textOf_map_part (item : FunctionItem) (texts : List String) :
    NamedPart.textOf (texts.map item.part) = String.join texts := by
  rw [NamedPart.textOf, List.foldl_map]
  rfl

/-- The texts of a call make up its complete arguments if and only if they are passed on. -/
theorem join_texts_eq_done {item : FunctionItem} :
    String.join item.texts = item.done ↔ item.PassedOn := by
  have hinitial : String.join (if item.initial.isEmpty then [] else [item.initial]) =
      item.initial := by
    split_ifs with hempty
    · exact (String.isEmpty_iff.mp hempty).symm
    · simp
  rw [texts, String.join_append, String.join_append, hinitial, PassedOn]
  cases hdeltas : item.deltas with
  | nil =>
    rw [List.isEmpty_nil, if_pos rfl, if_pos rfl]
    constructor
    · intro heq
      have hlength := congrArg String.length heq
      simpa using hlength
    · intro heq
      simp [heq]
  | cons delta deltas => simp [streamed, hdeltas, eq_comm]

theorem callOf_eq_full {item : FunctionItem} :
    NamedPart.callOf (item.callId, item.texts.map item.part) = item.full ↔ item.PassedOn := by
  have hname : ((item.texts.map item.part).getLast?.map NamedPart.name).getD "" = item.name := by
    rw [List.getLast?_map, Option.map_map, List.getLast?_eq_some_getLast item.texts_ne_nil]
    rfl
  rw [← join_texts_eq_done, NamedPart.callOf, full, hname, textOf_map_part]
  simp [ToolCallArguments.ofStreamed_inj]

end FunctionItem

/-- The calls come out if and only if no text of another call is passed on between two texts of
one, and a call with initial arguments or parts has all its arguments there. -/
theorem reassembles_iff (h : Carries items stream) :
    Reassembles items stream ↔
      Uninterrupted FunctionItem.callId (speakers items stream) ∧
        ∀ item ∈ items, item.PassedOn := by
  have hnamed : ∀ p ∈ (streamEvents stream).filterMap (namedPart items),
      p.name.isEmpty = false := by
    intro p hp
    obtain ⟨e, -, he⟩ := List.mem_filterMap.mp hp
    obtain ⟨item, hspeaker, rfl⟩ := Option.map_eq_some_iff.mp he
    exact h.name item (List.mem_of_find?_eq_some hspeaker)
  unfold Reassembles
  rw [h.streamParts_eq, tryFromParts_named hnamed]
  -- each id once among the calls means one stretch for each id
  have huninterrupted : ((stretches NamedPart.callId
      ((streamEvents stream).filterMap (namedPart items))).map NamedPart.callOf).Perm
        (items.map FunctionItem.full) →
      Uninterrupted FunctionItem.callId (speakers items stream) := by
    intro hperm
    have hids := hperm.map ToolCallFull.callId
    rw [List.map_map, List.map_map] at hids
    have hnodup : (items.map (ToolCallFull.callId ∘ FunctionItem.full)).Nodup :=
      (List.map_map (f := FunctionItem.callId) (g := some)).symm ▸
        h.callId.map fun _ _ => Option.some.inj
    rw [← uninterrupted_namedPart, ← nodup_stretches_iff]
    exact .of_map some (List.map_map.symm ▸ hids.nodup_iff.mpr hnodup)
  constructor
  · intro hperm
    refine ⟨huninterrupted hperm, ?_⟩
    intro item hitem
    have hcalls := (h.stretches_perm (huninterrupted hperm)).map NamedPart.callOf
    have hmem := (hcalls.symm.trans hperm).mem_iff.mpr (List.mem_map_of_mem hitem)
    rw [List.map_map] at hmem
    obtain ⟨other, hother, heq⟩ := List.mem_map.mp hmem
    have hid : other.callId = item.callId := Option.some.inj (congrArg ToolCallFull.callId heq)
    obtain rfl := List.inj_on_of_nodup_map h.callId hother hitem hid
    exact FunctionItem.callOf_eq_full.mp heq
  · rintro ⟨huninterrupted, hpassed⟩
    have hperm := (h.stretches_perm huninterrupted).map NamedPart.callOf
    rw [List.map_map] at hperm
    have hfull : items.map (NamedPart.callOf ∘ fun item =>
        (item.callId, item.texts.map item.part)) = items.map FunctionItem.full :=
      List.map_congr_left fun item hitem => FunctionItem.callOf_eq_full.mpr (hpassed item hitem)
    rwa [hfull] at hperm

/-! ### Two calls -/

namespace TwoCalls

/-- A call whose arguments come in two parts. -/
def shell : FunctionItem :=
  { outputIndex := 0
    callId := "call_1"
    name := "shell"
    initial := ""
    deltas := ["\x7b\"command\":", "\"ls\"\x7d"]
    doneName := none
    done := "\x7b\"command\":\"ls\"\x7d" }

/-- A call whose arguments come at the end. -/
def read : FunctionItem :=
  { outputIndex := 1
    callId := "call_2"
    name := "read"
    initial := ""
    deltas := []
    doneName := none
    done := "\x7b\x7d" }

/-- A call whose arguments come with the announcement. -/
def write : FunctionItem := { read with name := "write", initial := "\x7b\x7d" }

def streamOf (events : List ResponseStreamEvent) : List (Except StreamError StreamItem) :=
  events.map fun e => .ok (.event e)

/-- Both calls are announced first; then the one follows the other. -/
def oneByOne : List (Except StreamError StreamItem) :=
  streamOf ([.outputTextDelta "Two calls.", shell.added, read.added] ++
    shell.events.tail ++ read.events.tail ++ [.other])

/-- One call is closed between the parts of the other. -/
def interleaved : List (Except StreamError StreamItem) :=
  streamOf ([shell.added, read.added, shell.delta "\x7b\"command\":", read.closed,
    shell.delta "\"ls\"\x7d", shell.closed])

theorem carries_oneByOne : Carries [shell, read] oneByOne := by
  constructor <;> decide +kernel

/-- Calls that follow one another come out. -/
theorem reassembles_oneByOne : Reassembles [shell, read] oneByOne :=
  (reassembles_iff carries_oneByOne).mpr (by decide +kernel)

/-- A call is cut in two by another one, and arguments that come with the announcement are
doubled. -/
theorem interleaved_not_reassembles :
    (Carries [shell, read] interleaved ∧ ¬ Reassembles [shell, read] interleaved) ∧
      Carries [write] (streamOf write.events) ∧
        ¬ Reassembles [write] (streamOf write.events) := by
  refine ⟨⟨?_, by decide +kernel⟩, ?_, by decide +kernel⟩
  · constructor <;> decide +kernel
  · constructor <;> decide +kernel

end TwoCalls

end HeliosLite
