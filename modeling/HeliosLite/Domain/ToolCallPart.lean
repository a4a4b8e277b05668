import Mathlib.Data.List.Chain
import HeliosLite.Domain.Message
import HeliosLite.Theory.Stretches

/-!
# Tool calls in parts

A provider that streams sends a tool call in parts. They are put together again in the order in
which they arrive: a new call starts where the id changes. Of the parts into which a call is cut
the first has its id and its name, and the others have the rest of its arguments, with the id or
without.

## Main definitions

* `ToolCallPart` — a part of a call
* `ToolCallFull.tryFromParts` — the calls of some parts
* `FragmentedCall` — a call with the pieces of its arguments
* `FragmentedCall.parts`, `FragmentedCall.full` — its parts, and the call itself

## Main results

* `tryFromParts_named` — parts that all have a name are cut where the id changes
* `tryFromParts_fragments` — the calls come out if neighbours have different ids and all have names
-/

namespace HeliosLite

open Serde Theory

/-- A part of a tool call. -/
structure ToolCallPart where
  callId : Option String
  name : Option String
  argumentsPart : String
  thoughtSignature : Option String
  deriving DecidableEq, Repr

inductive ToolCall where
  | full (call : ToolCallFull)
  | part (part : ToolCallPart)
  deriving DecidableEq

namespace ToolCall

def asFull : ToolCall → Option ToolCallFull
  | full call => some call
  | part _ => none

def asPartial : ToolCall → Option ToolCallPart
  | full _ => none
  | part p => some p

end ToolCall

namespace ToolCallArguments

/-- An object without fields. -/
def default : ToolCallArguments := .parsed (Json.obj []).value

/-- The arguments that a streamed text stands for: the text, or no arguments if there is none. -/
def ofStreamed (text : String) : ToolCallArguments :=
  if text.isEmpty then default else .unparsed text

/-- Different texts stand for different arguments. -/
theorem ofStreamed_inj {text other : String} :
    ofStreamed text = ofStreamed other ↔ text = other := by
  constructor
  · intro heq
    unfold ofStreamed default at heq
    split_ifs at heq with htext hother hother
    · rw [String.isEmpty_iff.mp htext, String.isEmpty_iff.mp hother]
    · exact ToolCallArguments.unparsed.inj heq
  · exact fun heq => heq ▸ rfl

end ToolCallArguments

/-- The variables of the loop that puts the parts together. -/
structure PartsState where
  toolCalls : List ToolCallFull
  currentCallId : Option String
  currentToolName : Option String
  currentArguments : String
  currentThoughtSignature : Option String
  lastValidToolName : Option String
  lastValidCallId : Option String

namespace PartsState

def start : PartsState :=
  { toolCalls := []
    currentCallId := none
    currentToolName := none
    currentArguments := ""
    currentThoughtSignature := none
    lastValidToolName := none
    lastValidCallId := none }

variable (s : PartsState)

/-- The current call; one without a name is none. -/
def current : List ToolCallFull :=
  (s.currentToolName.map fun name : String =>
    ({ name := name
       callId := s.currentCallId
       arguments := .ofStreamed s.currentArguments
       thoughtSignature := s.currentThoughtSignature } : ToolCallFull)).toList

/-- A part with an id continues the current call or starts another one. -/
def enter (newCallId : String) : PartsState :=
  let s :=
    if s.currentCallId.any (· ≠ newCallId) then
      { s with
        toolCalls := s.toolCalls ++ s.current
        currentToolName := none
        currentArguments := ""
        currentThoughtSignature := none }
    else s
  { s with currentCallId := some newCallId }

/-- A name that is not empty is that of the current call, and the last valid one. -/
def named (name : String) : PartsState :=
  { s with
    currentToolName := some name
    lastValidToolName := some name
    lastValidCallId := s.currentCallId.or s.lastValidCallId }

/-- One part. Text without a name, after a call that had one, continues this call whatever its
id. -/
def step (part : ToolCallPart) : PartsState :=
  let hasValidName := part.name.any (!·.isEmpty)
  let isGlmFragment := !hasValidName && !part.argumentsPart.isEmpty &&
    s.lastValidToolName.isSome && s.lastValidCallId.isSome
  let s := if isGlmFragment then s else (part.callId.map s.enter).getD s
  let s := ((part.name.filter (!·.isEmpty)).map s.named).getD s
  { s with
    currentThoughtSignature := s.currentThoughtSignature.or part.thoughtSignature
    currentArguments := s.currentArguments ++ part.argumentsPart }

end PartsState

/-- The calls of some parts. -/
def ToolCallFull.tryFromParts (parts : List ToolCallPart) : List ToolCallFull :=
  let s := parts.foldl PartsState.step .start
  s.toolCalls ++ s.current

/-! ### Parts with a name -/

/-- A part with an id and a name. -/
structure NamedPart where
  callId : String
  name : String
  text : String
  deriving DecidableEq, Repr

namespace NamedPart

def toPart (p : NamedPart) : ToolCallPart :=
  { callId := some p.callId
    name := some p.name
    argumentsPart := p.text
    thoughtSignature := none }

/-- The text of some parts. -/
def textOf (parts : List NamedPart) : String := parts.foldl (fun text p => text ++ p.text) ""

/-- The call of the parts with an id; the last part names it. -/
def callOf (stretch : String × List NamedPart) : ToolCallFull :=
  { name := (stretch.2.getLast?.map NamedPart.name).getD ""
    callId := some stretch.1
    arguments := .ofStreamed (textOf stretch.2)
    thoughtSignature := none }

theorem textOf_concat (parts : List NamedPart) (p : NamedPart) :
    textOf (parts ++ [p]) = textOf parts ++ p.text := by
  rw [textOf, List.foldl_append]
  rfl

/-- The variables after some parts of the current call. -/
def stateOf (toolCalls : List ToolCallFull) (stretch : String × List NamedPart) : PartsState :=
  let call := callOf stretch
  { toolCalls := toolCalls
    currentCallId := some stretch.1
    currentToolName := some call.name
    currentArguments := textOf stretch.2
    currentThoughtSignature := none
    lastValidToolName := some call.name
    lastValidCallId := some stretch.1 }

variable {toolCalls : List ToolCallFull} {p : NamedPart} {acc : List NamedPart} {id : String}

theorem step_start (hname : p.name.isEmpty = false) :
    PartsState.start.step p.toPart = stateOf [] (p.callId, [p]) := by
  simp [PartsState.step, PartsState.start, PartsState.enter, PartsState.named, toPart, hname,
    stateOf, callOf, textOf, Option.filter]

/-- A part with the id of the current call. -/
theorem step_same (hname : p.name.isEmpty = false) (hid : p.callId = id) :
    (stateOf toolCalls (id, acc)).step p.toPart = stateOf toolCalls (id, acc ++ [p]) := by
  simp [PartsState.step, PartsState.enter, PartsState.named, toPart, hname, stateOf, callOf,
    textOf_concat, Option.filter, hid]

/-- A part with another id. -/
theorem step_other (hname : p.name.isEmpty = false) (hid : p.callId ≠ id) :
    (stateOf toolCalls (id, acc)).step p.toPart =
      stateOf (toolCalls ++ [callOf (id, acc)]) (p.callId, [p]) := by
  simp [PartsState.step, PartsState.enter, PartsState.named, PartsState.current, toPart, hname,
    stateOf, callOf, textOf, Option.filter, Ne.symm hid]

end NamedPart

open NamedPart in
/-- Parts that all have a name are cut where the id changes. -/
theorem tryFromParts_named {parts : List NamedPart} (hnamed : ∀ p ∈ parts, p.name.isEmpty = false) :
    ToolCallFull.tryFromParts (parts.map toPart) =
      (stretches NamedPart.callId parts).map callOf := by
  have hloop : ∀ (rest : List NamedPart) (toolCalls : List ToolCallFull) (id : String)
      (acc : List NamedPart), (∀ p ∈ rest, p.name.isEmpty = false) →
      let s := (rest.map toPart).foldl PartsState.step (stateOf toolCalls (id, acc))
      s.toolCalls ++ s.current =
        toolCalls ++ (stretchesFrom NamedPart.callId id acc rest).map callOf := by
    intro rest
    induction rest with
    | nil => exact fun toolCalls id acc _ => rfl
    | cons p rest ih =>
      intro toolCalls id acc hrest
      obtain ⟨hp, hrest⟩ := List.forall_mem_cons.mp hrest
      unfold stretchesFrom
      rw [List.map_cons, List.foldl_cons]
      split_ifs with hid
      · rw [step_same hp hid]
        exact ih toolCalls id (acc ++ [p]) hrest
      · rw [step_other hp hid]
        have hnext := ih (toolCalls ++ [callOf (id, acc)]) p.callId [p] hrest
        rwa [List.append_assoc] at hnext
  cases parts with
  | nil => rfl
  | cons p rest =>
    obtain ⟨hp, hrest⟩ := List.forall_mem_cons.mp hnamed
    rw [ToolCallFull.tryFromParts, List.map_cons, List.foldl_cons, step_start hp]
    exact hloop rest [] p.callId [p] hrest

end HeliosLite

/-! ### Calls cut into parts -/

namespace HeliosLite

/-- A piece of the arguments, sent with the id of the call or without. -/
structure Fragment where
  withId : Bool
  text : String
  deriving DecidableEq, Repr

/-- A call whose arguments are cut into pieces. -/
structure FragmentedCall where
  callId : String
  name : String
  thoughtSignature : Option String
  first : String
  later : List Fragment
  deriving DecidableEq, Repr

namespace FragmentedCall

variable (call : FragmentedCall)

def firstPart : ToolCallPart :=
  { callId := some call.callId
    name := some call.name
    argumentsPart := call.first
    thoughtSignature := call.thoughtSignature }

def laterPart (f : Fragment) : ToolCallPart :=
  { callId := if f.withId then some call.callId else none
    name := none
    argumentsPart := f.text
    thoughtSignature := none }

/-- The parts of the call, in their order. -/
def parts : List ToolCallPart := call.firstPart :: call.later.map call.laterPart

/-- The full text of the arguments. -/
def argumentsText : String := call.first ++ String.join (call.later.map Fragment.text)

def full : ToolCallFull :=
  { name := call.name
    callId := some call.callId
    arguments := .ofStreamed call.argumentsText
    thoughtSignature := call.thoughtSignature }

/-- The variables of the loop after the first part and some more text. -/
def stateOf (toolCalls : List ToolCallFull) (text : String) : PartsState :=
  { toolCalls := toolCalls
    currentCallId := some call.callId
    currentToolName := some call.name
    currentArguments := text
    currentThoughtSignature := call.thoughtSignature
    lastValidToolName := some call.name
    lastValidCallId := some call.callId }

variable {call} {toolCalls : List ToolCallFull} {text : String}

theorem step_firstPart_start (hname : call.name.isEmpty = false) :
    PartsState.start.step call.firstPart = call.stateOf [] call.first := by
  simp [PartsState.step, PartsState.start, PartsState.enter, PartsState.named, firstPart, hname,
    stateOf, Option.filter]

/-- A part without a name continues the call, whether its text is empty or not. -/
theorem step_laterPart (f : Fragment) :
    (call.stateOf toolCalls text).step (call.laterPart f) =
      call.stateOf toolCalls (text ++ f.text) := by
  obtain ⟨withId, piece⟩ := f
  by_cases hempty : piece.isEmpty <;> cases withId <;>
    simp [PartsState.step, PartsState.enter, laterPart, stateOf, hempty]

theorem foldl_laterParts (later : List Fragment) :
    (later.map call.laterPart).foldl PartsState.step (call.stateOf toolCalls text) =
      call.stateOf toolCalls (text ++ String.join (later.map Fragment.text)) := by
  induction later generalizing text with
  | nil => simp
  | cons f later ih =>
    rw [List.map_cons, List.foldl_cons, step_laterPart, ih, List.map_cons, String.join_cons,
      String.append_assoc]

/-- The first part of a call with another id ends the call before it. -/
theorem step_firstPart {next : FragmentedCall} (hname : next.name.isEmpty = false)
    (hid : call.callId ≠ next.callId) :
    (call.stateOf toolCalls call.argumentsText).step next.firstPart =
      next.stateOf (toolCalls ++ [call.full]) next.first := by
  simp [PartsState.step, PartsState.enter, PartsState.named, PartsState.current, firstPart, hname,
    stateOf, full, Option.filter, hid]

end FragmentedCall

open FragmentedCall in
/-- The calls come out in their order, each with its full arguments, if no two neighbours have the
same id and every call has a name. -/
theorem tryFromParts_fragments {calls : List FragmentedCall}
    (hids : calls.IsChain fun a b => a.callId ≠ b.callId)
    (hnames : ∀ call ∈ calls, call.name.isEmpty = false) :
    ToolCallFull.tryFromParts (calls.flatMap parts) = calls.map full := by
  have hloop : ∀ (rest : List FragmentedCall) (call : FragmentedCall)
      (toolCalls : List ToolCallFull),
      (call :: rest).IsChain (fun a b => a.callId ≠ b.callId) →
      (∀ next ∈ rest, next.name.isEmpty = false) →
      let s := (rest.flatMap parts).foldl PartsState.step
        (call.stateOf toolCalls call.argumentsText)
      s.toolCalls ++ s.current = toolCalls ++ call.full :: rest.map full := by
    intro rest
    induction rest with
    | nil => exact fun call toolCalls _ _ => rfl
    | cons next rest ih =>
      intro call toolCalls hchain hrest
      obtain ⟨hid, hchain⟩ := List.isChain_cons_cons.mp hchain
      obtain ⟨hname, hrest⟩ := List.forall_mem_cons.mp hrest
      have hnext := ih next (toolCalls ++ [call.full]) hchain hrest
      rw [List.append_assoc, List.singleton_append] at hnext
      rw [List.flatMap_cons, List.foldl_append, parts, List.foldl_cons, step_firstPart hname hid,
        foldl_laterParts]
      exact hnext
  cases calls with
  | nil => rfl
  | cons call rest =>
    obtain ⟨hname, hrest⟩ := List.forall_mem_cons.mp hnames
    rw [ToolCallFull.tryFromParts, List.flatMap_cons, List.foldl_append, parts, List.foldl_cons,
      step_firstPart_start hname, foldl_laterParts]
    exact hloop rest call [] hids hrest

/-! ### Two calls in parts -/

namespace TwoFragmentedCalls

def read : FragmentedCall :=
  { callId := "call_1"
    name := "read"
    thoughtSignature := none
    first := ""
    later := [⟨true, "\x7b\"path\":"⟩, ⟨false, ""⟩, ⟨false, "\"a.txt\"\x7d"⟩] }

def write : FragmentedCall :=
  { callId := "call_2"
    name := "write"
    thoughtSignature := some "sig"
    first := "\x7b"
    later := [⟨true, "\x7d"⟩] }

/-- A call whose name is empty. -/
def unnamed : FragmentedCall := { write with name := "" }

theorem tryFromParts_two :
    ToolCallFull.tryFromParts ([read, write].flatMap FragmentedCall.parts) =
      [read, write].map FragmentedCall.full :=
  tryFromParts_fragments (by decide) (by decide)

/-- A call with an empty name is taken for a continuation of the call before it. -/
theorem tryFromParts_unnamed :
    [read, unnamed].IsChain (fun a b => a.callId ≠ b.callId) ∧
      ToolCallFull.tryFromParts ([read, unnamed].flatMap FragmentedCall.parts) ≠
        [read, unnamed].map FragmentedCall.full := by
  decide +kernel

end TwoFragmentedCalls

end HeliosLite
