import Mathlib.Data.List.Induction
import HeliosLite.Domain.ToolCallPart
import HeliosLite.Orchestration.ToolCalls

/-!
# Messages of the model

A provider streams messages, each with a part of the reply or the whole of it. Not all models give
their tool calls an id; in the parts of such calls only a name can tell where a call starts.

## Main definitions

* `Content`, `Reasoning` — text and reasoning details, streamed or complete
* `ChatCompletionMessage` — a message with what it carries
* `ToolCallPart.validName` — the name of a part, if it has one that is not empty
* `namedCalls` — the calls that the names start
* `partsOf` — the parts in the messages of a stream

## Main results

* `tryFromParts_unidentified` — all parts without an id become one call at most
* `tryFromParts_eq_namedCalls_iff` — when this is what the names say
-/

namespace HeliosLite

open Serde

/-- Operations on floats. -/
class FloatText where
  parseF64 : String → Option F64
  add : F64 → F64 → F64

namespace TokenCount

def count : TokenCount → UInt64
  | actual n | approx n => n

/-- The larger of two counts, which is actual if both are. -/
def max : TokenCount → TokenCount → TokenCount
  | actual a, actual b => actual (Max.max a b)
  | actual a, approx b | approx a, actual b | approx a, approx b => approx (Max.max a b)

end TokenCount

namespace Usage

def default : Usage :=
  { promptTokens := .actual 0
    completionTokens := .actual 0
    totalTokens := .actual 0
    cachedTokens := .actual 0
    cost := none }

variable [FloatText]

def addCost : Option F64 → Option F64 → Option F64
  | some a, some b => some (FloatText.add a b)
  | some a, none => some a
  | none, b => b

/-- Usage that counts up over a stream. -/
def merge (u other : Usage) : Usage :=
  { promptTokens := u.promptTokens.max other.promptTokens
    completionTokens := u.completionTokens.max other.completionTokens
    totalTokens := u.totalTokens.max other.totalTokens
    cachedTokens := u.cachedTokens.max other.cachedTokens
    cost := addCost u.cost other.cost }

end Usage

inductive Content where
  | part (text : String)
  | full (text : String)
  deriving DecidableEq, Repr

def Content.asStr : Content → String
  | part text | full text => text

/-- Reasoning details, streamed or complete. -/
inductive Reasoning where
  | part (details : List ReasoningFull)
  | full (details : List ReasoningFull)
  deriving DecidableEq

def Reasoning.asFull : Reasoning → Option (List ReasoningFull)
  | part _ => none
  | full details => some details

def Reasoning.asPartial : Reasoning → Option (List ReasoningFull)
  | part details => some details
  | full _ => none

def ReasoningFull.default : ReasoningFull :=
  { text := none
    signature := none
    data := none
    id := none
    format := none
    index := none
    typeOf := none }

/-- A message of the model, or a part of one. -/
structure ChatCompletionMessage where
  content : Option Content
  thoughtSignature : Option String
  reasoning : Option Content
  reasoningDetails : Option (List Reasoning)
  toolCalls : List ToolCall
  finishReason : Option FinishReason
  usage : Option Usage
  phase : Option MessagePhase
  deriving DecidableEq

namespace ChatCompletionMessage

def default : ChatCompletionMessage :=
  { content := none
    thoughtSignature := none
    reasoning := none
    reasoningDetails := none
    toolCalls := []
    finishReason := none
    usage := none
    phase := none }

def assistant (content : Content) : ChatCompletionMessage :=
  { default with content := some content }

variable (m : ChatCompletionMessage)

def addReasoningDetail (detail : Reasoning) : ChatCompletionMessage :=
  { m with reasoningDetails := some (m.reasoningDetails.getD [] ++ [detail]) }

def addToolCall (call : ToolCall) : ChatCompletionMessage :=
  { m with toolCalls := m.toolCalls ++ [call] }

end ChatCompletionMessage

end HeliosLite

/-! ### Tool calls in parts without ids -/

namespace HeliosLite

namespace ToolCallPart

/-- A name that is not empty. -/
def validName (part : ToolCallPart) : Option String := part.name.filter (!·.isEmpty)

/-- The text of some parts. -/
def textOf (parts : List ToolCallPart) : String := String.join (parts.map argumentsPart)

end ToolCallPart

open ToolCallPart

/-- Each part with a name starts a call, to which the parts without a name behind it belong. -/
def namedCalls : List ToolCallPart → List (String × ToolCallArguments)
  | [] => []
  | part :: parts =>
    match part.validName with
    | some name =>
      (name, .ofStreamed (textOf (part :: parts.takeWhile (·.validName.isNone)))) ::
        namedCalls parts
    | none => namedCalls parts

/-- The parts of calls in the messages of a stream. -/
def partsOf (messages : List ChatCompletionMessage) : List ToolCallPart :=
  (messages.flatMap ChatCompletionMessage.toolCalls).filterMap ToolCall.asPartial

/-- The name and the arguments of a call. -/
def ToolCallFull.said (call : ToolCallFull) : String × ToolCallArguments :=
  (call.name, call.arguments)

theorem ToolCallPart.textOf_append (parts more : List ToolCallPart) :
    textOf (parts ++ more) = textOf parts ++ textOf more := by
  rw [textOf, List.map_append, String.join_append]
  rfl

theorem ToolCallPart.textOf_eq_empty_iff {parts : List ToolCallPart} :
    textOf parts = "" ↔ ∀ p ∈ parts, p.argumentsPart = "" := by
  induction parts with
  | nil => simp [textOf]
  | cons part parts ih =>
    have htext : textOf (part :: parts) = part.argumentsPart ++ textOf parts := by simp [textOf]
    rw [htext, String.append_eq_empty_iff, ih, List.forall_mem_cons]

/-! ### One call at most -/

/-- After parts without an id there is one current call: it has the last name and all texts. -/
structure PartsState.Unidentified (parts : List ToolCallPart) (s : PartsState) : Prop where
  toolCalls : s.toolCalls = []
  callId : s.currentCallId = none
  validCallId : s.lastValidCallId = none
  name : s.currentToolName = (parts.filterMap validName).getLast?
  text : s.currentArguments = textOf parts

theorem PartsState.Unidentified.step {parts : List ToolCallPart} {s : PartsState}
    (h : s.Unidentified parts) {part : ToolCallPart} (hid : part.callId = none) :
    (s.step part).Unidentified (parts ++ [part]) := by
  obtain ⟨htools, hcall, hvalid, hname, htext⟩ := h
  have hargs : s.currentArguments ++ part.argumentsPart = textOf (parts ++ [part]) := by
    simp [htext, textOf]
  cases hpart : part.validName with
  | none =>
    have hnone : part.name.filter (!·.isEmpty) = none := hpart
    constructor <;> simp [PartsState.step, hid, hnone, hpart, htools, hcall, hvalid, hname, hargs]
  | some name =>
    have hsome : part.name.filter (!·.isEmpty) = some name := hpart
    constructor <;>
      simp [PartsState.step, PartsState.named, hid, hsome, hpart, htools, hcall, hvalid, hargs]

theorem PartsState.unidentified_foldl {parts : List ToolCallPart}
    (hid : ∀ part ∈ parts, part.callId = none) :
    (parts.foldl PartsState.step .start).Unidentified parts := by
  induction parts using List.reverseRecOn with
  | nil => exact ⟨rfl, rfl, rfl, rfl, rfl⟩
  | append_singleton parts part ih =>
    rw [List.foldl_append]
    exact (ih fun p hp => hid p (List.mem_append_left _ hp)).step (hid part (by simp))

/-- Parts without an id become one call, with the last name and all texts, if some has a
name. -/
theorem tryFromParts_unidentified {parts : List ToolCallPart}
    (hid : ∀ part ∈ parts, part.callId = none) :
    (ToolCallFull.tryFromParts parts).map ToolCallFull.said =
      ((parts.filterMap validName).getLast?.map fun name =>
        (name, ToolCallArguments.ofStreamed (textOf parts))).toList := by
  obtain ⟨htools, -, -, hname, htext⟩ := PartsState.unidentified_foldl hid
  unfold ToolCallFull.tryFromParts
  simp only [htools, PartsState.current, hname, htext, List.nil_append]
  cases (parts.filterMap validName).getLast? <;> rfl

/-! ### The calls that the names start -/

theorem length_namedCalls (parts : List ToolCallPart) :
    (namedCalls parts).length = (parts.filterMap validName).length := by
  induction parts with
  | nil => rfl
  | cons part parts ih => cases hname : part.validName <;> simp [namedCalls, hname, ih]

theorem namedCalls_append {before : List ToolCallPart}
    (hbefore : ∀ p ∈ before, p.validName = none) (parts : List ToolCallPart) :
    namedCalls (before ++ parts) = namedCalls parts := by
  induction before with
  | nil => rfl
  | cons part before ih =>
    obtain ⟨hpart, hbefore⟩ := List.forall_mem_cons.mp hbefore
    rw [List.cons_append, namedCalls, hpart]
    exact ih hbefore

theorem namedCalls_eq_nil_iff {parts : List ToolCallPart} :
    namedCalls parts = [] ↔ ∀ p ∈ parts, p.validName = none := by
  rw [← List.length_eq_zero_iff, length_namedCalls, List.length_eq_zero_iff,
    List.filterMap_eq_nil_iff]

/-- One name only: its call has its text and everything after it. -/
theorem namedCalls_single {before after : List ToolCallPart} {part : ToolCallPart} {name : String}
    (hbefore : ∀ p ∈ before, p.validName = none) (hpart : part.validName = some name)
    (hafter : ∀ p ∈ after, p.validName = none) :
    namedCalls (before ++ part :: after) = [(name, .ofStreamed (textOf (part :: after)))] := by
  have hall : after.takeWhile (·.validName.isNone) = after :=
    List.takeWhile_eq_self_iff.mpr fun p hp => by simp [hafter p hp]
  rw [namedCalls_append hbefore, namedCalls, hpart]
  simp only [hall, namedCalls_eq_nil_iff.mpr hafter]

/-- At the first name the parts are split; if it is the only one, no later part has a name. -/
theorem exists_split_of_length_eq_one {parts : List ToolCallPart}
    (h : (parts.filterMap validName).length = 1) :
    ∃ before part after name, parts = before ++ part :: after ∧
      (∀ p ∈ before, p.validName = none) ∧ part.validName = some name ∧
      ∀ p ∈ after, p.validName = none := by
  obtain ⟨name, hname⟩ := List.length_eq_one_iff.mp h
  obtain ⟨before, part, after, rfl, hbefore, hpart, hafter⟩ :=
    List.filterMap_eq_cons_iff.mp hname
  exact ⟨before, part, after, name, rfl, hbefore, hpart, List.filterMap_eq_nil_iff.mp hafter⟩

/-- The calls that are put together from parts without ids are the calls that the names start
exactly when no part has a name, or a single one has and no text stands before it. -/
theorem tryFromParts_eq_namedCalls_iff (messages : List ChatCompletionMessage)
    (hid : ∀ part ∈ partsOf messages, part.callId = none) :
    (ToolCallFull.tryFromParts (partsOf messages)).map ToolCallFull.said =
        namedCalls (partsOf messages) ↔
      (∀ part ∈ partsOf messages, part.validName = none) ∨
        ∃ before part after, partsOf messages = before ++ part :: after ∧
          (∀ p ∈ before, p.validName = none ∧ p.argumentsPart = "") ∧
          part.validName ≠ none ∧ ∀ p ∈ after, p.validName = none := by
  generalize partsOf messages = parts at hid ⊢
  rw [tryFromParts_unidentified hid]
  constructor
  · intro heq
    have hlength := congrArg List.length heq
    rw [length_namedCalls] at hlength
    cases hlast : (parts.filterMap validName).getLast? with
    | none =>
      left
      exact List.filterMap_eq_nil_iff.mp (List.getLast?_eq_none_iff.mp hlast)
    | some last =>
      right
      rw [hlast] at heq hlength
      obtain ⟨before, part, after, name, rfl, hbefore, hpart, hafter⟩ :=
        exists_split_of_length_eq_one hlength.symm
      refine ⟨before, part, after, rfl, fun p hp => ⟨hbefore p hp, ?_⟩, by simp [hpart], hafter⟩
      -- The single call has the texts of all parts, so those before the name are empty.
      rw [namedCalls_single hbefore hpart hafter] at heq
      have hargs := (Prod.mk.inj (List.head_eq_of_cons_eq heq)).2
      have htext : textOf (before ++ part :: after) = textOf (part :: after) :=
        ToolCallArguments.ofStreamed_inj.mp hargs
      rw [textOf_append, String.append_eq_right_iff] at htext
      exact textOf_eq_empty_iff.mp htext p hp
  · rintro (hnone | ⟨before, part, after, rfl, hbefore, hpart, hafter⟩)
    · rw [List.filterMap_eq_nil_iff.mpr hnone, namedCalls_eq_nil_iff.mpr hnone]
      rfl
    · obtain ⟨name, hname⟩ := Option.ne_none_iff_exists'.mp hpart
      have hnames : ∀ p ∈ before, p.validName = none := fun p hp => (hbefore p hp).1
      have htext : textOf (before ++ part :: after) = textOf (part :: after) := by
        rw [textOf_append, textOf_eq_empty_iff.mpr fun p hp => (hbefore p hp).2,
          String.empty_append]
      rw [namedCalls_single hnames hname hafter, htext, List.filterMap_append,
        List.filterMap_eq_nil_iff.mpr hnames, List.filterMap_cons_some hname,
        List.filterMap_eq_nil_iff.mpr hafter]
      rfl

section Nameless

/-- A message with parts of calls that have no id. -/
def unidentified (parts : List (Option String × String)) : ChatCompletionMessage :=
  { ChatCompletionMessage.default with
    toolCalls := parts.map fun p => .part ⟨none, p.1, p.2, none⟩ }

/-- A call whose arguments arrive in two parts. -/
theorem tryFromParts_unidentified_single :
    (ToolCallFull.tryFromParts (partsOf [unidentified [(some "read", "\x7b"), (none, "\x7d")]])).map
      ToolCallFull.said =
    namedCalls (partsOf [unidentified [(some "read", "\x7b"), (none, "\x7d")]]) :=
  (tryFromParts_eq_namedCalls_iff [unidentified [(some "read", "\x7b"), (none, "\x7d")]]
    (by decide +kernel)).mpr (.inr ⟨[], _, _, rfl, by decide, by decide, by decide +kernel⟩)

/-- Two calls become one, which has the name of the second and the arguments of both. -/
theorem tryFromParts_unidentified_pair :
    let messages :=
      [unidentified [(some "read", "\x7b\x7d")], unidentified [(some "ls", "\x7b\x7d")]]
    (∀ part ∈ partsOf messages, part.callId = none) ∧
      (ToolCallFull.tryFromParts (partsOf messages)).map ToolCallFull.said ≠
        namedCalls (partsOf messages) := by
  refine ⟨by decide +kernel, fun heq => ?_⟩
  have hlength := congrArg List.length heq
  revert hlength
  decide +kernel

end Nameless

end HeliosLite
