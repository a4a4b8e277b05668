import HeliosLite.Domain.ChatMessage
import HeliosLite.Theory.Occurrence
import HeliosLite.Theory.Run

/-!
# The whole of a streamed reply

The messages of a stream are collected. If the model writes its tool calls into the text, the first
call that can be read ends the reply.

## Main definitions

* `Reasoning.fromParts` — the reasoning details of some parts, put together by their type
* `FullState.step` — the loop over the messages
* `intoFull` — the whole reply of a stream
-/

namespace HeliosLite

open Serde Theory

/-! ### Reasoning in parts -/

/-- The order in which a hash map gives its entries. -/
class HashOrder where
  order : List (Option String × List ReasoningFull) → List (Option String × List ReasoningFull)
  perm : ∀ entries, (order entries).Perm entries

theorem HashOrder.perm_self (entries : List (Option String × List ReasoningFull)) :
    entries.Perm entries := .refl entries

namespace Reasoning

/-- A part added to the entry of its type. -/
def addPart (entries : List (Option String × List ReasoningFull)) (part : ReasoningFull) :
    List (Option String × List ReasoningFull) :=
  if entries.any fun e => e.1 = part.typeOf then
    entries.map fun e => if e.1 = part.typeOf then (e.1, e.2 ++ [part]) else e
  else
    entries ++ [(part.typeOf, [part])]

/-- The first value that is not empty. -/
def firstNonempty (values : List (Option String)) : Option String :=
  values.findSome? fun v => v.filter (!·.isEmpty)

/-- The detail of the parts of one type, if they have a text, a signature or some data. -/
def mergeParts (typeOf : Option String) (parts : List ReasoningFull) : Option ReasoningFull :=
  let text := String.join (parts.filterMap ReasoningFull.text)
  let signature := firstNonempty (parts.map ReasoningFull.signature)
  let data := firstNonempty (parts.map ReasoningFull.data)
  if text.isEmpty && signature.isNone && data.isNone then none
  else
    some
      { text := if text.isEmpty then none else some text
        signature := signature
        data := data
        id := firstNonempty (parts.map ReasoningFull.id)
        format := firstNonempty (parts.map ReasoningFull.format)
        index := parts.findSome? ReasoningFull.index
        typeOf := typeOf }

/-- The details of some parts. All parts of a type become one detail. -/
def fromParts [HashOrder] (parts : List ReasoningFull) : List ReasoningFull :=
  (HashOrder.order (parts.foldl addPart [])).filterMap fun e => mergeParts e.1 e.2

/-- Parts without a type are put together. -/
theorem foldl_addPart_untyped {parts before : List ReasoningFull}
    (h : ∀ p ∈ parts, p.typeOf = none) :
    parts.foldl addPart [(none, before)] = [(none, before ++ parts)] := by
  induction parts generalizing before with
  | nil => rw [List.append_nil, List.foldl_nil]
  | cons part parts ih =>
    obtain ⟨hpart, hparts⟩ := List.forall_mem_cons.mp h
    have hadd : addPart [(none, before)] part = [(none, before ++ [part])] := by
      simp [addPart, hpart]
    rw [List.foldl_cons, hadd, ih hparts, List.append_assoc, List.singleton_append]

/-- Parts without a type become one detail. -/
theorem fromParts_untyped [HashOrder] {parts : List ReasoningFull}
    (h : ∀ p ∈ parts, p.typeOf = none) : fromParts parts = (mergeParts none parts).toList := by
  cases parts with
  | nil =>
    rw [fromParts, List.foldl_nil, List.perm_nil.mp (HashOrder.perm [])]
    rfl
  | cons part parts =>
    obtain ⟨hpart, hparts⟩ := List.forall_mem_cons.mp h
    have hadd : addPart [] part = [(none, [part])] := by
      rw [addPart, hpart]
      rfl
    rw [fromParts, List.foldl_cons, hadd, foldl_addPart_untyped hparts,
      List.perm_singleton.mp (HashOrder.perm _)]
    rw [List.singleton_append, List.filterMap_cons]
    cases mergeParts none (part :: parts) <;> rfl

end Reasoning

/-! ### The loop -/

section Usage

variable [FloatText]

/-- Complete usage replaces the usage before it, a cost alone is added, and partial usage counts
up. -/
def Usage.next (usage current : Usage) : Usage :=
  if 0 < current.promptTokens.count ∧ 0 < current.completionTokens.count then
    { current with cost := current.cost.or usage.cost }
  else if current.promptTokens.count = 0 ∧ current.completionTokens.count = 0 ∧
      current.cost.isSome then
    { usage with cost := addCost usage.cost current.cost }
  else
    usage.merge current

end Usage

/-- The variables of the loop. -/
structure FullState where
  messages : List ChatCompletionMessage
  usage : Usage
  content : String
  xmlToolCalls : Option ToolCallFull
  toolInterrupted : Bool

namespace FullState

def start : FullState :=
  { messages := []
    usage := .default
    content := ""
    xmlToolCalls := none
    toolInterrupted := false }

variable (tryFromXml : String → Option ToolCallFull) (shouldInterruptForXml : Bool)

/-- Text is searched for a call whenever some is added. -/
def addContent (s : FullState) (text : String) : FullState :=
  let s := { s with content := s.content ++ text }
  if shouldInterruptForXml then
    match tryFromXml s.content with
    | some call =>
      { s with
        xmlToolCalls := some call
        toolInterrupted := true }
    | none => s
  else
    s

/-- After a call only the usage is read. -/
def step [FloatText] (s : FullState) (message : ChatCompletionMessage) : FullState :=
  let s := { s with usage := (message.usage.map s.usage.next).getD s.usage }
  if s.toolInterrupted then s
  else
    let s := { s with messages := s.messages ++ [message] }
    match message.content with
    | some content => s.addContent tryFromXml shouldInterruptForXml content.asStr
    | none => s

end FullState

/-- If the text is not searched, every message is kept. -/
theorem FullState.foldl_step_false [FloatText] {tryFromXml : String → Option ToolCallFull}
    (messages : List ChatCompletionMessage) {s : FullState} (hs : s.toolInterrupted = false) :
    (messages.foldl (FullState.step tryFromXml false) s).messages = s.messages ++ messages := by
  induction messages generalizing s with
  | nil => rw [List.append_nil, List.foldl_nil]
  | cons message messages ih =>
    have hstep : (s.step tryFromXml false message).messages = s.messages ++ [message] ∧
        (s.step tryFromXml false message).toolInterrupted = false := by
      cases hcontent : message.content <;> simp [step, hs, hcontent, addContent]
    rw [List.foldl_cons, ih hstep.2, hstep.1, List.append_assoc, List.singleton_append]

/-- A reply that no call in its text ended has all messages. -/
theorem FullState.messages_of_not_interrupted [FloatText]
    {tryFromXml : String → Option ToolCallFull} {shouldInterruptForXml : Bool}
    (messages : List ChatCompletionMessage) {s : FullState}
    (h : (messages.foldl (FullState.step tryFromXml shouldInterruptForXml) s).toolInterrupted =
      false) :
    s.toolInterrupted = false ∧
      (messages.foldl (FullState.step tryFromXml shouldInterruptForXml) s).messages =
        s.messages ++ messages := by
  induction messages generalizing s with
  | nil => exact ⟨h, by rw [List.append_nil, List.foldl_nil]⟩
  | cons message messages ih =>
    rw [List.foldl_cons] at h ⊢
    obtain ⟨hstep, hmessages⟩ := ih h
    -- a call that was read stays read
    have hs : s.toolInterrupted = false := by
      by_contra hs
      rw [Bool.not_eq_false] at hs
      have hstays : (s.step tryFromXml shouldInterruptForXml message).toolInterrupted = true := by
        rw [step]
        dsimp only
        rw [if_pos hs, hs]
      rw [hstep] at hstays
      cases hstays
    refine ⟨hs, ?_⟩
    have hkept : (s.step tryFromXml shouldInterruptForXml message).messages =
        s.messages ++ [message] := by
      rw [step]
      dsimp only
      rw [if_neg (by simp [hs])]
      cases message.content with
      | none => rfl
      | some content =>
        dsimp only [addContent]
        split_ifs
        · cases tryFromXml (s.content ++ content.asStr) <;> rfl
        · rfl
    rw [hmessages, hkept, List.append_assoc, List.singleton_append]

/-! ### The reply -/

/-- The tag that ends a call in the text. -/
def closingTag : List Char := "</forge_tool_call>".toList

def feedback : String :=
  "\n<forge_feedback>" ++
    "Response interrupted by tool result. Use only one tool at the end of the message" ++
    "</forge_feedback>"

/-- An interrupted reply ends with its call: what follows the call is replaced by a note. -/
def interruptedContent (content : String) : String :=
  if closingTag <:+ (trim content).toList then content
  else
    match splitLast closingTag content.toList with
    | some (before, _) => String.ofList (before ++ closingTag) ++ feedback
    | none => content

inductive FullError (ε : Type) where
  | stream (error : ε)
  | refusal
  | emptyCompletion
  deriving DecidableEq, Repr

namespace FullState

variable [HashOrder]

/-- The last value that some message has. -/
def lastOf {α : Type} (s : FullState) (f : ChatCompletionMessage → Option α) : Option α :=
  s.messages.reverse.findSome? f

/-- All details of the messages, those that came whole before those that came in parts. -/
def details (messages : List ChatCompletionMessage) : List ReasoningFull :=
  let details := messages.flatMap fun m => m.reasoningDetails.getD []
  (details.filterMap Reasoning.asFull).flatten ++
    Reasoning.fromParts (details.filterMap Reasoning.asPartial).flatten

/-- The whole reply, from the variables after the loop. -/
def full (s : FullState) : ChatCompletionMessageFull :=
  let content := String.join ((s.messages.filterMap ChatCompletionMessage.content).map
    Content.asStr)
  let reasoning := String.join ((s.messages.filterMap ChatCompletionMessage.reasoning).map
    Content.asStr)
  let calls := s.messages.flatMap ChatCompletionMessage.toolCalls
  let reasoningDetails := details s.messages
  { content := if s.toolInterrupted then interruptedContent content else content
    thoughtSignature := s.lastOf ChatCompletionMessage.thoughtSignature
    reasoning := if reasoning.isEmpty then none else some reasoning
    toolCalls := calls.filterMap ToolCall.asFull ++
      ToolCallFull.tryFromParts (calls.filterMap ToolCall.asPartial) ++ s.xmlToolCalls.toList
    reasoningDetails := if reasoningDetails.isEmpty then none else some reasoningDetails
    usage := s.usage
    finishReason := s.lastOf ChatCompletionMessage.finishReason
    phase := s.lastOf ChatCompletionMessage.phase }

/-- A refusal, or a reply that says nothing, is an error. -/
def finish {ε : Type} (s : FullState) : Except (FullError ε) ChatCompletionMessageFull :=
  let full := s.full
  if full.finishReason = some .refusal ∧ full.toolCalls = [] then .error .refusal
  else if (trim full.content).isEmpty ∧ full.toolCalls = [] ∧ full.finishReason = none ∧
      full.thoughtSignature = none then .error .emptyCompletion
  else .ok full

theorem eq_of_finish {ε : Type} {s : FullState} {full : ChatCompletionMessageFull}
    (h : s.finish = (.ok full : Except (FullError ε) ChatCompletionMessageFull)) :
    full = s.full := by
  unfold finish at h
  dsimp only at h
  split at h
  · cases h
  split at h
  · cases h
  · exact (Except.ok.inj h).symm

end FullState

/-- The whole reply of a stream; an error of the stream ends it. -/
def intoFull [FloatText] [HashOrder] {ε : Type} (tryFromXml : String → Option ToolCallFull)
    (shouldInterruptForXml : Bool) (stream : List (Except ε ChatCompletionMessage)) :
    Except (FullError ε) ChatCompletionMessageFull :=
  match stream.mapM id with
  | .error e => .error (.stream e)
  | .ok messages =>
    (messages.foldl (FullState.step tryFromXml shouldInterruptForXml) .start).finish

/-- A stream without an error is read to its end. -/
theorem mapM_ok {ε α : Type} (l : List α) :
    (l.map fun a => (.ok a : Except ε α)).mapM id = .ok l := by
  induction l with
  | nil => rfl
  | cons a l ih =>
    rw [List.map_cons, List.mapM_cons, ih]
    rfl

end HeliosLite
