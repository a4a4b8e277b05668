import HeliosLite.Orchestration.ToolCalls
import HeliosLite.Providers.Anthropic
import HeliosLite.Storage.Reference
import HeliosLite.Theory.Traverse

/-!
# Thinking blocks from one turn to the next

A reply has thinking blocks, each with a text and a signature over it. The next request should send
them again, one by one.

## Main definitions

* `ReasoningBlock` — a thinking block or a redacted one, as it is streamed
* `Streams` — the reasoning events of a stream are those of some blocks
* `OneBlock` — there is one thinking block, and nothing else that is taken for a text

## Main results

* `fromParts_untyped` — parts without a type become one detail
* `thinking_iff` — the blocks are sent as they came if and only if there is one
-/

namespace HeliosLite.Anthropic

open Serde Theory

/-! ### Blocks -/

/-- A thinking block in its pieces, or a redacted one. -/
inductive ReasoningBlock where
  | thinking (initial startSignature : Option String) (deltas : List String) (signature : String)
  | redacted (data : Option String)
  deriving DecidableEq, Repr

namespace ReasoningBlock

/-- The events of the block with an index. -/
def events (index : UInt32) : ReasoningBlock → List EventData
  | thinking initial startSignature deltas signature =>
    .contentBlockStart index (.thinking initial startSignature) ::
      deltas.map (fun t => .contentBlockDelta index (.thinkingDelta (some t))) ++
        [.contentBlockDelta index (.signatureDelta (some signature))]
  | redacted data => [.contentBlockStart index (.redactedThinking data)]

/-- The signature and the text of a thinking block. -/
def signed : ReasoningBlock → Option (String × String)
  | thinking initial _ deltas signature => some (signature, initial.getD "" ++ String.join deltas)
  | redacted _ => none

/-- The data of a redacted block. -/
def redactedData : ReasoningBlock → String
  | thinking .. => ""
  | redacted data => data.getD ""

/-- The signature comes at the end, and not with the start. -/
def SignedAtEnd : ReasoningBlock → Prop
  | thinking _ startSignature _ _ => startSignature.getD "" = ""
  | redacted _ => True

instance (b : ReasoningBlock) : Decidable b.SignedAtEnd :=
  match b with
  | thinking .. => inferInstanceAs (Decidable (_ = _))
  | redacted _ => .isTrue trivial

end ReasoningBlock

/-- The blocks of the content that belong to the reasoning. -/
def ContentBlock.isReasoning : ContentBlock → Bool
  | .thinking .. | .thinkingDelta _ | .signatureDelta _ | .redactedThinking _ => true
  | _ => false

def EventData.isReasoning : EventData → Bool
  | .contentBlockStart _ block | .contentBlockDelta _ block => block.isReasoning
  | _ => false

/-- The reasoning events of the stream are those of the blocks, one block after the other. Other
events may come anywhere. -/
structure Streams (blocks : List (UInt32 × ReasoningBlock)) (stream : List EventData) : Prop where
  events : stream.filter EventData.isReasoning = blocks.flatMap fun b => b.2.events b.1
  signedAtEnd : ∀ b ∈ blocks, b.2.SignedAtEnd

/-- One thinking block with a text and a signature, and no redacted block with some data. -/
def OneBlock (blocks : List (UInt32 × ReasoningBlock)) : Prop :=
  (∃ signed : String × String,
    blocks.filterMap (fun b => b.2.signed) = [signed] ∧ signed.1 ≠ "" ∧ signed.2 ≠ "") ∧
    ∀ b ∈ blocks, b.2.redactedData = ""

/-- The signature and the text of a content that is thinking. -/
def Content.asThinking : Content → Option (Option String × Option String)
  | .thinking signature words => some (signature, words)
  | _ => none

/-- The thinking in a message of a request. -/
def Message.thinking (m : Message) : List (Option String × Option String) :=
  m.content.filterMap Content.asThinking

/-! ### The parts of an event -/

/-- The parts of details in a block of content. -/
def ContentBlock.parts : ContentBlock → List ReasoningFull
  | .thinking (some content) signature =>
    [{ ReasoningFull.default with
      text := some content, signature := signature }]
  | .redactedThinking (some content) | .thinkingDelta (some content) =>
    [{ ReasoningFull.default with text := some content }]
  | .signatureDelta signature => [{ ReasoningFull.default with signature := signature }]
  | _ => []

def EventData.parts : EventData → List ReasoningFull
  | .contentBlockStart _ block | .contentBlockDelta _ block => block.parts
  | _ => []

theorem EventData.parts_of_not_isReasoning {e : EventData} (h : e.isReasoning = false) :
    e.parts = [] := by
  cases e with
  | contentBlockStart index block => cases block <;> first | rfl | cases h
  | contentBlockDelta index block => cases block <;> first | rfl | cases h
  | _ => rfl

/-- The details of the message of an event are its parts, each by itself. -/
theorem reasoningDetails_toMessage [JsonText] [FloatText] {e : EventData}
    {m : ChatCompletionMessage} (h : e.toMessage = .ok m) :
    m.reasoningDetails.getD [] = e.parts.map fun p => .part [p] := by
  have hblock (block : ContentBlock) :
      block.toMessage.reasoningDetails.getD [] = block.parts.map fun p => .part [p] := by
    cases block with
    | thinking content signature => cases content <;> rfl
    | thinkingDelta content => cases content <;> rfl
    | redactedThinking content => cases content <;> rfl
    | _ => rfl
  cases e with
  | contentBlockStart index block =>
    cases h
    exact hblock block
  | contentBlockDelta index block =>
    cases h
    exact hblock block
  | error message => cases h
  | ping cost =>
    cases cost <;> cases h <;> rfl
  | _ => cases h; rfl

/-- The parts of a stream are those of its blocks. -/
theorem Streams.flatMap_parts {blocks : List (UInt32 × ReasoningBlock)} {stream : List EventData}
    (h : Streams blocks stream) :
    stream.flatMap EventData.parts =
      blocks.flatMap fun b => (b.2.events b.1).flatMap EventData.parts := by
  rw [← List.flatMap_assoc, ← h.events]
  clear h
  induction stream with
  | nil => rfl
  | cons e stream ih =>
    rw [List.flatMap_cons, ih]
    cases hreasoning : e.isReasoning with
    | true => rw [List.filter_cons_of_pos hreasoning, List.flatMap_cons]
    | false =>
      rw [List.filter_cons_of_neg (by simp [hreasoning]),
        EventData.parts_of_not_isReasoning hreasoning, List.nil_append]

/-! ### The detail of some blocks -/

namespace ReasoningBlock

def parts (b : ReasoningBlock) (index : UInt32) : List ReasoningFull :=
  (b.events index).flatMap EventData.parts

/-- What the block adds to the text. -/
def addedText (b : ReasoningBlock) : String :=
  match b.signed with
  | some signed => signed.2
  | none => b.redactedData

variable {index : UInt32}

theorem parts_thinking (initial startSignature : Option String) (deltas : List String)
    (signature : String) :
    (thinking initial startSignature deltas signature).parts index =
      (initial.map fun t => ({ ReasoningFull.default with
        text := some t, signature := startSignature } : ReasoningFull)).toList ++
        deltas.map (fun t => { ReasoningFull.default with text := some t }) ++
          [{ ReasoningFull.default with signature := some signature }] := by
  have hdeltas : (deltas.map fun t => EventData.contentBlockDelta index
      (.thinkingDelta (some t))).flatMap EventData.parts =
        deltas.map (fun t => { ReasoningFull.default with text := some t }) := by
    induction deltas with
    | nil => rfl
    | cons t deltas ih =>
      rw [List.map_cons, List.flatMap_cons, ih]
      rfl
  rw [parts, events, List.flatMap_append, List.flatMap_cons, hdeltas]
  cases initial <;> rfl

theorem join_texts (b : ReasoningBlock) :
    String.join ((b.parts index).filterMap ReasoningFull.text) = b.addedText := by
  cases b with
  | thinking initial startSignature deltas signature =>
    have hdeltas : (deltas.map fun t => ({ ReasoningFull.default with
        text := some t } : ReasoningFull)).filterMap ReasoningFull.text = deltas := by
      rw [List.filterMap_map]
      exact List.filterMap_some
    rw [parts_thinking, List.filterMap_append, List.filterMap_append, hdeltas]
    cases initial <;> simp [addedText, signed, ReasoningFull.default]
  | redacted data => cases data <;> simp [parts, events, EventData.parts, ContentBlock.parts,
      addedText, signed, redactedData]

theorem firstNonempty_append (as bs : List (Option String)) :
    Reasoning.firstNonempty (as ++ bs) =
      (Reasoning.firstNonempty as).or (Reasoning.firstNonempty bs) := by
  rw [Reasoning.firstNonempty, List.findSome?_append]
  rfl

theorem firstNonempty_of_forall {values : List (Option String)}
    (h : ∀ v ∈ values, v.getD "" = "") : Reasoning.firstNonempty values = none := by
  rw [Reasoning.firstNonempty, List.findSome?_eq_none_iff]
  intro v hv
  cases v with
  | none => rfl
  | some s =>
    have hempty : s = "" := h (some s) hv
    rw [hempty]
    rfl

theorem firstNonempty_ne {values : List (Option String)} {s : String}
    (h : Reasoning.firstNonempty values = some s) : s ≠ "" := by
  obtain ⟨v, -, hv⟩ := List.exists_of_findSome?_eq_some h
  have hs := (Option.filter_eq_some_iff.mp hv).2
  simpa using hs

/-- The signature of a block is the one at its end. -/
theorem firstNonempty_signatures {b : ReasoningBlock} (hb : b.SignedAtEnd) :
    Reasoning.firstNonempty ((b.parts index).map ReasoningFull.signature) =
      Reasoning.firstNonempty [b.signed.map Prod.fst] := by
  cases b with
  | thinking initial startSignature deltas signature =>
    rw [parts_thinking, List.map_append, firstNonempty_append, firstNonempty_of_forall]
    · rfl
    · intro v hv
      rw [List.map_append, List.mem_append] at hv
      rcases hv with hv | hv
      · cases initial with
        | none => cases hv
        | some t =>
          obtain rfl := List.mem_singleton.mp hv
          exact hb
      · rw [List.map_map] at hv
        obtain ⟨t, -, rfl⟩ := List.mem_map.mp hv
        rfl
  | redacted data => cases data <;> rfl

theorem typeOf_of_mem_parts {b : ReasoningBlock} {p : ReasoningFull} (h : p ∈ b.parts index) :
    p.typeOf = none := by
  cases b with
  | thinking initial startSignature deltas signature =>
    rw [parts_thinking] at h
    simp only [List.mem_append, Option.mem_toList, Option.map_eq_some_iff, List.mem_map,
      List.mem_singleton] at h
    rcases h with (⟨_, -, rfl⟩ | ⟨_, -, rfl⟩) | rfl <;> rfl
  | redacted data =>
    cases data with
    | none => cases h
    | some data =>
      obtain rfl := List.mem_singleton.mp h
      rfl

end ReasoningBlock

/-- The parts of some blocks. -/
def partsOf (blocks : List (UInt32 × ReasoningBlock)) : List ReasoningFull :=
  blocks.flatMap fun b => b.2.parts b.1

/-- The texts of the blocks, with the data of the redacted ones among them. -/
def textOf (blocks : List (UInt32 × ReasoningBlock)) : String :=
  String.join (blocks.map fun b => b.2.addedText)

def signedOf (blocks : List (UInt32 × ReasoningBlock)) : List (String × String) :=
  blocks.filterMap fun b => b.2.signed

/-- The first signature that is not empty. -/
def signatureOf (blocks : List (UInt32 × ReasoningBlock)) : Option String :=
  Reasoning.firstNonempty ((signedOf blocks).map fun s => some s.1)

section Blocks

variable {blocks : List (UInt32 × ReasoningBlock)}

theorem signedOf_cons (b : UInt32 × ReasoningBlock) (blocks : List (UInt32 × ReasoningBlock)) :
    signedOf (b :: blocks) = b.2.signed.toList ++ signedOf blocks := by
  rw [signedOf, signedOf, List.filterMap_cons]
  cases b.2.signed <;> rfl

theorem textOf_cons (b : UInt32 × ReasoningBlock) (blocks : List (UInt32 × ReasoningBlock)) :
    textOf (b :: blocks) = b.2.addedText ++ textOf blocks := by
  rw [textOf, List.map_cons, String.join_cons]
  rfl

theorem join_texts_partsOf :
    String.join ((partsOf blocks).filterMap ReasoningFull.text) = textOf blocks := by
  induction blocks with
  | nil => rfl
  | cons b blocks ih =>
    rw [partsOf, List.flatMap_cons, List.filterMap_append, String.join_append,
      ReasoningBlock.join_texts, textOf, List.map_cons, String.join_cons]
    exact congrArg (b.2.addedText ++ ·) ih

theorem signatures_partsOf (h : ∀ b ∈ blocks, b.2.SignedAtEnd) :
    Reasoning.firstNonempty ((partsOf blocks).map ReasoningFull.signature) =
      signatureOf blocks := by
  induction blocks with
  | nil => rfl
  | cons b blocks ih =>
    obtain ⟨hb, hblocks⟩ := List.forall_mem_cons.mp h
    have hrest := ih hblocks
    rw [partsOf] at hrest
    rw [partsOf, List.flatMap_cons, List.map_append, ReasoningBlock.firstNonempty_append,
      ReasoningBlock.firstNonempty_signatures hb, hrest, signatureOf, signatureOf, signedOf_cons,
      List.map_append, ReasoningBlock.firstNonempty_append]
    cases b.2.signed <;> rfl

/-- Every signature stands for a text, and what else is in the text is redacted. -/
theorem length_textOf :
    (textOf blocks).length = ((signedOf blocks).map fun s => s.2.length).sum +
      (blocks.map fun b => b.2.redactedData.length).sum := by
  induction blocks with
  | nil => rfl
  | cons b blocks ih =>
    have hadded : b.2.addedText.length =
        ((b.2.signed.toList.map fun s => s.2.length).sum) + b.2.redactedData.length := by
      cases b.2 <;> simp [ReasoningBlock.addedText, ReasoningBlock.signed,
        ReasoningBlock.redactedData]
    rw [textOf_cons, String.length_append, ih, hadded, signedOf_cons, List.map_append,
      List.sum_append, List.map_cons, List.sum_cons]
    omega

theorem textOf_of_redacted_empty (h : ∀ b ∈ blocks, b.2.redactedData = "") :
    textOf blocks = String.join ((signedOf blocks).map Prod.snd) := by
  induction blocks with
  | nil => rfl
  | cons b blocks ih =>
    obtain ⟨hb, hblocks⟩ := List.forall_mem_cons.mp h
    have hadded : b.2.addedText = String.join (b.2.signed.toList.map Prod.snd) := by
      rw [ReasoningBlock.addedText]
      cases b.2.signed with
      | none => exact hb
      | some signed => simp
    rw [textOf_cons, ih hblocks, hadded, signedOf_cons, List.map_append, String.join_append]

/-- What is sent of some blocks: their text with their first signature. -/
def sent (blocks : List (UInt32 × ReasoningBlock)) : List (String × String) :=
  if textOf blocks = "" then []
  else ((signatureOf blocks).map fun signature => (signature, textOf blocks)).toList

/-- One detail says what the blocks say only if there is one block. -/
theorem sent_eq_signedOf_iff (hne : signedOf blocks ≠ []) :
    sent blocks = signedOf blocks ↔ OneBlock blocks := by
  constructor
  · intro heq
    by_cases htext : textOf blocks = ""
    · rw [sent, if_pos htext] at heq
      exact absurd heq.symm hne
    cases hsignature : signatureOf blocks with
    | none =>
      rw [sent, if_neg htext, hsignature] at heq
      exact absurd heq.symm hne
    | some signature =>
      have hsigned : signedOf blocks = [(signature, textOf blocks)] := by
        rw [← heq, sent, if_neg htext, hsignature]
        rfl
      refine ⟨⟨(signature, textOf blocks), hsigned,
        ReasoningBlock.firstNonempty_ne hsignature, htext⟩, ?_⟩
      -- the text of the block is as long as all the text there is
      have hlength := @length_textOf blocks
      rw [hsigned, List.map_singleton, List.sum_singleton, Nat.left_eq_add] at hlength
      intro b hb
      have hzero := List.sum_eq_zero_iff_forall_eq_nat.mp hlength _ (List.mem_map_of_mem hb)
      exact String.length_eq_zero_iff.mp hzero
  · rintro ⟨⟨signed, hsigned, hsignature, htext⟩, hredacted⟩
    have hsigned : signedOf blocks = [signed] := hsigned
    have hjoin : textOf blocks = signed.2 := by
      rw [textOf_of_redacted_empty hredacted, hsigned]
      simp
    have hfirst : signatureOf blocks = some signed.1 := by
      rw [signatureOf, hsigned]
      simp [Reasoning.firstNonempty, Option.filter, hsignature]
    rw [sent, hjoin, if_neg htext, hfirst, hsigned]
    rfl

end Blocks

/-! ### The message that is sent -/

section Sent

variable {blocks : List (UInt32 × ReasoningBlock)}

/-- The details of the parts say what is sent. -/
theorem thinkingOf_mergeParts (h : ∀ b ∈ blocks, b.2.SignedAtEnd) :
    (Reasoning.mergeParts none (partsOf blocks)).bind (fun detail => thinkingOf [detail]) =
      (sent blocks).head?.map fun s => .thinking (some s.1) (some s.2) := by
  rw [Reasoning.mergeParts, join_texts_partsOf, signatures_partsOf h, sent]
  by_cases htext : textOf blocks = ""
  · rw [htext, if_pos rfl]
    split <;> simp [thinkingOf]
  · have hisEmpty : (textOf blocks).isEmpty = false := by simpa using htext
    rw [if_neg htext, hisEmpty]
    cases signatureOf blocks <;> simp [thinkingOf]

/-- A text of a request has the thinking of its details, and nothing else that is thinking. -/
theorem Message.thinking_of_tryFrom [Libraries] {message : TextMessage} {m : Message}
    (h : Message.tryFrom (.text message) = .ok m) :
    m.thinking = (message.reasoningDetails.bind thinkingOf).toList.filterMap
      Content.asThinking := by
  have hcall (call : ToolCallFull) (content : Content) (hcontent : Content.ofToolCall call =
      .ok content) : content.asThinking = none := by
    unfold Content.ofToolCall at hcontent
    split at hcontent
    · rw [← Except.ok.inj hcontent]
      rfl
    · cases hcontent
  unfold tryFrom at h
  dsimp only at h
  cases hcalls : (message.toolCalls.getD []).mapM Content.ofToolCall with
  | error e =>
    rw [hcalls] at h
    cases h
  | ok calls =>
    have hnone : calls.filterMap Content.asThinking = [] := by
      rw [List.filterMap_eq_nil_iff]
      intro content hcontent
      obtain ⟨call, -, hmem⟩ := exists_of_mem_mapM hcalls hcontent
      exact hcall call content hmem
    have htext : (if message.content.isEmpty then [] else
        [Content.text message.content]).filterMap Content.asThinking = [] := by
      split <;> rfl
    have hcontent : m.content = (message.reasoningDetails.bind thinkingOf).toList ++
        (if message.content.isEmpty then [] else [Content.text message.content]) ++ calls := by
      rw [hcalls] at h
      cases hrole : message.role <;> rw [hrole] at h <;> cases h <;> rfl
    rw [thinking, hcontent, List.filterMap_append, List.filterMap_append, htext, hnone,
      List.append_nil, List.append_nil]

variable [Libraries] [FloatText]

/-- The details of the messages of a stream are its parts. -/
theorem flatMap_reasoningDetails {stream : List EventData} {messages : List ChatCompletionMessage}
    (h : List.Forall₂ (fun e m => e.toMessage = .ok m) stream messages) :
    (messages.flatMap fun m => m.reasoningDetails.getD []) =
      (stream.flatMap EventData.parts).map fun p => .part [p] := by
  induction h with
  | nil => rfl
  | cons hm _ ih =>
    rw [List.flatMap_cons, List.flatMap_cons, List.map_append, ih, reasoningDetails_toMessage hm]

variable [HashOrder]

/-- The details of the reply are the one detail of all its blocks. -/
theorem reasoningDetails_intoFull {stream : List EventData} (h : Streams blocks stream)
    {tryFromXml : String → Option ToolCallFull} {full : ChatCompletionMessageFull}
    (hfull : intoFull tryFromXml false (stream.map EventData.toMessage) = .ok full) :
    full.reasoningDetails = (Reasoning.mergeParts none (partsOf blocks)).map fun d => [d] := by
  unfold intoFull at hfull
  split at hfull
  · cases hfull
  rename_i messages hmessages
  have heach := List.forall₂_map_left_iff.mp (forall₂_of_mapM hmessages)
  have hkept : (messages.foldl (FullState.step tryFromXml false) .start).messages = messages :=
    FullState.foldl_step_false messages rfl
  have hparts : (messages.flatMap fun m => m.reasoningDetails.getD []) =
      (partsOf blocks).map fun p => .part [p] := by
    rw [flatMap_reasoningDetails heach, h.flatMap_parts]
    rfl
  have huntyped : ∀ p ∈ partsOf blocks, p.typeOf = none := by
    intro p hp
    obtain ⟨b, -, hp⟩ := List.mem_flatMap.mp hp
    exact ReasoningBlock.typeOf_of_mem_parts hp
  have hdetails : FullState.details messages =
      (Reasoning.mergeParts none (partsOf blocks)).toList := by
    rw [FullState.details, hparts, ← Reasoning.fromParts_untyped huntyped]
    clear huntyped hparts
    generalize partsOf blocks = parts
    have hfull : (parts.map fun p => Reasoning.part [p]).filterMap Reasoning.asFull = [] := by
      rw [List.filterMap_map]
      exact List.filterMap_eq_nil_iff.mpr fun p _ => rfl
    have hpartial : ((parts.map fun p => Reasoning.part [p]).filterMap
        Reasoning.asPartial).flatten = parts := by
      induction parts with
      | nil => rfl
      | cons p parts ih =>
        rw [List.map_cons, List.filterMap_cons]
        exact congrArg (p :: ·) (ih (List.filterMap_eq_nil_iff.mpr fun a ha => by
          obtain ⟨p, -, rfl⟩ := List.mem_map.mp ha
          rfl))
    rw [hfull, hpartial]
    rfl
  rw [FullState.eq_of_finish hfull, FullState.full, hkept, hdetails]
  cases Reasoning.mergeParts none (partsOf blocks) <;> rfl

/-- The reply in the next request has the thinking of its blocks if and only if there is one
block: the blocks of a reply become one detail, and one detail is sent. -/
theorem thinking_iff {stream : List EventData} (h : Streams blocks stream)
    (hne : blocks.filterMap (fun b => b.2.signed) ≠ [])
    {tryFromXml : String → Option ToolCallFull} {full : ChatCompletionMessageFull}
    (hfull : intoFull tryFromXml false (stream.map EventData.toMessage) = .ok full)
    {context : Context} {records : List Record} {messages : List Message}
    (hmessages : requestMessages (context.appendMessage full records) = .ok messages) :
    messages[(context.messages.filter fun e => !e.message.hasRole .system).length]?.map
        Message.thinking =
      some ((blocks.filterMap fun b => b.2.signed).map fun s => (some s.1, some s.2)) ↔
      OneBlock blocks := by
  rw [← sent_eq_signedOf_iff hne]
  have hdetails := reasoningDetails_intoFull h hfull
  -- the reply stands between the messages before it and the results of its calls
  obtain ⟨reply, rest, hreply, hsplit⟩ : ∃ (reply : TextMessage) (rest : List MessageEntry),
      reply.reasoningDetails.bind thinkingOf = (full.reasoningDetails).bind thinkingOf ∧
      (context.appendMessage full records).messages.filter
        (fun e => !e.message.hasRole .system) =
          context.messages.filter (fun e => !e.message.hasRole .system) ++
            { message := .text reply, usage := some full.usage } :: rest := by
    unfold Context.appendMessage
    dsimp only
    rw [List.filter_append, List.filter_cons_of_pos rfl]
    refine ⟨_, _, ?_, rfl⟩
    cases full.reasoning <;> cases full.reasoningDetails <;> rfl
  rw [requestMessages, hsplit] at hmessages
  obtain ⟨m, hplace, hm⟩ := getElem?_of_mapM hmessages
  rw [hplace, Option.map_some, Option.some_inj, Message.thinking_of_tryFrom hm, hreply, hdetails]
  have hsent : ((((Reasoning.mergeParts none (partsOf blocks)).map fun d => [d]).bind
      thinkingOf).toList.filterMap Content.asThinking) =
        (sent blocks).map fun s => (some s.1, some s.2) := by
    rw [Option.bind_map, Function.comp_def, thinkingOf_mergeParts h.signedAtEnd, sent]
    split
    · rfl
    · cases signatureOf blocks <;> rfl
  have hinjective : Function.Injective fun s : String × String => (some s.1, some s.2) := by
    rintro ⟨a, b⟩ ⟨c, d⟩ heq
    simpa using heq
  rw [hsent]
  exact (List.map_injective_iff.mpr hinjective).eq_iff

end Sent

namespace Thoughts

/-- No cost is read or added here. -/
abbrev floats : FloatText where
  parseF64 _ := none
  add a _ := a

abbrev hashOrder : HashOrder where
  order entries := entries
  perm := HashOrder.perm_self

def thought (text signature : String) : ReasoningBlock :=
  .thinking (some "") (some "") [text, "."] signature

/-- The events of the blocks, and a text after them. -/
def stream (blocks : List (UInt32 × ReasoningBlock)) : List EventData :=
  (blocks.flatMap fun b => b.2.events b.1) ++
    [.contentBlockStart 9 (.text ""), .contentBlockDelta 9 (.textDelta "Done"),
      .contentBlockStop 9, .messageDelta .endTurn ⟨none, none, none, none⟩, .messageStop]

def one : List (UInt32 × ReasoningBlock) := [(0, thought "First" "sig-1")]

def two : List (UInt32 × ReasoningBlock) :=
  [(0, thought "First" "sig-1"), (1, thought "Second" "sig-2")]

def reply (blocks : List (UInt32 × ReasoningBlock)) :
    Except (FullError String) ChatCompletionMessageFull :=
  letI := HeliosLite.reference
  letI := floats
  letI := hashOrder
  intoFull (fun _ => none) false ((stream blocks).map EventData.toMessage)

/-- The messages of the request after the reply. -/
def request (full : ChatCompletionMessageFull) : Except String (List Message) :=
  letI := HeliosLite.reference
  requestMessages (Context.default.appendMessage full [])

def requestAfter (blocks : List (UInt32 × ReasoningBlock)) : Option (List Message) :=
  (reply blocks).toOption.bind fun full => (request full).toOption

theorem exists_of_requestAfter {blocks : List (UInt32 × ReasoningBlock)}
    (h : (requestAfter blocks).isSome) :
    ∃ full messages, reply blocks = .ok full ∧ request full = .ok messages ∧
      requestAfter blocks = some messages := by
  obtain ⟨messages, hmessages⟩ := Option.isSome_iff_exists.mp h
  obtain ⟨full, hfull, hrequest⟩ := Option.bind_eq_some_iff.mp hmessages
  refine ⟨full, messages, ?_, ?_, hmessages⟩
  · cases hreply : reply blocks with
    | error e =>
      rw [hreply] at hfull
      cases hfull
    | ok full' =>
      rw [hreply] at hfull
      exact congrArg Except.ok (Option.some.inj hfull)
  · cases hsent : request full with
    | error e =>
      rw [hsent] at hrequest
      cases hrequest
    | ok messages' =>
      rw [hsent] at hrequest
      exact congrArg Except.ok (Option.some.inj hrequest)

/-- One block is sent as it came. -/
theorem one_thinking :
    ∃ full messages, reply one = .ok full ∧ request full = .ok messages ∧
      messages[0]?.map Message.thinking = some [(some "sig-1", some "First.")] := by
  let := HeliosLite.reference
  let := floats
  let := hashOrder
  have hstream : Streams one (stream one) := ⟨by decide, by decide⟩
  have hok : (requestAfter one).isSome := by decide +kernel
  obtain ⟨full, messages, hfull, hmessages, -⟩ := exists_of_requestAfter hok
  refine ⟨full, messages, hfull, hmessages, ?_⟩
  exact (thinking_iff hstream (by decide) hfull hmessages).mpr
    ⟨⟨("sig-1", "First."), by decide, by decide, by decide⟩, by decide⟩

/-- Two blocks become one, with the text of both and the signature of the first. -/
theorem two_thinking :
    Streams two (stream two) ∧
      ∃ full messages, reply two = .ok full ∧ request full = .ok messages ∧
        messages[0]?.map Message.thinking ≠
          some [(some "sig-1", some "First."), (some "sig-2", some "Second.")] := by
  refine ⟨⟨by decide, by decide⟩, ?_⟩
  have hok : (requestAfter two).isSome := by decide +kernel
  obtain ⟨full, messages, hfull, hmessages, hafter⟩ := exists_of_requestAfter hok
  refine ⟨full, messages, hfull, hmessages, ?_⟩
  have hsent : (requestAfter two).bind (fun messages => messages[0]?.map Message.thinking) =
      some [(some "sig-1", some "First.Second.")] := by decide +kernel
  rw [hafter, Option.bind_some] at hsent
  rw [hsent]
  decide

end Thoughts

end HeliosLite.Anthropic
