import HeliosLite.Domain.ResultStream
import HeliosLite.Theory.Splice

/-!
# Streamed chat completions

A provider of chat completions streams deltas. Each is converted on its own to a message, and its
reasoning, which may stand in two fields, is trimmed or left out there; only then is the reasoning
of the stream put together.

## Main definitions

* `ResponseMessage.mergedReasoning` — the reasoning of a delta
* `StreamedChoice.toMessage` — a delta as a message
* `ReasoningFragment` — a part of a reasoning text, with the fields that give it

## Main results

* `join_kept_eq_iff` — when the parts that are kept make up the text
* `reasoning_eq_iff` — when the whole reply has the text
-/

namespace HeliosLite

open Serde Theory

/-! ### Deltas -/

structure GoogleMetadata where
  thoughtSignature : Option String

structure ExtraContent where
  google : Option GoogleMetadata

def ExtraContent.thoughtSignature (extra : ExtraContent) : Option String :=
  extra.google.bind GoogleMetadata.thoughtSignature

/-- A part of a tool call in a delta. -/
structure DeltaToolCall where
  id : Option String
  name : Option String
  arguments : String
  extraContent : Option ExtraContent

def DeltaToolCall.toPart (call : DeltaToolCall) : ToolCallPart :=
  { callId := call.id
    name := call.name
    argumentsPart := call.arguments
    thoughtSignature := call.extraContent.bind ExtraContent.thoughtSignature }

structure ResponseMessage where
  content : Option String
  reasoning : Option String
  reasoningContent : Option String
  toolCalls : Option (List DeltaToolCall)
  reasoningDetails : Option (List ReasoningFull)
  reasoningText : Option String
  reasoningOpaque : Option String
  extraContent : Option ExtraContent

/-- `ResponseMessage::reasoning`: if both fields are there they are trimmed, and the longer one is
taken. -/
def mergeReasoning (reasoning reasoningContent : Option String) : Option String :=
  match reasoning, reasoningContent with
  | some a, some b =>
    let a := trim a
    let b := trim b
    if a.isEmpty then (some b).filter fun s => !s.isEmpty
    else if b.isEmpty then (some a).filter fun s => !s.isEmpty
    else some (if a.utf8ByteSize < b.utf8ByteSize then b else a)
  | some a, none => (some a).filter fun s => !(trim s).isEmpty
  | none, some b => (some b).filter fun s => !(trim s).isEmpty
  | none, none => none

def ResponseMessage.mergedReasoning (delta : ResponseMessage) : Option String :=
  mergeReasoning delta.reasoning delta.reasoningContent

/-- The flat fields of GitHub Copilot. -/
def convertGithubCopilotReasoning (reasoningText reasoningOpaque : Option String) :
    Option (List ReasoningFull) :=
  if reasoningText.isSome || reasoningOpaque.isSome then
    some ((reasoningText.map fun text =>
        { ReasoningFull.default with text := some text, typeOf := some "reasoning.text" }).toList ++
      (reasoningOpaque.map fun data =>
        { ReasoningFull.default with
          data := some data, typeOf := some "reasoning.encrypted" }).toList)
  else none

def FinishReason.fromStr : String → Option FinishReason
  | "length" => some .length
  | "content_filter" => some .contentFilter
  | "refusal" => some .refusal
  | "tool_calls" => some .toolCalls
  | "stop" => some .stop
  | "end_turn" => some .stop
  | _ => none

/-- The first choice of a streamed response without an error, with the usage of the response. -/
structure StreamedChoice where
  finishReason : Option String
  delta : ResponseMessage
  usage : Option Usage

def StreamedChoice.toMessage (choice : StreamedChoice) : ChatCompletionMessage :=
  let delta := choice.delta
  { content := some (.part (delta.content.getD ""))
    thoughtSignature := delta.extraContent.bind ExtraContent.thoughtSignature
    reasoning := delta.mergedReasoning.map .part
    reasoningDetails :=
      (delta.reasoningDetails.or
        (convertGithubCopilotReasoning delta.reasoningText delta.reasoningOpaque)).map
          fun details => [.part details]
    toolCalls := (delta.toolCalls.getD []).map fun call => .part call.toPart
    finishReason := choice.finishReason.bind FinishReason.fromStr
    usage := choice.usage
    phase := none }

/-! ### Fragments -/

/-- The fields that give a fragment. -/
inductive ReasoningGiven where
  | reasoning
  | reasoningContent
  | both
  deriving DecidableEq

/-- A part of the reasoning text. -/
structure ReasoningFragment where
  text : String
  given : ReasoningGiven
  deriving DecidableEq

namespace ReasoningFragment

variable (f : ReasoningFragment)

/-- The two fields of the delta. -/
def fields : Option String × Option String :=
  match f.given with
  | .reasoning => (some f.text, none)
  | .reasoningContent => (none, some f.text)
  | .both => (some f.text, some f.text)

/-- What is left of the fragment. -/
def kept : String := (mergeReasoning f.fields.1 f.fields.2).getD ""

/-- In both fields a fragment has no blanks at its ends; in one field it is not of blanks alone. -/
def Intact : Prop :=
  match f.given with
  | .both => trim f.text = f.text
  | _ => f.text = "" ∨ trim f.text ≠ ""

instance : Decidable f.Intact := by
  unfold Intact
  cases f.given <;> infer_instance

/-- A text that is left out if a text made from it is empty. -/
theorem getD_filter_isEmpty (s : String) (g : String → String) :
    ((some s).filter fun s => !(g s).isEmpty).getD "" = if g s = "" then "" else s := by
  rw [Option.filter_some]
  by_cases h : g s = ""
  · rw [if_pos h, h]
    rfl
  · rw [if_neg h, if_pos]
    · rfl
    · rw [Bool.not_eq_true', ← Bool.not_eq_true, String.isEmpty_iff]
      exact h

theorem kept_both (h : f.given = .both) : f.kept = trim f.text := by
  rw [kept, fields, h]
  simp only [mergeReasoning]
  split_ifs with hempty
  · rw [String.isEmpty_iff.mp hempty]
    rfl
  · exact absurd ‹_› (lt_irrefl _)
  · rfl

theorem kept_one (h : f.given ≠ .both) : f.kept = if trim f.text = "" then "" else f.text := by
  rw [kept, fields]
  cases hgiven : f.given with
  | reasoning => exact getD_filter_isEmpty f.text trim
  | reasoningContent => exact getD_filter_isEmpty f.text trim
  | both => exact absurd hgiven h

theorem trim_sublist (s : String) : (trim s).toList.Sublist s.toList := by
  rw [trim, String.toList_ofList]
  exact (List.rdropWhile_prefix isWhitespace _).sublist.trans
    (List.dropWhile_suffix isWhitespace).sublist

/-- Nothing is added to a fragment. -/
theorem kept_sublist : f.kept.toList.Sublist f.text.toList := by
  by_cases h : f.given = .both
  · rw [kept_both f h]
    exact trim_sublist f.text
  · rw [kept_one f h]
    split_ifs
    · exact List.nil_sublist _
    · exact List.Sublist.refl _

theorem kept_eq_iff : f.kept = f.text ↔ f.Intact := by
  by_cases h : f.given = .both
  · rw [kept_both f h, Intact, h]
  · rw [kept_one f h, Intact]
    cases hgiven : f.given with
    | both => exact absurd hgiven h
    | reasoning | reasoningContent =>
      split_ifs with hblank
      · exact ⟨fun htext => .inl htext.symm, fun htext => htext.elim Eq.symm (absurd hblank)⟩
      · exact iff_of_true rfl (.inr hblank)

end ReasoningFragment

/-! ### Streams -/

theorem join_kept_eq_iff (fragments : List ReasoningFragment) :
    String.join (fragments.map ReasoningFragment.kept) =
        String.join (fragments.map ReasoningFragment.text) ↔
      ∀ f ∈ fragments, f.Intact := by
  rw [← String.toList_inj, String.toList_join, String.toList_join, List.flatMap_map,
    List.flatMap_map, flatMap_eq_iff_of_length_le fun f _ => f.kept_sublist.length_le]
  simp only [String.toList_inj, ReasoningFragment.kept_eq_iff]

/-- The delta gives the fragment. -/
def StreamedChoice.Gives (choice : StreamedChoice) (f : ReasoningFragment) : Prop :=
  (choice.delta.reasoning, choice.delta.reasoningContent) = f.fields

def StreamedChoice.hasReasoning (choice : StreamedChoice) : Bool :=
  choice.delta.reasoning.isSome || choice.delta.reasoningContent.isSome

/-- The deltas give the fragments in order, and other deltas between them have no reasoning. -/
def GivesAll (choices : List StreamedChoice) (fragments : List ReasoningFragment) : Prop :=
  List.Forall₂ StreamedChoice.Gives (choices.filter StreamedChoice.hasReasoning) fragments

theorem reasoning_toMessage {choice : StreamedChoice} {f : ReasoningFragment} (h : choice.Gives f) :
    (choice.toMessage.reasoning.map Content.asStr).getD "" = f.kept := by
  have hreasoning : choice.delta.mergedReasoning = mergeReasoning f.fields.1 f.fields.2 := by
    rw [← h]
    rfl
  rw [StreamedChoice.toMessage, hreasoning, ReasoningFragment.kept, Option.map_map]
  cases mergeReasoning f.fields.1 f.fields.2 <;> rfl

theorem reasoning_toMessage_none {choice : StreamedChoice} (h : choice.hasReasoning = false) :
    choice.toMessage.reasoning = none := by
  obtain ⟨hreasoning, hcontent⟩ := Bool.or_eq_false_iff.mp h
  rw [Option.isSome_eq_false_iff, Option.isNone_iff_eq_none] at hreasoning hcontent
  rw [StreamedChoice.toMessage, ResponseMessage.mergedReasoning, hreasoning, hcontent]
  rfl

theorem join_reasoning {choices : List StreamedChoice} {fragments : List ReasoningFragment}
    (h : GivesAll choices fragments) :
    String.join (((choices.map StreamedChoice.toMessage).filterMap
      ChatCompletionMessage.reasoning).map Content.asStr) =
        String.join (fragments.map ReasoningFragment.kept) := by
  induction choices generalizing fragments with
  | nil =>
    obtain rfl := List.forall₂_nil_left_iff.mp h
    rfl
  | cons choice choices ih =>
    rw [List.map_cons, List.filterMap_cons]
    by_cases hreasoning : choice.hasReasoning = true
    · rw [GivesAll, List.filter_cons_of_pos hreasoning, List.forall₂_cons_left_iff] at h
      obtain ⟨f, rest, hgives, hrest, rfl⟩ := h
      have hkept := reasoning_toMessage hgives
      have hjoin := ih hrest
      rw [← String.toList_inj] at hjoin ⊢
      rw [String.toList_join] at hjoin ⊢
      cases hmessage : choice.toMessage.reasoning with
      | none =>
        rw [hmessage] at hkept
        rw [hjoin]
        simp [← hkept]
      | some content =>
        rw [hmessage] at hkept
        rw [String.toList_join] at hjoin ⊢
        dsimp only
        rw [List.map_cons, List.flatMap_cons, hjoin, List.map_cons, List.flatMap_cons, ← hkept]
        rfl
    · rw [Bool.not_eq_true] at hreasoning
      rw [GivesAll, List.filter_cons_of_neg (by simp [hreasoning])] at h
      rw [reasoning_toMessage_none hreasoning]
      exact ih h

section Reply

variable [FloatText] [HashOrder] {ε : Type} {tryFromXml : String → Option ToolCallFull}
  {shouldInterruptForXml : Bool}

/-- The reasoning of the reply is what was kept of the fragments, if no call in the text ended it
before. -/
theorem reasoning_intoFull {choices : List StreamedChoice} {fragments : List ReasoningFragment}
    (h : GivesAll choices fragments) {full : ChatCompletionMessageFull}
    (hfull : intoFull tryFromXml shouldInterruptForXml
      (choices.map fun choice => (.ok choice.toMessage : Except ε _)) = .ok full)
    (hread : ((choices.map StreamedChoice.toMessage).foldl
      (FullState.step tryFromXml shouldInterruptForXml) .start).toolInterrupted = false) :
    full.reasoning.getD "" = String.join (fragments.map ReasoningFragment.kept) := by
  have hstream : choices.map (fun choice => (.ok choice.toMessage : Except ε _)) =
      (choices.map StreamedChoice.toMessage).map .ok := by
    rw [List.map_map]
    rfl
  rw [intoFull, hstream, mapM_ok] at hfull
  rw [FullState.eq_of_finish hfull, FullState.full]
  dsimp only
  rw [(FullState.messages_of_not_interrupted _ hread).2, FullState.start, List.nil_append,
    join_reasoning h]
  split_ifs with hempty
  · exact (String.isEmpty_iff.mp hempty).symm
  · rfl

/-- The reasoning of the reply is the text if each fragment is as it was put: without blanks at its
ends where it stands in both fields, and not of blanks alone where it stands in one. -/
theorem reasoning_eq_iff {choices : List StreamedChoice} {fragments : List ReasoningFragment}
    (h : GivesAll choices fragments) {full : ChatCompletionMessageFull}
    (hfull : intoFull tryFromXml shouldInterruptForXml
      (choices.map fun choice => (.ok choice.toMessage : Except ε _)) = .ok full)
    (hread : ((choices.map StreamedChoice.toMessage).foldl
      (FullState.step tryFromXml shouldInterruptForXml) .start).toolInterrupted = false) :
    full.reasoning.getD "" = String.join (fragments.map ReasoningFragment.text) ↔
      ∀ f ∈ fragments, f.Intact := by
  rw [reasoning_intoFull h hfull hread, join_kept_eq_iff]

end Reply

namespace CutReasoning

/-- The operations on floats and hash maps, of which these streams use none. -/
abbrev floats : FloatText := ⟨fun _ => none, fun a _ => a⟩

abbrev hashOrder : HashOrder := ⟨fun entries => entries, HashOrder.perm_self⟩

def delta (content reasoning : Option String) : ResponseMessage :=
  { content
    reasoning
    reasoningContent := none
    toolCalls := none
    reasoningDetails := none
    reasoningText := none
    reasoningOpaque := none
    extraContent := none }

/-- The texts as reasoning, and then an answer. -/
def choices (texts : List String) : List StreamedChoice :=
  texts.map (fun text => ⟨none, delta none (some text), none⟩) ++
    [⟨some "stop", delta (some "Done.") none, none⟩]

def fragments (texts : List String) : List ReasoningFragment :=
  texts.map fun text => ⟨text, .reasoning⟩

theorem givesAll (texts : List String) : GivesAll (choices texts) (fragments texts) := by
  have hfilter : (choices texts).filter StreamedChoice.hasReasoning =
      texts.map fun text => ⟨none, delta none (some text), none⟩ := by
    rw [choices, List.filter_append, List.filter_eq_self.mpr]
    · exact List.append_nil _
    · intro choice hchoice
      obtain ⟨text, -, rfl⟩ := List.mem_map.mp hchoice
      rfl
  rw [GivesAll, hfilter, fragments, List.forall₂_map_left_iff, List.forall₂_map_right_iff,
    List.forall₂_same]
  intro text _
  rfl

def reply (texts : List String) : Except (FullError Unit) ChatCompletionMessageFull :=
  @intoFull floats hashOrder Unit (fun _ => none) false
    ((choices texts).map fun choice => .ok choice.toMessage)

/-- A text that is cut before its blanks. -/
theorem reasoning_cutBefore : ∃ full, reply ["Let", " me"] = .ok full ∧
    full.reasoning.getD "" = String.join ["Let", " me"] := by
  refine ⟨_, rfl, ?_⟩
  exact (@reasoning_eq_iff floats hashOrder Unit (fun _ => none) false _ _
    (givesAll ["Let", " me"]) _ rfl rfl).mpr
      (List.forall_mem_cons.mpr ⟨by decide, List.forall_mem_singleton.mpr (by decide)⟩)

/-- A blank on its own is lost. -/
theorem not_reasoning_cutAround :
    ¬ ∀ texts full, reply texts = .ok full →
      full.reasoning.getD "" = String.join texts := by
  intro hreasoning
  exact absurd (hreasoning ["Let", " ", "me"] _ rfl) (by decide)

end CutReasoning

end HeliosLite
