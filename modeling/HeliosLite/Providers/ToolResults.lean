import HeliosLite.Orchestration.ToolCalls
import HeliosLite.Providers.Anthropic
import HeliosLite.Storage.Reference

/-!
# Tool results in a request

A tool result is a list of values. Each provider has its own message for it, and what the model is
to read are the texts of the values.

## Main definitions

* `OpenAi.MessageContent.ofToolResult`, `Google.Part.ofToolResult` — the message of a result; that
  for Anthropic is `Anthropic.Content.ofToolResult`
* `ImageHandling.transform`, `ImageHandling.hidden` — the images of the results are sent after the
  messages
* `CarriedByAll` — every message of the result has all its texts

## Main results

* `carriedByAll_iff` — the messages have all texts if and only if there is one at most
* `carriedByAll_noteAttempts_iff` — what becomes of the note on the attempts left
* `carriedByAll_hidden_iff` — what becomes of the text that stands for an image
-/

namespace HeliosLite

open Serde Serde.Json

/-- The texts of the result, in order. -/
def ToolResult.texts (result : ToolResult) : List String :=
  result.output.values.filterMap ToolValue.asStr

/-- The first text of the output. -/
def ToolOutput.asStr (output : ToolOutput) : Option String :=
  output.values.findSome? ToolValue.asStr

/-! ### The message of a result -/

namespace OpenAi

inductive ContentPart where
  | text (text : String)
  | imageUrl (url : String)
  deriving DecidableEq, Repr

inductive MessageContent where
  | text (text : String)
  | parts (parts : List ContentPart)
  deriving DecidableEq, Repr

/-- The part of a value; an empty value has none. -/
def ContentPart.ofValue : ToolValue → Option ContentPart
  | .text content | .ai content _ => some (.text content)
  | .image img => some (.imageUrl img.url)
  | .empty => none

/-- The text of a value that is alone, or else the parts of all values. -/
def MessageContent.ofToolResult (result : ToolResult) : MessageContent :=
  match result.output.values.length, result.output.asStr with
  | 1, some content => .text content
  | _, _ => .parts (result.output.values.filterMap ContentPart.ofValue)

def ContentPart.asText : ContentPart → Option String
  | text content => some content
  | imageUrl _ => none

def MessageContent.texts : MessageContent → List String
  | text content => [content]
  | parts contents => contents.filterMap ContentPart.asText

/-- The parts have the texts of the values. -/
theorem filterMap_asText (values : List ToolValue) :
    (values.filterMap ContentPart.ofValue).filterMap ContentPart.asText =
      values.filterMap ToolValue.asStr := by
  rw [List.filterMap_filterMap]
  refine List.filterMap_congr fun value _ => ?_
  cases value <;> rfl

theorem MessageContent.texts_ofToolResult (result : ToolResult) :
    (ofToolResult result).texts = result.texts := by
  unfold ofToolResult
  split
  · rename_i content hlength hcontent
    obtain ⟨value, hvalues⟩ := List.length_eq_one_iff.mp hlength
    rw [ToolOutput.asStr, hvalues] at hcontent
    rw [ToolResult.texts, hvalues]
    cases value <;> cases hcontent <;> rfl
  · exact filterMap_asText _

end OpenAi

namespace Google

structure FunctionResponseData where
  name : String
  response : Json
  deriving DecidableEq

/-- The output of the result as it is written. -/
def FunctionResponseData.ofToolResult [Libraries] (result : ToolResult) : FunctionResponseData :=
  { name := result.name
    response := (ToolOutputRecord.from result.output).serialize }

/-- What the model finds under a key. -/
def valueAt (key : String) : Json → Option Json
  | .obj fields => fields.lookup key
  | _ => none

/-- The text of a written value. -/
def valueText (v : Json) : Option String :=
  ((valueAt "text" v).or ((valueAt "aI" v).bind (valueAt "value"))).bind string

/-- The texts of the written values. -/
def FunctionResponseData.texts (data : FunctionResponseData) : List String :=
  match valueAt "values" data.response with
  | some (.arr values) => values.filterMap valueText
  | _ => []

variable [Libraries]

theorem FunctionResponseData.texts_ofToolResult (result : ToolResult) :
    (ofToolResult result).texts = result.texts := by
  have hvalue (value : ToolValue) :
      valueText (ToolValueRecord.from value).serialize = value.asStr := by
    cases value <;> rfl
  have hvalues : (ofToolResult result).texts =
      ((result.output.values.map ToolValueRecord.from).map ToolValueRecord.serialize).filterMap
        valueText := rfl
  rw [hvalues, List.map_map, List.filterMap_map, ToolResult.texts]
  exact List.filterMap_congr fun value _ => hvalue value

end Google

/-- The texts of a content that is a tool result. -/
def Anthropic.Content.resultTexts : Anthropic.Content → List String
  | .toolResult _ content _ => content.toList
  | _ => []

/-! ### Before a request -/

namespace ImageHandling

/-- The text that stands for an image. -/
def placeholder (id : ℕ) : String :=
  "[The image with ID " ++ toString id ++ " will be sent as an attachment in the next message]"

/-- The values without their images, which are put after the images that were met before. -/
def hideValues : List Image → List ToolValue → List Image × List ToolValue
  | images, [] => (images, [])
  | images, .image img :: values =>
    let rest := hideValues (images ++ [img]) values
    (rest.1, .text (placeholder images.length) :: rest.2)
  | images, value :: values =>
    let rest := hideValues images values
    (rest.1, value :: rest.2)

def hideEntries : List Image → List MessageEntry → List Image × List MessageEntry
  | images, [] => (images, [])
  | images, entry :: entries =>
    match entry.message with
    | .tool result =>
      let hidden := hideValues images result.output.values
      let rest := hideEntries hidden.1 entries
      (rest.1, { entry with
        message := .tool { result with
          output := { result.output with values := hidden.2 } } } :: rest.2)
    | _ =>
      let rest := hideEntries images entries
      (rest.1, entry :: rest.2)

/-- The messages of an image. -/
def attachment (image : Image) (id : ℕ) : List MessageEntry :=
  [MessageEntry.from (.user ("[Here is the image attachment for ID " ++ toString id ++ "]") none),
    MessageEntry.from (.image image)]

def transform (context : Context) : Context :=
  let hidden := hideEntries [] context.messages
  { context with
    messages := hidden.2 ++ hidden.1.zipIdx.flatMap fun p => attachment p.1 p.2 }

theorem length_texts_hideValues (images : List Image) (values : List ToolValue) :
    ((hideValues images values).2.filterMap ToolValue.asStr).length =
      (values.filter (· ≠ .empty)).length := by
  induction values generalizing images with
  | nil => rfl
  | cons value values ih =>
    cases value with
    | text | ai | image => exact congrArg (· + 1) (ih _)
    | empty => exact ih images

/-- The result with its images hidden. -/
def hidden (images : List Image) (result : ToolResult) : ToolResult :=
  { result with
    output := { result.output with values := (hideValues images result.output.values).2 } }

theorem mem_hideEntries {images : List Image} {entries : List MessageEntry} {sent : ToolResult}
    {usage : Option Usage}
    (h : { message := .tool sent, usage := usage } ∈ (hideEntries images entries).2) :
    ∃ result before, { message := .tool result, usage := usage } ∈ entries ∧
      sent = hidden before result := by
  induction entries generalizing images with
  | nil => cases h
  | cons entry entries ih =>
    obtain ⟨message, usage'⟩ := entry
    cases message with
    | tool result =>
      rcases List.mem_cons.mp h with heq | h
      · cases heq
        exact ⟨result, images, List.mem_cons_self .., rfl⟩
      · obtain ⟨result', before, hmem, heq⟩ := ih h
        exact ⟨result', before, List.mem_cons_of_mem _ hmem, heq⟩
    | text | image =>
      rcases List.mem_cons.mp h with heq | h
      · cases heq
      · obtain ⟨result', before, hmem, heq⟩ := ih h
        exact ⟨result', before, List.mem_cons_of_mem _ hmem, heq⟩

end ImageHandling

/-! ### Which texts are sent -/

section Carried

variable [Libraries] (result : ToolResult)

/-- Each provider's message of the result, if there is one, has the texts of all its values. -/
structure CarriedByAll : Prop where
  openAi : (OpenAi.MessageContent.ofToolResult result).texts = result.texts
  anthropic : ∀ content, Anthropic.Content.ofToolResult result = .ok content →
    content.resultTexts = result.texts
  google : (Google.FunctionResponseData.ofToolResult result).texts = result.texts

variable {result}

/-- A result for Anthropic is cut to its first text, so that all texts are sent if and only if there
is one at most, or the result has no call and no message is made of it. -/
theorem carriedByAll_iff :
    CarriedByAll result ↔ result.callId = none ∨ result.texts.length ≤ 1 := by
  constructor
  · intro h
    cases hcallId : result.callId with
    | none => exact .inl rfl
    | some callId =>
      right
      have hcontent := h.anthropic _ (by rw [Anthropic.Content.ofToolResult, hcallId])
      rw [← hcontent]
      exact Option.length_toList_le
  · intro h
    refine ⟨OpenAi.MessageContent.texts_ofToolResult _, ?_,
      Google.FunctionResponseData.texts_ofToolResult _⟩
    intro content hcontent
    cases hcallId : result.callId with
    | none =>
      rw [Anthropic.Content.ofToolResult, hcallId] at hcontent
      cases hcontent
    | some callId =>
      rw [Anthropic.Content.ofToolResult, hcallId] at hcontent
      rw [← Except.ok.inj hcontent]
      have hlength := h.resolve_left (by rw [hcallId]; exact nofun)
      rw [ToolResult.texts] at hlength ⊢
      match result.output.values.filterMap ToolValue.asStr, hlength with
      | [], _ | [_], _ => rfl
      | _ :: _ :: _, hlength => simp at hlength

/-- The note on the attempts left is one more text, so that it is lost when the failed result has
some text of its own. -/
theorem carriedByAll_noteAttempts_iff {render : ℕ → ℕ → Option String}
    {tracker : ToolErrorTracker} {record noted : Record}
    (h : noteAttempts render tracker record = some noted)
    (herror : record.2.output.isError = true) :
    CarriedByAll noted.2 ↔ record.2.callId = none ∨ record.2.texts = [] := by
  have htexts : ∃ note, noted.2.texts = record.2.texts ++ [note] := by
    rw [noteAttempts, if_pos herror] at h
    obtain ⟨text, -, h⟩ := Option.bind_eq_some_iff.mp h
    obtain rfl := Option.some.inj h
    exact ⟨_, List.filterMap_append⟩
  obtain ⟨note, htexts⟩ := htexts
  rw [carriedByAll_iff, (noteAttempts_eq h).2.2, htexts, List.length_append,
    List.length_singleton, ← List.length_eq_zero_iff]
  refine or_congr_right ?_
  omega

/-- An image is one more text, so that a result with an image and another value that is not empty
does not have all its texts. -/
theorem carriedByAll_hidden_iff (images : List Image) :
    CarriedByAll (ImageHandling.hidden images result) ↔
      result.callId = none ∨ (result.output.values.filter (· ≠ .empty)).length ≤ 1 := by
  rw [carriedByAll_iff, ToolResult.texts]
  exact or_congr_right (by rw [ImageHandling.hidden, ImageHandling.length_texts_hideValues])

end Carried

/-- A failed result of a call, with the note on the attempts left. -/
def retried : ToolResult :=
  { name := "shell"
    callId := some "call_1"
    output :=
      { isError := true
        values := [.text "<tool_call_error></tool_call_error>", .text "<retry>Two left</retry>"] } }

/-- The note is not in the message for Anthropic. -/
theorem not_carriedByAll_retried :
    letI := reference
    ¬ CarriedByAll retried := by
  let := reference
  intro h
  have hcontent : Anthropic.Content.ofToolResult retried = .ok (.toolResult "call_1"
    (some "<tool_call_error></tool_call_error>") (some true)) := by decide
  have htexts := h.anthropic _ hcontent
  revert htexts
  decide

end HeliosLite
