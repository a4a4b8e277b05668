import HeliosLite.Providers.ToolResults

/-!
# The ids of tool calls in a request

A tool result names its call by an id. Some providers restrict the ids, so they are rewritten one
by one: for Anthropic a character that is not allowed becomes an underscore, and for OpenAI an id
is cut to its first characters. Two ids of a history may become the same.

## Main definitions

* `ToolIds` — the ids of the calls and results of a history
* `ToolIds.Kept` — the rewritten ids tell the calls apart, and which results are theirs
* `Anthropic.SanitizeToolIds.transform`, `OpenAi.TrimToolCallIds.transform` — the transformers

## Main results

* `ToolIds.kept_map_iff` — when rewriting each id by itself keeps them
* `toolIds_kept_iff` — when the transformers do
-/

namespace HeliosLite

/-! ### Ids -/

/-- The ids of the tool calls and of the tool results of a history, in their order. -/
@[ext]
structure ToolIds where
  calls : List String
  results : List String
  deriving DecidableEq, Repr

namespace ToolIds

/-- The calls have distinct ids, and each result has the id of a call. -/
structure WellFormed (ids : ToolIds) : Prop where
  distinct : ids.calls.Nodup
  known : ids.results ⊆ ids.calls

/-- A result has the id of a call; both are named by their places. -/
def Answers (ids : ToolIds) (result call : ℕ) : Prop :=
  ∃ id, ids.results[result]? = some id ∧ ids.calls[call]? = some id

/-- The ids tell the calls apart, the results are those of the same calls, and every id has the
format. -/
structure Kept (ids after : ToolIds) (Format : String → Prop) : Prop where
  distinct : after.calls.Nodup
  answers : ∀ result call, after.Answers result call ↔ ids.Answers result call
  format : ∀ id ∈ after.calls ++ after.results, Format id

/-- Each id is rewritten. -/
def map (f : String → String) (ids : ToolIds) : ToolIds :=
  { calls := ids.calls.map f
    results := ids.results.map f }

variable {ids : ToolIds} {f : String → String} {Format : String → Prop}

theorem answers_map (h : ids.WellFormed) (hf : ∀ c ∈ ids.calls, ∀ d ∈ ids.calls, f c = f d → c = d)
    (result call : ℕ) : (ids.map f).Answers result call ↔ ids.Answers result call := by
  simp only [Answers, map, List.getElem?_map, Option.map_eq_some_iff]
  constructor
  · rintro ⟨-, ⟨r, hr, rfl⟩, c, hc, heq⟩
    have hcall := h.known (List.mem_of_getElem? hr)
    obtain rfl := hf c (List.mem_of_getElem? hc) r hcall heq
    exact ⟨c, hr, hc⟩
  · rintro ⟨id, hr, hc⟩
    exact ⟨f id, ⟨id, hr, rfl⟩, id, hc, rfl⟩

/-- Rewritten ids are kept exactly if no two of the calls become the same and all get the
format. -/
theorem kept_map_iff (h : ids.WellFormed) :
    ids.Kept (ids.map f) Format ↔
      (∀ id ∈ ids.calls, Format (f id)) ∧ ids.calls.Pairwise fun c d => f c ≠ f d := by
  have hnodup : (ids.map f).calls.Nodup ↔ ids.calls.Pairwise fun c d => f c ≠ f d :=
    List.pairwise_map
  constructor
  · intro hkept
    refine ⟨fun id hid => ?_, hnodup.mp hkept.distinct⟩
    exact hkept.format _ (List.mem_append_left _ (List.mem_map_of_mem hid))
  · rintro ⟨hformat, hpairs⟩
    have hinj := List.inj_on_of_nodup_map (hnodup.mpr hpairs)
    refine ⟨hnodup.mpr hpairs, answers_map h fun c hc d hd => hinj hc hd, ?_⟩
    intro id hid
    rcases List.mem_append.mp hid with hcall | hresult
    · obtain ⟨c, hc, rfl⟩ := List.mem_map.mp hcall
      exact hformat c hc
    · obtain ⟨r, hr, rfl⟩ := List.mem_map.mp hresult
      exact hformat r (h.known hr)

end ToolIds

/-! ### Anthropic -/

namespace Anthropic

/-- The characters of an id, `[a-zA-Z0-9_-]`. -/
def isIdChar (c : Char) : Bool := c.isAlphanum || c == '_' || c == '-'

/-- An id in the format `^[a-zA-Z0-9_-]+$`. -/
def IdFormat (id : String) : Prop := id ≠ "" ∧ ∀ c ∈ id.toList, isIdChar c

def maskChar (c : Char) : Char := if isIdChar c then c else '_'

/-- All matches of `[^a-zA-Z0-9_-]` replaced by underscores. -/
def replaceAll (id : String) : String := String.ofList (id.toList.map maskChar)

namespace SanitizeToolIds

def transformContent : Content → Content
  | .toolUse id input name => .toolUse (replaceAll id) input name
  | .toolResult toolUseId content isError => .toolResult (replaceAll toolUseId) content isError
  | content => content

def transform (messages : List Message) : List Message :=
  messages.map fun message => { message with content := message.content.map transformContent }

end SanitizeToolIds

def Content.callId : Content → Option String
  | .toolUse id _ _ => some id
  | _ => none

def Content.resultId : Content → Option String
  | .toolResult toolUseId _ _ => some toolUseId
  | _ => none

def toolIds (messages : List Message) : ToolIds :=
  { calls := (messages.flatMap Message.content).filterMap Content.callId
    results := (messages.flatMap Message.content).filterMap Content.resultId }

theorem toolIds_transform (messages : List Message) :
    toolIds (SanitizeToolIds.transform messages) = (toolIds messages).map replaceAll := by
  have hcontents : (SanitizeToolIds.transform messages).flatMap Message.content =
      (messages.flatMap Message.content).map SanitizeToolIds.transformContent := by
    rw [SanitizeToolIds.transform, List.flatMap_map, List.map_flatMap]
  have hcall : ∀ content : Content, (SanitizeToolIds.transformContent content).callId =
      content.callId.map replaceAll := fun content => by cases content <;> rfl
  have hresult : ∀ content : Content, (SanitizeToolIds.transformContent content).resultId =
      content.resultId.map replaceAll := fun content => by cases content <;> rfl
  unfold toolIds ToolIds.map
  rw [hcontents]
  simp only [List.filterMap_map, List.map_filterMap, Function.comp_def, hcall, hresult]

/-- Two ids that agree but for characters which are not allowed; these and underscores count as
the same. -/
def Alike (c d : String) : Prop :=
  List.Forall₂ (fun a b => a = b ∨ maskChar a = '_' ∧ maskChar b = '_') c.toList d.toList

theorem maskChar_eq_iff {a b : Char} :
    maskChar a = maskChar b ↔ a = b ∨ maskChar a = '_' ∧ maskChar b = '_' := by
  constructor
  · intro h
    by_cases ha : isIdChar a
    · by_cases hb : isIdChar b
      · rw [maskChar, if_pos ha, maskChar, if_pos hb] at h
        exact .inl h
      · have hmask : maskChar b = '_' := if_neg hb
        exact .inr ⟨h.trans hmask, hmask⟩
    · have hmask : maskChar a = '_' := if_neg ha
      exact .inr ⟨hmask, h.symm.trans hmask⟩
  · rintro (rfl | ⟨ha, hb⟩)
    · rfl
    · rw [ha, hb]

theorem replaceAll_eq_iff {c d : String} : replaceAll c = replaceAll d ↔ Alike c d := by
  unfold replaceAll Alike
  rw [String.ofList_inj]
  generalize c.toList = l
  generalize d.toList = m
  induction l generalizing m with
  | nil => cases m <;> simp
  | cons a l ih =>
    cases m with
    | nil => simp
    | cons b m => rw [List.map_cons, List.map_cons, List.cons.injEq, ih, maskChar_eq_iff,
        List.forall₂_cons]

theorem isIdChar_maskChar (c : Char) : isIdChar (maskChar c) := by
  unfold maskChar
  split_ifs with h
  · exact h
  · decide

theorem idFormat_replaceAll_iff {id : String} : IdFormat (replaceAll id) ↔ id ≠ "" := by
  have hchars : ∀ c ∈ (replaceAll id).toList, isIdChar c := by
    intro c hc
    rw [replaceAll, String.toList_ofList] at hc
    obtain ⟨b, -, rfl⟩ := List.mem_map.mp hc
    exact isIdChar_maskChar b
  have hempty : replaceAll id = "" ↔ id = "" := by
    rw [← String.toList_eq_nil_iff, ← String.toList_eq_nil_iff, replaceAll, String.toList_ofList,
      List.map_eq_nil_iff]
  rw [IdFormat, Ne, hempty]
  exact and_iff_left hchars

end Anthropic

/-! ### OpenAI -/

namespace OpenAi

structure FunctionCall where
  name : Option String
  arguments : String
  deriving DecidableEq, Repr

structure ToolCall where
  id : Option String
  function : FunctionCall
  deriving DecidableEq, Repr

/-- A message, with the content and the calls. -/
structure Message where
  content : Option MessageContent
  toolCallId : Option String
  toolCalls : Option (List ToolCall)
  deriving DecidableEq, Repr

/-- An id of at most 40 characters. -/
def IdFormat (id : String) : Prop := id.toList.length ≤ 40

namespace TrimToolCallIds

def trim (id : String) : String := String.ofList (id.toList.take 40)

def transformMessage (message : Message) : Message :=
  { message with
    toolCallId := message.toolCallId.map trim
    toolCalls := message.toolCalls.map fun calls =>
      calls.map fun call => { call with id := call.id.map trim } }

def transform (messages : Option (List Message)) : Option (List Message) :=
  messages.map fun messages => messages.map transformMessage

end TrimToolCallIds

def Message.callIds (message : Message) : List String :=
  (message.toolCalls.getD []).filterMap ToolCall.id

def toolIds (messages : Option (List Message)) : ToolIds :=
  { calls := (messages.getD []).flatMap Message.callIds
    results := (messages.getD []).filterMap Message.toolCallId }

theorem callIds_transformMessage (message : Message) :
    (TrimToolCallIds.transformMessage message).callIds =
      message.callIds.map TrimToolCallIds.trim := by
  unfold Message.callIds TrimToolCallIds.transformMessage
  cases message.toolCalls with
  | none => rfl
  | some calls =>
    simp only [Option.map_some, Option.getD_some, List.filterMap_map, List.map_filterMap,
      Function.comp_def]

theorem toolIds_transform (messages : Option (List Message)) :
    toolIds (TrimToolCallIds.transform messages) =
      (toolIds messages).map TrimToolCallIds.trim := by
  cases messages with
  | none => rfl
  | some messages =>
    ext1
    · change (messages.map TrimToolCallIds.transformMessage).flatMap Message.callIds =
        (messages.flatMap Message.callIds).map TrimToolCallIds.trim
      rw [List.flatMap_map, List.map_flatMap]
      simp only [callIds_transformMessage]
    · change (messages.map TrimToolCallIds.transformMessage).filterMap Message.toolCallId =
        (messages.filterMap Message.toolCallId).map TrimToolCallIds.trim
      rw [List.filterMap_map, List.map_filterMap]
      rfl

/-- Two ids with the same first 40 characters. -/
def Alike (c d : String) : Prop :=
  ∃ start : List Char, start.length = 40 ∧ start <+: c.toList ∧ start <+: d.toList

theorem trim_eq_iff {c d : String} (hne : c ≠ d) :
    TrimToolCallIds.trim c = TrimToolCallIds.trim d ↔ Alike c d := by
  unfold TrimToolCallIds.trim
  rw [String.ofList_inj]
  constructor
  · intro h
    refine ⟨c.toList.take 40, ?_, List.take_prefix _ _, h ▸ List.take_prefix _ _⟩
    by_contra hshort
    have hlength := congrArg List.length h
    rw [List.length_take, List.length_take] at hlength
    rw [List.length_take] at hshort
    rw [List.take_of_length_le (by omega), List.take_of_length_le (by omega)] at h
    exact hne (String.toList_injective h)
  · rintro ⟨start, hlength, hc, hd⟩
    rw [← hlength, ← List.prefix_iff_eq_take.mp hc, ← List.prefix_iff_eq_take.mp hd]

theorem pairwise_trim_iff {ids : List String} (h : ids.Nodup) :
    (ids.Pairwise fun c d => TrimToolCallIds.trim c ≠ TrimToolCallIds.trim d) ↔
      ids.Pairwise fun c d => ¬ Alike c d := by
  constructor
  · intro hpairs
    refine (h.and hpairs).imp ?_
    rintro c d ⟨hne, htrim⟩ halike
    exact htrim ((trim_eq_iff hne).mpr halike)
  · intro hpairs
    refine (h.and hpairs).imp ?_
    rintro c d ⟨hne, halike⟩ htrim
    exact halike ((trim_eq_iff hne).mp htrim)

theorem idFormat_trim (id : String) : IdFormat (TrimToolCallIds.trim id) := by
  rw [IdFormat, TrimToolCallIds.trim, String.toList_ofList]
  exact List.length_take_le _ _

end OpenAi

/-! ### The transformers -/

/-- The ids of a request that are rewritten for Anthropic are kept exactly if none is empty and no
two calls have ids that agree but for characters which are not allowed; those that are rewritten
for OpenAI exactly if no two calls have ids with the same first 40 characters. -/
theorem toolIds_kept_iff {request : List Anthropic.Message} {chat : Option (List OpenAi.Message)}
    (hrequest : (Anthropic.toolIds request).WellFormed)
    (hchat : (OpenAi.toolIds chat).WellFormed) :
    ((Anthropic.toolIds request).Kept
        (Anthropic.toolIds (Anthropic.SanitizeToolIds.transform request)) Anthropic.IdFormat ↔
      (∀ id ∈ (Anthropic.toolIds request).calls, id ≠ "") ∧
        (Anthropic.toolIds request).calls.Pairwise fun c d => ¬ Anthropic.Alike c d) ∧
    ((OpenAi.toolIds chat).Kept
        (OpenAi.toolIds (OpenAi.TrimToolCallIds.transform chat)) OpenAi.IdFormat ↔
      (OpenAi.toolIds chat).calls.Pairwise fun c d => ¬ OpenAi.Alike c d) := by
  constructor
  · rw [Anthropic.toolIds_transform, ToolIds.kept_map_iff hrequest]
    simp only [Anthropic.idFormat_replaceAll_iff, Ne, Anthropic.replaceAll_eq_iff]
  · rw [OpenAi.toolIds_transform, ToolIds.kept_map_iff hchat]
    rw [and_iff_right fun id _ => OpenAi.idFormat_trim id]
    exact OpenAi.pairwise_trim_iff hchat.distinct

/-! ### Two calls -/

namespace TwoCalls

/-- Two calls, and the result of the first one. -/
def request (first second : String) : List Anthropic.Message :=
  [{ content := [.toolUse first none "read", .toolUse second none "read"]
     role := .assistant },
   { content := [.toolResult first none none]
     role := .user }]

def chat (first second : String) : List OpenAi.Message :=
  [{ content := none
     toolCallId := none
     toolCalls := some
      [{ id := some first, function := ⟨some "read", ""⟩ },
       { id := some second, function := ⟨some "read", ""⟩ }] },
   { content := none
     toolCallId := some first
     toolCalls := none }]

theorem wellFormed {first second : String} (h : first ≠ second) :
    (⟨[first, second], [first]⟩ : ToolIds).WellFormed :=
  ⟨by simp [h], by simp⟩

/-- The ids `call_1` and `call_2` are kept. -/
theorem toolIds_kept :
    (Anthropic.toolIds (request "call_1" "call_2")).Kept
        (Anthropic.toolIds
          (Anthropic.SanitizeToolIds.transform (request "call_1" "call_2"))) Anthropic.IdFormat ∧
      (OpenAi.toolIds (some (chat "call_1" "call_2"))).Kept
        (OpenAi.toolIds
          (OpenAi.TrimToolCallIds.transform (some (chat "call_1" "call_2")))) OpenAi.IdFormat := by
  have hkept := @toolIds_kept_iff (request "call_1" "call_2") (some (chat "call_1" "call_2"))
    (wellFormed (by decide)) (wellFormed (by decide))
  refine ⟨hkept.1.mpr ⟨?_, ?_⟩, hkept.2.mpr ?_⟩
  · show ∀ id ∈ ["call_1", "call_2"], id ≠ ""
    decide
  · show ["call_1", "call_2"].Pairwise _
    simp only [List.pairwise_pair, ← Anthropic.replaceAll_eq_iff]
    decide
  · show ["call_1", "call_2"].Pairwise _
    rw [List.pairwise_pair, ← OpenAi.trim_eq_iff (by decide)]
    decide

/-- The first 40 characters of two ids. -/
def start : String := "call_12345678901234567890123456789012345"

/-- The ids `call.1` and `call_1` become the same for Anthropic, and for OpenAI two longer ids. -/
theorem not_toolIds_kept :
    ((Anthropic.toolIds (request "call.1" "call_1")).WellFormed ∧
      ¬ (Anthropic.toolIds (request "call.1" "call_1")).Kept
        (Anthropic.toolIds
          (Anthropic.SanitizeToolIds.transform (request "call.1" "call_1")))
        Anthropic.IdFormat) ∧
    (OpenAi.toolIds (some (chat (start ++ "a") (start ++ "b")))).WellFormed ∧
      ¬ (OpenAi.toolIds (some (chat (start ++ "a") (start ++ "b")))).Kept
        (OpenAi.toolIds
          (OpenAi.TrimToolCallIds.transform (some (chat (start ++ "a") (start ++ "b")))))
        OpenAi.IdFormat := by
  refine ⟨⟨wellFormed (by decide), fun h => ?_⟩, wellFormed (by decide), fun h => ?_⟩
  · have hdistinct := h.distinct
    revert hdistinct
    decide
  · have hdistinct := h.distinct
    revert hdistinct
    decide +kernel

end TwoCalls

end HeliosLite
