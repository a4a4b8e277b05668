import HeliosLite.Storage.ContextRecord

/-!
# What is read back of a message

A record that is written, printed, parsed and read gives itself back, but for the floats
in it, which lose what the parser loses. A domain value that goes through its record also
loses what the record does not hold: the phase of a message, the URL of an image that is
not a base64 URL, the form of tool call arguments.

## Main definitions

* `MessageEntry.reloaded` — what comes back of a message

## Main results

* `ContextMessageRecord.deserialize_reparsed` — the record of a message is read back
* `ContextMessageRecord.tryInto_from` — a message comes back as `MessageEntry.reloaded`
-/

namespace HeliosLite

open Serde Serde.Json

/-! ### Stray keys -/

/-- A single key is not stray. -/
theorem dropStrayKeys_singleton (p : String × Json) : dropStrayKeys [p] = [p] := by
  rw [dropStrayKeys]
  split
  · rfl
  · next keep hkeep =>
    -- a key that is not there is no valid variant
    have hvalid := List.find?_some hkeep
    have hkey : p.1 = keep := by
      by_contra hne
      have hlookup : List.lookup keep [p] = none := by
        rw [List.lookup_cons, beq_false_of_ne (Ne.symm hne)]
        rfl
      rw [hlookup] at hvalid
      cases hvalid
    rw [List.filter_cons_of_pos (by simpa using hkey)]
    rfl

/-- Keys that are no variant keys leave the object as it is. -/
theorem dropStrayKeys_of_no_variant {fields : List (String × Json)}
    (h : ∀ key ∈ messageVariantKeys, fields.lookup key = none) : dropStrayKeys fields = fields := by
  have hnone : messageVariantKeys.find? (fun key => isValidVariant (fields.lookup key) key)
      = none := by
    apply List.find?_eq_none.mpr
    intro key hkey
    rw [h key hkey]
    exact Bool.false_ne_true
  rw [dropStrayKeys, hnone]

variable [Libraries]

/-! ### Message records -/

@[simp] theorem Role.deserialize_reloaded (role : Role) :
    Role.deserialize role.serialize.reloaded = some role := by
  cases role <;> rfl

@[simp] theorem TokenCount.deserialize_reloaded (count : TokenCount) :
    TokenCount.deserialize count.serialize.reloaded = some count := by
  cases count <;> simp [deserialize, serialize, tagged_reloaded, List.lookup_cons, newtypeCase]

def Usage.reloaded (usage : Usage) : Usage := { usage with cost := usage.cost.bind rereadF64 }

@[simp] theorem Usage.deserialize_reloaded (usage : Usage) :
    Usage.deserialize usage.serialize.reloaded = some usage.reloaded := by
  simp [deserialize, serialize, structFields_reloaded, required_loaded, optional_loaded,
    List.lookup_cons, Usage.reloaded]

@[simp] theorem ReasoningFull.deserialize_reloaded (r : ReasoningFull) :
    ReasoningFull.deserialize r.serialize.reloaded = some r := by
  simp [deserialize, serialize, structFields_reloaded, optional_loaded, List.lookup_cons]

@[simp] theorem ImageRecord.deserialize_reloaded (r : ImageRecord) :
    ImageRecord.deserialize r.serialize.reloaded = some r := by
  simp [deserialize, serialize, structFields_reloaded, required_loaded, List.lookup_cons]

@[simp] theorem UserCommand.deserialize_reloaded (command : UserCommand) :
    UserCommand.deserialize command.serialize.reloaded = some command := by
  have hparameters : listOf string (Json.arr (command.parameters.map .str)).reloaded
      = some command.parameters := by
    rw [listOf_reloaded (f := id) _ fun s _ => string_str s, List.map_id]
  simp [deserialize, serialize, structFields_reloaded, required_loaded, List.lookup_cons,
    hparameters]

@[simp] theorem EventValue.deserialize_reloaded (event : EventValue) :
    EventValue.deserialize event.serialize.reloaded = some event := by
  cases event <;>
    simp [deserialize, serialize, tagged_reloaded, List.lookup_cons, newtypeCase]

theorem EventValue.serialize_reloaded_ne_null (event : EventValue) :
    event.serialize.reloaded ≠ .null := by
  cases event <;> exact reloaded_record_ne_null _

def ToolCallFullRecord.reloaded (r : ToolCallFullRecord) : ToolCallFullRecord :=
  { r with arguments := r.arguments.reloaded }

@[simp] theorem ToolCallFullRecord.deserialize_reloaded (r : ToolCallFullRecord) :
    ToolCallFullRecord.deserialize r.serialize.reloaded = some r.reloaded := by
  have hcallId : readOption string (some (nullable (r.callId.map .str)).reloaded)
      = some r.callId := by
    cases r.callId <;> rfl
  simp [deserialize, serialize, structFields_reloaded, required_loaded, optional_loaded,
    List.lookup_cons, hcallId, anyValue_reloaded, ToolCallFullRecord.reloaded]

def TextMessageRecord.reloaded (r : TextMessageRecord) : TextMessageRecord :=
  { r with
    rawContent := r.rawContent.map Value.reloaded
    toolCalls := r.toolCalls.map fun calls => calls.map ToolCallFullRecord.reloaded }

theorem reloaded_arr_ne_null {vs : List Json} : (Json.arr vs).reloaded ≠ .null := by
  rw [reloaded_arr]
  intro hnull
  cases hnull

@[simp] theorem TextMessageRecord.deserialize_reloaded (r : TextMessageRecord)
    (hraw : ∀ event ∈ r.rawContent, event.val.reloaded ≠ .null) :
    TextMessageRecord.deserialize r.serialize.reloaded = some r.reloaded := by
  have hrawContent : readOption anyValue (r.rawContent.map (Json.reloaded ∘ (·.val)))
      = some (r.rawContent.map Value.reloaded) := by
    cases h : r.rawContent with
    | none => rfl
    | some event =>
      have hread : anyValue event.val.reloaded = some event.reloaded := anyValue_reloaded event
      rw [Option.map_some, Function.comp_apply, readOption, hread]
      · rfl
      · exact hraw event h
  have hcalls : readOption (listOf ToolCallFullRecord.deserialize)
      (r.toolCalls.map (Json.reloaded ∘ fun calls => .arr (calls.map ToolCallFullRecord.serialize)))
      = some (r.toolCalls.map fun calls => calls.map ToolCallFullRecord.reloaded) :=
    readOption_map _
      (fun calls _ => listOf_reloaded calls fun call _ => call.deserialize_reloaded)
      (fun calls => reloaded_arr_ne_null)
  have hdetails : readOption (listOf ReasoningFull.deserialize)
      (r.reasoningDetails.map
        (Json.reloaded ∘ fun details => .arr (details.map ReasoningFull.serialize)))
      = some (r.reasoningDetails.map fun details => details.map id) :=
    readOption_map _
      (fun details _ => listOf_reloaded details fun detail _ => detail.deserialize_reloaded)
      (fun details => reloaded_arr_ne_null)
  have hdroppable : (if r.droppable then some (some true) else none).getD (some false)
      = some r.droppable := by
    cases r.droppable <;> rfl
  simp [deserialize, serialize, structFields_reloaded, required_loaded, optional_loaded,
    defaulted_loaded, List.lookup_cons, hrawContent, hcalls, hdetails, hdroppable,
    TextMessageRecord.reloaded]

@[simp] theorem FileDiffRecord.deserialize_reloaded (r : FileDiffRecord) :
    FileDiffRecord.deserialize r.serialize.reloaded = some r := by
  have holdText : readOption string (some (nullable (r.oldText.map .str)).reloaded)
      = some r.oldText := by
    cases r.oldText <;> rfl
  simp [deserialize, serialize, structFields_reloaded, required_loaded, optional_loaded,
    List.lookup_cons, holdText]

namespace ToolValueRecord

theorem deserialize_of_ne_pair {tag : String} (h : tag ≠ "pair") (v : Json) :
    deserialize (record [(tag, some v)]).reloaded
      = deserializeFlat (record [(tag, some v)]).reloaded := by
  rw [deserialize]
  intro first second heq
  have hfields : (record [(tag, some v)]).reloaded = .obj [(tag, v.reloaded)] :=
    reloaded_record _
  rw [hfields] at heq
  injection heq with heq
  exact h (congrArg Prod.fst (List.cons.inj heq).1)

theorem deserializeAi_reloaded (value conversationId : String) :
    deserializeAi (record
      [("value", some (.str value)), ("conversation_id", some (.str conversationId))]).reloaded
      = some (.ai value conversationId) := by
  simp [deserializeAi, structFields_reloaded, required_loaded, List.lookup_cons]

@[simp] theorem deserialize_reloaded : ∀ r : ToolValueRecord,
    deserialize r.serialize.reloaded = some r
  | .text content => by
    rw [serialize, deserialize_of_ne_pair (by decide), deserializeFlat, tagged_reloaded]
    rfl
  | .ai value conversationId => by
    rw [serialize, deserialize_of_ne_pair (by decide), deserializeFlat, tagged_reloaded]
    exact congrArg (Option.map id) (deserializeAi_reloaded value conversationId)
  | .image img => by
    rw [serialize, deserialize_of_ne_pair (by decide), deserializeFlat, tagged_reloaded]
    exact congrArg (Option.map ToolValueRecord.image) img.deserialize_reloaded
  | .empty => by
    rw [serialize, reloaded_str, deserialize]
    · rfl
    · nofun
  | .markdown content => by
    rw [serialize, deserialize_of_ne_pair (by decide), deserializeFlat, tagged_reloaded]
    rfl
  | .fileDiff diff => by
    rw [serialize, deserialize_of_ne_pair (by decide), deserializeFlat, tagged_reloaded]
    exact congrArg (Option.map ToolValueRecord.fileDiff) diff.deserialize_reloaded
  | .pair first second => by
    have hfields : (record [("pair", some (.arr [first.serialize, second.serialize]))]).reloaded
        = .obj [("pair", .arr [first.serialize.reloaded, second.serialize.reloaded])] := by
      rw [reloaded_record]
      exact congrArg (fun v => Json.obj [("pair", v)]) (reloaded_arr _)
    rw [serialize, hfields, deserialize, deserialize_reloaded first, deserialize_reloaded second]
    rfl

end ToolValueRecord

@[simp] theorem ToolOutputRecord.deserialize_reloaded (r : ToolOutputRecord) :
    ToolOutputRecord.deserialize r.serialize.reloaded = some r := by
  have hvalues : listOf ToolValueRecord.deserialize
      (Json.arr (r.values.map ToolValueRecord.serialize)).reloaded = some r.values := by
    rw [listOf_reloaded (f := id) _ fun value _ => value.deserialize_reloaded, List.map_id]
  simp [deserialize, serialize, structFields_reloaded, required_loaded, List.lookup_cons, hvalues]

@[simp] theorem ToolResultRecord.deserialize_reloaded (r : ToolResultRecord) :
    ToolResultRecord.deserialize r.serialize.reloaded = some r := by
  have hcallId : readOption string (some (nullable (r.callId.map .str)).reloaded)
      = some r.callId := by
    cases r.callId <;> rfl
  simp [deserialize, serialize, structFields_reloaded, required_loaded, optional_loaded,
    List.lookup_cons, hcallId]

/-! ### Messages -/

namespace ContextMessageValueRecord

def reloaded : ContextMessageValueRecord → ContextMessageValueRecord
  | .text message => .text message.reloaded
  | .tool result => .tool result
  | .image img => .image img

/-- The raw content of a text message is not `null`. -/
def RawContentReads : ContextMessageValueRecord → Prop
  | .text message => ∀ event ∈ message.rawContent, event.val.reloaded ≠ .null
  | _ => True

theorem deserialize_reloaded : ∀ r : ContextMessageValueRecord, r.RawContentReads →
    deserialize r.serialize.reloaded = some r.reloaded
  | .text message, h => by
    rw [serialize, deserialize, tagged_reloaded]
    exact congrArg (Option.map ContextMessageValueRecord.text) (message.deserialize_reloaded h)
  | .tool result, _ => by
    rw [serialize, deserialize, tagged_reloaded]
    exact congrArg (Option.map ContextMessageValueRecord.tool) result.deserialize_reloaded
  | .image img, _ => by
    rw [serialize, deserialize, tagged_reloaded]
    exact congrArg (Option.map ContextMessageValueRecord.image) img.deserialize_reloaded

theorem exists_serialize_reloaded (r : ContextMessageValueRecord) :
    ∃ tag payload, r.serialize.reloaded = .obj [(tag, payload)] := by
  cases r <;> exact ⟨_, _, reloaded_record _⟩

end ContextMessageValueRecord

namespace ContextMessageRecord

def reloaded (r : ContextMessageRecord) : ContextMessageRecord :=
  { message := r.message.reloaded, usage := r.usage.map Usage.reloaded }

/-- The wrapper of a message, as it is read. -/
theorem reloaded_wrapper (message : Json) (usage : Option Usage) :
    (record [("message", some message), ("usage", usage.map Usage.serialize)]).reloaded =
      .obj (("message", message.reloaded)
        :: (usage.map fun usage => ("usage", usage.serialize.reloaded)).toList) := by
  rw [reloaded_record]
  cases usage with
  | none => rfl
  | some usage =>
    have hlt : ("message" : String) < "usage" := by decide
    change Json.obj (insertField "usage" usage.serialize.reloaded
      [("message", message.reloaded)]) = _
    rw [insertField_of_lt (by simpa using hlt)]
    rfl

/-- A wrapper has no stray keys at its root. -/
theorem stripStrayVariantKeys_wrapper (fields : List (String × Json)) (usage : Option Usage) :
    stripStrayVariantKeys (.obj (("message", .obj fields)
      :: (usage.map fun usage => ("usage", usage.serialize.reloaded)).toList)) =
      .obj (("message", .obj (dropStrayKeys fields))
        :: (usage.map fun usage => ("usage", usage.serialize.reloaded)).toList) := by
  rw [stripStrayVariantKeys, List.map_cons, cleanWrapped]
  congr 1
  cases usage with
  | none => exact dropStrayKeys_singleton _
  | some usage =>
    apply dropStrayKeys_of_no_variant
    intro key hkey
    simp only [messageVariantKeys, List.mem_cons, List.not_mem_nil, or_false] at hkey
    rcases hkey with rfl | rfl | rfl <;> rfl

theorem deserializeWrapper_reloaded (r : ContextMessageRecord) (h : r.message.RawContentReads) :
    deserializeWrapper r.serialize.reloaded = some r.reloaded := by
  have husage : readOption Usage.deserialize (r.usage.map (Json.reloaded ∘ Usage.serialize))
      = some (r.usage.map Usage.reloaded) :=
    readOption_map _ (fun usage _ => usage.deserialize_reloaded)
      fun usage => reloaded_record_ne_null _
  simp [deserializeWrapper, serialize, structFields_reloaded, required_loaded,
    optional_loaded, List.lookup_cons, r.message.deserialize_reloaded h, husage,
    ContextMessageRecord.reloaded]

/-- A written message has no stray keys. -/
theorem stripStrayVariantKeys_reloaded (r : ContextMessageRecord) :
    stripStrayVariantKeys r.serialize.reloaded = r.serialize.reloaded := by
  obtain ⟨tag, payload, hmessage⟩ := r.message.exists_serialize_reloaded
  rw [serialize, reloaded_wrapper, hmessage, stripStrayVariantKeys_wrapper,
    dropStrayKeys_singleton]

theorem deserialize_reparsed (r : ContextMessageRecord) (h : r.message.RawContentReads) :
    deserialize r.serialize.reparsed = some r.reloaded := by
  apply deserialize_wrapped
  change deserializeWrapper (stripStrayVariantKeys r.serialize.reloaded) = _
  rw [stripStrayVariantKeys_reloaded, r.deserializeWrapper_reloaded h]

end ContextMessageRecord

/-! ### Messages of the domain -/

/-- The arguments after their record was read back. -/
def ToolCallArguments.reloaded (arguments : ToolCallArguments) : ToolCallArguments :=
  .fromValue (arguments.toValue.getD Json.null.value).reloaded

def ToolCallFull.reloaded (call : ToolCallFull) : ToolCallFull :=
  { call with arguments := call.arguments.reloaded }

def Image.reloaded (image : Image) : Image := (ImageRecord.from image).into

def TextMessage.reloaded (message : TextMessage) : TextMessage :=
  { message with
    toolCalls := message.toolCalls.map fun calls => calls.map ToolCallFull.reloaded
    phase := none }

def ToolValue.reloaded : ToolValue → ToolValue
  | .image img => .image img.reloaded
  | value => value

def ToolResult.reloaded (result : ToolResult) : ToolResult :=
  { result with
    output := { result.output with values := result.output.values.map ToolValue.reloaded } }

def ContextMessage.reloaded : ContextMessage → ContextMessage
  | .text message => .text message.reloaded
  | .tool result => .tool result.reloaded
  | .image img => .image img.reloaded

/-- What is read back of a stored message. -/
def MessageEntry.reloaded (entry : MessageEntry) : MessageEntry :=
  { message := entry.message.reloaded, usage := entry.usage.map Usage.reloaded }

theorem TextMessageRecord.tryInto_from (message : TextMessage) :
    (TextMessageRecord.from message).reloaded.tryInto = some message.reloaded := by
  have hcalls : ∀ calls : List ToolCallFull,
      ((calls.map ToolCallFullRecord.from).map ToolCallFullRecord.reloaded).map
        ToolCallFullRecord.into = calls.map ToolCallFull.reloaded := by
    intro calls
    rw [List.map_map, List.map_map]
    rfl
  have hraw : ∀ event : EventValue,
      EventValue.deserialize (event.serialize.value.reloaded).val = some event := by
    intro event
    have hval : (event.serialize.value.reloaded).val = event.serialize.reloaded := by
      rw [← reloaded_json_value, reloaded_value]
      rfl
    rw [hval, event.deserialize_reloaded]
  obtain ⟨role, content, rawContent, toolCalls, thoughtSignature, model, details, droppable,
    phase⟩ := message
  cases rawContent <;> cases toolCalls <;>
    simp [TextMessageRecord.from, TextMessageRecord.reloaded, TextMessageRecord.tryInto,
      TextMessage.reloaded, hraw, ← hcalls]

theorem ToolValueRecord.tryInto_from (value : ToolValue) :
    (ToolValueRecord.from value).tryInto = some value.reloaded := by
  cases value with
  | ai value id =>
    rw [ToolValueRecord.from, tryInto, ConversationId.parse_intoString]
    rfl
  | text _ | image _ | empty => rfl

theorem ToolResultRecord.tryInto_from (result : ToolResult) :
    (ToolResultRecord.from result).tryInto = some result.reloaded := by
  have hvalues : result.output.values.mapM (ToolValueRecord.tryInto ∘ ToolValueRecord.from)
      = some (result.output.values.map ToolValue.reloaded) :=
    mapM_some ToolValueRecord.tryInto_from _
  simp [tryInto, ToolResultRecord.from, ToolOutputRecord.from, ToolOutputRecord.tryInto, hvalues,
    ToolResult.reloaded]

theorem ContextMessageValueRecord.rawContentReads_from (message : ContextMessage) :
    (ContextMessageValueRecord.from message).RawContentReads := by
  cases message with
  | text message =>
    intro event hevent
    obtain ⟨raw, -, rfl⟩ := Option.map_eq_some_iff.mp hevent
    rw [reloaded_json_value]
    exact raw.serialize_reloaded_ne_null
  | tool _ | image _ => trivial

theorem ContextMessageValueRecord.tryInto_from (message : ContextMessage) :
    (ContextMessageValueRecord.from message).reloaded.tryInto = some message.reloaded := by
  cases message with
  | text message =>
    exact congrArg (Option.map ContextMessage.text) (TextMessageRecord.tryInto_from message)
  | tool result =>
    exact congrArg (Option.map ContextMessage.tool) (ToolResultRecord.tryInto_from result)
  | image _ => rfl

/-- A message comes back as `MessageEntry.reloaded` says. -/
theorem ContextMessageRecord.tryInto_from (entry : MessageEntry) :
    (ContextMessageRecord.from entry).reloaded.tryInto = some entry.reloaded := by
  rw [tryInto, ContextMessageRecord.reloaded, ContextMessageRecord.from,
    ContextMessageValueRecord.tryInto_from]
  rfl

end HeliosLite
