import HeliosLite.Responses.Event
import HeliosLite.Responses.Request
import HeliosLite.Storage.Reference

/-!
# Reasoning from one turn to the next

The last event of a response lists its reasoning items, some of them with encrypted content. The
messages should carry this content, so that the next request can send it again.

## Main definitions

* `Ends` — a source with one event that ends the response
* `Survives` — the encrypted contents are carried by the messages and sent again

## Main results

* `fullDetails_chat` — the details of the messages are those of the last event
* `survives_iff` — the contents survive if this provider's own type does not claim the last event
-/

namespace HeliosLite

open Serde Serde.Json Theory

/-! ### The details of a message -/

/-- The complete reasoning details of a message. -/
def ChatCompletionMessage.fullDetails :
    Except StreamError ChatCompletionMessage → List ReasoningFull
  | .ok m => ((m.reasoningDetails.getD []).filterMap Reasoning.asFull).flatten
  | .error _ => []

/-- The complete reasoning details of some messages. -/
def fullDetails (messages : List (Except StreamError ChatCompletionMessage)) :
    List ReasoningFull :=
  messages.flatMap ChatCompletionMessage.fullDetails

/-- The ids and contents of the reasoning items with encrypted content. -/
def OutputItem.contents : OutputItem → Option (Option String × String)
  | .reasoning item => item.encryptedContent.map fun data => (item.id, data)
  | _ => none

theorem withIds_contents (output : List OutputItem) :
    withIds (output.filterMap OutputItem.contents) = output.filterMap OutputItem.encrypted := by
  rw [withIds, List.filterMap_filterMap]
  apply List.filterMap_congr
  intro item _
  cases item with
  | reasoning item =>
    cases hid : item.id <;> cases hcontent : item.encryptedContent <;>
      simp [OutputItem.contents, OutputItem.encrypted, hid, hcontent]
  | _ => rfl

/-- The details of an output item. -/
def OutputItem.details : OutputItem → List Reasoning
  | .reasoning item => item.details
  | _ => []

theorem addTo_reasoningDetails (m : ChatCompletionMessage) (item : OutputItem) :
    (item.addTo m).reasoningDetails.getD [] = m.reasoningDetails.getD [] ++ item.details := by
  have hadd (details : List Reasoning) (m : ChatCompletionMessage) :
      (details.foldl ChatCompletionMessage.addReasoningDetail m).reasoningDetails.getD [] =
        m.reasoningDetails.getD [] ++ details := by
    induction details generalizing m with
    | nil => simp
    | cons detail details ih =>
      rw [List.foldl_cons, ih]
      simp [ChatCompletionMessage.addReasoningDetail]
  cases item with
  | reasoning item =>
    rw [OutputItem.details, ← hadd, OutputItem.addTo]
    split_ifs <;> rfl
  | _ => simp [OutputItem.addTo, OutputItem.details, ChatCompletionMessage.addToolCall]

theorem foldl_addTo_reasoningDetails (output : List OutputItem) (m : ChatCompletionMessage) :
    (output.foldl OutputItem.addTo m).reasoningDetails.getD [] =
      m.reasoningDetails.getD [] ++ output.flatMap OutputItem.details := by
  induction output generalizing m with
  | nil => simp
  | cons item output ih =>
    rw [List.foldl_cons, ih, addTo_reasoningDetails, List.flatMap_cons, List.append_assoc]

theorem retain_getD (details : Option (List Reasoning)) :
    (retainEncryptedReasoningDetails details).getD [] =
      (details.getD []).filter fun r =>
        r.asFull.any fun fulls => fulls.any fun f => f.typeOf = some "reasoning.encrypted" := by
  cases details with
  | none => rfl
  | some details =>
    rw [retainEncryptedReasoningDetails, Option.bind_some]
    dsimp only
    split_ifs with hempty
    · rw [Option.getD_some, List.isEmpty_iff.mp hempty]
      rfl
    · rfl

/-- Of an item's details only the encrypted one is retained. -/
theorem filter_details (item : OutputItem) :
    item.details.filter (fun r =>
        r.asFull.any fun fulls => fulls.any fun f => f.typeOf = some "reasoning.encrypted") =
      item.contents.toList.map fun p => .full [.encrypted p.1 p.2] := by
  cases item with
  | reasoning item =>
    rw [OutputItem.details, OutputItem.contents, ReasoningItem.details]
    cases item.encryptedContent <;> split_ifs <;>
      simp [Reasoning.asFull, ReasoningFull.encrypted, ReasoningFull.default]
  | _ => rfl

/-- What the last message keeps: the encrypted contents. -/
theorem fullDetails_terminal (r : Oai.Response) :
    ChatCompletionMessage.fullDetails (.ok r.terminal) =
      encryptedDetails (r.output.filterMap OutputItem.contents) := by
  have hdetails : r.terminal.reasoningDetails.getD [] =
      (r.output.flatMap OutputItem.details).filter fun r =>
        r.asFull.any fun fulls => fulls.any fun f => f.typeOf = some "reasoning.encrypted" := by
    rw [Oai.Response.terminal, retain_getD]
    congr 1
    exact foldl_addTo_reasoningDetails r.output _
  rw [ChatCompletionMessage.fullDetails, hdetails, List.filter_flatMap]
  simp only [filter_details]
  rw [encryptedDetails]
  induction r.output with
  | nil => rfl
  | cons item output ih =>
    rw [List.flatMap_cons, List.filterMap_append, List.flatten_append, ih, List.filterMap_cons]
    cases item.contents <;> rfl

/-! ### The details of a source -/

/-- The details that an item of the stream gives. -/
def itemDetails : Except StreamError StreamItem → List ReasoningFull
  | .ok (.message m) => ChatCompletionMessage.fullDetails (.ok m)
  | .ok (.event (.completed r)) | .ok (.event (.incomplete r)) =>
    ChatCompletionMessage.fullDetails (.ok r.terminal)
  | _ => []

/-- What is streamed are parts of details only. -/
theorem fullDetails_message (s : CodexStreamState) (x : Except StreamError StreamItem) :
    (s.message x).toList.flatMap ChatCompletionMessage.fullDetails = itemDetails x := by
  rcases x with error | (e | m)
  · rfl
  · rw [CodexStreamState.message]
    cases e with
    | outputItemAdded index item =>
      cases item with
      | functionCall call =>
        rw [CodexStreamState.eventMessage]
        split_ifs <;> rfl
      | _ => rfl
    | functionCallArgumentsDone index name arguments =>
      rw [CodexStreamState.eventMessage]
      split_ifs <;> rfl
    | completed r => exact List.append_nil _
    | incomplete r => exact List.append_nil _
    | _ => rfl
  · exact List.append_nil _

theorem fullDetails_intoDomain (items : List (Except StreamError StreamItem)) :
    fullDetails (intoDomain items) = items.flatMap itemDetails := by
  rw [fullDetails, flatMap_intoDomain, List.flatMap_def]
  congr 1
  exact outputs_eq_map fun _ x _ _ => fullDetails_message _ x

/-- An event that was read gives details only if it ends the response. -/
theorem itemDetails_toItem (e : ResponsesStreamEvent) (he : ∀ event, e = .response event →
    ∃ type, event.hasType type = true ∧ type ≠ "response.completed" ∧
      type ≠ "response.incomplete") :
    e.toItem.toList.flatMap itemDetails = [] := by
  cases e with
  | response event =>
    obtain ⟨type, htype, hcompleted, hincomplete⟩ := he event rfl
    cases event with
    | completed r => exact absurd (of_decide_eq_true htype) hcompleted
    | incomplete r => exact absurd (of_decide_eq_true htype) hincomplete
    | _ => rfl
  | _ => rfl

/-- In an object with different keys the value of a field is the one under its key. -/
theorem field_eq_lookup {fields : List (String × Json)} (h : (fields.map Prod.fst).Nodup)
    (key : String) : field fields key = some (fields.lookup key) := by
  induction fields with
  | nil => rfl
  | cons p fields ih =>
    obtain ⟨k, v⟩ := p
    obtain ⟨hk, hfields⟩ := List.nodup_cons.mp h
    by_cases hkey : k = key
    · subst hkey
      have hrest : fields.filter (fun p => p.1 == k) = [] := by
        apply List.filter_eq_nil_iff.mpr
        intro p hp heq
        exact hk (List.mem_map.mpr ⟨p, hp, eq_of_beq heq⟩)
      rw [field, List.filter_cons_of_pos (by simp), hrest, List.lookup_cons_self]
      rfl
    · have hne : (key == k) = false := beq_false_of_ne (Ne.symm hkey)
      rw [List.lookup_cons, hne, ← ih hfields, field, List.filter_cons_of_neg (by simpa), field]

section Source

variable [JsonText] [FloatText] [AsyncOpenai]

/-- An event that says its type, and does not end the response. -/
def NotTerminal (data : String) : Prop :=
  ∀ v, fromText data = some v → ∃ type, eventType v = some type ∧
    type ≠ "response.completed" ∧ type ≠ "response.incomplete"

/-- The events with a tag of this provider are not events of the API. -/
theorem tagged_ne_response {v : Json} {event : ResponseStreamEvent} :
    ResponsesStreamEvent.tagged v ≠ some (.response event) := by
  intro h
  unfold ResponsesStreamEvent.tagged at h
  obtain ⟨⟨tag, content⟩, -, h⟩ := Option.bind_eq_some_iff.mp h
  dsimp only at h
  split at h
  · obtain ⟨fields, -, h⟩ := Option.bind_eq_some_iff.mp h
    obtain ⟨_, -, h⟩ := Option.map_eq_some_iff.mp h
    cases h
  · obtain ⟨fields, -, h⟩ := Option.bind_eq_some_iff.mp h
    obtain ⟨_, -, h⟩ := Option.map_eq_some_iff.mp h
    cases h
  · obtain ⟨fields, -, h⟩ := Option.bind_eq_some_iff.mp h
    obtain ⟨_, -, h⟩ := Option.map_eq_some_iff.mp h
    cases h
  · obtain ⟨fields, -, h⟩ := Option.bind_eq_some_iff.mp h
    obtain ⟨_, -, h⟩ := Option.map_eq_some_iff.mp h
    cases h
  · cases h

/-- An event is read as one of the API only without a tag of this provider. -/
theorem deserialize_eq_response {v : Json} {event : ResponseStreamEvent}
    (h : ResponsesStreamEvent.deserialize v = .response event) :
    AsyncOpenai.responseStreamEvent v = some event := by
  unfold ResponsesStreamEvent.deserialize at h
  cases htagged : ResponsesStreamEvent.tagged v with
  | some e =>
    rw [htagged, Option.getD_some] at h
    exact absurd (h ▸ htagged) tagged_ne_response
  | none =>
    rw [htagged, Option.getD_none] at h
    cases hread : AsyncOpenai.responseStreamEvent v with
    | none =>
      rw [hread] at h
      cases h
    | some read =>
      rw [hread] at h
      cases h
      rfl

theorem itemDetails_of_notTerminal {data : String} (h : NotTerminal data) :
    (dataItem data).toList.flatMap itemDetails = [] := by
  unfold dataItem
  split_ifs
  · rfl
  · cases hv : fromText data with
    | none => rfl
    | some v =>
      obtain ⟨type, htype, hcompleted, hincomplete⟩ := h v hv
      apply itemDetails_toItem
      intro event hevent
      have hread := deserialize_eq_response hevent
      exact ⟨type, AsyncOpenai.hasType_of_eventType v type event htype hread, hcompleted,
        hincomplete⟩

/-- A source with one event that ends the response, which lists some reasoning items. -/
structure Ends (source : List (Except SseError SseEvent)) (final : Json)
    (listed : List (String × String)) : Prop where
  completed : eventType final = some "response.completed"
  listed : listedReasoning final = some listed
  source : ∃ before data after, source = before ++ .ok (.message data) :: after ∧
    isSseTerminal data = false ∧ fromText data = some final ∧ .error .streamEnded ∉ before ∧
      ∀ other, .ok (.message other) ∈ before ++ after → NotTerminal other

/-- The reading of the response in an event as this provider's own type. -/
def completedPayload (final : Json) : Option ResponseCompletedPayload :=
  (objectFields final >>= fun fields => fields.lookup "response").bind
    ResponseCompletedPayload.deserialize

/-- An event that ends the response is claimed by this provider's own type if its response can be
read as that. -/
theorem tagged_final {final : Json} {listed : List (String × String)}
    (htype : eventType final = some "response.completed")
    (hlisted : listedReasoning final = some listed) :
    ResponsesStreamEvent.tagged final = (completedPayload final).map .responseCompleted := by
  obtain ⟨fields, hfields, -⟩ := Option.bind_eq_some_iff.mp hlisted
  obtain ⟨hnodup, rfl⟩ : (fields.map Prod.fst).Nodup ∧ final = .obj fields := by
    cases final with
    | obj others =>
      change (if _ then _ else _) = _ at hfields
      split_ifs at hfields with hnodup
      cases hfields
      exact ⟨hnodup, rfl⟩
    | _ => cases hfields
  have htag : required ResponsesStreamEvent.readTag fields "type" = some "response.completed" := by
    rw [eventType, required, field_eq_lookup hnodup] at htype
    rw [required, field_eq_lookup hnodup]
    obtain ⟨v, hv, htype⟩ := Option.bind_eq_some_iff.mp htype
    rw [hv, Option.bind_some]
    cases v with
    | str s => exact htype
    | _ => cases htype
  have hresponse : field (fields.filter fun p => p.1 != "type") "response" =
      some (fields.lookup "response") := by
    rw [← field_eq_lookup hnodup, field, field, List.filter_filter]
    congr 1
    apply List.filter_congr
    intro p _
    by_cases hp : p.1 = "response" <;> simp [hp]
  rw [ResponsesStreamEvent.tagged, ResponsesStreamEvent.taggedContent, htag]
  change (required ResponseCompletedPayload.deserialize
    (fields.filter fun p => p.1 != "type") "response").map _ = _
  rw [required, hresponse, completedPayload, hfields]
  rfl

/-- The messages of a source carry the contents of its last event, unless this provider's own type
claims it. -/
theorem fullDetails_chat {url : String} {source : List (Except SseError SseEvent)} {final : Json}
    {listed : List (String × String)} (h : Ends source final listed) :
    (completedPayload final = none ∧ ∃ r,
      AsyncOpenai.responseStreamEvent final = some (.completed r) ∧
        fullDetails (chat url source) =
          encryptedDetails (r.output.filterMap OutputItem.contents)) ∨
      (¬ (completedPayload final = none ∧
          (AsyncOpenai.responseStreamEvent final).isSome = true) ∧
        fullDetails (chat url source) = []) := by
  obtain ⟨before, data, after, hsource, hdata, hfinal, hopen, hothers⟩ := h.source
  have hother : ∀ e : Except SseError SseEvent, (∀ other, e = .ok (.message other) →
      NotTerminal other) → (sseItem url e).toList.flatMap itemDetails = [] := by
    rintro (error | (_ | other)) he
    · cases error <;> rfl
    · rfl
    · exact itemDetails_of_notTerminal (he other rfl)
  have hdetails : fullDetails (chat url source) = (dataItem data).toList.flatMap itemDetails := by
    rw [chat, fullDetails_intoDomain, eventStream, hsource, List.takeWhile_append_of_pos,
      List.takeWhile_cons_of_pos rfl, List.filterMap_eq_flatMap_toList, List.flatMap_assoc,
      List.flatMap_append, List.flatMap_cons, sseItem]
    · have hbefore : before.flatMap (fun e => (sseItem url e).toList.flatMap itemDetails) = [] := by
        rw [List.flatMap_eq_nil_iff]
        intro e he
        apply hother e
        rintro other rfl
        exact hothers other (List.mem_append_left _ he)
      have hafter : ∀ l : List (Except SseError SseEvent), l.Sublist after →
          l.flatMap (fun e => (sseItem url e).toList.flatMap itemDetails) = [] := by
        intro l hl
        rw [List.flatMap_eq_nil_iff]
        intro e he
        apply hother e
        rintro other rfl
        exact hothers other (List.mem_append_right _ (hl.subset he))
      rw [hbefore, hafter _ (List.takeWhile_sublist _), List.nil_append, List.append_nil]
    · intro e he
      rcases e with error | e
      · cases error with
        | streamEnded => exact absurd he hopen
        | _ => rfl
      · rfl
  have htagged := tagged_final h.completed h.listed
  rw [hdetails, dataItem, if_neg (by simp [hdata]), hfinal]
  dsimp only
  rw [ResponsesStreamEvent.deserialize, htagged]
  cases hpayload : completedPayload final with
  | some payload =>
    right
    exact ⟨fun hnone => (nomatch hnone.1), rfl⟩
  | none =>
    cases hread : AsyncOpenai.responseStreamEvent final with
    | none =>
      right
      exact ⟨fun hsome => (nomatch hsome.2), rfl⟩
    | some event =>
      left
      have htype := AsyncOpenai.hasType_of_eventType final _ event h.completed hread
      cases event with
      | completed r =>
        refine ⟨rfl, r, rfl, ?_⟩
        rw [← fullDetails_terminal]
        exact List.append_nil _
      | _ => cases htype

end Source

/-! ### The next request -/

section Survives

variable [Libraries] [FloatText] [AsyncOpenai]

/-- The messages carry every listed content under its id, and a request for a context that holds
their details sends the contents again, in their order. The details may be followed by others that
have no encrypted content, such as those that were streamed. -/
structure Survives (url : String) (source : List (Except SseError SseEvent))
    (listed : List (String × String)) : Prop where
  carried : ∀ p ∈ listed, .encrypted (some p.1) p.2 ∈ fullDetails (chat url source)
  replayed : ∀ (context : Context) (request : CreateResponse) (entry : MessageEntry)
    (message : TextMessage) (rest : List ReasoningFull),
    CreateResponse.fromDomain context = .ok request → entry ∈ context.messages →
      entry.message = .text message → message.role = .assistant →
        message.reasoningDetails.getD [] = fullDetails (chat url source) ++ rest →
          (∀ d ∈ rest, d.typeOf ≠ some "reasoning.encrypted") →
            listed.Sublist (request.input.filterMap InputItem.encrypted)

/-- The message of the assistant that holds some details, and nothing else. -/
def holdingMessage (details : List ReasoningFull) : TextMessage :=
  { role := .assistant
    content := ""
    rawContent := none
    toolCalls := none
    thoughtSignature := none
    model := none
    reasoningDetails := some details
    droppable := false
    phase := none }

def holding (details : List ReasoningFull) : Context :=
  { Context.default with messages := [MessageEntry.from (.text (holdingMessage details))] }

omit [FloatText] [AsyncOpenai] in
theorem fromDomain_holding (details : List ReasoningFull) :
    CreateResponse.fromDomain (holding details) =
      .ok { instructions := none
            input := mapReasoningDetailsToInputItems details
            maxOutputTokens := none } := by
  have hitems : (holdingMessage details).assistantItems =
      .ok (mapReasoningDetailsToInputItems details) := by
    have htrim : (trim "").isEmpty = true := by decide
    have htext : (if (trim (holdingMessage details).content).isEmpty then [] else
        [EasyInputMessage.text .assistant (holdingMessage details).content
          (holdingMessage details).phase]) = [] := if_pos htrim
    have hcalls : ((holdingMessage details).toolCalls.getD []).mapM ToolCallFull.toInputItem =
        .ok [] := rfl
    rw [TextMessage.assistantItems, hcalls, htext]
    exact congrArg Except.ok (List.append_nil _)
  rw [CreateResponse.fromDomain, holding, List.foldlM_cons]
  simp only [MessageEntry.from, CreateResponse.addMessage, hitems]
  rfl

/-- The contents survive if and only if there are none, or the response cannot be read as this
provider's own type but is an event of the API, and neither an id nor a content is empty or an id
listed twice. -/
theorem survives_iff {url : String} {source : List (Except SseError SseEvent)} {final : Json}
    {listed : List (String × String)} (h : Ends source final listed) :
    Survives url source listed ↔
      listed = [] ∨ completedPayload final = none ∧
        (AsyncOpenai.responseStreamEvent final).isSome ∧ Sendable listed := by
  constructor
  · intro hsurvives
    by_cases hempty : listed = []
    · exact .inl hempty
    right
    obtain ⟨p, hp⟩ := List.exists_mem_of_ne_nil _ hempty
    have hcarried := hsurvives.carried p hp
    rcases @fullDetails_chat _ _ _ url _ _ _ h with ⟨hpayload, r, hread, hdetails⟩ | ⟨-, hnone⟩
    · refine ⟨hpayload, by rw [hread]; rfl, ?_⟩
      -- what is sent for the details alone has no empty id and no id twice
      have hsent := hsurvives.replayed (holding (fullDetails (chat url source))) _ _ _ []
        (fromDomain_holding _) List.mem_cons_self rfl rfl (List.append_nil _).symm (by simp)
      exact (Sendable.reasoning _).sublist hsent
    · rw [hnone] at hcarried
      cases hcarried
  · rintro (rfl | ⟨hpayload, hread, hsendable⟩)
    · exact ⟨fun p hp => (List.not_mem_nil hp).elim,
        fun _ _ _ _ _ _ _ _ _ _ _ => List.nil_sublist _⟩
    · rcases @fullDetails_chat _ _ _ url _ _ _ h with ⟨-, r, hread, hdetails⟩ | ⟨hclaimed, -⟩
      · have hlisted : withIds (r.output.filterMap OutputItem.contents) = listed := by
          rw [withIds_contents]
          exact AsyncOpenai.encrypted_eq final listed r h.listed hread
        constructor
        · intro p hp
          rw [hdetails, encryptedDetails]
          rw [← hlisted] at hp
          obtain ⟨item, hitem, hid⟩ := List.mem_filterMap.mp hp
          obtain ⟨id, hsome, rfl⟩ := Option.map_eq_some_iff.mp hid
          exact List.mem_map.mpr ⟨item, hitem, by rw [hsome]⟩
        · intro context request entry message rest hrequest hentry hmessage hrole hholds hrest
          have hsent := (CreateResponse.fromDomain_reasoning hrequest hentry hmessage
            hrole).filterMap InputItem.encrypted
          rw [hholds, hdetails, encrypted_replay (hlisted ▸ hsendable) hrest, hlisted] at hsent
          exact hsent
      · exact absurd ⟨hpayload, hread⟩ hclaimed

end Survives

/-! ### A turn -/

namespace Turn

/-- The response with some reasoning items. -/
def responseOf (listed : List (String × String)) : Oai.Response :=
  { outputText := none
    output := listed.map fun p =>
      .reasoning
        { id := some p.1
          encryptedContent := some p.2
          content := none
          summary := [] }
    usage := none }

theorem encrypted_responseOf (listed : List (String × String)) :
    (responseOf listed).output.filterMap OutputItem.encrypted = listed := by
  rw [responseOf, List.filterMap_map]
  exact List.filterMap_some

/-- A reader of events that reads of the last event what it lists. -/
def readEvent (v : Json) : Option ResponseStreamEvent :=
  (eventType v).bind fun type =>
    if type = "response.completed" then
      (listedReasoning v).map fun listed => .completed (responseOf listed)
    else if type = "response.incomplete" then
      (listedReasoning v).map fun listed => .incomplete (responseOf listed)
    else some .other

abbrev reader : AsyncOpenai where
  responseStreamEvent := readEvent
  responseUsage _ := none
  incompleteDetails _ := none
  hasType_of_eventType := by
    intro v type e htype hread
    rw [readEvent, htype, Option.bind_some] at hread
    split_ifs at hread with hcompleted hincomplete
    · obtain ⟨_, -, rfl⟩ := Option.map_eq_some_iff.mp hread
      exact decide_eq_true hcompleted
    · obtain ⟨_, -, rfl⟩ := Option.map_eq_some_iff.mp hread
      exact decide_eq_true hincomplete
    · cases hread
      simp [ResponseStreamEvent.hasType, hcompleted, hincomplete]
  encrypted_eq := by
    intro v listed r hlisted hread
    obtain ⟨type, -, hread⟩ := Option.bind_eq_some_iff.mp hread
    rw [hlisted] at hread
    split_ifs at hread
    · cases hread
      exact encrypted_responseOf listed
    · cases hread
    · cases hread

abbrev floats : FloatText where
  parseF64 _ := none
  add a _ := a

/-- A reasoning item with a summary, and its encrypted content. -/
def reasoning (id data : String) : Json :=
  .obj [("id", .str id), ("type", .str "reasoning"),
    ("summary", .arr [.obj [("type", .str "summary_text"), ("text", .str "Thinking.")]]),
    ("encrypted_content", .str data)]

/-- The last event, with what the response says of the end of the turn. -/
def completed (endTurn : Option Json) : Json :=
  .obj [("type", .str "response.completed"), ("sequence_number", .int ⟨3, by decide⟩),
    ("response", .obj ([("id", .str "resp_1"), ("object", .str "response"),
      ("created_at", .int ⟨0, by decide⟩), ("status", .str "completed"),
      ("model", .str "gpt-5"),
      ("output", .arr [reasoning "rs_1" "gAAAone", reasoning "rs_2" "gAAAtwo"])] ++
        (endTurn.map fun v => ("end_turn", v)).toList))]

def listed : List (String × String) := [("rs_1", "gAAAone"), ("rs_2", "gAAAtwo")]

def keepalive : Json :=
  .obj [("type", .str "keepalive"), ("sequence_number", .int ⟨2, by decide⟩)]

/-- A source with another event before the last. -/
def source (endTurn : Option Json) : List (Except SseError SseEvent) :=
  [.ok .open, .ok (.message (Serde.Reference.toText keepalive)),
    .ok (.message (Serde.Reference.toText (completed endTurn))), .ok (.message "[DONE]")]

theorem fromText_done : Serde.Reference.fromText "[DONE]" = none := by decide +kernel

theorem ends {endTurn : Option Json} (hcases : endTurn = none ∨ endTurn = some (.str "no")) :
    letI := Serde.reference
    letI := reader
    Ends (source endTurn) (completed endTurn) listed := by
  have hread : Serde.Reference.fromText (Serde.Reference.toText (completed endTurn)) =
      some (completed endTurn) := by
    rw [Serde.Reference.fromText_toText, if_pos]
    rcases hcases with rfl | rfl <;> decide
  have hkeepalive : Serde.Reference.fromText (Serde.Reference.toText keepalive) =
      some keepalive := by
    rw [Serde.Reference.fromText_toText, if_pos (by decide)]
  have hterminal : isSseTerminal (Serde.Reference.toText (completed endTurn)) = false := by
    rw [isSseTerminal, decide_eq_false_iff_not]
    -- the text of an object starts with a brace
    rintro (heq | heq) <;>
      simpa [Serde.Reference.toText, completed, Serde.Reference.print] using
        congrArg String.toList heq
  let := Serde.reference
  let := reader
  refine ⟨?_, ?_, ?_⟩
  · rcases hcases with rfl | rfl <;> decide
  · rcases hcases with rfl | rfl <;> decide
  · refine ⟨[.ok .open, .ok (.message (Serde.Reference.toText keepalive))], _,
      [.ok (.message "[DONE]")], rfl, hterminal, hread, by simp, ?_⟩
    intro other hother
    have hother : other = Serde.Reference.toText keepalive ∨ other = "[DONE]" := by
      simpa using hother
    rcases hother with rfl | rfl
    · intro v hv
      obtain rfl := Option.some.inj (hkeepalive.symm.trans hv)
      exact ⟨"keepalive", by decide, by decide, by decide⟩
    · intro v hv
      exact absurd (fromText_done.symm.trans hv).symm (Option.some_ne_none v)

/-- A response whose `end_turn` is not a boolean is read as an event of the API, and its reasoning
survives. -/
theorem survives_unreadable :
    letI := HeliosLite.reference
    letI := reader
    letI := floats
    Survives "u" (source (some (.str "no"))) listed :=
  letI := HeliosLite.reference
  letI := reader
  letI := floats
  (survives_iff (ends (.inr rfl))).mpr (.inr ⟨by decide +kernel, by decide +kernel, by decide⟩)

/-- A response as it should be is claimed by this provider's own type, and its reasoning is
lost. -/
theorem completed_not_survives :
    letI := HeliosLite.reference
    letI := reader
    letI := floats
    Ends (source none) (completed none) listed ∧ ¬ Survives "u" (source none) listed := by
  let := HeliosLite.reference
  let := reader
  let := floats
  have hends : Ends (source none) (completed none) listed := ends (.inl rfl)
  have hpayload : completedPayload (completed none) ≠ none := by decide +kernel
  refine ⟨hends, ?_⟩
  intro hsurvives
  have hcarried := hsurvives.carried ("rs_1", "gAAAone") (by decide)
  rcases @fullDetails_chat _ _ _ "u" _ _ _ hends with ⟨hnone, -⟩ | ⟨-, hnone⟩
  · exact hpayload hnone
  · rw [hnone] at hcarried
    cases hcarried

end Turn

end HeliosLite
