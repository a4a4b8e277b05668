import HeliosLite.Domain.Conversation
import HeliosLite.Orchestration.ToolCalls
import HeliosLite.Responses.Response
import HeliosLite.Storage.MessageRecord

/-!
# Requests to the Responses API

A context is sent as a list of input items. The reasoning details of a message are put together by
their id, and those with encrypted content are sent again.

## Main definitions

* `mapReasoningDetailsToInputItems` — the reasoning items of some details
* `CreateResponse.fromDomain` — the request for a context

## Main results

* `Sendable.reasoning` — no id and no content that is sent is empty, and no id is sent twice
* `encrypted_replay` — encrypted details with different ids are sent as they are, in their order
* `fromDomain_reasoning` — the reasoning items of every message are sent
-/

namespace HeliosLite

open Serde

/-! ### Input items -/

inductive InputRole where
  | user
  | developer
  | assistant
  deriving DecidableEq, Repr

inductive EasyInputContent where
  | text (text : String)
  | inputImage (imageUrl : String)
  deriving DecidableEq, Repr

structure EasyInputMessage where
  role : InputRole
  content : EasyInputContent
  phase : Option MessagePhase
  deriving DecidableEq, Repr

inductive InputItem where
  | easyMessage (message : EasyInputMessage)
  | reasoning (item : ReasoningItem)
  | functionCall (call : FunctionToolCall)
  | functionCallOutput (callId output : String)
  deriving DecidableEq, Repr

/-- What was found of a reasoning item. -/
structure ReasoningGroup where
  id : String
  encryptedContent : Option String
  summary : List String
  deriving DecidableEq, Repr

namespace ReasoningGroup

/-- The content and the summaries that are not empty are kept; of several contents the last. -/
def addDetail (g : ReasoningGroup) (detail : ReasoningFull) : ReasoningGroup :=
  match detail.typeOf with
  | some "reasoning.encrypted" =>
    { g with encryptedContent := (detail.data.filter (!·.isEmpty)).or g.encryptedContent }
  | some "reasoning.summary" =>
    { g with summary := g.summary ++ (detail.text.filter (!·.isEmpty)).toList }
  | _ => g

/-- A group without content is not sent. -/
def toItem (g : ReasoningGroup) : Option InputItem :=
  g.encryptedContent.map fun encryptedContent =>
    .reasoning
      { id := some g.id
        encryptedContent := some encryptedContent
        content := none
        summary := g.summary }

end ReasoningGroup

/-- The groups in the order in which their ids came first, with a detail added to that of an id. -/
def addToGroup (detail : ReasoningFull) (id : String) : List ReasoningGroup → List ReasoningGroup
  | [] =>
    [ReasoningGroup.addDetail
      { id := id
        encryptedContent := none
        summary := [] } detail]
  | g :: groups =>
    if g.id = id then g.addDetail detail :: groups else g :: addToGroup detail id groups

/-- A detail without an id is skipped. -/
def addReasoningDetail (groups : List ReasoningGroup) (detail : ReasoningFull) :
    List ReasoningGroup :=
  match detail.id.filter (!·.isEmpty) with
  | some id => addToGroup detail id groups
  | none => groups

/-- The reasoning items of some details, put together by id. -/
def mapReasoningDetailsToInputItems (details : List ReasoningFull) : List InputItem :=
  (details.foldl addReasoningDetail []).filterMap ReasoningGroup.toItem

/-! ### What is sent of the reasoning -/

/-- The id and the encrypted content of an item. -/
def InputItem.encrypted : InputItem → Option (String × String)
  | .reasoning item => item.id.bind fun id => item.encryptedContent.map fun data => (id, data)
  | _ => none

/-- The detail with the encrypted content of an item. -/
def ReasoningFull.encrypted (id : Option String) (data : String) : ReasoningFull :=
  { ReasoningFull.default with
    data := some data
    id := id
    typeOf := some "reasoning.encrypted" }

/-- No id twice, and neither an id nor a content is empty. -/
def Sendable (listed : List (String × String)) : Prop :=
  (listed.map Prod.fst).Nodup ∧ ∀ p ∈ listed, p.1 ≠ "" ∧ p.2 ≠ ""

instance (listed : List (String × String)) : Decidable (Sendable listed) :=
  inferInstanceAs (Decidable (_ ∧ _))

theorem Sendable.sublist {listed sent : List (String × String)} (h : Sendable sent)
    (hsub : listed.Sublist sent) : Sendable listed :=
  ⟨h.1.sublist (hsub.map _), fun p hp => h.2 p (hsub.subset hp)⟩

namespace ReasoningGroup

/-- The id and the content of a group that is sent. -/
def encrypted (g : ReasoningGroup) : Option (String × String) :=
  g.encryptedContent.map fun data => (g.id, data)

@[simp] theorem addDetail_id (g : ReasoningGroup) (detail : ReasoningFull) :
    (g.addDetail detail).id = g.id := by
  unfold addDetail
  split <;> rfl

theorem addDetail_encryptedContent {g : ReasoningGroup} {detail : ReasoningFull}
    (hother : detail.typeOf ≠ some "reasoning.encrypted") :
    (g.addDetail detail).encryptedContent = g.encryptedContent := by
  unfold addDetail
  split
  · exact absurd ‹_› hother
  · rfl
  · rfl

/-- A content is kept only if it is not empty. -/
theorem ne_empty_of_addDetail {g : ReasoningGroup} {detail : ReasoningFull} {data : String}
    (hg : ∀ d ∈ g.encryptedContent, d ≠ "") (h : data ∈ (g.addDetail detail).encryptedContent) :
    data ≠ "" := by
  unfold addDetail at h
  split at h
  · rcases Option.or_eq_some_iff.mp h with hnew | ⟨-, hold⟩
    · obtain ⟨-, hne⟩ := Option.filter_eq_some_iff.mp hnew
      rintro rfl
      cases hne
    · exact hg data hold
  · exact hg data h
  · exact hg data h

end ReasoningGroup

section Groups

variable {groups : List ReasoningGroup} {detail : ReasoningFull} {id : String}

theorem filterMap_toItem :
    (groups.filterMap ReasoningGroup.toItem).filterMap InputItem.encrypted =
      groups.filterMap ReasoningGroup.encrypted := by
  rw [List.filterMap_filterMap]
  apply List.filterMap_congr
  intro g _
  cases hcontent : g.encryptedContent <;>
    simp [ReasoningGroup.toItem, ReasoningGroup.encrypted, InputItem.encrypted, hcontent]

/-- A new id comes after the others. -/
theorem addToGroup_of_fresh (hfresh : id ∉ groups.map ReasoningGroup.id) :
    addToGroup detail id groups = groups ++
      [ReasoningGroup.addDetail
        { id := id
          encryptedContent := none
          summary := [] } detail] := by
  induction groups with
  | nil => rfl
  | cons g groups ih =>
    rw [List.map_cons, List.mem_cons, not_or] at hfresh
    obtain ⟨hne, hrest⟩ := hfresh
    rw [addToGroup, if_neg (Ne.symm hne), ih hrest, List.cons_append]

theorem addToGroup_ids :
    (addToGroup detail id groups).map ReasoningGroup.id =
      if id ∈ groups.map ReasoningGroup.id then groups.map ReasoningGroup.id
      else groups.map ReasoningGroup.id ++ [id] := by
  by_cases hmem : id ∈ groups.map ReasoningGroup.id
  · rw [if_pos hmem]
    induction groups with
    | nil => cases hmem
    | cons g groups ih =>
      unfold addToGroup
      split_ifs with hid
      · rw [List.map_cons, List.map_cons, ReasoningGroup.addDetail_id]
      · rw [List.map_cons, List.map_cons, ih]
        exact (List.mem_cons.mp hmem).resolve_left (Ne.symm hid)
  · rw [if_neg hmem, addToGroup_of_fresh hmem, List.map_append, List.map_singleton,
      ReasoningGroup.addDetail_id]

/-- A detail without encrypted content changes nothing of what is encrypted. -/
theorem addReasoningDetail_other (hother : detail.typeOf ≠ some "reasoning.encrypted") :
    (addReasoningDetail groups detail).filterMap ReasoningGroup.encrypted =
      groups.filterMap ReasoningGroup.encrypted := by
  unfold addReasoningDetail
  split
  · rename_i id _
    induction groups with
    | nil => simp [addToGroup, ReasoningGroup.encrypted,
        ReasoningGroup.addDetail_encryptedContent hother]
    | cons g groups ih =>
      unfold addToGroup
      split_ifs
      · simp [List.filterMap_cons, ReasoningGroup.encrypted,
          ReasoningGroup.addDetail_encryptedContent hother]
      · rw [List.filterMap_cons, List.filterMap_cons, ih]
  · rfl

theorem mem_addToGroup {g : ReasoningGroup} (hg : g ∈ addToGroup detail id groups) :
    g ∈ groups ∨ ∃ old, (old ∈ groups ∨ old.encryptedContent = none ∧ old.id = id) ∧
      g = old.addDetail detail := by
  induction groups with
  | nil =>
    obtain rfl := List.mem_singleton.mp hg
    exact .inr ⟨_, .inr ⟨rfl, rfl⟩, rfl⟩
  | cons first groups ih =>
    unfold addToGroup at hg
    split_ifs at hg
    · rcases List.mem_cons.mp hg with rfl | hg
      · exact .inr ⟨first, .inl List.mem_cons_self, rfl⟩
      · exact .inl (List.mem_cons_of_mem _ hg)
    · rcases List.mem_cons.mp hg with rfl | hg
      · exact .inl List.mem_cons_self
      · rcases ih hg with hold | ⟨old, hold, rfl⟩
        · exact .inl (List.mem_cons_of_mem _ hold)
        · exact .inr ⟨old, hold.imp_left (List.mem_cons_of_mem _), rfl⟩

/-- Groups with different ids that are not empty, and with contents that are not empty. -/
def GroupsValid (groups : List ReasoningGroup) : Prop :=
  (groups.map ReasoningGroup.id).Nodup ∧
    ∀ g ∈ groups, g.id ≠ "" ∧ ∀ data ∈ g.encryptedContent, data ≠ ""

theorem GroupsValid.addReasoningDetail (h : GroupsValid groups) (detail : ReasoningFull) :
    GroupsValid (addReasoningDetail groups detail) := by
  unfold HeliosLite.addReasoningDetail
  split
  · rename_i id hid
    have hne : id ≠ "" := by
      obtain ⟨-, hne⟩ := Option.filter_eq_some_iff.mp hid
      rintro rfl
      cases hne
    constructor
    · rw [addToGroup_ids]
      split_ifs with hmem
      · exact h.1
      · exact List.nodup_append.mpr ⟨h.1, List.nodup_singleton _,
          fun a ha b hb => by rintro rfl; exact hmem (List.mem_singleton.mp hb ▸ ha)⟩
    · intro g hg
      rcases mem_addToGroup hg with hold | ⟨old, hold | ⟨hcontent, hold⟩, rfl⟩
      · exact h.2 g hold
      · refine ⟨by rw [ReasoningGroup.addDetail_id]; exact (h.2 old hold).1, ?_⟩
        intro data hdata
        exact ReasoningGroup.ne_empty_of_addDetail (h.2 old hold).2 hdata
      · refine ⟨by rw [ReasoningGroup.addDetail_id, hold]; exact hne, ?_⟩
        intro data hdata
        exact ReasoningGroup.ne_empty_of_addDetail (by simp [hcontent]) hdata
  · exact h

theorem GroupsValid.foldl (h : GroupsValid groups) (details : List ReasoningFull) :
    GroupsValid (details.foldl HeliosLite.addReasoningDetail groups) := by
  induction details generalizing groups with
  | nil => exact h
  | cons detail details ih => exact ih (h.addReasoningDetail detail)

theorem GroupsValid.sendable (h : GroupsValid groups) :
    Sendable (groups.filterMap ReasoningGroup.encrypted) := by
  constructor
  · apply List.Nodup.sublist ?_ h.1
    clear h
    induction groups with
    | nil => exact List.Sublist.slnil
    | cons g groups ih =>
      cases hcontent : g.encryptedContent with
      | none =>
        rw [List.filterMap_cons_none (by simp [ReasoningGroup.encrypted, hcontent])]
        exact ih.cons _
      | some data =>
        rw [List.filterMap_cons_some (b := (g.id, data))
          (by simp [ReasoningGroup.encrypted, hcontent])]
        exact ih.cons_cons _
  · intro p hp
    obtain ⟨g, hg, hsome⟩ := List.mem_filterMap.mp hp
    obtain ⟨data, hdata, rfl⟩ := Option.map_eq_some_iff.mp hsome
    exact ⟨(h.2 g hg).1, (h.2 g hg).2 data hdata⟩

end Groups

/-- No id is sent twice, and neither an id nor a content that is sent is empty. -/
theorem Sendable.reasoning (details : List ReasoningFull) :
    Sendable ((mapReasoningDetailsToInputItems details).filterMap InputItem.encrypted) := by
  rw [mapReasoningDetailsToInputItems, filterMap_toItem]
  have hstart : GroupsValid [] := ⟨List.nodup_nil, by simp⟩
  exact (hstart.foldl details).sendable

/-- Encrypted details, by the id and the content of each. -/
def encryptedDetails (items : List (Option String × String)) : List ReasoningFull :=
  items.map fun p => .encrypted p.1 p.2

/-- The items that have an id. -/
def withIds (items : List (Option String × String)) : List (String × String) :=
  items.filterMap fun p => p.1.map fun id => (id, p.2)

theorem foldl_encryptedDetails {items : List (Option String × String)}
    (h : Sendable (withIds items)) {groups : List ReasoningGroup}
    (hfresh : ∀ p ∈ withIds items, p.1 ∉ groups.map ReasoningGroup.id) :
    ((encryptedDetails items).foldl addReasoningDetail groups).filterMap
        ReasoningGroup.encrypted =
      groups.filterMap ReasoningGroup.encrypted ++ withIds items := by
  induction items generalizing groups with
  | nil => simp [encryptedDetails, withIds]
  | cons item items ih =>
    obtain ⟨id, data⟩ := item
    have hcons : encryptedDetails ((id, data) :: items) =
        .encrypted id data :: encryptedDetails items := rfl
    rw [hcons, List.foldl_cons]
    cases id with
    | none => exact ih h hfresh
    | some id =>
      have hids : withIds ((some id, data) :: items) = (id, data) :: withIds items := rfl
      rw [hids] at h hfresh
      obtain ⟨hnodup, hnonempty⟩ := h
      obtain ⟨hnew, hnodup⟩ := List.nodup_cons.mp hnodup
      obtain ⟨⟨hid, hdata⟩, hrest⟩ := List.forall_mem_cons.mp hnonempty
      obtain ⟨hfirst, hlater⟩ := List.forall_mem_cons.mp hfresh
      have hadd : addReasoningDetail groups (.encrypted (some id) data) =
          groups ++ [{ id := id, encryptedContent := some data, summary := [] }] := by
        have hkept : (some id).filter (!·.isEmpty) = some id := by simp [hid]
        have hcontent : (some data).filter (!·.isEmpty) = some data := by simp [hdata]
        rw [addReasoningDetail]
        simp only [ReasoningFull.encrypted, hkept]
        rw [addToGroup_of_fresh hfirst, ReasoningGroup.addDetail]
        simp only [hcontent, Option.some_or]
      rw [hadd, ih ⟨hnodup, hrest⟩, hids]
      · simp [ReasoningGroup.encrypted]
      · intro p hp hmem
        rw [List.map_append, List.mem_append] at hmem
        rcases hmem with hold | hsame
        · exact hlater p hp hold
        · have hid : p.1 = id := List.mem_singleton.mp hsame
          exact hnew (List.mem_map.mpr ⟨p, hp, hid⟩)

/-- Encrypted details with different ids are sent as they are, whatever other details follow. -/
theorem encrypted_replay {items : List (Option String × String)} (h : Sendable (withIds items))
    {rest : List ReasoningFull} (hrest : ∀ d ∈ rest, d.typeOf ≠ some "reasoning.encrypted") :
    (mapReasoningDetailsToInputItems (encryptedDetails items ++ rest)).filterMap
      InputItem.encrypted = withIds items := by
  rw [mapReasoningDetailsToInputItems, filterMap_toItem, List.foldl_append]
  have hitems := @foldl_encryptedDetails items h [] (by simp)
  generalize (encryptedDetails items).foldl addReasoningDetail [] = groups at hitems
  rw [List.filterMap_nil, List.nil_append] at hitems
  rw [← hitems]
  clear hitems
  induction rest generalizing groups with
  | nil => rfl
  | cons detail rest ih =>
    obtain ⟨hdetail, hrest⟩ := List.forall_mem_cons.mp hrest
    rw [List.foldl_cons, ih hrest, addReasoningDetail_other hdetail]

/-! ### The request -/

/-- The instructions and the items that have been made of some messages. -/
structure CreateResponse where
  instructions : Option String
  input : List InputItem
  maxOutputTokens : Option UInt32
  deriving DecidableEq, Repr

def EasyInputMessage.text (role : InputRole) (content : String) (phase : Option MessagePhase) :
    InputItem :=
  .easyMessage
    { role := role
      content := .text content
      phase := phase }

section FromDomain

variable [Libraries]

/-- The item of a call. It needs an id. -/
def ToolCallFull.toInputItem (call : ToolCallFull) : Except String InputItem :=
  match call.callId with
  | some callId =>
    .ok (.functionCall
      { callId := callId
        name := call.name
        arguments := call.arguments.intoString })
  | none => .error "Tool call is missing call_id; cannot be sent to Responses API"

/-- The items of a message of the assistant: its text, its reasoning and its calls. -/
def TextMessage.assistantItems (message : TextMessage) : Except String (List InputItem) := do
  let text :=
    if (trim message.content).isEmpty then []
    else [EasyInputMessage.text .assistant message.content message.phase]
  let reasoning := mapReasoningDetailsToInputItems (message.reasoningDetails.getD [])
  let calls ← (message.toolCalls.getD []).mapM ToolCallFull.toInputItem
  .ok (text ++ reasoning ++ calls)

/-- The output of a tool is sent as a JSON text, which is that of its record. -/
def ToolResult.toInputItem (result : ToolResult) : Except String InputItem :=
  match result.callId with
  | some callId =>
    .ok (.functionCallOutput callId (toText (ToolOutputRecord.from result.output).serialize))
  | none => .error "Tool result is missing call_id; cannot be sent to Responses API"

namespace CreateResponse

/-- The first system message gives the instructions. -/
def addMessage (r : CreateResponse) : ContextMessage → Except String CreateResponse
  | .text message =>
    match message.role with
    | .system =>
      match r.instructions with
      | none => .ok { r with instructions := some message.content }
      | some _ =>
        .ok { r with input := r.input ++ [EasyInputMessage.text .developer message.content none] }
    | .user => .ok { r with input := r.input ++ [EasyInputMessage.text .user message.content none] }
    | .assistant => message.assistantItems.map fun items => { r with input := r.input ++ items }
    | .tool => .error "Tool text messages should use a tool result item"
  | .tool result => result.toInputItem.map fun item => { r with input := r.input ++ [item] }
  | .image img =>
    .ok { r with input := r.input ++ [.easyMessage
      { role := .user
        content := .inputImage img.url
        phase := none }] }

/-- The request for a context, as far as its messages and its bound of tokens go. -/
def fromDomain (context : Context) : Except String CreateResponse := do
  let r ← context.messages.foldlM (fun r entry => addMessage r entry.message)
    { instructions := none
      input := []
      maxOutputTokens := none }
  match context.maxTokens with
  | none => .ok r
  | some tokens =>
    if tokens.toNat < 2 ^ 32 then .ok { r with maxOutputTokens := some tokens.toUInt32 }
    else .error "max_tokens must fit into u32"

/-- An assistant's message adds its items. -/
theorem addMessage_assistant {r after : CreateResponse} {message : TextMessage}
    (hrole : message.role = .assistant) (h : addMessage r (.text message) = .ok after) :
    ∃ items, message.assistantItems = .ok items ∧ after.input = r.input ++ items := by
  rw [addMessage, hrole] at h
  cases hitems : message.assistantItems with
  | error e =>
    rw [hitems] at h
    cases h
  | ok items =>
    rw [hitems] at h
    cases h
    exact ⟨items, rfl, rfl⟩

/-- A message leaves the items before it. -/
theorem addMessage_keeps {r after : CreateResponse} {message : ContextMessage}
    (h : addMessage r message = .ok after) : r.input <+: after.input := by
  unfold addMessage at h
  split at h
  · rename_i message
    split at h
    · split at h <;> cases h
      · exact List.prefix_refl _
      · exact List.prefix_append _ _
    · cases h
      exact List.prefix_append _ _
    · cases hitems : message.assistantItems <;> rw [hitems] at h <;> cases h
      exact List.prefix_append _ _
    · cases h
  · rename_i result
    cases hitem : result.toInputItem <;> rw [hitem] at h <;> cases h
    exact List.prefix_append _ _
  · cases h
    exact List.prefix_append _ _

theorem foldlM_keeps {r after : CreateResponse} {entries : List MessageEntry}
    (h : entries.foldlM (fun r entry => addMessage r entry.message) r = .ok after) :
    r.input <+: after.input := by
  induction entries generalizing r with
  | nil =>
    cases h
    exact List.prefix_refl _
  | cons entry entries ih =>
    rw [List.foldlM_cons] at h
    cases hnext : addMessage r entry.message with
    | error e =>
      rw [hnext] at h
      cases h
    | ok next =>
      rw [hnext] at h
      exact (addMessage_keeps hnext).trans (ih h)

/-- The items of an assistant's message are among those of the request. -/
theorem assistantItems_sublist {r after : CreateResponse} {entries : List MessageEntry}
    (h : entries.foldlM (fun r entry => addMessage r entry.message) r = .ok after)
    {entry : MessageEntry} (hentry : entry ∈ entries) {message : TextMessage}
    (hmessage : entry.message = .text message) (hrole : message.role = .assistant) :
    ∃ items, message.assistantItems = .ok items ∧ items.Sublist after.input := by
  induction entries generalizing r with
  | nil => cases hentry
  | cons first entries ih =>
    rw [List.foldlM_cons] at h
    cases hnext : addMessage r first.message with
    | error e =>
      rw [hnext] at h
      cases h
    | ok next =>
      rw [hnext] at h
      rcases List.mem_cons.mp hentry with rfl | hentry
      · rw [hmessage] at hnext
        obtain ⟨items, hitems, hinput⟩ := addMessage_assistant hrole hnext
        refine ⟨items, hitems, ?_⟩
        have hkept := foldlM_keeps h
        rw [hinput] at hkept
        exact (List.sublist_append_right _ _).trans hkept.sublist
      · exact ih h hentry

/-- The limit of the tokens leaves the items as they are. -/
theorem fromDomain_input {context : Context} {request : CreateResponse}
    (h : fromDomain context = .ok request) :
    ∃ r, context.messages.foldlM (fun r entry => addMessage r entry.message)
        { instructions := none
          input := []
          maxOutputTokens := none } = .ok r ∧ request.input = r.input := by
  unfold fromDomain at h
  cases hloop : context.messages.foldlM (fun r entry => addMessage r entry.message)
      { instructions := none
        input := []
        maxOutputTokens := none } with
  | error e =>
    rw [hloop] at h
    cases h
  | ok r =>
    refine ⟨r, rfl, ?_⟩
    rw [hloop] at h
    cases htokens : context.maxTokens with
    | none =>
      simp only [htokens] at h
      cases h
      rfl
    | some tokens =>
      simp only [htokens] at h
      change (if _ then _ else _) = _ at h
      split_ifs at h
      rw [← Except.ok.inj h]

/-- The reasoning of every message of the assistant is sent. -/
theorem fromDomain_reasoning {context : Context} {request : CreateResponse}
    (h : fromDomain context = .ok request) {entry : MessageEntry}
    (hentry : entry ∈ context.messages) {message : TextMessage}
    (hmessage : entry.message = .text message) (hrole : message.role = .assistant) :
    (mapReasoningDetailsToInputItems (message.reasoningDetails.getD [])).Sublist
      request.input := by
  obtain ⟨r, hloop, hinput⟩ := fromDomain_input h
  obtain ⟨items, hitems, hsub⟩ := assistantItems_sublist hloop hentry hmessage hrole
  rw [hinput]
  refine .trans ?_ hsub
  unfold TextMessage.assistantItems at hitems
  cases hcalls : (message.toolCalls.getD []).mapM ToolCallFull.toInputItem with
  | error e =>
    rw [hcalls] at hitems
    cases hitems
  | ok calls =>
    rw [hcalls] at hitems
    rw [← Except.ok.inj hitems]
    exact (List.sublist_append_right _ _).trans (List.sublist_append_left _ _)

end CreateResponse

end FromDomain

end HeliosLite
