import HeliosLite.Storage.Mutation
import HeliosLite.Storage.Reference

/-!
# Saving a conversation and loading it again

A conversation is saved by the repository or by the daemon, and loaded from the row that
this leaves. The repository leaves out the parent, and what a message loses is said message
by message. The daemon writes the parent, but its metrics are not read back.

## Main definitions

* `MessageEntry.compared` — a message, its tool call arguments compared as parsed JSON
* `MessageEntry.Storable` — a message that loses nothing
* `ConversationRecord.written` — the row that an upsert leaves
* `Store.SavedWhole`, `Store.SavedAlike` — a conversation is loaded as it was saved, and is
  loaded alike whoever saves it

## Main results

* `compared_reloaded_iff` — the messages that come back
* `savedWhole_iff`, `savedAlike_iff` — the conversations
* `Greeting.parent_lost`, `Greeting.metrics_differ` — a parent and metrics that are lost
-/

namespace HeliosLite

open Serde Serde.Json Theory

theorem map_some_ok {α : Type*} {result : Except String α} {a : α}
    (h : result.map some = .ok (some a)) : result = .ok a := by
  cases result with
  | error e => cases h
  | ok b => exact congrArg Except.ok (Option.some.inj (Except.ok.inj h))

/-! ### Images -/

/-- The image is given by its data. -/
def Image.isBase64 (image : Image) : Bool :=
  ("data:" ++ image.mimeType ++ ";base64,").toList.isPrefixOf image.url.toList

/-- Images come back as they were if they are given by their data. -/
theorem Image.reloaded_eq_iff (image : Image) : image.reloaded = image ↔ image.isBase64 = true := by
  obtain ⟨url, mimeType⟩ := image
  let start := "data:" ++ mimeType ++ ";base64,"
  have hreloaded : (Image.mk url mimeType).reloaded = ⟨start ++
      if start.toList.isPrefixOf url.toList = true then
        String.ofList (url.toList.drop start.toList.length) else url, mimeType⟩ := rfl
  by_cases h : start.toList.isPrefixOf url.toList = true
  · refine iff_of_true ?_ h
    obtain ⟨rest, hrest⟩ := List.isPrefixOf_iff_prefix.mp h
    have hurl : start ++ String.ofList (url.toList.drop start.toList.length) = url := by
      rw [← hrest, List.drop_left, ← String.toList_inj, String.toList_append,
        String.toList_ofList, hrest]
    rw [hreloaded, if_pos h, hurl]
  · refine iff_of_false ?_ h
    intro hsame
    rw [hreloaded, if_neg h] at hsame
    -- the URL cannot be longer than itself
    have hlength : (start ++ url).length = url.length :=
      congrArg (fun image : Image => image.url.length) hsame
    have hstart : start.length = 5 + mimeType.length + 8 := by
      simp only [start, String.length_append]
      rfl
    rw [String.length_append] at hlength
    omega

def ToolValue.Storable : ToolValue → Prop
  | .image img => img.isBase64 = true
  | _ => True

theorem ToolValue.reloaded_eq_iff (value : ToolValue) :
    value.reloaded = value ↔ value.Storable := by
  cases value with
  | image img => simp [ToolValue.reloaded, ToolValue.Storable, Image.reloaded_eq_iff]
  | text _ | ai _ _ | empty => exact iff_of_true rfl trivial

theorem map_eq_self_iff {α : Type*} {f : α → α} {l : List α} :
    l.map f = l ↔ ∀ a ∈ l, f a = a := by
  conv_lhs => rhs; rw [← List.map_id l]
  exact List.map_inj_left

/-! ### Metrics -/

/-- Metrics come back as they were if no todos are lost, and no file counts as accessed that
did not. -/
theorem Metrics.reloaded_eq_iff (metrics : Metrics) : metrics.reloaded = metrics ↔
    metrics.todos = [] ∧ (metrics.filesAccessed = StringMap.empty →
      Metrics.filesRead metrics.fileOperations = StringMap.empty) := by
  obtain ⟨startedAt, fileOperations, filesAccessed, todos⟩ := metrics
  have haccessed : (if filesAccessed.isEmpty then filesRead fileOperations else filesAccessed)
      = filesAccessed ↔ (filesAccessed = StringMap.empty →
        filesRead fileOperations = StringMap.empty) := by
    split_ifs with hempty
    · obtain rfl := StringMap.isEmpty_iff.mp hempty
      simp
    · exact iff_of_true rfl fun h => absurd (StringMap.isEmpty_iff.mpr h) hempty
  rw [← haccessed]
  simp [Metrics.reloaded, and_comm, eq_comm (a := [])]

/-- The metrics of a session in which nothing was done but todos. -/
def Metrics.StartedOnly (metrics : Metrics) (startedAt : DateTime) : Prop :=
  metrics.startedAt = some startedAt ∧ metrics.fileOperations = StringMap.empty ∧
    metrics.filesAccessed = StringMap.empty

theorem Metrics.reloaded_eq_started_iff (metrics : Metrics) (t : DateTime) :
    metrics.reloaded = { Metrics.default with startedAt := some t } ↔ metrics.StartedOnly t := by
  obtain ⟨startedAt, fileOperations, filesAccessed, todos⟩ := metrics
  have haccessed : fileOperations = StringMap.empty →
      ((if filesAccessed.isEmpty then filesRead fileOperations else filesAccessed)
        = StringMap.empty ↔ filesAccessed = StringMap.empty) := by
    rintro rfl
    split_ifs with hempty
    · exact iff_of_true rfl (StringMap.isEmpty_iff.mp hempty)
    · exact Iff.rfl
  simp only [Metrics.reloaded, Metrics.default, Metrics.StartedOnly, Metrics.mk.injEq, and_true]
  exact and_congr_right fun _ => and_congr_right haccessed

/-- A conversation with a message has a context that is not blank. -/
theorem Conversation.exists_context {c : Conversation} (h : c.messages ≠ []) :
    ∃ context, c.context = some context ∧ context.messages = c.messages ∧ ¬context.isBlank := by
  obtain ⟨id, title, context, metrics, metadata, parentId, source, cwd, messageCount⟩ := c
  cases context with
  | none => exact absurd rfl h
  | some context =>
    refine ⟨context, rfl, rfl, ?_⟩
    have hempty : context.messages.isEmpty = false := by simpa [Conversation.messages] using h
    simp [Context.isBlank, hempty]

theorem Conversation.filter_not_isBlank {c : Conversation} (h : c.messages ≠ []) :
    (c.context.filter fun context => !context.isBlank) = c.context := by
  obtain ⟨context, hcontext, -, hblank⟩ := Conversation.exists_context h
  simp [hcontext, hblank]

variable [Libraries]

/-! ### Messages -/

namespace ToolCallArguments

/-- The arguments as parsed JSON; all texts that do not parse are alike. -/
def compared (arguments : ToolCallArguments) : ToolCallArguments :=
  match arguments.parse with
  | some value => .parsed value
  | none => .unparsed ""

/-- The arguments parse to the same JSON after they were stored. Stored strings are taken for
JSON text, and a text that is JSON is stored as its value. -/
def Stable : ToolCallArguments → Prop
  | .parsed value =>
    match value.val with
    | .str text => Libraries.jsonRepair text = some value
    | _ => value.reloaded = value
  | .unparsed json =>
    JsonText.isRaw json = true →
      match (fromText json).map Json.value with
      | none => Libraries.jsonRepair json = some Json.null.value
      | some value =>
        match value.val with
        | .str text => Libraries.jsonRepair text = Libraries.jsonRepair json
        | _ => Libraries.jsonRepair json = some value.reloaded

theorem compared_eq_iff {a b : ToolCallArguments} :
    a.compared = b.compared ↔ a.parse = b.parse := by
  unfold compared
  cases ha : a.parse with
  | none => cases hb : b.parse <;> simp
  | some v => cases hb : b.parse <;> simp

theorem parse_fromValue_str {value : Value} {text : String} (h : value.val = .str text) :
    (fromValue value).parse = Libraries.jsonRepair text := by
  rw [fromValue, h]
  simp only
  cases hrepair : Libraries.jsonRepair text with
  | none => exact hrepair
  | some repaired => rfl

theorem parse_fromValue {value : Value} (h : ∀ text, value.val ≠ .str text) :
    (fromValue value).parse = some value := by
  rw [fromValue]
  cases hvalue : value.val with
  | str text => exact absurd hvalue (h text)
  | null | bool _ | int _ | float _ | arr _ | obj _ => rfl

/-- Reading a document back does not make a string of anything else. -/
theorem reloaded_str_iff {value : Value} {text : String} :
    value.reloaded.val = .str text ↔ value.val = .str text := by
  change value.val.reparsed = .str text ↔ _
  cases value.val <;> simp [reparsed, mapFloat]

/-- What is parsed of a stored value. -/
theorem parse_fromValue_reloaded (value : Value) :
    (fromValue value.reloaded).parse = match value.val with
      | .str text => Libraries.jsonRepair text
      | _ => some value.reloaded := by
  cases hvalue : value.val with
  | str text => exact parse_fromValue_str (reloaded_str_iff.mpr hvalue)
  | null | bool _ | int _ | float _ | arr _ | obj _ =>
    apply parse_fromValue
    intro text htext
    rw [reloaded_str_iff, hvalue] at htext
    cases htext

theorem compared_reloaded_iff (arguments : ToolCallArguments) :
    arguments.reloaded.compared = arguments.compared ↔ arguments.Stable := by
  rw [compared_eq_iff, reloaded, parse_fromValue_reloaded]
  cases arguments with
  | parsed value =>
    simp only [toValue, Option.getD_some, parse, Stable]
    cases value.val <;> simp
  | unparsed json =>
    simp only [toValue, parse, Stable]
    split_ifs with hraw
    · cases hvalue : (fromText json).map Json.value with
      | none =>
        simp only [hraw, forall_const]
        exact ⟨Eq.symm, Eq.symm⟩
      | some value =>
        simp only [hraw, Option.getD_some, forall_const]
        cases value.val with
        | str text => exact Iff.rfl
        | null | bool _ | int _ | float _ | arr _ | obj _ => exact ⟨Eq.symm, Eq.symm⟩
    · -- any other text is stored as a string, and read back as the same text
      exact iff_of_true rfl fun h => absurd h hraw

end ToolCallArguments

def ToolCallFull.compared (call : ToolCallFull) : ToolCallFull :=
  { call with arguments := call.arguments.compared }

def TextMessage.compared (message : TextMessage) : TextMessage :=
  { message with toolCalls := message.toolCalls.map fun calls => calls.map ToolCallFull.compared }

def ContextMessage.compared : ContextMessage → ContextMessage
  | .text message => .text message.compared
  | message => message

/-- The message, its tool call arguments compared as parsed JSON. -/
def MessageEntry.compared (entry : MessageEntry) : MessageEntry :=
  { entry with message := entry.message.compared }

/-- Nothing of the message is lost: it has no phase, its images are given by their data, and
its arguments are stable. -/
def ContextMessage.Storable : ContextMessage → Prop
  | .text message =>
    message.phase = none ∧ ∀ call ∈ message.toolCalls.getD [], call.arguments.Stable
  | .tool result => ∀ value ∈ result.output.values, value.Storable
  | .image img => img.isBase64 = true

/-- Nothing of the message or of its cost is lost. -/
def MessageEntry.Storable (entry : MessageEntry) : Prop :=
  entry.message.Storable ∧
    ∀ usage ∈ entry.usage, ∀ cost ∈ usage.cost, rereadF64 cost = some cost

theorem ToolCallFull.compared_reloaded_iff (call : ToolCallFull) :
    call.reloaded.compared = call.compared ↔ call.arguments.Stable := by
  rw [← ToolCallArguments.compared_reloaded_iff]
  obtain ⟨name, callId, arguments, thoughtSignature⟩ := call
  simp [ToolCallFull.compared, ToolCallFull.reloaded]

theorem TextMessage.compared_reloaded_iff (message : TextMessage) :
    message.reloaded.compared = message.compared ↔
      message.phase = none ∧ ∀ call ∈ message.toolCalls.getD [], call.arguments.Stable := by
  obtain ⟨role, content, rawContent, toolCalls, thoughtSignature, model, details, droppable,
    phase⟩ := message
  cases toolCalls with
  | none => simp [TextMessage.compared, TextMessage.reloaded, eq_comm]
  | some calls =>
    simp [TextMessage.compared, TextMessage.reloaded, ← ToolCallFull.compared_reloaded_iff,
      eq_comm (a := none), and_comm]

theorem ContextMessage.compared_reloaded_iff (message : ContextMessage) :
    message.reloaded.compared = message.compared ↔ message.Storable := by
  cases message with
  | text message =>
    simp [ContextMessage.reloaded, ContextMessage.compared, ContextMessage.Storable,
      TextMessage.compared_reloaded_iff]
  | tool result =>
    obtain ⟨name, callId, isError, values⟩ := result
    simp [ContextMessage.reloaded, ContextMessage.compared, ContextMessage.Storable,
      ToolResult.reloaded, map_eq_self_iff, ToolValue.reloaded_eq_iff]
  | image img =>
    simp [ContextMessage.reloaded, ContextMessage.compared, ContextMessage.Storable,
      Image.reloaded_eq_iff]

theorem Usage.reloaded_eq_iff (usage : Usage) :
    usage.reloaded = usage ↔ ∀ cost ∈ usage.cost, rereadF64 cost = some cost := by
  obtain ⟨promptTokens, completionTokens, totalTokens, cachedTokens, cost⟩ := usage
  cases cost with
  | none => simp [Usage.reloaded]
  | some cost => simp [Usage.reloaded]

theorem MessageEntry.compared_reloaded_iff (entry : MessageEntry) :
    entry.reloaded.compared = entry.compared ↔ entry.Storable := by
  obtain ⟨message, usage⟩ := entry
  have husage : usage.map Usage.reloaded = usage ↔
      ∀ u ∈ usage, ∀ cost ∈ u.cost, rereadF64 cost = some cost := by
    cases usage with
    | none => simp
    | some usage => simp [Usage.reloaded_eq_iff]
  rw [MessageEntry.Storable, ← ContextMessage.compared_reloaded_iff, ← husage]
  simp [MessageEntry.reloaded, MessageEntry.compared]

/-! ### Rows -/

namespace ConversationRecord

/-- The row that an upsert leaves: the new one, or an old one with the columns of the update
set. -/
def written (new : ConversationRecord) (old : Option ConversationRecord) : ConversationRecord :=
  old.elim new new.onConflict

variable {new : ConversationRecord} {old : Option ConversationRecord}

@[simp] theorem title_written : (new.written old).title = new.title := by cases old <;> rfl

@[simp] theorem parentId_written : (new.written old).parentId = new.parentId := by
  cases old <;> rfl

@[simp] theorem metrics_written : (new.written old).metrics = new.metrics := by cases old <;> rfl

theorem HoldsContext.written {encoded : EncodedContext} (h : new.HoldsContext encoded)
    (old : Option ConversationRecord) :
    (new.written old).HoldsContext encoded := by
  cases old with
  | none => exact h
  | some old => exact h

theorem conversationId_written (new : ConversationRecord)
    (h : ∀ r ∈ old, r.conversationId = new.conversationId) :
    (new.written old).conversationId = new.conversationId := by
  cases old with
  | none => rfl
  | some old => exact h old rfl

/-- What is loaded of a row with the context of a conversation. -/
theorem tryInto_eq {r : ConversationRecord} {c : Conversation} {now : DateTime}
    (hid : r.conversationId = c.id.intoString)
    (hholds : r.HoldsContext (encodeContext c.context now))
    (hshallow : ∀ context ∈ c.context, ¬context.isBlank → context.Shallow) :
    r.tryInto = .ok
      { id := c.id
        title := r.title
        context := (c.context.filter fun context => !context.isBlank).map Context.reloaded
        metrics := r.readMetrics
        metadata := { createdAt := r.createdAt.time, updatedAt := r.updatedAt.map (·.time) }
        parentId := r.parentId.bind ConversationId.parse
        source := none
        cwd := none
        messageCount := none } := by
  rw [tryInto, hid, ConversationId.parse_intoString, readContext_encodeContext hholds hshallow]
  rfl

theorem tryInto_deep {r : ConversationRecord} {c : Conversation} {context : Context}
    {now : DateTime} (hcontext : c.context = some context)
    (hholds : r.HoldsContext (encodeContext c.context now)) (hblank : ¬context.isBlank)
    (hdeep : ¬context.Shallow) (k : Conversation) : r.tryInto ≠ .ok k := by
  rw [hcontext] at hholds
  obtain ⟨e, he⟩ := readContext_deep hholds hblank hdeep
  rw [tryInto, he]
  cases ConversationId.parse r.conversationId with
  | none => nofun
  | some id => nofun

/-- What a row that loads says of the parent and the metrics. -/
theorem of_tryInto {r : ConversationRecord} {k : Conversation} (h : r.tryInto = .ok k) :
    k.parentId = r.parentId.bind ConversationId.parse ∧ k.metrics = r.readMetrics := by
  rw [tryInto] at h
  cases hid : ConversationId.parse r.conversationId with
  | none => rw [hid] at h; cases h
  | some id =>
    rw [hid] at h
    cases hcontext : r.readContext with
    | error e => simp [hcontext, bind, Except.bind] at h
    | ok context =>
      simp only [hcontext, bind, Except.bind] at h
      obtain rfl := Except.ok.inj h
      exact ⟨rfl, rfl⟩

end ConversationRecord

namespace Store

variable {s : Store} {wid : WorkspaceHash} {c : Conversation} {now now' : DateTime}

theorem conversationId_of_find? {id : String} :
    ∀ r ∈ s.conversations.find? id, r.conversationId = id :=
  fun _ hr => (Table.find?_eq_some_iff.mp hr).2

theorem find?_update_onConflict {t : Table ConversationRecord.conversationId} {id : String}
    {p : ConversationRecord → Bool} {new old : ConversationRecord}
    (hf : ∀ r, (new.onConflict r).conversationId = r.conversationId)
    (hfind : t.find? id = some old) (hp : p old = true) :
    (t.update p new.onConflict hf).find? id = some (new.written (some old)) := by
  rw [Table.find?_update, hfind, Option.map_some, if_pos hp]
  rfl

/-- The row that the repository's upsert leaves. -/
theorem findOwned_upsertConversation (now : DateTime)
    (hvalid : s.validateLocalMutation c.id.intoString wid.column = .ok ()) :
    ∃ s', s.upsertConversation wid c now = .ok s' ∧
      s'.findOwned c.id.intoString wid.column = some
        ((ConversationRecord.new c wid now).written
          (s.conversations.find? c.id.intoString)) := by
  have hscope : (ConversationRecord.new c wid now).workspaceId = some wid.column := rfl
  rcases upsertLocalConversationRecord_of_valid hscope hvalid with
    ⟨hnone, hok⟩ | ⟨old, hold, hok⟩
  · refine ⟨_, hok, findOwned_eq_some_iff.mpr ⟨?_, ?_⟩⟩
    · have hfind : s.conversations.find? c.id.intoString = none := hnone
      rw [hfind, Table.find?_insert]
      exact if_pos rfl
    · have hfind : s.conversations.find? c.id.intoString = none := hnone
      rw [hfind]
      rfl
  · refine ⟨_, hok, ?_⟩
    obtain ⟨hfind, howner⟩ := findOwned_eq_some_iff.mp hold
    have hfind' : s.conversations.find? c.id.intoString = some old := hfind
    have howned : ConversationRecord.isOwned c.id.intoString wid.column old = true :=
      isOwned_iff.mpr ⟨howner, conversationId_of_find? old hfind'⟩
    apply findOwned_eq_some_iff.mpr
    rw [hfind']
    constructor
    · exact find?_update_onConflict (fun _ => rfl) hfind' howned
    · exact howner

/-- The row that the daemon's upsert leaves. -/
theorem find?_daemonUpsert (s : Store) (wid : WorkspaceHash) (now : DateTime)
    (hvalue : c.toValueSucceeds = true) :
    ∃ s', DbServer.upsertConversation s c wid.column now = some s' ∧
      s'.conversations.find? c.id.intoString = some
        ((DbServer.newRow c wid.column now).written
          (s.conversations.find? c.id.intoString)) := by
  rcases daemon_upsertConversation_cases s wid.column now hvalue with
    ⟨hnone, hsome⟩ | ⟨old, hfind, hsome⟩
  · refine ⟨_, hsome, ?_⟩
    have hfind : s.conversations.find? c.id.intoString = none := hnone
    rw [hfind, Table.find?_insert]
    exact if_pos rfl
  · refine ⟨_, hsome, ?_⟩
    have hid : (old.conversationId == c.id.intoString) = true :=
      beq_iff_eq.mpr (conversationId_of_find? old hfind)
    rw [hfind]
    exact find?_update_onConflict (fun _ => rfl) hfind hid

/-- The time at which the row of the conversation was created, or will be. -/
def createdAt (s : Store) (c : Conversation) : DateTime :=
  match s.conversations.find? c.id.intoString with
  | some old => old.createdAt.time
  | none => c.metadata.createdAt

/-- The conversation is saved by the repository, and loaded as it was saved. -/
def SavedWhole (s : Store) (wid : WorkspaceHash) (c : Conversation) (now : DateTime) : Prop :=
  ∃ s' k, s.upsertConversation wid c now = .ok s' ∧ s'.getConversation wid c.id = .ok (some k) ∧
    k.title = c.title ∧ k.parentId = c.parentId ∧
    k.messages.map MessageEntry.compared = c.messages.map MessageEntry.compared ∧
    k.metrics = c.metrics

/-- The conversation is saved by the repository and by the daemon, and the rows that they leave
load alike. -/
def SavedAlike (s : Store) (wid : WorkspaceHash) (c : Conversation) (now now' : DateTime) :
    Prop :=
  ∃ s₁ s₂ r₁ r₂ k₁ k₂,
    s.upsertConversation wid c now = .ok s₁ ∧
    DbServer.upsertConversation s c wid.column now' = some s₂ ∧
    s₁.conversations.find? c.id.intoString = some r₁ ∧
    s₂.conversations.find? c.id.intoString = some r₂ ∧
    r₁.tryInto = .ok k₁ ∧ r₂.tryInto = .ok k₂ ∧
    k₁.title = k₂.title ∧ k₁.parentId = k₂.parentId ∧ k₁.context = k₂.context ∧
    k₁.metrics = k₂.metrics

/-- The repository loads the row that its upsert leaves. -/
theorem getConversation_of_findOwned {r : ConversationRecord}
    (h : s.findOwned c.id.intoString wid.column = some r) :
    s.getConversation wid c.id = r.tryInto.map some := by
  rw [getConversation, visibleRow, h, Option.some_or]

/-- A conversation that the repository saved is loaded without a parent. -/
theorem parentId_of_upsertConversation {s' : Store} {k : Conversation}
    (hs' : s.upsertConversation wid c now = .ok s')
    (hk : s'.getConversation wid c.id = .ok (some k)) : k.parentId = none := by
  obtain ⟨s'', hs'', hr⟩ :=
    findOwned_upsertConversation now (upsertLocalConversationRecord_ok rfl hs')
  obtain rfl := Except.ok.inj (hs'.symm.trans hs'')
  rw [getConversation_of_findOwned hr] at hk
  rw [(ConversationRecord.of_tryInto (map_some_ok hk)).1, ConversationRecord.parentId_written]
  rfl

/-- What the repository loads of a conversation that it saved. -/
def reloaded (c : Conversation) (r : ConversationRecord) : Conversation :=
  { id := c.id
    title := c.title
    context := c.context.map Context.reloaded
    metrics := c.metrics.reloaded
    metadata := { createdAt := r.createdAt.time, updatedAt := r.updatedAt.map (·.time) }
    parentId := none
    source := none
    cwd := none
    messageCount := none }

theorem parse_map_intoString (id : Option ConversationId) :
    (id.map (·.intoString)).bind ConversationId.parse = id := by
  cases id <;> simp

theorem readMetrics_new_written (c : Conversation) (wid : WorkspaceHash) (now : DateTime)
    (old : Option ConversationRecord) :
    ((ConversationRecord.new c wid now).written old).readMetrics = c.metrics.reloaded :=
  ConversationRecord.readMetrics_serialize ConversationRecord.metrics_written

theorem readMetrics_newRow_written (c : Conversation) (w : Int64) (now : DateTime)
    (old : Option ConversationRecord) :
    ((DbServer.newRow c w now).written old).readMetrics =
      { Metrics.default with
        startedAt := some ((DbServer.newRow c w now).written old).createdAt.time } :=
  ConversationRecord.readMetrics_domain ConversationRecord.metrics_written

theorem tryInto_new_written (wid : WorkspaceHash) (now : DateTime)
    {old : Option ConversationRecord} (hmessages : c.messages ≠ [])
    (hold : ∀ r ∈ old, r.conversationId = c.id.intoString)
    (hshallow : ∀ context ∈ c.context, context.Shallow) :
    ((ConversationRecord.new c wid now).written old).tryInto = .ok
      (reloaded c ((ConversationRecord.new c wid now).written old)) := by
  have hid := ConversationRecord.conversationId_written (.new c wid now) hold
  have hholds := (holdsContext_new c wid now).written old
  have hmetrics := readMetrics_new_written c wid now old
  rw [ConversationRecord.tryInto_eq hid hholds fun context hcontext _ =>
    hshallow context hcontext]
  simp only [ConversationRecord.title_written, ConversationRecord.parentId_written, hmetrics,
    Conversation.filter_not_isBlank hmessages]
  rfl

/-- What is loaded of a conversation that the daemon saved. -/
def daemonReloaded (c : Conversation) (r : ConversationRecord) : Conversation :=
  { reloaded c r with
    metrics := { Metrics.default with startedAt := some r.createdAt.time }
    parentId := c.parentId }

theorem tryInto_newRow_written (w : Int64) (now : DateTime) {old : Option ConversationRecord}
    (hmessages : c.messages ≠ []) (hold : ∀ r ∈ old, r.conversationId = c.id.intoString)
    (hshallow : ∀ context ∈ c.context, context.Shallow) :
    ((DbServer.newRow c w now).written old).tryInto = .ok
      (daemonReloaded c ((DbServer.newRow c w now).written old)) := by
  have hid := ConversationRecord.conversationId_written (DbServer.newRow c w now) hold
  have hholds := (holdsContext_newRow c w now).written old
  have hmetrics := readMetrics_newRow_written c w now old
  rw [ConversationRecord.tryInto_eq hid hholds fun context hcontext _ =>
    hshallow context hcontext]
  simp only [ConversationRecord.title_written, ConversationRecord.parentId_written, hmetrics,
    Conversation.filter_not_isBlank hmessages]
  simp only [DbServer.newRow, parse_map_intoString]
  rfl

/-- The row that the daemon leaves was created when its conversation was, or its old row. -/
theorem createdAt_newRow_written (w : Int64) (now : DateTime) :
    ((DbServer.newRow c w now).written (s.conversations.find? c.id.intoString)).createdAt.time
      = s.createdAt c := by
  rw [createdAt]
  cases s.conversations.find? c.id.intoString with
  | none => rfl
  | some old => rfl

theorem savedWhole_iff (hmessages : c.messages ≠ []) : s.SavedWhole wid c now ↔
    s.validateLocalMutation c.id.intoString wid.column = .ok () ∧
    c.parentId = none ∧
    (∀ context ∈ c.context, context.Shallow) ∧
    (∀ entry ∈ c.messages, entry.Storable) ∧
    c.metrics.todos = [] ∧ (c.metrics.filesAccessed = StringMap.empty →
      Metrics.filesRead c.metrics.fileOperations = StringMap.empty) := by
  obtain ⟨context, hcontext, hmessage, hblank⟩ := Conversation.exists_context hmessages
  by_cases hvalid : s.validateLocalMutation c.id.intoString wid.column = .ok ()
  · obtain ⟨s', hs', hr⟩ := findOwned_upsertConversation now hvalid
    let r := (ConversationRecord.new c wid now).written (s.conversations.find? c.id.intoString)
    have hget : s'.getConversation wid c.id = r.tryInto.map some := getConversation_of_findOwned hr
    by_cases hshallow : context.Shallow
    · have hall : ∀ context ∈ c.context, context.Shallow := by simpa [hcontext] using hshallow
      have hload : r.tryInto = .ok (reloaded c r) :=
        tryInto_new_written wid now hmessages conversationId_of_find? hall
      rw [hload] at hget
      have hcompared : (reloaded c r).messages.map MessageEntry.compared
          = c.messages.map MessageEntry.compared ↔ ∀ entry ∈ c.messages, entry.Storable := by
        have hreloaded : (reloaded c r).messages = c.messages.map MessageEntry.reloaded := by
          simp [reloaded, Conversation.messages, hcontext, Context.reloaded]
        rw [hreloaded, List.map_map, List.map_inj_left]
        exact forall₂_congr fun entry _ => MessageEntry.compared_reloaded_iff entry
      rw [← Metrics.reloaded_eq_iff, ← hcompared]
      constructor
      · rintro ⟨s'', k, hs'', hk, -, hparent, hmessages, hmetrics⟩
        obtain rfl := Except.ok.inj (hs'.symm.trans hs'')
        obtain rfl := Option.some.inj (Except.ok.inj (hget.symm.trans hk))
        exact ⟨hvalid, hparent.symm, hall, hmessages, hmetrics⟩
      · rintro ⟨-, hparent, -, hmessages, hmetrics⟩
        exact ⟨s', _, hs', hget, rfl, hparent.symm, hmessages, hmetrics⟩
    · refine iff_of_false ?_ fun h => hshallow (h.2.2.1 context hcontext)
      rintro ⟨s'', k, hs'', hk, -⟩
      obtain rfl := Except.ok.inj (hs'.symm.trans hs'')
      have hdeep : r.tryInto ≠ .ok k :=
        ConversationRecord.tryInto_deep hcontext ((holdsContext_new c wid now).written _) hblank
          hshallow k
      exact hdeep (map_some_ok (hget.symm.trans hk))
  · refine iff_of_false ?_ fun h => hvalid h.1
    rintro ⟨s', k, hs', -⟩
    exact hvalid (upsertLocalConversationRecord_ok rfl hs')

/-- Only a conversation without a parent, in whose session nothing was done, loads alike. -/
theorem SavedAlike.fields (h : s.SavedAlike wid c now now') (hvalue : c.toValueSucceeds = true) :
    c.parentId = none ∧ c.metrics.StartedOnly (s.createdAt c) := by
  obtain ⟨s₁, s₂, r₁, r₂, k₁, k₂, hs₁, hs₂, hr₁, hr₂, hk₁, hk₂, -, hparent, -, hmetrics⟩ := h
  obtain ⟨s₁', hs₁', howned⟩ :=
    findOwned_upsertConversation now (upsertLocalConversationRecord_ok rfl hs₁)
  obtain ⟨s₂', hs₂', hfind⟩ := find?_daemonUpsert s wid now' hvalue
  obtain rfl := Except.ok.inj (hs₁.symm.trans hs₁')
  obtain rfl := Option.some.inj (hs₂.symm.trans hs₂')
  obtain rfl := Option.some.inj (hr₁.symm.trans (findOwned_eq_some_iff.mp howned).1)
  obtain rfl := Option.some.inj (hr₂.symm.trans hfind)
  obtain ⟨hparent₁, hmetrics₁⟩ := ConversationRecord.of_tryInto hk₁
  obtain ⟨hparent₂, hmetrics₂⟩ := ConversationRecord.of_tryInto hk₂
  rw [ConversationRecord.parentId_written] at hparent₁ hparent₂
  rw [hmetrics₁, hmetrics₂, readMetrics_new_written, readMetrics_newRow_written,
    createdAt_newRow_written] at hmetrics
  rw [hparent₁, hparent₂, DbServer.newRow, parse_map_intoString] at hparent
  exact ⟨hparent.symm, (Metrics.reloaded_eq_started_iff _ _).mp hmetrics⟩

theorem savedAlike_iff (hmessages : c.messages ≠ []) : s.SavedAlike wid c now now' ↔
    s.validateLocalMutation c.id.intoString wid.column = .ok () ∧
    c.toValueSucceeds = true ∧
    c.parentId = none ∧
    (∀ context ∈ c.context, context.Shallow) ∧
    c.metrics.StartedOnly (s.createdAt c) := by
  obtain ⟨context, hcontext, hmessage, hblank⟩ := Conversation.exists_context hmessages
  by_cases hvalid : s.validateLocalMutation c.id.intoString wid.column = .ok ()
  · by_cases hvalue : c.toValueSucceeds = true
    · obtain ⟨s₁, hs₁, hr₁⟩ := findOwned_upsertConversation now hvalid
      obtain ⟨s₂, hs₂, hr₂⟩ := find?_daemonUpsert s wid now' hvalue
      have hfind₁ := (findOwned_eq_some_iff.mp hr₁).1
      by_cases hshallow : context.Shallow
      · have hall : ∀ context ∈ c.context, context.Shallow := by simpa [hcontext] using hshallow
        have hload₁ := tryInto_new_written wid now hmessages
          (conversationId_of_find? (s := s)) hall
        have hload₂ := tryInto_newRow_written wid.column now' hmessages
          (conversationId_of_find? (s := s)) hall
        constructor
        · intro h
          obtain ⟨hparent, hmetrics⟩ := h.fields hvalue
          exact ⟨hvalid, hvalue, hparent, hall, hmetrics⟩
        · rintro ⟨-, -, hparent, -, hmetrics⟩
          rw [← createdAt_newRow_written wid.column now',
            ← Metrics.reloaded_eq_started_iff] at hmetrics
          exact ⟨s₁, s₂, _, _, _, _, hs₁, hs₂, hfind₁, hr₂, hload₁, hload₂, rfl, hparent.symm, rfl,
            hmetrics⟩
      · refine iff_of_false ?_ fun h => hshallow (h.2.2.2.1 context hcontext)
        rintro ⟨s₁', s₂', r₁, r₂, k₁, k₂, hs₁', -, hfind₁', -, hk₁, -⟩
        obtain rfl := Except.ok.inj (hs₁.symm.trans hs₁')
        obtain rfl := Option.some.inj (hfind₁.symm.trans hfind₁')
        exact ConversationRecord.tryInto_deep hcontext
          ((holdsContext_new c wid now).written _) hblank
          hshallow k₁ hk₁
    · refine iff_of_false ?_ fun h => hvalue h.2.1
      rintro ⟨s₁, s₂, r₁, r₂, k₁, k₂, -, hs₂, -⟩
      rw [DbServer.upsertConversation, if_neg hvalue] at hs₂
      cases hs₂
  · refine iff_of_false ?_ fun h => hvalid h.1
    rintro ⟨s₁, s₂, r₁, r₂, k₁, k₂, hs₁, -⟩
    exact hvalid (upsertLocalConversationRecord_ok rfl hs₁)

end Store

end HeliosLite

namespace HeliosLite.Greeting

open Serde Theory

attribute [local instance] reference

/-- A greeting whose parent was set after it was saved. -/
def parented : Store :=
  run Store.step .empty
    (atEpoch [.upsertConversation wid (saying "hi"), .updateParentId wid id (some ⟨2⟩)])

theorem savedWhole_saying : Store.empty.SavedWhole wid (saying "hi") .epoch := by
  apply (Store.savedWhole_iff (by decide)).mpr
  refine ⟨rfl, rfl, by decide +kernel, ?_, rfl, fun _ => rfl⟩
  intro entry hentry
  obtain rfl := List.mem_singleton.mp hentry
  exact ⟨⟨rfl, by simp⟩, by simp [MessageEntry.from]⟩

/-- A conversation that is loaded with its parent and saved again loses it. -/
theorem parent_lost : ∃ loaded, parented.getConversation wid id = .ok (some loaded) ∧
    loaded.parentId = some ⟨2⟩ ∧ loaded.messages ≠ [] ∧
    ¬parented.SavedWhole wid loaded .epoch := by
  obtain ⟨loaded, hloaded, hparent, hmessages⟩ :
      ∃ loaded, parented.getConversation wid id = .ok (some loaded) ∧
        loaded.parentId = some ⟨2⟩ ∧ loaded.messages ≠ [] := by
    have hload : (parented.getConversation wid id).toOption.any fun result =>
        result.any fun k => k.parentId == some ⟨2⟩ && !k.messages.isEmpty := by decide +kernel
    cases hget : parented.getConversation wid id with
    | error e => rw [hget] at hload; cases hload
    | ok result =>
      rw [hget] at hload
      cases result with
      | none => cases hload
      | some k =>
        obtain ⟨hparent, hmessages⟩ := Bool.and_eq_true_iff.mp hload
        exact ⟨k, rfl, beq_iff_eq.mp hparent, by simpa using hmessages⟩
  refine ⟨loaded, hloaded, hparent, hmessages, ?_⟩
  rintro ⟨s', k, hs', hk, -, hsame, -⟩
  rw [Store.parentId_of_upsertConversation hs' hk, hparent] at hsame
  cases hsame

/-- A greeting in whose session a file was written. -/
def writing : Conversation :=
  { saying "hi" with
    metrics :=
      { Metrics.default with
        startedAt := some .epoch
        fileOperations := StringMap.empty.insert "a.rs"
          { linesAdded := 1, linesRemoved := 0, contentHash := none, tool := .write } } }

theorem savedAlike_saying : Store.empty.SavedAlike wid
    { saying "hi" with metrics := { Metrics.default with startedAt := some .epoch } } .epoch
    .epoch := by
  apply (Store.savedAlike_iff (by decide)).mpr
  exact ⟨rfl, rfl, rfl, by decide +kernel, rfl, rfl, rfl⟩

/-- The daemon loses the file that was written. -/
theorem metrics_differ : ¬Store.empty.SavedAlike wid writing .epoch .epoch := by
  intro h
  have hnothing := (h.fields rfl).2.2.1
  exact absurd hnothing (by decide)

end HeliosLite.Greeting
