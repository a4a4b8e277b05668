import HeliosLite.Storage.ReloadContext
import Mathlib

/-!
# Rows of the conversations table

A conversation is stored as a row of text columns. Its context stands either as plain
text or, by default, as a compressed blob with a flag.

## Main definitions

* `ConversationRecord` — a row
* `ConversationRecord.new` — the row that is written for a conversation
* `ConversationRecord.readContext`, `ConversationRecord.tryInto` — loading a row

## Main results

* `readContext_encodeContext` — an encoded context is read back
* `readMetrics_serialize` — written metrics are read back
-/

namespace HeliosLite

open Serde Serde.Json

variable [Libraries]

/-- A row of the conversations table. -/
structure ConversationRecord where
  conversationId : String
  title : Option String
  workspaceId : Option Int64
  context : Option String
  createdAt : Stamp
  updatedAt : Option Stamp
  metrics : Option String
  parentId : Option String
  source : Option String
  cwd : Option String
  messageCount : Option Int32
  intentState : String
  extractedAt : Option Stamp
  memoryId : Option String
  intentHash : Option String
  contextZstd : Option ByteArray
  isCompressed : Int32
  deriving DecidableEq

/-- The hash of a workspace path. -/
structure WorkspaceHash where
  id : UInt64
  deriving DecidableEq

/-- The hash as an integer column. -/
def WorkspaceHash.column (wid : WorkspaceHash) : Int64 := wid.id.toInt64

/-! ### Writing -/

/-- The JSON text of the record of a context. -/
def Context.recordText (context : Context) : String :=
  toText (ContextRecord.from context).serialize

/-- The columns that hold a context. -/
structure EncodedContext where
  context : Option String
  contextZstd : Option ByteArray
  isCompressed : Int32
  updatedAt : Option Stamp
  deriving DecidableEq

/-- Neither a message nor an initiator. -/
def Context.isBlank (context : Context) : Bool :=
  context.messages.isEmpty && context.initiator.isNone

/-- A blank context is not stored; any other is compressed, or stays plain text when the
compression fails. -/
def encodeContext (context : Option Context) (now : DateTime) : EncodedContext :=
  match context with
  | none => { context := none, contextZstd := none, isCompressed := 0, updatedAt := none }
  | some context =>
    if context.isBlank then
      { context := none, contextZstd := none, isCompressed := 0, updatedAt := none }
    else
      match Libraries.compress context.recordText with
      | some blob =>
        { context := none
          contextZstd := some blob
          isCompressed := 1
          updatedAt := some (.naive now) }
      | none =>
        { context := some context.recordText
          contextZstd := none
          isCompressed := 0
          updatedAt := some (.naive now) }

/-- The number of messages, as the 32-bit integer of its column. -/
def Context.messageCount (context : Context) : Int32 := Int32.ofNat context.messages.length

namespace ConversationRecord

/-- The row of a conversation. Its parent, source and working directory are left out, and
its intent state starts over. -/
def new (conversation : Conversation) (workspaceId : WorkspaceHash) (now : DateTime) :
    ConversationRecord :=
  let encoded := encodeContext conversation.context now
  { conversationId := conversation.id.intoString
    title := conversation.title
    context := encoded.context
    createdAt := .naive conversation.metadata.createdAt
    updatedAt := encoded.updatedAt
    workspaceId := some workspaceId.column
    metrics := some (toText (MetricsRecord.from conversation.metrics).serialize)
    parentId := none
    source := none
    cwd := none
    messageCount := conversation.context.map Context.messageCount
    intentState := "pending"
    extractedAt := none
    memoryId := none
    intentHash := none
    contextZstd := encoded.contextZstd
    isCompressed := encoded.isCompressed }

/-- The row of a reference upsert; the source writes out the same values again. -/
def newRef (conversation : Conversation) (workspaceId : WorkspaceHash) (now : DateTime) :
    ConversationRecord :=
  new conversation workspaceId now

/-! ### Loading -/

/-- The context of a JSON text, or what went wrong with it. -/
def parseContext (json : String) (unreadable : String) (conversationId : String) :
    Except String Context :=
  match (fromText json).bind ContextRecord.deserialize with
  | none => .error (unreadable ++ conversationId)
  | some record =>
    match record.tryInto with
    | none =>
      .error ("Failed to convert context record to domain type for conversation "
        ++ conversationId)
    | some context => .ok context

/-- The context of a row: the blob if the row is marked compressed, else the plain text. -/
def readContext (r : ConversationRecord) : Except String (Option Context) :=
  if r.isCompressed = 1 then
    match r.contextZstd with
    | none =>
      .error ("Conversation " ++ r.conversationId
        ++ " marked compressed but has no context_zstd blob")
    | some blob =>
      match Libraries.decompress blob with
      | none => .error ("Failed to decompress context for conversation " ++ r.conversationId)
      | some json =>
        (parseContext json "Failed to deserialize decompressed context for conversation "
          r.conversationId).map some
  else
    match r.context with
    | some json =>
      (parseContext json "Failed to deserialize context for conversation "
        r.conversationId).map some
    | none => .ok none

/-- The metrics of a row; unreadable ones are replaced by metrics that start when the row
was created. -/
def readMetrics (r : ConversationRecord) : Metrics :=
  match r.metrics.bind fun json => (fromText json).bind MetricsRecord.deserialize with
  | some record => record.into
  | none => { Metrics.default with startedAt := some r.createdAt.time }

/-- The conversation of a row. -/
def tryInto (r : ConversationRecord) : Except String Conversation :=
  match ConversationId.parse r.conversationId with
  | none => .error ("Failed to parse conversation ID: " ++ r.conversationId)
  | some id => do
    let context ← r.readContext
    .ok
      { id := id
        title := r.title
        context := context
        metrics := r.readMetrics
        metadata :=
          { createdAt := r.createdAt.time
            updatedAt := r.updatedAt.map (·.time) }
        parentId := r.parentId.bind ConversationId.parse
        source := none
        cwd := none
        messageCount := none }

end ConversationRecord

/-! ### Reading back what was written -/

/-- The document of a context nests within the limit of the parser. -/
def Context.Shallow (context : Context) : Prop :=
  (ContextRecord.from context).serialize.depth ≤ recursionLimit

instance (context : Context) : Decidable context.Shallow := inferInstanceAs (Decidable (_ ≤ _))

namespace ConversationRecord

theorem parseContext_recordText {context : Context} (h : context.Shallow) (e id : String) :
    parseContext context.recordText e id = .ok context.reloaded := by
  have hread := context.read_serialize
  obtain ⟨record, hrecord, hinto⟩ := Option.bind_eq_some_iff.mp hread
  rw [parseContext, Context.recordText, fromText_toText h, Option.bind_some, hrecord]
  change (match record.tryInto with | none => _ | some context => _) = _
  rw [hinto]

theorem parseContext_deep {context : Context} (h : ¬context.Shallow) (e id : String) :
    parseContext context.recordText e id = .error (e ++ id) := by
  have hdeep : fromText context.recordText = none := JsonText.fromText_deep _ (not_le.mp h)
  rw [parseContext, hdeep]
  rfl

/-- The columns hold the encoded context. -/
def HoldsContext (r : ConversationRecord) (encoded : EncodedContext) : Prop :=
  r.context = encoded.context ∧ r.contextZstd = encoded.contextZstd
    ∧ r.isCompressed = encoded.isCompressed

/-- A row that holds an encoded context has no context, has it compressed, or has it as
plain text. -/
theorem HoldsContext.cases {r : ConversationRecord} {context : Option Context} {now : DateTime}
    (h : r.HoldsContext (encodeContext context now)) :
    ((∀ c ∈ context, c.isBlank) ∧ r.context = none ∧ r.contextZstd = none ∧ r.isCompressed = 0)
    ∨ (∃ c blob, context = some c ∧ ¬c.isBlank ∧ Libraries.compress c.recordText = some blob ∧
        r.context = none ∧ r.contextZstd = some blob ∧ r.isCompressed = 1)
    ∨ (∃ c, context = some c ∧ ¬c.isBlank ∧
        r.context = some c.recordText ∧ r.contextZstd = none ∧ r.isCompressed = 0) := by
  obtain ⟨hplain, hblob, hflag⟩ := h
  cases context with
  | none => exact Or.inl ⟨by simp, hplain, hblob, hflag⟩
  | some c =>
    by_cases hblank : c.isBlank
    · rw [encodeContext, if_pos hblank] at hplain hblob hflag
      refine Or.inl ⟨?_, hplain, hblob, hflag⟩
      intro c' hc'
      obtain rfl := Option.mem_some_iff.mp hc'
      exact hblank
    · rw [encodeContext, if_neg hblank] at hplain hblob hflag
      cases hcompress : Libraries.compress c.recordText with
      | some blob =>
        rw [hcompress] at hplain hblob hflag
        exact Or.inr (Or.inl ⟨c, blob, rfl, hblank, hcompress, hplain, hblob, hflag⟩)
      | none =>
        rw [hcompress] at hplain hblob hflag
        exact Or.inr (Or.inr ⟨c, rfl, hblank, hplain, hblob, hflag⟩)

/-- The blob of a compressed row is read as its text. -/
theorem readContext_compressed {r : ConversationRecord} {blob : ByteArray} {json : String}
    (hflag : r.isCompressed = 1) (hblob : r.contextZstd = some blob)
    (hjson : Libraries.decompress blob = some json) :
    r.readContext =
      (parseContext json "Failed to deserialize decompressed context for conversation "
        r.conversationId).map some := by
  rw [readContext, if_pos hflag, hblob]
  simp only [hjson]

theorem readContext_plain {r : ConversationRecord} {json : String}
    (hflag : r.isCompressed ≠ 1) (hcontext : r.context = some json) :
    r.readContext = (parseContext json "Failed to deserialize context for conversation "
      r.conversationId).map some := by
  rw [readContext, if_neg hflag, hcontext]

theorem readContext_none {r : ConversationRecord} (hflag : r.isCompressed ≠ 1)
    (hcontext : r.context = none) : r.readContext = .ok none := by
  rw [readContext, if_neg hflag, hcontext]

/-- What is read of the columns of an encoded context: nothing of a blank one, and the
reloaded context of any other that is not nested too deeply. -/
theorem readContext_encodeContext {r : ConversationRecord} {context : Option Context}
    {now : DateTime} (h : r.HoldsContext (encodeContext context now))
    (hshallow : ∀ c ∈ context, ¬c.isBlank → c.Shallow) :
    r.readContext = .ok ((context.filter fun c => !c.isBlank).map Context.reloaded) := by
  have hzero : (0 : Int32) ≠ 1 := by decide
  rcases h.cases with ⟨hblank, hcontext, -, hflag⟩ |
    ⟨c, blob, rfl, hblank, hcompress, -, hblob, hflag⟩
    | ⟨c, rfl, hblank, hcontext, -, hflag⟩
  · rw [readContext_none (hflag ▸ hzero) hcontext]
    have hfilter : context.filter (fun c => !c.isBlank) = none := by
      apply Option.filter_eq_none_iff.mpr
      intro c hc
      simp [hblank c hc]
    rw [hfilter]
    rfl
  · rw [readContext_compressed hflag hblob (Libraries.decompress_compress _ _ hcompress),
      parseContext_recordText (hshallow c rfl hblank), Option.filter_some,
      Bool.eq_false_iff.mpr hblank]
    rfl
  · rw [readContext_plain (hflag ▸ hzero) hcontext,
      parseContext_recordText (hshallow c rfl hblank), Option.filter_some,
      Bool.eq_false_iff.mpr hblank]
    rfl

/-- A context nested too deeply is not read back. -/
theorem readContext_deep {r : ConversationRecord} {c : Context} {now : DateTime}
    (h : r.HoldsContext (encodeContext (some c) now)) (hblank : ¬c.isBlank)
    (hdeep : ¬c.Shallow) : ∃ e, r.readContext = .error e := by
  have hzero : (0 : Int32) ≠ 1 := by decide
  rcases h.cases with ⟨hall, -⟩ | ⟨c', blob, hc, -, hcompress, -, hblob, hflag⟩
    | ⟨c', hc, -, hcontext, -, hflag⟩
  · exact absurd (hall c rfl) hblank
  · obtain rfl := Option.some.inj hc
    rw [readContext_compressed hflag hblob (Libraries.decompress_compress _ _ hcompress),
      parseContext_deep hdeep]
    exact ⟨_, rfl⟩
  · obtain rfl := Option.some.inj hc
    rw [readContext_plain (hflag ▸ hzero) hcontext, parseContext_deep hdeep]
    exact ⟨_, rfl⟩

end ConversationRecord

/-! ### Metrics -/

/-- Written metrics are read back. -/
theorem ConversationRecord.readMetrics_serialize {r : ConversationRecord} {metrics : Metrics}
    (h : r.metrics = some (toText (MetricsRecord.from metrics).serialize)) :
    r.readMetrics = metrics.reloaded := by
  obtain ⟨record, hrecord, hinto⟩ := Option.map_eq_some_iff.mp metrics.read_serialize
  have hdepth : (MetricsRecord.from metrics).serialize.depth ≤ recursionLimit :=
    metrics.depth_serialize_from.trans (by decide)
  rw [readMetrics, h, Option.bind_some, fromText_toText hdepth, Option.bind_some, hrecord]
  exact hinto

/-- Metrics that were written without their record are replaced. -/
theorem ConversationRecord.readMetrics_domain {r : ConversationRecord} {metrics : Metrics}
    (h : r.metrics = some (toText metrics.serialize)) :
    r.readMetrics = { Metrics.default with startedAt := some r.createdAt.time } := by
  have hnone : (fromText (toText metrics.serialize)).bind MetricsRecord.deserialize = none := by
    by_cases hdepth : metrics.serialize.depth ≤ recursionLimit
    · rw [fromText_toText hdepth, Option.bind_some, MetricsRecord.deserialize_domain]
    · rw [JsonText.fromText_deep _ (not_le.mp hdepth)]
      rfl
  rw [readMetrics, h, Option.bind_some, hnone]

end HeliosLite
