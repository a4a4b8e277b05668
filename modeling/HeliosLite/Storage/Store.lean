import HeliosLite.Storage.ConversationRecord
import HeliosLite.Theory.Table

/-!
# The conversation store

The repository's own path to the conversations table: its mutations check who owns a row
before they write it, and read-only history of an attached legacy database is visible next
to the local rows.

## Main definitions

* `IntentState` — the states of the intent pipeline
* `Store` — the local table and the attached legacy rows
* `Store.upsertConversation`, … — the mutations; each fails without a change, or returns
  the store after it
* `Store.getConversation` — loading a conversation
-/

namespace HeliosLite

open Serde Serde.Json Theory

/-! ### Intent states -/

inductive IntentState where
  | pending
  | extracting
  | extracted
  | verified
  | pruned
  deriving DecidableEq, Repr

namespace IntentState

def asStr : IntentState → String
  | .pending => "pending"
  | .extracting => "extracting"
  | .extracted => "extracted"
  | .verified => "verified"
  | .pruned => "pruned"

def canTransitionTo : IntentState → IntentState → Bool
  | .pending, .extracting | .pending, .extracted | .pending, .verified
  | .pending, .pending => true
  | .extracting, .extracted | .extracting, .pending | .extracting, .extracting => true
  | .extracted, .verified | .extracted, .pending | .extracted, .extracted => true
  | .verified, .pruned | .verified, .pending | .verified, .verified => true
  | .pruned, .pruned => true
  | _, _ => false

def fromStr : String → Except String IntentState
  | "pending" => .ok .pending
  | "extracting" => .ok .extracting
  | "extracted" => .ok .extracted
  | "verified" => .ok .verified
  | "pruned" => .ok .pruned
  | unknown =>
    .error ("Unknown intent state: '" ++ unknown
      ++ "'. Expected: pending, extracting, extracted, verified, or pruned")

end IntentState

/-! ### Rewinding a plain text context -/

/-- The last position of a text in another. -/
def rfind (marker text : List Char) : Option ℕ :=
  (List.range (text.length + 1)).reverse.find? fun i => marker.isPrefixOf (text.drop i)

/-- The position of the last user message, or 0. A tool call after it changes nothing. -/
def findLastCompactionPoint (contextJson : String) : ℕ :=
  (rfind "\"role\":\"user\"".toList contextJson.toList).getD 0

/-- The position after the last comma or opening bracket before the cut. -/
def backToDelimiter (text : List Char) : ℕ → ℕ
  | 0 => 0
  | cut + 1 => if text[cut]? ∈ [some ',', some '[', some '\x7b'] then cut + 1
    else backToDelimiter text cut

/-- The text up to the rewind point, with a mark in place of the rest. -/
def truncateContext (contextJson : String) (rewindPoint : ℕ) : String :=
  if rewindPoint = 0 then "\x7b\"messages\":[]\x7d"
  else
    let text := contextJson.toList
    let kept := text.take (backToDelimiter text (min rewindPoint text.length))
    let trimmed := (kept.reverse.dropWhile fun c => c == ',' || c == ' ').reverse
    String.ofList trimmed ++ "\"rewound\":true\x7d"

variable [Libraries]

/-! ### The store -/

/-- The local conversations table, and the rows of the attached legacy database. -/
structure Store where
  conversations : Table ConversationRecord.conversationId
  legacy : List ConversationRecord

namespace ConversationRecord

/-- The row has the id and belongs to the workspace. -/
def isOwned (conversationId : String) (workspaceId : Int64) (r : ConversationRecord) : Bool :=
  r.workspaceId == some workspaceId && r.conversationId == conversationId

/-- The row after a conflicting insert: the columns of the update set are taken from the
new row, all others stay. -/
def onConflict (new old : ConversationRecord) : ConversationRecord :=
  { old with
    title := new.title
    context := new.context
    contextZstd := new.contextZstd
    isCompressed := new.isCompressed
    updatedAt := new.updatedAt
    metrics := new.metrics
    parentId := new.parentId
    source := new.source
    cwd := new.cwd
    messageCount := new.messageCount }

end ConversationRecord

/-! ### Imports and forgetting: what is asked for and what is reported -/

/-- A row of the database that is imported. -/
structure SourceRow where
  conversationId : String
  title : Option String
  context : Option String
  createdAt : String
  updatedAt : Option String
  metrics : Option String
  deriving DecidableEq

structure ForgeImportReport where
  sourceTotal : ℕ
  imported : ℕ
  skippedExisting : ℕ
  invalidId : ℕ
  contextParseFailed : ℕ
  errors : ℕ
  dryRun : Bool
  deriving DecidableEq

structure ForgeForgetOptions where
  ids : List ConversationId
  source : Option String
  olderThanSecs : Option ℤ
  dryRun : Bool
  deriving DecidableEq

/-- The `WHERE` clause of the selectors that are set. Times are compared as texts. -/
def ForgeForgetOptions.selects (options : ForgeForgetOptions) (now : DateTime)
    (r : ConversationRecord) : Bool :=
  (options.ids.isEmpty || options.ids.any fun id => id.intoString == r.conversationId)
    && (options.source.all fun source => r.source == some source)
    && (options.olderThanSecs.all fun secs =>
      match r.updatedAt, Libraries.unixEpoch (now.timestamp - secs) with
      | some updatedAt, some cutoff => updatedAt.text < cutoff
      | _, _ => false)

structure ForgeForgetReport where
  matched : ℕ
  deleted : ℕ
  dryRun : Bool
  deriving DecidableEq

namespace Store

/-- No rows at all. -/
def empty : Store := { conversations := Table.empty, legacy := [] }

/-- The view that joins local and legacy rows. -/
def conversationsAll (s : Store) : List ConversationRecord := s.conversations.rows ++ s.legacy

/-- Rejects rows of another workspace, and ids that only legacy history has. -/
def validateLocalMutation (s : Store) (conversationId : String) (workspaceId : Int64) :
    Except String Unit :=
  match (s.conversations.find? conversationId).bind (·.workspaceId) with
  | some owner =>
    if owner = workspaceId then .ok ()
    else .error "Conversation belongs to another workspace"
  | none =>
    if s.conversationsAll.any fun r => r.conversationId == conversationId then
      .error "Conversation exists only in attached legacy history and is read-only"
    else .ok ()

/-- The row of the id, if the workspace owns it. -/
def findOwned (s : Store) (conversationId : String) (workspaceId : Int64) :
    Option ConversationRecord :=
  s.conversations.rows.find? (ConversationRecord.isOwned conversationId workspaceId)

/-- The row of the id changed, if the workspace owns it. -/
def updateOwned (s : Store) (conversationId : String) (workspaceId : Int64)
    (f : ConversationRecord → ConversationRecord)
    (hf : ∀ r, (f r).conversationId = r.conversationId) : Store :=
  { s with
    conversations :=
      s.conversations.update (ConversationRecord.isOwned conversationId workspaceId) f hf }

/-- A plain `INSERT`, which fails when the id is taken. -/
def insertRow (s : Store) (record : ConversationRecord) : Option Store :=
  if h : s.conversations.find? record.conversationId = none then
    some { s with conversations := s.conversations.insert record h }
  else none

/-! ### Upserts -/

/-- `INSERT … ON CONFLICT DO UPDATE`, where the update applies to a row of the workspace
of the record only. -/
def upsertConversationRefRecord (s : Store) (record : ConversationRecord) :
    Except String Store :=
  match s.insertRow record with
  | some inserted => .ok inserted
  | none =>
    match record.workspaceId with
    | some owner =>
      if (s.findOwned record.conversationId owner).isSome then
        .ok (s.updateOwned record.conversationId owner record.onConflict fun _ => rfl)
      else .error "Conversation upsert did not affect a writable local row"
    | none => .error "Conversation upsert did not affect a writable local row"

def upsertLocalConversationRecord (s : Store) (record : ConversationRecord) :
    Except String Store := do
  s.validateLocalMutation record.conversationId (record.workspaceId.getD 0)
  s.upsertConversationRefRecord record

def upsertConversation (s : Store) (wid : WorkspaceHash) (conversation : Conversation)
    (now : DateTime) : Except String Store :=
  s.upsertLocalConversationRecord (.new conversation wid now)

def upsertConversationRef (s : Store) (wid : WorkspaceHash) (conversation : Conversation)
    (now : DateTime) : Except String Store :=
  s.upsertLocalConversationRecord (.newRef conversation wid now)

/-! ### Updates of one row -/

/-- A row that does not exist is left alone without an error. -/
def updateParentId (s : Store) (wid : WorkspaceHash) (conversationId : ConversationId)
    (newParentId : Option ConversationId) (now : DateTime) : Except String Store := do
  let id := conversationId.intoString
  s.validateLocalMutation id wid.column
  if (s.findOwned id wid.column).isNone then .ok s
  else
    .ok (s.updateOwned id wid.column
      (fun r => { r with
        parentId := newParentId.map (·.intoString)
        updatedAt := some (.naive now) }) fun _ => rfl)

def deleteConversation (s : Store) (wid : WorkspaceHash) (conversationId : ConversationId) :
    Except String Store := do
  let id := conversationId.intoString
  s.validateLocalMutation id wid.column
  .ok
    { s with
      conversations := s.conversations.delete (ConversationRecord.isOwned id wid.column) }

/-- The row of the workspace, or the error that there is none. -/
def requireOwned (s : Store) (conversationId : String) (workspaceId : Int64) :
    Except String ConversationRecord :=
  match s.findOwned conversationId workspaceId with
  | some r => .ok r
  | none => .error ("Conversation " ++ conversationId ++ " not found")

def markIntentState (s : Store) (wid : WorkspaceHash) (conversationId : ConversationId)
    (newState : String) (now : DateTime) : Except String Store := do
  let id := conversationId.intoString
  let next ← IntentState.fromStr newState
  s.validateLocalMutation id wid.column
  let record ← s.requireOwned id wid.column
  let current ← IntentState.fromStr record.intentState
  if current.canTransitionTo next then
    .ok (s.updateOwned id wid.column
      (fun r => { r with intentState := newState, updatedAt := some (.naive now) }) fun _ => rfl)
  else .error ("Illegal state transition: " ++ current.asStr ++ " → " ++ next.asStr)

/-- The summary that replaces a pruned context. -/
def prunedContext (conversationId : String) (now : DateTime) : Json :=
  record
    [("type", some (.str "compressed")),
      ("conversation_id", some (.str conversationId)),
      ("pruned_at", some (.str (Libraries.rfc3339 now))),
      ("summary",
        some (.str "Conversation context pruned; full intent stored in MemoryPort"))]

/-- Only a verified row is pruned. The compressed columns are not written. -/
def pruneConversation (s : Store) (wid : WorkspaceHash) (conversationId : ConversationId)
    (now : DateTime) : Except String Store := do
  let id := conversationId.intoString
  s.validateLocalMutation id wid.column
  let record ← s.requireOwned id wid.column
  let current ← IntentState.fromStr record.intentState
  if current = .verified then
    .ok (s.updateOwned id wid.column
      (fun r => { r with
        context := some (toText (prunedContext id now).toValue)
        intentState := "pruned"
        updatedAt := some (.naive now) }) fun _ => rfl)
  else
    .error ("Cannot prune conversation with intent_state='" ++ current.asStr
      ++ "'. Must be 'verified'.")

/-- The plain text of the row cut back to the last user message; the compressed columns
are not read and not written. -/
def rewindConversation (s : Store) (wid : WorkspaceHash) (conversationId : ConversationId)
    (now : DateTime) : Except String (Option Conversation × Store) := do
  let id := conversationId.intoString
  s.validateLocalMutation id wid.column
  match s.findOwned id wid.column with
  | none => .ok (none, s)
  | some record =>
    let newContext := record.context.map fun context =>
      truncateContext context (findLastCompactionPoint context)
    let rewound := s.updateOwned id wid.column
      (fun r => { r with context := newContext, updatedAt := some (.naive now) }) fun _ => rfl
    let conversation := (rewound.findOwned id wid.column).bind fun r => r.tryInto.toOption
    .ok (conversation, rewound)

/-! ### Maintenance -/

/-- A plain text row with its context compressed; it stays as it is when that fails. -/
def compressRow (r : ConversationRecord) : ConversationRecord :=
  match r.context.bind Libraries.compress with
  | some blob => { r with contextZstd := some blob, context := none, isCompressed := 1 }
  | none => r

theorem conversationId_compressRow (r : ConversationRecord) :
    (compressRow r).conversationId = r.conversationId := by
  rw [compressRow]
  split <;> rfl

/-- A row that is not compressed and has a context. -/
def isPlainRow (r : ConversationRecord) : Bool := r.isCompressed == 0 && r.context.isSome

/-- Every uncompressed row of the table is compressed, whatever its workspace. The counts
are of the rows that were compressed, that had no context, and that failed. -/
def compressUncompressedContexts (s : Store) : (ℕ × ℕ × ℕ) × Store :=
  let plain := s.conversations.rows.filter isPlainRow
  let compressed := plain.filter fun r => (r.context.bind Libraries.compress).isSome
  let skipped := s.conversations.rows.filter fun r => r.isCompressed == 0 && r.context.isNone
  ((compressed.length, skipped.length, plain.length - compressed.length),
    { s with
      conversations :=
        s.conversations.update isPlainRow compressRow conversationId_compressRow })

/-- The first of the known formats that reads the text. -/
def parseNaiveDatetime (value : String) : Option DateTime :=
  ["%Y-%m-%d %H:%M:%S%.f", "%Y-%m-%d %H:%M:%S", "%Y-%m-%dT%H:%M:%S%.fZ",
    "%Y-%m-%dT%H:%M:%S%.f", "%Y-%m-%dT%H:%M:%SZ"].findSome? (Libraries.parseFromStr value)

/-- The context of a text, if it reads as one. -/
def importedContext (json : String) : Option Context :=
  ((fromText json).bind ContextRecord.deserialize).bind ContextRecord.tryInto

/-- The characters that `str::trim` removes. -/
def isWhiteSpace (c : Char) : Bool :=
  c.toNat ∈ [32, 133, 160, 5760, 8232, 8233, 8239, 8287, 12288]
    || (9 ≤ c.toNat && c.toNat ≤ 13) || (8192 ≤ c.toNat && c.toNat ≤ 8202)

def isBlankText (s : String) : Bool := s.toList.all isWhiteSpace

/-- The conversation that is made of a source row. -/
def importedConversation (row : SourceRow) (id : ConversationId) (now : DateTime) :
    Conversation :=
  let createdAt := (parseNaiveDatetime row.createdAt).getD now
  { id := id
    title := row.title
    context := row.context.bind importedContext
    metrics :=
      match row.metrics.bind fun json => (fromText json).bind MetricsRecord.deserialize with
      | some record => record.into
      | none => { Metrics.default with startedAt := some createdAt }
    metadata :=
      { createdAt := createdAt
        updatedAt := row.updatedAt.bind parseNaiveDatetime }
    parentId := none
    source := some "imported:forge"
    cwd := none
    messageCount := none }

/-- A text that is there but does not read as a context. -/
def contextParseFailed (row : SourceRow) : Bool :=
  row.context.any fun json => !isBlankText json && (importedContext json).isNone

/-- One row of an import: ids that exist anywhere are skipped. -/
def importRow (wid : WorkspaceHash) (dryRun : Bool) (now : DateTime)
    (state : Store × ForgeImportReport) (row : SourceRow) : Store × ForgeImportReport :=
  let (s, report) := state
  match ConversationId.parse row.conversationId with
  | none => (s, { report with invalidId := report.invalidId + 1 })
  | some id =>
    if s.conversationsAll.any fun r => r.conversationId == row.conversationId then
      (s, { report with skippedExisting := report.skippedExisting + 1 })
    else
      let report := if contextParseFailed row then
        { report with contextParseFailed := report.contextParseFailed + 1 } else report
      if dryRun then (s, { report with imported := report.imported + 1 })
      else
        match s.insertRow (.new (importedConversation row id now) wid now) with
        | some inserted => (inserted, { report with imported := report.imported + 1 })
        | none => (s, { report with errors := report.errors + 1 })

/-- The import of the rows of a source database. -/
def importForgeDb (s : Store) (wid : WorkspaceHash) (rows : List SourceRow) (dryRun : Bool)
    (now : DateTime) : Store × ForgeImportReport :=
  rows.foldl (importRow wid dryRun now)
    (s,
      { sourceTotal := rows.length
        imported := 0
        skippedExisting := 0
        invalidId := 0
        contextParseFailed := 0
        errors := 0
        dryRun := dryRun })

/-- The selected rows are deleted, in every workspace. -/
def forgetConversations (s : Store) (options : ForgeForgetOptions) (now : DateTime) :
    Except String (ForgeForgetReport × Store) :=
  if options.ids.isEmpty && options.source.isNone && options.olderThanSecs.isNone then
    .error "at least one filter (--id, --source, --older-than) must be set"
  else
    let matched := (s.conversations.rows.filter (options.selects now)).length
    if options.dryRun then .ok ({ matched := matched, deleted := 0, dryRun := true }, s)
    else
      .ok ({ matched := matched, deleted := matched, dryRun := false },
        { s with
          conversations := s.conversations.delete (options.selects now) })

/-! ### Loading -/

/-- The row of the id that the workspace sees; a local row comes before a legacy one, and
legacy rows without a workspace are seen by all. -/
def visibleRow (s : Store) (wid : WorkspaceHash) (conversationId : ConversationId) :
    Option ConversationRecord :=
  let id := conversationId.intoString
  (s.findOwned id wid.column).or (s.legacy.find? fun r =>
    r.conversationId == id && (r.workspaceId.isNone || r.workspaceId == some wid.column))

def getConversation (s : Store) (wid : WorkspaceHash) (conversationId : ConversationId) :
    Except String (Option Conversation) :=
  match s.visibleRow wid conversationId with
  | some r => r.tryInto.map some
  | none => .ok none

end Store

end HeliosLite
