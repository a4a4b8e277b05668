import Mathlib.Data.List.Basic
import HeliosLite.Storage.ExactReads
import HeliosLite.Storage.Reads

/-!
# Exports, and the conversations that agents started

An export reads the view of local and legacy rows, leaves out those that an agent started
unless it is asked for them, and writes what is left with the context as plain text: to a
database in the official schema, or to a text with a line for each row.

The lists of parents and the export leave out the conversations that an agent started. They
look for the initiator in the plain text column only, so that a compressed row passes
whoever started it, and the task that compresses rows lets more rows pass.

## Main definitions

* `exportQuery` — the rows of an export
* `exportContext` — the context of a row as plain text
* `exportForgeDb` — the export
* `ConversationRecord.AgentStarted` — the context of the row names an agent, in any column
* `namesAgent` — what the filter sees
* `FiltersAgents` — the filter is the same for every form of a row
* `PlainAgents` — the condition

## Main results

* `filtersAgents_iff` — when the filter is the same
* `Greeting.not_filtersAgents` — a conversation of an agent, as it is stored
-/

namespace HeliosLite

open Serde Serde.Json Theory

inductive ForgeExportFormat where
  | sqlite
  | jsonl
  | csv
  deriving DecidableEq

structure ForgeExportOptions where
  dryRun : Bool
  format : ForgeExportFormat
  includeAgent : Bool
  deriving DecidableEq

structure ForgeExportReport where
  sourceTotal : ℕ
  exported : ℕ
  decompressionFailed : ℕ
  dryRun : Bool
  deriving DecidableEq

/-- A row as the export reads it. -/
structure HeliosExportRow where
  conversationId : String
  title : Option String
  context : Option String
  contextZstd : Option ByteArray
  createdAt : String
  updatedAt : Option String
  metrics : Option String
  deriving DecidableEq

/-- A row of a database in the official schema: what an import reads of it, and the columns
that it does not read. -/
structure OfficialRow extends SourceRow where
  workspaceId : String
  source : Option String
  deriving DecidableEq

namespace OfficialRow

def id (row : OfficialRow) : String := row.conversationId

end OfficialRow

/-- What there is at the destination after an export. -/
inductive ExportFile where
  | untouched
  | database (rows : Table OfficialRow.id)
  | text (out : String)

/-! ### CSV -/

def doubleQuotes : List Char → List Char
  | [] => []
  | c :: cs => if c = '"' then '"' :: '"' :: doubleQuotes cs else c :: doubleQuotes cs

/-- A field with a comma, a quote or a line break is quoted. -/
def csvEscape (s : String) : String :=
  if s.toList.any fun c => c = ',' || c = '"' || c = '\n' then
    "\"" ++ String.ofList (doubleQuotes s.toList) ++ "\""
  else s

/-- A row without its metrics, which the format has no column for. -/
def csvLine (row : HeliosExportRow) (plainContext : String) : String :=
  csvEscape row.conversationId ++ "," ++ csvEscape (row.title.getD "") ++ ","
    ++ csvEscape row.createdAt ++ "," ++ csvEscape (row.updatedAt.getD "") ++ ","
    ++ csvEscape plainContext ++ "\n"

variable [Libraries]

/-! ### Reading -/

def HeliosExportRow.of (r : ConversationRecord) : HeliosExportRow :=
  { conversationId := r.conversationId
    title := r.title
    context := r.context
    contextZstd := r.contextZstd
    createdAt := r.createdAt.text
    updatedAt := r.updatedAt.map (·.text)
    metrics := r.metrics }

/-- The rows of the view. The conditions are checked in the order in which they are written. -/
def exportQuery (sql : Sqlite) (s : Store) (includeAgent : Bool) :
    Except String (List ViewRow) :=
  if includeAgent then .ok s.view
  else if s.view.any (malformed sql) then .error "malformed JSON"
  else .ok (s.view.filter fun r => isUserStarted sql r || r.record.context.isNone)

/-- The plain text of the context, if there is one; a blob that does not decompress fails. -/
def exportContext (row : HeliosExportRow) : Except Unit (Option String) :=
  match row.context.filter fun plain => !Store.isBlankText plain with
  | some plain => .ok (some plain)
  | none =>
    match row.contextZstd with
    | none => .ok none
    | some bytes =>
      match Libraries.decompress bytes with
      | some plain => .ok (some plain)
      | none => .error ()

/-! ### Writing -/

/-- An object with a column under its name; a context that is not JSON stays a string. -/
def jsonlLine (row : HeliosExportRow) (plainContext : String) : String :=
  let context :=
    if plainContext.isEmpty then .null else (fromText plainContext).getD (.str plainContext)
  let fields :=
    [("conversation_id", some (.str row.conversationId)),
      ("title", some (nullable (row.title.map .str))),
      ("context", some context),
      ("created_at", some (.str row.createdAt)),
      ("updated_at", some (nullable (row.updatedAt.map .str))),
      ("metrics", some (nullable (row.metrics.map .str)))]
  toText (record fields).toValue ++ "\n"

/-- The row in the official schema. -/
def officialRow (workspaceId : String) (row : HeliosExportRow) (context : Option String) :
    OfficialRow :=
  { conversationId := row.conversationId
    title := row.title
    context := context
    createdAt := row.createdAt
    updatedAt := row.updatedAt
    metrics := row.metrics
    workspaceId := workspaceId
    source := some "exported:helioslite" }

/-- One row of an export, by what is done with its context. -/
def exportRow {α : Type} (write : α → HeliosExportRow → Option String → α)
    (state : α × ForgeExportReport) (row : HeliosExportRow) : α × ForgeExportReport :=
  let (out, report) := state
  match exportContext row with
  | .ok context => (write out row context, { report with exported := report.exported + 1 })
  | .error () => (out, { report with decompressionFailed := report.decompressionFailed + 1 })

/-- The rows of an export, one after the other. -/
def exportRows {α : Type} (write : α → HeliosExportRow → Option String → α) (out : α)
    (dryRun : Bool) (rows : List HeliosExportRow) : α × ForgeExportReport :=
  rows.foldl (exportRow write)
    (out, { sourceTotal := rows.length, exported := 0, decompressionFailed := 0, dryRun := dryRun })

/-- The workspace of the first row of the view, which all rows of the export get. -/
def exportWorkspace (s : Store) : String :=
  ((s.view.head?.bind (·.record.workspaceId)).map fun id => toString id.toInt).getD "imported"

/-- The export, to a destination that can be written and may have rows already. -/
def exportForgeDb (sql : Sqlite) (s : Store) (options : ForgeExportOptions)
    (existing : Table OfficialRow.id) : Except String (ExportFile × ForgeExportReport) :=
  (exportQuery sql s options.includeAgent).map fun selected =>
    let rows := selected.map fun r => HeliosExportRow.of r.record
    if options.dryRun then exportRows (fun out _ _ => out) .untouched true rows
    else
      match options.format with
      | .sqlite =>
        (exportRows (fun t row context => t.replace (officialRow (exportWorkspace s) row context))
          existing false rows).map .database id
      | .jsonl =>
        (exportRows (fun out row context => out ++ jsonlLine row (context.getD "")) "" false
          rows).map .text id
      | .csv =>
        (exportRows (fun out row context => out ++ csvLine row (context.getD ""))
          "conversation_id,title,created_at,updated_at,context\n" false rows).map .text id

end HeliosLite

/-! ### Conversations that agents started -/

namespace HeliosLite

open Theory

/-- What the filter relies on in the database engine: a blank text is no JSON, and rows that
compare equal keep to one order whatever is in their other columns. -/
structure Sqlite.Steady [Libraries] (sql : Sqlite) : Prop where
  blank : ∀ text, Store.isBlankText text = true → sql.jsonInitiator text = none
  orderBy_map : ∀ (le : ViewRow → ViewRow → Bool) (f : ViewRow → ViewRow) (rows : List ViewRow),
    (∀ a b, le (f a) (f b) = le a b) → sql.orderBy le (rows.map f) = (sql.orderBy le rows).map f

/-- Two tests that hold of the same number of elements hold of the same elements, if one of
them is the weaker. -/
theorem forall_of_length_filter_eq {α : Type*} {p q : α → Bool} {l : List α}
    (hweaker : ∀ a ∈ l, p a = true → q a = true)
    (h : (l.filter p).length = (l.filter q).length) : ∀ a ∈ l, q a = true → p a = true := by
  have hfilter : (l.filter q).filter p = l.filter p := by
    rw [List.filter_filter]
    apply List.filter_congr
    intro a ha
    cases hp : p a with
    | false => rfl
    | true => rw [hweaker a ha hp]; rfl
  rw [← hfilter] at h
  have hall := List.length_filter_eq_length_iff.mp h
  intro a ha hq
  exact hall a (List.mem_filter.mpr ⟨ha, hq⟩)

theorem toOption_mapM {α β : Type} (f : α → Except String β) (l : List α) :
    (l.mapM f).toOption = l.mapM fun a => (f a).toOption := by
  induction l with
  | nil => rfl
  | cons a l ih =>
    rw [List.mapM_cons, List.mapM_cons, ← ih]
    cases f a with
    | error e => rfl
    | ok b => cases l.mapM f <;> rfl

variable [Libraries]

namespace ConversationRecord

/-- An agent started the conversation, whatever column its context is in. -/
def AgentStarted (r : ConversationRecord) : Prop :=
  ∃ context, r.readContext = .ok (some context) ∧ context.initiator = some "agent"

theorem agentStarted_iff (r : ConversationRecord) : r.AgentStarted ↔
    r.readContext.toOption.join.bind (·.initiator) = some "agent" := by
  rw [AgentStarted]
  match r.readContext with
  | .error e => exact iff_of_false (fun ⟨_, h, _⟩ => by cases h) fun h => by cases h
  | .ok none => exact iff_of_false (fun ⟨_, h, _⟩ => by cases h) fun h => by cases h
  | .ok (some context) => exact ⟨fun ⟨_, h, hagent⟩ => by cases h; exact hagent,
      fun h => ⟨_, rfl, h⟩⟩

instance (r : ConversationRecord) : Decidable r.AgentStarted :=
  decidable_of_iff _ r.agentStarted_iff.symm

/-- The task compresses the row. -/
def IsCompressible (r : ConversationRecord) : Bool :=
  Store.isPlainRow r && (r.context.bind Libraries.compress).isSome

end ConversationRecord

/-- The plain text of the row names an agent as the initiator. -/
def namesAgent (sql : Sqlite) (r : ViewRow) : Bool :=
  (r.record.context.bind sql.jsonInitiator).join == some "agent"

theorem isUserStarted_eq (sql : Sqlite) (r : ViewRow) :
    isUserStarted sql r = !namesAgent sql r := by
  rw [isUserStarted, namesAgent]
  cases (r.record.context.bind sql.jsonInitiator).join <;> rfl

/-- Rows without a plain text pass the filter as well. -/
theorem passes_iff (sql : Sqlite) (r : ViewRow) :
    (isUserStarted sql r || r.record.context.isNone) = isUserStarted sql r := by
  rw [isUserStarted]
  cases r.record.context with
  | none => rfl
  | some context => exact Bool.or_false _

/-! ### The property -/

/-- The filter is the same for every form of a row: no read that applies it returns a
conversation of an agent, and none changes when rows are compressed. The errors of rows
that do not load are not compared. -/
structure FiltersAgents (sql : Sqlite) (s : Store) (wid : WorkspaceHash) : Prop where
  parents : ∀ limit, ∃ rows, getParentRows sql s wid limit = .ok rows ∧
    ∀ r ∈ rows, ¬r.record.AgentStarted
  lite : ∀ limit allWorkspaces, ∃ rows, getParentLiteRows sql s wid limit allWorkspaces = .ok rows ∧
    ∀ r ∈ rows, ¬r.record.AgentStarted
  exports : ∃ rows, exportQuery sql s false = .ok rows ∧ ∀ r ∈ rows, ¬r.record.AgentStarted
  sameParents : ∀ limit,
    (getParentConversations sql s.compressUncompressedContexts.2 wid limit).toOption =
      (getParentConversations sql s wid limit).toOption
  sameLite : ∀ limit allWorkspaces generate,
    getParentConversationsLite sql s.compressUncompressedContexts.2 wid limit allWorkspaces
        generate =
      getParentConversationsLite sql s wid limit allWorkspaces generate
  sameExports : ∀ options existing, options.includeAgent = false →
    exportForgeDb sql s.compressUncompressedContexts.2 options existing =
      exportForgeDb sql s options existing

/-- The plain texts are JSON, each row of an agent has a plain text that names it, and no
plain text that names an agent is going to be compressed. -/
structure PlainAgents (sql : Sqlite) (s : Store) : Prop where
  wellFormed : ∀ r ∈ s.view, malformed sql r = false
  seen : ∀ r ∈ s.view, r.record.AgentStarted → namesAgent sql r = true
  kept : ∀ r ∈ s.view, r.legacySource = false → r.record.IsCompressible = true →
    namesAgent sql r = false

/-! ### The compressed rows -/

/-- A row of the view after the task. -/
def compressView (r : ViewRow) : ViewRow :=
  if r.legacySource = false ∧ Store.isPlainRow r.record then
    { r with record := Store.compressRow r.record }
  else r

theorem Store.view_compressUncompressedContexts (s : Store) :
    s.compressUncompressedContexts.2.view = s.view.map compressView := by
  rw [view, view, List.map_append]
  simp only [compressUncompressedContexts, Table.update, List.map_map]
  congr 1
  -- the legacy rows are left alone by definition
  apply List.map_congr_left
  intro r _
  rw [Function.comp_apply, Function.comp_apply, compressView]
  by_cases hplain : isPlainRow r = true
  · rw [if_pos hplain, if_pos ⟨rfl, hplain⟩]
  · rw [if_neg hplain, if_neg fun h => hplain h.2]

/-- What the task does to a row: it is left alone, or its plain text moves to the blob. -/
theorem compressView_cases (r : ViewRow) :
    (compressView r = r ∧ ¬(r.legacySource = false ∧ r.record.IsCompressible = true)) ∨
    (∃ json blob, r.legacySource = false ∧ r.record.IsCompressible = true ∧
      r.record.isCompressed = 0 ∧ r.record.context = some json ∧
      Libraries.compress json = some blob ∧
      compressView r = { r with record :=
        { r.record with contextZstd := some blob, context := none, isCompressed := 1 } }) := by
  by_cases hplain : r.legacySource = false ∧ Store.isPlainRow r.record = true
  · rw [compressView, if_pos hplain, Store.compressRow]
    obtain ⟨hlocal, hrow⟩ := hplain
    obtain ⟨hflag, hcontext⟩ := Bool.and_eq_true_iff.mp hrow
    obtain ⟨json, hjson⟩ := Option.isSome_iff_exists.mp hcontext
    rw [ConversationRecord.IsCompressible, hrow, hjson, Option.bind_some]
    cases hcompress : Libraries.compress json with
    | none => exact Or.inl ⟨rfl, fun h => Bool.false_ne_true h.2⟩
    | some blob =>
      exact Or.inr ⟨json, blob, hlocal, rfl, beq_iff_eq.mp hflag, rfl, hcompress, rfl⟩
  · rw [compressView, if_neg hplain]
    refine Or.inl ⟨rfl, fun h => hplain ⟨h.1, ?_⟩⟩
    exact (Bool.and_eq_true_iff.mp h.2).1

section Row

variable (r : ViewRow)

theorem compressView_columns : (compressView r).legacySource = r.legacySource ∧
    ∃ context contextZstd flag, (compressView r).record =
      { r.record with context := context, contextZstd := contextZstd, isCompressed := flag } := by
  rcases compressView_cases r with ⟨heq, -⟩ | ⟨json, blob, -, -, -, -, -, heq⟩ <;> rw [heq]
  · exact ⟨rfl, _, _, _, rfl⟩
  · exact ⟨rfl, _, _, _, rfl⟩

@[simp] theorem legacySource_compressView : (compressView r).legacySource = r.legacySource :=
  (compressView_columns r).1

@[simp] theorem id_compressView : (compressView r).id = r.id := by
  obtain ⟨-, context, contextZstd, flag, heq⟩ := compressView_columns r
  rw [ViewRow.id, heq, ViewRow.id]

@[simp] theorem parentId_compressView : (compressView r).record.parentId = r.record.parentId := by
  obtain ⟨-, context, contextZstd, flag, heq⟩ := compressView_columns r
  rw [heq]

@[simp] theorem workspaceId_compressView :
    (compressView r).record.workspaceId = r.record.workspaceId := by
  obtain ⟨-, context, contextZstd, flag, heq⟩ := compressView_columns r
  rw [heq]

@[simp] theorem updatedAt_compressView :
    (compressView r).record.updatedAt = r.record.updatedAt := by
  obtain ⟨-, context, contextZstd, flag, heq⟩ := compressView_columns r
  rw [heq]

@[simp] theorem isVisible_compressView (wid : WorkspaceHash) :
    (compressView r).isVisible wid = r.isVisible wid := by
  simp [ViewRow.isVisible, ViewRow.legacyUnscoped]

@[simp] theorem liteVisible_compressView (wid : WorkspaceHash) (allWorkspaces : Bool) :
    liteVisible wid allWorkspaces (compressView r) = liteVisible wid allWorkspaces r := by
  simp [liteVisible]

@[simp] theorem newer_compressView (a b : ViewRow) :
    (compressView a).newer (compressView b) = a.newer b := by
  simp [ViewRow.newer]

@[simp] theorem localThenNewer_compressView (a b : ViewRow) :
    (compressView a).localThenNewer (compressView b) = a.localThenNewer b := by
  simp [ViewRow.localThenNewer]

theorem summary_compressView (generated : ConversationId) :
    ConversationSummary.from generated (compressView r).record =
      ConversationSummary.from generated r.record := by
  obtain ⟨-, context, contextZstd, flag, heq⟩ := compressView_columns r
  rw [heq]
  rfl

/-- A blob is read as the text that it was made of. -/
theorem readContext_compressView :
    (compressView r).record.readContext.toOption = r.record.readContext.toOption := by
  rcases compressView_cases r with ⟨heq, -⟩ | ⟨json, blob, -, -, hflag, hcontext, hblob, heq⟩ <;>
    rw [heq]
  have hzero : r.record.isCompressed ≠ 1 := by rw [hflag]; decide
  rw [ConversationRecord.readContext_plain hzero hcontext,
    ConversationRecord.readContext_compressed rfl rfl
      (Libraries.decompress_compress json blob hblob)]
  simp only [ConversationRecord.parseContext]
  split
  · rfl
  · split <;> rfl

theorem tryInto_compressView :
    (compressView r).record.tryInto.toOption = r.record.tryInto.toOption := by
  have hread := readContext_compressView r
  obtain ⟨-, context, contextZstd, flag, heq⟩ := compressView_columns r
  rw [ConversationRecord.tryInto, ConversationRecord.tryInto]
  have hid : (compressView r).record.conversationId = r.record.conversationId := id_compressView r
  rw [hid]
  cases ConversationId.parse r.record.conversationId with
  | none => rfl
  | some id =>
    cases hold : r.record.readContext with
    | error e =>
      cases hnew : (compressView r).record.readContext with
      | error e' => rfl
      | ok c' => rw [hnew, hold] at hread; cases hread
    | ok c =>
      cases hnew : (compressView r).record.readContext with
      | error e' => rw [hnew, hold] at hread; cases hread
      | ok c' =>
        rw [hnew, hold] at hread
        obtain rfl := Option.some.inj hread
        rw [heq]
        rfl

theorem load_map_compressView (rows : List ViewRow) :
    (load (rows.map compressView)).toOption = (load rows).toOption := by
  rw [load, load, toOption_mapM, toOption_mapM, List.mapM_map]
  congr 1
  funext r
  exact tryInto_compressView r

theorem malformed_compressView {sql : Sqlite} (h : malformed sql r = false) :
    malformed sql (compressView r) = false := by
  rcases compressView_cases r with ⟨heq, -⟩ | ⟨json, blob, -, -, -, -, -, heq⟩ <;> rw [heq]
  · exact h
  · rfl

/-- A row that is compressed passes the filter afterwards. -/
theorem namesAgent_compressView (sql : Sqlite) : namesAgent sql (compressView r) =
    (namesAgent sql r && !(!r.legacySource && r.record.IsCompressible)) := by
  rcases compressView_cases r with ⟨heq, hkept⟩ | ⟨json, blob, hlocal, hrow, -, -, -, heq⟩ <;>
    rw [heq]
  · have hnot : (!r.legacySource && r.record.IsCompressible) = false := by
      apply Bool.eq_false_iff.mpr
      intro h
      simp only [Bool.and_eq_true, Bool.not_eq_true'] at h
      exact hkept h
    rw [hnot, Bool.not_false, Bool.and_true]
  · rw [hlocal, hrow, Bool.not_false, Bool.true_and, Bool.not_true, Bool.and_false]
    rfl

/-- The export of the row is the same. -/
theorem exportContext_compressView {sql : Sqlite} (hsql : sql.Steady)
    (h : malformed sql r = false) :
    exportContext (.of (compressView r).record) = exportContext (.of r.record) := by
  rcases compressView_cases r with ⟨heq, -⟩ | ⟨json, blob, -, -, -, hcontext, hblob, heq⟩ <;>
    rw [heq]
  have htext : Store.isBlankText json = false := by
    apply Bool.eq_false_iff.mpr
    intro hblank
    rw [malformed, hcontext, Option.any_some, hsql.blank json hblank] at h
    cases h
  simp only [exportContext, HeliosExportRow.of, hcontext, Option.filter_none, Option.filter_some,
    htext, Bool.not_false, if_true, Libraries.decompress_compress json blob hblob]

end Row

/-! ### The lists -/

section Lists

variable {sql : Sqlite} {s : Store} {rows : List ViewRow}

/-- No plain text of a row that is going to be compressed names an agent. -/
def Kept (sql : Sqlite) (rows : List ViewRow) : Prop :=
  ∀ r ∈ rows, r.legacySource = false → r.record.IsCompressible = true → namesAgent sql r = false

theorem isUserStarted_compressView (h : Kept sql rows) {r : ViewRow} (hr : r ∈ rows) :
    isUserStarted sql (compressView r) = isUserStarted sql r := by
  rw [isUserStarted_eq, isUserStarted_eq, namesAgent_compressView]
  cases hnames : namesAgent sql r with
  | false => rfl
  | true =>
    have hnot : (!r.legacySource && r.record.IsCompressible) = false := by
      apply Bool.eq_false_iff.mpr
      intro hrow
      simp only [Bool.and_eq_true, Bool.not_eq_true'] at hrow
      rw [h r hr hrow.1 hrow.2] at hnames
      cases hnames
    rw [hnot]
    rfl

theorem parents_map_compressView (h : Kept sql rows) :
    parents sql (rows.map compressView) = (parents sql rows).map compressView := by
  rw [parents, parents, List.filter_map, List.filter_map]
  congr 1
  have hparent : ((fun r : ViewRow => r.record.parentId.isNone) ∘ compressView) =
      fun r => r.record.parentId.isNone := by
    funext r
    rw [Function.comp_apply, parentId_compressView]
  rw [hparent]
  apply List.filter_congr
  intro r hr
  exact isUserStarted_compressView h (List.mem_filter.mp hr).1

variable {wid : WorkspaceHash}

theorem visible_compressUncompressedContexts :
    s.compressUncompressedContexts.2.visible wid = (s.visible wid).map compressView := by
  rw [Store.visible, Store.visible, s.view_compressUncompressedContexts, List.filter_map]
  congr 2
  funext r
  exact isVisible_compressView r wid

theorem getParentRows_compress (hsql : sql.Steady) (h : PlainAgents sql s) (limit : Option ℕ) :
    ∃ rows, getParentRows sql s wid limit = .ok rows ∧
      getParentRows sql s.compressUncompressedContexts.2 wid limit = .ok (rows.map compressView) ∧
      ∀ r ∈ rows, r ∈ s.view ∧ isUserStarted sql r = true := by
  have hvisible : ∀ r ∈ s.visible wid, r ∈ s.view := fun r hr => (List.mem_filter.mp hr).1
  have hkept : Kept sql (s.visible wid) := fun r hr => h.kept r (hvisible r hr)
  refine ⟨_, getParentRows_ok_iff.mpr ⟨fun r hr _ => h.wellFormed r (hvisible r hr), rfl⟩,
    getParentRows_ok_iff.mpr ⟨?_, ?_⟩, ?_⟩
  · rw [visible_compressUncompressedContexts]
    intro r hr _
    obtain ⟨q, hq, rfl⟩ := List.mem_map.mp hr
    exact malformed_compressView q (h.wellFormed q (hvisible q hq))
  · rw [sortedParents, sortedParents, visible_compressUncompressedContexts,
      parents_map_compressView hkept, hsql.orderBy_map _ _ _ localThenNewer_compressView,
      atMost_map, firstSeen_map id_compressView]
  · intro r hr
    have hparent : r ∈ parents sql (s.visible wid) :=
      (sql.orderBy_perm _ _).subset (atMost_sublist.subset (firstSeen_sublist.subset hr))
    exact ⟨hvisible r (parents_sublist.subset hparent), (List.mem_filter.mp hparent).2⟩

theorem getParentLiteRows_compress (hsql : sql.Steady) (h : PlainAgents sql s) (limit : Option ℕ)
    (allWorkspaces : Bool) :
    ∃ rows, getParentLiteRows sql s wid limit allWorkspaces = .ok rows ∧
      getParentLiteRows sql s.compressUncompressedContexts.2 wid limit allWorkspaces =
        .ok (rows.map compressView) ∧
      ∀ r ∈ rows, r ∈ s.view ∧ isUserStarted sql r = true := by
  refine ⟨_, getParentLiteRows_ok_iff.mpr ⟨fun r hr _ => h.wellFormed r hr, rfl⟩,
    getParentLiteRows_ok_iff.mpr ⟨?_, ?_⟩, ?_⟩
  · rw [s.view_compressUncompressedContexts]
    intro r hr _
    obtain ⟨q, hq, rfl⟩ := List.mem_map.mp hr
    exact malformed_compressView q (h.wellFormed q hq)
  · have hlite : liteVisible wid allWorkspaces ∘ compressView = liteVisible wid allWorkspaces := by
      funext r
      exact liteVisible_compressView r wid allWorkspaces
    rw [sortedLiteParents, sortedLiteParents, s.view_compressUncompressedContexts,
      parents_map_compressView h.kept, List.filter_map, hlite,
      hsql.orderBy_map _ _ _ newer_compressView, atMost_map]
  · intro r hr
    have hparent : r ∈ parents sql s.view :=
      (List.mem_filter.mp ((sql.orderBy_perm _ _).subset (atMost_sublist.subset hr))).1
    exact ⟨parents_sublist.subset hparent, (List.mem_filter.mp hparent).2⟩

end Lists

/-! ### The export -/

section Export

variable {sql : Sqlite} {s : Store}

theorem exportQuery_ok_iff {rows : List ViewRow} : exportQuery sql s false = .ok rows ↔
    (∀ r ∈ s.view, malformed sql r = false) ∧ rows = s.view.filter (isUserStarted sql) := by
  have hpasses : (fun r : ViewRow => isUserStarted sql r || r.record.context.isNone) =
      isUserStarted sql := by
    funext r
    exact passes_iff sql r
  rw [exportQuery, if_neg Bool.false_ne_true, hpasses]
  by_cases hbad : s.view.any (malformed sql) = true
  · rw [if_pos hbad]
    refine iff_of_false (fun h => by cases h) ?_
    rintro ⟨hwell, -⟩
    obtain ⟨r, hr, hmalformed⟩ := List.any_eq_true.mp hbad
    rw [hwell r hr] at hmalformed
    cases hmalformed
  · rw [if_neg hbad, Except.ok.injEq, eq_comm]
    refine (and_iff_right ?_).symm
    intro r hr
    apply Bool.eq_false_iff.mpr
    intro hmalformed
    exact hbad (List.any_eq_true.mpr ⟨r, hr, hmalformed⟩)

/-- A row that is exported as the other one, whatever is in its context columns. -/
theorem exportRow_congr {α : Type} {write : α → HeliosExportRow → Option String → α}
    {row row' : HeliosExportRow}
    (hwrite : ∀ out context, write out row' context = write out row context)
    (hcontext : exportContext row' = exportContext row) (state : α × ForgeExportReport) :
    exportRow write state row' = exportRow write state row := by
  rw [exportRow, exportRow, hcontext]
  cases exportContext row with
  | error e => rfl
  | ok context => exact congrArg (·, _) (hwrite _ _)

theorem exportRows_map {α : Type} {write : α → HeliosExportRow → Option String → α}
    {f : ViewRow → ViewRow} {rows : List ViewRow}
    (hwrite : ∀ r ∈ rows, ∀ out context,
      write out (.of (f r).record) context = write out (.of r.record) context)
    (hcontext : ∀ r ∈ rows, exportContext (.of (f r).record) = exportContext (.of r.record))
    (out : α) (dryRun : Bool) :
    exportRows write out dryRun ((rows.map f).map fun r => .of r.record) =
      exportRows write out dryRun (rows.map fun r => .of r.record) := by
  rw [exportRows, exportRows, List.length_map, List.length_map, List.length_map, List.map_map,
    List.foldl_map, List.foldl_map]
  apply List.foldl_ext
  intro state r hr
  exact exportRow_congr (hwrite r hr) (hcontext r hr) state

@[simp] theorem sourceTotal_exportRows {α : Type}
    (write : α → HeliosExportRow → Option String → α) (out : α) (dryRun : Bool)
    (rows : List HeliosExportRow) :
    (exportRows write out dryRun rows).2.sourceTotal = rows.length := by
  have hfold : ∀ state : α × ForgeExportReport,
      (rows.foldl (exportRow write) state).2.sourceTotal = state.2.sourceTotal := by
    induction rows with
    | nil => intro state; rfl
    | cons row rows ih =>
      intro state
      rw [List.foldl_cons, ih, exportRow]
      cases exportContext row <;> rfl
  exact hfold _

theorem exportWorkspace_compress (s : Store) :
    exportWorkspace s.compressUncompressedContexts.2 = exportWorkspace s := by
  rw [exportWorkspace, exportWorkspace, s.view_compressUncompressedContexts, List.head?_map]
  cases s.view.head? with
  | none => rfl
  | some r => rw [Option.map_some, Option.bind_some, Option.bind_some, workspaceId_compressView]

theorem exportForgeDb_compress (hsql : sql.Steady) (h : PlainAgents sql s)
    {options : ForgeExportOptions} (hagent : options.includeAgent = false)
    (existing : Table OfficialRow.id) :
    exportForgeDb sql s.compressUncompressedContexts.2 options existing =
      exportForgeDb sql s options existing := by
  have hquery := exportQuery_ok_iff.mpr ⟨h.wellFormed, rfl⟩
  have hquery' : exportQuery sql s.compressUncompressedContexts.2 false =
      .ok ((s.view.filter (isUserStarted sql)).map compressView) := by
    apply exportQuery_ok_iff.mpr
    rw [s.view_compressUncompressedContexts]
    constructor
    · intro r hr
      obtain ⟨q, hq, rfl⟩ := List.mem_map.mp hr
      exact malformed_compressView q (h.wellFormed q hq)
    · rw [List.filter_map]
      congr 1
      apply List.filter_congr
      intro r hr
      exact (isUserStarted_compressView h.kept hr).symm
  have hcontext : ∀ r ∈ s.view.filter (isUserStarted sql),
      exportContext (.of (compressView r).record) = exportContext (.of r.record) := fun r hr =>
    exportContext_compressView r hsql (h.wellFormed r (List.mem_filter.mp hr).1)
  have hcolumns : ∀ r : ViewRow, ∃ context contextZstd,
      HeliosExportRow.of (compressView r).record =
        { HeliosExportRow.of r.record with context := context, contextZstd := contextZstd } := by
    intro r
    obtain ⟨-, context, contextZstd, flag, heq⟩ := compressView_columns r
    exact ⟨context, contextZstd, by rw [heq]; rfl⟩
  rw [exportForgeDb, exportForgeDb, hagent, hquery, hquery', exportWorkspace_compress]
  refine congrArg Except.ok ?_
  dsimp only
  cases options.dryRun with
  | true =>
    rw [if_pos rfl, if_pos rfl]
    exact exportRows_map (f := compressView) (fun _ _ _ _ => rfl) hcontext _ _
  | false =>
    rw [if_neg Bool.false_ne_true, if_neg Bool.false_ne_true]
    cases options.format with
    | sqlite | jsonl | csv =>
      refine congrArg (Prod.map _ id) (exportRows_map ?_ hcontext _ _)
      intro r _ out context
      obtain ⟨plain, blob, heq⟩ := hcolumns r
      rw [heq]
      rfl

end Export

/-! ### When the filter is the same -/

section FiltersAgents

variable {sql : Sqlite} {s : Store} {wid : WorkspaceHash}

theorem not_agentStarted (h : PlainAgents sql s) {r : ViewRow} (hr : r ∈ s.view)
    (hstarted : isUserStarted sql r = true) : ¬r.record.AgentStarted := by
  intro hagent
  rw [isUserStarted_eq, h.seen r hr hagent] at hstarted
  cases hstarted

theorem filtersAgents_of_plainAgents (hsql : sql.Steady) (h : PlainAgents sql s) :
    FiltersAgents sql s wid where
  parents limit := by
    obtain ⟨rows, hrows, -, hview⟩ := getParentRows_compress hsql h limit
    exact ⟨rows, hrows, fun r hr => not_agentStarted h (hview r hr).1 (hview r hr).2⟩
  lite limit allWorkspaces := by
    obtain ⟨rows, hrows, -, hview⟩ := getParentLiteRows_compress hsql h limit allWorkspaces
    exact ⟨rows, hrows, fun r hr => not_agentStarted h (hview r hr).1 (hview r hr).2⟩
  exports := by
    refine ⟨_, exportQuery_ok_iff.mpr ⟨h.wellFormed, rfl⟩, ?_⟩
    intro r hr
    obtain ⟨hview, hstarted⟩ := List.mem_filter.mp hr
    exact not_agentStarted h hview hstarted
  sameParents limit := by
    obtain ⟨rows, hrows, hrows', -⟩ := getParentRows_compress hsql h limit
    have hload := load_map_compressView rows
    rw [getParentConversations, getParentConversations, hrows, hrows']
    change ((load (rows.map compressView)).map nonEmptyList).toOption =
      ((load rows).map nonEmptyList).toOption
    cases hold : load rows with
    | error e =>
      cases hnew : load (rows.map compressView) with
      | error e' => rfl
      | ok cs => rw [hold, hnew] at hload; cases hload
    | ok cs =>
      cases hnew : load (rows.map compressView) with
      | error e' => rw [hold, hnew] at hload; cases hload
      | ok cs' =>
        rw [hold, hnew] at hload
        obtain rfl := Option.some.inj hload
        rfl
  sameLite limit allWorkspaces generate := by
    obtain ⟨rows, hrows, hrows', -⟩ := getParentLiteRows_compress hsql h limit allWorkspaces
    rw [getParentConversationsLite, getParentConversationsLite, hrows, hrows']
    refine congrArg (fun l => Except.ok (nonEmptyList l)) ?_
    apply List.ext_getElem
    · simp
    · intro i hi hi'
      simp only [List.getElem_mapIdx, List.getElem_map, summary_compressView]
  sameExports options existing hagent := exportForgeDb_compress hsql h hagent existing

/-- The number of rows that an export without agents finds, before and after the task. -/
theorem length_exported_eq (h : FiltersAgents sql s wid) :
    ((s.view.filter (isUserStarted sql)).length =
      (s.view.filter fun r => isUserStarted sql (compressView r)).length) := by
  obtain ⟨rows, hrows, -⟩ := h.exports
  obtain ⟨hwell, rfl⟩ := exportQuery_ok_iff.mp hrows
  have hrows' : exportQuery sql s.compressUncompressedContexts.2 false =
      .ok (s.compressUncompressedContexts.2.view.filter (isUserStarted sql)) := by
    apply exportQuery_ok_iff.mpr ⟨?_, rfl⟩
    rw [s.view_compressUncompressedContexts]
    intro r hr
    obtain ⟨q, hq, rfl⟩ := List.mem_map.mp hr
    exact malformed_compressView q (hwell q hq)
  -- a dry run reports the number of rows
  have hsame := h.sameExports { dryRun := true, format := .sqlite, includeAgent := false } .empty
    rfl
  rw [exportForgeDb, exportForgeDb, hrows, hrows', s.view_compressUncompressedContexts,
    List.filter_map] at hsame
  have htotal := congrArg (fun result => result.2.sourceTotal) (Except.ok.inj hsame)
  simp only [if_true, sourceTotal_exportRows, List.length_map] at htotal
  exact htotal.symm

/-- The filter is the same for every form of a row if and only if the rows of agents are, and
stay, plain text. -/
theorem filtersAgents_iff (hsql : sql.Steady) : FiltersAgents sql s wid ↔ PlainAgents sql s := by
  refine ⟨fun h => ?_, filtersAgents_of_plainAgents hsql⟩
  obtain ⟨rows, hrows, hagent⟩ := h.exports
  obtain ⟨hwell, rfl⟩ := exportQuery_ok_iff.mp hrows
  refine ⟨hwell, ?_, ?_⟩
  · intro r hr hstarted
    by_contra hnames
    refine hagent r (List.mem_filter.mpr ⟨hr, ?_⟩) hstarted
    rw [isUserStarted_eq, Bool.eq_false_iff.mpr hnames]
    rfl
  · -- a row that passes only once it is compressed adds to the export
    have hmore : ∀ r ∈ s.view, isUserStarted sql r = true →
        isUserStarted sql (compressView r) = true := by
      intro r hr hpasses
      rw [isUserStarted_eq, Bool.not_eq_true'] at hpasses
      rw [isUserStarted_eq, namesAgent_compressView, hpasses]
      rfl
    intro r hr hlocal hrow
    have hpasses := forall_of_length_filter_eq hmore (length_exported_eq h) r hr
    rw [isUserStarted_eq, isUserStarted_eq, namesAgent_compressView, hlocal, hrow] at hpasses
    simpa using hpasses

end FiltersAgents

end HeliosLite

namespace HeliosLite.Greeting

open Theory

attribute [local instance] reference

/-- The engine, to which a blank text is no JSON. -/
def strictEngine : Sqlite :=
  { engine with
    jsonInitiator := fun text =>
      if Store.isBlankText text then none else engine.jsonInitiator text }

theorem steady_strictEngine : strictEngine.Steady where
  blank text h := if_pos h
  orderBy_map le f rows h := by
    refine (List.map_insertionSort _ _ f rows ?_).symm
    intro a _ b _
    rw [h]

/-- The greeting, sent by an agent. -/
def launched : Conversation :=
  { saying "hi" with
    context := (saying "hi").context.map fun context => { context with initiator := some "agent" } }

/-- A row with its context as plain text. -/
def inPlainText (c : Conversation) : ConversationRecord :=
  { ConversationRecord.new c wid .epoch with
    context := c.context.map Context.recordText
    contextZstd := none
    isCompressed := 0 }

/-- A greeting of the user, and one of an agent in the legacy database. -/
def watched : Store :=
  { run Store.step .empty (atEpoch [.upsertConversation wid (saying "hi")]) with
    legacy := [inPlainText launched] }

theorem filtersAgents_watched : FiltersAgents strictEngine watched wid := by
  apply (filtersAgents_iff steady_strictEngine).mpr
  have hview : watched.view.all fun r => !malformed strictEngine r &&
      (!decide r.record.AgentStarted || namesAgent strictEngine r) &&
      (r.legacySource || !r.record.IsCompressible || !namesAgent strictEngine r) := by
    decide +kernel
  have hrow := List.all_eq_true.mp hview
  simp only [Bool.and_eq_true, Bool.or_eq_true, Bool.not_eq_true', decide_eq_false_iff_not] at hrow
  refine ⟨fun r hr => (hrow r hr).1.1, fun r hr hagent => ?_, fun r hr hlocal hcompress => ?_⟩
  · exact (hrow r hr).1.2.resolve_left fun h => h hagent
  · rcases (hrow r hr).2 with (hlegacy | hnot) | hnames
    · rw [hlocal] at hlegacy
      cases hlegacy
    · rw [hcompress] at hnot
      cases hnot
    · exact hnames

/-- The greeting of an agent is stored compressed, so that it is exported; a plain text that
names the agent is exported once it is compressed. -/
theorem not_filtersAgents :
    ¬FiltersAgents strictEngine
        (run Store.step .empty (atEpoch [.upsertConversation wid launched])) wid ∧
      ¬FiltersAgents strictEngine
        { conversations := Table.empty.insert (inPlainText launched) rfl, legacy := [] } wid := by
  constructor
  · intro h
    obtain ⟨rows, hrows, hagent⟩ := h.exports
    have hany : (exportQuery strictEngine
        (run Store.step .empty (atEpoch [.upsertConversation wid launched])) false).toOption.any
          fun rows => rows.any fun r => decide r.record.AgentStarted := by decide +kernel
    rw [hrows] at hany
    obtain ⟨r, hr, hstarted⟩ := List.any_eq_true.mp hany
    exact hagent r hr (of_decide_eq_true hstarted)
  · intro h
    have hsame := h.sameExports { dryRun := true, format := .sqlite, includeAgent := false } .empty
      rfl
    have htotal := congrArg (fun result => result.toOption.map fun out => out.2.sourceTotal) hsame
    exact absurd htotal (by decide +kernel)

end HeliosLite.Greeting
