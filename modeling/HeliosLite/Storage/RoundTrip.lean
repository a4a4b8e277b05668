import HeliosLite.Storage.Exporting
import HeliosLite.Storage.Importing
import HeliosLite.Storage.Saving

/-!
# An export that is imported again

An export to the official schema is imported into an empty store. The export reads local
and legacy rows one after the other and keeps the last row of each id, the import reads the
texts again, and the loaded conversation is compared with the one of the original store.

## Main definitions

* `Store.version` — the row of a conversation, the local one if both databases have it
* `written` — the rows of the file
* `RoundTrips` — the import shows what the original store shows
* `CarriesOver` — the condition on a row of the file

## Main results

* `rows_exportForgeDb` — the file of an export
* `Store.find?_importForgeDb` — the rows of an import into an empty store
* `roundTrips_iff` — when the import shows what the original store shows
* `Greeting.not_roundTrips` — a legacy row that was changed in the local database
-/

namespace HeliosLite

open Serde Theory

/-- Metrics that were read are the same when they are written and read again. -/
theorem MetricsRecord.reloaded_into (record : MetricsRecord) :
    record.into.reloaded = record.into := by
  rw [Metrics.reloaded, MetricsRecord.into]
  congr 1
  split_ifs <;> rfl

variable [Libraries]

/-- What a loaded conversation has of its row. -/
theorem ConversationRecord.content_of_tryInto {r : ConversationRecord} {c : Conversation}
    (h : r.tryInto = .ok c) :
    c.title = r.title ∧ r.readContext = .ok c.context ∧ c.metrics = r.readMetrics := by
  rw [tryInto] at h
  cases hid : ConversationId.parse r.conversationId with
  | none => rw [hid] at h; cases h
  | some id =>
    rw [hid] at h
    cases hread : r.readContext with
    | error e => rw [hread] at h; cases h
    | ok context =>
      rw [hread] at h
      obtain rfl := Except.ok.inj h
      exact ⟨rfl, rfl, rfl⟩

/-! ### The file -/

/-- The context with which the row is exported, unless it fails. -/
def ViewRow.plainContext (r : ViewRow) : Option (Option String) :=
  (exportContext (.of r.record)).toOption

/-- The rows of the file: of each id the last row that is exported. -/
def written (rows : List ViewRow) : List ViewRow :=
  (firstSeen ViewRow.id [] (rows.filter (·.plainContext.isSome)).reverse).reverse

/-- The row of the file. -/
def ViewRow.official (workspaceId : String) (r : ViewRow) : OfficialRow :=
  officialRow workspaceId (.of r.record) r.plainContext.join

theorem exportRows_replace (workspaceId : String) (rows : List ViewRow)
    (state : Table OfficialRow.id × ForgeExportReport) :
    ((rows.map fun r => HeliosExportRow.of r.record).foldl
        (exportRow fun t row context => t.replace (officialRow workspaceId row context)) state).1 =
      ((rows.filter (·.plainContext.isSome)).map (·.official workspaceId)).foldl Table.replace
        state.1 := by
  induction rows generalizing state with
  | nil => rfl
  | cons r rows ih =>
    rw [List.map_cons, List.foldl_cons, ih]
    obtain ⟨t, report⟩ := state
    cases hcontext : exportContext (.of r.record) with
    | error e =>
      have hnone : r.plainContext = none := by rw [ViewRow.plainContext, hcontext]; rfl
      rw [List.filter_cons_of_neg (by rw [hnone]; exact Bool.false_ne_true), exportRow]
      dsimp only
      rw [hcontext]
    | ok context =>
      have hsome : r.plainContext = some context := by rw [ViewRow.plainContext, hcontext]; rfl
      rw [List.filter_cons_of_pos (by rw [hsome]; rfl), List.map_cons, List.foldl_cons,
        ViewRow.official, hsome, exportRow]
      dsimp only
      rw [hcontext]
      rfl

/-- The file of an export has a row for each row that is written. -/
theorem rows_exportForgeDb {sql : Sqlite} {s : Store} {includeAgent : Bool}
    {selected : List ViewRow} (h : exportQuery sql s includeAgent = .ok selected) :
    ∃ dest report, exportForgeDb sql s
        { dryRun := false, format := .sqlite, includeAgent := includeAgent } .empty =
          .ok (.database dest, report) ∧
      dest.rows = (written selected).map (·.official (exportWorkspace s)) := by
  have hfile := exportRows_replace (exportWorkspace s) selected
  rw [exportForgeDb, h]
  refine ⟨_, _, rfl, ?_⟩
  refine (congrArg Table.rows (hfile _)).trans ?_
  have hkey : ∀ r : ViewRow, (r.official (exportWorkspace s)).id = r.id := fun _ => rfl
  rw [Table.rows_foldl_replace, ← List.map_reverse, firstSeen_map hkey, ← List.map_reverse, written]

/-! ### The import -/

namespace Store

/-- The row of a conversation: the local one if both databases have it. -/
def version (s : Store) (id : ConversationId) : Option ConversationRecord :=
  (s.conversations.find? id.intoString).or
    (s.legacy.find? fun r => r.conversationId == id.intoString)

/-- There are no legacy rows, and the ids are spelled as they are printed. -/
structure Canonical (s : Store) : Prop where
  legacy : s.legacy = []
  spelled : ∀ r ∈ s.conversations.rows, ∃ id : ConversationId, r.conversationId = id.intoString

variable {s : Store} {wid : WorkspaceHash} {now : DateTime} {row : SourceRow}
  {report : ForgeImportReport}

/-- A text that is known is the id that it stands for. -/
theorem Canonical.find?_of_knows (h : s.Canonical) {x : String} {id : ConversationId}
    (hid : ConversationId.parse x = some id) (hknows : s.knows x = true) :
    (s.conversations.find? id.intoString).isSome := by
  rw [knows, conversationsAll, h.legacy, List.append_nil] at hknows
  obtain ⟨r, hr, hx⟩ := List.any_eq_true.mp hknows
  obtain ⟨cid, hcid⟩ := h.spelled r hr
  rw [beq_iff_eq, hcid] at hx
  rw [← hx, ConversationId.parse_intoString] at hid
  obtain rfl := Option.some.inj hid
  exact Option.isSome_iff_exists.mpr ⟨r, Table.find?_eq_some_iff.mpr ⟨hr, hcid⟩⟩

/-- The row that an import makes of a source row. -/
def imported (wid : WorkspaceHash) (now : DateTime) (id : ConversationId) (row : SourceRow) :
    ConversationRecord :=
  .new (importedConversation row id now) wid now

/-- Whether the id of the source row is another spelling of the id. -/
def standsFor (id : ConversationId) (row : SourceRow) : Bool :=
  ConversationId.parse row.conversationId == some id

/-- A source row is inserted if no row stands for its id yet. -/
theorem find?_importRow (h : s.Canonical) (id : ConversationId) :
    (importRow wid false now (s, report) row).1.Canonical ∧
      (importRow wid false now (s, report) row).1.conversations.find? id.intoString =
        (s.conversations.find? id.intoString).or
          (if standsFor id row then some (imported wid now id row) else none) := by
  cases hid : ConversationId.parse row.conversationId with
  | none =>
    rw [importRow_invalid hid, standsFor, hid]
    exact ⟨h, (Option.or_none).symm⟩
  | some cid =>
    have hstands : standsFor id row = decide (cid = id) := by
      rw [standsFor, hid]
      by_cases heq : cid = id <;> simp [heq]
    -- an id that has a row keeps it
    have hkept : (s.conversations.find? cid.intoString).isSome →
        s.conversations.find? id.intoString = (s.conversations.find? id.intoString).or
          (if standsFor id row then some (imported wid now id row) else none) := by
      intro hsome
      rw [hstands]
      by_cases heq : cid = id
      · rw [← heq]
        obtain ⟨old, hold⟩ := Option.isSome_iff_exists.mp hsome
        rw [hold, Option.some_or]
      · rw [decide_eq_false heq, if_neg Bool.false_ne_true, Option.or_none]
    cases hknows : s.knows row.conversationId with
    | true =>
      rw [importRow_known hid hknows]
      exact ⟨h, hkept (h.find?_of_knows hid hknows)⟩
    | false =>
      have hfresh := freshId_eq_some_iff.mpr ⟨hknows, hid⟩
      cases hfind : s.conversations.find? cid.intoString with
      | some old =>
        rw [importRow_taken hfresh hfind]
        exact ⟨h, hkept (by rw [hfind]; rfl)⟩
      | none =>
        rw [importRow_inserted hfresh hfind]
        refine ⟨⟨h.legacy, Table.forall_insert hfind h.spelled ⟨cid, rfl⟩⟩,
          (Table.find?_insert (h := hfind) id.intoString).trans ?_⟩
        rw [hstands]
        by_cases heq : cid = id
        · rw [← heq, hfind, Option.none_or, decide_eq_true rfl, if_pos rfl]
          exact if_pos rfl
        · have hne : (ConversationRecord.new (importedConversation row cid now) wid
              now).conversationId ≠ id.intoString := fun hsame =>
            heq (ConversationId.intoString_injective hsame)
          rw [if_neg hne, decide_eq_false heq, if_neg Bool.false_ne_true, Option.or_none]

/-- The first row that stands for an id is imported. -/
theorem find?_foldl_importRow (rows : List SourceRow) (h : s.Canonical) (id : ConversationId) :
    (rows.foldl (importRow wid false now) (s, report)).1.conversations.find? id.intoString =
      (s.conversations.find? id.intoString).or
        ((rows.find? (standsFor id)).map (imported wid now id)) := by
  induction rows generalizing s report with
  | nil => exact (Option.or_none).symm
  | cons row rows ih =>
    obtain ⟨hcanonical, hfind⟩ := @find?_importRow _ s wid now row report h id
    rw [List.foldl_cons, ih hcanonical, hfind, Option.or_assoc]
    congr 1
    cases hstands : standsFor id row with
    | true => rw [if_pos rfl, Option.some_or, List.find?_cons_of_pos hstands, Option.map_some]
    | false =>
      rw [if_neg Bool.false_ne_true, Option.none_or,
        List.find?_cons_of_neg (by rw [hstands]; exact Bool.false_ne_true)]

theorem find?_importForgeDb (rows : List SourceRow) (id : ConversationId) :
    (Store.empty.importForgeDb wid rows false now).1.conversations.find? id.intoString =
      (rows.find? (standsFor id)).map (imported wid now id) := by
  have hempty : Store.empty.Canonical := ⟨rfl, fun r hr => absurd hr List.not_mem_nil⟩
  rw [importForgeDb, find?_foldl_importRow rows hempty]
  exact Option.none_or

end Store

/-! ### What is shown -/

/-- What the import makes of the metrics of a source row. -/
def importedMetrics (row : SourceRow) (now : DateTime) : Metrics :=
  match row.metrics.bind fun json => (fromText json).bind MetricsRecord.deserialize with
  | some record => record.into
  | none =>
    { Metrics.default with startedAt := some ((Store.parseNaiveDatetime row.createdAt).getD now) }

theorem metrics_importedConversation (row : SourceRow) (id : ConversationId) (now : DateTime) :
    (Store.importedConversation row id now).metrics = importedMetrics row now := rfl

theorem reloaded_importedMetrics (row : SourceRow) (now : DateTime) :
    (importedMetrics row now).reloaded = importedMetrics row now := by
  rw [importedMetrics]
  split
  · exact MetricsRecord.reloaded_into _
  · rfl

/-- The row of the file shows what the row of the store shows: it has the title, its text reads
as the context, which is not blank and comes back as it is, and its metrics read as the same. -/
structure CarriesOver (row : SourceRow) (now : DateTime) (r : ConversationRecord) : Prop where
  title : row.title = r.title
  context : r.readContext = .ok (((row.context.bind Store.importedContext).filter
    fun context => !context.isBlank).map Context.reloaded)
  shallow : ∀ context ∈ row.context.bind Store.importedContext, ¬context.isBlank → context.Shallow
  metrics : importedMetrics row now = r.readMetrics

/-- The conversation has the title, the context and the metrics of the other one. -/
structure SameContent (c' c : Conversation) : Prop where
  title : c'.title = c.title
  context : c'.context = c.context
  metrics : c'.metrics = c.metrics

variable {s : Store} {wid : WorkspaceHash} {now : DateTime}

/-- A row of the import shows what the row of the file carries. -/
theorem carriesOver_iff (row : SourceRow) {id : ConversationId} {r : ConversationRecord}
    {c : Conversation} (hc : r.tryInto = .ok c) :
    (∃ c', (Store.imported wid now id row).tryInto = .ok c' ∧ SameContent c' c) ↔
      CarriesOver row now r := by
  have hid : ConversationId.parse (Store.imported wid now id row).conversationId = some id :=
    ConversationId.parse_intoString id
  have hholds : (Store.imported wid now id row).HoldsContext
      (encodeContext (row.context.bind Store.importedContext) now) := Store.holdsContext_new _ _ _
  have hmetrics : (Store.imported wid now id row).readMetrics = importedMetrics row now := by
    rw [ConversationRecord.readMetrics_serialize rfl, metrics_importedConversation,
      reloaded_importedMetrics]
  obtain ⟨htitle, hcontext, hmetrics'⟩ := ConversationRecord.content_of_tryInto hc
  rw [ConversationRecord.tryInto, hid]
  dsimp only
  by_cases hshallow : ∀ context ∈ row.context.bind Store.importedContext,
      ¬context.isBlank → context.Shallow
  · rw [ConversationRecord.readContext_encodeContext hholds hshallow]
    constructor
    · rintro ⟨c', hc', hsame⟩
      obtain rfl := Except.ok.inj hc'
      refine ⟨hsame.title.trans htitle, ?_, hshallow, ?_⟩
      · rw [hcontext]
        exact congrArg Except.ok hsame.context.symm
      · exact hmetrics.symm.trans (hsame.metrics.trans hmetrics')
    · intro h
      refine ⟨_, rfl, h.title.trans htitle.symm, ?_, ?_⟩
      · exact Except.ok.inj (h.context.symm.trans hcontext)
      · exact hmetrics.trans (h.metrics.trans hmetrics'.symm)
  · -- a context that is nested too deeply is not loaded
    refine iff_of_false ?_ fun h => hshallow h.shallow
    push Not at hshallow
    obtain ⟨context, hmem, hblank, hdeep⟩ := hshallow
    rw [Option.mem_def.mp hmem] at hholds
    obtain ⟨e, he⟩ := ConversationRecord.readContext_deep hholds hblank hdeep
    rw [he]
    rintro ⟨c', hc', -⟩
    cases hc'

/-- Legacy history is not imported as such. -/
theorem legacy_importForgeDb (rows : List SourceRow) :
    (Store.empty.importForgeDb wid rows false now).1.legacy = [] := by
  apply Store.importForgeDb_induction (P := fun t => t.legacy = [])
  · intro t row cid _ _ _ _ hlegacy _
    exact hlegacy
  · rfl

/-- The conversation that the import of the rows shows. -/
theorem getConversation_importForgeDb (rows : List SourceRow) (id : ConversationId) :
    (Store.empty.importForgeDb wid rows false now).1.getConversation wid id =
      match rows.find? (Store.standsFor id) with
      | some row => (Store.imported wid now id row).tryInto.map some
      | none => .ok none := by
  have hfind := @Store.find?_importForgeDb _ wid now rows id
  rw [Store.getConversation, Store.visibleRow, legacy_importForgeDb, List.find?_nil, Option.or_none]
  cases hrow : rows.find? (Store.standsFor id) with
  | some row =>
    rw [hrow] at hfind
    rw [Store.findOwned_eq_some_iff.mpr ⟨hfind, rfl⟩]
  | none =>
    rw [hrow] at hfind
    have hnone : (Store.empty.importForgeDb wid rows false now).1.findOwned id.intoString
        wid.column = none := by
      cases howned : (Store.empty.importForgeDb wid rows false now).1.findOwned id.intoString
          wid.column with
      | none => rfl
      | some r =>
        rw [(Store.findOwned_eq_some_iff.mp howned).1] at hfind
        cases hfind
    rw [hnone]

/-! ### The round trip -/

/-- The import of an export shows, for every exported id, what the original store shows to a
workspace that sees its version. -/
def RoundTrips (sql : Sqlite) (s : Store) (includeAgent : Bool) (wid : WorkspaceHash)
    (now : DateTime) : Prop :=
  ∀ dest report, exportForgeDb sql s
      { dryRun := false, format := .sqlite, includeAgent := includeAgent } .empty =
        .ok (.database dest, report) →
    ∀ id : ConversationId, (∃ row ∈ dest.rows, row.conversationId = id.intoString) →
      ∀ owner c, s.visibleRow owner id = s.version id →
        s.getConversation owner id = .ok (some c) →
          ∃ c', (Store.empty.importForgeDb wid (dest.rows.map (·.toSourceRow)) false
            now).1.getConversation wid id = .ok (some c') ∧ SameContent c' c

/-- Of every exported id, the row of the file that stands for it, the first of several
spellings, carries the version of the conversation. -/
def CarriedOver (sql : Sqlite) (s : Store) (includeAgent : Bool) (now : DateTime) : Prop :=
  ∀ selected, exportQuery sql s includeAgent = .ok selected →
    ∀ id : ConversationId, (∃ r ∈ written selected, r.id = id.intoString) →
      ∀ owner r context, s.visibleRow owner id = some r → s.version id = some r →
        r.readContext = .ok context →
          ∃ row ∈ (written selected).find? fun q => ConversationId.parse q.id == some id,
            CarriesOver (row.official (exportWorkspace s)).toSourceRow now r

/-- The row that a workspace sees has the id. -/
theorem conversationId_of_visibleRow {owner : WorkspaceHash} {id : ConversationId}
    {r : ConversationRecord} (h : s.visibleRow owner id = some r) :
    r.conversationId = id.intoString := by
  rcases Option.or_eq_some_iff.mp h with howned | ⟨-, hlegacy⟩
  · exact (Table.find?_eq_some_iff.mp (Store.findOwned_eq_some_iff.mp howned).1).2
  · have hid := List.find?_some hlegacy
    exact beq_iff_eq.mp (Bool.and_eq_true_iff.mp hid).1

/-- A row whose context is read is loaded. -/
theorem exists_tryInto {id : ConversationId} {r : ConversationRecord}
    {context : Option Context} (hid : r.conversationId = id.intoString)
    (hread : r.readContext = .ok context) : ∃ c, r.tryInto = .ok c := by
  rw [ConversationRecord.tryInto, hid, ConversationId.parse_intoString]
  dsimp only
  rw [hread]
  exact ⟨_, rfl⟩

section RoundTrips

variable {sql : Sqlite} {includeAgent : Bool}

/-- The conversation that the import of a file shows is the one of the row that stands for it. -/
theorem sameContent_iff (selected : List ViewRow) (workspaceId : String) {id : ConversationId}
    {r : ConversationRecord} {c : Conversation} (hc : r.tryInto = .ok c) :
    (∃ c', (Store.empty.importForgeDb wid
        (((written selected).map (·.official workspaceId)).map (·.toSourceRow)) false
          now).1.getConversation wid id = .ok (some c') ∧ SameContent c' c) ↔
      ∃ row ∈ (written selected).find? fun q => ConversationId.parse q.id == some id,
        CarriesOver (row.official workspaceId).toSourceRow now r := by
  rw [getConversation_importForgeDb, List.find?_map, List.find?_map]
  have hstands : (Store.standsFor id ∘ fun row : OfficialRow => row.toSourceRow) ∘
      (fun r : ViewRow => r.official workspaceId) =
        fun q => ConversationId.parse q.id == some id := rfl
  rw [hstands]
  cases (written selected).find? fun q => ConversationId.parse q.id == some id with
  | none =>
    refine iff_of_false ?_ (by simp)
    rintro ⟨c', hc', -⟩
    cases hc'
  | some row =>
    simp only [Option.map_some, Option.mem_some_iff, exists_eq_left']
    rw [← @carriesOver_iff _ wid now _ id _ _ hc]
    constructor
    · rintro ⟨c', hc', hsame⟩
      exact ⟨c', map_some_ok hc', hsame⟩
    · rintro ⟨c', hc', hsame⟩
      exact ⟨c', by rw [hc']; rfl, hsame⟩

end RoundTrips

end HeliosLite

namespace HeliosLite.Greeting

open Theory

attribute [local instance] reference

/-- The greeting has a title in the local database, and none in the legacy one. -/
def renamed : Store :=
  let s := run Store.step .empty
    (atEpoch [.upsertConversation wid { saying "hi" with title := some "hello" }])
  { s with legacy := s.conversations.rows.map fun r => { r with title := none } }

/-- The title of the greeting, if it is loaded. -/
def loadedTitle (s : Store) : Option (Option String) :=
  (s.getConversation wid id).toOption.join.map (·.title)

theorem exists_of_loadedTitle {s : Store} {title : Option String}
    (h : loadedTitle s = some title) :
    ∃ c, s.getConversation wid id = .ok (some c) ∧ c.title = title := by
  rw [loadedTitle] at h
  match hget : s.getConversation wid id with
  | .error e => rw [hget] at h; cases h
  | .ok none => rw [hget] at h; cases h
  | .ok (some c) => rw [hget] at h; exact ⟨c, rfl, Option.some.inj h⟩

end HeliosLite.Greeting
