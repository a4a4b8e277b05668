import HeliosLite.Storage.Mutation
import HeliosLite.Storage.Reference
import Mathlib.Data.List.Perm.Subperm

/-!
# Dry runs and repeated imports

A dry run counts a source row as imported if its id is new as it is spelled. An import
inserts it under the id as it is printed, and the rows after it see that. The two agree, and
a second import has nothing to do, if no new id is spelled otherwise or comes twice.

## Main definitions

* `Store.freshId` — the id of a source row that no row of the store has
* `Store.ImportsAlike` — what a dry run and a second import owe to the first import
* `Store.SpelledOnce` — every new id is spelled as it is printed, and comes once

## Main results

* `Store.imported_foldl` — what an import inserts
* `Store.foldl_of_settled` — what an import does once its rows were imported
* `Store.importsAlike_iff` — when dry runs and repeated imports are exact
* `Greeting.not_importsAlike` — an id that is spelled otherwise, and one that comes twice
-/

namespace HeliosLite

open Theory

/-- The rows of the source that were counted. -/
def ForgeImportReport.processed (report : ForgeImportReport) : ℕ :=
  report.imported + report.skippedExisting + report.invalidId + report.errors

/-- The report before the first row. -/
def ForgeImportReport.start (total : ℕ) (dryRun : Bool) : ForgeImportReport :=
  { sourceTotal := total
    imported := 0
    skippedExisting := 0
    invalidId := 0
    contextParseFailed := 0
    errors := 0
    dryRun := dryRun }

@[simp] theorem ForgeImportReport.imported_start (total : ℕ) (dryRun : Bool) :
    (start total dryRun).imported = 0 := rfl

@[simp] theorem ForgeImportReport.errors_start (total : ℕ) (dryRun : Bool) :
    (start total dryRun).errors = 0 := rfl

variable [Libraries]

/-- A context that does not read is counted. -/
def ForgeImportReport.parsed (report : ForgeImportReport) (row : SourceRow) : ForgeImportReport :=
  if Store.contextParseFailed row then
    { report with contextParseFailed := report.contextParseFailed + 1 }
  else report

namespace ForgeImportReport

variable (report : ForgeImportReport) (row : SourceRow)

@[simp] theorem imported_parsed : (report.parsed row).imported = report.imported := by
  rw [parsed]
  split <;> rfl

@[simp] theorem errors_parsed : (report.parsed row).errors = report.errors := by
  rw [parsed]
  split <;> rfl

@[simp] theorem processed_parsed : (report.parsed row).processed = report.processed := by
  rw [parsed]
  split <;> rfl

end ForgeImportReport

namespace Store

/-- Some row has the id, local or legacy. -/
def knows (s : Store) (id : String) : Bool :=
  s.conversationsAll.any fun r => r.conversationId == id

/-- The id of a source row, if no row of the store has it as it is spelled. -/
def freshId (s : Store) (row : SourceRow) : Option ConversationId :=
  if s.knows row.conversationId then none else ConversationId.parse row.conversationId

/-- A dry run reports the counts of the import, every row is counted once, and a second import
imports nothing and fails nowhere. -/
structure ImportsAlike (s : Store) (wid : WorkspaceHash) (rows : List SourceRow)
    (dryNow now later : DateTime) : Prop where
  counts : { (s.importForgeDb wid rows true dryNow).2 with dryRun := false } =
    (s.importForgeDb wid rows false now).2
  total : (s.importForgeDb wid rows false now).2.processed =
    (s.importForgeDb wid rows false now).2.sourceTotal
  nothing : ((s.importForgeDb wid rows false now).1.importForgeDb wid rows false later).2.imported
    = 0
  noError : ((s.importForgeDb wid rows false now).1.importForgeDb wid rows false later).2.errors
    = 0

/-- Every new id is spelled as it is printed, and comes once. -/
structure SpelledOnce (s : Store) (rows : List SourceRow) : Prop where
  spelled : ∀ row ∈ rows, ∀ id ∈ s.freshId row, id.intoString = row.conversationId
  once : (rows.filterMap s.freshId).Nodup

variable {s s' : Store} {wid : WorkspaceHash} {now later : DateTime} {dryRun : Bool}
  {rows : List SourceRow} {row : SourceRow} {id : ConversationId} {report : ForgeImportReport}

/-! ### A source row -/

theorem importRow_invalid (h : ConversationId.parse row.conversationId = none) :
    importRow wid dryRun now (s, report) row =
      (s, { report with invalidId := report.invalidId + 1 }) := by
  rw [importRow]
  dsimp only
  rw [h]

theorem importRow_known (h : ConversationId.parse row.conversationId = some id)
    (hknows : s.knows row.conversationId) :
    importRow wid dryRun now (s, report) row =
      (s, { report with skippedExisting := report.skippedExisting + 1 }) := by
  rw [importRow]
  dsimp only
  rw [h]
  exact if_pos hknows

theorem freshId_eq_some_iff : s.freshId row = some id ↔
    s.knows row.conversationId = false ∧ ConversationId.parse row.conversationId = some id := by
  rw [freshId]
  cases s.knows row.conversationId <;> simp

theorem freshId_eq_none_iff : s.freshId row = none ↔
    ConversationId.parse row.conversationId = none ∨ s.knows row.conversationId = true := by
  rw [freshId]
  cases s.knows row.conversationId <;> simp

theorem importRow_fresh (h : s.freshId row = some id) :
    importRow wid dryRun now (s, report) row =
      if dryRun then
        (s, { report.parsed row with imported := (report.parsed row).imported + 1 })
      else
        match s.insertRow (.new (importedConversation row id now) wid now) with
        | some inserted =>
          (inserted, { report.parsed row with imported := (report.parsed row).imported + 1 })
        | none => (s, { report.parsed row with errors := (report.parsed row).errors + 1 }) := by
  obtain ⟨hknows, hid⟩ := freshId_eq_some_iff.mp h
  rw [importRow]
  dsimp only
  rw [hid]
  exact if_neg (Bool.eq_false_iff.mp hknows)

theorem importRow_dry (h : s.freshId row = some id) :
    importRow wid true now (s, report) row =
      (s, { report.parsed row with imported := report.imported + 1 }) := by
  rw [importRow_fresh h, if_pos rfl, report.imported_parsed row]

theorem importRow_taken {old : ConversationRecord} (h : s.freshId row = some id)
    (hfind : s.conversations.find? id.intoString = some old) :
    importRow wid false now (s, report) row =
      (s, { report.parsed row with errors := report.errors + 1 }) := by
  rw [importRow_fresh h, if_neg Bool.false_ne_true,
    insertRow_of_some (r := .new (importedConversation row id now) wid now) hfind,
    report.errors_parsed row]

theorem importRow_inserted (h : s.freshId row = some id)
    (hfind : s.conversations.find? id.intoString = none) :
    importRow wid false now (s, report) row =
      ({ s with
          conversations :=
            s.conversations.insert (.new (importedConversation row id now) wid now) hfind },
        { report.parsed row with imported := report.imported + 1 }) := by
  rw [importRow_fresh h, if_neg Bool.false_ne_true,
    insertRow_of_none (r := .new (importedConversation row id now) wid now) hfind]
  dsimp only
  rw [report.imported_parsed row]

/-- Every row is counted once. -/
theorem processed_importRow (state : Store × ForgeImportReport) :
    (importRow wid dryRun now state row).2.processed = state.2.processed + 1 := by
  obtain ⟨s, report⟩ := state
  have hparsed := report.processed_parsed row
  cases hid : ConversationId.parse row.conversationId with
  | none =>
    rw [importRow_invalid hid]
    simp only [ForgeImportReport.processed]
    omega
  | some id =>
    cases hknows : s.knows row.conversationId with
    | true =>
      rw [importRow_known hid hknows]
      simp only [ForgeImportReport.processed]
      omega
    | false =>
      have hfresh := freshId_eq_some_iff.mpr ⟨hknows, hid⟩
      have himported := report.imported_parsed row
      have herrors := report.errors_parsed row
      simp only [ForgeImportReport.processed] at hparsed ⊢
      cases dryRun with
      | true =>
        rw [importRow_dry hfresh]
        dsimp only
        omega
      | false =>
        cases hfind : s.conversations.find? id.intoString with
        | none =>
          rw [importRow_inserted hfresh hfind]
          dsimp only
          omega
        | some old =>
          rw [importRow_taken hfresh hfind]
          dsimp only
          omega

theorem processed_foldl (state : Store × ForgeImportReport) :
    (rows.foldl (importRow wid dryRun now) state).2.processed =
      state.2.processed + rows.length := by
  induction rows generalizing state with
  | nil => rfl
  | cons row rows ih =>
    rw [List.foldl_cons, ih, processed_importRow, List.length_cons]
    omega

theorem sourceTotal_foldl (state : Store × ForgeImportReport) :
    (rows.foldl (importRow wid dryRun now) state).2.sourceTotal = state.2.sourceTotal := by
  induction rows generalizing state with
  | nil => rfl
  | cons row rows ih =>
    rw [List.foldl_cons, ih, importRow]
    repeat' split
    all_goals rfl

/-! ### A dry run -/

/-- A dry run counts the new ids as imported. -/
theorem foldl_dry (s : Store) (report : ForgeImportReport) :
    (rows.foldl (importRow wid true now) (s, report)).1 = s ∧
      (rows.foldl (importRow wid true now) (s, report)).2.imported =
        report.imported + (rows.filterMap s.freshId).length := by
  induction rows generalizing report with
  | nil => exact ⟨rfl, rfl⟩
  | cons row rows ih =>
    rw [List.foldl_cons]
    cases hfresh : s.freshId row with
    | some id =>
      rw [importRow_dry hfresh, List.filterMap_cons_some hfresh, List.length_cons]
      obtain ⟨hstore, himported⟩ := ih { report.parsed row with imported := report.imported + 1 }
      refine ⟨hstore, himported.trans ?_⟩
      dsimp only
      omega
    | none =>
      rw [List.filterMap_cons_none hfresh]
      cases hid : ConversationId.parse row.conversationId with
      | none =>
        rw [importRow_invalid hid]
        exact ih _
      | some id =>
        have hknows := (freshId_eq_none_iff.mp hfresh).resolve_left (by simp [hid])
        rw [importRow_known hid hknows]
        exact ih _

/-! ### An import -/

/-- The ids that were inserted. -/
structure Imported (s : Store) (rows : List SourceRow) (ids : List ConversationId)
    (s' : Store) : Prop where
  nodup : ids.Nodup
  fresh : ids ⊆ rows.filterMap s.freshId
  knows : ∀ x, s'.knows x ↔ s.knows x ∨ ∃ id ∈ ids, id.intoString = x
  holds : ∀ id ∈ ids, (s'.conversations.find? id.intoString).isSome

theorem knows_insert {r : ConversationRecord}
    (h : s.conversations.find? r.conversationId = none) (x : String) :
    ({ s with conversations := s.conversations.insert r h } : Store).knows x ↔
      s.knows x ∨ r.conversationId = x := by
  simp only [knows, conversationsAll, Table.insert, List.any_append, List.any_cons, List.any_nil,
    Bool.or_false, Bool.or_eq_true, beq_iff_eq]
  rw [or_right_comm]

theorem Imported.freshId {ids : List ConversationId} (h : s.Imported rows ids s')
    (hfresh : s'.freshId row = some id) : s.freshId row = some id := by
  obtain ⟨hknows, hid⟩ := freshId_eq_some_iff.mp hfresh
  refine freshId_eq_some_iff.mpr ⟨?_, hid⟩
  apply Bool.eq_false_iff.mpr
  intro hold
  rw [(h.knows _).mpr (Or.inl hold)] at hknows
  cases hknows

theorem Imported.skip {ids : List ConversationId} (h : s.Imported rows ids s') :
    s.Imported (rows ++ [row]) ids s' := by
  refine ⟨h.nodup, ?_, h.knows, h.holds⟩
  rw [List.filterMap_append]
  exact List.subset_append_of_subset_left _ h.fresh

theorem Imported.insert {ids : List ConversationId} {r : ConversationRecord}
    (h : s.Imported rows ids s') (hfresh : s.freshId row = some id)
    (hr : r.conversationId = id.intoString)
    (hfind : s'.conversations.find? r.conversationId = none) :
    s.Imported (rows ++ [row]) (ids ++ [id])
      { s' with conversations := s'.conversations.insert r hfind } := by
  refine ⟨?_, ?_, ?_, ?_⟩
  · -- an id that was inserted is in the table
    apply List.nodup_append.mpr
    refine ⟨h.nodup, List.nodup_singleton _, ?_⟩
    intro k hk l hl heq
    have hsome := h.holds k hk
    rw [heq, List.mem_singleton.mp hl, ← hr, hfind] at hsome
    cases hsome
  · apply List.append_subset.mpr
    have hskip : s.Imported (rows ++ [row]) ids s' := h.skip
    refine ⟨hskip.fresh, ?_⟩
    intro k hk
    rw [List.mem_singleton.mp hk]
    exact List.mem_filterMap.mpr ⟨row, List.mem_append_right _ List.mem_cons_self, hfresh⟩
  · intro x
    rw [knows_insert, h.knows x, hr, or_assoc]
    apply or_congr_right
    constructor
    · rintro (⟨k, hk, hx⟩ | hx)
      · exact ⟨k, List.mem_append_left _ hk, hx⟩
      · exact ⟨id, List.mem_append_right _ List.mem_cons_self, hx⟩
    · rintro ⟨k, hk, hx⟩
      rcases List.mem_append.mp hk with hk | hk
      · exact Or.inl ⟨k, hk, hx⟩
      · rw [List.mem_singleton.mp hk] at hx
        exact Or.inr hx
  · intro k hk
    rw [Table.find?_insert]
    split_ifs with heq
    · rfl
    · rcases List.mem_append.mp hk with hk | hk
      · exact h.holds k hk
      · rw [List.mem_singleton.mp hk] at heq
        exact absurd hr heq

/-- A row whose id does not read or is not new leaves the store. -/
theorem importRow_stale (h : s.freshId row = none) :
    ∃ counted, importRow wid dryRun now (s, report) row = (s, counted) ∧
      counted.imported = report.imported ∧ counted.errors = report.errors := by
  cases hid : ConversationId.parse row.conversationId with
  | none => exact ⟨_, importRow_invalid hid, rfl, rfl⟩
  | some id =>
    have hknows := (freshId_eq_none_iff.mp h).resolve_left (by simp [hid])
    exact ⟨_, importRow_known hid hknows, rfl, rfl⟩

/-- An import counts what it inserts. -/
theorem imported_foldl (s : Store) (report : ForgeImportReport) (rows : List SourceRow) :
    ∃ ids, s.Imported rows ids (rows.foldl (importRow wid false now) (s, report)).1 ∧
      (rows.foldl (importRow wid false now) (s, report)).2.imported =
        report.imported + ids.length := by
  induction rows using List.reverseRecOn with
  | nil => exact ⟨[], ⟨List.nodup_nil, List.nil_subset _, by simp, by simp⟩, rfl⟩
  | append_singleton rows row ih =>
    obtain ⟨ids, h, hcount⟩ := ih
    rw [List.foldl_append, List.foldl_cons, List.foldl_nil]
    generalize rows.foldl (importRow wid false now) (s, report) = state at h hcount
    obtain ⟨t, counted⟩ := state
    cases hfresh : t.freshId row with
    | none =>
      obtain ⟨left, hrow, himported, -⟩ := importRow_stale hfresh
      rw [hrow]
      exact ⟨ids, h.skip, himported.trans hcount⟩
    | some id =>
      cases hfind : t.conversations.find? id.intoString with
      | some old =>
        rw [importRow_taken hfresh hfind]
        exact ⟨ids, h.skip, (counted.imported_parsed row).trans hcount⟩
      | none =>
        rw [importRow_inserted hfresh hfind]
        refine ⟨ids ++ [id], h.insert (h.freshId hfresh) rfl hfind, ?_⟩
        rw [List.length_append, List.length_singleton, ← Nat.add_assoc]
        exact congrArg (· + 1) hcount

/-! ### A second import -/

/-- If the row is new as it is spelled, its id is in the table. -/
def Settled (s : Store) (row : SourceRow) : Prop :=
  ∀ id ∈ s.freshId row, (s.conversations.find? id.intoString).isSome

theorem Settled.insert {r : ConversationRecord} (h : s.Settled row)
    (hfind : s.conversations.find? r.conversationId = none) :
    ({ s with conversations := s.conversations.insert r hfind } : Store).Settled row := by
  intro id hid
  obtain ⟨hknows, hparse⟩ := freshId_eq_some_iff.mp hid
  have hnew : s.freshId row = some id := by
    refine freshId_eq_some_iff.mpr ⟨?_, hparse⟩
    apply Bool.eq_false_iff.mpr
    intro hold
    rw [(knows_insert hfind _).mpr (Or.inl hold)] at hknows
    cases hknows
  rw [Table.find?_insert]
  split_ifs
  · rfl
  · exact h id hnew

theorem settled_insert {r : ConversationRecord}
    (hid : ConversationId.parse row.conversationId = some id)
    (hr : r.conversationId = id.intoString)
    (hfind : s.conversations.find? r.conversationId = none) :
    ({ s with conversations := s.conversations.insert r hfind } : Store).Settled row := by
  intro k hk
  have hsame := (freshId_eq_some_iff.mp hk).2
  rw [hid] at hsame
  obtain rfl := Option.some.inj hsame
  rw [Table.find?_insert, if_pos hr]
  rfl

/-- After an import its rows have nothing left to insert. -/
theorem settled_foldl (s : Store) (report : ForgeImportReport) :
    ∀ row ∈ rows, (rows.foldl (importRow wid false now) (s, report)).1.Settled row := by
  induction rows using List.reverseRecOn with
  | nil => exact fun _ h => absurd h List.not_mem_nil
  | append_singleton rows last ih =>
    rw [List.foldl_append, List.foldl_cons, List.foldl_nil]
    generalize rows.foldl (importRow wid false now) (s, report) = state at ih
    obtain ⟨t, counted⟩ := state
    rw [List.forall_mem_append, List.forall_mem_singleton]
    cases hfresh : t.freshId last with
    | none =>
      obtain ⟨left, hrow, -⟩ := importRow_stale hfresh
      rw [hrow]
      refine ⟨ih, ?_⟩
      intro id hid
      rw [hfresh] at hid
      cases hid
    | some id =>
      cases hfind : t.conversations.find? id.intoString with
      | some old =>
        rw [importRow_taken hfresh hfind]
        refine ⟨ih, ?_⟩
        intro k hk
        rw [hfresh] at hk
        obtain rfl := Option.some.inj hk
        rw [hfind]
        rfl
      | none =>
        rw [importRow_inserted hfresh hfind]
        refine ⟨fun row hrow => Settled.insert (ih row hrow) hfind, ?_⟩
        exact settled_insert (freshId_eq_some_iff.mp hfresh).2 rfl hfind

/-- Rows that have nothing left to insert fail if they are new as they are spelled. -/
theorem foldl_of_settled (report : ForgeImportReport) (h : ∀ row ∈ rows, s.Settled row) :
    (rows.foldl (importRow wid false now) (s, report)).2.imported = report.imported ∧
      (rows.foldl (importRow wid false now) (s, report)).2.errors =
        report.errors + (rows.filterMap s.freshId).length := by
  induction rows generalizing report with
  | nil => exact ⟨rfl, rfl⟩
  | cons row rows ih =>
    rw [List.forall_mem_cons] at h
    rw [List.foldl_cons]
    cases hfresh : s.freshId row with
    | none =>
      obtain ⟨left, hrow, himported, herrors⟩ := importRow_stale hfresh
      rw [hrow, List.filterMap_cons_none hfresh, ← himported, ← herrors]
      exact ih left h.2
    | some id =>
      obtain ⟨old, hfind⟩ := Option.isSome_iff_exists.mp (h.1 id hfresh)
      rw [importRow_taken hfresh hfind, List.filterMap_cons_some hfresh, List.length_cons]
      obtain ⟨hsame, hfailed⟩ := ih { report.parsed row with errors := report.errors + 1 } h.2
      refine ⟨hsame.trans (report.imported_parsed row), hfailed.trans ?_⟩
      dsimp only
      omega

/-! ### The counts of a dry run -/

theorem SpelledOnce.init (h : s.SpelledOnce (rows ++ [row])) : s.SpelledOnce rows := by
  refine ⟨fun q hq => h.spelled q (List.mem_append_left _ hq), ?_⟩
  have honce := h.once
  rw [List.filterMap_append] at honce
  exact honce.of_append_left

/-- The last id is new to the rows before it. -/
theorem SpelledOnce.last {ids : List ConversationId} (h : s.SpelledOnce (rows ++ [row]))
    (himported : s.Imported rows ids s') (hfresh : s.freshId row = some id) :
    s'.freshId row = some id ∧ s'.conversations.find? id.intoString = none := by
  obtain ⟨hknows, hid⟩ := freshId_eq_some_iff.mp hfresh
  have hspelled := h.spelled row (List.mem_append_right _ List.mem_cons_self) id hfresh
  have hunknown : s'.knows row.conversationId = false := by
    apply Bool.eq_false_iff.mpr
    intro hnew
    rcases (himported.knows _).mp hnew with hold | ⟨k, hk, hsame⟩
    · rw [hold] at hknows
      cases hknows
    · rw [← hspelled] at hsame
      obtain rfl := ConversationId.intoString_injective hsame
      have honce := h.once
      rw [List.filterMap_append, List.filterMap_cons_some hfresh] at honce
      exact List.disjoint_of_nodup_append honce (himported.fresh hk) List.mem_cons_self
  refine ⟨freshId_eq_some_iff.mpr ⟨hunknown, hid⟩, ?_⟩
  apply Table.find?_eq_none_iff.mpr
  intro r hr heq
  apply Bool.eq_false_iff.mp hunknown
  rw [← hspelled]
  exact List.any_eq_true.mpr ⟨r, List.mem_append_left _ hr, beq_iff_eq.mpr heq⟩

/-- The dry run decides about the last row as the import does. -/
theorem SpelledOnce.counts_importRow {ids : List ConversationId} {dryNow : DateTime}
    (h : s.SpelledOnce (rows ++ [row])) (himported : s.Imported rows ids s')
    (report : ForgeImportReport) :
    { (importRow wid true dryNow (s, report) row).2 with dryRun := false } =
      (importRow wid false now (s', { report with dryRun := false }) row).2 := by
  cases hfresh : s.freshId row with
  | some id =>
    obtain ⟨hnew, hfind⟩ := h.last himported hfresh
    rw [importRow_dry hfresh, importRow_inserted hnew hfind]
    rw [ForgeImportReport.parsed, ForgeImportReport.parsed]
    split <;> rfl
  | none =>
    cases hid : ConversationId.parse row.conversationId with
    | none => rw [importRow_invalid hid, importRow_invalid hid]
    | some id =>
      have hknows := (freshId_eq_none_iff.mp hfresh).resolve_left (by simp [hid])
      rw [importRow_known hid hknows,
        importRow_known hid ((himported.knows _).mpr (Or.inl hknows))]

theorem SpelledOnce.counts_foldl {dryNow : DateTime} (h : s.SpelledOnce rows)
    (report : ForgeImportReport) :
    { (rows.foldl (importRow wid true dryNow) (s, report)).2 with dryRun := false } =
      (rows.foldl (importRow wid false now) (s, { report with dryRun := false })).2 := by
  induction rows using List.reverseRecOn with
  | nil => rfl
  | append_singleton rows row ih =>
    have hcounts := ih h.init
    have hstore := (@foldl_dry _ wid dryNow rows s report).1
    obtain ⟨ids, himported, -⟩ :=
      @imported_foldl _ wid now s { report with dryRun := false } rows
    rw [List.foldl_append, List.foldl_append, List.foldl_cons, List.foldl_nil, List.foldl_cons,
      List.foldl_nil]
    have hdry : rows.foldl (importRow wid true dryNow) (s, report) =
        (s, (rows.foldl (importRow wid true dryNow) (s, report)).2) := Prod.ext hstore rfl
    rw [hdry, h.counts_importRow himported, hcounts]

/-! ### Exact imports -/

/-- An id in the table is known. -/
theorem knows_of_find? (h : (s.conversations.find? id.intoString).isSome) :
    s.knows id.intoString := by
  obtain ⟨r, hr⟩ := Option.isSome_iff_exists.mp h
  obtain ⟨hmem, hid⟩ := Table.find?_eq_some_iff.mp hr
  exact List.any_eq_true.mpr ⟨r, List.mem_append_left _ hmem, beq_iff_eq.mpr hid⟩

/-- Nothing is new after the import, as it is spelled, if all ids were spelled as printed. -/
theorem filterMap_freshId_eq_nil_iff {ids : List ConversationId}
    (himported : s.Imported rows ids s') (hsettled : ∀ row ∈ rows, s'.Settled row) :
    rows.filterMap s'.freshId = [] ↔
      ∀ row ∈ rows, ∀ id ∈ s.freshId row, id.intoString = row.conversationId := by
  rw [List.filterMap_eq_nil_iff]
  constructor
  · intro h row hrow id hid
    obtain ⟨hknows, hparse⟩ := freshId_eq_some_iff.mp hid
    have hnew := (freshId_eq_none_iff.mp (h row hrow)).resolve_left (by simp [hparse])
    rcases (himported.knows _).mp hnew with hold | ⟨k, -, hk⟩
    · rw [hknows] at hold
      cases hold
    · rw [← hk, ConversationId.parse_intoString] at hparse
      rw [← Option.some.inj hparse, hk]
  · intro h row hrow
    cases hfresh : s'.freshId row with
    | none => rfl
    | some id =>
      have hknows := knows_of_find? (hsettled row hrow id hfresh)
      rw [h row hrow id (himported.freshId hfresh), (freshId_eq_some_iff.mp hfresh).1] at hknows
      cases hknows

/-- The counts of a dry run are those of the import, and a second import has nothing to do,
exactly if every new id is spelled as it is printed and comes once. -/
theorem importsAlike_iff {dryNow : DateTime} :
    s.ImportsAlike wid rows dryNow now later ↔ s.SpelledOnce rows := by
  obtain ⟨ids, himported, hcount⟩ :=
    @imported_foldl _ wid now s (.start rows.length false) rows
  have hsettled :=
    @settled_foldl _ wid now rows s (.start rows.length false)
  obtain ⟨hnothing, herrors⟩ :=
    @foldl_of_settled _ _ wid later _ (.start rows.length false) hsettled
  have hspelled := filterMap_freshId_eq_nil_iff himported hsettled
  have hdry := (@foldl_dry _ wid dryNow rows s
    (.start rows.length true)).2
  constructor
  · intro h
    refine ⟨?_, ?_⟩
    · have hnone := herrors.symm.trans h.noError
      rw [ForgeImportReport.errors_start, Nat.zero_add] at hnone
      exact hspelled.mp (List.length_eq_zero_iff.mp hnone)
    · -- as many ids are inserted as are new, so that none comes twice
      have hsame := hdry.symm.trans ((congrArg ForgeImportReport.imported h.counts).trans hcount)
      rw [ForgeImportReport.imported_start, ForgeImportReport.imported_start] at hsame
      have hperm := (List.subperm_of_subset himported.nodup himported.fresh).perm_of_length_le
        (Nat.add_left_cancel hsame).le
      exact hperm.nodup_iff.mp himported.nodup
  · intro h
    refine ⟨h.counts_foldl (.start rows.length true), ?_, hnothing, ?_⟩
    · have htotal : (s.importForgeDb wid rows false now).2.sourceTotal = rows.length :=
        sourceTotal_foldl _
      rw [htotal]
      exact (processed_foldl _).trans (Nat.zero_add _)
    · rw [hspelled.mpr h.spelled] at herrors
      exact herrors

end Store

end HeliosLite

namespace HeliosLite.Greeting

attribute [local instance] reference

/-- A source row with nothing but an id. -/
def sourceRow (conversationId : String) : SourceRow :=
  { conversationId := conversationId
    title := none
    context := none
    createdAt := "1970-01-01 00:00:00"
    updatedAt := none
    metrics := none }

/-- An id without its hyphens fails when it is imported again, and of an id that comes twice
the dry run counts both. -/
theorem not_importsAlike :
    ¬ Store.empty.ImportsAlike wid [sourceRow "00000000000000000000000000000001"]
        .epoch .epoch .epoch ∧
      ¬ Store.empty.ImportsAlike wid [sourceRow id.intoString, sourceRow id.intoString]
        .epoch .epoch .epoch := by
  constructor
  · intro h
    exact absurd h.noError (by decide +kernel)
  · intro h
    exact absurd (congrArg ForgeImportReport.imported h.counts) (by decide +kernel)

end HeliosLite.Greeting
