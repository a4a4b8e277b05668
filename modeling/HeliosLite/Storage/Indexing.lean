import HeliosLite.Storage.Mutation
import HeliosLite.Storage.Reference
import Mathlib.Data.List.TakeWhile

/-!
# Refreshing the full text index

A refresh empties the index, reads all rows and inserts an entry for each. Every statement
commits on its own, and a row without a title does not read, so that a refresh that fails
after the first statement leaves what it has inserted so far.

## Main definitions

* `IndexedStore` — a store with the full text index of its rows
* `IndexedStore.refreshFtsIndex` — the refresh, of which any statement may fail
* `IndexedStore.Refreshes` — what a refresh owes to the index
* `IndexedStore.KeepsIndex` — the cases in which it does

## Main results

* `insertEntries_eq` — the entries before the first failure are inserted
* `IndexedStore.refreshes_iff` — a refresh keeps its promise exactly in those cases
* `Greeting.not_refreshes_untitled` — a greeting without a title empties the index
-/

namespace HeliosLite

open Theory

/-- An entry of the full text index. -/
structure FtsEntry where
  rowid : Int64
  title : Option String
  content : String
  cwd : Option String
  deriving DecidableEq

/-- A row as the refresh reads it. -/
structure FtsRefreshRow where
  rowid : Int64
  title : String
  context : Option String
  contextZstd : Option ByteArray
  isCompressed : Int32
  cwd : Option String

/-- The statements of a refresh, from the connection on. -/
inductive FtsStatement where
  | connect
  | delete
  | select
  | insert (rowid : Int64)
  deriving DecidableEq

variable [Libraries]

namespace FtsRefreshRow

/-- The title is read as a text, which NULL is not. -/
def build (rowid : Int64) (r : ConversationRecord) : Option FtsRefreshRow :=
  r.title.map fun title =>
    { rowid := rowid
      title := title
      context := r.context
      contextZstd := r.contextZstd
      isCompressed := r.isCompressed
      cwd := r.cwd }

/-- The searchable text: empty, with a warning, if a compressed context is not there or does
not decompress. -/
def content (row : FtsRefreshRow) : String :=
  if row.isCompressed == 1 then
    match row.contextZstd with
    | some compressed =>
      match Libraries.decompress compressed with
      | some decompressed => decompressed
      | none => ""
    | none => ""
  else row.context.getD ""

def entry (row : FtsRefreshRow) : FtsEntry :=
  { rowid := row.rowid, title := some row.title, content := row.content, cwd := row.cwd }

end FtsRefreshRow

/-- The text of the context of a row, decompressed if it is compressed. -/
def ConversationRecord.contextText (r : ConversationRecord) : Option String :=
  if r.isCompressed = 1 then r.contextZstd.bind Libraries.decompress else r.context

/-- The rows are inserted one by one. A row id that is taken is a conflict. -/
def insertEntries (fails : FtsStatement → Bool) :
    List FtsRefreshRow → Table FtsEntry.rowid →
      Except FtsStatement Unit × Table FtsEntry.rowid
  | [], fts => (.ok (), fts)
  | row :: rows, fts =>
    if fails (.insert row.rowid) then (.error (.insert row.rowid), fts)
    else if h : fts.find? row.entry.rowid = none then
      insertEntries fails rows (fts.insert row.entry h)
    else (.error (.insert row.rowid), fts)

/-- A store with the full text index of its rows, which have different row ids. -/
structure IndexedStore where
  store : Store
  rowid : String → Int64
  rowid_nodup : (store.conversations.rows.map fun r => rowid r.conversationId).Nodup
  fts : Table FtsEntry.rowid

namespace IndexedStore

/-- The refresh: everything is deleted, all rows are read, and an entry is inserted for each.
The statements run outside of a transaction. -/
def refreshFtsIndex (fails : FtsStatement → Bool) (s : IndexedStore) :
    Except FtsStatement Unit × Table FtsEntry.rowid :=
  if fails .connect then (.error .connect, s.fts)
  else if fails .delete then (.error .delete, s.fts)
  else
    let cleared := s.fts.delete fun _ => true
    if fails .select then (.error .select, cleared)
    else
      match s.store.conversations.rows.mapM fun r =>
        FtsRefreshRow.build (s.rowid r.conversationId) r with
      | none => (.error .select, cleared)
      | some rows => insertEntries fails rows cleared

/-- The entry that a row should have. -/
def entry (s : IndexedStore) (r : ConversationRecord) : FtsEntry :=
  { rowid := s.rowid r.conversationId
    title := r.title
    content := r.contextText.getD ""
    cwd := r.cwd }

/-- A refresh that succeeds leaves the entries of all rows, and one that fails leaves the index
as it was. -/
def Refreshes (s : IndexedStore) (fails : FtsStatement → Bool) : Prop :=
  match s.refreshFtsIndex fails with
  | (.ok _, fts) => ∀ e, e ∈ fts.rows ↔ ∃ r ∈ s.store.conversations.rows, s.entry r = e
  | (.error _, fts) => ∀ e, e ∈ fts.rows ↔ e ∈ s.fts.rows

/-- Every row has a title, and the rows are read. -/
def Readable (s : IndexedStore) (fails : FtsStatement → Bool) : Prop :=
  fails .select = false ∧ ∀ r ∈ s.store.conversations.rows, r.title.isSome

/-- The insert of the row does not fail. -/
def inserts (s : IndexedStore) (fails : FtsStatement → Bool) (r : ConversationRecord) : Bool :=
  !fails (.insert (s.rowid r.conversationId))

/-- Nothing is deleted, or nothing fails, or the index holds no more than the entries up to the
failure: none if the rows do not read, else those of the rows before the one whose insert fails. -/
def KeepsIndex (s : IndexedStore) (fails : FtsStatement → Bool) : Prop :=
  fails .connect = true ∨ fails .delete = true ∨
    (s.Readable fails ∧ ∀ r ∈ s.store.conversations.rows, s.inserts fails r) ∨
    (¬ s.Readable fails ∧ s.fts.rows = []) ∨
    (s.Readable fails ∧ ∀ e, e ∈ s.fts.rows ↔
      ∃ r ∈ s.store.conversations.rows.takeWhile (s.inserts fails), s.entry r = e)

end IndexedStore

variable {fails : FtsStatement → Bool} {s : IndexedStore}

/-! ### The rows that are read -/

theorem FtsRefreshRow.content_build {rowid : Int64} {r : ConversationRecord} {row : FtsRefreshRow}
    (h : build rowid r = some row) : row.content = r.contextText.getD "" := by
  obtain ⟨title, -, rfl⟩ := Option.map_eq_some_iff.mp h
  rw [content, ConversationRecord.contextText]
  by_cases hflag : r.isCompressed = 1
  · rw [if_pos (beq_iff_eq.mpr hflag), if_pos hflag]
    cases hblob : r.contextZstd with
    | none => rfl
    | some blob =>
      dsimp only
      rw [Option.bind_some]
      cases Libraries.decompress blob <;> rfl
  · rw [if_neg (mt beq_iff_eq.mp hflag), if_neg hflag]

namespace IndexedStore

/-- A row that reads has the entry that it should have. -/
theorem entry_build {r : ConversationRecord} {row : FtsRefreshRow}
    (h : FtsRefreshRow.build (s.rowid r.conversationId) r = some row) :
    row.entry = s.entry r := by
  have hcontent := FtsRefreshRow.content_build h
  obtain ⟨title, htitle, rfl⟩ := Option.map_eq_some_iff.mp h
  rw [FtsRefreshRow.entry, entry, hcontent, htitle]

theorem mapM_build (l : List ConversationRecord) :
    match l.mapM fun r => FtsRefreshRow.build (s.rowid r.conversationId) r with
    | none => ∃ r ∈ l, r.title = none
    | some rows => rows.map FtsRefreshRow.entry = l.map s.entry ∧ ∀ r ∈ l, r.title.isSome := by
  induction l with
  | nil => exact ⟨rfl, by simp⟩
  | cons r l ih =>
    rw [List.mapM_cons]
    cases hrow : FtsRefreshRow.build (s.rowid r.conversationId) r with
    | none => exact ⟨r, List.mem_cons_self, Option.map_eq_none_iff.mp hrow⟩
    | some row =>
      cases hrest : l.mapM fun r => FtsRefreshRow.build (s.rowid r.conversationId) r with
      | none =>
        rw [hrest] at ih
        obtain ⟨q, hq, htitle⟩ := ih
        exact ⟨q, List.mem_cons_of_mem _ hq, htitle⟩
      | some rows =>
        rw [hrest] at ih
        obtain ⟨title, htitle, -⟩ := Option.map_eq_some_iff.mp hrow
        refine ⟨?_, List.forall_mem_cons.mpr ⟨by rw [htitle]; rfl, ih.2⟩⟩
        rw [List.map_cons, List.map_cons, entry_build hrow, ih.1]

end IndexedStore

/-! ### The inserts -/

/-- Where no row id comes twice, the entries before the first failure are inserted. -/
theorem insertEntries_eq {rows : List FtsRefreshRow} {fts : Table FtsEntry.rowid}
    (hnodup : (rows.map fun row => row.entry.rowid).Nodup)
    (hnew : ∀ row ∈ rows, fts.find? row.entry.rowid = none) :
    (insertEntries fails rows fts).2.rows = fts.rows ++
        ((rows.map FtsRefreshRow.entry).takeWhile fun e => !fails (.insert e.rowid)) ∧
      ((insertEntries fails rows fts).1 = .ok () ↔
        ∀ e ∈ rows.map FtsRefreshRow.entry, fails (.insert e.rowid) = false) := by
  induction rows generalizing fts with
  | nil => exact ⟨(List.append_nil _).symm, by simp [insertEntries]⟩
  | cons row rows ih =>
    rw [List.map_cons, List.nodup_cons] at hnodup
    rw [List.forall_mem_cons] at hnew
    rw [insertEntries, List.map_cons, List.forall_mem_cons]
    cases hfail : fails (.insert row.rowid) with
    | true =>
      have hentry : fails (.insert row.entry.rowid) = true := hfail
      rw [if_pos rfl, List.takeWhile_cons_of_neg (by simp [hentry]), List.append_nil, hentry]
      exact ⟨rfl, by simp⟩
    | false =>
      have hentry : fails (.insert row.entry.rowid) = false := hfail
      have hlater : ∀ q ∈ rows, (fts.insert row.entry hnew.1).find? q.entry.rowid = none := by
        intro q hq
        rw [Table.find?_insert, if_neg]
        · exact hnew.2 q hq
        · intro heq
          apply hnodup.1
          exact List.mem_map.mpr ⟨q, hq, heq.symm⟩
      obtain ⟨hrows, hok⟩ := ih hnodup.2 hlater
      rw [if_neg Bool.false_ne_true, dif_pos hnew.1,
        List.takeWhile_cons_of_pos (by simp [hentry]), hrows, hok, hentry]
      refine ⟨?_, by simp⟩
      rw [Table.insert, List.append_assoc]
      rfl

namespace IndexedStore

/-- The index is deleted, the rows are read, and the entries before the first failure are
inserted. -/
theorem refreshFtsIndex_of_readable (hconnect : fails .connect = false)
    (hdelete : fails .delete = false) (h : s.Readable fails) :
    (s.refreshFtsIndex fails).2.rows =
        (s.store.conversations.rows.takeWhile (s.inserts fails)).map s.entry ∧
      ((s.refreshFtsIndex fails).1 = .ok () ↔
        ∀ r ∈ s.store.conversations.rows, s.inserts fails r) := by
  have hbuild := mapM_build (s := s) s.store.conversations.rows
  rw [refreshFtsIndex, hconnect, hdelete, h.1]
  dsimp only
  rw [if_neg Bool.false_ne_true, if_neg Bool.false_ne_true, if_neg Bool.false_ne_true]
  cases hrows : s.store.conversations.rows.mapM fun r =>
      FtsRefreshRow.build (s.rowid r.conversationId) r with
  | none =>
    rw [hrows] at hbuild
    obtain ⟨r, hr, htitle⟩ := hbuild
    have hsome := h.2 r hr
    rw [htitle] at hsome
    cases hsome
  | some rows =>
    rw [hrows] at hbuild
    have hnodup : (rows.map fun row => row.entry.rowid).Nodup := by
      have hids : rows.map (fun row => row.entry.rowid) =
          (rows.map FtsRefreshRow.entry).map FtsEntry.rowid := by rw [List.map_map]; rfl
      rw [hids, hbuild.1, List.map_map]
      exact s.rowid_nodup
    have hnew : ∀ row ∈ rows, (s.fts.delete fun _ => true).find? row.entry.rowid = none := by
      intro row _
      apply Table.find?_eq_none_iff.mpr
      intro e he
      cases (Table.mem_delete.mp he).2
    obtain ⟨hleft, hok⟩ := @insertEntries_eq _ fails _ _ hnodup hnew
    have hempty : (s.fts.delete fun _ => true).rows = [] := by
      rw [Table.delete]
      simp
    dsimp only
    rw [hleft, hok, hempty, hbuild.1, List.nil_append, List.takeWhile_map]
    refine ⟨rfl, ?_⟩
    rw [List.forall_mem_map]
    apply forall₂_congr
    intro r _
    rw [inserts, Bool.not_eq_true']
    rfl

theorem refreshFtsIndex_of_not_readable (hconnect : fails .connect = false)
    (hdelete : fails .delete = false) (h : ¬ s.Readable fails) :
    s.refreshFtsIndex fails = (.error .select, s.fts.delete fun _ => true) := by
  rw [refreshFtsIndex, hconnect, hdelete]
  dsimp only
  rw [if_neg Bool.false_ne_true, if_neg Bool.false_ne_true]
  cases hselect : fails .select with
  | true => exact if_pos rfl
  | false =>
    rw [if_neg Bool.false_ne_true]
    have hbuild := mapM_build (s := s) s.store.conversations.rows
    cases hrows : s.store.conversations.rows.mapM fun r =>
        FtsRefreshRow.build (s.rowid r.conversationId) r with
    | none => rfl
    | some rows =>
      rw [hrows] at hbuild
      exact absurd ⟨hselect, hbuild.2⟩ h

/-- A refresh that reads the rows. -/
theorem refreshes_iff_of_readable (hconnect : fails .connect = false)
    (hdelete : fails .delete = false) (h : s.Readable fails) :
    s.Refreshes fails ↔
      (s.Readable fails ∧ ∀ r ∈ s.store.conversations.rows, s.inserts fails r) ∨
      (¬ s.Readable fails ∧ s.fts.rows = []) ∨
      (s.Readable fails ∧ ∀ e, e ∈ s.fts.rows ↔
        ∃ r ∈ s.store.conversations.rows.takeWhile (s.inserts fails), s.entry r = e) := by
  obtain ⟨hrows, hok⟩ := refreshFtsIndex_of_readable hconnect hdelete h
  rw [Refreshes]
  simp only [h, true_and, not_true_eq_false, false_and, false_or]
  cases houtcome : s.refreshFtsIndex fails with
  | mk outcome fts =>
    rw [houtcome] at hrows hok
    cases outcome with
    | ok u =>
      have hall := hok.mp rfl
      refine iff_of_true ?_ (Or.inl hall)
      intro e
      rw [hrows, List.takeWhile_eq_self_iff.mpr hall, List.mem_map]
    | error statement =>
      have hsome : ¬ ∀ r ∈ s.store.conversations.rows, s.inserts fails r := by
        intro hall
        cases hok.mpr hall
      rw [or_iff_right hsome]
      apply forall_congr'
      intro e
      rw [hrows, List.mem_map]
      exact Iff.comm

/-- A refresh keeps its promise if nothing is deleted, nothing fails, or the index held just
what is inserted before the failure. -/
theorem refreshes_iff : s.Refreshes fails ↔ s.KeepsIndex fails := by
  cases hconnect : fails .connect with
  | true =>
    refine iff_of_true ?_ (Or.inl hconnect)
    rw [Refreshes, refreshFtsIndex, if_pos hconnect]
    exact fun _ => Iff.rfl
  | false =>
    cases hdelete : fails .delete with
    | true =>
      refine iff_of_true ?_ (Or.inr (Or.inl hdelete))
      rw [Refreshes, refreshFtsIndex, hconnect, if_neg Bool.false_ne_true, if_pos hdelete]
      exact fun _ => Iff.rfl
    | false =>
      rw [KeepsIndex, hconnect, hdelete]
      simp only [Bool.false_eq_true, false_or]
      by_cases hread : s.Readable fails
      · exact refreshes_iff_of_readable hconnect hdelete hread
      · rw [Refreshes, refreshFtsIndex_of_not_readable hconnect hdelete hread]
        simp only [hread, false_and, false_or, or_false, not_false_eq_true, true_and]
        rw [List.eq_nil_iff_forall_not_mem]
        apply forall_congr'
        intro e
        rw [Table.mem_delete]
        simp

end IndexedStore

end HeliosLite

namespace HeliosLite.Greeting

open Theory

attribute [local instance] reference

/-- A greeting without a title, and its entry from the time when it had one. -/
def untitled : IndexedStore where
  store := run Store.step .empty (atEpoch [.upsertConversation wid (saying "hi")])
  rowid _ := 1
  rowid_nodup := by decide +kernel
  fts := Table.empty.insert { rowid := 1, title := some "hi", content := "", cwd := none } rfl

/-- The refresh of a greeting without a title fails and leaves an empty index, though no
statement of the database fails. -/
theorem not_refreshes_untitled : ¬ untitled.Refreshes fun _ => false := by
  rw [IndexedStore.Refreshes, IndexedStore.refreshFtsIndex_of_not_readable rfl rfl]
  · intro h
    have hold : (⟨1, some "hi", "", none⟩ : FtsEntry) ∈ untitled.fts.rows := by decide
    have hleft := (h _).mpr hold
    cases (Table.mem_delete.mp hleft).2
  · intro hread
    have htitles : untitled.store.conversations.rows.all fun r => r.title.isSome := by
      rw [List.all_eq_true]
      exact hread.2
    exact absurd htitles (by decide +kernel)

end HeliosLite.Greeting
