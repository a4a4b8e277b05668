import HeliosLite.Storage.Daemon
import HeliosLite.Theory.Run

/-!
# What a mutation does to the rows

Every mutation of the store leaves it as it is, inserts a row under a new id, changes the
rows that a predicate selects, or deletes them. The lemmas of this file say which, once
for each mutation; what is proved of runs is proved from them.

## Main definitions

* `Op` — the mutations of the store, by the repository and by the daemon
* `Store.apply` — the store after a mutation, unchanged when it fails

## Main results

* `validateLocalMutation_ok` — what the ownership check lets through
* `upsertLocalConversationRecord_ok`, `pruneConversation_ok`, … — one for each mutation
-/

namespace HeliosLite

open Serde Serde.Json Theory

namespace IntentState

theorem eq_of_fromStr_verified {state : String} (h : fromStr state = .ok .verified) :
    state = "verified" := by
  unfold fromStr at h
  split at h
  case h_4 => rfl
  all_goals cases h

/-- Pruned is entered from verified only. -/
theorem eq_of_canTransitionTo_pruned {current : IntentState} {state : String}
    (hcurrent : fromStr state = .ok current) (h : current.canTransitionTo .pruned) :
    state = "verified" ∨ state = "pruned" := by
  unfold fromStr at hcurrent
  split at hcurrent
  case h_4 => exact Or.inl rfl
  case h_5 => exact Or.inr rfl
  case h_6 => cases hcurrent
  all_goals
    obtain rfl := Except.ok.inj hcurrent
    cases h

end IntentState

variable [Libraries]

/-- A mutation of the store. -/
inductive Op where
  | upsertConversation (wid : WorkspaceHash) (conversation : Conversation)
  | upsertConversationRef (wid : WorkspaceHash) (conversation : Conversation)
  | updateParentId (wid : WorkspaceHash) (conversationId : ConversationId)
      (newParentId : Option ConversationId)
  | deleteConversation (wid : WorkspaceHash) (conversationId : ConversationId)
  | markIntentState (wid : WorkspaceHash) (conversationId : ConversationId) (newState : String)
  | pruneConversation (wid : WorkspaceHash) (conversationId : ConversationId)
  | rewindConversation (wid : WorkspaceHash) (conversationId : ConversationId)
  | compressUncompressedContexts
  | importForgeDb (wid : WorkspaceHash) (rows : List SourceRow) (dryRun : Bool)
  | forgetConversations (wid : WorkspaceHash) (options : ForgeForgetOptions)
  | daemon (request : Request)

namespace Store

/-- The store after a mutation that may fail; a failed one changes nothing. -/
def orSame (s : Store) : Except String Store → Store
  | .ok s' => s'
  | .error _ => s

/-- The store after a mutation at a time. -/
def apply (s : Store) (now : DateTime) : Op → Store
  | .upsertConversation wid c => s.orSame (s.upsertConversation wid c now)
  | .upsertConversationRef wid c => s.orSame (s.upsertConversationRef wid c now)
  | .updateParentId wid id parent => s.orSame (s.updateParentId wid id parent now)
  | .deleteConversation wid id => s.orSame (s.deleteConversation wid id)
  | .markIntentState wid id state => s.orSame (s.markIntentState wid id state now)
  | .pruneConversation wid id => s.orSame (s.pruneConversation wid id now)
  | .rewindConversation wid id => s.orSame ((s.rewindConversation wid id now).map Prod.snd)
  | .compressUncompressedContexts => s.compressUncompressedContexts.2
  | .importForgeDb wid rows dryRun => (s.importForgeDb wid rows dryRun now).1
  | .forgetConversations _ options =>
    s.orSame ((s.forgetConversations options now).map Prod.snd)
  | .daemon request => (DbServer.executeWithConn s request now).elim s Prod.snd

/-- A mutation with the time at which it is taken, as a step of a run. -/
def step (s : Store) (a : Op × DateTime) : Store := s.apply a.2 a.1

variable {s s' : Store} {wid : WorkspaceHash} {id : String} {w : Int64} {now : DateTime}

/-- What holds before a mutation, and after it when it succeeds, holds in any case. -/
theorem orSame_induction {P : Store → Prop} {result : Except String Store} (hs : P s)
    (hok : ∀ s', result = .ok s' → P s') : P (s.orSame result) := by
  cases result with
  | ok s' => exact hok s' rfl
  | error e => exact hs

theorem map_snd_ok {α : Type} {result : Except String (α × Store)}
    (h : result.map Prod.snd = .ok s') : ∃ a, result = .ok (a, s') := by
  cases result with
  | ok p => exact ⟨p.1, congrArg Except.ok (Prod.ext rfl (Except.ok.inj h))⟩
  | error e => cases h

/-! ### Ownership -/

theorem isOwned_iff {r : ConversationRecord} :
    r.isOwned id w ↔ r.workspaceId = some w ∧ r.conversationId = id := by
  rw [ConversationRecord.isOwned, Bool.and_eq_true, beq_iff_eq, beq_iff_eq]

theorem findOwned_eq_some_iff {r : ConversationRecord} :
    s.findOwned id w = some r
      ↔ s.conversations.find? id = some r ∧ r.workspaceId = some w := by
  rw [Table.find?_eq_some_iff]
  constructor
  · intro h
    obtain ⟨hw, hid⟩ := isOwned_iff.mp (List.find?_some h)
    exact ⟨⟨List.mem_of_find?_eq_some h, hid⟩, hw⟩
  · rintro ⟨⟨hr, hid⟩, hw⟩
    cases hfind : s.findOwned id w with
    | none => exact absurd (isOwned_iff.mpr ⟨hw, hid⟩) (List.find?_eq_none.mp hfind r hr)
    | some q =>
      obtain ⟨-, hqid⟩ := isOwned_iff.mp (List.find?_some hfind)
      rw [Table.eq_of_mem_of_key (List.mem_of_find?_eq_some hfind) hr (hqid.trans hid.symm)]

theorem findOwned_of_mem {r : ConversationRecord} (hr : r ∈ s.conversations.rows)
    (h : r.isOwned id w) : s.findOwned id w = some r :=
  findOwned_eq_some_iff.mpr
    ⟨Table.find?_eq_some_iff.mpr ⟨hr, (isOwned_iff.mp h).2⟩, (isOwned_iff.mp h).1⟩

/-- The check lets a row of the workspace pass, and an id that nobody has. -/
theorem validateLocalMutation_ok (h : s.validateLocalMutation id w = .ok ()) :
    (∃ r, s.findOwned id w = some r) ∨ s.conversations.find? id = none := by
  rw [validateLocalMutation] at h
  cases hfind : s.conversations.find? id with
  | none => exact Or.inr rfl
  | some r =>
    left
    refine ⟨r, findOwned_eq_some_iff.mpr ⟨hfind, ?_⟩⟩
    rw [hfind, Option.bind_some] at h
    cases howner : r.workspaceId with
    | some owner =>
      rw [howner] at h
      simp only at h
      split_ifs at h with heq
      rw [heq]
    | none =>
      -- a row without a workspace counts as legacy
      rw [howner] at h
      obtain ⟨hmem, hid⟩ := Table.find?_eq_some_iff.mp hfind
      have hany : s.conversationsAll.any (fun r => r.conversationId == id) :=
        List.any_eq_true.mpr ⟨r, List.mem_append_left _ hmem, by simpa using hid⟩
      simp only [hany, if_true] at h
      cases h

theorem validateLocalMutation_of_owned {r : ConversationRecord} (h : s.findOwned id w = some r) :
    s.validateLocalMutation id w = .ok () := by
  obtain ⟨hfind, hw⟩ := findOwned_eq_some_iff.mp h
  rw [validateLocalMutation, hfind, Option.bind_some, hw]
  exact if_pos rfl

theorem insertRow_of_none {r : ConversationRecord}
    (h : s.conversations.find? r.conversationId = none) :
    s.insertRow r = some { s with conversations := s.conversations.insert r h } :=
  dif_pos h

theorem insertRow_of_some {r old : ConversationRecord}
    (h : s.conversations.find? r.conversationId = some old) : s.insertRow r = none :=
  dif_neg (by rw [h]; nofun)

/-! ### Upserts -/

theorem holdsContext_new (c : Conversation) (wid : WorkspaceHash) (now : DateTime) :
    (ConversationRecord.new c wid now).HoldsContext (encodeContext c.context now) :=
  ⟨rfl, rfl, rfl⟩

/-- The daemon encodes a context as the repository does. -/
theorem holdsContext_newRow (c : Conversation) (w : Int64) (now : DateTime) :
    (DbServer.newRow c w now).HoldsContext (encodeContext c.context now) := by
  have hcolumns : (persistContext c.context).context = (encodeContext c.context now).context
      ∧ (persistContext c.context).contextZstd = (encodeContext c.context now).contextZstd
      ∧ (persistContext c.context).isCompressed = (encodeContext c.context now).isCompressed := by
    cases c.context with
    | none => exact ⟨rfl, rfl, rfl⟩
    | some context =>
      by_cases hblank : context.isBlank
      · simp [persistContext, encodeContext, Option.filter_some, hblank]
      · cases hcompress : Libraries.compress context.recordText <;>
          simp [persistContext, encodeContext, Option.filter_some, hblank, hcompress]
  exact hcolumns

/-- An upsert that passes the check inserts a row, or changes the row that the workspace
owns. -/
theorem upsertLocalConversationRecord_of_valid {record : ConversationRecord}
    (hw : record.workspaceId = some w)
    (hvalid : s.validateLocalMutation record.conversationId w = .ok ()) :
    (∃ h : s.conversations.find? record.conversationId = none,
      s.upsertLocalConversationRecord record
        = .ok { s with conversations := s.conversations.insert record h })
    ∨ ∃ old, s.findOwned record.conversationId w = some old ∧
      s.upsertLocalConversationRecord record
        = .ok (s.updateOwned record.conversationId w record.onConflict fun _ => rfl) := by
  have hrecord : s.upsertLocalConversationRecord record = s.upsertConversationRefRecord record := by
    rw [upsertLocalConversationRecord, hw, Option.getD_some, hvalid]
    rfl
  rcases validateLocalMutation_ok hvalid with ⟨old, hold⟩ | hnone
  · right
    obtain ⟨hfind, -⟩ := findOwned_eq_some_iff.mp hold
    refine ⟨old, hold, ?_⟩
    rw [hrecord, upsertConversationRefRecord, insertRow_of_some hfind, hw]
    simp only [hold, Option.isSome_some, if_true]
  · left
    refine ⟨hnone, ?_⟩
    rw [hrecord, upsertConversationRefRecord, insertRow_of_none hnone]

theorem upsertLocalConversationRecord_ok {record : ConversationRecord}
    (hw : record.workspaceId = some w) (h : s.upsertLocalConversationRecord record = .ok s') :
    s.validateLocalMutation record.conversationId w = .ok () := by
  rw [upsertLocalConversationRecord, hw, Option.getD_some] at h
  cases hvalid : s.validateLocalMutation record.conversationId w with
  | ok _ => rfl
  | error e =>
    rw [hvalid] at h
    cases h

/-- The daemon's upsert inserts a row or changes the row of the id, whoever owns it. -/
theorem daemon_upsertConversation_cases (s : Store) (w : Int64) (now : DateTime)
    {c : Conversation} (hvalue : c.toValueSucceeds) :
    (∃ h : s.conversations.find? (DbServer.newRow c w now).conversationId = none,
      DbServer.upsertConversation s c w now
        = some { s with conversations := s.conversations.insert (DbServer.newRow c w now) h })
    ∨ ∃ old, s.conversations.find? c.id.intoString = some old ∧
      DbServer.upsertConversation s c w now
        = some { s with
          conversations := s.conversations.update
            (fun r => r.conversationId == c.id.intoString) (DbServer.newRow c w now).onConflict
            fun _ => rfl } := by
  rw [DbServer.upsertConversation, if_pos hvalue]
  cases hfind : s.conversations.find? c.id.intoString with
  | none =>
    left
    refine ⟨hfind, ?_⟩
    simp only [insertRow_of_none (r := DbServer.newRow c w now) hfind]
  | some old =>
    right
    refine ⟨old, rfl, ?_⟩
    simp only [insertRow_of_some (r := DbServer.newRow c w now) hfind]
    rfl

theorem apply_daemon_upsertConversation (s : Store) (c : Conversation) (w : Int64)
    (now : DateTime) :
    s.apply now (.daemon (.mutationV2 w (.upsertConversation c)))
      = (DbServer.upsertConversation s c w now).getD s := by
  rw [apply, DbServer.executeWithConn]
  cases DbServer.upsertConversation s c w now <;> rfl

theorem apply_daemon_upsertConversationRef (s : Store) (c : Conversation) (w : Int64)
    (now : DateTime) :
    s.apply now (.daemon (.mutationV2 w (.upsertConversationRef c)))
      = (DbServer.upsertConversation s c w now).getD s := by
  rw [apply, DbServer.executeWithConn]
  cases DbServer.upsertConversation s c w now <;> rfl

/-! ### Updates of one row -/

section Owned

variable {cid : ConversationId}

theorem requireOwned_ok {r : ConversationRecord} (h : s.requireOwned id w = .ok r) :
    s.findOwned id w = some r := by
  rw [requireOwned] at h
  cases hfind : s.findOwned id w with
  | some q =>
    rw [hfind] at h
    rw [Except.ok.inj h]
  | none =>
    rw [hfind] at h
    cases h

theorem updateParentId_ok {parent : Option ConversationId}
    (h : s.updateParentId wid cid parent now = .ok s') :
    s' = s ∨ s' = s.updateOwned cid.intoString wid.column
      (fun r => { r with
        parentId := parent.map (·.intoString)
        updatedAt := some (.naive now) }) fun _ => rfl := by
  rw [updateParentId] at h
  cases hvalid : s.validateLocalMutation cid.intoString wid.column with
  | error e => rw [hvalid] at h; cases h
  | ok _ =>
    rw [hvalid] at h
    simp only [bind, Except.bind] at h
    split_ifs at h
    · exact Or.inl (Except.ok.inj h).symm
    · exact Or.inr (Except.ok.inj h).symm

theorem deleteConversation_ok (h : s.deleteConversation wid cid = .ok s') :
    s' =
      { s with
        conversations :=
          s.conversations.delete (ConversationRecord.isOwned cid.intoString wid.column) } := by
  rw [deleteConversation] at h
  cases hvalid : s.validateLocalMutation cid.intoString wid.column with
  | error e => rw [hvalid] at h; cases h
  | ok _ =>
    rw [hvalid] at h
    exact (Except.ok.inj h).symm

theorem markIntentState_ok {state : String}
    (h : s.markIntentState wid cid state now = .ok s') :
    ∃ r current next, s.findOwned cid.intoString wid.column = some r ∧
      IntentState.fromStr r.intentState = .ok current ∧ IntentState.fromStr state = .ok next ∧
      current.canTransitionTo next ∧
      s' = s.updateOwned cid.intoString wid.column
        (fun r => { r with intentState := state, updatedAt := some (.naive now) })
          fun _ => rfl := by
  simp only [markIntentState, bind, Except.bind] at h
  split at h
  · cases h
  next next hnext =>
  split at h
  · cases h
  split at h
  · cases h
  next r hr =>
  split at h
  · cases h
  next current hcurrent =>
  split_ifs at h with htransition
  exact ⟨r, current, next, requireOwned_ok hr, hcurrent, hnext, htransition,
    (Except.ok.inj h).symm⟩

theorem pruneConversation_ok (h : s.pruneConversation wid cid now = .ok s') :
    ∃ r, s.findOwned cid.intoString wid.column = some r ∧ r.intentState = "verified" ∧
      s' = s.updateOwned cid.intoString wid.column
        (fun r => { r with
          context := some (toText (prunedContext cid.intoString now).toValue)
          intentState := "pruned"
          updatedAt := some (.naive now) }) fun _ => rfl := by
  simp only [pruneConversation, bind, Except.bind] at h
  split at h
  · cases h
  split at h
  · cases h
  next r hr =>
  split at h
  · cases h
  next current hcurrent =>
  split_ifs at h with hverified
  subst hverified
  exact ⟨r, requireOwned_ok hr, IntentState.eq_of_fromStr_verified hcurrent, (Except.ok.inj h).symm⟩

theorem rewindConversation_ok {c : Option Conversation}
    (h : s.rewindConversation wid cid now = .ok (c, s')) :
    s' = s ∨ ∃ r, s.findOwned cid.intoString wid.column = some r ∧
      s' = s.updateOwned cid.intoString wid.column
        (fun q => { q with
          context := r.context.map fun context =>
            truncateContext context (findLastCompactionPoint context)
          updatedAt := some (.naive now) }) fun _ => rfl := by
  simp only [rewindConversation, bind, Except.bind] at h
  split at h
  · cases h
  split at h
  · exact Or.inl (Prod.ext_iff.mp (Except.ok.inj h)).2.symm
  next r hr =>
  exact Or.inr ⟨r, hr, (Prod.ext_iff.mp (Except.ok.inj h)).2.symm⟩

theorem forgetConversations_ok {options : ForgeForgetOptions} {report : ForgeForgetReport}
    (h : s.forgetConversations options now = .ok (report, s')) :
    s' = s ∨ s' = { s with
      conversations := s.conversations.delete (options.selects now) } := by
  rw [forgetConversations] at h
  split_ifs at h
  · exact Or.inl (Prod.ext_iff.mp (Except.ok.inj h)).2.symm
  · exact Or.inr (Prod.ext_iff.mp (Except.ok.inj h)).2.symm

end Owned

/-! ### Imports -/

/-- A source row changes nothing, or is inserted: then its id reads, nobody had it, and it is no
dry run. -/
theorem importRow_cases (dryRun : Bool) (state : Store × ForgeImportReport) (row : SourceRow) :
    (importRow wid dryRun now state row).1 = state.1
    ∨ ∃ cid, dryRun = false ∧ ConversationId.parse row.conversationId = some cid ∧
      (∀ r ∈ state.1.conversationsAll, r.conversationId ≠ row.conversationId) ∧
      ∃ h : state.1.conversations.find? cid.intoString = none,
        (importRow wid dryRun now state row).1 =
          { state.1 with
            conversations := state.1.conversations.insert
              (.new (importedConversation row cid now) wid now) h } := by
  obtain ⟨s, report⟩ := state
  rw [importRow]
  cases hcid : ConversationId.parse row.conversationId with
  | none => exact Or.inl rfl
  | some cid =>
    dsimp only
    by_cases hexists : s.conversationsAll.any fun r => r.conversationId == row.conversationId
    · exact Or.inl (by rw [if_pos hexists])
    have hnew : ∀ r ∈ s.conversationsAll, r.conversationId ≠ row.conversationId := by
      intro r hr heq
      exact hexists (List.any_eq_true.mpr ⟨r, hr, beq_iff_eq.mpr heq⟩)
    rw [if_neg hexists]
    generalize (if contextParseFailed row = true then _ else report) = report
    cases dryRun with
    | true => exact Or.inl rfl
    | false =>
      rw [if_neg Bool.false_ne_true]
      -- the id as it is written may be taken by the id as it stands in the source
      cases hfind : s.conversations.find? cid.intoString with
      | some old =>
        rw [insertRow_of_some (r := .new (importedConversation row cid now) wid now) hfind]
        exact Or.inl rfl
      | none =>
        rw [insertRow_of_none (r := .new (importedConversation row cid now) wid now) hfind]
        exact Or.inr ⟨cid, rfl, rfl, hnew, hfind, rfl⟩

/-- What holds of the store before an import, and is kept by each row that it inserts, holds
after it. -/
theorem importForgeDb_induction {P : Store → Prop} {rows : List SourceRow} {dryRun : Bool}
    (hinsert : ∀ (s : Store) (row : SourceRow) (cid : ConversationId), row ∈ rows →
      dryRun = false → ConversationId.parse row.conversationId = some cid →
      (∀ r ∈ s.conversationsAll, r.conversationId ≠ row.conversationId) → P s →
      ∀ h : s.conversations.find? cid.intoString = none,
        P
          { s with
            conversations :=
              s.conversations.insert (.new (importedConversation row cid now) wid now) h })
    (h : P s) : P (s.importForgeDb wid rows dryRun now).1 := by
  have hrows : ∀ (rest : List SourceRow) (state : Store × ForgeImportReport),
      (∀ row ∈ rest, row ∈ rows) → P state.1 →
      P (rest.foldl (importRow wid dryRun now) state).1 := by
    intro rest
    induction rest with
    | nil => exact fun _ _ h => h
    | cons row rest ih =>
      intro state hmem hP
      apply ih _ fun q hq => hmem q (List.mem_cons_of_mem _ hq)
      rcases importRow_cases dryRun state row with hsame | ⟨cid, hdry, hcid, hnew, hfind, hrow⟩
      · rw [hsame]
        exact hP
      · rw [hrow]
        exact hinsert _ row cid (hmem row List.mem_cons_self) hdry hcid hnew hP hfind
  exact hrows rows _ (fun _ h => h) h

/-! ### Where the rows come from -/

/-- The row that a mutation inserts. -/
inductive Inserted (s : Store) (now : DateTime) : Op → ConversationRecord → Prop where
  | upsert {wid : WorkspaceHash} {c : Conversation}
      (hvalid : s.validateLocalMutation c.id.intoString wid.column = .ok ()) :
      Inserted s now (.upsertConversation wid c) (.new c wid now)
  | upsertRef {wid : WorkspaceHash} {c : Conversation}
      (hvalid : s.validateLocalMutation c.id.intoString wid.column = .ok ()) :
      Inserted s now (.upsertConversationRef wid c) (.new c wid now)
  | imported {wid : WorkspaceHash} {rows : List SourceRow} {row : SourceRow}
      {cid : ConversationId} (hrow : row ∈ rows)
      (hcid : ConversationId.parse row.conversationId = some cid)
      (hnew : ∀ r ∈ s.conversationsAll, r.conversationId ≠ row.conversationId) :
      Inserted s now (.importForgeDb wid rows false)
        (.new (importedConversation row cid now) wid now)
  | daemon {w : Int64} {c : Conversation} (hvalue : c.toValueSucceeds) :
      Inserted s now (.daemon (.mutationV2 w (.upsertConversation c))) (DbServer.newRow c w now)
  | daemonRef {w : Int64} {c : Conversation} (hvalue : c.toValueSucceeds) :
      Inserted s now (.daemon (.mutationV2 w (.upsertConversationRef c))) (DbServer.newRow c w now)

/-- New rows wait for their extraction. -/
theorem Inserted.intentState {q : ConversationRecord} {op : Op} (h : Inserted s now op q) :
    q.intentState = "pending" := by
  cases h <;> rfl

/-- What a mutation makes of the row `r`. -/
inductive Changed (s : Store) (now : DateTime) (r : ConversationRecord) :
    Op → ConversationRecord → Prop where
  | upsert {wid : WorkspaceHash} {c : Conversation}
      (howned : s.findOwned c.id.intoString wid.column = some r) :
      Changed s now r (.upsertConversation wid c) ((ConversationRecord.new c wid now).onConflict r)
  | upsertRef {wid : WorkspaceHash} {c : Conversation}
      (howned : s.findOwned c.id.intoString wid.column = some r) :
      Changed s now r (.upsertConversationRef wid c)
        ((ConversationRecord.new c wid now).onConflict r)
  | parent {wid : WorkspaceHash} {cid : ConversationId} {parent : Option ConversationId}
      (howned : s.findOwned cid.intoString wid.column = some r) :
      Changed s now r (.updateParentId wid cid parent)
        { r with parentId := parent.map (·.intoString), updatedAt := some (.naive now) }
  | mark {wid : WorkspaceHash} {cid : ConversationId} {state : String}
      {current next : IntentState} (howned : s.findOwned cid.intoString wid.column = some r)
      (hcurrent : IntentState.fromStr r.intentState = .ok current)
      (hnext : IntentState.fromStr state = .ok next) (htransition : current.canTransitionTo next) :
      Changed s now r (.markIntentState wid cid state)
        { r with intentState := state, updatedAt := some (.naive now) }
  | prune {wid : WorkspaceHash} {cid : ConversationId}
      (howned : s.findOwned cid.intoString wid.column = some r)
      (hverified : r.intentState = "verified") :
      Changed s now r (.pruneConversation wid cid)
        { r with
          context := some (toText (prunedContext cid.intoString now).toValue)
          intentState := "pruned"
          updatedAt := some (.naive now) }
  | rewind {wid : WorkspaceHash} {cid : ConversationId}
      (howned : s.findOwned cid.intoString wid.column = some r) :
      Changed s now r (.rewindConversation wid cid)
        { r with
          context := r.context.map fun context =>
            truncateContext context (findLastCompactionPoint context)
          updatedAt := some (.naive now) }
  | compress (hplain : isPlainRow r) : Changed s now r .compressUncompressedContexts (compressRow r)
  | daemon {w : Int64} {c : Conversation} (hvalue : c.toValueSucceeds)
      (hid : r.conversationId = c.id.intoString) :
      Changed s now r (.daemon (.mutationV2 w (.upsertConversation c)))
        ((DbServer.newRow c w now).onConflict r)
  | daemonRef {w : Int64} {c : Conversation} (hvalue : c.toValueSucceeds)
      (hid : r.conversationId = c.id.intoString) :
      Changed s now r (.daemon (.mutationV2 w (.upsertConversationRef c)))
        ((DbServer.newRow c w now).onConflict r)
  | daemonParent {w : Int64} {cid : ConversationId} {parent : Option ConversationId}
      (howned : s.findOwned cid.intoString w = some r) :
      Changed s now r (.daemon (.mutationV2 w (.updateParentId cid parent)))
        { r with parentId := parent.map (·.intoString), updatedAt := some (.strftime now) }

theorem Changed.conversationId {r q : ConversationRecord} {op : Op} (h : Changed s now r op q) :
    q.conversationId = r.conversationId := by
  cases h with
  | compress => exact conversationId_compressRow r
  | _ => rfl

/-- A row that is there after a mutation was there before, was inserted under a new id, or is
what became of a row. -/
def Origin (s : Store) (now : DateTime) (op : Op) (q : ConversationRecord) : Prop :=
  q ∈ s.conversations.rows
    ∨ (s.conversations.find? q.conversationId = none ∧ Inserted s now op q)
    ∨ ∃ r ∈ s.conversations.rows, Changed s now r op q

theorem origin_of_mem {op : Op} : ∀ q ∈ s.conversations.rows, s.Origin now op q :=
  fun _ hq => Or.inl hq

theorem origin_updateOwned {op : Op} {f : ConversationRecord → ConversationRecord}
    {hf : ∀ r, (f r).conversationId = r.conversationId}
    (h : ∀ r, s.findOwned id w = some r → Changed s now r op (f r)) :
    ∀ q ∈ (s.updateOwned id w f hf).conversations.rows, s.Origin now op q := by
  apply Table.forall_update hf origin_of_mem
  intro r hr howned
  exact Or.inr (Or.inr ⟨r, hr, h r (findOwned_of_mem hr howned)⟩)

theorem origin_insert {op : Op} {record : ConversationRecord}
    (hnew : s.conversations.find? record.conversationId = none) (h : Inserted s now op record) :
    ∀ q ∈ (s.conversations.insert record hnew).rows, s.Origin now op q :=
  Table.forall_insert hnew origin_of_mem (Or.inr (Or.inl ⟨hnew, h⟩))

theorem origin_upsert {op : Op} {c : Conversation}
    (hinserted : s.validateLocalMutation c.id.intoString wid.column = .ok () →
      Inserted s now op (.new c wid now))
    (hchanged : ∀ r, s.findOwned c.id.intoString wid.column = some r →
      Changed s now r op ((ConversationRecord.new c wid now).onConflict r)) :
    ∀ q ∈ (s.orSame (s.upsertLocalConversationRecord (.new c wid now))).conversations.rows,
      s.Origin now op q := by
  apply orSame_induction (P := fun t => ∀ q ∈ t.conversations.rows, s.Origin now op q) origin_of_mem
  intro s' hs'
  have hvalid := upsertLocalConversationRecord_ok rfl hs'
  rcases upsertLocalConversationRecord_of_valid rfl hvalid with ⟨hnew, heq⟩ | ⟨old, -, heq⟩
  · obtain rfl := Except.ok.inj (hs'.symm.trans heq)
    exact origin_insert hnew (hinserted hvalid)
  · obtain rfl := Except.ok.inj (hs'.symm.trans heq)
    exact origin_updateOwned hchanged

theorem origin_daemonUpsert {op : Op} {c : Conversation}
    (hinserted : c.toValueSucceeds → Inserted s now op (DbServer.newRow c w now))
    (hchanged : c.toValueSucceeds → ∀ r, r.conversationId = c.id.intoString →
      Changed s now r op ((DbServer.newRow c w now).onConflict r)) :
    ∀ q ∈ ((DbServer.upsertConversation s c w now).getD s).conversations.rows,
      s.Origin now op q := by
  by_cases hvalue : c.toValueSucceeds
  · rcases daemon_upsertConversation_cases s w now hvalue with
      ⟨hnew, heq⟩ | ⟨old, -, heq⟩
    · rw [heq]
      exact origin_insert hnew (hinserted hvalue)
    · rw [heq]
      exact Table.forall_update (f := (DbServer.newRow c w now).onConflict) (fun _ => rfl)
        origin_of_mem fun r hr hid =>
          Or.inr (Or.inr ⟨r, hr, hchanged hvalue r (beq_iff_eq.mp hid)⟩)
  · rw [DbServer.upsertConversation, if_neg hvalue]
    exact origin_of_mem

/-- Rows are only added by an import. -/
theorem origin_import (rows : List SourceRow) (dryRun : Bool) :
    ∀ q ∈ (s.importForgeDb wid rows dryRun now).1.conversations.rows,
      s.Origin now (.importForgeDb wid rows dryRun) q := by
  have hboth : (∀ r ∈ s.conversations.rows,
        r ∈ (s.importForgeDb wid rows dryRun now).1.conversations.rows)
      ∧ (s.importForgeDb wid rows dryRun now).1.legacy = s.legacy
      ∧ ∀ q ∈ (s.importForgeDb wid rows dryRun now).1.conversations.rows,
        s.Origin now (.importForgeDb wid rows dryRun) q := by
    apply importForgeDb_induction (P := fun t => (∀ r ∈ s.conversations.rows,
      r ∈ t.conversations.rows) ∧ t.legacy = s.legacy ∧ ∀ q ∈ t.conversations.rows,
        s.Origin now (.importForgeDb wid rows dryRun) q)
    · rintro t row cid hrow rfl hcid hnew ⟨hgrows, hlegacy, horigin⟩ hfind
      refine ⟨fun r hr => (Table.mem_insert (h := hfind)).mpr (Or.inl (hgrows r hr)), hlegacy,
        Table.forall_insert hfind horigin (Or.inr (Or.inl ⟨?_, .imported hrow hcid ?_⟩))⟩
      · -- an id that is new on the way was new at the start
        apply Table.find?_eq_none_iff.mpr
        exact fun r hr => Table.find?_eq_none_iff.mp hfind r (hgrows r hr)
      · intro r hr
        apply hnew
        rcases List.mem_append.mp hr with hr | hr
        · exact List.mem_append_left _ (hgrows r hr)
        · exact List.mem_append_right _ (hlegacy ▸ hr)
    · exact ⟨fun _ hr => hr, rfl, origin_of_mem⟩
  exact hboth.2.2

/-- Every row after a mutation has an origin. -/
theorem origin_apply (op : Op) : ∀ q ∈ (s.apply now op).conversations.rows, s.Origin now op q := by
  have hfails : ∀ {result : Except String Store},
      (∀ s', result = .ok s' → ∀ q ∈ s'.conversations.rows, s.Origin now op q) →
      ∀ q ∈ (s.orSame result).conversations.rows, s.Origin now op q :=
    orSame_induction (P := fun t => ∀ q ∈ t.conversations.rows, s.Origin now op q) origin_of_mem
  cases op with
  | upsertConversation wid c => exact origin_upsert .upsert fun r => .upsert
  | upsertConversationRef wid c => exact origin_upsert .upsertRef fun r => .upsertRef
  | updateParentId wid cid parent =>
    apply hfails
    intro s' hs'
    rcases updateParentId_ok hs' with rfl | rfl
    · exact origin_of_mem
    · exact origin_updateOwned fun r => .parent
  | deleteConversation wid cid =>
    apply hfails
    intro s' hs'
    rw [deleteConversation_ok hs']
    exact Table.forall_delete origin_of_mem
  | markIntentState wid cid state =>
    apply hfails
    intro s' hs'
    obtain ⟨r, current, next, hr, hcurrent, hnext, htransition, rfl⟩ := markIntentState_ok hs'
    apply origin_updateOwned
    intro q hq
    obtain rfl := Option.some.inj (hr.symm.trans hq)
    exact .mark hq hcurrent hnext htransition
  | pruneConversation wid cid =>
    apply hfails
    intro s' hs'
    obtain ⟨r, hr, hverified, rfl⟩ := pruneConversation_ok hs'
    apply origin_updateOwned
    intro q hq
    obtain rfl := Option.some.inj (hr.symm.trans hq)
    exact .prune hq hverified
  | rewindConversation wid cid =>
    apply hfails
    intro s' hs'
    obtain ⟨c, hc⟩ := map_snd_ok hs'
    rcases rewindConversation_ok hc with rfl | ⟨r, hr, rfl⟩
    · exact origin_of_mem
    apply origin_updateOwned
    intro q hq
    obtain rfl := Option.some.inj (hr.symm.trans hq)
    exact .rewind hq
  | compressUncompressedContexts =>
    exact Table.forall_update conversationId_compressRow origin_of_mem fun r hr hplain =>
      Or.inr (Or.inr ⟨r, hr, .compress hplain⟩)
  | importForgeDb wid rows dryRun => exact origin_import rows dryRun
  | forgetConversations wid options =>
    apply hfails
    intro s' hs'
    obtain ⟨report, hreport⟩ := map_snd_ok hs'
    rcases forgetConversations_ok hreport with rfl | rfl
    · exact origin_of_mem
    · exact Table.forall_delete origin_of_mem
  | daemon request =>
    cases request with
    | mutationV2 w mutation =>
      cases mutation with
      | upsertConversation c =>
        rw [apply_daemon_upsertConversation]
        exact origin_daemonUpsert .daemon fun hvalue r => .daemon hvalue
      | upsertConversationRef c =>
        rw [apply_daemon_upsertConversationRef]
        exact origin_daemonUpsert .daemonRef fun hvalue r => .daemonRef hvalue
      | updateParentId cid parent => exact origin_updateOwned fun r => .daemonParent
      | deleteConversation cid => exact Table.forall_delete origin_of_mem
    | upsertConversation | upsertConversationRef | updateParentId | deleteConversation =>
      exact origin_of_mem

/-- The row of an id that had one before is that row, or what became of it. -/
theorem find?_apply {op : Op} {r q : ConversationRecord}
    (hr : s.conversations.find? id = some r)
    (hq : (s.apply now op).conversations.find? id = some q) : q = r ∨ Changed s now r op q := by
  obtain ⟨hmem, hid⟩ := Table.find?_eq_some_iff.mp hr
  obtain ⟨hqmem, hqid⟩ := Table.find?_eq_some_iff.mp hq
  rcases origin_apply op q hqmem with hq | ⟨hnone, -⟩ | ⟨r', hr', hchanged⟩
  · exact Or.inl (Table.eq_of_mem_of_key hq hmem (hqid.trans hid.symm))
  · rw [hqid, hr] at hnone
    cases hnone
  · have hkey : r'.conversationId = r.conversationId :=
      hchanged.conversationId.symm.trans (hqid.trans hid.symm)
    obtain rfl := Table.eq_of_mem_of_key hr' hmem hkey
    exact Or.inr hchanged

end Store

/-! ### A conversation with one message -/

namespace Greeting

def wid : WorkspaceHash := ⟨1⟩

def id : ConversationId := ⟨1⟩

/-- The conversation in which the user says something. -/
def saying (content : String) : Conversation :=
  { id := id
    title := none
    context := some (Context.default.addMessage (.user content none))
    metrics := Metrics.default
    metadata := { createdAt := .epoch, updatedAt := none }
    parentId := none
    source := none
    cwd := none
    messageCount := none }

/-- The mutations one after the other, all at the epoch. -/
def atEpoch (ops : List Op) : List (Op × DateTime) := ops.map fun op => (op, .epoch)

end Greeting

end HeliosLite
