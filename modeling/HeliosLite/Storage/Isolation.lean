import HeliosLite.Storage.Mutation
import HeliosLite.Storage.Reference

/-!
# Isolation of workspaces

A mutation is issued with a workspace and should leave the rows of all others alone. The
repository's mutations of one conversation do, and so do the daemon's updates and
deletions. Two do not: the daemon's upsert takes over the row of the id whoever owns it,
and a forget deletes the rows that its selectors match in every workspace.

## Main definitions

* `Op.workspace` — the workspace of a mutation
* `Store.SparesForeign` — the mutations that leave the rows of other workspaces alone

## Main results

* `Store.isolated_iff` — they are exactly the ones
* `Greeting.apply_breaks_isolation` — a daemon's upsert, and a forget
-/

namespace HeliosLite

open Theory

variable [Libraries]

/-- The workspace a mutation is issued with; the compression is store-wide, and the
daemon's older requests name none. -/
def Op.workspace : Op → Option Int64
  | .upsertConversation wid _ | .upsertConversationRef wid _ | .updateParentId wid _ _
  | .deleteConversation wid _ | .markIntentState wid _ _ | .pruneConversation wid _
  | .rewindConversation wid _ | .importForgeDb wid _ _ | .forgetConversations wid _ =>
    some wid.column
  | .daemon (.mutationV2 w _) => some w
  | .compressUncompressedContexts | .daemon _ => none

/-- The row belongs to a workspace other than `w`. -/
def ConversationRecord.IsForeign (w : Int64) (r : ConversationRecord) : Prop :=
  ∃ v, r.workspaceId = some v ∧ v ≠ w

namespace Store

/-- Every row of another workspace is there unchanged after the mutation. -/
def Isolated (s : Store) (now : DateTime) (w : Int64) (op : Op) : Prop :=
  ∀ r ∈ s.conversations.rows, r.IsForeign w → r ∈ (s.apply now op).conversations.rows

/-- A forget is a dry run, has no selector, or selects rows of the workspace only. A
daemon's upsert is of an id that no other workspace has, or of one whose row holds the
very columns already. -/
def SparesForeign (s : Store) (now : DateTime) (w : Int64) : Op → Prop
  | .forgetConversations _ options =>
    options.dryRun = false →
      ¬(options.ids.isEmpty && options.source.isNone && options.olderThanSecs.isNone) →
      ∀ r ∈ s.conversations.rows, r.IsForeign w → options.selects now r = false
  | .daemon (.mutationV2 _ (.upsertConversation c))
  | .daemon (.mutationV2 _ (.upsertConversationRef c)) =>
    c.toValueSucceeds → ∀ r ∈ s.conversations.rows, r.IsForeign w →
      r.conversationId = c.id.intoString → (DbServer.newRow c w now).onConflict r = r
  | _ => True

variable {s : Store} {now : DateTime} {w : Int64} {r : ConversationRecord}

/-! ### Statements with a condition on the workspace -/

theorem not_isOwned_of_isForeign (h : r.IsForeign w) (id : String) : r.isOwned id w = false := by
  obtain ⟨v, hv, hne⟩ := h
  apply Bool.eq_false_iff.mpr
  intro howned
  exact hne (Option.some.inj (hv.symm.trans (isOwned_iff.mp howned).1))

/-- The update of an owned row leaves the rows of other workspaces alone. -/
theorem mem_updateOwned_of_isForeign {id : String} {f : ConversationRecord → ConversationRecord}
    {hf : ∀ r, (f r).conversationId = r.conversationId} (hr : r ∈ s.conversations.rows)
    (h : r.IsForeign w) : r ∈ (s.updateOwned id w f hf).conversations.rows :=
  Table.mem_update_of_not hf hr (not_isOwned_of_isForeign h id)

theorem mem_deleteOwned_of_isForeign {id : String} (hr : r ∈ s.conversations.rows)
    (h : r.IsForeign w) :
    r ∈ (s.conversations.delete (ConversationRecord.isOwned id w)).rows :=
  Table.mem_delete.mpr ⟨hr, not_isOwned_of_isForeign h id⟩

/-- The repository's upsert inserts a new row or updates the owned one. -/
theorem mem_upsert_of_isForeign {record : ConversationRecord} (hw : record.workspaceId = some w)
    (hr : r ∈ s.conversations.rows) (h : r.IsForeign w) :
    r ∈ (s.orSame (s.upsertLocalConversationRecord record)).conversations.rows := by
  apply orSame_induction (P := fun t => r ∈ t.conversations.rows) hr
  intro s' hs'
  have hvalid := upsertLocalConversationRecord_ok hw hs'
  rcases upsertLocalConversationRecord_of_valid hw hvalid with ⟨hnew, heq⟩ | ⟨old, -, heq⟩
  · obtain rfl := Except.ok.inj (hs'.symm.trans heq)
    exact (Table.mem_insert (h := hnew)).mpr (Or.inl hr)
  · obtain rfl := Except.ok.inj (hs'.symm.trans heq)
    exact mem_updateOwned_of_isForeign hr h

/-! ### Statements without one -/

/-- The daemon's upsert keeps a row of another id, and one that it does not change. -/
theorem mem_daemonUpsert_iff {c : Conversation} (hr : r ∈ s.conversations.rows) :
    r ∈ ((DbServer.upsertConversation s c w now).getD s).conversations.rows
      ↔ (c.toValueSucceeds → r.conversationId = c.id.intoString →
        (DbServer.newRow c w now).onConflict r = r) := by
  by_cases hvalue : c.toValueSucceeds
  · rcases daemon_upsertConversation_cases s w now hvalue with
      ⟨hnew, heq⟩ | ⟨old, -, heq⟩
    · -- a new id: nobody has it
      have hne : r.conversationId ≠ c.id.intoString := Table.find?_eq_none_iff.mp hnew r hr
      rw [heq]
      exact iff_of_true ((Table.mem_insert (h := hnew)).mpr (Or.inl hr))
        fun _ hid => absurd hid hne
    · rw [heq]
      have hmem := Table.mem_update_iff_of_mem (p := fun q => q.conversationId == c.id.intoString)
        (f := (DbServer.newRow c w now).onConflict) (fun _ => rfl) hr
      rw [beq_iff_eq] at hmem
      exact hmem.trans ⟨fun h _ => h, fun h => h hvalue⟩
  · rw [DbServer.upsertConversation, if_neg hvalue]
    exact iff_of_true hr fun h => absurd h hvalue

/-- A forget keeps the rows that it does not select. -/
theorem mem_forget_iff {options : ForgeForgetOptions} (hr : r ∈ s.conversations.rows) :
    r ∈ (s.orSame ((s.forgetConversations options now).map Prod.snd)).conversations.rows
      ↔ (options.dryRun = false →
        ¬(options.ids.isEmpty && options.source.isNone && options.olderThanSecs.isNone) →
        options.selects now r = false) := by
  rw [forgetConversations]
  split_ifs with hnone hdry
  · exact iff_of_true hr fun _ h => absurd hnone h
  · exact iff_of_true hr fun h => absurd hdry (Bool.eq_false_iff.mp h)
  · have hmem : r ∈ (s.conversations.delete (options.selects now)).rows
        ↔ options.selects now r = false := by
      rw [Table.mem_delete]
      exact and_iff_right hr
    exact hmem.trans ⟨fun h _ _ => h, fun h => h (Bool.eq_false_iff.mpr hdry) hnone⟩

/-! ### Isolation -/

/-- The rows of other workspaces are left alone exactly by the mutations that spare them. -/
theorem isolated_iff {op : Op} (hop : op.workspace = some w) :
    s.Isolated now w op ↔ s.SparesForeign now w op := by
  cases op with
  | upsertConversation wid c =>
    obtain rfl := Option.some.inj hop
    exact iff_of_true (fun r hr h => mem_upsert_of_isForeign rfl hr h) trivial
  | upsertConversationRef wid c =>
    obtain rfl := Option.some.inj hop
    exact iff_of_true (fun r hr h => mem_upsert_of_isForeign rfl hr h) trivial
  | updateParentId wid id parent =>
    obtain rfl := Option.some.inj hop
    refine iff_of_true (fun r hr h => ?_) trivial
    apply orSame_induction (P := fun t => r ∈ t.conversations.rows) hr
    intro s' hs'
    rcases updateParentId_ok hs' with rfl | rfl
    · exact hr
    · exact mem_updateOwned_of_isForeign hr h
  | deleteConversation wid id =>
    obtain rfl := Option.some.inj hop
    refine iff_of_true (fun r hr h => ?_) trivial
    apply orSame_induction (P := fun t => r ∈ t.conversations.rows) hr
    intro s' hs'
    rw [deleteConversation_ok hs']
    exact mem_deleteOwned_of_isForeign hr h
  | markIntentState wid id state =>
    obtain rfl := Option.some.inj hop
    refine iff_of_true (fun r hr h => ?_) trivial
    apply orSame_induction (P := fun t => r ∈ t.conversations.rows) hr
    intro s' hs'
    obtain ⟨-, -, -, -, -, -, -, rfl⟩ := markIntentState_ok hs'
    exact mem_updateOwned_of_isForeign hr h
  | pruneConversation wid id =>
    obtain rfl := Option.some.inj hop
    refine iff_of_true (fun r hr h => ?_) trivial
    apply orSame_induction (P := fun t => r ∈ t.conversations.rows) hr
    intro s' hs'
    obtain ⟨-, -, -, rfl⟩ := pruneConversation_ok hs'
    exact mem_updateOwned_of_isForeign hr h
  | rewindConversation wid id =>
    obtain rfl := Option.some.inj hop
    refine iff_of_true (fun r hr h => ?_) trivial
    apply orSame_induction (P := fun t => r ∈ t.conversations.rows) hr
    intro s' hs'
    obtain ⟨c, hc⟩ := map_snd_ok hs'
    rcases rewindConversation_ok hc with rfl | ⟨-, -, rfl⟩
    · exact hr
    · exact mem_updateOwned_of_isForeign hr h
  | compressUncompressedContexts => cases hop
  | importForgeDb wid rows dryRun =>
    refine iff_of_true (fun r hr h => ?_) trivial
    apply importForgeDb_induction (P := fun t => r ∈ t.conversations.rows) _ hr
    intro t row cid _ _ _ _ ht hfind
    exact (Table.mem_insert (h := hfind)).mpr (Or.inl ht)
  | forgetConversations wid options =>
    constructor
    · intro h hdry hsome r hr hforeign
      exact (mem_forget_iff hr).mp (h r hr hforeign) hdry hsome
    · intro h r hr hforeign
      exact (mem_forget_iff hr).mpr fun hdry hsome => h hdry hsome r hr hforeign
  | daemon request =>
    cases request with
    | mutationV2 v mutation =>
      obtain rfl := Option.some.inj hop
      cases mutation with
      | upsertConversation c =>
        rw [Isolated, apply_daemon_upsertConversation]
        constructor
        · intro h hvalue r hr hforeign
          exact (mem_daemonUpsert_iff hr).mp (h r hr hforeign) hvalue
        · intro h r hr hforeign
          exact (mem_daemonUpsert_iff hr).mpr fun hvalue => h hvalue r hr hforeign
      | upsertConversationRef c =>
        rw [Isolated, apply_daemon_upsertConversationRef]
        constructor
        · intro h hvalue r hr hforeign
          exact (mem_daemonUpsert_iff hr).mp (h r hr hforeign) hvalue
        · intro h r hr hforeign
          exact (mem_daemonUpsert_iff hr).mpr fun hvalue => h hvalue r hr hforeign
      | updateParentId id parent =>
        exact iff_of_true (fun r hr h => mem_updateOwned_of_isForeign hr h) trivial
      | deleteConversation id =>
        exact iff_of_true (fun r hr h => mem_deleteOwned_of_isForeign hr h) trivial
    | upsertConversation | upsertConversationRef | updateParentId | deleteConversation => cases hop

end Store

end HeliosLite

namespace HeliosLite.Greeting

open Theory

attribute [local instance] reference

/-- A store in which the workspace `wid` has the greeting. -/
def stored : Store := run Store.step .empty (atEpoch [.upsertConversation wid (saying "hi")])

/-- The deletion of an id that another workspace has. -/
theorem isolated_delete : stored.Isolated .epoch 2 (.deleteConversation ⟨2⟩ id) :=
  (Store.isolated_iff rfl).mpr trivial

/-- The store has a row of the workspace `wid` without a title. -/
theorem exists_stored :
    ∃ r ∈ stored.conversations.rows, r.IsForeign 2 ∧ r.title = none := by
  have hany : stored.conversations.rows.any fun r =>
      r.workspaceId == some 1 && r.title == none := by
    decide +kernel
  obtain ⟨r, hr, hboth⟩ := List.any_eq_true.mp hany
  obtain ⟨howner, htitle⟩ := Bool.and_eq_true_iff.mp hboth
  exact ⟨r, hr, ⟨1, beq_iff_eq.mp howner, by decide⟩, beq_iff_eq.mp htitle⟩

/-- The row of the workspace `wid` is overwritten by a daemon's upsert of another workspace,
and deleted by a forget of another. -/
theorem apply_breaks_isolation :
    ¬ stored.Isolated .epoch 2
        (.daemon (.mutationV2 2 (.upsertConversation { saying "hi" with title := some "taken" }))) ∧
    ¬ stored.Isolated .epoch 2
        (.forgetConversations ⟨2⟩
          { ids := [id], source := none, olderThanSecs := none, dryRun := false }) := by
  obtain ⟨r, hr, hforeign, htitle⟩ := exists_stored
  constructor
  · intro h
    have htaken : (stored.apply .epoch (.daemon (.mutationV2 2 (.upsertConversation
        { saying "hi" with title := some "taken" })))).conversations.rows.all
          fun q => q.title == some "taken" := by decide +kernel
    have hsame := List.all_eq_true.mp htaken r (h r hr hforeign)
    rw [htitle] at hsame
    cases hsame
  · intro h
    have hempty : (stored.apply .epoch (.forgetConversations ⟨2⟩
        { ids := [id], source := none, olderThanSecs := none
          dryRun := false })).conversations.rows.isEmpty := by decide +kernel
    have hmem := h r hr hforeign
    rw [List.isEmpty_iff.mp hempty] at hmem
    cases hmem

end HeliosLite.Greeting
