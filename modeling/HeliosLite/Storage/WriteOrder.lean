import HeliosLite.Storage.Reads
import HeliosLite.Storage.Mutation
import HeliosLite.Storage.Reference
import HeliosLite.Storage.Timestamps
import Mathlib.Data.List.Sort

/-!
# The order of the last writes

Lists of conversations are sorted by the text of the time at which a row was last written, and
rows older than a cutoff are forgotten by the same text. A history keeps for each row which
write was the last, what kind of time it left, and when. Sorted rows are listed in the order of
their last writes if each later write leaves a text that compares greater.

## Main definitions

* `Store.writes` — what a mutation writes to the time of a row, if it writes the row
* `Ledger` — a store with the last write of each row
* `LastWrite.Precedes` — the later of two writes leaves the greater text

## Main results

* `tracks_apply` — a row has the time of its last write
* `precedes_iff` — `LastWrite.Precedes` is the order of the texts
* `run_listsInOrder_iff` — when sorted rows are listed in the order of their last writes
* `Greeting.run_lists_out_of_order` — a write by the daemon and one by the repository
-/

namespace Theory

variable {α : Type*}

/-- However a list is sorted, `R` never holds from the front to the back: this is so if the order
separates whatever `R` relates. -/
theorem forall_sorted_iff {le : α → α → Bool}
    (htrans : ∀ a b c, le a b = true → le b c = true → le a c = true)
    (htotal : ∀ a b, (le a b || le b a) = true) {l : List α} {R : α → α → Prop}
    (hirrefl : ∀ a, ¬R a a) :
    (∀ m : List α, m.Perm l → (m.Pairwise fun a b => le a b = true) →
      m.Pairwise fun a b => ¬R a b) ↔ ∀ a ∈ l, ∀ b ∈ l, R a b → le a b = false := by
  constructor
  · intro h a ha b hb hR
    by_contra hle
    obtain ⟨front, back, rfl⟩ := List.append_of_mem ha
    have hrest : b ∈ front ++ back := by
      have hne : b ≠ a := fun heq => hirrefl a (heq ▸ hR)
      simpa [hne] using hb
    obtain ⟨front', back', hsplit⟩ := List.append_of_mem hrest
    have : IsTrans α fun a b => le a b = true := ⟨htrans⟩
    have : Std.Total fun a b : α => le a b = true := ⟨fun a b => by simpa using htotal a b⟩
    let m := (a :: b :: (front' ++ back')).insertionSort fun a b => le a b
    -- sorting is stable, so that `a` stays before `b`
    have hpair : [a, b].Sublist m :=
      List.pair_sublist_insertionSort (by simpa using hle) (by simp)
    have hperm : m.Perm (front ++ a :: back) := by
      apply (List.perm_insertionSort _ _).trans
      apply List.Perm.trans _ List.perm_middle.symm
      rw [hsplit]
      exact List.Perm.cons a List.perm_middle.symm
    have hsorted := h m hperm (List.pairwise_insertionSort _ _)
    exact (List.pairwise_cons.mp (hsorted.sublist hpair)).1 b List.mem_cons_self hR
  · intro h m hperm hsorted
    apply hsorted.imp_of_mem
    intro a b ha hb hle hR
    rw [h a (hperm.subset ha) b (hperm.subset hb) hR] at hle
    cases hle

end Theory

namespace HeliosLite

open Theory

variable [Libraries]

/-! ### What a write leaves -/

/-- What a write leaves as the time of its row: nothing, or a time in one of the formats. -/
inductive TimeForm where
  | blank
  | naive
  | strftime
  deriving DecidableEq

/-- The column after a write at a time. -/
def TimeForm.stamp (form : TimeForm) (now : DateTime) : Option Stamp :=
  match form with
  | .blank => none
  | .naive => some (.naive now)
  | .strftime => some (.strftime now)

/-- The repository leaves no time with a blank context. -/
def contextForm (context : Option Context) : TimeForm :=
  if context.any fun c => !c.isBlank then .naive else .blank

omit [Libraries] in
theorem contextForm_cases (context : Option Context) :
    contextForm context = .blank ∨ contextForm context = .naive := by
  unfold contextForm
  split_ifs
  · exact Or.inr rfl
  · exact Or.inl rfl

theorem updatedAt_encodeContext (context : Option Context) (now : DateTime) :
    (encodeContext context now).updatedAt = (contextForm context).stamp now := by
  cases context with
  | none => rfl
  | some c =>
    by_cases hblank : c.isBlank
    · simp [encodeContext, contextForm, TimeForm.stamp, hblank]
    · cases hcompress : Libraries.compress c.recordText <;>
        simp [encodeContext, contextForm, TimeForm.stamp, hblank, hcompress]

namespace Store

/-- The form of the time that a mutation writes to the row of the id, if it writes that row. Rows
that are there already are not written by an import. -/
def writes (s : Store) (now : DateTime) (id : String) : Op → Option TimeForm
  | .upsertConversation wid c =>
    if c.id.intoString = id ∧ (s.upsertConversation wid c now).isOk then
      some (contextForm c.context)
    else none
  | .upsertConversationRef wid c =>
    if c.id.intoString = id ∧ (s.upsertConversationRef wid c now).isOk then
      some (contextForm c.context)
    else none
  | .updateParentId wid cid _ | .rewindConversation wid cid =>
    if cid.intoString = id ∧ (s.findOwned id wid.column).isSome then some .naive else none
  | .markIntentState wid cid state =>
    if cid.intoString = id ∧ (s.markIntentState wid cid state now).isOk then some .naive else none
  | .pruneConversation wid cid =>
    if cid.intoString = id ∧ (s.pruneConversation wid cid now).isOk then some .naive else none
  | .importForgeDb wid rows dryRun =>
    match s.conversations.find? id,
      (s.importForgeDb wid rows dryRun now).1.conversations.find? id with
    | none, some r => some (if r.updatedAt.isSome then .naive else .blank)
    | _, _ => none
  | .daemon (.mutationV2 _ (.upsertConversation c))
  | .daemon (.mutationV2 _ (.upsertConversationRef c)) =>
    if c.id.intoString = id ∧ c.toValueSucceeds then some .strftime else none
  | .daemon (.mutationV2 w (.updateParentId cid _)) =>
    if cid.intoString = id ∧ (s.findOwned id w).isSome then some .strftime else none
  | .deleteConversation _ _ | .compressUncompressedContexts | .forgetConversations _ _
  | .daemon _ => none

variable {s s' : Store} {now : DateTime} {op : Op} {id : String} {w : Int64} {form : TimeForm}

/-- A row after a mutation has the time that the mutation wrote, or that the row had before. -/
def Tracks (s : Store) (now : DateTime) (op : Op) (q : ConversationRecord) : Prop :=
  match s.writes now q.conversationId op with
  | some form => q.updatedAt = form.stamp now
  | none =>
    ∃ r ∈ s.conversations.rows, r.conversationId = q.conversationId ∧ r.updatedAt = q.updatedAt

theorem tracks_of_writes {q : ConversationRecord}
    (hwrites : s.writes now q.conversationId op = some form) (h : q.updatedAt = form.stamp now) :
    s.Tracks now op q := by
  rw [Tracks, hwrites]
  exact h

theorem tracks_of_mem {q : ConversationRecord} (hq : q ∈ s.conversations.rows)
    (hwrites : s.writes now q.conversationId op = none) : s.Tracks now op q := by
  rw [Tracks, hwrites]
  exact ⟨q, hq, rfl, rfl⟩

theorem tracks_insert {record : ConversationRecord}
    (hnew : s.conversations.find? record.conversationId = none)
    (hwrites : s.writes now record.conversationId op = some form)
    (hother : ∀ id, id ≠ record.conversationId → s.writes now id op = none)
    (h : record.updatedAt = form.stamp now) :
    ∀ q ∈ (s.conversations.insert record hnew).rows, s.Tracks now op q := by
  apply Table.forall_insert (P := s.Tracks now op) hnew
  · intro q hq
    exact tracks_of_mem hq (hother _ (Table.find?_eq_none_iff.mp hnew q hq))
  · exact tracks_of_writes hwrites h

theorem tracks_update {p : ConversationRecord → Bool}
    {f : ConversationRecord → ConversationRecord}
    (hf : ∀ r, (f r).conversationId = r.conversationId)
    (hwrites : ∀ r ∈ s.conversations.rows, p r = true →
      s.writes now r.conversationId op = some form)
    (hother : ∀ r ∈ s.conversations.rows, p r = false → s.writes now r.conversationId op = none)
    (h : ∀ r, (f r).updatedAt = form.stamp now) :
    ∀ q ∈ (s.conversations.update p f hf).rows, s.Tracks now op q := by
  intro q hq
  obtain ⟨r, hr, rfl⟩ := Table.mem_update.mp hq
  split_ifs with hp
  · exact tracks_of_writes (by rw [hf]; exact hwrites r hr hp) (h r)
  · exact tracks_of_mem hr (hother r hr (by simpa using hp))

/-- The owned row is the only one that is written. -/
theorem tracks_updateOwned {f : ConversationRecord → ConversationRecord}
    {hf : ∀ r, (f r).conversationId = r.conversationId}
    (hwrites : (s.findOwned id w).isSome → s.writes now id op = some form)
    (hnone : s.findOwned id w = none → s.writes now id op = none)
    (hother : ∀ k, k ≠ id → s.writes now k op = none)
    (h : ∀ r, (f r).updatedAt = form.stamp now) :
    ∀ q ∈ (s.updateOwned id w f hf).conversations.rows, s.Tracks now op q := by
  apply tracks_update hf
  · intro r hr howned
    rw [(isOwned_iff.mp howned).2]
    exact hwrites (by rw [findOwned_of_mem hr howned]; rfl)
  · intro r hr hnot
    by_cases hid : r.conversationId = id
    · rw [hid]
      apply hnone
      cases hfind : s.findOwned id w with
      | none => rfl
      | some q =>
        -- a row of the id that is owned is this one
        obtain ⟨hmem, howner⟩ := findOwned_eq_some_iff.mp hfind
        obtain ⟨hqmem, hqid⟩ := Table.find?_eq_some_iff.mp hmem
        obtain rfl := Table.eq_of_mem_of_key hqmem hr (hqid.trans hid.symm)
        rw [isOwned_iff.mpr ⟨howner, hqid⟩] at hnot
        cases hnot
    · exact hother _ hid
  · exact h

/-- Nothing is written, and the rows are the same. -/
theorem tracks_same (hwrites : ∀ id, s.writes now id op = none) :
    ∀ q ∈ s.conversations.rows, s.Tracks now op q :=
  fun _ hq => tracks_of_mem hq (hwrites _)

/-! ### Each mutation -/

variable {wid : WorkspaceHash}

theorem tracks_upsert {c : Conversation}
    (hwrites : ∀ id, s.writes now id op =
      if c.id.intoString = id ∧ (s.upsertLocalConversationRecord (.new c wid now)).isOk then
        some (contextForm c.context)
      else none) :
    ∀ q ∈ (s.orSame (s.upsertLocalConversationRecord (.new c wid now))).conversations.rows,
      s.Tracks now op q := by
  have hother : ∀ k, k ≠ c.id.intoString → s.writes now k op = none := by
    intro k hk
    rw [hwrites, if_neg fun h => hk h.1.symm]
  cases hresult : s.upsertLocalConversationRecord (.new c wid now) with
  | error e =>
    have hnone : ∀ k, s.writes now k op = none := by
      intro k
      rw [hwrites, hresult, if_neg fun h => Bool.false_ne_true h.2]
    exact tracks_same hnone
  | ok s' =>
    have hid : s.writes now c.id.intoString op = some (contextForm c.context) := by
      rw [hwrites, hresult]
      exact if_pos ⟨rfl, rfl⟩
    have hstamp : (ConversationRecord.new c wid now).updatedAt =
        (contextForm c.context).stamp now := updatedAt_encodeContext c.context now
    have hvalid := upsertLocalConversationRecord_ok rfl hresult
    rcases upsertLocalConversationRecord_of_valid rfl hvalid with ⟨hnew, heq⟩ | ⟨old, hold, heq⟩
    · obtain rfl := Except.ok.inj (hresult.symm.trans heq)
      exact tracks_insert hnew hid hother hstamp
    · obtain rfl := Except.ok.inj (hresult.symm.trans heq)
      have hnone : s.findOwned c.id.intoString wid.column = none →
          s.writes now c.id.intoString op = none := by
        intro hnone
        rw [show s.findOwned c.id.intoString wid.column = some old from hold] at hnone
        cases hnone
      exact tracks_updateOwned (f := (ConversationRecord.new c wid now).onConflict) (fun _ => hid)
        hnone hother fun _ => hstamp

/-- A mutation that changes the owned row, if there is one. -/
theorem tracks_owned {cid : ConversationId} {result : Except String Store}
    {f : ConversationRecord → ConversationRecord}
    {hf : ∀ r, (f r).conversationId = r.conversationId}
    (hwrites : ∀ id, s.writes now id op =
      if cid.intoString = id ∧ (s.findOwned id w).isSome then some form else none)
    (howned : (s.findOwned cid.intoString w).isSome →
      result = .ok (s.updateOwned cid.intoString w f hf))
    (hsame : s.findOwned cid.intoString w = none → s.orSame result = s)
    (h : ∀ r, (f r).updatedAt = form.stamp now) :
    ∀ q ∈ (s.orSame result).conversations.rows, s.Tracks now op q := by
  have hother : ∀ k, k ≠ cid.intoString → s.writes now k op = none := by
    intro k hk
    rw [hwrites, if_neg fun h => hk h.1.symm]
  cases hfind : s.findOwned cid.intoString w with
  | none =>
    rw [hsame hfind]
    apply tracks_same
    intro k
    rw [hwrites]
    apply if_neg
    rintro ⟨rfl, hsome⟩
    rw [hfind] at hsome
    cases hsome
  | some r =>
    rw [howned (by rw [hfind]; rfl)]
    apply tracks_updateOwned _ _ hother h
    · intro hsome
      rw [hwrites, if_pos ⟨rfl, hsome⟩]
    · intro hnone
      rw [hfind] at hnone
      cases hnone

/-- A mutation that fails unless it changes the owned row. -/
theorem tracks_required {cid : ConversationId} {result : Except String Store}
    {f : ConversationRecord → ConversationRecord}
    (hf : ∀ r, (f r).conversationId = r.conversationId)
    (hwrites : ∀ id, s.writes now id op =
      if cid.intoString = id ∧ result.isOk then some form else none)
    (hok : ∀ s', result = .ok s' → (s.findOwned cid.intoString w).isSome ∧
      s' = s.updateOwned cid.intoString w f hf)
    (h : ∀ r, (f r).updatedAt = form.stamp now) :
    ∀ q ∈ (s.orSame result).conversations.rows, s.Tracks now op q := by
  cases hresult : result with
  | error e =>
    have hnone : ∀ k, s.writes now k op = none := by
      intro k
      rw [hwrites, hresult, if_neg fun h => Bool.false_ne_true h.2]
    exact tracks_same hnone
  | ok s' =>
    obtain ⟨hsome, rfl⟩ := hok s' hresult
    apply tracks_updateOwned _ _ _ h
    · intro _
      rw [hwrites, hresult]
      exact if_pos ⟨rfl, rfl⟩
    · intro hnone
      rw [hnone] at hsome
      cases hsome
    · intro k hk
      rw [hwrites, if_neg fun h => hk h.1.symm]

theorem tracks_daemonUpsert {c : Conversation} {w : Int64}
    (hwrites : ∀ id, s.writes now id op =
      if c.id.intoString = id ∧ c.toValueSucceeds then some .strftime else none) :
    ∀ q ∈ ((DbServer.upsertConversation s c w now).getD s).conversations.rows,
      s.Tracks now op q := by
  by_cases hvalue : c.toValueSucceeds
  · have hid : s.writes now c.id.intoString op = some .strftime := by
      rw [hwrites]
      exact if_pos ⟨rfl, hvalue⟩
    have hother : ∀ k, k ≠ c.id.intoString → s.writes now k op = none := by
      intro k hk
      rw [hwrites, if_neg fun h => hk h.1.symm]
    rcases daemon_upsertConversation_cases s w now hvalue with ⟨hnew, heq⟩ | ⟨old, -, heq⟩
    · rw [heq]
      exact tracks_insert hnew hid hother rfl
    · rw [heq]
      apply tracks_update (f := (DbServer.newRow c w now).onConflict) (fun _ => rfl)
      · intro r _ hsame
        rw [beq_iff_eq.mp hsame]
        exact hid
      · intro r _ hdiffers
        exact hother _ (by simpa using hdiffers)
      · exact fun _ => rfl
  · rw [DbServer.upsertConversation, if_neg hvalue]
    have hnone : ∀ k, s.writes now k op = none := by
      intro k
      rw [hwrites, if_neg fun h => hvalue h.2]
    exact tracks_same hnone

theorem tracks_import {rows : List SourceRow} {dryRun : Bool} :
    ∀ q ∈ (s.importForgeDb wid rows dryRun now).1.conversations.rows,
      s.Tracks now (.importForgeDb wid rows dryRun) q := by
  intro q hq
  have hafter : (s.importForgeDb wid rows dryRun now).1.conversations.find? q.conversationId =
      some q := Table.find?_eq_some_iff.mpr ⟨hq, rfl⟩
  rcases origin_import rows dryRun q hq with hkept | ⟨hnew, hinserted⟩ | ⟨r, -, hchanged⟩
  · have hbefore : s.conversations.find? q.conversationId = some q :=
      Table.find?_eq_some_iff.mpr ⟨hkept, rfl⟩
    apply tracks_of_mem hkept
    rw [writes, hbefore]
  · have hwrites : s.writes now q.conversationId (.importForgeDb wid rows dryRun) =
        some (if q.updatedAt.isSome then .naive else .blank) := by
      rw [writes, hnew, hafter]
    apply tracks_of_writes hwrites
    cases hinserted with
    | @imported _ _ row cid =>
      have hstamp : (ConversationRecord.new (importedConversation row cid now) wid now).updatedAt =
          (contextForm (importedConversation row cid now).context).stamp now :=
        updatedAt_encodeContext _ now
      rw [hstamp]
      rcases contextForm_cases (importedConversation row cid now).context with hform | hform
      · rw [hform]
        rfl
      · rw [hform]
        rfl
  · cases hchanged

theorem updatedAt_compressRow (r : ConversationRecord) :
    (compressRow r).updatedAt = r.updatedAt := by
  rw [compressRow]
  split <;> rfl

theorem updateParentId_of_owned {cid : ConversationId} {parent : Option ConversationId}
    (h : (s.findOwned cid.intoString wid.column).isSome) :
    s.updateParentId wid cid parent now = .ok (s.updateOwned cid.intoString wid.column
      (fun r => { r with
        parentId := parent.map (·.intoString)
        updatedAt := some (.naive now) }) fun _ => rfl) := by
  obtain ⟨r, hr⟩ := Option.isSome_iff_exists.mp h
  rw [updateParentId, validateLocalMutation_of_owned hr, hr]
  rfl

theorem updateParentId_of_not_owned {cid : ConversationId} {parent : Option ConversationId}
    (h : s.findOwned cid.intoString wid.column = none) :
    s.orSame (s.updateParentId wid cid parent now) = s := by
  rw [updateParentId, h]
  cases s.validateLocalMutation cid.intoString wid.column <;> rfl

theorem rewindConversation_of_owned {cid : ConversationId} {r : ConversationRecord}
    (h : s.findOwned cid.intoString wid.column = some r) :
    (s.rewindConversation wid cid now).map Prod.snd = .ok (s.updateOwned cid.intoString wid.column
      (fun q => { q with
        context := r.context.map fun context =>
          truncateContext context (findLastCompactionPoint context)
        updatedAt := some (.naive now) }) fun _ => rfl) := by
  rw [rewindConversation, validateLocalMutation_of_owned h, h]
  rfl

theorem rewindConversation_of_not_owned {cid : ConversationId}
    (h : s.findOwned cid.intoString wid.column = none) :
    s.orSame ((s.rewindConversation wid cid now).map Prod.snd) = s := by
  rw [rewindConversation, h]
  cases s.validateLocalMutation cid.intoString wid.column <;> rfl

/-- A row has the time of its last write: the one that the mutation made, or one before it. -/
theorem tracks_apply (op : Op) : ∀ q ∈ (s.apply now op).conversations.rows, s.Tracks now op q := by
  have hdeletes : ∀ p, (∀ id, s.writes now id op = none) →
      ∀ q ∈ (s.conversations.delete p).rows, s.Tracks now op q := fun p hnone q hq =>
    tracks_of_mem (Table.mem_delete.mp hq).1 (hnone _)
  cases op with
  | upsertConversation wid c => exact tracks_upsert fun _ => rfl
  | upsertConversationRef wid c => exact tracks_upsert fun _ => rfl
  | updateParentId wid cid parent =>
    apply tracks_owned (fun _ => rfl) updateParentId_of_owned
      updateParentId_of_not_owned
    exact fun _ => rfl
  | deleteConversation wid cid =>
    apply orSame_induction (P := fun t => ∀ q ∈ t.conversations.rows, s.Tracks now _ q)
    · exact tracks_same fun _ => rfl
    · intro s' hs'
      rw [deleteConversation_ok hs']
      exact hdeletes _ fun _ => rfl
  | markIntentState wid cid state =>
    apply tracks_required (w := wid.column)
      (f := fun r => { r with intentState := state, updatedAt := some (.naive now) })
      (fun _ => rfl) (fun _ => rfl) _ fun _ => rfl
    intro s' hs'
    obtain ⟨r, current, next, hr, -, -, -, rfl⟩ := markIntentState_ok hs'
    exact ⟨by rw [hr]; rfl, rfl⟩
  | pruneConversation wid cid =>
    apply tracks_required (w := wid.column)
      (f := fun r => { r with
        context := some (Serde.JsonText.toText (prunedContext cid.intoString now).toValue)
        intentState := "pruned"
        updatedAt := some (.naive now) })
      (fun _ => rfl) (fun _ => rfl) _ fun _ => rfl
    intro s' hs'
    obtain ⟨r, hr, -, rfl⟩ := pruneConversation_ok hs'
    exact ⟨by rw [hr]; rfl, rfl⟩
  | rewindConversation wid cid =>
    cases hfind : s.findOwned cid.intoString wid.column with
    | none =>
      have hnone : ∀ k, s.writes now k (.rewindConversation wid cid) = none := by
        intro k
        apply if_neg
        rintro ⟨rfl, hsome⟩
        rw [hfind] at hsome
        cases hsome
      rw [apply, rewindConversation_of_not_owned hfind]
      exact tracks_same hnone
    | some r =>
      apply tracks_owned (fun _ => rfl)
        (fun _ => rewindConversation_of_owned hfind) rewindConversation_of_not_owned
      exact fun _ => rfl
  | compressUncompressedContexts =>
    intro q hq
    have hupdated : q ∈ (s.conversations.update isPlainRow compressRow
        conversationId_compressRow).rows := hq
    obtain ⟨r, hr, rfl⟩ := Table.mem_update.mp hupdated
    refine ⟨r, hr, ?_⟩
    split_ifs
    · exact ⟨(conversationId_compressRow r).symm, (updatedAt_compressRow r).symm⟩
    · exact ⟨rfl, rfl⟩
  | importForgeDb wid rows dryRun => exact tracks_import
  | forgetConversations wid options =>
    apply orSame_induction (P := fun t => ∀ q ∈ t.conversations.rows, s.Tracks now _ q)
    · exact tracks_same fun _ => rfl
    · intro s' hs'
      obtain ⟨report, hreport⟩ := map_snd_ok hs'
      rcases forgetConversations_ok hreport with rfl | rfl
      · exact tracks_same fun _ => rfl
      · exact hdeletes _ fun _ => rfl
  | daemon request =>
    cases request with
    | mutationV2 w mutation =>
      cases mutation with
      | upsertConversation c =>
        rw [apply_daemon_upsertConversation]
        exact tracks_daemonUpsert fun _ => rfl
      | upsertConversationRef c =>
        rw [apply_daemon_upsertConversationRef]
        exact tracks_daemonUpsert fun _ => rfl
      | updateParentId cid parent =>
        apply tracks_updateOwned
        · exact fun hsome => if_pos ⟨rfl, hsome⟩
        · intro hnone
          apply if_neg
          rintro ⟨-, hsome⟩
          rw [hnone] at hsome
          cases hsome
        · exact fun k hk => if_neg fun h => hk h.1.symm
        · exact fun _ => rfl
      | deleteConversation cid => exact hdeletes _ fun _ => rfl
    | upsertConversation | upsertConversationRef | updateParentId | deleteConversation =>
      exact tracks_same fun _ => rfl

end Store

/-! ### Histories -/

/-- The last write of a row: its place in the run, the form of the time that it left, and the time
at which it was made. -/
structure LastWrite where
  position : ℕ
  form : TimeForm
  time : DateTime
  deriving DecidableEq

/-- A store with the last write of each id. -/
structure Ledger where
  store : Store
  position : ℕ
  last : String → Option LastWrite

namespace Ledger

/-- Nothing is written yet. -/
def initial (legacy : List ConversationRecord) : Ledger :=
  { store := { conversations := Table.empty, legacy := legacy }
    position := 0
    last := fun _ => none }

def step (h : Ledger) (a : Op × DateTime) : Ledger :=
  { store := h.store.step a
    position := h.position + 1
    last := fun id =>
      match h.store.writes a.2 id a.1 with
      | some form => some { position := h.position, form := form, time := a.2 }
      | none => h.last id }

/-- Each row has the time that its last write left, in a text that the libraries document. -/
def Recorded (h : Ledger) : Prop :=
  ∀ q ∈ h.store.conversations.rows, ∃ u, h.last q.conversationId = some u ∧
    q.updatedAt = u.form.stamp u.time ∧ u.time.Formatted

theorem Recorded.step {h : Ledger} (hrecorded : h.Recorded) {a : Op × DateTime}
    (ha : a.2.Formatted) : (h.step a).Recorded := by
  intro q hq
  have htracks := Store.tracks_apply a.1 q hq
  unfold Store.Tracks at htracks
  cases hwrites : h.store.writes a.2 q.conversationId a.1 with
  | some form =>
    rw [hwrites] at htracks
    refine ⟨{ position := h.position, form := form, time := a.2 }, ?_, htracks, ha⟩
    simp only [Ledger.step, hwrites]
  | none =>
    rw [hwrites] at htracks
    obtain ⟨r, hr, hid, hupdated⟩ := htracks
    obtain ⟨u, hu, hstamp, hformatted⟩ := hrecorded r hr
    refine ⟨u, ?_, hupdated ▸ hstamp, hformatted⟩
    rw [← hid] at hwrites ⊢
    simp only [Ledger.step, hwrites, hu]

theorem run_recorded (legacy : List ConversationRecord) {ops : List (Op × DateTime)}
    (hops : ∀ a ∈ ops, a.2.Formatted) : (run step (initial legacy) ops).Recorded := by
  have hstep : ∀ (h : Ledger) (a : Op × DateTime), a.2.Formatted → h.Recorded →
      (h.step a).Recorded := fun h a ha hrecorded => hrecorded.step ha
  apply run_invariant hstep (meets_of_forall hops)
  intro q hq
  cases hq

end Ledger

/-! ### The order of the texts -/

/-- The later write leaves a text that compares greater than that of the earlier one. -/
def LastWrite.Precedes (u v : LastWrite) : Prop :=
  match u.form, v.form with
  | _, .blank => False
  | .blank, _ => True
  | .naive, .naive => u.time.nanos < v.time.nanos
  | .strftime, .strftime => u.time.millis < v.time.millis
  | .naive, .strftime => u.time.day ≤ v.time.day
  | .strftime, .naive => u.time.day < v.time.day

instance (u v : LastWrite) : Decidable (u.Precedes v) :=
  match u, v with
  | ⟨_, .blank, _⟩, ⟨_, .blank, _⟩ => .isFalse id
  | ⟨_, .naive, _⟩, ⟨_, .blank, _⟩ => .isFalse id
  | ⟨_, .strftime, _⟩, ⟨_, .blank, _⟩ => .isFalse id
  | ⟨_, .blank, _⟩, ⟨_, .naive, _⟩ => .isTrue trivial
  | ⟨_, .blank, _⟩, ⟨_, .strftime, _⟩ => .isTrue trivial
  | ⟨_, .naive, t⟩, ⟨_, .naive, t'⟩ => inferInstanceAs (Decidable (t.nanos < t'.nanos))
  | ⟨_, .strftime, t⟩, ⟨_, .strftime, t'⟩ => inferInstanceAs (Decidable (t.millis < t'.millis))
  | ⟨_, .naive, t⟩, ⟨_, .strftime, t'⟩ => inferInstanceAs (Decidable (t.day ≤ t'.day))
  | ⟨_, .strftime, t⟩, ⟨_, .naive, t'⟩ => inferInstanceAs (Decidable (t.day < t'.day))

/-- `updated_at DESC`. -/
def ConversationRecord.newer (a b : ConversationRecord) : Bool :=
  (⟨a, false⟩ : ViewRow).newer ⟨b, false⟩

theorem precedes_iff {u v : LastWrite} {a b : ConversationRecord}
    (ha : a.updatedAt = u.form.stamp u.time) (hb : b.updatedAt = v.form.stamp v.time)
    (hu : u.time.Formatted) (hv : v.time.Formatted) : u.Precedes v ↔ a.newer b = false := by
  rw [ConversationRecord.newer, ViewRow.newer, ha, hb]
  unfold LastWrite.Precedes
  cases u.form with
  | blank => cases v.form <;> simp [TimeForm.stamp]
  | naive =>
    cases v.form with
    | blank => simp [TimeForm.stamp]
    | naive => simpa [TimeForm.stamp, Stamp.naive] using (hu.sqlTime_lt_sqlTime hv).symm
    | strftime =>
      simpa [TimeForm.stamp, Stamp.naive, Stamp.strftime] using (hu.sqlTime_lt_strftimeNow hv).symm
  | strftime =>
    cases v.form with
    | blank => simp [TimeForm.stamp]
    | naive =>
      simpa [TimeForm.stamp, Stamp.naive, Stamp.strftime] using (hu.strftimeNow_lt_sqlTime hv).symm
    | strftime =>
      simpa [TimeForm.stamp, Stamp.strftime] using (hu.strftimeNow_lt_strftimeNow hv).symm

namespace Ledger

variable {h : Ledger} {p : ConversationRecord → Bool}

/-- The last write of one row comes before that of another. -/
def WrittenBefore (h : Ledger) (a b : ConversationRecord) : Prop :=
  ∃ u ∈ h.last a.conversationId, ∃ v ∈ h.last b.conversationId, u.position < v.position

/-- However the rows that a read selects are sorted by `updated_at DESC`, no row stands before one
that was written after it. -/
def ListsInOrder (h : Ledger) (p : ConversationRecord → Bool) : Prop :=
  ∀ rows : List ConversationRecord, rows.Perm (h.store.conversations.rows.filter p) →
    (rows.Pairwise fun a b => a.newer b = true) → rows.Pairwise fun a b => ¬h.WrittenBefore a b

/-- A row that was last written after the cutoff is not forgotten. -/
def ForgetsOlderOnly (h : Ledger) (options : ForgeForgetOptions) (now : DateTime) (secs : ℤ) :
    Prop :=
  ∀ report s', h.store.forgetConversations options now = .ok (report, s') →
    ∀ r ∈ h.store.conversations.rows, ∀ u ∈ h.last r.conversationId,
      (now.timestamp - secs) * 1000000000 ≤ u.time.nanos → r ∈ s'.conversations.rows

theorem not_writtenBefore_self (a : ConversationRecord) : ¬h.WrittenBefore a a := by
  rintro ⟨u, hu, v, hv, hlt⟩
  obtain rfl := Option.some.inj (hu.symm.trans hv)
  exact lt_irrefl _ hlt

theorem listsInOrder_iff : h.ListsInOrder p ↔
    ∀ a ∈ h.store.conversations.rows.filter p, ∀ b ∈ h.store.conversations.rows.filter p,
      h.WrittenBefore a b → a.newer b = false := by
  have htrans : ∀ a b c : ConversationRecord, a.newer b = true → b.newer c = true →
      a.newer c = true := fun _ _ _ => ViewRow.newer_trans _ _ _
  have htotal : ∀ a b : ConversationRecord, (a.newer b || b.newer a) = true := fun _ _ =>
    ViewRow.newer_total _ _
  exact forall_sorted_iff htrans htotal not_writtenBefore_self

/-- A selected row that was written before another may be sorted before it. -/
def hasSwapped (h : Ledger) (p : ConversationRecord → Bool) : Bool :=
  (h.store.conversations.rows.filter p).any fun a =>
    (h.store.conversations.rows.filter p).any fun b =>
      (h.last a.conversationId).any fun u => (h.last b.conversationId).any fun v =>
        decide (u.position < v.position) && a.newer b

theorem not_listsInOrder (hswapped : h.hasSwapped p = true) : ¬h.ListsInOrder p := by
  intro hlists
  obtain ⟨a, ha, hswapped⟩ := List.any_eq_true.mp hswapped
  obtain ⟨b, hb, hswapped⟩ := List.any_eq_true.mp hswapped
  obtain ⟨u, hu, hswapped⟩ := (Option.any_eq_true _ _).mp hswapped
  obtain ⟨v, hv, hswapped⟩ := (Option.any_eq_true _ _).mp hswapped
  obtain ⟨hlt, hnewer⟩ := Bool.and_eq_true_iff.mp hswapped
  have hbefore : h.WrittenBefore a b := ⟨u, hu, v, hv, of_decide_eq_true hlt⟩
  rw [listsInOrder_iff.mp hlists a ha b hb hbefore] at hnewer
  cases hnewer

/-! ### Cutoffs -/

/-- A row that was written after the cutoff is not selected. -/
theorem not_selects {options : ForgeForgetOptions} {now : DateTime} {secs : ℤ}
    {r : ConversationRecord} {form : TimeForm} {t : DateTime}
    (hsecs : options.olderThanSecs = some secs)
    (hcutoff : CutoffFormatted (now.timestamp - secs)) (hr : r.updatedAt = form.stamp t)
    (ht : t.Formatted) (hafter : (now.timestamp - secs) * 1000000000 ≤ t.nanos) :
    options.selects now r = false := by
  rw [ForgeForgetOptions.selects, hsecs, Option.all_some, Bool.and_eq_false_iff]
  right
  rw [hr]
  cases hunix : Libraries.unixEpoch (now.timestamp - secs) with
  | none => cases form <;> rfl
  | some text =>
    obtain ⟨hnaive, hstrftime⟩ := ht.not_lt_cutoff hcutoff hunix hafter
    cases form with
    | blank => rfl
    | naive => exact decide_eq_false hnaive
    | strftime => exact decide_eq_false hstrftime

theorem Recorded.forgetsOlderOnly {options : ForgeForgetOptions} {now : DateTime} {secs : ℤ}
    (hrecorded : h.Recorded) (hsecs : options.olderThanSecs = some secs)
    (hcutoff : CutoffFormatted (now.timestamp - secs)) : h.ForgetsOlderOnly options now secs := by
  intro report s' hs' r hr u hu hafter
  rcases Store.forgetConversations_ok hs' with rfl | rfl
  · exact hr
  · obtain ⟨v, hv, hstamp, hformatted⟩ := hrecorded r hr
    obtain rfl := Option.some.inj (hu.symm.trans hv)
    exact Table.mem_delete.mpr ⟨hr, not_selects hsecs hcutoff hstamp hformatted hafter⟩

/-! ### Runs -/

/-- In every run of writes by the repository and the daemon, sorted rows are listed in the order of
their last writes and no row is forgotten that was written after the cutoff, if and only if of any
two selected rows the later write leaves the greater text. -/
theorem run_listsInOrder_iff (legacy : List ConversationRecord) (ops : List (Op × DateTime))
    (p : ConversationRecord → Bool) (options : ForgeForgetOptions) (now : DateTime) (secs : ℤ)
    (hops : ∀ a ∈ ops, a.2.Formatted) (hsecs : options.olderThanSecs = some secs)
    (hcutoff : CutoffFormatted (now.timestamp - secs)) :
    ((run step (initial legacy) ops).ListsInOrder p ∧
      (run step (initial legacy) ops).ForgetsOlderOnly options now secs) ↔
    ∀ a ∈ (run step (initial legacy) ops).store.conversations.rows.filter p,
      ∀ b ∈ (run step (initial legacy) ops).store.conversations.rows.filter p,
      ∀ u ∈ (run step (initial legacy) ops).last a.conversationId,
      ∀ v ∈ (run step (initial legacy) ops).last b.conversationId,
        u.position < v.position → u.Precedes v := by
  have hrecorded := run_recorded legacy hops
  generalize run step (initial legacy) ops = h at hrecorded
  have hrows : ∀ a ∈ h.store.conversations.rows.filter p,
      ∀ u ∈ h.last a.conversationId, a.updatedAt = u.form.stamp u.time ∧ u.time.Formatted := by
    intro a ha u hu
    obtain ⟨v, hv, hstamp⟩ := hrecorded a (List.mem_filter.mp ha).1
    obtain rfl := Option.some.inj (hu.symm.trans hv)
    exact hstamp
  rw [listsInOrder_iff, and_iff_left (hrecorded.forgetsOlderOnly hsecs hcutoff)]
  constructor
  · intro hlists a ha b hb u hu v hv hlt
    obtain ⟨hstamp, hformatted⟩ := hrows a ha u hu
    obtain ⟨hstamp', hformatted'⟩ := hrows b hb v hv
    rw [precedes_iff hstamp hstamp' hformatted hformatted']
    exact hlists a ha b hb ⟨u, hu, v, hv, hlt⟩
  · rintro hprecedes a ha b hb ⟨u, hu, v, hv, hlt⟩
    obtain ⟨hstamp, hformatted⟩ := hrows a ha u hu
    obtain ⟨hstamp', hformatted'⟩ := hrows b hb v hv
    rw [← precedes_iff hstamp hstamp' hformatted hformatted']
    exact hprecedes a ha b hb u hu v hv hlt

end Ledger

end HeliosLite

namespace HeliosLite.Greeting

open Theory

/-- A second conversation with the greeting. -/
def other : Conversation := { saying "hi" with id := ⟨2⟩ }

section Epoch

attribute [local instance] reference

theorem formatted_epoch : DateTime.epoch.Formatted := by
  have hday : date DateTime.epoch.day = .newYear 1970 := date_daysBefore 1970
  constructor
  · rw [DateTime.naiveText, hday]
    decide +kernel
  · rw [DateTime.strftimeText, hday]
    decide +kernel

theorem cutoffFormatted_epoch : CutoffFormatted 0 := by
  intro text htext
  have hday : date ((0 : ℤ) / 86400 + 719528).toNat = .newYear 1970 := date_daysBefore 1970
  obtain rfl : "1970-01-01 00:00:00" = text := Option.some.inj htext
  refine Or.inl ⟨by decide, by decide, ?_⟩
  rw [cutoffText, hday]
  decide +kernel

/-- The repository writes one conversation, then the daemon the other. -/
def inOrder : List (Op × DateTime) :=
  atEpoch [.upsertConversation wid (saying "hi"),
    .daemon (.mutationV2 wid.column (.upsertConversation other))]

def older : ForgeForgetOptions :=
  { ids := [], source := none, olderThanSecs := some 0, dryRun := false }

theorem run_inOrder :
    (run Ledger.step (.initial []) inOrder).ListsInOrder (fun _ => true) ∧
      (run Ledger.step (.initial []) inOrder).ForgetsOlderOnly older .epoch 0 := by
  apply (Ledger.run_listsInOrder_iff [] inOrder (fun _ => true) older .epoch 0 _ rfl
    cutoffFormatted_epoch).mpr
  · decide +kernel
  · intro a ha
    obtain ⟨op, -, rfl⟩ := List.mem_map.mp ha
    exact formatted_epoch

end Epoch

section Later

/-- One second after the epoch. -/
def second : DateTime := { nanos := 1000000000, lower := by decide, upper := by decide }

def secondTexts : List String := ["1970-01-01 00:00:01", "1970-01-01T00:00:01.000Z"]

def parseTime (text : String) : Option DateTime :=
  if text ∈ secondTexts then some second else Reference.parseTime Reference.epochTexts text

theorem parseTime_timeText {epoch : String} (h : epoch ∈ Reference.epochTexts) (t : DateTime) :
    parseTime (Reference.timeText epoch t) = some t := by
  have hnot : Reference.timeText epoch t ∉ secondTexts := by
    have hepochs : ∀ text ∈ Reference.epochTexts, text ∉ secondTexts := by decide
    have hdigits : ∀ text ∈ secondTexts, text.toList.all Char.isDigit = false := by decide
    rw [Reference.timeText]
    split_ifs
    · exact hepochs epoch h
    · intro hmem
      have hfalse := hdigits _ hmem
      rw [String.toList_ofList] at hfalse
      have hall : (Nat.toDigits 10 (Reference.ticks t)).all Char.isDigit = true :=
        List.all_eq_true.mpr fun c hc => Nat.isDigit_of_mem_toDigits (by decide) (by decide) hc
      rw [hall] at hfalse
      cases hfalse
  rw [parseTime, if_neg hnot, Reference.parseTime_epochTexts h]

/-- The reference libraries, with both formats of the first second after the epoch. -/
abbrev timed : Libraries :=
  { reference with
    sqlTime := fun t =>
      if t = second then "1970-01-01 00:00:01" else reference.sqlTime t
    strftimeNow := fun t =>
      if t.floorMillis = second then "1970-01-01T00:00:01.000Z" else reference.strftimeNow t
    parseSqlTime := parseTime
    parseSqlTime_sqlTime := fun t => by
      split_ifs with h
      · rw [h, parseTime, if_pos (by decide)]
      · exact parseTime_timeText (by decide) t
    parseSqlTime_jsonTime := parseTime_timeText (by decide)
    parseSqlTime_strftimeNow := fun t => by
      split_ifs with h
      · rw [h, parseTime, if_pos (by decide)]
      · exact parseTime_timeText (by decide) _ }

attribute [local instance] timed

theorem formatted_timed : DateTime.epoch.Formatted ∧ second.Formatted := by
  have hepoch : date DateTime.epoch.day = .newYear 1970 := date_daysBefore 1970
  have hsecond : date second.day = .newYear 1970 := date_daysBefore 1970
  refine ⟨⟨?_, ?_⟩, ?_, ?_⟩
  · rw [DateTime.naiveText, hepoch]
    decide +kernel
  · rw [DateTime.strftimeText, hepoch]
    decide +kernel
  · rw [DateTime.naiveText, hsecond]
    decide +kernel
  · rw [DateTime.strftimeText, hsecond]
    decide +kernel

/-- The daemon writes one conversation, then the repository the other, a second later. -/
def outOfOrder : List (Op × DateTime) :=
  [(.daemon (.mutationV2 wid.column (.upsertConversation (saying "hi"))), .epoch),
    (.upsertConversation wid other, second)]

/-- The conversation that was written first is listed as the newest. -/
theorem run_lists_out_of_order : (∀ a ∈ outOfOrder, a.2.Formatted) ∧
    ¬(run Ledger.step (.initial []) outOfOrder).ListsInOrder fun _ => true := by
  constructor
  · intro a ha
    rcases List.mem_cons.mp ha with rfl | ha
    · exact formatted_timed.1
    · rw [List.mem_singleton.mp ha]
      exact formatted_timed.2
  · apply Ledger.not_listsInOrder
    decide +kernel

end Later

end HeliosLite.Greeting
