import HeliosLite.Storage.ReadSelection

/-!
# When the reads are exact

The condition of each read, for every content of the two tables: which of the rows that match
its limit reaches, in the order in which it sorts them.

## Main definitions

* `parents`, `ftsLocalMatches`, `ftsLegacyMatches`, `likeMatches` — the rows that match
* `mergedLikeRows` — the hits that a search by text sorts
* `SearchSafe` — the condition of a search

## Main results

* `getAll_reads_iff`, `getLast_reads_iff`, `getParent_reads_iff`, `getBySource_reads_iff`,
  `getByCwd_reads_iff`, `search_reads_iff` — each read
* `summarizes_iff` — the list of summaries
* `reads_iff` — all reads
* `Greeting.reads_legacy` — a legacy row that is newer than the local one
-/

namespace HeliosLite

open Theory

variable [Libraries]

/-! ### Queries -/

section Queries

variable {sql : Sqlite} {s : Store} {wid : WorkspaceHash} {rows : List ViewRow}

theorem FromView.orderBy (h : FromView s rows) (le : ViewRow → ViewRow → Bool) :
    FromView s (sql.orderBy le rows) := h.perm (sql.orderBy_perm le rows)

theorem FromView.filter (h : FromView s rows) (p : ViewRow → Bool) : FromView s (rows.filter p) :=
  h.sublist List.filter_sublist

theorem Store.fromView_visible (s : Store) (wid : WorkspaceHash) : FromView s (s.visible wid) :=
  s.fromView_view.filter _

/-- The order in which the rows that match are listed says nothing about the read. -/
theorem exact_perm_iff {readable matching matching' : List ViewRow} {limit : Option ℕ}
    (h : matching.Perm matching') :
    Exact readable matching limit rows ↔ Exact readable matching' limit rows := by
  have hcount : distinct ViewRow.id matching = distinct ViewRow.id matching' := distinct_perm h
  constructor
  · intro hexact
    exact ⟨fun r hr => h.subset (hexact.subset r hr), hexact.once, hexact.localRow,
      hcount ▸ hexact.count⟩
  · intro hexact
    exact ⟨fun r hr => h.symm.subset (hexact.subset r hr), hexact.once, hexact.localRow,
      hcount ▸ hexact.count⟩

/-- The rows of a read are loaded once they are selected. -/
theorem reads_iff_selected {β : Type} {readable matching : List ViewRow} {limit : Option ℕ}
    {selected : Except String (List ViewRow)} {read : Except String β}
    {shown : List Conversation → β}
    (hread : read = selected >>= fun rs => (load rs).map shown) :
    Reads readable matching limit selected read shown ↔
      ∃ rs, selected = .ok rs ∧ Exact readable matching limit rs ∧ ∀ r ∈ rs, r.Loads := by
  constructor
  · rintro ⟨rs, conversations, hrows, hload, -, hexact⟩
    exact ⟨rs, hrows, hexact, load_ok_iff.mp ⟨conversations, hload⟩⟩
  · rintro ⟨rs, hrows, hexact, hloads⟩
    obtain ⟨conversations, hload⟩ := load_ok_iff.mpr hloads
    refine ⟨rs, conversations, hrows, hload, ?_, hexact⟩
    rw [hread, hrows]
    exact congrArg (Except.map shown) hload

/-- A read that always selects some rows. -/
theorem reads_ok_iff {β : Type} {readable matching : List ViewRow} {limit : Option ℕ}
    {read : Except String β} {shown : List Conversation → β}
    (hread : read = (load rows).map shown) :
    Reads readable matching limit (.ok rows) read shown ↔
      Exact readable matching limit rows ∧ ∀ r ∈ rows, r.Loads := by
  rw [reads_iff_selected hread]
  simp

/-- A query that drops nothing. -/
theorem exact_query_iff {readable query matching : List ViewRow} (limit : Option ℕ)
    (hreadable : FromView s readable) (hmatching : matching.Sublist readable)
    (hperm : query.Perm matching) :
    Exact readable matching limit (atMost limit query) ↔
      Unrepeated readable (atMost limit query) := by
  rw [← exact_perm_iff hperm]
  exact exact_atMost_iff limit hreadable ((hreadable.sublist hmatching).perm hperm) fun r hr =>
    hmatching.subset (hperm.subset hr)

/-- A query of which ids that were seen are dropped. -/
theorem exact_distinct_iff {readable query matching : List ViewRow} (limit : Option ℕ)
    (hreadable : FromView s readable) (hmatching : matching.Sublist readable)
    (hperm : query.Perm matching) :
    Exact readable matching limit (firstSeen ViewRow.id [] (atMost limit query)) ↔
      LocalFirst readable (atMost limit query) ∧ Reaches limit query := by
  rw [← exact_perm_iff hperm]
  exact exact_firstSeen_iff limit hreadable fun r hr => hmatching.subset (hperm.subset hr)

/-! ### Lists -/

variable {limit : Option ℕ}

theorem getAll_reads_iff :
    Reads (s.visible wid) (s.visible wid) limit (.ok (getAllRows sql s wid limit))
        (getAllConversations sql s wid limit) nonEmptyList ↔
      (LocalFirst (s.visible wid) (atMost limit (allQuery sql s wid)) ∧
        Reaches limit (allQuery sql s wid)) ∧ ∀ r ∈ getAllRows sql s wid limit, r.Loads := by
  have hexact := exact_distinct_iff limit (s.fromView_visible wid)
    (List.Sublist.refl _) (sql.orderBy_perm ViewRow.newer (s.visible wid))
  apply (reads_ok_iff rfl).trans
  exact and_congr_left' hexact

theorem getLast_reads_iff :
    Reads (s.visible wid) (s.visible wid) (some 1) (.ok (getLastRows sql s wid))
        (getLastConversation sql s wid) List.head? ↔
      Unrepeated (s.visible wid) (getLastRows sql s wid) ∧
        ∀ r ∈ getLastRows sql s wid, r.Loads := by
  have hexact := exact_query_iff (some 1) (s.fromView_visible wid)
    (List.Sublist.refl _) (sql.orderBy_perm ViewRow.newer (s.visible wid))
  have hread : getLastConversation sql s wid =
      (load (getLastRows sql s wid)).map List.head? := by
    rw [getLastConversation]
    have hlength : (getLastRows sql s wid).length ≤ 1 := by
      rw [getLastRows, length_atMost]
      exact min_le_left 1 _
    generalize getLastRows sql s wid = rows at hlength
    match rows with
    | [] => rfl
    | [r] =>
      simp only [load, List.mapM_cons, List.mapM_nil]
      cases r.record.tryInto <;> rfl
    | _ :: _ :: _ => simp at hlength
  apply (reads_ok_iff hread).trans
  exact and_congr_left' hexact

/-- The rows without a parent that no agent started. -/
def parents (sql : Sqlite) (rows : List ViewRow) : List ViewRow :=
  (rows.filter fun r => r.record.parentId.isNone).filter (isUserStarted sql)

theorem parents_sublist : (parents sql rows).Sublist rows :=
  List.filter_sublist.trans List.filter_sublist

theorem topLevel_ok_iff {tops : List ViewRow} : topLevel sql rows = .ok tops ↔
    (∀ r ∈ rows, r.record.parentId = none → malformed sql r = false) ∧ tops = parents sql rows := by
  simp only [topLevel]
  split_ifs with h
  · refine iff_of_false (by simp) ?_
    rintro ⟨hwell, -⟩
    obtain ⟨r, hr, hbad⟩ := List.any_eq_true.mp h
    obtain ⟨hr, hparent⟩ := List.mem_filter.mp hr
    rw [hwell r hr (by simpa using hparent)] at hbad
    cases hbad
  · have hwell : ∀ r ∈ rows, r.record.parentId = none → malformed sql r = false := by
      simpa [List.any_filter] using h
    simp only [Except.ok.injEq, parents]
    exact ⟨fun heq => ⟨hwell, heq.symm⟩, fun heq => heq.2.symm⟩

/-- What a list of parents makes of the rows that it finds, unless a context is malformed. -/
theorem topLevel_map_iff {f : List ViewRow → List ViewRow} {selected : List ViewRow} :
    (topLevel sql rows).map f = .ok selected ↔
      (∀ r ∈ rows, r.record.parentId = none → malformed sql r = false) ∧
        selected = f (parents sql rows) := by
  constructor
  · intro h
    cases htop : topLevel sql rows with
    | error e => rw [htop] at h; cases h
    | ok tops =>
      obtain ⟨hwell, rfl⟩ := topLevel_ok_iff.mp htop
      rw [htop] at h
      exact ⟨hwell, (Except.ok.inj h).symm⟩
  · rintro ⟨hwell, rfl⟩
    rw [topLevel_ok_iff.mpr ⟨hwell, rfl⟩]
    rfl

/-- The parents of the workspace in the order of the list. -/
def sortedParents (sql : Sqlite) (s : Store) (wid : WorkspaceHash) : List ViewRow :=
  sql.orderBy ViewRow.localThenNewer (parents sql (s.visible wid))

theorem getParentRows_ok_iff {selected : List ViewRow} :
    getParentRows sql s wid limit = .ok selected ↔
      (∀ r ∈ s.visible wid, r.record.parentId = none → malformed sql r = false) ∧
        selected = firstSeen ViewRow.id [] (atMost limit (sortedParents sql s wid)) := by
  have hmap : getParentRows sql s wid limit = (topLevel sql (s.visible wid)).map fun rows =>
      firstSeen ViewRow.id [] (atMost limit (sql.orderBy ViewRow.localThenNewer rows)) := by
    rw [getParentRows, parentQuery]
    cases topLevel sql (s.visible wid) <;> rfl
  rw [hmap, topLevel_map_iff, sortedParents]

/-- Local rows come first, so that it is enough that a local row is itself a parent. -/
theorem getParent_reads_iff :
    Reads (s.visible wid) (parents sql (s.visible wid)) limit (getParentRows sql s wid limit)
        (getParentConversations sql s wid limit) nonEmptyList ↔
      (∀ r ∈ s.visible wid, r.record.parentId = none → malformed sql r = false) ∧
        ((∀ r ∈ atMost limit (sortedParents sql s wid), r.Shadowed (s.visible wid) →
          ∃ l ∈ sortedParents sql s wid, l.legacySource = false ∧ l.id = r.id) ∧
          Reaches limit (sortedParents sql s wid)) ∧
        ∀ r ∈ firstSeen ViewRow.id [] (atMost limit (sortedParents sql s wid)), r.Loads := by
  have hread : getParentConversations sql s wid limit = getParentRows sql s wid limit >>=
      fun rows => (load rows).map nonEmptyList := rfl
  have hperm : (sortedParents sql s wid).Perm (parents sql (s.visible wid)) :=
    sql.orderBy_perm _ _
  have hexact := exact_firstSeen_local_iff limit (s.fromView_visible wid)
    (fun r hr => parents_sublist.subset (hperm.subset hr))
    (sql.orderBy_pairwise _ (parents sql (s.visible wid)) ViewRow.localThenNewer_trans
      ViewRow.localThenNewer_total)
  rw [exact_perm_iff hperm] at hexact
  rw [reads_iff_selected hread]
  simp only [getParentRows_ok_iff, and_assoc, exists_and_left, exists_eq_left]
  rw [hexact, and_assoc]

/-- The rows that a list of summaries sees. -/
def liteReadable (s : Store) (wid : WorkspaceHash) (allWorkspaces : Bool) : List ViewRow :=
  s.view.filter (liteVisible wid allWorkspaces)

/-- The parents that a list of summaries sees, in its order. -/
def sortedLiteParents (sql : Sqlite) (s : Store) (wid : WorkspaceHash) (allWorkspaces : Bool) :
    List ViewRow :=
  sql.orderBy ViewRow.newer ((parents sql s.view).filter (liteVisible wid allWorkspaces))

theorem getParentLiteRows_ok_iff {allWorkspaces : Bool} {selected : List ViewRow} :
    getParentLiteRows sql s wid limit allWorkspaces = .ok selected ↔
      (∀ r ∈ s.view, r.record.parentId = none → malformed sql r = false) ∧
        selected = atMost limit (sortedLiteParents sql s wid allWorkspaces) := by
  have hmap : getParentLiteRows sql s wid limit allWorkspaces =
      (topLevel sql s.view).map fun rows => atMost limit
        (sql.orderBy ViewRow.newer (rows.filter (liteVisible wid allWorkspaces))) := by
    rw [getParentLiteRows, parentLiteQuery]
    cases topLevel sql s.view <;> rfl
  rw [hmap, topLevel_map_iff, sortedLiteParents]

/-- The list shows the rows that it should, without loading their conversations. -/
def Summarizes (sql : Sqlite) (s : Store) (wid : WorkspaceHash) (limit : Option ℕ)
    (allWorkspaces : Bool) : Prop :=
  ∃ rows, getParentLiteRows sql s wid limit allWorkspaces = .ok rows ∧
    (∀ generate, getParentConversationsLite sql s wid limit allWorkspaces generate =
      .ok (nonEmptyList (rows.mapIdx fun i r => ConversationSummary.from (generate i) r.record))) ∧
    Exact (liteReadable s wid allWorkspaces) (parents sql (liteReadable s wid allWorkspaces)) limit
      rows

theorem summarizes_iff {allWorkspaces : Bool} :
    Summarizes sql s wid limit allWorkspaces ↔
      (∀ r ∈ s.view, r.record.parentId = none → malformed sql r = false) ∧
        Unrepeated (liteReadable s wid allWorkspaces)
          (atMost limit (sortedLiteParents sql s wid allWorkspaces)) := by
  have hfilter : (parents sql s.view).filter (liteVisible wid allWorkspaces) =
      parents sql (liteReadable s wid allWorkspaces) := by
    simp only [parents, liteReadable, List.filter_filter]
    congr 1
    funext r
    cases liteVisible wid allWorkspaces r <;> simp
  have hperm : (sortedLiteParents sql s wid allWorkspaces).Perm
      (parents sql (liteReadable s wid allWorkspaces)) := by
    rw [← hfilter]
    exact sql.orderBy_perm _ _
  have hreadable : FromView s (liteReadable s wid allWorkspaces) := s.fromView_view.filter _
  rw [← exact_query_iff limit hreadable parents_sublist hperm]
  constructor
  · rintro ⟨rows, hrows, -, hexact⟩
    obtain ⟨hwell, rfl⟩ := getParentLiteRows_ok_iff.mp hrows
    exact ⟨hwell, hexact⟩
  · rintro ⟨hwell, hexact⟩
    have hrows : getParentLiteRows sql s wid limit allWorkspaces =
        .ok (atMost limit (sortedLiteParents sql s wid allWorkspaces)) :=
      getParentLiteRows_ok_iff.mpr ⟨hwell, rfl⟩
    refine ⟨_, hrows, ?_, hexact⟩
    intro generate
    rw [getParentConversationsLite, hrows]
    rfl

theorem getBySource_reads_iff {source : String} :
    Reads (s.visible wid) ((s.visible wid).filter fun r => r.record.source == some source) limit
        (.ok (getRowsBySource sql s wid source limit))
        (getConversationsBySource sql s wid source limit) nonEmptyList ↔
      Unrepeated (s.visible wid) (atMost limit (sourceQuery sql s wid source)) ∧
        ∀ r ∈ atMost limit (sourceQuery sql s wid source), r.Loads := by
  have hexact := exact_query_iff limit (s.fromView_visible wid) List.filter_sublist
    (sql.orderBy_perm ViewRow.newer
      ((s.visible wid).filter fun r => r.record.source == some source))
  apply (reads_ok_iff rfl).trans
  exact and_congr_left' hexact

theorem getByCwd_reads_iff {cwd : String} :
    Reads (s.visible wid) ((s.visible wid).filter fun r => r.record.cwd == some cwd) limit
        (.ok (getRowsByCwd sql s wid cwd limit))
        (getConversationsByCwd sql s wid cwd limit) nonEmptyList ↔
      Unrepeated (s.visible wid) (atMost limit (cwdQuery sql s wid cwd)) ∧
        ∀ r ∈ atMost limit (cwdQuery sql s wid cwd), r.Loads := by
  have hexact := exact_query_iff limit (s.fromView_visible wid) List.filter_sublist
    (sql.orderBy_perm ViewRow.newer ((s.visible wid).filter fun r => r.record.cwd == some cwd))
  apply (reads_ok_iff rfl).trans
  exact and_congr_left' hexact

/-! ### Searches -/

variable {query : String}

/-- The hits of the full-text index, if the query is well formed. -/
def ftsHits (sql : Sqlite) (s : Store) (query : String) : List ConversationRecord :=
  (sql.ftsMatch s query).toOption.getD []

/-- The local rows that a full-text search matches. -/
def ftsLocalMatches (sql : Sqlite) (s : Store) (wid : WorkspaceHash) (query : String) :
    List ViewRow := ftsLocal wid (ftsHits sql s query)

/-- The legacy rows that a full-text search matches. -/
def ftsLegacyMatches (sql : Sqlite) (s : Store) (wid : WorkspaceHash) (query : String) :
    List ViewRow :=
  (legacyCandidates sql s wid).filter (found fun r => sql.legacyFtsMatch r.record query)

/-- The rows of one source that a search by text matches. -/
def likeMatches (sql : Sqlite) (s : Store) (wid : WorkspaceHash) (legacy : Bool)
    (query : String) : List ViewRow :=
  (likeCandidates sql s wid legacy query).filter fun r => likeHit sql query r.record

/-- The hits of a search by text, the latest first. -/
def mergedLikeRows (sql : Sqlite) (s : Store) (wid : WorkspaceHash) (query : String)
    (limit : Option ℕ) : List ViewRow :=
  (mergeSearchRows (atMost limit (likeMatches sql s wid false query))
    (atMost limit (firstSeen ViewRow.id [] (likeMatches sql s wid true query))) none).mergeSort
      ViewRow.laterThenId

/-- The rows that a search matches: a blank query matches none. -/
def searchMatches (sql : Sqlite) (s : Store) (wid : WorkspaceHash) (query : String)
    (limit : Option ℕ) : List ViewRow :=
  if Store.isBlankText query then []
  else
    match searchConversationsFts sql s wid query limit with
    | .ok _ => ftsLocalMatches sql s wid query ++ ftsLegacyMatches sql s wid query
    | .error _ => likeMatches sql s wid false query ++ likeMatches sql s wid true query

theorem ftsLocalMatches_local : ∀ r ∈ ftsLocalMatches sql s wid query,
    r ∈ s.visible wid ∧ r.legacySource = false := by
  intro r hr
  obtain ⟨record, hrecord, rfl⟩ := List.mem_map.mp hr
  obtain ⟨hhit, hscope⟩ := List.mem_filter.mp hrecord
  refine ⟨List.mem_filter.mpr ⟨List.mem_append_left _ (List.mem_map_of_mem ?_), ?_⟩, rfl⟩
  · unfold ftsHits at hhit
    cases hmatch : sql.ftsMatch s query with
    | error e => simp [hmatch, Except.toOption] at hhit
    | ok hits =>
      simp only [hmatch, Except.toOption, Option.getD_some] at hhit
      exact (sql.ftsMatch_subperm s query hits hmatch).subset hhit
  · simp [ViewRow.isVisible, hscope]

theorem ftsLocalMatches_nodup : ((ftsLocalMatches sql s wid query).map ViewRow.id).Nodup := by
  have hids : (ftsLocalMatches sql s wid query).map ViewRow.id =
      ((ftsHits sql s query).filter fun r => r.workspaceId == some wid.column).map
        (·.conversationId) := by
    rw [ftsLocalMatches, ftsLocal, List.map_map]
    rfl
  have hhits : ((ftsHits sql s query).map (·.conversationId)).Nodup := by
    unfold ftsHits
    cases hmatch : sql.ftsMatch s query with
    | error e => exact List.nodup_nil
    | ok hits =>
      obtain ⟨records, hperm, hsub⟩ := sql.ftsMatch_subperm s query hits hmatch
      exact (hperm.map _).nodup_iff.mp (s.conversations.nodup.sublist (hsub.map _))
  rw [hids]
  exact hhits.sublist (List.filter_sublist.map _)

theorem ftsLegacyMatches_visible : ∀ r ∈ ftsLegacyMatches sql s wid query, r ∈ s.visible wid := by
  intro r hr
  have hcandidate := (sql.orderBy_perm _ _).subset (List.mem_filter.mp hr).1
  exact (List.mem_filter.mp hcandidate).1

theorem likeMatches_visible {legacy : Bool} : ∀ r ∈ likeMatches sql s wid legacy query,
    r ∈ s.visible wid ∧ r.legacySource = legacy := by
  intro r hr
  have hcandidate := (sql.orderBy_perm _ _).subset (List.mem_filter.mp hr).1
  obtain ⟨hvisible, hsource⟩ := List.mem_filter.mp hcandidate
  rw [Bool.and_eq_true, beq_iff_eq] at hsource
  exact ⟨hvisible, hsource.1⟩

theorem likeMatches_nodup : ((likeMatches sql s wid false query).map ViewRow.id).Nodup := by
  have hview : FromView s (likeMatches sql s wid false query) :=
    (((s.fromView_visible wid).filter _).orderBy _).filter _
  have hlocal : (likeMatches sql s wid false query).filter (fun r => !r.legacySource) =
      likeMatches sql s wid false query := by
    apply List.filter_eq_self.mpr
    intro r hr
    rw [(likeMatches_visible r hr).2]
    rfl
  have honce := hview.localOnce
  rwa [hlocal] at honce

omit [Libraries] in
theorem not_zero_of_finds (h : findsNothing query limit = false) : limit ≠ some 0 := by
  rintro rfl
  simp [findsNothing] at h

/-- The legacy hits that a full-text search takes beside the local ones. -/
def ftsTaken (sql : Sqlite) (s : Store) (wid : WorkspaceHash) (query : String)
    (limit : Option ℕ) : List ViewRow :=
  let locals := atMost limit (ftsLocalMatches sql s wid query)
  legacyTaken limit locals (firstSeen ViewRow.id (locals.map ViewRow.id)
    (atMost limit (firstSeen ViewRow.id [] (ftsLegacyMatches sql s wid query))))

/-- The ids of the legacy hits of a search by text. -/
def likeLegacyIds (sql : Sqlite) (s : Store) (wid : WorkspaceHash) (query : String)
    (limit : Option ℕ) : List String :=
  (atMost limit (firstSeen ViewRow.id [] (likeMatches sql s wid true query))).map ViewRow.id

theorem ftsRows_ok (hfinds : findsNothing query limit = false)
    (h : ftsRows sql s wid query limit = .ok rows) :
    rows = mergeSearchRows (atMost limit (ftsLocalMatches sql s wid query))
      (atMost limit (firstSeen ViewRow.id [] (ftsLegacyMatches sql s wid query))) limit := by
  rw [ftsRows, hfinds] at h
  cases hmatch : sql.ftsMatch s query with
  | error e => rw [hmatch] at h; cases h
  | ok hits =>
    cases hlegacy : collectSearchRows (legacyCandidates sql s wid) limit
        fun r => sql.legacyFtsMatch r.record query with
    | error e => rw [hmatch, hlegacy] at h; cases h
    | ok legacy =>
      rw [hmatch, hlegacy] at h
      obtain rfl := Except.ok.inj h
      rw [collectSearchRows_ok hlegacy, ftsLocalMatches, ftsHits, hmatch]
      rfl

theorem likeRows_eq (hfinds : findsNothing query limit = false) :
    likeRows sql s wid query limit = .ok (reserveLegacy (likeLegacyIds sql s wid query limit) limit
      (mergedLikeRows sql s wid query limit)) := by
  have hcollect : ∀ legacy, collectLikeSource sql s wid legacy query limit =
      .ok (atMost limit (firstSeen ViewRow.id [] (likeMatches sql s wid legacy query))) := fun _ =>
    collectSearchRows_eq
  rw [likeRows, hfinds, hcollect, hcollect]
  rw [firstSeen_of_nodup (l := likeMatches sql s wid false query) likeMatches_nodup]
  rfl

/-- No legacy row that the search selects is shadowed, and the rows load. A row that does not
load makes a full-text search fail, and with it the search falls back to the texts. -/
def SearchSafe (sql : Sqlite) (s : Store) (wid : WorkspaceHash) (query : String)
    (limit : Option ℕ) : Prop :=
  findsNothing query limit = true ∨
    match searchConversationsFts sql s wid query limit with
    | .ok _ => ∀ r ∈ ftsTaken sql s wid query limit, ¬r.Shadowed (s.visible wid)
    | .error _ =>
      (∀ before r after, mergedLikeRows sql s wid query limit = before ++ r :: after →
        r.Shadowed (s.visible wid) → (∃ n ∈ limit, n ≤ before.length) ∧
          ∃ l ∈ before, l.id ∈ likeLegacyIds sql s wid query limit) ∧
      ∀ r ∈ reserveLegacy (likeLegacyIds sql s wid query limit) limit
        (mergedLikeRows sql s wid query limit), r.Loads

theorem searchConversations_eq : searchConversations sql s wid query limit =
    searchRows sql s wid query limit >>= fun rows => (load rows).map id := by
  have hid : (fun rows => (load rows).map id) = load := by
    funext rows
    cases load rows <;> rfl
  rw [hid, searchConversations, searchRows]
  cases hfts : searchConversationsFts sql s wid query limit with
  | error e => rfl
  | ok conversations => exact hfts.symm

/-- A search that looks for nothing. -/
theorem search_nothing_reads (h : findsNothing query limit = true) :
    Reads (s.visible wid) (searchMatches sql s wid query limit) limit
      (searchRows sql s wid query limit) (searchConversations sql s wid query limit) id := by
  have hfts : ftsRows sql s wid query limit = .ok [] := by
    rw [ftsRows, h]
    rfl
  have hrows : searchRows sql s wid query limit = .ok [] := by
    have hread : searchConversationsFts sql s wid query limit = .ok [] := by
      rw [searchConversationsFts, hfts]
      rfl
    rw [searchRows, hread]
    exact hfts
  refine (reads_iff_selected searchConversations_eq).mpr ⟨[], hrows, ⟨?_, ?_, ?_, ?_⟩, ?_⟩
  · simp
  · simp
  · simp
  · rw [findsNothing, Bool.or_eq_true] at h
    rcases h with hblank | hzero
    · rw [searchMatches, if_pos hblank]
      cases limit <;> simp [capped, distinct]
    · obtain rfl := beq_iff_eq.mp hzero
      simp [capped]
  · simp

theorem search_reads_iff :
    Reads (s.visible wid) (searchMatches sql s wid query limit) limit
        (searchRows sql s wid query limit) (searchConversations sql s wid query limit) id ↔
      SearchSafe sql s wid query limit := by
  cases hfinds : findsNothing query limit with
  | true => exact iff_of_true (search_nothing_reads hfinds) (Or.inl hfinds)
  | false =>
    have hlimit := not_zero_of_finds hfinds
    have hblank : ¬Store.isBlankText query = true := by
      intro hblank
      simp [findsNothing, hblank] at hfinds
    rw [reads_iff_selected searchConversations_eq, SearchSafe, searchMatches, if_neg hblank,
      hfinds, searchRows]
    cases hfts : searchConversationsFts sql s wid query limit with
    | ok conversations =>
      obtain ⟨rows, hrows, hload⟩ : ∃ rows, ftsRows sql s wid query limit = .ok rows ∧
          load rows = .ok conversations := by
        rw [searchConversationsFts] at hfts
        cases hrows : ftsRows sql s wid query limit with
        | error e => rw [hrows] at hfts; cases hfts
        | ok rows => exact ⟨rows, rfl, by rwa [hrows] at hfts⟩
      have hloads : ∀ r ∈ rows, r.Loads := load_ok_iff.mp ⟨conversations, hload⟩
      have hlocals : ∀ r ∈ ftsLocalMatches sql s wid query,
          r ∈ s.visible wid ∧ r.legacySource = false := ftsLocalMatches_local
      have hlegacy : ∀ r ∈ ftsLegacyMatches sql s wid query, r ∈ s.visible wid :=
        ftsLegacyMatches_visible
      have hexact := exact_merge_iff (s.fromView_visible wid) hlocals ftsLocalMatches_nodup
        hlegacy hlimit
      rw [← ftsRows_ok hfinds hrows] at hexact
      simp only [hrows, Except.ok.injEq, exists_eq_left', Bool.false_eq_true, false_or]
      rw [hexact]
      exact and_iff_left hloads
    | error e =>
      have hlocals : ∀ r ∈ likeMatches sql s wid false query,
          r ∈ s.visible wid ∧ r.legacySource = false := likeMatches_visible
      have hlegacy : ∀ r ∈ likeMatches sql s wid true query, r ∈ s.visible wid := fun r hr =>
        (likeMatches_visible r hr).1
      have hsorted : (mergedLikeRows sql s wid query limit).Perm
          (mergeSearchRows (atMost limit (likeMatches sql s wid false query))
            (atMost limit (firstSeen ViewRow.id [] (likeMatches sql s wid true query))) none) :=
        List.mergeSort_perm _ _
      have hexact := exact_reserve_iff (s.fromView_visible wid) hlocals likeMatches_nodup hlegacy
        hlimit hsorted rfl
      simp only [likeRows_eq hfinds, Except.ok.injEq, exists_eq_left', Bool.false_eq_true,
        false_or]
      exact and_congr_left' hexact

end Queries

/-! ### All reads -/

/-- Each read returns what it should if and only if its limit reaches no legacy row in the place
of a local one, and no row twice; the rows that it loads must load, and a context that is asked
for its initiator must be no malformed JSON. -/
theorem reads_iff (sql : Sqlite) (s : Store) (wid : WorkspaceHash) (limit : Option ℕ)
    (source cwd query : String) (allWorkspaces : Bool) :
    (Reads (s.visible wid) (s.visible wid) limit (.ok (getAllRows sql s wid limit))
        (getAllConversations sql s wid limit) nonEmptyList ↔
      (LocalFirst (s.visible wid) (atMost limit (allQuery sql s wid)) ∧
        Reaches limit (allQuery sql s wid)) ∧ ∀ r ∈ getAllRows sql s wid limit, r.Loads) ∧
    (Reads (s.visible wid) (s.visible wid) (some 1) (.ok (getLastRows sql s wid))
        (getLastConversation sql s wid) List.head? ↔
      Unrepeated (s.visible wid) (getLastRows sql s wid) ∧
        ∀ r ∈ getLastRows sql s wid, r.Loads) ∧
    (Reads (s.visible wid) (parents sql (s.visible wid)) limit (getParentRows sql s wid limit)
        (getParentConversations sql s wid limit) nonEmptyList ↔
      (∀ r ∈ s.visible wid, r.record.parentId = none → malformed sql r = false) ∧
        ((∀ r ∈ atMost limit (sortedParents sql s wid), r.Shadowed (s.visible wid) →
          ∃ l ∈ sortedParents sql s wid, l.legacySource = false ∧ l.id = r.id) ∧
          Reaches limit (sortedParents sql s wid)) ∧
        ∀ r ∈ firstSeen ViewRow.id [] (atMost limit (sortedParents sql s wid)), r.Loads) ∧
    (Summarizes sql s wid limit allWorkspaces ↔
      (∀ r ∈ s.view, r.record.parentId = none → malformed sql r = false) ∧
        Unrepeated (liteReadable s wid allWorkspaces)
          (atMost limit (sortedLiteParents sql s wid allWorkspaces))) ∧
    (Reads (s.visible wid) ((s.visible wid).filter fun r => r.record.source == some source) limit
        (.ok (getRowsBySource sql s wid source limit))
        (getConversationsBySource sql s wid source limit) nonEmptyList ↔
      Unrepeated (s.visible wid) (atMost limit (sourceQuery sql s wid source)) ∧
        ∀ r ∈ atMost limit (sourceQuery sql s wid source), r.Loads) ∧
    (Reads (s.visible wid) ((s.visible wid).filter fun r => r.record.cwd == some cwd) limit
        (.ok (getRowsByCwd sql s wid cwd limit))
        (getConversationsByCwd sql s wid cwd limit) nonEmptyList ↔
      Unrepeated (s.visible wid) (atMost limit (cwdQuery sql s wid cwd)) ∧
        ∀ r ∈ atMost limit (cwdQuery sql s wid cwd), r.Loads) ∧
    (Reads (s.visible wid) (searchMatches sql s wid query limit) limit
        (searchRows sql s wid query limit) (searchConversations sql s wid query limit) id ↔
      SearchSafe sql s wid query limit) :=
  ⟨getAll_reads_iff, getLast_reads_iff, getParent_reads_iff, summarizes_iff, getBySource_reads_iff,
    getByCwd_reads_iff, search_reads_iff⟩

end HeliosLite

namespace HeliosLite.Greeting

open Serde Theory

attribute [local instance] reference

/-- An engine that sorts, and that has no full-text index. -/
def engine : Sqlite where
  orderBy le rows := rows.insertionSort fun a b => le a b
  orderBy_perm le rows := List.perm_insertionSort _ rows
  orderBy_pairwise le rows htrans htotal := by
    have : IsTrans ViewRow fun a b => le a b = true := ⟨htrans⟩
    have : Std.Total fun a b : ViewRow => le a b = true := ⟨fun a b => by simpa using htotal a b⟩
    exact List.pairwise_insertionSort _ rows
  jsonInitiator text := (JsonText.fromText text).map fun
    | .obj fields =>
      match fields.lookup "initiator" with
      | some (.str initiator) => some initiator
      | _ => none
    | _ => none
  ftsMatch _ _ := .error "no such table: conversations_fts"
  ftsMatch_subperm _ _ _ h := by cases h
  legacyFtsMatch _ _ := .error "no such table: candidate"
  decodeLossy := String.fromUTF8?

/-- A time a little after the epoch. -/
def later : DateTime := { nanos := 5, lower := by decide, upper := by decide }

/-- The greeting was written to the legacy database after it was copied from there. -/
def forked : Store :=
  let s := run Store.step .empty (atEpoch [.upsertConversation wid (saying "hi")])
  { s with legacy := s.conversations.rows.map fun r => { r with updatedAt := some (.naive later) } }

/-- The legacy row of the greeting is returned in the place of the local one, and a list of
summaries has both. -/
theorem reads_legacy :
    ¬Reads (forked.visible wid) (forked.visible wid) none (.ok (getAllRows engine forked wid none))
      (getAllConversations engine forked wid none) nonEmptyList ∧
    ¬Summarizes engine forked wid none false := by
  constructor
  · rintro ⟨rows, -, hrows, -, -, hexact⟩
    obtain rfl := Except.ok.inj hrows
    have hreturned : (getAllRows engine forked wid none).any fun r =>
        r.legacySource && (forked.visible wid).any fun l => !l.legacySource && l.id == r.id := by
      decide +kernel
    obtain ⟨r, hr, hshadowed⟩ := List.any_eq_true.mp hreturned
    obtain ⟨hlegacy, hlocal⟩ := Bool.and_eq_true_iff.mp hshadowed
    obtain ⟨l, hl, hsame⟩ := List.any_eq_true.mp hlocal
    obtain ⟨hllocal, hid⟩ := Bool.and_eq_true_iff.mp hsame
    obtain rfl := hexact.localRow r hr l hl (by simpa using hllocal) (beq_iff_eq.mp hid)
    simp [hlegacy] at hllocal
  · rintro ⟨rows, hrows, -, hexact⟩
    have htwice : (getParentLiteRows engine forked wid none false).toOption.any fun rows =>
        !decide (rows.map ViewRow.id).Nodup := by decide +kernel
    rw [hrows] at htwice
    simp [Except.toOption, hexact.once] at htwice

end HeliosLite.Greeting
