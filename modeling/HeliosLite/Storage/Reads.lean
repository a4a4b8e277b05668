import HeliosLite.Storage.Store
import HeliosLite.Theory.FirstSeen

/-!
# Lists and searches

The reads that show several conversations. They go to a view that joins the local rows with
those of the attached legacy database, and each has its own filter, order, limit and way to
drop rows whose id it has seen.

## Main definitions

* `ViewRow`, `Store.view` — the rows of the view
* `Sqlite` — what the reads leave to the database engine
* `getAllRows`, `getParentRows`, `getParentLiteRows`, `getRowsBySource`, `getRowsByCwd` — the
  rows of the lists
* `ftsRows`, `likeRows`, `searchRows` — the rows of a search
* `getAllConversations`, …, `searchConversations` — the reads
-/

namespace HeliosLite

open Theory

variable [Libraries]

/-! ### The view -/

/-- A row of the view, with its source: the local table or the legacy database. -/
structure ViewRow where
  record : ConversationRecord
  legacySource : Bool
  deriving DecidableEq

namespace ViewRow

def id (r : ViewRow) : String := r.record.conversationId

/-- Legacy rows without a workspace are older than workspaces. -/
def legacyUnscoped (r : ViewRow) : Bool := r.legacySource && r.record.workspaceId.isNone

def isVisible (wid : WorkspaceHash) (r : ViewRow) : Bool :=
  r.record.workspaceId == some wid.column || r.legacyUnscoped

/-! ### Orders -/

/-- `updated_at DESC`: texts are compared, and a missing one comes last. -/
def newer (a b : ViewRow) : Bool :=
  match a.record.updatedAt, b.record.updatedAt with
  | _, none => true
  | none, some _ => false
  | some x, some y => y.text ≤ x.text

/-- `__forge_legacy_source ASC, updated_at DESC`. -/
def localThenNewer (a b : ViewRow) : Bool :=
  !a.legacySource && b.legacySource || a.legacySource == b.legacySource && a.newer b

/-- `updated_at DESC, conversation_id`. -/
def newerThenId (a b : ViewRow) : Bool :=
  a.newer b && (!b.newer a || decide (a.id ≤ b.id))

/-- The order of search results: the times themselves are compared. -/
def laterThenId (a b : ViewRow) : Bool :=
  match a.record.updatedAt, b.record.updatedAt with
  | none, none => a.id ≤ b.id
  | some _, none => true
  | none, some _ => false
  | some x, some y => y.time.nanos < x.time.nanos || y.time.nanos == x.time.nanos && a.id ≤ b.id

theorem newer_trans (a b c : ViewRow) (hab : a.newer b = true) (hbc : b.newer c = true) :
    a.newer c = true := by
  unfold newer at *
  cases hc : c.record.updatedAt with
  | none => simp
  | some z =>
    cases hb : b.record.updatedAt with
    | none => simp [hb, hc] at hbc
    | some y =>
      cases ha : a.record.updatedAt with
      | none => simp [ha, hb] at hab
      | some x =>
        simp only [ha, hb, hc, decide_eq_true_eq] at *
        exact hbc.trans hab

theorem newer_total (a b : ViewRow) : (a.newer b || b.newer a) = true := by
  unfold newer
  cases a.record.updatedAt with
  | none => simp
  | some x =>
    cases b.record.updatedAt with
    | none => simp
    | some y => simpa using le_total y.text x.text

theorem localThenNewer_trans (a b c : ViewRow) (hab : a.localThenNewer b = true)
    (hbc : b.localThenNewer c = true) : a.localThenNewer c = true := by
  have htrans := newer_trans a b c
  unfold localThenNewer at *
  cases ha : a.legacySource <;> cases hb : b.legacySource <;> cases hc : c.legacySource <;>
    simp_all

theorem localThenNewer_total (a b : ViewRow) :
    (a.localThenNewer b || b.localThenNewer a) = true := by
  have htotal := newer_total a b
  unfold localThenNewer
  cases ha : a.legacySource <;> cases hb : b.legacySource <;> simp_all

end ViewRow

/-- What the reads leave to the database engine. -/
structure Sqlite where
  /-- `ORDER BY`; the order of rows that compare equal is open. -/
  orderBy : (ViewRow → ViewRow → Bool) → List ViewRow → List ViewRow
  orderBy_perm : ∀ le rows, (orderBy le rows).Perm rows
  orderBy_pairwise : ∀ le rows, (∀ a b c, le a b = true → le b c = true → le a c = true) →
    (∀ a b, (le a b || le b a) = true) → (orderBy le rows).Pairwise fun a b => le a b = true
  /-- `json_extract(context, '$.initiator')` if it is a text; a malformed JSON is an error. -/
  jsonInitiator : String → Option (Option String)
  /-- The rows of the full-text index that match, best first, whatever their workspace. -/
  ftsMatch : Store → String → Except String (List ConversationRecord)
  ftsMatch_subperm : ∀ s query hits, ftsMatch s query = .ok hits →
    hits.Subperm s.conversations.rows
  /-- The match of one legacy row in an index of its own. -/
  legacyFtsMatch : ConversationRecord → String → Except String Bool
  /-- A compressed context as text, with whatever is not UTF-8 replaced. -/
  decodeLossy : ByteArray → Option String

namespace Store

/-- The view of local and legacy rows. -/
def view (s : Store) : List ViewRow :=
  s.conversations.rows.map (fun r => ⟨r, false⟩) ++ s.legacy.map fun r => ⟨r, true⟩

/-- The rows that a workspace sees. -/
def visible (s : Store) (wid : WorkspaceHash) : List ViewRow := s.view.filter (·.isVisible wid)

end Store

/-- The conversations of the rows; one that does not load fails them all. -/
def load (rows : List ViewRow) : Except String (List Conversation) :=
  rows.mapM fun r => r.record.tryInto

/-- An empty list is returned as none. -/
def nonEmptyList {α : Type*} (l : List α) : Option (List α) := if l.isEmpty then none else some l

section Reads

variable (sql : Sqlite) (s : Store) (wid : WorkspaceHash)

/-! ### Lists -/

/-- The rows of the workspace, the newest first. -/
def allQuery : List ViewRow := sql.orderBy ViewRow.newer (s.visible wid)

/-- The limit is applied before ids that were seen are dropped. -/
def getAllRows (limit : Option ℕ) : List ViewRow :=
  firstSeen ViewRow.id [] (atMost limit (allQuery sql s wid))

def getAllConversations (limit : Option ℕ) : Except String (Option (List Conversation)) :=
  (load (getAllRows sql s wid limit)).map nonEmptyList

def getLastRows : List ViewRow := atMost (some 1) (allQuery sql s wid)

def getLastConversation : Except String (Option Conversation) :=
  match getLastRows sql s wid with
  | r :: _ => r.record.tryInto.map some
  | [] => .ok none

/-- Whether `json_extract` fails on the context of the row. -/
def malformed (r : ViewRow) : Bool :=
  r.record.context.any fun context => (sql.jsonInitiator context).isNone

/-- `COALESCE(json_extract(context, '$.initiator'), 'user') <> 'agent'`. -/
def isUserStarted (r : ViewRow) : Bool :=
  ((r.record.context.bind sql.jsonInitiator).join.getD "user") != "agent"

/-- The rows without a parent that no agent started. The conditions are checked in the order
in which they are written. -/
def topLevel (rows : List ViewRow) : Except String (List ViewRow) :=
  let rows := rows.filter fun r => r.record.parentId.isNone
  if rows.any (malformed sql) then .error "malformed JSON"
  else .ok (rows.filter (isUserStarted sql))

def parentQuery : Except String (List ViewRow) :=
  (topLevel sql (s.visible wid)).map (sql.orderBy ViewRow.localThenNewer)

def getParentRows (limit : Option ℕ) : Except String (List ViewRow) :=
  (parentQuery sql s wid).map fun rows => firstSeen ViewRow.id [] (atMost limit rows)

def getParentConversations (limit : Option ℕ) : Except String (Option (List Conversation)) := do
  let rows ← getParentRows sql s wid limit
  (load rows).map nonEmptyList

/-- The rows that a lite read sees: those of the workspace, or all. -/
def liteVisible (allWorkspaces : Bool) (r : ViewRow) : Bool := allWorkspaces || r.isVisible wid

/-- The condition on the workspace is added last. -/
def parentLiteQuery (allWorkspaces : Bool) : Except String (List ViewRow) :=
  (topLevel sql s.view).map fun rows =>
    sql.orderBy ViewRow.newer (rows.filter (liteVisible wid allWorkspaces))

def getParentLiteRows (limit : Option ℕ) (allWorkspaces : Bool) : Except String (List ViewRow) :=
  (parentLiteQuery sql s wid allWorkspaces).map (atMost limit)

/-- What the picker shows of a conversation. -/
structure ConversationSummary where
  id : ConversationId
  title : Option String
  parentId : Option ConversationId
  createdAt : DateTime
  updatedAt : Option DateTime
  messageCount : Option Int32
  cwd : Option String
  deriving DecidableEq

/-- The summary of a row; an id that does not parse is replaced by a new one. -/
def ConversationSummary.from (generated : ConversationId) (r : ConversationRecord) :
    ConversationSummary :=
  { id := (ConversationId.parse r.conversationId).getD generated
    title := r.title
    parentId := r.parentId.bind ConversationId.parse
    createdAt := r.createdAt.time
    updatedAt := r.updatedAt.map (·.time)
    messageCount := r.messageCount
    cwd := r.cwd }

def getParentConversationsLite (limit : Option ℕ) (allWorkspaces : Bool)
    (generate : ℕ → ConversationId) : Except String (Option (List ConversationSummary)) :=
  (getParentLiteRows sql s wid limit allWorkspaces).map fun rows =>
    nonEmptyList (rows.mapIdx fun i r => ConversationSummary.from (generate i) r.record)

def sourceQuery (source : String) : List ViewRow :=
  sql.orderBy ViewRow.newer ((s.visible wid).filter fun r => r.record.source == some source)

def getRowsBySource (source : String) (limit : Option ℕ) : List ViewRow :=
  atMost limit (sourceQuery sql s wid source)

def getConversationsBySource (source : String) (limit : Option ℕ) :
    Except String (Option (List Conversation)) :=
  (load (getRowsBySource sql s wid source limit)).map nonEmptyList

def cwdQuery (cwd : String) : List ViewRow :=
  sql.orderBy ViewRow.newer ((s.visible wid).filter fun r => r.record.cwd == some cwd)

def getRowsByCwd (cwd : String) (limit : Option ℕ) : List ViewRow :=
  atMost limit (cwdQuery sql s wid cwd)

def getConversationsByCwd (cwd : String) (limit : Option ℕ) :
    Except String (Option (List Conversation)) :=
  (load (getRowsByCwd sql s wid cwd limit)).map nonEmptyList

/-! ### Searches -/

/-- Rows are examined in their order until there are enough hits with different ids. -/
def collectFrom (limit : Option ℕ) (hit : ViewRow → Except String Bool) :
    List String → ℕ → List ViewRow → Except String (List ViewRow)
  | _, _, [] => .ok []
  | seen, count, r :: rows =>
    if r.id ∈ seen then collectFrom limit hit seen count rows
    else do
      if ← hit r then
        if limit.any (· ≤ count + 1) then .ok [r]
        else
          let hits ← collectFrom limit hit (r.id :: seen) (count + 1) rows
          .ok (r :: hits)
      else
        collectFrom limit hit seen count rows

def collectSearchRows (rows : List ViewRow) (limit : Option ℕ)
    (hit : ViewRow → Except String Bool) : Except String (List ViewRow) :=
  if limit = some 0 then .ok [] else collectFrom limit hit [] 0 rows

/-- Local and legacy hits together, up to the limit. One place is kept for a legacy hit. -/
def mergeSearchRows (primary supplemental : List ViewRow) (limit : Option ℕ) : List ViewRow :=
  let primary := firstSeen ViewRow.id [] primary
  let supplemental := firstSeen ViewRow.id (primary.map ViewRow.id) supplemental
  match limit with
  | none => primary ++ supplemental
  | some 0 => []
  | some (n + 1) =>
    if supplemental.isEmpty then primary.take (n + 1)
    else
      (primary.take n ++ supplemental.take 1 ++
        (primary.drop n ++ supplemental.drop 1)).take (n + 1)

/-- A blank query, or a limit of none, finds nothing. -/
def findsNothing (query : String) (limit : Option ℕ) : Bool :=
  Store.isBlankText query || limit == some 0

/-- The hits of the workspace in the full-text index. -/
def ftsLocal (hits : List ConversationRecord) : List ViewRow :=
  (hits.filter fun r => r.workspaceId == some wid.column).map fun r => ⟨r, false⟩

/-- The legacy rows that the workspace sees, in the order in which a search examines them. -/
def legacyCandidates : List ViewRow :=
  sql.orderBy ViewRow.newerThenId ((s.visible wid).filter (·.legacySource))

def ftsRows (query : String) (limit : Option ℕ) : Except String (List ViewRow) :=
  if findsNothing query limit then .ok []
  else do
    let hits ← sql.ftsMatch s query
    let legacy ← collectSearchRows (legacyCandidates sql s wid) limit fun r =>
      sql.legacyFtsMatch r.record query
    .ok (mergeSearchRows (atMost limit (ftsLocal wid hits)) legacy limit)

def searchConversationsFts (query : String) (limit : Option ℕ) :
    Except String (List Conversation) := do
  let rows ← ftsRows sql s wid query limit
  load rows

/-- The text contains the other one, up to the case of ASCII letters. -/
def containsFold (text needle : String) : Bool :=
  let needle := needle.toList.map Char.toLower
  (text.toList.map Char.toLower).tails.any fun rest => needle.isPrefixOf rest

/-- The searchable text of a context that is not stored as plain text. -/
def searchContext (r : ConversationRecord) : String :=
  if r.isCompressed == 1 || r.context.isNone then (r.contextZstd.bind sql.decodeLossy).getD ""
  else r.context.getD ""

/-- The rows that are examined: the query is in a text column, or the context is compressed. -/
def likeCandidate (query : String) (r : ConversationRecord) : Bool :=
  r.title.any (containsFold · query) || r.context.any (containsFold · query)
    || r.cwd.any (containsFold · query) || (r.context.isNone && r.contextZstd.isSome)

def likeHit (query : String) (r : ConversationRecord) : Bool :=
  [r.title, r.context, r.cwd].any (·.any (containsFold · query))
    || (r.context.isNone && containsFold (searchContext sql r) query)

/-- The candidates of one source, in the order in which they are examined. -/
def likeCandidates (legacy : Bool) (query : String) : List ViewRow :=
  sql.orderBy ViewRow.newerThenId ((s.visible wid).filter fun r =>
    r.legacySource == legacy && likeCandidate query r.record)

def collectLikeSource (legacy : Bool) (query : String) (limit : Option ℕ) :
    Except String (List ViewRow) :=
  collectSearchRows (likeCandidates sql s wid legacy query) limit fun r =>
    .ok (likeHit sql query r.record)

/-- The first rows, the last of which gives way to the first legacy hit if there is none among
them. -/
def reserveLegacy (legacyIds : List String) (limit : Option ℕ) (rows : List ViewRow) :
    List ViewRow :=
  match limit with
  | none => rows
  | some n =>
    match rows.findIdx? fun r => r.id ∈ legacyIds with
    | some index =>
      if n ≤ index then rows.take (n - 1) ++ rows[index]?.toList else rows.take n
    | none => rows.take n

def likeRows (query : String) (limit : Option ℕ) : Except String (List ViewRow) :=
  if findsNothing query limit then .ok []
  else do
    let primary ← collectLikeSource sql s wid false query limit
    let legacy ← collectLikeSource sql s wid true query limit
    let rows := (mergeSearchRows primary legacy none).mergeSort ViewRow.laterThenId
    .ok (reserveLegacy (legacy.map ViewRow.id) limit rows)

def searchConversationsLike (query : String) (limit : Option ℕ) :
    Except String (List Conversation) := do
  let rows ← likeRows sql s wid query limit
  load rows

/-- When the full-text search fails, also in loading a row, the texts are scanned. -/
def searchConversations (query : String) (limit : Option ℕ) :
    Except String (List Conversation) :=
  match searchConversationsFts sql s wid query limit with
  | .ok conversations => .ok conversations
  | .error _ => searchConversationsLike sql s wid query limit

/-- The rows that a search returns. -/
def searchRows (query : String) (limit : Option ℕ) : Except String (List ViewRow) :=
  match searchConversationsFts sql s wid query limit with
  | .ok _ => ftsRows sql s wid query limit
  | .error _ => likeRows sql s wid query limit

end Reads

end HeliosLite
