import HeliosLite.Storage.Mutation
import HeliosLite.Storage.Reference

/-!
# The storage form of a context

A row holds its context in three columns: a plain text, a blob, and the flag that says
which of the two is read. Every mutation writes its own subset of them. They stay
consistent in a run that prunes no compressed row, rewinds no plain text that has a user
message, and stores no context that nests too deeply.

## Main definitions

* `StorageInvariant`, `Loads` — the columns are consistent, the row loads
* `ConversationRecord.Sound` — the stronger invariant that runs keep
* `Store.KeepsSound` — the mutations that keep it

## Main results

* `Store.sound_apply` — the step
* `Store.run_storageInvariant` — every row of every such run is consistent and loads
* `Greeting.run_breaks_storageInvariant` — pruning a compressed row leaves both columns set
-/

namespace HeliosLite

open Serde Serde.Json Theory

variable [Libraries]

/-! ### Texts that read as a context -/

/-- The text reads as a context. -/
def Readable (json : String) : Prop := (Store.importedContext json).isSome

theorem importedContext_of_fromText {json : String} {v : Json} {r : ContextRecord} {c : Context}
    (hjson : fromText json = some v) (hr : ContextRecord.deserialize v = some r)
    (hc : r.tryInto = some c) : Store.importedContext json = some c := by
  rw [Store.importedContext, hjson, Option.bind_some, hr, Option.bind_some, hc]

theorem readable_of_importedContext {json : String} {c : Context}
    (h : Store.importedContext json = some c) : Readable json := by
  rw [Readable, h]
  rfl

theorem importedContext_recordText {context : Context} (h : context.Shallow) :
    Store.importedContext context.recordText = some context.reloaded := by
  obtain ⟨r, hr, hinto⟩ := Option.bind_eq_some_iff.mp context.read_serialize
  exact importedContext_of_fromText (fromText_toText h) hr hinto

/-- A rewind to the start leaves a text that reads as an empty context. -/
theorem readable_noMessages : Readable "\x7b\"messages\":[]\x7d" :=
  readable_of_importedContext
    (importedContext_of_fromText Libraries.fromText_noMessages rfl (c := .default) rfl)

/-- The summary of a pruned conversation reads as a context without messages. -/
theorem importedContext_prunedContext (id : ConversationId) (now : DateTime) :
    Store.importedContext (toText (Store.prunedContext id.intoString now).toValue)
      = some { Context.default with conversationId := some id } := by
  have hdepth : (Store.prunedContext id.intoString now).toValue.depth ≤ recursionLimit := by
    refine (depth_toValue_le _).trans ((depth_record_le (n := 0) ?_).trans (by decide))
    simp [depth]
  have hread : fromText (toText (Store.prunedContext id.intoString now).toValue)
      = some (Store.prunedContext id.intoString now).reloaded := by
    rw [fromText_toText hdepth, reloaded, toValue_reparsed]
  -- of the keys of the summary only the id is one of a context
  have hrecord : ContextRecord.deserialize (Store.prunedContext id.intoString now).reloaded
      = some (.from { Context.default with conversationId := some id }) := by
    simp [ContextRecord.deserialize, Store.prunedContext, structFields_reloaded, optional_loaded,
      defaulted_loaded, List.lookup, ContextRecord.from, Context.default, readOption]
  apply importedContext_of_fromText hread hrecord
  simp [ContextRecord.tryInto, ContextRecord.from, Context.default]

theorem parseContext_of_readable {json : String} (h : Readable json) (e id : String) :
    ∃ c, ConversationRecord.parseContext json e id = .ok c := by
  obtain ⟨c, hc⟩ := Option.isSome_iff_exists.mp h
  obtain ⟨r, hr, hinto⟩ := Option.bind_eq_some_iff.mp hc
  refine ⟨c, ?_⟩
  simp only [ConversationRecord.parseContext, hr, hinto]

/-! ### Rows -/

namespace ConversationRecord

/-- The flag says which column holds the context, and the other is empty. -/
structure StorageInvariant (r : ConversationRecord) : Prop where
  compressed : r.isCompressed = 1 → r.context = none ∧
    ∃ blob json, r.contextZstd = some blob ∧ Libraries.decompress blob = some json
  plain : r.isCompressed = 0 → r.contextZstd = none

/-- The row can be loaded. -/
def Loads (r : ConversationRecord) : Prop := ∃ conversation, r.tryInto = .ok conversation

/-- The context is compressed and readable, or plain and readable where it is there. -/
def SoundContext (r : ConversationRecord) : Prop :=
  (r.isCompressed = 1 ∧ r.context = none ∧
    ∃ blob json, r.contextZstd = some blob ∧ Libraries.decompress blob = some json ∧
      Readable json)
  ∨ (r.isCompressed = 0 ∧ r.contextZstd = none ∧ ∀ json ∈ r.context, Readable json)

/-- What holds of every row: its id reads, and so does its context. -/
structure Sound (r : ConversationRecord) : Prop where
  id : ∃ id, ConversationId.parse r.conversationId = some id
  context : r.SoundContext

theorem Sound.storageInvariant {r : ConversationRecord} (h : r.Sound) : r.StorageInvariant := by
  rcases h.context with ⟨hflag, hcontext, blob, json, hblob, hjson, -⟩ | ⟨hflag, hblob, -⟩
  · exact ⟨fun _ => ⟨hcontext, blob, json, hblob, hjson⟩, fun h => by simp [hflag] at h⟩
  · exact ⟨fun h => by simp [hflag] at h, fun _ => hblob⟩

theorem SoundContext.readContext {r : ConversationRecord} (h : r.SoundContext) :
    ∃ context, r.readContext = .ok context := by
  rcases h with ⟨hflag, -, blob, json, hblob, hjson, hread⟩ | ⟨hflag, -, hread⟩
  · obtain ⟨c, hc⟩ := parseContext_of_readable hread
      "Failed to deserialize decompressed context for conversation " r.conversationId
    exact ⟨some c, by rw [readContext_compressed hflag hblob hjson, hc]; rfl⟩
  · have hne : r.isCompressed ≠ 1 := by rw [hflag]; decide
    cases hcontext : r.context with
    | none => exact ⟨none, readContext_none hne hcontext⟩
    | some json =>
      obtain ⟨c, hc⟩ := parseContext_of_readable (hread json hcontext)
        "Failed to deserialize context for conversation " r.conversationId
      exact ⟨some c, by rw [readContext_plain hne hcontext, hc]; rfl⟩

theorem Sound.loads {r : ConversationRecord} (h : r.Sound) : r.Loads := by
  obtain ⟨id, hid⟩ := h.id
  obtain ⟨context, hcontext⟩ := h.context.readContext
  rw [Loads, tryInto, hid, hcontext]
  exact ⟨_, rfl⟩

/-- A context that nests too deeply is stored, but not read back. -/
theorem SoundContext.of_holdsContext {r : ConversationRecord} {context : Option Context}
    {now : DateTime} (h : r.HoldsContext (encodeContext context now))
    (hshallow : ∀ c ∈ context, ¬c.isBlank → c.Shallow) : r.SoundContext := by
  rcases h.cases with ⟨-, hcontext, hblob, hflag⟩
    | ⟨c, blob, rfl, hblank, hcompress, hcontext, hblob, hflag⟩
    | ⟨c, rfl, hblank, hcontext, hblob, hflag⟩
  · exact Or.inr ⟨hflag, hblob, by simp [hcontext]⟩
  · exact Or.inl ⟨hflag, hcontext, blob, _, hblob, Libraries.decompress_compress _ _ hcompress,
      readable_of_importedContext (importedContext_recordText (hshallow c rfl hblank))⟩
  · refine Or.inr ⟨hflag, hblob, ?_⟩
    intro json hjson
    obtain rfl := Option.some.inj (hcontext.symm.trans hjson)
    exact readable_of_importedContext (importedContext_recordText (hshallow c rfl hblank))

theorem Sound.compressRow {r : ConversationRecord} (h : r.Sound) :
    (Store.compressRow r).Sound := by
  refine ⟨by rw [Store.conversationId_compressRow]; exact h.id, ?_⟩
  rw [Store.compressRow]
  cases hcompress : r.context.bind Libraries.compress with
  | none => exact h.context
  | some blob =>
    obtain ⟨json, hjson, hblob⟩ := Option.bind_eq_some_iff.mp hcompress
    rcases h.context with ⟨-, hnone, -⟩ | ⟨-, -, hread⟩
    · rw [hnone] at hjson
      cases hjson
    · exact Or.inl ⟨rfl, rfl, blob, json, rfl, Libraries.decompress_compress _ _ hblob,
        hread json hjson⟩

end ConversationRecord

/-! ### The step -/

namespace Store

/-- Every row is sound. -/
def Sound (s : Store) : Prop := ∀ r ∈ s.conversations.rows, r.Sound

/-- The mutation stores no context that nests too deeply, prunes no compressed row, and
rewinds no plain text that has a user message. -/
def KeepsSound (s : Store) : Op → Prop
  | .upsertConversation wid c | .upsertConversationRef wid c =>
    s.validateLocalMutation c.id.intoString wid.column = .ok () →
      ∀ context ∈ c.context, ¬context.isBlank → context.Shallow
  | .daemon (.mutationV2 _ (.upsertConversation c))
  | .daemon (.mutationV2 _ (.upsertConversationRef c)) =>
    c.toValueSucceeds → ∀ context ∈ c.context, ¬context.isBlank → context.Shallow
  | .importForgeDb _ rows dryRun =>
    dryRun = false → ∀ row ∈ rows, (ConversationId.parse row.conversationId).isSome →
      (∀ r ∈ s.conversationsAll, r.conversationId ≠ row.conversationId) →
      ∀ context ∈ row.context.bind importedContext, ¬context.isBlank → context.Shallow
  | .pruneConversation wid id =>
    ∀ r, s.findOwned id.intoString wid.column = some r → r.intentState = "verified" →
      r.isCompressed = 0
  | .rewindConversation wid id =>
    ∀ r, s.findOwned id.intoString wid.column = some r →
      ∀ context ∈ r.context, findLastCompactionPoint context = 0
  | _ => True

variable {s s' : Store} {wid : WorkspaceHash} {now : DateTime}

theorem sound_new {c : Conversation}
    (hshallow : ∀ context ∈ c.context, ¬context.isBlank → context.Shallow) :
    (ConversationRecord.new c wid now).Sound :=
  ⟨⟨c.id, c.id.parse_intoString⟩, .of_holdsContext (holdsContext_new c wid now) hshallow⟩

/-- The daemon's row has the same context columns. -/
theorem sound_newRow {c : Conversation} {w : Int64}
    (hshallow : ∀ context ∈ c.context, ¬context.isBlank → context.Shallow) :
    (DbServer.newRow c w now).Sound :=
  ⟨⟨c.id, c.id.parse_intoString⟩, .of_holdsContext (holdsContext_newRow c w now) hshallow⟩

/-- A conflict takes the context of the new row. -/
theorem sound_onConflict {new old : ConversationRecord} (hnew : new.Sound) (hold : old.Sound) :
    (new.onConflict old).Sound :=
  ⟨hold.id, hnew.context⟩

/-- The change of a row by a mutation that the condition admits keeps it sound. -/
theorem sound_of_changed {op : Op} {r q : ConversationRecord} (hr : r.Sound)
    (hop : s.KeepsSound op) (h : Changed s now r op q) : q.Sound := by
  cases h with
  | upsert howned | upsertRef howned =>
    exact sound_onConflict (sound_new (hop (validateLocalMutation_of_owned howned))) hr
  | daemon hvalue | daemonRef hvalue => exact sound_onConflict (sound_newRow (hop hvalue)) hr
  | parent | mark | daemonParent => exact ⟨hr.id, hr.context⟩
  | compress => exact hr.compressRow
  | @prune wid cid howned hverified =>
    have hflag := hop r howned hverified
    -- the blob of a row that is not compressed is empty already
    refine ⟨hr.id, Or.inr ⟨hflag, hr.storageInvariant.plain hflag, ?_⟩⟩
    intro json hjson
    rw [← Option.some.inj hjson]
    exact readable_of_importedContext (importedContext_prunedContext cid now)
  | rewind howned =>
    refine ⟨hr.id, ?_⟩
    rcases hr.context with ⟨hflag, hnone, hblob⟩ | ⟨hflag, hblob, -⟩
    · exact Or.inl ⟨hflag, by simp only [hnone, Option.map_none], hblob⟩
    · refine Or.inr ⟨hflag, hblob, ?_⟩
      intro json hjson
      obtain ⟨context, hcontext, rfl⟩ := Option.map_eq_some_iff.mp hjson
      rw [hop r howned context hcontext, truncateContext, if_pos rfl]
      exact readable_noMessages

/-- A mutation that the condition admits keeps every row sound. -/
theorem sound_apply {op : Op} (h : s.Sound) (hop : s.KeepsSound op) :
    (s.apply now op).Sound := by
  intro q hq
  rcases origin_apply op q hq with hq | ⟨-, hinserted⟩ | ⟨r, hr, hchanged⟩
  · exact h q hq
  · cases hinserted with
    | upsert hvalid | upsertRef hvalid => exact sound_new (hop hvalid)
    | @imported _ _ row cid hrow hcid hnew =>
      apply sound_new (c := importedConversation row cid now)
      exact hop rfl row hrow (by rw [hcid]; rfl) hnew
    | daemon hvalue | daemonRef hvalue => exact sound_newRow (hop hvalue)
  · exact sound_of_changed (h r hr) hop hchanged

/-! ### Runs -/

/-- From an empty local table, in a run of such mutations, every row has consistent columns
and loads. -/
theorem run_storageInvariant {s : Store} {as : List (Op × DateTime)}
    (hempty : s.conversations.rows = [])
    (h : Meets step (fun s a => s.KeepsSound a.1) s as) :
    ∀ r ∈ (run step s as).conversations.rows, r.StorageInvariant ∧ r.Loads := by
  have hstart : s.Sound := by
    intro r hr
    rw [hempty] at hr
    cases hr
  have hsound : (run step s as).Sound :=
    run_invariant (fun s a hop hs => sound_apply hs hop) h hstart
  intro r hr
  exact ⟨(hsound r hr).storageInvariant, (hsound r hr).loads⟩

end Store

end HeliosLite

namespace HeliosLite.Greeting

open Theory

attribute [local instance] reference

/-- A conversation without a context is stored and verified. -/
def storedPlain : List (Op × DateTime) :=
  atEpoch
    [.upsertConversation wid { saying "hi" with context := none },
      .markIntentState wid id "verified"]

/-- Then it is pruned, and the summary compressed. -/
def prunedPlain : List (Op × DateTime) :=
  storedPlain ++ atEpoch [.pruneConversation wid id, .compressUncompressedContexts]

theorem run_storageInvariant_prunedPlain :
    (run Store.step .empty prunedPlain).conversations.rows.length = 1 ∧
      ∀ r ∈ (run Store.step .empty prunedPlain).conversations.rows,
        r.StorageInvariant ∧ r.Loads := by
  have hflag : ((run Store.step .empty storedPlain).findOwned id.intoString wid.column).all
      fun r => r.isCompressed == 0 := by decide +kernel
  refine ⟨by decide +kernel, ?_⟩
  apply Store.run_storageInvariant rfl
  apply meets_append.mpr
  refine ⟨⟨fun _ context hcontext => ?_, trivial, trivial⟩, fun r hr _ => ?_, trivial, trivial⟩
  · have hnone : (none : Option Context) = some context := hcontext
    cases hnone
  · exact beq_iff_eq.mp ((Option.all_eq_true _ _).mp hflag r hr)

/-- A conversation is stored, verified and pruned. -/
def prunedCompressed : List (Op × DateTime) :=
  atEpoch
    [.upsertConversation wid (saying "hi"), .markIntentState wid id "verified",
      .pruneConversation wid id]

/-- Pruning a compressed row sets its plain text next to the blob. -/
theorem run_breaks_storageInvariant :
    ∃ r ∈ (run Store.step .empty prunedCompressed).conversations.rows, ¬ r.StorageInvariant := by
  have hboth : (run Store.step .empty prunedCompressed).conversations.rows.any
      fun r => r.isCompressed == 1 && r.context.isSome := by decide +kernel
  obtain ⟨r, hr, hset⟩ := List.any_eq_true.mp hboth
  obtain ⟨hflag, hcontext⟩ := Bool.and_eq_true_iff.mp hset
  refine ⟨r, hr, fun h => ?_⟩
  rw [(h.compressed (beq_iff_eq.mp hflag)).1] at hcontext
  cases hcontext

end HeliosLite.Greeting
