import HeliosLite.Storage.Compression
import HeliosLite.Storage.Saving

/-!
# Pruning verified content

Pruning replaces the context of a row that the intent pipeline has verified. The state
stays at verified through later upserts and rewinds, so what is pruned is what was
verified only in runs in which these do not change the messages of a verified row.

## Main definitions

* `ConversationRecord.messages` — the messages that are read of a row
* `Store.KeepsVerified` — the mutations that change no messages of a verified row

## Main results

* `Store.messagesAt_step` — the step
* `Store.pruneConversation_discards_verified` — what a prune replaces is what was verified
* `Greeting.pruneConversation_discards_unverified` — an upsert in between
-/

namespace HeliosLite

open Serde Serde.Json Theory

variable [Libraries]

/-! ### The messages of a row -/

/-- The messages of a text that reads as a context. -/
def textMessages (json : String) : Option (List MessageEntry) :=
  (Store.importedContext json).map (·.messages)

/-- The messages that are read back of a stored context; a blank one is not stored, and one
that nests too deeply is not read. -/
def storedMessages (context : Option Context) : Option (List MessageEntry) :=
  match context.filter fun c => !c.isBlank with
  | none => some []
  | some c => if c.Shallow then some c.reloaded.messages else none

namespace ConversationRecord

/-- The messages of a row, if its context can be read. -/
def messages (r : ConversationRecord) : Option (List MessageEntry) :=
  r.readContext.toOption.map fun context => (context.map (·.messages)).getD []

theorem toOption_parseContext (json e id : String) :
    (parseContext json e id).toOption = Store.importedContext json := by
  rw [parseContext, Store.importedContext]
  cases (fromText json).bind ContextRecord.deserialize with
  | none => rfl
  | some record =>
    rw [Option.bind_some]
    cases hinto : record.tryInto <;> simp only [hinto] <;> rfl

theorem toOption_map_parseContext (json e id : String) :
    ((parseContext json e id).map some).toOption.map
        (fun context : Option Context => (context.map (·.messages)).getD [])
      = textMessages json := by
  rw [textMessages, ← toOption_parseContext json e id]
  cases parseContext json e id <;> rfl

theorem messages_compressed {r : ConversationRecord} {blob : ByteArray} {json : String}
    (hflag : r.isCompressed = 1) (hblob : r.contextZstd = some blob)
    (hjson : Libraries.decompress blob = some json) : r.messages = textMessages json := by
  rw [messages, readContext_compressed hflag hblob hjson, toOption_map_parseContext]

theorem messages_plain {r : ConversationRecord} {json : String} (hflag : r.isCompressed ≠ 1)
    (hcontext : r.context = some json) : r.messages = textMessages json := by
  rw [messages, readContext_plain hflag hcontext, toOption_map_parseContext]

theorem messages_none {r : ConversationRecord} (hflag : r.isCompressed ≠ 1)
    (hcontext : r.context = none) : r.messages = some [] := by
  rw [messages, readContext_none hflag hcontext]
  rfl

/-- Where the plain text is not read, it does not matter. -/
theorem messages_with_context {r : ConversationRecord} (hflag : r.isCompressed = 1)
    (context : Option String) (updatedAt : Option Stamp) :
    { r with context := context, updatedAt := updatedAt }.messages = r.messages := by
  rw [messages, messages, readContext, readContext, if_pos hflag, if_pos hflag]

/-- The columns of an encoded context are read as its messages. -/
theorem messages_of_holdsContext {r : ConversationRecord} {context : Option Context}
    {now : DateTime} (h : r.HoldsContext (encodeContext context now)) :
    r.messages = storedMessages context := by
  by_cases hshallow : ∀ c ∈ context, ¬c.isBlank → c.Shallow
  · rw [messages, readContext_encodeContext h hshallow, storedMessages]
    cases hfilter : context.filter fun c => !c.isBlank with
    | none => rfl
    | some c =>
      obtain ⟨hc, hblank⟩ := Option.filter_eq_some_iff.mp hfilter
      have hdeep := hshallow c hc (by simpa using hblank)
      simp only [if_pos hdeep]
      rfl
  · obtain ⟨c, hc, hblank, hdeep⟩ : ∃ c, context = some c ∧ ¬c.isBlank ∧ ¬c.Shallow := by
      simpa using hshallow
    subst hc
    obtain ⟨e, he⟩ := readContext_deep h hblank hdeep
    rw [messages, he, storedMessages, Option.filter_some, Bool.eq_false_iff.mpr hblank]
    exact (if_neg hdeep).symm

/-- Compression does not change what is read. -/
theorem messages_compressRow {r : ConversationRecord} (hplain : Store.isPlainRow r) :
    (Store.compressRow r).messages = r.messages := by
  obtain ⟨hflag, -⟩ := Bool.and_eq_true_iff.mp hplain
  rw [Store.compressRow]
  cases hcompress : r.context.bind Libraries.compress with
  | none => rfl
  | some blob =>
    obtain ⟨json, hjson, hblob⟩ := Option.bind_eq_some_iff.mp hcompress
    have hne : r.isCompressed ≠ 1 := by rw [beq_iff_eq.mp hflag]; decide
    rw [messages_plain hne hjson]
    exact messages_compressed rfl rfl (Libraries.decompress_compress _ _ hblob)

end ConversationRecord

/-! ### Verified rows -/

namespace Store

/-- The row of the id is verified. -/
def Verified (id : String) (s : Store) : Prop :=
  ∃ r, s.conversations.find? id = some r ∧ r.intentState = "verified"

/-- The messages of the row of the id. -/
def messagesAt (id : String) (s : Store) : Option (List MessageEntry) :=
  (s.conversations.find? id).bind (·.messages)

/-- The mutation changes the messages of no verified row, other than by pruning it. -/
def KeepsVerified (s : Store) : Op → Prop
  | .upsertConversation wid c | .upsertConversationRef wid c =>
    ∀ r, s.findOwned c.id.intoString wid.column = some r → r.intentState = "verified" →
      storedMessages c.context = r.messages
  | .daemon (.mutationV2 _ (.upsertConversation c))
  | .daemon (.mutationV2 _ (.upsertConversationRef c)) =>
    c.toValueSucceeds → ∀ r, s.conversations.find? c.id.intoString = some r →
      r.intentState = "verified" → storedMessages c.context = r.messages
  | .rewindConversation wid id =>
    ∀ r, s.findOwned id.intoString wid.column = some r → r.intentState = "verified" →
      r.isCompressed ≠ 1 → ∀ context ∈ r.context,
        textMessages (truncateContext context (findLastCompactionPoint context))
          = textMessages context
  | _ => True

variable {s s' : Store} {wid : WorkspaceHash} {now : DateTime} {id : String}
  {r : ConversationRecord}

/-- A mutation that the condition admits does not change the messages of a row that stays
verified. -/
theorem messages_of_changed {op : Op} {q : ConversationRecord} (hop : s.KeepsVerified op)
    (hmem : r ∈ s.conversations.rows) (hr : r.intentState = "verified")
    (hq : q.intentState = "verified")
    (h : Changed s now r op q) : q.messages = r.messages := by
  have hcontext : ∀ {new : ConversationRecord} {c : Conversation},
      new.HoldsContext (encodeContext c.context now) → storedMessages c.context = r.messages →
      (new.onConflict r).messages = r.messages := by
    intro new c hnew hsame
    have hconflict : (new.onConflict r).HoldsContext (encodeContext c.context now) := hnew
    rw [ConversationRecord.messages_of_holdsContext hconflict, hsame]
  cases h with
  | @upsert wid c howned | @upsertRef wid c howned =>
    exact hcontext (holdsContext_new c wid now) (hop r howned hr)
  | @daemon w c hvalue hid | @daemonRef w c hvalue hid =>
    have hfind := Table.find?_eq_some_iff.mpr ⟨hmem, hid⟩
    exact hcontext (holdsContext_newRow c w now) (hop hvalue r hfind hr)
  | parent | mark | daemonParent => rfl
  | compress hplain => exact ConversationRecord.messages_compressRow hplain
  | prune =>
    -- a pruned row is no longer verified
    have hne : "pruned" ≠ "verified" := by decide
    exact absurd hq hne
  | rewind howned =>
    by_cases hflag : r.isCompressed = 1
    · exact ConversationRecord.messages_with_context hflag _ _
    · cases hplain : r.context with
      | none =>
        rw [ConversationRecord.messages_none hflag hplain]
        exact ConversationRecord.messages_none hflag rfl
      | some context =>
        rw [ConversationRecord.messages_plain hflag hplain, ← hop r howned hr hflag context hplain]
        exact ConversationRecord.messages_plain hflag rfl

/-- A step from a verified row to a verified row leaves its messages as they are. -/
theorem messagesAt_step {a : Op × DateTime} (hop : s.KeepsVerified a.1) (hs : s.Verified id)
    (hstep : (step s a).Verified id) : (step s a).messagesAt id = s.messagesAt id := by
  obtain ⟨r, hr, hrverified⟩ := hs
  obtain ⟨q, hq, hqverified⟩ := hstep
  rw [messagesAt, messagesAt, hq, hr, Option.bind_some, Option.bind_some]
  rcases find?_apply hr hq with rfl | hchanged
  · rfl
  · exact messages_of_changed hop (Table.find?_eq_some_iff.mp hr).1 hrverified hqverified hchanged

/-- An upsert that is let pass stores the messages of its conversation. -/
theorem messagesAt_upsertConversation {c : Conversation} (now : DateTime)
    (hvalid : s.validateLocalMutation c.id.intoString wid.column = .ok ()) :
    (step s (.upsertConversation wid c, now)).messagesAt c.id.intoString =
      storedMessages c.context := by
  obtain ⟨s', hs', hrow⟩ := findOwned_upsertConversation now hvalid
  have hstep : step s (.upsertConversation wid c, now) = s' := by
    rw [step, apply, hs', orSame]
  have hholds := (holdsContext_new c wid now).written (s.conversations.find? c.id.intoString)
  rw [hstep, messagesAt, (findOwned_eq_some_iff.mp hrow).1, Option.bind_some,
    ConversationRecord.messages_of_holdsContext hholds]

/-- A mark leaves the messages as they are. -/
theorem messagesAt_markIntentState {cid : ConversationId} {state : String}
    {q : ConversationRecord} (hr : s.conversations.find? id = some r)
    (hq : (step s (.markIntentState wid cid state, now)).conversations.find? id = some q) :
    (step s (.markIntentState wid cid state, now)).messagesAt id = s.messagesAt id := by
  rw [messagesAt, messagesAt, hq, hr, Option.bind_some, Option.bind_some]
  rcases find?_apply hr hq with rfl | hchanged
  · rfl
  · cases hchanged
    rfl

/-! ### Runs -/

/-- The steps `bs` lead to the state in which the row of the id last became verified: it is
verified there and after each initial part of `cs`, and was not verified before the last
step of `bs`. -/
def LastVerified (s : Store) (id : String) (bs cs : List (Op × DateTime)) : Prop :=
  (bs = [] ∨ ¬(run step s bs.dropLast).Verified id) ∧
    ∀ ds, ds <+: cs → (run step s (bs ++ ds)).Verified id

/-- In a run of such mutations, a prune replaces the messages that the row had when it last
became verified. -/
theorem pruneConversation_discards_verified {as : List (Op × DateTime)} {cid : ConversationId}
    (h : Meets step (fun s a => s.KeepsVerified a.1) s as)
    (hprune : (run step s as).pruneConversation wid cid now = .ok s') :
    ∃ bs cs, as = bs ++ cs ∧ s.LastVerified cid.intoString bs cs ∧
      (run step s bs).messagesAt cid.intoString = (run step s as).messagesAt cid.intoString := by
  obtain ⟨r, hr, hverified, -⟩ := pruneConversation_ok hprune
  have hend : (run step s as).Verified cid.intoString :=
    ⟨r, (findOwned_eq_some_iff.mp hr).1, hverified⟩
  obtain ⟨bs, cs, rfl, hstart, hstretch⟩ := exists_last_stretch (P := Verified cid.intoString) hend
  refine ⟨bs, cs, rfl, ⟨hstart, hstretch⟩, ?_⟩
  have hconstant : messagesAt cid.intoString (run step (run step s bs) cs)
      = messagesAt cid.intoString (run step s bs) := by
    apply run_constant (P := Verified cid.intoString)
    · exact fun s a hop hs hstep => messagesAt_step hop hs hstep
    · exact (meets_append.mp h).2
    · intro ds hds
      rw [← run_append]
      exact hstretch ds hds
  rw [run_append, hconstant]

end Store

end HeliosLite

namespace HeliosLite.Greeting

open Theory

attribute [local instance] reference

/-- A greeting is stored and verified. -/
def verified : List (Op × DateTime) :=
  atEpoch [.upsertConversation wid (saying "hi"), .markIntentState wid id "verified"]

/-- The verified greeting is stored again as it is. -/
def repeated : List (Op × DateTime) :=
  verified ++ atEpoch [.upsertConversation wid (saying "hi")]

/-- Another greeting takes the place of the verified one. -/
def replaced : List (Op × DateTime) :=
  verified ++ atEpoch [.upsertConversation wid (saying "bye")]

/-- What the runs come to. -/
theorem runs_evaluate :
    ((run Store.step .empty verified).conversations.find? id.intoString).any
        (·.intentState == "verified") ∧
      ((run Store.step .empty (verified.take 1)).conversations.find? id.intoString).any
        (·.intentState != "verified") ∧
      ((run Store.step .empty verified).validateLocalMutation id.intoString wid.column).isOk ∧
      ((run Store.step .empty repeated).pruneConversation wid id .epoch).isOk ∧
      ((run Store.step .empty replaced).pruneConversation wid id .epoch).isOk ∧
      storedMessages (saying "hi").context ≠ storedMessages (saying "bye").context := by
  decide +kernel

theorem not_verified_of_all {s : Store}
    (h : (s.conversations.find? id.intoString).all fun r => r.intentState != "verified") :
    ¬ s.Verified id.intoString := by
  rintro ⟨r, hr, hverified⟩
  have hne := (Option.all_eq_true _ _).mp h r hr
  rw [hverified] at hne
  cases hne

theorem verified_run : (run Store.step .empty verified).Verified id.intoString := by
  obtain ⟨r, hr, hverified⟩ := (Option.any_eq_true _ _).mp runs_evaluate.1
  exact ⟨r, hr, beq_iff_eq.mp hverified⟩

theorem exists_of_isOk {s : Store} (h : (s.pruneConversation wid id .epoch).isOk) :
    ∃ s', s.pruneConversation wid id .epoch = .ok s' := by
  cases hprune : s.pruneConversation wid id .epoch with
  | ok s' => exact ⟨s', rfl⟩
  | error e =>
    rw [hprune] at h
    cases h

theorem messagesAt_verified : (run Store.step .empty verified).messagesAt id.intoString =
    storedMessages (saying "hi").context := by
  obtain ⟨q, hq, -⟩ := verified_run
  have hstored := @Store.messagesAt_upsertConversation _ .empty wid (saying "hi") .epoch rfl
  obtain ⟨r, hr, -⟩ := (Option.any_eq_true _ _).mp runs_evaluate.2.1
  simp only [verified, atEpoch, List.map_cons, List.map_nil, List.take_succ_cons, List.take_zero,
    run_cons, run_nil] at hq hr ⊢
  rw [Store.messagesAt_markIntentState hr hq]
  exact hstored

theorem pruneConversation_discards_repeated :
    ∃ bs cs, repeated = bs ++ cs ∧ Store.empty.LastVerified id.intoString bs cs ∧
      (run Store.step .empty bs).messagesAt id.intoString
        = (run Store.step .empty repeated).messagesAt id.intoString := by
  obtain ⟨s', hs'⟩ := exists_of_isOk runs_evaluate.2.2.2.1
  apply Store.pruneConversation_discards_verified _ hs'
  apply meets_append.mpr
  refine ⟨⟨fun r hr _ => ?_, trivial, trivial⟩, fun r hr _ => ?_, trivial⟩
  · have hnone : (none : Option ConversationRecord) = some r := hr
    cases hnone
  · have hfind : (run Store.step .empty verified).conversations.find? id.intoString = some r :=
      (Store.findOwned_eq_some_iff.mp hr).1
    have hmessages := messagesAt_verified
    rw [Store.messagesAt, hfind, Option.bind_some] at hmessages
    exact hmessages.symm

theorem messagesAt_replaced : (run Store.step .empty replaced).messagesAt id.intoString =
    storedMessages (saying "bye").context := by
  have hok := runs_evaluate.2.2.1
  have hvalid : (run Store.step .empty verified).validateLocalMutation id.intoString wid.column =
      .ok () := by
    match hvalid : (run Store.step .empty verified).validateLocalMutation id.intoString
        wid.column with
    | .ok () => rfl
    | .error e => rw [hvalid] at hok; cases hok
  have hstored := @Store.messagesAt_upsertConversation _ _ wid (saying "bye") .epoch hvalid
  rw [replaced, run_append]
  exact hstored

/-- The prune succeeds, and replaces a greeting that was never verified. -/
theorem pruneConversation_discards_unverified :
    ((run Store.step .empty replaced).pruneConversation wid id .epoch).isOk ∧
    ∀ bs cs, replaced = bs ++ cs → Store.empty.LastVerified id.intoString bs cs →
      (run Store.step .empty bs).messagesAt id.intoString
        ≠ (run Store.step .empty replaced).messagesAt id.intoString := by
  refine ⟨runs_evaluate.2.2.2.2.1, ?_⟩
  rintro bs cs heq ⟨hstart, hstretch⟩
  have hfirst : (run Store.step .empty bs).Verified id.intoString := by
    simpa using hstretch [] List.nil_prefix
  have hbs : bs = replaced.take bs.length := by rw [heq, List.take_left]
  have hlength : bs.length ≤ 3 := by
    have hsum := congrArg List.length heq
    rw [List.length_append, show replaced.length = 3 from rfl] at hsum
    omega
  generalize bs.length = n at hbs hlength
  subst hbs
  -- only after the second step has the row just become verified
  interval_cases n
  · exact absurd hfirst (not_verified_of_all rfl)
  · refine absurd hfirst (not_verified_of_all ?_)
    obtain ⟨r, hr, hother⟩ := (Option.any_eq_true _ _).mp runs_evaluate.2.1
    have htake : replaced.take 1 = verified.take 1 := rfl
    rw [htake, hr]
    exact hother
  · have htake : replaced.take 2 = verified := rfl
    rw [htake, messagesAt_verified, messagesAt_replaced]
    exact runs_evaluate.2.2.2.2.2
  · rcases hstart with hnil | hbefore
    · cases hnil
    · exact absurd verified_run hbefore

end HeliosLite.Greeting
