import HeliosLite.Storage.Compression
import HeliosLite.Storage.Payload
import HeliosLite.Storage.Saving
import HeliosLite.Storage.WriteOrder

/-!
# Rewinding a stored conversation

A rewind edits the plain text of a row. An upsert compresses the context, and keeps the plain
text only if the compression fails, so that a rewind changes the messages of hardly any row.

## Main definitions

* `untilLastUser` — the messages up to the last one of the user
* `GoesBack` — what a rewind owes to the messages of a row
* `Context.RewindsBack` — the contexts of which it does

## Main results

* `goesBack_of_compressed` — a rewind leaves the messages of a compressed row
* `Store.rewind_goesBack_iff` — after an upsert, a rewind goes back exactly on those contexts
* `Greeting.not_goesBack_answered` — a greeting with its answer is left as it is
-/

namespace HeliosLite

open Serde Theory

/-- The messages up to the last one of the user. -/
def untilLastUser (messages : List MessageEntry) : List MessageEntry :=
  (messages.reverse.dropWhile fun entry => !entry.message.hasRole .user).reverse

theorem untilLastUser_front (messages : List MessageEntry) :
    untilLastUser messages <+: messages := by
  rw [untilLastUser, ← List.reverse_suffix, List.reverse_reverse]
  exact List.dropWhile_suffix _

variable [Libraries]

theorem hasRole_reloaded (role : Role) (message : ContextMessage) :
    message.reloaded.hasRole role = message.hasRole role := by
  cases message <;> rfl

/-- Storing a conversation leaves its user messages where they are. -/
theorem untilLastUser_reloaded (messages : List MessageEntry) :
    untilLastUser (messages.map MessageEntry.reloaded) =
      (untilLastUser messages).map MessageEntry.reloaded := by
  rw [untilLastUser, untilLastUser, ← List.map_reverse, List.dropWhile_map, ← List.map_reverse]
  congr 3
  funext entry
  exact congrArg not (hasRole_reloaded .user entry.message)

theorem untilLastUser_reloaded_eq_iff (messages : List MessageEntry) :
    untilLastUser (messages.map MessageEntry.reloaded) = messages.map MessageEntry.reloaded ↔
      untilLastUser messages = messages := by
  rw [untilLastUser_reloaded]
  constructor
  · intro h
    apply (untilLastUser_front messages).eq_of_length
    have hlength := congrArg List.length h
    rwa [List.length_map, List.length_map] at hlength
  · intro h
    rw [h]

/-- What a rewind owes to the messages that were stored: the row loads, its messages are a front
of them that ends with the last message of the user or before, and messages behind that one are
gone. -/
structure GoesBack (original : List MessageEntry) (r : ConversationRecord) : Prop where
  loads : r.Loads
  messages : ∃ left, r.messages = some left ∧ left <+: untilLastUser original ∧
    (untilLastUser original ≠ original → left.length < original.length)

/-- The context is compressed, nests within the limit and ends with a message of the user, or it
stays a plain text in which no user is found. -/
def Context.RewindsBack (context : Context) : Prop :=
  match Libraries.compress context.recordText with
  | some _ => context.Shallow ∧ untilLastUser context.messages = context.messages
  | none => findLastCompactionPoint context.recordText = 0

/-- The row after a rewind. -/
def ConversationRecord.rewound (r : ConversationRecord) (now : DateTime) : ConversationRecord :=
  { r with
    context := r.context.map fun context =>
      truncateContext context (findLastCompactionPoint context)
    updatedAt := some (.naive now) }

section Rows

variable {r : ConversationRecord} {context : Context} {t now : DateTime}

theorem textMessages_noMessages : textMessages "\x7b\"messages\":[]\x7d" = some [] := by
  rw [textMessages, importedContext_of_fromText Libraries.fromText_noMessages rfl
    (c := .default) rfl]
  rfl

/-- A row with an id loads if its messages are read. -/
theorem loads_of_messages {id : ConversationId} (hid : r.conversationId = id.intoString)
    {messages : List MessageEntry} (h : r.messages = some messages) : r.Loads := by
  rw [ConversationRecord.messages] at h
  cases hcontext : r.readContext with
  | error e =>
    rw [hcontext] at h
    cases h
  | ok context =>
    rw [ConversationRecord.Loads, ConversationRecord.tryInto, hid,
      ConversationId.parse_intoString, hcontext]
    exact ⟨_, rfl⟩

/-- No messages at all are a front of any. -/
theorem goesBack_of_nil {id : ConversationId} (hid : r.conversationId = id.intoString)
    (original : List MessageEntry) (h : r.messages = some []) : GoesBack original r := by
  refine ⟨loads_of_messages hid h, [], h, List.nil_prefix, ?_⟩
  intro hne
  apply List.length_pos_iff.mpr
  rintro rfl
  exact hne rfl

/-- All messages are a front that ends with the last one of the user if they end with that. -/
theorem goesBack_of_all {id : ConversationId} (hid : r.conversationId = id.intoString)
    {original : List MessageEntry} (h : r.messages = some original) :
    GoesBack original r ↔ untilLastUser original = original := by
  constructor
  · rintro ⟨-, left, hleft, hfront, -⟩
    rw [h] at hleft
    obtain rfl := Option.some.inj hleft
    exact (untilLastUser_front original).eq_of_length_le hfront.length_le
  · intro hlast
    refine ⟨loads_of_messages hid h, original, h, ?_, ?_⟩
    · rw [hlast]
    · exact fun hne => absurd hlast hne

/-- A rewind of a row without a context. -/
theorem goesBack_of_blank {id : ConversationId} {stored : Option Context}
    (hid : r.conversationId = id.intoString) (h : r.HoldsContext (encodeContext stored t))
    (hblank : ∀ c ∈ stored, c.isBlank) (original : List MessageEntry) :
    GoesBack original (r.rewound now) := by
  obtain ⟨hcontext, -, hflag⟩ := h
  have hempty : (encodeContext stored t).context = none ∧
      (encodeContext stored t).isCompressed = 0 := by
    cases stored with
    | none => exact ⟨rfl, rfl⟩
    | some c =>
      rw [encodeContext, if_pos (hblank c rfl)]
      exact ⟨rfl, rfl⟩
  rw [hempty.1] at hcontext
  rw [hempty.2] at hflag
  have hid' : (r.rewound now).conversationId = id.intoString := hid
  have hne : (r.rewound now).isCompressed ≠ 1 := by
    rw [ConversationRecord.rewound, hflag]
    decide
  apply goesBack_of_nil hid' original
  apply ConversationRecord.messages_none hne
  rw [ConversationRecord.rewound, hcontext]
  rfl

/-- A rewind of a compressed row leaves its messages. -/
theorem goesBack_of_compressed {id : ConversationId} {blob : ByteArray}
    (hid : r.conversationId = id.intoString) (h : r.HoldsContext (encodeContext (some context) t))
    (hblank : ¬ context.isBlank) (hcompress : Libraries.compress context.recordText = some blob) :
    GoesBack (context.messages.map MessageEntry.reloaded) (r.rewound now) ↔
      context.Shallow ∧ untilLastUser context.messages = context.messages := by
  have hflag : r.isCompressed = 1 := by
    rw [h.2.2, encodeContext, if_neg hblank, hcompress]
  have hid' : (r.rewound now).conversationId = id.intoString := hid
  have hfilter : (some context).filter (fun c => !c.isBlank) = some context := by
    rw [Option.filter_some, Bool.eq_false_iff.mpr hblank]
    rfl
  have hmessages : (r.rewound now).messages =
      if context.Shallow then some (context.messages.map MessageEntry.reloaded) else none := by
    have hsame : (r.rewound now).messages = r.messages :=
      ConversationRecord.messages_with_context hflag _ _
    rw [hsame, ConversationRecord.messages_of_holdsContext h, storedMessages, hfilter]
    rfl
  by_cases hshallow : context.Shallow
  · rw [if_pos hshallow] at hmessages
    rw [goesBack_of_all hid' hmessages, untilLastUser_reloaded_eq_iff, and_iff_right hshallow]
  · rw [if_neg hshallow] at hmessages
    refine iff_of_false ?_ fun hdeep => hshallow hdeep.1
    rintro ⟨-, left, hleft, -⟩
    rw [hmessages] at hleft
    cases hleft

/-- A rewind of a plain text in which no user is found empties it. -/
theorem goesBack_of_plain {id : ConversationId} (hid : r.conversationId = id.intoString)
    (h : r.HoldsContext (encodeContext (some context) t)) (hblank : ¬ context.isBlank)
    (hcompress : Libraries.compress context.recordText = none)
    (hpoint : findLastCompactionPoint context.recordText = 0) (original : List MessageEntry) :
    GoesBack original (r.rewound now) := by
  obtain ⟨hcontext, -, hflag⟩ := h
  rw [encodeContext, if_neg hblank, hcompress] at hcontext hflag
  have hid' : (r.rewound now).conversationId = id.intoString := hid
  have hne : (r.rewound now).isCompressed ≠ 1 := by
    rw [ConversationRecord.rewound, hflag]
    exact (by decide : (0 : Int32) ≠ 1)
  have htext : (r.rewound now).context = some "\x7b\"messages\":[]\x7d" := by
    rw [ConversationRecord.rewound, hcontext, Option.map_some, hpoint, truncateContext,
      if_pos rfl]
  apply goesBack_of_nil hid' original
  rw [ConversationRecord.messages_plain hne htext, textMessages_noMessages]

end Rows

/-! ### After an upsert -/

namespace Store

variable {s s' : Store} {wid : WorkspaceHash} {t now : DateTime}

theorem findOwned_rewindConversation {id : ConversationId} {r : ConversationRecord}
    (h : s.findOwned id.intoString wid.column = some r) :
    ∃ conversation s', s.rewindConversation wid id now = .ok (conversation, s') ∧
      s'.findOwned id.intoString wid.column = some (r.rewound now) := by
  obtain ⟨conversation, hrewind⟩ := map_snd_ok (@rewindConversation_of_owned _ _ now _ _ _ h)
  refine ⟨conversation, _, hrewind, ?_⟩
  obtain ⟨hfind, hw⟩ := findOwned_eq_some_iff.mp h
  obtain ⟨-, hid⟩ := Table.find?_eq_some_iff.mp hfind
  apply findOwned_eq_some_iff.mpr
  constructor
  · have howned : r.isOwned id.intoString wid.column = true := isOwned_iff.mpr ⟨hw, hid⟩
    rw [updateOwned, Table.find?_update, hfind, Option.map_some, if_pos howned]
    rfl
  · exact hw

/-- The row that an upsert leaves. -/
theorem holdsContext_upsertConversation {c : Conversation}
    (h : s.upsertConversation wid c t = .ok s') :
    ∃ r, s'.findOwned c.id.intoString wid.column = some r ∧
      r.conversationId = c.id.intoString ∧ r.HoldsContext (encodeContext c.context t) := by
  have hvalid := @upsertLocalConversationRecord_ok _ s s' wid.column
    (ConversationRecord.new c wid t) rfl h
  obtain ⟨s₂, hs₂, hfind⟩ := findOwned_upsertConversation t hvalid
  rw [h] at hs₂
  obtain rfl := Except.ok.inj hs₂
  refine ⟨_, hfind, ?_, (holdsContext_new c wid t).written _⟩
  exact (Table.find?_eq_some_iff.mp (findOwned_eq_some_iff.mp hfind).1).2

/-- After an upsert, a rewind goes back if the context is one of those; and only then, where no
compression fails. -/
theorem rewind_goesBack_iff {c : Conversation} (h : s.upsertConversation wid c t = .ok s') :
    ∃ conversation s'' r, s'.rewindConversation wid c.id now = .ok (conversation, s'') ∧
      s''.findOwned c.id.intoString wid.column = some r ∧
      ((∀ context ∈ c.context, ¬ context.isBlank → context.RewindsBack) →
        GoesBack (c.messages.map MessageEntry.reloaded) r) ∧
      ((∀ context ∈ c.context, ¬ context.isBlank →
          (Libraries.compress context.recordText).isSome) →
        GoesBack (c.messages.map MessageEntry.reloaded) r →
        ∀ context ∈ c.context, ¬ context.isBlank → context.RewindsBack) := by
  obtain ⟨r, hr, hid, hcontext⟩ := holdsContext_upsertConversation h
  obtain ⟨conversation, s'', hrewind, hleft⟩ := @findOwned_rewindConversation _ _ _ now _ _ hr
  refine ⟨conversation, s'', _, hrewind, hleft, ?_, ?_⟩
  · intro hback
    by_cases hblank : ∀ context ∈ c.context, context.isBlank
    · exact goesBack_of_blank hid hcontext hblank _
    · push Not at hblank
      obtain ⟨context, hsome, hblank⟩ := hblank
      have hgoes := hback context hsome hblank
      have hmessages : c.messages = context.messages := by
        rw [Conversation.messages, hsome]
        rfl
      rw [hsome] at hcontext
      rw [Context.RewindsBack] at hgoes
      cases hcompress : Libraries.compress context.recordText with
      | none =>
        rw [hcompress] at hgoes
        exact goesBack_of_plain hid hcontext hblank hcompress hgoes _
      | some blob =>
        rw [hcompress] at hgoes
        rw [hmessages]
        exact (goesBack_of_compressed hid hcontext hblank hcompress).mpr hgoes
  · intro hcompress hgoes context hsome hblank
    obtain ⟨blob, hblob⟩ := Option.isSome_iff_exists.mp (hcompress context hsome hblank)
    have hmessages : c.messages = context.messages := by
      rw [Conversation.messages, hsome]
      rfl
    rw [hsome] at hcontext
    rw [hmessages, goesBack_of_compressed hid hcontext hblank hblob] at hgoes
    rw [Context.RewindsBack, hblob]
    exact hgoes

end Store

end HeliosLite

namespace HeliosLite.Greeting

attribute [local instance] reference

theorem exists_upsertConversation (c : Conversation) (h : c.id = id) :
    ∃ s', Store.empty.upsertConversation wid c .epoch = .ok s' := by
  have hvalid : Store.empty.validateLocalMutation c.id.intoString wid.column = .ok () := by
    rw [h]
    decide
  obtain ⟨s', hs', -⟩ := Store.findOwned_upsertConversation .epoch hvalid
  exact ⟨s', hs'⟩

/-- A greeting that nobody answered ends with the user already. -/
theorem goesBack_saying :
    ∃ s' conversation s'' r, Store.empty.upsertConversation wid (saying "hi") .epoch = .ok s' ∧
      s'.rewindConversation wid id .epoch = .ok (conversation, s'') ∧
      s''.findOwned id.intoString wid.column = some r ∧
      GoesBack ((saying "hi").messages.map MessageEntry.reloaded) r := by
  obtain ⟨s', hs'⟩ := exists_upsertConversation (saying "hi") rfl
  obtain ⟨conversation, s'', r, hrewind, hr, hgoes, -⟩ :=
    @Store.rewind_goesBack_iff _ _ _ _ _ .epoch _ hs'
  refine ⟨s', conversation, s'', r, hs', hrewind, hr, hgoes ?_⟩
  intro context hsome hblank
  obtain rfl := Option.some.inj hsome
  exact ⟨by decide +kernel, rfl⟩

/-- The greeting with an answer. -/
def replied : Conversation :=
  { saying "hi" with
    context := (saying "hi").context.map fun context =>
      context.addMessage (.assistant "hello" none none none) }

/-- The answer to a greeting stays. -/
theorem not_goesBack_answered :
    ∃ s' conversation s'' r, Store.empty.upsertConversation wid replied .epoch = .ok s' ∧
      s'.rewindConversation wid id .epoch = .ok (conversation, s'') ∧
      s''.findOwned id.intoString wid.column = some r ∧
      ¬ GoesBack (replied.messages.map MessageEntry.reloaded) r := by
  obtain ⟨s', hs'⟩ := exists_upsertConversation replied rfl
  obtain ⟨r, hr, hid, hcontext⟩ := Store.holdsContext_upsertConversation hs'
  obtain ⟨conversation, s'', hrewind, hleft⟩ :=
    @Store.findOwned_rewindConversation _ _ _ .epoch _ _ hr
  refine ⟨s', conversation, s'', _, hs', hrewind, hleft, ?_⟩
  intro hgoes
  obtain ⟨-, hlast⟩ := (goesBack_of_compressed hid hcontext (by decide) rfl).mp hgoes
  exact absurd (congrArg List.length hlast) (by decide)

end HeliosLite.Greeting
