import HeliosLite.Compaction.TodoHistory
import HeliosLite.Theory.Splice
import HeliosLite.Theory.Stretches
import HeliosLite.Tools.Paths

/-!
# The summary that is rendered

Before a summary is rendered, the messages of the system are dropped, of the blocks of the user in a
row only the first content is kept, of the calls in a row with one operation the last is kept, and
the paths are shortened.

All calls of the todo tools have one operation. A call whose changes are told is lost if another
call of these tools follows it directly, although no other call tells its changes.

## Main definitions

* `toOp` — the operation of a tool
* `dropRole`, `dedupeRole`, `trimContextSummary`, `stripWorkingDir` — the four steps
* `summaryTransformer` — all of them
* `KeepsTodos` — no call that tells changes is followed by another one of the todo tools

## Main results

* `exists_transform` — a summary of a context can be transformed
* `changesTold_transform_iff` — when the summary that is rendered tells all changes
* `replay_transform` — then its changes still lead to the todos of the session
-/

namespace HeliosLite

open Theory

/-! ### The steps -/

/-- What a call works on. -/
inductive Operation where
  | file (path : String)
  | shell (command : String)
  | search (pattern : String)
  | codebaseSearch (queries : List SearchQuery)
  | fetch (url : String)
  | followup (question : String)
  | plan (name : String)
  | skill (name : String)
  | task (agentId : String)
  | mcp (name : String)
  | todo
  deriving DecidableEq, Repr

def toOp : SummaryTool → Operation
  | .fileRead path => .file path
  | .fileUpdate path => .file path
  | .fileRemove path => .file path
  | .undo path => .file path
  | .shell command => .shell command
  | .search pattern => .search pattern
  | .semSearch queries => .codebaseSearch queries
  | .fetch url => .fetch url
  | .followup question => .followup question
  | .plan planName => .plan planName
  | .skill name => .skill name
  | .task agentId => .task agentId
  | .mcp name => .mcp name
  | .todoWrite _ => .todo
  | .todoRead => .todo

def dropRole (role : Role) (summary : ContextSummary) : ContextSummary :=
  { messages := summary.messages.filter (·.role ≠ role) }

/-- The blocks after one with a role. A block without contents cannot be drained from its second
content on. -/
def dedupeAfter (role : Role) (lastRole : Role) : List SummaryBlock → Option (List SummaryBlock)
  | [] => some []
  | block :: blocks =>
    if block.role = role then
      if lastRole ≠ role then
        match block.contents with
        | [] => none
        | content :: _ =>
          (dedupeAfter role block.role blocks).map ({ block with contents := [content] } :: ·)
      else dedupeAfter role block.role blocks
    else (dedupeAfter role block.role blocks).map (block :: ·)

def dedupeRole (role : Role) (summary : ContextSummary) : Option ContextSummary :=
  (dedupeAfter role .system summary.messages).map fun messages => { messages := messages }

/-- A call replaces the one before it if both have the same operation. -/
def replacesCall : SummaryMessage → SummaryMessage → Bool
  | .toolCall last, .toolCall call => toOp last.tool = toOp call.tool
  | _, _ => false

def trimContents (contents : List SummaryMessage) : List SummaryMessage :=
  contents.foldl (replaceLast replacesCall) []

def trimContextSummary (summary : ContextSummary) : ContextSummary :=
  { messages := summary.messages.map fun message =>
      if message.role ≠ .assistant then message
      else { message with contents := trimContents message.contents } }

/-- The path below the working directory, or else as it is. -/
def stripPrefix (env : Environment) (path : String) : String :=
  if isAbsolute path then
    match stripComponents (components env.cwd.toList) path.toList with
    | some rest => String.ofList (skipSeparators rest.reverse).reverse
    | none => path
  else path

def stripTool (env : Environment) : SummaryTool → SummaryTool
  | .fileRead path => .fileRead (stripPrefix env path)
  | .fileUpdate path => .fileUpdate (stripPrefix env path)
  | .fileRemove path => .fileRemove (stripPrefix env path)
  | .undo path => .undo (stripPrefix env path)
  | tool => tool

def stripMessage (env : Environment) : SummaryMessage → SummaryMessage
  | .toolCall call => .toolCall { call with tool := stripTool env call.tool }
  | message => message

def stripWorkingDir (env : Environment) (summary : ContextSummary) : ContextSummary :=
  { messages := summary.messages.map fun message =>
      { message with contents := message.contents.map (stripMessage env) } }

def summaryTransformer (env : Environment) (summary : ContextSummary) : Option ContextSummary :=
  (dedupeRole .user (dropRole .system summary)).map fun summary =>
    stripWorkingDir env (trimContextSummary summary)

/-! ### The transformation does not fail -/

section Dedupe

variable {role lastRole : Role} {blocks : List SummaryBlock}

theorem exists_dedupeAfter (h : ∀ block ∈ blocks, block.contents ≠ []) :
    ∃ deduped, dedupeAfter role lastRole blocks = some deduped := by
  induction blocks generalizing lastRole with
  | nil => exact ⟨[], rfl⟩
  | cons block blocks ih =>
    rw [List.forall_mem_cons] at h
    obtain ⟨deduped, hdeduped⟩ : ∃ deduped, dedupeAfter role block.role blocks = some deduped :=
      ih h.2
    rw [dedupeAfter, hdeduped]
    split_ifs with hrole hlast
    · cases hcontents : block.contents with
      | nil => exact absurd hcontents h.1
      | cons content contents => exact ⟨_, rfl⟩
    · exact ⟨deduped, rfl⟩
    · exact ⟨_, rfl⟩

/-- The blocks of other roles stay as they are. -/
theorem filter_dedupeAfter {other : Role} (hother : other ≠ role) {deduped : List SummaryBlock}
    (h : dedupeAfter role lastRole blocks = some deduped) :
    deduped.filter (·.role = other) = blocks.filter (·.role = other) := by
  induction blocks generalizing lastRole deduped with
  | nil =>
    obtain rfl := Option.some.inj h
    rfl
  | cons block blocks ih =>
    rw [dedupeAfter] at h
    split_ifs at h with hrole hlast
    · have hne : ¬ block.role = other := fun heq => hother (heq.symm.trans hrole)
      cases hcontents : block.contents with
      | nil =>
        rw [hcontents] at h
        cases h
      | cons content contents =>
        rw [hcontents] at h
        obtain ⟨rest, hrest, rfl⟩ := Option.map_eq_some_iff.mp h
        rw [List.filter_cons_of_neg (by simpa using hne),
          List.filter_cons_of_neg (by simpa using hne), ih hrest]
    · have hne : ¬ block.role = other := fun heq => hother (heq.symm.trans hrole)
      rw [List.filter_cons_of_neg (by simpa using hne), ih h]
    · obtain ⟨rest, hrest, rfl⟩ := Option.map_eq_some_iff.mp h
      rw [List.filter_cons, List.filter_cons, ih hrest]

end Dedupe

theorem exists_transform [ToolReader] (env : Environment) (context : Context) :
    ∃ out, summaryTransformer env (ContextSummary.ofContext context) = some out := by
  have hfilled : ∀ block ∈ (dropRole .system (ContextSummary.ofContext context)).messages,
      block.contents ≠ [] := fun block hblock =>
    (filled_ofContext context block (List.mem_of_mem_filter hblock)).1
  obtain ⟨deduped, hdeduped⟩ : ∃ deduped, dedupeAfter .user .system
      (dropRole .system (ContextSummary.ofContext context)).messages = some deduped :=
    exists_dedupeAfter hfilled
  refine ⟨stripWorkingDir env (trimContextSummary { messages := deduped }), ?_⟩
  rw [summaryTransformer, dedupeRole, hdeduped]
  rfl

/-! ### The changes that are told -/

/-- The changes that the calls of the assistant tell. -/
def assistantChanges (blocks : List SummaryBlock) : List TodoChange :=
  (blocks.filter (·.role = .assistant)).flatMap fun block => block.contents.flatMap changesOf

def isTodoCall : SummaryMessage → Bool
  | .toolCall { tool := .todoWrite _, .. } => true
  | .toolCall { tool := .todoRead, .. } => true
  | _ => false

/-- No call that tells changes is followed directly by another call of the todo tools. -/
def KeepsTodos (contents : List SummaryMessage) : Prop :=
  contents.IsChain fun last message => isTodoCall message → changesOf last = []

instance (contents : List SummaryMessage) : Decidable (KeepsTodos contents) :=
  inferInstanceAs (Decidable (contents.IsChain _))

section Changes

variable {env : Environment} {summary out : ContextSummary} {last message : SummaryMessage}
  {contents : List SummaryMessage}

theorem changesOf_stripMessage (env : Environment) (message : SummaryMessage) :
    changesOf (stripMessage env message) = changesOf message := by
  cases message with
  | text content => rfl
  | toolCall call =>
    obtain ⟨id, tool, isSuccess⟩ := call
    cases tool <;> rfl

/-- A call that tells changes is replaced by the calls of the todo tools. -/
theorem replacesCall_iff (h : changesOf last ≠ []) :
    replacesCall last message = isTodoCall message := by
  have htool : ∃ id changes isSuccess,
      last = .toolCall { id := id, tool := .todoWrite changes, isSuccess := isSuccess } := by
    cases last with
    | text content => exact absurd rfl h
    | toolCall call =>
      obtain ⟨id, tool, isSuccess⟩ := call
      cases tool with
      | todoWrite changes => exact ⟨id, changes, isSuccess, rfl⟩
      | _ => exact absurd rfl h
  obtain ⟨id, changes, isSuccess, rfl⟩ := htool
  cases message with
  | text content => rfl
  | toolCall call =>
    obtain ⟨id', tool, isSuccess'⟩ := call
    cases tool <;> rfl

theorem changes_trimContents_iff :
    (trimContents contents).flatMap changesOf = contents.flatMap changesOf ↔
      KeepsTodos contents := by
  have hstep : ∀ last message, (replacesCall last message → changesOf last = []) ↔
      (isTodoCall message → changesOf last = []) := by
    intro last message
    by_cases h : changesOf last = []
    · simp [h]
    · rw [replacesCall_iff h]
  have hrel : (fun last message => replacesCall last message → changesOf last = []) =
      fun last message => isTodoCall message → changesOf last = [] :=
    funext fun last => funext fun message => propext (hstep last message)
  rw [trimContents, foldl_replaceLast, flatMap_keepUnreplaced_eq_iff, hrel]
  rfl

theorem trimContents_sublist (contents : List SummaryMessage) :
    (trimContents contents).Sublist contents := by
  rw [trimContents, foldl_replaceLast]
  exact keepUnreplaced_sublist contents

theorem changes_stripped (env : Environment) (contents : List SummaryMessage) :
    (contents.map (stripMessage env)).flatMap changesOf = contents.flatMap changesOf := by
  rw [List.flatMap_map]
  exact congrArg (contents.flatMap ·) (funext (changesOf_stripMessage env))

/-- The contents of the blocks of the assistant are trimmed and stripped, the others stripped. -/
theorem assistantChanges_trimmed (env : Environment) (blocks : List SummaryBlock) :
    assistantChanges (stripWorkingDir env (trimContextSummary { messages := blocks })).messages =
      (blocks.filter (·.role = .assistant)).flatMap fun block =>
        (trimContents block.contents).flatMap changesOf := by
  rw [stripWorkingDir, trimContextSummary, assistantChanges]
  induction blocks with
  | nil => rfl
  | cons block blocks ih =>
    by_cases hrole : block.role = .assistant
    · rw [List.map_cons, List.map_cons, if_neg (not_not.mpr hrole),
        List.filter_cons_of_pos (by simpa using hrole),
        List.filter_cons_of_pos (by simpa using hrole), List.flatMap_cons, List.flatMap_cons, ih,
        changes_stripped]
    · rw [List.map_cons, List.map_cons, if_pos hrole,
        List.filter_cons_of_neg (by simpa using hrole),
        List.filter_cons_of_neg (by simpa using hrole), ih]

theorem assistantChanges_transform (h : summaryTransformer env summary = some out) :
    assistantChanges out.messages =
      (summary.messages.filter (·.role = .assistant)).flatMap fun block =>
        (trimContents block.contents).flatMap changesOf := by
  obtain ⟨deduped, hdeduped, rfl⟩ := Option.map_eq_some_iff.mp h
  obtain ⟨messages, hmessages, rfl⟩ := Option.map_eq_some_iff.mp hdeduped
  have hassistant : messages.filter (·.role = .assistant) =
      summary.messages.filter (·.role = .assistant) := by
    rw [filter_dedupeAfter (by decide) hmessages, dropRole, List.filter_filter]
    refine List.filter_congr fun block _ => ?_
    by_cases hrole : block.role = .assistant <;> simp [hrole]
  rw [← hassistant]
  exact assistantChanges_trimmed env messages

/-- The summary that is rendered tells the same changes if and only if no call that tells changes is
followed directly by another call of the todo tools. -/
theorem changesTold_transform_iff (h : summaryTransformer env summary = some out) :
    assistantChanges out.messages = assistantChanges summary.messages ↔
      ∀ block ∈ summary.messages, block.role = .assistant → KeepsTodos block.contents := by
  have hle : ∀ block ∈ summary.messages.filter (·.role = .assistant),
      ((trimContents block.contents).flatMap changesOf).length ≤
        (block.contents.flatMap changesOf).length := fun block _ =>
    ((trimContents_sublist block.contents).flatMap changesOf).length_le
  rw [assistantChanges_transform h, assistantChanges, flatMap_eq_iff_of_length_le hle]
  simp only [List.mem_filter, decide_eq_true_eq, and_imp, changes_trimContents_iff]

end Changes

/-! ### From the context to what is rendered -/

section Context

variable [ToolReader] {context : Context} {todos : List Todo} {messages : List TextMessage}

/-- Only the assistant tells changes. -/
theorem changesOf_of_mem_narrate
    (hassistant : ∀ message ∈ messages, message.role ≠ .assistant → todoWrites message = [])
    {p : Role × SummaryMessage} (hp : p ∈ narrate todos messages) (hrole : p.1 ≠ .assistant) :
    changesOf p.2 = [] := by
  induction messages generalizing todos with
  | nil => exact absurd hp List.not_mem_nil
  | cons message messages ih =>
    rw [List.forall_mem_cons] at hassistant
    rcases List.mem_append.mp hp with hp | hp
    · obtain ⟨content, hcontent, rfl⟩ := List.mem_map.mp hp
      have hnone : changesTold ((extractSummaryMessages message todos).map (message.role, ·)) =
          [] := by
        rw [changesTold_extract, hassistant.1 hrole]
        rfl
      exact List.flatMap_eq_nil_iff.mp hnone _ hp
    · exact ih hassistant.2 hp

omit [ToolReader] in
/-- A summary in which only the assistant tells changes. -/
theorem assistantChanges_eq {blocks : List SummaryBlock}
    (h : ∀ p ∈ told blocks, p.1 ≠ .assistant → changesOf p.2 = []) :
    assistantChanges blocks = changesTold (told blocks) := by
  induction blocks with
  | nil => rfl
  | cons block blocks ih =>
    have htold : told (block :: blocks) = block.contents.map (block.role, ·) ++ told blocks := rfl
    have hblock : changesTold (block.contents.map (block.role, ·)) =
        block.contents.flatMap changesOf := List.flatMap_map ..
    have hrest := ih fun p hp => h p (htold ▸ List.mem_append_right _ hp)
    rw [htold, changesTold_append, hblock, ← hrest]
    by_cases hrole : block.role = .assistant
    · rw [assistantChanges, List.filter_cons_of_pos (by simpa using hrole), List.flatMap_cons]
      rfl
    · have hnone : block.contents.flatMap changesOf = [] := by
        rw [List.flatMap_eq_nil_iff]
        intro content hcontent
        have hmem : (block.role, content) ∈ told (block :: blocks) :=
          htold ▸ List.mem_append_left _ (List.mem_map_of_mem hcontent)
        exact h _ hmem hrole
      rw [hnone, List.nil_append, assistantChanges,
        List.filter_cons_of_neg (by simpa using hrole)]
      rfl

/-- The summary that is rendered tells the changes of the context's summary if and only if no call
that tells changes is followed directly by another call of the todo tools. -/
theorem transform_tells_changes_iff (env : Environment) (context : Context) :
    ∃ out, summaryTransformer env (ContextSummary.ofContext context) = some out ∧
      (assistantChanges out.messages =
          assistantChanges (ContextSummary.ofContext context).messages ↔
        ∀ block ∈ (ContextSummary.ofContext context).messages, block.role = .assistant →
          KeepsTodos block.contents) := by
  obtain ⟨out, hout⟩ := exists_transform env context
  exact ⟨out, hout, changesTold_transform_iff hout⟩

/-- What the summary that is rendered tells leads to the todos of the session. -/
theorem replay_transform (env : Environment) (context : Context)
    (hassistant : ∀ message ∈ spoken context.messages, message.role ≠ .assistant →
      todoWrites message = [])
    (honce : ∀ message ∈ spoken context.messages, WritesOnce message)
    {calls : List ((ℕ → String) × List TodoItem)} (haccepted : ∀ call ∈ calls, Accepted call.2)
    (hcalls : calls.map Prod.snd = (spoken context.messages).flatMap todoWrites)
    (hkeeps : ∀ block ∈ (ContextSummary.ofContext context).messages, block.role = .assistant →
      KeepsTodos block.contents) :
    ∃ out, summaryTransformer env (ContextSummary.ofContext context) = some out ∧
      entries ((assistantChanges out.messages).foldl replayChange []) =
        entries (calls.foldl Metrics.afterCall .default).todos := by
  obtain ⟨out, hout⟩ := exists_transform env context
  refine ⟨out, hout, ?_⟩
  rw [(changesTold_transform_iff hout).mpr hkeeps, assistantChanges_eq]
  · exact replay_told context honce haccepted hcalls
  · intro p hp hrole
    rw [told_ofContext] at hp
    obtain ⟨q, hq, rfl⟩ := List.mem_map.mp hp
    rw [changesOf_markSuccess]
    exact changesOf_of_mem_narrate hassistant hq hrole

end Context

namespace WrittenTodos

/-- The call of the todo tool that the example makes. -/
def call : ToolCallFull where
  name := "todo_write"
  callId := some "call_1"
  arguments := .unparsed "\x7b\"todos\":[\x7b\"content\":\"tests\",\"status\":\"pending\"\x7d]\x7d"
  thoughtSignature := none

def item : TodoItem := { content := "tests", status := .pending }

/-- A reader that knows this call. -/
abbrev reader : ToolReader where
  tryFrom c := if c = call then some (.todoWrite [item]) else none

def context : Context :=
  { Context.default with
    messages :=
      [.from (.user "Add tests" none), .from (.assistant "" none none (some [call])),
        .from (.tool
          { name := "todo_write", callId := some "call_1",
            output := { isError := false, values := [] } })] }

def workspace : Environment where
  cwd := "/w"
  absolute := isAbsolute_w
  resolved := resolve_w

end WrittenTodos

open WrittenTodos in
theorem replay_transform_written :
    ∃ out, summaryTransformer workspace (@ContextSummary.ofContext reader context) = some out ∧
      entries ((assistantChanges out.messages).foldl replayChange []) =
        entries ([(fun _ => "id", [item])].foldl Metrics.afterCall .default).todos := by
  refine @replay_transform reader workspace context ?_ ?_ [(fun _ => "id", [item])] ?_ ?_ ?_
  · decide
  · decide
  · decide
  · rfl
  · decide

end HeliosLite
