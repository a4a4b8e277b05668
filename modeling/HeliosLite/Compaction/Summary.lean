import HeliosLite.Domain.Conversation
import Mathlib.Data.List.Induction

/-!
# The summary of a context

A context is summarised for compaction by what its messages say and by the tools that they call.
The messages of one role that follow each other make up a block, and a call of the todo tool is told
by the changes that it makes.

## Main definitions

* `ToolInput`, `ToolReader` — the input of a tool, and how it is read from a call
* `SummaryBlock`, `SummaryMessage`, `SummaryTool` — the summary
* `Summarizing` — the summary while the messages are gone through
* `ContextSummary.ofContext` — the summary of a context
* `narrate` — what the messages tell, one after the other

## Main results

* `told_ofContext` — the summary tells what the messages tell, in their order and with their roles
-/

namespace HeliosLite

/-! ### Tool calls -/

structure SearchQuery where
  query : String
  useCase : String
  deriving DecidableEq, Repr

/-- A todo as a call of the tool gives it; its content is the key. -/
structure TodoItem where
  content : String
  status : TodoStatus
  deriving DecidableEq, Repr

/-- The tools, with what a summary needs of their input. -/
inductive ToolInput where
  | read (filePath : String)
  | write (filePath : String)
  | patch (filePath : String)
  | multiPatch (filePath : String)
  | remove (path : String)
  | shell (command : String)
  | fsSearch (pattern : String) (glob fileType : Option String)
  | semSearch (queries : List SearchQuery)
  | undo (path : String)
  | fetch (url : String)
  | followup (question : String)
  | plan (planName : String)
  | skill (name : String)
  | todoWrite (todos : List TodoItem)
  | todoRead
  | task (agentId : String)
  deriving DecidableEq, Repr

/-- `ToolCatalog::try_from`, which fails on what is no call of a built-in tool. -/
class ToolReader where
  tryFrom : ToolCallFull → Option ToolInput

/-! ### Summaries -/

inductive TodoChangeKind where
  | added
  | updated
  | removed
  deriving DecidableEq, Repr

structure TodoChange where
  todo : Todo
  kind : TodoChangeKind
  deriving DecidableEq, Repr

inductive SummaryTool where
  | fileRead (path : String)
  | fileUpdate (path : String)
  | fileRemove (path : String)
  | shell (command : String)
  | search (pattern : String)
  | semSearch (queries : List SearchQuery)
  | undo (path : String)
  | fetch (url : String)
  | followup (question : String)
  | plan (planName : String)
  | skill (name : String)
  | task (agentId : String)
  | mcp (name : String)
  | todoWrite (changes : List TodoChange)
  | todoRead
  deriving DecidableEq, Repr

structure SummaryToolCall where
  id : Option String
  tool : SummaryTool
  isSuccess : Bool
  deriving DecidableEq, Repr

inductive SummaryMessage where
  | text (content : String)
  | toolCall (call : SummaryToolCall)
  deriving DecidableEq, Repr

structure SummaryBlock where
  role : Role
  contents : List SummaryMessage
  deriving DecidableEq, Repr

structure ContextSummary where
  messages : List SummaryBlock
  deriving DecidableEq, Repr

/-! ### Todos -/

/-- The first todo with the content gets the status. -/
def setStatus (content : String) (status : TodoStatus) : List Todo → List Todo
  | [] => []
  | todo :: todos =>
    if todo.content = content then { todo with status := status } :: todos
    else todo :: setStatus content status todos

/-- A cancelled item removes its todo, and another one sets the status of its todo or adds one. -/
def writeTodo (id : String) (todos : List Todo) (item : TodoItem) : List Todo :=
  if item.status = .cancelled then todos.filter (·.content ≠ item.content)
  else if todos.any (·.content = item.content) then setStatus item.content item.status todos
  else todos ++ [{ id := id, content := item.content, status := item.status }]

/-- What an item changes in some todos, of those with one content in the last. -/
def todoChange (before : List Todo) (item : TodoItem) : Option TodoChange :=
  let prev := before.reverse.find? (·.content = item.content)
  if item.status = .cancelled then
    prev.map fun prev => { todo := prev, kind := .removed }
  else
    match prev with
    | none =>
      some
        { todo := { id := "", content := item.content, status := item.status }
          kind := .added }
    | some prev =>
      if prev.status ≠ item.status then
        some
          { todo := { id := prev.id, content := item.content, status := item.status }
            kind := .updated }
      else none

def todoChanges (before : List Todo) (items : List TodoItem) : List TodoChange :=
  items.filterMap (todoChange before)

/-! ### The summary of a message -/

section Messages

variable [ToolReader]

/-- A tool that is not built in is one of a server. -/
def extractToolInfo (call : ToolCallFull) (currentTodos : List Todo) : SummaryTool :=
  match ToolReader.tryFrom call with
  | some (.read filePath) => .fileRead filePath
  | some (.write filePath) => .fileUpdate filePath
  | some (.patch filePath) => .fileUpdate filePath
  | some (.multiPatch filePath) => .fileUpdate filePath
  | some (.remove path) => .fileRemove path
  | some (.shell command) => .shell command
  | some (.fsSearch pattern glob fileType) => .search ((glob.or fileType).getD pattern)
  | some (.semSearch queries) => .semSearch queries
  | some (.undo path) => .undo path
  | some (.fetch url) => .fetch url
  | some (.followup question) => .followup question
  | some (.plan planName) => .plan planName
  | some (.skill name) => .skill name
  | some (.todoWrite todos) => .todoWrite (todoChanges currentTodos todos)
  | some .todoRead => .todoRead
  | some (.task agentId) => .task agentId
  | none => .mcp call.name

def extractSummaryMessages (message : TextMessage) (currentTodos : List Todo) :
    List SummaryMessage :=
  (if message.content = "" then [] else [.text message.content]) ++
    (message.toolCalls.getD []).map fun call =>
      .toolCall
        { id := call.callId, tool := extractToolInfo call currentTodos, isSuccess := false }

/-- The todos after a message. -/
def trackTodos (currentTodos : List Todo) (message : TextMessage) : List Todo :=
  (message.toolCalls.getD []).foldl
    (fun todos call =>
      match ToolReader.tryFrom call with
      | some (.todoWrite items) => items.foldl (writeTodo "") todos
      | _ => todos)
    currentTodos

/-! ### The summary of a context -/

/-- The finished blocks, the block that is being made, and what is known of results and todos. -/
structure Summarizing where
  messages : List SummaryBlock
  buffer : List SummaryMessage
  toolResults : List (String × ToolResult)
  currentRole : Role
  currentTodos : List Todo

namespace Summarizing

def start : Summarizing :=
  { messages := [], buffer := [], toolResults := [], currentRole := .system, currentTodos := [] }

/-- The blocks with the one that is being made, unless it is empty. -/
def flush (s : Summarizing) : List SummaryBlock :=
  if s.buffer.isEmpty then s.messages
  else s.messages ++ [{ role := s.currentRole, contents := s.buffer }]

/-- The block of another role is finished. -/
def turn (s : Summarizing) (role : Role) : Summarizing :=
  if s.currentRole = role then s
  else { s with messages := s.flush, buffer := [], currentRole := role }

/-- Messages of the system are skipped. -/
def message (s : Summarizing) : ContextMessage → Summarizing
  | .text message =>
    if message.role = .system then s
    else
      let s := s.turn message.role
      { s with
        buffer := s.buffer ++ extractSummaryMessages message s.currentTodos
        currentTodos := trackTodos s.currentTodos message }
  | .tool result =>
    match result.callId with
    | some callId => { s with toolResults := (callId, result) :: s.toolResults }
    | none => s
  | .image _ => s

end Summarizing

/-- A call succeeded if the last result with its id is no error. -/
def markSuccess (toolResults : List (String × ToolResult)) : SummaryMessage → SummaryMessage
  | .toolCall call =>
    match call.id.bind fun id => toolResults.lookup id with
    | some result => .toolCall { call with isSuccess := !result.output.isError }
    | none => .toolCall call
  | .text content => .text content

/-- The loop over the messages. -/
def summarize (messages : List MessageEntry) : Summarizing :=
  messages.foldl (fun s entry => s.message entry.message) .start

def ContextSummary.ofContext (context : Context) : ContextSummary :=
  let s := summarize context.messages
  { messages := s.flush.map fun block =>
      { block with contents := block.contents.map (markSuccess s.toolResults) } }

end Messages

/-! ### What a summary tells -/

/-- The contents of some blocks, each with its role. -/
def told (blocks : List SummaryBlock) : List (Role × SummaryMessage) :=
  blocks.flatMap fun block => block.contents.map (block.role, ·)

/-- The text messages that are not the system's. -/
def spoken (messages : List MessageEntry) : List TextMessage :=
  messages.filterMap fun entry =>
    match entry.message with
    | .text message => if message.role = .system then none else some message
    | _ => none

/-- The results with an id, the last one first. -/
def resultsOf (messages : List MessageEntry) : List (String × ToolResult) :=
  (messages.filterMap fun entry =>
    match entry.message with
    | .tool result => result.callId.map (·, result)
    | _ => none).reverse

/-- No block is empty or the system's. -/
def Filled (blocks : List SummaryBlock) : Prop :=
  ∀ block ∈ blocks, block.contents ≠ [] ∧ block.role ≠ .system

section Blocks

variable {s : Summarizing} {role : Role}

theorem told_flush (s : Summarizing) :
    told s.flush = told s.messages ++ s.buffer.map (s.currentRole, ·) := by
  unfold Summarizing.flush
  cases hbuffer : s.buffer with
  | nil => simp
  | cons message buffer => simp [told]

theorem Filled.flush (h : Filled s.messages) (hrole : s.buffer ≠ [] → s.currentRole ≠ .system) :
    Filled s.flush := by
  unfold Summarizing.flush
  split_ifs with hbuffer
  · exact h
  · rw [List.isEmpty_iff] at hbuffer
    intro block hblock
    rcases List.mem_append.mp hblock with hblock | hblock
    · exact h block hblock
    · rw [List.mem_singleton.mp hblock]
      exact ⟨hbuffer, hrole hbuffer⟩

namespace Summarizing

theorem turn_of_eq (h : s.currentRole = role) : s.turn role = s := if_pos h

theorem turn_of_ne (h : s.currentRole ≠ role) :
    s.turn role = { s with messages := s.flush, buffer := [], currentRole := role } := if_neg h

theorem currentRole_turn (s : Summarizing) (role : Role) : (s.turn role).currentRole = role := by
  by_cases h : s.currentRole = role
  · rw [turn_of_eq h, h]
  · rw [turn_of_ne h]

theorem currentTodos_turn (s : Summarizing) (role : Role) :
    (s.turn role).currentTodos = s.currentTodos := by
  unfold turn
  split_ifs <;> rfl

theorem toolResults_turn (s : Summarizing) (role : Role) :
    (s.turn role).toolResults = s.toolResults := by
  unfold turn
  split_ifs <;> rfl

/-- A turn tells nothing. -/
theorem told_turn (s : Summarizing) (role : Role) :
    told (s.turn role).messages ++ (s.turn role).buffer.map (role, ·) = told s.flush := by
  by_cases h : s.currentRole = role
  · rw [turn_of_eq h, told_flush, h]
  · rw [turn_of_ne h, List.map_nil, List.append_nil]

theorem filled_turn (h : Filled s.messages) (hrole : s.buffer ≠ [] → s.currentRole ≠ .system) :
    Filled (s.turn role).messages := by
  by_cases hturn : s.currentRole = role
  · rwa [turn_of_eq hturn]
  · rw [turn_of_ne hturn]
    exact h.flush hrole

end Summarizing

theorem told_markSuccess (results : List (String × ToolResult)) (blocks : List SummaryBlock) :
    told (blocks.map fun block =>
      { block with contents := block.contents.map (markSuccess results) }) =
      (told blocks).map fun p => (p.1, markSuccess results p.2) := by
  simp only [told, List.flatMap_map, List.map_flatMap, List.map_map]
  rfl

end Blocks

section Narration

variable [ToolReader] {s : Summarizing} {messages : List MessageEntry} {todos : List Todo}

/-- What some messages tell, where there are some todos before them. -/
def narrate : List Todo → List TextMessage → List (Role × SummaryMessage)
  | _, [] => []
  | todos, message :: messages =>
    (extractSummaryMessages message todos).map (message.role, ·) ++
      narrate (trackTodos todos message) messages

theorem narrate_concat (todos : List Todo) (messages : List TextMessage) (message : TextMessage) :
    narrate todos (messages ++ [message]) =
      narrate todos messages ++
        (extractSummaryMessages message (messages.foldl trackTodos todos)).map
          (message.role, ·) := by
  induction messages generalizing todos with
  | nil => exact List.append_nil _
  | cons first messages ih =>
    rw [List.cons_append, narrate, narrate, ih, List.append_assoc, List.foldl_cons]

/-- The blocks tell what the messages so far tell. -/
structure Summarizing.Tells (messages : List MessageEntry) (s : Summarizing) : Prop where
  told : told s.flush = narrate [] (spoken messages)
  todos : s.currentTodos = (spoken messages).foldl trackTodos []
  results : s.toolResults = resultsOf messages
  filled : Filled s.messages
  role : s.buffer ≠ [] → s.currentRole ≠ .system

theorem Summarizing.tells_start : Summarizing.start.Tells [] where
  told := rfl
  todos := rfl
  results := rfl
  filled _ hblock := absurd hblock List.not_mem_nil
  role h := absurd rfl h

theorem Summarizing.Tells.text (h : s.Tells messages) {entry : MessageEntry}
    {message : TextMessage} (hentry : entry.message = .text message)
    (hrole : message.role ≠ .system) :
    (s.message entry.message).Tells (messages ++ [entry]) := by
  have hspoken : spoken (messages ++ [entry]) = spoken messages ++ [message] := by
    simp [spoken, List.filterMap_append, hentry, hrole]
  have hresults : resultsOf (messages ++ [entry]) = resultsOf messages := by
    simp [resultsOf, List.filterMap_append, hentry]
  rw [hentry, Summarizing.message, if_neg hrole]
  constructor
  · rw [told_flush, List.map_append, ← List.append_assoc, s.currentRole_turn, s.told_turn, h.told,
      hspoken, narrate_concat, s.currentTodos_turn, h.todos]
  · rw [hspoken, List.foldl_append, ← h.todos]
    exact congrArg (trackTodos · message) (s.currentTodos_turn message.role)
  · rw [hresults, ← h.results, s.toolResults_turn]
  · exact filled_turn h.filled h.role
  · intro _
    rw [s.currentRole_turn]
    exact hrole

theorem Summarizing.Tells.step (h : s.Tells messages) (entry : MessageEntry) :
    (s.message entry.message).Tells (messages ++ [entry]) := by
  cases hentry : entry.message with
  | text message =>
    by_cases hrole : message.role = .system
    · have hspoken : spoken (messages ++ [entry]) = spoken messages := by
        simp [spoken, List.filterMap_append, hentry, hrole]
      have hresults : resultsOf (messages ++ [entry]) = resultsOf messages := by
        simp [resultsOf, List.filterMap_append, hentry]
      rw [Summarizing.message, if_pos hrole]
      exact ⟨by rw [hspoken, h.told], by rw [hspoken, h.todos], by rw [hresults, h.results],
        h.filled, h.role⟩
    · rw [← hentry]
      exact h.text hentry hrole
  | tool result =>
    have hspoken : spoken (messages ++ [entry]) = spoken messages := by
      simp [spoken, List.filterMap_append, hentry]
    have hresults : resultsOf (messages ++ [entry]) =
        (result.callId.map (·, result)).toList ++ resultsOf messages := by
      cases hid : result.callId <;> simp [resultsOf, List.filterMap_append, hentry, hid]
    rw [Summarizing.message]
    cases hid : result.callId with
    | none =>
      rw [hid] at hresults
      exact ⟨by rw [hspoken, h.told], by rw [hspoken, h.todos], by rw [hresults, h.results]; rfl,
        h.filled, h.role⟩
    | some callId =>
      rw [hid] at hresults
      refine ⟨?_, by rw [hspoken, h.todos], by rw [hresults, h.results]; rfl, h.filled, h.role⟩
      rw [hspoken, ← h.told]
      rfl
  | image image =>
    have hspoken : spoken (messages ++ [entry]) = spoken messages := by
      simp [spoken, List.filterMap_append, hentry]
    have hresults : resultsOf (messages ++ [entry]) = resultsOf messages := by
      simp [resultsOf, List.filterMap_append, hentry]
    exact ⟨by rw [hspoken]; exact h.told, by rw [hspoken]; exact h.todos,
      by rw [hresults]; exact h.results, h.filled, h.role⟩

theorem tells_summarize (messages : List MessageEntry) : (summarize messages).Tells messages := by
  induction messages using List.reverseRecOn with
  | nil => exact Summarizing.tells_start
  | append_singleton messages entry ih =>
    rw [summarize, List.foldl_append]
    exact ih.step entry

/-- The summary tells what the messages tell, each call with the outcome of its last result. -/
theorem told_ofContext (context : Context) :
    told (ContextSummary.ofContext context).messages =
      (narrate [] (spoken context.messages)).map fun p =>
        (p.1, markSuccess (resultsOf context.messages) p.2) := by
  have h := tells_summarize context.messages
  rw [← h.told, ← h.results, ← told_markSuccess]
  rfl

theorem filled_ofContext (context : Context) :
    Filled (ContextSummary.ofContext context).messages := by
  have h := tells_summarize context.messages
  intro block hblock
  obtain ⟨before, hbefore, rfl⟩ := List.mem_map.mp hblock
  obtain ⟨hcontents, hrole⟩ := h.filled.flush h.role before hbefore
  refine ⟨?_, hrole⟩
  simpa using hcontents

/-- The summary of some messages tells what they tell, and has no empty blocks. -/
structure SummaryTells (messages : List MessageEntry) (summary : ContextSummary) : Prop where
  told : told summary.messages =
    (narrate [] (spoken messages)).map fun p => (p.1, markSuccess (resultsOf messages) p.2)
  filled : Filled summary.messages

theorem ofContext_tells (context : Context) :
    SummaryTells context.messages (ContextSummary.ofContext context) where
  told := told_ofContext context
  filled := filled_ofContext context

end Narration

end HeliosLite
