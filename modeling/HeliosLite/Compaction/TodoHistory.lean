import HeliosLite.Compaction.Summary
import HeliosLite.Hooks.PendingTodos
import HeliosLite.Orchestration.ToolCalls
import HeliosLite.Theory.Entries

/-!
# The todos that a summary tells

The session keeps the todos that the calls of the tool have written. A summary has only the changes:
each call is told by the difference that it makes to the todos before its message. Made one after
the other, the changes of a summary lead to the todos of the session, up to the ids, if no message
writes one todo twice and no call is refused.

## Main definitions

* `Metrics.applyTodoChanges` — a call of the tool in the session
* `writeEntry` — what an item does to the contents and their status
* `replayChange` — a change that is made
* `WritesOnce` — a message does not write one todo twice

## Main results

* `entries_replay_todoChanges` — the changes of some items do what the items do
* `replay_told` — the changes of a summary lead to the todos of the session
-/

namespace HeliosLite

open Theory

/-! ### Todos as entries -/

/-- The contents of some todos, each with its status. -/
def entries (todos : List Todo) : List (String × TodoStatus) :=
  todos.map fun todo => (todo.content, todo.status)

/-- The contents are different. -/
def Distinct (todos : List Todo) : Prop := ((entries todos).map Prod.fst).Nodup

/-- A cancelled item takes its content out, and another one puts it in. -/
def writeEntry (map : List (String × TodoStatus)) (item : TodoItem) : List (String × TodoStatus) :=
  if item.status = .cancelled then removeEntry map item.content
  else insertEntry map item.content item.status

section Todos

variable {todos before : List Todo} {content : String} {status : TodoStatus} {item : TodoItem}
  {items : List TodoItem}

theorem entries_cons (todo : Todo) (todos : List Todo) :
    entries (todo :: todos) = (todo.content, todo.status) :: entries todos := rfl

theorem entries_append (todos others : List Todo) :
    entries (todos ++ others) = entries todos ++ entries others := List.map_append

theorem entries_filter (todos : List Todo) (content : String) :
    entries (todos.filter (·.content ≠ content)) = removeEntry (entries todos) content := by
  rw [entries, entries, removeEntry, List.filter_map]
  rfl

theorem any_content (todos : List Todo) (content : String) :
    todos.any (·.content = content) = hasEntry (entries todos) content := by
  induction todos with
  | nil => rfl
  | cons todo todos ih =>
    rw [List.any_cons, ih, hasEntry, hasEntry, entries_cons, List.lookup_cons]
    by_cases h : content = todo.content
    · simp [h]
    · rw [beq_false_of_ne h, decide_eq_false (Ne.symm h), Bool.false_or]

theorem entries_setStatus (h : hasEntry (entries todos) content) :
    entries (setStatus content status todos) = insertEntry (entries todos) content status := by
  induction todos with
  | nil => exact absurd h Bool.false_ne_true
  | cons todo todos ih =>
    rw [setStatus, entries_cons, insertEntry]
    split_ifs with heq
    · rw [entries_cons, heq]
    · rw [hasEntry, entries_cons, List.lookup_cons, beq_false_of_ne (Ne.symm heq)] at h
      rw [entries_cons, ih h]

/-- The id of a todo does not matter for what is written. -/
theorem entries_writeTodo (id : String) (todos : List Todo) (item : TodoItem) :
    entries (writeTodo id todos item) = writeEntry (entries todos) item := by
  unfold writeTodo writeEntry
  split_ifs with hcancelled hany
  · exact entries_filter todos item.content
  · rw [any_content] at hany
    exact entries_setStatus hany
  · rw [any_content, Bool.not_eq_true, hasEntry_eq_false_iff] at hany
    rw [entries_append, insertEntry_of_lookup_none hany]
    rfl

theorem entries_foldl_writeTodo (todos : List Todo) (items : List TodoItem) :
    entries (items.foldl (writeTodo "") todos) = items.foldl writeEntry (entries todos) := by
  induction items generalizing todos with
  | nil => rfl
  | cons item items ih => rw [List.foldl_cons, List.foldl_cons, ih, entries_writeTodo]

theorem nodup_writeEntry {map : List (String × TodoStatus)} (h : (map.map Prod.fst).Nodup)
    (item : TodoItem) : ((writeEntry map item).map Prod.fst).Nodup := by
  unfold writeEntry
  split_ifs
  · exact nodup_removeEntry h
  · exact nodup_insertEntry h

theorem nodup_foldl_writeEntry {map : List (String × TodoStatus)} (h : (map.map Prod.fst).Nodup)
    (items : List TodoItem) : ((items.foldl writeEntry map).map Prod.fst).Nodup := by
  induction items generalizing map with
  | nil => exact h
  | cons item items ih => exact ih (nodup_writeEntry h item)

theorem lookup_writeEntry_of_ne {map : List (String × TodoStatus)} (h : content ≠ item.content) :
    (writeEntry map item).lookup content = map.lookup content := by
  unfold writeEntry
  split_ifs
  · rw [lookup_removeEntry, if_neg h]
  · exact lookup_insertEntry_of_ne h

/-! ### Changes that are made -/

/-- The todos after a change. -/
def replayChange (todos : List Todo) (change : TodoChange) : List Todo :=
  match change.kind with
  | .added => todos ++ [change.todo]
  | .updated =>
    todos.map fun todo =>
      if todo.content = change.todo.content then { todo with status := change.todo.status }
      else todo
  | .removed => todos.filter (·.content ≠ change.todo.content)

theorem lookup_eq_find (h : Distinct todos) (content : String) :
    (entries todos).lookup content =
      (todos.reverse.find? (·.content = content)).map (·.status) := by
  cases hfind : todos.reverse.find? (·.content = content) with
  | none =>
    have hnone : ∀ todo ∈ todos, todo.content ≠ content := by simpa using hfind
    refine lookup_of_notMem_keys fun hmem => ?_
    obtain ⟨entry, hentry, rfl⟩ := List.mem_map.mp hmem
    obtain ⟨todo, htodo, rfl⟩ := List.mem_map.mp hentry
    exact hnone todo htodo rfl
  | some todo =>
    have hmem : todo ∈ todos := List.mem_reverse.mp (List.mem_of_find?_eq_some hfind)
    have hcontent : todo.content = content := by simpa using List.find?_some hfind
    exact lookup_of_mem h (List.mem_map.mpr ⟨todo, hmem, by rw [hcontent]⟩)

theorem entries_updated (todos : List Todo) (content : String) (status : TodoStatus) :
    entries (todos.map fun todo =>
      if todo.content = content then { todo with status := status } else todo) =
      (entries todos).map fun entry =>
        if entry.1 = content then (content, status) else entry := by
  rw [entries, entries, List.map_map, List.map_map]
  refine List.map_congr_left fun todo _ => ?_
  by_cases h : todo.content = content
  · simp [h]
  · simp [h]

/-- The change of an item does what the item does, where its content has the same status. -/
theorem entries_replay_todoChange (hbefore : Distinct before) (htodos : Distinct todos)
    (hsame : (entries todos).lookup item.content = (entries before).lookup item.content) :
    entries ((todoChange before item).toList.foldl replayChange todos) =
      writeEntry (entries todos) item := by
  rw [lookup_eq_find hbefore] at hsame
  unfold todoChange writeEntry
  cases hprev : before.reverse.find? (·.content = item.content) with
  | none =>
    rw [hprev] at hsame
    split_ifs with hcancelled
    · exact (removeEntry_of_lookup hsame).symm
    · rw [insertEntry_of_lookup_none hsame]
      exact entries_append todos _
  | some prev =>
    rw [hprev, Option.map_some] at hsame
    have hcontent : prev.content = item.content := by simpa using List.find?_some hprev
    split_ifs with hcancelled
    · rw [← hcontent]
      exact entries_filter todos prev.content
    · by_cases hstatus : prev.status = item.status
      · -- nothing is told, and nothing changes
        rw [hstatus] at hsame
        simp only [hstatus, ne_eq, not_true_eq_false, if_false]
        exact (insertEntry_of_lookup hsame).symm
      · simp only [ne_eq, hstatus, not_false_eq_true, if_true]
        rw [← map_eq_insertEntry htodos (by rw [hsame]; exact Option.some_ne_none _)]
        exact entries_updated todos item.content item.status

/-- The changes of different items do what the items do. -/
theorem entries_replay_todoChanges (hbefore : Distinct before) (htodos : Distinct todos)
    (hitems : (items.map (·.content)).Nodup)
    (hsame : ∀ item ∈ items,
      (entries todos).lookup item.content = (entries before).lookup item.content) :
    entries ((todoChanges before items).foldl replayChange todos) =
      items.foldl writeEntry (entries todos) := by
  induction items generalizing todos with
  | nil => rfl
  | cons item items ih =>
    obtain ⟨hnew, hitems⟩ := List.nodup_cons.mp hitems
    have hchanges : todoChanges before (item :: items) =
        (todoChange before item).toList ++ todoChanges before items := by
      rw [todoChanges, List.filterMap_cons]
      cases todoChange before item <;> rfl
    have hitem := entries_replay_todoChange hbefore htodos (hsame item List.mem_cons_self)
    rw [hchanges, List.foldl_append, List.foldl_cons, ← hitem]
    refine ih ?_ hitems fun other hother => ?_
    · rw [Distinct, hitem]
      exact nodup_writeEntry htodos item
    · have hne : other.content ≠ item.content := fun heq =>
        hnew (List.mem_map.mpr ⟨other, hother, heq⟩)
      rw [hitem, lookup_writeEntry_of_ne hne]
      exact hsame other (List.mem_cons_of_mem item hother)

theorem distinct_foldl_writeTodo (h : Distinct todos) (items : List TodoItem) :
    Distinct (items.foldl (writeTodo "") todos) := by
  rw [Distinct, entries_foldl_writeTodo]
  exact nodup_foldl_writeEntry h items

end Todos

/-! ### The session -/

/-- A todo is refused if its content is empty or has more than 1000 bytes. -/
def checkTodo (item : TodoItem) : Except String Unit :=
  if trim item.content = "" then .error "Todo content cannot be empty"
  else if 1000 < item.content.utf8ByteSize then
    .error "Todo content exceeds maximum length of 1000 characters"
  else .ok ()

namespace Metrics

/-- All items are checked before the first is written; `ids` are the ids that are generated. -/
def applyTodoChanges (ids : ℕ → String) (self : Metrics) (changes : List TodoItem) :
    Except String (Metrics × List Todo) := do
  changes.forM checkTodo
  let self := { self with
    todos := changes.zipIdx.foldl (fun todos p => writeTodo (ids p.2) todos p.1) self.todos }
  return (self, self.getActiveTodos)

/-- The session after a call of the tool. -/
def afterCall (self : Metrics) (call : (ℕ → String) × List TodoItem) : Metrics :=
  match self.applyTodoChanges call.1 call.2 with
  | .ok (after, _) => after
  | .error _ => self

end Metrics

section Session

variable {self : Metrics} {ids : ℕ → String} {changes : List TodoItem}

theorem entries_foldl_zipIdx (ids : ℕ → String) (todos : List Todo) (items : List TodoItem)
    (n : ℕ) :
    entries ((items.zipIdx n).foldl (fun todos p => writeTodo (ids p.2) todos p.1) todos) =
      items.foldl writeEntry (entries todos) := by
  induction items generalizing todos n with
  | nil => rfl
  | cons item items ih =>
    rw [List.zipIdx_cons, List.foldl_cons, List.foldl_cons, ih, entries_writeTodo]

/-- No item of a call is refused. -/
def Accepted (changes : List TodoItem) : Prop := changes.forM checkTodo = .ok ()

instance : Decidable (Accepted changes) :=
  match h : changes.forM checkTodo with
  | .ok () => .isTrue h
  | .error e => .isFalse fun hok => by cases h.symm.trans hok

theorem entries_afterCall (h : Accepted changes) :
    entries (self.afterCall (ids, changes)).todos =
      changes.foldl writeEntry (entries self.todos) := by
  rw [Metrics.afterCall, Metrics.applyTodoChanges, h]
  exact entries_foldl_zipIdx ids self.todos changes 0

theorem entries_foldl_afterCall {calls : List ((ℕ → String) × List TodoItem)}
    (h : ∀ call ∈ calls, Accepted call.2) :
    entries (calls.foldl Metrics.afterCall self).todos =
      (calls.flatMap Prod.snd).foldl writeEntry (entries self.todos) := by
  induction calls generalizing self with
  | nil => rfl
  | cons call calls ih =>
    rw [List.forall_mem_cons] at h
    rw [List.foldl_cons, ih h.2, entries_afterCall h.1, List.flatMap_cons, List.foldl_append]

end Session

/-! ### The changes of a summary -/

/-- The changes that a content tells. -/
def changesOf : SummaryMessage → List TodoChange
  | .toolCall { tool := .todoWrite changes, .. } => changes
  | _ => []

def changesTold (messages : List (Role × SummaryMessage)) : List TodoChange :=
  messages.flatMap fun p => changesOf p.2

theorem changesTold_append (before after : List (Role × SummaryMessage)) :
    changesTold (before ++ after) = changesTold before ++ changesTold after :=
  List.flatMap_append

/-- The outcome of a call does not matter for its changes. -/
theorem changesOf_markSuccess (results : List (String × ToolResult)) (message : SummaryMessage) :
    changesOf (markSuccess results message) = changesOf message := by
  cases message with
  | text content => rfl
  | toolCall call =>
    obtain ⟨id, tool, isSuccess⟩ := call
    rw [markSuccess]
    split
    · cases tool <;> rfl
    · rfl

theorem changesTold_markSuccess (results : List (String × ToolResult))
    (messages : List (Role × SummaryMessage)) :
    changesTold (messages.map fun p => (p.1, markSuccess results p.2)) = changesTold messages := by
  rw [changesTold, changesTold, List.flatMap_map]
  exact congrArg (messages.flatMap ·) (funext fun p => changesOf_markSuccess results p.2)

section Summary

variable [ToolReader] {todos current : List Todo} {message : TextMessage}
  {messages : List TextMessage}

/-- What a call of the tool writes. -/
def todoWrite (call : ToolCallFull) : Option (List TodoItem) :=
  match ToolReader.tryFrom call with
  | some (.todoWrite items) => some items
  | _ => none

/-- What the calls of a message write, call by call. -/
def todoWrites (message : TextMessage) : List (List TodoItem) :=
  (message.toolCalls.getD []).filterMap todoWrite

/-- A message does not write one todo twice. -/
def WritesOnce (message : TextMessage) : Prop :=
  ((todoWrites message).flatten.map (·.content)).Nodup

instance : Decidable (WritesOnce message) :=
  inferInstanceAs (Decidable ((todoWrites message).flatten.map (·.content)).Nodup)

theorem trackTodos_eq (todos : List Todo) (message : TextMessage) :
    trackTodos todos message = (todoWrites message).flatten.foldl (writeTodo "") todos := by
  rw [trackTodos, todoWrites]
  induction message.toolCalls.getD [] generalizing todos with
  | nil => rfl
  | cons call calls ih =>
    rw [List.foldl_cons, ih, List.filterMap_cons]
    -- only a call of the todo tool writes something
    cases hcall : ToolReader.tryFrom call with
    | none => simp [todoWrite, hcall]
    | some input => cases input <;> simp [todoWrite, hcall, List.foldl_append]

/-- A call tells the changes that what it writes makes to the todos before its message. -/
theorem changesOf_toolCall (todos : List Todo) (call : ToolCallFull) :
    changesOf
      (.toolCall
        { id := call.callId, tool := extractToolInfo call todos, isSuccess := false }) =
      todoChanges todos ((todoWrite call).getD []) := by
  rw [todoWrite]
  cases hcall : ToolReader.tryFrom call with
  | none => simp [extractToolInfo, hcall, changesOf, todoChanges]
  | some input => cases input <;> simp [extractToolInfo, hcall, changesOf, todoChanges]

theorem changesTold_extract (todos : List Todo) (message : TextMessage) :
    changesTold ((extractSummaryMessages message todos).map (message.role, ·)) =
      todoChanges todos (todoWrites message).flatten := by
  have htext : changesTold ((if message.content = "" then [] else
      [SummaryMessage.text message.content]).map (message.role, ·)) = [] := by
    split_ifs <;> rfl
  rw [extractSummaryMessages, List.map_append, changesTold_append, htext, List.nil_append,
    todoWrites]
  induction message.toolCalls.getD [] with
  | nil => rfl
  | cons call calls ih =>
    rw [List.map_cons, List.map_cons, changesTold, List.flatMap_cons, changesOf_toolCall,
      List.filterMap_cons]
    rw [changesTold] at ih
    rw [ih]
    cases todoWrite call with
    | none => rfl
    | some items => exact List.filterMap_append.symm

/-- The changes that some messages tell, made to todos like those before them. -/
theorem entries_replay_narrate (htodos : Distinct todos) (hsame : entries current = entries todos)
    (hmessages : ∀ message ∈ messages, WritesOnce message) :
    entries ((changesTold (narrate todos messages)).foldl replayChange current) =
      (messages.flatMap fun message => (todoWrites message).flatten).foldl writeEntry
        (entries todos) := by
  induction messages generalizing todos current with
  | nil => exact hsame
  | cons message messages ih =>
    rw [List.forall_mem_cons] at hmessages
    have hcurrent : Distinct current := by rwa [Distinct, hsame]
    have hstep : entries ((todoChanges todos (todoWrites message).flatten).foldl replayChange
        current) = entries (trackTodos todos message) := by
      rw [trackTodos_eq, entries_foldl_writeTodo, ← hsame]
      exact entries_replay_todoChanges htodos hcurrent hmessages.1 fun item _ => by rw [hsame]
    have htracked : Distinct (trackTodos todos message) := by
      rw [trackTodos_eq]
      exact distinct_foldl_writeTodo htodos _
    rw [narrate, changesTold_append, changesTold_extract, List.foldl_append,
      ih htracked hstep hmessages.2, trackTodos_eq, entries_foldl_writeTodo, List.flatMap_cons,
      List.foldl_append]

/-- The changes of a summary, made one after the other, lead to the todos of the session. -/
theorem replay_told (context : Context)
    (honce : ∀ message ∈ spoken context.messages, WritesOnce message)
    {calls : List ((ℕ → String) × List TodoItem)} (haccepted : ∀ call ∈ calls, Accepted call.2)
    (hcalls : calls.map Prod.snd = (spoken context.messages).flatMap todoWrites) :
    entries ((changesTold (told (ContextSummary.ofContext context).messages)).foldl
      replayChange []) = entries (calls.foldl Metrics.afterCall .default).todos := by
  have hwritten : calls.flatMap Prod.snd =
      (spoken context.messages).flatMap fun message => (todoWrites message).flatten := by
    rw [List.flatMap_def, hcalls, ← List.flatMap_id, List.flatMap_assoc]
    simp only [List.flatMap_id]
  have hnone : Distinct [] := List.nodup_nil
  rw [told_ofContext, changesTold_markSuccess, entries_replay_narrate hnone rfl honce,
    entries_foldl_afterCall haccepted, hwritten]
  rfl

end Summary

end HeliosLite
