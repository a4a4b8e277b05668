import Mathlib.Data.Finset.Max
import HeliosLite.Domain.Conversation
import HeliosLite.Theory.Lines
import HeliosLite.Theory.Occurrence

/-!
# The reminder of pending todos

When a task ends with todos that are still active, a reminder that lists them is added to the
conversation, and the task goes on. To not repeat itself the handler reads the todos back from
the text of the last reminder. The text went through an HTML escape, and the list is read line
by line, so that not every todo is read back as it was.

## Main definitions

* `Element` — a markup element, with its text escaped
* `listedTodos` — the todos that are read from a reminder
* `PendingTodosHandler.handle` — the handler of the end of a task
* `ReadBack` — a text that is read back from the reminder that lists it

## Main results

* `listedTodos_reminder_iff` — a reminder lists the todos as they are exactly when each of them
  is read back
* `handle_settles_iff` — when the handler adds at most one reminder
-/

namespace HeliosLite

open Theory

/-- A todo as it is rendered. -/
structure TodoReminderItem where
  status : String
  content : String
  deriving DecidableEq

/-- A character of a text in an HTML document. -/
def escaped : Char → List Char
  | '&' => "&amp;".toList
  | '<' => "&lt;".toList
  | '>' => "&gt;".toList
  | c => [c]

/-- The line of a todo in the reminder. -/
def TodoReminderItem.line (item : TodoReminderItem) : List Char :=
  "- [".toList ++ item.status.toList ++ "] ".toList ++ item.content.toList

/-- What the reminder opens with. -/
def preamble : List Char :=
  "You have pending todo items that must be completed before finishing the task:".toList

/-- What the reminder ends with. -/
def closing : List Char := "Please complete all pending items before finishing.".toList

/-- The libraries that the reminder is written with: a template engine, which renders
`forge-pending-todos-reminder.md` with its lines as they are and one line for each todo, and an
escape of texts in HTML documents. -/
class ReminderText where
  render : List TodoReminderItem → String
  encodeText : String → String
  toList_render : ∀ todos, (render todos).toList =
    unlines '\n' (preamble :: [] :: todos.map (·.line) ++ [[]]) ++ closing
  toList_encodeText : ∀ text, (encodeText text).toList = text.toList.flatMap escaped

/-- A markup element. -/
inductive Element where
  | mk (name : String) (attr : List (String × String)) (children : List Element)
    (text : Option String)

namespace Element

/-- An element with the name, and the classes that follow it after dots. -/
def new (nameWithClasses : String) : Element :=
  let parts := (nameWithClasses.toList.splitOn '.').map String.ofList
  let attr := if 1 < parts.length then [("class", " ".intercalate parts.tail)] else []
  .mk (parts.head?.getD "") attr [] none

/-- The element with the text in it. -/
def text [ReminderText] (self : Element) (text : String) : Element :=
  match self with
  | .mk name attr children _ => .mk name attr children (some (ReminderText.encodeText text))

mutual

/-- The element as it is written. -/
def render : Element → String
  | .mk name attr children text =>
    let opening :=
      if attr.isEmpty then "<" ++ name ++ ">"
      else "<" ++ name ++ String.join (attr.map fun (key, value) =>
        "\n  " ++ key ++ "=\"" ++ value ++ "\"") ++ "\n>"
    let closing :=
      if children.isEmpty && attr.isEmpty then "</" ++ name ++ ">" else "\n</" ++ name ++ ">"
    opening ++ text.getD "" ++ renderAll children ++ closing

/-- Elements one below the other. -/
def renderAll : List Element → String
  | [] => ""
  | child :: children => "\n" ++ render child ++ renderAll children

end

end Element

/-- The content of a text message. -/
def ContextMessage.content : ContextMessage → Option String
  | .text message => some message.content
  | .tool _ => none
  | .image _ => none

/-- The todos that are pending or in progress. -/
def Metrics.getActiveTodos (self : Metrics) : List Todo :=
  self.todos.filter fun todo => todo.status = .pending ∨ todo.status = .inProgress

/-- Whether a line of a reminder is that of a todo. -/
def isTodoLine (line : List Char) : Bool := "- [".toList <+: line

/-- What a line of a reminder says after `- [STATUS] `. -/
def listedTodo (line : List Char) : String :=
  match splitFirst "] ".toList line with
  | some (_, content) => String.ofList content
  | none => ""

/-- The todos that a reminder lists. -/
def listedTodos (content : String) : Finset String :=
  ((((lines '\n' content.toList).map stripReturn).filter isTodoLine).map listedTodo).toFinset

/-- The todos of the last reminder, which is known by its opening words. -/
def lastReminderTodos (messages : List MessageEntry) : Option (Finset String) :=
  messages.reverse.findSome? fun entry =>
    match entry.message.content with
    | some content =>
      if "You have pending todo items".toList <:+: content.toList then some (listedTodos content)
      else none
    | none => none

namespace PendingTodosHandler

/-- The contents of the active todos. -/
def currentTodoSet (conversation : Conversation) : Finset String :=
  (conversation.metrics.getActiveTodos.map (·.content)).toFinset

def shouldAddReminder (conversation : Conversation) : Bool :=
  match conversation.context with
  | some context =>
    match lastReminderTodos context.messages with
    | some lastTodos => lastTodos ≠ currentTodoSet conversation
    | none => true
  | none => true

def todoItem (todo : Todo) : Option TodoReminderItem :=
  match todo.status with
  | .pending => some { status := "PENDING", content := todo.content }
  | .inProgress => some { status := "IN_PROGRESS", content := todo.content }
  | _ => none

variable [ReminderText]

/-- The content of the message that reminds of the todos. -/
def reminder (todos : List Todo) : String :=
  ((Element.new "system_reminder").text
    (ReminderText.render (todos.filterMap todoItem))).render

/-- The handler of the end of a task. -/
def handle (conversation : Conversation) : Conversation :=
  let pendingTodos := conversation.metrics.getActiveTodos
  if pendingTodos.isEmpty then conversation
  else if !shouldAddReminder conversation then conversation
  else
    match conversation.context with
    | some context =>
      { conversation with
        context := some (context.addMessage (.user (reminder pendingTodos) none)) }
    | none => conversation

end PendingTodosHandler

/-- The text comes back when it is read from a reminder that lists it: it is one line without
characters that are escaped and without a carriage return at its end. -/
def ReadBack (content : String) : Prop :=
  (∀ c ∈ content.toList, c ≠ '&' ∧ c ≠ '<' ∧ c ≠ '>' ∧ c ≠ '\n') ∧
    content.toList.getLast? ≠ some '\r'

/-! ### The text of the reminder -/

theorem escaped_of_ne {c : Char} (h : c ≠ '&' ∧ c ≠ '<' ∧ c ≠ '>') : escaped c = [c] := by
  unfold escaped
  split
  · exact absurd rfl h.1
  · exact absurd rfl h.2.1
  · exact absurd rfl h.2.2
  · rfl

theorem flatMap_escaped_of_ne {text : List Char}
    (h : ∀ c ∈ text, c ≠ '&' ∧ c ≠ '<' ∧ c ≠ '>') : text.flatMap escaped = text := by
  induction text with
  | nil => rfl
  | cons c text ih =>
    rw [List.flatMap_cons, escaped_of_ne (h c List.mem_cons_self),
      ih fun d hd => h d (List.mem_cons_of_mem c hd)]
    rfl

theorem newline_mem_flatMap_escaped {text : List Char} :
    '\n' ∈ text.flatMap escaped ↔ '\n' ∈ text := by
  have hescaped : ∀ c, '\n' ∈ escaped c ↔ '\n' = c := by
    intro c
    unfold escaped
    split <;> simp
  simp only [List.mem_flatMap, hescaped]
  exact ⟨fun ⟨c, hc, heq⟩ => heq ▸ hc, fun h => ⟨_, h, rfl⟩⟩

/-- The line of a todo after the escape. -/
def TodoReminderItem.escapedLine (item : TodoReminderItem) : List Char :=
  item.line.flatMap escaped

theorem flatMap_escaped_unlines (ls : List (List Char)) :
    (unlines '\n' ls).flatMap escaped = unlines '\n' (ls.map (·.flatMap escaped)) := by
  induction ls with
  | nil => rfl
  | cons l ls ih =>
    have hnewline : escaped '\n' = ['\n'] := rfl
    rw [unlines_cons, List.flatMap_append, List.flatMap_cons, ih, List.map_cons, unlines_cons,
      hnewline]
    rfl

theorem plain_preamble :
    ∀ c ∈ preamble, (c ≠ '&' ∧ c ≠ '<' ∧ c ≠ '>') ∧ c ≠ '\n' :=
  List.forall_iff_forall_mem.mp (by decide +kernel)

theorem flatMap_escaped_preamble : preamble.flatMap escaped = preamble :=
  flatMap_escaped_of_ne fun c hc => (plain_preamble c hc).1

theorem flatMap_escaped_closing : closing.flatMap escaped = closing :=
  flatMap_escaped_of_ne (List.forall_iff_forall_mem.mp (by decide +kernel))

namespace PendingTodosHandler

/-- An item with its status as the handler writes it. -/
theorem exists_status_of_mem {todos : List Todo} {item : TodoReminderItem}
    (h : item ∈ todos.filterMap todoItem) :
    item.status = "PENDING" ∨ item.status = "IN_PROGRESS" := by
  obtain ⟨todo, -, htodo⟩ := List.mem_filterMap.mp h
  unfold todoItem at htodo
  split at htodo
  · exact Or.inl (congrArg (·.status) (Option.some.inj htodo)).symm
  · exact Or.inr (congrArg (·.status) (Option.some.inj htodo)).symm
  · cases htodo

/-- What stands before the content in the line of a todo. -/
def lineHead (status : String) : List Char := "- [".toList ++ status.toList ++ "] ".toList

theorem lineHead_spec {status : String} (h : status = "PENDING" ∨ status = "IN_PROGRESS") :
    (∀ c ∈ lineHead status, (c ≠ '&' ∧ c ≠ '<' ∧ c ≠ '>') ∧ c ≠ '\n') ∧
      (lineHead status).getLast? ≠ some '\r' ∧ "- [".toList <+: lineHead status ∧
      ∀ content, listedTodo (lineHead status ++ content) = String.ofList content := by
  rcases h with rfl | rfl
  · exact ⟨List.forall_iff_forall_mem.mp (by decide), by decide, by decide, fun content => rfl⟩
  · exact ⟨List.forall_iff_forall_mem.mp (by decide), by decide, by decide, fun content => rfl⟩

theorem escapedLine_of_mem {todos : List Todo} {item : TodoReminderItem}
    (h : item ∈ todos.filterMap todoItem) :
    item.escapedLine = lineHead item.status ++ item.content.toList.flatMap escaped := by
  have hhead := (lineHead_spec (exists_status_of_mem h)).1
  have hline : item.line = lineHead item.status ++ item.content.toList := rfl
  rw [TodoReminderItem.escapedLine, hline, List.flatMap_append,
    flatMap_escaped_of_ne fun c hc => (hhead c hc).1]

/-- The lines of the todos are found, without a carriage return at the end of the content. -/
theorem filter_escapedLines (todos : List Todo) :
    (((todos.filterMap todoItem).map (·.escapedLine)).map stripReturn).filter isTodoLine =
      (todos.filterMap todoItem).map fun item => lineHead item.status ++
        stripReturn (item.content.toList.flatMap escaped) := by
  have hstrip : ∀ item ∈ todos.filterMap todoItem,
      (stripReturn ∘ (·.escapedLine)) item = lineHead item.status ++
        stripReturn (item.content.toList.flatMap escaped) := by
    intro item hitem
    rw [Function.comp_apply, escapedLine_of_mem hitem,
      stripReturn_append (lineHead_spec (exists_status_of_mem hitem)).2.1]
  rw [List.map_map, List.map_congr_left hstrip, List.filter_eq_self]
  intro line hline
  obtain ⟨item, hitem, rfl⟩ := List.mem_map.mp hline
  have hinitial := (lineHead_spec (exists_status_of_mem hitem)).2.2.1
  exact decide_eq_true (hinitial.trans (List.prefix_append _ _))

theorem newline_notMem_escapedLine {todos : List Todo} {item : TodoReminderItem}
    (hitem : item ∈ todos.filterMap todoItem) (h : '\n' ∉ item.content.toList) :
    '\n' ∉ item.escapedLine := by
  rw [escapedLine_of_mem hitem, List.mem_append, newline_mem_flatMap_escaped, not_or]
  exact ⟨fun hhead => ((lineHead_spec (exists_status_of_mem hitem)).1 _ hhead).2 rfl, h⟩

/-- The contents of the items are those of the todos, if these are active. -/
theorem map_content_todoItem {todos : List Todo}
    (h : ∀ todo ∈ todos, todo.status = .pending ∨ todo.status = .inProgress) :
    (todos.filterMap todoItem).map (·.content) = todos.map (·.content) := by
  induction todos with
  | nil => rfl
  | cons todo todos ih =>
    have hrest := ih fun other hother => h other (List.mem_cons_of_mem _ hother)
    have htodo : (todoItem todo).map (·.content) = some todo.content := by
      rcases h todo List.mem_cons_self with hstatus | hstatus
      · rw [todoItem, hstatus]
        rfl
      · rw [todoItem, hstatus]
        rfl
    obtain ⟨item, hitem, hcontent⟩ := Option.map_eq_some_iff.mp htodo
    rw [List.filterMap_cons_some hitem, List.map_cons, List.map_cons, hrest, hcontent]

section Reminder

variable [ReminderText]

/-- The reminder line by line. -/
theorem toList_reminder (todos : List Todo) :
    (reminder todos).toList =
      unlines '\n' (("<system_reminder>".toList ++ preamble) :: [] ::
        (todos.filterMap todoItem).map (·.escapedLine) ++ [[]]) ++
        (closing ++ "</system_reminder>".toList) := by
  have hrender : reminder todos = "<system_reminder>" ++
      ReminderText.encodeText (ReminderText.render (todos.filterMap todoItem)) ++ "" ++
        "</system_reminder>" := by
    rw [reminder]
    rfl
  have htext : (ReminderText.encodeText (ReminderText.render (todos.filterMap todoItem))).toList =
      unlines '\n' (preamble :: [] :: (todos.filterMap todoItem).map (·.escapedLine) ++ [[]]) ++
        closing := by
    rw [ReminderText.toList_encodeText, ReminderText.toList_render, List.flatMap_append,
      flatMap_escaped_unlines, flatMap_escaped_closing]
    simp only [List.map_cons, List.map_append, List.map_map, flatMap_escaped_preamble]
    rfl
  rw [hrender]
  simp only [String.toList_append, htext, List.cons_append, unlines_cons]
  simp only [List.append_assoc]
  rfl

/-- The lines that the handler looks at are those of the todos. -/
theorem filter_lines_reminder {todos : List Todo}
    (h : ∀ item ∈ todos.filterMap todoItem, '\n' ∉ item.content.toList) :
    ((lines '\n' (reminder todos).toList).map stripReturn).filter isTodoLine =
      (todos.filterMap todoItem).map fun item => lineHead item.status ++
        stripReturn (item.content.toList.flatMap escaped) := by
  have hlines : ∀ line ∈ ("<system_reminder>".toList ++ preamble) :: [] ::
      (todos.filterMap todoItem).map (·.escapedLine) ++ [[]], '\n' ∉ line := by
    simp only [List.cons_append, List.mem_cons, List.mem_append, List.mem_map,
      List.not_mem_nil, or_false]
    rintro line (rfl | rfl | ⟨item, hitem, rfl⟩ | rfl)
    · intro hmem
      rcases List.mem_append.mp hmem with hmem | hmem
      · exact absurd hmem (by decide)
      · exact (plain_preamble _ hmem).2 rfl
    · exact List.not_mem_nil
    · exact newline_notMem_escapedLine hitem (h item hitem)
    · exact List.not_mem_nil
  have hlast : lines '\n' (closing ++ "</system_reminder>".toList) =
      [closing ++ "</system_reminder>".toList] :=
    lines_of_notMem (by decide +kernel) (by decide +kernel)
  have hfirst : ¬ isTodoLine (stripReturn ("<system_reminder>".toList ++ preamble)) := by
    decide +kernel
  have hempty : ¬ isTodoLine (stripReturn []) := by decide
  have hend : ¬ isTodoLine (stripReturn (closing ++ "</system_reminder>".toList)) := by
    decide +kernel
  rw [toList_reminder, lines_unlines_append hlines, hlast, List.map_append, List.cons_append,
    List.cons_append, List.map_cons, List.map_cons, List.map_append, List.cons_append,
    List.cons_append, List.filter_cons_of_neg hfirst, List.filter_cons_of_neg hempty,
    List.filter_append, List.filter_append, filter_escapedLines, List.map_singleton,
    List.map_singleton, List.filter_cons_of_neg hempty, List.filter_cons_of_neg hend,
    List.filter_nil, List.append_nil, List.append_nil]

/-- What is read from a reminder is what the escape leaves of each todo. -/
theorem listedTodos_reminder {todos : List Todo}
    (hactive : ∀ todo ∈ todos, todo.status = .pending ∨ todo.status = .inProgress)
    (h : ∀ todo ∈ todos, '\n' ∉ todo.content.toList) :
    listedTodos (reminder todos) = (todos.map fun todo =>
      String.ofList (stripReturn (todo.content.toList.flatMap escaped))).toFinset := by
  have hcontents := map_content_todoItem hactive
  have hitems : ∀ item ∈ todos.filterMap todoItem, '\n' ∉ item.content.toList := by
    intro item hitem
    have hmem : item.content ∈ todos.map (·.content) :=
      hcontents ▸ List.mem_map_of_mem hitem
    obtain ⟨todo, htodo, hcontent⟩ := List.mem_map.mp hmem
    exact hcontent ▸ h todo htodo
  have hlisted : ∀ item ∈ todos.filterMap todoItem,
      (listedTodo ∘ fun item : TodoReminderItem => lineHead item.status ++
        stripReturn (item.content.toList.flatMap escaped)) item =
      ((fun content : String => String.ofList (stripReturn (content.toList.flatMap escaped))) ∘
        (·.content)) item :=
    fun item hitem => (lineHead_spec (exists_status_of_mem hitem)).2.2.2 _
  rw [listedTodos, filter_lines_reminder hitems, List.map_map, List.map_congr_left hlisted,
    ← List.map_map, hcontents, List.map_map]
  rfl

omit [ReminderText] in
/-- What is read from any text has no line break in it. -/
theorem newline_notMem_of_mem_listedTodos {text content : String}
    (h : content ∈ listedTodos text) : '\n' ∉ content.toList := by
  rw [listedTodos, List.mem_toFinset] at h
  obtain ⟨line, hline, rfl⟩ := List.mem_map.mp h
  obtain ⟨raw, hraw, rfl⟩ := List.mem_map.mp (List.mem_of_mem_filter hline)
  have hnot : '\n' ∉ stripReturn raw := fun hmem =>
    notMem_of_mem_lines hraw ((stripReturn_sublist raw).subset hmem)
  unfold listedTodo
  split
  · next before content hsplit =>
    rw [String.toList_ofList]
    intro hmem
    apply hnot
    rw [(of_splitFirst hsplit).2]
    exact List.mem_append_right _ hmem
  · exact List.not_mem_nil

end Reminder

end PendingTodosHandler

/-! ### Texts that are read back -/

/-- A list of texts that has a longer one for each with a property has none with it. -/
theorem not_of_grows {texts : List (List Char)} {P : List Char → Prop}
    (h : ∀ x ∈ texts, P x → ∃ y ∈ texts, P y ∧ x.length < y.length) :
    ∀ x ∈ texts, ¬ P x := by
  classical
  intro x hx hP
  obtain ⟨longest, hlongest, hmax⟩ := Finset.exists_max_image
    (texts.filter fun x => decide (P x)).toFinset List.length
    ⟨x, by simpa using ⟨hx, hP⟩⟩
  simp only [List.mem_toFinset, List.mem_filter, decide_eq_true_eq] at hlongest hmax
  obtain ⟨y, hy, hPy, hlt⟩ := h longest hlongest.1 hlongest.2
  exact absurd (hmax y ⟨hy, hPy⟩) (not_le.mpr hlt)

theorem length_le_flatMap_escaped (text : List Char) :
    text.length ≤ (text.flatMap escaped).length := by
  have hescaped : ∀ c, 1 ≤ (escaped c).length := by
    intro c
    unfold escaped
    split <;> simp
  induction text with
  | nil => exact le_rfl
  | cons c text ih =>
    have := hescaped c
    rw [List.flatMap_cons, List.length_append, List.length_cons]
    omega

/-- A text with a character that is escaped grows, and again has such a character. -/
theorem grows_of_escaped {text : List Char}
    (h : ∃ c ∈ text, ¬ (c ≠ '&' ∧ c ≠ '<' ∧ c ≠ '>')) :
    '&' ∈ stripReturn (text.flatMap escaped) ∧
      text.length < (stripReturn (text.flatMap escaped)).length := by
  obtain ⟨c, hc, hescaped⟩ := h
  have hentity : '&' ∈ escaped c ∧ 4 ≤ (escaped c).length := by
    by_cases hamp : c = '&'
    · rw [hamp]
      decide
    by_cases hlt : c = '<'
    · rw [hlt]
      decide
    by_cases hgt : c = '>'
    · rw [hgt]
      decide
    exact absurd ⟨hamp, hlt, hgt⟩ hescaped
  obtain ⟨front, back, rfl⟩ := List.append_of_mem hc
  have hfront := length_le_flatMap_escaped front
  have hback := length_le_flatMap_escaped back
  have hmem : '&' ∈ (front ++ c :: back).flatMap escaped :=
    List.mem_flatMap.mpr ⟨c, hc, hentity.1⟩
  have hlength : (front ++ c :: back).length + 3 ≤
      ((front ++ c :: back).flatMap escaped).length := by
    rw [List.flatMap_append, List.flatMap_cons, List.length_append, List.length_append,
      List.length_append, List.length_cons]
    omega
  rcases stripReturn_cases ((front ++ c :: back).flatMap escaped) with ⟨-, heq⟩ | ⟨-, heq⟩
  · have hstripped := congrArg List.length heq
    rw [List.length_append, List.length_singleton] at hstripped
    refine ⟨?_, by omega⟩
    rw [heq, List.mem_append, List.mem_singleton] at hmem
    exact hmem.resolve_right (by decide)
  · rw [heq]
    exact ⟨hmem, by omega⟩

/-- Texts that the escape permutes, up to a carriage return at the end, are left as they are
by it. -/
theorem readBack_of_image {texts : List (List Char)}
    (h : ∀ x, x ∈ texts ↔ ∃ y ∈ texts, stripReturn (y.flatMap escaped) = x) :
    ∀ x ∈ texts, (∀ c ∈ x, c ≠ '&' ∧ c ≠ '<' ∧ c ≠ '>') ∧ x.getLast? ≠ some '\r' := by
  have hplain : ∀ x ∈ texts, ∀ c ∈ x, c ≠ '&' ∧ c ≠ '<' ∧ c ≠ '>' := by
    have hnone := not_of_grows (P := fun x => ∃ c ∈ x, ¬ (c ≠ '&' ∧ c ≠ '<' ∧ c ≠ '>'))
      fun x hx hescaped => by
        obtain ⟨hmem, hlt⟩ := grows_of_escaped hescaped
        exact ⟨_, (h _).mpr ⟨x, hx, rfl⟩, ⟨'&', hmem, by decide⟩, hlt⟩
    intro x hx c hc
    by_contra hescaped
    exact hnone x hx ⟨c, hc, hescaped⟩
  have hreturn := not_of_grows (P := fun x => x.getLast? = some '\r') fun x hx hlast => by
    obtain ⟨y, hy, heq⟩ := (h x).mp hx
    rw [flatMap_escaped_of_ne (hplain y hy)] at heq
    rcases stripReturn_cases y with ⟨hylast, hsplit⟩ | ⟨hylast, hsame⟩
    · refine ⟨y, hy, hylast, ?_⟩
      rw [hsplit, heq, List.length_append, List.length_singleton]
      exact Nat.lt_succ_self _
    · rw [heq] at hsame
      exact absurd hlast (hsame ▸ hylast)
  exact fun x hx => ⟨hplain x hx, hreturn x hx⟩

namespace PendingTodosHandler

variable [ReminderText]

/-- A reminder of active todos lists them as they are exactly when each of them is read back. -/
theorem listedTodos_reminder_iff {todos : List Todo}
    (hactive : ∀ todo ∈ todos, todo.status = .pending ∨ todo.status = .inProgress) :
    listedTodos (reminder todos) = (todos.map (·.content)).toFinset ↔
      ∀ todo ∈ todos, ReadBack todo.content := by
  constructor
  · intro heq
    have hnewline : ∀ todo ∈ todos, '\n' ∉ todo.content.toList := by
      intro todo htodo
      refine @newline_notMem_of_mem_listedTodos (reminder todos) todo.content ?_
      rw [heq, List.mem_toFinset]
      exact List.mem_map_of_mem htodo
    rw [listedTodos_reminder hactive hnewline] at heq
    have himage : ∀ x, x ∈ todos.map (·.content.toList) ↔
        ∃ y ∈ todos.map (·.content.toList), stripReturn (y.flatMap escaped) = x := by
      intro x
      have hx := Finset.ext_iff.mp heq (String.ofList x)
      simp only [List.mem_toFinset, List.mem_map] at hx ⊢
      constructor
      · rintro ⟨todo, htodo, rfl⟩
        obtain ⟨other, hother, hread⟩ := hx.mpr ⟨todo, htodo, String.ofList_toList.symm⟩
        exact ⟨_, ⟨other, hother, rfl⟩, String.ofList_injective hread⟩
      · rintro ⟨_, ⟨todo, htodo, rfl⟩, rfl⟩
        obtain ⟨other, hother, hcontent⟩ := hx.mp ⟨todo, htodo, rfl⟩
        exact ⟨other, hother, by rw [hcontent, String.toList_ofList]⟩
    intro todo htodo
    have hplain := readBack_of_image himage _ (List.mem_map_of_mem htodo)
    refine ⟨fun c hc => ?_, hplain.2⟩
    obtain ⟨hamp, hlt, hgt⟩ := hplain.1 c hc
    exact ⟨hamp, hlt, hgt, fun hc' => hnewline todo htodo (hc' ▸ hc)⟩
  · intro h
    rw [listedTodos_reminder hactive fun todo htodo hmem => ((h todo htodo).1 _ hmem).2.2.2 rfl]
    congr 1
    apply List.map_congr_left
    intro todo htodo
    obtain ⟨hchars, hlast⟩ := h todo htodo
    rw [flatMap_escaped_of_ne fun c hc => ⟨(hchars c hc).1, (hchars c hc).2.1, (hchars c hc).2.2.1⟩,
      stripReturn, if_neg hlast, String.ofList_toList]

/-! ### The handler -/

variable {conversation : Conversation}

omit [ReminderText] in
theorem active_of_mem_getActiveTodos {metrics : Metrics} {todo : Todo}
    (h : todo ∈ metrics.getActiveTodos) : todo.status = .pending ∨ todo.status = .inProgress :=
  of_decide_eq_true (List.mem_filter.mp h).2

/-- A reminder is known by its opening words when it is the last message. -/
theorem lastReminderTodos_append (messages : List MessageEntry) (todos : List Todo) :
    lastReminderTodos (messages ++ [.from (.user (reminder todos) none)]) =
      some (listedTodos (reminder todos)) := by
  have hbegins : "You have pending todo items".toList <+: preamble := by decide +kernel
  have hwords := hbegins.isInfix
  have hinfix : "You have pending todo items".toList <:+: (reminder todos).toList := by
    rw [toList_reminder, List.cons_append, unlines_cons, List.append_assoc, List.append_assoc]
    exact hwords.trans ((List.prefix_append _ _).isInfix.trans (List.suffix_append _ _).isInfix)
  rw [lastReminderTodos, List.reverse_append, List.reverse_singleton, List.singleton_append,
    List.findSome?_cons]
  simp only [MessageEntry.from, ContextMessage.user, ContextMessage.content, if_pos hinfix]

/-- Nothing to add: no context, no active todo, or a last reminder with just these. -/
def Reminded (conversation : Conversation) : Prop :=
  conversation.context = none ∨ conversation.metrics.getActiveTodos = [] ∨
    lastReminderTodos conversation.messages = some (currentTodoSet conversation)

omit [ReminderText] in
theorem shouldAddReminder_eq_false_iff {context : Context}
    (hcontext : conversation.context = some context) :
    shouldAddReminder conversation = false ↔
      lastReminderTodos conversation.messages = some (currentTodoSet conversation) := by
  have hmessages : conversation.messages = context.messages := by
    rw [Conversation.messages, hcontext]
    rfl
  rw [shouldAddReminder, hcontext, hmessages]
  cases hlast : lastReminderTodos context.messages with
  | none => simp [hlast]
  | some lastTodos => simp [hlast]

theorem handle_of_reminded (h : Reminded conversation) : handle conversation = conversation := by
  rw [handle]
  rcases h with hnone | hempty | hlast
  · simp only [hnone, ite_self]
  · rw [if_pos (List.isEmpty_iff.mpr hempty)]
  · cases hcontext : conversation.context with
    | none => simp only [ite_self]
    | some context =>
      rw [(shouldAddReminder_eq_false_iff hcontext).mpr hlast]
      simp only [Bool.not_false, if_true, ite_self]

/-- Otherwise the reminder is added to the messages. -/
theorem handle_of_not_reminded (h : ¬ Reminded conversation) :
    (handle conversation).messages = conversation.messages ++
        [.from (.user (reminder conversation.metrics.getActiveTodos) none)] ∧
      (handle conversation).metrics = conversation.metrics ∧
      (handle conversation).context ≠ none := by
  rw [Reminded, not_or, not_or] at h
  obtain ⟨hnone, hempty, hlast⟩ := h
  obtain ⟨context, hcontext⟩ := Option.ne_none_iff_exists'.mp hnone
  have hadd : shouldAddReminder conversation = true := by
    rw [← Bool.not_eq_false]
    exact (shouldAddReminder_eq_false_iff hcontext).not.mpr hlast
  have hmessages : conversation.messages = context.messages := by
    rw [Conversation.messages, hcontext]
    rfl
  have hhandle : handle conversation =
      { conversation with
        context := some (context.addMessage
          (.user (reminder conversation.metrics.getActiveTodos) none)) } := by
    rw [handle, if_neg (by simpa using hempty), hadd, if_neg (by decide), hcontext]
  rw [hhandle, hmessages]
  exact ⟨rfl, rfl, Option.some_ne_none _⟩

theorem handle_eq_self_iff : handle conversation = conversation ↔ Reminded conversation := by
  refine ⟨fun h => ?_, handle_of_reminded⟩
  by_contra hreminded
  have hmore := congrArg List.length (handle_of_not_reminded hreminded).1
  rw [h, List.length_append, List.length_singleton] at hmore
  exact absurd hmore (Nat.lt_succ_self _).ne

/-- A reminder that was just added is recognised exactly when each active todo is read back. -/
theorem reminded_handle_iff (h : ¬ Reminded conversation) :
    Reminded (handle conversation) ↔
      ∀ todo ∈ conversation.metrics.getActiveTodos, ReadBack todo.content := by
  obtain ⟨hmessages, hmetrics, hcontext⟩ := handle_of_not_reminded h
  have hactive : conversation.metrics.getActiveTodos ≠ [] :=
    fun hempty => h (Or.inr (Or.inl hempty))
  rw [Reminded, hmetrics, or_iff_right hcontext, or_iff_right hactive, hmessages,
    lastReminderTodos_append, currentTodoSet, hmetrics, Option.some_inj,
    listedTodos_reminder_iff fun _ => active_of_mem_getActiveTodos]

theorem iterate_handle_of_settled (h : handle (handle conversation) = handle conversation)
    (n : ℕ) : handle^[n] conversation = conversation ∨
      handle^[n] conversation = handle conversation := by
  cases n with
  | zero => exact Or.inl rfl
  | succ n =>
    right
    rw [Function.iterate_succ_apply]
    exact Function.iterate_fixed h n

/-- Running the handler again and again adds at most one reminder, and a second run changes
nothing, exactly when there is no context, the last reminder lists the active todos already, or
each of these is read back from a reminder. -/
theorem handle_settles_iff (conversation : Conversation) :
    ((∀ n, (handle^[n] conversation).messages.length ≤ conversation.messages.length + 1) ∧
      handle (handle conversation) = handle conversation) ↔
      conversation.context = none ∨
        lastReminderTodos conversation.messages = some (currentTodoSet conversation) ∨
        ∀ todo ∈ conversation.metrics.getActiveTodos, ReadBack todo.content := by
  by_cases hreminded : Reminded conversation
  · have hsame := handle_of_reminded hreminded
    refine iff_of_true ⟨fun n => ?_, by rw [hsame, hsame]⟩ ?_
    · rw [Function.iterate_fixed hsame n]
      exact Nat.le_succ _
    · rcases hreminded with hnone | hempty | hlast
      · exact Or.inl hnone
      · exact Or.inr (Or.inr (by simp [hempty]))
      · exact Or.inr (Or.inl hlast)
  · have hmore := congrArg List.length (handle_of_not_reminded hreminded).1
    rw [List.length_append, List.length_singleton] at hmore
    rw [handle_eq_self_iff, reminded_handle_iff hreminded]
    have hnone : conversation.context ≠ none := fun h => hreminded (Or.inl h)
    have hlast : lastReminderTodos conversation.messages ≠ some (currentTodoSet conversation) :=
      fun h => hreminded (Or.inr (Or.inr h))
    rw [or_iff_right hnone, or_iff_right hlast]
    refine ⟨fun h => h.2, fun h => ⟨fun n => ?_, h⟩⟩
    have hsettled := handle_of_reminded ((reminded_handle_iff hreminded).mpr h)
    rcases iterate_handle_of_settled hsettled n with hn | hn
    · rw [hn]
      exact Nat.le_succ _
    · rw [hn, hmore]

end PendingTodosHandler

namespace EscapedTodo

open PendingTodosHandler

/-- The libraries as they are documented. -/
abbrev reminderText : ReminderText where
  render todos := String.ofList
    (unlines '\n' (preamble :: [] :: todos.map (·.line) ++ [[]]) ++ closing)
  encodeText text := String.ofList (text.toList.flatMap escaped)
  toList_render _ := String.toList_ofList
  toList_encodeText _ := String.toList_ofList

/-- A conversation with one todo that has an ampersand. -/
def conversation : Conversation :=
  { id := ⟨0⟩
    title := none
    context := some Context.default
    metrics := { Metrics.default with todos := [⟨"", "Fix parser & lexer", .pending⟩] }
    metadata := { createdAt := .epoch, updatedAt := none }
    parentId := none
    source := none
    cwd := none
    messageCount := none }

/-- The reminder of the todo is not recognised, and a second one is added. -/
theorem handle_repeats :
    ¬ ((∀ n, ((@handle reminderText)^[n] conversation).messages.length ≤
        conversation.messages.length + 1) ∧
      @handle reminderText (@handle reminderText conversation) =
        @handle reminderText conversation) := by
  rintro ⟨-, hsettled⟩
  have hnew : ¬ Reminded conversation := by
    rintro (hnone | hempty | hlast)
    · cases hnone
    · exact absurd hempty (by decide)
    · cases hlast
  have hread := (@reminded_handle_iff reminderText conversation hnew).mp
    ((@handle_eq_self_iff reminderText _).mp hsettled) _ List.mem_cons_self
  exact (hread.1 '&' (by decide)).1 rfl

end EscapedTodo

end HeliosLite
