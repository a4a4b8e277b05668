import Mathlib.Data.List.DropRight
import HeliosLite.Domain.Conversation

/-!
# Tool calls of a turn

What the orchestrator does with the tool calls of one reply of the model: it splits them
into task calls, which run in parallel, and other calls, which run one after the other,
puts the results back in the order of the calls, counts failures, and appends the reply
with its results to the context.

## Main definitions

* `ChatCompletionMessageFull` — a reply of the model
* `ToolErrorTracker` — consecutive failures by tool
* `reconstruct` — the results in the order of the calls
* `Context.appendMessage` — the context with a reply and its tool results
* `Context.setModel` — the context with the model noted at its text messages

## Main results

* `reconstruct_eq_none_iff` — putting the results back fails exactly when the split and the
  reconstruction disagree on what a task call is
* `reconstruct_calls` — the results come back in the order of the calls
-/

namespace HeliosLite

/-- Why the model stopped. -/
inductive FinishReason where
  | length
  | contentFilter
  | refusal
  | toolCalls
  | stop
  deriving DecidableEq, Repr

/-- A reply of the model, with all its parts collected. -/
structure ChatCompletionMessageFull where
  content : String
  thoughtSignature : Option String
  reasoning : Option String
  toolCalls : List ToolCallFull
  reasoningDetails : Option (List ReasoningFull)
  usage : Usage
  finishReason : Option FinishReason
  phase : Option MessagePhase
  deriving DecidableEq

/-! ### Names of tools -/

/-- The lower case of the characters that lower to an ASCII letter: the ASCII capitals, and
the Kelvin sign. -/
def lowerChar (c : Char) : Char := if c = '\u212a' then 'k' else c.toLower

/-- `to_lowercase` of the name is the given text, which consists of ASCII letters. -/
def lowersTo (text name : String) : Bool := name.toList.map lowerChar = text.toList

/-- `eq_ignore_ascii_case`. -/
def eqIgnoreAsciiCase (text name : String) : Bool :=
  name.toList.map Char.toLower = text.toList.map Char.toLower

/-- The characters that `trim` removes at both ends. -/
def isWhitespace (c : Char) : Bool :=
  (0x09 ≤ c.toNat && c.toNat ≤ 0x0d) || c.toNat = 0x20 || c.toNat = 0x85 || c.toNat = 0xa0
    || c.toNat = 0x1680 || (0x2000 ≤ c.toNat && c.toNat ≤ 0x200a) || c.toNat = 0x2028
    || c.toNat = 0x2029 || c.toNat = 0x202f || c.toNat = 0x205f || c.toNat = 0x3000

def trim (name : String) : String :=
  String.ofList ((name.toList.dropWhile isWhitespace).rdropWhile isWhitespace)

namespace ToolCallFull

/-- The comparison that splits the calls. -/
def isTaskCall (call : ToolCallFull) : Bool := lowersTo "task" call.name

/-- The comparison that puts the results back in order. -/
def isTask (call : ToolCallFull) : Bool := eqIgnoreAsciiCase "task" call.name

/-- The tool asks the user a question, so the turn has to be suspended. -/
def shouldYield (call : ToolCallFull) : Bool := lowersTo "followup" (trim call.name)

end ToolCallFull

/-! ### Results in the order of the calls -/

/-- A tool call with its result. -/
abbrev Record := ToolCallFull × ToolResult

/-- The results of the task calls and of the other calls in the order of all calls; `none`
where an `expect` of the source panics. -/
def reconstruct : List ToolCallFull → List Record → List Record → Option (List Record)
  | [], _, _ => some []
  | call :: calls, taskResults, otherResults =>
    if call.isTask then
      match taskResults with
      | [] => none
      | record :: taskResults => (reconstruct calls taskResults otherResults).map (record :: ·)
    else
      match otherResults with
      | [] => none
      | record :: otherResults => (reconstruct calls taskResults otherResults).map (record :: ·)

theorem reconstruct_cons (call : ToolCallFull) (calls : List ToolCallFull)
    (tasks others : List Record) :
    reconstruct (call :: calls) tasks others =
      if call.isTask then
        tasks.head?.bind fun record => (reconstruct calls tasks.tail others).map (record :: ·)
      else
        others.head?.bind fun record =>
          (reconstruct calls tasks others.tail).map (record :: ·) := by
  cases tasks <;> cases others <;> rfl

theorem mem_of_reconstruct {calls : List ToolCallFull} {tasks others records : List Record}
    (h : reconstruct calls tasks others = some records) {record : Record}
    (hrecord : record ∈ records) : record ∈ tasks ∨ record ∈ others := by
  induction calls generalizing tasks others records with
  | nil =>
    obtain rfl : [] = records := by simpa [reconstruct] using h
    cases hrecord
  | cons call calls ih =>
    rw [reconstruct_cons] at h
    split at h
    · obtain ⟨first, hfirst, h⟩ := Option.bind_eq_some_iff.mp h
      obtain ⟨rest, hrest, rfl⟩ := Option.map_eq_some_iff.mp h
      rcases List.mem_cons.mp hrecord with rfl | hmem
      · exact Or.inl (List.mem_of_mem_head? hfirst)
      · exact (ih hrest hmem).imp_left List.mem_of_mem_tail
    · obtain ⟨first, hfirst, h⟩ := Option.bind_eq_some_iff.mp h
      obtain ⟨rest, hrest, rfl⟩ := Option.map_eq_some_iff.mp h
      rcases List.mem_cons.mp hrecord with rfl | hmem
      · exact Or.inr (List.mem_of_mem_head? hfirst)
      · exact (ih hrest hmem).imp_right List.mem_of_mem_tail

/-- Each call that is no task takes one of the other results. -/
theorem length_le_of_reconstruct {calls : List ToolCallFull}
    {tasks others records : List Record} (h : reconstruct calls tasks others = some records) :
    calls.countP (!·.isTask) ≤ others.length := by
  induction calls generalizing tasks others records with
  | nil => simp
  | cons call calls ih =>
    rw [reconstruct_cons] at h
    split at h
    · obtain ⟨first, -, h⟩ := Option.bind_eq_some_iff.mp h
      obtain ⟨rest, hrest, -⟩ := Option.map_eq_some_iff.mp h
      have hle := ih hrest
      rwa [List.countP_cons_of_neg (by simpa)]
    · rename_i htask
      obtain ⟨first, hfirst, h⟩ := Option.bind_eq_some_iff.mp h
      obtain ⟨rest, hrest, -⟩ := Option.map_eq_some_iff.mp h
      have hle := ih hrest
      obtain ⟨others, rfl⟩ := List.head?_eq_some_iff.mp hfirst
      rw [List.countP_cons_of_pos (by simpa using htask)]
      simpa using hle

/-- A name that equals `task` up to ASCII case also lowers to it. -/
theorem ToolCallFull.isTaskCall_of_isTask {call : ToolCallFull} (h : call.isTask) :
    call.isTaskCall := by
  have hascii : call.name.toList.map Char.toLower = "task".toList := by
    simpa [isTask, eqIgnoreAsciiCase] using h
  suffices hlower : call.name.toList.map lowerChar = "task".toList by
    simpa [isTaskCall, lowersTo] using hlower
  rw [← hascii]
  refine List.map_congr_left fun c hc => ?_
  -- The Kelvin sign has no ASCII lower case, so it does not occur in the name.
  have hmem : c.toLower ∈ "task".toList := hascii ▸ List.mem_map_of_mem hc
  have hkelvin : c ≠ '\u212a' := by
    rintro rfl
    revert hmem
    decide
  rw [lowerChar, if_neg hkelvin]

section Split

variable {calls : List ToolCallFull} {tasks others records : List Record}

/-- Where the two comparisons agree, the results come back in the order of the calls. -/
theorem exists_reconstruct (hagree : ∀ call ∈ calls, call.isTask = call.isTaskCall)
    (htasks : tasks.map Prod.fst = calls.filter (·.isTaskCall))
    (hothers : others.map Prod.fst = calls.filter (!·.isTaskCall)) :
    ∃ records, reconstruct calls tasks others = some records ∧ records.map Prod.fst = calls := by
  induction calls generalizing tasks others with
  | nil => exact ⟨[], rfl, rfl⟩
  | cons call calls ih =>
    have hcall : call.isTask = call.isTaskCall := hagree call (List.mem_cons_self ..)
    have hrest : ∀ c ∈ calls, c.isTask = c.isTaskCall := fun c hc =>
      hagree c (List.mem_cons_of_mem _ hc)
    by_cases htask : call.isTaskCall
    · rw [List.filter_cons_of_pos htask] at htasks
      rw [List.filter_cons_of_neg (by simpa using htask)] at hothers
      obtain ⟨record, tasks, rfl, hrecord, htasks⟩ := List.map_eq_cons_iff.mp htasks
      obtain ⟨records, hrecords, hmap⟩ := ih hrest htasks hothers
      refine ⟨record :: records, ?_, ?_⟩
      · simp [reconstruct, hcall, htask, hrecords]
      · rw [List.map_cons, hrecord, hmap]
    · rw [List.filter_cons_of_neg htask] at htasks
      rw [List.filter_cons_of_pos (by simpa using htask)] at hothers
      obtain ⟨record, others, rfl, hrecord, hothers⟩ := List.map_eq_cons_iff.mp hothers
      obtain ⟨records, hrecords, hmap⟩ := ih hrest htasks hothers
      refine ⟨record :: records, ?_, ?_⟩
      · simp [reconstruct, hcall, htask, hrecords]
      · rw [List.map_cons, hrecord, hmap]

/-- The reconstruction panics exactly when some name lowers to `task` without being equal
to it up to ASCII case. -/
theorem reconstruct_eq_none_iff (htasks : tasks.map Prod.fst = calls.filter (·.isTaskCall))
    (hothers : others.map Prod.fst = calls.filter (!·.isTaskCall)) :
    reconstruct calls tasks others = none ↔
      ∃ call ∈ calls, call.isTaskCall ∧ call.isTask = false := by
  constructor
  · intro hnone
    by_contra hno
    push Not at hno
    have hagree : ∀ call ∈ calls, call.isTask = call.isTaskCall := by
      intro call hcall
      cases htask : call.isTask with
      | true => exact (ToolCallFull.isTaskCall_of_isTask htask).symm
      | false =>
        by_contra hdiffer
        have hlower : call.isTaskCall = true := by simpa using Ne.symm hdiffer
        exact hno call hcall hlower htask
    obtain ⟨records, hrecords, -⟩ := exists_reconstruct hagree htasks hothers
    rw [hnone] at hrecords
    cases hrecords
  · rintro ⟨call, hcall, htask, hnot⟩
    by_contra hsome
    obtain ⟨records, hrecords⟩ := Option.ne_none_iff_exists'.mp hsome
    have hle := length_le_of_reconstruct hrecords
    have hlength : others.length = calls.countP (!·.isTaskCall) := by
      rw [← List.length_map (f := Prod.fst), hothers, List.countP_eq_length_filter]
    -- Every call that the split counts as another call is no task, and `call` is one more.
    have hmono : ∀ l : List ToolCallFull,
        l.countP (!·.isTaskCall) ≤ l.countP (!·.isTask) := by
      refine fun l => List.countP_mono_left fun c _ hc => ?_
      have := @ToolCallFull.isTaskCall_of_isTask c
      cases hc' : c.isTask <;> simp_all
    obtain ⟨before, after, rfl⟩ := List.append_of_mem hcall
    have hbefore := hmono before
    have hafter := hmono after
    simp only [List.countP_append, List.countP_cons, htask, hnot] at hle hlength
    simp at hle hlength
    omega

/-- The results come back in the order of the calls. -/
theorem reconstruct_calls (htasks : tasks.map Prod.fst = calls.filter (·.isTaskCall))
    (hothers : others.map Prod.fst = calls.filter (!·.isTaskCall))
    (h : reconstruct calls tasks others = some records) : records.map Prod.fst = calls := by
  have hagree : ∀ call ∈ calls, call.isTask = call.isTaskCall := by
    intro call hcall
    by_contra hdiffer
    have hnone : reconstruct calls tasks others = none := by
      refine (reconstruct_eq_none_iff htasks hothers).mpr ⟨call, hcall, ?_⟩
      cases htask : call.isTask with
      | true => exact absurd (ToolCallFull.isTaskCall_of_isTask htask) (by simp_all)
      | false => exact ⟨by simpa [htask] using Ne.symm hdiffer, rfl⟩
    rw [hnone] at h
    cases h
  obtain ⟨records', hrecords, hmap⟩ := exists_reconstruct hagree htasks hothers
  obtain rfl : records = records' := Option.some.inj (h.symm.trans hrecords)
  exact hmap

end Split

/-! ### Failures by tool -/

/-- For each tool that failed, in how many replies in a row it did. -/
structure ToolErrorTracker where
  errors : List (String × ℕ)
  limit : ℕ
  deriving DecidableEq, Repr

namespace ToolErrorTracker

def errorCount (self : ToolErrorTracker) (tool : String) : ℕ := (self.errors.lookup tool).getD 0

/-- One more failure of the tool. -/
def failed (self : ToolErrorTracker) (tool : String) : ToolErrorTracker :=
  { self with
    errors := (tool, self.errorCount tool + 1) :: self.errors.filter (·.1 ≠ tool) }

/-- Each tool that failed counts once; a tool that succeeded without failing starts anew. -/
def adjust (self : ToolErrorTracker) (failures successes : List String) : ToolErrorTracker :=
  let counted := failures.dedup.foldl failed self
  { counted with
    errors := counted.errors.filter fun entry =>
      !(successes.contains entry.1 && !failures.contains entry.1) }

def adjustRecord (self : ToolErrorTracker) (records : List Record) : ToolErrorTracker :=
  self.adjust ((records.filter (·.2.output.isError)).map (·.2.name))
    ((records.filter (!·.2.output.isError)).map (·.2.name))

/-- Some tool failed as often as is allowed. -/
def limitReached (self : ToolErrorTracker) : Bool :=
  self.errors.any fun entry => self.limit ≤ entry.2

def remainingAttempts (self : ToolErrorTracker) (tool : String) : ℕ :=
  self.limit - self.errorCount tool

end ToolErrorTracker

/-- The characters that are escaped in the text of an element. -/
def encodeText (text : String) : String :=
  String.ofList (text.toList.flatMap fun c =>
    if c = '&' then "&amp;".toList
    else if c = '<' then "&lt;".toList
    else if c = '>' then "&gt;".toList
    else [c])

/-- A failed result with the note on the attempts left, which the template engine renders
from the attempts left and the attempts allowed. -/
def noteAttempts (render : ℕ → ℕ → Option String) (tracker : ToolErrorTracker)
    (record : Record) : Option Record :=
  if record.2.output.isError then do
    let text ← render (tracker.remainingAttempts record.2.name) tracker.limit
    let output := record.2.output
    let retry := ToolValue.text ("<retry>" ++ encodeText text ++ "</retry>")
    some (record.1, { record.2 with output := { output with values := output.values ++ [retry] } })
  else
    some record

/-- The note changes the output of a result only. -/
theorem noteAttempts_eq {render : ℕ → ℕ → Option String} {tracker : ToolErrorTracker}
    {record noted : Record} (h : noteAttempts render tracker record = some noted) :
    noted.1 = record.1 ∧ noted.2.name = record.2.name ∧ noted.2.callId = record.2.callId := by
  unfold noteAttempts at h
  split at h
  · obtain ⟨text, -, h⟩ := Option.bind_eq_some_iff.mp h
    obtain rfl := Option.some.inj h
    exact ⟨rfl, rfl, rfl⟩
  · obtain rfl := Option.some.inj h
    exact ⟨rfl, rfl, rfl⟩

/-- The record is one of the records, up to a note in the output of its result. -/
def Notes (records : List Record) (noted : Record) : Prop :=
  ∃ record ∈ records, noted.1 = record.1 ∧ noted.2.name = record.2.name ∧
    noted.2.callId = record.2.callId

theorem notes_of_mapM {render : ℕ → ℕ → Option String} {tracker : ToolErrorTracker}
    {records noted : List Record} (h : records.mapM (noteAttempts render tracker) = some noted)
    {r : Record} (hr : r ∈ noted) : Notes records r := by
  induction records generalizing noted with
  | nil =>
    obtain rfl : [] = noted := by simpa using h
    cases hr
  | cons record records ih =>
    rw [List.mapM_cons] at h
    obtain ⟨first, hfirst, h⟩ := Option.bind_eq_some_iff.mp h
    obtain ⟨rest, hrest, h⟩ := Option.bind_eq_some_iff.mp h
    obtain rfl := Option.some.inj h
    rcases List.mem_cons.mp hr with rfl | hmem
    · exact ⟨record, List.mem_cons_self .., noteAttempts_eq hfirst⟩
    · obtain ⟨record', hrecord', heq⟩ := ih hrest hmem
      exact ⟨record', List.mem_cons_of_mem _ hrecord', heq⟩

/-! ### The context after a reply -/

namespace Context

/-- The context with the reply and the results of its tool calls at the end. -/
def appendMessage (context : Context) (message : ChatCompletionMessageFull)
    (records : List Record) : Context :=
  let mergedReasoningDetails := match message.reasoning, message.reasoningDetails with
    | _, some details => some details
    | some text, none =>
      some
        [{ text := some text
           signature := none
           data := none
           id := none
           format := none
           index := none
           typeOf := some "reasoning.text" }]
    | none, none => none
  let assistant := match ContextMessage.assistant message.content message.thoughtSignature
      mergedReasoningDetails (some (records.map (·.1))) with
    | .text textMessage => ContextMessage.text { textMessage with phase := message.phase }
    | other => other
  { context with
    messages := context.messages ++
      { message := assistant, usage := some message.usage } ::
        records.map fun record => MessageEntry.from (ContextMessage.toolResult record.2) }

end Context

/-- The message with the model noted, if it is a text without one. -/
def MessageEntry.setModel (model : String) (entry : MessageEntry) : MessageEntry :=
  match entry.message with
  | .text message =>
    if message.model = none then
      { entry with message := .text { message with model := some model } }
    else
      entry
  | _ => entry

/-- `SetModel::transform`. -/
def Context.setModel (model : String) (context : Context) : Context :=
  { context with messages := context.messages.map (MessageEntry.setModel model) }

end HeliosLite
