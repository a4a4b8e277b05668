import HeliosLite.Compaction.WellFormed
import HeliosLite.Orchestration.ToolCalls
import HeliosLite.Providers.ToolResults

/-!
# The filter before compaction

Before a context is summarised, short tool results, debug output, empty messages and repeated
tool results are removed. Each criterion looks at one message; what a result repeats is any
result before it that the other criteria left.

## Main definitions

* `PreCompactionFilter.filter` — the four passes
* `Keeps` — the filter keeps the message at a place of the context
* `KeepsPairing` — calls and results are kept together, and only consecutive duplicates collapse
* `Tidy` — the results of a call that stays are all to stay, and those of one that goes all to go

## Main results

* `keeps_iff` — what is kept at a place
* `keepsPairing_iff` — when the filter keeps the pairing of a context
-/

namespace HeliosLite

open Theory

structure PreCompactionFilterConfig where
  minToolResultLength : ℕ
  removeDebugOutput : Bool
  collapseDuplicates : Bool
  removeEmpty : Bool
deriving DecidableEq, Repr

def PreCompactionFilterConfig.default : PreCompactionFilterConfig where
  minToolResultLength := 10
  removeDebugOutput := true
  collapseDuplicates := true
  removeEmpty := true

structure PreCompactionFilter where
  config : PreCompactionFilterConfig
deriving DecidableEq, Repr

def toolOutputTextLen (output : ToolOutput) : ℕ := (output.asStr.map (·.utf8ByteSize)).getD 0

def debugPatterns : List String :=
  ["console.log", "console.warn", "console.error", "print!(", "println!(", "printf(",
    "System.out.println", "console.debug", "logging.debug", "logger.debug", "// DEBUG",
    "/* DEBUG", "# DEBUG"]

/-- The output has one of the debug patterns in it. -/
def isDebugOutput (output : ToolOutput) : Bool :=
  debugPatterns.any fun pattern => decide (pattern.toList <:+: (output.asStr.getD "").toList)

/-- What two results have in common that are taken for duplicates. -/
def duplicateKey (result : ToolResult) : String :=
  result.name ++ ":" ++ result.output.asStr.getD ""

namespace PreCompactionFilter

variable (self : PreCompactionFilter)

def removeShortToolResults (messages : List MessageEntry) : List MessageEntry :=
  messages.filter fun entry =>
    match entry.message with
    | .tool result =>
      self.config.minToolResultLength < toolOutputTextLen result.output || result.output.isError
    | _ => true

def removeDebugOutput (messages : List MessageEntry) : List MessageEntry :=
  messages.filter fun entry =>
    match entry.message with
    | .tool result => !isDebugOutput result.output
    | _ => true

def removeEmptyMessages (messages : List MessageEntry) : List MessageEntry :=
  messages.filter fun entry =>
    match entry.message with
    | .text text => trim text.content ≠ ""
    | .tool _ => true
    | .image _ => true

/-- The messages without the results that were seen, unless they are errors. -/
def collapse (seenTools : List String) : List MessageEntry → List MessageEntry
  | [] => []
  | entry :: messages =>
    match entry.message with
    | .tool tool =>
      if duplicateKey tool ∈ seenTools then
        if tool.output.isError then entry :: collapse seenTools messages
        else collapse seenTools messages
      else entry :: collapse (duplicateKey tool :: seenTools) messages
    | _ => entry :: collapse seenTools messages

attribute [grind =] collapse

def collapseDuplicateOperations (messages : List MessageEntry) : List MessageEntry :=
  collapse [] messages

/-- The messages that the first three passes leave. -/
def survivors (messages : List MessageEntry) : List MessageEntry :=
  let messages := self.removeShortToolResults messages
  let messages := if self.config.removeDebugOutput then removeDebugOutput messages else messages
  if self.config.removeEmpty then removeEmptyMessages messages else messages

def filterMessages (messages : List MessageEntry) : List MessageEntry :=
  let messages := self.survivors messages
  if self.config.collapseDuplicates then collapseDuplicateOperations messages else messages

def filter (context : Context) : Context :=
  { context with messages := self.filterMessages context.messages }

/-! ### What is kept at a place -/

/-- The message at this place of a context is among those that the filter returns: with it the
filter returns one message more than without it. -/
def Keeps (before : List MessageEntry) (entry : MessageEntry) : Prop :=
  self.filterMessages (before ++ [entry]) = self.filterMessages before ++ [entry]

/-- The first three passes leave the message. -/
def survives (entry : MessageEntry) : Bool :=
  match entry.message with
  | .text text => !self.config.removeEmpty || trim text.content ≠ ""
  | .tool result =>
    (self.config.minToolResultLength < toolOutputTextLen result.output || result.output.isError) &&
      (!self.config.removeDebugOutput || !isDebugOutput result.output)
  | .image _ => true

/-- The message is a result like one that was left before it, and no error. -/
def Repeats (before : List MessageEntry) (entry : MessageEntry) : Prop :=
  self.config.collapseDuplicates = true ∧ ∃ tool, entry.message = .tool tool ∧
    tool.output.isError = false ∧ ∃ earlier ∈ self.survivors before, ∃ other,
      earlier.message = .tool other ∧ duplicateKey other = duplicateKey tool

variable {self} {before after : List MessageEntry} {entry : MessageEntry}

theorem survivors_eq (messages : List MessageEntry) :
    self.survivors messages = messages.filter self.survives := by
  unfold survivors removeShortToolResults removeDebugOutput removeEmptyMessages
  cases hdebug : self.config.removeDebugOutput with
  | false =>
    cases hempty : self.config.removeEmpty with
    | false =>
      refine List.filter_congr fun entry _ => ?_
      cases hmessage : entry.message <;> simp [survives, hmessage, hdebug, hempty]
    | true =>
      simp only [Bool.false_eq_true, if_false, if_true, List.filter_filter]
      refine List.filter_congr fun entry _ => ?_
      cases hmessage : entry.message <;> simp [survives, hmessage, hdebug, hempty]
  | true =>
    cases hempty : self.config.removeEmpty with
    | false =>
      simp only [Bool.false_eq_true, if_false, if_true, List.filter_filter]
      refine List.filter_congr fun entry _ => ?_
      cases hmessage : entry.message <;> simp [survives, hmessage, hdebug, hempty, Bool.and_comm]
    | true =>
      simp only [if_true, List.filter_filter]
      refine List.filter_congr fun entry _ => ?_
      cases hmessage : entry.message <;> simp [survives, hmessage, hdebug, hempty, Bool.and_comm]

/-- The keys seen after some messages. -/
def seenAfter (seenTools : List String) : List MessageEntry → List String
  | [] => seenTools
  | entry :: messages =>
    match entry.message with
    | .tool tool =>
      if duplicateKey tool ∈ seenTools then seenAfter seenTools messages
      else seenAfter (duplicateKey tool :: seenTools) messages
    | _ => seenAfter seenTools messages

attribute [grind =] seenAfter

theorem collapse_append (seenTools : List String) (before after : List MessageEntry) :
    collapse seenTools (before ++ after) =
      collapse seenTools before ++ collapse (seenAfter seenTools before) after := by
  induction before generalizing seenTools with
  | nil => rfl
  | cons entry before ih => grind

theorem mem_seenAfter_iff {key : String} {seenTools : List String} {messages : List MessageEntry} :
    key ∈ seenAfter seenTools messages ↔
      key ∈ seenTools ∨
        ∃ entry ∈ messages, ∃ tool, entry.message = .tool tool ∧ duplicateKey tool = key := by
  induction messages generalizing seenTools with
  | nil => simp [seenAfter]
  | cons entry messages ih => grind

/-- What one more message becomes. -/
theorem collapse_singleton (seenTools : List String) (entry : MessageEntry) :
    (collapse seenTools [entry] = [] ∧ ∃ tool, entry.message = .tool tool ∧
        tool.output.isError = false ∧ duplicateKey tool ∈ seenTools) ∨
      (collapse seenTools [entry] = [entry] ∧ ¬ ∃ tool, entry.message = .tool tool ∧
        tool.output.isError = false ∧ duplicateKey tool ∈ seenTools) := by
  unfold collapse
  cases hmessage : entry.message with
  | text text => exact Or.inr ⟨rfl, by simp⟩
  | image image => exact Or.inr ⟨rfl, by simp⟩
  | tool tool =>
    by_cases hseen : duplicateKey tool ∈ seenTools
    · cases herror : tool.output.isError with
      | true => exact Or.inr ⟨by simp [hseen, herror, collapse], by simp [herror]⟩
      | false => exact Or.inl ⟨by simp [hseen, herror, collapse], tool, rfl, herror, hseen⟩
    · exact Or.inr ⟨by simp [hseen, collapse], by simp [hseen]⟩

/-- A message is kept if the first passes leave it and it repeats nothing. -/
theorem keeps_iff :
    self.Keeps before entry ↔ self.survives entry = true ∧ ¬ self.Repeats before entry := by
  have hrepeats : (∃ tool, entry.message = .tool tool ∧ tool.output.isError = false ∧
      duplicateKey tool ∈ seenAfter [] (before.filter self.survives)) ↔
      ∃ tool, entry.message = .tool tool ∧ tool.output.isError = false ∧
        ∃ earlier ∈ self.survivors before, ∃ other,
          earlier.message = .tool other ∧ duplicateKey other = duplicateKey tool := by
    simp only [mem_seenAfter_iff, survivors_eq, List.not_mem_nil, false_or]
  unfold Keeps filterMessages Repeats
  rw [← hrepeats, survivors_eq, survivors_eq, List.filter_append, List.filter_singleton]
  cases hsurvives : self.survives entry with
  | false =>
    cases hcollapse : self.config.collapseDuplicates <;> simp
  | true =>
    cases hcollapse : self.config.collapseDuplicates with
    | false => simp
    | true =>
      simp only [if_true, cond_true, true_and, collapseDuplicateOperations, collapse_append,
        List.append_cancel_left_eq]
      rcases collapse_singleton (seenAfter [] (before.filter self.survives)) entry with
        ⟨hdropped, hrepeated⟩ | ⟨hkept, hfresh⟩
      · rw [hdropped]
        simpa using hrepeated
      · rw [hkept]
        simpa using hfresh

/-! ### Calls and their results -/

variable (self)

/-- The last result left before the message is one of the same tool with the same output. -/
def RepeatsLast (before : List MessageEntry) (entry : MessageEntry) : Prop :=
  ∃ tool last, entry.message = .tool tool ∧
    ((self.survivors before).filter isResult).getLast? = some last ∧
    ∃ other, last.message = .tool other ∧ other.name = tool.name ∧ other.output = tool.output

/-- A message stands between these others, at once followed by the results of its calls. -/
structure Group (messages before : List MessageEntry) (entry : MessageEntry)
    (results after : List MessageEntry) : Prop where
  place : messages = before ++ entry :: (results ++ after)
  answered : (results.map answeredId).Perm ((callIds entry).map some)

/-- A result is kept exactly if the message that calls it is, and a result that the last pass
removes repeats the result before it. -/
structure KeepsPairing (filter : PreCompactionFilter) (messages : List MessageEntry) : Prop where
  together : ∀ before entry results after, Group messages before entry results after →
    ∀ earlier result later, results = earlier ++ result :: later →
      (filter.Keeps before entry ↔ filter.Keeps (before ++ entry :: earlier) result)
  consecutive : ∀ before entry after, messages = before ++ entry :: after →
    filter.survives entry = true → ¬ filter.Keeps before entry → filter.RepeatsLast before entry

/-- A result whose message stays is itself left by all passes. A result whose message goes is
removed, and not for repeating a result unless this is the one before it. -/
def Tidy (messages : List MessageEntry) : Prop :=
  ∀ before entry results after, Group messages before entry results after →
    ∀ earlier result later, results = earlier ++ result :: later →
      if self.survives entry then
        self.survives result = true ∧ ¬ self.Repeats (before ++ entry :: earlier) result
      else
        self.survives result = true →
          self.Repeats (before ++ entry :: earlier) result ∧
            self.RepeatsLast (before ++ entry :: earlier) result

variable {self}

/-- A result of a paired context is in the group of a call. -/
theorem exists_group {messages : List MessageEntry} (h : Paired callIds answeredId messages)
    {before after : List MessageEntry} {result : MessageEntry}
    (hplace : messages = before ++ result :: after) (hresult : answeredId result ≠ none) :
    ∃ front entry earlier later rest, before = front ++ entry :: earlier ∧
      Group messages front entry (earlier ++ result :: later) rest := by
  induction h generalizing before with
  | nil => simp at hplace
  | @block entry results rest opens answered tail ih =>
    cases before with
    | nil =>
      obtain ⟨rfl, -⟩ := List.cons.inj hplace
      exact absurd opens hresult
    | cons first before =>
      obtain ⟨rfl, hrest⟩ := List.cons.inj hplace
      rcases List.append_eq_append_iff.mp hrest with ⟨middle, rfl, htail⟩ | ⟨middle, rfl, htail⟩
      · -- The place is behind the results of the first message.
        obtain ⟨front, call, earlier, later, rest', rfl, hgroup⟩ := ih htail
        refine ⟨entry :: (results ++ front), call, earlier, later, rest', by simp, ?_,
          hgroup.answered⟩
        rw [hgroup.place]
        simp
      · cases middle with
        | nil =>
          rw [List.nil_append] at htail
          rw [← htail] at tail
          exact absurd tail (not_paired_of_head_answer hresult)
        | cons head later =>
          obtain ⟨rfl, rfl⟩ := List.cons.inj htail
          exact ⟨[], entry, before, later, rest, rfl, by simp, answered⟩

/-- A message that calls something is no result, so it is kept if the first passes leave it. -/
theorem keeps_iff_of_group {messages results : List MessageEntry} {result : MessageEntry}
    (h : Group messages before entry results after) (hresult : result ∈ results) :
    self.Keeps before entry ↔ self.survives entry = true := by
  have hcalls : callIds entry ≠ [] := by
    intro hnone
    have hperm := h.answered
    rw [hnone, List.map_nil, List.perm_nil, List.map_eq_nil_iff] at hperm
    rw [hperm] at hresult
    exact absurd hresult List.not_mem_nil
  rw [keeps_iff, and_iff_left]
  rintro ⟨-, tool, htool, -⟩
  exact hcalls (by rw [callIds, htool])

/-- The filter keeps the pairing of a paired context exactly if the context is tidy. -/
theorem keepsPairing_iff {messages : List MessageEntry}
    (h : Paired callIds answeredId messages) : self.KeepsPairing messages ↔ self.Tidy messages := by
  constructor
  · intro hkeeps before entry results after hgroup earlier result later hresults
    have hmem : result ∈ results := by simp [hresults]
    have htogether :=
      hkeeps.together before entry results after hgroup earlier result later hresults
    rw [keeps_iff_of_group hgroup hmem, keeps_iff] at htogether
    split
    · rename_i hstays
      exact htogether.mp hstays
    · rename_i hgoes
      intro hsurvives
      have hrepeats : self.Repeats (before ++ entry :: earlier) result := by
        by_contra hfresh
        exact hgoes (htogether.mpr ⟨hsurvives, hfresh⟩)
      refine ⟨hrepeats, hkeeps.consecutive _ result (later ++ after) ?_ hsurvives ?_⟩
      · rw [hgroup.place, hresults]
        simp
      · rw [keeps_iff]
        exact fun hkept => hkept.2 hrepeats
  · intro htidy
    constructor
    · intro before entry results after hgroup earlier result later hresults
      have hmem : result ∈ results := by simp [hresults]
      have hrule := htidy before entry results after hgroup earlier result later hresults
      rw [keeps_iff_of_group hgroup hmem, keeps_iff]
      split at hrule
      · rename_i hstays
        exact iff_of_true hstays hrule
      · rename_i hgoes
        refine iff_of_false hgoes ?_
        rintro ⟨hsurvives, hfresh⟩
        exact hfresh (hrule hsurvives).1
    · intro before result after hplace hsurvives hdropped
      have hrepeats : self.Repeats before result := by
        by_contra hfresh
        exact hdropped (keeps_iff.mpr ⟨hsurvives, hfresh⟩)
      obtain ⟨-, tool, htool, -⟩ := hrepeats
      have hanswered : answeredId result ≠ none := by simp [answeredId, htool]
      obtain ⟨front, entry, earlier, later, rest, rfl, hgroup⟩ := exists_group h hplace hanswered
      have hrule := htidy front entry _ rest hgroup earlier result later rfl
      split at hrule
      · exact absurd (keeps_iff.mpr hrule) hdropped
      · exact (hrule hsurvives).2

/-- A message that calls a tool. -/
def readingEntry : MessageEntry :=
  .from (.text
    { role := .assistant
      content := "Reading."
      rawContent := none
      toolCalls := some [⟨"read", some "1", .unparsed "{}", none⟩]
      thoughtSignature := none
      model := none
      reasoningDetails := none
      droppable := false
      phase := none })

/-- The result of its call, with a text. -/
def readEntry (text : String) : MessageEntry :=
  .from (.tool { name := "read", callId := some "1", output := ⟨false, [.text text]⟩ })

theorem paired_read (text : String) :
    Paired callIds answeredId [readingEntry, readEntry text] :=
  paired_cons_iff.mpr ⟨rfl, [readEntry text], [], rfl, List.Perm.refl _, .nil⟩

theorem keepsPairing_iff_read :
    (PreCompactionFilter.mk .default).KeepsPairing [readingEntry, readEntry "a long enough text"] ↔
      (PreCompactionFilter.mk .default).Tidy [readingEntry, readEntry "a long enough text"] :=
  keepsPairing_iff (paired_read "a long enough text")

/-- The result of the call is too short to be kept, and the call is kept. -/
theorem not_keepsPairing_short :
    Paired callIds answeredId [readingEntry, readEntry "ok"] ∧
      ¬ (PreCompactionFilter.mk .default).KeepsPairing [readingEntry, readEntry "ok"] := by
  refine ⟨paired_read "ok", fun h => ?_⟩
  have hgroup : Group [readingEntry, readEntry "ok"] [] readingEntry [readEntry "ok"] [] :=
    ⟨rfl, List.Perm.refl _⟩
  have htogether := h.together _ _ _ _ hgroup [] (readEntry "ok") [] rfl
  rw [keeps_iff_of_group hgroup List.mem_cons_self, keeps_iff] at htogether
  have hshort := (htogether.mp (by decide)).1
  exact absurd hshort (by decide)

end PreCompactionFilter

end HeliosLite
