import Mathlib.Data.Rat.Floor
import HeliosLite.Domain.Conversation

/-!
# The compactor

A strategy says how many messages a compaction keeps, and which range of messages it replaces.
Compaction replaces that range by one user message that summarises them, drops the droppable
messages and carries the last reasoning of the range over to the first assistant message that
remains.

## Main definitions

* `CompactionStrategy.toFixed` — a strategy as a number of messages to keep
* `findSequencePreservingLastN` — the range of messages to replace: from the first
  assistant message to the last message that is not kept, moved back where it would
  separate a tool call from its results
* `CompactionStrategy.evictionRange` — the range a strategy picks
* `Compactor.compressSingleSequence` — one range replaced by its summary
* `Compactor.compact` — compaction of a context
-/

namespace HeliosLite

open Serde

/-- The settings of a compaction; the eviction window is a fraction of the context. -/
structure Compact where
  retentionWindow : ℕ
  evictionWindow : ℚ

inductive CompactionStrategy where
  | evict (percentage : ℚ)
  | retain (preserveLastN : ℕ)
  | min (a b : CompactionStrategy)
  | max (a b : CompactionStrategy)

/-- The first message, system messages apart, at which the budget is used up. -/
def evictionIndex [JsonText] : List MessageEntry → (index budget : ℕ) → Option ℕ
  | [], _, _ => none
  | entry :: messages, index, budget =>
    if entry.message.hasRole .system then evictionIndex messages (index + 1) budget
    else
      let budget := budget - entry.message.tokenCountApprox
      if budget = 0 then some index else evictionIndex messages (index + 1) budget

/-- The number of messages that a strategy keeps. -/
def CompactionStrategy.toFixed [JsonText] (context : Context) : CompactionStrategy → ℕ
  | .evict percentage =>
    let percentage := Min.min percentage 1
    let evictionBudget := ⌈percentage * context.tokenCount⌉₊
    match evictionIndex context.messages 0 evictionBudget with
    | some i => i
    | none => context.messages.length - 1
  | .retain fixed => fixed
  | .min a b => Min.min (a.toFixed context) (b.toFixed context)
  | .max a b => Max.max (a.toFixed context) (b.toFixed context)

/-- Whether there is a message at the index and it satisfies `p`. -/
def messageAt (messages : List MessageEntry) (index : ℕ) (p : ContextMessage → Bool) : Bool :=
  messages[index]?.any fun entry => p entry.message

/-- Walks back over tool results, not past `start`. -/
def skipToolResults (messages : List MessageEntry) (start : ℕ) : ℕ → ℕ
  | 0 => 0
  | last + 1 =>
    if start ≤ last + 1 ∧ messageAt messages (last + 1) ContextMessage.hasToolResult then
      skipToolResults messages start last
    else last + 1

/-- The range of messages to replace so that the last `maxRetention` are kept. -/
def findSequencePreservingLastN (context : Context) (maxRetention : ℕ) : Option (ℕ × ℕ) :=
  let messages := context.messages
  let length := messages.length
  if messages.isEmpty then none
  else
    match messages.findIdx? fun entry => entry.message.hasRole .assistant with
    | none => none
    | some start =>
      if length ≤ start then none
      else if length ≤ maxRetention then none
      else
        let last := length - maxRetention - 1
        if last < start ∨ length ≤ last then none
        -- Don't break between a tool call and its result
        else if messageAt messages last ContextMessage.hasToolCall then
          if last = start then none else some (start, last - 1)
        else
          let last :=
            if messageAt messages last ContextMessage.hasToolResult ∧
                messageAt messages (last + 1) ContextMessage.hasToolResult then
              skipToolResults messages start last - 1
            else last
          if start ≤ last then some (start, last) else none

/-- The range of messages that the strategy replaces. -/
def CompactionStrategy.evictionRange [JsonText] (strategy : CompactionStrategy)
    (context : Context) : Option (ℕ × ℕ) :=
  findSequencePreservingLastN context (strategy.toFixed context)

/-! ### Compaction of a context -/

/-- A compactor: its settings, and how a range of messages is rendered as a summary. -/
structure Compactor where
  settings : Compact
  renderSummary : List MessageEntry → Except String String

/-- The entries from `start` to `last`, when there are that many. -/
def getRange (messages : List MessageEntry) (start last : ℕ) : Option (List MessageEntry) :=
  if start ≤ last + 1 ∧ last < messages.length then
    some ((messages.drop start).take (last + 1 - start))
  else none

/-- The non-empty reasoning of a text message. -/
def reasoningOf (entry : MessageEntry) : Option (List ReasoningFull) :=
  match entry.message with
  | .text message => message.reasoningDetails.filter fun details => !details.isEmpty
  | _ => none

/-- Sets the reasoning of the first assistant message, if that message has none. -/
def setFirstReasoning (reasoning : List ReasoningFull) :
    List MessageEntry → List MessageEntry
  | [] => []
  | entry :: messages =>
    if entry.message.hasRole .assistant then
      match entry.message with
      | .text message =>
        if (message.reasoningDetails.getD []).isEmpty then
          { entry with message := .text { message with reasoningDetails := some reasoning } }
            :: messages
        else entry :: messages
      | _ => entry :: messages
    else entry :: setFirstReasoning reasoning messages

/-- The preserved reasoning, if any, put into the first assistant message. -/
def injectReasoning (reasoning : Option (List ReasoningFull)) (messages : List MessageEntry) :
    List MessageEntry :=
  match reasoning with
  | some reasoning => setFirstReasoning reasoning messages
  | none => messages

namespace Compactor

/-- Replaces the messages of the range by their summary. -/
def compressSingleSequence (self : Compactor) (context : Context) (sequence : ℕ × ℕ) :
    Except String Context := do
  let (start, last) := sequence
  let slice := getRange context.messages start last
  let compactionSequence :=
    (slice.map (List.filter fun entry => !entry.message.isDroppable)).getD []
  let summary ← self.renderSummary compactionSequence
  let reasoningDetails := compactionSequence.reverse.findSome? reasoningOf
  let compactedUsage := slice.bind fun slice => slice.reverse.findSome? (·.usage)
  let summaryEntry : MessageEntry :=
    { message := .user summary none, usage := compactedUsage }
  let messages :=
    context.messages.take start ++ summaryEntry :: context.messages.drop (last + 1)
  -- Remove all droppable messages from the context
  let messages := messages.filter fun entry => !entry.message.isDroppable
  return { context with messages := injectReasoning reasoningDetails messages }

variable [JsonText]

/-- The strategy that `compact` follows. -/
def strategy (self : Compactor) (max : Bool) : CompactionStrategy :=
  let eviction := CompactionStrategy.evict self.settings.evictionWindow
  let retention := CompactionStrategy.retain self.settings.retentionWindow
  if max then retention else eviction.min retention

/-- Compaction of a context. -/
def compact (self : Compactor) (context : Context) (max : Bool) : Except String Context :=
  match (self.strategy max).evictionRange context with
  | some sequence => self.compressSingleSequence context sequence
  | none => .ok context

end Compactor

end HeliosLite
