import HeliosLite.Domain.Message
import HeliosLite.Serde.StringMap

/-!
# Contexts and conversations

The request that is sent to a provider: messages, tools and sampling parameters. A conversation has
such a context and the metrics of its session.

## Main definitions

* `Context` — messages with the settings of the request
* `Context.tokenCount` — the tokens of a context, as reported or as estimated
* `Metrics` — the file operations, accessed files and todos of a session
* `Conversation` — what the store keeps
-/

namespace HeliosLite

open Serde

/-- A JSON schema is an object or a boolean. -/
def isSchema : Json → Bool
  | .obj _ | .bool _ => true
  | _ => false

structure Schema where
  value : Value
  shape : isSchema value.val
  deriving DecidableEq

structure ToolDefinition where
  name : String
  description : String
  inputSchema : Schema
  deriving DecidableEq

inductive ToolChoice where
  | none
  | auto
  | required
  | call (name : String)
  deriving DecidableEq, Repr

inductive Effort where
  | none
  | minimal
  | low
  | medium
  | high
  | xHigh
  | max
  deriving DecidableEq, Repr

structure ReasoningConfig where
  effort : Option Effort
  maxTokens : Option UInt64
  exclude : Option Bool
  enabled : Option Bool
  deriving DecidableEq, Repr

inductive ResponseFormat where
  | text
  | jsonSchema (schema : Schema)
  deriving DecidableEq

/-- A request to a provider. -/
structure Context where
  conversationId : Option ConversationId
  initiator : Option String
  messages : List MessageEntry
  tools : List ToolDefinition
  toolChoice : Option ToolChoice
  maxTokens : Option UInt64
  temperature : Option F32
  topP : Option F32
  topK : Option UInt32
  reasoning : Option ReasoningConfig
  stream : Option Bool
  responseFormat : Option ResponseFormat
  deriving DecidableEq

namespace Context

/-- The context without messages and settings. -/
def default : Context :=
  { conversationId := none
    initiator := none
    messages := []
    tools := []
    toolChoice := none
    maxTokens := none
    temperature := none
    topP := none
    topK := none
    reasoning := none
    stream := none
    responseFormat := none }

/-- The context with the message appended. -/
def addMessage (context : Context) (message : ContextMessage) : Context :=
  { context with messages := context.messages ++ [MessageEntry.from message] }

variable [JsonText]

def tokenCountApprox (context : Context) : ℕ :=
  (context.messages.map fun entry => entry.message.tokenCountApprox).sum

/-- The total that the last message reports, when it is an actual positive count, and
the estimate otherwise. -/
def tokenCount (context : Context) : ℕ :=
  match context.messages.getLast?.bind (·.usage) with
  | some usage =>
    match usage.totalTokens with
    | .actual n => if 0 < n then n.toNat else context.tokenCountApprox
    | .approx _ => context.tokenCountApprox
  | none => context.tokenCountApprox

end Context

/-- A UTC time in the years 0 to 9999, in nanoseconds since the epoch. -/
structure DateTime where
  nanos : ℤ
  lower : -62167219200000000000 ≤ nanos
  upper : nanos < 253402300800000000000
  deriving DecidableEq

/-- The epoch itself. -/
def DateTime.epoch : DateTime := { nanos := 0, lower := by decide, upper := by decide }

/-- The built-in tools. -/
inductive ToolKind where
  | read
  | write
  | fsSearch
  | semSearch
  | remove
  | patch
  | multiPatch
  | undo
  | shell
  | fetch
  | followup
  | plan
  | skill
  | todoWrite
  | todoRead
  | task
  deriving DecidableEq, Repr

/-- The last operation on a file. -/
structure FileOperation where
  linesAdded : UInt64
  linesRemoved : UInt64
  contentHash : Option String
  tool : ToolKind
  deriving DecidableEq, Repr

inductive TodoStatus where
  | pending
  | inProgress
  | completed
  | cancelled
  deriving DecidableEq, Repr

structure Todo where
  id : String
  content : String
  status : TodoStatus
  deriving DecidableEq, Repr

/-- What a session did so far. -/
structure Metrics where
  startedAt : Option DateTime
  fileOperations : StringMap FileOperation
  filesAccessed : StringSet
  todos : List Todo
  deriving DecidableEq

namespace Metrics

/-- The metrics of a session that did nothing. -/
def default : Metrics :=
  { startedAt := none
    fileOperations := StringMap.empty
    filesAccessed := StringMap.empty
    todos := [] }

/-- The files whose last operation was a read. -/
def filesRead (operations : StringMap FileOperation) : StringSet :=
  operations.filterMap fun _ operation => if operation.tool = .read then some () else none

end Metrics

structure MetaData where
  createdAt : DateTime
  updatedAt : Option DateTime
  deriving DecidableEq

structure Conversation where
  id : ConversationId
  title : Option String
  context : Option Context
  metrics : Metrics
  metadata : MetaData
  parentId : Option ConversationId
  source : Option String
  cwd : Option String
  messageCount : Option Int32
  deriving DecidableEq

namespace Conversation

/-- The messages of a conversation. -/
def messages (conversation : Conversation) : List MessageEntry :=
  (conversation.context.map (·.messages)).getD []

end Conversation

end HeliosLite
