import HeliosLite.Storage.Store

/-!
# The write daemon

A daemon applies mutations to the same table on behalf of its clients. It takes the
workspace of a mutation from the request, encodes the context as the repository does, and
writes its statements itself.

## Main definitions

* `persistContext` — the context columns, as the daemon derives them
* `ConversationMutation` — the mutations of a scoped request
* `DbServer.executeWithConn` — a request executed on the store
-/

namespace HeliosLite

open Serde Serde.Json Theory

variable [Libraries]

/-- The context columns that the daemon writes. -/
structure PersistedContext where
  context : Option String
  messageCount : Option Int32
  contextZstd : Option ByteArray
  isCompressed : Int32
  deriving DecidableEq

/-- A blank context counts as none, also for the message count. -/
def persistContext (context : Option Context) : PersistedContext :=
  match context.filter fun c => !c.isBlank with
  | none => { context := none, messageCount := none, contextZstd := none, isCompressed := 0 }
  | some c =>
    match Libraries.compress c.recordText with
    | some blob =>
      { context := none
        messageCount := some c.messageCount
        contextZstd := some blob
        isCompressed := 1 }
    | none =>
      { context := some c.recordText
        messageCount := some c.messageCount
        contextZstd := none
        isCompressed := 0 }

/-- The tool calls of a message. -/
def ContextMessage.calls : ContextMessage → List ToolCallFull
  | .text message => message.toolCalls.getD []
  | .tool _ | .image _ => []

namespace Conversation

/-- The tool calls of a conversation. -/
def calls (conversation : Conversation) : List ToolCallFull :=
  conversation.messages.flatMap fun entry => entry.message.calls

/-- The conversation converts to a JSON value: no tool call has raw arguments that the
parser refuses. Nothing else in a conversation can fail. -/
def toValueSucceeds (conversation : Conversation) : Bool :=
  conversation.calls.all fun call => call.arguments.toValue.isSome

end Conversation

/-- A mutation whose workspace the client supplies with the request. -/
inductive ConversationMutation where
  | upsertConversation (conversation : Conversation)
  | upsertConversationRef (conversation : Conversation)
  | updateParentId (conversationId : ConversationId) (newParentId : Option ConversationId)
  | deleteConversation (conversationId : ConversationId)
  deriving DecidableEq

/-- The requests that concern conversations. -/
inductive Request where
  | mutationV2 (workspaceId : Int64) (mutation : ConversationMutation)
  | upsertConversation (conversation : Conversation)
  | upsertConversationRef (conversation : Conversation)
  | updateParentId (conversationId : ConversationId) (newParentId : Option ConversationId)
  | deleteConversation (conversationId : ConversationId)
  deriving DecidableEq

inductive Response where
  | ack
  | error (message : String)
  deriving DecidableEq

namespace DbServer

/-- The row that the daemon inserts. The metrics are written without their record. -/
def newRow (conversation : Conversation) (workspaceId : Int64) (now : DateTime) :
    ConversationRecord :=
  let persisted := persistContext conversation.context
  { conversationId := conversation.id.intoString
    title := conversation.title
    workspaceId := some workspaceId
    context := persisted.context
    createdAt := .rfc3339 conversation.metadata.createdAt
    updatedAt := some (.strftime now)
    metrics := some (toText conversation.metrics.serialize)
    parentId := conversation.parentId.map (·.intoString)
    source := conversation.source
    cwd := conversation.cwd
    messageCount := persisted.messageCount
    intentState := "pending"
    extractedAt := none
    memoryId := none
    intentHash := none
    contextZstd := persisted.contextZstd
    isCompressed := persisted.isCompressed }

/-- `INSERT … ON CONFLICT DO UPDATE` without a condition on the workspace. It fails, with
the serializer's error, when the conversation has no JSON value. -/
def upsertConversation (s : Store) (conversation : Conversation) (workspaceId : Int64)
    (now : DateTime) : Option Store :=
  if conversation.toValueSucceeds then
    let row := newRow conversation workspaceId now
    match s.insertRow row with
    | some inserted => some inserted
    | none =>
      some
        { s with
          conversations := s.conversations.update
            (fun r => r.conversationId == row.conversationId) row.onConflict fun _ => rfl }
  else none

def updateParentId (s : Store) (conversationId : ConversationId)
    (newParentId : Option ConversationId) (workspaceId : Int64) (now : DateTime) : Store :=
  s.updateOwned conversationId.intoString workspaceId
    (fun r => { r with
      parentId := newParentId.map (·.intoString)
      updatedAt := some (.strftime now) }) fun _ => rfl

def deleteConversation (s : Store) (conversationId : ConversationId) (workspaceId : Int64) :
    Store :=
  { s with
    conversations := s.conversations.delete
      (ConversationRecord.isOwned conversationId.intoString workspaceId) }

/-- A scoped mutation is executed; the older forms without a workspace are refused. -/
def executeWithConn (s : Store) (request : Request) (now : DateTime) :
    Option (Response × Store) :=
  match request with
  | .mutationV2 workspaceId mutation =>
    match mutation with
    | .upsertConversation conversation | .upsertConversationRef conversation =>
      (upsertConversation s conversation workspaceId now).map fun s => (.ack, s)
    | .updateParentId conversationId newParentId =>
      some (.ack, updateParentId s conversationId newParentId workspaceId now)
    | .deleteConversation conversationId =>
      some (.ack, deleteConversation s conversationId workspaceId)
  | .upsertConversation _ | .upsertConversationRef _ | .updateParentId _ _
  | .deleteConversation _ =>
    some (.error "legacy unscoped mutation rejected; negotiate protocol v2", s)

end DbServer

end HeliosLite
