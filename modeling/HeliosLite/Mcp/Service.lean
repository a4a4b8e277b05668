import Mathlib.Data.List.SplitBy
import Mathlib.Logic.Function.Basic
import HeliosLite.Domain.Conversation
import HeliosLite.Mcp.Config
import HeliosLite.Theory.Occurrence
import HeliosLite.Theory.Run

/-!
# The MCP service

Tool calls and listings run at a time and share a table of tools, which the first of them fills. It
is filled anew when the hash of the configuration is not the noted one; what is noted is the hash of
the servers that are trusted.

## Main definitions

* `generateMcpToolName`, `toLegacyMcpName` — the names of tools
* `McpSystem` — the service, where each call stands, and what was connected
* `McpSystem.step` — what a call does up to the next point where others may run

## Main results

* `ForgeMcpService.get?_insertClients` — what a server that is connected adds to the table
-/

namespace HeliosLite

open Serde Theory

/-! ### Names -/

/-- The lowercase of a character, where it is an ASCII one; any other is not kept in a name. -/
def lowercaseChar (c : Char) : List Char :=
  if c = '\u212a' then ['k'] else if c = '\u0130' then ['i', '\u0307'] else [c.toLower]

/-- The name in lowercase, with an underscore for each stretch of other characters. -/
def sanitized (input : String) : String :=
  let cleaned := (input.toList.flatMap lowercaseChar).map fun c =>
    if c.isLower ∨ c.isDigit then c else '_'
  let parts := (cleaned.splitOn '_').filter (· ≠ [])
  "_".intercalate (parts.map String.ofList)

def generateMcpToolName (serverName toolName : String) : String :=
  "mcp_" ++ sanitized serverName ++ "_tool_" ++ sanitized toolName

/-- `mcp__{server}__{tool}` as `mcp_{server}_tool_{tool}`. -/
def toLegacyMcpName (name : String) : Option String := do
  guard ("mcp__".toList <+: name.toList)
  let (server, tool) ← splitFirst "__".toList (name.toList.drop 5)
  some ("mcp_" ++ String.ofList server ++ "_tool_" ++ String.ofList tool)

/-! ### The service -/

/-- A tool under its generated name, with its server and its name there. -/
structure ToolHolder where
  definition : ToolDefinition
  toolName : String
  serverName : String
  deriving DecidableEq

structure McpServers where
  servers : StringMap (List ToolDefinition)
  failures : StringMap String
  deriving DecidableEq

structure ForgeMcpService where
  tools : StringMap ToolHolder
  failedServers : StringMap String
  previousConfigHash : UInt64
  /-- The call that holds the lock. -/
  initLock : Option ℕ
  deriving DecidableEq

namespace ForgeMcpService

def isConfigModified (service : ForgeMcpService) (config : McpConfig) : Bool :=
  service.previousConfigHash ≠ config.cacheKey

/-- The tools of a server, under their generated names. -/
def holders (serverName : String) (tools : List ToolDefinition) : List ToolHolder :=
  tools.map fun tool =>
    { definition := { tool with name := generateMcpToolName serverName tool.name }
      toolName := tool.name
      serverName := serverName }

def insertClients (service : ForgeMcpService) (holders : List ToolHolder) : ForgeMcpService :=
  { service with
    tools := holders.foldl (fun tools holder => tools.insert holder.definition.name holder)
      service.tools }

/-- The tool of that name, or of the name in the other format. -/
def findTool (service : ForgeMcpService) (name : String) : Option ToolHolder :=
  (service.tools.get? name).or ((toLegacyMcpName name).bind service.tools.get?)

/-- A name stands for a tool that was inserted under it, or for what it stood for before. -/
theorem get?_insertClients (service : ForgeMcpService) (holders : List ToolHolder)
    (name : String) :
    (service.insertClients holders).tools.get? name =
      ((holders.reverse.find? fun holder => holder.definition.name = name).or
        (service.tools.get? name)) := by
  rw [insertClients]
  dsimp only
  generalize service.tools = tools
  induction holders generalizing tools with
  | nil => simp
  | cons holder holders ih =>
    rw [List.foldl_cons, ih, StringMap.get?_insert, List.reverse_cons, List.find?_append,
      Option.or_assoc]
    congr 1
    by_cases hname : name = holder.definition.name
    · simp [hname]
    · simp [hname, Ne.symm hname]

/-- The tools by server, and the servers that failed. -/
def list (service : ForgeMcpService) : McpServers :=
  { servers := service.tools.entries.foldl
      (fun grouped e =>
        grouped.insert e.2.serverName
          ((grouped.get? e.2.serverName).getD [] ++ [e.2.definition]))
      StringMap.empty
    failures := service.failedServers }

end ForgeMcpService

/-! ### Calls -/

/-- What a call does once the servers are connected. -/
inductive McpGoal where
  | execute (name : String)
  | list
  deriving DecidableEq

/-- Where a call stands. -/
inductive McpPhase where
  | idle
  /-- A listing, before the trust gate, and before the cache. -/
  | gating
  | lookingUp
  /-- Before the configuration is read, compared, locked and compared again. -/
  | reading (goal : McpGoal)
  | checking (goal : McpGoal)
  | waiting (goal : McpGoal)
  | rechecking (goal : McpGoal)
  /-- Before the trust gate, and in the update. -/
  | filtering (goal : McpGoal)
  | clearing (goal : McpGoal) (mcp : McpConfig)
  | forgetting (goal : McpGoal) (mcp : McpConfig)
  | connecting (goal : McpGoal) (newHash : UInt64) (pending : List String)
      (failures : List (String × String))
  | noting (goal : McpGoal) (newHash : UInt64)
  /-- Before the table is read. -/
  | ready (goal : McpGoal)
  | executed (tool : Option ToolHolder)
  | listed (servers : McpServers)
  | failed
  deriving DecidableEq

/-- How a step of a call ends; `hit` is a listing that is in the cache. -/
inductive McpOutcome where
  | done
  | hit (servers : McpServers)
  | connected (serverName : String) (tools : List ToolDefinition)
  | unconnected (serverName error : String)
  | fails
  deriving DecidableEq

inductive McpEvent where
  | executeMcp (call : ℕ) (name : String)
  | getMcpServers (call : ℕ)
  | step (call : ℕ) (outcome : McpOutcome)
  deriving DecidableEq

/-- The service, what is remembered on trust, and where each call stands. The last three fields say
how many updates were begun and completed, and which tools were connected. -/
structure McpSystem where
  service : ForgeMcpService
  store : McpTrustStore
  phases : ℕ → McpPhase
  updates : ℕ
  completed : ℕ
  connected : List ToolHolder

namespace McpSystem

variable (files : McpFiles) (answer : Option McpTrustResponse)

def start (store : McpTrustStore) : McpSystem where
  service :=
    { tools := StringMap.empty
      failedServers := StringMap.empty
      previousConfigHash := 0
      initLock := none }
  store := store
  phases _ := .idle
  updates := 0
  completed := 0
  connected := []

section Steps

variable (s : McpSystem) (call : ℕ)

def goTo (phase : McpPhase) : McpSystem := { s with phases := Function.update s.phases call phase }

/-- The lock is taken or released. -/
def setLock (holder : Option ℕ) : McpSystem :=
  { s with service := { s.service with initLock := holder } }

/-- What a call does from a phase. The configuration and the answer of the user stay the same. -/
def advance : McpPhase → McpOutcome → McpSystem
  | .gating, .done =>
    { s with store := (files.filterTrusted answer s.store files.readMcpConfig).2 }.goTo call
      .lookingUp
  | .lookingUp, .hit servers => s.goTo call (.listed servers)
  | .lookingUp, .done => s.goTo call (.reading .list)
  | .reading goal, .done => s.goTo call (.checking goal)
  | .checking goal, .done =>
    if s.service.isConfigModified files.readMcpConfig then s.goTo call (.waiting goal)
    else s.goTo call (.ready goal)
  | .waiting goal, .done =>
    if s.service.initLock = none then (s.setLock (some call)).goTo call (.rechecking goal) else s
  | .rechecking goal, .done =>
    if s.service.isConfigModified files.readMcpConfig then s.goTo call (.filtering goal)
    else (s.setLock none).goTo call (.ready goal)
  | .filtering goal, .done =>
    let (trusted, store) := files.filterTrusted answer s.store files.readMcpConfig
    { s with store := store, updates := s.updates + 1 }.goTo call (.clearing goal trusted)
  | .filtering _, .fails => (s.setLock none).goTo call .failed
  | .clearing goal mcp, .done =>
    { s with service := { s.service with tools := StringMap.empty } }.goTo call
      (.forgetting goal mcp)
  | .forgetting goal mcp, .done =>
    { s with service := { s.service with failedServers := StringMap.empty } }.goTo call
      (.connecting goal mcp.cacheKey mcp.enabled [])
  | .connecting goal newHash pending failures, .connected serverName tools =>
    if serverName ∈ pending then
      { s with
        service := s.service.insertClients (ForgeMcpService.holders serverName tools)
        connected := s.connected ++ ForgeMcpService.holders serverName tools }.goTo call
          (.connecting goal newHash (pending.erase serverName) failures)
    else s
  | .connecting goal newHash pending failures, .unconnected serverName error =>
    if serverName ∈ pending then
      s.goTo call
        (.connecting goal newHash (pending.erase serverName) (failures ++ [(serverName, error)]))
    else s
  | .connecting goal newHash [] failures, .done =>
    { s with
      service :=
        { s.service with
          failedServers := failures.foldl
            (fun servers (e : String × String) => servers.insert e.1 e.2)
              s.service.failedServers } }.goTo call (.noting goal newHash)
  | .noting goal newHash, .done =>
    { s with
      service := { s.service with previousConfigHash := newHash, initLock := none }
      completed := s.completed + 1 }.goTo call (.ready goal)
  | .ready (.execute name), .done => s.goTo call (.executed (s.service.findTool name))
  | .ready .list, .done => s.goTo call (.listed s.service.list)
  | .gating, .fails | .lookingUp, .fails | .reading _, .fails => s.goTo call .failed
  | _, _ => s

end Steps

def step (s : McpSystem) : McpEvent → McpSystem
  | .executeMcp call name =>
    if s.phases call = .idle then s.goTo call (.reading (.execute name)) else s
  | .getMcpServers call => if s.phases call = .idle then s.goTo call .gating else s
  | .step call outcome => s.advance files answer call (s.phases call) outcome

end McpSystem

end HeliosLite
