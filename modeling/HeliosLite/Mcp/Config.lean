import HeliosLite.Serde.StringMap

/-!
# Configurations of MCP servers

The servers of the user and those of the project are merged, the latter first. The servers of the
project have to be accepted, and the answer is remembered under the hash of the file.

## Main definitions

* `McpConfig.cacheKey` — the FNV-1a hash of a configuration
* `McpTrustStore` — the answers that are remembered
* `McpFiles.readMcpConfig` — the merged configuration
* `McpFiles.filterTrusted` — its servers that are trusted, and what is remembered then

## Main results

* `McpFiles.filterTrusted_filterTrusted` — the answer that is remembered is the one given
-/

namespace HeliosLite

open Serde

/-! ### Servers -/

structure McpStdioServer where
  command : String
  args : List String
  env : StringMap String
  timeout : Option UInt64
  disable : Bool
  deriving DecidableEq

structure McpOAuthConfig where
  clientId : Option String
  clientSecret : Option String
  scopes : List String
  authUrl : Option String
  tokenUrl : Option String
  redirectUri : Option String
  deriving DecidableEq

inductive McpOAuthSetting where
  | autoDetect
  | disabled
  | configured (config : McpOAuthConfig)
  deriving DecidableEq

structure McpHttpServer where
  url : String
  headers : StringMap String
  timeout : Option UInt64
  disable : Bool
  oauth : McpOAuthSetting
  deriving DecidableEq

inductive McpServerConfig where
  | stdio (server : McpStdioServer)
  | http (server : McpHttpServer)
  deriving DecidableEq

def McpServerConfig.isDisabled : McpServerConfig → Bool
  | stdio v => v.disable
  | http v => v.disable

structure McpConfig where
  mcpServers : StringMap McpServerConfig
  deriving DecidableEq

/-! ### Hashes -/

/-- The bytes that a value feeds to a hasher. -/
class HashBytes (α : Type) where
  bytes : α → List UInt8

namespace HashBytes

def ofNat (n : ℕ) : List UInt8 := (List.range 8).map fun i => UInt8.ofNat (n / 256 ^ i)

instance : HashBytes UInt64 := ⟨fun n => ofNat n.toNat⟩

instance : HashBytes Bool := ⟨fun b => [if b then 1 else 0]⟩

instance : HashBytes String := ⟨fun s => s.toUTF8.data.toList ++ [0xff]⟩

variable {α : Type} [HashBytes α]

instance : HashBytes (Option α) := ⟨fun o => o.elim (ofNat 0) fun a => ofNat 1 ++ bytes a⟩

instance : HashBytes (List α) := ⟨fun l => ofNat l.length ++ l.flatMap bytes⟩

instance : HashBytes (StringMap α) :=
  ⟨fun m => ofNat m.entries.length ++ m.entries.flatMap fun e => bytes e.1 ++ bytes e.2⟩

instance : HashBytes McpStdioServer :=
  ⟨fun v => bytes v.command ++ bytes v.args ++ bytes v.env ++ bytes v.timeout ++ bytes v.disable⟩

instance : HashBytes McpOAuthConfig :=
  ⟨fun v => bytes v.clientId ++ bytes v.clientSecret ++ bytes v.scopes ++ bytes v.authUrl ++
    bytes v.tokenUrl ++ bytes v.redirectUri⟩

instance : HashBytes McpOAuthSetting :=
  ⟨fun
    | .autoDetect => ofNat 0
    | .disabled => ofNat 1
    | .configured config => ofNat 2 ++ bytes config⟩

instance : HashBytes McpHttpServer :=
  ⟨fun v => bytes v.url ++ bytes v.headers ++ bytes v.timeout ++ bytes v.disable ++ bytes v.oauth⟩

instance : HashBytes McpServerConfig :=
  ⟨fun
    | .stdio v => ofNat 0 ++ bytes v
    | .http v => ofNat 1 ++ bytes v⟩

instance : HashBytes McpConfig := ⟨fun config => bytes config.mcpServers⟩

end HashBytes

/-- The FNV-1a hash of some bytes. -/
@[irreducible] def fnv (bytes : List UInt8) : UInt64 :=
  bytes.foldl (fun hash byte => (hash ^^^ byte.toUInt64) * 0x100000001b3) 0xcbf29ce484222325

namespace McpConfig

def default : McpConfig := ⟨StringMap.empty⟩

def cacheKey (config : McpConfig) : UInt64 := fnv (HashBytes.bytes config)

/-- The servers of the other configuration replace those of the same name. -/
def mergeFrom (config other : McpConfig) : McpConfig :=
  ⟨other.mcpServers.entries.foldl (fun servers e => servers.insert e.1 e.2) config.mcpServers⟩

/-- The servers that are not disabled. -/
def enabled (config : McpConfig) : List String :=
  (config.mcpServers.entries.filter fun e => !e.2.isDisabled).map Prod.fst

end McpConfig

/-! ### Trust -/

inductive McpTrustResponse where
  | accept
  | reject
  deriving DecidableEq, Repr

/-- The hashes that were accepted and rejected, by path. -/
structure McpTrustStore where
  trusted : StringMap UInt64
  rejected : StringMap UInt64
  deriving DecidableEq

namespace McpTrustStore

def default : McpTrustStore := ⟨StringMap.empty, StringMap.empty⟩

def isTrusted (store : McpTrustStore) (path : String) (contentHash : UInt64) : Bool :=
  store.trusted.get? path = some contentHash

def isRejected (store : McpTrustStore) (path : String) (contentHash : UInt64) : Bool :=
  store.rejected.get? path = some contentHash

def remember (store : McpTrustStore) (path : String) (contentHash : UInt64) : McpTrustStore :=
  { trusted := store.trusted.insert path contentHash, rejected := store.rejected.erase path }

def reject (store : McpTrustStore) (path : String) (contentHash : UInt64) : McpTrustStore :=
  { trusted := store.trusted.erase path, rejected := store.rejected.insert path contentHash }

end McpTrustStore

/-- The servers that the trusted configuration has too, with the same settings. -/
def retainTrustedServers (raw trusted : StringMap McpServerConfig) : StringMap McpServerConfig :=
  raw.filterMap fun name server => if trusted.get? name = some server then some server else none

/-- The configurations of the user and of the project, if they exist, and the path of the latter. -/
structure McpFiles where
  userConfig : Option McpConfig
  localConfig : Option McpConfig
  localPath : String

namespace McpFiles

variable (files : McpFiles) (answer : Option McpTrustResponse)

/-- The merged configuration. -/
def readMcpConfig : McpConfig :=
  (McpConfig.default.mergeFrom (files.userConfig.getD McpConfig.default)).mergeFrom
    (files.localConfig.getD McpConfig.default)

/-- The configuration of the project if it is trusted, and what is remembered; `answer` is that of
the user if there is a prompt. -/
def applyTrustGate (store : McpTrustStore) (config : McpConfig) : McpConfig × McpTrustStore :=
  if config.mcpServers.isEmpty then (config, store)
  else if store.isTrusted files.localPath config.cacheKey then (config, store)
  else if store.isRejected files.localPath config.cacheKey then (McpConfig.default, store)
  else
    match answer with
    | some .accept => (config, store.remember files.localPath config.cacheKey)
    | some .reject | none =>
      (McpConfig.default, store.reject files.localPath config.cacheKey)

/-- The servers that are trusted, and what is remembered. -/
def filterTrusted (store : McpTrustStore) (raw : McpConfig) : McpConfig × McpTrustStore :=
  let (trustedLocal, store) :=
    match files.localConfig with
    | some config => files.applyTrustGate answer store config
    | none => (McpConfig.default, store)
  let merged := (files.userConfig.getD McpConfig.default).mergeFrom trustedLocal
  (⟨retainTrustedServers raw.mcpServers merged.mcpServers⟩, store)

variable {files answer} {store : McpTrustStore}

/-- The gate asks once. -/
theorem applyTrustGate_applyTrustGate (config : McpConfig) :
    files.applyTrustGate answer (files.applyTrustGate answer store config).2 config =
      files.applyTrustGate answer store config := by
  by_cases hempty : config.mcpServers.isEmpty
  · simp [applyTrustGate, hempty]
  cases htrusted : store.isTrusted files.localPath config.cacheKey with
  | true => simp [applyTrustGate, hempty, htrusted]
  | false =>
    cases hrejected : store.isRejected files.localPath config.cacheKey with
    | true => simp [applyTrustGate, hempty, htrusted, hrejected]
    | false =>
      have hreject : (store.reject files.localPath config.cacheKey).isTrusted files.localPath
          config.cacheKey = false := by
        simp [McpTrustStore.isTrusted, McpTrustStore.reject]
      have hrejects : (store.reject files.localPath config.cacheKey).isRejected files.localPath
          config.cacheKey := by
        simp [McpTrustStore.isRejected, McpTrustStore.reject, StringMap.get?_insert]
      have hremember : (store.remember files.localPath config.cacheKey).isTrusted files.localPath
          config.cacheKey := by
        simp [McpTrustStore.isTrusted, McpTrustStore.remember, StringMap.get?_insert]
      rcases answer with _ | ⟨_ | _⟩ <;>
        simp [applyTrustGate, hempty, htrusted, hrejected, hreject, hrejects, hremember]

/-- The same servers are trusted when it is asked again. -/
theorem filterTrusted_filterTrusted (raw : McpConfig) :
    files.filterTrusted answer (files.filterTrusted answer store raw).2 raw =
      files.filterTrusted answer store raw := by
  cases hlocal : files.localConfig with
  | none => simp [filterTrusted, hlocal]
  | some config => simp [filterTrusted, hlocal, applyTrustGate_applyTrustGate]

end McpFiles

end HeliosLite
