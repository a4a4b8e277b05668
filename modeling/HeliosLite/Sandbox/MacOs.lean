import HeliosLite.Theory.SExpr
import Mathlib.Data.List.TakeWhile

/-!
# Sandbox profiles of macOS

A profile for `sandbox-exec` is put together from lines; the paths and the host names stand between
quotes in them as they are. What a profile means is what is read of it: a list of rules, of which
the last one that matches decides.

## Main definitions

* `SandboxConfig`, `buildProfile` — the configuration and the text of its profile
* `granted` — an access to the network is allowed by rules
* `NetworkPolicy.Permits` — an access is allowed by the policy
* `Faithful` — the profile has the rules of the configuration and grants what the policy permits

## Main results

* `plain_of_lex` — if the rules of the file system are read as they are meant, no path has a quote
  or a backslash
* `faithful_iff` — which profiles are faithful
* `not_takesBack` — a list of plain host names never is
-/

namespace HeliosLite

open Theory SExpr

namespace Sandbox

/-! ### The configuration -/

inductive NetworkPolicy where
  | denyAll
  | loopbackOnly
  | allowAll
  | allowList (hosts : List String)
  deriving DecidableEq, Repr

inductive FilesystemRule where
  | readOnly (path : String)
  | readWrite (path : String)
  | deny (path : String)
  deriving DecidableEq, Repr

def FilesystemRule.path : FilesystemRule → String
  | readOnly p => p
  | readWrite p => p
  | deny p => p

/-- What a profile is made from. -/
structure SandboxConfig where
  filesystem : List FilesystemRule := []
  network : NetworkPolicy := .denyAll
  deriving DecidableEq, Repr

/-! ### The profile -/

def preambleLines : List String :=
  ["(version 1)\n", "(deny default)\n",
    -- process execution, fork and exec
    "(allow process-exec)\n", "(allow process-fork)\n", "(allow signal)\n", "(allow sysctl-read)\n",
    "(allow mach-lookup)\n", "(allow ipc-posix-shm-read*)\n", "(allow ipc-posix-shm-write*)\n"]

def FilesystemRule.line : FilesystemRule → String
  | readOnly path => "(allow file-read* (subpath \"" ++ path ++ "\"))\n"
  | readWrite path => "(allow file-read* file-write* (subpath \"" ++ path ++ "\"))\n"
  | deny path => "(deny file-read* file-write* (subpath \"" ++ path ++ "\"))\n"

def hostLine (host : String) : String :=
  "(allow network-outbound (remote host \"" ++ host ++ "\"))\n"

def NetworkPolicy.lines : NetworkPolicy → List String
  | denyAll => ["(deny network*)\n"]
  | loopbackOnly =>
    ["(allow network* (local ip \"localhost:*\"))\n", "(deny network* (remote ip))\n"]
  | allowAll => ["(allow network*)\n"]
  | allowList hosts =>
    ["(allow network* (local ip))\n", "(allow network* (remote ip))\n"] ++ hosts.map hostLine

def buildProfile (config : SandboxConfig) : String :=
  String.join (preambleLines ++ config.filesystem.map FilesystemRule.line ++ config.network.lines)

/-! ### What rules mean -/

inductive NetworkOperation where
  | outbound
  | inbound
  | bind
  deriving DecidableEq, Repr

def NetworkOperation.name : NetworkOperation → String
  | outbound => "network-outbound"
  | inbound => "network-inbound"
  | bind => "network-bind"

/-- An access to the network: the address of the socket and that of the other side. -/
structure Access where
  operation : NetworkOperation
  localHost : String
  remoteHost : Option String
  deriving DecidableEq, Repr

/-- The name of operations in a rule, which may end in a star. -/
def namesOperation (pattern name : String) : Bool :=
  pattern = "default" || pattern = name ||
    (pattern.toList.getLast? = some '*' && pattern.toList.dropLast.isPrefixOf name.toList)

def filterMatches : SExpr → Access → Bool
  | .list [.atom "local", .atom "ip"], _ => true
  | .list [.atom "local", .atom "ip", .str address], a =>
    address = a.localHost.toList ++ ":*".toList
  | .list [.atom "remote", .atom "ip"], a => a.remoteHost.isSome
  | .list [.atom "remote", .atom "host", .str host], a => a.remoteHost.map String.toList = some host
  | _, _ => false

def isList : SExpr → Bool
  | .list _ => true
  | _ => false

/-- One of the operations is that of the access, and one of the filters, if there are any. -/
def ruleMatches (terms : List SExpr) (a : Access) : Bool :=
  (terms.any fun term =>
    match term with
    | .atom pattern => namesOperation pattern a.operation.name
    | _ => false) &&
  (!terms.any isList || terms.any fun term => filterMatches term a)

/-- What a rule says about the access, if it matches. -/
def decision (a : Access) : SExpr → Option Bool
  | .list (.atom "allow" :: terms) => if ruleMatches terms a then some true else none
  | .list (.atom "deny" :: terms) => if ruleMatches terms a then some false else none
  | _ => none

/-- What the last rule that matches says. -/
def lastDecision (rules : List SExpr) (a : Access) : Option Bool :=
  (rules.filterMap (decision a)).getLast?

def granted (rules : List SExpr) (a : Access) : Prop := lastDecision rules a = some true

/-- All operations that the rule names are those of the network. -/
def NamesNetwork : SExpr → Prop
  | .list (.atom _ :: terms) =>
    ∀ term ∈ terms, ∀ pattern, term = .atom pattern → "network".toList <+: pattern.toList
  | _ => False

/-- The access is one that the policy permits. -/
def NetworkPolicy.Permits (a : Access) : NetworkPolicy → Prop
  | denyAll => False
  | loopbackOnly => a.localHost = "localhost" ∧ ∀ host ∈ a.remoteHost, host = "localhost"
  | allowAll => True
  | allowList hosts => ∃ host ∈ hosts, a.remoteHost = some host

/-! ### Faithful profiles -/

def preamble : List SExpr :=
  [.list [.atom "version", .atom "1"], .list [.atom "deny", .atom "default"],
    .list [.atom "allow", .atom "process-exec"], .list [.atom "allow", .atom "process-fork"],
    .list [.atom "allow", .atom "signal"], .list [.atom "allow", .atom "sysctl-read"],
    .list [.atom "allow", .atom "mach-lookup"], .list [.atom "allow", .atom "ipc-posix-shm-read*"],
    .list [.atom "allow", .atom "ipc-posix-shm-write*"]]

def FilesystemRule.rule : FilesystemRule → SExpr
  | readOnly path =>
    .list [.atom "allow", .atom "file-read*", .list [.atom "subpath", .str path.toList]]
  | readWrite path =>
    .list [.atom "allow", .atom "file-read*", .atom "file-write*",
      .list [.atom "subpath", .str path.toList]]
  | deny path =>
    .list [.atom "deny", .atom "file-read*", .atom "file-write*",
      .list [.atom "subpath", .str path.toList]]

/-- The profile is the preamble, one rule for each rule of the file system, in order and with its
path, and rules of the network that grant only what the policy permits. -/
def Faithful (config : SandboxConfig) : Prop :=
  ∃ network, readAll (buildProfile config).toList =
      some (preamble ++ config.filesystem.map FilesystemRule.rule ++ network) ∧
    (∀ rule ∈ network, NamesNetwork rule) ∧
    ∀ a, granted (preamble ++ config.filesystem.map FilesystemRule.rule ++ network) a →
      config.network.Permits a

/-! ### The lines as tokens -/

/-- What stands before the path in a line. -/
def FilesystemRule.opening : FilesystemRule → List Char
  | readOnly _ => "(allow file-read* (subpath \"".toList
  | readWrite _ => "(allow file-read* file-write* (subpath \"".toList
  | deny _ => "(deny file-read* file-write* (subpath \"".toList

def FilesystemRule.openingTokens : FilesystemRule → List Token
  | readOnly _ => [.lparen, .atom "allow", .atom "file-read*", .lparen, .atom "subpath"]
  | readWrite _ =>
    [.lparen, .atom "allow", .atom "file-read*", .atom "file-write*", .lparen, .atom "subpath"]
  | deny _ =>
    [.lparen, .atom "deny", .atom "file-read*", .atom "file-write*", .lparen, .atom "subpath"]

def hostOpening : List Char := "(allow network-outbound (remote host \"".toList

def hostTokens : List Token :=
  [.lparen, .atom "allow", .atom "network-outbound", .lparen, .atom "remote", .atom "host"]

def hostRule (host : String) : SExpr :=
  .list [.atom "allow", .atom "network-outbound",
    .list [.atom "remote", .atom "host", .str host.toList]]

/-- What stands after the closing quote of a line. -/
def ending : List Char := "))\n".toList

theorem toList_quoted (before text : String) :
    (before ++ text ++ "\"))\n").toList = before.toList ++ text.toList ++ '"' :: ending := by
  have hclosing : "\"))\n".toList = '"' :: ending := by decide
  rw [String.toList_append, String.toList_append, hclosing]

theorem toList_line (rule : FilesystemRule) :
    rule.line.toList = rule.opening ++ rule.path.toList ++ '"' :: ending := by
  cases rule with
  | readOnly path => exact toList_quoted _ path
  | readWrite path => exact toList_quoted _ path
  | deny path => exact toList_quoted _ path

theorem toList_hostLine (host : String) :
    (hostLine host).toList = hostOpening ++ host.toList ++ '"' :: ending :=
  toList_quoted _ host

theorem scan_opening (rule : FilesystemRule) :
    scan ⟨[], .blank⟩ rule.opening = ⟨rule.openingTokens, .str []⟩ := by
  cases rule with
  | readOnly path =>
    have hscan : scan ⟨[], .blank⟩ "(allow file-read* (subpath \"".toList =
        ⟨[.lparen, .atom "allow", .atom "file-read*", .lparen, .atom "subpath"], .str []⟩ := by
      decide +kernel
    exact hscan
  | readWrite path =>
    have hscan : scan ⟨[], .blank⟩ "(allow file-read* file-write* (subpath \"".toList =
        ⟨[.lparen, .atom "allow", .atom "file-read*", .atom "file-write*", .lparen,
          .atom "subpath"], .str []⟩ := by
      decide +kernel
    exact hscan
  | deny path =>
    have hscan : scan ⟨[], .blank⟩ "(deny file-read* file-write* (subpath \"".toList =
        ⟨[.lparen, .atom "deny", .atom "file-read*", .atom "file-write*", .lparen,
          .atom "subpath"], .str []⟩ := by
      decide +kernel
    exact hscan

theorem scan_hostOpening : scan ⟨[], .blank⟩ hostOpening = ⟨hostTokens, .str []⟩ := by
  decide +kernel

theorem scan_ending (ts : List Token) :
    scan ⟨ts, .blank⟩ ending = ⟨ts ++ [.rparen, .rparen], .blank⟩ := by
  have hending : scan ⟨[], .blank⟩ ending = ⟨[.rparen, .rparen], .blank⟩ := by decide +kernel
  rw [scan_blank, hending, Scanner.after]

theorem flatten_rule (rule : FilesystemRule) :
    flatten rule.rule = rule.openingTokens ++ .str rule.path.toList :: [.rparen, .rparen] := by
  cases rule <;> rfl

theorem flatten_hostRule (host : String) :
    flatten (hostRule host) = hostTokens ++ .str host.toList :: [.rparen, .rparen] := rfl

/-- A line whose path is plain is read as the rule that it is meant to be. -/
theorem scan_line {rule : FilesystemRule} (h : Plain rule.path.toList) (ts : List Token) :
    scan ⟨ts, .blank⟩ rule.line.toList = ⟨ts ++ flatten rule.rule, .blank⟩ := by
  rw [toList_line, scan_quoted (scan_opening rule) h, scan_ending, flatten_rule]
  simp only [List.append_assoc, List.singleton_append]

theorem scan_hostLine {host : String} (h : Plain host.toList) (ts : List Token) :
    scan ⟨ts, .blank⟩ (hostLine host).toList = ⟨ts ++ flatten (hostRule host), .blank⟩ := by
  rw [toList_hostLine, scan_quoted scan_hostOpening h, scan_ending, flatten_hostRule]
  simp only [List.append_assoc, List.singleton_append]

/-- Lines that are read one by one as expressions. -/
theorem scan_join {α : Type*} {line : α → String} {rule : α → SExpr} {as : List α}
    (h : ∀ a ∈ as, ∀ ts, scan ⟨ts, .blank⟩ (line a).toList = ⟨ts ++ flatten (rule a), .blank⟩)
    (ts : List Token) :
    scan ⟨ts, .blank⟩ (String.join (as.map line)).toList =
      ⟨ts ++ flattenAll (as.map rule), .blank⟩ := by
  induction as generalizing ts with
  | nil => simp [flattenAll]
  | cons a as ih =>
    obtain ⟨ha, has⟩ := List.forall_mem_cons.mp h
    rw [List.map_cons, List.map_cons, String.join_cons, String.toList_append, scan_append, ha,
      ih has, flattenAll, List.append_assoc]

/-- If the lines are read as the rules that they are meant to be, the paths are plain. -/
theorem plain_of_lex {rules : List FilesystemRule} {rest : List Char} {ts more : List Token}
    (h : (scan ⟨ts, .blank⟩ ((String.join (rules.map FilesystemRule.line)).toList ++ rest)).finish =
      some (ts ++ flattenAll (rules.map FilesystemRule.rule) ++ more)) :
    ∀ rule ∈ rules, Plain rule.path.toList := by
  induction rules generalizing ts with
  | nil => simp
  | cons rule rules ih =>
    rw [List.map_cons, List.map_cons, String.join_cons, String.toList_append, flattenAll] at h
    have hquoted : (scan ⟨ts, .blank⟩ (rule.opening ++ rule.path.toList ++
        '"' :: (ending ++ ((String.join (rules.map FilesystemRule.line)).toList ++ rest)))).finish =
      some (ts ++ rule.openingTokens ++ .str rule.path.toList ::
        ([.rparen, .rparen] ++ (flattenAll (rules.map FilesystemRule.rule) ++ more))) := by
      simpa only [toList_line, flatten_rule, List.append_assoc, List.cons_append,
        List.nil_append] using h
    have hplain := plain_of_quoted (scan_opening rule) hquoted
    rw [List.append_assoc, scan_append, scan_line hplain, ← List.append_assoc] at h
    exact List.forall_mem_cons.mpr ⟨hplain, ih h⟩

theorem scan_preamble :
    scan ⟨[], .blank⟩ (String.join preambleLines).toList = ⟨flattenAll preamble, .blank⟩ := by
  have hlines : ∀ a ∈ preambleLines.zip preamble,
      scan ⟨[], .blank⟩ a.1.toList = ⟨flatten a.2, .blank⟩ := by
    decide +kernel
  have hjoin := @scan_join _ Prod.fst Prod.snd (preambleLines.zip preamble)
    (fun a ha ts => by rw [scan_blank, hlines a ha, Scanner.after]) []
  exact hjoin

/-! ### What the rules grant -/

theorem lastDecision_append (rules more : List SExpr) (a : Access) :
    lastDecision (rules ++ more) a = (lastDecision more a).or (lastDecision rules a) := by
  rw [lastDecision, List.filterMap_append, List.getLast?_append, lastDecision, lastDecision]

/-- A rule of the file system says nothing about the network. -/
theorem decision_rule (rule : FilesystemRule) (a : Access) : decision a rule.rule = none := by
  obtain ⟨operation, localHost, remoteHost⟩ := a
  have hread : namesOperation "file-read*" operation.name = false := by
    cases operation <;> decide
  have hwrite : namesOperation "file-write*" operation.name = false := by
    cases operation <;> decide
  cases rule <;> simp [FilesystemRule.rule, decision, ruleMatches, hread, hwrite]

theorem lastDecision_filesystem (rules : List FilesystemRule) (a : Access) :
    lastDecision (rules.map FilesystemRule.rule) a = none := by
  rw [lastDecision, List.getLast?_eq_none_iff, List.filterMap_eq_nil_iff]
  intro rule hrule
  obtain ⟨fsRule, -, rfl⟩ := List.mem_map.mp hrule
  exact decision_rule fsRule a

theorem lastDecision_preamble (a : Access) : lastDecision preamble a = some false := by
  obtain ⟨operation, localHost, remoteHost⟩ := a
  have hdefault : namesOperation "default" operation.name = true := rfl
  have hothers : ∀ pattern ∈ ["process-exec", "process-fork", "signal", "sysctl-read",
      "mach-lookup", "ipc-posix-shm-read*", "ipc-posix-shm-write*"],
      namesOperation pattern operation.name = false := by
    cases operation <;> decide
  simp only [List.forall_mem_cons] at hothers
  simp [lastDecision, preamble, decision, ruleMatches, isList, hdefault, hothers]

/-- Before the rules of the network everything is denied. -/
theorem lastDecision_network (rules : List FilesystemRule) (network : List SExpr) (a : Access) :
    lastDecision (preamble ++ rules.map FilesystemRule.rule ++ network) a =
      (lastDecision network a).or (some false) := by
  rw [lastDecision_append, lastDecision_append, lastDecision_filesystem, lastDecision_preamble]
  rfl

theorem granted_iff (rules : List FilesystemRule) (network : List SExpr) (a : Access) :
    granted (preamble ++ rules.map FilesystemRule.rule ++ network) a ↔
      lastDecision network a = some true := by
  rw [granted, lastDecision_network]
  cases lastDecision network a <;> simp

/-! ### Faithful profiles -/

/-- The text of the lines for the listed hosts. -/
def hostLines (hosts : List String) : List Char := (String.join (hosts.map hostLine)).toList

/-- The host names bring rules of their own, which deny again what the broad rules before them
grant to hosts that are not listed. -/
def TakesBack (hosts : List String) : Prop :=
  ∃ rules, readAll (hostLines hosts) = some rules ∧ (∀ rule ∈ rules, NamesNetwork rule) ∧
    ∀ a, ¬ (NetworkPolicy.allowList hosts).Permits a → lastDecision rules a = some false

namespace NetworkPolicy

def hosts : NetworkPolicy → List String
  | denyAll => []
  | loopbackOnly => []
  | allowAll => []
  | allowList hosts => hosts

/-- The lines of the policy, apart from those for hosts. -/
def ownLines : NetworkPolicy → List String
  | denyAll => ["(deny network*)\n"]
  | loopbackOnly =>
    ["(allow network* (local ip \"localhost:*\"))\n", "(deny network* (remote ip))\n"]
  | allowAll => ["(allow network*)\n"]
  | allowList _ => ["(allow network* (local ip))\n", "(allow network* (remote ip))\n"]

/-- What is read of these lines. -/
def rules : NetworkPolicy → List SExpr
  | denyAll => [.list [.atom "deny", .atom "network*"]]
  | loopbackOnly =>
    [.list [.atom "allow", .atom "network*",
        .list [.atom "local", .atom "ip", .str "localhost:*".toList]],
      .list [.atom "deny", .atom "network*", .list [.atom "remote", .atom "ip"]]]
  | allowAll => [.list [.atom "allow", .atom "network*"]]
  | allowList _ =>
    [.list [.atom "allow", .atom "network*", .list [.atom "local", .atom "ip"]],
      .list [.atom "allow", .atom "network*", .list [.atom "remote", .atom "ip"]]]

theorem lines_eq (policy : NetworkPolicy) :
    policy.lines = policy.ownLines ++ policy.hosts.map hostLine := by
  cases policy <;> rfl

theorem scan_ownLines (policy : NetworkPolicy) :
    scan ⟨[], .blank⟩ (String.join policy.ownLines).toList =
      ⟨flattenAll policy.rules, .blank⟩ := by
  have hloopback : scan ⟨[], .blank⟩ (String.join loopbackOnly.ownLines).toList =
      ⟨flattenAll loopbackOnly.rules, .blank⟩ := by decide +kernel
  have hdenied : scan ⟨[], .blank⟩ (String.join denyAll.ownLines).toList =
      ⟨flattenAll denyAll.rules, .blank⟩ := by decide +kernel
  have hallowed : scan ⟨[], .blank⟩ (String.join allowAll.ownLines).toList =
      ⟨flattenAll allowAll.rules, .blank⟩ := by decide +kernel
  have hlisted : scan ⟨[], .blank⟩ (String.join (allowList []).ownLines).toList =
      ⟨flattenAll (allowList []).rules, .blank⟩ := by decide +kernel
  cases policy with
  | denyAll => exact hdenied
  | loopbackOnly => exact hloopback
  | allowAll => exact hallowed
  | allowList hosts => exact hlisted

theorem namesNetwork_rules (policy : NetworkPolicy) : ∀ rule ∈ policy.rules, NamesNetwork rule := by
  cases policy <;> simp [rules, NamesNetwork]

end NetworkPolicy

/-- What the profile is read as. -/
theorem readAll_profile (config : SandboxConfig) (network : List SExpr) :
    readAll (buildProfile config).toList =
        some (preamble ++ config.filesystem.map FilesystemRule.rule ++ network) ↔
      (∀ rule ∈ config.filesystem, Plain rule.path.toList) ∧
        ∃ rest, network = config.network.rules ++ rest ∧
          readAll (hostLines config.network.hosts) = some rest := by
  have htext : (buildProfile config).toList =
      (String.join preambleLines).toList ++
        ((String.join (config.filesystem.map FilesystemRule.line)).toList ++
          ((String.join config.network.ownLines).toList ++ hostLines config.network.hosts)) := by
    rw [buildProfile, NetworkPolicy.lines_eq]
    simp only [String.join_append, String.toList_append, hostLines, List.append_assoc]
  -- the rules of a plain configuration are complete before the lines of the network
  have hrules (hplain : ∀ rule ∈ config.filesystem, Plain rule.path.toList) :
      scan ⟨[], .blank⟩ (String.join (config.filesystem.map FilesystemRule.line)).toList =
        ⟨flattenAll (config.filesystem.map FilesystemRule.rule), .blank⟩ :=
    scan_join (fun rule hrule ts => scan_line (hplain rule hrule) ts) []
  rw [htext, readAll_append scan_preamble]
  simp only [List.append_assoc, List.append_cancel_left_eq, exists_eq_left']
  constructor
  · intro hread
    have hlex := readAll_eq_some_iff.mp hread
    rw [flattenAll_append] at hlex
    have hplain := @plain_of_lex _ _ [] _ hlex
    rw [readAll_append (hrules hplain)] at hread
    obtain ⟨network', hnetwork, hread⟩ := hread
    rw [List.append_cancel_left_eq] at hnetwork
    rw [← hnetwork, readAll_append config.network.scan_ownLines] at hread
    exact ⟨hplain, hread⟩
  · rintro ⟨hplain, hread⟩
    rw [readAll_append (hrules hplain)]
    exact ⟨network, rfl, (readAll_append config.network.scan_ownLines).mpr hread⟩

/-! ### The rules of each policy -/

theorem namesOperation_network (operation : NetworkOperation) :
    namesOperation "network*" operation.name = true := by
  cases operation <;> decide

theorem address_localhost (host : String) :
    "localhost:*".toList = host.toList ++ ":*".toList ↔ host = "localhost" := by
  have hparts : "localhost:*".toList = "localhost".toList ++ ":*".toList := by decide
  rw [hparts, List.append_cancel_right_eq, String.toList_inj, eq_comm]

theorem decision_local (address : List Char) (a : Access) :
    decision a (.list [.atom "allow", .atom "network*",
        .list [.atom "local", .atom "ip", .str address]]) =
      if address = a.localHost.toList ++ ":*".toList then some true else none := by
  simp [decision, ruleMatches, isList, namesOperation_network, filterMatches]

theorem decision_remote (a : Access) :
    decision a (.list [.atom "deny", .atom "network*", .list [.atom "remote", .atom "ip"]]) =
      if a.remoteHost.isSome then some false else none := by
  simp [decision, ruleMatches, isList, namesOperation_network, filterMatches]

/-- What the rules of a policy say before what is read of the host names. -/
theorem lastDecision_rules (policy : NetworkPolicy) (a : Access) :
    lastDecision policy.rules a =
      match policy with
      | .denyAll => some false
      | .loopbackOnly =>
        if a.remoteHost.isSome then some false
        else if a.localHost = "localhost" then some true else none
      | .allowAll => some true
      | .allowList _ => some true := by
  have hall := namesOperation_network a.operation
  cases policy with
  | denyAll => simp [lastDecision, NetworkPolicy.rules, decision, ruleMatches, isList, hall]
  | allowAll => simp [lastDecision, NetworkPolicy.rules, decision, ruleMatches, isList, hall]
  | loopbackOnly =>
    simp only [lastDecision, NetworkPolicy.rules, List.filterMap_cons, decision_local,
      decision_remote, address_localhost, List.filterMap_nil]
    split_ifs <;> rfl
  | allowList hosts =>
    cases hremote : a.remoteHost <;>
      simp [lastDecision, NetworkPolicy.rules, decision, ruleMatches, isList, hall, hremote,
        filterMatches]

/-- Without host names the rules of a policy grant only what it permits. -/
theorem permits_of_rules {policy : NetworkPolicy} (h : ∀ hosts, policy ≠ .allowList hosts)
    {a : Access} (hgranted : lastDecision policy.rules a = some true) : policy.Permits a := by
  rw [lastDecision_rules] at hgranted
  match policy with
  | .denyAll => simp at hgranted
  | .loopbackOnly =>
    match hremote : a.remoteHost with
    | some host => simp [hremote] at hgranted
    | none =>
      have hlocal : a.localHost = "localhost" := by simpa [hremote] using hgranted
      refine ⟨hlocal, fun host hhost => ?_⟩
      rw [hremote] at hhost
      exact absurd hhost (Option.not_mem_none host)
  | .allowAll => trivial
  | .allowList hosts => exact absurd rfl (h hosts)

/-- Which profiles are faithful: those of configurations without special characters in the paths,
unless hosts are listed; then only the host names themselves can take the broad rules back. -/
theorem faithful_iff (config : SandboxConfig) :
    Faithful config ↔ (∀ rule ∈ config.filesystem, Plain rule.path.toList) ∧
      ∀ hosts, config.network = .allowList hosts → TakesBack hosts := by
  have hunfold : Faithful config ↔ (∀ rule ∈ config.filesystem, Plain rule.path.toList) ∧
      ∃ rest, readAll (hostLines config.network.hosts) = some rest ∧
        (∀ rule ∈ rest, NamesNetwork rule) ∧
        ∀ a, lastDecision (config.network.rules ++ rest) a = some true →
          config.network.Permits a := by
    simp only [Faithful, readAll_profile, granted_iff]
    constructor
    · rintro ⟨network, ⟨hplain, rest, rfl, hread⟩, hnames, hgranted⟩
      exact ⟨hplain, rest, hread, fun rule hrule => hnames rule (List.mem_append_right _ hrule),
        hgranted⟩
    · rintro ⟨hplain, rest, hread, hnames, hgranted⟩
      refine ⟨_, ⟨hplain, rest, rfl, hread⟩, fun rule hrule => ?_, hgranted⟩
      rcases List.mem_append.mp hrule with hown | hhost
      · exact config.network.namesNetwork_rules rule hown
      · exact hnames rule hhost
  rw [hunfold]
  apply and_congr_right
  intro hplain
  by_cases hlist : ∃ hosts, config.network = .allowList hosts
  · obtain ⟨hosts, hhosts⟩ := hlist
    -- the broad rules grant every access, so that only a later rule can deny one
    have hgranted (rest : List SExpr) (a : Access) :
        (lastDecision ((NetworkPolicy.allowList hosts).rules ++ rest) a = some true →
          (NetworkPolicy.allowList hosts).Permits a) ↔
        (¬ (NetworkPolicy.allowList hosts).Permits a → lastDecision rest a = some false) := by
      rw [lastDecision_append, lastDecision_rules, not_imp_comm]
      cases lastDecision rest a with
      | none => simp
      | some allowed => cases allowed <;> simp
    simp only [hhosts, hgranted, NetworkPolicy.allowList.injEq, forall_eq']
    rfl
  · have hpolicy : ∀ hosts, config.network ≠ .allowList hosts := fun hosts h => hlist ⟨hosts, h⟩
    have hhosts : config.network.hosts = [] := by
      match hnetwork : config.network with
      | .denyAll => rfl
      | .loopbackOnly => rfl
      | .allowAll => rfl
      | .allowList hosts => exact absurd hnetwork (hpolicy hosts)
    refine iff_of_true ⟨[], ?_, by simp, fun a hgranted => ?_⟩ ?_
    · rw [hhosts]
      rfl
    · rw [List.append_nil] at hgranted
      exact permits_of_rules hpolicy hgranted
    · exact fun hosts h => absurd h (hpolicy hosts)

theorem decision_hostRule (host : String) (a : Access) :
    decision a (hostRule host) ≠ some false := by
  rw [hostRule, decision]
  split_ifs <;> simp

/-- Plain host names are read as rules that only allow. -/
theorem not_takesBack {hosts : List String} (hplain : ∀ host ∈ hosts, Plain host.toList) :
    ¬ TakesBack hosts := by
  rintro ⟨rules, hread, -, hdeny⟩
  have hscan := scan_join (fun host hhost ts => scan_hostLine (hplain host hhost) ts) []
  rw [hostLines, ← List.append_nil (String.join _).toList, readAll_append hscan] at hread
  obtain ⟨rest, rfl, hrest⟩ := hread
  obtain rfl : [] = rest := Option.some.inj hrest
  have hbind : ¬ (NetworkPolicy.allowList hosts).Permits ⟨.bind, "localhost", none⟩ := by
    rintro ⟨host, -, hhost⟩
    cases hhost
  have hlast := List.mem_of_getLast? (hdeny _ hbind)
  rw [List.append_nil] at hlast
  obtain ⟨rule, hrule, hdecision⟩ := List.mem_filterMap.mp hlast
  obtain ⟨host, -, rfl⟩ := List.mem_map.mp hrule
  exact decision_hostRule host _ hdecision

namespace QuotedPath

/-- A directory whose name closes the string and opens the whole file system for reading. -/
def rule : FilesystemRule := .readWrite "/tmp/out\")) (allow file-read* (subpath \"/"

def config : SandboxConfig := { filesystem := [rule] }

theorem not_faithful : ¬ Faithful config := by
  rintro ⟨network, hread, -⟩
  have hplain := ((readAll_profile config network).mp hread).1 rule List.mem_cons_self
  exact absurd hplain (by decide +kernel)

end QuotedPath

end Sandbox

end HeliosLite
