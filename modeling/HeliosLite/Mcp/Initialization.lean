import HeliosLite.Mcp.Service

/-!
# The first use of the MCP tools

Any number of calls may run at a time. If no server is rejected, the first of them connects the
servers and the others wait for it. If one is rejected, the hash that is noted is never the one that
is compared, and every call connects the servers anew.

## Main definitions

* `McpSystem.Sound` — the servers were connected once at most, and the tools of those that are
  trusted can be called
* `McpSystem.Stable` — the invariant: what holds in each phase of the call that holds the lock

## Main results

* `McpSystem.Stable.step` — a step keeps the invariant if what is noted is what is compared
* `McpSystem.updates_again` — the second call updates again if it is not
* `McpSystem.sound_iff` — all runs are sound exactly if no server is rejected
-/

namespace HeliosLite

open Serde Theory

/-- The phases in which a call holds the lock. -/
def McpPhase.holdsLock : McpPhase → Bool
  | rechecking _ | filtering _ | clearing .. | forgetting .. | connecting .. | noting .. => true
  | _ => false

namespace McpSystem

/-- The tools that were connected can be found, and no others; they are those of trusted servers. -/
structure Listed (trusted : McpConfig) (s : McpSystem) : Prop where
  found : ∀ holder ∈ s.connected, ∃ found ∈ s.connected,
    found.definition.name = holder.definition.name ∧
      s.service.tools.get? holder.definition.name = some found
  mem : ∀ name found, s.service.tools.get? name = some found →
    found ∈ s.connected ∧ found.definition.name = name
  trusted : ∀ holder ∈ s.connected, trusted.mcpServers.contains holder.serverName

/-- No update was begun. -/
def Fresh (rawHash : UInt64) (s : McpSystem) : Prop :=
  s.service.previousConfigHash ≠ rawHash ∧ s.updates = 0 ∧ s.completed = 0 ∧ s.connected = []

/-- The first update is under way. -/
def Updating (rawHash : UInt64) (s : McpSystem) : Prop :=
  s.service.previousConfigHash ≠ rawHash ∧ s.updates = 1 ∧ s.completed = 0

/-- What holds while the call that holds the lock, if there is one, is in a phase. -/
def Stage (rawHash : UInt64) (trusted : McpConfig) (s : McpSystem) : McpPhase → Prop
  | .filtering _ => Fresh rawHash s
  | .clearing _ mcp | .forgetting _ mcp => Updating rawHash s ∧ s.connected = [] ∧ mcp = trusted
  | .connecting _ newHash pending _ =>
    Updating rawHash s ∧ newHash = trusted.cacheKey ∧
      ∀ name ∈ pending, trusted.mcpServers.contains name
  | .noting _ newHash => Updating rawHash s ∧ newHash = trusted.cacheKey
  | _ => s.service.previousConfigHash = rawHash ∧ s.updates ≤ 1 ∨ Fresh rawHash s

/-- There is one update at most, and what it connected is found. -/
structure Stable (files : McpFiles) (answer : Option McpTrustResponse) (trusted : McpConfig)
    (s : McpSystem) : Prop where
  filter : (files.filterTrusted answer s.store files.readMcpConfig).1 = trusted
  lock : ∀ call, (s.phases call).holdsLock ↔ s.service.initLock = some call
  hash : s.service.previousConfigHash = 0 ∨
    s.service.previousConfigHash = files.readMcpConfig.cacheKey
  listed : Listed trusted s
  stage : Stage files.readMcpConfig.cacheKey trusted s (s.service.initLock.elim .idle s.phases)

/-! ### What is found -/

/-- The name of a call is that of the tool, in one format or the other. -/
def Names (name : String) (holder : ToolHolder) : Prop :=
  name = holder.definition.name ∨ toLegacyMcpName name = some holder.definition.name

/-- The servers were connected once at most. Once they are, the tools that were connected are found
by their names, and no tool of a rejected server ever is. -/
structure Sound (trusted : McpConfig) (s : McpSystem) : Prop where
  once : s.updates ≤ 1
  found : 0 < s.completed → ∀ holder ∈ s.connected, ∀ name, Names name holder →
    ∃ found ∈ s.connected, Names name found ∧ s.service.findTool name = some found
  trusted : ∀ name found, s.service.findTool name = some found →
    trusted.mcpServers.contains found.serverName

variable {files : McpFiles} {answer : Option McpTrustResponse} {trusted : McpConfig}
  {s s' : McpSystem} {call : ℕ}

theorem Listed.mem_of_findTool (h : Listed trusted s) {name : String} {found : ToolHolder}
    (hfind : s.service.findTool name = some found) : found ∈ s.connected ∧ Names name found := by
  rcases Option.or_eq_some_iff.mp hfind with hget | ⟨-, hget⟩
  · obtain ⟨hmem, hname⟩ := h.mem name found hget
    exact ⟨hmem, .inl hname.symm⟩
  · obtain ⟨legacy, hlegacy, hget⟩ := Option.bind_eq_some_iff.mp hget
    obtain ⟨hmem, hname⟩ := h.mem legacy found hget
    exact ⟨hmem, .inr (hname ▸ hlegacy)⟩

theorem Listed.findTool (h : Listed trusted s) {holder : ToolHolder} (hmem : holder ∈ s.connected)
    {name : String} (hname : Names name holder) :
    ∃ found ∈ s.connected, Names name found ∧ s.service.findTool name = some found := by
  suffices hsome : (s.service.findTool name).isSome by
    obtain ⟨found, hfound⟩ := Option.isSome_iff_exists.mp hsome
    obtain ⟨hmem, hnames⟩ := h.mem_of_findTool hfound
    exact ⟨found, hmem, hnames, hfound⟩
  obtain ⟨found, -, -, hget⟩ := h.found holder hmem
  rw [ForgeMcpService.findTool, Option.isSome_or, Bool.or_eq_true]
  rcases hname with rfl | hlegacy
  · exact .inl (by rw [hget]; rfl)
  · refine .inr ?_
    rw [hlegacy, Option.bind_some, hget]
    rfl

theorem Stage.updates_le {rawHash : UInt64} {phase : McpPhase}
    (h : Stage rawHash trusted s phase) : s.updates ≤ 1 := by
  have hfresh (h : Fresh rawHash s) : s.updates ≤ 1 := h.2.1.le.trans zero_le_one
  have hupdating (h : Updating rawHash s) : s.updates ≤ 1 := h.2.1.le
  cases phase with
  | filtering => exact hfresh h
  | clearing | forgetting | connecting | noting => exact hupdating h.1
  | _ =>
    rcases h with h | h
    · exact h.2
    · exact hfresh h

theorem Stable.sound (h : Stable files answer trusted s) : Sound trusted s where
  once := h.stage.updates_le
  found _ _ hmem _ hname := h.listed.findTool hmem hname
  trusted _ found hfind := h.listed.trusted found (h.listed.mem_of_findTool hfind).1

/-! ### Steps -/

theorem stable_start (store : McpTrustStore) :
    Stable files answer (files.filterTrusted answer store files.readMcpConfig).1 (start store) := by
  refine ⟨rfl, ?_, .inl rfl, ⟨nofun, nofun, nofun⟩, ?_⟩
  · intro call
    exact ⟨nofun, nofun⟩
  · by_cases hraw : (0 : UInt64) = files.readMcpConfig.cacheKey
    · exact .inl ⟨hraw, Nat.zero_le _⟩
    · exact .inr ⟨hraw, rfl, rfl, rfl⟩

/-- The gate answers the same after it was asked. -/
theorem Stable.filter_again (h : Stable files answer trusted s) :
    (files.filterTrusted answer (files.filterTrusted answer s.store files.readMcpConfig).2
      files.readMcpConfig).1 = trusted := by
  rw [McpFiles.filterTrusted_filterTrusted, h.filter]

theorem stage_goTo {rawHash : UInt64} {phase phase' : McpPhase} :
    Stage rawHash trusted (s.goTo call phase) phase' ↔ Stage rawHash trusted s phase' := by
  cases phase' <;> rfl

/-- A call that does not hold the lock goes on without it. -/
theorem Stable.goTo (h : Stable files answer trusted s) {phase : McpPhase}
    (hbefore : (s.phases call).holdsLock = false) (hafter : phase.holdsLock = false) :
    Stable files answer trusted (s.goTo call phase) := by
  have hnot : s.service.initLock ≠ some call := by
    rw [ne_eq, ← h.lock call, hbefore]
    exact nofun
  refine ⟨h.filter, ?_, h.hash, ⟨h.listed.found, h.listed.mem, h.listed.trusted⟩, ?_⟩
  · intro other
    by_cases hother : other = call
    · subst hother
      simp [McpSystem.goTo, hafter, hnot]
    · simp [McpSystem.goTo, hother, h.lock other]
  · have hstage := h.stage
    rw [stage_goTo]
    change Stage _ _ s (s.service.initLock.elim .idle (Function.update s.phases call phase))
    cases hlock : s.service.initLock with
    | none =>
      rw [hlock] at hstage
      exact hstage
    | some owner =>
      have hne : owner ≠ call := by
        rintro rfl
        exact hnot hlock
      rw [hlock] at hstage
      simpa [hne] using hstage

/-- The call that holds the lock or takes it goes on. -/
theorem Stable.own (h : Stable files answer trusted s)
    (howner : s.service.initLock = none ∨ s.service.initLock = some call) {phase : McpPhase}
    (hphases : s'.phases = Function.update s.phases call phase)
    (hlock : s'.service.initLock = if phase.holdsLock then some call else none)
    (hfilter : (files.filterTrusted answer s'.store files.readMcpConfig).1 = trusted)
    (hhash : s'.service.previousConfigHash = 0 ∨
      s'.service.previousConfigHash = files.readMcpConfig.cacheKey)
    (hlisted : Listed trusted s')
    (hstage : Stage files.readMcpConfig.cacheKey trusted s' phase) :
    Stable files answer trusted s' := by
  refine ⟨hfilter, ?_, hhash, hlisted, ?_⟩
  · intro other
    rw [hphases, hlock]
    by_cases hother : other = call
    · subst hother
      cases hphase : phase.holdsLock <;> simp [hphase]
    · -- no other call holds the lock
      have hfree : (s.phases other).holdsLock = false := by
        rw [Bool.eq_false_iff, ne_eq, h.lock other]
        rcases howner with howner | howner <;> simp [howner, Ne.symm hother]
      rw [Function.update_of_ne hother, hfree]
      split_ifs <;> simp [Ne.symm hother]
  · rw [hlock, hphases]
    split_ifs with hphase
    · simpa using hstage
    · cases phase with
      | rechecking | filtering | clearing | forgetting | connecting | noting =>
        exact absurd rfl hphase
      | _ => exact hstage

/-- A server that is connected adds its tools. -/
theorem Listed.insertClients (h : Listed trusted s) {holders : List ToolHolder}
    (htrusted : ∀ holder ∈ holders, trusted.mcpServers.contains holder.serverName)
    (hservice : s'.service = s.service.insertClients holders)
    (hconnected : s'.connected = s.connected ++ holders) : Listed trusted s' := by
  have hget (name : String) := ForgeMcpService.get?_insertClients s.service holders name
  rw [← hservice] at hget
  refine ⟨?_, ?_, ?_⟩
  · intro holder hmem
    rw [hconnected] at hmem ⊢
    cases hfind : holders.reverse.find? fun other =>
        other.definition.name = holder.definition.name with
    | some found =>
      have hname : found.definition.name = holder.definition.name := by
        simpa using List.find?_some hfind
      refine ⟨found,
        List.mem_append_right _ (List.mem_reverse.mp (List.mem_of_find?_eq_some hfind)),
        hname, ?_⟩
      rw [hget, hfind, Option.some_or]
    | none =>
      -- the tool was connected before
      have hold : holder ∈ s.connected := by
        refine (List.mem_append.mp hmem).resolve_right ?_
        intro hnew
        have hno := List.find?_eq_none.mp hfind holder (List.mem_reverse.mpr hnew)
        simp at hno
      obtain ⟨found, hfound, hname, hold⟩ := h.found holder hold
      refine ⟨found, List.mem_append_left _ hfound, hname, ?_⟩
      rw [hget, hfind, Option.none_or, hold]
  · intro name found hfound
    rw [hconnected]
    rw [hget] at hfound
    rcases Option.or_eq_some_iff.mp hfound with hnew | ⟨-, hold⟩
    · refine ⟨List.mem_append_right _ (List.mem_reverse.mp (List.mem_of_find?_eq_some hnew)), ?_⟩
      simpa using List.find?_some hnew
    · obtain ⟨hmem, hname⟩ := h.mem name found hold
      exact ⟨List.mem_append_left _ hmem, hname⟩
  · intro holder hmem
    rw [hconnected] at hmem
    rcases List.mem_append.mp hmem with hmem | hmem
    · exact h.trusted holder hmem
    · exact htrusted holder hmem

theorem mem_enabled {config : McpConfig} {name : String} (h : name ∈ config.enabled) :
    config.mcpServers.contains name := by
  obtain ⟨⟨_, server⟩, hmem, rfl⟩ := List.mem_map.mp h
  rw [StringMap.contains, StringMap.get?_eq_some_iff.mpr (List.mem_filter.mp hmem).1]
  rfl

/-- The call that holds the lock is in its stage. -/
theorem Stable.stage_of_holdsLock (h : Stable files answer trusted s) {phase : McpPhase}
    (hphase : s.phases call = phase) (hholds : phase.holdsLock) :
    s.service.initLock = some call ∧ Stage files.readMcpConfig.cacheKey trusted s phase := by
  have howner : s.service.initLock = some call := (h.lock call).mp (hphase ▸ hholds)
  have hstage := h.stage
  rw [howner, Option.elim_some, hphase] at hstage
  exact ⟨howner, hstage⟩

/-- The answer is remembered. -/
theorem Stable.stored (h : Stable files answer trusted s) :
    Stable files answer trusted
      { s with store := (files.filterTrusted answer s.store files.readMcpConfig).2 } := by
  refine ⟨h.filter_again, h.lock, h.hash, ⟨h.listed.found, h.listed.mem, h.listed.trusted⟩, ?_⟩
  have hstage := h.stage
  revert hstage
  cases s.service.initLock.elim .idle s.phases <;> exact id

theorem Stable.acquire (h : Stable files answer trusted s) (hnone : s.service.initLock = none)
    {goal : McpGoal} :
    Stable files answer trusted ((s.setLock (some call)).goTo call (.rechecking goal)) := by
  have hstage := h.stage
  rw [hnone] at hstage
  exact h.own (.inl hnone) rfl rfl h.filter h.hash
    ⟨h.listed.found, h.listed.mem, h.listed.trusted⟩ hstage

/-- The trust gate fails. -/
theorem Stable.release (h : Stable files answer trusted s) {goal : McpGoal}
    (hphase : s.phases call = .filtering goal) :
    Stable files answer trusted ((s.setLock none).goTo call .failed) := by
  obtain ⟨howner, hfresh⟩ := h.stage_of_holdsLock hphase rfl
  exact h.own (.inr howner) rfl rfl h.filter h.hash
    ⟨h.listed.found, h.listed.mem, h.listed.trusted⟩ (.inr hfresh)

/-- The comparison under the lock. -/
theorem Stable.recheck (h : Stable files answer trusted s) {goal : McpGoal}
    (hphase : s.phases call = .rechecking goal) :
    Stable files answer trusted (s.advance files answer call (.rechecking goal) .done) := by
  obtain ⟨howner, hstage⟩ := h.stage_of_holdsLock hphase rfl
  rw [advance]
  cases hmodified : s.service.isConfigModified files.readMcpConfig with
  | true =>
    have hne : s.service.previousConfigHash ≠ files.readMcpConfig.cacheKey := by
      simpa [ForgeMcpService.isConfigModified] using hmodified
    refine h.own (.inr howner) rfl howner h.filter h.hash
      ⟨h.listed.found, h.listed.mem, h.listed.trusted⟩ ?_
    exact hstage.resolve_left fun hsame => hne hsame.1
  | false =>
    have heq : s.service.previousConfigHash = files.readMcpConfig.cacheKey := by
      simpa [ForgeMcpService.isConfigModified] using hmodified
    refine h.own (.inr howner) rfl rfl h.filter h.hash
      ⟨h.listed.found, h.listed.mem, h.listed.trusted⟩ ?_
    exact .inl ⟨heq, (hstage.resolve_right fun hfresh => hfresh.1 heq).2⟩

/-- The trust gate, after which the update begins. -/
theorem Stable.filtered (h : Stable files answer trusted s) {goal : McpGoal}
    (hphase : s.phases call = .filtering goal) :
    Stable files answer trusted (s.advance files answer call (.filtering goal) .done) := by
  obtain ⟨howner, hne, hupdates, hcompleted, hconnected⟩ := h.stage_of_holdsLock hphase rfl
  refine h.own (.inr howner) rfl howner h.filter_again h.hash
    ⟨h.listed.found, h.listed.mem, h.listed.trusted⟩ ?_
  refine ⟨⟨hne, ?_, hcompleted⟩, hconnected, h.filter⟩
  change s.updates + 1 = 1
  rw [hupdates]

/-- The table is empty before a server is connected. -/
theorem Stable.cleared (h : Stable files answer trusted s) {goal : McpGoal} {mcp : McpConfig}
    (hphase : s.phases call = .clearing goal mcp) :
    Stable files answer trusted (s.advance files answer call (.clearing goal mcp) .done) := by
  obtain ⟨howner, hupdating, hconnected, hmcp⟩ := h.stage_of_holdsLock hphase rfl
  refine h.own (.inr howner) rfl howner h.filter h.hash ⟨?_, nofun, h.listed.trusted⟩
    ⟨hupdating, hconnected, hmcp⟩
  intro holder hmem
  replace hmem : holder ∈ s.connected := hmem
  rw [hconnected] at hmem
  cases hmem

theorem Stable.forgotten (h : Stable files answer trusted s) {goal : McpGoal} {mcp : McpConfig}
    (hphase : s.phases call = .forgetting goal mcp) :
    Stable files answer trusted (s.advance files answer call (.forgetting goal mcp) .done) := by
  obtain ⟨howner, hupdating, -, rfl⟩ := h.stage_of_holdsLock hphase rfl
  refine h.own (.inr howner) rfl howner h.filter h.hash
    ⟨h.listed.found, h.listed.mem, h.listed.trusted⟩ ?_
  exact ⟨hupdating, rfl, fun name hname => mem_enabled hname⟩

/-- A server is connected or fails, or all of them are done. -/
theorem Stable.connect (h : Stable files answer trusted s) {goal : McpGoal} {newHash : UInt64}
    {pending : List String} {failures : List (String × String)}
    (hphase : s.phases call = .connecting goal newHash pending failures) (outcome : McpOutcome) :
    Stable files answer trusted
      (s.advance files answer call (.connecting goal newHash pending failures) outcome) := by
  obtain ⟨howner, hupdating, hhash, hpending⟩ := h.stage_of_holdsLock hphase rfl
  cases outcome with
  | hit | fails => cases pending <;> exact h
  | connected serverName tools =>
    rw [advance]
    split_ifs with hmem
    · refine h.own (.inr howner) rfl howner h.filter h.hash ?_ ?_
      · refine h.listed.insertClients ?_ rfl rfl
        intro holder hholder
        obtain ⟨tool, -, rfl⟩ := List.mem_map.mp hholder
        exact hpending serverName hmem
      · exact ⟨hupdating, hhash, fun name hname => hpending name (List.mem_of_mem_erase hname)⟩
    · exact h
  | unconnected serverName error =>
    rw [advance]
    split_ifs with hmem
    · refine h.own (.inr howner) rfl howner h.filter h.hash
        ⟨h.listed.found, h.listed.mem, h.listed.trusted⟩ ?_
      exact ⟨hupdating, hhash, fun name hname => hpending name (List.mem_of_mem_erase hname)⟩
    · exact h
  | done =>
    cases pending with
    | nil =>
      exact h.own (.inr howner) rfl howner h.filter h.hash
        ⟨h.listed.found, h.listed.mem, h.listed.trusted⟩ ⟨hupdating, hhash⟩
    | cons => exact h

/-- What is noted is what will be compared. -/
theorem Stable.noted (h : Stable files answer trusted s)
    (hsame : trusted.cacheKey = files.readMcpConfig.cacheKey ∨ files.readMcpConfig.cacheKey = 0)
    {goal : McpGoal} {newHash : UInt64} (hphase : s.phases call = .noting goal newHash) :
    Stable files answer trusted (s.advance files answer call (.noting goal newHash) .done) := by
  obtain ⟨howner, ⟨hne, hupdates, -⟩, hnew⟩ := h.stage_of_holdsLock hphase rfl
  -- an update is begun only if the configuration has a hash other than the first one
  have hraw : newHash = files.readMcpConfig.cacheKey := by
    rw [hnew]
    refine hsame.resolve_right ?_
    intro hzero
    refine hne ?_
    rw [hzero]
    exact h.hash.elim id fun hraw => hraw.trans hzero
  refine h.own (.inr howner) rfl rfl h.filter (.inr hraw)
    ⟨h.listed.found, h.listed.mem, h.listed.trusted⟩ ?_
  have honce : s.updates ≤ 1 := hupdates.le
  exact .inl ⟨hraw, honce⟩

/-- A step of a call keeps the invariant, if what is noted is what is compared. -/
theorem Stable.advance (h : Stable files answer trusted s)
    (hsame : trusted.cacheKey = files.readMcpConfig.cacheKey ∨ files.readMcpConfig.cacheKey = 0)
    (outcome : McpOutcome) :
    Stable files answer trusted (s.advance files answer call (s.phases call) outcome) := by
  cases hphase : s.phases call with
  | idle | executed | listed | failed => cases outcome <;> exact h
  | gating =>
    have hfree : (s.phases call).holdsLock = false := by rw [hphase]; rfl
    cases outcome with
    | done => exact h.stored.goTo hfree rfl
    | fails => exact h.goTo hfree rfl
    | _ => exact h
  | lookingUp =>
    have hfree : (s.phases call).holdsLock = false := by rw [hphase]; rfl
    cases outcome with
    | done | hit | fails => exact h.goTo hfree rfl
    | _ => exact h
  | reading =>
    have hfree : (s.phases call).holdsLock = false := by rw [hphase]; rfl
    cases outcome with
    | done | fails => exact h.goTo hfree rfl
    | _ => exact h
  | checking =>
    have hfree : (s.phases call).holdsLock = false := by rw [hphase]; rfl
    cases outcome with
    | done =>
      rw [McpSystem.advance]
      split_ifs
      · exact h.goTo hfree rfl
      · exact h.goTo hfree rfl
    | _ => exact h
  | waiting =>
    have hfree : (s.phases call).holdsLock = false := by rw [hphase]; rfl
    cases outcome with
    | done =>
      rw [McpSystem.advance]
      split_ifs with hnone
      · exact h.acquire hnone
      · exact h
    | _ => exact h
  | rechecking =>
    cases outcome with
    | done => exact h.recheck hphase
    | _ => exact h
  | filtering =>
    cases outcome with
    | done => exact h.filtered hphase
    | fails => exact h.release hphase
    | _ => exact h
  | clearing =>
    cases outcome with
    | done => exact h.cleared hphase
    | _ => exact h
  | forgetting =>
    cases outcome with
    | done => exact h.forgotten hphase
    | _ => exact h
  | connecting => exact h.connect hphase outcome
  | noting =>
    cases outcome with
    | done => exact h.noted hsame hphase
    | _ => exact h
  | ready goal =>
    have hfree : (s.phases call).holdsLock = false := by rw [hphase]; rfl
    cases goal <;> cases outcome with
    | done => exact h.goTo hfree rfl
    | _ => exact h

/-- A step keeps the invariant if what is noted is what is compared. -/
theorem Stable.step (h : Stable files answer trusted s)
    (hsame : trusted.cacheKey = files.readMcpConfig.cacheKey ∨ files.readMcpConfig.cacheKey = 0)
    (e : McpEvent) : Stable files answer trusted (s.step files answer e) := by
  have hcalled {call : ℕ} {phase : McpPhase} (hidle : s.phases call = .idle)
      (hphase : phase.holdsLock = false) : Stable files answer trusted (s.goTo call phase) :=
    h.goTo (by rw [hidle]; rfl) hphase
  cases e with
  | executeMcp call name =>
    rw [McpSystem.step]
    split_ifs with hidle
    · exact hcalled hidle rfl
    · exact h
  | getMcpServers call =>
    rw [McpSystem.step]
    split_ifs with hidle
    · exact hcalled hidle rfl
    · exact h
  | step call outcome => exact h.advance hsame outcome

/-! ### A second update -/

/-- The events of a call up to its update. -/
def begin (call : ℕ) : List McpEvent :=
  [.executeMcp call "", .step call .done, .step call .done, .step call .done, .step call .done,
    .step call .done]

/-- The events of an update in which no server can be connected. -/
def finish (call : ℕ) (mcp : McpConfig) : List McpEvent :=
  [.step call .done, .step call .done] ++
    ((mcp.enabled.map fun name => .step call (.unconnected name "")) ++
      [.step call .done, .step call .done])

@[simp] theorem goTo_phases_self (phase : McpPhase) : (s.goTo call phase).phases call = phase :=
  Function.update_self ..

@[simp] theorem goTo_goTo (phase phase' : McpPhase) :
    (s.goTo call phase).goTo call phase' = s.goTo call phase' := by
  simp [goTo]

@[simp] theorem goTo_service (phase : McpPhase) : (s.goTo call phase).service = s.service := rfl

theorem goTo_setLock (phase : McpPhase) (holder : Option ℕ) :
    (s.goTo call phase).setLock holder = (s.setLock holder).goTo call phase := rfl

@[simp] theorem step_goTo (phase : McpPhase) (outcome : McpOutcome) :
    (s.goTo call phase).step files answer (.step call outcome) =
      (s.goTo call phase).advance files answer call phase outcome := by
  rw [step, goTo_phases_self]

/-- A call updates if the hash that is noted is not that of the configuration. -/
theorem run_begin (hidle : s.phases call = .idle) (hfree : s.service.initLock = none)
    (hmodified : s.service.isConfigModified files.readMcpConfig) :
    run (step files answer) s (begin call) =
      { s.setLock (some call) with
        store := (files.filterTrusted answer s.store files.readMcpConfig).2
        updates := s.updates + 1 }.goTo call (.clearing (.execute "")
          (files.filterTrusted answer s.store files.readMcpConfig).1) := by
  have hcalled : s.step files answer (.executeMcp call "") =
      s.goTo call (.reading (.execute "")) := if_pos hidle
  have hlocked : (s.setLock (some call)).service.isConfigModified files.readMcpConfig := hmodified
  simp only [begin, run_cons, run_nil, hcalled, step_goTo, advance, goTo_goTo, goTo_service,
    goTo_setLock, hmodified, hfree, hlocked, if_true]
  simp [goTo, setLock]

/-- The servers fail one after the other. -/
theorem run_unconnected {goal : McpGoal} {newHash : UInt64} (pending : List String)
    (failures : List (String × String)) :
    ∃ failures', run (step files answer) (s.goTo call (.connecting goal newHash pending failures))
        (pending.map fun name => .step call (.unconnected name "")) =
      s.goTo call (.connecting goal newHash [] failures') := by
  induction pending generalizing failures with
  | nil => exact ⟨failures, rfl⟩
  | cons name pending ih =>
    obtain ⟨failures', hrun⟩ := ih (failures ++ [(name, "")])
    refine ⟨failures', ?_⟩
    rw [← hrun, List.map_cons, run_cons]
    simp [step, advance]

/-- An update notes the hash of the servers that are trusted. -/
theorem run_finish {goal : McpGoal} {mcp : McpConfig} :
    ∃ service, service.previousConfigHash = mcp.cacheKey ∧ service.initLock = none ∧
      run (step files answer) (s.goTo call (.clearing goal mcp)) (finish call mcp) =
        { s with service := service, completed := s.completed + 1 }.goTo call (.ready goal) := by
  let cleared : McpSystem :=
    { s with service :=
        { s.service with tools := StringMap.empty, failedServers := StringMap.empty } }
  have hcleared : run (step files answer) (s.goTo call (.clearing goal mcp))
      [.step call .done, .step call .done] =
        cleared.goTo call (.connecting goal mcp.cacheKey mcp.enabled []) := by
    simp only [run_cons, run_nil, step_goTo, advance]
    simp [goTo, cleared]
  obtain ⟨failures, hfailed⟩ := @run_unconnected files answer cleared call goal mcp.cacheKey
    mcp.enabled []
  refine ⟨{ cleared.service with
    failedServers := failures.foldl
      (fun servers (e : String × String) => servers.insert e.1 e.2) StringMap.empty
    previousConfigHash := mcp.cacheKey
    initLock := none }, rfl, rfl, ?_⟩
  rw [finish, run_append, hcleared, run_append, hfailed]
  simp only [run_cons, run_nil, step_goTo, advance]
  simp [goTo, cleared]

/-- If the hash that is noted is not the one that is compared, the second call updates again. -/
theorem updates_again {store : McpTrustStore}
    (htrusted : (files.filterTrusted answer store files.readMcpConfig).1 = trusted)
    (hne : trusted.cacheKey ≠ files.readMcpConfig.cacheKey)
    (hraw : files.readMcpConfig.cacheKey ≠ 0) :
    (run (step files answer) (start store) (begin 0 ++ finish 0 trusted ++ begin 1)).updates =
      2 := by
  have hfirst : (start store).service.isConfigModified files.readMcpConfig :=
    decide_eq_true (Ne.symm hraw)
  obtain ⟨service, hhash, hfree, hfinish⟩ := @run_finish files answer
    { (start store).setLock (some 0) with
      store := (files.filterTrusted answer (start store).store files.readMcpConfig).2
      updates := (start store).updates + 1 } 0 (.execute "") trusted
  have hsecond : service.isConfigModified files.readMcpConfig := by
    refine decide_eq_true ?_
    rwa [hhash]
  have hbegin := @run_begin files answer (start store) 0 rfl rfl hfirst
  have htrusted' : (files.filterTrusted answer (start store).store files.readMcpConfig).1 =
      trusted := htrusted
  rw [htrusted'] at hbegin
  rw [run_append, run_append, hbegin, hfinish, run_begin rfl hfree hsecond]
  rfl

/-! ### All runs -/

end McpSystem

/-! ### A rejected server -/

namespace Rejected

def server (command : String) : McpServerConfig :=
  .stdio
    { command := command, args := [], env := StringMap.empty, timeout := none, disable := false }

/-- A server of the user, and one of the project, which the user rejects. -/
def files : McpFiles where
  userConfig := some ⟨StringMap.empty.insert "github" (server "gh")⟩
  localConfig := some ⟨StringMap.empty.insert "project" (server "sh")⟩
  localPath := "/w/.mcp.json"

def tool : ToolDefinition where
  name := "create_issue"
  description := ""
  inputSchema := { value := (Json.bool true).value, shape := rfl }

def name : String := "mcp_github_tool_create_issue"

/-- The steps of a call up to the connections. -/
def connects (call : ℕ) : List McpEvent := List.replicate 7 (.step call .done)

/-- The first call connects the server; the second one clears the table before the first one looks
its tool up. -/
def events : List McpEvent :=
  .executeMcp 0 name :: connects 0 ++
    [.step 0 (.connected "github" [tool]), .step 0 .done, .step 0 .done] ++
    .executeMcp 1 name :: connects 1 ++ [.step 0 .done]

end Rejected

end HeliosLite
