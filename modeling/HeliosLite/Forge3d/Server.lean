import HeliosLite.Drift.Detector
import HeliosLite.Forge3d.Protocol
import HeliosLite.Forge3d.Registry
import HeliosLite.Lsp.Message
import Mathlib.Data.List.ReduceOption

/-!
# The daemon

`crates/forge3d/src/server.rs`: peers send requests over connections of their own, each of which is
served by a task that reads one request after the other and answers it from the registry that all
tasks share. A notification, which has no id, is read and not answered.

## Main definitions

* `dispatch` — the answer to a request
* `step` — a connection reads a frame
* `answers` — the answers to some calls, one after the other
* `requests` — the requests that a peer has sent, and how its connection ends

## Main results

* `passes` — what one pass of a connection does
* `serve_run` — what is answered, in whatever order the connections are served
-/

namespace HeliosLite.Forge3d

open Theory Serde Json

/-! ### Answers -/

/-- `params.get(key)`. -/
def getParam (params : Value) (key : String) : Option Json :=
  match params.val with
  | .obj fields => fields.lookup key
  | _ => none

/-- `params[key]`. -/
def param (params : Value) (key : String) : Json := (getParam params key).getD .null

def AgentInfo.toJson (info : AgentInfo) : Json :=
  record [("agent_id", some (.str info.agentId)), ("pid", some (ofU32 info.pid)),
    ("lane", some (.str info.lane)),
    ("prompt_excerpt", some (nullable (info.promptExcerpt.map .str))),
    ("last_heartbeat_unix_ms", some (Lsp.ofI64 info.lastHeartbeatUnixMs)),
    ("registered_at_unix_ms", some (Lsp.ofI64 info.registeredAtUnixMs))]

inductive OverrideReason where
  | userDismiss
  | userAck
  | autoInsert
  | stale
  | sameIntent
  | coordinated
  | userDirected
  deriving DecidableEq, Repr

def OverrideReason.ofJson : Json → Option OverrideReason :=
  tagged [("UserDismiss", unitCase .userDismiss), ("UserAck", unitCase .userAck),
    ("AutoInsert", unitCase .autoInsert), ("Stale", unitCase .stale),
    ("SameIntent", unitCase .sameIntent), ("Coordinated", unitCase .coordinated),
    ("UserDirected", unitCase .userDirected)]

/-- What the daemon is started with: whether it has a drift detector, whose scores are floats. -/
structure Setup where
  driftDetector : Bool
  toF64 : ℚ → F64
  reports : Reports

def driftEventJson (setup : Setup) : Drift.DriftEvent → Json
  | .overlapAlert id agentId similarity lane promptExcerpt =>
    record [("OverlapAlert", some (record [("id", some (ofU64 id)),
      ("agent_id", some (.str agentId)), ("similarity", some (ofF64 (setup.toF64 similarity))),
      ("lane", some (.str lane)), ("prompt_excerpt", some (.str promptExcerpt))]))]

/-- One pass of a connection's loop: the clock, the order of the map and the event of the detector
are those met in it. -/
structure Turn where
  connection : ℕ
  now : Int64
  order : MapOrder
  event : Option Drift.DriftEvent

section Handlers

variable (r : Registry) (params : Value) (turn : Turn)

def handleRegister : Except Forge3Error Value × Registry :=
  match string (param params "agent_id") with
  | none => (.error (.protocol "missing agent_id"), r)
  | some agentId =>
    match u64 (param params "pid") with
    | none => (.error (.protocol "missing or invalid pid"), r)
    | some pid =>
      let lane := (string (param params "lane")).getD "building"
      let promptExcerpt := string (param params "prompt_excerpt")
      let (info, r) := r.upsert agentId turn.now pid.toUInt32 lane promptExcerpt
      (.ok (record [("agent", some info.toJson)]).value, r)

def handleHeartbeat : Except Forge3Error Value × Registry :=
  match string (param params "agent_id") with
  | none => (.error (.protocol "missing agent_id"), r)
  | some agentId =>
    match r.heartbeat agentId turn.now with
    | (some info, r) => (.ok (record [("agent", some info.toJson)]).value, r)
    | (none, r) => (.error (.unknownAgent agentId), r)

def handleDeregister : Except Forge3Error Value × Registry :=
  match string (param params "agent_id") with
  | none => (.error (.protocol "missing agent_id"), r)
  | some agentId =>
    let (removed, r) := r.deregister agentId
    (.ok (record [("removed", some (.bool removed))]).value, r)

def handleList : Except Forge3Error Value × Registry :=
  let now := ((getParam params "now_unix_ms").bind Lsp.i64).getD turn.now
  let agents := r.listActive now turn.order
  (.ok (record [("agents", some (.arr (agents.map AgentInfo.toJson)))]).value, r)

def handleDriftObserve (setup : Setup) : Except Forge3Error Value × Registry :=
  if setup.driftDetector = false then
    (.error (.protocol "drift detection not configured"), r)
  else
    match string (param params "agent_id") with
    | none => (.error (.protocol "missing agent_id"), r)
    | some _ =>
      match string (param params "prompt") with
      | none => (.error (.protocol "missing prompt"), r)
      | some _ =>
        (.ok (record [("event", some (nullable (turn.event.map (driftEventJson setup))))]).value, r)

def handleDriftOverride (setup : Setup) : Except Forge3Error Value × Registry :=
  if setup.driftDetector = false then
    (.error (.protocol "drift detection not configured"), r)
  else
    match u64 (param params "alert_id") with
    | none => (.error (.protocol "missing or invalid alert_id"), r)
    | some _ =>
      match OverrideReason.ofJson (param params "reason") with
      | none => (.error (.protocol "missing or invalid reason"), r)
      | some _ => (.ok (record [("success", some (.bool true))]).value, r)

end Handlers

/-- The text of an error. -/
def Forge3Error.toString : Forge3Error → String
  | .io message => "i/o error: " ++ message
  | .json message => "json error: " ++ message
  | .lock message => "lock error: " ++ message
  | .registry message => "registry error: " ++ message
  | .protocol message => "protocol error: " ++ message
  | .frameLength len => "invalid frame length: " ++ len.toNat.repr
  | .unknownAgent agentId => "agent '" ++ agentId ++ "' not registered"
  | .unknownAlert alertId => "alert '" ++ alertId ++ "' not found"
  | .lockHeld pid => "another forge3d daemon holds the lock (pid=" ++ pid.toNat.repr ++ ")"
  | .alreadyRunning => "daemon already started on this socket"

/-- Stable error code. -/
def Forge3Error.code : Forge3Error → Int32
  | .protocol _ => -32600
  | .frameLength _ => -32601
  | .unknownAgent _ => -32010
  | .unknownAlert _ => -32011
  | .lockHeld _ => -32012
  | .alreadyRunning => -32013
  | .lock _ | .registry _ => -32014
  | .io _ | .json _ => -32603

/-- The error of a response. -/
def Forge3Error.body : Forge3Error → ErrorBody
  | .protocol message => ⟨-32600, message⟩
  | .unknownAgent agentId => ⟨-32010, "unknown agent: " ++ agentId⟩
  | .unknownAlert alertId => ⟨-32011, "unknown alert: " ++ alertId⟩
  | e => ⟨-32603, e.toString⟩

section Dispatch

variable (setup : Setup) (r : Registry) (turn : Turn) (req : Request)

/-- The handler of the method. -/
def handle : Except Forge3Error Value × Registry :=
  if req.method = "agent.register" then handleRegister r req.params turn
  else if req.method = "agent.heartbeat" then handleHeartbeat r req.params turn
  else if req.method = "agent.deregister" then handleDeregister r req.params
  else if req.method = "agent.list" then handleList r req.params turn
  else if req.method = "drift.observe" then handleDriftObserve r req.params turn setup
  else if req.method = "drift.override" then handleDriftOverride r req.params setup
  else (.error (.protocol ("unknown method: " ++ req.method)), r)

/-- The answer to a request, and the registry after it. -/
def dispatch : Response × Registry :=
  let id := req.id.getD (Json.value .null)
  let (out, r) := handle setup r turn req
  match out with
  | .ok value => (.success { jsonrpc := "2.0", result := value, id }, r)
  | .error e => (.error { jsonrpc := "2.0", error := e.body, id }, r)

end Dispatch

/-! ### Connections -/

structure Connection where
  /-- What the peer sends before it closes, as far as it is not read yet. -/
  input : List UInt8
  output : List UInt8
  /-- The result of a connection that is no longer served. -/
  ended : Option (Except Forge3Error Unit)

structure State where
  registry : Registry
  connections : ℕ → Connection

/-- A connection is updated. -/
def State.set (s : State) (i : ℕ) (c : Connection) : State :=
  { s with connections := Function.update s.connections i c }

@[simp] theorem State.connections_set (s : State) (i : ℕ) (c : Connection) :
    (s.set i c).connections i = c := Function.update_self ..

theorem State.connections_set_of_ne (s : State) {i j : ℕ} (c : Connection) (h : j ≠ i) :
    (s.set i c).connections j = s.connections j := Function.update_of_ne h ..

section Serve

variable [JsonText] (setup : Setup)

/-- The next request and the input behind it, unless the connection ends. -/
def receive (input : List UInt8) : Except Forge3Error (Option (Request × List UInt8)) :=
  match decodeFrame input with
  | .error e => .error e
  | .ok none => .ok none
  | .ok (some (bytes, rest)) =>
    match parseRequest setup.reports bytes with
    | .error e => .error e
    | .ok req => .ok (some (req, rest))

/-- A pass of the loop of `handle_connection`. -/
def step (s : State) (turn : Turn) : State :=
  let c := s.connections turn.connection
  if c.ended.isSome then s
  else
    match receive setup c.input with
    | .error e => s.set turn.connection { c with ended := some (.error e) }
    | .ok none => s.set turn.connection { c with ended := some (.ok ()) }
    | .ok (some (req, rest)) =>
      -- notifications are not dispatched
      if req.id.isNone then s.set turn.connection { c with input := rest }
      else
        let (resp, registry) := dispatch setup s.registry turn req
        { s with registry }.set turn.connection
          { c with input := rest, output := c.output ++ encodeFrame resp.payload }

/-- A request that was answered. -/
structure Served where
  turn : Turn
  req : Request
  resp : Response

/-- The request that a pass answers. -/
def serves (s : State) (turn : Turn) : Option Served :=
  let c := s.connections turn.connection
  if c.ended.isSome then none
  else
    match receive setup c.input with
    | .ok (some (req, _)) =>
      if req.id.isNone then none
      else some { turn, req, resp := (dispatch setup s.registry turn req).1 }
    | _ => none

/-- The requests that are answered in a run, with their answers. -/
def served (s : State) (turns : List Turn) : List Served :=
  (outputs (step setup) (serves setup) s turns).reduceOption

/-- The daemon before the first turn. -/
def start (inputs : ℕ → List UInt8) : State where
  registry := .new
  connections i := { input := inputs i, output := [], ended := none }

/-! ### One request after the other -/

/-- What a request does to the registry. -/
def operations (req : Request) (now : Int64) : List Operation :=
  match string (param req.params "agent_id") with
  | none => []
  | some agentId =>
    if req.method = "agent.register" then
      match u64 (param req.params "pid") with
      | none => []
      | some pid =>
        [.upsert agentId pid.toUInt32 ((string (param req.params "lane")).getD "building")
          (string (param req.params "prompt_excerpt")) now]
    else if req.method = "agent.heartbeat" then [.heartbeat agentId now]
    else if req.method = "agent.deregister" then [.deregister agentId]
    else []

/-- The answers to some calls, each of which finds what the ones before it have left. -/
def answers : Registry → List (Turn × Request) → List Response
  | _, [] => []
  | r, (turn, req) :: calls =>
    (dispatch setup r turn req).1 :: answers (run Registry.apply r (operations req turn.now)) calls

/-- The requests of some payloads, up to the first that is none, and how that ends. -/
def parseRequests (result : Except Forge3Error Unit) :
    List (List UInt8) → List Request × Except Forge3Error Unit
  | [] => ([], result)
  | bytes :: payloads =>
    match parseRequest setup.reports bytes with
    | .error e => ([], .error e)
    | .ok req => (req :: (parseRequests result payloads).1, (parseRequests result payloads).2)

/-- The requests that a peer has sent, and how its connection ends. -/
def requests (input : List UInt8) : List Request × Except Forge3Error Unit :=
  let (payloads, _, result) := readFrames input
  parseRequests setup result payloads

end Serve

/-! ### One answer -/

def Response.id : Response → Value
  | .success s => s.id
  | .error e => e.id

section Answers

variable {setup : Setup} {r r' : Registry} {turn : Turn} {req : Request} {e : Forge3Error}

theorem id_dispatch : (dispatch setup r turn req).1.id = req.id.getD (Json.value .null) := by
  unfold dispatch
  generalize handle setup r turn req = handled
  obtain ⟨out, r'⟩ := handled
  cases out with
  | ok value => rfl
  | error e => rfl

theorem registry_dispatch : (dispatch setup r turn req).2 = (handle setup r turn req).2 := by
  unfold dispatch
  generalize handle setup r turn req = handled
  obtain ⟨out, r'⟩ := handled
  cases out with
  | ok value => rfl
  | error e => rfl

theorem operations_of_ne {now : Int64} (hregister : req.method ≠ "agent.register")
    (hheartbeat : req.method ≠ "agent.heartbeat") (hderegister : req.method ≠ "agent.deregister") :
    operations req now = [] := by
  unfold operations
  split
  · rfl
  · rw [if_neg hregister, if_neg hheartbeat, if_neg hderegister]

theorem registry_handleHeartbeat {params : Value} {agentId : String}
    (h : string (param params "agent_id") = some agentId) :
    (handleHeartbeat r params turn).2 = (r.heartbeat agentId turn.now).2 := by
  simp only [handleHeartbeat, h]
  generalize r.heartbeat agentId turn.now = renewed
  obtain ⟨info, r'⟩ := renewed
  cases info with
  | none => rfl
  | some info => rfl

theorem registry_handleDriftObserve {params : Value} :
    (handleDriftObserve r params turn setup).2 = r := by
  unfold handleDriftObserve
  split_ifs
  · rfl
  · split
    · rfl
    · split
      · rfl
      · rfl

theorem registry_handleDriftOverride {params : Value} :
    (handleDriftOverride r params setup).2 = r := by
  unfold handleDriftOverride
  split_ifs
  · rfl
  · split
    · rfl
    · split
      · rfl
      · rfl

/-- A request changes the registry by its operations only. -/
theorem registry_handle :
    (handle setup r turn req).2 = run Registry.apply r (operations req turn.now) := by
  unfold handle
  split_ifs with hregister hheartbeat hderegister hlist hobserve hoverride
  · unfold handleRegister operations
    cases string (param req.params "agent_id") with
    | none => rfl
    | some agentId =>
      simp only [if_pos hregister]
      cases u64 (param req.params "pid") with
      | none => rfl
      | some pid => rfl
  · unfold operations
    cases hagent : string (param req.params "agent_id") with
    | none =>
      unfold handleHeartbeat
      rw [hagent]
      rfl
    | some agentId =>
      simp only [if_neg hregister, if_pos hheartbeat]
      exact registry_handleHeartbeat hagent
  · unfold handleDeregister operations
    cases string (param req.params "agent_id") with
    | none => rfl
    | some agentId =>
      simp only [if_neg hregister, if_neg hheartbeat, if_pos hderegister]
      rfl
  -- the other methods only read
  · rw [operations_of_ne hregister hheartbeat hderegister]
    rfl
  · rw [operations_of_ne hregister hheartbeat hderegister]
    exact registry_handleDriftObserve
  · rw [operations_of_ne hregister hheartbeat hderegister]
    exact registry_handleDriftOverride
  · rw [operations_of_ne hregister hheartbeat hderegister]
    rfl

/-- The errors of the handlers are answered with their own codes. -/
theorem code_handle (h : (handle setup r turn req).1 = .error e) : e.body.code = e.code := by
  -- each handler fails with errors that a response has a code for
  unfold handle at h
  split_ifs at h
  · unfold handleRegister at h
    split at h
    · cases h; rfl
    · split at h
      · cases h; rfl
      · cases h
  · unfold handleHeartbeat at h
    split at h
    · cases h; rfl
    · split at h
      · cases h
      · cases h; rfl
  · unfold handleDeregister at h
    split at h
    · cases h; rfl
    · cases h
  · cases h
  · unfold handleDriftObserve at h
    split_ifs at h
    · cases h; rfl
    · split at h
      · cases h; rfl
      · split at h
        · cases h; rfl
        · cases h
  · unfold handleDriftOverride at h
    split_ifs at h
    · cases h; rfl
    · split at h
      · cases h; rfl
      · split at h
        · cases h; rfl
        · cases h
  · cases h; rfl

end Answers

/-! ### One pass -/

section Passes

variable [JsonText] {setup : Setup} {input rest bytes : List UInt8} {req : Request}
  {e : Forge3Error}

theorem requests_of_noFrame {result : Except Forge3Error Unit} (h : NoFrame input result) :
    requests setup input = ([], result) := by
  rw [requests, readFrames_of_noFrame h]
  rfl

theorem requests_of_some (h : decodeFrame input = .ok (some (bytes, rest))) :
    requests setup input =
      match parseRequest setup.reports bytes with
      | .error e => ([], .error e)
      | .ok req => (req :: (requests setup rest).1, (requests setup rest).2) := by
  rw [requests, readFrames_of_some h]
  rfl

/-- What is read of the input is the first of its requests. -/
theorem requests_of_receive :
    requests setup input =
      match receive setup input with
      | .error e => ([], .error e)
      | .ok none => ([], .ok ())
      | .ok (some (req, rest)) => (req :: (requests setup rest).1, (requests setup rest).2) := by
  unfold receive
  cases hdecode : decodeFrame input with
  | error e => exact requests_of_noFrame (noFrame_iff.mpr hdecode)
  | ok frame =>
    cases frame with
    | none => exact requests_of_noFrame (noFrame_iff.mpr hdecode)
    | some frame =>
      obtain ⟨bytes, rest⟩ := frame
      rw [requests_of_some hdecode]
      dsimp only
      cases parseRequest setup.reports bytes with
      | error e => rfl
      | ok req => rfl

/-- What a pass of a connection does, and the request that it answers. -/
inductive Passes (setup : Setup) (s : State) (turn : Turn) : State → Option Served → Prop where
  /-- The connection has ended before. -/
  | closed (ended : (s.connections turn.connection).ended ≠ none) : Passes setup s turn s none
  /-- Nothing more can be read. -/
  | ends (result : Except Forge3Error Unit)
    (ended : (s.connections turn.connection).ended = none)
    (input : requests setup (s.connections turn.connection).input = ([], result)) :
    Passes setup s turn
      (s.set turn.connection { s.connections turn.connection with ended := some result }) none
  | notification (req : Request) (rest : List UInt8)
    (ended : (s.connections turn.connection).ended = none)
    (input : requests setup (s.connections turn.connection).input =
      (req :: (requests setup rest).1, (requests setup rest).2))
    (id : req.id = none) :
    Passes setup s turn
      (s.set turn.connection { s.connections turn.connection with input := rest }) none
  | answered (req : Request) (rest : List UInt8)
    (ended : (s.connections turn.connection).ended = none)
    (input : requests setup (s.connections turn.connection).input =
      (req :: (requests setup rest).1, (requests setup rest).2))
    (id : req.id ≠ none) :
    Passes setup s turn
      ({ s with registry := run Registry.apply s.registry (operations req turn.now) }.set
        turn.connection
        { s.connections turn.connection with
          input := rest
          output := (s.connections turn.connection).output ++
            encodeFrame (dispatch setup s.registry turn req).1.payload })
      (some ⟨turn, req, (dispatch setup s.registry turn req).1⟩)

theorem passes (s : State) (turn : Turn) :
    Passes setup s turn (step setup s turn) (serves setup s turn) := by
  unfold step serves
  cases hended : (s.connections turn.connection).ended with
  | some result =>
    have hclosed : (s.connections turn.connection).ended.isSome := by rw [hended]; rfl
    simp only [hclosed, if_true]
    exact .closed (by rw [hended]; exact Option.some_ne_none result)
  | none =>
    have hopen : (s.connections turn.connection).ended.isSome = false := by rw [hended]; rfl
    cases hreceive : receive setup (s.connections turn.connection).input with
    | error e =>
      simp only [hopen, hreceive, Bool.false_eq_true, if_false]
      exact .ends (.error e) hended (by rw [requests_of_receive, hreceive])
    | ok next =>
      cases next with
      | none =>
        simp only [hopen, hreceive, Bool.false_eq_true, if_false]
        exact .ends (.ok ()) hended (by rw [requests_of_receive, hreceive])
      | some next =>
        obtain ⟨req, rest⟩ := next
        have hinput : requests setup (s.connections turn.connection).input =
            (req :: (requests setup rest).1, (requests setup rest).2) := by
          rw [requests_of_receive, hreceive]
        simp only [hopen, hreceive, Bool.false_eq_true, if_false]
        split_ifs with hid
        · exact .notification req rest hended hinput (Option.isNone_iff_eq_none.mp hid)
        · -- the registry that the handler leaves is that of the operations
          have hregistry : (dispatch setup s.registry turn req).2 =
              run Registry.apply s.registry (operations req turn.now) :=
            registry_dispatch.trans registry_handle
          rw [hregistry]
          exact .answered req rest hended hinput fun hnone =>
            hid (Option.isNone_iff_eq_none.mpr hnone)

end Passes

/-! ### Runs -/

section Runs

variable [JsonText] {setup : Setup} {s : State} {turns : List Turn} {i : ℕ}

theorem served_cons (turn : Turn) :
    served setup s (turn :: turns) =
      (serves setup s turn).toList ++ served setup (step setup s turn) turns := by
  rw [served, outputs, served]
  cases serves setup s turn with
  | none => exact List.reduceOption_cons_of_none _
  | some entry => exact List.reduceOption_cons_of_some _ _

/-- The answers are those to the same calls, one after the other. -/
theorem resp_served :
    (served setup s turns).map Served.resp =
        answers setup s.registry ((served setup s turns).map fun e => (e.turn, e.req)) ∧
      (run (step setup) s turns).registry = run Registry.apply s.registry
        ((served setup s turns).flatMap fun e => operations e.req e.turn.now) := by
  induction turns generalizing s with
  | nil => exact ⟨rfl, rfl⟩
  | cons turn turns ih =>
    -- the registry that a pass leaves is the one that the next call finds
    have hpass : Passes setup s turn _ _ := passes s turn
    rw [served_cons, run_cons]
    generalize step setup s turn = s' at hpass ⊢
    generalize serves setup s turn = entry at hpass ⊢
    obtain ⟨hresp, hregistry⟩ := ih (s := s')
    cases hpass with
    | closed ended => exact ⟨hresp, hregistry⟩
    | ends result ended input => exact ⟨hresp, hregistry⟩
    | notification req rest ended input id => exact ⟨hresp, hregistry⟩
    | answered req rest ended input id =>
      refine ⟨congrArg _ hresp, ?_⟩
      rw [hregistry, Option.toList_some, List.singleton_append, List.flatMap_cons, run_append]
      rfl

/-- The other connections are left alone. -/
theorem Passes.of_ne {turn : Turn} {s' : State} {entry : Option Served}
    (hpass : Passes setup s turn s' entry) (h : turn.connection ≠ i) :
    s'.connections i = s.connections i ∧ entry.toList.filter (·.turn.connection = i) = [] := by
  cases hpass with
  | closed ended => exact ⟨rfl, rfl⟩
  | ends result ended input => exact ⟨State.connections_set_of_ne s _ h.symm, rfl⟩
  | notification req rest ended input id => exact ⟨State.connections_set_of_ne s _ h.symm, rfl⟩
  | answered req rest ended input id =>
    refine ⟨State.connections_set_of_ne _ _ h.symm, List.filter_cons_of_neg ?_⟩
    rw [decide_eq_true_eq]
    exact h

/-- A connection that has ended is not served any more. -/
theorem served_closed (h : (s.connections i).ended ≠ none) :
    (served setup s turns).filter (·.turn.connection = i) = [] ∧
      (run (step setup) s turns).connections i = s.connections i := by
  induction turns generalizing s with
  | nil => exact ⟨rfl, rfl⟩
  | cons turn turns ih =>
    have hpass : Passes setup s turn _ _ := passes s turn
    rw [served_cons, run_cons, List.filter_append]
    generalize step setup s turn = s' at hpass ⊢
    generalize serves setup s turn = entry at hpass ⊢
    by_cases hi : turn.connection = i
    · subst hi
      cases hpass with
      | closed ended => exact ih h
      | ends result ended input => exact absurd ended h
      | notification req rest ended input id => exact absurd ended h
      | answered req rest ended input id => exact absurd ended h
    · obtain ⟨hsame, hentry⟩ := hpass.of_ne hi
      rw [hentry, List.nil_append, ← hsame]
      exact ih (by rw [hsame]; exact h)

/-- A connection after so many passes over it, and what was answered on it. -/
structure Progress (setup : Setup) (c c' : Connection) (mine : List Served) (n : ℕ) : Prop where
  /-- Of the requests read, the ones with an id were answered. -/
  asked : mine.map Served.req = ((requests setup c.input).1.take n).filter (·.id.isSome)
  output : c'.output = c.output ++ mine.flatMap fun e => encodeFrame e.resp.payload
  ended : c'.ended =
    if n ≤ (requests setup c.input).1.length then none else some (requests setup c.input).2

section Progress

variable {c c' : Connection} {mine : List Served} {n : ℕ} {req : Request} {rest : List UInt8}

theorem Progress.start (h : c.ended = none) : Progress setup c c [] 0 :=
  ⟨rfl, (List.append_nil _).symm, h⟩

theorem Progress.closed {result : Except Forge3Error Unit}
    (hinput : requests setup c.input = ([], result)) :
    Progress setup c { c with ended := some result } [] (n + 1) := by
  constructor
  · rw [hinput]
    rfl
  · exact (List.append_nil _).symm
  · rw [hinput]
    rfl

theorem Progress.notification
    (hinput : requests setup c.input =
      (req :: (requests setup rest).1, (requests setup rest).2)) (hid : req.id = none)
    (h : Progress setup { c with input := rest } c' mine n) :
    Progress setup c c' mine (n + 1) := by
  have hdrop : ¬ (req.id.isSome = true) := by
    rw [hid]
    exact Bool.false_ne_true
  constructor
  · rw [hinput, List.take_succ_cons, List.filter_cons, if_neg hdrop]
    exact h.asked
  · exact h.output
  · rw [hinput, h.ended]
    simp only [List.length_cons, Nat.add_le_add_iff_right]

theorem Progress.answered {entry : Served}
    (hinput : requests setup c.input =
      (entry.req :: (requests setup rest).1, (requests setup rest).2)) (hid : entry.req.id ≠ none)
    (h : Progress setup
      { c with input := rest, output := c.output ++ encodeFrame entry.resp.payload } c' mine n) :
    Progress setup c c' (entry :: mine) (n + 1) := by
  constructor
  · rw [hinput, List.take_succ_cons, List.filter_cons,
      if_pos (Option.isSome_iff_ne_none.mpr hid), List.map_cons]
    exact congrArg _ h.asked
  · rw [h.output, List.flatMap_cons, List.append_assoc]
  · rw [hinput, h.ended]
    simp only [List.length_cons, Nat.add_le_add_iff_right]

/-- A pass and what comes after it, on the connection that it serves. -/
theorem Passes.progress {turn : Turn} {s' : State} {entry : Option Served}
    (hpass : Passes setup s turn s' entry) (hopen : (s.connections turn.connection).ended = none)
    (hafter : (s'.connections turn.connection).ended = none →
      Progress setup (s'.connections turn.connection) c' mine n)
    (hclosed : (s'.connections turn.connection).ended ≠ none →
      mine = [] ∧ c' = s'.connections turn.connection) :
    Progress setup (s.connections turn.connection) c' (entry.toList ++ mine) (n + 1) := by
  cases hpass with
  | closed ended => exact absurd hopen ended
  | ends result ended input =>
    rw [State.connections_set] at hclosed
    obtain ⟨rfl, rfl⟩ := hclosed (Option.some_ne_none result)
    exact .closed input
  | notification req rest ended input id =>
    rw [State.connections_set] at hafter
    exact .notification input id (hafter ended)
  | answered req rest ended input id =>
    rw [State.connections_set] at hafter
    have hrest := hafter ended
    exact .answered input id hrest

end Progress

theorem Passes.filter_self {turn : Turn} {s' : State} {entry : Option Served}
    (hpass : Passes setup s turn s' entry) :
    entry.toList.filter (·.turn.connection = turn.connection) = entry.toList := by
  cases hpass with
  | closed ended => rfl
  | ends result ended input => rfl
  | notification req rest ended input id => rfl
  | answered req rest ended input id => exact List.filter_cons_of_pos (decide_eq_true rfl)

theorem progress_run (h : (s.connections i).ended = none) :
    Progress setup (s.connections i) ((run (step setup) s turns).connections i)
      ((served setup s turns).filter (·.turn.connection = i))
      (turns.countP (·.connection = i)) := by
  induction turns generalizing s with
  | nil => exact .start h
  | cons turn turns ih =>
    have hpass : Passes setup s turn _ _ := passes s turn
    rw [served_cons, run_cons, List.filter_append, List.countP_cons]
    by_cases hi : turn.connection = i
    · -- the first request of the connection is read, and what is left is read later
      subst hi
      rw [if_pos (decide_eq_true rfl), hpass.filter_self]
      exact hpass.progress h ih served_closed
    · -- another connection is served
      obtain ⟨hsame, hentry⟩ := hpass.of_ne hi
      rw [if_neg (by simpa using hi), Nat.add_zero, hentry, List.nil_append, ← hsame]
      exact ih (by rw [hsame]; exact h)

theorem Passes.id {turn : Turn} {s' : State} {entry : Option Served}
    (hpass : Passes setup s turn s' entry) : ∀ e ∈ entry.toList, e.req.id = some e.resp.id := by
  cases hpass with
  | closed ended => exact List.forall_mem_nil _
  | ends result ended input => exact List.forall_mem_nil _
  | notification req rest ended input id => exact List.forall_mem_nil _
  | answered req rest ended input id =>
    rw [Option.toList_some, List.forall_mem_singleton, id_dispatch]
    exact (Option.getD_of_ne_none id _).symm

/-- An answer has the id of its request. -/
theorem id_served : ∀ e ∈ served setup s turns, e.req.id = some e.resp.id := by
  induction turns generalizing s with
  | nil => exact List.forall_mem_nil _
  | cons turn turns ih =>
    rw [served_cons, List.forall_mem_append]
    exact ⟨(passes s turn).id, ih⟩

/-- In whatever order the connections are served: the answers are those of one registry to the
requests one after the other, and each has the id of its request. On each connection the requests
with an id are answered in the order in which they were sent, nothing else is written, and the
connection ends as its input says. -/
theorem serve_run (setup : Setup) (inputs : ℕ → List UInt8) (turns : List Turn) :
    (served setup (start inputs) turns).map Served.resp =
        answers setup .new ((served setup (start inputs) turns).map fun e => (e.turn, e.req)) ∧
      (run (step setup) (start inputs) turns).registry = run Registry.apply .new
        ((served setup (start inputs) turns).flatMap fun e => operations e.req e.turn.now) ∧
      (∀ e ∈ served setup (start inputs) turns, e.req.id = some e.resp.id) ∧
      ∀ i, Progress setup ⟨inputs i, [], none⟩
        ((run (step setup) (start inputs) turns).connections i)
        ((served setup (start inputs) turns).filter (·.turn.connection = i))
        (turns.countP (·.connection = i)) :=
  ⟨resp_served.1, resp_served.2, id_served, fun i => progress_run (i := i) (s := start inputs) rfl⟩

end Runs

end HeliosLite.Forge3d
