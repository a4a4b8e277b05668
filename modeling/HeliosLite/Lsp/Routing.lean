import HeliosLite.Lsp.Message
import HeliosLite.Theory.Run
import Mathlib.Logic.Function.Basic

/-!
# Routing of responses

The providers of `crates/forge_lsp/src` share one client. Each module numbers its requests
by a counter of its own, and `send` of `crates/forge_lsp/src/lsp_client.rs` holds the pipe
from writing a request until a message ends the wait. The server answers each request once
and sends notifications and requests of its own in between.

## Main definitions

* `LspSystem.step` — the providers, the client and a server, interleaved in any way
* `LspSystem.Harmless` — no request of the server is read that the client takes for something else
* `LspSystem.Awaited` — the invariant: what is owed is the response that is waited for

## Main results

* `LspSystem.routed_read_iff` — a read keeps the routing exactly if it is harmless
* `LspSystem.routed_iff` — all sends of a run end on their own responses exactly if every read
  is harmless
-/

namespace HeliosLite.Lsp

open Serde Theory

inductive Provider where
  | hover
  | definition
  | completion
  | implementation
  | references
  | typeDefinition
  | rename
deriving DecidableEq

/-- The modules with a `COUNTER` of their own. -/
inductive Counter where
  | hover
  | definition
  | completion
  | implementation
  | references
  | rename
deriving DecidableEq

namespace Provider

def counter : Provider → Counter
  | hover => .hover
  | definition => .definition
  | completion => .completion
  | implementation => .implementation
  | references => .references
  | typeDefinition => .references
  | rename => .rename

def method : Provider → String
  | hover => "textDocument/hover"
  | definition => "textDocument/definition"
  | completion => "textDocument/completion"
  | implementation => "textDocument/implementation"
  | references => "textDocument/references"
  | typeDefinition => "textDocument/typeDefinition"
  | rename => "textDocument/rename"

end Provider

/-- How a send ended: on which message, and with what. -/
structure Returned where
  send : Send
  message : ServerMessage
  /-- A document that is no response is the error. -/
  result : Except Json LspResponse

/-- The send ended on the response to its request, and returned that if it returned one. -/
def Returned.Routed (e : Returned) : Prop :=
  ∃ answer, e.message = .response e.send answer ∧
    ∀ resp, e.result = .ok resp → resp = .ofAnswer e.send answer

structure LspSystem where
  counters : Counter → UInt64 := fun _ => 1
  calls : ℕ := 0
  /-- Numbered requests of providers that do not hold the pipe yet. -/
  ready : List Send := []
  /-- The send that holds the pipe. -/
  waiting : Option Send := none
  /-- What the server has written and nobody has read. -/
  pipe : List ServerMessage := []
  /-- Requests that the server has yet to answer. -/
  outstanding : List Send := []
  log : List Returned := []

inductive LspEvent where
  /-- A provider numbers a request. -/
  | call (provider : Provider) (params : Value)
  /-- A numbered request gets hold of the pipe and is written. -/
  | write (number : ℕ)
  | respond (number : ℕ) (answer : Except ResponseError Json)
  | notify (method : String) (params : Option Json)
  | ask (id : RequestId) (method : String) (params : Option Json)
  /-- The send that waits reads a message. -/
  | read

namespace LspSystem

/-- `next_request_id` of the module of a provider; `fetch_add` wraps around. -/
def call (s : LspSystem) (provider : Provider) (params : Value) : LspSystem :=
  let id := s.counters provider.counter
  { s with
    counters := Function.update s.counters provider.counter (id + 1)
    calls := s.calls + 1
    ready := s.ready ++ [⟨s.calls, ⟨id, provider.method, params⟩⟩] }

def write (s : LspSystem) (number : ℕ) : LspSystem :=
  match s.waiting, s.ready.find? (·.number = number) with
  | none, some send =>
    { s with
      ready := s.ready.filter (·.number ≠ number)
      waiting := some send
      outstanding := s.outstanding ++ [send] }
  | _, _ => s

def respond (s : LspSystem) (number : ℕ) (answer : Except ResponseError Json) : LspSystem :=
  match s.outstanding.find? (·.number = number) with
  | some send =>
    { s with
      outstanding := s.outstanding.filter (·.number ≠ number)
      pipe := s.pipe ++ [.response send answer] }
  | none => s

/-- One round of the loop of `send`. -/
def read (s : LspSystem) : LspSystem :=
  match s.waiting, s.pipe with
  | some send, message :: pipe =>
    match LspResponse.ofJson message.toJson with
    | some resp =>
      if resp.id = some send.request.id then
        { s with pipe, waiting := none, log := s.log ++ [⟨send, message, .ok resp⟩] }
      else { s with pipe }
    | none =>
      { s with pipe, waiting := none, log := s.log ++ [⟨send, message, .error message.toJson⟩] }
  | _, _ => s

def step (s : LspSystem) : LspEvent → LspSystem
  | .call provider params => s.call provider params
  | .write number => s.write number
  | .respond number answer => s.respond number answer
  | .notify method params => { s with pipe := s.pipe ++ [.notification method params] }
  | .ask id method params => { s with pipe := s.pipe ++ [.request id method params] }
  | .read => s.read

/-- All sends that have ended did so on their own responses. -/
def Routed (s : LspSystem) : Prop := ∀ e ∈ s.log, e.Routed

/-- A request of the server that is read while a send waits has a `u64` for its id, and not
the one that is waited for. -/
def Harmless (s : LspSystem) : LspEvent → Prop
  | .read =>
    match s.waiting, s.pipe with
    | some send, .request id _ _ :: _ => ∃ n, id.asU64 = some n ∧ n ≠ send.request.id
    | _, _ => True
  | _ => True

/-- The request that a message answers. -/
def answered : ServerMessage → Option Send
  | .response send _ => some send
  | _ => none

/-- What is owed, on the pipe or by the server, is the response that is waited for. -/
structure Awaited (s : LspSystem) : Prop where
  owed : s.pipe.filterMap answered ++ s.outstanding = s.waiting.toList
  routed : s.Routed

variable {s : LspSystem}

theorem awaited_start : Awaited {} where
  owed := rfl
  routed _ h := absurd h List.not_mem_nil

theorem Awaited.write (h : s.Awaited) (number : ℕ) : (s.write number).Awaited := by
  rw [LspSystem.write]
  split
  · next send hwaiting hfind =>
    refine ⟨?_, h.routed⟩
    have howed := h.owed
    rw [hwaiting] at howed
    obtain ⟨hpipe, hout⟩ := List.append_eq_nil_iff.mp howed
    dsimp only
    rw [hpipe, hout]
    rfl
  · exact h

theorem Awaited.respond (h : s.Awaited) (number : ℕ) (answer : Except ResponseError Json) :
    (s.respond number answer).Awaited := by
  rw [LspSystem.respond]
  split
  · next send hfind =>
    refine ⟨?_, h.routed⟩
    have hmem := List.mem_of_find?_eq_some hfind
    have hnumber : send.number = number := by simpa using List.find?_some hfind
    have howed := h.owed
    -- only the send that waits can be outstanding
    cases hwaiting : s.waiting with
    | none =>
      rw [hwaiting] at howed
      rw [(List.append_eq_nil_iff.mp howed).2] at hmem
      exact absurd hmem List.not_mem_nil
    | some sent =>
      rw [hwaiting] at howed
      rcases List.append_eq_singleton_iff.mp howed with ⟨hpipe, hout⟩ | ⟨_, hout⟩
      · rw [hout] at hmem
        obtain rfl := List.mem_singleton.mp hmem
        dsimp only
        rw [List.filterMap_append, hpipe, hout, List.filter_singleton, hnumber]
        simp [answered]
      · rw [hout] at hmem
        exact absurd hmem List.not_mem_nil
  · exact h

theorem routed_append {e : Returned} (h : s.Routed) :
    (∀ e' ∈ s.log ++ [e], e'.Routed) ↔ e.Routed := by
  rw [List.forall_mem_append, List.forall_mem_singleton]
  exact and_iff_right h

/-- The next message that a send reads. -/
theorem read_of_message {send : Send} {message : ServerMessage} {pipe : List ServerMessage}
    (hwaiting : s.waiting = some send) (hpipe : s.pipe = message :: pipe) :
    s.read = match LspResponse.ofJson message.toJson with
      | some resp =>
        if resp.id = some send.request.id then
          { s with pipe, waiting := none, log := s.log ++ [⟨send, message, .ok resp⟩] }
        else { s with pipe }
      | none =>
        { s with pipe, waiting := none,
                 log := s.log ++ [⟨send, message, .error message.toJson⟩] } := by
  rw [read, hwaiting, hpipe]

theorem read_of_idle (h : s.waiting = none ∨ s.pipe = []) : s.read = s := by
  rw [read]
  rcases h with h | h
  · rw [h]
  · rw [h]
    split
    · next heq => cases heq
    · rfl

/-- A message that answers nothing is passed over. -/
theorem Awaited.skip (h : s.Awaited) {message : ServerMessage} {pipe : List ServerMessage}
    (hpipe : s.pipe = message :: pipe) (hanswered : answered message = none) :
    Awaited { s with pipe } := by
  refine ⟨?_, h.routed⟩
  have howed := h.owed
  rwa [hpipe, List.filterMap_cons_none hanswered] at howed

/-- The response that a send waits for ends it. -/
theorem read_response {send : Send} {answer : Except ResponseError Json}
    {pipe : List ServerMessage} (hwaiting : s.waiting = some send)
    (hpipe : s.pipe = .response send answer :: pipe) :
    ∃ e : Returned, e.Routed ∧
      s.read = { s with pipe, waiting := none, log := s.log ++ [e] } := by
  rw [read_of_message hwaiting hpipe]
  cases hread : LspResponse.ofJson (ServerMessage.response send answer).toJson with
  | none => exact ⟨⟨send, _, .error _⟩, ⟨answer, rfl, nofun⟩, rfl⟩
  | some resp =>
    have hresp := ofJson_response hread
    have hid : resp.id = some send.request.id := by
      rw [hresp]
      cases answer <;> rfl
    refine ⟨⟨send, _, .ok resp⟩, ⟨answer, rfl, ?_⟩, if_pos hid⟩
    rintro _ ⟨⟩
    exact hresp

theorem read_notification {send : Send} {method : String} {params : Option Json}
    {pipe : List ServerMessage} (hwaiting : s.waiting = some send)
    (hpipe : s.pipe = .notification method params :: pipe) : s.read = { s with pipe } := by
  rw [read_of_message hwaiting hpipe, ofJson_notification]
  exact if_neg nofun

/-- A request with another number is passed over. -/
theorem read_request_of_ne {send : Send} {id : RequestId} {method : String}
    {params : Option Json} {pipe : List ServerMessage} {n : UInt64}
    (hwaiting : s.waiting = some send) (hpipe : s.pipe = .request id method params :: pipe)
    (hid : id.asU64 = some n) (hne : n ≠ send.request.id) : s.read = { s with pipe } := by
  rw [read_of_message hwaiting hpipe, ofJson_request, hid]
  exact if_neg fun h => hne (Option.some.inj h)

/-- Any other request of the server ends the send. -/
theorem read_request_of_not {send : Send} {id : RequestId} {method : String}
    {params : Option Json} {pipe : List ServerMessage} (hwaiting : s.waiting = some send)
    (hpipe : s.pipe = .request id method params :: pipe)
    (hid : ¬ ∃ n, id.asU64 = some n ∧ n ≠ send.request.id) :
    ∃ e : Returned, ¬ e.Routed ∧
      s.read = { s with pipe, waiting := none, log := s.log ++ [e] } := by
  have hother {result : Except Json LspResponse} :
      ¬ Returned.Routed ⟨send, .request id method params, result⟩ := by
    rintro ⟨answer, hmessage, _⟩
    cases hmessage
  rw [read_of_message hwaiting hpipe, ofJson_request]
  cases hnumber : id.asU64 with
  | none => exact ⟨_, hother, rfl⟩
  | some n =>
    have heq : n = send.request.id := by
      by_contra hne
      exact hid ⟨n, hnumber, hne⟩
    exact ⟨_, hother, if_pos (congrArg some heq)⟩

/-- What is next on the pipe while a send waits: nothing, its response, or another message. -/
theorem Awaited.eq_of_response (h : s.Awaited) {send sent : Send}
    {answer : Except ResponseError Json} {pipe : List ServerMessage}
    (hwaiting : s.waiting = some send) (hpipe : s.pipe = .response sent answer :: pipe) :
    sent = send ∧ pipe.filterMap answered ++ s.outstanding = [] := by
  have howed := h.owed
  have hsent : answered (.response sent answer) = some sent := rfl
  rw [hpipe, hwaiting, List.filterMap_cons_some hsent] at howed
  exact ⟨(List.cons.inj howed).1, (List.cons.inj howed).2⟩

/-- A read keeps the routing exactly if it is harmless, and the invariant then as well. -/
theorem routed_read_iff (h : s.Awaited) :
    (s.read.Routed ↔ s.Harmless .read) ∧ (s.Harmless .read → s.read.Awaited) := by
  have hsame (hread : s.read = s) (hharmless : s.Harmless .read) :
      (s.read.Routed ↔ s.Harmless .read) ∧ (s.Harmless .read → s.read.Awaited) := by
    rw [hread]
    exact ⟨iff_of_true h.routed hharmless, fun _ => h⟩
  cases hwaiting : s.waiting with
  | none =>
    apply hsame (read_of_idle (Or.inl hwaiting))
    rw [Harmless, hwaiting]
    trivial
  | some send =>
    rcases hpipe : s.pipe with _ | ⟨⟨sent, answer⟩ | ⟨method, params⟩ | ⟨id, method, params⟩, pipe⟩
    · apply hsame (read_of_idle (Or.inr hpipe))
      rw [Harmless, hwaiting, hpipe]
      trivial
    · obtain ⟨rfl, hrest⟩ := h.eq_of_response hwaiting hpipe
      obtain ⟨e, he, hread⟩ := read_response hwaiting hpipe
      have hharmless : s.Harmless .read := by
        rw [Harmless, hwaiting, hpipe]
        trivial
      have hrouted : s.read.Routed := by
        rw [hread]
        exact (routed_append h.routed).mpr he
      refine ⟨iff_of_true hrouted hharmless, fun _ => ⟨?_, hrouted⟩⟩
      rw [hread]
      exact hrest
    · have hread := read_notification hwaiting hpipe
      have hharmless : s.Harmless .read := by
        rw [Harmless, hwaiting, hpipe]
        trivial
      rw [hread]
      exact ⟨iff_of_true h.routed hharmless, fun _ => h.skip hpipe rfl⟩
    · have hiff : s.Harmless .read ↔ ∃ n, id.asU64 = some n ∧ n ≠ send.request.id := by
        rw [Harmless, hwaiting, hpipe]
      rw [hiff]
      by_cases hid : ∃ n, id.asU64 = some n ∧ n ≠ send.request.id
      · obtain ⟨n, hn, hne⟩ := hid
        rw [read_request_of_ne hwaiting hpipe hn hne]
        exact ⟨iff_of_true h.routed ⟨n, hn, hne⟩, fun _ => h.skip hpipe rfl⟩
      · obtain ⟨e, he, hread⟩ := read_request_of_not hwaiting hpipe hid
        rw [hread]
        refine ⟨iff_of_false ?_ hid, fun h => absurd h hid⟩
        intro hrouted
        exact he ((routed_append h.routed).mp hrouted)

/-- The other steps keep the invariant. -/
theorem Awaited.step (h : s.Awaited) (e : LspEvent) (hharmless : s.Harmless e) :
    (s.step e).Awaited := by
  cases e with
  | call provider params => exact ⟨h.owed, h.routed⟩
  | write number => exact h.write number
  | respond number answer => exact h.respond number answer
  | notify method params =>
    refine ⟨?_, h.routed⟩
    dsimp only [LspSystem.step]
    rw [List.filterMap_append, List.filterMap_cons_none rfl, List.filterMap_nil, List.append_nil]
    exact h.owed
  | ask id method params =>
    refine ⟨?_, h.routed⟩
    dsimp only [LspSystem.step]
    rw [List.filterMap_append, List.filterMap_cons_none rfl, List.filterMap_nil, List.append_nil]
    exact h.owed
  | read => exact (routed_read_iff h).2 hharmless

theorem routed_step_iff (h : s.Awaited) (e : LspEvent) :
    (s.step e).Routed ↔ s.Harmless e := by
  cases e with
  | read => exact (routed_read_iff h).1
  | _ => refine iff_of_true (h.step _ ?_).routed ?_ <;> trivial

/-- In every run from the start, all sends end on their own responses exactly if no read takes
a request of the server for something else. -/
theorem routed_iff (events : List LspEvent) :
    (∀ before, before <+: events → (run step {} before).Routed) ↔
      Meets step Harmless {} events :=
  forall_initial_iff (fun _ h => h.routed) (fun _ e h => routed_step_iff h e)
    (fun _ e h hharmless => h.step e hharmless) awaited_start

/-- The server asks with a string for an id while a hover waits. The hover fails, its response
stays on the pipe, and a definition request with the same number is given that response. -/
theorem not_routed_of_string : ∃ events : List LspEvent,
    ¬ ∀ before, before <+: events → (run step {} before).Routed := by
  let params : Value := ⟨.null, rfl⟩
  let hover : Send := ⟨0, ⟨1, "textDocument/hover", params⟩⟩
  let definition : Send := ⟨1, ⟨1, "textDocument/definition", params⟩⟩
  let ask : ServerMessage := .request (.string "ts1") "client/registerCapability" none
  refine ⟨[.call .hover params, .write 0, .ask (.string "ts1") "client/registerCapability" none,
    .respond 0 (.ok .null), .read, .call .definition params, .write 1,
    .respond 1 (.ok (.arr [])), .read], ?_⟩
  intro hall
  have hrouted := hall _ List.prefix_rfl
  have hlog : (run step {} [.call .hover params, .write 0,
      .ask (.string "ts1") "client/registerCapability" none, .respond 0 (.ok .null), .read,
      .call .definition params, .write 1, .respond 1 (.ok (.arr [])), .read]).log =
      [⟨hover, ask, .error ask.toJson⟩,
        ⟨definition, .response hover (.ok .null), .ok ⟨some "2.0", some 1, none, none⟩⟩] := rfl
  rw [Routed, hlog] at hrouted
  obtain ⟨answer, hanswer, _⟩ := hrouted _ (List.mem_cons_of_mem _ List.mem_cons_self)
  exact Nat.zero_ne_one (congrArg Send.number (ServerMessage.response.inj hanswer).1)

end LspSystem

end HeliosLite.Lsp
