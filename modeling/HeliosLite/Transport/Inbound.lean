import HeliosLite.Transport.WebSocket
import Mathlib.Logic.Relation

/-!
# A connection of a web socket

What a connection does with the frames of its client, and the queue between it and the wire. The
queue is short, and what finds no room in it is dropped; a task of its own takes frames out of it
and writes them. Another task puts the messages of the topic into the queue, at any time.

## Main definitions

* `driveInbound` — the loop over the frames of the client
* `Pump.Step` — a step of one of the tasks

## Main results

* `driveInbound_reads` — the loop handles the frames that the client sent, up to a close
* `Pump.run_inv` — what holds in whatever order the tasks run
-/

namespace HeliosLite

namespace WebSocket

open Theory
open Relation (ReflTransGen)

/-! ### The loop -/

/-- What a connection does for a frame: a text goes to the hub, a frame is offered to the queue. -/
inductive Event where
  | text (payload : List UInt8)
  | offer (frame : List UInt8)
  deriving DecidableEq, Repr

/-- The bytes of `"ok"`, the reason that is given with a close. -/
def okReason : List UInt8 := [0x6F, 0x6B]

/-- What is done for a frame, and whether the loop goes on. -/
def handle (frame : Frame) : Except IoError (List Event × Bool) :=
  match frame.opcode with
  | .text => .ok ([.text frame.payload], true)
  | .close => do
    let close ← encodeCloseFrame .normal okReason
    return ([.offer close], false)
  | .ping => do
    let pong ← encodeControlFrame .pong frame.payload
    return ([.offer pong], true)
  | .pong | .binary | .continuation => .ok ([], true)

/-- A stream that ends is no error. -/
def atEnd (e : IoError) : Except IoError Unit :=
  if e.kind = .unexpectedEof then .ok () else .error e

theorem length_lt_of_readFrame {input rest : List UInt8} {frame : Frame}
    (h : readFrame input = .ok (frame, rest)) : rest.length < input.length := by
  obtain ⟨f, rfl, -⟩ := readFrame_eq_ok_iff.mp h
  rw [List.length_append, ClientFrame.bytes, header]
  simp only [List.cons_append, List.length_cons]
  omega

/-- The loop over the bytes that come in until the stream ends. -/
def driveInbound (input : List UInt8) : List Event × Except IoError Unit :=
  match _h : readFrame input with
  | .error e => ([], atEnd e)
  | .ok (frame, rest) =>
    match handle frame with
    | .error e => ([], .error e)
    | .ok (events, false) => (events, .ok ())
    | .ok (events, true) =>
      let (later, result) := driveInbound rest
      (events ++ later, result)
termination_by input.length
decreasing_by exact length_lt_of_readFrame _h

/-! ### The frames of a run -/

/-- The frame that answers a ping. -/
def pongFor (payload : List UInt8) : Frame := ⟨.pong, payload⟩

/-- The close of a connection that ends as it should. -/
def closeOk : Frame := ⟨.close, toBigEndian 2 CloseCode.normal.toU16 ++ okReason⟩

/-- What is done for a frame of the client. -/
def ClientFrame.events (f : ClientFrame) : List Event :=
  match f.opcode with
  | .text => [.text f.payload]
  | .ping => [.offer (pongFor f.payload).bytes]
  | .close => [.offer closeOk.bytes]
  | .pong | .binary | .continuation => []

theorem length_closeOk_le : closeOk.payload.length ≤ usizeMax :=
  Nat.le_trans (m := 4) (Nat.le_refl 4) (by decide)

theorem ClientFrame.length_le (f : ClientFrame) : f.payload.length ≤ usizeMax :=
  f.small.trans (by decide)

theorem encodeCloseFrame_ok : encodeCloseFrame .normal okReason = .ok closeOk.bytes :=
  encodeDataFrame_eq length_closeOk_le

theorem handle_frame (f : ClientFrame) :
    handle f.frame = .ok (f.events, decide (f.opcode ≠ .close)) := by
  unfold handle ClientFrame.events
  rw [ClientFrame.frame]
  cases f.opcode with
  | close =>
    dsimp only
    rw [encodeCloseFrame_ok]
    rfl
  | ping =>
    dsimp only
    rw [encodeControlFrame, encodeDataFrame_eq f.length_le]
    rfl
  | _ => rfl

theorem driveInbound_of_error {input : List UInt8} {e : IoError} (h : readFrame input = .error e) :
    driveInbound input = ([], atEnd e) := by
  rw [driveInbound]
  split
  next e' he =>
    rw [h, Except.error.injEq] at he
    rw [he]
  next frame rest hok =>
    rw [h] at hok
    exact (error_ne_ok hok).elim

theorem driveInbound_bytes (f : ClientFrame) (rest : List UInt8) :
    driveInbound (f.bytes ++ rest) =
      if f.opcode = .close then (f.events, .ok ())
      else (f.events ++ (driveInbound rest).1, (driveInbound rest).2) := by
  rw [driveInbound]
  split
  next e he =>
    rw [readFrame_bytes] at he
    exact (error_ne_ok he.symm).elim
  next frame rest' hok =>
    rw [readFrame_bytes, Except.ok.injEq, Prod.mk.injEq] at hok
    obtain ⟨rfl, rfl⟩ := hok
    rw [handle_frame]
    by_cases hclose : f.opcode = .close
    · rw [if_pos hclose, hclose]
      rfl
    · rw [if_neg hclose, decide_eq_true hclose]

/-- The bytes of the frames of a client. -/
def stream (frames : List ClientFrame) : List UInt8 := frames.flatMap ClientFrame.bytes

/-- Whatever comes in is a number of frames, none of them a close, and then a close or something
that is no frame. The loop handles exactly these frames. -/
theorem driveInbound_reads (input : List UInt8) :
    ∃ (frames : List ClientFrame) (rest : List UInt8), input = stream frames ++ rest ∧
      (∀ f ∈ frames, f.opcode ≠ .close) ∧
      ((∃ (f : ClientFrame) (unread : List UInt8), rest = f.bytes ++ unread ∧ f.opcode = .close ∧
          driveInbound input =
            (frames.flatMap ClientFrame.events ++ [.offer closeOk.bytes], .ok ())) ∨
        ∃ e, readFrame rest = .error e ∧
          driveInbound input = (frames.flatMap ClientFrame.events, atEnd e)) := by
  induction hn : input.length using Nat.strong_induction_on generalizing input with
  | _ n ih =>
    cases hread : readFrame input with
    | error e =>
      refine ⟨[], input, rfl, fun f hf => absurd hf List.not_mem_nil, .inr ⟨e, hread, ?_⟩⟩
      exact driveInbound_of_error hread
    | ok result =>
      obtain ⟨frame, rest⟩ := result
      have hlt := length_lt_of_readFrame hread
      obtain ⟨f, rfl, -⟩ := readFrame_eq_ok_iff.mp hread
      by_cases hclose : f.opcode = .close
      · refine ⟨[], _, rfl, fun f hf => absurd hf List.not_mem_nil,
          .inl ⟨f, rest, rfl, hclose, ?_⟩⟩
        rw [driveInbound_bytes, if_pos hclose, ClientFrame.events, hclose]
        rfl
      · obtain ⟨frames, rest', rfl, hopen, hend⟩ := ih rest.length (hn ▸ hlt) rest rfl
        have hrun : ∀ last result, driveInbound (stream frames ++ rest') =
            (frames.flatMap ClientFrame.events ++ last, result) →
            driveInbound (f.bytes ++ (stream frames ++ rest')) =
              ((f :: frames).flatMap ClientFrame.events ++ last, result) := by
          intro last result hdrive
          rw [driveInbound_bytes, if_neg hclose, hdrive, List.flatMap_cons, List.append_assoc]
        refine ⟨f :: frames, rest', ?_, List.forall_mem_cons.mpr ⟨hclose, hopen⟩, ?_⟩
        · rw [stream, stream, List.flatMap_cons, List.append_assoc]
        · rcases hend with ⟨c, unread, rfl, hc, hdrive⟩ | ⟨e, he, hdrive⟩
          · exact .inl ⟨c, unread, rfl, hc, hrun _ _ hdrive⟩
          · refine .inr ⟨e, he, ?_⟩
            rw [← List.append_nil (List.flatMap _ frames)] at hdrive
            rw [hrun _ _ hdrive, List.append_nil]

/-! ### The tasks of a connection -/

/-- The capacity of the queue. -/
def relayCap : ℕ := 64

/-- A connection: what is not read yet, whether the loop runs and the last close is still to be
sent, the texts that went to the hub, the queue, and the wire. -/
structure Pump where
  input : List UInt8
  reading : Bool
  unclosed : Bool
  writing : Bool
  texts : List (List UInt8)
  queue : List (List UInt8)
  wire : List UInt8
  deriving DecidableEq, Repr

namespace Pump

def start (input : List UInt8) : Pump where
  input := input
  reading := true
  unclosed := true
  writing := true
  texts := []
  queue := []
  wire := []

/-- `try_send`: a frame that finds no room, or no writer, is dropped. -/
def trySend (s : Pump) (frame : List UInt8) : Pump :=
  if s.writing = true ∧ s.queue.length < relayCap then { s with queue := s.queue ++ [frame] } else s

def perform (s : Pump) : Event → Pump
  | .text payload => { s with texts := s.texts ++ [payload] }
  | .offer frame => s.trySend frame

/-- A step of the loop, of the task that forwards the topic, or of the writer. -/
inductive Step (s : Pump) : Pump → Prop
  | read {frame : Frame} {rest : List UInt8} {events : List Event} {goOn : Bool} :
      s.reading = true → readFrame s.input = .ok (frame, rest) →
      handle frame = .ok (events, goOn) →
      Step s (events.foldl perform { s with input := rest, reading := goOn })
  | stop {e : IoError} : s.reading = true → readFrame s.input = .error e →
      Step s { s with reading := false }
  | goodbye {close : List UInt8} : s.reading = false → s.unclosed = true → s.writing = true →
      encodeCloseFrame .normal okReason = .ok close → s.queue.length < relayCap →
      Step s { s with queue := s.queue ++ [close], unclosed := false }
  | forward {body frame : List UInt8} : encodeTextFrame body = .ok frame → Step s (s.trySend frame)
  | write {frame : List UInt8} {queue : List (List UInt8)} : s.writing = true →
      s.queue = frame :: queue → Step s { s with queue := queue, wire := s.wire ++ frame }
  -- the peer is gone: a part of the frame was written
  | broken {frame part : List UInt8} {queue : List (List UInt8)} : s.writing = true →
      s.queue = frame :: queue → part <+: frame →
      Step s { s with queue := [], wire := s.wire ++ part, writing := false }

end Pump

/-- The payloads of the frames of a kind. -/
def payloads (opcode : OpCode) (frames : List Frame) : List (List UInt8) :=
  (frames.filter (·.opcode = opcode)).map Frame.payload

theorem payloads_concat {opcode : OpCode} {frames : List Frame} {f : Frame} :
    payloads opcode (frames ++ [f]) =
      payloads opcode frames ++ if f.opcode = opcode then [f.payload] else [] := by
  rw [payloads, List.filter_append, List.map_append, List.filter_cons, List.filter_nil, payloads]
  simp only [decide_eq_true_eq]
  split_ifs <;> rfl

theorem payloads_read {opcode : OpCode} {read : List ClientFrame} {f : ClientFrame} :
    payloads opcode ((read ++ [f]).map ClientFrame.frame) =
      payloads opcode (read.map ClientFrame.frame) ++
        if f.opcode = opcode then [f.payload] else [] := by
  rw [List.map_append, List.map_singleton, payloads_concat]
  rfl

/-- What a connection has done: the frames that it read, and those that were put into the queue. -/
structure Pump.Inv (input : List UInt8) (read : List ClientFrame) (sent : List Frame)
    (s : Pump) : Prop where
  input_eq : input = stream read ++ s.input
  reading : s.reading = true → ∀ f ∈ read, f.opcode ≠ .close
  closes : ∀ f ∈ read.dropLast, f.opcode ≠ .close
  texts : s.texts = payloads .text (read.map ClientFrame.frame)
  whole : s.writing = true → s.wire ++ s.queue.flatten = sent.flatMap Frame.bytes
  wire : s.wire <+: sent.flatMap Frame.bytes
  room : s.queue.length ≤ relayCap
  kinds : ∀ f ∈ sent, f.opcode = .text ∨ f.opcode = .close ∨ f.opcode = .pong
  pongs : (payloads .pong sent).Sublist (payloads .ping (read.map ClientFrame.frame))

namespace Pump

variable {input : List UInt8} {read : List ClientFrame} {sent : List Frame} {s s' : Pump}

theorem inv_start : Inv input [] [] (start input) where
  input_eq := rfl
  reading := fun _ _ hf => absurd hf List.not_mem_nil
  closes := fun _ hf => absurd hf List.not_mem_nil
  texts := rfl
  whole := fun _ => rfl
  wire := List.nil_prefix
  room := Nat.zero_le _
  kinds := fun _ hf => absurd hf List.not_mem_nil
  pongs := List.Sublist.refl _

/-- A frame that was put into the queue. -/
theorem Inv.enqueue {f : Frame} (h : Inv input read sent s)
    (hroom : s.queue.length < relayCap)
    (hkind : f.opcode = .text ∨ f.opcode = .close ∨ f.opcode = .pong)
    (hpongs : (payloads .pong (sent ++ [f])).Sublist
      (payloads .ping (read.map ClientFrame.frame))) :
    Inv input read (sent ++ [f]) { s with queue := s.queue ++ [f.bytes] } where
  input_eq := h.input_eq
  reading := h.reading
  closes := h.closes
  texts := h.texts
  whole := fun hwriting => by
    dsimp only
    rw [List.flatten_append, ← List.append_assoc, h.whole hwriting, List.flatMap_append]
    rfl
  wire := by
    rw [List.flatMap_append]
    exact h.wire.trans (List.prefix_append _ _)
  room := by
    dsimp only
    rw [List.length_append, List.length_singleton]
    exact hroom
  kinds := by
    intro f' hf'
    rcases List.mem_append.mp hf' with hf' | hf'
    · exact h.kinds f' hf'
    · rw [List.mem_singleton.mp hf']
      exact hkind
  pongs := hpongs

theorem Inv.trySend {f : Frame} (h : Inv input read sent s)
    (hkind : f.opcode = .text ∨ f.opcode = .close ∨ f.opcode = .pong)
    (hpongs : (payloads .pong (sent ++ [f])).Sublist
      (payloads .ping (read.map ClientFrame.frame))) :
    ∃ sent', Inv input read sent' (s.trySend f.bytes) := by
  unfold Pump.trySend
  split_ifs with hroom
  · exact ⟨_, h.enqueue hroom.2 hkind hpongs⟩
  · exact ⟨sent, h⟩

theorem pongs_append_of_ne {f : Frame} (h : Inv input read sent s) (hf : f.opcode ≠ .pong) :
    (payloads .pong (sent ++ [f])).Sublist (payloads .ping (read.map ClientFrame.frame)) := by
  rw [payloads_concat, if_neg hf, List.append_nil]
  exact h.pongs

/-- A frame that was read, before anything is done for it. -/
theorem Inv.readOne {f : ClientFrame} {rest : List UInt8} (h : Inv input read sent s)
    (hreading : s.reading = true) (hinput : s.input = f.bytes ++ rest) :
    Inv input (read ++ [f]) sent
      { s with
        input := rest
        reading := decide (f.opcode ≠ .close)
        texts := payloads .text ((read ++ [f]).map ClientFrame.frame) } where
  input_eq := by
    rw [h.input_eq, hinput, stream, stream, List.flatMap_append, List.append_assoc,
      List.flatMap_singleton]
  reading := by
    intro hopen f' hf'
    rcases List.mem_append.mp hf' with hf' | hf'
    · exact h.reading hreading f' hf'
    · rw [List.mem_singleton.mp hf']
      exact of_decide_eq_true hopen
  closes := by
    rw [List.dropLast_concat]
    exact h.reading hreading
  texts := rfl
  whole := h.whole
  wire := h.wire
  room := h.room
  kinds := h.kinds
  pongs := by
    rw [payloads_read]
    exact h.pongs.trans (List.sublist_append_left _ _)

/-- A frame that was read, and what is done for it. -/
theorem Inv.readFrame {f : ClientFrame} {rest : List UInt8} (h : Inv input read sent s)
    (hreading : s.reading = true) (hinput : s.input = f.bytes ++ rest) :
    ∃ sent', Inv input (read ++ [f]) sent'
      (f.events.foldl perform { s with input := rest, reading := decide (f.opcode ≠ .close) }) := by
  have hread := h.readOne hreading hinput
  have hsame : f.opcode ≠ .text →
      payloads .text ((read ++ [f]).map ClientFrame.frame) = s.texts := by
    intro hne
    rw [payloads_read, if_neg hne, List.append_nil, h.texts]
  unfold ClientFrame.events
  cases hop : f.opcode with
  | text =>
    have htext : payloads .text ((read ++ [f]).map ClientFrame.frame) = s.texts ++ [f.payload] := by
      rw [payloads_read, if_pos hop, h.texts]
    rw [htext, hop] at hread
    exact ⟨sent, hread⟩
  | close =>
    rw [hsame (by rw [hop]; decide), hop] at hread
    exact hread.trySend (.inr (.inl rfl)) (pongs_append_of_ne hread (by decide))
  | ping =>
    rw [hsame (by rw [hop]; decide), hop] at hread
    refine hread.trySend (f := pongFor f.payload) (.inr (.inr rfl)) ?_
    have hpong : (pongFor f.payload).opcode = .pong := rfl
    rw [payloads_concat, if_pos hpong, payloads_read, if_pos hop]
    exact h.pongs.append (List.Sublist.refl _)
  | _ =>
    rw [hsame (by rw [hop]; decide), hop] at hread
    exact ⟨sent, hread⟩

/-- What a step keeps. -/
theorem Step.inv (hstep : Step s s') (h : Inv input read sent s) :
    ∃ read' sent', Inv input read' sent' s' := by
  cases hstep with
  | @read frame rest events goOn hreading hread hhandle =>
    obtain ⟨f, hinput, rfl⟩ := readFrame_eq_ok_iff.mp hread
    rw [handle_frame, Except.ok.injEq, Prod.mk.injEq] at hhandle
    obtain ⟨rfl, rfl⟩ := hhandle
    obtain ⟨sent', hsent'⟩ := h.readFrame hreading hinput
    exact ⟨_, sent', hsent'⟩
  | stop hreading _ =>
    exact ⟨read, sent, { h with reading := fun hfalse => absurd hfalse Bool.false_ne_true }⟩
  | @goodbye close _ _ _ hclose hroom =>
    rw [encodeCloseFrame_ok, Except.ok.injEq] at hclose
    subst hclose
    have hpong : closeOk.opcode ≠ .pong := by decide
    have hinv := h.enqueue hroom (.inr (.inl rfl)) (pongs_append_of_ne h hpong)
    exact ⟨read, _, { hinv with }⟩
  | @forward body frame hframe =>
    have hlength : body.length ≤ usizeMax := by
      by_contra hlarge
      rw [usizeMax] at hlarge
      unfold encodeTextFrame encodeDataFrame at hframe
      rw [if_neg (by omega), if_neg (by omega), if_neg hlarge] at hframe
      exact error_ne_ok hframe
    rw [encodeTextFrame, encodeDataFrame_eq hlength, Except.ok.injEq] at hframe
    subst hframe
    have hpong : (⟨.text, body⟩ : Frame).opcode ≠ .pong := OpCode.noConfusion
    obtain ⟨sent', hsent'⟩ := h.trySend (f := ⟨.text, body⟩) (.inl rfl) (pongs_append_of_ne h hpong)
    exact ⟨read, sent', hsent'⟩
  | @write frame queue hwriting hqueue =>
    have hwhole := h.whole hwriting
    rw [hqueue, List.flatten_cons, ← List.append_assoc] at hwhole
    refine ⟨read, sent, { h with whole := fun _ => hwhole, wire := ⟨_, hwhole⟩, room := ?_ }⟩
    have hroom := h.room
    rw [hqueue] at hroom
    exact Nat.le_of_succ_le hroom
  | @broken frame part queue hwriting hqueue hpart =>
    have hwhole := h.whole hwriting
    rw [hqueue, List.flatten_cons] at hwhole
    refine ⟨read, sent, { h with
      whole := fun hfalse => absurd hfalse Bool.false_ne_true, wire := ?_, room := Nat.zero_le _ }⟩
    rw [← hwhole]
    exact (List.prefix_append_right_inj _).mpr (hpart.trans (List.prefix_append _ _))

/-- In whatever order the tasks run, the texts of the client go to the hub in their order, the
wire carries whole frames in the order in which they found room, and the pongs among them answer
pings in the order of the pings. -/
theorem run_inv (hrun : ReflTransGen Step (start input) s) :
    ∃ read sent, Inv input read sent s := by
  induction hrun with
  | refl => exact ⟨[], [], inv_start⟩
  | tail _ hstep ih =>
    obtain ⟨read, sent, h⟩ := ih
    exact hstep.inv h

/-- A ping of one byte that was read and answered. -/
theorem run_inv_ping :
    ∃ read sent, Inv [0x89, 0x81, 1, 2, 3, 4, 6] read sent
      { start [] with wire := [0x8A, 1, 7] } := by
  have hframe : readFrame [0x89, 0x81, 1, 2, 3, 4, 6] = .ok (⟨.ping, [7]⟩, []) := rfl
  have hhandle : handle ⟨.ping, [7]⟩ = .ok ([.offer [0x8A, 1, 7]], true) := rfl
  have hread : Step (start [0x89, 0x81, 1, 2, 3, 4, 6])
      { start [] with queue := [[0x8A, 1, 7]] } := .read rfl hframe hhandle
  have hwrite : Step { start [] with queue := [[0x8A, 1, 7]] }
      { start [] with wire := [0x8A, 1, 7] } := .write rfl rfl
  exact run_inv (.tail (.single hread) hwrite)

end Pump

end WebSocket

end HeliosLite
