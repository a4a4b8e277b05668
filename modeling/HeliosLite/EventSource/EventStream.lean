import HeliosLite.EventSource.Utf8Stream
import Mathlib.Algebra.Ring.Nat

/-!
# The events of a stream

`crates/forge_eventsource_stream/src/event_stream.rs`: the text that has arrived is kept in
a buffer, whole lines are taken off it and go to a builder, and an empty line dispatches
the event that has been built.

## Main definitions

* `EventBuilder.add`, `EventBuilder.dispatch` — the event that is being built
* `parseEvent` — the lines of the buffer up to the next event
* `EventStream.pollNext` — the next item of the stream
* `EventStream.collect` — all items, for a number of polls
-/

namespace HeliosLite.EventSource

open Theory

structure Event where
  event : String := ""
  data : String := ""
  id : String := ""
  /-- In milliseconds. -/
  retry : Option ℕ := none
deriving DecidableEq

/-- `str::parse::<u64>`. -/
def parseU64 (val : List Char) : Option ℕ :=
  let digits := match val with
    | '+' :: digits => digits
    | _ => val
  if digits = [] ∨ ¬ digits.all Char.isDigit then none
  else
    let n := digits.foldl (fun n c => 10 * n + (c.toNat - '0'.toNat)) 0
    if n < 2 ^ 64 then some n else none

structure EventBuilder where
  event : Event := {}
  isComplete : Bool := false
deriving DecidableEq

namespace EventBuilder

def add (this : EventBuilder) : RawEventLine → EventBuilder
  | .field field val =>
    let val := val.getD []
    match String.ofList field with
    | "event" => { this with event := { this.event with event := String.ofList val } }
    | "data" =>
      { this with
        event := { this.event with data := this.event.data ++ String.ofList val ++ "\n" } }
    | "id" =>
      if '\x00' ∈ val then this
      else { this with event := { this.event with id := String.ofList val } }
    | "retry" =>
      match parseU64 val with
      | some millis => { this with event := { this.event with retry := some millis } }
      | none => this
    | _ => this
  | .comment _ => this
  | .empty => { this with isComplete := true }

/-- The builder that is left keeps the id; an event without data is dropped. -/
def dispatch (this : EventBuilder) : EventBuilder × Option Event :=
  let event := this.event
  let left : EventBuilder := { event := { id := event.id } }
  if event.data = "" then (left, none)
  else
    let event :=
      if event.data.toList.getLast?.any isLf then
        { event with data := String.ofList event.data.toList.dropLast }
      else event
    let event := if event.event = "" then { event with event := "message" } else event
    (left, some event)

end EventBuilder

/-- Maximum number of bytes in the line buffer, 1 MiB. -/
def maxEventBuffer : ℕ := 1024 * 1024

/-- The length of a text in bytes. -/
def len (text : List Char) : ℕ := (String.ofList text).utf8ByteSize

/-- `string.strip_prefix(is_bom).unwrap_or(&string)`. -/
def stripBom : List Char → List Char
  | c :: rest => if isBom c then rest else c :: rest
  | [] => []

section Parse

variable [Nom]

/-- The loop of `parse_event`: lines are taken until an event is dispatched or the rest of the
buffer is no whole line. -/
def parseLines (buffer : List Char) (builder : EventBuilder) :
    List Char × EventBuilder × Except Nom.Error (Option Event) :=
  match _h : line buffer with
  | .ok rest nextLine =>
    let builder := builder.add nextLine
    if builder.isComplete then
      match builder.dispatch with
      | (builder, some event) => (rest, builder, .ok (some event))
      | (builder, none) => parseLines rest builder
    else parseLines rest builder
  | .incomplete => (buffer, builder, .ok none)
  | .error err => (buffer, builder, .error err)
termination_by buffer.length
decreasing_by all_goals exact consumes_line _ _ _ _h

def parseEvent (buffer : List Char) (builder : EventBuilder) :
    List Char × EventBuilder × Except Nom.Error (Option Event) :=
  if buffer = [] then (buffer, builder, .ok none) else parseLines buffer builder

inductive EventStreamError (ε : Type) where
  | utf8 (bytes : ByteArray)
  | parser (err : Nom.Error)
  | transport (e : ε)

def EventStreamError.ofUtf8 {ε : Type} : Utf8StreamError ε → EventStreamError ε
  | .utf8 bytes => .utf8 bytes
  | .transport e => .transport e

inductive EventStreamState where
  | notStarted
  | started
  | terminated
deriving DecidableEq

end Parse

structure EventStream (ε : Type) where
  stream : Utf8Stream ε
  buffer : List Char := []
  builder : EventBuilder := {}
  state : EventStreamState := .notStarted
  lastEventId : String := ""

namespace EventStream

variable {ε : Type}

abbrev Item [Nom] (ε : Type) := Except (EventStreamError ε) Event

variable [Nom]

def new (stream : List (Poll (Except ε ByteArray))) : EventStream ε :=
  { stream := Utf8Stream.new stream }

/-- The events of the buffer that are already complete. -/
def parse (this : EventStream ε) : EventStream ε × Option (Item ε) :=
  match parseEvent this.buffer this.builder with
  | (buffer, builder, .ok (some event)) =>
    ({ this with buffer, builder, lastEventId := event.id }, some (.ok event))
  | (buffer, builder, .error err) => ({ this with buffer, builder }, some (.error (.parser err)))
  | (buffer, builder, .ok none) => ({ this with buffer, builder }, none)

/-- A piece of text that is not empty; a byte order mark is dropped from the first one. -/
def receive (this : EventStream ε) (string : String) : EventStream ε × Option (Item ε) :=
  let slice := if this.state = .started then string.toList else stripBom string.toList
  let this := { this with state := .started }
  if len this.buffer + len slice > maxEventBuffer then
    ({ this with buffer := [] },
      some (.error (.parser (Nom.tooLarge "event buffer exceeded MAX_EVENT_BUFFER"))))
  else parse { this with buffer := this.buffer ++ slice }

theorem parse_stream (this : EventStream ε) : this.parse.1.stream = this.stream := by
  rw [parse]
  split <;> rfl

theorem receive_stream (this : EventStream ε) (string : String) :
    (this.receive string).1.stream = this.stream := by
  rw [receive]
  dsimp only
  split_ifs
  · rfl
  · rw [parse_stream]
  · rfl
  · rw [parse_stream]

/-- The loop of `poll_next`: pieces of text are asked for until there is an item. -/
def pollStream (this : EventStream ε) : EventStream ε × Poll (Option (Item ε)) :=
  match _h : this.stream.pollNext with
  | (stream, .ready (some (.ok string))) =>
    if string = "" then pollStream { this with stream }
    else
      match _hnext : receive { this with stream } string with
      | (next, some item) => (next, .ready (some item))
      | (next, none) => pollStream next
  | (stream, .ready (some (.error err))) =>
    ({ this with stream }, .ready (some (.error (.ofUtf8 err))))
  | (stream, .ready none) => ({ this with stream, state := .terminated }, .ready none)
  | (stream, .pending) => ({ this with stream }, .pending)
termination_by this.stream.remaining
decreasing_by
  · exact Utf8Stream.remaining_lt _h
  · have hstream := congrArg (fun r => r.1.stream) _hnext
    rw [receive_stream] at hstream
    exact hstream ▸ Utf8Stream.remaining_lt _h

def pollNext (this : EventStream ε) : EventStream ε × Poll (Option (Item ε)) :=
  match this.parse with
  | (this, some item) => (this, .ready (some item))
  | (this, none) =>
    if this.state = .terminated then (this, .ready none) else pollStream this

/-- What a consumer gets that asks until the stream ends; nothing when that takes more polls. -/
def collect : ℕ → EventStream ε → Option (List (Item ε))
  | 0, _ => none
  | n + 1, this =>
    match this.pollNext with
    | (_, .ready none) => some []
    | (this, .ready (some item)) => (collect n this).map (item :: ·)
    | (this, .pending) => collect n this

end EventStream

end HeliosLite.EventSource
