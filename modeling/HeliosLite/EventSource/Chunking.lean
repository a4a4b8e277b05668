import HeliosLite.EventSource.EventStream
import HeliosLite.Theory.Fuel

/-!
# Events do not depend on the chunks

The bytes of a text may come in any chunks, with any waiting in between, and the stream
gives the events of the text.

## Main definitions

* `events` — the events of a text, all at once
* `EventStream.Yields` — the events that a stream still owes

## Main results

* `EventStream.pollNext_gave` — a poll gives the next of the events that are owed
* `EventStream.collect_splits` — two splits of the same bytes give the same events
-/

namespace HeliosLite.EventSource

open Theory

/-- What a line does to the builder and to the events so far. -/
def advance (s : EventBuilder × List Event) (nextLine : RawEventLine) :
    EventBuilder × List Event :=
  let builder := s.1.add nextLine
  if builder.isComplete then (builder.dispatch.1, s.2 ++ builder.dispatch.2.toList)
  else (builder, s.2)

theorem advance_append (b : EventBuilder) (before : List Event) (l : RawEventLine) :
    advance (b, before) l = ((advance (b, []) l).1, before ++ (advance (b, []) l).2) := by
  simp only [advance]
  split_ifs
  · rw [List.nil_append]
  · rw [List.append_nil]

theorem len_append (a b : List Char) : len (a ++ b) = len a + len b := by
  rw [len, len, len, String.ofList_append, String.utf8ByteSize_append]

theorem len_le_of_suffix {rest buffer : List Char} (h : rest <:+ buffer) :
    len rest ≤ len buffer := by
  obtain ⟨front, rfl⟩ := h
  rw [len_append]
  exact Nat.le_add_left _ _

theorem stripBom_append {c : Char} (front rest : List Char) :
    stripBom (c :: front ++ rest) = stripBom (c :: front) ++ rest := by
  rw [List.cons_append, stripBom, stripBom]
  split_ifs <;> rfl

theorem len_stripBom_le (text : List Char) : len (stripBom text) ≤ len text := by
  cases text with
  | nil => exact Nat.le_refl _
  | cons c text =>
    rw [stripBom]
    split_ifs
    · exact len_le_of_suffix (List.suffix_cons _ _)
    · exact Nat.le_refl _

section Chunks

variable [Nom]

/-- The events of a text that is there as a whole. -/
def events (builder : EventBuilder) (text : List Char) : List Event :=
  (runs line advance (builder, []) text).1.2

variable {builder : EventBuilder} {buffer rest text : List Char}

theorem line_nil : line ([] : List Char) = .incomplete := by
  cases h : line ([] : List Char) with
  | ok rest l => exact absurd (consumes_line _ _ _ h) (Nat.not_lt_zero _)
  | error e => exact absurd h (line_ne_error _ e)
  | incomplete => rfl

/-- Events that were there before stay in front. -/
theorem runs_advance_append (b : EventBuilder) (before : List Event) (text : List Char) :
    (runs line advance (b, before) text).1.2 = before ++ events b text := by
  induction hn : text.length using Nat.strong_induction_on generalizing b before text with
  | _ n ih =>
    cases h : line text with
    | ok rest l =>
      have hlt := consumes_line _ _ _ h
      rw [events, runs_of_ok consumes_line h, runs_of_ok consumes_line h, advance_append,
        ih rest.length (hn ▸ hlt) _ _ _ rfl, ih rest.length (hn ▸ hlt) _ _ _ rfl,
        List.append_assoc]
    | error e => exact absurd h (line_ne_error _ e)
    | incomplete =>
      rw [events, runs_of_incomplete h, runs_of_incomplete h, List.append_nil]

theorem events_of_incomplete (h : line text = .incomplete) : events builder text = [] := by
  rw [events, runs_of_incomplete h]

/-- The events from a line on. -/
theorem events_of_line {l : RawEventLine} (h : line text = .ok rest l) :
    events builder text =
      (advance (builder, []) l).2 ++ events (advance (builder, []) l).1 rest := by
  rw [events, runs_of_ok consumes_line h, ← runs_advance_append]

/-- The events of a text that comes in two parts. -/
theorem events_of_line_append {l : RawEventLine} (h : line buffer = .ok rest l)
    (more : List Char) :
    events builder (buffer ++ more) =
      (advance (builder, []) l).2 ++ events (advance (builder, []) l).1 (rest ++ more) :=
  events_of_line (streams_line.ok_append h more)

/-- What the lines of a buffer give. -/
inductive Parsed (builder : EventBuilder) (buffer : List Char) :
    List Char × EventBuilder × Except Nom.Error (Option Event) → Prop where
  | event (rest : List Char) (left : EventBuilder) (event : Event) :
    rest <:+ buffer → rest.length < buffer.length →
    (∀ more, events builder (buffer ++ more) = event :: events left (rest ++ more)) →
    Parsed builder buffer (rest, left, .ok (some event))
  | wait (rest : List Char) (left : EventBuilder) :
    rest <:+ buffer → line rest = .incomplete →
    (∀ more, events builder (buffer ++ more) = events left (rest ++ more)) →
    Parsed builder buffer (rest, left, .ok none)

theorem Parsed.of_line {left : EventBuilder} {l : RawEventLine}
    {r : List Char × EventBuilder × Except Nom.Error (Option Event)}
    (h : line buffer = .ok rest l) (hadvance : advance (builder, []) l = (left, []))
    (hr : Parsed left rest r) : Parsed builder buffer r := by
  have hevents : ∀ more, events builder (buffer ++ more) = events left (rest ++ more) := by
    intro more
    rw [events_of_line_append h, hadvance]
    rfl
  have hsuffix := streams_line.suffix h
  cases hr with
  | event rest' left' event hrest hlt hall =>
    exact .event rest' left' event (hrest.trans hsuffix) (hlt.trans (consumes_line _ _ _ h))
      fun more => (hevents more).trans (hall more)
  | wait rest' left' hrest hline hall =>
    exact .wait rest' left' (hrest.trans hsuffix) hline
      fun more => (hevents more).trans (hall more)

theorem parseLines_parsed (buffer : List Char) (builder : EventBuilder) :
    Parsed builder buffer (parseLines buffer builder) := by
  fun_induction parseLines buffer builder with
  | case1 buffer builder rest l h builder' hcomplete left event hdispatch =>
    apply Parsed.event rest left event (streams_line.suffix h) (consumes_line _ _ _ h)
    intro more
    have hadvance : advance (builder, []) l = (left, [event]) := by
      simp only [advance]
      rw [if_pos hcomplete, hdispatch]
      rfl
    rw [events_of_line_append h, hadvance]
    rfl
  | case2 buffer builder rest l h builder' hcomplete left hdispatch ih =>
    apply Parsed.of_line h _ ih
    simp only [advance]
    rw [if_pos hcomplete, hdispatch]
    rfl
  | case3 buffer builder rest l h builder' hcomplete ih =>
    apply Parsed.of_line h _ ih
    simp only [advance]
    rw [if_neg hcomplete]
  | case4 buffer builder h =>
    exact .wait buffer builder List.suffix_rfl h fun _ => rfl
  | case5 buffer builder err h => exact absurd h (line_ne_error _ err)

theorem parseEvent_parsed (buffer : List Char) (builder : EventBuilder) :
    Parsed builder buffer (parseEvent buffer builder) := by
  rw [parseEvent]
  split_ifs with hempty
  · subst hempty
    exact .wait [] builder List.suffix_rfl line_nil fun _ => rfl
  · exact parseLines_parsed buffer builder

namespace EventStream

variable {ε : Type} {this : EventStream ε} {owed : List Event}

/-- What will have come into the buffer behind what is there. -/
def coming (this : EventStream ε) (text : List Char) : List Char :=
  if this.state = .started then text else stripBom text

/-- The events that a stream still owes. -/
structure Yields (this : EventStream ε) (text : List Char) (owed : List Event) : Prop where
  not_terminated : this.state ≠ .terminated
  holds : this.stream.Holds text
  room : len this.buffer + len text ≤ maxEventBuffer
  events_eq : owed = events this.builder (this.buffer ++ this.coming text)
  /-- Nothing has been taken before the first text. -/
  fresh : this.state = .started ∨ this.buffer = []

/-- The lines that are in the buffer. -/
inductive Took (this : EventStream ε) (text : List Char) (owed : List Event) :
    EventStream ε × Option (Item ε) → Prop where
  | item (next : EventStream ε) (event : Event) (rest : List Event) :
    owed = event :: rest → next.Yields text rest → next.stream = this.stream →
    next.buffer.length < this.buffer.length → Took this text owed (next, some (.ok event))
  | wait (next : EventStream ε) : next.Yields text owed → next.stream = this.stream →
    next.buffer.length ≤ this.buffer.length → line next.buffer = .incomplete →
      Took this text owed (next, none)

theorem parse_took (h : this.Yields text owed) : Took this text owed this.parse := by
  have hparsed := parseEvent_parsed this.buffer this.builder
  rw [parse]
  cases hr : parseEvent this.buffer this.builder with
  | mk buffer r =>
    obtain ⟨builder, r⟩ := r
    rw [hr] at hparsed
    cases hparsed with
    | event _ _ event hsuffix hlt hall =>
      have hevents := hall (this.coming text)
      have hroom := h.room
      have hlen := len_le_of_suffix hsuffix
      refine .item _ event _ (h.events_eq.trans hevents) ⟨h.not_terminated, h.holds, ?_, rfl, ?_⟩
        rfl hlt
      · exact (Nat.add_le_add_right hlen _).trans hroom
      · refine h.fresh.imp_right fun hnil => ?_
        rw [hnil] at hlt
        exact absurd hlt (Nat.not_lt_zero _)
    | wait _ _ hsuffix hline hall =>
      have hevents := hall (this.coming text)
      have hroom := h.room
      have hlen := len_le_of_suffix hsuffix
      refine .wait _ ⟨h.not_terminated, h.holds, ?_, h.events_eq.trans hevents, ?_⟩ rfl
        hsuffix.length_le hline
      · exact (Nat.add_le_add_right hlen _).trans hroom
      · refine h.fresh.imp_right fun hnil => ?_
        rw [hnil] at hsuffix
        exact List.suffix_nil.mp hsuffix

/-- A piece of the text goes to the buffer. -/
theorem receive_took {string : String} {stream : Utf8Stream ε} (hne : string ≠ "")
    (h : this.Yields (string.toList ++ text) owed) (hholds : stream.Holds text) :
    ∃ filled : EventStream ε, filled.stream = stream ∧
      Took filled text owed (receive { this with stream } string) := by
  set slice := if this.state = .started then string.toList else stripBom string.toList
    with hslice
  refine ⟨{ this with stream, state := .started, buffer := this.buffer ++ slice }, rfl, ?_⟩
  have hlen : len slice ≤ len string.toList := by
    rw [hslice]
    split_ifs
    · exact Nat.le_refl _
    · exact len_stripBom_le _
  have hroom := h.room
  rw [len_append] at hroom
  have hreceive : receive { this with stream } string =
      parse { this with stream, state := .started, buffer := this.buffer ++ slice } := by
    rw [receive]
    dsimp only
    rw [← hslice, if_neg (by omega)]
  rw [hreceive]
  apply parse_took
  refine ⟨fun hstate => (by cases hstate), hholds, ?_, ?_, Or.inl rfl⟩
  · dsimp only
    rw [len_append]
    omega
  · rw [h.events_eq]
    dsimp only [coming]
    rw [if_pos rfl, List.append_assoc]
    congr 2
    have hchars : string.toList ≠ [] := by
      intro hnil
      exact hne (String.toList_eq_nil_iff.mp hnil)
    obtain ⟨c, front, hcons⟩ := List.exists_cons_of_ne_nil hchars
    rw [hslice]
    split_ifs
    · rfl
    · rw [hcons, stripBom_append]

/-- What a poll gives while events are owed. -/
inductive Gave (this : EventStream ε) (owed : List Event) :
    EventStream ε × Poll (Option (Item ε)) → Prop where
  | item (next : EventStream ε) (event : Event) (text : List Char) (rest : List Event) :
    owed = event :: rest → next.Yields text rest →
    Prod.Lex (· < ·) (· < ·) (next.stream.remaining, next.buffer.length)
      (this.stream.remaining, this.buffer.length) →
    Gave this owed (next, .ready (some (.ok event)))
  | wait (next : EventStream ε) (text : List Char) : next.Yields text owed →
    next.stream.remaining < this.stream.remaining → Gave this owed (next, .pending)
  | ended (next : EventStream ε) : owed = [] → Gave this owed (next, .ready none)

theorem Gave.of_earlier {next : EventStream ε} {r : EventStream ε × Poll (Option (Item ε))}
    (h : Gave next owed r) (hlt : next.stream.remaining < this.stream.remaining) :
    Gave this owed r := by
  cases h with
  | item last event text rest howed hyields hless =>
    refine .item last event text rest howed hyields (Prod.Lex.left _ _ ?_)
    rcases Prod.lex_def.mp hless with hless | ⟨heq, _⟩
    · exact hless.trans hlt
    · exact heq.trans_lt hlt
  | wait last text hyields hless => exact .wait last text hyields (hless.trans hlt)
  | ended last howed => exact .ended last howed

theorem Gave.of_shorter {next : EventStream ε} {r : EventStream ε × Poll (Option (Item ε))}
    (h : Gave next owed r) (hstream : next.stream = this.stream)
    (hle : next.buffer.length ≤ this.buffer.length) : Gave this owed r := by
  cases h with
  | item last event text rest howed hyields hless =>
    refine .item last event text rest howed hyields ?_
    rw [hstream] at hless
    rcases Prod.lex_def.mp hless with hless | ⟨heq, hless⟩
    · exact Prod.lex_def.mpr (Or.inl hless)
    · exact Prod.lex_def.mpr (Or.inr ⟨heq, hless.trans_le hle⟩)
  | wait last text hyields hless => exact .wait last text hyields (hstream ▸ hless)
  | ended last howed => exact .ended last howed

/-- With no whole line in the buffer, the loop goes on to the next event. -/
theorem pollStream_gave (h : this.Yields text owed) (hline : line this.buffer = .incomplete) :
    Gave this owed this.pollStream := by
  fun_induction pollStream this generalizing text with
  | case1 this stream hpoll ih =>
    have hpolled := Utf8Stream.pollNext_holds h.holds
    rw [hpoll] at hpolled
    cases hpolled with
    | text _ _ rest htext hholds hlt =>
      rw [String.toList_empty, List.nil_append] at htext
      subst htext
      exact (ih ⟨h.not_terminated, hholds, h.room, h.events_eq, h.fresh⟩ hline).of_earlier hlt
  | case2 this stream string hpoll hne next item hreceive =>
    have hpolled := Utf8Stream.pollNext_holds h.holds
    rw [hpoll] at hpolled
    cases hpolled with
    | text _ _ rest htext hholds hlt =>
      subst htext
      obtain ⟨filled, rfl, htook⟩ := receive_took hne h hholds
      rw [hreceive] at htook
      cases htook with
      | item _ event owed' howed hyields hstream _ =>
        exact .item next event rest owed' howed hyields
          (Prod.Lex.left _ _ (hstream ▸ hlt))
  | case3 this stream string hpoll hne next hreceive ih =>
    have hpolled := Utf8Stream.pollNext_holds h.holds
    rw [hpoll] at hpolled
    cases hpolled with
    | text _ _ rest htext hholds hlt =>
      subst htext
      obtain ⟨filled, rfl, htook⟩ := receive_took hne h hholds
      rw [hreceive] at htook
      cases htook with
      | wait _ hyields hstream _ hwait => exact (ih hyields hwait).of_earlier (hstream ▸ hlt)
  | case4 this stream err hpoll =>
    have hpolled := Utf8Stream.pollNext_holds h.holds
    rw [hpoll] at hpolled
    cases hpolled
  | case5 this stream hpoll =>
    have hpolled := Utf8Stream.pollNext_holds h.holds
    rw [hpoll] at hpolled
    cases hpolled with
    | ended _ htext =>
      apply Gave.ended
      have hcoming : this.coming text = [] := by
        subst htext
        rw [coming]
        split_ifs <;> rfl
      rw [h.events_eq, hcoming, List.append_nil]
      exact events_of_incomplete hline
  | case6 this stream hpoll =>
    have hpolled := Utf8Stream.pollNext_holds h.holds
    rw [hpoll] at hpolled
    cases hpolled with
    | pending _ hholds hlt =>
      exact .wait _ text ⟨h.not_terminated, hholds, h.room, h.events_eq, h.fresh⟩ hlt

/-- A poll gives the next of the events that are owed. -/
theorem pollNext_gave (h : this.Yields text owed) : Gave this owed this.pollNext := by
  have htook := parse_took h
  rw [pollNext]
  cases hparse : this.parse with
  | mk next item =>
    rw [hparse] at htook
    cases htook with
    | item _ event rest howed hyields hstream hlt =>
      exact .item next event text rest howed hyields (hstream ▸ Prod.Lex.right _ hlt)
    | wait _ hyields hstream hle hline =>
      dsimp only
      rw [if_neg hyields.not_terminated]
      exact (pollStream_gave hyields hline).of_shorter hstream hle

/-- Whoever asks on and on gets what is owed. -/
theorem Yields.collect_computes {this : EventStream ε} {text : List Char} {owed : List Event}
    (h : this.Yields text owed) :
    Computes (fun n => this.collect n) (owed.map .ok) := by
  apply Computes.succ _ rfl
  have hgave := pollNext_gave h
  simp only [collect]
  cases hpoll : this.pollNext with
  | mk next poll =>
    rw [hpoll] at hgave
    cases hgave with
    | item _ event text rest howed hyields hlex =>
      subst howed
      exact (Yields.collect_computes hyields).map rfl rfl
    | wait _ text hyields hlt => exact Yields.collect_computes hyields
    | ended _ howed =>
      subst howed
      exact computes_const
termination_by (this.stream.remaining, this.buffer.length)
decreasing_by
  · exact hlex
  · exact Prod.Lex.left _ _ hlt

theorem new_yields {stream : List (Poll (Except ε ByteArray))} (h : Splits stream text.utf8Encode)
    (hroom : text.utf8Encode.size ≤ maxEventBuffer) :
    (new stream).Yields text (events {} (stripBom text)) where
  not_terminated := nofun
  holds := ⟨_, h, ByteArray.empty_append⟩
  room := by
    have hlen : len text = text.utf8Encode.size := by
      rw [len, String.utf8ByteSize, String.toByteArray_ofList]
    exact (Nat.zero_add _).trans_le (hlen ▸ hroom)
  events_eq := rfl
  fresh := Or.inr rfl

/-- However the bytes of a text within the limit are split, and however long the reader has to
wait in between, the stream ends with the same events, and without an error. -/
theorem collect_splits (bytes : ByteArray) (hvalid : bytes.IsValidUTF8)
    (hroom : bytes.size ≤ maxEventBuffer) {stream stream' : List (Poll (Except ε ByteArray))}
    (h : Splits stream bytes) (h' : Splits stream' bytes) :
    ∃ events : List Event,
      Computes (fun n => (new stream).collect n) (events.map .ok) ∧
      Computes (fun n => (new stream').collect n) (events.map .ok) := by
  obtain ⟨text, rfl⟩ := hvalid
  exact ⟨_, (new_yields h hroom).collect_computes, (new_yields h' hroom).collect_computes⟩

end EventStream

end Chunks

/-- A field with an accented letter, cut within the letter and within the end of the line. -/
theorem EventStream.collect_splits_cut :
    let front : ByteArray := [0x64, 0x61, 0x74, 0x61, 0x3A, 0xC3].toByteArray
    let middle : ByteArray := [0xA9, 0x0D].toByteArray
    let back : ByteArray := [0x0A, 0x0D, 0x0A].toByteArray
    let cut : List (Poll (Except Unit ByteArray)) :=
      [.ready (.ok front), .pending, .ready (.ok middle), .ready (.ok back)]
    let whole : List (Poll (Except Unit ByteArray)) := [.ready (.ok (front ++ (middle ++ back)))]
    ∃ events : List Event,
      Computes (fun n => @collect Unit Nom.reference n (.new cut)) (events.map .ok) ∧
      Computes (fun n => @collect Unit Nom.reference n (.new whole)) (events.map .ok) := by
  intro front middle back cut whole
  have htext : front ++ (middle ++ back) = "data:é\r\n\r\n".toList.utf8Encode := by
    rw [String.utf8Encode_toList]
    rfl
  have hsize : (front ++ (middle ++ back)).size ≤ maxEventBuffer := by
    rw [ByteArray.size_append, ByteArray.size_append]
    decide
  have hcut : Splits cut (front ++ (middle ++ back)) := by
    rw [← @ByteArray.append_empty back]
    exact .chunk front (.pending (.chunk middle (.chunk back .nil)))
  have hwhole : Splits whole (front ++ (middle ++ back)) := by
    rw [← @ByteArray.append_empty (front ++ (middle ++ back))]
    exact .chunk _ .nil
  exact @collect_splits Nom.reference Unit _ ⟨_, htext⟩ hsize _ _ hcut hwhole

end HeliosLite.EventSource
