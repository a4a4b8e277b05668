import HeliosLite.Domain.ResultStream
import Mathlib.Data.Prod.Lex
import Mathlib.Order.WellFounded

/-!
# Tool calls in the text of a reply

A model without tool support writes a call into its text, between two tags. The text is searched
after every chunk, from the first opening tag to the last closing tag.

## Main definitions

* `extractTagContent` — what is between the tags
* `ToolCallFull.tryFromXml` — the call that is read from it
* `CallElement` — an element of the text that can be read as a call
* `CutFree` — the call and the content do not depend on how the text is cut into chunks

## Main results

* `cutFree_iff` — this holds for the texts that end with the element that is read
-/

namespace HeliosLite

open Theory

/-! ### The tags -/

/-- What is between the first opening tag and the last closing tag. -/
def extractTagContent (text tagName : String) : Option String :=
  let openingTag := ("<" ++ tagName ++ ">").toList
  let closingTag := ("</" ++ tagName ++ ">").toList
  match splitFirst openingTag text.toList, splitLast closingTag text.toList with
  | some (before, _), some (upTo, _) =>
    let contentStart := before.length + openingTag.length
    let endIdx := upTo.length
    if contentStart < endIdx then
      some (trim (String.ofList ((text.toList.take endIdx).drop contentStart)))
    else none
  | _, _ => none

def openingTag : List Char := "<forge_tool_call>".toList

/-- A call is read from its JSON, which is repaired if it is not valid. -/
structure CallReader where
  fromStr : String → Option ToolCallFull
  jsonRepair : String → Option ToolCallFull

def CallReader.jsonRepairParse (reader : CallReader) (text : String) : Option ToolCallFull :=
  (reader.fromStr text).or (reader.jsonRepair text)

/-- The call in the text, with a new id. -/
def ToolCallFull.tryFromXml (reader : CallReader) (callId : String) (input : String) :
    Option ToolCallFull :=
  (extractTagContent input "forge_tool_call").bind fun content =>
    (reader.jsonRepairParse content).map fun call => { call with callId := some callId }

/-! ### Replies -/

def ToolCallFull.withoutId (call : ToolCallFull) : ToolCallFull := { call with callId := none }

/-- A chunk of the text. -/
def ChatCompletionMessage.chunk (text : String) : ChatCompletionMessage :=
  { ChatCompletionMessage.default with content := some (.part text) }

section Reply

variable [FloatText] [HashOrder] (reader : CallReader) (callId : String) (chunks : List String)

/-- The reply of a text in chunks. -/
def reply : Except (FullError Unit) ChatCompletionMessageFull :=
  intoFull (ToolCallFull.tryFromXml reader callId) true
    (chunks.map fun text => .ok (ChatCompletionMessage.chunk text))

/-- The calls, without their ids, and the content. -/
def observed : Except (FullError Unit) (List ToolCallFull × String) :=
  (reply reader callId chunks).map fun full =>
    (full.toolCalls.map ToolCallFull.withoutId, full.content)

/-- The calls of a reply, if there is one. -/
def callsOf : List ToolCallFull := ((observed reader callId chunks).toOption.map Prod.fst).getD []

end Reply

/-! ### Elements -/

section Elements

variable (reader : CallReader) (text : List Char)

/-- An element of the text that can be read as a call. -/
structure CallElement (before body after : List Char) : Prop where
  eq : text = before ++ openingTag ++ body ++ closingTag ++ after
  nonempty : body ≠ []
  readable : (reader.jsonRepairParse (trim (String.ofList body))).isSome

/-- The first such element: no other begins before it, or ends before it where it begins. -/
def FirstCallElement (before body after : List Char) : Prop :=
  CallElement reader text before body after ∧
    ∀ before' body' after', CallElement reader text before' body' after' →
      toLex (before.length, body.length) ≤ toLex (before'.length, body'.length)

/-- The reply does not depend on how the text is cut. Its call is that of the first element that can
be read, and has the arguments that are written there, if they are valid as they are written. -/
structure CutFree [FloatText] [HashOrder] : Prop where
  same : ∀ callId callId' chunks chunks', String.join chunks = String.ofList text →
    String.join chunks' = String.ofList text →
      observed reader callId chunks = observed reader callId' chunks'
  first : ∀ before body after, FirstCallElement reader text before body after →
    ∀ callId chunks, String.join chunks = String.ofList text → callsOf reader callId chunks =
      ((reader.jsonRepairParse (trim (String.ofList body))).map ToolCallFull.withoutId).toList
  written : ∀ before body after call, FirstAt openingTag text before →
    text = before ++ openingTag ++ body ++ closingTag ++ after → body ≠ [] →
      reader.fromStr (trim (String.ofList body)) = some call →
        ∀ callId chunks, String.join chunks = String.ofList text →
          ∀ returned ∈ callsOf reader callId chunks, returned.arguments = call.arguments

/-- Every element from the first opening tag that can be read ends the text, and there is one if any
element can be read. -/
def EndsWithCall : Prop :=
  (∀ before body after, CallElement reader text before body after → FirstAt openingTag text before →
    after = []) ∧
  ((∃ before body after, CallElement reader text before body after) →
    ∃ before body after, CallElement reader text before body after ∧ FirstAt openingTag text before)

variable {reader text}

/-! ### Reading -/

theorem closingTag_eq : ("</" ++ "forge_tool_call" ++ ">").toList = closingTag := by decide

theorem openingTag_eq : ("<" ++ "forge_tool_call" ++ ">").toList = openingTag := by decide

/-- The characters between two places. -/
theorem drop_take_body {before body rest : List Char}
    (h : text = before ++ openingTag ++ body ++ rest) :
    (text.take (before ++ openingTag ++ body).length).drop (before.length + openingTag.length) =
      body := by
  rw [h, List.take_left, ← List.length_append, List.drop_left]

/-- What is between the first opening tag and the last closing tag. -/
theorem extractTagContent_eq_some_iff {content : String} :
    extractTagContent (String.ofList text) "forge_tool_call" = some content ↔
      ∃ before body after, text = before ++ openingTag ++ body ++ closingTag ++ after ∧ body ≠ [] ∧
        FirstAt openingTag text before ∧ LastAt closingTag text (before ++ openingTag ++ body) ∧
          content = trim (String.ofList body) := by
  rw [extractTagContent, closingTag_eq, openingTag_eq, String.toList_ofList]
  constructor
  · intro h
    cases hfirst : splitFirst openingTag text with
    | none => simp [hfirst] at h
    | some first =>
      cases hlast : splitLast closingTag text with
      | none => simp [hfirst, hlast] at h
      | some last =>
        obtain ⟨before, rest⟩ := first
        obtain ⟨upTo, after⟩ := last
        obtain ⟨hfirst', -⟩ := splitFirst_eq_some_iff.mp hfirst
        obtain ⟨hlast', htext⟩ := splitLast_eq_some_iff.mp hlast
        simp only [hfirst, hlast] at h
        split_ifs at h with hlt
        -- the opening tag is before the closing one
        have hupTo : upTo <+: text := (List.prefix_append upTo closingTag).trans hlast'.1
        have hlength : (before ++ openingTag).length ≤ upTo.length := by
          rw [List.length_append]
          exact hlt.le
        obtain ⟨body, rfl⟩ := List.prefix_of_prefix_length_le hfirst'.1 hupTo hlength
        refine ⟨before, body, after, htext, ?_, hfirst', hlast', ?_⟩
        · rintro rfl
          simp at hlt
        · rw [← Option.some.inj h, drop_take_body (htext.trans (List.append_assoc ..))]
  · rintro ⟨before, body, after, htext, hbody, hfirst, hlast, rfl⟩
    have hfirst' : splitFirst openingTag text = some (before, body ++ closingTag ++ after) :=
      splitFirst_eq_some_iff.mpr ⟨hfirst, by rw [htext]; simp⟩
    have hlast' : splitLast closingTag text = some (before ++ openingTag ++ body, after) :=
      splitLast_eq_some_iff.mpr ⟨hlast, htext⟩
    have hpos : 0 < body.length := List.length_pos_iff.mpr hbody
    simp only [hfirst', hlast']
    rw [if_pos (by simp only [List.length_append]; omega),
      drop_take_body (htext.trans (List.append_assoc ..))]

theorem withoutId_tryFromXml {callId : String} :
    (ToolCallFull.tryFromXml reader callId (String.ofList text)).map ToolCallFull.withoutId =
      (extractTagContent (String.ofList text) "forge_tool_call").bind fun content =>
        (reader.jsonRepairParse content).map ToolCallFull.withoutId := by
  rw [ToolCallFull.tryFromXml]
  cases extractTagContent (String.ofList text) "forge_tool_call" with
  | none => rfl
  | some content =>
    rw [Option.bind_some, Option.bind_some, Option.map_map]
    rfl

/-- A prefix of the text that can be read has an element that can be read, from the first opening
tag on. -/
theorem reads_of_initial {callId : String} {call : ToolCallFull} {initial : List Char}
    (hinitial : initial <+: text)
    (hcall : ToolCallFull.tryFromXml reader callId (String.ofList initial) = some call) :
    ∃ before body after rest, CallElement reader text before body after ∧
      FirstAt openingTag text before ∧ rest <+: after ∧
        initial = before ++ openingTag ++ body ++ closingTag ++ rest := by
  obtain ⟨content, hcontent, hparse⟩ := Option.bind_eq_some_iff.mp hcall
  obtain ⟨before, body, rest, hinit, hbody, hfirst, -, rfl⟩ :=
    extractTagContent_eq_some_iff.mp hcontent
  obtain ⟨later, rfl⟩ := hinitial
  refine ⟨before, body, rest ++ later, rest, ⟨?_, hbody, ?_⟩, hfirst.extend ⟨later, rfl⟩,
    List.prefix_append _ _, hinit⟩
  · rw [hinit, List.append_assoc]
  · obtain ⟨call', hcall', -⟩ := Option.map_eq_some_iff.mp hparse
    rw [hcall']
    rfl

/-- A prefix is read as the element that ends it. -/
theorem tryFromXml_of_reads {before body after rest : List Char} {callId : String}
    (h : CallElement reader text before body after) (hfirst : FirstAt openingTag text before)
    (hrest : rest <+: after)
    (hlast : LastAt closingTag (before ++ openingTag ++ body ++ closingTag ++ rest)
      (before ++ openingTag ++ body)) :
    ToolCallFull.tryFromXml reader callId
        (String.ofList (before ++ openingTag ++ body ++ closingTag ++ rest)) =
      (reader.jsonRepairParse (trim (String.ofList body))).map fun call =>
        { call with callId := some callId } := by
  have hinitial : before ++ openingTag ++ body ++ closingTag ++ rest <+: text := by
    rw [h.eq]
    exact (List.prefix_append_right_inj _).mpr hrest
  have hmem : before ++ openingTag <+: before ++ openingTag ++ body ++ closingTag ++ rest := by
    rw [List.append_assoc, List.append_assoc (before ++ openingTag)]
    exact List.prefix_append _ _
  have hcontent := extractTagContent_eq_some_iff.mpr
    ⟨before, body, rest, rfl, h.nonempty, hfirst.restrict hinitial hmem, hlast, rfl⟩
  rw [ToolCallFull.tryFromXml, hcontent, Option.bind_some]

/-! ### The content -/

/-- What ends with a character that is not removed keeps it. -/
theorem suffix_dropWhile {p : Char → Bool} {c : Char} (hc : p c = false) (l m : List Char) :
    c :: m <:+ (l ++ c :: m).dropWhile p := by
  induction l with
  | nil => simp [hc]
  | cons a l ih =>
    rw [List.cons_append, List.dropWhile_cons]
    split_ifs
    · exact ih
    · exact (List.suffix_append l _).trans (List.suffix_cons a _)

theorem closingTag_suffix_trim (before : List Char) :
    closingTag <:+ (trim (String.ofList (before ++ closingTag))).toList := by
  rw [trim, String.toList_ofList, String.toList_ofList]
  obtain ⟨initial, hinitial⟩ :=
    suffix_dropWhile (p := isWhitespace) (c := '<') (by decide) before closingTag.tail
  have hcons : '<' :: closingTag.tail = closingTag := by decide
  have hlast : closingTag = closingTag.dropLast ++ ['>'] := by decide
  rw [hcons] at hinitial
  rw [← hinitial, hlast, ← List.append_assoc, List.rdropWhile_concat_neg]
  · exact ⟨initial, (List.append_assoc ..).symm⟩
  · decide

/-- A text that ends with a call is kept. -/
theorem interruptedContent_of_closingTag (before : List Char) :
    interruptedContent (String.ofList (before ++ closingTag)) =
      String.ofList (before ++ closingTag) :=
  if_pos (closingTag_suffix_trim before)

/-- The tag does not overlap itself. -/
theorem closingTag_drop_ne (c : Char) : closingTag.drop 1 ++ [c] ≠ closingTag := by
  intro h
  have hhead : some '/' = some '<' := congrArg List.head? h
  exact absurd hhead (by decide)

theorem length_append_pos {s u : String} (h : 0 < u.length) : 0 < (s ++ u).length := by
  rw [String.length_append]
  exact Nat.add_pos_right _ h

theorem length_feedback_pos : 0 < feedback.length := length_append_pos (by decide)

/-- A text in which something follows the call is not cut to the call. -/
theorem interruptedContent_ne (before : List Char) (c : Char) :
    interruptedContent (String.ofList (before ++ closingTag ++ [c])) ≠
      String.ofList (before ++ closingTag) := by
  intro heq
  rw [interruptedContent] at heq
  split_ifs at heq
  · have hlength := congrArg String.length heq
    simp at hlength
  · have hsplit : splitLast closingTag (String.ofList (before ++ closingTag ++ [c])).toList =
        some (before, [c]) := by
      rw [String.toList_ofList, splitLast_eq_some_iff]
      exact ⟨lastAt_append_singleton before c (by decide) (closingTag_drop_ne c), rfl⟩
    rw [hsplit] at heq
    have hlength := congrArg String.length heq
    rw [String.length_append] at hlength
    exact length_feedback_pos.ne' (Nat.add_eq_left.mp hlength)

/-! ### Chunks -/

section Chunks

variable (tryFromXml : String → Option ToolCallFull)

/-- The first call that is read after a chunk, and the chunks up to it. -/
def firstCall (before : List String) : List String → Option (ToolCallFull × List String)
  | [] => none
  | chunk :: chunks =>
    match tryFromXml (String.join (before ++ [chunk])) with
    | some call => some (call, before ++ [chunk])
    | none => firstCall (before ++ [chunk]) chunks

/-- The variables of the loop while no call was read. -/
def collecting (before : List String) : FullState :=
  { FullState.start with
    messages := before.map ChatCompletionMessage.chunk
    content := String.join before }

/-- The variables of the loop once a call was read. -/
def interrupted (call : ToolCallFull) (before : List String) : FullState :=
  { collecting before with
    xmlToolCalls := some call
    toolInterrupted := true }

variable {tryFromXml} [FloatText]

theorem foldl_interrupted (call : ToolCallFull) (before chunks : List String) :
    (chunks.map ChatCompletionMessage.chunk).foldl (FullState.step tryFromXml true)
      (interrupted call before) = interrupted call before := by
  induction chunks with
  | nil => rfl
  | cons chunk chunks ih => exact ih

/-- The loop stops at the first call. -/
theorem foldl_chunks (before chunks : List String) :
    (chunks.map ChatCompletionMessage.chunk).foldl (FullState.step tryFromXml true)
        (collecting before) =
      match firstCall tryFromXml before chunks with
      | some (call, upTo) => interrupted call upTo
      | none => collecting (before ++ chunks) := by
  induction chunks generalizing before with
  | nil => rw [List.append_nil]; rfl
  | cons chunk chunks ih =>
    have hjoin : String.join (before ++ [chunk]) = String.join before ++ chunk := by simp
    have hmessages : (before ++ [chunk]).map ChatCompletionMessage.chunk =
        before.map ChatCompletionMessage.chunk ++ [ChatCompletionMessage.chunk chunk] :=
      List.map_append
    have hstep : (collecting before).step tryFromXml true (ChatCompletionMessage.chunk chunk) =
        match tryFromXml (String.join (before ++ [chunk])) with
        | some call => interrupted call (before ++ [chunk])
        | none => collecting (before ++ [chunk]) := by
      simp only [interrupted, collecting, hmessages, hjoin]
      rfl
    rw [List.map_cons, List.foldl_cons, hstep, firstCall]
    cases tryFromXml (String.join (before ++ [chunk])) with
    | some call => exact foldl_interrupted call _ chunks
    | none =>
      dsimp only
      rw [ih, List.append_assoc, List.singleton_append]

omit [FloatText] in
/-- What is read is a prefix of the text, and all of it is tried. -/
theorem of_firstCall {before chunks upTo : List String} {call : ToolCallFull}
    (h : firstCall tryFromXml before chunks = some (call, upTo)) :
    tryFromXml (String.join upTo) = some call ∧
      (String.join upTo).toList <+: (String.join (before ++ chunks)).toList := by
  induction chunks generalizing before with
  | nil => cases h
  | cons chunk chunks ih =>
    have happend : before ++ chunk :: chunks = before ++ [chunk] ++ chunks := by simp
    rw [firstCall] at h
    rw [happend]
    cases hcall : tryFromXml (String.join (before ++ [chunk])) with
    | some call' =>
      rw [hcall] at h
      obtain ⟨rfl, rfl⟩ := Prod.mk.inj (Option.some.inj h)
      refine ⟨hcall, ?_⟩
      rw [@String.join_append (before ++ [chunk]), String.toList_append]
      exact List.prefix_append _ _
    | none =>
      rw [hcall] at h
      exact ih h

omit [FloatText] in
theorem tryFromXml_of_firstCall {before chunks : List String} (hchunks : chunks ≠ [])
    (h : firstCall tryFromXml before chunks = none) :
    tryFromXml (String.join (before ++ chunks)) = none := by
  induction chunks generalizing before with
  | nil => exact absurd rfl hchunks
  | cons chunk chunks ih =>
    have happend : before ++ chunk :: chunks = before ++ [chunk] ++ chunks := by simp
    rw [firstCall] at h
    cases hcall : tryFromXml (String.join (before ++ [chunk])) with
    | some call =>
      rw [hcall] at h
      cases h
    | none =>
      rw [hcall] at h
      cases chunks with
      | nil => exact hcall
      | cons next chunks =>
        rw [happend]
        exact ih (List.cons_ne_nil _ _) h

end Chunks

theorem contents_chunks (texts : List String) :
    ((texts.map ChatCompletionMessage.chunk).filterMap ChatCompletionMessage.content).map
      Content.asStr = texts := by
  induction texts with
  | nil => rfl
  | cons text texts ih => exact congrArg (text :: ·) ih

theorem toolCalls_chunks (texts : List String) :
    (texts.map ChatCompletionMessage.chunk).flatMap ChatCompletionMessage.toolCalls = [] := by
  induction texts with
  | nil => rfl
  | cons text texts ih => exact ih

section Reply

variable [FloatText] [HashOrder]

omit [FloatText] [HashOrder] in
/-- Chunks have nothing but their text. -/
theorem lastOf_chunks {α : Type} {s : FullState} {texts : List String}
    (hmessages : s.messages = texts.map ChatCompletionMessage.chunk)
    {f : ChatCompletionMessage → Option α} (hf : ∀ text, f (.chunk text) = none) :
    s.lastOf f = none := by
  rw [FullState.lastOf, List.findSome?_eq_none_iff, hmessages]
  intro message hmem
  obtain ⟨text, -, rfl⟩ := List.mem_map.mp (List.mem_reverse.mp hmem)
  exact hf text

/-- What is observed of a text without a call. -/
def observedText (text : String) : Except (FullError Unit) (List ToolCallFull × String) :=
  if (trim text).isEmpty then .error .emptyCompletion else .ok ([], text)

omit [FloatText] [HashOrder] in
theorem callsOf_observedText (text : String) :
    ((observedText text).toOption.map Prod.fst).getD [] = [] := by
  rw [observedText]
  split_ifs
  · rfl
  · rfl

omit [FloatText] in
theorem toolCalls_full {s : FullState} {texts : List String}
    (hmessages : s.messages = texts.map ChatCompletionMessage.chunk) :
    s.full.toolCalls = s.xmlToolCalls.toList := by
  rw [FullState.full, hmessages]
  dsimp only
  rw [toolCalls_chunks]
  rfl

omit [FloatText] in
theorem content_full {s : FullState} {texts : List String}
    (hmessages : s.messages = texts.map ChatCompletionMessage.chunk) :
    s.full.content =
      if s.toolInterrupted then interruptedContent (String.join texts) else String.join texts := by
  rw [FullState.full, hmessages]
  dsimp only
  rw [contents_chunks]

omit [FloatText] in
theorem finish_collecting (texts : List String) :
    ((collecting texts).finish (ε := Unit)).map (fun full =>
      (full.toolCalls.map ToolCallFull.withoutId, full.content)) =
        observedText (String.join texts) := by
  have hreason : (collecting texts).full.finishReason = none :=
    lastOf_chunks rfl fun _ => rfl
  have hsignature : (collecting texts).full.thoughtSignature = none :=
    lastOf_chunks rfl fun _ => rfl
  have hcalls : (collecting texts).full.toolCalls = [] := toolCalls_full rfl
  have hcontent : (collecting texts).full.content = String.join texts := content_full rfl
  rw [FullState.finish, observedText, hreason, hsignature, hcalls, hcontent,
    if_neg (fun h => nomatch h.1)]
  by_cases hempty : (trim (String.join texts)).isEmpty
  · rw [if_pos ⟨hempty, rfl, rfl, rfl⟩, if_pos hempty]
    rfl
  · rw [if_neg (fun h => hempty h.1), if_neg hempty, ← hcontent]
    exact congrArg Except.ok (Prod.ext (congrArg (List.map ToolCallFull.withoutId) hcalls) rfl)

omit [FloatText] in
theorem finish_interrupted (call : ToolCallFull) (texts : List String) :
    ((interrupted call texts).finish (ε := Unit)).map (fun full =>
      (full.toolCalls.map ToolCallFull.withoutId, full.content)) =
        .ok ([call.withoutId], interruptedContent (String.join texts)) := by
  have hmessages : (interrupted call texts).messages =
      texts.map ChatCompletionMessage.chunk := rfl
  have hcalls : (interrupted call texts).full.toolCalls = [call] := toolCalls_full hmessages
  have hcontent : (interrupted call texts).full.content =
      interruptedContent (String.join texts) := by
    rw [content_full hmessages]
    exact if_pos rfl
  have hne : (interrupted call texts).full.toolCalls ≠ [] := by
    rw [hcalls]
    exact List.cons_ne_nil _ _
  rw [FullState.finish, if_neg (fun h => hne h.2), if_neg (fun h => hne h.2.1), ← hcontent]
  exact congrArg Except.ok (Prod.ext (congrArg (List.map ToolCallFull.withoutId) hcalls) rfl)

/-- The reply ends with the first call, if there is one. -/
theorem observed_eq (callId : String) (chunks : List String) :
    observed reader callId chunks =
      match firstCall (ToolCallFull.tryFromXml reader callId) [] chunks with
      | some (call, upTo) => .ok ([call.withoutId], interruptedContent (String.join upTo))
      | none => observedText (String.join chunks) := by
  have hstart : collecting [] = FullState.start := rfl
  have hmap : (chunks.map fun text =>
      (.ok (ChatCompletionMessage.chunk text) : Except Unit ChatCompletionMessage)) =
        (chunks.map ChatCompletionMessage.chunk).map fun message => .ok message := by
    rw [List.map_map]
    rfl
  rw [observed, reply, intoFull, hmap, mapM_ok]
  dsimp only
  rw [← hstart, foldl_chunks, List.nil_append]
  cases firstCall (ToolCallFull.tryFromXml reader callId) [] chunks with
  | none => exact finish_collecting chunks
  | some result => exact finish_interrupted result.1 result.2

/-- The calls of a reply are its first call. -/
theorem callsOf_eq (callId : String) (chunks : List String) :
    callsOf reader callId chunks =
      ((firstCall (ToolCallFull.tryFromXml reader callId) [] chunks).map fun found =>
        found.1.withoutId).toList := by
  rw [callsOf, observed_eq]
  cases firstCall (ToolCallFull.tryFromXml reader callId) [] chunks with
  | none => exact callsOf_observedText _
  | some found => rfl

/-! ### Cuts -/

omit [FloatText] [HashOrder] in
/-- A text is tried as a whole if no call was read before. -/
theorem tryFromXml_of_join {callId : String} {chunks : List String}
    (hjoin : String.join chunks = String.ofList text)
    (hnone : firstCall (ToolCallFull.tryFromXml reader callId) [] chunks = none) :
    ToolCallFull.tryFromXml reader callId (String.ofList text) = none := by
  cases chunks with
  | nil =>
    -- there is no tag in the empty text
    obtain rfl : text = [] := by
      rw [← String.toList_ofList (l := text), ← hjoin]
      rfl
    rfl
  | cons chunk chunks =>
    rw [← hjoin]
    exact tryFromXml_of_firstCall (List.cons_ne_nil _ _) hnone

/-- If an element from the first opening tag can only be read at the end, every cut gives the same
reply. -/
theorem observed_of_ends
    (hends : ∀ before body after, CallElement reader text before body after →
      FirstAt openingTag text before → after = [])
    {callId : String} {chunks : List String} (hjoin : String.join chunks = String.ofList text) :
    observed reader callId chunks =
      match (extractTagContent (String.ofList text) "forge_tool_call").bind fun content =>
          (reader.jsonRepairParse content).map ToolCallFull.withoutId with
      | some call => .ok ([call], String.ofList text)
      | none => observedText (String.ofList text) := by
  rw [observed_eq, ← @withoutId_tryFromXml _ _ callId]
  cases hfirst : firstCall (ToolCallFull.tryFromXml reader callId) [] chunks with
  | none =>
    rw [tryFromXml_of_join hjoin hfirst, hjoin]
    rfl
  | some result =>
    obtain ⟨call, upTo⟩ := result
    obtain ⟨hcall, hinitial⟩ := of_firstCall hfirst
    rw [List.nil_append, hjoin, String.toList_ofList] at hinitial
    rw [← String.ofList_toList (s := String.join upTo)] at hcall
    obtain ⟨before, body, after, rest, hreads, hopens, hrest, hinitial⟩ :=
      reads_of_initial hinitial hcall
    obtain rfl := hends before body after hreads hopens
    obtain rfl := List.prefix_nil.mp hrest
    -- the call is read from the whole text
    have hwhole : (String.join upTo).toList = text := hinitial.trans hreads.eq.symm
    have hcontent : interruptedContent (String.join upTo) = String.ofList text := by
      rw [← String.ofList_toList (s := String.join upTo), hwhole, hreads.eq, List.append_nil]
      exact interruptedContent_of_closingTag _
    rw [hwhole] at hcall
    rw [hcall]
    dsimp only
    rw [hcontent]
    rfl

omit [HashOrder] [FloatText] in
theorem join_singleton (text : String) : String.join [text] = text := by simp

omit [HashOrder] [FloatText] in
theorem firstCall_singleton {tryFromXml : String → Option ToolCallFull} {chunk : String}
    {call : ToolCallFull} (h : tryFromXml chunk = some call) (chunks : List String) :
    firstCall tryFromXml [] (chunk :: chunks) = some (call, [chunk]) := by
  have hjoin : String.join ([] ++ [chunk]) = chunk := join_singleton chunk
  rw [firstCall, hjoin, h]
  rfl

/-- If an element from the first opening tag can be read before the end, two cuts differ. -/
theorem after_eq_nil (h : CutFree reader text) {before body after : List Char}
    (hreads : CallElement reader text before body after) (hopens : FirstAt openingTag text before) :
    after = [] := by
  cases after with
  | nil => rfl
  | cons c after =>
    exfalso
    obtain ⟨call, hcall⟩ := Option.isSome_iff_exists.mp hreads.readable
    -- the text is cut after the element, or after the next character
    have hobserved (rest later : List Char) (hrest : rest ++ later = c :: after)
        (hlast : LastAt closingTag (before ++ openingTag ++ body ++ closingTag ++ rest)
          (before ++ openingTag ++ body)) :
        let first := String.ofList (before ++ openingTag ++ body ++ closingTag ++ rest)
        String.join [first, String.ofList later] = String.ofList text ∧
          observed reader "" [first, String.ofList later] =
            .ok ([call.withoutId], interruptedContent first) := by
      intro first
      constructor
      · rw [hreads.eq, ← hrest]
        simp [first, String.append_assoc]
      · have hread := @tryFromXml_of_reads _ _ _ _ _ rest "" hreads hopens ⟨later, hrest⟩ hlast
        rw [hcall, Option.map_some] at hread
        rw [observed_eq, firstCall_singleton hread]
        dsimp only
        rw [join_singleton]
        rfl
    have hwhole : LastAt closingTag (before ++ openingTag ++ body ++ closingTag ++ [])
        (before ++ openingTag ++ body) := by
      rw [List.append_nil]
      exact lastAt_append _ _
    obtain ⟨hjoin, hcut⟩ := hobserved [] (c :: after) rfl hwhole
    obtain ⟨hjoin', hcut'⟩ := hobserved [c] after rfl
      (lastAt_append_singleton _ c (by decide) (closingTag_drop_ne c))
    have hsame := h.same "" "" _ _ hjoin hjoin'
    rw [hcut, hcut'] at hsame
    have hcontent := congrArg Prod.snd (Except.ok.inj hsame)
    dsimp only at hcontent
    rw [List.append_nil, interruptedContent_of_closingTag] at hcontent
    exact interruptedContent_ne _ c hcontent.symm

omit [FloatText] [HashOrder] in
/-- There is a first element if there is one. -/
theorem exists_firstCallElement
    (h : ∃ before body after, CallElement reader text before body after) :
    ∃ before body after, FirstCallElement reader text before body after := by
  obtain ⟨before, body, after, hreads⟩ := h
  let places : Set (ℕ ×ₗ ℕ) := fun place => ∃ before body after,
    CallElement reader text before body after ∧ place = toLex (before.length, body.length)
  obtain ⟨_, ⟨before, body, after, hreads, rfl⟩, hmin⟩ :=
    wellFounded_lt.has_min places ⟨_, before, body, after, hreads, rfl⟩
  refine ⟨before, body, after, hreads, ?_⟩
  intro before' body' after' hreads'
  exact not_lt.mp (hmin _ ⟨before', body', after', hreads', rfl⟩)

omit [FloatText] [HashOrder] in
/-- The first element begins with the first opening tag if some element there can be read. -/
theorem FirstCallElement.firstAt {before body after before' body' after' : List Char}
    (h : FirstCallElement reader text before body after)
    (hreads : CallElement reader text before' body' after')
    (hopens : FirstAt openingTag text before') :
    FirstAt openingTag text before := by
  have hle : before.length ≤ before'.length := by
    rcases Prod.Lex.toLex_le_toLex.mp (h.2 _ _ _ hreads) with hlt | ⟨heq, -⟩
    · exact hlt.le
    · exact heq.le
  have hmem : before ++ openingTag <+: text := by
    rw [h.1.eq, List.append_assoc, List.append_assoc (before ++ openingTag)]
    exact List.prefix_append _ _
  exact ⟨hmem, fun other hother => hle.trans (hopens.2 other hother)⟩

/-- The call of the element that ends the text. -/
theorem callsOf_of_ends {before body : List Char}
    (hends : ∀ before body after, CallElement reader text before body after →
      FirstAt openingTag text before → after = [])
    (hreads : CallElement reader text before body []) (hopens : FirstAt openingTag text before)
    {callId : String} {chunks : List String} (hjoin : String.join chunks = String.ofList text) :
    callsOf reader callId chunks =
      ((reader.jsonRepairParse (trim (String.ofList body))).map
        ToolCallFull.withoutId).toList := by
  have hlast : LastAt closingTag text (before ++ openingTag ++ body) := by
    rw [hreads.eq, List.append_nil]
    exact lastAt_append _ _
  have hcontent := extractTagContent_eq_some_iff.mpr
    ⟨before, body, [], hreads.eq, hreads.nonempty, hopens, hlast, rfl⟩
  obtain ⟨call, hcall⟩ := Option.isSome_iff_exists.mp hreads.readable
  rw [callsOf, observed_of_ends hends hjoin, hcontent, Option.bind_some, hcall]
  rfl

end Reply

end Elements

/-- The reply does not depend on how the text is cut exactly if the element that is read ends the
text. -/
theorem cutFree_iff [FloatText] [HashOrder] (reader : CallReader) (text : List Char) :
    CutFree reader text ↔ EndsWithCall reader text := by
  constructor
  · intro h
    refine ⟨fun _ _ _ hreads hopens => after_eq_nil h hreads hopens, ?_⟩
    intro hexists
    obtain ⟨before, body, after, hfirst⟩ := exists_firstCallElement hexists
    obtain ⟨call, hcall⟩ := Option.isSome_iff_exists.mp hfirst.1.readable
    have hcalls := h.first before body after hfirst "" [String.ofList text] (join_singleton _)
    -- a call is returned, so one is read from the text as a whole
    cases hread : ToolCallFull.tryFromXml reader "" (String.ofList text) with
    | none =>
      have hnone : firstCall (ToolCallFull.tryFromXml reader "") [] [String.ofList text] =
          none := by
        have hjoin : String.join ([] ++ [String.ofList text]) = String.ofList text :=
          join_singleton _
        rw [firstCall, hjoin, hread]
        rfl
      rw [callsOf, observed_eq, hnone, join_singleton, callsOf_observedText, hcall] at hcalls
      cases hcalls
    | some call' =>
      obtain ⟨before', body', after', -, hreads, hopens, -⟩ :=
        reads_of_initial List.prefix_rfl hread
      exact ⟨before', body', after', hreads, hopens⟩
  · rintro ⟨hends, hexists⟩
    refine ⟨?_, ?_, ?_⟩
    · intro callId callId' chunks chunks' hjoin hjoin'
      rw [observed_of_ends hends hjoin, observed_of_ends hends hjoin']
    · intro before body after hfirst callId chunks hjoin
      obtain ⟨before', body', after', hreads, hopens⟩ := hexists ⟨before, body, after, hfirst.1⟩
      have hopens := hfirst.firstAt hreads hopens
      obtain rfl := hends before body after hfirst.1 hopens
      exact callsOf_of_ends hends hfirst.1 hopens hjoin
    · intro before body after call hopens htext hbody hcall callId chunks hjoin returned hreturned
      have hparse : reader.jsonRepairParse (trim (String.ofList body)) = some call := by
        rw [CallReader.jsonRepairParse, hcall, Option.some_or]
      have hreads : CallElement reader text before body after :=
        ⟨htext, hbody, by rw [hparse]; rfl⟩
      obtain rfl := hends before body after hreads hopens
      rw [callsOf_of_ends hends hreads hopens hjoin, hparse] at hreturned
      obtain rfl := List.mem_singleton.mp hreturned
      rfl

/-! ### A tag in an argument -/

namespace TagInArgument

open Serde

local instance floats : FloatText where
  parseF64 _ := none
  add a _ := a

local instance hashOrder : HashOrder where
  order entries := entries
  perm := HashOrder.perm_self

/-- The body up to the tag in the argument, and the whole body. -/
def cutBody : String :=
  "\x7b\"name\":\"write\",\"arguments\":\x7b\"content\":\"a"

def wholeBody : String := cutBody ++ "</forge_tool_call>b\"\x7d\x7d"

def call (content : String) : ToolCallFull where
  name := "write"
  callId := none
  arguments := .parsed (Json.obj [("content", .str content)]).value
  thoughtSignature := none

/-- Valid JSON is read as it is; a quotation mark and braces that are missing are added. -/
def reader : CallReader where
  fromStr text := if text = wholeBody then some (call "a</forge_tool_call>b") else none
  jsonRepair text := if text = cutBody then some (call "a") else none

/-- The text up to the tag in the argument, and the rest. -/
def first : String := "<forge_tool_call>" ++ cutBody ++ "</forge_tool_call>"

def second : String := "b\"\x7d\x7d</forge_tool_call>"

/-- A chunk that ends with the tag in the argument cuts the argument off. -/
theorem not_cutFree :
    callsOf reader "" [first ++ second] = [call "a</forge_tool_call>b"] ∧
      callsOf reader "" [first, second] = [call "a"] ∧
      ¬ CutFree reader (first ++ second).toList := by
  have hwhole : callsOf reader "" [first ++ second] = [call "a</forge_tool_call>b"] := by
    rw [callsOf_eq]
    decide +kernel
  have hcut : callsOf reader "" [first, second] = [call "a"] := by
    rw [callsOf_eq]
    decide +kernel
  refine ⟨hwhole, hcut, ?_⟩
  intro h
  have hsame := h.same "" "" [first ++ second] [first, second]
    (by simp [String.ofList_toList]) (by simp [String.ofList_toList])
  rw [callsOf, hsame, ← callsOf, hcut] at hwhole
  revert hwhole
  decide +kernel

end TagInArgument

end HeliosLite
