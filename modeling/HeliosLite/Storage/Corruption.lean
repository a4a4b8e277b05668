import HeliosLite.Storage.ReloadContext
import HeliosLite.Storage.Reference

/-!
# Messages with stray keys

A stored message is an object with one key, which names its variant. Keys that were injected
around it are dropped before the message is read: the first variant key in the order of their
declaration that has a valid payload is kept, and only that one. So a context is read back from
its text, whatever was injected, as long as nothing that was injected is such a key itself.

## Main definitions

* `ContextMessageValueRecord.Injected` — extra keys around a variant, none of which is a valid
  variant that is declared before it
* `ContextMessageRecord.Stored` — the forms in which a message may be stored: wrapped or on its
  own, with extra keys

## Main results

* `lookup_toValueFields` — what stands under a key of an object in memory
* `dropStrayKeys_eq_singleton`, `dropStrayKeys_amid` — the real variant is what is left
* `ContextMessageRecord.Stored.deserialize_reparsed` — a message is read back from each form
* `read_stored_context` — a context is read back from all forms of its messages
-/

namespace Serde.Json

/-! ### Keys of an object in memory -/

/-- The last of equal keys stands in the object in memory. -/
theorem lookup_toValueFields (key : String) (fields acc : List (String × Json)) :
    (toValueFields fields acc).lookup key =
      ((fields.reverse.lookup key).map toValue).or (acc.lookup key) := by
  induction fields generalizing acc with
  | nil => simp [toValueFields]
  | cons p fields ih =>
    obtain ⟨k, v⟩ := p
    rw [toValueFields, ih, StringMap.lookup_insertField, List.reverse_cons, List.lookup_append,
      StringMap.lookup_cons_ite]
    cases fields.reverse.lookup key with
    | some w => rfl
    | none => split_ifs <;> rfl

/-- Where no key is repeated, one key selects one field. -/
theorem filter_key_of_lookup {fields : List (String × Json)}
    (hnodup : (fields.map Prod.fst).Nodup) {key : String} {value : Json}
    (h : fields.lookup key = some value) :
    fields.filter (fun p => p.1 == key) = [(key, value)] := by
  obtain ⟨front, back, rfl⟩ :=
    List.append_of_mem ((StringMap.lookup_eq_some_iff hnodup).mp h)
  rw [List.map_append, List.map_cons, List.nodup_middle, List.nodup_cons, ← List.map_append]
    at hnodup
  have hother : ∀ p ∈ front ++ back, ¬ (p.1 == key) = true := by
    intro p hp heq
    exact hnodup.1 (List.mem_map.mpr ⟨p, hp, beq_iff_eq.mp heq⟩)
  rw [List.filter_append, List.filter_cons_of_pos (by simp),
    List.filter_eq_nil_iff.mpr fun p hp => hother p (List.mem_append_left _ hp),
    List.filter_eq_nil_iff.mpr fun p hp => hother p (List.mem_append_right _ hp)]
  rfl

/-- A list is read item by item. -/
theorem listOf_forall₂ {α β : Type*} {decode : Json → Option β} {f : α → β} {xs : List α}
    {vs : List Json} (h : List.Forall₂ (fun x v => decode v = some (f x)) xs vs) :
    listOf decode (.arr vs) = some (xs.map f) := by
  rw [listOf]
  induction h with
  | nil => rfl
  | cons hread _ ih =>
    rw [List.mapM_cons, hread, ih]
    rfl

section Reloaded

variable [JsonText]

/-- The fields of an object, read into memory. -/
def reloadedFields (fields : List (String × Json)) : List (String × Json) :=
  toValueFields (fields.map fun p => (p.1, p.2.reparsed)) []

theorem reloaded_obj (fields : List (String × Json)) :
    (Json.obj fields).reloaded = .obj (reloadedFields fields) := by
  rw [reloaded, reparsed, mapFloat, mapFloatFields_eq_map]
  rfl

theorem nodup_reloadedFields (fields : List (String × Json)) :
    ((reloadedFields fields).map Prod.fst).Nodup :=
  (sortedKeys_toValueFields sortedKeys_nil).imp fun h => ne_of_lt h

theorem lookup_reloadedFields (key : String) (fields : List (String × Json)) :
    (reloadedFields fields).lookup key = (fields.reverse.lookup key).map reloaded := by
  have hmap : ∀ l : List (String × Json),
      (l.map fun p => (p.1, p.2.reparsed)).lookup key = (l.lookup key).map reparsed := by
    intro l
    induction l with
    | nil => rfl
    | cons p l ih =>
      obtain ⟨k, v⟩ := p
      rw [List.map_cons, StringMap.lookup_cons_ite, StringMap.lookup_cons_ite, ih]
      split_ifs <;> rfl
  rw [reloadedFields, lookup_toValueFields, ← List.map_reverse, hmap, Option.map_map]
  exact Option.or_none

end Reloaded

end Serde.Json

namespace HeliosLite

open Serde Serde.Json

/-! ### The variant that is kept -/

theorem cleanWrapped_cases (p : String × Json) :
    cleanWrapped p = p ∨ ∃ msg, p = ("message", .obj msg) := by
  fun_cases cleanWrapped p with
  | case1 msg => exact Or.inr ⟨msg, rfl⟩
  | case2 => exact Or.inl rfl

/-- Cleaning a wrapped message leaves what stands under the other keys. -/
theorem lookup_map_cleanWrapped {key : String} (hkey : key ≠ "message")
    (fields : List (String × Json)) :
    (fields.map cleanWrapped).lookup key = fields.lookup key := by
  induction fields with
  | nil => rfl
  | cons p fields ih =>
    rw [List.map_cons]
    rcases cleanWrapped_cases p with heq | ⟨msg, rfl⟩
    · rw [heq, List.lookup_cons, List.lookup_cons, ih]
    · rw [cleanWrapped, StringMap.lookup_cons_ite, StringMap.lookup_cons_ite, if_neg hkey,
        if_neg hkey, ih]

theorem keys_map_cleanWrapped (fields : List (String × Json)) :
    (fields.map cleanWrapped).map Prod.fst = fields.map Prod.fst := by
  rw [List.map_map]
  apply List.map_congr_left
  intro p _
  rcases cleanWrapped_cases p with heq | ⟨msg, rfl⟩
  · exact congrArg Prod.fst heq
  · rfl

/-- The first valid variant is all that is kept. -/
theorem dropStrayKeys_eq_singleton {fields : List (String × Json)}
    (hnodup : (fields.map Prod.fst).Nodup) {key : String} (hkey : key ∈ messageVariantKeys)
    {value : Json} (hlookup : fields.lookup key = some value)
    (hvalid : isValidVariant (some value) key = true)
    (hbefore : ∀ other, messageVariantKeys.idxOf other < messageVariantKeys.idxOf key →
      isValidVariant (fields.lookup other) other = false) :
    dropStrayKeys fields = [(key, value)] := by
  have hfirst : messageVariantKeys.find? (fun k => isValidVariant (fields.lookup k) k)
      = some key := by
    obtain ⟨before, after, hsplit, hnotMem⟩ := List.eq_append_cons_of_mem hkey
    apply List.find?_eq_some_iff_append.mpr
    refine ⟨by rw [hlookup, hvalid], before, after, hsplit, ?_⟩
    intro other hother
    rw [hbefore other, Bool.not_false]
    rw [hsplit, List.idxOf_append_of_mem hother, List.idxOf_append_of_notMem hnotMem,
      List.idxOf_cons_self, Nat.add_zero]
    exact List.idxOf_lt_length_of_mem hother
  rw [dropStrayKeys, hfirst]
  exact filter_key_of_lookup hnodup hlookup

variable [Libraries]

namespace ContextMessageValueRecord

/-- The key of the variant. -/
def tag : ContextMessageValueRecord → String
  | .text _ => "text"
  | .tool _ => "tool"
  | .image _ => "image"

/-- What stands under the key of the variant. -/
def payload : ContextMessageValueRecord → Json
  | .text message => message.serialize
  | .tool result => result.serialize
  | .image img => img.serialize

/-- The JSON of the message with extra keys in front of the variant and behind it. -/
def serializeAmid (r : ContextMessageValueRecord) (front back : List (String × Json)) : Json :=
  .obj (front ++ (r.tag, r.payload) :: back)

/-- No extra key overwrites the variant, and none is a valid variant declared before it. -/
structure Injected (r : ContextMessageValueRecord) (front back : List (String × Json)) : Prop where
  kept : ∀ p ∈ back, p.1 ≠ r.tag
  invalid : ∀ p ∈ front ++ back,
    messageVariantKeys.idxOf p.1 < messageVariantKeys.idxOf r.tag →
      isValidVariant (some p.2.reloaded) p.1 = false

omit [Libraries] in
/-- Without extra keys it is the JSON of the message. -/
theorem serializeAmid_nil (r : ContextMessageValueRecord) :
    r.serializeAmid [] [] = r.serialize := by
  cases r <;> rfl

theorem injected_nil (r : ContextMessageValueRecord) : r.Injected [] [] :=
  ⟨by simp, by simp⟩

omit [Libraries] in
theorem tag_mem (r : ContextMessageValueRecord) : r.tag ∈ messageVariantKeys := by
  cases r <;> exact of_decide_eq_true rfl

theorem reloaded_serialize (r : ContextMessageValueRecord) :
    r.serialize.reloaded = .obj [(r.tag, r.payload.reloaded)] := by
  cases r <;> exact reloaded_record _

/-- What was written for the variant is a valid payload. -/
theorem isValidVariant_payload (r : ContextMessageValueRecord) (h : r.RawContentReads) :
    isValidVariant (some r.payload.reloaded) r.tag = true := by
  have hreads := r.deserialize_reloaded h
  obtain ⟨fields, hpayload⟩ : ∃ fields, r.payload.reloaded = .obj fields := by
    cases r <;> exact ⟨_, reloaded_record _⟩
  rw [r.reloaded_serialize, hpayload] at hreads
  rw [hpayload]
  cases fields with
  | nil =>
    -- each payload has a field that must be there
    cases r <;> cases hreads
  | cons p fields => rw [isValidVariant, hreads, Option.isSome_some]

/-- What stands under the key of a variant declared before the real one was injected. -/
theorem Injected.not_valid_before {r : ContextMessageValueRecord}
    {front back : List (String × Json)} (h : r.Injected front back) {other : String}
    (hbefore : messageVariantKeys.idxOf other < messageVariantKeys.idxOf r.tag) :
    isValidVariant ((reloadedFields (front ++ (r.tag, r.payload) :: back)).lookup other) other
      = false := by
  rw [lookup_reloadedFields]
  cases hlookup : (front ++ (r.tag, r.payload) :: back).reverse.lookup other with
  | none => rfl
  | some v =>
    obtain ⟨later, earlier, hsplit, -⟩ := List.lookup_eq_some_iff.mp hlookup
    have hmem : (other, v) ∈ front ++ (r.tag, r.payload) :: back := by
      rw [← List.mem_reverse, hsplit]
      exact List.mem_append_right _ List.mem_cons_self
    have hne : (other, v) ≠ (r.tag, r.payload) := by
      intro heq
      obtain rfl : other = r.tag := congrArg Prod.fst heq
      exact lt_irrefl _ hbefore
    apply h.invalid (other, v) _ hbefore
    rcases List.mem_append.mp hmem with hfront | hback
    · exact List.mem_append_left _ hfront
    · exact List.mem_append_right _ ((List.mem_cons.mp hback).resolve_left hne)

theorem Injected.lookup_tag {r : ContextMessageValueRecord} {front back : List (String × Json)}
    (h : r.Injected front back) :
    (reloadedFields (front ++ (r.tag, r.payload) :: back)).lookup r.tag
      = some r.payload.reloaded := by
  have hback : back.reverse.lookup r.tag = none := by
    apply List.lookup_eq_none_iff.mpr
    intro p hp
    exact bne_iff_ne.mpr (h.kept p (List.mem_reverse.mp hp)).symm
  rw [lookup_reloadedFields, List.reverse_append, List.reverse_cons, List.append_assoc,
    List.lookup_append, hback, Option.none_or, List.singleton_append, List.lookup_cons_self]
  rfl

/-- Of a message amid injected keys only the variant is left. -/
theorem Injected.dropStrayKeys_amid {r : ContextMessageValueRecord}
    {front back : List (String × Json)} (h : r.Injected front back) (hraw : r.RawContentReads) :
    dropStrayKeys (reloadedFields (front ++ (r.tag, r.payload) :: back))
      = [(r.tag, r.payload.reloaded)] :=
  dropStrayKeys_eq_singleton (nodup_reloadedFields _) r.tag_mem h.lookup_tag
    (r.isValidVariant_payload hraw) fun _ hbefore => h.not_valid_before hbefore

/-- On its own the message loses the injected keys just so. -/
theorem Injected.dropStrayKeys_cleanWrapped {r : ContextMessageValueRecord}
    {front back : List (String × Json)} (h : r.Injected front back) (hraw : r.RawContentReads) :
    dropStrayKeys ((reloadedFields (front ++ (r.tag, r.payload) :: back)).map cleanWrapped)
      = [(r.tag, r.payload.reloaded)] := by
  have hlookup : ∀ key ∈ messageVariantKeys,
      ((reloadedFields (front ++ (r.tag, r.payload) :: back)).map cleanWrapped).lookup key
        = (reloadedFields (front ++ (r.tag, r.payload) :: back)).lookup key := by
    intro key hkey
    apply lookup_map_cleanWrapped
    rintro rfl
    exact absurd hkey (by decide)
  apply dropStrayKeys_eq_singleton _ r.tag_mem _ (r.isValidVariant_payload hraw)
  · intro other hbefore
    rw [hlookup other, h.not_valid_before hbefore]
    exact List.idxOf_lt_length_iff.mp (hbefore.trans_le List.idxOf_le_length)
  · rw [keys_map_cleanWrapped]
    exact nodup_reloadedFields _
  · rw [hlookup _ r.tag_mem, h.lookup_tag]

end ContextMessageValueRecord

namespace ContextMessageRecord

/-- The forms in which a message may be stored: in a wrapper with its usage or, when it has
none, on its own. Around the variant there may be extra keys. -/
inductive Stored : ContextMessageRecord → Json → Prop
  | wrapped {message : ContextMessageValueRecord} (usage : Option Usage)
      {front back : List (String × Json)} (h : message.Injected front back) :
      Stored ⟨message, usage⟩
        (record [("message", some (message.serializeAmid front back)),
          ("usage", usage.map Usage.serialize)])
  | direct {message : ContextMessageValueRecord} {front back : List (String × Json)}
      (h : message.Injected front back) :
      Stored ⟨message, none⟩ (message.serializeAmid front back)

/-- The form in which a message is written. -/
theorem stored_serialize (r : ContextMessageRecord) : r.Stored r.serialize := by
  have hstored := Stored.wrapped r.usage r.message.injected_nil
  rwa [ContextMessageValueRecord.serializeAmid_nil] at hstored

theorem deserializeWrapper_of_variant (message : ContextMessageValueRecord) (payload : Json) :
    deserializeWrapper (.obj [(message.tag, payload)]) = none := by
  cases message <;> rfl

/-- A message is read back from each of its forms. -/
theorem Stored.deserialize_reparsed {r : ContextMessageRecord} {v : Json} (h : r.Stored v)
    (hraw : r.message.RawContentReads) : deserialize v.reparsed = some r.reloaded := by
  cases h with
  | @wrapped message usage front back h =>
    -- cleaning leaves the message as it was written
    have hclean : stripStrayVariantKeys
        (record [("message", some (message.serializeAmid front back)),
          ("usage", usage.map Usage.serialize)]).reloaded
        = (ContextMessageRecord.mk message usage).serialize.reloaded := by
      rw [reloaded_wrapper, ContextMessageValueRecord.serializeAmid, reloaded_obj,
        stripStrayVariantKeys_wrapper, h.dropStrayKeys_amid hraw, serialize, reloaded_wrapper,
        message.reloaded_serialize]
    apply deserialize_wrapped
    exact (congrArg deserializeWrapper hclean).trans (deserializeWrapper_reloaded _ hraw)
  | @direct message front back h =>
    -- on its own the message has no wrapper
    have hclean : stripStrayVariantKeys (message.serializeAmid front back).reloaded
        = message.serialize.reloaded := by
      rw [ContextMessageValueRecord.serializeAmid, reloaded_obj, stripStrayVariantKeys,
        message.reloaded_serialize, h.dropStrayKeys_cleanWrapped hraw]
    have hwrapper : deserializeWrapper
        (stripStrayVariantKeys (message.serializeAmid front back).reloaded) = none := by
      rw [hclean, message.reloaded_serialize, deserializeWrapper_of_variant]
    rw [deserialize_direct hwrapper]
    change (ContextMessageValueRecord.deserialize
      (stripStrayVariantKeys (message.serializeAmid front back).reloaded)).map _ = _
    rw [hclean, message.deserialize_reloaded hraw]
    rfl

end ContextMessageRecord

/-! ### Contexts -/

namespace ContextRecord

theorem serializeWith_serialize (r : ContextRecord) :
    r.serializeWith (r.messages.map ContextMessageRecord.serialize) = r.serialize := rfl

/-- A context is read back from any forms of its messages. -/
theorem deserialize_stored {r : ContextRecord} {messages : List Json}
    (h : List.Forall₂ ContextMessageRecord.Stored r.messages messages)
    (hraw : ∀ message ∈ r.messages, message.message.RawContentReads) :
    deserialize (r.serializeWith messages).reparsed = some r.reloaded := by
  apply r.deserialize_serializeWith
  have hreads : List.Forall₂
      (fun message v => ContextMessageRecord.deserialize v = some message.reloaded)
      r.messages (messages.map reparsed) := by
    rw [List.forall₂_map_right_iff]
    apply ((List.forall₂_and_left _ _).mpr ⟨hraw, h⟩).imp
    intro message v hstored
    exact hstored.2.deserialize_reparsed hstored.1
  cases messages with
  | nil =>
    -- a context without messages has no key for them
    rw [List.forall₂_nil_right_iff.mp h]
    rfl
  | cons v messages =>
    have hlist := listOf_forall₂ hreads
    rw [← reparsed_arr] at hlist
    exact hlist

end ContextRecord

/-- The record of every context is read back from its text up to the floats in it, message by
message, from whatever forms its messages are stored in, as long as the text nests within the
limit of the parser. -/
theorem read_stored_context (context : Context) :
    ((ContextRecord.from context).serialize.depth ≤ recursionLimit →
      (fromText (toText (ContextRecord.from context).serialize)).bind ContextRecord.deserialize
        = some (ContextRecord.from context).reloaded) ∧
    ∀ messages : List Json,
      List.Forall₂ ContextMessageRecord.Stored (ContextRecord.from context).messages messages →
      ((ContextRecord.from context).serializeWith messages).depth ≤ recursionLimit →
      (fromText (toText ((ContextRecord.from context).serializeWith messages))).bind
          ContextRecord.deserialize
        = some (ContextRecord.from context).reloaded := by
  have hread : ∀ messages : List Json,
      List.Forall₂ ContextMessageRecord.Stored (ContextRecord.from context).messages messages →
      ((ContextRecord.from context).serializeWith messages).depth ≤ recursionLimit →
      (fromText (toText ((ContextRecord.from context).serializeWith messages))).bind
          ContextRecord.deserialize = some (ContextRecord.from context).reloaded := by
    intro messages hstored hdepth
    rw [JsonText.fromText_toText _ hdepth, Option.bind_some]
    exact ContextRecord.deserialize_stored hstored (ContextRecord.rawContentReads_from context)
  refine ⟨?_, hread⟩
  -- what is written is one of the forms
  intro hdepth
  have hstored : List.Forall₂ ContextMessageRecord.Stored (ContextRecord.from context).messages
      ((ContextRecord.from context).messages.map ContextMessageRecord.serialize) := by
    rw [List.forall₂_map_right_iff, List.forall₂_same]
    exact fun message _ => message.stored_serialize
  rw [← ContextRecord.serializeWith_serialize] at hdepth ⊢
  exact hread _ hstored hdepth

end HeliosLite

namespace HeliosLite.StrayKeys

open Serde Serde.Json

attribute [local instance] reference

/-- The result of a tool call and a prompt of the user. -/
def context : Context :=
  { Context.default with
    messages :=
      [.from (.tool
        { name := "shell"
          callId := some "call_abc"
          output := { isError := false, values := [.text "ok"] } }),
       .from (ContextMessage.user "hi" none)] }

/-- The record of a message of the context. -/
def stored (n : Fin 2) : ContextMessageRecord :=
  .from (context.messages.get n)

/-- The first message has a second variant behind it; the second one has no wrapper, and its
role stands in front of it. -/
def messages : List Json :=
  [record
    [("message", some ((stored 0).message.serializeAmid [] [("text", .obj [])])),
      ("usage", none)],
   (stored 1).message.serializeAmid [("role", .str "user")] []]

theorem injected_text : (stored 0).message.Injected [] [("text", .obj [])] := by
  constructor
  · decide
  · intro p hp _
    rw [List.mem_singleton.mp hp]
    rfl

theorem injected_role : (stored 1).message.Injected [("role", .str "user")] [] := by
  constructor
  · decide
  · intro p hp hbefore
    rw [List.mem_singleton.mp hp] at hbefore
    exact absurd hbefore (by decide)

theorem messages_stored :
    List.Forall₂ ContextMessageRecord.Stored (ContextRecord.from context).messages messages :=
  .cons (.wrapped none injected_text) (.cons (.direct injected_role) .nil)

theorem read_messages :
    (fromText (toText (ContextRecord.from context).serialize)).bind ContextRecord.deserialize
      = some (ContextRecord.from context).reloaded ∧
    (fromText (toText ((ContextRecord.from context).serializeWith messages))).bind
      ContextRecord.deserialize = some (ContextRecord.from context).reloaded :=
  ⟨(read_stored_context context).1 (by decide +kernel),
    (read_stored_context context).2 messages messages_stored (by decide +kernel)⟩

/-- A prompt that has cost more than any float. -/
def costly : Context :=
  { Context.default with
    messages :=
      [{ message := ContextMessage.user "hi" none
         usage := some
          { promptTokens := .actual 1
            completionTokens := .actual 1
            totalTokens := .actual 2
            cachedTokens := .actual 0
            cost := some ⟨0x7FF0000000000000⟩ } }] }

/-- The cost is written as `null`, so the record that is read has none. -/
theorem read_costly_ne :
    (fromText (toText (ContextRecord.from costly).serialize)).bind ContextRecord.deserialize
      ≠ some (ContextRecord.from costly) := by
  have hread := (ContextRecord.from costly).deserialize_reparsed
    (ContextRecord.rawContentReads_from costly)
  rw [JsonText.fromText_toText _ (by decide +kernel), Option.bind_some]
  intro heq
  have hcost : (ContextRecord.from costly).reloaded.messages.map (·.usage)
      = (ContextRecord.from costly).messages.map (·.usage) :=
    congrArg (fun r => r.messages.map (·.usage)) (Option.some.inj (hread.symm.trans heq))
  exact absurd hcost (by decide +kernel)

end HeliosLite.StrayKeys
