import HeliosLite.Schema.GeminiRun
import Mathlib.Logic.Relation

/-!
# The schemas in a sanitized schema

Every schema that is looked into in what comes out was itself sanitized. So each level has what
belongs to its type, and a keyword that is not taken stands only where a choice with null was taken
apart. Where the levels that are rewritten show nothing new to rewrite, a schema that was sanitized
is not changed when it is sanitized again.

## Main definitions

* `Within` — the schemas that are looked into
* `Trimmed` — what holds of every level that comes out
* `Stable` — a rewritten level shows nothing new

## Main results

* `sanitizeGeminiSchema_trimmed`
* `sanitizeGeminiSchema_again`
-/

namespace HeliosLite

namespace GeminiSchema

open Serde Theory
open Relation (ReflTransGen)
open StrictSchema (Fields asStr)

variable {floatText : FiniteF64 → String} {map map' : Fields} {key : String} {value v w : Json}

/-! ### The schemas in a schema -/

/-- The schemas that are looked into in a schema. -/
inductive Within : Json → Json → Prop
  | item {items : List Json} {item : Json} : item ∈ items → Within (.arr items) item
  | named {map props : Fields} {key : String} {entry : String × Json} : key ∈ namedKeywords →
      map.lookup key = some (.obj props) → entry ∈ props → Within (.obj map) entry.2
  | schema {map : Fields} {key : String} {value : Json} : key ∈ schemaKeywords →
      map.lookup key = some value → Within (.obj map) value
  | listed {map : Fields} {key : String} {items : List Json} {item : Json} :
      key ∈ listKeywords → map.lookup key = some (.arr items) → item ∈ items →
      Within (.obj map) item

/-- The schema with its first level rewritten. -/
def rewritten (floatText : FiniteF64 → String) : Json → Json
  | .obj map => .obj (sanitizeLevel floatText map)
  | schema => schema

/-- The schemas that are sanitized for a schema, one call below. -/
def Called (floatText : FiniteF64 → String) (v w : Json) : Prop := Within (rewritten floatText v) w

theorem called_of_obj (h : Within (.obj (sanitizeLevel floatText map)) w) :
    Called floatText (.obj map) w := h

theorem depth_of_within (h : Within v w) : w.depth < v.depth := by
  cases h with
  | item hitem =>
    rw [Json.depth, Nat.lt_succ_iff]
    exact Json.depthList_le.mp (Nat.le_refl _) _ hitem
  | @named map props _ _ _ hprops hentry =>
    have hdepth : Json.depthFields props + 1 ≤ Json.depthFields map :=
      Json.depth_of_lookup (Nat.le_refl _) hprops
    rw [Json.depth]
    refine Nat.lt_succ_of_le (Nat.le_trans ?_ (Nat.le_of_succ_le hdepth))
    exact Json.depthFields_le.mp (Nat.le_refl _) _ hentry
  | schema _ hvalue =>
    rw [Json.depth, Nat.lt_succ_iff]
    exact Json.depth_of_lookup (Nat.le_refl _) hvalue
  | @listed map _ items _ _ hitems hitem =>
    have hdepth : Json.depthList items + 1 ≤ Json.depthFields map :=
      Json.depth_of_lookup (Nat.le_refl _) hitems
    rw [Json.depth]
    refine Nat.lt_succ_of_le (Nat.le_trans ?_ (Nat.le_of_succ_le hdepth))
    exact Json.depthList_le.mp (Nat.le_refl _) _ hitem

theorem mem_visitedKeywords :
    key ∈ visitedKeywords ↔ key ∈ namedKeywords ∨ key ∈ schemaKeywords ∨ key ∈ listKeywords := by
  rw [visitedKeywords, List.mem_append, List.mem_append]

theorem sanitizedKeyword_of_named (hkey : key ∈ namedKeywords) (props : Fields) :
    sanitizedKeyword floatText key (.obj props) =
      .obj (props.map fun entry => (entry.1, sanitized floatText entry.2)) := if_pos hkey

theorem sanitizedKeyword_of_schema (hkey : key ∈ schemaKeywords) (value : Json) :
    sanitizedKeyword floatText key value = sanitized floatText value := by
  have hnamed : key ∉ namedKeywords := notMem_namedKeywords (.inl hkey)
  cases value with
  | obj props => simp only [sanitizedKeyword, if_neg hnamed, if_pos hkey]
  | arr items => simp only [sanitizedKeyword, if_neg hnamed, sanitized_arr]
  | _ => exact (sanitized_leaf (fun _ h => Json.noConfusion h) fun _ h => Json.noConfusion h).symm

theorem sanitizedKeyword_of_listed (hkey : key ∈ listKeywords) (items : List Json) :
    sanitizedKeyword floatText key (.arr items) = .arr (items.map (sanitized floatText)) :=
  if_neg (notMem_namedKeywords (.inr hkey))

/-- A map of schemas comes from a map of schemas. -/
theorem exists_of_named (hkey : key ∈ namedKeywords) {props : Fields}
    (h : sanitizedKeyword floatText key value = .obj props) :
    ∃ before, value = .obj before ∧
      props = before.map fun entry => (entry.1, sanitized floatText entry.2) := by
  cases value with
  | obj before =>
    rw [sanitizedKeyword_of_named hkey] at h
    exact ⟨before, rfl, (Json.obj.inj h).symm⟩
  | arr items =>
    rw [sanitizedKeyword, if_pos hkey] at h
    cases h
  | _ => cases h

/-- A list of schemas comes from a list of schemas. -/
theorem exists_of_listed (hkey : key ∈ listKeywords) {items : List Json}
    (h : sanitizedKeyword floatText key value = .arr items) :
    ∃ before, value = .arr before ∧ items = before.map (sanitized floatText) := by
  cases value with
  | arr before =>
    rw [sanitizedKeyword_of_listed hkey] at h
    exact ⟨before, rfl, (Json.arr.inj h).symm⟩
  | obj props =>
    rw [sanitizedKeyword, if_neg (notMem_namedKeywords (.inr hkey)),
      if_neg (notMem_schemaKeywords hkey)] at h
    cases h
  | _ => cases h

/-- A schema in what comes out is one that was sanitized. -/
theorem exists_called_of_within (h : Within (sanitized floatText v) w) :
    ∃ u, Called floatText v u ∧ w = sanitized floatText u := by
  cases v with
  | arr items =>
    rw [sanitized_arr] at h
    cases h with
    | item hitem =>
      obtain ⟨u, hu, rfl⟩ := List.mem_map.mp hitem
      exact ⟨u, .item hu, rfl⟩
  | obj map =>
    obtain ⟨map', heq, hvisited, -⟩ : ∃ map', sanitized floatText (.obj map) = .obj map' ∧ _ :=
      exists_sanitized_obj map
    rw [heq] at h
    cases h with
    | named hkey hprops hentry =>
      rw [hvisited _ (mem_visitedKeywords.mpr (.inl hkey))] at hprops
      obtain ⟨value, hvalue, hprops⟩ := Option.map_eq_some_iff.mp hprops
      obtain ⟨before, rfl, rfl⟩ := exists_of_named hkey hprops
      obtain ⟨entry, hmem, rfl⟩ := List.mem_map.mp hentry
      exact ⟨entry.2, called_of_obj (.named hkey hvalue hmem), rfl⟩
    | schema hkey hvalue =>
      rw [hvisited _ (mem_visitedKeywords.mpr (.inr (.inl hkey)))] at hvalue
      obtain ⟨before, hbefore, rfl⟩ := Option.map_eq_some_iff.mp hvalue
      exact ⟨before, called_of_obj (.schema hkey hbefore), sanitizedKeyword_of_schema hkey before⟩
    | listed hkey hitems hitem =>
      rw [hvisited _ (mem_visitedKeywords.mpr (.inr (.inr hkey)))] at hitems
      obtain ⟨value, hvalue, hitems⟩ := Option.map_eq_some_iff.mp hitems
      obtain ⟨before, rfl, rfl⟩ := exists_of_listed hkey hitems
      obtain ⟨u, hu, rfl⟩ := List.mem_map.mp hitem
      exact ⟨u, called_of_obj (.listed hkey hvalue hu), rfl⟩
  | _ =>
    rw [sanitized_leaf (fun _ h => Json.noConfusion h) fun _ h => Json.noConfusion h] at h
    cases h

/-- Every schema in what comes out was sanitized, in a call for the whole. -/
theorem exists_called (h : ReflTransGen Within (sanitized floatText v) w) :
    ∃ u, ReflTransGen (Called floatText) v u ∧ w = sanitized floatText u := by
  induction h with
  | refl => exact ⟨v, .refl, rfl⟩
  | tail _ hwithin ih =>
    obtain ⟨u, hu, rfl⟩ := ih
    obtain ⟨u', hu', rfl⟩ := exists_called_of_within hwithin
    exact ⟨u', hu.tail hu', rfl⟩

/-- The level with the schemas in it sanitized. -/
structure Sanitizes (floatText : FiniteF64 → String) (map map' : Fields) : Prop where
  visited : ∀ key ∈ visitedKeywords,
    map'.lookup key = (map.lookup key).map (sanitizedKeyword floatText key)
  kept : ∀ key ∉ visitedKeywords, map'.lookup key = map.lookup key

theorem exists_of_sanitized_obj (h : sanitized floatText v = .obj map') :
    ∃ map, v = .obj map ∧ Sanitizes floatText (sanitizeLevel floatText map) map' := by
  cases v with
  | obj map =>
    obtain ⟨map'', heq, hvisited, hkept⟩ : ∃ map', sanitized floatText (.obj map) = .obj map' ∧ _ :=
      exists_sanitized_obj map
    rw [heq] at h
    cases h
    exact ⟨map, rfl, hvisited, hkept⟩
  | arr items =>
    rw [sanitized_arr] at h
    cases h
  | _ =>
    rw [sanitized_leaf (fun _ h => Json.noConfusion h) fun _ h => Json.noConfusion h] at h
    cases h

namespace Sanitizes

variable (h : Sanitizes floatText map map')

include h

theorem hasEntry_eq (key : String) : hasEntry map' key = hasEntry map key := by
  by_cases hkey : key ∈ visitedKeywords
  · rw [hasEntry, h.visited key hkey, Option.isSome_map, hasEntry]
  · rw [hasEntry, h.kept key hkey, hasEntry]

theorem hasCombiner_eq : hasCombiner map' = hasCombiner map :=
  hasCombiner_congr fun key _ => h.hasEntry_eq key

theorem lookup_type : map'.lookup "type" = map.lookup "type" := h.kept "type" (by decide)

theorem hasNumericTypeWithEnum_eq : hasNumericTypeWithEnum map' = hasNumericTypeWithEnum map := by
  rw [hasNumericTypeWithEnum, h.lookup_type, h.hasEntry_eq, hasNumericTypeWithEnum]

/-- The names of the properties stay as they are. -/
theorem exists_properties {props : Fields} (hprops : map'.lookup "properties" = some (.obj props)) :
    ∃ before, map.lookup "properties" = some (.obj before) ∧
      props = before.map fun entry => (entry.1, sanitized floatText entry.2) := by
  rw [h.visited "properties" (by decide)] at hprops
  obtain ⟨value, hvalue, hprops⟩ := Option.map_eq_some_iff.mp hprops
  obtain ⟨before, rfl, hbefore⟩ := exists_of_named (by decide) hprops
  exact ⟨before, hvalue, hbefore⟩

end Sanitizes

theorem retainRequired_map {f : String × Json → Json} (props : Fields) (required : List Json) :
    retainRequired (props.map fun entry => (entry.1, f entry)) required =
      retainRequired props required := by
  refine List.filter_congr fun value _ => ?_
  congr 1
  funext field
  rw [List.any_map]
  rfl

/-! ### Levels that come out -/

/-- A level with what belongs to its type. A keyword that is not taken is one of the branch of a
choice with null. -/
structure Trimmed (map : Fields) : Prop where
  number : hasNumericTypeWithEnum map = false
  values : ∀ values, map.lookup "enum" = some (.arr values) →
    ∀ v ∈ values, (∀ n, v ≠ .int n) ∧ ∀ x, v ≠ .float x
  items : map.lookup "type" = some (.str "array") → hasCombiner map = false →
    hasEntry map "items" = true
  object : typeIsNotObject map = true → hasCombiner map = false →
    hasEntry map "properties" = false ∧ hasEntry map "required" = false
  required : ∀ props required, map.lookup "properties" = some (.obj props) →
    map.lookup "required" = some (.arr required) →
    ∀ value ∈ required, ∃ entry ∈ props, value = .str entry.1
  banned : hasEntry map "nullable" = false → ∀ key ∈ bannedKeywords, hasEntry map key = false

theorem exists_of_mem_retainRequired {props : Fields} {required : List Json}
    (h : value ∈ retainRequired props required) : ∃ entry ∈ props, value = .str entry.1 := by
  have hfield := (List.mem_filter.mp h).2
  cases value with
  | str field =>
    simp only [asStr, Option.any_some, List.any_eq_true, decide_eq_true_eq] at hfield
    obtain ⟨entry, hentry, rfl⟩ := hfield
    exact ⟨entry, hentry, rfl⟩
  | _ => cases hfield

theorem ne_number_of_numberText (h : numberText floatText v = v) :
    (∀ n, v ≠ .int n) ∧ ∀ x, v ≠ .float x := by
  cases v with
  | int n => cases h
  | float x => cases h
  | _ => exact ⟨fun _ h => Json.noConfusion h, fun _ h => Json.noConfusion h⟩

theorem notMem_finishedKeywords (hkey : key ∈ bannedKeywords) : key ∉ finishedKeywords := by
  revert key
  simp only [bannedKeywords, removedKeywords, List.forall_mem_cons]
  decide

/-- A keyword that is not taken comes from a branch, and then the level is nullable. -/
theorem lookup_banned_sanitizeLevel
    (hnullable : hasEntry (sanitizeLevel floatText map) "nullable" = false)
    (hkey : key ∈ bannedKeywords) : (sanitizeLevel floatText map).lookup key = none := by
  rw [sanitizeLevel, lookup_finishLevel (notMem_finishedKeywords hkey)]
  rw [sanitizeLevel, hasEntry, lookup_finishLevel (by decide), ← hasEntry] at hnullable
  cases hbranch : mergedBranch map with
  | some branch =>
    rw [hasEntry_nullable_of_merged hbranch] at hnullable
    cases hnullable
  | none =>
    have hne : key ≠ "nullable" ∧ key ≠ "anyOf" :=
      ⟨ne_of_mem_of_not_mem hkey (by decide), ne_of_mem_of_not_mem hkey (by decide)⟩
    rw [lookup_sanitizeTypes hbranch hne.1, if_neg hne.2, lookup_ownKeywords_of_banned hkey]

theorem Sanitizes.trimmed (h : Sanitizes floatText (sanitizeLevel floatText map) map') :
    Trimmed map' := by
  have hfinished : Finished floatText (sanitizeLevel floatText map) := finished_finishLevel
  constructor
  · rw [h.hasNumericTypeWithEnum_eq]
    exact hfinished.number
  · intro values hvalues v hv
    rw [h.kept "enum" (by decide)] at hvalues
    have hmap := (hfinished.values values hvalues).trans (List.map_id values).symm
    exact ne_number_of_numberText (List.map_inj_left.mp hmap v hv)
  · intro harray hnone
    rw [h.lookup_type] at harray
    rw [h.hasCombiner_eq] at hnone
    obtain ⟨items, hitems, -⟩ := hfinished.items harray hnone
    rw [h.hasEntry_eq]
    exact hasEntry_iff.mpr ⟨items, hitems⟩
  · intro hobject hnone
    rw [typeIsNotObject_congr h.lookup_type] at hobject
    rw [h.hasCombiner_eq] at hnone
    obtain ⟨hproperties, hrequired⟩ := hfinished.object hobject hnone
    rw [h.hasEntry_eq, h.hasEntry_eq, hasEntry_eq_false_iff, hasEntry_eq_false_iff]
    exact ⟨hproperties, hrequired⟩
  · intro props required hprops hrequired value hvalue
    obtain ⟨before, hbefore, rfl⟩ := h.exists_properties hprops
    rw [h.kept "required" (by decide)] at hrequired
    rw [← hfinished.required before required hbefore hrequired] at hvalue
    obtain ⟨entry, hentry, rfl⟩ := exists_of_mem_retainRequired hvalue
    exact ⟨_, List.mem_map_of_mem hentry, rfl⟩
  · intro hnullable key hkey
    rw [h.hasEntry_eq] at hnullable ⊢
    rw [hasEntry_eq_false_iff]
    exact lookup_banned_sanitizeLevel hnullable hkey

/-- A rewritten level shows nothing new to rewrite: what was merged into it is as it should be, no
branch of its choice becomes null, and the items of an array are still about something. -/
structure Stable (floatText : FiniteF64 → String) (map : Fields) : Prop where
  banned : ∀ key ∈ bannedKeywords, hasEntry (sanitizeTypes map) key = false
  type : ∀ types, (sanitizeTypes map).lookup "type" ≠ some (.arr types)
  anyOf : ∀ anyOf, (sanitizeTypes map).lookup "anyOf" = some anyOf →
    ∃ branches, anyOf = .arr branches ∧
      ∀ branch ∈ branches, isNullSchema (rewritten floatText branch) = false
  items : ∀ items, (sanitizeTypes map).lookup "type" = some (.str "array") →
    (sanitizeLevel floatText map).lookup "items" = some (.obj items) →
    hasSchemaIntent (sanitizeLevel floatText items) = true

theorem isNullSchema_obj_iff : isNullSchema (.obj map) = true ↔
    (∀ key, hasEntry map key = true → key = "type") ∧ map.lookup "type" = some (.str "null") := by
  simp only [isNullSchema, Bool.and_eq_true, beq_iff_eq, List.all_eq_true, decide_eq_true_eq]
  refine and_congr_left fun _ => ⟨fun h key hkey => ?_, fun h entry hentry => ?_⟩
  · obtain ⟨value, hvalue⟩ := hasEntry_iff.mp hkey
    obtain ⟨l₁, l₂, rfl, -⟩ := List.lookup_eq_some_iff.mp hvalue
    exact h (key, value) (List.mem_append_right l₁ List.mem_cons_self)
  · apply h
    rw [hasEntry, Option.isSome_iff_ne_none]
    intro hnone
    have hne := List.lookup_eq_none_iff.mp hnone entry hentry
    rw [bne_self_eq_false] at hne
    cases hne

theorem isNullSchema_sanitized :
    isNullSchema (sanitized floatText v) = isNullSchema (rewritten floatText v) := by
  cases v with
  | obj map =>
    obtain ⟨map', heq, hvisited, hkept⟩ : ∃ map', sanitized floatText (.obj map) = .obj map' ∧ _ :=
      exists_sanitized_obj map
    have h : Sanitizes floatText (sanitizeLevel floatText map) map' := ⟨hvisited, hkept⟩
    rw [heq, rewritten, Bool.eq_iff_iff, isNullSchema_obj_iff, isNullSchema_obj_iff, h.lookup_type]
    simp only [h.hasEntry_eq]
  | arr items =>
    rw [sanitized_arr]
    rfl
  | _ =>
    rw [sanitized_leaf (fun _ h => Json.noConfusion h) fun _ h => Json.noConfusion h]
    rfl

theorem Sanitizes.hasSchemaIntent_eq (h : Sanitizes floatText map map') :
    hasSchemaIntent map' = hasSchemaIntent map := by
  rw [hasSchemaIntent, hasSchemaIntent, funext h.hasEntry_eq]

namespace Stable

variable (hstable : Stable floatText map)
  (h : Sanitizes floatText (sanitizeLevel floatText map) map')

include hstable h

theorem plain : Plain map' := by
  constructor
  · intro key hkey
    rw [← hasEntry_eq_false_iff, h.hasEntry_eq, hasEntry, sanitizeLevel,
      lookup_finishLevel (notMem_finishedKeywords hkey), ← hasEntry]
    exact hstable.banned key hkey
  · intro types htypes
    rw [h.lookup_type, sanitizeLevel, lookup_type_finishLevel] at htypes
    split_ifs at htypes
    · cases htypes
    · exact hstable.type types htypes
  · intro anyOf hanyOf
    rw [h.visited "anyOf" (by decide), sanitizeLevel, lookup_finishLevel (by decide)] at hanyOf
    obtain ⟨before, hbefore, rfl⟩ := Option.map_eq_some_iff.mp hanyOf
    obtain ⟨branches, rfl, hbranches⟩ := hstable.anyOf before hbefore
    refine ⟨_, sanitizedKeyword_of_listed (by decide) branches, fun branch hbranch => ?_⟩
    obtain ⟨u, hu, rfl⟩ := List.mem_map.mp hbranch
    rw [isNullSchema_sanitized]
    exact hbranches u hu

theorem finished : Finished floatText map' := by
  have hfinished : Finished floatText (sanitizeLevel floatText map) := finished_finishLevel
  constructor
  · rw [h.hasNumericTypeWithEnum_eq]
    exact hfinished.number
  · intro values hvalues
    rw [h.kept "enum" (by decide)] at hvalues
    exact hfinished.values values hvalues
  · intro harray hnone
    rw [h.lookup_type] at harray
    rw [h.hasCombiner_eq] at hnone
    obtain ⟨items, hitems, -⟩ := hfinished.items harray hnone
    refine ⟨sanitized floatText items, ?_, fun fields hfields => ?_⟩
    · rw [h.visited "items" (by decide), hitems, Option.map_some,
        sanitizedKeyword_of_schema (by decide)]
    · obtain ⟨before, rfl, hsanitizes⟩ := exists_of_sanitized_obj hfields
      rw [hsanitizes.hasSchemaIntent_eq]
      refine hstable.items before ?_ hitems
      rw [sanitizeLevel, lookup_type_finishLevel] at harray
      split_ifs at harray
      · exact absurd (Json.str.inj (Option.some.inj harray)) (by decide)
      · exact harray
  · intro hobject hnone
    rw [typeIsNotObject_congr h.lookup_type] at hobject
    rw [h.hasCombiner_eq] at hnone
    rw [← hasEntry_eq_false_iff, ← hasEntry_eq_false_iff, h.hasEntry_eq, h.hasEntry_eq,
      hasEntry_eq_false_iff, hasEntry_eq_false_iff]
    exact hfinished.object hobject hnone
  · intro props required hprops hrequired
    obtain ⟨before, hbefore, rfl⟩ := h.exists_properties hprops
    rw [h.kept "required" (by decide)] at hrequired
    rw [retainRequired_map]
    exact hfinished.required before required hbefore hrequired

theorem settled : Settled floatText map' :=
  { toPlain := hstable.plain h, toFinished := hstable.finished h }

end Stable

/-- A schema with levels that are not changed is not changed. -/
theorem computes_self (h : ∀ map, ReflTransGen Within v (.obj map) → Settled floatText map) :
    Computes (fun n => sanitizeGeminiSchema floatText n v) v := by
  induction hd : v.depth using Nat.strong_induction_on generalizing v with
  | _ d ih =>
    have hwithin : ∀ w, Within v w → Computes (fun n => sanitizeGeminiSchema floatText n w) w :=
      fun w hw => ih w.depth (hd ▸ depth_of_within hw) (fun map hmap => h map (.head hw hmap)) rfl
    cases v with
    | arr items =>
      have hitems : Computes (fun n => items.mapM (sanitizeGeminiSchema floatText n)) items :=
        computes_mapM_self fun item hitem => hwithin item (.item hitem)
      have hbody : Computes (fun n => sanitizeGeminiSchema floatText (n + 1) (.arr items))
          (.arr items) := hitems.option_map
      exact hbody.succ rfl
    | obj map =>
      have hbody : Computes (fun n => sanitizeGeminiSchema floatText (n + 1) (.obj map))
          (.obj map) := by
        simp only [sanitizeGeminiSchema_obj, (h map .refl).sanitizeLevel]
        refine Computes.option_map (computes_updateEntries_self fun key hkey value hvalue => ?_)
        unfold sanitizeKeyword
        split_ifs with hnamed hschema
        · cases value with
          | obj props =>
            have hentries : Computes (fun n => props.mapM fun entry =>
                (sanitizeGeminiSchema floatText n entry.2).map (Prod.mk entry.1)) props :=
              computes_mapM_self fun entry hentry =>
                (hwithin entry.2 (.named hnamed hvalue hentry)).option_map
            exact hentries.option_map
          | _ => exact computes_const
        · exact hwithin value (.schema hschema hvalue)
        · have hlisted : key ∈ listKeywords :=
            ((mem_visitedKeywords.mp hkey).resolve_left hnamed).resolve_left hschema
          cases value with
          | arr items =>
            have hitems : Computes (fun n => items.mapM (sanitizeGeminiSchema floatText n)) items :=
              computes_mapM_self fun item hitem => hwithin item (.listed hlisted hvalue hitem)
            exact hitems.option_map
          | _ => exact computes_const
      exact Computes.succ (x := fun n => sanitizeGeminiSchema floatText n (.obj map)) hbody rfl
    | _ => exact ready_leaf (fun _ h => Json.noConfusion h) fun _ h => Json.noConfusion h

/-- Where every level that is rewritten shows nothing new, sanitizing again gives the schema that
came out. -/
theorem sanitizeGeminiSchema_again (floatText : FiniteF64 → String) (schema : Json)
    (hstable : ∀ map, ReflTransGen (Called floatText) schema (.obj map) → Stable floatText map) :
    ∃ once, Computes (fun n => sanitizeGeminiSchema floatText n schema) once ∧
      Computes (fun n => sanitizeGeminiSchema floatText n once) once := by
  refine ⟨_, computes_sanitized schema, computes_self fun map hmap => ?_⟩
  obtain ⟨u, hcalled, hu⟩ := exists_called hmap
  obtain ⟨before, rfl, hsanitizes⟩ := exists_of_sanitized_obj hu.symm
  exact (hstable before hcalled).settled hsanitizes

theorem not_within_of_lookup (h : ∀ key ∈ visitedKeywords, map.lookup key = none) :
    ¬ Within (.obj map) w := by
  intro hwithin
  have hnone : ∀ key ∈ visitedKeywords, ∀ value, map.lookup key ≠ some value := by
    intro key hkey value hvalue
    rw [h key hkey] at hvalue
    cases hvalue
  cases hwithin with
  | named hkey hvalue _ => exact hnone _ (mem_visitedKeywords.mpr (.inl hkey)) _ hvalue
  | schema hkey hvalue => exact hnone _ (mem_visitedKeywords.mpr (.inr (.inl hkey))) _ hvalue
  | listed hkey hvalue _ => exact hnone _ (mem_visitedKeywords.mpr (.inr (.inr hkey))) _ hvalue

/-- A text or null. -/
def textOrNull : Fields :=
  [("anyOf", .arr [.obj [("type", .str "string")], .obj [("type", .str "null")]])]

theorem stable_textOrNull : Stable (fun _ => "") textOrNull := by
  constructor
  · simp only [bannedKeywords, removedKeywords, List.forall_mem_cons]
    decide
  · intro types
    exact fun h => Json.noConfusion (Option.some.inj h)
  · intro anyOf hanyOf
    cases hanyOf
  · intro items _ hitems
    cases hitems

theorem sanitizeGeminiSchema_again_textOrNull :
    ∃ once, Computes (fun n => sanitizeGeminiSchema (fun _ => "") n (.obj textOrNull)) once ∧
      Computes (fun n => sanitizeGeminiSchema (fun _ => "") n once) once := by
  refine sanitizeGeminiSchema_again _ _ fun map hmap => ?_
  rcases hmap.cases_head with heq | ⟨u, hu, -⟩
  · rw [← Json.obj.inj heq]
    exact stable_textOrNull
  · have hlookup : ∀ key ∈ visitedKeywords,
        (sanitizeLevel (fun _ => "") textOrNull).lookup key = none := by
      simp only [visitedKeywords, namedKeywords, schemaKeywords, listKeywords, List.cons_append,
        List.nil_append, List.forall_mem_cons]
      decide
    exact absurd hu (not_within_of_lookup hlookup)

end GeminiSchema

end HeliosLite
