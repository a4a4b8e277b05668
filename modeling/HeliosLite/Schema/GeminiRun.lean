import HeliosLite.Schema.GeminiLevel
import HeliosLite.Serde.Json
import HeliosLite.Theory.Traverse

/-!
# Sanitizing comes to an end

A level is rewritten without a look into its schemas, and what is then looked into is less deep, or
is the default for the items of an array. What comes out is a schema, `sanitized`, with the level
rewritten and its schemas sanitized.

## Main definitions

* `sanitized` — the schema that comes out

## Main results

* `computes_sanitized` — every large enough budget gives it
* `exists_sanitized_obj` — the level and the schemas in it
-/

namespace HeliosLite

namespace GeminiSchema

open Serde Theory
open StrictSchema (Fields asStr)

variable {floatText : FiniteF64 → String} {map map' : Fields} {key : String} {value : Json} {d : ℕ}

/-! ### The keywords that are looked into -/

def visitedKeywords : List String := namedKeywords ++ (schemaKeywords ++ listKeywords)

theorem nodup_visitedKeywords : visitedKeywords.Nodup := by decide

theorem notMem_namedKeywords (h : key ∈ schemaKeywords ∨ key ∈ listKeywords) :
    key ∉ namedKeywords := by
  rw [← List.mem_append] at h
  revert key
  simp only [schemaKeywords, listKeywords, List.cons_append, List.nil_append, List.forall_mem_cons]
  decide

theorem notMem_schemaKeywords (h : key ∈ listKeywords) : key ∉ schemaKeywords := by
  revert key
  simp only [listKeywords, List.forall_mem_cons]
  decide

/-- The value of a keyword with its schemas sanitized. -/
def sanitizeKeyword (sanitize : Json → Option Json) (key : String) : Json → Option Json :=
  if key ∈ namedKeywords then sanitizeNamed sanitize
  else if key ∈ schemaKeywords then sanitize
  else sanitizeItems sanitize

theorem sanitizeGeminiSchema_obj (n : ℕ) :
    sanitizeGeminiSchema floatText (n + 1) (.obj map) =
      (updateEntries (sanitizeKeyword (sanitizeGeminiSchema floatText n)) visitedKeywords
        (sanitizeLevel floatText map)).map .obj := by
  have hnamed : ∀ map : Fields, updateEntries (sanitizeKeyword (sanitizeGeminiSchema floatText n))
      namedKeywords map =
      updateEntries (fun _ => sanitizeNamed (sanitizeGeminiSchema floatText n)) namedKeywords map :=
    fun map => updateEntries_congr fun key hkey => if_pos hkey
  have hschema : ∀ map : Fields, updateEntries (sanitizeKeyword (sanitizeGeminiSchema floatText n))
      schemaKeywords map =
      updateEntries (fun _ => sanitizeGeminiSchema floatText n) schemaKeywords map :=
    fun map => updateEntries_congr fun key hkey => by
      rw [sanitizeKeyword, if_neg (notMem_namedKeywords (.inl hkey)), if_pos hkey]
  have hlist : ∀ map : Fields, updateEntries (sanitizeKeyword (sanitizeGeminiSchema floatText n))
      listKeywords map =
      updateEntries (fun _ => sanitizeItems (sanitizeGeminiSchema floatText n)) listKeywords map :=
    fun map => updateEntries_congr fun key hkey => by
      rw [sanitizeKeyword, if_neg (notMem_namedKeywords (.inr hkey)),
        if_neg (notMem_schemaKeywords hkey)]
  have hrest : ∀ map : Fields, updateEntries (sanitizeKeyword (sanitizeGeminiSchema floatText n))
      (schemaKeywords ++ listKeywords) map =
      (updateEntries (fun _ => sanitizeGeminiSchema floatText n) schemaKeywords map).bind fun map =>
        updateEntries (fun _ => sanitizeItems (sanitizeGeminiSchema floatText n)) listKeywords map :=
    fun map => by
      rw [updateEntries_append, hschema]
      exact congrArg _ (funext hlist)
  rw [visitedKeywords, updateEntries_append, hnamed, Option.map_bind]
  simp only [sanitizeGeminiSchema, Option.bind_eq_bind]
  refine congrArg _ (funext fun map => ?_)
  rw [Function.comp_apply, hrest, Option.map_bind]
  refine congrArg _ (funext fun map => ?_)
  rw [Function.comp_apply, Option.map_eq_bind]
  rfl

/-! ### What is looked into is less deep -/

/-- The default for the items of an array. -/
def defaultItems : Json := .obj [("type", .str "string")]

/-- The value is so deep at most, or the default, or a list of values that are. -/
def Shallow (d : ℕ) (value : Json) : Prop :=
  value.depth ≤ d ∨ value = defaultItems ∨
    ∃ items, value = .arr items ∧ ∀ item ∈ items, item.depth ≤ d

theorem depth_le_of_choiceOf {anyOf : List Json} (hmap : Json.depthFields map ≤ d)
    (h : choiceOf map = some (.arr anyOf)) : ∀ branch ∈ anyOf, branch.depth ≤ d := by
  have hown : map.lookup "anyOf" = some (.arr anyOf) → ∀ branch ∈ anyOf, branch.depth ≤ d := by
    intro hanyOf
    have hdepth := Json.depth_of_lookup hmap hanyOf
    rw [Json.depth, Nat.succ_le_iff] at hdepth
    intro branch hbranch
    exact Nat.le_of_lt (Nat.lt_of_le_of_lt (Json.depthList_le.mp (Nat.le_refl _) branch hbranch)
      hdepth)
  unfold choiceOf at h
  split at h
  next types htypes =>
    have hdepth := Json.depth_of_lookup hmap htypes
    rw [Json.depth, Nat.succ_le_iff] at hdepth
    split at h
    next type other rest hnonNull =>
      obtain rfl := Json.arr.inj (Option.some.inj h)
      intro branch hbranch
      obtain ⟨type', htype', rfl⟩ := List.mem_map.mp hbranch
      rw [← hnonNull] at htype'
      have htype' := Json.depthList_le.mp (Nat.le_refl _) type' (List.mem_of_mem_filter htype')
      rw [Json.depth, Json.depthFields, Json.depthFields, Nat.max_zero]
      exact Nat.succ_le_of_lt (Nat.lt_of_le_of_lt htype' hdepth)
    next => exact hown h
  next => exact hown h

theorem depthFields_le_of_mergedBranch {branch : Fields} (hmap : Json.depthFields map ≤ d)
    (h : mergedBranch map = some branch) : Json.depthFields branch ≤ d := by
  unfold mergedBranch at h
  split at h
  next anyOf hanyOf =>
    unfold collapsed at h
    split_ifs at h
    split at h
    next branch' hfilter =>
      obtain rfl := Option.some.inj h
      have hmem : Json.obj branch' ∈ anyOf :=
        List.mem_of_mem_filter (hfilter ▸ List.mem_singleton_self _)
      have hdepth := depth_le_of_choiceOf hmap hanyOf _ hmem
      rw [Json.depth] at hdepth
      exact Nat.le_of_succ_le hdepth
    next =>
      obtain rfl := Option.some.inj h
      exact Nat.zero_le _
    next => cases h
  next => cases h

theorem notMem_gainedKeywords (hkey : key ∈ visitedKeywords) (hanyOf : key ≠ "anyOf") :
    key ∉ gainedKeywords := by
  intro hgained
  have hother : ∀ other ∈ gainedKeywords, other ∈ visitedKeywords → other = "anyOf" := by
    simp only [gainedKeywords, List.forall_mem_cons]
    decide
  exact hanyOf (hother key hgained hkey)

theorem lookup_ownKeywords_of_visited (hkey : key ∈ visitedKeywords) (hanyOf : key ≠ "anyOf")
    (hvalue : (ownKeywords map).lookup key = some value) : map.lookup key = some value := by
  rw [lookup_ownKeywords (notMem_gainedKeywords hkey hanyOf)] at hvalue
  split_ifs at hvalue
  exact hvalue

theorem shallow_sanitizeTypes (hmap : Json.depthFields map ≤ d) (hkey : key ∈ visitedKeywords)
    (hvalue : (sanitizeTypes map).lookup key = some value) :
    value.depth ≤ d ∨
      (key = "anyOf" ∧ ∃ items, value = .arr items ∧ ∀ item ∈ items, item.depth ≤ d) := by
  have hnullable : key ≠ "nullable" := ne_of_mem_of_not_mem hkey (by decide)
  cases hbranch : mergedBranch map with
  | some branch =>
    rw [lookup_sanitizeTypes_of_merged hbranch hnullable, Option.or_eq_some_iff] at hvalue
    left
    rcases hvalue with hvalue | ⟨-, hvalue⟩
    · exact Json.depth_of_lookup (depthFields_le_of_mergedBranch hmap hbranch) hvalue
    · split_ifs at hvalue with hanyOf
      exact Json.depth_of_lookup hmap (lookup_ownKeywords_of_visited hkey hanyOf hvalue)
  | none =>
    rw [lookup_sanitizeTypes hbranch hnullable] at hvalue
    split_ifs at hvalue with hanyOf
    · right
      refine ⟨hanyOf, ?_⟩
      unfold remainingChoice at hvalue
      split at hvalue
      next anyOf hchoice =>
        obtain rfl := Option.some.inj hvalue
        refine ⟨_, rfl, fun item hitem => ?_⟩
        exact depth_le_of_choiceOf hmap hchoice item (List.mem_of_mem_filter hitem)
      next => cases hvalue
    · exact .inl (Json.depth_of_lookup hmap (lookup_ownKeywords_of_visited hkey hanyOf hvalue))

theorem lookup_properties_finishLevel
    (hvalue : (finishLevel floatText map).lookup "properties" = some value) :
    map.lookup "properties" = some value := by
  rw [finishLevel, lookup_filterRequired (by decide)] at hvalue
  unfold removeObjectKeywords at hvalue
  split_ifs at hvalue
  · rw [lookup_removeEntry, if_neg (by decide), lookup_removeEntry, if_pos rfl] at hvalue
    cases hvalue
  · rwa [lookup_ensureItems (by decide), lookup_stringifyEnum (by decide) (by decide)] at hvalue

/-- The items are as they were, the default, or have a type now. -/
theorem lookup_items_cases (hvalue : (finishLevel floatText map).lookup "items" = some value) :
    map.lookup "items" = some value ∨ value = defaultItems ∨
      ∃ items, map.lookup "items" = some (.obj items) ∧ hasSchemaIntent items = false ∧
        value = .obj (insertEntry items "type" (.str "string")) := by
  have hitems : (stringifyEnum floatText map).lookup "items" = map.lookup "items" :=
    lookup_stringifyEnum (by decide) (by decide)
  rw [lookup_items_finishLevel] at hvalue
  unfold ensureItems at hvalue
  split_ifs at hvalue
  · split at hvalue
    next =>
      rw [lookup_insertEntry_self] at hvalue
      cases hvalue
      exact .inr (.inl rfl)
    next items hlookup =>
      rw [hitems] at hlookup
      split_ifs at hvalue with hintent
      · rw [hitems] at hvalue
        exact .inl hvalue
      · rw [lookup_insertEntry_self] at hvalue
        cases hvalue
        exact .inr (.inr ⟨items, hlookup, Bool.not_eq_true _ ▸ hintent, rfl⟩)
    next =>
      rw [hitems] at hvalue
      exact .inl hvalue
  · rw [hitems] at hvalue
    exact .inl hvalue

theorem depth_insertEntry_type {items : Fields} {name : String} :
    (Json.obj (insertEntry items "type" (.str name))).depth ≤ (Json.obj items).depth := by
  rw [Json.depth, Json.depth, Nat.succ_le_succ_iff]
  exact Json.depthFields_insertEntry (Nat.le_refl _) (Nat.zero_le _)

/-- What is looked into in a level is less deep, or the default. -/
theorem shallow_sanitizeLevel (hmap : Json.depthFields map ≤ d) (hkey : key ∈ visitedKeywords)
    (hvalue : (sanitizeLevel floatText map).lookup key = some value) : Shallow d value := by
  have htypes : (sanitizeTypes map).lookup key = some value → Shallow d value := fun h =>
    (shallow_sanitizeTypes hmap hkey h).imp_right fun h => .inr h.2
  rw [sanitizeLevel] at hvalue
  by_cases hfinished : key ∈ finishedKeywords
  · have hcases : ∀ other ∈ finishedKeywords, other ∈ visitedKeywords →
        other = "items" ∨ other = "properties" := by
      simp only [finishedKeywords, List.forall_mem_cons]
      decide
    rcases hcases key hfinished hkey with rfl | rfl
    · rcases lookup_items_cases hvalue with hitems | rfl | ⟨items, hitems, -, rfl⟩
      · exact htypes hitems
      · exact .inr (.inl rfl)
      · rcases shallow_sanitizeTypes hmap hkey hitems with hdepth | ⟨habsurd, -⟩
        · exact .inl (Nat.le_trans depth_insertEntry_type hdepth)
        · exact absurd habsurd (by decide)
    · exact htypes (lookup_properties_finishLevel hvalue)
  · rw [lookup_finishLevel hfinished] at hvalue
    exact htypes hvalue

/-! ### The schema that comes out -/

/-- The schema is sanitized to something. -/
def Ready (floatText : FiniteF64 → String) (v : Json) : Prop :=
  ∃ w, Computes (fun n => sanitizeGeminiSchema floatText n v) w

theorem ready_defaultItems : Ready floatText defaultItems := by
  have hbody : Computes (fun n => sanitizeGeminiSchema floatText (n + 1) defaultItems)
      defaultItems := computes_const
  exact ⟨_, hbody.succ rfl⟩

theorem ready_arr {items : List Json} (h : ∀ item ∈ items, Ready floatText item) :
    Ready floatText (.arr items) := by
  obtain ⟨items', hitems'⟩ := exists_computes_mapM h
  have hbody : Computes (fun n => sanitizeGeminiSchema floatText (n + 1) (.arr items))
      (.arr items') := hitems'.option_map
  exact ⟨_, hbody.succ rfl⟩

theorem ready_leaf {v : Json} (harr : ∀ items, v ≠ .arr items) (hobj : ∀ map, v ≠ .obj map) :
    Computes (fun n => sanitizeGeminiSchema floatText n v) v := by
  have hbody : Computes (fun n => sanitizeGeminiSchema floatText (n + 1) v) v := by
    cases v with
    | arr items => exact absurd rfl (harr items)
    | obj map => exact absurd rfl (hobj map)
    | _ => exact computes_const
  exact hbody.succ rfl

theorem Shallow.exists_computes (hready : ∀ v : Json, v.depth ≤ d → Ready floatText v)
    (h : Shallow d value) (key : String) :
    ∃ value', Computes (fun n => sanitizeKeyword (sanitizeGeminiSchema floatText n) key value)
      value' := by
  have hself : Ready floatText value := by
    rcases h with hdepth | rfl | ⟨items, rfl, hitems⟩
    · exact hready value hdepth
    · exact ready_defaultItems
    · exact ready_arr fun item hitem => hready item (hitems item hitem)
  unfold sanitizeKeyword
  split_ifs
  · cases value with
    | obj props =>
      have hprops : ∀ entry ∈ props, Ready floatText entry.2 := by
        intro entry hentry
        rcases h with hdepth | heq | ⟨items, heq, -⟩
        · rw [Json.depth] at hdepth
          exact hready _ (Nat.le_trans (Json.depthFields_le.mp (Nat.le_refl _) entry hentry)
            (Nat.le_of_succ_le hdepth))
        · cases heq
          obtain rfl := List.mem_singleton.mp hentry
          exact ⟨_, ready_leaf (fun _ h => Json.noConfusion h) fun _ h => Json.noConfusion h⟩
        · cases heq
      have hentries : ∀ entry ∈ props, ∃ entry', Computes (fun n =>
          (sanitizeGeminiSchema floatText n entry.2).map (Prod.mk entry.1)) entry' := by
        intro entry hentry
        obtain ⟨w, hw⟩ := hprops entry hentry
        exact ⟨_, hw.option_map⟩
      obtain ⟨props', hprops'⟩ := exists_computes_mapM hentries
      exact ⟨_, hprops'.option_map⟩
    | _ => exact ⟨_, computes_const⟩
  · exact hself
  · cases value with
    | arr items =>
      have hitems : ∀ item ∈ items, Ready floatText item := by
        intro item hitem
        rcases h with hdepth | heq | ⟨items', heq, hitems⟩
        · rw [Json.depth] at hdepth
          exact hready _ (Nat.le_trans (Json.depthList_le.mp (Nat.le_refl _) item hitem)
            (Nat.le_of_succ_le hdepth))
        · cases heq
        · cases heq
          exact hready item (hitems item hitem)
      obtain ⟨items', hitems'⟩ := exists_computes_mapM hitems
      exact ⟨_, hitems'.option_map⟩
    | _ => exact ⟨_, computes_const⟩

theorem exists_computes_level (hready : ∀ v : Json, v.depth ≤ d → Ready floatText v)
    (hmap : Json.depthFields map ≤ d) :
    ∃ map', Computes (fun n => updateEntries
      (sanitizeKeyword (sanitizeGeminiSchema floatText n)) visitedKeywords
        (sanitizeLevel floatText map)) map' := by
  apply exists_computes_updateEntries nodup_visitedKeywords
  intro key hkey value hvalue
  exact (shallow_sanitizeLevel hmap hkey hvalue).exists_computes hready key

theorem ready_of_depth (d : ℕ) : ∀ v : Json, v.depth ≤ d → Ready floatText v := by
  induction d with
  | zero =>
    intro v hv
    cases v with
    | arr items => simp [Json.depth] at hv
    | obj map => simp [Json.depth] at hv
    | _ => exact ⟨_, ready_leaf (fun _ h => Json.noConfusion h) fun _ h => Json.noConfusion h⟩
  | succ d ih =>
    intro v hv
    cases v with
    | arr items =>
      rw [Json.depth, Nat.succ_le_succ_iff, Json.depthList_le] at hv
      exact ready_arr fun item hitem => ih item (hv item hitem)
    | obj map =>
      rw [Json.depth, Nat.succ_le_succ_iff] at hv
      obtain ⟨map', hmap'⟩ := exists_computes_level ih hv
      have hbody : Computes (fun n => sanitizeGeminiSchema floatText (n + 1) (.obj map))
          (.obj map') := by
        simp only [sanitizeGeminiSchema_obj]
        exact hmap'.option_map
      exact ⟨_, Computes.succ (x := fun n => sanitizeGeminiSchema floatText n (.obj map)) hbody rfl⟩
    | _ => exact ⟨_, ready_leaf (fun _ h => Json.noConfusion h) fun _ h => Json.noConfusion h⟩

/-- The schema that comes out. -/
noncomputable def sanitized (floatText : FiniteF64 → String) (v : Json) : Json :=
  Classical.choose (ready_of_depth v.depth v (Nat.le_refl _) : Ready floatText v)

theorem computes_sanitized (v : Json) :
    Computes (fun n => sanitizeGeminiSchema floatText n v) (sanitized floatText v) :=
  Classical.choose_spec (ready_of_depth v.depth v (Nat.le_refl _))

theorem sanitized_eq {n : ℕ} {v w : Json} (h : sanitizeGeminiSchema floatText n v = some w) :
    sanitized floatText v = w :=
  ((computes_sanitized v).unique h).symm

theorem sanitized_leaf {v : Json} (harr : ∀ items, v ≠ .arr items) (hobj : ∀ map, v ≠ .obj map) :
    sanitized floatText v = v :=
  (ready_leaf harr hobj).eq (computes_sanitized v)

theorem sanitized_arr (items : List Json) :
    sanitized floatText (.arr items) = .arr (items.map (sanitized floatText)) := by
  have hitems : Computes (fun n => items.mapM (sanitizeGeminiSchema floatText n))
      (items.map (sanitized floatText)) := Computes.mapM fun item _ => computes_sanitized item
  have hbody : Computes (fun n => sanitizeGeminiSchema floatText (n + 1) (.arr items))
      (.arr (items.map (sanitized floatText))) := hitems.option_map
  exact (hbody.succ rfl).eq (computes_sanitized _)

/-- The value of a keyword with the schemas in it sanitized. -/
noncomputable def sanitizedKeyword (floatText : FiniteF64 → String) (key : String)
    (value : Json) : Json :=
  match value with
  | .obj props =>
    if key ∈ namedKeywords then .obj (props.map fun entry => (entry.1, sanitized floatText entry.2))
    else if key ∈ schemaKeywords then sanitized floatText (.obj props) else .obj props
  | .arr items =>
    if key ∈ namedKeywords then .arr items else .arr (items.map (sanitized floatText))
  | value => value

theorem mapM_sanitized {n : ℕ} {items items' : List Json}
    (h : items.mapM (sanitizeGeminiSchema floatText n) = some items') :
    items.map (sanitized floatText) = items' := by
  rw [← List.forall₂_eq_eq_eq, List.forall₂_map_left_iff]
  exact (forall₂_of_mapM_some h).imp fun _ _ => sanitized_eq

theorem mapM_sanitizedEntries {n : ℕ} {props props' : Fields}
    (h : props.mapM (fun entry => (sanitizeGeminiSchema floatText n entry.2).map
      (Prod.mk entry.1)) = some props') :
    props.map (fun entry => (entry.1, sanitized floatText entry.2)) = props' := by
  rw [← List.forall₂_eq_eq_eq, List.forall₂_map_left_iff]
  refine (forall₂_of_mapM_some h).imp fun entry entry' hentry => ?_
  obtain ⟨value, hvalue, rfl⟩ := Option.map_eq_some_iff.mp hentry
  rw [sanitized_eq hvalue]

theorem sanitizedKeyword_eq {n : ℕ} {value' : Json}
    (h : sanitizeKeyword (sanitizeGeminiSchema floatText n) key value = some value') :
    sanitizedKeyword floatText key value = value' := by
  unfold sanitizeKeyword at h
  unfold sanitizedKeyword
  split_ifs at h with hnamed hschema
  · cases value with
    | obj props =>
      obtain ⟨props', hprops', rfl⟩ := Option.map_eq_some_iff.mp h
      simp only [hnamed, if_true, mapM_sanitizedEntries hprops']
    | arr items =>
      simp only [hnamed, if_true]
      exact Option.some.inj h
    | _ => exact Option.some.inj h
  · cases value with
    | obj props => simp only [hnamed, hschema, if_true, if_false, sanitized_eq h]
    | arr items => simp only [hnamed, if_false, ← sanitized_arr, sanitized_eq h]
    | _ =>
      rw [← sanitized_eq h]
      exact (sanitized_leaf (fun _ h => Json.noConfusion h) fun _ h => Json.noConfusion h).symm
  · cases value with
    | obj props =>
      simp only [hnamed, hschema, if_false]
      exact Option.some.inj h
    | arr items =>
      obtain ⟨items', hitems', rfl⟩ := Option.map_eq_some_iff.mp h
      simp only [hnamed, if_false, mapM_sanitized hitems']
    | _ => exact Option.some.inj h

/-- What comes out of an object has the rewritten level, with the schemas in it sanitized. -/
theorem exists_sanitized_obj (map : Fields) :
    ∃ map', sanitized floatText (.obj map) = .obj map' ∧
      (∀ key ∈ visitedKeywords, map'.lookup key =
        ((sanitizeLevel floatText map).lookup key).map (sanitizedKeyword floatText key)) ∧
      ∀ key ∉ visitedKeywords, map'.lookup key = (sanitizeLevel floatText map).lookup key := by
  have hcomputes : Computes (fun n => sanitizeGeminiSchema floatText n (.obj map))
      (sanitized floatText (.obj map)) := computes_sanitized (.obj map)
  obtain ⟨n, hn⟩ := hcomputes.1
  have hn : sanitizeGeminiSchema floatText (n + 1) (.obj map) =
      some (sanitized floatText (.obj map)) := hn (n + 1) (Nat.le_succ n)
  rw [sanitizeGeminiSchema_obj] at hn
  obtain ⟨map', hmap', heq⟩ := Option.map_eq_some_iff.mp hn
  refine ⟨map', heq.symm, fun key hkey => ?_, fun key hkey => ?_⟩
  · have hentry : hasEntry map' key = hasEntry (sanitizeLevel floatText map) key :=
      hasEntry_updateEntries nodup_visitedKeywords hmap'
    rw [hasEntry, hasEntry] at hentry
    rw [lookup_updateEntries nodup_visitedKeywords hmap', if_pos hkey] at hentry ⊢
    cases hvalue : (sanitizeLevel floatText map).lookup key with
    | none => rfl
    | some value =>
      rw [hvalue, Option.bind_some, Option.isSome_some] at hentry
      obtain ⟨value', hvalue'⟩ := Option.isSome_iff_exists.mp hentry
      rw [Option.bind_some, hvalue', Option.map_some, sanitizedKeyword_eq hvalue']
  · rw [lookup_updateEntries nodup_visitedKeywords hmap', if_neg hkey]

end GeminiSchema

end HeliosLite
