import HeliosLite.Storage.ReloadMessage

/-!
# What is read back of a context

A context comes back with its messages and tools reloaded and without its response
format. Metrics come back without their todos, and rows without accessed files get the
files that were read.

## Main definitions

* `Context.reloaded`, `Metrics.reloaded` — what comes back

## Main results

* `ContextRecord.deserialize_reparsed`, `ContextRecord.tryInto_from` — a context
* `MetricsRecord.deserialize_reparsed`, `MetricsRecord.into_from` — metrics
* `MetricsRecord.deserialize_domain` — metrics written without their record are refused
-/

namespace HeliosLite

open Serde Serde.Json

/-- What is read back of stored metrics. -/
def Metrics.reloaded (metrics : Metrics) : Metrics :=
  { metrics with
    filesAccessed :=
      if metrics.filesAccessed.isEmpty then filesRead metrics.fileOperations
      else metrics.filesAccessed
    todos := [] }

theorem MetricsRecord.into_from (metrics : Metrics) :
    (MetricsRecord.from metrics).into = metrics.reloaded := by
  have hoperations : ((MetricsRecord.from metrics).filesChanged.filterMap
      fun _ file => file.operation) = metrics.fileOperations := by
    apply StringMap.ext
    simp [MetricsRecord.from, StringMap.filterMap, FileOperationOrArray.operation,
      FileChangeMetricsRecord.into, FileChangeMetricsRecord.from]
  rw [into, hoperations]
  rfl

/-- A map is read back if its values are. -/
theorem mapOf_reparsed [JsonText] {α : Type} {encode : α → Json} {decode : Json → Option α}
    (m : StringMap α) (h : ∀ p ∈ m.entries, decode (encode p.2).reparsed = some p.2) :
    mapOf decode (serializeMap encode m).reparsed = some m := by
  have hentries : ∀ entries : List (String × α),
      (∀ p ∈ entries, decode (encode p.2).reparsed = some p.2) →
      (entries.map fun p => (p.1, (encode p.2).reparsed)).mapM
        (fun p => (decode p.2).map fun a => (p.1, a)) = some entries := by
    intro entries
    induction entries with
    | nil => exact fun _ => rfl
    | cons p entries ih =>
      intro hp
      rw [List.map_cons, List.mapM_cons, hp p List.mem_cons_self,
        ih fun q hq => hp q (List.mem_cons_of_mem _ hq)]
      rfl
  have hobj : (serializeMap encode m).reparsed
      = .obj (m.entries.map fun p => (p.1, (encode p.2).reparsed)) := by
    rw [serializeMap, reparsed, mapFloat, mapFloatFields_eq_map, List.map_map]
    rfl
  rw [hobj, mapOf, hentries m.entries h]
  exact congrArg some (StringMap.ofEntries_entries m)

/-! ### Depth of metrics -/

theorem depth_serializeMap_le {α : Type} {encode : α → Json} {n : ℕ} {m : StringMap α}
    (h : ∀ p ∈ m.entries, (encode p.2).depth ≤ n) : (serializeMap encode m).depth ≤ n + 1 := by
  rw [serializeMap, depth]
  apply Nat.succ_le_succ
  apply depthFields_le.mpr
  intro p hp
  obtain ⟨q, hq, rfl⟩ := List.mem_map.mp hp
  exact h q hq

theorem depth_serializeSet_le (s : StringSet) : (serializeSet s).depth ≤ 1 := by
  rw [serializeSet, depth]
  apply Nat.succ_le_succ
  apply depthList_le.mpr
  intro v hv
  obtain ⟨p, -, rfl⟩ := List.mem_map.mp hv
  exact le_rfl

theorem depth_map_le {α : Type} {encode : α → Json} {n : ℕ} (h : ∀ a, (encode a).depth ≤ n)
    (x : Option α) : ∀ v ∈ x.map encode, v.depth ≤ n := by
  intro v hv
  obtain ⟨a, -, rfl⟩ := Option.map_eq_some_iff.mp hv
  exact h a

theorem depth_nullable_le {n : ℕ} {v : Option Json} (h : ∀ w ∈ v, w.depth ≤ n) :
    (nullable v).depth ≤ n := by
  cases v with
  | none => exact Nat.zero_le n
  | some w => exact h w rfl

theorem FileChangeMetricsRecord.depth_serialize (r : FileChangeMetricsRecord) :
    r.serialize.depth ≤ 1 := by
  have htool : ∀ tool : ToolKind, tool.serialize.depth ≤ 0 := by
    intro tool
    cases tool <;> exact le_rfl
  apply depth_record_le
  simp only [List.forall_mem_cons]
  refine ⟨?_, ?_, ?_, ?_, by simp⟩
  · exact fun v hv => Option.mem_some_iff.mp hv ▸ le_rfl
  · exact fun v hv => Option.mem_some_iff.mp hv ▸ le_rfl
  · exact depth_map_le (fun s => (Nat.zero_le 0 : (Json.str s).depth ≤ 0)) _
  · exact depth_map_le htool _

variable [Libraries]

/-! ### Tools and sampling -/

def ToolDefinitionRecord.reloaded (r : ToolDefinitionRecord) : ToolDefinitionRecord :=
  { r with inputSchema := r.inputSchema.reloaded }

theorem ToolDefinitionRecord.deserialize_reparsed (r : ToolDefinitionRecord) :
    ToolDefinitionRecord.deserialize r.serialize.reparsed = some r.reloaded := by
  simp [deserialize, serialize, structFields_reparsed, required_parsed, List.lookup_cons,
    anyValue_reparsed, ToolDefinitionRecord.reloaded]

@[simp] theorem ToolChoice.deserialize_reparsed (choice : ToolChoice) :
    ToolChoice.deserialize choice.serialize.reparsed = some choice := by
  cases choice with
  | call name =>
    rw [serialize, deserialize, tagged_reparsed]
    rfl
  | none | auto | required => rfl

@[simp] theorem Effort.deserialize_reparsed (effort : Effort) :
    Effort.deserialize effort.serialize.reparsed = some effort := by
  cases effort <;> rfl

@[simp] theorem ReasoningConfig.deserialize_reparsed (config : ReasoningConfig) :
    ReasoningConfig.deserialize config.serialize.reparsed = some config := by
  have heffort : readOption Effort.deserialize (config.effort.map (reparsed ∘ Effort.serialize))
      = some config.effort := by
    rw [readOption_map (f := id) _ (fun effort _ => effort.deserialize_reparsed), Option.map_id,
      id]
    intro effort
    cases effort <;> nofun
  simp [deserialize, serialize, structFields_reparsed, optional_parsed, List.lookup_cons, heffort]

/-! ### Contexts -/

namespace ContextRecord

def reloaded (r : ContextRecord) : ContextRecord :=
  { r with
    messages := r.messages.map ContextMessageRecord.reloaded
    tools := r.tools.map ToolDefinitionRecord.reloaded
    temperature := r.temperature.bind rereadF32
    topP := r.topP.bind rereadF32 }

theorem deserialize_nonEmpty {α β : Type} {encode : α → Json} {decode : Json → Option β}
    {f : α → β} (xs : List α) (h : ∀ x ∈ xs, decode (encode x).reparsed = some (f x)) :
    ((nonEmpty (xs.map encode)).map fun v => listOf decode v.reparsed).getD (some [])
      = some (xs.map f) := by
  cases xs with
  | nil => rfl
  | cons x xs => exact listOf_reparsed (x :: xs) h

/-- The JSON of a context with the given JSON for its messages. -/
def serializeWith (r : ContextRecord) (messages : List Json) : Json :=
  record
    [("conversation_id", r.conversationId.map .str),
      ("initiator", r.initiator.map .str),
      ("messages", nonEmpty messages),
      ("tools", nonEmpty (r.tools.map ToolDefinitionRecord.serialize)),
      ("tool_choice", r.toolChoice.map ToolChoice.serialize),
      ("max_tokens", r.maxTokens.map ofU64),
      ("temperature", r.temperature.map ofF32),
      ("top_p", r.topP.map ofF32),
      ("top_k", r.topK.map ofU32),
      ("reasoning", r.reasoning.map ReasoningConfig.serialize),
      ("stream", r.stream.map .bool)]

/-- A context is read back if its messages are. -/
theorem deserialize_serializeWith (r : ContextRecord) {messages : List Json}
    (hmessages : ((nonEmpty messages).map fun v =>
      listOf ContextMessageRecord.deserialize v.reparsed).getD (some [])
        = some (r.messages.map ContextMessageRecord.reloaded)) :
    deserialize (r.serializeWith messages).reparsed = some r.reloaded := by
  have htools := deserialize_nonEmpty r.tools fun tool _ => tool.deserialize_reparsed
  have hchoice : readOption ToolChoice.deserialize
      (r.toolChoice.map (reparsed ∘ ToolChoice.serialize)) = some r.toolChoice := by
    rw [readOption_map (f := id) _ (fun choice _ => choice.deserialize_reparsed), Option.map_id,
      id]
    intro choice
    cases choice <;> nofun
  have hreasoning : readOption ReasoningConfig.deserialize
      (r.reasoning.map (reparsed ∘ ReasoningConfig.serialize)) = some r.reasoning := by
    rw [readOption_map (f := id) _ (fun config _ => config.deserialize_reparsed), Option.map_id,
      id]
    exact fun config => reparsed_record_ne_null _
  simp [deserialize, serializeWith, structFields_reparsed, optional_parsed, defaulted_parsed,
    List.lookup_cons, hmessages, htools, hchoice, hreasoning, ContextRecord.reloaded]

/-- The record of a context is read back from its text. -/
theorem deserialize_reparsed (r : ContextRecord)
    (h : ∀ message ∈ r.messages, message.message.RawContentReads) :
    deserialize r.serialize.reparsed = some r.reloaded :=
  r.deserialize_serializeWith (deserialize_nonEmpty r.messages fun message hmem =>
    message.deserialize_reparsed (h message hmem))

end ContextRecord

/-! ### Contexts of the domain -/

theorem isSchema_reparsed (v : Json) : isSchema v.reparsed = isSchema v := by
  cases v <;> rfl

def Schema.reloaded (schema : Schema) : Schema :=
  { value := schema.value.reloaded
    shape := (isSchema_reparsed _).trans schema.shape }

def ToolDefinition.reloaded (definition : ToolDefinition) : ToolDefinition :=
  { definition with inputSchema := definition.inputSchema.reloaded }

/-- What is read back of a stored context. -/
def Context.reloaded (context : Context) : Context :=
  { context with
    messages := context.messages.map MessageEntry.reloaded
    tools := context.tools.map ToolDefinition.reloaded
    temperature := context.temperature.bind rereadF32
    topP := context.topP.bind rereadF32
    responseFormat := none }

theorem ToolDefinitionRecord.tryInto_from (definition : ToolDefinition) :
    (ToolDefinitionRecord.from definition).reloaded.tryInto = some definition.reloaded := by
  have hschema : Schema.ofValue definition.inputSchema.value.reloaded
      = some definition.inputSchema.reloaded :=
    dif_pos definition.inputSchema.reloaded.shape
  rw [tryInto, ToolDefinitionRecord.reloaded, ToolDefinitionRecord.from, hschema]
  rfl

/-- A context comes back as `Context.reloaded` says. -/
theorem ContextRecord.tryInto_from (context : Context) :
    (ContextRecord.from context).reloaded.tryInto = some context.reloaded := by
  have hmessages : context.messages.mapM (ContextMessageRecord.tryInto ∘
      ContextMessageRecord.reloaded ∘ ContextMessageRecord.from)
      = some (context.messages.map MessageEntry.reloaded) :=
    mapM_some ContextMessageRecord.tryInto_from _
  have htools : context.tools.mapM (ToolDefinitionRecord.tryInto ∘
      ToolDefinitionRecord.reloaded ∘ ToolDefinitionRecord.from)
      = some (context.tools.map ToolDefinition.reloaded) :=
    mapM_some ToolDefinitionRecord.tryInto_from _
  cases hid : context.conversationId <;>
    simp [tryInto, ContextRecord.reloaded, ContextRecord.from, Context.reloaded, hid, hmessages,
      htools]

theorem ContextRecord.rawContentReads_from (context : Context) :
    ∀ message ∈ (ContextRecord.from context).messages, message.message.RawContentReads := by
  intro message hmem
  obtain ⟨entry, -, rfl⟩ := List.mem_map.mp hmem
  exact ContextMessageValueRecord.rawContentReads_from entry.message

/-- The text of a context is read back as `Context.reloaded` says. -/
theorem Context.read_serialize (context : Context) :
    (ContextRecord.deserialize (ContextRecord.from context).serialize.reparsed).bind
      ContextRecord.tryInto = some context.reloaded := by
  rw [ContextRecord.deserialize_reparsed _ (ContextRecord.rawContentReads_from context),
    Option.bind_some, ContextRecord.tryInto_from]

/-! ### Metrics -/

@[simp] theorem ToolKind.deserialize_reparsed (tool : ToolKind) :
    ToolKind.deserialize tool.serialize.reparsed = some tool := by
  cases tool <;> rfl

@[simp] theorem FileChangeMetricsRecord.deserialize_reparsed (r : FileChangeMetricsRecord) :
    FileChangeMetricsRecord.deserialize r.serialize.reparsed = some r := by
  have htool : readOption ToolKind.deserialize (r.tool.map (reparsed ∘ ToolKind.serialize))
      = some r.tool := by
    rw [readOption_map (f := id) _ (fun tool _ => tool.deserialize_reparsed), Option.map_id, id]
    intro tool
    cases tool <;> nofun
  simp [deserialize, serialize, structFields_reparsed, required_parsed, optional_parsed,
    List.lookup_cons, htool]

theorem setOf_reparsed (s : StringSet) : setOf (serializeSet s).reparsed = some s := by
  have hitems : listOf string (Json.arr (s.entries.map fun p => .str p.1)).reparsed
      = some (s.entries.map fun p => p.1) :=
    listOf_reparsed s.entries fun _ _ => rfl
  rw [setOf, serializeSet, hitems, Option.map_some, List.map_map]
  have hid : s.entries.map ((fun x => (x, ())) ∘ fun p => p.1) = s.entries :=
    List.map_id _
  rw [hid, StringMap.ofEntries_entries]

namespace MetricsRecord

/-- The record of metrics is read back from its text. -/
theorem deserialize_reparsed (r : MetricsRecord)
    (h : ∀ p ∈ r.filesChanged.entries, ∃ operation, p.2 = .single operation) :
    deserialize r.serialize.reparsed = some r := by
  have hstarted : readOption time
      (some (nullable (r.startedAt.map fun t => .str (Libraries.jsonTime t))).reparsed)
      = some r.startedAt := by
    cases r.startedAt with
    | none => rfl
    | some t => exact congrArg (Option.map some) (Libraries.parseJsonTime_jsonTime t)
  have hchanged : mapOf FileOperationOrArray.deserialize
      (serializeMap FileOperationOrArray.serialize r.filesChanged).reparsed
      = some r.filesChanged := by
    apply mapOf_reparsed
    intro p hp
    obtain ⟨operation, hop⟩ := h p hp
    rw [hop, FileOperationOrArray.serialize, FileOperationOrArray.deserialize,
      operation.deserialize_reparsed]
  have haccessed : ((if r.filesAccessed.isEmpty then none
      else some (serializeSet r.filesAccessed)).map fun v => setOf v.reparsed).getD
        (some StringMap.empty) = some r.filesAccessed := by
    split_ifs with hempty
    · rw [StringMap.isEmpty_iff.mp hempty]
      rfl
    · exact setOf_reparsed r.filesAccessed
  simp [deserialize, serialize, structFields_reparsed, required_parsed, optional_parsed,
    defaulted_parsed, List.lookup_cons, hstarted, hchanged, haccessed]

/-- Metrics that were written without their record lack the changed files. -/
theorem deserialize_domain (metrics : Metrics) :
    deserialize metrics.serialize.reparsed = none := by
  simp [deserialize, Metrics.serialize, structFields_reparsed, required_parsed, List.lookup_cons]

end MetricsRecord

/-- Metrics nest only a few levels deep. -/
theorem Metrics.depth_serialize_from (metrics : Metrics) :
    (MetricsRecord.from metrics).serialize.depth ≤ 3 := by
  apply Json.depth_record_le
  simp only [List.forall_mem_cons]
  refine ⟨?_, ?_, ?_, by simp⟩
  · intro v hv
    obtain rfl := Option.mem_some_iff.mp hv
    exact depth_nullable_le (depth_map_le (fun _ => Nat.zero_le 2) _)
  · intro v hv
    obtain rfl := Option.mem_some_iff.mp hv
    apply depth_serializeMap_le
    intro p hp
    obtain ⟨q, -, hq⟩ := List.mem_filterMap.mp hp
    obtain ⟨file, hfile, rfl⟩ := Option.map_eq_some_iff.mp hq
    obtain rfl := Option.some.inj hfile
    exact FileChangeMetricsRecord.depth_serialize _
  · intro v hv
    split_ifs at hv with hempty
    · cases hv
    · obtain rfl := Option.mem_some_iff.mp hv
      exact (depth_serializeSet_le _).trans (by decide)

/-- The text of metrics is read back as `Metrics.reloaded` says. -/
theorem Metrics.read_serialize (metrics : Metrics) :
    (MetricsRecord.deserialize (MetricsRecord.from metrics).serialize.reparsed).map
      MetricsRecord.into = some metrics.reloaded := by
  rw [MetricsRecord.deserialize_reparsed, Option.map_some, MetricsRecord.into_from]
  intro p hp
  obtain ⟨q, -, hq⟩ := List.mem_filterMap.mp hp
  obtain ⟨file, hfile, rfl⟩ := Option.map_eq_some_iff.mp hq
  exact ⟨_, (Option.some.inj hfile).symm⟩

end HeliosLite
