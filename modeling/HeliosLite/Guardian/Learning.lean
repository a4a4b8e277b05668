import HeliosLite.Orchestration.ToolCalls
import HeliosLite.Serde.JsonLines
import HeliosLite.Serde.Record
import HeliosLite.Theory.Lines
import HeliosLite.Theory.Run

/-!
# The learning store of the guardian

Decisions are kept in an index in memory and in an append-only file with one decision on each
line. A call that finds its key in the index changes the index only, also when it changes the
permission, so that a store which is opened again has the permissions that were recorded first.

## Main definitions

* `LearnedDecision` — a decision, with its JSON
* `LearningStore` — the index and the file
* `LearningStore.openStore`, `LearningStore.record` — the operations
* `ReloadsAlike` — the file gives the permissions of the live store

## Main results

* `deserialize_serialize` — what is read back of a decision
* `run_reloadsAlike_iff` — which histories of calls can be reloaded at every point
-/

namespace HeliosLite

open Serde Serde.Json Theory

/-! ### Decisions -/

inductive LearnedPermission where
  | allow
  | deny
  | confirm
  deriving DecidableEq, Repr

inductive RiskLevel where
  | low
  | medium
  | high
  deriving DecidableEq, Repr

inductive RiskLabel where
  | writeOutsideWorkspace
  | mutateTrackedFile
  | destructiveCommand
  | sensitivePath
  | networkFetch
  | sensitiveRead
  | expiredGrant
  deriving DecidableEq, Repr

structure RiskFactor where
  label : RiskLabel
  weight : F64
  deriving DecidableEq, Repr

/-- A decision bound to the key of an operation and its target. -/
structure LearnedDecision where
  key : String
  overridePermission : LearnedPermission
  strength : UInt32
  reason : Option String
  riskLevel : Option RiskLevel
  factors : List RiskFactor
  deriving DecidableEq, Repr

/-! ### The JSON of a decision -/

namespace LearnedPermission

def serialize : LearnedPermission → Json
  | allow => .str "Allow"
  | deny => .str "Deny"
  | confirm => .str "Confirm"

def deserialize : Json → Option LearnedPermission :=
  tagged
    [("Allow", unitCase allow), ("Deny", unitCase deny), ("Confirm", unitCase confirm)]

end LearnedPermission

namespace RiskLevel

def serialize : RiskLevel → Json
  | low => .str "low"
  | medium => .str "medium"
  | high => .str "high"

def deserialize : Json → Option RiskLevel :=
  tagged [("low", unitCase low), ("medium", unitCase medium), ("high", unitCase high)]

end RiskLevel

namespace RiskLabel

def serialize : RiskLabel → Json
  | writeOutsideWorkspace => .str "write_outside_workspace"
  | mutateTrackedFile => .str "mutate_tracked_file"
  | destructiveCommand => .str "destructive_command"
  | sensitivePath => .str "sensitive_path"
  | networkFetch => .str "network_fetch"
  | sensitiveRead => .str "sensitive_read"
  | expiredGrant => .str "expired_grant"

def deserialize : Json → Option RiskLabel :=
  tagged
    [("write_outside_workspace", unitCase writeOutsideWorkspace),
      ("mutate_tracked_file", unitCase mutateTrackedFile),
      ("destructive_command", unitCase destructiveCommand),
      ("sensitive_path", unitCase sensitivePath), ("network_fetch", unitCase networkFetch),
      ("sensitive_read", unitCase sensitiveRead), ("expired_grant", unitCase expiredGrant)]

end RiskLabel

namespace RiskFactor

def serialize (f : RiskFactor) : Json :=
  record [("label", some f.label.serialize), ("weight", some (ofF64 f.weight))]

def deserialize [JsonText] (v : Json) : Option RiskFactor := do
  let fields ← structFields ["label", "weight"] 0 v
  let label ← required RiskLabel.deserialize fields "label"
  let weight ← required f64 fields "weight"
  some { label, weight }

/-- The factor that is read back; a weight that is not finite is lost, and the factor with it. -/
def reloaded [JsonText] (f : RiskFactor) : Option RiskFactor :=
  (rereadF64 f.weight).map fun weight => { f with weight }

end RiskFactor

namespace LearnedDecision

/-- The fields of a line. -/
def fields (d : LearnedDecision) : List (String × Option Json) :=
  [("key", some (.str d.key)), ("override_permission", some d.overridePermission.serialize),
    ("strength", some (ofU32 d.strength)), ("reason", some (nullable (d.reason.map .str))),
    ("risk_level", some (nullable (d.riskLevel.map RiskLevel.serialize))),
    ("factors", some (.arr (d.factors.map RiskFactor.serialize)))]

def serialize (d : LearnedDecision) : Json := record d.fields

def deserialize [JsonText] (v : Json) : Option LearnedDecision := do
  let fields ← structFields
    ["key", "override_permission", "strength", "reason", "risk_level", "factors"] 0 v
  let key ← required string fields "key"
  let overridePermission ← required LearnedPermission.deserialize fields "override_permission"
  let strength ← required u32 fields "strength"
  let reason ← optional string fields "reason"
  let riskLevel ← optional RiskLevel.deserialize fields "risk_level"
  let factors ← required (listOf RiskFactor.deserialize) fields "factors"
  some { key, overridePermission, strength, reason, riskLevel, factors }

/-- The decision that is read back. -/
def reloaded [JsonText] (d : LearnedDecision) : Option LearnedDecision :=
  (d.factors.mapM RiskFactor.reloaded).map fun factors => { d with factors }

end LearnedDecision

section Json

variable [JsonText]

theorem LearnedPermission.deserialize_reparsed (p : LearnedPermission) :
    deserialize p.serialize.reparsed = some p := by
  cases p <;> rfl

theorem RiskLevel.deserialize_reparsed (l : RiskLevel) :
    deserialize l.serialize.reparsed = some l := by
  cases l <;> rfl

theorem RiskLabel.deserialize_reparsed (l : RiskLabel) :
    deserialize l.serialize.reparsed = some l := by
  cases l <;> rfl

theorem f64_ofF64_reparsed (x : F64) : f64 (ofF64 x).reparsed = rereadF64 x := by
  rw [ofF64, rereadF64]
  split_ifs <;> rfl

theorem RiskFactor.deserialize_reparsed (f : RiskFactor) :
    deserialize f.serialize.reparsed = f.reloaded := by
  simp [deserialize, serialize, structFields_reparsed, required_parsed, List.lookup_cons,
    RiskLabel.deserialize_reparsed, f64_ofF64_reparsed, reloaded, Option.map_eq_bind,
    Function.comp_def]

/-- A list is read item by item. -/
theorem listOf_reparsed_mapM {α β : Type} {encode : α → Json} {decode : Json → Option β}
    {f : α → Option β} (h : ∀ x, decode (encode x).reparsed = f x) (xs : List α) :
    listOf decode (Json.arr (xs.map encode)).reparsed = xs.mapM f := by
  rw [reparsed_arr, listOf, List.map_map, List.mapM_map]
  congr 1
  funext x
  exact h x

omit [JsonText] in
theorem LearnedDecision.nodup_fields (d : LearnedDecision) : (d.fields.map Prod.fst).Nodup := by
  have hnames : ["key", "override_permission", "strength", "reason", "risk_level",
    "factors"].Nodup := by decide
  exact hnames

theorem LearnedDecision.deserialize_serialize (d : LearnedDecision) :
    deserialize d.serialize.reparsed = d.reloaded := by
  have hkey : required string (parsedFields d.fields) "key" = some d.key := by
    rw [required_parsed d.nodup_fields]
    rfl
  have hpermission : required LearnedPermission.deserialize (parsedFields d.fields)
      "override_permission" = some d.overridePermission := by
    rw [required_parsed d.nodup_fields]
    exact d.overridePermission.deserialize_reparsed
  have hstrength : required u32 (parsedFields d.fields) "strength" = some d.strength := by
    have hlookup : d.fields.lookup "strength" = some (some (ofU32 d.strength)) := rfl
    rw [required_parsed d.nodup_fields, hlookup, Option.join_some, Option.bind_some,
      reparsed_ofU32, u32_ofU32]
  have hreason : optional string (parsedFields d.fields) "reason" = some (d.reason.map id) := by
    rw [optional_parsed d.nodup_fields]
    exact readOption_nullable d.reason rfl (fun _ _ => rfl) nofun
  have hlevel : optional RiskLevel.deserialize (parsedFields d.fields) "risk_level" =
      some (d.riskLevel.map id) := by
    rw [optional_parsed d.nodup_fields]
    exact readOption_nullable d.riskLevel rfl (fun l _ => l.deserialize_reparsed)
      (by rintro ⟨⟩ <;> nofun)
  have hfactors : required (listOf RiskFactor.deserialize) (parsedFields d.fields) "factors" =
      d.factors.mapM RiskFactor.reloaded := by
    rw [required_parsed d.nodup_fields]
    exact listOf_reparsed_mapM RiskFactor.deserialize_reparsed d.factors
  rw [reloaded, deserialize, serialize, structFields_reparsed]
  simp only [Option.bind_eq_bind, Option.bind_some, hkey, hpermission, hstrength, hreason, hlevel,
    hfactors, Option.map_id, id]
  cases d.factors.mapM RiskFactor.reloaded <;> rfl

/-- A decision is read back if its weights are finite. -/
theorem LearnedDecision.isSome_reloaded (d : LearnedDecision) :
    d.reloaded.isSome ↔ ∀ f ∈ d.factors, f.weight.isFinite := by
  rw [reloaded, Option.isSome_map]
  induction d.factors with
  | nil => simp
  | cons f fs ih =>
    rw [List.mapM_cons, List.forall_mem_cons, ← ih]
    by_cases hfinite : f.weight.isFinite
    · cases fs.mapM RiskFactor.reloaded <;> simp [RiskFactor.reloaded, rereadF64, hfinite]
    · simp [RiskFactor.reloaded, rereadF64, hfinite]

omit [JsonText] in
theorem LearnedDecision.depth_serialize (d : LearnedDecision) :
    d.serialize.depth ≤ recursionLimit := by
  have hfactor : ∀ f : RiskFactor, f.serialize.depth ≤ 1 := by
    intro f
    apply depth_record_le
    simp only [List.forall_mem_cons, Option.mem_def, Option.some.injEq, forall_eq']
    refine ⟨?_, ?_, fun _ h => by cases h⟩
    · cases f.label <;> decide
    · rw [ofF64]
      split_ifs <;> exact Nat.zero_le _
  have hrecord : d.serialize.depth ≤ 2 + 1 := by
    apply depth_record_le
    simp only [fields, List.forall_mem_cons, Option.mem_def, Option.some.injEq, forall_eq']
    refine ⟨Nat.zero_le _, ?_, Nat.zero_le _, ?_, ?_, ?_, fun _ h => by cases h⟩
    · cases d.overridePermission <;> decide
    · cases d.reason <;> exact Nat.zero_le _
    · cases d.riskLevel with
      | none => exact Nat.zero_le _
      | some level => cases level <;> decide
    · rw [depth]
      apply Nat.succ_le_succ
      apply depthList_le.mpr
      intro v hv
      obtain ⟨f, -, rfl⟩ := List.mem_map.mp hv
      exact hfactor f
  exact hrecord.trans (by decide)

end Json

/-! ### The store -/

/-- The errors of a store; a decision that cannot be parsed is named by its line. -/
inductive LearnError where
  | io
  | parse (line : ℕ)
  deriving DecidableEq, Repr

/-- The index in memory, and the file if it exists. -/
structure LearningStore where
  index : String → Option LearnedDecision
  file : Option (List Char)

/-- A call of `record`, and whether the file can be written when it is made. -/
structure RecordCall where
  key : String
  overridePermission : LearnedPermission
  reason : Option String
  riskLevel : Option RiskLevel
  factors : List RiskFactor
  writable : Bool

/-- The decision of a call on its own. -/
def RecordCall.fresh (c : RecordCall) : LearnedDecision :=
  { key := c.key
    overridePermission := c.overridePermission
    strength := 1
    reason := c.reason
    riskLevel := c.riskLevel
    factors := c.factors }

section Store

variable [JsonLines]

namespace LearningStore

/-- One line is read into the index, over an earlier one for the same key. -/
def loadLine (index : String → Option LearnedDecision) (number : ℕ) (line : List Char) :
    Except LearnError (String → Option LearnedDecision) :=
  let trimmed := trim (String.ofList (stripReturn line))
  if trimmed = "" then .ok index
  else
    match (fromText trimmed).bind LearnedDecision.deserialize with
    | some decision => .ok (Function.update index decision.key (some decision))
    | none => .error (.parse number)

/-- The lines from a number on. -/
def loadLines (index : String → Option LearnedDecision) :
    ℕ → List (List Char) → Except LearnError (String → Option LearnedDecision)
  | _, [] => .ok index
  | number, line :: ls => do
    let index ← loadLine index number line
    loadLines index (number + 1) ls

def loadEntries (text : List Char) : Except LearnError (String → Option LearnedDecision) :=
  loadLines (fun _ => none) 1 (lines '\n' text)

/-- A file that does not exist has no decisions. -/
def openStore (file : Option (List Char)) : Except LearnError LearningStore :=
  match file with
  | some text => (loadEntries text).map fun index => { index := index, file := file }
  | none => .ok { index := fun _ => none, file := none }

def appendLine (file : Option (List Char)) (decision : LearnedDecision) : List Char :=
  file.getD [] ++ (toText decision.serialize).toList ++ ['\n']

variable (s : LearningStore) (c : RecordCall)

/-- The decision that a call puts into the index. -/
def decision : LearnedDecision :=
  match s.index c.key with
  | some prev =>
    if prev.overridePermission = c.overridePermission then
      { prev with
        strength := prev.strength + 1
        reason := c.reason.or prev.reason
        riskLevel := c.riskLevel.or prev.riskLevel
        factors := if c.factors.isEmpty then prev.factors else c.factors }
    else c.fresh
  | none => c.fresh

/-- A decision is appended to the file only when its key is new. -/
def record : Except LearnError Unit × LearningStore :=
  let decision := s.decision c
  let index := Function.update s.index c.key (some decision)
  if (s.index c.key).isNone then
    if c.writable then (.ok (), { index := index, file := some (appendLine s.file decision) })
    else (.error .io, { s with index := index })
  else (.ok (), { s with index := index })

/-- The permission of a key. -/
def override (key : String) : Option LearnedPermission :=
  (s.index key).map (·.overridePermission)

end LearningStore

/-- What happens to a store: decisions are recorded, and it is dropped and opened again. -/
inductive LearningOp where
  | record (c : RecordCall)
  | reopen

namespace LearningStore

/-- A file that cannot be opened leaves the store as it was. -/
def step (s : LearningStore) : LearningOp → LearningStore
  | .record c => (s.record c).2
  | .reopen =>
    match openStore s.file with
    | .ok opened => opened
    | .error _ => s

/-- No decision is recorded yet. -/
def empty : LearningStore := { index := fun _ => none, file := none }

/-- A store that is opened from the file has the permissions of the live one. -/
def ReloadsAlike (s : LearningStore) : Prop :=
  ∃ opened, openStore s.file = .ok opened ∧ ∀ key, opened.override key = s.override key

/-- A call does not change the permission of a key that is known, and the decision of a new key
can be written to the file and read back. -/
def Keeps (s : LearningStore) : LearningOp → Prop
  | .record c =>
    match s.override c.key with
    | some permission => permission = c.overridePermission
    | none => c.writable = true ∧ ∀ f ∈ c.factors, f.weight.isFinite
  | .reopen => True

/-! ### The file -/

variable {s : LearningStore} {c : RecordCall} {index : String → Option LearnedDecision}

/-- The lines after some that were read. -/
theorem loadLines_append {ls : List (List Char)} {next : String → Option LearnedDecision}
    {number : ℕ} (h : loadLines index number ls = .ok next) (ms : List (List Char)) :
    loadLines index number (ls ++ ms) = loadLines next (number + ls.length) ms := by
  induction ls generalizing index number with
  | nil =>
    obtain rfl := Except.ok.inj h
    rfl
  | cons l ls ih =>
    rw [loadLines] at h
    rw [List.cons_append, loadLines]
    cases hline : loadLine index number l with
    | error e =>
      rw [hline] at h
      cases h
    | ok first =>
      rw [hline] at h
      change loadLines first (number + 1) (ls ++ ms) = _
      rw [ih h, List.length_cons, Nat.add_assoc, Nat.add_comm 1]

theorem loadLines_singleton (line : List Char) (number : ℕ) :
    loadLines index number [line] = loadLine index number line := by
  rw [loadLines]
  cases loadLine index number line <;> rfl

omit [JsonLines] in
/-- The text of an object has nothing to trim. -/
theorem trim_braces {text : String} (h : ∃ inner, text.toList = '{' :: inner ++ ['}']) :
    trim (String.ofList (stripReturn text.toList)) = text := by
  obtain ⟨inner, htext⟩ := h
  have hreturn : stripReturn text.toList = text.toList := by
    rw [stripReturn, htext, List.getLast?_concat, if_neg (by decide)]
  have hfront : text.toList.dropWhile isWhitespace = text.toList := by
    rw [htext]
    exact List.dropWhile_cons_of_neg (by decide)
  have hback : text.toList.rdropWhile isWhitespace = text.toList := by
    rw [htext]
    exact List.rdropWhile_concat_neg _ _ _ (by decide)
  rw [hreturn, trim, String.toList_ofList, hfront, hback, String.ofList_toList]

theorem loadLine_serialize (d : LearnedDecision) (number : ℕ) :
    loadLine index number (toText d.serialize).toList =
      match d.reloaded with
      | some reloaded => .ok (Function.update index reloaded.key (some reloaded))
      | none => .error (.parse number) := by
  have hbraces : ∃ inner, (toText d.serialize).toList = '{' :: inner ++ ['}'] :=
    JsonLines.toText_obj (present d.fields)
  have hne : toText d.serialize ≠ "" := by
    intro hempty
    obtain ⟨inner, htext⟩ := hbraces
    rw [hempty] at htext
    cases htext
  rw [loadLine, trim_braces hbraces]
  simp only [hne, if_false, fromText_toText d.depth_serialize, Option.bind_some,
    d.deserialize_serialize]

theorem openStore_eq (file : Option (List Char)) :
    openStore file =
      (loadEntries (file.getD [])).map fun index => { index := index, file := file } := by
  cases file <;> rfl

theorem file_openStore {file : Option (List Char)} {opened : LearningStore}
    (h : openStore file = .ok opened) : opened.file = file := by
  rw [openStore_eq] at h
  cases hload : loadEntries (file.getD []) with
  | error e =>
    rw [hload] at h
    cases h
  | ok index =>
    rw [hload] at h
    obtain rfl := Except.ok.inj h
    rfl

theorem reloadsAlike_iff : s.ReloadsAlike ↔ ∃ index, loadEntries (s.file.getD []) = .ok index ∧
    ∀ key, (index key).map (·.overridePermission) = s.override key := by
  unfold ReloadsAlike
  rw [openStore_eq]
  cases loadEntries (s.file.getD []) with
  | error e =>
    constructor
    · rintro ⟨opened, hopened, -⟩
      cases hopened
    · rintro ⟨index, hindex, -⟩
      cases hindex
  | ok loaded =>
    constructor
    · rintro ⟨opened, hopened, halike⟩
      obtain rfl := Except.ok.inj hopened
      exact ⟨loaded, rfl, halike⟩
    · rintro ⟨index, hindex, halike⟩
      obtain rfl := Except.ok.inj hindex
      exact ⟨_, rfl, halike⟩

/-- The file consists of whole lines, and gives the permissions of the live store. -/
structure Sound (s : LearningStore) : Prop where
  whole : ∃ ls, (∀ l ∈ ls, '\n' ∉ l) ∧ s.file.getD [] = unlines '\n' ls
  reloads : s.ReloadsAlike

theorem sound_empty : empty.Sound where
  whole := ⟨[], by simp, rfl⟩
  reloads := ⟨_, rfl, fun _ => rfl⟩

theorem loadEntries_appendLine (hwhole : ∃ ls, (∀ l ∈ ls, '\n' ∉ l) ∧
    s.file.getD [] = unlines '\n' ls) (hindex : loadEntries (s.file.getD []) = .ok index)
    (d : LearnedDecision) :
    ∃ number, loadEntries (appendLine s.file d) =
      loadLine index number (toText d.serialize).toList := by
  obtain ⟨ls, hls, hfile⟩ := hwhole
  have hline : '\n' ∉ (toText d.serialize).toList := JsonLines.newline_notMem_toText _
  have hbefore : loadLines (fun _ => none) 1 ls = .ok index := by
    rw [← hindex, loadEntries, hfile, lines_unlines hls]
  refine ⟨1 + ls.length, ?_⟩
  rw [appendLine, loadEntries, hfile, List.append_assoc, lines_unlines_append hls,
    lines_append_sep hline, lines_nil, loadLines_append hbefore, loadLines_singleton]

/-! ### Calls -/

omit [JsonLines] in
theorem decision_overridePermission (s : LearningStore) (c : RecordCall) :
    (s.decision c).overridePermission = c.overridePermission := by
  unfold decision
  cases s.index c.key with
  | none => rfl
  | some prev =>
    by_cases hsame : prev.overridePermission = c.overridePermission
    · simp only [if_pos hsame]
      exact hsame
    · simp only [if_neg hsame]
      rfl

theorem index_record (s : LearningStore) (c : RecordCall) :
    (s.record c).2.index = Function.update s.index c.key (some (s.decision c)) := by
  unfold record
  split_ifs <;> rfl

/-- The live store always has the permission that was recorded last. -/
theorem override_record (s : LearningStore) (c : RecordCall) (key : String) :
    (s.record c).2.override key =
      if key = c.key then some c.overridePermission else s.override key := by
  rw [override, index_record, Function.update_apply]
  split_ifs
  · rw [Option.map_some, decision_overridePermission]
  · rfl

theorem file_record_of_known (h : (s.index c.key).isSome) : (s.record c).2.file = s.file := by
  rw [record, if_neg]
  simpa using Option.isSome_iff_ne_none.mp h

theorem file_record_of_unwritable (h : c.writable = false) : (s.record c).2.file = s.file := by
  simp only [record, h, Bool.false_eq_true, if_false]
  split_ifs <;> rfl

theorem file_record_of_new (h : s.index c.key = none) (hwritable : c.writable = true) :
    (s.record c).2.file = some (appendLine s.file (s.decision c)) := by
  rw [record, h, hwritable]
  rfl

omit [JsonLines] in
theorem decision_of_new (h : s.index c.key = none) :
    (s.decision c).key = c.key ∧ (s.decision c).factors = c.factors := by
  unfold decision
  rw [h]
  exact ⟨rfl, rfl⟩

/-- A call that writes nothing keeps the agreement if it does not change the permission. -/
theorem reloadsAlike_record_of_file (hs : s.Sound) (hfile : (s.record c).2.file = s.file) :
    (s.record c).2.ReloadsAlike ↔ s.override c.key = some c.overridePermission := by
  obtain ⟨index, hindex, halike⟩ := reloadsAlike_iff.mp hs.reloads
  rw [reloadsAlike_iff, hfile, hindex]
  constructor
  · rintro ⟨loaded, hloaded, hnext⟩
    obtain rfl := Except.ok.inj hloaded
    have hkey := hnext c.key
    rw [halike, override_record, if_pos rfl] at hkey
    exact hkey
  · intro hsame
    refine ⟨index, rfl, ?_⟩
    intro key
    rw [halike, override_record]
    split_ifs with hkey
    · rw [hkey]
      exact hsame
    · rfl

/-- The decision of a new key is read back if its weights are finite. -/
theorem reloadsAlike_record_of_new (hs : s.Sound) (hnew : s.index c.key = none)
    (hwritable : c.writable = true) :
    (s.record c).2.ReloadsAlike ↔ ∀ f ∈ c.factors, f.weight.isFinite := by
  obtain ⟨index, hindex, halike⟩ := reloadsAlike_iff.mp hs.reloads
  obtain ⟨hkey, hfactors⟩ := decision_of_new hnew
  obtain ⟨number, hload⟩ := loadEntries_appendLine hs.whole hindex (s.decision c)
  rw [reloadsAlike_iff, file_record_of_new hnew hwritable, Option.getD_some, hload,
    loadLine_serialize, ← hfactors, ← LearnedDecision.isSome_reloaded]
  cases hreloaded : (s.decision c).reloaded with
  | none =>
    constructor
    · rintro ⟨next, hnext, -⟩
      cases hnext
    · intro hsome
      cases hsome
  | some reloaded =>
    obtain ⟨factors, -, rfl⟩ := Option.map_eq_some_iff.mp hreloaded
    refine iff_of_true ⟨_, rfl, ?_⟩ rfl
    intro key
    rw [override_record, Function.update_apply, hkey]
    split_ifs
    · rw [Option.map_some, decision_overridePermission]
    · exact halike key

/-- The store can be reloaded after a step exactly if the step keeps what is promised. -/
theorem reloadsAlike_step (hs : s.Sound) (op : LearningOp) :
    (s.step op).ReloadsAlike ↔ s.Keeps op := by
  cases op with
  | reopen =>
    obtain ⟨opened, hopened, -⟩ := hs.reloads
    refine iff_of_true ?_ trivial
    simp only [step, hopened]
    exact ⟨opened, (file_openStore hopened).symm ▸ hopened, fun _ => rfl⟩
  | record c =>
    cases hindex : s.index c.key with
    | some prev =>
      have hoverride : s.override c.key = some prev.overridePermission := by
        rw [override, hindex]
        rfl
      have hknown : (s.index c.key).isSome := by rw [hindex]; rfl
      rw [step, Keeps, reloadsAlike_record_of_file hs (file_record_of_known hknown), hoverride,
        Option.some.injEq]
    | none =>
      have hoverride : s.override c.key = none := by
        rw [override, hindex]
        rfl
      rw [step, Keeps, hoverride]
      cases hwritable : c.writable with
      | true => simp [reloadsAlike_record_of_new hs hindex hwritable]
      | false =>
        rw [reloadsAlike_record_of_file hs (file_record_of_unwritable hwritable), hoverride]
        simp

/-- The file consists of whole lines after every step. -/
theorem whole_step (hs : s.Sound) (op : LearningOp) :
    ∃ ls, (∀ l ∈ ls, '\n' ∉ l) ∧ (s.step op).file.getD [] = unlines '\n' ls := by
  cases op with
  | reopen =>
    obtain ⟨opened, hopened, -⟩ := hs.reloads
    simp only [step, hopened, file_openStore hopened]
    exact hs.whole
  | record c =>
    rw [step]
    by_cases hnew : s.index c.key = none
    · cases hwritable : c.writable with
      | true =>
        obtain ⟨ls, hls, hfile⟩ := hs.whole
        refine ⟨ls ++ [(toText (s.decision c).serialize).toList], ?_, ?_⟩
        · intro l hl
          rcases List.mem_append.mp hl with hl | hl
          · exact hls l hl
          · rw [List.mem_singleton.mp hl]
            exact JsonLines.newline_notMem_toText _
        · rw [file_record_of_new hnew hwritable, Option.getD_some, appendLine, hfile,
            unlines_append, unlines_cons, unlines_nil, List.append_assoc]
      | false =>
        rw [file_record_of_unwritable hwritable]
        exact hs.whole
    · rw [file_record_of_known (Option.isSome_iff_ne_none.mpr hnew)]
      exact hs.whole

/-- At every point of a history of calls the file gives the permissions of the live store, if and
only if no call changes the permission of a key, and each first decision of a key reaches the file
with finite weights. -/
theorem run_reloadsAlike_iff (ops : List LearningOp) :
    (∀ bs, bs <+: ops → (run step empty bs).ReloadsAlike) ↔ Meets step Keeps empty ops := by
  apply forall_initial_iff (P := ReloadsAlike) fun s (hs : s.Sound) => hs.reloads
  · intro s op hs
    exact reloadsAlike_step hs op
  · intro s op hs hkeeps
    exact ⟨whole_step hs op, (reloadsAlike_step hs op).mpr hkeeps⟩
  · exact sound_empty

end LearningStore

end Store

namespace Override

attribute [local instance] referenceLines

/-- A decision without details about one key. -/
def decided (permission : LearnedPermission) : LearningOp :=
  .record
    { key := "write:/x"
      overridePermission := permission
      reason := none
      riskLevel := none
      factors := []
      writable := true }

/-- The permission is withdrawn. -/
def withdrawn : List LearningOp := [decided .allow, decided .deny]

/-- The live store denies what the store that is opened from its file allows. -/
theorem run_withdrawn_reloads_allow :
    (run LearningStore.step .empty withdrawn).override "write:/x" = some .deny ∧
      ∃ opened,
        LearningStore.openStore (run LearningStore.step .empty withdrawn).file = .ok opened ∧
          opened.override "write:/x" = some .allow := by
  refine ⟨rfl, ?_⟩
  -- the withdrawal does not reach the file
  have hfile : (run LearningStore.step .empty withdrawn).file =
      (LearningStore.empty.step (decided .allow)).file := rfl
  have hkeeps : LearningStore.empty.Keeps (decided .allow) :=
    ⟨rfl, fun f hf => absurd hf List.not_mem_nil⟩
  obtain ⟨opened, hopened, hsame⟩ :=
    (LearningStore.reloadsAlike_step LearningStore.sound_empty _).mpr hkeeps
  refine ⟨opened, hfile ▸ hopened, ?_⟩
  rw [hsame]
  rfl

end Override

end HeliosLite
