import Mathlib.Data.List.Induction
import HeliosLite.Domain.ResultStream

/-!
# The usage of a streamed reply

Usage is reported several times in a stream, and each report counts from the beginning. A
complete report replaces what was counted, a report of the cost alone is added to it, and any
other report is merged.

## Main definitions

* `Usage.isCompleteUsage`, `Usage.isCostOnly` — the kinds of reports that are told apart
* `TokenField` — the four counts of a report
* `Cumulative` — a count that does not fall wherever it is reported
* `TokenField.Survives` — the largest count of a field survives

## Main results

* `le_count_usage_iff` — which counts reach the end of the stream
* `intoFull_usage_iff` — when the usage of the reply has the largest count in each field
-/

namespace HeliosLite

namespace Usage

/-- A report with tokens of both kinds. -/
def isCompleteUsage (usage : Usage) : Prop :=
  0 < usage.promptTokens.count ∧ 0 < usage.completionTokens.count

/-- A report with a cost and tokens of neither kind. -/
def isCostOnly (usage : Usage) : Prop :=
  usage.promptTokens.count = 0 ∧ usage.completionTokens.count = 0 ∧ usage.cost.isSome

instance : DecidablePred isCompleteUsage := fun usage =>
  inferInstanceAs (Decidable (0 < usage.promptTokens.count ∧ 0 < usage.completionTokens.count))

instance : DecidablePred isCostOnly := fun usage =>
  inferInstanceAs (Decidable (usage.promptTokens.count = 0 ∧ usage.completionTokens.count = 0 ∧
    usage.cost.isSome))

end Usage

/-- The counts of a report. -/
inductive TokenField where
  | prompt
  | completion
  | total
  | cached
  deriving DecidableEq

namespace TokenField

def count : TokenField → Usage → ℕ
  | prompt, usage => usage.promptTokens.count.toNat
  | completion, usage => usage.completionTokens.count.toNat
  | total, usage => usage.totalTokens.count.toNat
  | cached, usage => usage.cachedTokens.count.toNat

/-- The largest count of a field in some reports. -/
def largest (field : TokenField) (reports : List Usage) : ℕ :=
  (reports.map field.count).foldr max 0

variable {field : TokenField} {reports : List Usage} {v : ℕ}

theorem count_max (a b : TokenCount) :
    (a.max b).count.toNat = max a.count.toNat b.count.toNat := by
  have hmax : (Max.max a.count b.count).toNat = max a.count.toNat b.count.toNat := by
    change (if a.count ≤ b.count then b.count else a.count).toNat = _
    rw [Nat.max_def]
    simp only [UInt64.le_iff_toNat_le]
    split_ifs <;> rfl
  cases a <;> cases b <;> exact hmax

theorem le_largest {r : Usage} (h : r ∈ reports) : field.count r ≤ field.largest reports := by
  induction reports with
  | nil => cases h
  | cons report reports ih =>
    rcases List.mem_cons.mp h with rfl | hmem
    · exact le_max_left ..
    · exact (ih hmem).trans (le_max_right ..)

/-- The largest count is reported, unless it is zero. -/
theorem exists_eq_largest (h : field.largest reports ≠ 0) :
    ∃ r ∈ reports, field.count r = field.largest reports := by
  induction reports with
  | nil => exact absurd rfl h
  | cons report reports ih =>
    obtain hle | hle := le_total (field.largest reports) (field.count report)
    · exact ⟨report, List.mem_cons_self .., (max_eq_left hle).symm⟩
    · have heq : field.largest (report :: reports) = field.largest reports := max_eq_right hle
      rw [heq] at h ⊢
      obtain ⟨r, hr, hcount⟩ := ih h
      exact ⟨r, List.mem_cons_of_mem _ hr, hcount⟩

/-- What a report does to a count. -/
theorem count_next [FloatText] (field : TokenField) (usage report : Usage) :
    field.count (usage.next report) =
      if report.isCompleteUsage then field.count report
      else if report.isCostOnly then field.count usage
      else max (field.count usage) (field.count report) := by
  have hnext : usage.next report =
      if report.isCompleteUsage then { report with cost := report.cost.or usage.cost }
      else if report.isCostOnly then { usage with cost := Usage.addCost usage.cost report.cost }
      else usage.merge report := rfl
  rw [hnext]
  by_cases hcomplete : report.isCompleteUsage
  · rw [if_pos hcomplete, if_pos hcomplete]
    cases field <;> rfl
  rw [if_neg hcomplete, if_neg hcomplete]
  by_cases hcost : report.isCostOnly
  · rw [if_pos hcost, if_pos hcost]
    cases field <;> rfl
  · rw [if_neg hcost, if_neg hcost]
    cases field <;> exact count_max ..

end TokenField

/-- A report with at least the count `v` that is merged or replaces, behind which no complete
report has less. -/
def TokenField.Survives (field : TokenField) (v : ℕ) (reports : List Usage) : Prop :=
  ∃ before r after, reports = before ++ r :: after ∧ v ≤ field.count r ∧ ¬r.isCostOnly ∧
    ∀ q ∈ after, q.isCompleteUsage → v ≤ field.count q

section Reports

variable {field : TokenField} {reports : List Usage} {v : ℕ} {r : Usage}

theorem survives_concat_iff : field.Survives v (reports ++ [r]) ↔
    v ≤ field.count r ∧ ¬r.isCostOnly ∨
      field.Survives v reports ∧ (r.isCompleteUsage → v ≤ field.count r) := by
  constructor
  · rintro ⟨before, q, after, heq, hv, hcost, hafter⟩
    induction after using List.reverseRecOn with
    | nil =>
      obtain ⟨-, rfl⟩ := List.append_singleton_inj.mp heq
      exact Or.inl ⟨hv, hcost⟩
    | append_singleton after last _ =>
      rw [← List.cons_append, ← List.append_assoc] at heq
      obtain ⟨rfl, rfl⟩ := List.append_singleton_inj.mp heq
      refine Or.inr ⟨⟨before, q, after, rfl, hv, hcost, fun p hp => ?_⟩, ?_⟩
      · exact hafter p (List.mem_append_left _ hp)
      · exact hafter r (by simp)
  · rintro (⟨hv, hcost⟩ | ⟨⟨before, q, after, rfl, hv, hcost, hafter⟩, hr⟩)
    · exact ⟨reports, r, [], rfl, hv, hcost, by simp⟩
    · refine ⟨before, q, after ++ [r], by simp, hv, hcost, fun p hp => ?_⟩
      rcases List.mem_append.mp hp with hp | hp
      · exact hafter p hp
      · obtain rfl := List.mem_singleton.mp hp
        exact hr

variable [FloatText]

/-- The counts that reach the end of the stream are those that survive. -/
theorem le_count_usage_iff (hv : 0 < v) :
    v ≤ field.count (reports.foldl Usage.next .default) ↔ field.Survives v reports := by
  induction reports using List.reverseRecOn with
  | nil =>
    have hzero : field.count .default = 0 := by cases field <;> rfl
    rw [List.foldl_nil, hzero]
    refine ⟨fun h => absurd hv (not_lt.mpr h), ?_⟩
    rintro ⟨before, r, after, heq, -⟩
    cases before <;> cases heq
  | append_singleton reports r ih =>
    rw [List.foldl_append, List.foldl_cons, List.foldl_nil, TokenField.count_next,
      survives_concat_iff, ← ih]
    -- A complete report has tokens, so it is not one of the cost alone.
    have hkinds : r.isCompleteUsage → ¬r.isCostOnly := fun hcomplete hcost =>
      UInt64.lt_irrefl 0 (hcost.1 ▸ hcomplete.1)
    split_ifs with hcomplete hcost
    · exact ⟨fun h => Or.inl ⟨h, hkinds hcomplete⟩, by tauto⟩
    · tauto
    · rw [le_max_iff]
      tauto

theorem count_usage_le (field : TokenField) (reports : List Usage) :
    field.count (reports.foldl Usage.next .default) ≤ field.largest reports := by
  by_contra hlt
  have hpos : 0 < field.count (reports.foldl Usage.next .default) :=
    Nat.zero_lt_of_lt (not_le.mp hlt)
  obtain ⟨before, r, after, rfl, hv, -⟩ := (le_count_usage_iff hpos).mp le_rfl
  exact hlt (hv.trans (TokenField.le_largest (by simp)))

/-- The usage has the largest count of a field exactly when none is reported or it survives. -/
theorem count_usage_eq_iff (field : TokenField) (reports : List Usage) :
    field.count (reports.foldl Usage.next .default) = field.largest reports ↔
      field.largest reports = 0 ∨ field.Survives (field.largest reports) reports := by
  have hle := count_usage_le field reports
  by_cases hzero : field.largest reports = 0
  · rw [hzero] at hle ⊢
    simpa using hle
  · rw [← le_count_usage_iff (Nat.pos_of_ne_zero hzero)]
    simp only [hzero, false_or]
    exact ⟨ge_of_eq, hle.antisymm⟩

end Reports

/-! ### Cumulative reports -/

/-- Each report of the field is at least as large as the reports before it, or absent. -/
def Cumulative (field : TokenField) (reports : List Usage) : Prop :=
  reports.Pairwise fun before after =>
    field.count after = 0 ∨ field.count before ≤ field.count after

/-- A cumulative count that each complete report has and no report of the cost alone is never
lost. -/
theorem count_usage_eq_of_cumulative [FloatText] {field : TokenField} {reports : List Usage}
    (hcumulative : Cumulative field reports)
    (hcomplete : ∀ r : Usage, r.isCompleteUsage → field.count r ≠ 0)
    (hcost : ∀ r : Usage, r.isCostOnly → field.count r = 0) :
    field.count (reports.foldl Usage.next .default) = field.largest reports := by
  rw [count_usage_eq_iff]
  by_cases hzero : field.largest reports = 0
  · exact Or.inl hzero
  obtain ⟨r, hr, hlargest⟩ := TokenField.exists_eq_largest hzero
  obtain ⟨before, after, rfl⟩ := List.append_of_mem hr
  refine Or.inr ⟨before, r, after, rfl, hlargest.ge, fun h => ?_, fun q hq hcompleteq => ?_⟩
  · exact hzero (hlargest.symm.trans (hcost r h))
  · have hpair := (List.pairwise_append.mp hcumulative).2.1
    rw [← hlargest]
    exact ((List.pairwise_cons.mp hpair).1 q hq).resolve_left (hcomplete q hcompleteq)

/-- The reports of a stream. -/
def reportsOf (messages : List ChatCompletionMessage) : List Usage :=
  messages.filterMap ChatCompletionMessage.usage

theorem FullState.foldl_step_usage [FloatText] (tryFromXml : String → Option ToolCallFull)
    (shouldInterruptForXml : Bool) (messages : List ChatCompletionMessage) (s : FullState) :
    (messages.foldl (FullState.step tryFromXml shouldInterruptForXml) s).usage =
      (reportsOf messages).foldl Usage.next s.usage := by
  induction messages generalizing s with
  | nil => rfl
  | cons message messages ih =>
    have hstep : (s.step tryFromXml shouldInterruptForXml message).usage =
        (message.usage.map s.usage.next).getD s.usage := by
      unfold FullState.step FullState.addContent
      dsimp only
      repeat' split
      all_goals rfl
    rw [List.foldl_cons, ih, hstep]
    unfold reportsOf
    rw [List.filterMap_cons]
    cases message.usage <;> rfl

/-- The usage of a whole reply to a stream with cumulative reports has the largest count in each
field exactly when that of the total and that of the cached tokens is kept. -/
theorem intoFull_usage_iff [FloatText] [HashOrder] {ε : Type}
    {tryFromXml : String → Option ToolCallFull} {shouldInterruptForXml : Bool}
    {messages : List ChatCompletionMessage}
    {full : ChatCompletionMessageFull}
    (hfull : intoFull tryFromXml shouldInterruptForXml
      (messages.map fun m => (.ok m : Except ε _)) = .ok full)
    (hcumulative : ∀ field, Cumulative field (reportsOf messages)) :
    (∀ field : TokenField, field.count full.usage = field.largest (reportsOf messages)) ↔
      ∀ field : TokenField, field = .total ∨ field = .cached →
        field.largest (reportsOf messages) = 0 ∨
          field.Survives (field.largest (reportsOf messages)) (reportsOf messages) := by
  have husage : full.usage = (reportsOf messages).foldl Usage.next .default := by
    rw [intoFull, mapM_ok] at hfull
    rw [FullState.eq_of_finish hfull]
    exact FullState.foldl_step_usage ..
  rw [husage]
  constructor
  · exact fun h field _ => (count_usage_eq_iff field _).mp (h field)
  · intro h field
    have hprompt : field = .prompt → field.count ((reportsOf messages).foldl Usage.next .default) =
        field.largest (reportsOf messages) := by
      rintro rfl
      exact count_usage_eq_of_cumulative (hcumulative _)
        (fun r hr => (UInt64.lt_iff_toNat_lt.mp hr.1).ne') fun r hr => congrArg UInt64.toNat hr.1
    have hcompletion : field = .completion →
        field.count ((reportsOf messages).foldl Usage.next .default) =
        field.largest (reportsOf messages) := by
      rintro rfl
      exact count_usage_eq_of_cumulative (hcumulative _)
        (fun r hr => (UInt64.lt_iff_toNat_lt.mp hr.2).ne') fun r hr => congrArg UInt64.toNat hr.2.1
    cases field with
    | prompt => exact hprompt rfl
    | completion => exact hcompletion rfl
    | total => exact (count_usage_eq_iff _ _).mpr (h _ (Or.inl rfl))
    | cached => exact (count_usage_eq_iff _ _).mpr (h _ (Or.inr rfl))

namespace UsageReports

/-- The operations on floats and hash maps, of which these streams use none. -/
abbrev floats : FloatText := ⟨fun _ => none, fun a _ => a⟩

abbrev hashOrder : HashOrder := ⟨id, fun _ => List.Perm.refl _⟩

/-- A message with text and a report of prompt, completion and cached tokens. -/
def message (prompt completion cached : UInt64) : ChatCompletionMessage :=
  { ChatCompletionMessage.default with
    content := some (.part "Done.")
    usage := some
      { promptTokens := .actual prompt
        completionTokens := .actual completion
        totalTokens := .actual 0
        cachedTokens := .actual cached
        cost := none } }

/-- The reply to a stream of such messages, without a call in its text. -/
def reply (messages : List ChatCompletionMessage) : ChatCompletionMessageFull :=
  letI := floats
  letI := hashOrder
  (messages.foldl (FullState.step (fun _ => none) false) .start).full

/-- The cached tokens at the start, and the completion tokens alone at the end. -/
def partialReports : List ChatCompletionMessage := [message 100 1 80, message 0 40 0]

/-- The cached tokens at the start only, and complete reports. -/
def completeReports : List ChatCompletionMessage := [message 100 1 80, message 100 40 0]

theorem intoFull_partialReports :
    @intoFull floats hashOrder String (fun _ => none) false (partialReports.map .ok) =
      .ok (reply partialReports) := by
  rfl

theorem intoFull_completeReports :
    @intoFull floats hashOrder String (fun _ => none) false (completeReports.map .ok) =
      .ok (reply completeReports) := by
  rfl

/-- A report without prompt tokens keeps the cached tokens. -/
theorem cachedTokens_partialReports :
    TokenField.cached.count (reply partialReports).usage =
      TokenField.cached.largest (reportsOf partialReports) :=
  (@intoFull_usage_iff floats hashOrder String (fun _ => none) false partialReports
    (reply partialReports) intoFull_partialReports
    (by rintro (_ | _ | _ | _) <;> unfold Cumulative <;> decide +kernel)).mpr
    (by
      rintro field (rfl | rfl)
      · exact .inl (by decide +kernel)
      · exact .inr ⟨[], _, _, rfl, by decide +kernel, by decide +kernel, by decide +kernel⟩)
    .cached

/-- A complete report without cached tokens drops those that were reported. -/
theorem cachedTokens_completeReports :
    @intoFull floats hashOrder String (fun _ => none) false (completeReports.map .ok) =
        .ok (reply completeReports) ∧
      (∀ field, Cumulative field (reportsOf completeReports)) ∧
      TokenField.cached.largest (reportsOf completeReports) = 80 ∧
      TokenField.cached.count (reply completeReports).usage = 0 :=
  ⟨intoFull_completeReports,
    by rintro (_ | _ | _ | _) <;> unfold Cumulative <;> decide +kernel,
    by decide +kernel, by decide +kernel⟩

end UsageReports

end HeliosLite
