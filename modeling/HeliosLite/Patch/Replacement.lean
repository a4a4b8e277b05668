import HeliosLite.Patch.Operation

/-!
# What a replacement keeps

A replacement puts the content between parts of the file, which it keeps: the texts before and
after the range, or the parts between all occurrences of the text of the range.

A replacement has to be told where to go: it fails if its text occurs several times in the file.
The occurrences are counted one behind the other.

## Main definitions

* `kept` — the parts that are kept
* `exactReplace` — the replacement where the text itself is found
* `OccursOnce` — a text occurs at one place, places that overlap included
* `ReplacesOnly` — the replacement goes to the only place of its text, or fails

## Main results

* `applyReplacement_replace`, `applyReplacement_replaceAll` — the edits at a range
* `eq_intercalate_of_applyReplacement` — the content stands between the parts that are kept
* `exactReplace_eq_ok_iff` — when the replacement succeeds, and with what
* `replacesOnly_iff` — the replacement is to the only place unless the text overlaps itself only
-/

namespace HeliosLite.Patch

open Theory Range

variable {file content new word before after : Text}

/-- The parts of the file that a replacement keeps; without a range it keeps nothing. -/
def kept (file : Text) (range : Option Range) (operation : PatchOperation) : List Text :=
  match range with
  | none => [[], []]
  | some patch =>
    if operation = .replaceAll then
      parts ((getRange file patch.start patch.stop).getD []) file
    else
      [(getTo file patch.start).getD [], (getFrom file patch.stop).getD []]

/-! ### The edits at a range -/

/-- Behind the first match there is another one. -/
theorem hasMultipleMatches_iff (hsplit : splitFirst word file = some (before, after)) :
    hasMultipleMatches file word ↔ word <:+: after := by
  have hstart : getFrom file 0 = some file := by
    cases file <;> rfl
  have hfile : file = before ++ word ++ after := (of_splitFirst hsplit).2
  have hrest : getFrom file (byteLen before + byteLen word) = some after := by
    rw [← byteLen_append, hfile]
    exact getFrom_append _ _
  have hfind : find file word = some (byteLen before) := by
    rw [find, hsplit, Option.map_some]
  unfold hasMultipleMatches
  rw [hstart, Option.bind_some, hfind]
  dsimp only
  rw [hrest, Option.bind_some, find, Option.isSome_map, splitFirst_isSome_iff]

theorem stop_eq (before word : Text) :
    Range.stop ⟨byteLen before, byteLen word⟩ = byteLen (before ++ word) :=
  (byteLen_append before word).symm

theorem not_lt_byteLen (before after : Text) : ¬ byteLen (before ++ after) < byteLen before := by
  rw [byteLen_append]
  omega

theorem replaceRange_append (before word after content : Text) :
    replaceRange (before ++ word ++ after) ⟨byteLen before, byteLen word⟩ content =
      .ok (before ++ content ++ after) := by
  unfold replaceRange
  rw [stop_eq, getTo_append_append, getFrom_append]
  rfl

theorem applyReplacement_replace (hfile : file = before ++ word ++ after) :
    applyReplacement file (some ⟨byteLen before, byteLen word⟩) .replace content =
      if hasMultipleMatches file word then .error (.multipleMatches word)
      else .ok (before ++ normalizeSearchLineEndings file content ++ after) := by
  subst hfile
  unfold applyReplacement
  dsimp only
  rw [stop_eq, if_neg (not_lt_byteLen _ _), getRange_append, replaceRange_append]
  rfl

theorem applyReplacement_replaceAll (hfile : file = before ++ word ++ after) :
    applyReplacement file (some ⟨byteLen before, byteLen word⟩) .replaceAll content =
      .ok (Theory.replace word (normalizeSearchLineEndings file content) file) := by
  subst hfile
  unfold applyReplacement
  dsimp only
  rw [stop_eq, if_neg (not_lt_byteLen _ _), getRange_append]
  rfl

/-- An edit at a range succeeds only where the range is one of the file. -/
theorem exists_of_applyReplacement {patch : Range} {operation : PatchOperation}
    (h : applyReplacement file (some patch) operation content = .ok new) :
    ∃ before word after, file = before ++ word ++ after ∧
      patch = ⟨byteLen before, byteLen word⟩ := by
  unfold applyReplacement at h
  dsimp only at h
  split_ifs at h with hbound
  cases hrange : getRange file patch.start patch.stop with
  | none =>
    rw [hrange] at h
    cases h
  | some word =>
    obtain ⟨before, after, hfile, hstart, hstop⟩ := getRange_eq_some_iff.mp hrange
    refine ⟨before, word, after, hfile, ?_⟩
    obtain ⟨start, length⟩ := patch
    rw [byteLen_append, Range.stop] at hstop
    dsimp only at hstart hstop
    rw [Range.mk.injEq]
    exact ⟨hstart.symm, by omega⟩

theorem kept_replace (hfile : file = before ++ word ++ after) :
    kept file (some ⟨byteLen before, byteLen word⟩) .replace = [before, after] := by
  subst hfile
  simp only [kept, reduceCtorEq, ↓reduceIte]
  rw [stop_eq, getTo_append_append, getFrom_append]
  rfl

theorem kept_replaceAll (hfile : file = before ++ word ++ after) :
    kept file (some ⟨byteLen before, byteLen word⟩) .replaceAll = parts word file := by
  subst hfile
  simp only [kept, ↓reduceIte]
  rw [stop_eq, getRange_append]
  rfl

/-- What a replacement makes of the file: the content between parts of it. -/
theorem eq_intercalate_of_applyReplacement {range : Option Range} {operation : PatchOperation}
    (hoperation : operation = .replace ∨ operation = .replaceAll)
    (h : applyReplacement file range operation content = .ok new) :
    new = (normalizeSearchLineEndings file content).intercalate (kept file range operation) ∧
      2 ≤ (kept file range operation).length ∧ ∀ p ∈ kept file range operation, p <:+: file := by
  cases range with
  | none =>
    have hnew : new = normalizeSearchLineEndings file content := by
      rcases hoperation with rfl | rfl <;> exact (Except.ok.inj h).symm
    refine ⟨?_, le_rfl, by simp [kept]⟩
    rw [hnew, kept, List.intercalate_cons_cons, List.intercalate_singleton, List.nil_append,
      List.append_nil]
  | some patch =>
    obtain ⟨before, word, after, hfile, rfl⟩ := exists_of_applyReplacement h
    have hword : word <:+: file := ⟨before, after, hfile.symm⟩
    rcases hoperation with rfl | rfl
    · rw [applyReplacement_replace hfile] at h
      split_ifs at h
      rw [kept_replace hfile]
      refine ⟨?_, le_rfl, ?_⟩
      · rw [← Except.ok.inj h, List.intercalate_cons_cons, List.intercalate_singleton]
      · rw [List.forall_mem_cons, List.forall_mem_singleton, hfile]
        refine ⟨⟨[], word ++ after, ?_⟩, ⟨before ++ word, [], ?_⟩⟩
        · rw [List.nil_append, List.append_assoc]
        · rw [List.append_nil]
    · rw [applyReplacement_replaceAll hfile] at h
      rw [kept_replaceAll hfile]
      exact ⟨(Except.ok.inj h).symm, two_le_length_parts hword, fun p hp => infix_of_mem_parts hp⟩

end HeliosLite.Patch

/-! ### Replacing a text that occurs once -/

namespace HeliosLite.Patch

open Theory Range

variable {file search content new word before after : Text}

/-- The replacement without the fallback. -/
def exactReplace (file search content : Text) : Except PatchError Text := do
  let range ← computeRange file (some search) .replace
  applyReplacement file range .replace content

/-- The text occurs at one place. -/
def OccursOnce (word file : Text) : Prop := ∃! before, before ++ word <+: file

/-- What succeeds replaces the text at its only place; several places, or none, are an error. -/
def ReplacesOnly (file search content : Text) : Prop :=
  (∀ new, exactReplace file search content = .ok new →
    OccursOnce (normalizeSearchLineEndings file search) file ∧
      ∃ before after, file = before ++ normalizeSearchLineEndings file search ++ after ∧
        new = before ++ normalizeSearchLineEndings file content ++ after) ∧
  (¬OccursOnce (normalizeSearchLineEndings file search) file →
    ∃ e, exactReplace file search content = .error e)

/-- The replacement succeeds if the text occurs and does not occur again behind its first
place. -/
theorem exactReplace_eq_ok_iff (hsearch : search ≠ []) :
    exactReplace file search content = .ok new ↔
      ∃ before after,
        splitFirst (normalizeSearchLineEndings file search) file = some (before, after) ∧
          ¬ normalizeSearchLineEndings file search <:+: after ∧
          new = before ++ normalizeSearchLineEndings file content ++ after := by
  have hempty : search.isEmpty = false := by simpa using hsearch
  unfold exactReplace computeRange findExact
  simp only [hempty, Bool.false_eq_true, ↓reduceIte]
  cases hsplit : splitFirst (normalizeSearchLineEndings file search) file with
  | none => simp [find, hsplit, bind, Except.bind]
  | some p =>
    obtain ⟨before, after⟩ := p
    have hmultiple := hasMultipleMatches_iff hsplit
    have hok : ∀ range : Option Range,
        (Except.ok range >>= fun range => applyReplacement file range .replace content) =
          applyReplacement file range .replace content := fun _ => rfl
    simp only [find, hsplit, Option.map_some]
    rw [hok, applyReplacement_replace (of_splitFirst hsplit).2]
    split_ifs with hagain
    · simp [hmultiple.mp hagain]
    · rw [Except.ok.injEq]
      constructor
      · rintro rfl
        exact ⟨before, after, rfl, fun h => hagain (hmultiple.mpr h), rfl⟩
      · rintro ⟨_, _, heq, -, rfl⟩
        obtain ⟨rfl, rfl⟩ := Prod.mk.inj (Option.some.inj heq)
        rfl

/-- The replacement goes to the only place of its text, or fails, exactly when a text that occurs
twice also occurs twice without overlap. -/
theorem replacesOnly_iff (hsearch : search ≠ []) :
    ReplacesOnly file search content ↔
      ((∃ before other, before ≠ other ∧
          before ++ normalizeSearchLineEndings file search <+: file ∧
          other ++ normalizeSearchLineEndings file search <+: file) →
        ∃ a b c, file = a ++ normalizeSearchLineEndings file search ++ b ++
          normalizeSearchLineEndings file search ++ c) := by
  set word := normalizeSearchLineEndings file search with hword
  constructor
  · rintro ⟨-, herror⟩ ⟨before, other, hne, hbefore, hother⟩
    have hseveral : ¬OccursOnce word file := fun ⟨_, _, hunique⟩ =>
      hne ((hunique _ hbefore).trans (hunique _ hother).symm)
    obtain ⟨e, he⟩ := herror hseveral
    obtain ⟨rest, hrest⟩ := hbefore
    obtain ⟨⟨first, after⟩, hsplit⟩ := Option.isSome_iff_exists.mp
      (splitFirst_isSome_iff.mpr ⟨before, rest, hrest⟩)
    -- The text occurs, so only a second match can be the error.
    have hagain : word <:+: after := by
      by_contra hnot
      have hok : exactReplace file search content = .ok _ :=
        (exactReplace_eq_ok_iff hsearch).mpr ⟨first, after, hsplit, hnot, rfl⟩
      rw [he] at hok
      cases hok
    obtain ⟨b, c, hafter⟩ := hagain
    refine ⟨first, b, c, ?_⟩
    rw [(of_splitFirst hsplit).2, ← hafter]
    simp only [List.append_assoc]
  · intro htwo
    have honce : ∀ new, exactReplace file search content = .ok new → OccursOnce word file ∧
        ∃ before after, file = before ++ word ++ after ∧
          new = before ++ normalizeSearchLineEndings file content ++ after := by
      intro new hnew
      obtain ⟨before, after, hsplit, hnot, rfl⟩ := (exactReplace_eq_ok_iff hsearch).mp hnew
      obtain ⟨hfirst, hfile⟩ := of_splitFirst hsplit
      refine ⟨⟨before, hfirst.1, fun other hother => ?_⟩, before, after, hfile, rfl⟩
      by_contra hne
      obtain ⟨a, b, c, habc⟩ := htwo ⟨other, before, hne, hother, hfirst.1⟩
      exact hnot (infix_of_two hfirst hfile habc)
    refine ⟨honce, fun hseveral => ?_⟩
    cases hnew : exactReplace file search content with
    | error e => exact ⟨e, rfl⟩
    | ok new => exact absurd (honce new hnew).1 hseveral

/-- A text that does not overlap itself. -/
theorem replacesOnly_ab : ReplacesOnly "abab".toList "ab".toList "c".toList :=
  (replacesOnly_iff (by decide)).mpr fun _ => ⟨[], [], [], by decide +kernel⟩

/-- A text that occurs twice, but only one place behind the other. -/
theorem replacesOnly_aaa : ¬ReplacesOnly "aaa".toList "aa".toList "b".toList := by
  rintro ⟨honce, -⟩
  obtain ⟨⟨before, -, hunique⟩, -⟩ := honce "ba".toList (by decide +kernel)
  have hfirst := hunique [] (by decide +kernel)
  have hsecond := hunique ['a'] (by decide +kernel)
  rw [← hfirst] at hsecond
  cases hsecond

end HeliosLite.Patch
