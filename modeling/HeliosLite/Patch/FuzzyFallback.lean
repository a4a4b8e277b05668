import HeliosLite.Patch.LineEndings
import HeliosLite.Patch.MatchedLines

/-!
# What the fuzzy fallback changes

The fallback replaces the text of the lines that the search service found. A replacement of all
occurrences looks for this text once more, and finds it also inside of other lines.

## Main definitions

* `WholeLines` — between parts that are kept the matched text is a run of whole lines
* `ChangesLinesOnly` — the new file has the content in place of such runs

## Main results

* `normalize_of_notMem` — a content without line feeds is used as it is
* `changesLinesOnly_iff` — when only text inside occurrences of the matched lines changes
-/

namespace HeliosLite.Patch

open Theory Range

/-- Wherever a part that is kept ends and another one begins, the word between them is a run of
whole lines of the file that the word joins from the parts. -/
def WholeLines (word : Text) (parts : List Text) : Prop :=
  ∀ front back, parts = front ++ back → front ≠ [] → back ≠ [] →
    OccursAsLines (word.intercalate front) word (word.intercalate back)

/-- The new file is the old one with the content in place of runs of whole lines with the text
of the word. -/
def ChangesLinesOnly (file word content new : Text) : Prop :=
  ∃ parts, word.intercalate parts = file ∧ WholeLines word parts ∧ new = content.intercalate parts

theorem wholeLines_pair {before word after : Text} :
    WholeLines word [before, after] ↔ OccursAsLines before word after := by
  constructor
  · intro h
    simpa using h [before] [after] rfl (List.cons_ne_nil _ _) (List.cons_ne_nil _ _)
  · intro h front back heq hfront hback
    obtain ⟨p, front, rfl⟩ := List.exists_cons_of_ne_nil hfront
    obtain ⟨q, back, rfl⟩ := List.exists_cons_of_ne_nil hback
    have hlength := congrArg List.length heq
    simp only [List.length_cons, List.length_append, List.length_nil] at hlength
    obtain rfl : front = [] := List.eq_nil_of_length_eq_zero (by omega)
    obtain rfl : back = [] := List.eq_nil_of_length_eq_zero (by omega)
    simp only [List.cons_append, List.nil_append, List.cons.injEq, and_true] at heq
    obtain ⟨rfl, rfl⟩ := heq
    simpa using h

/-- The empty word stands at the end of the file too, where there is no line. -/
theorem not_wholeLines_nil (file : Text) : ¬WholeLines [] (parts [] file) := by
  intro h
  obtain ⟨-, hend⟩ := h ([] :: file.map fun c => [c]) [[]] (parts_nil file) (List.cons_ne_nil _ _)
    (List.cons_ne_nil _ _)
  rw [List.intercalate_singleton] at hend
  rcases hend with ⟨-, hne, -⟩ | hcrlf | ⟨hlf, -⟩
  · exact hne rfl
  · cases List.prefix_nil.mp hcrlf
  · cases List.prefix_nil.mp hlf

theorem unix_of_notMem {text : Text} (h : '\n' ∉ text) : unix text = text :=
  unix_of_not_infix fun hword => h (hword.subset (by decide))

/-- A content without line feeds is used as it is. -/
theorem normalize_of_notMem (file : Text) {content : Text} (h : '\n' ∉ content) :
    normalizeSearchLineEndings file content = content := by
  unfold normalizeSearchLineEndings
  rw [replace_crlf, unix_of_notMem h]
  cases detectLineEnding file with
  | lf => rfl
  | crlf => exact replace_of_not_infix (List.cons_ne_nil _ _) (fun hword => h (hword.subset
      (List.mem_singleton_self _))) _

/-- A content of which the parts of the new file can be read off. -/
def marked (file : Text) : Text := List.replicate file.length 'x' ++ ['y']

theorem normalize_marked (file : Text) :
    normalizeSearchLineEndings file (marked file) = marked file := by
  refine normalize_of_notMem file fun h => ?_
  rw [marked, List.mem_append, List.mem_singleton] at h
  rcases h with h | h
  · exact absurd (List.eq_of_mem_replicate h) (by decide)
  · exact absurd h (by decide)

/-- Parts that give the same file with the matched text and with a marked content are the
same. -/
theorem eq_of_intercalate_marked {file word : Text} {ps qs : List Text} (hword : word <:+: file)
    (hps : word.intercalate ps = file) (hqs : word.intercalate qs = file)
    (hpsne : ps ≠ []) (hqsne : qs ≠ [])
    (h : (marked file).intercalate ps = (marked file).intercalate qs) : ps = qs := by
  have hlt : word.length < (marked file).length := by
    have hle := hword.length_le
    simp only [marked, List.length_append, List.length_replicate, List.length_singleton]
    omega
  have hshort : ∀ {ls : List Text}, word.intercalate ls = file →
      ∀ l ∈ ls, l.length ≤ file.length := fun hls l hl =>
    hls ▸ (infix_intercalate_of_mem hl).length_le
  have hlength : ps.length = qs.length :=
    length_eq_of_intercalate hpsne hqsne hlt (by rw [hps, hqs]) (congrArg List.length h)
  exact eq_of_intercalate_eq (by decide) (hshort hps) (hshort hqs) hlength h

/-- With an interval of lines for a match, the fallback changes only text inside occurrences of
the matched lines, whatever the content, exactly when a replacement of all occurrences of their
text has a text to look for and finds runs of whole lines only. -/
theorem changesLinesOnly_iff {infra : PatchInfra} {file search : Text}
    {operation : PatchOperation} (hoperation : operation = .replace ∨ operation = .replaceAll)
    (hinfra : ∀ ms, infra.fuzzySearch search file false = some ms → ∀ m ∈ ms, InRange file m) :
    (∀ content new, applyFuzzySearchFallback infra file search content operation = .ok new →
        ∃ m ms before word after, infra.fuzzySearch search file false = some (m :: ms) ∧
          Matched file m before word after ∧
          ChangesLinesOnly file word (normalizeSearchLineEndings file content) new) ↔
      (operation = .replaceAll → ∀ m ms before word after,
        infra.fuzzySearch search file false = some (m :: ms) → Matched file m before word after →
          word ≠ [] ∧ WholeLines word (parts word file)) := by
  -- The range that the fallback computes is the only one with the text of the lines.
  have hrange : ∀ {m ms before word after}, infra.fuzzySearch search file false = some (m :: ms) →
      Matched file m before word after →
      fromSearchMatch file m = ⟨byteLen before, byteLen word⟩ := by
    intro m ms before word after hfuzzy hmatched
    obtain ⟨before', word', after', hmatched', hspec⟩ :=
      fromSearchMatch_spec (hinfra _ hfuzzy m (List.mem_cons_self ..))
    obtain ⟨rfl, rfl, rfl⟩ := hmatched.unique hmatched'
    exact hspec
  constructor
  · rintro hchanges rfl m ms before word after hfuzzy hmatched
    have hword : word <:+: file := ⟨before, after, hmatched.file_eq.symm⟩
    have hnew : applyFuzzySearchFallback infra file search (marked file) .replaceAll =
        .ok ((marked file).intercalate (parts word file)) := by
      unfold applyFuzzySearchFallback
      rw [hfuzzy]
      dsimp only
      rw [hrange hfuzzy hmatched, applyReplacement_replaceAll hmatched.file_eq, normalize_marked]
      rfl
    obtain ⟨m', ms', before', word', after', hfuzzy', hmatched', qs, hqs, hwhole, heq⟩ :=
      hchanges _ _ hnew
    obtain ⟨rfl, -⟩ := List.cons.inj (Option.some.inj (hfuzzy.symm.trans hfuzzy'))
    obtain ⟨-, rfl, -⟩ := hmatched.unique hmatched'
    rw [normalize_marked] at heq
    have hqsne : qs ≠ [] := by
      rintro rfl
      have hlines := (hinfra _ hfuzzy m (List.mem_cons_self ..)).2
      rw [← hqs] at hlines
      exact absurd hlines (Nat.not_lt_zero _)
    have hparts : WholeLines word (parts word file) := by
      rwa [eq_of_intercalate_marked hword (intercalate_parts word file) hqs (parts_ne_nil _ _)
        hqsne heq]
    refine ⟨?_, hparts⟩
    rintro rfl
    exact not_wholeLines_nil file hparts
  · intro hwhole content new hnew
    unfold applyFuzzySearchFallback at hnew
    split at hnew
    · rename_i m ms hfuzzy
      obtain ⟨before, word, after, hmatched, hspec⟩ :=
        fromSearchMatch_spec (hinfra _ hfuzzy m (List.mem_cons_self ..))
      refine ⟨m, ms, before, word, after, hfuzzy, hmatched, ?_⟩
      rw [hspec] at hnew
      rcases hoperation with rfl | rfl
      · rw [applyReplacement_replace hmatched.file_eq] at hnew
        split_ifs at hnew
        refine ⟨[before, after], ?_, wholeLines_pair.mpr hmatched.asLines, ?_⟩
        · rw [hmatched.file_eq, List.intercalate_cons_cons, List.intercalate_singleton]
        · rw [← Except.ok.inj hnew, List.intercalate_cons_cons, List.intercalate_singleton]
      · rw [applyReplacement_replaceAll hmatched.file_eq] at hnew
        exact ⟨parts word file, intercalate_parts word file,
          (hwhole rfl m ms _ _ _ hfuzzy hmatched).2, (Except.ok.inj hnew).symm⟩
    · cases hnew

/-- A search service that finds some lines. -/
def PatchInfra.finds (m : SearchMatch) : PatchInfra :=
  ⟨fun _ _ _ => some [m], fun _ _ _ => .error "unreachable"⟩

/-- A line whose text occurs in no other line. -/
theorem changesLinesOnly_beta :
    applyFuzzySearchFallback (.finds ⟨1, 1⟩) "alpha\nbeta\n".toList "betaa".toList "x".toList
        .replace = .ok "alpha\nx\n".toList ∧
      ∃ m ms before word after,
        (PatchInfra.finds ⟨1, 1⟩).fuzzySearch "betaa".toList "alpha\nbeta\n".toList false =
          some (m :: ms) ∧
        Matched "alpha\nbeta\n".toList m before word after ∧
        ChangesLinesOnly "alpha\nbeta\n".toList word
          (normalizeSearchLineEndings "alpha\nbeta\n".toList "x".toList)
          "alpha\nx\n".toList := by
  have hnew : applyFuzzySearchFallback (.finds ⟨1, 1⟩) "alpha\nbeta\n".toList "betaa".toList
      "x".toList .replace = .ok "alpha\nx\n".toList := by decide +kernel
  refine ⟨hnew, (changesLinesOnly_iff (Or.inl rfl) ?_).mpr nofun _ _ hnew⟩
  rintro ms hms m hm
  obtain rfl := Option.some.inj hms
  obtain rfl := List.mem_singleton.mp hm
  exact ⟨by decide, by decide +kernel⟩

/-- An empty line: its text is found between all characters of the file. -/
theorem not_changesLinesOnly_empty :
    InRange "a\n\nb".toList ⟨1, 1⟩ ∧
      applyFuzzySearchFallback (.finds ⟨1, 1⟩) "a\n\nb".toList "c".toList "x".toList .replaceAll =
        .ok "xax\nx\nxbx".toList ∧
      ¬∃ before word after, Matched "a\n\nb".toList ⟨1, 1⟩ before word after ∧
        ChangesLinesOnly "a\n\nb".toList word
          (normalizeSearchLineEndings "a\n\nb".toList "x".toList) "xax\nx\nxbx".toList := by
  refine ⟨⟨by decide, by decide +kernel⟩, by decide +kernel, ?_⟩
  rintro ⟨before, word, after, hmatched, parts, hfile, hwhole, hnew⟩
  have hline : Matched "a\n\nb".toList ⟨1, 1⟩ "a\n".toList [] "\nb".toList :=
    ⟨by decide +kernel, by decide +kernel, by decide +kernel, Or.inr (by decide +kernel),
      Or.inr (Or.inr ⟨by decide +kernel, nofun⟩)⟩
  obtain ⟨-, rfl, -⟩ := hmatched.unique hline
  rw [normalize_of_notMem _ (by decide +kernel)] at hnew
  rcases List.eq_nil_or_concat' parts with rfl | ⟨front, last, rfl⟩
  · revert hfile
    decide +kernel
  have hlast : last <:+ "xax\nx\nxbx".toList := hnew ▸ suffix_intercalate_concat _ front last
  have hne : front ≠ [] := by
    rintro rfl
    rw [List.nil_append, List.intercalate_singleton] at hfile hnew
    rw [hfile] at hnew
    revert hnew
    decide +kernel
  -- The last part begins with a line feed, so its last letter is one of the inserted texts.
  have hend := (hwhole front [last] rfl hne (List.cons_ne_nil _ _)).2
  rw [List.intercalate_singleton] at hend
  have hlastne : last ≠ [] := by
    rintro rfl
    rcases hend with ⟨-, hempty, -⟩ | hcrlf | ⟨hlf, -⟩
    · exact hempty rfl
    · cases List.prefix_nil.mp hcrlf
    · cases List.prefix_nil.mp hlf
  have hx : 'x' ∈ last := by
    obtain ⟨rest, hrest⟩ := hlast
    have hget := congrArg List.getLast? hrest
    rw [List.getLast?_append_of_ne_nil _ hlastne] at hget
    exact List.mem_of_getLast? (hget.trans (by decide +kernel))
  have hmem : 'x' ∈ "a\n\nb".toList := hfile ▸ (suffix_intercalate_concat _ front last).subset hx
  revert hmem
  decide +kernel

end HeliosLite.Patch
