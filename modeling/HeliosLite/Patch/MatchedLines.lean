import HeliosLite.Patch.Replacement

/-!
# The lines of a match

The search service answers with the lines of a match, which become a range of the file in bytes.

## Main definitions

* `OccursAsLines` — a text stands in a file as a run of whole lines
* `Matched` — the text of the lines of a match

## Main results

* `Matched.unique` — the lines have one text at one place
* `fromSearchMatch_spec` — the range is that of the lines
-/

namespace HeliosLite.Patch

open Theory Range

/-- Between the two texts the word is a run of whole lines: it starts where a line starts and
ends where a line ends, in front of the ending. -/
def OccursAsLines (before word after : Text) : Prop :=
  (before = [] ∨ before.getLast? = some '\n') ∧
    (after = [] ∧ word ≠ [] ∧ word.getLast? ≠ some '\n' ∨ ['\r', '\n'] <+: after ∨
      ['\n'] <+: after ∧ word.getLast? ≠ some '\r')

/-- The text of the lines of a match, with what is before it and after it. -/
structure Matched (file : Text) (searchMatch : SearchMatch) (before word after : Text) : Prop where
  file_eq : file = before ++ word ++ after
  count_before : before.count '\n' = searchMatch.startLine.toNat
  count_word : word.count '\n' + searchMatch.startLine.toNat = searchMatch.endLine.toNat
  asLines : OccursAsLines before word after

/-- The match is an interval of lines of the file. -/
def InRange (file : Text) (searchMatch : SearchMatch) : Prop :=
  searchMatch.startLine ≤ searchMatch.endLine ∧
    searchMatch.endLine.toNat < (sourceLines file).length

/-! ### One text at one place -/

/-- Two beginnings of a text that end with lines and have equally many are the same. -/
theorem eq_of_count_eq {before other rest rest' : Text} (heq : before ++ rest = other ++ rest')
    (hbefore : before = [] ∨ before.getLast? = some '\n')
    (hother : other = [] ∨ other.getLast? = some '\n')
    (hcount : before.count '\n' = other.count '\n') : before = other := by
  have hshort : ∀ t : Text, t.count '\n' = 0 → t.getLast? ≠ some '\n' := fun t hzero hlast =>
    List.count_eq_zero.mp hzero (List.mem_of_getLast? hlast)
  obtain ⟨t, rfl, -⟩ | ⟨t, rfl, -⟩ := List.append_eq_append_iff.mp heq
  · have hzero : t.count '\n' = 0 := by
      rw [List.count_append] at hcount
      omega
    by_cases ht : t = []
    · rw [ht, List.append_nil]
    · rw [List.append_eq_nil_iff, List.getLast?_append_of_ne_nil _ ht] at hother
      exact absurd (hother.resolve_left fun h => ht h.2) (hshort t hzero)
  · have hzero : t.count '\n' = 0 := by
      rw [List.count_append] at hcount
      omega
    by_cases ht : t = []
    · rw [ht, List.append_nil]
    · rw [List.append_eq_nil_iff, List.getLast?_append_of_ne_nil _ ht] at hbefore
      exact absurd (hbefore.resolve_left fun h => ht h.2) (hshort t hzero)

/-- A run of lines does not go on within its last line. -/
theorem eq_nil_of_occursAsLines {before word t after : Text}
    (hshort : OccursAsLines before word (t ++ after))
    (hlong : OccursAsLines before (word ++ t) after) (hzero : t.count '\n' = 0) : t = [] := by
  by_contra ht
  obtain ⟨c, t, rfl⟩ := List.exists_cons_of_ne_nil ht
  have hfree := List.count_eq_zero.mp hzero
  rcases hshort.2 with ⟨hnil, -⟩ | ⟨rest, hrest⟩ | ⟨⟨rest, hrest⟩, -⟩
  · cases hnil
  · -- What is between is the carriage return of the ending.
    obtain rfl : '\r' = c := (List.cons.inj hrest).1
    have hnext : '\n' :: rest = t ++ after := (List.cons.inj hrest).2
    cases t with
    | cons d t =>
      obtain rfl : '\n' = d := (List.cons.inj hnext).1
      exact hfree (by simp)
    | nil =>
      obtain rfl : '\n' :: rest = after := hnext
      rcases hlong.2 with ⟨hnil, -⟩ | ⟨rest', hrest'⟩ | ⟨-, hlast⟩
      · cases hnil
      · cases hrest'
      · exact hlast (by simp)
  · obtain ⟨rfl, -⟩ := List.cons.inj hrest
    exact hfree (List.mem_cons_self ..)

theorem Matched.unique {file before word after before' word' after' : Text} {m : SearchMatch}
    (h : Matched file m before word after) (h' : Matched file m before' word' after') :
    before = before' ∧ word = word' ∧ after = after' := by
  have hfile : before ++ (word ++ after) = before' ++ (word' ++ after') := by
    rw [← List.append_assoc, ← List.append_assoc, ← h.file_eq, h'.file_eq]
  have hbefore : before = before' :=
    eq_of_count_eq hfile h.asLines.1 h'.asLines.1 (h.count_before.trans h'.count_before.symm)
  subst hbefore
  have hcount : word.count '\n' = word'.count '\n' := by
    have := h.count_word
    have := h'.count_word
    omega
  have hrest := List.append_cancel_left hfile
  have hword : word = word' := by
    obtain ⟨t, rfl, rfl⟩ | ⟨t, rfl, rfl⟩ := List.append_eq_append_iff.mp hrest
    · have ht := eq_nil_of_occursAsLines h.asLines h'.asLines (by
        rw [List.count_append] at hcount
        omega)
      rw [ht, List.append_nil]
    · have ht := eq_nil_of_occursAsLines h'.asLines h.asLines (by
        rw [List.count_append] at hcount
        omega)
      rw [ht, List.append_nil]
  subst hword
  exact ⟨rfl, rfl, List.append_cancel_left hrest⟩

/-! ### The range of the lines -/

section Segments

variable {before middle after : List Text} {segment : Text}

theorem linesOf_append (before : List Text) (segment : Text) (after : List Text) :
    linesOf (before ++ segment :: after) =
      before.map stripReturn ++ linesOf (segment :: after) := by
  induction before with
  | nil => rfl
  | cons l before ih =>
    cases before with
    | nil => rfl
    | cons m before =>
      rw [List.cons_append, List.cons_append, linesOf, ← List.cons_append, ih]
      rfl

theorem length_linesOf_le (segments : List Text) : (linesOf segments).length ≤ segments.length := by
  induction segments with
  | nil => exact le_rfl
  | cons l segments ih =>
    cases segments with
    | nil =>
      rw [linesOf]
      split_ifs <;> simp
    | cons m segments => exact Nat.succ_le_succ ih

theorem intercalate_append (sep : Char) (before : List Text) (segment : Text) (after : List Text) :
    [sep].intercalate (before ++ segment :: after) =
      unlines sep before ++ [sep].intercalate (segment :: after) := by
  induction before with
  | nil => rfl
  | cons l before ih =>
    rw [List.cons_append, List.intercalate_cons_of_ne_nil (by simp), ih, unlines_cons]
    simp

theorem byteLen_unlines (ls : List Text) :
    byteLen (unlines '\n' ls) = (ls.map fun l => byteLen l + 1).sum := by
  induction ls with
  | nil => rfl
  | cons l ls ih =>
    rw [unlines_cons, byteLen_append, byteLen_cons, ih, List.map_cons, List.sum_cons]
    have hfeed : ('\n' : Char).utf8Size = 1 := by decide
    omega

theorem count_unlines {ls : List Text} (hls : ∀ l ∈ ls, '\n' ∉ l) :
    (unlines '\n' ls).count '\n' = ls.length := by
  induction ls with
  | nil => rfl
  | cons l ls ih =>
    obtain ⟨hl, hls⟩ := List.forall_mem_cons.mp hls
    rw [unlines_cons, List.count_append, List.count_cons_self, ih hls,
      List.count_eq_zero.mpr hl, Nat.zero_add, List.length_cons]

theorem getLast?_unlines (ls : List Text) :
    unlines '\n' ls = [] ∨ (unlines '\n' ls).getLast? = some '\n' := by
  rcases List.eq_nil_or_concat' ls with rfl | ⟨init, l, rfl⟩
  · exact Or.inl rfl
  · right
    rw [unlines_append, unlines_cons, unlines_nil, ← List.append_assoc, List.getLast?_concat]

/-- The bytes of lines and of their endings are those of the segments. -/
theorem byteLen_stripReturn (ls : List Text) :
    ((ls.map stripReturn).map byteLen).sum +
        (ls.map fun l => if l.getLast? = some '\r' then 2 else 1).sum =
      (ls.map fun l => byteLen l + 1).sum := by
  induction ls with
  | nil => rfl
  | cons l ls ih =>
    have hl : byteLen (stripReturn l) + (if l.getLast? = some '\r' then 2 else 1) =
        byteLen l + 1 := by
      rcases stripReturn_cases l with ⟨hlast, heq⟩ | ⟨hlast, heq⟩
      · have hreturn : ('\r' : Char).utf8Size = 1 := by decide
        rw [if_pos hlast]
        conv_rhs => rw [heq, byteLen_append, byteLen_cons, hreturn]
        rfl
      · rw [if_neg hlast, heq]
    simp only [List.map_cons, List.sum_cons]
    omega

end Segments

/-- The range of a match, from the segments of the file and its lines. -/
theorem fromSearchMatch_segments {file rest line segment : Text} {m : SearchMatch}
    {before middle after tail : List Text}
    (hsegments : segments file = before ++ (middle ++ segment :: after))
    (hlines : sourceLines file = before.map stripReturn ++ (middle.map stripReturn ++ line :: tail))
    (hstart : before.length = m.startLine.toNat)
    (hend : before.length + middle.length = m.endLine.toNat)
    (hfile : file = unlines '\n' before ++ (unlines '\n' middle ++ line) ++ rest) :
    fromSearchMatch file m =
      ⟨byteLen (unlines '\n' before), byteLen (unlines '\n' middle ++ line)⟩ := by
  have hlength : (sourceLines file).length =
      before.length + (middle.length + (tail.length + 1)) := by
    simp [hlines]
  have hne : (sourceLines file).isEmpty = false := by
    rw [← Bool.not_eq_true, List.isEmpty_iff_length_eq_zero, hlength]
    omega
  have hstartIdx : min m.startLine.toNat (sourceLines file).length = before.length := by omega
  have hendIdx : min (m.endLine.toNat + 1) (sourceLines file).length =
      before.length + middle.length + 1 := by omega
  have hbound : ¬((sourceLines file).length ≤ before.length ∨
      (sourceLines file).length < before.length + middle.length + 1 ∨
      before.length + middle.length + 1 < before.length) := by omega
  have hnewlines : (before.length + middle.length + 1 + 2 ^ 64 - before.length - 1) % 2 ^ 64 =
      middle.length := by
    have hsmall := m.endLine.toNat_lt
    omega
  have hcontent : (((sourceLines file).drop before.length).take
      (before.length + middle.length + 1 - before.length)) = middle.map stripReturn ++ [line] := by
    have hcount : before.length + middle.length + 1 - before.length =
        (middle.map stripReturn).length + 1 := by
      rw [List.length_map]
      omega
    rw [hlines, List.drop_left' (List.length_map _), hcount, List.take_length_add_append,
      List.take_succ_cons, List.take_zero]
  have hmiddle : ((segments file).drop before.length).take middle.length = middle := by
    rw [hsegments, List.drop_left, List.take_left]
  have hbefore : (segments file).take before.length = before := by rw [hsegments, List.take_left]
  have hpos : min (byteLen (unlines '\n' before)) (byteLen file) =
      byteLen (unlines '\n' before) := by
    rw [hfile, byteLen_append, byteLen_append]
    omega
  unfold fromSearchMatch
  simp only [hne, Bool.false_eq_true, ↓reduceIte, hstartIdx, hendIdx]
  rw [if_neg (by omega), hbefore, ← byteLen_unlines, hpos, hnewlines, hmiddle, hcontent]
  simp only [Bool.or_eq_true, decide_eq_true_eq, or_assoc, if_neg hbound]
  have hbytes := byteLen_stripReturn middle
  rw [← byteLen_unlines] at hbytes
  rw [Range.mk.injEq, byteLen_append]
  refine ⟨rfl, ?_⟩
  rw [List.map_append, List.sum_append, List.map_singleton, List.sum_singleton]
  omega

/-- The line of a segment, with what follows it in the file. -/
theorem line_cases {segment : Text} {after : List Text} (hsegment : '\n' ∉ segment)
    (hne : linesOf (segment :: after) ≠ []) :
    ∃ line rest tail, linesOf (segment :: after) = line :: tail ∧ '\n' ∉ line ∧
      ['\n'].intercalate (segment :: after) = line ++ rest ∧
      (rest = [] ∧ line ≠ [] ∨ ['\r', '\n'] <+: rest ∨
        ['\n'] <+: rest ∧ line.getLast? ≠ some '\r') := by
  cases after with
  | nil =>
    have hsegmentne : segment ≠ [] := by
      rintro rfl
      exact hne rfl
    refine ⟨segment, [], [], ?_, hsegment, by simp, Or.inl ⟨rfl, hsegmentne⟩⟩
    rw [linesOf, if_neg (by simpa using hsegmentne)]
  | cons next after =>
    have hsub := (stripReturn_sublist segment).subset
    rcases stripReturn_cases segment with ⟨-, heq⟩ | ⟨hlast, heq⟩
    · refine ⟨stripReturn segment, '\r' :: '\n' :: ['\n'].intercalate (next :: after), _, rfl,
        fun h => hsegment (hsub h), ?_, Or.inr (Or.inl ⟨_, rfl⟩)⟩
      rw [List.intercalate_cons_of_ne_nil (List.cons_ne_nil _ _)]
      conv_lhs => rw [heq]
      simp
    · refine ⟨stripReturn segment, '\n' :: ['\n'].intercalate (next :: after), _, rfl,
        fun h => hsegment (hsub h), ?_, Or.inr (Or.inr ⟨⟨_, rfl⟩, by rwa [heq]⟩)⟩
      rw [List.intercalate_cons_of_ne_nil (List.cons_ne_nil _ _), heq]
      simp

/-- The range of a match in the file is the text of its lines, which are read off it with the
endings between them. -/
theorem fromSearchMatch_lines {file : Text} {m : SearchMatch} (h : InRange file m) :
    ∃ before word after, Matched file m before word after ∧
      fromSearchMatch file m = ⟨byteLen before, byteLen word⟩ ∧
      ∃ middle line, word = unlines '\n' middle ++ line ∧
        ((sourceLines file).drop m.startLine.toNat).take
            (m.endLine.toNat + 1 - m.startLine.toNat) = middle.map stripReturn ++ [line] := by
  obtain ⟨hle, hlt⟩ := h
  have hle : m.startLine.toNat ≤ m.endLine.toNat := UInt32.le_iff_toNat_le.mp hle
  have hsegs : m.endLine.toNat < (segments file).length := hlt.trans_le (length_linesOf_le _)
  set before := (segments file).take m.startLine.toNat with hbefore
  set middle := ((segments file).drop m.startLine.toNat).take
    (m.endLine.toNat - m.startLine.toNat) with hmiddle
  have hsplit : segments file = before ++ (middle ++ (segments file).drop m.endLine.toNat) := by
    have hdrop : (segments file).drop m.endLine.toNat =
        ((segments file).drop m.startLine.toNat).drop (m.endLine.toNat - m.startLine.toNat) := by
      rw [List.drop_drop, Nat.add_sub_cancel' hle]
    rw [hdrop, List.take_append_drop, List.take_append_drop]
  obtain ⟨segment, after, hrest⟩ := List.exists_cons_of_length_pos
    (l := (segments file).drop m.endLine.toNat) (by rw [List.length_drop]; omega)
  rw [hrest] at hsplit
  have hstart : before.length = m.startLine.toNat := by
    rw [hbefore, List.length_take]
    omega
  have hend : before.length + middle.length = m.endLine.toNat := by
    rw [hstart, hmiddle, List.length_take, List.length_drop]
    omega
  have hfree : ∀ l ∈ segments file, '\n' ∉ l := fun l hl => notMem_of_mem_splitOn hl
  rw [hsplit] at hfree
  have hlines : sourceLines file = before.map stripReturn ++
      (middle.map stripReturn ++ linesOf (segment :: after)) := by
    rw [sourceLines, hsplit, ← List.append_assoc, linesOf_append, List.map_append,
      List.append_assoc]
  have hne : linesOf (segment :: after) ≠ [] := by
    intro hnil
    rw [hlines, hnil] at hlt
    simp only [List.append_nil, List.length_append, List.length_map] at hlt
    omega
  obtain ⟨line, rest, tail, hline, hfreeline, hintercalate, hends⟩ :=
    line_cases (hfree segment (by simp)) hne
  have hfile : file = unlines '\n' before ++ (unlines '\n' middle ++ line) ++ rest := by
    have hwhole : ['\n'].intercalate (segments file) = file := List.intercalate_splitOn '\n'
    rw [← hwhole, hsplit, ← List.append_assoc, intercalate_append, hintercalate, unlines_append]
    simp only [List.append_assoc]
  rw [hline] at hlines
  have hmatched : ((sourceLines file).drop m.startLine.toNat).take
      (m.endLine.toNat + 1 - m.startLine.toNat) = middle.map stripReturn ++ [line] := by
    have hcount : m.endLine.toNat + 1 - m.startLine.toNat =
        (middle.map stripReturn).length + 1 := by
      rw [List.length_map]
      omega
    rw [hlines, List.drop_left' ((List.length_map _).trans hstart), hcount,
      List.take_length_add_append, List.take_succ_cons, List.take_zero]
  refine ⟨unlines '\n' before, unlines '\n' middle ++ line, rest, ?_,
    fromSearchMatch_segments hsplit hlines hstart hend hfile, middle, line, rfl, hmatched⟩
  have hcountline := List.count_eq_zero.mpr hfreeline
  constructor
  · exact hfile
  · rw [count_unlines fun l hl => hfree l (List.mem_append_left _ hl), hstart]
  · rw [List.count_append, hcountline, count_unlines fun l hl => hfree l (by simp [hl])]
    omega
  · refine ⟨getLast?_unlines before, ?_⟩
    rcases hends with ⟨hrest, hne⟩ | hcrlf | ⟨hlf, hlast⟩
    · refine Or.inl ⟨hrest, by simp [hne], ?_⟩
      rw [List.getLast?_append_of_ne_nil _ hne]
      exact fun h => hfreeline (List.mem_of_getLast? h)
    · exact Or.inr (Or.inl hcrlf)
    · refine Or.inr (Or.inr ⟨hlf, ?_⟩)
      by_cases hne : line = []
      · rw [hne, List.append_nil]
        rcases getLast?_unlines middle with hnil | hfeed
        · rw [hnil]
          nofun
        · rw [hfeed]
          decide
      · rwa [List.getLast?_append_of_ne_nil _ hne]

theorem fromSearchMatch_spec {file : Text} {m : SearchMatch} (h : InRange file m) :
    ∃ before word after, Matched file m before word after ∧
      fromSearchMatch file m = ⟨byteLen before, byteLen word⟩ := by
  obtain ⟨before, word, after, hmatched, hrange, -⟩ := fromSearchMatch_lines h
  exact ⟨before, word, after, hmatched, hrange⟩

/-- The range of a match in the file lies between characters and holds the lines of the match
with the endings between them, and not the last one. -/
theorem fromSearchMatch_covers {file : Text} {m : SearchMatch} (h : InRange file m) :
    ∃ before word after, Matched file m before word after ∧
      (fromSearchMatch file m).start = byteLen before ∧
      getRange file (fromSearchMatch file m).start
        ((fromSearchMatch file m).start + (fromSearchMatch file m).length) = some word ∧
      ∃ middle line, word = unlines '\n' middle ++ line ∧
        ((sourceLines file).drop m.startLine.toNat).take
            (m.endLine.toNat + 1 - m.startLine.toNat) = middle.map stripReturn ++ [line] := by
  obtain ⟨before, word, after, hmatched, hrange, hlines⟩ := fromSearchMatch_lines h
  refine ⟨before, word, after, hmatched, by rw [hrange], ?_, hlines⟩
  have hget := getRange_append before word after
  rw [← hmatched.file_eq, byteLen_append] at hget
  rw [hrange]
  exact hget

/-- A file with endings of both kinds and none at its end. -/
def mixedFile : Text := ['é', '\r', '\n', 'b', '\n', 'c']

/-- Its first two lines. -/
def firstTwo : SearchMatch := ⟨0, 1⟩

theorem fromSearchMatch_covers_mixed :
    ∃ before word after, Matched mixedFile firstTwo before word after ∧
      (fromSearchMatch mixedFile firstTwo).start = byteLen before ∧
      getRange mixedFile (fromSearchMatch mixedFile firstTwo).start
        ((fromSearchMatch mixedFile firstTwo).start +
          (fromSearchMatch mixedFile firstTwo).length) = some word ∧
      ∃ middle line, word = unlines '\n' middle ++ line ∧
        ((sourceLines mixedFile).drop firstTwo.startLine.toNat).take
            (firstTwo.endLine.toNat + 1 - firstTwo.startLine.toNat) =
          middle.map stripReturn ++ [line] :=
  fromSearchMatch_covers ⟨by decide, by decide⟩

end HeliosLite.Patch
