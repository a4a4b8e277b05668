import HeliosLite.Domain.Conversation
import HeliosLite.Theory.Periodicity

/-!
# Doom loops

Before each request the tool calls of a conversation are searched for a block that repeats at
their end. For each length of a block the sequence is cut into chunks from its front, so that
the last chunk may be the front of a block only, which is counted as a whole one.

## Main definitions

* `countRecentPatternRepetitions` — how often a block of a length repeats
* `checkRepeatingPattern` — the search
* `FirstPattern` — the block length at which the search ends
* `Sound`, `Loops` — what the search promises

## Main results

* `countRecentPatternRepetitions_eq` — the count, by how far the period reaches
* `checkRepeatingPattern_eq` — the search, by the first block length
* `checkRepeatingPattern_sound_iff` — when a reported loop is one
* `complete_iff` — when a loop is reported
-/

namespace HeliosLite

open Theory

namespace DoomLoop

section Search

variable {T : Type} [DecidableEq T]

/-- `sequence.get(a..b)`. -/
def slice (sequence : List T) (a b : ℕ) : Option (List T) :=
  if a ≤ b ∧ b ≤ sequence.length then some ((sequence.drop a).take (b - a)) else none

/-- The chunks before a position that equal the pattern, until one differs. -/
def countBackwards (sequence : List T) (patternLength : ℕ) (pattern : List T) : ℕ → ℕ → ℕ
  | 0, _ => 0
  | steps + 1, pos =>
    if patternLength ≤ pos then
      let pos := pos - patternLength
      match slice sequence pos (pos + patternLength) with
      | none => 0
      | some chunk =>
        if chunk = pattern then countBackwards sequence patternLength pattern steps pos + 1 else 0
    else 0

/-- The whole chunks that equal the last of them. -/
def countComplete (sequence : List T) (patternLength checkLen : ℕ) : ℕ :=
  if checkLen < patternLength then 0
  else
    let patternStart := checkLen - patternLength
    match slice sequence patternStart checkLen with
    | none => 0
    | some pattern =>
      countBackwards sequence patternLength pattern sequence.length patternStart + 1

/-- Whether the last, partial chunk is the front of the chunk before it. -/
def matchesPartial (sequence : List T) (patternLength partialLen : ℕ) : Bool :=
  let totalLen := sequence.length
  if totalLen < patternLength + partialLen then false
  else
    let patternStart := totalLen - partialLen - patternLength
    match slice sequence patternStart (patternStart + patternLength),
      slice sequence (totalLen - partialLen) totalLen with
    | some pattern, some rest => slice pattern 0 partialLen == some rest
    | _, _ => false

/-- How often a pattern of the length repeats at the end of the sequence; a partial chunk at
the end counts as a repetition. -/
def countRecentPatternRepetitions (sequence : List T) (patternLength : ℕ) : ℕ :=
  if patternLength = 0 ∨ sequence.length < patternLength then 0
  else
    let partialLen := sequence.length % patternLength
    if partialLen = 0 then countComplete sequence patternLength sequence.length
    else if matchesPartial sequence patternLength partialLen then
      countComplete sequence patternLength (sequence.length - partialLen) + 1
    else 0

/-- The pattern lengths are tried in their order. The product is less than twice the length of
the sequence, so that only the difference may fail, which ends the search. -/
def tryPatterns (threshold : ℕ) (sequence : List T) : List ℕ → Option (ℕ × ℕ)
  | [] => none
  | patternLength :: lengths =>
    let completeRepetitions := countRecentPatternRepetitions sequence patternLength
    if threshold ≤ completeRepetitions then
      let patternOffset := completeRepetitions * patternLength
      if sequence.length < patternOffset then none
      else if sequence.length - patternOffset < sequence.length then
        some (sequence.length - patternOffset, completeRepetitions)
      else tryPatterns threshold sequence lengths
    else tryPatterns threshold sequence lengths

/-- The start and the count of a repeating pattern at the end of the sequence. -/
def checkRepeatingPattern (threshold : ℕ) (sequence : List T) : Option (ℕ × ℕ) :=
  if sequence = [] then none
  else if sequence.length < threshold then none
  else tryPatterns threshold sequence (List.range' 1 (sequence.length - 1))

/-! ### Chunks -/

variable {sequence w rest : List T} {p m a b : ℕ}

omit [DecidableEq T] in
theorem slice_eq (h : b ≤ sequence.length) (hab : a ≤ b) :
    slice sequence a b = some ((sequence.drop a).take (b - a)) := if_pos ⟨hab, h⟩

omit [DecidableEq T] in
/-- A chunk of the front of the sequence. -/
theorem slice_append (h : b ≤ w.length) (hab : a ≤ b) :
    slice (w ++ rest) a b = some ((lastly (w.length - a) w).take (b - a)) := by
  rw [slice_eq (by rw [List.length_append]; omega) hab, lastly,
    show w.length - (w.length - a) = a by omega, List.drop_append_of_le_length (by omega),
    List.take_append_of_le_length (by rw [List.length_drop]; omega)]

/-- The chunks that equal the pattern are those that the period reaches. -/
theorem countBackwards_eq {pattern : List T} (hp : 0 < p) (steps : ℕ) {copies : ℕ}
    (hcopies : 0 < copies) (hlength : copies * p ≤ w.length) (hreach : copies * p ≤ reach p w)
    (hpattern : (lastly (copies * p) w).take p = pattern)
    (hsteps : w.length - copies * p ≤ steps) :
    copies + countBackwards (w ++ rest) p pattern steps (w.length - copies * p) =
      reach p w / p := by
  induction steps generalizing copies with
  | zero =>
    have hall : reach p w = copies * p := le_antisymm (reach_le.trans (by omega)) hreach
    rw [countBackwards, hall, Nat.mul_div_cancel _ hp, Nat.add_zero]
  | succ steps ih =>
    have hle : p ≤ copies * p := Nat.le_mul_of_pos_left p hcopies
    rw [countBackwards]
    by_cases hroom : p ≤ w.length - copies * p
    · have hsucc : (copies + 1) * p = copies * p + p := Nat.succ_mul copies p
      have hpos : w.length - copies * p - p = w.length - (copies + 1) * p := by omega
      have hchunk := @slice_append T w rest (w.length - (copies + 1) * p)
        (w.length - (copies + 1) * p + p) (by omega) (by omega)
      rw [Nat.add_sub_cancel_left,
        show w.length - (w.length - (copies + 1) * p) = (copies + 1) * p by omega] at hchunk
      have hmore := add_le_reach_iff (l := w) hle (by omega)
      rw [← hsucc, hpattern] at hmore
      rw [if_pos hroom]
      dsimp only
      rw [hpos, hchunk]
      dsimp only
      by_cases hequal : (lastly ((copies + 1) * p) w).take p = pattern
      · rw [if_pos hequal, ← ih (by omega : 0 < copies + 1) (by omega)
          (hmore.mpr ⟨hreach, hequal⟩) hequal
          (by omega)]
        omega
      · have hshort : ¬(copies + 1) * p ≤ reach p w := fun h => hequal (hmore.mp h).2
        rw [if_neg hequal, Nat.add_zero]
        exact (Nat.div_eq_of_lt_le hreach (not_le.mp hshort)).symm
    · -- what is left is shorter than a chunk
      have hshort : reach p w < (copies + 1) * p := by
        have hall := reach_le (p := p) (l := w)
        rw [Nat.succ_mul]
        omega
      rw [if_neg hroom, Nat.add_zero]
      exact (Nat.div_eq_of_lt_le hreach hshort).symm

theorem countComplete_eq (hp : 0 < p) (h : p ≤ w.length) :
    countComplete (w ++ rest) p w.length = reach p w / p := by
  have hpattern := @slice_append T w rest (w.length - p) w.length le_rfl (by omega)
  rw [show w.length - (w.length - p) = p by omega,
    List.take_of_length_le (length_lastly h).le] at hpattern
  have hcount := @countBackwards_eq T _ w rest p (lastly p w) hp
    (w ++ rest).length 1 Nat.one_pos (by omega)
    (le_reach_of_le (by omega) (Nat.one_mul p).le) (by
      rw [Nat.one_mul, List.take_of_length_le (length_lastly h).le]) (by
      rw [List.length_append]; omega)
  rw [Nat.one_mul] at hcount
  rw [countComplete, if_neg (not_lt.mpr h)]
  dsimp only
  rw [hpattern]
  dsimp only
  rw [← hcount, Nat.add_comm]

/-- The partial chunk is the front of the chunk before it. -/
theorem matchesPartial_iff (h : p ≤ w.length) (hrest : rest.length ≤ p) :
    matchesPartial (w ++ rest) p rest.length = true ↔ rest = (lastly p w).take rest.length := by
  have hpattern : slice (w ++ rest) (w.length - p) (w.length - p + p) = some (lastly p w) := by
    rw [slice_append (by omega) (by omega), Nat.add_sub_cancel_left,
      show w.length - (w.length - p) = p by omega,
      List.take_of_length_le (length_lastly h).le]
  have hchunk : slice (w ++ rest) w.length (w.length + rest.length) = some rest := by
    rw [slice_eq (List.length_append).ge (Nat.le_add_right _ _), List.drop_left',
      Nat.add_sub_cancel_left, List.take_length]
    rfl
  have hfront : slice (lastly p w) 0 rest.length = some ((lastly p w).take rest.length) :=
    slice_eq (by rw [length_lastly h]; exact hrest) (Nat.zero_le _)
  rw [matchesPartial]
  dsimp only
  rw [List.length_append, if_neg (by omega), Nat.add_sub_cancel, hpattern, hchunk]
  dsimp only
  rw [hfront, beq_iff_eq, Option.some.injEq, eq_comm]

/-- How many copies of a block a search finds, by how far its length reaches as a period. -/
def copiesFound (p length reached : ℕ) : ℕ :=
  if length % p = 0 then reached / p
  else if p + length % p ≤ reached then (reached - length % p) / p + 1
  else 0

theorem countRecentPatternRepetitions_eq (hp : 0 < p) (h : p ≤ sequence.length) :
    countRecentPatternRepetitions sequence p =
      copiesFound p sequence.length (reach p sequence) := by
  rw [countRecentPatternRepetitions, if_neg (by omega), copiesFound]
  dsimp only
  by_cases hwhole : sequence.length % p = 0
  · have hcount := @countComplete_eq T _ sequence [] p hp h
    rw [List.append_nil] at hcount
    rw [if_pos hwhole, if_pos hwhole, hcount]
  rw [if_neg hwhole, if_neg hwhole]
  -- the sequence is its whole chunks and a rest
  obtain ⟨w, rest, rfl, hrest, hw⟩ : ∃ w rest : List T, sequence = w ++ rest ∧
      rest.length = sequence.length % p ∧ p ≤ w.length := by
    refine ⟨sequence.take (sequence.length - sequence.length % p),
      sequence.drop (sequence.length - sequence.length % p),
      (List.take_append_drop _ _).symm, ?_, ?_⟩
    · have hle := Nat.mod_le sequence.length p
      rw [List.length_drop]
      omega
    · have hchunks : p ≤ sequence.length / p * p :=
        Nat.le_mul_of_pos_left p (Nat.div_pos h hp)
      have hdiv := Nat.div_add_mod' sequence.length p
      rw [List.length_take]
      omega
  have hshort : rest.length ≤ p := hrest ▸ (Nat.mod_lt _ hp).le
  rw [← hrest, show (w ++ rest).length - rest.length = w.length by
    rw [List.length_append, Nat.add_sub_cancel], countComplete_eq hp hw]
  by_cases hmatch : rest = (lastly p w).take rest.length
  · have hreach := reach_append hw hshort hmatch
    have hpw : p ≤ reach p w := le_reach_of_le hw le_rfl
    rw [if_pos ((matchesPartial_iff hw hshort).mpr hmatch), if_pos (by omega), hreach,
      Nat.add_sub_cancel]
  · have hreach : ¬p + rest.length ≤ reach p (w ++ rest) := fun hle =>
      hmatch ((le_reach_append_iff le_rfl hw hshort).mp hle).2
    rw [if_neg fun hchunk => hmatch ((matchesPartial_iff hw hshort).mp hchunk), if_neg hreach]

/-! ### The search -/

/-- The first block length at which the count reaches the threshold. -/
structure FirstPattern (threshold : ℕ) (sequence : List T) (p : ℕ) : Prop where
  pos : 0 < p
  lt : p < sequence.length
  enough : threshold ≤ copiesFound p sequence.length (reach p sequence)
  first : ∀ q, 0 < q → q < p → copiesFound q sequence.length (reach q sequence) < threshold

/-- What the search does with a block length whose count reaches the threshold. -/
def outcome (sequence : List T) (p : ℕ) : Option (ℕ × ℕ) :=
  let copies := copiesFound p sequence.length (reach p sequence)
  if sequence.length < copies * p then none else some (sequence.length - copies * p, copies)

theorem mul_le_iff_mod_lt {p r n : ℕ} (hp : 0 < p) (hr : r ≤ n) :
    ((n - r) / p + 1) * p ≤ n ↔ n % p < r := by
  have hdiv := Nat.div_add_mod' n p
  rw [← Nat.le_div_iff_mul_le hp, Nat.add_one_le_iff, Nat.div_lt_iff_lt_mul hp]
  omega

/-- The last chunk takes part in the copies unless the period reaches the whole sequence. -/
theorem mul_le_length_iff {p reached n : ℕ} (hp : 0 < p) (h : reached ≤ n)
    (hr : n % p ≤ reached) : ((reached - n % p) / p + 1) * p ≤ n ↔ reached ≠ n := by
  have hdiv := Nat.div_add_mod' n p
  rw [← Nat.le_div_iff_mul_le hp, Nat.add_one_le_iff, Nat.div_lt_iff_lt_mul hp]
  omega

theorem copiesFound_le {p n reached : ℕ} (hpos : 0 < p) (hn : 0 < n) (h : reached ≤ n) :
    copiesFound p n reached ≤ n := by
  rw [copiesFound]
  split_ifs with hwhole hreach
  · exact (Nat.div_le_self reached p).trans h
  · have hp : 2 ≤ p := by
      by_contra hlt
      obtain rfl : p = 1 := by omega
      exact hwhole (Nat.mod_one n)
    have hhalf : (reached - n % p) / p ≤ (n - 1) / 2 := by
      apply (Nat.div_le_div_left hp (by decide)).trans
      apply Nat.div_le_div_right
      omega
    omega
  · exact Nat.zero_le n

variable {threshold : ℕ}

namespace FirstPattern

variable (h : FirstPattern threshold sequence p)

include h

theorem copies_pos : 0 < copiesFound p sequence.length (reach p sequence) := by
  rcases Nat.eq_zero_or_pos threshold with hzero | hpos
  · -- without a threshold the first length is 1
    have hone : p = 1 := by
      by_contra hne
      have hnone := h.first 1 Nat.one_pos (by have := h.pos; omega)
      rw [hzero] at hnone
      exact Nat.not_lt_zero _ hnone
    have hlt := h.lt
    have hreach : 1 ≤ reach p sequence := le_reach_of_le (by omega) h.pos
    rw [hone] at hreach ⊢
    rw [copiesFound, if_pos (Nat.mod_one _), Nat.div_one]
    exact hreach
  · exact hpos.trans_le h.enough

/-- A partial chunk is reached. -/
theorem le_reach (hchunk : sequence.length % p ≠ 0) :
    p + sequence.length % p ≤ reach p sequence ∧
      copiesFound p sequence.length (reach p sequence) =
        (reach p sequence - sequence.length % p) / p + 1 := by
  have hpos := h.copies_pos
  rw [copiesFound, if_neg hchunk] at hpos ⊢
  split_ifs at hpos ⊢ with hreach
  · exact ⟨hreach, rfl⟩
  · omega

/-- The copies fit into the sequence unless it is periodic with a partial chunk at its end. -/
theorem mul_le_length_iff : copiesFound p sequence.length (reach p sequence) * p ≤
    sequence.length ↔ sequence.length % p = 0 ∨ reach p sequence ≠ sequence.length := by
  by_cases hchunk : sequence.length % p = 0
  · refine iff_of_true ?_ (Or.inl hchunk)
    rw [copiesFound, if_pos hchunk]
    exact (Nat.div_mul_le_self _ _).trans reach_le
  · obtain ⟨hreach, heq⟩ := h.le_reach hchunk
    rw [heq, DoomLoop.mul_le_length_iff h.pos reach_le (by omega), or_iff_right hchunk]

/-- The copies are copies unless the last chunk stands for more than there is of it. -/
theorem mul_le_reach_iff : copiesFound p sequence.length (reach p sequence) * p ≤
    reach p sequence ↔
      sequence.length % p = 0 ∨ reach p sequence % p < sequence.length % p := by
  by_cases hchunk : sequence.length % p = 0
  · refine iff_of_true ?_ (Or.inl hchunk)
    rw [copiesFound, if_pos hchunk]
    exact Nat.div_mul_le_self _ _
  · obtain ⟨hreach, heq⟩ := h.le_reach hchunk
    rw [heq, mul_le_iff_mod_lt h.pos (by omega), or_iff_right hchunk]

theorem threshold_le_length : threshold ≤ sequence.length :=
  h.enough.trans (copiesFound_le h.pos (h.pos.trans h.lt) reach_le)

end FirstPattern

theorem tryPatterns_of_firstPattern (h : FirstPattern threshold sequence p) (m : ℕ) {a : ℕ}
    (ha : 0 < a) (hap : a ≤ p) (hm : p < a + m) (hn : a + m ≤ sequence.length) :
    tryPatterns threshold sequence (List.range' a m) = outcome sequence p := by
  induction m generalizing a with
  | zero => omega
  | succ m ih =>
    rw [List.range'_succ, tryPatterns]
    dsimp only
    rw [countRecentPatternRepetitions_eq ha (by omega)]
    by_cases hfirst : a = p
    · subst hfirst
      have hpos := Nat.mul_pos h.copies_pos h.pos
      rw [if_pos h.enough, outcome]
      split_ifs with hlong hvalid
      · rfl
      · rfl
      · omega
    · rw [if_neg (not_le.mpr (h.first a ha (by omega)))]
      exact ih (by omega) (by omega) (by omega) (by omega)

theorem tryPatterns_of_none (m : ℕ) {a : ℕ} (ha : 0 < a) (hn : a + m ≤ sequence.length)
    (h : ∀ q, a ≤ q → q < a + m →
      copiesFound q sequence.length (reach q sequence) < threshold) :
    tryPatterns threshold sequence (List.range' a m) = none := by
  induction m generalizing a with
  | zero => rfl
  | succ m ih =>
    rw [List.range'_succ, tryPatterns]
    dsimp only
    rw [countRecentPatternRepetitions_eq ha (by omega),
      if_neg (not_le.mpr (h a le_rfl (by omega)))]
    exact ih (by omega) (by omega) fun q hq hlt => h q (by omega) (by omega)

/-- The search ends at the first block length, if there is one. -/
theorem checkRepeatingPattern_eq (h : FirstPattern threshold sequence p) :
    checkRepeatingPattern threshold sequence = outcome sequence p := by
  have hlt := h.lt
  rw [checkRepeatingPattern, if_neg (by rintro rfl; exact absurd hlt (Nat.not_lt_zero p)),
    if_neg (not_lt.mpr h.threshold_le_length)]
  exact tryPatterns_of_firstPattern h _ Nat.one_pos h.pos (by omega) (by omega)

theorem exists_firstPattern {q : ℕ} (hpos : 0 < q) (hlt : q < sequence.length)
    (h : threshold ≤ copiesFound q sequence.length (reach q sequence)) :
    ∃ p, FirstPattern threshold sequence p := by
  have hex : ∃ q, 0 < q ∧ q < sequence.length ∧
      threshold ≤ copiesFound q sequence.length (reach q sequence) := ⟨q, hpos, hlt, h⟩
  obtain ⟨hpos', hlt', henough⟩ := Nat.find_spec hex
  refine ⟨Nat.find hex, hpos', hlt', henough, ?_⟩
  intro r hr hrlt
  by_contra hle
  exact Nat.find_min hex hrlt ⟨hr, hrlt.trans hlt', not_lt.mp hle⟩

theorem exists_of_checkRepeatingPattern {result : ℕ × ℕ}
    (h : checkRepeatingPattern threshold sequence = some result) :
    ∃ p, FirstPattern threshold sequence p := by
  by_contra hnone
  rw [checkRepeatingPattern] at h
  split_ifs at h with hnil hshort
  have hlength : 0 < sequence.length := List.length_pos_of_ne_nil hnil
  rw [tryPatterns_of_none _ Nat.one_pos (by omega)] at h
  · cases h
  · intro q hq hlt
    by_contra hle
    exact hnone (exists_firstPattern (by omega) (by omega) (not_lt.mp hle))

/-! ### Soundness and completeness -/

/-- The sequence ends with this many copies of a block, which start there. -/
def EndsWithCopies (sequence : List T) (start count : ℕ) : Prop :=
  ∃ block : List T, block ≠ [] ∧ sequence.drop start = (List.replicate count block).flatten

/-- Some block comes at least as often as the threshold at the end. -/
def Loops (threshold : ℕ) (sequence : List T) : Prop :=
  ∃ (block : List T) (count : ℕ), block ≠ [] ∧ threshold ≤ count ∧
    (List.replicate count block).flatten <:+ sequence

/-- A reported loop is one, and nothing is reported where nothing loops. -/
structure Sound (threshold : ℕ) (sequence : List T) : Prop where
  copies : ∀ start count, checkRepeatingPattern threshold sequence = some (start, count) →
    threshold ≤ count ∧ EndsWithCopies sequence start count
  silent : ¬Loops threshold sequence → checkRepeatingPattern threshold sequence = none

/-- The copies that are found are copies if the period reaches them. -/
theorem endsWithCopies_iff (h : FirstPattern threshold sequence p)
    (hfits : copiesFound p sequence.length (reach p sequence) * p ≤ sequence.length) :
    EndsWithCopies sequence
        (sequence.length - copiesFound p sequence.length (reach p sequence) * p)
        (copiesFound p sequence.length (reach p sequence)) ↔
      copiesFound p sequence.length (reach p sequence) * p ≤ reach p sequence := by
  have hpos := h.copies_pos
  rw [le_reach_iff hfits, lastly]
  generalize copiesFound p sequence.length (reach p sequence) = copies at *
  have hlength : (sequence.drop (sequence.length - copies * p)).length = copies * p :=
    length_lastly hfits
  constructor
  · rintro ⟨block, -, heq⟩
    have hblock : block.length = p := by
      rw [heq, length_flatten_replicate] at hlength
      exact Nat.eq_of_mul_eq_mul_left hpos hlength
    rw [heq, ← hblock]
    exact hasPeriod_flatten_replicate copies block
  · intro hperiod
    refine ⟨(sequence.drop (sequence.length - copies * p)).take p, ?_,
      eq_flatten_replicate copies hperiod hlength⟩
    apply List.ne_nil_of_length_pos
    rw [List.length_take, hlength]
    exact lt_min h.pos (Nat.mul_pos hpos h.pos)

/-- What is reported is a loop if and only if the first block length at which the count
reaches the threshold divides the length of the sequence, or is a period of all of it, or
reaches less far into the block before the copies than the last chunk reaches into its own. -/
theorem checkRepeatingPattern_sound_iff (threshold : ℕ) (sequence : List T) :
    Sound threshold sequence ↔ ∀ p, FirstPattern threshold sequence p →
      sequence.length % p = 0 ∨ reach p sequence = sequence.length ∨
        reach p sequence % p < sequence.length % p := by
  constructor
  · intro hsound p h
    by_cases hfits : copiesFound p sequence.length (reach p sequence) * p ≤ sequence.length
    · have hcheck := checkRepeatingPattern_eq h
      rw [outcome, if_neg (not_lt.mpr hfits)] at hcheck
      obtain ⟨-, hcopies⟩ := hsound.copies _ _ hcheck
      rcases h.mul_le_reach_iff.mp ((endsWithCopies_iff h hfits).mp hcopies) with hwhole | hless
      · exact Or.inl hwhole
      · exact Or.inr (Or.inr hless)
    · rw [h.mul_le_length_iff, not_or, not_not] at hfits
      exact Or.inr (Or.inl hfits.2)
  · intro hcondition
    have hcopies : ∀ start count, checkRepeatingPattern threshold sequence = some (start, count) →
        threshold ≤ count ∧ EndsWithCopies sequence start count := by
      intro start count hcheck
      obtain ⟨p, h⟩ := exists_of_checkRepeatingPattern hcheck
      rw [checkRepeatingPattern_eq h, outcome] at hcheck
      split_ifs at hcheck with hlong
      obtain ⟨rfl, rfl⟩ := Prod.mk.inj (Option.some.inj hcheck)
      have hfits := not_lt.mp hlong
      refine ⟨h.enough, (endsWithCopies_iff h hfits).mpr (h.mul_le_reach_iff.mpr ?_)⟩
      rcases hcondition p h with hwhole | hall | hless
      · exact Or.inl hwhole
      · exact Or.inl ((h.mul_le_length_iff.mp hfits).resolve_right fun hne => hne hall)
      · exact Or.inr hless
    refine ⟨hcopies, ?_⟩
    intro hnone
    by_contra hsome
    obtain ⟨⟨start, count⟩, hcheck⟩ := Option.ne_none_iff_exists'.mp hsome
    obtain ⟨henough, block, hblock, heq⟩ := hcopies start count hcheck
    exact hnone ⟨block, count, hblock, henough, heq ▸ List.drop_suffix start sequence⟩

/-- A loop reaches the threshold at the length of its block. -/
theorem enough_of_loops {block : List T} {count : ℕ} (hblock : block ≠ []) (htwo : 2 ≤ threshold)
    (hcount : threshold ≤ count) (hsuffix : (List.replicate count block).flatten <:+ sequence) :
    block.length < sequence.length ∧
      threshold ≤ copiesFound block.length sequence.length (reach block.length sequence) := by
  have hpos : 0 < block.length := List.length_pos_of_ne_nil hblock
  have hlength := length_flatten_replicate count block
  have hle : count * block.length ≤ sequence.length := hlength ▸ hsuffix.length_le
  have hreach : count * block.length ≤ reach block.length sequence := by
    rw [le_reach_iff hle, lastly]
    have hdrop := List.suffix_iff_eq_drop.mp hsuffix
    rw [hlength] at hdrop
    rw [← hdrop]
    exact hasPeriod_flatten_replicate count block
  have htwice : 2 * block.length ≤ count * block.length :=
    Nat.mul_le_mul_right _ (htwo.trans hcount)
  refine ⟨by omega, hcount.trans ?_⟩
  have hmod := Nat.mod_lt sequence.length hpos
  rw [copiesFound]
  split_ifs with hwhole hroom
  · exact (Nat.le_div_iff_mul_le hpos).mpr hreach
  · obtain ⟨copies, rfl⟩ : ∃ copies, count = copies + 1 := ⟨count - 1, by omega⟩
    rw [Nat.succ_mul] at hreach
    exact Nat.succ_le_succ ((Nat.le_div_iff_mul_le hpos).mpr (by omega))
  · omega

/-- A loop is reported if and only if the first block length at which the count reaches the
threshold divides the length of the sequence or is no period of all of it. -/
theorem complete_iff (htwo : 2 ≤ threshold) (sequence : List T) :
    (Loops threshold sequence → (checkRepeatingPattern threshold sequence).isSome) ↔
      (Loops threshold sequence → ∀ p, FirstPattern threshold sequence p →
        sequence.length % p = 0 ∨ reach p sequence ≠ sequence.length) := by
  have hsome : ∀ p, FirstPattern threshold sequence p →
      ((checkRepeatingPattern threshold sequence).isSome ↔
        sequence.length % p = 0 ∨ reach p sequence ≠ sequence.length) := by
    intro p h
    rw [← h.mul_le_length_iff, checkRepeatingPattern_eq h, outcome]
    split_ifs with hlong
    · exact iff_of_false Bool.false_ne_true (not_le.mpr hlong)
    · exact iff_of_true rfl (not_lt.mp hlong)
  constructor
  · exact fun hcomplete hloops p h => (hsome p h).mp (hcomplete hloops)
  · intro hcondition hloops
    obtain ⟨block, count, hblock, hcount, hsuffix⟩ := hloops
    obtain ⟨hlt, henough⟩ := enough_of_loops hblock htwo hcount hsuffix
    obtain ⟨p, h⟩ := exists_firstPattern (List.length_pos_of_ne_nil hblock) hlt henough
    exact (hsome p h).mpr (hcondition ⟨block, count, hblock, hcount, hsuffix⟩ p h)

end Search

/-! ### The tool calls of a conversation -/

/-- The text messages of the assistant. -/
def extractAssistantMessages (messages : List ContextMessage) : List TextMessage :=
  messages.filterMap fun
    | .text message => if message.role = .assistant then some message else none
    | _ => none

/-- The names and arguments of all tool calls, in their order. -/
def extractToolSignatures (conversation : Conversation) : List (String × ToolCallArguments) :=
  let assistantMessages :=
    extractAssistantMessages (conversation.messages.map fun entry => entry.message)
  (assistantMessages.filterMap fun message => message.toolCalls).flatten.map fun call =>
    (call.name, call.arguments)

/-- The count of the loop, if there is one. -/
def detectFromConversation (threshold : ℕ) (conversation : Conversation) : Option ℕ :=
  (checkRepeatingPattern threshold (extractToolSignatures conversation)).map Prod.snd

/-! ### Partial chunks -/

/-- A call of a tool without arguments. -/
def call (name : String) : String × ToolCallArguments := (name, .unparsed "\x7b\x7d")

/-- Two equal calls are a loop. -/
theorem complete_twice : (checkRepeatingPattern 2 [call "read", call "read"]).isSome := by
  apply (complete_iff le_rfl [call "read", call "read"]).mpr
  · intro _ p h
    have hpos := h.pos
    have hlt : p < 2 := h.lt
    obtain rfl : p = 1 := by omega
    exact Or.inl rfl
  · exact ⟨[call "read"], 2, List.cons_ne_nil _ _, le_rfl, List.suffix_refl _⟩

/-- Two and a half copies of a block are reported as three, which start with another call. -/
theorem checkRepeatingPattern_not_sound : ¬Sound 3
    (["search", "plan", "read", "write", "read", "write", "read"].map call) := by
  intro h
  obtain ⟨-, block, -, heq⟩ := h.copies 1 3 (by decide)
  have hblock : block.length = 2 := by
    have hlength := congrArg List.length heq
    rw [length_flatten_replicate] at hlength
    have hsix : 6 = 3 * block.length := hlength
    omega
  have hperiod := hasPeriod_flatten_replicate 3 block
  rw [← heq, hblock] at hperiod
  exact absurd hperiod (by decide)

/-- A sequence that is periodic from its first call on is taken for more copies than it has
room for, so that the search ends. -/
theorem not_complete :
    Loops 2 (["read", "write", "read", "write", "read"].map call) ∧
      checkRepeatingPattern 2 (["read", "write", "read", "write", "read"].map call) = none := by
  refine ⟨⟨["write", "read"].map call, 2, by decide, le_rfl, ?_⟩, by decide⟩
  exact ⟨[call "read"], rfl⟩

end DoomLoop

end HeliosLite
