import HeliosLite.Storage.Reads

/-!
# Merging local and legacy hits

The loops of `merge_search_rows` in
`crates/forge_repo/src/conversation/conversation_repo.rs`: a quota of primary rows, one
supplemental row, and then whatever is left, as far as the limit goes. The reads of the
model use the closed form `mergeSearchRows`; here it is shown to be what the loops compute.

## Main definitions

* `fillTo` — a loop that pushes rows until the limit is reached
* `mergeRows` — the function with its loops

## Main results

* `mergeRows_eq` — the loops compute `mergeSearchRows`
* `mergeRows_merged` — size, order, precedence and the reserved place, for every limit
-/

namespace HeliosLite

open Theory

variable [Libraries]

/-- `for row in rows { if merged.len() == limit { break; } merged.push(row); }`. -/
def fillTo (limit : ℕ) : List ViewRow → List ViewRow → List ViewRow
  | merged, [] => merged
  | merged, row :: rows =>
    if merged.length = limit then merged else fillTo limit (merged ++ [row]) rows

/-- `for _ in 0..quota`: rows are taken while there are any; the rest is left for later. -/
def takeQuota : ℕ → List ViewRow → List ViewRow → List ViewRow × List ViewRow
  | 0, merged, rows => (merged, rows)
  | _ + 1, merged, [] => (merged, [])
  | quota + 1, merged, row :: rows => takeQuota quota (merged ++ [row]) rows

/-- `merge_search_rows`; the limit is the `i64` of the caller. -/
def mergeRows (primary supplemental : List ViewRow) (limit : Option ℤ) : List ViewRow :=
  let primary := firstSeen ViewRow.id [] primary
  let supplemental := firstSeen ViewRow.id (primary.map ViewRow.id) supplemental
  match limit with
  | none => primary ++ supplemental
  | some limit =>
    let limit := limit.toNat
    if limit = 0 then []
    else if supplemental.isEmpty then primary.take limit
    else
      let (merged, primary) := takeQuota (limit - 1) [] primary
      let (merged, supplemental) :=
        match supplemental with
        | row :: rows => (merged ++ [row], rows)
        | [] => (merged, [])
      fillTo limit (fillTo limit merged primary) supplemental

variable {primary supplemental rows merged : List ViewRow} {limit : Option ℤ} {n : ℕ}

/-! ### The loops -/

theorem takeQuota_eq (quota : ℕ) (merged rows : List ViewRow) :
    takeQuota quota merged rows = (merged ++ rows.take quota, rows.drop quota) := by
  induction quota generalizing merged rows with
  | zero => simp [takeQuota]
  | succ quota ih =>
    cases rows with
    | nil => simp [takeQuota]
    | cons row rows =>
      rw [takeQuota, ih, List.append_assoc, List.take_succ_cons, List.drop_succ_cons]
      rfl

theorem fillTo_eq (h : merged.length ≤ n) : fillTo n merged rows = (merged ++ rows).take n := by
  induction rows generalizing merged with
  | nil => rw [fillTo, List.append_nil, List.take_of_length_le h]
  | cons row rows ih =>
    rw [fillTo]
    split_ifs with hfull
    · rw [← hfull, List.take_left]
    · have hroom : (merged ++ [row]).length ≤ n := by
        rw [List.length_append, List.length_singleton]
        omega
      rw [ih hroom, List.append_assoc]
      rfl

/-- A loop that goes on with what another left. -/
theorem take_take_append (l m : List ViewRow) (n : ℕ) :
    (l.take n ++ m).take n = (l ++ m).take n := by
  rcases Nat.le_total l.length n with hle | hle
  · rw [List.take_of_length_le hle]
  · rw [List.take_append_of_le_length hle, List.take_append_of_le_length]
    · rw [List.take_take, Nat.min_self]
    · rw [List.length_take, Nat.min_eq_left hle]

/-- The loops compute the closed form that the reads use. -/
theorem mergeRows_eq (primary supplemental : List ViewRow) (limit : Option ℤ) :
    mergeRows primary supplemental limit =
      mergeSearchRows primary supplemental (limit.map Int.toNat) := by
  cases limit with
  | none => rfl
  | some limit =>
    simp only [mergeRows, mergeSearchRows, Option.map_some]
    set first := firstSeen ViewRow.id [] primary
    set second := firstSeen ViewRow.id (first.map ViewRow.id) supplemental
    cases limit.toNat with
    | zero => rfl
    | succ n =>
      simp only [Nat.succ_ne_zero, if_false, Nat.add_sub_cancel, takeQuota_eq]
      split_ifs with hempty
      · rfl
      · cases hsecond : second with
        | nil => rw [hsecond] at hempty; exact absurd rfl hempty
        | cons row others =>
          have hroom : ([] ++ first.take n ++ [row]).length ≤ n + 1 := by
            simp only [List.nil_append, List.length_append, List.length_take,
              List.length_singleton]
            omega
          dsimp only
          rw [fillTo_eq hroom, fillTo_eq (List.length_take_le _ _), take_take_append,
            List.append_assoc _ (first.drop n)]
          rfl

/-! ### What is merged -/

/-- The primary rows of a merge, and the supplemental rows behind or between them. -/
theorem mergeSearchRows_succ (primary supplemental : List ViewRow) (n : ℕ) :
    ∃ kept,
      mergeSearchRows primary supplemental (some (n + 1)) =
        (firstSeen ViewRow.id [] primary).take kept ++
          (firstSeen ViewRow.id ((firstSeen ViewRow.id [] primary).map ViewRow.id)
            supplemental).take (n + 1 - min kept (firstSeen ViewRow.id [] primary).length) ∧
      kept = if (firstSeen ViewRow.id ((firstSeen ViewRow.id [] primary).map ViewRow.id)
        supplemental).isEmpty then n + 1 else n := by
  simp only [mergeSearchRows]
  set first := firstSeen ViewRow.id [] primary
  set second := firstSeen ViewRow.id (first.map ViewRow.id) supplemental
  cases hsecond : second with
  | nil =>
    refine ⟨n + 1, ?_, rfl⟩
    rw [List.isEmpty_nil, if_pos rfl, List.take_nil, List.append_nil]
  | cons row others =>
    refine ⟨n, ?_, rfl⟩
    change ((first.take n ++ [row]) ++ (first.drop n ++ others)).take (n + 1) = _
    rcases Nat.lt_or_ge first.length n with hshort | hlong
    · rw [List.take_of_length_le hshort.le, List.drop_of_length_le hshort.le,
        Nat.min_eq_right hshort.le, List.append_assoc]
      change (first ++ (row :: others)).take (n + 1) = _
      rw [List.take_append, List.take_of_length_le (hshort.le.trans (Nat.le_succ n))]
    · have hlength : (first.take n ++ [row]).length = n + 1 := by
        rw [List.length_append, List.length_take, Nat.min_eq_left hlong, List.length_singleton]
      rw [← hlength, List.take_left, hlength, Nat.min_eq_left hlong, Nat.add_sub_cancel_left]
      rfl

/-- What a merge with a limit owes to the two lists. -/
structure Merged (primary supplemental : List ViewRow) (limit : Option ℤ)
    (rows : List ViewRow) : Prop where
  /-- As many rows as there are ids, up to the limit. -/
  length_eq : rows.length =
    capped (limit.map Int.toNat) (distinct ViewRow.id (primary ++ supplemental))
  nodup : (rows.map ViewRow.id).Nodup
  /-- An id that is in both lists is taken from the primary one; the order is kept. -/
  primary_order : (rows.filter fun r => r.id ∈ primary.map ViewRow.id).Sublist primary
  supplemental_order :
    (rows.filter fun r => r.id ∉ primary.map ViewRow.id).Sublist supplemental
  /-- A place is kept for a supplemental row. -/
  reserved : limit.all (1 ≤ ·) → (∃ r ∈ supplemental, r.id ∉ primary.map ViewRow.id) →
    ∃ r ∈ rows, r.id ∉ primary.map ViewRow.id

theorem mem_ids_firstSeen (id : String) (rows : List ViewRow) :
    id ∈ (firstSeen ViewRow.id [] rows).map ViewRow.id ↔ id ∈ rows.map ViewRow.id := by
  rw [mem_keys_firstSeen_iff]
  exact and_iff_left List.not_mem_nil

/-- A front of the primary rows and a front of the supplemental ones. -/
theorem merged_of_fronts {kept more : ℕ} {first second : List ViewRow}
    (hfirst : first = firstSeen ViewRow.id [] primary)
    (hsecond : second = firstSeen ViewRow.id (first.map ViewRow.id) supplemental)
    (hlength : (first.take kept ++ second.take more).length =
      capped (limit.map Int.toNat) (first ++ second).length)
    (hreserved : limit.all (1 ≤ ·) → second ≠ [] → more ≠ 0) :
    Merged primary supplemental limit (first.take kept ++ second.take more) := by
  have hids : ∀ r ∈ first, r.id ∈ primary.map ViewRow.id := by
    intro r hr
    rw [← mem_ids_firstSeen, ← hfirst]
    exact List.mem_map_of_mem hr
  have hothers : ∀ r ∈ second, r.id ∉ primary.map ViewRow.id := by
    intro r hr hmem
    rw [← mem_ids_firstSeen, ← hfirst] at hmem
    rw [hsecond] at hr
    exact not_mem_seen_of_mem_firstSeen hr hmem
  have hnodup : (first.map ViewRow.id).Nodup := by
    rw [hfirst]
    exact nodup_firstSeen _ _ _
  have hall : ((first ++ second).map ViewRow.id).Nodup := by
    rw [hsecond]
    exact nodup_append_firstSeen hnodup
  have hfront : (first.take kept).filter (fun r => r.id ∈ primary.map ViewRow.id) =
      first.take kept :=
    List.filter_eq_self.mpr fun r hr => decide_eq_true (hids r (List.mem_of_mem_take hr))
  have hback : (second.take more).filter (fun r => r.id ∉ primary.map ViewRow.id) =
      second.take more :=
    List.filter_eq_self.mpr fun r hr => decide_eq_true (hothers r (List.mem_of_mem_take hr))
  constructor
  · rw [hlength, ← distinct_eq_length_of_nodup hall]
    congr 1
    rw [distinct, distinct]
    congr 1
    ext id
    rw [List.mem_toFinset, List.mem_toFinset, List.map_append, List.map_append, List.mem_append,
      List.mem_append, hsecond, mem_keys_firstSeen_iff, hfirst, mem_ids_firstSeen]
    tauto
  · apply List.Nodup.sublist _ hall
    exact ((List.take_sublist kept first).append (List.take_sublist more second)).map _
  · rw [List.filter_append, hfront, List.filter_eq_nil_iff.mpr, List.append_nil]
    · exact (List.take_sublist kept first).trans (hfirst ▸ firstSeen_sublist)
    · intro r hr
      rw [decide_eq_true_eq]
      exact hothers r (List.mem_of_mem_take hr)
  · rw [List.filter_append, hback, List.filter_eq_nil_iff.mpr, List.nil_append]
    · exact (List.take_sublist more second).trans (hsecond ▸ firstSeen_sublist)
    · intro r hr
      rw [decide_eq_true_eq, not_not]
      exact hids r (List.mem_of_mem_take hr)
  · rintro hlimit ⟨r, hr, hid⟩
    have hne : second ≠ [] := by
      intro hnil
      have hmem : r.id ∈ second.map ViewRow.id := by
        rw [hsecond, mem_keys_firstSeen_iff, hfirst, mem_ids_firstSeen]
        exact ⟨List.mem_map_of_mem hr, hid⟩
      rw [hnil] at hmem
      exact List.not_mem_nil hmem
    obtain ⟨row, others, hcons⟩ := List.exists_cons_of_ne_nil hne
    obtain ⟨more, rfl⟩ := Nat.exists_eq_add_one_of_ne_zero (hreserved hlimit hne)
    refine ⟨row, List.mem_append_right _ ?_, hothers row (hcons ▸ List.mem_cons_self)⟩
    rw [hcons, List.take_succ_cons]
    exact List.mem_cons_self

/-- Size, order, precedence and the reserved place, for every limit. -/
theorem mergeRows_merged (primary supplemental : List ViewRow) (limit : Option ℤ) :
    Merged primary supplemental limit (mergeRows primary supplemental limit) := by
  rw [mergeRows_eq]
  set first := firstSeen ViewRow.id [] primary with hfirst
  set second := firstSeen ViewRow.id (first.map ViewRow.id) supplemental with hsecond
  rcases hlimit : limit.map Int.toNat with _ | _ | n
  · have hall : mergeSearchRows primary supplemental none =
        first.take first.length ++ second.take second.length := by
      rw [List.take_length, List.take_length]
      rfl
    rw [hall]
    apply merged_of_fronts hfirst hsecond
    · rw [hlimit, List.take_length, List.take_length]
      rfl
    · exact fun _ hne => fun hzero => hne (List.length_eq_zero_iff.mp hzero)
  · have hnone : mergeSearchRows primary supplemental (some 0) =
        first.take 0 ++ second.take 0 := rfl
    rw [hnone]
    apply merged_of_fronts hfirst hsecond
    · rw [hlimit, capped, Nat.zero_min]
      rfl
    · intro hpositive
      obtain ⟨m, rfl, hm⟩ := Option.map_eq_some_iff.mp hlimit
      have hle : 1 ≤ m := decide_eq_true_eq.mp hpositive
      omega
  · obtain ⟨kept, hmerge, hkept⟩ := mergeSearchRows_succ primary supplemental n
    rw [← hfirst, ← hsecond] at hmerge
    rw [← hfirst, ← hsecond] at hkept
    rw [hmerge]
    apply merged_of_fronts hfirst hsecond
    · rw [hlimit, capped, List.length_append, List.length_append, List.length_take,
        List.length_take]
      by_cases hempty : second = []
      · rw [hempty, List.isEmpty_nil, if_pos rfl] at hkept
        rw [hempty, hkept, List.length_nil, Nat.min_zero]
        rfl
      · have hsome : 0 < second.length := List.length_pos_iff.mpr hempty
        rw [if_neg (by rwa [List.isEmpty_iff])] at hkept
        rw [hkept]
        omega
    · intro _ hne hzero
      rw [if_neg (by rwa [List.isEmpty_iff])] at hkept
      rw [hkept] at hzero
      omega

end HeliosLite
