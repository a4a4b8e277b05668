import HeliosLite.Storage.Reads
import HeliosLite.Storage.Mutation
import HeliosLite.Storage.Reference
import Mathlib.Data.List.Sort

/-!
# Which rows a read returns

A read should return each conversation once, its local row where there is one that can be
read, and as many as the limit allows. Each read does so up to a condition on the legacy rows
that its limit reaches: legacy rows can stand in for local ones, and repeat them.

## Main definitions

* `Exact` — what a list of rows should be
* `Reads` — a read returns such a list, and its conversations load
* `ViewRow.Shadowed` — a legacy row whose id has a local row that can be read

## Main results

* `exact_atMost_iff` — reads that drop nothing
* `exact_firstSeen_iff` — reads that drop ids they have seen
* `exact_merge_iff`, `exact_reserve_iff` — the two searches
-/

namespace HeliosLite

open Theory

variable [Libraries]

/-! ### What a read should return -/

/-- The rows match, no id is repeated, local rows stand for themselves, and there are as many
as the limit and the matching ids allow. -/
structure Exact (readable matching : List ViewRow) (limit : Option ℕ) (rows : List ViewRow) :
    Prop where
  subset : ∀ r ∈ rows, r ∈ matching
  once : (rows.map ViewRow.id).Nodup
  localRow : ∀ r ∈ rows, ∀ l ∈ readable, l.legacySource = false → l.id = r.id → r = l
  count : rows.length = capped limit (distinct ViewRow.id matching)

/-- The conversation of the row loads. -/
def ViewRow.Loads (r : ViewRow) : Prop := ∃ c, r.record.tryInto = .ok c

/-- The read selects the rows that it should return, and shows their conversations. -/
def Reads {β : Type} (readable matching : List ViewRow) (limit : Option ℕ)
    (rows : Except String (List ViewRow)) (read : Except String β)
    (shown : List Conversation → β) : Prop :=
  ∃ rs conversations, rows = .ok rs ∧ load rs = .ok conversations ∧
    read = .ok (shown conversations) ∧ Exact readable matching limit rs

/-- A legacy row whose id has a local row that can be read. -/
def ViewRow.Shadowed (readable : List ViewRow) (r : ViewRow) : Prop :=
  r.legacySource = true ∧ ∃ l ∈ readable, l.legacySource = false ∧ l.id = r.id

/-- None of the rows is shadowed, and no two legacy ones have one id. -/
def Unrepeated (readable rows : List ViewRow) : Prop :=
  (∀ r ∈ rows, ¬r.Shadowed readable) ∧ ((rows.filter (·.legacySource)).map ViewRow.id).Nodup

/-- Each shadowed row comes after the local row with its id. -/
def LocalFirst (readable rows : List ViewRow) : Prop :=
  ∀ before r after, rows = before ++ r :: after → r.Shadowed readable →
    ∃ l ∈ before, l.legacySource = false ∧ l.id = r.id

/-- The limit reaches no id twice, or it reaches all of them. -/
def Reaches (limit : Option ℕ) (rows : List ViewRow) : Prop :=
  ((atMost limit rows).map ViewRow.id).Nodup ∨
    ∀ r ∈ rows, r.id ∈ (atMost limit rows).map ViewRow.id

/-- Rows of the view, no two local ones of one id. -/
structure FromView (s : Store) (rows : List ViewRow) : Prop where
  subset : ∀ r ∈ rows, r ∈ s.view
  localOnce : ((rows.filter fun r => !r.legacySource).map ViewRow.id).Nodup

theorem load_ok_iff {rows : List ViewRow} :
    (∃ conversations, load rows = .ok conversations) ↔ ∀ r ∈ rows, r.Loads := by
  induction rows with
  | nil => exact iff_of_true ⟨[], rfl⟩ (by simp)
  | cons r rows ih =>
    rw [List.forall_mem_cons, ← ih, load, List.mapM_cons, ViewRow.Loads]
    change (∃ conversations, (r.record.tryInto >>= fun c => load rows >>= fun cs =>
      pure (c :: cs)) = .ok conversations) ↔ _
    cases r.record.tryInto with
    | error e =>
      exact iff_of_false (by rintro ⟨cs, hcs⟩; cases hcs) (by rintro ⟨⟨c, hc⟩, -⟩; cases hc)
    | ok c =>
      cases load rows with
      | error e =>
        exact iff_of_false (by rintro ⟨cs, hcs⟩; cases hcs) (by rintro ⟨-, cs, hcs⟩; cases hcs)
      | ok cs => exact iff_of_true ⟨_, rfl⟩ ⟨⟨c, rfl⟩, cs, rfl⟩

/-! ### The view -/

namespace Store

variable {s : Store} {wid : WorkspaceHash}

/-- Local rows of one id are the same. -/
theorem eq_of_local {r l : ViewRow} (hr : r ∈ s.view) (hl : l ∈ s.view)
    (hrlocal : r.legacySource = false) (hllocal : l.legacySource = false) (hid : r.id = l.id) :
    r = l := by
  have hlocal : ∀ q ∈ s.view, q.legacySource = false → q.record ∈ s.conversations.rows := by
    intro q hq hqlocal
    rcases List.mem_append.mp hq with hq | hq
    · obtain ⟨record, hrecord, rfl⟩ := List.mem_map.mp hq
      exact hrecord
    · obtain ⟨record, -, rfl⟩ := List.mem_map.mp hq
      cases hqlocal
  have hrecord : r.record = l.record :=
    Table.eq_of_mem_of_key (hlocal r hr hrlocal) (hlocal l hl hllocal) hid
  obtain ⟨record, legacySource⟩ := r
  obtain ⟨record', legacySource'⟩ := l
  simp_all

theorem fromView_view (s : Store) : FromView s s.view := by
  refine ⟨fun _ h => h, ?_⟩
  have hlocal : s.view.filter (fun r => !r.legacySource)
      = s.conversations.rows.map fun r => ⟨r, false⟩ := by
    simp [view, List.filter_map, Function.comp_def]
  rw [hlocal, List.map_map]
  exact s.conversations.nodup

end Store

namespace FromView

variable {s : Store} {rows rows' : List ViewRow}

theorem sublist (h : FromView s rows) (hsub : rows'.Sublist rows) : FromView s rows' :=
  ⟨fun r hr => h.subset r (hsub.subset hr), h.localOnce.sublist ((hsub.filter _).map _)⟩

theorem perm (h : FromView s rows) (hperm : rows'.Perm rows) : FromView s rows' :=
  ⟨fun r hr => h.subset r (hperm.subset hr),
    ((hperm.filter _).map _).nodup_iff.mpr h.localOnce⟩

/-- Local and legacy rows with different ids each, and none in common. -/
theorem nodup_of_parts (h : FromView s rows)
    (hlegacy : ((rows.filter (·.legacySource)).map ViewRow.id).Nodup)
    (hcross : ∀ r ∈ rows, r.legacySource = true → ∀ l ∈ rows, l.legacySource = false →
      l.id ≠ r.id) : (rows.map ViewRow.id).Nodup := by
  have hparts := (List.filter_append_perm (·.legacySource) rows).map ViewRow.id
  apply hparts.nodup_iff.mp
  rw [List.map_append, List.nodup_append]
  refine ⟨hlegacy, h.localOnce, ?_⟩
  intro a ha b hb hab
  obtain ⟨r, hr, rfl⟩ := List.mem_map.mp ha
  obtain ⟨l, hl, rfl⟩ := List.mem_map.mp hb
  obtain ⟨hr, hrlegacy⟩ := List.mem_filter.mp hr
  obtain ⟨hl, hllocal⟩ := List.mem_filter.mp hl
  exact hcross r hr hrlegacy l hl (by simpa using hllocal) hab.symm

end FromView

/-! ### Reads that drop nothing -/

section Lists

variable {s : Store} {readable rows : List ViewRow} {limit : Option ℕ}

/-- A local row stands for itself, and a legacy one that is not shadowed stands for no other. -/
theorem localRow_iff (hreadable : FromView s readable) (hrows : ∀ r ∈ rows, r ∈ readable) :
    (∀ r ∈ rows, ∀ l ∈ readable, l.legacySource = false → l.id = r.id → r = l) ↔
      ∀ r ∈ rows, ¬r.Shadowed readable := by
  constructor
  · rintro h r hr ⟨hlegacy, l, hl, hlocal, hid⟩
    obtain rfl := h r hr l hl hlocal hid
    simp [hlocal] at hlegacy
  · intro h r hr l hl hlocal hid
    cases hlegacy : r.legacySource with
    | true => exact absurd ⟨hlegacy, l, hl, hlocal, hid⟩ (h r hr)
    | false =>
      exact Store.eq_of_local (hreadable.subset r (hrows r hr)) (hreadable.subset l hl) hlegacy
        hlocal hid.symm

/-- A read that drops nothing is exact if its limit reaches no shadowed row and no two legacy
rows of one id. -/
theorem exact_atMost_iff (limit : Option ℕ) (hreadable : FromView s readable)
    (hquery : FromView s rows)
    (hrows : ∀ r ∈ rows, r ∈ readable) :
    Exact readable rows limit (atMost limit rows) ↔ Unrepeated readable (atMost limit rows) := by
  have hreached : ∀ r ∈ atMost limit rows, r ∈ readable := fun r hr =>
    hrows r (atMost_sublist.subset hr)
  constructor
  · intro h
    exact ⟨(localRow_iff hreadable hreached).mp h.localRow,
      h.once.sublist (List.filter_sublist.map _)⟩
  · rintro ⟨hshadowed, hlegacy⟩
    have honce : ((atMost limit rows).map ViewRow.id).Nodup := by
      apply (hquery.sublist atMost_sublist).nodup_of_parts hlegacy
      intro r hr hrlegacy l hl hllocal hid
      exact hshadowed r hr ⟨hrlegacy, l, hreached l hl, hllocal, hid⟩
    exact {
      subset := fun r hr => atMost_sublist.subset hr
      once := honce
      localRow := (localRow_iff hreadable hreached).mpr hshadowed
      count := length_atMost_of_nodup honce }

/-! ### Reads that drop ids they have seen -/

/-- A read that drops ids it has seen is exact if each shadowed row that its limit reaches comes
after the local row, and the limit reaches no id twice, or every id. -/
theorem exact_firstSeen_iff (limit : Option ℕ) (hreadable : FromView s readable)
    (hrows : ∀ r ∈ rows, r ∈ readable) :
    Exact readable rows limit (firstSeen ViewRow.id [] (atMost limit rows)) ↔
      LocalFirst readable (atMost limit rows) ∧ Reaches limit rows := by
  have hkept : ∀ r ∈ firstSeen ViewRow.id [] (atMost limit rows), r ∈ rows := fun r hr =>
    atMost_sublist.subset (firstSeen_sublist.subset hr)
  have hcount : (firstSeen ViewRow.id [] (atMost limit rows)).length
      = capped limit (distinct ViewRow.id rows) ↔ Reaches limit rows := by
    rw [length_firstSeen, distinct_atMost_eq_iff, Reaches]
  have hlocal := localRow_iff hreadable fun r hr => hrows r (hkept r hr)
  rw [← hcount]
  constructor
  · intro h
    refine ⟨?_, h.count⟩
    have hfirst := hlocal.mp h.localRow
    intro before r after hsplit hshadowed
    have hearlier : r.id ∈ before.map ViewRow.id := by
      by_contra hnew
      exact hfirst r (mem_firstSeen_iff.mpr ⟨before, after, hsplit, by simp, hnew⟩) hshadowed
    obtain ⟨q, hq, hqid⟩ := List.mem_map.mp hearlier
    -- the first row with the id comes before the shadowed one, and is not shadowed
    obtain ⟨l, hl, hlid⟩ := exists_mem_firstSeen ViewRow.id hq
    obtain ⟨front, rest, rfl, -, hnew⟩ := mem_firstSeen_iff.mp hl
    have hlfirst : l ∈ firstSeen ViewRow.id [] (atMost limit rows) := by
      refine mem_firstSeen_iff.mpr ⟨front, rest ++ r :: after, ?_, by simp, hnew⟩
      rw [hsplit, List.append_assoc, List.cons_append]
    refine ⟨l, firstSeen_sublist.subset hl, ?_, hlid.trans hqid⟩
    by_contra hlegacy
    obtain ⟨-, local', hmem, hlocal', hid⟩ := hshadowed
    exact hfirst l hlfirst
      ⟨by simpa using hlegacy, local', hmem, hlocal', by rw [hid, hlid, hqid]⟩
  · rintro ⟨hshadowed, hcount⟩
    refine ⟨hkept, nodup_firstSeen _ _ _, hlocal.mpr ?_, hcount⟩
    intro r hr hrshadowed
    obtain ⟨before, after, hsplit, -, hfirst⟩ := mem_firstSeen_iff.mp hr
    obtain ⟨l, hl, -, hid⟩ := hshadowed before r after hsplit hrshadowed
    exact hfirst (List.mem_map.mpr ⟨l, hl, hid⟩)

/-- Where local rows come first, it is enough that the local row is among those of the query. -/
theorem exact_firstSeen_local_iff (limit : Option ℕ) (hreadable : FromView s readable)
    (hrows : ∀ r ∈ rows, r ∈ readable)
    (hsorted : rows.Pairwise fun a b => a.localThenNewer b = true) :
    Exact readable rows limit (firstSeen ViewRow.id [] (atMost limit rows)) ↔
      (∀ r ∈ atMost limit rows, r.Shadowed readable →
        ∃ l ∈ rows, l.legacySource = false ∧ l.id = r.id) ∧ Reaches limit rows := by
  rw [exact_firstSeen_iff limit hreadable hrows]
  apply and_congr_left
  intro _
  constructor
  · intro h r hr hshadowed
    obtain ⟨before, after, hsplit⟩ := List.append_of_mem hr
    obtain ⟨l, hl, hlocal, hid⟩ := h before r after hsplit hshadowed
    have hreached : l ∈ atMost limit rows := by simp [hsplit, hl]
    exact ⟨l, atMost_sublist.subset hreached, hlocal, hid⟩
  · intro h before r after hsplit hshadowed
    obtain ⟨l, hl, hlocal, hid⟩ := h r (by simp [hsplit]) hshadowed
    obtain ⟨rest, hrest⟩ : ∃ rest, rows = before ++ r :: rest := by
      cases limit with
      | none => exact ⟨after, hsplit⟩
      | some n =>
        refine ⟨after ++ rows.drop n, ?_⟩
        have hwhole := List.take_append_drop n rows
        rw [show rows.take n = before ++ r :: after from hsplit] at hwhole
        simpa using hwhole.symm
    refine ⟨l, ?_, hlocal, hid⟩
    rw [hrest] at hl hsorted
    rcases List.mem_append.mp hl with hbefore | hl
    · exact hbefore
    · -- a local row does not come after a legacy one
      rcases List.mem_cons.mp hl with rfl | hl
      · simp [hshadowed.1] at hlocal
      · have hle := (List.pairwise_cons.mp (List.pairwise_append.mp hsorted).2.1).1 l hl
        simp [ViewRow.localThenNewer, hshadowed.1, hlocal] at hle

end Lists

/-! ### Hits -/

section Searches

variable {limit : Option ℕ} {hit : ViewRow → Except String Bool}

/-- Whether the row is a hit, if it is examined. -/
def found (hit : ViewRow → Except String Bool) (r : ViewRow) : Bool := (hit r).toOption.getD false

theorem collectFrom_ok {seen : List String} {count : ℕ} {rows hits : List ViewRow}
    (hcount : ∀ n ∈ limit, count < n) (h : collectFrom limit hit seen count rows = .ok hits) :
    hits = atMost (limit.map (· - count))
        (firstSeen ViewRow.id seen (rows.filter (found hit))) := by
  induction rows generalizing seen count hits with
  | nil =>
    obtain rfl := Except.ok.inj h
    cases limit with
    | none => rfl
    | some n => simp [atMost, firstSeen]
  | cons r rows ih =>
    rw [collectFrom] at h
    by_cases hseen : r.id ∈ seen
    · rw [if_pos hseen] at h
      rw [ih hcount h]
      cases hfound : found hit r with
      | true => rw [List.filter_cons_of_pos hfound, firstSeen_cons_of_mem hseen]
      | false => rw [List.filter_cons_of_neg (by simp [hfound])]
    · rw [if_neg hseen] at h
      cases hr : hit r with
      | error e => rw [hr] at h; cases h
      | ok isHit =>
        have hfound : found hit r = isHit := by rw [found, hr]; rfl
        rw [hr] at h
        cases isHit with
        | false =>
          rw [ih hcount h, List.filter_cons_of_neg (by simp [hfound])]
        | true =>
          rw [List.filter_cons_of_pos hfound, firstSeen_cons_of_not_mem hseen]
          change (if limit.any (· ≤ count + 1) then Except.ok [r] else
            collectFrom limit hit (r.id :: seen) (count + 1) rows >>= fun hits =>
              .ok (r :: hits)) = .ok hits at h
          split_ifs at h with hfull
          · obtain rfl := Except.ok.inj h
            cases limit with
            | none => simp at hfull
            | some n =>
              have hn : n - count = 1 := by
                have hlt := hcount n rfl
                simp only [Option.any_some, decide_eq_true_eq] at hfull
                omega
              simp [atMost, hn]
          · cases hrest : collectFrom limit hit (r.id :: seen) (count + 1) rows with
            | error e => rw [hrest] at h; cases h
            | ok rest =>
              rw [hrest] at h
              obtain rfl := Except.ok.inj h
              have hcount' : ∀ n ∈ limit, count + 1 < n := by
                intro n hn
                have hlimit : limit = some n := hn
                rw [hlimit, Option.any_some, decide_eq_true_eq, not_le] at hfull
                exact hfull
              rw [ih hcount' hrest]
              cases limit with
              | none => rfl
              | some n =>
                have hn : n - count = n - (count + 1) + 1 := by
                  have hlt := hcount' n rfl
                  omega
                simp only [atMost, Option.map_some]
                rw [hn, List.take_succ_cons]

theorem collectSearchRows_ok {rows hits : List ViewRow}
    (h : collectSearchRows rows limit hit = .ok hits) :
    hits = atMost limit (firstSeen ViewRow.id [] (rows.filter (found hit))) := by
  rw [collectSearchRows] at h
  split_ifs at h with hzero
  · obtain rfl := Except.ok.inj h
    simp [hzero, atMost]
  · have hcount : ∀ n ∈ limit, 0 < n := by
      intro n hn
      rcases Nat.eq_zero_or_pos n with rfl | hpos
      · exact absurd hn hzero
      · exact hpos
    simpa using collectFrom_ok hcount h

theorem exists_collectFrom {p : ViewRow → Bool} (seen : List String) (count : ℕ)
    {rows : List ViewRow} :
    ∃ hits, collectFrom limit (fun r => .ok (p r)) seen count rows = .ok hits := by
  induction rows generalizing seen count with
  | nil => exact ⟨[], rfl⟩
  | cons r rows ih =>
    rw [collectFrom]
    by_cases hseen : r.id ∈ seen
    · rw [if_pos hseen]
      exact ih seen count
    · rw [if_neg hseen]
      cases hp : p r with
      | false => exact ih seen count
      | true =>
        obtain ⟨hits, hhits⟩ := ih (r.id :: seen) (count + 1)
        change ∃ found, (if limit.any (· ≤ count + 1) then Except.ok [r] else
          collectFrom limit (fun r => .ok (p r)) (r.id :: seen) (count + 1) rows >>= fun hits =>
            .ok (r :: hits)) = .ok found
        split_ifs
        · exact ⟨[r], rfl⟩
        · exact ⟨r :: hits, by rw [hhits]; rfl⟩

/-- Hits that are found without fail. -/
theorem collectSearchRows_eq {p : ViewRow → Bool} {rows : List ViewRow} :
    collectSearchRows rows limit (fun r => .ok (p r)) =
      .ok (atMost limit (firstSeen ViewRow.id [] (rows.filter p))) := by
  obtain ⟨hits, hhits⟩ : ∃ hits, collectSearchRows rows limit (fun r => .ok (p r)) = .ok hits := by
    rw [collectSearchRows]
    split_ifs with hzero
    · exact ⟨[], rfl⟩
    · exact exists_collectFrom [] 0
  rw [hhits, collectSearchRows_ok hhits]
  rfl

/-! ### Merged hits -/

/-- The legacy hits that a merge takes: as many as there is room for, and at least one. -/
def legacyTaken (limit : Option ℕ) (primary supplemental : List ViewRow) : List ViewRow :=
  match limit with
  | none => supplemental
  | some n => supplemental.take (max 1 (n - primary.length))

/-- The local hits that a merge keeps: one gives way if there is a legacy hit and no room. -/
def localKept (limit : Option ℕ) (primary supplemental : List ViewRow) : List ViewRow :=
  match limit with
  | none => primary
  | some n => primary.take (n - (supplemental.take 1).length)

theorem mergeSearchRows_eq {primary supplemental : List ViewRow}
    (hprimary : (primary.map ViewRow.id).Nodup) (hlimit : limit ≠ some 0)
    (hfits : ∀ n ∈ limit, primary.length ≤ n) :
    mergeSearchRows primary supplemental limit =
      localKept limit primary (firstSeen ViewRow.id (primary.map ViewRow.id) supplemental) ++
        legacyTaken limit primary
          (firstSeen ViewRow.id (primary.map ViewRow.id) supplemental) := by
  simp only [mergeSearchRows, firstSeen_of_nodup hprimary]
  generalize firstSeen ViewRow.id (primary.map ViewRow.id) supplemental = legacy
  cases limit with
  | none => rfl
  | some n =>
    have hn := hfits n rfl
    cases n with
    | zero => exact absurd rfl hlimit
    | succ n =>
      cases legacy with
      | nil => simp [localKept, legacyTaken]
      | cons r legacy =>
        rcases Nat.lt_or_ge n primary.length with hfull | hroom
        · -- there is no room, and the last local hit gives way
          have hlength : (primary.take n).length = n := by
            rw [List.length_take]
            omega
          have hone : max 1 (n + 1 - primary.length) = 1 := by omega
          simp [localKept, legacyTaken, hone, List.take_append, hlength]
        · have htake : primary.take n = primary := List.take_of_length_le hroom
          have hmax : max 1 (n + 1 - primary.length) = n + 1 - primary.length := by omega
          have htake' : primary.take (n + 1) = primary := List.take_of_length_le hn
          have hdrop : primary.drop n = [] := List.drop_of_length_le hroom
          simp [localKept, legacyTaken, htake, htake', hdrop, hmax, List.take_append]

theorem localKept_sublist {primary supplemental : List ViewRow} :
    (localKept limit primary supplemental).Sublist primary := by
  cases limit with
  | none => exact List.Sublist.refl _
  | some n => exact List.take_sublist _ _

theorem legacyTaken_sublist {primary supplemental : List ViewRow} :
    (legacyTaken limit primary supplemental).Sublist supplemental := by
  cases limit with
  | none => exact List.Sublist.refl _
  | some n => exact List.take_sublist _ _

theorem length_localKept_append {primary supplemental : List ViewRow} (hlimit : limit ≠ some 0)
    (hfits : ∀ n ∈ limit, primary.length ≤ n) :
    (localKept limit primary supplemental ++ legacyTaken limit primary supplemental).length
      = capped limit (primary.length + supplemental.length) := by
  rw [List.length_append]
  cases limit with
  | none => rfl
  | some n =>
    have hn := hfits n rfl
    have hpos : n ≠ 0 := fun h => hlimit (congrArg some h)
    simp only [localKept, legacyTaken, capped, List.length_take]
    omega

variable {s : Store} {readable locals legacy : List ViewRow}

theorem not_shadowed_of_local {r : ViewRow} (h : r.legacySource = false) :
    ¬r.Shadowed readable := by
  rintro ⟨hlegacy, -⟩
  simp [h] at hlegacy

/-- A merged search is exact if no legacy hit is taken that is shadowed. -/
theorem exact_merge_iff (hreadable : FromView s readable)
    (hlocals : ∀ r ∈ locals, r ∈ readable ∧ r.legacySource = false)
    (honce : (locals.map ViewRow.id).Nodup)
    (hlegacy : ∀ r ∈ legacy, r ∈ readable) (hlimit : limit ≠ some 0) :
    Exact readable (locals ++ legacy) limit
        (mergeSearchRows (atMost limit locals) (atMost limit (firstSeen ViewRow.id [] legacy))
          limit) ↔
      ∀ r ∈ legacyTaken limit (atMost limit locals)
          (firstSeen ViewRow.id ((atMost limit locals).map ViewRow.id)
            (atMost limit (firstSeen ViewRow.id [] legacy))), ¬r.Shadowed readable := by
  have hprimary : ((atMost limit locals).map ViewRow.id).Nodup :=
    honce.sublist (atMost_sublist.map _)
  have hfits : ∀ n ∈ limit, (atMost limit locals).length ≤ n := by
    rintro n rfl
    rw [length_atMost]
    exact min_le_left n _
  rw [mergeSearchRows_eq hprimary hlimit hfits]
  let primary := atMost limit locals
  let others := firstSeen ViewRow.id (primary.map ViewRow.id)
    (atMost limit (firstSeen ViewRow.id [] legacy))
  have hothers : ∀ r ∈ others, r ∈ legacy := fun r hr =>
    firstSeen_sublist.subset (atMost_sublist.subset (firstSeen_sublist.subset hr))
  have hkept : ∀ r ∈ localKept limit primary others, r ∈ locals := fun r hr =>
    atMost_sublist.subset (localKept_sublist.subset hr)
  have htaken : ∀ r ∈ legacyTaken limit primary others, r ∈ legacy := fun r hr =>
    hothers r (legacyTaken_sublist.subset hr)
  have hrows : ∀ r ∈ localKept limit primary others ++ legacyTaken limit primary others,
      r ∈ readable := by
    intro r hr
    rcases List.mem_append.mp hr with hr | hr
    · exact (hlocals r (hkept r hr)).1
    · exact hlegacy r (htaken r hr)
  have hlocal := localRow_iff hreadable hrows
  constructor
  · intro h r hr
    exact hlocal.mp h.localRow r (List.mem_append_right _ hr)
  · intro h
    refine ⟨?_, ?_, hlocal.mpr ?_, ?_⟩
    · intro r hr
      rcases List.mem_append.mp hr with hr | hr
      · exact List.mem_append_left _ (hkept r hr)
      · exact List.mem_append_right _ (htaken r hr)
    · have hall := nodup_append_firstSeen
        (m := atMost limit (firstSeen ViewRow.id [] legacy)) hprimary
      exact hall.sublist ((localKept_sublist.append legacyTaken_sublist).map _)
    · intro r hr
      rcases List.mem_append.mp hr with hr | hr
      · exact not_shadowed_of_local (hlocals r (hkept r hr)).2
      · exact h r hr
    · rw [length_localKept_append hlimit hfits, ← List.length_append,
        length_append_firstSeen hprimary, capped_distinct_append honce]

/-! ### A place for a legacy hit -/

variable {ids : List String} {rows : List ViewRow}

theorem reserveLegacy_sublist (ids : List String) (limit : Option ℕ) (rows : List ViewRow) :
    (reserveLegacy ids limit rows).Sublist rows := by
  cases limit with
  | none => exact List.Sublist.refl _
  | some n =>
    rw [reserveLegacy]
    split
    · rename_i index hindex
      split_ifs with hfar
      · obtain ⟨hlt, -, -⟩ := List.findIdx?_eq_some_iff_getElem.mp hindex
        rw [List.getElem?_eq_getElem hlt, Option.toList_some]
        calc (rows.take (n - 1) ++ [rows[index]]).Sublist (rows.take index ++ [rows[index]]) :=
              (List.take_sublist_take_left (by omega)).append_right _
          _ = rows.take (index + 1) := List.take_append_getElem hlt
          List.Sublist _ rows := List.take_sublist _ _
      · exact List.take_sublist _ _
    · exact List.take_sublist _ _

theorem length_reserveLegacy (hlimit : limit ≠ some 0) :
    (reserveLegacy ids limit rows).length = capped limit rows.length := by
  cases limit with
  | none => rfl
  | some n =>
    have hpos : n ≠ 0 := fun h => hlimit (congrArg some h)
    rw [reserveLegacy, capped]
    split
    · rename_i index hindex
      obtain ⟨hlt, -, -⟩ := List.findIdx?_eq_some_iff_getElem.mp hindex
      split_ifs with hfar
      · rw [List.getElem?_eq_getElem hlt, Option.toList_some, List.length_append, List.length_take,
          List.length_singleton]
        omega
      · exact List.length_take
    · exact List.length_take

/-- The first row with the id of a legacy hit, and the rows before it. -/
theorem split_of_findIdx {index : ℕ}
    (h : (rows.findIdx? fun r => r.id ∈ ids) = some index) :
    ∃ front x rest, rows = front ++ x :: rest ∧ front.length = index ∧ x.id ∈ ids ∧
      ∀ l ∈ front, l.id ∉ ids := by
  obtain ⟨hlt, hfound, hbefore⟩ := List.findIdx?_eq_some_iff_getElem.mp h
  refine ⟨rows.take index, rows[index], rows.drop (index + 1), ?_, ?_, by simpa using hfound, ?_⟩
  · rw [← List.drop_eq_getElem_cons hlt, List.take_append_drop]
  · rw [List.length_take, min_eq_left hlt.le]
  · intro l hl
    obtain ⟨j, hj, rfl⟩ := List.mem_take_iff_getElem.mp hl
    simpa using hbefore j (by omega)

/-- A row that is not in the front is the next one, or comes after it. -/
theorem split_cases {front rest before after : List ViewRow} {x r : ViewRow}
    (h : front ++ x :: rest = before ++ r :: after) (hr : r ∉ front) :
    before = front ∧ r = x ∨ ∃ mid, before = front ++ x :: mid := by
  rcases List.append_eq_append_iff.mp h with ⟨mid, rfl, hrest⟩ | ⟨mid, rfl, hrest⟩
  · cases mid with
    | nil => exact Or.inl ⟨List.append_nil _, (List.cons.inj hrest).1.symm⟩
    | cons y mid =>
      obtain ⟨rfl, -⟩ := List.cons.inj hrest
      exact Or.inr ⟨mid, rfl⟩
  · cases mid with
    | nil => exact Or.inl ⟨(List.append_nil _).symm, (List.cons.inj hrest).1⟩
    | cons y mid =>
      obtain ⟨rfl, -⟩ := List.cons.inj hrest
      exact absurd (by simp) hr

/-- A row with the id of a legacy hit is returned if the limit reaches it, or if it is the first
such row. -/
theorem mem_reserveLegacy_iff {r : ViewRow} (hr : r.id ∈ ids) (hlimit : limit ≠ some 0) :
    r ∈ reserveLegacy ids limit rows ↔ ∃ before after, rows = before ++ r :: after ∧
      ((∀ n ∈ limit, before.length < n) ∨ ∀ l ∈ before, l.id ∉ ids) := by
  cases limit with
  | none =>
    rw [reserveLegacy, List.mem_iff_append]
    simp
  | some n =>
    have hpos : n ≠ 0 := fun h => hlimit (congrArg some h)
    simp only [Option.mem_some_iff, forall_eq']
    cases hindex : rows.findIdx? fun r => r.id ∈ ids with
    | none =>
      -- there is no such row
      have hnone : ∀ l ∈ rows, l.id ∉ ids := by simpa using List.findIdx?_eq_none_iff.mp hindex
      constructor
      · intro h
        exact absurd hr (hnone r ((reserveLegacy_sublist _ _ _).subset h))
      · rintro ⟨before, after, rfl, -⟩
        exact absurd hr (hnone r (by simp))
    | some index =>
      obtain ⟨front, x, rest, rfl, rfl, hx, hfront⟩ := split_of_findIdx hindex
      have hfresh : r ∉ front := fun h => hfront r h hr
      by_cases hfar : n ≤ front.length
      · -- the first such row takes the last place
        have hreserve : reserveLegacy ids (some n) (front ++ x :: rest) =
            front.take (n - 1) ++ [x] := by
          have hle : n - 1 ≤ front.length := by omega
          simp [reserveLegacy, hindex, hfar, List.take_append_of_le_length hle]
        rw [hreserve]
        constructor
        · intro h
          rcases List.mem_append.mp h with h | h
          · exact absurd (List.mem_of_mem_take h) hfresh
          · obtain rfl := List.mem_singleton.mp h
            exact ⟨front, rest, rfl, Or.inr hfront⟩
        · rintro ⟨before, after, hsplit, hreached⟩
          rcases split_cases hsplit hfresh with ⟨-, rfl⟩ | ⟨mid, rfl⟩
          · simp
          · rcases hreached with hlt | hnone
            · rw [List.length_append] at hlt
              omega
            · exact absurd hx (hnone x (by simp))
      · -- it is reached, as are all rows up to the limit
        have hreserve : reserveLegacy ids (some n) (front ++ x :: rest) =
            (front ++ x :: rest).take n := by
          simp only [reserveLegacy, hindex, if_neg hfar]
        rw [hreserve, List.mem_take_iff_getElem]
        constructor
        · rintro ⟨j, hj, rfl⟩
          refine ⟨_, _, (List.take_append_drop j _).symm.trans
            (congrArg _ (List.drop_eq_getElem_cons (by omega))), Or.inl ?_⟩
          rw [List.length_take]
          omega
        · rintro ⟨before, after, hsplit, hreached⟩
          have hlt : before.length < n := by
            rcases split_cases hsplit hfresh with ⟨rfl, -⟩ | ⟨mid, rfl⟩
            · exact not_le.mp hfar
            · rcases hreached with hlt | hnone
              · exact hlt
              · exact absurd hx (hnone x (by simp))
          refine ⟨before.length, ?_, by simp [hsplit]⟩
          rw [hsplit, List.length_append, List.length_cons]
          omega


/-- A search by text is exact if the limit reaches no shadowed hit. Where a legacy hit has a
place kept for it, the first one counts as reached. -/
theorem exact_reserve_iff (hreadable : FromView s readable)
    (hlocals : ∀ r ∈ locals, r ∈ readable ∧ r.legacySource = false)
    (honce : (locals.map ViewRow.id).Nodup) (hlegacy : ∀ r ∈ legacy, r ∈ readable)
    (hlimit : limit ≠ some 0)
    (hmerged : rows.Perm (mergeSearchRows (atMost limit locals)
      (atMost limit (firstSeen ViewRow.id [] legacy)) none))
    (hids : ids = (atMost limit (firstSeen ViewRow.id [] legacy)).map ViewRow.id) :
    Exact readable (locals ++ legacy) limit (reserveLegacy ids limit rows) ↔
      ∀ before r after, rows = before ++ r :: after → r.Shadowed readable →
        (∃ n ∈ limit, n ≤ before.length) ∧ ∃ l ∈ before, l.id ∈ ids := by
  subst hids
  have hprimary : ((atMost limit locals).map ViewRow.id).Nodup :=
    honce.sublist (atMost_sublist.map _)
  let hits := atMost limit (firstSeen ViewRow.id [] legacy)
  have hmerged : rows.Perm (atMost limit locals ++
      firstSeen ViewRow.id ((atMost limit locals).map ViewRow.id) hits) := by
    rwa [mergeSearchRows, firstSeen_of_nodup hprimary] at hmerged
  have hsource : ∀ r ∈ rows, r ∈ locals ∨ r ∈ hits ∧ r ∈ legacy := by
    intro r hr
    rcases List.mem_append.mp (hmerged.subset hr) with hr | hr
    · exact Or.inl (atMost_sublist.subset hr)
    · have hhit : r ∈ hits := firstSeen_sublist.subset hr
      exact Or.inr ⟨hhit, firstSeen_sublist.subset (atMost_sublist.subset hhit)⟩
  have hrows : ∀ r ∈ rows, r ∈ readable := by
    intro r hr
    rcases hsource r hr with hr | ⟨-, hr⟩
    · exact (hlocals r hr).1
    · exact hlegacy r hr
  -- a shadowed row has the id of a legacy hit
  have hhit : ∀ r ∈ rows, r.Shadowed readable → r.id ∈ hits.map ViewRow.id := by
    intro r hr hshadowed
    rcases hsource r hr with hr | ⟨hr, -⟩
    · exact absurd hshadowed (not_shadowed_of_local (hlocals r hr).2)
    · exact List.mem_map_of_mem hr
  have hlocal := localRow_iff hreadable fun r hr => hrows r
    ((reserveLegacy_sublist (hits.map ViewRow.id) limit rows).subset hr)
  constructor
  · intro h before r after hsplit hshadowed
    have hr : r ∈ rows := by simp [hsplit]
    have hlost : r ∉ reserveLegacy (hits.map ViewRow.id) limit rows := fun hmem =>
      hlocal.mp h.localRow r hmem hshadowed
    rw [mem_reserveLegacy_iff (hhit r hr hshadowed) hlimit] at hlost
    constructor
    · by_contra hreached
      push Not at hreached
      exact hlost ⟨before, after, hsplit, Or.inl hreached⟩
    · by_contra hfirst
      push Not at hfirst
      exact hlost ⟨before, after, hsplit, Or.inr hfirst⟩
  · intro h
    refine ⟨?_, ?_, hlocal.mpr ?_, ?_⟩
    · intro r hr
      rcases hsource r ((reserveLegacy_sublist _ _ _).subset hr) with hr | ⟨-, hr⟩
      · exact List.mem_append_left _ hr
      · exact List.mem_append_right _ hr
    · have hall : (rows.map ViewRow.id).Nodup :=
        (hmerged.map ViewRow.id).nodup_iff.mpr (nodup_append_firstSeen hprimary)
      exact hall.sublist ((reserveLegacy_sublist _ _ _).map _)
    · intro r hr hshadowed
      have hmem := hhit r ((reserveLegacy_sublist _ _ _).subset hr) hshadowed
      obtain ⟨before, after, hsplit, hreached⟩ := (mem_reserveLegacy_iff hmem hlimit).mp hr
      obtain ⟨⟨n, hn, hfar⟩, l, hl, hlid⟩ := h before r after hsplit hshadowed
      rcases hreached with hnear | hfirst
      · exact absurd (hnear n hn) (not_lt.mpr hfar)
      · exact hfirst l hl hlid
    · rw [length_reserveLegacy hlimit, hmerged.length_eq, length_append_firstSeen hprimary,
        capped_distinct_append honce]

end Searches

end HeliosLite
