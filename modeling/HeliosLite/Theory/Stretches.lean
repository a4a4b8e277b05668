import Mathlib.Data.List.Chain
import Mathlib.Data.List.Flatten
import Mathlib.Data.List.Nodup
import Mathlib.Data.List.Triplewise

/-!
# Stretches of a list

A list is cut where the key changes. A key may have several stretches; where each has one, the
stretches are the parts of the list for the keys.

An element may also be dropped when the next one replaces it. So of several elements in a row that
replace each other the last one is kept.

## Main definitions

* `stretches` — the stretches of a list, each with its key
* `Uninterrupted` — between two elements with a key there is no other
* `replaceLast` — an element is added, and the last one goes if it is replaced
* `keepUnreplaced` — the elements that the next one does not replace

## Main results

* `flatMap_stretches` — the stretches make up the list
* `nodup_stretches_iff` — every key has one stretch if no key is interrupted
* `stretch_eq_filter` — the only stretch of a key has all elements with the key
* `foldl_replaceLast` — adding the elements one after the other keeps those that are not replaced
* `flatMap_keepUnreplaced_eq_iff` — nothing is lost if what is replaced has nothing to lose
-/

namespace Theory

variable {α κ : Type} [DecidableEq κ] (key : α → κ)

/-- The stretches of a list, the first of which continues some elements. -/
def stretchesFrom (k : κ) (acc : List α) : List α → List (κ × List α)
  | [] => [(k, acc)]
  | a :: l =>
    if key a = k then stretchesFrom k (acc ++ [a]) l else (k, acc) :: stretchesFrom (key a) [a] l

/-- The list, cut where the key changes. -/
def stretches : List α → List (κ × List α)
  | [] => []
  | a :: l => stretchesFrom key (key a) [a] l

/-- Between two elements with the same key there is none with another. -/
def Uninterrupted (l : List α) : Prop := l.Triplewise fun a b c => key a = key c → key b = key a

variable {key} {k : κ} {acc l : List α}

theorem flatMap_stretchesFrom : (stretchesFrom key k acc l).flatMap Prod.snd = acc ++ l := by
  induction l generalizing k acc with
  | nil => simp [stretchesFrom]
  | cons a l ih =>
    unfold stretchesFrom
    split_ifs with hkey
    · rw [ih, List.append_assoc, List.singleton_append]
    · rw [List.flatMap_cons, ih, List.singleton_append]

/-- The stretches make up the list. -/
theorem flatMap_stretches (key : α → κ) (l : List α) :
    (stretches key l).flatMap Prod.snd = l := by
  cases l with
  | nil => rfl
  | cons a l => exact flatMap_stretchesFrom

theorem mem_stretchesFrom (hne : acc ≠ []) (hacc : ∀ a ∈ acc, key a = k) {p : κ × List α}
    (hp : p ∈ stretchesFrom key k acc l) : p.2 ≠ [] ∧ ∀ a ∈ p.2, key a = p.1 := by
  induction l generalizing k acc with
  | nil =>
    obtain rfl := List.mem_singleton.mp hp
    exact ⟨hne, hacc⟩
  | cons a l ih =>
    unfold stretchesFrom at hp
    split_ifs at hp with hkey
    · apply ih (by simp) ?_ hp
      intro b hb
      rcases List.mem_append.mp hb with hold | hnew
      · exact hacc b hold
      · rw [List.mem_singleton.mp hnew, hkey]
    · rcases List.mem_cons.mp hp with rfl | hp
      · exact ⟨hne, hacc⟩
      · exact ih (by simp) (by simp) hp

/-- The elements of a stretch have its key, and there are some. -/
theorem mem_stretches {p : κ × List α} (hp : p ∈ stretches key l) :
    p.2 ≠ [] ∧ ∀ a ∈ p.2, key a = p.1 := by
  cases l with
  | nil => cases hp
  | cons a l => exact mem_stretchesFrom (by simp) (by simp) hp

/-- Every key of the list has a stretch, and no other key has one. -/
theorem mem_keys_stretches : k ∈ (stretches key l).map Prod.fst ↔ k ∈ l.map key := by
  rw [List.mem_map, List.mem_map]
  constructor
  · rintro ⟨p, hp, rfl⟩
    obtain ⟨hne, hkey⟩ := mem_stretches hp
    obtain ⟨a, ha⟩ := List.exists_mem_of_ne_nil _ hne
    refine ⟨a, ?_, hkey a ha⟩
    rw [← flatMap_stretches key l, List.mem_flatMap]
    exact ⟨p, hp, ha⟩
  · rintro ⟨a, ha, rfl⟩
    rw [← flatMap_stretches key l, List.mem_flatMap] at ha
    obtain ⟨p, hp, hmem⟩ := ha
    exact ⟨p, hp, ((mem_stretches hp).2 a hmem).symm⟩

omit [DecidableEq κ] in
theorem uninterrupted_map {β : Type} {f : β → α} {bs : List β} :
    Uninterrupted key (bs.map f) ↔ Uninterrupted (fun b => key (f b)) bs :=
  List.triplewise_map

omit [DecidableEq κ] in
theorem uninterrupted_of_forall (hacc : ∀ a ∈ acc, key a = k) : Uninterrupted key acc := by
  rw [Uninterrupted, List.triplewise_iff_getElem]
  intro i j l _ _ _ _
  rw [hacc _ (List.getElem_mem _), hacc _ (List.getElem_mem _)]

omit [DecidableEq κ] in
/-- Elements with a key, before an element with another, may be followed by none with their
key. -/
theorem uninterrupted_append_cons (hne : acc ≠ []) (hacc : ∀ a ∈ acc, key a = k) {a : α}
    (hother : key a ≠ k) :
    Uninterrupted key (acc ++ a :: l) ↔ k ∉ (a :: l).map key ∧ Uninterrupted key (a :: l) := by
  rw [Uninterrupted, List.triplewise_append]
  constructor
  · rintro ⟨-, hrest, hafter, -⟩
    refine ⟨?_, hrest⟩
    intro hmem
    obtain ⟨c, hc, hkey⟩ := List.mem_map.mp hmem
    obtain ⟨b, hb⟩ := List.exists_mem_of_ne_nil _ hne
    rcases List.mem_cons.mp hc with rfl | hc
    · exact hother hkey
    · have hpair := (List.pairwise_cons.mp (hafter b hb)).1 c hc
      rw [hacc b hb] at hpair
      exact hother (hpair hkey.symm)
  · rintro ⟨hfresh, hrest⟩
    refine ⟨uninterrupted_of_forall hacc, hrest, ?_, ?_⟩
    · intro b hb
      apply List.pairwise_of_forall_mem_list
      intro c _ d hd heq
      rw [hacc b hb] at heq
      exact absurd (heq ▸ List.mem_map_of_mem hd) hfresh
    · intro d hd
      apply List.pairwise_of_forall_mem_list
      intro b hb c hc _
      rw [hacc b hb, hacc c hc]

theorem nodup_stretchesFrom_iff (hne : acc ≠ []) (hacc : ∀ a ∈ acc, key a = k) :
    ((stretchesFrom key k acc l).map Prod.fst).Nodup ↔ Uninterrupted key (acc ++ l) := by
  induction l generalizing k acc with
  | nil => simpa [stretchesFrom] using uninterrupted_of_forall hacc
  | cons a l ih =>
    unfold stretchesFrom
    split_ifs with hkey
    · rw [ih (by simp) (by simpa [or_imp, forall_and, hkey] using hacc), List.append_assoc,
        List.singleton_append]
    · have hkeys : (stretchesFrom key (key a) [a] l).map Prod.fst =
          (stretches key (a :: l)).map Prod.fst := rfl
      rw [List.map_cons, List.nodup_cons, ih (by simp) (by simp), hkeys, mem_keys_stretches,
        uninterrupted_append_cons hne hacc hkey, List.singleton_append]

/-- Every key has one stretch if and only if no key is interrupted. -/
theorem nodup_stretches_iff : ((stretches key l).map Prod.fst).Nodup ↔ Uninterrupted key l := by
  cases l with
  | nil => simp [stretches, Uninterrupted]
  | cons a l => exact nodup_stretchesFrom_iff (by simp) (by simp)

instance : Decidable (Uninterrupted key l) := decidable_of_iff _ nodup_stretches_iff

/-- Stretches with other keys have no element with a key. -/
theorem filter_flatMap_eq_nil {ps : List (κ × List α)} (hkey : ∀ p ∈ ps, ∀ a ∈ p.2, key a = p.1)
    (hother : ∀ p ∈ ps, p.1 ≠ k) : (ps.flatMap Prod.snd).filter (key · = k) = [] := by
  rw [List.filter_eq_nil_iff]
  intro a ha
  obtain ⟨p, hp, hmem⟩ := List.mem_flatMap.mp ha
  rw [decide_eq_true_iff, hkey p hp a hmem]
  exact hother p hp

/-- Where every key has one stretch, it has all elements with the key. -/
theorem stretch_eq_filter (hnodup : ((stretches key l).map Prod.fst).Nodup) {p : κ × List α}
    (hp : p ∈ stretches key l) : p.2 = l.filter (key · = p.1) := by
  obtain ⟨before, after, hsplit⟩ := List.append_of_mem hp
  have hkey : ∀ q ∈ stretches key l, ∀ a ∈ q.2, key a = q.1 := fun q hq => (mem_stretches hq).2
  rw [hsplit, List.map_append, List.map_cons, List.nodup_append, List.nodup_cons] at hnodup
  obtain ⟨-, ⟨hafter, -⟩, hbefore⟩ := hnodup
  have hself : p.2.filter (key · = p.1) = p.2 := by
    rw [List.filter_eq_self]
    intro a ha
    exact decide_eq_true (hkey p hp a ha)
  conv_rhs => rw [← flatMap_stretches key l, hsplit]
  rw [List.flatMap_append, List.flatMap_cons, List.filter_append, List.filter_append, hself,
    filter_flatMap_eq_nil, filter_flatMap_eq_nil, List.nil_append, List.append_nil]
  · exact fun q hq => hkey q (by rw [hsplit]; simp [hq])
  · intro q hq heq
    exact hafter (heq ▸ List.mem_map_of_mem hq)
  · exact fun q hq => hkey q (by rw [hsplit]; simp [hq])
  · intro q hq heq
    exact hbefore q.1 (List.mem_map_of_mem hq) p.1 List.mem_cons_self heq

end Theory

/-! ### Elements that the next one replaces -/

namespace Theory

variable {α β : Type*}

/-- An element is added; the last one goes if it is replaced. -/
def replaceLast (replaces : α → α → Bool) (l : List α) (a : α) : List α :=
  match l.getLast? with
  | some last => if replaces last a then l.dropLast ++ [a] else l ++ [a]
  | none => [a]

/-- The elements that the next one does not replace. -/
def keepUnreplaced (replaces : α → α → Bool) : List α → List α
  | [] => []
  | [a] => [a]
  | a :: b :: l =>
    if replaces a b then keepUnreplaced replaces (b :: l)
    else a :: keepUnreplaced replaces (b :: l)

variable {replaces : α → α → Bool} {l : List α} {a b : α}

theorem replaceLast_concat (l : List α) (a b : α) :
    replaceLast replaces (l ++ [a]) b =
      if replaces a b then l ++ [b] else l ++ [a] ++ [b] := by
  rw [replaceLast, List.getLast?_concat]
  simp only [List.dropLast_concat]

/-- The last element that was added is the last of the list. -/
theorem foldl_replaceLast_concat (kept : List α) (a : α) (l : List α) :
    l.foldl (replaceLast replaces) (kept ++ [a]) = kept ++ keepUnreplaced replaces (a :: l) := by
  induction l generalizing kept a with
  | nil => rfl
  | cons b l ih =>
    rw [List.foldl_cons, replaceLast_concat, keepUnreplaced]
    split_ifs
    · exact ih kept b
    · rw [ih (kept ++ [a]) b, List.append_assoc, List.singleton_append]

theorem foldl_replaceLast (l : List α) :
    l.foldl (replaceLast replaces) [] = keepUnreplaced replaces l := by
  cases l with
  | nil => rfl
  | cons a l => exact foldl_replaceLast_concat [] a l

theorem keepUnreplaced_sublist (l : List α) : (keepUnreplaced replaces l).Sublist l := by
  fun_induction keepUnreplaced replaces l with
  | case1 => exact .slnil
  | case2 a => exact .refl _
  | case3 a b l hreplaced ih => exact ih.cons a
  | case4 a b l hreplaced ih => exact ih.cons_cons a

/-- What the elements give is kept if and only if those that are replaced give nothing. -/
theorem flatMap_keepUnreplaced_eq_iff {f : α → List β} :
    (keepUnreplaced replaces l).flatMap f = l.flatMap f ↔
      l.IsChain fun a b => replaces a b → f a = [] := by
  fun_induction keepUnreplaced replaces l with
  | case1 => simp
  | case2 a => simp
  | case3 a b l hreplaced ih =>
    rw [List.isChain_cons_cons, ← ih, List.flatMap_cons]
    constructor
    · intro h
      have hsublist : (keepUnreplaced replaces (b :: l)).Sublist (b :: l) :=
        keepUnreplaced_sublist (b :: l)
      have hle := (hsublist.flatMap f).length_le
      have hlength := congrArg List.length h
      rw [List.length_append] at hlength
      have hnil : f a = [] := List.length_eq_zero_iff.mp (by omega)
      rw [hnil, List.nil_append] at h
      exact ⟨fun _ => hnil, h⟩
    · rintro ⟨hnil, h⟩
      rw [hnil hreplaced, List.nil_append, h]
  | case4 a b l hreplaced ih =>
    rw [List.isChain_cons_cons, ← ih, List.flatMap_cons, List.flatMap_cons,
      List.append_cancel_left_eq]
    constructor
    · intro h
      exact ⟨fun hrep => absurd hrep hreplaced, h⟩
    · exact And.right

end Theory
