import HeliosLite.Theory.FirstSeen
import Mathlib.Data.List.Nodup

/-!
# Tables with a primary key

A table is a list of rows of which no two have the same key, with the statements of a
database over it: insertion of a new key, update and deletion of the rows that satisfy a
predicate.

## Main definitions

* `Table` — rows with different keys
* `Table.find?`, `Table.insert`, `Table.update`, `Table.delete`, `Table.replace` — the statements

## Main results

* `find?_eq_some_iff` — the row of a key is the one row that has it
* `find?_insert`, `find?_update` — what a statement does to the row of a key
* `rows_foldl_replace` — of rows that replace each other the last of each key is left
-/

namespace Theory

variable {ρ κ : Type*}

/-- Rows of which no two have the same key. -/
structure Table (key : ρ → κ) where
  rows : List ρ
  nodup : (rows.map key).Nodup

namespace Table

variable {key : ρ → κ}

def empty : Table key := ⟨[], List.nodup_nil⟩

@[simp] theorem rows_empty : (empty : Table key).rows = [] := rfl

/-- `UPDATE`: the rows that satisfy `p` are changed by `f`, which keeps their key. -/
def update (t : Table key) (p : ρ → Bool) (f : ρ → ρ) (hf : ∀ r, key (f r) = key r) :
    Table key :=
  ⟨t.rows.map fun r => if p r then f r else r, by
    have hkey : (key ∘ fun r => if p r then f r else r) = key := by
      funext r
      rw [Function.comp_apply, apply_ite key, hf, ite_self]
    rw [List.map_map, hkey]
    exact t.nodup⟩

/-- `DELETE`: the rows that satisfy `p` are removed. -/
def delete (t : Table key) (p : ρ → Bool) : Table key :=
  ⟨t.rows.filter fun r => !p r, t.nodup.sublist (List.filter_sublist.map key)⟩

theorem mem_update {t : Table key} {p : ρ → Bool} {f : ρ → ρ} {hf : ∀ r, key (f r) = key r}
    {r : ρ} : r ∈ (t.update p f hf).rows ↔ ∃ q ∈ t.rows, (if p q then f q else q) = r :=
  List.mem_map

theorem mem_delete {t : Table key} {p : ρ → Bool} {r : ρ} :
    r ∈ (t.delete p).rows ↔ r ∈ t.rows ∧ p r = false := by
  rw [delete, List.mem_filter, Bool.not_eq_true']

/-- A row that the update leaves alone is still there. -/
theorem mem_update_of_not {t : Table key} {p : ρ → Bool} {f : ρ → ρ}
    (hf : ∀ r, key (f r) = key r) {r : ρ} (hr : r ∈ t.rows) (hp : p r = false) :
    r ∈ (t.update p f hf).rows :=
  mem_update.mpr ⟨r, hr, by rw [hp]; rfl⟩

/-- A row is there after the update if it is not selected, or not changed. -/
theorem mem_update_iff_of_mem {t : Table key} {p : ρ → Bool} {f : ρ → ρ}
    (hf : ∀ r, key (f r) = key r) {r : ρ} (hr : r ∈ t.rows) :
    r ∈ (t.update p f hf).rows ↔ (p r → f r = r) := by
  rw [mem_update]
  constructor
  · rintro ⟨q, hq, heq⟩ hp
    have hkey : key q = key r := by
      rw [← heq, apply_ite key, hf, ite_self]
    obtain rfl := List.inj_on_of_nodup_map t.nodup hq hr hkey
    rwa [if_pos hp] at heq
  · intro h
    refine ⟨r, hr, ?_⟩
    split_ifs with hp
    · exact h hp
    · rfl

/-- A property that the change keeps holds of every row after the update. -/
theorem forall_update {t : Table key} {p : ρ → Bool} {f : ρ → ρ} (hf : ∀ r, key (f r) = key r)
    {P : ρ → Prop} (h : ∀ r ∈ t.rows, P r) (hchange : ∀ r ∈ t.rows, p r → P (f r)) :
    ∀ r ∈ (t.update p f hf).rows, P r := by
  intro r hr
  obtain ⟨q, hq, rfl⟩ := mem_update.mp hr
  split_ifs with hp
  · exact hchange q hq hp
  · exact h q hq

theorem forall_delete {t : Table key} {p : ρ → Bool} {P : ρ → Prop} (h : ∀ r ∈ t.rows, P r) :
    ∀ r ∈ (t.delete p).rows, P r :=
  fun r hr => h r (mem_delete.mp hr).1

theorem eq_of_mem_of_key {t : Table key} {r q : ρ} (hr : r ∈ t.rows) (hq : q ∈ t.rows)
    (h : key r = key q) : r = q :=
  List.inj_on_of_nodup_map t.nodup hr hq h

section Find

variable [DecidableEq κ]

/-- The row of a key. -/
def find? (t : Table key) (k : κ) : Option ρ := t.rows.find? fun r => key r = k

theorem find?_eq_some_iff {t : Table key} {k : κ} {r : ρ} :
    t.find? k = some r ↔ r ∈ t.rows ∧ key r = k := by
  constructor
  · intro h
    exact ⟨List.mem_of_find?_eq_some h, by simpa using List.find?_some h⟩
  · rintro ⟨hr, rfl⟩
    cases hfind : t.find? (key r) with
    | none => exact absurd (List.find?_eq_none.mp hfind r hr) (by simp)
    | some q =>
      have hq : q ∈ t.rows := List.mem_of_find?_eq_some hfind
      have hkey : key q = key r := by simpa using List.find?_some hfind
      rw [eq_of_mem_of_key hq hr hkey]

theorem find?_eq_none_iff {t : Table key} {k : κ} :
    t.find? k = none ↔ ∀ r ∈ t.rows, key r ≠ k := by
  rw [find?, List.find?_eq_none]
  simp

/-- `INSERT` of a row whose key is new. -/
def insert (t : Table key) (r : ρ) (h : t.find? (key r) = none) : Table key :=
  ⟨t.rows ++ [r], by
    rw [List.map_append, List.nodup_append]
    refine ⟨t.nodup, List.nodup_singleton _, ?_⟩
    intro k hk l hl heq
    obtain ⟨q, hq, rfl⟩ := List.mem_map.mp hk
    rw [List.map_singleton, List.mem_singleton] at hl
    exact find?_eq_none_iff.mp h q hq (heq.trans hl)⟩

/-- The key of a deleted row is free. -/
theorem find?_delete_key (t : Table key) (k : κ) :
    (t.delete fun q => key q = k).find? k = none := by
  apply find?_eq_none_iff.mpr
  intro q hq
  simpa using (mem_delete.mp hq).2

/-- `INSERT OR REPLACE`: the row of the same key is deleted first. -/
def replace (t : Table key) (r : ρ) : Table key :=
  (t.delete fun q => key q = key r).insert r (t.find?_delete_key (key r))

theorem rows_replace (t : Table key) (r : ρ) :
    (t.replace r).rows = (t.rows.filter fun q => !decide (key q = key r)) ++ [r] := rfl

/-- The last row of each key is left, in the order in which they came. -/
theorem rows_foldl_replace (l : List ρ) :
    (l.foldl replace (empty : Table key)).rows = (firstSeen key [] l.reverse).reverse := by
  induction l using List.reverseRecOn with
  | nil => rfl
  | append_singleton l r ih =>
    rw [List.foldl_append, List.foldl_cons, List.foldl_nil, rows_replace, ih, List.reverse_append,
      List.reverse_singleton, List.singleton_append,
      firstSeen_cons_of_not_mem (List.not_mem_nil), List.reverse_cons, firstSeen_cons_seen,
      List.filter_reverse]

theorem mem_insert {t : Table key} {r q : ρ} {h : t.find? (key r) = none} :
    q ∈ (t.insert r h).rows ↔ q ∈ t.rows ∨ q = r := by
  rw [insert, List.mem_append, List.mem_singleton]

theorem forall_insert {t : Table key} {r : ρ} (h : t.find? (key r) = none) {P : ρ → Prop}
    (hrows : ∀ q ∈ t.rows, P q) (hr : P r) : ∀ q ∈ (t.insert r h).rows, P q := by
  intro q hq
  rcases mem_insert.mp hq with hq | rfl
  · exact hrows q hq
  · exact hr

theorem find?_insert {t : Table key} {r : ρ} {h : t.find? (key r) = none} (k : κ) :
    (t.insert r h).find? k = if key r = k then some r else t.find? k := by
  split_ifs with hk
  · exact find?_eq_some_iff.mpr ⟨mem_insert.mpr (Or.inr rfl), hk⟩
  · rw [find?, insert, List.find?_append, List.find?_cons_of_neg (by simpa using hk),
      List.find?_nil, Option.or_none]
    rfl

theorem find?_update {t : Table key} {p : ρ → Bool} {f : ρ → ρ} {hf : ∀ r, key (f r) = key r}
    (k : κ) : (t.update p f hf).find? k = (t.find? k).map fun r => if p r then f r else r := by
  cases h : t.find? k with
  | none =>
    apply find?_eq_none_iff.mpr
    intro r hr
    obtain ⟨q, hq, rfl⟩ := mem_update.mp hr
    rw [apply_ite key, hf, ite_self]
    exact find?_eq_none_iff.mp h q hq
  | some r =>
    obtain ⟨hr, hk⟩ := find?_eq_some_iff.mp h
    apply find?_eq_some_iff.mpr
    refine ⟨mem_update.mpr ⟨r, hr, rfl⟩, ?_⟩
    rw [apply_ite key, hf, ite_self, hk]

end Find

end Table

end Theory
