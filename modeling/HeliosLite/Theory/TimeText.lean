import Mathlib.Data.Prod.Lex
import Mathlib.Data.String.Basic
import Mathlib.Order.Monotone.Basic

/-!
# Dates and times as texts

Numbers that are written with leading zeros compare as their texts do, and so do dates and
times that are written from the largest unit to the smallest. A fraction may drop groups of
zeros at its end.

## Main definitions

* `digits` — a number with a fixed width
* `Date`, `date` — the calendar, as days after the first of January of the year 0
* `dateText`, `timeText`, `fraction` — the parts of a timestamp

## Main results

* `digits_append_lt_iff`, `dateText_append_lt_iff`, `timeText_append_lt_iff` — the order of a
  part decides unless the parts are the same
* `fraction_lt_iff` — the order of fractions
-/

namespace Theory

/-! ### Lists of characters -/

/-- Texts with heads of one length: the heads decide unless they are the same. -/
theorem append_lt_append_iff {x x' y y' : List Char} (h : x.length = x'.length) :
    x ++ y < x' ++ y' ↔ x < x' ∨ x = x' ∧ y < y' := by
  induction x generalizing x' with
  | nil =>
    obtain rfl := List.length_eq_zero_iff.mp h.symm
    simp
  | cons c x ih =>
    cases x' with
    | nil => simp at h
    | cons c' x' =>
      rw [List.cons_append, List.cons_append, List.cons_lt_cons_iff, List.cons_lt_cons_iff,
        ih (Nat.succ.inj h), List.cons.injEq]
      tauto

theorem cons_lt_cons_same {c : Char} {x y : List Char} : c :: x < c :: y ↔ x < y := by
  simp

/-- Where texts compare as values do, they are the same if the values are. -/
theorem eq_iff_of_lt_iff {α : Type*} [LinearOrder α] {x y : List Char} {a b : α}
    (hlt : x < y ↔ a < b) (hgt : y < x ↔ b < a) : x = y ↔ a = b := by
  constructor
  · rintro rfl
    have hab := hlt.not.mp (lt_irrefl _)
    have hba := hgt.not.mp (lt_irrefl _)
    exact le_antisymm (not_lt.mp hba) (not_lt.mp hab)
  · rintro rfl
    have hxy := hlt.not.mpr (lt_irrefl _)
    have hyx := hgt.not.mpr (lt_irrefl _)
    exact le_antisymm (not_lt.mp hyx) (not_lt.mp hxy)

/-! ### Numbers -/

/-- A number of `k` digits, with leading zeros. -/
def digits : ℕ → ℕ → List Char
  | 0, _ => []
  | k + 1, n => Nat.digitChar (n / 10 ^ k) :: digits k (n % 10 ^ k)

theorem length_digits (k n : ℕ) : (digits k n).length = k := by
  induction k generalizing n with
  | zero => rfl
  | succ k ih => rw [digits, List.length_cons, ih]

theorem digitChar_lt_iff {a b : ℕ} (ha : a < 10) (hb : b < 10) :
    Nat.digitChar a < Nat.digitChar b ↔ a < b := by
  have hall : ∀ i j : Fin 10, Nat.digitChar i < Nat.digitChar j ↔ i.val < j.val := by decide
  exact hall ⟨a, ha⟩ ⟨b, hb⟩

theorem digitChar_inj_iff {a b : ℕ} (ha : a < 10) (hb : b < 10) :
    Nat.digitChar a = Nat.digitChar b ↔ a = b := by
  have hall : ∀ i j : Fin 10, Nat.digitChar i = Nat.digitChar j ↔ i.val = j.val := by decide
  exact hall ⟨a, ha⟩ ⟨b, hb⟩

/-- The quotients decide unless they are the same. -/
theorem lt_iff_div_mod {a b m : ℕ} : a < b ↔ a / m < b / m ∨ a / m = b / m ∧ a % m < b % m := by
  have ha := Nat.div_add_mod a m
  have hb := Nat.div_add_mod b m
  rcases lt_trichotomy (a / m) (b / m) with h | h | h
  · exact iff_of_true (Nat.lt_of_div_lt_div h) (Or.inl h)
  · rw [h] at ha ⊢
    constructor
    · intro hlt
      exact Or.inr ⟨rfl, by omega⟩
    · rintro (hlt | ⟨-, hlt⟩)
      · exact absurd hlt (lt_irrefl _)
      · omega
  · refine iff_of_false (Nat.lt_of_div_lt_div h).le.not_gt ?_
    omega

theorem digits_lt_iff {k a b : ℕ} (ha : a < 10 ^ k) (hb : b < 10 ^ k) :
    digits k a < digits k b ↔ a < b := by
  induction k generalizing a b with
  | zero =>
    obtain rfl : a = 0 := by omega
    obtain rfl : b = 0 := by omega
    simp
  | succ k ih =>
    have hpos : 0 < 10 ^ k := Nat.pow_pos (by decide)
    have hhead : ∀ n, n < 10 ^ (k + 1) → n / 10 ^ k < 10 := fun n hn =>
      Nat.div_lt_of_lt_mul (by rwa [pow_succ] at hn)
    rw [digits, digits, List.cons_lt_cons_iff, digitChar_lt_iff (hhead a ha) (hhead b hb),
      digitChar_inj_iff (hhead a ha) (hhead b hb),
      ih (Nat.mod_lt _ hpos) (Nat.mod_lt _ hpos)]
    exact lt_iff_div_mod.symm

theorem digits_inj_iff {k a b : ℕ} (ha : a < 10 ^ k) (hb : b < 10 ^ k) :
    digits k a = digits k b ↔ a = b := eq_iff_of_lt_iff (digits_lt_iff ha hb) (digits_lt_iff hb ha)

theorem digits_append_lt_iff {k a b : ℕ} {x y : List Char} (ha : a < 10 ^ k) (hb : b < 10 ^ k) :
    digits k a ++ x < digits k b ++ y ↔ a < b ∨ a = b ∧ x < y := by
  have hlength : (digits k a).length = (digits k b).length := by
    rw [length_digits, length_digits]
  rw [append_lt_append_iff hlength, digits_lt_iff ha hb, digits_inj_iff ha hb]

/-! ### Dates -/

def isLeapYear (year : ℕ) : Bool := year % 4 == 0 && (year % 100 != 0 || year % 400 == 0)

def monthLength (year month : ℕ) : ℕ :=
  if month = 2 then if isLeapYear year then 29 else 28
  else if month ∈ [4, 6, 9, 11] then 30
  else 31

theorem monthLength_le {year month : ℕ} : monthLength year month ≤ 31 := by
  unfold monthLength
  split_ifs <;> decide

theorem monthLength_pos {year month : ℕ} : 0 < monthLength year month := by
  unfold monthLength
  split_ifs <;> decide

/-- A day of the calendar. -/
structure Date where
  year : ℕ
  month : ℕ
  day : ℕ
  month_pos : 1 ≤ month
  month_le : month ≤ 12
  day_pos : 1 ≤ day
  day_le : day ≤ monthLength year month

namespace Date

/-- The first day of a month. -/
def first (year month : ℕ) (hpos : 1 ≤ month) (hle : month ≤ 12) : Date :=
  { year := year
    month := month
    day := 1
    month_pos := hpos
    month_le := hle
    day_pos := le_rfl
    day_le := monthLength_pos }

/-- New year's day. -/
def newYear (year : ℕ) : Date := first year 1 le_rfl (by decide)

/-- The next day. -/
def next (d : Date) : Date :=
  if hday : d.day < monthLength d.year d.month then
    { d with day := d.day + 1, day_pos := Nat.le_add_left _ _, day_le := hday }
  else if hmonth : d.month < 12 then first d.year (d.month + 1) (Nat.le_add_left _ _) hmonth
  else newYear (d.year + 1)

/-- The units from the largest to the smallest. -/
def key (d : Date) : ℕ ×ₗ ℕ ×ₗ ℕ := toLex (d.year, toLex (d.month, d.day))

theorem key_lt_key_next (d : Date) : d.key < d.next.key := by
  unfold next
  split_ifs
  · simp [key, Prod.Lex.toLex_lt_toLex]
  · simp [key, first, Prod.Lex.toLex_lt_toLex]
  · simp [key, newYear, first, Prod.Lex.toLex_lt_toLex]

end Date

/-- The day that comes `n` days after the first of January of the year 0. -/
def date : ℕ → Date
  | 0 => .newYear 0
  | n + 1 => (date n).next

theorem strictMono_key_date : StrictMono fun n => (date n).key :=
  strictMono_nat_of_lt_succ fun n => (date n).key_lt_key_next

/-! ### Years -/

/-- A month passes. -/
theorem date_add_month {n year month : ℕ} {hpos : 1 ≤ month} {hle : month ≤ 12}
    (h : date n = .first year month hpos hle) :
    date (n + monthLength year month) =
      if hmonth : month < 12 then .first year (month + 1) (Nat.le_add_left _ _) hmonth
      else .newYear (year + 1) := by
  have hdays : ∀ k, k < monthLength year month →
      (date (n + k)).year = year ∧ (date (n + k)).month = month ∧ (date (n + k)).day = k + 1 := by
    intro k
    induction k with
    | zero =>
      intro _
      rw [Nat.add_zero, h]
      exact ⟨rfl, rfl, rfl⟩
    | succ k ih =>
      intro hk
      obtain ⟨hyear, hmonth, hday⟩ := ih (by omega)
      have hnext : date (n + (k + 1)) = (date (n + k)).next := rfl
      rw [hnext, Date.next, dif_pos (by rw [hyear, hmonth, hday]; exact hk)]
      exact ⟨hyear, hmonth, congrArg (· + 1) hday⟩
  have hpos' : 0 < monthLength year month := monthLength_pos
  obtain ⟨hyear, hmonth, hday⟩ := hdays (monthLength year month - 1) (by omega)
  have hlast : n + monthLength year month = n + (monthLength year month - 1) + 1 := by omega
  have hfull : ¬(date (n + (monthLength year month - 1))).day <
      monthLength (date (n + (monthLength year month - 1))).year
        (date (n + (monthLength year month - 1))).month := by
    rw [hyear, hmonth, hday]
    omega
  rw [hlast, date, Date.next, dif_neg hfull]
  simp only [hyear, hmonth]

/-- The days of the first months of a year. -/
def daysOfMonths (year : ℕ) : ℕ → ℕ
  | 0 => 0
  | month + 1 => daysOfMonths year month + monthLength year (month + 1)

theorem date_add_daysOfMonths {n year month : ℕ} (h : date n = .newYear year)
    (hmonth : month < 12) :
    date (n + daysOfMonths year month) =
      .first year (month + 1) (Nat.le_add_left _ _) hmonth := by
  induction month with
  | zero => exact h
  | succ month ih =>
    rw [daysOfMonths, ← Nat.add_assoc, date_add_month (ih (by omega)), dif_pos hmonth]

/-- The days before a year: one of every four years has a day more, but not of every hundred,
save of every four hundred. -/
def daysBefore (year : ℕ) : ℕ :=
  365 * year + ((year + 3) / 4 - (year + 99) / 100 + (year + 399) / 400)

theorem daysBefore_succ (year : ℕ) :
    daysBefore (year + 1) = daysBefore year + daysOfMonths year 12 := by
  have hdays : daysOfMonths year 12 = if isLeapYear year then 366 else 365 := by
    cases hleap : isLeapYear year <;> simp [daysOfMonths, monthLength, hleap]
  have hleap : isLeapYear year = true ↔ year % 4 = 0 ∧ (year % 100 ≠ 0 ∨ year % 400 = 0) := by
    simp [isLeapYear]
  have hfour : (year + 1 + 3) / 4 = (year + 3) / 4 + if year % 4 = 0 then 1 else 0 := by
    split_ifs <;> omega
  have hhundred : (year + 1 + 99) / 100 = (year + 99) / 100 + if year % 100 = 0 then 1 else 0 := by
    split_ifs <;> omega
  have hfourHundred :
      (year + 1 + 399) / 400 = (year + 399) / 400 + if year % 400 = 0 then 1 else 0 := by
    split_ifs <;> omega
  have hle : (year + 99) / 100 ≤ (year + 3) / 4 := by omega
  have h100of : year % 100 = 0 → year % 4 = 0 := by omega
  have h400of : year % 400 = 0 → year % 100 = 0 := by omega
  rw [hdays, daysBefore, daysBefore, hfour, hhundred, hfourHundred]
  -- only the remainders of the year matter from here on
  generalize (year + 3) / 4 = fours at hle
  generalize (year + 99) / 100 = hundreds at hle
  generalize (year + 399) / 400 = fourHundreds
  by_cases h4 : year % 4 = 0
  · by_cases h100 : year % 100 = 0
    · by_cases h400 : year % 400 = 0
      · simp only [hleap, h4, h100, h400]
        grind
      · simp only [hleap, h4, h100, h400]
        grind
    · have h400 : ¬year % 400 = 0 := mt h400of h100
      simp only [hleap, h4, h100, h400]
      grind
  · have h100 : ¬year % 100 = 0 := mt h100of h4
    have h400 : ¬year % 400 = 0 := mt h400of h100
    simp only [hleap, h4, h100, h400]
    grind

theorem date_daysBefore (year : ℕ) : date (daysBefore year) = .newYear year := by
  induction year with
  | zero => rfl
  | succ year ih =>
    have hyear : daysOfMonths year 12 = daysOfMonths year 11 + monthLength year 12 := rfl
    rw [daysBefore_succ, hyear, ← Nat.add_assoc,
      date_add_month (date_add_daysOfMonths ih (by decide)), dif_neg (by decide)]

/-- The dates before a year are dates of the years before it. -/
theorem year_date_lt {n year : ℕ} (h : n < daysBefore year) : (date n).year < year := by
  have hlt : (date n).key < (date (daysBefore year)).key := strictMono_key_date h
  rw [date_daysBefore, Date.key, Date.key, Prod.Lex.toLex_lt_toLex, Prod.Lex.toLex_lt_toLex] at hlt
  have hmonth := (date n).month_pos
  have hday := (date n).day_pos
  simp only [Date.newYear, Date.first] at hlt
  omega

/-- A date with four digits for the year. -/
def dateText (d : Date) : List Char :=
  digits 4 d.year ++ '-' :: (digits 2 d.month ++ '-' :: digits 2 d.day)

example : dateText (date 59) = "0000-02-29".toList := by decide +kernel

theorem length_dateText (d : Date) : (dateText d).length = 10 := by
  simp [dateText, length_digits]

theorem dateText_lt_iff {d d' : Date} (hd : d.year < 10 ^ 4) (hd' : d'.year < 10 ^ 4) :
    dateText d < dateText d' ↔ d.key < d'.key := by
  have hbounds : ∀ c : Date, c.month < 10 ^ 2 ∧ c.day < 10 ^ 2 := by
    intro c
    have hmonth := c.month_le
    have hday := c.day_le.trans monthLength_le
    omega
  rw [dateText, dateText, digits_append_lt_iff hd hd', cons_lt_cons_same,
    digits_append_lt_iff (hbounds d).1 (hbounds d').1, cons_lt_cons_same,
    digits_lt_iff (hbounds d).2 (hbounds d').2, Date.key, Date.key, Prod.Lex.toLex_lt_toLex,
    Prod.Lex.toLex_lt_toLex]

/-- The earlier date decides, unless the dates are the same. -/
theorem dateText_append_lt_iff {m n : ℕ} {x y : List Char} (hm : (date m).year < 10 ^ 4)
    (hn : (date n).year < 10 ^ 4) :
    dateText (date m) ++ x < dateText (date n) ++ y ↔ m < n ∨ m = n ∧ x < y := by
  have hlength : (dateText (date m)).length = (dateText (date n)).length := by
    rw [length_dateText, length_dateText]
  rw [append_lt_append_iff hlength,
    eq_iff_of_lt_iff (dateText_lt_iff hm hn) (dateText_lt_iff hn hm), dateText_lt_iff hm hn]
  exact or_congr strictMono_key_date.lt_iff_lt
    (and_congr_left' strictMono_key_date.injective.eq_iff)

/-- A sign comes before any date. -/
theorem not_dateText_lt_sign {d : Date} {x y : List Char} (hd : d.year < 10 ^ 4) :
    ¬dateText d ++ x < '-' :: y := by
  have hall : ∀ i : Fin 10, ¬Nat.digitChar i < '-' ∧ Nat.digitChar i ≠ '-' := by decide
  have hhead : d.year / 10 ^ 3 < 10 := by omega
  obtain ⟨hlt, hne⟩ := hall ⟨d.year / 10 ^ 3, hhead⟩
  rw [dateText, digits, List.cons_append, List.cons_append, List.cons_lt_cons_iff]
  rintro (h | ⟨h, -⟩)
  · exact hlt h
  · exact hne h

/-! ### Times of the day -/

/-- The hours, minutes and seconds of a second of the day. -/
def timeText (second : ℕ) : List Char :=
  digits 2 (second / 3600) ++ ':' :: (digits 2 (second / 60 % 60) ++ ':' :: digits 2 (second % 60))

theorem length_timeText (second : ℕ) : (timeText second).length = 8 := by
  simp [timeText, length_digits]

theorem timeText_lt_iff {a b : ℕ} (ha : a < 86400) (hb : b < 86400) :
    timeText a < timeText b ↔ a < b := by
  rw [timeText, timeText, digits_append_lt_iff (by omega) (by omega), cons_lt_cons_same,
    digits_append_lt_iff (by omega) (by omega), cons_lt_cons_same,
    digits_lt_iff (by omega) (by omega)]
  omega

theorem timeText_append_lt_iff {a b : ℕ} {x y : List Char} (ha : a < 86400) (hb : b < 86400) :
    timeText a ++ x < timeText b ++ y ↔ a < b ∨ a = b ∧ x < y := by
  have hlength : (timeText a).length = (timeText b).length := by
    rw [length_timeText, length_timeText]
  rw [append_lt_append_iff hlength, timeText_lt_iff ha hb,
    eq_iff_of_lt_iff (timeText_lt_iff ha hb) (timeText_lt_iff hb ha)]

/-! ### Fractions -/

/-- A number of `k` groups of three digits, without the groups at its end that are zero. -/
def groups : ℕ → ℕ → List Char
  | 0, _ => []
  | k + 1, n => if n = 0 then [] else digits 3 (n / 1000 ^ k) ++ groups k (n % 1000 ^ k)

/-- The fraction of a second, in nanoseconds: nothing, or a point and three, six or nine
digits. -/
def fraction (n : ℕ) : List Char := if n = 0 then [] else '.' :: groups 3 n

example : fraction 1500000 = ".001500".toList := by decide +kernel

theorem groups_lt_iff {k a b : ℕ} (ha : a < 1000 ^ k) (hb : b < 1000 ^ k) :
    groups k a < groups k b ↔ a < b := by
  induction k generalizing a b with
  | zero =>
    obtain rfl : a = 0 := by omega
    obtain rfl : b = 0 := by omega
    simp
  | succ k ih =>
    have hpos : 0 < 1000 ^ k := Nat.pow_pos (by decide)
    have hhead : ∀ n, n < 1000 ^ (k + 1) → n / 1000 ^ k < 10 ^ 3 := fun n hn =>
      Nat.div_lt_of_lt_mul (by rwa [pow_succ] at hn)
    rw [groups, groups]
    split_ifs with hazero hbzero hbzero
    · simp [hazero, hbzero]
    · -- no text at all comes before any text
      rw [digits, List.cons_append]
      exact iff_of_true (List.nil_lt_cons _ _) (by omega)
    · refine iff_of_false ?_ (by omega)
      exact List.not_lt_nil _
    · rw [digits_append_lt_iff (hhead a ha) (hhead b hb),
        ih (Nat.mod_lt _ hpos) (Nat.mod_lt _ hpos)]
      exact lt_iff_div_mod.symm

theorem fraction_lt_iff {a b : ℕ} (ha : a < 1000 ^ 3) (hb : b < 1000 ^ 3) :
    fraction a < fraction b ↔ a < b := by
  rw [fraction, fraction]
  split_ifs with hazero hbzero hbzero
  · simp [hazero, hbzero]
  · exact iff_of_true (List.nil_lt_cons _ _) (by omega)
  · exact iff_of_false (List.not_lt_nil _) (by omega)
  · rw [cons_lt_cons_same, groups_lt_iff ha hb]

end Theory
