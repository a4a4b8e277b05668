import HeliosLite.Storage.Libraries
import HeliosLite.Theory.TimeText

/-!
# Timestamps in two formats

The object mapper and the daemon write the same column in formats of their own, and the
database compares what they write as texts. Texts of one format compare as the times do, up to
the precision of the format; of two texts in different formats only the dates count.

## Main definitions

* `DateTime.naiveText`, `DateTime.strftimeText`, `cutoffText` — the formats
* `DateTime.Formatted`, `CutoffFormatted` — the libraries write a time as they document it

## Main results

* `naiveText_lt_iff`, `strftimeText_lt_iff` — texts of one format
* `naiveText_lt_strftimeText`, `strftimeText_lt_naiveText` — texts of two formats
* `Formatted.not_lt_cutoff` — a time after a cutoff is not written before it
-/

namespace HeliosLite

open Theory

namespace DateTime

variable {t u : DateTime}

/-! ### The parts of a time -/

/-- The day, counted from the first of January of the year 0. -/
def day (t : DateTime) : ℕ := (t.nanos / 86400000000000 + 719528).toNat

def secondOfDay (t : DateTime) : ℕ := (t.nanos / 1000000000 % 86400).toNat

def nanoOfSecond (t : DateTime) : ℕ := (t.nanos % 1000000000).toNat

/-- The milliseconds since the epoch. -/
def millis (t : DateTime) : ℤ := t.nanos / 1000000

theorem day_eq (t : DateTime) : (t.day : ℤ) = t.nanos / 86400000000000 + 719528 := by
  have hlower := t.lower
  rw [day]
  omega

theorem secondOfDay_lt (t : DateTime) : t.secondOfDay < 86400 := by
  rw [secondOfDay]
  omega

theorem nanoOfSecond_lt (t : DateTime) : t.nanoOfSecond < 1000 ^ 3 := by
  rw [nanoOfSecond]
  omega

theorem year_lt (t : DateTime) : (date t.day).year < 10 ^ 4 := by
  apply year_date_lt
  have hupper := t.upper
  have hday := t.day_eq
  have hdays : daysBefore (10 ^ 4) = 3652425 := rfl
  omega

/-! ### The formats -/

/-- `%F %T%.f`. -/
def naiveText (t : DateTime) : List Char :=
  dateText (date t.day) ++ ' ' :: (timeText t.secondOfDay ++ fraction t.nanoOfSecond)

/-- `%Y-%m-%dT%H:%M:%fZ`, where the seconds have three digits after the point. -/
def strftimeText (t : DateTime) : List Char :=
  dateText (date t.day) ++
    'T' :: (timeText t.secondOfDay ++ '.' :: (digits 3 (t.nanoOfSecond / 1000000) ++ ['Z']))

theorem naiveText_lt_iff : t.naiveText < u.naiveText ↔ t.nanos < u.nanos := by
  have ht := t.day_eq
  have hu := u.day_eq
  rw [naiveText, naiveText, dateText_append_lt_iff t.year_lt u.year_lt, cons_lt_cons_same,
    timeText_append_lt_iff t.secondOfDay_lt u.secondOfDay_lt,
    fraction_lt_iff t.nanoOfSecond_lt u.nanoOfSecond_lt]
  unfold secondOfDay nanoOfSecond
  omega

theorem strftimeText_lt_iff : t.strftimeText < u.strftimeText ↔ t.millis < u.millis := by
  have ht := t.day_eq
  have hu := u.day_eq
  have hmillis : ∀ v : DateTime, v.nanoOfSecond / 1000000 < 10 ^ 3 := by
    intro v
    have hv := v.nanoOfSecond_lt
    omega
  rw [strftimeText, strftimeText, dateText_append_lt_iff t.year_lt u.year_lt, cons_lt_cons_same,
    timeText_append_lt_iff t.secondOfDay_lt u.secondOfDay_lt, cons_lt_cons_same,
    digits_append_lt_iff (hmillis t) (hmillis u)]
  simp only [lt_irrefl, and_false, or_false]
  unfold secondOfDay nanoOfSecond millis
  omega

/-- A blank comes before a `T`: on one day the time does not count. -/
theorem naiveText_lt_strftimeText : t.naiveText < u.strftimeText ↔ t.day ≤ u.day := by
  have hblank : ' ' < 'T' := by decide
  rw [naiveText, strftimeText, dateText_append_lt_iff t.year_lt u.year_lt, List.cons_lt_cons_iff]
  simp only [hblank, true_or, and_true]
  exact le_iff_lt_or_eq.symm

theorem strftimeText_lt_naiveText : t.strftimeText < u.naiveText ↔ t.day < u.day := by
  have hblank : ¬('T' < ' ') := by decide
  rw [naiveText, strftimeText, dateText_append_lt_iff t.year_lt u.year_lt, List.cons_lt_cons_iff]
  simp [hblank]

end DateTime

/-! ### Cutoffs -/

/-- `datetime(n, 'unixepoch')` of a second of the years 0 to 9999. -/
def cutoffText (n : ℤ) : List Char :=
  dateText (date (n / 86400 + 719528).toNat) ++ ' ' :: timeText (n % 86400).toNat

variable {n : ℤ} {t : DateTime}

theorem year_cutoff_lt (h : n < 253402300800) :
    (date (n / 86400 + 719528).toNat).year < 10 ^ 4 := by
  apply year_date_lt
  have hdays : daysBefore (10 ^ 4) = 3652425 := rfl
  omega

theorem naiveText_lt_cutoffText (hlower : -62167219200 ≤ n) (hupper : n < 253402300800) :
    t.naiveText < cutoffText n ↔ t.nanos / 1000000000 < n := by
  have ht := t.day_eq
  have hsecond : (n % 86400).toNat < 86400 := by omega
  rw [DateTime.naiveText, cutoffText, dateText_append_lt_iff t.year_lt (year_cutoff_lt hupper),
    cons_lt_cons_same, ← List.append_nil (timeText (n % 86400).toNat),
    timeText_append_lt_iff t.secondOfDay_lt hsecond]
  simp only [List.not_lt_nil, and_false, or_false]
  unfold DateTime.secondOfDay
  omega

theorem strftimeText_lt_cutoffText (hupper : n < 253402300800) :
    t.strftimeText < cutoffText n ↔ t.nanos / 86400000000000 < n / 86400 := by
  have hblank : ¬('T' < ' ') := by decide
  have ht := t.day_eq
  rw [DateTime.strftimeText, cutoffText, dateText_append_lt_iff t.year_lt (year_cutoff_lt hupper),
    List.cons_lt_cons_iff]
  simp only [hblank, Char.reduceEq, false_and, or_self, and_false, or_false]
  omega

/-! ### What the libraries write -/

section Formatted

variable [Libraries]

/-- The libraries write the time as they document it. -/
structure DateTime.Formatted (t : DateTime) : Prop where
  sqlTime : (Libraries.sqlTime t).toList = t.naiveText
  strftimeNow : (Libraries.strftimeNow t).toList = t.strftimeText

/-- The database writes a cutoff as it documents it: years before 0 have a sign, and there is no
text out of range. -/
def CutoffFormatted (n : ℤ) : Prop :=
  ∀ text, Libraries.unixEpoch n = some text →
    (-62167219200 ≤ n ∧ n < 253402300800 ∧ text.toList = cutoffText n) ∨
      (n < -62167219200 ∧ ∃ rest, text.toList = '-' :: rest)

namespace DateTime.Formatted

variable {u : DateTime}

theorem sqlTime_lt_sqlTime (ht : t.Formatted) (hu : u.Formatted) :
    Libraries.sqlTime t < Libraries.sqlTime u ↔ t.nanos < u.nanos := by
  rw [String.lt_iff_toList_lt, ht.sqlTime, hu.sqlTime, naiveText_lt_iff]

theorem strftimeNow_lt_strftimeNow (ht : t.Formatted) (hu : u.Formatted) :
    Libraries.strftimeNow t < Libraries.strftimeNow u ↔ t.millis < u.millis := by
  rw [String.lt_iff_toList_lt, ht.strftimeNow, hu.strftimeNow, strftimeText_lt_iff]

theorem sqlTime_lt_strftimeNow (ht : t.Formatted) (hu : u.Formatted) :
    Libraries.sqlTime t < Libraries.strftimeNow u ↔ t.day ≤ u.day := by
  rw [String.lt_iff_toList_lt, ht.sqlTime, hu.strftimeNow, naiveText_lt_strftimeText]

theorem strftimeNow_lt_sqlTime (ht : t.Formatted) (hu : u.Formatted) :
    Libraries.strftimeNow t < Libraries.sqlTime u ↔ t.day < u.day := by
  rw [String.lt_iff_toList_lt, ht.strftimeNow, hu.sqlTime, strftimeText_lt_naiveText]

/-- In neither format is a time written before a cutoff that it is not before. -/
theorem not_lt_cutoff {text : String} (ht : t.Formatted) (hn : CutoffFormatted n)
    (htext : Libraries.unixEpoch n = some text) (hafter : n * 1000000000 ≤ t.nanos) :
    ¬Libraries.sqlTime t < text ∧ ¬Libraries.strftimeNow t < text := by
  rw [String.lt_iff_toList_lt, String.lt_iff_toList_lt, ht.sqlTime, ht.strftimeNow]
  rcases hn text htext with ⟨hlower, hupper, hcutoff⟩ | ⟨-, rest, hsign⟩
  · rw [hcutoff, naiveText_lt_cutoffText hlower hupper, strftimeText_lt_cutoffText hupper]
    omega
  · rw [hsign]
    exact ⟨not_dateText_lt_sign t.year_lt, not_dateText_lt_sign t.year_lt⟩

end DateTime.Formatted

end Formatted

end HeliosLite
