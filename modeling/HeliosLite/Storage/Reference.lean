import HeliosLite.Serde.Text
import HeliosLite.Storage.Libraries
import Mathlib.Tactic.IntervalCases

/-!
# Reference libraries

Libraries that meet the laws of `Libraries` and evaluate on concrete inputs. A time other
than the epoch is written by its ticks, a compressed blob holds its text as it is,
and a text is repaired when it is JSON.

## Main definitions

* `reference` — the libraries

## Main results

* `parseUuid_uuidText`, `parseTime_timeText` — ids and times are read back
-/

namespace HeliosLite.Reference

open Serde Serde.Reference

/-! ### UUIDs -/

/-- The `n` low hexadecimal digits of a number. -/
def hexDigits : ℕ → ℕ → List Char
  | 0, _ => []
  | n + 1, value => hexDigits n (value / 16) ++ [hexDigit (value % 16)]

def ofHexDigits (digits : List Char) : ℕ := digits.foldl (fun n c => 16 * n + hexValue c) 0

theorem ofHexDigits_hexDigits (n value : ℕ) :
    ofHexDigits (hexDigits n value) = value % 16 ^ n := by
  induction n generalizing value with
  | zero => simp [hexDigits, ofHexDigits, Nat.mod_one]
  | succ n ih =>
    have hdigit : hexValue (hexDigit (value % 16)) = value % 16 :=
      hexValue_hexDigit (Nat.mod_lt _ (by decide))
    have hstep : ofHexDigits (hexDigits (n + 1) value)
        = 16 * ofHexDigits (hexDigits n (value / 16)) + hexValue (hexDigit (value % 16)) := by
      simp [hexDigits, ofHexDigits, List.foldl_append]
    rw [hstep, ih, hdigit, Nat.pow_succ', Nat.mod_mul, Nat.add_comm]

theorem length_hexDigits (n value : ℕ) : (hexDigits n value).length = n := by
  induction n generalizing value with
  | zero => rfl
  | succ n ih => rw [hexDigits, List.length_append, ih]; rfl

/-- The digits in groups of 8, 4, 4, 4 and the rest. -/
def hyphenate (digits : List Char) : List Char :=
  digits.take 8 ++ '-' :: ((digits.drop 8).take 4 ++ '-' :: ((digits.drop 12).take 4
    ++ '-' :: ((digits.drop 16).take 4 ++ '-' :: digits.drop 20)))

def uuidText (u : BitVec 128) : String := String.ofList (hyphenate (hexDigits 32 u.toNat))

def parseUuid (s : String) : Option (BitVec 128) :=
  let digits := s.toList.filter (· != '-')
  if digits.length = 32 then some (BitVec.ofNat 128 (ofHexDigits digits)) else none

theorem hexDigit_ne_hyphen {n : ℕ} (h : n < 16) : hexDigit n ≠ '-' := by
  interval_cases n <;> decide

theorem ne_hyphen_of_mem_hexDigits {n value : ℕ} {c : Char} (h : c ∈ hexDigits n value) :
    c ≠ '-' := by
  induction n generalizing value with
  | zero => simp [hexDigits] at h
  | succ n ih =>
    rcases List.mem_append.mp h with h | h
    · exact ih h
    · rw [List.mem_singleton.mp h]
      exact hexDigit_ne_hyphen (Nat.mod_lt _ (by decide))

/-- Without its hyphens the text is the list of all digits. -/
theorem filter_hyphenate {digits : List Char} (h : ∀ c ∈ digits, c ≠ '-') :
    (hyphenate digits).filter (· != '-') = digits := by
  have hkeep : ∀ l : List Char, (∀ c ∈ l, c ∈ digits) → l.filter (· != '-') = l := by
    intro l hl
    apply List.filter_eq_self.mpr
    intro c hc
    simpa using h c (hl c hc)
  have hgroup : ∀ m, ((digits.drop m).take 4).filter (· != '-') = (digits.drop m).take 4 :=
    fun m => hkeep _ fun c hc => List.mem_of_mem_drop (List.mem_of_mem_take hc)
  have hsplit : ∀ m, (digits.drop m).take 4 ++ digits.drop (m + 4) = digits.drop m := by
    intro m
    rw [← List.drop_drop, List.take_append_drop]
  rw [hyphenate]
  simp only [List.filter_append, List.filter_cons, bne_self_eq_false, Bool.false_eq_true,
    if_false, hgroup]
  rw [hkeep _ fun c hc => List.mem_of_mem_take hc, hkeep _ fun c hc => List.mem_of_mem_drop hc,
    hsplit 16, hsplit 12, hsplit 8, List.take_append_drop]

theorem parseUuid_uuidText (u : BitVec 128) : parseUuid (uuidText u) = some u := by
  have hdigits : (uuidText u).toList.filter (· != '-') = hexDigits 32 u.toNat := by
    rw [uuidText, String.toList_ofList]
    exact filter_hyphenate fun c hc => ne_hyphen_of_mem_hexDigits hc
  have hlt : u.toNat < 16 ^ 32 := by have := u.isLt; omega
  rw [parseUuid, hdigits, if_pos (length_hexDigits _ _), ofHexDigits_hexDigits,
    Nat.mod_eq_of_lt hlt, BitVec.ofNat_toNat, BitVec.setWidth_eq]

/-! ### Times -/

/-- The nanoseconds since the year 0. -/
def ticks (t : DateTime) : ℕ := (t.nanos + 62167219200000000000).toNat

/-- The text of a time: that of the epoch as given, and the ticks of any other. -/
def timeText (epoch : String) (t : DateTime) : String :=
  if t = .epoch then epoch else String.ofList (Nat.toDigits 10 (ticks t))

def ofTicks (n : ℕ) : Option DateTime :=
  if h : n < 315569520000000000000 then
    some { nanos := n - 62167219200000000000, lower := by omega, upper := by omega }
  else none

def parseTime (epochs : List String) (s : String) : Option DateTime :=
  if s ∈ epochs then some .epoch
  else if s.toList.all Char.isDigit then ofTicks (Nat.ofDigitChars 10 s.toList 0)
  else none

theorem ofTicks_ticks (t : DateTime) : ofTicks (ticks t) = some t := by
  have hlower := t.lower
  have hupper := t.upper
  rw [ofTicks, dif_pos (by unfold ticks; omega)]
  congr 1
  obtain ⟨n, _, _⟩ := t
  simp only [DateTime.mk.injEq, ticks]
  omega

theorem parseTime_timeText {epochs : List String} {epoch : String} (h : epoch ∈ epochs)
    (hdigits : ∀ s ∈ epochs, s.toList.all Char.isDigit = false) (t : DateTime) :
    parseTime epochs (timeText epoch t) = some t := by
  rw [timeText]
  split_ifs with ht
  · rw [parseTime, if_pos h, ht]
  · have hall : (Nat.toDigits 10 (ticks t)).all Char.isDigit := by
      apply List.all_eq_true.mpr
      intro c hc
      exact Nat.isDigit_of_mem_toDigits (by decide) (by decide) hc
    -- the texts of the epoch have characters that are no digits
    have hnot : String.ofList (Nat.toDigits 10 (ticks t)) ∉ epochs := by
      intro hmem
      have hfalse := hdigits _ hmem
      rw [String.toList_ofList, hall] at hfalse
      cases hfalse
    rw [parseTime, if_neg hnot, String.toList_ofList, if_pos hall,
      Nat.ofDigitChars_toDigits (by decide) (by decide), ofTicks_ticks]

def epochTexts : List String :=
  ["1970-01-01 00:00:00", "1970-01-01T00:00:00Z", "1970-01-01T00:00:00.000Z"]

theorem jsonText_mem_epochTexts : "1970-01-01T00:00:00Z" ∈ epochTexts := by decide

theorem not_all_isDigit_epochTexts : ∀ s ∈ epochTexts, s.toList.all Char.isDigit = false := by
  decide

theorem parseTime_epochTexts {epoch : String} (h : epoch ∈ epochTexts) (t : DateTime) :
    parseTime epochTexts (timeText epoch t) = some t :=
  parseTime_timeText h not_all_isDigit_epochTexts t

/-! ### The libraries -/

theorem print_noMessages :
    "\x7b\"messages\":[]\x7d" = toText (.obj [("messages", .arr [])]) := by
  rw [Serde.Reference.toText, ← @String.ofList_toList "\x7b\"messages\":[]\x7d"]
  congr 1

theorem fromText_noMessages :
    fromText "\x7b\"messages\":[]\x7d" = some (.obj [("messages", .arr [])]) := by
  rw [print_noMessages, Serde.Reference.fromText_toText]
  rfl

theorem fromUTF8?_toUTF8 (s : String) : String.fromUTF8? s.toUTF8 = some s := by
  rw [String.fromUTF8?]
  split_ifs with h
  · rfl
  · exact absurd s.isValidUTF8 h

end HeliosLite.Reference

namespace HeliosLite

/-- The reference libraries. -/
abbrev reference : Libraries where
  toJsonText := Serde.reference
  uuidText := Reference.uuidText
  parseUuid := Reference.parseUuid
  jsonTime := Reference.timeText "1970-01-01T00:00:00Z"
  parseJsonTime := Reference.parseTime Reference.epochTexts
  sqlTime := Reference.timeText "1970-01-01 00:00:00"
  parseSqlTime := Reference.parseTime Reference.epochTexts
  strftimeNow t := Reference.timeText "1970-01-01T00:00:00.000Z" t.floorMillis
  unixEpoch n := some (if n = 0 then "1970-01-01 00:00:00" else toString n)
  rfc3339 := Reference.timeText "1970-01-01T00:00:00+00:00"
  parseFromStr text _ := Reference.parseTime Reference.epochTexts text
  compress s := some s.toUTF8
  decompress := String.fromUTF8?
  jsonRepair s := (Serde.Reference.fromText s).map Serde.Json.value
  parseUuid_uuidText := Reference.parseUuid_uuidText
  parseJsonTime_jsonTime := Reference.parseTime_epochTexts Reference.jsonText_mem_epochTexts
  parseSqlTime_sqlTime := Reference.parseTime_epochTexts (by decide)
  parseSqlTime_jsonTime := Reference.parseTime_epochTexts (by decide)
  parseSqlTime_strftimeNow _ := Reference.parseTime_epochTexts (by decide) _
  fromText_noMessages := Reference.fromText_noMessages
  decompress_compress s blob h := by
    rw [← Option.some.inj h, Reference.fromUTF8?_toUTF8]

end HeliosLite
