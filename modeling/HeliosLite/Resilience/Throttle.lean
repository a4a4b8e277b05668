import HeliosLite.Theory.Run
import Mathlib.Algebra.Order.Ring.Int
import Mathlib.Tactic.Linarith
import Mathlib.Tactic.Positivity
import Mathlib.Tactic.Ring

/-!
# The adaptive throttle

A token bucket in thousandths of a token. A check takes the time that has passed into
account, takes a token off, and says how long to wait if there was no whole token.

The token is also taken off when the check is denied. The wait that is promised makes up for
the missing part of one token only, so the caller comes back too early unless the rounding to
whole milliseconds is worth another token.

## Main definitions

* `AdaptiveThrottle` — the bucket
* `tryAcquire` — a check at a time
* `KeepsPromise` — what a caller that is denied can rely on
* `Spared` — a check that is not denied, or whose wait is rounded up by a whole token

## Main results

* `keepsPromise_iff_spared` — one check
* `promises_kept_iff` — every check of a run
-/

namespace HeliosLite

open Theory

namespace Resilience

/-- The limits of an `i64`. -/
def i64Max : ℤ := 2 ^ 63 - 1

def i64Min : ℤ := -2 ^ 63

/-- Saturating arithmetic on `i64`. -/
def saturate (x : ℤ) : ℤ := max i64Min (min i64Max x)

/-- Plain arithmetic on `i64`, which wraps. -/
def wrap (x : ℤ) : ℤ := x.bmod (2 ^ 64)

inductive ThrottleDecision where
  | allow
  | wait (ms : ℕ)
deriving DecidableEq

/-- A bucket whose tokens are an `i64` and at most the burst. -/
@[ext] structure AdaptiveThrottle where
  ratePerSec : ℕ
  burstMilli : ℤ
  lastRefillMs : ℕ
  tokensMilli : ℤ
  rate_pos : 0 < ratePerSec
  rate_lt : ratePerSec < 2 ^ 32
  burst_ge : 1000 ≤ burstMilli
  burst_lt : burstMilli < 2 ^ 42
  tokens_ge : i64Min ≤ tokensMilli
  tokens_le : tokensMilli ≤ burstMilli

namespace AdaptiveThrottle

/-- A bucket that starts full. -/
def withBurst (ratePerSec burst : UInt32) (startAt : ℕ) : AdaptiveThrottle where
  ratePerSec := max ratePerSec.toNat 1
  burstMilli := max burst.toNat 1 * 1000
  lastRefillMs := startAt
  tokensMilli := max burst.toNat 1 * 1000
  rate_pos := by omega
  rate_lt := by have := ratePerSec.toNat_lt; omega
  burst_ge := by omega
  burst_lt := by have := burst.toNat_lt; omega
  tokens_ge := by unfold i64Min; omega
  tokens_le := le_refl _

/-- The millitokens from now on, with the time that has passed. -/
def updated (self : AdaptiveThrottle) (nowMs : ℕ) : ℤ :=
  let elapsedMs := max (saturate (nowMs - self.lastRefillMs)) 0
  let earnedMilli := saturate (elapsedMs * self.ratePerSec)
  min (saturate (self.tokensMilli + earnedMilli)) self.burstMilli

/-- What a check leaves behind, also when it is denied. -/
def acquired (self : AdaptiveThrottle) (nowMs : ℕ) : AdaptiveThrottle :=
  { self with
    lastRefillMs := nowMs
    tokensMilli := saturate (self.updated nowMs - 1000)
    tokens_ge := le_max_left ..
    tokens_le := by
      have hburst := self.burst_ge
      have hupdated : self.updated nowMs ≤ self.burstMilli := min_le_right ..
      unfold saturate i64Min
      omega }

/-- The time to earn the millitokens that are missing, rounded up. -/
def waitMs (self : AdaptiveThrottle) (nowMs : ℕ) : ℕ :=
  let missingMilli := wrap (1000 - self.updated nowMs)
  (max ((wrap (wrap (missingMilli + self.ratePerSec) - 1)).tdiv self.ratePerSec) 0).toNat

/-- A check: one token, or a time to wait. -/
def tryAcquire (self : AdaptiveThrottle) (nowMs : ℕ) : ThrottleDecision × AdaptiveThrottle :=
  (if 1000 ≤ self.updated nowMs then .allow else .wait (self.waitMs nowMs), self.acquired nowMs)

/-! ### The tokens at a time -/

variable {self : AdaptiveThrottle} {nowMs t : ℕ}

/-- What is earned in some time. -/
def earned (self : AdaptiveThrottle) (elapsedMs : ℕ) : ℤ :=
  min i64Max (elapsedMs * self.ratePerSec)

/-- What is missing to a whole token, if it is positive. -/
def missing (self : AdaptiveThrottle) (nowMs : ℕ) : ℤ :=
  1000 - (self.tokensMilli + self.earned (nowMs - self.lastRefillMs))

theorem earned_nonneg (self : AdaptiveThrottle) (elapsedMs : ℕ) : 0 ≤ self.earned elapsedMs := by
  have hproduct : (0 : ℤ) ≤ elapsedMs * self.ratePerSec := by positivity
  unfold earned i64Max
  omega

theorem updated_eq (self : AdaptiveThrottle) (nowMs : ℕ) :
    self.updated nowMs =
      min (saturate (self.tokensMilli + self.earned (nowMs - self.lastRefillMs)))
        self.burstMilli := by
  have hrate : (1 : ℤ) ≤ self.ratePerSec := by exact_mod_cast self.rate_pos
  have hearned : saturate (max (saturate ((nowMs : ℤ) - self.lastRefillMs)) 0 * self.ratePerSec) =
      self.earned (nowMs - self.lastRefillMs) := by
    unfold earned
    generalize helapsed : nowMs - self.lastRefillMs = elapsedMs
    rcases le_or_gt (elapsedMs : ℤ) i64Max with hle | hgt
    · have hmax : max (saturate ((nowMs : ℤ) - self.lastRefillMs)) 0 = elapsedMs := by
        unfold saturate i64Min
        unfold i64Max at hle ⊢
        omega
      have hproduct : (0 : ℤ) ≤ elapsedMs * self.ratePerSec := by positivity
      rw [hmax]
      unfold saturate i64Min
      omega
    · have hmax : max (saturate ((nowMs : ℤ) - self.lastRefillMs)) 0 = i64Max := by
        unfold saturate i64Min
        unfold i64Max at hgt ⊢
        omega
      have hlong : i64Max ≤ elapsedMs * self.ratePerSec :=
        hgt.le.trans (le_mul_of_one_le_right (by positivity) hrate)
      have hfull : i64Max ≤ i64Max * self.ratePerSec :=
        le_mul_of_one_le_right (by decide) hrate
      rw [hmax, min_eq_left hlong]
      unfold saturate
      rw [min_eq_left hfull]
      decide
  simp only [updated, hearned]

theorem updated_of_missing (h : 0 < self.missing nowMs) :
    self.updated nowMs = 1000 - self.missing nowMs := by
  have hearned := self.earned_nonneg (nowMs - self.lastRefillMs)
  have htokens := self.tokens_ge
  have hburst := self.burst_ge
  rw [updated_eq]
  unfold missing at h ⊢
  unfold saturate i64Max
  unfold i64Min at htokens ⊢
  omega

theorem le_updated_iff : 1000 ≤ self.updated nowMs ↔ self.missing nowMs ≤ 0 := by
  have hearned := self.earned_nonneg (nowMs - self.lastRefillMs)
  have htokens := self.tokens_ge
  have hburst := self.burst_ge
  rw [updated_eq]
  unfold missing saturate i64Max
  unfold i64Min at htokens ⊢
  omega

/-- A check is allowed if no token is missing. -/
theorem tryAcquire_allow_iff : (self.tryAcquire nowMs).1 = .allow ↔ self.missing nowMs ≤ 0 := by
  rw [← le_updated_iff]
  unfold tryAcquire
  split <;> simp_all

theorem tryAcquire_wait_iff {ms : ℕ} :
    (self.tryAcquire nowMs).1 = .wait ms ↔ 0 < self.missing nowMs ∧ self.waitMs nowMs = ms := by
  rw [← not_le, ← le_updated_iff]
  unfold tryAcquire
  split <;> simp_all

/-! ### The promised time -/

/-- Rounding a time up earns what is missing to the next whole multiple. -/
theorem mul_ceil (missing : ℤ) {rate : ℤ} (h : 0 < rate) :
    rate * ((missing + rate - 1) / rate) = missing + -missing % rate := by
  have hquotient : (missing + rate - 1) / rate = -(-missing / rate) := by
    have hdivision := Int.mul_ediv_add_emod (-missing) rate
    have hnonneg := Int.emod_nonneg (-missing) h.ne'
    have hlt := Int.emod_lt_of_pos (-missing) h
    refine Int.ediv_eq_iff_of_pos h |>.mpr ⟨?_, ?_⟩
    · linarith
    · linarith
  rw [hquotient]
  linarith [Int.mul_ediv_add_emod (-missing) rate]

theorem waitMs_eq (h : 0 < self.missing nowMs) :
    self.waitMs nowMs =
      (max (((self.missing nowMs + self.ratePerSec - 1).bmod (2 ^ 64)).tdiv self.ratePerSec)
        0).toNat := by
  unfold waitMs wrap
  rw [updated_of_missing h]
  simp

/-- The time is that of what is missing, unless the rounding leaves the range of `i64`. -/
theorem waitMs_of_le (h : 0 < self.missing nowMs)
    (hrange : self.missing nowMs + self.ratePerSec ≤ 2 ^ 63) :
    (self.waitMs nowMs : ℤ) = (self.missing nowMs + self.ratePerSec - 1) / self.ratePerSec := by
  have hrate : (1 : ℤ) ≤ self.ratePerSec := by exact_mod_cast self.rate_pos
  have hsum : (0 : ℤ) ≤ self.missing nowMs + self.ratePerSec - 1 := by omega
  rw [waitMs_eq h, Int.bmod_eq_of_le (by omega) (by omega), Int.tdiv_eq_ediv_of_nonneg hsum,
    max_eq_left (Int.ediv_nonneg hsum (by omega)),
    Int.toNat_of_nonneg (Int.ediv_nonneg hsum (by omega))]

theorem waitMs_of_lt (h : 0 < self.missing nowMs)
    (hrange : 2 ^ 63 < self.missing nowMs + self.ratePerSec) : self.waitMs nowMs = 0 := by
  have hmissing : self.missing nowMs ≤ 1000 + 2 ^ 63 := by
    have hearned := self.earned_nonneg (nowMs - self.lastRefillMs)
    have htokens := self.tokens_ge
    unfold missing
    unfold i64Min at htokens
    omega
  have hrate : (self.ratePerSec : ℤ) < 2 ^ 32 := by exact_mod_cast self.rate_lt
  have hwrap : (self.missing nowMs + self.ratePerSec - 1).bmod (2 ^ 64) =
      -(2 ^ 64 - (self.missing nowMs + self.ratePerSec - 1)) := by
    rw [Int.bmod_eq_iff (by decide)]
    refine ⟨by omega, by omega, ⟨-1, ?_⟩⟩
    push_cast
    ring
  have hnonneg : 0 ≤ (2 ^ 64 - (self.missing nowMs + self.ratePerSec - 1)).tdiv self.ratePerSec :=
    Int.tdiv_nonneg (by omega) (by omega)
  rw [waitMs_eq h, hwrap, Int.neg_tdiv, max_eq_right (by omega)]
  rfl

/-- What is missing after a check that was denied. -/
theorem missing_acquired (h : 0 < self.missing nowMs) (t : ℕ) :
    (self.acquired nowMs).missing t =
      1000 - (saturate (-self.missing nowMs) + self.earned (t - nowMs)) := by
  have hpost : self.updated nowMs - 1000 = -self.missing nowMs := by
    rw [updated_of_missing h]
    ring
  change 1000 - (saturate (self.updated nowMs - 1000) + self.earned (t - nowMs)) = _
  rw [hpost]

/-! ### Promises -/

/-- What a caller that is denied relies on: it is allowed when it comes back after the time it
was told, and whenever it would have been allowed had it not asked. -/
def KeepsPromise (self : AdaptiveThrottle) (nowMs : ℕ) : Prop :=
  ∀ ms, (self.tryAcquire nowMs).1 = .wait ms →
    (∀ t, nowMs + ms ≤ t → ((self.tryAcquire nowMs).2.tryAcquire t).1 = .allow) ∧
      ∀ t, nowMs ≤ t → (self.tryAcquire t).1 = .allow →
        ((self.tryAcquire nowMs).2.tryAcquire t).1 = .allow

/-- No token is missing, or the rounding of the time earns a second one. -/
def Spared (self : AdaptiveThrottle) (nowMs : ℕ) : Prop :=
  self.missing nowMs ≤ 0 ∨
    self.missing nowMs + self.ratePerSec ≤ 2 ^ 63 ∧ 1000 ≤ -self.missing nowMs % self.ratePerSec

/-- What is earned is at most the rate times the time. -/
theorem earned_add_le (self : AdaptiveThrottle) (a b : ℕ) :
    self.earned (a + b) ≤ self.earned a + b * self.ratePerSec := by
  have hproduct : (0 : ℤ) ≤ b * self.ratePerSec := by positivity
  unfold earned
  push_cast
  rw [add_mul]
  omega

/-- Who would be allowed without having asked comes no earlier than it was told. -/
theorem waitMs_le_of_allowed (h : 0 < self.missing nowMs)
    (hrange : self.missing nowMs + self.ratePerSec ≤ 2 ^ 63) (hlast : self.lastRefillMs ≤ nowMs)
    (ht : nowMs ≤ t) (hallowed : self.missing t ≤ 0) : nowMs + self.waitMs nowMs ≤ t := by
  have hrate : (0 : ℤ) < self.ratePerSec := by exact_mod_cast self.rate_pos
  have hearned : self.missing nowMs ≤ (t - nowMs : ℕ) * (self.ratePerSec : ℤ) := by
    have hsplit : t - self.lastRefillMs = nowMs - self.lastRefillMs + (t - nowMs) := by omega
    have hadd := self.earned_add_le (nowMs - self.lastRefillMs) (t - nowMs)
    rw [← hsplit] at hadd
    unfold missing at hallowed ⊢
    linarith
  have hwait : (self.missing nowMs + self.ratePerSec - 1) / self.ratePerSec <
      ((t - nowMs : ℕ) : ℤ) + 1 := by
    refine Int.ediv_lt_of_lt_mul hrate ?_
    rw [add_mul]
    linarith
  rw [← waitMs_of_le h hrange] at hwait
  omega

/-- A caller that comes back once two tokens are earned is allowed. -/
theorem missing_acquired_nonpos (h : 0 < self.missing nowMs)
    (hrange : self.missing nowMs + self.ratePerSec ≤ 2 ^ 63)
    (hrounded : 1000 ≤ -self.missing nowMs % self.ratePerSec)
    (ht : nowMs + self.waitMs nowMs ≤ t) : (self.acquired nowMs).missing t ≤ 0 := by
  have hrate : (0 : ℤ) < self.ratePerSec := by exact_mod_cast self.rate_pos
  have hbelow := Int.emod_lt_of_pos (-self.missing nowMs) hrate
  have hearned : self.missing nowMs + 1000 ≤ (t - nowMs : ℕ) * (self.ratePerSec : ℤ) := by
    have hceil := mul_ceil (self.missing nowMs) hrate
    rw [← waitMs_of_le h hrange] at hceil
    have hlonger : (self.waitMs nowMs : ℤ) ≤ (t - nowMs : ℕ) := by omega
    have hproduct := mul_le_mul_of_nonneg_right hlonger hrate.le
    linarith
  rw [missing_acquired h]
  unfold earned saturate i64Min i64Max
  omega

/-- A caller that asked and was denied is let in when it comes back, and no later for having
asked, exactly if it is spared. -/
theorem keepsPromise_iff_spared
    (hlast : self.lastRefillMs ≤ nowMs ∨ self.tokensMilli = self.burstMilli) :
    self.KeepsPromise nowMs ↔ self.Spared nowMs := by
  have hrate : (0 : ℤ) < self.ratePerSec := by exact_mod_cast self.rate_pos
  rcases le_or_gt (self.missing nowMs) 0 with hnone | hmissing
  · refine iff_of_true (fun ms hwait => ?_) (Or.inl hnone)
    exact absurd hnone (not_le.mpr (tryAcquire_wait_iff.mp hwait).1)
  constructor
  · intro h
    obtain ⟨hback, -⟩ := h _ (tryAcquire_wait_iff.mpr ⟨hmissing, rfl⟩)
    have hallowed := tryAcquire_allow_iff.mp (hback _ le_rfl)
    have hleft : ((self.acquired nowMs).missing (nowMs + self.waitMs nowMs)) ≤ 0 := hallowed
    rw [missing_acquired hmissing, Nat.add_sub_cancel_left] at hleft
    right
    rcases le_or_gt (self.missing nowMs + self.ratePerSec) (2 ^ 63) with hrange | hrange
    · refine ⟨hrange, ?_⟩
      have hceil := mul_ceil (self.missing nowMs) hrate
      rw [← waitMs_of_le hmissing hrange] at hceil
      unfold earned saturate i64Min i64Max at hleft
      rw [mul_comm (self.waitMs nowMs : ℤ), hceil] at hleft
      omega
    · -- The time was wrapped round, so the caller may come back at once.
      rw [waitMs_of_lt hmissing hrange] at hleft
      unfold earned saturate i64Min i64Max at hleft
      omega
  · rintro (hnone | ⟨hrange, hrounded⟩)
    · exact absurd hnone (not_le.mpr hmissing)
    intro ms hwait
    obtain ⟨-, rfl⟩ := tryAcquire_wait_iff.mp hwait
    refine ⟨fun t ht => tryAcquire_allow_iff.mpr ?_, fun t ht hallow => tryAcquire_allow_iff.mpr ?_⟩
    · exact missing_acquired_nonpos hmissing hrange hrounded ht
    · have hbefore : self.lastRefillMs ≤ nowMs := by
        refine hlast.resolve_right fun hfull => ?_
        have hearned := self.earned_nonneg (nowMs - self.lastRefillMs)
        have hburst := self.burst_ge
        unfold missing at hmissing
        omega
      have hallowed := tryAcquire_allow_iff.mp hallow
      exact missing_acquired_nonpos hmissing hrange hrounded
        (waitMs_le_of_allowed hmissing hrange hbefore ht hallowed)

/-! ### Runs -/

/-- The bucket after a check. -/
def check (self : AdaptiveThrottle) (nowMs : ℕ) : AdaptiveThrottle := (self.tryAcquire nowMs).2

/-- Checks at times that do not decrease never see the bucket refilled later. -/
theorem meets_refilled {times : List ℕ} (h : times.Pairwise (· ≤ ·))
    (hlast : ∀ nowMs ∈ times, self.lastRefillMs ≤ nowMs ∨ self.tokensMilli = self.burstMilli) :
    Meets check
      (fun self nowMs => self.lastRefillMs ≤ nowMs ∨ self.tokensMilli = self.burstMilli)
      self times := by
  induction times generalizing self with
  | nil => trivial
  | cons nowMs times ih =>
    obtain ⟨hle, hrest⟩ := List.pairwise_cons.mp h
    refine ⟨hlast nowMs List.mem_cons_self, ih hrest fun later hlater => Or.inl ?_⟩
    exact hle later hlater

/-- All promises of a run are kept exactly if all its checks are spared. -/
theorem promises_kept_iff (ratePerSec burst : UInt32) (startAt : ℕ) {times : List ℕ}
    (h : times.Pairwise (· ≤ ·)) :
    Meets check KeepsPromise (withBurst ratePerSec burst startAt) times ↔
      Meets check Spared (withBurst ratePerSec burst startAt) times := by
  have hrefilled : Meets check
      (fun self nowMs => self.lastRefillMs ≤ nowMs ∨ self.tokensMilli = self.burstMilli)
      (withBurst ratePerSec burst startAt) times := meets_refilled h fun _ _ => Or.inr rfl
  exact meets_congr (fun _ _ hlast => keepsPromise_iff_spared hlast) hrefilled

/-- Two checks at once, of which the second is denied. -/
theorem promises_kept_iff_two :
    Meets check KeepsPromise (withBurst 2000 1 0) [0, 0] ↔
      Meets check Spared (withBurst 2000 1 0) [0, 0] :=
  promises_kept_iff 2000 1 0 (List.pairwise_pair.mpr le_rfl)

/-- One token per second: who is denied and told to wait for a second is denied again. -/
theorem promise_broken : ¬ Meets check KeepsPromise (withBurst 1 1 0) [0, 0] := by
  intro h
  have hwait : ((check (withBurst 1 1 0) 0).tryAcquire 0).1 = .wait 1000 := by decide
  have hback := (h.2.1 1000 hwait).1 1000 le_rfl
  exact absurd hback (by decide)

end AdaptiveThrottle

end Resilience

end HeliosLite
