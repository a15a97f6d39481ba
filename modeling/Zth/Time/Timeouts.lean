import Mathlib.Algebra.Divisibility.Basic
import Mathlib.Data.Int.GCD
import Zth.Time.Convert

/-!
# Timeouts in fractions of a second

The guards of state machines and the poller make an interval of a number of milli- or
microseconds. The nanoseconds are the remainder of a product, which is taken in `uint64_t`
and converted to `long` by the guards, and taken in `long` by the poller. So they are
right as long as the product is not changed before the remainder is taken.
-/

namespace Zth

/-- The type `uint64_t`. -/
def uint64 : IntType := IntArg.ulongLong.type

/-- The type `int`. -/
def int32 : IntType := IntArg.int.type

namespace Platform

/-- A `time_t` of 64 bits and a `long` of 32. -/
def ilp32 : Platform := ⟨64, 32, lp64.le_timeBits, le_refl _⟩

end Platform

open TimeInterval

/-- The interval of a guard for `n` units, of which `perSecond` are a second. -/
def fractionGuard (perSecond scale : ℤ) (p : Platform) (n : ℤ) : TimeInterval :=
  ⟨p.time.wrap (n / perSecond), (p.long.wrap (uint64.wrap (n * scale))).tmod 1000000000, false⟩

/-- The interval of the guard `timeout_ms`, before the time that has passed is subtracted. -/
def timeoutGuardMs (p : Platform) (ms : ℤ) : TimeInterval := fractionGuard 1000 1000000 p ms

/-- The interval of the guard `timeout_us`, before the time that has passed is subtracted. -/
def timeoutGuardUs (p : Platform) (us : ℤ) : TimeInterval := fractionGuard 1000000 1000 p us

/-- The interval for which `PollerClient::poll` waits. -/
def pollTimeout (p : Platform) (timeout_ms : ℤ) : Option TimeInterval := do
  let sec ← p.long.arith (timeout_ms.tdiv 1000)
  let product ← p.long.arith (timeout_ms * 1000000)
  return ⟨p.time.wrap sec, product.tmod 1000000000, false⟩

/-- The interval is normal and has the given number of nanoseconds. -/
def Means (t : TimeInterval) (ns : ℤ) : Prop := t.isNormal = true ∧ t.value = ns

/-- A remainder of another number is the right one. -/
theorem tmod_eq_emod_iff {X w B : ℤ} (hB : 0 < B) :
    w.tmod B = X % B ↔ B ∣ X - w ∧ (0 ≤ w ∨ B ∣ w) := by
  have hX := Int.emod_nonneg X (show B ≠ 0 by omega)
  by_cases hw : 0 ≤ w
  · rw [Int.tmod_eq_emod_of_nonneg hw, eq_comm, Int.emod_eq_emod_iff_emod_sub_eq_zero,
      ← Int.dvd_iff_emod_eq_zero]
    exact ⟨fun h => ⟨h, Or.inl hw⟩, fun h => h.1⟩
  · have hle : w.tmod B ≤ 0 := by
      have := Int.tmod_nonneg B (show 0 ≤ -w by omega)
      rw [Int.neg_tmod] at this
      omega
    constructor
    · intro h
      have hdw : B ∣ w := Int.dvd_of_tmod_eq_zero (by omega)
      have hdX : B ∣ X := Int.dvd_of_emod_eq_zero (by omega)
      exact ⟨Int.dvd_sub hdX hdw, Or.inr hdw⟩
    · rintro ⟨hd, hdw⟩
      have hdw := hdw.resolve_left hw
      have hdX : B ∣ X := by
        have hsum : X = X - w + w := by omega
        rw [hsum]
        exact Int.dvd_add hd hdw
      rw [Int.tmod_eq_zero_of_dvd hdw, Int.emod_eq_zero_of_dvd hdX]

variable {p : Platform} {n perSecond scale : ℤ}

/-- A guard is right when its remainder is. -/
theorem means_fractionGuard_iff (htime : p.timeBits = 64) (hps : 2 ≤ perSecond)
    (hscale : 0 < scale) (hB : perSecond * scale = 1000000000) (hn : uint64.Fits n) :
    Means (fractionGuard perSecond scale p n) (n * scale) ↔
      (p.long.wrap (uint64.wrap (n * scale))).tmod 1000000000 = n * scale % 1000000000 := by
  obtain ⟨hlo, hhi⟩ := hn
  change 0 ≤ n at hlo
  change n ≤ 18446744073709551615 at hhi
  have hsec0 : 0 ≤ n / perSecond := Int.ediv_nonneg hlo (by omega)
  have hsec1 : n / perSecond < 9223372036854775808 := Int.ediv_lt_of_lt_mul (by omega) (by omega)
  have hmax : p.timeMax = 9223372036854775807 := by
    simp only [Platform.timeMax, IntType.max, Platform.time, if_true, htime]
    rfl
  have hwrap : p.time.wrap (n / perSecond) = n / perSecond :=
    IntType.wrap_of_fits (p.time_fits (by omega) (by omega))
  have hdiv : n * scale / 1000000000 = n / perSecond := by
    rw [← hB, Int.mul_ediv_mul_of_pos_left _ _ hscale]
  have hsplit : n / perSecond * 1000000000 + n * scale % 1000000000 = n * scale := by
    rw [← hdiv, Int.ediv_mul_add_emod]
  have hmod0 := Int.emod_nonneg (n * scale) (show (1000000000 : ℤ) ≠ 0 by decide)
  have hmod1 := Int.emod_lt_of_pos (n * scale) (show (0 : ℤ) < 1000000000 by decide)
  simp only [Means, fractionGuard, isNormal_iff, value, magnitude, BILLION, hwrap,
    Bool.false_eq_true, if_false]
  omega

/-- Two conversions keep the residue for the smaller type. -/
theorem dvd_sub_wrap_wrap (p : Platform) (h : p.longBits ≤ 64) (x : ℤ) :
    2 ^ p.longBits ∣ x - p.long.wrap (uint64.wrap x) := by
  have h1 : (2 : ℤ) ^ 64 ∣ x - uint64.wrap x := uint64.dvd_sub_wrap x
  have h2 : (2 : ℤ) ^ p.longBits ∣ uint64.wrap x - p.long.wrap (uint64.wrap x) :=
    p.long.dvd_sub_wrap _
  have hpow : (2 : ℤ) ^ p.longBits ∣ 2 ^ 64 := pow_dvd_pow 2 h
  have hsum : x - p.long.wrap (uint64.wrap x) =
      x - uint64.wrap x + (uint64.wrap x - p.long.wrap (uint64.wrap x)) := by omega
  rw [hsum]
  exact Int.dvd_add (Int.dvd_trans hpow h1) h2

theorem wrap_wrap_eq (h : p.longBits ≤ 64) {x y : ℤ} (hy : p.long.Fits y)
    (hd : 2 ^ p.longBits ∣ x - y) : p.long.wrap (uint64.wrap x) = y := by
  apply IntType.wrap_eq_of_dvd_sub hy
  have h1 : (2 : ℤ) ^ 64 ∣ x - uint64.wrap x := uint64.dvd_sub_wrap x
  have hpow : (2 : ℤ) ^ p.longBits ∣ 2 ^ 64 := pow_dvd_pow 2 h
  have hsum : uint64.wrap x - y = x - y - (x - uint64.wrap x) := by omega
  rw [hsum]
  exact Int.dvd_sub hd (Int.dvd_trans hpow h1)

/-- A multiple of a power of two is one of a billion when its other factor has the fives. -/
theorem dvd_of_billion_dvd_mul {M k : ℤ} (hM : Int.gcd 1953125 M = 1) (h : 1000000000 ∣ M * k) :
    1953125 ∣ k :=
  Int.dvd_of_dvd_mul_right_of_gcd_one (Int.dvd_trans ⟨512, rfl⟩ h) hM

/-- With 64 bits, the remainder is right when the product fits. -/
theorem remainder_lp64_iff {X : ℤ} (h0 : 0 ≤ X) (h : X < 18446744073709551616 * 1000000) :
    (Platform.lp64.long.wrap (uint64.wrap X)).tmod 1000000000 = X % 1000000000 ↔
      X ≤ 9223372036854775807 := by
  rw [tmod_eq_emod_iff (by decide)]
  constructor
  · rintro ⟨hd, -⟩
    obtain ⟨hlo, hhi⟩ := Platform.lp64.long.fits_wrap (uint64.wrap X)
    obtain ⟨k, hk⟩ := dvd_sub_wrap_wrap Platform.lp64 le_rfl X
    change -9223372036854775808 ≤ _ at hlo
    change _ ≤ 9223372036854775807 at hhi
    change _ = 18446744073709551616 * k at hk
    generalize Platform.lp64.long.wrap (uint64.wrap X) = w at *
    rw [hk] at hd
    obtain ⟨j, rfl⟩ := dvd_of_billion_dvd_mul (by decide) hd
    have hj : j = 0 := by omega
    omega
  · intro hle
    have hw : Platform.lp64.long.wrap (uint64.wrap X) = X := by
      apply wrap_wrap_eq le_rfl ⟨?_, hle⟩
      · rw [Int.sub_self]
        exact Int.dvd_zero _
      · change -9223372036854775808 ≤ X
        omega
    rw [hw, Int.sub_self]
    exact ⟨Int.dvd_zero _, Or.inl h0⟩

/-- With 32 bits, the remainder is also right when the product is off by a multiple of both
a billion and the span of `long`. -/
theorem remainder_ilp32_iff (X : ℤ) :
    (Platform.ilp32.long.wrap (uint64.wrap X)).tmod 1000000000 = X % 1000000000 ↔
      X % 8388608000000000 < 2147483648 ∨ X % 8388608000000000 = 8388606000000000 ∨
        X % 8388608000000000 = 8388607000000000 := by
  rw [tmod_eq_emod_iff (by decide)]
  constructor
  · rintro ⟨hd, hor⟩
    obtain ⟨hlo, hhi⟩ := Platform.ilp32.long.fits_wrap (uint64.wrap X)
    obtain ⟨k, hk⟩ := dvd_sub_wrap_wrap Platform.ilp32 (by decide) X
    change -2147483648 ≤ _ at hlo
    change _ ≤ 2147483647 at hhi
    change _ = 4294967296 * k at hk
    generalize Platform.ilp32.long.wrap (uint64.wrap X) = w at *
    rw [hk] at hd
    obtain ⟨j, rfl⟩ := dvd_of_billion_dvd_mul (by decide) hd
    have hX : X = w + 8388608000000000 * j := by omega
    rw [hX, Int.add_mul_emod_self_left]
    rcases hor with hw | ⟨c, rfl⟩
    · rw [Int.emod_eq_of_lt hw (by omega)]
      omega
    · omega
  · intro h
    -- The number that fits is the remainder itself, or the one below zero next to it.
    obtain ⟨w, j, hX, hlo, hhi, hor⟩ : ∃ w j, X - w = 8388608000000000 * j ∧
        -2147483648 ≤ w ∧ w ≤ 2147483647 ∧ (0 ≤ w ∨ 1000000000 ∣ w) := by
      have hsplit := Int.emod_add_mul_ediv X 8388608000000000
      have h0 := Int.emod_nonneg X (show (8388608000000000 : ℤ) ≠ 0 by decide)
      rcases h with h | h | h
      · exact ⟨X % 8388608000000000, X / 8388608000000000, by omega, by omega, by omega,
          Or.inl h0⟩
      · exact ⟨-2000000000, X / 8388608000000000 + 1, by omega, by omega, by omega,
          Or.inr ⟨-2, rfl⟩⟩
      · exact ⟨-1000000000, X / 8388608000000000 + 1, by omega, by omega, by omega,
          Or.inr ⟨-1, rfl⟩⟩
    have hw : Platform.ilp32.long.wrap (uint64.wrap X) = w := by
      apply wrap_wrap_eq (by decide) ⟨hlo, hhi⟩
      rw [hX]
      exact Int.dvd_mul_of_dvd_left ⟨1953125, rfl⟩
    rw [hw, hX]
    exact ⟨Int.dvd_mul_of_dvd_left ⟨8388608, rfl⟩, hor⟩

theorem uint64_bounds (hn : uint64.Fits n) : 0 ≤ n ∧ n ≤ 18446744073709551615 := hn

theorem means_timeoutGuardMs_lp64_iff (hn : uint64.Fits n) :
    Means (timeoutGuardMs Platform.lp64 n) (n * 1000000) ↔ n ≤ 9223372036854 := by
  obtain ⟨h0, h1⟩ := uint64_bounds hn
  rw [timeoutGuardMs, means_fractionGuard_iff rfl (by decide) (by decide) rfl hn,
    remainder_lp64_iff (by omega) (by omega)]
  omega

theorem means_timeoutGuardUs_lp64_iff (hn : uint64.Fits n) :
    Means (timeoutGuardUs Platform.lp64 n) (n * 1000) ↔ n ≤ 9223372036854775 := by
  obtain ⟨h0, h1⟩ := uint64_bounds hn
  rw [timeoutGuardUs, means_fractionGuard_iff rfl (by decide) (by decide) rfl hn,
    remainder_lp64_iff (by omega) (by omega)]
  omega

theorem means_timeoutGuardMs_ilp32_iff (hn : uint64.Fits n) :
    Means (timeoutGuardMs Platform.ilp32 n) (n * 1000000) ↔
      n % 8388608000 ≤ 2147 ∨ n % 8388608000 = 8388606000 ∨ n % 8388608000 = 8388607000 := by
  have hmod : n * 1000000 % 8388608000000000 = n % 8388608000 * 1000000 := by
      rw [Int.mul_comm, Int.mul_comm _ 1000000]
      exact Int.mul_emod_mul_of_pos n 8388608000 (by decide)
  rw [timeoutGuardMs, means_fractionGuard_iff rfl (by decide) (by decide) rfl hn,
    remainder_ilp32_iff, hmod]
  omega

theorem means_timeoutGuardUs_ilp32_iff (hn : uint64.Fits n) :
    Means (timeoutGuardUs Platform.ilp32 n) (n * 1000) ↔
      n % 8388608000000 ≤ 2147483 ∨ n % 8388608000000 = 8388606000000 ∨
        n % 8388608000000 = 8388607000000 := by
  have hmod : n * 1000 % 8388608000000000 = n % 8388608000000 * 1000 := by
      rw [Int.mul_comm, Int.mul_comm _ 1000]
      exact Int.mul_emod_mul_of_pos n 8388608000000 (by decide)
  rw [timeoutGuardUs, means_fractionGuard_iff rfl (by decide) (by decide) rfl hn,
    remainder_ilp32_iff, hmod]
  omega

/-- The timeout of the poller is right exactly if the product can be held. -/
theorem means_pollTimeout_iff (h0 : 0 < n) (hn : int32.Fits n) :
    (∃ t, pollTimeout p n = some t ∧ Means t (n * 1000000)) ↔ p.long.Fits (n * 1000000) := by
  have hmax : n ≤ 2147483647 := hn.2
  have htdiv : n.tdiv 1000 = n / 1000 := Int.tdiv_eq_ediv_of_nonneg (by omega)
  have hsec : p.long.arith (n / 1000) = some (n / 1000) :=
    IntType.arith_of_fits (p.long_fits (by omega) (by omega))
  constructor
  · rintro ⟨t, ht, -⟩
    by_contra hfits
    rw [pollTimeout, htdiv, hsec, IntType.arith_eq_none rfl hfits] at ht
    exact Option.some_ne_none t ht.symm
  · intro hfits
    have hwrap : p.time.wrap (n / 1000) = n / 1000 := by
      have := p.timeMax_spec
      exact IntType.wrap_of_fits (p.time_fits (by omega) (by omega))
    have htmod : (n * 1000000).tmod 1000000000 = n * 1000000 % 1000000000 :=
      Int.tmod_eq_emod_of_nonneg (by omega)
    refine ⟨⟨n / 1000, n * 1000000 % 1000000000, false⟩, ?_, ?_, ?_⟩
    · simp only [pollTimeout, htdiv, hsec, IntType.arith_of_fits hfits, hwrap, htmod,
        Option.bind_eq_bind, Option.bind_some]
      rfl
    · rw [isNormal_iff]
      simp only [BILLION]
      omega
    · simp only [value, magnitude, BILLION, Bool.false_eq_true, if_false]
      omega

/-- With 64 bits, the guards are right up to a bound and the poller always. With 32 bits,
all are right up to about two seconds, and the guards again now and then. -/
theorem timeouts_exact_iff (n : ℤ) :
    (uint64.Fits n →
      (Means (timeoutGuardMs Platform.lp64 n) (n * 1000000) ↔ n ≤ 9223372036854) ∧
      (Means (timeoutGuardUs Platform.lp64 n) (n * 1000) ↔ n ≤ 9223372036854775) ∧
      (Means (timeoutGuardMs Platform.ilp32 n) (n * 1000000) ↔
        n % 8388608000 ≤ 2147 ∨ n % 8388608000 = 8388606000 ∨ n % 8388608000 = 8388607000) ∧
      (Means (timeoutGuardUs Platform.ilp32 n) (n * 1000) ↔
        n % 8388608000000 ≤ 2147483 ∨ n % 8388608000000 = 8388606000000 ∨
          n % 8388608000000 = 8388607000000)) ∧
    (0 < n → int32.Fits n →
      (∃ t, pollTimeout Platform.lp64 n = some t ∧ Means t (n * 1000000)) ∧
      ((∃ t, pollTimeout Platform.ilp32 n = some t ∧ Means t (n * 1000000)) ↔ n ≤ 2147)) := by
  constructor
  · intro hn
    exact ⟨means_timeoutGuardMs_lp64_iff hn, means_timeoutGuardUs_lp64_iff hn,
      means_timeoutGuardMs_ilp32_iff hn, means_timeoutGuardUs_ilp32_iff hn⟩
  · intro h0 hn
    have hmax : n ≤ 2147483647 := hn.2
    constructor
    · apply (means_pollTimeout_iff h0 hn).2
      constructor
      · change -9223372036854775808 ≤ n * 1000000
        omega
      · change n * 1000000 ≤ 9223372036854775807
        omega
    · rw [means_pollTimeout_iff h0 hn]
      constructor
      · rintro ⟨-, h⟩
        change n * 1000000 ≤ 2147483647 at h
        omega
      · intro h
        exact Platform.ilp32.long_fits (by omega) (by omega)

theorem timeouts_exact_iff_minute :
    uint64.Fits 60000 ∧ Means (timeoutGuardMs Platform.lp64 60000) 60000000000 ∧
      ¬ Means (timeoutGuardMs Platform.ilp32 60000) 60000000000 := by
  have hfits : uint64.Fits 60000 := by decide
  obtain ⟨hms, -, hms32, -⟩ := (timeouts_exact_iff 60000).1 hfits
  exact ⟨hfits, hms.2 (by decide), fun h => absurd (hms32.1 h) (by decide)⟩

/-- A guard of three seconds has less than no nanoseconds with a `long` of 32 bits, a
guard of many years does so with 64 bits, and the timeout of the poller overflows. -/
theorem timeouts_not_exact :
    timeoutGuardMs Platform.ilp32 3000 = ⟨3, -294967296, false⟩ ∧
    timeoutGuardUs Platform.ilp32 3000000 = ⟨3, -294967296, false⟩ ∧
    timeoutGuardMs Platform.lp64 9223372036855 = ⟨9223372036, -854551616, false⟩ ∧
    pollTimeout Platform.ilp32 3000 = none :=
  ⟨by decide, by decide, by decide, by decide⟩

end Zth
