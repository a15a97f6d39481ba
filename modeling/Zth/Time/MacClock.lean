import Mathlib.Algebra.Order.Group.Nat
import Mathlib.Tactic.Common
import Mathlib.Tactic.Ring

/-!
# The clock of the Mac

The Mac counts ticks, and has a fraction that turns them into nanoseconds. The product of
64 bits of ticks and the numerator does not fit in 64 bits, so `clock_gettime` multiplies
and divides the high and the low half of the ticks on their own, and puts the quotients
together. Both divisions round down, and so does the one of the remainder of the high half.
-/

namespace Zth

namespace MacClock

/-- `mach_timebase_info_data_t` -/
structure ClockInfo where
  numer : BitVec 32
  denom : BitVec 32
deriving DecidableEq, Repr

/-- `CLOCK_MONOTONIC` -/
def clockMonotonic : ℤ := 1

/-- Why there is no time: there is no place for it, or another clock was asked for, which is an
assertion. -/
inductive Failure where
  | efault
  | assertion
deriving DecidableEq, Repr

variable (info : ClockInfo) (c : BitVec 64)

/-- `chigh`, before it is divided. -/
def chigh : BitVec 64 := (c >>> 32) * info.numer.setWidth 64

/-- `chighrem` -/
def chighrem : BitVec 64 :=
  ((chigh info c % info.denom.setWidth 64) <<< 32) / info.denom.setWidth 64

/-- `chigh`, after it was divided. -/
def chighQuotient : BitVec 64 := chigh info c / info.denom.setWidth 64

/-- The product of which `clow` is the quotient. -/
def clowProduct : BitVec 64 := (c &&& (((1 : BitVec 64) <<< 32) - 1)) * info.numer.setWidth 64

/-- `clow`, before the remainder of the high half is added. -/
def clow : BitVec 64 := clowProduct info c / info.denom.setWidth 64

/-- The nanoseconds of a number of ticks. -/
def nanoseconds : BitVec 64 :=
  if info.numer ≠ info.denom then
    (chighQuotient info c <<< 32) + (clow info c + chighrem info c)
  else c

/-- `TimeInterval::BILLION` -/
def billion : BitVec 64 := 1000000000

/-- `clock_gettime`, from the counter and its value at the start: `tv_sec` and `tv_nsec`. -/
def clockGettime (enableAssert : Bool) (clkId : ℤ) (res : Bool) (start now : BitVec 64) :
    Except Failure (BitVec 64 × BitVec 64) :=
  if !res then .error .efault
  else if enableAssert && decide (clkId ≠ clockMonotonic) then .error .assertion
  else
    let ns := nanoseconds info (now - start)
    .ok (ns / billion, ns % billion)

/-- The product, rounded down once. -/
def exactNs : ℕ := c.toNat * info.numer.toNat / info.denom.toNat

/-- Every intermediate is the exact one: neither a product, nor a shift or a sum loses bits. -/
structure NoOverflow : Prop where
  chigh : (chigh info c).toNat = c.toNat / 2 ^ 32 * info.numer.toNat
  chighrem : (MacClock.chigh info c % info.denom.setWidth 64).toNat * 2 ^ 32 < 2 ^ 64
  clowProduct : (clowProduct info c).toNat = c.toNat % 2 ^ 32 * info.numer.toNat
  clow : (clow info c).toNat + (MacClock.chighrem info c).toNat < 2 ^ 64
  shift : (chighQuotient info c).toNat * 2 ^ 32 < 2 ^ 64
  sum : (chighQuotient info c).toNat * 2 ^ 32 +
    ((MacClock.clow info c).toNat + (MacClock.chighrem info c).toNat) < 2 ^ 64

/-- What the split computes, of numbers of any size. -/
def split (n d x : ℕ) : ℕ :=
  x / 2 ^ 32 * n / d * 2 ^ 32 + (x % 2 ^ 32 * n / d + x / 2 ^ 32 * n % d * 2 ^ 32 / d)

section Split

variable {n d x y : ℕ}

/-- The quotient and the remainder of the high half are one quotient. -/
theorem split_eq (hd : 0 < d) (n x : ℕ) :
    split n d x = x / 2 ^ 32 * 2 ^ 32 * n / d + x % 2 ^ 32 * n / d := by
  have hhigh : x / 2 ^ 32 * 2 ^ 32 * n / d =
      x / 2 ^ 32 * n % d * 2 ^ 32 / d + x / 2 ^ 32 * n / d * 2 ^ 32 := by
    rw [← Nat.add_mul_div_left _ _ hd]
    congr 1
    calc
      x / 2 ^ 32 * 2 ^ 32 * n = x / 2 ^ 32 * n * 2 ^ 32 := by ring
      _ = (x / 2 ^ 32 * n % d + d * (x / 2 ^ 32 * n / d)) * 2 ^ 32 := by rw [Nat.mod_add_div]
      _ = _ := by ring
  rw [split, hhigh]
  omega

theorem split_le (hd : 0 < d) (n x : ℕ) : split n d x ≤ x * n / d := by
  rw [split_eq hd]
  calc
    _ ≤ (x / 2 ^ 32 * 2 ^ 32 * n + x % 2 ^ 32 * n) / d := Nat.div_add_div_le_add_div
    _ = x * n / d := by rw [← Nat.add_mul, Nat.div_add_mod']

/-- Only one unit is lost by rounding down twice. -/
theorem le_split (hd : 0 < d) (n x : ℕ) : x * n / d ≤ split n d x + 1 := by
  rw [split_eq hd]
  calc
    x * n / d = (x / 2 ^ 32 * 2 ^ 32 * n + x % 2 ^ 32 * n) / d := by
      rw [← Nat.add_mul, Nat.div_add_mod']
    _ ≤ _ := by
      rw [Nat.add_div hd]
      split <;> omega

/-- With the same high half, the quotients of the low halves decide; otherwise the exact one of
the greater high half is in between. -/
theorem split_mono (hd : 0 < d) (n : ℕ) (hxy : x ≤ y) : split n d x ≤ split n d y := by
  rcases Nat.eq_or_lt_of_le (Nat.div_le_div_right (c := 2 ^ 32) hxy) with heq | hlt
  · have hlow : x % 2 ^ 32 ≤ y % 2 ^ 32 := by omega
    rw [split_eq hd, split_eq hd, heq]
    exact Nat.add_le_add_left (Nat.div_le_div_right (Nat.mul_le_mul_right n hlow)) _
  · have hle : x ≤ y / 2 ^ 32 * 2 ^ 32 := by omega
    calc
      split n d x ≤ x * n / d := split_le hd n x
      _ ≤ y / 2 ^ 32 * 2 ^ 32 * n / d := Nat.div_le_div_right (Nat.mul_le_mul_right n hle)
      _ ≤ split n d y := by
        rw [split_eq hd]
        exact Nat.le_add_right _ _

end Split

variable {info c}

/-- A product of two halves fits. -/
theorem mul_lt_two_pow {a b : ℕ} (ha : a < 2 ^ 32) (hb : b < 2 ^ 32) : a * b < 2 ^ 64 :=
  calc
    a * b < 2 ^ 32 * 2 ^ 32 := Nat.mul_lt_mul'' ha hb
    _ = 2 ^ 64 := by norm_num

theorem toNat_setWidth (x : BitVec 32) : (x.setWidth 64).toNat = x.toNat := by
  have := x.isLt
  rw [BitVec.toNat_setWidth, Nat.mod_eq_of_lt (by omega)]

theorem toNat_chigh (info : ClockInfo) (c : BitVec 64) :
    (chigh info c).toNat = c.toNat / 2 ^ 32 * info.numer.toNat := by
  have hc := c.isLt
  have hlt := mul_lt_two_pow (a := c.toNat / 2 ^ 32) (by omega) info.numer.isLt
  rw [chigh, BitVec.toNat_mul, BitVec.toNat_ushiftRight, Nat.shiftRight_eq_div_pow, toNat_setWidth,
    Nat.mod_eq_of_lt hlt]

theorem toNat_clowProduct (info : ClockInfo) (c : BitVec 64) :
    (clowProduct info c).toNat = c.toNat % 2 ^ 32 * info.numer.toNat := by
  have hlow : (c &&& (((1 : BitVec 64) <<< 32) - 1)).toNat = c.toNat % 2 ^ 32 := by
    rw [BitVec.toNat_and, ← Nat.and_two_pow_sub_one_eq_mod]
    rfl
  have hlt := mul_lt_two_pow (Nat.mod_lt c.toNat (Nat.two_pow_pos 32)) info.numer.isLt
  rw [clowProduct, BitVec.toNat_mul, hlow, toNat_setWidth, Nat.mod_eq_of_lt hlt]

/-- The remainder of the high half is less than the denominator, so there is room to shift it. -/
theorem toNat_chighrem (hd : 0 < info.denom.toNat) (c : BitVec 64) :
    (chigh info c % info.denom.setWidth 64).toNat * 2 ^ 32 < 2 ^ 64 ∧
      (chighrem info c).toNat =
        c.toNat / 2 ^ 32 * info.numer.toNat % info.denom.toNat * 2 ^ 32 / info.denom.toNat := by
  have hrem : (chigh info c % info.denom.setWidth 64).toNat =
      c.toNat / 2 ^ 32 * info.numer.toNat % info.denom.toNat := by
    rw [BitVec.toNat_umod, toNat_chigh, toNat_setWidth]
  have hmod := Nat.mod_lt (c.toNat / 2 ^ 32 * info.numer.toNat) hd
  have hden := info.denom.isLt
  have hlt : (chigh info c % info.denom.setWidth 64).toNat * 2 ^ 32 < 2 ^ 64 := by
    rw [hrem]
    omega
  refine ⟨hlt, ?_⟩
  rw [chighrem, BitVec.toNat_udiv, BitVec.toNat_shiftLeft, Nat.shiftLeft_eq,
    Nat.mod_eq_of_lt hlt, hrem, toNat_setWidth]

theorem toNat_chighQuotient (info : ClockInfo) (c : BitVec 64) :
    (chighQuotient info c).toNat = c.toNat / 2 ^ 32 * info.numer.toNat / info.denom.toNat := by
  rw [chighQuotient, BitVec.toNat_udiv, toNat_chigh, toNat_setWidth]

theorem toNat_clow (info : ClockInfo) (c : BitVec 64) :
    (clow info c).toNat = c.toNat % 2 ^ 32 * info.numer.toNat / info.denom.toNat := by
  rw [clow, BitVec.toNat_udiv, toNat_clowProduct, toNat_setWidth]

/-- The parts of the sum are those of the split. -/
theorem parts_eq_split (hd : 0 < info.denom.toNat) (c : BitVec 64) :
    (chighQuotient info c).toNat * 2 ^ 32 + ((clow info c).toNat + (chighrem info c).toNat) =
      split info.numer.toNat info.denom.toNat c.toNat := by
  rw [toNat_chighQuotient, toNat_clow, (toNat_chighrem hd c).2, split]

theorem noOverflow_of_lt (hd : 0 < info.denom.toNat) (hlt : exactNs info c < 2 ^ 64) :
    NoOverflow info c := by
  have hsum := parts_eq_split hd c
  have hle := split_le hd info.numer.toNat c.toNat
  rw [exactNs] at hlt
  exact ⟨toNat_chigh info c, (toNat_chighrem hd c).1, toNat_clowProduct info c, by omega,
    by omega, by omega⟩

/-- The nanoseconds are those of the split, or the ticks themselves. -/
theorem toNat_nanoseconds (hd : 0 < info.denom.toNat) (hlt : exactNs info c < 2 ^ 64) :
    (nanoseconds info c).toNat = if info.numer ≠ info.denom then
      split info.numer.toNat info.denom.toNat c.toNat else c.toNat := by
  have h := noOverflow_of_lt hd hlt
  rw [nanoseconds]
  split
  · rw [BitVec.toNat_add, BitVec.toNat_add, BitVec.toNat_shiftLeft, Nat.shiftLeft_eq,
      Nat.mod_eq_of_lt h.shift, Nat.mod_eq_of_lt h.clow, Nat.mod_eq_of_lt h.sum,
      parts_eq_split hd]
  · rfl

theorem exactNs_mono {c c' : BitVec 64} (hle : c ≤ c') : exactNs info c ≤ exactNs info c' :=
  Nat.div_le_div_right (Nat.mul_le_mul_right _ (BitVec.le_def.1 hle))

/-- As long as the nanoseconds fit in 64 bits, nothing overflows on the way to them, at most one
is lost, and the clock does not go back. -/
theorem nanoseconds_exact_monotone (info : ClockInfo) (hd : info.denom ≠ 0)
    (hne : info.numer ≠ info.denom) (c : BitVec 64) (hlt : exactNs info c < 2 ^ 64) :
    NoOverflow info c ∧
      ((nanoseconds info c).toNat = exactNs info c ∨
        (nanoseconds info c).toNat + 1 = exactNs info c) ∧
      ∀ c' ≤ c, nanoseconds info c' ≤ nanoseconds info c := by
  have hd : 0 < info.denom.toNat := by
    rw [Nat.pos_iff_ne_zero]
    exact fun h => hd (BitVec.eq_of_toNat_eq h)
  have hns := toNat_nanoseconds hd hlt
  rw [if_pos hne] at hns
  refine ⟨noOverflow_of_lt hd hlt, ?_, ?_⟩
  · have hle := split_le hd info.numer.toNat c.toNat
    have hge := le_split hd info.numer.toNat c.toNat
    rw [hns, exactNs]
    omega
  · intro c' hc'
    have hns' := toNat_nanoseconds hd (Nat.lt_of_le_of_lt (exactNs_mono hc') hlt)
    rw [if_pos hne] at hns'
    rw [BitVec.le_def, hns, hns']
    exact split_mono hd _ (BitVec.le_def.1 hc')

/-- The clock of a Mac that ticks 125 times in 3 microseconds. -/
def appleSilicon : ClockInfo := ⟨125, 3⟩

/-- A clock that ran for more than a day. -/
theorem nanoseconds_exact_monotone_day :
    NoOverflow appleSilicon 4294967295000 ∧
      ((nanoseconds appleSilicon 4294967295000).toNat = exactNs appleSilicon 4294967295000 ∨
        (nanoseconds appleSilicon 4294967295000).toNat + 1 =
          exactNs appleSilicon 4294967295000) ∧
      ∀ c' ≤ 4294967295000,
        nanoseconds appleSilicon c' ≤ nanoseconds appleSilicon 4294967295000 :=
  nanoseconds_exact_monotone appleSilicon (by decide) (by decide) 4294967295000 (by decide)

/-- The time of the clock is normal, and nothing of it is lost in the split. -/
theorem clockGettime_eq (info : ClockInfo) (enableAssert : Bool) (start now : BitVec 64) :
    ∃ sec nsec,
      clockGettime info enableAssert clockMonotonic true start now = .ok (sec, nsec) ∧
      nsec.toNat < 1000000000 ∧
      sec.toNat * 1000000000 + nsec.toNat = (nanoseconds info (now - start)).toNat := by
  have hbillion : billion.toNat = 1000000000 := rfl
  refine ⟨nanoseconds info (now - start) / billion, nanoseconds info (now - start) % billion,
    by simp [clockGettime], ?_, ?_⟩
  · rw [BitVec.toNat_umod, hbillion]
    exact Nat.mod_lt _ (by decide)
  · rw [BitVec.toNat_udiv, BitVec.toNat_umod, hbillion, Nat.div_add_mod']

end MacClock

end Zth
