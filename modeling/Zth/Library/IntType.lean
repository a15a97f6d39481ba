import Mathlib.Algebra.Group.Int.Defs
import Mathlib.Algebra.Group.Nat.Defs
import Mathlib.Algebra.Order.Group.Unbundled.Int
import Mathlib.Tactic.Common

/-!
# The integer types of a machine

An integer type is a width and whether there is a sign. A conversion to it takes the
residue that fits. Arithmetic wraps around in a type without sign; in a type with sign it
has no result when the exact one does not fit.
-/

structure IntType where
  signed : Bool
  bits : ℕ
  bits_pos : 0 < bits
deriving DecidableEq

namespace IntType

def min (T : IntType) : ℤ := if T.signed then -2 ^ (T.bits - 1) else 0

def max (T : IntType) : ℤ := if T.signed then 2 ^ (T.bits - 1) - 1 else 2 ^ T.bits - 1

/-- The number can be held by the type. -/
def Fits (T : IntType) (x : ℤ) : Prop := T.min ≤ x ∧ x ≤ T.max

instance (T : IntType) (x : ℤ) : Decidable (T.Fits x) :=
  inferInstanceAs (Decidable (_ ∧ _))

/-- The conversion of a number to the type. -/
def wrap (T : IntType) (x : ℤ) : ℤ :=
  if T.signed then x.bmod (2 ^ T.bits) else x % 2 ^ T.bits

/-- The result of an operation in the type whose exact result is `x`. -/
def arith (T : IntType) (x : ℤ) : Option ℤ :=
  if T.signed then if T.Fits x then some x else none else some (T.wrap x)

variable {T : IntType} {x : ℤ}

theorem two_pow_bits (T : IntType) : (2 : ℤ) ^ T.bits = 2 * 2 ^ (T.bits - 1) := by
  rw [← Int.pow_succ', Nat.sub_add_cancel T.bits_pos]

theorem two_pow_pos (T : IntType) : (0 : ℤ) < 2 ^ (T.bits - 1) := by
  exact_mod_cast Nat.two_pow_pos (T.bits - 1)

theorem cast_two_pow (n : ℕ) : ((2 ^ n : ℕ) : ℤ) = 2 ^ n := by
  push_cast
  rfl

/-- The result of a conversion fits. -/
theorem fits_wrap (T : IntType) (x : ℤ) : T.Fits (T.wrap x) := by
  have hpow := T.two_pow_bits
  have hpos := T.two_pow_pos
  simp only [Fits, wrap, min, max]
  cases T.signed with
  | false =>
    have h0 := Int.emod_nonneg x (show (2 : ℤ) ^ T.bits ≠ 0 by omega)
    have h1 := Int.emod_lt_of_pos x (show (0 : ℤ) < 2 ^ T.bits by omega)
    simp only [Bool.false_eq_true, if_false]
    omega
  | true =>
    have hcast := cast_two_pow T.bits
    have h0 := Int.le_bmod (x := x) (Nat.two_pow_pos T.bits)
    have h1 := Int.bmod_lt (x := x) (Nat.two_pow_pos T.bits)
    simp only [if_true]
    omega

/-- A conversion keeps the residue. -/
theorem dvd_sub_wrap (T : IntType) (x : ℤ) : 2 ^ T.bits ∣ x - T.wrap x := by
  unfold wrap
  split
  · rw [← cast_two_pow]
    exact Int.dvd_self_sub_bmod
  · exact Int.dvd_self_sub_emod

/-- The only number that fits with a residue is the converted one. -/
theorem wrap_eq_of_dvd_sub {y : ℤ} (hy : T.Fits y) (h : 2 ^ T.bits ∣ x - y) : T.wrap x = y := by
  have hspan : T.max - T.min + 1 = 2 ^ T.bits := by
    have hpow := T.two_pow_bits
    simp only [min, max]
    split <;> omega
  have hdvd : 2 ^ T.bits ∣ T.wrap x - y := by
    have hsub : T.wrap x - y = x - y - (x - T.wrap x) := by omega
    rw [hsub]
    exact Int.dvd_sub h (T.dvd_sub_wrap x)
  obtain ⟨hlo, hhi⟩ := T.fits_wrap x
  obtain ⟨hlo', hhi'⟩ := hy
  have hzero := Int.eq_zero_of_dvd_of_natAbs_lt_natAbs hdvd (by omega)
  omega

/-- A number that fits is kept by the conversion. -/
theorem wrap_of_fits (h : T.Fits x) : T.wrap x = x :=
  wrap_eq_of_dvd_sub h (by rw [Int.sub_self]; exact Int.dvd_zero _)

/-- An operation whose exact result fits has that result. -/
theorem arith_of_fits (h : T.Fits x) : T.arith x = some x := by
  unfold arith
  cases T.signed with
  | false => simp only [Bool.false_eq_true, if_false, wrap_of_fits h]
  | true => simp only [if_true, if_pos h]

/-- In a type with sign, an operation has a result only if the exact one fits. -/
theorem arith_eq_none (hs : T.signed = true) (h : ¬ T.Fits x) : T.arith x = none := by
  simp only [arith, hs, if_true, if_neg h]

/-- In a type with sign, the result of an operation is the exact one. -/
theorem eq_of_arith {y : ℤ} (hs : T.signed = true) (h : T.arith x = some y) : y = x := by
  simp only [arith, hs, if_true] at h
  obtain ⟨-, hx⟩ := Option.ite_none_right_eq_some.1 h
  exact (Option.some_inj.1 hx).symm

end IntType
