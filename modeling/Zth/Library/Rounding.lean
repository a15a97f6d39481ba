import Mathlib.Algebra.Order.Group.Nat
import Mathlib.Tactic.Common

/-!
# Rounding to multiples of a power of two

A number of a machine is rounded down to a multiple of a power of two by clearing the lower
bits, and rounded up by adding all but one before. Both are described by what determines
them: a multiple, on the right side of the number, and nearer than the next one.
-/

namespace Rounding

variable {w k : ℕ} {page x : BitVec w}

/-- `x & ~(page - 1)` -/
def down (page x : BitVec w) : BitVec w := x &&& ~~~(page - 1)

/-- `(x + page - 1) & ~(page - 1)` -/
def up (page x : BitVec w) : BitVec w := down page (x + page - 1)

/-- The bits below a power of two. -/
theorem toNat_sub_one (hpage : page.toNat = 2 ^ k) : (page - 1).toNat = 2 ^ k - 1 := by
  have hlt : 2 ^ k < 2 ^ w := hpage ▸ page.isLt
  have hpos := Nat.two_pow_pos k
  have hone : (1 : BitVec w).toNat = 1 :=
    (BitVec.toNat_ofNat 1 w).trans (Nat.mod_eq_of_lt (by omega))
  have hsum : 2 ^ w - 1 + 2 ^ k = 2 ^ k - 1 + 2 ^ w := by omega
  rw [BitVec.toNat_sub, hone, hpage, hsum, Nat.add_mod_right, Nat.mod_eq_of_lt (by omega)]

/-- A number is what two complementary masks leave of it. -/
theorem toNat_and_add_toNat_and_not (x m : BitVec w) :
    (x &&& m).toNat + (x &&& ~~~m).toNat = x.toNat := by
  have hzero : (x &&& m) &&& (x &&& ~~~m) = 0#w := by
    ext i hi
    simp only [BitVec.getElem_and, BitVec.getElem_not, BitVec.getElem_zero]
    cases x[i] <;> cases m[i] <;> rfl
  have hor : (x &&& m) ||| (x &&& ~~~m) = x := by
    ext i hi
    simp only [BitVec.getElem_and, BitVec.getElem_or, BitVec.getElem_not]
    cases x[i] <;> cases m[i] <;> rfl
  rw [← BitVec.toNat_add_of_and_eq_zero hzero, BitVec.add_eq_or_of_and_eq_zero _ _ hzero, hor]

theorem toNat_down (hpage : page.toNat = 2 ^ k) (x : BitVec w) :
    (down page x).toNat = x.toNat - x.toNat % page.toNat := by
  have hsum := toNat_and_add_toNat_and_not x (page - 1)
  rw [BitVec.toNat_and x (page - 1), toNat_sub_one hpage, Nat.and_two_pow_sub_one_eq_mod] at hsum
  rw [down, hpage]
  omega

theorem dvd_down (hpage : page.toNat = 2 ^ k) (x : BitVec w) :
    page.toNat ∣ (down page x).toNat := by
  rw [toNat_down hpage]
  exact Nat.dvd_sub_mod x.toNat

theorem down_le (hpage : page.toNat = 2 ^ k) (x : BitVec w) :
    (down page x).toNat ≤ x.toNat := by
  rw [toNat_down hpage]
  exact Nat.sub_le _ _

/-- Rounding down gives the greatest multiple below. -/
theorem le_down (hpage : page.toNat = 2 ^ k) {x : BitVec w} {n : ℕ} (hn : page.toNat ∣ n)
    (hle : n ≤ x.toNat) : n ≤ (down page x).toNat := by
  obtain ⟨q, rfl⟩ := hn
  have hdiv : q ≤ x.toNat / page.toNat := by
    rw [Nat.le_div_iff_mul_le (by rw [hpage]; exact Nat.two_pow_pos k), Nat.mul_comm]
    exact hle
  have heq := Nat.div_add_mod x.toNat page.toNat
  have hmul := Nat.mul_le_mul_left page.toNat hdiv
  rw [toNat_down hpage]
  omega

theorem down_of_dvd (hpage : page.toNat = 2 ^ k) {x : BitVec w} (hdvd : page.toNat ∣ x.toNat) :
    down page x = x := by
  apply BitVec.eq_of_toNat_eq
  rw [toNat_down hpage, Nat.mod_eq_zero_of_dvd hdvd, Nat.sub_zero]

/-- The sum that is rounded down when a number is rounded up. -/
theorem toNat_add_sub_one (hpage : page.toNat = 2 ^ k) {x : BitVec w}
    (hx : x.toNat + page.toNat ≤ 2 ^ w) :
    (x + page - 1).toNat = x.toNat + (page.toNat - 1) := by
  have hpos := Nat.two_pow_pos k
  have hassoc : x + page - 1 = x + (page - 1) := by
    rw [BitVec.sub_eq_add_neg, BitVec.sub_eq_add_neg, BitVec.add_assoc]
  rw [hassoc, BitVec.toNat_add, toNat_sub_one hpage, hpage, Nat.mod_eq_of_lt (by omega)]

theorem dvd_up (hpage : page.toNat = 2 ^ k) (x : BitVec w) : page.toNat ∣ (up page x).toNat :=
  dvd_down hpage _

theorem up_lt (hpage : page.toNat = 2 ^ k) {x : BitVec w}
    (hx : x.toNat + page.toNat ≤ 2 ^ w) : (up page x).toNat < x.toNat + page.toNat := by
  have hle := down_le hpage (x + page - 1)
  have hpos := Nat.two_pow_pos k
  rw [toNat_add_sub_one hpage hx] at hle
  rw [up]
  omega

theorem le_up (hpage : page.toNat = 2 ^ k) {x : BitVec w}
    (hx : x.toNat + page.toNat ≤ 2 ^ w) : x.toNat ≤ (up page x).toNat := by
  have hmod := Nat.mod_lt (x + page - 1).toNat (show 0 < page.toNat by
    rw [hpage]
    exact Nat.two_pow_pos k)
  rw [up, toNat_down hpage]
  rw [toNat_add_sub_one hpage hx] at hmod ⊢
  omega

theorem up_of_dvd (hpage : page.toNat = 2 ^ k) {x : BitVec w}
    (hx : x.toNat + page.toNat ≤ 2 ^ w) (hdvd : page.toNat ∣ x.toNat) : up page x = x := by
  have hpos := Nat.two_pow_pos k
  obtain ⟨q, hq⟩ := hdvd
  apply BitVec.eq_of_toNat_eq
  rw [up, toNat_down hpage, toNat_add_sub_one hpage hx, hq, Nat.mul_add_mod,
    Nat.mod_eq_of_lt (by omega), Nat.add_sub_cancel]

/-- How far a number is rounded up, also where that wraps around. -/
theorem toNat_up_sub (hpage : page.toNat = 2 ^ k) (x : BitVec w) :
    (up page x - x).toNat = page.toNat - 1 - (x.toNat + (page.toNat - 1)) % page.toNat := by
  have hpos := Nat.two_pow_pos k
  have hlt := page.isLt
  have hdvd : page.toNat ∣ 2 ^ w := by
    rw [hpage]
    exact Nat.pow_dvd_pow 2 (Nat.pow_lt_pow_iff_right (by decide) |>.1 (hpage ▸ hlt)).le
  have hmod := Nat.mod_lt (x.toNat + (page.toNat - 1)) (show 0 < page.toNat by omega)
  have hassoc : x + page - 1 = x + (page - 1) := by
    rw [BitVec.sub_eq_add_neg, BitVec.sub_eq_add_neg, BitVec.add_assoc]
  -- what rounding down takes off again
  have hrest : (x + page - 1).toNat % page.toNat = (x.toNat + (page.toNat - 1)) % page.toNat := by
    rw [hassoc, BitVec.toNat_add, toNat_sub_one hpage, Nat.mod_mod_of_dvd _ hdvd, hpage]
  have hle := Nat.mod_le (x + page - 1).toNat page.toNat
  have hdown := toNat_down hpage (x + page - 1)
  have hx := x.isLt
  rw [hrest] at hdown hle
  rw [BitVec.toNat_sub, up, hdown]
  rw [hassoc, BitVec.toNat_add, toNat_sub_one hpage, ← hpage] at hle ⊢
  rw [← hpage] at hpos
  generalize (x.toNat + (page.toNat - 1)) % page.toNat = r at *
  generalize 2 ^ w = N at *
  -- the sum wraps around once at most
  obtain hwrap | hwrap := Nat.lt_or_ge (x.toNat + (page.toNat - 1)) N
  · rw [Nat.mod_eq_of_lt hwrap] at hle ⊢
    have hsum : N - x.toNat + (x.toNat + (page.toNat - 1) - r) = page.toNat - 1 - r + N := by omega
    rw [hsum, Nat.add_mod_right, Nat.mod_eq_of_lt (by omega)]
  · have hsum : (x.toNat + (page.toNat - 1)) % N = x.toNat + (page.toNat - 1) - N := by
      rw [Nat.mod_eq_sub_mod hwrap, Nat.mod_eq_of_lt (by omega)]
    rw [hsum] at hle ⊢
    rw [Nat.mod_eq_of_lt (by omega)]
    omega

end Rounding
