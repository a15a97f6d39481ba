import Mathlib.Algebra.Group.Int.Defs
import Mathlib.Algebra.Order.Group.Unbundled.Int
import Mathlib.Data.Prod.Lex
import Mathlib.Order.Lattice

/-!
# Time intervals

A time interval is a number of seconds and nanoseconds with a sign. The comparison
operators of the code are a linear order, also on intervals that are not normal: the
negative ones come first, and among intervals of the same sign the seconds go before the
nanoseconds.
-/

namespace Zth

/-- The largest `time_t`. -/
def timeMax : ℤ := 2 ^ 63 - 1

structure TimeInterval where
  sec : ℤ
  nsec : ℤ
  negative : Bool
deriving DecidableEq, Repr

namespace TimeInterval

def infinity : TimeInterval := ⟨timeMax, 0, false⟩

def null : TimeInterval := ⟨0, 0, false⟩

def isNegative (t : TimeInterval) : Bool := t.negative

def isNull (t : TimeInterval) : Bool := t.sec == 0 && t.nsec == 0

def isInfinite (t : TimeInterval) : Bool := timeMax / 2 < t.sec

def hasPassed (t : TimeInterval) : Bool := t.isNegative || t.isNull

def isAbsBiggerThan (a b : TimeInterval) : Bool :=
  b.sec < a.sec || (a.sec == b.sec && b.nsec < a.nsec)

def isBiggerThan (a b : TimeInterval) : Bool :=
  (!a.negative && b.negative) ||
  (!a.negative && !b.negative && a.isAbsBiggerThan b) ||
  (a.negative && b.negative && b.isAbsBiggerThan a)

/-- The operator `>=`. -/
def notLess (a b : TimeInterval) : Bool := a == b || a.isBiggerThan b

/-- The operator `<`. -/
def less (a b : TimeInterval) : Bool := !a.notLess b

/-- The sign first, then the seconds and the nanoseconds. -/
def key (t : TimeInterval) : ℤ ×ₗ ℤ ×ₗ ℤ :=
  if t.negative then toLex (0, toLex (-t.sec, -t.nsec)) else toLex (1, toLex (t.sec, t.nsec))

theorem key_injective : Function.Injective key := by
  rintro ⟨s, n, _ | _⟩ ⟨s', n', _ | _⟩ h <;> simp_all [key]

instance : LinearOrder TimeInterval := LinearOrder.lift' key key_injective

theorem lt_iff_key (a b : TimeInterval) : a < b ↔ key a < key b := Iff.rfl

theorem isBiggerThan_iff (a b : TimeInterval) : a.isBiggerThan b = true ↔ b < a := by
  rw [lt_iff_key]
  rcases a with ⟨s, n, _ | _⟩ <;> rcases b with ⟨s', n', _ | _⟩ <;>
    simp [isBiggerThan, isAbsBiggerThan, key, Prod.Lex.toLex_lt_toLex]
  all_goals omega

theorem less_iff (a b : TimeInterval) : a.less b = true ↔ a < b := by
  rw [less, Bool.not_eq_true', ← Bool.not_eq_true, notLess, Bool.or_eq_true, beq_iff_eq,
    isBiggerThan_iff, not_or, not_lt, and_comm, lt_iff_le_and_ne]

/-- An interval that is not infinite is smaller than infinity. -/
theorem lt_infinity {t : TimeInterval} (h : t.isInfinite = false) : t < infinity := by
  have hsec : t.sec < timeMax := by
    have hle : t.sec ≤ timeMax / 2 := by simpa [isInfinite] using h
    exact lt_of_le_of_lt hle (by decide)
  rw [lt_iff_key]
  cases hn : t.negative <;> simp [key, infinity, hn, Prod.Lex.toLex_lt_toLex, hsec]

end TimeInterval

end Zth
