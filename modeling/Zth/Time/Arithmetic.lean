import Zth.Library.IntType
import Zth.Time.Interval

/-!
# Arithmetic of time intervals

Intervals are added as sign and magnitude, with a carry or a borrow between the
nanoseconds and the seconds. Every operation is done in the type of the code, `time_t` for
the seconds and `long` for the nanoseconds, and `none` stands for an overflow. Addition in
the direction of the sign saturates: the seconds become the largest `time_t`.

The carry is taken only when the nanoseconds exceed a billion, so a sum of exactly a
billion stays. Such intervals are not normal, but they are still added exactly; they are
called tame here.
-/

namespace Zth

/-- The widths of `time_t` and `long`. -/
structure Platform where
  timeBits : ℕ
  longBits : ℕ
  le_timeBits : 32 ≤ timeBits
  le_longBits : 32 ≤ longBits

namespace Platform

def time (p : Platform) : IntType := ⟨true, p.timeBits, by have := p.le_timeBits; omega⟩

def long (p : Platform) : IntType := ⟨true, p.longBits, by have := p.le_longBits; omega⟩

/-- The largest `time_t`. -/
def timeMax (p : Platform) : ℤ := p.time.max

/-- Both types have 64 bits. -/
def lp64 : Platform := ⟨64, 64, by decide, by decide⟩

theorem two_pow_le_of_le {n : ℕ} (h : 32 ≤ n) : (2147483648 : ℤ) ≤ 2 ^ (n - 1) := by
  calc
    (2147483648 : ℤ) = 2 ^ 31 := rfl
    _ ≤ 2 ^ (n - 1) := by
      have hle : 31 ≤ n - 1 := by omega
      exact_mod_cast Nat.pow_le_pow_right (by decide) hle

theorem time_fits (p : Platform) {x : ℤ} (h0 : -1 ≤ x) (h : x ≤ p.timeMax) :
    p.time.Fits x := by
  have hpow := two_pow_le_of_le p.le_timeBits
  refine ⟨?_, h⟩
  simp only [IntType.min, time, if_true]
  omega

theorem long_fits (p : Platform) {x : ℤ} (h0 : -2147483648 ≤ x) (h : x < 2147483648) :
    p.long.Fits x := by
  have hpow := two_pow_le_of_le p.le_longBits
  simp only [IntType.Fits, IntType.min, IntType.max, long, if_true]
  omega

/-- The largest `time_t` is one less than a large power of two. -/
theorem timeMax_spec (p : Platform) : 2147483647 ≤ p.timeMax ∧ p.timeMax % 2 = 1 := by
  obtain ⟨k, hk⟩ : ∃ k, p.timeBits - 1 = k + 1 := ⟨p.timeBits - 2, by
    have := p.le_timeBits
    omega⟩
  have hpow := two_pow_le_of_le p.le_timeBits
  simp only [timeMax, IntType.max, time, if_true]
  rw [hk, Int.pow_succ] at *
  omega

end Platform

namespace TimeInterval

/-- The nanoseconds in a second. -/
def BILLION : ℤ := 1000000000

def isNormal (t : TimeInterval) : Bool := 0 ≤ t.sec && 0 ≤ t.nsec && t.nsec < BILLION

/-- `isInfinite` for the `time_t` of the platform. -/
def isInfiniteOn (p : Platform) (t : TimeInterval) : Bool := p.timeMax / 2 < t.sec

theorem isInfiniteOn_lp64 (t : TimeInterval) : t.isInfiniteOn .lp64 = t.isInfinite := rfl

/-- A borrow of a second. -/
def borrow (p : Platform) (sec nsec : ℤ) (negative : Bool) : Option TimeInterval :=
  if nsec < 0 then do
    let nsec ← p.long.arith (nsec + BILLION)
    let sec ← p.time.arith (sec - 1)
    return ⟨sec, nsec, negative⟩
  else
    some ⟨sec, nsec, negative⟩

def add (p : Platform) (a t : TimeInterval) : Option TimeInterval :=
  if t.negative == a.negative then
    -- Check for overflow.
    if a.isInfiniteOn p || t.isInfiniteOn p then
      some { a with sec := p.timeMax }
    else do
      let rest ← p.time.arith (p.timeMax - a.sec)
      let rest ← p.time.arith (rest - 1)
      if rest ≤ t.sec then
        return { a with sec := p.timeMax }
      -- Add in same sign direction.
      let sec ← p.time.arith (a.sec + t.sec)
      let nsec ← p.long.arith (a.nsec + t.nsec)
      if BILLION < nsec then
        let nsec ← p.long.arith (nsec - BILLION)
        let sec ← p.time.arith (sec + 1)
        return ⟨sec, nsec, a.negative⟩
      return ⟨sec, nsec, a.negative⟩
  else if t.isAbsBiggerThan a then do
    -- Add in other sign direction with sign flip.
    let sec ← p.time.arith (t.sec - a.sec)
    let nsec ← p.long.arith (t.nsec - a.nsec)
    borrow p sec nsec !a.negative
  else do
    let sec ← p.time.arith (a.sec - t.sec)
    let nsec ← p.long.arith (a.nsec - t.nsec)
    borrow p sec nsec a.negative

/-- The unary minus. -/
def neg (t : TimeInterval) : TimeInterval := ⟨t.sec, t.nsec, !t.negative⟩

def sub (p : Platform) (a t : TimeInterval) : Option TimeInterval := a.add p t.neg

/-- The number of nanoseconds without the sign. -/
def magnitude (t : TimeInterval) : ℤ := t.sec * BILLION + t.nsec

/-- The signed number of nanoseconds. -/
def value (t : TimeInterval) : ℤ := if t.negative then -t.magnitude else t.magnitude

/-- The interval can be held by the types, and its fields are in the ranges for which
`isNormal` tests. -/
structure Normal (p : Platform) (t : TimeInterval) : Prop where
  sec_nonneg : 0 ≤ t.sec
  sec_le : t.sec ≤ p.timeMax
  nsec_nonneg : 0 ≤ t.nsec
  nsec_lt : t.nsec < BILLION

/-- As normal, but the nanoseconds may be a whole second. -/
structure Tame (p : Platform) (t : TimeInterval) : Prop where
  sec_nonneg : 0 ≤ t.sec
  sec_le : t.sec ≤ p.timeMax
  nsec_nonneg : 0 ≤ t.nsec
  nsec_le : t.nsec ≤ BILLION

/-- Addition in the direction of the sign does not count the seconds. -/
def Saturates (p : Platform) (a t : TimeInterval) : Prop :=
  a.isInfiniteOn p = true ∨ t.isInfiniteOn p = true ∨ p.timeMax - 1 ≤ a.sec + t.sec

instance (p : Platform) (a t : TimeInterval) : Decidable (Saturates p a t) :=
  inferInstanceAs (Decidable (_ ∨ _ ∨ _))

variable {p : Platform} {a t : TimeInterval}

theorem isNormal_iff (t : TimeInterval) :
    t.isNormal = true ↔ 0 ≤ t.sec ∧ 0 ≤ t.nsec ∧ t.nsec < BILLION := by
  simp only [isNormal, Bool.and_eq_true, decide_eq_true_eq, and_assoc]

theorem isInfiniteOn_iff (p : Platform) (t : TimeInterval) :
    t.isInfiniteOn p = true ↔ p.timeMax / 2 < t.sec := by
  rw [isInfiniteOn, decide_eq_true_eq]

theorem isInfiniteOn_eq_false_iff (p : Platform) (t : TimeInterval) :
    t.isInfiniteOn p = false ↔ t.sec ≤ p.timeMax / 2 := by
  rw [isInfiniteOn, decide_eq_false_iff_not, not_lt]

theorem Normal.isNormal (h : Normal p t) : t.isNormal = true :=
  (isNormal_iff t).2 ⟨h.sec_nonneg, h.nsec_nonneg, h.nsec_lt⟩

theorem Normal.tame (h : Normal p t) : Tame p t :=
  ⟨h.sec_nonneg, h.sec_le, h.nsec_nonneg, le_of_lt h.nsec_lt⟩

theorem Normal.neg (h : Normal p t) : Normal p t.neg :=
  ⟨h.sec_nonneg, h.sec_le, h.nsec_nonneg, h.nsec_lt⟩

theorem Tame.neg (h : Tame p t) : Tame p t.neg :=
  ⟨h.sec_nonneg, h.sec_le, h.nsec_nonneg, h.nsec_le⟩

theorem value_neg (t : TimeInterval) : t.neg.value = -t.value := by
  cases hn : t.negative <;> simp [value, magnitude, TimeInterval.neg, hn]

/-- Addition in the direction of the sign, when it saturates. -/
theorem add_of_saturates (ha : Tame p a) (hn : t.negative = a.negative)
    (hs : Saturates p a t) : a.add p t = some { a with sec := p.timeMax } := by
  have hmax := p.timeMax_spec
  have hrest : p.time.arith (p.timeMax - a.sec) = some (p.timeMax - a.sec) :=
    IntType.arith_of_fits (p.time_fits (by have := ha.sec_le; omega)
      (by have := ha.sec_nonneg; omega))
  have hrest' : p.time.arith (p.timeMax - a.sec - 1) = some (p.timeMax - a.sec - 1) :=
    IntType.arith_of_fits (p.time_fits (by have := ha.sec_le; omega)
      (by have := ha.sec_nonneg; omega))
  unfold add
  rw [if_pos (by rw [hn, beq_self_eq_true])]
  by_cases hinf : (a.isInfiniteOn p || t.isInfiniteOn p) = true
  · rw [if_pos hinf]
  · have hle : p.timeMax - a.sec - 1 ≤ t.sec := by
      rw [Bool.or_eq_true] at hinf
      simp only [Saturates] at hs
      have := (hs.resolve_left fun h => hinf (Or.inl h)).resolve_left fun h => hinf (Or.inr h)
      omega
    rw [if_neg hinf]
    simp [hrest, hrest', hle]

/-- The magnitudes of both intervals together. -/
def plus (a t : TimeInterval) : TimeInterval :=
  if BILLION < a.nsec + t.nsec
    then ⟨a.sec + t.sec + 1, a.nsec + t.nsec - BILLION, a.negative⟩
    else ⟨a.sec + t.sec, a.nsec + t.nsec, a.negative⟩

/-- The magnitude of the larger interval less that of the smaller. -/
def minus (a t : TimeInterval) : TimeInterval :=
  if a.nsec - t.nsec < 0
    then ⟨a.sec - t.sec - 1, a.nsec - t.nsec + BILLION, a.negative⟩
    else ⟨a.sec - t.sec, a.nsec - t.nsec, a.negative⟩

@[simp] theorem plus_negative (a t : TimeInterval) : (a.plus t).negative = a.negative := by
  unfold plus
  split <;> rfl

@[simp] theorem minus_negative (a t : TimeInterval) : (a.minus t).negative = a.negative := by
  unfold minus
  split <;> rfl

theorem magnitude_plus (a t : TimeInterval) :
    (a.plus t).magnitude = a.magnitude + t.magnitude := by
  unfold plus
  split <;> simp only [magnitude, BILLION] <;> omega

theorem magnitude_minus (a t : TimeInterval) :
    (a.minus t).magnitude = a.magnitude - t.magnitude := by
  unfold minus
  split <;> simp only [magnitude, BILLION] <;> omega

/-- Addition in the direction of the sign, when it does not saturate. -/
theorem add_of_not_saturates (ha : Tame p a) (ht : Tame p t)
    (hn : t.negative = a.negative) (hs : ¬ Saturates p a t) :
    a.add p t = some (a.plus t) := by
  have hB : BILLION = 1000000000 := rfl
  obtain ⟨ha0, ha1, ha2, ha3⟩ := ha
  obtain ⟨ht0, ht1, ht2, ht3⟩ := ht
  simp only [Saturates, not_or, Bool.not_eq_true] at hs
  obtain ⟨hsa, hst, hlt⟩ := hs
  have hrest : p.time.arith (p.timeMax - a.sec) = some (p.timeMax - a.sec) :=
    IntType.arith_of_fits (p.time_fits (by omega) (by omega))
  have hrest' : p.time.arith (p.timeMax - a.sec - 1) = some (p.timeMax - a.sec - 1) :=
    IntType.arith_of_fits (p.time_fits (by omega) (by omega))
  have hsec : p.time.arith (a.sec + t.sec) = some (a.sec + t.sec) :=
    IntType.arith_of_fits (p.time_fits (by omega) (by omega))
  have hcarry : p.time.arith (a.sec + t.sec + 1) = some (a.sec + t.sec + 1) :=
    IntType.arith_of_fits (p.time_fits (by omega) (by omega))
  have hnsec : p.long.arith (a.nsec + t.nsec) = some (a.nsec + t.nsec) :=
    IntType.arith_of_fits (p.long_fits (by omega) (by omega))
  have hnsec' : p.long.arith (a.nsec + t.nsec - BILLION) = some (a.nsec + t.nsec - BILLION) :=
    IntType.arith_of_fits (p.long_fits (by omega) (by omega))
  have hle : ¬ p.timeMax - a.sec - 1 ≤ t.sec := by omega
  unfold add plus
  rw [if_pos (by rw [hn, beq_self_eq_true]), hsa, hst]
  by_cases hc : BILLION < a.nsec + t.nsec <;>
    simp [hrest, hrest', hle, hsec, hnsec, hc, hnsec', hcarry]

/-- The borrow of a difference of tame intervals. -/
theorem borrow_eq {sec nsec : ℤ} (negative : Bool) (hs : 0 ≤ sec) (hs' : sec ≤ p.timeMax)
    (hn : -BILLION ≤ nsec) :
    borrow p sec nsec negative = some (if nsec < 0
      then ⟨sec - 1, nsec + BILLION, negative⟩ else ⟨sec, nsec, negative⟩) := by
  have hB : BILLION = 1000000000 := rfl
  unfold borrow
  by_cases hc : nsec < 0
  · have hsec : p.time.arith (sec - 1) = some (sec - 1) :=
      IntType.arith_of_fits (p.time_fits (by omega) (by omega))
    have hnsec : p.long.arith (nsec + BILLION) = some (nsec + BILLION) :=
      IntType.arith_of_fits (p.long_fits (by omega) (by omega))
    simp [hc, hsec, hnsec]
  · rw [if_neg hc, if_neg hc]

/-- Addition in the other direction. -/
theorem add_other (ha : Tame p a) (ht : Tame p t) (hn : t.negative ≠ a.negative) :
    a.add p t = some (if t.isAbsBiggerThan a then t.minus a else a.minus t) := by
  have hB : BILLION = 1000000000 := rfl
  obtain ⟨ha0, ha1, ha2, ha3⟩ := ha
  obtain ⟨ht0, ht1, ht2, ht3⟩ := ht
  have hneg : (!a.negative) = t.negative := by
    cases h : a.negative <;> cases h' : t.negative <;> simp_all
  unfold add
  rw [if_neg (by simpa using hn), hneg]
  by_cases hb : t.isAbsBiggerThan a = true
  · have hle : a.sec ≤ t.sec := by
      simp only [isAbsBiggerThan, Bool.or_eq_true, Bool.and_eq_true, decide_eq_true_eq,
        beq_iff_eq] at hb
      omega
    have hsec : p.time.arith (t.sec - a.sec) = some (t.sec - a.sec) :=
      IntType.arith_of_fits (p.time_fits (by omega) (by omega))
    have hnsec : p.long.arith (t.nsec - a.nsec) = some (t.nsec - a.nsec) :=
      IntType.arith_of_fits (p.long_fits (by omega) (by omega))
    rw [if_pos hb, if_pos hb, hsec, hnsec]
    exact borrow_eq t.negative (by omega) (by omega) (by omega)
  · have hle : t.sec ≤ a.sec := by
      simp only [isAbsBiggerThan, Bool.or_eq_true, Bool.and_eq_true, decide_eq_true_eq,
        beq_iff_eq] at hb
      omega
    have hsec : p.time.arith (a.sec - t.sec) = some (a.sec - t.sec) :=
      IntType.arith_of_fits (p.time_fits (by omega) (by omega))
    have hnsec : p.long.arith (a.nsec - t.nsec) = some (a.nsec - t.nsec) :=
      IntType.arith_of_fits (p.long_fits (by omega) (by omega))
    rw [if_neg hb, if_neg hb, hsec, hnsec]
    exact borrow_eq a.negative (by omega) (by omega) (by omega)

theorem isAbsBiggerThan_asymm (h : t.isAbsBiggerThan a = true) : a.isAbsBiggerThan t = false := by
  simp only [isAbsBiggerThan, Bool.or_eq_true, Bool.and_eq_true, decide_eq_true_eq, beq_iff_eq,
    Bool.or_eq_false_iff, Bool.and_eq_false_iff, decide_eq_false_iff_not,
    beq_eq_false_iff_ne] at *
  omega

theorem Tame.plus (ha : Tame p a) (ht : Tame p t) (hs : ¬ Saturates p a t) :
    Tame p (a.plus t) := by
  obtain ⟨ha0, ha1, ha2, ha3⟩ := ha
  obtain ⟨ht0, ht1, ht2, ht3⟩ := ht
  simp only [Saturates, not_or] at hs
  unfold TimeInterval.plus
  split <;> constructor <;> simp only [BILLION] at * <;> omega

theorem Tame.minus (ha : Tame p a) (ht : Tame p t) (hb : t.isAbsBiggerThan a = false) :
    Tame p (a.minus t) := by
  obtain ⟨ha0, ha1, ha2, ha3⟩ := ha
  obtain ⟨ht0, ht1, ht2, ht3⟩ := ht
  simp only [isAbsBiggerThan, Bool.or_eq_false_iff, Bool.and_eq_false_iff,
    decide_eq_false_iff_not, beq_eq_false_iff_ne] at hb
  unfold TimeInterval.minus
  split <;> constructor <;> simp only [BILLION] at * <;> omega

/-- Addition in the direction of the sign is exact when it does not saturate. -/
theorem value_plus (hn : t.negative = a.negative) : (a.plus t).value = a.value + t.value := by
  simp only [value, plus_negative, magnitude_plus, hn]
  cases a.negative with
  | false => simp only [Bool.false_eq_true, if_false]
  | true => simp only [if_true]; omega

/-- Addition in the other direction is exact. -/
theorem value_minus (hn : t.negative ≠ a.negative) : (a.minus t).value = a.value + t.value := by
  simp only [value, minus_negative, magnitude_minus]
  cases h : a.negative <;> cases h' : t.negative <;>
    simp only [h, h', ne_eq, not_true_eq_false, Bool.false_eq_true, if_false, if_true] at hn ⊢ <;>
    omega

theorem isInfiniteOn_timeMax (p : Platform) (t : TimeInterval) :
    ({ t with sec := p.timeMax } : TimeInterval).isInfiniteOn p = true := by
  have hmax := p.timeMax_spec
  rw [isInfiniteOn_iff]
  simp only
  omega

/-- Addition has a result. It is exact, or infinite with the common sign. -/
theorem add_spec (ha : Tame p a) (ht : Tame p t) :
    ∃ r, a.add p t = some r ∧ Tame p r ∧
      (a.negative ≠ t.negative ∨ ¬ Saturates p a t → r.value = a.value + t.value) ∧
      (a.negative = t.negative → Saturates p a t →
        r.isInfiniteOn p = true ∧ r.negative = a.negative) := by
  by_cases hn : t.negative = a.negative
  · by_cases hs : Saturates p a t
    · refine ⟨_, add_of_saturates ha hn hs, ?_, ?_, fun _ _ => ⟨isInfiniteOn_timeMax p a, rfl⟩⟩
      · exact ⟨le_trans (by decide) p.timeMax_spec.1, le_rfl, ha.nsec_nonneg, ha.nsec_le⟩
      · intro h
        exact absurd hs (h.resolve_left fun h => h hn.symm)
    · exact ⟨_, add_of_not_saturates ha ht hn hs, ha.plus ht hs, fun _ => value_plus hn,
        fun _ h => absurd h hs⟩
  · refine ⟨_, add_other ha ht hn, ?_, fun _ => ?_, fun h => absurd h.symm hn⟩
    · cases hb : t.isAbsBiggerThan a with
      | true => exact ht.minus ha (isAbsBiggerThan_asymm hb)
      | false => exact ha.minus ht hb
    · cases hb : t.isAbsBiggerThan a with
      | true => exact (value_minus (Ne.symm hn)).trans (Int.add_comm _ _)
      | false => exact value_minus hn

/-- No operation of addition and subtraction overflows. The result is exact when the signs
differ, or when neither interval is infinite and the seconds sum up to less than the
largest `time_t` minus one; otherwise it is infinite with the common sign. -/
theorem add_sub_exact_or_infinite (p : Platform) (a b : TimeInterval) (ha : Normal p a)
    (hb : Normal p b) :
    (∃ r, a.add p b = some r ∧
      (a.negative ≠ b.negative ∨
        (a.isInfiniteOn p = false ∧ b.isInfiniteOn p = false ∧ a.sec + b.sec < p.timeMax - 1) →
        r.value = a.value + b.value) ∧
      (¬ (a.negative ≠ b.negative ∨
        (a.isInfiniteOn p = false ∧ b.isInfiniteOn p = false ∧ a.sec + b.sec < p.timeMax - 1)) →
        r.isInfiniteOn p = true ∧ r.negative = a.negative)) ∧
    (∃ r, a.sub p b = some r ∧
      (a.negative ≠ b.neg.negative ∨
        (a.isInfiniteOn p = false ∧ b.isInfiniteOn p = false ∧ a.sec + b.sec < p.timeMax - 1) →
        r.value = a.value - b.value) ∧
      (¬ (a.negative ≠ b.neg.negative ∨
        (a.isInfiniteOn p = false ∧ b.isInfiniteOn p = false ∧ a.sec + b.sec < p.timeMax - 1)) →
        r.isInfiniteOn p = true ∧ r.negative = a.negative)) := by
  have hsat : (a.isInfiniteOn p = false ∧ b.isInfiniteOn p = false ∧
      a.sec + b.sec < p.timeMax - 1) ↔ ¬ Saturates p a b := by
    simp only [Saturates, not_or, Bool.not_eq_true, not_le]
  rw [hsat]
  constructor
  · obtain ⟨r, hr, -, hval, hinf⟩ := add_spec ha.tame hb.tame
    refine ⟨r, hr, hval, fun h => ?_⟩
    simp only [not_or, not_not] at h
    exact hinf h.1 h.2
  · obtain ⟨r, hr, -, hval, hinf⟩ := add_spec ha.tame hb.neg.tame
    refine ⟨r, hr, fun h => ?_, fun h => ?_⟩
    · rw [hval h, value_neg, Int.sub_eq_add_neg]
    · simp only [not_or, not_not] at h
      exact hinf h.1 h.2

theorem add_sub_exact_or_infinite_carry :
    Normal ⟨32, 32, by decide, by decide⟩ ⟨1, 600000000, true⟩ ∧
    Normal ⟨32, 32, by decide, by decide⟩ ⟨2, 700000000, true⟩ ∧
    ∃ r, add ⟨32, 32, by decide, by decide⟩ ⟨1, 600000000, true⟩ ⟨2, 700000000, true⟩ = some r ∧
      r.value = -4300000000 := by
  have ha : Normal ⟨32, 32, by decide, by decide⟩ ⟨1, 600000000, true⟩ :=
    ⟨by decide, by decide, by decide, by decide⟩
  have hb : Normal ⟨32, 32, by decide, by decide⟩ ⟨2, 700000000, true⟩ :=
    ⟨by decide, by decide, by decide, by decide⟩
  obtain ⟨r, hr, hval, -⟩ := (add_sub_exact_or_infinite _ _ _ ha hb).1
  exact ⟨ha, hb, r, hr, hval (Or.inr ⟨by decide, by decide, by decide⟩)⟩

/-!
## Comparison

Zero has two representations, with and without sign, which the comparisons tell apart.
-/

/-- The operator `<=`. -/
def lessOrEqual (a b : TimeInterval) : Bool := a == b || !a.isBiggerThan b

/-- The comparisons say the same of the intervals as of their values. -/
structure AgreesWithValues (a b : TimeInterval) : Prop where
  eq : (a == b) = true ↔ a.value = b.value
  lt : a.less b = true ↔ a.value < b.value
  le : a.lessOrEqual b = true ↔ a.value ≤ b.value
  gt : a.isBiggerThan b = true ↔ b.value < a.value
  ge : a.notLess b = true ↔ b.value ≤ a.value

/-- The two representations of zero. -/
def MixedZero (a b : TimeInterval) : Prop :=
  a.isNull = true ∧ b.isNull = true ∧ a.negative ≠ b.negative

theorem isNull_iff (t : TimeInterval) : t.isNull = true ↔ t.sec = 0 ∧ t.nsec = 0 := by
  rw [isNull, Bool.and_eq_true, beq_iff_eq, beq_iff_eq]

theorem isAbsBiggerThan_iff (ha : Normal p a) (ht : Normal p t) :
    a.isAbsBiggerThan t = true ↔ t.magnitude < a.magnitude := by
  obtain ⟨ha0, ha1, ha2, ha3⟩ := ha
  obtain ⟨ht0, ht1, ht2, ht3⟩ := ht
  simp only [isAbsBiggerThan, Bool.or_eq_true, Bool.and_eq_true, decide_eq_true_eq, beq_iff_eq,
    magnitude, BILLION] at *
  omega

theorem Normal.magnitude_nonneg (h : Normal p t) : 0 ≤ t.magnitude := by
  obtain ⟨h0, h1, h2, h3⟩ := h
  simp only [magnitude, BILLION]
  omega

theorem Normal.magnitude_pos (h : Normal p t) (hz : t.isNull = false) : 0 < t.magnitude := by
  obtain ⟨h0, h1, h2, h3⟩ := h
  rw [← Bool.not_eq_true, isNull_iff] at hz
  simp only [magnitude, BILLION]
  omega

theorem Normal.magnitude_inj (ha : Normal p a) (ht : Normal p t)
    (h : a.magnitude = t.magnitude) : a.sec = t.sec ∧ a.nsec = t.nsec := by
  obtain ⟨ha0, ha1, ha2, ha3⟩ := ha
  obtain ⟨ht0, ht1, ht2, ht3⟩ := ht
  simp only [magnitude, BILLION] at *
  omega

/-- Intervals of different signs are not both zero. -/
theorem magnitude_add_pos (ha : Normal p a) (ht : Normal p t) (hn : a.negative ≠ t.negative)
    (hz : ¬ MixedZero a t) : 0 < a.magnitude + t.magnitude := by
  have ha0 := ha.magnitude_nonneg
  have ht0 := ht.magnitude_nonneg
  cases hna : a.isNull with
  | false =>
    have := ha.magnitude_pos hna
    omega
  | true =>
    cases hnt : t.isNull with
    | false =>
      have := ht.magnitude_pos hnt
      omega
    | true => exact absurd ⟨hna, hnt, hn⟩ hz

theorem isBiggerThan_iff_value (ha : Normal p a) (ht : Normal p t) (hz : ¬ MixedZero a t) :
    a.isBiggerThan t = true ↔ t.value < a.value := by
  have hpos := magnitude_add_pos ha ht
  have ha0 := ha.magnitude_nonneg
  have ht0 := ht.magnitude_nonneg
  have hat := isAbsBiggerThan_iff ha ht
  have hta := isAbsBiggerThan_iff ht ha
  unfold isBiggerThan value
  cases hna : a.negative <;> cases hnt : t.negative <;> simp [hna, hnt, hz] at hpos ⊢
  · exact hat
  · omega
  · omega
  · exact hta

theorem beq_iff_value (ha : Normal p a) (ht : Normal p t) (hz : ¬ MixedZero a t) :
    (a == t) = true ↔ a.value = t.value := by
  rw [beq_iff_eq]
  constructor
  · intro h
    rw [h]
  · intro h
    have hpos := magnitude_add_pos ha ht
    have hneg : a.negative = t.negative := by
      by_contra hn
      have := hpos hn hz
      simp only [value] at h
      cases hna : a.negative <;> cases hnt : t.negative <;> simp [hna, hnt] at h hn <;> omega
    have hmag : a.magnitude = t.magnitude := by
      simp only [value, hneg] at h
      cases hnt : t.negative <;> simp [hnt] at h <;> omega
    obtain ⟨hsec, hnsec⟩ := ha.magnitude_inj ht hmag
    cases a
    cases t
    simp_all

theorem agreesWithValues_iff (ha : Normal p a) (ht : Normal p t) :
    AgreesWithValues a t ↔ ¬ MixedZero a t := by
  constructor
  · intro h hz
    have hval : a.value = t.value := by
      obtain ⟨hza, hzt, -⟩ := hz
      rw [isNull_iff] at hza hzt
      simp [value, magnitude, hza.1, hza.2, hzt.1, hzt.2]
    have heq := h.eq.2 hval
    rw [beq_iff_eq] at heq
    exact hz.2.2 (by rw [heq])
  · intro hz
    have heq := beq_iff_value ha ht hz
    have hgt := isBiggerThan_iff_value ha ht hz
    refine ⟨heq, ?_, ?_, hgt, ?_⟩
    · rw [less, Bool.not_eq_true', ← Bool.not_eq_true, notLess, Bool.or_eq_true, heq, hgt]
      omega
    · rw [lessOrEqual, Bool.or_eq_true, Bool.not_eq_true', ← Bool.not_eq_true, heq, hgt]
      omega
    · rw [notLess, Bool.or_eq_true, heq, hgt]
      omega

/-- Exactly one of the comparisons holds, whatever the values are. -/
theorem less_add_beq_add_bigger (a b : TimeInterval) :
    (a.less b).toNat + (a == b).toNat + (a.isBiggerThan b).toNat = 1 := by
  have hirrefl : a = b → a.isBiggerThan b = false := by
    rintro rfl
    simp [isBiggerThan, isAbsBiggerThan]
  cases heq : a == b with
  | true =>
    have := hirrefl (beq_iff_eq.1 heq)
    simp [less, notLess, heq, this]
  | false => cases hgt : a.isBiggerThan b <;> simp [less, notLess, heq, hgt]

/-- The difference of an interval with itself is zero, with the sign of the interval. -/
theorem sub_self_eq (ha : Normal p a) : a.sub p a = some ⟨0, 0, a.negative⟩ := by
  have hne : a.neg.negative ≠ a.negative := by
    cases h : a.negative <;> simp [TimeInterval.neg, h]
  have hb : a.neg.isAbsBiggerThan a = false := by simp [isAbsBiggerThan, TimeInterval.neg]
  rw [sub, add_other ha.tame ha.neg.tame hne, hb, if_neg Bool.false_ne_true]
  simp [minus, TimeInterval.neg]

/-- The comparisons agree with the values exactly for intervals that are not zeros of
different signs. An interval less itself is the null interval exactly if it is not
negative. -/
theorem comparisons_agree_iff (p : Platform) (a b : TimeInterval) (ha : Normal p a)
    (hb : Normal p b) :
    ((AgreesWithValues a b ∧
        (a.less b).toNat + (a == b).toNat + (a.isBiggerThan b).toNat = 1) ↔
      ¬ (a.isNull = true ∧ b.isNull = true ∧ a.negative ≠ b.negative)) ∧
    ((∃ r, a.sub p a = some r ∧ (r == null) = true) ↔ a.negative = false) := by
  constructor
  · rw [and_iff_left (less_add_beq_add_bigger a b)]
    exact agreesWithValues_iff ha hb
  · rw [sub_self_eq ha]
    simp [null]

theorem comparisons_agree_iff_minute :
    Normal Platform.lp64 ⟨60, 0, false⟩ ∧ Normal Platform.lp64 ⟨60, 1, true⟩ ∧
      AgreesWithValues ⟨60, 0, false⟩ ⟨60, 1, true⟩ := by
  have ha : Normal Platform.lp64 ⟨60, 0, false⟩ := ⟨by decide, by decide, by decide, by decide⟩
  have hb : Normal Platform.lp64 ⟨60, 1, true⟩ := ⟨by decide, by decide, by decide, by decide⟩
  exact ⟨ha, hb, ((comparisons_agree_iff _ _ _ ha hb).1.2 (by decide)).1⟩

/-- The null interval and its negation have the same value, but are not equal; and a
negative interval less itself is not the null interval. -/
theorem comparisons_disagree_on_zero :
    Normal Platform.lp64 null ∧ null.neg.value = null.value ∧ (null.neg == null) = false ∧
      null.neg.less null = true ∧
    ∃ r, sub Platform.lp64 ⟨1, 0, true⟩ ⟨1, 0, true⟩ = some r ∧ r.value = 0 ∧
      (r == null) = false :=
  ⟨⟨by decide, by decide, by decide, by decide⟩, by decide, by decide, by decide,
    ⟨0, 0, true⟩, by decide, by decide, by decide⟩

end TimeInterval

end Zth
