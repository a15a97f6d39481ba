import Zth.Time.Arithmetic

/-!
# Timestamps

A timestamp is a point in time in seconds and nanoseconds, compared with the seconds
first. An interval is added to it by the addition of intervals, of which the result is
asserted not to be negative.
-/

namespace Zth

@[ext]
structure Timestamp where
  sec : ℤ
  nsec : ℤ
deriving DecidableEq, Repr

namespace Timestamp

def null : Timestamp := ⟨0, 0⟩

def isBefore (a b : Timestamp) : Bool :=
  a.sec < b.sec || (a.sec == b.sec && a.nsec < b.nsec)

def isAfter (a b : Timestamp) : Bool := b.isBefore a

/-- The interval of the same seconds and nanoseconds. -/
def toInterval (t : Timestamp) : TimeInterval := ⟨t.sec, t.nsec, false⟩

/-- The operator `+`. The assertion stands in the code only with `enableAssert`. -/
def add (enableAssert : Bool) (p : Platform) (t : Timestamp) (dt : TimeInterval) :
    Option Timestamp := do
  let r ← t.toInterval.add p dt
  if enableAssert && r.isNegative then none
  return ⟨r.sec, r.nsec⟩

/-- The operator `-`. -/
def sub (enableAssert : Bool) (p : Platform) (t : Timestamp) (dt : TimeInterval) :
    Option Timestamp :=
  t.add enableAssert p dt.neg

/-- The number of nanoseconds. -/
def value (t : Timestamp) : ℤ := t.toInterval.value

variable {enableAssert : Bool} {p : Platform} {t : Timestamp} {dt : TimeInterval}

theorem isBefore_iff (a b : Timestamp) :
    a.isBefore b = true ↔ a.sec < b.sec ∨ (a.sec = b.sec ∧ a.nsec < b.nsec) := by
  simp only [isBefore, Bool.or_eq_true, Bool.and_eq_true, decide_eq_true_eq, beq_iff_eq]

theorem isBefore_eq_false_iff (a b : Timestamp) :
    a.isBefore b = false ↔ b.sec < a.sec ∨ (a.sec = b.sec ∧ b.nsec ≤ a.nsec) := by
  rw [← Bool.not_eq_true, isBefore_iff]
  omega

theorem value_eq (t : Timestamp) : t.value = t.sec * TimeInterval.BILLION + t.nsec := by
  simp only [value, toInterval, TimeInterval.value, Bool.false_eq_true, if_false,
    TimeInterval.magnitude]

theorem value_mk {i : TimeInterval} (hn : i.negative = false) :
    value ⟨i.sec, i.nsec⟩ = i.value := by
  simp only [value_eq, TimeInterval.value, hn, Bool.false_eq_true, if_false,
    TimeInterval.magnitude]

theorem add_of_nonneg {r : TimeInterval} (hr : t.toInterval.add p dt = some r)
    (hn : r.negative = false) : t.add enableAssert p dt = some ⟨r.sec, r.nsec⟩ := by
  simp [add, hr, TimeInterval.isNegative, hn]

theorem eq_of_add {r : Timestamp} (hr : t.add enableAssert p dt = some r) :
    ∃ i, t.toInterval.add p dt = some i ∧ r = ⟨i.sec, i.nsec⟩ := by
  unfold add at hr
  cases hi : t.toInterval.add p dt with
  | none => simp [hi] at hr
  | some i =>
    simp [hi] at hr
    exact ⟨i, rfl, hr.2.symm⟩

end Timestamp

namespace TimeInterval

variable {p : Platform} {a b r : TimeInterval}

/-- The nanoseconds of a sum in the direction of the sign are a billion, which is not
carried to the seconds. -/
def CarryMissed (p : Platform) (a b : TimeInterval) : Prop :=
  a.negative = b.negative ∧ ¬ Saturates p a b ∧ a.nsec + b.nsec = BILLION

instance (p : Platform) (a b : TimeInterval) : Decidable (CarryMissed p a b) :=
  inferInstanceAs (Decidable (_ ∧ _ ∧ _))

theorem minus_nsec_lt (ha : Normal p a) (hb : Normal p b) : (a.minus b).nsec < BILLION := by
  obtain ⟨-, -, ha2, ha3⟩ := ha
  obtain ⟨-, -, hb2, hb3⟩ := hb
  unfold minus
  split <;> simp only [BILLION] at * <;> omega

theorem plus_nsec_lt_iff (ha : Normal p a) (hb : Normal p b) :
    (a.plus b).nsec < BILLION ↔ a.nsec + b.nsec ≠ BILLION := by
  obtain ⟨-, -, ha2, ha3⟩ := ha
  obtain ⟨-, -, hb2, hb3⟩ := hb
  unfold plus
  split <;> simp only [BILLION] at * <;> omega

/-- The nanoseconds of a sum are in range unless a carry is missed. -/
theorem add_nsec_lt_iff (ha : Normal p a) (hb : Normal p b) (hr : a.add p b = some r) :
    r.nsec < BILLION ↔ ¬ CarryMissed p a b := by
  by_cases hn : b.negative = a.negative
  · by_cases hs : Saturates p a b
    · rw [add_of_saturates ha.tame hn hs, Option.some_inj] at hr
      subst hr
      exact iff_of_true ha.nsec_lt fun h => h.2.1 hs
    · rw [add_of_not_saturates ha.tame hb.tame hn hs, Option.some_inj] at hr
      subst hr
      rw [plus_nsec_lt_iff ha hb]
      simp only [CarryMissed, hn, hs, not_false_iff, true_and, ne_eq]
  · rw [add_other ha.tame hb.tame hn, Option.some_inj] at hr
    subst hr
    refine iff_of_true ?_ fun h => hn h.1.symm
    cases b.isAbsBiggerThan a with
    | true => exact minus_nsec_lt hb ha
    | false => exact minus_nsec_lt ha hb

theorem isNormal_add_iff (ha : Normal p a) (hb : Normal p b) :
    (∃ r, a.add p b = some r ∧ r.isNormal = true) ↔ ¬ CarryMissed p a b := by
  obtain ⟨r, hr, htame, -⟩ := add_spec ha.tame hb.tame
  rw [← add_nsec_lt_iff ha hb hr]
  constructor
  · rintro ⟨r', hr', hnormal⟩
    obtain rfl : r = r' := Option.some_inj.1 (hr.symm.trans hr')
    exact ((isNormal_iff r).1 hnormal).2.2
  · intro h
    exact ⟨r, hr, (isNormal_iff r).2 ⟨htame.sec_nonneg, htame.nsec_nonneg, h⟩⟩

/-- The sum of an interval without sign and another one has no sign if it is not below
zero. -/
theorem add_negative_eq_false (ha : Normal p a) (hb : Normal p b) (hn : a.negative = false)
    (h : 0 ≤ a.value + b.value) (hr : a.add p b = some r) : r.negative = false := by
  cases hnb : b.negative with
  | false =>
    by_cases hs : Saturates p a b
    · rw [add_of_saturates ha.tame (hnb.trans hn.symm) hs, Option.some_inj] at hr
      rw [← hr]
      exact hn
    · rw [add_of_not_saturates ha.tame hb.tame (hnb.trans hn.symm) hs, Option.some_inj] at hr
      rw [← hr, plus_negative, hn]
  | true =>
    have hbig : b.isAbsBiggerThan a = false := by
      simp only [value, hn, hnb, if_true, Bool.false_eq_true, if_false] at h
      rw [← Bool.not_eq_true, isAbsBiggerThan_iff hb ha]
      omega
    rw [add_other ha.tame hb.tame (by simp [hn, hnb]), hbig, if_neg Bool.false_ne_true,
      Option.some_inj] at hr
    rw [← hr, minus_negative, hn]

end TimeInterval

namespace Timestamp

open TimeInterval

variable {enableAssert : Bool} {p : Platform} {t : Timestamp} {dt : TimeInterval}

/-- The nanoseconds are in the range that `clock_nanosleep` takes. -/
def InRange (t : Timestamp) : Prop := 0 ≤ t.nsec ∧ t.nsec < BILLION

theorem exists_add_of_nonneg (enableAssert : Bool) (ht : Normal p t.toInterval)
    (hdt : Normal p dt) (h : 0 ≤ t.value + dt.value) :
    ∃ i, t.toInterval.add p dt = some i ∧ 0 ≤ i.nsec ∧
      t.add enableAssert p dt = some ⟨i.sec, i.nsec⟩ := by
  obtain ⟨i, hi, htame, -⟩ := add_spec ht.tame hdt.tame
  exact ⟨i, hi, htame.nsec_nonneg, add_of_nonneg hi (add_negative_eq_false ht hdt rfl h hi)⟩

theorem inRange_add_iff (ht : Normal p t.toInterval) (hdt : Normal p dt)
    (h : 0 ≤ t.value + dt.value) :
    (∃ r, t.add enableAssert p dt = some r ∧ r.InRange) ↔ ¬ CarryMissed p t.toInterval dt := by
  obtain ⟨i, hi, hnonneg, hadd⟩ := exists_add_of_nonneg enableAssert ht hdt h
  rw [← add_nsec_lt_iff ht hdt hi, hadd]
  simp [InRange, hnonneg]

/-- When a carry is missed, the sum is not below zero. -/
theorem value_add_nonneg_of_carryMissed (ht : Normal p t.toInterval) (hdt : Normal p dt)
    (h : CarryMissed p t.toInterval dt) : 0 ≤ t.value + dt.value := by
  have hn : dt.negative = false := h.1.symm
  have hvalue : dt.value = dt.magnitude := by
    simp only [TimeInterval.value, hn, Bool.false_eq_true, if_false]
  rw [hvalue]
  exact Int.add_nonneg ht.magnitude_nonneg hdt.magnitude_nonneg

/-- An addition that returns gives nanoseconds in range unless a carry is missed. -/
theorem forall_inRange_add_iff (ht : Normal p t.toInterval) (hdt : Normal p dt) :
    (∀ r, t.add enableAssert p dt = some r → r.InRange) ↔ ¬ CarryMissed p t.toInterval dt := by
  constructor
  · intro hall hmiss
    obtain ⟨i, hi, -, hadd⟩ :=
      exists_add_of_nonneg enableAssert ht hdt (value_add_nonneg_of_carryMissed ht hdt hmiss)
    exact (add_nsec_lt_iff ht hdt hi).1 (hall _ hadd).2 hmiss
  · intro hmiss r hr
    obtain ⟨i, hi, rfl⟩ := eq_of_add hr
    obtain ⟨i', hi', htame, -⟩ := add_spec ht.tame hdt.tame
    obtain rfl : i = i' := Option.some_inj.1 (hi.symm.trans hi')
    exact ⟨htame.nsec_nonneg, (add_nsec_lt_iff ht hdt hi).2 hmiss⟩

/-!
## Intervals without sign

To a timestamp whose nanoseconds are at most a billion, an interval without sign can be
added again and again.
-/

/-- The order of timestamps agrees with their values, as soon as one has its nanoseconds
in range. -/
theorem isBefore_iff_value {a b : Timestamp} (ha : Normal p a.toInterval)
    (hb : Tame p b.toInterval) : a.isBefore b = true ↔ a.value < b.value := by
  obtain ⟨ha0, -, ha2, ha3⟩ := ha
  obtain ⟨hb0, -, hb2, hb3⟩ := hb
  rw [isBefore_iff]
  simp only [value_eq, toInterval, BILLION] at *
  omega

/-- The addition of an interval without sign. It saturates, or it is exact. -/
theorem add_spec_of_nonneg (enableAssert : Bool) (ht : Tame p t.toInterval) (hdt : Tame p dt)
    (hn : dt.negative = false) :
    ∃ r, t.add enableAssert p dt = some r ∧ Tame p r.toInterval ∧ r.isBefore t = false ∧
      (Saturates p t.toInterval dt → r = ⟨p.timeMax, t.nsec⟩) ∧
      (¬ Saturates p t.toInterval dt → r.value = t.value + dt.value) := by
  by_cases hs : Saturates p t.toInterval dt
  · have hadd := add_of_saturates ht hn hs
    refine ⟨_, add_of_nonneg hadd rfl, ?_, ?_, fun _ => rfl, fun h => absurd hs h⟩
    · exact ⟨le_trans (by decide) p.timeMax_spec.1, le_rfl, ht.nsec_nonneg, ht.nsec_le⟩
    · have hle : t.sec ≤ p.timeMax := ht.sec_le
      rw [isBefore_eq_false_iff]
      simp only [toInterval]
      omega
  · have hadd := add_of_not_saturates ht hdt hn hs
    have htame := ht.plus hdt hs
    have hvalue : (t.toInterval.plus dt).value = t.value + dt.value := value_plus hn
    have hneg : (t.toInterval.plus dt).negative = false := plus_negative _ _
    refine ⟨_, add_of_nonneg hadd hneg, ?_, ?_, fun h => absurd h hs, fun _ => ?_⟩
    · exact ⟨htame.sec_nonneg, htame.sec_le, htame.nsec_nonneg, htame.nsec_le⟩
    · obtain ⟨hd0, -, hd2, -⟩ := hdt
      rw [isBefore_eq_false_iff]
      unfold TimeInterval.plus
      split <;> simp only [toInterval] <;> omega
    · rw [← hvalue]
      exact value_mk hneg

/-- The addition of an interval that is not below zero does not go back. -/
theorem add_not_before (enableAssert : Bool) (ht : Tame p t.toInterval) (hdt : Tame p dt)
    (h : 0 ≤ dt.value) :
    ∃ r, t.add enableAssert p dt = some r ∧ Tame p r.toInterval ∧ r.isBefore t = false := by
  cases hn : dt.negative with
  | false =>
    obtain ⟨r, hr, htame, hbefore, -⟩ := add_spec_of_nonneg enableAssert ht hdt hn
    exact ⟨r, hr, htame, hbefore⟩
  | true =>
    -- Only zero has a sign here, and nothing is subtracted.
    have hd0 := hdt.sec_nonneg
    have hd2 := hdt.nsec_nonneg
    simp only [TimeInterval.value, hn, if_true, magnitude, BILLION] at h
    obtain ⟨hsec, hnsec⟩ : dt.sec = 0 ∧ dt.nsec = 0 := by omega
    have hbig : dt.isAbsBiggerThan t.toInterval = false := by
      have h0 := ht.sec_nonneg
      have h2 := ht.nsec_nonneg
      simp only [isAbsBiggerThan, hsec, hnsec, Bool.or_eq_false_iff, Bool.and_eq_false_iff,
        decide_eq_false_iff_not]
      omega
    have hminus : t.toInterval.minus dt = t.toInterval := by
      have h2 : 0 ≤ t.nsec := ht.nsec_nonneg
      simp [TimeInterval.minus, hsec, hnsec, toInterval, h2]
    have hadd : t.toInterval.add p dt = some t.toInterval := by
      rw [add_other ht hdt (by simp [hn, toInterval]), hbig, if_neg Bool.false_ne_true, hminus]
    refine ⟨t, add_of_nonneg hadd rfl, ht, ?_⟩
    rw [isBefore_eq_false_iff]
    exact Or.inr ⟨rfl, le_rfl⟩

/-!
## Results in range
-/

/-- Sums and differences are normal again. A timestamp less an interval is asserted not
to be negative, so it may not return when it is. -/
structure StaysNormal (enableAssert : Bool) (p : Platform) (a b : TimeInterval)
    (t : Timestamp) : Prop where
  add : ∃ r, a.add p b = some r ∧ r.isNormal = true
  sub : ∃ r, a.sub p b = some r ∧ r.isNormal = true
  neg : a.neg.isNormal = true
  later : ∃ r, t.add enableAssert p a = some r ∧ r.InRange
  earlier : ∀ r, t.sub enableAssert p a = some r → r.InRange
  earlier_returns : 0 ≤ t.value - a.value → (t.sub enableAssert p a).isSome = true

/-- Normal intervals and timestamps stay normal exactly if none of the four sums misses a
carry. -/
theorem staysNormal_iff (enableAssert : Bool) (p : Platform) (a b : TimeInterval)
    (t : Timestamp) (ha : Normal p a) (hb : Normal p b) (ht : Normal p t.toInterval)
    (hnonneg : 0 ≤ t.value + a.value) :
    StaysNormal enableAssert p a b t ↔
      ¬ CarryMissed p a b ∧ ¬ CarryMissed p a b.neg ∧
      ¬ CarryMissed p t.toInterval a ∧ ¬ CarryMissed p t.toInterval a.neg := by
  constructor
  · intro h
    exact ⟨(isNormal_add_iff ha hb).1 h.add, (isNormal_add_iff ha hb.neg).1 h.sub,
      (inRange_add_iff ht ha hnonneg).1 h.later, (forall_inRange_add_iff ht ha.neg).1 h.earlier⟩
  · rintro ⟨hadd, hsub, hlater, hearlier⟩
    refine ⟨(isNormal_add_iff ha hb).2 hadd, (isNormal_add_iff ha hb.neg).2 hsub,
      ha.neg.isNormal, (inRange_add_iff ht ha hnonneg).2 hlater,
      (forall_inRange_add_iff ht ha.neg).2 hearlier, ?_⟩
    intro h
    rw [Int.sub_eq_add_neg, ← value_neg] at h
    obtain ⟨i, -, -, hi⟩ := exists_add_of_nonneg enableAssert ht ha.neg h
    rw [sub, hi]
    rfl

theorem staysNormal_iff_second :
    Normal Platform.lp64 ⟨0, 600000000, false⟩ ∧
    Normal Platform.lp64 (toInterval ⟨1, 500000000⟩) ∧
    StaysNormal true Platform.lp64 ⟨0, 600000000, false⟩ ⟨0, 600000000, false⟩
      ⟨1, 500000000⟩ := by
  have ha : Normal Platform.lp64 ⟨0, 600000000, false⟩ :=
    ⟨by decide, by decide, by decide, by decide⟩
  have ht : Normal Platform.lp64 (toInterval ⟨1, 500000000⟩) :=
    ⟨by decide, by decide, by decide, by decide⟩
  exact ⟨ha, ht, (staysNormal_iff true _ _ _ _ ha ha ht (by decide)).2
    ⟨by decide, by decide, by decide, by decide⟩⟩

/-- Half a second and half a second are no second and a billion nanoseconds. -/
theorem half_add_half_not_normal :
    Normal Platform.lp64 ⟨0, 500000000, false⟩ ∧
    (⟨0, 500000000, false⟩ : TimeInterval).add Platform.lp64 ⟨0, 500000000, false⟩ =
      some ⟨0, 1000000000, false⟩ ∧
    (⟨0, 1000000000, false⟩ : TimeInterval).isNormal = false ∧
    (⟨7, 500000000⟩ : Timestamp).add true Platform.lp64 ⟨0, 500000000, false⟩ =
      some ⟨7, 1000000000⟩ :=
  ⟨⟨by decide, by decide, by decide, by decide⟩, by decide, by decide, by decide⟩

end Timestamp

end Zth
