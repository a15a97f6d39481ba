import Zth.Time.Arithmetic

/-!
# Conversions of integers to time intervals

Intervals are made from integers of any type, in seconds or in a fraction of a second, for
a `time_t` and a `long` of 64 bits. Which constructor is taken depends on the type of the
argument: a `long` is a `time_t`, which is the number of seconds as it stands; every other
type is split into a sign and a magnitude. The fractions of a second are divided in the
type of the argument, by a divisor that is converted to this type first.
-/

namespace Zth

/-- The types of integers. -/
inductive IntArg
  | schar
  | uchar
  | short
  | ushort
  | int
  | uint
  | long
  | ulong
  | longLong
  | ulongLong
deriving DecidableEq, Repr

namespace IntArg

def type : IntArg → IntType
  | schar => ⟨true, 8, by decide⟩
  | uchar => ⟨false, 8, by decide⟩
  | short => ⟨true, 16, by decide⟩
  | ushort => ⟨false, 16, by decide⟩
  | int => ⟨true, 32, by decide⟩
  | uint => ⟨false, 32, by decide⟩
  | long => ⟨true, 64, by decide⟩
  | ulong => ⟨false, 64, by decide⟩
  | longLong => ⟨true, 64, by decide⟩
  | ulongLong => ⟨false, 64, by decide⟩

/-- The type in which operations on the argument are done. -/
def promoted : IntArg → IntType
  | schar => int.type
  | uchar => int.type
  | short => int.type
  | ushort => int.type
  | c => c.type

theorem min_nonpos (c : IntArg) : c.type.min ≤ 0 := by cases c <;> decide

/-- The least number of a type with sign is further from zero than the largest. -/
theorem min_le_neg_max (c : IntArg) (h : c.type.signed = true) : c.type.min ≤ -c.type.max := by
  cases c <;> first | decide | exact absurd h (by decide)

theorem max_le (c : IntArg) : c.type.max ≤ 18446744073709551615 := by cases c <;> decide

theorem le_min (c : IntArg) : -9223372036854775808 ≤ c.type.min := by cases c <;> decide

theorem promoted_fits {c : IntArg} {x : ℤ} (h : c.type.Fits x) : c.promoted.Fits x := by
  have hmin : c.promoted.min ≤ c.type.min := by cases c <;> decide
  have hmax : c.type.max ≤ c.promoted.max := by cases c <;> decide
  exact ⟨le_trans hmin h.1, le_trans h.2 hmax⟩

/-- Without sign, nothing is below zero. -/
theorem nonneg_of_fits {c : IntArg} {x : ℤ} (hs : c.type.signed = false) (h : c.type.Fits x) :
    0 ≤ x := by
  have hmin : c.type.min = 0 := by simp [IntType.min, hs]
  exact hmin ▸ h.1

end IntArg

namespace TimeInterval

open Platform (lp64)

/-- The largest interval. -/
def maximal : TimeInterval := ⟨lp64.timeMax, 999999999, false⟩

def initInt (c : IntArg) (dt : ℤ) : Option TimeInterval := do
  let abs ← if 0 ≤ dt then some dt else c.promoted.arith (-dt)
  return ⟨lp64.time.wrap abs, 0, dt < 0⟩

/-- The constructor that an argument of the type selects. -/
def ofInt : IntArg → ℤ → Option TimeInterval
  | .long, s => some ⟨s, 0, false⟩
  | c, dt => initInt c dt

def fromS (c : IntArg) (s : ℤ) : Option TimeInterval :=
  if lp64.timeMax < s then some maximal else ofInt c s

/-- The variable `s_`: the argument divided by the unit, in the type of the argument. -/
def quotient (c : IntArg) (n unit : ℤ) : Option ℤ :=
  if c.type.wrap unit = 0 then none
  else (c.promoted.arith (n.tdiv (c.type.wrap unit))).map c.type.wrap

/-- The argument in a unit of which `perSecond` are a second, each of `scale` nanoseconds. -/
def fromUnit (perSecond scale : ℤ) (c : IntArg) (n : ℤ) : Option TimeInterval := do
  let s ← quotient c n perSecond
  if lp64.timeMax < IntArg.ulongLong.type.wrap s then
    return maximal
  let nsec ← lp64.long.arith ((lp64.long.wrap n).tmod perSecond * scale)
  return ⟨lp64.time.wrap s, nsec, false⟩

def fromMs (c : IntArg) (ms : ℤ) : Option TimeInterval := fromUnit 1000 1000000 c ms

def fromUs (c : IntArg) (us : ℤ) : Option TimeInterval := fromUnit 1000000 1000 c us

/-- Here the limit is tested without a conversion. -/
def fromNs (c : IntArg) (ns : ℤ) : Option TimeInterval := do
  let s ← quotient c ns 1000000000
  if lp64.timeMax < s then
    return maximal
  return ⟨lp64.time.wrap s, (lp64.long.wrap ns).tmod 1000000000, false⟩

/-- The constructor from `std::chrono::nanoseconds`, which count in a `long`. -/
def ofChrono (ns : ℤ) : Option TimeInterval := fromNs .long ns

/-- The conversion to `std::chrono::nanoseconds`. -/
def toChrono (t : TimeInterval) : Option ℤ := do
  let s ← lp64.long.arith (t.sec * BILLION)
  lp64.long.arith (s + t.nsec)

/-- The interval is normal and has the given value, or is the largest one if no interval
has that value. -/
def Faithful (r : Option TimeInterval) (ns : ℤ) : Prop :=
  ∃ t, r = some t ∧ t.isNormal = true ∧
    if -maximal.value ≤ ns ∧ ns ≤ maximal.value then t.value = ns else t = maximal

variable {c : IntArg} {n : ℤ} {t : TimeInterval}

theorem timeMax_eq : lp64.timeMax = 9223372036854775807 := rfl

theorem value_maximal : maximal.value = 9223372036854775807999999999 := rfl

theorem time_wrap_of_le (h0 : -9223372036854775808 ≤ n) (h : n ≤ 9223372036854775807) :
    lp64.time.wrap n = n :=
  IntType.wrap_of_fits ⟨h0, h⟩

theorem long_wrap_of_le (h0 : -9223372036854775808 ≤ n) (h : n ≤ 9223372036854775807) :
    lp64.long.wrap n = n :=
  IntType.wrap_of_fits ⟨h0, h⟩

/-- A unit that the type cannot hold is larger than every number of the type. -/
theorem lt_of_wrap_ne {unit : ℤ} (h0 : 0 ≤ unit) (hd : c.type.wrap unit ≠ unit)
    (hn : c.type.Fits n) : n < unit := by
  by_contra hle
  have := c.min_nonpos
  exact hd (IntType.wrap_of_fits ⟨by omega, by have := hn.2; omega⟩)

/-- The quotient in the type of an argument that is not below zero. -/
theorem quotient_eq {unit : ℤ} (hn : c.type.Fits n) (h0 : 0 ≤ n) (hd : c.type.wrap unit ≠ 0) :
    quotient c n unit = some (n.tdiv (c.type.wrap unit)) := by
  have habs := Int.natAbs_tdiv_le_natAbs n (c.type.wrap unit)
  have hfits : c.type.Fits (n.tdiv (c.type.wrap unit)) := by
    obtain ⟨-, hmax⟩ := hn
    cases hs : c.type.signed with
    | true =>
      have := c.min_le_neg_max hs
      constructor <;> omega
    | false =>
      have hpos : 0 ≤ c.type.wrap unit := by
        simp only [IntType.wrap, hs, Bool.false_eq_true, if_false]
        exact Int.emod_nonneg _ (Int.pow_ne_zero (by decide))
      have := Int.tdiv_nonneg h0 hpos
      have := c.min_nonpos
      constructor <;> omega
  rw [quotient, if_neg hd, IntType.arith_of_fits (IntArg.promoted_fits hfits)]
  simp [IntType.wrap_of_fits hfits]

theorem tdiv_eq_zero_iff {d : ℤ} (h0 : 0 ≤ n) (hd : d ≠ 0) : n.tdiv d = 0 ↔ n < d.natAbs := by
  rw [← Int.natAbs_eq_zero, Int.natAbs_tdiv]
  have hpos : 0 < d.natAbs := Int.natAbs_pos.2 hd
  have hdiv : n.natAbs.div d.natAbs = 0 ↔ n.natAbs < d.natAbs :=
    Nat.div_eq_zero_iff_lt hpos
  omega

/-- An interval without sign is faithful to nothing below zero. -/
theorem Faithful.nonneg {ns : ℤ} (h : Faithful (some t) ns) (hn : t.negative = false)
    (hlo : -maximal.value ≤ ns) : 0 ≤ ns := by
  obtain ⟨t', ht', hnormal, hval⟩ := h
  obtain rfl : t = t' := Option.some_inj.1 ht'
  by_contra hneg
  rw [if_pos ⟨hlo, by rw [value_maximal]; omega⟩] at hval
  rw [isNormal_iff] at hnormal
  simp only [value, hn, Bool.false_eq_true, if_false, magnitude, BILLION] at *
  omega

theorem not_faithful_maximal {ns : ℤ} (hlo : -maximal.value ≤ ns) (hhi : ns < maximal.value) :
    ¬ Faithful (some maximal) ns := by
  rintro ⟨t, ht, -, hval⟩
  obtain rfl : maximal = t := Option.some_inj.1 ht
  rw [if_pos ⟨hlo, le_of_lt hhi⟩] at hval
  omega

theorem not_faithful_of_sec_neg {sec nsec ns : ℤ} {negative : Bool} (h : sec < 0) :
    ¬ Faithful (some ⟨sec, nsec, negative⟩) ns := by
  rintro ⟨t, ht, hnormal, -⟩
  rw [← Option.some_inj.1 ht, isNormal_iff] at hnormal
  have hsec : 0 ≤ sec := hnormal.1
  omega

/-- The seconds decide when the rest is the remainder of the argument. -/
theorem faithful_split_iff {sec unit scale : ℤ} (hunit : 0 < unit) (hscale : 0 < scale)
    (hB : unit * scale = BILLION) (h0 : 0 ≤ n) (hhi : n * scale ≤ maximal.value) :
    Faithful (some ⟨sec, n.tmod unit * scale, false⟩) (n * scale) ↔ sec = n / unit := by
  have hmod : n.tmod unit = n % unit := Int.tmod_eq_emod_of_nonneg h0
  have hrest : n * scale = n / unit * BILLION + n % unit * scale := by
    rw [← hB, ← Int.mul_assoc, ← Int.add_mul, Int.ediv_mul_add_emod]
  have hnsec0 : 0 ≤ n % unit * scale :=
    Int.mul_nonneg (Int.emod_nonneg _ (by omega)) (by omega)
  have hnsec1 : n % unit * scale < BILLION := by
    rw [← hB]
    exact Int.mul_lt_mul_of_pos_right (Int.emod_lt_of_pos n hunit) hscale
  have hlo : -maximal.value ≤ n * scale := by
    have : 0 ≤ n * scale := Int.mul_nonneg h0 (by omega)
    rw [value_maximal]
    omega
  have hq : 0 ≤ n / unit := Int.ediv_nonneg h0 (by omega)
  rw [hmod]
  constructor
  · rintro ⟨t, ht, -, hval⟩
    rw [if_pos ⟨hlo, hhi⟩, ← Option.some_inj.1 ht, hrest] at hval
    simp only [value, magnitude, Bool.false_eq_true, if_false, BILLION] at hval
    omega
  · rintro rfl
    refine ⟨_, rfl, (isNormal_iff _).2 ⟨hq, hnsec0, hnsec1⟩, ?_⟩
    rw [if_pos ⟨hlo, hhi⟩, hrest]
    simp [value, magnitude]

/-- The remainder of a number that has been converted to one below zero is wrong. -/
theorem not_faithful_split {sec unit scale : ℤ} (hscale : 0 < scale)
    (hB : unit * scale = BILLION) (hdvd : ¬ unit ∣ 18446744073709551616)
    (h0 : 0 ≤ n) (h1 : n ≤ 18446744073709551616) (hhi : n * scale ≤ maximal.value) :
    ¬ Faithful (some ⟨sec, (n - 18446744073709551616).tmod unit * scale, false⟩) (n * scale) := by
  rintro ⟨t, ht, hnormal, hval⟩
  rw [← Option.some_inj.1 ht, isNormal_iff] at hnormal
  have hlo : -maximal.value ≤ n * scale := by
    have : 0 ≤ n * scale := Int.mul_nonneg h0 (by omega)
    rw [value_maximal]
    omega
  have hzero : (n - 18446744073709551616).tmod unit = 0 := by
    have hle : (n - 18446744073709551616).tmod unit ≤ 0 := by
      have := Int.tmod_nonneg unit (show 0 ≤ -(n - 18446744073709551616) by omega)
      rw [Int.neg_tmod] at this
      omega
    exact le_antisymm hle (Int.nonneg_of_mul_nonneg_left hnormal.2.1 hscale)
  have hdvd' : unit ∣ n - 18446744073709551616 := Int.dvd_of_tmod_eq_zero hzero
  have hdvd'' : unit ∣ n := by
    rw [if_pos ⟨hlo, hhi⟩, ← Option.some_inj.1 ht, hzero] at hval
    simp only [value, magnitude, Bool.false_eq_true, if_false, Int.zero_mul, Int.add_zero] at hval
    rw [← hB, ← Int.mul_assoc] at hval
    exact ⟨sec, by rw [Int.mul_comm]; exact (Int.eq_of_mul_eq_mul_right (by omega) hval).symm⟩
  have := Int.dvd_sub hdvd'' hdvd'
  exact hdvd (by simpa using this)

/-- The argument is not below zero, a `long` can hold it, and it is divided by the unit,
or it is smaller than what the unit has become. -/
def Splits (c : IntArg) (unit n : ℤ) : Prop :=
  0 ≤ n ∧ n ≤ lp64.long.max ∧ (c.type.wrap unit = unit ∨ n < (c.type.wrap unit).natAbs)

instance (c : IntArg) (unit n : ℤ) : Decidable (Splits c unit n) :=
  inferInstanceAs (Decidable (_ ∧ _ ∧ _))

theorem long_max_eq : lp64.long.max = 9223372036854775807 := rfl

/-- What the quotient is good for. -/
theorem tdiv_wrap_eq_iff {unit : ℤ} (hunit : 0 < unit) (hn : c.type.Fits n) (h0 : 0 ≤ n)
    (hd : c.type.wrap unit ≠ 0) :
    n.tdiv (c.type.wrap unit) = n / unit ↔
      c.type.wrap unit = unit ∨ n < (c.type.wrap unit).natAbs := by
  by_cases heq : c.type.wrap unit = unit
  · rw [heq, Int.tdiv_eq_ediv_of_nonneg h0]
    exact iff_of_true rfl (Or.inl rfl)
  · rw [Int.ediv_eq_zero_of_lt h0 (lt_of_wrap_ne (le_of_lt hunit) heq hn),
      tdiv_eq_zero_iff h0 hd]
    exact ⟨Or.inr, fun h => h.resolve_left heq⟩

/-- A number beyond `long` is divided by the unit itself. -/
theorem wrap_unit_eq {unit : ℤ} (h0 : 0 ≤ unit) (hle : unit ≤ 1000000000) (hn : c.type.Fits n)
    (hlong : lp64.long.max < n) : c.type.wrap unit = unit := by
  by_contra hne
  have := lt_of_wrap_ne h0 hne hn
  rw [long_max_eq] at hlong
  omega

theorem long_wrap_of_gt (h : lp64.long.max < n) (hn : c.type.Fits n) :
    lp64.long.wrap n = n - 18446744073709551616 := by
  have hmax := hn.2
  have := c.max_le
  rw [long_max_eq] at h
  change n.bmod 18446744073709551616 = _
  rw [Int.bmod_def]
  omega

theorem ulongLong_wrap_of_nonneg (h0 : 0 ≤ n) (h : n ≤ 18446744073709551615) :
    IntArg.ulongLong.type.wrap n = n :=
  IntType.wrap_of_fits ⟨h0, h⟩

theorem ulongLong_wrap_of_neg (h : n < 0) (h' : -9223372036854775808 ≤ n) :
    IntArg.ulongLong.type.wrap n = n + 18446744073709551616 := by
  change n % 18446744073709551616 = _
  omega

theorem fromUnit_negative {perSecond scale : ℤ} (h : fromUnit perSecond scale c n = some t) :
    t.negative = false := by
  unfold fromUnit at h
  cases hq : quotient c n perSecond with
  | none => simp [hq] at h
  | some s =>
    simp only [hq, Option.bind_eq_bind, Option.bind_some] at h
    split at h
    · rw [← Option.some_inj.1 h]
      rfl
    · obtain ⟨nsec, -, hnsec⟩ := Option.bind_eq_some_iff.1 h
      rw [← Option.some_inj.1 hnsec]

theorem fromNs_negative (h : fromNs c n = some t) : t.negative = false := by
  unfold fromNs at h
  cases hq : quotient c n 1000000000 with
  | none => simp [hq] at h
  | some s =>
    simp only [hq, Option.bind_eq_bind, Option.bind_some] at h
    split at h
    · rw [← Option.some_inj.1 h]
      rfl
    · rw [← Option.some_inj.1 h]

/-- In every unit, the nanoseconds of an argument can be held by an interval. -/
theorem mul_scale_bounds {scale : ℤ} (hn : c.type.Fits n) (h0 : 0 < scale)
    (h : scale ≤ 1000000) : -maximal.value ≤ n * scale ∧ n * scale < maximal.value := by
  have hlo : -9223372036854775808 ≤ n := le_trans c.le_min hn.1
  have hhi : n ≤ 18446744073709551615 := le_trans hn.2 c.max_le
  rw [value_maximal]
  constructor
  · calc
      -9223372036854775807999999999 ≤ -9223372036854775808 * 1000000 := by decide
      _ ≤ -9223372036854775808 * scale := by omega
      _ ≤ n * scale := Int.mul_le_mul_of_nonneg_right hlo (le_of_lt h0)
  · calc
      n * scale ≤ 18446744073709551615 * scale :=
        Int.mul_le_mul_of_nonneg_right hhi (le_of_lt h0)
      _ ≤ 18446744073709551615 * 1000000 := by omega
      _ < 9223372036854775807999999999 := by decide

/-- A number above the largest `long` gets other nanoseconds. -/
theorem not_faithful_of_gt {r : Option TimeInterval} {unit scale : ℤ}
    (hunit : 0 < unit) (hle : unit ≤ 1000000000) (hscale : 0 < scale)
    (hB : unit * scale = BILLION) (hdvd : ¬ unit ∣ 18446744073709551616) (hn : c.type.Fits n)
    (hlong : lp64.long.max < n) (hhi : n * scale < maximal.value)
    (hpos : ∀ s, quotient c n unit = some s → 0 ≤ s → s ≤ lp64.timeMax →
      r = some ⟨s, (lp64.long.wrap n).tmod unit * scale, false⟩) :
    ¬ Faithful r (n * scale) := by
  have hmax : n ≤ 18446744073709551615 := le_trans hn.2 c.max_le
  have h0 : 0 ≤ n := by
    rw [long_max_eq] at hlong
    omega
  have hwrap := wrap_unit_eq (le_of_lt hunit) hle hn hlong
  have hq := quotient_eq hn h0 (hwrap ▸ ne_of_gt hunit)
  rw [hwrap, Int.tdiv_eq_ediv_of_nonneg h0] at hq
  have htwo : 2 ≤ unit := by
    by_contra hlt
    obtain rfl : unit = 1 := by omega
    exact hdvd (Int.one_dvd _)
  have hqle : n / unit ≤ lp64.timeMax := by
    have hlt : n / unit < 9223372036854775808 := Int.ediv_lt_of_lt_mul hunit (by omega)
    rw [timeMax_eq]
    omega
  rw [hpos _ hq (Int.ediv_nonneg h0 (le_of_lt hunit)) hqle, long_wrap_of_gt hlong hn]
  exact not_faithful_split hscale hB hdvd h0 (by omega) (le_of_lt hhi)

/-- A division into seconds and a remainder is right exactly for the arguments that split,
whatever it does when the quotient is below zero. -/
theorem faithful_iff_splits {r : Option TimeInterval} {unit scale : ℤ}
    (hunit : 0 < unit) (hle : unit ≤ 1000000000) (hscale : 0 < scale) (hscale' : scale ≤ 1000000)
    (hB : unit * scale = BILLION) (hdvd : ¬ unit ∣ 18446744073709551616) (hn : c.type.Fits n)
    (hneg : ∀ t, r = some t → t.negative = false)
    (hnone : quotient c n unit = none → r = none)
    (hpos : ∀ s, quotient c n unit = some s → 0 ≤ s → s ≤ lp64.timeMax →
      r = some ⟨s, (lp64.long.wrap n).tmod unit * scale, false⟩)
    (hbelow : ∀ s, quotient c n unit = some s → s < 0 → -9223372036854775808 ≤ s →
      ¬ Faithful r (n * scale)) :
    Faithful r (n * scale) ↔ Splits c unit n := by
  obtain ⟨hlo, hhi⟩ := mul_scale_bounds hn hscale hscale'
  have hmax : n ≤ 18446744073709551615 := le_trans hn.2 c.max_le
  by_cases h0 : 0 ≤ n
  · by_cases hd : c.type.wrap unit = 0
    · -- A division by zero.
      rw [hnone (by rw [quotient, if_pos hd])]
      refine iff_of_false (by simp [Faithful]) fun h => ?_
      have := h.2.2
      rw [hd] at this
      omega
    · have hq := quotient_eq hn h0 hd
      by_cases hlong : lp64.long.max < n
      · refine iff_of_false (not_faithful_of_gt hunit hle hscale hB hdvd hn hlong hhi hpos)
          fun h => ?_
        have := h.2.1
        omega
      · have hbound := Int.natAbs_tdiv_le_natAbs n (c.type.wrap unit)
        rw [long_max_eq] at hlong
        have hsplits : Splits c unit n ↔ n.tdiv (c.type.wrap unit) = n / unit := by
          rw [tdiv_wrap_eq_iff hunit hn h0 hd, Splits, long_max_eq]
          exact ⟨fun h => h.2.2, fun h => ⟨h0, by omega, h⟩⟩
        rw [hsplits]
        by_cases hq0 : 0 ≤ n.tdiv (c.type.wrap unit)
        · rw [hpos _ hq hq0 (by rw [timeMax_eq]; omega), long_wrap_of_le (by omega) (by omega)]
          exact faithful_split_iff hunit hscale hB h0 (le_of_lt hhi)
        · refine iff_of_false (hbelow _ hq (by omega) (by omega)) fun h => hq0 ?_
          rw [h]
          exact Int.ediv_nonneg h0 (le_of_lt hunit)
  · refine iff_of_false (fun h => ?_) fun h => h0 h.1
    obtain ⟨t, ht, hrest⟩ := h
    have hnonneg := Faithful.nonneg ⟨t, rfl, hrest⟩ (hneg t ht) hlo
    exact h0 (Int.nonneg_of_mul_nonneg_left hnonneg hscale)

theorem tmod_mul_fits {m unit scale : ℤ} (hunit : 0 < unit) (hscale : 0 < scale)
    (hB : unit * scale = BILLION) : lp64.long.Fits (m.tmod unit * scale) := by
  have hlo : -unit * scale ≤ m.tmod unit * scale :=
    Int.mul_le_mul_of_nonneg_right (le_of_lt (Int.lt_tmod_of_pos m hunit)) (le_of_lt hscale)
  have hhi : m.tmod unit * scale ≤ unit * scale :=
    Int.mul_le_mul_of_nonneg_right (le_of_lt (Int.tmod_lt_of_pos m hunit)) (le_of_lt hscale)
  rw [Int.neg_mul, hB] at hlo
  rw [hB] at hhi
  simp only [BILLION] at hlo hhi
  exact lp64.long_fits (by omega) (by omega)

theorem fromUnit_of_nonneg {unit scale s : ℤ} (hunit : 0 < unit) (hscale : 0 < scale)
    (hB : unit * scale = BILLION) (hq : quotient c n unit = some s) (h0 : 0 ≤ s)
    (hs : s ≤ lp64.timeMax) :
    fromUnit unit scale c n = some ⟨s, (lp64.long.wrap n).tmod unit * scale, false⟩ := by
  have hnot : ¬ lp64.timeMax < s := by omega
  rw [timeMax_eq] at hs
  have hu : IntArg.ulongLong.type.wrap s = s := ulongLong_wrap_of_nonneg h0 (by omega)
  have ht : lp64.time.wrap s = s := time_wrap_of_le (by omega) hs
  simp [fromUnit, hq, hu, hnot, IntType.arith_of_fits (tmod_mul_fits hunit hscale hB), ht]

theorem fromUnit_of_neg {unit scale s : ℤ} (hq : quotient c n unit = some s) (h0 : s < 0)
    (hs : -9223372036854775808 ≤ s) : fromUnit unit scale c n = some maximal := by
  have hlt : lp64.timeMax < IntArg.ulongLong.type.wrap s := by
    rw [ulongLong_wrap_of_neg h0 hs, timeMax_eq]
    omega
  simp [fromUnit, hq, hlt]

theorem faithful_fromUnit_iff {unit scale : ℤ} (hunit : 0 < unit) (hle : unit ≤ 1000000000)
    (hscale : 0 < scale) (hscale' : scale ≤ 1000000) (hB : unit * scale = BILLION)
    (hdvd : ¬ unit ∣ 18446744073709551616) (hn : c.type.Fits n) :
    Faithful (fromUnit unit scale c n) (n * scale) ↔ Splits c unit n := by
  apply faithful_iff_splits hunit hle hscale hscale' hB hdvd hn
  · intro t ht
    exact fromUnit_negative ht
  · intro hq
    simp [fromUnit, hq]
  · intro s hq h0 hs
    exact fromUnit_of_nonneg hunit hscale hB hq h0 hs
  · intro s hq h0 hs
    obtain ⟨hlo, hhi⟩ := mul_scale_bounds hn hscale hscale'
    rw [fromUnit_of_neg hq h0 hs]
    exact not_faithful_maximal hlo hhi

theorem faithful_fromMs_iff (hn : c.type.Fits n) :
    Faithful (fromMs c n) (n * 1000000) ↔ Splits c 1000 n :=
  faithful_fromUnit_iff (by decide) (by decide) (by decide) (by decide) rfl (by decide) hn

theorem faithful_fromUs_iff (hn : c.type.Fits n) :
    Faithful (fromUs c n) (n * 1000) ↔ Splits c 1000000 n :=
  faithful_fromUnit_iff (by decide) (by decide) (by decide) (by decide) rfl (by decide) hn

theorem fromNs_eq {s : ℤ} (hq : quotient c n 1000000000 = some s)
    (h0 : -9223372036854775808 ≤ s) (hs : s ≤ lp64.timeMax) :
    fromNs c n = some ⟨s, (lp64.long.wrap n).tmod 1000000000, false⟩ := by
  have hnot : ¬ lp64.timeMax < s := by omega
  have ht : lp64.time.wrap s = s := time_wrap_of_le h0 hs
  simp [fromNs, hq, hnot, ht]

theorem faithful_fromNs_iff (hn : c.type.Fits n) :
    Faithful (fromNs c n) n ↔ Splits c 1000000000 n := by
  have hiff : Faithful (fromNs c n) (n * 1) ↔ Splits c 1000000000 n := by
    apply faithful_iff_splits (by decide) (by decide) (by decide) (by decide) rfl (by decide) hn
    · intro t ht
      exact fromNs_negative ht
    · intro hq
      simp [fromNs, hq]
    · intro s hq h0 hs
      rw [fromNs_eq hq (by omega) hs, Int.mul_one]
    · intro s hq h0 hs
      -- The seconds of the interval are below zero.
      rw [fromNs_eq hq hs (by rw [timeMax_eq]; omega)]
      exact not_faithful_of_sec_neg h0
  rwa [Int.mul_one] at hiff

/-- Whole seconds are right, with and without sign. -/
theorem faithful_seconds {sec : ℤ} (h0 : 0 ≤ sec) (h : sec ≤ lp64.timeMax) (negative : Bool) :
    Faithful (some ⟨sec, 0, negative⟩)
      (if negative then -(sec * BILLION) else sec * BILLION) := by
  rw [timeMax_eq] at h
  refine ⟨_, rfl, (isNormal_iff _).2 ⟨h0, le_rfl, (by decide : (0 : ℤ) < BILLION)⟩, ?_⟩
  rw [if_pos]
  · simp [value, magnitude]
  · rw [value_maximal]
    simp only [BILLION]
    split <;> omega

theorem ofInt_eq (h : c ≠ .long) : ofInt c n = initInt c n := by
  cases c <;> first | rfl | exact absurd rfl h

theorem initInt_of_nonneg (h0 : 0 ≤ n) : initInt c n = some ⟨lp64.time.wrap n, 0, false⟩ := by
  have hneg : ¬ n < 0 := by omega
  simp [initInt, h0, hneg]

theorem initInt_of_neg (h0 : n < 0) :
    initInt c n = (c.promoted.arith (-n)).map fun abs => ⟨lp64.time.wrap abs, 0, true⟩ := by
  have hneg : ¬ 0 ≤ n := by omega
  cases h : c.promoted.arith (-n) <;> simp [initInt, hneg, h0, h]

/-- The types with numbers below zero. -/
theorem IntArg.promoted_of_neg (hn : c.type.Fits n) (h0 : n < 0) :
    c.promoted.signed = true ∧ c.promoted.max ≤ lp64.timeMax := by
  have hs : c.type.signed = true := by
    cases hs : c.type.signed with
    | true => rfl
    | false =>
      have := IntArg.nonneg_of_fits hs hn
      omega
  cases c <;> first | decide | exact absurd hs (by decide)

theorem faithful_initInt_iff (hn : c.type.Fits n) :
    Faithful (initInt c n) (n * BILLION) ↔
      (0 ≤ n ∧ n ≤ lp64.timeMax) ∨ (n < 0 ∧ c.promoted.Fits (-n)) := by
  by_cases h0 : 0 ≤ n
  · rw [initInt_of_nonneg h0]
    by_cases hle : n ≤ lp64.timeMax
    · rw [time_wrap_of_le (by omega) hle]
      exact iff_of_true (faithful_seconds h0 hle false) (Or.inl ⟨h0, hle⟩)
    · refine iff_of_false ?_ (by omega)
      -- The conversion to `time_t` gives a number below zero.
      have hwrap : lp64.time.wrap n = n - 18446744073709551616 :=
        long_wrap_of_gt (not_le.1 hle) hn
      have hmax := le_trans hn.2 c.max_le
      exact not_faithful_of_sec_neg (by omega)
  · have hneg : n < 0 := by omega
    obtain ⟨hsigned, hmax⟩ := IntArg.promoted_of_neg hn hneg
    rw [initInt_of_neg hneg]
    by_cases hfits : c.promoted.Fits (-n)
    · have hle := le_trans hfits.2 hmax
      rw [IntType.arith_of_fits hfits, Option.map_some, time_wrap_of_le (by omega) hle]
      have hright := faithful_seconds (show 0 ≤ -n by omega) hle true
      rw [if_pos rfl, Int.neg_mul, Int.neg_neg] at hright
      exact iff_of_true hright (Or.inr ⟨hneg, hfits⟩)
    · rw [IntType.arith_eq_none hsigned hfits]
      refine iff_of_false (by simp [Faithful]) ?_
      rintro (⟨h, -⟩ | ⟨-, h⟩)
      · exact h0 h
      · exact hfits h

theorem faithful_ofInt_iff (hn : c.type.Fits n) :
    Faithful (ofInt c n) (n * BILLION) ↔
      (0 ≤ n ∧ n ≤ lp64.timeMax) ∨ (n < 0 ∧ c ≠ .long ∧ c.promoted.Fits (-n)) := by
  by_cases hc : c = .long
  · subst hc
    have hle : n ≤ lp64.timeMax := hn.2
    by_cases h0 : 0 ≤ n
    · exact iff_of_true (faithful_seconds h0 hle false) (Or.inl ⟨h0, hle⟩)
    · refine iff_of_false (not_faithful_of_sec_neg (not_le.1 h0)) ?_
      rintro (⟨h, -⟩ | ⟨-, h, -⟩)
      · exact h0 h
      · exact h rfl
  · rw [ofInt_eq hc, faithful_initInt_iff hn]
    simp [hc]

theorem faithful_fromS_iff (hn : c.type.Fits n) :
    Faithful (fromS c n) (n * BILLION) ↔
      0 ≤ n ∨ (c ≠ .long ∧ c.promoted.Fits (-n)) := by
  unfold fromS
  by_cases hlt : lp64.timeMax < n
  · rw [if_pos hlt]
    rw [timeMax_eq] at hlt
    refine iff_of_true ⟨maximal, rfl, by decide, ?_⟩ (Or.inl (by omega))
    rw [if_neg]
    rw [value_maximal]
    simp only [BILLION]
    omega
  · rw [if_neg hlt, faithful_ofInt_iff hn]
    constructor
    · rintro (⟨h, -⟩ | ⟨-, h⟩)
      · exact Or.inl h
      · exact Or.inr h
    · rintro (h | h)
      · exact Or.inl ⟨h, not_lt.1 hlt⟩
      · by_cases h0 : 0 ≤ n
        · exact Or.inl ⟨h0, not_lt.1 hlt⟩
        · exact Or.inr ⟨not_le.1 h0, h⟩

/-- The conversion to nanoseconds gives the magnitude, if anything. -/
theorem eq_of_toChrono {x : ℤ} (h : toChrono t = some x) : x = t.magnitude := by
  obtain ⟨s, hs, hx⟩ := Option.bind_eq_some_iff.1 h
  rw [IntType.eq_of_arith rfl hx, IntType.eq_of_arith rfl hs]
  rfl

theorem toChrono_eq (hs : lp64.long.Fits (t.sec * BILLION)) (h : lp64.long.Fits t.magnitude) :
    toChrono t = some t.magnitude := by
  simp only [toChrono, IntType.arith_of_fits hs, Option.bind_eq_bind, Option.bind_some]
  exact IntType.arith_of_fits h

theorem toChrono_iff (ht : Normal lp64 t) (h : lp64.long.Fits t.value) :
    toChrono t = some t.value ↔ t.negative = false ∨ t.isNull = true := by
  have h0 := ht.magnitude_nonneg
  constructor
  · intro heq
    by_contra hnot
    obtain ⟨hn, hz⟩ := not_or.1 hnot
    rw [Bool.not_eq_false] at hn
    have hpos := ht.magnitude_pos (Bool.not_eq_true _ ▸ hz)
    have hval := eq_of_toChrono heq
    simp only [value, hn, if_true] at hval
    omega
  · intro hor
    have hval : t.value = t.magnitude := by
      rcases hor with hn | hz
      · simp [value, hn]
      · rw [isNull_iff] at hz
        simp [value, magnitude, hz.1, hz.2]
    rw [hval] at h ⊢
    obtain ⟨hsec, -, hnsec, -⟩ := ht
    refine toChrono_eq ⟨?_, ?_⟩ h
    · exact le_trans (by decide : lp64.long.min ≤ 0) (Int.mul_nonneg hsec (by decide))
    · refine le_trans ?_ h.2
      simp only [magnitude]
      omega

theorem ofChrono_eq {x : ℤ} (hx : lp64.long.Fits x) :
    ofChrono x = some ⟨x.tdiv 1000000000, x.tmod 1000000000, false⟩ := by
  have hdiv : (x.tdiv 1000000000).natAbs = x.natAbs / 1000000000 := Int.natAbs_tdiv x 1000000000
  have hlo : -9223372036854775808 ≤ x := hx.1
  have hhi : x ≤ 9223372036854775807 := hx.2
  have hfits : lp64.long.Fits (x.tdiv 1000000000) := by
    constructor
    · change -9223372036854775808 ≤ _
      omega
    · change _ ≤ 9223372036854775807
      omega
  have hq : quotient .long x 1000000000 = some (x.tdiv 1000000000) := by
    have hwrap : IntArg.long.type.wrap 1000000000 = 1000000000 := by decide
    rw [quotient, hwrap, if_neg (by decide)]
    change (lp64.long.arith _).map lp64.long.wrap = _
    rw [IntType.arith_of_fits hfits, Option.map_some, IntType.wrap_of_fits hfits]
  rw [ofChrono, fromNs_eq hq (by omega) (by rw [timeMax_eq]; omega), IntType.wrap_of_fits hx]

/-- An interval from nanoseconds is converted back to them, also below zero, where it is
not normal. -/
theorem toChrono_ofChrono {x : ℤ} (hx : lp64.long.Fits x) :
    (ofChrono x).bind toChrono = some x := by
  have hmod : (x.tmod 1000000000).natAbs = x.natAbs % 1000000000 := Int.natAbs_tmod x 1000000000
  have hdef := Int.tmod_def x 1000000000
  have hlo : -9223372036854775808 ≤ x := hx.1
  have hhi : x ≤ 9223372036854775807 := hx.2
  have hmag : (⟨x.tdiv 1000000000, x.tmod 1000000000, false⟩ : TimeInterval).magnitude = x := by
    simp only [magnitude, BILLION]
    omega
  rw [ofChrono_eq hx, Option.bind_some, toChrono_eq ?_ (by rwa [hmag]), hmag]
  have hsign : 0 ≤ x → 0 ≤ x.tmod 1000000000 := Int.tmod_nonneg 1000000000
  have hsign' : 0 ≤ -x → 0 ≤ -(x.tmod 1000000000) := by
    rw [← Int.neg_tmod]
    exact Int.tmod_nonneg 1000000000
  constructor
  · change -9223372036854775808 ≤ x.tdiv 1000000000 * 1000000000
    omega
  · change x.tdiv 1000000000 * 1000000000 ≤ 9223372036854775807
    omega

/-- For each conversion, the arguments for which it is right. -/
theorem conversions_faithful_iff (c : IntArg) (n : ℤ) :
    (c.type.Fits n →
      (Faithful (ofInt c n) (n * BILLION) ↔
        (0 ≤ n ∧ n ≤ lp64.timeMax) ∨ (n < 0 ∧ c ≠ .long ∧ c.promoted.Fits (-n))) ∧
      (Faithful (fromS c n) (n * BILLION) ↔ 0 ≤ n ∨ (c ≠ .long ∧ c.promoted.Fits (-n))) ∧
      (Faithful (fromMs c n) (n * 1000000) ↔ Splits c 1000 n) ∧
      (Faithful (fromUs c n) (n * 1000) ↔ Splits c 1000000 n) ∧
      (Faithful (fromNs c n) n ↔ Splits c 1000000000 n)) ∧
    (∀ x, lp64.long.Fits x → (Faithful (ofChrono x) x ↔ 0 ≤ x)) ∧
    (∀ t, Normal lp64 t → lp64.long.Fits t.value →
      (toChrono t = some t.value ↔ t.negative = false ∨ t.isNull = true)) ∧
    (∀ x, lp64.long.Fits x → (ofChrono x).bind toChrono = some x) := by
  refine ⟨fun hn => ?_, fun x hx => ?_, fun t ht h => toChrono_iff ht h, fun x hx => ?_⟩
  · exact ⟨faithful_ofInt_iff hn, faithful_fromS_iff hn, faithful_fromMs_iff hn,
      faithful_fromUs_iff hn, faithful_fromNs_iff hn⟩
  · have hiff : Faithful (ofChrono x) x ↔ Splits .long 1000000000 x := faithful_fromNs_iff hx
    rw [hiff]
    have hwrap : IntArg.long.type.wrap 1000000000 = 1000000000 := by decide
    exact ⟨fun h => h.1, fun h => ⟨h, hx.2, Or.inl hwrap⟩⟩
  · exact toChrono_ofChrono hx

theorem conversions_faithful_iff_short :
    IntArg.short.type.Fits (-32768) ∧ Faithful (ofInt .short (-32768)) (-32768000000000) ∧
      ¬ Faithful (fromMs .short (-32768)) (-32768000000) := by
  have hfits : IntArg.short.type.Fits (-32768) := by decide
  obtain ⟨hint, -, hms, -⟩ := (conversions_faithful_iff .short (-32768)).1 hfits
  exact ⟨hfits, hint.2 (by decide), fun h => absurd (hms.1 h) (by decide)⟩

/-- A millisecond and a nanosecond below zero give intervals that are not normal, and the
largest number without sign gives less than no nanoseconds. A `long` of minus a second is
not the interval of minus a second, and a negative interval is converted to a positive
number. -/
theorem conversions_not_faithful :
    ¬ Faithful (fromMs .long (-1)) (-1000000) ∧
    fromMs .long (-1) = some ⟨0, -1000000, false⟩ ∧
    ofChrono (-1) = some ⟨0, -1, false⟩ ∧
    fromUs .ulong 18446744073709551615 = some ⟨18446744073709, -1000, false⟩ ∧
    ofInt .long (-1) = some ⟨-1, 0, false⟩ ∧
    Normal lp64 ⟨1, 0, true⟩ ∧ value ⟨1, 0, true⟩ = -1000000000 ∧
    toChrono ⟨1, 0, true⟩ = some 1000000000 := by
  refine ⟨?_, by decide, by decide, by decide, by decide, ?_, by decide, by decide⟩
  · rintro ⟨t, ht, hnormal, -⟩
    have heq : fromMs .long (-1) = some ⟨0, -1000000, false⟩ := by decide
    rw [heq, Option.some_inj] at ht
    rw [← ht] at hnormal
    exact absurd hnormal (by decide)
  · exact ⟨by decide, by decide, by decide, by decide⟩

end TimeInterval

end Zth
