import Zth.Library.Run
import Zth.Time.Timestamp

/-!
# Periodic wake up

A fiber that naps periodically keeps the time of its last deadline. The next one is an
interval later; a deadline that has just passed is not slept for, and when a whole interval
more has passed, the time of the call takes its place.

The deadlines are exact as long as the additions do not saturate, also when the
nanoseconds are left at a billion, which happens for every sum that ends on a whole second.
-/

namespace Zth

structure PeriodicWakeUp where
  interval : TimeInterval
  t : Timestamp
deriving DecidableEq, Repr

/-- What `nap` does before it returns. -/
inductive Pause
  | nap (sleepUntil : Timestamp)
  | yield
deriving DecidableEq, Repr

namespace PeriodicWakeUp

open TimeInterval

def nap (enableAssert : Bool) (p : Platform) (w : PeriodicWakeUp) (reference now : Timestamp) :
    Option (PeriodicWakeUp × Pause × Bool) := do
  let t ← reference.add enableAssert p w.interval
  if now.isBefore t then
    -- Proper sleep till next deadline.
    return ({ w with t := t }, .nap t, true)
  let next ← t.add enableAssert p w.interval
  if now.isBefore next then
    -- Deadline has just passed.
    return ({ w with t := t }, .yield, false)
  -- Way passed deadline.
  return ({ w with t := now }, .yield, false)

/-- A call of `nap` with the last deadline as the reference, at the time `now`. -/
def step (enableAssert : Bool) (p : Platform) (w : PeriodicWakeUp) (now : Timestamp) :
    Option PeriodicWakeUp :=
  (w.nap enableAssert p w.t now).map Prod.fst

/-- The interval is positive and finite. -/
structure Positive (p : Platform) (dt : TimeInterval) : Prop where
  normal : Normal p dt
  negative : dt.negative = false
  isNull : dt.isNull = false
  isInfinite : dt.isInfiniteOn p = false

/-- A reading of the clock: its nanoseconds are in range, and it is finite. -/
structure Reading (p : Platform) (now : Timestamp) : Prop where
  normal : Normal p now.toInterval
  isInfinite : now.toInterval.isInfiniteOn p = false

/-- What is asked of a call: where the deadline is, and what the call does. -/
structure Good (p : Platform) (w w' : PeriodicWakeUp) (now : Timestamp) (pause : Pause)
    (res : Bool) : Prop where
  interval : w'.interval = w.interval
  deadline :
    (¬ Saturates p w.t.toInterval w.interval ∧ w'.t.value = w.t.value + w.interval.value) ∨
    (Saturates p w.t.toInterval w.interval ∧ w'.t.toInterval.isInfiniteOn p = true) ∨
    (w'.t = now ∧ w.t.value + 2 * w.interval.value ≤ now.value)
  next : now.value < w'.t.value + w.interval.value
  true_iff : res = true ↔ now.value < w'.t.value
  pause : pause = if res then .nap w'.t else .yield

variable {p : Platform} {w : PeriodicWakeUp} {now t : Timestamp} {dt : TimeInterval}

theorem Positive.value_eq (h : Positive p dt) : dt.value = dt.sec * BILLION + dt.nsec := by
  simp only [TimeInterval.value, h.negative, Bool.false_eq_true, if_false, magnitude]

theorem Positive.value_pos (h : Positive p dt) : 0 < dt.value := by
  have hpos := h.normal.magnitude_pos h.isNull
  simpa only [TimeInterval.value, h.negative, Bool.false_eq_true, if_false] using hpos

/-- A finite reading is before everything that saturates. -/
theorem Reading.isBefore_saturated (h : Reading p now) {nsec : ℤ} :
    now.isBefore ⟨p.timeMax, nsec⟩ = true := by
  have hfin : now.sec ≤ p.timeMax / 2 := (isInfiniteOn_eq_false_iff p _).1 h.isInfinite
  have hmax := p.timeMax_spec
  rw [Timestamp.isBefore_iff]
  left
  simp only
  omega

/-- When an interval added to a deadline that has passed saturates, the sum has not passed. -/
theorem Reading.value_lt_of_saturates (h : Reading p now) (hdt : Positive p dt)
    (ht : Tame p t.toInterval) (hle : t.value ≤ now.value) (hs : Saturates p t.toInterval dt) :
    now.value < t.value + dt.value := by
  obtain ⟨-, -, hn2, hn3⟩ := h.normal
  obtain ⟨-, -, ht2, -⟩ := ht
  obtain ⟨-, -, hd2, -⟩ := hdt.normal
  have hfin : now.sec ≤ p.timeMax / 2 := (isInfiniteOn_eq_false_iff p _).1 h.isInfinite
  have hdfin := (isInfiniteOn_eq_false_iff p _).1 hdt.isInfinite
  have hmax := p.timeMax_spec
  rw [Timestamp.value_eq, Timestamp.value_eq] at hle
  rw [Timestamp.value_eq, Timestamp.value_eq, hdt.value_eq]
  simp only [Saturates, isInfiniteOn_iff, Timestamp.toInterval, BILLION] at *
  omega

/-- What a call does. -/
theorem nap_good (enableAssert : Bool) (ht : Tame p w.t.toInterval)
    (hdt : Positive p w.interval) (hnow : Reading p now) :
    ∃ w' pause res, w.nap enableAssert p w.t now = some (w', pause, res) ∧
      Tame p w'.t.toInterval ∧ Good p w w' now pause res := by
  have hpos := hdt.value_pos
  obtain ⟨t, hadd, htame, -, hsat, hexact⟩ :=
    Timestamp.add_spec_of_nonneg enableAssert ht hdt.normal.tame hdt.negative
  have hlt_iff := Timestamp.isBefore_iff_value hnow.normal htame
  by_cases hbefore : now.isBefore t = true
  · refine ⟨{ w with t := t }, .nap t, true, by simp [nap, hadd, hbefore], htame, rfl, ?_, ?_, ?_,
      rfl⟩
    · by_cases hs : Saturates p w.t.toInterval w.interval
      · refine Or.inr (Or.inl ⟨hs, ?_⟩)
        have hmax := p.timeMax_spec
        rw [isInfiniteOn_iff]
        simp only [hsat hs, Timestamp.toInterval]
        omega
      · exact Or.inl ⟨hs, hexact hs⟩
    · have := hlt_iff.1 hbefore
      simp only
      omega
    · exact ⟨fun _ => hlt_iff.1 hbefore, fun _ => rfl⟩
  · -- The deadline has passed, so it has not been set by a sum that saturates.
    have hs : ¬ Saturates p w.t.toInterval w.interval := by
      intro hs
      rw [hsat hs] at hbefore
      exact hbefore hnow.isBefore_saturated
    have hle : t.value ≤ now.value := by
      rw [hlt_iff] at hbefore
      omega
    obtain ⟨next, hnext, hntame, -, hnsat, hnexact⟩ :=
      Timestamp.add_spec_of_nonneg enableAssert htame hdt.normal.tame hdt.negative
    have hnlt_iff := Timestamp.isBefore_iff_value hnow.normal hntame
    by_cases hnbefore : now.isBefore next = true
    · refine ⟨{ w with t := t }, .yield, false, by simp [nap, hadd, hbefore, hnext, hnbefore],
        htame, rfl, Or.inl ⟨hs, hexact hs⟩, ?_, ?_, rfl⟩
      · by_cases hns : Saturates p t.toInterval w.interval
        · exact hnow.value_lt_of_saturates hdt htame hle hns
        · rw [← hnexact hns]
          exact hnlt_iff.1 hnbefore
      · exact ⟨fun h => absurd h Bool.false_ne_true, fun h => by simp only at h; omega⟩
    · have hns : ¬ Saturates p t.toInterval w.interval := by
        intro hns
        rw [hnsat hns] at hnbefore
        exact hnbefore hnow.isBefore_saturated
      have hnle : next.value ≤ now.value := by
        rw [hnlt_iff] at hnbefore
        omega
      refine ⟨{ w with t := now }, .yield, false, by simp [nap, hadd, hbefore, hnext, hnbefore],
        hnow.normal.tame, rfl, Or.inr (Or.inr ⟨rfl, ?_⟩), ?_, ?_, rfl⟩
      · rw [hnexact hns, hexact hs] at hnle
        omega
      · simp only
        omega
      · exact ⟨fun h => absurd h Bool.false_ne_true, fun h => by simp only at h; omega⟩

theorem step_of_nap {enableAssert : Bool} {w' : PeriodicWakeUp} {pause : Pause} {res : Bool}
    (h : w.nap enableAssert p w.t now = some (w', pause, res)) :
    w.step enableAssert p now = some w' := by
  rw [step, h]
  rfl

/-- Calls never fail, and keep the interval. -/
theorem exists_run_tame (enableAssert : Bool) (readings : List Timestamp)
    (ht : Tame p w.t.toInterval) (hdt : Positive p w.interval)
    (hr : ∀ now ∈ readings, Reading p now) :
    ∃ u, Transition.run (step enableAssert p) w readings = some u ∧ Tame p u.t.toInterval ∧
      u.interval = w.interval := by
  induction readings generalizing w with
  | nil => exact ⟨w, rfl, ht, rfl⟩
  | cons now readings ih =>
    obtain ⟨w', pause, res, hnap, htame, hgood⟩ :=
      nap_good enableAssert ht hdt (hr now (List.mem_cons_self ..))
    obtain ⟨u, hu, hut, hui⟩ := ih htame (hgood.interval.symm ▸ hdt)
      fun now h => hr now (List.mem_cons_of_mem _ h)
    exact ⟨u, Transition.run_cons_eq_some_iff.2 ⟨w', step_of_nap hnap, hu⟩, hut,
      hui.trans hgood.interval⟩

/-- A sum that is finite does not saturate. -/
theorem not_saturates_of_lt (ht : Tame p t.toInterval) (hdt : Positive p dt)
    (h : t.value + dt.value < (p.timeMax / 2 + 1) * BILLION) :
    ¬ Saturates p t.toInterval dt := by
  obtain ⟨ht0, -, ht2, -⟩ := ht
  obtain ⟨hd0, -, hd2, -⟩ := hdt.normal
  have hmax := p.timeMax_spec
  rw [Timestamp.value_eq, hdt.value_eq] at h
  simp only [Saturates, isInfiniteOn_iff, Timestamp.toInterval, BILLION] at *
  omega

/-- A call that is not late by a whole interval moves the deadline by the interval. -/
theorem nap_deadline (enableAssert : Bool) (ht : Tame p w.t.toInterval)
    (hdt : Positive p w.interval) (hnow : Reading p now)
    (hlate : now.value < w.t.value + 2 * w.interval.value)
    (hfin : w.t.value + w.interval.value < (p.timeMax / 2 + 1) * BILLION) :
    ∃ w', w.step enableAssert p now = some w' ∧ Tame p w'.t.toInterval ∧
      w'.interval = w.interval ∧ w'.t.value = w.t.value + w.interval.value := by
  obtain ⟨w', pause, res, hnap, htame, hgood⟩ := nap_good enableAssert ht hdt hnow
  refine ⟨w', step_of_nap hnap, htame, hgood.interval, ?_⟩
  rcases hgood.deadline with ⟨-, h⟩ | ⟨h, -⟩ | ⟨-, h⟩
  · exact h
  · exact absurd h (not_saturates_of_lt ht hdt hfin)
  · omega

/-- Without calls that are late by a whole interval, the deadlines do not drift. -/
theorem run_deadline (enableAssert : Bool) (readings : List Timestamp)
    (ht : Tame p w.t.toInterval) (hdt : Positive p w.interval)
    (hr : ∀ now ∈ readings, Reading p now)
    (hlate : ∀ (i : ℕ) (hi : i < readings.length),
      readings[i].value < w.t.value + (i + 1) * w.interval.value + w.interval.value)
    (hfin : w.t.value + readings.length * w.interval.value < (p.timeMax / 2 + 1) * BILLION) :
    ∃ u, Transition.run (step enableAssert p) w readings = some u ∧
      u.t.value = w.t.value + readings.length * w.interval.value := by
  induction readings generalizing w with
  | nil => exact ⟨w, rfl, by simp⟩
  | cons now readings ih =>
    have hpos := hdt.value_pos
    have hlen : ((now :: readings).length : ℤ) * w.interval.value =
        readings.length * w.interval.value + w.interval.value := by
      rw [List.length_cons, Int.natCast_add, Int.natCast_one, Int.add_mul, Int.one_mul]
    have hrest : 0 ≤ (readings.length : ℤ) * w.interval.value :=
      Int.mul_nonneg (Int.natCast_nonneg _) (le_of_lt hpos)
    rw [hlen] at hfin
    have hfirst := hlate 0 (by simp)
    rw [List.getElem_cons_zero] at hfirst
    obtain ⟨w', hstep, htame, hinterval, hvalue⟩ :=
      nap_deadline enableAssert ht hdt (hr now (List.mem_cons_self ..)) (by simp at hfirst; omega)
        (by omega)
    obtain ⟨u, hu, hut⟩ := ih htame (hinterval.symm ▸ hdt)
      (fun now h => hr now (List.mem_cons_of_mem _ h))
      (fun i hi => by
        have := hlate (i + 1) (by simpa using hi)
        rw [List.getElem_cons_succ] at this
        rw [hvalue, hinterval]
        push_cast at this
        rw [Int.add_mul (i + 1) 1, Int.one_mul] at this
        omega)
      (by rw [hvalue, hinterval]; omega)
    refine ⟨u, Transition.run_cons_eq_some_iff.2 ⟨w', hstep, hu⟩, ?_⟩
    rw [hut, hvalue, hinterval, hlen]
    omega

/-- Every call of every sequence is good, and as long as no call is late by a whole
interval and the deadlines are finite, the last deadline is as many intervals after the
start as there were calls. -/
theorem naps_do_not_drift (enableAssert : Bool) (p : Platform) (dt : TimeInterval)
    (start : Timestamp) (readings : List Timestamp) (hdt : Positive p dt)
    (hstart : Normal p start.toInterval) (hr : ∀ now ∈ readings, Reading p now) :
    (∀ before now after, readings = before ++ now :: after →
      ∃ w w' pause res, Transition.run (step enableAssert p) ⟨dt, start⟩ before = some w ∧
        w.interval = dt ∧ w.nap enableAssert p w.t now = some (w', pause, res) ∧
        Good p w w' now pause res) ∧
    ((∀ (i : ℕ) (hi : i < readings.length),
        readings[i].value < start.value + (i + 1) * dt.value + dt.value) →
      start.value + readings.length * dt.value < (p.timeMax / 2 + 1) * BILLION →
      ∃ u, Transition.run (step enableAssert p) ⟨dt, start⟩ readings = some u ∧
        u.t.value = start.value + readings.length * dt.value) := by
  constructor
  · rintro before now after rfl
    obtain ⟨w, hw, htame, hinterval⟩ :=
      exists_run_tame (w := ⟨dt, start⟩) enableAssert before hstart.tame hdt
        fun now h => hr now (List.mem_append_left _ h)
    have hnow : Reading p now := hr now (by simp)
    obtain ⟨w', pause, res, hnap, -, hgood⟩ :=
      nap_good enableAssert htame (hinterval.symm ▸ hdt) hnow
    exact ⟨w, w', pause, res, hw, hinterval, hnap, hgood⟩
  · intro hlate hfin
    exact run_deadline (w := ⟨dt, start⟩) enableAssert readings hstart.tame hdt hr hlate hfin

/-- The first deadline is on a whole second, and the second call is late, but by less than
an interval. -/
theorem naps_do_not_drift_late :
    Positive Platform.lp64 ⟨0, 500000000, false⟩ ∧
    Normal Platform.lp64 (Timestamp.toInterval ⟨7, 500000000⟩) ∧
    ∃ u, Transition.run (step true Platform.lp64) ⟨⟨0, 500000000, false⟩, ⟨7, 500000000⟩⟩
        [⟨7, 600000000⟩, ⟨8, 700000000⟩] = some u ∧ u.t.value = 8500000000 := by
  have hdt : Positive Platform.lp64 ⟨0, 500000000, false⟩ :=
    ⟨⟨by decide, by decide, by decide, by decide⟩, rfl, by decide, by decide⟩
  have hstart : Normal Platform.lp64 (Timestamp.toInterval ⟨7, 500000000⟩) :=
    ⟨by decide, by decide, by decide, by decide⟩
  have hr : ∀ now ∈ [(⟨7, 600000000⟩ : Timestamp), ⟨8, 700000000⟩],
      Reading Platform.lp64 now := by
    intro now h
    rcases List.mem_pair.1 h with rfl | rfl <;>
      exact ⟨⟨by decide, by decide, by decide, by decide⟩, by decide⟩
  have hlate : ∀ (i : ℕ) (hi : i < [(⟨7, 600000000⟩ : Timestamp), ⟨8, 700000000⟩].length),
      [(⟨7, 600000000⟩ : Timestamp), ⟨8, 700000000⟩][i].value <
        Timestamp.value ⟨7, 500000000⟩ + (i + 1) * TimeInterval.value ⟨0, 500000000, false⟩ +
          TimeInterval.value ⟨0, 500000000, false⟩ := by
    decide
  exact ⟨hdt, hstart, (naps_do_not_drift true _ _ _ _ hdt hstart hr).2 hlate (by decide)⟩

/-- With a large interval, the second deadline is neither the first one plus the interval
nor the time of the call. -/
theorem naps_saturate :
    Positive Platform.lp64 ⟨4611686018427387903, 0, false⟩ ∧
    Transition.run (step true Platform.lp64) ⟨⟨4611686018427387903, 0, false⟩, ⟨1000, 0⟩⟩
        [⟨1000, 0⟩] = some ⟨⟨4611686018427387903, 0, false⟩, ⟨4611686018427388903, 0⟩⟩ ∧
    Transition.run (step true Platform.lp64) ⟨⟨4611686018427387903, 0, false⟩, ⟨1000, 0⟩⟩
        [⟨1000, 0⟩, ⟨1000, 1⟩] =
      some ⟨⟨4611686018427387903, 0, false⟩, ⟨9223372036854775807, 0⟩⟩ ∧
    Timestamp.value ⟨9223372036854775807, 0⟩ ≠
      Timestamp.value ⟨4611686018427388903, 0⟩ +
        TimeInterval.value ⟨4611686018427387903, 0, false⟩ := by
  refine ⟨⟨⟨?_, ?_, ?_, ?_⟩, rfl, ?_, ?_⟩, ?_, ?_, ?_⟩ <;> decide

end PeriodicWakeUp

end Zth
