import Mathlib.Algebra.BigOperators.Intervals
import Mathlib.Data.ZMod.Basic
import Mathlib.Tactic.FieldSimp
import Mathlib.Tactic.Linarith
import Mathlib.Tactic.Ring
import Zth.Time.Timestamp

/-!
# The rate of an event

`EventRate` counts events in bins, one for each window of time, and keeps the last few of them in
a ring. `event` proceeds to the bin of the current window, and starts all over when that takes all
bins. `rate` is the mean over the bins but one, as the first one and the last one are partial.

Where a window ends is the sum of a timestamp and an interval. If that misses its carry, an event
right at the end is in the next bin already, where it is in the bin that ends there otherwise. So
the bins are described by cuts in the sequence of events, and an event right at a cut may be on
either side of it.

Numbers of type `T` are exact.
-/

namespace Zth

namespace Perf

open TimeInterval

/-- The interval of so many ns. -/
def nsInterval (w : ℕ) : TimeInterval := ⟨(w : ℤ) / BILLION, (w : ℤ) % BILLION, false⟩

/-- The timestamp of so many ns. -/
def nsTimestamp (t : ℕ) : Timestamp := ⟨(t : ℤ) / BILLION, (t : ℤ) % BILLION⟩

/-- `n` is `Bins`. -/
structure EventRate (n : ℕ) where
  windowS : ℚ
  window : TimeInterval
  binStart : Timestamp
  bins : ZMod n → ℕ
  current : ZMod n

namespace EventRate

variable {n : ℕ}

/-- The constructor, for a window of so many ns. -/
def new (n window : ℕ) : EventRate n :=
  ⟨(window : ℚ) / 10 ^ 9, nsInterval window, Timestamp.null, fun _ => 0, 0⟩

/-- Proceed to the next bin, which starts where the current one stops. -/
def next (stop : Timestamp) (e : EventRate n) : EventRate n :=
  { e with
    current := e.current + 1
    bins := Function.update e.bins (e.current + 1) 0
    binStart := stop }

section Code

variable (enableAssert : Bool) (p : Platform)

/-- Where the current bin stops. -/
def stop (e : EventRate n) : Option Timestamp := e.binStart.add enableAssert p e.window

/-- The loop of `event`, which proceeds by as many bins at most. It returns how many of them are
left. -/
def proceed (now : Timestamp) : ℕ → EventRate n → Option (ℕ × EventRate n)
  | 0, e => (e.stop enableAssert p).map fun _ => (0, e)
  | left + 1, e =>
      (e.stop enableAssert p).bind fun stop =>
        if stop.isBefore now then proceed now left (e.next stop) else some (left + 1, e)

/-- `count_type` has `counts` values. -/
def event (counts : ℕ) (now : Timestamp) (e : EventRate n) : Option (EventRate n) :=
  (proceed enableAssert p now n e).map fun (left, e) =>
    let e := if left = 0 then { e with binStart := now } else e
    { e with bins := Function.update e.bins e.current ((e.bins e.current + 1) % counts) }

def rate (now : Timestamp) (e : EventRate n) : Option ℚ :=
  (now.toInterval.sub p e.binStart.toInterval).map fun passed =>
    let w : ℚ := (passed.value : ℚ) / 10 ^ 9 / e.windowS
    if 2 < w then 0
    else
      let w : ℚ := if 1 < w then 1 else w
      let firstBin := (1 - w) * e.bins (e.current + 1)
      let lastBin : ℚ := e.bins e.current
      let sum := firstBin + lastBin + ∑ i ∈ Finset.Ico 2 n, (e.bins (e.current + i) : ℚ)
      sum * (1 / ((n : ℚ) - 1)) / e.windowS

/-- What is left of a log of events. -/
def events (counts : ℕ) (log : List Timestamp) (e : EventRate n) : Option (EventRate n) :=
  log.foldlM (fun e now => e.event enableAssert p counts now) e

end Code

/-! ### Timestamps of the clock -/

theorem value_nsTimestamp (t : ℕ) : (nsTimestamp t).value = t := by
  have hdiv : BILLION * ((t : ℤ) / BILLION) + (t : ℤ) % BILLION = t := Int.mul_ediv_add_emod _ _
  rw [Timestamp.value_eq, nsTimestamp]
  linarith

theorem value_nsInterval (w : ℕ) : (nsInterval w).value = w := value_nsTimestamp w

variable {p : Platform}

theorem normal_nsTimestamp {t : ℕ} (h : (t : ℤ) / BILLION ≤ p.timeMax) :
    Normal p (nsTimestamp t).toInterval := by
  refine ⟨?_, h, ?_, ?_⟩ <;> simp only [nsTimestamp, Timestamp.toInterval, BILLION] <;> omega

theorem normal_of_fits {t w : ℕ} (h : (t : ℤ) + w < p.timeMax / 2 * BILLION) :
    Normal p (nsTimestamp t).toInterval := by
  have hmax := p.timeMax_spec.1
  refine normal_nsTimestamp ?_
  simp only [BILLION] at h ⊢
  omega

/-- A sum that is not after the time, whether its carry was missed or not. -/
theorem value_le_of_isBefore {a b : Timestamp} (ha : Tame p a.toInterval)
    (hb : Normal p b.toInterval) (h : a.isBefore b = true) : a.value ≤ b.value := by
  obtain ⟨-, -, -, ha3⟩ := ha
  obtain ⟨-, -, hb2, -⟩ := hb
  rw [Timestamp.isBefore_iff] at h
  simp only [Timestamp.value_eq, Timestamp.toInterval, BILLION] at *
  omega

/-- A sum that is not before the time. -/
theorem value_le_of_not_isBefore {a b : Timestamp} (ha : Tame p a.toInterval)
    (hb : Normal p b.toInterval) (h : ¬ a.isBefore b = true) : b.value ≤ a.value := by
  obtain ⟨-, -, ha2, -⟩ := ha
  obtain ⟨-, -, -, hb3⟩ := hb
  rw [Bool.not_eq_true, Timestamp.isBefore_eq_false_iff] at h
  simp only [Timestamp.value_eq, Timestamp.toInterval, BILLION] at *
  omega

/-- A window can be added, as long as it ends well before the last time there is. -/
theorem exists_add_nsInterval (enableAssert : Bool) {t : Timestamp} {w : ℕ}
    (ht : Tame p t.toInterval) (hfits : t.value + w < p.timeMax / 2 * BILLION) :
    ∃ r, t.add enableAssert p (nsInterval w) = some r ∧ Tame p r.toInterval ∧
      r.value = t.value + w := by
  obtain ⟨h0, -, h2, -⟩ := id ht
  have hmax := p.timeMax_spec.1
  simp only [Timestamp.value_eq, Timestamp.toInterval, BILLION] at hfits h0 h2
  have hw : Tame p (nsInterval w) := by
    refine ⟨?_, ?_, ?_, ?_⟩ <;> simp only [nsInterval, BILLION] <;> omega
  obtain ⟨r, hr, htame, -, -, hvalue⟩ := Timestamp.add_spec_of_nonneg enableAssert ht hw rfl
  refine ⟨r, hr, htame, ?_⟩
  rw [hvalue, value_nsInterval]
  rintro (hs | hs | hs)
  · rw [isInfiniteOn_iff] at hs
    simp only [Timestamp.toInterval] at hs
    omega
  · rw [isInfiniteOn_iff] at hs
    simp only [nsInterval, BILLION] at hs
    omega
  · simp only [nsInterval, Timestamp.toInterval, BILLION] at hs
    omega

theorem exists_sub {a b : Timestamp} (ha : Tame p a.toInterval) (hb : Tame p b.toInterval) :
    ∃ r, a.toInterval.sub p b.toInterval = some r ∧ r.value = a.value - b.value := by
  obtain ⟨r, hr, -, hvalue, -⟩ := add_spec ha hb.neg
  refine ⟨r, hr, ?_⟩
  rw [hvalue (Or.inl (by simp [Timestamp.toInterval, TimeInterval.neg])), value_neg,
    Int.sub_eq_add_neg]
  rfl

/-! ### What the bins count -/

/-- Every bin counts the events from one cut to the next, and `c k` is how many events there are up
to the `k`th cut, from the end of the current bin back. The cuts are a window apart. An event right
at a cut is on either side of it. -/
structure Binned (p : Platform) (counts w : ℕ) (c : ℕ → ℕ) (log : List ℤ) (e : EventRate n) :
    Prop where
  window : e.window = nsInterval w
  windowS : e.windowS = (w : ℚ) / 10 ^ 9
  tame : Tame p e.binStart.toInterval
  total : c 0 = log.length
  last : ∀ t ∈ log, t ≤ e.binStart.value + w
  cut_ge : ∀ k : ℕ, log.countP (fun t => decide (t < e.binStart.value + w - k * w)) ≤ c k
  cut_le : ∀ k : ℕ, c k ≤ log.countP fun t => decide (t ≤ e.binStart.value + w - k * w)
  bins : ∀ k < n, e.bins (e.current - (k : ℕ)) = (c k - c (k + 1)) % counts

/-- The current bin starts at the beginning of time, or not after all events. -/
def Begun (log : List ℤ) (e : EventRate n) : Prop :=
  e.binStart.value ≤ 0 ∨ ∃ t ∈ log, e.binStart.value ≤ t

variable {counts w : ℕ} {c : ℕ → ℕ} {log : List ℤ} {e : EventRate n}

/-- Further back, there are not more events. -/
theorem Binned.cut_succ_le (h : Binned p counts w c log e) (hw : 0 < w) (k : ℕ) :
    c (k + 1) ≤ c k := by
  refine ((h.cut_le (k + 1)).trans ?_).trans (h.cut_ge k)
  apply List.countP_mono_left
  intro t _ ht
  rw [decide_eq_true_eq] at ht ⊢
  push_cast at ht
  linarith [(Nat.cast_pos (α := ℤ)).2 hw]

theorem Binned.cut_anti (h : Binned p counts w c log e) (hw : 0 < w) : Antitone c :=
  antitone_nat_of_succ_le fun k => h.cut_succ_le hw k

theorem Binned.cut_le_length (h : Binned p counts w c log e) (k : ℕ) : c k ≤ log.length :=
  (h.cut_le k).trans List.countP_le_length

/-- Fewer bins back than there are is another bin. -/
theorem sub_natCast_succ_ne (c : ZMod n) {k : ℕ} (hk : k + 1 < n) :
    c - ((k + 1 : ℕ) : ZMod n) ≠ c := by
  rw [Ne, sub_eq_self, ZMod.natCast_eq_zero_iff]
  exact fun hdvd => absurd (Nat.le_of_dvd (Nat.succ_pos k) hdvd) (by omega)

/-- The next bin is empty, and all others get older. -/
theorem Binned.next (h : Binned p counts w c log e) {stop : Timestamp}
    (htame : Tame p stop.toInterval) (hstop : stop.value = e.binStart.value + w) :
    Binned p counts w (fun k => c (k - 1)) log (e.next stop) := by
  have hsucc : ∀ k : ℕ, (e.next stop).binStart.value + w - ((k + 1 : ℕ) : ℤ) * w =
      e.binStart.value + w - k * w := by
    intro k
    rw [EventRate.next, hstop]
    push_cast
    ring
  refine ⟨h.window, h.windowS, htame, h.total, fun t ht => ?_, fun k => ?_, fun k => ?_, ?_⟩
  · have hle := h.last t ht
    rw [EventRate.next, hstop]
    omega
  · cases k with
    | zero =>
        rw [Nat.zero_sub, h.total]
        exact List.countP_le_length
    | succ k =>
        rw [hsucc]
        exact h.cut_ge k
  · cases k with
    | zero =>
        refine (h.cut_le 0).trans (List.countP_mono_left fun t ht _ => ?_)
        have hle := h.last t ht
        rw [decide_eq_true_eq, EventRate.next, hstop]
        push_cast
        omega
    | succ k =>
        rw [hsucc]
        exact h.cut_le k
  · intro k hk
    cases k with
    | zero => simp [EventRate.next]
    | succ k =>
        have hbin : (e.next stop).bins ((e.next stop).current - ((k + 1 : ℕ) : ZMod n)) =
            e.bins (e.current - k) := by
          simp only [EventRate.next]
          rw [Function.update_of_ne (sub_natCast_succ_ne (e.current + 1) hk)]
          congr 1
          push_cast
          ring
        rw [hbin, h.bins k (by omega)]
        rfl

/-- What the loop of `event` comes to, when it proceeds by `j` bins. -/
structure Proceeded (p : Platform) (counts w : ℕ) (c : ℕ → ℕ) (log : List ℤ) (e : EventRate n)
    (now : ℤ) (left j : ℕ) (c' : ℕ → ℕ) (e' : EventRate n) : Prop where
  binned : Binned p counts w c' log e'
  le_left : j ≤ left
  binStart : e'.binStart.value = e.binStart.value + j * w
  binStart_le : e'.binStart.value ≤ now
  inside : j < left → now ≤ e'.binStart.value + w
  older : ∀ k, c' (j + k) = c k

/-- The loop stops in the bin of the event, or all bins were passed. -/
theorem proceed_spec (enableAssert : Bool) {now : Timestamp} (hnow : Normal p now.toInterval)
    (hfits : now.value + w < p.timeMax / 2 * BILLION) (left : ℕ)
    (h : Binned p counts w c log e) (hstart : e.binStart.value ≤ now.value) :
    ∃ j c' e', proceed enableAssert p now left e = some (left - j, e') ∧
      Proceeded p counts w c log e now.value left j c' e' := by
  induction left generalizing e c with
  | zero =>
      obtain ⟨stop, hstop, -, -⟩ := exists_add_nsInterval enableAssert (w := w) h.tame (by omega)
      rw [← h.window] at hstop
      refine ⟨0, c, e, ?_, h, le_rfl, by simp, hstart, by simp, fun k => by rw [Nat.zero_add]⟩
      rw [proceed, EventRate.stop, hstop]
      rfl
  | succ left ih =>
      obtain ⟨stop, hstop, htame, hvalue⟩ :=
        exists_add_nsInterval enableAssert (w := w) h.tame (by omega)
      rw [← h.window] at hstop
      rw [proceed, EventRate.stop, hstop, Option.bind_some]
      split
      · rename_i hbefore
        have hle := value_le_of_isBefore htame hnow hbefore
        obtain ⟨j, c', e', heq, hj⟩ := ih (h.next htame hvalue) hle
        refine ⟨j + 1, c', e', ?_, hj.binned, Nat.succ_le_succ hj.le_left, ?_, hj.binStart_le,
          fun hlt => hj.inside (by omega), fun k => ?_⟩
        · rw [heq, Nat.add_sub_add_right]
        · rw [hj.binStart, EventRate.next, hvalue]
          push_cast
          ring
        · have hk := hj.older (k + 1)
          rwa [Nat.add_sub_cancel, ← Nat.add_assoc, Nat.add_right_comm] at hk
      · rename_i hbefore
        have hle := value_le_of_not_isBefore htame hnow hbefore
        exact ⟨0, c, e, rfl, h, Nat.zero_le _, by simp, hstart, fun _ => by omega,
          fun k => by rw [Nat.zero_add]⟩

/-- An event of the current window is counted in the current bin. -/
theorem Binned.count (h : Binned p counts w c log e) (hw : 0 < w) {now : ℤ}
    (hstart : e.binStart.value ≤ now) (hle : now ≤ e.binStart.value + w) :
    Binned p counts w (Function.update c 0 (c 0 + 1)) (log ++ [now])
      { e with bins := Function.update e.bins e.current ((e.bins e.current + 1) % counts) } := by
  have hlast : ∀ t ∈ log ++ [now], t ≤ e.binStart.value + w := by
    intro t ht
    rw [List.mem_append, List.mem_singleton] at ht
    exact ht.elim (h.last t) fun h => h ▸ hle
  have hsucc : ∀ k : ℕ, Function.update c 0 (c 0 + 1) (k + 1) = c (k + 1) :=
    fun k => Function.update_of_ne (Nat.succ_ne_zero k) _ _
  have htotal : Function.update c 0 (c 0 + 1) 0 = (log ++ [now]).length := by
    rw [Function.update_self, h.total, List.length_append, List.length_singleton]
  refine ⟨h.window, h.windowS, h.tame, htotal, hlast, fun k => ?_, fun k => ?_, fun k hk => ?_⟩
  · cases k with
    | zero =>
        rw [htotal]
        exact List.countP_le_length
    | succ k =>
        -- The event is not before the start of the current window.
        have hback : e.binStart.value + w - ((k + 1 : ℕ) : ℤ) * w ≤ now := by
          have hmul : 0 ≤ (k : ℤ) * w := by positivity
          push_cast
          linarith
        rw [hsucc, List.countP_append, List.countP_singleton, if_neg (by simpa using hback)]
        exact h.cut_ge (k + 1)
  · cases k with
    | zero =>
        rw [htotal, List.countP_eq_length.2]
        intro t ht
        have hle := hlast t ht
        simpa using hle
    | succ k =>
        rw [hsucc]
        refine (h.cut_le (k + 1)).trans ?_
        rw [List.countP_append]
        exact Nat.le_add_right _ _
  · have hbin := h.bins k hk
    cases k with
    | zero =>
        have hanti := h.cut_succ_le hw 0
        simp only [Nat.cast_zero, sub_zero, Function.update_self] at hbin ⊢
        rw [hbin, hsucc, Nat.mod_add_mod, Nat.sub_add_comm hanti]
    | succ k =>
        dsimp only
        rw [Function.update_of_ne (sub_natCast_succ_ne e.current hk), hbin, hsucc, hsucc]

/-- After all bins were passed, the measurement starts all over. -/
theorem Binned.restart (h : Binned p counts w c log e)
    (hempty : ∀ k < n, e.bins (e.current - (k : ℕ)) = 0) {now : Timestamp}
    (hnow : Normal p now.toInterval) :
    Binned p counts w (fun k => if k = 0 then 1 else 0) [now.value]
      { e with
        binStart := now
        bins := Function.update e.bins e.current ((e.bins e.current + 1) % counts) } := by
  refine ⟨h.window, h.windowS, hnow.tame, rfl, ?_, fun k => ?_, fun k => ?_, fun k hk => ?_⟩
  · simp
  · cases k with
    | zero => exact List.countP_le_length
    | succ k =>
        have hback : now.value + w - ((k + 1 : ℕ) : ℤ) * w ≤ now.value := by
          have hmul : 0 ≤ (k : ℤ) * w := by positivity
          push_cast
          linarith
        rw [List.countP_singleton, if_neg (by simpa using hback)]
        exact Nat.zero_le _
  · cases k with
    | zero => simp
    | succ k => simp
  · have hbin := hempty k hk
    cases k with
    | zero =>
        simp only [Nat.cast_zero, sub_zero, Function.update_self] at hbin ⊢
        rw [hbin]
        rfl
    | succ k =>
        dsimp only
        rw [Function.update_of_ne (sub_natCast_succ_ne e.current hk), hbin]
        simp

/-- One event. The measurement only starts all over when all bins were passed. -/
theorem event_spec (enableAssert : Bool) (hw : 0 < w) (h : Binned p counts w c log e)
    (hbegun : Begun log e) {now : Timestamp} (hnow : Normal p now.toInterval)
    (hfits : now.value + w < p.timeMax / 2 * BILLION) (hlog : ∀ t ∈ log, t ≤ now.value) :
    ∃ c' log' e', event enableAssert p counts now e = some e' ∧ Binned p counts w c' log' e' ∧
      Begun log' e' ∧ (log' = log ++ [now.value] ∨
        log' = [now.value] ∧ ∀ t ∈ log, t + (n - 1) * w ≤ now.value) := by
  have hnonneg : 0 ≤ now.value := by
    obtain ⟨h0, -, h2, -⟩ := hnow
    simp only [Timestamp.value_eq, Timestamp.toInterval, BILLION] at h0 h2 ⊢
    omega
  have hstart : e.binStart.value ≤ now.value := by
    obtain hzero | ⟨t, ht, hle⟩ := hbegun
    · exact hzero.trans hnonneg
    · exact hle.trans (hlog t ht)
  obtain ⟨j, c', e', heq, hj⟩ := proceed_spec enableAssert hnow hfits n h hstart
  rw [event, heq, Option.map_some]
  by_cases hleft : n - j = 0
  · -- All bins are gone.
    have hjn : j = n := Nat.le_antisymm hj.le_left (by omega)
    have hempty : ∀ k < n, e'.bins (e'.current - (k : ℕ)) = 0 := by
      intro k hk
      have hall : ∀ i ≤ n, c' i = log.length := by
        intro i hi
        have hback := hj.older 0
        rw [h.total, Nat.add_zero, hjn] at hback
        have hge := hj.binned.cut_anti hw hi
        exact Nat.le_antisymm (hj.binned.cut_le_length i) (hback ▸ hge)
      rw [hj.binned.bins k hk, hall k hk.le, hall (k + 1) hk, Nat.sub_self, Nat.zero_mod]
    refine ⟨fun k => if k = 0 then 1 else 0, _, _, rfl, ?_, ?_, Or.inr ⟨rfl, fun t ht => ?_⟩⟩
    · simp only [if_pos hleft]
      exact hj.binned.restart hempty hnow
    · simp only [if_pos hleft]
      exact Or.inr ⟨_, List.mem_singleton_self _, le_rfl⟩
    · have hle := h.last t ht
      have hvalue := hj.binStart
      have hpast := hj.binStart_le
      rw [hjn] at hvalue
      linarith
  · simp only [if_neg hleft]
    refine ⟨_, _, _, rfl, hj.binned.count hw hj.binStart_le (hj.inside (by omega)), ?_, Or.inl rfl⟩
    exact Or.inr ⟨now.value, by simp, hj.binStart_le⟩

/-- As long as no bin overflows, every bin is what there is more up to its end than up to its
start. -/
theorem Binned.bin_eq (h : Binned p counts w c log e) (hw : 0 < w) {k : ℕ} (hk : k < n)
    (hcount : c k - c (k + 1) < counts) :
    (e.bins (e.current - (k : ℕ)) : ℚ) = (c k : ℚ) - c (k + 1) := by
  rw [h.bins k hk, Nat.mod_eq_of_lt hcount, Nat.cast_sub (h.cut_succ_le hw k)]

/-- The bins between the first one and the last one, from the last one back. -/
theorem sum_bins (f : ZMod n → ℕ) (c : ZMod n) (hn : 2 ≤ n) :
    ∑ i ∈ Finset.Ico 2 n, (f (c + i) : ℚ) = ∑ k ∈ Finset.Ico 1 (n - 1), (f (c - (k : ℕ)) : ℚ) := by
  have hreflect := Finset.sum_Ico_reflect (fun k => (f (c - (k : ℕ)) : ℚ)) 2 (Nat.le_succ n)
  rw [show n + 1 - n = 1 by omega, show n + 1 - 2 = n - 1 by omega] at hreflect
  rw [← hreflect]
  apply Finset.sum_congr rfl
  intro i hi
  rw [Finset.mem_Ico] at hi
  rw [Nat.cast_sub hi.2.le, ZMod.natCast_self, zero_sub, sub_neg_eq_add]

/-- The rate is what was counted in all bins but one, where the first one leaves bit by bit. -/
theorem Binned.rate_eq (h : Binned p counts w c log e) (hn : 2 ≤ n) (hw : 0 < w)
    (hcount : ∀ k < n, c k - c (k + 1) < counts) {now : Timestamp} (hnow : Normal p now.toInterval)
    (hlate : now.value ≤ e.binStart.value + 2 * w) :
    e.rate p now = some
      (((c 0 : ℚ) - min (((now.value : ℚ) - e.binStart.value) / w) 1 * c (n - 1)
        - (1 - min (((now.value : ℚ) - e.binStart.value) / w) 1) * c n)
      * 10 ^ 9 / ((n - 1) * w)) := by
  have hwpos : (0 : ℚ) < w := Nat.cast_pos.2 hw
  have hnpos : (0 : ℚ) < (n : ℚ) - 1 := by
    have h2 : (2 : ℚ) ≤ n := by exact_mod_cast hn
    linarith
  obtain ⟨passed, hpassed, hvalue⟩ := exists_sub hnow.tame h.tame
  have hratio : (passed.value : ℚ) / 10 ^ 9 / e.windowS =
      ((now.value : ℚ) - e.binStart.value) / w := by
    rw [h.windowS, hvalue]
    push_cast
    field_simp
  have hle : ¬ 2 < ((now.value : ℚ) - e.binStart.value) / w := by
    have hnow : (now.value : ℚ) ≤ e.binStart.value + 2 * w := by exact_mod_cast hlate
    rw [not_lt, div_le_iff₀ hwpos]
    linarith
  have hmin : (if 1 < ((now.value : ℚ) - e.binStart.value) / w then 1
      else ((now.value : ℚ) - e.binStart.value) / w) =
      min (((now.value : ℚ) - e.binStart.value) / w) 1 := by
    split
    · rename_i hlt
      rw [min_eq_right hlt.le]
    · rename_i hge
      rw [min_eq_left (not_lt.1 hge)]
  have hlast : (e.bins e.current : ℚ) = (c 0 : ℚ) - c 1 := by
    have hbin := h.bin_eq hw (k := 0) (by omega) (hcount 0 (by omega))
    rwa [Nat.cast_zero, sub_zero] at hbin
  have hfirst : (e.bins (e.current + 1) : ℚ) = (c (n - 1) : ℚ) - c n := by
    have hbin := h.bin_eq hw (k := n - 1) (by omega) (hcount (n - 1) (by omega))
    rwa [Nat.cast_sub (by omega), ZMod.natCast_self, Nat.cast_one, zero_sub, sub_neg_eq_add,
      Nat.sub_add_cancel (by omega)] at hbin
  have hrest : ∑ k ∈ Finset.Ico 1 (n - 1), (e.bins (e.current - (k : ℕ)) : ℚ) =
      (c 1 : ℚ) - c (n - 1) := by
    have htelescope := Finset.sum_Ico_sub (fun k => -(c k : ℚ)) (show 1 ≤ n - 1 by omega)
    rw [neg_sub_neg] at htelescope
    rw [← htelescope]
    apply Finset.sum_congr rfl
    intro k hk
    rw [Finset.mem_Ico] at hk
    rw [h.bin_eq hw (by omega) (hcount k (by omega)), neg_sub_neg]
  rw [rate, hpassed, Option.map_some]
  dsimp only
  rw [hratio]
  simp only [if_neg hle, hmin]
  rw [sum_bins _ _ hn, hrest, hlast, hfirst, h.windowS]
  congr 1
  field_simp
  ring

/-! ### A stable event rate -/

/-- Events that are `d` ns apart, from the time `φ` on. There are `N` of them after the first
one. -/
def stable (φ d N : ℕ) : List Timestamp := (List.range (N + 1)).map fun i => nsTimestamp (φ + i * d)

/-- Their times in ns. -/
def times (φ d N : ℕ) : List ℤ := (List.range (N + 1)).map fun i => ((φ + i * d : ℕ) : ℤ)

variable {φ d N : ℕ}

theorem stable_zero : stable φ d 0 = [nsTimestamp φ] := by simp [stable]

theorem stable_succ : stable φ d (N + 1) = stable φ d N ++ [nsTimestamp (φ + (N + 1) * d)] := by
  rw [stable, List.range_succ, List.map_append, List.map_singleton, stable]

theorem times_zero : times φ d 0 = [(φ : ℤ)] := by simp [times]

theorem times_succ : times φ d (N + 1) = times φ d N ++ [((φ + (N + 1) * d : ℕ) : ℤ)] := by
  rw [times, List.range_succ, List.map_append, List.map_singleton, times]

theorem length_times : (times φ d N).length = N + 1 := by simp [times]

theorem last_mem_times : ((φ + N * d : ℕ) : ℤ) ∈ times φ d N :=
  List.mem_map.2 ⟨N, List.mem_range.2 (Nat.lt_succ_self N), rfl⟩

theorem le_of_mem_times {t : ℤ} (ht : t ∈ times φ d N) : t ≤ (φ + N * d : ℕ) := by
  obtain ⟨i, hi, rfl⟩ := List.mem_map.1 ht
  have hmul : i * d ≤ N * d := Nat.mul_le_mul_right d (Nat.lt_succ_iff.1 (List.mem_range.1 hi))
  exact_mod_cast Nat.add_le_add_left hmul φ

/-- The events up to a time are one distance off at most, with those right at it. -/
theorem countP_times_le {x : ℤ} (hx : φ ≤ x) :
    ((times φ d N).countP fun t => decide (t ≤ x) : ℤ) * d ≤ x - φ + d := by
  induction N with
  | zero =>
      rw [times_zero, List.countP_singleton, if_pos (by simpa using hx)]
      push_cast
      linarith
  | succ N ih =>
      by_cases hlast : ((φ + (N + 1) * d : ℕ) : ℤ) ≤ x
      · have hlength : ((times φ d (N + 1)).countP fun t => decide (t ≤ x) : ℤ) ≤ N + 2 := by
          have hle := List.countP_le_length (l := times φ d (N + 1))
            (p := fun t => decide (t ≤ x))
          rw [length_times] at hle
          exact_mod_cast hle
        have hmul := mul_le_mul_of_nonneg_right hlength (Nat.cast_nonneg (α := ℤ) d)
        push_cast at hlast
        linarith
      · rw [times_succ, List.countP_append, List.countP_singleton, if_neg (by simpa using hlast),
          Nat.add_zero]
        exact ih

/-- The same without those right at it, as long as the time is not after the next event. -/
theorem le_countP_times {x : ℤ} (hx : x ≤ (φ + (N + 1) * d : ℕ)) :
    x - φ ≤ ((times φ d N).countP fun t => decide (t < x) : ℤ) * d := by
  induction N with
  | zero =>
      rw [times_zero, List.countP_singleton]
      push_cast at hx
      split
      · push_cast
        linarith
      · rename_i hlt
        rw [decide_eq_true_eq, not_lt] at hlt
        push_cast
        linarith
  | succ N ih =>
      by_cases hlast : x ≤ (φ + (N + 1) * d : ℕ)
      · refine (ih hlast).trans (mul_le_mul_of_nonneg_right ?_ (Nat.cast_nonneg (α := ℤ) d))
        rw [times_succ, List.countP_append]
        exact_mod_cast Nat.le_add_right _ _
      · have hall : (times φ d (N + 1)).countP (fun t => decide (t < x)) = N + 2 := by
          rw [List.countP_eq_length.2, length_times]
          intro t ht
          have hle := le_of_mem_times ht
          rw [decide_eq_true_eq]
          omega
        rw [hall]
        push_cast at hx ⊢
        linarith

/-- So the events up to a cut are. -/
theorem Binned.cut_stable (h : Binned p counts w c (times φ d N) e) {k : ℕ}
    (hk : (φ : ℤ) ≤ e.binStart.value + w - k * w) :
    (c k : ℤ) * d ≤ e.binStart.value + w - k * w - φ + d ∧
      (e.binStart.value + w - k * w ≤ (φ + (N + 1) * d : ℕ) →
        e.binStart.value + w - k * w - φ ≤ (c k : ℤ) * d) := by
  have hd : (0 : ℤ) ≤ d := Nat.cast_nonneg d
  refine ⟨?_, fun hlast => ?_⟩
  · refine (mul_le_mul_of_nonneg_right ?_ hd).trans (countP_times_le (N := N) hk)
    exact_mod_cast h.cut_le k
  · refine (le_countP_times hlast).trans (mul_le_mul_of_nonneg_right ?_ hd)
    exact_mod_cast h.cut_ge k

theorem Begun.binStart_le (h : Begun (times φ d N) e) : e.binStart.value ≤ (φ + N * d : ℕ) := by
  obtain hzero | ⟨t, ht, hle⟩ := h
  · exact hzero.trans (Int.natCast_nonneg _)
  · exact hle.trans (le_of_mem_times ht)

/-- After all bins were filled, all cuts are behind the first event. -/
theorem Binned.le_cut (h : Binned p counts w c (times φ d N) e) (hwarm : n * w ≤ N * d) {k : ℕ}
    (hk : k ≤ n) : (φ : ℤ) ≤ e.binStart.value + w - k * w := by
  have hlast : ((φ + N * d : ℕ) : ℤ) ≤ e.binStart.value + w := h.last _ last_mem_times
  have hkw : k * w ≤ n * w := Nat.mul_le_mul_right w hk
  have hle : ((φ + k * w : ℕ) : ℤ) ≤ (φ + N * d : ℕ) :=
    Nat.cast_le.2 (Nat.add_le_add_left (hkw.trans hwarm) φ)
  push_cast at hlast hle
  linarith

/-- The cuts but the one at the end of the current bin are before the next event as well. -/
theorem Binned.cut_succ_stable (h : Binned p counts w c (times φ d N) e)
    (hbegun : Begun (times φ d N) e) (hwarm : n * w ≤ N * d) {k : ℕ} (hk : k < n) :
    e.binStart.value + w - ((k + 1 : ℕ) : ℤ) * w - φ ≤ (c (k + 1) : ℤ) * d ∧
      (c (k + 1) : ℤ) * d ≤ e.binStart.value + w - ((k + 1 : ℕ) : ℤ) * w - φ + d := by
  obtain ⟨hup, hlow⟩ := h.cut_stable (h.le_cut hwarm hk)
  refine ⟨hlow ?_, hup⟩
  have hstart := hbegun.binStart_le
  have hkw : 0 ≤ (k : ℤ) * w := by positivity
  have hd : (0 : ℤ) ≤ d := Nat.cast_nonneg d
  push_cast at hstart ⊢
  linarith

/-- No bin overflows. -/
theorem Binned.count_lt (h : Binned p counts w c (times φ d N) e)
    (hbegun : Begun (times φ d N) e) (hwarm : n * w ≤ N * d) (hw : 0 < w) (hd : 0 < d)
    (hcounts : w / d + 1 < counts) {k : ℕ} (hk : k < n) : c k - c (k + 1) < counts := by
  have hup := (h.cut_stable (h.le_cut hwarm hk.le)).1
  have hlow := (h.cut_succ_stable hbegun hwarm hk).1
  have hle : (c k - c (k + 1)) * d ≤ w + d := by
    zify [h.cut_succ_le hw k]
    push_cast at hlow
    linarith
  have hdiv : (w + d) / d = w / d + 1 := Nat.add_div_right w hd
  have := (Nat.le_div_iff_mul_le hd).2 hle
  omega

theorem Binned.new (p : Platform) (counts n w : ℕ) :
    Binned p counts w (fun _ => 0) [] (EventRate.new n w) := by
  refine ⟨rfl, rfl, ?_, rfl, by simp, by simp, by simp, fun k _ => rfl⟩
  have hmax : (0 : ℤ) ≤ p.timeMax := (by decide : (0 : ℤ) ≤ 2147483647).trans p.timeMax_spec.1
  exact ⟨le_rfl, hmax, le_rfl, (by decide : (0 : ℤ) ≤ BILLION)⟩

/-- While the events come in, with more than one in every window, the measurement is not started all
over. -/
theorem events_stable (enableAssert : Bool) (hn : 2 ≤ n) (hd : 0 < d) (hdw : d < w) (counts : ℕ)
    (hfits : ((φ + N * d + w : ℕ) : ℤ) < p.timeMax / 2 * BILLION) :
    ∃ c e, events enableAssert p counts (stable φ d N) (EventRate.new n w) = some e ∧
      Binned p counts w c (times φ d N) e ∧ Begun (times φ d N) e := by
  have hw : 0 < w := hd.trans hdw
  induction N with
  | zero =>
      rw [Nat.zero_mul, Nat.add_zero, Nat.cast_add] at hfits
      obtain ⟨c, log, e, he, hbinned, hbegun, hlog⟩ :=
        event_spec enableAssert hw (Binned.new p counts n w) (Or.inl le_rfl) (normal_of_fits hfits)
          (by rwa [value_nsTimestamp]) (by simp)
      rw [value_nsTimestamp] at hlog
      obtain rfl : log = times φ d 0 := by
        rw [times_zero]
        exact hlog.elim id And.left
      refine ⟨c, e, ?_, hbinned, hbegun⟩
      rw [stable_zero]
      simp [events, he]
  | succ N ih =>
      have hmul : (N + 1) * d = N * d + d := Nat.succ_mul N d
      obtain ⟨c, e, he, hbinned, hbegun⟩ := ih (by push_cast at hfits ⊢; linarith)
      rw [Nat.cast_add] at hfits
      obtain ⟨c', log, e', he', hbinned', hbegun', hlog⟩ :=
        event_spec enableAssert hw hbinned hbegun (normal_of_fits hfits)
          (by rwa [value_nsTimestamp]) (fun t ht => by
            have hle := le_of_mem_times ht
            rw [value_nsTimestamp]
            omega)
      rw [value_nsTimestamp] at hlog
      obtain rfl : log = times φ d (N + 1) := by
        rw [times_succ]
        refine hlog.resolve_right ?_
        rintro ⟨-, hlate⟩
        -- The last event is less than a window ago.
        have hle := hlate _ last_mem_times
        have hnQ : (2 : ℤ) ≤ n := by exact_mod_cast hn
        have hone : (w : ℤ) ≤ ((n : ℤ) - 1) * w :=
          le_mul_of_one_le_left (Nat.cast_nonneg w) (by linarith)
        omega
      refine ⟨c', e', ?_, hbinned', hbegun'⟩
      rw [stable_succ, events, List.foldlM_append]
      rw [events] at he
      simp [he, he']

/-- A count that is at most one event off gives a rate that is. -/
theorem abs_rate_sub_le {c D p : ℚ} (hD : 0 < D) (hp : 0 < p) (h : |c * p - D| ≤ p) :
    |c * 10 ^ 9 / D - 10 ^ 9 / p| ≤ 10 ^ 9 / D := by
  have hsub : c * 10 ^ 9 / D - 10 ^ 9 / p = (c * p - D) * (10 ^ 9 / (D * p)) := by
    field_simp
  have hscale : 10 ^ 9 / D = p * (10 ^ 9 / (D * p)) := by
    field_simp
  have hpos : 0 ≤ 10 ^ 9 / (D * p) := div_nonneg (by norm_num) (mul_pos hD hp).le
  rw [hsub, abs_mul, abs_of_nonneg hpos, hscale]
  exact mul_le_mul_of_nonneg_right h hpos

/-- When a mean of two times is `D` before a third one, the events in between are at most one
off. -/
theorem abs_count_sub_le {v c c₁ c₂ x x₁ x₂ D p : ℚ} (hv : 0 ≤ v) (hv1 : v ≤ 1)
    (h : x ≤ c * p ∧ c * p ≤ x + p) (h₁ : x₁ ≤ c₁ * p ∧ c₁ * p ≤ x₁ + p)
    (h₂ : x₂ ≤ c₂ * p ∧ c₂ * p ≤ x₂ + p) (hD : x - (v * x₁ + (1 - v) * x₂) = D) :
    |(c - v * c₁ - (1 - v) * c₂) * p - D| ≤ p := by
  have hv1' : 0 ≤ 1 - v := sub_nonneg.2 hv1
  have hsplit : (c - v * c₁ - (1 - v) * c₂) * p =
      c * p - (v * (c₁ * p) + (1 - v) * (c₂ * p)) := by ring
  have hup : v * (c₁ * p) + (1 - v) * (c₂ * p) ≤ v * x₁ + (1 - v) * x₂ + p := by
    have hup₁ := mul_le_mul_of_nonneg_left h₁.2 hv
    have hup₂ := mul_le_mul_of_nonneg_left h₂.2 hv1'
    linarith
  have hlow : v * x₁ + (1 - v) * x₂ ≤ v * (c₁ * p) + (1 - v) * (c₂ * p) :=
    add_le_add (mul_le_mul_of_nonneg_left h₁.1 hv) (mul_le_mul_of_nonneg_left h₂.1 hv1')
  rw [hsplit, abs_le]
  constructor <;> linarith

/-- After all bins were filled, the rate of events that are a stable distance apart, more than one
in every window, is at most one event off. -/
theorem rate_stable (enableAssert : Bool) (hn : 2 ≤ n) (hd : 0 < d) (hdw : d < w)
    (hcounts : w / d + 1 < counts) (hwarm : n * w ≤ N * d) {now : ℕ} (hnow : φ + N * d ≤ now)
    (hnext : now < φ + (N + 1) * d) (hfits : (now : ℤ) + w < p.timeMax / 2 * BILLION) :
    ∃ e x, events enableAssert p counts (stable φ d N) (EventRate.new n w) = some e ∧
      e.rate p (nsTimestamp now) = some x ∧
      |x - 10 ^ 9 / d| ≤ 10 ^ 9 / (((n : ℚ) - 1) * w) := by
  have hw : 0 < w := hd.trans hdw
  obtain ⟨c, e, he, hbinned, hbegun⟩ := events_stable (φ := φ) (N := N) (p := p) enableAssert hn hd
    hdw counts (by push_cast; linarith [(Nat.cast_le (α := ℤ)).2 hnow])
  have hmul : (N + 1) * d = N * d + d := Nat.succ_mul N d
  have hlast : ((φ + N * d : ℕ) : ℤ) ≤ e.binStart.value + w := hbinned.last _ last_mem_times
  have hstart := hbegun.binStart_le
  have hcount : ∀ k < n, c k - c (k + 1) < counts := fun k hk =>
    hbinned.count_lt hbegun hwarm hw hd hcounts hk
  have hrate := hbinned.rate_eq hn hw hcount (normal_of_fits hfits) (by
    rw [value_nsTimestamp]
    omega)
  rw [value_nsTimestamp] at hrate
  refine ⟨e, _, he, hrate, ?_⟩
  have hwQ : (0 : ℚ) < w := Nat.cast_pos.2 hw
  have hdQ : (0 : ℚ) < d := Nat.cast_pos.2 hd
  have hnQ : (2 : ℚ) ≤ n := by exact_mod_cast hn
  refine abs_rate_sub_le (mul_pos (by linarith) hwQ) hdQ ?_
  have hnowQ : (φ : ℚ) + N * d ≤ now := by exact_mod_cast hnow
  have hnextQ : (now : ℚ) < φ + (N + 1) * d := by exact_mod_cast hnext
  have hlastQ : (φ : ℚ) + N * d ≤ e.binStart.value + w := by exact_mod_cast hlast
  have hstartQ : (e.binStart.value : ℚ) ≤ φ + N * d := by exact_mod_cast hstart
  have htotal : (c 0 : ℚ) = N + 1 := by
    rw [hbinned.total, length_times]
    push_cast
    ring
  have hcuts : ∀ k < n, (e.binStart.value : ℚ) + w - ((k + 1 : ℕ) : ℚ) * w - φ ≤ c (k + 1) * d ∧
      c (k + 1) * (d : ℚ) ≤ e.binStart.value + w - ((k + 1 : ℕ) : ℚ) * w - φ + d := by
    intro k hk
    exact_mod_cast hbinned.cut_succ_stable hbegun hwarm hk
  have hc₁ := hcuts (n - 2) (by omega)
  have hc₂ := hcuts (n - 1) (by omega)
  rw [show n - 2 + 1 = n - 1 by omega, Nat.cast_sub (show 1 ≤ n by omega), Nat.cast_one] at hc₁
  rw [Nat.sub_add_cancel (show 1 ≤ n by omega)] at hc₂
  rw [htotal]
  push_cast
  have hv : min (((now : ℚ) - e.binStart.value) / w) 1 * w =
      min ((now : ℚ) - e.binStart.value) w := by
    rw [min_mul_of_nonneg _ _ hwQ.le, div_mul_cancel₀ _ hwQ.ne', one_mul]
  have hv0 : 0 ≤ min (((now : ℚ) - e.binStart.value) / w) 1 :=
    le_min (div_nonneg (by linarith) hwQ.le) zero_le_one
  have hv1 : min (((now : ℚ) - e.binStart.value) / w) 1 ≤ 1 := min_le_right _ _
  generalize min (((now : ℚ) - e.binStart.value) / w) 1 = v at hv hv0 hv1 ⊢
  have hup : v * w ≤ now - e.binStart.value := hv ▸ min_le_left _ _
  have hlow : (φ : ℚ) + N * d - e.binStart.value ≤ v * w :=
    hv ▸ le_min (by linarith) (by linarith)
  refine abs_count_sub_le (x := e.binStart.value + v * w - φ) hv0 hv1 ⟨?_, ?_⟩ hc₁ hc₂ ?_
  · linarith
  · linarith
  · ring

/-- Four events in a second, from 10 s on, in two bins of half a second. At 11.5 s the rate is 6 Hz:
the event at 11 s is in the second bin, although the first one ends there, as that is the time of
10 s and a billion ns. -/
theorem rate_stable_quarters :
    ∃ e x, events true .lp64 (2 ^ 32) (stable 10000000000 250000000 6)
        (EventRate.new 2 500000000) = some e ∧
      e.rate .lp64 (nsTimestamp 11500000000) = some x ∧ x = 6 ∧
      |x - 10 ^ 9 / (250000000 : ℕ)| ≤ 10 ^ 9 / (((2 : ℕ) - 1 : ℚ) * (500000000 : ℕ)) := by
  have hwarm : 2 * 500000000 ≤ 6 * 250000000 := by decide
  have hnow : 10000000000 + 6 * 250000000 ≤ 11500000000 := by decide
  have hnext : 11500000000 < 10000000000 + (6 + 1) * 250000000 := by decide
  have hcounts : 500000000 / 250000000 + 1 < 2 ^ 32 := by decide
  obtain ⟨e, x, he, hx, hle⟩ := rate_stable (p := .lp64) true (by decide) (by decide) (by decide)
    hcounts hwarm hnow hnext (by decide)
  refine ⟨e, x, he, hx, ?_, hle⟩
  have hrate : ((events true .lp64 (2 ^ 32) (stable 10000000000 250000000 6)
      (EventRate.new 2 500000000)).bind fun e => e.rate .lp64 (nsTimestamp 11500000000)) =
      some 6 := by decide +kernel
  rw [he, Option.bind_some, hx] at hrate
  exact Option.some.inj hrate

end EventRate

end Perf

end Zth
