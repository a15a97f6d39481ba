import Zth.Sync.Semaphore

/-!
# Posting a semaphore from C

`zth_sem_post` is the wrapper of `Semaphore::release(1)` for C. It looks at the value
before it adds to it, and compares it with the largest `size_t`; the value itself is an
`unsigned int`, and `release` adds, and saturates, in that type. Where `size_t` is wider
than `unsigned int` the comparison is never true, so the last value there is gets to
`release`, which fails its assertion, or does not add anything.
-/

namespace Zth

namespace Semaphore

open Monitor SynchronizerBase

/-- The bits of the types a platform has for `count_type` and for `size_t`. -/
structure Widths where
  countType : ℕ
  sizeT : ℕ
deriving DecidableEq, Repr

/-- A platform with an `unsigned int` of 32 and a `size_t` of 64 bits. -/
def Widths.lp64 : Widths := ⟨32, 64⟩

/-- `numeric_limits<T>::max()` of an unsigned type. -/
def maxOf (bits : ℕ) : ℕ := 2 ^ bits - 1

/-- What the wrappers for C return. -/
inductive ErrorCode where
  | ok
  | einval
  | eoverflow
deriving DecidableEq, Repr

/-- How a call ends: it returns, or an assertion on the way fails. -/
inductive Ending (α : Type*) where
  | returned (a : α)
  | asserted

def Ending.map {α β : Type*} (g : α → β) : Ending α → Ending β
  | .returned a => .returned (g a)
  | .asserted => .asserted

variable {F : Type*} [DecidableEq F]

/-- The wake-ups of `release`, after the addition. -/
def wakeWaiting (s : State F Unit Call Data) : State F Unit Call Data :=
  if 0 < s.data.count then
    if !s.data.unblockAll then
      (unblockFirst () s).1
    else
      match SynchronizerBase.unblockAll () s with
      | (s, true) => s
      | (s, false) => s.setData (s.data.setUnblockAll false)
  else
    s

/-- `release(count)` with a `count_type` of the given width. -/
def release (bits : ℕ) (asserts : Bool) (count : ℕ) (s : State F Unit Call Data) :
    Ending (State F Unit Call Data) :=
  let sum := (s.data.count + count) % 2 ^ bits
  if asserts && decide (sum < s.data.count) then
    .asserted
  else if sum < s.data.count then
    -- wrapped around, saturate
    .returned (wakeWaiting (s.setData (s.data.setCount (maxOf bits))))
  else
    .returned (wakeWaiting (s.setData (s.data.setCount sum)))

/-- `zth_sem_post(sem)`; `none` is a null pointer, or a semaphore that is not initialised. -/
def zthSemPost (w : Widths) (asserts : Bool) :
    Option (State F Unit Call Data) → Ending (ErrorCode × Option (State F Unit Call Data))
  | none => .returned (.einval, none)
  | some s =>
      if s.data.count = maxOf w.sizeT then
        .returned (.eoverflow, some s)
      else
        (release w.countType asserts 1 s).map fun t => (.ok, some t)

/-- The call adds one unit, or reports the overflow and changes nothing. -/
def RespectsRange (w : Widths) (asserts : Bool) (s : State F Unit Call Data) : Prop :=
  (∃ t, zthSemPost w asserts (some s) = .returned (.ok, some t) ∧
    t.data.count = s.data.count + 1) ∨
  zthSemPost w asserts (some s) = .returned (.eoverflow, some s)

/-- The release of the semaphore as a monitor: the addition, then the wake-ups. -/
theorem exec_release (f : F) (count : ℕ) (s : State F Unit Call Data) :
    (exec f (.release count) s).1 =
      wakeWaiting (s.setData (s.data.setCount (addCount s.data.count count))) := by
  simp only [exec, wakeWaiting]
  generalize s.setData (s.data.setCount (addCount s.data.count count)) = t
  split
  · split
    · rfl
    · rcases SynchronizerBase.unblockAll () t with ⟨t', _ | _⟩ <;> rfl
  · rfl

/-- Without assertions, the release is the one of the semaphore as a monitor. -/
theorem release_eq_exec (f : F) (count : ℕ) (s : State F Unit Call Data) :
    release 32 false count s = .returned (exec f (.release count) s).1 := by
  rw [exec_release]
  simp only [release, addCount, Bool.false_and, Bool.false_eq_true, if_false]
  split <;> rfl

/-- Waking fibers does not change the value: they acquire later. -/
@[simp] theorem wakeWaiting_count (s : State F Unit Call Data) :
    (wakeWaiting s).data.count = s.data.count := by
  unfold wakeWaiting
  split
  · split
    · rw [unblockFirst, State.wakeFirst_data]
    · have hdata : (SynchronizerBase.unblockAll () s).1.data.count = s.data.count := rfl
      rcases hall : SynchronizerBase.unblockAll () s with ⟨t, _ | _⟩
      · rw [hall] at hdata
        exact hdata
      · rw [hall] at hdata
        exact hdata
  · rfl

/-- Below the largest value, one unit is added. -/
theorem release_of_lt {bits : ℕ} (asserts : Bool) {s : State F Unit Call Data}
    (h : s.data.count < maxOf bits) :
    release bits asserts 1 s =
      .returned (wakeWaiting (s.setData (s.data.setCount (s.data.count + 1)))) := by
  have hsum : (s.data.count + 1) % 2 ^ bits = s.data.count + 1 := by
    rw [maxOf] at h
    exact Nat.mod_eq_of_lt (by omega)
  have hlt : ¬ s.data.count + 1 < s.data.count := by omega
  simp [release, hsum, hlt]

/-- At the largest value the sum wraps around, and no unit is added. -/
theorem count_of_release_max {bits : ℕ} {asserts : Bool} {s t : State F Unit Call Data}
    (h : s.data.count = maxOf bits) (ht : release bits asserts 1 s = .returned t) :
    t.data.count = s.data.count := by
  have hsum : (s.data.count + 1) % 2 ^ bits = 0 := by
    rw [h, maxOf, Nat.sub_add_cancel Nat.one_le_two_pow, Nat.mod_self]
  simp only [release, hsum] at ht
  split at ht
  · cases ht
  · split at ht
    · cases ht
      rw [wakeWaiting_count, h]
      rfl
    · rename_i hpos
      cases ht
      rw [wakeWaiting_count, State.setData_data, Data.setCount_count]
      omega

/-- The largest values are the same only if the widths are. -/
theorem maxOf_inj {m n : ℕ} : maxOf m = maxOf n ↔ m = n := by
  constructor
  · intro h
    have hm : 1 ≤ 2 ^ m := Nat.one_le_two_pow
    have hn : 1 ≤ 2 ^ n := Nat.one_le_two_pow
    rw [maxOf, maxOf] at h
    exact (Nat.pow_right_inj Nat.one_lt_two).1 (show 2 ^ m = 2 ^ n by omega)
  · exact congrArg maxOf

/-- A wrapper that gets past its comparison does what `release` does. -/
theorem respectsRange_iff_of_ne {w : Widths} {asserts : Bool} {s : State F Unit Call Data}
    (h : s.data.count ≠ maxOf w.sizeT) :
    RespectsRange w asserts s ↔
      ∃ t, release w.countType asserts 1 s = .returned t ∧ t.data.count = s.data.count + 1 := by
  simp only [RespectsRange, zthSemPost, if_neg h]
  cases release w.countType asserts 1 s with
  | asserted => simp [Ending.map]
  | returned t => simp [Ending.map]

/-- The wrapper keeps to the range of the value, except at the largest value on a platform
on which `size_t` is not as wide as `count_type`. -/
theorem zthSemPost_respectsRange_iff (w : Widths) (asserts : Bool)
    (s : State F Unit Call Data) (hs : s.data.count < 2 ^ w.countType) :
    RespectsRange w asserts s ↔
      s.data.count ≠ maxOf w.countType ∨ w.countType = w.sizeT := by
  by_cases hsize : s.data.count = maxOf w.sizeT
  · have hover : RespectsRange w asserts s := Or.inr (by rw [zthSemPost, if_pos hsize])
    refine iff_of_true hover ?_
    rw [hsize, ne_eq, maxOf_inj, eq_comm]
    exact (em _).symm
  · rw [respectsRange_iff_of_ne hsize]
    constructor
    · rintro ⟨t, ht, hcount⟩
      refine Or.inl fun hmax => ?_
      rw [count_of_release_max hmax ht] at hcount
      omega
    · intro h
      have hmax : s.data.count ≠ maxOf w.countType := by
        rcases h with h | h
        · exact h
        · rwa [h]
      have hlt : s.data.count < maxOf w.countType := by
        rw [maxOf] at hmax ⊢
        omega
      exact ⟨_, release_of_lt asserts hlt, by simp⟩

/-- The last value before the largest one still gets its unit. -/
theorem zthSemPost_respectsRange_iff_last :
    RespectsRange .lp64 true (State.idle (Data.init 4294967294) : State ℕ Unit Call Data) :=
  (zthSemPost_respectsRange_iff .lp64 true _ (by decide)).2 (Or.inl (by decide))

/-- At the largest `unsigned int`, the assertion of `release` fails, and without assertions
the wrapper returns 0 and has added nothing. -/
theorem not_respectsRange_largest :
    zthSemPost .lp64 true (some (State.idle (Data.init 4294967295) : State ℕ Unit Call Data)) =
        .asserted ∧
      zthSemPost .lp64 false (some (State.idle (Data.init 4294967295) : State ℕ Unit Call Data)) =
        .returned (.ok, some (State.idle (Data.init 4294967295))) ∧
      ¬ RespectsRange .lp64 true (State.idle (Data.init 4294967295) : State ℕ Unit Call Data) ∧
      ¬ RespectsRange .lp64 false (State.idle (Data.init 4294967295) : State ℕ Unit Call Data) := by
  have hasserted : zthSemPost .lp64 true
      (some (State.idle (Data.init 4294967295) : State ℕ Unit Call Data)) = .asserted := rfl
  have hreturned : zthSemPost .lp64 false
      (some (State.idle (Data.init 4294967295) : State ℕ Unit Call Data)) =
        .returned (.ok, some (State.idle (Data.init 4294967295))) := rfl
  refine ⟨hasserted, hreturned, ?_, ?_⟩
  · simp [RespectsRange, hasserted]
  · rw [RespectsRange, hreturned]
    simp only [Ending.returned.injEq, Prod.mk.injEq, Option.some.injEq, true_and]
    rintro (⟨t, rfl, hcount⟩ | h)
    · simp [State.idle, Data.init] at hcount
    · cases h.1

theorem finish_count (f : F) (r : State F Unit Call Data × Outcome Unit Call) :
    (State.finish f r).data.count = r.1.data.count := by
  rcases r with ⟨s, _ | ⟨q, o⟩⟩
  · rfl
  · rfl

/-- A sum that saturates is in the range of `unsigned int`. -/
theorem addCount_lt (m count : ℕ) : addCount m count < 2 ^ 32 := by
  unfold addCount
  split
  · decide
  · exact Nat.mod_lt _ (by decide)

/-- No piece of code leaves the range of `unsigned int`. -/
theorem exec_count_lt {s : State F Unit Call Data} (hs : s.data.count < 2 ^ 32) (f : F)
    (c : Call) : (exec f c s).1.data.count < 2 ^ 32 := by
  cases c with
  | acquire count =>
    simp only [exec]
    split
    · exact hs
    · have hle : s.data.count - count < 2 ^ 32 := Nat.lt_of_le_of_lt (Nat.sub_le _ _) hs
      split
      · rwa [unblockFirst, State.wakeFirst_data]
      · exact hle
  | release count =>
    have hlt : (wakeWaiting (s.setData (s.data.setCount (addCount s.data.count count)))).data.count
        < 2 ^ 32 := by
      rw [wakeWaiting_count]
      exact addCount_lt _ _
    rwa [← exec_release f count s] at hlt

/-- Every state of every run of the semaphore is in the range of `unsigned int`. -/
theorem count_lt_of_run {s t : State F Unit Call Data} {ls : List (Label F Unit Call)}
    (hs : s.data.count < 2 ^ 32) (hr : Transition.run (program F).step s ls = some t) :
    t.data.count < 2 ^ 32 := by
  apply Transition.run_invariant (P := fun s => s.data.count < 2 ^ 32) ?_ hs hr
  intro s l t hs hstep
  rcases Program.step_cases hstep with
    ⟨f, c, -, -, rfl⟩ | ⟨f, c, -, -, -, rfl⟩ | ⟨q, f, o, o', -, -, -, -, rfl⟩
  · rw [finish_count]
    exact exec_count_lt hs f c
  · have hs' : (s.start f).data.count < 2 ^ 32 := hs
    rw [finish_count]
    exact exec_count_lt hs' f c
  · exact hs

end Semaphore

end Zth
