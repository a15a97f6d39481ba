import Zth.Sync.Future
import Zth.Sync.Gate
import Zth.Sync.Mutex
import Zth.Sync.Semaphore
import Zth.Sync.Signal

/-!
# Blocking calls outside a fiber

`block` throws `not_in_fiber` when the worker has no current fiber, before it touches any
queue. The calls that block are written here for a current fiber that may be missing.
Whether a call that throws leaves its synchronizer as it was depends on what the call did
before it came to `block`: a mutex, a signal and a future do nothing, a semaphore sets
`unblockAll` when it is asked for more than one unit, and a gate has counted the pass.
-/

namespace Zth

namespace SynchronizerBase

open Monitor

/-- How a call ends, or how far it gets: it returns; the current fiber gives way and goes on
later; `not_in_fiber` is thrown; or the call needs a current fiber and there is none. The
last is an assertion that fails, or a null pointer without it. -/
inductive Attempt (σ : Type*) where
  | returned (s : σ)
  | paused (s : σ)
  | thrown (s : σ)
  | noFiber

/-- The state after a call that does not fail. -/
def Attempt.state? {σ : Type*} : Attempt σ → Option σ
  | .returned s | .paused s => some s
  | .thrown _ | .noFiber => none

/-- If the call throws, the synchronizer is as it was before. -/
def Attempt.LeavesUnchanged {σ : Type*} (a : Attempt σ) (s : σ) : Prop :=
  ∀ t, a = .thrown t → t = s

theorem Attempt.leavesUnchanged_thrown {σ : Type*} {s t : σ} :
    (Attempt.thrown t).LeavesUnchanged s ↔ t = s := by
  simp [LeavesUnchanged]

theorem Attempt.leavesUnchanged_returned {σ : Type*} (s t : σ) :
    (Attempt.returned t).LeavesUnchanged s := by
  simp [LeavesUnchanged]

theorem Attempt.leavesUnchanged_noFiber {σ : Type*} (s : σ) :
    (Attempt.noFiber : Attempt σ).LeavesUnchanged s := by
  simp [LeavesUnchanged]

variable {F Q O D : Type*} [DecidableEq F] [DecidableEq Q]

/-- `block(q)`; the fiber goes on with `o`. -/
def block (current : Option F) (q : Q) (o : O) (s : State F Q O D) : Attempt (State F Q O D) :=
  match current with
  | none => .thrown s
  | some f => .paused (State.finish f (s, .block q o))

/-- `yield()` of the current fiber, which it asserts to exist. -/
def yield (current : Option F) (o : O) (s : State F Q O D) : Attempt (State F Q O D) :=
  match current with
  | none => .noFiber
  | some f => .paused (s.yield f o)

end SynchronizerBase

open Monitor SynchronizerBase

variable {F T E : Type*} [DecidableEq F]

/-- `lock()`. -/
def Mutex.lock (current : Option F) (s : State F Unit Mutex.Call (Mutex.Data F)) :
    Attempt (State F Unit Mutex.Call (Mutex.Data F)) :=
  if s.data.locked then
    block current () .lock s
  else
    .returned (s.setData { locked := true, holders := current.toList ++ s.data.holders })

/-- `acquire(count)`. -/
def Semaphore.acquire (current : Option F) (count : ℕ)
    (s : State F Unit Semaphore.Call Semaphore.Data) :
    Attempt (State F Unit Semaphore.Call Semaphore.Data) :=
  if s.data.count < count then
    let all := if 1 < count then true else s.data.unblockAll
    block current () (.acquire count) (s.setData (s.data.setUnblockAll all))
  else
    let s := s.setData (s.data.setCount (s.data.count - count))
    if 0 < s.data.count && !s.data.unblockAll then
      .returned (unblockFirst () s).1
    else
      .returned s

/-- `wait()` of a signal. -/
def Signal.wait (current : Option F) (s : State F Unit Signal.Code Signal.Data) :
    Attempt (State F Unit Signal.Code Signal.Data) :=
  if s.data.signalled = 0 then
    block current () .waited s
  else
    SynchronizerBase.yield current .waited s

/-- `wait()` of a future. -/
def Future.wait (current : Option F) (s : State F Unit (Future.Code T E) (Future.Data T E)) :
    Attempt (State F Unit (Future.Code T E) (Future.Data T E)) :=
  if s.data.value.valid then
    .returned (s.setData s.data.returned)
  else
    block current () .waited s

/-- `wait()` of a gate; the number of its pass is kept for the current fiber only. -/
def Gate.wait (current : Option F) (count : ℕ) (s : State F Unit Gate.Code (Gate.Data F)) :
    Attempt (State F Unit Gate.Code (Gate.Data F)) :=
  match Gate.pass count (s.setData (current.elim s.data s.data.join)) with
  | (s, true) => .returned s
  | (s, false) => block current () .waited s

section InFiber

/-! In a fiber, the calls are those of the monitors. -/

theorem Mutex.lock_some (f : F) (s : State F Unit Mutex.Call (Mutex.Data F)) :
    (Mutex.lock (some f) s).state? = some (State.finish f (Mutex.exec f .lock s)) := by
  simp only [Mutex.lock, Mutex.exec]
  split <;> rfl

theorem Semaphore.acquire_some (f : F) (count : ℕ)
    (s : State F Unit Semaphore.Call Semaphore.Data) :
    (Semaphore.acquire (some f) count s).state? =
      some (State.finish f (Semaphore.exec f (.acquire count) s)) := by
  simp only [Semaphore.acquire, Semaphore.exec]
  split
  · rfl
  · split <;> rfl

theorem Signal.wait_some (f : F) (s : State F Unit Signal.Code Signal.Data) :
    (Signal.wait (some f) s).state? = some (State.finish f (Signal.exec f (.enter .wait) s)) := by
  simp only [Signal.wait, Signal.exec]
  split <;> rfl

theorem Future.wait_some (f : F) (s : State F Unit (Future.Code T E) (Future.Data T E)) :
    (Future.wait (some f) s).state? = some (State.finish f (Future.exec f (.enter .wait) s)) := by
  simp only [Future.wait, Future.exec]
  split <;> rfl

theorem Gate.wait_some (f : F) (count : ℕ) (s : State F Unit Gate.Code (Gate.Data F)) :
    (Gate.wait (some f) count s).state? =
      some (State.finish f (Gate.exec count f (.enter .wait) s)) := by
  simp only [Gate.wait, Gate.exec, Option.elim_some]
  rcases Gate.pass count (s.setData (s.data.join f)) with ⟨t, _ | _⟩ <;> rfl

end InFiber

/-- A mutex does nothing before it blocks. -/
theorem Mutex.lock_leavesUnchanged (s : State F Unit Mutex.Call (Mutex.Data F)) :
    (Mutex.lock none s).LeavesUnchanged s := by
  unfold Mutex.lock
  split
  · exact Attempt.leavesUnchanged_thrown.2 rfl
  · exact Attempt.leavesUnchanged_returned _ _

/-- A semaphore sets `unblockAll` before it blocks for more than one unit. -/
theorem Semaphore.acquire_leavesUnchanged_iff (count : ℕ)
    (s : State F Unit Semaphore.Call Semaphore.Data) :
    (Semaphore.acquire none count s).LeavesUnchanged s ↔
      count ≤ s.data.count ∨ count ≤ 1 ∨ s.data.unblockAll = true := by
  unfold Semaphore.acquire
  by_cases hlt : s.data.count < count
  · have hset : s.setData (s.data.setUnblockAll (if 1 < count then true else s.data.unblockAll)) =
        s ↔ (if 1 < count then true else s.data.unblockAll) = s.data.unblockAll := by
      constructor
      · exact fun h => congrArg (fun s => s.data.unblockAll) h
      · intro h
        rw [h]
        rfl
    rw [if_pos hlt, block, Attempt.leavesUnchanged_thrown, hset]
    by_cases hone : 1 < count
    · rw [if_pos hone, eq_comm]
      simp [Nat.not_le.2 hlt, Nat.not_le.2 hone]
    · simp [hone, Nat.not_lt.1 hone]
  · rw [if_neg hlt]
    refine iff_of_true ?_ (Or.inl (Nat.not_lt.1 hlt))
    dsimp only
    split
    · exact Attempt.leavesUnchanged_returned _ _
    · exact Attempt.leavesUnchanged_returned _ _

/-- A signal does nothing before it blocks. -/
theorem Signal.wait_leavesUnchanged (s : State F Unit Signal.Code Signal.Data) :
    (Signal.wait none s).LeavesUnchanged s := by
  unfold Signal.wait
  split
  · exact Attempt.leavesUnchanged_thrown.2 rfl
  · exact Attempt.leavesUnchanged_noFiber _

/-- A future does nothing before it blocks. -/
theorem Future.wait_leavesUnchanged (s : State F Unit (Future.Code T E) (Future.Data T E)) :
    (Future.wait none s).LeavesUnchanged s := by
  unfold Future.wait
  split
  · exact Attempt.leavesUnchanged_returned _ _
  · exact Attempt.leavesUnchanged_thrown.2 rfl

omit [DecidableEq F] in
/-- A pass that does not complete the generation is counted. -/
theorem Gate.pass_of_lt {count : ℕ} {s : State F Unit Gate.Code (Gate.Data F)}
    (h : (s.data.current + 1) % 2 ^ 64 < count) :
    (Gate.pass count s).2 = false ∧
      (Gate.pass count s).1.data.current = (s.data.current + 1) % 2 ^ 64 := by
  rw [Gate.pass, if_neg (Nat.not_le.2 h)]
  exact ⟨rfl, rfl⟩

/-- A gate has counted the pass before it blocks. -/
theorem Gate.wait_leavesUnchanged_iff (count : ℕ) (s : State F Unit Gate.Code (Gate.Data F)) :
    (Gate.wait none count s).LeavesUnchanged s ↔ count ≤ (s.data.current + 1) % 2 ^ 64 := by
  have hself : s.setData (Option.elim none s.data s.data.join) = s := rfl
  rw [Gate.wait, hself]
  by_cases hle : count ≤ (s.data.current + 1) % 2 ^ 64
  · refine iff_of_true ?_ hle
    rw [Gate.pass, if_pos hle]
    exact Attempt.leavesUnchanged_returned _ _
  · refine iff_of_false ?_ hle
    obtain ⟨hfalse, hcurrent⟩ := Gate.pass_of_lt (Nat.not_le.1 hle)
    rcases hpass : Gate.pass count s with ⟨t, r⟩
    rw [hpass] at hfalse hcurrent
    obtain rfl : r = false := hfalse
    intro h
    have hts : t = s := Attempt.leavesUnchanged_thrown.1 h
    have hsame : s.data.current = (s.data.current + 1) % 2 ^ 64 := hts ▸ hcurrent
    have hlt := Nat.mod_lt (s.data.current + 1) (show 0 < 2 ^ 64 by decide)
    omega

/-- Outside a fiber, a call that throws leaves a mutex, a signal and a future as they were; a
semaphore only when at most one unit was asked for or `unblockAll` is set already; and a gate
never, as its `wait` throws whenever the pass does not complete the generation. -/
theorem notInFiber_leavesUnchanged_iff (mutex : State F Unit Mutex.Call (Mutex.Data F))
    (semaphore : State F Unit Semaphore.Call Semaphore.Data) (count : ℕ)
    (signal : State F Unit Signal.Code Signal.Data)
    (future : State F Unit (Future.Code T E) (Future.Data T E))
    (size : ℕ) (gate : State F Unit Gate.Code (Gate.Data F)) :
    (Mutex.lock none mutex).LeavesUnchanged mutex ∧
    (Signal.wait none signal).LeavesUnchanged signal ∧
    (Future.wait none future).LeavesUnchanged future ∧
    ((Semaphore.acquire none count semaphore).LeavesUnchanged semaphore ↔
      count ≤ semaphore.data.count ∨ count ≤ 1 ∨ semaphore.data.unblockAll = true) ∧
    ((Gate.wait none size gate).LeavesUnchanged gate ↔
      size ≤ (gate.data.current + 1) % 2 ^ 64) :=
  ⟨Mutex.lock_leavesUnchanged mutex, Signal.wait_leavesUnchanged signal,
    Future.wait_leavesUnchanged future, Semaphore.acquire_leavesUnchanged_iff count semaphore,
    Gate.wait_leavesUnchanged_iff size gate⟩

/-- Two units are asked of a semaphore without any, and one of two fibers comes to a gate:
both calls throw, and `unblockAll` is set and the pass is counted. -/
theorem notInFiber_changed :
    Semaphore.acquire none 2 (State.idle (Semaphore.Data.init 0) :
        State ℕ Unit Semaphore.Call Semaphore.Data) =
      .thrown (State.idle ⟨0, true⟩) ∧
    (∃ t, Gate.wait none 2 (State.idle (Gate.Data.init ℕ)) = .thrown t ∧ t.data.current = 1) ∧
    ¬ (Semaphore.acquire none 2 (State.idle (Semaphore.Data.init 0) :
        State ℕ Unit Semaphore.Call Semaphore.Data)).LeavesUnchanged
          (State.idle (Semaphore.Data.init 0)) ∧
    ¬ (Gate.wait none 2 (State.idle (Gate.Data.init ℕ))).LeavesUnchanged
        (State.idle (Gate.Data.init ℕ)) := by
  have hsem : Semaphore.acquire none 2 (State.idle (Semaphore.Data.init 0) :
      State ℕ Unit Semaphore.Call Semaphore.Data) = .thrown (State.idle ⟨0, true⟩) := rfl
  refine ⟨hsem, ⟨_, rfl, rfl⟩, ?_, ?_⟩
  · rw [Semaphore.acquire_leavesUnchanged_iff]
    decide
  · rw [Gate.wait_leavesUnchanged_iff]
    decide

end Zth
