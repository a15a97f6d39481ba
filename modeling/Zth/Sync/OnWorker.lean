import Zth.Sync.Scripts
import Zth.Sync.Simulation

/-!
# A mutex, a semaphore and a signal on a worker

What is known of a monitor for every order in which its fibers go on, holds of the synchronizer
that a worker schedules, timeouts included. A fiber that was woken in a call is in a queue of the
worker.
-/

namespace Zth

open Monitor

variable {F R W : Type*} [DecidableEq F] [DecidableEq R] [LinearOrder W]

namespace Mutex

/-- A mutex that is hosted by a worker. -/
abbrev OnWorker (F R W : Type*) := Hosted F Unit R W Call (Data F)

/-- In every allowed run of a worker that hosts a mutex, whatever else its fibers do: at most one
fiber has the mutex, it is locked exactly when one has it, and while it is free and fibers are
blocked in its queue, a fiber in a queue of the worker is about to test it. -/
theorem exclusive_on_worker (created : Contexts F) (waiter : F)
    (waitable : W → Waitable F (Unit ⊕ R)) (as : List (Hosted.Act F Unit R W Call))
    (s : OnWorker F R W)
    (hg : Transition.Guarded (Hosted.step (script F) created waiter)
      (Hosted.Allowed (script F) created) (Hosted.init waiter waitable (Data.init F)) as)
    (hr : Transition.run (Hosted.step (script F) created waiter)
      (Hosted.init waiter waitable (Data.init F)) as = some s) :
    s.data.holders.length ≤ 1 ∧ (s.data.locked = true ↔ ∃ f, f ∈ s.data.holders) ∧
      (s.data.locked = false → s.worker.queue (.inl ()) ≠ [] → ∃ f, s.code f = some .lock ∧
        (f ∈ s.worker.runnableQueue ∨ f ∈ s.worker.suspendedQueue)) := by
  obtain ⟨m, ⟨hwf, hcode, hexclusive, hlocked, hwoken⟩, hm⟩ :=
    Hosted.exists_describes (P := Invariant) (fun m l _ hs _ h =>
      invariant_step hs (Script.step_eq (program_script F) rfl m l ▸ h))
      invariant_idle (Hosted.guarded_meets hg) hr
  rw [hm.data] at hexclusive hlocked hwoken
  refine ⟨hexclusive, ?_, fun hfree hq => ?_⟩
  · rw [hlocked]
    exact ⟨List.exists_mem_of_ne_nil _, fun ⟨f, hf⟩ => List.ne_nil_of_mem hf⟩
  · rw [← hm.queue ()] at hq
    obtain ⟨f, hf⟩ := List.exists_mem_of_ne_nil _ (hwoken hfree hq)
    obtain ⟨c, hc⟩ := hwf.code_of_woken hf
    obtain rfl := hcode f c hc
    rw [hm.code f] at hc
    exact ⟨f, Hosted.code_of_pending (fun _ => rfl) hc, hm.woken f hf⟩

/-- Fibers 2 and 3 block. Fiber 2 is woken, but fiber 1 is faster, and fiber 2 blocks again. -/
def overtakenOnWorker : List (Hosted.Act ℕ Unit Unit ℕ Call) :=
  [.other (.hatch 1), .other (.hatch 2), .other (.hatch 3), .other (.work 1 1),
    .call .lock 0 0 2 true, .other (.yield none 2), .call .lock 0 0 3 true,
    .call .lock 0 0 4 true, .call .unlock 0 0 5 true, .call .trylock 0 0 6 true,
    .other (.yield (some (some 2)) 6), .goOn 0 0 7 true, .call .unlock 0 0 9 true]

theorem exclusive_on_worker_overtaken :
    ∃ s, Transition.run (Hosted.step (script ℕ) .all 0)
        (Hosted.init 0 (fun _ => ⟨0, none, .timed, false⟩) (Data.init ℕ)) overtakenOnWorker =
          some s ∧
      s.worker.queue (.inl ()) = [2] ∧ s.data.locked = false ∧
      ∃ f, s.code f = some .lock ∧
        (f ∈ s.worker.runnableQueue ∨ f ∈ s.worker.suspendedQueue) := by
  refine ⟨_, rfl, rfl, rfl, (exclusive_on_worker .all 0
    (fun _ => ⟨0, none, .timed, false⟩) overtakenOnWorker _ ?_ rfl).2.2 rfl (by decide)⟩
  refine .cons trivial rfl (.cons trivial rfl (.cons trivial rfl (.cons trivial rfl
    (.cons (fun _ _ _ => rfl) rfl (.cons trivial rfl (.cons (fun _ _ _ => rfl) rfl
    (.cons (fun _ _ _ => rfl) rfl (.cons (fun _ _ _ => rfl) rfl (.cons (fun _ _ _ => rfl) rfl
    (.cons trivial rfl (.cons (fun _ _ _ _ _ => rfl) rfl
    (.cons (fun _ _ _ => rfl) rfl trivial))))))))))))

end Mutex

namespace Semaphore

/-- A semaphore that is hosted by a worker. -/
abbrev OnWorker (F R W : Type*) := Hosted F Unit R W Call Data

/-- At most one unit is acquired at a time, as `zth_sem_wait` does. -/
def Single (_ : Data) : Call → Prop
  | .acquire count => count ≤ 1
  | .release _ => True

/-- All fibers in `acquire` want one unit, and they are woken one by one. -/
structure OneByOne (s : State F Unit Call Data) : Prop where
  invariant : Invariant none s
  code : s.CodeAll (· = .acquire 1)
  unblockAll : s.data.unblockAll = false

omit [DecidableEq F] in
theorem oneByOne_idle (count : ℕ) : OneByOne (State.idle (F := F) (Q := Unit) (Data.init count)) :=
  ⟨invariant_of_queue_nil (.idle _) (fun f c h => by simp [State.idle] at h) rfl,
    fun f c h => by simp [State.idle] at h, rfl⟩

theorem oneByOne_unblockFirst {s : State F Unit Call Data} (hcode : s.CodeAll (· = .acquire 1))
    (hall : s.data.unblockAll = false) :
    (SynchronizerBase.unblockFirst () s).1.CodeAll (· = .acquire 1) ∧
      (SynchronizerBase.unblockFirst () s).1.data.unblockAll = false := by
  rw [SynchronizerBase.unblockFirst]
  refine ⟨fun g c hg => ?_, by rwa [State.wakeFirst_data]⟩
  rw [State.wakeFirst_code] at hg
  exact hcode g c hg

/-- No code of a semaphore asks to wake all fibers. -/
theorem oneByOne_exec {s : State F Unit Call Data} (hcode : s.CodeAll (· = .acquire 1))
    (hall : s.data.unblockAll = false) (f : F) {c : Call} (hc : Single s.data c) :
    (State.finish f (exec f c s)).CodeAll (· = .acquire 1) ∧
      (State.finish f (exec f c s)).data.unblockAll = false := by
  cases c with
  | acquire count =>
      have hle : count ≤ 1 := hc
      simp only [exec]
      split
      · rename_i hlt
        obtain rfl : count = 1 := by omega
        exact ⟨State.CodeAll.finish_block (s := s.setData _) hcode f () rfl, hall⟩
      · split
        · exact oneByOne_unblockFirst (s := s.setData _) hcode hall
        · exact ⟨hcode, hall⟩
  | release count =>
      simp only [exec, State.setData_data, Data.setCount_unblockAll, hall, Bool.not_false, if_true]
      split
      · exact oneByOne_unblockFirst (s := s.setData _) hcode hall
      · exact ⟨hcode, hall⟩

theorem OneByOne.step {s t : State F Unit Call Data} {l : Label F Unit Call} (h : OneByOne s)
    (hok : l.Meets Single s) (hstep : (program F).step s l = some t) : OneByOne t := by
  have hkeeps : KeepsChain s l := by
    rintro f count hruns ⟨hmore, hlt, -, -⟩
    have hle : count ≤ 1 := by
      cases l with
      | call g c =>
          obtain ⟨-, rfl⟩ := Prod.mk.inj (Option.some.inj hruns)
          exact hok
      | resume g =>
          obtain ⟨c, hc, heq⟩ := Option.map_eq_some_iff.1 hruns
          obtain ⟨-, rfl⟩ := Prod.mk.inj heq
          have hone : Call.acquire count = .acquire 1 := h.code g _ hc
          cases hone
          exact le_rfl
      | expire q g => cases hruns
    omega
  have hrest : t.CodeAll (· = .acquire 1) ∧ t.data.unblockAll = false := by
    rcases Program.step_cases hstep with ⟨f, c, rfl, hf, rfl⟩ | ⟨f, c, rfl, hf, -, rfl⟩ |
      ⟨q, f, c, c', -, -, he, -, -⟩
    · exact oneByOne_exec h.code h.unblockAll f hok
    · obtain rfl := h.code f c hf
      exact oneByOne_exec (h.code.start f) h.unblockAll f (c := .acquire 1) (by exact le_rfl)
    · cases he
  exact ⟨invariant_step h.invariant hkeeps hstep, hrest.1, hrest.2⟩

/-- In every allowed run of a worker that hosts a semaphore of which only single units are acquired:
while there are units left and fibers are blocked in its queue, a fiber in a queue of the worker is
about to acquire one. -/
theorem served_on_worker (count : ℕ) (created : Contexts F) (waiter : F)
    (waitable : W → Waitable F (Unit ⊕ R)) (as : List (Hosted.Act F Unit R W Call))
    (s : OnWorker F R W)
    (hg : Transition.Guarded (Hosted.step (script F) created waiter)
      (fun s a => Hosted.Allowed (script F) created s a ∧ a.Meets Single s)
      (Hosted.init waiter waitable (Data.init count)) as)
    (hr : Transition.run (Hosted.step (script F) created waiter)
      (Hosted.init waiter waitable (Data.init count)) as = some s) :
    0 < s.data.count → s.worker.queue (.inl ()) ≠ [] → ∃ f, s.code f = some (.acquire 1) ∧
      (f ∈ s.worker.runnableQueue ∨ f ∈ s.worker.suspendedQueue) := by
  obtain ⟨m, hinv, hm⟩ := Hosted.exists_describes (P := OneByOne)
    (fun m l m' hs hok h => hs.step hok (Script.step_eq (program_script F) rfl m l ▸ h))
    (oneByOne_idle count) hg hr
  intro hpos hq
  rw [← hm.queue ()] at hq
  have hones := hinv.invariant.chain hinv.unblockAll (by rwa [hm.data]) hq
  rw [ones_of_ne (by simp), wokenOnes, List.countP_pos_iff] at hones
  obtain ⟨f, hf, hc⟩ := hones
  rw [decide_eq_true_eq, hm.code f] at hc
  exact ⟨f, Hosted.code_of_pending (fun _ => rfl) hc, hm.woken f hf⟩

/-- Fibers 2 and 3 are blocked, and fiber 1 releases three units. Fiber 2 is woken, and is to wake
fiber 3. -/
def releasedOnWorker : List (Hosted.Act ℕ Unit Unit ℕ Call) :=
  [.other (.hatch 1), .other (.hatch 2), .other (.hatch 3), .other (.work 1 1),
    .other (.yield none 2), .call (.acquire 1) 0 0 3 true, .call (.acquire 1) 0 0 4 true,
    .call (.release 3) 0 0 5 true]

theorem served_on_worker_released :
    ∃ s, Transition.run (Hosted.step (script ℕ) .all 0)
        (Hosted.init 0 (fun _ => ⟨0, none, .timed, false⟩) (Data.init 0)) releasedOnWorker =
          some s ∧
      s.worker.queue (.inl ()) = [3] ∧ s.data.count = 3 ∧ ∃ f, s.code f = some (.acquire 1) ∧
        (f ∈ s.worker.runnableQueue ∨ f ∈ s.worker.suspendedQueue) := by
  refine ⟨_, rfl, rfl, rfl, served_on_worker 0 .all 0
    (fun _ => ⟨0, none, .timed, false⟩) releasedOnWorker _ ?_ rfl (by decide) (by decide)⟩
  exact .cons ⟨trivial, trivial⟩ rfl (.cons ⟨trivial, trivial⟩ rfl (.cons ⟨trivial, trivial⟩ rfl
    (.cons ⟨trivial, trivial⟩ rfl (.cons ⟨trivial, trivial⟩ rfl
    (.cons ⟨fun _ _ _ => rfl, le_refl 1⟩ rfl (.cons ⟨fun _ _ _ => rfl, le_refl 1⟩ rfl
    (.cons ⟨fun _ _ _ => rfl, trivial⟩ rfl trivial)))))))

end Semaphore

namespace Signal

/-- The integer of the signal does not wrap around. -/
def Fits (d : Data) : Call → Prop
  | .signal _ _ => d.signalled < 2 ^ 31 - 1
  | _ => True

omit [DecidableEq F] in
theorem noWrap_of_meets {s : State F Unit Code Data} {l : Label F Unit Call}
    (h : l.Meets Fits s) : NoWrap s l := by
  cases l with
  | call f c => cases c <;> exact h
  | resume f => trivial
  | expire q f => trivial

/-- In every allowed run of a worker that hosts a signal, with waits with and without timeouts, and
while the integer does not wrap around: it is in one of its modes, and no fiber is blocked in the
queue of the signal while it is set. -/
theorem none_blocked_on_worker (created : Contexts F) (waiter : F)
    (waitable : W → Waitable F (Unit ⊕ R)) (as : List (Hosted.Act F Unit R W Call))
    (s : Hosted F Unit R W Code Data)
    (hg : Transition.Guarded (Hosted.step (script F) created waiter)
      (fun s a => Hosted.Allowed (script F) created s a ∧ a.Meets Fits s)
      (Hosted.init waiter waitable Data.init) as)
    (hr : Transition.run (Hosted.step (script F) created waiter)
      (Hosted.init waiter waitable Data.init) as = some s) :
    -1 ≤ s.data.signalled ∧ (s.data.signalled ≠ 0 → s.worker.queue (.inl ()) = []) := by
  obtain ⟨m, hinv, hm⟩ :=
    Hosted.exists_describes (P := Invariant) (fun m l m' hs hok h =>
      hs.step (noWrap_of_meets hok) (by rwa [Script.step, program_script] at h))
      invariant_idle hg hr
  rw [← hm.data, ← hm.queue ()]
  exact ⟨hinv.modes, fun hset => by_contra fun hq => hset (hinv.blocked hq)⟩

/-- Fiber 1 signals twice and waits. It takes one of the two within its time slice, and fiber 2
does not run. -/
def takenInSlice : List (Hosted.Act ℕ Unit Unit ℕ Call) :=
  [.other (.hatch 1), .other (.hatch 2), .other (.work 1 1), .call (.signal true true) 0 0 2 true,
    .call (.signal true true) 0 0 3 true, .call .wait 0 0 4 false, .goOn 0 0 5 true]

theorem none_blocked_on_worker_takenInSlice :
    ∃ s, Transition.run (Hosted.step (script ℕ) .all 0)
        (Hosted.init 0 (fun _ => ⟨0, none, .timed, false⟩) Data.init) takenInSlice = some s ∧
      s.worker.currentFiber = some 1 ∧ s.data.signalled = 1 ∧ s.worker.queue (.inl ()) = [] := by
  refine ⟨_, rfl, rfl, rfl, (none_blocked_on_worker .all 0
    (fun _ => ⟨0, none, .timed, false⟩) takenInSlice _ ?_ rfl).2 (by decide)⟩
  exact .cons ⟨trivial, trivial⟩ rfl (.cons ⟨trivial, trivial⟩ rfl (.cons ⟨trivial, trivial⟩ rfl
    (.cons ⟨fun _ _ _ => rfl, show (0 : ℤ) < 2 ^ 31 - 1 by decide⟩ rfl
    (.cons ⟨fun _ _ _ => rfl, show (1 : ℤ) < 2 ^ 31 - 1 by decide⟩ rfl
    (.cons ⟨fun _ _ _ => rfl, trivial⟩ rfl
    (.cons ⟨fun _ _ _ _ _ => rfl, trivial⟩ rfl trivial))))))

end Signal

end Zth
