import Zth.Sync.Scripts
import Zth.Sync.Simulation

/-!
# A gate, a future and a mailbox on a worker

A gate lets a whole generation of fibers go on, and a future everybody who waits for it. On a
worker, going on means to be in one of its queues, and not to go on means to be in the queue of the
synchronizer. A mailbox hands over what is put in it, whichever fiber the worker runs.
-/

namespace Zth

open Monitor

variable {F R W : Type*} [DecidableEq F] [DecidableEq R] [LinearOrder W]

namespace Gate

/-- A gate that is hosted by a worker. -/
abbrev OnWorker (F R W : Type*) := Hosted F Unit R W Code (Data F)

theorem step_script (count : ℕ) (s : State F Unit Code (Data F)) (l : Label F Unit Call) :
    (script F count).step s l = step count s l := by
  rw [Script.step, program_script]
  rfl

/-- In every allowed run of a worker that hosts a gate: every `count` passes complete a generation,
and a fiber that is in `wait` is in the queue of the gate exactly as long as the generation of its
own pass is not completed. After that it is in a queue of the worker. -/
theorem barrier_on_worker (count : ℕ) (hpos : 1 ≤ count) (hcount : count < 2 ^ 64)
    (created : Contexts F) (waiter : F) (waitable : W → Waitable F (Unit ⊕ R))
    (as : List (Hosted.Act F Unit R W Call)) (s : OnWorker F R W)
    (hg : Transition.Guarded (Hosted.step (script F count) created waiter)
      (Hosted.Allowed (script F count) created) (Hosted.init waiter waitable (Data.init F)) as)
    (hr : Transition.run (Hosted.step (script F count) created waiter)
      (Hosted.init waiter waitable (Data.init F)) as = some s) :
    s.data.current < count ∧ s.data.completed = s.data.passes / count ∧
      ∀ f, s.pending (script F count) f ≠ none →
        (f ∈ s.worker.queue (.inl ()) ↔ s.data.completed ≤ s.data.own f / count) ∧
        (s.data.own f / count < s.data.completed →
          f ∈ s.worker.runnableQueue ∨ f ∈ s.worker.suspendedQueue) := by
  obtain ⟨m, h, hm⟩ := Hosted.exists_describes (P := Invariant count)
    (fun m l _ hs _ h => hs.step hcount (step_script count m l ▸ h)) (invariant_idle hpos)
    (Hosted.guarded_meets hg) hr
  have hqueue : ∀ f ∈ m.queue (), m.data.completed ≤ m.data.own f / count := fun f hf =>
    (Nat.le_div_iff_mul_le hpos).2 (h.queue_own f hf).1
  have hwoken : ∀ f ∈ m.woken, m.data.own f / count < m.data.completed := fun f hf =>
    (Nat.div_lt_iff_lt_mul hpos).2 (h.woken_own f hf)
  rw [← hm.data, ← hm.queue ()]
  refine ⟨h.current_lt, ?_, fun f hf => ?_⟩
  · rw [h.passes, Nat.mul_comm, Nat.mul_add_div hpos, Nat.div_eq_of_lt h.current_lt, Nat.add_zero]
  · rw [← hm.code f] at hf
    obtain hw | ⟨q, hq⟩ := (h.wellFormed.code_iff f).1 hf
    · have hlt := hwoken f hw
      refine ⟨⟨fun hq => hqueue f hq, fun hle => absurd hlt (Nat.not_lt.2 hle)⟩, fun _ => ?_⟩
      exact hm.woken f hw
    · have hle := hqueue f hq
      exact ⟨⟨fun _ => hle, fun _ => hq⟩, fun hlt => absurd hlt (Nat.not_lt.2 hle)⟩

/-- Fibers 1 and 2 wait for each other. -/
def eachOther : List (Hosted.Act ℕ Unit Unit ℕ Call) :=
  [.other (.hatch 1), .other (.hatch 2), .other (.work 1 1), .call .wait 0 0 2 true,
    .call .wait 0 0 3 true]

theorem barrier_on_worker_eachOther :
    ∃ s, Transition.run (Hosted.step (script ℕ 2) .all 0)
        (Hosted.init 0 (fun _ => ⟨0, none, .timed, false⟩) (Data.init ℕ)) eachOther = some s ∧
      s.data.completed = 1 ∧ s.pending (script ℕ 2) 1 = some .waited ∧
      (1 ∈ s.worker.runnableQueue ∨ 1 ∈ s.worker.suspendedQueue) := by
  refine ⟨_, rfl, rfl, rfl, ((barrier_on_worker 2 (by decide) (by decide) .all 0
    (fun _ => ⟨0, none, .timed, false⟩) eachOther _ ?_ rfl).2.2 1 (by decide)).2 (by decide)⟩
  exact .cons trivial rfl (.cons trivial rfl (.cons trivial rfl (.cons (fun _ _ _ => rfl) rfl
    (.cons (fun _ _ _ => rfl) rfl trivial))))

end Gate

namespace Future

open Mailbox (Item)

variable {T E : Type*}

/-- The future is set once, to a value or to an exception. -/
def Once (d : Data T E) : Call T E → Prop
  | .set item => item.outcome ≠ none ∧ d.sets = []
  | _ => True

omit [DecidableEq F] in
theorem setOnce_of_meets {s : State F Unit (Code T E) (Data T E)} {l : Label F Unit (Call T E)}
    (h : l.Meets Once s) : SetOnce s l := by
  cases l with
  | call f c => cases c <;> exact h
  | resume f => trivial
  | expire q f => trivial

theorem step_script (s : State F Unit (Code T E) (Data T E)) (l : Label F Unit (Call T E)) :
    (script F T E).step s l = step s l := by
  rw [Script.step, program_script]
  rfl

/-- In every allowed run of a worker that hosts a future that is set once: a wait only returns when
the future is valid, every call of `value` gets what was set, and when it is valid, every fiber that
waits for it is in a queue of the worker. -/
theorem broadcast_on_worker (created : Contexts F) (waiter : F)
    (waitable : W → Waitable F (Unit ⊕ R)) (as : List (Hosted.Act F Unit R W (Call T E)))
    (s : Hosted F Unit R W (Code T E) (Data T E))
    (hg : Transition.Guarded (Hosted.step (script F T E) created waiter)
      (fun s a => Hosted.Allowed (script F T E) created s a ∧ a.Meets Once s)
      (Hosted.init waiter waitable (Data.init T E)) as)
    (hr : Transition.run (Hosted.step (script F T E) created waiter)
      (Hosted.init waiter waitable (Data.init T E)) as = some s) :
    (∀ b ∈ s.data.waits, b = true) ∧
      (∀ o ∈ s.data.values, ∃ item, s.data.sets = [item] ∧ o = item.outcome ∧ o ≠ none) ∧
      (s.data.value.valid = true → s.worker.queue (.inl ()) = [] ∧
        ∀ f, s.pending (script F T E) f ≠ none →
          f ∈ s.worker.runnableQueue ∨ f ∈ s.worker.suspendedQueue) := by
  obtain ⟨m, h, hm⟩ := Hosted.exists_describes (P := Invariant)
    (fun m l _ hs hok h => hs.step (setOnce_of_meets hok) (step_script m l ▸ h))
    invariant_idle hg hr
  rw [← hm.data, ← hm.queue ()]
  obtain hp | ⟨item, hd⟩ := h.either
  · refine ⟨?_, ?_, fun hv => ?_⟩
    · rw [hp.waits]
      exact fun b hb => absurd hb List.not_mem_nil
    · rw [hp.values]
      exact fun o ho => absurd ho List.not_mem_nil
    · rw [hp.value] at hv
      cases hv
  · refine ⟨hd.waits, fun o ho => ⟨item, hd.sets, hd.values o ho, ?_⟩, fun _ => ⟨hd.queue, ?_⟩⟩
    · rw [hd.values o ho]
      exact hd.isSome
    · intro f hf
      rw [← hm.code f] at hf
      obtain hw | ⟨q, hq⟩ := (hm.wellFormed.code_iff f).1 hf
      · exact hm.woken f hw
      · rw [hd.queue] at hq
        cases hq

/-- Fiber 1 asks for the value that fiber 2 sets, and goes on with it. -/
def handedOn : List (Hosted.Act ℕ Unit Unit ℕ (Call ℕ Unit)) :=
  [.other (.hatch 1), .other (.hatch 2), .other (.work 1 1), .call .value 0 0 2 true,
    .call (.set (.value 7)) 0 0 3 true, .other (.yield (some (some 1)) 4), .goOn 0 0 5 true]

theorem broadcast_on_worker_handedOn :
    ∃ s, Transition.run (Hosted.step (script ℕ ℕ Unit) .all 0)
        (Hosted.init 0 (fun _ => ⟨0, none, .timed, false⟩) (Data.init ℕ Unit)) handedOn = some s ∧
      s.data.values = [some (.ok 7)] ∧ ∀ b ∈ s.data.waits, b = true := by
  refine ⟨_, rfl, rfl, (broadcast_on_worker .all 0
    (fun _ => ⟨0, none, .timed, false⟩) handedOn _ ?_ rfl).1⟩
  refine .cons ⟨trivial, trivial⟩ rfl (.cons ⟨trivial, trivial⟩ rfl (.cons ⟨trivial, trivial⟩ rfl
    (.cons ⟨fun _ _ _ => rfl, trivial⟩ rfl
    (.cons ⟨fun _ _ _ => rfl, by simp [Item.outcome], rfl⟩ rfl
    (.cons ⟨trivial, trivial⟩ rfl (.cons ⟨fun _ _ _ _ _ => rfl, trivial⟩ rfl trivial))))))

end Future

namespace Mailbox

variable {T E : Type*}

/-- In every allowed run of a worker that hosts a mailbox: the takes that completed got what was
put, once and in order, and the rest is still in the mailbox. A fiber that is in the middle of a
call is blocked in one of the queues of the mailbox, or it is in a queue of the worker. -/
theorem delivers_on_worker (created : Contexts F) (waiter : F)
    (waitable : W → Waitable F (Queue ⊕ R)) (as : List (Hosted.Act F Queue R W (Call T E)))
    (s : Hosted F Queue R W (Call T E) (Data F T E))
    (hg : Transition.Guarded (Hosted.step (script F T E) created waiter)
      (Hosted.Allowed (script F T E) created) (Hosted.init waiter waitable (Data.init F T E)) as)
    (hr : Transition.run (Hosted.step (script F T E) created waiter)
      (Hosted.init waiter waitable (Data.init F T E)) as = some s) :
    s.data.stored = s.data.taken ++ s.data.value.outcome.toList ∧
      ∀ f, s.pending (script F T E) f ≠ none → (∃ q, f ∈ s.worker.queue (.inl q)) ∨
        f ∈ s.worker.runnableQueue ∨ f ∈ s.worker.suspendedQueue := by
  have hidle : InOrder (State.idle (Data.init F T E) :
    State F Queue (Call T E) (Data F T E)).data := rfl
  obtain ⟨m, h, hm⟩ := Hosted.exists_describes (P := fun m => InOrder m.data)
    (fun m l _ hs _ h => inOrder_step hs (Script.step_eq (program_script F T E) rfl m l ▸ h)) hidle
    (Hosted.guarded_meets hg) hr
  rw [← hm.data]
  refine ⟨h, fun f hf => ?_⟩
  rw [← hm.code f] at hf
  obtain hw | ⟨q, hq⟩ := (hm.wellFormed.code_iff f).1 hf
  · exact Or.inr (hm.woken f hw)
  · exact Or.inl ⟨q, hm.queue q ▸ hq⟩

/-- Fiber 1 takes what fiber 2 puts. -/
def handedOver : List (Hosted.Act ℕ Queue Unit ℕ (Call ℕ Unit)) :=
  [.other (.hatch 1), .other (.hatch 2), .other (.work 1 1), .call .take 0 0 2 true,
    .call (.put (.value 5)) 0 0 3 true, .call (.put (.value 6)) 0 0 4 true, .goOn 0 0 5 true]

theorem delivers_on_worker_handedOver :
    ∃ s, Transition.run (Hosted.step (script ℕ ℕ Unit) .all 0)
        (Hosted.init 0 (fun _ => ⟨0, none, .timed, false⟩) (Data.init ℕ ℕ Unit)) handedOver =
          some s ∧
      s.data.taken = [.ok 5] ∧
      s.data.stored = s.data.taken ++ s.data.value.outcome.toList := by
  refine ⟨_, rfl, rfl, (delivers_on_worker .all 0
    (fun _ => ⟨0, none, .timed, false⟩) handedOver _ ?_ rfl).1⟩
  exact .cons trivial rfl (.cons trivial rfl (.cons trivial rfl (.cons (fun _ _ _ => rfl) rfl
    (.cons (fun _ _ _ => rfl) rfl (.cons (fun _ _ _ => rfl) rfl
    (.cons (fun _ _ _ _ _ => rfl) rfl trivial))))))

end Mailbox

end Zth
