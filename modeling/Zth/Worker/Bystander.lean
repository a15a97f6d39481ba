import Zth.Worker.Safety
import Zth.Worker.Taking

/-!
# Bystanders

What an operation of the current fiber leaves alone: the queues of a synchronizer it does not
use, the fibers that are not blocked, and the alarms of other fibers. A fiber that is not
blocked stays so until it blocks itself or ends. Nothing is asked of the state of the worker
here, unless an operation takes a fiber out of a queue.
-/

namespace Zth

/-- The fiber can run, at once or after it is resumed. -/
def Fiber.Unblocked (x : Fiber) : Prop :=
  x.state = .ready ∨ x.state = .running ∨ (x.state = .new ∧ x.stateNext = .ready) ∨
    (x.state = .suspended ∧ (x.stateNext = .new ∨ x.stateNext = .ready))

namespace Fiber

variable {x : Fiber}

theorem Unblocked.wakeup (h : x.Unblocked) : x.wakeup.Unblocked := by
  rcases h with h | h | ⟨h, h'⟩ | ⟨h, h' | h'⟩ <;>
    simp [Unblocked, Fiber.wakeup, *]

theorem Unblocked.suspend (h : x.Unblocked) : x.suspend.Unblocked := by
  rcases h with h | h | ⟨h, -⟩ | ⟨h, h' | h'⟩ <;>
    simp [Unblocked, Fiber.suspend, *]

theorem Unblocked.resume (h : x.Unblocked) : x.resume.Unblocked := by
  rcases h with h | h | ⟨h, h'⟩ | ⟨h, h' | h'⟩ <;>
    simp [Unblocked, Fiber.resume, *]

theorem Unblocked.init (h : x.Unblocked) (hnew : x.state = .new) : x.init.Unblocked := by
  rcases h with h | h | ⟨-, h'⟩ | ⟨h, -⟩
  · simp [hnew] at h
  · simp [hnew] at h
  · exact .inl h'
  · simp [hnew] at h

theorem Unblocked.stop (h : x.Unblocked) : x.stop.Unblocked := by
  unfold Fiber.stop
  split
  · exact .inl rfl
  · exact h

theorem unblocked_start (x : Fiber) : x.start.Unblocked := .inr (.inl rfl)

end Fiber

namespace Worker

variable {F Q W : Type*} {p : Q → Prop} {c : Option F}

/-- The queues that `p` tells do not change, and no fiber but `c` gets blocked. -/
structure Beside (p : Q → Prop) (c : Option F) (s t : Worker F Q W) : Prop where
  queue : ∀ q, p q → t.queue q = s.queue q
  unblocked : ∀ g, some g ≠ c → (s.fiber (some g)).Unblocked → (t.fiber (some g)).Unblocked

theorem Beside.refl (s : Worker F Q W) : Beside p c s s := ⟨fun _ _ => rfl, fun _ _ h => h⟩

theorem Beside.after {s t u : Worker F Q W} (h : Beside p c t u) (hst : Beside p c s t) :
    Beside p c s u :=
  ⟨fun q hq => (h.queue q hq).trans (hst.queue q hq),
    fun g hg hs => h.unblocked g hg (hst.unblocked g hg hs)⟩

/-- Neither the queues nor the fibers change. -/
theorem Beside.of_eq {s t : Worker F Q W} (hq : t.queue = s.queue) (hf : t.fiber = s.fiber) :
    Beside p c s t :=
  ⟨fun q _ => by rw [hq], fun g _ h => by rwa [hf]⟩

/-- What else changes does not matter. -/
theorem Beside.congr {s t u : Worker F Q W} (h : Beside p c s t) (hq : u.queue = t.queue)
    (hf : u.fiber = t.fiber) : Beside p c s u :=
  Beside.after (t := t) (.of_eq hq hf) h

/-- Whatever the computation returns, the others were left alone. -/
def LeavesAlone (p : Q → Prop) (c : Option F) (s : Worker F Q W)
    (x : Except Fault (Worker F Q W)) : Prop :=
  x.Sat (fun _ => True) (Beside p c s)

theorem LeavesAlone.bind {s : Worker F Q W} {x : Except Fault (Worker F Q W)}
    {k : Worker F Q W → Except Fault (Worker F Q W)} (h : LeavesAlone p c s x)
    (hk : ∀ t, LeavesAlone p c t (k t)) : LeavesAlone p c s (x.bind k) :=
  Except.Sat.bind h fun t ht => (hk t).mono fun _ hu => hu.after ht

variable [DecidableEq F]

/-- A fiber changes, in a way that does not block it. -/
theorem Beside.setFiber (s : Worker F Q W) {r : Option F} {x : Fiber}
    (hx : r ≠ c → (s.fiber r).Unblocked → x.Unblocked) : Beside p c s (s.setFiber r x) := by
  refine ⟨fun q _ => rfl, fun g hg h => ?_⟩
  by_cases hr : some g = r
  · subst hr
    rw [setFiber_fiber_self]
    exact hx hg h
  · rwa [setFiber_fiber_of_ne s x hr]

/-- The link fields do not matter. -/
theorem Beside.setLinked {s t : Worker F Q W} (h : Beside p c s t) (f : F) (linked : Bool) :
    Beside p c s (Worker.setLinked f linked t) :=
  (Beside.setFiber t (r := some f) (x := { t.fiber (some f) with linked := linked })
    fun _ hx => hx).after h

section Schedule

theorem beside_remove (f : F) (s : Worker F Q W) :
    (remove f s).Sat (fun _ => True) (Beside p c s) := by
  rw [remove]
  split
  · have hrest : Beside p c s { s with runnableQueue := s.runnableQueue.erase f } :=
      .of_eq rfl rfl
    refine Beside.after ?_ (hrest.setLinked f false)
    exact Beside.setFiber _ fun _ hx => hx
  · trivial

theorem beside_switchTo (next : Option F) (s : Worker F Q W) :
    Beside p c s (s.switchTo next) := by
  have hstop : Beside p c s (s.setFiber s.currentFiber (s.fiber s.currentFiber).stop) :=
    Beside.setFiber s fun _ hx => hx.stop
  have hstart : ∀ t : Worker F Q W, Beside p c t (t.setFiber next (t.fiber next).start) :=
    fun t => Beside.setFiber t fun _ _ => Fiber.unblocked_start _
  exact ((hstart _).after hstop).congr rfl rfl

/-- `Fiber::run` of a fiber that is new, or of another one. -/
theorem leavesAlone_dispatch (next : Option F) (s : Worker F Q W) :
    (dispatch next s).Sat (fun _ => True) fun x => Beside p c s x.1 := by
  rw [dispatch]
  split
  · split
    · trivial
    · exact beside_switchTo next s
  · split
    · exact .refl s
    · trivial
  · exact .refl s
  all_goals trivial

theorem leavesAlone_run (created : Contexts F) (next : Option F) (s : Worker F Q W) :
    (run created next s).Sat (fun _ => True) fun x => Beside p c s x.1 :=
  sat_run
    (fun hnew _ => (leavesAlone_dispatch next _).mono fun _ hx =>
      hx.after (Beside.setFiber s fun _ hx => hx.init hnew))
    (fun _ _ => trivial) fun _ => leavesAlone_dispatch next s

theorem leavesAlone_attempt (created : Contexts F) (next : Option F) (s : Worker F Q W) :
    (attempt created next s).Sat (fun _ => True) fun x => Beside p c s x.1 := by
  cases next with
  | none => exact leavesAlone_run created none s
  | some f =>
      rw [attempt]
      split
      · exact (leavesAlone_run created _ _).mono fun _ hx => hx.after (.of_eq rfl rfl)
      · trivial

theorem leavesAlone_reschedule (created : Contexts F) (n : ℕ)
    (prefer : Option (Option F)) (did : Bool) (s : Worker F Q W) :
    (reschedule created n prefer did s).Sat (fun _ => True) fun x => Beside p c s x.1 := by
  induction n generalizing s prefer did with
  | zero => trivial
  | succ n ih =>
      rw [reschedule]
      refine (leavesAlone_attempt (p := p) (c := c) created _ s).bind ?_
      rintro ⟨t, _ | _ | _⟩ ht
      · exact ht
      · exact ht
      · dsimp only
        split
        · trivial
        · rename_i f _
          split
          · refine (leavesAlone_attempt (p := p) (c := c) created none t).bind ?_
            rintro ⟨u, _ | _ | _⟩ hu
            · exact hu.after ht
            · trivial
            · trivial
          · refine (beside_remove (p := p) (c := c) f t).bind fun u hu => ?_
            exact (ih none true u).mono fun _ hv => hv.after (hu.after ht)

/-- `schedule`. -/
theorem beside_schedule (created : Contexts F) (prefer : Option (Option F)) (now : ℕ)
    (s : Worker F Q W) :
    (schedule created prefer now s).Sat (fun _ => True) fun x => Beside p c s x.1 := by
  rw [schedule]
  split
  · exact .refl s
  · split
    · trivial
    · exact leavesAlone_reschedule created _ _ _ s

end Schedule

section Operations

theorem leavesAlone_add (f : F) (front : Bool) (s : Worker F Q W) :
    LeavesAlone p c s (add f front s) := by
  rw [add]
  split
  · trivial
  · split
    · trivial
    · split
      · have hrest : Beside p c s { s with suspendedQueue := s.suspendedQueue ++ [f] } :=
          .of_eq rfl rfl
        exact hrest.setLinked f true
      · have hrest : Beside p c s { s with
            runnableQueue := if front then f :: s.runnableQueue else s.runnableQueue ++ [f] } :=
          .of_eq rfl rfl
        exact hrest.setLinked f true

theorem leavesAlone_release (f : F) (s : Worker F Q W) :
    LeavesAlone p c s (release f s) := by
  rw [release]
  split
  · split
    · have hrest : Beside p c s { s with suspendedQueue := s.suspendedQueue.erase f } :=
        .of_eq rfl rfl
      exact hrest.setLinked f false
    · trivial
  · split
    · have hrest : Beside p c s { s with runnableQueue := s.runnableQueue.erase f } :=
        .of_eq rfl rfl
      exact hrest.setLinked f false
    · trivial

/-- A fiber changes, in a way that does not block it, and is added. -/
theorem leavesAlone_add_setFiber (f : F) (front : Bool) {x : Fiber} {s : Worker F Q W}
    (hx : some f ≠ c → (s.fiber (some f)).Unblocked → x.Unblocked) :
    LeavesAlone p c s (add f front (s.setFiber (some f) x)) :=
  (leavesAlone_add f front _).mono fun _ ht => ht.after (Beside.setFiber s hx)

theorem leavesAlone_hatch (f : F) (s : Worker F Q W) : LeavesAlone p c s (hatch f s) :=
  leavesAlone_add_setFiber f false fun _ _ => .inr (.inr (.inl ⟨rfl, rfl⟩))

theorem leavesAlone_wakeFiber (f : F) (prio : Bool) (s : Worker F Q W) :
    LeavesAlone p c s (wakeFiber f prio s) :=
  leavesAlone_add_setFiber f prio fun _ hx => hx.wakeup

theorem leavesAlone_suspendOther (f : F) (s : Worker F Q W) :
    LeavesAlone p c s (suspendOther f s) := by
  have hset : ∀ t : Worker F Q W, Beside p c t
      { t.setFiber (some f) (t.fiber (some f)).suspend with
        held := Function.update t.held f true } :=
    fun t => (Beside.setFiber t fun _ hx => hx.suspend).congr rfl rfl
  have hmove : LeavesAlone p c s ((release f s).bind fun s =>
      add f false { s.setFiber (some f) (s.fiber (some f)).suspend with
        held := Function.update s.held f true }) := by
    refine (leavesAlone_release f s).bind fun t => ?_
    exact (leavesAlone_add f false _).mono fun _ hu => hu.after (hset t)
  rw [suspendOther]
  split
  · exact hmove
  · exact hmove
  · exact hmove
  · exact hset s
  all_goals exact .refl s

theorem leavesAlone_suspend (created : Contexts F) (f : F) (now : ℕ)
    (s : Worker F Q W) : LeavesAlone p c s ((suspend created f now s).map Prod.fst) := by
  refine Except.Sat.map (P := fun x => Beside p c s x.1) ?_ fun _ hx => hx
  rw [suspend]
  split
  · refine Except.Sat.bind (leavesAlone_suspendOther (p := p) (c := c) f s) fun t ht => ?_
    split
    · exact (beside_schedule created none now t).mono fun _ hx => hx.after ht
    · trivial
  · exact Except.Sat.map (leavesAlone_suspendOther f s) fun _ ht => ht

theorem leavesAlone_resume (f : F) (s : Worker F Q W) :
    LeavesAlone p c s (resume f s) := by
  have hheld : Beside p c s { s with held := Function.update s.held f false } :=
    .of_eq rfl rfl
  rw [resume]
  dsimp only
  split
  · refine Except.Sat.bind (leavesAlone_release (p := p) (c := c) f _) fun t ht => ?_
    exact (leavesAlone_add_setFiber f false fun _ hx => hx.resume).mono fun _ hu =>
      hu.after (ht.after hheld)
  · exact hheld

end Operations

section Synchronizer

variable [DecidableEq Q]

omit [DecidableEq F] in
/-- Another queue changes. -/
theorem Beside.setQueue {q : Q} (hq : ¬ p q) (l : List F) (s : Worker F Q W) :
    Beside p c s (s.setQueue q l) := by
  refine ⟨fun q' hq' => Function.update_of_ne ?_ _ _, fun _ _ h => h⟩
  rintro rfl
  exact hq hq'

/-- The fiber `c` enters another queue. -/
theorem leavesAlone_enterQueue {q : Q} (hq : ¬ p q) (f : F) (s : Worker F Q W) :
    LeavesAlone p (some f) s (enterQueue q f s) := by
  refine (leavesAlone_release f s).bind fun t => ?_
  rw [enqueue]
  split
  · trivial
  · have hset := (Beside.setQueue (c := some f) hq (t.queue q ++ [f]) t).setLinked f true
    exact (Beside.setFiber _ fun hne => absurd rfl hne).after hset

theorem leavesAlone_block (created : Contexts F) {q : Q} (hq : ¬ p q) (f : F) (now : ℕ)
    (s : Worker F Q W) :
    LeavesAlone p (some f) s ((block created q f now s).map Prod.fst) := by
  refine Except.Sat.map (P := fun x => Beside p (some f) s x.1) ?_ fun _ hx => hx
  refine Except.Sat.bind (leavesAlone_enterQueue hq f s) fun t ht => ?_
  exact (beside_schedule created none now t).mono fun _ hx => hx.after ht

/-- A fiber is taken out of another queue and woken. -/
theorem leavesAlone_take {q : Q} (hq : ¬ p q) (f : F) (prio : Bool) (l : List F)
    (s : Worker F Q W) :
    LeavesAlone p c s (wakeFiber f prio (setLinked f false (s.setQueue q l))) :=
  (leavesAlone_wakeFiber f prio _).mono fun _ ht =>
    ht.after ((Beside.setQueue hq l s).setLinked f false)

theorem beside_unblock {q : Q} (hq : ¬ p q) (f : F) (prio : Bool) (s : Worker F Q W) :
    (unblock q f prio s).Sat (fun _ => True) fun x => Beside p c s x.1 := by
  rw [unblock]
  split
  · exact (leavesAlone_take hq f prio _ s).map fun _ ht => ht
  · exact .refl s

theorem leavesAlone_unblockFirst {q : Q} (hq : ¬ p q) (prio : Bool) (s : Worker F Q W) :
    LeavesAlone p c s (unblockFirst q prio s) := by
  rw [unblockFirst]
  split
  · exact .refl s
  · exact leavesAlone_take hq _ prio _ s

theorem leavesAlone_unblockAll {q : Q} (hq : ¬ p q) (prio : Bool) (n : ℕ) (s : Worker F Q W) :
    LeavesAlone p c s (unblockAll q prio n s) := by
  induction n generalizing s with
  | zero => exact .refl s
  | succ n ih => exact (leavesAlone_unblockFirst hq prio s).bind ih

end Synchronizer

end Worker

end Zth
