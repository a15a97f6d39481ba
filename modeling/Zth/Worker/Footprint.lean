import Zth.Library.Fallible
import Zth.Worker.System

/-!
# What the operations leave alone

The operations of the worker and of the synchronizers only touch the fibers and the
queues they are in. Those of the waiter also touch waitables, but they keep the waiting
list in order, and none of them makes the waiter sleep. Nothing is asked of the state
of the fibers here, so this holds in every run, also in one that fails later.
-/

namespace Zth

namespace Worker

variable {F Q W : Type*} [DecidableEq F]

/-- Only the fibers and the queues they are in differ. -/
def FibersOnly (s t : Worker F Q W) : Prop :=
  t = { s with
    fiber := t.fiber, currentFiber := t.currentFiber, runnableQueue := t.runnableQueue,
    suspendedQueue := t.suspendedQueue, queue := t.queue, held := t.held }

omit [DecidableEq F] in
theorem FibersOnly.after {s t u : Worker F Q W} (h : FibersOnly t u) (hst : FibersOnly s t) :
    FibersOnly s u := by
  rw [FibersOnly] at h hst ⊢
  rw [h, hst]

/-- Only the states, the current fiber and the runnable queue differ. -/
def Rescheduled (s t : Worker F Q W) : Prop :=
  t = { s with
    fiber := t.fiber, currentFiber := t.currentFiber, runnableQueue := t.runnableQueue }

omit [DecidableEq F] in
theorem Rescheduled.after {s t u : Worker F Q W} (h : Rescheduled t u)
    (hst : Rescheduled s t) : Rescheduled s u := by
  rw [Rescheduled] at h hst ⊢
  rw [h, hst]

omit [DecidableEq F] in
theorem Rescheduled.fibersOnly {s t : Worker F Q W} (h : Rescheduled s t) :
    FibersOnly s t := by
  rw [Rescheduled] at h
  rw [FibersOnly, h]

section Schedule

/-- A relation that holds between the states before and after each piece of `schedule`. -/
structure Scheduling (R : Worker F Q W → Worker F Q W → Prop) : Prop where
  refl : ∀ s, R s s
  after : ∀ {s t u}, R t u → R s t → R s u
  switchTo : ∀ next s, R s (s.switchTo next)
  init : ∀ next s, R s (s.setFiber next (s.fiber next).init)
  rotate : ∀ queue s, R s { s with runnableQueue := queue }
  remove : ∀ f s, (Worker.remove f s).Sat (fun _ => True) (R s)

variable {R : Worker F Q W → Worker F Q W → Prop}

theorem Scheduling.dispatch (h : Scheduling R) (next : Option F) (s : Worker F Q W) :
    (Worker.dispatch next s).Sat (fun _ => True) fun x => R s x.1 := by
  rw [Worker.dispatch]
  split
  · split
    · trivial
    · exact h.switchTo next s
  · split
    · exact h.refl s
    · trivial
  · exact h.refl s
  all_goals trivial

/-- `Fiber::run` has the context of the fiber, or creates it, or the worker aborts. -/
theorem sat_run {created : Contexts F} {next : Option F} {s : Worker F Q W} {bad : Fault → Prop}
    {P : Worker F Q W × Run → Prop}
    (hcreate : (s.fiber next).state = .new → created.res next = .ok →
      (Worker.dispatch next (s.setFiber next (s.fiber next).init)).Sat bad P)
    (hfail : (s.fiber next).state = .new → created.res next = .other → bad .abort)
    (hdispatch : (s.fiber next).state ≠ .new → (Worker.dispatch next s).Sat bad P) :
    (Worker.run created next s).Sat bad P := by
  rw [Worker.run]
  split
  · rename_i hnew
    split
    · exact hcreate hnew ‹_›
    · exact absurd ‹_› (created.ne_eagain next)
    · exact absurd ‹_› (created.ne_eperm next)
    · exact hfail hnew ‹_›
  · exact hdispatch ‹_›

theorem Scheduling.run (h : Scheduling R) (created : Contexts F) (next : Option F)
    (s : Worker F Q W) :
    (Worker.run created next s).Sat (fun _ => True) fun x => R s x.1 :=
  sat_run (fun _ _ => (h.dispatch next _).mono fun _ hx => h.after hx (h.init next s))
    (fun _ _ => trivial) fun _ => h.dispatch next s

theorem Scheduling.attempt (h : Scheduling R) (created : Contexts F) (next : Option F)
    (s : Worker F Q W) :
    (Worker.attempt created next s).Sat (fun _ => True) fun x => R s x.1 := by
  cases next with
  | none => exact h.run created none s
  | some f =>
      rw [Worker.attempt]
      split
      · exact (h.run created _ _).mono fun _ hx => h.after hx (h.rotate _ s)
      · trivial

theorem Scheduling.reschedule (h : Scheduling R) (created : Contexts F) (n : ℕ)
    (prefer : Option (Option F)) (did : Bool) (s : Worker F Q W) :
    (Worker.reschedule created n prefer did s).Sat (fun _ => True) fun x => R s x.1 := by
  induction n generalizing s prefer did with
  | zero => trivial
  | succ n ih =>
      rw [Worker.reschedule]
      refine (h.attempt created _ s).bind ?_
      rintro ⟨t, _ | _ | _⟩ ht
      · exact ht
      · exact ht
      · dsimp only
        split
        · trivial
        · rename_i f _
          split
          · refine (h.attempt created none t).bind ?_
            rintro ⟨u, _ | _ | _⟩ hu
            · exact h.after hu ht
            · trivial
            · trivial
          · refine (h.remove f t).bind fun u hu => ?_
            exact (ih none true u).mono fun _ hv => h.after hv (h.after hu ht)

theorem Scheduling.schedule (h : Scheduling R) (created : Contexts F)
    (prefer : Option (Option F)) (now : ℕ) (s : Worker F Q W) :
    (Worker.schedule created prefer now s).Sat (fun _ => True) fun x => R s x.1 := by
  rw [Worker.schedule]
  split
  · exact h.refl s
  · split
    · trivial
    · exact h.reschedule created _ _ _ s

theorem rescheduled_remove (f : F) (s : Worker F Q W) :
    (remove f s).Sat (fun _ => True) (Rescheduled s) := by
  rw [remove]
  split
  · rfl
  · trivial

theorem scheduling_rescheduled : Scheduling (Rescheduled : Worker F Q W → Worker F Q W → Prop) where
  refl _ := rfl
  after := Rescheduled.after
  switchTo _ _ := rfl
  init _ _ := rfl
  rotate _ _ := rfl
  remove := rescheduled_remove

theorem rescheduled_attempt (created : Contexts F) (next : Option F)
    (s : Worker F Q W) :
    (attempt created next s).Sat (fun _ => True) fun x => Rescheduled s x.1 :=
  scheduling_rescheduled.attempt created next s

theorem rescheduled_schedule (created : Contexts F) (prefer : Option (Option F))
    (now : ℕ) (s : Worker F Q W) :
    (schedule created prefer now s).Sat (fun _ => True) fun x => Rescheduled s x.1 :=
  scheduling_rescheduled.schedule created prefer now s

end Schedule

/-- Whatever the computation returns, only the fibers and their queues differ. -/
def KeepsRest (s : Worker F Q W) (x : Except Fault (Worker F Q W)) : Prop :=
  x.Sat (fun _ => True) (FibersOnly s)

omit [DecidableEq F] in
theorem KeepsRest.bind {s : Worker F Q W} {x : Except Fault (Worker F Q W)}
    {k : Worker F Q W → Except Fault (Worker F Q W)} (h : KeepsRest s x)
    (hk : ∀ t, KeepsRest t (k t)) : KeepsRest s (x.bind k) :=
  Except.Sat.bind h fun t ht => (hk t).mono fun _ hu => hu.after ht

theorem keepsRest_add (f : F) (front : Bool) (s : Worker F Q W) :
    KeepsRest s (add f front s) := by
  rw [add]
  split
  · trivial
  · split
    · trivial
    · split <;> rfl

/-- A fiber changes in some way and is added. -/
theorem keepsRest_add_setFiber (f : F) (front : Bool) (x : Fiber) (s : Worker F Q W) :
    KeepsRest s (add f front (s.setFiber (some f) x)) :=
  (keepsRest_add f front (s.setFiber (some f) x)).mono fun _ ht => ht.after rfl

theorem keepsRest_release (f : F) (s : Worker F Q W) : KeepsRest s (release f s) := by
  rw [release]
  split
  · split
    · rfl
    · trivial
  · split
    · rfl
    · trivial

theorem keepsRest_schedule (created : Contexts F) (prefer : Option (Option F))
    (now : ℕ) (s : Worker F Q W) :
    KeepsRest s ((schedule created prefer now s).map Prod.fst) :=
  (rescheduled_schedule created prefer now s).map fun _ hx => hx.fibersOnly

theorem keepsRest_suspendOther (f : F) (s : Worker F Q W) :
    KeepsRest s (suspendOther f s) := by
  have hmove : KeepsRest s ((release f s).bind fun s =>
      add f false { s.setFiber (some f) (s.fiber (some f)).suspend with
        held := Function.update s.held f true }) := by
    refine (keepsRest_release f s).bind fun t => ?_
    exact (keepsRest_add f false _).mono fun _ hu => hu.after rfl
  rw [suspendOther]
  split
  · exact hmove
  · exact hmove
  · exact hmove
  all_goals rfl

theorem keepsRest_suspend (created : Contexts F) (f : F) (now : ℕ)
    (s : Worker F Q W) : KeepsRest s ((suspend created f now s).map Prod.fst) := by
  refine Except.Sat.map (P := fun x => FibersOnly s x.1) ?_ fun _ hx => hx
  rw [suspend]
  split
  · refine Except.Sat.bind (keepsRest_suspendOther f s) fun t ht => ?_
    split
    · exact (rescheduled_schedule created none now t).mono fun _ hx => hx.fibersOnly.after ht
    · trivial
  · exact Except.Sat.map (keepsRest_suspendOther f s) fun _ ht => ht

theorem keepsRest_resume (f : F) (s : Worker F Q W) : KeepsRest s (resume f s) := by
  rw [resume]
  dsimp only
  split
  · refine Except.Sat.bind (keepsRest_release f _) fun t ht => ?_
    exact (keepsRest_add_setFiber f false _ t).mono fun _ hu => hu.after (ht.after rfl)
  · rfl

section Synchronizer

variable [DecidableEq Q]

theorem keepsRest_enterQueue (q : Q) (f : F) (s : Worker F Q W) :
    KeepsRest s (enterQueue q f s) := by
  refine (keepsRest_release f s).bind fun t => ?_
  rw [enqueue]
  split
  · trivial
  · rfl

theorem keepsRest_block (created : Contexts F) (q : Q) (f : F) (now : ℕ)
    (s : Worker F Q W) : KeepsRest s ((block created q f now s).map Prod.fst) := by
  refine Except.Sat.map (P := fun x => FibersOnly s x.1) ?_ fun _ hx => hx
  refine Except.Sat.bind (keepsRest_enterQueue q f s) fun t ht => ?_
  exact (rescheduled_schedule created none now t).mono fun _ hx => hx.fibersOnly.after ht

theorem keepsRest_unblock (q : Q) (f : F) (prio : Bool) (s : Worker F Q W) :
    (unblock q f prio s).Sat (fun _ => True) fun x => FibersOnly s x.1 := by
  rw [unblock]
  split
  · refine Except.Sat.map (P := FibersOnly s) ?_ fun _ hx => hx
    exact (keepsRest_add_setFiber f prio _ _).mono fun _ ht => ht.after rfl
  · rfl

theorem keepsRest_unblockFirst (q : Q) (prio : Bool) (s : Worker F Q W) :
    KeepsRest s (unblockFirst q prio s) := by
  rw [unblockFirst]
  split
  · rfl
  · exact (keepsRest_add_setFiber _ prio _ _).mono fun _ ht => ht.after rfl

theorem keepsRest_unblockAll (q : Q) (prio : Bool) (n : ℕ) (s : Worker F Q W) :
    KeepsRest s (unblockAll q prio n s) := by
  induction n generalizing s with
  | zero => rfl
  | succ n ih => exact (keepsRest_unblockFirst q prio s).bind ih

end Synchronizer

end Worker

end Zth
