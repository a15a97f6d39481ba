import Zth.Worker.Footprint

/-!
# Operations that spare the waiter

What happens to other fibers does not suspend the waiter, as long as it does not wait for anything
itself: its state only changes when it is resumed, or when it starts or stops to run.
-/

namespace Zth

namespace Fiber

/-- The fiber does not wait, and is not going to wait or to be suspended. -/
structure Plain (x : Fiber) : Prop where
  state : x.state ≠ .waiting
  next : x.stateNext ≠ .waiting ∧ x.stateNext ≠ .suspended

/-- A fiber that does not wait still does not, and was not suspended. -/
def GoesOn (x y : Fiber) : Prop :=
  x.Plain → y.Plain ∧ (y.state = .suspended → x.state = .suspended)

theorem GoesOn.refl (x : Fiber) : x.GoesOn x := fun h => ⟨h, id⟩

theorem GoesOn.trans {x y z : Fiber} (h : x.GoesOn y) (h' : y.GoesOn z) : x.GoesOn z :=
  fun hx => ⟨(h' (h hx).1).1, fun hz => (h hx).2 ((h' (h hx).1).2 hz)⟩

theorem goesOn_construct (x : Fiber) : x.GoesOn { construct with used := true } :=
  fun _ => ⟨⟨by simp [construct], by simp [construct]⟩, fun h => by cases h⟩

theorem goesOn_init (x : Fiber) : x.GoesOn x.init :=
  fun h => ⟨⟨h.next.1, by simp [init]⟩, fun hs => absurd hs h.next.2⟩

theorem goesOn_stop (x : Fiber) : x.GoesOn x.stop := by
  intro h
  rw [stop]
  split
  · exact ⟨⟨by simp, h.next⟩, fun hs => by cases hs⟩
  · exact ⟨h, id⟩

theorem goesOn_start (x : Fiber) : x.GoesOn x.start :=
  fun h => ⟨⟨by simp [start], h.next⟩, fun hs => by cases hs⟩

theorem goesOn_kill (x : Fiber) : x.GoesOn x.kill :=
  fun h => ⟨⟨by simp [kill], h.next⟩, fun hs => by cases hs⟩

theorem goesOn_wakeup (x : Fiber) : x.GoesOn x.wakeup := by
  intro h
  rw [wakeup]
  split
  · rename_i hstate
    exact absurd hstate h.state
  · rw [if_neg h.next.1]
    exact ⟨h, id⟩
  · exact ⟨h, id⟩

/-- A resumed fiber is not suspended. -/
theorem Plain.resume {x : Fiber} (h : x.Plain) : x.resume.Plain ∧ x.resume.state ≠ .suspended := by
  rw [Fiber.resume]
  split
  · split
    · exact ⟨⟨by simp, by simp⟩, by simp⟩
    · exact ⟨⟨h.next.1, h.next⟩, h.next.2⟩
  · rename_i hstate
    exact ⟨h, hstate⟩

theorem goesOn_resume (x : Fiber) : x.GoesOn x.resume :=
  fun h => ⟨h.resume.1, fun hs => absurd hs h.resume.2⟩

theorem Plain.suspend {x : Fiber} (h : x.Plain) : x.suspend.Plain := by
  rw [Fiber.suspend]
  split
  · exact ⟨by simp, by simp⟩
  · exact ⟨by simp, by simp⟩
  · exact ⟨by simp, by simp⟩
  · rename_i hstate
    exact absurd hstate h.state
  all_goals exact h

end Fiber

namespace Worker

variable {F Q W : Type*} [DecidableEq F] {waiter : F} {s : Worker F Q W}

/-- The waiter goes on, if it does not wait. Otherwise, only fibers and their queues differ. -/
structure Spares (waiter : F) (s t : Worker F Q W) : Prop where
  rest : FibersOnly s t
  waiter : (s.fiber (some waiter)).GoesOn (t.fiber (some waiter))

omit [DecidableEq F] in
theorem Spares.refl (s : Worker F Q W) : Spares waiter s s := ⟨rfl, .refl _⟩

omit [DecidableEq F] in
theorem Spares.after {t u : Worker F Q W} (h : Spares waiter t u) (hst : Spares waiter s t) :
    Spares waiter s u :=
  ⟨h.rest.after hst.rest, hst.waiter.trans h.waiter⟩

/-- A fiber changes in a way in which the waiter may change. -/
theorem spares_setFiber {r : Option F} {x : Fiber} (hx : (s.fiber r).GoesOn x) :
    Spares waiter s (s.setFiber r x) := by
  refine ⟨rfl, ?_⟩
  rw [setFiber]
  dsimp only
  by_cases hr : some waiter = r
  · rw [hr, Function.update_self]
    exact hx
  · rw [Function.update_of_ne hr]
    exact .refl _

/-- Another fiber changes. -/
theorem spares_setFiber_of_ne {f : F} (hf : f ≠ waiter) (x : Fiber) :
    Spares waiter s (s.setFiber (some f) x) := by
  refine ⟨rfl, ?_⟩
  rw [setFiber]
  dsimp only
  rw [Function.update_of_ne (by simpa using hf.symm)]
  exact .refl _

theorem spares_setLinked (f : F) (linked : Bool) : Spares waiter s (setLinked f linked s) :=
  spares_setFiber fun h => ⟨⟨h.state, h.next⟩, id⟩

/-- What is returned spares the waiter. -/
def SparesWaiter (waiter : F) (s : Worker F Q W) (x : Except Fault (Worker F Q W)) : Prop :=
  x.Sat (fun _ => True) (Spares waiter s)

omit [DecidableEq F] in
theorem SparesWaiter.bind {x : Except Fault (Worker F Q W)}
    {k : Worker F Q W → Except Fault (Worker F Q W)} (h : SparesWaiter waiter s x)
    (hk : ∀ t, SparesWaiter waiter t (k t)) : SparesWaiter waiter s (x.bind k) :=
  Except.Sat.bind h fun t ht => (hk t).mono fun _ hu => hu.after ht

omit [DecidableEq F] in
/-- The computation starts in a state that spares the waiter. -/
theorem SparesWaiter.from {t : Worker F Q W} {x : Except Fault (Worker F Q W)}
    (h : SparesWaiter waiter t x) (hst : Spares waiter s t) : SparesWaiter waiter s x :=
  h.mono fun _ hu => hu.after hst

variable (waiter)

section Schedule

theorem spares_switchTo (next : Option F) : Spares waiter s (s.switchTo next) := by
  have hstop : Spares waiter s (s.setFiber s.currentFiber (s.fiber s.currentFiber).stop) :=
    spares_setFiber (Fiber.goesOn_stop _)
  have hstart : Spares waiter (s.setFiber s.currentFiber (s.fiber s.currentFiber).stop)
      (s.switchTo next) :=
    ⟨rfl, (spares_setFiber (Fiber.goesOn_start _)).waiter⟩
  exact hstart.after hstop

theorem spares_remove (f : F) (s : Worker F Q W) : SparesWaiter waiter s (remove f s) := by
  rw [remove]
  split
  · have hunlink : Spares waiter s
        (setLinked f false { s with runnableQueue := s.runnableQueue.erase f }) :=
      (spares_setLinked f false).after ⟨rfl, .refl _⟩
    refine Spares.after ?_ hunlink
    exact spares_setFiber fun h => ⟨⟨h.state, h.next⟩, id⟩
  · trivial

theorem scheduling_spares : Scheduling (Spares waiter : Worker F Q W → Worker F Q W → Prop) where
  refl := .refl
  after := Spares.after
  switchTo next _ := spares_switchTo waiter next
  init _ _ := spares_setFiber (Fiber.goesOn_init _)
  rotate _ _ := ⟨rfl, .refl _⟩
  remove := spares_remove waiter

theorem spares_schedule (created : Contexts F) (prefer : Option (Option F)) (now : ℕ)
    (s : Worker F Q W) :
    (schedule created prefer now s).Sat (fun _ => True) fun x => Spares waiter s x.1 :=
  (scheduling_spares waiter).schedule created prefer now s

end Schedule

theorem spares_add (f : F) (front : Bool) (s : Worker F Q W) :
    SparesWaiter waiter s (add f front s) := by
  rw [add]
  split
  · trivial
  · split
    · trivial
    · split
      · exact (spares_setLinked f true).after ⟨rfl, .refl _⟩
      · exact (spares_setLinked f true).after ⟨rfl, .refl _⟩

theorem spares_release (f : F) (s : Worker F Q W) : SparesWaiter waiter s (release f s) := by
  rw [release]
  split
  · split
    · exact (spares_setLinked f false).after ⟨rfl, .refl _⟩
    · trivial
  · split
    · exact (spares_setLinked f false).after ⟨rfl, .refl _⟩
    · trivial

theorem spares_resume (f : F) (s : Worker F Q W) : SparesWaiter waiter s (resume f s) := by
  rw [resume]
  dsimp only
  split
  · refine (SparesWaiter.bind (spares_release waiter f _) fun t => ?_).from ⟨rfl, .refl _⟩
    exact (spares_add waiter f false _).from (spares_setFiber (Fiber.goesOn_resume _))
  · exact ⟨rfl, .refl _⟩

theorem spares_wakeFiber (f : F) (prio : Bool) (s : Worker F Q W) :
    SparesWaiter waiter s (wakeFiber f prio s) :=
  (spares_add waiter f prio _).from (spares_setFiber (Fiber.goesOn_wakeup _))

variable {waiter} in
/-- Another fiber is suspended. -/
theorem spares_suspendOther {f : F} (hf : f ≠ waiter) (s : Worker F Q W) :
    SparesWaiter waiter s (suspendOther f s) := by
  have hset : ∀ t : Worker F Q W, Spares waiter t
      { t.setFiber (some f) (t.fiber (some f)).suspend with
        held := Function.update t.held f true } := fun t =>
    ⟨rfl, (spares_setFiber_of_ne hf _).waiter⟩
  have hmove : SparesWaiter waiter s ((release f s).bind fun s =>
      add f false { s.setFiber (some f) (s.fiber (some f)).suspend with
        held := Function.update s.held f true }) :=
    (spares_release waiter f s).bind fun t => (spares_add waiter f false _).from (hset t)
  rw [suspendOther]
  split
  · exact hmove
  · exact hmove
  · exact hmove
  · exact hset s
  all_goals exact .refl s

variable {waiter} in
theorem spares_suspend (created : Contexts F) {f : F} (hf : f ≠ waiter) (now : ℕ)
    (s : Worker F Q W) : SparesWaiter waiter s ((suspend created f now s).map Prod.fst) := by
  refine Except.Sat.map (P := fun x => Spares waiter s x.1) ?_ fun _ hx => hx
  rw [suspend]
  split
  · refine Except.Sat.bind (spares_suspendOther hf s) fun t ht => ?_
    split
    · exact (spares_schedule waiter created none now t).mono fun _ hx => hx.after ht
    · trivial
  · exact Except.Sat.map (spares_suspendOther hf s) fun _ ht => ht

section Synchronizer

variable [DecidableEq Q]

variable {waiter} in
/-- Another fiber enters a queue of a synchronizer. -/
theorem spares_enterQueue (q : Q) {f : F} (hf : f ≠ waiter) (s : Worker F Q W) :
    SparesWaiter waiter s (enterQueue q f s) := by
  refine (spares_release waiter f s).bind fun t => ?_
  rw [enqueue]
  split
  · trivial
  · have hlink : Spares waiter t (setLinked f true (t.setQueue q (t.queue q ++ [f]))) :=
      (spares_setLinked f true).after ⟨rfl, .refl _⟩
    exact (spares_setFiber_of_ne hf _).after hlink

theorem spares_unblock (q : Q) (f : F) (prio : Bool) (s : Worker F Q W) :
    (unblock q f prio s).Sat (fun _ => True) fun x => Spares waiter s x.1 := by
  rw [unblock]
  split
  · refine Except.Sat.map (P := Spares waiter s) ?_ fun _ hx => hx
    exact (spares_wakeFiber waiter f prio _).from ((spares_setLinked f false).after ⟨rfl, .refl _⟩)
  · exact .refl s

theorem spares_unblockFirst (q : Q) (prio : Bool) (s : Worker F Q W) :
    SparesWaiter waiter s (unblockFirst q prio s) := by
  rw [unblockFirst]
  split
  · exact .refl s
  · rename_i f fs _
    exact (spares_wakeFiber waiter f prio _).from ((spares_setLinked f false).after ⟨rfl, .refl _⟩)

theorem spares_unblockAll (q : Q) (prio : Bool) (n : ℕ) (s : Worker F Q W) :
    SparesWaiter waiter s (unblockAll q prio n s) := by
  induction n generalizing s with
  | zero => exact .refl s
  | succ n ih => exact (spares_unblockFirst waiter q prio s).bind ih

end Synchronizer

end Worker

end Zth
