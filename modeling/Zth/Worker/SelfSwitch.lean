import Zth.Worker.Choice

/-!
# The worker fiber is switched to itself

The worker fiber is ready until it hands over for the first time; from then on it runs
whenever it is the current fiber. `schedule` falls back to the worker fiber when the time is
up, or when there is no fiber left to switch to. If that happens in the very first round of
`Worker::run`, the worker fiber is still ready, and it is switched to itself. This is the only
way for it, and other fibers are not switched to themselves at all, unless they go on while
they wait.
-/

namespace Zth

namespace Worker

variable {F Q W : Type*}

/-- The worker fiber calls `schedule` in a round of `Worker::run`, and never handed over
before. -/
structure Starts (s : Worker F Q W) (now : ℕ) : Prop where
  fault : s.fault = none
  current : s.currentFiber = none
  ready : (s.fiber none).state = .ready
  enabled : s.disableContextSwitch = 0
  queue : s.runnableQueue ≠ []
  time : s.runEnd = 0 ∨ now < s.runEnd

/-- The first time, the end of the run does not pass between the test of `Worker::run` and the
one of `schedule`, and some fiber in the queue is not dead. -/
def InTime (s : Worker F Q W) : Deed F Q W → Prop
  | .act (.work now now') => s.Starts now → (s.runEnd = 0 ∨ now' ≤ s.runEnd) ∧
      ∃ f ∈ s.runnableQueue, (s.fiber (some f)).state ≠ .dead
  | .act _ | .kill _ => True

/-- Only the worker fiber calls `Worker::run`. -/
theorem inTime_of_fiber {s : Worker F Q W} {f : F} (hcur : s.currentFiber = some f)
    (d : Deed F Q W) : s.InTime d := by
  cases d with
  | kill g => trivial
  | act a =>
      cases a with
      | work now now' =>
          intro hstarts
          cases hcur.symm.trans hstarts.current
      | _ => trivial

theorem firstAlive_eq_none_iff {s : Worker F Q W} :
    s.firstAlive = none ↔ ∀ f ∈ s.runnableQueue, (s.fiber (some f)).state = .dead := by
  simp [firstAlive, List.find?_eq_none]

variable [DecidableEq F] {s : Worker F Q W}

/-- The assertion in `Fiber::run` that a fiber is not switched to itself does not fail. -/
def Asserts [DecidableEq Q] [LinearOrder W] (created : Contexts F) (waiter : F)
    (s : Worker F Q W) : Deed F Q W → Prop
  | .act a => s.fault = none → perform created waiter s a ≠ some (.error .selfSwitch)
  | .kill _ => True

/-- The worker fiber is tried while it is current and ready. -/
theorem attempt_worker (created : Contexts F) (hcur : s.currentFiber = none)
    (hready : (s.fiber none).state = .ready) :
    attempt created none s = .error .selfSwitch := by
  rw [attempt, run, if_neg (by simp [hready]), dispatch]
  simp [hready, hcur]

/-- The loop of `schedule`, called by a worker fiber that is ready: it fails if all fibers in
the queue are dead. -/
theorem Tracked.reschedule_worker (h : s.Tracked) (created : Contexts F) {n : ℕ}
    (did : Bool) (hn : s.runnableQueue.length < n)
    (hcur : s.currentFiber = none) (hready : (s.fiber none).state = .ready) :
    reschedule created n none did s = .error .selfSwitch ↔ s.firstAlive = none := by
  have halive : (s.fiber s.currentFiber).state ≠ .dead := by simp [hcur, hready]
  have hnodup := h.consistent.nodups.runnable
  cases hfirst : s.firstAlive with
  | none =>
      obtain ⟨t, m, ht, hthead, htcur, htf⟩ :=
        reschedule_firstAlive created did hn hnodup halive
      have hworker : t.fiber none = s.fiber none := htf none (by simp [hready])
      have hattempt := attempt_worker created (htcur.trans hcur) (by rwa [hworker])
      rw [ht, reschedule, hthead, hfirst]
      simp [hattempt, Except.bind]
  | some f =>
      obtain ⟨hf, hdead⟩ := mem_of_firstAlive hfirst
      have hcf : s.currentFiber ≠ some f := by simp [hcur]
      have hsat := reschedule_switched created did hn hnodup halive hfirst hcf
        (h.canRun hf hcf hdead)
      refine iff_of_false (fun herr => ?_) (by simp)
      rw [herr] at hsat
      cases hsat.1

/-- `schedule`, called by a worker fiber that is ready. -/
theorem schedule_worker (created : Contexts F) (h : s.Tracked)
    (hcur : s.currentFiber = none) (hready : (s.fiber none).state = .ready)
    (henabled : s.disableContextSwitch = 0) (now : ℕ) :
    schedule created none now s = .error .selfSwitch ↔
      ¬ ((s.runEnd = 0 ∨ now ≤ s.runEnd) ∧
        ∃ f ∈ s.runnableQueue, (s.fiber (some f)).state ≠ .dead) := by
  by_cases hend : s.runEnd = 0 ∨ now ≤ s.runEnd
  · rw [schedule_eq_reschedule created henabled hend,
      h.reschedule_worker created false (Nat.lt_succ_self _) hcur hready, firstAlive_eq_none_iff]
    simp [hend]
  · have hlate : s.runEnd ≠ 0 ∧ s.runEnd < now := by omega
    have hattempt := attempt_worker created hcur hready
    refine iff_of_true ?_ fun hin => hend hin.1
    rw [schedule, if_neg (not_not.2 henabled)]
    simp [preferable, hlate, reschedule, hattempt, Except.bind]

variable [DecidableEq Q] [LinearOrder W]

/-- What the context of the worker does besides its rounds does not end in a switch. -/
theorem Tracked.perform_worker (h : s.Tracked) {created : Contexts F} {waiter : F}
    {a : Action F Q W} {x : Except Fault (Worker F Q W)} (hcur : s.currentFiber = none)
    (hx : Worker.perform created waiter s a = some x) :
    x.Sat Fault.Plain (fun _ => True) ∨ ∃ now now', a = .work now now' ∧
      s.runnableQueue ≠ [] ∧ (s.runEnd = 0 ∨ now < s.runEnd) ∧
      x = (Worker.schedule created none now' s).map Prod.fst := by
  rcases perform_cases hx with ⟨-, ⟨w, rfl, rfl⟩ | ⟨f, rfl, rfl⟩⟩ | ⟨f, w, rfl, hf, -, rfl⟩ |
    ⟨-, hx⟩ | ⟨hf, -⟩ | ⟨f, -, hf, -⟩ | ⟨-, hx⟩
  · exact .inl ((h.wakeup w).mono fun _ _ => trivial)
  · exact .inl ((h.resume f).mono fun _ _ => trivial)
  · cases hcur.symm.trans hf
  · unfold Worker.performWorker at hx
    split at hx
    · obtain rfl := Option.some.inj hx
      exact .inl trivial
    · rename_i now now' _
      obtain ⟨htest, hx⟩ := Option.ite_none_right_eq_some.1 hx
      exact .inr ⟨now, now', rfl, htest.1, htest.2, (Option.some.inj hx).symm⟩
    · cases hx
  · cases hcur.symm.trans hf
  · cases hcur.symm.trans hf
  · exact .inl ((h.performUser hx).mono fun _ _ => trivial)

/-- A step of the worker fiber. -/
theorem Tracked.asserts_iff (h : s.Tracked) (created : Contexts F) (waiter : F)
    (hcur : s.currentFiber = none) (d : Deed F Q W) :
    Asserts created waiter s d ↔ s.InTime d := by
  have hwork : ∀ now now', s.runnableQueue ≠ [] → (s.runEnd = 0 ∨ now < s.runEnd) →
      Worker.perform created waiter s (.work now now') =
        some ((Worker.schedule created none now' s).map Prod.fst) := by
    intro now now' hq ht
    simp [Worker.perform, Worker.performWorker, hcur, hq, ht]
  have hmap : ∀ now', (Worker.schedule created none now' s).map Prod.fst = .error .selfSwitch ↔
      Worker.schedule created none now' s = .error .selfSwitch := by
    intro now'
    cases Worker.schedule created none now' s <;> simp [Except.map]
  cases d with
  | kill f => exact Iff.rfl
  | act a =>
      constructor
      · intro hassert
        cases a with
        | work now now' =>
            intro hstarts
            by_contra hlate
            refine hassert hstarts.fault ?_
            rw [hwork now now' hstarts.queue hstarts.time, Option.some.injEq, hmap]
            exact (schedule_worker created h hcur hstarts.ready hstarts.enabled now').2 hlate
        | _ => trivial
      · intro hin hfault herr
        obtain hplain | ⟨now, now', rfl, hq, ht, hx⟩ := h.perform_worker hcur herr
        · exact hplain rfl
        · have hsch := (hmap now').1 hx.symm
          have hready : (s.fiber none).state = .ready := by
            obtain hready | ⟨-, hrun⟩ := h.one.worker
            · exact hready
            · have hsat := h.schedule created none now'
              rw [hsch] at hsat
              refine absurd rfl (hsat ?_)
              simp [Busy, hcur, hrun]
          have henabled : s.disableContextSwitch = 0 := by
            by_contra hne
            rw [Worker.schedule, if_pos hne] at hsch
            cases hsch
          exact (schedule_worker created h hcur hready henabled now').1 hsch
            (hin ⟨hfault, hcur, hready, henabled, hq, ht⟩)

/-- A step of any fiber. -/
theorem Fair.asserts_iff (h : s.Fair) (created : Contexts F) (waiter : F) (d : Deed F Q W) :
    Asserts created waiter s d ↔ s.InTime d := by
  cases hcur : s.currentFiber with
  | none => exact h.toTracked.asserts_iff created waiter hcur d
  | some f =>
      have hactive : s.Active := by
        rw [Active, hcur]
        exact (h.turn f hcur).imp_right And.left
      refine iff_of_true ?_ (inTime_of_fiber hcur d)
      cases d with
      | kill g => trivial
      | act a =>
          intro hfault herr
          exact h.toTracked.perform herr hactive rfl

/-- In every run, the worker fiber is not switched to itself exactly if the first round of
`Worker::run` is in time and finds a fiber to switch to. If fibers start to wait only while
context switching is enabled, this is so for all fibers. -/
theorem asserts_always_iff (created : Contexts F) (waiter : F) (waitable : W → Waitable F Q)
    (ds : List (Deed F Q W)) :
    (Transition.Guarded (act created waiter)
        (fun s d => s.currentFiber = none → Asserts created waiter s d)
        (init waiter waitable) ds ↔
      Transition.Guarded (act created waiter) InTime (init waiter waitable) ds) ∧
    (Transition.Guarded (act created waiter) Switchable (init waiter waitable) ds →
      (Transition.Guarded (act created waiter) (Asserts created waiter)
          (init waiter waitable) ds ↔
        Transition.Guarded (act created waiter) InTime (init waiter waitable) ds)) := by
  have hworker : ∀ (s : Worker F Q W) d, s.Tracked →
      ((s.currentFiber = none → Asserts created waiter s d) ↔ s.InTime d) := by
    intro s d hs
    cases hcur : s.currentFiber with
    | none => simpa using hs.asserts_iff created waiter hcur d
    | some f => exact iff_of_true nofun (inTime_of_fiber hcur d)
  have htracked := tracked_init waiter waitable
  have hfair := fair_init waiter waitable
  refine ⟨⟨fun hg => ?_, fun hg => ?_⟩, fun hsw => ⟨fun hg => ?_, fun hg => ?_⟩⟩
  · exact hg.imp (fun s d t hs _ ht => hs.act ht) (fun s d hs => (hworker s d hs).1) htracked
  · exact hg.imp (fun s d t hs _ ht => hs.act ht) (fun s d hs => (hworker s d hs).2) htracked
  · exact (hsw.and hg).imp (fun s d t hs hok ht => hs.act hok.1 ht)
      (fun s d hs hok => (hs.asserts_iff created waiter d).1 hok.2) hfair
  · exact (hsw.and hg).imp (fun s d t hs hok ht => hs.act hok.1 ht)
      (fun s d hs hok => (hs.asserts_iff created waiter d).2 hok.2) hfair

/-- Fiber 1 is hatched, and the worker runs until time 5. -/
def startedInTime : List (Deed ℕ ℕ ℕ) :=
  [.act (.hatch 1), .act (.run 5), .act (.work 4 5), .act (.yield none 6)]

theorem asserts_startedInTime :
    Transition.Guarded (act .all 0) (Asserts .all 0)
      (init 0 fun _ => ⟨0, none, .timed, false⟩) startedInTime := by
  refine ((asserts_always_iff .all 0 (fun _ => ⟨0, none, .timed, false⟩)
    startedInTime).2 ?_).2 ?_
  · exact .cons nofun rfl (.cons nofun rfl (.cons nofun rfl (.cons nofun rfl trivial)))
  · refine .cons trivial rfl (.cons trivial rfl (.cons (fun _ => ?_) rfl
      (.cons trivial rfl trivial)))
    exact ⟨.inr (by decide), 1, by decide, by decide⟩

/-- The end of the run passes between the two readings of the clock. -/
def startedLate : List (Deed ℕ ℕ ℕ) := [.act (.hatch 1), .act (.run 5), .act (.work 4 6)]

theorem not_asserts_startedLate :
    (∃ s, Transition.run (act .all 0) (init 0 fun _ => ⟨0, none, .timed, false⟩)
        startedLate = some s ∧ s.currentFiber = none ∧ s.fault = some .selfSwitch) ∧
      ¬ Transition.Guarded (act .all 0)
        (fun s d => s.currentFiber = none → Asserts .all 0 s d)
        (init 0 fun _ => ⟨0, none, .timed, false⟩) startedLate := by
  refine ⟨⟨_, rfl, rfl, rfl⟩, ?_⟩
  rintro ⟨-, h⟩
  obtain ⟨-, h⟩ := h _ rfl
  obtain ⟨h, -⟩ := h _ rfl
  exact h rfl rfl rfl

end Worker

end Zth
