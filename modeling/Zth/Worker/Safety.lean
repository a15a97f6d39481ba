import Zth.Worker.Waiting

/-!
# Every run of a worker

A step of a run keeps the worker steady, with the current fiber as the one that runs,
and so does a whole run, as long as its actions are allowed.
-/

namespace Zth

namespace Worker

variable {F Q W : Type*} [DecidableEq F] [DecidableEq Q] [LinearOrder W]
  {s : Worker F Q W}

/-- A fiber that waits is not suspended, and a fiber does not start to wait while
context switching is disabled. -/
def Allowed (s : Worker F Q W) : Action F Q W → Prop
  | .suspend f _ => (s.fiber (some f)).state ≠ .waiting
  | .block _ _ | .blockUntil _ _ _ _ | .wait _ _ _ _ _ _ _ => s.disableContextSwitch = 0
  | _ => True

omit [DecidableEq F] [DecidableEq Q] [LinearOrder W] in
/-- Nothing changes for the fibers. -/
theorem Orderly.of_rest (h : s.Orderly) {t : Worker F Q W}
    (ht : t = { s with
      polling := t.polling, runEnd := t.runEnd, fault := t.fault,
      disableContextSwitch := t.disableContextSwitch })
    (hfault : ∀ e, t.fault = some e → e.Open) : t.Orderly := by
  rw [ht]
  exact ⟨⟨⟨⟨h.one.1, h.one.2⟩, ⟨h.alarms.1, h.alarms.2, h.alarms.3⟩, h.held, hfault⟩,
    h.consistent.congr rfl rfl rfl rfl rfl rfl⟩, ⟨⟨h.turn.1.1, h.turn.1.2⟩, h.turn.2⟩⟩

omit [DecidableEq Q] [LinearOrder W] in
/-- The current fiber goes on elsewhere in its code. -/
theorem Orderly.setFrame (h : s.Orderly) (f : F) {frame : Frame W}
    (hframe : ∀ w, frame ≠ .alarm w) : (s.setFrame f frame).Orderly :=
  h.of_sameTurn ⟨h.toSteady.setFrame f hframe, SameTurn.of_eq rfl rfl rfl⟩

omit [DecidableEq Q] [LinearOrder W] in
/-- The running fiber ends. -/
theorem Steady.kill (h : s.Steady) {f : F} (hf : (s.fiber (some f)).state = .running) :
    (s.setFiber (some f) (s.fiber (some f)).kill).Steady := by
  have hself := setFiber_fiber_self s (some f) (s.fiber (some f)).kill
  refine h.of_touched (Touched.setFiber s f (s.fiber (some f)).kill)
    (h.consistent.setFiber rfl fun p hp => ?_) (fun _ => hf) ?_
  · cases p <;> simp_all [Fiber.Fits, Fiber.kill]
  · rw [hself]
    exact iff_of_false (by simp [Worker.setFiber, h.toSound.not_held, hf]) (by simp [Fiber.kill])

omit [DecidableEq Q] [LinearOrder W] in
/-- The running fiber ends and hands over. -/
theorem Steady.exit (h : s.Steady) (created : Contexts F) {f : F}
    (hf : (s.fiber (some f)).state = .running) (now : ℕ) :
    ((Worker.schedule created none now (s.setFiber (some f) (s.fiber (some f)).kill)).bind fun
      | (s, .switched) => Except.ok s
      | (_, .returned _) => Except.error Fault.abort).Sat Fault.Open Orderly := by
  by_cases henabled : s.disableContextSwitch = 0
  · refine ((h.kill hf).schedule created none now henabled).bind ?_
    rintro ⟨t, _ | _⟩ ht
    · exact Or.inr rfl
    · exact ht
  · rw [Worker.schedule, if_pos (by exact henabled)]
    exact Or.inr rfl

omit [DecidableEq Q] [LinearOrder W] in
/-- The waiter has nothing to expire any more. -/
theorem Orderly.decideSleep (h : s.Orderly) (created : Contexts F) {waiter : F}
    (hcur : s.currentFiber = some waiter) (now : ℕ) :
    (decideSleep created waiter now s).Sat Fault.Open Orderly := by
  have hset : (s.setFrame waiter (.sleep false)).Orderly := h.setFrame waiter (by simp)
  rw [Worker.decideSleep]
  split
  · have hrun : ((s.setFrame waiter (.sleep false)).fiber (some waiter)).state ≠ .waiting := by
      have := h.turn.running waiter hcur
      simp [Worker.setFrame, this]
    exact (hset.suspend created hrun now).map fun x hx => hx
  · refine (hset.yield created none now).map ?_
    rintro ⟨t, _ | _⟩ ht
    · rename_i did
      cases did with
      | false => exact ht.setFrame waiter (by simp)
      | true => exact ht
    · exact ht

/-- A step of the loop of the waiter. -/
theorem Orderly.performWaiter (h : s.Orderly) {created : Contexts F} {waiter : F}
    (hcur : s.currentFiber = some waiter) {frame : Frame W} {a : Action F Q W}
    {x : Except Fault (Worker F Q W)} (hx : performWaiter created waiter s frame a = some x) :
    x.Sat Fault.Open Orderly := by
  unfold Worker.performWaiter at hx
  split at hx
  · obtain rfl := Option.some.inj hx
    exact h.setFrame waiter (by simp)
  · split at hx
    · obtain rfl := Option.some.inj hx
      exact h.setFrame waiter (by simp)
    · rename_i w ws hw
      split at hx
      · obtain rfl := Option.some.inj hx
        exact (h.toSteady.expire (by simp [hw]) _ _).mono fun t ht => h.of_sameTurn ht
      · obtain rfl := Option.some.inj hx
        exact h.setFrame waiter (by simp)
  · obtain rfl := Option.some.inj hx
    exact h.decideSleep created hcur _
  · split at hx
    · obtain rfl := Option.some.inj hx
      exact h.setFrame waiter (by simp)
    · obtain rfl := Option.some.inj hx
      exact h.setFrame waiter (by simp)
  · obtain rfl := Option.some.inj hx
    exact h.setFrame waiter (by simp)
  · cases hx

omit [LinearOrder W] in
/-- An operation in code of the current fiber or of the context of the worker. -/
theorem Orderly.performUser (h : s.Orderly) {created : Contexts F} {waiter : F}
    {a : Action F Q W} {x : Except Fault (Worker F Q W)}
    (hx : performUser created waiter s a = some x) (ha : Allowed s a) :
    x.Sat Fault.Open Orderly := by
  unfold Worker.performUser at hx
  split at hx
  · rename_i f
    obtain ⟨hf, hx⟩ := Option.ite_none_right_eq_some.1 hx
    obtain rfl := Option.some.inj hx
    exact (h.toSteady.hatch hf).mono fun t ht => h.of_sameTurn ht
  · rename_i q f prio
    obtain rfl := Option.some.inj hx
    exact (h.toSteady.unblock q f prio).map fun y hy => h.of_sameTurn ⟨hy.1, hy.2.1⟩
  · rename_i q prio
    obtain rfl := Option.some.inj hx
    exact (h.toSteady.unblockFirst q prio).mono fun t ht => h.of_sameTurn ht
  · rename_i q prio
    obtain rfl := Option.some.inj hx
    exact (h.toSteady.unblockAll q prio _).mono fun t ht => h.of_sameTurn ht
  · rename_i f now
    obtain rfl := Option.some.inj hx
    exact (h.suspend created ha now).map fun y hy => hy
  · split at hx
    · obtain rfl := Option.some.inj hx
      have hset : Orderly { s with polling := true } := h.of_rest rfl h.fault
      exact (hset.toSteady.resume waiter).mono fun t ht => hset.of_sameTurn ht
    · obtain rfl := Option.some.inj hx
      exact h.of_rest rfl h.fault
  · split at hx
    · split at hx
      · obtain rfl := Option.some.inj hx
        exact h.of_rest rfl h.fault
      · obtain rfl := Option.some.inj hx
        exact Or.inr rfl
    · obtain rfl := Option.some.inj hx
      exact h.of_rest rfl h.fault
  · cases hx

/-- An operation of the current fiber that may hand over. -/
theorem Orderly.performFiber (h : s.Orderly) {created : Contexts F} {waiter f : F}
    {a : Action F Q W} {x : Except Fault (Worker F Q W)}
    (hx : performFiber created waiter f s a = some x) (ha : Allowed s a)
    (hf : (s.fiber (some f)).state = .running) : x.Sat Fault.Open Orderly := by
  unfold Worker.performFiber at hx
  split at hx
  · rename_i prefer now
    obtain rfl := Option.some.inj hx
    exact (h.yield created prefer now).map fun y hy => hy
  · rename_i q now
    obtain rfl := Option.some.inj hx
    exact (h.toSteady.block created q hf ha now).map fun y hy => hy
  · rename_i q w timeout now
    split at hx
    · obtain rfl := Option.some.inj hx
      exact h
    · obtain ⟨hfree, hx⟩ := Option.ite_none_right_eq_some.1 hx
      obtain ⟨howner, hw⟩ := isFree_iff.1 hfree
      obtain rfl := Option.some.inj hx
      exact (h.toSteady.blockUntil created waiter q timeout hf hw howner ha now).map
        fun y hy => hy
  · rename_i w timeout interval fired slice now now'
    obtain ⟨hfree, hx⟩ := Option.ite_none_right_eq_some.1 hx
    obtain ⟨howner, hw⟩ := isFree_iff.1 hfree
    obtain rfl := Option.some.inj hx
    have hset : (s.setWaitable w (makeWaitable timeout interval)).Orderly :=
      h.of_sameTurn ⟨h.toSteady.setWaitable hw fun _ _ => rfl, SameTurn.of_eq rfl rfl rfl⟩
    have hkind : ∀ q g, ((s.setWaitable w (makeWaitable timeout interval)).waitable w).kind ≠
        .alarm q g := by
      intro q g
      cases interval <;> simp [Worker.setWaitable, makeWaitable]
    exact (hset.wait created waiter hf hw howner hkind ha fired slice now now').map
      fun y hy => hy
  · rename_i now
    obtain rfl := Option.some.inj hx
    exact h.toSteady.exit created hf now
  · cases hx

omit [DecidableEq Q] [LinearOrder W] in
/-- A round of `Worker::run`. -/
theorem Orderly.performWorker (h : s.Orderly) {created : Contexts F} {a : Action F Q W}
    {x : Except Fault (Worker F Q W)} (hx : performWorker created s a = some x) :
    x.Sat Fault.Open Orderly := by
  unfold Worker.performWorker at hx
  split at hx
  · obtain rfl := Option.some.inj hx
    exact h.of_rest rfl h.fault
  · rename_i now now'
    obtain ⟨-, hx⟩ := Option.ite_none_right_eq_some.1 hx
    obtain rfl := Option.some.inj hx
    exact (h.yield created none now').map fun y hy => hy
  · cases hx

/-- What any allowed action comes to. -/
theorem Orderly.perform (h : s.Orderly) {created : Contexts F} {waiter : F}
    {a : Action F Q W} {x : Except Fault (Worker F Q W)}
    (hx : perform created waiter s a = some x) (ha : Allowed s a) :
    x.Sat Fault.Open Orderly := by
  rcases perform_cases hx with ⟨-, ⟨w, -, rfl⟩ | ⟨f, -, rfl⟩⟩ | ⟨f, w, -, -, hf, rfl⟩ | ⟨-, hx⟩ |
    ⟨hcur, hx⟩ | ⟨f, -, hcur, hx⟩ | ⟨-, hx⟩
  · exact (h.toSteady.wakeup w).mono fun t ht => h.of_sameTurn ht
  · exact (h.toSteady.resume f).mono fun t ht => h.of_sameTurn ht
  · exact h.of_sameTurn (h.toSteady.leaveAlarm hf)
  · exact h.performWorker hx
  · exact h.performWaiter hcur hx
  · exact h.performFiber hx ha (h.turn.running f hcur)
  · exact h.performUser hx ha

/-- The step lemma. A step that fails leaves the fibers alone. -/
theorem Orderly.step (h : s.Orderly) {created : Contexts F} {waiter : F}
    {a : Action F Q W} {t : Worker F Q W} (ha : Allowed s a)
    (hstep : step created waiter s a = some t) : t.Orderly := by
  obtain ⟨-, hx | ⟨e, hx, rfl⟩⟩ := step_eq_some_iff.1 hstep
  · exact h.perform hx ha
  · refine h.of_rest rfl fun e' he' => ?_
    obtain rfl : e = e' := Option.some.inj he'
    exact h.perform hx ha

omit [DecidableEq Q] [LinearOrder W] in
theorem orderly_init (waiter : F) (waitable : W → Waitable F Q) :
    (init waiter waitable).Orderly := by
  have hone : (init waiter waitable).OneRunning := by
    refine ⟨fun f hf => ?_, Or.inl rfl⟩
    by_cases hfw : f = waiter <;> simp [init, hfw, Fiber.none] at hf
  refine ⟨⟨⟨hone, ⟨fun w f hw => ?_, fun f w hf => ?_, fun w q f hw => ?_⟩, fun f => ?_,
    fun e he => ?_⟩, ⟨⟨List.nodup_nil, List.nodup_singleton _, fun _ => List.nodup_nil,
    List.nodup_nil⟩, fun f => ?_⟩⟩, hone, fun f hf => ?_⟩
  · cases hw
  · by_cases hfw : f = waiter <;> simp [init, hfw] at hf
  · cases hw
  · by_cases hfw : f = waiter <;> simp [init, hfw, Fiber.none]
  · cases he
  · by_cases hfw : f = waiter
    · refine ⟨.suspended, ⟨?_, ?_, fun q => ?_, fun w => ?_⟩, ?_, ?_⟩ <;>
        simp [init, hfw, Place.linked, Fiber.Fits]
    · refine ⟨.nowhere, ⟨?_, ?_, fun q => ?_, fun w => ?_⟩, ?_, ?_⟩ <;>
        simp [init, hfw, Place.linked, Fiber.Fits, Fiber.none]
  · cases hf

/-- The run lemma. -/
theorem orderly_of_allowed {created : Contexts F} {waiter : F}
    {waitable : W → Waitable F Q} {as : List (Action F Q W)} {s : Worker F Q W}
    (hg : Transition.Guarded (step created waiter) Allowed (init waiter waitable) as)
    (hr : Transition.run (step created waiter) (init waiter waitable) as = some s) :
    s.Orderly :=
  hg.invariant (fun _ _ _ hs ha hstep => hs.step ha hstep) (orderly_init waiter waitable) hr

/-- The fiber waits in a queue of a synchronizer, or for a waitable. -/
def WaitsAt (s : Worker F Q W) (f : F) : Q ⊕ W → Prop
  | .inl q => f ∈ s.queue q
  | .inr w => w ∈ s.waiting ∧ (s.waitable w).fiber = some f

/-- The state of a fiber tells the one place it is in, and only the current fiber
runs. A dead fiber is in the runnable queue as long as it is used. -/
structure Settled (s : Worker F Q W) : Prop where
  nodups : s.Nodups
  runnable : ∀ f, f ∈ s.runnableQueue ↔ (s.fiber (some f)).state = .new ∨
    (s.fiber (some f)).state = .ready ∨ (s.fiber (some f)).state = .running ∨
    ((s.fiber (some f)).state = .dead ∧ (s.fiber (some f)).used = true)
  suspended : ∀ f, f ∈ s.suspendedQueue ↔ (s.fiber (some f)).state = .suspended
  waiting : ∀ f, (s.fiber (some f)).state = .waiting → ∃! p, s.WaitsAt f p
  waits : ∀ f p, s.WaitsAt f p → (s.fiber (some f)).state = .waiting
  running : ∀ f, (s.fiber (some f)).state = .running ↔ s.currentFiber = some f

omit [DecidableEq F] [DecidableEq Q] [LinearOrder W] in
theorem Consistent.settled (h : s.Consistent) (hturn : s.Turn) : s.Settled where
  nodups := h.nodups
  runnable := h.mem_runnable_iff
  suspended := h.mem_suspended_iff
  waiting f hf := by
    obtain ⟨p, hat, -, hfits⟩ := h.placed f
    cases p with
    | nowhere | runnable | suspended => simp [Fiber.Fits, hf] at hfits
    | queued q =>
        refine ⟨.inl q, (hat.queued q).2 rfl, ?_⟩
        rintro (q' | w) hp
        · have := (hat.queued q').1 hp
          simp_all
        · cases (hat.timed w).1 hp
    | timed w =>
        refine ⟨.inr w, (hat.timed w).2 rfl, ?_⟩
        rintro (q | w') hp
        · cases (hat.queued q).1 hp
        · have := (hat.timed w').1 hp
          simp_all
  waits f p hp := by
    cases p with
    | inl q => exact (h.of_mem_queue hp).2.2.2.1
    | inr w => exact (h.of_mem_waiting hp.1 hp.2).2.2.2.1
  running f := ⟨hturn.current f, hturn.running f⟩

/-- In every run, at every point, each fiber is in the one place that its state tells,
and no operation ever meets a fiber in a state or a list it does not expect. -/
theorem settled_of_allowed (created : Contexts F) (waiter : F)
    (waitable : W → Waitable F Q) (as : List (Action F Q W)) (s : Worker F Q W)
    (hg : Transition.Guarded (step created waiter) Allowed (init waiter waitable) as)
    (hr : Transition.run (step created waiter) (init waiter waitable) as = some s) :
    s.Settled ∧ s.fault ≠ some .runInvalid ∧ s.fault ≠ some .list ∧
      s.fault ≠ some .addWaiting ∧ s.fault ≠ some .endless := by
  have hs := orderly_of_allowed hg hr
  refine ⟨hs.consistent.settled hs.turn, ?_, ?_, ?_, ?_⟩
  all_goals
    intro he
    rcases hs.fault _ he with h | h <;> cases h

/-- Fiber 1 blocks and is woken by fiber 3, which suspends itself. Fiber 1 resumes it
and ends. The waiter wakes fiber 2, which took a nap, and suspends itself. -/
def roundTrip : List (Action ℕ ℕ ℕ) :=
  [.hatch 1, .hatch 2, .hatch 3, .work 1 1, .block 0 1,
    .wait 5 100 none false false 2 2, .unblockFirst 0 true, .suspend 3 3, .resume 3, .exit 4,
    .loop 200, .expire false, .expire false, .decide 201]

theorem settled_roundTrip :
    ∃ s, Transition.run (step .all 0) (init 0 fun _ => ⟨0, none, .timed, false⟩)
        roundTrip = some s ∧
      s.currentFiber = some 2 ∧ s.runnableQueue = [1, 3, 2] ∧ s.suspendedQueue = [0] ∧
      s.fault = none ∧ s.Settled := by
  refine ⟨_, rfl, rfl, rfl, rfl, rfl, (settled_of_allowed .all 0
    (fun _ => ⟨0, none, .timed, false⟩) roundTrip _ ?_ rfl).1⟩
  refine .cons trivial rfl (.cons trivial rfl (.cons trivial rfl (.cons trivial rfl
    (.cons rfl rfl (.cons rfl rfl (.cons trivial rfl (.cons ?_ rfl (.cons trivial rfl
    (.cons trivial rfl (.cons trivial rfl (.cons trivial rfl (.cons trivial rfl
    (.cons trivial rfl trivial)))))))))))))
  intro h
  cases h

/-- A suspended fiber stays put: a fiber that executes was resumed after it was
suspended, and woken after it started to wait. A fiber that waits is not added to the
queues of the worker. -/
structure Honoured (s : Worker F Q W) : Prop where
  added : s.fault ≠ some .addWaiting
  runnable : ∀ f ∈ s.runnableQueue, (s.fiber (some f)).state ≠ .waiting
  resumed : ∀ f, s.currentFiber = some f → s.held f = false
  woken : ∀ f p, s.currentFiber = some f → ¬ s.WaitsAt f p

omit [DecidableEq F] [DecidableEq Q] [LinearOrder W] in
theorem Orderly.honoured (h : s.Orderly) : s.Honoured where
  added he := by
    rcases h.fault _ he with h | h <;> cases h
  runnable f hf hw := by
    rw [h.consistent.mem_runnable_iff, hw] at hf
    simp at hf
  resumed f hf := h.toSound.not_held (by simp [h.turn.running f hf])
  woken f p hf hp := by
    have hw := (h.consistent.settled h.turn).waits f p hp
    rw [h.turn.running f hf] at hw
    cases hw

/-- In every run that suspends no fiber while it waits, suspending is honoured. -/
theorem honoured_of_allowed (created : Contexts F) (waiter : F)
    (waitable : W → Waitable F Q) (as : List (Action F Q W)) (s : Worker F Q W)
    (hg : Transition.Guarded (step created waiter) Allowed (init waiter waitable) as)
    (hr : Transition.run (step created waiter) (init waiter waitable) as = some s) :
    s.Honoured :=
  (orderly_of_allowed hg hr).honoured

/-- Fiber 1 blocks. Fiber 2 wakes it, suspends and resumes it, and yields to it. -/
def wokenAndResumed : List (Action ℕ ℕ ℕ) :=
  [.hatch 1, .hatch 2, .work 1 1, .block 0 1, .unblockFirst 0 false, .suspend 1 2, .resume 1,
    .yield (some (some 1)) 3]

theorem honoured_wokenAndResumed :
    ∃ s, Transition.run (step .all 0) (init 0 fun _ => ⟨0, none, .timed, false⟩)
        wokenAndResumed = some s ∧ s.currentFiber = some 1 ∧ s.Honoured := by
  refine ⟨_, rfl, rfl, honoured_of_allowed .all 0
    (fun _ => ⟨0, none, .timed, false⟩) wokenAndResumed _ ?_ rfl⟩
  refine .cons trivial rfl (.cons trivial rfl (.cons trivial rfl (.cons rfl rfl
    (.cons trivial rfl (.cons ?_ rfl (.cons trivial rfl (.cons trivial rfl trivial)))))))
  intro h
  cases h

/-- Fiber 1 blocks. Fiber 2 suspends it, and wakes it after that. -/
def suspendedWhileBlocked : List (Action ℕ ℕ ℕ) :=
  [.hatch 1, .hatch 2, .work 1 1, .block 0 1, .suspend 1 2, .unblockFirst 0 false]

/-- The fiber is still waiting when it was woken, and it is added nevertheless. -/
theorem not_honoured_suspendedWhileBlocked :
    ∃ s, Transition.run (step .all 0) (init 0 fun _ => ⟨0, none, .timed, false⟩)
        suspendedWhileBlocked = some s ∧ s.fault = some .addWaiting ∧ ¬ s.Honoured :=
  ⟨_, rfl, rfl, fun h => h.added rfl⟩

end Worker

end Zth
