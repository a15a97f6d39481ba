import Zth.Worker.TrackedWaiting

/-!
# Runs in which fibers are killed

Any code may kill a fiber, also the one that runs it. A fiber that is killed while it is
ready, waits or is suspended stays where it is; what happens to it next depends on the
queue it is in. This module adds that to the runs of a worker, and follows the fibers
through all of them: nothing is asked of the actions.
-/

namespace Zth

/-- What may happen next, when fibers are killed as well. -/
inductive Deed (F Q W : Type*) where
  | act (a : Action F Q W)
  | kill (f : F)

namespace Worker

variable {F Q W : Type*}

/-- The current fiber starts to wait in the action. -/
def waits (s : Worker F Q W) : Action F Q W → Bool
  | .block _ _ => true
  | .blockUntil _ _ timeout now => decide (now < timeout)
  | .wait _ timeout interval fired _ now _ =>
      s.currentFiber.any (fun f => decide ((s.fiber (some f)).state = .running)) &&
        !(makeWaitable timeout interval : Waitable F Q).passes fired now
  | .hatch _ | .yield _ _ | .leaveAlarm | .unblock _ _ _ | .unblockFirst _ _ | .unblockAll _ _
  | .wakeup _ | .suspend _ _ | .resume _ | .exit _ | .setPolling _ | .contextSwitchEnable _
  | .run _ | .work _ _ | .loop _ | .expire _ | .decide _ | .sleep _ | .polled => false

theorem Goes.of_stays {s t : Worker F Q W} (h : t.Tracked ∧ Stays s t) : Goes false s t :=
  ⟨h.1, .inl ⟨rfl, h.2.toRemains⟩⟩

/-- More is done, that nothing comes of for the fibers. -/
theorem Goes.after {s t u : Worker F Q W} {waits : Bool} (h : Goes waits s t)
    (hu : u.Tracked ∧ Stays t u) : Goes waits s u := by
  obtain ⟨-, ⟨hfalse, hst⟩ | hturn | hwaits⟩ := h
  · refine ⟨hu.1, .inl ⟨hfalse, hu.2.current.trans hst.current, fun f hf => ?_,
      fun f hf => ?_, fun f w hf => ?_⟩⟩
    · exact hu.2.runs f (hst.runs f hf)
    · exact hu.2.dead f (hst.dead f hf)
    · exact hst.frame f w (hu.2.frame f w hf)
  · exact ⟨hu.1, .inr (.inl (hturn.of_sameTurn hu.2.toSameTurn))⟩
  · exact ⟨hu.1, .inr (.inr hwaits)⟩

/-- Nothing changes for the fibers. -/
theorem Goes.of_rest {s t : Worker F Q W} (h : s.Tracked)
    (ht : t = { s with
      polling := t.polling, runEnd := t.runEnd, fault := t.fault,
      disableContextSwitch := t.disableContextSwitch }) : Goes false s t := by
  refine ⟨h.of_rest ht, .inl ⟨rfl, ?_⟩⟩
  rw [ht]
  exact ⟨rfl, fun _ hf => hf, fun _ hf => hf, fun _ _ hf => hf⟩

variable [DecidableEq F]

/-- One step of a run, in which fibers may be killed. -/
def act [DecidableEq Q] [LinearOrder W] (created : Contexts F) (waiter : F)
    (s : Worker F Q W) : Deed F Q W → Option (Worker F Q W)
  | .act a => step created waiter s a
  | .kill f =>
      if s.fault = none ∧ s.inUserCode ∧ (s.fiber (some f)).state ≠ .uninitialized then
        some (s.setFiber (some f) (s.fiber (some f)).kill)
      else none

variable {s : Worker F Q W}

omit [DecidableEq F] in
/-- Code of a fiber is not in the middle of a block with timeout. -/
theorem frame_of_inUserCode {f : F} (hf : s.currentFiber = some f) (h : s.inUserCode = true)
    (w : W) : s.frame f ≠ .alarm w := by
  intro hw
  simp [inUserCode, hf, hw] at h

/-- The running fiber ends and hands over. -/
theorem Tracked.exit (h : s.Tracked) (created : Contexts F) {f : F}
    (hcur : s.currentFiber = some f) (now : ℕ) (waits : Bool) :
    ((Worker.schedule created none now (s.setFiber (some f) (s.fiber (some f)).kill)).bind fun
      | (s, .switched) => Except.ok s
      | (_, .returned _) => Except.error Fault.abort).Sat Fault.Plain (Goes waits s) := by
  by_cases henabled : s.disableContextSwitch = 0
  · have hbusy : (s.setFiber (some f) (s.fiber (some f)).kill).Busy := by
      have hcur : (s.setFiber (some f) (s.fiber (some f)).kill).currentFiber = some f := hcur
      rw [Busy, hcur, setFiber_fiber_self]
      simp [Fiber.kill]
    refine (((h.kill f).schedule created none now).mono_bad fun e he => he hbusy).bind ?_
    rintro ⟨t, _ | _⟩ ⟨ht, hor⟩
    · exact Fault.plain_abort
    · obtain ⟨-, hturn⟩ | ⟨hne, -⟩ := hor
      · exact ⟨ht, .inr (.inl hturn)⟩
      · exact absurd henabled hne
  · rw [Worker.schedule, if_pos (by exact henabled)]
    exact Fault.plain_abort

/-- The waiter has nothing to expire any more. -/
theorem Tracked.decideSleep (h : s.Tracked) (created : Contexts F) {waiter : F}
    (hframe : ∀ w, s.frame waiter ≠ .alarm w) (now : ℕ) :
    (decideSleep created waiter now s).Sat s.Spared (Goes false s) := by
  have hsleep : ∀ w, (Frame.sleep false : Frame W) ≠ .alarm w := by simp
  obtain ⟨hset, hstays⟩ := h.setFrame waiter hsleep hframe
  rw [Worker.decideSleep]
  split
  · refine (Spared.of_plain (hset.suspend created waiter now)).map fun x hx => ?_
    obtain ⟨hx, hst | hturn⟩ := hx
    · exact .of_stays ⟨hx, hstays.trans hst⟩
    · exact ⟨hx, .inr (.inl hturn)⟩
  · refine ((hset.goes_schedule hstays created none now).and
      (rescheduled_schedule created none now _)).map ?_
    rintro ⟨t, did | _⟩ ⟨ht, hres⟩
    · cases did with
      | false =>
          have hold : ∀ w, t.frame waiter ≠ .alarm w := by
            intro w
            have hres : t.frame = _ := congrArg frame hres
            simp [hres, Worker.setFrame]
          exact ht.after (ht.1.setFrame waiter (by simp) hold)
      | true => exact ht
    · exact ht

variable [DecidableEq Q]

/-- An operation in code of the current fiber or of the context of the worker. -/
theorem Tracked.performUser (h : s.Tracked) {created : Contexts F} {waiter : F}
    {a : Action F Q W} {x : Except Fault (Worker F Q W)}
    (hx : performUser created waiter s a = some x) :
    x.Sat Fault.Plain (Goes (s.waits a) s) := by
  unfold Worker.performUser at hx
  split at hx
  · obtain ⟨hf, hx⟩ := Option.ite_none_right_eq_some.1 hx
    obtain rfl := Option.some.inj hx
    exact (h.hatch hf).mono fun t ht => .of_stays ht
  · rename_i q f prio
    obtain rfl := Option.some.inj hx
    exact (h.unblock q f prio).map fun y hy => .of_stays ⟨hy.1, hy.2.1⟩
  · rename_i q prio
    obtain rfl := Option.some.inj hx
    exact (h.unblockFirst q prio).mono fun t ht => .of_stays ht
  · rename_i q prio
    obtain rfl := Option.some.inj hx
    exact (h.unblockAll q prio _).mono fun t ht => .of_stays ht
  · rename_i f now
    obtain rfl := Option.some.inj hx
    refine (h.suspend created f now).map fun y hy => ⟨hy.1, ?_⟩
    exact hy.2.imp (fun hst => ⟨rfl, hst.toRemains⟩) .inl
  · split at hx
    · obtain rfl := Option.some.inj hx
      have hset : Goes false s { s with polling := true } := .of_rest h rfl
      exact (hset.1.resume waiter).mono fun t ht => hset.after ⟨ht.1, ht.2.1⟩
    · obtain rfl := Option.some.inj hx
      exact .of_rest h rfl
  · split at hx
    · split at hx
      · obtain rfl := Option.some.inj hx
        exact .of_rest h rfl
      · obtain rfl := Option.some.inj hx
        exact Fault.plain_abort
    · obtain rfl := Option.some.inj hx
      exact .of_rest h rfl
  · cases hx

variable [LinearOrder W]

/-- An operation of the current fiber that may hand over. -/
theorem Tracked.performFiber (h : s.Tracked) {created : Contexts F} {waiter f : F}
    {a : Action F Q W} {x : Except Fault (Worker F Q W)} (hcur : s.currentFiber = some f)
    (huser : s.inUserCode = true) (hx : performFiber created waiter f s a = some x) :
    x.Sat s.Spared (Goes (s.waits a) s) := by
  unfold Worker.performFiber at hx
  split at hx
  · rename_i prefer now
    obtain rfl := Option.some.inj hx
    exact (h.goes_schedule (.refl s) created prefer now).map fun y hy => hy
  · rename_i q now
    obtain rfl := Option.some.inj hx
    exact (h.block created q hcur now).map fun y hy => hy
  · rename_i q w timeout now
    split at hx
    · rename_i hlate
      obtain rfl := Option.some.inj hx
      have hwaits : s.waits (.blockUntil q w timeout now) = false := by
        simpa [waits] using hlate
      rw [hwaits]
      exact .of_rest h rfl
    · rename_i hlate
      obtain ⟨hfree, hx⟩ := Option.ite_none_right_eq_some.1 hx
      obtain ⟨howner, hw⟩ := isFree_iff.1 hfree
      obtain rfl := Option.some.inj hx
      have hwaits : s.waits (.blockUntil q w timeout now) = true := by
        simpa [waits] using hlate
      rw [hwaits]
      exact (h.blockUntil created waiter q timeout hcur (frame_of_inUserCode hcur huser) hw howner
        now).map fun y hy => hy
  · rename_i w timeout interval fired slice now now'
    obtain ⟨hfree, hx⟩ := Option.ite_none_right_eq_some.1 hx
    obtain ⟨howner, hw⟩ := isFree_iff.1 hfree
    obtain rfl := Option.some.inj hx
    have hset : (s.setWaitable w (makeWaitable timeout interval)).Tracked :=
      h.setWaitable hw fun _ _ => rfl
    have hself : (s.setWaitable w (makeWaitable timeout interval)).waitable w =
        makeWaitable timeout interval := Function.update_self _ _ _
    have hkind : ∀ q g, ((s.setWaitable w (makeWaitable timeout interval)).waitable w).kind ≠
        .alarm q g := by
      intro q g
      rw [hself]
      cases interval <;> simp [makeWaitable]
    have hwait := hset.wait created waiter (f := f) hw howner hkind fired slice now now'
    rw [hself] at hwait
    have hwaits : s.waits (.wait w timeout interval fired slice now now') =
        (decide ((s.fiber (some f)).state = .running) &&
          !(makeWaitable timeout interval : Waitable F Q).passes fired now) := by
      simp [waits, hcur]
    rw [hwaits]
    refine hwait.map fun y hy => ⟨hy.1, hy.2.imp_left fun hr => ?_⟩
    exact ⟨hr.1, hr.2.current, hr.2.runs, hr.2.dead, hr.2.frame⟩
  · rename_i now
    obtain rfl := Option.some.inj hx
    exact Spared.of_plain (h.exit created hcur now _)
  · cases hx

omit [DecidableEq Q] [LinearOrder W] in
/-- A round of `Worker::run`. -/
theorem Tracked.performWorker (h : s.Tracked) {created : Contexts F} {a : Action F Q W}
    {x : Except Fault (Worker F Q W)} (hx : performWorker created s a = some x) :
    x.Sat s.Spared (Goes (s.waits a) s) := by
  unfold Worker.performWorker at hx
  split at hx
  · obtain rfl := Option.some.inj hx
    exact .of_rest h rfl
  · rename_i now now'
    obtain ⟨-, hx⟩ := Option.ite_none_right_eq_some.1 hx
    obtain rfl := Option.some.inj hx
    exact (h.goes_schedule (.refl s) created none now').map fun y hy => hy
  · cases hx

/-- A step of the loop of the waiter. -/
theorem Tracked.performWaiter (h : s.Tracked) {created : Contexts F} {waiter : F}
    {a : Action F Q W} {x : Except Fault (Worker F Q W)}
    (hx : performWaiter created waiter s (s.frame waiter) a = some x) :
    x.Sat s.Spared (Goes (s.waits a) s) := by
  have hset : ∀ frame, (∀ w, s.frame waiter ≠ .alarm w) → (∀ w, frame ≠ Frame.alarm w) →
      Goes false s (s.setFrame waiter frame) :=
    fun frame hold hframe => .of_stays (h.setFrame waiter hframe hold)
  generalize hframe : s.frame waiter = frame at hx hset
  unfold Worker.performWaiter at hx
  split at hx
  · obtain rfl := Option.some.inj hx
    exact hset _ (by simp) (by simp)
  · split at hx
    · obtain rfl := Option.some.inj hx
      exact hset _ (by simp) (by simp)
    · rename_i w ws hw
      split at hx
      · obtain rfl := Option.some.inj hx
        exact (Spared.of_plain (h.expire (by simp [hw]) _ _)).mono fun t ht => .of_stays ht
      · obtain rfl := Option.some.inj hx
        exact hset _ (by simp) (by simp)
  · obtain rfl := Option.some.inj hx
    exact h.decideSleep created (by simp [hframe]) _
  · split at hx
    · obtain rfl := Option.some.inj hx
      exact hset _ (by simp) (by simp)
    · obtain rfl := Option.some.inj hx
      exact hset _ (by simp) (by simp)
  · obtain rfl := Option.some.inj hx
    exact hset _ (by simp) (by simp)
  · cases hx

/-- What any action comes to. -/
theorem Tracked.perform (h : s.Tracked) {created : Contexts F} {waiter : F}
    {a : Action F Q W} {x : Except Fault (Worker F Q W)}
    (hx : perform created waiter s a = some x) : x.Sat s.Spared (Goes (s.waits a) s) := by
  rcases perform_cases hx with ⟨-, ⟨w, rfl, rfl⟩ | ⟨f, rfl, rfl⟩⟩ | ⟨f, w, rfl, -, hf, rfl⟩ |
    ⟨-, hx⟩ | ⟨-, hx⟩ | ⟨f, huser, hcur, hx⟩ | ⟨-, hx⟩
  · exact (Spared.of_plain (h.wakeup w)).mono fun t ht => .of_stays ht
  · exact (Spared.of_plain (h.resume f)).mono fun t ht => .of_stays ⟨ht.1, ht.2.1⟩
  · exact .of_stays (h.leaveAlarm hf)
  · exact h.performWorker hx
  · exact h.performWaiter hx
  · exact h.performFiber hcur huser hx
  · exact Spared.of_plain (h.performUser hx)

/-- What any step comes to. A step that fails leaves the fibers alone. -/
theorem Tracked.step (h : s.Tracked) {created : Contexts F} {waiter : F}
    {a : Action F Q W} {t : Worker F Q W} (hstep : step created waiter s a = some t) :
    Goes (s.waits a) s t ∨ ∃ e, t = { s with fault := some e } := by
  obtain ⟨-, hx | ⟨e, hx, rfl⟩⟩ := step_eq_some_iff.1 hstep
  · exact .inl (h.perform hx)
  · exact .inr ⟨e, rfl⟩

/-- What is done, besides an action. -/
theorem act_kill_eq_some_iff {created : Contexts F} {waiter f : F} {t : Worker F Q W} :
    act created waiter s (.kill f) = some t ↔ (s.fault = none ∧ s.inUserCode = true ∧
      (s.fiber (some f)).state ≠ .uninitialized) ∧
      s.setFiber (some f) (s.fiber (some f)).kill = t := by
  rw [act, Option.ite_none_right_eq_some, Option.some.injEq]

theorem Tracked.act (h : s.Tracked) {created : Contexts F} {waiter : F} {d : Deed F Q W}
    {t : Worker F Q W} (ht : act created waiter s d = some t) : t.Tracked := by
  cases d with
  | act a =>
      obtain hgoes | ⟨e, rfl⟩ := h.step ht
      · exact hgoes.1
      · exact h.of_rest rfl
  | kill f =>
      obtain ⟨-, rfl⟩ := act_kill_eq_some_iff.1 ht
      exact h.kill f

omit [DecidableEq Q] [LinearOrder W] in
theorem tracked_init (waiter : F) (waitable : W → Waitable F Q) :
    (init waiter waitable).Tracked := by
  refine ⟨⟨⟨fun f hf => ?_, .inl rfl⟩, ⟨fun w f hw => ?_, fun f w hf => ?_, fun w q f hw => ?_⟩,
    fun w q f hw => ?_, fun f hf => ?_⟩, ⟨⟨List.nodup_nil, List.nodup_singleton _,
    fun _ => List.nodup_nil, List.nodup_nil⟩, fun f => ?_⟩⟩
  · by_cases hfw : f = waiter <;> simp [init, hfw, Fiber.none] at hf
  · cases hw
  · by_cases hfw : f = waiter <;> simp [init, hfw] at hf
  · cases hw
  · cases hw
  · cases hf
  · by_cases hfw : f = waiter
    · refine ⟨.suspended, ⟨?_, ?_, fun q => ?_, fun w => ?_⟩, ?_, ?_⟩ <;>
        simp [init, hfw, Place.linked, Fiber.Suits]
    · refine ⟨.nowhere, ⟨?_, ?_, fun q => ?_, fun w => ?_⟩, ?_, ?_⟩ <;>
        simp [init, hfw, Place.linked, Fiber.Suits, Fiber.none]

/-- The run lemma, for every run. -/
theorem tracked_of_run {created : Contexts F} {waiter : F} {waitable : W → Waitable F Q}
    {ds : List (Deed F Q W)}
    (hr : Transition.run (act created waiter) (init waiter waitable) ds = some s) : s.Tracked :=
  Transition.run_invariant (fun _ _ _ hs ht => hs.act ht) (tracked_init waiter waitable) hr

/-- A fiber starts to wait only while context switching is enabled. -/
def Switchable (s : Worker F Q W) : Deed F Q W → Prop
  | .act a => s.waits a = true → s.disableContextSwitch = 0
  | .kill _ => True

/-- The current fiber runs, or it killed itself and is in code of its own. -/
structure Fair (s : Worker F Q W) : Prop extends Tracked s where
  turn : ∀ f, s.currentFiber = some f → (s.fiber (some f)).state = .running ∨
    ((s.fiber (some f)).state = .dead ∧ ∀ w, s.frame f ≠ .alarm w)

omit [DecidableEq F] [DecidableEq Q] [LinearOrder W] in
theorem Goes.fair {s t : Worker F Q W} {a : Action F Q W} (h : s.Fair)
    (hgoes : Goes (s.waits a) s t) (hd : s.Switchable (.act a)) : t.Fair := by
  refine ⟨hgoes.1, fun f hf => ?_⟩
  obtain ⟨-, hst⟩ | hturn | ⟨hwaits, hdis⟩ := hgoes.2
  · obtain hrun | ⟨hdead, hframe⟩ := h.turn f (hst.current ▸ hf)
    · exact .inl (hst.runs f hrun)
    · exact .inr ⟨hst.dead f hdead, fun w hw => hframe w (hst.frame f w hw)⟩
  · exact .inl (hturn.running f hf)
  · exact absurd (hd hwaits) hdis

theorem Fair.act {s t : Worker F Q W} {created : Contexts F} {waiter : F} {d : Deed F Q W}
    (h : s.Fair) (hd : s.Switchable d) (ht : act created waiter s d = some t) : t.Fair := by
  cases d with
  | act a =>
      obtain hgoes | ⟨e, rfl⟩ := h.toTracked.step ht
      · exact hgoes.fair h hd
      · exact ⟨h.toTracked.of_rest rfl, h.turn⟩
  | kill f =>
      have htracked := h.toTracked.act ht
      obtain ⟨⟨-, huser, -⟩, rfl⟩ := act_kill_eq_some_iff.1 ht
      refine ⟨htracked, fun g hg => ?_⟩
      by_cases hgf : g = f
      · subst hgf
        refine .inr ⟨?_, frame_of_inUserCode hg huser⟩
        rw [setFiber_fiber_self]
        rfl
      · rw [setFiber_fiber_of_ne s _ (by simpa using hgf)]
        exact h.turn g hg

omit [DecidableEq Q] [LinearOrder W] in
theorem fair_init (waiter : F) (waitable : W → Waitable F Q) : (init waiter waitable).Fair :=
  ⟨tracked_init waiter waitable, fun f hf => by cases hf⟩

end Worker

end Zth
