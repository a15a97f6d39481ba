import Zth.Worker.Waiting

/-!
# Where fibers are in every run

A fiber that is killed stays in the queue it is in, a fiber may be suspended while it
waits, and one that starts to wait while context switching is disabled goes on
nevertheless. In such a run the state of a fiber says less about its place, but it
still has one: this module weakens what a place says of a state just enough for every
operation to keep it, whatever fault it may end in.
-/

namespace Zth

/-- The fiber waits, or it did so until it was killed. It may have been told to wait on when
its event comes, or have been suspended before it started to wait. -/
def Fiber.Awaits (x : Fiber) : Prop :=
  x.used = true ∧ (x.state = .dead ∨
    (x.state = .waiting ∧ (x.stateNext = .ready ∨ x.stateNext = .waiting)) ∨
    (x.state = .suspended ∧ x.stateNext = .waiting))

/-- What a place says of the state of a fiber in any run. -/
def Fiber.Suits {Q W : Type*} (x : Fiber) : Place Q W → Prop
  | .nowhere => x.used = false ∧ (x.state = .uninitialized ∨ x.state = .dead)
  | .runnable => x.used = true ∧ ((x.state = .new ∧ x.stateNext = .ready) ∨
      x.state = .ready ∨ x.state = .running ∨ x.state = .dead)
  | .suspended => x.used = true ∧ (x.state = .dead ∨
      (x.state = .suspended ∧ (x.stateNext = .new ∨ x.stateNext = .ready)))
  | .queued _ => x.Awaits
  | .timed _ => x.Awaits ∧ x.state ≠ .suspended

/-- The fiber was switched to at least once. -/
def Fiber.Started (x : Fiber) : Prop :=
  x.state ≠ .uninitialized ∧ x.state ≠ .new ∧ (x.state = .suspended → x.stateNext ≠ .new)

/-- What a poll of the waitable tells. -/
def Waitable.passes {F Q : Type*} (v : Waitable F Q) (fired : Bool) (now : ℕ) : Bool :=
  match v.kind with
  | .timed | .alarm _ _ => decide (v.timeout ≤ now)
  | .polled _ => fired

namespace Worker

variable {F Q W : Type*}

theorem schedulable_suits : Schedulable (Fiber.Suits : Fiber → Place Q W → Prop) where
  runnable _ h := h.2
  stop x p hrun h := by cases p <;> simp_all [Fiber.Suits, Fiber.Awaits]
  start x p hready h := by cases p <;> simp_all [Fiber.Suits, Fiber.Awaits, Fiber.start]
  init x p hnew hnext h := by cases p <;> simp_all [Fiber.Suits, Fiber.Awaits, Fiber.init]
  nowhere _ hdead hused := ⟨hused, .inr hdead⟩

theorem suits_linked (x : Fiber) (linked : Bool) (p : Place Q W) :
    ({ x with linked := linked } : Fiber).Suits p ↔ x.Suits p := by
  cases p <;> rfl

/-- What holds in every run, also while a fiber is taken out of its place. An alarm that may
still ring belongs to a block with timeout that is not over. -/
structure Loose (s : Worker F Q W) : Prop where
  one : s.OneRunning
  alarms : s.Alarms
  rings : ∀ w q f, w ∈ s.waiting → (s.waitable w).kind = .alarm q f → s.frame f = .alarm w
  started : ∀ f, s.currentFiber = some f → (s.fiber (some f)).Started

/-- What holds before and after every operation, in every run. -/
structure Tracked (s : Worker F Q W) : Prop extends Loose s where
  consistent : s.ConsistentBy Fiber.Suits

/-- Nothing happens to the fiber that runs, nor to those that are dead. -/
structure Remains (s t : Worker F Q W) : Prop where
  current : t.currentFiber = s.currentFiber
  runs : ∀ f, (s.fiber (some f)).state = .running → (t.fiber (some f)).state = .running
  dead : ∀ f, (s.fiber (some f)).state = .dead → (t.fiber (some f)).state = .dead
  frame : ∀ f w, t.frame f = .alarm w → s.frame f = .alarm w

/-- Moreover, no fiber starts to run. -/
structure Stays (s t : Worker F Q W) : Prop extends SameTurn s t, Remains s t

theorem Stays.trans {s t u : Worker F Q W} (h : Stays s t) (h' : Stays t u) : Stays s u :=
  ⟨h.toSameTurn.trans h'.toSameTurn, fun f hf => h'.dead f (h.dead f hf),
    fun f w hf => h.frame f w (h'.frame f w hf)⟩

theorem Stays.of_eq {s t : Worker F Q W} (hc : t.currentFiber = s.currentFiber)
    (hd : t.disableContextSwitch = s.disableContextSwitch) (hf : t.fiber = s.fiber)
    (hframe : ∀ f w, t.frame f = .alarm w → s.frame f = .alarm w) : Stays s t :=
  ⟨.of_eq hc hd hf, fun f h => by rwa [hf], hframe⟩

/-- The current fiber runs, or it was killed. -/
def Active (s : Worker F Q W) : Prop :=
  (s.fiber s.currentFiber).state = .running ∨ (s.fiber s.currentFiber).state = .dead

/-- The faults of an operation of the current fiber. -/
def Spared (s : Worker F Q W) (e : Fault) : Prop := s.Active → e.Plain

theorem Spared.of_plain {α : Type*} {s : Worker F Q W} {P : α → Prop} {x : Except Fault α}
    (h : x.Sat Fault.Plain P) : x.Sat s.Spared P := h.mono_bad fun _ he _ => he

theorem Active.busy {s : Worker F Q W} (h : s.Active) : s.Busy := by
  obtain h | h := h <;> simp [Busy, h]

theorem Active.of_stays {s t : Worker F Q W} (h : s.Active) (hst : Stays s t) : t.Active := by
  rw [Active, hst.current]
  cases hcur : s.currentFiber with
  | none =>
      rw [Active, hcur] at h
      rwa [hst.worker]
  | some f =>
      rw [Active, hcur] at h
      exact h.imp (hst.runs f) (hst.dead f)

/-- What an operation of the current fiber comes to: if it does not wait, nothing happens to
the fiber that runs; or the current fiber is one that runs; or the fiber started to wait while
context switching is disabled. -/
def Goes (waits : Bool) (s t : Worker F Q W) : Prop :=
  t.Tracked ∧ ((waits = false ∧ Remains s t) ∨ t.Turn ∨
    (waits = true ∧ s.disableContextSwitch ≠ 0))

theorem Stays.refl (s : Worker F Q W) : Stays s s := .of_eq rfl rfl rfl fun _ _ h => h

theorem Stays.of_touched {s t : Worker F Q W} {f : F} (h : Touched f s t)
    (hrun : (t.fiber (some f)).state = .running ↔ (s.fiber (some f)).state = .running)
    (hdead : (s.fiber (some f)).state = .dead → (t.fiber (some f)).state = .dead) :
    Stays s t := by
  refine ⟨h.sameTurn hrun, fun g hg => ?_, fun g w hg => by rwa [h.rest] at hg⟩
  by_cases hgf : g = f
  · subst hgf
    exact hdead hg
  · rwa [h.fiber (some g) (by simpa using hgf)]

theorem Loose.of_touched {s t : Worker F Q W} {f : F} (h : s.Loose) (hst : Touched f s t)
    (hrun : (t.fiber (some f)).state = .running → (s.fiber (some f)).state = .running)
    (hstarted : (s.fiber (some f)).Started → (t.fiber (some f)).Started) : t.Loose := by
  have hw := hst.waiting.subset
  refine ⟨h.one.of_noStart (hst.noStart hrun), ?_, fun w q g hw' hk => ?_, fun g hg => ?_⟩
  · have ha := h.alarms
    rw [hst.rest]
    exact ⟨ha.owner, ha.frame, fun w q g hw' => ha.kind w q g (hw hw')⟩
  · rw [hst.rest] at hk ⊢
    exact h.rings w q g (hw hw') hk
  · have hs := h.started g (by rwa [hst.rest] at hg)
    by_cases hgf : g = f
    · subst hgf
      exact hstarted hs
    · rwa [hst.fiber (some g) (by simpa using hgf)]

theorem Tracked.of_touched {s t : Worker F Q W} {f : F} (h : s.Tracked) (hst : Touched f s t)
    (hcons : t.ConsistentBy Fiber.Suits)
    (hrun : (t.fiber (some f)).state = .running → (s.fiber (some f)).state = .running)
    (hstarted : (s.fiber (some f)).Started → (t.fiber (some f)).Started) : t.Tracked :=
  ⟨h.toLoose.of_touched hst hrun hstarted, hcons⟩

/-- Nothing that the invariant is about changes. -/
theorem Tracked.of_rest {s t : Worker F Q W} (h : s.Tracked)
    (ht : t = { s with
      polling := t.polling, runEnd := t.runEnd, fault := t.fault,
      disableContextSwitch := t.disableContextSwitch }) : t.Tracked := by
  rw [ht]
  exact ⟨⟨⟨h.one.1, h.one.2⟩, ⟨h.alarms.1, h.alarms.2, h.alarms.3⟩, h.rings, h.started⟩,
    h.consistent.congr rfl rfl rfl rfl rfl rfl⟩

section Operations

variable [DecidableEq F] {s : Worker F Q W}

/-- A fiber that was taken out of its place is added to a queue of the worker. -/
theorem Tracked.addBack (h : s.Tracked) {t : Worker F Q W} {f : F} (hst : Touched f s t)
    (hdet : t.DetachedBy Fiber.Suits f) {x : Fiber} (hlinked : x.linked = false)
    (hsuits : x.state ≠ .waiting →
      x.Suits (if x.state = .suspended then (.suspended : Place Q W) else .runnable))
    (hrun : x.state = .running → (s.fiber (some f)).state = .running)
    (hstarted : (s.fiber (some f)).Started → x.Started) (front : Bool) :
    (add f front (t.setFiber (some f) x)).Sat Fault.Plain fun u =>
      u.Tracked ∧ Touched f t u ∧ u.fiber (some f) = { x with linked := true } := by
  have hself := setFiber_fiber_self t (some f) x
  have hadd := (hdet.setFiber hlinked).add front (by
    rw [hself]
    exact fun hw => (suits_linked x true _).2 (hsuits hw))
  rw [hself] at hadd
  refine hadd.mono ?_
  rintro u ⟨hcons, htouch, hfiber⟩
  have htu := (Touched.setFiber t f x).trans htouch
  refine ⟨h.of_touched (hst.trans htu) hcons ?_ ?_, htu, hfiber⟩
  · rw [hfiber]
    exact hrun
  · rw [hfiber]
    exact hstarted

/-- A new fiber. -/
theorem Tracked.hatch (h : s.Tracked) {f : F}
    (hf : (s.fiber (some f)).state = .uninitialized) :
    (hatch f s).Sat Fault.Plain fun t => t.Tracked ∧ Stays s t := by
  have hdet := h.consistent.detach_nowhere (f := f) fun p hp => by
    cases p <;> simp_all [Fiber.Suits, Fiber.Awaits]
  refine (h.addBack (Touched.refl f s) hdet (x := { Fiber.construct with used := true }) rfl
    (fun _ => ⟨rfl, .inl ⟨rfl, rfl⟩⟩) (fun hx => ?_) (fun hs => absurd hf hs.1) false).mono ?_
  · simp [Fiber.construct] at hx
  · rintro t ⟨ht, htouch, hfiber⟩
    refine ⟨ht, .of_touched htouch ?_ ?_⟩
    · simp [hfiber, hf, Fiber.construct]
    · simp [hf]

/-- What a fiber is that is resumed from the suspended queue. -/
theorem resume_suits {x : Fiber} (hx : x.Suits (.suspended : Place Q W))
    (hs : x.state = .suspended) :
    x.resume.Suits (.runnable : Place Q W) ∧ x.resume.state ≠ .suspended ∧
      x.resume.state ≠ .running ∧ (x.Started → x.resume.Started) := by
  obtain ⟨hused, hdead | ⟨-, hnext | hnext⟩⟩ := hx
  · simp [hs] at hdead
  · simp [Fiber.resume, Fiber.Suits, Fiber.Started, hs, hnext, hused]
  · simp [Fiber.resume, Fiber.Suits, Fiber.Started, hs, hnext, hused]

theorem resume_linked (x : Fiber) : x.resume.linked = x.linked := by
  unfold Fiber.resume
  split
  · split <;> rfl
  · rfl

/-- A fiber is resumed, if it is suspended. -/
theorem Tracked.resume (h : s.Tracked) (f : F) :
    (resume f s).Sat Fault.Plain fun t => t.Tracked ∧ Stays s t ∧
      ∀ r, (s.fiber r).state ≠ .suspended → t.fiber r = s.fiber r := by
  have hheld : Tracked { s with held := Function.update s.held f false } :=
    h.of_touched (Touched.setHeld s f false) (h.consistent.congr rfl rfl rfl rfl rfl rfl)
      (fun hr => hr) fun hs => hs
  rw [Worker.resume]
  dsimp only
  split
  · rename_i hf
    have hstate : (s.fiber (some f)).state = .suspended := hf
    refine (hheld.consistent.release f).bind ?_
    rintro t ⟨hsuits, hdet, htouch, hfiber⟩
    rw [if_pos hf] at hsuits
    have htf : (t.fiber (some f)).Suits (.suspended : Place Q W) := by
      rw [hfiber]
      exact hsuits
    obtain ⟨hrun, hns, hnr, hstarted⟩ := resume_suits htf (by rw [hfiber]; exact hf)
    refine (hheld.addBack htouch hdet ((resume_linked _).trans hdet.unlinked) (fun _ => ?_)
      (fun hr => absurd hr hnr) (fun hs => hstarted (by rwa [hfiber])) false).mono ?_
    · rw [if_neg hns]
      exact hrun
    · rintro u ⟨hu, hutouch, hufiber⟩
      have hall := (Touched.setHeld s f false).trans (htouch.trans hutouch)
      refine ⟨hu, .of_touched hall ?_ ?_, fun r hr => hall.fiber r ?_⟩
      · rw [hufiber, hstate]
        exact iff_of_false hnr (by simp)
      · simp [hstate]
      · rintro rfl
        exact hr hstate
  · exact ⟨hheld, .of_eq rfl rfl rfl fun _ _ hw => hw, fun _ _ => rfl⟩

theorem wakeup_linked (x : Fiber) : x.wakeup.linked = x.linked := by
  unfold Fiber.wakeup
  split
  · split <;> rfl
  · split <;> rfl
  · rfl

/-- What a fiber is whose event came. -/
theorem wakeup_suits {x : Fiber} (hx : x.Awaits) :
    (x.wakeup.state ≠ .waiting →
      x.wakeup.Suits (if x.wakeup.state = .suspended then (.suspended : Place Q W)
        else .runnable)) ∧
      x.state ≠ .running ∧ x.wakeup.state ≠ .running ∧
      (x.state = .dead → x.wakeup.state = .dead) ∧ (x.Started → x.wakeup.Started) := by
  obtain ⟨hused, hs | ⟨hs, hn | hn⟩ | ⟨hs, hn⟩⟩ := hx
  · simp [Fiber.wakeup, Fiber.Suits, Fiber.Started, hs, hused]
  · simp [Fiber.wakeup, Fiber.Suits, Fiber.Started, hs, hn, hused]
  · simp [Fiber.wakeup, Fiber.Started, hs, hn]
  · simp [Fiber.wakeup, Fiber.Suits, Fiber.Started, hs, hn, hused]

/-- A fiber that waited was taken out of its place. It is woken and added. -/
theorem Tracked.wakeFiber (h : s.Tracked) {t : Worker F Q W} {f : F} (hst : Touched f s t)
    (hdet : t.DetachedBy Fiber.Suits f) (hs : (s.fiber (some f)).Awaits)
    (hfiber : t.fiber (some f) = { s.fiber (some f) with linked := false }) (prio : Bool) :
    (wakeFiber f prio t).Sat Fault.Plain fun u =>
      u.Tracked ∧ Stays s u ∧ Touched f t u := by
  have hawaits : (t.fiber (some f)).Awaits := by
    rw [hfiber]
    exact hs
  obtain ⟨hsuits, hnr, hnr', hdead, hstarted⟩ := wakeup_suits (Q := Q) (W := W) hawaits
  refine (h.addBack hst hdet ((wakeup_linked _).trans hdet.unlinked) hsuits
    (fun hr => absurd hr hnr') (fun hx => hstarted (by rwa [hfiber])) prio).mono ?_
  rintro u ⟨hu, htouch, hufiber⟩
  rw [hfiber] at hnr hdead
  refine ⟨hu, .of_touched (hst.trans htouch) ?_ fun hd => ?_, htouch⟩
  · rw [hufiber]
    exact iff_of_false hnr' hnr
  · rw [hufiber, hfiber]
    exact hdead hd

/-- `schedule` switches to a fiber that runs then, unless context switching is disabled. -/
theorem Tracked.schedule (h : s.Tracked) (created : Contexts F)
    (prefer : Option (Option F)) (now : ℕ) :
    (schedule created prefer now s).Sat (fun e => s.Busy → e.Plain) fun x => x.1.Tracked ∧
      (s.disableContextSwitch = 0 ∧ x.1.Turn ∨ s.disableContextSwitch ≠ 0 ∧ x.1 = s) := by
  by_cases henabled : s.disableContextSwitch = 0
  · have hsat := (schedule_sat schedulable_suits created prefer now h.consistent h.one
      henabled).and (rescheduled_schedule created prefer now s)
    refine (hsat.mono_bad ?_).mono ?_
    · rintro e (⟨-, hne⟩ | rfl) hbusy
      · exact absurd hbusy hne
      · exact Fault.plain_abort
    rintro ⟨t, r⟩ ⟨⟨hcons, hturn⟩, hres⟩
    dsimp only at hcons hturn hres ⊢
    refine ⟨⟨⟨hturn.toOneRunning, ?_, fun w q f hw hk => ?_, fun f hf => ?_⟩, hcons⟩,
      .inl ⟨henabled, hturn⟩⟩
    · rw [hres]
      exact ⟨h.alarms.owner, h.alarms.frame, h.alarms.kind⟩
    · rw [hres] at hw hk ⊢
      exact h.rings w q f hw hk
    · simp [Fiber.Started, hturn.running f hf]
  · rw [Worker.schedule, if_pos henabled]
    exact ⟨h, .inr ⟨henabled, rfl⟩⟩

/-- `schedule` ends an operation in which the current fiber does not wait. -/
theorem Tracked.goes_schedule (h : s.Tracked) {t : Worker F Q W} (hts : Stays t s)
    (created : Contexts F) (prefer : Option (Option F)) (now : ℕ) :
    (Worker.schedule created prefer now s).Sat t.Spared fun x => Goes false t x.1 := by
  refine Except.Sat.mono_bad ((h.schedule created prefer now).mono ?_)
    fun e he ht => he (ht.of_stays hts).busy
  rintro x ⟨hx, ⟨-, hturn⟩ | ⟨-, heq⟩⟩
  · exact ⟨hx, .inr (.inl hturn)⟩
  · exact ⟨hx, .inl ⟨rfl, by rw [heq]; exact hts.toRemains⟩⟩

/-- `schedule` ends an operation in which the current fiber waits. -/
theorem Tracked.goes_wait (h : s.Tracked) {t : Worker F Q W}
    (hts : s.disableContextSwitch = t.disableContextSwitch) (hbusy : t.Active → s.Busy)
    (created : Contexts F) (prefer : Option (Option F)) (now : ℕ) :
    (Worker.schedule created prefer now s).Sat t.Spared fun x => Goes true t x.1 := by
  refine Except.Sat.mono_bad ((h.schedule created prefer now).mono ?_)
    fun e he ht => he (hbusy ht)
  rintro x ⟨hx, ⟨-, hturn⟩ | ⟨hne, -⟩⟩
  · exact ⟨hx, .inr (.inl hturn)⟩
  · exact ⟨hx, .inr (.inr ⟨rfl, hts ▸ hne⟩)⟩

theorem suspend_linked (x : Fiber) : x.suspend.linked = x.linked := by
  unfold Fiber.suspend
  split <;> rfl

/-- What a fiber is that is suspended in the runnable queue. -/
theorem suspend_suits {x : Fiber} (hx : x.Suits (.runnable : Place Q W))
    (hs : x.state = .new ∨ x.state = .ready ∨ x.state = .running) :
    x.suspend.Suits (.suspended : Place Q W) ∧ x.suspend.state = .suspended ∧
      (x.Started → x.suspend.Started) := by
  obtain hs | hs | hs := hs <;>
    simp [Fiber.suspend, Fiber.Suits, Fiber.Started, hs, hx.1]

/-- A fiber moves from the runnable queue to the suspended one. -/
theorem Tracked.suspendRunnable (h : s.Tracked) {f : F}
    (hs : (s.fiber (some f)).state = .new ∨ (s.fiber (some f)).state = .ready ∨
      (s.fiber (some f)).state = .running) :
    ((release f s).bind fun s =>
      add f false { s.setFiber (some f) (s.fiber (some f)).suspend with
        held := Function.update s.held f true }).Sat Fault.Plain fun t =>
      t.Tracked ∧ ((s.fiber (some f)).state ≠ .running → Stays s t) ∧
        ((s.fiber (some f)).state = .running → (t.fiber (some f)).state = .suspended) := by
  refine (h.consistent.release f).bind ?_
  rintro t ⟨hsuits, hdet, htouch, hfiber⟩
  rw [if_neg (by obtain hs | hs | hs := hs <;> simp [hs])] at hsuits
  have htf : (t.fiber (some f)).Suits (.runnable : Place Q W) := by
    rw [hfiber]
    exact hsuits
  obtain ⟨hsus, hstate, hstarted⟩ := suspend_suits htf (by rw [hfiber]; exact hs)
  refine (h.addBack (htouch.trans (Touched.setHeld t f true)) (hdet.setHeld true)
    ((suspend_linked _).trans hdet.unlinked) (fun _ => ?_) (fun hr => ?_)
    (fun hx => hstarted (by rwa [hfiber])) false).mono ?_
  · rw [if_pos hstate]
    exact hsus
  · rw [hstate] at hr
    cases hr
  · rintro u ⟨hu, hutouch, hufiber⟩
    have hall := (htouch.trans (Touched.setHeld t f true)).trans hutouch
    refine ⟨hu, fun hnr => .of_touched hall ?_ ?_, fun _ => by rwa [hufiber]⟩
    · rw [hufiber]
      exact iff_of_false (by simp [hstate]) hnr
    · obtain hs | hs | hs := hs <;> simp [hs]

/-- `Worker::suspend`, up to its `schedule`. -/
theorem Tracked.suspendOther (h : s.Tracked) (f : F) :
    (suspendOther f s).Sat Fault.Plain fun t => t.Tracked ∧
      ((s.fiber (some f)).state ≠ .running → Stays s t) ∧
        ((s.fiber (some f)).state = .running → (t.fiber (some f)).state = .suspended) := by
  rw [Worker.suspendOther]
  split
  · rename_i hs
    exact h.suspendRunnable (.inl hs)
  · rename_i hs
    exact h.suspendRunnable (.inr (.inl hs))
  · rename_i hs
    exact h.suspendRunnable (.inr (.inr hs))
  · rename_i hs
    have htouch := (Touched.setFiber s f (s.fiber (some f)).suspend).trans
      (Touched.setHeld _ f true)
    have hcons := h.consistent.setFiber (r := some f) (x := (s.fiber (some f)).suspend)
      (suspend_linked _) fun p hp => by
        cases p <;> simp_all [Fiber.suspend, Fiber.Suits, Fiber.Awaits]
    have hself := setFiber_fiber_self s (some f) (s.fiber (some f)).suspend
    have hstate : (s.fiber (some f)).suspend.state = .waiting := by simp [Fiber.suspend, hs]
    refine ⟨h.of_touched htouch (hcons.congr rfl rfl rfl rfl rfl rfl) ?_ ?_, fun _ =>
      .of_touched htouch ?_ ?_, fun hr => ?_⟩
    · simp [hself, hstate]
    · simp [hself, hstate, Fiber.Started]
    · simp [hself, hstate, hs]
    · simp [hs]
    · simp [hs] at hr
  all_goals
    rename_i hs
    exact ⟨h, fun _ => .refl s, fun hr => by simp [hs] at hr⟩

theorem Tracked.suspend (h : s.Tracked) (created : Contexts F) (f : F) (now : ℕ) :
    (suspend created f now s).Sat Fault.Plain fun x =>
      x.1.Tracked ∧ (Stays s x.1 ∨ x.1.Turn) := by
  rw [Worker.suspend]
  split
  · rename_i hrun
    refine (h.suspendOther f).bind fun t ht => ?_
    split
    · rename_i hcur
      have hbusy : t.Busy := by simp [Busy, hcur.1, ht.2.2 hrun]
      refine Except.Sat.mono_bad ((ht.1.schedule created none now).mono fun x hx => ⟨hx.1, ?_⟩)
        fun e he => he hbusy
      obtain ⟨-, hturn⟩ | ⟨hne, -⟩ := hx.2
      · exact .inr hturn
      · exact absurd hcur.2 hne
    · exact Fault.plain_abort
  · rename_i hnr
    exact (h.suspendOther f).map fun t ht => ⟨ht.1, .inl (ht.2.1 hnr)⟩

/-- A fiber is killed, wherever it is. -/
theorem Tracked.kill (h : s.Tracked) (f : F) :
    (s.setFiber (some f) (s.fiber (some f)).kill).Tracked := by
  have hself := setFiber_fiber_self s (some f) (s.fiber (some f)).kill
  refine h.of_touched (Touched.setFiber s f (s.fiber (some f)).kill)
    (h.consistent.setFiber rfl fun p hp => ?_) ?_ ?_
  · cases p <;> simp_all [Fiber.Suits, Fiber.Awaits, Fiber.kill]
  · rw [hself]
    simp [Fiber.kill]
  · rw [hself]
    simp [Fiber.kill, Fiber.Started]

section Synchronizer

variable [DecidableEq Q]

/-- A fiber is taken out of a queue and woken. -/
theorem Tracked.wakeQueued (h : s.Tracked) {q : Q} {f : F} (hf : f ∈ s.queue q) (prio : Bool) :
    (Worker.wakeFiber f prio
      (Worker.setLinked f false (s.setQueue q ((s.queue q).erase f)))).Sat Fault.Plain fun t =>
        t.Tracked ∧ Stays s t ∧ Touched f s t := by
  obtain ⟨-, -, hsuits⟩ := h.consistent.of_mem_queue hf
  have hst : Touched f s (Worker.setLinked f false (s.setQueue q ((s.queue q).erase f))) :=
    Touched.setLinked s f _ _ _ _
  exact (h.wakeFiber hst (h.consistent.detach_queue hf) hsuits
    (setLinked_fiber_self _ _ _) prio).mono fun t ht => ⟨ht.1, ht.2.1, hst.trans ht.2.2⟩

theorem Tracked.unblock (h : s.Tracked) (q : Q) (f : F) (prio : Bool) :
    (unblock q f prio s).Sat Fault.Plain fun x =>
      x.1.Tracked ∧ Stays s x.1 ∧ Touched f s x.1 := by
  rw [Worker.unblock]
  split
  · rename_i hf
    exact (h.wakeQueued hf prio).map fun t ht => ht
  · exact ⟨h, .refl s, Touched.refl f s⟩

theorem Tracked.unblockFirst (h : s.Tracked) (q : Q) (prio : Bool) :
    (unblockFirst q prio s).Sat Fault.Plain fun t => t.Tracked ∧ Stays s t := by
  rw [Worker.unblockFirst]
  split
  · exact ⟨h, .refl s⟩
  · rename_i f fs hq
    have hwake := h.wakeQueued (show f ∈ s.queue q by simp [hq]) prio
    rw [hq, List.erase_cons_head] at hwake
    exact hwake.mono fun t ht => ⟨ht.1, ht.2.1⟩

theorem Tracked.unblockAll (h : s.Tracked) (q : Q) (prio : Bool) (n : ℕ) :
    (unblockAll q prio n s).Sat Fault.Plain fun t => t.Tracked ∧ Stays s t := by
  induction n generalizing s with
  | zero => exact ⟨h, .refl s⟩
  | succ n ih =>
      refine (h.unblockFirst q prio).bind fun t ht => ?_
      exact (ih ht.1).mono fun u hu => ⟨hu.1, ht.2.trans hu.2⟩

omit [DecidableEq F] [DecidableEq Q] in
/-- What a fiber is that starts to wait in a queue, from one of those of the worker. -/
theorem nap_awaits {x : Fiber} (hx : x.Suits
      (if x.state = .suspended then (.suspended : Place Q W) else .runnable))
    (hs : x.Started) :
    x.nap.Awaits ∧ (x.nap.state = .running → x.state = .running) ∧ x.nap.Started := by
  obtain ⟨-, hnew, -⟩ := hs
  split at hx
  · rename_i hsus
    simp [Fiber.nap, Fiber.Awaits, Fiber.Started, hsus, hx.1]
  · obtain ⟨hused, ⟨hnew', -⟩ | hr | hr | hr⟩ := hx
    · exact absurd hnew' hnew
    · simp [Fiber.nap, Fiber.Awaits, Fiber.Started, hr, hused]
    · simp [Fiber.nap, Fiber.Awaits, Fiber.Started, hr, hused]
    · simp [Fiber.nap, Fiber.Awaits, Fiber.Started, hr, hused]

omit [DecidableEq F] [DecidableEq Q] in
/-- The current fiber does not become one that can be switched to when it starts to wait. -/
theorem Active.nap (h : s.Active) {f : F} (hf : s.currentFiber = some f) :
    (s.fiber (some f)).nap.state = .waiting ∨ (s.fiber (some f)).nap.state = .dead := by
  rw [Active, hf] at h
  obtain h | h := h <;> simp [Fiber.nap, h]

/-- The current fiber enters the queue of a synchronizer, whatever state it is in. -/
theorem Tracked.enterQueue (h : s.Tracked) (q : Q) {f : F} (hf : s.currentFiber = some f) :
    (enterQueue q f s).Sat Fault.Plain fun t => t.Tracked ∧ Touched f s t ∧
      (t.fiber (some f)).state = (s.fiber (some f)).nap.state := by
  refine (h.consistent.release f).bind ?_
  rintro t ⟨hsuits, hdet, htouch, hfiber⟩
  obtain ⟨hawaits, hrun, hstarted⟩ := nap_awaits hsuits (h.started f hf)
  have hnap : (t.fiber (some f)).nap = { (s.fiber (some f)).nap with linked := false } := by
    rw [hfiber, nap_linked]
  obtain ⟨u, hu, hucons, hutouch, -, hufiber⟩ := hdet.enqueue q
    (show Fiber.Suits _ (.queued q) by rw [hnap]; exact hawaits)
  have hall := htouch.trans hutouch
  rw [hnap] at hufiber
  refine .of_ok hu ⟨h.of_touched hall hucons ?_ fun _ => ?_, hall, by rw [hufiber]⟩
  · rw [hufiber]
    exact hrun
  · rw [hufiber]
    exact hstarted

theorem Tracked.block (h : s.Tracked) (created : Contexts F) (q : Q) {f : F}
    (hf : s.currentFiber = some f) (now : ℕ) :
    (block created q f now s).Sat s.Spared fun x => Goes true s x.1 := by
  refine (Spared.of_plain (h.enterQueue q hf)).bind fun t ht => ?_
  obtain ⟨ht, htouch, hstate⟩ := ht
  refine ht.goes_wait (by rw [htouch.rest]) (fun hs => ?_) created none now
  rw [Busy, show t.currentFiber = some f by rw [htouch.rest]; exact hf, hstate]
  obtain hnap | hnap := hs.nap hf <;> simp [hnap]

end Synchronizer

end Operations

end Worker

end Zth
