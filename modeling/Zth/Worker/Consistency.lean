import Zth.Worker.Schedule

/-!
# A worker stays consistent

What one operation does to the places of the fibers, and from it what holds in every
run: every fiber is in one place that fits its state, the current fiber is the one
that runs, and no list operation or `Fiber::run` ever meets a fiber in a state it
does not expect. Two things are left out: a fiber that waits is not suspended, and a
fiber does not start to wait while context switching is disabled.
-/

namespace Zth

namespace Worker

variable {F Q W : Type*} {fits : Fiber → Place Q W → Prop}

/-- No fiber starts to run. -/
structure NoStart (s t : Worker F Q W) : Prop where
  current : t.currentFiber = s.currentFiber
  switching : t.disableContextSwitch = s.disableContextSwitch
  worker : t.fiber none = s.fiber none
  running : ∀ f, (t.fiber (some f)).state = .running → (s.fiber (some f)).state = .running

/-- Moreover, no fiber stops running. -/
structure SameTurn (s t : Worker F Q W) : Prop extends NoStart s t where
  runs : ∀ f, (s.fiber (some f)).state = .running → (t.fiber (some f)).state = .running

theorem OneRunning.of_noStart {s t : Worker F Q W} (h : s.OneRunning)
    (hst : NoStart s t) : t.OneRunning := by
  refine ⟨fun f hf => ?_, ?_⟩
  · rw [hst.current]
    exact h.current f (hst.running f hf)
  · rw [hst.current, hst.worker]
    exact h.worker

theorem Turn.of_sameTurn {s t : Worker F Q W} (h : s.Turn) (hst : SameTurn s t) :
    t.Turn := by
  refine ⟨h.toOneRunning.of_noStart hst.toNoStart, fun f hf => ?_⟩
  rw [hst.current] at hf
  exact hst.runs f (h.running f hf)

theorem NoStart.trans {s t u : Worker F Q W} (h : NoStart s t) (h' : NoStart t u) :
    NoStart s u :=
  ⟨h'.current.trans h.current, h'.switching.trans h.switching, h'.worker.trans h.worker,
    fun f hf => h.running f (h'.running f hf)⟩

theorem SameTurn.trans {s t u : Worker F Q W} (h : SameTurn s t) (h' : SameTurn t u) :
    SameTurn s u :=
  ⟨h.toNoStart.trans h'.toNoStart, fun f hf => h'.runs f (h.runs f hf)⟩

/-- The other fields do not matter. -/
theorem SameTurn.of_eq {s t : Worker F Q W} (hc : t.currentFiber = s.currentFiber)
    (hd : t.disableContextSwitch = s.disableContextSwitch) (hf : t.fiber = s.fiber) :
    SameTurn s t :=
  ⟨⟨hc, hd, by rw [hf], fun f h => by rwa [hf] at h⟩, fun f h => by rwa [hf]⟩

/-- The objects of alarms. A waitable that is used by a block with timeout has no
fiber, and is used by that call only. -/
structure Alarms (s : Worker F Q W) : Prop where
  owner : ∀ w f, s.owner w = some f → (s.waitable w).fiber = none
  frame : ∀ f w, s.frame f = .alarm w → s.owner w = some f
  kind : ∀ w q f, w ∈ s.waiting → (s.waitable w).kind = .alarm q f →
    (s.waitable w).fiber = none

/-- What holds throughout an operation, also while a fiber is taken out of its
place. -/
structure Sound (s : Worker F Q W) : Prop where
  one : s.OneRunning
  alarms : s.Alarms
  held : ∀ f, s.held f = true ↔ (s.fiber (some f)).state = .suspended
  fault : ∀ e, s.fault = some e → e.Open

/-- What holds before and after every operation. -/
structure Steady (s : Worker F Q W) : Prop extends Sound s where
  consistent : s.Consistent

/-- Moreover, the current fiber is the one that runs. This holds at every point where
code of a fiber or of the context of the worker runs. -/
structure Orderly (s : Worker F Q W) : Prop extends Steady s where
  turn : s.Turn

/-- After an operation that does not hand over. -/
theorem Orderly.of_sameTurn {s t : Worker F Q W} (hs : s.Orderly)
    (ht : t.Steady ∧ SameTurn s t) : t.Orderly :=
  ⟨ht.1, hs.turn.of_sameTurn ht.2⟩

/-- Only the fiber `f` moved, and waitables may have left the waiting list. -/
structure Touched (f : F) (s t : Worker F Q W) : Prop where
  fiber : ∀ r, r ≠ some f → t.fiber r = s.fiber r
  held : ∀ g, g ≠ f → t.held g = s.held g
  waiting : t.waiting.Sublist s.waiting
  rest : t = { s with
    fiber := t.fiber, held := t.held, waiting := t.waiting, queue := t.queue,
    runnableQueue := t.runnableQueue, suspendedQueue := t.suspendedQueue }

theorem Touched.noStart {s t : Worker F Q W} {f : F} (h : Touched f s t)
    (hf : (t.fiber (some f)).state = .running → (s.fiber (some f)).state = .running) :
    NoStart s t := by
  refine ⟨by rw [h.rest], by rw [h.rest], h.fiber none (by simp), fun g hg => ?_⟩
  by_cases hgf : g = f
  · subst hgf
    exact hf hg
  · rwa [h.fiber (some g) (by simpa using hgf)] at hg

theorem Touched.sameTurn {s t : Worker F Q W} {f : F} (h : Touched f s t)
    (hf : (t.fiber (some f)).state = .running ↔ (s.fiber (some f)).state = .running) :
    SameTurn s t := by
  refine ⟨h.noStart hf.1, fun g hg => ?_⟩
  by_cases hgf : g = f
  · subst hgf
    exact hf.2 hg
  · rwa [h.fiber (some g) (by simpa using hgf)]

theorem Sound.of_touched {s t : Worker F Q W} {f : F} (h : s.Sound)
    (hst : Touched f s t)
    (hrun : (t.fiber (some f)).state = .running → (s.fiber (some f)).state = .running)
    (hheld : t.held f = true ↔ (t.fiber (some f)).state = .suspended) : t.Sound where
  one := h.one.of_noStart (hst.noStart hrun)
  alarms := by
    have hw := hst.waiting.subset
    have ha := h.alarms
    rw [hst.rest]
    exact ⟨ha.owner, ha.frame, fun w q g hw' => ha.kind w q g (hw hw')⟩
  held g := by
    by_cases hg : g = f
    · rw [hg]
      exact hheld
    · rw [hst.held g hg, h.held g, hst.fiber (some g) (by simpa using hg)]
  fault := by
    rw [hst.rest]
    exact h.fault

/-- A fiber moved to a place that fits its state. -/
theorem Steady.of_touched {s t : Worker F Q W} {f : F} (h : s.Steady)
    (hst : Touched f s t) (hcons : t.Consistent)
    (hrun : (t.fiber (some f)).state = .running → (s.fiber (some f)).state = .running)
    (hheld : t.held f = true ↔ (t.fiber (some f)).state = .suspended) : t.Steady :=
  ⟨h.toSound.of_touched hst hrun hheld, hcons⟩

theorem Touched.trans {s t u : Worker F Q W} {f : F} (h : Touched f s t)
    (h' : Touched f t u) : Touched f s u where
  fiber r hr := (h'.fiber r hr).trans (h.fiber r hr)
  held g hg := (h'.held g hg).trans (h.held g hg)
  waiting := h'.waiting.trans h.waiting
  rest := by
    rw [h'.rest, h.rest]

theorem Touched.refl (f : F) (s : Worker F Q W) : Touched f s s where
  fiber _ _ := rfl
  held _ _ := rfl
  waiting := List.Sublist.refl _
  rest := rfl

/-- A fiber whose state suits no place is nowhere. -/
theorem ConsistentBy.detach_nowhere {s : Worker F Q W} (h : s.ConsistentBy fits) {f : F}
    (hf : ∀ p, fits (s.fiber (some f)) p → p = .nowhere) : s.DetachedBy fits f := by
  obtain ⟨p, hat, hlinked, hfits⟩ := h.placed f
  obtain rfl := hf p hfits
  exact ⟨h.nodups, fun g _ => h.placed g, hat, hlinked⟩

variable [DecidableEq F]

theorem Touched.setFiber (s : Worker F Q W) (f : F) (x : Fiber) :
    Touched f s (s.setFiber (some f) x) where
  fiber _ hr := setFiber_fiber_of_ne s x hr
  held _ _ := rfl
  waiting := List.Sublist.refl _
  rest := rfl

theorem Touched.setHeld (s : Worker F Q W) (f : F) (held : Bool) :
    Touched f s { s with held := Function.update s.held f held } where
  fiber _ _ := rfl
  held _ hg := Function.update_of_ne hg _ _
  waiting := List.Sublist.refl _
  rest := rfl

/-- A change of the link fields and the lists. -/
theorem Touched.setLinked (s : Worker F Q W) (f : F) (linked : Bool) (queue : Q → List F)
    (runnableQueue suspendedQueue : List F) :
    Touched f s (setLinked f linked { s with
      queue := queue, runnableQueue := runnableQueue, suspendedQueue := suspendedQueue }) where
  fiber _ hr := setLinked_fiber_of_ne _ linked hr
  held _ _ := rfl
  waiting := List.Sublist.refl _
  rest := rfl

theorem DetachedBy.setHeld {s : Worker F Q W} {f : F} (h : s.DetachedBy fits f) (held : Bool) :
    { s with held := Function.update s.held f held }.DetachedBy fits f := by
  refine ⟨⟨h.nodups.1, h.nodups.2, h.nodups.3, h.nodups.4⟩, fun g hg => ?_,
    ⟨h.nowhere.1, h.nowhere.2, h.nowhere.3, h.nowhere.4⟩, h.unlinked⟩
  obtain ⟨p, hat, hlinked, hfits⟩ := h.placed g hg
  exact ⟨p, ⟨hat.1, hat.2, hat.3, hat.4⟩, hlinked, hfits⟩

/-- A fiber leaves the runnable queue. -/
theorem ConsistentBy.release_runnable {s : Worker F Q W} (h : s.ConsistentBy fits) {f : F}
    (hs : (s.fiber (some f)).state ≠ .suspended) (hf : f ∈ s.runnableQueue) :
    ∃ t, release f s = .ok t ∧ t.DetachedBy fits f ∧ Touched f s t ∧ t.held = s.held ∧
      t.fiber (some f) = { s.fiber (some f) with linked := false } := by
  rw [release, if_neg hs, if_pos hf]
  exact ⟨_, rfl, h.detach_runnable hf, Touched.setLinked s f _ _ _ _, rfl,
    setLinked_fiber_self _ _ _⟩

/-- A fiber leaves the suspended queue. -/
theorem ConsistentBy.release_suspended {s : Worker F Q W} (h : s.ConsistentBy fits) {f : F}
    (hs : (s.fiber (some f)).state = .suspended) (hf : f ∈ s.suspendedQueue) :
    ∃ t, release f s = .ok t ∧ t.DetachedBy fits f ∧ Touched f s t ∧ t.held = s.held ∧
      t.fiber (some f) = { s.fiber (some f) with linked := false } := by
  rw [release, if_pos hs, if_pos hf]
  exact ⟨_, rfl, h.detach_suspended hf, Touched.setLinked s f _ _ _ _, rfl,
    setLinked_fiber_self _ _ _⟩

/-- A fiber leaves the queue of the worker that its state tells. -/
theorem ConsistentBy.release {s : Worker F Q W} (h : s.ConsistentBy fits) (f : F) :
    (release f s).Sat Fault.Plain fun t =>
      fits (s.fiber (some f))
        (if (s.fiber (some f)).state = .suspended then .suspended else .runnable) ∧
      t.DetachedBy fits f ∧ Touched f s t ∧
      t.fiber (some f) = { s.fiber (some f) with linked := false } := by
  by_cases hs : (s.fiber (some f)).state = .suspended
  · by_cases hf : f ∈ s.suspendedQueue
    · obtain ⟨t, ht, hdet, htouch, -, hfiber⟩ := h.release_suspended hs hf
      rw [if_pos hs]
      exact .of_ok ht ⟨(h.of_mem_suspended hf).2.2, hdet, htouch, hfiber⟩
    · have herror : Worker.release f s = .error .list := by
        rw [Worker.release, if_pos hs, if_neg hf]
      rw [herror]
      exact Fault.plain_list
  · by_cases hf : f ∈ s.runnableQueue
    · obtain ⟨t, ht, hdet, htouch, -, hfiber⟩ := h.release_runnable hs hf
      rw [if_neg hs]
      exact .of_ok ht ⟨(h.of_mem_runnable hf).2.2, hdet, htouch, hfiber⟩
    · have herror : Worker.release f s = .error .list := by
        rw [Worker.release, if_neg hs, if_neg hf]
      rw [herror]
      exact Fault.plain_list

/-- A fiber is added to the runnable queue. -/
theorem DetachedBy.add_runnable {s : Worker F Q W} {f : F} (h : s.DetachedBy fits f)
    (front : Bool) (hw : (s.fiber (some f)).state ≠ .waiting)
    (hs : (s.fiber (some f)).state ≠ .suspended)
    (hfits : fits { s.fiber (some f) with linked := true } .runnable) :
    ∃ t, add f front s = .ok t ∧ t.ConsistentBy fits ∧ Touched f s t ∧ t.held = s.held ∧
      t.fiber (some f) = { s.fiber (some f) with linked := true } := by
  rw [add, if_neg hw, h.unlinked, if_neg Bool.false_ne_true, if_neg hs]
  refine ⟨_, rfl, h.attach_runnable hfits ?_, Touched.setLinked s f _ _ _ _, rfl, ?_⟩
  · cases front with
    | true => exact List.Perm.refl _
    | false => exact List.perm_append_singleton f s.runnableQueue
  · exact setLinked_fiber_self _ _ _

/-- A fiber is added to the suspended queue. -/
theorem DetachedBy.add_suspended {s : Worker F Q W} {f : F} (h : s.DetachedBy fits f)
    (front : Bool) (hs : (s.fiber (some f)).state = .suspended)
    (hfits : fits { s.fiber (some f) with linked := true } .suspended) :
    ∃ t, add f front s = .ok t ∧ t.ConsistentBy fits ∧ Touched f s t ∧ t.held = s.held ∧
      t.fiber (some f) = { s.fiber (some f) with linked := true } := by
  rw [add, if_neg (by simp [hs]), h.unlinked, if_neg Bool.false_ne_true, if_pos hs]
  exact ⟨_, rfl, h.attach_suspended hfits, Touched.setLinked s f _ _ _ _, rfl,
    setLinked_fiber_self _ _ _⟩

/-- A fiber is added to the queue of the worker that its state tells. -/
theorem DetachedBy.add {s : Worker F Q W} {f : F} (h : s.DetachedBy fits f) (front : Bool)
    (hfits : (s.fiber (some f)).state ≠ .waiting → fits { s.fiber (some f) with linked := true }
      (if (s.fiber (some f)).state = .suspended then .suspended else .runnable)) :
    (add f front s).Sat Fault.Plain fun t => t.ConsistentBy fits ∧ Touched f s t ∧
      t.fiber (some f) = { s.fiber (some f) with linked := true } := by
  by_cases hw : (s.fiber (some f)).state = .waiting
  · rw [Worker.add, if_pos hw]
    exact Fault.plain_addWaiting
  · have hfits := hfits hw
    by_cases hs : (s.fiber (some f)).state = .suspended
    · rw [if_pos hs] at hfits
      obtain ⟨t, ht, hcons, htouch, -, hfiber⟩ := h.add_suspended front hs hfits
      exact .of_ok ht ⟨hcons, htouch, hfiber⟩
    · rw [if_neg hs] at hfits
      obtain ⟨t, ht, hcons, htouch, -, hfiber⟩ := h.add_runnable front hw hs hfits
      exact .of_ok ht ⟨hcons, htouch, hfiber⟩

section Operations

variable {s : Worker F Q W}

omit [DecidableEq F] in
theorem Sound.not_held (h : s.Sound) {f : F}
    (hf : (s.fiber (some f)).state ≠ .suspended) : s.held f = false := by
  rw [← Bool.not_eq_true, h.held]
  exact hf

/-- A fiber that was taken out of its place is added to the runnable queue, in a state
in which it does not run. -/
theorem Steady.addBack (h : s.Steady) {t : Worker F Q W} {f : F} (hst : Touched f s t)
    (hdet : t.Detached f) (hheld : t.held f = false)
    (hs : (s.fiber (some f)).state ≠ .running) {x : Fiber} (hlinked : x.linked = false)
    (hfits : x.Fits (.runnable : Place Q W)) (hx : x.state ≠ .running) (front : Bool) :
    (add f front (t.setFiber (some f) x)).Sat Fault.Open fun u =>
      u.Steady ∧ SameTurn s u ∧ Touched f t u := by
  have hself := setFiber_fiber_self t (some f) x
  have hwaiting : x.state ≠ .waiting := by
    rcases hfits.2 with h | h | h | h <;> simp [h]
  have hsuspended : x.state ≠ .suspended := by
    rcases hfits.2 with h | h | h | h <;> simp [h]
  obtain ⟨u, hu, hcons, htouch, huheld, hfiber⟩ := (hdet.setFiber hlinked).add_runnable front
    (by rwa [hself]) (by rwa [hself]) (by rw [hself]; exact hfits)
  have hstate : (u.fiber (some f)).state = x.state := by rw [hfiber, hself]
  have htu := (Touched.setFiber t f x).trans htouch
  have hall := hst.trans htu
  refine Except.Sat.of_ok hu ⟨h.of_touched hall hcons ?_ ?_, hall.sameTurn ?_, htu⟩
  · rw [hstate]
    exact fun h => absurd h hx
  · rw [hstate, huheld]
    exact iff_of_false (by simpa [Worker.setFiber] using hheld) hsuspended
  · rw [hstate]
    exact iff_of_false hx hs

/-- A new fiber. -/
theorem Steady.hatch (h : s.Steady) {f : F}
    (hf : (s.fiber (some f)).state = .uninitialized) :
    (hatch f s).Sat Fault.Open fun t => t.Steady ∧ SameTurn s t := by
  have hdet := h.consistent.detach_nowhere (f := f) fun p hp => by
    cases p <;> simp_all [Fiber.Fits]
  have hheld := h.toSound.not_held (f := f) (by simp [hf])
  refine (h.addBack (Touched.refl f s) hdet hheld (by simp [hf])
    (x := { Fiber.construct with used := true }) rfl ⟨rfl, Or.inl ⟨rfl, rfl⟩⟩ ?_ false).mono
    fun t ht => ⟨ht.1, ht.2.1⟩
  simp [Fiber.construct]

/-- A fiber is resumed, if it is suspended. -/
theorem Steady.resume (h : s.Steady) (f : F) :
    (resume f s).Sat Fault.Open fun t => t.Steady ∧ SameTurn s t := by
  rw [Worker.resume]
  dsimp only
  split
  · rename_i hf
    have hcons := h.consistent.congr (t := { s with held := Function.update s.held f false })
      rfl rfl rfl rfl rfl rfl
    have hmem := (Consistent.mem_suspended_iff hcons f).2 hf
    obtain ⟨t, ht, hdet, htouch, hheld, hfiber⟩ := hcons.release_suspended hf hmem
    have hfits := (hcons.of_mem_suspended hmem).2.2
    have hresume : (t.fiber (some f)).resume.Fits (.runnable : Place Q W) ∧
        (t.fiber (some f)).resume.state ≠ .running ∧
        (t.fiber (some f)).resume.linked = false := by
      rw [hfiber]
      obtain ⟨hused, hstate, hnext | hnext⟩ := hfits <;>
        simp_all [Fiber.resume, Fiber.Fits]
    obtain ⟨hfits, hnr, hlinked⟩ := hresume
    have hs : (s.fiber (some f)).state ≠ .running := by
      have hf : (s.fiber (some f)).state = .suspended := hf
      simp [hf]
    refine Except.Sat.bind_of_ok ht ((h.addBack ((Touched.setHeld s f false).trans htouch) hdet
      ?_ hs hlinked hfits hnr false).mono fun u hu => ⟨hu.1, hu.2.1⟩)
    simp [hheld]
  · rename_i hf
    have hnot := h.toSound.not_held hf
    rw [← hnot, Function.update_eq_self]
    exact ⟨h, SameTurn.of_eq rfl rfl rfl⟩

/-- A fiber that waited was taken out of its place. It is woken and added. -/
theorem Steady.wakeFiber (h : s.Steady) {t : Worker F Q W} {f : F} (hst : Touched f s t)
    (hdet : t.Detached f) (hheld : t.held = s.held)
    (hs : (s.fiber (some f)).state = .waiting)
    (ht : (t.fiber (some f)).used = true ∧ (t.fiber (some f)).state = .waiting ∧
      (t.fiber (some f)).stateNext = .ready) (prio : Bool) :
    (wakeFiber f prio t).Sat Fault.Open fun u =>
      u.Steady ∧ SameTurn s u ∧ Touched f s u ∧ u.waiting.Sublist t.waiting := by
  have hwakeup : (t.fiber (some f)).wakeup.Fits (.runnable : Place Q W) ∧
      (t.fiber (some f)).wakeup.state = .ready ∧
      (t.fiber (some f)).wakeup.linked = (t.fiber (some f)).linked := by
    simp [Fiber.wakeup, Fiber.Fits, ht]
  obtain ⟨hfits, hready, hlinked⟩ := hwakeup
  have hnot : t.held f = false := by
    rw [hheld]
    exact h.toSound.not_held (by simp [hs])
  exact (h.addBack hst hdet hnot (by simp [hs]) (hlinked.trans hdet.unlinked) hfits
    (by simp [hready]) prio).mono fun u hu => ⟨hu.1, hu.2.1, hst.trans hu.2.2, hu.2.2.waiting⟩

/-- `schedule` ends an operation well. -/
theorem Steady.schedule (h : s.Steady) (created : Contexts F)
    (prefer : Option (Option F)) (now : ℕ) (henabled : s.disableContextSwitch = 0) :
    (schedule created prefer now s).Sat Fault.Open fun x => x.1.Orderly := by
  have hsat := schedule_sat schedulable_fits created prefer now h.consistent h.one henabled
  refine ((hsat.mono_bad fun _ => Risks.open).and
    (rescheduled_schedule created prefer now s)).mono ?_
  rintro ⟨t, r⟩ ⟨⟨hcons, hturn⟩, hres⟩
  dsimp only at hcons hturn hres ⊢
  refine ⟨⟨⟨hturn.toOneRunning, ?_, fun f => ?_, ?_⟩, hcons⟩, hturn⟩
  · rw [hres]
    exact ⟨h.alarms.owner, h.alarms.frame, h.alarms.kind⟩
  · rw [← Consistent.mem_suspended_iff hcons, hres]
    exact (h.held f).trans (h.consistent.mem_suspended_iff f).symm
  · rw [hres]
    exact h.fault

/-- The current fiber goes on, or hands over. -/
theorem Orderly.yield (h : s.Orderly) (created : Contexts F)
    (prefer : Option (Option F)) (now : ℕ) :
    (Worker.schedule created prefer now s).Sat Fault.Open fun x => x.1.Orderly := by
  by_cases henabled : s.disableContextSwitch = 0
  · exact h.toSteady.schedule created prefer now henabled
  · rw [Worker.schedule, if_pos henabled]
    exact h

/-- A fiber moves from the runnable queue to the suspended one. -/
theorem Steady.suspendRunnable (h : s.Steady) {f : F}
    (hstate : (s.fiber (some f)).state = .new ∨ (s.fiber (some f)).state = .ready ∨
      (s.fiber (some f)).state = .running) :
    ((release f s).bind fun s =>
      add f false { s.setFiber (some f) (s.fiber (some f)).suspend with
        held := Function.update s.held f true }).Sat Fault.Open fun t =>
      t.Steady ∧ NoStart s t ∧ ((s.fiber (some f)).state ≠ .running → SameTurn s t) := by
  have hmem : f ∈ s.runnableQueue := by
    rw [h.consistent.mem_runnable_iff]
    rcases hstate with h | h | h <;> simp [h]
  obtain ⟨t, ht, hdet, htouch, hheld, hfiber⟩ := h.consistent.release_runnable
    (by rcases hstate with h | h | h <;> simp [h]) hmem
  have hused := (h.consistent.of_mem_runnable hmem).2.2.1
  have hsuspend : (t.fiber (some f)).suspend.Fits (.suspended : Place Q W) ∧
      (t.fiber (some f)).suspend.linked = false := by
    rw [hfiber]
    rcases hstate with h | h | h <;> simp [Fiber.suspend, Fiber.Fits, h, hused]
  have hself := setFiber_fiber_self t (some f) (t.fiber (some f)).suspend
  have hfits : ((t.setFiber (some f) (t.fiber (some f)).suspend).fiber (some f)).Fits
      (.suspended : Place Q W) := by
    rw [hself]
    exact hsuspend.1
  obtain ⟨u, hu, hucons, hutouch, huheld, hufiber⟩ :=
    ((hdet.setFiber hsuspend.2).setHeld true).add_suspended false hfits.2.1 hfits
  have hustate : (u.fiber (some f)).state = .suspended :=
    (congrArg Fiber.state hufiber).trans hfits.2.1
  have hall := ((htouch.trans (Touched.setFiber t f _)).trans
    (Touched.setHeld _ f true)).trans hutouch
  refine Except.Sat.bind_of_ok ht (Except.Sat.of_ok hu
    ⟨h.of_touched hall hucons ?_ ?_, hall.noStart ?_, fun hnr => hall.sameTurn ?_⟩)
  · simp [hustate]
  · rw [huheld, hustate]
    exact iff_of_true (Function.update_self _ _ _) rfl
  · simp [hustate]
  · simp [hustate, hnr]

/-- A fiber that does not wait is suspended. -/
theorem Steady.suspendOther (h : s.Steady) {f : F}
    (hf : (s.fiber (some f)).state ≠ .waiting) :
    (suspendOther f s).Sat Fault.Open fun t => t.Steady ∧ NoStart s t ∧
      ((s.fiber (some f)).state ≠ .running → SameTurn s t) := by
  have hsame : s.Steady ∧ NoStart s s ∧ ((s.fiber (some f)).state ≠ .running → SameTurn s s) :=
    ⟨h, (SameTurn.of_eq rfl rfl rfl).toNoStart, fun _ => SameTurn.of_eq rfl rfl rfl⟩
  rw [Worker.suspendOther]
  split
  · rename_i hstate
    exact h.suspendRunnable (Or.inl hstate)
  · rename_i hstate
    exact h.suspendRunnable (Or.inr (Or.inl hstate))
  · rename_i hstate
    exact h.suspendRunnable (Or.inr (Or.inr hstate))
  · rename_i hstate
    exact absurd hstate hf
  all_goals exact hsame

theorem Orderly.suspend (h : s.Orderly) (created : Contexts F) {f : F}
    (hf : (s.fiber (some f)).state ≠ .waiting) (now : ℕ) :
    (suspend created f now s).Sat Fault.Open fun x => x.1.Orderly := by
  rw [Worker.suspend]
  split
  · refine (h.toSteady.suspendOther hf).bind fun t ht => ?_
    split
    · rename_i hcur
      exact ht.1.schedule created none now hcur.2
    · exact Or.inr rfl
  · rename_i hnr
    exact (h.toSteady.suspendOther hf).map fun t ht => h.of_sameTurn ⟨ht.1, ht.2.2 hnr⟩

section Synchronizer

variable [DecidableEq Q]

/-- A fiber is taken out of a queue and woken. -/
theorem Steady.wakeQueued (h : s.Steady) {q : Q} {f : F} (hf : f ∈ s.queue q)
    (prio : Bool) :
    (Worker.wakeFiber f prio
      (Worker.setLinked f false (s.setQueue q ((s.queue q).erase f)))).Sat Fault.Open fun t =>
        t.Steady ∧ SameTurn s t ∧ Touched f s t := by
  obtain ⟨-, -, hused, hstate, hnext⟩ := h.consistent.of_mem_queue hf
  have hst : Touched f s (Worker.setLinked f false (s.setQueue q ((s.queue q).erase f))) :=
    Touched.setLinked s f _ _ _ _
  refine (h.wakeFiber hst (h.consistent.detach_queue hf) rfl hstate ?_ prio).mono fun t ht =>
    ⟨ht.1, ht.2.1, ht.2.2.1⟩
  rw [setLinked_fiber_self]
  exact ⟨hused, hstate, hnext⟩

theorem Steady.unblock (h : s.Steady) (q : Q) (f : F) (prio : Bool) :
    (unblock q f prio s).Sat Fault.Open fun x =>
      x.1.Steady ∧ SameTurn s x.1 ∧ Touched f s x.1 := by
  rw [Worker.unblock]
  split
  · rename_i hf
    exact (h.wakeQueued hf prio).map fun t ht => ht
  · exact ⟨h, SameTurn.of_eq rfl rfl rfl, Touched.refl f s⟩

theorem Steady.unblockFirst (h : s.Steady) (q : Q) (prio : Bool) :
    (unblockFirst q prio s).Sat Fault.Open fun t => t.Steady ∧ SameTurn s t := by
  rw [Worker.unblockFirst]
  split
  · exact ⟨h, SameTurn.of_eq rfl rfl rfl⟩
  · rename_i f fs hq
    have hf : f ∈ s.queue q := by simp [hq]
    have hwake := h.wakeQueued hf prio
    rw [hq, List.erase_cons_head] at hwake
    exact hwake.mono fun t ht => ⟨ht.1, ht.2.1⟩

theorem Steady.unblockAll (h : s.Steady) (q : Q) (prio : Bool) (n : ℕ) :
    (unblockAll q prio n s).Sat Fault.Open fun t => t.Steady ∧ SameTurn s t := by
  induction n generalizing s with
  | zero => exact ⟨h, SameTurn.of_eq rfl rfl rfl⟩
  | succ n ih =>
      refine (h.unblockFirst q prio).bind fun t ht => ?_
      exact (ih ht.1).mono fun u hu => ⟨hu.1, ht.2.trans hu.2⟩

omit [DecidableEq F] [DecidableEq Q] in
theorem nap_linked (x : Fiber) (linked : Bool) :
    ({ x with linked := linked } : Fiber).nap = { x.nap with linked := linked } := by
  cases hx : x.state <;> simp [Fiber.nap, hx]

/-- A fiber that naps is put in a queue. -/
theorem DetachedBy.enqueue {t : Worker F Q W} {f : F} (h : t.DetachedBy fits f) (q : Q)
    (hfits : fits { (t.fiber (some f)).nap with linked := true } (.queued q)) :
    ∃ u, ((enqueue q f t).map fun u => u.setFiber (some f) (u.fiber (some f)).nap) = .ok u ∧
      u.ConsistentBy fits ∧ Touched f t u ∧ u.held = t.held ∧
      u.fiber (some f) = { (t.fiber (some f)).nap with linked := true } := by
  have hnap : ((Worker.setLinked f true (t.setQueue q (t.queue q ++ [f]))).fiber (some f)).nap =
      { (t.fiber (some f)).nap with linked := true } := by
    rw [setLinked_fiber_self]
    exact nap_linked _ _
  have hcons := h.attach_queue (q := q) rfl hfits
  rw [← setFiber_setFiber _ _ { t.fiber (some f) with linked := true }] at hcons
  rw [Worker.enqueue, if_neg (by simp [h.unlinked])]
  simp only [Except.map, hnap]
  refine ⟨_, rfl, hcons, ?_, rfl, ?_⟩
  · exact (Touched.setLinked t f _ _ _ _).trans (Touched.setFiber _ f _)
  · rw [setFiber_fiber_self]

/-- The running fiber enters the queue of a synchronizer. -/
theorem Steady.enterQueue (h : s.Steady) (q : Q) {f : F}
    (hf : (s.fiber (some f)).state = .running) :
    (enterQueue q f s).Sat Fault.Open fun t => t.Steady ∧ NoStart s t ∧ Touched f s t := by
  have hmem := (h.consistent.mem_runnable_iff f).2 (by simp [hf])
  obtain ⟨t, ht, hdet, htouch, hheld, hfiber⟩ :=
    h.consistent.release_runnable (by simp [hf]) hmem
  have hused := (h.consistent.of_mem_runnable hmem).2.2.1
  have hnap : (t.fiber (some f)).nap.used = true ∧ (t.fiber (some f)).nap.state = .waiting ∧
      (t.fiber (some f)).nap.stateNext = .ready := by
    simp [hfiber, Fiber.nap, hf, hused]
  obtain ⟨u, hu, hucons, hutouch, huheld, hufiber⟩ := hdet.enqueue q hnap
  have hustate : (u.fiber (some f)).state = .waiting := by
    rw [hufiber]
    exact hnap.2.1
  have hall := htouch.trans hutouch
  refine Except.Sat.bind_of_ok ht (Except.Sat.of_ok hu
    ⟨h.of_touched hall hucons ?_ ?_, hall.noStart ?_, hall⟩)
  · simp [hustate]
  · rw [hustate, huheld, hheld, h.toSound.not_held (by simp [hf])]
    simp
  · simp [hustate]

theorem Steady.block (h : s.Steady) (created : Contexts F) (q : Q) {f : F}
    (hf : (s.fiber (some f)).state = .running) (henabled : s.disableContextSwitch = 0)
    (now : ℕ) : (block created q f now s).Sat Fault.Open fun x => x.1.Orderly := by
  refine (h.enterQueue q hf).bind fun t ht => ?_
  exact ht.1.schedule created none now (ht.2.1.switching.trans henabled)

end Synchronizer

end Operations

end Worker

end Zth
