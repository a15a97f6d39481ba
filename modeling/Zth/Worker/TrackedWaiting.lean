import Zth.Worker.Tracked

/-!
# The waiter in every run

The operations of the waiter keep track of the fibers in every run, as those of the
worker do.
-/

namespace Zth

namespace Worker

variable {F Q W : Type*} [LinearOrder W] {s : Worker F Q W}

/-- A waitable that is not in the list may change. -/
theorem Tracked.setWaitable (h : s.Tracked) {w : W} {v : Waitable F Q} (hw : w ∉ s.waiting)
    (howner : ∀ f, s.owner w = some f → v.fiber = none) : (s.setWaitable w v).Tracked := by
  refine ⟨⟨⟨h.one.1, h.one.2⟩, h.alarms.setWaitable hw howner, fun u q f hu hk => ?_, h.started⟩,
    h.consistent.setWaitable fun hw' => absurd hw' hw⟩
  have huw : u ≠ w := by
    rintro rfl
    exact hw hu
  exact h.rings u q f hu ((congrArg _ (Function.update_of_ne huw _ _)).symm.trans hk)

/-- A waitable without a fiber leaves the list. -/
theorem Tracked.eraseWaiting (h : s.Tracked) {w : W} (hw : (s.waitable w).fiber = none) :
    (s.eraseWaiting w).Tracked := by
  refine ⟨⟨⟨h.one.1, h.one.2⟩, ⟨h.alarms.1, h.alarms.2, fun v q f hv => ?_⟩,
    fun v q f hv => ?_, h.started⟩, h.consistent.eraseWaiting hw⟩
  · exact h.alarms.kind v q f (List.mem_of_mem_erase hv)
  · exact h.rings v q f (List.mem_of_mem_erase hv)

/-- A waitable joins the waiting list. An alarm is that of the frame. -/
theorem Loose.insertWaiting (h : s.Loose) {w : W}
    (hkind : ∀ q f, (s.waitable w).kind = .alarm q f →
      (s.waitable w).fiber = none ∧ s.frame f = .alarm w) :
    Loose { s with waiting := s.waiting.orderedInsert s.WaitsBefore w } := by
  refine ⟨⟨h.one.1, h.one.2⟩, ⟨h.alarms.1, h.alarms.2, fun v q f hv hk => ?_⟩,
    fun v q f hv hk => ?_, h.started⟩
  · obtain rfl | hv := (List.mem_orderedInsert _).1 hv
    · exact (hkind q f hk).1
    · exact h.alarms.kind v q f hv hk
  · obtain rfl | hv := (List.mem_orderedInsert _).1 hv
    · exact (hkind q f hk).2
    · exact h.rings v q f hv hk

/-- A waitable without a fiber joins the list. -/
theorem Tracked.insertWaiting (h : s.Tracked) {w : W} (hnone : (s.waitable w).fiber = none)
    (hkind : ∀ q f, (s.waitable w).kind = .alarm q f → s.frame f = .alarm w) :
    (insertWaiting w s).Sat Fault.Plain fun t =>
      t.Tracked ∧ Stays s t ∧ t.fiber = s.fiber := by
  rw [Worker.insertWaiting]
  split
  · exact Fault.plain_list
  · rename_i hw
    exact ⟨⟨h.toLoose.insertWaiting fun q f hk => ⟨hnone, hkind q f hk⟩,
      h.consistent.insertWaiting hw hnone⟩, .of_eq rfl rfl rfl fun _ _ hf => hf, rfl⟩

variable [DecidableEq F]

theorem Tracked.scheduleTask (h : s.Tracked) (waiter : F) {w : W}
    (hnone : (s.waitable w).fiber = none)
    (hkind : ∀ q f, (s.waitable w).kind = .alarm q f → s.frame f = .alarm w) :
    (scheduleTask waiter w s).Sat Fault.Plain fun t => t.Tracked ∧ Stays s t ∧
      ∀ r, (s.fiber r).state ≠ .suspended → t.fiber r = s.fiber r := by
  refine (h.insertWaiting hnone hkind).bind fun t ht => ?_
  refine (ht.1.resume waiter).mono fun u hu => ⟨hu.1, ht.2.1.trans hu.2.1, fun r hr => ?_⟩
  rw [hu.2.2 r (by rwa [ht.2.2]), ht.2.2]

omit [LinearOrder W] [DecidableEq F] in
/-- A fiber that runs is in the runnable queue. -/
theorem Tracked.mem_runnable (h : s.Tracked) {f : F}
    (hf : (s.fiber (some f)).state = .running) :
    s.At f .runnable ∧ (s.fiber (some f)).used = true := by
  obtain ⟨p, hat, -, hsuits⟩ := h.consistent.placed f
  cases p with
  | runnable => exact ⟨hat, hsuits.1⟩
  | nowhere | suspended | queued | timed =>
      simp [Fiber.Suits, Fiber.Awaits, hf] at hsuits

/-- The running fiber leaves the worker's queues for a waitable. -/
theorem Tracked.enterWaiting (h : s.Tracked) (waiter : F) {w : W} {f : F}
    (hf : (s.fiber (some f)).state = .running) (hw : w ∉ s.waiting)
    (howner : s.owner w = none) (hkind : ∀ q g, (s.waitable w).kind ≠ .alarm q g) :
    (enterWaiting waiter w f s).Sat Fault.Plain fun t =>
      t.Tracked ∧ t.disableContextSwitch = s.disableContextSwitch ∧
        t.currentFiber = s.currentFiber ∧ (t.fiber (some f)).state = .waiting := by
  have hset := h.setWaitable (v := { s.waitable w with fiber := some f }) hw (by simp [howner])
  obtain ⟨hat, hused⟩ := hset.mem_runnable hf
  obtain ⟨t, ht, hdet, htouch, -, hwaiting, hfiber⟩ :=
    hset.consistent.release_nap (hat.runnable.2 rfl) hused hf
  have hwt : w ∉ t.waiting := by
    rw [hwaiting]
    exact hw
  have hwaitable : t.waitable w = { s.waitable w with fiber := some f } := by
    rw [htouch.rest]
    exact Function.update_self _ _ _
  have hloose : t.Loose := by
    refine hset.toLoose.of_touched htouch ?_ ?_
    · simp [hfiber]
    · simp [hfiber, Fiber.Started]
  rw [Worker.enterWaiting]
  refine Except.Sat.bind_of_ok ht ?_
  rw [Worker.scheduleTask, Worker.insertWaiting, if_neg hwt]
  have hins : { t with waiting := t.waiting.orderedInsert t.WaitsBefore w }.Tracked := by
    refine ⟨hloose.insertWaiting fun q g hk => ?_, ?_⟩
    · rw [hwaitable] at hk
      exact absurd hk (hkind q g)
    · refine hdet.attach_waiting hwt (by rw [hwaitable]) ?_ (List.perm_orderedInsert _ w _)
      rw [hfiber]
      exact ⟨⟨rfl, .inr (.inl ⟨rfl, .inl rfl⟩)⟩, by simp⟩
  refine (hins.resume waiter).mono fun u hu =>
    ⟨hu.1, hu.2.1.switching.trans ?_, hu.2.1.current.trans ?_, ?_⟩
  · rw [htouch.rest]
    rfl
  · rw [htouch.rest]
    rfl
  · rw [hu.2.2 (some f) (by simp [hfiber]), hfiber]

omit [LinearOrder W] in
/-- The fiber goes on elsewhere in its code. No alarm of it is set. -/
theorem Tracked.setFrame (h : s.Tracked) (f : F) {frame : Frame W}
    (hframe : ∀ w, frame ≠ .alarm w) (hold : ∀ w, s.frame f ≠ .alarm w) :
    (s.setFrame f frame).Tracked ∧ Stays s (s.setFrame f frame) := by
  have hother : ∀ g w, s.frame g = .alarm w → (s.setFrame f frame).frame g = .alarm w := by
    intro g w hg
    refine (Function.update_of_ne ?_ _ _).trans hg
    rintro rfl
    exact hold w hg
  refine ⟨⟨⟨⟨h.one.1, h.one.2⟩, h.alarms.setFrame f hframe, fun w q g hw hk => ?_, h.started⟩,
    h.consistent.congr rfl rfl rfl rfl rfl rfl⟩, .of_eq rfl rfl rfl fun g w hg => ?_⟩
  · exact hother g w (h.rings w q g hw hk)
  · have hgf : g ≠ f := by
      rintro rfl
      simp only [Worker.setFrame, Function.update_self] at hg
      exact hframe w hg
    exact (Function.update_of_ne hgf _ _).symm.trans hg

/-- The alarm of a block with timeout is set. -/
theorem Tracked.setAlarm (h : s.Tracked) {w : W} (hw : w ∉ s.waiting)
    (howner : s.owner w = none) (timeout : ℕ) (q : Q) {f : F}
    (hold : ∀ v, s.frame f ≠ .alarm v) :
    Tracked { (s.setWaitable w ⟨timeout, none, .alarm q f, false⟩).setFrame f (.alarm w) with
      owner := Function.update s.owner w (some f) } := by
  have hset := h.setWaitable (v := ⟨timeout, none, .alarm q f, false⟩) hw fun _ _ => rfl
  refine ⟨⟨⟨h.one.1, h.one.2⟩, h.alarms.setAlarm hw howner timeout q f,
    fun v q' g hv hk => ?_, h.started⟩, hset.consistent.congr rfl rfl rfl rfl rfl rfl⟩
  have hg := hset.rings v q' g hv hk
  refine (Function.update_of_ne ?_ _ _).trans hg
  rintro rfl
  exact hold v hg

/-- A block with timeout is over. -/
theorem Tracked.leaveAlarm (h : s.Tracked) {w : W} {f : F} (hf : s.frame f = .alarm w) :
    (leaveAlarm w f s).Tracked ∧ Stays s (leaveAlarm w f s) := by
  have hnone := h.alarms.owner w f (h.alarms.frame f w hf)
  have halarms := h.alarms.leaveAlarm hf
  rw [Worker.leaveAlarm, unscheduleTask_eq] at halarms ⊢
  refine ⟨⟨⟨⟨h.one.1, h.one.2⟩, halarms, fun v q g hv hk => ?_, h.started⟩,
    (h.consistent.eraseWaiting hnone).congr rfl rfl rfl rfl rfl rfl⟩,
    .of_eq rfl rfl rfl fun g v hg => ?_⟩
  · have hg := h.rings v q g (List.mem_of_mem_erase hv) hk
    refine (Function.update_of_ne ?_ _ _).trans hg
    rintro rfl
    obtain rfl : w = v := by simpa using hf.symm.trans hg
    exact h.consistent.nodups.waiting.not_mem_erase hv
  · have hgf : g ≠ f := by
      rintro rfl
      simp [Worker.setFrame] at hg
    exact (Function.update_of_ne hgf _ _).symm.trans hg

/-- The fiber of a waitable is woken, which leaves the waiting list. -/
theorem Tracked.wakeTimed (h : s.Tracked) {w : W} {f : F} (hw : w ∈ s.waiting)
    (hf : (s.waitable w).fiber = some f) (prio : Bool) :
    (Worker.wakeFiber f prio (s.eraseWaiting w)).Sat Fault.Plain fun t =>
      t.Tracked ∧ Stays s t ∧ w ∉ t.waiting := by
  obtain ⟨-, hlinked, hsuits⟩ := h.consistent.of_mem_waiting hw hf
  have hst : Touched f s (s.eraseWaiting w) :=
    ⟨fun _ _ => rfl, fun _ _ => rfl, List.erase_sublist, rfl⟩
  have hfiber : (s.eraseWaiting w).fiber (some f) = { s.fiber (some f) with linked := false } := by
    rw [← hlinked]
    rfl
  refine (h.wakeFiber hst (h.consistent.detach_waiting hw hf) hsuits.1 hfiber prio).mono
    fun t ht => ⟨ht.1, ht.2.1, fun hwt => ?_⟩
  exact h.consistent.nodups.waiting.not_mem_erase (ht.2.2.waiting.subset hwt)

/-- `Waiter::wakeup` of a waitable. -/
theorem Tracked.wakeup (h : s.Tracked) (w : W) :
    (wakeup w s).Sat Fault.Plain fun t => t.Tracked ∧ Stays s t := by
  rw [Worker.wakeup]
  split
  · rename_i hw
    dsimp only
    cases hf : (s.waitable w).fiber with
    | none =>
        have hf' : ((s.eraseWaiting w).waitable w).fiber = none := hf
        rw [hf']
        exact ⟨h.eraseWaiting hf, .of_eq rfl rfl rfl fun _ _ hg => hg⟩
    | some f =>
        have hf' : ((s.eraseWaiting w).waitable w).fiber = some f := hf
        rw [hf']
        refine (h.wakeTimed hw hf true).map fun t ht => ?_
        have hstay : Stays t (t.setWaitable w { t.waitable w with fiber := none }) :=
          .of_eq rfl rfl rfl fun _ _ hg => hg
        exact ⟨ht.1.setWaitable ht.2.2 fun _ _ => rfl, ht.2.1.trans hstay⟩
  · exact ⟨h, .refl s⟩

omit [DecidableEq F] in
/-- A waitable is put back, with another timeout perhaps. -/
theorem Tracked.reinsert (h : s.Tracked) {w : W} (hw : w ∈ s.waiting) {v : Waitable F Q}
    (hfiber : v.fiber = (s.waitable w).fiber) (hkind : v.kind = (s.waitable w).kind) :
    (Worker.insertWaiting w ((s.eraseWaiting w).setWaitable w v)).Sat Fault.Plain fun t =>
      t.Tracked ∧ Stays s t := by
  have hnot : w ∉ ((s.eraseWaiting w).setWaitable w v).waiting :=
    h.consistent.nodups.waiting.not_mem_erase
  have hself : ((s.eraseWaiting w).setWaitable w v).waitable w = v := Function.update_self _ _ _
  have halarms : (s.eraseWaiting w).Alarms :=
    ⟨h.alarms.1, h.alarms.2, fun u q f hu => h.alarms.kind u q f (List.mem_of_mem_erase hu)⟩
  have hloose : ((s.eraseWaiting w).setWaitable w v).Loose := by
    refine ⟨⟨h.one.1, h.one.2⟩, halarms.setWaitable hnot fun f hf => ?_,
      fun u q f hu hk => ?_, h.started⟩
    · rw [hfiber]
      exact h.alarms.owner w f hf
    · have huw : u ≠ w := by
        rintro rfl
        exact hnot hu
      exact h.rings u q f (List.mem_of_mem_erase hu)
        ((congrArg _ (Function.update_of_ne huw _ _)).symm.trans hk)
  rw [Worker.insertWaiting, if_neg hnot]
  refine ⟨⟨hloose.insertWaiting fun q f hk => ?_, h.consistent.reinsert hw hfiber⟩,
    .of_eq rfl rfl rfl fun _ _ hg => hg⟩
  rw [hself] at hk ⊢
  rw [hkind] at hk
  exact ⟨hfiber.trans (h.alarms.kind w q f hw hk), h.rings w q f hw hk⟩

section Synchronizer

variable [DecidableEq Q]

/-- A block with timeout, up to and including its `schedule`. -/
theorem Tracked.blockUntil (h : s.Tracked) (created : Contexts F) (waiter : F) (q : Q)
    {w : W} (timeout : ℕ) {f : F} (hf : s.currentFiber = some f)
    (hold : ∀ v, s.frame f ≠ .alarm v) (hw : w ∉ s.waiting) (howner : s.owner w = none)
    (now : ℕ) :
    (blockUntil created waiter q w timeout f now s).Sat s.Spared fun x => Goes true s x.1 := by
  refine (Spared.of_plain (h.enterQueue q hf)).bind fun t ht => ?_
  obtain ⟨ht, htouch, hstate⟩ := ht
  have hwt : w ∉ t.waiting := fun hwt => hw (htouch.waiting.subset hwt)
  have howner : t.owner w = none := by
    rw [htouch.rest]
    exact howner
  have hold : ∀ v, t.frame f ≠ .alarm v := by
    rw [htouch.rest]
    exact hold
  have hset := ht.setAlarm hwt howner timeout q hold
  refine (Spared.of_plain (hset.scheduleTask waiter ?_ fun q' g hk => ?_)).bind fun u hu => ?_
  · simp [Worker.setFrame, Worker.setWaitable]
  · obtain ⟨-, rfl⟩ : q = q' ∧ f = g := by
      simpa [Worker.setFrame, Worker.setWaitable] using hk
    exact Function.update_self _ _ _
  · refine hu.1.goes_wait (hu.2.1.switching.trans (by rw [htouch.rest]; rfl)) (fun hs => ?_)
      created none now
    have hcur : u.currentFiber = some f := by
      rw [hu.2.1.current, ← hf, htouch.rest]
      rfl
    have hnap := hs.nap hf
    rw [← hstate] at hnap
    have hfiber : u.fiber (some f) = t.fiber (some f) := by
      refine hu.2.2 (some f) ?_
      obtain hnap | hnap := hnap <;> simp [Worker.setFrame, Worker.setWaitable, hnap]
    rw [Busy, hcur, hfiber]
    obtain hnap | hnap := hnap <;> simp [hnap]

/-- A waitable of the calling fiber is polled before it is used. -/
theorem Tracked.poll_unused (h : s.Tracked) {w : W} (hw : w ∉ s.waiting)
    (howner : s.owner w = none) (hkind : ∀ q g, (s.waitable w).kind ≠ .alarm q g)
    (fired : Bool) (now : ℕ) :
    (poll w fired now s).Sat Fault.Plain fun x =>
      x.2 = (s.waitable w).passes fired now ∧ x.1.Tracked ∧ Stays s x.1 ∧
      w ∉ x.1.waiting ∧ x.1.owner w = none ∧ ∀ q g, (x.1.waitable w).kind ≠ .alarm q g := by
  rw [poll, Waitable.passes]
  cases hk : (s.waitable w).kind with
  | timed => exact ⟨rfl, h, .refl s, hw, howner, hkind⟩
  | polled interval =>
      cases fired with
      | true => exact ⟨rfl, h, .refl s, hw, howner, hkind⟩
      | false =>
          refine ⟨rfl, h.setWaitable hw (by simp [howner]),
            .of_eq rfl rfl rfl fun _ _ hg => hg, hw, howner, ?_⟩
          intro q g
          simp [Worker.setWaitable]
  | alarm q g => exact absurd hk (hkind q g)

/-- `Waiter::wait`. -/
theorem Tracked.wait (h : s.Tracked) (created : Contexts F) (waiter : F) {w : W} {f : F}
    (hw : w ∉ s.waiting) (howner : s.owner w = none)
    (hkind : ∀ q g, (s.waitable w).kind ≠ .alarm q g) (fired slice : Bool) (now now' : ℕ) :
    (wait created waiter w fired slice f now now' s).Sat s.Spared fun x =>
      Goes (decide ((s.fiber (some f)).state = .running) && !(s.waitable w).passes fired now)
        s x.1 := by
  rw [Worker.wait]
  split
  · rename_i hf
    rw [decide_eq_false hf]
    exact ⟨h, .inl ⟨rfl, (Stays.refl s).toRemains⟩⟩
  rename_i hf
  rw [decide_eq_true (not_not.1 hf)]
  refine (Spared.of_plain (h.poll_unused hw howner hkind fired now)).bind ?_
  rintro ⟨t, done⟩ ⟨hdone, ht, hst, hwt, howner, hkind⟩
  dsimp only at hdone ht hst hwt howner hkind ⊢
  rw [← hdone]
  cases done with
  | true =>
      dsimp only
      split
      · exact ht.goes_schedule hst created none now
      · exact ⟨ht, .inl ⟨rfl, hst.toRemains⟩⟩
  | false =>
      refine (Spared.of_plain (ht.enterWaiting waiter (hst.runs f (not_not.1 hf)) hwt howner
        hkind)).bind fun u hu => ?_
      obtain ⟨hu, huswitch, hucur, hustate⟩ := hu
      refine hu.goes_wait (huswitch.trans hst.switching) (fun _ => ?_) created none now'
      have hcur : s.currentFiber = some f := h.one.current f (not_not.1 hf)
      simp [Busy, hucur, hst.current, hcur, hustate]

omit [DecidableEq Q] in
/-- A waitable that has expired is over: it wakes its fiber, if it has one. -/
theorem Tracked.expired (h : s.Tracked) {w : W} (hw : w ∈ s.waiting)
    {x : Except Fault (Worker F Q W)}
    (hnone : (s.waitable w).fiber = none → x = .ok (s.eraseWaiting w))
    (hsome : ∀ f, (s.waitable w).fiber = some f →
      x = Worker.wakeFiber f true (s.eraseWaiting w)) :
    x.Sat Fault.Plain fun t => t.Tracked ∧ Stays s t := by
  cases hf : (s.waitable w).fiber with
  | none =>
      rw [hnone hf]
      exact ⟨h.eraseWaiting hf, .of_eq rfl rfl rfl fun _ _ hg => hg⟩
  | some f =>
      rw [hsome f hf]
      exact (h.wakeTimed hw hf true).mono fun t ht => ⟨ht.1, ht.2.1⟩

/-- One round of the inner loop of the waiter. -/
theorem Tracked.expire (h : s.Tracked) {w : W} (hw : w ∈ s.waiting) (fired : Bool) (now : ℕ) :
    (expire w fired now s).Sat Fault.Plain fun t => t.Tracked ∧ Stays s t := by
  have hfiber : ((s.eraseWaiting w).waitable w).fiber = (s.waitable w).fiber := rfl
  have hback : (Worker.insertWaiting w (s.eraseWaiting w)).Sat Fault.Plain fun t =>
      t.Tracked ∧ Stays s t := by
    have := h.reinsert hw (v := s.waitable w) rfl rfl
    rwa [Worker.setWaitable, show (s.eraseWaiting w).waitable = s.waitable from rfl,
      Function.update_eq_self] at this
  have hkind : ((s.eraseWaiting w).waitable w).kind = (s.waitable w).kind := rfl
  rw [Worker.expire, poll]
  dsimp only
  rw [hkind]
  cases hk : (s.waitable w).kind with
  | timed =>
      generalize decide (((s.eraseWaiting w).waitable w).timeout ≤ now) = done
      cases done with
      | true =>
          refine h.expired hw (fun hf => ?_) fun f hf => ?_ <;>
            simp only [Except.bind, hfiber, hf]
      | false => exact hback
  | polled interval =>
      dsimp only
      split
      · refine h.expired hw (fun hf => ?_) fun f hf => ?_ <;>
          simp only [Except.bind, hfiber, hf]
      · exact h.reinsert hw rfl hk.symm
  | alarm q f =>
      have hnone := h.alarms.kind w q f hw hk
      have hnot : w ∉ (s.eraseWaiting w).waiting := h.consistent.nodups.waiting.not_mem_erase
      dsimp only
      split
      · -- The alarm took its fiber out of the queue, and has none itself.
        refine (((h.eraseWaiting hnone).unblock q f false).map
          (R := fun x => x.2 = true ∧ x.1.Tracked ∧ Stays s x.1 ∧
            (x.1.waitable w).fiber = none) ?_).bind ?_
        · rintro ⟨t, rang⟩ ⟨ht, hst, htouch⟩
          dsimp only at ht hst htouch ⊢
          have hwt : w ∉ t.waiting := fun hwt => hnot (htouch.waiting.subset hwt)
          have hfiber : (t.waitable w).fiber = none := by
            rw [htouch.rest]
            exact hnone
          have hstay : Stays s (s.eraseWaiting w) := .of_eq rfl rfl rfl fun _ _ hg => hg
          refine ⟨rfl, ht.setWaitable hwt fun _ _ => hfiber, (hstay.trans hst).trans ?_, ?_⟩
          · exact .of_eq rfl rfl rfl fun _ _ hg => hg
          · simpa [Worker.setWaitable] using hfiber
        · rintro ⟨t, done⟩ ⟨rfl, ht, hst, hfiber⟩
          dsimp only at ht hst hfiber ⊢
          rw [hfiber]
          exact ⟨ht, hst⟩
      · exact hback

end Synchronizer

end Worker

end Zth
