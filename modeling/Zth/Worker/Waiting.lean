import Zth.Worker.Consistency

/-!
# The waiter keeps a worker steady

The waiting list is ordered by timeout. A waitable in it holds at most one fiber,
and that fiber waits for it. The operations below put waitables in the list and take
them out, together with their fibers; an alarm has no fiber of its own, but takes one
out of a queue.
-/

namespace Zth

namespace Worker

variable {F Q W : Type*} [LinearOrder W] {s : Worker F Q W} {fits : Fiber → Place Q W → Prop}

omit [LinearOrder W] in
theorem Sound.setWaiting (h : s.Sound) {l : List W}
    (hkind : ∀ w q f, w ∈ l → (s.waitable w).kind = .alarm q f →
      (s.waitable w).fiber = none) : { s with waiting := l }.Sound :=
  ⟨⟨h.one.1, h.one.2⟩, ⟨h.alarms.1, h.alarms.2, hkind⟩, h.held, h.fault⟩

theorem Sound.eraseWaiting (h : s.Sound) (w : W) : (s.eraseWaiting w).Sound :=
  h.setWaiting fun v q f hv => h.alarms.kind v q f (List.mem_of_mem_erase hv)

/-- A waitable joins the waiting list. -/
theorem Sound.insertWaiting (h : s.Sound) {w : W}
    (hkind : ∀ q f, (s.waitable w).kind = .alarm q f → (s.waitable w).fiber = none) :
    { s with waiting := s.waiting.orderedInsert s.WaitsBefore w }.Sound := by
  refine h.setWaiting fun v q f hv => ?_
  rcases (List.mem_orderedInsert _).1 hv with rfl | hv
  · exact hkind q f
  · exact h.alarms.kind v q f hv

/-- A waitable that is not in the list may change. -/
theorem Alarms.setWaitable (h : s.Alarms) {w : W} {v : Waitable F Q} (hw : w ∉ s.waiting)
    (howner : ∀ f, s.owner w = some f → v.fiber = none) : (s.setWaitable w v).Alarms := by
  have hother : ∀ u, u ≠ w → (s.setWaitable w v).waitable u = s.waitable u :=
    fun u hu => Function.update_of_ne hu _ _
  have hself : (s.setWaitable w v).waitable w = v := Function.update_self _ _ _
  have hmem : ∀ u, u ∈ s.waiting → (s.setWaitable w v).waitable u = s.waitable u :=
    fun u hu => hother u fun huw => hw (huw ▸ hu)
  refine ⟨fun u f hu => ?_, h.frame, fun u q f hu => ?_⟩
  · by_cases huw : u = w
    · subst huw
      rw [hself]
      exact howner f hu
    · rw [hother u huw]
      exact h.owner u f hu
  · rw [hmem u hu]
    exact h.kind u q f hu

theorem Sound.setWaitable (h : s.Sound) {w : W} {v : Waitable F Q} (hw : w ∉ s.waiting)
    (howner : ∀ f, s.owner w = some f → v.fiber = none) : (s.setWaitable w v).Sound :=
  ⟨⟨h.one.1, h.one.2⟩, h.alarms.setWaitable hw howner, h.held, h.fault⟩

theorem Steady.setWaitable (h : s.Steady) {w : W} {v : Waitable F Q} (hw : w ∉ s.waiting)
    (howner : ∀ f, s.owner w = some f → v.fiber = none) : (s.setWaitable w v).Steady :=
  ⟨h.toSound.setWaitable hw howner, h.consistent.setWaitable fun hw' => absurd hw' hw⟩

/-- A waitable without a fiber leaves the list. -/
theorem ConsistentBy.eraseWaiting (h : s.ConsistentBy fits) {w : W}
    (hw : (s.waitable w).fiber = none) : (s.eraseWaiting w).ConsistentBy fits := by
  refine h.setWaiting (h.nodups.waiting.erase w) fun v f hv => ?_
  apply List.mem_erase_of_ne
  rintro rfl
  rw [hw] at hv
  cases hv

theorem Steady.eraseWaiting (h : s.Steady) {w : W} (hw : (s.waitable w).fiber = none) :
    (s.eraseWaiting w).Steady :=
  ⟨h.toSound.eraseWaiting w, h.consistent.eraseWaiting hw⟩

/-- A waitable without a fiber joins the list. -/
theorem ConsistentBy.insertWaiting (h : s.ConsistentBy fits) {w : W} (hw : w ∉ s.waiting)
    (hnone : (s.waitable w).fiber = none) :
    { s with waiting := s.waiting.orderedInsert s.WaitsBefore w }.ConsistentBy fits := by
  refine h.setWaiting ?_ fun v f hv => ?_
  · rw [(List.perm_orderedInsert _ w _).nodup_iff]
    exact List.nodup_cons.2 ⟨hw, h.nodups.waiting⟩
  · rw [List.mem_orderedInsert]
    refine or_iff_right ?_
    rintro rfl
    rw [hnone] at hv
    cases hv

theorem Steady.insertWaiting (h : s.Steady) {w : W} (hw : w ∉ s.waiting)
    (hnone : (s.waitable w).fiber = none) :
    (insertWaiting w s).Sat Fault.Open fun t => t.Steady ∧ SameTurn s t := by
  rw [Worker.insertWaiting, if_neg hw]
  exact ⟨⟨h.toSound.insertWaiting fun _ _ _ => hnone, h.consistent.insertWaiting hw hnone⟩,
    SameTurn.of_eq rfl rfl rfl⟩

/-- A waitable that left the list is put back, with another timeout perhaps. -/
theorem ConsistentBy.reinsert (h : s.ConsistentBy fits) {w : W} (hw : w ∈ s.waiting)
    {v : Waitable F Q} (hfiber : v.fiber = (s.waitable w).fiber) :
    { (s.eraseWaiting w).setWaitable w v with
      waiting := (s.waiting.erase w).orderedInsert
        ((s.eraseWaiting w).setWaitable w v).WaitsBefore w }.ConsistentBy fits := by
  have hperm := (List.perm_orderedInsert ((s.eraseWaiting w).setWaitable w v).WaitsBefore w
    (s.waiting.erase w)).trans (List.perm_cons_erase hw).symm
  have hcons := h.setWaitable (w := w) (v := v) fun _ => hfiber
  exact (hcons.setWaiting (hperm.nodup_iff.2 h.nodups.waiting) fun _ _ _ =>
    hperm.mem_iff).congr rfl rfl rfl rfl rfl rfl

variable [DecidableEq F]

theorem Steady.scheduleTask (h : s.Steady) (waiter : F) {w : W} (hw : w ∉ s.waiting)
    (hnone : (s.waitable w).fiber = none) :
    (scheduleTask waiter w s).Sat Fault.Open fun t => t.Steady ∧ SameTurn s t := by
  refine (h.insertWaiting hw hnone).bind fun t ht => ?_
  exact (ht.1.resume waiter).mono fun u hu => ⟨hu.1, ht.2.trans hu.2⟩

omit [LinearOrder W] in
/-- The running fiber starts to wait and leaves the runnable queue. -/
theorem ConsistentBy.release_nap (h : s.ConsistentBy fits) {f : F}
    (hmem : f ∈ s.runnableQueue) (hused : (s.fiber (some f)).used = true)
    (hf : (s.fiber (some f)).state = .running) :
    ∃ t, Worker.release f (s.setFiber (some f) (s.fiber (some f)).nap) = .ok t ∧
      t.DetachedBy fits f ∧ Touched f s t ∧ t.held = s.held ∧ t.waiting = s.waiting ∧
      t.fiber (some f) = ⟨.waiting, .ready, true, false⟩ := by
  have hnap : (s.fiber (some f)).nap = ⟨.waiting, .ready, true, (s.fiber (some f)).linked⟩ := by
    simp [Fiber.nap, hf, hused]
  have hdet := (h.detach_runnable hmem).setFiber (x := ⟨.waiting, .ready, true, false⟩) rfl
  have htouch := (Touched.setLinked s f false s.queue (s.runnableQueue.erase f)
    s.suspendedQueue).trans (Touched.setFiber _ f ⟨.waiting, .ready, true, false⟩)
  refine ⟨_, ?_, hdet, htouch, rfl, rfl, setFiber_fiber_self _ _ _⟩
  rw [Worker.release, setFiber_fiber_self, hnap, if_neg (by simp)]
  refine (if_pos hmem).trans ?_
  simp [Worker.setLinked, Worker.setFiber]

/-- The running fiber leaves the worker's queues for a waitable. -/
theorem Steady.enterWaiting (h : s.Steady) (waiter : F) {w : W} {f : F}
    (hf : (s.fiber (some f)).state = .running) (hw : w ∉ s.waiting)
    (howner : s.owner w = none) (hkind : ∀ q g, (s.waitable w).kind ≠ .alarm q g) :
    (enterWaiting waiter w f s).Sat Fault.Open fun t => t.Steady ∧ NoStart s t := by
  have hset := h.setWaitable (v := { s.waitable w with fiber := some f }) hw
    (by simp [howner])
  have hmem := (hset.consistent.mem_runnable_iff f).2 (.inr (.inr (.inl hf)))
  have hused := (hset.consistent.of_mem_runnable hmem).2.2.1
  obtain ⟨t, ht, hdet, htouch, hheld, hwaiting, hfiber⟩ :=
    hset.consistent.release_nap hmem hused hf
  have hwt : w ∉ t.waiting := by
    rw [hwaiting]
    exact hw
  have hwaitable : t.waitable w = { s.waitable w with fiber := some f } := by
    rw [htouch.rest]
    exact Function.update_self _ _ _
  have hsound : t.Sound := by
    refine hset.toSound.of_touched htouch ?_ ?_
    · simp [hfiber]
    · rw [hfiber, hheld]
      refine iff_of_false ?_ (by simp)
      change ¬ s.held f = true
      simp [h.toSound.not_held (f := f) (by simp [hf])]
  have hnoStart : NoStart s t := by
    have hst := htouch.noStart (by simp [hfiber])
    exact ⟨hst.current, hst.switching, hst.worker, hst.running⟩
  rw [Worker.enterWaiting]
  refine Except.Sat.bind_of_ok ht ?_
  rw [Worker.scheduleTask, Worker.insertWaiting, if_neg hwt]
  have hins : { t with waiting := t.waiting.orderedInsert t.WaitsBefore w }.Steady := by
    refine ⟨hsound.insertWaiting fun q g hk => ?_, ?_⟩
    · rw [hwaitable] at hk
      exact absurd hk (hkind q g)
    · refine hdet.attach_waiting hwt (by rw [hwaitable]) ?_ (List.perm_orderedInsert _ w _)
      rw [hfiber]
      exact ⟨rfl, rfl, rfl⟩
  refine (hins.resume waiter).mono fun u hu => ⟨hu.1, hnoStart.trans ?_⟩
  exact ⟨hu.2.current, hu.2.switching, hu.2.worker, hu.2.running⟩

omit [LinearOrder W] in
/-- A frame that does not belong to an alarm. -/
theorem Alarms.setFrame (h : s.Alarms) (f : F) {frame : Frame W}
    (hframe : ∀ w, frame ≠ .alarm w) : (s.setFrame f frame).Alarms := by
  refine ⟨h.owner, fun g w hg => ?_, h.kind⟩
  by_cases hgf : g = f
  · subst hgf
    simp only [Worker.setFrame, Function.update_self] at hg
    exact absurd hg (hframe w)
  · simp only [Worker.setFrame, Function.update_of_ne hgf] at hg
    exact h.frame g w hg

omit [LinearOrder W] in
theorem Steady.setFrame (h : s.Steady) (f : F) {frame : Frame W}
    (hframe : ∀ w, frame ≠ .alarm w) : (s.setFrame f frame).Steady :=
  ⟨⟨⟨h.one.1, h.one.2⟩, h.alarms.setFrame f hframe, h.held, h.fault⟩,
    h.consistent.congr rfl rfl rfl rfl rfl rfl⟩

section Synchronizer

variable [DecidableEq Q]

/-- A waitable of the calling fiber is polled before it is used. -/
theorem Steady.poll_unused (h : s.Steady) {w : W} (hw : w ∉ s.waiting)
    (howner : s.owner w = none) (hkind : ∀ q g, (s.waitable w).kind ≠ .alarm q g)
    (fired : Bool) (now : ℕ) :
    (poll w fired now s).Sat Fault.Open fun x => x.1.Steady ∧ SameTurn s x.1 ∧
      w ∉ x.1.waiting ∧ x.1.owner w = none ∧ ∀ q g, (x.1.waitable w).kind ≠ .alarm q g := by
  rw [poll]
  cases hk : (s.waitable w).kind with
  | timed => exact ⟨h, SameTurn.of_eq rfl rfl rfl, hw, howner, hkind⟩
  | polled interval =>
      dsimp only
      split
      · exact ⟨h, SameTurn.of_eq rfl rfl rfl, hw, howner, hkind⟩
      · refine ⟨h.setWaitable hw (by simp [howner]), SameTurn.of_eq rfl rfl rfl, hw, howner, ?_⟩
        intro q g
        simp [Worker.setWaitable]
  | alarm q g => exact absurd hk (hkind q g)

/-- `Waiter::wait`. -/
theorem Orderly.wait (h : s.Orderly) (created : Contexts F) (waiter : F)
    {w : W} {f : F} (hf : (s.fiber (some f)).state = .running) (hw : w ∉ s.waiting)
    (howner : s.owner w = none) (hkind : ∀ q g, (s.waitable w).kind ≠ .alarm q g)
    (henabled : s.disableContextSwitch = 0) (fired slice : Bool) (now now' : ℕ) :
    (wait created waiter w fired slice f now now' s).Sat Fault.Open fun x =>
      x.1.Orderly := by
  rw [Worker.wait, if_neg (not_not.2 hf)]
  refine (h.toSteady.poll_unused hw howner hkind fired now).bind ?_
  rintro ⟨t, done⟩ ⟨ht, hst, hwt, howner, hkind⟩
  cases done with
  | true =>
      dsimp only
      split
      · exact ht.schedule created none now (hst.switching.trans henabled)
      · exact h.of_sameTurn ⟨ht, hst⟩
  | false =>
      refine (ht.enterWaiting waiter (hst.runs f hf) hwt howner hkind).bind fun u hu => ?_
      have hswitching := (hst.toNoStart.trans hu.2).switching
      exact hu.1.schedule created none now' (hswitching.trans henabled)

omit [DecidableEq Q] in
/-- The alarm of a block with timeout is set. -/
theorem Alarms.setAlarm (h : s.Alarms) {w : W} (hw : w ∉ s.waiting) (howner : s.owner w = none)
    (timeout : ℕ) (q : Q) (f : F) :
    Alarms { (s.setWaitable w ⟨timeout, none, .alarm q f, false⟩).setFrame f (.alarm w) with
      owner := Function.update s.owner w (some f) } := by
  have hset := h.setWaitable (v := ⟨timeout, none, .alarm q f, false⟩) hw fun _ _ => rfl
  refine ⟨fun v g hv => ?_, fun g v hg => ?_, hset.kind⟩
  · by_cases hvw : v = w
    · subst hvw
      simp [Worker.setFrame, Worker.setWaitable]
    · simp only [Function.update_of_ne hvw] at hv
      exact hset.owner v g hv
  · by_cases hgf : g = f
    · subst hgf
      simp only [Worker.setFrame, Function.update_self, Frame.alarm.injEq] at hg
      subst hg
      exact Function.update_self _ _ _
    · simp only [Worker.setFrame, Function.update_of_ne hgf] at hg
      have hv := h.frame g v hg
      have hvw : v ≠ w := by
        rintro rfl
        rw [howner] at hv
        cases hv
      exact (Function.update_of_ne hvw _ _).trans hv

omit [DecidableEq Q] in
theorem Steady.setAlarm (h : s.Steady) {w : W} (hw : w ∉ s.waiting)
    (howner : s.owner w = none) (timeout : ℕ) (q : Q) (f : F) :
    Steady { (s.setWaitable w ⟨timeout, none, .alarm q f, false⟩).setFrame f (.alarm w) with
      owner := Function.update s.owner w (some f) } := by
  have hset := h.setWaitable (v := ⟨timeout, none, .alarm q f, false⟩) hw fun _ _ => rfl
  exact ⟨⟨⟨h.one.1, h.one.2⟩, h.alarms.setAlarm hw howner timeout q f, h.held, h.fault⟩,
    hset.consistent.congr rfl rfl rfl rfl rfl rfl⟩

/-- A block with timeout, up to and including its `schedule`. -/
theorem Steady.blockUntil (h : s.Steady) (created : Contexts F) (waiter : F) (q : Q)
    {w : W} (timeout : ℕ) {f : F} (hf : (s.fiber (some f)).state = .running)
    (hw : w ∉ s.waiting) (howner : s.owner w = none)
    (henabled : s.disableContextSwitch = 0) (now : ℕ) :
    (blockUntil created waiter q w timeout f now s).Sat Fault.Open fun x =>
      x.1.Orderly := by
  refine (h.enterQueue q hf).bind fun t ht => ?_
  obtain ⟨ht, hst, htouch⟩ := ht
  have hwt : w ∉ t.waiting := fun hwt => hw (htouch.waiting.subset hwt)
  have howner : t.owner w = none := by
    rw [htouch.rest]
    exact howner
  have hset := ht.setAlarm hwt howner timeout q f
  refine (hset.scheduleTask waiter hwt ?_).bind fun u hu => ?_
  · simp [Worker.setFrame, Worker.setWaitable]
  · have hswitching := hu.2.switching.trans hst.switching
    exact hu.1.schedule created none now (hswitching.trans henabled)

omit [DecidableEq F] [DecidableEq Q] in
/-- At most the waitable leaves the waiting list. -/
theorem unscheduleTask_eq (w : W) (s : Worker F Q W) :
    unscheduleTask w s = { s with waiting := s.waiting.erase w } := by
  rw [unscheduleTask]
  split
  · rfl
  · rename_i hw
    rw [List.erase_of_not_mem hw]

omit [DecidableEq Q] in
/-- A block with timeout is over. -/
theorem Alarms.leaveAlarm (h : s.Alarms) {w : W} {f : F} (hf : s.frame f = .alarm w) :
    (leaveAlarm w f s).Alarms := by
  have howner := h.frame f w hf
  rw [Worker.leaveAlarm, unscheduleTask_eq]
  refine ⟨fun v g hv => ?_, fun g v hg => ?_, fun v q g hv => ?_⟩
  · have hvw : v ≠ w := by
      rintro rfl
      simp at hv
    exact h.owner v g ((Function.update_of_ne hvw _ _).symm.trans hv)
  · have hgf : g ≠ f := by
      rintro rfl
      simp [Worker.setFrame] at hg
    have hv := h.frame g v ((Function.update_of_ne hgf _ _).symm.trans hg)
    refine (Function.update_of_ne ?_ _ _).trans hv
    -- Another call uses another object.
    rintro rfl
    exact hgf (Option.some.inj (hv.symm.trans howner))
  · exact h.kind v q g (List.mem_of_mem_erase hv)

omit [DecidableEq Q] in
theorem Steady.leaveAlarm (h : s.Steady) {w : W} {f : F} (hf : s.frame f = .alarm w) :
    (leaveAlarm w f s).Steady ∧ SameTurn s (leaveAlarm w f s) := by
  have hun := h.eraseWaiting (h.alarms.owner w f (h.alarms.frame f w hf))
  have halarms := h.alarms.leaveAlarm hf
  rw [Worker.leaveAlarm, unscheduleTask_eq] at halarms ⊢
  exact ⟨⟨⟨⟨hun.one.1, hun.one.2⟩, halarms, hun.held, hun.fault⟩,
    hun.consistent.congr rfl rfl rfl rfl rfl rfl⟩, SameTurn.of_eq rfl rfl rfl⟩

omit [DecidableEq Q] in
/-- The fiber of a waitable is woken, which leaves the waiting list. -/
theorem Steady.wakeTimed (h : s.Steady) {w : W} {f : F} (hw : w ∈ s.waiting)
    (hf : (s.waitable w).fiber = some f) (prio : Bool) :
    (Worker.wakeFiber f prio (s.eraseWaiting w)).Sat Fault.Open fun t =>
      t.Steady ∧ SameTurn s t ∧ Touched f s t ∧ w ∉ t.waiting := by
  obtain ⟨-, -, hused, hstate, hnext⟩ := h.consistent.of_mem_waiting hw hf
  have hst : Touched f s (s.eraseWaiting w) :=
    ⟨fun _ _ => rfl, fun _ _ => rfl, List.erase_sublist, rfl⟩
  refine (h.wakeFiber hst (h.consistent.detach_waiting hw hf) rfl hstate
    ⟨hused, hstate, hnext⟩ prio).mono fun t ht => ⟨ht.1, ht.2.1, ht.2.2.1, fun hwt => ?_⟩
  exact h.consistent.nodups.waiting.not_mem_erase (ht.2.2.2.subset hwt)

omit [DecidableEq Q] in
/-- `Waiter::wakeup` of a waitable. -/
theorem Steady.wakeup (h : s.Steady) (w : W) :
    (wakeup w s).Sat Fault.Open fun t => t.Steady ∧ SameTurn s t := by
  rw [Worker.wakeup]
  split
  · rename_i hw
    dsimp only
    cases hf : (s.waitable w).fiber with
    | none =>
        have hf' : ((s.eraseWaiting w).waitable w).fiber = none := hf
        rw [hf']
        exact ⟨h.eraseWaiting hf, SameTurn.of_eq rfl rfl rfl⟩
    | some f =>
        have hf' : ((s.eraseWaiting w).waitable w).fiber = some f := hf
        rw [hf']
        refine (h.wakeTimed hw hf true).map fun t ht => ?_
        have hsame : SameTurn t
            (t.setWaitable w { t.waitable w with fiber := none }) := SameTurn.of_eq rfl rfl rfl
        exact ⟨ht.1.setWaitable ht.2.2.2 fun _ _ => rfl, ht.2.1.trans hsame⟩
  · exact ⟨h, SameTurn.of_eq rfl rfl rfl⟩

omit [DecidableEq F] [DecidableEq Q] in
/-- A waitable is put back, with another timeout perhaps. -/
theorem Steady.reinsert (h : s.Steady) {w : W} (hw : w ∈ s.waiting) {v : Waitable F Q}
    (hfiber : v.fiber = (s.waitable w).fiber) (hkind : v.kind = (s.waitable w).kind) :
    (Worker.insertWaiting w ((s.eraseWaiting w).setWaitable w v)).Sat Fault.Open fun t =>
      t.Steady ∧ SameTurn s t := by
  have hnot : w ∉ ((s.eraseWaiting w).setWaitable w v).waiting :=
    h.consistent.nodups.waiting.not_mem_erase
  have hself : ((s.eraseWaiting w).setWaitable w v).waitable w = v := Function.update_self _ _ _
  have hsound := (h.toSound.eraseWaiting w).setWaitable (v := v) hnot fun f hf => by
    rw [hfiber]
    exact h.alarms.owner w f hf
  rw [Worker.insertWaiting, if_neg hnot]
  refine ⟨⟨hsound.insertWaiting fun q f hk => ?_, h.consistent.reinsert hw hfiber⟩,
    SameTurn.of_eq rfl rfl rfl⟩
  rw [hself] at hk ⊢
  rw [hfiber]
  exact h.alarms.kind w q f hw (hkind ▸ hk)

omit [DecidableEq Q] in
/-- A waitable that has expired is over: it wakes its fiber, if it has one. -/
theorem Steady.expired (h : s.Steady) {w : W} (hw : w ∈ s.waiting)
    {x : Except Fault (Worker F Q W)}
    (hnone : (s.waitable w).fiber = none → x = .ok (s.eraseWaiting w))
    (hsome : ∀ f, (s.waitable w).fiber = some f →
      x = Worker.wakeFiber f true (s.eraseWaiting w)) :
    x.Sat Fault.Open fun t => t.Steady ∧ SameTurn s t := by
  cases hf : (s.waitable w).fiber with
  | none =>
      rw [hnone hf]
      exact ⟨h.eraseWaiting hf, SameTurn.of_eq rfl rfl rfl⟩
  | some f =>
      rw [hsome f hf]
      exact (h.wakeTimed hw hf true).mono fun t ht => ⟨ht.1, ht.2.1⟩

/-- One round of the inner loop of the waiter. -/
theorem Steady.expire (h : s.Steady) {w : W} (hw : w ∈ s.waiting) (fired : Bool) (now : ℕ) :
    (expire w fired now s).Sat Fault.Open fun t => t.Steady ∧ SameTurn s t := by
  have hfiber : ((s.eraseWaiting w).waitable w).fiber = (s.waitable w).fiber := rfl
  have hback : (Worker.insertWaiting w (s.eraseWaiting w)).Sat Fault.Open fun t =>
      t.Steady ∧ SameTurn s t := by
    have := h.reinsert hw (v := s.waitable w) rfl rfl
    rwa [Worker.setWaitable, show (s.eraseWaiting w).waitable = s.waitable from rfl,
      Function.update_eq_self] at this
  have hkind : ((s.eraseWaiting w).waitable w).kind = (s.waitable w).kind := rfl
  rw [Worker.expire, poll]
  dsimp only
  rw [hkind]
  cases hk : (s.waitable w).kind with
  | timed =>
      generalize decide (((s.eraseWaiting w).waitable w).timeout ≤ now) = done
      cases done with
      | true =>
          refine h.expired hw (fun hf => ?_) fun f hf => ?_ <;>
            simp only [Except.bind, hfiber, hf]
      | false => exact hback
  | polled interval =>
      dsimp only
      split
      · refine h.expired hw (fun hf => ?_) fun f hf => ?_ <;>
          simp only [Except.bind, hfiber, hf]
      · exact h.reinsert hw rfl hk.symm
  | alarm q f =>
      have hnone := h.alarms.kind w q f hw hk
      have hnot : w ∉ (s.eraseWaiting w).waiting := h.consistent.nodups.waiting.not_mem_erase
      dsimp only
      split
      · -- The alarm took its fiber out of the queue, and has none itself.
        refine (((h.eraseWaiting hnone).unblock q f false).map
          (R := fun x => x.2 = true ∧ x.1.Steady ∧ SameTurn s x.1 ∧
            (x.1.waitable w).fiber = none) ?_).bind ?_
        · rintro ⟨t, rang⟩ ⟨ht, hst, htouch⟩
          dsimp only at ht hst htouch ⊢
          have hwt : w ∉ t.waiting := fun hwt => hnot (htouch.waiting.subset hwt)
          have hfiber : (t.waitable w).fiber = none := by
            rw [htouch.rest]
            exact hnone
          refine ⟨rfl, ht.setWaitable hwt fun _ _ => hfiber, ?_, ?_⟩
          · exact ⟨⟨hst.current, hst.switching, hst.worker, hst.running⟩, hst.runs⟩
          · simpa [Worker.setWaitable] using hfiber
        · rintro ⟨t, done⟩ ⟨rfl, ht, hst, hfiber⟩
          dsimp only at ht hst hfiber ⊢
          rw [hfiber]
          exact ⟨ht, hst⟩
      · exact hback

end Synchronizer

end Worker

end Zth
