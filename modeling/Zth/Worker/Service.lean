import Zth.Worker.Undisturbed

/-!
# What a synchronizer asks of the worker

The current fiber unblocks the first fibers of a queue, or enters a queue itself, with or without
an alarm. What becomes of the queue and of the fibers is told by one specification for each.
-/

namespace Zth

namespace Worker

variable {F Q W : Type*}

/-- What holds whenever the current fiber runs its own code. -/
structure Sane (s : Worker F Q W) : Prop where
  orderly : s.Orderly
  tracked : s.Tracked

/-- Fibers of a queue wait. -/
theorem Sane.waits {s : Worker F Q W} (h : s.Sane) {q : Q} {f : F} (hf : f ∈ s.queue q) :
    (s.fiber (some f)).state = .waiting :=
  (h.orderly.consistent.of_mem_queue hf).2.2.2.1

/-- The current fiber is in no queue. -/
theorem Sane.not_mem {s : Worker F Q W} (h : s.Sane) {f : F} (hf : s.currentFiber = some f)
    (q : Q) : f ∉ s.queue q := by
  intro hq
  have hrun := h.orderly.turn.running f hf
  rw [h.waits hq] at hrun
  cases hrun

/-- The fiber that is current runs. -/
theorem Sane.unblocked {s : Worker F Q W} (h : s.Sane) {f : F} (hf : s.currentFiber = some f) :
    (s.fiber (some f)).Unblocked := .inr (.inl (h.orderly.turn.running f hf))

/-- A fiber that is not blocked is in a queue of the worker. -/
theorem Sane.mem {s : Worker F Q W} (h : s.Sane) {f : F} (hf : (s.fiber (some f)).Unblocked) :
    f ∈ s.runnableQueue ∨ f ∈ s.suspendedQueue := by
  rw [h.orderly.consistent.mem_runnable_iff, h.orderly.consistent.mem_suspended_iff]
  rcases hf with hf | hf | ⟨hf, -⟩ | ⟨hf, -⟩ <;> simp [hf]

variable [DecidableEq F] [DecidableEq Q]

/-- The first `n` fibers of the queue were unblocked. -/
structure Woke (n : ℕ) (q : Q) (s t : Worker F Q W) : Prop where
  queue : t.queue = Function.update s.queue q ((s.queue q).drop n)
  unblocked : ∀ g, (s.fiber (some g)).Unblocked ∨ g ∈ (s.queue q).take n →
    (t.fiber (some g)).Unblocked
  rest : FibersOnly s t

/-- The fiber entered the queue. -/
structure Entered (q : Q) (f : F) (s t : Worker F Q W) : Prop where
  queue : t.queue = Function.update s.queue q (s.queue q ++ [f])
  unblocked : ∀ g, g ≠ f → (s.fiber (some g)).Unblocked → (t.fiber (some g)).Unblocked

variable {s : Worker F Q W}

theorem Sane.unblockFirst (h : s.Sane) (q : Q) (prio : Bool) :
    (Worker.unblockFirst q prio s).Sat Fault.Open fun t =>
      Woke 1 q s t ∧ t.Sane ∧ SameTurn s t := by
  have hinv := ((h.orderly.toSteady.unblockFirst q prio).and
    ((h.tracked.unblockFirst q prio).mono_bad fun _ _ => trivial)).and
    (keepsRest_unblockFirst q prio s)
  have hqueue : (Worker.unblockFirst q prio s).Sat (fun _ => True) fun t =>
      t.queue = Function.update s.queue q ((s.queue q).drop 1) ∧
      ∀ g, (s.fiber (some g)).Unblocked ∨ g ∈ (s.queue q).take 1 →
        (t.fiber (some g)).Unblocked := by
    rw [Worker.unblockFirst]
    split
    · rename_i hq
      refine ⟨?_, fun g hg => ?_⟩
      · rw [hq, List.drop_nil, ← hq, Function.update_eq_self]
      · simpa [hq] using hg
    · rename_i f fs hq
      have hf : f ∈ s.queue q := by simp [hq]
      have htake := h.tracked.take_mem hf (h.waits hf) prio
      rw [hq, List.erase_cons_head] at htake
      rw [hq]
      exact htake.mono fun t ht => ⟨ht.1, fun g hg => ht.2 g (by simpa using hg)⟩
  refine (hinv.and hqueue).mono ?_
  rintro t ⟨⟨⟨⟨hsteady, hturn⟩, htracked, -⟩, hrest⟩, hqueue, hun⟩
  exact ⟨⟨hqueue, hun, hrest⟩, ⟨h.orderly.of_sameTurn ⟨hsteady, hturn⟩, htracked⟩, hturn⟩

theorem Sane.unblockAll (h : s.Sane) (q : Q) (prio : Bool) (n : ℕ) :
    (Worker.unblockAll q prio n s).Sat Fault.Open fun t =>
      Woke n q s t ∧ t.Sane ∧ SameTurn s t := by
  induction n generalizing s with
  | zero =>
      refine ⟨⟨?_, fun g hg => by simpa using hg, rfl⟩, h, .of_eq rfl rfl rfl⟩
      rw [List.drop_zero, Function.update_eq_self]
  | succ n ih =>
      refine (h.unblockFirst q prio).bind fun t ht => ?_
      obtain ⟨hwoke, ht, hturn⟩ := ht
      have hq : t.queue q = (s.queue q).drop 1 := by rw [hwoke.queue, Function.update_self]
      refine (ih ht).mono ?_
      rintro u ⟨hwoke', hu, hturn'⟩
      refine ⟨⟨?_, fun g hg => hwoke'.unblocked g ?_, hwoke'.rest.after hwoke.rest⟩, hu,
        hturn.trans hturn'⟩
      · rw [hwoke'.queue, hq, hwoke.queue, Function.update_idem, List.drop_drop, Nat.add_comm]
      · rw [hq]
        cases hl : s.queue q with
        | nil => exact .inl (hwoke.unblocked g (by simpa [hl] using hg))
        | cons f fs =>
            simp only [hl, List.take_succ_cons, List.mem_cons] at hg
            rcases hg with hg | rfl | hg
            · exact .inl (hwoke.unblocked g (.inl hg))
            · exact .inl (hwoke.unblocked g (.inr (by simp [hl])))
            · exact .inr hg

/-- A fiber enters a queue. -/
theorem entered_enterQueue (q : Q) (f : F) (s : Worker F Q W) :
    (enterQueue q f s).Sat (fun _ => True) (Entered q f s) := by
  have hbeside := leavesAlone_enterQueue (p := fun q' => q' ≠ q) (not_not.2 rfl) f s
  have hqueue : (enterQueue q f s).Sat (fun _ => True)
      fun t => t.queue q = s.queue q ++ [f] := by
    refine Except.Sat.bind (leavesAlone_release (p := fun _ => True) (c := none) f s)
      fun t ht => ?_
    rw [enqueue]
    split
    · trivial
    · have hq : t.queue q = s.queue q := ht.queue q trivial
      simp [Except.map, Except.Sat, Worker.setFiber, setLinked, setQueue, hq]
  refine (hbeside.and hqueue).mono ?_
  rintro t ⟨hbeside, hq⟩
  refine ⟨?_, fun g hg => hbeside.unblocked g (by simpa using hg)⟩
  funext q'
  by_cases hq' : q' = q
  · rw [hq', hq, Function.update_self]
  · rw [Function.update_of_ne hq', hbeside.queue q' hq']

omit [DecidableEq F] in
/-- What follows leaves the queues alone and blocks nobody. -/
theorem Entered.beside {q : Q} {f : F} {t u : Worker F Q W} (h : Entered q f s t)
    (htu : Beside (fun _ => True) (some f) t u) : Entered q f s u := by
  have hqueue : u.queue = t.queue := funext fun q' => htu.queue q' trivial
  exact ⟨hqueue.trans h.queue, fun g hg hun =>
    htu.unblocked g (by simpa using hg) (h.unblocked g hg hun)⟩

/-- The current fiber blocks. -/
theorem Sane.block (h : s.Sane) (created : Contexts F) (q : Q) {f : F}
    (hcur : s.currentFiber = some f) (henabled : s.disableContextSwitch = 0) (now : ℕ) :
    (Worker.block created q f now s).Sat Fault.Open fun x =>
      Entered q f s x.1 ∧ x.1.Sane ∧ FibersOnly s x.1 := by
  have hinv := (h.orderly.toSteady.block created q (h.orderly.turn.running f hcur) henabled
    now).and ((h.tracked.block created q hcur now).mono_bad fun _ _ => trivial)
  have hentered : (Worker.block created q f now s).Sat (fun _ => True) fun x =>
      Entered q f s x.1 ∧ FibersOnly s x.1 := by
    refine ((entered_enterQueue q f s).and (keepsRest_enterQueue q f s)).bind fun t ht => ?_
    refine ((beside_schedule (p := fun _ => True) (c := some f) created none now t).and
      (rescheduled_schedule created none now t)).mono fun x hx => ?_
    exact ⟨ht.1.beside hx.1, hx.2.fibersOnly.after ht.2⟩
  refine (hinv.and hentered).mono ?_
  rintro x ⟨⟨horderly, htracked⟩, hentered, hrest⟩
  exact ⟨hentered, ⟨horderly, htracked.1⟩, hrest⟩

section Waiter

variable [LinearOrder W]

/-- The alarm of the fiber was set. -/
structure AlarmSet (q : Q) (f : F) (w : W) (timeout : ℕ) (s t : Worker F Q W) : Prop where
  frame : t.frame = Function.update s.frame f (.alarm w)
  waitable : t.waitable = Function.update s.waitable w ⟨timeout, none, .alarm q f, false⟩
  waiting : ∀ v ∈ t.waiting, v = w ∨ v ∈ s.waiting

omit [DecidableEq Q] in
/-- What follows only concerns fibers. -/
theorem AlarmSet.fibersOnly {q : Q} {f : F} {w : W} {timeout : ℕ} {t u : Worker F Q W}
    (h : AlarmSet q f w timeout s t) (htu : FibersOnly t u) : AlarmSet q f w timeout s u := by
  obtain ⟨hv, hw, hframe⟩ := htu.same
  exact ⟨hframe.trans h.frame, hv.trans h.waitable, fun v hv' => h.waiting v (hw ▸ hv')⟩

/-- A fiber that entered the queue has its alarm scheduled. -/
theorem Entered.scheduleTask {q : Q} {f : F} {w : W} {timeout : ℕ} {t : Worker F Q W}
    (h : Entered q f s t) (waiter : F) (hset : AlarmSet q f w timeout s t) :
    (scheduleTask waiter w t).Sat (fun _ => True) fun u =>
      Entered q f s u ∧ AlarmSet q f w timeout s u := by
  rw [Worker.scheduleTask, insertWaiting]
  split
  · trivial
  · have hinsert : Entered q f s
        { t with waiting := t.waiting.orderedInsert t.WaitsBefore w } := h.beside (.of_eq rfl rfl)
    have hset' : AlarmSet q f w timeout s
        { t with waiting := t.waiting.orderedInsert t.WaitsBefore w } := by
      refine ⟨hset.frame, hset.waitable, fun v hv => ?_⟩
      exact ((List.mem_orderedInsert _).1 hv).elim .inl (hset.waiting v)
    refine Except.Sat.mono ((leavesAlone_resume (p := fun _ => True) (c := some f) waiter _).and
      (keepsRest_resume waiter _)) fun u hu => ?_
    exact ⟨hinsert.beside hu.1, hset'.fibersOnly hu.2⟩

/-- The current fiber blocks with a timeout. -/
theorem Sane.blockUntil (h : s.Sane) (created : Contexts F) (waiter : F) (q : Q) {w : W}
    (timeout : ℕ) {f : F} (hcur : s.currentFiber = some f) (huser : s.frame f = .user)
    (hfree : isFree w s = true) (henabled : s.disableContextSwitch = 0) (now : ℕ) :
    (Worker.blockUntil created waiter q w timeout f now s).Sat Fault.Open fun x =>
      Entered q f s x.1 ∧ x.1.Sane ∧ AlarmSet q f w timeout s x.1 := by
  obtain ⟨howner, hw⟩ := isFree_iff.1 hfree
  have hinv := (h.orderly.toSteady.blockUntil created waiter q timeout
    (h.orderly.turn.running f hcur) hw howner henabled now).and
    ((h.tracked.blockUntil created waiter q timeout hcur (by simp [huser]) hw howner
      now).mono_bad fun _ _ => trivial)
  have hentered : (Worker.blockUntil created waiter q w timeout f now s).Sat (fun _ => True)
      fun x => Entered q f s x.1 ∧ AlarmSet q f w timeout s x.1 := by
    refine ((entered_enterQueue q f s).and (keepsRest_enterQueue q f s)).bind fun t ht => ?_
    obtain ⟨hv, hwaiting, hframe⟩ := ht.2.same
    have hset : AlarmSet q f w timeout s
        { (t.setWaitable w ⟨timeout, none, .alarm q f, false⟩).setFrame f (.alarm w) with
          owner := Function.update t.owner w (some f) } := by
      refine ⟨?_, ?_, fun v hv' => .inr (hwaiting ▸ hv')⟩
      · rw [← hframe]
        rfl
      · rw [← hv]
        rfl
    have hset' : Entered q f s
        { (t.setWaitable w ⟨timeout, none, .alarm q f, false⟩).setFrame f (.alarm w) with
          owner := Function.update t.owner w (some f) } := ht.1.beside (.of_eq rfl rfl)
    refine (hset'.scheduleTask waiter hset).bind fun u hu => ?_
    refine ((beside_schedule (p := fun _ => True) (c := some f) created none now u).and
      (rescheduled_schedule created none now u)).mono fun x hx => ?_
    exact ⟨hu.1.beside hx.1, hu.2.fibersOnly hx.2.fibersOnly⟩
  refine (hinv.and hentered).mono ?_
  rintro x ⟨⟨horderly, htracked⟩, hentered, hset⟩
  exact ⟨hentered, ⟨horderly, htracked.1⟩, hset⟩

end Waiter

end Worker

end Zth
