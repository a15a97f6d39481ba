import Zth.Worker.Footprint
import Zth.Worker.Kill

/-!
# Who takes a fiber out of a queue

A fiber that is blocked in a queue of a synchronizer stays there, and waits, whatever the
others do, until it is taken out of that queue. Only the operations of the synchronizer do so,
and an alarm that rings; each of them makes the fiber runnable.
-/

namespace Zth

namespace Worker

variable {F Q W : Type*}

/-- The fiber goes on waiting. -/
def StillWaits (f : F) (s t : Worker F Q W) : Prop :=
  (s.fiber (some f)).state = .waiting → (t.fiber (some f)).state = .waiting

/-- The fiber stays in the queues it is in, and waits on. -/
structure Unmoved (f : F) (s t : Worker F Q W) : Prop where
  queue : ∀ q, f ∈ t.queue q ↔ f ∈ s.queue q
  waits : ∀ q, f ∈ s.queue q → StillWaits f s t

/-- The fiber is in no queue any more, but runnable. -/
structure Freed (f : F) (s : Worker F Q W) : Prop where
  queue : ∀ q, f ∉ s.queue q
  runnable : f ∈ s.runnableQueue
  ready : (s.fiber (some f)).state = .ready

theorem Unmoved.of_queue {s t : Worker F Q W} {f : F} (hq : t.queue = s.queue)
    (hw : StillWaits f s t) : Unmoved f s t :=
  ⟨fun q => by rw [hq], fun _ _ => hw⟩

theorem Unmoved.refl (f : F) (s : Worker F Q W) : Unmoved f s s := .of_queue rfl fun h => h

theorem Unmoved.after {s t u : Worker F Q W} {f : F} (h : Unmoved f t u) (hst : Unmoved f s t) :
    Unmoved f s u :=
  ⟨fun q => (h.queue q).trans (hst.queue q),
    fun q hq hw => h.waits q ((hst.queue q).2 hq) (hst.waits q hq hw)⟩

/-- Whatever the computation returns, the fiber is still blocked. -/
def KeepsBlocked (f : F) (s : Worker F Q W) (x : Except Fault (Worker F Q W)) : Prop :=
  x.Sat (fun _ => True) (Unmoved f s)

theorem KeepsBlocked.bind {s : Worker F Q W} {f : F} {x : Except Fault (Worker F Q W)}
    {k : Worker F Q W → Except Fault (Worker F Q W)} (h : KeepsBlocked f s x)
    (hk : ∀ t, KeepsBlocked f t (k t)) : KeepsBlocked f s (x.bind k) :=
  Except.Sat.bind h fun t ht => (hk t).mono fun _ hu => hu.after ht

variable [DecidableEq F]

theorem state_setLinked (g : F) (linked : Bool) (s : Worker F Q W) (r : Option F) :
    ((setLinked g linked s).fiber r).state = (s.fiber r).state := by
  by_cases hr : r = some g
  · rw [hr, setLinked_fiber_self]
  · rw [setLinked_fiber_of_ne s linked hr]

/-- A fiber changes, in a way that does not stop it from waiting. -/
theorem stillWaits_setFiber {s : Worker F Q W} {f : F} {r : Option F} {x : Fiber}
    (hx : r = some f → (s.fiber (some f)).state = .waiting → x.state = .waiting) :
    StillWaits f s (s.setFiber r x) := by
  intro hw
  by_cases hr : some f = r
  · subst hr
    rw [setFiber_fiber_self]
    exact hx rfl hw
  · rwa [setFiber_fiber_of_ne s x hr]

/-- The link fields do not matter. -/
theorem stillWaits_setLinked {s t : Worker F Q W} {f : F} (ht : t.fiber = s.fiber) (g : F)
    (linked : Bool) : StillWaits f s (setLinked g linked t) := by
  intro hw
  rw [state_setLinked, ht]
  exact hw

section Schedule

variable {f : F}

/-- Only a fiber that is ready is switched to. -/
theorem stillWaits_switchTo {next : Option F} {s : Worker F Q W}
    (hnext : (s.fiber next).state = .ready) : StillWaits f s (s.switchTo next) := by
  intro hw
  have hne : some f ≠ next := by
    rintro rfl
    rw [hw] at hnext
    cases hnext
  have hstop : StillWaits f s (s.setFiber s.currentFiber (s.fiber s.currentFiber).stop) := by
    apply stillWaits_setFiber
    intro hcur hw
    rw [hcur]
    simp [Fiber.stop, hw]
  rw [switchTo]
  exact (congrArg Fiber.state (setFiber_fiber_of_ne _ _ hne)).trans (hstop hw)

theorem stillWaits_dispatch (next : Option F) (s : Worker F Q W) :
    (dispatch next s).Sat (fun _ => True) fun x => StillWaits f s x.1 := by
  rw [dispatch]
  split
  · rename_i hnext
    split
    · trivial
    · exact stillWaits_switchTo hnext
  · split
    · exact fun hw => hw
    · trivial
  · exact fun hw => hw
  all_goals trivial

theorem stillWaits_run (created : Contexts F) (next : Option F) (s : Worker F Q W) :
    (run created next s).Sat (fun _ => True) fun x => StillWaits f s x.1 := by
  refine sat_run (fun hnew _ => ?_) (fun _ _ => trivial) fun _ => stillWaits_dispatch next s
  refine (stillWaits_dispatch next _).mono fun x hx hw => hx ?_
  refine stillWaits_setFiber (fun hr _ => ?_) hw
  rw [hr, hw] at hnew
  cases hnew

theorem stillWaits_attempt (created : Contexts F) (next : Option F) (s : Worker F Q W) :
    (attempt created next s).Sat (fun _ => True) fun x => StillWaits f s x.1 := by
  cases next with
  | none => exact stillWaits_run created none s
  | some g =>
      rw [attempt]
      split
      · exact stillWaits_run created _ _
      · trivial

theorem stillWaits_remove (g : F) (s : Worker F Q W) :
    (remove g s).Sat (fun _ => True) (StillWaits f s) := by
  rw [remove]
  split
  · have hlinked : StillWaits f s
        (setLinked g false { s with runnableQueue := s.runnableQueue.erase g }) :=
      stillWaits_setLinked rfl g false
    intro hw
    refine stillWaits_setFiber (fun hr hw' => ?_) (hlinked hw)
    rwa [hr]
  · trivial

theorem stillWaits_reschedule (created : Contexts F) (n : ℕ)
    (prefer : Option (Option F)) (did : Bool) (s : Worker F Q W) :
    (reschedule created n prefer did s).Sat (fun _ => True) fun x => StillWaits f s x.1 := by
  induction n generalizing s prefer did with
  | zero => trivial
  | succ n ih =>
      rw [reschedule]
      refine (stillWaits_attempt (f := f) created _ s).bind ?_
      rintro ⟨t, _ | _ | _⟩ ht
      · exact ht
      · exact ht
      · dsimp only
        split
        · trivial
        · rename_i g _
          split
          · refine (stillWaits_attempt (f := f) created none t).bind ?_
            rintro ⟨u, _ | _ | _⟩ hu
            · exact fun hw => hu (ht hw)
            · trivial
            · trivial
          · refine (stillWaits_remove (f := f) g t).bind fun u hu => ?_
            exact (ih none true u).mono fun _ hv hw => hv (hu (ht hw))

/-- `schedule` does not disturb a fiber that is blocked. -/
theorem unmoved_schedule (created : Contexts F) (prefer : Option (Option F)) (now : ℕ)
    (s : Worker F Q W) :
    (schedule created prefer now s).Sat (fun _ => True) fun x => Unmoved f s x.1 := by
  have hwaits : (schedule created prefer now s).Sat (fun _ => True)
      fun x => StillWaits f s x.1 := by
    rw [schedule]
    split
    · exact fun hw => hw
    · split
      · trivial
      · exact stillWaits_reschedule created _ _ _ s
  refine (hwaits.and (rescheduled_schedule created prefer now s)).mono ?_
  rintro x ⟨hw, hres⟩
  rw [Rescheduled] at hres
  exact .of_queue (by rw [hres]) hw

theorem keepsBlocked_schedule (created : Contexts F) (prefer : Option (Option F))
    (now : ℕ) (s : Worker F Q W) :
    KeepsBlocked f s ((schedule created prefer now s).map Prod.fst) :=
  (unmoved_schedule created prefer now s).map fun _ hx => hx

end Schedule

section Operations

variable {f : F}

theorem keepsBlocked_add (g : F) (front : Bool) (s : Worker F Q W) :
    KeepsBlocked f s (add g front s) := by
  rw [add]
  split
  · trivial
  · split
    · trivial
    · split
      · exact .of_queue rfl (stillWaits_setLinked rfl g true)
      · exact .of_queue rfl (stillWaits_setLinked rfl g true)

theorem keepsBlocked_release (g : F) (s : Worker F Q W) :
    KeepsBlocked f s (release g s) := by
  rw [release]
  split
  · split
    · exact .of_queue rfl (stillWaits_setLinked rfl g false)
    · trivial
  · split
    · exact .of_queue rfl (stillWaits_setLinked rfl g false)
    · trivial

/-- A fiber changes, in a way that does not stop it from waiting, and is added. -/
theorem keepsBlocked_add_setFiber (g : F) (front : Bool) {x : Fiber} {s : Worker F Q W}
    (hx : g = f → (s.fiber (some f)).state = .waiting → x.state = .waiting) :
    KeepsBlocked f s (add g front (s.setFiber (some g) x)) :=
  (keepsBlocked_add g front _).mono fun _ ht => ht.after
    (.of_queue rfl (stillWaits_setFiber fun hr => hx (Option.some.inj hr)))

theorem keepsBlocked_hatch {g : F} {s : Worker F Q W}
    (hg : (s.fiber (some g)).state = .uninitialized) : KeepsBlocked f s (hatch g s) := by
  refine keepsBlocked_add_setFiber g false fun hgf hw => ?_
  rw [hgf, hw] at hg
  cases hg

/-- Another fiber is woken. -/
theorem keepsBlocked_wakeFiber {g : F} (hg : g ≠ f) (prio : Bool) (s : Worker F Q W) :
    KeepsBlocked f s (wakeFiber g prio s) :=
  keepsBlocked_add_setFiber g prio fun hgf => absurd hgf hg

omit [DecidableEq F] in
theorem suspend_waiting {x : Fiber} (hx : x.state = .waiting) : x.suspend.state = .waiting := by
  simp [Fiber.suspend, hx]

omit [DecidableEq F] in
theorem resume_waiting {x : Fiber} (hx : x.state = .waiting) : x.resume.state = .waiting := by
  simp [Fiber.resume, hx]

theorem keepsBlocked_suspendOther (g : F) (s : Worker F Q W) :
    KeepsBlocked f s (suspendOther g s) := by
  have hset : ∀ t : Worker F Q W,
      StillWaits f t (t.setFiber (some g) (t.fiber (some g)).suspend) := by
    intro t
    apply stillWaits_setFiber
    intro hg hw
    rw [hg]
    exact suspend_waiting hw
  have hmove : KeepsBlocked f s ((release g s).bind fun s =>
      add g false { s.setFiber (some g) (s.fiber (some g)).suspend with
        held := Function.update s.held g true }) := by
    refine (keepsBlocked_release g s).bind fun t => ?_
    exact (keepsBlocked_add g false _).mono fun _ hu => hu.after (.of_queue rfl (hset t))
  rw [suspendOther]
  split
  · exact hmove
  · exact hmove
  · exact hmove
  · exact .of_queue rfl (hset s)
  all_goals exact .refl f s

theorem keepsBlocked_suspend (created : Contexts F) (g : F) (now : ℕ)
    (s : Worker F Q W) : KeepsBlocked f s ((suspend created g now s).map Prod.fst) := by
  refine Except.Sat.map (P := fun x => Unmoved f s x.1) ?_ fun _ hx => hx
  rw [suspend]
  split
  · refine Except.Sat.bind (keepsBlocked_suspendOther (f := f) g s) fun t ht => ?_
    split
    · exact (unmoved_schedule created none now t).mono fun _ hx => hx.after ht
    · trivial
  · exact Except.Sat.map (keepsBlocked_suspendOther g s) fun _ ht => ht

theorem keepsBlocked_resume (g : F) (s : Worker F Q W) : KeepsBlocked f s (resume g s) := by
  rw [resume]
  dsimp only
  split
  · have hheld : Unmoved f s { s with held := Function.update s.held g false } :=
      .of_queue rfl fun hw => hw
    refine Except.Sat.bind (keepsBlocked_release (f := f) g _) fun t ht => ?_
    refine (keepsBlocked_add_setFiber g false fun hg hw => ?_).mono fun _ hu =>
      hu.after (ht.after hheld)
    rw [hg]
    exact resume_waiting hw
  · exact .of_queue rfl fun hw => hw

end Operations

/-- The fiber was added, and nothing else happened to the queues and to the others. -/
structure Added (g : F) (s t : Worker F Q W) : Prop where
  queue : t.queue = s.queue
  runnable : ∀ f ∈ s.runnableQueue, f ∈ t.runnableQueue
  fiber : ∀ r, r ≠ some g → t.fiber r = s.fiber r

theorem added_add (g : F) (front : Bool) (s : Worker F Q W) :
    (add g front s).Sat (fun _ => True) (Added g s) := by
  rw [add]
  split
  · trivial
  · split
    · trivial
    · split
      · exact ⟨rfl, fun _ hf => hf, fun r hr => setLinked_fiber_of_ne _ true hr⟩
      · refine ⟨rfl, fun f hf => ?_, fun r hr => setLinked_fiber_of_ne _ true hr⟩
        cases front with
        | true => exact List.mem_cons_of_mem _ hf
        | false => exact List.mem_append_left _ hf

theorem added_wakeFiber (g : F) (prio : Bool) (s : Worker F Q W) :
    (wakeFiber g prio s).Sat (fun _ => True) (Added g s) :=
  (added_add g prio _).mono fun _ ht => ⟨ht.queue, ht.runnable,
    fun r hr => (ht.fiber r hr).trans (setFiber_fiber_of_ne s _ hr)⟩

section Synchronizer

variable [DecidableEq Q] {f : F} {s : Worker F Q W}

/-- Another fiber enters a queue. -/
theorem keepsBlocked_enterQueue (q : Q) {g : F} (hg : g ≠ f) (s : Worker F Q W) :
    KeepsBlocked f s (enterQueue q g s) := by
  refine (keepsBlocked_release g s).bind fun t => ?_
  rw [enqueue]
  split
  · trivial
  · have hqueue : ∀ q', f ∈ Function.update t.queue q (t.queue q ++ [g]) q' ↔ f ∈ t.queue q' := by
      intro q'
      by_cases hq : q' = q
      · subst hq
        simp [Ne.symm hg]
      · rw [Function.update_of_ne hq]
    refine ⟨hqueue, fun _ _ hw => ?_⟩
    refine stillWaits_setFiber (fun hr => absurd (Option.some.inj hr) hg) ?_
    rw [state_setLinked]
    exact hw

theorem keepsBlocked_block (created : Contexts F) (q : Q) {g : F} (hg : g ≠ f) (now : ℕ)
    (s : Worker F Q W) : KeepsBlocked f s ((block created q g now s).map Prod.fst) := by
  refine Except.Sat.map (P := fun x => Unmoved f s x.1) ?_ fun _ hx => hx
  refine Except.Sat.bind (keepsBlocked_enterQueue q hg s) fun t ht => ?_
  exact (unmoved_schedule created none now t).mono fun _ hx => hx.after ht

/-- A fiber is taken out of a queue. -/
theorem unmoved_take (q : Q) {g : F} (hg : g ≠ f) (s : Worker F Q W) :
    Unmoved f s (setLinked g false (s.setQueue q ((s.queue q).erase g))) := by
  have hqueue : ∀ q', f ∈ Function.update s.queue q ((s.queue q).erase g) q' ↔
      f ∈ s.queue q' := by
    intro q'
    by_cases hq : q' = q
    · subst hq
      rw [Function.update_self, List.mem_erase_of_ne (Ne.symm hg)]
    · rw [Function.update_of_ne hq]
  exact ⟨hqueue, fun _ _ => stillWaits_setLinked rfl g false⟩

/-- Another fiber is taken out of a queue and woken. -/
theorem keepsBlocked_take (q : Q) {g : F} (hg : g ≠ f) (prio : Bool) (s : Worker F Q W) :
    KeepsBlocked f s
      (wakeFiber g prio (setLinked g false (s.setQueue q ((s.queue q).erase g)))) :=
  (keepsBlocked_wakeFiber hg prio _).mono fun _ ht => ht.after (unmoved_take q hg s)

/-- A request for another fiber. -/
theorem unmoved_unblock (q : Q) {g : F} (hg : g ≠ f) (prio : Bool) (s : Worker F Q W) :
    (unblock q g prio s).Sat (fun _ => True) fun x => Unmoved f s x.1 := by
  rw [unblock]
  split
  · exact (keepsBlocked_take q hg prio s).map fun _ ht => ht
  · exact .refl f s

/-- A fiber that was taken is not disturbed by what is done with the others. -/
theorem Freed.take (h : Freed f s) (q : Q) {g : F} (hg : g ≠ f) (prio : Bool) :
    (wakeFiber g prio (setLinked g false (s.setQueue q ((s.queue q).erase g)))).Sat
      (fun _ => True) (Freed f) := by
  have hne : some f ≠ some g := fun hfg => hg (Option.some.inj hfg).symm
  refine ((added_wakeFiber g prio _).and (keepsBlocked_take q hg prio s)).mono ?_
  rintro t ⟨hadded, hun⟩
  refine ⟨fun q' hq => h.queue q' ((hun.queue q').1 hq), hadded.runnable f h.runnable, ?_⟩
  rw [hadded.fiber _ hne, state_setLinked]
  exact h.ready

/-- A fiber that waits in a queue is taken out of it and woken. -/
theorem Tracked.freed (h : s.Tracked) {q : Q} (hf : f ∈ s.queue q)
    (hw : (s.fiber (some f)).state = .waiting) (prio : Bool) :
    (Worker.wakeFiber f prio
      (setLinked f false (s.setQueue q ((s.queue q).erase f)))).Sat (fun _ => True)
        (Freed f) := by
  obtain ⟨-, -, hawaits⟩ := h.consistent.of_mem_queue hf
  have hdet := h.consistent.detach_queue hf
  generalize ht : setLinked f false (s.setQueue q ((s.queue q).erase f)) = t at hdet
  have hfiber : t.fiber (some f) = { s.fiber (some f) with linked := false } := by
    rw [← ht]
    exact setLinked_fiber_self _ _ _
  have hnext : (t.fiber (some f)).wakeup.state = .ready ∨
      (t.fiber (some f)).wakeup.state = .waiting := by
    obtain ⟨-, hdead | ⟨-, hready | hwaiting⟩ | ⟨hsus, -⟩⟩ := hawaits
    · simp [hw] at hdead
    · simp [hfiber, Fiber.wakeup, hw, hready]
    · simp [hfiber, Fiber.wakeup, hw, hwaiting]
    · simp [hw] at hsus
  have hself := setFiber_fiber_self t (some f) (t.fiber (some f)).wakeup
  rw [Worker.wakeFiber, Worker.add, hself]
  obtain hready | hwaiting := hnext
  · rw [if_neg (by simp [hready])]
    split
    · trivial
    · rw [if_neg (by simp [hready])]
      refine ⟨fun q' hq => ?_, ?_, ?_⟩
      · cases (hdet.nowhere.queued q').1 hq
      · cases prio <;> simp [setLinked, setFiber]
      · rw [state_setLinked]
        exact (congrArg Fiber.state hself).trans hready
  · rw [if_pos hwaiting]
    trivial

/-- A request for a certain fiber. -/
theorem Tracked.unblock_blocked (h : s.Tracked)
    (hw : ∀ q, f ∈ s.queue q → (s.fiber (some f)).state = .waiting) (q : Q) (g : F)
    (prio : Bool) :
    (Worker.unblock q g prio s).Sat (fun _ => True) fun x =>
      (f ∈ s.queue q ∧ g = f ∧ x.2 = true ∧ Freed f x.1) ∨
        ((g = f → x.2 = false) ∧ Unmoved f s x.1) := by
  by_cases hgf : g = f
  · subst hgf
    rw [Worker.unblock]
    split
    · rename_i hg
      exact (h.freed hg (hw q hg) prio).map fun t ht => .inl ⟨hg, rfl, rfl, ht⟩
    · exact .inr ⟨fun _ => rfl, .refl g s⟩
  · exact (unmoved_unblock q hgf prio s).mono fun x hx => .inr ⟨fun hgf' => absurd hgf' hgf, hx⟩

/-- A request for the first fiber. -/
theorem Tracked.unblockFirst_blocked (h : s.Tracked)
    (hw : ∀ q, f ∈ s.queue q → (s.fiber (some f)).state = .waiting) (q : Q) (prio : Bool) :
    (Worker.unblockFirst q prio s).Sat (fun _ => True) fun t =>
      (f ∈ s.queue q ∧ Freed f t) ∨ Unmoved f s t := by
  rw [Worker.unblockFirst]
  split
  · exact .inr (.refl f s)
  · rename_i g gs hq
    rw [show gs = (s.queue q).erase g by rw [hq, List.erase_cons_head]]
    by_cases hgf : g = f
    · subst hgf
      have hg : g ∈ s.queue q := by simp [hq]
      exact (h.freed hg (hw q hg) prio).mono fun t ht => .inl ⟨hg, ht⟩
    · exact (keepsBlocked_take q hgf prio s).mono fun t ht => .inr ht

theorem Freed.unblockFirst (h : Freed f s) (q : Q) (prio : Bool) :
    (Worker.unblockFirst q prio s).Sat (fun _ => True) (Freed f) := by
  rw [Worker.unblockFirst]
  split
  · exact h
  · rename_i g gs hq
    rw [show gs = (s.queue q).erase g by rw [hq, List.erase_cons_head]]
    refine h.take q (fun hgf => h.queue q ?_) prio
    simp [hq, hgf]

theorem Freed.unblockAll (h : Freed f s) (q : Q) (prio : Bool) (n : ℕ) :
    (Worker.unblockAll q prio n s).Sat (fun _ => True) (Freed f) := by
  induction n generalizing s with
  | zero => exact h
  | succ n ih => exact (h.unblockFirst q prio).bind fun t ht => ih ht

/-- A request for all fibers. -/
theorem Tracked.unblockAll_blocked (h : s.Tracked)
    (hw : ∀ q, f ∈ s.queue q → (s.fiber (some f)).state = .waiting) (q : Q) (prio : Bool)
    (n : ℕ) :
    (Worker.unblockAll q prio n s).Sat (fun _ => True) fun t =>
      (f ∈ s.queue q ∧ Freed f t) ∨ Unmoved f s t := by
  induction n generalizing s with
  | zero => exact .inr (.refl f s)
  | succ n ih =>
      have hfirst := ((h.unblockFirst q prio).mono_bad fun _ _ => trivial).and
        (h.unblockFirst_blocked hw q prio)
      refine hfirst.bind ?_
      rintro t ⟨⟨ht, -⟩, ⟨hf, hfreed⟩ | hun⟩
      · exact (hfreed.unblockAll q prio n).mono fun u hu => .inl ⟨hf, hu⟩
      · refine (ih ht fun q' hq => ?_).mono ?_
        · have hq := (hun.queue q').1 hq
          exact hun.waits q' hq (hw q' hq)
        · rintro u (⟨hf, hu⟩ | hu)
          · exact .inl ⟨(hun.queue q).1 hf, hu⟩
          · exact .inr (hu.after hun)

end Synchronizer

section Waiter

variable {f : F} {w : W} {s : Worker F Q W}

omit [DecidableEq F] in
/-- Nothing is done with the waitable, but it may leave the waiting list. -/
structure Apart (w : W) (s t : Worker F Q W) : Prop where
  waitable : t.waitable w = s.waitable w
  waiting : w ∈ t.waiting → w ∈ s.waiting

/-- Nothing is done with a fiber that is blocked, nor with its alarm. -/
structure Ignored (f : F) (w : W) (s t : Worker F Q W) : Prop extends
  Unmoved f s t, Apart w s t where
  frame : t.frame f = s.frame f

/-- Whatever the computation returns, the fiber and its alarm were ignored. -/
def Ignores (f : F) (w : W) (s : Worker F Q W) (x : Except Fault (Worker F Q W)) : Prop :=
  x.Sat (fun _ => True) (Ignored f w s)

omit [DecidableEq F] in
theorem Ignored.refl (f : F) (w : W) (s : Worker F Q W) : Ignored f w s s :=
  ⟨.refl f s, ⟨rfl, fun h => h⟩, rfl⟩

omit [DecidableEq F] in
theorem Ignored.after {t u : Worker F Q W} (h : Ignored f w t u) (hst : Ignored f w s t) :
    Ignored f w s u :=
  ⟨h.toUnmoved.after hst.toUnmoved, ⟨h.waitable.trans hst.waitable,
    fun hw => hst.waiting (h.waiting hw)⟩, h.frame.trans hst.frame⟩

omit [DecidableEq F] in
/-- The fibers and the queues stay as they are. -/
theorem Ignored.of_eq {t : Worker F Q W} (hf : t.fiber = s.fiber) (hq : t.queue = s.queue)
    (hv : t.waitable w = s.waitable w) (hw : w ∈ t.waiting → w ∈ s.waiting)
    (hframe : t.frame f = s.frame f) : Ignored f w s t :=
  ⟨.of_queue hq fun h => by rwa [hf], ⟨hv, hw⟩, hframe⟩

omit [DecidableEq F] in
theorem FibersOnly.same {t : Worker F Q W} (h : FibersOnly s t) :
    t.waitable = s.waitable ∧ t.waiting = s.waiting ∧ t.frame = s.frame := by
  rw [FibersOnly] at h
  rw [h]
  exact ⟨rfl, rfl, rfl⟩

omit [DecidableEq F] in
theorem Unmoved.ignored {t : Worker F Q W} (h : Unmoved f s t) (hrest : FibersOnly s t) :
    Ignored f w s t := by
  obtain ⟨hv, hw, hframe⟩ := hrest.same
  exact ⟨h, ⟨by rw [hv], fun hmem => hw ▸ hmem⟩, by rw [hframe]⟩

omit [DecidableEq F] in
theorem KeepsBlocked.ignores {x : Except Fault (Worker F Q W)} (h : KeepsBlocked f s x)
    (hrest : KeepsRest s x) : Ignores f w s x :=
  (Except.Sat.and h hrest).mono fun _ ht => ht.1.ignored ht.2

theorem ignores_schedule (created : Contexts F) (prefer : Option (Option F)) (now : ℕ)
    (s : Worker F Q W) :
    (schedule created prefer now s).Sat (fun _ => True) fun x => Ignored f w s x.1 :=
  ((unmoved_schedule created prefer now s).and (rescheduled_schedule created prefer now s)).mono
    fun _ hx => hx.1.ignored hx.2.fibersOnly

theorem ignored_setFrame {g : F} (hg : g ≠ f) (frame : Frame W) (s : Worker F Q W) :
    Ignored f w s (s.setFrame g frame) :=
  .of_eq rfl rfl rfl (fun h => h) (Function.update_of_ne (Ne.symm hg) _ _)

variable [LinearOrder W]

omit [DecidableEq F] in
/-- Another waitable changes. -/
theorem ignored_setWaitable {v : W} (hv : w ≠ v) (x : Waitable F Q) (s : Worker F Q W) :
    Ignored f w s (s.setWaitable v x) :=
  .of_eq rfl rfl (Function.update_of_ne hv _ _) (fun h => h) rfl

omit [DecidableEq F] in
theorem ignored_eraseWaiting (v : W) (s : Worker F Q W) : Ignored f w s (s.eraseWaiting v) :=
  .of_eq rfl rfl rfl List.mem_of_mem_erase rfl

omit [DecidableEq F] in
/-- Another waitable joins the waiting list. -/
theorem ignores_insertWaiting {v : W} (hv : w ≠ v) (s : Worker F Q W) :
    Ignores f w s (insertWaiting v s) := by
  rw [insertWaiting]
  split
  · trivial
  · exact .of_eq rfl rfl rfl (fun h => ((List.mem_orderedInsert _).1 h).resolve_left hv) rfl

theorem ignores_scheduleTask (waiter : F) {v : W} (hv : w ≠ v) (s : Worker F Q W) :
    Ignores f w s (scheduleTask waiter v s) := by
  refine Except.Sat.bind (ignores_insertWaiting (f := f) hv s) fun t ht => ?_
  exact ((keepsBlocked_resume waiter t).ignores (keepsRest_resume waiter t)).mono
    fun _ hu => hu.after ht

/-- Another fiber leaves the worker's queues for another waitable. -/
theorem ignores_enterWaiting (waiter : F) {v : W} (hv : w ≠ v) {g : F} (hg : g ≠ f)
    (s : Worker F Q W) : Ignores f w s (enterWaiting waiter v g s) := by
  have hset := ignored_setWaitable (f := f) hv { s.waitable v with fiber := some g } s
  have hnap : ∀ t : Worker F Q W,
      Ignored f w t (t.setFiber (some g) (t.fiber (some g)).nap) := by
    intro t
    have hun : Unmoved f t (t.setFiber (some g) (t.fiber (some g)).nap) :=
      .of_queue rfl (stillWaits_setFiber fun hr => absurd (Option.some.inj hr) hg)
    exact hun.ignored rfl
  rw [enterWaiting]
  refine Except.Sat.bind
    ((keepsBlocked_release (f := f) g _).ignores (w := w) (keepsRest_release g _)) fun t ht => ?_
  exact (ignores_scheduleTask waiter hv t).mono fun _ hu =>
    hu.after (ht.after ((hnap _).after hset))

/-- The fiber of a waitable is woken, which is not one that is blocked in a queue. -/
theorem Tracked.ignores_wakeTimed (h : s.Tracked) {v : W} (hv : v ∈ s.waiting) {g : F}
    (hg : (s.waitable v).fiber = some g) (prio : Bool) :
    Ignores f w s (Worker.wakeFiber g prio (s.eraseWaiting v)) := by
  have herase : Ignored f w s (s.eraseWaiting v) := ignored_eraseWaiting v s
  by_cases hgf : g = f
  · subst hgf
    obtain ⟨hat, -⟩ := h.consistent.of_mem_waiting hv hg
    have hnot : ∀ q, g ∉ s.queue q := by
      intro q hq
      cases (hat.queued q).1 hq
    refine ((added_wakeFiber g prio (s.eraseWaiting v)).and
      (keepsRest_add_setFiber g prio _ _)).mono ?_
    rintro t ⟨hadded, hrest⟩
    have hun : Unmoved g (s.eraseWaiting v) t :=
      ⟨fun q => by rw [hadded.queue], fun q hq => absurd hq (hnot q)⟩
    exact (hun.ignored hrest).after herase
  · exact ((keepsBlocked_wakeFiber hgf prio _).ignores (keepsRest_add_setFiber g prio _ _)).mono
      fun _ ht => ht.after herase

/-- A waitable that has expired is over: it wakes its fiber, if it has one. -/
theorem Tracked.ignores_expired (h : s.Tracked) {v : W} (hv : v ∈ s.waiting)
    {x : Except Fault (Worker F Q W)}
    (hnone : (s.waitable v).fiber = none → x = .ok (s.eraseWaiting v))
    (hsome : ∀ g, (s.waitable v).fiber = some g →
      x = Worker.wakeFiber g true (s.eraseWaiting v)) : Ignores f w s x := by
  cases hg : (s.waitable v).fiber with
  | none =>
      rw [hnone hg]
      exact ignored_eraseWaiting v s
  | some g =>
      rw [hsome g hg]
      exact h.ignores_wakeTimed hv hg true

/-- `Waiter::wakeup` of any waitable, also of the alarm. -/
theorem Tracked.ignores_wakeup (h : s.Tracked) (hw : (s.waitable w).fiber = none) (v : W) :
    Ignores f w s (Worker.wakeup v s) := by
  rw [Worker.wakeup]
  split
  · rename_i hv
    dsimp only
    split
    · exact ignored_eraseWaiting v s
    · rename_i g hg
      have hg : (s.waitable v).fiber = some g := hg
      have hne : w ≠ v := by
        rintro rfl
        rw [hw] at hg
        cases hg
      exact (h.ignores_wakeTimed hv hg true).map fun t ht =>
        (ignored_setWaitable hne _ t).after ht
  · exact .refl f w s

section Synchronizer

variable [DecidableEq Q]

/-- Another waitable, which is no alarm, is polled. -/
theorem ignores_poll {v : W} (hv : w ≠ v) (hkind : ∀ q g, (s.waitable v).kind ≠ .alarm q g)
    (fired : Bool) (now : ℕ) :
    (poll v fired now s).Sat (fun _ => True) fun x => Ignored f w s x.1 := by
  rw [poll]
  dsimp only
  split
  · exact .refl f w s
  · split
    · exact .refl f w s
    · exact ignored_setWaitable hv _ s
  · rename_i q g hk
    exact absurd hk (hkind q g)

/-- `Waiter::wait` by another fiber. -/
theorem ignores_wait (created : Contexts F) (waiter : F) {v : W} (hv : w ≠ v) {g : F}
    (hg : g ≠ f) (hkind : ∀ q g, (s.waitable v).kind ≠ .alarm q g) (fired slice : Bool)
    (now now' : ℕ) :
    (wait created waiter v fired slice g now now' s).Sat (fun _ => True)
      fun x => Ignored f w s x.1 := by
  rw [wait]
  split
  · exact .refl f w s
  · refine (ignores_poll (f := f) hv hkind fired now).bind ?_
    rintro ⟨t, _ | _⟩ ht
    · refine Except.Sat.bind (ignores_enterWaiting waiter hv hg t) fun u hu => ?_
      exact (ignores_schedule created none now' u).mono fun _ hx => hx.after (hu.after ht)
    · dsimp only
      split
      · exact (ignores_schedule created none now t).mono fun _ hx => hx.after ht
      · exact ht

/-- `Waiter::wait` leaves the frames alone. -/
theorem frame_wait (created : Contexts F) (waiter : F) {v : W}
    (hkind : ∀ q g, (s.waitable v).kind ≠ .alarm q g) (fired slice : Bool) (g : F)
    (now now' : ℕ) :
    (wait created waiter v fired slice g now now' s).Sat (fun _ => True)
      fun x => x.1.frame = s.frame := by
  have hschedule : ∀ (now : ℕ) (t : Worker F Q W), t.frame = s.frame →
      (schedule created none now t).Sat (fun _ => True) fun x => x.1.frame = s.frame := by
    intro now t ht
    exact (rescheduled_schedule created none now t).mono fun x hx =>
      hx.fibersOnly.same.2.2.trans ht
  have henter : ∀ t : Worker F Q W, t.frame = s.frame →
      (enterWaiting waiter v g t).Sat (fun _ => True) fun u => u.frame = s.frame := by
    intro t ht
    rw [enterWaiting]
    refine Except.Sat.bind (keepsRest_release g _) fun u hu => ?_
    rw [scheduleTask, insertWaiting]
    split
    · trivial
    · exact (keepsRest_resume waiter _).mono fun _ hx =>
        hx.same.2.2.trans (hu.same.2.2.trans ht)
  have hpoll : (poll v fired now s).Sat (fun _ => True) fun x => x.1.frame = s.frame := by
    rw [poll]
    dsimp only
    split
    · rfl
    · split
      · rfl
      · rfl
    · rename_i q g hk
      exact absurd hk (hkind q g)
  rw [wait]
  split
  · rfl
  · refine hpoll.bind ?_
    rintro ⟨t, _ | _⟩ ht
    · exact (henter t ht).bind fun u hu => hschedule now' u hu
    · dsimp only
      split
      · exact hschedule now t ht
      · exact ht

/-- A block with timeout by another fiber. -/
theorem ignores_blockUntil (created : Contexts F) (waiter : F) (q : Q) {v : W} (hv : w ≠ v)
    (timeout : ℕ) {g : F} (hg : g ≠ f) (now : ℕ) (s : Worker F Q W) :
    (blockUntil created waiter q v timeout g now s).Sat (fun _ => True)
      fun x => Ignored f w s x.1 := by
  refine Except.Sat.bind ((keepsBlocked_enterQueue (f := f) q hg s).ignores (w := w)
    (keepsRest_enterQueue q g s)) fun t ht => ?_
  have hset : Ignored f w t { (t.setWaitable v ⟨timeout, none, .alarm q g, false⟩).setFrame g
      (.alarm v) with owner := Function.update t.owner v (some g) } :=
    .of_eq rfl rfl (Function.update_of_ne hv _ _) (fun h => h)
      (Function.update_of_ne (Ne.symm hg) _ _)
  refine Except.Sat.bind (ignores_scheduleTask (f := f) waiter hv _) fun u hu => ?_
  exact (ignores_schedule created none now u).mono fun _ hx =>
    hx.after (hu.after (hset.after ht))

/-- An alarm of another fiber, or another waitable, expires. -/
theorem Tracked.ignores_expire (h : s.Tracked) (hf : s.frame f = .alarm w) {v : W}
    (hv : v ∈ s.waiting) (hne : w ≠ v) (fired : Bool) (now : ℕ) :
    Ignores f w s (Worker.expire v fired now s) := by
  have herase : Ignored f w s (s.eraseWaiting v) := ignored_eraseWaiting v s
  have hfiber : ((s.eraseWaiting v).waitable v).fiber = (s.waitable v).fiber := rfl
  have hback : Ignores f w s (Worker.insertWaiting v (s.eraseWaiting v)) :=
    (ignores_insertWaiting hne _).mono fun _ ht => ht.after herase
  rw [Worker.expire, poll]
  dsimp only
  rw [show ((s.eraseWaiting v).waitable v) = s.waitable v from rfl]
  cases hk : (s.waitable v).kind with
  | timed =>
      cases decide ((s.waitable v).timeout ≤ now) with
      | true =>
          refine h.ignores_expired hv (fun hg => ?_) fun g hg => ?_ <;>
            simp only [Except.bind, hfiber, hg]
      | false => exact hback
  | polled interval =>
      cases fired with
      | true =>
          refine h.ignores_expired hv (fun hg => ?_) fun g hg => ?_ <;>
            simp only [Except.bind, ↓reduceIte, hfiber, hg]
      | false =>
          refine (ignores_insertWaiting hne _).mono fun _ ht => ht.after ?_
          exact (ignored_setWaitable hne _ _).after herase
  | alarm q g =>
      dsimp only
      split
      · -- The alarm is that of another fiber.
        have hgf : g ≠ f := by
          rintro rfl
          have := (h.rings v q g hv hk).symm.trans hf
          exact hne (Frame.alarm.inj this).symm
        have hnone := h.alarms.kind v q g hv hk
        refine Except.Sat.bind (P := fun x => x.2 = true ∧ Ignored f w s x.1 ∧
          (x.1.waitable v).fiber = none) ?_ ?_
        · refine ((unmoved_unblock q hgf false _).and (keepsRest_unblock q g false _)).map ?_
          rintro ⟨t, rang⟩ ⟨hun, hrest⟩
          have hign : Ignored f w (s.eraseWaiting v) t := hun.ignored hrest
          obtain ⟨hv, -, -⟩ := hrest.same
          refine ⟨rfl, (ignored_setWaitable hne _ _).after (hign.after herase), ?_⟩
          have hfiber : (t.waitable v).fiber = none := (congrArg _ (congrFun hv v)).trans hnone
          simpa [Worker.setWaitable] using hfiber
        · rintro ⟨t, done⟩ ⟨rfl, ht, hnone⟩
          dsimp only at ht hnone ⊢
          rw [hnone]
          exact ht
      · exact hback

/-- The alarm expires. If it is due, it takes its fiber out of the queue, unless that is
not there any more. -/
theorem Tracked.expire_alarm (h : s.Tracked) (hw : w ∈ s.waiting) {q : Q}
    (hk : (s.waitable w).kind = .alarm q f)
    (hwaits : ∀ q, f ∈ s.queue q → (s.fiber (some f)).state = .waiting) (fired : Bool) (now : ℕ) :
    (Worker.expire w fired now s).Sat (fun _ => True) fun t => Ignored f w s t ∨
      ((t.waitable w).kind = .alarm q f ∧ w ∉ t.waiting ∧ t.frame = s.frame ∧
        ((f ∈ s.queue q ∧ Freed f t ∧ (t.waitable w).rang = true) ∨
          (Unmoved f s t ∧ (t.waitable w).rang = false))) := by
  have hnone := h.alarms.kind w q f hw hk
  have hnot : w ∉ (s.eraseWaiting w).waiting := h.consistent.nodups.waiting.not_mem_erase
  rw [Worker.expire, poll]
  dsimp only
  rw [show ((s.eraseWaiting w).waitable w) = s.waitable w from rfl, hk]
  dsimp only
  split
  · refine Except.Sat.bind (P := fun x => x.2 = true ∧ (x.1.waitable w).fiber = none ∧
      (x.1.waitable w).kind = .alarm q f ∧ w ∉ x.1.waiting ∧ x.1.frame = s.frame ∧
        ((f ∈ s.queue q ∧ Freed f x.1 ∧ (x.1.waitable w).rang = true) ∨
          (Unmoved f s x.1 ∧ (x.1.waitable w).rang = false))) ?_ ?_
    · refine (((h.eraseWaiting hnone).unblock_blocked hwaits q f false).and
        (keepsRest_unblock q f false _)).map ?_
      rintro ⟨t, rang⟩ ⟨htake, hrest⟩
      dsimp only at htake hrest ⊢
      obtain ⟨hv, hwaiting, hframe⟩ := hrest.same
      have hfiber : (t.waitable w).fiber = none := (congrArg _ (congrFun hv w)).trans hnone
      have hkind : (t.waitable w).kind = .alarm q f := (congrArg _ (congrFun hv w)).trans hk
      refine ⟨rfl, ?_, ?_, fun hwt => hnot (hwaiting ▸ hwt), hframe, ?_⟩
      · simpa [Worker.setWaitable] using hfiber
      · simpa [Worker.setWaitable] using hkind
      · obtain ⟨hf, -, rfl, hfreed⟩ | ⟨hrang, hun⟩ := htake
        · exact .inl ⟨hf, ⟨hfreed.1, hfreed.2, hfreed.3⟩, by simp [Worker.setWaitable]⟩
        · obtain rfl := hrang rfl
          exact .inr ⟨⟨hun.1, hun.2⟩, by simp [Worker.setWaitable]⟩
    · rintro ⟨t, done⟩ ⟨rfl, hnone, ht⟩
      dsimp only at hnone ht ⊢
      rw [hnone]
      exact .inr ht
  · have hback : (Worker.insertWaiting w (s.eraseWaiting w)).Sat (fun _ => True)
        (Ignored f w s) := by
      rw [Worker.insertWaiting, if_neg hnot]
      exact .of_eq rfl rfl rfl (fun _ => hw) rfl
    exact hback.mono fun t ht => .inl ht

end Synchronizer

end Waiter

end Worker

end Zth
