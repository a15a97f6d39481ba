import Zth.Worker.Footprint
import Zth.Worker.Place

/-!
# Scheduling

`schedule` leaves every fiber in a place that fits its state, and it only comes to an
end with a current fiber that runs: it never tries to run a fiber that waits or is
suspended, since such a fiber is not in the runnable queue.
-/

namespace Zth

/-- The faults that are not excluded here: the worker fiber may be switched to itself
when the worker is told to stop, and a context cannot always be created. -/
def Fault.Open (e : Fault) : Prop := e = .selfSwitch ∨ e = .abort

/-- The faults of the operations that do not switch. -/
def Fault.Plain (e : Fault) : Prop := e ≠ .selfSwitch

theorem Fault.plain_addWaiting : Fault.addWaiting.Plain := by simp [Plain]

theorem Fault.plain_list : Fault.list.Plain := by simp [Plain]

theorem Fault.plain_abort : Fault.abort.Plain := by simp [Plain]

namespace Worker

variable {F Q W : Type*} [DecidableEq F] {fits : Fiber → Place Q W → Prop}

/-- No fiber runs that is not the current one. The worker fiber is ready while another
fiber runs. -/
structure OneRunning (s : Worker F Q W) : Prop where
  current : ∀ f, (s.fiber (some f)).state = .running → s.currentFiber = some f
  worker : (s.fiber none).state = .ready ∨
    (s.currentFiber = none ∧ (s.fiber none).state = .running)

/-- The current fiber is the one that runs. -/
structure Turn (s : Worker F Q W) : Prop extends OneRunning s where
  running : ∀ f, s.currentFiber = some f → (s.fiber (some f)).state = .running

/-- The current fiber is not in a state in which it can be switched to. -/
def Busy (s : Worker F Q W) : Prop :=
  (s.fiber s.currentFiber).state ≠ .new ∧ (s.fiber s.currentFiber).state ≠ .ready

/-- The faults of `schedule`: the current fiber is switched to itself, unless it is busy, or the
worker aborts. -/
def Risks (s : Worker F Q W) (e : Fault) : Prop := (e = .selfSwitch ∧ ¬ s.Busy) ∨ e = .abort

omit [DecidableEq F] in
theorem Risks.open {s : Worker F Q W} {e : Fault} (h : s.Risks e) : e.Open :=
  h.imp_left And.left

omit [DecidableEq F] in
/-- An attempt fails as one from another state does, in which the current fiber is the same. -/
theorem Risks.of_eq {s t : Worker F Q W} {e : Fault} (h : t.Risks e)
    (hcur : t.currentFiber = s.currentFiber)
    (hfiber : t.fiber s.currentFiber = s.fiber s.currentFiber) : s.Risks e := by
  rwa [Risks, Busy, hcur, hfiber] at h

/-- The fiber that is tried next: the worker fiber, or one in the runnable queue. -/
def Eligible (next : Option F) (s : Worker F Q W) : Prop :=
  ∀ f, next = some f → f ∈ s.runnableQueue

/-- What `schedule` relies on: the states of the fibers in the runnable queue, and that a
fiber stays in its place when it starts or stops. -/
structure Schedulable (fits : Fiber → Place Q W → Prop) : Prop where
  runnable : ∀ x, fits x .runnable → x.state = .new ∧ x.stateNext = .ready ∨
    x.state = .ready ∨ x.state = .running ∨ x.state = .dead
  stop : ∀ x p, x.state = .running → fits x p → fits { x with state := .ready } p
  start : ∀ x p, x.state = .ready → fits x p → fits x.start p
  init : ∀ x p, x.state = .new → x.stateNext = .ready → fits x p → fits x.init p
  nowhere : ∀ x, x.state = .dead → x.used = false → fits x .nowhere

theorem schedulable_fits : Schedulable (Fiber.Fits : Fiber → Place Q W → Prop) where
  runnable _ h := h.2
  stop x p hrun h := by cases p <;> simp_all [Fiber.Fits]
  start x p hready h := by cases p <;> simp_all [Fiber.Fits, Fiber.start]
  init x p hnew hnext h := by cases p <;> simp_all [Fiber.Fits, Fiber.init]
  nowhere _ hdead hused := ⟨hused, .inr hdead⟩

theorem Schedulable.fits_stop (hfits : Schedulable fits) {x : Fiber} {p : Place Q W}
    (h : fits x p) : fits x.stop p := by
  unfold Fiber.stop
  split
  · rename_i hrun
    exact hfits.stop x p hrun h
  · exact h

omit [DecidableEq F] in
/-- The states in which a fiber that is tried next can be. -/
theorem ConsistentBy.state_of_eligible {s : Worker F Q W} (h : s.ConsistentBy fits)
    (hfits : Schedulable fits) (ho : s.OneRunning) {next : Option F}
    (hnext : Eligible next s) :
    (s.fiber next).state = .new ∧ (s.fiber next).stateNext = .ready ∨
      (s.fiber next).state = .ready ∨ (s.fiber next).state = .running ∨
      (s.fiber next).state = .dead := by
  cases next with
  | none => exact Or.inr (ho.worker.imp_right fun h => Or.inl h.2)
  | some f => exact hfits.runnable _ (h.of_mem_runnable (hnext f rfl)).2.2

/-- What an attempt to switch comes to. -/
def Dispatched (fits : Fiber → Place Q W → Prop) (next : Option F) (s : Worker F Q W) :
    Worker F Q W × Run → Prop
  | (t, .switched) | (t, .eagain) => t.ConsistentBy fits ∧ t.Turn
  | (t, .eperm) => t.ConsistentBy fits ∧ t.OneRunning ∧
      t.runnableQueue.Perm s.runnableQueue ∧ (t.fiber next).state = .dead ∧
      t.currentFiber = s.currentFiber ∧ t.fiber = s.fiber

omit [DecidableEq F] in
theorem Dispatched.of_perm {s : Worker F Q W} {next : Option F} {l : List F}
    {x : Worker F Q W × Run} (h : Dispatched fits next { s with runnableQueue := l } x)
    (hp : l.Perm s.runnableQueue) : Dispatched fits next s x := by
  match x, h with
  | (t, .switched), h => exact h
  | (t, .eagain), h => exact h
  | (t, .eperm), ⟨h₁, h₂, h₃, h₄⟩ => exact ⟨h₁, h₂, h₃.trans hp, h₄⟩

theorem switchTo_fiber_next (next : Option F) (s : Worker F Q W)
    (hne : s.currentFiber ≠ next) :
    (s.switchTo next).fiber next = (s.fiber next).start := by
  simp [switchTo, setFiber_fiber, Function.update_of_ne (Ne.symm hne)]

theorem switchTo_fiber_current (next : Option F) (s : Worker F Q W)
    (hne : s.currentFiber ≠ next) :
    (s.switchTo next).fiber s.currentFiber = (s.fiber s.currentFiber).stop := by
  simp [switchTo, setFiber_fiber, Function.update_of_ne hne]

theorem switchTo_fiber_of_ne {next r : Option F} (s : Worker F Q W) (hr : r ≠ next)
    (hr' : r ≠ s.currentFiber) : (s.switchTo next).fiber r = s.fiber r := by
  simp [switchTo, setFiber_fiber, Function.update_of_ne hr, Function.update_of_ne hr']

theorem stop_linked (x : Fiber) : x.stop.linked = x.linked := by
  unfold Fiber.stop
  split <;> rfl

theorem stop_ne_running (x : Fiber) : x.stop.state ≠ .running := by
  unfold Fiber.stop
  split
  · simp
  · assumption

theorem ConsistentBy.switchTo {s : Worker F Q W} (h : s.ConsistentBy fits)
    (hfits : Schedulable fits) {next : Option F} (hready : (s.fiber next).state = .ready)
    (hne : s.currentFiber ≠ next) : (s.switchTo next).ConsistentBy fits := by
  have hnext := setFiber_fiber_of_ne s (s.fiber s.currentFiber).stop (Ne.symm hne)
  have hstop := h.setFiber (stop_linked (s.fiber s.currentFiber)) fun _ => hfits.fits_stop
  have hstart := hstop.setFiber (r := next) (x := (s.fiber next).start) (by rw [hnext]; rfl)
    fun p hp => hfits.start _ p hready (by rwa [hnext] at hp)
  refine hstart.congr ?_ rfl rfl rfl rfl rfl
  simp only [Worker.switchTo, hnext]

theorem OneRunning.switchTo {s : Worker F Q W} (h : s.OneRunning) {next : Option F}
    (hne : s.currentFiber ≠ next) : (s.switchTo next).Turn := by
  have hnext := switchTo_fiber_next next s hne
  have hcur := switchTo_fiber_current next s hne
  refine ⟨⟨fun f hf => ?_, ?_⟩, fun f hf => ?_⟩
  · by_contra hfn
    have hfn : some f ≠ next := fun h => hfn h.symm
    by_cases hfc : some f = s.currentFiber
    · rw [hfc, hcur] at hf
      exact stop_ne_running _ hf
    · rw [switchTo_fiber_of_ne s hfn hfc] at hf
      exact hfc (h.current f hf).symm
  · cases next with
    | none => exact Or.inr ⟨rfl, by rw [hnext]; rfl⟩
    | some f =>
        refine Or.inl ?_
        rcases h.worker with hw | ⟨hc, hw⟩
        · by_cases hc : none = s.currentFiber
          · rw [hc, hcur, ← hc, Fiber.stop, hw]
            exact hw
          · rw [switchTo_fiber_of_ne s (by simp) hc]
            exact hw
        · rw [hc] at hcur
          rw [hcur, Fiber.stop, if_pos hw]
  · have hf : next = some f := hf
    rw [← hf, hnext]
    rfl

/-- `Fiber::run` of a fiber that is ready. -/
theorem dispatch_ready (hfits : Schedulable fits) {s : Worker F Q W} (h : s.ConsistentBy fits)
    (ho : s.OneRunning) {next : Option F} (hready : (s.fiber next).state = .ready) :
    (dispatch next s).Sat (fun e => e = .selfSwitch ∧ s.currentFiber = next) fun x =>
      x.2 = .switched ∧ x.1.ConsistentBy fits ∧ x.1.Turn := by
  by_cases hcur : s.currentFiber = next
  · simp only [dispatch, hready, if_pos hcur]
    exact ⟨rfl, hcur⟩
  · simp only [dispatch, hready, if_neg hcur]
    exact ⟨rfl, h.switchTo hfits hready hcur, ho.switchTo hcur⟩

omit [DecidableEq F] in
/-- A fiber that can be switched to is tried, and switched to unless it is the current one. -/
theorem Dispatched.of_switched {s s' : Worker F Q W} {next : Option F}
    {x : Except Fault (Worker F Q W × Run)}
    (hx : x.Sat (fun e => e = .selfSwitch ∧ s'.currentFiber = next) fun y =>
      y.2 = .switched ∧ y.1.ConsistentBy fits ∧ y.1.Turn)
    (hcur : s'.currentFiber = s.currentFiber)
    (hstate : (s.fiber next).state = .new ∨ (s.fiber next).state = .ready) :
    x.Sat s.Risks (Dispatched fits next s) := by
  refine (hx.mono_bad ?_).mono ?_
  · rintro e ⟨rfl, hnext⟩
    refine .inl ⟨rfl, fun hbusy => ?_⟩
    rw [Busy, ← hcur, hnext] at hbusy
    exact hstate.elim hbusy.1 hbusy.2
  · rintro ⟨t, r⟩ ⟨rfl, ht⟩
    exact ht

/-- `Fiber::run` of a fiber that has its context. -/
theorem dispatch_sat (hfits : Schedulable fits) {s : Worker F Q W} (h : s.ConsistentBy fits)
    (ho : s.OneRunning) {next : Option F} (hstate : (s.fiber next).state = .ready ∨
      (s.fiber next).state = .running ∨ (s.fiber next).state = .dead) :
    (dispatch next s).Sat s.Risks (Dispatched fits next s) := by
  rcases hstate with hstate | hstate | hstate
  · exact Dispatched.of_switched (dispatch_ready hfits h ho hstate) rfl (.inr hstate)
  · by_cases hcur : s.currentFiber = next
    · simp only [dispatch, hstate, if_pos hcur]
      refine ⟨h, ho, fun f hf => ?_⟩
      rw [← hf, hcur]
      exact hstate
    · simp only [dispatch, hstate, if_neg hcur]
      exact Or.inr rfl
  · simp only [dispatch, hstate]
    exact ⟨h, ho, List.Perm.refl _, hstate, rfl, rfl⟩

/-- `Fiber::run`. -/
theorem run_sat (hfits : Schedulable fits) (created : Contexts F) {s : Worker F Q W}
    (h : s.ConsistentBy fits) (ho : s.OneRunning) {next : Option F} (hnext : Eligible next s) :
    (run created next s).Sat s.Risks (Dispatched fits next s) := by
  refine sat_run (fun hnew _ => ?_) (fun _ _ => Or.inr rfl) fun hnew => ?_
  · rcases h.state_of_eligible hfits ho hnext with ⟨-, hready⟩ | hstate
    · have hinit : ((s.setFiber next (s.fiber next).init).fiber next).state = .ready := by
        rw [setFiber_fiber_self]
        exact hready
      have hcons : (s.setFiber next (s.fiber next).init).ConsistentBy fits :=
        h.setFiber rfl fun p => hfits.init _ p hnew hready
      have hone : (s.setFiber next (s.fiber next).init).OneRunning := by
        refine ⟨fun f hf => ?_, ?_⟩
        · by_cases hfn : some f = next
          · rw [hfn, hinit] at hf
            cases hf
          · rw [setFiber_fiber_of_ne s _ hfn] at hf
            exact ho.current f hf
        · cases next with
          | none => exact Or.inl hinit
          | some g =>
              rw [setFiber_fiber_of_ne s _ (by simp)]
              exact ho.worker
      exact Dispatched.of_switched (dispatch_ready hfits hcons hone hinit) rfl (.inl hnew)
    · rcases hstate with hstate | hstate | hstate <;> simp [hnew] at hstate
  · exact dispatch_sat hfits h ho ((h.state_of_eligible hfits ho hnext).resolve_left fun hx =>
      hnew hx.1)

/-- The fiber that is picked goes to the back, together with those in front of it. -/
theorem rotateBehind_append {f : F} {l r : List F} (h : f ∉ l) :
    rotateBehind f (l ++ f :: r) = r ++ l ++ [f] := by
  have hl : ∀ g ∈ l, decide (g ≠ f) = true := by
    intro g hg
    rw [decide_eq_true_eq]
    rintro rfl
    exact h hg
  rw [rotateBehind, List.dropWhile_append_of_pos hl, List.takeWhile_append_of_pos hl]
  simp

theorem rotateBehind_cons (f : F) (l : List F) : rotateBehind f (f :: l) = l ++ [f] := by
  have := rotateBehind_append (f := f) (l := []) (r := l) List.not_mem_nil
  rwa [List.append_nil] at this

theorem rotateBehind_perm {f : F} {l : List F} (h : f ∈ l) :
    (rotateBehind f l).Perm l := by
  obtain ⟨a, b, hl, ha⟩ := List.eq_append_cons_of_mem h
  rw [hl, rotateBehind_append ha]
  calc b ++ a ++ [f] = b ++ (a ++ [f]) := List.append_assoc _ _ _
    _ |>.Perm (a ++ [f] ++ b) := List.perm_append_comm
    _ = a ++ f :: b := by rw [List.append_assoc, List.singleton_append]

omit [DecidableEq F] in
/-- A queue with the same fibers, in whatever order. -/
theorem ConsistentBy.perm_runnable {s : Worker F Q W} (h : s.ConsistentBy fits) {l : List F}
    (hl : l.Perm s.runnableQueue) : { s with runnableQueue := l }.ConsistentBy fits := by
  have hn := h.nodups
  refine ⟨⟨hl.nodup_iff.2 hn.runnable, hn.suspended, hn.queue, hn.waiting⟩, fun f => ?_⟩
  have hsame : SamePlace s { s with runnableQueue := l } f :=
    ⟨hl.mem_iff, Iff.rfl, fun _ => Iff.rfl, fun _ => Iff.rfl⟩
  exact hsame.placed rfl (h.placed f)

/-- One attempt of `schedule`. -/
theorem attempt_sat (hfits : Schedulable fits) (created : Contexts F)
    {s : Worker F Q W} (h : s.ConsistentBy fits) (ho : s.OneRunning) {next : Option F}
    (hnext : Eligible next s) :
    (attempt created next s).Sat s.Risks (Dispatched fits next s) := by
  cases next with
  | none => exact run_sat hfits created h ho hnext
  | some f =>
      have hf := hnext f rfl
      have hperm := rotateBehind_perm hf
      rw [attempt, if_pos hf]
      have helig : Eligible (some f)
          { s with runnableQueue := rotateBehind f s.runnableQueue } :=
        fun g hg => hperm.mem_iff.2 (hnext g hg)
      have hrun := run_sat hfits created (h.perm_runnable hperm) ⟨ho.1, ho.2⟩ helig
      exact hrun.mono fun _ hd => hd.of_perm hperm

/-- A change of a fiber that neither starts nor stops it. -/
theorem OneRunning.setFiber {s : Worker F Q W} (h : s.OneRunning) {f : F} {x : Fiber}
    (hx : x.state = .running → (s.fiber (some f)).state = .running) :
    (s.setFiber (some f) x).OneRunning := by
  refine ⟨fun g hg => ?_, ?_⟩
  · by_cases hgf : some g = some f
    · rw [hgf, setFiber_fiber_self] at hg
      exact h.current g (by rw [hgf]; exact hx hg)
    · rw [setFiber_fiber_of_ne s x hgf] at hg
      exact h.current g hg
  · rw [setFiber_fiber_of_ne s x (by simp)]
    exact h.worker

/-- A fiber leaves the runnable queue, and is released. -/
theorem remove_eq {s : Worker F Q W} {f : F} (hf : f ∈ s.runnableQueue) :
    remove f s = .ok (setFiber (some f) { s.fiber (some f) with linked := false, used := false }
      { s with runnableQueue := s.runnableQueue.erase f }) := by
  rw [remove, if_pos hf]
  simp [setLinked, setFiber_setFiber, setFiber_fiber_self]

/-- A dead fiber is cleaned up. -/
theorem remove_sat (hfits : Schedulable fits) {s : Worker F Q W} (h : s.ConsistentBy fits)
    (ho : s.OneRunning) {f : F} (hf : f ∈ s.runnableQueue)
    (hdead : (s.fiber (some f)).state = .dead) :
    ∃ t, remove f s = .ok t ∧ t.ConsistentBy fits ∧ t.OneRunning ∧
      t.runnableQueue = s.runnableQueue.erase f ∧ t.currentFiber = s.currentFiber ∧
      ∀ r, r ≠ some f → t.fiber r = s.fiber r := by
  have hdet := h.detach_runnable hf
  refine ⟨_, by rw [remove, if_pos hf], (hdet.setFiber ?_).rest ?_, ?_, rfl, rfl, fun r hr => ?_⟩
  · exact hdet.unlinked
  · rw [setFiber_fiber_self, setLinked_fiber_self]
    exact hfits.nowhere _ hdead rfl
  · have hone : OneRunning { s with runnableQueue := s.runnableQueue.erase f } :=
      ⟨ho.1, ho.2⟩
    have hlink := hone.setFiber (f := f)
      (x := { s.fiber (some f) with linked := false }) fun h => h
    refine hlink.setFiber ?_
    intro hrun
    exact hrun
  · exact (setFiber_fiber_of_ne _ _ hr).trans (setFiber_fiber_of_ne _ _ hr)

/-- The loop of `schedule` ends, with a current fiber that runs. -/
theorem reschedule_sat (hfits : Schedulable fits) (created : Contexts F)
    {s : Worker F Q W} (h : s.ConsistentBy fits) (ho : s.OneRunning)
    {prefer : Option (Option F)} {did : Bool} {n : ℕ} (hn : s.runnableQueue.length < n)
    (hprefer : ∀ f, prefer = some (some f) → f ∈ s.runnableQueue) :
    (reschedule created n prefer did s).Sat s.Risks fun x =>
      x.1.ConsistentBy fits ∧ x.1.Turn := by
  induction n generalizing s prefer did with
  | zero => exact absurd hn (Nat.not_lt_zero _)
  | succ n ih =>
      have helig : Eligible (prefer.getD s.runnableQueue.head?) s := by
        intro f hf
        cases prefer with
        | none => exact List.mem_of_mem_head? hf
        | some r => exact hprefer f (by rw [← hf]; rfl)
      rw [reschedule]
      refine (attempt_sat hfits created h ho helig).bind ?_
      rintro ⟨t, _ | _ | _⟩ hd
      · exact hd
      · exact hd
      · obtain ⟨hcons, hone, hperm, hdead, hcur, hfiber⟩ := hd
        cases hnext : prefer.getD s.runnableQueue.head? with
        | none => exact Or.inr rfl
        | some f =>
            rw [hnext] at hdead
            have hf : f ∈ t.runnableQueue := hperm.mem_iff.2 (helig f hnext)
            dsimp only
            split
            · -- The current fiber is dead, and the worker fiber takes over.
              have hnone : Eligible none t := by simp [Eligible]
              have hsat := (attempt_sat hfits created hcons hone hnone).mono_bad fun e he =>
                he.of_eq hcur (congrFun hfiber _)
              refine hsat.bind ?_
              rintro ⟨u, _ | _ | _⟩ hd
              · exact hd
              · exact Or.inr rfl
              · exact Or.inr rfl
            · rename_i hne
              obtain ⟨u, hu, hucons, huone, huq, hucur, hufiber⟩ :=
                remove_sat hfits hcons hone hf hdead
              have hlen : u.runnableQueue.length < n := by
                have := List.length_erase_of_mem hf
                have := hperm.length_eq
                have := List.length_pos_of_mem hf
                rw [huq]
                omega
              refine Except.Sat.bind_of_ok hu ((ih hucons huone hlen (by simp)).mono_bad ?_)
              intro e he
              refine he.of_eq (hucur.trans hcur) ?_
              rw [hufiber _ (hcur ▸ hne), hfiber]

/-- `schedule` by a fiber, whatever state it is in, or by the context of the worker. -/
theorem schedule_sat (hfits : Schedulable fits) (created : Contexts F)
    (prefer : Option (Option F)) (now : ℕ) {s : Worker F Q W} (h : s.ConsistentBy fits)
    (ho : s.OneRunning) (henabled : s.disableContextSwitch = 0) :
    (schedule created prefer now s).Sat s.Risks fun x =>
      x.1.ConsistentBy fits ∧ x.1.Turn := by
  rw [schedule, if_neg (not_not.2 henabled)]
  split
  · exact Or.inr rfl
  · rename_i hpref
    refine reschedule_sat hfits created h ho (Nat.lt_succ_self _) ?_
    intro f hf
    split at hf
    · cases hf
    · subst hf
      simpa [preferable] using hpref

end Worker

end Zth
