import Mathlib.Data.List.Find
import Zth.Worker.Kill

/-!
# Which fiber `schedule` chooses

`schedule` takes the first fiber of the runnable queue that is not dead, and cleans up
the dead ones before it. The fiber that calls it is in the queue as well: it was moved
to the back when it started to run, but fibers that it makes runnable may be added
behind it. If it finds itself first, `schedule` returns without having switched, even
though other fibers can run.
-/

namespace Zth

/-- The fiber can be switched to, once it has its context. -/
def Fiber.CanRun (x : Fiber) : Prop :=
  x.state = .new ∧ x.stateNext = .ready ∨ x.state = .ready

theorem Fiber.CanRun.ne_dead {x : Fiber} (h : x.CanRun) : x.state ≠ .dead := by
  obtain ⟨hnew, -⟩ | hready := h <;> simp [*]

namespace Worker

variable {F Q W : Type*}

/-- A fiber in the runnable queue that is neither the current one nor dead can run. -/
theorem Tracked.canRun {s : Worker F Q W} (h : s.Tracked) {f : F} (hf : f ∈ s.runnableQueue)
    (hcur : s.currentFiber ≠ some f) (hdead : (s.fiber (some f)).state ≠ .dead) :
    (s.fiber (some f)).CanRun := by
  obtain hnew | hready | hrun | hd := (h.consistent.of_mem_runnable hf).2.2.2
  · exact .inl hnew
  · exact .inr hready
  · exact absurd (h.one.current f hrun) hcur
  · exact absurd hd hdead

/-- The first fiber in the runnable queue that is not dead. -/
def firstAlive (s : Worker F Q W) : Option F :=
  s.runnableQueue.find? fun f => decide ((s.fiber (some f)).state ≠ .dead)

theorem firstAlive_of_dead {s t : Worker F Q W} {f : F} {l : List F}
    (hs : s.runnableQueue = f :: l) (ht : t.runnableQueue = l) (hf : f ∉ l)
    (hdead : (s.fiber (some f)).state = .dead)
    (hfiber : ∀ r, r ≠ some f → t.fiber r = s.fiber r) : t.firstAlive = s.firstAlive := by
  rw [firstAlive, firstAlive, hs, ht, List.find?_cons_of_neg (by simp [hdead])]
  refine List.find?_congr fun g hg => ?_
  have hgf : some g ≠ some f := by
    rintro ⟨⟩
    exact hf hg
  rw [hfiber (some g) hgf]

theorem firstAlive_of_alive {s : Worker F Q W} {f : F} {l : List F}
    (hs : s.runnableQueue = f :: l) (hf : (s.fiber (some f)).state ≠ .dead) :
    s.firstAlive = some f := by
  rw [firstAlive, hs, List.find?_cons_of_pos (by simp [hf])]

theorem mem_of_firstAlive {s : Worker F Q W} {f : F} (h : s.firstAlive = some f) :
    f ∈ s.runnableQueue ∧ (s.fiber (some f)).state ≠ .dead :=
  ⟨List.mem_of_find?_eq_some h, by simpa using List.find?_some h⟩

variable [DecidableEq F] {s : Worker F Q W} {f : F} {l : List F}

/-- An attempt with the first fiber of the queue. -/
theorem attempt_head (created : Contexts F) (hs : s.runnableQueue = f :: l) :
    attempt created (some f) s = run created (some f) { s with runnableQueue := l ++ [f] } := by
  rw [attempt, if_pos (by simp [hs]), hs, rotateBehind_cons]

/-- The current fiber finds itself first. -/
theorem reschedule_running (created : Contexts F) (n : ℕ) (did : Bool)
    (hs : s.runnableQueue = f :: l) (hcur : s.currentFiber = some f)
    (hrun : (s.fiber (some f)).state = .running) :
    reschedule created (n + 1) none did s =
      .ok ({ s with runnableQueue := l ++ [f] }, .returned did) := by
  have hattempt : attempt created (some f) s =
      .ok ({ s with runnableQueue := l ++ [f] }, .eagain) := by
    rw [attempt_head created hs, run, if_neg (by simp [hrun]), dispatch]
    simp [hrun, hcur]
  simp [reschedule, hs, hattempt, Except.bind]

/-- A dead fiber that comes first is cleaned up. -/
theorem reschedule_dead (created : Contexts F) (n : ℕ) (did : Bool)
    (hs : s.runnableQueue = f :: l) (hf : f ∉ l) (hcur : s.currentFiber ≠ some f)
    (hdead : (s.fiber (some f)).state = .dead) :
    ∃ t, reschedule created (n + 1) none did s = reschedule created n none true t ∧
      t.runnableQueue = l ∧ t.currentFiber = s.currentFiber ∧
      ∀ r, r ≠ some f → t.fiber r = s.fiber r := by
  have hattempt : attempt created (some f) s =
      .ok ({ s with runnableQueue := l ++ [f] }, .eperm) := by
    rw [attempt_head created hs, run, if_neg (by simp [hdead]), dispatch]
    simp [hdead]
  have hremove : remove f { s with runnableQueue := l ++ [f] } =
      .ok (setFiber (some f) { s.fiber (some f) with linked := false, used := false }
        { s with runnableQueue := l }) := by
    rw [remove_eq (by simp), List.erase_append_right _ hf, List.erase_cons_head, List.append_nil]
  refine ⟨setFiber (some f) { s.fiber (some f) with linked := false, used := false }
    { s with runnableQueue := l }, ?_, rfl, rfl, fun r hr => setFiber_fiber_of_ne _ _ hr⟩
  simp only [reschedule, hs, Option.getD_none, List.head?_cons, hattempt, Except.bind, hcur,
    if_false, hremove]

/-- A fiber that can be run and comes first is switched to, if its context can be created. -/
theorem reschedule_runnable (created : Contexts F) (n : ℕ) (did : Bool)
    (hs : s.runnableQueue = f :: l) (hcur : s.currentFiber ≠ some f)
    (hstate : (s.fiber (some f)).CanRun) :
    (reschedule created (n + 1) none did s).Sat
      (fun e => e = .abort ∧ created.res (some f) = .other)
      fun x => x.2 = .switched ∧ x.1.currentFiber = some f := by
  have hattempt : (attempt created (some f) s).Sat
      (fun e => e = .abort ∧ created.res (some f) = .other)
      fun x => x.2 = .switched ∧ x.1.currentFiber = some f := by
    rw [attempt_head created hs]
    refine sat_run (fun hnew _ => ?_) (fun _ hc => ⟨rfl, hc⟩) fun hnew => ?_
    · obtain ⟨-, hnext⟩ | hready := hstate
      · simp [dispatch, setFiber, Fiber.init, hnext, hcur, switchTo, Except.Sat]
      · exact absurd (hready.symm.trans hnew) (by simp)
    · have hready := hstate.resolve_left fun hx => hnew hx.1
      simp [dispatch, hready, hcur, switchTo, Except.Sat]
  rw [reschedule, hs]
  refine hattempt.bind ?_
  rintro ⟨t, r⟩ ⟨hr, ht⟩
  cases hr
  exact ⟨rfl, ht⟩

/-- The loop of `schedule` cleans up the dead fibers in front of the queue, and comes to the
first one that is not dead. -/
theorem reschedule_firstAlive (created : Contexts F) {n : ℕ} (did : Bool)
    (hn : s.runnableQueue.length < n) (hnodup : s.runnableQueue.Nodup)
    (hcur : (s.fiber s.currentFiber).state ≠ .dead) :
    ∃ t m, reschedule created n none did s = reschedule created (m + 1) none
        (did || decide (s.runnableQueue.head? ≠ s.firstAlive)) t ∧
      t.runnableQueue.head? = s.firstAlive ∧ t.currentFiber = s.currentFiber ∧
      ∀ r, (s.fiber r).state ≠ .dead → t.fiber r = s.fiber r := by
  induction n generalizing s did with
  | zero => exact absurd hn (Nat.not_lt_zero _)
  | succ n ih =>
      have hstop : s.runnableQueue.head? = s.firstAlive → ∃ t m,
          reschedule created (n + 1) none did s = reschedule created (m + 1) none
            (did || decide (s.runnableQueue.head? ≠ s.firstAlive)) t ∧
          t.runnableQueue.head? = s.firstAlive ∧ t.currentFiber = s.currentFiber ∧
          ∀ r, (s.fiber r).state ≠ .dead → t.fiber r = s.fiber r :=
        fun h => ⟨s, n, by simp [h], h, rfl, fun _ _ => rfl⟩
      cases hs : s.runnableQueue with
      | nil =>
          rw [← hs]
          exact hstop (by simp [firstAlive, hs])
      | cons f l =>
          rw [hs] at hnodup hn
          obtain ⟨hl, hnodup⟩ := List.nodup_cons.1 hnodup
          by_cases hd : (s.fiber (some f)).state = .dead
          · have hcf : s.currentFiber ≠ some f := by
              intro hcf
              rw [hcf] at hcur
              exact hcur hd
            obtain ⟨t, ht, htq, htcur, htf⟩ := reschedule_dead created n did hs hl hcf hd
            have hfirst := firstAlive_of_dead hs htq hl hd htf
            have hlen : t.runnableQueue.length < n := by
              rw [htq]
              simpa using hn
            obtain ⟨u, m, hu, huhead, hucur, hufiber⟩ := ih true hlen (by rwa [htq])
              (by rwa [htcur, htf _ hcf])
            have halive : ∀ r, (s.fiber r).state ≠ .dead → r ≠ some f := by
              rintro r hr rfl
              exact hr hd
            have hne : (f :: l).head? ≠ s.firstAlive := by
              intro hf
              exact (mem_of_firstAlive hf.symm).2 hd
            refine ⟨u, m, ?_, huhead.trans hfirst, hucur.trans htcur, fun r hr => ?_⟩
            · rw [ht, hu, decide_eq_true hne, Bool.true_or, Bool.or_true]
            · rw [hufiber r (by rwa [htf r (halive r hr)]), htf r (halive r hr)]
          · rw [← hs]
            refine hstop ?_
            rw [firstAlive_of_alive hs hd, hs]
            rfl

/-- The loop of `schedule`, called by a fiber that runs and is the first one that is not
dead. -/
theorem reschedule_returned (created : Contexts F) {n : ℕ} (did : Bool)
    (hn : s.runnableQueue.length < n) (hnodup : s.runnableQueue.Nodup)
    (hcur : s.currentFiber = some f) (hrun : (s.fiber (some f)).state = .running)
    (hfirst : s.firstAlive = some f) :
    ∃ t, reschedule created n none did s =
      .ok (t, .returned (did || decide (s.runnableQueue.head? ≠ some f))) := by
  obtain ⟨t, m, ht, hthead, htcur, htf⟩ := reschedule_firstAlive created did hn hnodup
    (by simp [hcur, hrun])
  rw [hfirst] at ht hthead
  obtain ⟨l, hl⟩ := List.head?_eq_some_iff.1 hthead
  rw [ht]
  exact ⟨_, reschedule_running created m _ hl (htcur.trans hcur)
    (by rwa [htf _ (by simp [hrun])])⟩

/-- The loop of `schedule`, where the first fiber that is not dead can be run. -/
theorem reschedule_switched (created : Contexts F) {n : ℕ} (did : Bool)
    (hn : s.runnableQueue.length < n) (hnodup : s.runnableQueue.Nodup)
    (halive : (s.fiber s.currentFiber).state ≠ .dead) (hfirst : s.firstAlive = some f)
    (hcur : s.currentFiber ≠ some f) (hstate : (s.fiber (some f)).CanRun) :
    (reschedule created n none did s).Sat (fun e => e = .abort ∧ created.res (some f) = .other)
      fun x => x.2 = .switched ∧ x.1.currentFiber = some f := by
  obtain ⟨t, m, ht, hthead, htcur, htf⟩ := reschedule_firstAlive created did hn hnodup halive
  rw [hfirst] at ht hthead
  obtain ⟨l, hl⟩ := List.head?_eq_some_iff.1 hthead
  have hf : t.fiber (some f) = s.fiber (some f) := htf _ hstate.ne_dead
  rw [ht]
  exact reschedule_runnable created m _ hl (by rwa [htcur]) (by rwa [hf])

/-- `schedule` switches whenever it can: if another fiber can run, one does (or its context
cannot be created), and it returns `false` only to a fiber that is alone in the queue. -/
structure Switches (created : Contexts F) (f : F) (now : ℕ) (s : Worker F Q W) : Prop where
  runs : (∃ g ∈ s.runnableQueue, g ≠ f ∧
      ((s.fiber (some g)).state = .new ∨ (s.fiber (some g)).state = .ready)) →
    (schedule created none now s).Sat
      (fun e => e = .abort ∧ ∃ g ∈ s.runnableQueue, created.res (some g) = .other)
      fun x => x.2 = .switched ∧ ∃ g, g ≠ f ∧ x.1.currentFiber = some g
  returns : (∃ t, schedule created none now s = .ok (t, .returned false)) ↔ s.runnableQueue = [f]

/-- The fiber has its turn behind all others that can run, and comes first only if it is
alone. -/
structure Behind (f : F) (s : Worker F Q W) : Prop where
  first : s.runnableQueue.head? = some f → s.runnableQueue = [f]
  alive : s.firstAlive = some f → ∀ g ∈ s.runnableQueue, g ≠ f → (s.fiber (some g)).state = .dead

theorem schedule_eq_reschedule (created : Contexts F) {now : ℕ}
    (henabled : s.disableContextSwitch = 0) (hend : s.runEnd = 0 ∨ now ≤ s.runEnd) :
    schedule created none now s =
      reschedule created (s.runnableQueue.length + 1) none false s := by
  have hnot : ¬ (s.runEnd ≠ 0 ∧ s.runEnd < now) := by omega
  rw [schedule, if_neg (not_not.2 henabled)]
  simp [preferable, hnot]

variable [DecidableEq Q] [LinearOrder W]

omit [DecidableEq Q] [LinearOrder W] in
/-- The fiber that runs finds itself first. -/
theorem Tracked.switches_of_first (h : s.Tracked) (created : Contexts F)
    (hcur : s.currentFiber = some f) (hrun : (s.fiber (some f)).state = .running)
    (henabled : s.disableContextSwitch = 0) {now : ℕ} (hend : s.runEnd = 0 ∨ now ≤ s.runEnd)
    (hfirst : s.firstAlive = some f) : Switches created f now s ↔ Behind f s := by
  obtain ⟨t, ht⟩ := reschedule_returned created false (Nat.lt_succ_self _)
    h.consistent.nodups.runnable hcur hrun hfirst
  rw [← schedule_eq_reschedule created henabled hend, Bool.false_or] at ht
  have hfalse : (∃ t, Worker.schedule created none now s = .ok (t, .returned false)) ↔
      s.runnableQueue.head? = some f := by
    rw [ht]
    simp
  constructor
  · intro hs
    refine ⟨fun hhead => hs.returns.1 (hfalse.2 hhead), fun _ g hg hgf => ?_⟩
    by_contra hd
    have hcan := h.canRun hg (by rw [hcur]; simpa using Ne.symm hgf) hd
    have hsat := hs.runs ⟨g, hg, hgf, hcan.imp_left And.left⟩
    rw [ht] at hsat
    cases hsat.1
  · intro hb
    refine ⟨?_, hfalse.trans ⟨hb.first, fun hq => by rw [hq]; rfl⟩⟩
    rintro ⟨g, hg, hgf, hstate⟩
    have hdead := hb.alive hfirst g hg hgf
    simp [hdead] at hstate

omit [DecidableEq Q] [LinearOrder W] in
/-- The fiber that runs finds another one first. -/
theorem Tracked.switches_of_ne (h : s.Tracked) (created : Contexts F)
    (hcur : s.currentFiber = some f) (hrun : (s.fiber (some f)).state = .running)
    (henabled : s.disableContextSwitch = 0) {now : ℕ} (hend : s.runEnd = 0 ∨ now ≤ s.runEnd)
    {g : F} (hfirst : s.firstAlive = some g) (hgf : g ≠ f) :
    Switches created f now s ∧ Behind f s := by
  obtain ⟨hg, hdead⟩ := mem_of_firstAlive hfirst
  have hcg : s.currentFiber ≠ some g := by
    rw [hcur]
    simpa using Ne.symm hgf
  have hne : s.runnableQueue.head? ≠ some f := by
    intro hhead
    obtain ⟨l, hl⟩ := List.head?_eq_some_iff.1 hhead
    have hf := firstAlive_of_alive hl (by simp [hrun])
    exact hgf (Option.some.inj (hfirst.symm.trans hf))
  have hsat := reschedule_switched created false (Nat.lt_succ_self _)
    h.consistent.nodups.runnable (by simp [hcur, hrun]) hfirst hcg (h.canRun hg hcg hdead)
  rw [← schedule_eq_reschedule created henabled hend] at hsat
  refine ⟨⟨fun _ => ?_, iff_of_false ?_ fun hq => ?_⟩,
    ⟨fun hhead => absurd hhead hne, fun hf => ?_⟩⟩
  · exact (hsat.mono_bad fun e he => ⟨he.1, g, hg, he.2⟩).mono fun x hx => ⟨hx.1, g, hgf, hx.2⟩
  · rintro ⟨t, ht⟩
    rw [ht] at hsat
    cases hsat.1
  · exact hne (by rw [hq]; rfl)
  · exact absurd (Option.some.inj (hfirst.symm.trans hf)) hgf

/-- In every state that any run leads to, `schedule` of a fiber that runs switches whenever it
can exactly if that fiber is behind the others. -/
theorem switches_iff (created : Contexts F) (waiter : F) (waitable : W → Waitable F Q)
    (ds : List (Deed F Q W)) (s : Worker F Q W)
    (hr : Transition.run (act created waiter) (init waiter waitable) ds = some s) (f : F)
    (hcur : s.currentFiber = some f) (hrun : (s.fiber (some f)).state = .running)
    (henabled : s.disableContextSwitch = 0) (now : ℕ) (hend : s.runEnd = 0 ∨ now ≤ s.runEnd) :
    Switches created f now s ↔ Behind f s := by
  have h := tracked_of_run hr
  have hmem : f ∈ s.runnableQueue := (h.mem_runnable hrun).1.runnable.2 rfl
  obtain ⟨g, hfirst⟩ : ∃ g, s.firstAlive = some g := by
    rw [← Option.isSome_iff_exists, firstAlive, List.find?_isSome]
    exact ⟨f, hmem, by simp [hrun]⟩
  by_cases hgf : g = f
  · subst hgf
    exact h.switches_of_first created hcur hrun henabled hend hfirst
  · obtain ⟨hs, hb⟩ := h.switches_of_ne created hcur hrun henabled hend hfirst hgf
    exact iff_of_true hs hb

/-- Fiber 1 runs, and hatches fiber 2. -/
def hatchedBehind : List (Deed ℕ ℕ ℕ) :=
  [.act (.hatch 1), .act (.work 1 1), .act (.hatch 2)]

/-- Both fibers were hatched before fiber 1 runs. -/
def hatchedBefore : List (Deed ℕ ℕ ℕ) :=
  [.act (.hatch 1), .act (.hatch 2), .act (.work 1 1)]

theorem switches_hatchedBefore :
    ∃ s, Transition.run (act .all 0) (init 0 fun _ => ⟨0, none, .timed, false⟩)
        hatchedBefore = some s ∧ s.currentFiber = some 1 ∧ Switches .all 1 2 s := by
  refine ⟨_, rfl, rfl, (switches_iff .all 0 (fun _ => ⟨0, none, .timed, false⟩)
    hatchedBefore _ rfl 1 rfl rfl rfl 2 (.inl rfl)).2 ?_⟩
  exact ⟨by rintro ⟨⟩, by rintro ⟨⟩⟩

/-- Fiber 2 can run, but `schedule` returns `false`. -/
theorem not_switches_hatchedBehind :
    ∃ s, Transition.run (act .all 0) (init 0 fun _ => ⟨0, none, .timed, false⟩)
        hatchedBehind = some s ∧ s.currentFiber = some 1 ∧
      (s.fiber (some 1)).state = .running ∧ (s.fiber (some 2)).state = .new ∧
      s.runnableQueue = [1, 2] ∧ ¬ Switches .all 1 2 s := by
  refine ⟨_, rfl, rfl, rfl, rfl, rfl, fun h => ?_⟩
  cases h.returns.1 ⟨_, rfl⟩

end Worker

end Zth
