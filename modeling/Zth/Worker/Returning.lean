import Zth.Worker.Kill

/-!
# Coming back from a block

A fiber that blocks or waits leaves the runnable queue before it asks `schedule` to
switch. It relies on not being switched to again before it was woken. While context
switching is disabled, `schedule` returns at once, and the fiber goes on in the middle
of its wait.
-/

namespace Zth

/-- The deeds in which `block`, `block_` or `Waiter::wait` may come back without a switch. -/
def Deed.returns {F Q W : Type*} : Deed F Q W → Bool
  | .act (.block _ _) | .act (.wait _ _ _ _ _ _ _) | .act .leaveAlarm => true
  | .act _ | .kill _ => false

namespace Worker

variable {F Q W : Type*}

/-- The fiber is runnable, and nowhere else: it does not wait in a queue, nor for a waitable. -/
structure Resumed (f : F) (s : Worker F Q W) : Prop where
  running : (s.fiber (some f)).state = .running
  runnable : f ∈ s.runnableQueue
  queue : ∀ q, f ∉ s.queue q
  waiting : ∀ w ∈ s.waiting, (s.waitable w).fiber ≠ some f ∧
    ∀ q, (s.waitable w).kind ≠ .alarm q f

/-- The fiber goes on in its own code, because it was switched to, or because a call that may
block it came back. -/
structure Returns (f : F) (s : Worker F Q W) (d : Deed F Q W) (t : Worker F Q W) : Prop where
  fault : t.fault = none
  current : t.currentFiber = some f
  frame : t.frame f = .user
  deed : s.currentFiber ≠ some f ∨ d.returns = true

/-- A fiber starts to wait only while context switching is enabled, and calls `Waiter::wait`
only while it runs. -/
structure Able (s : Worker F Q W) (d : Deed F Q W) : Prop where
  switchable : s.Switchable d
  running : ∀ w timeout interval fired slice now now',
    d = .act (.wait w timeout interval fired slice now now') →
      ∀ f, s.currentFiber = some f → (s.fiber (some f)).state = .running

/-- A fiber that runs its own code is runnable. -/
theorem Tracked.resumed {s : Worker F Q W} (h : s.Tracked) {f : F}
    (hrun : (s.fiber (some f)).state = .running) (hframe : s.frame f = .user) :
    Resumed f s := by
  obtain ⟨hat, -⟩ := h.mem_runnable hrun
  refine ⟨hrun, hat.runnable.2 rfl, fun q hq => ?_, fun w hw => ⟨fun hf => ?_, fun q hk => ?_⟩⟩
  · cases (hat.queued q).1 hq
  · cases (hat.timed w).1 ⟨hw, hf⟩
  · have := h.rings w q f hw hk
    rw [hframe] at this
    cases this

variable [DecidableEq F] [DecidableEq Q] [LinearOrder W]

/-- Whoever comes back in the step is runnable. -/
def ComesBack (created : Contexts F) (waiter : F) (s : Worker F Q W) (d : Deed F Q W) :
    Prop :=
  ∀ t, act created waiter s d = some t → ∀ f, Returns f s d t → Resumed f t

/-- A block with timeout ends where it was left. -/
theorem frame_of_leaveAlarm {created : Contexts F} {waiter f : F} {s t : Worker F Q W}
    (ht : step created waiter s .leaveAlarm = some t) (hcur : s.currentFiber = some f) :
    ∃ w, s.frame f = .alarm w := by
  have hx : ∃ x, perform created waiter s .leaveAlarm = some x := by
    obtain ⟨-, hx | ⟨e, hx, -⟩⟩ := step_eq_some_iff.1 ht
    · exact ⟨_, hx⟩
    · exact ⟨_, hx⟩
  obtain ⟨x, hx⟩ := hx
  simp only [perform, hcur] at hx
  split at hx
  · rename_i w hw
    exact ⟨w, hw⟩
  · cases hx

/-- The step lemma. -/
theorem Fair.comesBack {created : Contexts F} {waiter : F} {s : Worker F Q W}
    {d : Deed F Q W} (h : s.Fair) (hd : Able s d) : ComesBack created waiter s d := by
  intro t ht f hret
  cases d with
  | kill g =>
      obtain ⟨-, rfl⟩ := act_kill_eq_some_iff.1 ht
      obtain hne | hdeed := hret.deed
      · exact absurd hret.current hne
      · cases hdeed
  | act a =>
      obtain hgoes | ⟨e, rfl⟩ := h.toTracked.step ht
      · refine hgoes.1.resumed ?_ hret.frame
        obtain ⟨hfalse, hst⟩ | hturn | ⟨hwaits, hdis⟩ := hgoes.2
        · -- No other fiber is current, so it is a call that came back.
          have hcur : s.currentFiber = some f := hst.current ▸ hret.current
          refine hst.runs f ?_
          obtain hne | hdeed := hret.deed
          · exact absurd hcur hne
          · cases a with
            | block q now => cases hfalse
            | wait w timeout interval fired slice now now' =>
                exact hd.running w timeout interval fired slice now now' rfl f hcur
            | leaveAlarm =>
                obtain ⟨w, hw⟩ := frame_of_leaveAlarm ht hcur
                obtain hrun | ⟨-, hframe⟩ := h.turn f hcur
                · exact hrun
                · exact absurd hw (hframe w)
            | _ => cases hdeed
        · exact hturn.running f hret.current
        · exact absurd (hd.switchable hwaits) hdis
      · cases hret.fault

/-- In every run in which a fiber starts to wait only while context switching is enabled, and
calls `Waiter::wait` only while it runs: every fiber that comes back from a block is runnable,
and does not wait any more. -/
theorem comesBack_of_able (created : Contexts F) (waiter : F) (waitable : W → Waitable F Q)
    (ds : List (Deed F Q W))
    (hg : Transition.Guarded (act created waiter) Able (init waiter waitable) ds) :
    Transition.Guarded (act created waiter) (ComesBack created waiter) (init waiter waitable)
      ds := by
  apply Transition.Guarded.imp (P := Fair) _ _ hg (fair_init waiter waitable)
  · exact fun s d t hs hd ht => hs.act hd.switchable ht
  · exact fun s d hs hd => hs.comesBack hd

/-- Fiber 1 blocks, and fiber 2 wakes it and yields. -/
def blockedAndWoken : List (Deed ℕ ℕ ℕ) :=
  [.act (.hatch 1), .act (.hatch 2), .act (.work 1 1), .act (.block 0 1),
    .act (.unblockFirst 0 false), .act (.yield none 2)]

theorem comesBack_blockedAndWoken :
    Transition.Guarded (act .all 0) (ComesBack .all 0)
      (init 0 fun _ => ⟨0, none, .timed, false⟩) blockedAndWoken := by
  refine comesBack_of_able .all 0 (fun _ => ⟨0, none, .timed, false⟩)
    blockedAndWoken ?_
  refine .cons ?_ rfl (.cons ?_ rfl (.cons ?_ rfl (.cons ?_ rfl (.cons ?_ rfl (.cons ?_ rfl
    trivial)))))
  all_goals exact ⟨fun _ => rfl, by rintro _ _ _ _ _ _ _ ⟨⟩⟩

/-- Fiber 1 blocks while context switching is disabled. -/
def blockedDisabled : List (Deed ℕ ℕ ℕ) :=
  [.act (.hatch 1), .act (.work 1 1), .act (.contextSwitchEnable false), .act (.block 0 1)]

/-- The call comes back, with the fiber in the queue of the synchronizer. -/
theorem not_comesBack_blockedDisabled :
    ¬ Transition.Guarded (act .all 0) (ComesBack .all 0)
      (init 0 fun _ => ⟨0, none, .timed, false⟩) blockedDisabled := by
  rintro ⟨-, h⟩
  obtain ⟨-, h⟩ := h _ rfl
  obtain ⟨-, h⟩ := h _ rfl
  obtain ⟨h, -⟩ := h _ rfl
  exact (h _ rfl 1 ⟨rfl, rfl, rfl, .inr rfl⟩).queue 0 (by decide)

end Worker

end Zth
