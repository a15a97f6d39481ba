import Zth.Worker.Kill

/-!
# The end of a worker

`~Worker` first resumes and kills the fibers in the suspended queue, which moves them to the
runnable queue, and then cleans up that queue from its front. A fiber that was killed while it
was suspended is still in the suspended queue, but it is not suspended any more: `resume`
leaves it there, and the first loop does not end. Nor does the destructor come to its end in a
fiber of its own, since `cleanup` hands over to the worker fiber then.
-/

namespace Zth

namespace Worker

variable {F Q W : Type*} [DecidableEq F]

/-- `Worker::cleanup`. It hands over when the fiber is the current one, and aborts if it comes
back from that. -/
def cleanup (created : Contexts F) (f : F) (now : ℕ) (s : Worker F Q W) :
    Except Fault (Worker F Q W × Schedule) :=
  if (s.fiber (some f)).state ≠ .dead then .error .abort
  else if s.currentFiber = some f then
    if s.disableContextSwitch ≠ 0 then .error .abort
    else
      (schedule created (some none) now s).bind fun
        | (s, .switched) => .ok (s, .switched)
        | (_, .returned _) => .error .abort
  else (remove f s).map fun s => (s, .returned true)

/-- The first loop of the destructor. -/
def killSuspended : ℕ → Worker F Q W → Except Fault (Worker F Q W)
  | 0, _ => .error .endless
  | n + 1, s =>
      match s.suspendedQueue with
      | [] => .ok s
      | f :: _ =>
          (resume f s).bind fun s =>
            killSuspended n (s.setFiber (some f) (s.fiber (some f)).kill)

/-- The second loop of the destructor. It collects the fibers that are released, in the order in
which that happens. -/
def cleanupRunnable (created : Contexts F) (now : ℕ) :
    ℕ → List F → Worker F Q W → Except Fault (Worker F Q W × List F × Schedule)
  | 0, _, _ => .error .endless
  | n + 1, released, s =>
      match s.runnableQueue with
      | [] => .ok (s, released, .returned true)
      | f :: _ =>
          (cleanup created f now (s.setFiber (some f) (s.fiber (some f)).kill)).bind fun
            | (s, .returned _) => cleanupRunnable created now n (released ++ [f]) s
            | (s, .switched) => .ok (s, released, .switched)

/-- `Worker::~Worker`. -/
def destruct (created : Contexts F) (now n : ℕ) (s : Worker F Q W) :
    Except Fault (Worker F Q W × List F × Schedule) :=
  (killSuspended n s).bind fun s => cleanupRunnable created now n [] s

/-- The destructor ends, leaves both queues empty, and releases every fiber in them exactly
once. -/
def Destructs (created : Contexts F) (now : ℕ) (s : Worker F Q W) : Prop :=
  ∃ n t released did, destruct created now n s = .ok (t, released, .returned did) ∧
    t.runnableQueue = [] ∧ t.suspendedQueue = [] ∧
    ∀ f, released.count f = if f ∈ s.runnableQueue ∨ f ∈ s.suspendedQueue then 1 else 0

/-- No fiber was killed while it was suspended, and the current fiber is not in a queue. -/
structure Destructible (s : Worker F Q W) : Prop where
  suspended : ∀ f ∈ s.suspendedQueue, (s.fiber (some f)).state ≠ .dead
  current : ∀ f, s.currentFiber = some f → f ∉ s.runnableQueue ∧ f ∉ s.suspendedQueue

variable {s : Worker F Q W} {f : F} {l : List F}

/-- A fiber that is suspended is resumed, and moves to the back of the runnable queue. -/
theorem resume_front (hs : s.suspendedQueue = f :: l)
    (hstate : (s.fiber (some f)).state = .suspended)
    (hnext : (s.fiber (some f)).stateNext = .new ∨ (s.fiber (some f)).stateNext = .ready) :
    ∃ t, resume f s = .ok t ∧ t.suspendedQueue = l ∧ t.runnableQueue = s.runnableQueue ++ [f] ∧
      t.currentFiber = s.currentFiber ∧ ∀ r, r ≠ some f → t.fiber r = s.fiber r := by
  generalize hx : ({ s.fiber (some f) with linked := false } : Fiber).resume = x
  have hlinked : x.linked = false := hx ▸ resume_linked _
  have hxstate : x.state ≠ .waiting ∧ x.state ≠ .suspended := by
    obtain hnext | hnext := hnext <;> simp [← hx, Fiber.resume, hstate, hnext]
  have hrelease : release f { s with held := Function.update s.held f false } =
      .ok (setLinked f false
        { s with held := Function.update s.held f false, suspendedQueue := l }) := by
    simp [release, hstate, hs]
  refine ⟨setFiber (some f) { x with linked := true } { s with
    held := Function.update s.held f false, suspendedQueue := l,
    runnableQueue := s.runnableQueue ++ [f] }, ?_, rfl, rfl, rfl,
    fun r hr => setFiber_fiber_of_ne _ _ hr⟩
  rw [resume]
  dsimp only
  rw [if_pos hstate, hrelease]
  simp only [Except.bind, setLinked_fiber_self, hx, add, setFiber_fiber_self]
  rw [if_neg hxstate.1, if_neg (by simp [hlinked]), if_neg hxstate.2]
  simp [setLinked, setFiber]

/-- A round of the first loop, for a fiber that is suspended. -/
theorem Tracked.killFront (h : s.Tracked) (hs : s.suspendedQueue = f :: l)
    (hf : (s.fiber (some f)).state ≠ .dead) :
    ∃ t, (∀ n, killSuspended (n + 1) s = killSuspended n t) ∧ t.Tracked ∧
      t.suspendedQueue = l ∧ t.runnableQueue = s.runnableQueue ++ [f] ∧
      t.currentFiber = s.currentFiber ∧ ∀ r, r ≠ some f → t.fiber r = s.fiber r := by
  have hmem : f ∈ s.suspendedQueue := by simp [hs]
  obtain ⟨-, hdead | ⟨hstate, hnext⟩⟩ := (h.consistent.of_mem_suspended hmem).2.2
  · exact absurd hdead hf
  · obtain ⟨t, ht, htq, htr, htc, htf⟩ := resume_front hs hstate hnext
    refine ⟨t.setFiber (some f) (t.fiber (some f)).kill, fun n => ?_,
      ((h.resume f).ok ht).1.kill f, htq, htr, htc, fun r hr => ?_⟩
    · simp [Worker.killSuspended, hs, ht, Except.bind]
    · rw [setFiber_fiber_of_ne _ _ hr, htf r hr]

/-- The first loop ends after as many rounds as there are fibers in the suspended queue, if
none of them is dead. -/
theorem Tracked.killSuspended_sat (h : s.Tracked) (n : ℕ)
    (hdead : ∀ f ∈ s.suspendedQueue, (s.fiber (some f)).state ≠ .dead) :
    (killSuspended n s).Sat (fun _ => n ≤ s.suspendedQueue.length) fun t =>
      t.suspendedQueue = [] ∧ t.runnableQueue = s.runnableQueue ++ s.suspendedQueue ∧
        t.currentFiber = s.currentFiber := by
  induction n generalizing s with
  | zero => exact Nat.zero_le _
  | succ n ih =>
      cases hs : s.suspendedQueue with
      | nil => exact .of_ok (by simp [killSuspended, hs]) ⟨hs, by simp, rfl⟩
      | cons f l =>
          rw [hs] at hdead
          obtain ⟨t, ht, htracked, htq, htr, htc, htf⟩ :=
            h.killFront hs (hdead f List.mem_cons_self)
          have hnodup := h.consistent.nodups.suspended
          rw [hs] at hnodup
          have hother : ∀ g ∈ l, t.fiber (some g) = s.fiber (some g) := by
            intro g hg
            refine htf (some g) ?_
            rintro ⟨⟩
            exact (List.nodup_cons.1 hnodup).1 hg
          have hsat := ih htracked (by
            rw [htq]
            intro g hg
            rw [hother g hg]
            exact hdead g (List.mem_cons_of_mem f hg))
          rw [ht n]
          refine (hsat.mono_bad fun _ hle => ?_).mono fun u hu => ⟨hu.1, ?_, hu.2.2.trans htc⟩
          · rw [htq] at hle
            simpa using hle
          · rw [hu.2.1, htr, htq, List.append_assoc, List.singleton_append]

/-- The first loop does not end, if some fiber in the suspended queue is dead. -/
theorem Tracked.killSuspended_endless (h : s.Tracked) (hf : f ∈ s.suspendedQueue)
    (hdead : (s.fiber (some f)).state = .dead) (n : ℕ) :
    killSuspended n s = .error .endless := by
  induction n generalizing s with
  | zero => rfl
  | succ n ih =>
      cases hs : s.suspendedQueue with
      | nil => simp [hs] at hf
      | cons g l =>
          by_cases hg : (s.fiber (some g)).state = .dead
          · -- Nothing happens to a dead fiber in front.
            have hresume : Worker.resume g s =
                .ok { s with held := Function.update s.held g false } := by
              simp [Worker.resume, hg]
            have htracked := ((h.resume g).ok hresume).1.kill g
            rw [killSuspended, hs]
            refine (congrArg (fun x => Except.bind x _) hresume).trans (ih htracked hf ?_)
            by_cases hfg : f = g
            · rw [hfg, setFiber_fiber_self]
              rfl
            · rwa [setFiber_fiber_of_ne _ _ (by simpa using hfg)]
          · obtain ⟨t, ht, htracked, htq, -, -, htf⟩ := h.killFront hs hg
            have hfg : f ≠ g := by
              rintro rfl
              exact hg hdead
            rw [hs] at hf
            refine (ht n).trans (ih htracked ?_ ?_)
            · rw [htq]
              exact List.mem_of_ne_of_mem hfg hf
            · rwa [htf (some f) (by simpa using hfg)]

/-- A round of the second loop, for a fiber that is not the current one. -/
theorem cleanup_front (created : Contexts F) (now : ℕ) (hs : s.runnableQueue = f :: l)
    (hcur : s.currentFiber ≠ some f) :
    ∃ t, cleanup created f now (s.setFiber (some f) (s.fiber (some f)).kill) =
        .ok (t, .returned true) ∧
      t.runnableQueue = l ∧ t.suspendedQueue = s.suspendedQueue ∧
      t.currentFiber = s.currentFiber := by
  have hc : (s.setFiber (some f) (s.fiber (some f)).kill).currentFiber ≠ some f := hcur
  have hq : (s.setFiber (some f) (s.fiber (some f)).kill).runnableQueue = f :: l := hs
  obtain ⟨t, ht, htq, htrest⟩ : ∃ t,
      remove f (s.setFiber (some f) (s.fiber (some f)).kill) = .ok t ∧ t.runnableQueue = l ∧
        t.suspendedQueue = s.suspendedQueue ∧ t.currentFiber = s.currentFiber := by
    refine ⟨_, remove_eq (by simp [hq]), ?_, rfl, rfl⟩
    exact (congrArg (fun q => q.erase f) hq).trans (List.erase_cons_head f l)
  refine ⟨t, ?_, htq, htrest⟩
  rw [cleanup, setFiber_fiber_self, if_neg (by simp [Fiber.kill]), if_neg hc, ht]
  rfl

/-- The second loop ends and releases the fibers in the order of the queue, if none of them is
the current one. -/
theorem cleanupRunnable_ok (created : Contexts F) (now : ℕ) {n : ℕ} (released : List F)
    (hn : s.runnableQueue.length < n)
    (hcur : ∀ f, s.currentFiber = some f → f ∉ s.runnableQueue) :
    ∃ t, cleanupRunnable created now n released s =
        .ok (t, released ++ s.runnableQueue, .returned true) ∧
      t.runnableQueue = [] ∧ t.suspendedQueue = s.suspendedQueue := by
  induction n generalizing s released with
  | zero => exact absurd hn (Nat.not_lt_zero _)
  | succ n ih =>
      cases hs : s.runnableQueue with
      | nil => exact ⟨s, by simp [cleanupRunnable, hs], hs, rfl⟩
      | cons f l =>
          rw [hs] at hn hcur
          obtain ⟨t, ht, htq, hts, htc⟩ := cleanup_front created now hs
            fun hf => hcur f hf List.mem_cons_self
          have hlen : t.runnableQueue.length < n := by
            rw [htq]
            simpa using hn
          obtain ⟨u, hu, huq, hus⟩ := ih (released ++ [f]) hlen (by
            rw [htq, htc]
            exact fun g hg hgl => hcur g hg (List.mem_cons_of_mem f hgl))
          refine ⟨u, ?_, huq, hus.trans hts⟩
          rw [htq, List.append_assoc, List.singleton_append] at hu
          simp only [cleanupRunnable, hs, ht, Except.bind, hu]

/-- The second loop does not come to its end in a fiber of the queue. -/
theorem cleanupRunnable_ne (created : Contexts F) (now n : ℕ) (released : List F)
    (hcur : s.currentFiber = some f) (hf : f ∈ s.runnableQueue) {t : Worker F Q W} {l : List F}
    {did : Bool} :
    cleanupRunnable created now n released s ≠ .ok (t, l, .returned did) := by
  induction n generalizing s released with
  | zero => simp [cleanupRunnable]
  | succ n ih =>
      cases hs : s.runnableQueue with
      | nil => simp [hs] at hf
      | cons g q =>
          rw [hs] at hf
          simp only [cleanupRunnable, hs]
          by_cases hgf : g = f
          · -- The current fiber is dead now, and hands over.
            subst hgf
            have hcur : (s.setFiber (some g) (s.fiber (some g)).kill).currentFiber = some g := hcur
            rw [cleanup, setFiber_fiber_self, if_neg (by simp [Fiber.kill]), if_pos hcur]
            split
            · simp [Except.bind]
            · cases schedule created (some none) now
                (s.setFiber (some g) (s.fiber (some g)).kill) with
              | error e => simp [Except.bind]
              | ok x => obtain ⟨u, _ | _⟩ := x <;> simp [Except.bind]
          · obtain ⟨u, hu, huq, -, huc⟩ := cleanup_front created now hs
              (by rw [hcur]; simpa using Ne.symm hgf)
            rw [hu]
            refine ih (released ++ [g]) (huc.trans hcur) ?_
            rw [huq]
            exact List.mem_of_ne_of_mem (Ne.symm hgf) hf

/-- The destructor that ends is one that can. -/
theorem Tracked.destructible (h : s.Tracked) {created : Contexts F} {now : ℕ}
    (hd : Destructs created now s) : Destructible s := by
  obtain ⟨n, t, released, did, hdestruct, -⟩ := hd
  have hdead : ∀ f ∈ s.suspendedQueue, (s.fiber (some f)).state ≠ .dead := by
    intro f hf hdead
    rw [destruct, h.killSuspended_endless hf hdead n] at hdestruct
    cases hdestruct
  have hsat := h.killSuspended_sat n hdead
  rw [destruct] at hdestruct
  cases hkill : killSuspended n s with
  | error e =>
      rw [hkill] at hdestruct
      cases hdestruct
  | ok u =>
      rw [hkill] at hdestruct hsat
      obtain ⟨-, huq, huc⟩ := hsat
      refine ⟨hdead, fun f hf => ?_⟩
      have hnot : f ∉ u.runnableQueue := fun hmem =>
        cleanupRunnable_ne created now n [] (huc.trans hf) hmem hdestruct
      rw [huq, List.mem_append, not_or] at hnot
      exact hnot

omit [DecidableEq F] in
/-- No fiber is in both queues. -/
theorem Tracked.nodup_queues (h : s.Tracked) : (s.runnableQueue ++ s.suspendedQueue).Nodup := by
  refine List.nodup_append'.2 ⟨h.consistent.nodups.runnable, h.consistent.nodups.suspended, ?_⟩
  intro f hf hf'
  cases (h.consistent.of_mem_suspended hf').1.runnable.1 hf

/-- The destructor ends, and releases the fibers in the runnable queue first. -/
theorem Tracked.destructs (h : s.Tracked) (created : Contexts F) (now : ℕ)
    (hd : Destructible s) : Destructs created now s := by
  obtain ⟨n, hn⟩ : ∃ n, (s.runnableQueue ++ s.suspendedQueue).length < n :=
    ⟨_, Nat.lt_succ_self _⟩
  have hsat := h.killSuspended_sat n hd.suspended
  cases hkill : killSuspended n s with
  | error e =>
      rw [hkill] at hsat
      have hle : n ≤ s.suspendedQueue.length := hsat
      rw [List.length_append] at hn
      omega
  | ok u =>
      rw [hkill] at hsat
      obtain ⟨hus, huq, huc⟩ := hsat
      obtain ⟨t, ht, htq, hts⟩ := cleanupRunnable_ok created now [] (huq ▸ hn) (by
        rw [huc, huq]
        intro f hf
        simpa using hd.current f hf)
      refine ⟨n, t, s.runnableQueue ++ s.suspendedQueue, true, ?_, htq, hts.trans hus,
        fun f => ?_⟩
      · rw [destruct, hkill]
        rw [huq, List.nil_append] at ht
        exact ht
      · rw [h.nodup_queues.count]
        simp only [List.mem_append]

variable [DecidableEq Q] [LinearOrder W]

/-- In every state that any run leads to, the destructor does its work exactly if no fiber was
killed while it was suspended, and the destructor is not called in a fiber. -/
theorem destructs_iff (created : Contexts F) (waiter : F) (waitable : W → Waitable F Q)
    (ds : List (Deed F Q W)) (s : Worker F Q W)
    (hr : Transition.run (act created waiter) (init waiter waitable) ds = some s) (now : ℕ) :
    Destructs created now s ↔ Destructible s := by
  have h := tracked_of_run hr
  exact ⟨h.destructible, h.destructs created now⟩

/-- Fiber 1 is hatched and suspended. -/
def suspendedOnly : List (Deed ℕ ℕ ℕ) := [.act (.hatch 1), .act (.suspend 1 0)]

theorem destructs_suspendedOnly :
    ∃ s, Transition.run (act .all 0) (init 0 fun _ => ⟨0, none, .timed, false⟩)
        suspendedOnly = some s ∧ s.suspendedQueue = [0, 1] ∧ Destructs .all 1 s := by
  refine ⟨_, rfl, rfl, (destructs_iff .all 0 (fun _ => ⟨0, none, .timed, false⟩)
    suspendedOnly _ rfl 1).2 ⟨?_, nofun⟩⟩
  decide

/-- Fiber 1 is killed as well. -/
def killedSuspended : List (Deed ℕ ℕ ℕ) :=
  [.act (.hatch 1), .act (.suspend 1 0), .kill 1]

theorem not_destructs_killedSuspended :
    ∃ s, Transition.run (act .all 0) (init 0 fun _ => ⟨0, none, .timed, false⟩)
        killedSuspended = some s ∧ s.currentFiber = none ∧ s.suspendedQueue = [0, 1] ∧
      (s.fiber (some 1)).state = .dead ∧ ¬ Destructs .all 1 s := by
  refine ⟨_, rfl, rfl, rfl, rfl, ?_⟩
  rintro ⟨n, t, released, did, h, -⟩
  have htracked := tracked_of_run (show Transition.run (act .all 0)
    (init 0 fun _ => ⟨0, none, .timed, false⟩) killedSuspended = some _ from rfl)
  rw [destruct, htracked.killSuspended_endless (f := 1) (by decide) rfl n] at h
  cases h

end Worker

end Zth
