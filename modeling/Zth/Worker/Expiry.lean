import Zth.Time.Timestamp
import Zth.Worker.System

/-!
# The expiry loop of the waiter

The inner loop of `Waiter::entry` takes the first waitable out of the list as long as its
timeout is before now, and polls it. A waitable that is done wakes its fiber; another one
is put back, at the place of its new timeout. The timeouts are time stamps here, and are
moved by the arithmetic of the code, with its carry and its saturation.

A waitable that is put back has a timeout that is not before now any more. So the loop
goes through the waitables that were before now, in their order, and polls each of them
once.
-/

namespace Zth

/-- What a waitable does when it is polled. -/
inductive TimedWaitable.Kind (F Q : Type*) where
  | timed
  | polled (interval : TimeInterval)
  | alarm (q : Q) (f : F)

/-- A `TimedWaitable`, a `PolledWaiting` or an `AlarmClock`. -/
structure TimedWaitable (F Q : Type*) where
  timeout : Timestamp
  fiber : Option F
  kind : TimedWaitable.Kind F Q
  rang : Bool

/-- The waiter with its worker, of which only the fibers and their queues matter here. The
code does not have `polls`: they are the polls done so far, with their results. -/
structure Waiter (F Q W : Type*) where
  worker : Worker F Q Empty
  waiting : List W
  waitable : W → TimedWaitable F Q
  polls : List (W × Bool)

/-- The configuration of the code. -/
structure Build where
  debug : Bool
  enableAssert : Bool
  platform : Platform

namespace Waiter

variable {F Q W : Type*} [LinearOrder W]

/-- The order of the waiting list: by timeout, and by address for equal timeouts. -/
def WaitsBefore (waitable : W → TimedWaitable F Q) (w v : W) : Prop :=
  (waitable w).timeout.isBefore (waitable v).timeout = true ∨
    ((waitable w).timeout = (waitable v).timeout ∧ w ≤ v)

instance (waitable : W → TimedWaitable F Q) : DecidableRel (WaitsBefore waitable) :=
  fun _ _ => inferInstanceAs (Decidable (_ ∨ _))

/-- Replace a waitable. -/
def setWaitable (w : W) (v : TimedWaitable F Q) (s : Waiter F Q W) : Waiter F Q W :=
  { s with waitable := Function.update s.waitable w v }

def insert (w : W) (s : Waiter F Q W) : Except Fault (Waiter F Q W) :=
  if s.waiting.contains w then .error .list
  else .ok { s with waiting := s.waiting.orderedInsert (WaitsBefore s.waitable) w }

/-- An addition that overflows or fails its assertion stops the worker. -/
def timestamp : Option Timestamp → Except Fault Timestamp
  | some t => .ok t
  | none => .error .abort

/-- The time of the next poll. -/
def nextPoll (b : Build) (timeout now : Timestamp) (interval : TimeInterval) :
    Except Fault Timestamp :=
  (timestamp (timeout.add b.enableAssert b.platform interval)).bind fun next =>
    if next.isBefore now then timestamp (now.add b.enableAssert b.platform interval)
    else .ok next

variable [DecidableEq F] [DecidableEq Q]

/-- `TimedWaitable::poll`, `PolledWaiting::poll` and `AlarmClock::poll`. The outcome of
the polled function is `fired`. -/
def poll (b : Build) (w : W) (fired : Bool) (now : Timestamp) (s : Waiter F Q W) :
    Except Fault (Waiter F Q W × Bool) :=
  let v := s.waitable w
  let passed := v.timeout == now || v.timeout.isBefore now
  match v.kind with
  | .timed => .ok (s, passed)
  | .polled interval =>
      if fired then .ok (s, true)
      else (nextPoll b v.timeout now interval).map fun next =>
        (s.setWaitable w { v with timeout := next }, false)
  | .alarm q f =>
      if passed then
        (Worker.unblock q f false s.worker).map fun (worker, rang) =>
          ({ s with worker := worker }.setWaitable w { v with rang := rang }, true)
      else .ok (s, false)

/-- The fiber of a waitable that is done is woken. -/
def wake (w : W) (s : Waiter F Q W) : Except Fault (Waiter F Q W) :=
  match (s.waitable w).fiber with
  | none => .ok s
  | some f => (Worker.wakeFiber f true s.worker).map fun worker => { s with worker := worker }

/-- The administration of a fiber whose waitable was put back. -/
def renap (b : Build) (w : W) (s : Waiter F Q W) : Waiter F Q W :=
  match b.debug, (s.waitable w).fiber with
  | true, some f =>
      { s with worker := s.worker.setFiber (some f) (s.worker.fiber (some f)).nap }
  | _, _ => s

/-- One round of the loop, for the first waitable. What a polled function returns may
depend on everything that was polled before. -/
def round (b : Build) (fired : List (W × Bool) → W → Bool) (now : Timestamp) (w : W)
    (s : Waiter F Q W) : Except Fault (Waiter F Q W) :=
  (poll b w (fired s.polls w) now { s with waiting := s.waiting.erase w }).bind
    fun (s, done) =>
      let s := { s with polls := s.polls ++ [(w, done)] }
      if done then wake w s
      else (insert w s).map (renap b w)

/-- The loop, for a number of rounds at most. -/
def expiryLoop (b : Build) (fired : List (W × Bool) → W → Bool) (now : Timestamp) :
    ℕ → Waiter F Q W → Except Fault (Waiter F Q W)
  | 0, _ => .error .endless
  | n + 1, s =>
      match s.waiting with
      | [] => .ok s
      | w :: _ =>
          if (s.waitable w).timeout.isBefore now then
            (round b fired now w s).bind fun s => expiryLoop b fired now n s
          else .ok s

/-! ## What a round does -/

section Wake

variable {V : Type*} {u t : Worker F Q V} {f : F}

/-- The fiber waits and is not suspended, and it is in no queue of the worker. -/
structure Asleep (u : Worker F Q V) (f : F) (linked : Bool) : Prop where
  state : (u.fiber (some f)).state = .waiting
  stateNext : (u.fiber (some f)).stateNext = .ready
  linked : (u.fiber (some f)).linked = linked
  runnable : f ∉ u.runnableQueue

/-- At most one fiber was made runnable, and nothing happened to the others. -/
structure Woken (o : Option F) (u t : Worker F Q V) : Prop where
  runnable : t.runnableQueue.Perm (o.toList ++ u.runnableQueue)
  ready : ∀ f, o = some f → (t.fiber (some f)).state = .ready
  others : ∀ g, o ≠ some g → t.fiber (some g) = u.fiber (some g)
  queue : ∀ q g, o ≠ some g → (g ∈ t.queue q ↔ g ∈ u.queue q)

omit [DecidableEq F] [DecidableEq Q] in
theorem Woken.refl (u : Worker F Q V) : Woken none u u :=
  ⟨List.Perm.refl _, fun _ h => absurd h (by simp), fun _ _ => rfl, fun _ _ _ => Iff.rfl⟩

omit [DecidableEq Q] in
theorem wakeFiber_eq (h : Asleep u f false) (prio : Bool) :
    Worker.wakeFiber f prio u = .ok (Worker.setLinked f true
      { u.setFiber (some f) { u.fiber (some f) with state := .ready } with
        runnableQueue := if prio then f :: u.runnableQueue else u.runnableQueue ++ [f] }) := by
  have hwake : (u.fiber (some f)).wakeup = { u.fiber (some f) with state := .ready } := by
    simp [Fiber.wakeup, h.state, h.stateNext]
  rw [Worker.wakeFiber, Worker.add, hwake]
  simp [Worker.setFiber, h.linked]

omit [DecidableEq Q] in
/-- A fiber that is not in a list is made runnable. -/
theorem wakeFiber_woken (h : Asleep u f false) (prio : Bool) :
    ∃ t, Worker.wakeFiber f prio u = .ok t ∧ Woken (some f) u t := by
  refine ⟨_, wakeFiber_eq h prio, ?_⟩
  refine ⟨?_, ?_, ?_, fun _ _ _ => Iff.rfl⟩
  · cases prio with
    | false => exact List.perm_append_singleton f _
    | true => exact List.Perm.refl _
  · intro g hg
    obtain rfl : f = g := Option.some_inj.1 hg
    simp [Worker.setLinked, Worker.setFiber]
  · intro g hg
    have hne : g ≠ f := fun hgf => hg (hgf ▸ rfl)
    simp [Worker.setLinked, Worker.setFiber, Function.update_of_ne, hne]

/-- A fiber that is blocked in a queue is made runnable. -/
theorem unblock_woken {q : Q} (hq : f ∈ u.queue q) (h : Asleep u f true) :
    ∃ t, Worker.unblock q f false u = .ok (t, true) ∧ Woken (some f) u t := by
  obtain ⟨t, ht, hwoken⟩ := wakeFiber_woken
    (u := Worker.setLinked f false (u.setQueue q ((u.queue q).erase f))) (f := f)
    ⟨by simp [Worker.setLinked, Worker.setFiber, Worker.setQueue, h.state],
      by simp [Worker.setLinked, Worker.setFiber, Worker.setQueue, h.stateNext],
      by simp [Worker.setLinked, Worker.setFiber], h.runnable⟩ false
  refine ⟨t, ?_, hwoken.runnable, hwoken.ready, fun g hg => ?_, fun q' g hg => ?_⟩
  · rw [Worker.unblock, if_pos hq, ht]
    rfl
  · have hne : g ≠ f := fun hgf => hg (hgf ▸ rfl)
    rw [hwoken.others g hg]
    simp [Worker.setLinked, Worker.setFiber, Worker.setQueue, Function.update_of_ne, hne]
  · have hne : g ≠ f := fun hgf => hg (hgf ▸ rfl)
    rw [hwoken.queue q' g hg]
    by_cases hqq : q' = q
    · subst hqq
      simp [Worker.setLinked, Worker.setFiber, Worker.setQueue, List.mem_erase_of_ne hne]
    · simp [Worker.setLinked, Worker.setFiber, Worker.setQueue, Function.update_of_ne, hqq]

end Wake

/-- The fiber that waits for a waitable. -/
def sleeper (v : TimedWaitable F Q) : Option F :=
  match v.kind with
  | .alarm _ f => some f
  | .timed | .polled _ => v.fiber

/-- The fiber that is made runnable when a waitable is done. An alarm rings for a fiber
that is still blocked in the queue. -/
def wakes (s : Waiter F Q W) (w : W) : Option F :=
  match (s.waitable w).kind with
  | .alarm q f => if f ∈ s.worker.queue q then some f else none
  | .timed | .polled _ => (s.waitable w).fiber

/-- A waitable in the list: an interval is not below zero, and the fiber that is waiting
is asleep. An alarm has a fiber to ring for only. -/
structure Proper (b : Build) (s : Waiter F Q W) (w : W) : Prop where
  timeout : TimeInterval.Tame b.platform (s.waitable w).timeout.toInterval
  interval : ∀ i, (s.waitable w).kind = .polled i →
    TimeInterval.Tame b.platform i ∧ 0 ≤ i.value
  alarm : ∀ q f, (s.waitable w).kind = .alarm q f → (s.waitable w).fiber = none
  asleep : ∀ f, (s.waitable w).fiber = some f → Asleep s.worker f false
  blocked : ∀ q f, (s.waitable w).kind = .alarm q f → f ∈ s.worker.queue q →
    Asleep s.worker f true

/-- What a round does: it polls the waitable, takes it out or puts it back behind now, and
wakes at most its own fiber. -/
structure Rounded (s t : Waiter F Q W) (w : W) (now : Timestamp) (done : Bool) : Prop where
  polls : t.polls = s.polls ++ [(w, done)]
  waiting : t.waiting = if done then s.waiting.erase w
    else (s.waiting.erase w).orderedInsert (WaitsBefore t.waitable) w
  others : ∀ v, v ≠ w → t.waitable v = s.waitable v
  woken : Woken (if done then s.wakes w else none) s.worker t.worker
  timeout : done = false → (t.waitable w).timeout.isBefore now = false
  kind : (t.waitable w).kind = (s.waitable w).kind
  fiber : (t.waitable w).fiber = (s.waitable w).fiber
  done : (∀ i, (s.waitable w).kind ≠ .polled i) → done = true

variable {b : Build} {fired : List (W × Bool) → W → Bool} {now : Timestamp} {w : W}
  {s : Waiter F Q W}

omit [DecidableEq F] [DecidableEq Q] in
/-- The catch-up rule: the next poll is not before now. -/
theorem nextPoll_spec {timeout : Timestamp} {i : TimeInterval}
    (ht : TimeInterval.Tame b.platform timeout.toInterval)
    (hnow : TimeInterval.Tame b.platform now.toInterval)
    (hi : TimeInterval.Tame b.platform i) (h0 : 0 ≤ i.value) :
    ∃ next, nextPoll b timeout now i = .ok next ∧ next.isBefore now = false := by
  obtain ⟨next, hnext, -, -⟩ := Timestamp.add_not_before b.enableAssert ht hi h0
  unfold nextPoll
  rw [hnext]
  cases hb : next.isBefore now with
  | false => exact ⟨next, by simp [timestamp, Except.bind, hb], hb⟩
  | true =>
    obtain ⟨next', hnext', -, hb'⟩ := Timestamp.add_not_before b.enableAssert hnow hi h0
    exact ⟨next', by simp [timestamp, Except.bind, hb, hnext'], hb'⟩

omit [LinearOrder W] [DecidableEq Q] in
/-- The administration of a fiber that waits changes nothing. -/
theorem renap_eq (h : ∀ f, (s.waitable w).fiber = some f →
    (s.worker.fiber (some f)).state = .waiting) : renap b w s = s := by
  unfold renap
  split
  · rename_i f _ hf
    have hnap : (s.worker.fiber (some f)).nap = s.worker.fiber (some f) := by
      simp [Fiber.nap, h f hf]
    rw [hnap, Worker.setFiber, Function.update_eq_self]
  · rfl

omit [LinearOrder W] [DecidableEq Q] in
theorem wake_spec (h : ∀ f, (s.waitable w).fiber = some f → Asleep s.worker f false) :
    ∃ worker, wake w s = .ok { s with worker := worker } ∧
      Woken (s.waitable w).fiber s.worker worker := by
  unfold wake
  cases hf : (s.waitable w).fiber with
  | none => exact ⟨s.worker, rfl, Woken.refl _⟩
  | some f =>
    obtain ⟨worker, hw, hwoken⟩ := wakeFiber_woken (h f hf) true
    exact ⟨worker, by simp only [hw]; rfl, hwoken⟩

variable (fired now)

/-- A waitable that is done without any change leaves the list and wakes its fiber. -/
theorem round_of_done (hp : Proper b s w)
    (hpoll : poll b w (fired s.polls w) now { s with waiting := s.waiting.erase w } =
      .ok ({ s with waiting := s.waiting.erase w }, true))
    (hkind : ∀ q f, (s.waitable w).kind ≠ .alarm q f) :
    ∃ t, round b fired now w s = .ok t ∧ Rounded s t w now true := by
  obtain ⟨worker, hwake, hwoken⟩ := wake_spec (s := { s with
    waiting := s.waiting.erase w, polls := s.polls ++ [(w, true)] }) (w := w) hp.asleep
  have hwakes : s.wakes w = (s.waitable w).fiber := by
    unfold wakes
    cases hk : (s.waitable w).kind with
    | timed => rfl
    | polled i => rfl
    | alarm q f => exact absurd hk (hkind q f)
  refine ⟨{ s with
    worker := worker
    waiting := s.waiting.erase w
    polls := s.polls ++ [(w, true)] }, ?_, rfl, rfl, fun _ _ => rfl, ?_,
    fun h => absurd h (by simp), rfl, rfl, fun _ => rfl⟩
  · rw [round, hpoll]
    exact hwake
  · rw [if_pos rfl, hwakes]
    exact hwoken

/-- A waitable that is polled again later is put back. -/
theorem round_of_again (hp : Proper b s w) (hnodup : s.waiting.Nodup) {next : Timestamp}
    {i : TimeInterval} (hkind : (s.waitable w).kind = .polled i)
    (hpoll : poll b w (fired s.polls w) now { s with waiting := s.waiting.erase w } =
      .ok ({ s with waiting := s.waiting.erase w }.setWaitable w
        { s.waitable w with timeout := next }, false))
    (hnext : next.isBefore now = false) :
    ∃ t, round b fired now w s = .ok t ∧ Rounded s t w now false := by
  have hnot : (s.waiting.erase w).contains w = false := by
    rw [← Bool.not_eq_true, List.contains_iff_mem]
    exact hnodup.not_mem_erase
  refine ⟨{ s with
    waiting := (s.waiting.erase w).orderedInsert
      (WaitsBefore (Function.update s.waitable w { s.waitable w with timeout := next })) w
    waitable := Function.update s.waitable w { s.waitable w with timeout := next }
    polls := s.polls ++ [(w, false)] }, ?_, rfl, rfl, ?_, ?_, ?_, ?_, ?_, ?_⟩
  · rw [round, hpoll]
    simp only [Except.bind, Bool.false_eq_true, if_false, insert, setWaitable, hnot, Except.map]
    rw [renap_eq]
    · rfl
    · intro f hf
      simp only [Function.update_self] at hf
      exact (hp.asleep f hf).state
  · exact fun v hv => Function.update_of_ne hv _ _
  · rw [if_neg Bool.false_ne_true]
    exact Woken.refl _
  · intro _
    simp only [Function.update_self]
    exact hnext
  · simp only [Function.update_self]
  · simp only [Function.update_self]
  · exact fun h => absurd hkind (h i)

/-- An alarm that rings leaves the list and unblocks its fiber. -/
theorem round_of_alarm (hp : Proper b s w) {q : Q} {f : F}
    (hkind : (s.waitable w).kind = .alarm q f)
    (hbefore : (s.waitable w).timeout.isBefore now = true) :
    ∃ t, round b fired now w s = .ok t ∧ Rounded s t w now true := by
  obtain ⟨worker, rang, hunblock, hwoken⟩ : ∃ worker rang,
      Worker.unblock q f false s.worker = .ok (worker, rang) ∧
        Woken (s.wakes w) s.worker worker := by
    by_cases hq : f ∈ s.worker.queue q
    · obtain ⟨worker, hu, hwoken⟩ := unblock_woken hq (hp.blocked q f hkind hq)
      exact ⟨worker, true, hu, by simpa [wakes, hkind, hq] using hwoken⟩
    · refine ⟨s.worker, false, by rw [Worker.unblock, if_neg hq], ?_⟩
      simpa [wakes, hkind, hq] using Woken.refl s.worker
  refine ⟨{ s with
    worker := worker
    waiting := s.waiting.erase w
    waitable := Function.update s.waitable w { s.waitable w with rang := rang }
    polls := s.polls ++ [(w, true)] }, ?_, rfl, rfl, ?_, ?_, ?_, ?_, ?_, fun _ => rfl⟩
  · rw [round, poll]
    simp only [hkind, hbefore, Bool.or_true, if_true, hunblock, Except.map, Except.bind, wake,
      setWaitable, Function.update_self, hp.alarm q f hkind]
  · exact fun v hv => Function.update_of_ne hv _ _
  · rw [if_pos rfl]
    exact hwoken
  · exact fun h => absurd h (by simp)
  · simp only [Function.update_self]
  · simp only [Function.update_self]

variable {fired now}

/-- A round for a waitable that is before now. -/
theorem round_spec (fired : List (W × Bool) → W → Bool)
    (hnow : TimeInterval.Tame b.platform now.toInterval) (hnodup : s.waiting.Nodup)
    (hp : Proper b s w) (hbefore : (s.waitable w).timeout.isBefore now = true) :
    ∃ t done, round b fired now w s = .ok t ∧ Rounded s t w now done := by
  cases hkind : (s.waitable w).kind with
  | timed =>
    obtain ⟨t, ht, hrounded⟩ := round_of_done fired now hp
      (by simp [poll, hkind, hbefore]) (by simp [hkind])
    exact ⟨t, true, ht, hrounded⟩
  | polled i =>
    cases hfired : fired s.polls w with
    | true =>
      obtain ⟨t, ht, hrounded⟩ := round_of_done fired now hp
        (by simp [poll, hkind, hfired]) (by simp [hkind])
      exact ⟨t, true, ht, hrounded⟩
    | false =>
      obtain ⟨hi, h0⟩ := hp.interval i hkind
      obtain ⟨next, hnext, hle⟩ := nextPoll_spec hp.timeout hnow hi h0
      obtain ⟨t, ht, hrounded⟩ := round_of_again fired now hp hnodup hkind
        (by simp [poll, hkind, hfired, hnext, Except.map]) hle
      exact ⟨t, false, ht, hrounded⟩
  | alarm q f =>
    obtain ⟨t, ht, hrounded⟩ := round_of_alarm fired now hp hkind hbefore
    exact ⟨t, true, ht, hrounded⟩

/-! ## The whole loop -/

omit [DecidableEq F] [DecidableEq Q] in
theorem waitsBefore_total (waitable : W → TimedWaitable F Q) (w v : W) :
    WaitsBefore waitable w v ∨ WaitsBefore waitable v w := by
  unfold WaitsBefore
  rw [Timestamp.isBefore_iff, Timestamp.isBefore_iff, Timestamp.ext_iff, Timestamp.ext_iff]
  rcases le_total w v with h | h <;> simp only [h, and_true] <;> omega

omit [DecidableEq F] [DecidableEq Q] in
theorem WaitsBefore.trans {waitable : W → TimedWaitable F Q} {w v u : W}
    (h : WaitsBefore waitable w v) (h' : WaitsBefore waitable v u) :
    WaitsBefore waitable w u := by
  have hle : w ≤ v → v ≤ u → w ≤ u := le_trans
  unfold WaitsBefore at *
  rw [Timestamp.isBefore_iff, Timestamp.ext_iff] at *
  rcases h with h | ⟨h, hwv⟩
  · rcases h' with h' | ⟨h', -⟩ <;> left <;> omega
  · rcases h' with h' | ⟨h', hvu⟩
    · left
      omega
    · right
      exact ⟨⟨h.1.trans h'.1, h.2.trans h'.2⟩, hle hwv hvu⟩

instance (waitable : W → TimedWaitable F Q) : Std.Total (WaitsBefore waitable) :=
  ⟨waitsBefore_total waitable⟩

instance (waitable : W → TimedWaitable F Q) : IsTrans W (WaitsBefore waitable) :=
  ⟨fun _ _ _ => WaitsBefore.trans⟩

omit [DecidableEq F] [DecidableEq Q] in
/-- What is not before now is not put in front of what is. -/
theorem not_waitsBefore {waitable : W → TimedWaitable F Q} {w v : W}
    (hw : (waitable w).timeout.isBefore now = false)
    (hv : (waitable v).timeout.isBefore now = true) : ¬ WaitsBefore waitable w v := by
  unfold WaitsBefore
  rw [Timestamp.isBefore_iff] at hv ⊢
  rw [Timestamp.isBefore_eq_false_iff] at hw
  rw [Timestamp.ext_iff]
  omega

omit [LinearOrder W] [DecidableEq F] [DecidableEq Q] in
/-- What is not put in front of any element of a list goes behind the list. -/
theorem orderedInsert_append {r : W → W → Prop} [DecidableRel r] {l : List W}
    (h : ∀ v ∈ l, ¬ r w v) (l' : List W) :
    (l ++ l').orderedInsert r w = l ++ l'.orderedInsert r w := by
  induction l with
  | nil => rfl
  | cons v l ih =>
    rw [List.cons_append, List.orderedInsert_of_not_le _ _ (h v (List.mem_cons_self ..)),
      ih fun u hu => h u (List.mem_cons_of_mem _ hu), List.cons_append]

omit [LinearOrder W] [DecidableEq Q] in
theorem sleeper_of_wakes {f : F} (h : s.wakes w = some f) :
    sleeper (s.waitable w) = some f := by
  unfold wakes at h
  unfold sleeper
  cases hk : (s.waitable w).kind with
  | timed => simpa [hk] using h
  | polled i => simpa [hk] using h
  | alarm q g =>
    simp only [hk] at h
    exact (Option.ite_none_right_eq_some.1 h).2

omit [DecidableEq F] [DecidableEq Q] in
theorem Asleep.of_woken {V : Type*} {u t : Worker F Q V} {o : Option F} {f : F} {linked : Bool}
    (h : Asleep u f linked) (hw : Woken o u t) (hf : o ≠ some f) : Asleep t f linked := by
  have hfiber := hw.others f hf
  refine ⟨hfiber ▸ h.state, hfiber ▸ h.stateNext, hfiber ▸ h.linked, fun hmem => ?_⟩
  rcases List.mem_append.1 (hw.runnable.mem_iff.1 hmem) with hmem | hmem
  · exact hf (Option.mem_toList.1 hmem)
  · exact h.runnable hmem

variable {t : Waiter F Q W} {v : W} {done : Bool}

omit [LinearOrder W] [DecidableEq Q] in
/-- The fiber of another waitable was not woken. -/
theorem not_woken (done : Bool) {f : F}
    (hdistinct : ∀ f, sleeper (s.waitable w) = some f → sleeper (s.waitable v) ≠ some f)
    (hf : sleeper (s.waitable v) = some f) :
    (if done then s.wakes w else none) ≠ some f := by
  intro heq
  obtain ⟨-, hwakes⟩ : done = true ∧ s.wakes w = some f := Option.ite_none_right_eq_some.1 heq
  exact hdistinct f (sleeper_of_wakes hwakes) hf

omit [DecidableEq Q] in
/-- A round leaves the other waitables as they are. -/
theorem Proper.of_rounded (hp : Proper b s v) (h : Rounded s t w now done) (hne : v ≠ w)
    (hdistinct : ∀ f, sleeper (s.waitable w) = some f → sleeper (s.waitable v) ≠ some f) :
    Proper b t v := by
  have hsame := h.others v hne
  refine ⟨hsame ▸ hp.timeout, hsame ▸ hp.interval, hsame ▸ hp.alarm, fun f hf => ?_,
    fun q f hk hq => ?_⟩
  · rw [hsame] at hf
    have hs : sleeper (s.waitable v) = some f := by
      unfold sleeper
      cases hk : (s.waitable v).kind with
      | timed => exact hf
      | polled i => exact hf
      | alarm q g => rw [hp.alarm q g hk] at hf; simp at hf
    exact (hp.asleep f hf).of_woken h.woken (not_woken done hdistinct hs)
  · rw [hsame] at hk
    have hs : sleeper (s.waitable v) = some f := by simp [sleeper, hk]
    have hnot := not_woken done hdistinct hs
    exact (hp.blocked q f hk ((h.woken.queue q f hnot).1 hq)).of_woken h.woken hnot

omit [DecidableEq Q] in
theorem Rounded.wakes_eq (h : Rounded s t w now done) (hne : v ≠ w)
    (hdistinct : ∀ f, sleeper (s.waitable w) = some f → sleeper (s.waitable v) ≠ some f) :
    t.wakes v = s.wakes v := by
  unfold wakes
  rw [h.others v hne]
  cases hk : (s.waitable v).kind with
  | timed => rfl
  | polled i => rfl
  | alarm q f =>
    have hsleeper : sleeper (s.waitable v) = some f := by simp [sleeper, hk]
    have hnot := not_woken done hdistinct hsleeper
    simp only [h.woken.queue q f hnot]

/-- The list is in order: first the waitables that are before now, then the others. The
former are proper, and no two of them are waited for by one fiber. -/
structure Content (b : Build) (s : Waiter F Q W) (now : Timestamp) (early late : List W) :
    Prop where
  waiting : s.waiting = early ++ late
  nodup : s.waiting.Nodup
  sorted : s.waiting.Pairwise (WaitsBefore s.waitable)
  before : ∀ w ∈ early, (s.waitable w).timeout.isBefore now = true
  behind : ∀ w ∈ late, (s.waitable w).timeout.isBefore now = false
  proper : ∀ w ∈ early, Proper b s w
  distinct : ∀ w ∈ early, ∀ v ∈ early, ∀ f,
    sleeper (s.waitable w) = some f → sleeper (s.waitable v) = some f → w = v

omit [DecidableEq Q] in
/-- After a round, one waitable less is before now. -/
theorem Content.of_rounded {early late : List W} (h : Content b s now (w :: early) late)
    (hr : Rounded s t w now done) :
    Content b t now early
      (if done then late else late.orderedInsert (WaitsBefore t.waitable) w) := by
  have hnodup : (w :: (early ++ late)).Nodup := by
    have := h.nodup
    rwa [h.waiting] at this
  have hsorted : (w :: (early ++ late)).Pairwise (WaitsBefore s.waitable) := by
    have := h.sorted
    rwa [h.waiting] at this
  obtain ⟨hnot, hnodup⟩ := List.nodup_cons.1 hnodup
  have herase : s.waiting.erase w = early ++ late := by
    rw [h.waiting, List.cons_append, List.erase_cons_head]
  have hne : ∀ v ∈ early ++ late, v ≠ w := fun v hv hvw => hnot (hvw ▸ hv)
  have hearly : ∀ v ∈ early, v ≠ w := fun v hv => hne v (List.mem_append_left _ hv)
  have hbefore : ∀ v ∈ early, (t.waitable v).timeout.isBefore now = true := fun v hv => by
    rw [hr.others v (hearly v hv)]
    exact h.before v (List.mem_cons_of_mem _ hv)
  have hlate : ∀ v ∈ late, (t.waitable v).timeout.isBefore now = false := fun v hv => by
    rw [hr.others v (hne v (List.mem_append_right _ hv))]
    exact h.behind v hv
  have hsorted' : (early ++ late).Pairwise (WaitsBefore t.waitable) := by
    refine (List.pairwise_cons.1 hsorted).2.imp_of_mem fun {x y} hx hy hxy => ?_
    unfold WaitsBefore at hxy ⊢
    rwa [hr.others x (hne x hx), hr.others y (hne y hy)]
  have hdistinct : ∀ v ∈ early, ∀ f,
      sleeper (s.waitable w) = some f → sleeper (s.waitable v) ≠ some f := fun v hv f hw hv' =>
    hearly v hv (h.distinct w (List.mem_cons_self ..) v (List.mem_cons_of_mem _ hv) f hw hv').symm
  have hproper : ∀ v ∈ early, Proper b t v := fun v hv =>
    (h.proper v (List.mem_cons_of_mem _ hv)).of_rounded hr (hearly v hv) (hdistinct v hv)
  have hdistinct' : ∀ v ∈ early, ∀ u ∈ early, ∀ f,
      sleeper (t.waitable v) = some f → sleeper (t.waitable u) = some f → v = u := by
    intro v hv u hu f hvf huf
    rw [hr.others v (hearly v hv)] at hvf
    rw [hr.others u (hearly u hu)] at huf
    exact h.distinct v (List.mem_cons_of_mem _ hv) u (List.mem_cons_of_mem _ hu) f hvf huf
  have hwaiting := hr.waiting
  rw [herase] at hwaiting
  cases done with
  | true =>
    simp only [if_true] at hwaiting ⊢
    refine ⟨hwaiting, ?_, ?_, hbefore, hlate, hproper, hdistinct'⟩
    · rw [hwaiting]
      exact hnodup
    · rw [hwaiting]
      exact hsorted'
  | false =>
    simp only [Bool.false_eq_true, if_false] at hwaiting ⊢
    refine ⟨?_, ?_, ?_, hbefore, ?_, hproper, hdistinct'⟩
    · rw [hwaiting]
      exact orderedInsert_append (fun v hv => not_waitsBefore (hr.timeout rfl) (hbefore v hv)) late
    · rw [hwaiting]
      exact (List.perm_orderedInsert _ w _).nodup_iff.2 (List.nodup_cons.2 ⟨hnot, hnodup⟩)
    · rw [hwaiting]
      exact hsorted'.orderedInsert w _
    · intro v hv
      rcases (List.mem_orderedInsert _).1 hv with rfl | hv
      · exact hr.timeout rfl
      · exact hlate v hv

omit [LinearOrder W] [DecidableEq F] [DecidableEq Q] in
theorem filterMap_cons_eq {α β : Type*} (g : α → Option β) (a : α) (l : List α) :
    (a :: l).filterMap g = (g a).toList ++ l.filterMap g := by
  rw [List.filterMap_cons]
  cases g a with
  | none => rfl
  | some b => rfl

/-- What the loop does with the waitables that are before now. The polls it does are in the
log. -/
structure Expired (s t : Waiter F Q W) (now : Timestamp) (early late : List W)
    (log : List (W × Bool)) : Prop where
  polls : t.polls = s.polls ++ log
  polled : log.map Prod.fst = early
  waiting : t.waiting.Perm (late ++ (log.filter fun x => !x.2).map Prod.fst)
  sorted : t.waiting.Pairwise (WaitsBefore t.waitable)
  behind : ∀ w ∈ t.waiting, (t.waitable w).timeout.isBefore now = false
  others : ∀ w, w ∉ early → t.waitable w = s.waitable w
  runnable : t.worker.runnableQueue.Perm
    (log.filterMap (fun x => if x.2 then s.wakes x.1 else none) ++ s.worker.runnableQueue)
  ready : ∀ w f, (w, true) ∈ log → s.wakes w = some f →
    (t.worker.fiber (some f)).state = .ready
  asleep : ∀ g, (∀ w, (w, true) ∈ log → s.wakes w ≠ some g) →
    t.worker.fiber (some g) = s.worker.fiber (some g)
  done : ∀ w ∈ early, (∀ i, (s.waitable w).kind ≠ .polled i) → (w, true) ∈ log

omit [DecidableEq Q] in
/-- One round, and the loop for the waitables that are left. -/
theorem Expired.cons {u : Waiter F Q W} {early late : List W} {log : List (W × Bool)}
    (hc : Content b s now (w :: early) late) (hr : Rounded s t w now done)
    (h : Expired t u now early
      (if done then late else late.orderedInsert (WaitsBefore t.waitable) w) log) :
    Expired s u now (w :: early) late ((w, done) :: log) := by
  have hnot : w ∉ early := by
    have hnodup := hc.nodup
    rw [hc.waiting, List.cons_append, List.nodup_cons] at hnodup
    exact fun hw => hnodup.1 (List.mem_append_left _ hw)
  have hmem : ∀ {v : W} {r : Bool}, (v, r) ∈ log → v ∈ early := fun hx =>
    h.polled ▸ List.mem_map_of_mem hx
  have hne : ∀ v ∈ early, v ≠ w := fun v hv hvw => hnot (hvw ▸ hv)
  have hdistinct : ∀ v ∈ early, ∀ f,
      sleeper (s.waitable w) = some f → sleeper (s.waitable v) ≠ some f := fun v hv f hw hv' =>
    hne v hv (hc.distinct w (List.mem_cons_self ..) v (List.mem_cons_of_mem _ hv) f hw hv').symm
  have hwakes : ∀ v ∈ early, t.wakes v = s.wakes v := fun v hv =>
    hr.wakes_eq (hne v hv) (hdistinct v hv)
  -- No fiber that was not woken in the rounds that follow has changed in them.
  have hlater : ∀ g, (∀ v, (v, true) ∈ log → s.wakes v ≠ some g) →
      u.worker.fiber (some g) = t.worker.fiber (some g) := fun g hg =>
    h.asleep g fun v hv => by
      rw [hwakes v (hmem hv)]
      exact hg v hv
  refine ⟨?_, ?_, ?_, h.sorted, h.behind, ?_, ?_, ?_, ?_, ?_⟩
  · rw [h.polls, hr.polls, List.append_assoc, List.singleton_append]
  · rw [List.map_cons, h.polled]
  · refine h.waiting.trans ?_
    cases done with
    | true => exact List.Perm.refl _
    | false =>
      have hput := List.perm_orderedInsert (WaitsBefore t.waitable) w late
      exact (hput.append_right _).trans List.perm_middle.symm
  · intro v hv
    rw [List.mem_cons, not_or] at hv
    rw [h.others v hv.2, hr.others v hv.1]
  · have hlog : log.filterMap (fun x => if x.2 then t.wakes x.1 else none) =
        log.filterMap (fun x => if x.2 then s.wakes x.1 else none) := by
      apply List.filterMap_congr
      rintro ⟨v, r⟩ hv
      simp only [hwakes v (hmem hv)]
    have hcons : ((w, done) :: log).filterMap (fun x => if x.2 then s.wakes x.1 else none) =
        (if done then s.wakes w else none).toList ++
          log.filterMap (fun x => if x.2 then s.wakes x.1 else none) := filterMap_cons_eq _ _ _
    rw [hcons, List.append_assoc]
    refine h.runnable.trans ?_
    rw [hlog]
    refine (hr.woken.runnable.append_left _).trans ?_
    rw [← List.append_assoc, ← List.append_assoc]
    exact List.perm_append_comm.append_right _
  · intro v f hv hf
    rcases List.mem_cons.1 hv with hv | hv
    · obtain ⟨rfl, rfl⟩ := Prod.mk.inj hv
      rw [hlater f fun x hx hxf =>
        hdistinct x (hmem hx) f (sleeper_of_wakes hf) (sleeper_of_wakes hxf)]
      exact hr.woken.ready f hf
    · exact h.ready v f hv (by rw [hwakes v (hmem hv), hf])
  · intro g hg
    rw [hlater g fun v hv => hg v (List.mem_cons_of_mem _ hv)]
    apply hr.woken.others g
    cases done with
    | true => exact hg w (List.mem_cons_self ..)
    | false => simp
  · intro v hv hk
    rcases List.mem_cons.1 hv with rfl | hv
    · rw [hr.done hk]
      exact List.mem_cons_self ..
    · refine List.mem_cons_of_mem _ (h.done v hv ?_)
      rw [hr.others v (hne v hv)]
      exact hk

/-- The loop ends, with one round for each waitable that is before now. -/
theorem expiryLoop_spec (fired : List (W × Bool) → W → Bool)
    (hnow : TimeInterval.Tame b.platform now.toInterval) {early late : List W}
    (hc : Content b s now early late) :
    ∃ t log, expiryLoop b fired now (early.length + 1) s = .ok t ∧
      Expired s t now early late log := by
  induction early generalizing s late with
  | nil =>
    refine ⟨s, [], ?_, by simp, rfl, by simp [hc.waiting], hc.sorted, ?_, fun _ _ => rfl,
      List.Perm.refl _, by simp, fun _ _ => rfl, by simp⟩
    · have hwaiting := hc.waiting
      unfold expiryLoop
      cases hl : late with
      | nil => simp [hwaiting, hl]
      | cons v late =>
        have hv := hc.behind v (hl ▸ List.mem_cons_self ..)
        simp [hwaiting, hl, hv]
    · intro w hw
      exact hc.behind w (by rwa [hc.waiting] at hw)
  | cons w early ih =>
    obtain ⟨t, done, ht, hr⟩ := round_spec fired hnow hc.nodup
      (hc.proper w (List.mem_cons_self ..)) (hc.before w (List.mem_cons_self ..))
    obtain ⟨u, log, hu, hexpired⟩ := ih (hc.of_rounded hr)
    refine ⟨u, (w, done) :: log, ?_, hexpired.cons hc hr⟩
    rw [List.length_cons, expiryLoop]
    simp only [hc.waiting, List.cons_append, hc.before w (List.mem_cons_self ..), if_true, ht]
    exact hu

omit [DecidableEq F] [DecidableEq Q] in
/-- In a list that is in order, what is before now comes first. -/
theorem exists_split (waitable : W → TimedWaitable F Q) (now : Timestamp) {l : List W}
    (h : l.Pairwise (WaitsBefore waitable)) :
    ∃ early late, l = early ++ late ∧
      (∀ w ∈ early, (waitable w).timeout.isBefore now = true) ∧
      ∀ w ∈ late, (waitable w).timeout.isBefore now = false := by
  induction l with
  | nil => exact ⟨[], [], rfl, by simp, by simp⟩
  | cons w l ih =>
    obtain ⟨hw, hl⟩ := List.pairwise_cons.1 h
    cases hb : (waitable w).timeout.isBefore now with
    | true =>
      obtain ⟨early, late, rfl, hearly, hlate⟩ := ih hl
      exact ⟨w :: early, late, rfl, List.forall_mem_cons.2 ⟨hb, hearly⟩, hlate⟩
    | false =>
      refine ⟨[], w :: l, rfl, by simp, List.forall_mem_cons.2 ⟨hb, fun v hv => ?_⟩⟩
      rw [← Bool.not_eq_true]
      exact fun hv' => not_waitsBefore hb hv' (hw v hv)

omit [LinearOrder W] [DecidableEq Q] in
/-- A fiber that is made runnable was not runnable before. -/
theorem Proper.not_runnable (h : Proper b s w) {f : F} (hf : s.wakes w = some f) :
    f ∉ s.worker.runnableQueue := by
  unfold wakes at hf
  cases hk : (s.waitable w).kind with
  | timed =>
    rw [hk] at hf
    exact (h.asleep f hf).runnable
  | polled i =>
    rw [hk] at hf
    exact (h.asleep f hf).runnable
  | alarm q g =>
    simp only [hk] at hf
    obtain ⟨hq, hg⟩ := Option.ite_none_right_eq_some.1 hf
    rw [← Option.some_inj.1 hg]
    exact (h.blocked q g hk hq).runnable

omit [DecidableEq Q] in
/-- The waitables that are not done, and those that were not before now, are in the list. -/
theorem Expired.mem_waiting_iff (hnodup : s.waiting.Nodup) {early late : List W}
    {log : List (W × Bool)} (hwaiting : s.waiting = early ++ late)
    (h : Expired s t now early late log) (hw : w ∈ s.waiting) :
    w ∈ t.waiting ↔ (w, true) ∉ log := by
  rw [hwaiting] at hnodup hw
  obtain ⟨hnearly, -, hdisjoint⟩ := List.nodup_append.1 hnodup
  have hmem : ∀ {r : Bool}, (w, r) ∈ log → w ∈ early := fun hx =>
    h.polled ▸ List.mem_map_of_mem hx
  rw [h.waiting.mem_iff, List.mem_append, List.mem_map]
  constructor
  · rintro (hl | ⟨⟨v, r⟩, hv, rfl⟩) htrue
    · exact hdisjoint w (hmem htrue) w hl rfl
    · obtain ⟨hv, hr⟩ := List.mem_filter.1 hv
      -- No waitable is polled twice.
      have heq := List.inj_on_of_nodup_map (h.polled ▸ hnearly) hv htrue rfl
      rw [heq] at hr
      exact absurd hr (by simp)
  · intro hnot
    rcases List.mem_append.1 hw with he | hl
    · rw [← h.polled] at he
      obtain ⟨⟨v, r⟩, hv, rfl⟩ := List.mem_map.1 he
      cases r with
      | true => exact absurd hv hnot
      | false => exact Or.inr ⟨_, List.mem_filter.2 ⟨hv, rfl⟩, rfl⟩
    · exact Or.inl hl

/-- Every waitable in the list is proper, and no two of them are waited for by one fiber. -/
structure Orderly (b : Build) (s : Waiter F Q W) : Prop where
  nodup : s.waiting.Nodup
  sorted : s.waiting.Pairwise (WaitsBefore s.waitable)
  proper : ∀ w ∈ s.waiting, Proper b s w
  distinct : ∀ w ∈ s.waiting, ∀ v ∈ s.waiting, ∀ f,
    sleeper (s.waitable w) = some f → sleeper (s.waitable v) = some f → w = v

omit [DecidableEq Q] in
/-- The fibers that are made runnable are so exactly once. -/
theorem Expired.count_runnable (ho : Orderly b s) {early late : List W}
    {log : List (W × Bool)} (hwaiting : s.waiting = early ++ late)
    (h : Expired s t now early late log) {f : F} (hw : (w, true) ∈ log)
    (hf : s.wakes w = some f) : t.worker.runnableQueue.count f = 1 := by
  have hmem : ∀ {x : W × Bool}, x ∈ log → x.1 ∈ s.waiting := fun hx => by
    rw [hwaiting]
    exact List.mem_append_left _ (h.polled ▸ List.mem_map_of_mem hx)
  have hlog : log.Nodup := by
    apply List.Nodup.of_map Prod.fst
    rw [h.polled]
    exact (hwaiting ▸ ho.nodup).of_append_left
  have hnodup : (log.filterMap fun x => if x.2 then s.wakes x.1 else none).Nodup := by
    refine List.pairwise_filterMap.2 (hlog.imp_of_mem fun {x y} hx hy hxy => ?_)
    rintro g hg g' hg' rfl
    obtain ⟨hxt, hxg⟩ := Option.ite_none_right_eq_some.1 hg
    obtain ⟨hyt, hyg⟩ := Option.ite_none_right_eq_some.1 hg'
    have heq := ho.distinct x.1 (hmem hx) y.1 (hmem hy) g (sleeper_of_wakes hxg)
      (sleeper_of_wakes hyg)
    exact hxy (Prod.ext heq (hxt.trans hyt.symm))
  have hin : f ∈ log.filterMap fun x => if x.2 then s.wakes x.1 else none :=
    List.mem_filterMap.2 ⟨(w, true), hw, by simpa using hf⟩
  have hout := (ho.proper w (hmem hw)).not_runnable hf
  rw [h.runnable.count_eq, List.count_append, List.count_eq_one_of_mem hnodup hin,
    List.count_eq_zero_of_not_mem hout]

/-- The loop ends, also after many missed intervals and for intervals of zero. Exactly the
waitables that were before now are polled, each of them once. Those that are done are
taken out, and their fibers are runnable, exactly once; the others stay in the list, and
those that were not before now are untouched. The first one that is left is not before
now. -/
theorem expiryLoop_exact (b : Build) (fired : List (W × Bool) → W → Bool) (now : Timestamp)
    (s : Waiter F Q W) (hnow : TimeInterval.Normal b.platform now.toInterval)
    (h : Orderly b s) :
    ∃ n t log, expiryLoop b fired now n s = .ok t ∧ t.polls = s.polls ++ log ∧
      (log.map Prod.fst).Nodup ∧
      (∀ w, w ∈ log.map Prod.fst ↔
        w ∈ s.waiting ∧ (s.waitable w).timeout.isBefore now = true) ∧
      (∀ w ∈ log.map Prod.fst, (∀ i, (s.waitable w).kind ≠ .polled i) → (w, true) ∈ log) ∧
      (∀ w ∈ s.waiting, w ∈ t.waiting ↔ (w, true) ∉ log) ∧
      (∀ w f, (w, true) ∈ log → s.wakes w = some f →
        (t.worker.fiber (some f)).state = .ready ∧ t.worker.runnableQueue.count f = 1) ∧
      (∀ g, (∀ w, (w, true) ∈ log → s.wakes w ≠ some g) →
        t.worker.fiber (some g) = s.worker.fiber (some g)) ∧
      (∀ w ∈ s.waiting, (s.waitable w).timeout.isBefore now = false →
        w ∈ t.waiting ∧ t.waitable w = s.waitable w) ∧
      (t.waiting = [] ∨
        ∃ w, t.waiting.head? = some w ∧ (t.waitable w).timeout.isBefore now = false) := by
  obtain ⟨early, late, hwaiting, hearly, hlate⟩ := exists_split s.waitable now h.sorted
  have hleft : ∀ w ∈ early, w ∈ s.waiting := fun w hw => by
    rw [hwaiting]
    exact List.mem_append_left _ hw
  obtain ⟨t, log, ht, he⟩ := expiryLoop_spec fired hnow.tame
    ⟨hwaiting, h.nodup, h.sorted, hearly, hlate, fun w hw => h.proper w (hleft w hw),
      fun w hw v hv => h.distinct w (hleft w hw) v (hleft v hv)⟩
  have hnodup := h.nodup
  rw [hwaiting] at hnodup
  have hpolled : ∀ w, w ∈ log.map Prod.fst ↔
      w ∈ s.waiting ∧ (s.waitable w).timeout.isBefore now = true := by
    intro w
    rw [he.polled, hwaiting, List.mem_append]
    constructor
    · exact fun hw => ⟨Or.inl hw, hearly w hw⟩
    · rintro ⟨hw, hb⟩
      refine hw.resolve_right fun hw => ?_
      rw [hlate w hw] at hb
      exact Bool.false_ne_true hb
  have hstay : ∀ w ∈ s.waiting, w ∈ t.waiting ↔ (w, true) ∉ log := fun w hw =>
    he.mem_waiting_iff h.nodup hwaiting hw
  refine ⟨_, t, log, ht, he.polls, ?_, hpolled, ?_, hstay, ?_, he.asleep, ?_, ?_⟩
  · rw [he.polled]
    exact hnodup.of_append_left
  · rw [he.polled]
    exact he.done
  · exact fun w f hw hf => ⟨he.ready w f hw hf, he.count_runnable h hwaiting hw hf⟩
  · intro w hw hb
    have hnot : w ∉ log.map Prod.fst := fun hmem => by
      rw [((hpolled w).1 hmem).2] at hb
      exact Bool.false_ne_true hb.symm
    refine ⟨(hstay w hw).2 fun hmem => hnot (List.mem_map_of_mem hmem), he.others w ?_⟩
    rwa [he.polled] at hnot
  · cases hl : t.waiting with
    | nil => exact Or.inl rfl
    | cons w l => exact Or.inr ⟨w, rfl, he.behind w (hl ▸ List.mem_cons_self ..)⟩

/-- Two fibers wait: fiber 7 until a second, and fiber 8 for a function that is polled
every 300 milliseconds. -/
def twoWaiting : Waiter ℕ ℕ ℕ where
  worker :=
    { fiber := fun _ => ⟨.waiting, .ready, true, false⟩
      currentFiber := none
      runnableQueue := []
      suspendedQueue := []
      queue := fun _ => []
      waiting := []
      waitable := Empty.elim
      frame := fun _ => .user
      polling := false
      runEnd := 0
      disableContextSwitch := 0
      held := fun _ => false
      owner := Empty.elim
      fault := none }
  waiting := [0, 1]
  waitable := fun w =>
    if w = 0 then ⟨⟨1, 0⟩, some 7, .timed, false⟩
    else ⟨⟨2, 500000000⟩, some 8, .polled ⟨0, 300000000, false⟩, false⟩
  polls := []

theorem expiryLoop_exact_twoWaiting :
    TimeInterval.Normal Platform.lp64 (Timestamp.toInterval ⟨9, 0⟩) ∧
    Orderly ⟨true, true, Platform.lp64⟩ twoWaiting ∧
    ∃ n t log, expiryLoop ⟨true, true, Platform.lp64⟩ (fun _ _ => false) ⟨9, 0⟩ n twoWaiting =
      .ok t ∧ (0, true) ∈ log ∧ t.polls = log ∧ t.worker.runnableQueue.count 7 = 1 := by
  have hnow : TimeInterval.Normal Platform.lp64 (Timestamp.toInterval ⟨9, 0⟩) :=
    ⟨by decide, by decide, by decide, by decide⟩
  have horderly : Orderly ⟨true, true, Platform.lp64⟩ twoWaiting := by
    refine ⟨by decide, by decide, fun w hw => ?_, fun w hw v hv f hf hf' => ?_⟩
    · rcases List.mem_pair.1 hw with rfl | rfl
      · exact ⟨⟨by decide, by decide, by decide, by decide⟩, by simp [twoWaiting],
          by simp [twoWaiting], fun _ _ => ⟨rfl, rfl, rfl, List.not_mem_nil⟩,
          by simp [twoWaiting]⟩
      · refine ⟨⟨by decide, by decide, by decide, by decide⟩, fun i hi => ?_,
          by simp [twoWaiting], fun _ _ => ⟨rfl, rfl, rfl, List.not_mem_nil⟩,
          by simp [twoWaiting]⟩
        obtain rfl : (⟨0, 300000000, false⟩ : TimeInterval) = i := by
          simpa [twoWaiting] using hi
        exact ⟨⟨by decide, by decide, by decide, by decide⟩, by decide⟩
    · rcases List.mem_pair.1 hw with rfl | rfl <;> rcases List.mem_pair.1 hv with rfl | rfl <;>
        simp [sleeper, twoWaiting] at hf hf' <;> omega
  obtain ⟨n, t, log, ht, hpolls, -, hpolled, hdone, -, hready, -⟩ :=
    expiryLoop_exact ⟨true, true, Platform.lp64⟩ (fun _ _ => false) ⟨9, 0⟩ twoWaiting hnow
      horderly
  have h0 : (0, true) ∈ log :=
    hdone 0 ((hpolled 0).2 ⟨by decide, by decide⟩) (by simp [twoWaiting])
  exact ⟨hnow, horderly, n, t, log, ht, h0, hpolls, (hready 0 7 h0 rfl).2⟩

end Waiter

end Zth
