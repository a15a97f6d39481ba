import Mathlib.Algebra.Group.Int.Defs
import Mathlib.Algebra.Group.Nat.Defs
import Zth.Worker.Schedule
import Zth.Worker.WaitingList

/-!
# The waiter puts the thread to sleep

When the waiter has nothing to expire and `schedule` returns without having done
anything, it takes itself to be the only fiber that can run, and blocks the thread
until the first deadline. `schedule` indeed did nothing only if the waiter was in front
of the runnable queue; but that does not mean that nobody is behind it.

When there is something to poll, the remaining time goes through a number of seconds
and of milliseconds in single precision, and then to an `int`.
-/

namespace Zth

/-- `TimeInterval::s<float>` of an interval of that many nanoseconds. Every operation
rounds to single precision. -/
def TimeInterval.s (ns : ℕ) : Float32 :=
  .ofModel (.ofNat (ns / 10 ^ 9)) + .ofModel (.ofNat (ns % 10 ^ 9)) * 1e-9

/-- The time-out of a poll in milliseconds, for the remaining time in nanoseconds. The
conversion to an `int` is undefined if the value does not fit. -/
def timeoutMs (dt : ℤ) : Option ℕ :=
  let ms := TimeInterval.s dt.natAbs * 1000
  if dt < 0 then if ms ≤ 2147483648 then some 0 else none
  else if ms < 2147483648 then some ms.toUInt32.toNat else none

/-- The blocking operation of the waiter: none, as a poll with time-out zero does not
block; until some time; without an end; or an undefined one. -/
inductive Sleep where
  | awake
  | upTo (time : ℕ)
  | forever
  | undefined
deriving DecidableEq, Repr

/-- A sleep that is over at the deadline. -/
def Sleep.EndsBy (deadline : ℕ) : Sleep → Prop
  | awake => True
  | upTo time => time ≤ deadline
  | forever | undefined => False

namespace Worker

variable {F Q W : Type*} [DecidableEq F] {s : Worker F Q W}

/-- `end`: the timeout of the first waitable, or the end of the run if that is earlier. -/
def sleepEnd (s : Worker F Q W) : Option ℕ :=
  match s.waiting.head? with
  | none => if s.runEnd ≠ 0 then some s.runEnd else none
  | some w =>
      if s.runEnd ≠ 0 ∧ s.runEnd < (s.waitable w).timeout then some s.runEnd
      else some (s.waitable w).timeout

/-- What the waiter does for a real sleep. Without anything to poll, `end` is
dereferenced. -/
def realSleep (now : ℕ) (s : Worker F Q W) : Sleep :=
  match s.polling, s.sleepEnd with
  | true, none => .forever
  | true, some time =>
      match timeoutMs (time - now) with
      | none => .undefined
      | some 0 => .awake
      | some (ms + 1) => .upTo (now + (ms + 1) * 10 ^ 6)
  | false, none => .undefined
  | false, some time => .upTo time

/-- When the waiter blocks the thread, no other fiber is in the runnable queue, and it
is back in time for every deadline and for the end of the run. -/
def SleepsWithin (waiter : F) (s : Worker F Q W) : Action F Q W → Prop
  | .sleep now => s.waiterFrame waiter = some (.sleep true) →
      (∀ f ∈ s.runnableQueue, f = waiter) ∧ s.realSleep now ≠ .undefined ∧
      (∀ w ∈ s.waiting, (s.realSleep now).EndsBy (s.waitable w).timeout) ∧
      (s.runEnd ≠ 0 → (s.realSleep now).EndsBy s.runEnd)
  | _ => True

/-- The remaining time in milliseconds, in single precision, fits in an `int` and is
not rounded up to more whole milliseconds than there are left. -/
def RoundsDown (dt : ℤ) : Prop :=
  if dt < 0 then TimeInterval.s dt.natAbs * 1000 ≤ 2147483648
  else TimeInterval.s dt.natAbs * 1000 < 2147483648 ∧
    ((TimeInterval.s dt.natAbs * 1000).toUInt32.toNat : ℤ) ≤ dt / 10 ^ 6

/-- The waiter, when it calls `schedule`, is not in front of other fibers in the
runnable queue; and the time left for a poll is not rounded up. -/
def Rested (waiter : F) (s : Worker F Q W) : Action F Q W → Prop
  | .decide now => (s.waiting ≠ [] ∨ s.polling = true) → (s.runEnd = 0 ∨ now ≤ s.runEnd) →
      s.runnableQueue.head? = some waiter → s.runnableQueue = [waiter]
  | .sleep now => s.polling = true → ∀ time, s.sleepEnd = some time → RoundsDown (time - now)
  | _ => True

/-- A dispatch that returns right away found the current fiber. -/
theorem dispatch_eagain (next : Option F) (s : Worker F Q W) :
    (dispatch next s).Sat (fun _ => True) fun x =>
      x.2 = .eagain → s.currentFiber = next ∧ x.1 = s := by
  rw [dispatch]
  split
  · split
    · trivial
    · intro h
      cases h
  · split
    · rename_i hcur
      exact fun _ => ⟨hcur, rfl⟩
    · trivial
  · intro h
    cases h
  all_goals trivial

theorem run_eagain (created : Contexts F) (next : Option F) (s : Worker F Q W) :
    (run created next s).Sat (fun _ => True) fun x => x.2 = .eagain →
      s.currentFiber = next ∧ x.1.currentFiber = s.currentFiber ∧
        x.1.runnableQueue = s.runnableQueue := by
  refine sat_run (fun _ _ => ?_) (fun _ _ => trivial) fun _ => ?_
  · refine (dispatch_eagain next _).mono fun x hx h => ?_
    obtain ⟨hcur, ht⟩ := hx h
    rw [ht]
    exact ⟨hcur, rfl, rfl⟩
  · refine (dispatch_eagain next s).mono fun x hx h => ?_
    obtain ⟨hcur, ht⟩ := hx h
    rw [ht]
    exact ⟨hcur, rfl, rfl⟩

theorem attempt_eagain (created : Contexts F) (next : Option F) (s : Worker F Q W) :
    (attempt created next s).Sat (fun _ => True) fun x => x.2 = .eagain →
      s.currentFiber = next ∧ x.1.currentFiber = s.currentFiber ∧
        ∀ f, next = some f → x.1.runnableQueue = rotateBehind f s.runnableQueue := by
  cases next with
  | none =>
      refine (run_eagain created none s).mono fun x hx h => ?_
      exact ⟨(hx h).1, (hx h).2.1, by simp⟩
  | some f =>
      rw [attempt]
      split
      · refine (run_eagain created (some f) _).mono fun x hx h => ?_
        obtain ⟨hcur, ht, hqueue⟩ := hx h
        refine ⟨hcur, ht, fun g hg => ?_⟩
        rw [← Option.some.inj hg]
        exact hqueue
      · trivial

/-- The loop of `schedule` did nothing only if the first fiber it tried was the current
one: once it cleaned up a fiber, it returns as having done something. -/
theorem reschedule_did_nothing (created : Contexts F) (n : ℕ)
    (prefer : Option (Option F)) (did : Bool) (s : Worker F Q W) :
    (reschedule created n prefer did s).Sat (fun _ => True) fun x =>
      x.2 = .returned false → did = false ∧
        s.currentFiber = prefer.getD s.runnableQueue.head? ∧
        x.1.currentFiber = s.currentFiber ∧
        ∀ f, prefer.getD s.runnableQueue.head? = some f →
          x.1.runnableQueue = rotateBehind f s.runnableQueue := by
  induction n generalizing s prefer did with
  | zero => trivial
  | succ n ih =>
      rw [reschedule]
      refine (attempt_eagain created _ s).bind ?_
      rintro ⟨t, _ | _ | _⟩ ht
      · intro h
        cases h
      · intro h
        exact ⟨Schedule.returned.inj h, ht rfl⟩
      · dsimp only
        split
        · trivial
        · rename_i f _
          split
          · refine (rescheduled_attempt created none t).bind ?_
            rintro ⟨u, _ | _ | _⟩ -
            · intro h
              cases h
            · trivial
            · trivial
          · refine (rescheduled_remove f t).bind fun u _ => ?_
            exact (ih none true u).mono fun x hx h => absurd (hx h).1 (by simp)

/-- `schedule` of a fiber did nothing only if that was in front of the queue, and time
was not up. -/
theorem schedule_did_nothing (created : Contexts F) (now : ℕ) {f : F}
    (hcur : s.currentFiber = some f) :
    (schedule created none now s).Sat (fun _ => True) fun x => x.2 = .returned false →
      s.runnableQueue.head? = some f ∧ (s.runEnd = 0 ∨ now ≤ s.runEnd) ∧
        x.1.currentFiber = some f ∧ x.1.runnableQueue = rotateBehind f s.runnableQueue := by
  rw [schedule]
  split
  · intro h
    cases h
  · split
    · trivial
    · refine (reschedule_did_nothing created _ _ false s).mono fun x hx h => ?_
      obtain ⟨-, hnext, hcur', hqueue⟩ := hx h
      rw [hcur] at hnext hcur'
      by_cases hup : s.runEnd ≠ 0 ∧ s.runEnd < now
      · rw [if_pos hup] at hnext
        cases hnext
      · refine ⟨?_, ?_, hcur', hqueue f hnext.symm⟩
        · rw [if_neg hup] at hnext
          exact hnext.symm
        · by_cases hzero : s.runEnd = 0
          · exact Or.inl hzero
          · exact Or.inr (not_lt.1 fun hlt => hup ⟨hzero, hlt⟩)

section Waiter

variable [LinearOrder W]

omit [DecidableEq F] in
/-- The end of a sleep is not beyond any deadline. -/
theorem InOrder.sleepEnd_le (h : s.InOrder) {time : ℕ} (ht : s.sleepEnd = some time) :
    (∀ w ∈ s.waiting, time ≤ (s.waitable w).timeout) ∧ (s.runEnd ≠ 0 → time ≤ s.runEnd) := by
  rw [sleepEnd] at ht
  cases hw : s.waiting with
  | nil =>
      rw [hw] at ht
      obtain ⟨-, ht⟩ := Option.ite_none_right_eq_some.1 ht
      exact ⟨by simp, fun _ => (Option.some.inj ht).ge⟩
  | cons w ws =>
      have hsorted := h.sorted
      rw [hw, List.pairwise_cons] at hsorted
      have hfirst : ∀ v ∈ w :: ws, (s.waitable w).timeout ≤ (s.waitable v).timeout := by
        intro v hv
        rcases List.mem_cons.1 hv with rfl | hv
        · exact le_rfl
        · exact (hsorted.1 v hv).timeout_le
      rw [hw] at ht
      dsimp only [List.head?_cons] at ht
      split at ht
      · rename_i hend
        obtain rfl := Option.some.inj ht
        exact ⟨fun v hv => hend.2.le.trans (hfirst v hv), fun _ => le_rfl⟩
      · rename_i hend
        obtain rfl := Option.some.inj ht
        exact ⟨hfirst, fun hne => not_lt.1 fun hlt => hend ⟨hne, hlt⟩⟩

omit [DecidableEq F] [LinearOrder W] in
theorem sleepEnd_eq_none (h : s.sleepEnd = none) : s.waiting = [] ∧ s.runEnd = 0 := by
  rw [sleepEnd] at h
  cases hw : s.waiting with
  | nil =>
      rw [hw] at h
      refine ⟨rfl, ?_⟩
      by_contra hne
      dsimp only [List.head?_nil] at h
      rw [if_pos hne] at h
      cases h
  | cons w ws =>
      rw [hw] at h
      dsimp only [List.head?_cons] at h
      split at h <;> cases h

instance (dt : ℤ) : Decidable (RoundsDown dt) :=
  inferInstanceAs (Decidable (if dt < 0 then _ else _))

/-- A time-out that is not rounded up is over in time. -/
theorem timeoutMs_le {dt : ℤ} (h : RoundsDown dt) :
    ∃ ms, timeoutMs dt = some ms ∧ (ms ≠ 0 → (ms : ℤ) * 10 ^ 6 ≤ dt) := by
  rw [RoundsDown] at h
  rw [timeoutMs]
  split
  · rename_i hneg
    rw [if_pos hneg] at h
    rw [if_pos h]
    exact ⟨0, rfl, fun h => absurd rfl h⟩
  · rename_i hneg
    rw [if_neg hneg] at h
    rw [if_pos h.1]
    refine ⟨_, rfl, fun _ => ?_⟩
    have := h.2
    omega

variable [DecidableEq Q]

omit [DecidableEq Q] in
/-- The waiter went to sleep only if it was in front of the runnable queue, with
something to wait for. -/
theorem InOrder.decideSleep (h : s.InOrder) (created : Contexts F) {waiter : F}
    (hcur : s.currentFiber = some waiter) (now : ℕ) :
    (decideSleep created waiter now s).Sat (fun _ => True) fun t => t.InOrder ∧
      (t.frame waiter = .sleep true →
        (s.runnableQueue.head? = some waiter ∧ (s.runEnd = 0 ∨ now ≤ s.runEnd) ∧
          (s.waiting ≠ [] ∨ s.polling = true)) ∧
        t.currentFiber = some waiter ∧ t.waiting = s.waiting ∧ t.polling = s.polling ∧
        t.runnableQueue = rotateBehind waiter s.runnableQueue) := by
  have hset : Calm s (s.setFrame waiter (.sleep false)) := h.setFrame waiter (by simp)
  -- Only a real sleep gets another frame than this one.
  have hawake : ∀ t, FibersOnly (s.setFrame waiter (.sleep false)) t →
      t.InOrder ∧ t.frame waiter ≠ .sleep true := by
    intro t ht
    refine ⟨(Calm.of_fibersOnly ht hset.order).order, ?_⟩
    rw [ht]
    simp [Worker.setFrame]
  rw [Worker.decideSleep]
  split
  · exact (keepsRest_suspend created waiter now _).mono fun t ht =>
      ⟨(hawake t ht).1, fun hf => absurd hf (hawake t ht).2⟩
  · rename_i hwork
    have hcur : (s.setFrame waiter (.sleep false)).currentFiber = some waiter := hcur
    refine ((schedule_did_nothing created now hcur).and
      (rescheduled_schedule created none now _)).map ?_
    rintro ⟨t, r⟩ ⟨hnothing, ht⟩
    obtain ⟨horder, hframe⟩ := hawake t ht.fibersOnly
    cases r with
    | switched => exact ⟨horder, fun hf => absurd hf hframe⟩
    | returned did =>
        cases did with
        | true => exact ⟨horder, fun hf => absurd hf hframe⟩
        | false =>
            obtain ⟨hhead, hend, htcur, hqueue⟩ := hnothing rfl
            refine ⟨⟨horder.nodup, horder.sorted⟩, fun _ => ⟨⟨hhead, hend, ?_⟩, htcur, ?_, ?_,
              hqueue⟩⟩
            · by_cases hw : s.waiting = []
              · exact Or.inr (Bool.eq_true_of_not_eq_false fun hp => hwork ⟨hw, hp⟩)
              · exact Or.inl hw
            · dsimp only at ht
              rw [ht]
              rfl
            · dsimp only at ht
              rw [ht]
              rfl

/-- Steps of the waiter other than the decision to sleep. -/
theorem InOrder.performWaiter (h : s.InOrder) {created : Contexts F} {waiter : F}
    {frame : Frame W} {a : Action F Q W} {x : Except Fault (Worker F Q W)}
    (hx : performWaiter created waiter s frame a = some x) (ha : ∀ now, a ≠ .decide now) :
    x.Sat (fun _ => True) (Calm s) := by
  unfold Worker.performWaiter at hx
  split at hx
  · obtain rfl := Option.some.inj hx
    exact h.setFrame waiter (by simp)
  · split at hx
    · obtain rfl := Option.some.inj hx
      exact h.setFrame waiter (by simp)
    · split at hx
      · obtain rfl := Option.some.inj hx
        exact h.expire _ _ _
      · obtain rfl := Option.some.inj hx
        exact h.setFrame waiter (by simp)
  · exact absurd rfl (ha _)
  · split at hx
    · obtain rfl := Option.some.inj hx
      exact h.setFrame waiter (by simp)
    · obtain rfl := Option.some.inj hx
      exact h.setFrame waiter (by simp)
  · obtain rfl := Option.some.inj hx
    exact h.setFrame waiter (by simp)
  · cases hx

omit [DecidableEq F] [DecidableEq Q] in
/-- Fields that have nothing to do with the waiting list change. -/
theorem Calm.of_rest (h : s.InOrder) {t : Worker F Q W}
    (ht : t = { s with
      polling := t.polling, runEnd := t.runEnd, fault := t.fault,
      disableContextSwitch := t.disableContextSwitch }) : Calm s t := by
  rw [ht]
  exact ⟨⟨h.nodup, h.sorted⟩, fun _ hf => hf⟩

omit [DecidableEq F] [DecidableEq Q] in
theorem InOrder.of_keepsRest (h : s.InOrder) {x : Except Fault (Worker F Q W)}
    (hx : KeepsRest s x) : x.Sat (fun _ => True) (Calm s) :=
  Except.Sat.mono hx fun _ ht => Calm.of_fibersOnly ht h

theorem InOrder.performUser (h : s.InOrder) {created : Contexts F} {waiter : F}
    {a : Action F Q W} {x : Except Fault (Worker F Q W)}
    (hx : performUser created waiter s a = some x) : x.Sat (fun _ => True) (Calm s) := by
  unfold Worker.performUser at hx
  split at hx
  · obtain ⟨-, hx⟩ := Option.ite_none_right_eq_some.1 hx
    obtain rfl := Option.some.inj hx
    exact h.of_keepsRest (keepsRest_add_setFiber _ _ _ s)
  · obtain rfl := Option.some.inj hx
    exact h.of_keepsRest (Except.Sat.map (keepsRest_unblock _ _ _ s) fun _ ht => ht)
  · obtain rfl := Option.some.inj hx
    exact h.of_keepsRest (keepsRest_unblockFirst _ _ s)
  · obtain rfl := Option.some.inj hx
    exact h.of_keepsRest (keepsRest_unblockAll _ _ _ s)
  · obtain rfl := Option.some.inj hx
    exact h.of_keepsRest (keepsRest_suspend created _ _ s)
  · split at hx
    · obtain rfl := Option.some.inj hx
      have hset : Calm s { s with polling := true } := Calm.of_rest h rfl
      exact (hset.order.of_keepsRest (keepsRest_resume waiter _)).mono fun _ ht => ht.after hset
    · obtain rfl := Option.some.inj hx
      exact Calm.of_rest h rfl
  · split at hx
    · split at hx
      · obtain rfl := Option.some.inj hx
        exact Calm.of_rest h rfl
      · obtain rfl := Option.some.inj hx
        trivial
    · obtain rfl := Option.some.inj hx
      exact Calm.of_rest h rfl
  · cases hx

theorem InOrder.performFiber (h : s.InOrder) {created : Contexts F} {waiter f : F}
    {a : Action F Q W} {x : Except Fault (Worker F Q W)}
    (hx : performFiber created waiter f s a = some x) : x.Sat (fun _ => True) (Calm s) := by
  unfold Worker.performFiber at hx
  split at hx
  · obtain rfl := Option.some.inj hx
    exact h.of_keepsRest (keepsRest_schedule created _ _ s)
  · obtain rfl := Option.some.inj hx
    exact h.of_keepsRest (keepsRest_block created _ _ _ s)
  · split at hx
    · obtain rfl := Option.some.inj hx
      exact Calm.refl h
    · obtain ⟨hfree, hx⟩ := Option.ite_none_right_eq_some.1 hx
      obtain rfl := Option.some.inj hx
      exact (h.blockUntil created waiter _ (isFree_iff.1 hfree).2 _ f _).map fun _ hy => hy
  · rename_i w timeout interval fired slice now now'
    obtain ⟨hfree, hx⟩ := Option.ite_none_right_eq_some.1 hx
    obtain ⟨-, hw⟩ := isFree_iff.1 hfree
    obtain rfl := Option.some.inj hx
    have hset := h.setWaitable (v := makeWaitable timeout interval) fun hw' => absurd hw' hw
    exact (hset.order.wait created waiter hw fired slice f now now').map fun _ hy =>
      hy.after hset
  · obtain rfl := Option.some.inj hx
    have hkill := Calm.of_fibersOnly (t := s.setFiber (some f) (s.fiber (some f)).kill) rfl h
    refine (hkill.order.schedule created none _).bind ?_
    rintro ⟨t, _ | _⟩ ht
    · trivial
    · exact ht.after hkill
  · cases hx

omit [DecidableEq Q] in
theorem InOrder.performWorker (h : s.InOrder) {created : Contexts F}
    {a : Action F Q W} {x : Except Fault (Worker F Q W)}
    (hx : performWorker created s a = some x) : x.Sat (fun _ => True) (Calm s) := by
  unfold Worker.performWorker at hx
  split at hx
  · obtain rfl := Option.some.inj hx
    exact Calm.of_rest h rfl
  · obtain ⟨-, hx⟩ := Option.ite_none_right_eq_some.1 hx
    obtain rfl := Option.some.inj hx
    exact h.of_keepsRest (keepsRest_schedule created _ _ s)
  · cases hx

/-- Whatever happens, but for the decision to sleep. -/
theorem InOrder.perform (h : s.InOrder) {created : Contexts F} {waiter : F}
    {a : Action F Q W} {x : Except Fault (Worker F Q W)}
    (hx : perform created waiter s a = some x) (ha : ∀ now, a ≠ .decide now) :
    x.Sat (fun _ => True) (Calm s) := by
  rcases perform_cases hx with ⟨-, ⟨w, -, rfl⟩ | ⟨f, -, rfl⟩⟩ | ⟨f, w, -, -, -, rfl⟩ | ⟨-, hx⟩ |
    ⟨-, hx⟩ | ⟨f, -, -, hx⟩ | ⟨-, hx⟩
  · exact h.wakeup w
  · exact h.of_keepsRest (keepsRest_resume f s)
  · exact h.leaveAlarm w f
  · exact h.performWorker hx
  · exact h.performWaiter hx ha
  · exact h.performFiber hx
  · exact h.performUser hx

/-- While it sleeps, the waiter is the current fiber and the only one that can run, and
it has something to wait for. -/
structure Watching (waiter : F) (s : Worker F Q W) : Prop where
  order : s.InOrder
  alone : s.frame waiter = .sleep true → s.currentFiber = some waiter ∧
    s.runnableQueue = [waiter] ∧ (s.waiting ≠ [] ∨ s.polling = true)

/-- A waiter that sleeps can only wake up. -/
theorem InOrder.wakes (h : s.InOrder) {created : Contexts F} {waiter : F}
    {a : Action F Q W} {x : Except Fault (Worker F Q W)}
    (hx : Worker.perform created waiter s a = some x) (hcur : s.currentFiber = some waiter)
    (hframe : s.frame waiter = .sleep true) :
    x.Sat (fun _ => True) fun t => t.InOrder ∧ t.frame waiter ≠ .sleep true := by
  have huser : s.inUserCode = false := by simp [inUserCode, hcur, hframe]
  have hevents : s.inEvents = false := by simp [inEvents, huser, hcur, hframe]
  rcases perform_cases hx with ⟨hin, -⟩ | ⟨f, w, -, hf, hw, -⟩ | ⟨hnone, -⟩ | ⟨-, hx⟩ |
    ⟨f, hin, -⟩ | ⟨hin, -⟩
  · rw [hevents] at hin
    cases hin
  · obtain rfl : waiter = f := Option.some.inj (hcur.symm.trans hf)
    rw [hframe] at hw
    cases hw
  · rw [hcur] at hnone
    cases hnone
  · rw [hframe] at hx
    cases a with
    | sleep now =>
        simp only [Worker.performWaiter] at hx
        split at hx
        · obtain rfl := Option.some.inj hx
          exact ⟨⟨h.nodup, h.sorted⟩, by simp [Worker.setFrame]⟩
        · obtain rfl := Option.some.inj hx
          exact ⟨⟨h.nodup, h.sorted⟩, by simp [Worker.setFrame]⟩
    | _ => cases hx
  · rw [huser] at hin
    cases hin
  · rw [huser] at hin
    cases hin

/-- The waiter decides to sleep at the end of its inner loop. -/
theorem perform_decide {created : Contexts F} {waiter : F} {now : ℕ}
    {x : Except Fault (Worker F Q W)} (hx : perform created waiter s (.decide now) = some x) :
    s.currentFiber = some waiter ∧ x = decideSleep created waiter now s := by
  simp only [Worker.perform] at hx
  cases hframe : s.waiterFrame waiter with
  | none =>
      rw [hframe] at hx
      cases hx
  | some frame =>
      rw [hframe] at hx
      refine ⟨(currentFiber_of_waiterFrame hframe).1, ?_⟩
      cases frame with
      | decide => exact (Option.some.inj hx).symm
      | _ => cases hx

/-- The step lemma. -/
theorem Watching.step {waiter : F} (h : Watching waiter s) {created : Contexts F}
    {a : Action F Q W} {t : Worker F Q W} (ha : Rested waiter s a)
    (hstep : step created waiter s a = some t) : Watching waiter t := by
  obtain ⟨-, hx | ⟨e, -, rfl⟩⟩ := step_eq_some_iff.1 hstep
  · by_cases hframe : s.frame waiter = .sleep true
    · obtain ⟨hcur, -, -⟩ := h.alone hframe
      obtain ⟨horder, hawake⟩ := h.order.wakes hx hcur hframe
      exact ⟨horder, fun hf => absurd hf hawake⟩
    · by_cases hdecide : ∃ now, a = .decide now
      · obtain ⟨now, rfl⟩ := hdecide
        obtain ⟨hcur, hx⟩ := perform_decide hx
        obtain ⟨horder, hsleep⟩ := (h.order.decideSleep created hcur now).ok hx.symm
        refine ⟨horder, fun hf => ?_⟩
        obtain ⟨⟨hhead, hend, hwork⟩, htcur, hwaiting, hpolling, hqueue⟩ := hsleep hf
        refine ⟨htcur, ?_, ?_⟩
        · -- Nobody was behind the waiter.
          rw [hqueue, ha hwork hend hhead]
          exact rotateBehind_append List.not_mem_nil
        · rwa [hwaiting, hpolling]
      · have hcalm := h.order.perform hx fun now hnow => hdecide ⟨now, hnow⟩
        exact ⟨hcalm.order, fun hf => absurd (hcalm.frame waiter hf) hframe⟩
  · exact ⟨⟨h.order.nodup, h.order.sorted⟩, h.alone⟩

omit [DecidableEq Q] in
theorem watching_init (waiter : F) (waitable : W → Waitable F Q) :
    Watching waiter (init waiter waitable) :=
  ⟨⟨List.nodup_nil, List.Pairwise.nil⟩, fun hf => by simp [init] at hf⟩

omit [DecidableEq F] [DecidableEq Q] in
/-- A real sleep is over at every deadline, if the time left is not rounded up. -/
theorem InOrder.realSleep (h : s.InOrder) {now : ℕ}
    (hround : s.polling = true → ∀ time, s.sleepEnd = some time → RoundsDown (time - now))
    (hwork : s.waiting ≠ [] ∨ s.polling = true) :
    s.realSleep now ≠ .undefined ∧
      (∀ w ∈ s.waiting, (s.realSleep now).EndsBy (s.waitable w).timeout) ∧
      (s.runEnd ≠ 0 → (s.realSleep now).EndsBy s.runEnd) := by
  -- A sleep that ends at the end of all ends at every deadline.
  have hends : ∀ time, s.sleepEnd = some time → s.realSleep now ≠ .undefined ∧
      ∀ deadline, time ≤ deadline → (s.realSleep now).EndsBy deadline := by
    intro time ht
    cases hp : s.polling with
    | false =>
        rw [Worker.realSleep, hp, ht]
        exact ⟨by simp, fun deadline hd => hd⟩
    | true =>
        obtain ⟨ms, hms, hle⟩ := timeoutMs_le (hround hp time ht)
        rw [Worker.realSleep, hp, ht]
        dsimp only
        rw [hms]
        cases ms with
        | zero => exact ⟨by simp, fun _ _ => trivial⟩
        | succ ms =>
            refine ⟨by simp, fun deadline hd => ?_⟩
            have := hle (Nat.succ_ne_zero ms)
            change now + (ms + 1) * 10 ^ 6 ≤ deadline
            push_cast at this
            omega
  cases ht : s.sleepEnd with
  | none =>
      obtain ⟨hw, hend⟩ := sleepEnd_eq_none ht
      have hp : s.polling = true := hwork.resolve_left fun h => h hw
      refine ⟨?_, fun w hmem => ?_, fun h => absurd hend h⟩
      · rw [Worker.realSleep, hp, ht]
        intro h
        cases h
      · rw [hw] at hmem
        cases hmem
  | some time =>
      obtain ⟨hdef, hall⟩ := hends time ht
      obtain ⟨htimeout, hrun⟩ := h.sleepEnd_le ht
      exact ⟨hdef, fun w hw => hall _ (htimeout w hw), fun hne => hall _ (hrun hne)⟩

/-- In every run in which the waiter is never in front of other fibers when it calls
`schedule`, and in which no time-out of a poll is rounded up, the thread is only put to
sleep when there is no work, and not beyond any deadline. -/
theorem sleepsWithin_of_rested (created : Contexts F) (waiter : F)
    (waitable : W → Waitable F Q) (as : List (Action F Q W))
    (hg : Transition.Guarded (step created waiter) (Rested waiter)
      (init waiter waitable) as) :
    Transition.Guarded (step created waiter) (SleepsWithin waiter)
      (init waiter waitable) as := by
  refine hg.imp (P := Watching waiter) (fun s a t hs ha hstep => hs.step ha hstep) ?_
    (watching_init waiter waitable)
  intro s a hs ha
  cases a with
  | sleep now =>
      intro hframe
      obtain ⟨hcur, hframe⟩ := currentFiber_of_waiterFrame hframe
      obtain ⟨-, hqueue, hwork⟩ := hs.alone hframe
      refine ⟨fun f hf => ?_, hs.order.realSleep ha hwork⟩
      rw [hqueue] at hf
      exact List.mem_singleton.1 hf
  | _ => trivial

/-- Fiber 1 has something to poll and takes a nap. The waiter is alone. -/
def napping : List (Action ℕ ℕ ℕ) :=
  [.hatch 1, .work 1 1, .setPolling true, .wait 6 500000022 none false false 3 3, .loop 20,
    .expire false, .decide 21]

theorem sleepsWithin_napping :
    (∃ s, Transition.run (step .all 0) (init 0 fun _ => ⟨0, none, .timed, false⟩)
        napping = some s ∧ s.waiterFrame 0 = some (.sleep true) ∧
      s.realSleep 22 = .upTo 500000022) ∧
    Transition.Guarded (step .all 0) (SleepsWithin 0)
      (init 0 fun _ => ⟨0, none, .timed, false⟩) (napping ++ [.sleep 22]) := by
  refine ⟨⟨_, rfl, rfl, by decide +kernel⟩, sleepsWithin_of_rested .all 0
    (fun _ => ⟨0, none, .timed, false⟩) _ ?_⟩
  refine .cons trivial rfl (.cons trivial rfl (.cons trivial rfl (.cons trivial rfl
    (.cons trivial rfl (.cons trivial rfl (.cons (fun _ _ _ => rfl) rfl (.cons ?_ rfl
    trivial)))))))
  intro _ time ht
  obtain rfl : 500000022 = time := Option.some.inj ht
  decide +kernel

/-- Fiber 1 blocks with a timeout of 10, and fiber 2 takes a nap until 100. The waiter
finds the alarm expired and unblocks fiber 1, which ends up behind the waiter. -/
def alarmBehind : List (Action ℕ ℕ ℕ) :=
  [.hatch 1, .hatch 2, .work 1 1, .blockUntil 0 5 10 2, .wait 6 100 none false false 3 3,
    .loop 20, .expire false, .expire false, .decide 21]

/-- The thread is put to sleep until 100, although fiber 1 is ready to run. -/
theorem not_sleepsWithin_alarmBehind :
    ∃ s, Transition.run (step .all 0) (init 0 fun _ => ⟨0, none, .timed, false⟩)
        alarmBehind = some s ∧ s.waiterFrame 0 = some (.sleep true) ∧
      s.runnableQueue = [1, 0] ∧ (s.fiber (some 1)).state = .ready ∧
      s.realSleep 22 = .upTo 100 ∧ ¬ SleepsWithin 0 s (.sleep 22) := by
  refine ⟨_, rfl, rfl, rfl, rfl, rfl, fun h => ?_⟩
  have := (h rfl).1 1 (by decide)
  cases this

end Waiter

end Worker

end Zth
