import Zth.Library.Run
import Zth.Worker.Basic

/-!
# Synchronizers, the waiter, and runs of a worker

The operations of a synchronizer on the worker, the waiter with its loop, and what
may happen next: the current fiber, or the context of the worker, performs an
operation. An operation that switches to another fiber ends there; when the fiber is
switched to again, it goes on at its frame. The waiter is a fiber like any other,
whose code is the loop of `Waiter::entry`, one round of its inner loop at a time.

Times and the outcomes of polled functions come from outside, and so do the events
of a poller, which wake or resume fibers while the waiter polls.
-/

namespace Zth

namespace Worker

variable {F Q W : Type*} [DecidableEq F] [DecidableEq Q]

/-- Replace a queue of a synchronizer. -/
def setQueue (q : Q) (l : List F) (s : Worker F Q W) : Worker F Q W :=
  { s with queue := Function.update s.queue q l }

def enqueue (q : Q) (f : F) (s : Worker F Q W) : Except Fault (Worker F Q W) :=
  if (s.fiber (some f)).linked then .error .list
  else .ok (setLinked f true (s.setQueue q (s.queue q ++ [f])))

/-- The current fiber leaves the worker's queues for a queue of a synchronizer. -/
def enterQueue (q : Q) (f : F) (s : Worker F Q W) : Except Fault (Worker F Q W) :=
  (release f s).bind fun s =>
    (enqueue q f s).map fun s => s.setFiber (some f) (s.fiber (some f)).nap

def block (created : Contexts F) (q : Q) (f : F) (now : ℕ) (s : Worker F Q W) :
    Except Fault (Worker F Q W × Schedule) :=
  (enterQueue q f s).bind fun s => schedule created none now s

/-- A fiber whose event came is woken and added. -/
def wakeFiber (f : F) (prio : Bool) (s : Worker F Q W) : Except Fault (Worker F Q W) :=
  add f prio (s.setFiber (some f) (s.fiber (some f)).wakeup)

def unblock (q : Q) (f : F) (prio : Bool) (s : Worker F Q W) :
    Except Fault (Worker F Q W × Bool) :=
  if f ∈ s.queue q then
    (wakeFiber f prio (setLinked f false (s.setQueue q ((s.queue q).erase f)))).map (·, true)
  else .ok (s, false)

def unblockFirst (q : Q) (prio : Bool) (s : Worker F Q W) : Except Fault (Worker F Q W) :=
  match s.queue q with
  | [] => .ok s
  | f :: fs => wakeFiber f prio (setLinked f false (s.setQueue q fs))

/-- The loop of `unblockAll`, which takes the first fiber of the queue every time. -/
def unblockAll (q : Q) (prio : Bool) : ℕ → Worker F Q W → Except Fault (Worker F Q W)
  | 0, s => .ok s
  | n + 1, s => (unblockFirst q prio s).bind fun s => unblockAll q prio n s

section Waiter

variable [LinearOrder W]

/-- The order of the waiting list: by timeout, and by address for equal timeouts. -/
def WaitsBefore (s : Worker F Q W) (w v : W) : Prop :=
  (s.waitable w).timeout < (s.waitable v).timeout ∨
    ((s.waitable w).timeout = (s.waitable v).timeout ∧ w ≤ v)

instance (s : Worker F Q W) : DecidableRel s.WaitsBefore :=
  fun _ _ => inferInstanceAs (Decidable (_ ∨ _))

def setWaitable (w : W) (v : Waitable F Q) (s : Worker F Q W) : Worker F Q W :=
  { s with waitable := Function.update s.waitable w v }

def insertWaiting (w : W) (s : Worker F Q W) : Except Fault (Worker F Q W) :=
  if w ∈ s.waiting then .error .list
  else .ok { s with waiting := s.waiting.orderedInsert s.WaitsBefore w }

def eraseWaiting (w : W) (s : Worker F Q W) : Worker F Q W :=
  { s with waiting := s.waiting.erase w }

/-- `TimedWaitable::poll`, `PolledWaiting::poll` and `AlarmClock::poll`. The outcome of
the polled function is `fired`. -/
def poll (w : W) (fired : Bool) (now : ℕ) (s : Worker F Q W) :
    Except Fault (Worker F Q W × Bool) :=
  let v := s.waitable w
  match v.kind with
  | .timed => .ok (s, decide (v.timeout ≤ now))
  | .polled interval =>
      if fired then .ok (s, true)
      else
        let next := v.timeout + interval
        let next := if next < now then now + interval else next
        .ok (s.setWaitable w { v with timeout := next }, false)
  | .alarm q f =>
      if v.timeout ≤ now then
        (unblock q f false s).map fun (s, rang) =>
          (s.setWaitable w { s.waitable w with rang := rang }, true)
      else .ok (s, false)

/-- `Waiter::scheduleTask`. -/
def scheduleTask (waiter : F) (w : W) (s : Worker F Q W) : Except Fault (Worker F Q W) :=
  (insertWaiting w s).bind fun s => resume waiter s

def unscheduleTask (w : W) (s : Worker F Q W) : Worker F Q W :=
  if w ∈ s.waiting then eraseWaiting w s else s

/-- The current fiber leaves the worker's queues for a waitable. -/
def enterWaiting (waiter : F) (w : W) (f : F) (s : Worker F Q W) :
    Except Fault (Worker F Q W) :=
  let s := s.setWaitable w { s.waitable w with fiber := some f }
  let s := s.setFiber (some f) (s.fiber (some f)).nap
  (release f s).bind fun s => scheduleTask waiter w s

/-- `Waiter::wait`. It returns at once if the fiber is not running. A waitable that has
passed already yields, if the timeslice is over. -/
def wait (created : Contexts F) (waiter : F) (w : W) (fired slice : Bool) (f : F)
    (now now' : ℕ) (s : Worker F Q W) : Except Fault (Worker F Q W × Schedule) :=
  if (s.fiber (some f)).state ≠ .running then .ok (s, .returned true)
  else
    (poll w fired now s).bind fun
      | (s, true) => if slice then schedule created none now s else .ok (s, .returned true)
      | (s, false) => (enterWaiting waiter w f s).bind fun s => schedule created none now' s

/-- `block_`, up to and including its `schedule`. The alarm is an object of the call. -/
def blockUntil (created : Contexts F) (waiter : F) (q : Q) (w : W) (timeout : ℕ)
    (f : F) (now : ℕ) (s : Worker F Q W) : Except Fault (Worker F Q W × Schedule) :=
  (enterQueue q f s).bind fun s =>
    let s := s.setWaitable w ⟨timeout, none, .alarm q f, false⟩
    let s := { s.setFrame f (.alarm w) with owner := Function.update s.owner w (some f) }
    (scheduleTask waiter w s).bind fun s => schedule created none now s

/-- The rest of `block_`. -/
def leaveAlarm (w : W) (f : F) (s : Worker F Q W) : Worker F Q W :=
  { (unscheduleTask w s).setFrame f .user with owner := Function.update s.owner w none }

/-- `Waiter::wakeup` of a waitable. -/
def wakeup (w : W) (s : Worker F Q W) : Except Fault (Worker F Q W) :=
  if w ∈ s.waiting then
    let s := eraseWaiting w s
    match (s.waitable w).fiber with
    | none => .ok s
    | some f =>
        (wakeFiber f true s).map fun s =>
          s.setWaitable w { s.waitable w with fiber := none }
  else .ok s

/-- One round of the inner loop of the waiter, for the first waitable. -/
def expire (w : W) (fired : Bool) (now : ℕ) (s : Worker F Q W) :
    Except Fault (Worker F Q W) :=
  (poll w fired now (eraseWaiting w s)).bind fun
    | (s, true) =>
        match (s.waitable w).fiber with
        | none => .ok s
        | some f => wakeFiber f true s
    | (s, false) => insertWaiting w s

/-- The waiter has nothing to expire any more, and suspends itself or hands over. If
there is nobody to hand over to, it is going to sleep. -/
def decideSleep (created : Contexts F) (waiter : F) (now : ℕ) (s : Worker F Q W) :
    Except Fault (Worker F Q W) :=
  let s := s.setFrame waiter (.sleep false)
  if s.waiting = [] ∧ s.polling = false then (suspend created waiter now s).map Prod.fst
  else
    (schedule created none now s).map fun
      | (s, .returned false) => s.setFrame waiter (.sleep true)
      | (s, _) => s

/-- The current fiber, or the context of the worker, runs code of its own. -/
def inUserCode (s : Worker F Q W) : Bool :=
  match s.currentFiber with
  | none => true
  | some f =>
      match s.frame f with
      | .user => true
      | _ => false

/-- An event of a poller may be reported: by the waiter, or in a fiber that polls. -/
def inEvents (s : Worker F Q W) : Bool :=
  s.inUserCode ||
    match s.currentFiber with
    | none => false
    | some f =>
        match s.frame f with
        | .events => true
        | _ => false

/-- A waitable object that is not in use can be used in a call. -/
def isFree (w : W) (s : Worker F Q W) : Bool := (s.owner w).isNone && !(s.waiting.contains w)

end Waiter

end Worker

/-- What may happen next. -/
inductive Action (F Q W : Type*) where
  | hatch (f : F)
  | yield (prefer : Option (Option F)) (now : ℕ)
  | block (q : Q) (now : ℕ)
  | blockUntil (q : Q) (w : W) (timeout now : ℕ)
  | leaveAlarm
  | unblock (q : Q) (f : F) (prio : Bool)
  | unblockFirst (q : Q) (prio : Bool)
  | unblockAll (q : Q) (prio : Bool)
  | wait (w : W) (timeout : ℕ) (interval : Option ℕ) (fired slice : Bool) (now now' : ℕ)
  | wakeup (w : W)
  | suspend (f : F) (now : ℕ)
  | resume (f : F)
  | exit (now : ℕ)
  | setPolling (polling : Bool)
  | contextSwitchEnable (enable : Bool)
  | run (runEnd : ℕ)
  | work (now now' : ℕ)
  | loop (now : ℕ)
  | expire (fired : Bool)
  | decide (now : ℕ)
  | sleep (now : ℕ)
  | polled

namespace Worker

variable {F Q W : Type*} [DecidableEq F] [DecidableEq Q] [LinearOrder W]

/-- The current fiber, when it runs code of its own. -/
def userFiber (s : Worker F Q W) : Option F :=
  if s.inUserCode then s.currentFiber else none

/-- The frame of the current fiber, when that is the waiter. -/
def waiterFrame (waiter : F) (s : Worker F Q W) : Option (Frame W) :=
  if s.currentFiber = some waiter then some (s.frame waiter) else none

/-- The waitable that an interval makes: one that is polled, or one with a timeout
only. -/
def makeWaitable (timeout : ℕ) (interval : Option ℕ) : Waitable F Q :=
  ⟨timeout, none, match interval with | none => .timed | some i => .polled i, false⟩

/-- An operation in code of the current fiber or of the context of the worker. -/
def performUser (created : Contexts F) (waiter : F) (s : Worker F Q W) :
    Action F Q W → Option (Except Fault (Worker F Q W))
  | .hatch f => if (s.fiber (some f)).state = .uninitialized then some (hatch f s) else none
  | .unblock q f prio => some ((unblock q f prio s).map Prod.fst)
  | .unblockFirst q prio => some (unblockFirst q prio s)
  | .unblockAll q prio => some (unblockAll q prio (s.queue q).length s)
  | .suspend f now => some ((suspend created f now s).map Prod.fst)
  | .setPolling polling =>
      if polling then some (resume waiter { s with polling := true })
      else some (.ok { s with polling := false })
  | .contextSwitchEnable enable =>
      if enable then
        if 0 < s.disableContextSwitch then
          some (.ok { s with disableContextSwitch := s.disableContextSwitch - 1 })
        else some (.error .abort)
      else some (.ok { s with disableContextSwitch := s.disableContextSwitch + 1 })
  | _ => none

/-- An operation of the current fiber that may hand over. -/
def performFiber (created : Contexts F) (waiter : F) (f : F) (s : Worker F Q W) :
    Action F Q W → Option (Except Fault (Worker F Q W))
  | .yield prefer now => some ((schedule created prefer now s).map Prod.fst)
  | .block q now => some ((block created q f now s).map Prod.fst)
  | .blockUntil q w timeout now =>
      if timeout ≤ now then some (.ok s)
      else if isFree w s then
        some ((blockUntil created waiter q w timeout f now s).map Prod.fst)
      else none
  | .wait w timeout interval fired slice now now' =>
      if isFree w s then
        some ((wait created waiter w fired slice f now now'
          (s.setWaitable w (makeWaitable timeout interval))).map Prod.fst)
      else none
  | .exit now =>
      some ((schedule created none now
        (s.setFiber (some f) (s.fiber (some f)).kill)).bind fun
          | (s, .switched) => .ok s
          | (_, .returned _) => .error .abort)
  | _ => none

/-- A round of `Worker::run`, in the context of the worker. -/
def performWorker (created : Contexts F) (s : Worker F Q W) :
    Action F Q W → Option (Except Fault (Worker F Q W))
  | .run runEnd => some (.ok { s with runEnd := runEnd })
  | .work now now' =>
      if s.runnableQueue ≠ [] ∧ (s.runEnd = 0 ∨ now < s.runEnd) then
        some ((schedule created none now' s).map Prod.fst)
      else none
  | _ => none

/-- A step of the loop of the waiter. -/
def performWaiter (created : Contexts F) (waiter : F) (s : Worker F Q W) :
    Frame W → Action F Q W → Option (Except Fault (Worker F Q W))
  | .loop, .loop now => some (.ok (s.setFrame waiter (.expire now)))
  | .expire now, .expire fired =>
      match s.waiting with
      | [] => some (.ok (s.setFrame waiter .decide))
      | w :: _ =>
          if (s.waitable w).timeout < now then some (expire w fired now s)
          else some (.ok (s.setFrame waiter .decide))
  | .decide, .decide now => some (decideSleep created waiter now s)
  | .sleep _, .sleep _ =>
      if s.polling then some (.ok (s.setFrame waiter .events))
      else some (.ok (s.setFrame waiter .loop))
  | .events, .polled => some (.ok (s.setFrame waiter .loop))
  | _, _ => none

/-- What the action does, if it can happen now. -/
def perform (created : Contexts F) (waiter : F) (s : Worker F Q W)
    (a : Action F Q W) : Option (Except Fault (Worker F Q W)) :=
  match a with
  | .wakeup w => if s.inEvents then some (wakeup w s) else none
  | .resume f => if s.inEvents then some (resume f s) else none
  | .leaveAlarm =>
      match s.currentFiber with
      | none => none
      | some f =>
          match s.frame f with
          | .alarm w => some (.ok (leaveAlarm w f s))
          | _ => none
  | .run _ | .work _ _ =>
      match s.currentFiber with
      | none => performWorker created s a
      | some _ => none
  | .loop _ | .expire _ | .decide _ | .sleep _ | .polled =>
      match s.waiterFrame waiter with
      | none => none
      | some frame => performWaiter created waiter s frame a
  | .yield _ _ | .block _ _ | .blockUntil _ _ _ _ | .wait _ _ _ _ _ _ _ | .exit _ =>
      match s.userFiber with
      | none => none
      | some f => performFiber created waiter f s a
  | .hatch _ | .unblock _ _ _ | .unblockFirst _ _ | .unblockAll _ _ | .suspend _ _
  | .setPolling _ | .contextSwitchEnable _ =>
      if s.inUserCode then performUser created waiter s a else none

/-- One step of a run. A fault ends the run. -/
def step (created : Contexts F) (waiter : F) (s : Worker F Q W)
    (a : Action F Q W) : Option (Worker F Q W) :=
  match s.fault with
  | some _ => none
  | none =>
      (perform created waiter s a).map fun
        | .ok t => t
        | .error e => { s with fault := some e }

/-- A new worker. The waiter is suspended, and starts when it is resumed. -/
def init (waiter : F) (waitable : W → Waitable F Q) : Worker F Q W where
  fiber := fun
    | none => { Fiber.construct with state := .ready }
    | some f => if f = waiter then ⟨.suspended, .new, true, true⟩ else Fiber.none
  currentFiber := none
  runnableQueue := []
  suspendedQueue := [waiter]
  queue _ := []
  waiting := []
  waitable := waitable
  frame f := if f = waiter then .loop else .user
  polling := false
  runEnd := 0
  disableContextSwitch := 0
  held f := f = waiter
  owner _ := none
  fault := none

section Inversion

variable {s : Worker F Q W}

omit [DecidableEq F] [DecidableEq Q] [LinearOrder W] in
theorem currentFiber_of_userFiber {f : F} (h : s.userFiber = some f) :
    s.inUserCode = true ∧ s.currentFiber = some f := by
  rw [userFiber, Option.ite_none_right_eq_some] at h
  exact h

omit [DecidableEq Q] [LinearOrder W] in
theorem currentFiber_of_waiterFrame {waiter : F} {frame : Frame W}
    (h : s.waiterFrame waiter = some frame) :
    s.currentFiber = some waiter ∧ s.frame waiter = frame := by
  rw [waiterFrame, Option.ite_none_right_eq_some] at h
  exact ⟨h.1, Option.some.inj h.2⟩

omit [DecidableEq F] [DecidableEq Q] in
theorem isFree_iff {w : W} : isFree w s = true ↔ s.owner w = none ∧ w ∉ s.waiting := by
  simp [isFree]

section Contexts

variable {created : Contexts F} {waiter : F} {a : Action F Q W}
  {x : Except Fault (Worker F Q W)}

omit [DecidableEq Q] [LinearOrder W] in
/-- A round of `Worker::run` is by the worker fiber. -/
theorem performWorker_of_current
    (h : (match s.currentFiber with
      | none => performWorker created s a
      | some _ => none) = some x) :
    s.currentFiber = none ∧ performWorker created s a = some x := by
  split at h
  · rename_i hcur
    exact ⟨hcur, h⟩
  · cases h

/-- A step of the waiter is at the frame it is in. -/
theorem performWaiter_of_frame
    (h : (match s.waiterFrame waiter with
      | none => none
      | some frame => performWaiter created waiter s frame a) = some x) :
    s.currentFiber = some waiter ∧
      performWaiter created waiter s (s.frame waiter) a = some x := by
  split at h
  · cases h
  · rename_i frame hframe
    obtain ⟨hcur, rfl⟩ := currentFiber_of_waiterFrame hframe
    exact ⟨hcur, h⟩

/-- An operation that may hand over is by the current fiber. -/
theorem performFiber_of_user
    (h : (match s.userFiber with
      | none => none
      | some f => performFiber created waiter f s a) = some x) :
    ∃ f, s.inUserCode = true ∧ s.currentFiber = some f ∧
      performFiber created waiter f s a = some x := by
  split at h
  · cases h
  · rename_i f hf
    obtain ⟨huser, hcur⟩ := currentFiber_of_userFiber hf
    exact ⟨f, huser, hcur, h⟩

/-- Everything that may happen: an event, the end of a block with timeout, a round of
`Worker::run`, a step of the waiter, or an operation in code of a fiber. -/
theorem perform_cases (hx : perform created waiter s a = some x) :
    (s.inEvents = true ∧
      ((∃ w, a = .wakeup w ∧ x = wakeup w s) ∨ ∃ f, a = .resume f ∧ x = resume f s)) ∨
    (∃ f w, a = .leaveAlarm ∧ s.currentFiber = some f ∧ s.frame f = .alarm w ∧
      x = .ok (leaveAlarm w f s)) ∨
    (s.currentFiber = none ∧ performWorker created s a = some x) ∨
    (s.currentFiber = some waiter ∧
      performWaiter created waiter s (s.frame waiter) a = some x) ∨
    (∃ f, s.inUserCode = true ∧ s.currentFiber = some f ∧
      performFiber created waiter f s a = some x) ∨
    (s.inUserCode = true ∧ performUser created waiter s a = some x) := by
  cases a with
  | wakeup w =>
      obtain ⟨hin, hx⟩ := Option.ite_none_right_eq_some.1 hx
      exact Or.inl ⟨hin, Or.inl ⟨w, rfl, (Option.some.inj hx).symm⟩⟩
  | resume f =>
      obtain ⟨hin, hx⟩ := Option.ite_none_right_eq_some.1 hx
      exact Or.inl ⟨hin, Or.inr ⟨f, rfl, (Option.some.inj hx).symm⟩⟩
  | leaveAlarm =>
      simp only [perform] at hx
      split at hx
      · cases hx
      · rename_i f hf
        split at hx
        · rename_i w hw
          exact Or.inr (Or.inl ⟨f, w, rfl, hf, hw, (Option.some.inj hx).symm⟩)
        · cases hx
  | run | work => exact Or.inr (Or.inr (Or.inl (performWorker_of_current hx)))
  | loop | expire | decide | sleep | polled =>
      exact Or.inr (Or.inr (Or.inr (Or.inl (performWaiter_of_frame hx))))
  | yield | block | blockUntil | wait | exit =>
      exact Or.inr (Or.inr (Or.inr (Or.inr (Or.inl (performFiber_of_user hx)))))
  | hatch | unblock | unblockFirst | unblockAll | suspend | setPolling | contextSwitchEnable =>
      exact Or.inr (Or.inr (Or.inr (Or.inr (Or.inr (Option.ite_none_right_eq_some.1 hx)))))

end Contexts

/-- One step: an action that can happen, and a fault if it fails. -/
theorem step_eq_some_iff {created : Contexts F} {waiter : F} {a : Action F Q W}
    {t : Worker F Q W} :
    step created waiter s a = some t ↔ s.fault = none ∧
      (perform created waiter s a = some (.ok t) ∨
        ∃ e, perform created waiter s a = some (.error e) ∧ t = { s with fault := some e }) := by
  rw [step]
  cases hf : s.fault with
  | some e => simp
  | none =>
      dsimp only
      rw [Option.map_eq_some_iff]
      constructor
      · rintro ⟨x, hx, rfl⟩
        cases x with
        | ok t => exact ⟨rfl, Or.inl hx⟩
        | error e => exact ⟨rfl, Or.inr ⟨e, hx, rfl⟩⟩
      · rintro ⟨-, hx | ⟨e, hx, rfl⟩⟩
        · exact ⟨_, hx, rfl⟩
        · exact ⟨_, hx, rfl⟩

end Inversion

end Worker

end Zth
