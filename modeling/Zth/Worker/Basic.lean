import Mathlib.Data.List.Sort
import Zth.Worker.Fiber

/-!
# The worker and its queues

A worker has a runnable and a suspended queue. A fiber that waits is in neither:
it is in a queue of a synchronizer, or it is known to the waiter by a waitable.
All of these queues are intrusive lists that share one pair of link fields, so a
fiber can be in one of them at a time. An element that is pushed must not be in a
list, and one that is erased must be in the list it is erased from; the code
asserts both. An assertion that fails is a fault, and so is the branch of
`Fiber::run` for fibers that cannot be run.

The worker fiber stands for the context that calls `Worker::run`. A reference to a
fiber is an `Option F` below, with `none` for the worker fiber.
-/

namespace Zth

/-- What makes the worker stop. -/
inductive Fault where
  /-- `Worker::add` was called with a fiber that waits. -/
  | addWaiting
  /-- An element was pushed while it was in a list, or erased from a list it was not in. -/
  | list
  /-- `Fiber::run` was called for a fiber that cannot be run. -/
  | runInvalid
  /-- A fiber that is not running was switched to itself. -/
  | selfSwitch
  /-- A loop, of `schedule` or of the destructor, does not end. -/
  | endless
  /-- Another assertion or abort. -/
  | abort
deriving DecidableEq, Repr

/-- What `context_create` returns: 0, or an errno. -/
inductive Created where
  | ok
  | eagain
  | eperm
  | other
deriving DecidableEq, Repr

/-- What `context_create` returns for each fiber. It is not expected to return `EAGAIN` or `EPERM`,
which mean something else when they come from `Fiber::run` itself. -/
structure Contexts (F : Type*) where
  res : Option F → Created
  ne_eagain : ∀ f, res f ≠ .eagain
  ne_eperm : ∀ f, res f ≠ .eperm

/-- All contexts can be created. -/
def Contexts.all {F : Type*} : Contexts F := ⟨fun _ => .ok, nofun, nofun⟩

/-- What a waitable does when it is polled: it only compares its timeout, it asks a
function and polls again later, or it rings for a fiber that is blocked in a queue. -/
inductive Waitable.Kind (F Q : Type*) where
  | timed
  | polled (interval : ℕ)
  | alarm (q : Q) (f : F)

/-- A `TimedWaitable`. Times are in nanoseconds. `rang` is set when an alarm unblocked
its fiber. -/
structure Waitable (F Q : Type*) where
  timeout : ℕ
  fiber : Option F
  kind : Waitable.Kind F Q
  rang : Bool

/-- Where a fiber goes on when it is switched to: in its own code, behind the
`schedule` of a block with timeout, or in the loop of the waiter. -/
inductive Frame (W : Type*) where
  | user
  | alarm (w : W)
  | loop
  | expire (now : ℕ)
  | decide
  | sleep (real : Bool)
  | events

/-- The worker, its fibers, the queues of all synchronizers and the waiter. The code
does not have `held` and `owner`: they tell which fibers were suspended and not yet
resumed, and in which fiber's call a waitable object is used. -/
structure Worker (F Q W : Type*) where
  fiber : Option F → Fiber
  currentFiber : Option F
  runnableQueue : List F
  suspendedQueue : List F
  queue : Q → List F
  waiting : List W
  waitable : W → Waitable F Q
  frame : F → Frame W
  polling : Bool
  runEnd : ℕ
  disableContextSwitch : ℕ
  held : F → Bool
  owner : W → Option F
  fault : Option Fault

namespace Worker

variable {F Q W : Type*} [DecidableEq F]

/-- Replace a fiber. -/
def setFiber (r : Option F) (f : Fiber) (s : Worker F Q W) : Worker F Q W :=
  { s with fiber := Function.update s.fiber r f }

/-- Set or clear the link fields of a fiber. -/
def setLinked (f : F) (linked : Bool) (s : Worker F Q W) : Worker F Q W :=
  s.setFiber (some f) { s.fiber (some f) with linked := linked }

/-- Where the fiber goes on. -/
def setFrame (f : F) (frame : Frame W) (s : Worker F Q W) : Worker F Q W :=
  { s with frame := Function.update s.frame f frame }

def add (f : F) (front : Bool) (s : Worker F Q W) : Except Fault (Worker F Q W) :=
  if (s.fiber (some f)).state = .waiting then .error .addWaiting
  else if (s.fiber (some f)).linked then .error .list
  else if (s.fiber (some f)).state = .suspended then
    .ok (setLinked f true { s with suspendedQueue := s.suspendedQueue ++ [f] })
  else
    .ok (setLinked f true
      { s with runnableQueue := if front then f :: s.runnableQueue else s.runnableQueue ++ [f] })

def release (f : F) (s : Worker F Q W) : Except Fault (Worker F Q W) :=
  if (s.fiber (some f)).state = .suspended then
    if f ∈ s.suspendedQueue then
      .ok (setLinked f false { s with suspendedQueue := s.suspendedQueue.erase f })
    else .error .list
  else
    if f ∈ s.runnableQueue then
      .ok (setLinked f false { s with runnableQueue := s.runnableQueue.erase f })
    else .error .list

/-- A new fiber is constructed and added. -/
def hatch (f : F) (s : Worker F Q W) : Except Fault (Worker F Q W) :=
  add f false (s.setFiber (some f) { Fiber.construct with used := true })

/-- How `schedule` comes back to its caller: it did not switch, and tells whether it
did anything else, or it switched to another fiber. -/
inductive Schedule where
  | returned (didSchedule : Bool)
  | switched
deriving DecidableEq, Repr

/-- How `Fiber::run` comes back. -/
inductive Run where
  | switched
  | eagain
  | eperm
deriving DecidableEq, Repr

/-- Hand over to another fiber. -/
def switchTo (next : Option F) (s : Worker F Q W) : Worker F Q W :=
  let s := s.setFiber s.currentFiber (s.fiber s.currentFiber).stop
  { s.setFiber next (s.fiber next).start with currentFiber := next }

/-- `Fiber::run` of a fiber that has its context. A fiber that is ready is switched
to. -/
def dispatch (next : Option F) (s : Worker F Q W) : Except Fault (Worker F Q W × Run) :=
  match (s.fiber next).state with
  | .ready =>
      if s.currentFiber = next then .error .selfSwitch
      else .ok (s.switchTo next, .switched)
  | .running => if s.currentFiber = next then .ok (s, .eagain) else .error .abort
  | .dead => .ok (s, .eperm)
  | .new => .error .abort
  | .uninitialized | .waiting | .suspended => .error .runInvalid

/-- `Fiber::run`. A new fiber gets its context first. If that cannot be created, the fiber is
killed, and `schedule` sees the error. -/
def run (created : Contexts F) (next : Option F) (s : Worker F Q W) :
    Except Fault (Worker F Q W × Run) :=
  if (s.fiber next).state = .new then
    match created.res next with
    | .ok => dispatch next (s.setFiber next (s.fiber next).init)
    | .eagain => .ok (s.setFiber next (s.fiber next).kill, .eagain)
    | .eperm => .ok (s.setFiber next (s.fiber next).kill, .eperm)
    | .other => .error .abort
  else dispatch next s

/-- Rotate the list such that it starts right behind the element. -/
def rotateBehind (f : F) (l : List F) : List F :=
  (l.dropWhile (· ≠ f)).tail ++ l.takeWhile (· ≠ f) ++ [f]

/-- One attempt of `schedule` to switch to a fiber. -/
def attempt (created : Contexts F) (next : Option F) (s : Worker F Q W) :
    Except Fault (Worker F Q W × Run) :=
  match next with
  | none => run created none s
  | some f =>
      if f ∈ s.runnableQueue then
        run created (some f) { s with runnableQueue := rotateBehind f s.runnableQueue }
      else .error .list

/-- The part of `cleanup` for a fiber that is not the current one. -/
def remove (f : F) (s : Worker F Q W) : Except Fault (Worker F Q W) :=
  if f ∈ s.runnableQueue then
    let s := setLinked f false { s with runnableQueue := s.runnableQueue.erase f }
    .ok (s.setFiber (some f) { s.fiber (some f) with used := false })
  else .error .list

/-- The loop of `schedule`. A dead fiber is cleaned up, after which the next one is
tried; when it is the current one, the worker fiber has to do that. Every round
shortens the runnable queue. -/
def reschedule (created : Contexts F) :
    ℕ → Option (Option F) → Bool → Worker F Q W → Except Fault (Worker F Q W × Schedule)
  | 0, _, _, _ => .error .endless
  | n + 1, prefer, did, s =>
      let next := prefer.getD s.runnableQueue.head?
      (attempt created next s).bind fun
        | (s, .switched) => .ok (s, .switched)
        | (s, .eagain) => .ok (s, .returned did)
        | (s, .eperm) =>
            match next with
            | none => .error .abort
            | some f =>
                if s.currentFiber = some f then
                  (attempt created none s).bind fun
                    | (s, .switched) => .ok (s, .switched)
                    | (_, _) => .error .abort
                else
                  (remove f s).bind fun s => reschedule created n none true s

/-- A preferred fiber is asserted to be runnable. -/
def preferable (prefer : Option (Option F)) (s : Worker F Q W) : Bool :=
  match prefer with
  | some (some f) => decide (f ∈ s.runnableQueue)
  | some none | none => true

def schedule (created : Contexts F) (prefer : Option (Option F)) (now : ℕ)
    (s : Worker F Q W) : Except Fault (Worker F Q W × Schedule) :=
  if s.disableContextSwitch ≠ 0 then .ok (s, .returned true)
  else if !preferable prefer s then .error .abort
  else
    let prefer := if s.runEnd ≠ 0 ∧ s.runEnd < now then some none else prefer
    reschedule created (s.runnableQueue.length + 1) prefer false s

/-- `Worker::suspend` of a fiber that does not call it itself. -/
def suspendOther (f : F) (s : Worker F Q W) : Except Fault (Worker F Q W) :=
  match (s.fiber (some f)).state with
  | .new | .ready | .running =>
      (release f s).bind fun s =>
        add f false { s.setFiber (some f) (s.fiber (some f)).suspend with
          held := Function.update s.held f true }
  | .waiting =>
      .ok { s.setFiber (some f) (s.fiber (some f)).suspend with
        held := Function.update s.held f true }
  | .uninitialized | .dead | .suspended => .ok s

/-- `Worker::suspend`. A running fiber has to be the current one, and hands over. -/
def suspend (created : Contexts F) (f : F) (now : ℕ) (s : Worker F Q W) :
    Except Fault (Worker F Q W × Schedule) :=
  if (s.fiber (some f)).state = .running then
    (suspendOther f s).bind fun s =>
      if s.currentFiber = some f ∧ s.disableContextSwitch = 0 then
        schedule created none now s
      else .error .abort
  else (suspendOther f s).map fun s => (s, .returned true)

def resume (f : F) (s : Worker F Q W) : Except Fault (Worker F Q W) :=
  let s := { s with held := Function.update s.held f false }
  if (s.fiber (some f)).state = .suspended then
    (release f s).bind fun s => add f false (s.setFiber (some f) (s.fiber (some f)).resume)
  else .ok s

end Worker

end Zth
