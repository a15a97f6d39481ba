import Mathlib.Tactic.Common

/-!
# Tasks

A task is a coroutine with one result, which is put in the future of its promise. A task that
awaits another one suspends itself: it becomes the continuation of that one, and control goes
there. At its end, a task gives control to its continuation, or back to the loop of `run`. No
stack is used for this, so everything that is needed to come back is in the promises.

The tasks are executed by one fiber here. A body computes on the state of the program, creates
tasks and awaits them; a task that does not exist is a `task` without a promise.
-/

namespace Zth.Coro

/-- The body of a task. -/
inductive TaskBody (σ α E : Type*) where
  | coReturn (v : α)
  | throw (e : E)
  | compute (f : σ → σ) (rest : σ → TaskBody σ α E)
  | create (body : TaskBody σ α E) (rest : ℕ → TaskBody σ α E)
  | coAwait (d : ℕ) (rest : Except E α → TaskBody σ α E)

/-- Where a task is: before its start, being executed, suspended at a `co_await`, or at its
end. -/
inductive TaskPoint (σ α E : Type*) where
  | initial (body : TaskBody σ α E)
  | executing
  | awaiting (d : ℕ) (rest : Except E α → TaskBody σ α E)
  | final

/-- The promise of a task. The future is written by the task only. -/
structure TaskPromise (σ α E : Type*) where
  point : TaskPoint σ α E
  mRunning : Bool
  mContinuation : Option ℕ
  mFuture : Option (Except E α)

variable {σ α E : Type*}

namespace TaskPromise

/-- The promise of a new task. -/
def init (body : TaskBody σ α E) : TaskPromise σ α E := ⟨.initial body, false, none, none⟩

def completed (p : TaskPromise σ α E) : Bool := p.mFuture.isSome

def running (p : TaskPromise σ α E) : Bool := p.mRunning || p.mContinuation.isSome

/-- Set the flag. It must change. -/
def setRunning (set : Bool) (p : TaskPromise σ α E) : Option (TaskPromise σ α E) :=
  if p.mRunning = set then none else some { p with mRunning := set }

/-- Set the continuation. There must not be another one. -/
def setContinuation (h : ℕ) (p : TaskPromise σ α E) : Option (TaskPromise σ α E) :=
  if p.mContinuation = none ∨ p.mContinuation = some h then
    some { p with mContinuation := some h }
  else none

/-- Put the result in the future, which must be empty. -/
def setFuture (r : Except E α) (p : TaskPromise σ α E) : Option (TaskPromise σ α E) :=
  if p.completed then none else some { p with mFuture := some r }

/-- The end of the task, and where control goes. -/
def finalSuspend (p : TaskPromise σ α E) : Option (TaskPromise σ α E × Option ℕ) :=
  (p.setRunning false).map fun p =>
    ({ p with point := .final, mContinuation := none }, p.mContinuation)

end TaskPromise

/-- Who has control: the loop of `run`, a task, or a task that is going to be resumed. The fiber
may wait for the result of a task, `run` returns, and an assertion may fail. -/
inductive Control (σ α E : Type*) where
  | loop
  | executing (c : ℕ) (body : TaskBody σ α E)
  | transfer (h : Option ℕ)
  | blocked
  | returned (r : Except E α)
  | failed

/-- All tasks, the one that `run` is called for, and who has control. -/
structure Tasks (σ α E : Type*) where
  state : σ
  promises : List (TaskPromise σ α E)
  root : ℕ
  control : Control σ α E

namespace Tasks

/-- The exceptions of the coroutines. -/
inductive Problem where
  | alreadyCompleted
  | invalidState
deriving DecidableEq, Repr

def setPromise (c : ℕ) (p : TaskPromise σ α E) (m : Tasks σ α E) : Tasks σ α E :=
  { m with promises := m.promises.set c p }

def setControl (a : Control σ α E) (m : Tasks σ α E) : Tasks σ α E := { m with control := a }

section Machine

variable (problem : Problem → E)

/-- The result of the task that is awaited, which the fiber waits for. -/
def awaitResume (c d : ℕ) (rest : Except E α → TaskBody σ α E) (m : Tasks σ α E) :
    Tasks σ α E :=
  match m.promises[d]? with
  | none => m.setControl (.executing c (rest (.error (problem .alreadyCompleted))))
  | some q =>
      match q.mFuture with
      | none => m.setControl .blocked
      | some r => m.setControl (.executing c (rest r))

/-- Resume a coroutine, from where it is suspended. -/
def resume (c : ℕ) (m : Tasks σ α E) : Tasks σ α E :=
  match m.promises[c]? with
  | none => m.setControl .failed
  | some p =>
      match p.setRunning true with
      | none => m.setControl .failed
      | some p' =>
          match p.point with
          | .initial b => (m.setPromise c { p' with point := .executing }).setControl
              (.executing c b)
          | .awaiting d rest =>
              awaitResume problem c d rest (m.setPromise c { p' with point := .executing })
          | .executing | .final => m.setControl .failed

/-- The task `c` awaits the task `d`. -/
def await (c d : ℕ) (rest : Except E α → TaskBody σ α E) (m : Tasks σ α E) : Tasks σ α E :=
  match m.promises[d]? with
  | none => awaitResume problem c d rest m
  | some q =>
      if q.completed || q.running then awaitResume problem c d rest m
      else
        match m.promises[c]?.bind (TaskPromise.setRunning false), q.setContinuation c with
        | some p, some q =>
            ((m.setPromise c { p with point := .awaiting d rest }).setPromise d q).setControl
              (.transfer (some d))
        | _, _ => m.setControl .failed

/-- The task `c` returns or throws. -/
def finish (c : ℕ) (r : Except E α) (m : Tasks σ α E) : Tasks σ α E :=
  match (m.promises[c]?.bind (TaskPromise.setFuture r)).bind TaskPromise.finalSuspend with
  | none => m.setControl .failed
  | some (p, h) => (m.setPromise c p).setControl (.transfer h)

/-- One step of the fiber. -/
def step (m : Tasks σ α E) : Tasks σ α E :=
  match m.control with
  | .loop =>
      match m.promises[m.root]? with
      | none => m.setControl .failed
      | some p =>
          match p.mFuture with
          | none => resume problem m.root m
          | some r => m.setControl (.returned r)
  | .executing c (.coReturn v) => finish c (.ok v) m
  | .executing c (.throw e) => finish c (.error e) m
  | .executing c (.compute f rest) =>
      { m with state := f m.state, control := .executing c (rest (f m.state)) }
  | .executing c (.create body rest) =>
      { m with
        promises := m.promises ++ [.init body]
        control := .executing c (rest m.promises.length) }
  | .executing c (.coAwait d rest) => await problem c d rest m
  | .transfer none => m.setControl .loop
  | .transfer (some h) => resume problem h m
  | .blocked | .returned _ | .failed => m

/-- `run` is called for the task `c`. -/
def start (c : ℕ) (m : Tasks σ α E) : Tasks σ α E :=
  match m.promises[c]? with
  | none => m.setControl (.returned (.error (problem .alreadyCompleted)))
  | some p =>
      if p.running then m.setControl (.returned (.error (problem .invalidState)))
      else { m with root := c, control := .loop }

end Machine

end Tasks

end Zth.Coro
