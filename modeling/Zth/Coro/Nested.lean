import Mathlib.Logic.Function.Basic
import Zth.Coro.Generator
import Zth.Library.Run

/-!
# Coroutines that await each other

A coroutine is executed by a fiber, in a loop of `run` or `generate`. When it awaits another
coroutine, it suspends itself and the same loop goes on with that one, which resumes the first
one when it is done, or when it has a value. Whether a coroutine is running is answered by a flag
that is cleared at every suspension, and by a continuation that is set by who waits for a task,
or when a value is yielded.

A body is any sequence of the steps below: it may `run` and `generate` other coroutines, await
them, yield values and return. The promise of a task has a mailbox as well in this model, which
is not used.
-/

namespace Zth.Coro

/-- Where a coroutine is: it was not started, a fiber executes it, it is suspended at a
`co_await` or a `co_yield`, or it is at its end. -/
inductive Point (C : Type*) where
  | initial
  | executing
  | awaiting (d : C)
  | yielded
  | done
deriving DecidableEq, Repr

/-- A loop of `run` or `generate`, the coroutine that it is for, and the one that it executes. -/
structure Driver (C : Type*) where
  generates : Bool
  root : C
  current : C
deriving DecidableEq, Repr

/-- What a fiber waits for: nothing, a value of a generator, or the result of a task. -/
inductive Blocked (C : Type*) where
  | no
  | value (d : C)
  | result (d : C)
deriving DecidableEq, Repr

/-- How the last step ended. -/
inductive Ending where
  | ok
  | invalidState
  | alreadyCompleted
  | assertion
deriving DecidableEq, Repr

/-- All coroutines, and for every fiber its loops, the inner one first. -/
structure Nested (F C α E : Type*) where
  promise : C → GeneratorPromise F C α E
  point : C → Point C
  drivers : F → List (Driver C)
  blocked : F → Blocked C
  last : Ending

namespace Nested

variable {F C α E : Type*}

/-- No coroutine was started. -/
def init (F C α E : Type*) : Nested F C α E :=
  ⟨fun _ => .init F C α E, fun _ => .initial, fun _ => [], fun _ => .no, .ok⟩

variable [DecidableEq F] [DecidableEq C]

def setPromise (c : C) (p : GeneratorPromise F C α E) (w : Nested F C α E) : Nested F C α E :=
  { w with promise := Function.update w.promise c p }

def setPoint (c : C) (a : Point C) (w : Nested F C α E) : Nested F C α E :=
  { w with point := Function.update w.point c a }

def setDrivers (f : F) (ds : List (Driver C)) (w : Nested F C α E) : Nested F C α E :=
  { w with drivers := Function.update w.drivers f ds }

def setBlocked (f : F) (b : Blocked C) (w : Nested F C α E) : Nested F C α E :=
  { w with blocked := Function.update w.blocked f b }

/-- The loop in which a fiber waits for a value of a generator, until it blocks. -/
def wait (f : F) (d : C) (w : Nested F C α E) : Nested F C α E :=
  let p := w.promise d
  if p.validFor (some (.fiber f)) then (w.setPromise d p.take).setBlocked f .no
  else if p.abandoned then w.setBlocked f .no
  else
    (w.setPromise d { p with takeQueue := p.takeQueue ++ [.fiber f] }).setBlocked f (.value d)

/-- `await_resume` of a coroutine that awaits another one, and had suspended itself for that or
not. -/
def awaitResume (gen : C → Bool) (f : F) (waiter : Option C) (d : C) (w : Nested F C α E) :
    Nested F C α E :=
  let p := w.promise d
  if gen d then
    if p.validFor (waiter.map .coro) then w.setPromise d p.take
    else if p.abandoned then w
    else w.wait f d
  else if p.mCompleted then w
  else w.setBlocked f (.result d)

/-- Resume a coroutine in the fiber, from where it is suspended. -/
def resume (gen : C → Bool) (f : F) (c : C) (w : Nested F C α E) : Option (Nested F C α E) :=
  ((w.promise c).setRunning true).bind fun p =>
    match w.point c with
    | .initial => some ((w.setPromise c p).setPoint c .executing)
    | .yielded => some ((w.setPromise c p).setPoint c .executing)
    | .awaiting d => some (((w.setPromise c p).setPoint c .executing).awaitResume gen f (some c) d)
    | .executing => none
    | .done => none

/-- A coroutine has suspended itself in a loop, and control goes to the given handle. Back in
the loop, it returns or resumes its coroutine again. -/
def transfer (gen : C → Bool) (f : F) (cont : Handle C) (r : Driver C) (rs : List (Driver C))
    (w : Nested F C α E) : Option (Nested F C α E) :=
  let p := w.promise r.root
  match cont with
  | .coro c => (w.setDrivers f ({ r with current := c } :: rs)).resume gen f c
  | .noop =>
      if r.generates then
        if p.valid || p.mCompleted then some (w.setDrivers f rs)
        else
          (p.setContinuation .noop).bind fun p =>
            ((w.setPromise r.root p).setDrivers f ({ r with current := r.root } :: rs)).resume
              gen f r.root
      else if p.mCompleted then some (w.setDrivers f rs)
      else (w.setDrivers f ({ r with current := r.root } :: rs)).resume gen f r.root

/-- `run`, until the coroutine is resumed. -/
def run (gen : C → Bool) (f : F) (c : C) (w : Nested F C α E) : Option (Nested F C α E) :=
  let p := w.promise c
  if p.running then some { w with last := .invalidState }
  else if p.mCompleted then some w
  else (w.setDrivers f (⟨false, c, c⟩ :: w.drivers f)).resume gen f c

/-- `generate`, until the generator is resumed. -/
def generate (gen : C → Bool) (f : F) (c : C) (w : Nested F C α E) : Option (Nested F C α E) :=
  let p := w.promise c
  if p.mCompleted then some { w with last := .alreadyCompleted }
  else if p.valid then some w
  else if p.running then some w
  else
    (p.setContinuation .noop).bind fun p =>
      ((w.setPromise c p).setDrivers f (⟨true, c, c⟩ :: w.drivers f)).resume gen f c

/-- The coroutine that a loop executes awaits a task or a generator. It suspends itself, if
nobody executes that one and there is something to wait for. -/
def await (gen : C → Bool) (f : F) (d : C) (r : Driver C) (rs : List (Driver C))
    (w : Nested F C α E) : Option (Nested F C α E) :=
  let p := w.promise d
  let x := r.current
  let suspend := fun (w : Nested F C α E) =>
    ((w.setPoint x (.awaiting d)).setDrivers f ({ r with current := d } :: rs)).resume gen f d
  if gen d then
    if p.abandoned || p.validFor none || p.running then some (w.awaitResume gen f none d)
    else
      ((w.promise x).setRunning false).bind fun px =>
        let w := w.setPromise x px
        let p := w.promise d
        suspend (w.setPromise d { p with takeQueue := p.takeQueue ++ [.coro x] })
  else if p.mCompleted || p.running then some (w.awaitResume gen f none d)
  else
    ((w.promise x).setRunning false).bind fun px =>
      let w := w.setPromise x px
      ((w.promise d).setContinuation (.coro x)).bind fun p => suspend (w.setPromise d p)

/-- The generator that a loop executes yields a value, when its mailbox is empty. -/
def yield (gen : C → Bool) (f : F) (v : α) (r : Driver C) (rs : List (Driver C))
    (w : Nested F C α E) : Option (Nested F C α E) :=
  ((w.promise r.current).yieldValue v).bind fun (p, cont) =>
    match cont with
    | none => some (w.setPromise r.current p)
    | some cont =>
        transfer gen f cont r rs ((w.setPromise r.current p).setPoint r.current .yielded)

/-- The end of a task. -/
def taskFinalSuspend (p : GeneratorPromise F C α E) :
    Option (GeneratorPromise F C α E × Handle C) :=
  (p.setRunning false).map GeneratorPromise.continuation

/-- The coroutine that a loop executes returns. -/
def finish (gen : C → Bool) (f : F) (r : Driver C) (rs : List (Driver C))
    (w : Nested F C α E) : Option (Nested F C α E) :=
  let p := (w.promise r.current).returnVoid
  (if gen r.current then p.finalSuspend else taskFinalSuspend p).bind fun (p, cont) =>
    transfer gen f cont r rs ((w.setPromise r.current p).setPoint r.current .done)

/-- `value` of a generator, until the fiber blocks. -/
def value (f : F) (d : C) (w : Nested F C α E) : Nested F C α E :=
  if (w.promise d).mCompleted then { w with last := .alreadyCompleted } else w.wait f d

/-- What a fiber does next: the coroutine that it executes, or the fiber itself, calls
something, or the fiber goes on after it has waited. -/
inductive Label (F C α : Type*) where
  | run (f : F) (c : C)
  | generate (f : F) (c : C)
  | value (f : F) (d : C)
  | await (f : F) (d : C)
  | yield (f : F) (v : α)
  | finish (f : F)
  | go (f : F)

/-- A step of a fiber that does not wait. A failed assertion ends everything. -/
def attempt (w : Nested F C α E) (next : Option (Nested F C α E)) : Nested F C α E :=
  match next with
  | none => { w with last := .assertion }
  | some w' => w'

/-- One step of a fiber. -/
def step (gen : C → Bool) (w : Nested F C α E) :
    Label F C α → Option (Nested F C α E)
  | .run f c =>
      if w.blocked f = .no ∧ w.last ≠ .assertion then
        some (w.attempt (run gen f c { w with last := .ok }))
      else none
  | .generate f c =>
      if w.blocked f = .no ∧ w.last ≠ .assertion ∧ gen c then
        some (w.attempt (generate gen f c { w with last := .ok }))
      else none
  | .value f d =>
      if w.blocked f = .no ∧ w.last ≠ .assertion ∧ gen d then
        some (value f d { w with last := .ok })
      else none
  | .await f d =>
      match w.drivers f with
      | [] => none
      | r :: rs =>
          if w.blocked f = .no ∧ w.last ≠ .assertion then
            some (w.attempt (await gen f d r rs { w with last := .ok }))
          else none
  | .yield f v =>
      match w.drivers f with
      | [] => none
      | r :: rs =>
          if w.blocked f = .no ∧ w.last ≠ .assertion ∧ gen r.current ∧
              (w.promise r.current).valid = false then
            some (w.attempt (yield gen f v r rs { w with last := .ok }))
          else none
  | .finish f =>
      match w.drivers f with
      | [] => none
      | r :: rs =>
          if w.blocked f = .no ∧ w.last ≠ .assertion then
            some (w.attempt (finish gen f r rs { w with last := .ok }))
          else none
  | .go f =>
      match w.blocked f with
      | .no => none
      | .value d =>
          if .fiber f ∉ (w.promise d).takeQueue ∧ w.last ≠ .assertion then
            some (wait f d { w with last := .ok })
          else none
      | .result d =>
          if (w.promise d).mCompleted ∧ w.last ≠ .assertion then
            some (setBlocked f .no { w with last := .ok })
          else none

end Nested

end Zth.Coro
