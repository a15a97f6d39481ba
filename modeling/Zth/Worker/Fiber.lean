import Mathlib.Logic.Function.Basic
import Mathlib.Tactic.Common

/-!
# Fibers

A fiber has a state, and the state it goes to when what holds it up is over. It
carries the link fields of the one intrusive list it may be in. The methods below
are the transitions of `Fiber` on its own; which of its lists the fiber is in is up
to the worker, the synchronizers and the waiter.
-/

namespace Zth

/-- The states of a fiber. -/
inductive Fiber.State where
  | uninitialized
  | new
  | ready
  | running
  | waiting
  | suspended
  | dead
deriving DecidableEq, Repr

/-- A fiber. `used` is the reference that the worker holds until it cleaned up, and
`linked` tells that the link fields are in use. -/
structure Fiber where
  state : Fiber.State
  stateNext : Fiber.State
  used : Bool
  linked : Bool
deriving DecidableEq, Repr

namespace Fiber

/-- A fiber that was not constructed yet. -/
def none : Fiber := ⟨.uninitialized, .ready, false, false⟩

/-- A fiber that was just constructed. -/
def construct : Fiber := ⟨.new, .ready, false, false⟩

/-- The part of `init` that follows the creation of the context. -/
def init (f : Fiber) : Fiber := { f with state := f.stateNext, stateNext := .ready }

/-- The part of `run` that takes the processor from a fiber. -/
def stop (f : Fiber) : Fiber :=
  if f.state = .running then { f with state := .ready } else f

/-- The part of `run` that gives the processor to a fiber. -/
def start (f : Fiber) : Fiber := { f with state := .running }

def kill (f : Fiber) : Fiber := { f with state := .dead }

def nap (f : Fiber) : Fiber :=
  match f.state with
  | .new => { f with stateNext := .waiting }
  | .ready | .running => { f with state := .waiting, stateNext := .ready }
  | .suspended => { f with stateNext := .waiting }
  | .waiting | .uninitialized | .dead => f

def wakeup (f : Fiber) : Fiber :=
  match f.state with
  | .waiting =>
      if f.stateNext = .suspended then { f with state := .suspended, stateNext := .ready }
      else { f with state := f.stateNext }
  | .suspended => if f.stateNext = .waiting then { f with stateNext := .ready } else f
  | _ => f

def suspend (f : Fiber) : Fiber :=
  match f.state with
  | .new => { f with state := .suspended, stateNext := .new }
  | .running | .ready => { f with state := .suspended, stateNext := .ready }
  | .waiting => { f with stateNext := .waiting }
  | .suspended | .uninitialized | .dead => f

def resume (f : Fiber) : Fiber :=
  match f.state with
  | .suspended =>
      if f.stateNext = .new then { f with state := .new, stateNext := .ready }
      else { f with state := f.stateNext }
  | _ => f

end Fiber

end Zth
