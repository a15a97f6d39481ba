import Zth.Sync.Gate
import Zth.Sync.Future

/-!
# Joining fibers and futures

A joiner has a gate for one more pass than there are fibers and futures. A fiber that is joined
passes it by one of its exit hooks; for a future, the destructor of the joiner waits, and passes
then. The last pass is that of the destructor itself.

Exit hooks are kept in a list, and the last one is executed first. They are executed when the
function of the fiber returns, and when the fiber is destructed. What is added while they are
executed is dropped afterwards.
-/

namespace Zth

/-- What a fiber does when it exits: it passes the gate of the joiner, or something else. -/
inductive ExitHook where
  | pass
  | other
deriving DecidableEq, Repr

/-- Where a fiber is: in its function, in its exit hooks, at its end, or in its destructor. The
hooks are those that were not executed yet. -/
inductive HookedFiber.Code where
  | entry
  | exit (hooks : List ExitHook)
  | ended
  | destructor (hooks : List ExitHook)
  | destructed
deriving DecidableEq, Repr

/-- A fiber and its exit hooks. -/
structure HookedFiber where
  dead : Bool
  code : HookedFiber.Code
  mExit : List ExitHook
deriving DecidableEq, Repr

namespace HookedFiber

/-- A new fiber. -/
def init : HookedFiber := ⟨false, .entry, []⟩

/-- A hook is added. -/
def atExit (hook : ExitHook) (x : HookedFiber) : HookedFiber :=
  { x with mExit := hook :: x.mExit }

/-- The function returns, and the exit hooks are next. -/
def returns (x : HookedFiber) : Option HookedFiber :=
  match x.code with
  | .entry => some { x with code := .exit x.mExit }
  | _ => none

/-- The fiber is destructed, and the exit hooks are next. -/
def delete (x : HookedFiber) : Option HookedFiber :=
  match x.code with
  | .entry | .ended => some { x with code := .destructor x.mExit }
  | _ => none

/-- The next exit hook. -/
def once (x : HookedFiber) : Option (ExitHook × HookedFiber) :=
  match x.code with
  | .exit (hook :: hooks) => some (hook, { x with code := .exit hooks })
  | .destructor (hook :: hooks) => some (hook, { x with code := .destructor hooks })
  | _ => none

/-- There is no exit hook any more. The list is empty, whatever was added meanwhile. -/
def exited (x : HookedFiber) : Option HookedFiber :=
  match x.code with
  | .exit [] => some ⟨true, .ended, []⟩
  | .destructor [] => some ⟨true, .destructed, []⟩
  | _ => none

def kill (x : HookedFiber) : HookedFiber := { x with dead := true }

/-- How often the fiber will pass the gate, once it executes its exit hooks. -/
def left (x : HookedFiber) : ℕ :=
  match x.code with
  | .entry | .ended => x.mExit.count .pass
  | .exit hooks | .destructor hooks => hooks.count .pass
  | .destructed => 0

/-- The fiber executes its exit hooks. -/
def InHooks (x : HookedFiber) : Prop :=
  (∃ hooks, x.code = .exit hooks) ∨ ∃ hooks, x.code = .destructor hooks

/-- The fiber has passed the gate, but not all of its exit hooks were executed. -/
def AfterPass (x : HookedFiber) : Prop := x.InHooks ∧ x.left = 0 ∧ x.dead = false

end HookedFiber

/-- What can be joined. -/
inductive Joined (F O : Type*) where
  | fiber (f : F)
  | future (o : O)
deriving DecidableEq, Repr

/-- Where the joiner is: in its constructor or between that and its destructor, in `m_join.once`,
blocked in the hook of a future, in `m_gate.wait`, or at its end. -/
inductive Joiner.Code (F O : Type*) where
  | joining (js : List (Joined F O))
  | once (hooks : List O)
  | waiting (o : O) (hooks : List O)
  | gate
  | returned

/-- A joiner, and all fibers and futures. -/
structure Joiner (F O T E : Type*) where
  code : Joiner.Code F O
  gate : Monitor.State F Unit Gate.Code (Gate.Data F)
  mJoin : List O
  fibers : F → HookedFiber
  futures : O → Monitor.State F Unit (Future.Code T E) (Future.Data T E)

namespace Joiner

open Mailbox

variable {F O T E : Type*}

/-- A joiner that is about to be constructed, new fibers and new futures. -/
def init (T E : Type*) (joined : List (Joined F O)) : Joiner F O T E :=
  ⟨.joining joined, .idle (.init F), [], fun _ => .init, fun _ => .idle (.init T E)⟩

def setCode (c : Code F O) (s : Joiner F O T E) : Joiner F O T E := { s with code := c }

/-- Somebody passes the gate. -/
def pass (count : ℕ) (s : Joiner F O T E) : Joiner F O T E :=
  { s with gate := (Gate.pass count s.gate).1 }

/-- What happens: the joiner goes on, or its wait returns; the function of a fiber returns, a
fiber executes its next exit hook or has executed them all, is killed or destructed, or gets an
exit hook from somebody else; or a future is set or used by somebody else. -/
inductive Label (F O T E : Type*) where
  | next
  | resume
  | returns (f : F)
  | once (f : F)
  | exited (f : F)
  | kill (f : F)
  | delete (f : F)
  | atExit (f : F)
  | set (o : O) (r : Except E T)
  | wait (o : O) (f : F)
  | value (o : O) (f : F)
  | go (o : O) (f : F)

/-- What a future is set to. -/
def item : Except E T → Item T E
  | .ok v => .value v
  | .error e => .exception (some e)

section Step

variable [DecidableEq F] [DecidableEq O]

def setFiber (f : F) (x : HookedFiber) (s : Joiner F O T E) : Joiner F O T E :=
  { s with fibers := Function.update s.fibers f x }

def setFuture (o : O) (future : Monitor.State F Unit (Future.Code T E) (Future.Data T E))
    (s : Joiner F O T E) : Joiner F O T E :=
  { s with futures := Function.update s.futures o future }

/-- One fiber or future is joined. -/
def joinable (j : Joined F O) (s : Joiner F O T E) : Option (Joiner F O T E) :=
  match j with
  | .fiber f =>
      if (s.fibers f).code = .destructed then none
      else some (s.setFiber f ((s.fibers f).atExit .pass))
  | .future o => some { s with mJoin := o :: s.mJoin }

/-- The wait for a future has returned, and the gate is passed. -/
def passed (count : ℕ) (hooks : List O) (s : Joiner F O T E) : Joiner F O T E :=
  (s.pass count).setCode (.once hooks)

/-- The joiner goes on to its next wait. -/
def next (me : F) (count : ℕ) (s : Joiner F O T E) : Option (Joiner F O T E) :=
  match s.code with
  | .joining (j :: js) => (s.joinable j).map (setCode (.joining js))
  | .joining [] => some (s.setCode (.once s.mJoin))
  | .once (o :: hooks) =>
      (Future.step (s.futures o) (.call me .wait)).map fun future =>
        if (future.code me).isNone then (s.setFuture o future).passed count hooks
        else (s.setFuture o future).setCode (.waiting o hooks)
  | .once [] =>
      (Gate.step count s.gate (.call me .wait)).map fun gate =>
        { s with gate := gate, code := .gate }
  | .waiting _ _ | .gate | .returned => none

/-- The wait of the joiner returns. -/
def resume (me : F) (count : ℕ) (s : Joiner F O T E) : Option (Joiner F O T E) :=
  match s.code with
  | .waiting o hooks =>
      (Future.step (s.futures o) (.resume me)).map fun future =>
        (s.setFuture o future).passed count hooks
  | .gate =>
      if (s.gate.code me).isNone then some (s.setCode .returned)
      else (Gate.step count s.gate (.resume me)).map fun gate =>
        { s with gate := gate, code := .returned }
  | .joining _ | .once _ | .returned => none

/-- A fiber executes one of its exit hooks. -/
def execute (count : ℕ) (hook : ExitHook) (s : Joiner F O T E) : Joiner F O T E :=
  match hook with
  | .pass => s.pass count
  | .other => s

/-- Somebody else uses a future. -/
def use (me f : F) (o : O) (l : Monitor.Label F Unit (Future.Call T E)) (s : Joiner F O T E) :
    Option (Joiner F O T E) :=
  if f = me then none
  else (Future.step (s.futures o) l).map fun future => s.setFuture o future

/-- One step. A future is asserted not to be valid when it is set. -/
def step (me : F) (count : ℕ) (s : Joiner F O T E) (l : Label F O T E) :
    Option (Joiner F O T E) :=
  match l with
  | .next => s.next me count
  | .resume => s.resume me count
  | .returns f => (s.fibers f).returns.map fun x => s.setFiber f x
  | .once f => (s.fibers f).once.map fun hx => (s.execute count hx.1).setFiber f hx.2
  | .exited f => (s.fibers f).exited.map fun x => s.setFiber f x
  | .kill f => some (s.setFiber f (s.fibers f).kill)
  | .delete f => (s.fibers f).delete.map fun x => s.setFiber f x
  | .atExit f =>
      if (s.fibers f).code = .destructed then none
      else some (s.setFiber f ((s.fibers f).atExit .other))
  | .set o r =>
      if (s.futures o).data.value.valid then none
      else some (s.setFuture o (Future.assign (item r) (s.futures o)))
  | .wait o f => s.use me f o (.call f .wait)
  | .value o f => s.use me f o (.call f .value)
  | .go o f => s.use me f o (.resume f)

end Step

/-- The fiber has exited, or the future is set. -/
def Finished (s : Joiner F O T E) : Joined F O → Prop
  | .fiber f => (s.fibers f).dead = true
  | .future o => (s.futures o).data.value.valid = true

/-- The destructor is blocked, in `m_join.once` or in `m_gate.wait`. -/
def Blocked (me : F) (s : Joiner F O T E) : Prop :=
  (∃ o hooks, s.code = .waiting o hooks ∧ me ∈ (s.futures o).queue ()) ∨
    s.code = .gate ∧ me ∈ s.gate.queue ()

/-- When the destructor is blocked, something has not finished, and it returns when everything
has. -/
def WaitsExactly (me : F) (joined : List (Joined F O)) (s : Joiner F O T E) : Prop :=
  (Blocked me s → ∃ j ∈ joined, ¬ s.Finished j) ∧
    (s.code = .returned → ∀ j ∈ joined, s.Finished j)

/-- A fiber that is joined is alive, and in its function. It is not killed as long as it did not
pass the gate, and the exit hooks that are executed after the pass do not switch to the joiner. -/
def JoinsRunning (joined : List (Joined F O)) (s : Joiner F O T E) : Label F O T E → Prop
  | .next => ∀ f js, s.code = .joining (.fiber f :: js) →
      (s.fibers f).dead = false ∧ (s.fibers f).code = .entry
  | .resume => s.code = .gate → ∀ f, .fiber f ∈ joined → ¬ (s.fibers f).AfterPass
  | .kill f => (s.fibers f).left = 0
  | _ => True

end Joiner

end Zth
