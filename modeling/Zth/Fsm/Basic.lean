import Mathlib.Logic.Function.Basic
import Zth.Fsm.Table
import Zth.Library.Run
import Zth.Library.SwapRemove
import Zth.Time.Interval

/-!
# The state machine that runs a table

A `BasicFsm` holds the index of the current state in a compiled table, that of the
previous state and of the transition that was taken last, some flags, a stack of states
and a list of input symbols. `step` polls the guards of the current state one by one and
takes the first transition that is enabled.

Guards and actions are functions of the user. What they read besides the machine is the
world, which may be another one for every callback. A guard does not change the machine,
but it may call `entry`. An action calls functions of the machine, and it may replace the
data that the user added to it.
-/

namespace Zth

namespace Fsm

/-- Properties of the current state. -/
inductive Flag where
  /-- Just entered the current state. -/
  | entry
  /-- Took a transition to the same state. -/
  | selfloop
  /-- No guard is enabled. -/
  | blocked
  /-- A transition is taken. -/
  | transition
  /-- The current state was entered using `push`. -/
  | pushed
  /-- The current state was entered using `pop`. -/
  | popped
  /-- `stop` was requested. -/
  | stop
  /-- The current state was entered via an input symbol. -/
  | input
deriving DecidableEq, Repr

/-- What the log remembers: a state was left, or the action of an entry was run. -/
inductive Event where
  | leave (state : ℕ)
  | action (i : ℕ)
deriving DecidableEq, Repr

/-- The machine. The back of the stack is the head of the list. The code does not have
`log`. -/
structure BasicFsm (D : Type*) where
  flags : Flag → Bool
  prev : ℕ
  transition : ℕ
  state : ℕ
  stack : List ℕ
  inputs : List Symbol
  data : D
  log : List Event

/-- A guard: the interval it returns, and whether it called `entry`. -/
structure Guard (W D : Type*) where
  poll : W → BasicFsm D → TimeInterval
  callsEntry : W → BasicFsm D → Bool

/-- The functions of the machine that an action may call. `consume` is `clearInput`
without an argument. -/
inductive Call (D : Type*) where
  | input (i : Symbol)
  | clearInput (i : Symbol)
  | consume
  | clearInputs
  | push
  | pop
  | entry
  | stop
  | reset
  | setData (d : D)

/-- An action: the calls it makes, one after the other. -/
abbrev Action (W D : Type*) := W → BasicFsm D → List (Call D)

abbrev CompiledTable (W D : Type*) := List (CompiledTransition (Guard W D) (Action W D))

variable {W D : Type*}

/-- A guard that returns a `bool`. -/
def guardPollInterval (enabled : Bool) : TimeInterval :=
  if enabled then .null else .infinity

/-- The guards `always` and `never` and the action `nothing`. -/
def builtin (W D : Type*) : Trivial (Guard W D) (Action W D) where
  always := ⟨fun _ _ => guardPollInterval true, fun _ _ => false⟩
  never := ⟨fun _ _ => guardPollInterval false, fun _ _ => false⟩
  nothing := fun _ _ => []

/-- The action that makes a single call. -/
def action (c : Call D) : Action W D := fun _ _ => [c]

namespace BasicFsm

/-- A machine that was initialized. -/
def init (d : D) : BasicFsm D := ⟨fun _ => false, 0, 0, 0, [], [], d, []⟩

def flag (f : Flag) (m : BasicFsm D) : Bool := m.flags f

def setFlag (f : Flag) (value : Bool) (m : BasicFsm D) : BasicFsm D :=
  { m with flags := Function.update m.flags f value }

def clearFlag (f : Flag) (m : BasicFsm D) : BasicFsm D := m.setFlag f false

@[simp] theorem setFlag_flags (f : Flag) (value : Bool) (m : BasicFsm D) :
    (m.setFlag f value).flags = Function.update m.flags f value := rfl

@[simp] theorem setFlag_prev (f : Flag) (value : Bool) (m : BasicFsm D) :
    (m.setFlag f value).prev = m.prev := rfl

@[simp] theorem setFlag_transition (f : Flag) (value : Bool) (m : BasicFsm D) :
    (m.setFlag f value).transition = m.transition := rfl

@[simp] theorem setFlag_state (f : Flag) (value : Bool) (m : BasicFsm D) :
    (m.setFlag f value).state = m.state := rfl

@[simp] theorem setFlag_stack (f : Flag) (value : Bool) (m : BasicFsm D) :
    (m.setFlag f value).stack = m.stack := rfl

@[simp] theorem setFlag_inputs (f : Flag) (value : Bool) (m : BasicFsm D) :
    (m.setFlag f value).inputs = m.inputs := rfl

@[simp] theorem setFlag_data (f : Flag) (value : Bool) (m : BasicFsm D) :
    (m.setFlag f value).data = m.data := rfl

@[simp] theorem setFlag_log (f : Flag) (value : Bool) (m : BasicFsm D) :
    (m.setFlag f value).log = m.log := rfl

@[simp] theorem clearFlag_eq (f : Flag) (m : BasicFsm D) : m.clearFlag f = m.setFlag f false :=
  rfl

def reset (m : BasicFsm D) : BasicFsm D :=
  { m with flags := fun _ => false, prev := 0, transition := 0, state := 0, stack := [] }

def entry (m : BasicFsm D) : BasicFsm D × Bool :=
  if m.flag .entry then (m.clearFlag .entry, true) else (m, false)

def leave (m : BasicFsm D) : BasicFsm D := { m with log := m.log ++ [.leave m.state] }

def hasInput (i : Symbol) (m : BasicFsm D) : Bool :=
  i.valid && m.inputs.any fun j => j.constexprEq i

/-- Register an input symbol. -/
def input (i : Symbol) (m : BasicFsm D) : BasicFsm D :=
  if i.valid then { m with inputs := m.inputs ++ [i] } else m

/-- Remove an input symbol: the last one takes the place of the first that is equal to
it. -/
def clearInput (i : Symbol) (m : BasicFsm D) : BasicFsm D × Bool :=
  if i.valid then
    match m.inputs.findIdx? fun j => j.constexprEq i with
    | some j => ({ m with inputs := m.inputs.swapRemove j }, true)
    | none => (m, false)
  else (m, false)

def clearInputs (m : BasicFsm D) : BasicFsm D := { m with inputs := [] }

/-- The input symbol that triggered the transition to the current state. That this
transition has one is asserted. -/
def triggeredBy (table : CompiledTable W D) (m : BasicFsm D) : Option Symbol :=
  if m.flag .input then
    match table[m.transition]? with
    | some ⟨.input i, _, _, _⟩ => some i
    | _ => none
  else some none

/-- The previous state is what is pushed. -/
def push (m : BasicFsm D) : BasicFsm D :=
  { m with stack := m.prev :: m.stack }.setFlag .pushed true

/-- Back to the state `target`; `stack` is what remains of the stack. No action belongs to
this transition, so `enter` does nothing. -/
def popTo (target : ℕ) (stack : List ℕ) (m : BasicFsm D) : BasicFsm D :=
  let m := (m.clearFlag .blocked).setFlag .selfloop (m.state == target)
  let m := if m.flag .transition then m else (m.setFlag .transition true).leave
  let m := { m with prev := m.state, state := target, stack := stack, transition := 0 }
  let m := ((m.clearFlag .pushed).setFlag .popped true).clearFlag .input
  m.setFlag .entry true

/-- There must be a state on the stack, and not the dummy; both are asserted. -/
def pop (m : BasicFsm D) : Option (BasicFsm D) :=
  match m.stack with
  | [] => none
  | target :: stack => if target = 0 then none else some (m.popTo target stack)

/-- Poll entry `e`. -/
def enabled (w : W) (e : Trigger (Guard W D)) (m : BasicFsm D) : TimeInterval × BasicFsm D :=
  match e with
  | .input i => (guardPollInterval (m.hasInput i), m)
  | .guard g => (g.poll w m, if g.callsEntry w m then m.entry.1 else m)

end BasicFsm

/-- Perform a call; `none` when an assertion fails. -/
def Call.run (table : CompiledTable W D) (m : BasicFsm D) : Call D → Option (BasicFsm D)
  | .input i => some (m.input i)
  | .clearInput i => some (m.clearInput i).1
  | .consume => (m.triggeredBy table).map fun i => (m.clearInput i).1
  | .clearInputs => some m.clearInputs
  | .push => some m.push
  | .pop => m.pop
  | .entry => some m.entry.1
  | .stop => some (m.setFlag .stop true)
  | .reset => some m.reset
  | .setData d => some { m with data := d }

/-- What the loop of `step` found: an entry that is enabled, after `k` polls, or how long
to wait until the guards must be checked again. -/
inductive Found (W D : Type*) where
  | enabled (i k : ℕ) (e : CompiledTransition (Guard W D) (Action W D))
  | blocked (again : TimeInterval)

namespace BasicFsm

/-- Save the shortest poll interval. -/
def shortest (p again : TimeInterval) : TimeInterval := if p.less again then p else again

/-- The loop of `step`, at entry `i`, which is `e`. It goes on with the entries behind it
until the end or the next one that names a state. -/
def findEnabled (env : ℕ → W) (i k : ℕ) (again : TimeInterval) (m : BasicFsm D)
    (e : CompiledTransition (Guard W D) (Action W D)) :
    CompiledTable W D → Found W D × BasicFsm D
  | [] =>
      let r := m.enabled (env k) e.trigger
      if r.1.hasPassed then (.enabled i (k + 1) e, r.2)
      else (.blocked (shortest r.1 again), r.2)
  | e' :: rest =>
      let r := m.enabled (env k) e.trigger
      if r.1.hasPassed then (.enabled i (k + 1) e, r.2)
      else if e'.state.valid then (.blocked (shortest r.1 again), r.2)
      else findEnabled env (i + 1) (k + 1) (shortest r.1 again) r.2 e' rest

/-- The loop from the first entry of the current state. -/
def findNext (table : CompiledTable W D) (env : ℕ → W) (m : BasicFsm D) :
    Option (Found W D × BasicFsm D) :=
  match table.drop m.state with
  | [] => none
  | e :: rest => some (findEnabled env m.state 0 (guardPollInterval false) m e rest)

/-- Take the transition of entry `i`, up to the call of `enter`. -/
def takeTransition (i : ℕ) (e : CompiledTransition (Guard W D) (Action W D))
    (m : BasicFsm D) : BasicFsm D :=
  let m := { m with transition := i }.clearFlag .blocked
  if e.target = 0 then (m.clearFlag .transition).setFlag .input e.trigger.isInput
  else
    let m := (m.setFlag .selfloop (e.target == m.state)).setFlag .transition true
    let m := if m.state = 0 then m else m.leave
    let m := { m with prev := m.state, state := e.target }
    ((m.clearFlag .popped).clearFlag .pushed).setFlag .input e.trigger.isInput

/-- The log remembers that the action of the last transition is run. -/
def logAction (m : BasicFsm D) : BasicFsm D := { m with log := m.log ++ [.action m.transition] }

/-- Run the action of the last transition, unless that is the dummy. -/
def enter (table : CompiledTable W D) (w : W) (m : BasicFsm D) : Option (BasicFsm D) :=
  if m.transition = 0 then some m
  else
    match table[m.transition]? with
    | some e => Transition.run (Call.run table) m.logAction (e.action w m.logAction)
    | none => none

/-- Try to take one step. The result is how long it takes until the guards must be checked
again; `none` when an assertion fails. -/
def step (table : CompiledTable W D) (env : ℕ → W) (m : BasicFsm D) :
    Option (TimeInterval × BasicFsm D) :=
  match m.findNext table env with
  | none => none
  | some (.blocked again, m) => some (again, m.setFlag .blocked true)
  | some (.enabled i k e, m) =>
      (enter table (env k) (m.takeTransition i e)).map fun m =>
        (guardPollInterval true, if e.target = 0 then m else m.setFlag .entry true)

end BasicFsm

/-- What is done to a machine: a step, or a call from outside. -/
inductive Op (W D : Type*) where
  | step (env : ℕ → W)
  | call (c : Call D)

def Op.run (table : CompiledTable W D) (m : BasicFsm D) : Op W D → Option (BasicFsm D)
  | .step env => (m.step table env).map (·.2)
  | .call c => c.run table m

end Fsm

end Zth
