import Zth.Fsm.Pieces
import Zth.Sync.Signal

/-!
# The loop that runs a state machine

`run` makes steps as long as they take a transition, and waits for its trigger, with a deadline,
when a step does not. An input symbol that is registered by another fiber triggers it. The trigger
is not queued: it is lost when `run` is not in its wait.

Other fibers use the machine while `run` is in its wait or was not called, and when a guard or an
action hands the processor to them.
-/

namespace Zth

namespace Fsm

/-- The functions to run a machine: until a moment, or as long as it is not stopped and perhaps
not blocked. -/
inductive RunMode where
  | untilTime
  | forever (returnWhenBlocked : Bool)
deriving DecidableEq, Repr

/-- What the clock says after a step: whether the moment of `run` has passed, and that until
which it is about to wait. -/
structure Clock where
  passed : Bool
  deadline : Bool
deriving DecidableEq, Repr

/-- Where the fiber of `run` is: outside, in a step, or in the wait. -/
inductive Running.Code (D : Type*) where
  | outside
  | stepping (mode : RunMode) (c : StepCode D)
  | waiting (mode : RunMode)

/-- A machine and its trigger. -/
structure Running (F D : Type*) where
  machine : BasicFsm D
  trigger : Monitor.State F Unit Signal.Code Signal.Data
  code : Running.Code D

namespace Running

variable {F W D : Type*}

/-- A new machine. -/
def init (F : Type*) (d : D) : Running F D := ⟨.init d, .idle .init, .outside⟩

/-- What may happen: something is done to a machine that does not run, `run` is called, goes on,
or returns from its wait, which may be ended by its deadline, and another fiber registers an input
symbol or triggers the machine. -/
inductive Label (F W D : Type*) where
  | op (op : Op W D)
  | run (mode : RunMode)
  | next (w : W) (clock : Clock)
  | resume
  | expire
  | input (f : F) (i : Symbol)
  | trigger (f : F)

/-- A function of the user is executed for this entry. -/
def callsUser (table : CompiledTable W D) (i : ℕ) : Bool :=
  match table[i]? with
  | none => false
  | some e => !e.trigger.isInput

/-- Other fibers may be executed. -/
def Code.interrupts (table : CompiledTable W D) : Code D → Bool
  | .outside | .waiting _ | .stepping _ (.acting _ _) => true
  | .stepping _ (.polling i _) | .stepping _ (.polled i _ _) => callsUser table i
  | .stepping _ (.entering _) | .stepping _ (.returned _) => false

section Step

variable [DecidableEq F]

/-- `trigger`: the signal is not queued. -/
def triggers (f : F) (s : Running F D) : Option (Running F D) :=
  (Signal.step s.trigger (.call f (.signal false false))).map fun trigger =>
    { s with trigger := trigger }

/-- The next step of the loop. -/
def again (mode : RunMode) (s : Running F D) : Running F D :=
  { s with code := .stepping mode s.machine.start }

/-- The wait of the loop. -/
def wait (me : F) (mode : RunMode) (clock : Clock) (s : Running F D) : Option (Running F D) :=
  (Signal.step s.trigger (.call me (.waitUntil clock.deadline))).map fun trigger =>
    { s with trigger := trigger, code := .waiting mode }

/-- The rest of the loop, after a step that returned `p`. -/
def afterStep (me : F) (mode : RunMode) (clock : Clock) (p : TimeInterval) (s : Running F D) :
    Option (Running F D) :=
  if s.machine.flag .stop then some { s with code := .outside }
  else
    match mode with
    | .untilTime =>
        if clock.passed then some { s with code := .outside }
        else if p.hasPassed then some (s.again mode)
        else s.wait me mode clock
    | .forever returnWhenBlocked =>
        if p.hasPassed then some (s.again mode)
        else if returnWhenBlocked then some { s with code := .outside }
        else s.wait me mode clock

/-- The calls that trigger the machine. -/
def callsTrigger : Call D → Bool
  | .input i => i.valid
  | .reset => true
  | _ => false

/-- An action triggers the machine that it belongs to. -/
def triggersSelf (me : F) (c : StepCode D) (s : Running F D) : Option (Running F D) :=
  match c with
  | .acting _ (c :: _) => if callsTrigger c then s.triggers me else some s
  | _ => some s

/-- The fiber of `run` goes on with its step. When that returns, it goes on up to the next one,
or up to its wait. -/
def next (table : CompiledTable W D) (me : F) (w : W) (clock : Clock) (s : Running F D) :
    Option (Running F D) :=
  match s.code with
  | .stepping mode c =>
      (BasicFsm.advance table (s.machine, c) w).bind fun x =>
        (s.triggersSelf me c).bind fun s =>
          match x.2 with
          | .returned p => { s with machine := x.1 }.afterStep me mode clock p
          | c => some { s with machine := x.1, code := .stepping mode c }
  | .outside | .waiting _ => none

/-- The wait returns, and the loop goes on. -/
def resume (me : F) (s : Running F D) : Option (Running F D) :=
  match s.code with
  | .waiting mode =>
      if (s.trigger.code me).isNone then some (s.again mode)
      else (Signal.step s.trigger (.resume me)).map fun trigger =>
        { s with trigger := trigger }.again mode
  | .outside | .stepping _ _ => none

/-- Another fiber registers an input symbol. -/
def input (f : F) (i : Symbol) (s : Running F D) : Option (Running F D) :=
  if i.valid then { s with machine := s.machine.input i }.triggers f else some s

/-- One step. -/
def step (table : CompiledTable W D) (me : F) (s : Running F D) :
    Label F W D → Option (Running F D)
  | .op op =>
      match s.code with
      | .outside => (op.run table s.machine).map fun m => { s with machine := m }
      | _ => none
  | .run mode =>
      match s.code with
      | .outside => some ({ s with machine := s.machine.clearFlag .stop }.again mode)
      | _ => none
  | .next w clock => s.next table me w clock
  | .resume => s.resume me
  | .expire =>
      (Signal.step s.trigger (.expire () me)).map fun trigger => { s with trigger := trigger }
  | .input f i => if f ≠ me ∧ s.code.interrupts table then s.input f i else none
  | .trigger f => if f ≠ me ∧ s.code.interrupts table then s.triggers f else none

end Step

/-- `run` is blocked in its wait. -/
def Blocked (me : F) (s : Running F D) : Prop :=
  (∃ mode, s.code = .waiting mode) ∧ me ∈ s.trigger.queue ()

/-- An input symbol is not registered by another fiber in a step that has polled a transition of
the current state already that waits for it. -/
def InTime (table : CompiledTable W D) (s : Running F D) : Label F W D → Prop
  | .input _ i =>
      match s.code with
      | .stepping _ (.polling k _) | .stepping _ (.polled k _ _) =>
          ∀ j e, s.machine.state ≤ j → j < k → table[j]? = some e → e.trigger ≠ .input i
      | _ => True
  | _ => True

end Running

end Fsm

end Zth
