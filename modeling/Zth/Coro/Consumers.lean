import Zth.Coro.Range

/-!
# A generator that is used by several fibers

Any fiber may execute the generator, by `run` or `generate`, and any fiber may take values, by
`value` or by `co_await` in a coroutine. A `co_await` that finds the generator suspended
executes it in its own fiber. Fibers switch where they wait for the mailbox, and whenever the
body is about to do its next step.
-/

namespace Zth.Coro

variable {σ F H α E : Type*}

/-- What a fiber does: nothing with the generator, it waits in `take`, it executes the
generator while its own coroutine is suspended at `co_await`, or it executes the generator in
`run` or `generate`. -/
inductive Activity (H : Type*) where
  | idle
  | taking
  | awaiting (h : H)
  | running
  | generating
deriving DecidableEq, Repr

/-- How a call ends. -/
inductive Outcome (α E : Type*) where
  | value (v : α)
  | thrown (e : E)
  | alreadyCompleted
  | invalidState
  | returned
deriving DecidableEq, Repr

/-- The generator with all fibers, how their calls have ended up to now, and the values that
the body has yielded. -/
structure Consumers (σ F H α E : Type*) where
  promise : GeneratorPromise F H α E
  frame : Option (Body σ α E)
  state : σ
  fibers : F → Activity H
  log : List (F × Outcome α E)
  yielded : List α

namespace Consumers

/-- A new generator, that no fiber uses yet. -/
def init (F H : Type*) (b : Body σ α E) (s : σ) : Consumers σ F H α E :=
  ⟨.init F H α E, some b, s, fun _ => .idle, [], []⟩

variable [DecidableEq F] [DecidableEq H]

/-- The fiber does something else. -/
def setFiber (f : F) (a : Activity H) (w : Consumers σ F H α E) : Consumers σ F H α E :=
  { w with fibers := Function.update w.fibers f a }

/-- The call of the fiber ends. -/
def finish (f : F) (o : Outcome α E) (w : Consumers σ F H α E) : Consumers σ F H α E :=
  { w with fibers := Function.update w.fibers f .idle, log := w.log ++ [(f, o)] }

/-- Take what is in the mailbox, which is rethrown if it is an exception. -/
def take (f : F) (w : Consumers σ F H α E) : Option (Consumers σ F H α E) :=
  match w.promise.mValue with
  | none => none
  | some (.ok v) => some (finish f (.value v) { w with promise := w.promise.take })
  | some (.error e) => some (finish f (.thrown e) { w with promise := w.promise.take })

/-- The loop in which a fiber waits for a value, until it blocks. -/
def wait (f : F) (w : Consumers σ F H α E) : Option (Consumers σ F H α E) :=
  if w.promise.validFor (some (.fiber f)) then w.take f
  else if w.promise.abandoned then some (w.finish f .alreadyCompleted)
  else
    some (setFiber f .taking
      { w with promise :=
        { w.promise with takeQueue := w.promise.takeQueue ++ [.fiber f] } })

/-- `value`, until it blocks. -/
def value (f : F) (w : Consumers σ F H α E) : Option (Consumers σ F H α E) :=
  if w.promise.mCompleted then some (w.finish f .alreadyCompleted) else w.wait f

/-- `await_resume`, of a coroutine that had suspended itself or not. -/
def awaitResume (f : F) (waiter : Option H) (w : Consumers σ F H α E) :
    Option (Consumers σ F H α E) :=
  if w.promise.validFor (waiter.map .coro) then w.take f
  else if w.promise.abandoned then some (w.finish f .alreadyCompleted)
  else w.wait f

/-- Resume the generator in the fiber. -/
def resume (f : F) (a : Activity H) (w : Consumers σ F H α E) : Option (Consumers σ F H α E) :=
  if w.frame.isNone then none
  else (w.promise.setRunning true).map fun p => setFiber f a { w with promise := p }

/-- `co_await` of the generator by a coroutine, until its fiber blocks or the generator is
resumed. -/
def await (f : F) (h : H) (w : Consumers σ F H α E) : Option (Consumers σ F H α E) :=
  if w.promise.abandoned || w.promise.validFor none || w.promise.running then
    w.awaitResume f none
  else
    resume f (.awaiting h)
      { w with promise := { w.promise with takeQueue := w.promise.takeQueue ++ [.coro h] } }

/-- The end of `run`, when the generator has completed. An exception in the mailbox is
rethrown. -/
def runReturn (f : F) (w : Consumers σ F H α E) : Consumers σ F H α E :=
  match w.promise.mValue with
  | some (.error e) => w.finish f (.thrown e)
  | _ => w.finish f .returned

/-- The loop of `run`, until the generator is resumed. -/
def runLoop (f : F) (w : Consumers σ F H α E) : Option (Consumers σ F H α E) :=
  if w.promise.mCompleted then some (w.runReturn f) else w.resume f .running

/-- `run`, until the generator is resumed. -/
def run (f : F) (w : Consumers σ F H α E) : Option (Consumers σ F H α E) :=
  if w.promise.running then some (w.finish f .invalidState) else w.runLoop f

/-- The loop of `generate`, until the generator is resumed. -/
def generateLoop (f : F) (w : Consumers σ F H α E) : Option (Consumers σ F H α E) :=
  if w.promise.valid || w.promise.mCompleted then some (w.finish f .returned)
  else
    (w.promise.setContinuation .noop).bind fun p => resume f .generating { w with promise := p }

/-- `generate`, until the generator is resumed. -/
def generate (f : F) (w : Consumers σ F H α E) : Option (Consumers σ F H α E) :=
  if w.promise.mCompleted then some (w.finish f .alreadyCompleted)
  else if w.promise.valid then some (w.finish f .returned)
  else if w.promise.running then some (w.finish f .returned)
  else w.generateLoop f

/-- The generator has suspended itself in the fiber, and control goes to the given handle. -/
def transfer (f : F) (cont : Handle H) (w : Consumers σ F H α E) :
    Option (Consumers σ F H α E) :=
  match cont, w.fibers f with
  | .noop, .running => w.runLoop f
  | .noop, .generating => w.generateLoop f
  | .noop, .awaiting h => w.awaitResume f (some h)
  | .coro h, .awaiting h' => if h = h' then w.awaitResume f (some h) else none
  | _, _ => none

/-- The generator goes on in the fiber, or control goes to the given handle. -/
def proceed (f : F) (cont : Option (Handle H)) (w : Consumers σ F H α E) :
    Option (Consumers σ F H α E) :=
  match cont with
  | none => some w
  | some cont => w.transfer f cont

/-- The next step of the body, in the fiber that executes it. A full mailbox blocks it. -/
def exec (f : F) (w : Consumers σ F H α E) : Option (Consumers σ F H α E) :=
  match w.frame with
  | none => none
  | some .done =>
      w.promise.returnVoid.finalSuspend.bind fun (p, cont) =>
        transfer f cont { w with promise := p, frame := none }
  | some (.throw e) =>
      (w.promise.unhandledException e).finalSuspend.bind fun (p, cont) =>
        transfer f cont { w with promise := p, frame := none }
  | some (.yield v rest) =>
      if w.promise.valid then
        some { w with promise := { w.promise with putQueue := w.promise.putQueue ++ [f] } }
      else
        (w.promise.yieldValue v).bind fun (p, cont) =>
          proceed f cont { w with promise := p, frame := some rest, yielded := w.yielded ++ [v] }
  | some (.compute g rest) =>
      some { w with frame := some (rest (g w.state)), state := g w.state }

/-- What a fiber does next: it calls the generator, it goes on with the body that it executes,
it goes on after it was woken, or something else changes the state of the program. -/
inductive Label (σ F H : Type*) where
  | value (f : F)
  | await (f : F) (h : H)
  | run (f : F)
  | generate (f : F)
  | exec (f : F)
  | go (f : F)
  | change (g : σ → σ)

/-- The fiber executes the generator. -/
def Executes (f : F) (w : Consumers σ F H α E) : Prop :=
  w.fibers f ≠ .idle ∧ w.fibers f ≠ .taking

instance (f : F) (w : Consumers σ F H α E) : Decidable (w.Executes f) :=
  inferInstanceAs (Decidable (_ ∧ _))

/-- One step of a fiber. -/
def step (w : Consumers σ F H α E) : Label σ F H → Option (Consumers σ F H α E)
  | .value f => if w.fibers f = .idle then w.value f else none
  | .await f h =>
      if w.fibers f = .idle ∧ .coro h ∉ w.promise.takeQueue then w.await f h else none
  | .run f => if w.fibers f = .idle then w.run f else none
  | .generate f => if w.fibers f = .idle then w.generate f else none
  | .exec f => if w.Executes f ∧ f ∉ w.promise.putQueue then w.exec f else none
  | .go f =>
      if w.fibers f = .taking ∧ .fiber f ∉ w.promise.takeQueue then w.wait f else none
  | .change g => some { w with state := g w.state }

/-- The values that were obtained up to now. -/
def obtained (w : Consumers σ F H α E) : List α :=
  w.log.filterMap fun e => match e.2 with
    | .value v => some v
    | _ => none

/-- The value in the mailbox. -/
def pending (w : Consumers σ F H α E) : List α :=
  match w.promise.mValue with
  | some (.ok v) => [v]
  | _ => []

/-- The value in the mailbox is for a fiber that was woken to take it. -/
def Coming (w : Consumers σ F H α E) : Prop :=
  ∃ f, w.fibers f = .taking ∧ w.promise.mAssigned = some (.fiber f)

/-- When a consumer was told that the generator has completed, and none is about to take a value,
all values of the body were obtained. -/
def NoneLost (w : Consumers σ F H α E) : Prop :=
  (∃ f, (f, .alreadyCompleted) ∈ w.log) → (∀ f, w.fibers f ≠ .taking) →
    w.frame = none ∧ w.obtained = w.yielded

/-- While the last value is in the mailbox after the body has returned, and not for a fiber that
was woken to take it, nobody asks for it in a way that does not look in the mailbox. -/
def AsksInTime (w : Consumers σ F H α E) : Label σ F H → Prop
  | .value _ => w.promise.mCompleted → w.promise.valid → w.Coming
  | .generate _ => w.promise.mCompleted → w.promise.valid → w.Coming
  | .await _ _ =>
      w.promise.mCompleted → w.promise.valid → w.promise.mAssigned = none ∨ w.Coming
  | _ => True

end Consumers

end Zth.Coro
