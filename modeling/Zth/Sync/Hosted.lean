import Zth.Library.Script
import Zth.Sync.Base
import Zth.Worker.Service

/-!
# Synchronizers on a worker

A synchronizer is a script that runs on a worker: it blocks the current fiber in one of its
queues, and unblocks fibers of them, by the operations of the worker. All other actions of the
worker may happen in between: fibers are created, suspended and resumed, they sleep and end, other
synchronizers are used, and the waiter expires what is due.

Every run is a run of the monitor that the script describes. So whatever is known of the monitor,
for every order in which fibers go on, holds of the synchronizer when the worker does the
scheduling; and a fiber that the monitor says is woken, is runnable or was suspended.
-/

namespace Zth

open Monitor

/-- A worker and a synchronizer, with queues `Q`. The other synchronizers have the queues `R`.
`code` is what the fibers that are in a call of the synchronizer go on with. -/
structure Hosted (F Q R W O D : Type*) where
  worker : Worker F (Q ⊕ R) W
  data : D
  code : F → Option O

namespace Hosted

variable {F Q R W C O D : Type*}

/-- What may happen next: the current fiber calls the synchronizer, or goes on with what it left
behind, or something else happens. The times are used if the fiber blocks, and the waitable if it
blocks with a timeout. `slice` tells that the time slice of the fiber is over when it yields. -/
inductive Act (F Q R W C : Type*) where
  | other (a : Action F (Q ⊕ R) W)
  | call (c : C) (w : W) (timeout now : ℕ) (slice : Bool)
  | goOn (w : W) (timeout now : ℕ) (slice : Bool)

/-- The fiber left code behind when it blocked. -/
def left [DecidableEq F] (f : F) (o : O) (t : Worker F (Q ⊕ R) W) (s : Hosted F Q R W O D) :
    Hosted F Q R W O D :=
  { s with worker := t, code := Function.update s.code f (some o) }

/-- The current fiber is in the middle of a call. -/
def inCall (s : Hosted F Q R W O D) : Bool :=
  match s.worker.currentFiber with
  | none => false
  | some f => (s.code f).isSome

/-- Something else may happen: it uses no queue of the synchronizer, and the current fiber is not in
the middle of a call, unless it comes back from a block with timeout. -/
def permits (s : Hosted F Q R W O D) (a : Action F (Q ⊕ R) W) : Bool :=
  match a with
  | .leaveAlarm => true
  | a => !s.inCall &&
      match a.queue with
      | some (.inl _) => false
      | _ => true

section Code

variable [DecidableEq F] [DecidableEq Q] [DecidableEq R] [LinearOrder W]

/-- A piece of code of the fiber `f` runs on the worker. Within its time slice, a fiber that yields
goes on. -/
def runPiece (created : Contexts F) (f : F) (now : ℕ) (slice : Bool) :
    Piece F Q O D → Hosted F Q R W O D → Except Fault (Hosted F Q R W O D × Outcome Q O)
  | .done, s => .ok (s, .done)
  | .block q o, s => .ok (s, .block q o)
  | .yield o, s =>
      if slice then
        (Worker.schedule created none now s.worker).map fun x => (s.left f o x.1, .done)
      else .ok (s.left f o s.worker, .done)
  | .read k, s => runPiece created f now slice (k s.data) s
  | .write d k, s => runPiece created f now slice k { s with data := d }
  | .wakeFirst q k, s =>
      (Worker.unblockFirst (.inl q) false s.worker).bind fun t =>
        runPiece created f now slice (k (s.worker.queue (.inl q)).head?) { s with worker := t }
  | .wakeAll q k, s =>
      (Worker.unblockAll (.inl q) false (s.worker.queue (.inl q)).length s.worker).bind fun t =>
        runPiece created f now slice (k !(s.worker.queue (.inl q)).isEmpty) { s with worker := t }

/-- The end of a piece of code. The fiber blocks with a timeout if its code can expire. -/
def conclude (S : Script F Q C O D) (created : Contexts F) (waiter f : F) (w : W)
    (timeout now : ℕ) :
    Hosted F Q R W O D × Outcome Q O → Option (Except Fault (Hosted F Q R W O D))
  | (s, .done) => some (.ok s)
  | (s, .block q o) =>
      match S.expired o with
      | none => some ((Worker.block created (.inl q) f now s.worker).map fun x => s.left f o x.1)
      | some _ =>
          if timeout ≤ now then none
          else if Worker.isFree w s.worker then
            some ((Worker.blockUntil created waiter (.inl q) w timeout f now s.worker).map
              fun x => s.left f o x.1)
          else none

/-- The fiber `f` runs the code `o`. -/
def runCode (S : Script F Q C O D) (created : Contexts F) (waiter f : F) (o : O) (w : W)
    (timeout now : ℕ) (slice : Bool) (s : Hosted F Q R W O D) :
    Option (Except Fault (Hosted F Q R W O D)) :=
  match runPiece created f now slice (S.piece f o) s with
  | .error e => some (.error e)
  | .ok x => conclude S created waiter f w timeout now x

/-- When the alarm of a block rang, the fiber goes on with what it does when its time is over. -/
def codeAfter (S : Script F Q C O D) (s : Hosted F Q R W O D) : Action F (Q ⊕ R) W → F → Option O
  | .leaveAlarm =>
      match s.worker.currentFiber with
      | none => s.code
      | some f =>
          if s.worker.rung f then Function.update s.code f ((s.code f).bind S.expired)
          else s.code
  | _ => s.code

/-- What an action does, if it can happen now. -/
def perform (S : Script F Q C O D) (created : Contexts F) (waiter : F)
    (s : Hosted F Q R W O D) : Act F Q R W C → Option (Except Fault (Hosted F Q R W O D))
  | .other a =>
      if s.permits a then
        (Worker.perform created waiter s.worker a).map fun x =>
          x.map fun t => { s with worker := t, code := codeAfter S s a }
      else none
  | .call c w timeout now slice =>
      match s.worker.userFiber with
      | none => none
      | some f =>
          match s.code f with
          | none => runCode S created waiter f (S.enter c) w timeout now slice s
          | some _ => none
  | .goOn w timeout now slice =>
      match s.worker.userFiber with
      | none => none
      | some f =>
          match s.code f with
          | none => none
          | some o =>
              runCode S created waiter f o w timeout now slice
                { s with code := Function.update s.code f none }

/-- One step of a run. A fault ends the run. -/
def step (S : Script F Q C O D) (created : Contexts F) (waiter : F)
    (s : Hosted F Q R W O D) (a : Act F Q R W C) : Option (Hosted F Q R W O D) :=
  match s.worker.fault with
  | some _ => none
  | none =>
      (perform S created waiter s a).map fun
        | .ok t => t
        | .error e => { s with worker := { s.worker with fault := some e } }

/-- A new worker, with a synchronizer that nobody uses. -/
def init (waiter : F) (waitable : W → Waitable F (Q ⊕ R)) (d : D) : Hosted F Q R W O D :=
  ⟨Worker.init waiter waitable, d, fun _ => none⟩

/-- The fiber `f` blocks, if it runs the code `o`. -/
def blocks (S : Script F Q C O D) (created : Contexts F) (f : F) (o : O) (now : ℕ)
    (slice : Bool) (s : Hosted F Q R W O D) : Bool :=
  match runPiece created f now slice (S.piece f o) s with
  | .ok (_, .block _ _) => true
  | _ => false

/-- As for the worker on its own: a fiber does not block while context switching is disabled. -/
def Allowed (S : Script F Q C O D) (created : Contexts F) (s : Hosted F Q R W O D) :
    Act F Q R W C → Prop
  | .other a => Worker.Allowed s.worker a
  | .call c _ _ now slice => ∀ f, s.worker.currentFiber = some f →
      blocks S created f (S.enter c) now slice s = true → s.worker.disableContextSwitch = 0
  | .goOn _ _ now slice => ∀ f o, s.worker.currentFiber = some f → s.code f = some o →
      blocks S created f o now slice { s with code := Function.update s.code f none } = true →
      s.worker.disableContextSwitch = 0

end Code

/-- The calls meet a condition on the data they find. -/
def Act.Meets (ok : D → C → Prop) (s : Hosted F Q R W O D) : Act F Q R W C → Prop
  | .call c _ _ _ _ => ok s.data c
  | .other _ | .goOn _ _ _ _ => True

end Hosted

end Zth
