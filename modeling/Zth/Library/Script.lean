import Zth.Library.Monitor

/-!
# Scripts of monitors

The code of a `Monitor.Program` is any function on the state of the monitor. A script is code
that is written down: it reads and writes the data, wakes processes, and ends. A script can be
run on a monitor, and also on something else that has queues of processes, such as a scheduler,
and the two runs can be compared piece by piece.
-/

namespace Monitor

/-- A piece of code, up to where the process is done, blocks, or gives way to the others. -/
inductive Piece (F Q O D : Type*) where
  | done
  | block (q : Q) (o : O)
  | yield (o : O)
  | read (k : D → Piece F Q O D)
  | write (d : D) (k : Piece F Q O D)
  | wakeFirst (q : Q) (k : Option F → Piece F Q O D)
  | wakeAll (q : Q) (k : Bool → Piece F Q O D)

variable {F Q O D : Type*} [DecidableEq F] [DecidableEq Q]

/-- What a piece of code of the process `f` does to a monitor. -/
def Piece.exec (f : F) : Piece F Q O D → State F Q O D → State F Q O D × Outcome Q O
  | .done, s => (s, .done)
  | .block q o, s => (s, .block q o)
  | .yield o, s => (s.yield f o, .done)
  | .read k, s => (k s.data).exec f s
  | .write d k, s => k.exec f (s.setData d)
  | .wakeFirst q k, s => (k (s.wakeFirst q).2).exec f (s.wakeFirst q).1
  | .wakeAll q k, s => (k (s.wakeAll q).2).exec f (s.wakeAll q).1

/-- The code of a monitor, written down. `enter` is the code that a call starts with. -/
structure Script (F Q C O D : Type*) where
  enter : C → O
  piece : F → O → Piece F Q O D
  expired : O → Option O

variable {C : Type*}

/-- A script as a monitor. -/
def Script.program (S : Script F Q C O D) : Program F Q O D where
  exec f o s := (S.piece f o).exec f s
  expired := S.expired

/-- One step of the monitor. -/
def Script.step (S : Script F Q C O D) :
    State F Q O D → Label F Q C → Option (State F Q O D) :=
  S.program.stepBy S.enter

/-- A monitor does what the script says. -/
theorem Script.program_eq {S : Script F Q C O D} {P : Program F Q O D}
    (hexec : ∀ f o s, (S.piece f o).exec f s = P.exec f o s)
    (hexpired : S.expired = P.expired) : S.program = P := by
  obtain ⟨exec, expired⟩ := P
  rw [Script.program, Program.mk.injEq]
  exact ⟨funext fun f => funext fun o => funext fun s => hexec f o s, hexpired⟩

/-- Where a call starts with itself, a step of the script is a step of the monitor. -/
theorem Script.step_eq {S : Script F Q O O D} {P : Program F Q O D} (hprogram : S.program = P)
    (henter : S.enter = id) (s : State F Q O D) (l : Label F Q O) : S.step s l = P.step s l := by
  rw [Script.step, hprogram, henter]
  cases l <;> rfl

/-- The calls meet a condition on the data they find. -/
def Label.Meets (ok : D → C → Prop) (s : State F Q O D) : Label F Q C → Prop
  | .call _ c => ok s.data c
  | .resume _ | .expire _ _ => True

section Queue

variable {s : State F Q O D}

/-- The process that is woken first is the first of the queue. -/
theorem State.wakeFirst_snd (s : State F Q O D) (q : Q) :
    (s.wakeFirst q).2 = (s.queue q).head? := by
  unfold State.wakeFirst
  split <;> simp_all

/-- The first process leaves its queue, and no other queue changes. -/
theorem State.wakeFirst_queue (s : State F Q O D) (q : Q) :
    (s.wakeFirst q).1.queue = Function.update s.queue q (s.queue q).tail := by
  rcases s.wakeFirst_spec q with ⟨hnil, heq⟩ | ⟨f, fs, hq, -, hqueue, -⟩
  · rw [heq, hnil, List.tail_nil, ← hnil, Function.update_eq_self]
  · rw [hqueue, hq, List.tail_cons]

omit [DecidableEq F] in
@[simp] theorem State.wakeAll_queue (s : State F Q O D) (q : Q) :
    (s.wakeAll q).1.queue = Function.update s.queue q [] := rfl

end Queue

end Monitor

namespace Transition

/-- Two guarded runs, one after the other. -/
theorem Guarded.then {σ ι : Type*} {step : σ → ι → Option σ} {ok : σ → ι → Prop} {s t : σ}
    {as bs : List ι} (has : Guarded step ok s as) (hr : run step s as = some t)
    (hbs : Guarded step ok t bs) : Guarded step ok s (as ++ bs) := by
  induction as generalizing s with
  | nil =>
      rw [run_nil] at hr
      exact Option.some.inj hr ▸ hbs
  | cons a as ih =>
      obtain ⟨t', ht', hr⟩ := run_cons_eq_some_iff.1 hr
      exact Guarded.cons has.1 ht' (ih (has.2 t' ht') hr)

/-- A single guarded step. -/
theorem Guarded.single {σ ι : Type*} {step : σ → ι → Option σ} {p : σ → ι → Prop} {s t : σ}
    {a : ι} (hp : p s a) (ht : step s a = some t) :
    Guarded step p s [a] ∧ run step s [a] = some t :=
  ⟨.cons hp ht trivial, run_cons_eq_some_iff.2 ⟨t, ht, rfl⟩⟩

end Transition
