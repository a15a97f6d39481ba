import Zth.Coro.Generator
import Zth.Library.Run

/-!
# Iteration over a generator

A range-for loop resumes the generator in the fiber of the loop, by `generate`, for every
value. Before it does so, it sets a continuation that leads back to the loop, such that the
generator suspends itself at its next `co_yield`. The loop visits what the body yields, as if
the body called the loop.
-/

namespace Zth.Coro

/-- Why a call does not return: an assertion fails, the fiber blocks, another coroutine is
resumed instead, an exception is thrown, or the fuel of the model is used up. -/
inductive Stop (E : Type*) where
  | assertion
  | block
  | transfer
  | alreadyCompleted
  | thrown (e : E)
  | fuel
deriving DecidableEq, Repr

/-- A generator: its promise, and the rest of its body from where it is suspended, unless it is
at its end. -/
structure Generator (σ F H α E : Type*) where
  promise : GeneratorPromise F H α E
  frame : Option (Body σ α E)

variable {σ F H α E : Type*}

namespace Body

/-- The values that the body yields when every one of them is visited at once, and the state
of the program in the end. -/
def visits (visit : α → σ → σ) : Body σ α E → σ → List α × σ
  | .done, s => ([], s)
  | .throw _, s => ([], s)
  | .yield v rest, s =>
      let (vs, s') := rest.visits visit (visit v s)
      (v :: vs, s')
  | .compute f rest, s => (rest (f s)).visits visit (f s)

end Body

/-- An assertion that fails if there is nothing. -/
def Stop.check {β : Type*} : Option β → Except (Stop E) β
  | none => .error .assertion
  | some b => .ok b

/-- Execute the body in this fiber, until it suspends itself or ends. -/
def Body.execute [DecidableEq H] : Body σ α E → σ → GeneratorPromise F H α E →
    Except (Stop E) (Generator σ F H α E × σ × Handle H)
  | .done, s, p =>
      (Stop.check p.returnVoid.finalSuspend).map fun (p, h) => (⟨p, none⟩, s, h)
  | .throw e, s, p =>
      (Stop.check (p.unhandledException e).finalSuspend).map fun (p, h) => (⟨p, none⟩, s, h)
  | .yield v rest, s, p =>
      if p.valid then .error .block
      else
        match p.yieldValue v with
        | none => .error .assertion
        | some (p, none) => rest.execute s p
        | some (p, some h) => .ok (⟨p, some rest⟩, s, h)
  | .compute f rest, s, p => (rest (f s)).execute (f s) p

namespace Generator

/-- A generator that was not started yet. -/
def init (F H : Type*) (b : Body σ α E) : Generator σ F H α E := ⟨.init F H α E, some b⟩

/-- A generator that is suspended, with or without a value in its mailbox. -/
def suspended (v : Option α) (b : Body σ α E) : Generator σ F H α E :=
  ⟨⟨v.map .ok, none, [], [], false, none, false, false⟩, some b⟩

/-- A generator that has completed. -/
def ended (σ F H α E : Type*) : Generator σ F H α E :=
  ⟨⟨none, none, [], [], true, none, false, true⟩, none⟩

/-- The promise has a value, and the generator has not completed. -/
def valid (g : Generator σ F H α E) : Bool := g.promise.valid && !g.promise.mCompleted

variable [DecidableEq H]

/-- Resume the generator, until control gets back to this fiber's caller of it. -/
def resume (g : Generator σ F H α E) (s : σ) : Except (Stop E) (Generator σ F H α E × σ) :=
  match g.frame, g.promise.setRunning true with
  | some b, some p =>
      match b.execute s p with
      | .error e => .error e
      | .ok (g, s, .noop) => .ok (g, s)
      | .ok (_, _, .coro _) => .error .transfer
  | _, _ => .error .assertion

/-- The loop of `generate`. The generator always returns at the next yield. -/
def generateLoop : ℕ → Generator σ F H α E → σ → Except (Stop E) (Generator σ F H α E × σ)
  | 0, _, _ => .error .fuel
  | fuel + 1, g, s =>
      if g.promise.valid || g.promise.mCompleted then .ok (g, s)
      else
        match g.promise.setContinuation .noop with
        | none => .error .assertion
        | some p => (resume { g with promise := p } s).bind fun (g, s) => generateLoop fuel g s

/-- Make sure that there is a value, if the generator is not executed by another fiber. -/
def generate (fuel : ℕ) (g : Generator σ F H α E) (s : σ) :
    Except (Stop E) (Generator σ F H α E × σ) :=
  if g.promise.mCompleted then .error .alreadyCompleted
  else if g.promise.valid then .ok (g, s)
  else if g.promise.running then .ok (g, s)
  else if g.frame.isNone then .error .assertion
  else g.generateLoop fuel s

theorem generate_done (fuel : ℕ) (s : σ) :
    (suspended none .done : Generator σ F H α E).generate (fuel + 2) s =
      .ok (ended σ F H α E, s) := rfl

theorem generate_throw (e : E) (fuel : ℕ) (s : σ) :
    (suspended none (.throw e) : Generator σ F H α E).generate (fuel + 2) s =
      .ok (ended σ F H α E, s) := rfl

/-- The generator suspends itself, and hands the continuation back. -/
theorem generate_yield (v : α) (rest : Body σ α E) (fuel : ℕ) (s : σ) :
    (suspended none (.yield v rest) : Generator σ F H α E).generate (fuel + 2) s =
      .ok (suspended (some v) rest, s) := rfl

/-- What the body computes is done in the course of `generate`. -/
theorem generate_compute (f : σ → σ) (rest : σ → Body σ α E) (fuel : ℕ) (s : σ) :
    (suspended none (.compute f rest) : Generator σ F H α E).generate fuel s =
      (suspended none (rest (f s))).generate fuel (f s) := by
  cases fuel with
  | zero => rfl
  | succ fuel => rfl

variable [DecidableEq F]

/-- Take the value, or wait for it. -/
def value (me : F) (g : Generator σ F H α E) : Except (Stop E) (α × Generator σ F H α E) :=
  if g.promise.mCompleted then .error .alreadyCompleted
  else if g.promise.validFor (some (.fiber me)) then
    match g.promise.mValue with
    | some (.ok v) => .ok (v, { g with promise := g.promise.take })
    | some (.error e) => .error (.thrown e)
    | none => .error .block
  else if g.promise.abandoned then .error .alreadyCompleted
  else .error .block

/-- The iterator at the start of the range. -/
def begin (fuel : ℕ) (g : Generator σ F H α E) (s : σ) :
    Except (Stop E) (Generator σ F H α E × σ) :=
  if !g.promise.mCompleted && !g.valid then g.generate fuel s else .ok (g, s)

/-- The value at the iterator. -/
def deref (me : F) (g : Generator σ F H α E) : Except (Stop E) (α × Generator σ F H α E) :=
  if g.valid then g.value me else .error .assertion

/-- The loop from where the iterator is compared with the end. `visit` is the body of the loop,
and `visited` are the values up to now. -/
def rangeLoop (me : F) (visit : α → σ → σ) (fuel : ℕ) :
    ℕ → Generator σ F H α E → σ → List α →
    Except (Stop E) (Generator σ F H α E × σ × List α)
  | 0, _, _, _ => .error .fuel
  | n + 1, g, s, visited =>
      if g.promise.mCompleted then .ok (g, s, visited)
      else
        (g.deref me).bind fun (v, g) =>
          (g.generate fuel (visit v s)).bind fun (g, s) =>
            rangeLoop me visit fuel n g s (visited ++ [v])

/-- A range-for loop over the generator. -/
def rangeFor (me : F) (visit : α → σ → σ) (fuel : ℕ) (g : Generator σ F H α E) (s : σ) :
    Except (Stop E) (Generator σ F H α E × σ × List α) :=
  (g.begin fuel s).bind fun (g, s) => rangeLoop me visit fuel fuel g s []

/-- What the fiber does before the loop: it generates a value, it takes one, or it does
something else. -/
inductive Call (σ : Type*) where
  | generate (fuel : ℕ)
  | value
  | change (f : σ → σ)

/-- The generator, the state of the program, and the values taken up to now, after a call. One
that throws that the generator has completed has no effect. -/
def call (me : F) (w : Generator σ F H α E × σ × List α) :
    Call σ → Option (Generator σ F H α E × σ × List α)
  | .generate fuel =>
      match w.1.generate fuel w.2.1 with
      | .ok (g, s) => some (g, s, w.2.2)
      | .error .alreadyCompleted => some w
      | .error _ => none
  | .value =>
      match w.1.value me with
      | .ok (v, g) => some (g, w.2.1, w.2.2 ++ [v])
      | .error .alreadyCompleted => some w
      | .error _ => none
  | .change f => some (w.1, f w.2.1, w.2.2)

/-- What is still to come: the value in the mailbox, and the rest of the body. -/
def remaining (g : Generator σ F H α E) : Body σ α E :=
  match g.promise.mValue, g.frame with
  | some (.ok v), some b => .yield v b
  | _, some b => b
  | _, none => .done

/-- From where `++` of the iterator starts, the loop visits what the body yields. -/
theorem rangeLoop_generate (me : F) (visit : α → σ → σ) (b : Body σ α E) (s : σ)
    (visited : List α) :
    ∃ n, ∀ m, n ≤ m → ∀ fuel,
      ((suspended none b : Generator σ F H α E).generate (fuel + 2) s).bind
          (fun (g, s) => rangeLoop me visit (fuel + 2) m g s visited) =
        .ok (ended σ F H α E, (b.visits visit s).2, visited ++ (b.visits visit s).1) := by
  induction b generalizing s visited with
  | done =>
      refine ⟨1, fun m hm fuel => ?_⟩
      obtain ⟨m, rfl⟩ := Nat.exists_eq_add_of_le' hm
      rw [generate_done, Body.visits, List.append_nil]
      rfl
  | throw e =>
      refine ⟨1, fun m hm fuel => ?_⟩
      obtain ⟨m, rfl⟩ := Nat.exists_eq_add_of_le' hm
      rw [generate_throw, Body.visits, List.append_nil]
      rfl
  | yield v rest ih =>
      obtain ⟨n, hn⟩ := ih (visit v s) (visited ++ [v])
      refine ⟨n + 1, fun m hm fuel => ?_⟩
      obtain ⟨m, rfl⟩ : ∃ k, m = k + 1 := Nat.exists_eq_add_of_le' (Nat.le_of_add_left_le hm)
      have hrest := hn m (Nat.le_of_succ_le_succ hm) fuel
      rw [List.append_assoc] at hrest
      rw [generate_yield]
      exact hrest
  | compute f rest ih =>
      rw [Body.visits]
      obtain ⟨n, hn⟩ := ih (f s) (f s) visited
      refine ⟨n, fun m hm fuel => ?_⟩
      rw [generate_compute]
      exact hn m hm fuel

/-- The loop, with a value in the mailbox or without. -/
theorem rangeFor_suspended (me : F) (visit : α → σ → σ) (v : Option α) (b : Body σ α E)
    (s : σ) :
    ∃ n, ∀ fuel, n ≤ fuel →
      (suspended v b : Generator σ F H α E).rangeFor me visit fuel s =
        .ok (ended σ F H α E, ((suspended v b : Generator σ F H α E).remaining.visits visit s).2,
          ((suspended v b : Generator σ F H α E).remaining.visits visit s).1) := by
  cases v with
  | none =>
      obtain ⟨n, hn⟩ := rangeLoop_generate (F := F) (H := H) me visit b s []
      refine ⟨n + 2, fun fuel hfuel => ?_⟩
      obtain ⟨k, rfl⟩ : ∃ k, fuel = k + 2 := Nat.exists_eq_add_of_le' (Nat.le_of_add_left_le hfuel)
      exact hn (k + 2) (Nat.le_of_add_right_le hfuel) k
  | some v =>
      obtain ⟨n, hn⟩ := rangeLoop_generate (F := F) (H := H) me visit b (visit v s) [v]
      refine ⟨n + 2, fun fuel hfuel => ?_⟩
      obtain ⟨k, rfl⟩ : ∃ k, fuel = k + 2 := Nat.exists_eq_add_of_le' (Nat.le_of_add_left_le hfuel)
      exact hn (k + 1) (Nat.le_succ_of_le (Nat.le_of_add_le_add_right hfuel)) k

end Generator

namespace Generator

variable [DecidableEq H]

/-- `generate` gets the body to its next value, or to its end. -/
theorem generate_suspended {fuel : ℕ} {b : Body σ α E} {s s' : σ} {g : Generator σ F H α E}
    (h : (suspended none b).generate fuel s = .ok (g, s')) :
    ((∃ v b', g = suspended (some v) b') ∨ g = ended σ F H α E) ∧ b.Yields [] g.remaining := by
  induction b generalizing s with
  | done =>
      obtain _ | _ | fuel := fuel
      · cases h
      · cases h
      · cases h
        exact ⟨Or.inr rfl, .refl _⟩
  | throw e =>
      obtain _ | _ | fuel := fuel
      · cases h
      · cases h
      · cases h
        exact ⟨Or.inr rfl, .throw e⟩
  | yield v rest ih =>
      obtain _ | _ | fuel := fuel
      · cases h
      · cases h
      · cases h
        exact ⟨Or.inl ⟨v, rest, rfl⟩, .refl _⟩
  | compute f rest ih =>
      rw [generate_compute] at h
      obtain ⟨hg, hyields⟩ := ih (f s) h
      exact ⟨hg, .compute f s hyields⟩

variable [DecidableEq F]

/-- Between two calls of one fiber, the generator is suspended or has completed, and the values
that were taken are those that the body has yielded. -/
def Consistent (b : Body σ α E) (w : Generator σ F H α E × σ × List α) : Prop :=
  ((∃ v b', w.1 = suspended v b') ∨ w.1 = ended σ F H α E) ∧ b.Yields w.2.2 w.1.remaining

theorem Consistent.call {me : F} {b : Body σ α E} {w w' : Generator σ F H α E × σ × List α}
    (h : Consistent b w) {c : Call σ} (hw' : call me w c = some w') : Consistent b w' := by
  obtain ⟨g, s, taken⟩ := w
  obtain ⟨⟨v, b', rfl⟩ | rfl, hyields⟩ := h
  · cases c with
    | generate fuel =>
        rw [Generator.call] at hw'
        cases v with
        | none =>
            split at hw'
            · rename_i g' s' heq
              cases hw'
              obtain ⟨hg, hrest⟩ := generate_suspended heq
              have htrans := hyields.trans hrest
              rw [List.append_nil] at htrans
              exact ⟨hg.imp (fun ⟨v, b', h⟩ => ⟨some v, b', h⟩) id, htrans⟩
            · cases hw'
              exact ⟨Or.inl ⟨none, b', rfl⟩, hyields⟩
            · cases hw'
        | some v =>
            cases hw'
            exact ⟨Or.inl ⟨some v, b', rfl⟩, hyields⟩
    | value =>
        cases v with
        | none => cases hw'
        | some v =>
            cases hw'
            exact ⟨Or.inl ⟨none, b', rfl⟩, hyields.trans (.yield v (.refl b'))⟩
    | change f =>
        cases hw'
        exact ⟨Or.inl ⟨v, b', rfl⟩, hyields⟩
  · cases c with
    | generate fuel =>
        cases hw'
        exact ⟨Or.inr rfl, hyields⟩
    | value =>
        cases hw'
        exact ⟨Or.inr rfl, hyields⟩
    | change f =>
        cases hw'
        exact ⟨Or.inr rfl, hyields⟩

/-- For every body and every loop over it, in a fiber that may have generated and taken values
before: the loop returns, it visits exactly what is still to come, in order, and the values
taken before are those that the body yielded first. No assertion fails. -/
theorem rangeFor_eq (me : F) (b : Body σ α E) (s : σ) (calls : List (Call σ))
    (g : Generator σ F H α E) (s' : σ) (taken : List α)
    (hr : Transition.run (call me) (init F H b, s, []) calls = some (g, s', taken))
    (visit : α → σ → σ) :
    b.Yields taken g.remaining ∧
      ∃ n, ∀ fuel, n ≤ fuel →
        g.rangeFor me visit fuel s' =
          .ok (ended σ F H α E, (g.remaining.visits visit s').2,
            (g.remaining.visits visit s').1) := by
  have hinit : Consistent b ((init F H b : Generator σ F H α E), s, []) :=
    ⟨Or.inl ⟨none, b, rfl⟩, .refl b⟩
  have hg := Transition.run_invariant (fun w c w' hw hw' => Consistent.call hw hw') hinit hr
  obtain ⟨⟨v, b', hsusp⟩ | hended, hyields⟩ := hg
  · dsimp only at hsusp
    subst hsusp
    exact ⟨hyields, rangeFor_suspended me visit v b' s'⟩
  · dsimp only at hended
    subst hended
    refine ⟨hyields, 1, fun fuel hfuel => ?_⟩
    obtain ⟨k, rfl⟩ := Nat.exists_eq_add_of_le' hfuel
    rfl

/-- A loop over a body that yields 1, and then the sum of what was visited up to then, after
the first value was generated. -/
theorem rangeFor_generated :
    ∃ (g : Generator ℕ ℕ ℕ ℕ Unit) (n : ℕ),
      Transition.run (call 0)
        (init ℕ ℕ (.yield 1 (.compute (· + 1) fun s => .yield s .done)), 0, []) [.generate 2] =
          some (g, 0, []) ∧
      ∀ fuel, n ≤ fuel →
        g.rangeFor 0 (fun v s => s + v) fuel 0 = .ok (ended ℕ ℕ ℕ ℕ Unit, 4, [1, 2]) := by
  obtain ⟨-, n, hn⟩ := rangeFor_eq (F := ℕ) (H := ℕ) 0
    (.yield 1 (.compute (· + 1) fun s => .yield s .done) : Body ℕ ℕ Unit) 0 [.generate 2]
    _ 0 [] rfl (fun v s => s + v)
  exact ⟨_, n, rfl, hn⟩

end Generator

end Zth.Coro
