import Mathlib.Tactic.Common

/-!
# Generators

A generator is a coroutine that puts the values it yields in a mailbox. Its promise has the
mailbox, a continuation to go to at the next `co_yield`, and flags that tell whether it is
running and whether it has completed. A value is taken by a fiber, or by a coroutine that has
suspended itself at `co_await`; which one it is for, is written down when the first of the
takers is woken.

The body of a generator works on the state of the program, which may change between two of
its steps.
-/

namespace Zth.Coro

/-- The body of a generator: it returns or throws in the end. -/
inductive Body (σ α E : Type*) where
  | done
  | throw (e : E)
  | yield (v : α) (rest : Body σ α E)
  | compute (f : σ → σ) (rest : σ → Body σ α E)

/-- An entry of the queue for values: a fiber, or a suspended coroutine. -/
inductive Taker (F H : Type*) where
  | fiber (f : F)
  | coro (h : H)
deriving DecidableEq, Repr

instance {F H : Type*} [DecidableEq F] [DecidableEq H] : LawfulBEq (Taker F H) := inferInstance

/-- A coroutine handle that is set. -/
inductive Handle (H : Type*) where
  | noop
  | coro (h : H)
deriving DecidableEq, Repr

/-- The promise of a generator, with its mailbox. The mailbox can hold an exception instead of
a value. -/
structure GeneratorPromise (F H α E : Type*) where
  mValue : Option (Except E α)
  mAssigned : Option (Taker F H)
  takeQueue : List (Taker F H)
  putQueue : List F
  abandoned : Bool
  mContinuation : Option (Handle H)
  mRunning : Bool
  mCompleted : Bool

variable {σ F H α E : Type*}

/-- The body yields the given values one after another, and then the other body is left of
it. What it computes depends on the state of the program. An exception leaves nothing. -/
inductive Body.Yields : Body σ α E → List α → Body σ α E → Prop
  | refl (b : Body σ α E) : Yields b [] b
  | yield (v : α) {rest b : Body σ α E} {vs : List α} :
      Yields rest vs b → Yields (.yield v rest) (v :: vs) b
  | compute (f : σ → σ) {rest : σ → Body σ α E} {b : Body σ α E} {vs : List α} (s : σ) :
      Yields (rest (f s)) vs b → Yields (.compute f rest) vs b
  | throw (e : E) : Yields (.throw e) [] .done

namespace Body.Yields

theorem trans {a b c : Body σ α E} {vs ws : List α} (h : Yields a vs b) (h' : Yields b ws c) :
    Yields a (vs ++ ws) c := by
  induction h with
  | refl b => exact h'
  | yield v _ ih => exact .yield v (ih h')
  | compute f s _ ih => exact .compute f s (ih h')
  | throw e =>
      cases h' with
      | refl => exact .throw e

end Body.Yields

variable [DecidableEq H]

namespace GeneratorPromise

/-- The promise of a new generator. -/
def init (F H α E : Type*) : GeneratorPromise F H α E :=
  ⟨none, none, [], [], false, none, false, false⟩

/-- There is something in the mailbox. -/
def valid (p : GeneratorPromise F H α E) : Bool := p.mValue.isSome

/-- There is something in the mailbox, which is not reserved for somebody else. -/
def validFor [DecidableEq F] (t : Option (Taker F H)) (p : GeneratorPromise F H α E) : Bool :=
  p.valid && (p.mAssigned = none || p.mAssigned = t)

/-- The generator is being executed, or somebody waits for it to get to its next `co_yield`. -/
def running (p : GeneratorPromise F H α E) : Bool := p.mRunning || p.mContinuation.isSome

/-- Set the flag. It must change. -/
def setRunning (set : Bool) (p : GeneratorPromise F H α E) : Option (GeneratorPromise F H α E) :=
  if p.mRunning = set then none else some { p with mRunning := set }

/-- Set the continuation. There must not be another one. -/
def setContinuation (cont : Handle H) (p : GeneratorPromise F H α E) :
    Option (GeneratorPromise F H α E) :=
  if p.mContinuation = none ∨ p.mContinuation = some cont then
    some { p with mContinuation := some cont }
  else none

/-- Where to go, which is back to who resumed the generator by default. -/
def continuation (p : GeneratorPromise F H α E) : GeneratorPromise F H α E × Handle H :=
  ({ p with mContinuation := none }, p.mContinuation.getD .noop)

/-- A taker is woken, and what is in the mailbox is reserved for it. A coroutine is going to be
resumed by the generator itself. -/
def wakeup (t : Taker F H) (p : GeneratorPromise F H α E) :
    Option (GeneratorPromise F H α E) :=
  match t with
  | .fiber f => some { p with mAssigned := some (.fiber f) }
  | .coro h =>
      if p.abandoned then none
      else (p.setContinuation (.coro h)).map fun p => { p with mAssigned := some (.coro h) }

/-- Put a value in the mailbox, which is empty, and wake the first taker. -/
def put (v : α) (p : GeneratorPromise F H α E) : Option (GeneratorPromise F H α E) :=
  match p.takeQueue with
  | [] => some { p with mValue := some (.ok v) }
  | t :: ts => wakeup t { p with mValue := some (.ok v), takeQueue := ts }

/-- Take what is in the mailbox, and wake the first one that waits to put. -/
def take (p : GeneratorPromise F H α E) : GeneratorPromise F H α E :=
  { p with mValue := none, putQueue := p.putQueue.tail }

/-- Wake the given takers. -/
def unblockAll : List (Taker F H) → GeneratorPromise F H α E → Option (GeneratorPromise F H α E)
  | [], p => some p
  | t :: ts, p => (p.wakeup t).bind (unblockAll ts)

/-- The generator is not going to put values anymore. -/
def abandon (p : GeneratorPromise F H α E) : Option (GeneratorPromise F H α E) :=
  (unblockAll p.takeQueue { p with takeQueue := [] }).map fun p => { p with abandoned := true }

/-- `co_yield`, when the mailbox is empty. The generator goes on, or suspends itself to go to
the continuation. -/
def yieldValue (v : α) (p : GeneratorPromise F H α E) :
    Option (GeneratorPromise F H α E × Option (Handle H)) :=
  (p.put v).bind fun p =>
    if p.mContinuation = none then some (p, none)
    else (p.setRunning false).map fun p => (p.continuation.1, some p.continuation.2)

/-- The body has returned. -/
def returnVoid (p : GeneratorPromise F H α E) : GeneratorPromise F H α E :=
  { p with mCompleted := true }

/-- The body has thrown an exception. -/
def unhandledException (_ : E) (p : GeneratorPromise F H α E) : GeneratorPromise F H α E :=
  { p with mCompleted := true }

/-- The end of the generator. -/
def finalSuspend (p : GeneratorPromise F H α E) :
    Option (GeneratorPromise F H α E × Handle H) :=
  p.abandon.bind fun p => (p.setRunning false).map continuation

theorem validFor_iff [DecidableEq F] {t : Option (Taker F H)} {p : GeneratorPromise F H α E} :
    p.validFor t = true ↔ p.valid = true ∧ (p.mAssigned = none ∨ p.mAssigned = t) := by
  rw [validFor, Bool.and_eq_true, Bool.or_eq_true, decide_eq_true_eq, decide_eq_true_eq]

omit [DecidableEq H] in
theorem not_running_iff {p : GeneratorPromise F H α E} :
    ¬ p.running = true ↔ p.mRunning = false ∧ p.mContinuation = none := by
  rw [running, Bool.or_eq_true, not_or, Bool.not_eq_true, Option.isSome_iff_ne_none, not_not]

/-- A woken taker has the reservation. -/
theorem wakeup_eq_some {t : Taker F H} {p p' : GeneratorPromise F H α E}
    (h : p.wakeup t = some p') :
    p'.mValue = p.mValue ∧ p'.takeQueue = p.takeQueue ∧ p'.mAssigned = some t ∧
      p'.abandoned = p.abandoned ∧ p'.mCompleted = p.mCompleted ∧
      (∀ k, t = .coro k → p'.mContinuation = some (.coro k)) := by
  cases t with
  | fiber f =>
      cases h
      exact ⟨rfl, rfl, rfl, rfl, rfl, fun k hk => by cases hk⟩
  | coro k =>
      rw [wakeup, setContinuation] at h
      split at h
      · cases h
      · split at h
        · cases h
          refine ⟨rfl, rfl, rfl, rfl, rfl, fun k' hk => ?_⟩
          cases hk
          rfl
        · cases h

/-- What is put, and for whom it is. -/
theorem put_eq_some {v : α} {p p' : GeneratorPromise F H α E} (h : p.put v = some p') :
    p'.mValue = some (.ok v) ∧ p'.takeQueue = p.takeQueue.tail ∧
      p'.mAssigned = p.takeQueue.head?.or p.mAssigned ∧
      p'.abandoned = p.abandoned ∧ p'.mCompleted = p.mCompleted ∧
      (∀ k, p.takeQueue.head? = some (.coro k) → p'.mContinuation = some (.coro k)) := by
  rw [put] at h
  split at h
  · rename_i hq
    cases h
    rw [hq]
    exact ⟨rfl, rfl, rfl, rfl, rfl, fun k hk => absurd hk (Option.some_ne_none _).symm⟩
  · rename_i t ts hq
    obtain ⟨hvalue, hqueue, hassigned, habandoned, hcompleted, hcont⟩ := wakeup_eq_some h
    rw [hq]
    exact ⟨hvalue, hqueue, hassigned, habandoned, hcompleted,
      fun k hk => hcont k (Option.some.inj hk)⟩

/-- What is yielded, and for whom it is. -/
theorem yieldValue_eq_some {v : α} {p p' : GeneratorPromise F H α E} {cont : Option (Handle H)}
    (h : p.yieldValue v = some (p', cont)) :
    p'.mValue = some (.ok v) ∧ p'.takeQueue = p.takeQueue.tail ∧
      p'.mAssigned = p.takeQueue.head?.or p.mAssigned ∧
      p'.abandoned = p.abandoned ∧ p'.mCompleted = p.mCompleted ∧
      (∀ k, p.takeQueue.head? = some (.coro k) → cont = some (.coro k)) := by
  obtain ⟨p₁, hput, h⟩ := Option.bind_eq_some_iff.1 h
  obtain ⟨hvalue, hqueue, hassigned, habandoned, hcompleted, hcont⟩ := put_eq_some hput
  split at h
  · rename_i hnone
    cases h
    refine ⟨hvalue, hqueue, hassigned, habandoned, hcompleted, fun k hk => ?_⟩
    exact absurd (hnone.symm.trans (hcont k hk)) (Option.some_ne_none _).symm
  · rw [setRunning] at h
    split at h
    · cases h
    · cases h
      refine ⟨hvalue, hqueue, hassigned, habandoned, hcompleted, fun k hk => ?_⟩
      rw [continuation, hcont k hk]
      rfl

/-- What is in the mailbox is for the last one that is woken. -/
theorem unblockAll_eq_some {ts : List (Taker F H)} {p p' : GeneratorPromise F H α E}
    (h : unblockAll ts p = some p') :
    p'.mValue = p.mValue ∧ p'.takeQueue = p.takeQueue ∧
      p'.mAssigned = ts.getLast?.or p.mAssigned ∧ p'.mCompleted = p.mCompleted ∧
      (∀ k, ts.getLast? = some (.coro k) → p'.mContinuation = some (.coro k)) := by
  induction ts generalizing p with
  | nil =>
      cases h
      exact ⟨rfl, rfl, rfl, rfl, fun k hk => absurd hk (Option.some_ne_none _).symm⟩
  | cons t ts ih =>
      obtain ⟨p₁, hwake, h⟩ := Option.bind_eq_some_iff.1 h
      obtain ⟨hvalue, hqueue, hassigned, -, hcompleted, hcont⟩ := wakeup_eq_some hwake
      obtain ⟨hvalue', hqueue', hassigned', hcompleted', hcont'⟩ := ih h
      refine ⟨hvalue'.trans hvalue, hqueue'.trans hqueue, ?_, hcompleted'.trans hcompleted, ?_⟩
      · rw [hassigned', hassigned, List.getLast?_cons]
        cases ts.getLast? with
        | none => rfl
        | some t' => rfl
      · intro k hk
        cases ts with
        | nil =>
            cases h
            exact hcont k (Option.some.inj hk)
        | cons t' ts' => exact hcont' k hk

/-- A coroutine is woken. -/
theorem wakeup_coro {p : GeneratorPromise F H α E}
    (habandoned : p.abandoned = false) {k : H}
    (hcont : p.mContinuation = none ∨ p.mContinuation = some (.coro k)) :
    p.wakeup (.coro k) =
      some { p with mContinuation := some (.coro k), mAssigned := some (.coro k) } := by
  rw [wakeup, if_neg (by simp [habandoned]), setContinuation, if_pos hcont]
  rfl

/-- The takers are woken, if at most one of them is a coroutine. -/
theorem exists_unblockAll {ts : List (Taker F H)}
    {p : GeneratorPromise F H α E} (habandoned : p.abandoned = false)
    (hcont : ∀ k, .coro k ∈ ts → p.mContinuation = none ∨ p.mContinuation = some (.coro k))
    (hsame : ∀ k k', .coro k ∈ ts → .coro k' ∈ ts → k = k') :
    ∃ p', unblockAll ts p = some p' ∧ p'.mRunning = p.mRunning ∧
      (∀ k, .coro k ∈ ts → p'.mContinuation = some (.coro k)) ∧
      ((∀ k, .coro k ∉ ts) → p'.mContinuation = p.mContinuation) := by
  induction ts generalizing p with
  | nil => exact ⟨p, rfl, rfl, fun k hk => absurd hk List.not_mem_nil, fun _ => rfl⟩
  | cons t ts ih =>
      have hsame' : ∀ k k', .coro k ∈ ts → .coro k' ∈ ts → k = k' := fun k k' hk hk' =>
        hsame k k' (List.mem_cons_of_mem _ hk) (List.mem_cons_of_mem _ hk')
      cases t with
      | fiber f =>
          obtain ⟨p', hp', hrunning, hcoro, hrest⟩ :=
            ih (p := { p with mAssigned := some (.fiber f) }) habandoned
              (fun k hk => hcont k (List.mem_cons_of_mem _ hk)) hsame'
          refine ⟨p', hp', hrunning, fun k hk => hcoro k ?_, fun hk => hrest fun k hmem => ?_⟩
          · simpa using hk
          · exact hk k (List.mem_cons_of_mem _ hmem)
      | coro k =>
          have hk : ∀ k', .coro k' ∈ ts → k' = k := fun k' hk' =>
            hsame k' k (List.mem_cons_of_mem _ hk') List.mem_cons_self
          obtain ⟨p', hp', hrunning, hcoro, hrest⟩ :=
            ih (p := { p with mContinuation := some (.coro k), mAssigned := some (.coro k) })
              habandoned (fun k' hk' => Or.inr (by rw [hk k' hk'])) hsame'
          have hset : p'.mContinuation = some (.coro k) := by
            by_cases hmem : .coro k ∈ ts
            · exact hcoro k hmem
            · exact hrest fun k' hk' => hmem (hk k' hk' ▸ hk')
          refine ⟨p', ?_, hrunning, fun k' hk' => ?_, fun hnot => ?_⟩
          · rw [unblockAll, wakeup_coro habandoned (hcont k List.mem_cons_self),
              Option.bind_some, hp']
          · obtain heq | hmem := List.mem_cons.1 hk'
            · cases heq
              exact hset
            · rw [hk k' hmem]
              exact hset
          · exact absurd List.mem_cons_self (hnot k)

/-- In the end, what is in the mailbox is for the last one that waited. If that is a coroutine,
it is resumed. -/
theorem finalSuspend_eq_some {p p' : GeneratorPromise F H α E} {cont : Handle H}
    (h : p.finalSuspend = some (p', cont)) :
    p'.mValue = p.mValue ∧ p'.takeQueue = [] ∧
      p'.mAssigned = p.takeQueue.getLast?.or p.mAssigned ∧ p'.abandoned = true ∧
      p'.mCompleted = p.mCompleted ∧
      (∀ k, p.takeQueue.getLast? = some (.coro k) → cont = .coro k) := by
  obtain ⟨p₁, habandon, h⟩ := Option.bind_eq_some_iff.1 h
  obtain ⟨p₂, hall, rfl⟩ := Option.map_eq_some_iff.1 habandon
  obtain ⟨hvalue, hqueue, hassigned, hcompleted, hcont⟩ := unblockAll_eq_some hall
  rw [setRunning] at h
  split at h
  · cases h
  · cases h
    refine ⟨hvalue, hqueue, hassigned, rfl, hcompleted, fun k hk => ?_⟩
    dsimp only
    rw [hcont k hk]
    rfl

end GeneratorPromise

end Zth.Coro
