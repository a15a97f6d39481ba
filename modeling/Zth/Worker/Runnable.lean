import Zth.List.Hook
import Zth.Worker.Fiber

/-!
# Runnables

A runnable is an object that can be run as a fiber. `run` creates the fiber and passes it to
`fiberHook`, which a subclass overrides, usually to prepare the fiber and then to call
`Runnable::fiberHook`. This one registers a cleanup callback with the fiber, and attaches
the runnable to it.

When the override fails, `run` detaches the runnable and deletes the fiber. The destructor
runs the callbacks that were registered so far. The cleanup callback asserts that the
runnable is still attached to the fiber, which it is not any more: a failure before
`Runnable::fiberHook` was called is rolled back, and one behind it fails the assertion.
-/

namespace Zth

namespace Runnable

/-- A callback of a fiber: `cleanup_` of the runnable, or another one, which does not touch
the runnable. -/
inductive Callback (U : Type*) where
  | cleanup_
  | other (u : U)
deriving DecidableEq, Repr

/-- A fiber with its hooks, and whether its local storage is set. -/
structure HookedFiber (U : Type*) where
  fiber : Fiber
  fls : Bool
  mExit : Hook (Callback U) Unit
  mCleanup : Hook (Callback U) Unit

/-- A runnable. The code does not have `cleanups`, the number of calls of `cleanup()`. -/
structure Data where
  mFiber : Option ℕ
  cleanups : ℕ
deriving DecidableEq, Repr

/-- What an override of `fiberHook` does with the fiber. -/
inductive Action (U : Type*) where
  | fiberHook
  | atExit (u : U)
  | atCleanup (u : U)
  | setFls (set : Bool)
  | suspend
deriving DecidableEq, Repr

/-- An error that the override returns, or an exception that it throws. -/
inductive Failure (E X : Type*) where
  | error (e : E)
  | thrown (x : X)
deriving DecidableEq, Repr

/-- An override of `fiberHook`; it returns 0 if there is no failure. -/
structure Override (U E X : Type*) where
  actions : List (Action U)
  failure : Option (Failure E X)

/-- A runnable, and the queues of the worker that it adds a fiber to. -/
structure State where
  data : Data
  runnableQueue : List (ℕ × Fiber)
  suspendedQueue : List (ℕ × Fiber)
  fresh : ℕ
deriving DecidableEq, Repr

/-- How `run` ends. -/
inductive Result (E X : Type*) where
  | ok
  | eagain
  | ealready
  | error (e : E)
  | thrown (x : X)
  | asserted
deriving DecidableEq, Repr

variable {U E X : Type*}

/-- The failure is passed on. -/
def Failure.result : Failure E X → Result E X
  | .error e => .error e
  | .thrown x => .thrown x

def HookedFiber.construct : HookedFiber U :=
  ⟨Fiber.construct, false, Hook.new _ _, Hook.new _ _⟩

/-- `cleanup()`. -/
def Data.cleanup (d : Data) : Data := ⟨none, d.cleanups + 1⟩

/-- The part of `run` that attaches and detaches the runnable. -/
def Data.attach (f : Option ℕ) (d : Data) : Data := { d with mFiber := f }

/-- An action on the fiber `id`. -/
def Action.perform (id : ℕ) (p : HookedFiber U × Data) : Action U → HookedFiber U × Data
  | .fiberHook =>
      ({ p.1 with mCleanup := p.1.mCleanup.add (.cleanup_, ()) }, p.2.attach (some id))
  | .atExit u => ({ p.1 with mExit := p.1.mExit.add (.other u, ()) }, p.2)
  | .atCleanup u => ({ p.1 with mCleanup := p.1.mCleanup.add (.other u, ()) }, p.2)
  | .setFls set => ({ p.1 with fls := set }, p.2)
  | .suspend => ({ p.1 with fiber := p.1.fiber.suspend }, p.2)

section Code

variable (asserts : Bool) (adds : U → List U)

/-- What the callbacks of the fiber `id` do to the runnable, as long as no assertion has
failed; a callback may add other ones. -/
def call (id : ℕ) : Hook.Behaviour (Callback U) Unit (Option Data)
  | .cleanup_, _, d =>
      (d.bind fun d => if asserts && decide (d.mFiber ≠ some id) then none else some d.cleanup, [])
  | .other u, _, d => (d, (adds u).map fun u => (.other u, ()))

/-- `~Fiber()`, for a fiber without a context. -/
def destroy (fuel id : ℕ) (f : HookedFiber U) (d : Data) : Option (Option Data) :=
  (f.mExit.once (call asserts adds id) fuel (some d)).bind fun r =>
    (f.mCleanup.once (call asserts adds id) fuel r.2).map fun r =>
      r.2.bind fun d => if asserts && f.fls then none else some d

/-- `Worker::add`. -/
def State.add (id : ℕ) (f : Fiber) (s : State) : State :=
  if f.state = .suspended then
    { s with suspendedQueue := s.suspendedQueue ++ [(id, { f with linked := true })] }
  else
    { s with runnableQueue := s.runnableQueue ++ [(id, { f with linked := true })] }

/-- `run()`, where there is a worker or not. -/
def run (fuel : ℕ) (worker : Bool) (o : Override U E X) (s : State) :
    Option (Result E X × State) :=
  if worker = false then
    some (.eagain, s)
  else if s.data.mFiber ≠ none then
    some (.ealready, s)
  else
    let id := s.fresh
    let s := { s with fresh := id + 1 }
    let p := o.actions.foldl (fun p a => a.perform id p) (HookedFiber.construct, s.data)
    match o.failure with
    | none => some (.ok, { s with data := p.2 }.add id { p.1.fiber with used := true })
    | some r =>
        -- Rollback.
        (destroy asserts adds fuel id p.1 (p.2.attach none)).map fun d =>
          (d.elim .asserted fun _ => r.result, { s with data := d.getD (p.2.attach none) })

/-- The failure of an override is rolled back: it is passed on, `cleanup()` was called at most
once, the runnable is detached, no fiber was added, and the runnable can be run again. -/
structure RollsBack (worker : Bool) (r : Failure E X) (s : State) (e : Result E X × State) :
    Prop where
  result : e.1 = r.result
  cleanups : e.2.data.cleanups ≤ s.data.cleanups + 1
  detached : e.2.data.mFiber = none
  runnableQueue : e.2.runnableQueue = s.runnableQueue
  suspendedQueue : e.2.suspendedQueue = s.suspendedQueue
  again : ∀ (fuel : ℕ) (actions : List (Action U)),
    (run asserts adds fuel worker ⟨actions, (none : Option (Failure E X))⟩ e.2).map Prod.fst =
      some .ok

end Code

def Callback.isCleanup : Callback U → Bool
  | .cleanup_ => true
  | .other _ => false

/-- How often the cleanup callback is among callbacks. -/
def cleanupCount (ks : List (Callback U × Unit)) : ℕ := ks.countP (·.1.isCleanup)

@[simp] theorem cleanupCount_cons_cleanup (x : Unit) (ks : List (Callback U × Unit)) :
    cleanupCount ((.cleanup_, x) :: ks) = cleanupCount ks + 1 :=
  List.countP_cons_of_pos rfl

@[simp] theorem cleanupCount_cons_other (u : U) (x : Unit) (ks : List (Callback U × Unit)) :
    cleanupCount ((.other u, x) :: ks) = cleanupCount ks :=
  List.countP_cons_of_neg (by simp [Callback.isCleanup])

def Action.isFiberHook : Action U → Bool
  | .fiberHook => true
  | _ => false

/-- How often `Runnable::fiberHook` is called. -/
def hookCalls (actions : List (Action U)) : ℕ := actions.countP Action.isFiberHook

/-- Whether the local storage is set after an action. -/
def Action.fls (set : Bool) : Action U → Bool
  | .setFls set => set
  | _ => set

/-- Whether the local storage is left set by an override. -/
def leavesFls (actions : List (Action U)) : Bool := actions.foldl Action.fls false

/-- The callbacks of a hook. -/
def Callbacks (h : Hook (Callback U) Unit) (ks : List (Callback U × Unit)) : Prop :=
  ∃ l, h.Holds l ∧ l.map Hook.callback = ks

theorem Callbacks.new : Callbacks (Hook.new (Callback U) Unit) [] :=
  ⟨[], Hook.holds_new, rfl⟩

theorem Callbacks.add {h : Hook (Callback U) Unit} {ks : List (Callback U × Unit)}
    (hks : Callbacks h ks) (k : Callback U × Unit) : Callbacks (h.add k) (k :: ks) := by
  obtain ⟨l, hl, rfl⟩ := hks
  exact ⟨_, hl.add k, rfl⟩

/-- The fiber and the runnable while an override prepares them: `Runnable::fiberHook` was
called `n` times, and the local storage is set or not. -/
structure Prepared (n : ℕ) (fls : Bool) (cleanups : ℕ) (p : HookedFiber U × Data) : Prop where
  exit : ∃ ks, Callbacks p.1.mExit ks ∧ cleanupCount ks = 0
  cleanup : ∃ ks, Callbacks p.1.mCleanup ks ∧ cleanupCount ks = n
  fls : p.1.fls = fls
  cleanups : p.2.cleanups = cleanups

theorem prepared_construct (d : Data) :
    Prepared (U := U) 0 false d.cleanups (HookedFiber.construct, d) where
  exit := ⟨[], .new, rfl⟩
  cleanup := ⟨[], .new, rfl⟩
  fls := rfl
  cleanups := rfl

theorem Prepared.perform {n c : ℕ} {fls : Bool} {p : HookedFiber U × Data}
    (h : Prepared n fls c p) (id : ℕ) (a : Action U) :
    Prepared (n + if a.isFiberHook then 1 else 0) (a.fls fls) c (a.perform id p) := by
  obtain ⟨⟨ke, hke, hce⟩, ⟨kc, hkc, hcc⟩, hfls, hc⟩ := h
  cases a with
  | fiberHook =>
      refine ⟨⟨ke, hke, hce⟩, ⟨_, hkc.add (.cleanup_, ()), ?_⟩, hfls, hc⟩
      rw [cleanupCount_cons_cleanup, hcc]
      rfl
  | atExit u =>
      exact ⟨⟨_, hke.add (.other u, ()), (cleanupCount_cons_other u () ke).trans hce⟩,
        ⟨kc, hkc, hcc⟩, hfls, hc⟩
  | atCleanup u =>
      exact ⟨⟨ke, hke, hce⟩,
        ⟨_, hkc.add (.other u, ()), (cleanupCount_cons_other u () kc).trans hcc⟩, hfls, hc⟩
  | setFls set => exact ⟨⟨ke, hke, hce⟩, ⟨kc, hkc, hcc⟩, rfl, hc⟩
  | suspend => exact ⟨⟨ke, hke, hce⟩, ⟨kc, hkc, hcc⟩, hfls, hc⟩

/-- The actions of an override, one after the other. -/
theorem Prepared.foldl {n c : ℕ} {fls : Bool} {p : HookedFiber U × Data}
    (h : Prepared n fls c p) (id : ℕ) (actions : List (Action U)) :
    Prepared (n + hookCalls actions) (actions.foldl Action.fls fls) c
      (actions.foldl (fun p a => a.perform id p) p) := by
  induction actions generalizing n fls p with
  | nil => exact h
  | cons a actions ih =>
      have hrest := ih (h.perform id a)
      rw [hookCalls, List.countP_cons, Nat.add_comm (actions.countP _), ← Nat.add_assoc]
      exact hrest

section Destroy

variable {asserts : Bool} {adds : U → List U} {id : ℕ}

/-- Once an assertion has failed, nothing follows. -/
theorem stateAfter_none (ks : List (Callback U × Unit)) :
    Hook.stateAfter (call asserts adds id) ks none = none := by
  induction ks with
  | nil => rfl
  | cons k ks ih =>
      rcases k with ⟨_ | u, _⟩
      · exact ih
      · exact ih

/-- What the callbacks of a fiber do to a runnable that is detached from it. -/
theorem stateAfter_detached (ks : List (Callback U × Unit)) {d : Data} (hd : d.mFiber = none) :
    Hook.stateAfter (call asserts adds id) ks (some d) =
      if asserts = true ∧ 0 < cleanupCount ks then none
      else some { d with cleanups := d.cleanups + cleanupCount ks } := by
  induction ks generalizing d with
  | nil => simp [Hook.stateAfter, cleanupCount]
  | cons k ks ih =>
      rcases k with ⟨_ | u, x⟩
      · cases asserts with
        | true =>
            have hcall : (call true adds id .cleanup_ x (some d)).1 = none := by
              simp [call, hd]
            have hafter : Hook.stateAfter (call true adds id) ((.cleanup_, x) :: ks) (some d) =
                Hook.stateAfter (call true adds id) ks none :=
              congrArg (Hook.stateAfter (call true adds id) ks) hcall
            rw [hafter, stateAfter_none]
            simp
        | false =>
            have hafter : Hook.stateAfter (call false adds id) ((.cleanup_, x) :: ks) (some d) =
                Hook.stateAfter (call false adds id) ks (some d.cleanup) := rfl
            rw [hafter, ih (show d.cleanup.mFiber = none from rfl)]
            simp [Data.cleanup, hd, Nat.add_assoc, Nat.add_comm 1]
      · have hafter : Hook.stateAfter (call asserts adds id) ((.other u, x) :: ks) (some d) =
            Hook.stateAfter (call asserts adds id) ks (some d) := rfl
        rw [hafter, ih hd]
        simp

variable (asserts adds id) in
/-- The destructor of a fiber whose override failed, after the runnable was detached. -/
theorem destroy_prepared {n c : ℕ} {fls : Bool} {p : HookedFiber U × Data}
    (h : Prepared n fls c p) :
    ∃ m, ∀ fuel, m ≤ fuel →
      destroy asserts adds fuel id p.1 (p.2.attach none) =
        some (if asserts = true ∧ (0 < n ∨ fls = true) then none else some ⟨none, c + n⟩) := by
  obtain ⟨⟨ke, ⟨le, hle, rfl⟩, hce⟩, ⟨kc, ⟨lc, hlc, rfl⟩, hcc⟩, hfls, hc⟩ := h
  refine ⟨max le.length lc.length, fun fuel hfuel => ?_⟩
  obtain ⟨h₁, honce, -, -⟩ := Hook.walked_once (call asserts adds id) hle
    (some (p.2.attach none)) (Nat.le_trans (Nat.le_max_left _ _) hfuel)
  rw [stateAfter_detached _ (show (p.2.attach none).mFiber = none from rfl), hce,
    if_neg (by simp), Nat.add_zero] at honce
  obtain ⟨h₂, honce₂, -, -⟩ := Hook.walked_once (call asserts adds id) hlc
    (some (p.2.attach none)) (Nat.le_trans (Nat.le_max_right _ _) hfuel)
  rw [stateAfter_detached _ (show (p.2.attach none).mFiber = none from rfl), hcc] at honce₂
  rw [destroy, honce, Option.bind_some, honce₂, Option.map_some, hfls]
  cases asserts with
  | false => simp [Data.attach, hc]
  | true =>
      by_cases hn : 0 < n
      · simp [hn]
      · obtain rfl : n = 0 := Nat.eq_zero_of_not_pos hn
        cases fls <;> simp [Data.attach, hc]

end Destroy

/-- A runnable that is detached can be run. -/
theorem run_of_detached (asserts : Bool) (adds : U → List U) (fuel : ℕ)
    (actions : List (Action U)) {s : State} (hs : s.data.mFiber = none) :
    (run asserts adds fuel true ⟨actions, (none : Option (Failure E X))⟩ s).map Prod.fst =
      some .ok := by
  simp [run, hs]

/-- A failure of `fiberHook` is rolled back exactly when `Runnable::fiberHook` was not called
before, or once and without assertions; and when no local storage is left for the assertion
of the destructor. -/
theorem run_rollsBack_iff (asserts : Bool) (adds : U → List U) (actions : List (Action U))
    (r : Failure E X) (s : State) (hs : s.data.mFiber = none) :
    ∃ m, ∀ fuel, m ≤ fuel → ∃ e,
      run asserts adds fuel true ⟨actions, some r⟩ s = some e ∧
      (RollsBack asserts adds true r s e ↔
        (hookCalls actions = 0 ∨ asserts = false ∧ hookCalls actions = 1) ∧
          (asserts = false ∨ leavesFls actions = false)) := by
  have hprep := (prepared_construct (U := U) s.data).foldl s.fresh actions
  obtain ⟨m, hm⟩ := destroy_prepared asserts adds s.fresh hprep
  refine ⟨m, fun fuel hfuel => ?_⟩
  have hdestroy := hm fuel hfuel
  rw [Nat.zero_add] at hdestroy
  simp only [run, Bool.true_eq_false, if_false, hs, ne_eq, not_true_eq_false, hdestroy,
    Option.map_some]
  refine ⟨_, rfl, ?_⟩
  change _ ↔ _ ∧ (asserts = false ∨ actions.foldl Action.fls false = false)
  by_cases hfail : asserts = true ∧
      (0 < hookCalls actions ∨ actions.foldl Action.fls false = true)
  · rw [if_pos hfail]
    refine iff_of_false (fun h => ?_) ?_
    · have hresult : Result.asserted = r.result := h.result
      cases r <;> cases hresult
    · obtain ⟨rfl, hn | hfls⟩ := hfail
      · simp [Nat.ne_of_gt hn]
      · simp [hfls]
  · rw [if_neg hfail]
    have hiff : (hookCalls actions = 0 ∨ asserts = false ∧ hookCalls actions = 1) ∧
        (asserts = false ∨ actions.foldl Action.fls false = false) ↔ hookCalls actions ≤ 1 := by
      cases asserts with
      | false => simp [Nat.le_one_iff_eq_zero_or_eq_one]
      | true =>
          have hn : hookCalls actions = 0 := by
            by_contra hne
            exact hfail ⟨rfl, Or.inl (Nat.pos_of_ne_zero hne)⟩
          have hfls : actions.foldl Action.fls false = false := by
            by_contra hset
            exact hfail ⟨rfl, Or.inr (by simpa using hset)⟩
          simp [hn, hfls]
    rw [hiff]
    constructor
    · intro h
      exact Nat.le_of_add_le_add_left h.cleanups
    · intro hle
      exact ⟨rfl, Nat.add_le_add_left hle _, rfl, rfl, rfl,
        fun fuel actions => run_of_detached asserts adds fuel actions rfl⟩

/-- An override that sets up the local storage, clears it, and then returns an error. -/
theorem run_rollsBack_iff_early :
    ∃ m, ∀ fuel, m ≤ fuel → ∃ e,
      run true (fun _ : Unit => []) fuel true
        ⟨[.setFls true, .atExit (), .setFls false], some (.error 5 : Failure ℕ Unit)⟩
        ⟨⟨none, 0⟩, [], [], 0⟩ = some e ∧
      RollsBack (U := Unit) true (fun _ => []) true (.error 5) ⟨⟨none, 0⟩, [], [], 0⟩ e := by
  obtain ⟨m, hm⟩ := run_rollsBack_iff true (fun _ : Unit => [])
    [.setFls true, .atExit (), .setFls false] (.error 5 : Failure ℕ Unit) ⟨⟨none, 0⟩, [], [], 0⟩ rfl
  refine ⟨m, fun fuel hfuel => ?_⟩
  obtain ⟨e, he, hiff⟩ := hm fuel hfuel
  exact ⟨e, he, hiff.2 ⟨Or.inl rfl, Or.inr rfl⟩⟩

/-- An override that returns an error after it called `Runnable::fiberHook`: the cleanup
callback is run for a runnable that is detached already, and its assertion fails. -/
theorem not_rollsBack_late :
    run true (fun _ : Unit => []) 1 true ⟨[.fiberHook], some (.error 5 : Failure ℕ Unit)⟩
        ⟨⟨none, 0⟩, [], [], 0⟩ = some (.asserted, ⟨⟨none, 0⟩, [], [], 1⟩) ∧
      ¬ RollsBack (U := Unit) true (fun _ => []) true (.error 5 : Failure ℕ Unit)
        ⟨⟨none, 0⟩, [], [], 0⟩ (.asserted, ⟨⟨none, 0⟩, [], [], 1⟩) := by
  refine ⟨rfl, fun h => ?_⟩
  have hresult := h.result
  cases hresult

end Runnable

end Zth
