import Zth.Sync.Future
import Zth.Worker.Fiber

/-!
# The future of a fiber

A typed fiber sets the future that is registered with it to what its function returns or throws,
and then runs its exit hooks. A future that is registered when the fiber is dead already is set
then. Nobody else sets it.

A fiber also dies when it is killed, or when its context cannot be created. Whether a future can
hold an exception depends on the compiler; where it cannot, what the function throws is only
logged.
-/

namespace Zth

/-- Where the code of a typed fiber is: it did not start, it executes its function or its exit
hooks, or it is at its end. -/
inductive TypedFiber.Code where
  | notStarted
  | entry
  | exit
  | ended
deriving DecidableEq, Repr

/-- A typed fiber, and all futures. `failed` tells that an assertion has failed. -/
structure TypedFiber (F O T E : Type*) where
  fiber : Fiber
  code : TypedFiber.Code
  mFuture : Option O
  futures : O → Monitor.State F Unit (Future.Code T E) (Future.Data T E)
  failed : Bool

namespace TypedFiber

open Mailbox

variable {F O T E : Type*}

/-- A new fiber, and new futures. -/
def init (F O T E : Type*) : TypedFiber F O T E :=
  ⟨.construct, .notStarted, none, fun _ => .idle (.init T E), false⟩

variable [DecidableEq O]

/-- Set the future, if there is one. It is asserted not to be valid. -/
def setFuture (item : Item T E) (s : TypedFiber F O T E) : TypedFiber F O T E :=
  match s.mFuture with
  | none => s
  | some o =>
      if (s.futures o).data.value.valid then { s with failed := true }
      else { s with futures := Function.update s.futures o (Future.assign item (s.futures o)) }

/-- What the future is set to, when it is registered with a dead fiber. -/
def already [Inhabited T] (futureException : Bool) (fiberAlreadyDead : E) : Item T E :=
  if futureException then .exception (some fiberAlreadyDead) else .value default

/-- A future is registered. A fiber that is dead already sets it. -/
def registerFuture (dead : Item T E) (o : O) (s : TypedFiber F O T E) : TypedFiber F O T E :=
  let s := { s with mFuture := some o }
  if s.fiber.state = .dead then s.setFuture dead else s

/-- A new future is made and registered, if there is none. -/
def withFuture (dead : Item T E) (o : O) (s : TypedFiber F O T E) : TypedFiber F O T E :=
  match s.mFuture with
  | some _ => s
  | none =>
      registerFuture dead o
        { s with futures := Function.update s.futures o (.idle (.init T E)) }

/-- What happens to the fiber or to a future: the worker initializes, starts, stops, suspends or
resumes the fiber, or lets it wait or wakes it, its function returns or throws, its exit hooks
return, somebody kills it, or a fiber uses a future. -/
inductive Label (F O T E : Type*) where
  | registerFuture (o : O)
  | withFuture (o : O)
  | init (created : Bool)
  | start
  | stop
  | nap
  | wakeup
  | suspend
  | resume
  | returns (v : T)
  | throws (e : E)
  | exited
  | kill
  | wait (o : O) (f : F)
  | value (o : O) (f : F)
  | go (o : O) (f : F)

/-- Another state of the fiber. -/
def setFiber (x : Fiber) (s : TypedFiber F O T E) : TypedFiber F O T E := { s with fiber := x }

/-- Another piece of code of the fiber. -/
def setCode (c : Code) (s : TypedFiber F O T E) : TypedFiber F O T E := { s with code := c }

/-- A fiber uses a future. -/
def use [DecidableEq F] (o : O) (l : Monitor.Label F Unit (Future.Call T E))
    (s : TypedFiber F O T E) : Option (TypedFiber F O T E) :=
  (Future.step (s.futures o) l).map fun future =>
    { s with futures := Function.update s.futures o future }

/-- One step. Code of the fiber is executed while it is running, also when it has been killed
meanwhile. -/
def step [DecidableEq F] [Inhabited T] (futureException : Bool) (fiberAlreadyDead : E)
    (s : TypedFiber F O T E) (l : Label F O T E) : Option (TypedFiber F O T E) :=
  if s.failed then none
  else
    match l with
    | .registerFuture o => some (s.registerFuture (already futureException fiberAlreadyDead) o)
    | .withFuture o => some (s.withFuture (already futureException fiberAlreadyDead) o)
    | .init created =>
        if s.fiber.state = .new then
          some (s.setFiber (if created then s.fiber.init else s.fiber.kill))
        else none
    | .start =>
        if s.fiber.state = .ready then
          some ((s.setFiber s.fiber.start).setCode
            (if s.code = .notStarted then .entry else s.code))
        else none
    | .stop => some (s.setFiber s.fiber.stop)
    | .nap => some (s.setFiber s.fiber.nap)
    | .wakeup => some (s.setFiber s.fiber.wakeup)
    | .suspend => some (s.setFiber s.fiber.suspend)
    | .resume => some (s.setFiber s.fiber.resume)
    | .returns v =>
        if s.code = .entry ∧ (s.fiber.state = .running ∨ s.fiber.state = .dead) then
          some ((s.setFuture (.value v)).setCode .exit)
        else none
    | .throws e =>
        if s.code = .entry ∧ (s.fiber.state = .running ∨ s.fiber.state = .dead) then
          some ((if futureException then s.setFuture (.exception (some e)) else s).setCode .exit)
        else none
    | .exited =>
        if s.code = .exit ∧ (s.fiber.state = .running ∨ s.fiber.state = .dead) then
          some ((s.setFiber s.fiber.kill).setCode .ended)
        else none
    | .kill => some (s.setFiber s.fiber.kill)
    | .wait o f => s.use o (.call f .wait)
    | .value o f => s.use o (.call f .value)
    | .go o f => s.use o (.resume f)

/-- The future that is registered is valid, if there is one. -/
def Settled (s : TypedFiber F O T E) : Prop :=
  ∀ o, s.mFuture = some o → (s.futures o).data.value.valid = true

/-- The future of a dead fiber is valid, and nobody is blocked in it. -/
def DeadSettled (s : TypedFiber F O T E) : Prop :=
  s.fiber.state = .dead → ∀ o, s.mFuture = some o →
    (s.futures o).data.value.valid = true ∧ (s.futures o).queue () = []

/-- The fiber is not killed while the future that is registered is not valid, and neither is a
future registered while it executes its exit hooks that is not valid. What it throws can be put
in a future. -/
def EndsSettled (futureException : Bool) (s : TypedFiber F O T E) : Label F O T E → Prop
  | .kill => s.Settled
  | .init created => created = true ∨ s.Settled
  | .throws _ => futureException = true ∨ s.Settled
  | .registerFuture o => s.code = .exit → s.fiber.state ≠ .dead →
      (s.futures o).data.value.valid = true
  | .withFuture _ => s.code = .exit → s.fiber.state ≠ .dead → s.mFuture ≠ none
  | _ => True

/-- What holds in every state, as long as that holds. -/
structure Inv [DecidableEq F] (s : TypedFiber F O T E) : Prop where
  futures : ∀ o, Future.Invariant (s.futures o)
  next : s.fiber.stateNext ≠ .dead
  dead : s.fiber.state = .dead → s.Settled
  exit : s.code = .exit → s.Settled

/-- A fiber that was not dead is not dead. -/
structure StaysAlive (x y : Fiber) : Prop where
  next : y.stateNext ≠ .dead
  state : y.state = .dead → x.state = .dead

section Fiber

variable {x : Fiber}

theorem staysAlive_init (h : x.stateNext ≠ .dead) : StaysAlive x x.init :=
  ⟨by simp [Fiber.init], fun hd => absurd hd h⟩

theorem staysAlive_start (h : x.stateNext ≠ .dead) : StaysAlive x x.start :=
  ⟨h, fun hd => by cases hd⟩

theorem staysAlive_stop (h : x.stateNext ≠ .dead) : StaysAlive x x.stop := by
  rw [Fiber.stop]
  split
  · exact ⟨h, fun hd => by cases hd⟩
  · exact ⟨h, id⟩

theorem staysAlive_nap (h : x.stateNext ≠ .dead) : StaysAlive x x.nap := by
  rw [Fiber.nap]
  split
  · exact ⟨by simp, id⟩
  · exact ⟨by simp, fun hd => by cases hd⟩
  · exact ⟨by simp, fun hd => by cases hd⟩
  · exact ⟨by simp, id⟩
  all_goals exact ⟨h, id⟩

theorem staysAlive_wakeup (h : x.stateNext ≠ .dead) : StaysAlive x x.wakeup := by
  rw [Fiber.wakeup]
  split
  · split
    · exact ⟨by simp, fun hd => by cases hd⟩
    · exact ⟨h, fun hd => absurd hd h⟩
  · split
    · exact ⟨by simp, id⟩
    · exact ⟨h, id⟩
  · exact ⟨h, id⟩

theorem staysAlive_suspend (h : x.stateNext ≠ .dead) : StaysAlive x x.suspend := by
  rw [Fiber.suspend]
  split
  · exact ⟨by simp, fun hd => by cases hd⟩
  · exact ⟨by simp, fun hd => by cases hd⟩
  · exact ⟨by simp, fun hd => by cases hd⟩
  · exact ⟨by simp, id⟩
  all_goals exact ⟨h, id⟩

theorem staysAlive_resume (h : x.stateNext ≠ .dead) : StaysAlive x x.resume := by
  rw [Fiber.resume]
  split
  · split
    · exact ⟨by simp, fun hd => by cases hd⟩
    · exact ⟨h, fun hd => absurd hd h⟩
  · exact ⟨h, id⟩

end Fiber

theorem outcome_already [Inhabited T] (futureException : Bool) (fiberAlreadyDead : E) :
    (already futureException fiberAlreadyDead : Item T E).outcome ≠ none := by
  rw [already]
  split
  · simp [Item.outcome]
  · simp [Item.outcome]

variable [DecidableEq F] {s t : TypedFiber F O T E}

omit [DecidableEq O] in
theorem inv_init : Inv (init F O T E) where
  futures := fun _ => Future.invariant_idle
  next := by simp [init, Fiber.construct]
  dead := fun h => by cases h
  exit := fun h => by cases h

omit [DecidableEq O] in
theorem Inv.deadSettled (h : Inv s) : DeadSettled s := by
  intro hdead o ho
  have hvalid := h.dead hdead o ho
  refine ⟨hvalid, ?_⟩
  obtain hpending | ⟨item, hdone⟩ := (h.futures o).either
  · rw [hpending.value] at hvalid
    cases hvalid
  · exact hdone.queue

omit [DecidableEq F] in
/-- The future is set, or it was valid already. -/
theorem setFuture_spec (hfutures : ∀ o, Future.Invariant (s.futures o)) {item : Item T E}
    (hitem : item.outcome ≠ none) :
    (∀ o, Future.Invariant ((s.setFuture item).futures o)) ∧ (s.setFuture item).Settled ∧
      (s.setFuture item).fiber = s.fiber := by
  rw [setFuture]
  split
  · rename_i ho
    exact ⟨hfutures, fun o ho' => (by cases ho.symm.trans ho'), rfl⟩
  · rename_i o ho
    have hself : ∀ o', s.mFuture = some o' → o' = o := fun o' ho' =>
      Option.some.inj (ho'.symm.trans ho)
    split
    · rename_i hvalid
      refine ⟨hfutures, fun o' ho' => ?_, rfl⟩
      rw [hself o' ho']
      exact hvalid
    · rename_i hvalid
      obtain ⟨hassign, hassigned⟩ :=
        (hfutures o).assign (Bool.eq_false_iff.2 hvalid) hitem
      refine ⟨?_, fun o' ho' => ?_, rfl⟩
      · exact (Function.forall_update_iff s.futures fun _ => Future.Invariant).2
          ⟨hassign, fun o' _ => hfutures o'⟩
      · rw [hself o' ho']
        dsimp only
        rw [Function.update_self]
        exact hassigned

omit [DecidableEq O] in
/-- The fiber changes, and does not die. -/
theorem Inv.setFiber (h : Inv s) {x : Fiber} (hx : StaysAlive s.fiber x) :
    Inv (s.setFiber x) :=
  ⟨h.futures, hx.next, fun hd => h.dead (hx.state hd), h.exit⟩

omit [DecidableEq O] in
/-- The fiber dies, when its future is set. -/
theorem Inv.kill (h : Inv s) (hsettled : s.Settled) : Inv (s.setFiber s.fiber.kill) :=
  ⟨h.futures, h.next, fun _ => hsettled, h.exit⟩

/-- The fiber has returned from its function, and its future is set. -/
theorem Inv.setFuture (h : Inv s) {item : Item T E} (hitem : item.outcome ≠ none) :
    Inv (s.setFuture item) ∧ (s.setFuture item).Settled := by
  obtain ⟨hfutures, hsettled, hfiber⟩ := setFuture_spec h.futures hitem
  refine ⟨⟨hfutures, ?_, fun _ => hsettled, fun _ => hsettled⟩, hsettled⟩
  rw [hfiber]
  exact h.next

omit [DecidableEq O] in
theorem Inv.setCode (h : Inv s) {c : Code} (hc : c = .exit → s.Settled) : Inv (s.setCode c) :=
  ⟨h.futures, h.next, h.dead, hc⟩

theorem Inv.registerFuture (h : Inv s) {dead : Item T E} (hdead : dead.outcome ≠ none) {o : O}
    (hok : s.code = .exit → s.fiber.state ≠ .dead → (s.futures o).data.value.valid = true) :
    Inv (s.registerFuture dead o) := by
  have hsettled : ∀ o', some o = some o' → (s.futures o).data.value.valid = true →
      (s.futures o').data.value.valid = true := by
    intro o' ho' hvalid
    rw [← Option.some.inj ho']
    exact hvalid
  rw [TypedFiber.registerFuture]
  dsimp only
  split
  · obtain ⟨hfutures, hsettled, hfiber⟩ :=
      setFuture_spec (s := { s with mFuture := some o }) h.futures hdead
    refine ⟨hfutures, ?_, fun _ => hsettled, fun _ => hsettled⟩
    rw [hfiber]
    exact h.next
  · rename_i hstate
    exact ⟨h.futures, h.next, fun hd => absurd hd hstate,
      fun hc o' ho' => hsettled o' ho' (hok hc hstate)⟩

theorem Inv.withFuture (h : Inv s) {dead : Item T E} (hdead : dead.outcome ≠ none) {o : O}
    (hok : s.code = .exit → s.fiber.state ≠ .dead → s.mFuture ≠ none) :
    Inv (s.withFuture dead o) := by
  rw [TypedFiber.withFuture]
  cases ho : s.mFuture with
  | some o' => exact h
  | none =>
      have hnew : Inv { s with
          futures := Function.update s.futures o (.idle (.init T E)) } := by
        refine ⟨?_, h.next, fun _ o' ho' => ?_, fun _ o' ho' => ?_⟩
        · exact (Function.forall_update_iff s.futures fun _ => Future.Invariant).2
            ⟨Future.invariant_idle, fun o' _ => h.futures o'⟩
        · cases ho.symm.trans ho'
        · cases ho.symm.trans ho'
      exact hnew.registerFuture hdead fun hc hd => absurd ho (hok hc hd)

/-- A fiber uses a future, but does not set it. -/
theorem Inv.use (h : Inv s) {o : O} {l : Monitor.Label F Unit (Future.Call T E)}
    (hl : ∀ f item, l ≠ .call f (.set item)) (hs : s.use o l = some t) : Inv t := by
  obtain ⟨future, hfuture, rfl⟩ := Option.map_eq_some_iff.1 hs
  have hsettled : s.Settled →
      Settled { s with futures := Function.update s.futures o future } := by
    intro hsettled
    apply (Function.forall_update_iff s.futures fun o' future' =>
      s.mFuture = some o' → future'.data.value.valid = true).2
    refine ⟨fun ho => ?_, fun o' _ => hsettled o'⟩
    exact (h.futures o).valid_step hl hfuture (hsettled o ho)
  refine ⟨?_, h.next, fun hd => hsettled (h.dead hd), fun hc => hsettled (h.exit hc)⟩
  exact (Function.forall_update_iff s.futures fun _ => Future.Invariant).2
    ⟨(h.futures o).step (Future.setOnce_of_ne hl) hfuture, fun o' _ => h.futures o'⟩

/-- The step lemma. -/
theorem Inv.step [Inhabited T] (h : Inv s) {futureException : Bool} {fiberAlreadyDead : E}
    {l : Label F O T E} (hok : EndsSettled futureException s l)
    (hs : step futureException fiberAlreadyDead s l = some t) : Inv t := by
  have hdead := outcome_already (T := T) futureException fiberAlreadyDead
  have hexit : ∀ {x : TypedFiber F O T E}, Inv x → x.Settled → Inv (x.setCode .exit) :=
    fun hx hsettled => hx.setCode fun _ => hsettled
  have hvalue : ∀ v, (.value v : Item T E).outcome ≠ none := by simp [Item.outcome]
  have hexception : ∀ e, (.exception (some e) : Item T E).outcome ≠ none := by
    simp [Item.outcome]
  unfold TypedFiber.step at hs
  split at hs
  · cases hs
  · cases l with
    | registerFuture o =>
        obtain rfl := Option.some.inj hs
        exact h.registerFuture hdead hok
    | withFuture o =>
        obtain rfl := Option.some.inj hs
        exact h.withFuture hdead hok
    | init created =>
        obtain ⟨-, hs⟩ := Option.ite_none_right_eq_some.1 hs
        obtain rfl := Option.some.inj hs
        cases created with
        | true => exact h.setFiber (staysAlive_init h.next)
        | false => exact h.kill (hok.resolve_left (by simp))
    | start =>
        obtain ⟨-, hs⟩ := Option.ite_none_right_eq_some.1 hs
        obtain rfl := Option.some.inj hs
        apply (h.setFiber (staysAlive_start h.next)).setCode
        intro hc
        split at hc
        · cases hc
        · exact h.exit hc
    | stop =>
        obtain rfl := Option.some.inj hs
        exact h.setFiber (staysAlive_stop h.next)
    | nap =>
        obtain rfl := Option.some.inj hs
        exact h.setFiber (staysAlive_nap h.next)
    | wakeup =>
        obtain rfl := Option.some.inj hs
        exact h.setFiber (staysAlive_wakeup h.next)
    | suspend =>
        obtain rfl := Option.some.inj hs
        exact h.setFiber (staysAlive_suspend h.next)
    | resume =>
        obtain rfl := Option.some.inj hs
        exact h.setFiber (staysAlive_resume h.next)
    | returns v =>
        obtain ⟨-, hs⟩ := Option.ite_none_right_eq_some.1 hs
        obtain rfl := Option.some.inj hs
        obtain ⟨hset, hsettled⟩ := h.setFuture (hvalue v)
        exact hexit hset hsettled
    | throws e =>
        obtain ⟨-, hs⟩ := Option.ite_none_right_eq_some.1 hs
        obtain rfl := Option.some.inj hs
        cases futureException with
        | true =>
            obtain ⟨hset, hsettled⟩ := h.setFuture (hexception e)
            exact hexit hset hsettled
        | false => exact hexit h (hok.resolve_left (by simp))
    | exited =>
        obtain ⟨⟨hc, -⟩, hs⟩ := Option.ite_none_right_eq_some.1 hs
        obtain rfl := Option.some.inj hs
        exact (h.kill (h.exit hc)).setCode fun hc => by cases hc
    | kill =>
        obtain rfl := Option.some.inj hs
        exact h.kill hok
    | wait o f =>
        exact h.use (by simp) hs
    | value o f =>
        exact h.use (by simp) hs
    | go o f =>
        exact h.use (by simp) hs

/-- In every run in which the fiber is not killed while its future is not valid, no such future is
registered while it executes its exit hooks, and what it throws can be put in its future: the
future of a dead fiber is valid, and nobody is blocked in it. -/
theorem deadSettled_of_endsSettled [Inhabited T] (futureException : Bool) (fiberAlreadyDead : E)
    {ls : List (Label F O T E)} {u : TypedFiber F O T E}
    (hg : Transition.Guarded (TypedFiber.step futureException fiberAlreadyDead)
      (EndsSettled futureException) (init F O T E) ls)
    (hr : Transition.run (TypedFiber.step futureException fiberAlreadyDead) (init F O T E) ls =
      some u) : DeadSettled u :=
  (hg.invariant (fun _ _ _ h hok hs => h.step hok hs) inv_init hr : Inv u).deadSettled

/-- The fiber gets a future, fiber 2 waits for it, and the function of the fiber returns. -/
def returnsWhileWaitedFor : List (Label ℕ ℕ ℕ ℕ) :=
  [.init true, .withFuture 0, .start, .wait 0 2, .returns 5, .exited]

theorem deadSettled_of_endsSettled_returnsWhileWaitedFor :
    ∃ u, Transition.run (TypedFiber.step true 9) (init ℕ ℕ ℕ ℕ) returnsWhileWaitedFor = some u ∧
      u.fiber.state = .dead ∧ u.mFuture = some 0 ∧ DeadSettled u := by
  have hg : Transition.Guarded (TypedFiber.step true 9) (EndsSettled true) (init ℕ ℕ ℕ ℕ)
      returnsWhileWaitedFor :=
    .cons (Or.inl rfl) rfl (.cons (fun h => by cases h) rfl (.cons trivial rfl
      (.cons trivial rfl (.cons trivial rfl (.cons trivial rfl trivial)))))
  have hr : ∃ u, Transition.run (TypedFiber.step true 9) (init ℕ ℕ ℕ ℕ) returnsWhileWaitedFor =
      some u ∧ u.fiber.state = .dead ∧ u.mFuture = some 0 := ⟨_, rfl, rfl, rfl⟩
  obtain ⟨u, hr, hdead, ho⟩ := hr
  exact ⟨u, hr, hdead, ho, deadSettled_of_endsSettled true 9 hg hr⟩

/-- The fiber gets a future, fiber 2 waits for it, and the fiber is killed. -/
def killedWhileWaitedFor : List (Label ℕ ℕ ℕ ℕ) :=
  [.init true, .withFuture 0, .start, .wait 0 2, .kill]

/-- Nobody sets the future of the fiber that is killed, and who waits for it stays blocked. -/
theorem killed_not_settled :
    ∃ u, Transition.run (TypedFiber.step true 9) (init ℕ ℕ ℕ ℕ) killedWhileWaitedFor = some u ∧
      u.fiber.state = .dead ∧ u.mFuture = some 0 ∧ (u.futures 0).queue () = [2] ∧
      ¬ DeadSettled u := by
  refine ⟨_, rfl, rfl, rfl, rfl, fun h => ?_⟩
  obtain ⟨hvalid, -⟩ := h rfl 0 rfl
  cases hvalid

end TypedFiber

end Zth
