import Zth.Sync.Mailbox

/-!
# The fiber-aware future

A future is set once, and all fibers that wait for it are woken then. `wait` does not
test the future again when it was blocked: it relies on `set` being the only one to
wake a fiber. `value` waits, and then reads the value or is thrown the exception.

The future without a value, `Future<void>`, is the one with a value of type `Unit`.
-/

namespace Zth

namespace Future

open Monitor SynchronizerBase Mailbox

/-- The calls on a future. -/
inductive Call (T E : Type*) where
  | wait
  | value
  | set (item : Item T E)
deriving DecidableEq, Repr

/-- The code of a future: a call, or what is left of `wait` or of `value` when it was
blocked. -/
inductive Code (T E : Type*) where
  | enter (c : Call T E)
  | waited
  | valued
deriving DecidableEq, Repr

/-- `value` is the future. The code does not have the others: the items that were set,
whether the future was valid at each return of the waits, and what the calls of `value`
returned or were thrown. -/
structure Data (T E : Type*) where
  value : Optional T E
  sets : List (Item T E)
  waits : List Bool
  values : List (Option (Except E T))

namespace Data

variable {T E : Type*}

/-- A new future. -/
def init (T E : Type*) : Data T E := ⟨.reset, [], [], []⟩

/-- A wait returns. -/
def returned (d : Data T E) : Data T E := { d with waits := d.waits ++ [d.value.valid] }

/-- A wait returns, and the value is read. -/
def read (d : Data T E) : Data T E :=
  { d.returned with values := d.values ++ [d.value.outcome] }

/-- The future is set. It is asserted not to be valid before. -/
def setItem (item : Item T E) (d : Data T E) : Data T E :=
  { d with value := .set item, sets := d.sets ++ [item] }

end Data

variable {F T E : Type*}

/-- `set`, without the assertion that the future is not valid. -/
def assign (item : Item T E) (s : State F Unit (Code T E) (Data T E)) :
    State F Unit (Code T E) (Data T E) :=
  (unblockAll () (s.setData (s.data.setItem item))).1

variable [DecidableEq F]

/-- The code of the future. -/
def exec (_ : F) (c : Code T E) (s : State F Unit (Code T E) (Data T E)) :
    State F Unit (Code T E) (Data T E) × Outcome Unit (Code T E) :=
  match c with
  | .enter .wait =>
      if s.data.value.valid then (s.setData s.data.returned, .done) else (s, .block () .waited)
  | .enter .value =>
      if s.data.value.valid then (s.setData s.data.read, .done) else (s, .block () .valued)
  | .enter (.set item) => ((unblockAll () (s.setData (s.data.setItem item))).1, .done)
  | .waited => (s.setData s.data.returned, .done)
  | .valued => (s.setData s.data.read, .done)

/-- The future as a monitor. -/
def program (F T E : Type*) [DecidableEq F] : Program F Unit (Code T E) (Data T E) where
  exec := exec
  expired _ := none

/-- One step of a future. -/
def step : State F Unit (Code T E) (Data T E) → Label F Unit (Call T E) →
    Option (State F Unit (Code T E) (Data T E)) :=
  (program F T E).stepBy .enter

/-- The future is set once, to a value or to an exception. -/
def SetOnce (s : State F Unit (Code T E) (Data T E)) : Label F Unit (Call T E) → Prop
  | .call _ (.set item) => item.outcome ≠ none ∧ s.data.sets = []
  | _ => True

/-- Nothing was set and nobody was woken. -/
structure Pending (s : State F Unit (Code T E) (Data T E)) : Prop where
  value : s.data.value.valid = false
  sets : s.data.sets = []
  woken : s.woken = []
  waits : s.data.waits = []
  values : s.data.values = []

/-- An item was set, nobody is blocked, and everybody gets that item. -/
structure Done (item : Item T E) (s : State F Unit (Code T E) (Data T E)) : Prop where
  isSome : item.outcome ≠ none
  value : s.data.value.outcome = item.outcome
  sets : s.data.sets = [item]
  queue : s.queue () = []
  waits : ∀ b ∈ s.data.waits, b = true
  values : ∀ o ∈ s.data.values, o = item.outcome

omit [DecidableEq F] in
theorem Done.valid {item : Item T E} {s : State F Unit (Code T E) (Data T E)}
    (h : Done item s) : s.data.value.valid = true := by
  rw [← Bool.not_eq_false, ← Optional.outcome_eq_none_iff, h.value]
  exact h.isSome

omit [DecidableEq F] in
theorem Done.returned {item : Item T E} {s : State F Unit (Code T E) (Data T E)}
    (h : Done item s) : Done item (s.setData s.data.returned) := by
  refine ⟨h.isSome, h.value, h.sets, h.queue, fun b hb => ?_, h.values⟩
  rw [State.setData_data, Data.returned, List.mem_append, List.mem_singleton] at hb
  rcases hb with hb | rfl
  · exact h.waits b hb
  · exact h.valid

omit [DecidableEq F] in
theorem Done.read {item : Item T E} {s : State F Unit (Code T E) (Data T E)}
    (h : Done item s) : Done item (s.setData s.data.read) := by
  refine ⟨h.isSome, h.value, h.sets, h.queue, h.returned.waits, fun o ho => ?_⟩
  rw [State.setData_data, Data.read, List.mem_append, List.mem_singleton] at ho
  rcases ho with ho | rfl
  · exact h.values o ho
  · exact h.value

/-- Once the future is set, it stays as it is. -/
theorem Done.exec {item : Item T E} {s : State F Unit (Code T E) (Data T E)}
    (h : Done item s) (f : F) {c : Code T E} (hc : ∀ item, c ≠ .enter (.set item)) :
    Done item (State.finish f ((program F T E).exec f c s)) := by
  cases c with
  | waited => exact h.returned
  | valued => exact h.read
  | enter c =>
      cases c with
      | wait =>
          simp only [program, Future.exec, h.valid, if_true]
          exact h.returned
      | value =>
          simp only [program, Future.exec, h.valid, if_true]
          exact h.read
      | set item => exact absurd rfl (hc item)

omit [DecidableEq F] in
/-- Who is blocked is woken when the future is set. -/
theorem Pending.assign {s : State F Unit (Code T E) (Data T E)} (h : Pending s)
    {item : Item T E} (hitem : item.outcome ≠ none) : Done item (assign item s) := by
  refine ⟨hitem, Optional.outcome_set item, ?_, ?_, ?_, ?_⟩
  · change s.data.sets ++ [item] = [item]
    rw [h.sets, List.nil_append]
  · simp [Future.assign, unblockAll, State.wakeAll]
  · intro b hb
    change b ∈ s.data.waits at hb
    rw [h.waits] at hb
    cases hb
  · intro o ho
    change o ∈ s.data.values at ho
    rw [h.values] at ho
    cases ho

/-- Until the future is set, everybody who asks for it is blocked. -/
theorem Pending.exec {s : State F Unit (Code T E) (Data T E)} (h : Pending s) (f : F)
    (c : Call T E) (hc : ∀ item, c = .set item → item.outcome ≠ none) :
    Pending (State.finish f ((program F T E).exec f (.enter c) s)) ∨
      ∃ item, Done item (State.finish f ((program F T E).exec f (.enter c) s)) := by
  cases c with
  | wait =>
      refine Or.inl ?_
      simp only [program, Future.exec, h.value, Bool.false_eq_true, if_false]
      exact ⟨h.value, h.sets, h.woken, h.waits, h.values⟩
  | value =>
      refine Or.inl ?_
      simp only [program, Future.exec, h.value, Bool.false_eq_true, if_false]
      exact ⟨h.value, h.sets, h.woken, h.waits, h.values⟩
  | set item =>
      exact Or.inr ⟨item, h.assign (hc item rfl)⟩

/-- The future is pending, or done. -/
structure Invariant (s : State F Unit (Code T E) (Data T E)) : Prop where
  code : s.CodeAll fun c => ∀ c', c ≠ .enter c'
  either : Pending s ∨ ∃ item, Done item s

theorem code_exec {s : State F Unit (Code T E) (Data T E)}
    (h : s.CodeAll fun c => ∀ c', c ≠ .enter c') (f : F) (c : Code T E) :
    (State.finish f ((program F T E).exec f c s)).CodeAll fun c => ∀ c', c ≠ .enter c' := by
  cases c with
  | waited => exact h
  | valued => exact h
  | enter c =>
      cases c with
      | wait =>
          simp only [program, Future.exec]
          split
          · exact h
          · exact h.finish_block f () (by simp)
      | value =>
          simp only [program, Future.exec]
          split
          · exact h
          · exact h.finish_block f () (by simp)
      | set item => exact h

theorem Invariant.step {s t : State F Unit (Code T E) (Data T E)}
    {l : Label F Unit (Call T E)} (h : Invariant s) (hok : SetOnce s l)
    (hstep : step s l = some t) : Invariant t := by
  rcases Program.stepBy_cases hstep with ⟨f, c, rfl, -, rfl⟩ | ⟨f, c, -, hc, hw, rfl⟩ |
    ⟨q, f, c, c', -, -, he, -, -⟩
  · refine ⟨code_exec h.code f _, ?_⟩
    rcases h.either with hp | ⟨item, hd⟩
    · refine hp.exec f c fun item hc => ?_
      subst hc
      exact hok.1
    · refine Or.inr ⟨item, hd.exec f fun item' hc => ?_⟩
      obtain rfl : c = .set item' := Code.enter.inj hc
      have hnil := hok.2
      rw [hd.sets] at hnil
      cases hnil
  · refine ⟨code_exec (h.code.start f) f c, ?_⟩
    rcases h.either with hp | ⟨item, hd⟩
    · rw [hp.woken] at hw
      cases hw
    · have hstart : Done item (s.start f) :=
        ⟨hd.isSome, hd.value, hd.sets, hd.queue, hd.waits, hd.values⟩
      exact Or.inr ⟨item, hstart.exec f fun item' => h.code f c hc (.set item')⟩
  · cases he

omit [DecidableEq F] in
theorem Invariant.assign {s : State F Unit (Code T E) (Data T E)} (h : Invariant s)
    (hvalid : s.data.value.valid = false) {item : Item T E} (hitem : item.outcome ≠ none) :
    Invariant (Future.assign item s) ∧ (Future.assign item s).data.value.valid = true := by
  rcases h.either with hp | ⟨item', hd⟩
  · have hdone := hp.assign hitem
    exact ⟨⟨h.code, Or.inr ⟨item, hdone⟩⟩, hdone.valid⟩
  · rw [hd.valid] at hvalid
    cases hvalid

omit [DecidableEq F] in
theorem setOnce_of_ne {s : State F Unit (Code T E) (Data T E)} {l : Label F Unit (Call T E)}
    (hl : ∀ f item, l ≠ .call f (.set item)) : SetOnce s l := by
  cases l with
  | resume f => trivial
  | expire q f => trivial
  | call f c =>
      cases c with
      | wait => trivial
      | value => trivial
      | set item => exact absurd rfl (hl f item)

/-- A future stays valid. -/
theorem Invariant.valid_step {s t : State F Unit (Code T E) (Data T E)} (h : Invariant s)
    {l : Label F Unit (Call T E)} (hl : ∀ f item, l ≠ .call f (.set item))
    (hstep : Future.step s l = some t) (hvalid : s.data.value.valid = true) :
    t.data.value.valid = true := by
  rcases h.either with hp | ⟨item, hd⟩
  · rw [hp.value] at hvalid
    cases hvalid
  · rcases Program.stepBy_cases hstep with ⟨f, c, rfl, -, rfl⟩ | ⟨f, c, -, hc, -, rfl⟩ |
      ⟨q, f, c, c', -, -, he, -⟩
    · refine (hd.exec f fun item' hset => hl f item' ?_).valid
      rw [Code.enter.inj hset]
    · have hstart : Done item (s.start f) :=
        ⟨hd.isSome, hd.value, hd.sets, hd.queue, hd.waits, hd.values⟩
      exact (hstart.exec f fun item' => h.code f c hc (.set item')).valid
    · cases he

/-- A wait that is not blocked returns when the future is valid. -/
theorem valid_of_wait {s t : State F Unit (Code T E) (Data T E)} {f : F}
    (hstep : Future.step s (.call f .wait) = some t) (hcode : t.code f = none) :
    s.data.value.valid = true := by
  rcases Program.stepBy_cases hstep with ⟨f', c, heq, -, rfl⟩ | ⟨f', c, heq, -⟩ |
    ⟨q, f', c, c', heq, -⟩
  · cases heq
    by_contra hvalid
    simp only [program, exec, hvalid, if_false, State.finish_block_code,
      Function.update_self] at hcode
    cases hcode
  · cases heq
  · cases heq

/-- A fiber that was blocked goes on when the future is valid. -/
theorem Invariant.valid_of_resume {s t : State F Unit (Code T E) (Data T E)} (h : Invariant s)
    {f : F} (hstep : Future.step s (.resume f) = some t) : s.data.value.valid = true := by
  rcases Program.stepBy_cases hstep with ⟨f', c, heq, -⟩ | ⟨f', c, heq, -, hw, -⟩ |
    ⟨q, f', c, c', heq, -⟩
  · cases heq
  · rcases h.either with hp | ⟨item, hd⟩
    · rw [hp.woken] at hw
      cases hw
    · exact hd.valid
  · cases heq

omit [DecidableEq F] in
theorem invariant_idle : Invariant (State.idle (Data.init T E) :
    State F Unit (Code T E) (Data T E)) where
  code f c hf := by simp [State.idle] at hf
  either := Or.inl ⟨rfl, rfl, rfl, rfl, rfl⟩

/-- In every interleaving with one `set`: a wait only returns when the future is valid,
every call of `value` gets what was set, and nobody is left in the queue of a valid
future. -/
theorem one_shot_broadcast (ls : List (Label F Unit (Call T E)))
    (s : State F Unit (Code T E) (Data T E))
    (hset : Transition.Guarded step SetOnce (State.idle (Data.init T E)) ls)
    (hr : Transition.run step (State.idle (Data.init T E)) ls = some s) :
    (∀ b ∈ s.data.waits, b = true) ∧
      (∀ o ∈ s.data.values, ∃ item, s.data.sets = [item] ∧ o = item.outcome ∧ o ≠ none) ∧
      (s.data.value.valid = true → s.queue () = []) := by
  have h : Invariant s := hset.invariant (fun _ _ _ hs hok hstep => hs.step hok hstep)
    invariant_idle hr
  rcases h.either with hp | ⟨item, hd⟩
  · refine ⟨?_, ?_, fun hv => ?_⟩
    · rw [hp.waits]
      exact fun b hb => absurd hb List.not_mem_nil
    · rw [hp.values]
      exact fun o ho => absurd ho List.not_mem_nil
    · rw [hp.value] at hv
      cases hv
  · refine ⟨hd.waits, fun o ho => ⟨item, hd.sets, hd.values o ho, ?_⟩, fun _ => hd.queue⟩
    rw [hd.values o ho]
    exact hd.isSome

/-- Fiber 1 asks for the value and fiber 2 waits. The future is set to an exception, and
fiber 3 asks for the value after that. -/
def askedBeforeAndAfter : List (Label ℕ Unit (Call ℕ ℕ)) :=
  [.call 1 .value, .call 2 .wait, .call 4 (.set (.exception (some 7))), .call 3 .value,
    .resume 2, .resume 1]

theorem one_shot_broadcast_askedBeforeAndAfter :
    ∃ s, Transition.run step (State.idle (Data.init ℕ ℕ)) askedBeforeAndAfter = some s ∧
      s.data.values = [some (.error 7), some (.error 7)] ∧ s.data.waits.length = 3 ∧
      ∀ b ∈ s.data.waits, b = true := by
  refine ⟨_, rfl, rfl, rfl, (one_shot_broadcast askedBeforeAndAfter _ ?_ rfl).1⟩
  exact .cons trivial rfl (.cons trivial rfl (.cons ⟨by simp [Item.outcome], rfl⟩ rfl
    (.cons trivial rfl (.cons trivial rfl (.cons trivial rfl trivial)))))

end Future

end Zth
