import Zth.Fsm.Step

/-!
# A step in pieces

A guard or an action may hand the processor to other fibers. So a step is not one action, but a
number of pieces, and between two of them others may use the machine: before a guard is evaluated,
after that, and before and after each call that an action makes.

When nobody uses the machine meanwhile, the pieces are a step.
-/

namespace Zth

namespace Fsm

/-- Where `step` is: it is about to poll an entry, has polled it, is about to run the action of
the transition it takes, has still to make some calls of that action, or has returned. -/
inductive StepCode (D : Type*) where
  | polling (i : ℕ) (again : TimeInterval)
  | polled (i : ℕ) (again p : TimeInterval)
  | entering (moved : Bool)
  | acting (moved : Bool) (calls : List (Call D))
  | returned (p : TimeInterval)

variable {W D : Type*}

/-- The entry does not belong to the state of the one before it. -/
def endsAt (table : CompiledTable W D) (i : ℕ) : Bool :=
  match table[i]? with
  | none => true
  | some e => e.state.valid

namespace BasicFsm

/-- The machine is about to make a step. -/
def start (m : BasicFsm D) : StepCode D := .polling m.state (guardPollInterval false)

/-- The next piece of a step. -/
def advance (table : CompiledTable W D) (x : BasicFsm D × StepCode D) (w : W) :
    Option (BasicFsm D × StepCode D) :=
  match x with
  | (m, .polling i again) =>
      table[i]?.map fun e => ((m.enabled w e.trigger).2, .polled i again (m.enabled w e.trigger).1)
  | (m, .polled i again p) =>
      table[i]?.map fun e =>
        if p.hasPassed then (m.takeTransition i e, .entering (e.target != 0))
        else if endsAt table (i + 1) then (m.setFlag .blocked true, .returned (shortest p again))
        else (m, .polling (i + 1) (shortest p again))
  | (m, .entering moved) =>
      if m.transition = 0 then some (m, .acting moved [])
      else table[m.transition]?.map fun e => (m.logAction, .acting moved (e.action w m.logAction))
  | (m, .acting moved (c :: calls)) => (c.run table m).map fun m => (m, .acting moved calls)
  | (m, .acting moved []) =>
      some (if moved then m.setFlag .entry true else m, .returned (guardPollInterval true))
  | (_, .returned _) => none

/-- Where the loop of `step` ends. -/
def afterLoop : Found W D × BasicFsm D → BasicFsm D × StepCode D
  | (.enabled i _ e, m) => (m.takeTransition i e, .entering (e.target != 0))
  | (.blocked again, m) => (m.setFlag .blocked true, .returned again)

variable {table : CompiledTable W D}

/-- An entry is polled in two pieces. -/
theorem run_poll {i : ℕ} {e : CompiledTransition (Guard W D) (Action W D)}
    (he : table[i]? = some e) (m : BasicFsm D) (again : TimeInterval) (w : W)
    (ws : List W) :
    Transition.run (advance table) (m, .polling i again) (w :: w :: ws) =
      Transition.run (advance table)
        (if (m.enabled w e.trigger).1.hasPassed then
          ((m.enabled w e.trigger).2.takeTransition i e, .entering (e.target != 0))
        else if endsAt table (i + 1) then
          ((m.enabled w e.trigger).2.setFlag .blocked true,
            .returned (shortest (m.enabled w e.trigger).1 again))
        else ((m.enabled w e.trigger).2,
          .polling (i + 1) (shortest (m.enabled w e.trigger).1 again))) ws := by
  rw [Transition.run_cons, advance, he, Option.map_some, Option.bind_some, Transition.run_cons,
    advance, he, Option.map_some, Option.bind_some]

theorem endsAt_of_drop {i : ℕ} {e : CompiledTransition (Guard W D) (Action W D)}
    {rest : CompiledTable W D} (h : table.drop i = e :: rest) :
    table[i]? = some e ∧ table.drop (i + 1) = rest ∧
      endsAt table (i + 1) = rest.head?.elim true fun e => e.state.valid := by
  have hdrop : table.drop (i + 1) = rest := by
    rw [← List.drop_drop, h]
    rfl
  refine ⟨?_, hdrop, ?_⟩
  · rw [← List.head?_drop, h]
    rfl
  · rw [endsAt, ← List.head?_drop, hdrop]
    cases rest <;> rfl

/-- The loop of `step` in pieces. -/
theorem exists_pieces_findEnabled (env : ℕ → W) {i : ℕ} (k : ℕ) (again : TimeInterval)
    (m : BasicFsm D) {e : CompiledTransition (Guard W D) (Action W D)} {rest : CompiledTable W D}
    (h : table.drop i = e :: rest) :
    ∃ ws, Transition.run (advance table) (m, .polling i again) ws =
      some (afterLoop (findEnabled env i k again m e rest)) := by
  induction rest generalizing i k again m e with
  | nil =>
      obtain ⟨he, -, hend⟩ := endsAt_of_drop h
      refine ⟨[env k, env k], ?_⟩
      rw [run_poll he, findEnabled, hend]
      cases (m.enabled (env k) e.trigger).1.hasPassed <;> rfl
  | cons e' rest ih =>
      obtain ⟨he, hdrop, hend⟩ := endsAt_of_drop h
      rw [List.head?_cons, Option.elim_some] at hend
      cases hp : (m.enabled (env k) e.trigger).1.hasPassed with
      | true =>
          refine ⟨[env k, env k], ?_⟩
          rw [run_poll he, findEnabled, hp]
          rfl
      | false =>
          cases hv : e'.state.valid with
          | true =>
              refine ⟨[env k, env k], ?_⟩
              rw [run_poll he, findEnabled, hp, hend, hv]
              rfl
          | false =>
              obtain ⟨ws, hws⟩ := ih (k + 1) (shortest (m.enabled (env k) e.trigger).1 again)
                (m.enabled (env k) e.trigger).2 hdrop
              refine ⟨env k :: env k :: ws, ?_⟩
              rw [run_poll he, findEnabled, hp, hend, hv]
              exact hws

/-- The calls of an action, one by one. -/
theorem exists_pieces_calls {m m' : BasicFsm D} {calls : List (Call D)} (w : W) (moved : Bool)
    (h : Transition.run (Call.run table) m calls = some m') :
    ∃ ws, Transition.run (advance table) (m, .acting moved calls) ws =
      some (if moved then m'.setFlag .entry true else m', .returned (guardPollInterval true)) := by
  induction calls generalizing m with
  | nil =>
      rw [Transition.run_nil] at h
      cases h
      exact ⟨[w], rfl⟩
  | cons c calls ih =>
      obtain ⟨m₁, hc, hrun⟩ := Transition.run_cons_eq_some_iff.1 h
      obtain ⟨ws, hws⟩ := ih hrun
      refine ⟨w :: ws, ?_⟩
      rw [Transition.run_cons, advance, hc]
      exact hws

/-- The action of the transition that is taken. -/
theorem exists_pieces_enter {w : W} {m m' : BasicFsm D} (moved : Bool)
    (h : m.enter table w = some m') :
    ∃ ws, Transition.run (advance table) (m, .entering moved) ws =
      some (if moved then m'.setFlag .entry true else m', .returned (guardPollInterval true)) := by
  by_cases hzero : m.transition = 0
  · rw [enter, if_pos hzero] at h
    cases h
    refine ⟨[w, w], ?_⟩
    rw [Transition.run_cons, advance, if_pos hzero]
    rfl
  · rw [enter, if_neg hzero] at h
    cases he : table[m.transition]? with
    | none =>
        rw [he] at h
        cases h
    | some e =>
        rw [he] at h
        obtain ⟨ws, hws⟩ := exists_pieces_calls w moved h
        refine ⟨w :: ws, ?_⟩
        rw [Transition.run_cons, advance, if_neg hzero, he]
        exact hws

/-- A step, when nobody else uses the machine meanwhile. -/
theorem exists_pieces {env : ℕ → W} {m m' : BasicFsm D} {p : TimeInterval}
    (h : m.step table env = some (p, m')) :
    ∃ ws, Transition.run (advance table) (m, m.start) ws = some (m', .returned p) := by
  have hlt := lt_length_of_step h
  obtain ⟨e, rest, hdrop⟩ : ∃ e rest, table.drop m.state = e :: rest :=
    List.exists_cons_of_ne_nil (by simpa using hlt)
  obtain ⟨ws, hws⟩ := exists_pieces_findEnabled env 0 (guardPollInterval false) m hdrop
  have hnext : m.findNext table env =
      some (findEnabled env m.state 0 (guardPollInterval false) m e rest) := by
    rw [findNext, hdrop]
  cases hfound : findEnabled env m.state 0 (guardPollInterval false) m e rest with
  | mk found m₁ =>
      rw [hfound] at hws hnext
      cases found with
      | blocked again =>
          rw [step_of_blocked hnext] at h
          cases h
          exact ⟨ws, hws⟩
      | enabled i k e' =>
          rw [step_of_enabled hnext] at h
          obtain ⟨m₂, henter, heq⟩ := Option.map_eq_some_iff.1 h
          obtain ⟨ws', hws'⟩ := exists_pieces_enter (e'.target != 0) henter
          refine ⟨ws ++ ws', ?_⟩
          rw [Transition.run_append, start, hws, Option.bind_some]
          refine hws'.trans ?_
          obtain ⟨rfl, rfl⟩ := Prod.mk.inj heq
          by_cases ht : e'.target = 0
          · simp [ht, guardPollInterval]
          · simp [ht, guardPollInterval]

end BasicFsm

end Fsm

end Zth
