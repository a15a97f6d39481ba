import Zth.Fsm.Step

/-!
# Push and pop

The action `push` saves a state on a stack, and `pop` goes back to it. What is saved is
the previous state. For a transition with a target that is the state it was taken in. For
one without a target it is the state before that one, or the dummy if there was none.
-/

namespace Zth

namespace Fsm

open BasicFsm

variable {W D : Type*}

/-- The call changes the stack. -/
def Call.usesStack : Call D → Bool
  | .push => true
  | .pop => true
  | .reset => true
  | _ => false

def Call.Neutral (c : Call D) : Prop := c.usesStack = false

/-- An action that calls `push` or `pop` once, or neither of them. -/
def StackOnce (cs : List (Call D)) : Prop :=
  (∀ c ∈ cs, c.Neutral) ∨
  ∃ pre c post, cs = pre ++ c :: post ∧ (c = .push ∨ c = .pop) ∧
    (∀ c ∈ pre, c.Neutral) ∧ ∀ c ∈ post, c.Neutral

/-- The entry that a step takes, and the calls of its action. -/
def BasicFsm.takes (table : CompiledTable W D) (env : ℕ → W) (m : BasicFsm D) :
    Option (CompiledTransition (Guard W D) (Action W D) × List (Call D)) :=
  match m.findNext table env with
  | some (.enabled i k e, m) =>
      some (e, if i = 0 then [] else e.action (env k) (m.takeTransition i e).logAction)
  | _ => none

/-- A machine with the states in which the transitions were taken that pushed, and are not
popped yet. The code does not have these. -/
structure Traced (D : Type*) where
  fsm : BasicFsm D
  pushers : List ℕ

/-- The calls of the action of a transition that was taken in the state `s`. -/
def trace (s : ℕ) : List ℕ → List (Call D) → List ℕ
  | pushers, [] => pushers
  | pushers, .push :: cs => trace s (s :: pushers) cs
  | pushers, .pop :: cs => trace s pushers.tail cs
  | pushers, _ :: cs => trace s pushers cs

/-- Between the steps nothing is pushed or popped. -/
def Traced.run (table : CompiledTable W D) (t : Traced D) : Op W D → Option (Traced D)
  | .step env =>
      (t.fsm.step table env).map fun r =>
        ⟨r.2, trace t.fsm.state t.pushers (((t.fsm.takes table env).map (·.2)).getD [])⟩
  | .call c => if c.usesStack then none else (c.run table t.fsm).map fun m => ⟨m, t.pushers⟩

/-- A transition that pushes has a target, or it is taken in the state that is also the
previous one. -/
def PushesCurrent (table : CompiledTable W D) (t : Traced D) : Op W D → Prop
  | .step env => ∀ e cs, t.fsm.takes table env = some (e, cs) → .push ∈ cs →
      e.target ≠ 0 ∨ t.fsm.prev = t.fsm.state
  | .call _ => True

/-- A `pop` goes back to the state in which the transition of the matching `push` was
taken, and the dummy is never on the stack. -/
structure Disciplined (table : CompiledTable W D) (t : Traced D) : Prop where
  stack : t.fsm.stack = t.pushers
  nonzero : 0 ∉ t.fsm.stack
  pop : ∀ env e cs s pushers, t.fsm.takes table env = some (e, cs) → .pop ∈ cs →
    t.pushers = s :: pushers → ∃ p m, t.fsm.step table env = some (p, m) ∧ m.state = s ∧
      m.stack = pushers

theorem Call.Neutral.ne {c : Call D} (h : c.Neutral) : c ≠ .push ∧ c ≠ .pop ∧ c ≠ .reset := by
  refine ⟨?_, ?_, ?_⟩
  all_goals
    rintro rfl
    cases h

theorem trace_neutral {s : ℕ} {pushers : List ℕ} {cs : List (Call D)}
    (h : ∀ c ∈ cs, c.Neutral) : trace s pushers cs = pushers := by
  induction cs with
  | nil => rfl
  | cons c cs ih =>
      have hc := h c List.mem_cons_self
      have ih := ih fun c hc => h c (List.mem_cons_of_mem _ hc)
      cases c with
      | push => cases hc
      | pop => cases hc
      | _ => exact ih

theorem trace_append (s : ℕ) (pushers : List ℕ) (cs cs' : List (Call D)) :
    trace s pushers (cs ++ cs') = trace s (trace s pushers cs) cs' := by
  induction cs generalizing pushers with
  | nil => rfl
  | cons c cs ih => cases c <;> exact ih _

/-- The last transition has an input symbol, if it is said to be taken on one. -/
def InputKnown (table : CompiledTable W D) (m : BasicFsm D) : Prop :=
  m.flags .input = true → ∃ e s, table[m.transition]? = some e ∧ e.trigger = .input s

theorem Trigger.isInput_iff {G : Type*} (t : Trigger G) :
    t.isInput = true ↔ ∃ s, t = .input s := by
  cases t with
  | guard g => exact iff_of_false (by simp [isInput]) (by simp)
  | input s => exact iff_of_true rfl ⟨s, rfl⟩

/-- The flag is set exactly if the recorded transition has an input symbol. -/
theorem inputKnown_iff {table : CompiledTable W D} {m : BasicFsm D} :
    InputKnown table m ↔
      (m.flags .input = true → ∃ e, table[m.transition]? = some e ∧ e.trigger.isInput) := by
  simp only [InputKnown, Trigger.isInput_iff]
  constructor
  · intro h hflag
    obtain ⟨e, s, he, hs⟩ := h hflag
    exact ⟨e, he, s, hs⟩
  · intro h hflag
    obtain ⟨e, he, s, hs⟩ := h hflag
    exact ⟨e, s, he, hs⟩

theorem InputKnown.triggeredBy {table : CompiledTable W D} {m : BasicFsm D}
    (h : InputKnown table m) : ∃ s, m.triggeredBy table = some s := by
  rw [BasicFsm.triggeredBy, flag]
  cases hflag : m.flags .input with
  | false => exact ⟨none, rfl⟩
  | true =>
      obtain ⟨⟨_, a, st, target⟩, s, he, rfl⟩ := h hflag
      exact ⟨s, by rw [he]; rfl⟩

theorem InputKnown.congr {table : CompiledTable W D} {m m' : BasicFsm D}
    (h : InputKnown table m) (hinput : m'.flags .input = m.flags .input)
    (htransition : m'.transition = m.transition) : InputKnown table m' := by
  intro hflag
  rw [htransition]
  exact h (hinput ▸ hflag)

theorem Call.Neutral.samePlace {table : CompiledTable W D} {m m' : BasicFsm D} {c : Call D}
    (hc : c.Neutral) (h : c.run table m = some m') : SamePlace m m' := by
  rcases Call.run_cases h with ⟨heq, -⟩ | ⟨heq, -⟩ | ⟨heq, -⟩ | ⟨-, -, -, hsame⟩
  · exact absurd heq hc.ne.1
  · exact absurd heq hc.ne.2.1
  · exact absurd heq hc.ne.2.2
  · exact hsame

/-- A call that does not change the stack succeeds. -/
theorem Call.Neutral.exists_run {table : CompiledTable W D} {m : BasicFsm D} {c : Call D}
    (hc : c.Neutral) (h : InputKnown table m) :
    ∃ m', c.run table m = some m' ∧ SamePlace m m' := by
  have hsome : ∃ m', c.run table m = some m' := by
    cases c with
    | pop => cases hc
    | consume =>
        obtain ⟨s, hs⟩ := h.triggeredBy
        exact ⟨_, by rw [Call.run, hs]; rfl⟩
    | _ => exact ⟨_, rfl⟩
  obtain ⟨m', hm'⟩ := hsome
  refine ⟨m', hm', ?_⟩
  exact hc.samePlace hm'

theorem exists_run_neutral {table : CompiledTable W D} {m : BasicFsm D} {cs : List (Call D)}
    (hcs : ∀ c ∈ cs, c.Neutral) (h : InputKnown table m) :
    ∃ m', Transition.run (Call.run table) m cs = some m' ∧ SamePlace m m' := by
  induction cs generalizing m with
  | nil => exact ⟨m, rfl, .refl m⟩
  | cons c cs ih =>
      obtain ⟨m₁, hrun, hsame⟩ := (hcs c List.mem_cons_self).exists_run h
      obtain ⟨m', hrun', hsame'⟩ := ih (fun c hc => hcs c (List.mem_cons_of_mem _ hc))
        (h.congr hsame.input hsame.transition)
      exact ⟨m', Transition.run_cons_eq_some_iff.2 ⟨m₁, hrun, hrun'⟩, hsame.trans hsame'⟩

/-- An action with a call that does touch the stack, up to that call. -/
theorem run_around {table : CompiledTable W D} {m : BasicFsm D} {pre : List (Call D)}
    (hpre : ∀ c ∈ pre, c.Neutral) (h : InputKnown table m) :
    ∃ m₁, SamePlace m m₁ ∧ ∀ c post, Transition.run (Call.run table) m (pre ++ c :: post) =
      (c.run table m₁).bind fun m₂ => Transition.run (Call.run table) m₂ post := by
  obtain ⟨m₁, hrun, hsame⟩ := exists_run_neutral hpre h
  exact ⟨m₁, hsame, fun c post => by rw [Transition.run_append, hrun]; rfl⟩

theorem exists_run_push {table : CompiledTable W D} {m : BasicFsm D} {pre post : List (Call D)}
    (hpre : ∀ c ∈ pre, c.Neutral) (hpost : ∀ c ∈ post, c.Neutral) (h : InputKnown table m) :
    ∃ m', Transition.run (Call.run table) m (pre ++ .push :: post) = some m' ∧
      m'.stack = m.prev :: m.stack := by
  obtain ⟨m₁, hsame, hrun⟩ := run_around hpre h
  have hknown : InputKnown table m₁.push :=
    h.congr (by simpa [push] using hsame.input) hsame.transition
  obtain ⟨m', hrun', hsame'⟩ := exists_run_neutral hpost hknown
  refine ⟨m', (hrun .push post).trans hrun', ?_⟩
  rw [hsame'.stack, ← hsame.prev, ← hsame.stack]
  rfl

theorem exists_run_pop {table : CompiledTable W D} {m : BasicFsm D} {pre post : List (Call D)}
    {s : ℕ} {stack : List ℕ} (hpre : ∀ c ∈ pre, c.Neutral) (hpost : ∀ c ∈ post, c.Neutral)
    (h : InputKnown table m) (hstack : m.stack = s :: stack) (hs : s ≠ 0) :
    ∃ m', Transition.run (Call.run table) m (pre ++ .pop :: post) = some m' ∧ m'.state = s ∧
      m'.stack = stack := by
  obtain ⟨m₁, hsame, hrun⟩ := run_around hpre h
  have hpop : m₁.pop = some (m₁.popTo s stack) :=
    pop_eq_some_iff.2 ⟨s, stack, hsame.stack.trans hstack, hs, rfl⟩
  have hknown : InputKnown table (m₁.popTo s stack) := by
    intro hflag
    simp [popTo] at hflag
  obtain ⟨m', hrun', hsame'⟩ := exists_run_neutral hpost hknown
  obtain ⟨hstate, -, hstack', -⟩ := popTo_spec s stack m₁
  refine ⟨m', ?_, hsame'.state.trans hstate, hsame'.stack.trans hstack'⟩
  rw [hrun .pop post, Call.run, hpop]
  exact hrun'

/-- There must be something to pop. -/
theorem run_pop_of_nil {table : CompiledTable W D} {m : BasicFsm D} {pre post : List (Call D)}
    (hpre : ∀ c ∈ pre, c.Neutral) (h : InputKnown table m) (hstack : m.stack = []) :
    Transition.run (Call.run table) m (pre ++ .pop :: post) = none := by
  obtain ⟨m₁, hsame, hrun⟩ := run_around hpre h
  rw [hrun .pop post, Call.run, pop, hsame.stack, hstack]
  rfl

/-- The machine `m'` in which the action of the entry `e` is run makes the calls `cs`. -/
structure Fires (table : CompiledTable W D) (env : ℕ → W) (m : BasicFsm D)
    (e : CompiledTransition (Guard W D) (Action W D)) (cs : List (Call D))
    (m' : BasicFsm D) : Prop where
  mem : e ∈ table
  calls : cs = [] ∨ ∃ w m₂, cs = e.action w m₂
  prev : m'.prev = if e.target = 0 then m.prev else m.state
  stack : m'.stack = m.stack
  known : InputKnown table m'
  step : m.step table env = (Transition.run (Call.run table) m' cs).map fun m =>
    (.null, if e.target = 0 then m else m.setFlag .entry true)

/-- The flag is set together with the transition. -/
theorem inputKnown_takeTransition {table : CompiledTable W D} {i : ℕ}
    {e : CompiledTransition (Guard W D) (Action W D)} (he : table[i]? = some e)
    (m : BasicFsm D) : InputKnown table (m.takeTransition i e) := by
  obtain ⟨htransition, -, -, -, -, hinput⟩ := takeTransition_keeps i e m
  refine inputKnown_iff.2 fun hflag => ⟨e, by rwa [htransition], ?_⟩
  rwa [hinput] at hflag

theorem takes_spec (table : CompiledTable W D) (env : ℕ → W) (m : BasicFsm D)
    (h : m.state < table.length) :
    (∃ e cs m', m.takes table env = some (e, cs) ∧ Fires table env m e cs m') ∨
    (m.takes table env = none ∧
      ∃ again m', m.step table env = some (again, m') ∧ SamePlace m m') := by
  rcases findNext_spec table env m h with ⟨pre, e, suf, m₁, hblock, hfirst, heq⟩ |
    ⟨again, m₁, hnone, heq⟩
  · have hget := getElem?_of_block hblock
    have hsame := hfirst.same
    obtain ⟨htrans, hstack, -⟩ := takeTransition_keeps (m.state + pre.length) e m₁
    have hstep := step_of_enabled heq
    have hprev : (m₁.takeTransition (m.state + pre.length) e).prev =
        if e.target = 0 then m.prev else m.state := by
      split
      · rename_i ht
        exact (takeTransition_of_zero ht m₁).2.1.trans hsame.prev
      · rename_i ht
        exact (takeTransition_of_ne ht m₁).2.1.trans hsame.state
    set i := m.state + pre.length
    set taken := m₁.takeTransition i e
    have hknown : InputKnown table taken := inputKnown_takeTransition hget m₁
    have hmem := List.mem_of_getElem? hget
    by_cases hi : i = 0
    · refine Or.inl ⟨e, [], taken, by rw [takes, heq]; simp [hi], hmem, Or.inl rfl, hprev,
        hstack.trans hsame.stack, hknown, ?_⟩
      rw [hstep, enter, if_pos (htrans.trans hi)]
      rfl
    · refine Or.inl ⟨e, e.action (env (pre.length + 1)) taken.logAction, taken.logAction,
        by rw [takes, heq]; simp [hi, taken], hmem, Or.inr ⟨_, _, rfl⟩, hprev,
        hstack.trans hsame.stack, hknown, ?_⟩
      rw [hstep, enter_of_ne (htrans ▸ hi) (htrans ▸ hget)]
  · refine Or.inr ⟨by rw [takes, heq], again, _, step_of_blocked heq, ?_⟩
    exact hnone.same.samePlace.trans (samePlace_setFlag .blocked (by decide) true m₁)

/-- No action belongs to the dummy. -/
theorem calls_of_zero {l : List (Transition (Guard W D) (Action W D))}
    {table : CompiledTable W D} (h : compile (builtin W D) l = .ok table) {env : ℕ → W}
    {m : BasicFsm D} (hm : m.state = 0) {e : CompiledTransition (Guard W D) (Action W D)}
    {cs : List (Call D)} (htakes : m.takes table env = some (e, cs)) : cs = [] := by
  cases l with
  | nil =>
      cases h
      rw [takes, findNext, hm] at htakes
      cases htakes
  | cons t ts =>
      obtain ⟨-, es, -, rfl⟩ := (compile_eq_ok_iff (List.cons_ne_nil t ts)).1 h
      rw [takes, findNext_of_zero es env hm] at htakes
      cases htakes
      rfl

theorem stackOnce_of_fires {l : List (Transition (Guard W D) (Action W D))}
    {table : CompiledTable W D} (h : compile (builtin W D) l = .ok table)
    (hl : ∀ t ∈ l, ∀ w m, StackOnce (t.action w m)) {env : ℕ → W} {m m' : BasicFsm D}
    {e : CompiledTransition (Guard W D) (Action W D)} {cs : List (Call D)}
    (hfires : Fires table env m e cs m') : StackOnce cs := by
  have hnil : StackOnce ([] : List (Call D)) :=
    Or.inl fun c hc => absurd hc List.not_mem_nil
  rcases hfires.calls with rfl | ⟨w, m₂, rfl⟩
  · exact hnil
  · rcases action_of_compile h hfires.mem with hnothing | ⟨t, ht, haction⟩
    · rw [hnothing]
      exact hnil
    · rw [haction]
      exact hl t ht w m₂

/-- What is pushed and popped is what the code has on its stack. -/
structure Matched (t : Traced D) : Prop where
  stack : t.fsm.stack = t.pushers
  nonzero : 0 ∉ t.fsm.stack

theorem trace_around {s : ℕ} {pushers : List ℕ} {pre post : List (Call D)} {c : Call D}
    (hpre : ∀ c ∈ pre, c.Neutral) (hpost : ∀ c ∈ post, c.Neutral) :
    trace s pushers (pre ++ c :: post) = trace s pushers [c] := by
  rw [trace_append, trace_neutral hpre, ← List.singleton_append, trace_append,
    trace_neutral hpost]

/-- The calls of an action do to the stack what is traced. -/
theorem stack_of_run {table : CompiledTable W D} {m m' : BasicFsm D} {cs : List (Call D)} {s : ℕ}
    (hcs : StackOnce cs) (h : InputKnown table m) (hzero : 0 ∉ m.stack)
    (hpush : .push ∈ cs → m.prev = s ∧ s ≠ 0)
    (hrun : Transition.run (Call.run table) m cs = some m') :
    m'.stack = trace s m.stack cs ∧ 0 ∉ m'.stack := by
  rcases hcs with hcs | ⟨pre, c, post, rfl, rfl | rfl, hpre, hpost⟩
  · obtain ⟨m₁, hrun₁, hsame⟩ := exists_run_neutral hcs h
    obtain rfl : m₁ = m' := Option.some.inj (hrun₁.symm.trans hrun)
    rw [trace_neutral hcs, hsame.stack]
    exact ⟨rfl, hzero⟩
  · obtain ⟨m₁, hrun₁, hstack⟩ := exists_run_push hpre hpost h
    obtain rfl : m₁ = m' := Option.some.inj (hrun₁.symm.trans hrun)
    obtain ⟨hprev, hs⟩ := hpush (by simp)
    rw [trace_around hpre hpost, hstack, hprev, List.mem_cons, not_or]
    exact ⟨rfl, hs.symm, hzero⟩
  · cases hstack : m.stack with
    | nil =>
        rw [run_pop_of_nil hpre h hstack] at hrun
        cases hrun
    | cons a stack =>
        rw [hstack, List.mem_cons, not_or] at hzero
        obtain ⟨m₁, hrun₁, -, hstack'⟩ :=
          exists_run_pop hpre hpost h hstack (Ne.symm hzero.1)
        obtain rfl : m₁ = m' := Option.some.inj (hrun₁.symm.trans hrun)
        rw [trace_around hpre hpost, hstack']
        exact ⟨rfl, hzero.2⟩

/-- One step. -/
theorem Matched.step {l : List (Transition (Guard W D) (Action W D))}
    {table : CompiledTable W D} (h : compile (builtin W D) l = .ok table)
    (hl : ∀ t ∈ l, ∀ w m, StackOnce (t.action w m)) {t t' : Traced D} {env : ℕ → W}
    (ht : Matched t) (hok : PushesCurrent table t (.step env))
    (hstep : t.run table (.step env) = some t') : Matched t' := by
  obtain ⟨⟨p, m⟩, hm, rfl⟩ := Option.map_eq_some_iff.1 hstep
  rcases takes_spec table env t.fsm (lt_length_of_step hm) with
    ⟨e, cs, m', htakes, hfires⟩ | ⟨htakes, again, m', heq, hsame⟩
  · rw [hfires.step] at hm
    obtain ⟨m₂, hm₂, heq⟩ := Option.map_eq_some_iff.1 hm
    have hstack : m.stack = m₂.stack := by
      rw [← (Prod.mk.inj heq).2]
      split <;> rfl
    have hpush : .push ∈ cs → m'.prev = t.fsm.state ∧ t.fsm.state ≠ 0 := by
      intro hmem
      refine ⟨?_, fun hzero => ?_⟩
      · rw [hfires.prev]
        split
        · rename_i htarget
          exact (hok e cs htakes hmem).resolve_left fun hne => hne htarget
        · rfl
      · rw [calls_of_zero h hzero htakes] at hmem
        cases hmem
    obtain ⟨htrace, hzero⟩ := stack_of_run (stackOnce_of_fires h hl hfires) hfires.known
      (hfires.stack ▸ ht.nonzero) hpush hm₂
    rw [htakes]
    refine ⟨?_, hstack ▸ hzero⟩
    rw [hstack, htrace, hfires.stack, ht.stack]
    rfl
  · rw [heq] at hm
    cases hm
    rw [htakes]
    exact ⟨hsame.stack.trans ht.stack, hsame.stack ▸ ht.nonzero⟩

theorem Matched.run {l : List (Transition (Guard W D) (Action W D))}
    {table : CompiledTable W D} (h : compile (builtin W D) l = .ok table)
    (hl : ∀ t ∈ l, ∀ w m, StackOnce (t.action w m)) {t t' : Traced D} {op : Op W D}
    (ht : Matched t) (hok : PushesCurrent table t op) (hstep : t.run table op = some t') :
    Matched t' := by
  cases op with
  | step env => exact ht.step h hl hok hstep
  | call c =>
      rw [Traced.run] at hstep
      split at hstep
      · cases hstep
      · rename_i hc
        obtain ⟨m', hm', rfl⟩ := Option.map_eq_some_iff.1 hstep
        have hsame := Call.Neutral.samePlace ((Bool.not_eq_true _).mp hc) hm'
        exact ⟨hsame.stack.trans ht.stack, fun hmem => ht.nonzero (hsame.stack ▸ hmem)⟩

theorem Matched.disciplined {l : List (Transition (Guard W D) (Action W D))}
    {table : CompiledTable W D} (h : compile (builtin W D) l = .ok table)
    (hl : ∀ t ∈ l, ∀ w m, StackOnce (t.action w m)) {t : Traced D} (ht : Matched t)
    (hlt : t.fsm.state < table.length) : Disciplined table t := by
  refine ⟨ht.stack, ht.nonzero, fun env e cs s pushers htakes hpop hpushers => ?_⟩
  rcases takes_spec table env t.fsm hlt with ⟨e', cs', m', htakes', hfires⟩ | ⟨hnone, -⟩
  · obtain ⟨rfl, rfl⟩ := Prod.mk.inj (Option.some.inj (htakes'.symm.trans htakes))
    have hstack : m'.stack = s :: pushers := hfires.stack.trans (ht.stack.trans hpushers)
    have hs : s ≠ 0 := by
      rintro rfl
      refine ht.nonzero ?_
      rw [ht.stack, hpushers]
      exact List.mem_cons_self
    rcases stackOnce_of_fires h hl hfires with hcs | ⟨pre, c, post, rfl, rfl | rfl, hpre, hpost⟩
    · exact absurd rfl (hcs _ hpop).ne.2.1
    · rcases List.mem_append.1 hpop with hpop | hpop
      · exact absurd rfl (hpre _ hpop).ne.2.1
      · exact absurd rfl (hpost _ ((List.mem_cons.1 hpop).resolve_left nofun)).ne.2.1
    · obtain ⟨m₂, hrun, hstate, hstack'⟩ := exists_run_pop hpre hpost hfires.known hstack hs
      refine ⟨.null, if e'.target = 0 then m₂ else m₂.setFlag .entry true, ?_, ?_, ?_⟩
      · rw [hfires.step, hrun]
        rfl
      · split <;> exact hstate
      · split <;> exact hstack'
  · rw [hnone] at htakes
    cases htakes

theorem Traced.op_run {table : CompiledTable W D} {t t' : Traced D} {op : Op W D}
    (h : t.run table op = some t') : op.run table t.fsm = some t'.fsm := by
  cases op with
  | step env =>
      obtain ⟨r, hr, rfl⟩ := Option.map_eq_some_iff.1 h
      rw [Op.run, hr]
      rfl
  | call c =>
      rw [Traced.run] at h
      split at h
      · cases h
      · obtain ⟨m', hm', rfl⟩ := Option.map_eq_some_iff.1 h
        exact hm'

/-- In every run in which the transitions that push have a target, or are taken in the
state that is also the previous one: every `pop` goes back to the state in which the
transition of the matching `push` was taken, and the dummy is never on the stack. -/
theorem disciplined_of_pushesCurrent {l : List (Transition (Guard W D) (Action W D))}
    {table : CompiledTable W D} (h : compile (builtin W D) l = .ok table)
    (hl : ∀ t ∈ l, ∀ w m, StackOnce (t.action w m)) (d : D) (ops : List (Op W D)) (t : Traced D)
    (hg : Transition.Guarded (Traced.run table) (PushesCurrent table) ⟨init d, []⟩ ops)
    (hr : Transition.run (Traced.run table) ⟨init d, []⟩ ops = some t) :
    Disciplined table t := by
  have hinit : Matched (⟨init d, []⟩ : Traced D) := ⟨rfl, List.not_mem_nil⟩
  have hplaced : Placed (AtState l) t.fsm :=
    Transition.run_invariant (P := fun t => Placed (AtState l) t.fsm)
      (fun _ _ _ hm hrun => placed_op h hm (Traced.op_run hrun)) (placed_init l d) hr
  have hmatched : Matched t :=
    hg.invariant (fun _ _ _ ht hok hrun => ht.run h hl hok hrun) hinit hr
  exact hmatched.disciplined h hl (Placed.lt_length h hplaced)

theorem stackOnce_push : StackOnce ([.push] : List (Call D)) :=
  Or.inr ⟨[], .push, [], rfl, Or.inl rfl, nofun, nofun⟩

theorem stackOnce_pop : StackOnce ([.pop] : List (Call D)) :=
  Or.inr ⟨[], .pop, [], rfl, Or.inr rfl, nofun, nofun⟩

/-- State `a` pushes on its way to state `b`, on input `x`. State `b` pops. -/
def pushesAway : List (Transition (Guard Unit Unit) (Action Unit Unit)) :=
  [⟨letterA, (builtin Unit Unit).never, letterX, action .push,
      letterB⟩,
    ⟨letterB, (builtin Unit Unit).always, none, action .pop, none⟩]

/-- From the dummy to `a`, and on to `b`. -/
def twoSteps : List (Op Unit Unit) :=
  [.call (.input letterX), .step fun _ => (), .step fun _ => ()]

theorem disciplined_pushesAway :
    ∃ table t, compile (builtin Unit Unit) pushesAway = .ok table ∧
      Transition.run (Traced.run table) ⟨init (), []⟩ twoSteps = some t ∧ t.pushers = [1] ∧
      Disciplined table t := by
  refine ⟨_, _, rfl, rfl, rfl,
    disciplined_of_pushesCurrent (l := pushesAway) rfl ?_ () twoSteps _ ?_ rfl⟩
  · intro t ht w m
    simp only [pushesAway, List.mem_cons, List.not_mem_nil, or_false] at ht
    rcases ht with rfl | rfl
    · exact stackOnce_push
    · exact stackOnce_pop
  · refine .cons trivial rfl (.cons ?_ rfl (.cons ?_ rfl trivial))
    · intro e cs hcs hmem
      cases hcs
      cases hmem
    · intro e cs hcs _
      cases hcs
      exact Or.inl (by decide)

/-- State `a` pushes on input `x` and pops on input `y`, and has no other state to go to. -/
def pushesInPlace : List (Transition (Guard Unit Unit) (Action Unit Unit)) :=
  [⟨letterA, (builtin Unit Unit).never, letterX, action .push, none⟩,
    ⟨none, (builtin Unit Unit).never, letterY, action .pop, none⟩]

/-- It pushes, and then `y` is registered. -/
def pushedInPlace : List (Op Unit Unit) :=
  [.call (.input letterX), .step fun _ => (), .step fun _ => (),
    .call (.clearInput letterX), .call (.input letterY)]

/-- The dummy is on the stack, although the push was taken in state 1, and an assertion
fails in the next step. -/
theorem not_disciplined_pushesInPlace :
    ∃ table t, compile (builtin Unit Unit) pushesInPlace = .ok table ∧
      Transition.run (Traced.run table) ⟨init (), []⟩ pushedInPlace = some t ∧
      t.fsm.state = 1 ∧ t.fsm.stack = [0] ∧ t.pushers = [1] ∧
      t.fsm.step table (fun _ => ()) = none ∧ ¬ Disciplined table t := by
  refine ⟨_, _, rfl, rfl, rfl, rfl, rfl, rfl, fun h => h.nonzero ?_⟩
  exact List.mem_singleton_self 0

end Fsm

end Zth
