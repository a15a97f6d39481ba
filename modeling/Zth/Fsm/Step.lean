import Zth.Fsm.Basic
import Zth.Fsm.Compile

/-!
# What a step does

A step polls the transitions of the current state in the order they are written down, up
to the first one that is enabled, which is taken. The states are those of the list that
was compiled; the array and its indices do not appear in that description, except that
the machine knows its state by the index of the first entry.
-/

namespace Zth

namespace Fsm

variable {W D : Type*}

namespace BasicFsm

/-- Poll one after the other: the intervals, and the machine afterwards. The `k`th poll of
a step is made in the world `env k`. -/
def pollAll (env : ℕ → W) (k : ℕ) (m : BasicFsm D) :
    List (Trigger (Guard W D)) → List TimeInterval × BasicFsm D
  | [] => ([], m)
  | t :: ts =>
      let r := m.enabled (env k) t
      let rs := pollAll env (k + 1) r.2 ts
      (r.1 :: rs.1, rs.2)

/-- All that is not changed by polling. -/
structure SameButEntry (m m' : BasicFsm D) : Prop where
  flags : ∀ f, f ≠ .entry → m'.flags f = m.flags f
  prev : m'.prev = m.prev
  transition : m'.transition = m.transition
  state : m'.state = m.state
  stack : m'.stack = m.stack
  inputs : m'.inputs = m.inputs
  data : m'.data = m.data
  log : m'.log = m.log

theorem SameButEntry.refl (m : BasicFsm D) : SameButEntry m m :=
  ⟨fun _ _ => rfl, rfl, rfl, rfl, rfl, rfl, rfl, rfl⟩

theorem SameButEntry.trans {m m' m'' : BasicFsm D} (h : SameButEntry m m')
    (h' : SameButEntry m' m'') : SameButEntry m m'' where
  flags f hf := (h'.flags f hf).trans (h.flags f hf)
  prev := h'.prev.trans h.prev
  transition := h'.transition.trans h.transition
  state := h'.state.trans h.state
  stack := h'.stack.trans h.stack
  inputs := h'.inputs.trans h.inputs
  data := h'.data.trans h.data
  log := h'.log.trans h.log

theorem sameButEntry_entry (m : BasicFsm D) : SameButEntry m m.entry.1 := by
  rw [entry]
  split
  · exact ⟨fun f hf => Function.update_of_ne hf _ _, rfl, rfl, rfl, rfl, rfl, rfl, rfl⟩
  · exact .refl m

theorem sameButEntry_enabled (w : W) (t : Trigger (Guard W D)) (m : BasicFsm D) :
    SameButEntry m (m.enabled w t).2 := by
  cases t with
  | input i => exact .refl m
  | guard g =>
      rw [enabled]
      split
      · exact sameButEntry_entry m
      · exact .refl m

theorem sameButEntry_pollAll (env : ℕ → W) (k : ℕ) (m : BasicFsm D)
    (ts : List (Trigger (Guard W D))) : SameButEntry m (m.pollAll env k ts).2 := by
  induction ts generalizing k m with
  | nil => exact .refl m
  | cons t ts ih => exact (sameButEntry_enabled (env k) t m).trans (ih _ _)

/-- None of the triggers `pre` is enabled, but `t` is; `m'` is the machine after polling
them. -/
structure FirstEnabled (env : ℕ → W) (k : ℕ) (m : BasicFsm D)
    (pre : List (Trigger (Guard W D))) (t : Trigger (Guard W D)) (m' : BasicFsm D) : Prop where
  disabled : ∀ p ∈ (m.pollAll env k pre).1, p.hasPassed = false
  enabled : ((m.pollAll env k pre).2.enabled (env (k + pre.length)) t).1.hasPassed = true
  polled : ((m.pollAll env k pre).2.enabled (env (k + pre.length)) t).2 = m'

/-- None of the triggers is enabled; `again` is what the loop saved of the intervals, and
`m'` is the machine after polling them. -/
structure NoneEnabled (env : ℕ → W) (k : ℕ) (m : BasicFsm D) (again : TimeInterval)
    (ts : List (Trigger (Guard W D))) (again' : TimeInterval) (m' : BasicFsm D) : Prop where
  disabled : ∀ p ∈ (m.pollAll env k ts).1, p.hasPassed = false
  polled : (m.pollAll env k ts).2 = m'
  saved : (m.pollAll env k ts).1.foldl (fun again p => shortest p again) again = again'

theorem FirstEnabled.nil {env : ℕ → W} {k : ℕ} {m : BasicFsm D} {t : Trigger (Guard W D)}
    (h : (m.enabled (env k) t).1.hasPassed = true) :
    FirstEnabled env k m [] t (m.enabled (env k) t).2 :=
  ⟨fun _ hp => absurd hp List.not_mem_nil, h, rfl⟩

theorem FirstEnabled.cons {env : ℕ → W} {k : ℕ} {m m' : BasicFsm D}
    {u t : Trigger (Guard W D)} {pre : List (Trigger (Guard W D))}
    (hu : (m.enabled (env k) u).1.hasPassed = false)
    (h : FirstEnabled env (k + 1) (m.enabled (env k) u).2 pre t m') :
    FirstEnabled env k m (u :: pre) t m' := by
  have hlen : k + (u :: pre).length = k + 1 + pre.length := by
    rw [List.length_cons]
    omega
  refine ⟨?_, hlen ▸ h.enabled, hlen ▸ h.polled⟩
  intro p hp
  rcases List.mem_cons.1 hp with rfl | hp
  · exact hu
  · exact h.disabled p hp

theorem NoneEnabled.cons {env : ℕ → W} {k : ℕ} {m m' : BasicFsm D} {again again' : TimeInterval}
    {u : Trigger (Guard W D)} {ts : List (Trigger (Guard W D))}
    (hu : (m.enabled (env k) u).1.hasPassed = false)
    (h : NoneEnabled env (k + 1) (m.enabled (env k) u).2
      (shortest (m.enabled (env k) u).1 again) ts again' m') :
    NoneEnabled env k m again (u :: ts) again' m' := by
  refine ⟨?_, h.polled, h.saved⟩
  intro p hp
  rcases List.mem_cons.1 hp with rfl | hp
  · exact hu
  · exact h.disabled p hp

theorem NoneEnabled.nil (env : ℕ → W) (k : ℕ) (m : BasicFsm D) (again : TimeInterval) :
    NoneEnabled env k m again [] again m :=
  ⟨fun _ hp => absurd hp List.not_mem_nil, rfl, rfl⟩

theorem FirstEnabled.same {env : ℕ → W} {k : ℕ} {m m' : BasicFsm D} {t : Trigger (Guard W D)}
    {pre : List (Trigger (Guard W D))} (h : FirstEnabled env k m pre t m') :
    SameButEntry m m' := by
  rw [← h.polled]
  exact (sameButEntry_pollAll env k m pre).trans (sameButEntry_enabled _ t _)

theorem NoneEnabled.same {env : ℕ → W} {k : ℕ} {m m' : BasicFsm D} {again again' : TimeInterval}
    {ts : List (Trigger (Guard W D))} (h : NoneEnabled env k m again ts again' m') :
    SameButEntry m m' := by
  rw [← h.polled]
  exact sameButEntry_pollAll env k m ts

/-- The loop finds the first entry of the block that is enabled, or none of them is. -/
theorem findEnabled_spec (env : ℕ → W) (i k : ℕ) (again : TimeInterval) (m : BasicFsm D)
    (e : CompiledTransition (Guard W D) (Action W D)) (rest : CompiledTable W D) :
    (∃ pre e' suf m', e :: rest.takeWhile (fun e => !e.state.valid) = pre ++ e' :: suf ∧
      FirstEnabled env k m (pre.map (·.trigger)) e'.trigger m' ∧
      findEnabled env i k again m e rest =
        (.enabled (i + pre.length) (k + pre.length + 1) e', m')) ∨
    ∃ again' m', NoneEnabled env k m again
        ((e :: rest.takeWhile fun e => !e.state.valid).map (·.trigger)) again' m' ∧
      findEnabled env i k again m e rest = (.blocked again', m') := by
  induction rest generalizing i k again m e with
  | nil =>
      rw [findEnabled]
      cases hp : (m.enabled (env k) e.trigger).1.hasPassed with
      | true => exact Or.inl ⟨[], e, [], _, rfl, .nil hp, rfl⟩
      | false => exact Or.inr ⟨_, _, (NoneEnabled.nil _ _ _ _).cons hp, rfl⟩
  | cons e' rest ih =>
      rw [findEnabled]
      cases hp : (m.enabled (env k) e.trigger).1.hasPassed with
      | true => exact Or.inl ⟨[], e, _, _, rfl, .nil hp, rfl⟩
      | false =>
          cases hv : e'.state.valid with
          | true =>
              rw [List.takeWhile_cons_of_neg (by simp [hv])]
              exact Or.inr ⟨_, _, (NoneEnabled.nil _ _ _ _).cons hp, rfl⟩
          | false =>
              rw [List.takeWhile_cons_of_pos (by simp [hv])]
              simp only [Bool.false_eq_true, if_false]
              rcases ih (i + 1) (k + 1) (shortest (m.enabled (env k) e.trigger).1 again)
                (m.enabled (env k) e.trigger).2 e' with
                ⟨pre, e'', suf, m', hes, hfirst, heq⟩ | ⟨again', m', hnone, heq⟩
              · refine Or.inl ⟨e :: pre, e'', suf, m', ?_, hfirst.cons hp, ?_⟩
                · rw [hes, List.cons_append]
                · rw [heq, List.length_cons]
                  congr 2 <;> omega
              · exact Or.inr ⟨again', m', hnone.cons hp, heq⟩

/-- What the loop saved is smaller than the intervals, and it is one of them or what it
started with. -/
theorem foldl_shortest (ps : List TimeInterval) (again : TimeInterval) :
    (∀ p ∈ again :: ps, ps.foldl (fun again p => shortest p again) again ≤ p) ∧
      ps.foldl (fun again p => shortest p again) again ∈ again :: ps := by
  induction ps generalizing again with
  | nil => simp
  | cons p ps ih =>
      have hmin : shortest p again = min p again := by
        rw [shortest, min_def_lt]
        exact if_congr (TimeInterval.less_iff p again) rfl rfl
      obtain ⟨hle, hmem⟩ := ih (shortest p again)
      have hhead := hle _ List.mem_cons_self
      rw [List.foldl_cons]
      refine ⟨fun q hq => ?_, ?_⟩
      · rcases List.mem_cons.1 hq with rfl | hq
        · exact hhead.trans (hmin ▸ min_le_right p q)
        · rcases List.mem_cons.1 hq with rfl | hq
          · exact hhead.trans (hmin ▸ min_le_left q again)
          · exact hle q (List.mem_cons_of_mem _ hq)
      · rcases List.mem_cons.1 hmem with heq | hmem
        · rw [heq, hmin]
          rcases min_choice p again with h | h <;> simp [h]
        · exact List.mem_cons_of_mem _ (List.mem_cons_of_mem _ hmem)

theorem findNext_spec (table : CompiledTable W D) (env : ℕ → W) (m : BasicFsm D)
    (h : m.state < table.length) :
    (∃ pre e suf m', block table m.state = pre ++ e :: suf ∧
      FirstEnabled env 0 m (pre.map (·.trigger)) e.trigger m' ∧
      m.findNext table env = some (.enabled (m.state + pre.length) (pre.length + 1) e, m')) ∨
    ∃ again m', NoneEnabled env 0 m .infinity ((block table m.state).map (·.trigger)) again m' ∧
      m.findNext table env = some (.blocked again, m') := by
  have hpos : 0 < (table.drop m.state).length := by
    rw [List.length_drop]
    omega
  obtain ⟨e, rest, hdrop⟩ := List.exists_cons_of_ne_nil (List.ne_nil_of_length_pos hpos)
  have hblock : block table m.state = e :: rest.takeWhile fun e => !e.state.valid := by
    rw [block, ← List.drop_drop, hdrop]
    rfl
  rw [hblock, findNext, hdrop]
  rcases findEnabled_spec env m.state 0 (guardPollInterval false) m e rest with
    ⟨pre, e', suf, m', hes, hfirst, heq⟩ | ⟨again, m', hnone, heq⟩
  · refine Or.inl ⟨pre, e', suf, m', hes, hfirst, ?_⟩
    simp only [heq, Nat.zero_add]
  · exact Or.inr ⟨again, m', hnone, congrArg some heq⟩

theorem step_of_enabled {table : CompiledTable W D} {env : ℕ → W} {m m' : BasicFsm D} {i k : ℕ}
    {e : CompiledTransition (Guard W D) (Action W D)}
    (h : m.findNext table env = some (.enabled i k e, m')) :
    m.step table env = (enter table (env k) (m'.takeTransition i e)).map
      fun m => (.null, if e.target = 0 then m else m.setFlag .entry true) := by
  rw [step, h]
  rfl

theorem step_of_blocked {table : CompiledTable W D} {env : ℕ → W} {m m' : BasicFsm D}
    {again : TimeInterval} (h : m.findNext table env = some (.blocked again, m')) :
    m.step table env = some (again, m'.setFlag .blocked true) := by
  rw [step, h]

/-- What a step of the code does, in terms of the entries of the current state. -/
theorem step_spec (table : CompiledTable W D) (env : ℕ → W) (m : BasicFsm D)
    (h : m.state < table.length) :
    (∃ pre e suf m', block table m.state = pre ++ e :: suf ∧
      FirstEnabled env 0 m (pre.map (·.trigger)) e.trigger m' ∧
      m.step table env =
        (enter table (env (pre.length + 1)) (m'.takeTransition (m.state + pre.length) e)).map
          fun m => (.null, if e.target = 0 then m else m.setFlag .entry true)) ∨
    ∃ again m', NoneEnabled env 0 m .infinity ((block table m.state).map (·.trigger)) again m' ∧
      m.step table env = some (again, m'.setFlag .blocked true) := by
  rcases findNext_spec table env m h with ⟨pre, e, suf, m', hblock, hfirst, heq⟩ |
    ⟨again, m', hnone, heq⟩
  · exact Or.inl ⟨pre, e, suf, m', hblock, hfirst, step_of_enabled heq⟩
  · exact Or.inr ⟨again, m', hnone, step_of_blocked heq⟩

theorem lt_length_of_step {table : CompiledTable W D} {env : ℕ → W} {m : BasicFsm D}
    {r : TimeInterval × BasicFsm D} (h : m.step table env = some r) :
    m.state < table.length := by
  by_contra hge
  rw [step, findNext, List.drop_eq_nil_of_le (Nat.le_of_not_lt hge)] at h
  cases h

theorem getElem?_of_block {table : CompiledTable W D} {i : ℕ} {pre suf : CompiledTable W D}
    {e : CompiledTransition (Guard W D) (Action W D)}
    (h : block table i = pre ++ e :: suf) : table[i + pre.length]? = some e := by
  have hprefix : block table i <+: table.drop i := by
    rw [block, ← List.drop_drop]
    cases table.drop i with
    | nil => exact List.prefix_refl _
    | cons a as =>
        refine (List.prefix_cons_inj a).2 ?_
        exact List.takeWhile_prefix _
  obtain ⟨suf', hsuf⟩ := hprefix
  rw [← List.getElem?_drop, ← hsuf, h, List.append_assoc,
    List.getElem?_append_right (Nat.le_refl _), Nat.sub_self]
  rfl

theorem popTo_spec (target : ℕ) (stack : List ℕ) (m : BasicFsm D) :
    (m.popTo target stack).state = target ∧ (m.popTo target stack).prev = m.state ∧
      (m.popTo target stack).stack = stack ∧
      ∃ left : List ℕ, (m.popTo target stack).log = m.log ++ left.map .leave := by
  cases h : m.flags .transition with
  | true =>
      have hflag : ((m.clearFlag .blocked).setFlag .selfloop (m.state == target)).flag
          .transition = true := by simp [flag, h]
      simp only [popTo, hflag, if_true]
      exact ⟨rfl, rfl, rfl, [], by simp⟩
  | false =>
      have hflag : ((m.clearFlag .blocked).setFlag .selfloop (m.state == target)).flag
          .transition = false := by simp [flag, h]
      simp only [popTo, hflag, Bool.false_eq_true, if_false]
      exact ⟨rfl, rfl, rfl, [m.state], rfl⟩

theorem pop_eq_some_iff {m m' : BasicFsm D} :
    m.pop = some m' ↔ ∃ target stack, m.stack = target :: stack ∧ target ≠ 0 ∧
      m' = m.popTo target stack := by
  rw [pop]
  cases hs : m.stack with
  | nil => simp
  | cons target stack =>
      by_cases ht : target = 0
      · simp [ht]
      · simp [ht, eq_comm]

theorem input_of_ne {i : Symbol} (h : i ≠ none) (m : BasicFsm D) :
    m.input i = { m with inputs := m.inputs ++ [i] } := by
  rw [input, if_pos ((Symbol.valid_iff i).2 h)]

theorem hasInput_iff {i : Symbol} (h : i ≠ none) (m : BasicFsm D) :
    m.hasInput i = true ↔ i ∈ m.inputs := by
  rw [hasInput, (Symbol.valid_iff i).2 h, Bool.true_and, List.any_eq_true]
  simp [Symbol.constexprEq_iff]

/-- One occurrence of the symbol is removed, if there is one. -/
theorem clearInput_of_mem {i : Symbol} (h : i ≠ none) {m : BasicFsm D} (hi : i ∈ m.inputs) :
    ∃ inputs, (i :: inputs).Perm m.inputs ∧
      m.clearInput i = ({ m with inputs := inputs }, true) := by
  cases hj : m.inputs.findIdx? fun j => j.constexprEq i with
  | none =>
      have hno := List.findIdx?_eq_none_iff.1 hj i hi
      rw [(Symbol.constexprEq_iff i i).2 rfl] at hno
      cases hno
  | some j =>
      have hget : m.inputs[j]? = some i := by
        obtain ⟨hlt, heq, -⟩ := List.findIdx?_eq_some_iff_getElem.1 hj
        rw [List.getElem?_eq_getElem hlt, (Symbol.constexprEq_iff _ _).1 heq]
      refine ⟨m.inputs.swapRemove j, List.perm_swapRemove hget, ?_⟩
      rw [clearInput, if_pos ((Symbol.valid_iff i).2 h), hj]

/-- The machine stays where it is. -/
structure SamePlace (m m' : BasicFsm D) : Prop where
  input : m'.flags .input = m.flags .input
  prev : m'.prev = m.prev
  transition : m'.transition = m.transition
  state : m'.state = m.state
  stack : m'.stack = m.stack
  log : m'.log = m.log

theorem SamePlace.refl (m : BasicFsm D) : SamePlace m m := ⟨rfl, rfl, rfl, rfl, rfl, rfl⟩

theorem SamePlace.trans {m m' m'' : BasicFsm D} (h : SamePlace m m') (h' : SamePlace m' m'') :
    SamePlace m m'' where
  input := h'.input.trans h.input
  prev := h'.prev.trans h.prev
  transition := h'.transition.trans h.transition
  state := h'.state.trans h.state
  stack := h'.stack.trans h.stack
  log := h'.log.trans h.log

theorem SameButEntry.samePlace {m m' : BasicFsm D} (h : SameButEntry m m') : SamePlace m m' :=
  ⟨h.flags .input nofun, h.prev, h.transition, h.state, h.stack, h.log⟩

theorem samePlace_setFlag (f : Flag) (hf : f ≠ .input) (value : Bool) (m : BasicFsm D) :
    SamePlace m (m.setFlag f value) :=
  ⟨Function.update_of_ne hf.symm _ _, rfl, rfl, rfl, rfl, rfl⟩

theorem samePlace_input (i : Symbol) (m : BasicFsm D) : SamePlace m (m.input i) := by
  rw [input]
  split <;> exact ⟨rfl, rfl, rfl, rfl, rfl, rfl⟩

theorem samePlace_clearInput (i : Symbol) (m : BasicFsm D) :
    SamePlace m (m.clearInput i).1 := by
  rw [clearInput]
  split
  · split <;> exact ⟨rfl, rfl, rfl, rfl, rfl, rfl⟩
  · exact ⟨rfl, rfl, rfl, rfl, rfl, rfl⟩

/-- The indices that the machine holds. -/
structure Placed (P : ℕ → Prop) (m : BasicFsm D) : Prop where
  state : P m.state
  prev : P m.prev
  stack : ∀ i ∈ m.stack, P i

theorem Placed.congr {P : ℕ → Prop} {m m' : BasicFsm D} (h : Placed P m)
    (hstate : m'.state = m.state) (hprev : m'.prev = m.prev) (hstack : m'.stack = m.stack) :
    Placed P m' :=
  ⟨hstate ▸ h.state, hprev ▸ h.prev, hstack ▸ h.stack⟩

/-- What taking a transition does not depend on its target for. -/
theorem takeTransition_keeps (i : ℕ) (e : CompiledTransition (Guard W D) (Action W D))
    (m : BasicFsm D) :
    (m.takeTransition i e).transition = i ∧ (m.takeTransition i e).stack = m.stack ∧
      (m.takeTransition i e).inputs = m.inputs ∧ (m.takeTransition i e).data = m.data ∧
      (m.takeTransition i e).flags .blocked = false ∧
      (m.takeTransition i e).flags .input = e.trigger.isInput := by
  rw [takeTransition]
  dsimp only
  by_cases ht : e.target = 0
  · rw [if_pos ht]
    exact ⟨rfl, rfl, rfl, rfl, by simp, by simp⟩
  · rw [if_neg ht]
    by_cases hs : m.state = 0
    · simp [hs]
    · simp [hs, leave]

theorem takeTransition_of_zero {i : ℕ} {e : CompiledTransition (Guard W D) (Action W D)}
    (h : e.target = 0) (m : BasicFsm D) :
    (m.takeTransition i e).state = m.state ∧ (m.takeTransition i e).prev = m.prev ∧
      (m.takeTransition i e).log = m.log := by
  rw [takeTransition]
  dsimp only
  rw [if_pos h]
  exact ⟨rfl, rfl, rfl⟩

theorem takeTransition_of_ne {i : ℕ} {e : CompiledTransition (Guard W D) (Action W D)}
    (h : e.target ≠ 0) (m : BasicFsm D) :
    (m.takeTransition i e).state = e.target ∧ (m.takeTransition i e).prev = m.state ∧
      (m.takeTransition i e).log =
        if m.state = 0 then m.log else m.log ++ [.leave m.state] := by
  rw [takeTransition]
  dsimp only
  rw [if_neg h]
  by_cases hs : m.state = 0
  · simp [hs]
  · simp [hs, leave]

theorem placed_takeTransition {P : ℕ → Prop} {i : ℕ}
    {e : CompiledTransition (Guard W D) (Action W D)} (htarget : P e.target) {m : BasicFsm D}
    (hm : Placed P m) : Placed P (m.takeTransition i e) := by
  obtain ⟨-, hstack, -⟩ := takeTransition_keeps i e m
  by_cases ht : e.target = 0
  · obtain ⟨hstate, hprev, -⟩ := takeTransition_of_zero (i := i) ht m
    exact hm.congr hstate hprev hstack
  · obtain ⟨hstate, hprev, -⟩ := takeTransition_of_ne (i := i) ht m
    exact ⟨hstate ▸ htarget, hprev ▸ hm.state, hstack ▸ hm.stack⟩

theorem enter_of_ne {table : CompiledTable W D} {w : W} {m : BasicFsm D}
    {e : CompiledTransition (Guard W D) (Action W D)} (h : m.transition ≠ 0)
    (he : table[m.transition]? = some e) :
    enter table w m = Transition.run (Call.run table) m.logAction (e.action w m.logAction) := by
  rw [enter, if_neg h, he]

end BasicFsm

open BasicFsm

/-- What a call does to the place of the machine. -/
theorem Call.run_cases {table : CompiledTable W D} {m m' : BasicFsm D} {c : Call D}
    (h : c.run table m = some m') :
    (c = .push ∧ m' = m.push) ∨
    (c = .pop ∧ ∃ target stack, m.stack = target :: stack ∧ target ≠ 0 ∧
      m' = m.popTo target stack) ∨
    (c = .reset ∧ m' = m.reset) ∨
    (c ≠ .push ∧ c ≠ .pop ∧ c ≠ .reset ∧ SamePlace m m') := by
  have hother : c ≠ .push → c ≠ .pop → c ≠ .reset → SamePlace m m' →
      (c = .push ∧ m' = m.push) ∨
      (c = .pop ∧ ∃ target stack, m.stack = target :: stack ∧ target ≠ 0 ∧
        m' = m.popTo target stack) ∨
      (c = .reset ∧ m' = m.reset) ∨
      (c ≠ .push ∧ c ≠ .pop ∧ c ≠ .reset ∧ SamePlace m m') :=
    fun h₁ h₂ h₃ h₄ => Or.inr (Or.inr (Or.inr ⟨h₁, h₂, h₃, h₄⟩))
  cases c with
  | push => exact Or.inl ⟨rfl, (Option.some.inj h).symm⟩
  | pop => exact Or.inr (Or.inl ⟨rfl, pop_eq_some_iff.1 h⟩)
  | reset => exact Or.inr (Or.inr (Or.inl ⟨rfl, (Option.some.inj h).symm⟩))
  | consume =>
      obtain ⟨i, -, rfl⟩ := Option.map_eq_some_iff.1 h
      exact hother nofun nofun nofun (samePlace_clearInput i m)
  | _ =>
      obtain rfl := Option.some.inj h
      refine hother nofun nofun nofun ?_
      first
        | exact samePlace_input _ m
        | exact samePlace_clearInput _ m
        | exact (sameButEntry_entry m).samePlace
        | exact ⟨rfl, rfl, rfl, rfl, rfl, rfl⟩

/-- A call runs no action. -/
theorem Call.run_log {table : CompiledTable W D} {m m' : BasicFsm D} {c : Call D}
    (h : c.run table m = some m') : ∃ left : List ℕ, m'.log = m.log ++ left.map .leave := by
  rcases Call.run_cases h with ⟨-, rfl⟩ | ⟨-, target, stack, -, -, rfl⟩ | ⟨-, rfl⟩ |
    ⟨-, -, -, hsame⟩
  · exact ⟨[], (List.append_nil _).symm⟩
  · exact (popTo_spec target stack m).2.2.2
  · exact ⟨[], (List.append_nil _).symm⟩
  · exact ⟨[], hsame.log.trans (List.append_nil _).symm⟩

theorem Call.run_calls_log {table : CompiledTable W D} {m m' : BasicFsm D} {cs : List (Call D)}
    (h : Transition.run (Call.run table) m cs = some m') :
    ∃ left : List ℕ, m'.log = m.log ++ left.map .leave := by
  refine Transition.run_invariant (P := fun m' => ∃ left : List ℕ,
    m'.log = m.log ++ left.map .leave) ?_ ⟨[], (List.append_nil _).symm⟩ h
  rintro s c t ⟨left, hleft⟩ hrun
  obtain ⟨left', hleft'⟩ := Call.run_log hrun
  exact ⟨left ++ left', by rw [hleft', hleft, List.map_append, List.append_assoc]⟩

theorem Call.run_placed {P : ℕ → Prop} (hzero : P 0) {table : CompiledTable W D}
    {m m' : BasicFsm D} {c : Call D} (hm : Placed P m) (h : c.run table m = some m') :
    Placed P m' := by
  rcases Call.run_cases h with ⟨-, rfl⟩ | ⟨-, target, stack, hs, -, rfl⟩ | ⟨-, rfl⟩ |
    ⟨-, -, -, hsame⟩
  · refine ⟨hm.state, hm.prev, fun i hi => ?_⟩
    rcases List.mem_cons.1 hi with rfl | hi
    · exact hm.prev
    · exact hm.stack i hi
  · obtain ⟨hstate, hprev, hstack, -⟩ := popTo_spec target stack m
    have hmem : ∀ i ∈ target :: stack, P i := hs ▸ hm.stack
    refine ⟨hstate ▸ hmem target List.mem_cons_self, hprev ▸ hm.state, ?_⟩
    rw [hstack]
    exact fun i hi => hmem i (List.mem_cons_of_mem target hi)
  · exact ⟨hzero, hzero, fun i hi => absurd hi List.not_mem_nil⟩
  · exact hm.congr hsame.state hsame.prev hsame.stack

/-- What a step does to the place of the machine. -/
theorem BasicFsm.step_placed {P : ℕ → Prop} (hzero : P 0) {table : CompiledTable W D}
    (htarget : ∀ e ∈ table, P e.target) {env : ℕ → W} {m m' : BasicFsm D} {p : TimeInterval}
    (hm : Placed P m) (h : m.step table env = some (p, m')) : Placed P m' := by
  rcases step_spec table env m (lt_length_of_step h) with ⟨pre, e, suf, m₁, hblock, hfirst, hstep⟩ |
    ⟨again, m₁, hnone, hstep⟩
  · have hpolled := hfirst.same
    have hm₁ := hm.congr hpolled.state hpolled.prev hpolled.stack
    have htaken : Placed P (m₁.takeTransition (m.state + pre.length) e) :=
      placed_takeTransition (htarget e (List.mem_of_getElem? (getElem?_of_block hblock))) hm₁
    rw [hstep] at h
    obtain ⟨m₂, henter, heq⟩ := Option.map_eq_some_iff.1 h
    have hm₂ : Placed P m₂ := by
      rw [enter] at henter
      split at henter
      · exact Option.some.inj henter ▸ htaken
      · split at henter
        · refine Transition.run_invariant (fun _ _ _ => Call.run_placed hzero) ?_ henter
          exact htaken.congr rfl rfl rfl
        · cases henter
    obtain ⟨-, rfl⟩ := Prod.mk.inj heq
    split
    · exact hm₂
    · exact hm₂.congr rfl rfl rfl
  · rw [hstep] at h
    obtain ⟨-, rfl⟩ := Prod.mk.inj (Option.some.inj h)
    have hpolled := hnone.same
    exact hm.congr hpolled.state hpolled.prev hpolled.stack

/-- The machine is in no state yet, or in one of the list. -/
def AtState (l : List (Transition (Guard W D) (Action W D))) (i : ℕ) : Prop :=
  i = 0 ∨ ∃ s ≠ none, find s l = .ok i

theorem placed_init (l : List (Transition (Guard W D) (Action W D))) (d : D) :
    Placed (AtState l) (init d) :=
  ⟨Or.inl rfl, Or.inl rfl, fun _ hi => absurd hi List.not_mem_nil⟩

theorem placed_op {l : List (Transition (Guard W D) (Action W D))} {table : CompiledTable W D}
    (h : compile (builtin W D) l = .ok table) {m m' : BasicFsm D} {op : Op W D}
    (hm : Placed (AtState l) m) (hop : op.run table m = some m') : Placed (AtState l) m' := by
  cases op with
  | step env =>
      obtain ⟨⟨p, m''⟩, hm'', rfl⟩ := Option.map_eq_some_iff.1 hop
      exact step_placed (Or.inl rfl) (fun e he => target_of_compile h he) hm hm''
  | call c => exact Call.run_placed (Or.inl rfl) hm hop

/-- Whatever is done to a machine, it is always in a state of the list, and so are its
previous state and those on its stack. -/
theorem placed_of_run {l : List (Transition (Guard W D) (Action W D))}
    {table : CompiledTable W D} (h : compile (builtin W D) l = .ok table) {d : D}
    {ops : List (Op W D)} {m : BasicFsm D}
    (hr : Transition.run (Op.run table) (init d) ops = some m) : Placed (AtState l) m :=
  Transition.run_invariant (fun _ _ _ => placed_op h) (placed_init l d) hr

theorem Placed.lt_length {l : List (Transition (Guard W D) (Action W D))}
    {table : CompiledTable W D} (h : compile (builtin W D) l = .ok table) {m : BasicFsm D}
    (hm : Placed (AtState l) m) : m.state < table.length := by
  rcases hm.state with hzero | ⟨s, hs, hfind⟩
  · rw [hzero]
    cases l with
    | nil =>
        cases h
        exact Nat.one_pos
    | cons t ts =>
        obtain ⟨-, es, -, rfl⟩ := (compile_eq_ok_iff (List.cons_ne_nil t ts)).1 h
        exact Nat.succ_pos _
  · obtain ⟨hindex, -⟩ := block_of_compile h hs hfind
    obtain ⟨e, he, -⟩ := (hindex m.state).2 rfl
    exact (List.getElem?_eq_some_iff.1 he).1

/-- The machine `m'` in which the action of the transition `t`, at index `i`, is run. -/
structure Entered (table : CompiledTable W D) (i : ℕ)
    (t : Transition (Guard W D) (Action W D)) (m m' : BasicFsm D) : Prop where
  transition : m'.transition = i
  stack : m'.stack = m.stack
  inputs : m'.inputs = m.inputs
  data : m'.data = m.data
  blocked : m'.flag .blocked = false
  stay : t.target = none →
    m'.state = m.state ∧ m'.prev = m.prev ∧ m'.log = m.log ++ [.action i]
  move : t.target ≠ none →
    IsIndex table t.target m'.state ∧ m'.prev = m.state ∧
      m'.log = m.log ++ [.leave m.state, .action i]

/-- A step takes the transition `t`, behind `pre`: its action is run in the machine `m'`,
and nothing else is. The action `consume` removes the symbol it was taken on. -/
structure Takes (table : CompiledTable W D) (env : ℕ → W) (m : BasicFsm D)
    (pre : List (Transition (Guard W D) (Action W D)))
    (t : Transition (Guard W D) (Action W D)) (m' : BasicFsm D) : Prop where
  first : ∃ m₁, FirstEnabled env 0 m (pre.map (·.trigger)) t.trigger m₁
  entered : Entered table (m.state + pre.length) t m m'
  step : m.step table env =
    (Transition.run (Call.run table) m' (t.action (env (pre.length + 1)) m')).map
      fun m => (.null, if t.target = none then m else m.setFlag .entry true)
  once : ∀ p m'', m.step table env = some (p, m'') →
    ∃ left : List ℕ, m''.log = m'.log ++ left.map .leave
  consume : ∀ s, t.trigger = .input s → t.action = action .consume →
    ∃ inputs, (s :: inputs).Perm m.inputs ∧ m.step table env = some (.null,
      if t.target = none then { m' with inputs := inputs }
      else { m' with inputs := inputs }.setFlag .entry true)

/-- A step that takes no transition of `ts`. -/
structure Blocks (env : ℕ → W) (m : BasicFsm D)
    (ts : List (Transition (Guard W D) (Action W D))) (again : TimeInterval)
    (m' : BasicFsm D) : Prop where
  disabled : ∀ p ∈ (m.pollAll env 0 (ts.map (·.trigger))).1, p.hasPassed = false
  blocked : m'.flag .blocked = true
  place : SamePlace m m'
  inputs : m'.inputs = m.inputs
  data : m'.data = m.data
  least : ∀ p ∈ (m.pollAll env 0 (ts.map (·.trigger))).1, again ≤ p
  attained : (∃ p ∈ (m.pollAll env 0 (ts.map (·.trigger))).1, p.isInfinite = false) →
    again ∈ (m.pollAll env 0 (ts.map (·.trigger))).1
  infinite : (∀ p ∈ (m.pollAll env 0 (ts.map (·.trigger))).1, p.isInfinite = true) →
    again.isInfinite = true

theorem BasicFsm.NoneEnabled.blocks {env : ℕ → W} {m m' : BasicFsm D} {again : TimeInterval}
    {ts : List (Transition (Guard W D) (Action W D))}
    (h : NoneEnabled env 0 m .infinity (ts.map (·.trigger)) again m') :
    Blocks env m ts again (m'.setFlag .blocked true) := by
  obtain ⟨hle, hmem⟩ := foldl_shortest (m.pollAll env 0 (ts.map (·.trigger))).1 .infinity
  rw [h.saved] at hle hmem
  have hsame := h.same
  have hplace := hsame.samePlace.trans (samePlace_setFlag .blocked nofun true m')
  refine ⟨h.disabled, by simp [flag], hplace, hsame.inputs, hsame.data,
    fun p hp => hle p (List.mem_cons_of_mem _ hp), ?_, ?_⟩
  · rintro ⟨p, hp, hfinite⟩
    rcases List.mem_cons.1 hmem with heq | hmem
    · have hlt := TimeInterval.lt_infinity hfinite
      exact absurd (hle p (List.mem_cons_of_mem _ hp)) (heq ▸ not_le.2 hlt)
    · exact hmem
  · intro hall
    rcases List.mem_cons.1 hmem with heq | hmem
    · rw [heq]
      decide
    · exact hall again hmem

theorem Transition.input_ne_none {t : Transition (Guard W D) (Action W D)} {s : Symbol}
    (h : t.trigger = .input s) : s ≠ none := by
  rw [trigger] at h
  split at h
  · cases h
  · rename_i hguard
    cases h
    rw [hasGuard, isInput, Bool.not_eq_true', Bool.not_eq_false] at hguard
    exact (Symbol.valid_iff _).1 hguard

/-- A transition on an input symbol is enabled when there is one. -/
theorem hasInput_of_enabled {w : W} {s : Symbol} {m : BasicFsm D}
    (h : (m.enabled w (.input s)).1.hasPassed = true) : m.hasInput s = true := by
  rw [enabled] at h
  cases hs : m.hasInput s with
  | true => rfl
  | false =>
      rw [hs] at h
      have hnot : (guardPollInterval false).hasPassed = false := by decide
      exact absurd (hnot.symm.trans h) nofun

/-- The action `consume` of a transition that was taken on an input symbol. -/
theorem run_consume {table : CompiledTable W D} {m : BasicFsm D}
    {e : CompiledTransition (Guard W D) (Action W D)} {s : Symbol} (hs : s ≠ none)
    (hflag : m.flags .input = true) (he : table[m.transition]? = some e)
    (htrigger : e.trigger = .input s) (hmem : s ∈ m.inputs) :
    ∃ inputs, (s :: inputs).Perm m.inputs ∧
      Transition.run (Call.run table) m [.consume] = some { m with inputs := inputs } := by
  obtain ⟨inputs, hperm, hclear⟩ := clearInput_of_mem hs hmem
  refine ⟨inputs, hperm, ?_⟩
  have htriggered : m.triggeredBy table = some s := by
    obtain ⟨trigger, a, st, target⟩ := e
    cases htrigger
    rw [triggeredBy, flag, hflag, if_pos rfl, he]
  have hrun : Call.run table m .consume = some { m with inputs := inputs } := by
    rw [Call.run, htriggered, Option.map_some, hclear]
  rw [Transition.run_cons, hrun]
  rfl

theorem map_trigger_eq {table : CompiledTable W D}
    {ts : List (Transition (Guard W D) (Action W D))} {es : CompiledTable W D}
    (h : List.Forall₂ (Refines table) ts es) : ts.map (·.trigger) = es.map (·.trigger) := by
  induction h with
  | nil => rfl
  | cons ht _ ih => rw [List.map_cons, List.map_cons, ih, ht.trigger]

theorem entered_takeTransition {table : CompiledTable W D} {m m₁ : BasicFsm D} {i : ℕ}
    {e : CompiledTransition (Guard W D) (Action W D)}
    {t : Transition (Guard W D) (Action W D)} (hm : m.state ≠ 0) (hsame : SameButEntry m m₁)
    (ht : Refines table t e) :
    Entered table i t m (m₁.takeTransition i e).logAction := by
  obtain ⟨htrans, hstack, hinputs, hdata, hblocked, -⟩ := takeTransition_keeps i e m₁
  refine ⟨htrans, hstack.trans hsame.stack, hinputs.trans hsame.inputs, hdata.trans hsame.data,
    hblocked, fun hnone => ?_, fun hne => ?_⟩
  · obtain ⟨hstate, hprev, hlog⟩ :=
      takeTransition_of_zero (i := i) (ht.target_eq_zero.2 hnone) m₁
    refine ⟨hstate.trans hsame.state, hprev.trans hsame.prev, ?_⟩
    rw [logAction, hlog, hsame.log, htrans]
  · obtain ⟨hstate, hprev, hlog⟩ :=
      takeTransition_of_ne (i := i) (fun hzero => hne (ht.target_eq_zero.1 hzero)) m₁
    refine ⟨?_, hprev.trans hsame.state, ?_⟩
    · rw [logAction, hstate]
      exact ht.target hne
    · rw [logAction, hlog, hsame.state, if_neg hm, hsame.log, List.append_assoc, htrans]
      rfl

theorem takes_of_firstEnabled {table : CompiledTable W D} {env : ℕ → W} {m m₁ : BasicFsm D}
    {pre suf : CompiledTable W D} {e : CompiledTransition (Guard W D) (Action W D)}
    {pre' : List (Transition (Guard W D) (Action W D))}
    {t : Transition (Guard W D) (Action W D)} (hm : m.state ≠ 0)
    (hblock : block table m.state = pre ++ e :: suf)
    (hfirst : FirstEnabled env 0 m (pre.map (·.trigger)) e.trigger m₁)
    (hstep : m.step table env =
      (enter table (env (pre.length + 1)) (m₁.takeTransition (m.state + pre.length) e)).map
        fun m => (.null, if e.target = 0 then m else m.setFlag .entry true))
    (hpre : List.Forall₂ (Refines table) pre' pre) (ht : Refines table t e) :
    ∃ m', Takes table env m pre' t m' := by
  have hget := getElem?_of_block hblock
  have hentered := entered_takeTransition (i := m.state + pre.length) hm hfirst.same ht
  obtain ⟨htrans, -, hinputs, -, -, hinput⟩ := takeTransition_keeps (m.state + pre.length) e m₁
  rw [← hpre.length_eq] at *
  set taken := m₁.takeTransition (m.state + pre'.length) e
  rw [← htrans] at hget
  have hne : taken.transition ≠ 0 := by
    rw [htrans]
    omega
  have hrun := hstep
  rw [enter_of_ne hne hget, ht.action] at hrun
  simp only [ht.target_eq_zero] at hrun
  refine ⟨taken.logAction, ⟨m₁, ?_⟩, hentered, hrun, ?_, ?_⟩
  · rw [map_trigger_eq hpre, ← ht.trigger]
    exact hfirst
  · intro p m'' hm''
    rw [hrun] at hm''
    obtain ⟨m₂, hm₂, heq⟩ := Option.map_eq_some_iff.1 hm''
    obtain ⟨left, hleft⟩ := Call.run_calls_log hm₂
    refine ⟨left, ?_⟩
    rw [← hleft, ← (Prod.mk.inj heq).2]
    split <;> rfl
  · intro s hs haction
    have hs' : e.trigger = .input s := ht.trigger.trans hs
    have hsome := Transition.input_ne_none hs
    have hmem : s ∈ taken.logAction.inputs := by
      have henabled := hfirst.enabled
      rw [hs'] at henabled
      have hmem := (hasInput_iff hsome _).1 (hasInput_of_enabled henabled)
      rwa [(sameButEntry_pollAll env 0 m _).inputs, ← hentered.inputs] at hmem
    have hflag : taken.logAction.flags .input = true := hinput.trans (by rw [hs']; rfl)
    obtain ⟨inputs, hperm, hconsume⟩ := run_consume hsome hflag hget hs' hmem
    refine ⟨inputs, hentered.inputs ▸ hperm, ?_⟩
    rw [hrun, haction]
    exact congrArg (Option.map _) hconsume

/-- A step of a machine that is in no state yet: it goes to the first state, without
`leave` and without an action. Without transitions it is blocked. -/
def StartsUp (l : List (Transition (Guard W D) (Action W D))) (table : CompiledTable W D)
    (env : ℕ → W) (m : BasicFsm D) : Prop :=
  match l with
  | [] => ∃ m', m.step table env = some (.infinity, m') ∧ m'.flag .blocked = true ∧
      SamePlace m m' ∧ m'.inputs = m.inputs ∧ m'.data = m.data
  | t :: _ => ∃ m', m.step table env = some (.null, m') ∧ IsIndex table t.state m'.state ∧
      m'.prev = 0 ∧ m'.transition = 0 ∧ m'.stack = m.stack ∧ m'.inputs = m.inputs ∧
      m'.data = m.data ∧ m'.log = m.log

/-- The guard of the dummy is always enabled. -/
theorem findNext_of_zero (es : CompiledTable W D) (env : ℕ → W) {m : BasicFsm D}
    (hm : m.state = 0) :
    m.findNext (⟨.guard (builtin W D).always, (builtin W D).nothing, none, 1⟩ :: es) env =
      some (.enabled 0 1 ⟨.guard (builtin W D).always, (builtin W D).nothing, none, 1⟩, m) := by
  rw [findNext, hm, List.drop_zero]
  cases es <;> rfl

theorem startsUp {l : List (Transition (Guard W D) (Action W D))} {table : CompiledTable W D}
    (h : compile (builtin W D) l = .ok table) (env : ℕ → W) {m : BasicFsm D}
    (hm : m.state = 0) : StartsUp l table env m := by
  cases l with
  | nil =>
      cases h
      have hplace := samePlace_setFlag .blocked nofun true m
      refine ⟨m.setFlag .blocked true, ?_, by simp [flag], hplace, rfl, rfl⟩
      rw [step, findNext, hm]
      rfl
  | cons t ts =>
      obtain ⟨hfirst, es, hes, rfl⟩ := (compile_eq_ok_iff (List.cons_ne_nil t ts)).1 h
      have ht : t.state ≠ none := hfirst t rfl
      have hfind : find t.state (t :: ts) = .ok 1 :=
        (find_eq_ok_iff ht).2 ⟨[], t, ts, rfl, rfl, by simp, rfl⟩
      obtain ⟨hindex, -⟩ := block_of_compile h ht hfind
      have hnext := findNext_of_zero es env hm
      set e₀ : CompiledTransition (Guard W D) (Action W D) :=
        ⟨.guard (builtin W D).always, (builtin W D).nothing, none, 1⟩
      obtain ⟨htrans, hstack, hinputs, hdata, -⟩ := takeTransition_keeps 0 e₀ m
      obtain ⟨hstate, hprev, hlog⟩ := takeTransition_of_ne (i := 0) (e := e₀) Nat.one_ne_zero m
      refine ⟨(m.takeTransition 0 e₀).setFlag .entry true, ?_, ?_, hprev.trans hm, htrans, hstack,
        hinputs, hdata, ?_⟩
      · rw [step_of_enabled hnext, enter, if_pos htrans]
        rfl
      · rw [setFlag_state, hstate]
        exact hindex
      · rw [setFlag_log, hlog, if_pos hm]

/-- In every state that a machine can reach, a step takes the first transition of that
state that is enabled, or it is blocked; its inputs are a multiset. -/
theorem step_refines {l : List (Transition (Guard W D) (Action W D))}
    {table : CompiledTable W D} (h : compile (builtin W D) l = .ok table) (d : D)
    (ops : List (Op W D)) (m : BasicFsm D)
    (hr : Transition.run (Op.run table) (init d) ops = some m) (env : ℕ → W) :
    (m.state = 0 → StartsUp l table env m) ∧
    (m.state ≠ 0 → ∃ s ≠ none, IsIndex table s m.state ∧
      ((∃ pre t suf m', transitionsOf s l = pre ++ t :: suf ∧ Takes table env m pre t m') ∨
        ∃ again m', m.step table env = some (again, m') ∧
          Blocks env m (transitionsOf s l) again m')) ∧
    (∀ s ≠ none, (m.input s).inputs.Perm (s :: m.inputs)) ∧
    ∀ s ≠ none, (m.hasInput s = true ↔ s ∈ m.inputs) := by
  refine ⟨startsUp h env, fun hm => ?_, fun s hs => ?_, fun s hs => hasInput_iff hs m⟩
  · have hplaced := placed_of_run h hr
    obtain ⟨s, hs, hfind⟩ := hplaced.state.resolve_left hm
    obtain ⟨hindex, hblock⟩ := block_of_compile h hs hfind
    refine ⟨s, hs, hindex, ?_⟩
    rcases step_spec table env m (Placed.lt_length h hplaced) with
      ⟨pre, e, suf, m₁, hes, hfirst, hstep⟩ | ⟨again, m₁, hnone, hstep⟩
    · rw [hes] at hblock
      have hpre := List.forall₂_take_append _ _ _ hblock
      have hsuf := List.forall₂_drop_append _ _ _ hblock
      obtain ⟨t, suf', ht, -, hdrop⟩ := List.forall₂_cons_right_iff.1 hsuf
      obtain ⟨m', htakes⟩ := takes_of_firstEnabled hm hes hfirst hstep hpre ht
      refine Or.inl ⟨_, t, suf', m', ?_, htakes⟩
      rw [← hdrop, List.take_append_drop]
    · rw [← map_trigger_eq hblock] at hnone
      exact Or.inr ⟨again, _, hstep, hnone.blocks⟩
  · rw [input_of_ne hs]
    exact List.perm_append_singleton s m.inputs

/-- From state `a` to state `b` on input `x`, which is consumed. -/
def consumesOne : List (Transition (Guard Unit Unit) (Action Unit Unit)) :=
  [⟨letterA, (builtin Unit Unit).never, letterX, action .consume,
      letterB⟩,
    ⟨letterB, (builtin Unit Unit).never, none, (builtin Unit Unit).nothing, none⟩]

/-- The symbol is there before the first step. -/
def inputFirst : List (Op Unit Unit) :=
  [.call (.input letterX), .step fun _ => ()]

theorem step_refines_consumesOne :
    ∃ table m, compile (builtin Unit Unit) consumesOne = .ok table ∧
      Transition.run (Op.run table) (init ()) inputFirst = some m ∧
      m.state ≠ 0 ∧ ∃ s ≠ none, IsIndex table s m.state ∧
        ((∃ pre t suf m', transitionsOf s consumesOne = pre ++ t :: suf ∧
            Takes table (fun _ => ()) m pre t m') ∨
          ∃ again m', m.step table (fun _ => ()) = some (again, m') ∧
            Blocks (fun _ => ()) m (transitionsOf s consumesOne) again m') :=
  ⟨_, _, rfl, rfl, Nat.one_ne_zero,
    (step_refines rfl () inputFirst _ rfl fun _ => ()).2.1 Nat.one_ne_zero⟩

/-- The first step of a new machine goes to another state, but nothing is left and no
action is run. -/
theorem not_left_consumesOne :
    ∃ table m, compile (builtin Unit Unit) consumesOne = .ok table ∧
      (init ()).step table (fun _ => ()) = some (.null, m) ∧ m.state ≠ (init ()).state ∧
      m.log = [] :=
  ⟨_, _, rfl, rfl, Nat.one_ne_zero, rfl⟩

end Fsm

end Zth
