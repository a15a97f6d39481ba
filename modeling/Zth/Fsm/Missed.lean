import Zth.Fsm.Loop

/-!
# No input is missed

When a step does not take a transition, it has polled all entries of the current state. So the
transitions that wait for an input symbol are not enabled when `run` is blocked, unless such a
symbol was registered after the poll. A symbol that is registered later wakes `run`.
-/

namespace Zth

namespace Signal

open Monitor SynchronizerBase

variable {F : Type*} [DecidableEq F]

/-- A signal that nobody but `me` waits for, and that is never queued. -/
structure Private (me : F) (s : State F Unit Code Data) : Prop where
  signal : Invariant s
  zero : s.data.signalled = 0
  only : ∀ f ∈ s.queue (), f = me

variable {me : F} {s t : State F Unit Code Data}

omit [DecidableEq F] in
theorem private_idle : Private me (State.idle Data.init : State F Unit Code Data) where
  signal := invariant_idle
  zero := rfl
  only := fun f hf => by simp [State.idle] at hf

omit [DecidableEq F] in
/-- The integer does not wrap around. -/
theorem Private.noWrap (h : Private me s) (l : Label F Unit Call) : NoWrap s l := by
  have hlt : s.data.signalled < 2 ^ 31 - 1 := by
    rw [h.zero]
    decide
  unfold NoWrap
  split
  · exact hlt
  · trivial

/-- It wakes the one that waits. -/
theorem Private.signal_step (h : Private me s) {f : F}
    (hstep : Signal.step s (.call f (.signal false false)) = some t) :
    Private me t ∧ me ∉ t.queue () := by
  have hinv : Invariant t := h.signal.step (h.noWrap _) hstep
  rcases Program.stepBy_cases hstep with ⟨f', c, heq, -, rfl⟩ | ⟨f', c, heq, -⟩ |
    ⟨q, f', c, c', heq, -⟩
  · cases heq
    simp only [program] at hinv ⊢
    rcases exec_signal f false false s with ⟨hq, heq⟩ | ⟨g, gs, hq, heq⟩
    · rw [heq] at hinv ⊢
      have hstore : s.data.issue.store false false = s.data.issue := by simp [Data.store]
      refine ⟨⟨hinv, ?_, h.only⟩, ?_⟩
      · rw [hstore]
        exact h.zero
      · rw [State.finish_done, State.setData_queue, hq]
        exact List.not_mem_nil
    · rw [heq] at hinv ⊢
      have hg : g = me := h.only g (by simp [hq])
      refine ⟨⟨hinv, h.zero, ?_⟩, ?_⟩
      · intro f' hf'
        apply h.only f'
        simp only [State.finish_done, State.setData_queue, State.wake_queue,
          Function.update_self] at hf'
        exact List.mem_of_mem_erase hf'
      · rw [State.finish_done, State.setData_queue, State.wake_queue, Function.update_self, hg]
        exact (h.signal.wellFormed.queue_nodup ()).not_mem_erase
  · cases heq
  · cases heq

theorem Private.wait_step (h : Private me s) {passed : Bool}
    (hstep : Signal.step s (.call me (.waitUntil passed)) = some t) : Private me t := by
  have hinv : Invariant t := h.signal.step (h.noWrap _) hstep
  rcases Program.stepBy_cases hstep with ⟨f', c, heq, -, rfl⟩ | ⟨f', c, heq, -⟩ |
    ⟨q, f', c, c', heq, -⟩
  · cases heq
    simp only [program, Signal.exec, if_pos h.zero] at hinv ⊢
    cases passed with
    | true => exact ⟨hinv, Data.complete_of_zero h.zero, h.only⟩
    | false =>
        refine ⟨hinv, h.zero, ?_⟩
        intro f hf
        simp only [Bool.false_eq_true, if_false, State.finish_block_queue, Function.update_self,
          List.mem_append, List.mem_singleton] at hf
        exact hf.elim (h.only f) id
  · cases heq
  · cases heq

theorem Private.resume_step (h : Private me s) {f : F}
    (hstep : Signal.step s (.resume f) = some t) : Private me t := by
  have hinv : Invariant t := h.signal.step (h.noWrap _) hstep
  rcases Program.stepBy_cases hstep with ⟨f', c, heq, -⟩ | ⟨f', c, heq, hc, hw, rfl⟩ |
    ⟨q, f', c, c', heq, -⟩
  · cases heq
  · have hinside := h.signal.code f' c hc
    cases c with
    | enter c => exact hinside.elim
    | waited => exact ⟨hinv, Data.complete_of_zero h.zero, h.only⟩
    | waitedUntil => exact ⟨hinv, Data.complete_of_zero h.zero, h.only⟩
    | timedOut => exact ⟨hinv, h.zero, h.only⟩
  · cases heq

theorem Private.expire_step (h : Private me s) {f : F}
    (hstep : Signal.step s (.expire () f) = some t) :
    Private me t ∧ ∀ g ∈ t.queue (), g ∈ s.queue () := by
  have hinv : Invariant t := h.signal.step (h.noWrap _) hstep
  rcases Program.stepBy_cases hstep with ⟨f', c, heq, -⟩ | ⟨f', c, heq, -⟩ |
    ⟨q, f', c, c', heq, -, -, -, rfl⟩
  · cases heq
  · cases heq
  · have hsub : ∀ g ∈ (s.expire q f' c').queue (), g ∈ s.queue () := by
      intro g hg
      simp only [State.expire, State.wake_queue, Function.update_self] at hg
      exact List.mem_of_mem_erase hg
    exact ⟨⟨hinv, h.zero, fun g hg => h.only g (hsub g hg)⟩, hsub⟩

end Signal

namespace Fsm

variable {W D : Type*} {table : CompiledTable W D}

/-- The entries of the current state up to `k` do not wait for a symbol that is there. -/
structure PolledUpTo (table : CompiledTable W D) (m : BasicFsm D) (k : ℕ) : Prop where
  le : m.state ≤ k
  same : ∀ j e, m.state < j → j ≤ k → table[j]? = some e → e.state.valid = false
  disabled : ∀ j e i, m.state ≤ j → j < k → table[j]? = some e → e.trigger = .input i →
    m.hasInput i = false

/-- No entry of the current state waits for a symbol that is there. -/
def NoneLeft (table : CompiledTable W D) (m : BasicFsm D) : Prop :=
  ∀ e ∈ block table m.state, ∀ i, e.trigger = .input i → m.hasInput i = false

/-- What a step knows. -/
def Knows (table : CompiledTable W D) (m : BasicFsm D) : StepCode D → Prop
  | .polling k _ => PolledUpTo table m k
  | .polled k _ p => PolledUpTo table m k ∧
      (p.hasPassed = false → ∀ e i, table[k]? = some e → e.trigger = .input i →
        m.hasInput i = false)
  | .entering _ | .acting _ _ => True
  | .returned p => p.hasPassed = false → NoneLeft table m

/-- An entry of a state stands behind the first one, and those in between do not name a
state. -/
theorem mem_block {i : ℕ} {e : CompiledTransition (Guard W D) (Action W D)}
    (he : e ∈ block table i) :
    ∃ j, i ≤ j ∧ table[j]? = some e ∧
      ∀ k e', i < k → k ≤ j → table[k]? = some e' → e'.state.valid = false := by
  rcases List.mem_append.1 he with he | he
  · refine ⟨i, Nat.le_refl i, ?_, fun k e' hlt hle => absurd hlt (Nat.not_lt.2 hle)⟩
    cases hdrop : table.drop i with
    | nil =>
        rw [hdrop] at he
        cases he
    | cons e' rest =>
        rw [hdrop] at he
        rw [← List.head?_drop, hdrop, List.mem_singleton.1 he]
        rfl
  · obtain ⟨n, hn, hall⟩ := Grouping.exists_of_mem_takeWhile he
    rw [List.getElem?_drop] at hn
    refine ⟨i + 1 + n, Nat.le_add_right_of_le (Nat.le_succ i), hn, ?_⟩
    intro k e' hlt hle hk
    obtain ⟨k, rfl⟩ := Nat.exists_eq_add_of_le hlt
    have hvalid := hall k e' (Nat.le_of_add_le_add_left hle) (by rw [List.getElem?_drop]; exact hk)
    simpa using hvalid

theorem knows_start (m : BasicFsm D) : Knows table m m.start where
  le := Nat.le_refl _
  same := fun _ _ hlt hle => absurd hlt (Nat.not_lt.2 hle)
  disabled := fun _ _ _ hle hlt => absurd hlt (Nat.not_lt.2 hle)

/-- A poll does not change what is known. -/
theorem PolledUpTo.congr {m m' : BasicFsm D} {k : ℕ} (h : PolledUpTo table m k)
    (hstate : m'.state = m.state) (hinputs : m'.inputs = m.inputs) : PolledUpTo table m' k where
  le := hstate ▸ h.le
  same := hstate ▸ h.same
  disabled := by
    intro j e i hle hlt he hi
    rw [BasicFsm.hasInput, hinputs]
    exact h.disabled j e i (hstate ▸ hle) hlt he hi

/-- The next entry of the same state. -/
theorem PolledUpTo.next {m : BasicFsm D} {k : ℕ} (h : PolledUpTo table m k)
    (hk : ∀ e i, table[k]? = some e → e.trigger = .input i → m.hasInput i = false)
    (hend : endsAt table (k + 1) = false) : PolledUpTo table m (k + 1) where
  le := Nat.le_succ_of_le h.le
  same := by
    intro j e hlt hle he
    rcases Nat.lt_or_eq_of_le hle with hlt' | rfl
    · exact h.same j e hlt (Nat.lt_succ_iff.1 hlt') he
    · rw [endsAt, he] at hend
      exact hend
  disabled := by
    intro j e i hle hlt he hi
    rcases Nat.lt_or_eq_of_le (Nat.lt_succ_iff.1 hlt) with hlt' | rfl
    · exact h.disabled j e i hle hlt' he hi
    · exact hk e i he hi

/-- All entries of the current state were polled. -/
theorem PolledUpTo.noneLeft {m : BasicFsm D} {k : ℕ} (h : PolledUpTo table m k)
    (hk : ∀ e i, table[k]? = some e → e.trigger = .input i → m.hasInput i = false)
    (hend : endsAt table (k + 1) = true) : NoneLeft table m := by
  intro e he i hi
  obtain ⟨j, hle, hj, hsame⟩ := mem_block he
  have hjk : j ≤ k := by
    by_contra hlt
    have hk1 : k + 1 ≤ j := Nat.lt_of_not_le hlt
    have hlt' : k + 1 < table.length :=
      Nat.lt_of_le_of_lt hk1 (List.getElem?_eq_some_iff.1 hj).1
    have hnext := List.getElem?_eq_getElem hlt'
    rw [endsAt, hnext] at hend
    have hvalid := hsame (k + 1) _ (Nat.lt_succ_of_le h.le) hk1 hnext
    exact absurd (hend.symm.trans hvalid) (by simp)
  rcases Nat.lt_or_eq_of_le hjk with hlt | rfl
  · exact h.disabled j e i hle hlt hj hi
  · exact hk e i hj hi

/-- A piece of a step. -/
theorem knows_advance {m m' : BasicFsm D} {c c' : StepCode D} {w : W} (h : Knows table m c)
    (hx : BasicFsm.advance table (m, c) w = some (m', c')) : Knows table m' c' := by
  cases c with
  | polling k again =>
      obtain ⟨e, he, heq⟩ := Option.map_eq_some_iff.1 hx
      cases heq
      have hsame := BasicFsm.sameButEntry_enabled w e.trigger m
      have hpolled : PolledUpTo table (m.enabled w e.trigger).2 k :=
        PolledUpTo.congr h hsame.state hsame.inputs
      refine ⟨hpolled, ?_⟩
      intro hp e' i he' hi
      obtain rfl : e = e' := Option.some.inj (he.symm.trans he')
      rw [hi, BasicFsm.enabled] at hp ⊢
      cases hinput : m.hasInput i with
      | false => rfl
      | true =>
          rw [hinput] at hp
          cases hp
  | polled k again p =>
      obtain ⟨e, he, heq⟩ := Option.map_eq_some_iff.1 hx
      obtain ⟨hpolled, hk⟩ := h
      cases hp : p.hasPassed with
      | true =>
          simp only [hp, if_true] at heq
          cases heq
          trivial
      | false =>
          cases hend : endsAt table (k + 1) with
          | true =>
              simp only [hp, hend, Bool.false_eq_true, if_false, if_true] at heq
              cases heq
              exact fun _ => hpolled.noneLeft (hk hp) hend
          | false =>
              simp only [hp, hend, Bool.false_eq_true, if_false] at heq
              cases heq
              exact hpolled.next (hk hp) hend
  | entering moved =>
      rw [BasicFsm.advance] at hx
      split at hx
      · cases hx
        trivial
      · obtain ⟨e, -, heq⟩ := Option.map_eq_some_iff.1 hx
        cases heq
        trivial
  | acting moved calls =>
      cases calls with
      | nil =>
          cases hx
          exact fun hp => by cases hp
      | cons c calls =>
          obtain ⟨m₁, -, heq⟩ := Option.map_eq_some_iff.1 hx
          cases heq
          trivial
  | returned p => cases hx

namespace Running

variable {F : Type*}

/-- What holds in every state, as long as no symbol comes too late. -/
structure Inv (table : CompiledTable W D) (me : F) (s : Running F D) : Prop where
  trigger : Signal.Private me s.trigger
  knows : ∀ mode c, s.code = .stepping mode c → Knows table s.machine c
  blocked : Blocked me s → NoneLeft table s.machine

variable {me : F} {s t : Running F D}

theorem inv_init (d : D) : Inv table me (init F d) where
  trigger := Signal.private_idle
  knows := fun mode c h => by cases h
  blocked := by
    rintro ⟨⟨mode, h⟩, -⟩
    cases h

theorem inv_outside (htrigger : Signal.Private me s.trigger) (m : BasicFsm D) :
    Inv table me { s with machine := m, code := .outside } where
  trigger := htrigger
  knows := fun mode c h => by cases h
  blocked := by
    rintro ⟨⟨mode, h⟩, -⟩
    cases h

/-- A step goes on. -/
theorem inv_stepping (htrigger : Signal.Private me s.trigger) {m : BasicFsm D} {c : StepCode D}
    (hknows : Knows table m c) (mode : RunMode) :
    Inv table me { s with machine := m, code := .stepping mode c } where
  trigger := htrigger
  knows := by
    intro mode' c' h
    cases h
    exact hknows
  blocked := by
    rintro ⟨⟨mode, h⟩, -⟩
    cases h

/-- A step starts. -/
theorem inv_again (htrigger : Signal.Private me s.trigger) (mode : RunMode) :
    Inv table me (s.again mode) :=
  inv_stepping htrigger (knows_start s.machine) mode

variable [DecidableEq F]

theorem triggers_spec (htrigger : Signal.Private me s.trigger) {f : F}
    (hs : s.triggers f = some t) :
    Signal.Private me t.trigger ∧ me ∉ t.trigger.queue () ∧ t.machine = s.machine ∧
      t.code = s.code := by
  obtain ⟨trigger, hstep, rfl⟩ := Option.map_eq_some_iff.1 hs
  obtain ⟨hprivate, hme⟩ := htrigger.signal_step hstep
  exact ⟨hprivate, hme, rfl, rfl⟩

/-- The loop waits, after a step that did not take a transition. -/
theorem inv_wait (htrigger : Signal.Private me s.trigger) (hnone : NoneLeft table s.machine)
    {mode : RunMode} {clock : Clock} (hs : s.wait me mode clock = some t) : Inv table me t := by
  obtain ⟨trigger, hstep, rfl⟩ := Option.map_eq_some_iff.1 hs
  refine ⟨htrigger.wait_step hstep, ?_, fun _ => hnone⟩
  intro mode' c h
  cases h

theorem inv_afterStep (htrigger : Signal.Private me s.trigger) {p : TimeInterval}
    (hknows : Knows table s.machine (.returned p)) {mode : RunMode} {clock : Clock}
    (hs : s.afterStep me mode clock p = some t) : Inv table me t := by
  have hwait : p.hasPassed ≠ true → s.wait me mode clock = some t → Inv table me t :=
    fun hp => inv_wait htrigger (hknows (Bool.eq_false_iff.2 hp))
  unfold afterStep at hs
  split at hs
  · obtain rfl := Option.some.inj hs
    exact inv_outside htrigger s.machine
  · cases mode with
    | untilTime =>
        dsimp only at hs
        split at hs
        · obtain rfl := Option.some.inj hs
          exact inv_outside htrigger s.machine
        · split at hs
          · obtain rfl := Option.some.inj hs
            exact inv_again htrigger _
          · rename_i hp
            exact hwait hp hs
    | forever returnWhenBlocked =>
        dsimp only at hs
        split at hs
        · obtain rfl := Option.some.inj hs
          exact inv_again htrigger _
        · rename_i hp
          split at hs
          · obtain rfl := Option.some.inj hs
            exact inv_outside htrigger s.machine
          · exact hwait hp hs

theorem triggersSelf_spec (htrigger : Signal.Private me s.trigger) {c : StepCode D}
    (hs : s.triggersSelf me c = some t) : Signal.Private me t.trigger := by
  unfold triggersSelf at hs
  split at hs
  · split at hs
    · exact (triggers_spec htrigger hs).1
    · exact Option.some.inj hs ▸ htrigger
  · exact Option.some.inj hs ▸ htrigger

theorem Inv.next (h : Inv table me s) {w : W} {clock : Clock}
    (hs : s.next table me w clock = some t) : Inv table me t := by
  rw [Running.next] at hs
  split at hs
  · rename_i mode c hcode
    obtain ⟨⟨m, c'⟩, hx, hs⟩ := Option.bind_eq_some_iff.1 hs
    obtain ⟨s', hs', hs⟩ := Option.bind_eq_some_iff.1 hs
    have hknows : Knows table m c' := knows_advance (h.knows mode c hcode) hx
    have htrigger := triggersSelf_spec h.trigger hs'
    cases c' with
    | returned p => exact inv_afterStep (s := { s' with machine := m }) htrigger hknows hs
    | polling k again => exact Option.some.inj hs ▸ inv_stepping htrigger hknows mode
    | polled k again p => exact Option.some.inj hs ▸ inv_stepping htrigger hknows mode
    | entering moved => exact Option.some.inj hs ▸ inv_stepping htrigger hknows mode
    | acting moved calls => exact Option.some.inj hs ▸ inv_stepping htrigger hknows mode
  all_goals cases hs

theorem Inv.resume (h : Inv table me s) (hs : s.resume me = some t) : Inv table me t := by
  rw [Running.resume] at hs
  split at hs
  · split at hs
    · obtain rfl := Option.some.inj hs
      exact inv_again h.trigger _
    · obtain ⟨trigger, hstep, rfl⟩ := Option.map_eq_some_iff.1 hs
      exact inv_again (s := { s with trigger := trigger }) (h.trigger.resume_step hstep) _
  all_goals cases hs

omit [DecidableEq F] in
theorem hasInput_input {m : BasicFsm D} {i j : Symbol} (hne : j ≠ i) (hj : m.hasInput j = false) :
    (m.input i).hasInput j = false := by
  rw [BasicFsm.input]
  split
  · simp only [BasicFsm.hasInput, List.any_append, List.any_cons, List.any_nil, Bool.or_false]
    rw [Bool.and_or_distrib_left, Bool.or_eq_false_iff]
    refine ⟨hj, ?_⟩
    have hnot : i.constexprEq j = false := by
      rw [← Bool.not_eq_true, Symbol.constexprEq_iff]
      exact hne.symm
    rw [hnot, Bool.and_false]
  · exact hj

omit [DecidableEq F] in
theorem state_input (i : Symbol) (m : BasicFsm D) : (m.input i).state = m.state :=
  (BasicFsm.samePlace_input i m).state

omit [DecidableEq F] in
/-- A symbol comes in time. -/
theorem polledUpTo_input {m : BasicFsm D} {k : ℕ} (h : PolledUpTo table m k) {i : Symbol}
    (hok : ∀ j e, m.state ≤ j → j < k → table[j]? = some e → e.trigger ≠ .input i) :
    PolledUpTo table (m.input i) k := by
  constructor
  · rw [state_input]
    exact h.le
  · rw [state_input]
    exact h.same
  · intro j e i' hle hlt he hi
    rw [state_input] at hle
    apply hasInput_input
    · rintro rfl
      exact hok j e hle hlt he hi
    · exact h.disabled j e i' hle hlt he hi

omit [DecidableEq F] in
/-- What a step knows is still right, when others are executed in it. -/
theorem knows_input {m : BasicFsm D} {c : StepCode D} {mode : RunMode} (h : Knows table m c)
    {i : Symbol} (hinterrupts : (Code.stepping mode c).interrupts table = true)
    (hok : ∀ k, (∃ again, c = .polling k again) ∨ (∃ again p, c = .polled k again p) →
      ∀ j e, m.state ≤ j → j < k → table[j]? = some e → e.trigger ≠ .input i) :
    Knows table (m.input i) c := by
  cases c with
  | polling k again => exact polledUpTo_input h (hok k (Or.inl ⟨again, rfl⟩))
  | polled k again p =>
      refine ⟨polledUpTo_input h.1 (hok k (Or.inr ⟨again, p, rfl⟩)), ?_⟩
      intro _ e i' he hi
      have hguard : (!e.trigger.isInput) = true := by
        rw [Code.interrupts, callsUser, he] at hinterrupts
        exact hinterrupts
      rw [hi] at hguard
      cases hguard
  | entering moved => trivial
  | acting moved calls => trivial
  | returned p => cases hinterrupts

theorem Inv.input (h : Inv table me s) {f : F} {i : Symbol}
    (hinterrupts : s.code.interrupts table = true)
    (hok : InTime table s (.input f i : Label F W D)) (hs : s.input f i = some t) :
    Inv table me t := by
  rw [Running.input] at hs
  split at hs
  · obtain ⟨htrigger, hme, hmachine, hcode⟩ :=
      triggers_spec (s := { s with machine := s.machine.input i }) h.trigger hs
    refine ⟨htrigger, ?_, fun hblocked => absurd hblocked.2 hme⟩
    intro mode c hc
    rw [hcode] at hc
    change s.code = .stepping mode c at hc
    rw [hmachine]
    rw [hc] at hinterrupts
    apply knows_input (h.knows mode c hc) hinterrupts
    rintro k (⟨again, rfl⟩ | ⟨again, p, rfl⟩)
    · simpa only [InTime, hc] using hok
    · simpa only [InTime, hc] using hok
  · exact Option.some.inj hs ▸ h

/-- The step lemma. -/
theorem Inv.step (h : Inv table me s) {l : Label F W D} (hok : InTime table s l)
    (hs : Running.step table me s l = some t) : Inv table me t := by
  cases l with
  | op op =>
      simp only [Running.step] at hs
      split at hs
      · rename_i hcode
        obtain ⟨m, -, rfl⟩ := Option.map_eq_some_iff.1 hs
        have houtside : Inv table me { s with machine := m, code := .outside } :=
          inv_outside h.trigger m
        rw [← hcode] at houtside
        exact houtside
      · cases hs
  | run mode =>
      simp only [Running.step] at hs
      split at hs
      · obtain rfl := Option.some.inj hs
        exact inv_again (s := { s with machine := s.machine.clearFlag .stop }) h.trigger mode
      · cases hs
  | next w clock => exact h.next hs
  | resume => exact h.resume hs
  | expire =>
      obtain ⟨trigger, hstep, rfl⟩ := Option.map_eq_some_iff.1 hs
      obtain ⟨htrigger, hsub⟩ := h.trigger.expire_step hstep
      exact ⟨htrigger, h.knows, fun hb => h.blocked ⟨hb.1, hsub me hb.2⟩⟩
  | input f i =>
      obtain ⟨⟨-, hinterrupts⟩, hs⟩ := Option.ite_none_right_eq_some.1 hs
      exact h.input hinterrupts hok hs
  | trigger f =>
      obtain ⟨-, hs⟩ := Option.ite_none_right_eq_some.1 hs
      obtain ⟨htrigger, hme, hmachine, hcode⟩ := triggers_spec h.trigger hs
      refine ⟨htrigger, ?_, fun hb => absurd hb.2 hme⟩
      rw [hmachine, hcode]
      exact h.knows

end Running

end Fsm

end Zth
