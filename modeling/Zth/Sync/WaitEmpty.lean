import Zth.Sync.Mailbox

/-!
# Waiting for an empty mailbox

`wait_empty` waits in the same queue as `put`. The completion of a `take` wakes the
first fiber of that queue, and only that one. A fiber that was blocked in `put` fills
the mailbox, and the next `take` wakes the next fiber. A fiber that was blocked in
`wait_empty` leaves the mailbox empty, and nobody wakes the next fiber.
-/

namespace Zth

namespace Mailbox

open Monitor SynchronizerBase

/-- The calls on a mailbox, with `wait_empty`. -/
inductive Access (T E : Type*) where
  | call (c : Call T E)
  | waitEmpty
deriving DecidableEq, Repr

variable {F T E : Type*} [DecidableEq F]

/-- The code of the mailbox. That of `put` and `take` does not depend on what the other
fibers are in the middle of. -/
def execAccess (f : F) (a : Access T E) (s : State F Queue (Access T E) (Data F T E)) :
    State F Queue (Access T E) (Data F T E) × Outcome Queue (Access T E) :=
  match a with
  | .call c =>
      let r := exec f c ⟨s.data, s.queue, s.woken, fun _ => none⟩
      (⟨r.1.data, r.1.queue, r.1.woken, s.code⟩, r.2.map .call)
  | .waitEmpty => if s.data.value.valid then (s, .block .put .waitEmpty) else (s, .done)

/-- The mailbox with `wait_empty` as a monitor. -/
def programAccess (F T E : Type*) [DecidableEq F] :
    Program F Queue (Access T E) (Data F T E) where
  exec := execAccess
  expired _ := none

/-- The fiber is in the middle of a `put`. -/
def Putting (s : State F Queue (Access T E) (Data F T E)) (f : F) : Prop :=
  ∃ item, s.code f = some (.call (.put item))

/-- The fiber is in the middle of a `put` of a value or an exception. -/
def Storing (s : State F Queue (Access T E) (Data F T E)) (f : F) : Prop :=
  ∃ item, s.code f = some (.call (.put item)) ∧ item.outcome ≠ none

/-- While the mailbox is empty and a fiber is blocked in `put`, another one was woken
that is going to fill it. -/
def PutNotStranded (s : State F Queue (Access T E) (Data F T E)) : Prop :=
  s.data.value.valid = false → (∃ g ∈ s.queue .put, Putting s g) → ∃ f ∈ s.woken, Storing s f

/-- A `take` that completes, while fibers are blocked in `put` behind the first fiber of
the queue, wakes a fiber that is going to fill the mailbox, or such a fiber was woken
before. -/
def HandsOn (s : State F Queue (Access T E) (Data F T E)) (l : Label F Queue (Access T E)) :
    Prop :=
  ∀ f g gs, l.runs s = some (f, .call .take) → s.data.validFor f = true →
    s.queue .put = g :: gs → (∃ h ∈ gs, Putting s h) →
    Storing s g ∨ ∃ h ∈ s.woken, Storing s h

/-- A `put` blocks, or it stores its item and wakes a taker. -/
theorem execAccess_put (f : F) (item : Item T E)
    (s : State F Queue (Access T E) (Data F T E)) :
    (s.data.value.valid = true ∧
      execAccess f (.call (.put item)) s = (s, .block .put (.call (.put item)))) ∨
    (s.data.value.valid = false ∧ ∃ t, execAccess f (.call (.put item)) s = (t, .done) ∧
      t.data.value = .set item ∧ t.queue .put = s.queue .put ∧ t.code = s.code ∧
      ∀ g ∈ s.woken, g ∈ t.woken) := by
  cases hv : s.data.value.valid with
  | true =>
      refine Or.inl ⟨rfl, ?_⟩
      simp only [execAccess, exec, hv, if_true, Outcome.map]
  | false =>
      refine Or.inr ⟨rfl, ?_⟩
      simp only [execAccess, exec, hv, Bool.false_eq_true, if_false, Outcome.map]
      refine ⟨_, rfl, ?_⟩
      rcases unblockFirst_take (State.setData ⟨s.data, s.queue, s.woken, fun _ => none⟩
        (s.data.store item)) with ⟨-, heq⟩ | ⟨g, gs, -, heq⟩
      · rw [heq]
        exact ⟨rfl, rfl, rfl, fun g hg => hg⟩
      · rw [heq]
        refine ⟨rfl, ?_, rfl, fun g hg => List.mem_append_left _ hg⟩
        simp

/-- A `take` blocks, or it empties the mailbox and wakes the first fiber that waits for
that. -/
theorem execAccess_take (f : F) (s : State F Queue (Access T E) (Data F T E)) :
    (s.data.validFor f = false ∧
      execAccess f (.call .take) s = (s, .block .take (.call .take))) ∨
    (s.data.validFor f = true ∧ ∃ t, execAccess f (.call .take) s = (t, .done) ∧
      t.data.value.valid = false ∧ t.code = s.code ∧
      ((s.queue .put = [] ∧ t.queue .put = [] ∧ t.woken = s.woken) ∨
        ∃ g gs, s.queue .put = g :: gs ∧ t.queue .put = gs ∧ t.woken = s.woken ++ [g])) := by
  cases hv : s.data.validFor f with
  | false =>
      refine Or.inl ⟨rfl, ?_⟩
      simp only [execAccess, exec, hv, Bool.false_eq_true, if_false, Outcome.map]
  | true =>
      refine Or.inr ⟨rfl, ?_⟩
      simp only [execAccess, exec, hv, if_true, Outcome.map, unblockFirst_put]
      refine ⟨_, rfl, ?_, rfl, ?_⟩
      · rw [State.wakeFirst_data]
        rfl
      · rcases State.wakeFirst_spec (State.setData ⟨s.data, s.queue, s.woken, fun _ => none⟩
          s.data.takeItem) .put with ⟨hq, heq⟩ | ⟨g, gs, hq, -, hqueue, hwoken⟩
        · rw [heq]
          exact Or.inl ⟨hq, hq, rfl⟩
        · refine Or.inr ⟨g, gs, hq, ?_, hwoken⟩
          rw [hqueue, Function.update_self]

omit [DecidableEq F] in
theorem PutNotStranded.of_valid {s : State F Queue (Access T E) (Data F T E)}
    (h : s.data.value.valid = true) : PutNotStranded s := by
  intro hv
  rw [h] at hv
  cases hv

omit [DecidableEq F] in
/-- More fibers are woken that are going to fill the mailbox, and no other one is blocked
in `put`. -/
theorem PutNotStranded.mono {s t : State F Queue (Access T E) (Data F T E)}
    (h : PutNotStranded s) (hv : t.data.value.valid = false → s.data.value.valid = false)
    (hq : ∀ g ∈ t.queue .put, Putting t g → g ∈ s.queue .put ∧ Putting s g)
    (hw : ∀ g ∈ s.woken, Storing s g → g ∈ t.woken ∧ Storing t g) : PutNotStranded t := by
  rintro hvt ⟨g, hg, hput⟩
  obtain ⟨f, hf, hstore⟩ := h (hv hvt) ⟨g, hq g hg hput⟩
  exact ⟨f, hw f hf hstore⟩

omit [DecidableEq F] in
theorem Storing.congr {s t : State F Queue (Access T E) (Data F T E)} {f : F}
    (h : Storing s f) (hcode : t.code f = s.code f) : Storing t f := by
  obtain ⟨item, hitem⟩ := h
  exact ⟨item, hcode.trans hitem.1, hitem.2⟩

omit [DecidableEq F] in
theorem Putting.congr {s t : State F Queue (Access T E) (Data F T E)} {f : F}
    (h : Putting s f) (hcode : t.code f = s.code f) : Putting t f := by
  obtain ⟨item, hitem⟩ := h
  exact ⟨item, hcode.trans hitem⟩

/-- A fiber that starts to run is not in the middle of a `put` any more. -/
theorem Putting.of_start {s : State F Queue (Access T E) (Data F T E)} {f g : F}
    (h : Putting (s.start f) g) : Putting s g := by
  have hgf : g ≠ f := by
    rintro rfl
    obtain ⟨item, hitem⟩ := h
    rw [State.start_code_self] at hitem
    cases hitem
  exact h.congr (s.start_code_of_ne hgf).symm

theorem putting_start_iff {s : State F Queue (Access T E) (Data F T E)} {f : F}
    (hf : ¬ Putting s f) (g : F) : Putting (s.start f) g ↔ Putting s g := by
  refine ⟨Putting.of_start, fun hg => hg.congr (s.start_code_of_ne ?_)⟩
  rintro rfl
  exact hf hg

omit [DecidableEq F] in
theorem Storing.putting {s : State F Queue (Access T E) (Data F T E)} {f : F}
    (h : Storing s f) : Putting s f :=
  ⟨h.choose, h.choose_spec.1⟩

theorem storing_start_iff {s : State F Queue (Access T E) (Data F T E)} {f : F}
    (hf : ¬ Storing s f) (g : F) : Storing (s.start f) g ↔ Storing s g := by
  by_cases hgf : g = f
  · subst hgf
    refine iff_of_false (fun h => ?_) hf
    obtain ⟨item, hitem, -⟩ := h
    rw [State.start_code_self] at hitem
    cases hitem
  · exact ⟨fun h => h.congr (s.start_code_of_ne hgf).symm,
      fun h => h.congr (s.start_code_of_ne hgf)⟩

theorem exists_woken_start_iff {s : State F Queue (Access T E) (Data F T E)} {f : F}
    (hf : ¬ Storing s f) :
    (∃ g ∈ (s.start f).woken, Storing (s.start f) g) ↔ ∃ g ∈ s.woken, Storing s g := by
  constructor
  · rintro ⟨g, hg, hstore⟩
    exact ⟨g, List.mem_of_mem_erase hg, (storing_start_iff hf g).1 hstore⟩
  · rintro ⟨g, hg, hstore⟩
    have hgf : g ≠ f := fun heq => hf (heq ▸ hstore)
    exact ⟨g, (List.mem_erase_of_ne hgf).2 hg, (storing_start_iff hf g).2 hstore⟩

/-- A fiber that is not going to fill the mailbox starts to run. -/
theorem PutNotStranded.start {s : State F Queue (Access T E) (Data F T E)}
    (h : PutNotStranded s) {f : F} (hf : ¬ Storing s f) : PutNotStranded (s.start f) := by
  rintro hv ⟨g, hg, hput⟩
  exact (exists_woken_start_iff hf).2 (h hv ⟨g, hg, hput.of_start⟩)

/-- A fiber blocks that is not in the middle of a `put`, or the mailbox is not empty. -/
theorem PutNotStranded.block {s : State F Queue (Access T E) (Data F T E)}
    (h : PutNotStranded s) {f : F} (hf : s.code f = none) :
    PutNotStranded (State.finish f (s, .block .take (.call .take))) := by
  have hcode : ∀ g, g ≠ f →
      (State.finish f (s, .block .take (.call .take))).code g = s.code g := fun g hg => by
    rw [State.finish_block_code, Function.update_of_ne hg]
  refine h.mono id (fun g hg hput => ⟨?_, ?_⟩) fun g hg hstore => ⟨hg, ?_⟩
  · simpa using hg
  · refine hput.congr (hcode g ?_).symm
    rintro rfl
    obtain ⟨item, hitem⟩ := hput
    rw [State.finish_block_code, Function.update_self] at hitem
    cases hitem
  · refine hstore.congr (hcode g ?_)
    rintro rfl
    obtain ⟨item, hitem, -⟩ := hstore
    rw [hf] at hitem
    cases hitem

/-- Code other than that of a `take` that completes. A `put` of a value or an exception
fills the mailbox, if it was empty. -/
theorem putNotStranded_exec {s : State F Queue (Access T E) (Data F T E)} {f : F}
    {a : Access T E} (hf : s.code f = none)
    (h : PutNotStranded s ∨ ∃ item, a = .call (.put item) ∧ item.outcome ≠ none)
    (ha : ¬ (a = .call .take ∧ s.data.validFor f = true)) :
    PutNotStranded (State.finish f (execAccess f a s)) := by
  cases a with
  | waitEmpty =>
      have h := h.resolve_right (by simp)
      rw [execAccess]
      split
      · rename_i hv
        exact .of_valid hv
      · exact h
  | call c =>
      cases c with
      | put item =>
          rcases execAccess_put f item s with ⟨hv, heq⟩ | ⟨hv, t, heq, hset, hq, hcode, hw⟩
          · rw [heq]
            exact .of_valid hv
          · rw [heq]
            by_cases hitem : item.outcome = none
            · have h := h.resolve_right (by simp [hitem])
              refine h.mono (fun _ => hv) (fun g hg hput => ⟨hq ▸ hg, ?_⟩)
                fun g hg hstore => ⟨hw g hg, ?_⟩
              · exact hput.congr (congrFun hcode g).symm
              · exact hstore.congr (congrFun hcode g)
            · refine .of_valid ?_
              rw [← Bool.not_eq_false, ← Optional.outcome_eq_none_iff, State.finish_done, hset,
                Optional.outcome_set]
              exact hitem
      | take =>
          have h := h.resolve_right (by simp)
          rcases execAccess_take f s with ⟨-, heq⟩ | ⟨hv, -⟩
          · rw [heq]
            exact h.block hf
          · exact absurd ⟨rfl, hv⟩ ha

/-- A `take` that completes. -/
theorem putNotStranded_take_iff {s : State F Queue (Access T E) (Data F T E)} {f : F}
    (hv : s.data.validFor f = true) :
    PutNotStranded (State.finish f (execAccess f (.call .take) s)) ↔
      ∀ g gs, s.queue .put = g :: gs → (∃ h ∈ gs, Putting s h) →
        Storing s g ∨ ∃ h ∈ s.woken, Storing s h := by
  rcases execAccess_take f s with ⟨hv', -⟩ | ⟨-, t, heq, hempty, hcode, hwake⟩
  · rw [hv] at hv'
    cases hv'
  · have hput : ∀ g, Putting t g ↔ Putting s g := fun g =>
      ⟨fun h => h.congr (congrFun hcode g).symm, fun h => h.congr (congrFun hcode g)⟩
    have hstore : ∀ g, Storing t g ↔ Storing s g := fun g =>
      ⟨fun h => h.congr (congrFun hcode g).symm, fun h => h.congr (congrFun hcode g)⟩
    rw [heq, State.finish_done, PutNotStranded]
    simp only [hput, hstore]
    rcases hwake with ⟨hq, hqt, -⟩ | ⟨g, gs, hq, hqt, hw⟩
    · rw [hq, hqt]
      simp
    · rw [hq, hqt, hw]
      constructor
      · rintro h _ _ ⟨rfl, rfl⟩ hex
        obtain ⟨g', hg', hstoring⟩ := h hempty hex
        rcases List.mem_append.1 hg' with hg' | hg'
        · exact Or.inr ⟨g', hg', hstoring⟩
        · exact Or.inl (List.mem_singleton.1 hg' ▸ hstoring)
      · intro h _ hex
        rcases h g gs rfl hex with hstoring | ⟨g', hg', hstoring⟩
        · exact ⟨g, List.mem_append_right _ (List.mem_singleton_self g), hstoring⟩
        · exact ⟨g', List.mem_append_left _ hg', hstoring⟩

/-- One step keeps the blocked putters from being stranded exactly when it hands on. -/
theorem putNotStranded_step_iff {s t : State F Queue (Access T E) (Data F T E)}
    {l : Label F Queue (Access T E)} (h : PutNotStranded s)
    (hstep : (programAccess F T E).step s l = some t) : PutNotStranded t ↔ HandsOn s l := by
  rcases Program.step_cases hstep with ⟨f, a, rfl, hf, rfl⟩ | ⟨f, a, rfl, hf, -, rfl⟩ |
    ⟨q, f, a, a', -, -, he, -, -⟩
  · simp only [programAccess]
    by_cases ha : a = .call .take ∧ s.data.validFor f = true
    · obtain ⟨rfl, hv⟩ := ha
      rw [putNotStranded_take_iff hv]
      exact ⟨fun hok f' g gs _ _ => hok g gs, fun hok g gs => hok f g gs rfl hv⟩
    · refine iff_of_true (putNotStranded_exec hf (Or.inl h) ha) fun f' g gs hl hv => ?_
      cases hl
      exact absurd ⟨rfl, hv⟩ ha
  · simp only [programAccess]
    have hruns : (Label.resume f : Label F Queue (Access T E)).runs s = some (f, a) := by
      simp [Label.runs, hf]
    have hcode := s.start_code_self f
    by_cases ha : a = .call .take ∧ s.data.validFor f = true
    · obtain ⟨rfl, hv⟩ := ha
      have hput : ¬ Putting s f := by
        rintro ⟨item, hitem⟩
        rw [hf] at hitem
        cases hitem
      have hstore : ¬ Storing s f := fun h => hput h.putting
      rw [putNotStranded_take_iff (s := s.start f) hv, exists_woken_start_iff hstore]
      simp only [putting_start_iff hput, storing_start_iff hstore]
      refine ⟨fun hok f' g gs _ _ => hok g gs, fun hok g gs => hok f g gs hruns hv⟩
    · refine iff_of_true (putNotStranded_exec hcode ?_ ha) fun f' g gs hl hv => ?_
      · by_cases hstore : Storing s f
        · obtain ⟨item, hitem, hne⟩ := hstore
          exact Or.inr ⟨item, Option.some.inj (hf.symm.trans hitem), hne⟩
        · exact Or.inl (h.start hstore)
      · rw [hruns] at hl
        cases hl
        exact absurd ⟨rfl, hv⟩ ha
  · cases he

/-- Along an interleaving no blocked putter is ever stranded exactly when every `take`
that completes hands on. -/
theorem putNotStranded_always_iff (ls : List (Label F Queue (Access T E)))
    (s : State F Queue (Access T E) (Data F T E))
    (hr : Transition.run (programAccess F T E).step (State.idle (Data.init F T E)) ls =
      some s) :
    Transition.Always (programAccess F T E).step PutNotStranded
        (State.idle (Data.init F T E)) ls ↔
      Transition.Guarded (programAccess F T E).step HandsOn
        (State.idle (Data.init F T E)) ls := by
  have hinit : PutNotStranded (State.idle (Data.init F T E) :
      State F Queue (Access T E) (Data F T E)) := by
    rintro - ⟨g, hg, -⟩
    cases hg
  exact Transition.always_iff_guarded_of_run (I := fun _ => True) (fun _ _ _ _ _ => trivial)
    (fun _ _ _ _ hs hstep => putNotStranded_step_iff hs hstep) trivial hinit hr

/-- The mailbox is full. Fiber 2 waits in `put`, before fiber 3 in `wait_empty` and fiber
4 in `put` again. -/
def putterFirst : List (Label ℕ Queue (Access ℕ Unit)) :=
  [.call 1 (.call (.put (.value 10))), .call 2 (.call (.put (.value 11))), .call 3 .waitEmpty,
    .call 4 (.call (.put (.value 12))), .call 5 (.call .take)]

theorem putNotStranded_putterFirst :
    (Transition.run (programAccess ℕ ℕ Unit).step (State.idle (Data.init ℕ ℕ Unit))
      putterFirst).isSome ∧
    Transition.Always (programAccess ℕ ℕ Unit).step PutNotStranded
      (State.idle (Data.init ℕ ℕ Unit)) putterFirst := by
  refine ⟨rfl, (putNotStranded_always_iff putterFirst _ rfl).2 ?_⟩
  refine .cons ?_ rfl (.cons ?_ rfl (.cons ?_ rfl (.cons ?_ rfl (.cons ?_ rfl trivial))))
  all_goals
    intro f g gs h _ hq _
    cases h
  cases hq
  exact Or.inl ⟨.value 11, rfl, by decide⟩

/-- The mailbox is full. Fiber 2 waits in `wait_empty`, before fiber 3 in `put`. -/
def waiterFirst : List (Label ℕ Queue (Access ℕ Unit)) :=
  [.call 1 (.call (.put (.value 10))), .call 2 .waitEmpty, .call 3 (.call (.put (.value 11))),
    .call 4 (.call .take), .resume 2]

/-- Fiber 3 stays blocked in `put`, although the mailbox is empty and no fiber is woken. -/
theorem not_putNotStranded_waiterFirst :
    ∃ s, Transition.run (programAccess ℕ ℕ Unit).step (State.idle (Data.init ℕ ℕ Unit))
        waiterFirst = some s ∧ s.data.value.valid = false ∧ s.queue .put = [3] ∧
      s.woken = [] ∧ ¬ PutNotStranded s := by
  refine ⟨_, rfl, rfl, rfl, rfl, fun h => ?_⟩
  obtain ⟨f, hf, -⟩ := h rfl ⟨3, List.mem_singleton_self 3, .value 11, rfl⟩
  cases hf

end Mailbox

end Zth
