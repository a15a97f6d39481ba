import Mathlib.Data.List.Nodup
import Mathlib.Logic.Function.Basic
import Mathlib.Tactic.Common
import Zth.Library.Run

/-!
# Monitors of cooperating processes

A monitor is an object with some data and a number of queues, used by processes
that take turns: a process runs a piece of code without interruption until it
either is done or blocks in a queue. A blocked process is taken from its queue
by another one, or because the deadline of its wait passed. It is then *woken*,
and goes on at some later moment with the code it left behind. In between,
other processes may run; a run of a monitor is any interleaving of these pieces.

`WellFormed` is the bookkeeping every monitor keeps: a process that is in the
middle of a call is in one queue once, or is woken, and no other process is in
either. The code of a monitor keeps it as long as it leaves the bookkeeping to
`wakeFirst` and `wakeAll`.
-/

namespace Monitor

/-- The state of a monitor. `code f` is the code that the process `f`, which is
in the middle of a call, goes on with. -/
structure State (F Q O D : Type*) where
  data : D
  queue : Q → List F
  woken : List F
  code : F → Option O

/-- How a piece of code ends: the call is done, or the process blocks in a queue
and leaves the code it goes on with. -/
inductive Outcome (Q O : Type*) where
  | done
  | block (q : Q) (o : O)

/-- The same end, in terms of other code. -/
def Outcome.map {Q O O' : Type*} (g : O → O') : Outcome Q O → Outcome Q O'
  | .done => .done
  | .block q o => .block q (g o)

/-- The code of a monitor. `exec f o` is what the process `f` does when it runs
the code `o`; `expired o` is the code a process goes on with when the wait that
left `o` behind is ended by its deadline, if it has one. -/
structure Program (F Q O D : Type*) where
  exec : F → O → State F Q O D → State F Q O D × Outcome Q O
  expired : O → Option O

/-- What may happen next: a process calls, a woken process goes on, or the
deadline of a blocked process passes. -/
inductive Label (F Q O : Type*) where
  | call (f : F) (o : O)
  | resume (f : F)
  | expire (q : Q) (f : F)

namespace State

variable {F Q O D : Type*}

/-- A monitor that no process is using. -/
def idle (d : D) : State F Q O D := ⟨d, fun _ => [], [], fun _ => none⟩

/-- Replace the data. -/
def setData (s : State F Q O D) (d : D) : State F Q O D := { s with data := d }

@[simp] theorem setData_data (s : State F Q O D) (d : D) : (s.setData d).data = d := rfl

@[simp] theorem setData_queue (s : State F Q O D) (d : D) :
    (s.setData d).queue = s.queue := rfl

@[simp] theorem setData_woken (s : State F Q O D) (d : D) :
    (s.setData d).woken = s.woken := rfl

@[simp] theorem setData_code (s : State F Q O D) (d : D) :
    (s.setData d).code = s.code := rfl

/-- The bookkeeping of the processes. -/
structure WellFormed (s : State F Q O D) : Prop where
  queue_nodup : ∀ q, (s.queue q).Nodup
  woken_nodup : s.woken.Nodup
  queue_not_woken : ∀ q f, f ∈ s.queue q → f ∉ s.woken
  queue_unique : ∀ q q' f, f ∈ s.queue q → f ∈ s.queue q' → q = q'
  code_iff : ∀ f, s.code f ≠ none ↔ f ∈ s.woken ∨ ∃ q, f ∈ s.queue q

theorem WellFormed.idle (d : D) : (State.idle d : State F Q O D).WellFormed where
  queue_nodup _ := List.nodup_nil
  woken_nodup := List.nodup_nil
  queue_not_woken q f h := by simp [State.idle] at h
  queue_unique q q' f h := by simp [State.idle] at h
  code_iff f := by simp [State.idle]

theorem WellFormed.setData {s : State F Q O D} (h : s.WellFormed) (d : D) :
    (s.setData d).WellFormed :=
  ⟨h.queue_nodup, h.woken_nodup, h.queue_not_woken, h.queue_unique, h.code_iff⟩

/-- All code that processes are in the middle of satisfies `p`. -/
def CodeAll (p : O → Prop) (s : State F Q O D) : Prop :=
  ∀ f o, s.code f = some o → p o

/-- One process goes on with other code. -/
theorem CodeAll.of_update [DecidableEq F] {p : O → Prop} {s t : State F Q O D}
    (h : s.CodeAll p) {f : F} {o : O} (ho : p o)
    (ht : t.code = Function.update s.code f (some o)) : t.CodeAll p := by
  intro g o' hg
  rw [ht] at hg
  by_cases hgf : g = f
  · rw [hgf, Function.update_self] at hg
    exact Option.some.inj hg ▸ ho
  · rw [Function.update_of_ne hgf] at hg
    exact h g o' hg

/-- A process that is not in the middle of a call is nowhere. -/
theorem WellFormed.not_mem {s : State F Q O D} (h : s.WellFormed) {f : F}
    (hf : s.code f = none) : f ∉ s.woken ∧ ∀ q, f ∉ s.queue q := by
  have hn : ¬ (f ∈ s.woken ∨ ∃ q, f ∈ s.queue q) := by
    rw [← h.code_iff f]
    exact not_not.2 hf
  rw [not_or, not_exists] at hn
  exact hn

/-- A blocked process has code to go on with. -/
theorem WellFormed.code_of_queue {s : State F Q O D} (h : s.WellFormed) {q : Q} {f : F}
    (hf : f ∈ s.queue q) : ∃ o, s.code f = some o :=
  Option.ne_none_iff_exists'.1 ((h.code_iff f).2 (Or.inr ⟨q, hf⟩))

/-- A woken process has code to go on with. -/
theorem WellFormed.code_of_woken {s : State F Q O D} (h : s.WellFormed) {f : F}
    (hf : f ∈ s.woken) : ∃ o, s.code f = some o :=
  Option.ne_none_iff_exists'.1 ((h.code_iff f).2 (Or.inl hf))

section Start

variable [DecidableEq F]

/-- A woken process starts to run: it is not woken any more, and what it was in
the middle of is now up to the code it runs. -/
def start (s : State F Q O D) (f : F) : State F Q O D :=
  { s with woken := s.woken.erase f, code := Function.update s.code f none }

@[simp] theorem start_data (s : State F Q O D) (f : F) :
    (s.start f).data = s.data := rfl

@[simp] theorem start_queue (s : State F Q O D) (f : F) :
    (s.start f).queue = s.queue := rfl

@[simp] theorem start_woken (s : State F Q O D) (f : F) :
    (s.start f).woken = s.woken.erase f := rfl

@[simp] theorem start_code (s : State F Q O D) (f : F) :
    (s.start f).code = Function.update s.code f none := rfl

theorem WellFormed.start {s : State F Q O D} (h : s.WellFormed) {f : F}
    (hf : f ∈ s.woken) : (s.start f).WellFormed := by
  have hnq : ∀ q, f ∉ s.queue q := fun q hq => h.queue_not_woken q f hq hf
  refine ⟨h.queue_nodup, h.woken_nodup.erase f, ?_, h.queue_unique, ?_⟩
  · intro q g hg hw
    exact h.queue_not_woken q g hg (List.mem_of_mem_erase hw)
  · intro g
    by_cases hgf : g = f
    · subst hgf
      simp [State.start, h.woken_nodup.not_mem_erase, hnq]
    · simp only [State.start, Function.update_of_ne hgf, List.mem_erase_of_ne hgf]
      exact h.code_iff g

theorem start_code_self (s : State F Q O D) (f : F) : (s.start f).code f = none := by
  rw [start_code, Function.update_self]

theorem start_code_of_ne (s : State F Q O D) {f g : F} (h : g ≠ f) :
    (s.start f).code g = s.code g := by
  rw [start_code, Function.update_of_ne h]

theorem CodeAll.start {p : O → Prop} {s : State F Q O D} (h : s.CodeAll p) (f : F) :
    (s.start f).CodeAll p := by
  intro g o hg
  by_cases hgf : g = f
  · rw [hgf, start_code_self] at hg
    cases hg
  · rw [start_code_of_ne s hgf] at hg
    exact h g o hg

/-- A process gives way to the others: it stays awake, and goes on with `o` later. -/
def yield (s : State F Q O D) (f : F) (o : O) : State F Q O D :=
  { s with woken := s.woken ++ [f], code := Function.update s.code f (some o) }

@[simp] theorem yield_data (s : State F Q O D) (f : F) (o : O) :
    (s.yield f o).data = s.data := rfl

@[simp] theorem yield_queue (s : State F Q O D) (f : F) (o : O) :
    (s.yield f o).queue = s.queue := rfl

@[simp] theorem yield_woken (s : State F Q O D) (f : F) (o : O) :
    (s.yield f o).woken = s.woken ++ [f] := rfl

@[simp] theorem yield_code (s : State F Q O D) (f : F) (o : O) :
    (s.yield f o).code = Function.update s.code f (some o) := rfl

theorem WellFormed.yield {s : State F Q O D} (h : s.WellFormed) {f : F}
    (hf : s.code f = none) (o : O) : (s.yield f o).WellFormed := by
  obtain ⟨hw, hnq⟩ := h.not_mem hf
  refine ⟨h.queue_nodup, ?_, ?_, h.queue_unique, ?_⟩
  · refine List.nodup_append.2 ⟨h.woken_nodup, List.nodup_singleton f, ?_⟩
    rintro a ha b hb rfl
    rw [List.mem_singleton] at hb
    exact hw (hb ▸ ha)
  · intro q g hg hgw
    rw [yield_woken, List.mem_append, List.mem_singleton] at hgw
    rcases hgw with hgw | rfl
    · exact h.queue_not_woken q g hg hgw
    · exact hnq q hg
  · intro g
    by_cases hgf : g = f
    · subst hgf
      simp
    · simp only [yield_code, yield_woken, yield_queue, Function.update_of_ne hgf,
        List.mem_append, List.mem_singleton, hgf, or_false]
      exact h.code_iff g

theorem CodeAll.yield {p : O → Prop} {s : State F Q O D} (h : s.CodeAll p) (f : F) {o : O}
    (ho : p o) : (s.yield f o).CodeAll p :=
  h.of_update ho rfl

end Start

variable [DecidableEq Q]

/-- Wake all processes of a queue; tells whether there were any. -/
def wakeAll (s : State F Q O D) (q : Q) : State F Q O D × Bool :=
  ({ s with queue := Function.update s.queue q [], woken := s.woken ++ s.queue q },
    !(s.queue q).isEmpty)

@[simp] theorem wakeAll_data (s : State F Q O D) (q : Q) :
    (s.wakeAll q).1.data = s.data := rfl

@[simp] theorem wakeAll_code (s : State F Q O D) (q : Q) :
    (s.wakeAll q).1.code = s.code := rfl

theorem WellFormed.wakeAll {s : State F Q O D} (h : s.WellFormed) (q : Q) :
    (s.wakeAll q).1.WellFormed := by
  have hmem : ∀ q' g, g ∈ (s.wakeAll q).1.queue q' ↔ q' ≠ q ∧ g ∈ s.queue q' := by
    intro q' g
    by_cases hqq : q' = q
    · subst hqq
      simp [State.wakeAll]
    · simp [State.wakeAll, hqq]
  refine ⟨?_, ?_, ?_, ?_, ?_⟩
  · intro q'
    by_cases hqq : q' = q
    · subst hqq
      simp [State.wakeAll]
    · simpa [State.wakeAll, Function.update_of_ne hqq] using h.queue_nodup q'
  · refine List.nodup_append.2 ⟨h.woken_nodup, h.queue_nodup q, ?_⟩
    rintro a ha b hb rfl
    exact h.queue_not_woken q a hb ha
  · intro q' g hg hw
    obtain ⟨hne, hg⟩ := (hmem q' g).1 hg
    rcases List.mem_append.1 hw with hw | hw
    · exact h.queue_not_woken q' g hg hw
    · exact hne (h.queue_unique q' q g hg hw)
  · intro q' q'' g hg hg'
    exact h.queue_unique q' q'' g ((hmem q' g).1 hg).2 ((hmem q'' g).1 hg').2
  · intro g
    rw [wakeAll_code, h.code_iff g]
    simp only [hmem]
    constructor
    · rintro (hw | ⟨q', hg⟩)
      · exact Or.inl (List.mem_append_left _ hw)
      · by_cases hqq : q' = q
        · subst hqq
          exact Or.inl (List.mem_append_right _ hg)
        · exact Or.inr ⟨q', hqq, hg⟩
    · rintro (hw | ⟨q', -, hg⟩)
      · rcases List.mem_append.1 hw with hw | hw
        · exact Or.inl hw
        · exact Or.inr ⟨q, hw⟩
      · exact Or.inr ⟨q', hg⟩

variable [DecidableEq F]

/-- Wake a process that is blocked in a queue. -/
def wake (s : State F Q O D) (q : Q) (f : F) : State F Q O D :=
  { s with
    queue := Function.update s.queue q ((s.queue q).erase f)
    woken := s.woken ++ [f] }

/-- Wake the first process of a queue, if there is one. -/
def wakeFirst (s : State F Q O D) (q : Q) : State F Q O D × Option F :=
  match s.queue q with
  | [] => (s, none)
  | f :: _ => (s.wake q f, some f)

/-- A process ends its piece of code. -/
def finish (f : F) : State F Q O D × Outcome Q O → State F Q O D
  | (s, .done) => s
  | (s, .block q o) =>
      { s with
        queue := Function.update s.queue q (s.queue q ++ [f])
        code := Function.update s.code f (some o) }

@[simp] theorem finish_done (f : F) (s : State F Q O D) :
    finish f (s, .done) = s := rfl

@[simp] theorem finish_block_data (f : F) (s : State F Q O D) (q : Q) (o : O) :
    (finish f (s, .block q o)).data = s.data := rfl

@[simp] theorem finish_block_woken (f : F) (s : State F Q O D) (q : Q) (o : O) :
    (finish f (s, .block q o)).woken = s.woken := rfl

@[simp] theorem finish_block_queue (f : F) (s : State F Q O D) (q : Q) (o : O) :
    (finish f (s, .block q o)).queue =
      Function.update s.queue q (s.queue q ++ [f]) := rfl

@[simp] theorem finish_block_code (f : F) (s : State F Q O D) (q : Q) (o : O) :
    (finish f (s, .block q o)).code = Function.update s.code f (some o) := rfl

theorem CodeAll.finish_block {p : O → Prop} {s : State F Q O D} (h : s.CodeAll p)
    (f : F) (q : Q) {o : O} (ho : p o) : (finish f (s, .block q o)).CodeAll p :=
  h.of_update ho rfl

/-- The wait of a blocked process is ended by its deadline. -/
def expire (s : State F Q O D) (q : Q) (f : F) (o : O) : State F Q O D :=
  { s.wake q f with code := Function.update s.code f (some o) }

@[simp] theorem wake_queue (s : State F Q O D) (q : Q) (f : F) :
    (s.wake q f).queue = Function.update s.queue q ((s.queue q).erase f) := rfl

@[simp] theorem wake_woken (s : State F Q O D) (q : Q) (f : F) :
    (s.wake q f).woken = s.woken ++ [f] := rfl

@[simp] theorem wake_code (s : State F Q O D) (q : Q) (f : F) :
    (s.wake q f).code = s.code := rfl

theorem wakeFirst_of_nil {s : State F Q O D} {q : Q} (h : s.queue q = []) :
    s.wakeFirst q = (s, none) := by
  simp [wakeFirst, h]

theorem wakeFirst_of_cons {s : State F Q O D} {q : Q} {f : F} {fs : List F}
    (h : s.queue q = f :: fs) : s.wakeFirst q = (s.wake q f, some f) := by
  simp [wakeFirst, h]

@[simp] theorem wakeFirst_data (s : State F Q O D) (q : Q) :
    (s.wakeFirst q).1.data = s.data := by
  unfold wakeFirst
  split <;> rfl

@[simp] theorem wakeFirst_code (s : State F Q O D) (q : Q) :
    (s.wakeFirst q).1.code = s.code := by
  unfold wakeFirst
  split <;> rfl

/-- Waking the first process of a queue removes it from that queue, and only
adds to the woken ones. -/
theorem wakeFirst_spec (s : State F Q O D) (q : Q) :
    (s.queue q = [] ∧ s.wakeFirst q = (s, none)) ∨
      ∃ f fs, s.queue q = f :: fs ∧ (s.wakeFirst q).2 = some f ∧
        (s.wakeFirst q).1.queue = Function.update s.queue q fs ∧
        (s.wakeFirst q).1.woken = s.woken ++ [f] := by
  cases hq : s.queue q with
  | nil => exact Or.inl ⟨rfl, wakeFirst_of_nil hq⟩
  | cons f fs =>
      refine Or.inr ⟨f, fs, rfl, ?_⟩
      rw [wakeFirst_of_cons hq]
      simp [wake, hq]

theorem WellFormed.wake {s : State F Q O D} (h : s.WellFormed) {q : Q} {f : F}
    (hf : f ∈ s.queue q) : (s.wake q f).WellFormed := by
  have hmem : ∀ q' g, g ∈ (s.wake q f).queue q' ↔ g ∈ s.queue q' ∧ g ≠ f := by
    intro q' g
    by_cases hqq : q' = q
    · subst hqq
      rw [wake_queue, Function.update_self, (h.queue_nodup q').mem_erase_iff, and_comm]
    · rw [wake_queue, Function.update_of_ne hqq]
      refine ⟨fun hg => ⟨hg, ?_⟩, And.left⟩
      rintro rfl
      exact hqq (h.queue_unique q' q g hg hf)
  refine ⟨?_, ?_, ?_, ?_, ?_⟩
  · intro q'
    by_cases hqq : q' = q
    · subst hqq
      simpa using (h.queue_nodup q').erase f
    · simpa [Function.update_of_ne hqq] using h.queue_nodup q'
  · refine List.nodup_append.2 ⟨h.woken_nodup, List.nodup_singleton f, ?_⟩
    rintro a ha b hb rfl
    rw [List.mem_singleton] at hb
    exact h.queue_not_woken q f hf (hb ▸ ha)
  · intro q' g hg hw
    obtain ⟨hg, hne⟩ := (hmem q' g).1 hg
    rw [wake_woken, List.mem_append, List.mem_singleton] at hw
    exact hw.elim (h.queue_not_woken q' g hg) hne
  · intro q' q'' g hg hg'
    exact h.queue_unique q' q'' g ((hmem q' g).1 hg).1 ((hmem q'' g).1 hg').1
  · intro g
    simp only [hmem, wake_code, wake_woken, List.mem_append, List.mem_singleton]
    rw [h.code_iff g]
    by_cases hgf : g = f
    · subst hgf
      exact iff_of_true (Or.inr ⟨q, hf⟩) (Or.inl (Or.inr rfl))
    · simp [hgf]

theorem WellFormed.wakeFirst {s : State F Q O D} (h : s.WellFormed) (q : Q) :
    (s.wakeFirst q).1.WellFormed := by
  cases hq : s.queue q with
  | nil =>
      rw [wakeFirst_of_nil hq]
      exact h
  | cons f fs =>
      rw [wakeFirst_of_cons hq]
      exact h.wake (by rw [hq]; exact List.mem_cons_self)

theorem WellFormed.finish {s : State F Q O D} (h : s.WellFormed) {f : F}
    (hf : s.code f = none) (r : Outcome Q O) : (State.finish f (s, r)).WellFormed := by
  obtain ⟨hw, hnq⟩ := h.not_mem hf
  cases r with
  | done => exact h
  | block q o =>
      have hmem : ∀ q' g, g ∈ (State.finish f (s, .block q o)).queue q' ↔
          g ∈ s.queue q' ∨ (q' = q ∧ g = f) := by
        intro q' g
        by_cases hqq : q' = q
        · subst hqq
          simp [State.finish]
        · simp [State.finish, hqq]
      refine ⟨?_, h.woken_nodup, ?_, ?_, ?_⟩
      · intro q'
        by_cases hqq : q' = q
        · subst hqq
          simp only [State.finish, Function.update_self]
          refine List.nodup_append.2 ⟨h.queue_nodup q', List.nodup_singleton f, ?_⟩
          rintro a ha b hb rfl
          rw [List.mem_singleton] at hb
          exact hnq q' (hb ▸ ha)
        · simpa [State.finish, Function.update_of_ne hqq] using h.queue_nodup q'
      · intro q' g hg hgw
        rcases (hmem q' g).1 hg with hg | ⟨-, rfl⟩
        · exact h.queue_not_woken q' g hg hgw
        · exact hw hgw
      · intro q' q'' g hg hg'
        rcases (hmem q' g).1 hg with hg | ⟨hq', hgf⟩ <;>
          rcases (hmem q'' g).1 hg' with hg' | ⟨hq'', hgf'⟩
        · exact h.queue_unique q' q'' g hg hg'
        · exact absurd (hgf' ▸ hg) (hnq q')
        · exact absurd (hgf ▸ hg') (hnq q'')
        · exact hq'.trans hq''.symm
      · intro g
        simp only [hmem]
        by_cases hgf : g = f
        · subst hgf
          simp [State.finish]
        · simp only [State.finish, Function.update_of_ne hgf, hgf, and_false, or_false]
          exact h.code_iff g

theorem WellFormed.expire {s : State F Q O D} (h : s.WellFormed) {q : Q} {f : F}
    (hf : f ∈ s.queue q) (o : O) : (s.expire q f o).WellFormed := by
  have hw := h.wake hf
  refine ⟨hw.queue_nodup, hw.woken_nodup, hw.queue_not_woken, hw.queue_unique, ?_⟩
  intro g
  by_cases hgf : g = f
  · subst hgf
    simp [State.expire, State.wake]
  · simp only [State.expire, Function.update_of_ne hgf]
    exact hw.code_iff g

theorem CodeAll.expire {p : O → Prop} {s : State F Q O D} (h : s.CodeAll p) (q : Q) (f : F)
    {o : O} (ho : p o) : (s.expire q f o).CodeAll p :=
  h.of_update ho rfl

end State

/-- The process and the code that a label runs. -/
def Label.runs {F Q O D : Type*} (s : State F Q O D) : Label F Q O → Option (F × O)
  | .call f o => some (f, o)
  | .resume f => (s.code f).map (f, ·)
  | .expire _ _ => none

/-- The same label, where a call runs the code that `enter` gives. -/
def Label.map {F Q C O : Type*} (enter : C → O) : Label F Q C → Label F Q O
  | .call f c => .call f (enter c)
  | .resume f => .resume f
  | .expire q f => .expire q f

namespace Program

variable {F Q O D : Type*} [DecidableEq Q] [DecidableEq F]

/-- One step of a monitor. -/
def step (P : Program F Q O D) (s : State F Q O D) :
    Label F Q O → Option (State F Q O D)
  | .call f o =>
      match s.code f with
      | none => some (State.finish f (P.exec f o s))
      | some _ => none
  | .resume f =>
      match s.code f with
      | none => none
      | some o =>
          if f ∈ s.woken then some (State.finish f (P.exec f o (s.start f)))
          else none
  | .expire q f =>
      match (s.code f).bind P.expired with
      | none => none
      | some o => if f ∈ s.queue q then some (s.expire q f o) else none

/-- What one step of a monitor can be: a piece of code of an idle process, a
piece of code of a woken process, or the end of a wait by its deadline. -/
theorem step_cases {P : Program F Q O D} {s t : State F Q O D} {l : Label F Q O}
    (h : P.step s l = some t) :
    (∃ f o, l = .call f o ∧ s.code f = none ∧ t = State.finish f (P.exec f o s)) ∨
    (∃ f o, l = .resume f ∧ s.code f = some o ∧ f ∈ s.woken ∧
      t = State.finish f (P.exec f o (s.start f))) ∨
    (∃ q f o o', l = .expire q f ∧ s.code f = some o ∧ P.expired o = some o' ∧
      f ∈ s.queue q ∧ t = s.expire q f o') := by
  cases l with
  | call f o =>
      rw [step] at h
      cases hc : s.code f with
      | none =>
          rw [hc] at h
          exact Or.inl ⟨f, o, rfl, hc, (Option.some.inj h).symm⟩
      | some o' =>
          rw [hc] at h
          cases h
  | resume f =>
      rw [step] at h
      cases hc : s.code f with
      | none =>
          rw [hc] at h
          cases h
      | some o =>
          simp only [hc] at h
          split at h
          · rename_i hw
            exact Or.inr (Or.inl ⟨f, o, rfl, hc, hw, (Option.some.inj h).symm⟩)
          · cases h
  | expire q f =>
      rw [step] at h
      cases hc : (s.code f).bind P.expired with
      | none =>
          rw [hc] at h
          cases h
      | some o' =>
          obtain ⟨o, ho, ho'⟩ := Option.bind_eq_some_iff.1 hc
          simp only [hc] at h
          split at h
          · rename_i hq
            exact Or.inr (Or.inr ⟨q, f, o, o', rfl, ho, ho', hq,
              (Option.some.inj h).symm⟩)
          · cases h

variable {C : Type*}

/-- One step of a monitor whose processes call nothing else than what `enter` gives.
The other code is only met in the middle of a call. -/
def stepBy (P : Program F Q O D) (enter : C → O) (s : State F Q O D) (l : Label F Q C) :
    Option (State F Q O D) :=
  P.step s (l.map enter)

theorem stepBy_cases {P : Program F Q O D} {enter : C → O} {s t : State F Q O D}
    {l : Label F Q C} (h : P.stepBy enter s l = some t) :
    (∃ f c, l = .call f c ∧ s.code f = none ∧ t = State.finish f (P.exec f (enter c) s)) ∨
    (∃ f o, l = .resume f ∧ s.code f = some o ∧ f ∈ s.woken ∧
      t = State.finish f (P.exec f o (s.start f))) ∨
    (∃ q f o o', l = .expire q f ∧ s.code f = some o ∧ P.expired o = some o' ∧
      f ∈ s.queue q ∧ t = s.expire q f o') := by
  cases l with
  | call f c =>
      rcases step_cases h with ⟨f', o, heq, hf, rfl⟩ | ⟨f', o, heq, -⟩ | ⟨q, f', o, o', heq, -⟩
      · cases heq
        exact Or.inl ⟨f, c, rfl, hf, rfl⟩
      · cases heq
      · cases heq
  | resume f =>
      rcases step_cases h with ⟨f', o, heq, -⟩ | ⟨f', o, heq, hf⟩ | ⟨q, f', o, o', heq, -⟩
      · cases heq
      · cases heq
        exact Or.inr (Or.inl ⟨f, o, rfl, hf⟩)
      · cases heq
  | expire q f =>
      rcases step_cases h with ⟨f', o, heq, -⟩ | ⟨f', o, heq, -⟩ | ⟨q', f', o, o', heq, hf⟩
      · cases heq
      · cases heq
      · cases heq
        exact Or.inr (Or.inr ⟨q, f, o, o', rfl, hf⟩)

end Program

end Monitor
