import Mathlib.Algebra.Group.Nat.Defs
import Mathlib.Algebra.Order.Ring.Nat
import Zth.Sync.Base

/-!
# The fiber-aware gate

A gate opens for every `count` passes. Passes are numbered, and `count` of them in
a row make up a generation. `wait` is a pass, after which the fiber is blocked if
its generation is not complete yet.

A fiber that was released may pass again before the others of its generation have
run; it then belongs to the next generation, and the others are not in the queue
any more.
-/

namespace Zth

namespace Gate

open Monitor SynchronizerBase

/-- The calls on a gate. -/
inductive Call where
  | pass
  | wait
deriving DecidableEq, Repr

/-- The code of a gate: a call, or what is left of `wait` when it was blocked. -/
inductive Code where
  | enter (c : Call)
  | waited
deriving DecidableEq, Repr

/-- `current` is the gate. The code does not have the others: `passes` counts all
passes, `completed` the generations that were released, and `own f` is the number of
the pass that the last `wait` of the fiber `f` did. -/
structure Data (F : Type*) where
  current : ℕ
  passes : ℕ
  completed : ℕ
  own : F → ℕ

/-- A new gate. -/
def Data.init (F : Type*) : Data F := ⟨0, 0, 0, fun _ => 0⟩

variable {F : Type*} [DecidableEq F]

/-- `pass`; returns whether this completes a generation. Both numbers are of type
`size_t`. -/
def pass (count : ℕ) (s : State F Unit Code (Data F)) : State F Unit Code (Data F) × Bool :=
  let d := s.data
  let current := (d.current + 1) % 2 ^ 64
  if count ≤ current then
    let d := { d with
      current := current - count, passes := d.passes + 1, completed := d.completed + 1 }
    ((unblockAll () (s.setData d)).1, true)
  else
    (s.setData { d with current := current, passes := d.passes + 1 }, false)

/-- The pass that a `wait` is about to do is its own. -/
def Data.join (f : F) (d : Data F) : Data F :=
  { d with own := Function.update d.own f d.passes }

/-- The code of the gate. -/
def exec (count : ℕ) (f : F) (c : Code) (s : State F Unit Code (Data F)) :
    State F Unit Code (Data F) × Outcome Unit Code :=
  match c with
  | .enter .pass => ((pass count s).1, .done)
  | .enter .wait =>
      match pass count (s.setData (s.data.join f)) with
      | (s, true) => (s, .done)
      | (s, false) => (s, .block () .waited)
  | .waited => (s, .done)

/-- The gate as a monitor. -/
def program (F : Type*) [DecidableEq F] (count : ℕ) : Program F Unit Code (Data F) where
  exec := exec count
  expired _ := none

/-- One step of a gate. -/
def step (count : ℕ) : State F Unit Code (Data F) → Label F Unit Call →
    Option (State F Unit Code (Data F)) :=
  (program F count).stepBy .enter

/-- The passes of the generations that were released, and of the current one. The
fibers in the queue passed in the current generation, and the woken ones before. -/
structure Invariant (count : ℕ) (s : State F Unit Code (Data F)) : Prop where
  wellFormed : s.WellFormed
  code : s.CodeAll (· = .waited)
  current_lt : s.data.current < count
  passes : s.data.passes = s.data.completed * count + s.data.current
  queue_le : (s.queue ()).length ≤ s.data.current
  queue_own : ∀ f ∈ s.queue (), s.data.completed * count ≤ s.data.own f ∧
    s.data.own f < s.data.passes
  woken_own : ∀ f ∈ s.woken, s.data.own f < s.data.completed * count

omit [DecidableEq F] in
/-- A pass completes the generation if it is the last of it. -/
theorem pass_spec {count : ℕ} (hcount : count < 2 ^ 64) {s : State F Unit Code (Data F)}
    (hcur : s.data.current < count) :
    (s.data.current + 1 = count ∧
      pass count s = (((s.setData { s.data with
        current := 0, passes := s.data.passes + 1,
        completed := s.data.completed + 1 }).wakeAll ()).1, true)) ∨
    (s.data.current + 1 < count ∧
      pass count s = (s.setData { s.data with
        current := s.data.current + 1, passes := s.data.passes + 1 }, false)) := by
  have hmod : (s.data.current + 1) % 2 ^ 64 = s.data.current + 1 := Nat.mod_eq_of_lt (by omega)
  by_cases hlast : s.data.current + 1 = count
  · refine Or.inl ⟨hlast, ?_⟩
    rw [pass, hmod, if_pos hlast.ge, hlast, Nat.sub_self]
    rfl
  · have hlt : s.data.current + 1 < count := by omega
    refine Or.inr ⟨hlt, ?_⟩
    rw [pass, hmod, if_neg (Nat.not_le.2 hlt)]

omit [DecidableEq F] in
theorem invariant_idle {count : ℕ} (h : 1 ≤ count) :
    Invariant count (State.idle (Data.init F)) where
  wellFormed := .idle _
  code f c hf := by simp [State.idle] at hf
  current_lt := h
  passes := by simp [State.idle, Data.init]
  queue_le := Nat.le_refl 0
  queue_own f hf := by simp [State.idle] at hf
  woken_own f hf := by simp [State.idle] at hf

omit [DecidableEq F] in
/-- A pass that is not the last of its generation. -/
theorem Invariant.passed {count : ℕ} {s : State F Unit Code (Data F)} (h : Invariant count s)
    (hlt : s.data.current + 1 < count) :
    Invariant count (s.setData { s.data with
      current := s.data.current + 1, passes := s.data.passes + 1 }) where
  wellFormed := h.wellFormed.setData _
  code := h.code
  current_lt := hlt
  passes := by
    rw [State.setData_data, h.passes]
    rfl
  queue_le := h.queue_le.trans (Nat.le_succ _)
  queue_own f hf := ⟨(h.queue_own f hf).1, Nat.lt_succ_of_lt (h.queue_own f hf).2⟩
  woken_own := h.woken_own

omit [DecidableEq F] in
/-- A pass that completes its generation. All fibers in the queue passed before it. -/
theorem Invariant.released {count : ℕ} {s : State F Unit Code (Data F)}
    (h : Invariant count s) (hlast : s.data.current + 1 = count) :
    Invariant count ((s.setData { s.data with
      current := 0, passes := s.data.passes + 1,
      completed := s.data.completed + 1 }).wakeAll ()).1 where
  wellFormed := (h.wellFormed.setData _).wakeAll ()
  code := h.code
  current_lt := by
    change 0 < count
    omega
  passes := by
    change s.data.passes + 1 = (s.data.completed + 1) * count + 0
    rw [h.passes, Nat.add_assoc, hlast, Nat.succ_mul, Nat.add_zero]
  queue_le := by simp [State.wakeAll]
  queue_own f hf := by simp [State.wakeAll] at hf
  woken_own f hf := by
    change s.data.own f < (s.data.completed + 1) * count
    rw [Nat.succ_mul]
    rcases List.mem_append.1 hf with hf | hf
    · exact Nat.lt_of_lt_of_le (h.woken_own f hf) (Nat.le_add_right _ _)
    · have := (h.queue_own f hf).2
      have := h.passes
      omega

/-- A fiber that is not inside `wait` notes its own pass. -/
theorem Invariant.join {count : ℕ} {s : State F Unit Code (Data F)} (h : Invariant count s)
    {f : F} (hf : s.code f = none) : Invariant count (s.setData (s.data.join f)) := by
  obtain ⟨hw, hq⟩ := h.wellFormed.not_mem hf
  have hother : ∀ g, g ≠ f → (s.data.join f).own g = s.data.own g :=
    fun g hg => Function.update_of_ne hg _ _
  refine ⟨h.wellFormed.setData _, h.code, h.current_lt, h.passes, h.queue_le, ?_, ?_⟩
  · intro g hg
    rw [State.setData_data, hother g (fun hgf => hq () (hgf ▸ hg))]
    exact h.queue_own g hg
  · intro g hg
    rw [State.setData_data, hother g (fun hgf => hw (hgf ▸ hg))]
    exact h.woken_own g hg

/-- A fiber that passed just now is blocked in its generation. -/
theorem Invariant.block {count : ℕ} {s : State F Unit Code (Data F)} (h : Invariant count s)
    {f : F} (hf : s.code f = none) (hlt : (s.queue ()).length < s.data.current)
    (hown : s.data.own f + 1 = s.data.passes) :
    Invariant count (State.finish f (s, .block () .waited)) := by
  refine ⟨h.wellFormed.finish hf _, h.code.finish_block f () rfl, h.current_lt, h.passes, ?_, ?_,
    h.woken_own⟩
  · rw [State.finish_block_queue, Function.update_self, List.length_append]
    exact hlt
  · intro g hg
    rw [State.finish_block_queue, Function.update_self, List.mem_append,
      List.mem_singleton] at hg
    rcases hg with hg | rfl
    · exact h.queue_own g hg
    · have := h.passes
      refine ⟨?_, ?_⟩
      · change s.data.completed * count ≤ s.data.own g
        omega
      · exact Nat.lt_of_succ_le hown.le

/-- One piece of code of the gate. -/
theorem Invariant.exec {count : ℕ} (hcount : count < 2 ^ 64) {s : State F Unit Code (Data F)}
    (h : Invariant count s) {f : F} (hf : s.code f = none) (c : Code) :
    Invariant count (State.finish f ((program F count).exec f c s)) := by
  cases c with
  | waited => exact h
  | enter c =>
      cases c with
      | pass =>
          change Invariant count (pass count s).1
          rcases pass_spec hcount h.current_lt with ⟨hlast, heq⟩ | ⟨hlt, heq⟩
          · rw [heq]
            exact h.released hlast
          · rw [heq]
            exact h.passed hlt
      | wait =>
          have hjoin := h.join hf
          simp only [program, Gate.exec]
          rcases pass_spec hcount hjoin.current_lt with ⟨hlast, heq⟩ | ⟨hlt, heq⟩
          · rw [heq]
            exact hjoin.released hlast
          · rw [heq]
            refine (hjoin.passed hlt).block hf (Nat.lt_succ_of_le h.queue_le) ?_
            simp [Data.join]

theorem Invariant.step {count : ℕ} (hcount : count < 2 ^ 64) {s t : State F Unit Code (Data F)}
    {l : Label F Unit Call} (h : Invariant count s) (hstep : step count s l = some t) :
    Invariant count t := by
  rcases Program.stepBy_cases hstep with ⟨f, c, -, hf, rfl⟩ | ⟨f, c, -, -, hw, rfl⟩ |
    ⟨q, f, c, c', -, -, he, -, -⟩
  · exact h.exec hcount hf _
  · have hstart : Invariant count (s.start f) :=
      ⟨h.wellFormed.start hw, h.code.start f, h.current_lt, h.passes, h.queue_le, h.queue_own,
        fun g hg => h.woken_own g (List.mem_of_mem_erase hg)⟩
    exact hstart.exec hcount (s.start_code_self f) _
  · cases he

/-- In every interleaving: a generation is completed by every `count` passes, the
queue is not longer than the current generation, and a fiber inside `wait` is in the
queue exactly as long as the generation of its own pass is not completed. -/
theorem cyclic_barrier (count : ℕ) (hpos : 1 ≤ count) (hcount : count < 2 ^ 64)
    (ls : List (Label F Unit Call)) (s : State F Unit Code (Data F))
    (hr : Transition.run (step count) (State.idle (Data.init F)) ls = some s) :
    s.data.current < count ∧ s.data.completed = s.data.passes / count ∧
      (s.queue ()).length ≤ s.data.current ∧
      (∀ f, s.code f ≠ none → (f ∈ s.queue () ↔ s.data.completed ≤ s.data.own f / count)) ∧
      ∀ f, s.code f ≠ none → (f ∈ s.woken ↔ s.data.own f / count < s.data.completed) := by
  have h : Invariant count s :=
    Transition.run_invariant (fun _ _ _ hs hstep => hs.step hcount hstep)
      (invariant_idle hpos) hr
  have hqueue : ∀ f ∈ s.queue (), s.data.completed ≤ s.data.own f / count := fun f hf =>
    (Nat.le_div_iff_mul_le hpos).2 (h.queue_own f hf).1
  have hwoken : ∀ f ∈ s.woken, s.data.own f / count < s.data.completed := fun f hf =>
    (Nat.div_lt_iff_lt_mul hpos).2 (h.woken_own f hf)
  have hplace : ∀ f, s.code f ≠ none → f ∈ s.woken ∨ f ∈ s.queue () := by
    intro f hf
    rcases (h.wellFormed.code_iff f).1 hf with hw | ⟨q, hq⟩
    · exact Or.inl hw
    · exact Or.inr hq
  refine ⟨h.current_lt, ?_, h.queue_le, fun f hf => ⟨hqueue f, fun hle => ?_⟩,
    fun f hf => ⟨hwoken f, fun hlt => ?_⟩⟩
  · rw [h.passes, Nat.mul_comm, Nat.mul_add_div hpos, Nat.div_eq_of_lt h.current_lt,
      Nat.add_zero]
  · exact (hplace f hf).resolve_left fun hw => Nat.not_lt.2 hle (hwoken f hw)
  · exact (hplace f hf).resolve_right fun hq => Nat.not_lt.2 (hqueue f hq) hlt

/-- Fibers 1 and 2 wait for a third pass. Fiber 1 is released and waits again before
fiber 2 has run. -/
def passedTwice : List (Label ℕ Unit Call) :=
  [.call 1 .wait, .call 2 .wait, .call 3 .pass, .resume 1, .call 1 .wait]

theorem cyclic_barrier_passedTwice :
    ∃ s, Transition.run (step 3) (State.idle (Data.init ℕ)) passedTwice = some s ∧
      s.data.completed = 1 ∧ s.data.current = 1 ∧ s.queue () = [1] ∧ s.woken = [2] ∧
      (1 ∈ s.queue () ↔ s.data.completed ≤ s.data.own 1 / 3) := by
  refine ⟨_, rfl, rfl, rfl, rfl, rfl, ?_⟩
  exact (cyclic_barrier 3 (by decide) (by decide) passedTwice _ rfl).2.2.2.1 1 (by decide)

end Gate

end Zth
