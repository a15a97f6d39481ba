import Zth.Sync.Base

/-!
# The fiber-aware mutex

`unlock` frees the mutex before it wakes a waiter, so a third fiber may take the
mutex first and the woken fiber then queues again at the tail. What survives is
a wake-up obligation: while the mutex is free and fibers are queued, some fiber
has been woken that is still to test `locked`.
-/

namespace Zth

namespace Mutex

open Monitor SynchronizerBase

/-- The calls on a mutex. -/
inductive Call where
  | lock
  | trylock
  | unlock
deriving DecidableEq, Repr

/-- `locked` is the mutex. The code does not have `holders`: it lists the fibers
between a successful `lock` or `trylock` and the unlock that ends it. -/
structure Data (F : Type*) where
  locked : Bool
  holders : List F
deriving DecidableEq, Repr

/-- A new mutex. -/
def Data.init (F : Type*) : Data F := ⟨false, []⟩

variable {F : Type*} [DecidableEq F]

/-- The fiber `f` has got the mutex. -/
def Data.acquired (f : F) (d : Data F) : Data F :=
  { locked := true, holders := f :: d.holders }

/-- The mutex is freed by `f`, which ends its own possession or, when it has
none, that of the fiber that locked last. -/
def Data.released (f : F) (d : Data F) : Data F :=
  { locked := false
    holders := if f ∈ d.holders then d.holders.erase f else d.holders.tail }

/-- The code of the mutex. -/
def exec (f : F) (c : Call) (s : State F Unit Call (Data F)) :
    State F Unit Call (Data F) × Outcome Unit Call :=
  match c with
  | .lock =>
      if s.data.locked then
        (s, .block () .lock)
      else
        (s.setData (s.data.acquired f), .done)
  | .trylock =>
      if s.data.locked then
        (s, .done)
      else
        (s.setData (s.data.acquired f), .done)
  | .unlock => ((unblockFirst () (s.setData (s.data.released f))).1, .done)

/-- The mutex as a monitor. -/
def program (F : Type*) [DecidableEq F] : Program F Unit Call (Data F) where
  exec := exec
  expired _ := none

/-- Mutual exclusion and the wake-up obligation. -/
structure Invariant (s : State F Unit Call (Data F)) : Prop where
  wellFormed : s.WellFormed
  code : s.CodeAll (· = .lock)
  exclusive : s.data.holders.length ≤ 1
  locked_iff : s.data.locked = true ↔ s.data.holders ≠ []
  woken : s.data.locked = false → s.queue () ≠ [] → s.woken ≠ []

theorem Data.released_holders (f : F) {d : Data F} (h : d.holders.length ≤ 1) :
    (d.released f).holders = [] := by
  obtain ⟨locked, holders⟩ := d
  match holders, h with
  | [], _ => simp [Data.released]
  | [g], _ =>
      by_cases hfg : f = g
      · simp [Data.released, hfg]
      · simp [Data.released, hfg]

omit [DecidableEq F] in
theorem invariant_idle : Invariant (State.idle (Data.init F)) where
  wellFormed := .idle _
  code f c h := by simp [State.idle] at h
  exclusive := Nat.zero_le 1
  locked_iff := by simp [State.idle, Data.init]
  woken _ h := absurd rfl h

omit [DecidableEq F] in
/-- A fiber that finds the mutex free takes it. -/
theorem invariant_acquired {s : State F Unit Call (Data F)} (f : F)
    (hwf : s.WellFormed) (hcode : s.CodeAll (· = .lock))
    (hiff : s.data.locked = true ↔ s.data.holders ≠ [])
    (hfree : s.data.locked = false) : Invariant (s.setData (s.data.acquired f)) where
  wellFormed := hwf.setData _
  code := hcode
  exclusive := by
    have hnil : s.data.holders = [] := by
      by_contra hne
      rw [hiff.2 hne] at hfree
      cases hfree
    simp [Data.acquired, hnil]
  locked_iff := by simp [Data.acquired]
  woken h := by simp [Data.acquired] at h

/-- One piece of code, of a fiber that is not in the middle of a call or of a
fiber that was woken in `lock`. The latter discharges the wake-up obligation
itself, since it tests `locked`. -/
theorem invariant_exec {s : State F Unit Call (Data F)} {f : F} {c : Call}
    (hwf : s.WellFormed) (hcode : s.CodeAll (· = .lock))
    (hexcl : s.data.holders.length ≤ 1)
    (hiff : s.data.locked = true ↔ s.data.holders ≠ [])
    (hwoken : s.data.locked = false → s.queue () ≠ [] → c = .lock ∨ s.woken ≠ [])
    (hf : s.code f = none) :
    Invariant (State.finish f ((program F).exec f c s)) := by
  cases c with
  | lock =>
      cases hl : s.data.locked with
      | true =>
          simp only [program, exec, hl, if_true]
          refine ⟨hwf.finish hf _, hcode.finish_block f () rfl, hexcl, hiff, ?_⟩
          intro h
          rw [State.finish_block_data, hl] at h
          cases h
      | false =>
          simp only [program, exec, hl, Bool.false_eq_true, if_false]
          exact invariant_acquired f hwf hcode hiff hl
  | trylock =>
      cases hl : s.data.locked with
      | true =>
          simp only [program, exec, hl, if_true]
          refine ⟨hwf, hcode, hexcl, hiff, ?_⟩
          intro h hq
          exact (hwoken h hq).resolve_left (by simp)
      | false =>
          simp only [program, exec, hl, Bool.false_eq_true, if_false]
          exact invariant_acquired f hwf hcode hiff hl
  | unlock =>
      have hnil := Data.released_holders f hexcl
      refine ⟨(hwf.setData _).wakeFirst (), ?_, ?_, ?_, ?_⟩
      · intro g c hg
        refine hcode g c ?_
        simpa [program, exec, unblockFirst, State.finish] using hg
      · simp [program, exec, unblockFirst, State.finish, hnil]
      · simp only [program, exec, unblockFirst, State.finish, State.wakeFirst_data,
          State.setData_data, hnil]
        simp [Data.released]
      · intro _ hq
        simp only [program, exec, unblockFirst, State.finish] at hq ⊢
        rcases State.wakeFirst_spec (s.setData (s.data.released f)) () with
          ⟨hnil, heq⟩ | ⟨g, gs, -, -, -, hw⟩
        · rw [heq] at hq
          exact absurd hnil hq
        · rw [hw]
          simp

theorem invariant_step {s t : State F Unit Call (Data F)} {l : Label F Unit Call}
    (hs : Invariant s) (h : (program F).step s l = some t) : Invariant t := by
  rcases Program.step_cases h with ⟨f, c, -, hf, rfl⟩ | ⟨f, c, -, hf, hw, rfl⟩ |
    ⟨q, f, c, c', -, -, he, -, -⟩
  · exact invariant_exec hs.wellFormed hs.code hs.exclusive hs.locked_iff
      (fun hl hq => Or.inr (hs.woken hl hq)) hf
  · obtain rfl := hs.code f c hf
    exact invariant_exec (hs.wellFormed.start hw) (hs.code.start f) hs.exclusive
      hs.locked_iff (fun _ _ => Or.inl rfl) (s.start_code_self f)
  · cases he

/-- In every state of every interleaving: at most one fiber has the mutex, the
mutex is locked exactly when one has it, and while it is free with fibers in the
queue, a fiber that was woken from the queue is still to test `locked`. -/
theorem lock_exclusive_no_lost_wakeup (ls : List (Label F Unit Call))
    (s : State F Unit Call (Data F))
    (hr : Transition.run (program F).step (State.idle (Data.init F)) ls = some s) :
    s.data.holders.length ≤ 1 ∧
      (s.data.locked = true ↔ ∃ f, f ∈ s.data.holders) ∧
      (s.data.locked = false → s.queue () ≠ [] →
        ∃ f ∈ s.woken, s.code f = some .lock) := by
  have hs : Invariant s :=
    Transition.run_invariant (fun _ _ _ hs h => invariant_step hs h) invariant_idle hr
  refine ⟨hs.exclusive, ?_, ?_⟩
  · rw [hs.locked_iff]
    exact ⟨List.exists_mem_of_ne_nil _, fun ⟨f, hf⟩ => List.ne_nil_of_mem hf⟩
  · intro hl hq
    obtain ⟨f, hf⟩ := List.exists_mem_of_ne_nil _ (hs.woken hl hq)
    obtain ⟨c, hc⟩ := hs.wellFormed.code_of_woken hf
    exact ⟨f, hf, hs.code f c hc ▸ hc⟩

/-- Fibers 2 and 4 wait for fiber 1. Its unlock wakes fiber 2, but fiber 3 is
faster and fiber 2 queues again; the unlock of fiber 3 then wakes fiber 4. -/
def overtaken : List (Label ℕ Unit Call) :=
  [.call 1 .lock, .call 2 .lock, .call 4 .lock, .call 1 .unlock, .call 3 .trylock,
    .resume 2, .call 3 .unlock]

theorem lock_exclusive_no_lost_wakeup_overtaken :
    ∃ s, Transition.run (program ℕ).step (State.idle (Data.init ℕ)) overtaken = some s ∧
      s.queue () = [2] ∧ ∃ f ∈ s.woken, s.code f = some .lock := by
  refine ⟨_, rfl, rfl, ?_⟩
  exact (lock_exclusive_no_lost_wakeup overtaken _ rfl).2.2 rfl (by decide)

end Mutex

end Zth
