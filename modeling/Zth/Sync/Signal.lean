import Mathlib.Algebra.Group.Int.Defs
import Mathlib.Algebra.Order.Ring.Int
import Zth.Sync.Base

/-!
# The fiber-aware signal

The integer of a signal has three modes: `0` is not signalled, a positive number
counts signals that nobody waited for, and `-1` is signalled until `reset`. A fiber
that finds the signal unset blocks. One that finds it set yields, and goes on to
decrement the number only after that; it does not test whether the signal is still
set. A fiber that was blocked decrements it as well, although the signal that woke it
was not counted.

So a signal never leaves a fiber blocked while it is set, but it does not count: two
fibers may go on with one signal, and a fiber may take a second one on its way out.
-/

namespace Zth

namespace Signal

open Monitor SynchronizerBase

/-- The calls on a signal. `waitUntil` has a deadline, which has `passed` already or
not. -/
inductive Call where
  | wait
  | waitUntil (passed : Bool)
  | signal (queue queueEveryTime : Bool)
  | signalAll (queue : Bool)
  | reset
deriving DecidableEq, Repr

/-- The code of a signal: a call, what is left of a wait behind its `block` or its
`yield`, what is left behind a `block` with a deadline, and the same when it timed
out. -/
inductive Code where
  | enter (c : Call)
  | waited
  | waitedUntil
  | timedOut
deriving DecidableEq, Repr

/-- `signalled` is the signal. The code does not have the others: they count the calls
of `signal` and the waits that returned because of a signal. -/
structure Data where
  signalled : ℤ
  issued : ℕ
  completed : ℕ
deriving DecidableEq, Repr

/-- A new signal. -/
def Data.init : Data := ⟨0, 0, 0⟩

/-- Assignment to `signalled`. -/
def Data.setSignalled (d : Data) (signalled : ℤ) : Data := { d with signalled := signalled }

/-- `signal` is called. -/
def Data.issue (d : Data) : Data := { d with issued := d.issued + 1 }

/-- The end of a wait. -/
def Data.complete (d : Data) : Data where
  signalled := if 0 < d.signalled then d.signalled - 1 else d.signalled
  issued := d.issued
  completed := d.completed + 1

/-- The increment of the `int` that counts, which may wrap around. -/
def increment (n : ℤ) : ℤ := if n = 2 ^ 31 - 1 then -2 ^ 31 else n + 1

/-- A signal that woke nobody. -/
def Data.store (queue queueEveryTime : Bool) (d : Data) : Data :=
  if queue ∧ 0 ≤ d.signalled then
    if d.signalled = 0 ∨ queueEveryTime then d.setSignalled (increment d.signalled) else d
  else d

variable {F : Type*} [DecidableEq F]

/-- The code of the signal. -/
def exec (f : F) (c : Code) (s : State F Unit Code Data) :
    State F Unit Code Data × Outcome Unit Code :=
  match c with
  | .enter .wait =>
      if s.data.signalled = 0 then (s, .block () .waited) else (s.yield f .waited, .done)
  | .enter (.waitUntil passed) =>
      if s.data.signalled = 0 then
        if passed then (s.setData s.data.complete, .done) else (s, .block () .waitedUntil)
      else (s.yield f .waited, .done)
  | .waited | .waitedUntil => (s.setData s.data.complete, .done)
  | .timedOut => (s, .done)
  | .enter (.signal queue queueEveryTime) =>
      match unblockFirst () (s.setData s.data.issue) with
      | (s, some _) => (s, .done)
      | (s, none) => (s.setData (s.data.store queue queueEveryTime), .done)
  | .enter (.signalAll queue) =>
      let s := (unblockAll () s).1
      (if queue then s.setData (s.data.setSignalled (-1)) else s, .done)
  | .enter .reset => (s.setData (s.data.setSignalled 0), .done)

/-- The signal as a monitor. -/
def program (F : Type*) [DecidableEq F] : Program F Unit Code Data where
  exec := exec
  expired
    | .waitedUntil => some .timedOut
    | _ => none

/-- One step of a signal. -/
def step : State F Unit Code Data → Label F Unit Call → Option (State F Unit Code Data) :=
  (program F).stepBy .enter

/-- The code in the middle of a call. -/
def Code.Inside : Code → Prop
  | .enter _ => False
  | .waited | .waitedUntil | .timedOut => True

/-- What the fibers may rely on: the modes of the integer, and that nobody is blocked
while it is set. -/
structure Invariant (s : State F Unit Code Data) : Prop where
  wellFormed : s.WellFormed
  code : s.CodeAll Code.Inside
  modes : -1 ≤ s.data.signalled
  blocked : s.queue () ≠ [] → s.data.signalled = 0

/-- A signal is only added while the integer does not wrap around. -/
def NoWrap (s : State F Unit Code Data) : Label F Unit Call → Prop
  | .call _ (.signal _ _) => s.data.signalled < 2 ^ 31 - 1
  | _ => True

omit [DecidableEq F] in
theorem invariant_idle : Invariant (State.idle Data.init : State F Unit Code Data) where
  wellFormed := .idle _
  code f c hf := by simp [State.idle] at hf
  modes := by simp [State.idle, Data.init]
  blocked h := absurd rfl h

theorem Data.complete_of_zero {d : Data} (h : d.signalled = 0) : d.complete.signalled = 0 := by
  rw [complete, if_neg (by omega)]
  exact h

theorem Data.neg_one_le_complete {d : Data} (h : -1 ≤ d.signalled) :
    -1 ≤ d.complete.signalled := by
  rw [complete]
  dsimp only
  split <;> omega

theorem increment_of_lt {n : ℤ} (h : n < 2 ^ 31 - 1) : increment n = n + 1 := by
  rw [increment, if_neg (by omega)]

theorem Data.neg_one_le_store {d : Data} (h : -1 ≤ d.signalled) (hlt : d.signalled < 2 ^ 31 - 1)
    (queue queueEveryTime : Bool) : -1 ≤ (d.store queue queueEveryTime).signalled := by
  rw [store]
  split
  · split
    · rw [setSignalled, increment_of_lt hlt]
      dsimp only
      omega
    · exact h
  · exact h

/-- A signal wakes a fiber, or is counted when there is none. -/
theorem exec_signal (f : F) (queue queueEveryTime : Bool) (s : State F Unit Code Data) :
    (s.queue () = [] ∧ exec f (.enter (.signal queue queueEveryTime)) s =
      (s.setData (s.data.issue.store queue queueEveryTime), .done)) ∨
    ∃ g gs, s.queue () = g :: gs ∧ exec f (.enter (.signal queue queueEveryTime)) s =
      ((s.wake () g).setData s.data.issue, .done) := by
  cases hq : s.queue () with
  | nil =>
      have hfirst := State.wakeFirst_of_nil (s := s.setData s.data.issue) hq
      refine Or.inl ⟨rfl, ?_⟩
      rw [exec, unblockFirst, hfirst]
      rfl
  | cons g gs =>
      have hfirst := State.wakeFirst_of_cons (s := s.setData s.data.issue) hq
      refine Or.inr ⟨g, gs, rfl, ?_⟩
      rw [exec, unblockFirst, hfirst]
      rfl

omit [DecidableEq F] in
theorem Invariant.complete {s : State F Unit Code Data} (h : Invariant s) :
    Invariant (s.setData s.data.complete) where
  wellFormed := h.wellFormed.setData _
  code := h.code
  modes := Data.neg_one_le_complete h.modes
  blocked hq := Data.complete_of_zero (h.blocked hq)

/-- A fiber that finds the signal unset blocks. -/
theorem Invariant.block {s : State F Unit Code Data} (h : Invariant s) {f : F}
    (hf : s.code f = none) (hzero : s.data.signalled = 0) {c : Code} (hc : c.Inside) :
    Invariant (State.finish f (s, .block () c)) where
  wellFormed := h.wellFormed.finish hf _
  code := h.code.finish_block f () hc
  modes := h.modes
  blocked _ := hzero

theorem Invariant.yield {s : State F Unit Code Data} (h : Invariant s) {f : F}
    (hf : s.code f = none) {c : Code} (hc : c.Inside) : Invariant (s.yield f c) where
  wellFormed := h.wellFormed.yield hf c
  code := h.code.yield f hc
  modes := h.modes
  blocked := h.blocked

theorem Invariant.signal {s : State F Unit Code Data} (h : Invariant s)
    (hwrap : s.data.signalled < 2 ^ 31 - 1) (f : F) (queue queueEveryTime : Bool) :
    Invariant (State.finish f (exec f (.enter (.signal queue queueEveryTime)) s)) := by
  rcases exec_signal f queue queueEveryTime s with ⟨hq, heq⟩ | ⟨g, gs, hq, heq⟩
  · rw [heq]
    refine ⟨h.wellFormed.setData _, h.code, ?_, fun hne => absurd hq hne⟩
    exact Data.neg_one_le_store (d := s.data.issue) h.modes hwrap queue queueEveryTime
  · have hg : g ∈ s.queue () := by simp [hq]
    have hzero := h.blocked (List.ne_nil_of_mem hg)
    rw [heq]
    exact ⟨(h.wellFormed.wake hg).setData _, h.code, h.modes, fun _ => hzero⟩

omit [DecidableEq F] in
/-- All fibers are woken, so any mode will do. -/
theorem Invariant.wakeAll {s : State F Unit Code Data} (h : Invariant s) {n : ℤ}
    (hn : -1 ≤ n) :
    Invariant ((s.wakeAll ()).1.setData ((s.wakeAll ()).1.data.setSignalled n)) where
  wellFormed := (h.wellFormed.wakeAll ()).setData _
  code := h.code
  modes := hn
  blocked hq := by simp [State.wakeAll] at hq

/-- One piece of code of the signal. -/
theorem Invariant.exec {s : State F Unit Code Data} (h : Invariant s) {f : F}
    (hf : s.code f = none) (c : Code)
    (hwrap : ∀ queue every, c = .enter (.signal queue every) →
      s.data.signalled < 2 ^ 31 - 1) :
    Invariant (State.finish f ((program F).exec f c s)) := by
  cases c with
  | waited => exact h.complete
  | waitedUntil => exact h.complete
  | timedOut => exact h
  | enter c =>
      cases c with
      | wait =>
          simp only [program, Signal.exec]
          split
          · rename_i hzero
            exact h.block hf hzero trivial
          · exact h.yield hf trivial
      | waitUntil passed =>
          simp only [program, Signal.exec]
          split
          · rename_i hzero
            split
            · exact h.complete
            · exact h.block hf hzero trivial
          · exact h.yield hf trivial
      | signal queue every => exact h.signal (hwrap queue every rfl) f queue every
      | signalAll queue =>
          cases queue with
          | true => exact h.wakeAll (Int.le_refl _)
          | false => exact h.wakeAll h.modes
      | reset => exact ⟨h.wellFormed.setData _, h.code, Int.neg_ofNat_le_ofNat 1 0, fun _ => rfl⟩

theorem Invariant.step {s t : State F Unit Code Data} {l : Label F Unit Call}
    (h : Invariant s) (hwrap : NoWrap s l) (hstep : step s l = some t) : Invariant t := by
  rcases Program.stepBy_cases hstep with ⟨f, c, rfl, hf, rfl⟩ | ⟨f, c, -, hc, hw, rfl⟩ |
    ⟨q, f, c, c', -, hc, he, hq, rfl⟩
  · refine h.exec hf _ fun queue every hc => ?_
    obtain rfl : c = .signal queue every := Code.enter.inj hc
    exact hwrap
  · have hstart : Invariant (s.start f) :=
      ⟨h.wellFormed.start hw, h.code.start f, h.modes, h.blocked⟩
    refine hstart.exec (s.start_code_self f) c fun queue every heq => ?_
    exact absurd (h.code f c hc) (by simp [heq, Code.Inside])
  · have hc' : c'.Inside := by
      cases c <;> cases he
      trivial
    refine ⟨h.wellFormed.expire hq c', h.code.expire q f hc', h.modes, fun _ => ?_⟩
    exact h.blocked (List.ne_nil_of_mem hq)

/-- Signalled until the next `reset`, with nobody in the queue. -/
structure Permanent (s : State F Unit Code Data) : Prop where
  code : s.CodeAll Code.Inside
  signalled : s.data.signalled = -1
  queue : s.queue () = []

/-- The label is not a `reset`. -/
def NoReset : Label F Unit Call → Prop
  | .call _ .reset => False
  | _ => True

theorem Data.complete_of_neg {d : Data} (h : d.signalled = -1) : d.complete.signalled = -1 := by
  rw [complete, if_neg (by omega)]
  exact h

theorem Data.store_of_neg {d : Data} (h : d.signalled = -1) (queue queueEveryTime : Bool) :
    d.store queue queueEveryTime = d := by
  rw [store, if_neg (by omega)]

/-- A signal that is set for good stays so, whatever code runs. -/
theorem Permanent.exec {s : State F Unit Code Data} (h : Permanent s) (f : F) (c : Code)
    (hc : c ≠ .enter .reset) : Permanent (State.finish f ((program F).exec f c s)) := by
  have hne : ¬ s.data.signalled = 0 := by
    rw [h.signalled]
    decide
  cases c with
  | waited => exact ⟨h.code, Data.complete_of_neg h.signalled, h.queue⟩
  | waitedUntil => exact ⟨h.code, Data.complete_of_neg h.signalled, h.queue⟩
  | timedOut => exact h
  | enter c =>
      cases c with
      | wait =>
          simp only [program, Signal.exec, if_neg hne]
          exact ⟨h.code.yield f trivial, h.signalled, h.queue⟩
      | waitUntil passed =>
          simp only [program, Signal.exec, if_neg hne]
          exact ⟨h.code.yield f trivial, h.signalled, h.queue⟩
      | signal queue every =>
          simp only [program]
          rcases exec_signal f queue every s with ⟨-, heq⟩ | ⟨g, gs, hq, -⟩
          · rw [heq, Data.store_of_neg (d := s.data.issue) h.signalled]
            exact ⟨h.code, h.signalled, h.queue⟩
          · rw [h.queue] at hq
            cases hq
      | signalAll queue =>
          have hempty : (s.wakeAll ()).1.queue () = [] := by simp [State.wakeAll]
          cases queue with
          | true => exact ⟨h.code, rfl, hempty⟩
          | false => exact ⟨h.code, h.signalled, hempty⟩
      | reset => exact absurd rfl hc

theorem Permanent.step {s t : State F Unit Code Data} {l : Label F Unit Call}
    (h : Permanent s) (hl : NoReset l) (hstep : step s l = some t) : Permanent t := by
  rcases Program.stepBy_cases hstep with ⟨f, c, rfl, -, rfl⟩ | ⟨f, c, -, hc, -, rfl⟩ |
    ⟨q, f, c, c', -, -, -, hq, -⟩
  · refine h.exec f _ fun heq => ?_
    rw [Code.enter.inj heq] at hl
    exact hl
  · have hstart : Permanent (s.start f) := ⟨h.code.start f, h.signalled, h.queue⟩
    refine hstart.exec f c fun heq => ?_
    exact absurd (h.code f c hc) (by simp [heq, Code.Inside])
  · rw [h.queue] at hq
    cases hq

/-- `signalAll(true)` sets the signal for good. -/
theorem permanent_signalAll {s t : State F Unit Code Data} {f : F}
    (h : s.CodeAll Code.Inside) (hstep : step s (.call f (.signalAll true)) = some t) :
    Permanent t := by
  rcases Program.stepBy_cases hstep with ⟨g, c, hl, -, rfl⟩ | ⟨g, c, hl, -⟩ |
    ⟨q, g, c, c', hl, -⟩
  · cases hl
    refine ⟨h, rfl, ?_⟩
    simp [program, exec, unblockAll, State.wakeAll, State.finish]
  · cases hl
  · cases hl

/-- In every interleaving in which the integer does not wrap around: it is in one of its
modes, and nobody is blocked while the signal is set. After `signalAll(true)`, and
until the next `reset`, it stays set and nobody blocks. -/
theorem not_blocked_while_set (ls : List (Label F Unit Call)) (s : State F Unit Code Data)
    (hwrap : Transition.Guarded step NoWrap (State.idle Data.init) ls)
    (hr : Transition.run step (State.idle Data.init) ls = some s) :
    -1 ≤ s.data.signalled ∧ (s.queue () ≠ [] → s.data.signalled = 0) ∧
      ∀ (f : F) (ls' : List (Label F Unit Call)) (t u : State F Unit Code Data),
        step s (.call f (.signalAll true)) = some t → (∀ l ∈ ls', NoReset l) →
        Transition.run step t ls' = some u → u.data.signalled = -1 ∧ u.queue () = [] := by
  have h : Invariant s := hwrap.invariant (fun _ _ _ hs hok hstep => hs.step hok hstep)
    invariant_idle hr
  refine ⟨h.modes, h.blocked, fun f ls' t u ht hls hu => ?_⟩
  have hu : Permanent u := (Transition.Guarded.of_forall step t hls).invariant
    (fun _ _ _ hs hok hstep => hs.step hok hstep) (permanent_signalAll h.code ht) hu
  exact ⟨hu.signalled, hu.queue⟩

/-- Fibers 1 and 2 wait, fiber 2 with a deadline, which passes. Fiber 3 queues two
signals when nobody is left in the queue. -/
def oneTimedOut : List (Label ℕ Unit Call) :=
  [.call 1 .wait, .call 2 (.waitUntil false), .call 3 (.signal true false), .expire () 2,
    .call 3 (.signal true true), .call 3 (.signal true true)]

theorem not_blocked_while_set_oneTimedOut :
    ∃ s, Transition.run step (State.idle Data.init) oneTimedOut = some s ∧
      s.data.signalled = 2 ∧ (s.queue () ≠ [] → s.data.signalled = 0) ∧
      ∃ t, Transition.run step s [.call 3 (.signalAll true), .call 4 .wait, .resume 1] =
        some t ∧ t.data.signalled = -1 ∧ t.queue () = [] := by
  have h0 : (0 : ℤ) < 2 ^ 31 - 1 := by decide
  have h1 : (1 : ℤ) < 2 ^ 31 - 1 := by decide
  have hg : Transition.Guarded step NoWrap (State.idle Data.init) oneTimedOut :=
    .cons trivial rfl (.cons trivial rfl (.cons h0 rfl (.cons trivial rfl (.cons h0 rfl
      (.cons h1 rfl trivial)))))
  have h := not_blocked_while_set oneTimedOut _ hg rfl
  refine ⟨_, rfl, rfl, h.2.1, _, rfl, ?_⟩
  exact h.2.2 3 [.call 4 .wait, .resume 1] _ _ rfl (by simp [NoReset]) rfl

/-- Only waits and signals that are queued every time. A wait finds the signal unset, or
set for more fibers than those that are on their way out; a signal wakes a fiber, or is
counted on top of what these fibers are going to take. -/
def Counted (s : State F Unit Code Data) : Label F Unit Call → Prop
  | .call _ .wait => s.data.signalled = 0 ∨ (s.woken.length : ℤ) < s.data.signalled
  | .call _ (.signal true true) => s.queue () ≠ [] ∨
      (s.woken.length : ℤ) ≤ s.data.signalled ∧ s.data.signalled < 2 ^ 31 - 1
  | .resume _ => True
  | _ => False

/-- No more waits than signals; and what is left when nobody is on its way out. -/
structure Counts (s : State F Unit Code Data) : Prop where
  completed_le : s.data.completed ≤ s.data.issued
  signalled : s.woken = [] → s.data.signalled = s.data.issued - s.data.completed
  blocked : s.woken = [] → s.queue () ≠ [] → s.data.signalled = 0

/-- The signals that are not waited for yet are those that are counted, or those that
the fibers on their way out use, whichever is more. -/
structure Balance (s : State F Unit Code Data) : Prop where
  wellFormed : s.WellFormed
  code : s.CodeAll (· = .waited)
  nonneg : 0 ≤ s.data.signalled
  blocked : s.queue () ≠ [] → s.data.signalled = 0
  issued : (s.data.issued : ℤ) = s.data.completed + max s.data.signalled s.woken.length

omit [DecidableEq F] in
theorem Balance.counts {s : State F Unit Code Data} (h : Balance s) : Counts s where
  completed_le := by
    have := h.issued
    have := h.nonneg
    omega
  signalled hw := by
    have hi := h.issued
    have := h.nonneg
    rw [hw, List.length_nil] at hi
    omega
  blocked _ := h.blocked

omit [DecidableEq F] in
theorem balance_idle : Balance (State.idle Data.init : State F Unit Code Data) where
  wellFormed := .idle _
  code f c hf := by simp [State.idle] at hf
  nonneg := Int.le_refl 0
  blocked h := absurd rfl h
  issued := rfl

/-- A wait blocks, or is one of the fibers for which a signal is counted. -/
theorem Balance.wait {s : State F Unit Code Data} (h : Balance s) {f : F}
    (hf : s.code f = none)
    (hok : s.data.signalled = 0 ∨ (s.woken.length : ℤ) < s.data.signalled) :
    Balance (State.finish f (exec f (.enter .wait) s)) := by
  rw [exec]
  by_cases hzero : s.data.signalled = 0
  · rw [if_pos hzero]
    exact ⟨h.wellFormed.finish hf _, h.code.finish_block f () rfl, h.nonneg, fun _ => hzero,
      h.issued⟩
  · rw [if_neg hzero]
    refine ⟨h.wellFormed.yield hf _, h.code.yield f rfl, h.nonneg, h.blocked, ?_⟩
    have hlt := hok.resolve_left hzero
    have := h.issued
    simp only [State.finish_done, State.yield_data, State.yield_woken, List.length_append,
      List.length_singleton]
    push_cast
    omega

theorem Data.store_every {d : Data} (h : 0 ≤ d.signalled) :
    d.store true true = d.setSignalled (increment d.signalled) := by
  rw [store, if_pos ⟨rfl, h⟩, if_pos (Or.inr rfl)]

/-- A signal is handed over, or counted. -/
theorem Balance.signal {s : State F Unit Code Data} (h : Balance s) (f : F)
    (hok : s.queue () ≠ [] ∨
      (s.woken.length : ℤ) ≤ s.data.signalled ∧ s.data.signalled < 2 ^ 31 - 1) :
    Balance (State.finish f (exec f (.enter (.signal true true)) s)) := by
  have hissued := h.issued
  have hnonneg := h.nonneg
  rcases exec_signal f true true s with ⟨hq, heq⟩ | ⟨g, gs, hq, heq⟩
  · obtain ⟨hle, hlt⟩ := hok.resolve_left fun hne => hne hq
    have hstore := Data.store_every (d := s.data.issue) hnonneg
    have hone : increment s.data.issue.signalled = s.data.signalled + 1 := increment_of_lt hlt
    rw [heq, hstore, hone]
    refine ⟨h.wellFormed.setData _, h.code, ?_, fun hne => absurd hq hne, ?_⟩
    · simp only [State.finish_done, State.setData_data, Data.setSignalled]
      omega
    · simp only [State.finish_done, State.setData_data, Data.setSignalled, Data.issue,
        State.setData_woken]
      push_cast
      omega
  · have hg : g ∈ s.queue () := by simp [hq]
    have hzero := h.blocked (List.ne_nil_of_mem hg)
    rw [heq]
    refine ⟨(h.wellFormed.wake hg).setData _, h.code, hnonneg, fun _ => hzero, ?_⟩
    simp only [State.finish_done, State.setData_data, Data.issue, State.setData_woken,
      State.wake_woken, List.length_append, List.length_singleton]
    push_cast
    omega

theorem Data.complete_of_nonneg {d : Data} (h : 0 ≤ d.signalled) :
    d.complete.signalled = max (d.signalled - 1) 0 := by
  rw [complete]
  dsimp only
  split <;> omega

/-- A fiber on its way out takes a signal, if there is still one. -/
theorem Balance.complete {s : State F Unit Code Data} (h : Balance s) {f : F}
    (hw : f ∈ s.woken) : Balance ((s.start f).setData (s.start f).data.complete) := by
  have hissued := h.issued
  have hnonneg := h.nonneg
  have hpos := List.length_pos_of_mem hw
  have hmax := Data.complete_of_nonneg hnonneg
  have hcompleted : s.data.complete.completed = s.data.completed + 1 := rfl
  have hissued' : s.data.complete.issued = s.data.issued := rfl
  refine ⟨(h.wellFormed.start hw).setData _, h.code.start f, ?_, fun hq => ?_, ?_⟩
  · rw [State.setData_data, State.start_data, hmax]
    exact le_max_right _ _
  · exact Data.complete_of_zero (h.blocked hq)
  · rw [State.setData_data, State.start_data, hmax, hcompleted, hissued', State.setData_woken,
      State.start_woken, List.length_erase_of_mem hw]
    omega

/-- One step that is counted. -/
theorem Balance.step {s t : State F Unit Code Data} {l : Label F Unit Call} (h : Balance s)
    (hok : Counted s l) (hstep : step s l = some t) : Balance t := by
  rcases Program.stepBy_cases hstep with ⟨f, c, rfl, hf, rfl⟩ | ⟨f, c, -, hc, hw, rfl⟩ |
    ⟨q, f, c, c', -, hc, he, -, -⟩
  · cases c with
    | wait => exact h.wait hf hok
    | signal queue every =>
        cases queue <;> cases every
        · exact hok.elim
        · exact hok.elim
        · exact hok.elim
        · exact h.signal f hok
    | _ => exact hok.elim
  · obtain rfl := h.code f c hc
    exact h.complete hw
  · rw [h.code f c hc] at he
    cases he

/-- In every interleaving of waits and signals that are queued every time, in which no
fiber passes on a signal that another one is going to take, and no signal is added that a
fiber on its way out would take: the signal counts. -/
theorem counts_of_counted (ls : List (Label F Unit Call)) (s : State F Unit Code Data)
    (hg : Transition.Guarded step Counted (State.idle Data.init) ls)
    (hr : Transition.run step (State.idle Data.init) ls = some s) : Counts s :=
  (hg.invariant (fun _ _ _ hs hok hstep => Balance.step hs hok hstep) balance_idle hr).counts

/-- A signal is queued before fiber 1 waits. Fiber 2 waits for the next one. -/
def oneEach : List (Label ℕ Unit Call) :=
  [.call 3 (.signal true true), .call 1 .wait, .resume 1, .call 2 .wait,
    .call 3 (.signal true true), .resume 2]

theorem counts_oneEach :
    ∃ s, Transition.run step (State.idle Data.init) oneEach = some s ∧
      s.data.issued = 2 ∧ s.data.completed = 2 ∧ Counts s := by
  have h0 : (0 : ℤ) ≤ 0 ∧ (0 : ℤ) < 2 ^ 31 - 1 := by decide
  have h1 : (0 : ℤ) < 1 := by decide
  refine ⟨_, rfl, rfl, rfl, counts_of_counted oneEach _ ?_ rfl⟩
  exact .cons (Or.inr h0) rfl (.cons (Or.inr h1) rfl (.cons trivial rfl (.cons (Or.inl rfl) rfl
    (.cons (Or.inl (by decide)) rfl (.cons trivial rfl trivial)))))

/-- Fibers 1 and 2 both find the one signal that is queued. -/
def bothPass : List (Label ℕ Unit Call) :=
  [.call 3 (.signal true true), .call 1 .wait, .call 2 .wait, .resume 1, .resume 2]

/-- Two waits return for one signal. -/
theorem not_counts_bothPass :
    ∃ s, Transition.run step (State.idle Data.init) bothPass = some s ∧
      s.data.issued = 1 ∧ s.data.completed = 2 ∧ ¬ Counts s :=
  ⟨_, rfl, rfl, rfl, fun h => absurd h.completed_le (by decide)⟩

end Signal

end Zth
