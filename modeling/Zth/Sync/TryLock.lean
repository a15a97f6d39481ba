import Mathlib.Data.Int.Notation
import Zth.Sync.Mutex

/-!
# Taking a mutex with a timeout

`trylock(timeout)` blocks with a deadline until it finds the mutex free. Each turn of
its loop reads the clock anew. This module adds the call, and the clock, to the mutex,
and keeps what every turn of the loop came to.

A turn that reads the clock at or after the deadline while the mutex is locked neither
blocks nor ends the call: `blockUntil` then returns what stands for "unblocked", so the
loop goes round, and it does so for ever, as no other fiber runs meanwhile.
-/

namespace Zth

namespace Mutex

open Monitor SynchronizerBase

/-- The calls on a mutex, also the one with a timeout. -/
inductive TimedCall where
  | lock
  | trylock
  | trylockUntil (timeout : ℤ)
  | unlock
deriving DecidableEq, Repr

/-- A call from its start, or from the end of a wait by its deadline. -/
inductive TimedCode where
  | enter (c : TimedCall)
  | timedOut (timeout : ℤ)
deriving DecidableEq, Repr

/-- What a turn of the loop of `trylock(timeout)` comes to: the fiber blocks, the loop
goes round at once, or the call returns. -/
inductive Turn where
  | blocked
  | again
  | returned (result : Bool)
deriving DecidableEq, Repr

variable {F : Type*}

/-- One turn of the loop of `trylock(timeout)`, that reads the clock at `now`. -/
def trylockUntil (timeout now : ℤ) (f : F) (d : Data F) : Data F × Turn :=
  if d.locked then
    if timeout ≤ now then
      -- `blockUntil` returns `true`
      (d, .again)
    else
      (d, .blocked)
  else
    (d.acquired f, .returned true)

def Turn.outcome (timeout : ℤ) : Turn → Outcome Unit TimedCode
  | .blocked => .block () (.enter (.trylockUntil timeout))
  | .again | .returned _ => .done

variable [DecidableEq F]

/-- The code of the mutex, at the time `now`. -/
def timedExec (now : ℤ) (f : F) (c : TimedCode) (s : State F Unit TimedCode (Data F)) :
    State F Unit TimedCode (Data F) × Outcome Unit TimedCode :=
  match c with
  | .enter .lock =>
      if s.data.locked then
        (s, .block () (.enter .lock))
      else
        (s.setData (s.data.acquired f), .done)
  | .enter .trylock =>
      if s.data.locked then
        (s, .done)
      else
        (s.setData (s.data.acquired f), .done)
  | .enter (.trylockUntil timeout) =>
      (s.setData (trylockUntil timeout now f s.data).1,
        (trylockUntil timeout now f s.data).2.outcome timeout)
  | .enter .unlock => ((unblockFirst () (s.setData (s.data.released f))).1, .done)
  | .timedOut _ => (s, .done)

/-- Only a wait of `trylock(timeout)` has an alarm. -/
def TimedCode.expired : TimedCode → Option TimedCode
  | .enter (.trylockUntil timeout) => some (.timedOut timeout)
  | .enter .lock | .enter .trylock | .enter .unlock | .timedOut _ => none

/-- The mutex as a monitor, at the time `now`. -/
def timedProgram (F : Type*) [DecidableEq F] (now : ℤ) :
    Program F Unit TimedCode (Data F) where
  exec := timedExec now
  expired := TimedCode.expired

/-- A turn of the loop of `trylock(timeout)`: the clock and the mutex as the turn found
them, what it came to, and the queue and the mutex as it left them. -/
structure Iteration (F : Type*) where
  fiber : F
  timeout : ℤ
  now : ℤ
  locked : Bool
  turn : Turn
  queued : Bool
  holds : Bool
deriving DecidableEq, Repr

/-- The turn that a fiber made with its piece of code, from a mutex with the data `d` to the
state `t`. -/
def iteration (now : ℤ) (d : Data F) (t : State F Unit TimedCode (Data F)) :
    F × TimedCode → Option (Iteration F)
  | (f, .enter (.trylockUntil timeout)) =>
      some ⟨f, timeout, now, d.locked, (trylockUntil timeout now f d).2,
        decide (f ∈ t.queue ()), t.data.locked && decide (t.data.holders = [f])⟩
  | (f, .timedOut timeout) =>
      some ⟨f, timeout, now, d.locked, .returned false,
        decide (f ∈ t.queue ()), t.data.locked && decide (t.data.holders = [f])⟩
  | (_, .enter .lock) | (_, .enter .trylock) | (_, .enter .unlock) => none

/-- The fiber that goes round, with its deadline, after the turn `i`. -/
def Iteration.spinning (i : Iteration F) : Option (F × ℤ) :=
  if i.turn = .again then some (i.fiber, i.timeout) else none

/-- What may happen next. A fiber that goes round has the processor until its loop ends. -/
inductive TimedLabel (F : Type*) where
  | call (f : F) (c : TimedCall)
  | resume (f : F)
  | expire (f : F)
  | iterate

/-- A mutex with the clock, the fiber that goes round in `trylock(timeout)`, and all turns
of the loops so far. -/
structure Timed (F : Type*) where
  base : State F Unit TimedCode (Data F)
  clock : ℤ
  spinning : Option (F × ℤ)
  iterations : List (Iteration F)

namespace Timed

def new (clock : ℤ) : Timed F where
  base := State.idle (Data.init F)
  clock := clock
  spinning := none
  iterations := []

/-- What a label does to the monitor at the time `now`, if it is enabled. The alarm of a
wait rings at a time after its deadline. -/
def label (s : Timed F) (now : ℤ) : TimedLabel F → Option (Label F Unit TimedCode)
  | .call f c => if s.spinning = none then some (.call f (.enter c)) else none
  | .resume f => if s.spinning = none then some (.resume f) else none
  | .expire f =>
      match s.base.code f with
      | some (.enter (.trylockUntil timeout)) =>
          if s.spinning = none ∧ timeout < now then some (.expire () f) else none
      | _ => none
  | .iterate => s.spinning.map fun p => .call p.1 (.enter (.trylockUntil p.2))

/-- The state after the monitor made the step `l` to `t`, at the time `now`. -/
def after (s : Timed F) (now : ℤ) (l : Label F Unit TimedCode)
    (t : State F Unit TimedCode (Data F)) : Timed F :=
  let i := (l.runs s.base).bind (iteration now s.base.data t)
  { base := t
    clock := now
    spinning := i.bind Iteration.spinning
    iterations := s.iterations ++ i.toList }

/-- One step, at a time that is not before the last one. -/
def step (s : Timed F) (a : ℤ × TimedLabel F) : Option (Timed F) :=
  if s.clock ≤ a.1 then
    (s.label a.1 a.2).bind fun l =>
      ((timedProgram F a.1).step s.base l).map (s.after a.1 l)
  else none

end Timed

/-- The turn blocks the fiber or ends the call; where the deadline has passed and the mutex
is locked it returns `false`; and it returns `true` only if the mutex is locked by the
fiber. -/
structure Iteration.Progress (i : Iteration F) : Prop where
  goesOn : i.turn = .blocked ∧ i.queued = true ∨ ∃ r, i.turn = .returned r
  timedOut : i.locked = true → i.timeout ≤ i.now → i.turn = .returned false
  locked : i.turn = .returned true → i.holds = true

/-- All turns made progress, and a fiber that blocks goes on only after it was unblocked or
its alarm rang. -/
structure Timed.Progress (s : Timed F) : Prop where
  iterations : ∀ i ∈ s.iterations, i.Progress
  blocked : ∀ f ∈ s.base.queue (), ∀ now, s.step (now, .resume f) = none

/-- A turn of `trylock(timeout)` that finds the mutex locked reads the clock before the
deadline. -/
def TimedCode.InTime (now : ℤ) (d : Data F) : TimedCode → Prop
  | .enter (.trylockUntil timeout) => d.locked = true → now < timeout
  | .enter .lock | .enter .trylock | .enter .unlock | .timedOut _ => True

def Timed.InTime (s : Timed F) (a : ℤ × TimedLabel F) : Prop :=
  ∀ l ∈ s.label a.1 a.2, ∀ p ∈ l.runs s.base, p.2.InTime a.1 s.base.data

/-- At most one fiber has the mutex, and none while it is free. -/
structure Data.Exclusive (d : Data F) : Prop where
  holders : d.holders.length ≤ 1
  free : d.locked = false → d.holders = []

/-- As long as all turns make progress no fiber goes round. -/
structure Timed.Kept (s : Timed F) : Prop where
  wellFormed : s.base.WellFormed
  exclusive : s.base.data.Exclusive
  spinning : s.spinning = none
  iterations : ∀ i ∈ s.iterations, i.Progress

omit [DecidableEq F] in
theorem Data.Exclusive.acquired {d : Data F} (h : d.Exclusive) (hfree : d.locked = false)
    (f : F) : (d.acquired f).Exclusive where
  holders := by simp [Data.acquired, h.free hfree]
  free hl := by simp [Data.acquired] at hl

theorem Data.Exclusive.released {d : Data F} (h : d.Exclusive) (f : F) :
    (d.released f).Exclusive := by
  have hnil := Data.released_holders f h.holders
  exact ⟨by simp [hnil], fun _ => hnil⟩

omit [DecidableEq F] in
/-- A turn of the loop leaves the mutex as it is, or takes it when it is free. -/
theorem trylockUntil_cases (timeout now : ℤ) (f : F) (d : Data F) :
    (d.locked = true ∧ timeout ≤ now ∧ trylockUntil timeout now f d = (d, .again)) ∨
      (d.locked = true ∧ now < timeout ∧ trylockUntil timeout now f d = (d, .blocked)) ∨
      d.locked = false ∧ trylockUntil timeout now f d = (d.acquired f, .returned true) := by
  unfold trylockUntil
  cases hl : d.locked with
  | false => simp
  | true =>
      by_cases hlate : timeout ≤ now
      · simp [hlate]
      · have hlt : now < timeout := by omega
        simp [hlate, hlt]

variable {s : State F Unit TimedCode (Data F)} {f : F}

theorem wellFormed_timedExec (hs : s.WellFormed) (hf : s.code f = none) (now : ℤ)
    (c : TimedCode) : (State.finish f (timedExec now f c s)).WellFormed := by
  cases c with
  | timedOut timeout => exact hs
  | enter c =>
      cases c with
      | lock =>
          rw [timedExec]
          split
          · exact hs.finish hf _
          · exact hs.setData _
      | trylock =>
          rw [timedExec]
          split
          · exact hs
          · exact hs.setData _
      | trylockUntil timeout =>
          rw [timedExec]
          exact (hs.setData (trylockUntil timeout now f s.data).1).finish hf _
      | unlock => exact (hs.setData _).wakeFirst ()

/-- The data of the mutex after a piece of code. -/
theorem exclusive_timedExec (hs : s.data.Exclusive) (now : ℤ) (c : TimedCode) :
    (State.finish f (timedExec now f c s)).data.Exclusive := by
  cases c with
  | timedOut timeout => exact hs
  | enter c =>
      cases c with
      | lock =>
          rw [timedExec]
          split
          · exact hs
          · rename_i hl
            exact hs.acquired (Bool.eq_false_iff.2 hl) f
      | trylock =>
          rw [timedExec]
          split
          · exact hs
          · rename_i hl
            exact hs.acquired (Bool.eq_false_iff.2 hl) f
      | trylockUntil timeout =>
          obtain ⟨-, -, heq⟩ | ⟨-, -, heq⟩ | ⟨hl, heq⟩ :=
            trylockUntil_cases timeout now f s.data
          · rw [timedExec, heq]
            exact hs
          · rw [timedExec, heq]
            exact hs
          · rw [timedExec, heq]
            exact hs.acquired hl f
      | unlock =>
          simp only [timedExec, unblockFirst, State.finish, State.wakeFirst_data]
          exact hs.released f

/-- A turn makes progress exactly when it is in time, and then the fiber does not go
round. -/
theorem progress_iteration (hs : s.data.Exclusive) (now : ℤ) (c : TimedCode)
    {t : State F Unit TimedCode (Data F)} (ht : t = State.finish f (timedExec now f c s)) :
    (c.InTime now s.data → (iteration now s.data t (f, c)).bind Iteration.spinning = none ∧
      ∀ i ∈ iteration now s.data t (f, c), i.Progress) ∧
    ((∀ i ∈ iteration now s.data t (f, c), i.Progress) → c.InTime now s.data) := by
  cases c with
  | timedOut timeout =>
      refine ⟨fun _ => ⟨rfl, ?_⟩, fun _ => trivial⟩
      rintro i ⟨⟩
      exact ⟨.inr ⟨false, rfl⟩, fun _ _ => rfl, fun h => by cases h⟩
  | enter c =>
      cases c with
      | lock | trylock | unlock => exact ⟨fun _ => ⟨rfl, by rintro i ⟨⟩⟩, fun _ => trivial⟩
      | trylockUntil timeout =>
          obtain ⟨hl, hlate, heq⟩ | ⟨hl, hlt, heq⟩ | ⟨hl, heq⟩ :=
            trylockUntil_cases timeout now f s.data
          · -- the deadline has passed, and the loop goes round
            have hnot : ¬ TimedCode.InTime now s.data (.enter (.trylockUntil timeout)) :=
              fun h => Int.not_le.2 (h hl) hlate
            refine ⟨fun h => absurd h hnot, fun h => ?_⟩
            have hi := (h _ rfl).timedOut hl hlate
            rw [heq] at hi
            cases hi
          · refine ⟨fun _ => ⟨?_, ?_⟩, fun _ _ => hlt⟩
            · simp [iteration, heq, Iteration.spinning]
            · rintro i ⟨⟩
              simp only [heq]
              refine ⟨.inl ⟨rfl, ?_⟩, fun _ hlate => ?_, fun h => ?_⟩
              · rw [ht, timedExec, heq]
                simp [State.finish, Turn.outcome]
              · exact absurd hlate (Int.not_le.2 hlt)
              · cases h
          · refine ⟨fun _ => ⟨?_, ?_⟩, fun _ hl' => ?_⟩
            · simp [iteration, heq, Iteration.spinning]
            · rintro i ⟨⟩
              simp only [heq]
              refine ⟨.inr ⟨true, rfl⟩, fun hl' => ?_, fun _ => ?_⟩
              · rw [hl] at hl'
                cases hl'
              · rw [ht, timedExec, heq]
                simp [State.finish, Turn.outcome, Data.acquired, hs.free hl]
            · rw [hl] at hl'
              cases hl'

namespace Timed

omit [DecidableEq F] in
theorem kept_new (clock : ℤ) : (new clock : Timed F).Kept where
  wellFormed := .idle _
  exclusive := ⟨Nat.zero_le 1, fun _ => rfl⟩
  spinning := rfl
  iterations i hi := by simp [new] at hi

/-- What a step is: one of the monitor, at a time that is not before the last one. -/
theorem step_eq_some_iff {s t : Timed F} {a : ℤ × TimedLabel F} :
    step s a = some t ↔ s.clock ≤ a.1 ∧ ∃ l, s.label a.1 a.2 = some l ∧
      ∃ base, (timedProgram F a.1).step s.base l = some base ∧ s.after a.1 l base = t := by
  simp only [step, Option.ite_none_right_eq_some, Option.bind_eq_some_iff,
    Option.map_eq_some_iff]

/-- A fiber in the queue is not woken. -/
theorem Kept.progress {s : Timed F} (h : s.Kept) : s.Progress where
  iterations := h.iterations
  blocked f hf now := by
    rw [Option.eq_none_iff_forall_ne_some]
    intro t ht
    obtain ⟨-, l, hl, base, hbase, -⟩ := step_eq_some_iff.1 ht
    obtain ⟨-, ⟨⟩⟩ := Option.ite_none_right_eq_some.1 hl
    obtain ⟨f', o, hl, -⟩ | ⟨f', o, hl, -, hw, -⟩ | ⟨q, f', o, o', hl, -⟩ :=
      Program.step_cases hbase
    · cases hl
    · cases hl
      exact h.wellFormed.queue_not_woken () f hf hw
    · cases hl

/-- A piece of code, of a fiber that has no other code left. -/
theorem Kept.after {s : Timed F} (h : s.Kept) {now : ℤ} {l : Label F Unit TimedCode}
    {u base : State F Unit TimedCode (Data F)} {f : F} {c : TimedCode} (hwf : u.WellFormed)
    (hf : u.code f = none) (hdata : u.data = s.base.data)
    (hbase : base = State.finish f (timedExec now f c u)) (hl : l.runs s.base = some (f, c)) :
    (c.InTime now s.base.data → (s.after now l base).Kept) ∧
      ((∀ i ∈ (s.after now l base).iterations, i.Progress) → c.InTime now s.base.data) := by
  have hex : u.data.Exclusive := hdata ▸ h.exclusive
  obtain ⟨hkeep, hlate⟩ := progress_iteration hex now c hbase
  simp only [Timed.after, hl, Option.bind_some, ← hdata]
  constructor
  · intro hin
    obtain ⟨hspin, hprog⟩ := hkeep hin
    refine ⟨hbase ▸ wellFormed_timedExec hwf hf now c, hbase ▸ exclusive_timedExec hex now c,
      hspin, ?_⟩
    intro i hi
    obtain hi | hi := List.mem_append.1 hi
    · exact h.iterations i hi
    · exact hprog i (Option.mem_toList.1 hi)
  · intro hi
    exact hlate fun i hmem => hi i (List.mem_append_right _ (Option.mem_toList.2 hmem))

/-- A step keeps the invariant if it is in time, and all turns make progress only if it is. -/
theorem Kept.step {s t : Timed F} (h : s.Kept) {a : ℤ × TimedLabel F}
    (ht : step s a = some t) :
    (s.InTime a → t.Kept) ∧ ((∀ i ∈ t.iterations, i.Progress) → s.InTime a) := by
  obtain ⟨-, l, hl, base, hbase, rfl⟩ := step_eq_some_iff.1 ht
  have hin : s.InTime a ↔ ∀ p ∈ l.runs s.base, p.2.InTime a.1 s.base.data := by
    simp [InTime, hl]
  rw [hin]
  obtain ⟨f, c, rfl, hf, hb⟩ | ⟨f, c, rfl, hf, hw, hb⟩ | ⟨q, f, c, c', rfl, hf, he, hq, hb⟩ :=
    Program.step_cases hbase
  · have hruns : (Label.call f c : Label F Unit TimedCode).runs s.base = some (f, c) := rfl
    obtain ⟨hkeep, hlate⟩ := h.after h.wellFormed hf rfl hb hruns
    exact ⟨fun hp => hkeep (hp _ hruns), by rintro hi p ⟨⟩; exact hlate hi⟩
  · have hruns : (Label.resume f : Label F Unit TimedCode).runs s.base = some (f, c) := by
      simp [Label.runs, hf]
    obtain ⟨hkeep, hlate⟩ := h.after (h.wellFormed.start hw) (s.base.start_code_self f)
      rfl hb hruns
    refine ⟨fun hp => hkeep (hp _ hruns), fun hi p hp => ?_⟩
    rw [hruns] at hp
    cases hp
    exact hlate hi
  · refine ⟨fun _ => ⟨?_, ?_, rfl, ?_⟩, fun _ p hp => by cases hp⟩
    · exact hb ▸ h.wellFormed.expire hq c'
    · exact hb ▸ h.exclusive
    · simpa [Timed.after, Label.runs] using h.iterations

/-- In every interleaving, at every sequence of clock readings: every turn of the loop of
`trylock(timeout)` makes progress exactly when every turn that finds the mutex locked reads
the clock before the deadline. -/
theorem progress_always_iff (clock : ℤ) (as : List (ℤ × TimedLabel F)) (u : Timed F)
    (hr : Transition.run step (new clock) as = some u) :
    Transition.Always step Progress (new clock) as ↔
      Transition.Guarded step InTime (new clock) as := by
  apply Transition.always_iff_guarded_of_invariant (I := Kept) _ _ _ (kept_new clock) hr
  · exact fun s hs => hs.progress
  · exact fun s a t hs hok ht => (hs.step ht).1 hok
  · exact fun s a t hs ht hp => (hs.step ht).2 hp.iterations

/-- The holder of the mutex never runs again: a fiber that goes round after its deadline does
so in every state to come, whatever the clock reads. -/
theorem spinning_of_run {s u : Timed F} {f : F} {timeout : ℤ}
    (hspin : s.spinning = some (f, timeout)) (hlocked : s.base.data.locked = true)
    (hlate : timeout ≤ s.clock) {as : List (ℤ × TimedLabel F)}
    (hr : Transition.run step s as = some u) :
    u.spinning = some (f, timeout) ∧ u.base.data.locked = true ∧ timeout ≤ u.clock := by
  refine Transition.run_invariant (P := fun s => s.spinning = some (f, timeout) ∧
    s.base.data.locked = true ∧ timeout ≤ s.clock) ?_ ⟨hspin, hlocked, hlate⟩ hr
  rintro s ⟨now, l⟩ t ⟨hspin, hlocked, hlate⟩ ht
  obtain ⟨hclock, m, hm, base, hbase, rfl⟩ := step_eq_some_iff.1 ht
  have hnow : timeout ≤ now := Int.le_trans hlate hclock
  have hturn : trylockUntil timeout now f s.base.data = (s.base.data, .again) := by
    simp [trylockUntil, hlocked, hnow]
  cases l with
  | call g c => simp [label, hspin] at hm
  | resume g => simp [label, hspin] at hm
  | expire g =>
      simp only [label, hspin] at hm
      split at hm
      · simp at hm
      · cases hm
  | iterate =>
      rw [label, hspin] at hm
      cases hm
      obtain ⟨g, c, hl, -, rfl⟩ | ⟨g, c, hl, -⟩ | ⟨q, g, c, c', hl, -⟩ :=
        Program.step_cases hbase
      · cases hl
        refine ⟨?_, ?_, hnow⟩
        · simp [after, Label.runs, iteration, hturn, Iteration.spinning]
        · simp only [after, timedProgram, timedExec, hturn]
          exact hlocked
      · cases hl
      · cases hl

/-- Fiber 2 gets the mutex before its deadline, and fiber 3 does not. -/
def inTime : List (ℤ × TimedLabel ℕ) :=
  [(0, .call 1 .lock), (1, .call 2 (.trylockUntil 4)), (2, .call 3 (.trylockUntil 5)),
    (3, .call 1 .unlock), (4, .resume 2), (6, .expire 3), (6, .resume 3)]

theorem progress_always_inTime : Transition.Always step Progress (new 0) inTime := by
  refine (progress_always_iff 0 inTime _ rfl).2 ?_
  refine .cons ?_ rfl (.cons ?_ rfl (.cons ?_ rfl (.cons ?_ rfl (.cons ?_ rfl (.cons ?_ rfl
    (.cons ?_ rfl trivial))))))
  · rintro l ⟨⟩ p ⟨⟩
    trivial
  · rintro l ⟨⟩ p ⟨⟩ -
    decide
  · rintro l ⟨⟩ p ⟨⟩ -
    decide
  · rintro l ⟨⟩ p ⟨⟩
    trivial
  · rintro l ⟨⟩ p ⟨⟩ h
    cases h
  · rintro l ⟨⟩ p ⟨⟩
  · rintro l ⟨⟩ p ⟨⟩
    trivial

/-- Fiber 1 has the mutex, and the deadline of fiber 2 is over when it calls. -/
theorem not_progress_of_late :
    ¬ Transition.Always step Progress (new 0 : Timed ℕ)
      [(0, .call 1 .lock), (5, .call 2 (.trylockUntil 3))] := by
  rintro ⟨-, h⟩
  have hp := ((h _ rfl).2 _ rfl).iterations ⟨2, 3, 5, true, .again, false, false⟩ (by decide)
  cases hp.timedOut rfl (by decide)

end Timed

end Mutex

end Zth
