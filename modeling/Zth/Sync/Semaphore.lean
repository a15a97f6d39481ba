import Mathlib.Algebra.Group.Nat.Defs
import Mathlib.Order.Basic
import Zth.Sync.Base

/-!
# The fiber-aware semaphore

Wake-ups are passed on in two modes. While `unblockAll` is clear, a release wakes
one fiber and every acquire that leaves units behind wakes the next one, so a
chain of fibers runs down the queue. Once a fiber had to wait for more than one
unit, `unblockAll` is set: a release wakes all fibers, and no acquire passes
anything on.

The flag may be set while a chain of the first mode is under way. The acquire
that should continue the chain then finds the flag set and stops it, and the
fibers further down the queue stay there although there are units left. This
takes more units at that moment than the woken fibers are going to ask for; apart
from it, no wake-up gets lost.
-/

namespace Zth

namespace Semaphore

open Monitor SynchronizerBase

/-- The calls on a semaphore. -/
inductive Call where
  | acquire (count : ℕ)
  | release (count : ℕ)
deriving DecidableEq, Repr

/-- The data of a semaphore; `count` is an `unsigned int`. -/
structure Data where
  count : ℕ
  unblockAll : Bool
deriving DecidableEq, Repr

/-- A new semaphore. -/
def Data.init (count : ℕ) : Data := ⟨count, false⟩

/-- Assignment to `count`. -/
def Data.setCount (d : Data) (count : ℕ) : Data := { d with count := count }

/-- Assignment to `unblockAll`. -/
def Data.setUnblockAll (d : Data) (all : Bool) : Data := { d with unblockAll := all }

@[simp] theorem Data.setCount_count (d : Data) (n : ℕ) : (d.setCount n).count = n := rfl

@[simp] theorem Data.setCount_unblockAll (d : Data) (n : ℕ) :
    (d.setCount n).unblockAll = d.unblockAll := rfl

@[simp] theorem Data.setUnblockAll_count (d : Data) (all : Bool) :
    (d.setUnblockAll all).count = d.count := rfl

@[simp] theorem Data.setUnblockAll_unblockAll (d : Data) (all : Bool) :
    (d.setUnblockAll all).unblockAll = all := rfl

/-- The addition in `release`, which saturates when it wraps around. -/
def addCount (m count : ℕ) : ℕ :=
  if (m + count) % 2 ^ 32 < m then 2 ^ 32 - 1 else (m + count) % 2 ^ 32

variable {F : Type*} [DecidableEq F]

/-- The code of the semaphore. -/
def exec (_ : F) (c : Call) (s : State F Unit Call Data) :
    State F Unit Call Data × Outcome Unit Call :=
  match c with
  | .acquire count =>
      if s.data.count < count then
        let all := if 1 < count then true else s.data.unblockAll
        (s.setData (s.data.setUnblockAll all), .block () (.acquire count))
      else
        let s := s.setData (s.data.setCount (s.data.count - count))
        if 0 < s.data.count && !s.data.unblockAll then
          ((unblockFirst () s).1, .done)
        else
          (s, .done)
  | .release count =>
      let s := s.setData (s.data.setCount (addCount s.data.count count))
      if 0 < s.data.count then
        if !s.data.unblockAll then
          ((unblockFirst () s).1, .done)
        else
          match SynchronizerBase.unblockAll () s with
          | (s, true) => (s, .done)
          | (s, false) => (s.setData (s.data.setUnblockAll false), .done)
      else
        (s, .done)

/-- The semaphore as a monitor. -/
def program (F : Type*) [DecidableEq F] : Program F Unit Call Data where
  exec := exec
  expired _ := none

/-- Every fiber in the queue wants more than there is. -/
def QueueStarved (s : State F Unit Call Data) : Prop :=
  ∀ f ∈ s.queue (), ∃ count, s.code f = some (.acquire count) ∧ s.data.count < count

/-- The number of woken fibers that are going to ask for one unit. -/
def wokenOnes (s : State F Unit Call Data) : ℕ :=
  s.woken.countP fun f => s.code f = some (.acquire 1)

/-- No acquire has to wait, and sets `unblockAll`, while a chain of single wake-ups
is under way that has more units to hand out than it has woken fibers. -/
def KeepsChain (s : State F Unit Call Data) (l : Label F Unit Call) : Prop :=
  ∀ f count, l.runs s = some (f, .acquire count) →
    ¬ (wokenOnes s < s.data.count ∧ s.data.count < count ∧ s.data.unblockAll = false ∧
      s.queue () ≠ [])

/-- The number of fibers that are going to ask for one unit, the one that runs the
code `o` right now included. -/
def ones (o : Option Call) (s : State F Unit Call Data) : ℕ :=
  wokenOnes s + if o = some (.acquire 1) then 1 else 0

/-- The bookkeeping of the wake-ups while the code `o`, if any, is run. -/
structure Invariant (o : Option Call) (s : State F Unit Call Data) : Prop where
  wellFormed : s.WellFormed
  code : s.CodeAll fun c => ∃ count, 1 ≤ count ∧ c = .acquire count
  narrow : s.data.unblockAll = false → ∀ f ∈ s.queue (), s.code f = some (.acquire 1)
  chain : s.data.unblockAll = false → 0 < s.data.count → s.queue () ≠ [] → 0 < ones o s
  wide : s.data.unblockAll = true → QueueStarved s ∨ s.data.count ≤ ones o s

omit [DecidableEq F] in
/-- When there is nothing left, every fiber in the queue wants more. -/
theorem queueStarved_of_count_zero {s : State F Unit Call Data} (hwf : s.WellFormed)
    (hcode : s.CodeAll fun c => ∃ count, 1 ≤ count ∧ c = .acquire count)
    (hzero : s.data.count = 0) : QueueStarved s := by
  intro f hf
  obtain ⟨c, hc⟩ := hwf.code_of_queue hf
  obtain ⟨count, hcount, rfl⟩ := hcode f c hc
  exact ⟨count, hc, by omega⟩

omit [DecidableEq F] in
/-- Code that does not ask for one unit does not count. -/
theorem ones_of_ne {o : Option Call} {s : State F Unit Call Data}
    (ho : o ≠ some (.acquire 1)) : ones o s = wokenOnes s := by
  rw [ones, if_neg ho, Nat.add_zero]

/-- A woken fiber counts, whether it still has to run or is running. -/
theorem ones_start {s : State F Unit Call Data} {f : F} {c : Call} (hwf : s.WellFormed)
    (hf : s.code f = some c) (hw : f ∈ s.woken) :
    ones (some c) (s.start f) = ones none s := by
  have herase : wokenOnes (s.start f) =
      (s.woken.erase f).countP fun g => s.code g = some (.acquire 1) := by
    refine List.countP_congr fun g hg => ?_
    rw [State.start_code_of_ne s]
    rintro rfl
    exact hwf.woken_nodup.not_mem_erase hg
  rw [ones, ones, herase, wokenOnes, (List.perm_cons_erase hw).countP_eq, List.countP_cons,
    hf]
  simp

omit [DecidableEq F] in
/-- Without fibers in the queue there is no wake-up to be lost. -/
theorem invariant_of_queue_nil {s : State F Unit Call Data} (hwf : s.WellFormed)
    (hcode : s.CodeAll fun c => ∃ count, 1 ≤ count ∧ c = .acquire count)
    (hq : s.queue () = []) : Invariant none s where
  wellFormed := hwf
  code := hcode
  narrow _ f hf := by simp [hq] at hf
  chain _ _ hne := absurd hq hne
  wide _ := Or.inl fun f hf => by simp [hq] at hf

/-- Waking the first fiber of a queue of fibers that want one unit each restores
the chain. -/
theorem invariant_unblockFirst {s : State F Unit Call Data} (hwf : s.WellFormed)
    (hcode : s.CodeAll fun c => ∃ count, 1 ≤ count ∧ c = .acquire count)
    (hflag : s.data.unblockAll = false)
    (hnarrow : ∀ f ∈ s.queue (), s.code f = some (.acquire 1)) :
    Invariant none (unblockFirst () s).1 := by
  have hwide : (s.wakeFirst ()).1.data.unblockAll ≠ true := by simp [hflag]
  refine ⟨hwf.wakeFirst (), ?_, ?_, ?_, fun h => absurd h hwide⟩
  · intro f c hf
    rw [unblockFirst, State.wakeFirst_code] at hf
    exact hcode f c hf
  · intro _ f hf
    rw [unblockFirst, State.wakeFirst_code]
    refine hnarrow f ?_
    rcases State.wakeFirst_spec s () with ⟨-, heq⟩ | ⟨g, gs, hq, -, hqueue, -⟩
    · rwa [unblockFirst, heq] at hf
    · rw [unblockFirst, hqueue, Function.update_self] at hf
      rw [hq]
      exact List.mem_cons_of_mem g hf
  · intro _ _ hne
    rcases State.wakeFirst_spec s () with ⟨hnil, heq⟩ | ⟨g, gs, hq, -, -, hw⟩
    · rw [unblockFirst, heq] at hne
      exact absurd hnil hne
    · rw [ones_of_ne (by simp), wokenOnes, List.countP_pos_iff]
      refine ⟨g, ?_, ?_⟩
      · rw [unblockFirst, hw]
        exact List.mem_append_right _ (List.mem_singleton_self g)
      · rw [unblockFirst, State.wakeFirst_code, decide_eq_true_eq]
        exact hnarrow g (by rw [hq]; exact List.mem_cons_self)

/-- The state after the fiber `f` blocked for `count` units. -/
def blocked (f : F) (count : ℕ) (all : Bool) (s : State F Unit Call Data) :
    State F Unit Call Data :=
  State.finish f (s.setData (s.data.setUnblockAll all), .block () (.acquire count))

theorem blocked_code_of_ne {s : State F Unit Call Data} {f g : F} (count : ℕ) (all : Bool)
    (hf : s.code f = none) (hg : s.code g ≠ none) :
    (blocked f count all s).code g = s.code g := by
  refine Function.update_of_ne ?_ _ _
  rintro rfl
  exact hg hf

/-- The fibers that were starved before, and the one that joins them. -/
theorem queueStarved_blocked {s : State F Unit Call Data} {f : F} {count : ℕ} (all : Bool)
    (hf : s.code f = none) (hlt : s.data.count < count) (h : QueueStarved s) :
    QueueStarved (blocked f count all s) := by
  intro g hg
  simp only [blocked, State.finish_block_queue, State.setData_queue, Function.update_self,
    List.mem_append, List.mem_singleton] at hg
  rcases hg with hg | rfl
  · obtain ⟨n, hn, hlt'⟩ := h g hg
    refine ⟨n, ?_, hlt'⟩
    rw [blocked_code_of_ne count all hf (by rw [hn]; simp), hn]
  · exact ⟨count, Function.update_self _ _ _, hlt⟩

theorem wokenOnes_blocked {s : State F Unit Call Data} {f : F} (count : ℕ) (all : Bool)
    (hwf : s.WellFormed) (hf : s.code f = none) :
    wokenOnes (blocked f count all s) = wokenOnes s := by
  refine List.countP_congr fun g hg => ?_
  have hcode : s.code g ≠ none := (hwf.code_iff g).2 (Or.inl hg)
  rw [blocked_code_of_ne count all hf hcode]

/-- An acquire that has to wait. The flag is set when it wants more than one
unit; the fibers in the queue are starved then, unless the woken fibers are going
to take all units that are left. -/
theorem invariant_blocked {s : State F Unit Call Data} {f : F} {count : ℕ}
    (hs : Invariant (some (.acquire count)) s) (hf : s.code f = none)
    (hlt : s.data.count < count)
    (hkeep : ¬ (wokenOnes s < s.data.count ∧ s.data.count < count ∧
      s.data.unblockAll = false ∧ s.queue () ≠ [])) :
    Invariant none
      (blocked f count (if 1 < count then true else s.data.unblockAll) s) := by
  have hone : 1 ≤ count := by omega
  have hwf : ∀ all, (blocked f count all s).WellFormed := fun all =>
    (hs.wellFormed.setData (s.data.setUnblockAll all)).finish hf _
  have hcode : ∀ all, (blocked f count all s).CodeAll
      fun c => ∃ n, 1 ≤ n ∧ c = .acquire n := fun all =>
    State.CodeAll.finish_block (s := s.setData (s.data.setUnblockAll all)) hs.code f ()
      ⟨count, hone, rfl⟩
  by_cases hmany : 1 < count
  · rw [if_pos hmany]
    have hne : some (Call.acquire count) ≠ some (.acquire 1) := by
      intro h
      rw [Option.some.injEq, Call.acquire.injEq] at h
      omega
    have hones : ones none (blocked f count true s) = wokenOnes s := by
      rw [ones_of_ne (by simp), wokenOnes_blocked count true hs.wellFormed hf]
    refine ⟨hwf true, hcode true, ?_, ?_, fun _ => ?_⟩
    · intro h
      simp [blocked] at h
    · intro h
      simp [blocked] at h
    have hleft : QueueStarved s ∨ s.data.count ≤ wokenOnes s := by
      cases hflag : s.data.unblockAll with
      | true =>
          rw [← ones_of_ne hne]
          exact hs.wide hflag
      | false =>
          by_cases hq : s.queue () = []
          · refine Or.inl fun g hg => ?_
            rw [hq] at hg
            cases hg
          · refine Or.inr ?_
            by_contra hgt
            exact hkeep ⟨by omega, hlt, hflag, hq⟩
    rw [hones]
    exact hleft.imp_left (queueStarved_blocked true hf hlt)
  · rw [if_neg hmany]
    obtain rfl : count = 1 := by omega
    have hzero : s.data.count = 0 := by omega
    refine ⟨hwf _, hcode _, ?_, ?_, ?_⟩
    · intro hflag g hg
      simp only [blocked, State.finish_block_queue, State.setData_queue,
        Function.update_self, List.mem_append, List.mem_singleton] at hg
      rcases hg with hg | rfl
      · have hg1 := hs.narrow hflag g hg
        rw [blocked_code_of_ne 1 _ hf (by rw [hg1]; simp), hg1]
      · exact Function.update_self _ _ _
    · intro _ hpos
      exact absurd hpos (by simp [blocked, hzero])
    · intro _
      exact Or.inl (queueStarved_of_count_zero (hwf _) (hcode _) hzero)

/-- An acquire that gets its units, and passes the wake-up on in the first mode. -/
theorem invariant_acquired {s : State F Unit Call Data} {f : F} {count : ℕ}
    (hs : Invariant (some (.acquire count)) s) (hle : ¬ s.data.count < count) :
    Invariant none (State.finish f ((program F).exec f (.acquire count) s)) := by
  simp only [program, exec, if_neg hle]
  have hwf := hs.wellFormed.setData (s.data.setCount (s.data.count - count))
  cases hflag : s.data.unblockAll with
  | false =>
      by_cases hpos : 0 < s.data.count - count
      · simp only [State.setData_data, Data.setCount_count, Data.setCount_unblockAll, hpos,
          hflag, decide_true, Bool.not_false, Bool.and_self, if_true, State.finish_done]
        exact invariant_unblockFirst hwf hs.code hflag (hs.narrow hflag)
      · simp only [State.setData_data, Data.setCount_count, hpos, decide_false,
          Bool.false_and, Bool.false_eq_true, if_false, State.finish_done]
        refine ⟨hwf, hs.code, fun _ => hs.narrow hflag, fun _ h => absurd h hpos, ?_⟩
        intro h
        exact absurd h (by simp [hflag])
  | true =>
      simp only [State.setData_data, Data.setCount_unblockAll, hflag, Bool.not_true,
        Bool.and_false, Bool.false_eq_true, if_false, State.finish_done]
      refine ⟨hwf, hs.code, fun h => absurd h (by simp [hflag]),
        fun h => absurd h (by simp [hflag]), fun _ => ?_⟩
      rcases hs.wide hflag with hstarved | hones
      · refine Or.inl fun g hg => ?_
        obtain ⟨n, hn, hlt⟩ := hstarved g hg
        exact ⟨n, hn, Nat.lt_of_le_of_lt (Nat.sub_le _ _) hlt⟩
      · refine Or.inr ?_
        rw [State.setData_data, Data.setCount_count, ones_of_ne (by simp)]
        change s.data.count - count ≤ wokenOnes s
        by_cases hcount : count = 1
        · subst hcount
          rw [ones, if_pos rfl] at hones
          omega
        · rw [ones_of_ne (by simp [hcount])] at hones
          omega

/-- A release wakes the first fiber in the first mode, and all of them in the
second. -/
theorem invariant_release {o : Option Call} {s : State F Unit Call Data} {f : F}
    {count : ℕ} (hs : Invariant o s) :
    Invariant none (State.finish f ((program F).exec f (.release count) s)) := by
  simp only [program, exec]
  have hwf := hs.wellFormed.setData
    (s.data.setCount (addCount s.data.count count))
  by_cases hpos : 0 < addCount s.data.count count
  · simp only [State.setData_data, Data.setCount_count, Data.setCount_unblockAll, hpos,
      if_true]
    by_cases hflag : s.data.unblockAll = true
    · simp only [hflag, Bool.not_true, Bool.false_eq_true, if_false]
      rcases heq : SynchronizerBase.unblockAll ()
        (s.setData (s.data.setCount (addCount s.data.count count))) with ⟨t, any⟩
      obtain rfl : (State.wakeAll _ ()).1 = t := congrArg Prod.fst heq
      cases any with
      | true =>
          exact invariant_of_queue_nil (hwf.wakeAll ()) hs.code (by simp [State.wakeAll])
      | false =>
          -- Nobody was waiting any more, and the first mode is back.
          exact invariant_of_queue_nil ((hwf.wakeAll ()).setData _) hs.code
            (by simp [State.wakeAll])
    · rw [Bool.not_eq_true] at hflag
      simp only [hflag, Bool.not_false, if_true, State.finish_done]
      exact invariant_unblockFirst hwf hs.code hflag (hs.narrow hflag)
  · simp only [State.setData_data, Data.setCount_count, hpos, if_false, State.finish_done]
    have hzero : addCount s.data.count count = 0 := Nat.eq_zero_of_not_pos hpos
    exact ⟨hwf, hs.code, hs.narrow, fun _ h => absurd h hpos,
      fun _ => Or.inl (queueStarved_of_count_zero hwf hs.code hzero)⟩

/-- One piece of code, of a fiber that is not in the middle of a call or of a
fiber that was woken. -/
theorem invariant_exec {s : State F Unit Call Data} {f : F} {c : Call}
    (hs : Invariant (some c) s) (hf : s.code f = none)
    (hkeep : ∀ count, c = .acquire count →
      ¬ (wokenOnes s < s.data.count ∧ s.data.count < count ∧ s.data.unblockAll = false ∧
        s.queue () ≠ [])) :
    Invariant none (State.finish f ((program F).exec f c s)) := by
  cases c with
  | release count => exact invariant_release hs
  | acquire count =>
      by_cases hlt : s.data.count < count
      · have hb := invariant_blocked hs hf hlt (hkeep count rfl)
        simp only [program, exec, if_pos hlt]
        exact hb
      · exact invariant_acquired hs hlt

theorem invariant_step {s t : State F Unit Call Data} {l : Label F Unit Call}
    (hs : Invariant none s) (hkeep : KeepsChain s l)
    (h : (program F).step s l = some t) : Invariant none t := by
  rcases Program.step_cases h with ⟨f, c, rfl, hf, rfl⟩ | ⟨f, c, rfl, hf, hw, rfl⟩ |
    ⟨q, f, c, c', -, -, he, -, -⟩
  · have hcall : Invariant (some c) s :=
      ⟨hs.wellFormed, hs.code, hs.narrow,
        fun h0 h1 h2 => Nat.lt_of_lt_of_le (hs.chain h0 h1 h2) (Nat.le_add_right _ _),
        fun h0 => (hs.wide h0).imp_right fun h1 => Nat.le_trans h1 (Nat.le_add_right _ _)⟩
    refine invariant_exec hcall hf ?_
    rintro count rfl
    exact hkeep f count rfl
  · -- The fiber that runs may be one of those that were counted.
    have hones := ones_start hs.wellFormed hf hw
    have hqueue : ∀ g ∈ s.queue (), (s.start f).code g = s.code g := by
      intro g hg
      refine State.start_code_of_ne s ?_
      rintro rfl
      exact hs.wellFormed.queue_not_woken () g hg hw
    have hresume : Invariant (some c) (s.start f) := by
      refine ⟨hs.wellFormed.start hw, hs.code.start f, ?_, ?_, ?_⟩
      · intro h0 g hg
        rw [hqueue g hg]
        exact hs.narrow h0 g hg
      · intro h0 h1 h2
        rw [hones]
        exact hs.chain h0 h1 h2
      · intro h0
        rcases hs.wide h0 with h1 | h1
        · refine Or.inl fun g hg => ?_
          rw [hqueue g hg]
          exact h1 g hg
        · exact Or.inr (hones ▸ h1)
    refine invariant_exec hresume (s.start_code_self f) ?_
    rintro count rfl ⟨hmore, hlt, hrest⟩
    have hne : some (Call.acquire count) ≠ some (.acquire 1) := by
      intro h
      rw [Option.some.injEq, Call.acquire.injEq] at h
      omega
    rw [ones_of_ne hne, ones_of_ne (by simp)] at hones
    rw [hones] at hmore
    exact hkeep f count (by simp [Label.runs, hf]) ⟨hmore, hlt, hrest⟩
  · cases he

/-- In every interleaving in which no chain is cut short, a state without woken
fibers has no fiber in the queue that could have its units. -/
theorem queueStarved_of_keepsChain (count : ℕ) (ls : List (Label F Unit Call))
    (s : State F Unit Call Data)
    (hg : Transition.Guarded (program F).step KeepsChain
      (State.idle (Data.init count)) ls)
    (hr : Transition.run (program F).step (State.idle (Data.init count)) ls = some s)
    (hw : s.woken = []) : QueueStarved s := by
  have hs : Invariant none s :=
    hg.invariant (fun _ _ _ hs hk h => invariant_step hs hk h)
      (invariant_of_queue_nil (.idle _) (fun f c h => by simp [State.idle] at h) rfl) hr
  have hno : ones none s = 0 := by
    rw [ones_of_ne (by simp), wokenOnes, hw, List.countP_nil]
  cases hflag : s.data.unblockAll with
  | true =>
      rcases hs.wide hflag with hstarved | hle
      · exact hstarved
      · rw [hno, Nat.le_zero] at hle
        exact queueStarved_of_count_zero hs.wellFormed hs.code hle
  | false =>
      by_cases hq : s.queue () = []
      · intro f hf
        rw [hq] at hf
        cases hf
      · refine queueStarved_of_count_zero hs.wellFormed hs.code ?_
        by_contra hpos
        have hchain := hs.chain hflag (Nat.pos_of_ne_zero hpos) hq
        omega

/-- Fibers 1 and 2 wait for one unit each and two are released, which wakes
fiber 1. Before it runs, fiber 3 has to wait for three units and sets
`unblockAll`. Fiber 1 takes its unit and passes nothing on. -/
def cutShort : List (Label ℕ Unit Call) :=
  [.call 1 (.acquire 1), .call 2 (.acquire 1), .call 4 (.release 2),
    .call 3 (.acquire 3), .resume 1]

/-- Fiber 2 is left in the queue with one unit to be had and nobody woken. -/
theorem not_queueStarved_cutShort :
    ∃ s, Transition.run (program ℕ).step (State.idle (Data.init 0)) cutShort = some s ∧
      s.woken = [] ∧ ¬ QueueStarved s := by
  refine ⟨_, rfl, rfl, fun h => ?_⟩
  obtain ⟨count, hc, hlt⟩ := h 2 (by decide)
  cases hc
  exact absurd hlt (by decide)

/-- The same calls with just one unit released, which fiber 1 is going to take. -/
def handedOut : List (Label ℕ Unit Call) :=
  [.call 1 (.acquire 1), .call 2 (.acquire 1), .call 4 (.release 1),
    .call 3 (.acquire 3), .resume 1]

theorem queueStarved_of_keepsChain_handedOut :
    ∃ s, Transition.run (program ℕ).step (State.idle (Data.init 0)) handedOut = some s ∧
      s.queue () = [2, 3] ∧ QueueStarved s := by
  refine ⟨_, rfl, rfl, queueStarved_of_keepsChain 0 handedOut _ ?_ rfl rfl⟩
  refine .cons ?_ rfl (.cons ?_ rfl (.cons ?_ rfl (.cons ?_ rfl (.cons ?_ rfl trivial))))
  all_goals
    intro f count h
    cases h
  all_goals decide

end Semaphore

end Zth
