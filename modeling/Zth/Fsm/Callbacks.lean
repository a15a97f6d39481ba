import Zth.Fsm.Pieces
import Zth.Fsm.Stack

/-!
# What the user's code sees of the machine

`step` and `pop` update the machine one member after the other, and call `leave` and `enter`
in between. These are virtual functions, so that is where code of the user may look at the
machine, and call functions of it, which are then nested in the one that has not returned yet.

`step` records the transition before it calls `leave`, but whether that is one on an input
symbol only afterwards.
-/

namespace Zth

namespace Fsm

/-- A function of the machine that has not returned: `step` is about to poll an entry, has
polled it, is in `leave` or is in `enter`; `pop` is in `leave` or is in `enter`; or `enter`
runs an action, which has still to make some calls. -/
inductive Frame (D : Type*) where
  | polling (i : ℕ) (again : TimeInterval)
  | polled (i : ℕ) (again p : TimeInterval)
  | leaving (i target : ℕ)
  | entering (moved : Bool)
  | popLeaving (target : ℕ)
  | popEntering
  | acting (calls : List (Call D))

/-- What happens next: the user's code calls a function of the machine, or calls `step`, or
calls `enter` of the base class; or the innermost function goes on, for which that code
returns if it was called from there. -/
inductive Act (W D : Type*) where
  | call (c : Call D)
  | step
  | base (w : W)
  | go (w : W)

variable {W D : Type*}

/-- The user's code runs: nothing else does, or it was called as `leave` or `enter`. -/
def userRuns : List (Frame D) → Bool
  | [] => true
  | .leaving _ _ :: _ => true
  | .entering _ :: _ => true
  | .popLeaving _ :: _ => true
  | .popEntering :: _ => true
  | _ => false

namespace BasicFsm

/-- A transition with a target, up to the call of `leave`. -/
def beginTransition (i target : ℕ) (m : BasicFsm D) : BasicFsm D :=
  let m := { m with transition := i }.clearFlag .blocked
  (m.setFlag .selfloop (target == m.state)).setFlag .transition true

/-- The rest of it, up to the call of `enter`. -/
def completeTransition (target : ℕ) (isInput : Bool) (m : BasicFsm D) : BasicFsm D :=
  let m := { m with prev := m.state, state := target }
  ((m.clearFlag .popped).clearFlag .pushed).setFlag .input isInput

/-- `pop`, up to the check whether `leave` was called. -/
def beginPop (target : ℕ) (m : BasicFsm D) : BasicFsm D :=
  (m.clearFlag .blocked).setFlag .selfloop (m.state == target)

/-- The rest of it, up to the call of `enter`; `stack` is what remains of the stack. -/
def completePop (target : ℕ) (stack : List ℕ) (m : BasicFsm D) : BasicFsm D :=
  let m := { m with prev := m.state, state := target, stack := stack, transition := 0 }
  ((m.clearFlag .pushed).setFlag .popped true).clearFlag .input

theorem takeTransition_eq {e : CompiledTransition (Guard W D) (Action W D)} (h : e.target ≠ 0)
    (i : ℕ) (m : BasicFsm D) :
    m.takeTransition i e =
      (if m.state = 0 then m.beginTransition i e.target
        else (m.beginTransition i e.target).leave).completeTransition e.target
          e.trigger.isInput := by
  rw [takeTransition, if_neg h]
  rfl

theorem popTo_eq (target : ℕ) (stack : List ℕ) (m : BasicFsm D) :
    m.popTo target stack =
      ((if (m.beginPop target).flag .transition then m.beginPop target
        else ((m.beginPop target).setFlag .transition true).leave).completePop target
          stack).setFlag .entry true := rfl

/-- A call of a function of the machine. If `pop` finds nothing to drop anymore after
`leave`, the behaviour is undefined. -/
def perform (table : CompiledTable W D) (m : BasicFsm D) (frames : List (Frame D)) :
    Call D → Option (BasicFsm D × List (Frame D))
  | .pop =>
      match m.stack with
      | [] => none
      | target :: stack =>
          if target = 0 then none
          else if (m.beginPop target).flag .transition then
            some ((m.beginPop target).completePop target stack, .popEntering :: frames)
          else
            some (((m.beginPop target).setFlag .transition true).leave,
              .popLeaving target :: frames)
  | c => (c.run table m).map fun m => (m, frames)

/-- The innermost function goes on, up to where the user's code runs again. -/
def goOn (table : CompiledTable W D) (w : W) (m : BasicFsm D) :
    List (Frame D) → Option (BasicFsm D × List (Frame D))
  | [] => none
  | .polling i again :: frames =>
      table[i]?.map fun e =>
        ((m.enabled w e.trigger).2, .polled i again (m.enabled w e.trigger).1 :: frames)
  | .polled i again p :: frames =>
      table[i]?.map fun e =>
        if p.hasPassed then
          if e.target = 0 then (m.takeTransition i e, .entering false :: frames)
          else if m.state = 0 then (m.takeTransition i e, .entering true :: frames)
          else ((m.beginTransition i e.target).leave, .leaving i e.target :: frames)
        else if endsAt table (i + 1) then (m.setFlag .blocked true, frames)
        else (m, .polling (i + 1) (shortest p again) :: frames)
  | .leaving i target :: frames =>
      table[i]?.map fun e =>
        (m.completeTransition target e.trigger.isInput, .entering true :: frames)
  | .entering moved :: frames => some (if moved then m.setFlag .entry true else m, frames)
  | .popLeaving target :: frames =>
      match m.stack with
      | [] => none
      | _ :: stack => some (m.completePop target stack, .popEntering :: frames)
  | .popEntering :: frames => some (m.setFlag .entry true, frames)
  | .acting [] :: frames => some (m, frames)
  | .acting (c :: calls) :: frames => m.perform table (.acting calls :: frames) c

/-- `enter` of the base class runs the action of the recorded transition. -/
def enterBase (table : CompiledTable W D) (w : W) (m : BasicFsm D) (frames : List (Frame D)) :
    Option (BasicFsm D × List (Frame D)) :=
  if m.transition = 0 then some (m, .acting [] :: frames)
  else table[m.transition]?.map fun e => (m.logAction, .acting (e.action w m.logAction) :: frames)

end BasicFsm

/-- The machine with the functions that have not returned. -/
structure Nested (D : Type*) where
  fsm : BasicFsm D
  frames : List (Frame D)

namespace Nested

open BasicFsm

/-- A machine that was initialized. -/
def init (d : D) : Nested D := ⟨.init d, []⟩

/-- `enter` was called, and has not returned. -/
def inEnter : List (Frame D) → Bool
  | .entering _ :: _ => true
  | .popEntering :: _ => true
  | _ => false

def step (table : CompiledTable W D) (r : Nested D) : Act W D → Option (Nested D)
  | .call c =>
      if userRuns r.frames then (r.fsm.perform table r.frames c).map fun x => ⟨x.1, x.2⟩ else none
  | .step =>
      if userRuns r.frames then
        some ⟨r.fsm, .polling r.fsm.state (guardPollInterval false) :: r.frames⟩
      else none
  | .base w =>
      if inEnter r.frames then (r.fsm.enterBase table w r.frames).map fun x => ⟨x.1, x.2⟩
      else none
  | .go w => (r.fsm.goOn table w r.frames).map fun x => ⟨x.1, x.2⟩

end Nested

open BasicFsm

/-- The start of the entries of a state, or the dummy. -/
def StartsBlock (table : CompiledTable W D) (i : ℕ) : Prop :=
  i = 0 ∨ ∃ s ≠ none, IsIndex table s i

/-- The indices are those of states, and the transition that is recorded has an input symbol
if it is said to be taken on one, as `input` asserts. -/
structure Consistent (table : CompiledTable W D) (m : BasicFsm D) : Prop where
  placed : Placed (StartsBlock table) m
  known : InputKnown table m
  asserted : m.triggeredBy table ≠ none

/-- The condition on one step. A state that was entered on an input symbol is not left by a
transition without one. And when `leave` returns, after which the flag for an input symbol is
set again, it is set only if the recorded transition has one. -/
def InputKept (table : CompiledTable W D) (r : Nested D) : Act W D → Prop
  | .go _ =>
      match r.frames with
      | .polled i _ p :: _ => ∀ e, table[i]? = some e → p.hasPassed → e.target ≠ 0 →
          r.fsm.state ≠ 0 → r.fsm.flag .input → e.trigger.isInput
      | .leaving i _ :: _ => ∀ e, table[i]? = some e → e.trigger.isInput →
          ∃ e', table[r.fsm.transition]? = some e' ∧ e'.trigger.isInput
      | _ => True
  | _ => True

/-- What a function that has not returned remembers is still right. -/
def Frame.Sound (table : CompiledTable W D) : Frame D → Prop
  | .leaving _ target => StartsBlock table target
  | .popLeaving target => StartsBlock table target
  | _ => True

/-- What holds whatever the user's code does. -/
structure Nested.Sound (table : CompiledTable W D) (r : Nested D) : Prop where
  placed : Placed (StartsBlock table) r.fsm
  frames : ∀ f ∈ r.frames, f.Sound table

/-- The same transition, states and stack, and it was taken on an input symbol or not. -/
structure SameIndices (m m' : BasicFsm D) : Prop where
  input : m'.flags .input = m.flags .input
  prev : m'.prev = m.prev
  transition : m'.transition = m.transition
  state : m'.state = m.state
  stack : m'.stack = m.stack

theorem BasicFsm.SamePlace.sameIndices {m m' : BasicFsm D} (h : SamePlace m m') :
    SameIndices m m' :=
  ⟨h.input, h.prev, h.transition, h.state, h.stack⟩

theorem SameIndices.placed {P : ℕ → Prop} {m m' : BasicFsm D} (h : SameIndices m m')
    (hm : Placed P m) : Placed P m' :=
  hm.congr h.state h.prev h.stack

theorem SameIndices.inputKnown_iff {table : CompiledTable W D} {m m' : BasicFsm D}
    (h : SameIndices m m') : InputKnown table m' ↔ InputKnown table m := by
  rw [InputKnown, InputKnown, h.input, h.transition]

theorem sameIndices_beginPop (target : ℕ) (m : BasicFsm D) :
    SameIndices m (m.beginPop target) :=
  ⟨by simp [beginPop], rfl, rfl, rfl, rfl⟩

theorem consistent_iff {table : CompiledTable W D} {m : BasicFsm D}
    (h : Placed (StartsBlock table) m) : Consistent table m ↔ InputKnown table m := by
  refine ⟨fun hm => hm.known, fun hm => ⟨h, hm, fun hnone => ?_⟩⟩
  obtain ⟨s, hs⟩ := hm.triggeredBy
  rw [hs] at hnone
  cases hnone

/-- The target of an entry is the start of a state. -/
theorem startsBlock_target {l : List (Transition (Guard W D) (Action W D))}
    {table : CompiledTable W D} (h : compile (builtin W D) l = .ok table)
    {e : CompiledTransition (Guard W D) (Action W D)} (he : e ∈ table) :
    StartsBlock table e.target := by
  rcases target_of_compile h he with hzero | ⟨s, hs, hfind⟩
  · exact Or.inl hzero
  · exact Or.inr ⟨s, hs, (block_of_compile h hs hfind).1⟩

namespace BasicFsm

variable {table : CompiledTable W D} {m : BasicFsm D} {frames : List (Frame D)}

theorem perform_of_ne {c : Call D} (hc : c ≠ .pop) :
    m.perform table frames c = (c.run table m).map fun m => (m, frames) := by
  cases c with
  | pop => exact absurd rfl hc
  | _ => rfl

/-- What a call does: `pop` ends in `leave` or `enter`, and any other function returns. -/
theorem perform_cases {c : Call D} {x : BasicFsm D × List (Frame D)}
    (h : m.perform table frames c = some x) :
    (∃ m', c.run table m = some m' ∧ c ≠ .pop ∧ x = (m', frames)) ∨
    ∃ target stack, m.stack = target :: stack ∧
      (x = ((m.beginPop target).completePop target stack, .popEntering :: frames) ∨
        x = (((m.beginPop target).setFlag .transition true).leave,
          .popLeaving target :: frames)) := by
  rcases eq_or_ne c .pop with rfl | hc
  · rw [perform] at h
    split at h
    · cases h
    · rename_i target stack hstack
      split at h
      · cases h
      · split at h
        · exact Or.inr ⟨target, stack, hstack, Or.inl (Option.some.inj h).symm⟩
        · exact Or.inr ⟨target, stack, hstack, Or.inr (Option.some.inj h).symm⟩
  · rw [perform_of_ne hc] at h
    obtain ⟨m', hm', rfl⟩ := Option.map_eq_some_iff.1 h
    exact Or.inl ⟨m', hm', hc, rfl⟩

theorem placed_completePop {P : ℕ → Prop} {target : ℕ} (htarget : P target) {stack : List ℕ}
    (hstack : ∀ i ∈ stack, P i) (hm : Placed P m) : Placed P (m.completePop target stack) :=
  ⟨htarget, hm.state, hstack⟩

theorem inputKnown_completePop (target : ℕ) (stack : List ℕ) (m : BasicFsm D) :
    InputKnown table (m.completePop target stack) := by
  intro hflag
  simp [completePop] at hflag

theorem sameIndices_popLeave (target : ℕ) (m : BasicFsm D) :
    SameIndices m ((m.beginPop target).setFlag .transition true).leave :=
  ⟨by simp [beginPop, leave], rfl, rfl, rfl, rfl⟩

theorem perform_sound {c : Call D} {x : BasicFsm D × List (Frame D)}
    (hm : Placed (StartsBlock table) m) (hframes : ∀ f ∈ frames, f.Sound table)
    (h : m.perform table frames c = some x) :
    Placed (StartsBlock table) x.1 ∧ ∀ f ∈ x.2, f.Sound table := by
  rcases perform_cases h with ⟨m', hm', -, rfl⟩ | ⟨target, stack, hstack, rfl | rfl⟩
  · exact ⟨Call.run_placed (Or.inl rfl) hm hm', hframes⟩
  · have hon : ∀ i ∈ target :: stack, StartsBlock table i := hstack ▸ hm.stack
    refine ⟨placed_completePop (hon target List.mem_cons_self)
      (fun i hi => hon i (List.mem_cons_of_mem target hi))
      ((sameIndices_beginPop target m).placed hm), ?_⟩
    exact List.forall_mem_cons.2 ⟨trivial, hframes⟩
  · have htarget : StartsBlock table target := by
      apply hm.stack
      rw [hstack]
      exact List.mem_cons_self
    exact ⟨(sameIndices_popLeave target m).placed hm, List.forall_mem_cons.2 ⟨htarget, hframes⟩⟩

theorem inputKnown_run {c : Call D} {m' : BasicFsm D} (hm : InputKnown table m)
    (h : c.run table m = some m') (hc : c ≠ .pop) : InputKnown table m' := by
  rcases Call.run_cases h with ⟨-, rfl⟩ | ⟨hpop, -⟩ | ⟨-, rfl⟩ | ⟨-, -, -, hsame⟩
  · exact hm.congr (by simp [push]) rfl
  · exact absurd hpop hc
  · intro hflag
    cases hflag
  · exact hm.congr hsame.input hsame.transition

theorem perform_known {c : Call D} {x : BasicFsm D × List (Frame D)} (hm : InputKnown table m)
    (h : m.perform table frames c = some x) : InputKnown table x.1 := by
  rcases perform_cases h with ⟨m', hm', hc, rfl⟩ | ⟨target, stack, -, rfl | rfl⟩
  · exact inputKnown_run hm hm' hc
  · exact inputKnown_completePop target stack _
  · exact (sameIndices_popLeave target m).inputKnown_iff.2 hm

/-- In `leave`, the flag is still that of the transition before. -/
theorem inputKnown_beginTransition_iff {i : ℕ} {e : CompiledTransition (Guard W D) (Action W D)}
    (he : table[i]? = some e) (m : BasicFsm D) :
    InputKnown table (m.beginTransition i e.target).leave ↔
      (m.flag .input = true → e.trigger.isInput = true) := by
  have hinput : (m.beginTransition i e.target).leave.flags .input = m.flags .input := by
    simp [beginTransition, leave]
  rw [inputKnown_iff, hinput]
  refine forall_congr' fun _ => ⟨?_, fun hin => ⟨e, he, hin⟩⟩
  rintro ⟨e', he', hin⟩
  obtain rfl : e = e' := Option.some.inj (he.symm.trans he')
  exact hin

theorem placed_completeTransition {P : ℕ → Prop} {target : ℕ} (htarget : P target)
    (isInput : Bool) (hm : Placed P m) : Placed P (m.completeTransition target isInput) :=
  ⟨htarget, hm.state, hm.stack⟩

/-- After `leave`, the recorded transition is the one that it has left. -/
theorem inputKnown_completeTransition_iff (target : ℕ) (isInput : Bool) (m : BasicFsm D) :
    InputKnown table (m.completeTransition target isInput) ↔
      (isInput = true → ∃ e, table[m.transition]? = some e ∧ e.trigger.isInput = true) := by
  rw [inputKnown_iff, completeTransition, setFlag_flags, Function.update_self]
  exact Iff.rfl

theorem enterBase_spec {w : W} {x : BasicFsm D × List (Frame D)}
    (h : m.enterBase table w frames = some x) :
    SameIndices m x.1 ∧ ∃ calls, x.2 = .acting calls :: frames := by
  rw [enterBase] at h
  split at h
  · cases h
    exact ⟨⟨rfl, rfl, rfl, rfl, rfl⟩, [], rfl⟩
  · obtain ⟨e, -, rfl⟩ := Option.map_eq_some_iff.1 h
    exact ⟨⟨rfl, rfl, rfl, rfl, rfl⟩, _, rfl⟩

theorem sameIndices_setFlag {f : Flag} (hf : f ≠ .input) (value : Bool) (m : BasicFsm D) :
    SameIndices m (m.setFlag f value) :=
  (samePlace_setFlag f hf value m).sameIndices

/-- One step of a function of the machine: which of the changes it makes. -/
theorem goOn_sound {l : List (Transition (Guard W D) (Action W D))}
    (hl : compile (builtin W D) l = .ok table) {w : W} {x : BasicFsm D × List (Frame D)}
    (hm : Placed (StartsBlock table) m) (hframes : ∀ f ∈ frames, f.Sound table)
    (h : m.goOn table w frames = some x) :
    Placed (StartsBlock table) x.1 ∧ ∀ f ∈ x.2, f.Sound table := by
  cases frames with
  | nil => cases h
  | cons f frames =>
      obtain ⟨hf, hrest⟩ := List.forall_mem_cons.1 hframes
      have hwith : ∀ g : Frame D, g.Sound table → ∀ f ∈ g :: frames, f.Sound table :=
        fun g hg => List.forall_mem_cons.2 ⟨hg, hrest⟩
      cases f with
      | polling i again =>
          obtain ⟨e, -, rfl⟩ := Option.map_eq_some_iff.1 h
          have hsame := (sameButEntry_enabled w e.trigger m).samePlace.sameIndices
          exact ⟨hsame.placed hm, hwith _ trivial⟩
      | polled i again p =>
          obtain ⟨e, he, rfl⟩ := Option.map_eq_some_iff.1 h
          have htarget := startsBlock_target hl (List.mem_of_getElem? he)
          split
          · split
            · exact ⟨placed_takeTransition htarget hm, hwith _ trivial⟩
            · split
              · exact ⟨placed_takeTransition htarget hm, hwith _ trivial⟩
              · exact ⟨hm.congr rfl rfl rfl, hwith _ htarget⟩
          · split
            · exact ⟨hm.congr rfl rfl rfl, hrest⟩
            · exact ⟨hm, hwith _ trivial⟩
      | leaving i target =>
          obtain ⟨e, -, rfl⟩ := Option.map_eq_some_iff.1 h
          exact ⟨placed_completeTransition hf _ hm, hwith _ trivial⟩
      | entering moved =>
          cases h
          refine ⟨?_, hrest⟩
          dsimp only
          split
          · exact hm.congr rfl rfl rfl
          · exact hm
      | popLeaving target =>
          rw [goOn] at h
          split at h
          · cases h
          · rename_i i stack hstack
            cases h
            have hon : ∀ j ∈ i :: stack, StartsBlock table j := hstack ▸ hm.stack
            exact ⟨placed_completePop hf (fun j hj => hon j (List.mem_cons_of_mem i hj)) hm,
              hwith _ trivial⟩
      | popEntering =>
          cases h
          exact ⟨hm.congr rfl rfl rfl, hrest⟩
      | acting calls =>
          cases calls with
          | nil =>
              cases h
              exact ⟨hm, hrest⟩
          | cons c calls => exact perform_sound hm (hwith (.acting calls) trivial) h

/-- After a poll: only a transition to another state may leave the flag behind. -/
theorem polled_known_iff {w : W} {i : ℕ} {again p : TimeInterval}
    {x : BasicFsm D × List (Frame D)} (hm : InputKnown table m)
    (h : m.goOn table w (.polled i again p :: frames) = some x) :
    InputKnown table x.1 ↔ InputKept table ⟨m, .polled i again p :: frames⟩ (.go w) := by
  obtain ⟨e, he, rfl⟩ := Option.map_eq_some_iff.1 h
  simp only [InputKept, he, Option.some.injEq, forall_eq']
  cases hp : p.hasPassed with
  | false =>
      rw [if_neg Bool.false_ne_true]
      refine iff_of_true ?_ fun hpassed => absurd hpassed Bool.false_ne_true
      split
      · exact (sameIndices_setFlag (by decide) true m).inputKnown_iff.2 hm
      · exact hm
  | true =>
      rw [if_pos rfl]
      by_cases ht : e.target = 0
      · rw [if_pos ht]
        exact iff_of_true (inputKnown_takeTransition he m) fun _ hne => absurd ht hne
      · rw [if_neg ht]
        by_cases hs : m.state = 0
        · rw [if_pos hs]
          exact iff_of_true (inputKnown_takeTransition he m)
            fun _ _ hne => absurd hs hne
        · rw [if_neg hs, inputKnown_beginTransition_iff he]
          exact ⟨fun hin _ _ _ => hin, fun hin => hin rfl ht hs⟩

/-- The flag for an input symbol after one step of a function of the machine. -/
theorem goOn_known_iff {w : W} {x : BasicFsm D × List (Frame D)} (hm : InputKnown table m)
    (h : m.goOn table w frames = some x) :
    InputKnown table x.1 ↔ InputKept table ⟨m, frames⟩ (.go w) := by
  cases frames with
  | nil => cases h
  | cons f frames =>
      cases f with
      | polling i again =>
          obtain ⟨e, -, rfl⟩ := Option.map_eq_some_iff.1 h
          have hsame := (sameButEntry_enabled w e.trigger m).samePlace.sameIndices
          exact iff_of_true (hsame.inputKnown_iff.2 hm) trivial
      | polled i again p => exact polled_known_iff hm h
      | leaving i target =>
          obtain ⟨e, he, rfl⟩ := Option.map_eq_some_iff.1 h
          simp only [InputKept, he, Option.some.injEq, forall_eq']
          exact inputKnown_completeTransition_iff target _ m
      | entering moved =>
          cases h
          refine iff_of_true ?_ trivial
          dsimp only
          split
          · exact (sameIndices_setFlag (by decide) true m).inputKnown_iff.2 hm
          · exact hm
      | popLeaving target =>
          rw [goOn] at h
          split at h
          · cases h
          · cases h
            exact iff_of_true (inputKnown_completePop target _ m) trivial
      | popEntering =>
          cases h
          exact iff_of_true ((sameIndices_setFlag (by decide) true m).inputKnown_iff.2 hm) trivial
      | acting calls =>
          refine iff_of_true ?_ trivial
          cases calls with
          | nil =>
              cases h
              exact hm
          | cons c calls => exact perform_known hm h

end BasicFsm

/-- The functions that have not returned, where `leave` does nothing and `enter` is that of the
base class. -/
def framesOf : StepCode D → List (Frame D)
  | .polling i again => [.polling i again]
  | .polled i again p => [.polled i again p]
  | .entering moved => [.entering moved]
  | .acting moved calls => [.acting calls, .entering moved]
  | .returned _ => []

namespace Nested

variable {table : CompiledTable W D} {r r' : Nested D}

/-- A function of the machine goes on. -/
theorem run_go {m m' : BasicFsm D} {frames frames' : List (Frame D)} {w : W}
    (h : m.goOn table w frames = some (m', frames')) (as : List (Act W D)) :
    Transition.run (step table) ⟨m, frames⟩ (.go w :: as) =
      Transition.run (step table) ⟨m', frames'⟩ as := by
  rw [Transition.run_cons, step, h]
  rfl

theorem goOn_polled {i : ℕ} {e : CompiledTransition (Guard W D) (Action W D)}
    (he : table[i]? = some e) (m : BasicFsm D) (frames : List (Frame D)) (w : W)
    (again p : TimeInterval) :
    m.goOn table w (.polled i again p :: frames) = some (
      if p.hasPassed then
        if e.target = 0 then (m.takeTransition i e, .entering false :: frames)
        else if m.state = 0 then (m.takeTransition i e, .entering true :: frames)
        else ((m.beginTransition i e.target).leave, .leaving i e.target :: frames)
      else if endsAt table (i + 1) then (m.setFlag .blocked true, frames)
      else (m, .polling (i + 1) (shortest p again) :: frames)) := by
  rw [goOn, he, Option.map_some]

/-- A call when the user's code does nothing in `leave` and `enter`. -/
theorem exists_run_perform {m m' : BasicFsm D} (frames : List (Frame D)) (w : W) {c : Call D}
    (h : c.run table m = some m') :
    ∃ x, m.perform table frames c = some x ∧
      ∃ as, Transition.run (step table) ⟨x.1, x.2⟩ as = some ⟨m', frames⟩ := by
  rcases eq_or_ne c .pop with rfl | hc
  · obtain ⟨target, stack, hstack, htarget, rfl⟩ := pop_eq_some_iff.1 h
    rw [popTo_eq, perform, hstack]
    dsimp only
    rw [if_neg htarget]
    cases hflag : (m.beginPop target).flag .transition with
    | true =>
        refine ⟨_, if_pos rfl, [.go w], ?_⟩
        rw [run_go rfl]
        rfl
    | false =>
        refine ⟨_, if_neg Bool.false_ne_true, [.go w, .go w], ?_⟩
        have hpop : (((m.beginPop target).setFlag .transition true).leave).goOn table w
            (.popLeaving target :: frames) = some
              ((((m.beginPop target).setFlag .transition true).leave).completePop target stack,
                .popEntering :: frames) := by
          have hleft : (((m.beginPop target).setFlag .transition true).leave).stack =
              target :: stack := hstack
          rw [goOn, hleft]
        rw [run_go hpop, run_go rfl]
        rfl
  · exact ⟨_, by rw [perform_of_ne hc, h, Option.map_some], [], rfl⟩

/-- What follows a poll: the transition is taken, or the loop goes on or ends. -/
theorem exists_run_polled {m m' : BasicFsm D} {i : ℕ} {again p : TimeInterval}
    {code : StepCode D} {w : W} (h : advance table (m, .polled i again p) w = some (m', code)) :
    ∃ as, Transition.run (step table) ⟨m, framesOf (.polled i again p)⟩ as =
      some ⟨m', framesOf code⟩ := by
  obtain ⟨e, he, heq⟩ := Option.map_eq_some_iff.1 h
  have hgo := goOn_polled he m [] w again p
  rw [framesOf]
  split at heq
  · rename_i hp
    cases heq
    rw [if_pos hp] at hgo
    by_cases ht : e.target = 0
    · rw [if_pos ht] at hgo
      refine ⟨[.go w], ?_⟩
      rw [run_go hgo, framesOf, ht]
      rfl
    · have hmoved : (e.target != 0) = true := bne_iff_ne.2 ht
      rw [if_neg ht] at hgo
      rw [framesOf, hmoved]
      by_cases hs : m.state = 0
      · rw [if_pos hs] at hgo
        refine ⟨[.go w], ?_⟩
        rw [run_go hgo]
        rfl
      · rw [if_neg hs] at hgo
        refine ⟨[.go w, .go w], ?_⟩
        rw [run_go hgo, run_go (by rw [goOn, he, Option.map_some]), takeTransition_eq ht,
          if_neg hs]
        rfl
  · rename_i hp
    rw [if_neg hp] at hgo
    refine ⟨[.go w], ?_⟩
    split at heq
    · rename_i hend
      cases heq
      rw [if_pos hend] at hgo
      rw [run_go hgo]
      rfl
    · rename_i hend
      cases heq
      rw [if_neg hend] at hgo
      rw [run_go hgo]
      rfl

/-- The pieces of a step, when the user's code does nothing in `leave` and `enter`. -/
theorem exists_run_advance {m m' : BasicFsm D} {code code' : StepCode D} {w : W}
    (h : advance table (m, code) w = some (m', code')) :
    ∃ as, Transition.run (step table) ⟨m, framesOf code⟩ as = some ⟨m', framesOf code'⟩ := by
  cases code with
  | polling i again =>
      obtain ⟨e, he, heq⟩ := Option.map_eq_some_iff.1 h
      cases heq
      refine ⟨[.go w], ?_⟩
      rw [framesOf, run_go (by rw [goOn, he, Option.map_some])]
      rfl
  | polled i again p => exact exists_run_polled h
  | entering moved =>
      have hbase : ∃ calls, code' = .acting moved calls ∧
          m.enterBase table w [.entering moved] = some (m', [.acting calls, .entering moved]) := by
        rw [advance] at h
        rw [enterBase]
        split at h
        · rename_i hzero
          cases h
          exact ⟨[], rfl, if_pos hzero⟩
        · rename_i hne
          obtain ⟨e, he, heq⟩ := Option.map_eq_some_iff.1 h
          cases heq
          exact ⟨_, rfl, by rw [if_neg hne, he, Option.map_some]⟩
      obtain ⟨calls, rfl, hbase⟩ := hbase
      refine ⟨[.base w], ?_⟩
      rw [framesOf, Transition.run_cons, step, inEnter, if_pos rfl, hbase]
      rfl
  | acting moved calls =>
      cases calls with
      | nil =>
          cases h
          refine ⟨[.go w, .go w], ?_⟩
          rw [framesOf, run_go rfl, run_go rfl]
          rfl
      | cons c calls =>
          obtain ⟨m₁, hm₁, heq⟩ := Option.map_eq_some_iff.1 h
          cases heq
          obtain ⟨x, hx, as, has⟩ := exists_run_perform (.acting calls :: [.entering moved]) w hm₁
          refine ⟨.go w :: as, ?_⟩
          have hgo : m.goOn table w (.acting (c :: calls) :: [.entering moved]) = some (x.1, x.2) :=
            hx
          rw [framesOf, run_go hgo]
          exact has
  | returned p => cases h

/-- Whatever is done to a machine is a run here, in which the user's code does nothing in
`leave` and `enter`. -/
theorem exists_run_op {op : Op W D} {m m' : BasicFsm D} (w : W) (h : op.run table m = some m') :
    ∃ as, Transition.run (step table) ⟨m, []⟩ as = some ⟨m', []⟩ := by
  cases op with
  | step env =>
      obtain ⟨⟨p, m₁⟩, hm₁, rfl⟩ := Option.map_eq_some_iff.1 h
      obtain ⟨ws, hws⟩ := exists_pieces hm₁
      obtain ⟨as, has⟩ := Transition.exists_run_of_steps
        (f := fun x : BasicFsm D × StepCode D => (⟨x.1, framesOf x.2⟩ : Nested D))
        (fun _ _ _ hpiece => exists_run_advance hpiece) hws
      refine ⟨.step :: as, ?_⟩
      rw [Transition.run_cons, step, userRuns, if_pos rfl]
      exact has
  | call c =>
      obtain ⟨x, hx, as, has⟩ := exists_run_perform [] w h
      refine ⟨.call c :: as, ?_⟩
      rw [Transition.run_cons, step, userRuns, if_pos rfl, hx]
      exact has

/-- What a step may do. -/
theorem step_cases {a : Act W D} (h : r.step table a = some r') :
    (∃ c, a = .call c ∧ r.fsm.perform table r.frames c = some (r'.fsm, r'.frames)) ∨
    (a = .step ∧ r' = ⟨r.fsm, .polling r.fsm.state (guardPollInterval false) :: r.frames⟩) ∨
    (∃ w, a = .base w ∧ r.fsm.enterBase table w r.frames = some (r'.fsm, r'.frames)) ∨
    (∃ w, a = .go w ∧ r.fsm.goOn table w r.frames = some (r'.fsm, r'.frames)) := by
  cases a with
  | call c =>
      rw [step] at h
      split at h
      · obtain ⟨x, hx, rfl⟩ := Option.map_eq_some_iff.1 h
        exact Or.inl ⟨c, rfl, hx⟩
      · cases h
  | step =>
      rw [step] at h
      split at h
      · exact Or.inr (Or.inl ⟨rfl, (Option.some.inj h).symm⟩)
      · cases h
  | base w =>
      rw [step] at h
      split at h
      · obtain ⟨x, hx, rfl⟩ := Option.map_eq_some_iff.1 h
        exact Or.inr (Or.inr (Or.inl ⟨w, rfl, hx⟩))
      · cases h
  | go w =>
      obtain ⟨x, hx, rfl⟩ := Option.map_eq_some_iff.1 h
      exact Or.inr (Or.inr (Or.inr ⟨w, rfl, hx⟩))

/-- Whatever the user's code does in between, all indices are those of states. -/
theorem Sound.step {l : List (Transition (Guard W D) (Action W D))}
    (hl : compile (builtin W D) l = .ok table) {a : Act W D} (hr : r.Sound table)
    (h : r.step table a = some r') : r'.Sound table := by
  rcases step_cases h with ⟨c, rfl, hperform⟩ | ⟨rfl, rfl⟩ | ⟨w, rfl, hbase⟩ | ⟨w, rfl, hgo⟩
  · obtain ⟨hplaced, hframes⟩ := perform_sound hr.placed hr.frames hperform
    exact ⟨hplaced, hframes⟩
  · exact ⟨hr.placed, List.forall_mem_cons.2 ⟨trivial, hr.frames⟩⟩
  · obtain ⟨hsame, calls, hcalls⟩ := enterBase_spec hbase
    refine ⟨hsame.placed hr.placed, ?_⟩
    dsimp only at hcalls
    rw [hcalls]
    exact List.forall_mem_cons.2 ⟨trivial, hr.frames⟩
  · obtain ⟨hplaced, hframes⟩ := goOn_sound hl hr.placed hr.frames hgo
    exact ⟨hplaced, hframes⟩

theorem inputKnown_step_iff {a : Act W D} (hr : InputKnown table r.fsm)
    (h : r.step table a = some r') : InputKnown table r'.fsm ↔ InputKept table r a := by
  rcases step_cases h with ⟨c, rfl, hperform⟩ | ⟨rfl, rfl⟩ | ⟨w, rfl, hbase⟩ | ⟨w, rfl, hgo⟩
  · exact iff_of_true (perform_known hr hperform) trivial
  · exact iff_of_true hr trivial
  · exact iff_of_true ((enterBase_spec hbase).1.inputKnown_iff.2 hr) trivial
  · exact goOn_known_iff hr hgo

theorem sound_init (table : CompiledTable W D) (d : D) : (init d).Sound table :=
  ⟨⟨Or.inl rfl, Or.inl rfl, fun _ hi => absurd hi List.not_mem_nil⟩,
    fun _ hf => absurd hf List.not_mem_nil⟩

/-- Wherever the user's code looks at the machine, it is consistent, exactly when no state
that was entered on an input symbol is left by a transition without one, and `leave` does
not make the machine forget the transition. -/
theorem consistent_always_iff {l : List (Transition (Guard W D) (Action W D))}
    (hl : compile (builtin W D) l = .ok table) (d : D) {u : Nested D} {as : List (Act W D)}
    (hr : Transition.run (step table) (init d) as = some u) :
    Transition.Always (step table) (fun r => Consistent table r.fsm) (init d) as ↔
      Transition.Guarded (step table) (InputKept table) (init d) as := by
  have hinit : Consistent table (init d : Nested D).fsm :=
    (consistent_iff (sound_init table d).placed).2 fun hflag => by cases hflag
  refine Transition.always_iff_guarded_of_run (I := Nested.Sound table)
    (fun _ _ _ hs h => hs.step hl h) ?_ (sound_init table d) hinit hr
  intro s a t hs hconsistent h
  rw [consistent_iff (hs.step hl h).placed]
  exact inputKnown_step_iff hconsistent.known h

/-- To state `a`, and to state `b` on input `x`, which is consumed. -/
def takesInput : List (Act Unit Unit) :=
  [.call (.input letterX), .step, .go (), .go (), .go (), .step, .go (), .go (), .go (),
    .base (), .go (), .go (), .go ()]

theorem consistent_always_iff_takesInput :
    ∃ table, compile (builtin Unit Unit) consumesOne = .ok table ∧
      (Transition.run (step table) (init ()) takesInput).isSome ∧
      (Transition.Always (step table) (fun r => Consistent table r.fsm) (init ()) takesInput ↔
        Transition.Guarded (step table) (InputKept table) (init ()) takesInput) :=
  ⟨_, rfl, rfl, consistent_always_iff (l := consumesOne) rfl () rfl⟩

/-- State `b` is entered on input `x`, and left at once. -/
def passesThrough : List (Transition (Guard Unit Unit) (Action Unit Unit)) :=
  [⟨letterA, (builtin Unit Unit).never, letterX, (builtin Unit Unit).nothing, letterB⟩,
    ⟨letterB, (builtin Unit Unit).always, none, (builtin Unit Unit).nothing, letterA⟩]

/-- To state `a`, to state `b` on input `x`, and up to `leave` of state `b`. -/
def leavesAgain : List (Act Unit Unit) :=
  [.call (.input letterX), .step, .go (), .go (), .go (), .step, .go (), .go (), .go (), .go (),
    .step, .go (), .go ()]

/-- In `leave` of state `b` the assertion of `input` fails. -/
theorem not_consistent_passesThrough :
    ∃ table r, compile (builtin Unit Unit) passesThrough = .ok table ∧
      Transition.run (step table) (init ()) leavesAgain = some r ∧
      r.frames = [.leaving 2 1] ∧ r.fsm.triggeredBy table = none ∧
      ¬ Transition.Always (step table) (fun r => Consistent table r.fsm) (init ())
        leavesAgain := by
  refine ⟨_, _, rfl, rfl, rfl, rfl, fun h => ?_⟩
  have hlast := Transition.Always.last h rfl
  exact hlast.asserted rfl

end Nested

end Fsm

end Zth
