import Zth.Sync.Signal

/-!
# Waiting for a signal with a timeout

A wait with a timeout tells whether it got a signal. This module follows such
waits through every interleaving: which deadline they have, whether a clock
reading was past it, and whether a signal unblocked them. What a wait returns can
then be compared with what happened to it.

There are two ways in which a wait tells that it was signalled, when it was not: a
timeout that is over at the call counts as a signal, and a wait that found the
signal set does not look again after its `yield`.
-/

namespace Zth

namespace Signal

open Monitor

/-- What a wait with a timeout returns at the end of a piece of code, unless it goes on. -/
def result (c : Code) (d : Data) : Option Bool :=
  match c with
  | .enter (.waitUntil passed) => if d.signalled = 0 ∧ passed then some true else none
  | .enter _ => none
  | .waited | .waitedUntil => some true
  | .timedOut => some false

/-- The calls on a signal, with their times. -/
inductive TimedCall where
  | wait
  | waitUntil (timeout now : ℤ)
  | waitFor (timeout now : ℤ)
  | signal (queue queueEveryTime : Bool)
  | signalAll (queue : Bool)
  | reset
deriving DecidableEq, Repr

/-- The deadline of a call and the clock reading it gets. An interval is from that reading
on. -/
def TimedCall.deadline : TimedCall → Option (ℤ × ℤ)
  | .waitUntil timeout now => some (timeout, now)
  | .waitFor timeout now => some (now + timeout, now)
  | .wait | .signal _ _ | .signalAll _ | .reset => none

/-- The call, where only matters whether the deadline has passed. -/
def TimedCall.call : TimedCall → Call
  | .wait => .wait
  | .waitUntil timeout now => .waitUntil (timeout ≤ now)
  | .waitFor timeout now => .waitUntil (now + timeout ≤ now)
  | .signal queue queueEveryTime => .signal queue queueEveryTime
  | .signalAll queue => .signalAll queue
  | .reset => .reset

/-- What may happen next. The alarm of a wait rings at a time after its deadline. -/
inductive TimedLabel (F : Type*) where
  | call (f : F) (c : TimedCall)
  | resume (f : F)
  | expire (f : F) (now : ℤ)

/-- What a wait with a timeout met so far: a clock reading at or after its deadline, and a
signal that unblocked it. -/
structure Wait where
  deadline : ℤ
  late : Bool
  unblocked : Bool
deriving DecidableEq, Repr

/-- How a wait with a timeout ended: what it returned, whether it got a signal, whether its
deadline had passed, and whether the number of signals changed at its end. -/
structure Return where
  result : Bool
  got : Bool
  late : Bool
  consumed : Bool
deriving DecidableEq, Repr

/-- A signal, with the waits that have a timeout and those that ended. -/
structure Timed (F : Type*) where
  base : State F Unit Code Data
  wait : F → Option Wait
  returns : List Return

variable {F : Type*} [DecidableEq F]

namespace Timed

def new : Timed F where
  base := State.idle Data.init
  wait _ := none
  returns := []

/-- The waits after a call: those of the fibers that left the queue are unblocked. -/
def mark (s t : State F Unit Code Data) (wait : F → Option Wait) (g : F) : Option Wait :=
  (wait g).map fun w =>
    if g ∈ s.queue () ∧ g ∉ t.queue () then { w with unblocked := true } else w

/-- The fiber got a signal: one that unblocked it, or one that is still set when it takes it. -/
def got (c : Code) (d : Data) (w : Wait) : Bool :=
  w.unblocked || (decide (c = .waited) && decide (d.signalled ≠ 0))

/-- A fiber with a timeout ran the code `c`, from a signal with the data `d`. -/
def conclude (f : F) (c : Code) (d : Data) (w : Wait) (s : Timed F) : Timed F :=
  match result c d with
  | none => { s with wait := Function.update s.wait f (some w) }
  | some r =>
      { s with
        wait := Function.update s.wait f none
        returns := s.returns ++
          [⟨r, got c d w, w.late, decide (s.base.data.signalled ≠ d.signalled)⟩] }

/-- One step. -/
def step (s : Timed F) : TimedLabel F → Option (Timed F)
  | .call f c =>
      (Signal.step s.base (.call f c.call)).map fun t =>
        let u : Timed F := { s with base := t, wait := mark s.base t s.wait }
        match c.deadline with
        | none => u
        | some (deadline, now) =>
            conclude f (.enter c.call) s.base.data ⟨deadline, deadline ≤ now, false⟩ u
  | .resume f =>
      (Signal.step s.base (.resume f)).map fun t =>
        match s.base.code f, s.wait f with
        | some c, some w => conclude f c s.base.data w { s with base := t }
        | _, _ => { s with base := t }
  | .expire f now =>
      match s.wait f with
      | none => none
      | some w =>
          if w.deadline < now then
            (Signal.step s.base (.expire () f)).map fun t =>
              { s with
                base := t
                wait := Function.update s.wait f (some { w with late := w.deadline ≤ now }) }
          else none

end Timed

/-- The wait returned `true` if and only if it got a signal, and `false` if and only if its
deadline passed and it got none; then it took none either. -/
structure Return.Honest (r : Return) : Prop where
  signalled : r.result = true ↔ r.got = true
  timedOut : r.result = false ↔ r.late = true ∧ r.got = false
  spared : r.result = false → r.consumed = false

def Timed.Honest (s : Timed F) : Prop := ∀ r ∈ s.returns, r.Honest

/-- A wait with a timeout is called while the signal is set or its deadline is still to come;
and one that found the signal set finds it so after its `yield`. -/
def Timed.Clear (s : Timed F) : TimedLabel F → Prop
  | .call _ c => ∀ deadline now, c.deadline = some (deadline, now) →
      s.base.data.signalled ≠ 0 ∨ now < deadline
  | .resume f => s.base.code f = some .waited → s.wait f ≠ none → s.base.data.signalled ≠ 0
  | .expire _ _ => True

/-- What is known of a wait from the code that its fiber goes on with. -/
def Wait.Fits (woken : Prop) (wait : Option Wait) : Option Code → Prop
  | none => wait = none
  | some .waited => ∀ w, wait = some w → woken ∧ w.unblocked = false
  | some .waitedUntil => ∃ w, wait = some w ∧ (w.unblocked = true ↔ woken)
  | some .timedOut => woken ∧ ∃ w, wait = some w ∧ w.unblocked = false ∧ w.late = true
  | some (.enter _) => False

structure Timed.Kept (s : Timed F) : Prop where
  wellFormed : s.base.WellFormed
  fits : ∀ f, Wait.Fits (f ∈ s.base.woken) (s.wait f) (s.base.code f)

/-- What a piece of code of another fiber does to a fiber: nothing, or it takes it out of the
queue. -/
structure Beside (s t : State F Unit Code Data) (g : F) : Prop where
  code : t.code g = s.code g
  queue : g ∈ t.queue () → g ∈ s.queue ()
  woken : g ∈ t.woken ↔ g ∈ s.woken ∨ g ∈ s.queue () ∧ g ∉ t.queue ()

omit [DecidableEq F] in
theorem Beside.refl (s : State F Unit Code Data) (g : F) : Beside s s g where
  code := rfl
  queue := id
  woken := by tauto

omit [DecidableEq F] in
theorem Beside.setData {s t : State F Unit Code Data} {g : F} (h : Beside s t g) (d : Data) :
    Beside s (t.setData d) g :=
  ⟨h.code, h.queue, h.woken⟩

theorem beside_block (s : State F Unit Code Data) {f g : F} (hg : g ≠ f) (c : Code) :
    Beside s (State.finish f (s, .block () c)) g where
  code := Function.update_of_ne hg _ _
  queue hq := by simpa [State.finish, hg] using hq
  woken := by
    simp only [State.finish, Function.update_self, List.mem_append, List.mem_singleton, hg,
      or_false]
    tauto

theorem beside_yield (s : State F Unit Code Data) {f g : F} (hg : g ≠ f) (c : Code) :
    Beside s (s.yield f c) g where
  code := Function.update_of_ne hg _ _
  queue := id
  woken := by
    simp only [State.yield_woken, List.mem_append, List.mem_singleton, hg, or_false,
      State.yield_queue]
    tauto

theorem beside_wake {s : State F Unit Code Data} (hs : s.WellFormed) {h g : F}
    (hh : h ∈ s.queue ()) : Beside s (s.wake () h) g where
  code := rfl
  queue hq := List.mem_of_mem_erase (by simpa using hq)
  woken := by
    simp only [State.wake_woken, State.wake_queue, Function.update_self, List.mem_append,
      List.mem_singleton, (hs.queue_nodup ()).mem_erase_iff]
    by_cases hgh : g = h
    · subst hgh
      simp [hh]
    · simp [hgh]

omit [DecidableEq F] in
theorem beside_wakeAll (s : State F Unit Code Data) (g : F) : Beside s (s.wakeAll ()).1 g where
  code := rfl
  queue hq := by simp [State.wakeAll] at hq
  woken := by simp [State.wakeAll]

/-- A piece of code, seen from another fiber. -/
theorem beside_exec {s : State F Unit Code Data} (hs : s.WellFormed) {f g : F} (hg : g ≠ f)
    (c : Code) : Beside s (State.finish f (exec f c s)) g := by
  cases c with
  | waited => exact (Beside.refl s g).setData _
  | waitedUntil => exact (Beside.refl s g).setData _
  | timedOut => exact Beside.refl s g
  | enter c =>
      cases c with
      | wait =>
          rw [exec]
          split
          · exact beside_block s hg .waited
          · exact beside_yield s hg .waited
      | waitUntil passed =>
          rw [exec]
          split
          · split
            · exact (Beside.refl s g).setData _
            · exact beside_block s hg .waitedUntil
          · exact beside_yield s hg .waited
      | signal queue every =>
          obtain ⟨-, heq⟩ | ⟨h, hs', hq, heq⟩ := exec_signal f queue every s
          · rw [heq]
            exact (Beside.refl s g).setData _
          · rw [heq]
            exact (beside_wake hs (by simp [hq])).setData _
      | signalAll queue =>
          cases queue with
          | true => exact (beside_wakeAll s g).setData _
          | false => exact beside_wakeAll s g
      | reset => exact (Beside.refl s g).setData _

theorem wellFormed_exec {s : State F Unit Code Data} (hs : s.WellFormed) {f : F}
    (hf : s.code f = none) (c : Code) : (State.finish f (exec f c s)).WellFormed := by
  cases c with
  | waited => exact hs.setData _
  | waitedUntil => exact hs.setData _
  | timedOut => exact hs
  | enter c =>
      cases c with
      | wait =>
          rw [exec]
          split
          · exact hs.finish hf _
          · exact hs.yield hf _
      | waitUntil passed =>
          rw [exec]
          split
          · split
            · exact hs.setData _
            · exact hs.finish hf _
          · exact hs.yield hf _
      | signal queue every =>
          obtain ⟨-, heq⟩ | ⟨g, gs, hq, heq⟩ := exec_signal f queue every s
          · rw [heq]
            exact hs.setData _
          · rw [heq]
            exact (hs.wake (by simp [hq])).setData _
      | signalAll queue =>
          cases queue with
          | true => exact (hs.wakeAll ()).setData _
          | false => exact hs.wakeAll ()
      | reset => exact hs.setData _

/-- What is known of the wait of another fiber stays so. -/
theorem Wait.Fits.mark {s t : State F Unit Code Data} (hs : s.WellFormed) {g : F}
    (h : Beside s t g) {wait : F → Option Wait}
    (hfits : Wait.Fits (g ∈ s.woken) (wait g) (s.code g)) :
    Wait.Fits (g ∈ t.woken) (Timed.mark s t wait g) (t.code g) := by
  rw [h.code]
  have hqueue : g ∈ s.woken → g ∉ s.queue () := fun hw hq => hs.queue_not_woken () g hq hw
  cases hc : s.code g with
  | none =>
      rw [hc] at hfits
      rw [Timed.mark, hfits]
      rfl
  | some c =>
      rw [hc] at hfits
      cases c with
      | enter c => exact hfits
      | waited =>
          intro w hw
          obtain ⟨v, hv, rfl⟩ := Option.map_eq_some_iff.1 hw
          obtain ⟨hwoken, hun⟩ := hfits v hv
          rw [if_neg fun hq => hqueue hwoken hq.1]
          exact ⟨h.woken.2 (.inl hwoken), hun⟩
      | timedOut =>
          obtain ⟨hwoken, w, hw, hun, hlate⟩ := hfits
          refine ⟨h.woken.2 (.inl hwoken), w, ?_, hun, hlate⟩
          rw [Timed.mark, hw, Option.map_some, if_neg fun hq => hqueue hwoken hq.1]
      | waitedUntil =>
          obtain ⟨w, hw, hun⟩ := hfits
          rw [Timed.mark, hw, Option.map_some]
          refine ⟨_, rfl, ?_⟩
          split
          · rename_i hleft
            exact iff_of_true rfl (h.woken.2 (.inr hleft))
          · rename_i hleft
            rw [hun, h.woken]
            exact ⟨.inl, fun hor => hor.resolve_right hleft⟩

/-- A call that has a deadline only tells whether it has passed. -/
theorem TimedCall.deadline_cases (c : TimedCall) :
    (c.deadline = none ∧ ∀ passed, c.call ≠ .waitUntil passed) ∨
      ∃ deadline now, c.deadline = some (deadline, now) ∧
        c.call = .waitUntil (deadline ≤ now) := by
  cases c with
  | waitUntil timeout now => exact .inr ⟨timeout, now, rfl, rfl⟩
  | waitFor timeout now => exact .inr ⟨now + timeout, now, rfl, rfl⟩
  | wait | signal | signalAll | reset => exact .inl ⟨rfl, by simp [call]⟩

/-- A call without a deadline is over, or has only its last line left. -/
theorem code_exec_untimed {s : State F Unit Code Data} {f : F} (hf : s.code f = none)
    {c : Call} (hc : ∀ passed, c ≠ .waitUntil passed) :
    (State.finish f (exec f (.enter c) s)).code f = none ∨
      (State.finish f (exec f (.enter c) s)).code f = some .waited := by
  cases c with
  | wait =>
      right
      rw [exec]
      split
      · exact Function.update_self ..
      · exact Function.update_self ..
  | waitUntil passed => exact absurd rfl (hc passed)
  | signal queue every =>
      left
      obtain ⟨-, heq⟩ | ⟨h, hs, -, heq⟩ := exec_signal f queue every s
      · rw [heq]
        exact hf
      · rw [heq]
        exact hf
  | signalAll queue =>
      left
      cases queue <;> exact hf
  | reset => exact .inl hf

namespace Timed

/-- What a step comes to: it was clear and its waits told the truth, or it was not and one
did not. -/
def Tells (ok : Prop) (s t : Timed F) : Prop :=
  ok ∧ (∀ r ∈ t.returns, r ∈ s.returns ∨ r.Honest) ∨ ¬ ok ∧ ∃ r ∈ t.returns, ¬ r.Honest

omit [DecidableEq F] in
theorem Tells.of_returns_eq {ok : Prop} {s t : Timed F} (hok : ok) (h : t.returns = s.returns) :
    Tells ok s t :=
  .inl ⟨hok, fun _ hr => .inl (h ▸ hr)⟩

omit [DecidableEq F] in
/-- A wait that ended. -/
theorem Tells.of_returns_append {ok : Prop} {s t : Timed F} {r : Return}
    (h : t.returns = s.returns ++ [r]) (hr : r.Honest ↔ ok) : Tells ok s t := by
  by_cases hok : ok
  · refine .inl ⟨hok, fun r' hr' => ?_⟩
    rw [h, List.mem_append, List.mem_singleton] at hr'
    obtain hr' | rfl := hr'
    · exact .inl hr'
    · exact .inr (hr.2 hok)
  · refine .inr ⟨hok, r, ?_, fun hh => hok (hr.1 hh)⟩
    rw [h]
    exact List.mem_append_right _ (List.mem_singleton_self r)

variable {s t : Timed F} {f : F}

omit [DecidableEq F] in
theorem Kept.wait_eq_none (h : s.Kept) (hf : s.base.code f = none) : s.wait f = none := by
  have := h.fits f
  rwa [hf] at this

/-- The other fibers, after a call. -/
theorem Kept.others (h : s.Kept) (c : Code) {g : F} (hg : g ≠ f) :
    Wait.Fits (g ∈ (State.finish f (exec f c s.base)).woken)
      (mark s.base (State.finish f (exec f c s.base)) s.wait g)
      ((State.finish f (exec f c s.base)).code g) :=
  (h.fits g).mark h.wellFormed (beside_exec h.wellFormed hg c)

/-- What is left to show after a call: the fiber that called. -/
theorem Kept.of_caller (h : s.Kept) (hf : s.base.code f = none) (c : Code)
    {wait : Option Wait}
    (hfits : Wait.Fits (f ∈ (State.finish f (exec f c s.base)).woken) wait
      ((State.finish f (exec f c s.base)).code f)) (returns : List Return) :
    Kept { base := State.finish f (exec f c s.base)
           wait := Function.update (mark s.base (State.finish f (exec f c s.base)) s.wait) f wait
           returns := returns } := by
  refine ⟨wellFormed_exec h.wellFormed hf c, fun g => ?_⟩
  by_cases hg : g = f
  · subst hg
    simpa using hfits
  · simpa [hg] using h.others c hg

/-- A call without a timeout. -/
theorem Kept.untimed (h : s.Kept) (hf : s.base.code f = none) {c : Call}
    (hc : ∀ passed, c ≠ .waitUntil passed) :
    Kept { s with
           base := State.finish f (exec f (.enter c) s.base)
           wait := mark s.base (State.finish f (exec f (.enter c) s.base)) s.wait } := by
  have hfits : Wait.Fits (f ∈ (State.finish f (exec f (.enter c) s.base)).woken) none
      ((State.finish f (exec f (.enter c) s.base)).code f) := by
    obtain hcode | hcode := code_exec_untimed hf hc
    · rw [hcode]
      rfl
    · rw [hcode]
      exact fun w hw => absurd hw (by simp)
  have hmark : mark s.base (State.finish f (exec f (.enter c) s.base)) s.wait f = none := by
    rw [mark, h.wait_eq_none hf]
    rfl
  have hkept := h.of_caller hf (.enter c) hfits s.returns
  rwa [Function.update_eq_self_iff.2 hmark.symm] at hkept

/-- A call with a timeout: it finds the signal set, it blocks, or it is over at once. -/
theorem Kept.timed (h : s.Kept) (hf : s.base.code f = none) (deadline now : ℤ) :
    let base := State.finish f (exec f (.enter (.waitUntil (deadline ≤ now))) s.base)
    let t := conclude f (.enter (.waitUntil (deadline ≤ now))) s.base.data
      ⟨deadline, deadline ≤ now, false⟩ { s with base := base, wait := mark s.base base s.wait }
    t.Kept ∧ Tells (s.base.data.signalled ≠ 0 ∨ now < deadline) s t := by
  intro base t
  by_cases hset : s.base.data.signalled = 0
  · by_cases hpassed : deadline ≤ now
    · -- the deadline has passed, and the call tells that it was signalled
      have hresult : result (.enter (.waitUntil (deadline ≤ now))) s.base.data = some true :=
        if_pos ⟨hset, decide_eq_true hpassed⟩
      have ht : t = { base := base
                      wait := Function.update (mark s.base base s.wait) f none
                      returns := s.returns ++ [⟨true, false, decide (deadline ≤ now),
                        decide (base.data.signalled ≠ s.base.data.signalled)⟩] } := by
        simp only [t, conclude, hresult]
        rfl
      have hcode : base.code f = none := by
        simp only [base, exec, hset, hpassed, decide_true, if_true]
        exact hf
      rw [ht]
      refine ⟨h.of_caller hf _ ?_ _, .of_returns_append rfl ?_⟩
      · rw [hcode]
        rfl
      · refine iff_of_false (fun hr => ?_) ?_
        · exact Bool.false_ne_true (hr.signalled.1 rfl)
        · rintro (hne | hlt)
          · exact hne hset
          · exact hpassed.not_gt hlt
    · have hresult : result (.enter (.waitUntil (deadline ≤ now))) s.base.data = none :=
        if_neg fun hp => hpassed (of_decide_eq_true hp.2)
      have ht : t = { base := base
                      wait := Function.update (mark s.base base s.wait) f
                        (some ⟨deadline, decide (deadline ≤ now), false⟩)
                      returns := s.returns } := by
        simp only [t, conclude, hresult]
      have hexec : exec f (.enter (.waitUntil (deadline ≤ now))) s.base =
          (s.base, .block () .waitedUntil) := by
        simp only [exec, hset, hpassed, decide_false, Bool.false_eq_true, if_true, if_false]
      have hcode : base.code f = some .waitedUntil := by
        simp only [base, hexec]
        exact Function.update_self ..
      rw [ht]
      refine ⟨h.of_caller hf _ ?_ _, .of_returns_eq (.inr (not_le.1 hpassed)) rfl⟩
      rw [hcode]
      refine ⟨_, rfl, iff_of_false Bool.false_ne_true ?_⟩
      simp only [hexec]
      exact (h.wellFormed.not_mem hf).1
  · have hresult : result (.enter (.waitUntil (deadline ≤ now))) s.base.data = none :=
      if_neg fun hp => hset hp.1
    have ht : t = { base := base
                    wait := Function.update (mark s.base base s.wait) f
                      (some ⟨deadline, decide (deadline ≤ now), false⟩)
                    returns := s.returns } := by
      simp only [t, conclude, hresult]
    have hexec : exec f (.enter (.waitUntil (deadline ≤ now))) s.base =
        (s.base.yield f .waited, .done) := by
      simp only [exec, hset, if_false]
    have hcode : base.code f = some .waited := by
      simp only [base, hexec]
      exact Function.update_self ..
    rw [ht]
    refine ⟨h.of_caller hf _ ?_ _, .of_returns_eq (.inl hset) rfl⟩
    rw [hcode]
    rintro w ⟨⟩
    refine ⟨?_, rfl⟩
    simp [hexec]

theorem Kept.call (h : s.Kept) {c : TimedCall} (ht : step s (.call f c) = some t) :
    t.Kept ∧ Tells (s.Clear (.call f c)) s t := by
  obtain ⟨base, hbase, rfl⟩ := Option.map_eq_some_iff.1 ht
  obtain ⟨f', c', hl, hf, rfl⟩ | ⟨f', c', hl, -⟩ | ⟨q, f', c', c'', hl, -⟩ :=
    Program.stepBy_cases hbase
  · cases hl
    obtain ⟨hd, hc⟩ | ⟨deadline, now, hd, hc⟩ := c.deadline_cases
    · simp only [hd]
      refine ⟨h.untimed hf hc, .of_returns_eq ?_ rfl⟩
      intro deadline now hdn
      rw [hd] at hdn
      cases hdn
    · have hclear : s.Clear (.call f c) ↔ s.base.data.signalled ≠ 0 ∨ now < deadline := by
        simp [Clear, hd]
      simp only [hd, hc]
      rw [hclear]
      exact h.timed hf deadline now
  · cases hl
  · cases hl

/-- A fiber that goes on ends its call, and nothing happens to the others. -/
theorem Kept.of_resume (h : s.Kept) {base : State F Unit Code Data} (hf : f ∈ s.base.woken)
    {d : Data} (hbase : base = (s.base.start f).setData d) (returns : List Return) :
    Kept { base := base, wait := Function.update s.wait f none, returns := returns } := by
  subst hbase
  refine ⟨(h.wellFormed.start hf).setData d, fun g => ?_⟩
  by_cases hg : g = f
  · subst hg
    simp [State.start, Wait.Fits]
  · have hfits := h.fits g
    simpa [State.start, hg, List.mem_erase_of_ne hg] using hfits

theorem Kept.resume (h : s.Kept) (ht : step s (.resume f) = some t) :
    t.Kept ∧ Tells (s.Clear (.resume f)) s t := by
  obtain ⟨base, hbase, rfl⟩ := Option.map_eq_some_iff.1 ht
  obtain ⟨f', c', hl, -⟩ | ⟨f', c, hl, hc, hw, rfl⟩ | ⟨q, f', c', c'', hl, -⟩ :=
    Program.stepBy_cases hbase
  · cases hl
  · cases hl
    have hfits := h.fits f
    rw [hc] at hfits
    simp only [hc]
    cases hwait : s.wait f with
    | none =>
        -- only a wait without a timeout is not recorded
        rw [hwait] at hfits
        cases c with
        | enter c => exact hfits.elim
        | waitedUntil =>
            obtain ⟨w, hw, -⟩ := hfits
            cases hw
        | timedOut =>
            obtain ⟨-, w, hw, -⟩ := hfits
            cases hw
        | waited =>
            refine ⟨?_, .of_returns_eq (fun _ hne => absurd hwait hne) rfl⟩
            have hkept := h.of_resume hw (d := (s.base.start f).data.complete) rfl s.returns
            rwa [Function.update_eq_self_iff.2 hwait.symm] at hkept
    | some w =>
        rw [hwait] at hfits
        cases c with
        | enter c => exact hfits.elim
        | waited =>
            obtain ⟨-, hun⟩ := hfits w rfl
            refine ⟨h.of_resume hw rfl _, .of_returns_append rfl ?_⟩
            have hclear : s.Clear (.resume f) ↔ s.base.data.signalled ≠ 0 := by
              simp [Clear, hc, hwait]
            rw [hclear]
            constructor
            · intro hr
              have := hr.signalled.1 rfl
              simpa [got, hun] using this
            · intro hne
              have hgot : got .waited s.base.data w = true := by simp [got, hne]
              exact ⟨iff_of_true rfl hgot, iff_of_false (by simp) (by simp [hgot]), by simp⟩
        | waitedUntil =>
            obtain ⟨w', hw', hun⟩ := hfits
            obtain rfl : w = w' := Option.some.inj hw'
            refine ⟨h.of_resume hw rfl _, .of_returns_append rfl (iff_of_true ?_ ?_)⟩
            · have hgot : got .waitedUntil s.base.data w = true := by simp [got, hun.2 hw]
              exact ⟨iff_of_true rfl hgot, iff_of_false (by simp) (by simp [hgot]), by simp⟩
            · simp [Clear, hc]
        | timedOut =>
            obtain ⟨-, w', hw', hun, hlate⟩ := hfits
            obtain rfl : w = w' := Option.some.inj hw'
            refine ⟨h.of_resume hw (d := s.base.data) rfl _,
              .of_returns_append rfl (iff_of_true ?_ ?_)⟩
            · have hgot : got .timedOut s.base.data w = false := by simp [got, hun]
              refine ⟨iff_of_false (by simp) (by simp [hgot]), iff_of_true rfl ⟨hlate, hgot⟩, ?_⟩
              intro _
              exact decide_eq_false (not_not.2 rfl)
            · simp [Clear, hc]
  · cases hl

theorem Kept.expire (h : s.Kept) {now : ℤ} (ht : step s (.expire f now) = some t) :
    t.Kept ∧ Tells (s.Clear (.expire f now)) s t := by
  rw [step] at ht
  cases hwait : s.wait f with
  | none =>
      rw [hwait] at ht
      cases ht
  | some w =>
      rw [hwait] at ht
      obtain ⟨hlt, ht⟩ := Option.ite_none_right_eq_some.1 ht
      obtain ⟨base, hbase, rfl⟩ := Option.map_eq_some_iff.1 ht
      obtain ⟨f', c', hl, -⟩ | ⟨f', c', hl, -⟩ | ⟨q, f', c, c', hl, hc, he, hq, rfl⟩ :=
        Program.stepBy_cases hbase
      · cases hl
      · cases hl
      · cases hl
        refine ⟨⟨h.wellFormed.expire hq c', fun g => ?_⟩, .of_returns_eq trivial rfl⟩
        have hfits := h.fits g
        by_cases hg : g = f
        · subst hg
          -- only a wait with a timeout has an alarm
          cases c with
          | enter c => cases he
          | waited => cases he
          | timedOut => cases he
          | waitedUntil =>
              cases he
              rw [hc, hwait] at hfits
              obtain ⟨w', hw', hun⟩ := hfits
              obtain rfl : w = w' := Option.some.inj hw'
              have hnot : w.unblocked = false := by
                rw [← Bool.not_eq_true, hun]
                exact h.wellFormed.queue_not_woken () g hq
              simp [State.expire, Wait.Fits, hnot, hlt.le]
        · simpa [State.expire, hg] using hfits

theorem Kept.step (h : s.Kept) {l : TimedLabel F} (ht : step s l = some t) :
    t.Kept ∧ Tells (s.Clear l) s t := by
  cases l with
  | call f c => exact h.call ht
  | resume f => exact h.resume ht
  | expire f now => exact h.expire ht

omit [DecidableEq F] in
theorem kept_new : (new : Timed F).Kept :=
  ⟨.idle _, fun _ => rfl⟩

/-- In every interleaving, with any deadlines and clock readings: all waits with a timeout
tell the truth if and only if each is called while the signal is set or before its deadline,
and none that found the signal set lost it during its `yield`. -/
theorem honest_always_iff {ls : List (TimedLabel F)} {u : Timed F}
    (hr : Transition.run Timed.step new ls = some u) :
    Transition.Always Timed.step Timed.Honest new ls ↔
      Transition.Guarded Timed.step Timed.Clear new ls := by
  refine Transition.always_iff_guarded_of_invariant (I := fun s => s.Kept ∧ s.Honest)
    (fun s h => h.2) ?_ ?_ ⟨kept_new, fun r hr => absurd hr List.not_mem_nil⟩ hr
  · rintro s l t ⟨hk, hh⟩ hok ht
    obtain ⟨hkept, ⟨-, htells⟩ | ⟨hno, -⟩⟩ := hk.step ht
    · exact ⟨hkept, fun r hr => (htells r hr).elim (hh r) id⟩
    · exact absurd hok hno
  · rintro s l t ⟨hk, -⟩ ht hP
    obtain ⟨-, ⟨hok, -⟩ | ⟨-, r, hr, hno⟩⟩ := hk.step ht
    · exact hok
    · exact absurd (hP r hr) hno

/-- Fiber 1 waits until 5 and is signalled at last, fiber 2 waits until 3 and is not. -/
def oneInTime : List (TimedLabel ℕ) :=
  [.call 1 (.waitUntil 5 0), .call 2 (.waitFor 2 1), .call 3 (.signal true false), .resume 1,
    .expire 2 4, .call 3 (.signal true false), .resume 2]

theorem honest_always_oneInTime : Transition.Always Timed.step Timed.Honest new oneInTime := by
  refine (honest_always_iff rfl).2 ?_
  refine .cons ?_ rfl (.cons ?_ rfl (.cons ?_ rfl (.cons ?_ rfl (.cons trivial rfl (.cons ?_ rfl
    (.cons ?_ rfl trivial))))))
  · rintro _ _ ⟨⟩
    exact .inr (by decide)
  · rintro _ _ ⟨⟩
    exact .inr (by decide)
  · rintro _ _ ⟨⟩
  · rintro ⟨⟩
  · rintro _ _ ⟨⟩
  · rintro ⟨⟩

/-- The deadline of the wait is over, and nobody signals. -/
theorem not_honest_of_passed :
    ¬ Transition.Always Timed.step Timed.Honest (new : Timed ℕ) [.call 1 (.waitUntil 3 5)] := by
  rintro ⟨-, h⟩
  have hr := h _ rfl ⟨true, false, true, false⟩ (by decide)
  exact Bool.false_ne_true (hr.signalled.1 rfl)

end Timed

end Signal

end Zth
