import Zth.Coro.Direct
import Zth.Library.Until

/-!
# `run` of a task is direct style

Control is passed from task to task by handles, without any stack, and a loop resumes what is
left. That comes to the same as direct style: `run` returns what the evaluation yields, if it
yields anything, and no assertion fails on the way.
-/

namespace Zth.Coro

namespace Tasks

open Transition

variable {σ α E : Type*} {problem : Problem → E} {m m' : Tasks σ α E} {c d : ℕ} {κ : Option ℕ}

/-- What is left of a body is executed after something else. -/
theorem Finished.after {b b' : TaskBody σ α E} {r : Except E α} {t : TaskStore σ α E}
    {m₁ : Tasks σ α E} (h : Finished problem c κ b' r t m₁ m') (hkept : Kept c m m₁)
    (hb : Evaluates problem b' m₁.store r t → Evaluates problem b m.store r t) :
    Finished problem c κ b r t m m' :=
  ⟨h.control, h.promise, h.sound, hkept.trans h.kept, hb h.evaluates, h.store⟩

/-- A task was called and has given its result. The other one was not touched in the meantime. -/
theorem Finished.caller {b : TaskBody σ α E} {x : Except E α} {t : TaskStore σ α E}
    {m₂ : Tasks σ α E} {rest : Except E α → TaskBody σ α E} (hdc : c ≠ d)
    (h : Finished problem d (some c) b x t m₂ m')
    (hp : m₂.promises[c]? = some ⟨.awaiting d rest, false, κ, none⟩) :
    m'.promises[c]? = some ⟨.awaiting d rest, false, κ, none⟩ :=
  h.kept.promise c _ hdc hp rfl

/-- Other tasks that are being evaluated were left alone by the one that was called. -/
theorem Kept.call {b : TaskBody σ α E} {m₂ m₃ : Tasks σ α E}
    (hd : m.store.tasks[d]? = some (.fresh b)) (h : Kept c m m₂) (h' : Kept d m₂ m₃) :
    Kept c m m₃ := by
  refine ⟨h'.root.trans h.root, fun i p hi hp ha => h'.promise i p ?_ (h.promise i p hi hp ha) ha⟩
  rintro rfl
  rw [store_tasks, hp, Option.map_some, ha] at hd
  cases hd

/-- Nothing went wrong, and `run` has not returned. -/
def Going (m : Tasks σ α E) : Prop :=
  match m.control with
  | .loop | .executing _ _ | .transfer _ | .blocked => True
  | .returned _ | .failed => False

theorem until_of_blocked {Q : Tasks σ α E → Prop} (h : m.control = .blocked) (n : ℕ) :
    Until (step problem) Going Q n m :=
  .of_stuck (by simp [Going, h]) (by simp [step, h]) n

/-- A body is executed up to its end, if it has one, and then it evaluates to its result. -/
theorem Executing.until_finished (n : ℕ) {b : TaskBody σ α E} (h : Executing c κ b m) :
    Until (step problem) Going (fun m' => ∃ r t, Finished problem c κ b r t m m') n m := by
  induction n using Nat.strongRecOn generalizing m c κ b with
  | _ n ih =>
      have hgoing : m.Going := by simp [Going, h.control]
      cases b with
      | coReturn v =>
          refine .next hgoing fun k _ => .of_reached ⟨.ok v, m.store, ?_⟩
          rw [step, h.control]
          exact h.finish (.coReturn v m.store)
      | throw e =>
          refine .next hgoing fun k _ => .of_reached ⟨.error e, m.store, ?_⟩
          rw [step, h.control]
          exact h.finish (.throw e m.store)
      | compute f rest =>
          obtain ⟨hexec, hkept, hstore⟩ := h.compute problem
          refine .next hgoing fun k hk => (ih k hk hexec).mono ?_
          rintro m' ⟨r, t, hfin⟩
          exact ⟨r, t, hfin.after hkept fun hb => .compute (hstore ▸ hb)⟩
      | create body rest =>
          obtain ⟨hexec, hkept, hstore⟩ := h.create problem
          refine .next hgoing fun k hk => (ih k hk hexec).mono ?_
          rintro m' ⟨r, t, hfin⟩
          exact ⟨r, t, hfin.after hkept fun hb => .create (hstore ▸ hb)⟩
      | coAwait d rest =>
          refine .next hgoing fun k hk => ?_
          cases hd : m.store.tasks[d]? with
          | none =>
              obtain ⟨hexec, hkept⟩ := h.goOn (rest (.error (problem .alreadyCompleted)))
              rw [h.await_null hd]
              refine (ih k hk hexec).mono ?_
              rintro m' ⟨r, t, hfin⟩
              exact ⟨r, t, hfin.after hkept fun hb => .null hd hb⟩
          | some status =>
              cases status with
              | done x =>
                  obtain ⟨hexec, hkept⟩ := h.goOn (rest x)
                  rw [h.await_known problem hd]
                  refine (ih k hk hexec).mono ?_
                  rintro m' ⟨r, t, hfin⟩
                  exact ⟨r, t, hfin.after hkept fun hb => .known hd hb⟩
              | active =>
                  rcases h.await_active problem hd with hblocked | ⟨hcontrol, hblocked⟩
                  · exact until_of_blocked hblocked k
                  · exact .next (by simp [Going, hcontrol]) fun j _ => until_of_blocked hblocked j
              | fresh b =>
                  obtain ⟨hexec, hcontrol, hp, hkept, hstore⟩ := h.call problem hd
                  refine .next (by simp [Going, hcontrol]) fun j hj =>
                    (ih j (by omega) hexec).bind ?_
                  rintro i hi m₃ ⟨x, t, hfin⟩
                  have hdc : c ≠ d := by
                    rintro rfl
                    rw [store_tasks, h.promise] at hd
                    cases hd
                  obtain ⟨hexec', hkept', hstore'⟩ := hfin.resumed (hfin.caller hdc hp)
                  refine .next (by simp [Going, hfin.control]) fun i' hi' =>
                    (ih i' (by omega) hexec').mono ?_
                  rintro m' ⟨r, t', hfin'⟩
                  refine ⟨r, t', hfin'.after ((hkept.call hd hfin.kept).trans hkept') fun hb => ?_⟩
                  rw [hstore', hfin.store] at hb
                  exact .call hd (hstore ▸ hfin.evaluates) hb

/-- A body that evaluates to a result is executed up to its end. -/
theorem Executing.reaches_finished {b : TaskBody σ α E} {s t : TaskStore σ α E}
    {r : Except E α} (hb : Evaluates problem b s r t) (h : Executing c κ b m)
    (hs : m.store = s) :
    ∃ m', Reaches (step problem) m m' ∧ Finished problem c κ b r t m m' := by
  induction hb generalizing m c κ with
  | coReturn v s =>
      subst hs
      refine ⟨step problem m, .next (.refl _), ?_⟩
      rw [step, h.control]
      exact h.finish (.coReturn v m.store)
  | throw e s =>
      subst hs
      refine ⟨step problem m, .next (.refl _), ?_⟩
      rw [step, h.control]
      exact h.finish (.throw e m.store)
  | compute _ ih =>
      subst hs
      obtain ⟨hexec, hkept, hstore⟩ := h.compute problem
      obtain ⟨m', hreach, hfin⟩ := ih hexec hstore
      exact ⟨m', hreach.next, hfin.after hkept fun hb => .compute (hstore ▸ hb)⟩
  | create _ ih =>
      subst hs
      obtain ⟨hexec, hkept, hstore⟩ := h.create problem
      obtain ⟨m', hreach, hfin⟩ := ih hexec hstore
      exact ⟨m', hreach.next, hfin.after hkept fun hb => .create (hstore ▸ hb)⟩
  | null hd _ ih =>
      subst hs
      obtain ⟨hexec, hkept⟩ := h.goOn _
      obtain ⟨m', hreach, hfin⟩ := ih hexec rfl
      rw [← h.await_null hd] at hreach
      exact ⟨m', hreach.next, hfin.after hkept fun hb => .null hd hb⟩
  | known hd _ ih =>
      subst hs
      obtain ⟨hexec, hkept⟩ := h.goOn _
      obtain ⟨m', hreach, hfin⟩ := ih hexec rfl
      rw [← h.await_known problem hd] at hreach
      exact ⟨m', hreach.next, hfin.after hkept fun hb => .known hd hb⟩
  | @call d body rest s s' t x r hd _ _ ih ih' =>
      subst hs
      obtain ⟨hexec, hcontrol, hp, hkept, hstore⟩ := h.call problem hd
      obtain ⟨m₃, hreach, hfin⟩ := ih hexec hstore
      have hdc : c ≠ d := by
        rintro rfl
        rw [store_tasks, h.promise] at hd
        cases hd
      obtain ⟨hexec', hkept', hstore'⟩ := hfin.resumed (hfin.caller hdc hp)
      obtain ⟨m', hreach', hfin'⟩ := ih' hexec' (hstore'.trans hfin.store)
      refine ⟨m', (hreach.trans hreach'.next).next.next,
        hfin'.after ((hkept.call hd hfin.kept).trans hkept') fun hb => ?_⟩
      rw [hstore', hfin.store] at hb
      exact .call hd (hstore ▸ hfin.evaluates) hb

/-- No task is being evaluated: all are new, or have their result. -/
def Idle (m : Tasks σ α E) : Prop :=
  ∀ p ∈ m.promises, (∃ b, p = .init b) ∨ ∃ r, p = ⟨.final, false, none, some r⟩

theorem Idle.sound (h : m.Idle) : m.Sound none := by
  intro i p hp _
  rcases h p (List.mem_of_getElem? hp) with ⟨b, rfl⟩ | ⟨r, rfl⟩
  · rfl
  · rfl

/-- Nothing is left of the call: `run` returned, with what direct style yields, and no task is
being evaluated. -/
structure Over (problem : Problem → E) (c : ℕ) (r : Except E α) (t : TaskStore σ α E)
    (m m' : Tasks σ α E) : Prop where
  control : m'.control = .returned r
  runs : Runs problem m.store c r t
  store : m'.store = t
  idle : m'.Idle

theorem Over.stuck {r : Except E α} {t : TaskStore σ α E} (h : Over problem c r t m m') :
    step problem m' = m' := by
  rw [step, h.control]

/-- The start of a task that is not new. -/
theorem start_known (h : m.Idle) {r : Except E α} {t : TaskStore σ α E}
    (hr : Runs problem m.store c r t) (hnew : ∀ b, m.store.tasks[c]? ≠ some (.fresh b)) :
    Over problem c r t m (start problem c m) ∨ (start problem c m).control = .loop ∧
      Over problem c r t m (step problem (start problem c m)) := by
  cases hr with
  | null hc =>
      have hp : m.promises[c]? = none := by rwa [store_tasks, Option.map_eq_none_iff] at hc
      have hstart : start problem c m =
          m.setControl (.returned (.error (problem .alreadyCompleted))) := by
        simp [start, hp]
      rw [hstart]
      exact .inl ⟨rfl, .null hc, rfl, h⟩
  | known hc =>
      have hp := h.sound.done (by simp) hc
      have hstart : start problem c m = { m with root := c, control := .loop } := by
        simp [start, hp, TaskPromise.running]
      have hstep : step problem { m with root := c, control := .loop } =
          { m with root := c, control := .returned r } := by
        simp [step, hp, setControl]
      rw [hstart, hstep]
      exact .inr ⟨rfl, rfl, .known hc, rfl, h⟩
  | call hc => exact absurd hc (hnew _)

variable (problem) in
/-- The start of a new task. -/
theorem start_fresh (h : m.Idle) {b : TaskBody σ α E}
    (hc : m.store.tasks[c]? = some (.fresh b)) :
    (start problem c m).control = .loop ∧
      Executing c none b (step problem (start problem c m)) ∧
      (step problem (start problem c m)).root = c ∧
      (step problem (start problem c m)).store = m.store.setTask c .active := by
  have hp := h.sound.fresh (by simp) hc
  have hstart : start problem c m = { m with root := c, control := .loop } := by
    simp [start, hp, TaskPromise.init, TaskPromise.running]
  have hstep : step problem (start problem c m) =
      ({ m with root := c, control := .loop }.setPromise c
        ⟨.executing, true, none, none⟩).setControl (.executing c b) := by
    have hp' : ({ m with root := c, control := .loop } : Tasks σ α E).promises[c]? =
        some (.init b) := hp
    rw [hstart, step]
    simp only [hp]
    exact resume_initial hp' rfl rfl
  have hself : (m.promises.set c ⟨.executing, true, none, none⟩)[c]? =
      some ⟨.executing, true, none, none⟩ := getElem?_set_of_getElem? hp
  have hother : ∀ i, i ≠ c → (m.promises.set c ⟨.executing, true, none, none⟩)[i]? =
      m.promises[i]? := fun i hi => List.getElem?_set_ne hi.symm
  refine ⟨by rw [hstart], ?_, ?_, ?_⟩
  · rw [hstep]
    refine ⟨rfl, hself, fun i p hi _ => ?_⟩
    by_cases hic : i = c
    · subst hic
      obtain rfl := Option.some.inj (hself.symm.trans hi)
      exact proper_of_running rfl rfl
    · rcases h p (List.mem_of_getElem? ((hother i hic).symm.trans hi)) with ⟨b, rfl⟩ | ⟨r, rfl⟩
      · rfl
      · rfl
  · rw [hstep]
    rfl
  · rw [hstep, store_setControl, store_setPromise]
    rfl

/-- The task that `run` was called for has its result, and `run` returns it. -/
theorem Finished.over (h : m.Idle) {b : TaskBody σ α E} {r : Except E α} {t : TaskStore σ α E}
    (hc : m.store.tasks[c]? = some (.fresh b))
    (hfin : Finished problem c none b r t (step problem (start problem c m)) m') :
    Over problem c r (t.setTask c (.done r)) m (step problem (step problem m')) ∧
      (step problem m').control = .loop := by
  obtain ⟨-, -, hroot, hstore⟩ := start_fresh problem h hc
  have hloop : step problem m' = m'.setControl .loop := by rw [step, hfin.control]
  have hreturn : step problem (step problem m') = m'.setControl (.returned r) := by
    have hp : (m'.setControl .loop).promises[(m'.setControl .loop).root]? =
        some ⟨.final, false, none, some r⟩ := by
      change m'.promises[m'.root]? = _
      rw [hfin.kept.root, hroot]
      exact hfin.promise
    have hcontrol : (m'.setControl .loop).control = .loop := rfl
    rw [hloop, step, hcontrol]
    simp only [hp]
    rfl
  refine ⟨⟨by rw [hreturn]; rfl, .call hc (hstore ▸ hfin.evaluates), ?_, ?_⟩, by rw [hloop]; rfl⟩
  · rw [hreturn]
    exact hfin.store
  · rw [hreturn]
    intro p hp
    obtain ⟨i, hi⟩ := List.mem_iff_getElem?.1 hp
    have hproper := hfin.sound i p hi (by simp)
    unfold Proper at hproper
    split at hproper
    · rename_i b _
      exact .inl ⟨b, hproper⟩
    · rename_i r _
      exact .inr ⟨r, hproper⟩
    · rename_i hactive
      have hm' : m'.store.tasks[i]? = some .active := by
        rw [store_tasks, show m'.promises[i]? = some p from hi, Option.map_some, hactive]
      rw [hfin.store, TaskStore.setTask, List.getElem?_set] at hm'
      split at hm'
      · split at hm'
        · cases hm'
        · cases hm'
      · rename_i hne
        have hbefore := hfin.evaluates.active hm'
        rw [hstore, TaskStore.setTask, List.getElem?_set_ne hne, store_tasks] at hbefore
        obtain ⟨q, hq, hstatus⟩ := Option.map_eq_some_iff.1 hbefore
        rcases h q (List.mem_of_getElem? hq) with ⟨b, rfl⟩ | ⟨r, rfl⟩
        · cases hstatus
        · cases hstatus

/-- What is not the start of a new task is known at once. -/
theorem exists_runs (problem : Problem → E) (h : m.Idle)
    (hnew : ∀ b, m.store.tasks[c]? ≠ some (.fresh b)) :
    ∃ r, Runs problem m.store c r m.store := by
  cases hc : m.store.tasks[c]? with
  | none => exact ⟨_, .null hc⟩
  | some status =>
      cases status with
      | fresh b => exact absurd hc (hnew b)
      | done r => exact ⟨r, .known hc⟩
      | active =>
          rw [store_tasks] at hc
          obtain ⟨q, hq, hstatus⟩ := Option.map_eq_some_iff.1 hc
          rcases h q (List.mem_of_getElem? hq) with ⟨b, rfl⟩ | ⟨r, rfl⟩
          · cases hstatus
          · cases hstatus

/-- `run` of a task goes on until it is over. -/
theorem until_over (h : m.Idle) (c n : ℕ) :
    Until (step problem) Going (fun m' => ∃ r t, Over problem c r t m m') n
      (start problem c m) := by
  by_cases hnew : ∃ b, m.store.tasks[c]? = some (.fresh b)
  · obtain ⟨b, hc⟩ := hnew
    obtain ⟨hloop, hexec, -⟩ := start_fresh problem h hc
    refine .next (by simp [Going, hloop]) fun k _ => (hexec.until_finished k).bind ?_
    rintro j - m' ⟨r, t, hfin⟩
    obtain ⟨hover, hloop'⟩ := hfin.over h hc
    refine .next (by simp [Going, hfin.control]) fun i _ => .next (by simp [Going, hloop'])
      fun i' _ => .of_reached ⟨r, _, hover⟩
  · rw [not_exists] at hnew
    obtain ⟨r, hr⟩ := exists_runs problem h hnew
    rcases start_known h hr hnew with hover | ⟨hloop, hover⟩
    · exact .of_reached ⟨r, _, hover⟩
    · exact .next (by simp [Going, hloop]) fun k _ => .of_reached ⟨r, _, hover⟩

/-- `run` of a task gets to its end, if direct style does. -/
theorem reaches_over (h : m.Idle) {r : Except E α} {t : TaskStore σ α E}
    (hr : Runs problem m.store c r t) :
    ∃ m', Reaches (step problem) (start problem c m) m' ∧ Over problem c r t m m' := by
  by_cases hnew : ∃ b, m.store.tasks[c]? = some (.fresh b)
  · obtain ⟨b, hc⟩ := hnew
    cases hr with
    | null hc' => cases hc'.symm.trans hc
    | known hc' => cases hc'.symm.trans hc
    | call hc' hb =>
        obtain ⟨-, hexec, -, hstore⟩ := start_fresh problem h hc'
        obtain ⟨m', hreach, hfin⟩ := hexec.reaches_finished hb hstore
        exact ⟨_, (hreach.trans (Reaches.next (.next (.refl _)))).next, (hfin.over h hc').1⟩
  · rw [not_exists] at hnew
    rcases start_known h hr hnew with hover | ⟨-, hover⟩
    · exact ⟨_, .refl _, hover⟩
    · exact ⟨_, .next (.refl _), hover⟩

/-- `run` of a task, when no task is being evaluated: no assertion fails, however long it takes;
when it returns, it returns what direct style yields, and leaves the state of the program and the
results of all tasks behind as direct style does; and it returns, whenever direct style yields
something. -/
theorem run_eq_direct (problem : Problem → E) (m : Tasks σ α E) (h : m.Idle) (c : ℕ) :
    (∀ n, ((step problem)^[n] (start problem c m)).control ≠ .failed) ∧
      (∀ n r, ((step problem)^[n] (start problem c m)).control = .returned r →
        Runs problem m.store c r ((step problem)^[n] (start problem c m)).store ∧
          ((step problem)^[n] (start problem c m)).Idle) ∧
      ∀ r t, Runs problem m.store c r t →
        ∃ n, ((step problem)^[n] (start problem c m)).control = .returned r ∧
          ((step problem)^[n] (start problem c m)).store = t := by
  have hend : ∀ n, ((step problem)^[n] (start problem c m)).Going ∨
      ∃ r t, Over problem c r t m ((step problem)^[n] (start problem c m)) := by
    intro n
    refine (Until.iterate (until_over h c) n).imp id ?_
    rintro ⟨k, hk, r, t, hover⟩
    refine ⟨r, t, ?_⟩
    rw [iterate_of_stuck hover.stuck rfl hk]
    exact hover
  refine ⟨fun n hn => ?_, fun n r hn => ?_, fun r t hr => ?_⟩
  · rcases hend n with hgoing | ⟨r, t, hover⟩
    · simp [Going, hn] at hgoing
    · cases hn.symm.trans hover.control
  · rcases hend n with hgoing | ⟨r', t, hover⟩
    · simp [Going, hn] at hgoing
    · obtain rfl := Control.returned.inj (hn.symm.trans hover.control)
      rw [hover.store]
      exact ⟨hover.runs, hover.idle⟩
  · obtain ⟨m', ⟨n, rfl⟩, hover⟩ := reaches_over h hr
    exact ⟨n, hover.control, hover.store⟩

/-- Task 0 adds the results of the tasks 1 and 2, and task 1 awaits task 2 as well, which counts
how often it is executed. -/
def shared : Tasks ℕ ℕ Problem where
  state := 0
  promises :=
    [.init (.coAwait 1 fun x => .coAwait 2 fun y => .coReturn ((x.toOption.getD 0) +
        (y.toOption.getD 0))),
      .init (.coAwait 2 fun y => .coReturn ((y.toOption.getD 0) + 1)),
      .init (.compute (· + 1) fun n => .coReturn (10 * n))]
  root := 0
  control := .loop

theorem run_eq_direct_shared :
    ∃ t, Runs id shared.store 0 (.ok 21) t ∧ t.state = 1 := by
  have hidle : shared.Idle := by
    intro p hp
    simp only [shared, List.mem_cons, List.not_mem_nil, or_false] at hp
    rcases hp with rfl | rfl | rfl
    · exact .inl ⟨_, rfl⟩
    · exact .inl ⟨_, rfl⟩
    · exact .inl ⟨_, rfl⟩
  exact ⟨_, ((run_eq_direct id shared hidle 0).2.1 15 (.ok 21) rfl).1, rfl⟩

end Tasks

end Zth.Coro
