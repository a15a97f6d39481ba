import Zth.Worker.Spares

/-!
# A suspended waiter has nothing to wait for

The waiter suspends itself when no waitable is in its list and there is nothing to poll. Nobody
else suspends it, and every operation that puts a waitable in the list resumes it. What is to be
polled comes from outside here.
-/

namespace Zth

namespace Worker

variable {F Q W : Type*} [DecidableEq F] {waiter : F} {b : Bool} {s : Worker F Q W}

/-- The waiter does not wait, and executes its loop. `b` tells whether there is something to
poll. -/
structure Loops (waiter : F) (b : Bool) (s : Worker F Q W) : Prop where
  plain : (s.fiber (some waiter)).Plain
  frame : s.frame waiter ≠ .user ∧ ∀ w, s.frame waiter ≠ .alarm w
  polling : s.polling = b

/-- Moreover, it has nothing to wait for while it is suspended. -/
structure Idle (waiter : F) (b : Bool) (s : Worker F Q W) : Prop extends Loops waiter b s where
  idle : (s.fiber (some waiter)).state = .suspended → s.waiting = [] ∧ b = false

/-- The waiter executes its loop, and is not suspended. -/
structure Awake (waiter : F) (b : Bool) (s : Worker F Q W) : Prop extends Loops waiter b s where
  awake : (s.fiber (some waiter)).state ≠ .suspended

omit [DecidableEq F] in
theorem Awake.idle (h : Awake waiter b s) : Idle waiter b s :=
  ⟨h.toLoops, fun hs => absurd hs h.awake⟩

omit [DecidableEq F] in
theorem Loops.of_spares {t : Worker F Q W} (h : Loops waiter b s) (hst : Spares waiter s t) :
    Loops waiter b t := by
  refine ⟨(hst.waiter h.plain).1, ?_, ?_⟩
  · rw [hst.rest]
    exact h.frame
  · rw [hst.rest]
    exact h.polling

omit [DecidableEq F] in
theorem Idle.of_spares {t : Worker F Q W} (h : Idle waiter b s) (hst : Spares waiter s t) :
    Idle waiter b t := by
  refine ⟨h.toLoops.of_spares hst, fun ht => ?_⟩
  rw [hst.rest]
  exact h.idle ((hst.waiter h.plain).2 ht)

omit [DecidableEq F] in
theorem Awake.of_spares {t : Worker F Q W} (h : Awake waiter b s) (hst : Spares waiter s t) :
    Awake waiter b t :=
  ⟨h.toLoops.of_spares hst, fun ht => h.awake ((hst.waiter h.plain).2 ht)⟩

omit [DecidableEq F] in
theorem Idle.of_sparesWaiter (h : Idle waiter b s) {x : Except Fault (Worker F Q W)}
    (hx : SparesWaiter waiter s x) : x.Sat (fun _ => True) (Idle waiter b) :=
  hx.mono fun _ => h.of_spares

theorem Idle.schedule (h : Idle waiter b s) (created : Contexts F)
    (prefer : Option (Option F)) (now : ℕ) :
    (schedule created prefer now s).Sat (fun _ => True) fun x => Idle waiter b x.1 :=
  (spares_schedule waiter created prefer now s).mono fun _ hx => h.of_spares hx

/-- A resumed waiter is not suspended. -/
theorem Loops.resume (h : Loops waiter b s) :
    (resume waiter s).Sat (fun _ => True) (Awake waiter b) := by
  have hspares := spares_resume waiter waiter s
  have hawake : (Worker.resume waiter s).Sat (fun _ => True) fun t =>
      (t.fiber (some waiter)).state ≠ .suspended := by
    rw [Worker.resume]
    dsimp only
    split
    · refine Except.Sat.bind (spares_release waiter waiter _) fun t ht => ?_
      have hresume := ((ht.waiter h.plain).1).resume
      refine (spares_add waiter waiter false _).mono fun u hu hstate => ?_
      have hu := hu.waiter
      rw [setFiber] at hu
      dsimp only at hu
      rw [Function.update_self] at hu
      exact hresume.2 ((hu hresume.1).2 hstate)
    · rename_i hstate
      exact hstate
  exact (hspares.and hawake).mono fun t ht => ⟨h.of_spares ht.1, ht.2⟩

/-- A fiber goes on elsewhere, but the waiter only in its loop. -/
theorem Loops.setFrame (h : Loops waiter b s) {f : F} {frame : Frame W}
    (hframe : f = waiter → frame ≠ .user ∧ ∀ w, frame ≠ .alarm w) :
    Loops waiter b (s.setFrame f frame) := by
  refine ⟨h.plain, ?_, h.polling⟩
  rw [Worker.setFrame]
  dsimp only
  by_cases hf : f = waiter
  · rw [← hf, Function.update_self]
    exact hframe hf
  · rw [Function.update_of_ne (Ne.symm hf)]
    exact h.frame

theorem Idle.setFrame (h : Idle waiter b s) {f : F} {frame : Frame W}
    (hframe : f = waiter → frame ≠ .user ∧ ∀ w, frame ≠ .alarm w) :
    Idle waiter b (s.setFrame f frame) :=
  ⟨h.toLoops.setFrame hframe, h.idle⟩

/-- The waiter suspends itself, as it has nothing to wait for. -/
theorem Loops.suspend (h : Loops waiter b s) (created : Contexts F) (now : ℕ)
    (hwaiting : s.waiting = []) (hb : b = false) :
    ((suspend created waiter now s).map Prod.fst).Sat (fun _ => True) (Idle waiter b) := by
  have hset : ∀ t : Worker F Q W, (t.fiber (some waiter)).Plain →
      ((t.setFiber (some waiter) (t.fiber (some waiter)).suspend).fiber (some waiter)).Plain := by
    intro t ht
    rw [setFiber]
    dsimp only
    rw [Function.update_self]
    exact ht.suspend
  have hmove : ((release waiter s).bind fun s =>
      add waiter false { s.setFiber (some waiter) (s.fiber (some waiter)).suspend with
        held := Function.update s.held waiter true }).Sat (fun _ => True) fun t =>
          (t.fiber (some waiter)).Plain := by
    refine Except.Sat.bind (spares_release waiter waiter s) fun t ht => ?_
    exact (spares_add waiter waiter false _).mono fun u hu =>
      (hu.waiter (hset t (ht.waiter h.plain).1)).1
  have hplain : (suspendOther waiter s).Sat (fun _ => True) fun t =>
      (t.fiber (some waiter)).Plain := by
    rw [suspendOther]
    split
    · exact hmove
    · exact hmove
    · exact hmove
    · exact hset s h.plain
    all_goals exact h.plain
  have hidle : (suspendOther waiter s).Sat (fun _ => True) (Idle waiter b) := by
    refine (hplain.and (keepsRest_suspendOther waiter s)).mono fun t ht => ?_
    obtain ⟨ht, hrest⟩ := ht
    rw [hrest]
    exact ⟨⟨ht, h.frame, h.polling⟩, fun _ => ⟨hwaiting, hb⟩⟩
  refine Except.Sat.map (P := fun x => Idle waiter b x.1) ?_ fun _ hx => hx
  rw [Worker.suspend]
  split
  · refine hidle.bind fun t ht => ?_
    split
    · exact ht.schedule created none now
    · trivial
  · exact hidle.map fun _ ht => ht

section Waiter

variable [LinearOrder W]

omit [DecidableEq F] in
theorem Loops.insertWaiting (h : Loops waiter b s) (w : W) :
    (insertWaiting w s).Sat (fun _ => True) (Loops waiter b) := by
  rw [Worker.insertWaiting]
  split
  · trivial
  · exact ⟨h.plain, h.frame, h.polling⟩

theorem Loops.scheduleTask (h : Loops waiter b s) (w : W) :
    (scheduleTask waiter w s).Sat (fun _ => True) (Idle waiter b) :=
  (h.insertWaiting w).bind fun _ ht => ht.resume.mono fun _ hu => hu.idle

omit [DecidableEq F] in
theorem Idle.setWaitable (h : Idle waiter b s) (w : W) (v : Waitable F Q) :
    Idle waiter b (s.setWaitable w v) :=
  ⟨⟨h.plain, h.frame, h.polling⟩, h.idle⟩

omit [DecidableEq F] in
theorem Idle.eraseWaiting (h : Idle waiter b s) (w : W) : Idle waiter b (s.eraseWaiting w) := by
  refine ⟨⟨h.plain, h.frame, h.polling⟩, fun hs => ?_⟩
  obtain ⟨hwaiting, hpolling⟩ := h.idle hs
  refine ⟨?_, hpolling⟩
  rw [Worker.eraseWaiting]
  dsimp only
  rw [hwaiting, List.erase_nil]

omit [DecidableEq F] in
theorem Idle.unscheduleTask (h : Idle waiter b s) (w : W) : Idle waiter b (unscheduleTask w s) := by
  rw [Worker.unscheduleTask]
  split
  · exact h.eraseWaiting w
  · exact h

theorem Idle.enterWaiting (h : Idle waiter b s) (w : W) {f : F} (hf : f ≠ waiter) :
    (enterWaiting waiter w f s).Sat (fun _ => True) (Idle waiter b) := by
  have hset := h.setWaitable w { s.waitable w with fiber := some f }
  refine Except.Sat.bind (spares_release waiter f _) fun t ht => ?_
  have hnap := hset.of_spares (ht.after (spares_setFiber_of_ne hf _))
  exact hnap.toLoops.scheduleTask w

theorem Idle.wakeup (h : Idle waiter b s) (w : W) :
    (wakeup w s).Sat (fun _ => True) (Idle waiter b) := by
  have herase := h.eraseWaiting w
  rw [Worker.wakeup]
  split
  · dsimp only
    split
    · exact herase
    · rename_i f _
      refine Except.Sat.map (spares_wakeFiber waiter f true _) fun t ht => ?_
      exact (herase.of_spares ht).setWaitable w _
  · exact h

theorem Idle.leaveAlarm (h : Idle waiter b s) (w : W) {f : F} (hf : f ≠ waiter) :
    Idle waiter b (leaveAlarm w f s) := by
  have hframe : Idle waiter b ((Worker.unscheduleTask w s).setFrame f .user) :=
    (h.unscheduleTask w).setFrame fun heq => absurd heq hf
  exact ⟨⟨hframe.plain, hframe.frame, hframe.polling⟩, hframe.idle⟩

variable [DecidableEq Q]

/-- A waitable is polled, which may wake fibers. -/
theorem poll_keeps {P : Worker F Q W → Prop} (hP : P s)
    (hspares : ∀ t u, P t → Spares waiter t u → P u)
    (hset : ∀ t w v, P t → P (t.setWaitable w v)) (w : W) (fired : Bool) (now : ℕ) :
    (poll w fired now s).Sat (fun _ => True) fun x => P x.1 := by
  rw [Worker.poll]
  cases (s.waitable w).kind with
  | timed => exact hP
  | polled interval =>
      dsimp only
      split
      · exact hP
      · exact hset s w _ hP
  | alarm q f =>
      dsimp only
      split
      · refine (spares_unblock waiter q f false s).map fun x hx => ?_
        exact hset _ w _ (hspares s _ hP hx)
      · exact hP

theorem Idle.poll (h : Idle waiter b s) (w : W) (fired : Bool) (now : ℕ) :
    (poll w fired now s).Sat (fun _ => True) fun x => Idle waiter b x.1 := by
  apply poll_keeps h
  · exact fun t u ht => ht.of_spares
  · exact fun t w v ht => ht.setWaitable w v

theorem Awake.poll (h : Awake waiter b s) (w : W) (fired : Bool) (now : ℕ) :
    (poll w fired now s).Sat (fun _ => True) fun x => Awake waiter b x.1 := by
  apply poll_keeps h
  · exact fun t u ht => ht.of_spares
  · exact fun t w v ht => ⟨⟨ht.plain, ht.frame, ht.polling⟩, ht.awake⟩

/-- `Waiter::wait` by another fiber. -/
theorem Idle.wait (h : Idle waiter b s) (created : Contexts F) (w : W) (fired slice : Bool)
    {f : F} (hf : f ≠ waiter) (now now' : ℕ) :
    (wait created waiter w fired slice f now now' s).Sat (fun _ => True) fun x =>
      Idle waiter b x.1 := by
  rw [Worker.wait]
  split
  · exact h
  refine (h.poll w fired now).bind ?_
  rintro ⟨t, done⟩ ht
  cases done with
  | true =>
      dsimp only
      split
      · exact Idle.schedule ht created none now
      · exact ht
  | false =>
      refine (Idle.enterWaiting ht w hf).bind fun u hu => ?_
      exact hu.schedule created none now'

/-- A block with timeout of another fiber. -/
theorem Idle.blockUntil (h : Idle waiter b s) (created : Contexts F) (q : Q) (w : W)
    (timeout : ℕ) {f : F} (hf : f ≠ waiter) (now : ℕ) :
    (blockUntil created waiter q w timeout f now s).Sat (fun _ => True) fun x =>
      Idle waiter b x.1 := by
  refine Except.Sat.bind (spares_enterQueue q hf s) fun t ht => ?_
  have hframe : Idle waiter b ((t.setWaitable w ⟨timeout, none, .alarm q f, false⟩).setFrame f
      (.alarm w)) :=
    ((h.of_spares ht).setWaitable w _).setFrame fun heq => absurd heq hf
  have hbegin : Loops waiter b
      { (t.setWaitable w ⟨timeout, none, .alarm q f, false⟩).setFrame f (.alarm w) with
        owner := Function.update t.owner w (some f) } :=
    ⟨hframe.plain, hframe.frame, hframe.polling⟩
  exact (hbegin.scheduleTask w).bind fun u hu => hu.schedule created none now

/-- One round of the inner loop of the waiter, which is not suspended then. -/
theorem Idle.expire (h : Idle waiter b s) {w : W} (hw : w ∈ s.waiting) (fired : Bool) (now : ℕ) :
    (expire w fired now s).Sat (fun _ => True) (Idle waiter b) := by
  have hawake : Awake waiter b (s.eraseWaiting w) := by
    refine ⟨⟨h.plain, h.frame, h.polling⟩, fun hs => ?_⟩
    rw [(h.idle hs).1] at hw
    exact absurd hw List.not_mem_nil
  refine (hawake.poll w fired now).bind ?_
  rintro ⟨t, done⟩ ht
  cases done with
  | true =>
      dsimp only
      split
      · exact Awake.idle ht
      · rename_i f _
        exact (spares_wakeFiber waiter f true t).mono fun u hu => (Awake.of_spares ht hu).idle
  | false =>
      dsimp only
      rw [Worker.insertWaiting]
      split
      · trivial
      · exact Awake.idle ⟨⟨ht.plain, ht.frame, ht.polling⟩, ht.awake⟩

omit [LinearOrder W] [DecidableEq Q] in
/-- The end of a round of the waiter. -/
theorem Idle.decideSleep (h : Idle waiter b s) (created : Contexts F) (now : ℕ) :
    (decideSleep created waiter now s).Sat (fun _ => True) (Idle waiter b) := by
  have hframe : Idle waiter b (s.setFrame waiter (.sleep false)) :=
    h.setFrame fun _ => ⟨by simp, by simp⟩
  rw [Worker.decideSleep]
  split
  · rename_i hnone
    exact hframe.toLoops.suspend created now hnone.1 (hframe.polling.symm.trans hnone.2)
  · refine (hframe.schedule created none now).map ?_
    rintro ⟨t, _ | _⟩ ht
    · rename_i did
      cases did with
      | true => exact ht
      | false => exact Idle.setFrame ht fun _ => ⟨by simp, by simp⟩
    · exact ht

omit [LinearOrder W] in
/-- An operation in code of a fiber or of the context of the worker. -/
theorem Idle.performUser (h : Idle waiter b s) {created : Contexts F} {a : Action F Q W}
    {x : Except Fault (Worker F Q W)} (hx : performUser created waiter s a = some x)
    (hsuspend : ∀ now, a ≠ .suspend waiter now) (hpolling : ∀ p, a ≠ .setPolling p) :
    x.Sat (fun _ => True) (Idle waiter b) := by
  cases a with
  | hatch f =>
      obtain ⟨-, hx⟩ := Option.ite_none_right_eq_some.1 hx
      obtain rfl := Option.some.inj hx
      exact h.of_sparesWaiter ((spares_add waiter f false _).from
        (spares_setFiber (Fiber.goesOn_construct _)))
  | unblock q f prio =>
      obtain rfl := Option.some.inj hx
      exact (spares_unblock waiter q f prio s).map fun _ hy => h.of_spares hy
  | unblockFirst q prio =>
      obtain rfl := Option.some.inj hx
      exact h.of_sparesWaiter (spares_unblockFirst waiter q prio s)
  | unblockAll q prio =>
      obtain rfl := Option.some.inj hx
      exact h.of_sparesWaiter (spares_unblockAll waiter q prio _ s)
  | suspend f now =>
      obtain rfl := Option.some.inj hx
      have hf : f ≠ waiter := fun heq => hsuspend now (heq ▸ rfl)
      exact h.of_sparesWaiter (spares_suspend created hf now s)
  | setPolling p => exact absurd rfl (hpolling p)
  | contextSwitchEnable enable =>
      have hswitch : ∀ n, Idle waiter b { s with disableContextSwitch := n } :=
        fun n => ⟨⟨h.plain, h.frame, h.polling⟩, h.idle⟩
      simp only [Worker.performUser] at hx
      split at hx
      · split at hx
        · obtain rfl := Option.some.inj hx
          exact hswitch _
        · obtain rfl := Option.some.inj hx
          trivial
      · obtain rfl := Option.some.inj hx
        exact hswitch _
  | _ => cases hx

/-- An operation of another fiber that may hand over. -/
theorem Idle.performFiber (h : Idle waiter b s) {created : Contexts F} {f : F}
    (hf : f ≠ waiter) {a : Action F Q W} {x : Except Fault (Worker F Q W)}
    (hx : performFiber created waiter f s a = some x) : x.Sat (fun _ => True) (Idle waiter b) := by
  cases a with
  | yield prefer now =>
      obtain rfl := Option.some.inj hx
      exact (h.schedule created prefer now).map fun _ ht => ht
  | block q now =>
      obtain rfl := Option.some.inj hx
      refine Except.Sat.map (P := fun x => Idle waiter b x.1) ?_ fun _ ht => ht
      refine Except.Sat.bind (spares_enterQueue q hf s) fun t ht => ?_
      exact (h.of_spares ht).schedule created none now
  | blockUntil q w timeout now =>
      simp only [Worker.performFiber] at hx
      split at hx
      · obtain rfl := Option.some.inj hx
        exact h
      · obtain ⟨-, hx⟩ := Option.ite_none_right_eq_some.1 hx
        obtain rfl := Option.some.inj hx
        exact (h.blockUntil created q w timeout hf now).map fun _ ht => ht
  | wait w timeout interval fired slice now now' =>
      obtain ⟨-, hx⟩ := Option.ite_none_right_eq_some.1 hx
      obtain rfl := Option.some.inj hx
      exact ((h.setWaitable w _).wait created w fired slice hf now now').map fun _ ht => ht
  | exit now =>
      obtain rfl := Option.some.inj hx
      have hkill := h.of_spares (spares_setFiber (Fiber.goesOn_kill (s.fiber (some f))))
      refine (hkill.schedule created none now).bind ?_
      rintro ⟨t, _ | _⟩ ht
      · trivial
      · exact ht
  | _ => cases hx

omit [LinearOrder W] [DecidableEq Q] in
/-- A round of `Worker::run`. -/
theorem Idle.performWorker (h : Idle waiter b s) {created : Contexts F} {a : Action F Q W}
    {x : Except Fault (Worker F Q W)} (hx : performWorker created s a = some x) :
    x.Sat (fun _ => True) (Idle waiter b) := by
  cases a with
  | run runEnd =>
      obtain rfl := Option.some.inj hx
      exact ⟨⟨h.plain, h.frame, h.polling⟩, h.idle⟩
  | work now now' =>
      obtain ⟨-, hx⟩ := Option.ite_none_right_eq_some.1 hx
      obtain rfl := Option.some.inj hx
      exact (h.schedule created none now').map fun _ ht => ht
  | _ => cases hx

/-- A step of the loop of the waiter. -/
theorem Idle.performWaiter (h : Idle waiter b s) {created : Contexts F} {frame : Frame W}
    {a : Action F Q W} {x : Except Fault (Worker F Q W)}
    (hx : performWaiter created waiter s frame a = some x) :
    x.Sat (fun _ => True) (Idle waiter b) := by
  cases frame with
  | user => cases a <;> cases hx
  | alarm w => cases a <;> cases hx
  | loop =>
      cases a with
      | loop now =>
          obtain rfl := Option.some.inj hx
          exact h.setFrame fun _ => ⟨by simp, by simp⟩
      | _ => cases hx
  | expire now =>
      cases a with
      | expire fired =>
          simp only [Worker.performWaiter] at hx
          split at hx
          · obtain rfl := Option.some.inj hx
            exact h.setFrame fun _ => ⟨by simp, by simp⟩
          · rename_i w ws hw
            split at hx
            · obtain rfl := Option.some.inj hx
              exact h.expire (hw ▸ List.mem_cons_self) fired now
            · obtain rfl := Option.some.inj hx
              exact h.setFrame fun _ => ⟨by simp, by simp⟩
      | _ => cases hx
  | decide =>
      cases a with
      | decide now =>
          obtain rfl := Option.some.inj hx
          exact h.decideSleep created now
      | _ => cases hx
  | sleep real =>
      cases a with
      | sleep now =>
          simp only [Worker.performWaiter] at hx
          split at hx
          · obtain rfl := Option.some.inj hx
            exact h.setFrame fun _ => ⟨by simp, by simp⟩
          · obtain rfl := Option.some.inj hx
            exact h.setFrame fun _ => ⟨by simp, by simp⟩
      | _ => cases hx
  | events =>
      cases a with
      | polled =>
          obtain rfl := Option.some.inj hx
          exact h.setFrame fun _ => ⟨by simp, by simp⟩
      | _ => cases hx

/-- Whatever happens, if nobody else suspends the waiter. -/
theorem Idle.perform (h : Idle waiter b s) {created : Contexts F} {a : Action F Q W}
    {x : Except Fault (Worker F Q W)} (hx : perform created waiter s a = some x)
    (hsuspend : ∀ now, a ≠ .suspend waiter now) (hpolling : ∀ p, a ≠ .setPolling p) :
    x.Sat (fun _ => True) (Idle waiter b) := by
  rcases perform_cases hx with ⟨-, ⟨w, -, rfl⟩ | ⟨f, -, rfl⟩⟩ | ⟨f, w, -, -, hframe, rfl⟩ |
    ⟨-, hx⟩ | ⟨-, hx⟩ | ⟨f, huser, hcur, hx⟩ | ⟨-, hx⟩
  · exact h.wakeup w
  · exact h.of_sparesWaiter (spares_resume waiter f s)
  · have hf : f ≠ waiter := fun heq => h.frame.2 w (heq ▸ hframe)
    exact h.leaveAlarm w hf
  · exact h.performWorker hx
  · exact h.performWaiter hx
  · have hf : f ≠ waiter := by
      rintro rfl
      rw [inUserCode, hcur] at huser
      dsimp only at huser
      split at huser
      · rename_i hframe
        exact h.frame.1 hframe
      · cases huser
    exact h.performFiber hf hx
  · exact h.performUser hx hsuspend hpolling

/-- The step lemma. -/
theorem Idle.step (h : Idle waiter b s) {created : Contexts F} {a : Action F Q W}
    {t : Worker F Q W} (hs : step created waiter s a = some t)
    (hsuspend : ∀ now, a ≠ .suspend waiter now) (hpolling : ∀ p, a ≠ .setPolling p) :
    Idle waiter b t := by
  obtain ⟨-, hx | ⟨e, -, rfl⟩⟩ := step_eq_some_iff.1 hs
  · exact h.perform hx hsuspend hpolling
  · exact ⟨⟨h.plain, h.frame, h.polling⟩, h.idle⟩

omit [DecidableEq Q] [LinearOrder W] in
theorem idle_init (waiter : F) (waitable : W → Waitable F Q) :
    Idle waiter false (init waiter waitable) := by
  have hfiber : (init waiter waitable).fiber (some waiter) = ⟨.suspended, .new, true, true⟩ :=
    if_pos rfl
  have hframe : (init waiter waitable).frame waiter = .loop := if_pos rfl
  refine ⟨⟨?_, ?_, rfl⟩, fun _ => ⟨rfl, rfl⟩⟩
  · rw [hfiber]
    exact ⟨by simp, by simp⟩
  · rw [hframe]
    exact ⟨by simp, by simp⟩

end Waiter

end Worker

end Zth
