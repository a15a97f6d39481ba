import Zth.Worker.Taking

/-!
# A timeout or a request

A fiber that is blocked with a timeout is in the queue of the synchronizer, and its alarm is in
the waiting list. Whoever comes first, the alarm or a request, takes it out of the queue; when
the fiber goes on, it takes the alarm out of the waiting list, and tells from it who it was.

An observer writes down, for every call of `block_`, who took the fiber out of the queue, and
what the call returned.
-/

namespace Zth

namespace Arbitration

/-- Who took a fiber out of a queue. -/
inductive Taker (Q W : Type*) where
  | alarm (w : W)
  | request (q : Q)
  | other
deriving DecidableEq, Repr

/-- A fiber was taken out of the queue, and was made runnable by that, or not. -/
structure Taking (Q W : Type*) where
  taker : Taker Q W
  runnable : Bool
deriving DecidableEq, Repr

/-- A call of `block_`, with everybody who took its fiber out of the queue so far. -/
structure Call (Q W : Type*) where
  queue : Q
  alarm : W
  takings : List (Taking Q W)
deriving DecidableEq, Repr

/-- What a call of `block_` returned, and whether its alarm is in the waiting list then. -/
structure Return (Q W : Type*) where
  call : Option (Call Q W)
  alarm : W
  result : Bool
  waiting : Bool
deriving DecidableEq, Repr

/-- A worker, with the calls of `block_` that its fibers are in, and those that returned. -/
structure Observed (F Q W : Type*) where
  worker : Worker F Q W
  call : F → Option (Call Q W)
  returns : List (Return Q W)

variable {F Q W : Type*}

/-- Who takes fibers out of a queue in the action. -/
def taker (s : Worker F Q W) : Action F Q W → Taker Q W
  | .unblock q _ _ | .unblockFirst q _ | .unblockAll q _ => .request q
  | .expire _ =>
      match s.waiting with
      | [] => .other
      | w :: _ => .alarm w
  | _ => .other

variable [DecidableEq F]

/-- The fiber was not runnable, and is in the runnable queue now, once. -/
def madeRunnable (f : F) (s t : Worker F Q W) : Bool :=
  decide (s.runnableQueue.count f = 0 ∧ t.runnableQueue.count f = 1 ∧
    (t.fiber (some f)).state = .ready)

/-- If the fiber left the queue, this is written down. -/
def Call.note (k : Taker Q W) (f : F) (s t : Worker F Q W) (c : Call Q W) : Call Q W :=
  if f ∈ s.queue c.queue ∧ f ∉ t.queue c.queue then
    { c with takings := c.takings ++ [⟨k, madeRunnable f s t⟩] }
  else c

/-- The worker is `t` now. -/
def Observed.watch (o : Observed F Q W) (a : Action F Q W) (t : Worker F Q W) :
    Observed F Q W :=
  ⟨t, fun f => (o.call f).map (Call.note (taker o.worker a) f o.worker t), o.returns⟩

/-- A call of `block_` starts. -/
def Observed.enter (f : F) (q : Q) (w : W) (o : Observed F Q W) : Observed F Q W :=
  { o with call := Function.update o.call f (some ⟨q, w, []⟩) }

variable [DecidableEq Q] [LinearOrder W]

/-- A call of `block_` returns. -/
def Observed.leave (f : F) (w : W) (o : Observed F Q W) : Observed F Q W :=
  { o with
    call := Function.update o.call f none
    returns := o.returns ++ [⟨o.call f, w, !(o.worker.waitable w).rang,
      o.worker.waiting.contains w⟩] }

/-- What the observer writes down after an action that led to the worker `t`. The frame of the
fiber tells whether it is in a call. -/
def Observed.after (o : Observed F Q W) (a : Action F Q W) (t : Worker F Q W) :
    Observed F Q W :=
  match a, o.worker.currentFiber with
  | .blockUntil q _ _ _, some f =>
      match t.frame f with
      | .alarm w => (o.watch a t).enter f q w
      | _ => o.watch a t
  | .leaveAlarm, some f =>
      match o.worker.frame f with
      | .alarm w => (o.watch a t).leave f w
      | _ => o.watch a t
  | _, _ => o.watch a t

/-- One step of an observed run. -/
def step (created : Contexts F) (waiter : F) (o : Observed F Q W) (a : Action F Q W) :
    Option (Observed F Q W) :=
  (Worker.step created waiter o.worker a).map (o.after a)

def start (waiter : F) (waitable : W → Waitable F Q) : Observed F Q W :=
  ⟨.init waiter waitable, fun _ => none, []⟩

/-- A request for the fiber has no effect, and one for the first fiber of a queue takes
another one. -/
structure PassedBy (s : Worker F Q W) (f : F) : Prop where
  queue : ∀ q, f ∉ s.queue q
  unblock : ∀ q prio, s.unblock q f prio = .ok (s, false)
  first : ∀ q prio g gs, s.queue q = g :: gs → g ≠ f ∧
    (s.unblockFirst q prio).Sat (fun _ => True) fun t => g ∉ t.queue q

/-- The fiber of the call was not taken out of the queue yet, nor made runnable; or it was so
once, by its alarm or by a request, and every later request goes to another fiber. -/
def Call.Arbitrated (s : Worker F Q W) (f : F) (c : Call Q W) : Prop :=
  (c.takings = [] ∧ f ∈ s.queue c.queue ∧ f ∉ s.runnableQueue) ∨
    (∃ k, c.takings = [⟨k, true⟩] ∧ (k = .alarm c.alarm ∨ k = .request c.queue)) ∧ PassedBy s f

/-- The fiber of the call was taken out of the queue and made runnable once; the call returned
`false` if its alarm did so, and `true` if a request did; and the alarm is not in the waiting
list. -/
def Return.Arbitrated (r : Return Q W) : Prop :=
  ∃ c k, r.call = some c ∧ c.alarm = r.alarm ∧ c.takings = [⟨k, true⟩] ∧
    (k = .alarm r.alarm ∨ k = .request c.queue) ∧ (r.result = false ↔ k = .alarm r.alarm) ∧
    r.waiting = false

/-- Timeout and request never both win: neither in the calls that returned, nor in those that
the fibers are in, which are all known. -/
structure Observed.Arbitrated (o : Observed F Q W) : Prop where
  calls : ∀ f w, o.worker.frame f = .alarm w → ∃ c, o.call f = some c ∧ c.alarm = w
  pending : ∀ f c, o.call f = some c → c.Arbitrated o.worker f
  returned : ∀ r ∈ o.returns, r.Arbitrated

open Worker

section Passing

variable {s : Worker F Q W} {created : Contexts F} {waiter : F} {a : Action F Q W}
  {x : Except Fault (Worker F Q W)} {k : Taker Q W}

omit [DecidableEq F] [DecidableEq Q] [LinearOrder W] in
/-- The fiber is in a call of `block_`. -/
structure InCall (s : Worker F Q W) (f : F) (q : Q) (w : W) : Prop where
  frame : s.frame f = .alarm w
  kind : (s.waitable w).kind = .alarm q f
  waits : ∀ q, f ∈ s.queue q → (s.fiber (some f)).state = .waiting

/-- All that may happen to a fiber in a call of `block_`, until it goes on: nothing; a request
takes it; or its alarm expires, and takes it if it is still there. -/
inductive Passes (k : Taker Q W) (f : F) (q : Q) (w : W) (s t : Worker F Q W) : Prop
  | ignored (h : Ignored f w s t)
  | requested (q' : Q) (hf : f ∈ s.queue q') (hk : k = .request q') (hfreed : Freed f t)
      (hw : Apart w s t) (hframe : t.frame f = s.frame f)
  | expired (hs : w ∈ s.waiting) (hkind : (t.waitable w).kind = .alarm q f)
      (hw : w ∉ t.waiting) (hframe : t.frame f = s.frame f)
      (hrang : (f ∈ s.queue q ∧ k = .alarm w ∧ Freed f t ∧ (t.waitable w).rang = true) ∨
        (Unmoved f s t ∧ (t.waitable w).rang = false))

/-- No call of `block_` starts or ends. -/
structure Passing (k : Taker Q W) (s t : Worker F Q W) : Prop where
  frame : ∀ g v, t.frame g = .alarm v → s.frame g = .alarm v
  passes : ∀ f q w, InCall s f q w → Passes k f q w s t

omit [DecidableEq F] [DecidableEq Q] [LinearOrder W] in
/-- Moreover, nothing happens to the calls. -/
structure Quiet (s t : Worker F Q W) : Prop where
  frame : ∀ g v, t.frame g = .alarm v → s.frame g = .alarm v
  ignored : ∀ f q w, InCall s f q w → Ignored f w s t

omit [DecidableEq F] [DecidableEq Q] [LinearOrder W] in
theorem InCall.of_ignored {t : Worker F Q W} {f : F} {q : Q} {w : W} (h : InCall s f q w)
    (hst : Ignored f w s t) : InCall t f q w where
  frame := hst.frame.trans h.frame
  kind := (congrArg _ hst.waitable).trans h.kind
  waits q hq := by
    have hq := (hst.queue q).1 hq
    exact hst.waits q hq (h.waits q hq)

omit [DecidableEq F] [DecidableEq Q] [LinearOrder W] in
theorem Quiet.after {t u : Worker F Q W} (h : Quiet t u) (hst : Quiet s t) : Quiet s u := by
  refine ⟨fun g v hg => hst.frame g v (h.frame g v hg), fun f q w hf => ?_⟩
  have hign := hst.ignored f q w hf
  exact (h.ignored f q w (hf.of_ignored hign)).after hign

omit [DecidableEq F] [DecidableEq Q] [LinearOrder W] in
theorem Quiet.passing {t : Worker F Q W} (h : Quiet s t) : Passing k s t :=
  ⟨h.frame, fun f q w hf => .ignored (h.ignored f q w hf)⟩

omit [DecidableEq F] [DecidableEq Q] [LinearOrder W] in
theorem quiet_of_ignores
    (hframe : x.Sat (fun _ => True) fun t => ∀ g v, t.frame g = .alarm v → s.frame g = .alarm v)
    (h : ∀ f q w, InCall s f q w → Ignores f w s x) : x.Sat (fun _ => True) (Quiet s) := by
  cases x with
  | error e => trivial
  | ok t => exact ⟨hframe, h⟩

omit [DecidableEq F] [DecidableEq Q] [LinearOrder W] in
/-- An operation on fibers only. -/
theorem quiet_of_keepsRest (hrest : KeepsRest s x)
    (h : ∀ f q w, InCall s f q w → KeepsBlocked f s x) : x.Sat (fun _ => True) (Quiet s) :=
  quiet_of_ignores (Except.Sat.mono hrest fun _ ht _ _ hg => by rwa [ht.same.2.2] at hg)
    fun f q w hf => (h f q w hf).ignores hrest

omit [DecidableEq F] [DecidableEq Q] [LinearOrder W] in
/-- Nothing changes for the fibers. -/
theorem quiet_of_rest {t : Worker F Q W} (ht : t = { s with
      polling := t.polling, runEnd := t.runEnd, disableContextSwitch := t.disableContextSwitch }) :
    Quiet s t := by
  refine ⟨fun g v hg => ?_, fun f q w hf => ?_⟩
  · rwa [ht] at hg
  · rw [ht]
    exact .of_eq rfl rfl rfl (fun h => h) rfl

omit [DecidableEq Q] [LinearOrder W] in
/-- A fiber that is in no call goes on elsewhere. -/
theorem quiet_setFrame {g : F} (hg : ∀ v, s.frame g ≠ .alarm v) {frame : Frame W}
    (hframe : ∀ v, frame ≠ .alarm v) : Quiet s (s.setFrame g frame) := by
  refine ⟨fun g' v hg' => ?_, fun f q w hf => ignored_setFrame ?_ frame s⟩
  · by_cases hgg : g' = g
    · subst hgg
      simp only [setFrame, Function.update_self] at hg'
      exact absurd hg' (hframe v)
    · exact (Function.update_of_ne hgg _ _).symm.trans hg'
  · rintro rfl
    exact hg w hf.frame

omit [DecidableEq Q] [LinearOrder W] in
theorem quiet_schedule (prefer : Option (Option F)) (now : ℕ) (s : Worker F Q W) :
    (schedule created prefer now s).Sat (fun _ => True) fun x => Quiet s x.1 := by
  have h : ((schedule created prefer now s).map Prod.fst).Sat (fun _ => True) (Quiet s) :=
    quiet_of_keepsRest (keepsRest_schedule created prefer now s) fun _ _ _ _ =>
      keepsBlocked_schedule created prefer now s
  cases hx : schedule created prefer now s with
  | error e => trivial
  | ok y =>
      rw [hx] at h
      exact h

omit [DecidableEq Q] [LinearOrder W] in
theorem quiet_resume (g : F) (s : Worker F Q W) :
    (resume g s).Sat (fun _ => True) (Quiet s) :=
  quiet_of_keepsRest (keepsRest_resume g s) fun _ _ _ _ => keepsBlocked_resume g s

omit [DecidableEq Q] [LinearOrder W] in
theorem quiet_suspend (g : F) (now : ℕ) (s : Worker F Q W) :
    ((suspend created g now s).map Prod.fst).Sat (fun _ => True) (Quiet s) :=
  quiet_of_keepsRest (keepsRest_suspend created g now s) fun _ _ _ _ =>
    keepsBlocked_suspend created g now s

omit [DecidableEq F] [DecidableEq Q] [LinearOrder W] in
/-- All calls pass, each in its own way. -/
theorem passing_of_forall
    (hframe : x.Sat (fun _ => True) fun t => ∀ g v, t.frame g = .alarm v → s.frame g = .alarm v)
    (h : ∀ f q w, InCall s f q w → x.Sat (fun _ => True) (Passes k f q w s)) :
    x.Sat (fun _ => True) (Passing k s) := by
  cases x with
  | error e => trivial
  | ok t => exact ⟨hframe, h⟩

omit [DecidableEq F] [DecidableEq Q] [LinearOrder W] in
/-- A request takes the fiber, or leaves it alone. -/
theorem passing_of_request {q : Q} (hrest : KeepsRest s x)
    (h : ∀ f, (∀ q, f ∈ s.queue q → (s.fiber (some f)).state = .waiting) →
      x.Sat (fun _ => True) fun t => (f ∈ s.queue q ∧ Freed f t) ∨ Unmoved f s t) :
    x.Sat (fun _ => True) (Passing (.request q) s) := by
  refine passing_of_forall (Except.Sat.mono hrest fun t ht g v hg => ?_) fun f q' w hf => ?_
  · rwa [ht.same.2.2] at hg
  refine (Except.Sat.and (h f hf.waits) hrest).mono ?_
  rintro t ⟨⟨hmem, hfreed⟩ | hun, ht⟩
  · obtain ⟨hv, hw, hframe⟩ := ht.same
    exact .requested q hmem rfl hfreed ⟨by rw [hv], fun hmem => hw ▸ hmem⟩ (by rw [hframe])
  · exact .ignored (hun.ignored ht)

omit [LinearOrder W] in
/-- An operation in code of the current fiber or of the context of the worker. -/
theorem performUser_passing (h : s.Tracked)
    (hx : performUser created waiter s a = some x) :
    x.Sat (fun _ => True) (Passing (taker s a) s) := by
  unfold performUser at hx
  split at hx
  · obtain ⟨hg, hx⟩ := Option.ite_none_right_eq_some.1 hx
    obtain rfl := Option.some.inj hx
    refine Except.Sat.mono (quiet_of_keepsRest (keepsRest_add_setFiber _ false _ s) ?_)
      fun t ht => ht.passing
    exact fun f q w hf => keepsBlocked_hatch hg
  · rename_i q g prio
    obtain rfl := Option.some.inj hx
    have hrest : KeepsRest s ((unblock q g prio s).map Prod.fst) :=
      (keepsRest_unblock q g prio s).map fun _ hx => hx
    refine passing_of_request hrest fun f hwaits => ?_
    refine (h.unblock_blocked hwaits q g prio).map ?_
    rintro x (⟨hf, -, -, hfreed⟩ | ⟨-, hun⟩)
    · exact .inl ⟨hf, hfreed⟩
    · exact .inr hun
  · rename_i q prio
    obtain rfl := Option.some.inj hx
    exact passing_of_request (keepsRest_unblockFirst q prio s) fun f hwaits =>
      h.unblockFirst_blocked hwaits q prio
  · rename_i q prio
    obtain rfl := Option.some.inj hx
    exact passing_of_request (keepsRest_unblockAll q prio _ s) fun f hwaits =>
      h.unblockAll_blocked hwaits q prio _
  · rename_i g now
    obtain rfl := Option.some.inj hx
    exact (quiet_suspend g now s).mono fun t ht => ht.passing
  · split at hx
    · obtain rfl := Option.some.inj hx
      have hset : Quiet s { s with polling := true } := quiet_of_rest rfl
      exact (quiet_resume waiter _).mono fun t ht => (ht.after hset).passing
    · obtain rfl := Option.some.inj hx
      exact (quiet_of_rest rfl).passing
  · split at hx
    · split at hx
      · obtain rfl := Option.some.inj hx
        exact (quiet_of_rest rfl).passing
      · obtain rfl := Option.some.inj hx
        trivial
    · obtain rfl := Option.some.inj hx
      exact (quiet_of_rest rfl).passing
  · cases hx

omit [DecidableEq Q] [LinearOrder W] in
/-- A round of `Worker::run`. -/
theorem performWorker_quiet (hx : performWorker created s a = some x) :
    x.Sat (fun _ => True) (Quiet s) := by
  unfold performWorker at hx
  split at hx
  · obtain rfl := Option.some.inj hx
    exact quiet_of_rest rfl
  · rename_i now now'
    obtain ⟨-, hx⟩ := Option.ite_none_right_eq_some.1 hx
    obtain rfl := Option.some.inj hx
    exact (quiet_schedule none now' s).map fun _ ht => ht
  · cases hx

omit [DecidableEq Q] [LinearOrder W] in
/-- The waiter, which is in no call, has nothing to expire any more. -/
theorem decideSleep_quiet (hframe : ∀ v, s.frame waiter ≠ .alarm v) (now : ℕ) :
    (decideSleep created waiter now s).Sat (fun _ => True) (Quiet s) := by
  have hset : Quiet s (s.setFrame waiter (.sleep false)) := quiet_setFrame hframe (by simp)
  rw [decideSleep]
  split
  · exact (quiet_suspend waiter now _).mono fun t ht => ht.after hset
  · refine ((quiet_schedule none now _).and (rescheduled_schedule created none now _)).map ?_
    rintro ⟨t, did | _⟩ ⟨ht, hres⟩
    · have hsleep : ∀ v, t.frame waiter ≠ .alarm v := by
        intro v
        rw [hres.fibersOnly.same.2.2]
        simp [setFrame]
      cases did with
      | false => exact (quiet_setFrame hsleep (by simp)).after (ht.after hset)
      | true => exact ht.after hset
    · exact ht.after hset

/-- A step of the loop of the waiter. -/
theorem performWaiter_passing (h : s.Tracked)
    (hx : performWaiter created waiter s (s.frame waiter) a = some x) :
    x.Sat (fun _ => True) (Passing (taker s a) s) := by
  have hset : ∀ frame, (∀ v, s.frame waiter ≠ .alarm v) → (∀ v, frame ≠ Frame.alarm v) →
      Passing (taker s a) s (s.setFrame waiter frame) :=
    fun frame hold hframe => (quiet_setFrame hold hframe).passing
  generalize hframe : s.frame waiter = frame at hx hset
  unfold performWaiter at hx
  split at hx
  · obtain rfl := Option.some.inj hx
    exact hset _ (by simp) (by simp)
  · split at hx
    · obtain rfl := Option.some.inj hx
      exact hset _ (by simp) (by simp)
    · rename_i now fired _ v vs hv
      split at hx
      · obtain rfl := Option.some.inj hx
        have htaker : taker s (.expire fired) = .alarm v := by
          rw [taker, hv]
        have hmem : v ∈ s.waiting := by simp [hv]
        rw [htaker]
        refine passing_of_forall ?_ fun f q w hf => ?_
        · exact ((h.expire hmem fired now).mono fun t ht => ht.2.frame).mono_bad fun _ _ => trivial
        · by_cases hne : w = v
          · subst hne
            refine (h.expire_alarm hmem hf.kind hf.waits fired now).mono ?_
            rintro t (hign | ⟨hkind, hw, hframe, hrang⟩)
            · exact .ignored hign
            · refine .expired hmem hkind hw (by rw [hframe]) (hrang.imp_left ?_)
              rintro ⟨hq, hfreed, hrang⟩
              exact ⟨hq, rfl, hfreed, hrang⟩
          · exact (h.ignores_expire hf.frame hmem hne fired now).mono fun t ht => .ignored ht
      · obtain rfl := Option.some.inj hx
        exact hset _ (by simp) (by simp)
  · obtain rfl := Option.some.inj hx
    exact (decideSleep_quiet (by simp [hframe]) _).mono fun t ht => ht.passing
  · split at hx
    · obtain rfl := Option.some.inj hx
      exact hset _ (by simp) (by simp)
    · obtain rfl := Option.some.inj hx
      exact hset _ (by simp) (by simp)
  · obtain rfl := Option.some.inj hx
    exact hset _ (by simp) (by simp)
  · cases hx

/-- An operation of the current fiber that may hand over, but for a block with timeout. -/
theorem performFiber_quiet (h : s.Tracked) {f : F} (hcur : s.currentFiber = some f)
    (huser : s.inUserCode = true) (hx : performFiber created waiter f s a = some x)
    (ha : ∀ q w timeout now, a = .blockUntil q w timeout now → timeout ≤ now) :
    x.Sat (fun _ => True) (Quiet s) := by
  have hne : ∀ g q w, InCall s g q w → f ≠ g := by
    rintro g q w hg rfl
    exact frame_of_inUserCode hcur huser w hg.frame
  unfold performFiber at hx
  split at hx
  · rename_i prefer now
    obtain rfl := Option.some.inj hx
    exact (quiet_schedule prefer now s).map fun _ ht => ht
  · rename_i q now
    obtain rfl := Option.some.inj hx
    exact quiet_of_keepsRest (keepsRest_block created q f now s) fun g q' w hg =>
      keepsBlocked_block created q (hne g q' w hg) now s
  · rename_i q w timeout now
    rw [if_pos (ha q w timeout now rfl)] at hx
    obtain rfl := Option.some.inj hx
    exact quiet_of_rest rfl
  · rename_i v timeout interval fired slice now now'
    obtain ⟨hfree, hx⟩ := Option.ite_none_right_eq_some.1 hx
    obtain ⟨howner, -⟩ := isFree_iff.1 hfree
    obtain rfl := Option.some.inj hx
    have hkind : ∀ q g, ((s.setWaitable v (makeWaitable timeout interval)).waitable v).kind ≠
        .alarm q g := by
      intro q g
      cases interval <;> simp [setWaitable, makeWaitable]
    refine quiet_of_ignores ?_ fun g q w hg => ?_
    · refine (frame_wait created waiter hkind fired slice f now now').map fun y hy g v hg => ?_
      rwa [hy] at hg
    · have hwv : w ≠ v := by
        rintro rfl
        rw [h.alarms.frame g w hg.frame] at howner
        cases howner
      have hset := ignored_setWaitable (f := g) hwv (makeWaitable timeout interval) s
      exact (ignores_wait created waiter hwv (hne g q w hg) hkind fired slice now now').map
        fun y hy => hy.after hset
  · rename_i now
    obtain rfl := Option.some.inj hx
    have hkill : Quiet s (s.setFiber (some f) (s.fiber (some f)).kill) := by
      refine ⟨fun g v hg => hg, fun g q w hg => ?_⟩
      have hun : Unmoved g s (s.setFiber (some f) (s.fiber (some f)).kill) :=
        .of_queue rfl (stillWaits_setFiber fun hr => absurd (Option.some.inj hr) (hne g q w hg))
      exact hun.ignored rfl
    refine (quiet_schedule none now _).bind ?_
    rintro ⟨t, _ | _⟩ ht
    · trivial
    · exact ht.after hkill
  · cases hx

/-- Any action, but for the start and the end of a call. -/
theorem perform_passing (h : s.Tracked) (hx : perform created waiter s a = some x)
    (ha : ∀ q w timeout now, a = .blockUntil q w timeout now → timeout ≤ now)
    (hleave : a ≠ .leaveAlarm) : x.Sat (fun _ => True) (Passing (taker s a) s) := by
  obtain ⟨-, ⟨w, rfl, rfl⟩ | ⟨f, rfl, rfl⟩⟩ | ⟨f, w, rfl, -, -, -⟩ | ⟨-, hx⟩ | ⟨-, hx⟩ |
    ⟨f, huser, hcur, hx⟩ | ⟨-, hx⟩ := perform_cases hx
  · refine Except.Sat.mono (quiet_of_ignores ?_ fun f q v hf => ?_) fun t ht => ht.passing
    · exact ((h.wakeup w).mono fun t ht => ht.2.frame).mono_bad fun _ _ => trivial
    · exact h.ignores_wakeup (h.alarms.owner v f (h.alarms.frame f v hf.frame)) w
  · exact (quiet_resume f s).mono fun t ht => ht.passing
  · exact absurd rfl hleave
  · exact (performWorker_quiet hx).mono fun t ht => ht.passing
  · exact performWaiter_passing h hx
  · exact (performFiber_quiet h hcur huser hx ha).mono fun t ht => ht.passing
  · exact performUser_passing h hx

/-- A call of `block_` has just begun. -/
structure Entered (f : F) (q : Q) (w : W) (s t : Worker F Q W) : Prop where
  frame : t.frame = Function.update s.frame f (.alarm w)
  kind : (t.waitable w).kind = .alarm q f
  rang : (t.waitable w).rang = false
  queue : f ∈ t.queue q
  waits : (t.fiber (some f)).state = .waiting

omit [DecidableEq Q] [LinearOrder W] in
theorem Entered.of_unmoved {t u : Worker F Q W} {f : F} {q : Q} {w : W} (h : Entered f q w s t)
    (hun : Unmoved f t u) (hrest : FibersOnly t u) : Entered f q w s u := by
  obtain ⟨hv, -, hframe⟩ := hrest.same
  exact ⟨hframe.trans h.frame, by rw [hv, h.kind], by rw [hv, h.rang],
    (hun.queue q).2 h.queue, hun.waits q h.queue h.waits⟩

/-- A call of `block_`, up to and including its `schedule`. -/
theorem blockUntil_entered (h : s.Tracked) (created : Contexts F) (waiter : F) (q : Q)
    (w : W) (timeout : ℕ) {f : F} (hcur : s.currentFiber = some f)
    (hrun : (s.fiber (some f)).state = .running) (now : ℕ) :
    (blockUntil created waiter q w timeout f now s).Sat (fun _ => True)
      fun x => Entered f q w s x.1 := by
  have hqueue : (enterQueue q f s).Sat (fun _ => True) fun t => f ∈ t.queue q := by
    refine Except.Sat.bind (keepsRest_release f s) fun t _ => ?_
    rw [enqueue]
    split
    · trivial
    · have hmem : f ∈ Function.update t.queue q (t.queue q ++ [f]) q := by simp
      exact hmem
  have henter := (((h.enterQueue q hcur).mono_bad fun _ _ => trivial).and hqueue).and
    (keepsRest_enterQueue q f s)
  refine henter.bind ?_
  rintro t ⟨⟨⟨-, -, hstate⟩, hmem⟩, hrest⟩
  have hwaits : (t.fiber (some f)).state = .waiting := by
    rw [hstate]
    simp [Fiber.nap, hrun]
  have hset : Entered f q w s
      { (t.setWaitable w ⟨timeout, none, .alarm q f, false⟩).setFrame f (.alarm w) with
        owner := Function.update t.owner w (some f) } := by
    refine ⟨?_, ?_, ?_, hmem, hwaits⟩
    · exact congrArg (fun frame => Function.update frame f (.alarm w)) hrest.same.2.2
    · simp [setFrame, setWaitable]
    · simp [setFrame, setWaitable]
  refine Except.Sat.bind (P := Entered f q w s) ?_ fun u hu => ?_
  · rw [scheduleTask, insertWaiting]
    split
    · trivial
    · refine (Except.Sat.and (keepsBlocked_resume waiter _) (keepsRest_resume waiter _)).mono
        fun u hu => Entered.of_unmoved ?_ hu.1 hu.2
      exact ⟨hset.frame, hset.kind, hset.rang, hset.queue, hset.waits⟩
  · exact ((unmoved_schedule created none now u).and
      (rescheduled_schedule created none now u)).mono fun x hx =>
        hu.of_unmoved hx.1 hx.2.fibersOnly

end Passing

section Invariant

variable {s t : Worker F Q W} {f : F} {c : Call Q W} {k : Taker Q W}

omit [DecidableEq Q] [LinearOrder W] in
@[simp] theorem note_queue : (c.note k f s t).queue = c.queue := by
  rw [Call.note]
  split <;> rfl

omit [DecidableEq Q] [LinearOrder W] in
@[simp] theorem note_alarm : (c.note k f s t).alarm = c.alarm := by
  rw [Call.note]
  split <;> rfl

omit [DecidableEq Q] [LinearOrder W] in
/-- The fiber did not leave the queue. -/
theorem note_of_imp (h : f ∈ s.queue c.queue → f ∈ t.queue c.queue) : c.note k f s t = c := by
  rw [Call.note, if_neg]
  rintro ⟨hs, ht⟩
  exact ht (h hs)

omit [DecidableEq Q] [LinearOrder W] in
/-- The fiber left the queue, and is runnable. -/
theorem note_of_freed (hs : s.Tracked) (ht : t.Tracked) (hf : f ∈ s.queue c.queue)
    (hfreed : Freed f t) :
    (c.note k f s t).takings = c.takings ++ [⟨k, true⟩] := by
  have hnot : f ∉ s.runnableQueue := by
    intro hr
    obtain ⟨hat, -⟩ := hs.consistent.of_mem_queue hf
    cases hat.runnable.1 hr
  have hmade : madeRunnable f s t = true := by
    rw [madeRunnable, decide_eq_true_iff]
    exact ⟨List.count_eq_zero_of_not_mem hnot,
      List.count_eq_one_of_mem ht.consistent.nodups.runnable hfreed.runnable, hfreed.ready⟩
  rw [Call.note, if_pos ⟨hf, hfreed.queue c.queue⟩, hmade]

omit [DecidableEq F] [DecidableEq Q] [LinearOrder W] in
/-- The alarm shows who took the fiber. -/
def Shown (s : Worker F Q W) (w : W) (q : Q) (k : Taker Q W) : Prop :=
  (k = .request q ∧ (s.waitable w).rang = false) ∨
    (k = .alarm w ∧ (s.waitable w).rang = true ∧ w ∉ s.waiting)

omit [DecidableEq F] [DecidableEq Q] [LinearOrder W] in
/-- How far the call got. -/
inductive Progress (s : Worker F Q W) (f : F) (q : Q) (w : W) (takings : List (Taking Q W)) : Prop
  | blocked (ht : takings = []) (hq : f ∈ s.queue q)
      (hw : (s.fiber (some f)).state = .waiting) (hr : (s.waitable w).rang = false)
  | taken (k : Taker Q W) (ht : takings = [⟨k, true⟩]) (hq : ∀ q, f ∉ s.queue q)
      (hk : Shown s w q k)

/-- What holds of a call until it returns. -/
structure Pending (s : Worker F Q W) (f : F) (c : Call Q W) : Prop where
  frame : s.frame f = .alarm c.alarm
  kind : (s.waitable c.alarm).kind = .alarm c.queue f
  progress : Progress s f c.queue c.alarm c.takings

omit [DecidableEq F] [DecidableEq Q] [LinearOrder W] in
theorem Pending.inCall (h : Pending s f c) : InCall s f c.queue c.alarm := by
  refine ⟨h.frame, h.kind, fun q hq => ?_⟩
  cases h.progress with
  | blocked ht hq hw hr => exact hw
  | taken k ht hnot hk => exact absurd hq (hnot q)

omit [DecidableEq F] [DecidableEq Q] [LinearOrder W] in
/-- Nobody takes the fiber. -/
theorem Progress.of_unmoved {q : Q} {w : W} {takings : List (Taking Q W)}
    (h : Progress s f q w takings) (hun : Unmoved f s t)
    (hblocked : (s.waitable w).rang = false → (t.waitable w).rang = false)
    (hshown : ∀ k, Shown s w q k → Shown t w q k) : Progress t f q w takings := by
  cases h with
  | blocked ht hq hw hr =>
      exact .blocked ht ((hun.queue q).2 hq) (hun.waits q hq hw) (hblocked hr)
  | taken k ht hq hk => exact .taken k ht (fun q' hq' => hq q' ((hun.queue q').1 hq')) (hshown k hk)

omit [DecidableEq F] [DecidableEq Q] [LinearOrder W] in
theorem Shown.of_apart {w : W} {q : Q} (h : Shown s w q k) (hw : Apart w s t) :
    Shown t w q k := by
  rw [Shown, hw.waitable]
  exact h.imp_right fun ⟨hk, hr, hnot⟩ => ⟨hk, hr, fun hmem => hnot (hw.waiting hmem)⟩

omit [DecidableEq Q] [LinearOrder W] in
/-- The fiber is taken, for the first time. -/
theorem Pending.freed (h : Pending s f c) (hs : s.Tracked) (ht : t.Tracked)
    (hf : f ∈ s.queue c.queue) (hfreed : Freed f t) (hshown : Shown t c.alarm c.queue k) :
    Progress t f c.queue c.alarm (c.note k f s t).takings := by
  cases h.progress with
  | blocked hnone hq hw hr =>
      refine .taken k ?_ hfreed.queue hshown
      rw [note_of_freed hs ht hf hfreed, hnone]
      rfl
  | taken k' hone hnot hk => exact absurd hf (hnot c.queue)

omit [DecidableEq Q] [LinearOrder W] in
/-- The step lemma for one call. -/
theorem Pending.passes (h : Pending s f c) (hs : s.Tracked) (ht : t.Tracked)
    (hp : Passes k f c.queue c.alarm s t) : Pending t f (c.note k f s t) := by
  cases hp with
  | ignored hign =>
      rw [note_of_imp (hign.queue c.queue).2]
      refine ⟨hign.frame.trans h.frame, (congrArg _ hign.waitable).trans h.kind, ?_⟩
      refine h.progress.of_unmoved hign.toUnmoved (fun hr => ?_) fun k hk =>
        hk.of_apart hign.toApart
      rwa [hign.waitable]
  | requested q' hf hk hfreed hw hframe =>
      have hq : q' = c.queue := by
        cases h.progress with
        | blocked hnone hq hw hr =>
            obtain ⟨hat, -⟩ := hs.consistent.of_mem_queue hf
            exact Place.queued.inj ((hat.queued c.queue).1 hq)
        | taken k' hone hnot hk' => exact absurd hf (hnot q')
      subst hq
      have hrang : (t.waitable c.alarm).rang = false := by
        rw [hw.waitable]
        cases h.progress with
        | blocked hnone hq hw hr => exact hr
        | taken k' hone hnot hk' => exact absurd hf (hnot c.queue)
      refine ⟨?_, ?_, ?_⟩
      · rw [note_alarm, hframe, h.frame]
      · rw [note_alarm, note_queue, hw.waitable, h.kind]
      · rw [note_alarm, note_queue]
        exact h.freed hs ht hf hfreed (.inl ⟨hk, hrang⟩)
  | expired hmem hkind hw hframe hrang =>
      refine ⟨?_, ?_, ?_⟩
      · rw [note_alarm, hframe, h.frame]
      · rw [note_alarm, note_queue, hkind]
      · rw [note_alarm, note_queue]
        obtain ⟨hf, hk, hfreed, hrang⟩ | ⟨hun, hrang⟩ := hrang
        · exact h.freed hs ht hf hfreed (.inr ⟨hk, hrang, hw⟩)
        · rw [note_of_imp (hun.queue c.queue).2]
          refine h.progress.of_unmoved hun (fun _ => hrang) ?_
          -- The alarm did not ring before, as it was still in the waiting list.
          rintro k (⟨hk, -⟩ | ⟨-, -, hnot⟩)
          · exact .inl ⟨hk, hrang⟩
          · exact absurd hmem hnot

omit [DecidableEq F] [DecidableEq Q] [LinearOrder W] in
/-- The current fiber runs. -/
def Runs (s : Worker F Q W) : Prop :=
  ∀ f, s.currentFiber = some f → (s.fiber (some f)).state = .running

/-- What holds in every state of an observed run. -/
structure Kept (o : Observed F Q W) : Prop where
  tracked : o.worker.Tracked
  runs : Runs o.worker
  calls : ∀ f w, o.worker.frame f = .alarm w → ∃ c, o.call f = some c ∧ c.alarm = w
  pending : ∀ f c, o.call f = some c → Pending o.worker f c
  returned : ∀ r ∈ o.returns, r.Arbitrated

variable {created : Contexts F} {waiter : F} {a : Action F Q W} {o : Observed F Q W}

/-- As long as fibers start to wait only while they can be switched away from. -/
theorem Runs.step (h : Runs s) (hs : s.Tracked) (ha : s.Switchable (.act a))
    (hstep : Worker.step created waiter s a = some t) : Runs t := by
  obtain hgoes | ⟨e, rfl⟩ := hs.step hstep
  · intro f hf
    obtain ⟨-, hst⟩ | hturn | ⟨hwaits, hdis⟩ := hgoes.2
    · exact hst.runs f (h f (hst.current ▸ hf))
    · exact hturn.running f hf
    · exact absurd (ha hwaits) hdis
  · exact h

omit [DecidableEq Q] [LinearOrder W] in
theorem watch_call_eq_some_iff :
    (o.watch a t).call f = some c ↔
      ∃ c', o.call f = some c' ∧ c'.note (taker o.worker a) f o.worker t = c :=
  Option.map_eq_some_iff

omit [DecidableEq Q] [LinearOrder W] in
theorem enter_call_self (f : F) (q : Q) (w : W) (o : Observed F Q W) :
    (o.enter f q w).call f = some ⟨q, w, []⟩ := Function.update_self _ _ _

omit [DecidableEq Q] [LinearOrder W] in
theorem enter_call_of_ne {g : F} (hg : g ≠ f) (q : Q) (w : W) (o : Observed F Q W) :
    (o.enter f q w).call g = o.call g := Function.update_of_ne hg _ _

omit [DecidableEq Q] [LinearOrder W] in
/-- No call starts or ends. -/
theorem Kept.watch (h : Kept o) (ht : t.Tracked) (hruns : Runs t)
    (hp : Passing (taker o.worker a) o.worker t) : Kept (o.watch a t) where
  tracked := ht
  runs := hruns
  calls f w hf := by
    obtain ⟨c, hc, hw⟩ := h.calls f w (hp.frame f w hf)
    exact ⟨_, watch_call_eq_some_iff.2 ⟨c, hc, rfl⟩, note_alarm.trans hw⟩
  pending f c' hc' := by
    obtain ⟨c, hc, rfl⟩ := watch_call_eq_some_iff.1 hc'
    have hpend := h.pending f c hc
    exact hpend.passes h.tracked ht (hp.passes f c.queue c.alarm hpend.inCall)
  returned := h.returned

omit [DecidableEq Q] [LinearOrder W] in
/-- A call of another fiber goes on. -/
theorem Kept.pending_ignored (h : Kept o) (ht : t.Tracked)
    (hign : ∀ c, o.call f = some c → Ignored f c.alarm o.worker t)
    (hc' : (o.watch a t).call f = some c) : Pending t f c := by
  obtain ⟨c, hc, rfl⟩ := watch_call_eq_some_iff.1 hc'
  exact (h.pending f c hc).passes h.tracked ht (.ignored (hign c hc))

omit [DecidableEq Q] [LinearOrder W] in
/-- A call starts. -/
theorem Kept.enter (h : Kept o) (ht : t.Tracked) (hruns : Runs t) {q : Q} {w : W}
    (hin : Entered f q w o.worker t)
    (hign : ∀ g c, g ≠ f → o.call g = some c → Ignored g c.alarm o.worker t) :
    Kept ((o.watch a t).enter f q w) where
  tracked := ht
  runs := hruns
  calls g v hg := by
    have hg : t.frame g = .alarm v := hg
    rw [hin.frame] at hg
    by_cases hgf : g = f
    · subst hgf
      rw [Function.update_self] at hg
      exact ⟨⟨q, w, []⟩, enter_call_self g q w (o.watch a t), Frame.alarm.inj hg⟩
    · rw [Function.update_of_ne hgf] at hg
      obtain ⟨c, hc, hv⟩ := h.calls g v hg
      rw [enter_call_of_ne hgf]
      exact ⟨_, watch_call_eq_some_iff.2 ⟨c, hc, rfl⟩, note_alarm.trans hv⟩
  pending g c hc := by
    by_cases hgf : g = f
    · subst hgf
      rw [enter_call_self] at hc
      obtain rfl := Option.some.inj hc
      have hframe : t.frame g = .alarm w := by
        rw [hin.frame, Function.update_self]
      exact ⟨hframe, hin.kind, .blocked rfl hin.queue hin.waits hin.rang⟩
    · rw [enter_call_of_ne hgf] at hc
      exact h.pending_ignored ht (fun c => hign g c hgf) hc
  returned := h.returned

omit [DecidableEq Q] in
theorem leave_call_self (f : F) (w : W) (o : Observed F Q W) : (o.leave f w).call f = none :=
  Function.update_self _ _ _

omit [DecidableEq Q] in
theorem leave_call_of_ne {g : F} (hg : g ≠ f) (w : W) (o : Observed F Q W) :
    (o.leave f w).call g = o.call g := Function.update_of_ne hg _ _

omit [DecidableEq Q] in
/-- The end of a call does not concern the others. -/
theorem ignored_leaveAlarm {g : F} (hg : g ≠ f) {v w : W} (s : Worker F Q W) :
    Ignored g v s (leaveAlarm w f s) := by
  rw [leaveAlarm, unscheduleTask_eq]
  exact .of_eq rfl rfl rfl List.mem_of_mem_erase (Function.update_of_ne hg _ _)

omit [DecidableEq Q] in
/-- The fiber goes on: it was taken before, once, and the alarm is not in the waiting list. -/
theorem Kept.return_arbitrated (h : Kept o) {w : W} (hcur : o.worker.currentFiber = some f)
    (hf : o.worker.frame f = .alarm w) :
    Return.Arbitrated ⟨(o.watch a (leaveAlarm w f o.worker)).call f, w,
      !((leaveAlarm w f o.worker).waitable w).rang,
      (leaveAlarm w f o.worker).waiting.contains w⟩ := by
  obtain ⟨c, hc, rfl⟩ := h.calls f w hf
  have hpend := h.pending f c hc
  rw [leaveAlarm, unscheduleTask_eq]
  have hwaiting : c.alarm ∉ o.worker.waiting.erase c.alarm :=
    h.tracked.consistent.nodups.waiting.not_mem_erase
  cases hpend.progress with
  | blocked ht hq hw hr =>
      rw [h.runs f hcur] at hw
      cases hw
  | taken k ht hq hk =>
      refine ⟨c, k, ?_, rfl, ht, ?_, ?_, ?_⟩
      · refine watch_call_eq_some_iff.2 ⟨c, hc, note_of_imp fun hmem => absurd hmem (hq _)⟩
      · exact hk.symm.imp And.left And.left
      · obtain ⟨rfl, hr⟩ | ⟨rfl, hr, -⟩ := hk
        · simp [setFrame, hr]
        · simp [setFrame, hr]
      · rw [List.contains_eq_mem]
        exact decide_eq_false hwaiting

omit [DecidableEq Q] in
/-- A call ends. -/
theorem Kept.leave (h : Kept o) {w : W} (hcur : o.worker.currentFiber = some f)
    (hf : o.worker.frame f = .alarm w) (ht : (leaveAlarm w f o.worker).Tracked)
    (hruns : Runs (leaveAlarm w f o.worker)) :
    Kept ((o.watch a (leaveAlarm w f o.worker)).leave f w) where
  tracked := ht
  runs := hruns
  calls g v hg := by
    have hgf : g ≠ f := by
      rintro rfl
      simp [Observed.leave, Observed.watch, leaveAlarm, setFrame] at hg
    have hign : Ignored g v o.worker (leaveAlarm w f o.worker) := ignored_leaveAlarm hgf o.worker
    obtain ⟨c, hc, hv⟩ := h.calls g v (hign.frame.symm.trans hg)
    rw [leave_call_of_ne hgf]
    exact ⟨_, watch_call_eq_some_iff.2 ⟨c, hc, rfl⟩, note_alarm.trans hv⟩
  pending g c hc := by
    by_cases hgf : g = f
    · subst hgf
      rw [leave_call_self] at hc
      cases hc
    · rw [leave_call_of_ne hgf] at hc
      exact h.pending_ignored ht (fun c _ => ignored_leaveAlarm hgf o.worker) hc
  returned r hr := by
    obtain hr | hr := List.mem_append.1 hr
    · exact h.returned r hr
    · obtain rfl := List.mem_singleton.1 hr
      exact h.return_arbitrated hcur hf

/-- The beginning of a call of `block_`, if it can happen. -/
theorem perform_blockUntil {q : Q} {w : W} {timeout now : ℕ} {x : Except Fault (Worker F Q W)}
    (hx : perform created waiter s (.blockUntil q w timeout now) = some x) :
    ∃ f, s.inUserCode = true ∧ s.currentFiber = some f ∧ (now < timeout → isFree w s = true ∧
      x = (blockUntil created waiter q w timeout f now s).map Prod.fst) := by
  obtain ⟨f, huser, hcur, hx⟩ := performFiber_of_user hx
  refine ⟨f, huser, hcur, fun htimeout => ?_⟩
  simp only [performFiber] at hx
  rw [if_neg (Nat.not_le.2 htimeout)] at hx
  obtain ⟨hfree, hx⟩ := Option.ite_none_right_eq_some.1 hx
  exact ⟨hfree, (Option.some.inj hx).symm⟩

/-- The end of a call, if it can happen. -/
theorem perform_leaveAlarm {x : Except Fault (Worker F Q W)}
    (hx : perform created waiter s .leaveAlarm = some x) :
    ∃ f w, s.currentFiber = some f ∧ s.frame f = .alarm w ∧ x = .ok (leaveAlarm w f s) := by
  simp only [perform] at hx
  split at hx
  · cases hx
  · rename_i f hcur
    split at hx
    · rename_i w hw
      exact ⟨f, w, hcur, hw, (Option.some.inj hx).symm⟩
    · cases hx

/-- The observer sees no call that starts or ends. -/
theorem after_eq_watch {x : Except Fault (Worker F Q W)}
    (hx : perform created waiter o.worker a = some x) (hleave : a ≠ .leaveAlarm)
    (hp : Passing k o.worker t) : o.after a t = o.watch a t := by
  unfold Observed.after
  split
  · rename_i q w timeout now f hcur
    obtain ⟨g, huser, hcur', -⟩ := perform_blockUntil hx
    obtain rfl := Option.some.inj (hcur.symm.trans hcur')
    split
    · rename_i v hv
      exact absurd (hp.frame f v hv) (frame_of_inUserCode hcur huser v)
    · rfl
  · exact absurd rfl hleave
  · rfl

/-- A call of `block_` that did start. -/
theorem Kept.step_blockUntil (h : Kept o) {q : Q} {w : W} {timeout now : ℕ}
    (htimeout : now < timeout)
    (hx : perform created waiter o.worker (.blockUntil q w timeout now) = some (.ok t))
    (ht : t.Tracked) (hruns : Runs t) : Kept (o.after (.blockUntil q w timeout now) t) := by
  obtain ⟨f, huser, hcur, hx⟩ := perform_blockUntil hx
  obtain ⟨hfree, hx⟩ := hx htimeout
  obtain ⟨howner, -⟩ := isFree_iff.1 hfree
  have hin : Entered f q w o.worker t := by
    have henter := blockUntil_entered h.tracked created waiter q w timeout hcur (h.runs f hcur)
      now
    exact (henter.map (R := Entered f q w o.worker) fun _ hy => hy).ok hx.symm
  have hframe : t.frame f = .alarm w := by
    rw [hin.frame, Function.update_self]
  simp only [Observed.after, hcur, hframe]
  refine h.enter ht hruns hin fun g c hgf hc => ?_
  have hne : c.alarm ≠ w := by
    rintro rfl
    rw [h.tracked.alarms.frame g c.alarm (h.pending g c hc).frame] at howner
    cases howner
  have hign := ignores_blockUntil (f := g) created waiter q hne timeout (Ne.symm hgf) now o.worker
  exact (hign.map (R := Ignored g c.alarm o.worker) fun _ hy => hy).ok hx.symm

/-- The step lemma. -/
theorem Kept.step (h : Kept o) (ha : o.worker.Switchable (.act a)) {o' : Observed F Q W}
    (hstep : step created waiter o a = some o') : Kept o' := by
  obtain ⟨t, ht, rfl⟩ := Option.map_eq_some_iff.1 hstep
  have htracked : t.Tracked := Tracked.act (d := .act a) h.tracked ht
  have hruns := h.runs.step h.tracked ha ht
  have hpass : ∀ x, perform created waiter o.worker a = some x → a ≠ .leaveAlarm →
      Passing (taker o.worker a) o.worker t → Kept (o.after a t) := by
    intro x hx hleave hp
    rw [after_eq_watch hx hleave hp]
    exact h.watch htracked hruns hp
  obtain ⟨-, hx | ⟨e, hx, rfl⟩⟩ := step_eq_some_iff.1 ht
  · cases a with
    | leaveAlarm =>
        obtain ⟨f, w, hcur, hf, hx⟩ := perform_leaveAlarm hx
        obtain rfl := Except.ok.inj hx
        simp only [Observed.after, hcur, hf]
        exact h.leave hcur hf htracked hruns
    | blockUntil q w timeout now =>
        by_cases htimeout : now < timeout
        · exact h.step_blockUntil htimeout hx htracked hruns
        · refine hpass _ hx (by simp) ((perform_passing h.tracked hx ?_ (by simp)).ok rfl)
          rintro q' w' timeout' now' ⟨⟩
          exact Nat.not_lt.1 htimeout
    | _ =>
        refine hpass _ hx (by simp) ((perform_passing h.tracked hx ?_ (by simp)).ok rfl)
        rintro q' w' timeout' now' ⟨⟩
  · have hquiet : Quiet o.worker { o.worker with fault := some e } :=
      ⟨fun _ _ hg => hg, fun _ _ _ _ => .of_eq rfl rfl rfl (fun hmem => hmem) rfl⟩
    refine hpass _ hx ?_ hquiet.passing
    rintro rfl
    obtain ⟨f, w, -, -, hx⟩ := perform_leaveAlarm hx
    cases hx

omit [DecidableEq Q] [LinearOrder W] in
theorem kept_start (waiter : F) (waitable : W → Waitable F Q) : Kept (start waiter waitable) where
  tracked := tracked_init waiter waitable
  runs f hf := by cases hf
  calls f w hf := by
    have := (tracked_init waiter waitable).alarms.frame f w hf
    cases this
  pending f c hc := by cases hc
  returned r hr := by cases hr

omit [LinearOrder W] in
/-- A fiber that is in no queue. -/
theorem passedBy_of_not_mem (h : s.Tracked) (hf : ∀ q, f ∉ s.queue q) : PassedBy s f := by
  refine ⟨hf, fun q prio => ?_, fun q prio g gs hq => ⟨?_, ?_⟩⟩
  · rw [unblock, if_neg (hf q)]
  · rintro rfl
    exact hf q (by simp [hq])
  · have hnodup := h.consistent.nodups.queue q
    rw [hq] at hnodup
    have hhead : (wakeFiber g prio (setLinked g false (s.setQueue q gs))).Sat (fun _ => True)
        fun t => g ∉ t.queue q := by
      refine (added_wakeFiber g prio _).mono fun t ht => ?_
      have hqueue : t.queue q = gs := (congrFun ht.queue q).trans (Function.update_self _ _ _)
      rw [hqueue]
      exact (List.nodup_cons.1 hnodup).1
    rw [unblockFirst, hq]
    exact hhead

omit [LinearOrder W] in
theorem Kept.arbitrated (h : Kept o) : o.Arbitrated where
  calls := h.calls
  pending f c hc := by
    cases (h.pending f c hc).progress with
    | blocked ht hq hw hr =>
        obtain ⟨hat, -⟩ := h.tracked.consistent.of_mem_queue hq
        refine .inl ⟨ht, hq, fun hrun => ?_⟩
        cases hat.runnable.1 hrun
    | taken k ht hq hk =>
        exact .inr ⟨⟨k, ht, hk.symm.imp And.left And.left⟩, passedBy_of_not_mem h.tracked hq⟩
  returned := h.returned

end Invariant

/-- In every run in which fibers start to wait only while they can be switched away from, with
any interleaving of requests and alarms: each fiber that is blocked with a timeout is taken out
of the queue and made runnable once, by its alarm or by a request; its call returns `false`
exactly if the alarm did so; and the alarm is gone when the call returned. -/
theorem arbitrated_of_switchable (created : Contexts F) (waiter : F)
    (waitable : W → Waitable F Q) (as : List (Action F Q W)) (o : Observed F Q W)
    (hg : Transition.Guarded (step created waiter) (fun o a => o.worker.Switchable (.act a))
      (start waiter waitable) as)
    (hr : Transition.run (step created waiter) (start waiter waitable) as = some o) :
    o.Arbitrated :=
  (hg.invariant (fun _ _ _ hs ha hstep => hs.step ha hstep) (kept_start waiter waitable)
    hr).arbitrated

/-- Fibers 1 and 2 block, and fiber 3 unblocks fiber 1. Before that goes on, both alarms
expire. -/
def bothDue : List (Action ℕ ℕ ℕ) :=
  [.hatch 1, .hatch 2, .hatch 3, .work 1 1, .blockUntil 0 5 100 1, .blockUntil 0 6 300 2,
    .unblockFirst 0 false, .yield none 3, .loop 400, .expire false, .expire false, .expire false,
    .decide 401, .yield none 402, .leaveAlarm, .yield none 403, .leaveAlarm]

theorem arbitrated_bothDue :
    ∃ o, Transition.run (step .all 0) (start 0 fun _ => ⟨0, none, .timed, false⟩)
        bothDue = some o ∧
      o.returns = [⟨some ⟨0, 5, [⟨.request 0, true⟩]⟩, 5, true, false⟩,
        ⟨some ⟨0, 6, [⟨.alarm 6, true⟩]⟩, 6, false, false⟩] ∧ o.Arbitrated := by
  refine ⟨_, rfl, rfl, arbitrated_of_switchable .all 0
    (fun _ => ⟨0, none, .timed, false⟩) bothDue _ ?_ rfl⟩
  refine .cons ?_ rfl (.cons ?_ rfl (.cons ?_ rfl (.cons ?_ rfl (.cons ?_ rfl (.cons ?_ rfl
    (.cons ?_ rfl (.cons ?_ rfl (.cons ?_ rfl (.cons ?_ rfl (.cons ?_ rfl (.cons ?_ rfl
    (.cons ?_ rfl (.cons ?_ rfl (.cons ?_ rfl (.cons ?_ rfl (.cons ?_ rfl trivial))))))))))))))))
  all_goals exact fun _ => rfl

end Arbitration

end Zth
