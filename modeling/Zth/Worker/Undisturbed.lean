import Zth.Worker.Bystander
import Zth.Worker.Kill

/-!
# The alarms of the others

An action of a worker that does not use a queue disturbs nobody in it: the queue stays as it is,
as do the fibers that are not blocked and the alarms that are set. The one exception is the
waiter, when it finds that an alarm of that queue is due: it takes the fiber of the alarm out of
the queue, if it is still there, and nothing else happens.
-/

namespace Zth

/-- The queue that an action uses. -/
def Action.queue {F Q W : Type*} : Action F Q W → Option Q
  | .block q _ | .blockUntil q _ _ _ | .unblock q _ _ | .unblockFirst q _ | .unblockAll q _ =>
      some q
  | _ => none

namespace Worker

variable {F Q W : Type*} {p : Q → Prop} {c : Option F}

/-- The alarm of the block with timeout that the fiber is in has unblocked it. -/
def rung (s : Worker F Q W) (f : F) : Bool :=
  match s.frame f with
  | .alarm w => (s.waitable w).rang
  | _ => false

theorem rung_of_alarm {s : Worker F Q W} {f : F} {w : W} (h : s.frame f = .alarm w) :
    s.rung f = (s.waitable w).rang := by
  rw [rung, h]

theorem rung_of_user {s : Worker F Q W} {f : F} (h : s.frame f = .user) : s.rung f = false := by
  rw [rung, h]

theorem rung_congr {s t : Worker F Q W} {f : F} (hframe : t.frame f = s.frame f)
    (hrang : ∀ w, s.frame f = .alarm w → (t.waitable w).rang = (s.waitable w).rang) :
    t.rung f = s.rung f := by
  rw [rung, rung, hframe]
  split
  · rename_i w hw
    exact hrang w hw
  · rfl

/-- The waitable is an alarm of the fiber, for a queue that `p` does not tell. -/
def Elsewhere (p : Q → Prop) (s : Worker F Q W) (f : F) : Prop :=
  ∃ w q, w ∈ s.waiting ∧ (s.waitable w).kind = .alarm q f ∧ ¬ p q

/-- The alarm is one that was set before. -/
structure SameAlarm (s t : Worker F Q W) (w : W) : Prop where
  waiting : w ∈ s.waiting
  kind : (t.waitable w).kind = (s.waitable w).kind
  rang : (t.waitable w).rang = (s.waitable w).rang

/-- Beside the fiber `c`, and those that wait in other queues, no fiber is disturbed. -/
structure Aside (p : Q → Prop) (c : Option F) (s t : Worker F Q W) : Prop extends
  Beside p c s t where
  rung : ∀ f, some f ≠ c → t.rung f = s.rung f ∨ Elsewhere p s f
  alarm : ∀ w q f, w ∈ t.waiting → (t.waitable w).kind = .alarm q f → SameAlarm s t w ∨
    (some f = c ∧ ¬ p q ∧ (t.waitable w).rang = false)

theorem Aside.after {s t u : Worker F Q W} (h : Aside p c t u) (hst : Aside p c s t) :
    Aside p c s u := by
  refine ⟨h.toBeside.after hst.toBeside, fun f hf => ?_, fun w q f hw hk => ?_⟩
  · rcases h.rung f hf with h' | ⟨w, q, hw, hk, hq⟩
    · rw [h']
      exact hst.rung f hf
    · rcases hst.alarm w q f hw hk with hsame | ⟨hc, -⟩
      · exact .inr ⟨w, q, hsame.waiting, hsame.kind ▸ hk, hq⟩
      · exact absurd hc hf
  · rcases h.alarm w q f hw hk with hsame | hnew
    · rcases hst.alarm w q f hsame.waiting (hsame.kind ▸ hk) with hsame' | ⟨hc, hq, hrang⟩
      · exact .inl ⟨hsame'.waiting, hsame.kind.trans hsame'.kind, hsame.rang.trans hsame'.rang⟩
      · exact .inr ⟨hc, hq, hsame.rang.trans hrang⟩
    · exact .inr hnew

/-- Waitables may leave the waiting list, and change in what no alarm is about. -/
theorem Aside.of_waitable {s t : Worker F Q W} (h : Beside p c s t)
    (hframe : ∀ f, some f ≠ c → t.frame f = s.frame f) (hwaiting : t.waiting ⊆ s.waiting)
    (hkind : ∀ w ∈ s.waiting, (t.waitable w).kind = (s.waitable w).kind)
    (hrang : ∀ w ∈ s.waiting, (t.waitable w).rang = (s.waitable w).rang)
    (hused : ∀ f w, some f ≠ c → s.frame f = .alarm w →
      (t.waitable w).rang = (s.waitable w).rang) : Aside p c s t :=
  ⟨h, fun f hf => .inl (rung_congr (hframe f hf) fun w => hused f w hf),
    fun w _ _ hw _ => .inl ⟨hwaiting hw, hkind w (hwaiting hw), hrang w (hwaiting hw)⟩⟩

/-- The waitables are the same. -/
theorem Aside.of_eq {s t : Worker F Q W} (h : Beside p c s t)
    (hframe : ∀ f, some f ≠ c → t.frame f = s.frame f) (hwaiting : t.waiting ⊆ s.waiting)
    (hv : t.waitable = s.waitable) : Aside p c s t :=
  Aside.of_waitable h hframe hwaiting (fun w _ => by rw [hv]) (fun w _ => by rw [hv])
    fun _ w _ _ => by rw [hv]

theorem Aside.refl (s : Worker F Q W) : Aside p c s s :=
  .of_eq (.refl s) (fun _ _ => rfl) (fun _ h => h) rfl

theorem Beside.aside {s t : Worker F Q W} (h : Beside p c s t) (hrest : FibersOnly s t) :
    Aside p c s t := by
  obtain ⟨hv, hw, hframe⟩ := hrest.same
  exact .of_eq h (fun f _ => by rw [hframe]) (by rw [hw]; exact fun _ h => h) hv

/-- Whatever the computation returns, nobody was disturbed. -/
def DisturbsNobody (p : Q → Prop) (c : Option F) (s : Worker F Q W)
    (x : Except Fault (Worker F Q W)) : Prop :=
  x.Sat (fun _ => True) (Aside p c s)

theorem LeavesAlone.disturbsNobody {s : Worker F Q W} {x : Except Fault (Worker F Q W)}
    (h : LeavesAlone p c s x) (hrest : KeepsRest s x) : DisturbsNobody p c s x :=
  (Except.Sat.and h hrest).mono fun _ ht => ht.1.aside ht.2

variable [DecidableEq F]

theorem aside_schedule (created : Contexts F) (prefer : Option (Option F)) (now : ℕ)
    (s : Worker F Q W) :
    (schedule created prefer now s).Sat (fun _ => True) fun x => Aside p c s x.1 :=
  ((beside_schedule created prefer now s).and (rescheduled_schedule created prefer now s)).mono
    fun _ hx => hx.1.aside hx.2.fibersOnly

theorem disturbsNobody_schedule (created : Contexts F) (prefer : Option (Option F)) (now : ℕ)
    (s : Worker F Q W) :
    DisturbsNobody p c s ((schedule created prefer now s).map Prod.fst) :=
  (aside_schedule created prefer now s).map fun _ hx => hx

theorem disturbsNobody_resume (f : F) (s : Worker F Q W) :
    DisturbsNobody p c s (resume f s) :=
  (leavesAlone_resume f s).disturbsNobody (keepsRest_resume f s)

theorem disturbsNobody_wakeFiber (f : F) (prio : Bool) (s : Worker F Q W) :
    DisturbsNobody p c s (wakeFiber f prio s) :=
  (leavesAlone_wakeFiber f prio s).disturbsNobody (keepsRest_add_setFiber f prio _ s)

/-- The frame of the fiber `c` may change in any way. -/
theorem Aside.setFrame (f : F) (frame : Frame W) (s : Worker F Q W) :
    Aside p (some f) s (s.setFrame f frame) := by
  refine .of_eq (.of_eq rfl rfl) (fun g hg => ?_) (fun _ h => h) rfl
  exact Function.update_of_ne (fun hgf => hg (congrArg some hgf)) _ _

section Waiter

variable [LinearOrder W] {s : Worker F Q W}

omit [DecidableEq F] in
theorem Aside.eraseWaiting (w : W) (s : Worker F Q W) : Aside p c s (s.eraseWaiting w) :=
  .of_eq (.of_eq rfl rfl) (fun _ _ => rfl) (fun _ hv => List.mem_of_mem_erase hv) rfl

omit [DecidableEq F] in
/-- The fiber of a waitable, or its timeout, changes. -/
theorem Aside.setWaitable (w : W) {v : Waitable F Q} (s : Worker F Q W)
    (hkind : v.kind = (s.waitable w).kind) (hrang : v.rang = (s.waitable w).rang) :
    Aside p c s (s.setWaitable w v) := by
  have hkind' : ∀ u, ((s.setWaitable w v).waitable u).kind = (s.waitable u).kind := by
    intro u
    by_cases hu : u = w
    · subst hu
      rw [← hkind]
      exact congrArg Waitable.kind (Function.update_self _ _ _)
    · exact congrArg Waitable.kind (Function.update_of_ne hu _ _)
  have hrang' : ∀ u, ((s.setWaitable w v).waitable u).rang = (s.waitable u).rang := by
    intro u
    by_cases hu : u = w
    · subst hu
      rw [← hrang]
      exact congrArg Waitable.rang (Function.update_self _ _ _)
    · exact congrArg Waitable.rang (Function.update_of_ne hu _ _)
  exact .of_waitable (.of_eq rfl rfl) (fun _ _ => rfl) (fun _ h => h) (fun u _ => hkind' u)
    (fun u _ => hrang' u) fun _ u _ _ => hrang' u

omit [DecidableEq F] in
/-- A waitable that is not in use changes. -/
theorem Aside.setFree (h : s.Alarms) {w : W} (hfree : isFree w s = true) (v : Waitable F Q) :
    Aside p c s (s.setWaitable w v) := by
  obtain ⟨howner, hw⟩ := isFree_iff.1 hfree
  have hne : ∀ u ∈ s.waiting, u ≠ w := by
    rintro u hu rfl
    exact hw hu
  refine .of_waitable (.of_eq rfl rfl) (fun _ _ => rfl) (fun _ h => h)
    (fun u hu => congrArg Waitable.kind (Function.update_of_ne (hne u hu) _ _))
    (fun u hu => congrArg Waitable.rang (Function.update_of_ne (hne u hu) _ _)) ?_
  intro f u _ hf
  have hu : u ≠ w := by
    rintro rfl
    rw [h.frame f u hf] at howner
    cases howner
  exact congrArg Waitable.rang (Function.update_of_ne hu _ _)

omit [DecidableEq F] in
/-- A waitable joins the waiting list that is no alarm, or one of the fiber `c` for another
queue. -/
theorem disturbsNobody_insertWaiting {w : W}
    (hkind : ∀ q f, (s.waitable w).kind = .alarm q f →
      some f = c ∧ ¬ p q ∧ (s.waitable w).rang = false) :
    DisturbsNobody p c s (insertWaiting w s) := by
  rw [insertWaiting]
  split
  · trivial
  · refine ⟨.of_eq rfl rfl, fun f _ => .inl rfl, fun v q f hv hk => ?_⟩
    rcases (List.mem_orderedInsert _).1 hv with rfl | hv
    · exact .inr (hkind q f hk)
    · exact .inl ⟨hv, rfl, rfl⟩

theorem disturbsNobody_scheduleTask (waiter : F) {w : W}
    (hkind : ∀ q f, (s.waitable w).kind = .alarm q f →
      some f = c ∧ ¬ p q ∧ (s.waitable w).rang = false) :
    DisturbsNobody p c s (scheduleTask waiter w s) := by
  refine Except.Sat.bind (disturbsNobody_insertWaiting hkind) fun t ht => ?_
  exact (disturbsNobody_resume waiter t).mono fun _ hu => hu.after ht

/-- The fiber `c` leaves the worker's queues for a waitable, which is no alarm. -/
theorem disturbsNobody_enterWaiting (waiter : F) {w : W} (f : F)
    (hkind : ∀ q g, (s.waitable w).kind ≠ .alarm q g) :
    DisturbsNobody p (some f) s (enterWaiting waiter w f s) := by
  have hset : Aside p (some f) s
      (s.setWaitable w { s.waitable w with fiber := some f }) := .setWaitable w s rfl rfl
  have hnap : ∀ t : Worker F Q W,
      Aside p (some f) t (t.setFiber (some f) (t.fiber (some f)).nap) :=
    fun t => (Beside.setFiber t fun hne => absurd rfl hne).aside rfl
  rw [enterWaiting]
  refine Except.Sat.bind
    ((leavesAlone_release (p := p) (c := some f) f _).and (keepsRest_release f _))
    fun t ht => ?_
  have hv : (t.waitable w).kind = (s.waitable w).kind := by
    rw [ht.2.same.1]
    simp [Worker.setFiber, Worker.setWaitable]
  have hall := (ht.1.aside ht.2).after ((hnap _).after hset)
  refine (disturbsNobody_scheduleTask waiter fun q g hk => ?_).mono fun _ hu => hu.after hall
  rw [hv] at hk
  exact absurd hk (hkind q g)

/-- `Waiter::wakeup` of a waitable. -/
theorem disturbsNobody_wakeup (w : W) (s : Worker F Q W) :
    DisturbsNobody p c s (wakeup w s) := by
  rw [wakeup]
  split
  · dsimp only
    split
    · exact .eraseWaiting w s
    · refine (disturbsNobody_wakeFiber (p := p) (c := c) _ true _).map fun t ht => ?_
      have hset : Aside p c t (t.setWaitable w { t.waitable w with fiber := none }) :=
        .setWaitable w t rfl rfl
      exact hset.after (ht.after (.eraseWaiting w s))
  · exact .refl s

section Synchronizer

variable [DecidableEq Q]

/-- A waitable that is no alarm is polled. -/
theorem aside_poll {w : W} (hkind : ∀ q g, (s.waitable w).kind ≠ .alarm q g)
    (fired : Bool) (now : ℕ) :
    (poll w fired now s).Sat (fun _ => True) fun x => Aside p c s x.1 ∧
      ∀ q g, (x.1.waitable w).kind ≠ .alarm q g := by
  rw [poll]
  dsimp only
  split
  · exact ⟨.refl s, hkind⟩
  · rename_i interval hk
    split
    · exact ⟨.refl s, hkind⟩
    · refine ⟨.setWaitable w s rfl rfl, fun q g => ?_⟩
      simp [Worker.setWaitable, hk]
  · rename_i q g hk
    exact absurd hk (hkind q g)

/-- `Waiter::wait` by the fiber `c`. -/
theorem aside_wait (created : Contexts F) (waiter : F) {w : W} (f : F)
    (hkind : ∀ q g, (s.waitable w).kind ≠ .alarm q g) (fired slice : Bool) (now now' : ℕ) :
    (wait created waiter w fired slice f now now' s).Sat (fun _ => True)
      fun x => Aside p (some f) s x.1 := by
  rw [wait]
  split
  · exact .refl s
  · refine (aside_poll (p := p) (c := some f) hkind fired now).bind ?_
    rintro ⟨t, _ | _⟩ ⟨ht, hkind⟩
    · refine Except.Sat.bind (disturbsNobody_enterWaiting (p := p) waiter f hkind)
        fun u hu => ?_
      exact (aside_schedule created none now' u).mono fun _ hx => hx.after (hu.after ht)
    · dsimp only
      split
      · exact (aside_schedule created none now t).mono fun _ hx => hx.after ht
      · exact ht

/-- A block with timeout by the fiber `c`, in another queue. -/
theorem aside_blockUntil (h : s.Alarms) (created : Contexts F) (waiter : F) {q : Q}
    (hq : ¬ p q) {w : W} (hfree : isFree w s = true) (timeout : ℕ) (f : F) (now : ℕ) :
    (blockUntil created waiter q w timeout f now s).Sat (fun _ => True)
      fun x => Aside p (some f) s x.1 := by
  refine Except.Sat.bind ((leavesAlone_enterQueue hq f s).and (keepsRest_enterQueue q f s))
    fun t ht => ?_
  have hst := ht.1.aside ht.2
  have ht' : t.owner = s.owner ∧ t.waiting = s.waiting ∧ t.frame = s.frame := by
    have hrest := ht.2
    rw [FibersOnly] at hrest
    rw [hrest]
    exact ⟨rfl, rfl, rfl⟩
  obtain ⟨howner, hw⟩ := isFree_iff.1 hfree
  have hset : Aside p (some f) t { (t.setWaitable w ⟨timeout, none, .alarm q f, false⟩).setFrame
      f (.alarm w) with owner := Function.update t.owner w (some f) } := by
    have hne : ∀ u ∈ t.waiting, u ≠ w := by
      rintro u hu rfl
      exact hw (ht'.2.1 ▸ hu)
    refine .of_waitable (.of_eq rfl rfl) (fun g hg => ?_) (fun _ h => h)
      (fun u hu => congrArg Waitable.kind (Function.update_of_ne (hne u hu) _ _))
      (fun u hu => congrArg Waitable.rang (Function.update_of_ne (hne u hu) _ _)) ?_
    · exact Function.update_of_ne (fun hgf => hg (congrArg some hgf)) _ _
    · intro g u _ hg
      rw [ht'.2.2] at hg
      have hu : u ≠ w := by
        rintro rfl
        rw [h.frame g u hg] at howner
        cases howner
      exact congrArg Waitable.rang (Function.update_of_ne hu _ _)
  refine Except.Sat.bind (disturbsNobody_scheduleTask (c := some f) (p := p) waiter
    fun q' g hk => ?_) fun u hu => ?_
  · simp only [Worker.setFrame, Worker.setWaitable, Function.update_self] at hk ⊢
    cases hk
    exact ⟨rfl, hq, trivial⟩
  · exact (aside_schedule created none now u).mono fun _ hx =>
      hx.after (hu.after (hset.after hst))

omit [DecidableEq F] [DecidableEq Q] in
/-- A waitable is put back, with another timeout perhaps. -/
theorem disturbsNobody_reinsert {w : W} (hw : w ∈ s.waiting) {v : Waitable F Q}
    (hkind : v.kind = (s.waitable w).kind) (hrang : v.rang = (s.waitable w).rang) :
    DisturbsNobody p c s (insertWaiting w ((s.eraseWaiting w).setWaitable w v)) := by
  have hset : Aside p c s (s.setWaitable w v) := .setWaitable w s hkind hrang
  rw [insertWaiting]
  split
  · trivial
  · refine ⟨.of_eq rfl rfl, fun f hf => hset.rung f hf, fun u q f hu hk => ?_⟩
    have hu : u ∈ s.waiting := by
      rcases (List.mem_orderedInsert _).1 hu with rfl | hu
      · exact hw
      · exact List.mem_of_mem_erase hu
    exact (hset.alarm u q f hu hk).imp_left fun h => ⟨h.1, h.2, h.3⟩

omit [DecidableEq Q] in
/-- A waitable that has expired is over: it wakes its fiber, if it has one. -/
theorem disturbsNobody_expired (w : W) {x : Except Fault (Worker F Q W)}
    (hnone : (s.waitable w).fiber = none → x = .ok (s.eraseWaiting w))
    (hsome : ∀ g, (s.waitable w).fiber = some g → x = wakeFiber g true (s.eraseWaiting w)) :
    DisturbsNobody p c s x := by
  cases hg : (s.waitable w).fiber with
  | none =>
      rw [hnone hg]
      exact .eraseWaiting w s
  | some g =>
      rw [hsome g hg]
      exact (disturbsNobody_wakeFiber g true _).mono fun _ ht => ht.after (.eraseWaiting w s)

/-- The alarm of the fiber takes it out of a queue that `p` tells, and disturbs nobody else. -/
structure Rang (p : Q → Prop) (q : Q) (f : F) (s t : Worker F Q W) : Prop where
  own : p q
  mem : f ∈ s.queue q
  set : ∃ w ∈ s.waiting, (s.waitable w).kind = .alarm q f
  queue : t.queue = Function.update s.queue q ((s.queue q).erase f)
  unblocked : ∀ g, (s.fiber (some g)).Unblocked ∨ g = f → (t.fiber (some g)).Unblocked
  rung_self : t.rung f = true
  rung : ∀ g, g ≠ f → t.rung g = s.rung g
  alarm : ∀ v ∈ t.waiting, SameAlarm s t v

omit [LinearOrder W] [DecidableEq F] [DecidableEq Q] in
/-- An alarm that is set is the frame of its fiber only. -/
theorem Tracked.alarm_unique (h : s.Tracked) {w : W} (hw : w ∈ s.waiting) {q : Q} {f g : F}
    (hk : (s.waitable w).kind = .alarm q f) (hg : s.frame g = .alarm w) : g = f := by
  have hf := h.alarms.frame f w (h.rings w q f hw hk)
  rw [h.alarms.frame g w hg] at hf
  exact Option.some.inj hf

omit [LinearOrder W] in
/-- A fiber that waits in a queue is taken out of it and woken. -/
theorem Tracked.take_mem (h : s.Tracked) {q : Q} {f : F} (hf : f ∈ s.queue q)
    (hw : (s.fiber (some f)).state = .waiting) (prio : Bool) :
    (Worker.wakeFiber f prio (setLinked f false (s.setQueue q ((s.queue q).erase f)))).Sat
      (fun _ => True) fun t =>
        t.queue = Function.update s.queue q ((s.queue q).erase f) ∧
        ∀ g, (s.fiber (some g)).Unblocked ∨ g = f → (t.fiber (some g)).Unblocked := by
  have htake := leavesAlone_take (p := fun q' => q' ≠ q) (c := none) (not_not.2 rfl) f prio
    ((s.queue q).erase f) s
  refine ((htake.and (added_wakeFiber f prio _)).and (h.freed hf hw prio)).mono ?_
  rintro t ⟨⟨hbeside, hadded⟩, hfreed⟩
  refine ⟨hadded.queue, fun g hg => ?_⟩
  rcases hg with hg | rfl
  · exact hbeside.unblocked g (by simp) hg
  · exact .inl hfreed.ready

omit [LinearOrder W] in
/-- What a request by an alarm comes to. -/
theorem Tracked.unblock_alarm (h : s.Tracked) {q : Q} {f : F}
    (hw : f ∈ s.queue q → (s.fiber (some f)).state = .waiting) :
    (Worker.unblock q f false s).Sat (fun _ => True) fun x =>
      (p q ∧ f ∈ s.queue q ∧ x.2 = true ∧
        x.1.queue = Function.update s.queue q ((s.queue q).erase f) ∧
        ∀ g, (s.fiber (some g)).Unblocked ∨ g = f → (x.1.fiber (some g)).Unblocked) ∨
      (p q ∧ x = (s, false)) ∨ (¬ p q ∧ Beside p c s x.1) := by
  by_cases hq : p q
  · by_cases hf : f ∈ s.queue q
    · rw [Worker.unblock, if_pos hf]
      exact (h.take_mem hf (hw hf) false).map fun t ht => .inl ⟨hq, hf, rfl, ht⟩
    · rw [Worker.unblock, if_neg hf]
      exact .inr (.inl ⟨hq, rfl⟩)
  · exact (beside_unblock hq f false s).mono fun x hx => .inr (.inr ⟨hq, hx⟩)

/-- An alarm that is due. -/
theorem Tracked.aside_ring (h : s.Tracked) (hcons : s.Consistent) {w : W} (hw : w ∈ s.waiting)
    {q : Q} {f : F} (hk : (s.waitable w).kind = .alarm q f)
    (hquiet : p q → (s.waitable w).rang = false) :
    (Worker.unblock q f false (s.eraseWaiting w)).Sat (fun _ => True) fun x =>
      (((x.1.setWaitable w { x.1.waitable w with rang := x.2 }).waitable w).fiber = none) ∧
      (Aside p c s (x.1.setWaitable w { x.1.waitable w with rang := x.2 }) ∨
        Rang p q f s (x.1.setWaitable w { x.1.waitable w with rang := x.2 })) := by
  have hnone := h.alarms.kind w q f hw hk
  have hwaits : f ∈ s.queue q → (s.fiber (some f)).state = .waiting :=
    fun hf => (hcons.of_mem_queue hf).2.2.2.1
  refine (((h.eraseWaiting hnone).unblock_alarm (p := p) (c := c) hwaits).and
    (keepsRest_unblock q f false _)).mono ?_
  rintro ⟨t, rang⟩ ⟨htake, hrest⟩
  obtain ⟨hv, hwaiting, hframe⟩ := hrest.same
  dsimp only at htake hv hwaiting hframe ⊢
  generalize hu : t.setWaitable w { t.waitable w with rang := rang } = u
  have hself : u.waitable w = { s.waitable w with rang := rang } := by
    rw [← hu, ← show t.waitable w = s.waitable w from congrFun hv w]
    exact Function.update_self _ _ _
  have hother : ∀ v, v ≠ w → u.waitable v = s.waitable v := by
    intro v hvw
    rw [← hu, ← show t.waitable v = s.waitable v from congrFun hv v]
    exact Function.update_of_ne hvw _ _
  have huframe : u.frame = s.frame := by
    rw [← hu]
    exact hframe
  have huwaiting : u.waiting = s.waiting.erase w := by
    rw [← hu]
    exact hwaiting
  have hset : ∀ v ∈ u.waiting, SameAlarm s u v := by
    intro v hv'
    rw [huwaiting] at hv'
    have hvw : v ≠ w := by
      rintro rfl
      exact hcons.nodups.waiting.not_mem_erase hv'
    exact ⟨List.mem_of_mem_erase hv', by rw [hother v hvw], by rw [hother v hvw]⟩
  have hrung : ∀ g, g ≠ f → u.rung g = s.rung g := by
    intro g hg
    refine rung_congr (by rw [huframe]) fun v hgv => ?_
    rw [hother v fun hvw => hg (h.alarm_unique hw hk (hvw ▸ hgv))]
  refine ⟨by rw [hself]; exact hnone, ?_⟩
  rcases htake with ⟨hq, hf, rfl, hqueue, hun⟩ | ⟨hq, heq⟩ | ⟨hq, hbeside⟩
  · refine .inr ⟨hq, hf, ⟨w, hw, hk⟩, ?_, ?_, ?_, hrung, hset⟩
    · rw [← hu]
      exact hqueue
    · rw [← hu]
      exact hun
    · rw [rung_of_alarm (by rw [huframe]; exact h.rings w q f hw hk), hself]
  · cases heq
    refine .inl ?_
    rw [← hu]
    have hset' : Aside p c (s.eraseWaiting w) ((s.eraseWaiting w).setWaitable w
        { (s.eraseWaiting w).waitable w with rang := false }) :=
      .setWaitable w _ rfl (hquiet hq).symm
    exact hset'.after (.eraseWaiting w s)
  · refine .inl ⟨?_, fun g _ => ?_, fun v q' g hv' _ => .inl (hset v hv')⟩
    · have herase : Beside p c s (s.eraseWaiting w) := .of_eq rfl rfl
      rw [← hu]
      exact (hbeside.after herase).congr rfl rfl
    · by_cases hg : g = f
      · exact .inr ⟨w, q, hw, hg ▸ hk, hq⟩
      · exact .inl (hrung g hg)

/-- One round of the inner loop of the waiter. The alarm that rings may be that of a fiber in a
queue that `p` tells. -/
theorem Tracked.aside_expire (h : s.Tracked) (hcons : s.Consistent) {w : W} (hw : w ∈ s.waiting)
    (hquiet : ∀ q f, (s.waitable w).kind = .alarm q f → p q → (s.waitable w).rang = false)
    (fired : Bool) (now : ℕ) :
    (Worker.expire w fired now s).Sat (fun _ => True) fun t =>
      Aside p c s t ∨ ∃ q f, Rang p q f s t := by
  have hfiber : ((s.eraseWaiting w).waitable w).fiber = (s.waitable w).fiber := rfl
  have hback : DisturbsNobody p c s (Worker.insertWaiting w (s.eraseWaiting w)) := by
    have := disturbsNobody_reinsert (p := p) (c := c) hw (v := s.waitable w) rfl rfl
    rwa [Worker.setWaitable, show (s.eraseWaiting w).waitable = s.waitable from rfl,
      Function.update_eq_self] at this
  rw [Worker.expire, poll]
  dsimp only
  rw [show ((s.eraseWaiting w).waitable w) = s.waitable w from rfl]
  cases hk : (s.waitable w).kind with
  | timed =>
      cases decide ((s.waitable w).timeout ≤ now) with
      | true =>
          refine (disturbsNobody_expired (p := p) (c := c) w (fun hg => ?_)
            fun g hg => ?_).mono fun t ht => .inl ht <;> simp only [Except.bind, hfiber, hg]
      | false => exact hback.mono fun t ht => .inl ht
  | polled interval =>
      cases fired with
      | true =>
          refine (disturbsNobody_expired (p := p) (c := c) w (fun hg => ?_)
            fun g hg => ?_).mono fun t ht => .inl ht <;>
            simp only [Except.bind, ↓reduceIte, hfiber, hg]
      | false =>
          refine Except.Sat.mono (P := Aside p c s) ?_ fun t ht => .inl ht
          exact disturbsNobody_reinsert hw hk.symm rfl
  | alarm q f =>
      dsimp only
      split
      · refine Except.Sat.bind (P := fun x => x.2 = true ∧ (x.1.waitable w).fiber = none ∧
          (Aside p c s x.1 ∨ Rang p q f s x.1)) ?_ ?_
        · exact (h.aside_ring hcons hw hk (hquiet q f hk)).map fun x hx => ⟨rfl, hx⟩
        · rintro ⟨t, done⟩ ⟨rfl, hnone, ht⟩
          dsimp only at hnone ht ⊢
          rw [hnone]
          exact ht.imp_right fun ht => ⟨q, f, ht⟩
      · exact hback.mono fun t ht => .inl ht

/-- The alarms that are set did not ring yet. -/
def Quiet (p : Q → Prop) (s : Worker F Q W) : Prop :=
  ∀ w q f, w ∈ s.waiting → (s.waitable w).kind = .alarm q f → p q →
    (s.waitable w).rang = false

/-- What any action comes to that uses no queue that `p` tells. -/
def SparesQueues (p : Q → Prop) (s : Worker F Q W) (x : Except Fault (Worker F Q W)) : Prop :=
  x.Sat (fun _ => True) fun t => Aside p s.currentFiber s t ∨ ∃ q f, Rang p q f s t

omit [LinearOrder W] in
theorem DisturbsNobody.spares {x : Except Fault (Worker F Q W)}
    (h : DisturbsNobody p s.currentFiber s x) : SparesQueues p s x :=
  h.mono fun _ ht => .inl ht

omit [DecidableEq Q] [LinearOrder W] in
/-- The waiter has nothing to expire any more. -/
theorem disturbsNobody_decideSleep (created : Contexts F) (waiter : F) (now : ℕ)
    (s : Worker F Q W) :
    DisturbsNobody p (some waiter) s (decideSleep created waiter now s) := by
  have hset := Aside.setFrame (p := p) waiter (.sleep false) s
  rw [decideSleep]
  split
  · have hsuspend := (leavesAlone_suspend (p := p) (c := some waiter) created waiter now
      (s.setFrame waiter (.sleep false))).disturbsNobody (keepsRest_suspend created waiter now _)
    exact hsuspend.mono fun t ht => ht.after hset
  · refine (aside_schedule (p := p) (c := some waiter) created none now _).map ?_
    rintro ⟨t, _ | _⟩ ht
    · rename_i did
      cases did with
      | false => exact (Aside.setFrame waiter _ t).after (ht.after hset)
      | true => exact ht.after hset
    · exact ht.after hset

omit [LinearOrder W] [DecidableEq Q] in
/-- The running fiber ends and hands over. -/
theorem disturbsNobody_exit (created : Contexts F) (f : F) (now : ℕ) (s : Worker F Q W) :
    DisturbsNobody p (some f) s
      ((schedule created none now (s.setFiber (some f) (s.fiber (some f)).kill)).bind fun
        | (s, .switched) => .ok s
        | (_, .returned _) => .error .abort) := by
  have hkill : Aside p (some f) s (s.setFiber (some f) (s.fiber (some f)).kill) :=
    (Beside.setFiber s fun hne => absurd rfl hne).aside rfl
  refine (aside_schedule (p := p) (c := some f) created none now _).bind ?_
  rintro ⟨t, _ | _⟩ ht
  · trivial
  · exact ht.after hkill

/-- A step of the loop of the waiter. -/
theorem Tracked.spares_performWaiter (h : s.Tracked) (hcons : s.Consistent)
    (hquiet : Quiet p s) {created : Contexts F} {waiter : F}
    (hcur : s.currentFiber = some waiter) {frame : Frame W} {a : Action F Q W}
    {x : Except Fault (Worker F Q W)}
    (hx : Worker.performWaiter created waiter s frame a = some x) : SparesQueues p s x := by
  have hframe : ∀ frame : Frame W, SparesQueues p s (.ok (s.setFrame waiter frame)) := by
    intro frame
    refine .inl ?_
    rw [hcur]
    exact Aside.setFrame waiter frame s
  unfold Worker.performWaiter at hx
  split at hx
  · obtain rfl := Option.some.inj hx
    exact hframe _
  · split at hx
    · obtain rfl := Option.some.inj hx
      exact hframe _
    · rename_i w ws hw
      split at hx
      · obtain rfl := Option.some.inj hx
        have hmem : w ∈ s.waiting := by simp [hw]
        exact h.aside_expire hcons hmem (fun q f => hquiet w q f hmem) _ _
      · obtain rfl := Option.some.inj hx
        exact hframe _
  · obtain rfl := Option.some.inj hx
    apply DisturbsNobody.spares
    rw [hcur]
    exact disturbsNobody_decideSleep created waiter _ s
  · split at hx
    · obtain rfl := Option.some.inj hx
      exact hframe _
    · obtain rfl := Option.some.inj hx
      exact hframe _
  · obtain rfl := Option.some.inj hx
    exact hframe _
  · cases hx

omit [LinearOrder W] in
/-- An operation in code of the current fiber or of the context of the worker. -/
theorem spares_performUser {created : Contexts F} {waiter : F} {a : Action F Q W}
    {x : Except Fault (Worker F Q W)} (hx : performUser created waiter s a = some x)
    (ha : ∀ q, a.queue = some q → ¬ p q) : SparesQueues p s x := by
  apply DisturbsNobody.spares
  unfold Worker.performUser at hx
  split at hx
  · rename_i f
    obtain ⟨-, hx⟩ := Option.ite_none_right_eq_some.1 hx
    obtain rfl := Option.some.inj hx
    exact (leavesAlone_hatch f s).disturbsNobody (keepsRest_add_setFiber f false _ s)
  · rename_i q f prio
    obtain rfl := Option.some.inj hx
    refine LeavesAlone.disturbsNobody ?_ ((keepsRest_unblock q f prio s).map fun _ h => h)
    exact (beside_unblock (ha q rfl) f prio s).map fun _ h => h
  · rename_i q prio
    obtain rfl := Option.some.inj hx
    exact (leavesAlone_unblockFirst (ha q rfl) prio s).disturbsNobody
      (keepsRest_unblockFirst q prio s)
  · rename_i q prio
    obtain rfl := Option.some.inj hx
    exact (leavesAlone_unblockAll (ha q rfl) prio _ s).disturbsNobody
      (keepsRest_unblockAll q prio _ s)
  · rename_i f now
    obtain rfl := Option.some.inj hx
    exact (leavesAlone_suspend created f now s).disturbsNobody (keepsRest_suspend created f now s)
  · have hset : ∀ polling, Aside p s.currentFiber s { s with polling := polling } :=
      fun _ => .of_eq (.of_eq rfl rfl) (fun _ _ => rfl) (fun _ h => h) rfl
    split at hx
    · obtain rfl := Option.some.inj hx
      exact (disturbsNobody_resume waiter _).mono fun _ ht => ht.after (hset true)
    · obtain rfl := Option.some.inj hx
      exact hset false
  · have hset : ∀ n, Aside p s.currentFiber s { s with disableContextSwitch := n } :=
      fun _ => .of_eq (.of_eq rfl rfl) (fun _ _ => rfl) (fun _ h => h) rfl
    split at hx
    · split at hx
      · obtain rfl := Option.some.inj hx
        exact hset _
      · obtain rfl := Option.some.inj hx
        trivial
    · obtain rfl := Option.some.inj hx
      exact hset _
  · cases hx

/-- An operation of the current fiber that may hand over. -/
theorem Tracked.spares_performFiber (h : s.Tracked) {created : Contexts F} {waiter f : F}
    {a : Action F Q W} {x : Except Fault (Worker F Q W)} (hcur : s.currentFiber = some f)
    (hx : Worker.performFiber created waiter f s a = some x) (ha : ∀ q, a.queue = some q → ¬ p q) :
    SparesQueues p s x := by
  apply DisturbsNobody.spares
  rw [hcur]
  unfold Worker.performFiber at hx
  split at hx
  · rename_i prefer now
    obtain rfl := Option.some.inj hx
    exact disturbsNobody_schedule created prefer now s
  · rename_i q now
    obtain rfl := Option.some.inj hx
    exact (leavesAlone_block created (ha q rfl) f now s).disturbsNobody
      (keepsRest_block created q f now s)
  · rename_i q w timeout now
    split at hx
    · obtain rfl := Option.some.inj hx
      exact .refl s
    · obtain ⟨hfree, hx⟩ := Option.ite_none_right_eq_some.1 hx
      obtain rfl := Option.some.inj hx
      exact (aside_blockUntil h.alarms created waiter (ha q rfl) hfree timeout f now).map
        fun _ hx => hx
  · rename_i w timeout interval fired slice now now'
    obtain ⟨hfree, hx⟩ := Option.ite_none_right_eq_some.1 hx
    obtain rfl := Option.some.inj hx
    have hset : Aside p (some f) s (s.setWaitable w (makeWaitable timeout interval)) :=
      .setFree h.alarms hfree _
    have hkind : ∀ q g, ((s.setWaitable w (makeWaitable timeout interval)).waitable w).kind ≠
        .alarm q g := by
      intro q g
      cases interval <;> simp [Worker.setWaitable, makeWaitable]
    exact (aside_wait (p := p) created waiter f hkind fired slice now now').map
      fun _ hx => hx.after hset
  · rename_i now
    obtain rfl := Option.some.inj hx
    exact disturbsNobody_exit created f now s
  · cases hx

omit [LinearOrder W] in
/-- A round of `Worker::run`. -/
theorem spares_performWorker {created : Contexts F} {a : Action F Q W}
    {x : Except Fault (Worker F Q W)} (hx : performWorker created s a = some x) :
    SparesQueues p s x := by
  apply DisturbsNobody.spares
  unfold Worker.performWorker at hx
  split at hx
  · obtain rfl := Option.some.inj hx
    exact .of_eq (.of_eq rfl rfl) (fun _ _ => rfl) (fun _ h => h) rfl
  · obtain ⟨-, hx⟩ := Option.ite_none_right_eq_some.1 hx
    obtain rfl := Option.some.inj hx
    exact disturbsNobody_schedule created none _ s
  · cases hx

omit [DecidableEq Q] in
/-- The end of a block with timeout. -/
theorem aside_leaveAlarm (w : W) (f : F) (s : Worker F Q W) :
    Aside p (some f) s (leaveAlarm w f s) := by
  rw [leaveAlarm, unscheduleTask_eq]
  refine .of_eq (.of_eq rfl rfl) (fun g hg => ?_) (fun _ hv => List.mem_of_mem_erase hv) rfl
  exact Function.update_of_ne (fun hgf => hg (congrArg some hgf)) _ _

/-- Everything that may happen, but for the queues that `p` tells. -/
theorem Tracked.spares_perform (h : s.Tracked) (hcons : s.Consistent) (hquiet : Quiet p s)
    {created : Contexts F} {waiter : F} {a : Action F Q W} {x : Except Fault (Worker F Q W)}
    (hx : Worker.perform created waiter s a = some x) (ha : ∀ q, a.queue = some q → ¬ p q) :
    SparesQueues p s x := by
  rcases perform_cases hx with ⟨-, ⟨w, -, rfl⟩ | ⟨f, -, rfl⟩⟩ | ⟨f, w, -, hcur, -, rfl⟩ |
    ⟨-, hx⟩ | ⟨hcur, hx⟩ | ⟨f, -, hcur, hx⟩ | ⟨-, hx⟩
  · exact (disturbsNobody_wakeup w s).spares
  · exact (disturbsNobody_resume f s).spares
  · refine .inl ?_
    rw [hcur]
    exact aside_leaveAlarm w f s
  · exact spares_performWorker hx
  · exact h.spares_performWaiter hcons hquiet hcur hx
  · exact h.spares_performFiber hcur hx ha
  · exact spares_performUser hx ha

end Synchronizer

end Waiter

end Worker

end Zth
