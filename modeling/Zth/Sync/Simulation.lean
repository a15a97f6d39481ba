import Zth.Sync.Hosted
import Zth.Sync.Scripts

/-!
# A synchronizer on a worker is a monitor

The simulation relation keeps the data and the queues equal. What a fiber goes on with is what it
left behind, or, once its alarm rang, what it does when its time is over. A piece of code is a call
or a resumption of the monitor, an alarm that rings is the end of a wait, and nothing else that the
worker does is seen by the monitor.
-/

namespace Zth

open Monitor

namespace Hosted

variable {F Q R W C O D : Type*} {S : Script F Q C O D}

/-- A queue of the synchronizer. -/
def Own : Q ⊕ R → Prop
  | .inl _ => True
  | .inr _ => False

/-- What a fiber goes on with. -/
def pending (S : Script F Q C O D) (s : Hosted F Q R W O D) (f : F) : Option O :=
  if s.worker.rung f then (s.code f).bind S.expired else s.code f

/-- A fiber that is in a call is blocked in a queue of the synchronizer, or it can run. The alarms
that are set are for fibers that left code behind which can expire. -/
structure Invariant (S : Script F Q C O D) (s : Hosted F Q R W O D) : Prop where
  sane : s.worker.Sane
  runs : ∀ f o, s.code f = some o → (∃ q, f ∈ s.worker.queue (.inl q)) ∨
    (s.worker.fiber (some f)).Unblocked
  quiet : s.worker.Quiet Own
  timed : ∀ w q f, w ∈ s.worker.waiting → (s.worker.waitable w).kind = .alarm (.inl q) f →
    ∃ o o', s.code f = some o ∧ S.expired o = some o'
  elsewhere : ∀ w r f, w ∈ s.worker.waiting → (s.worker.waitable w).kind = .alarm (.inr r) f →
    s.code f = none

/-- The monitor is in the same state. -/
structure Simulates (S : Script F Q C O D) (s : Hosted F Q R W O D) (m : State F Q O D) : Prop where
  wellFormed : m.WellFormed
  data : m.data = s.data
  queue : ∀ q, m.queue q = s.worker.queue (.inl q)
  code : ∀ f, m.code f = s.pending S f

/-- The current fiber runs code of the synchronizer. -/
structure Within (S : Script F Q C O D) (f : F) (s : Hosted F Q R W O D) (m : State F Q O D) :
    Prop where
  invariant : Invariant S s
  simulates : Simulates S s m
  current : s.worker.currentFiber = some f
  frame : s.worker.frame f = .user
  code : s.code f = none

theorem pending_of_user {s : Hosted F Q R W O D} {f : F} (h : s.worker.frame f = .user) :
    s.pending S f = s.code f := by
  rw [pending, Worker.rung_of_user h]
  rfl

theorem pending_of_none {s : Hosted F Q R W O D} {f : F} (h : s.code f = none) :
    s.pending S f = none := by
  rw [pending, h]
  split <;> rfl

/-- Where nobody waits with a timeout, a fiber goes on with what it left behind. -/
theorem code_of_pending (hS : ∀ o, S.expired o = none) {s : Hosted F Q R W O D} {f : F} {o : O}
    (h : s.pending S f = some o) : s.code f = some o := by
  rw [pending] at h
  split at h
  · obtain ⟨c, -, hc⟩ := Option.bind_eq_some_iff.1 h
    rw [hS c] at hc
    cases hc
  · exact h

theorem pending_congr {s t : Hosted F Q R W O D} {f : F} (hrung : t.worker.rung f = s.worker.rung f)
    (hcode : t.code f = s.code f) : t.pending S f = s.pending S f := by
  rw [pending, pending, hrung, hcode]

/-- Nothing is left behind by the fiber, for the monitor neither. -/
theorem Within.monitor_code {f : F} {s : Hosted F Q R W O D} {m : State F Q O D}
    (h : Within S f s m) : m.code f = none := by
  rw [h.simulates.code, pending_of_none h.code]

/-- Only the data changes. -/
theorem Within.setData {f : F} {s : Hosted F Q R W O D} {m : State F Q O D}
    (h : Within S f s m) (d : D) : Within S f { s with data := d } (m.setData d) where
  invariant := ⟨h.invariant.sane, h.invariant.runs, h.invariant.quiet, h.invariant.timed,
    h.invariant.elsewhere⟩
  simulates := ⟨h.simulates.wellFormed.setData d, rfl, h.simulates.queue, h.simulates.code⟩
  current := h.current
  frame := h.frame
  code := h.code

variable [DecidableEq F] [DecidableEq Q] [DecidableEq R]

omit [DecidableEq F] in
theorem update_inl {q q' : Q} (g : Q ⊕ R → List F) (l : List F) :
    Function.update g (.inl q) l (.inl q') =
      Function.update (fun q => g (.inl q)) q l q' := by
  by_cases hq : q' = q
  · subst hq
    simp
  · rw [Function.update_of_ne (by simpa using hq), Function.update_of_ne hq]

/-- Fibers of a queue of the synchronizer are unblocked. -/
theorem Within.woke {f : F} {s : Hosted F Q R W O D} {m m' : State F Q O D}
    (h : Within S f s m) {n : ℕ} {q : Q} {t : Worker F (Q ⊕ R) W}
    (hwoke : Worker.Woke n (.inl q) s.worker t) (ht : t.Sane)
    (hturn : Worker.SameTurn s.worker t) (hwf : m'.WellFormed) (hdata : m'.data = m.data)
    (hcode : m'.code = m.code)
    (hqueue : m'.queue = Function.update m.queue q ((m.queue q).drop n)) :
    Within S f { s with worker := t } m' := by
  obtain ⟨hv, hwaiting, hframe⟩ := hwoke.rest.same
  have hrung : ∀ g, t.rung g = s.worker.rung g := fun g =>
    Worker.rung_congr (by rw [hframe]) fun w _ => by rw [hv]
  have hq : ∀ q', t.queue (.inl q') = m'.queue q' := by
    intro q'
    rw [hwoke.queue, hqueue, update_inl, h.simulates.queue q]
    congr 1
    exact funext fun q => (h.simulates.queue q).symm
  refine ⟨⟨ht, fun g o hg => ?_, ?_, ?_, ?_⟩, ⟨hwf, hdata.trans h.simulates.data,
    fun q' => (hq q').symm, fun g => ?_⟩, hturn.current.trans h.current, ?_, h.code⟩
  · rcases h.invariant.runs g o hg with ⟨q', hg'⟩ | hun
    · by_cases hgt : g ∈ t.queue (.inl q')
      · exact .inl ⟨q', hgt⟩
      · refine .inr (hwoke.unblocked g (.inr ?_))
        have hqq : q' = q := by
          by_contra hne
          rw [hwoke.queue, Function.update_of_ne (by simpa using hne)] at hgt
          exact hgt hg'
        subst hqq
        rw [hwoke.queue, Function.update_self] at hgt
        have hmem := List.take_append_drop n (s.worker.queue (.inl q')) ▸ hg'
        exact (List.mem_append.1 hmem).resolve_right hgt
    · exact .inr (hwoke.unblocked g (.inl hun))
  · intro w q' g hw hk
    rw [hwaiting] at hw
    rw [hv] at hk ⊢
    exact h.invariant.quiet w q' g hw hk
  · intro w q' g hw hk
    rw [hwaiting] at hw
    rw [hv] at hk
    exact h.invariant.timed w q' g hw hk
  · intro w r g hw hk
    rw [hwaiting] at hw
    rw [hv] at hk
    exact h.invariant.elsewhere w r g hw hk
  · rw [hcode, h.simulates.code g]
    exact (pending_congr (s := s) (t := { s with worker := t }) (hrung g) rfl).symm
  · rw [hframe]
    exact h.frame

omit [DecidableEq Q] [DecidableEq R] in
/-- What the worker may do when the fiber leaves code behind: it may set an alarm of the fiber. -/
structure Leaving (S : Script F Q C O D) (f : F) (o : O) (s t : Worker F (Q ⊕ R) W) : Prop where
  sane : t.Sane
  runs : (∃ q, f ∈ t.queue (.inl q)) ∨ (t.fiber (some f)).Unblocked
  queue : ∀ g q, g ∈ s.queue (.inl q) → g ∈ t.queue (.inl q)
  unblocked : ∀ g, g ≠ f → (s.fiber (some g)).Unblocked → (t.fiber (some g)).Unblocked
  rung_self : t.rung f = false
  rung : ∀ g, g ≠ f → t.rung g = s.rung g
  alarm : ∀ w q g, w ∈ t.waiting → (t.waitable w).kind = .alarm q g →
    (w ∈ s.waiting ∧ t.waitable w = s.waitable w) ∨
      (g = f ∧ Own q ∧ (t.waitable w).rang = false ∧ ∃ o', S.expired o = some o')

omit [DecidableEq Q] [DecidableEq R] in
/-- The fiber leaves code behind. -/
theorem Within.left {f : F} {s : Hosted F Q R W O D} {m m' : State F Q O D} (h : Within S f s m)
    {o : O} {t : Worker F (Q ⊕ R) W} (ht : Leaving S f o s.worker t) (hwf : m'.WellFormed)
    (hdata : m'.data = m.data) (hqueue : ∀ q, m'.queue q = t.queue (.inl q))
    (hcode : m'.code = Function.update m.code f (some o)) :
    Invariant S (s.left f o t) ∧ Simulates S (s.left f o t) m' := by
  have hother : ∀ g, g ≠ f → (s.left f o t).code g = s.code g :=
    fun g hg => Function.update_of_ne hg _ _
  have hself : (s.left f o t).code f = some o := Function.update_self _ _ _
  have hne : ∀ w q g, w ∈ s.worker.waiting → (s.worker.waitable w).kind = .alarm q g →
      g ≠ f := by
    rintro w q g hw hk rfl
    have := h.invariant.sane.tracked.rings w q g hw hk
    rw [h.frame] at this
    cases this
  refine ⟨⟨ht.sane, fun g o' hg => ?_, fun w q g hw hk hq => ?_, fun w q g hw hk => ?_,
    fun w r g hw hk => ?_⟩, ⟨hwf, hdata.trans h.simulates.data, hqueue, fun g => ?_⟩⟩
  · by_cases hgf : g = f
    · subst hgf
      exact ht.runs
    · rw [hother g hgf] at hg
      refine (h.invariant.runs g o' hg).imp ?_ (ht.unblocked g hgf)
      rintro ⟨q, hq⟩
      exact ⟨q, ht.queue g q hq⟩
  · rcases ht.alarm w q g hw hk with ⟨hw', heq⟩ | ⟨-, -, hrang, -⟩
    · change (t.waitable w).kind = _ at hk
      change (t.waitable w).rang = false
      rw [heq] at hk ⊢
      exact h.invariant.quiet w q g hw' hk hq
    · exact hrang
  · rcases ht.alarm w _ g hw hk with ⟨hw', heq⟩ | ⟨rfl, -, -, o', ho'⟩
    · change (t.waitable w).kind = _ at hk
      rw [heq] at hk
      rw [hother g (hne w _ g hw' hk)]
      exact h.invariant.timed w q g hw' hk
    · exact ⟨o, o', hself, ho'⟩
  · rcases ht.alarm w _ g hw hk with ⟨hw', heq⟩ | ⟨-, hq, -⟩
    · change (t.waitable w).kind = _ at hk
      rw [heq] at hk
      rw [hother g (hne w _ g hw' hk)]
      exact h.invariant.elsewhere w r g hw' hk
    · exact hq.elim
  · rw [hcode]
    by_cases hgf : g = f
    · subst hgf
      rw [Function.update_self, pending, show (s.left g o t).worker.rung g = false from
        ht.rung_self, hself]
      rfl
    · rw [Function.update_of_ne hgf, h.simulates.code g]
      exact (pending_congr (t := s.left f o t) (ht.rung g hgf) (hother g hgf)).symm

omit [DecidableEq F] [DecidableEq Q] [DecidableEq R] in
/-- Only fibers and queues change. -/
theorem Leaving.of_fibersOnly {f : F} {s : Hosted F Q R W O D} {m : State F Q O D}
    (h : Within S f s m) {o : O} {t : Worker F (Q ⊕ R) W} (ht : t.Sane)
    (hrest : Worker.FibersOnly s.worker t)
    (hruns : (∃ q, f ∈ t.queue (.inl q)) ∨ (t.fiber (some f)).Unblocked)
    (hqueue : ∀ g q, g ∈ s.worker.queue (.inl q) → g ∈ t.queue (.inl q))
    (hun : ∀ g, g ≠ f → (s.worker.fiber (some g)).Unblocked → (t.fiber (some g)).Unblocked) :
    Leaving S f o s.worker t := by
  obtain ⟨hv, hwaiting, hframe⟩ := hrest.same
  refine ⟨ht, hruns, hqueue, hun, Worker.rung_of_user (by rw [hframe]; exact h.frame),
    fun g _ => Worker.rung_congr (by rw [hframe]) fun w _ => by rw [hv], fun w q g hw _ => ?_⟩
  exact .inl ⟨hwaiting ▸ hw, by rw [hv]⟩

/-- How a piece of code ends: the fiber is done with it, or about to block. -/
inductive Ended (S : Script F Q C O D) (f : F) (n : ℕ) :
    Hosted F Q R W O D × Outcome Q O → State F Q O D × Outcome Q O → Prop
  | done {s m} (h : Invariant S s) (h' : Simulates S s m) : Ended S f n (s, .done) (m, .done)
  | block {s m} (q : Q) (o : O) (h : Within S f s m)
      (hn : s.worker.disableContextSwitch = n) : Ended S f n (s, .block q o) (m, .block q o)

omit [DecidableEq Q] [DecidableEq R] in
/-- The fiber gives way to the others. -/
theorem Within.yield {f : F} {s : Hosted F Q R W O D} {m : State F Q O D} (h : Within S f s m)
    (created : Contexts F) (now : ℕ) (o : O) :
    (Worker.schedule created none now s.worker).Sat Fault.Open fun x =>
      Invariant S (s.left f o x.1) ∧ Simulates S (s.left f o x.1) (m.yield f o) := by
  have hinv := ((h.invariant.sane.orderly.yield created none now).and
    ((h.invariant.sane.tracked.schedule created none now).mono_bad fun _ _ => trivial)).and
    ((Worker.beside_schedule (p := fun _ => True) (c := none) created none now s.worker).and
      (Worker.rescheduled_schedule created none now s.worker))
  refine hinv.mono ?_
  rintro ⟨t, r⟩ ⟨⟨horderly, htracked, -⟩, hbeside, hres⟩
  have hqueue : ∀ q, t.queue q = s.worker.queue q := fun q => hbeside.queue q trivial
  have hself := hbeside.unblocked f (by simp) (h.invariant.sane.unblocked h.current)
  refine h.left (.of_fibersOnly h ⟨horderly, htracked⟩ hres.fibersOnly (.inr hself)
    (fun g q hg => (hqueue _).symm ▸ hg) fun g _ => hbeside.unblocked g (by simp))
    (h.simulates.wellFormed.yield h.monitor_code o) rfl (fun q => ?_) rfl
  rw [State.yield_queue, h.simulates.queue, hqueue]

omit [DecidableEq Q] [DecidableEq R] in
/-- The fiber would give way to the others, but is within its time slice. -/
theorem Within.goOn {f : F} {s : Hosted F Q R W O D} {m : State F Q O D} (h : Within S f s m)
    (o : O) : Invariant S (s.left f o s.worker) ∧
      Simulates S (s.left f o s.worker) (m.yield f o) := by
  have hself := h.invariant.sane.unblocked h.current
  refine h.left (.of_fibersOnly h h.invariant.sane rfl (.inr hself) (fun _ _ hg => hg)
    fun _ _ hg => hg) (h.simulates.wellFormed.yield h.monitor_code o) rfl (fun q => ?_) rfl
  rw [State.yield_queue, h.simulates.queue]

/-- The queue that a fiber entered. -/
theorem queue_of_entered {f : F} {q : Q} {s : Hosted F Q R W O D} {m : State F Q O D} {o : O}
    {t : Worker F (Q ⊕ R) W} (h : Within S f s m) (ht : Worker.Entered (.inl q) f s.worker t)
    (q' : Q) : (State.finish f (m, .block q o)).queue q' = t.queue (.inl q') := by
  rw [State.finish_block_queue, ht.queue, update_inl, h.simulates.queue q]
  congr 1
  exact funext fun q => h.simulates.queue q

omit [DecidableEq F] in
theorem mem_of_entered {f : F} {q : Q} {s t : Worker F (Q ⊕ R) W}
    (ht : Worker.Entered (.inl q) f s t) :
    f ∈ t.queue (.inl q) ∧ ∀ g q', g ∈ s.queue (.inl q') → g ∈ t.queue (.inl q') := by
  rw [ht.queue]
  refine ⟨by simp, fun g q' hg => ?_⟩
  by_cases hq : q' = q
  · subst hq
    simp [hg]
  · rwa [Function.update_of_ne (by simpa using hq)]

/-- The fiber blocks, with no timeout. -/
theorem Within.block {f : F} {s : Hosted F Q R W O D} {m : State F Q O D} (h : Within S f s m)
    (henabled : s.worker.disableContextSwitch = 0) (created : Contexts F) (q : Q) (o : O)
    (now : ℕ) :
    (Worker.block created (.inl q) f now s.worker).Sat Fault.Open fun x =>
      Invariant S (s.left f o x.1) ∧
        Simulates S (s.left f o x.1) (State.finish f (m, .block q o)) := by
  refine (h.invariant.sane.block created (.inl q) h.current henabled now).mono ?_
  rintro ⟨t, r⟩ ⟨hentered, hsane, hrest⟩
  obtain ⟨hself, hqueue⟩ := mem_of_entered hentered
  exact h.left (.of_fibersOnly h hsane hrest (.inl ⟨q, hself⟩) hqueue hentered.unblocked)
    (h.simulates.wellFormed.finish h.monitor_code _) rfl (queue_of_entered h hentered) rfl

/-- A piece of code does to the worker what it does to the monitor. -/
theorem Within.runPiece {f : F} (created : Contexts F) (now n : ℕ) (slice : Bool)
    (p : Piece F Q O D)
    {s : Hosted F Q R W O D} {m : State F Q O D} (h : Within S f s m)
    (hn : s.worker.disableContextSwitch = n) :
    (runPiece created f now slice p s).Sat Fault.Open fun x => Ended S f n x (p.exec f m) := by
  induction p generalizing s m with
  | done => exact .done h.invariant h.simulates
  | block q o => exact .block q o h hn
  | yield o =>
      rw [Hosted.runPiece, Piece.exec]
      split
      · exact (h.yield created now o).map fun x hx => .done hx.1 hx.2
      · exact .done (h.goOn o).1 (h.goOn o).2
  | read k ih =>
      rw [Hosted.runPiece, Piece.exec, h.simulates.data]
      exact ih _ h hn
  | write d k ih =>
      rw [Hosted.runPiece, Piece.exec]
      exact ih (h.setData d) hn
  | wakeFirst q k ih =>
      rw [Hosted.runPiece, Piece.exec, State.wakeFirst_snd, h.simulates.queue]
      refine (h.invariant.sane.unblockFirst (.inl q) false).bind ?_
      rintro t ⟨hwoke, ht, hturn⟩
      refine ih _ (h.woke hwoke ht hturn (h.simulates.wellFormed.wakeFirst q)
        (State.wakeFirst_data m q) (State.wakeFirst_code m q) ?_) (hturn.switching.trans hn)
      rw [State.wakeFirst_queue, List.drop_one]
  | wakeAll q k ih =>
      rw [Hosted.runPiece, Piece.exec]
      have hbool : (m.wakeAll q).2 = !(s.worker.queue (.inl q)).isEmpty := by
        rw [← h.simulates.queue]
        rfl
      rw [hbool]
      refine (h.invariant.sane.unblockAll (.inl q) false _).bind ?_
      rintro t ⟨hwoke, ht, hturn⟩
      refine ih _ (h.woke hwoke ht hturn (h.simulates.wellFormed.wakeAll q)
        (State.wakeAll_data m q) (State.wakeAll_code m q) ?_) (hturn.switching.trans hn)
      rw [State.wakeAll_queue, ← h.simulates.queue, List.drop_length]

variable [LinearOrder W]

/-- The fiber blocks with a timeout. -/
theorem Within.blockUntil {f : F} {s : Hosted F Q R W O D} {m : State F Q O D}
    (h : Within S f s m) (henabled : s.worker.disableContextSwitch = 0)
    (created : Contexts F) (waiter : F) (q : Q) {o o' : O} (ho : S.expired o = some o')
    {w : W} (hfree : Worker.isFree w s.worker = true) (timeout now : ℕ) :
    (Worker.blockUntil created waiter (.inl q) w timeout f now s.worker).Sat Fault.Open fun x =>
      Invariant S (s.left f o x.1) ∧
        Simulates S (s.left f o x.1) (State.finish f (m, .block q o)) := by
  refine (h.invariant.sane.blockUntil created waiter (.inl q) timeout h.current h.frame hfree
    henabled now).mono ?_
  rintro ⟨t, r⟩ ⟨hentered, hsane, hset⟩
  dsimp only at hentered hsane hset ⊢
  obtain ⟨hself, hqueue⟩ := mem_of_entered hentered
  have hleaving : Leaving S f o s.worker t := by
    refine ⟨hsane, .inl ⟨q, hself⟩, hqueue, hentered.unblocked, ?_, fun g hg => ?_,
      fun v q' g hv hk => ?_⟩
    · rw [Worker.rung_of_alarm (w := w) (by rw [hset.frame, Function.update_self]),
        hset.waitable, Function.update_self]
    · refine Worker.rung_congr (by rw [hset.frame, Function.update_of_ne hg]) fun v hgv => ?_
      have hvw : v ≠ w := by
        rintro rfl
        have := h.invariant.sane.tracked.alarms.frame g v hgv
        rw [(Worker.isFree_iff.1 hfree).1] at this
        cases this
      rw [hset.waitable, Function.update_of_ne hvw]
    · by_cases hvw : v = w
      · subst hvw
        rw [hset.waitable, Function.update_self] at hk ⊢
        cases hk
        exact .inr ⟨rfl, trivial, rfl, o', ho⟩
      · refine .inl ⟨(hset.waiting v hv).resolve_left hvw, ?_⟩
        rw [hset.waitable, Function.update_of_ne hvw]
  exact h.left hleaving (h.simulates.wellFormed.finish h.monitor_code _) rfl
    (queue_of_entered h hentered) rfl

/-- The end of a piece of code. -/
theorem Ended.conclude {f : F} {n : ℕ} {x : Hosted F Q R W O D × Outcome Q O}
    {y : State F Q O D × Outcome Q O} (h : Ended S f n x y)
    (hn : ∀ q o, x.2 = .block q o → n = 0) {created : Contexts F} {waiter : F} {w : W}
    {timeout now : ℕ} {z : Except Fault (Hosted F Q R W O D)}
    (hz : Hosted.conclude S created waiter f w timeout now x = some z) :
    z.Sat Fault.Open fun t => Invariant S t ∧ Simulates S t (State.finish f y) := by
  cases h with
  | done h h' =>
      obtain rfl := Option.some.inj hz
      exact ⟨h, h'⟩
  | block q o h henabled =>
      have henabled := henabled.trans (hn q o rfl)
      rw [Hosted.conclude] at hz
      split at hz
      · obtain rfl := Option.some.inj hz
        exact (h.block henabled created q o now).map fun _ hx => hx
      · rename_i o' ho
        split at hz
        · cases hz
        · obtain ⟨hfree, hz⟩ := Option.ite_none_right_eq_some.1 hz
          obtain rfl := Option.some.inj hz
          exact (h.blockUntil henabled created waiter q ho hfree timeout now).map fun _ hx => hx

/-- The current fiber runs code of the synchronizer, and so does the monitor. -/
theorem Within.runCode {f : F} {s : Hosted F Q R W O D} {m : State F Q O D} (h : Within S f s m)
    {created : Contexts F} {waiter : F} {o : O} {w : W} {timeout now : ℕ} {slice : Bool}
    (henabled : blocks S created f o now slice s = true → s.worker.disableContextSwitch = 0)
    {z : Except Fault (Hosted F Q R W O D)}
    (hz : Hosted.runCode S created waiter f o w timeout now slice s = some z) :
    z.Sat Fault.Open fun t =>
      Invariant S t ∧ Simulates S t (State.finish f (S.program.exec f o m)) := by
  have hpiece := h.runPiece created now _ slice (S.piece f o) rfl
  rw [Hosted.runCode] at hz
  rw [blocks] at henabled
  cases hx : Hosted.runPiece created f now slice (S.piece f o) s with
  | error e =>
      rw [hx] at hz hpiece
      obtain rfl := Option.some.inj hz
      exact hpiece
  | ok x =>
      rw [hx] at hz hpiece henabled
      refine Ended.conclude hpiece (fun q o' hq => henabled ?_) hz
      obtain ⟨t, r⟩ := x
      obtain rfl : r = .block q o' := hq
      rfl

section Other

variable {s : Hosted F Q R W O D} {m : State F Q O D} {ok : D → C → Prop}

omit [DecidableEq F] [DecidableEq Q] [DecidableEq R] [LinearOrder W] in
/-- An action that is permitted uses another queue, and it is one of a fiber that is in no call,
or the end of a block with timeout. -/
theorem permits_cases {a : Action F (Q ⊕ R) W} (h : s.permits a = true) :
    (∀ q, a.queue = some q → ¬ Own q) ∧
      (a = .leaveAlarm ∨ ∀ f, s.worker.currentFiber = some f → s.code f = none) := by
  have hcall : s.inCall = false → ∀ f, s.worker.currentFiber = some f → s.code f = none := by
    intro hin f hf
    simpa [inCall, hf] using hin
  unfold permits at h
  split at h
  · refine ⟨fun q hq => ?_, .inl rfl⟩
    cases hq
  · rw [Bool.and_eq_true, Bool.not_eq_true'] at h
    refine ⟨fun q hq => ?_, .inr (hcall h.1)⟩
    rcases q with q | r
    · rw [hq] at h
      exact absurd h.2 (by simp)
    · exact fun hr => hr

omit [DecidableEq F] [DecidableEq Q] [DecidableEq R] [LinearOrder W] in
theorem codeAfter_of_ne [DecidableEq F] {a : Action F (Q ⊕ R) W} (h : a ≠ .leaveAlarm) :
    codeAfter S s a = s.code := by
  cases a <;> first | rfl | exact absurd rfl h

omit [DecidableEq Q] [DecidableEq R] [LinearOrder W] in
/-- Something happens beside the synchronizer. -/
theorem Invariant.aside (h : Invariant S s) (hm : Simulates S s m) {t : Worker F (Q ⊕ R) W}
    (ht : t.Sane) (haside : Worker.Aside Own s.worker.currentFiber s.worker t)
    {code : F → Option O}
    (hcode : ∀ g, some g ≠ s.worker.currentFiber → code g = s.code g)
    (hcur : ∀ f, s.worker.currentFiber = some f →
      (code f = none ∧ s.code f = none) ∨ (t.frame f = .user ∧ code f = s.pending S f ∧
        (t.fiber (some f)).Unblocked ∧ ∀ w q, w ∈ t.waiting →
          (t.waitable w).kind ≠ .alarm q f)) :
    Invariant S { s with worker := t, code := code } ∧
      Simulates S { s with worker := t, code := code } m := by
  have hqueue : ∀ q, t.queue (.inl q) = s.worker.queue (.inl q) :=
    fun q => haside.queue (.inl q) trivial
  refine ⟨⟨ht, fun g o hg => ?_, fun w q g hw hk hq => ?_, fun w q g hw hk => ?_,
    fun w r g hw hk => ?_⟩, ⟨hm.wellFormed, hm.data, fun q => ?_, fun g => ?_⟩⟩
  · by_cases hgc : some g = s.worker.currentFiber
    · rcases hcur g hgc.symm with ⟨hnone, -⟩ | ⟨-, -, hun, -⟩
      · cases hnone.symm.trans hg
      · exact .inr hun
    · refine (h.runs g o ((hcode g hgc).symm.trans hg)).imp ?_ (haside.unblocked g hgc)
      rintro ⟨q, hq⟩
      exact ⟨q, (hqueue q).symm ▸ hq⟩
  · rcases haside.alarm w q g hw hk with hsame | ⟨-, -, hrang⟩
    · exact hsame.rang.trans (h.quiet w q g hsame.waiting (hsame.kind ▸ hk) hq)
    · exact hrang
  · rcases haside.alarm w _ g hw hk with hsame | ⟨-, hq, -⟩
    · obtain ⟨o, o', ho, ho'⟩ := h.timed w q g hsame.waiting (hsame.kind ▸ hk)
      refine ⟨o, o', (hcode g fun hgc => ?_).trans ho, ho'⟩
      rcases hcur g hgc.symm with ⟨-, hnone⟩ | ⟨-, -, -, hno⟩
      · cases hnone.symm.trans ho
      · exact hno w _ hw hk
    · exact absurd trivial hq
  · have hold : some g ≠ s.worker.currentFiber → s.code g = none := by
      intro hgc
      rcases haside.alarm w _ g hw hk with hsame | ⟨hc, -⟩
      · exact h.elsewhere w r g hsame.waiting (hsame.kind ▸ hk)
      · exact absurd hc hgc
    by_cases hgc : some g = s.worker.currentFiber
    · rcases hcur g hgc.symm with ⟨hnone, -⟩ | ⟨-, -, -, hno⟩
      · exact hnone
      · exact absurd hk (hno w _ hw)
    · exact (hcode g hgc).trans (hold hgc)
  · exact (hm.queue q).trans (hqueue q).symm
  · rw [hm.code g]
    by_cases hgc : some g = s.worker.currentFiber
    · rcases hcur g hgc.symm with ⟨hnone, hnone'⟩ | ⟨hframe, hcode, -, -⟩
      · rw [pending_of_none hnone', pending_of_none (by exact hnone)]
      · rw [pending_of_user (s := { s with worker := t, code := code }) hframe]
        exact hcode.symm
    · rcases haside.rung g hgc with hrung | ⟨w, q, hw, hk, hq⟩
      · exact (pending_congr (t := { s with worker := t, code := code }) hrung
          (hcode g hgc)).symm
      · have hnone : s.code g = none := by
          rcases q with q | r
          · exact absurd trivial hq
          · exact h.elsewhere w r g hw hk
        rw [pending_of_none hnone, pending_of_none ((hcode g hgc).trans hnone)]

omit [LinearOrder W] in
/-- An alarm rings for a fiber that is blocked in a queue of the synchronizer. -/
theorem Invariant.rang (h : Invariant S s) (hm : Simulates S s m) {t : Worker F (Q ⊕ R) W}
    (ht : t.Sane) {q : Q ⊕ R} {f : F} (hrang : Worker.Rang Own q f s.worker t) :
    ∃ q' m', S.step m (.expire q' f) = some m' ∧
      Invariant S { s with worker := t } ∧ Simulates S { s with worker := t } m' := by
  obtain ⟨w, hw, hk⟩ := hrang.set
  rcases q with q | r
  · obtain ⟨o, o', ho, ho'⟩ := h.timed w q f hw hk
    have hrung : s.worker.rung f = false := by
      rw [Worker.rung_of_alarm (h.sane.tracked.rings w _ f hw hk)]
      exact h.quiet w _ f hw hk trivial
    have hcode : m.code f = some o := by
      rw [hm.code f, pending, hrung, ho]
      rfl
    have hmem : f ∈ m.queue q := hm.queue q ▸ hrang.mem
    have hstep : S.step m (.expire q f) = some (m.expire q f o') := by
      rw [Script.step, Program.stepBy, Label.map, Program.step, hcode]
      simp [Script.program, ho', hmem]
    have hqueue : ∀ q', t.queue (.inl q') = (m.expire q f o').queue q' := by
      intro q'
      rw [hrang.queue, update_inl, ← hm.queue q]
      change _ = Function.update m.queue q ((m.queue q).erase f) q'
      congr 1
      exact funext fun q => (hm.queue q).symm
    refine ⟨_, _, hstep, ⟨ht, fun g o hg => ?_, fun v q' g hv hk' hq => ?_,
      fun v q' g hv hk' => ?_, fun v r g hv hk' => ?_⟩,
      ⟨hm.wellFormed.expire hmem o', hm.data, fun q' => (hqueue q').symm, fun g => ?_⟩⟩
    · by_cases hgf : g = f
      · exact .inr (hrang.unblocked g (.inr hgf))
      · refine (h.runs g o hg).imp ?_ fun hun => hrang.unblocked g (.inl hun)
        rintro ⟨q', hq'⟩
        refine ⟨q', ?_⟩
        change g ∈ t.queue (.inl q')
        rw [hrang.queue]
        by_cases hqq : (.inl q' : Q ⊕ R) = .inl q
        · rw [hqq, Function.update_self, List.mem_erase_of_ne hgf]
          exact hqq ▸ hq'
        · rwa [Function.update_of_ne hqq]
    · have hsame := hrang.alarm v hv
      exact hsame.rang.trans (h.quiet v q' g hsame.waiting (hsame.kind ▸ hk') hq)
    · have hsame := hrang.alarm v hv
      exact h.timed v q' g hsame.waiting (hsame.kind ▸ hk')
    · have hsame := hrang.alarm v hv
      exact h.elsewhere v r g hsame.waiting (hsame.kind ▸ hk')
    · by_cases hgf : g = f
      · subst hgf
        have hpending : ({ s with worker := t } : Hosted F Q R W O D).pending S g = some o' := by
          rw [pending, show t.rung g = true from hrang.rung_self, show s.code g = some o from ho]
          exact ho'
        rw [hpending]
        exact Function.update_self _ _ _
      · refine (Function.update_of_ne hgf _ _).trans ((hm.code g).trans ?_)
        exact (pending_congr (t := { s with worker := t }) (hrang.rung g hgf) rfl).symm
  · exact hrang.own.elim

omit [DecidableEq Q] [DecidableEq R] in
/-- The current fiber comes back from a block with timeout. From now on it goes on with what it
left behind, or with what it does when its time is over. -/
theorem Invariant.leaveAlarm (h : Invariant S s) (hm : Simulates S s m) {f : F} {w : W}
    (hcur : s.worker.currentFiber = some f) (hframe : s.worker.frame f = .alarm w) :
    Invariant S { s with
        worker := Worker.leaveAlarm w f s.worker, code := codeAfter S s .leaveAlarm } ∧
      Simulates S { s with
        worker := Worker.leaveAlarm w f s.worker, code := codeAfter S s .leaveAlarm } m := by
  have hleave := h.sane.orderly.toSteady.leaveAlarm hframe
  have hsane : (Worker.leaveAlarm w f s.worker).Sane :=
    ⟨h.sane.orderly.of_sameTurn hleave, (h.sane.tracked.leaveAlarm hframe).1⟩
  have haside : Worker.Aside Own s.worker.currentFiber s.worker
      (Worker.leaveAlarm w f s.worker) := by
    rw [hcur]
    exact Worker.aside_leaveAlarm w f s.worker
  have hcode : codeAfter S s (.leaveAlarm : Action F (Q ⊕ R) W) =
      if s.worker.rung f then Function.update s.code f ((s.code f).bind S.expired)
      else s.code := by
    rw [codeAfter, hcur]
  refine h.aside hm hsane haside (fun g hg => ?_) fun g hg => .inr ?_
  · rw [hcode]
    split
    · exact Function.update_of_ne (fun hgf => hg (by rw [hgf, hcur])) _ _
    · rfl
  · obtain rfl : f = g := Option.some.inj (hcur.symm.trans hg)
    refine ⟨Function.update_self _ _ _, ?_, ?_, fun v q hv hk => ?_⟩
    · rw [hcode, pending]
      split
      · exact Function.update_self _ _ _
      · rfl
    · have hfiber : (Worker.leaveAlarm w f s.worker).fiber = s.worker.fiber := by
        rw [Worker.leaveAlarm, Worker.unscheduleTask_eq]
        rfl
      rw [hfiber]
      exact h.sane.unblocked hcur
    · rw [Worker.leaveAlarm, Worker.unscheduleTask_eq] at hv hk
      have hv' : v ∈ s.worker.waiting := List.mem_of_mem_erase hv
      have hvw := (h.sane.tracked.rings v q f hv' hk).symm.trans hframe
      obtain rfl : v = w := Frame.alarm.inj hvw
      exact h.sane.orderly.consistent.nodups.waiting.not_mem_erase hv

/-- An action of the worker beside the synchronizer. -/
theorem Invariant.other (h : Invariant S s) (hm : Simulates S s m) {created : Contexts F}
    {waiter : F} {a : Action F (Q ⊕ R) W} (ha : s.worker.Allowed a) (hpermits : s.permits a = true)
    {x : Except Fault (Worker F (Q ⊕ R) W)}
    (hx : Worker.perform created waiter s.worker a = some x) :
    x.Sat Fault.Open fun t => ∃ ls m', Transition.Guarded S.step (fun m l => l.Meets ok m) m ls ∧
      Transition.run S.step m ls = some m' ∧
      Invariant S { s with worker := t, code := codeAfter S s a } ∧
      Simulates S { s with worker := t, code := codeAfter S s a } m' := by
  obtain ⟨hown, hfree⟩ := permits_cases hpermits
  have hinv := ((h.sane.orderly.perform hx ha).and ((h.sane.tracked.perform hx).mono_bad
    fun _ _ => trivial)).and (h.sane.tracked.spares_perform h.sane.orderly.consistent h.quiet
      hx hown)
  by_cases hleave : a = .leaveAlarm
  · subst hleave
    simp only [Worker.perform] at hx
    split at hx
    · cases hx
    · rename_i f hcur
      split at hx
      · rename_i w hframe
        obtain rfl := Option.some.inj hx
        exact ⟨[], m, trivial, rfl, h.leaveAlarm hm hcur hframe⟩
      · cases hx
  · have hfree := hfree.resolve_left hleave
    rw [codeAfter_of_ne hleave]
    refine hinv.mono ?_
    rintro t ⟨⟨horderly, htracked, -⟩, haside | ⟨q, f, hrang⟩⟩
    · refine ⟨[], m, trivial, rfl, h.aside hm ⟨horderly, htracked⟩ haside (fun _ _ => rfl) ?_⟩
      exact fun f hf => .inl ⟨hfree f hf, hfree f hf⟩
    · obtain ⟨q', m', hl, hinv⟩ := h.rang hm ⟨horderly, htracked⟩ hrang
      obtain ⟨hg, hr⟩ := Transition.Guarded.single (p := fun m l => l.Meets ok m)
        (show Label.Meets ok m (.expire q' f) from trivial) hl
      exact ⟨_, m', hg, hr, hinv⟩

end Other

section Step

variable {s : Hosted F Q R W O D} {m : State F Q O D} {ok : D → C → Prop}

omit [DecidableEq F] [DecidableEq Q] [DecidableEq R] [LinearOrder W] in
theorem frame_of_userFiber {s : Worker F (Q ⊕ R) W} {f : F} (h : s.userFiber = some f) :
    s.currentFiber = some f ∧ s.frame f = .user := by
  obtain ⟨huser, hcur⟩ := Worker.currentFiber_of_userFiber h
  refine ⟨hcur, ?_⟩
  simp only [Worker.inUserCode, hcur] at huser
  split at huser
  · assumption
  · cases huser

omit [DecidableEq F] [DecidableEq Q] [DecidableEq R] [LinearOrder W] in
/-- A fiber that is in no call starts one. -/
theorem Invariant.calls (h : Invariant S s) (hm : Simulates S s m) {f : F}
    (hf : s.worker.userFiber = some f) (hcode : s.code f = none) : Within S f s m :=
  ⟨h, hm, (frame_of_userFiber hf).1, (frame_of_userFiber hf).2, hcode⟩

omit [DecidableEq Q] [DecidableEq R] [LinearOrder W] in
/-- A fiber goes on in a call: it was woken. -/
theorem Invariant.goesOn (h : Invariant S s) (hm : Simulates S s m) {f : F}
    (hf : s.worker.userFiber = some f) {o : O} (hcode : s.code f = some o) :
    m.code f = some o ∧ f ∈ m.woken ∧
      Within S f { s with code := Function.update s.code f none } (m.start f) := by
  obtain ⟨hcur, hframe⟩ := frame_of_userFiber hf
  have hmcode : m.code f = some o := by rw [hm.code f, pending_of_user hframe, hcode]
  have hwoken : f ∈ m.woken := by
    refine ((hm.wellFormed.code_iff f).1 (by simp [hmcode])).resolve_right ?_
    rintro ⟨q, hq⟩
    rw [hm.queue q] at hq
    exact h.sane.not_mem hcur _ hq
  have hother : ∀ g, g ≠ f → Function.update s.code f none g = s.code g :=
    fun g hg => Function.update_of_ne hg _ _
  have hself : Function.update s.code f none f = none := Function.update_self _ _ _
  have hne : ∀ w q g, w ∈ s.worker.waiting → (s.worker.waitable w).kind = .alarm q g →
      g ≠ f := by
    rintro w q g hw hk rfl
    have := h.sane.tracked.rings w q g hw hk
    rw [hframe] at this
    cases this
  refine ⟨hmcode, hwoken, ⟨h.sane, fun g o' hg => ?_, h.quiet, fun w q g hw hk => ?_,
    fun w r g hw hk => ?_⟩, ⟨hm.wellFormed.start hwoken, hm.data, hm.queue, fun g => ?_⟩, hcur,
    hframe, hself⟩
  · by_cases hgf : g = f
    · rw [hgf] at hg
      cases hself.symm.trans hg
    · exact h.runs g o' ((hother g hgf).symm.trans hg)
  · obtain ⟨o₁, o₂, h₁, h₂⟩ := h.timed w q g hw hk
    exact ⟨o₁, o₂, (hother g (hne w _ g hw hk)).trans h₁, h₂⟩
  · exact (hother g (hne w _ g hw hk)).trans (h.elsewhere w r g hw hk)
  · by_cases hgf : g = f
    · rw [hgf, State.start_code_self, pending_of_none hself]
    · rw [State.start_code_of_ne m hgf, hm.code g]
      exact (pending_congr (s := s) (t := { s with code := Function.update s.code f none }) rfl
        (hother g hgf)).symm

/-- What any action comes to. -/
theorem Invariant.perform (h : Invariant S s) (hm : Simulates S s m) {created : Contexts F}
    {waiter : F} {a : Act F Q R W C} (ha : Allowed S created s a) (hok : a.Meets ok s)
    {z : Except Fault (Hosted F Q R W O D)}
    (hz : Hosted.perform S created waiter s a = some z) :
    z.Sat Fault.Open fun t => ∃ ls m', Transition.Guarded S.step (fun m l => l.Meets ok m) m ls ∧
      Transition.run S.step m ls = some m' ∧ Invariant S t ∧ Simulates S t m' := by
  cases a with
  | other a =>
      obtain ⟨hpermits, hz⟩ := Option.ite_none_right_eq_some.1 hz
      obtain ⟨x, hx, rfl⟩ := Option.map_eq_some_iff.1 hz
      exact (h.other hm ha hpermits hx).map fun t ht => ht
  | call c w timeout now slice =>
      simp only [Hosted.perform] at hz
      split at hz
      · cases hz
      · rename_i f hf
        split at hz
        · rename_i hcode
          have hin := h.calls hm hf hcode
          have hstep : S.step m (.call f c) =
              some (State.finish f (S.program.exec f (S.enter c) m)) := by
            rw [Script.step, Program.stepBy, Label.map, Program.step, hin.monitor_code]
          obtain ⟨hg, hr⟩ := Transition.Guarded.single (p := fun m l => l.Meets ok m)
            (show Label.Meets ok m (.call f c) by rw [Label.Meets, hm.data]; exact hok) hstep
          exact (hin.runCode (ha f hin.current) hz).mono fun t ht => ⟨_, _, hg, hr, ht⟩
        · cases hz
  | goOn w timeout now slice =>
      simp only [Hosted.perform] at hz
      split at hz
      · cases hz
      · rename_i f hf
        split at hz
        · cases hz
        · rename_i o hcode
          obtain ⟨hmcode, hwoken, hin⟩ := h.goesOn hm hf hcode
          have hstep : S.step m (.resume f) =
              some (State.finish f (S.program.exec f o (m.start f))) := by
            rw [Script.step, Program.stepBy, Label.map, Program.step, hmcode]
            exact if_pos hwoken
          obtain ⟨hg, hr⟩ := Transition.Guarded.single (p := fun m l => l.Meets ok m)
            (show Label.Meets ok m (.resume f) from trivial) hstep
          exact (hin.runCode (ha f o hin.current hcode) hz).mono fun t ht => ⟨_, _, hg, hr, ht⟩

/-- The step lemma. A step that fails leaves the synchronizer alone. -/
theorem Invariant.step (h : Invariant S s) (hm : Simulates S s m) {created : Contexts F}
    {waiter : F} {a : Act F Q R W C} (ha : Allowed S created s a) (hok : a.Meets ok s)
    {t : Hosted F Q R W O D} (ht : Hosted.step S created waiter s a = some t) :
    ∃ ls m', Transition.Guarded S.step (fun m l => l.Meets ok m) m ls ∧
      Transition.run S.step m ls = some m' ∧ Invariant S t ∧ Simulates S t m' := by
  rw [Hosted.step] at ht
  split at ht
  · cases ht
  · obtain ⟨z, hz, hzt⟩ := Option.map_eq_some_iff.1 ht
    have hsat := h.perform hm ha hok hz
    cases z with
    | ok u =>
        obtain rfl : u = t := hzt
        exact hsat
    | error e =>
        have hopen : ∀ e', some e = some e' → e'.Open := by
          rintro e' he
          obtain rfl : e = e' := Option.some.inj he
          exact hsat
        have hsane : Worker.Sane { s.worker with fault := some e } :=
          ⟨h.sane.orderly.of_rest rfl hopen, h.sane.tracked.of_rest rfl⟩
        rw [← hzt]
        exact ⟨[], m, trivial, rfl, ⟨hsane, h.runs, h.quiet, h.timed, h.elsewhere⟩,
          ⟨hm.wellFormed, hm.data, hm.queue, hm.code⟩⟩

omit [LinearOrder W] [DecidableEq Q] [DecidableEq R] in
theorem invariant_init (S : Script F Q C O D) (waiter : F) (waitable : W → Waitable F (Q ⊕ R))
    (d : D) : Invariant S (init (F := F) (O := O) waiter waitable d) ∧
      Simulates S (init waiter waitable d) (State.idle d) := by
  have hsane : (Worker.init waiter waitable).Sane :=
    ⟨Worker.orderly_init waiter waitable, Worker.tracked_init waiter waitable⟩
  refine ⟨⟨hsane, fun f o hf => ?_, fun w q f hw => ?_, fun w q f hw => ?_, fun w r f hw => ?_⟩,
    ⟨.idle d, rfl, fun q => rfl, fun f => (pending_of_none rfl).symm⟩⟩
  · cases hf
  · cases hw
  · cases hw
  · cases hw

omit [DecidableEq F] [DecidableEq Q] [DecidableEq R] [LinearOrder W] in
/-- A fiber that the monitor says is woken is in a queue of the worker. -/
theorem Invariant.woken (h : Invariant S s) (hm : Simulates S s m) {f : F} (hf : f ∈ m.woken) :
    f ∈ s.worker.runnableQueue ∨ f ∈ s.worker.suspendedQueue := by
  obtain ⟨o, ho⟩ := hm.wellFormed.code_of_woken hf
  have hcode : s.code f ≠ none := by
    intro hnone
    rw [hm.code f, pending_of_none hnone] at ho
    cases ho
  obtain ⟨o', ho'⟩ := Option.ne_none_iff_exists'.1 hcode
  rcases h.runs f o' ho' with ⟨q, hq⟩ | hun
  · rw [← hm.queue q] at hq
    exact absurd hf (hm.wellFormed.queue_not_woken q f hq)
  · exact h.sane.mem hun

end Step

/-- The monitor is in the same state, and the fibers that it says are woken can run, at once or
after they are resumed. -/
structure Describes (S : Script F Q C O D) (m : State F Q O D) (s : Hosted F Q R W O D) : Prop
    extends Simulates S s m where
  woken : ∀ f ∈ m.woken, f ∈ s.worker.runnableQueue ∨ f ∈ s.worker.suspendedQueue

/-- Every call meets a condition that always holds. -/
theorem guarded_meets {S : Script F Q C O D} {created : Contexts F} {waiter : F}
    {as : List (Act F Q R W C)} {s : Hosted F Q R W O D}
    (h : Transition.Guarded (step S created waiter) (Allowed S created) s as) :
    Transition.Guarded (step S created waiter)
      (fun s a => Allowed S created s a ∧ a.Meets (fun _ _ => True) s) s as :=
  h.imp (P := fun _ => True) (fun _ _ _ _ _ _ => trivial)
    (fun s a _ ha => ⟨ha, by cases a <;> trivial⟩) trivial

/-- A monitor has an invariant, and calls meet a condition. Then in every run of a worker that hosts
the synchronizer, its state is described by a monitor that has the invariant. -/
theorem exists_describes {S : Script F Q C O D} {created : Contexts F} {waiter : F}
    {waitable : W → Waitable F (Q ⊕ R)} {d : D} {ok : D → C → Prop}
    {as : List (Act F Q R W C)} {s : Hosted F Q R W O D} {P : State F Q O D → Prop}
    (hstep : ∀ m l m', P m → l.Meets ok m → S.step m l = some m' → P m')
    (hidle : P (State.idle d))
    (hg : Transition.Guarded (step S created waiter)
      (fun s a => Allowed S created s a ∧ a.Meets ok s) (init waiter waitable d) as)
    (hr : Transition.run (step S created waiter) (init waiter waitable d) as = some s) :
    ∃ m, P m ∧ Describes S m s := by
  have hkeep : ∀ (s : Hosted F Q R W O D) a t, (∃ m, P m ∧ Invariant S s ∧ Simulates S s m) →
      (Allowed S created s a ∧ a.Meets ok s) → step S created waiter s a = some t →
      ∃ m, P m ∧ Invariant S t ∧ Simulates S t m := by
    rintro s a t ⟨m, hP, hinv, hm⟩ ⟨ha, hok⟩ ht
    obtain ⟨ls, m', hgs, hls, hinv', hm'⟩ := hinv.step hm ha hok ht
    exact ⟨m', hgs.invariant (fun _ _ _ hs hok h => hstep _ _ _ hs hok h) hP hls, hinv', hm'⟩
  obtain ⟨m, hP, hinv, hm⟩ :=
    hg.invariant hkeep ⟨_, hidle, invariant_init S waiter waitable d⟩ hr
  exact ⟨m, hP, hm, fun f hf => hinv.woken hm hf⟩

/-- In every allowed run of a worker that hosts a synchronizer, with whatever else happens in
between, the synchronizer is in a state of a run of the monitor that its code describes. -/
theorem describes_of_run (S : Script F Q C O D) (created : Contexts F) (waiter : F)
    (waitable : W → Waitable F (Q ⊕ R)) (d : D) (ok : D → C → Prop) (as : List (Act F Q R W C))
    (s : Hosted F Q R W O D)
    (hg : Transition.Guarded (step S created waiter)
      (fun s a => Allowed S created s a ∧ a.Meets ok s) (init waiter waitable d) as)
    (hr : Transition.run (step S created waiter) (init waiter waitable d) as = some s) :
    ∃ ls m, Transition.Guarded S.step (fun m l => l.Meets ok m) (State.idle d) ls ∧
      Transition.run S.step (State.idle d) ls = some m ∧ Describes S m s := by
  have hextend : ∀ m l m', (∃ ls, Transition.Guarded S.step (fun m l => l.Meets ok m)
        (State.idle d) ls ∧ Transition.run S.step (State.idle d) ls = some m) →
      l.Meets ok m → S.step m l = some m' →
      ∃ ls, Transition.Guarded S.step (fun m l => l.Meets ok m) (State.idle d) ls ∧
        Transition.run S.step (State.idle d) ls = some m' := by
    rintro m l m' ⟨ls, hgs, hls⟩ hok hl
    obtain ⟨hone, hrun⟩ := Transition.Guarded.single (p := fun m l => l.Meets ok m) hok hl
    refine ⟨ls ++ [l], hgs.then hls hone, ?_⟩
    rw [Transition.run_append, hls]
    exact hrun
  obtain ⟨m, ⟨ls, hgs, hls⟩, hm⟩ := exists_describes hextend ⟨[], trivial, rfl⟩ hg hr
  exact ⟨ls, m, hgs, hls, hm⟩

/-- Fiber 1 waits for a signal with a timeout, fiber 2 without. The alarm rings for fiber 1, which
goes on and signals twice. -/
def timesOut : List (Act ℕ Unit Unit ℕ Signal.Call) :=
  [.other (.hatch 1), .other (.hatch 2), .other (.work 1 1), .call (.waitUntil false) 7 100 2 true,
    .call .wait 0 0 3 true, .other (.loop 200), .other (.expire false), .other (.expire false),
    .other (.decide 201), .other .leaveAlarm, .goOn 0 0 202 true,
    .call (.signal true true) 0 0 203 true, .call (.signal true true) 0 0 204 true]

theorem describes_of_run_timesOut :
    ∃ s, Transition.run (step (Signal.script ℕ) .all 0)
        (init 0 (fun _ => ⟨0, none, .timed, false⟩) Signal.Data.init) timesOut = some s ∧
      s.worker.runnableQueue = [1, 2] ∧ s.data.signalled = 1 ∧
      ∃ ls m, Transition.Guarded (Signal.script ℕ).step (fun m l => l.Meets (fun _ _ => True) m)
          (State.idle Signal.Data.init) ls ∧
        Transition.run (Signal.script ℕ).step (State.idle Signal.Data.init) ls = some m ∧
        Describes (Signal.script ℕ) m s := by
  refine ⟨_, rfl, rfl, rfl, describes_of_run (Signal.script ℕ) .all 0
    (fun _ => ⟨0, none, .timed, false⟩) Signal.Data.init (fun _ _ => True) timesOut _ ?_ rfl⟩
  refine .cons ⟨trivial, trivial⟩ rfl (.cons ⟨trivial, trivial⟩ rfl (.cons ⟨trivial, trivial⟩ rfl
    (.cons ⟨fun _ _ _ => rfl, trivial⟩ rfl (.cons ⟨fun _ _ _ => rfl, trivial⟩ rfl
    (.cons ⟨trivial, trivial⟩ rfl (.cons ⟨trivial, trivial⟩ rfl (.cons ⟨trivial, trivial⟩ rfl
    (.cons ⟨trivial, trivial⟩ rfl (.cons ⟨trivial, trivial⟩ rfl
    (.cons ⟨fun _ _ _ _ _ => rfl, trivial⟩ rfl (.cons ⟨fun _ _ _ => rfl, trivial⟩ rfl
    (.cons ⟨fun _ _ _ => rfl, trivial⟩ rfl trivial))))))))))))

end Hosted

end Zth
