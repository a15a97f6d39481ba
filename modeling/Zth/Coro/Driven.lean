import Zth.Coro.Coded

/-!
# A coroutine is driven by one fiber at a time

As long as no fiber drives a coroutine that is suspended for another one and has no continuation,
the flags and continuations of the promises tell where every coroutine is. Then, every coroutine
is executed by one fiber at most, and no assertion fails.
-/

namespace Zth.Coro

variable {F C α E : Type*} [DecidableEq F] [DecidableEq C]

namespace Nested

/-- Two states that differ in the mailboxes, and in which fibers wait. -/
structure Similar (w w' : Nested F C α E) : Prop where
  last : w'.last = w.last
  point : w'.point = w.point
  drivers : w'.drivers = w.drivers
  promise : ∀ c, SamePromise (w.promise c) (w'.promise c)

theorem Similar.refl (w : Nested F C α E) : Similar w w :=
  ⟨rfl, rfl, rfl, fun _ => .refl _⟩

theorem Similar.trans {w w' w'' : Nested F C α E} (h : Similar w w') (h' : Similar w' w'') :
    Similar w w'' :=
  ⟨h'.last.trans h.last, h'.point.trans h.point, h'.drivers.trans h.drivers,
    fun c => (h.promise c).trans (h'.promise c)⟩

theorem similar_setBlocked (w : Nested F C α E) (f : F) (b : Blocked C) :
    Similar w (w.setBlocked f b) :=
  ⟨rfl, rfl, rfl, fun _ => .refl _⟩

theorem similar_setPromise (w : Nested F C α E) {d : C} {p : GeneratorPromise F C α E}
    (hp : SamePromise (w.promise d) p) : Similar w (w.setPromise d p) := by
  refine ⟨rfl, rfl, rfl, fun c => ?_⟩
  rw [setPromise]
  dsimp only
  by_cases hc : c = d
  · subst hc
    rw [Function.update_self]
    exact hp
  · rw [Function.update_of_ne hc]
    exact .refl _

theorem similar_wait (w : Nested F C α E) (f : F) (d : C) : Similar w (w.wait f d) := by
  rw [wait]
  split
  · refine Similar.trans ?_ (similar_setBlocked ..)
    exact w.similar_setPromise ⟨rfl, rfl, rfl, rfl, fun _ => rfl⟩
  · split
    · exact similar_setBlocked ..
    · refine Similar.trans ?_ (similar_setBlocked ..)
      refine w.similar_setPromise ⟨rfl, rfl, rfl, rfl, fun k => ?_⟩
      rw [List.count_append]
      simp

theorem similar_awaitResume (gen : C → Bool) (w : Nested F C α E) (f : F)
    (waiter : Option C) (d : C) : Similar w (w.awaitResume gen f waiter d) := by
  rw [awaitResume]
  split
  · split
    · exact w.similar_setPromise ⟨rfl, rfl, rfl, rfl, fun _ => rfl⟩
    · split
      · exact .refl w
      · exact w.similar_wait f d
  · split
    · exact .refl w
    · exact similar_setBlocked ..

/-- A suspended coroutine is resumed. -/
theorem resume_spec (gen : C → Bool) (f : F) {c : C} {w : Nested F C α E}
    (hrunning : (w.promise c).mRunning = false) (hexec : w.point c ≠ .executing)
    (hdone : w.point c ≠ .done) :
    ∃ w', w.resume gen f c = some w' ∧
      Similar ((w.setPromise c { w.promise c with mRunning := true }).setPoint c .executing)
        w' := by
  have hp : (w.promise c).setRunning true = some { w.promise c with mRunning := true } := by
    rw [GeneratorPromise.setRunning, hrunning, if_neg (by simp)]
  rw [resume, hp, Option.bind_some]
  cases hpoint : w.point c with
  | initial => exact ⟨_, rfl, .refl _⟩
  | yielded => exact ⟨_, rfl, .refl _⟩
  | awaiting d => exact ⟨_, rfl, similar_awaitResume ..⟩
  | executing => exact absurd hpoint hexec
  | done => exact absurd hpoint hdone

/-- What holds in every state, as long as no coroutine is driven that another one is going to
resume. -/
structure Inv (gen : C → Bool) (w : Nested F C α E) : Prop where
  last : w.last ≠ .assertion
  shape : Shape w.point w.drivers
  coded : Coded gen w.point w.promise

omit [DecidableEq F] in
theorem inv_init (gen : C → Bool) [DecidableEq F] : Inv gen (init F C α E) where
  last := by simp [init]
  shape := Shape.init
  coded := by
    intro c
    apply CodedAt.of_not_awaited
    · simp [init]
    · constructor
      · simp [init, GeneratorPromise.init]
      · simp [init, GeneratorPromise.init]
      · simp [init, GeneratorPromise.init]
      · simp [init, GeneratorPromise.init]
      · simp [init, GeneratorPromise.init]

theorem Inv.similar {gen : C → Bool} {w w' : Nested F C α E} (h : Inv gen w)
    (hw' : Similar w w') : Inv gen w' where
  last := hw'.last ▸ h.last
  shape := by
    rw [hw'.point, hw'.drivers]
    exact h.shape
  coded := by
    intro c
    rw [hw'.point]
    exact (h.coded c).congr (hw'.promise c) Iff.rfl Iff.rfl fun _ => Iff.rfl

theorem Inv.setLast {gen : C → Bool} {w : Nested F C α E} (h : Inv gen w) {e : Ending}
    (he : e ≠ .assertion) : Inv gen { w with last := e } :=
  ⟨he, h.shape, h.coded⟩

/-- A coroutine whose promise says that nobody drives it, and that is not suspended for another
one. -/
theorem Inv.free {gen : C → Bool} {w : Nested F C α E} (h : Inv gen w) {c : C}
    (hrunning : ¬ (w.promise c).running = true) (hawaits : ∀ d, w.point c ≠ .awaiting d) :
    (w.point c).Free := by
  refine ⟨fun hexec => hrunning ?_, hawaits⟩
  rw [GeneratorPromise.running, (h.coded c).running.2 hexec, Bool.true_or]

/-- A fiber starts to drive a free coroutine. -/
theorem Inv.start {gen : C → Bool} {w : Nested F C α E} (h : Inv gen w) {c : C}
    (hfree : (w.point c).Free) (hdone : w.point c ≠ .done) (f : F) (generates : Bool)
    {p : GeneratorPromise F C α E} (hp : Unawaited gen c (w.point c) p) :
    ∃ w', ((w.setPromise c p).setDrivers f (⟨generates, c, c⟩ :: w.drivers f)).resume gen f c =
      some w' ∧ Inv gen w' := by
  have hself : ((w.setPromise c p).setDrivers f (⟨generates, c, c⟩ :: w.drivers f)).promise c = p :=
    Function.update_self ..
  obtain ⟨w', hw', hsimilar⟩ := resume_spec gen f
    (w := (w.setPromise c p).setDrivers f (⟨generates, c, c⟩ :: w.drivers f))
    (by rw [hself, hp.not_running hfree]) hfree.1 hdone
  refine ⟨w', hw', Inv.similar ?_ hsimilar⟩
  constructor
  · exact h.last
  · exact h.shape.start hfree f generates
  · have hcoded := h.coded.update hfree.2 (h.shape.not_awaited hfree) (by simp) (hp.start hdone)
    rw [hself]
    simpa only [setPromise, setDrivers, setPoint, Function.update_idem] using hcoded

/-- Back in its loop, a coroutine that nobody awaits returns. -/
theorem Inv.leave {gen : C → Bool} {w : Nested F C α E} (h : Inv gen w) {f : F} {r : Driver C}
    {rs : List (Driver C)} (hr : w.drivers f = r :: rs) {a : Point C} (ha : a.Free)
    {p : GeneratorPromise F C α E} (hp : Unawaited gen r.current a p)
    (hnone : ∀ k, w.point k ≠ .awaiting r.current) :
    Inv gen (((w.setPromise r.current p).setPoint r.current a).setDrivers f rs) where
  last := h.last
  shape := h.shape.leave hr hnone ha
  coded := by
    have hx : w.point r.current = .executing :=
      h.shape.executing f r (hr ▸ List.mem_cons_self)
    exact h.coded.update (by simp [hx]) hnone ha.2 hp

/-- A coroutine has suspended itself, and control goes to the one that awaited it, or back to
the loop. -/
theorem Inv.transfer {gen : C → Bool} {w : Nested F C α E} (h : Inv gen w) {f : F}
    {r : Driver C} {rs : List (Driver C)} (hr : w.drivers f = r :: rs) {a : Point C}
    (ha : a.Free) {p : GeneratorPromise F C α E} (hp : Unawaited gen r.current a p)
    (hvalid : p.valid = true ∨ p.mCompleted = true) {cont : Handle C}
    (hto : CodedAt.GoesTo w.point r.current cont) :
    ∃ w', Nested.transfer gen f cont r rs ((w.setPromise r.current p).setPoint r.current a) =
      some w' ∧ Inv gen w' := by
  have hmem : r ∈ w.drivers f := hr ▸ List.mem_cons_self
  have hx : w.point r.current = .executing := h.shape.executing f r hmem
  obtain ⟨y, rfl, hy⟩ | ⟨rfl, hnone⟩ := hto
  · have hxy : y ≠ r.current := by
      rintro rfl
      cases hx.symm.trans hy
    set w₁ := ((w.setPromise r.current p).setPoint r.current a).setDrivers f
      ({ r with current := y } :: rs) with hw₁
    have hpromise : w₁.promise y = w.promise y := Function.update_of_ne hxy ..
    have hpoint : w₁.point y = .awaiting r.current :=
      (Function.update_of_ne hxy ..).trans hy
    have hstop : (w₁.promise y).mRunning = false := by
      rw [hpromise]
      apply Bool.eq_false_iff.2
      intro hrun
      cases hy.symm.trans ((h.coded y).running.1 hrun)
    obtain ⟨w', hw', hsimilar⟩ := resume_spec gen f hstop (by simp [hpoint]) (by simp [hpoint])
    refine ⟨w', hw', Inv.similar ?_ hsimilar⟩
    constructor
    · exact h.last
    · exact h.shape.back hr hy ha
    · rw [hpromise]
      exact h.coded.back hx hy (fun k hk => h.shape.unique k y _ hk hy) ha hp
  · have hroot : r.current = r.root := h.shape.eq_root hmem hnone
    have hleave := h.leave hr ha hp hnone
    have hpromise : ((w.setPromise r.current p).setPoint r.current a).promise r.root = p := by
      rw [← hroot]
      exact Function.update_self ..
    rw [Nested.transfer, hpromise]
    split
    · have hreturns : (p.valid || p.mCompleted) = true := by
        rw [Bool.or_eq_true]
        exact hvalid
      rw [if_pos hreturns]
      exact ⟨_, rfl, hleave⟩
    · split
      · exact ⟨_, rfl, hleave⟩
      -- A loop of `run` goes on, until its coroutine has completed.
      · rename_i hcomplete
        have hdone : a ≠ .done := fun heq => hcomplete (hp.completed.2 heq)
        have hpoint : (((w.setPromise r.current p).setPoint r.current a).setDrivers f rs).point
            r.current = a := Function.update_self ..
        obtain ⟨w', hw', hinv⟩ := hleave.start (c := r.current) (by rw [hpoint]; exact ha)
          (by rw [hpoint]; exact hdone) f r.generates (by rw [hpoint]; exact hp)
        refine ⟨w', ?_, hinv⟩
        rw [← hw', ← hroot]
        simp only [setPromise, setDrivers, setPoint, Function.update_idem, Function.update_self]

/-- The coroutine that a loop executes suspends itself for a free one, whose promise has been
told so. -/
theorem Inv.delegate {gen : C → Bool} {w : Nested F C α E} (h : Inv gen w) {f : F}
    {r : Driver C} {rs : List (Driver C)} (hr : w.drivers f = r :: rs) {d : C}
    (hd : (w.point d).Free) (hdone : w.point d ≠ .done) {p : GeneratorPromise F C α E}
    (hrunning : p.mRunning = false) (hcompleted : p.mCompleted = false)
    (habandoned : p.abandoned = false)
    (hcont : p.mContinuation = if gen d then none else some (.coro r.current))
    (hqueue : ∀ k, p.takeQueue.count (.coro k) =
      if k = r.current ∧ gen d = true then 1 else 0) :
    ∃ w', ((((w.setPromise r.current { w.promise r.current with mRunning := false }).setPromise d
      p).setPoint r.current (.awaiting d)).setDrivers f ({ r with current := d } :: rs)).resume
        gen f d = some w' ∧ Inv gen w' := by
  have hx : w.point r.current = .executing := h.shape.executing f r (hr ▸ List.mem_cons_self)
  have hdx : d ≠ r.current := by
    rintro rfl
    exact hd.1 hx
  set w₁ := (((w.setPromise r.current { w.promise r.current with mRunning := false }).setPromise d
    p).setPoint r.current (.awaiting d)).setDrivers f ({ r with current := d } :: rs) with hw₁
  have hpromise : w₁.promise d = p := Function.update_self ..
  have hpoint : w₁.point d = w.point d := Function.update_of_ne hdx ..
  obtain ⟨w', hw', hsimilar⟩ := resume_spec gen f (w := w₁) (by rw [hpromise, hrunning])
    (by rw [hpoint]; exact hd.1) (by rw [hpoint]; exact hdone)
  refine ⟨w', hw', Inv.similar ?_ hsimilar⟩
  constructor
  · exact h.last
  · exact h.shape.delegate hr hd
  · have hcoded := h.coded.delegate hx hd hdone (h.shape.not_awaited hd)
      (p := { p with mRunning := true }) rfl hcompleted habandoned hcont hqueue
    rw [hpromise]
    simpa only [hw₁, setPromise, setDrivers, setPoint, Function.update_idem] using hcoded

variable {gen : C → Bool} {w w' : Nested F C α E}

/-- A free coroutine is not awaited, and has no continuation if it is not running. -/
theorem Inv.unawaited (h : Inv gen w) {c : C} (hfree : (w.point c).Free) :
    Unawaited gen c (w.point c) (w.promise c) :=
  (h.coded c).not_awaited (h.shape.not_awaited hfree)

theorem Inv.run (h : Inv gen w) (f : F) {c : C}
    (hok : ∀ d, w.point c = .awaiting d → (w.promise c).running = true) :
    ∃ w', Nested.run gen f c w = some w' ∧ Inv gen w' := by
  rw [Nested.run]
  split
  · exact ⟨_, rfl, h.setLast (by simp)⟩
  · rename_i hrunning
    split
    · exact ⟨_, rfl, h⟩
    · rename_i hcompleted
      have hfree := h.free hrunning fun d hd => hrunning (hok d hd)
      have hdone : w.point c ≠ .done := fun hd => hcompleted ((h.coded c).completed.2 hd)
      obtain ⟨w', hw', hinv⟩ := h.start hfree hdone f false (h.unawaited hfree)
      refine ⟨w', ?_, hinv⟩
      rw [← hw', setPromise, Function.update_eq_self]

theorem Inv.generate (h : Inv gen w) (f : F) {c : C}
    (hok : ∀ d, w.point c = .awaiting d →
      (w.promise c).valid = true ∨ (w.promise c).running = true) :
    ∃ w', Nested.generate gen f c w = some w' ∧ Inv gen w' := by
  rw [Nested.generate]
  split
  · exact ⟨_, rfl, h.setLast (by simp)⟩
  · rename_i hcompleted
    split
    · exact ⟨_, rfl, h⟩
    · rename_i hvalid
      split
      · exact ⟨_, rfl, h⟩
      · rename_i hrunning
        have hfree := h.free hrunning fun d hd => (hok d hd).elim hvalid hrunning
        have hdone : w.point c ≠ .done := fun hd => hcompleted ((h.coded c).completed.2 hd)
        have hunawaited := h.unawaited hfree
        have hset : (w.promise c).setContinuation .noop =
            some { w.promise c with mContinuation := some .noop } :=
          if_pos (Or.inl (GeneratorPromise.not_running_iff.1 hrunning).2)
        rw [hset, Option.bind_some]
        apply h.start hfree hdone f true
        exact ⟨hunawaited.running, hunawaited.completed, hunawaited.abandoned, by simp,
          hunawaited.queue⟩

theorem Inv.await (h : Inv gen w) {f : F} {r : Driver C} {rs : List (Driver C)}
    (hr : w.drivers f = r :: rs) {d : C}
    (hok : ∀ e, w.point d = .awaiting e →
      (gen d = true ∧ (w.promise d).validFor none = true) ∨ (w.promise d).running = true) :
    ∃ w', Nested.await gen f d r rs w = some w' ∧ Inv gen w' := by
  have hx : w.point r.current = .executing := h.shape.executing f r (hr ▸ List.mem_cons_self)
  have hstop : (w.promise r.current).setRunning false =
      some { w.promise r.current with mRunning := false } :=
    if_neg (by rw [(h.coded r.current).running.2 hx]; simp)
  have hcompleted : w.point d ≠ .done → (w.promise d).mCompleted = false := fun hd =>
    Bool.eq_false_iff.2 fun hp => hd ((h.coded d).completed.1 hp)
  have habandoned : w.point d ≠ .done → (w.promise d).abandoned = false := fun hd =>
    Bool.eq_false_iff.2 fun hp => hd ((h.coded d).abandoned.1 hp).1
  have hpromise : (w.point d).Free →
      (w.setPromise r.current { w.promise r.current with mRunning := false }).promise d =
        w.promise d := by
    intro hfree
    apply Function.update_of_ne
    rintro rfl
    exact hfree.1 hx
  rw [Nested.await]
  dsimp only
  rw [hstop, Option.bind_some, Option.bind_some]
  split
  · rename_i hgen
    split
    · exact ⟨_, rfl, h.similar (similar_awaitResume ..)⟩
    · rename_i hready
      simp only [Bool.or_eq_true, not_or] at hready
      obtain ⟨⟨hopen, hvalid⟩, hrunning⟩ := hready
      have hfree := h.free hrunning fun e he =>
        (hok e he).elim (fun hv => hvalid hv.2) hrunning
      have hdone : w.point d ≠ .done := fun hd => hopen ((h.coded d).abandoned.2 ⟨hd, hgen⟩)
      obtain ⟨hstopped, hcont⟩ := GeneratorPromise.not_running_iff.1 hrunning
      rw [hpromise hfree]
      apply h.delegate hr hfree hdone
      · exact hstopped
      · exact hcompleted hdone
      · exact habandoned hdone
      · rw [if_pos hgen]
        exact hcont
      · intro k
        rw [List.count_append, (h.unawaited hfree).queue, Nat.zero_add]
        by_cases hk : k = r.current
        · rw [hk, List.count_singleton_self, if_pos ⟨rfl, hgen⟩]
        · rw [if_neg fun heq => hk heq.1, List.count_eq_zero]
          simpa using hk
  · rename_i hgen
    split
    · exact ⟨_, rfl, h.similar (similar_awaitResume ..)⟩
    · rename_i hready
      simp only [Bool.or_eq_true, not_or] at hready
      obtain ⟨hopen, hrunning⟩ := hready
      have hfree := h.free hrunning fun e he =>
        (hok e he).elim (fun hv => hgen hv.1) hrunning
      have hdone : w.point d ≠ .done := fun hd => hopen ((h.coded d).completed.2 hd)
      obtain ⟨hstopped, hcont⟩ := GeneratorPromise.not_running_iff.1 hrunning
      have hset : (w.promise d).setContinuation (.coro r.current) =
          some { w.promise d with mContinuation := some (.coro r.current) } :=
        if_pos (Or.inl hcont)
      rw [hpromise hfree, hset, Option.bind_some]
      apply h.delegate hr hfree hdone
      · exact hstopped
      · exact hcompleted hdone
      · exact habandoned hdone
      · rw [if_neg hgen]
      · intro k
        rw [if_neg fun hk => hgen hk.2]
        exact (h.unawaited hfree).queue k

theorem Inv.yield (h : Inv gen w) {f : F} {r : Driver C} {rs : List (Driver C)}
    (hr : w.drivers f = r :: rs) (hgen : gen r.current = true) (v : α) :
    ∃ w', Nested.yield gen f v r rs w = some w' ∧ Inv gen w' := by
  have hx : w.point r.current = .executing := h.shape.executing f r (hr ▸ List.mem_cons_self)
  obtain ⟨p', cont, hyield, hsame, hsome⟩ := (h.coded r.current).yield hx hgen
    (fun k k' hk hk' => h.shape.unique k k' _ hk hk') v
  rw [Nested.yield, hyield, Option.bind_some]
  cases cont with
  | none => exact ⟨_, rfl, h.similar (w.similar_setPromise (hsame rfl))⟩
  | some handle =>
      obtain ⟨hunawaited, hvalid, hto⟩ := hsome handle rfl
      exact h.transfer hr (by simp [Point.Free]) hunawaited (Or.inl hvalid) hto

theorem Inv.finish (h : Inv gen w) {f : F} {r : Driver C} {rs : List (Driver C)}
    (hr : w.drivers f = r :: rs) : ∃ w', Nested.finish gen f r rs w = some w' ∧ Inv gen w' := by
  have hx : w.point r.current = .executing := h.shape.executing f r (hr ▸ List.mem_cons_self)
  have hcoded := h.coded r.current
  have hend : ∃ p' handle, (if gen r.current then (w.promise r.current).returnVoid.finalSuspend
      else taskFinalSuspend (w.promise r.current).returnVoid) = some (p', handle) ∧
        Unawaited gen r.current .done p' ∧ p'.mCompleted = true ∧
          CodedAt.GoesTo w.point r.current handle := by
    cases hgen : gen r.current with
    | false => exact hcoded.finish_task hx hgen
    | true =>
        exact hcoded.finish_generator hx hgen fun k k' hk hk' => h.shape.unique k k' _ hk hk'
  obtain ⟨p', handle, hp', hunawaited, hcompleted, hto⟩ := hend
  rw [Nested.finish]
  dsimp only
  rw [hp', Option.bind_some]
  exact h.transfer hr (by simp [Point.Free]) hunawaited (Or.inr hcompleted) hto

/-- A step does not drive a coroutine that is suspended for another one, unless its promise
tells that it is running, or there is a value to take instead. -/
def DrivesFree (gen : C → Bool) (w : Nested F C α E) : Label F C α → Prop
  | .run _ c => ∀ d, w.point c = .awaiting d → (w.promise c).running = true
  | .generate _ c => ∀ d, w.point c = .awaiting d →
      (w.promise c).valid = true ∨ (w.promise c).running = true
  | .await _ c => ∀ d, w.point c = .awaiting d →
      (gen c = true ∧ (w.promise c).validFor none = true) ∨ (w.promise c).running = true
  | .value _ _ => True
  | .yield _ _ => True
  | .finish _ => True
  | .go _ => True

omit [DecidableEq F] [DecidableEq C] in
/-- What holds after a step that does not fail. -/
theorem attempt_of_exists {P : Nested F C α E → Prop} {next : Option (Nested F C α E)}
    (h : ∃ w', next = some w' ∧ P w') : P (w.attempt next) := by
  obtain ⟨w', rfl, hP⟩ := h
  exact hP

/-- What one step keeps. -/
theorem Inv.step (h : Inv gen w) {a : Label F C α} (hok : DrivesFree gen w a)
    (hs : step gen w a = some w') : Inv gen w' := by
  have hstart : Inv gen { w with last := .ok } := h.setLast (by simp)
  cases a with
  | run f c =>
      rw [Nested.step] at hs
      split at hs
      · cases hs
        exact attempt_of_exists (hstart.run f hok)
      · cases hs
  | generate f c =>
      rw [Nested.step] at hs
      split at hs
      · cases hs
        exact attempt_of_exists (hstart.generate f hok)
      · cases hs
  | value f d =>
      rw [Nested.step] at hs
      split at hs
      · cases hs
        rw [Nested.value]
        split
        · exact h.setLast (by simp)
        · exact hstart.similar (similar_wait ..)
      · cases hs
  | await f d =>
      rw [Nested.step] at hs
      split at hs
      · cases hs
      · rename_i r rs hr
        split at hs
        · cases hs
          exact attempt_of_exists (hstart.await hr hok)
        · cases hs
  | yield f v =>
      rw [Nested.step] at hs
      split at hs
      · cases hs
      · rename_i r rs hr
        split at hs
        · rename_i hen
          cases hs
          exact attempt_of_exists (hstart.yield hr hen.2.2.1 v)
        · cases hs
  | finish f =>
      rw [Nested.step] at hs
      split at hs
      · cases hs
      · rename_i r rs hr
        split at hs
        · cases hs
          exact attempt_of_exists (hstart.finish hr)
        · cases hs
  | go f =>
      rw [Nested.step] at hs
      split at hs
      · cases hs
      · split at hs
        · cases hs
          exact hstart.similar (similar_wait ..)
        · cases hs
      · split at hs
        · cases hs
          exact hstart.similar (similar_setBlocked ..)
        · cases hs

/-- The promise is going to resume the coroutine. -/
def Holds (c : C) (p : GeneratorPromise F C α E) : Prop :=
  p.mContinuation = some (.coro c) ∨ .coro c ∈ p.takeQueue

/-- No assertion has failed, no coroutine is executed by two loops, and every coroutine that is
going to be resumed is still suspended there. -/
structure DrivenOnce (w : Nested F C α E) : Prop where
  last : w.last ≠ .assertion
  nodup : ∀ f, ((w.drivers f).map Driver.current).Nodup
  disjoint : ∀ f g, ∀ r ∈ w.drivers f, ∀ s ∈ w.drivers g, r.current = s.current → f = g
  awaiting : ∀ c d, Holds c (w.promise d) → w.point c = .awaiting d

theorem Inv.holds_iff (h : Inv gen w) (c d : C) :
    Holds c (w.promise d) ↔ w.point c = .awaiting d := by
  have hcoded := h.coded d
  rw [Holds, hcoded.cont, ← List.count_pos_iff, hcoded.queue]
  cases gen d with
  | false => simp
  | true =>
      by_cases hc : w.point c = .awaiting d
      · simp [hc]
      · simp [hc]

theorem Inv.drivenOnce (h : Inv gen w) : DrivenOnce w where
  last := h.last
  nodup := h.shape.nodup
  disjoint := h.shape.disjoint
  awaiting := fun c d => (h.holds_iff c d).1

theorem Holds.same {p p' : GeneratorPromise F C α E} {c : C} (hc : Holds c p)
    (h : SamePromise p p') : Holds c p' := by
  rw [Holds, h.cont, ← List.count_pos_iff, h.queue, List.count_pos_iff]
  exact hc

omit [DecidableEq F] in
theorem holds_setPromise {e : C} {p : GeneratorPromise F C α E}
    (hp : ∀ k, Holds k (w.promise e) → Holds k p) {c d : C} (hc : Holds c (w.promise d)) :
    Holds c ((w.setPromise e p).promise d) := by
  rw [setPromise]
  dsimp only
  by_cases hd : d = e
  · subst hd
    rw [Function.update_self]
    exact hp c hc
  · rw [Function.update_of_ne hd]
    exact hc

/-- When a coroutine is resumed that another one is going to resume, it is driven twice. -/
theorem resume_twice (gen : C → Bool) (f : F) {c d : C} (hpoint : w.point c = .awaiting d)
    (hrunning : (w.promise c).mRunning = false) (hc : Holds c (w.promise d)) :
    ∃ w', w.resume gen f c = some w' ∧ ¬ DrivenOnce w' := by
  obtain ⟨w', hw', hsimilar⟩ := resume_spec gen f hrunning (by simp [hpoint]) (by simp [hpoint])
  refine ⟨w', hw', fun honce => ?_⟩
  have hset : Holds c ((w.setPromise c { w.promise c with mRunning := true }).promise d) := by
    apply holds_setPromise
    · exact fun k hk => hk
    · exact hc
  have hawait := honce.awaiting c d (hset.same (hsimilar.promise d))
  rw [hsimilar.point] at hawait
  cases (Function.update_self ..).symm.trans hawait

/-- `run` of a coroutine that is suspended for another one, and has no continuation. -/
theorem Inv.run_twice (h : Inv gen w) (f : F) {c d : C} (hc : w.point c = .awaiting d)
    (hrunning : ¬ (w.promise c).running = true) :
    ∃ w', Nested.run gen f c w = some w' ∧ ¬ DrivenOnce w' := by
  have hcompleted : ¬ (w.promise c).mCompleted = true := by
    rw [(h.coded c).completed, hc]
    simp
  rw [Nested.run, if_neg hrunning, if_neg hcompleted]
  exact resume_twice gen f hc (GeneratorPromise.not_running_iff.1 hrunning).1
    ((h.holds_iff c d).2 hc)

/-- `generate` of such a generator. -/
theorem Inv.generate_twice (h : Inv gen w) (f : F) {c d : C} (hc : w.point c = .awaiting d)
    (hvalid : ¬ (w.promise c).valid = true) (hrunning : ¬ (w.promise c).running = true) :
    ∃ w', Nested.generate gen f c w = some w' ∧ ¬ DrivenOnce w' := by
  obtain ⟨hstopped, hcont⟩ := GeneratorPromise.not_running_iff.1 hrunning
  have hcompleted : ¬ (w.promise c).mCompleted = true := by
    rw [(h.coded c).completed, hc]
    simp
  have hset : (w.promise c).setContinuation .noop =
      some { w.promise c with mContinuation := some .noop } := if_pos (Or.inl hcont)
  rw [Nested.generate, if_neg hcompleted, if_neg hvalid, if_neg hrunning, hset, Option.bind_some]
  apply resume_twice gen f (d := d)
  · exact hc
  · exact congrArg _ (Function.update_self ..) |>.trans hstopped
  · apply holds_setPromise
    · rintro k (hk | hk)
      · cases hcont.symm.trans hk
      · exact Or.inr hk
    · exact (h.holds_iff c d).2 hc

/-- `co_await` of such a coroutine. -/
theorem Inv.await_twice (h : Inv gen w) {f : F} {r : Driver C} {rs : List (Driver C)}
    (hr : w.drivers f = r :: rs) {c d : C} (hc : w.point c = .awaiting d)
    (hvalid : ¬ (gen c = true ∧ (w.promise c).validFor none = true))
    (hrunning : ¬ (w.promise c).running = true) :
    ∃ w', Nested.await gen f c r rs w = some w' ∧ ¬ DrivenOnce w' := by
  have hx : w.point r.current = .executing := h.shape.executing f r (hr ▸ List.mem_cons_self)
  have hcx : c ≠ r.current := by
    rintro rfl
    cases hx.symm.trans hc
  obtain ⟨hstopped, hcont⟩ := GeneratorPromise.not_running_iff.1 hrunning
  have hstop : (w.promise r.current).setRunning false =
      some { w.promise r.current with mRunning := false } :=
    if_neg (by rw [(h.coded r.current).running.2 hx]; simp)
  have hpromise :
      (w.setPromise r.current { w.promise r.current with mRunning := false }).promise c =
        w.promise c := Function.update_of_ne hcx ..
  have hset : (w.promise c).setContinuation (.coro r.current) =
      some { w.promise c with mContinuation := some (.coro r.current) } := if_pos (Or.inl hcont)
  -- Whatever is written down about who awaits the coroutine, it is resumed.
  have hresume : ∀ p : GeneratorPromise F C α E, p.mRunning = false →
      (∀ k, Holds k (w.promise c) → Holds k p) →
      ∃ w', ((((w.setPromise r.current { w.promise r.current with mRunning := false }).setPromise c
        p).setPoint r.current (.awaiting c)).setDrivers f ({ r with current := c } :: rs)).resume
          gen f c = some w' ∧ ¬ DrivenOnce w' := by
    intro p hp hholds
    apply resume_twice gen f (d := d)
    · exact (Function.update_of_ne hcx ..).trans hc
    · exact congrArg _ (Function.update_self ..) |>.trans hp
    · apply holds_setPromise
      · rw [hpromise]
        exact hholds
      · apply holds_setPromise
        · exact fun k hk => hk
        · exact (h.holds_iff c d).2 hc
  rw [Nested.await]
  dsimp only
  rw [hstop, Option.bind_some, Option.bind_some, hpromise, hset, Option.bind_some]
  split
  · rename_i hgen
    have hopen : ¬ ((w.promise c).abandoned || (w.promise c).validFor none ||
        (w.promise c).running) = true := by
      rw [Bool.or_eq_true, Bool.or_eq_true, (h.coded c).abandoned, hc]
      rintro ((hdone | hv) | hrun)
      · cases hdone.1
      · exact hvalid ⟨hgen, hv⟩
      · exact hrunning hrun
    rw [if_neg hopen]
    apply hresume
    · exact hstopped
    · exact fun k hk => hk.imp id (List.mem_append_left _)
  · have hopen : ¬ ((w.promise c).mCompleted || (w.promise c).running) = true := by
      rw [Bool.or_eq_true, (h.coded c).completed, hc]
      rintro (hdone | hrun)
      · cases hdone
      · exact hrunning hrun
    rw [if_neg hopen]
    apply hresume
    · exact hstopped
    · rintro k (hk | hk)
      · cases hcont.symm.trans hk
      · exact Or.inr hk

/-- A step that drives a coroutine which another one is going to resume. -/
theorem Inv.not_drivenOnce (h : Inv gen w) {a : Label F C α} (hs : Nested.step gen w a = some w')
    (hok : ¬ DrivesFree gen w a) : ¬ DrivenOnce w' := by
  have hstart : Inv gen { w with last := .ok } := h.setLast (by simp)
  cases a with
  | run f c =>
      simp only [DrivesFree, not_forall] at hok
      obtain ⟨d, hc, hrunning⟩ := hok
      rw [Nested.step] at hs
      split at hs
      · cases hs
        exact attempt_of_exists (P := fun w => ¬ DrivenOnce w) (hstart.run_twice f hc hrunning)
      · cases hs
  | generate f c =>
      simp only [DrivesFree, not_forall, not_or] at hok
      obtain ⟨d, hc, hvalid, hrunning⟩ := hok
      rw [Nested.step] at hs
      split at hs
      · cases hs
        exact attempt_of_exists (P := fun w => ¬ DrivenOnce w)
          (hstart.generate_twice f hc hvalid hrunning)
      · cases hs
  | await f c =>
      simp only [DrivesFree, not_forall, not_or] at hok
      obtain ⟨d, hc, hvalid, hrunning⟩ := hok
      rw [Nested.step] at hs
      split at hs
      · cases hs
      · rename_i r rs hr
        split at hs
        · cases hs
          exact attempt_of_exists (P := fun w => ¬ DrivenOnce w)
            (hstart.await_twice hr hc hvalid hrunning)
        · cases hs
  | value f d => exact absurd trivial hok
  | yield f v => exact absurd trivial hok
  | finish f => exact absurd trivial hok
  | go f => exact absurd trivial hok

/-- `run` of a coroutine that is suspended for another one throws. -/
def ThrowsSuspended (gen : C → Bool) (w : Nested F C α E) (a : Label F C α) : Prop :=
  ∀ f c d, a = .run f c → w.point c = .awaiting d →
    ∀ w', step gen w a = some w' → w'.last = .invalidState

theorem throwsSuspended_of_drivesFree {a : Label F C α} (hok : DrivesFree gen w a) :
    ThrowsSuspended gen w a := by
  rintro f c d rfl hc w' hs
  have hrunning : (w.promise c).running = true := hok d hc
  rw [step] at hs
  split at hs
  · cases hs
    rw [Nested.run, if_pos hrunning]
    rfl
  · cases hs

/-- In every run, every coroutine is driven by one fiber at a time, and `run` of one that is
suspended for another one throws, exactly if no step drives a coroutine that is suspended for
another one while its promise does not tell that it is running. -/
theorem drivenOnce_iff (gen : C → Bool) {as : List (Label F C α)} {u : Nested F C α E}
    (hr : Transition.run (step gen) (init F C α E) as = some u) :
    Transition.Always (step gen) DrivenOnce (init F C α E) as ∧
        Transition.Guarded (step gen) (ThrowsSuspended gen) (init F C α E) as ↔
      Transition.Guarded (step gen) (DrivesFree gen) (init F C α E) as := by
  have hiff : Transition.Always (step gen) DrivenOnce (init F C α E) as ↔
      Transition.Guarded (step gen) (DrivesFree gen) (init F C α E) as := by
    apply Transition.always_iff_guarded_of_invariant (I := Inv gen) _ _ _ (inv_init gen) hr
    · exact fun w h => h.drivenOnce
    · exact fun w a w' h hok hs => h.step hok hs
    · exact fun w a w' h hs honce => by_contra fun hok => h.not_drivenOnce hs hok honce
  rw [hiff]
  refine ⟨fun h => h.1, fun h => ⟨h, h.imp (P := Inv gen) ?_ ?_ (inv_init gen)⟩⟩
  · exact fun w a w' hinv hok hs => hinv.step hok hs
  · exact fun w a _ hok => throwsSuspended_of_drivesFree hok

/-- A task awaits another one, which the other fiber is not allowed to run, and both return. -/
def awaitInner : List (Label Bool Bool Unit) :=
  [.run true true, .await true false, .run false false, .finish true, .finish true]

theorem guarded_awaitInner : Transition.Guarded (step fun _ => false)
    (DrivesFree fun _ => false) (init Bool Bool Unit Unit) awaitInner := by
  refine .cons ?_ rfl (.cons ?_ rfl (.cons ?_ rfl (.cons ?_ rfl (.cons ?_ rfl trivial))))
  · intro d hd
    cases hd
  · intro d hd
    cases hd
  · intro d hd
    cases hd
  · trivial
  · trivial

theorem drivenOnce_awaitInner :
    ∃ u : Nested Bool Bool Unit Unit,
      Transition.run (step fun _ => false) (init Bool Bool Unit Unit) awaitInner = some u ∧
      Transition.Always (step fun _ => false) DrivenOnce (init Bool Bool Unit Unit) awaitInner :=
  ⟨_, rfl, ((drivenOnce_iff (fun _ => false) rfl).2 guarded_awaitInner).1⟩

/-- A task awaits another one, and is run by the other fiber meanwhile. This does not throw, and
when the other task returns, an assertion fails. -/
def runOuter : List (Label Bool Bool Unit) :=
  [.run true true, .await true false, .run false true, .finish true]

theorem not_drivenOnce_runOuter :
    ∃ w u : Nested Bool Bool Unit Unit,
      Transition.run (step fun _ => false) (init Bool Bool Unit Unit) (runOuter.take 3) = some w ∧
      Transition.run (step fun _ => false) (init Bool Bool Unit Unit) runOuter = some u ∧
      w.last = .ok ∧ u.last = .assertion ∧
      ¬ Transition.Guarded (step fun _ => false) (ThrowsSuspended fun _ => false)
        (init Bool Bool Unit Unit) runOuter ∧
      ¬ DrivenOnce u := by
  refine ⟨_, _, rfl, rfl, rfl, rfl, ?_, fun h => h.last rfl⟩
  intro h
  have hthrows := (((h.2 _ rfl).2 _ rfl).1) false true false rfl rfl _ rfl
  cases hthrows

end Nested

end Zth.Coro
