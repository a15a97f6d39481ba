import Zth.Coro.Shape

/-!
# What a promise tells about its coroutine

A flag of the promise tells whether the coroutine is executed. The coroutine that awaits a task
is its continuation, and one that awaits a generator is in the queue of its mailbox. Where control
goes at a `co_yield` and at the end follows from that.
-/

namespace Zth.Coro

variable {F C α E : Type*} [DecidableEq F] [DecidableEq C]

/-- The promise tells where its coroutine is, and who awaits it. -/
structure CodedAt (gen : C → Bool) (point : C → Point C) (c : C)
    (p : GeneratorPromise F C α E) : Prop where
  running : p.mRunning = true ↔ point c = .executing
  completed : p.mCompleted = true ↔ point c = .done
  abandoned : p.abandoned = true ↔ point c = .done ∧ gen c = true
  cont : ∀ k, p.mContinuation = some (.coro k) ↔ point k = .awaiting c ∧ gen c = false
  queue : ∀ k, p.takeQueue.count (.coro k) =
    if point k = .awaiting c ∧ gen c = true then 1 else 0
  noop : p.mContinuation = some .noop → ∀ k, point k ≠ .awaiting c

/-- The promise of a coroutine at the given point, that nobody awaits. -/
structure Unawaited (gen : C → Bool) (c : C) (a : Point C) (p : GeneratorPromise F C α E) :
    Prop where
  running : p.mRunning = true ↔ a = .executing
  completed : p.mCompleted = true ↔ a = .done
  abandoned : p.abandoned = true ↔ a = .done ∧ gen c = true
  cont : ∀ k, p.mContinuation ≠ some (.coro k)
  queue : ∀ k, p.takeQueue.count (.coro k) = 0

/-- Two promises that differ in what does not matter for that. -/
structure SamePromise (p p' : GeneratorPromise F C α E) : Prop where
  running : p'.mRunning = p.mRunning
  completed : p'.mCompleted = p.mCompleted
  abandoned : p'.abandoned = p.abandoned
  cont : p'.mContinuation = p.mContinuation
  queue : ∀ k, p'.takeQueue.count (.coro k) = p.takeQueue.count (.coro k)

theorem SamePromise.refl (p : GeneratorPromise F C α E) : SamePromise p p :=
  ⟨rfl, rfl, rfl, rfl, fun _ => rfl⟩

theorem SamePromise.trans {p p' p'' : GeneratorPromise F C α E} (h : SamePromise p p')
    (h' : SamePromise p' p'') : SamePromise p p'' :=
  ⟨h'.running.trans h.running, h'.completed.trans h.completed, h'.abandoned.trans h.abandoned,
    h'.cont.trans h.cont, fun k => (h'.queue k).trans (h.queue k)⟩

namespace Unawaited

variable {gen : C → Bool} {c : C} {a : Point C} {p : GeneratorPromise F C α E}

theorem not_running (h : Unawaited gen c a p) (ha : a.Free) : p.mRunning = false :=
  Bool.eq_false_iff.2 fun hp => ha.1 (h.running.1 hp)

theorem start (h : Unawaited gen c a p) (ha : a ≠ .done) :
    Unawaited gen c .executing { p with mRunning := true } where
  running := by simp
  completed := by
    have hnot : p.mCompleted ≠ true := fun hp => ha (h.completed.1 hp)
    simp [hnot]
  abandoned := by
    have hnot : p.abandoned ≠ true := fun hp => ha (h.abandoned.1 hp).1
    simp [hnot]
  cont := h.cont
  queue := h.queue

end Unawaited

namespace CodedAt

variable {gen : C → Bool} {point point' : C → Point C} {c : C}
  {p p' : GeneratorPromise F C α E}

/-- Nothing has changed for the coroutine. -/
theorem congr (h : CodedAt gen point c p) (hp : SamePromise p p')
    (hexec : point' c = .executing ↔ point c = .executing)
    (hdone : point' c = .done ↔ point c = .done)
    (hawait : ∀ k, point' k = .awaiting c ↔ point k = .awaiting c) :
    CodedAt gen point' c p' where
  running := by
    rw [hp.running, hexec]
    exact h.running
  completed := by
    rw [hp.completed, hdone]
    exact h.completed
  abandoned := by
    rw [hp.abandoned, hdone]
    exact h.abandoned
  cont := by
    intro k
    rw [hp.cont, hawait]
    exact h.cont k
  queue := by
    intro k
    rw [hp.queue]
    simp only [hawait]
    exact h.queue k
  noop := by
    intro hnoop k
    rw [hp.cont] at hnoop
    rw [Ne, hawait]
    exact h.noop hnoop k

/-- A coroutine that nobody awaits. -/
theorem of_not_awaited (hnone : ∀ k, point k ≠ .awaiting c) (h : Unawaited gen c (point c) p) :
    CodedAt gen point c p where
  running := h.running
  completed := h.completed
  abandoned := h.abandoned
  cont := fun k => ⟨fun hk => absurd hk (h.cont k), fun hk => absurd hk.1 (hnone k)⟩
  queue := by
    intro k
    rw [h.queue, if_neg fun hk => hnone k hk.1]
  noop := fun _ => hnone

theorem not_awaited (h : CodedAt gen point c p) (hnone : ∀ k, point k ≠ .awaiting c) :
    Unawaited gen c (point c) p where
  running := h.running
  completed := h.completed
  abandoned := h.abandoned
  cont := fun k hk => hnone k ((h.cont k).1 hk).1
  queue := by
    intro k
    rw [h.queue, if_neg fun hk => hnone k hk.1]

end CodedAt

/-- All promises tell where their coroutines are. -/
def Coded (gen : C → Bool) (point : C → Point C) (promise : C → GeneratorPromise F C α E) :
    Prop :=
  ∀ c, CodedAt gen point c (promise c)

namespace CodedAt

variable {gen : C → Bool} {point : C → Point C} {x : C} {p : GeneratorPromise F C α E}

/-- The coroutines in the queue of a generator are those that await it. -/
theorem mem_queue (h : CodedAt gen point x p) (hgen : gen x = true) (k : C) :
    .coro k ∈ p.takeQueue ↔ point k = .awaiting x := by
  rw [← List.count_pos_iff, h.queue]
  split
  · rename_i hk
    exact ⟨fun _ => hk.1, fun _ => Nat.one_pos⟩
  · rename_i hk
    exact ⟨fun h0 => absurd h0 (Nat.lt_irrefl 0), fun hk' => absurd ⟨hk', hgen⟩ hk⟩

/-- A generator does not have another coroutine as its continuation. -/
theorem cont_ne_coro (h : CodedAt gen point x p) (hgen : gen x = true) (k : C) :
    p.mContinuation ≠ some (.coro k) := by
  intro hcont
  have hnot := ((h.cont k).1 hcont).2
  rw [hgen] at hnot
  cases hnot

/-- A generator that is awaited does not have a continuation. -/
theorem cont_eq_none (h : CodedAt gen point x p) (hgen : gen x = true) {k : C}
    (hk : point k = .awaiting x) : p.mContinuation = none := by
  rw [Option.eq_none_iff_forall_not_mem]
  intro next hnext
  cases next with
  | noop => exact h.noop hnext k hk
  | coro k' => exact h.cont_ne_coro hgen k' hnext

/-- Control goes to the coroutine that awaits the given one, or back to the loop. -/
def GoesTo (point : C → Point C) (x : C) (handle : Handle C) : Prop :=
  (∃ y, handle = .coro y ∧ point y = .awaiting x) ∨
    handle = .noop ∧ ∀ k, point k ≠ .awaiting x

/-- Where control goes at the end of a task. -/
theorem finish_task (h : CodedAt gen point x p) (hx : point x = .executing)
    (hgen : gen x = false) :
    ∃ p' handle, Nested.taskFinalSuspend p.returnVoid = some (p', handle) ∧
      Unawaited gen x .done p' ∧ p'.mCompleted = true ∧ GoesTo point x handle := by
  have hrunning : p.returnVoid.mRunning = true := h.running.2 hx
  rw [Nested.taskFinalSuspend, GeneratorPromise.setRunning, hrunning, if_neg (by simp)]
  refine ⟨_, _, rfl, ?_, rfl, ?_⟩
  · constructor
    · simp
    · simp [GeneratorPromise.returnVoid]
    · have hnot := h.abandoned
      rw [hx] at hnot
      simpa [GeneratorPromise.returnVoid, hgen] using hnot
    · simp
    · intro k
      exact (h.queue k).trans (if_neg (by simp [hgen]))
  · dsimp only [GeneratorPromise.continuation, GeneratorPromise.returnVoid]
    cases hcont : p.mContinuation with
    | none =>
        refine Or.inr ⟨rfl, fun k hk => ?_⟩
        cases hcont.symm.trans ((h.cont k).2 ⟨hk, hgen⟩)
    | some next =>
        cases next with
        | noop => exact Or.inr ⟨rfl, h.noop hcont⟩
        | coro y => exact Or.inl ⟨y, rfl, ((h.cont y).1 hcont).1⟩

/-- Where control goes at the end of a generator. -/
theorem finish_generator (h : CodedAt gen point x p) (hx : point x = .executing)
    (hgen : gen x = true)
    (hunique : ∀ k k', point k = .awaiting x → point k' = .awaiting x → k = k') :
    ∃ p' handle, p.returnVoid.finalSuspend = some (p', handle) ∧
      Unawaited gen x .done p' ∧ p'.mCompleted = true ∧ GoesTo point x handle := by
  have hrunning : p.mRunning = true := h.running.2 hx
  have habandoned : p.abandoned = false := by
    apply Bool.eq_false_iff.2
    intro hp
    cases hx.symm.trans (h.abandoned.1 hp).1
  have hmem := h.mem_queue hgen
  obtain ⟨p₁, hall, hrun, hcoro, hrest⟩ : ∃ p₁,
      GeneratorPromise.unblockAll p.takeQueue { p.returnVoid with takeQueue := [] } = some p₁ ∧
        p₁.mRunning = p.mRunning ∧
        (∀ k, .coro k ∈ p.takeQueue → p₁.mContinuation = some (.coro k)) ∧
        ((∀ k, .coro k ∉ p.takeQueue) → p₁.mContinuation = p.mContinuation) := by
    apply GeneratorPromise.exists_unblockAll
    · exact habandoned
    · exact fun k hk => Or.inl (h.cont_eq_none hgen ((hmem k).1 hk))
    · exact fun k k' hk hk' => hunique k k' ((hmem k).1 hk) ((hmem k').1 hk')
  obtain ⟨-, hqueue, -, hcompleted, -⟩ := GeneratorPromise.unblockAll_eq_some hall
  have hsuspend : p.returnVoid.finalSuspend =
      some (GeneratorPromise.continuation { p₁ with abandoned := true, mRunning := false }) := by
    rw [GeneratorPromise.finalSuspend, GeneratorPromise.abandon]
    dsimp only [GeneratorPromise.returnVoid] at hall hrun ⊢
    rw [hall, Option.map_some, Option.bind_some, GeneratorPromise.setRunning, hrun, hrunning,
      if_neg (by simp), Option.map_some]
  refine ⟨_, _, hsuspend, ?_, hcompleted, ?_⟩
  · constructor
    · simp
    · exact ⟨fun _ => rfl, fun _ => hcompleted⟩
    · simp [hgen]
    · simp
    · intro k
      dsimp only
      rw [hqueue]
      rfl
  · dsimp only
    by_cases hk : ∃ k, point k = .awaiting x
    · obtain ⟨k, hk⟩ := hk
      rw [hcoro k ((hmem k).2 hk)]
      exact Or.inl ⟨k, rfl, hk⟩
    · have hnone : ∀ k, point k ≠ .awaiting x := fun k hk' => hk ⟨k, hk'⟩
      rw [hrest fun k hk' => hnone k ((hmem k).1 hk')]
      cases hcont : p.mContinuation with
      | none => exact Or.inr ⟨rfl, hnone⟩
      | some next =>
          cases next with
          | noop => exact Or.inr ⟨rfl, hnone⟩
          | coro y => exact absurd hcont (h.cont_ne_coro hgen y)

/-- Behind the coroutine that awaits a generator, there are only fibers. -/
theorem count_tail (h : CodedAt gen point x p)
    (hunique : ∀ k k', point k = .awaiting x → point k' = .awaiting x → k = k') {k : C}
    (hhead : p.takeQueue.head? = some (.coro k)) (k' : C) :
    p.takeQueue.tail.count (.coro k') = 0 := by
  obtain ⟨ts, hts⟩ := List.head?_eq_some_iff.1 hhead
  have hcount : ∀ c, p.takeQueue.count (.coro c) ≤ 1 ∧
      (0 < p.takeQueue.count (.coro c) → point c = .awaiting x) := by
    intro c
    rw [h.queue]
    split
    · rename_i hc
      exact ⟨Nat.le_refl 1, fun _ => hc.1⟩
    · exact ⟨Nat.zero_le 1, fun h0 => absurd h0 (Nat.lt_irrefl 0)⟩
  rw [hts] at hcount ⊢
  rw [List.tail_cons]
  by_contra hpos
  obtain ⟨hle, hk'⟩ := hcount k'
  have hcons := List.count_le_count_cons (a := Taker.coro k') (b := Taker.coro k) (l := ts)
  have hk := (hcount k).2 (List.count_pos_iff.2 List.mem_cons_self)
  have heq : k' = k := hunique k' k (hk' (by omega)) hk
  rw [heq, List.count_cons_self] at hle
  rw [heq] at hpos
  omega

/-- A value is put for a coroutine that awaits it, or not. -/
theorem put (h : CodedAt gen point x p) (hgen : gen x = true) (habandoned : p.abandoned = false)
    (v : α) :
    ∃ p', p.put v = some p' ∧ p'.mRunning = p.mRunning ∧
      ((∃ k, p.takeQueue.head? = some (.coro k) ∧ p'.mContinuation = some (.coro k)) ∨
        (∀ k, p'.takeQueue.count (.coro k) = p.takeQueue.count (.coro k)) ∧
          p'.mContinuation = p.mContinuation) := by
  cases hq : p.takeQueue with
  | nil =>
      refine ⟨{ p with mValue := some (.ok v) }, ?_, rfl, Or.inr ⟨fun k => ?_, rfl⟩⟩
      · rw [GeneratorPromise.put, hq]
      · exact congrArg _ hq
  | cons t ts =>
      cases t with
      | fiber f =>
          refine ⟨{ p with mValue := some (.ok v), takeQueue := ts, mAssigned := some (.fiber f) },
            ?_, rfl, Or.inr ⟨fun k => ?_, rfl⟩⟩
          · rw [GeneratorPromise.put, hq]
            rfl
          · exact (List.count_cons_of_ne (by simp)).symm
      | coro k =>
          have hk : point k = .awaiting x := by
            rw [← h.mem_queue hgen, hq]
            exact List.mem_cons_self
          refine ⟨{ p with mValue := some (.ok v), takeQueue := ts, mAssigned := some (.coro k)
                           mContinuation := some (.coro k) }, ?_, rfl, Or.inl ⟨k, rfl, rfl⟩⟩
          rw [GeneratorPromise.put, hq]
          apply GeneratorPromise.wakeup_coro
          · exact habandoned
          · exact Or.inl (h.cont_eq_none hgen hk)

/-- Where control goes at a `co_yield`. -/
theorem yield (h : CodedAt gen point x p) (hx : point x = .executing) (hgen : gen x = true)
    (hunique : ∀ k k', point k = .awaiting x → point k' = .awaiting x → k = k') (v : α) :
    ∃ p' cont, p.yieldValue v = some (p', cont) ∧ (cont = none → SamePromise p p') ∧
      ∀ handle, cont = some handle →
        Unawaited gen x .yielded p' ∧ p'.valid = true ∧ GoesTo point x handle := by
  have hrunning : p.mRunning = true := h.running.2 hx
  have hcompleted : p.mCompleted = false := by
    apply Bool.eq_false_iff.2
    intro hp
    cases hx.symm.trans (h.completed.1 hp)
  have habandoned : p.abandoned = false := by
    apply Bool.eq_false_iff.2
    intro hp
    cases hx.symm.trans (h.abandoned.1 hp).1
  obtain ⟨p', hput, hrun, hcase⟩ := h.put hgen habandoned v
  obtain ⟨hvalue, hqueue, -, habandoned', hcompleted', -⟩ := GeneratorPromise.put_eq_some hput
  -- What is left of the promise, when the generator suspends itself.
  have hsuspend : ∀ {next}, p'.mContinuation = some next →
      p.yieldValue v = some ({ p' with mRunning := false, mContinuation := none }, some next) := by
    intro next hnext
    rw [GeneratorPromise.yieldValue, hput, Option.bind_some, if_neg (by simp [hnext]),
      GeneratorPromise.setRunning, hrun, hrunning, if_neg (by simp)]
    simp [GeneratorPromise.continuation, hnext]
  have hunawaited : (∀ k, p'.takeQueue.count (.coro k) = 0) →
      Unawaited gen x .yielded { p' with mRunning := false, mContinuation := none } := by
    intro hcount
    constructor
    · simp
    · simp [hcompleted', hcompleted]
    · simp [habandoned', habandoned]
    · simp
    · exact hcount
  have hvalid : p'.valid = true := by
    rw [GeneratorPromise.valid, hvalue]
    rfl
  obtain ⟨k, hhead, hset⟩ | ⟨hcount, hset⟩ := hcase
  · have hk : point k = .awaiting x := by
      rw [← h.mem_queue hgen]
      exact List.mem_of_head? hhead
    refine ⟨_, _, hsuspend hset, fun hnone => (by cases hnone), fun handle heq => ?_⟩
    cases heq
    refine ⟨hunawaited fun k' => ?_, hvalid, Or.inl ⟨k, rfl, hk⟩⟩
    rw [hqueue]
    exact h.count_tail hunique hhead k'
  · cases hcont : p.mContinuation with
    | none =>
        rw [hcont] at hset
        refine ⟨p', none, ?_, fun _ => ⟨hrun, hcompleted', habandoned', ?_, hcount⟩, ?_⟩
        · rw [GeneratorPromise.yieldValue, hput, Option.bind_some, if_pos hset]
        · rw [hset, hcont]
        · exact fun handle heq => by cases heq
    | some next =>
        rw [hcont] at hset
        refine ⟨_, _, hsuspend hset, fun hnone => (by cases hnone), fun handle heq => ?_⟩
        cases heq
        cases next with
        | coro y => exact absurd hcont (h.cont_ne_coro hgen y)
        | noop =>
            have hnone := h.noop hcont
            refine ⟨hunawaited fun k => ?_, hvalid, Or.inr ⟨rfl, hnone⟩⟩
            rw [hcount, h.queue, if_neg fun hk => hnone k hk.1]

end CodedAt

namespace Coded

variable {gen : C → Bool} {point : C → Point C} {promise : C → GeneratorPromise F C α E}

/-- A coroutine that nobody awaits starts or stops to be executed. -/
theorem update (h : Coded gen point promise) {c : C} (hc : ∀ d, point c ≠ .awaiting d)
    (hnone : ∀ k, point k ≠ .awaiting c) {a : Point C} (ha : ∀ d, a ≠ .awaiting d)
    {p : GeneratorPromise F C α E} (hp : Unawaited gen c a p) :
    Coded gen (Function.update point c a) (Function.update promise c p) := by
  intro e
  have hedge := awaiting_update hc ha
  by_cases he : e = c
  · subst he
    rw [Function.update_self]
    apply CodedAt.of_not_awaited
    · intro k
      rw [Ne, hedge]
      exact hnone k
    · rw [Function.update_self]
      exact hp
  · rw [Function.update_of_ne he]
    apply (h e).congr (.refl _)
    · rw [Function.update_of_ne he]
    · rw [Function.update_of_ne he]
    · exact fun k => hedge k e

/-- A coroutine awaits a free one, which is executed then. -/
theorem delegate (h : Coded gen point promise) {x d : C} (hx : point x = .executing)
    (hd : (point d).Free) (hdone : point d ≠ .done) (hnone : ∀ k, point k ≠ .awaiting d)
    {p : GeneratorPromise F C α E} (hrunning : p.mRunning = true)
    (hcompleted : p.mCompleted = false) (habandoned : p.abandoned = false)
    (hcont : p.mContinuation = if gen d then none else some (.coro x))
    (hqueue : ∀ k, p.takeQueue.count (.coro k) = if k = x ∧ gen d = true then 1 else 0) :
    Coded gen (Function.update (Function.update point x (.awaiting d)) d .executing)
      (Function.update (Function.update promise x { promise x with mRunning := false }) d p) := by
  have hxd : x ≠ d := by
    rintro rfl
    exact hd.1 hx
  have hedge := awaiting_delegate hxd (by simp [hx]) hd.2
  intro e
  by_cases hed : e = d
  · subst hed
    rw [Function.update_self]
    exact {
      running := by
        rw [Function.update_self]
        exact ⟨fun _ => rfl, fun _ => hrunning⟩
      completed := by
        rw [Function.update_self, hcompleted]
        simp
      abandoned := by
        rw [Function.update_self, habandoned]
        simp
      cont := by
        intro k
        rw [hedge, hcont]
        cases gen e with
        | false => simp [hnone k, eq_comm]
        | true => simp
      queue := by
        intro k
        rw [hqueue]
        simp only [hedge, hnone k, false_or, and_true]
      noop := by
        rw [hcont]
        cases gen e with
        | false => simp
        | true => simp }
  · rw [Function.update_of_ne hed]
    have hawait : ∀ k, Function.update (Function.update point x (.awaiting d)) d .executing k =
        .awaiting e ↔ point k = .awaiting e := by
      intro k
      rw [hedge]
      exact ⟨fun hk => hk.resolve_right fun heq => hed heq.2, Or.inl⟩
    by_cases hex : e = x
    · subst hex
      rw [Function.update_self]
      exact {
        running := by
          rw [Function.update_of_ne hed, Function.update_self]
          simp
        completed := by
          rw [Function.update_of_ne hed, Function.update_self]
          have hnot := (h e).completed
          rw [hx] at hnot
          simpa using hnot
        abandoned := by
          rw [Function.update_of_ne hed, Function.update_self]
          have hnot := (h e).abandoned
          rw [hx] at hnot
          simpa using hnot
        cont := by
          intro k
          rw [hawait]
          exact (h e).cont k
        queue := by
          intro k
          simp only [hawait]
          exact (h e).queue k
        noop := by
          intro hnoop k
          rw [Ne, hawait]
          exact (h e).noop hnoop k }
    · rw [Function.update_of_ne hex]
      apply (h e).congr (.refl _)
      · rw [Function.update_of_ne hed, Function.update_of_ne hex]
      · rw [Function.update_of_ne hed, Function.update_of_ne hex]
      · exact hawait

/-- A coroutine gets free, and the one that awaited it is executed. -/
theorem back (h : Coded gen point promise) {x y : C} (hx : point x = .executing)
    (hy : point y = .awaiting x) (hunique : ∀ k, point k = .awaiting x → k = y)
    {a : Point C} (ha : a.Free) {p : GeneratorPromise F C α E} (hp : Unawaited gen x a p) :
    Coded gen (Function.update (Function.update point x a) y .executing)
      (Function.update (Function.update promise x p) y { promise y with mRunning := true }) := by
  have hxy : x ≠ y := by
    rintro rfl
    cases hx.symm.trans hy
  have hx' : ∀ e, point x ≠ .awaiting e := by simp [hx]
  have hedge := awaiting_back (y := y) hx' ha.2
  intro e
  by_cases hey : e = y
  · subst hey
    have hawait : ∀ k, Function.update (Function.update point x a) e .executing k =
        .awaiting e ↔ point k = .awaiting e := by
      intro k
      rw [hedge]
      refine ⟨fun hk => hk.1, fun hk => ⟨hk, ?_⟩⟩
      rintro rfl
      cases hy.symm.trans hk
      exact hxy rfl
    rw [Function.update_self]
    exact {
      running := by
        rw [Function.update_self]
        simp
      completed := by
        rw [Function.update_self]
        have hnot := (h e).completed
        rw [hy] at hnot
        simpa using hnot
      abandoned := by
        rw [Function.update_self]
        have hnot := (h e).abandoned
        rw [hy] at hnot
        simpa using hnot
      cont := by
        intro k
        rw [hawait]
        exact (h e).cont k
      queue := by
        intro k
        simp only [hawait]
        exact (h e).queue k
      noop := by
        intro hnoop k
        rw [Ne, hawait]
        exact (h e).noop hnoop k }
  · rw [Function.update_of_ne hey]
    by_cases hex : e = x
    · subst hex
      rw [Function.update_self]
      have hpoint : Function.update (Function.update point e a) y .executing e = a :=
        (Function.update_of_ne hey ..).trans (Function.update_self ..)
      apply CodedAt.of_not_awaited
      · intro k
        rw [Ne, hedge]
        exact fun hk => hk.2 (hunique k hk.1)
      · rw [hpoint]
        exact hp
    · rw [Function.update_of_ne hex]
      apply (h e).congr (.refl _)
      · rw [Function.update_of_ne hey, Function.update_of_ne hex]
      · rw [Function.update_of_ne hey, Function.update_of_ne hex]
      · intro k
        rw [hedge]
        refine ⟨fun hk => hk.1, fun hk => ⟨hk, ?_⟩⟩
        rintro rfl
        cases hy.symm.trans hk
        exact hex rfl

end Coded

end Zth.Coro
