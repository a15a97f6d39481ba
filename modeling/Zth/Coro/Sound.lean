import Zth.Coro.Consumers

/-!
# Who gets the values of a generator

The invariant of the generator and the fibers that use it. Every value that the body yields is
put in the mailbox once and taken once, in order, and as long as the body goes on, a value that
somebody waits for is reserved for the one that was woken.
-/

namespace Zth.Coro

variable {σ F H α E : Type*}

namespace Consumers

/-- What holds in every state. The body has yielded what was obtained and what is in the mailbox,
in that order. Who is in the queue, waits. As long as the body goes on, a fiber that was woken
has the reservation of what is in the mailbox, and a coroutine that waits is in the queue. -/
structure Sound (b : Body σ α E) (w : Consumers σ F H α E) : Prop where
  yields : b.Yields w.yielded (w.frame.getD .done)
  value_ne_error : ∀ e, w.promise.mValue ≠ some (.error e)
  obtained_append_pending : w.obtained ++ w.pending = w.yielded
  mCompleted_eq : w.promise.mCompleted = w.frame.isNone
  abandoned_eq : w.promise.abandoned = w.frame.isNone
  takeQueue_eq_nil : w.frame = none → w.promise.takeQueue = []
  taking_of_mem : ∀ f, .fiber f ∈ w.promise.takeQueue → w.fibers f = .taking
  woken : w.frame ≠ none → ∀ f, w.fibers f = .taking → .fiber f ∉ w.promise.takeQueue →
    w.promise.valid ∧ w.promise.mAssigned = some (.fiber f)
  awaiting : w.frame ≠ none → ∀ f h, w.fibers f = .awaiting h →
    .coro h ∈ w.promise.takeQueue
  awaiting_unique : w.frame ≠ none → ∀ f g h, w.fibers f = .awaiting h →
    w.fibers g = .awaiting h → f = g
  told : ∀ f, (f, .alreadyCompleted) ∈ w.log → w.frame = none
  not_thrown : ∀ f e, (f, .thrown e) ∉ w.log

/-- When the body has ended with a value in the mailbox, and a fiber waits, then the value is
for a fiber that waits. -/
def Reserved (w : Consumers σ F H α E) : Prop :=
  w.frame = none → w.promise.valid → ∀ f, w.fibers f = .taking → w.Coming

/-- A consumer was told that the generator has completed. -/
def Told (w : Consumers σ F H α E) : Prop := ∃ f, (f, .alreadyCompleted) ∈ w.log

/-- If there is a value in the mailbox, it is for a fiber that was woken to take it. -/
def Settled (w : Consumers σ F H α E) : Prop := w.promise.valid → w.Coming

theorem sound_init (b : Body σ α E) (s : σ) : Sound b (init F H b s) where
  yields := .refl b
  value_ne_error := fun _ h => absurd h (Option.some_ne_none _).symm
  obtained_append_pending := rfl
  mCompleted_eq := rfl
  abandoned_eq := rfl
  takeQueue_eq_nil := fun _ => rfl
  taking_of_mem := fun _ h => absurd h List.not_mem_nil
  woken := fun _ _ h => by cases h
  awaiting := fun _ _ _ h => by cases h
  awaiting_unique := fun _ _ _ _ h => by cases h
  told := fun _ h => absurd h List.not_mem_nil
  not_thrown := fun _ _ => List.not_mem_nil

/-- The promise changes in what does not matter for who gets the values. -/
theorem Sound.congr {b : Body σ α E} {w : Consumers σ F H α E} (h : Sound b w)
    {p : GeneratorPromise F H α E} (hvalue : p.mValue = w.promise.mValue)
    (hassigned : p.mAssigned = w.promise.mAssigned)
    (hqueue : p.takeQueue = w.promise.takeQueue)
    (habandoned : p.abandoned = w.promise.abandoned)
    (hcompleted : p.mCompleted = w.promise.mCompleted) (s : σ) :
    Sound b { w with promise := p, state := s } where
  yields := h.yields
  value_ne_error := by
    rw [hvalue]
    exact h.value_ne_error
  obtained_append_pending := by
    have hacc := h.obtained_append_pending
    rw [pending, ← hvalue] at hacc
    exact hacc
  mCompleted_eq := hcompleted.trans h.mCompleted_eq
  abandoned_eq := habandoned.trans h.abandoned_eq
  takeQueue_eq_nil := fun hframe => hqueue.trans (h.takeQueue_eq_nil hframe)
  taking_of_mem := by
    rw [hqueue]
    exact h.taking_of_mem
  woken := by
    rw [GeneratorPromise.valid, hvalue, hassigned, hqueue]
    exact h.woken
  awaiting := by
    rw [hqueue]
    exact h.awaiting
  awaiting_unique := h.awaiting_unique
  told := h.told
  not_thrown := h.not_thrown

theorem Sound.not_mem_takeQueue {b : Body σ α E} {w : Consumers σ F H α E} (h : Sound b w)
    {f : F} (hf : w.fibers f ≠ .taking) : .fiber f ∉ w.promise.takeQueue :=
  fun hmem => hf (h.taking_of_mem f hmem)

/-- Who is in the queue is the first one, or in the rest of it. -/
theorem mem_tail_or_head? {t : Taker F H} {q : List (Taker F H)} (h : t ∈ q) :
    t ∈ q.tail ∨ q.head? = some t := by
  cases q with
  | nil => cases h
  | cons t' ts =>
      obtain rfl | h := List.mem_cons.1 h
      · exact Or.inr rfl
      · exact Or.inl h

/-- The body has yielded a value, which is for the first one that waited. -/
theorem Sound.yield {b : Body σ α E} {w : Consumers σ F H α E} (h : Sound b w) {v : α}
    {rest : Body σ α E} (hframe : w.frame = some (.yield v rest))
    (hvalid : w.promise.valid = false)
    (hhead : ∀ k, w.promise.takeQueue.head? = some (.coro k) → ∀ f, w.fibers f ≠ .awaiting k)
    {p : GeneratorPromise F H α E}
    (hvalue : p.mValue = some (.ok v)) (hqueue : p.takeQueue = w.promise.takeQueue.tail)
    (hassigned : p.mAssigned = w.promise.takeQueue.head?.or w.promise.mAssigned)
    (habandoned : p.abandoned = w.promise.abandoned)
    (hcompleted : p.mCompleted = w.promise.mCompleted) :
    Sound b { w with promise := p, frame := some rest, yielded := w.yielded ++ [v] } := by
  have hsome : w.frame ≠ none := by
    rw [hframe]
    exact Option.some_ne_none _
  have hnone : w.promise.mValue = none :=
    Option.isNone_iff_eq_none.1 (Option.isSome_eq_false_iff.1 hvalid)
  have hvalid' : p.valid = true := by
    rw [GeneratorPromise.valid, hvalue]
    rfl
  exact {
    yields := by
      have hyields := h.yields
      rw [hframe] at hyields
      exact hyields.trans (.yield v (.refl rest))
    value_ne_error := by
      intro e he
      cases hvalue.symm.trans he
    obtained_append_pending := by
      have hacc := h.obtained_append_pending
      rw [pending, hnone, List.append_nil] at hacc
      rw [pending]
      dsimp only
      rw [hvalue, ← hacc]
      rfl
    mCompleted_eq := by
      have heq := h.mCompleted_eq
      rw [hframe] at heq
      exact hcompleted.trans heq
    abandoned_eq := by
      have heq := h.abandoned_eq
      rw [hframe] at heq
      exact habandoned.trans heq
    takeQueue_eq_nil := fun hnone => absurd hnone (Option.some_ne_none _)
    taking_of_mem := by
      intro f hf
      dsimp only at hf
      rw [hqueue] at hf
      exact h.taking_of_mem f (List.mem_of_mem_tail hf)
    woken := by
      intro _ f hf hmem
      dsimp only at hmem
      rw [hqueue] at hmem
      by_cases hold : .fiber f ∈ w.promise.takeQueue
      · have hhead := (mem_tail_or_head? hold).resolve_left hmem
        rw [hhead] at hassigned
        exact ⟨hvalid', hassigned⟩
      · have hnot := (h.woken hsome f hf hold).1
        rw [hvalid] at hnot
        cases hnot
    awaiting := by
      intro _ f k hf
      obtain hmem | hfirst := mem_tail_or_head? (h.awaiting hsome f k hf)
      · exact hqueue ▸ hmem
      · exact absurd hf (hhead k hfirst f)
    awaiting_unique := fun _ => h.awaiting_unique hsome
    told := fun f hf => absurd (h.told f hf) hsome
    not_thrown := h.not_thrown }

theorem reserved_of_not_valid {w : Consumers σ F H α E} (h : w.promise.valid = false) :
    w.Reserved := by
  intro _ hvalid
  rw [h] at hvalid
  cases hvalid

/-- The body has computed something. -/
theorem Sound.compute {b : Body σ α E} {w : Consumers σ F H α E} (h : Sound b w) {g : σ → σ}
    {rest : σ → Body σ α E} (hframe : w.frame = some (.compute g rest)) :
    Sound b { w with frame := some (rest (g w.state)), state := g w.state } := by
  have hsome : w.frame ≠ none := by
    rw [hframe]
    exact Option.some_ne_none _
  exact {
    yields := by
      have hyields := h.yields
      rw [hframe] at hyields
      have htrans := hyields.trans (.compute g w.state (.refl (rest (g w.state))))
      rw [List.append_nil] at htrans
      exact htrans
    value_ne_error := h.value_ne_error
    obtained_append_pending := h.obtained_append_pending
    mCompleted_eq := by
      have heq := h.mCompleted_eq
      rw [hframe] at heq
      exact heq
    abandoned_eq := by
      have heq := h.abandoned_eq
      rw [hframe] at heq
      exact heq
    takeQueue_eq_nil := fun hnone => absurd hnone (Option.some_ne_none _)
    taking_of_mem := h.taking_of_mem
    woken := fun _ => h.woken hsome
    awaiting := fun _ => h.awaiting hsome
    awaiting_unique := fun _ => h.awaiting_unique hsome
    told := fun f hf => absurd (h.told f hf) hsome
    not_thrown := h.not_thrown }

/-- A coroutine waits in the queue. -/
theorem Sound.enqueueCoro {b : Body σ α E} {w : Consumers σ F H α E} (h : Sound b w)
    (hframe : w.frame ≠ none) (k : H) :
    Sound b { w with promise :=
      { w.promise with takeQueue := w.promise.takeQueue ++ [.coro k] } } where
  __ := h
  takeQueue_eq_nil := fun hnone => absurd hnone hframe
  taking_of_mem := by
    intro f hf
    obtain hf | hf := List.mem_append.1 hf
    · exact h.taking_of_mem f hf
    · cases List.mem_singleton.1 hf
  woken := by
    intro _ f hf hmem
    exact h.woken hframe f hf fun hold => hmem (List.mem_append_left _ hold)
  awaiting := by
    intro _ f k' hf
    exact List.mem_append_left _ (h.awaiting hframe f k' hf)

/-- The body has ended. -/
theorem Sound.ended {b b' : Body σ α E} {w : Consumers σ F H α E} (h : Sound b w)
    (hframe : w.frame = some b') (hb' : b'.Yields [] .done) {p : GeneratorPromise F H α E}
    (hvalue : p.mValue = w.promise.mValue) (hqueue : p.takeQueue = [])
    (habandoned : p.abandoned = true) (hcompleted : p.mCompleted = true) :
    Sound b { w with promise := p, frame := none } where
  yields := by
    have hyields := h.yields
    rw [hframe] at hyields
    have htrans := hyields.trans hb'
    rw [List.append_nil] at htrans
    exact htrans
  value_ne_error := by
    rw [hvalue]
    exact h.value_ne_error
  obtained_append_pending := by
    have hacc := h.obtained_append_pending
    rw [pending, ← hvalue] at hacc
    exact hacc
  mCompleted_eq := hcompleted
  abandoned_eq := habandoned
  takeQueue_eq_nil := fun _ => hqueue
  taking_of_mem := by
    intro f hf
    dsimp only at hf
    rw [hqueue] at hf
    cases hf
  woken := fun hnone => absurd rfl hnone
  awaiting := fun hnone => absurd rfl hnone
  awaiting_unique := fun hnone => absurd rfl hnone
  told := fun _ _ => rfl
  not_thrown := h.not_thrown

variable [DecidableEq F]

theorem fibers_setFiber_self (f : F) (a : Activity H) (w : Consumers σ F H α E) :
    (w.setFiber f a).fibers f = a :=
  Function.update_self ..

theorem fibers_setFiber_of_ne {f g : F} (h : g ≠ f) (a : Activity H)
    (w : Consumers σ F H α E) : (w.setFiber f a).fibers g = w.fibers g :=
  Function.update_of_ne h ..

theorem obtained_finish (f : F) (o : Outcome α E) (w : Consumers σ F H α E) :
    (w.finish f o).obtained = w.obtained ++ match o with
      | .value v => [v]
      | _ => [] := by
  rw [obtained, finish, List.filterMap_append]
  cases o with
  | value v => rfl
  | _ => rfl

/-- A fiber that is not idle, after another one has become idle. -/
theorem fibers_of_update_idle {fibers : F → Activity H} {f g : F} {a : Activity H}
    (h : Function.update fibers f .idle g = a) (ha : a ≠ .idle) : g ≠ f ∧ fibers g = a := by
  have hne : g ≠ f := by
    rintro rfl
    rw [Function.update_self] at h
    exact ha h.symm
  rw [Function.update_of_ne hne] at h
  exact ⟨hne, h⟩

theorem frame_take {w w' : Consumers σ F H α E} {f : F} (hw' : w.take f = some w') :
    w'.frame = w.frame := by
  rw [Consumers.take] at hw'
  split at hw'
  · cases hw'
  · cases hw'
    rfl
  · cases hw'
    rfl

theorem take_setIdle (f : F) (w : Consumers σ F H α E) :
    (w.setFiber f .idle).take f = w.take f := by
  rw [Consumers.take, Consumers.take, setFiber]
  dsimp only
  cases w.promise.mValue with
  | none => rfl
  | some r =>
      cases r with
      | ok v => simp only [finish, Function.update_idem]
      | error e => simp only [finish, Function.update_idem]

/-- A fiber has nothing to do with the generator anymore. -/
theorem Sound.setIdle {b : Body σ α E} {w : Consumers σ F H α E} (h : Sound b w) {f : F}
    (hf : .fiber f ∉ w.promise.takeQueue) : Sound b (w.setFiber f .idle) where
  yields := h.yields
  value_ne_error := h.value_ne_error
  obtained_append_pending := h.obtained_append_pending
  mCompleted_eq := h.mCompleted_eq
  abandoned_eq := h.abandoned_eq
  takeQueue_eq_nil := h.takeQueue_eq_nil
  taking_of_mem := by
    intro g hg
    have hne : g ≠ f := by
      rintro rfl
      exact hf hg
    exact (fibers_setFiber_of_ne hne ..).trans (h.taking_of_mem g hg)
  woken := by
    intro hframe g hg
    exact h.woken hframe g (fibers_of_update_idle hg (by simp)).2
  awaiting := by
    intro hframe g k hg
    exact h.awaiting hframe g k (fibers_of_update_idle hg (by simp)).2
  awaiting_unique := by
    intro hframe g g' k hg hg'
    exact h.awaiting_unique hframe g g' k (fibers_of_update_idle hg (by simp)).2
      (fibers_of_update_idle hg' (by simp)).2
  told := h.told
  not_thrown := h.not_thrown

/-- A call ends without a value. -/
theorem Sound.finish {b : Body σ α E} {w : Consumers σ F H α E} (h : Sound b w) {f : F}
    (hf : .fiber f ∉ w.promise.takeQueue) {o : Outcome α E}
    (hvalue : ∀ v, o ≠ .value v) (hthrown : ∀ e, o ≠ .thrown e)
    (htold : o = .alreadyCompleted → w.frame = none) : Sound b (w.finish f o) where
  __ := h.setIdle hf
  obtained_append_pending := by
    rw [obtained_finish]
    cases o with
    | value v => exact absurd rfl (hvalue v)
    | _ => exact (congrArg (· ++ _) (List.append_nil _)).trans h.obtained_append_pending
  told := by
    intro g hg
    obtain hg | hg := List.mem_append.1 hg
    · exact h.told g hg
    · cases List.mem_singleton.1 hg
      exact htold rfl
  not_thrown := by
    intro g e hg
    obtain hg | hg := List.mem_append.1 hg
    · exact h.not_thrown g e hg
    · cases List.mem_singleton.1 hg
      exact hthrown e rfl

/-- What is in the mailbox is taken by the one that it is for. -/
theorem Sound.take {b : Body σ α E} {w w' : Consumers σ F H α E} (h : Sound b w) {f : F}
    (hf : .fiber f ∉ w.promise.takeQueue)
    (hfor : ∀ g, w.promise.mAssigned = some (.fiber g) → g = f)
    (hw' : w.take f = some w') : Sound b w' ∧ w'.promise.valid = false := by
  rw [Consumers.take] at hw'
  split at hw'
  · cases hw'
  · rename_i v hv
    cases hw'
    refine ⟨?_, rfl⟩
    have hidle := h.setIdle hf
    exact {
      yields := h.yields
      value_ne_error := fun e he => absurd he (Option.some_ne_none _).symm
      obtained_append_pending := by
        have hacc := h.obtained_append_pending
        rw [pending, hv] at hacc
        rw [obtained_finish]
        exact (List.append_nil _).trans hacc
      mCompleted_eq := h.mCompleted_eq
      abandoned_eq := h.abandoned_eq
      takeQueue_eq_nil := h.takeQueue_eq_nil
      taking_of_mem := hidle.taking_of_mem
      woken := by
        -- Another fiber that was woken would have the reservation.
        intro hframe g hg hqueue
        obtain ⟨hne, hg⟩ := fibers_of_update_idle hg (by simp)
        exact absurd (hfor g (h.woken hframe g hg hqueue).2) hne
      awaiting := hidle.awaiting
      awaiting_unique := hidle.awaiting_unique
      told := by
        intro g hg
        obtain hg | hg := List.mem_append.1 hg
        · exact h.told g hg
        · cases List.mem_singleton.1 hg
      not_thrown := by
        intro g e hg
        obtain hg | hg := List.mem_append.1 hg
        · exact h.not_thrown g e hg
        · cases List.mem_singleton.1 hg }
  · rename_i e he
    exact absurd he (h.value_ne_error e)

theorem Coming.finish {w : Consumers σ F H α E} (h : w.Coming) {f : F}
    (hf : w.promise.mAssigned = some (.fiber f) → w.fibers f ≠ .taking) (o : Outcome α E) :
    (w.finish f o).Coming := by
  obtain ⟨g, hg, hassigned⟩ := h
  refine ⟨g, ?_, hassigned⟩
  have hne : g ≠ f := by
    rintro rfl
    exact hf hassigned hg
  exact (Function.update_of_ne hne ..).trans hg

/-- A call ends, and nobody else loses what is in the mailbox. -/
theorem Reserved.finish {w : Consumers σ F H α E} (h : w.Reserved) {f : F}
    (hf : w.promise.valid → w.promise.mAssigned = some (.fiber f) → w.fibers f ≠ .taking)
    (o : Outcome α E) : (w.finish f o).Reserved := by
  intro hframe hvalid g hg
  obtain ⟨-, hg⟩ := fibers_of_update_idle hg (by simp)
  exact (h hframe hvalid g hg).finish (hf hvalid) o

/-- A fiber waits in the queue. -/
theorem Sound.enqueue {b : Body σ α E} {w : Consumers σ F H α E} (h : Sound b w)
    (hframe : w.frame ≠ none) (f : F) :
    Sound b (setFiber f .taking { w with promise :=
      { w.promise with takeQueue := w.promise.takeQueue ++ [.fiber f] } }) where
  yields := h.yields
  value_ne_error := h.value_ne_error
  obtained_append_pending := h.obtained_append_pending
  mCompleted_eq := h.mCompleted_eq
  abandoned_eq := h.abandoned_eq
  takeQueue_eq_nil := fun hnone => absurd hnone hframe
  taking_of_mem := by
    intro g hg
    by_cases hne : g = f
    · subst hne
      exact fibers_setFiber_self ..
    · obtain hg | hg := List.mem_append.1 hg
      · exact (fibers_setFiber_of_ne hne ..).trans (h.taking_of_mem g hg)
      · cases List.mem_singleton.1 hg
        exact absurd rfl hne
  woken := by
    intro _ g hg hqueue
    have hne : g ≠ f := by
      rintro rfl
      exact hqueue (List.mem_append_right _ List.mem_cons_self)
    have hold := (fibers_setFiber_of_ne hne ..).symm.trans hg
    exact h.woken hframe g hold fun hmem => hqueue (List.mem_append_left _ hmem)
  awaiting := by
    intro _ g k hg
    have hne : g ≠ f := by
      rintro rfl
      cases (fibers_setFiber_self ..).symm.trans hg
    have hold := (fibers_setFiber_of_ne hne ..).symm.trans hg
    exact List.mem_append_left _ (h.awaiting hframe g k hold)
  awaiting_unique := by
    intro _ g g' k hg hg'
    have hne : g ≠ f := by
      rintro rfl
      cases (fibers_setFiber_self ..).symm.trans hg
    have hne' : g' ≠ f := by
      rintro rfl
      cases (fibers_setFiber_self ..).symm.trans hg'
    exact h.awaiting_unique hframe g g' k ((fibers_setFiber_of_ne hne ..).symm.trans hg)
      ((fibers_setFiber_of_ne hne' ..).symm.trans hg')
  told := h.told
  not_thrown := h.not_thrown

/-- The generator is resumed by a fiber that does not wait for a value. -/
theorem Sound.resume {b : Body σ α E} {w w' : Consumers σ F H α E} (h : Sound b w) {f : F}
    {a : Activity H} (hf : w.fibers f ≠ .taking) (ha : a ≠ .taking)
    (hcoro : ∀ k, a = .awaiting k → .coro k ∈ w.promise.takeQueue ∧
      ∀ g, w.fibers g ≠ .awaiting k)
    (hw' : w.resume f a = some w') : Sound b w' ∧ w'.frame = w.frame := by
  rw [Consumers.resume] at hw'
  split at hw'
  · cases hw'
  · obtain ⟨p, hp, rfl⟩ := Option.map_eq_some_iff.1 hw'
    rw [GeneratorPromise.setRunning] at hp
    split at hp
    · cases hp
    · cases hp
      refine ⟨?_, rfl⟩
      exact {
        yields := h.yields
        value_ne_error := h.value_ne_error
        obtained_append_pending := h.obtained_append_pending
        mCompleted_eq := h.mCompleted_eq
        abandoned_eq := h.abandoned_eq
        takeQueue_eq_nil := h.takeQueue_eq_nil
        taking_of_mem := by
          intro g hg
          have hne : g ≠ f := by
            rintro rfl
            exact hf (h.taking_of_mem g hg)
          exact (fibers_setFiber_of_ne hne ..).trans (h.taking_of_mem g hg)
        woken := by
          intro hframe g hg
          have hne : g ≠ f := by
            rintro rfl
            exact ha ((fibers_setFiber_self ..).symm.trans hg)
          exact h.woken hframe g ((fibers_setFiber_of_ne hne ..).symm.trans hg)
        awaiting := by
          intro hframe g k hg
          by_cases hne : g = f
          · subst hne
            exact (hcoro k ((fibers_setFiber_self ..).symm.trans hg)).1
          · exact h.awaiting hframe g k ((fibers_setFiber_of_ne hne ..).symm.trans hg)
        awaiting_unique := by
          intro hframe g g' k hg hg'
          by_cases hne : g = f
          · by_cases hne' : g' = f
            · exact hne.trans hne'.symm
            · subst hne
              have hnew := (hcoro k ((fibers_setFiber_self ..).symm.trans hg)).2 g'
              exact absurd ((fibers_setFiber_of_ne hne' ..).symm.trans hg') hnew
          · by_cases hne' : g' = f
            · subst hne'
              have hnew := (hcoro k ((fibers_setFiber_self ..).symm.trans hg')).2 g
              exact absurd ((fibers_setFiber_of_ne hne ..).symm.trans hg) hnew
            · exact h.awaiting_unique hframe g g' k
                ((fibers_setFiber_of_ne hne ..).symm.trans hg)
                ((fibers_setFiber_of_ne hne' ..).symm.trans hg')
        told := h.told
        not_thrown := h.not_thrown }

/-- `run` goes on with the body. -/
theorem Sound.runLoop {b : Body σ α E} {w w' : Consumers σ F H α E} (h : Sound b w) {f : F}
    (hframe : w.frame ≠ none) (hf : w.fibers f ≠ .taking) (hw' : w.runLoop f = some w') :
    Sound b w' ∧ w'.frame = w.frame := by
  rw [Consumers.runLoop, h.mCompleted_eq] at hw'
  split at hw'
  · rename_i hnone
    exact absurd (Option.isNone_iff_eq_none.1 hnone) hframe
  · exact h.resume hf (by simp) (fun k hk => by cases hk) hw'

variable [DecidableEq H]

/-- What is in the mailbox is taken by a fiber, if it is not for another one. -/
theorem Sound.takeFor {b : Body σ α E} {w w' : Consumers σ F H α E} (h : Sound b w) {f : F}
    (hf : .fiber f ∉ w.promise.takeQueue) {t : Option (Taker F H)}
    (ht : w.promise.validFor t = true) (hfiber : ∀ g, t = some (.fiber g) → g = f)
    (hw' : w.take f = some w') : Sound b w' ∧ w'.promise.valid = false := by
  obtain ⟨-, hassigned⟩ := GeneratorPromise.validFor_iff.1 ht
  apply h.take hf _ hw'
  intro g hg
  obtain hnone | heq := hassigned
  · exact absurd (hnone.symm.trans hg) (Option.some_ne_none _).symm
  · exact hfiber g (heq.symm.trans hg)

/-- A fiber looks in the mailbox while the body goes on. -/
theorem Sound.wait {b : Body σ α E} {w w' : Consumers σ F H α E} (h : Sound b w) {f : F}
    (hframe : w.frame ≠ none) (hf : .fiber f ∉ w.promise.takeQueue)
    (hw' : w.wait f = some w') : Sound b w' ∧ w'.frame = w.frame := by
  rw [Consumers.wait] at hw'
  split at hw'
  · rename_i hvalid
    refine ⟨(h.takeFor hf hvalid ?_ hw').1, frame_take hw'⟩
    intro g hg
    cases hg
    rfl
  · split at hw'
    · rename_i habandoned
      rw [h.abandoned_eq, Option.isNone_iff_eq_none] at habandoned
      exact absurd habandoned hframe
    · cases hw'
      exact ⟨h.enqueue hframe f, rfl⟩

/-- A coroutine looks in the mailbox while the body goes on. -/
theorem Sound.awaitResume {b : Body σ α E} {w w' : Consumers σ F H α E} (h : Sound b w) {f : F}
    (hframe : w.frame ≠ none) (hf : .fiber f ∉ w.promise.takeQueue) {waiter : Option H}
    (hw' : w.awaitResume f waiter = some w') : Sound b w' ∧ w'.frame = w.frame := by
  rw [Consumers.awaitResume] at hw'
  split at hw'
  · rename_i hvalid
    refine ⟨(h.takeFor hf hvalid ?_ hw').1, frame_take hw'⟩
    intro g hg
    obtain ⟨k, -, hk⟩ := Option.map_eq_some_iff.1 hg
    cases hk
  · split at hw'
    · rename_i habandoned
      rw [h.abandoned_eq, Option.isNone_iff_eq_none] at habandoned
      exact absurd habandoned hframe
    · exact h.wait hframe hf hw'

omit [DecidableEq F] in
theorem Sound.setContinuation {b : Body σ α E} {w : Consumers σ F H α E} (h : Sound b w)
    {cont : Handle H} {p : GeneratorPromise F H α E}
    (hp : w.promise.setContinuation cont = some p) : Sound b { w with promise := p } := by
  rw [GeneratorPromise.setContinuation] at hp
  split at hp
  · cases hp
    exact h.congr (p := { w.promise with mContinuation := some cont }) rfl rfl rfl rfl rfl _
  · cases hp

/-- `generate` goes on with the body, or returns. -/
theorem Sound.generateLoop {b : Body σ α E} {w w' : Consumers σ F H α E} (h : Sound b w) {f : F}
    (hf : w.fibers f ≠ .taking) (hw' : w.generateLoop f = some w') :
    Sound b w' ∧ w'.frame = w.frame := by
  rw [Consumers.generateLoop] at hw'
  split at hw'
  · cases hw'
    exact ⟨h.finish (h.not_mem_takeQueue hf) (by simp) (by simp) (by simp), rfl⟩
  · obtain ⟨p, hp, hw'⟩ := Option.bind_eq_some_iff.1 hw'
    exact (h.setContinuation hp).resume hf (by simp) (fun k hk => by cases hk) hw'

/-- The generator has suspended itself at a `co_yield`. -/
theorem Sound.transfer {b : Body σ α E} {w w' : Consumers σ F H α E} (h : Sound b w) {f : F}
    (hframe : w.frame ≠ none) (hf : w.fibers f ≠ .taking) {cont : Handle H}
    (hw' : w.transfer f cont = some w') : Sound b w' ∧ w'.frame = w.frame := by
  unfold Consumers.transfer at hw'
  split at hw'
  · exact h.runLoop hframe hf hw'
  · exact h.generateLoop hf hw'
  · exact h.awaitResume hframe (h.not_mem_takeQueue hf) hw'
  · split at hw'
    · exact h.awaitResume hframe (h.not_mem_takeQueue hf) hw'
    · cases hw'
  · cases hw'

/-- The body yields a value to a coroutine that waits for it in this fiber. -/
theorem Sound.yieldTo {b : Body σ α E} {w w' : Consumers σ F H α E} (h : Sound b w) {f : F}
    {v : α} {rest : Body σ α E} (hframe : w.frame = some (.yield v rest))
    (hvalid : w.promise.valid = false) {k : H}
    (hhead : w.promise.takeQueue.head? = some (.coro k)) (hf : w.fibers f = .awaiting k)
    {p : GeneratorPromise F H α E} {cont : Option (Handle H)}
    (hp : w.promise.yieldValue v = some (p, cont))
    (hw' : Consumers.awaitResume f (some k)
      { w with promise := p, frame := some rest, yielded := w.yielded ++ [v] } = some w') :
    Sound b w' ∧ w'.frame = some rest := by
  obtain ⟨hvalue, hqueue, hassigned, habandoned, hcompleted, -⟩ :=
    GeneratorPromise.yieldValue_eq_some hp
  have hsome : w.frame ≠ none := by
    rw [hframe]
    exact Option.some_ne_none _
  have hne : w.fibers f ≠ .taking := by
    rw [hf]
    simp
  -- The coroutine is not suspended anymore when the value is put for it.
  have hidle := h.setIdle (h.not_mem_takeQueue hne)
  have hnobody : ∀ k', w.promise.takeQueue.head? = some (.coro k') →
      ∀ g, (w.setFiber f .idle).fibers g ≠ .awaiting k' := by
    intro k' hk' g hg
    cases hhead.symm.trans hk'
    obtain ⟨hgf, hg⟩ := fibers_of_update_idle hg (by simp)
    exact hgf (h.awaiting_unique hsome g f k hg hf)
  have hyield := hidle.yield hframe hvalid hnobody hvalue hqueue hassigned habandoned hcompleted
  have hfor : p.validFor (some (.coro k)) = true := by
    apply GeneratorPromise.validFor_iff.2
    rw [GeneratorPromise.valid, hvalue, hassigned, hhead]
    exact ⟨rfl, Or.inr rfl⟩
  rw [Consumers.awaitResume] at hw'
  dsimp only at hw'
  rw [Option.map_some, if_pos hfor] at hw'
  refine ⟨(hyield.takeFor (f := f) (t := some (.coro k)) ?_ hfor ?_ ?_).1, frame_take hw'⟩
  · apply hyield.not_mem_takeQueue
    dsimp only
    rw [fibers_setFiber_self]
    simp
  · intro g hg
    cases hg
  · exact (take_setIdle f _).trans hw'

/-- What a fiber does when the body that it executes has ended. -/
theorem transfer_ended {b : Body σ α E} {w w' : Consumers σ F H α E} (h : Sound b w) {f : F}
    (hframe : w.frame = none) {cont : Handle H} (hw' : w.transfer f cont = some w') :
    (∃ k, w.fibers f = .awaiting k ∧ (∀ k', cont = .coro k' → k' = k) ∧
      (w.promise.validFor (some (.coro k)) = true ∧ w.take f = some w' ∨
        w.promise.validFor (some (.coro k)) = false ∧ w' = w.finish f .alreadyCompleted)) ∨
    (∀ k, cont ≠ .coro k) ∧ (∀ k, w.fibers f ≠ .awaiting k) ∧ w' = w.finish f .returned := by
  have hcompleted : w.promise.mCompleted = true := by
    rw [h.mCompleted_eq, hframe]
    rfl
  have hawait : ∀ k, w.awaitResume f (some k) = some w' →
      w.promise.validFor (some (.coro k)) = true ∧ w.take f = some w' ∨
        w.promise.validFor (some (.coro k)) = false ∧ w' = w.finish f .alreadyCompleted := by
    intro k hk
    have habandoned : w.promise.abandoned = true := by
      rw [h.abandoned_eq, hframe]
      rfl
    rw [Consumers.awaitResume, Option.map_some, if_pos habandoned] at hk
    split at hk
    · rename_i hvalid
      exact Or.inl ⟨hvalid, hk⟩
    · rename_i hvalid
      cases hk
      exact Or.inr ⟨Bool.eq_false_iff.2 hvalid, rfl⟩
  unfold Consumers.transfer at hw'
  split at hw'
  · rename_i hf
    rw [Consumers.runLoop, if_pos hcompleted, runReturn] at hw'
    refine Or.inr ⟨by simp, by simp [hf], ?_⟩
    split at hw'
    · rename_i e he
      exact absurd he (h.value_ne_error e)
    · exact (Option.some.inj hw').symm
  · rename_i hf
    rw [Consumers.generateLoop, hcompleted, Bool.or_true, if_pos rfl] at hw'
    exact Or.inr ⟨by simp, by simp [hf], (Option.some.inj hw').symm⟩
  · rename_i k hf
    exact Or.inl ⟨k, hf, fun k' hk' => (by cases hk'), hawait k hw'⟩
  · rename_i k k' hf
    split at hw'
    · rename_i heq
      subst heq
      refine Or.inl ⟨k, hf, fun k' hk' => ?_, hawait k hw'⟩
      cases hk'
      rfl
    · cases hw'
  · cases hw'

/-- The body has ended, and control goes to the one that waits for that. -/
theorem Sound.final {b b' : Body σ α E} {w w' : Consumers σ F H α E} (h : Sound b w) {f : F}
    (hf : w.Executes f) (hframe : w.frame = some b') (hb' : b'.Yields [] .done)
    {p : GeneratorPromise F H α E} {cont : Handle H}
    (hp : w.promise.returnVoid.finalSuspend = some (p, cont))
    (hw' : Consumers.transfer f cont { w with promise := p, frame := none } = some w') :
    Sound b w' ∧ w'.Reserved ∧ (w'.Told → w'.Settled) := by
  obtain ⟨hvalue, hqueue, hassigned, habandoned, hcompleted, hcont⟩ :=
    GeneratorPromise.finalSuspend_eq_some hp
  have hsome : w.frame ≠ none := by
    rw [hframe]
    exact Option.some_ne_none _
  set w₁ : Consumers σ F H α E := { w with promise := p, frame := none } with hw₁
  have hended : Sound b w₁ := h.ended hframe hb' hvalue hqueue habandoned hcompleted
  have hmem : .fiber f ∉ w₁.promise.takeQueue := hended.not_mem_takeQueue hf.2
  -- For whom the value is, depends on who waited last.
  have hlast : (∃ k, cont = .coro k ∧ w₁.promise.mAssigned = some (.coro k)) ∨ w₁.Coming ∨
      w.promise.takeQueue = [] ∧ w₁.Reserved := by
    cases hl : w.promise.takeQueue.getLast? with
    | some t =>
        have hwaited : w.promise.returnVoid.takeQueue.getLast? = some t := hl
        rw [hwaited] at hassigned
        cases t with
        | fiber y =>
            exact Or.inr (Or.inl ⟨y, h.taking_of_mem y (List.mem_of_getLast? hl), hassigned⟩)
        | coro k => exact Or.inl ⟨k, hcont k hwaited, hassigned⟩
    | none =>
        have hnil : w.promise.takeQueue = [] := List.getLast?_eq_none_iff.1 hl
        have hwaited : w.promise.returnVoid.takeQueue.getLast? = none := hl
        rw [hwaited] at hassigned
        refine Or.inr (Or.inr ⟨hnil, fun _ _ g hg => ?_⟩)
        have hwoken := h.woken hsome g hg (hnil ▸ List.not_mem_nil)
        exact ⟨g, hg, hassigned.trans hwoken.2⟩
  obtain ⟨k, hk, hkcont, ⟨hvalid, htake⟩ | ⟨hvalid, rfl⟩⟩ | ⟨hnoop, hnot, rfl⟩ :=
    transfer_ended hended rfl hw'
  · obtain ⟨hsound, hempty⟩ := hended.takeFor hmem hvalid (fun g hg => by cases hg) htake
    refine ⟨hsound, reserved_of_not_valid hempty, fun _ hnot => ?_⟩
    rw [hempty] at hnot
    cases hnot
  · refine ⟨hended.finish hmem (by simp) (by simp) fun _ => rfl, ?_⟩
    obtain ⟨k', hcoro, hfor⟩ | hcoming | ⟨hnil, -⟩ := hlast
    · have hempty : w₁.promise.valid = false := by
        rw [GeneratorPromise.validFor, hfor, hkcont k' hcoro] at hvalid
        simpa using hvalid
      refine ⟨reserved_of_not_valid hempty, fun _ hnot => ?_⟩
      exact absurd (hempty.symm.trans hnot) (by simp)
    · have hdone := hcoming.finish (fun _ => hf.2) (.alreadyCompleted : Outcome α E)
      exact ⟨fun _ _ _ _ => hdone, fun _ _ => hdone⟩
    · have hwaits := h.awaiting hsome f k hk
      rw [hnil] at hwaits
      cases hwaits
  · refine ⟨hended.finish hmem (by simp) (by simp) (by simp), ?_⟩
    obtain ⟨k', hcoro, -⟩ | hcoming | ⟨-, hreserved⟩ := hlast
    · exact absurd hcoro (hnoop k')
    · have hdone := hcoming.finish (fun _ => hf.2) (.returned : Outcome α E)
      exact ⟨fun _ _ _ _ => hdone, fun _ _ => hdone⟩
    · refine ⟨hreserved.finish (fun _ _ => hf.2) _, ?_⟩
      rintro ⟨g, hg⟩
      obtain hg | hg := List.mem_append.1 hg
      · exact absurd (h.told g hg) hsome
      · cases List.mem_singleton.1 hg

/-- The body yields a value. -/
theorem Sound.execYield {b : Body σ α E} {w w' : Consumers σ F H α E} (h : Sound b w) {f : F}
    (hf : w.Executes f) {v : α} {rest : Body σ α E}
    (hframe : w.frame = some (.yield v rest)) (hvalid : w.promise.valid = false)
    {p : GeneratorPromise F H α E} {cont : Option (Handle H)}
    (hp : w.promise.yieldValue v = some (p, cont))
    (hw' : proceed f cont
      { w with promise := p, frame := some rest, yielded := w.yielded ++ [v] } = some w') :
    Sound b w' ∧ w'.frame = some rest := by
  obtain ⟨hvalue, hqueue, hassigned, habandoned, hcompleted, hcont⟩ :=
    GeneratorPromise.yieldValue_eq_some hp
  by_cases hhead : ∃ k, w.promise.takeQueue.head? = some (.coro k)
  · obtain ⟨k, hk⟩ := hhead
    rw [hcont k hk, proceed] at hw'
    unfold Consumers.transfer at hw'
    split at hw'
    · rename_i heq _
      cases heq
    · rename_i heq _
      cases heq
    · rename_i heq _
      cases heq
    · rename_i k' k'' heq hawaits
      cases heq
      split at hw'
      · rename_i hkk
        subst hkk
        exact h.yieldTo hframe hvalid hk hawaits hp hw'
      · cases hw'
    · cases hw'
  · have hyield := h.yield hframe hvalid (fun k hk => absurd ⟨k, hk⟩ hhead) hvalue hqueue
      hassigned habandoned hcompleted
    cases cont with
    | none =>
        cases hw'
        exact ⟨hyield, rfl⟩
    | some cont => exact hyield.transfer (Option.some_ne_none _) hf.2 hw'

/-- The body goes on. -/
theorem Sound.exec {b : Body σ α E} {w w' : Consumers σ F H α E} (h : Sound b w) {f : F}
    (hf : w.Executes f) (hw' : w.exec f = some w') :
    Sound b w' ∧ (w'.frame = none → w'.Reserved ∧ (w'.Told → w'.Settled)) := by
  rw [Consumers.exec] at hw'
  split at hw'
  · cases hw'
  · rename_i hframe
    obtain ⟨⟨p, cont⟩, hp, hw'⟩ := Option.bind_eq_some_iff.1 hw'
    obtain ⟨hsound, hrest⟩ := h.final hf hframe (.refl _) hp hw'
    exact ⟨hsound, fun _ => hrest⟩
  · rename_i e hframe
    obtain ⟨⟨p, cont⟩, hp, hw'⟩ := Option.bind_eq_some_iff.1 hw'
    obtain ⟨hsound, hrest⟩ := h.final hf hframe (.throw e) hp hw'
    exact ⟨hsound, fun _ => hrest⟩
  · rename_i v rest hframe
    have hsome : w.frame ≠ none := by
      rw [hframe]
      exact Option.some_ne_none _
    split at hw'
    · cases hw'
      refine ⟨?_, fun hnone => absurd hnone hsome⟩
      exact h.congr (p := { w.promise with putQueue := w.promise.putQueue ++ [f] })
        rfl rfl rfl rfl rfl _
    · rename_i hvalid
      obtain ⟨⟨p, cont⟩, hp, hw'⟩ := Option.bind_eq_some_iff.1 hw'
      have hyields := h.execYield hf hframe (Bool.eq_false_iff.2 hvalid) hp hw'
      refine ⟨hyields.1, fun hnone => ?_⟩
      rw [hyields.2] at hnone
      cases hnone
  · rename_i g rest hframe
    cases hw'
    exact ⟨h.compute hframe, fun hnone => absurd hnone (Option.some_ne_none _)⟩

/-- One step while the body goes on. -/
theorem Sound.step_going {b : Body σ α E} {w w' : Consumers σ F H α E} (h : Sound b w)
    (hframe : w.frame ≠ none) {l : Label σ F H} (hw' : w.step l = some w') :
    Sound b w' ∧ (w'.frame = none → w'.Reserved ∧ (w'.Told → w'.Settled)) := by
  have hcompleted : ¬ w.promise.mCompleted = true := by
    rw [h.mCompleted_eq, Option.isNone_iff_eq_none]
    exact hframe
  -- No step but one of the body ends the body.
  suffices hgoing : (∀ f, l ≠ .exec f) → Sound b w' ∧ w'.frame = w.frame by
    by_cases hl : ∃ f, l = .exec f
    · obtain ⟨f, rfl⟩ := hl
      rw [Consumers.step] at hw'
      split at hw'
      · rename_i hf
        exact h.exec hf.1 hw'
      · cases hw'
    · obtain ⟨hsound, heq⟩ := hgoing fun f hf => hl ⟨f, hf⟩
      exact ⟨hsound, fun hnone => absurd (heq.symm.trans hnone) hframe⟩
  intro hl
  cases l with
  | exec f => exact absurd rfl (hl f)
  | value f =>
      rw [Consumers.step] at hw'
      split at hw'
      · rename_i hf
        rw [value, if_neg hcompleted] at hw'
        exact h.wait hframe (h.not_mem_takeQueue (by simp [hf])) hw'
      · cases hw'
  | await f k =>
      rw [Consumers.step] at hw'
      split at hw'
      · rename_i hf
        have hmem := h.not_mem_takeQueue (f := f) (by simp [hf.1])
        rw [Consumers.await] at hw'
        split at hw'
        · exact h.awaitResume hframe hmem hw'
        · refine (h.enqueueCoro hframe k).resume (by simp [hf.1]) (by simp) ?_ hw'
          intro k' hk'
          cases hk'
          refine ⟨List.mem_append_right _ List.mem_cons_self, fun g hg => ?_⟩
          exact hf.2 (h.awaiting hframe g k hg)
      · cases hw'
  | run f =>
      rw [Consumers.step] at hw'
      split at hw'
      · rename_i hf
        have hne : w.fibers f ≠ .taking := by simp [hf]
        rw [Consumers.run] at hw'
        split at hw'
        · cases hw'
          exact ⟨h.finish (h.not_mem_takeQueue hne) (by simp) (by simp) (by simp), rfl⟩
        · exact h.runLoop hframe hne hw'
      · cases hw'
  | generate f =>
      rw [Consumers.step] at hw'
      split at hw'
      · rename_i hf
        have hne : w.fibers f ≠ .taking := by simp [hf]
        have hreturned : Sound b (w.finish f .returned) :=
          h.finish (h.not_mem_takeQueue hne) (by simp) (by simp) (by simp)
        rw [Consumers.generate, if_neg hcompleted] at hw'
        split at hw'
        · cases hw'
          exact ⟨hreturned, rfl⟩
        · split at hw'
          · cases hw'
            exact ⟨hreturned, rfl⟩
          · exact h.generateLoop hne hw'
      · cases hw'
  | go f =>
      rw [Consumers.step] at hw'
      split at hw'
      · rename_i hf
        exact h.wait hframe hf.2 hw'
      · cases hw'
  | change g =>
      cases hw'
      exact ⟨h.congr rfl rfl rfl rfl rfl _, rfl⟩

end Consumers

end Zth.Coro
