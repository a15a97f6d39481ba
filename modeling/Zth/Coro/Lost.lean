import Zth.Coro.Sound

/-!
# The last value of a generator

The body may return while its last value is still in the mailbox. From then on, `value` and
`generate` throw without a look in the mailbox, and `co_await` gets the value only if it was
never reserved for anybody. So the value is lost, unless a fiber was waiting for it before. An
exception of the body does not get into the mailbox at all.
-/

namespace Zth.Coro

variable {σ F H α E : Type*}

namespace Consumers

variable [DecidableEq F]

/-- A fiber that did not wait gets to know something. -/
theorem settled_finish_iff {w : Consumers σ F H α E} {f : F} (hf : w.fibers f = .idle)
    (o : Outcome α E) : (w.finish f o).Settled ↔ w.Settled := by
  have hcoming : (w.finish f o).Coming ↔ w.Coming := by
    constructor
    · rintro ⟨g, hg, hassigned⟩
      exact ⟨g, (fibers_of_update_idle hg (by simp)).2, hassigned⟩
    · intro h
      exact h.finish (fun _ => by simp [hf]) o
  exact imp_congr Iff.rfl hcoming

theorem told_finish (w : Consumers σ F H α E) (f : F) :
    (w.finish f .alreadyCompleted).Told :=
  ⟨f, List.mem_append_right _ List.mem_cons_self⟩

theorem told_finish_iff {w : Consumers σ F H α E} {f : F} {o : Outcome α E}
    (ho : o ≠ .alreadyCompleted) : (w.finish f o).Told ↔ w.Told := by
  constructor
  · rintro ⟨g, hg⟩
    obtain hg | hg := List.mem_append.1 hg
    · exact ⟨g, hg⟩
    · cases List.mem_singleton.1 hg
      exact absurd rfl ho
  · rintro ⟨g, hg⟩
    exact ⟨g, List.mem_append_left _ hg⟩

/-- What a step leads to when the body has ended: it keeps what holds in every state, and if
nobody was told too early before, then nobody was afterwards if and only if the condition
holds. -/
structure EndedStep (b : Body σ α E) (w w' : Consumers σ F H α E) (ok : Prop) : Prop where
  sound : Sound b w'
  reserved : w'.Reserved
  frame : w'.frame = none
  told : (w.Told → w.Settled) → ((w'.Told → w'.Settled) ↔ ok)

/-- A call ends without a value. -/
theorem EndedStep.finish {b : Body σ α E} {w : Consumers σ F H α E} (h : Sound b w)
    (hr : w.Reserved) (hframe : w.frame = none) {f : F}
    (hf : w.promise.valid → w.promise.mAssigned = some (.fiber f) → w.fibers f ≠ .taking)
    {o : Outcome α E} (hvalue : ∀ v, o ≠ .value v) (hthrown : ∀ e, o ≠ .thrown e) {ok : Prop}
    (hok : (w.Told → w.Settled) → (((w.finish f o).Told → (w.finish f o).Settled) ↔ ok)) :
    EndedStep b w (w.finish f o) ok := by
  have hmem : .fiber f ∉ w.promise.takeQueue := by
    rw [h.takeQueue_eq_nil hframe]
    exact List.not_mem_nil
  exact ⟨h.finish hmem hvalue hthrown fun _ => hframe, hr.finish hf o, hframe, hok⟩

/-- An idle fiber is told that the generator has completed. -/
theorem EndedStep.tell {b : Body σ α E} {w : Consumers σ F H α E} (h : Sound b w)
    (hr : w.Reserved) (hframe : w.frame = none) {f : F} (hf : w.fibers f = .idle) {ok : Prop}
    (hok : w.Settled ↔ ok) : EndedStep b w (w.finish f .alreadyCompleted) ok := by
  apply EndedStep.finish h hr hframe _ (by simp) (by simp)
  · intro _
    rw [forall_prop_of_true (w.told_finish f), settled_finish_iff hf]
    exact hok
  · exact fun _ _ => by simp [hf]

/-- A call of an idle fiber returns, or fails for another reason. -/
theorem EndedStep.leave {b : Body σ α E} {w : Consumers σ F H α E} (h : Sound b w)
    (hr : w.Reserved) (hframe : w.frame = none) {f : F} (hf : w.fibers f = .idle)
    {o : Outcome α E} (hvalue : ∀ v, o ≠ .value v) (hthrown : ∀ e, o ≠ .thrown e)
    (ho : o ≠ .alreadyCompleted) : EndedStep b w (w.finish f o) True := by
  apply EndedStep.finish h hr hframe _ hvalue hthrown
  · intro htold
    rw [told_finish_iff ho, settled_finish_iff hf]
    exact ⟨fun _ => trivial, fun _ => htold⟩
  · exact fun _ _ => by simp [hf]

variable [DecidableEq H]

/-- The last value is taken. -/
theorem EndedStep.take {b : Body σ α E} {w w' : Consumers σ F H α E} (h : Sound b w)
    (hframe : w.frame = none) {f : F} {t : Option (Taker F H)}
    (ht : w.promise.validFor t = true) (hfiber : ∀ g, t = some (.fiber g) → g = f)
    (hw' : w.take f = some w') {ok : Prop} (hok : ok) : EndedStep b w w' ok := by
  have hmem : .fiber f ∉ w.promise.takeQueue := by
    rw [h.takeQueue_eq_nil hframe]
    exact List.not_mem_nil
  obtain ⟨hsound, hempty⟩ := h.takeFor hmem ht hfiber hw'
  refine ⟨hsound, reserved_of_not_valid hempty, (frame_take hw').trans hframe,
    fun _ => ⟨fun _ => hok, fun _ _ hvalid => ?_⟩⟩
  rw [hempty] at hvalid
  cases hvalid

omit [DecidableEq F] [DecidableEq H] in
/-- The flags of a generator whose body has ended. -/
theorem Sound.flags_of_ended {b : Body σ α E} {w : Consumers σ F H α E} (h : Sound b w)
    (hframe : w.frame = none) :
    w.promise.mCompleted = true ∧ w.promise.abandoned = true := by
  rw [h.mCompleted_eq, h.abandoned_eq, hframe]
  exact ⟨rfl, rfl⟩

/-- `co_await` when the body has ended. -/
theorem EndedStep.await {b : Body σ α E} {w w' : Consumers σ F H α E} (h : Sound b w)
    (hr : w.Reserved) (hframe : w.frame = none) {f : F} (hf : w.fibers f = .idle) {k : H}
    (hw' : w.await f k = some w') : EndedStep b w w' (w.AsksInTime (.await f k)) := by
  obtain ⟨hcompleted, habandoned⟩ := h.flags_of_ended hframe
  rw [Consumers.await, habandoned, Bool.true_or, Bool.true_or, if_pos rfl,
    Consumers.awaitResume, Option.map_none, if_pos habandoned] at hw'
  split at hw'
  · rename_i hvalid
    obtain ⟨-, hnone⟩ := GeneratorPromise.validFor_iff.1 hvalid
    exact .take h hframe hvalid (fun g hg => by cases hg) hw'
      fun _ _ => Or.inl (hnone.elim id id)
  · rename_i hvalid
    cases hw'
    apply EndedStep.tell h hr hframe hf
    constructor
    · exact fun hsettled _ hv => Or.inr (hsettled hv)
    · intro hok hv
      obtain hnone | hcoming := hok hcompleted hv
      · exact absurd (GeneratorPromise.validFor_iff.2 ⟨hv, Or.inl hnone⟩) hvalid
      · exact hcoming

/-- A fiber that was woken goes on when the body has ended. -/
theorem EndedStep.go {b : Body σ α E} {w w' : Consumers σ F H α E} (h : Sound b w)
    (hr : w.Reserved) (hframe : w.frame = none) {f : F} (hf : w.fibers f = .taking)
    (hw' : w.wait f = some w') : EndedStep b w w' True := by
  obtain ⟨-, habandoned⟩ := h.flags_of_ended hframe
  rw [Consumers.wait, if_pos habandoned] at hw'
  split at hw'
  · rename_i hvalid
    refine .take h hframe hvalid (fun g hg => ?_) hw' trivial
    cases hg
    rfl
  · rename_i hvalid
    cases hw'
    have hother : w.promise.valid = true → w.promise.mAssigned = some (.fiber f) →
        w.fibers f ≠ .taking := by
      intro hv hassigned
      exact absurd (GeneratorPromise.validFor_iff.2 ⟨hv, Or.inr hassigned⟩) hvalid
    apply EndedStep.finish h hr hframe hother (by simp) (by simp)
    refine fun _ => ⟨fun _ => trivial, fun _ _ hv => ?_⟩
    exact (hr hframe hv f hf).finish (hother hv) _

/-- One step when the body has ended. -/
theorem Sound.step_ended {b : Body σ α E} {w w' : Consumers σ F H α E} (h : Sound b w)
    (hr : w.Reserved) (hframe : w.frame = none) {l : Label σ F H} (hw' : w.step l = some w') :
    EndedStep b w w' (w.AsksInTime l) := by
  obtain ⟨hcompleted, -⟩ := h.flags_of_ended hframe
  have hasks : w.Settled ↔ (w.promise.mCompleted = true → w.promise.valid = true → w.Coming) :=
    ⟨fun hsettled _ => hsettled, fun hok => hok hcompleted⟩
  cases l with
  | value f =>
      obtain ⟨hf, hw'⟩ := Option.ite_none_right_eq_some.1 hw'
      rw [value, if_pos hcompleted] at hw'
      cases hw'
      exact .tell h hr hframe hf hasks
  | generate f =>
      obtain ⟨hf, hw'⟩ := Option.ite_none_right_eq_some.1 hw'
      rw [generate, if_pos hcompleted] at hw'
      cases hw'
      exact .tell h hr hframe hf hasks
  | await f k =>
      obtain ⟨hf, hw'⟩ := Option.ite_none_right_eq_some.1 hw'
      exact .await h hr hframe hf.1 hw'
  | run f =>
      obtain ⟨hf, hw'⟩ := Option.ite_none_right_eq_some.1 hw'
      rw [Consumers.run] at hw'
      split at hw'
      · cases hw'
        exact .leave h hr hframe hf (by simp) (by simp) (by simp)
      · rw [Consumers.runLoop, if_pos hcompleted, runReturn] at hw'
        cases hw'
        split
        · rename_i e he
          exact absurd he (h.value_ne_error e)
        · exact .leave h hr hframe hf (by simp) (by simp) (by simp)
  | exec f =>
      obtain ⟨-, hw'⟩ := Option.ite_none_right_eq_some.1 hw'
      rw [Consumers.exec, hframe] at hw'
      cases hw'
  | go f =>
      obtain ⟨hf, hw'⟩ := Option.ite_none_right_eq_some.1 hw'
      exact .go h hr hframe hf.1 hw'
  | change g =>
      cases hw'
      exact ⟨h.congr rfl rfl rfl rfl rfl _, hr, hframe,
        fun htold => ⟨fun _ => trivial, fun _ => htold⟩⟩

/-- What holds in every state, also in those where a value is lost. -/
theorem invariant_step {b : Body σ α E} {w w' : Consumers σ F H α E} {l : Label σ F H}
    (h : Sound b w ∧ w.Reserved) (hw' : w.step l = some w') : Sound b w' ∧ w'.Reserved := by
  by_cases hframe : w.frame = none
  · have hended := h.1.step_ended h.2 hframe hw'
    exact ⟨hended.sound, hended.reserved⟩
  · obtain ⟨hsound, hlast⟩ := h.1.step_going hframe hw'
    exact ⟨hsound, fun hnone => (hlast hnone).1 hnone⟩

omit [DecidableEq F] [DecidableEq H] in
theorem Sound.pending_eq_nil_iff {b : Body σ α E} {w : Consumers σ F H α E} (h : Sound b w) :
    w.pending = [] ↔ ¬ w.promise.valid = true := by
  rw [pending, GeneratorPromise.valid]
  cases hv : w.promise.mValue with
  | none => simp
  | some r =>
      cases r with
      | ok v => simp
      | error e => exact absurd hv (h.value_ne_error e)

omit [DecidableEq F] [DecidableEq H] in
theorem noneLost_iff {b : Body σ α E} {w : Consumers σ F H α E} (h : Sound b w)
    (hr : w.Reserved) : w.NoneLost ↔ (w.Told → w.Settled) := by
  have hacc := h.obtained_append_pending
  constructor
  · intro hnone htold hvalid
    obtain ⟨f, hf⟩ := htold
    by_contra hcoming
    have hidle : ∀ g, w.fibers g ≠ .taking := fun g hg => hcoming (hr (h.told f hf) hvalid g hg)
    have hall := (hnone ⟨f, hf⟩ hidle).2
    rw [← hall] at hacc
    have hnil := List.append_cancel_left (hacc.trans (List.append_nil w.obtained).symm)
    exact h.pending_eq_nil_iff.1 hnil hvalid
  · rintro hsettled ⟨f, hf⟩ hidle
    refine ⟨h.told f hf, ?_⟩
    have hempty : ¬ w.promise.valid = true := by
      intro hvalid
      obtain ⟨g, hg, -⟩ := hsettled ⟨f, hf⟩ hvalid
      exact hidle g hg
    rw [h.pending_eq_nil_iff.2 hempty, List.append_nil] at hacc
    exact hacc

theorem invariant_run {b : Body σ α E} {s : σ} {ls : List (Label σ F H)}
    {w : Consumers σ F H α E} (hr : Transition.run step (init F H b s) ls = some w) :
    Sound b w ∧ w.Reserved :=
  Transition.run_invariant (fun _ _ _ hw hw' => invariant_step (b := b) hw hw')
    ⟨sound_init b s, reserved_of_not_valid rfl⟩ hr

/-- For every body, and every interleaving of the fibers that execute it and that obtain values
from it: the values that were obtained, and then the one in the mailbox, are what the body has
yielded up to now, each once and in order. And all values were obtained, whenever a consumer was
told that the generator has completed and none is about to take a value, if and only if nobody
asks in a way that overlooks the last value. -/
theorem noneLost_always_iff (b : Body σ α E) (s : σ) (ls : List (Label σ F H))
    (w : Consumers σ F H α E) (hr : Transition.run step (init F H b s) ls = some w) :
    b.Yields w.yielded (w.frame.getD .done) ∧ w.obtained ++ w.pending = w.yielded ∧
      (Transition.Always step NoneLost (init F H b s) ls ↔
        Transition.Guarded step AsksInTime (init F H b s) ls) := by
  have hinit : Sound b (init F H b s) ∧ (init F H b s).Reserved :=
    ⟨sound_init b s, reserved_of_not_valid rfl⟩
  have hsound := (invariant_run hr).1
  refine ⟨hsound.yields, hsound.obtained_append_pending, ?_⟩
  refine Transition.always_iff_guarded_of_run (I := fun w => Sound b w ∧ w.Reserved)
    (fun w l w' hw hw' => invariant_step hw hw') ?_ hinit ?_ hr
  · intro w l w' hI hP hw'
    have hI' := invariant_step hI hw'
    rw [noneLost_iff hI.1 hI.2] at hP
    rw [noneLost_iff hI'.1 hI'.2]
    by_cases hframe : w.frame = none
    · exact (hI.1.step_ended hI.2 hframe hw').told hP
    · obtain ⟨hsound', hlast⟩ := hI.1.step_going hframe hw'
      have hgoing : w.promise.mCompleted ≠ true := by
        rw [hI.1.mCompleted_eq]
        exact fun hnone => hframe (Option.isNone_iff_eq_none.1 hnone)
      constructor
      · intro _
        cases l with
        | value f => exact fun hcompleted => absurd hcompleted hgoing
        | generate f => exact fun hcompleted => absurd hcompleted hgoing
        | await f k => exact fun hcompleted => absurd hcompleted hgoing
        | _ => trivial
      · rintro - ⟨f, hf⟩
        exact (hlast (hsound'.told f hf)).2 ⟨f, hf⟩
  · rintro ⟨f, hf⟩
    cases hf

/-- The consumer waits for the first value before the generator runs in its own fiber. The value
is handed over when the body has returned already. -/
def waitedFor : List (Label Unit Bool Unit) :=
  [.value true, .run false, .exec false, .exec false, .go true, .value true]

theorem noneLost_waitedFor :
    ∃ w : Consumers Unit Bool Unit ℕ Unit,
      Transition.run step (init Bool Unit (.yield 7 .done) ()) waitedFor = some w ∧
      w.log = [(false, .returned), (true, .value 7), (true, .alreadyCompleted)] ∧
      Transition.Always step NoneLost (init Bool Unit (.yield 7 .done : Body Unit ℕ Unit) ())
        waitedFor := by
  refine ⟨_, rfl, rfl, (noneLost_always_iff _ _ waitedFor _ rfl).2.2.2 ?_⟩
  refine .cons ?_ rfl (.cons trivial rfl (.cons trivial rfl (.cons trivial rfl
    (.cons trivial rfl (.cons ?_ rfl trivial)))))
  · intro hcompleted
    cases hcompleted
  · intro _ hvalid
    cases hvalid

/-- The body returns before the consumer asks for its value. -/
def askedLate : List (Label Unit Bool Unit) :=
  [.run false, .exec false, .exec false, .value true]

/-- The consumer is told that the generator has completed, and its only value stays in the
mailbox. -/
theorem not_noneLost_askedLate :
    ∃ w : Consumers Unit Bool Unit ℕ Unit,
      Transition.run step (init Bool Unit (.yield 7 .done) ()) askedLate = some w ∧
      w.log = [(false, .returned), (true, .alreadyCompleted)] ∧
      w.obtained = [] ∧ w.pending = [7] ∧ w.yielded = [7] ∧ ¬ w.NoneLost := by
  refine ⟨_, rfl, rfl, rfl, rfl, rfl, ?_⟩
  intro h
  have hlost := h ⟨true, List.mem_cons_of_mem _ List.mem_cons_self⟩ (by decide)
  cases hlost.2

/-- The body throws in `run`, which returns. -/
theorem Sound.log_exec_throw {b : Body σ α E} {w w' : Consumers σ F H α E} (h : Sound b w)
    {f : F} {e : E} (hframe : w.frame = some (.throw e)) (hf : w.fibers f = .running)
    (hw' : w.step (.exec f) = some w') : w'.log = w.log ++ [(f, .returned)] := by
  rw [step] at hw'
  split at hw'
  · rw [Consumers.exec, hframe] at hw'
    obtain ⟨⟨p, cont⟩, hp, hw'⟩ := Option.bind_eq_some_iff.1 hw'
    obtain ⟨hvalue, hqueue, -, habandoned, hcompleted, -⟩ :=
      GeneratorPromise.finalSuspend_eq_some hp
    have hended := h.ended hframe (.throw e) hvalue hqueue habandoned hcompleted
    obtain ⟨k, hk, -⟩ | ⟨-, -, rfl⟩ := transfer_ended hended rfl hw'
    · cases hf.symm.trans hk
    · rfl
  · cases hw'

/-- Who asks for a value after the last one, is told that the generator has completed. -/
theorem Sound.asks_ended {b : Body σ α E} {w : Consumers σ F H α E} (h : Sound b w)
    (hframe : w.frame = none) (hpending : w.pending = []) {f : F} (hf : w.fibers f = .idle) :
    w.step (.value f) = some (w.finish f .alreadyCompleted) ∧
      ∀ k, w.step (.await f k) = some (w.finish f .alreadyCompleted) := by
  have hcompleted : w.promise.mCompleted = true := by
    rw [h.mCompleted_eq, hframe]
    rfl
  have habandoned : w.promise.abandoned = true := by
    rw [h.abandoned_eq, hframe]
    rfl
  have hnot : ¬ w.promise.validFor none = true := by
    intro hvalid
    exact h.pending_eq_nil_iff.1 hpending (GeneratorPromise.validFor_iff.1 hvalid).1
  constructor
  · rw [step, if_pos hf, value, if_pos hcompleted]
  · intro k
    have hmem : .coro k ∉ w.promise.takeQueue := by
      rw [h.takeQueue_eq_nil hframe]
      exact List.not_mem_nil
    rw [step, if_pos ⟨hf, hmem⟩, Consumers.await, habandoned, Bool.true_or, Bool.true_or,
      if_pos rfl, Consumers.awaitResume, Option.map_none, if_neg hnot, if_pos habandoned]

/-- For every body, and in particular for one that throws in the end: a range-for loop visits its
values and returns, and in every interleaving of fibers, nothing throws an exception of the
body. When the body throws, the `run` that executes it returns, and from then on, a consumer is
told that the generator has completed. -/
theorem exception_swallowed (b : Body σ α E) (s : σ) :
    (∀ (me : F) (visit : α → σ → σ), ∃ n, ∀ fuel, n ≤ fuel →
      (Generator.init F H b).rangeFor me visit fuel s =
        .ok (Generator.ended σ F H α E, (b.visits visit s).2, (b.visits visit s).1)) ∧
    ∀ (ls : List (Label σ F H)) (w : Consumers σ F H α E),
      Transition.run step (init F H b s) ls = some w →
      (∀ f e, (f, .thrown e) ∉ w.log) ∧
      (∀ f e w', w.frame = some (.throw e) → w.fibers f = .running →
        w.step (.exec f) = some w' → w'.log = w.log ++ [(f, .returned)]) ∧
      (w.frame = none → w.pending = [] → ∀ f, w.fibers f = .idle →
        w.step (.value f) = some (w.finish f .alreadyCompleted) ∧
        ∀ h, w.step (.await f h) = some (w.finish f .alreadyCompleted)) := by
  constructor
  · intro me visit
    exact Generator.rangeFor_suspended me visit none b s
  · intro ls w hr
    have hsound := (invariant_run hr).1
    refine ⟨hsound.not_thrown, ?_, ?_⟩
    · exact fun f e w' hframe hf hw' => hsound.log_exec_throw hframe hf hw'
    · exact fun hframe hpending f hf => hsound.asks_ended hframe hpending hf

/-- The generator yields 7 to a consumer, and then throws. -/
def thrownAfterOne : List (Label Unit Bool Unit) :=
  [.value true, .run false, .exec false, .go true]

theorem exception_swallowed_thrownAfterOne :
    ∃ w : Consumers Unit Bool Unit ℕ ℕ,
      Transition.run step (init Bool Unit (.yield 7 (.throw 3)) ()) thrownAfterOne = some w ∧
      w.frame = some (.throw 3) ∧
      (∀ w', w.step (.exec false) = some w' → w'.log = [(true, .value 7), (false, .returned)]) ∧
      ∃ n, ∀ fuel, n ≤ fuel →
        (Generator.init Bool Unit (.yield 7 (.throw 3))).rangeFor true (fun _ s => s) fuel () =
          .ok (Generator.ended Unit Bool Unit ℕ ℕ, (), [7]) := by
  obtain ⟨hrange, hruns⟩ :=
    exception_swallowed (F := Bool) (H := Unit) (.yield 7 (.throw 3) : Body Unit ℕ ℕ) ()
  exact ⟨_, rfl, rfl, fun w' => (hruns thrownAfterOne _ rfl).2.1 false 3 w' rfl rfl,
    hrange true fun _ s => s⟩

/-- A body that throws after its first value: `run` returns, and the consumer is told that the
generator has completed. -/
theorem not_rethrown_thrownAfterOne :
    ∃ w : Consumers Unit Bool Unit ℕ ℕ,
      Transition.run step (init Bool Unit (.yield 7 (.throw 3)) ())
        (thrownAfterOne ++ [.exec false, .value true, .await true ()]) = some w ∧
      w.log = [(true, .value 7), (false, .returned), (true, .alreadyCompleted),
        (true, .alreadyCompleted)] ∧
      ∀ r ∈ w.log, r.2 ≠ .thrown 3 :=
  ⟨_, rfl, rfl, by decide⟩

end Consumers

end Zth.Coro
