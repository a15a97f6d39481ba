import Zth.Worker.System

/-!
# Where fibers are

Every fiber is in one place: nowhere, in one of the queues of the worker, in one
queue of a synchronizer, or behind one waitable of the waiter. The place fits the
state of the fiber. All operations on fibers take a fiber out of its place and put
it in another; in between, the fiber is *detached*, and all others are where they
were.
-/

namespace Zth

/-- The places a fiber can be in. -/
inductive Place (Q W : Type*) where
  | nowhere
  | runnable
  | suspended
  | queued (q : Q)
  | timed (w : W)

/-- The places that use the link fields of the fiber. -/
def Place.linked {Q W : Type*} : Place Q W → Bool
  | nowhere | timed _ => false
  | runnable | suspended | queued _ => true

/-- The state of the fiber fits the place it is in. -/
def Fiber.Fits {Q W : Type*} (x : Fiber) : Place Q W → Prop
  | .nowhere => x.used = false ∧ (x.state = .uninitialized ∨ x.state = .dead)
  | .runnable => x.used = true ∧ ((x.state = .new ∧ x.stateNext = .ready) ∨
      x.state = .ready ∨ x.state = .running ∨ x.state = .dead)
  | .suspended => x.used = true ∧ x.state = .suspended ∧
      (x.stateNext = .new ∨ x.stateNext = .ready)
  | .queued _ | .timed _ => x.used = true ∧ x.state = .waiting ∧ x.stateNext = .ready

namespace Worker

variable {F Q W : Type*}

/-- The fiber is in this place, and in no other. -/
structure At (s : Worker F Q W) (f : F) (p : Place Q W) : Prop where
  runnable : f ∈ s.runnableQueue ↔ p = .runnable
  suspended : f ∈ s.suspendedQueue ↔ p = .suspended
  queued : ∀ q, f ∈ s.queue q ↔ p = .queued q
  timed : ∀ w, (w ∈ s.waiting ∧ (s.waitable w).fiber = some f) ↔ p = .timed w

/-- The fiber is in a place that fits its state, by the given notion of that. -/
def PlacedBy (fits : Fiber → Place Q W → Prop) (s : Worker F Q W) (f : F) : Prop :=
  ∃ p, s.At f p ∧ (s.fiber (some f)).linked = p.linked ∧ fits (s.fiber (some f)) p

/-- The fiber is in a place that fits its state. -/
abbrev Placed (s : Worker F Q W) (f : F) : Prop := s.PlacedBy Fiber.Fits f

/-- No list has an element twice. -/
structure Nodups (s : Worker F Q W) : Prop where
  runnable : s.runnableQueue.Nodup
  suspended : s.suspendedQueue.Nodup
  queue : ∀ q, (s.queue q).Nodup
  waiting : s.waiting.Nodup

/-- All fibers are in a place that fits their state. -/
structure ConsistentBy (fits : Fiber → Place Q W → Prop) (s : Worker F Q W) : Prop where
  nodups : s.Nodups
  placed : ∀ f, s.PlacedBy fits f

abbrev Consistent (s : Worker F Q W) : Prop := s.ConsistentBy Fiber.Fits

/-- All fibers but `f` are in a place that fits their state, and `f` is nowhere. -/
structure DetachedBy (fits : Fiber → Place Q W → Prop) (f : F) (s : Worker F Q W) : Prop where
  nodups : s.Nodups
  placed : ∀ g, g ≠ f → s.PlacedBy fits g
  nowhere : s.At f .nowhere
  unlinked : (s.fiber (some f)).linked = false

abbrev Detached (f : F) (s : Worker F Q W) : Prop := s.DetachedBy Fiber.Fits f

variable {fits : Fiber → Place Q W → Prop}

/-- The lists of two states agree on a fiber. -/
structure SamePlace (s t : Worker F Q W) (f : F) : Prop where
  runnable : f ∈ t.runnableQueue ↔ f ∈ s.runnableQueue
  suspended : f ∈ t.suspendedQueue ↔ f ∈ s.suspendedQueue
  queued : ∀ q, f ∈ t.queue q ↔ f ∈ s.queue q
  timed : ∀ w, (w ∈ t.waiting ∧ (t.waitable w).fiber = some f) ↔
    (w ∈ s.waiting ∧ (s.waitable w).fiber = some f)

theorem SamePlace.at {s t : Worker F Q W} {f : F} {p : Place Q W} (h : SamePlace s t f)
    (hs : s.At f p) : t.At f p where
  runnable := h.runnable.trans hs.runnable
  suspended := h.suspended.trans hs.suspended
  queued q := (h.queued q).trans (hs.queued q)
  timed w := (h.timed w).trans (hs.timed w)

theorem SamePlace.placed {s t : Worker F Q W} {f : F} (h : SamePlace s t f)
    (hf : t.fiber (some f) = s.fiber (some f)) (hs : s.PlacedBy fits f) : t.PlacedBy fits f := by
  obtain ⟨p, hat, hlinked, hfits⟩ := hs
  rw [PlacedBy, hf]
  exact ⟨p, h.at hat, hlinked, hfits⟩

/-- What is known of a fiber in a certain place. -/
theorem ConsistentBy.of_at {s : Worker F Q W} (h : s.ConsistentBy fits) {f : F} {p : Place Q W}
    (hp : ∀ p', s.At f p' → p' = p) :
    s.At f p ∧ (s.fiber (some f)).linked = p.linked ∧ fits (s.fiber (some f)) p := by
  obtain ⟨p', hat, hlinked, hfits⟩ := h.placed f
  obtain rfl := hp p' hat
  exact ⟨hat, hlinked, hfits⟩

theorem ConsistentBy.of_mem_runnable {s : Worker F Q W} (h : s.ConsistentBy fits) {f : F}
    (hf : f ∈ s.runnableQueue) :
    s.At f .runnable ∧ (s.fiber (some f)).linked = true ∧
      fits (s.fiber (some f)) .runnable :=
  h.of_at fun _ hat => hat.runnable.1 hf

theorem ConsistentBy.of_mem_suspended {s : Worker F Q W} (h : s.ConsistentBy fits) {f : F}
    (hf : f ∈ s.suspendedQueue) :
    s.At f .suspended ∧ (s.fiber (some f)).linked = true ∧
      fits (s.fiber (some f)) .suspended :=
  h.of_at fun _ hat => hat.suspended.1 hf

theorem ConsistentBy.of_mem_queue {s : Worker F Q W} (h : s.ConsistentBy fits) {f : F} {q : Q}
    (hf : f ∈ s.queue q) :
    s.At f (.queued q) ∧ (s.fiber (some f)).linked = true ∧
      fits (s.fiber (some f)) (.queued q) :=
  h.of_at fun _ hat => (hat.queued q).1 hf

theorem ConsistentBy.of_mem_waiting {s : Worker F Q W} (h : s.ConsistentBy fits) {f : F} {w : W}
    (hw : w ∈ s.waiting) (hf : (s.waitable w).fiber = some f) :
    s.At f (.timed w) ∧ (s.fiber (some f)).linked = false ∧
      fits (s.fiber (some f)) (.timed w) :=
  h.of_at fun _ hat => (hat.timed w).1 ⟨hw, hf⟩

/-- The runnable queue has the fibers that can be run, and the dead ones that are to
be cleaned up. -/
theorem Consistent.mem_runnable_iff {s : Worker F Q W} (h : s.Consistent) (f : F) :
    f ∈ s.runnableQueue ↔ (s.fiber (some f)).state = .new ∨
      (s.fiber (some f)).state = .ready ∨ (s.fiber (some f)).state = .running ∨
      ((s.fiber (some f)).state = .dead ∧ (s.fiber (some f)).used = true) := by
  obtain ⟨p, hat, -, hfits⟩ := h.placed f
  rw [hat.runnable]
  cases p <;> simp only [Fiber.Fits] at hfits <;> simp <;> grind

theorem Consistent.mem_suspended_iff {s : Worker F Q W} (h : s.Consistent) (f : F) :
    f ∈ s.suspendedQueue ↔ (s.fiber (some f)).state = .suspended := by
  obtain ⟨p, hat, -, hfits⟩ := h.placed f
  rw [hat.suspended]
  cases p <;> simp only [Fiber.Fits] at hfits <;> simp <;> grind

theorem ConsistentBy.detach {s t : Worker F Q W} {f : F} (h : s.ConsistentBy fits) (hn : t.Nodups)
    (hsame : ∀ g, g ≠ f → SamePlace s t g)
    (hfiber : ∀ g, g ≠ f → t.fiber (some g) = s.fiber (some g))
    (hnowhere : t.At f .nowhere) (hlinked : (t.fiber (some f)).linked = false) :
    t.DetachedBy fits f :=
  ⟨hn, fun g hg => (hsame g hg).placed (hfiber g hg) (h.placed g), hnowhere, hlinked⟩

theorem DetachedBy.attach {s t : Worker F Q W} {f : F} (h : s.DetachedBy fits f) (hn : t.Nodups)
    (hsame : ∀ g, g ≠ f → SamePlace s t g)
    (hfiber : ∀ g, g ≠ f → t.fiber (some g) = s.fiber (some g)) (hf : t.PlacedBy fits f) :
    t.ConsistentBy fits := by
  refine ⟨hn, fun g => ?_⟩
  by_cases hg : g = f
  · subst hg
    exact hf
  · exact (hsame g hg).placed (hfiber g hg) (h.placed g hg)

/-- A fiber that is nowhere is where it belongs when it is dead and not used. -/
theorem DetachedBy.rest {s : Worker F Q W} {f : F} (h : s.DetachedBy fits f)
    (hfits : fits (s.fiber (some f)) .nowhere) : s.ConsistentBy fits :=
  h.attach h.nodups (fun _ _ => ⟨Iff.rfl, Iff.rfl, fun _ => Iff.rfl, fun _ => Iff.rfl⟩)
    (fun _ _ => rfl) ⟨.nowhere, h.nowhere, h.unlinked, hfits⟩

/-- The other fields do not matter. -/
theorem ConsistentBy.congr {s t : Worker F Q W} (h : s.ConsistentBy fits) (hf : t.fiber = s.fiber)
    (hr : t.runnableQueue = s.runnableQueue) (hs : t.suspendedQueue = s.suspendedQueue)
    (hq : t.queue = s.queue) (hw : t.waiting = s.waiting) (hv : t.waitable = s.waitable) :
    t.ConsistentBy fits := by
  have hn := h.nodups
  refine ⟨⟨hr ▸ hn.runnable, hs ▸ hn.suspended, hq ▸ hn.queue, hw ▸ hn.waiting⟩, fun f => ?_⟩
  have hsame : SamePlace s t f := by
    refine ⟨?_, ?_, fun q => ?_, fun w => ?_⟩
    · rw [hr]
    · rw [hs]
    · rw [hq]
    · rw [hw, hv]
  exact hsame.placed (by rw [hf]) (h.placed f)

section Moves

variable [DecidableEq F]

theorem setFiber_fiber (s : Worker F Q W) (r : Option F) (x : Fiber) :
    (s.setFiber r x).fiber = Function.update s.fiber r x := rfl

theorem setFiber_fiber_of_ne (s : Worker F Q W) {r r' : Option F} (x : Fiber)
    (h : r' ≠ r) : (s.setFiber r x).fiber r' = s.fiber r' := by
  rw [setFiber_fiber, Function.update_of_ne h]

theorem setFiber_fiber_self (s : Worker F Q W) (r : Option F) (x : Fiber) :
    (s.setFiber r x).fiber r = x := by
  rw [setFiber_fiber, Function.update_self]

theorem setFiber_setFiber (s : Worker F Q W) (r : Option F) (x y : Fiber) :
    (s.setFiber r x).setFiber r y = s.setFiber r y := by
  simp only [setFiber, Function.update_idem]

theorem setLinked_fiber_of_ne (s : Worker F Q W) {f : F} {r : Option F} (linked : Bool)
    (h : r ≠ some f) : (s.setLinked f linked).fiber r = s.fiber r :=
  setFiber_fiber_of_ne s _ h

theorem setLinked_fiber_self (s : Worker F Q W) (f : F) (linked : Bool) :
    (s.setLinked f linked).fiber (some f) =
      { s.fiber (some f) with linked := linked } :=
  setFiber_fiber_self s _ _

/-- A change of the state of a fiber that fits its place. -/
theorem ConsistentBy.setFiber {s : Worker F Q W} (h : s.ConsistentBy fits) {r : Option F}
    {x : Fiber} (hlinked : x.linked = (s.fiber r).linked)
    (hfits : ∀ p, fits (s.fiber r) p → fits x p) :
    (s.setFiber r x).ConsistentBy fits := by
  refine ⟨⟨h.nodups.1, h.nodups.2, h.nodups.3, h.nodups.4⟩, fun g => ?_⟩
  obtain ⟨p, hat, hl, hf⟩ := h.placed g
  refine ⟨p, ⟨hat.1, hat.2, hat.3, hat.4⟩, ?_⟩
  by_cases hg : some g = r
  · subst hg
    rw [setFiber_fiber_self]
    exact ⟨hlinked.trans hl, hfits p hf⟩
  · rw [setFiber_fiber_of_ne s x hg]
    exact ⟨hl, hf⟩

/-- A fiber that is nowhere may change in any way that leaves its links alone. -/
theorem DetachedBy.setFiber {s : Worker F Q W} {f : F} (h : s.DetachedBy fits f) {x : Fiber}
    (hx : x.linked = false) : (s.setFiber (some f) x).DetachedBy fits f := by
  refine ⟨⟨h.nodups.1, h.nodups.2, h.nodups.3, h.nodups.4⟩, fun g hg => ?_,
    ⟨h.nowhere.1, h.nowhere.2, h.nowhere.3, h.nowhere.4⟩, ?_⟩
  · have hsame : SamePlace s (s.setFiber (some f) x) g :=
      ⟨Iff.rfl, Iff.rfl, fun _ => Iff.rfl, fun _ => Iff.rfl⟩
    exact hsame.placed (setFiber_fiber_of_ne s x (by simpa using hg)) (h.placed g hg)
  · rw [setFiber_fiber_self]
    exact hx

/-- A fiber leaves the runnable queue. -/
theorem ConsistentBy.detach_runnable {s : Worker F Q W} (h : s.ConsistentBy fits) {f : F}
    (hf : f ∈ s.runnableQueue) :
    (setLinked f false { s with runnableQueue := s.runnableQueue.erase f }).DetachedBy fits f := by
  obtain ⟨hat, -, -⟩ := h.of_mem_runnable hf
  have hn := h.nodups
  refine h.detach ⟨hn.runnable.erase f, hn.suspended, hn.queue, hn.waiting⟩ ?_ ?_ ?_ ?_
  · intro g hg
    exact ⟨List.mem_erase_of_ne hg, Iff.rfl, fun _ => Iff.rfl, fun _ => Iff.rfl⟩
  · intro g hg
    exact setLinked_fiber_of_ne _ false (by simpa using hg)
  · refine ⟨iff_of_false hn.runnable.not_mem_erase (by simp), ?_, fun q => ?_, fun w => ?_⟩
    · exact hat.suspended.trans (by simp)
    · exact (hat.queued q).trans (by simp)
    · exact (hat.timed w).trans (by simp)
  · rw [setLinked_fiber_self]

/-- A fiber leaves the suspended queue. -/
theorem ConsistentBy.detach_suspended {s : Worker F Q W} (h : s.ConsistentBy fits) {f : F}
    (hf : f ∈ s.suspendedQueue) :
    (setLinked f false
      { s with suspendedQueue := s.suspendedQueue.erase f }).DetachedBy fits f := by
  obtain ⟨hat, -, -⟩ := h.of_mem_suspended hf
  have hn := h.nodups
  refine h.detach ⟨hn.runnable, hn.suspended.erase f, hn.queue, hn.waiting⟩ ?_ ?_ ?_ ?_
  · intro g hg
    exact ⟨Iff.rfl, List.mem_erase_of_ne hg, fun _ => Iff.rfl, fun _ => Iff.rfl⟩
  · intro g hg
    exact setLinked_fiber_of_ne _ false (by simpa using hg)
  · refine ⟨?_, iff_of_false hn.suspended.not_mem_erase (by simp), fun q => ?_, fun w => ?_⟩
    · exact hat.runnable.trans (by simp)
    · exact (hat.queued q).trans (by simp)
    · exact (hat.timed w).trans (by simp)
  · rw [setLinked_fiber_self]

/-- A fiber leaves a queue of a synchronizer. -/
theorem ConsistentBy.detach_queue [DecidableEq Q] {s : Worker F Q W} (h : s.ConsistentBy fits)
    {f : F} {q : Q} (hf : f ∈ s.queue q) :
    (setLinked f false (s.setQueue q ((s.queue q).erase f))).DetachedBy fits f := by
  obtain ⟨hat, -, -⟩ := h.of_mem_queue hf
  have hn := h.nodups
  have hqueue : ∀ q', (s.setQueue q ((s.queue q).erase f)).queue q' =
      if q' = q then (s.queue q).erase f else s.queue q' := by
    intro q'
    rw [← Function.update_apply]
    rfl
  refine h.detach ⟨hn.runnable, hn.suspended, fun q' => ?_, hn.waiting⟩ ?_ ?_ ?_ ?_
  · change ((s.setQueue q ((s.queue q).erase f)).queue q').Nodup
    rw [hqueue]
    split
    · exact (hn.queue q).erase f
    · exact hn.queue q'
  · intro g hg
    refine ⟨Iff.rfl, Iff.rfl, fun q' => ?_, fun _ => Iff.rfl⟩
    change g ∈ (s.setQueue q ((s.queue q).erase f)).queue q' ↔ _
    rw [hqueue]
    split
    · rename_i hq
      rw [hq, List.mem_erase_of_ne hg]
    · rfl
  · intro g hg
    exact setLinked_fiber_of_ne _ false (by simpa using hg)
  · refine ⟨?_, ?_, fun q' => ?_, fun w => ?_⟩
    · exact hat.runnable.trans (by simp)
    · exact hat.suspended.trans (by simp)
    · change f ∈ (s.setQueue q ((s.queue q).erase f)).queue q' ↔ _
      rw [hqueue]
      refine iff_of_false ?_ (by simp)
      split
      · exact (hn.queue q).not_mem_erase
      · rename_i hq
        rw [hat.queued q']
        simpa using Ne.symm hq
    · exact (hat.timed w).trans (by simp)
  · rw [setLinked_fiber_self]

omit [DecidableEq F] in
/-- The waitable of a fiber leaves the waiting list. -/
theorem ConsistentBy.detach_waiting [LinearOrder W] {s : Worker F Q W} (h : s.ConsistentBy fits)
    {f : F} {w : W} (hw : w ∈ s.waiting) (hf : (s.waitable w).fiber = some f) :
    (s.eraseWaiting w).DetachedBy fits f := by
  obtain ⟨hat, hlinked, -⟩ := h.of_mem_waiting hw hf
  have hn := h.nodups
  refine h.detach ⟨hn.runnable, hn.suspended, hn.queue, hn.waiting.erase w⟩ ?_
    (fun _ _ => rfl) ?_ hlinked
  · intro g hg
    refine ⟨Iff.rfl, Iff.rfl, fun _ => Iff.rfl, fun v => ?_⟩
    by_cases hvw : v = w
    · subst hvw
      have hne : ¬ (s.waitable v).fiber = some g := by
        rw [hf]
        simpa using Ne.symm hg
      exact iff_of_false (fun h => hne h.2) fun h => hne h.2
    · exact and_congr_left fun _ => List.mem_erase_of_ne hvw
  · refine ⟨?_, ?_, fun q => ?_, fun v => iff_of_false ?_ (by simp)⟩
    · exact hat.runnable.trans (by simp)
    · exact hat.suspended.trans (by simp)
    · exact (hat.queued q).trans (by simp)
    · rintro ⟨hv, hvf⟩
      obtain rfl : w = v := by
        simpa using (hat.timed v).1 ⟨List.mem_of_mem_erase hv, hvf⟩
      exact hn.waiting.not_mem_erase hv

/-- The fiber joins the runnable queue, in whatever place. -/
theorem DetachedBy.attach_runnable {s : Worker F Q W} {f : F} (h : s.DetachedBy fits f)
    (hfits : fits { s.fiber (some f) with linked := true } .runnable) {l : List F}
    (hl : l.Perm (f :: s.runnableQueue)) :
    (setLinked f true { s with runnableQueue := l }).ConsistentBy fits := by
  have hn := h.nodups
  have hnot : f ∉ s.runnableQueue := fun hf => by simpa using h.nowhere.runnable.1 hf
  refine h.attach ⟨hl.nodup_iff.2 (List.nodup_cons.2 ⟨hnot, hn.runnable⟩), hn.suspended,
    hn.queue, hn.waiting⟩ ?_ ?_ ⟨.runnable, ⟨?_, ?_, fun q => ?_, fun w => ?_⟩, ?_, ?_⟩
  · intro g hg
    refine ⟨?_, Iff.rfl, fun _ => Iff.rfl, fun _ => Iff.rfl⟩
    exact hl.mem_iff.trans (by simp [hg])
  · intro g hg
    exact setLinked_fiber_of_ne _ true (by simpa using hg)
  · exact iff_of_true (hl.mem_iff.2 List.mem_cons_self) rfl
  · exact h.nowhere.suspended.trans (by simp)
  · exact (h.nowhere.queued q).trans (by simp)
  · exact (h.nowhere.timed w).trans (by simp)
  · rw [setLinked_fiber_self]
    rfl
  · rw [setLinked_fiber_self]
    exact hfits

/-- The fiber joins the suspended queue. -/
theorem DetachedBy.attach_suspended {s : Worker F Q W} {f : F} (h : s.DetachedBy fits f)
    (hfits : fits { s.fiber (some f) with linked := true } .suspended) :
    (setLinked f true { s with suspendedQueue := s.suspendedQueue ++ [f] }).ConsistentBy fits := by
  have hn := h.nodups
  have hnot : f ∉ s.suspendedQueue := fun hf => by simpa using h.nowhere.suspended.1 hf
  refine h.attach ⟨hn.runnable, List.nodup_append.2 ⟨hn.suspended, List.nodup_singleton f, ?_⟩,
    hn.queue, hn.waiting⟩ ?_ ?_ ⟨.suspended, ⟨?_, ?_, fun q => ?_, fun w => ?_⟩, ?_, ?_⟩
  · rintro g hg g' hg' rfl
    exact hnot (List.mem_singleton.1 hg' ▸ hg)
  · intro g hg
    refine ⟨Iff.rfl, ?_, fun _ => Iff.rfl, fun _ => Iff.rfl⟩
    exact List.mem_append.trans (by simp [hg])
  · intro g hg
    exact setLinked_fiber_of_ne _ true (by simpa using hg)
  · exact h.nowhere.runnable.trans (by simp)
  · exact iff_of_true (List.mem_append_right _ (List.mem_singleton_self f)) rfl
  · exact (h.nowhere.queued q).trans (by simp)
  · exact (h.nowhere.timed w).trans (by simp)
  · rw [setLinked_fiber_self]
    rfl
  · rw [setLinked_fiber_self]
    exact hfits

/-- The fiber joins a queue of a synchronizer, and waits there. -/
theorem DetachedBy.attach_queue [DecidableEq Q] {s : Worker F Q W} {f : F}
    (h : s.DetachedBy fits f) {q : Q} {x : Fiber} (hlinked : x.linked = true)
    (hfits : fits x (.queued q)) :
    ((s.setQueue q (s.queue q ++ [f])).setFiber (some f) x).ConsistentBy fits := by
  have hn := h.nodups
  have hnot : f ∉ s.queue q := fun hf => by simpa using (h.nowhere.queued q).1 hf
  have hmem : ∀ q' g, g ∈ (s.setQueue q (s.queue q ++ [f])).queue q' ↔
      g ∈ s.queue q' ∨ (q' = q ∧ g = f) := by
    intro q' g
    by_cases hq : q' = q
    · subst hq
      simp [setQueue]
    · simp [setQueue, hq]
  refine h.attach ⟨hn.runnable, hn.suspended, fun q' => ?_, hn.waiting⟩ ?_ ?_
    ⟨.queued q, ⟨?_, ?_, fun q' => ?_, fun w => ?_⟩, ?_, ?_⟩
  · change ((s.setQueue q (s.queue q ++ [f])).queue q').Nodup
    by_cases hq : q' = q
    · subst hq
      simp only [setQueue, Function.update_self]
      refine List.nodup_append.2 ⟨hn.queue q', List.nodup_singleton f, ?_⟩
      rintro g hg g' hg' rfl
      exact hnot (List.mem_singleton.1 hg' ▸ hg)
    · simpa [setQueue, Function.update_of_ne hq] using hn.queue q'
  · intro g hg
    refine ⟨Iff.rfl, Iff.rfl, fun q' => ?_, fun _ => Iff.rfl⟩
    exact (hmem q' g).trans (by simp [hg])
  · intro g hg
    exact setFiber_fiber_of_ne _ x (by simpa using hg)
  · exact h.nowhere.runnable.trans (by simp)
  · exact h.nowhere.suspended.trans (by simp)
  · refine (hmem q' f).trans ?_
    rw [h.nowhere.queued q']
    simp [eq_comm]
  · exact (h.nowhere.timed w).trans (by simp)
  · rw [setFiber_fiber_self]
    exact hlinked
  · rw [setFiber_fiber_self]
    exact hfits

omit [DecidableEq F] in
/-- The fiber waits for a waitable. -/
theorem DetachedBy.attach_waiting {s : Worker F Q W} {f : F} (h : s.DetachedBy fits f) {w : W}
    (hw : w ∉ s.waiting) (hf : (s.waitable w).fiber = some f)
    (hfits : fits (s.fiber (some f)) (.timed w)) {l : List W}
    (hl : l.Perm (w :: s.waiting)) : { s with waiting := l }.ConsistentBy fits := by
  have hn := h.nodups
  refine h.attach ⟨hn.runnable, hn.suspended, hn.queue,
    hl.nodup_iff.2 (List.nodup_cons.2 ⟨hw, hn.waiting⟩)⟩ ?_ (fun _ _ => rfl)
    ⟨.timed w, ⟨?_, ?_, fun q => ?_, fun v => ?_⟩, h.unlinked, hfits⟩
  · intro g hg
    refine ⟨Iff.rfl, Iff.rfl, fun _ => Iff.rfl, fun v => and_congr_left fun hv => ?_⟩
    have hvw : v ≠ w := by
      rintro rfl
      rw [hf] at hv
      exact hg (Option.some.inj hv).symm
    exact hl.mem_iff.trans (by simp [hvw])
  · exact h.nowhere.runnable.trans (by simp)
  · exact h.nowhere.suspended.trans (by simp)
  · exact (h.nowhere.queued q).trans (by simp)
  · constructor
    · rintro ⟨hv, hvf⟩
      rcases List.mem_cons.1 (hl.mem_iff.1 hv) with rfl | hv
      · rfl
      · simpa using (h.nowhere.timed v).1 ⟨hv, hvf⟩
    · intro hv
      obtain rfl : w = v := by simpa using hv
      exact ⟨hl.mem_iff.2 List.mem_cons_self, hf⟩

omit [DecidableEq F] in
/-- Waitables without a fiber come and go without moving anyone. -/
theorem ConsistentBy.setWaiting {s : Worker F Q W} (h : s.ConsistentBy fits) {l : List W}
    (hl : l.Nodup)
    (hmem : ∀ w f, (s.waitable w).fiber = some f → (w ∈ l ↔ w ∈ s.waiting)) :
    { s with waiting := l }.ConsistentBy fits := by
  have hn := h.nodups
  refine ⟨⟨hn.runnable, hn.suspended, hn.queue, hl⟩, fun g => ?_⟩
  obtain ⟨p, hat, hlinked, hfits⟩ := h.placed g
  refine ⟨p, ⟨hat.runnable, hat.suspended, hat.queued, fun w => ?_⟩, hlinked, hfits⟩
  exact (and_congr_left fun hw => hmem w g hw).trans (hat.timed w)

omit [DecidableEq F] in
/-- Waitables that are not in the list may change. -/
theorem ConsistentBy.setWaitable [LinearOrder W] {s : Worker F Q W} (h : s.ConsistentBy fits)
    {w : W} {v : Waitable F Q} (hv : w ∈ s.waiting → v.fiber = (s.waitable w).fiber) :
    (s.setWaitable w v).ConsistentBy fits := by
  have hn := h.nodups
  refine ⟨⟨hn.runnable, hn.suspended, hn.queue, hn.waiting⟩, fun g => ?_⟩
  obtain ⟨p, hat, hlinked, hfits⟩ := h.placed g
  refine ⟨p, ⟨hat.runnable, hat.suspended, hat.queued, fun u => ?_⟩, hlinked, hfits⟩
  refine Iff.trans (and_congr_right fun hu => ?_) (hat.timed u)
  by_cases huw : u = w
  · subst huw
    have hu : u ∈ s.waiting := hu
    simp [Worker.setWaitable, hv hu]
  · simp [Worker.setWaitable, huw]

end Moves

end Worker

end Zth
