import Zth.Worker.Footprint

/-!
# The waiting list is in order

The waiter looks at the first waitable only, so what it does depends on the order of
its list: by timeout, and every waitable at most once. A waitable changes its timeout
only while it is not in the list. Besides, no operation makes the waiter go to sleep;
only the waiter itself does.
-/

namespace Zth

namespace Worker

variable {F Q W : Type*} [LinearOrder W] {s : Worker F Q W}


theorem waitsBefore_total (s : Worker F Q W) (w v : W) :
    s.WaitsBefore w v ∨ s.WaitsBefore v w := by
  rcases lt_trichotomy (s.waitable w).timeout (s.waitable v).timeout with h | h | h
  · exact Or.inl (Or.inl h)
  · rcases le_total w v with hwv | hwv
    · exact Or.inl (Or.inr ⟨h, hwv⟩)
    · exact Or.inr (Or.inr ⟨h.symm, hwv⟩)
  · exact Or.inr (Or.inl h)

theorem WaitsBefore.trans {w v u : W} (h : s.WaitsBefore w v) (h' : s.WaitsBefore v u) :
    s.WaitsBefore w u := by
  rcases h with h | ⟨h, hwv⟩
  · rcases h' with h' | ⟨h', -⟩
    · exact Or.inl (h.trans h')
    · exact Or.inl (h' ▸ h)
  · rcases h' with h' | ⟨h', hvu⟩
    · exact Or.inl (h ▸ h')
    · exact Or.inr ⟨h.trans h', hwv.trans hvu⟩

instance (s : Worker F Q W) : Std.Total s.WaitsBefore := ⟨s.waitsBefore_total⟩

instance (s : Worker F Q W) : IsTrans W s.WaitsBefore := ⟨fun _ _ _ => WaitsBefore.trans⟩

/-- The first waitable has the earliest timeout. -/
theorem WaitsBefore.timeout_le {w v : W} (h : s.WaitsBefore w v) :
    (s.waitable w).timeout ≤ (s.waitable v).timeout := by
  rcases h with h | h
  · exact h.le
  · exact h.1.le

/-- The waiting list is sorted and has no waitable twice. -/
structure InOrder (s : Worker F Q W) : Prop where
  nodup : s.waiting.Nodup
  sorted : s.waiting.Pairwise s.WaitsBefore

/-- The list is still in order, and no waiter went to sleep. -/
structure Calm (s t : Worker F Q W) : Prop where
  order : t.InOrder
  frame : ∀ f, t.frame f = .sleep true → s.frame f = .sleep true

theorem Calm.refl (h : s.InOrder) : Calm s s := ⟨h, fun _ hf => hf⟩

theorem Calm.after {t u : Worker F Q W} (h : Calm t u) (hst : Calm s t) : Calm s u :=
  ⟨h.order, fun f hf => hst.frame f (h.frame f hf)⟩

theorem Calm.of_fibersOnly {t : Worker F Q W} (hst : FibersOnly s t) (h : s.InOrder) :
    Calm s t := by
  rw [hst]
  exact ⟨⟨h.nodup, h.sorted⟩, fun _ hf => hf⟩

theorem InOrder.insertWaiting (h : s.InOrder) (w : W) :
    (insertWaiting w s).Sat (fun _ => True) (Calm s) := by
  rw [Worker.insertWaiting]
  split
  · trivial
  · rename_i hw
    refine ⟨⟨?_, ?_⟩, fun _ hf => hf⟩
    · apply (List.perm_orderedInsert _ w _).nodup_iff.2
      exact List.nodup_cons.2 ⟨hw, h.nodup⟩
    · exact h.sorted.orderedInsert w _

theorem InOrder.eraseWaiting (h : s.InOrder) (w : W) : Calm s (s.eraseWaiting w) :=
  ⟨⟨h.nodup.erase w, h.sorted.sublist List.erase_sublist⟩, fun _ hf => hf⟩

theorem InOrder.not_mem_eraseWaiting (h : s.InOrder) (w : W) :
    w ∉ (s.eraseWaiting w).waiting :=
  h.nodup.not_mem_erase

/-- A waitable changes, but not its timeout while it is in the list. -/
theorem InOrder.setWaitable (h : s.InOrder) {w : W} {v : Waitable F Q}
    (hw : w ∈ s.waiting → v.timeout = (s.waitable w).timeout) :
    Calm s (s.setWaitable w v) := by
  have htimeout : ∀ u ∈ s.waiting,
      ((s.setWaitable w v).waitable u).timeout = (s.waitable u).timeout := by
    intro u hu
    by_cases huw : u = w
    · subst huw
      rw [← hw hu]
      exact congrArg Waitable.timeout (Function.update_self _ _ _)
    · exact congrArg Waitable.timeout (Function.update_of_ne huw _ _)
  refine ⟨⟨h.nodup, h.sorted.imp_of_mem fun {a b} ha hb hab => ?_⟩, fun _ hf => hf⟩
  rw [WaitsBefore, htimeout a ha, htimeout b hb]
  exact hab

section Operations

variable [DecidableEq F]

/-- A fiber goes on elsewhere, but not in its sleep. -/
theorem InOrder.setFrame (h : s.InOrder) (f : F) {frame : Frame W}
    (hframe : frame ≠ .sleep true) : Calm s (s.setFrame f frame) := by
  refine ⟨⟨h.nodup, h.sorted⟩, fun g hg => ?_⟩
  by_cases hgf : g = f
  · subst hgf
    simp only [Worker.setFrame, Function.update_self] at hg
    exact absurd hg hframe
  · simpa only [Worker.setFrame, Function.update_of_ne hgf] using hg

theorem InOrder.scheduleTask (h : s.InOrder) (waiter : F) (w : W) :
    (scheduleTask waiter w s).Sat (fun _ => True) (Calm s) := by
  refine (h.insertWaiting w).bind fun t ht => ?_
  exact (keepsRest_resume waiter t).mono fun u hu => (Calm.of_fibersOnly hu ht.order).after ht

theorem InOrder.schedule (h : s.InOrder) (created : Contexts F)
    (prefer : Option (Option F)) (now : ℕ) :
    (schedule created prefer now s).Sat (fun _ => True) fun x => Calm s x.1 :=
  (rescheduled_schedule created prefer now s).mono fun _ hx =>
    Calm.of_fibersOnly hx.fibersOnly h

theorem InOrder.enterWaiting (h : s.InOrder) (waiter : F) (w : W) (f : F) :
    (enterWaiting waiter w f s).Sat (fun _ => True) (Calm s) := by
  have hset := h.setWaitable (w := w) (v := { s.waitable w with fiber := some f }) fun _ => rfl
  refine Except.Sat.bind (keepsRest_release f _) fun t ht => ?_
  have ht := (Calm.of_fibersOnly (ht.after rfl) hset.order).after hset
  exact (ht.order.scheduleTask waiter w).mono fun u hu => hu.after ht

/-- `Waiter::wakeup` of a waitable. -/
theorem InOrder.wakeup (h : s.InOrder) (w : W) :
    (wakeup w s).Sat (fun _ => True) (Calm s) := by
  have herase := h.eraseWaiting w
  rw [Worker.wakeup]
  split
  · dsimp only
    split
    · exact herase
    · rename_i f _
      refine Except.Sat.map (keepsRest_add_setFiber f true _ _) fun t ht => ?_
      have ht := (Calm.of_fibersOnly ht herase.order).after herase
      refine Calm.after ?_ ht
      exact ht.order.setWaitable fun _ => rfl
  · exact Calm.refl h

variable [DecidableEq Q]

/-- A waitable that is not in the list is polled. -/
theorem InOrder.poll (h : s.InOrder) {w : W} (hw : w ∉ s.waiting) (fired : Bool)
    (now : ℕ) : (poll w fired now s).Sat (fun _ => True) fun x => Calm s x.1 := by
  rw [Worker.poll]
  cases (s.waitable w).kind with
  | timed => exact Calm.refl h
  | polled interval =>
      dsimp only
      split
      · exact Calm.refl h
      · exact h.setWaitable fun hw' => absurd hw' hw
  | alarm q f =>
      dsimp only
      split
      · refine (keepsRest_unblock q f false s).map fun x hx => ?_
        have hx := Calm.of_fibersOnly hx h
        refine Calm.after ?_ hx
        exact hx.order.setWaitable fun _ => rfl
      · exact Calm.refl h

/-- `Waiter::wait`. -/
theorem InOrder.wait (h : s.InOrder) (created : Contexts F) (waiter : F) {w : W}
    (hw : w ∉ s.waiting) (fired slice : Bool) (f : F) (now now' : ℕ) :
    (wait created waiter w fired slice f now now' s).Sat (fun _ => True) fun x =>
      Calm s x.1 := by
  rw [Worker.wait]
  split
  · exact Calm.refl h
  refine (h.poll hw fired now).bind ?_
  rintro ⟨t, done⟩ ht
  cases done with
  | true =>
      dsimp only
      split
      · exact (ht.order.schedule created none now).mono fun x hx => hx.after ht
      · exact ht
  | false =>
      refine (ht.order.enterWaiting waiter w f).bind fun u hu => ?_
      exact (hu.order.schedule created none now').mono fun x hx => hx.after (hu.after ht)

/-- A block with timeout, up to and including its `schedule`. -/
theorem InOrder.blockUntil (h : s.InOrder) (created : Contexts F) (waiter : F) (q : Q)
    {w : W} (hw : w ∉ s.waiting) (timeout : ℕ) (f : F) (now : ℕ) :
    (blockUntil created waiter q w timeout f now s).Sat (fun _ => True) fun x =>
      Calm s x.1 := by
  refine Except.Sat.bind (keepsRest_enterQueue q f s) fun t ht => ?_
  have hwt : w ∉ t.waiting := by
    rw [ht]
    exact hw
  have ht := Calm.of_fibersOnly ht h
  have hset := ht.order.setWaitable (w := w) (v := ⟨timeout, none, .alarm q f, false⟩)
    fun hw' => absurd hw' hwt
  have hframe : Calm _ ((t.setWaitable w ⟨timeout, none, .alarm q f, false⟩).setFrame f
      (.alarm w)) := hset.order.setFrame f (by simp)
  have hframe := (hframe.after hset).after ht
  have hbegin : Calm s
      { (t.setWaitable w ⟨timeout, none, .alarm q f, false⟩).setFrame f (.alarm w) with
        owner := Function.update t.owner w (some f) } :=
    ⟨⟨hframe.order.nodup, hframe.order.sorted⟩, hframe.frame⟩
  refine (hbegin.order.scheduleTask waiter w).bind fun u hu => ?_
  exact (hu.order.schedule created none now).mono fun x hx => hx.after (hu.after hbegin)

omit [DecidableEq Q] in
/-- The rest of a block with timeout. -/
theorem InOrder.leaveAlarm (h : s.InOrder) (w : W) (f : F) : Calm s (leaveAlarm w f s) := by
  have hun : Calm s (unscheduleTask w s) := by
    rw [unscheduleTask]
    split
    · exact h.eraseWaiting w
    · exact Calm.refl h
  have hframe : Calm _ ((unscheduleTask w s).setFrame f .user) :=
    hun.order.setFrame f (by simp)
  have hframe := hframe.after hun
  exact ⟨⟨hframe.order.nodup, hframe.order.sorted⟩, hframe.frame⟩

/-- One round of the inner loop of the waiter. -/
theorem InOrder.expire (h : s.InOrder) (w : W) (fired : Bool) (now : ℕ) :
    (expire w fired now s).Sat (fun _ => True) (Calm s) := by
  have herase := h.eraseWaiting w
  refine (herase.order.poll (h.not_mem_eraseWaiting w) fired now).bind ?_
  rintro ⟨t, done⟩ ht
  have ht := Calm.after ht herase
  cases done with
  | true =>
      dsimp only
      split
      · exact ht
      · rename_i f _
        exact (keepsRest_add_setFiber f true _ t).mono fun u hu =>
          (Calm.of_fibersOnly hu ht.order).after ht
  | false => exact (ht.order.insertWaiting w).mono fun u hu => hu.after ht

end Operations

end Worker

end Zth
