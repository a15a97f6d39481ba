import Mathlib.Data.List.Nodup
import Zth.Library.Run

/-!
# Lists that are picked from in turn

What is picked from a list is its first element, which goes to the end of it. In
between, elements may be added at both ends and be removed. Seen from one element
`a` that stays in the list, everybody in front of it is picked before `a` is, and
goes behind it in the order of the picks. So, between two picks of `a`, the others
that stay are picked once each, and always in the same order.
-/

namespace Rotation

variable {α : Type*} [DecidableEq α]

/-- What may happen to the list. -/
inductive Event (α : Type*) where
  | pick
  | addFront (x : α)
  | addBack (x : α)
  | remove (x : α)
deriving DecidableEq

/-- The list after an event. Nothing is added twice, and only what is there is removed. -/
def step (l : List α) : Event α → Option (List α)
  | .pick => some (l.tail ++ l.head?.toList)
  | .addFront x => if x ∈ l then none else some (x :: l)
  | .addBack x => if x ∈ l then none else some (l ++ [x])
  | .remove x => if x ∈ l then some (l.erase x) else none

/-- What is picked. -/
def picked (l : List α) : Event α → List α
  | .pick => l.head?.toList
  | .addFront _ | .addBack _ | .remove _ => []

/-- Everything that is picked in a run, in order. -/
def picks : List α → List (Event α) → List α
  | _, [] => []
  | l, e :: es =>
      match step l e with
      | none => []
      | some l' => picked l e ++ picks l' es

theorem picks_cons {l l' : List α} {e : Event α} (h : step l e = some l')
    (es : List (Event α)) : picks l (e :: es) = picked l e ++ picks l' es := by
  rw [picks, h]

/-- The list, seen from the element `a` that was picked before `p` was. Those of `stays` that
were picked since are behind `a`, those that were not are in front of it, and all together
they are `order`. -/
def Seen (stays : α → Bool) (a : α) (order : List α) (l p : List α) : Prop :=
  ∃ x y, l = x ++ a :: y ∧ p.filter stays ++ x.filter stays = order ∧
    y.filter stays = p.filter stays

variable {stays : α → Bool} {a : α} {order l l' p : List α}

omit [DecidableEq α] in
/-- Right after `a` is picked. -/
theorem seen_pick (hl : l.filter stays = order) : Seen stays a order (l ++ [a]) [] :=
  ⟨l, [], rfl, hl, rfl⟩

/-- Elements that do not stay may come and go. -/
theorem filter_erase {x : α} (hx : stays x = false) (l : List α) :
    (l.erase x).filter stays = l.filter stays := by
  induction l with
  | nil => rfl
  | cons y l ih =>
      by_cases hy : y = x
      · subst hy
        rw [List.erase_cons_head, List.filter_cons_of_neg (by simp [hx])]
      · rw [List.erase_cons_tail (by simpa using hy), List.filter_cons, List.filter_cons, ih]

/-- An event in which `a` is not picked. -/
theorem Seen.step (h : Seen stays a order l p) {e : Event α} (he : Rotation.step l e = some l')
    (hstays : ∀ x, stays x = true → x ∈ l ∧ e ≠ .remove x) (ha : e ≠ .remove a)
    (hpick : a ∉ picked l e) : Seen stays a order l' (p ++ picked l e) := by
  obtain ⟨x, y, rfl, hp, hy⟩ := h
  cases e with
  | pick =>
      cases x with
      | nil => exact absurd (List.mem_singleton_self a) hpick
      | cons z x =>
          cases he
          refine ⟨x, y ++ [z], by simp, ?_, ?_⟩
          · rw [← hp, List.filter_append, List.append_assoc, ← List.filter_append]
            rfl
          · rw [List.filter_append, hy, ← List.filter_append]
            rfl
  | addFront z =>
      obtain ⟨hz, ⟨⟩⟩ := Option.ite_none_left_eq_some.1 he
      have hnot : stays z = false := by
        rw [← Bool.not_eq_true]
        exact fun hz' => hz (hstays z hz').1
      refine ⟨z :: x, y, rfl, ?_, ?_⟩
      · rw [List.filter_cons_of_neg (by simp [hnot]), picked, List.append_nil]
        exact hp
      · rw [picked, List.append_nil]
        exact hy
  | addBack z =>
      obtain ⟨hz, ⟨⟩⟩ := Option.ite_none_left_eq_some.1 he
      have hnot : stays z = false := by
        rw [← Bool.not_eq_true]
        exact fun hz' => hz (hstays z hz').1
      refine ⟨x, y ++ [z], by simp, ?_, ?_⟩
      · rw [picked, List.append_nil]
        exact hp
      · rw [List.filter_append, List.filter_singleton, hnot, picked, List.append_nil]
        simpa using hy
  | remove z =>
      obtain ⟨hz, ⟨⟩⟩ := Option.ite_none_right_eq_some.1 he
      have hnot : stays z = false := by
        rw [← Bool.not_eq_true]
        exact fun hz' => (hstays z hz').2 rfl
      have hza : a ≠ z := fun h => ha (by rw [h])
      rw [picked, List.append_nil]
      by_cases hzx : z ∈ x
      · exact ⟨x.erase z, y, List.erase_append_left _ hzx, by rwa [filter_erase hnot], hy⟩
      · refine ⟨x, y.erase z, ?_, hp, by rwa [filter_erase hnot]⟩
        rw [List.erase_append_right _ hzx, List.erase_cons_tail (by simpa using hza)]

omit [DecidableEq α] in
/-- When `a` comes to the front, all that stay were picked, and a new round starts with the
same order. -/
theorem Seen.front (h : Seen stays a order l p) (hl : l.Nodup) (ha : l.head? = some a) :
    p.filter stays = order ∧ ∃ y, l = a :: y ∧ y.filter stays = order := by
  obtain ⟨x, y, rfl, hp, hy⟩ := h
  cases x with
  | nil =>
      rw [List.filter_nil, List.append_nil] at hp
      exact ⟨hp, y, rfl, hy.trans hp⟩
  | cons z x =>
      obtain rfl : z = a := Option.some.inj ha
      exact absurd hl (by simp)

theorem nodup_step (hl : l.Nodup) {e : Event α} (he : step l e = some l') : l'.Nodup := by
  cases e with
  | pick =>
      cases he
      cases l with
      | nil => exact List.nodup_nil
      | cons x l => exact (List.perm_append_singleton x l).nodup_iff.2 hl
  | addFront x =>
      obtain ⟨hx, ⟨⟩⟩ := Option.ite_none_left_eq_some.1 he
      exact List.nodup_cons.2 ⟨hx, hl⟩
  | addBack x =>
      obtain ⟨hx, ⟨⟩⟩ := Option.ite_none_left_eq_some.1 he
      exact (List.perm_append_singleton x l).nodup_iff.2 (List.nodup_cons.2 ⟨hx, hl⟩)
  | remove x =>
      obtain ⟨-, ⟨⟩⟩ := Option.ite_none_right_eq_some.1 he
      exact hl.erase x

/-- What is not removed is still there. -/
theorem mem_step {x : α} (hx : x ∈ l) {e : Event α} (he : step l e = some l')
    (hne : e ≠ .remove x) : x ∈ l' := by
  cases e with
  | pick =>
      cases he
      cases l with
      | nil => exact hx
      | cons y l => exact (List.perm_append_singleton y l).mem_iff.2 hx
  | addFront y =>
      obtain ⟨-, ⟨⟩⟩ := Option.ite_none_left_eq_some.1 he
      exact List.mem_cons_of_mem y hx
  | addBack y =>
      obtain ⟨-, ⟨⟩⟩ := Option.ite_none_left_eq_some.1 he
      exact List.mem_append_left [y] hx
  | remove y =>
      obtain ⟨-, ⟨⟩⟩ := Option.ite_none_right_eq_some.1 he
      exact (List.mem_erase_of_ne fun h => hne (by rw [h])).2 hx

/-- Between two picks of `a` that follow each other, those of `stays` are picked in the given
order. -/
def InOrder (stays : α → Bool) (a : α) (order p : List α) : Prop :=
  ∀ x b c, p = x ++ a :: (b ++ a :: c) → a ∉ b → b.filter stays = order

/-- Two lists with the same first `a`. -/
theorem eq_of_append_cons {b c d e : List α} (hb : a ∉ b) (hd : a ∉ d)
    (h : b ++ a :: c = d ++ a :: e) : b = d := by
  have htake : ∀ {b : List α} (c : List α), a ∉ b →
      (b ++ a :: c).takeWhile (· ≠ a) = b := by
    intro b c hb
    rw [List.takeWhile_append_of_pos]
    · simp
    · intro x hx
      rw [decide_eq_true_eq]
      rintro rfl
      exact hb hx
  rw [← htake c hb, h, htake e hd]

/-- One more round. -/
theorem InOrder.cons (h : InOrder stays a order (a :: l)) (hp : a ∉ p)
    (horder : p.filter stays = order) : InOrder stays a order (a :: (p ++ a :: l)) := by
  intro x b c heq hb
  cases x with
  | nil =>
      rw [List.nil_append, List.cons.injEq] at heq
      rw [← eq_of_append_cons hp hb heq.2]
      exact horder
  | cons z x =>
      rw [List.cons_append, List.cons.injEq] at heq
      obtain ⟨w, hx, hl⟩ | ⟨w, hpx, hw⟩ := List.append_eq_append_iff.1 heq.2
      · exact h w b c hl hb
      · cases w with
        | nil => exact h [] b c hw.symm hb
        | cons y w =>
            rw [List.cons_append, List.cons.injEq] at hw
            obtain ⟨rfl, -⟩ := hw
            exact absurd (hpx ▸ by simp) hp

/-- The run lemma, from a state in the middle of a round. -/
theorem Seen.inOrder (h : Seen stays a order l p) (hl : l.Nodup) (hp : a ∉ p)
    {es : List (Event α)} (hr : Transition.run Rotation.step l es = some l')
    (hstays : ∀ x, stays x = true → x ∈ l ∧ .remove x ∉ es) (ha : .remove a ∉ es) :
    InOrder stays a order (a :: (p ++ picks l es)) := by
  induction es generalizing l p with
  | nil =>
      intro x b c heq
      have hcount := congrArg (List.count a) heq
      simp [picks, List.count_eq_zero.2 hp] at hcount
      omega
  | cons e es ih =>
      obtain ⟨l₁, he, hr⟩ := Transition.run_cons_eq_some_iff.1 hr
      have hl₁ := nodup_step hl he
      have hstays₁ : ∀ x, stays x = true → x ∈ l₁ ∧ .remove x ∉ es := by
        intro x hx
        obtain ⟨hmem, hnot⟩ := hstays x hx
        rw [List.mem_cons, not_or] at hnot
        exact ⟨mem_step hmem he (Ne.symm hnot.1), hnot.2⟩
      rw [List.mem_cons, not_or] at ha
      rw [picks_cons he, ← List.append_assoc]
      by_cases hpick : a ∈ picked l e
      · cases e with
        | pick =>
            have hhead : l.head? = some a := by simpa [picked] using hpick
            obtain ⟨horder, y, rfl, hy⟩ := h.front hl hhead
            cases he
            have hround := ih (seen_pick hy) hl₁ (List.not_mem_nil) hr hstays₁ ha.2
            rw [List.append_assoc]
            exact hround.cons hp horder
        | addFront x => exact absurd hpick (List.not_mem_nil)
        | addBack x => exact absurd hpick (List.not_mem_nil)
        | remove x => exact absurd hpick (List.not_mem_nil)
      · have hseen := h.step he (fun x hx => ⟨(hstays x hx).1, ?_⟩) (Ne.symm ha.1) hpick
        · exact ih hseen hl₁ (by simp [hp, hpick]) hr hstays₁ ha.2
        · have hnot := (hstays x hx).2
          rw [List.mem_cons, not_or] at hnot
          exact Ne.symm hnot.1

/-- From a pick of `a` on, those that stay are picked once in every round, in the order in
which they are behind `a`. -/
theorem inOrder_picks {y : List α} (hl : (a :: y).Nodup) {es : List (Event α)}
    (hr : Transition.run step (a :: y) (.pick :: es) = some l')
    (hstays : ∀ x, stays x = true → x ∈ a :: y ∧ .remove x ∉ es) (ha : .remove a ∉ es) :
    InOrder stays a (y.filter stays) (picks (a :: y) (.pick :: es)) := by
  obtain ⟨l₁, he, hr⟩ := Transition.run_cons_eq_some_iff.1 hr
  have hl₁ := nodup_step hl he
  have hmem : ∀ x, x ∈ a :: y → x ∈ l₁ := fun x hx => mem_step hx he (by simp)
  rw [picks_cons he]
  cases he
  exact (seen_pick rfl).inOrder hl₁ List.not_mem_nil hr
    (fun x hx => ⟨hmem x (hstays x hx).1, (hstays x hx).2⟩) ha

omit [DecidableEq α] in
/-- What is picked before the first `a` does not matter. -/
theorem InOrder.append (h : InOrder stays a order p) {q : List α} (hq : a ∉ q) :
    InOrder stays a order (q ++ p) := by
  intro x b c heq hb
  obtain ⟨w, -, hp⟩ | ⟨w, hqx, -⟩ := List.append_eq_append_iff.1 heq
  · exact h w b c hp hb
  · cases w with
    | nil => exact h [] b c (by simp_all) hb
    | cons y w => simp_all

/-- The run lemma, from a state before the first pick of `a`. -/
theorem Seen.inOrder_of_run (h : Seen stays a order l p) (hl : l.Nodup) {es : List (Event α)}
    (hr : Transition.run Rotation.step l es = some l')
    (hstays : ∀ x, stays x = true → x ∈ l ∧ .remove x ∉ es) (ha : .remove a ∉ es) :
    InOrder stays a order (picks l es) := by
  induction es generalizing l p with
  | nil =>
      intro x b c heq
      simp [picks] at heq
  | cons e es ih =>
      obtain ⟨l₁, he, hrest⟩ := Transition.run_cons_eq_some_iff.1 hr
      have hnot : ∀ x, stays x = true → e ≠ .remove x ∧ .remove x ∉ es := by
        intro x hx
        have := (hstays x hx).2
        rw [List.mem_cons, not_or] at this
        exact ⟨Ne.symm this.1, this.2⟩
      by_cases hpick : a ∈ picked l e
      · cases e with
        | pick =>
            have hhead : l.head? = some a := by simpa [picked] using hpick
            obtain ⟨-, y, rfl, rfl⟩ := h.front hl hhead
            exact inOrder_picks hl hr (fun x hx => ⟨(hstays x hx).1, (hnot x hx).2⟩)
              fun hmem => ha (List.mem_cons_of_mem _ hmem)
        | addFront x => exact absurd hpick List.not_mem_nil
        | addBack x => exact absurd hpick List.not_mem_nil
        | remove x => exact absurd hpick List.not_mem_nil
      · rw [List.mem_cons, not_or] at ha
        rw [picks_cons he]
        have hseen := h.step he (fun x hx => ⟨(hstays x hx).1, (hnot x hx).1⟩) (Ne.symm ha.1) hpick
        have hmem : ∀ x, stays x = true → x ∈ l₁ ∧ .remove x ∉ es :=
          fun x hx => ⟨mem_step (hstays x hx).1 he (hnot x hx).1, (hnot x hx).2⟩
        exact (ih hseen (nodup_step hl he) hrest hmem ha.2).append hpick

/-- Wherever `a` is in the list: between two picks of it, those that stay are picked once each,
beginning with those behind it. -/
theorem inOrder_of_run {x y : List α} (hl : (x ++ a :: y).Nodup) {es : List (Event α)}
    (hr : Transition.run step (x ++ a :: y) es = some l')
    (hstays : ∀ z, stays z = true → z ∈ x ++ a :: y ∧ .remove z ∉ es) (ha : .remove a ∉ es) :
    InOrder stays a ((y ++ x).filter stays) (picks (x ++ a :: y) es) := by
  have hseen : Seen stays a ((y ++ x).filter stays) (x ++ a :: y) y :=
    ⟨x, y, rfl, (List.filter_append y x).symm, rfl⟩
  exact hseen.inOrder_of_run hl hr hstays ha

/-- Without additions, nothing comes into the list. -/
theorem subset_of_run {es : List (Event α)} (hes : ∀ e ∈ es, e = .pick ∨ ∃ x, e = .remove x)
    (hr : Transition.run step l es = some l') : l' ⊆ l := by
  induction es generalizing l with
  | nil =>
      rw [Transition.run_nil] at hr
      exact Option.some.inj hr ▸ List.Subset.refl l
  | cons e es ih =>
      obtain ⟨l₁, he, hrest⟩ := Transition.run_cons_eq_some_iff.1 hr
      refine List.Subset.trans (ih (fun e he => hes e (List.mem_cons_of_mem _ he)) hrest) ?_
      obtain rfl | ⟨x, rfl⟩ := hes e List.mem_cons_self
      · cases he
        cases l with
        | nil => exact List.Subset.refl []
        | cons x l => exact (List.perm_append_singleton x l).subset
      · obtain ⟨-, ⟨⟩⟩ := Option.ite_none_right_eq_some.1 he
        exact List.erase_subset

/-- Without additions, what is there at the end was not removed. -/
theorem remove_notMem_of_run (hl : l.Nodup) {es : List (Event α)}
    (hes : ∀ e ∈ es, e = .pick ∨ ∃ x, e = .remove x)
    (hr : Transition.run step l es = some l') {x : α} (hx : x ∈ l') : .remove x ∉ es := by
  induction es generalizing l with
  | nil => exact List.not_mem_nil
  | cons e es ih =>
      obtain ⟨l₁, he, hrest⟩ := Transition.run_cons_eq_some_iff.1 hr
      have hes' := fun e he => hes e (List.mem_cons_of_mem _ he)
      rw [List.mem_cons, not_or]
      refine ⟨?_, ih (nodup_step hl he) hes' hrest⟩
      rintro rfl
      obtain ⟨-, ⟨⟩⟩ := Option.ite_none_right_eq_some.1 he
      exact hl.not_mem_erase (subset_of_run hes' hrest hx)

/-- Two runs in a row. -/
theorem picks_append {l₁ : List α} {es fs : List (Event α)}
    (hr : Transition.run step l es = some l₁) :
    picks l (es ++ fs) = picks l es ++ picks l₁ fs := by
  induction es generalizing l with
  | nil =>
      rw [Transition.run_nil] at hr
      obtain rfl := Option.some.inj hr
      rfl
  | cons e es ih =>
      obtain ⟨l₂, he, hrest⟩ := Transition.run_cons_eq_some_iff.1 hr
      rw [List.cons_append, picks_cons he, picks_cons he, ih hrest, List.append_assoc]

end Rotation
