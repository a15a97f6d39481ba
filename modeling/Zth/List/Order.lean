import Mathlib.Order.Defs.Unbundled
import Zth.List.Balance

/-!
# The sorted list is sorted

The tests that send a search to the left or to the right are a strict total order
on the elements: by `Compare` first, and by address for elements that `Compare`
does not tell apart. In a tree that is sorted by it, the rotations do not change
the in-order walk, insertion adds the element in its place of the walk, and
deletion takes it out.
-/

namespace Zth

/-- The order on the keys of a sorted list: a strict weak order. -/
structure Compare (K : Type*) where
  less : K → K → Bool
  irrefl : ∀ a, less a a = false
  trans : ∀ a b c, less a b = true → less b c = true → less a c = true
  incomp_trans : ∀ a b c, less a b = false → less b a = false →
    less b c = false → less c b = false → less a c = false

namespace Compare

variable {K : Type*} (c : Compare K)

/-- A key that is less than one of two equivalent keys is less than both. -/
theorem less_of_less_of_incomp {x y z : K} (hxy : c.less x y = true)
    (hyz : c.less y z = false) (hzy : c.less z y = false) : c.less x z = true := by
  by_contra hxz
  rw [Bool.not_eq_true] at hxz
  cases hzx : c.less z x with
  | true =>
      rw [c.trans z x y hzx hxy] at hzy
      cases hzy
  | false =>
      rw [c.incomp_trans x z y hxz hzx hzy hyz] at hxy
      cases hxy

theorem less_of_incomp_of_less {x y z : K} (hxy : c.less x y = false)
    (hyx : c.less y x = false) (hyz : c.less y z = true) : c.less x z = true := by
  by_contra hxz
  rw [Bool.not_eq_true] at hxz
  cases hzx : c.less z x with
  | true =>
      rw [c.trans y z x hyz hzx] at hyx
      cases hyx
  | false =>
      rw [c.incomp_trans y x z hyx hxy hxz hzx] at hyz
      cases hyz

end Compare

namespace SortedList

open LevelTree

variable {A : Type*}

theorem toList_skew (t : LevelTree A) : (skew t).toList = t.toList := by
  unfold skew
  split
  · split
    · simp
    · rfl
  · rfl

theorem toList_mapRight {f : LevelTree A → LevelTree A}
    (hf : ∀ t, (f t).toList = t.toList) (t : LevelTree A) :
    (t.mapRight f).toList = t.toList := by
  cases t with
  | nil => rfl
  | node l v e r => rw [mapRight, toList_node, hf, toList_node]

theorem toList_decreaseLevel (t : LevelTree A) : (decreaseLevel t).toList = t.toList := by
  cases t with
  | nil => rfl
  | node l v e r =>
      unfold decreaseLevel
      cases r with
      | nil =>
          dsimp only
          split <;> rfl
      | node rl rv re rr =>
          dsimp only
          split <;> rfl

theorem toList_split {t t' : LevelTree A} (h : split t = some t') :
    t'.toList = t.toList := by
  unfold split at h
  split at h
  · split at h
    · split at h
      · rw [← Option.some.inj h]
        simp
      · cases h
    · rw [← Option.some.inj h]
  · rw [← Option.some.inj h]

theorem toList_rebalance {t t' : LevelTree A} (h : rebalance t = some t') :
    t'.toList = t.toList := by
  rw [rebalance, Option.bind_eq_some_iff] at h
  obtain ⟨s, hs, ht'⟩ := h
  have hwalk : s.toList = t.toList := by
    rw [toList_split hs, toList_mapRight (toList_mapRight toList_skew),
      toList_mapRight toList_skew, toList_skew, toList_decreaseLevel]
  cases s with
  | nil =>
      rw [← Option.some.inj ht']
      exact hwalk
  | node l v e r =>
      rw [Option.map_eq_some_iff] at ht'
      obtain ⟨r', hr', rfl⟩ := ht'
      rw [← hwalk, toList_node, toList_split hr', toList_node]

variable [LinearOrder A]

/-- The order of the walk. -/
def Before (comp : A → A → Bool) (x y : A) : Prop := goesLeft comp x y = true

theorem before_iff (comp : A → A → Bool) (x y : A) :
    Before comp x y ↔
      comp x y = true ∨ (comp x y = false ∧ comp y x = false ∧ x < y) := by
  unfold Before goesLeft
  cases comp x y with
  | true => simp
  | false =>
      cases comp y x with
      | true => simp
      | false => simp

/-- `m_comp` on two elements, which reads the keys of their objects. -/
def keyLess {K : Type*} (c : Compare K) (obj : A → K) (x y : A) : Bool :=
  c.less (obj x) (obj y)

/-- Keys first, addresses second is a strict total order. -/
instance isStrictTotalOrder_before {K : Type*} (c : Compare K) (obj : A → K) :
    IsStrictTotalOrder A (Before (keyLess c obj)) where
  irrefl x := by
    rw [before_iff, keyLess, c.irrefl]
    simp
  trans x y z := by
    rw [before_iff, before_iff, before_iff]
    simp only [keyLess]
    rintro (hxy | ⟨hxy, hyx, hlt⟩) (hyz | ⟨hyz, hzy, hlt'⟩)
    · exact Or.inl (c.trans _ _ _ hxy hyz)
    · exact Or.inl (c.less_of_less_of_incomp hxy hyz hzy)
    · exact Or.inl (c.less_of_incomp_of_less hxy hyx hyz)
    · exact Or.inr ⟨c.incomp_trans _ _ _ hxy hyx hyz hzy,
        c.incomp_trans _ _ _ hzy hyz hyx hxy, hlt.trans hlt'⟩
  trichotomous x y := by
    rw [before_iff, before_iff]
    intro hxy hyx
    rw [not_or, Bool.not_eq_true] at hxy hyx
    rcases lt_trichotomy x y with hlt | heq | hlt
    · exact absurd ⟨hxy.1, hyx.1, hlt⟩ hxy.2
    · exact heq
    · exact absurd ⟨hyx.1, hxy.1, hlt⟩ hyx.2

section Walk

variable {comp : A → A → Bool}

/-- The parts of a sorted walk around one of its nodes. -/
theorem sorted_node {l r : LevelTree A} {v : ℕ} {e : A}
    (h : (node l v e r).toList.Pairwise (Before comp)) :
    l.toList.Pairwise (Before comp) ∧ r.toList.Pairwise (Before comp) ∧
      (∀ x ∈ l.toList, Before comp x e) ∧ (∀ x ∈ r.toList, Before comp e x) := by
  rw [toList_node, List.pairwise_append, List.pairwise_cons] at h
  obtain ⟨hl, ⟨her, hr⟩, hle⟩ := h
  exact ⟨hl, hr, fun x hx => hle x hx e List.mem_cons_self, her⟩

variable [IsStrictTotalOrder A (Before comp)]

/-- What does not go to the left of another element goes behind it. -/
theorem before_of_not_goesLeft {x e : A} (hne : x ≠ e) (h : ¬ goesLeft comp x e = true) :
    Before comp e x :=
  ((trichotomous_of (Before comp) x e).resolve_left h).resolve_left hne

/-- A sorted walk has every element once. -/
theorem nodup_of_sorted {l : List A} (h : l.Pairwise (Before comp)) : l.Nodup :=
  h.imp fun {x y} hxy => by
    rintro rfl
    exact irrefl_of (Before comp) x hxy

/-- The search finds what is in the walk. -/
theorem find_iff {t : LevelTree A} (h : t.toList.Pairwise (Before comp)) (x : A) :
    find comp x t = true ↔ x ∈ t.toList := by
  induction t with
  | nil => simp [find]
  | node l v e r ihl ihr =>
      obtain ⟨hl, hr, hle, hre⟩ := sorted_node h
      rw [toList_node, List.mem_append, List.mem_cons]
      by_cases hxe : e = x
      · rw [find, if_pos hxe]
        exact iff_of_true rfl (Or.inr (Or.inl hxe.symm))
      · by_cases hgo : goesLeft comp x e = true
        · have hnr : x ∉ r.toList := fun hx => asymm_of (Before comp) (hre x hx) hgo
          rw [find, if_neg hxe, if_pos hgo, ihl hl]
          exact ⟨Or.inl, fun h => h.resolve_right (not_or.2 ⟨Ne.symm hxe, hnr⟩)⟩
        · have hnl : x ∉ l.toList := fun hx => hgo (hle x hx)
          rw [find, if_neg hxe, if_neg hgo, ihr hr]
          exact ⟨fun h => Or.inr (Or.inr h),
            fun h => (h.resolve_left hnl).resolve_left (Ne.symm hxe)⟩

/-- A walk with one more element, in its place. -/
def InsertedWalk (comp : A → A → Bool) (x : A) (w w' : List A) : Prop :=
  ∃ l r, w = l ++ r ∧ w' = l ++ x :: r ∧ (∀ y ∈ l, Before comp y x) ∧
    ∀ y ∈ r, Before comp x y

theorem insertedWalk_insert_ {x : A} {t t' : LevelTree A} {head head' : Option A}
    (hs : t.toList.Pairwise (Before comp)) (hx : x ∉ t.toList)
    (h : insert_ comp x t head = some (t', head')) :
    InsertedWalk comp x t.toList t'.toList := by
  induction t generalizing t' head head' with
  | nil =>
      cases h
      exact ⟨[], [], rfl, rfl, by simp, by simp⟩
  | node l v e r ihl ihr =>
      obtain ⟨hl, hr, hle, hre⟩ := sorted_node hs
      rw [toList_node, List.mem_append, List.mem_cons, not_or, not_or] at hx
      obtain ⟨hxl, hxe, hxr⟩ := hx
      by_cases hgo : goesLeft comp x e = true
      · rw [insert_, if_pos hgo, Option.bind_eq_some_iff] at h
        obtain ⟨⟨l', head''⟩, hl', h⟩ := h
        obtain ⟨t'', ht'', heq⟩ := Option.map_eq_some_iff.1 h
        obtain ⟨rfl, -⟩ := Prod.mk.inj heq
        obtain ⟨a, b, hab, hab', ha, hb⟩ := ihl hl hxl hl'
        refine ⟨a, b ++ e :: r.toList, ?_, ?_, ha, ?_⟩
        · rw [toList_node, hab, List.append_assoc]
        · rw [toList_split ht'', toList_skew, toList_node, hab', List.append_assoc,
            List.cons_append]
        · intro y hy
          rw [List.mem_append, List.mem_cons] at hy
          rcases hy with hy | rfl | hy
          · exact hb y hy
          · exact hgo
          · exact trans_of (Before comp) hgo (hre y hy)
      · have hex := before_of_not_goesLeft hxe hgo
        rw [insert_, if_neg hgo, Option.bind_eq_some_iff] at h
        obtain ⟨⟨r', head''⟩, hr', h⟩ := h
        obtain ⟨t'', ht'', heq⟩ := Option.map_eq_some_iff.1 h
        obtain ⟨rfl, -⟩ := Prod.mk.inj heq
        obtain ⟨a, b, hab, hab', ha, hb⟩ := ihr hr hxr hr'
        refine ⟨l.toList ++ e :: a, b, ?_, ?_, ?_, hb⟩
        · rw [toList_node, hab, List.append_assoc, List.cons_append]
        · rw [toList_split ht'', toList_skew, toList_node, hab', List.append_assoc,
            List.cons_append]
        · intro y hy
          rw [List.mem_append, List.mem_cons] at hy
          rcases hy with hy | rfl | hy
          · exact trans_of (Before comp) (hle y hy) hex
          · exact hex
          · exact ha y hy

/-- The first element of a sorted walk is in the left subtree, or at the root of a tree
without one. -/
theorem first_cases {l r : LevelTree A} {v : ℕ} {e m : A}
    (hs : (node l v e r).toList.Pairwise (Before comp))
    (h : (node l v e r).toList.head? = some m) :
    m ∉ r.toList ∧ (m ∈ l.toList → l.toList.head? = some m) ∧ (m = e → l = nil) := by
  obtain ⟨hl, hr, hle, hre⟩ := sorted_node hs
  rw [toList_node] at h
  cases hlist : l.toList with
  | nil =>
      rw [hlist] at h
      obtain rfl : e = m := Option.some.inj h
      refine ⟨fun hm => irrefl_of (Before comp) _ (hre _ hm), by simp, fun _ => ?_⟩
      exact toList_eq_nil_iff.1 hlist
  | cons y ys =>
      rw [hlist] at h
      obtain rfl : y = m := Option.some.inj h
      have hy : Before comp y e := hle y (by rw [hlist]; exact List.mem_cons_self)
      refine ⟨fun hm => asymm_of (Before comp) hy (hre y hm), fun _ => rfl, ?_⟩
      rintro rfl
      exact absurd hy (irrefl_of (Before comp) _)

omit [IsStrictTotalOrder A (Before comp)] in
theorem headAt_of_ne {head : Option A} {e : A} (l r : LevelTree A) (v : ℕ)
    (h : head ≠ some e) : headAt head (node l v e r) = head := by
  simp [headAt, h]

omit [IsStrictTotalOrder A (Before comp)] in
theorem headAt_nil (head : Option A) (e : A) (r : LevelTree A) (v : ℕ) :
    headAt head (node nil v e r) = head := by
  simp [headAt, isNull]

/-- The head that comes back from an insertion below a node: the new element, if the
head is below that node and goes behind it. -/
theorem head_insert_ {x m : A} {t t' : LevelTree A} {head' : Option A}
    (hs : t.toList.Pairwise (Before comp)) (hx : x ∉ t.toList)
    (hm : m ∈ t.toList → t.toList.head? = some m)
    (h : insert_ comp x t (some m) = some (t', head')) :
    head' = if m ∈ t.toList ∧ goesLeft comp x m then some x else some m := by
  induction t generalizing t' head' with
  | nil =>
      cases h
      simp
  | node l v e r ihl ihr =>
      obtain ⟨hl, hr, hle, hre⟩ := sorted_node hs
      have hfirst := fun hmem => first_cases hs (hm hmem)
      have hmr : m ∉ r.toList := fun hmem => (hfirst (by simp [hmem])).1 hmem
      have hml : m ∈ l.toList → l.toList.head? = some m :=
        fun hmem => (hfirst (by simp [hmem])).2.1 hmem
      rw [toList_node, List.mem_append, List.mem_cons, not_or, not_or] at hx
      obtain ⟨hxl, hxe, hxr⟩ := hx
      by_cases hgo : goesLeft comp x e = true
      · rw [insert_, if_pos hgo, Option.bind_eq_some_iff] at h
        obtain ⟨⟨l', head''⟩, hl', h⟩ := h
        obtain ⟨t'', -, heq⟩ := Option.map_eq_some_iff.1 h
        obtain ⟨-, rfl⟩ := Prod.mk.inj heq
        by_cases hme : m = e
        · -- The head has no left child yet, and gets the new element.
          subst hme
          obtain rfl : l = nil := (hfirst (by simp)).2.2 rfl
          cases hl'
          simp [headAt, isNull, root?, hgo]
        · have hhead := ihl hl hxl hml hl'
          have hne : head'' ≠ some e := by
            rw [hhead]
            split
            · simpa using hxe
            · simpa using hme
          rw [headAt_of_ne l' r v hne, hhead]
          simp [hme, hmr]
      · rw [insert_, if_neg hgo, Option.bind_eq_some_iff] at h
        obtain ⟨⟨r', head''⟩, hr', h⟩ := h
        obtain ⟨t'', -, heq⟩ := Option.map_eq_some_iff.1 h
        obtain ⟨-, rfl⟩ := Prod.mk.inj heq
        have hhead := ihr hr hxr (fun hmem => absurd hmem hmr) hr'
        rw [if_neg fun h => hmr h.1] at hhead
        have hbehind : ¬ (m ∈ (node l v e r).toList ∧ goesLeft comp x m = true) := by
          rintro ⟨hmem, hxm⟩
          have hex := before_of_not_goesLeft hxe hgo
          rw [toList_node, List.mem_append, List.mem_cons] at hmem
          rcases hmem with hmem | rfl | hmem
          · exact asymm_of (Before comp) (trans_of (Before comp) (hle m hmem) hex) hxm
          · exact hgo hxm
          · exact hmr hmem
        rw [if_neg hbehind, hhead]
        by_cases hme : m = e
        · subst hme
          obtain rfl : l = nil := (hfirst (by simp)).2.2 rfl
          exact headAt_nil _ _ _ _
        · exact headAt_of_ne _ _ _ (by simpa using hme)

/-- Deletion takes the element out of the walk. -/
theorem toList_delete_ {x : A} {t t' : LevelTree A} (hs : t.toList.Pairwise (Before comp))
    (hx : x ∈ t.toList) (h : delete_ comp x t = some t') :
    t'.toList = t.toList.erase x := by
  induction t generalizing x t' with
  | nil => simp at hx
  | node l v e r ihl ihr =>
      obtain ⟨hl, hr, hle, hre⟩ := sorted_node hs
      by_cases hxe : x = e
      · subst hxe
        have hxl : x ∉ l.toList := fun hmem => irrefl_of (Before comp) x (hle x hmem)
        have herase : (node l v x r).toList.erase x = l.toList ++ r.toList := by
          rw [toList_node, List.erase_append_right _ hxl, List.erase_cons_head]
        rw [herase]
        cases hnl : isNull l with
        | true =>
            cases hnr : isNull r with
            | true =>
                rw [delete_leaf comp v hnl hnr] at h
                rw [← Option.some.inj h, isNull_iff.1 hnl, isNull_iff.1 hnr]
                rfl
            | false =>
                simp only [delete_by_lowest comp v hnl hnr, Option.bind_eq_some_iff] at h
                obtain ⟨y, hy, r', hr', ht'⟩ := h
                rw [lowest_eq_head?, List.head?_eq_some_iff] at hy
                obtain ⟨ys, hys⟩ := hy
                have hyr : y ∈ r.toList := by simp [hys]
                rw [toList_rebalance ht', toList_node, ihr hr hyr hr', hys,
                  List.erase_cons_head]
        | false =>
            simp only [delete_by_highest comp v hnl, Option.bind_eq_some_iff] at h
            obtain ⟨y, hy, l', hl', ht'⟩ := h
            rw [highest_eq_getLast?, List.getLast?_eq_some_iff] at hy
            obtain ⟨ys, hys⟩ := hy
            have hyl : y ∈ l.toList := by simp [hys]
            have hyys : y ∉ ys := by
              have hnodup := nodup_of_sorted hl
              rw [hys, List.nodup_append] at hnodup
              intro hmem
              exact hnodup.2.2 y hmem y (List.mem_singleton_self y) rfl
            rw [toList_rebalance ht', toList_node, ihl hl hyl hl', hys,
              List.erase_append_right _ hyys, List.erase_cons_head, List.append_nil,
              List.append_assoc, List.singleton_append]
      · rw [toList_node, List.mem_append, List.mem_cons] at hx
        by_cases hgo : goesLeft comp x e = true
        · have hxr : x ∉ r.toList := fun hmem => asymm_of (Before comp) (hre x hmem) hgo
          have hxl : x ∈ l.toList := hx.resolve_right (not_or.2 ⟨hxe, hxr⟩)
          rw [delete_left comp v hxe hgo, Option.bind_eq_some_iff] at h
          obtain ⟨l', hl', ht'⟩ := h
          rw [toList_rebalance ht', toList_node, ihl hl hxl hl', toList_node,
            List.erase_append_left _ hxl]
        · have hxl : x ∉ l.toList := fun hmem => hgo (hle x hmem)
          have hxr : x ∈ r.toList := (hx.resolve_left hxl).resolve_left hxe
          rw [delete_right comp v hxe hgo, Option.bind_eq_some_iff] at h
          obtain ⟨r', hr', ht'⟩ := h
          rw [toList_rebalance ht', toList_node, ihr hr hxr hr', toList_node,
            List.erase_append_right _ hxl, List.erase_cons_tail (by simpa using Ne.symm hxe)]

end Walk

end SortedList

end Zth
