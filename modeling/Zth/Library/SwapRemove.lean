import Mathlib.Data.List.Basic

/-!
# Removal from a vector that does not keep the order

The element that is removed is overwritten by the last one, and the last one is dropped.
What remains are the other elements, in some order. When it is looked for from the back,
the elements before those that are to be removed stay where they are.
-/

/-- `v[i] = std::move(v.back()); v.pop_back()`. -/
def List.swapRemove {α : Type*} (v : List α) (i : ℕ) : List α :=
  match v.getLast? with
  | none => []
  | some back => (v.set i back).dropLast

/-- The last index below `n` that holds the element, found by counting down. -/
def List.findDown {α : Type*} [DecidableEq α] (v : List α) (a : α) : ℕ → Option ℕ
  | 0 => none
  | i + 1 => if v[i]? = some a then some i else v.findDown a i

/-- The last occurrence of the element is removed, if there is one. -/
def List.swapErase {α : Type*} [DecidableEq α] (v : List α) (a : α) : List α :=
  match v.findDown a v.length with
  | none => v
  | some i => v.swapRemove i

namespace List

variable {α : Type*}

theorem swapRemove_concat (init : List α) (z : α) (i : ℕ) :
    (init ++ [z]).swapRemove i = ((init ++ [z]).set i z).dropLast := by
  rw [swapRemove, getLast?_concat]

/-- One occurrence of the element is gone. -/
theorem perm_swapRemove {v : List α} {i : ℕ} {a : α} (h : v[i]? = some a) :
    (a :: v.swapRemove i).Perm v := by
  obtain ⟨init, z, rfl⟩ := eq_nil_or_concat' v |>.resolve_left fun hv => by simp [hv] at h
  rw [swapRemove_concat]
  by_cases hi : i < init.length
  · obtain ⟨pre, suf, rfl, rfl⟩ : ∃ pre suf, init = pre ++ a :: suf ∧ i = pre.length := by
      rw [getElem?_append_left hi] at h
      obtain ⟨hi, rfl⟩ := getElem?_eq_some_iff.1 h
      refine ⟨init.take i, init.drop (i + 1), ?_, ?_⟩
      · rw [← drop_eq_getElem_cons hi, take_append_drop]
      · rw [length_take, Nat.min_eq_left (Nat.le_of_lt hi)]
    have hset : ((pre ++ a :: suf ++ [z]).set pre.length z).dropLast = pre ++ z :: suf := by
      rw [append_assoc, set_append_right _ _ (Nat.le_refl _), Nat.sub_self, cons_append,
        set_cons_zero, ← cons_append, ← append_assoc, dropLast_concat]
    rw [hset]
    calc
      (a :: (pre ++ z :: suf)).Perm (a :: (z :: (pre ++ suf))) := perm_middle.cons a
      List.Perm _ (z :: (a :: (pre ++ suf))) := Perm.swap z a _
      List.Perm _ (z :: (pre ++ a :: suf)) := perm_middle.symm.cons z
      List.Perm _ (pre ++ a :: suf ++ [z]) := (perm_append_singleton z _).symm
  · have hlen : i = init.length := by
      have hlt := (getElem?_eq_some_iff.1 h).1
      rw [length_append, length_singleton] at hlt
      omega
    subst hlen
    obtain rfl : z = a := by simpa using h
    rw [set_append_right _ _ (Nat.le_refl _), Nat.sub_self, set_cons_zero, dropLast_concat]
    exact (perm_append_singleton z init).symm

/-- What is in front of the list is left alone. -/
theorem swapRemove_append (D : List α) {X : List α} (hX : X ≠ []) (i : ℕ) :
    (D ++ X).swapRemove (D.length + i) = D ++ X.swapRemove i := by
  obtain ⟨init, z, rfl⟩ := (eq_nil_or_concat' X).resolve_left hX
  have hne : (init ++ [z]).set i z ≠ [] := by simp
  rw [← append_assoc, swapRemove_concat, swapRemove_concat, append_assoc,
    set_append_right _ _ (Nat.le_add_right _ _), Nat.add_sub_cancel_left,
    dropLast_append_of_ne_nil hne]

variable [DecidableEq α]

theorem findDown_eq_some {v : List α} {a : α} {n i : ℕ} (h : v.findDown a n = some i) :
    v[i]? = some a := by
  induction n with
  | zero => cases h
  | succ n ih =>
      rw [findDown] at h
      split at h
      · rename_i hget
        cases h
        exact hget
      · exact ih h

theorem findDown_eq_none {v : List α} {a : α} {n : ℕ} (h : v.findDown a n = none) :
    ∀ i < n, v[i]? ≠ some a := by
  induction n with
  | zero =>
      intro i hi
      cases hi
  | succ n ih =>
      rw [findDown] at h
      split at h
      · cases h
      · rename_i hne
        intro i hi
        rcases Nat.lt_succ_iff_lt_or_eq.1 hi with hlt | rfl
        · exact ih h i hlt
        · exact hne

theorem not_mem_of_findDown {v : List α} {a : α} (h : v.findDown a v.length = none) :
    a ∉ v := by
  intro hmem
  obtain ⟨i, hi, hget⟩ := getElem_of_mem hmem
  exact findDown_eq_none h i hi (getElem?_eq_some_iff.2 ⟨hi, hget⟩)

/-- The search from the back does not get to what is in front, if it finds the element
before that. -/
theorem findDown_append (D X : List α) (a : α) (n : ℕ) {i : ℕ} (h : X.findDown a n = some i) :
    (D ++ X).findDown a (D.length + n) = some (D.length + i) := by
  induction n with
  | zero => cases h
  | succ n ih =>
      rw [findDown] at h
      rw [Nat.add_succ, findDown, getElem?_append_right (Nat.le_add_right _ _),
        Nat.add_sub_cancel_left]
      split at h
      · rename_i hget
        cases h
        rw [if_pos hget]
      · rename_i hne
        rw [if_neg hne]
        exact ih h

theorem perm_swapErase (v : List α) (a : α) : (v.swapErase a).Perm (v.erase a) := by
  rw [swapErase]
  cases h : v.findDown a v.length with
  | none => rw [erase_of_not_mem (not_mem_of_findDown h)]
  | some i => exact (cons_perm_iff_perm_erase.1 (perm_swapRemove (findDown_eq_some h))).2

theorem swapErase_append (D : List α) {X : List α} {a : α} (h : a ∈ X) :
    (D ++ X).swapErase a = D ++ X.swapErase a := by
  cases hX : X.findDown a X.length with
  | none => exact absurd h (not_mem_of_findDown hX)
  | some i =>
      rw [swapErase, swapErase, length_append, findDown_append D X a _ hX, hX]
      exact swapRemove_append D (ne_nil_of_mem h) i

/-- What was appended is taken out again, in any order. -/
theorem foldl_swapErase_append (D : List α) {X L : List α} (h : X.Perm L) :
    L.foldl swapErase (D ++ X) = D := by
  induction L generalizing X with
  | nil => rw [h.eq_nil, append_nil, foldl_nil]
  | cons a L ih =>
      have hmem : a ∈ X := h.mem_iff.2 mem_cons_self
      rw [foldl_cons, swapErase_append D hmem]
      apply ih
      exact (perm_swapErase X a).trans (cons_perm_iff_perm_erase.1 h.symm).2.symm

end List
