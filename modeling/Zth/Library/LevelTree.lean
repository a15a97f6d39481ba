import Mathlib.Algebra.Group.Nat.Defs
import Mathlib.Data.List.Basic
import Mathlib.Tactic.Common

/-!
# Binary trees with levels

A search tree that is balanced by levels has a number at every node. An empty
tree has level 0, and a node sits one level above its left child and at most one
level above its right child. Right children may share the level of their parent,
but not two of them in a row: that is `Levelled`, the balance condition of an
Andersson tree. It bounds the size from below and the depth from above, both in
terms of the level of the root.
-/

/-- A binary tree with a level at every node. -/
inductive LevelTree (α : Type*) where
  | nil
  | node (left : LevelTree α) (level : ℕ) (elem : α) (right : LevelTree α)
deriving DecidableEq, Repr

namespace LevelTree

variable {α : Type*}

/-- The level of the root; an empty tree is at level 0. -/
def level : LevelTree α → ℕ
  | nil => 0
  | node _ v _ _ => v

/-- The right subtree. -/
def right : LevelTree α → LevelTree α
  | nil => nil
  | node _ _ _ r => r

/-- The element at the root. -/
def root? : LevelTree α → Option α
  | nil => none
  | node _ _ e _ => some e

/-- Replace the right subtree, if there is a root to hang it under. -/
def mapRight (f : LevelTree α → LevelTree α) : LevelTree α → LevelTree α
  | nil => nil
  | node l v e r => node l v e (f r)

/-- The in-order walk. -/
def toList : LevelTree α → List α
  | nil => []
  | node l _ e r => l.toList ++ e :: r.toList

/-- The number of nodes. -/
def size : LevelTree α → ℕ
  | nil => 0
  | node l _ _ r => l.size + r.size + 1

/-- The number of nodes on a longest path from the root. -/
def depth : LevelTree α → ℕ
  | nil => 0
  | node l _ _ r => max l.depth r.depth + 1

@[simp] theorem level_nil : (nil : LevelTree α).level = 0 := rfl

@[simp] theorem level_node (l : LevelTree α) (v : ℕ) (e : α) (r : LevelTree α) :
    (node l v e r).level = v := rfl

@[simp] theorem right_node (l : LevelTree α) (v : ℕ) (e : α) (r : LevelTree α) :
    (node l v e r).right = r := rfl

@[simp] theorem toList_nil : (nil : LevelTree α).toList = [] := rfl

@[simp] theorem toList_node (l : LevelTree α) (v : ℕ) (e : α) (r : LevelTree α) :
    (node l v e r).toList = l.toList ++ e :: r.toList := rfl

theorem length_toList (t : LevelTree α) : t.toList.length = t.size := by
  induction t with
  | nil => rfl
  | node l v e r ihl ihr =>
      rw [toList_node, List.length_append, List.length_cons, ihl, ihr, size, Nat.add_assoc]

theorem toList_eq_nil_iff {t : LevelTree α} : t.toList = [] ↔ t = nil := by
  cases t with
  | nil => simp
  | node l v e r => simp

/-- The levels of the tree are balanced. -/
def Levelled : LevelTree α → Prop
  | nil => True
  | node l v _ r =>
      l.Levelled ∧ r.Levelled ∧ l.level + 1 = v ∧
        (r.level = v ∨ r.level + 1 = v) ∧ r.right.level < v

theorem Levelled.nil : (nil : LevelTree α).Levelled := trivial

/-- Going to the right does not lead to a higher level. -/
theorem Levelled.level_right_le {t : LevelTree α} (h : t.Levelled) :
    t.right.level ≤ t.level := by
  cases t with
  | nil => exact Nat.le_refl 0
  | node l v e r =>
      obtain ⟨-, -, -, hr, -⟩ := h
      rw [right_node, level_node]
      omega

/-- A tree at level `k + 1`, taken apart. -/
theorem Levelled.exists_node {t : LevelTree α} (h : t.Levelled) {k : ℕ}
    (hk : t.level = k + 1) :
    ∃ l e r, t = node l (k + 1) e r ∧ l.Levelled ∧ r.Levelled ∧ l.level = k ∧
      (r.level = k + 1 ∨ r.level = k) ∧ r.right.level < k + 1 := by
  cases t with
  | nil => cases hk
  | node l v e r =>
      obtain ⟨hl, hr, hlv, hrv, hrr⟩ := h
      rw [level_node] at hk
      subst hk
      refine ⟨l, e, r, rfl, hl, hr, ?_, ?_, hrr⟩
      · exact Nat.add_right_cancel hlv
      · exact hrv.imp_right Nat.add_right_cancel

/-- Every level doubles the number of nodes. -/
theorem Levelled.two_pow_level_le {t : LevelTree α} (h : t.Levelled) :
    2 ^ t.level ≤ t.size + 1 := by
  induction t with
  | nil => exact Nat.le_refl 1
  | node l v e r ihl ihr =>
      obtain ⟨hl, hr, hlv, hrv, -⟩ := h
      have hpl := ihl hl
      have hpr := ihr hr
      have hle : 2 ^ l.level ≤ 2 ^ r.level := Nat.pow_le_pow_right (by decide) (by omega)
      have hv : 2 ^ v = 2 ^ l.level + 2 ^ l.level := by
        rw [← hlv, Nat.pow_succ, Nat.mul_two]
      rw [level_node, size, hv]
      omega

/-- A path goes through at most two nodes of every level, and through at most one
of the highest level if the root does not share it. -/
theorem Levelled.depth_le_aux {t : LevelTree α} (h : t.Levelled) :
    t.depth ≤ 2 * t.level ∧ (t.right.level < t.level → t.depth + 1 ≤ 2 * t.level) := by
  induction t with
  | nil => exact ⟨Nat.le_refl 0, fun h => absurd h (Nat.lt_irrefl 0)⟩
  | node l v e r ihl ihr =>
      obtain ⟨hl, hr, hlv, hrv, hrr⟩ := h
      obtain ⟨hdl, -⟩ := ihl hl
      obtain ⟨hdr, hdr'⟩ := ihr hr
      rw [depth, level_node, right_node]
      constructor
      · rcases hrv with hrv | hrv
        · have := hdr' (by omega)
          omega
        · omega
      · intro hlt
        omega

theorem Levelled.depth_le {t : LevelTree α} (h : t.Levelled) : t.depth ≤ 2 * t.level :=
  h.depth_le_aux.1

end LevelTree
