import Mathlib.Data.Fintype.Card
import Zth.List.Order

/-!
# The sorted list is an ordered set

What a sorted list is for: it holds a set of elements, whose keys do not change
while they are in it. Every sequence of operations on the set is one on the list,
in which no assertion fails, and the list has what the set has: its walk is the
set in order, and its head the least element.

Elements have distinct non-null addresses, so there are fewer than `size_t` can
count. This is what keeps the level of the tree far below its maximum.
-/

namespace Zth

namespace SortedList

open LevelTree

section Check

variable {A : Type*} [LinearOrder A] {comp : A → A → Bool}

omit [LinearOrder A] in
theorem root?_mem {t : LevelTree A} {x : A} (h : t.root? = some x) : x ∈ t.toList := by
  cases t with
  | nil => cases h
  | node l v e r =>
      obtain rfl : e = x := Option.some.inj h
      simp

omit [LinearOrder A] in
theorem isNull_of_level_pos {t : LevelTree A} (h : 0 < t.level) : isNull t = false := by
  cases t with
  | nil => exact absurd h (Nat.lt_irrefl 0)
  | node l v e r => rfl

/-- The assertions on a node hold in a sorted and levelled tree. -/
theorem checkNode_eq_true {l r : LevelTree A} {v : ℕ} {e : A}
    [IsStrictTotalOrder A (Before comp)]
    (hs : (node l v e r).toList.Pairwise (Before comp)) (h : (node l v e r).Levelled) :
    checkNode comp l v e r = true := by
  obtain ⟨-, -, hle, hre⟩ := sorted_node hs
  obtain ⟨hl, hr, hlv, hrv, hrr⟩ := h
  have hleft : (l.root?.all fun x => comp x e || (!comp e x && decide (x < e))) = true := by
    rw [Option.all_eq_true]
    intro x hx
    rcases (before_iff comp x e).1 (hle x (root?_mem hx)) with hlt | ⟨-, hlt, hlt'⟩
    · rw [hlt, Bool.true_or]
    · rw [hlt, decide_eq_true hlt', Bool.not_false, Bool.and_self, Bool.or_true]
  have hright : (r.root?.all fun x => comp e x || (!comp x e || decide (e < x))) = true := by
    rw [Option.all_eq_true]
    intro x hx
    rcases (before_iff comp e x).1 (hre x (root?_mem hx)) with hlt | ⟨-, hlt, -⟩
    · rw [hlt, Bool.true_or]
    · rw [hlt, Bool.not_false, Bool.true_or, Bool.or_true]
  have hleaf : (!isNull l || !isNull r || v == 1) = true := by
    cases l with
    | nil => simp [← hlv]
    | node _ _ _ _ => rfl
  have hlow : (isNull l || l.level + 1 == v) = true := by simp [hlv]
  have hside : (isNull r || r.level + 1 == v || r.level == v) = true := by
    rcases hrv with hrv | hrv <;> simp [hrv]
  have hgrand : (isNull r || isNull r.right || decide (r.right.level < v)) = true := by
    simp [hrr]
  have hboth : (decide (v < 2) || (!isNull l && !isNull r)) = true := by
    by_cases hv : v < 2
    · simp [hv]
    · rw [isNull_of_level_pos (by omega), isNull_of_level_pos (by omega)]
      simp
  simp only [checkNode, hleft, hright, hleaf, hlow, hside, hgrand, hboth, Bool.and_self]

theorem checkTree_eq_size {t : LevelTree A} [IsStrictTotalOrder A (Before comp)]
    (hs : t.toList.Pairwise (Before comp)) (h : t.Levelled) (hsize : t.size < 2 ^ 64) :
    checkTree comp t = some t.size := by
  induction t with
  | nil => rfl
  | node l v e r ihl ihr =>
      obtain ⟨hsl, hsr, -, -⟩ := sorted_node hs
      rw [LevelTree.size] at hsize
      rw [checkTree, if_pos (checkNode_eq_true hs h), ihl hsl h.1 (by omega),
        ihr hsr h.2.1 (by omega), Option.bind_some, Option.map_some,
        LevelTree.size]
      congr 1
      omega

end Check

/-- What may happen to a sorted list and its elements: an element is inserted or
erased, or the key of an element is changed. -/
inductive Op (A K : Type*) where
  | insert (x : A)
  | erase (x : A)
  | assign (x : A) (key : K)

/-- The elements with their keys, and the list. -/
structure State (A K : Type*) where
  obj : A → K
  list : SortedList A

/-- The set a sorted list is meant to be, and the keys of all elements. -/
structure Contents (A K : Type*) where
  obj : A → K
  elems : Finset A

variable {A K : Type*} [LinearOrder A]

/-- The operations on the list. -/
def step (c : Compare K) (s : State A K) : Op A K → Option (State A K)
  | .insert x => (insert (keyLess c s.obj) x s.list).map fun list => { s with list := list }
  | .erase x => (erase (keyLess c s.obj) x s.list).map fun list => { s with list := list }
  | .assign x key => some { s with obj := Function.update s.obj x key }

/-- The operations on the set. Elements are inserted that are not in it, erased that
are in it, and do not change their key while they are in it. -/
def Contents.step (a : Contents A K) : Op A K → Option (Contents A K)
  | .insert x => if x ∈ a.elems then none else some { a with elems := Insert.insert x a.elems }
  | .erase x => if x ∈ a.elems then some { a with elems := a.elems.erase x } else none
  | .assign x key =>
      if x ∈ a.elems then none else some { a with obj := Function.update a.obj x key }

/-- The list represents the set. -/
structure Represents (c : Compare K) (s : State A K) (a : Contents A K) : Prop where
  obj_eq : s.obj = a.obj
  levelled : s.list.t.Levelled
  sorted : s.list.walk.Pairwise (Before (keyLess c s.obj))
  mem_walk : ∀ x, x ∈ s.list.walk ↔ x ∈ a.elems
  size_eq : s.list.size = a.elems.card
  head_eq : s.list.head = s.list.walk.head?

theorem Represents.size_tree {c : Compare K} {s : State A K} {a : Contents A K}
    (h : Represents c s a) : s.list.t.size = a.elems.card := by
  have hset : s.list.walk.toFinset = a.elems := by
    ext x
    rw [List.mem_toFinset, h.mem_walk]
  rw [← hset, List.toFinset_card_of_nodup (nodup_of_sorted h.sorted)]
  exact (length_toList s.list.t).symm

theorem Represents.contains_iff {c : Compare K} {s : State A K} {a : Contents A K}
    (h : Represents c s a) (x : A) :
    contains (keyLess c s.obj) x s.list = true ↔ x ∈ a.elems := by
  rw [contains, find_iff h.sorted, ← h.mem_walk]
  rfl

/-- The assertions on the whole list hold when it represents a set that `size_t` can
count. -/
theorem Represents.check {c : Compare K} {s : State A K} {a : Contents A K}
    (h : Represents c s a) (hcard : a.elems.card < 2 ^ 64) :
    SortedList.check (keyLess c s.obj) s.list = true := by
  have hsize := h.size_tree
  have htree : checkTree (keyLess c s.obj) s.list.t = some s.list.size := by
    rw [checkTree_eq_size h.sorted h.levelled (by omega), hsize, h.size_eq]
  have hhead : lowest s.list.t = s.list.head := by
    rw [lowest_eq_head?, h.head_eq, walk]
  rw [SortedList.check, htree, hhead]
  cases hnull : isNull s.list.t with
  | true =>
      have hnone : s.list.head = none := by rw [← hhead, isNull_iff.1 hnull, lowest]
      simp [hnone]
  | false =>
      have hsome : s.list.head.isSome = true := by
        rw [h.head_eq, walk, List.head?_eq_some_head (toList_ne_nil hnull), Option.isSome_some]
      simp [hsome]

/-- The level of the root is bounded by what can be counted. -/
theorem Represents.level_le {c : Compare K} {s : State A K} {a : Contents A K}
    (h : Represents c s a) (hcard : a.elems.card < 2 ^ 64) : s.list.t.level ≤ 64 := by
  have hpow := h.levelled.two_pow_level_le
  rw [h.size_tree] at hpow
  have hle : 2 ^ s.list.t.level ≤ 2 ^ 64 := by omega
  exact (Nat.pow_le_pow_iff_right (by decide)).1 hle

theorem InsertedWalk.sorted {comp : A → A → Bool} [IsStrictTotalOrder A (Before comp)]
    {x : A} {w w' : List A} (h : InsertedWalk comp x w w')
    (hs : w.Pairwise (Before comp)) : w'.Pairwise (Before comp) := by
  obtain ⟨l, r, rfl, rfl, hl, hr⟩ := h
  rw [List.pairwise_append] at hs ⊢
  obtain ⟨hsl, hsr, hlr⟩ := hs
  refine ⟨hsl, List.pairwise_cons.2 ⟨hr, hsr⟩, fun y hy z hz => ?_⟩
  rcases List.mem_cons.1 hz with rfl | hz
  · exact hl y hy
  · exact hlr y hy z hz

theorem InsertedWalk.mem_iff {comp : A → A → Bool} {x : A} {w w' : List A}
    (h : InsertedWalk comp x w w') (y : A) : y ∈ w' ↔ y = x ∨ y ∈ w := by
  obtain ⟨l, r, rfl, rfl, -, -⟩ := h
  simp only [List.mem_append, List.mem_cons]
  exact or_left_comm

/-- The first element of a walk that has one more: the new one, or what was the
first. -/
theorem InsertedWalk.head? {comp : A → A → Bool} [IsStrictTotalOrder A (Before comp)]
    {x m : A} {w w' : List A} (h : InsertedWalk comp x w w') (hm : w.head? = some m) :
    w'.head? = if m ∈ w ∧ goesLeft comp x m then some x else some m := by
  have hmem : m ∈ w := List.mem_of_mem_head? hm
  obtain ⟨l, r, rfl, rfl, hl, hr⟩ := h
  cases l with
  | nil => rw [if_pos ⟨hmem, hr m hmem⟩, List.nil_append, List.head?_cons]
  | cons y ys =>
      obtain rfl : y = m := Option.some.inj hm
      have hyx : ¬ goesLeft comp x y = true :=
        fun h => asymm_of (Before comp) (hl y List.mem_cons_self) h
      rw [if_neg fun h => hyx h.2, List.cons_append, List.head?_cons]

/-- Insertion of an element that is not in the set. -/
theorem Represents.insert {c : Compare K} {s : State A K} {a : Contents A K}
    (h : Represents c s a) {x : A} (hx : x ∉ a.elems)
    (hcard : (Insert.insert x a.elems).card < 2 ^ 64) :
    ∃ list, SortedList.insert (keyLess c s.obj) x s.list = some list ∧
      Represents c ⟨s.obj, list⟩ ⟨a.obj, Insert.insert x a.elems⟩ := by
  have hcard' := Finset.card_insert_of_notMem hx
  have hlevel : s.list.t.level < 255 := by
    have := h.level_le (by omega)
    omega
  have hxw : x ∉ s.list.t.toList := fun hmem => hx ((h.mem_walk x).1 hmem)
  have hcontains : contains (keyLess c s.obj) x s.list = false := by
    rw [← Bool.not_eq_true, h.contains_iff]
    exact hx
  obtain ⟨t', head', hins, hgrown⟩ := grown_insert_ (keyLess c s.obj) x
    (if isNull s.list.t then some x else s.list.head) h.levelled hlevel
  have hwalk := insertedWalk_insert_ h.sorted hxw hins
  have hhead : head' = t'.toList.head? := by
    cases hnull : isNull s.list.t with
    | true =>
        rw [isNull_iff] at hnull
        rw [hnull] at hins
        cases hins
        rfl
    | false =>
        have hm := List.head?_eq_some_head (toList_ne_nil hnull)
        have hlist : s.list.head = some (s.list.t.toList.head (toList_ne_nil hnull)) :=
          h.head_eq.trans hm
        simp only [hnull, Bool.false_eq_true, if_false, hlist] at hins
        rw [head_insert_ h.sorted hxw (fun _ => hm) hins, hwalk.head? hm]
  have hrep : Represents c ⟨s.obj, t', head', (s.list.size + 1) % 2 ^ 64⟩
      ⟨a.obj, Insert.insert x a.elems⟩ := by
    refine ⟨h.obj_eq, hgrown.levelled, hwalk.sorted h.sorted, fun y => ?_, ?_, hhead⟩
    · rw [walk, hwalk.mem_iff, Finset.mem_insert, ← h.mem_walk]
      rfl
    · change (s.list.size + 1) % 2 ^ 64 = _
      rw [h.size_eq, hcard']
      omega
  refine ⟨_, ?_, hrep⟩
  simp only [SortedList.insert, hcontains, Bool.false_eq_true, if_false, hins,
    Option.bind_some, hrep.check hcard, if_true]

/-- Erasing another element leaves the first one in place. -/
theorem head?_erase_of_ne {x : A} {w : List A} (h : w.head? ≠ some x) :
    (w.erase x).head? = w.head? := by
  cases w with
  | nil => rfl
  | cons y ys =>
      have hyx : y ≠ x := by simpa using h
      rw [List.erase_cons_tail (by simpa using hyx), List.head?_cons, List.head?_cons]

/-- Erasure of an element that is in the set. -/
theorem Represents.erase {c : Compare K} {s : State A K} {a : Contents A K}
    (h : Represents c s a) {x : A} (hx : x ∈ a.elems) (hcard : a.elems.card < 2 ^ 64) :
    ∃ list, SortedList.erase (keyLess c s.obj) x s.list = some list ∧
      Represents c ⟨s.obj, list⟩ ⟨a.obj, a.elems.erase x⟩ := by
  have hcard' := Finset.card_erase_of_mem hx
  have hpos := Finset.card_pos.2 ⟨x, hx⟩
  have hlevel : s.list.t.level < 255 := by
    have := h.level_le hcard
    omega
  have hxw : x ∈ s.list.t.toList := (h.mem_walk x).2 hx
  have hcontains : contains (keyLess c s.obj) x s.list = true := (h.contains_iff x).2 hx
  have hnodup : s.list.t.toList.Nodup := nodup_of_sorted h.sorted
  obtain ⟨t', hdel, hshrunk⟩ := shrunk_delete_ (keyLess c s.obj) x h.levelled hlevel
  have hwalk := toList_delete_ h.sorted hxw hdel
  have hhead : (if s.list.head = some x then lowest t' else s.list.head) =
      t'.toList.head? := by
    rw [lowest_eq_head?]
    split
    · rfl
    · rename_i hne
      rw [h.head_eq] at hne ⊢
      rw [hwalk]
      exact (head?_erase_of_ne hne).symm
  have hrep : Represents c
      ⟨s.obj, t', if s.list.head = some x then lowest t' else s.list.head,
        (s.list.size + (2 ^ 64 - 1)) % 2 ^ 64⟩ ⟨a.obj, a.elems.erase x⟩ := by
    refine ⟨h.obj_eq, hshrunk.levelled, ?_, fun y => ?_, ?_, hhead⟩
    · change t'.toList.Pairwise _
      rw [hwalk]
      exact h.sorted.sublist List.erase_sublist
    · rw [walk, hwalk, hnodup.mem_erase_iff, Finset.mem_erase, ← h.mem_walk]
      rfl
    · change (s.list.size + (2 ^ 64 - 1)) % 2 ^ 64 = _
      rw [h.size_eq, hcard']
      omega
  refine ⟨_, ?_, hrep⟩
  have hcheck := hrep.check (Nat.lt_of_le_of_lt (Finset.card_erase_le) hcard)
  simp only [SortedList.erase, hcontains, if_true, hdel, Option.bind_some, hcheck]

/-- The key of an element outside the set does not matter. -/
theorem Represents.assign {c : Compare K} {s : State A K} {a : Contents A K}
    (h : Represents c s a) {x : A} (hx : x ∉ a.elems) (key : K) :
    Represents c ⟨Function.update s.obj x key, s.list⟩
      ⟨Function.update a.obj x key, a.elems⟩ := by
  refine ⟨by rw [h.obj_eq], h.levelled, ?_, h.mem_walk, h.size_eq, h.head_eq⟩
  have hkey : ∀ y ∈ s.list.walk, Function.update s.obj x key y = s.obj y := by
    intro y hy
    refine Function.update_of_ne ?_ _ _
    rintro rfl
    exact hx ((h.mem_walk y).1 hy)
  refine h.sorted.imp_of_mem fun {y z} hy hz hyz => ?_
  have hyz' : ∀ u v, u ∈ s.list.walk → v ∈ s.list.walk →
      keyLess c (Function.update s.obj x key) u v = keyLess c s.obj u v := by
    intro u v hu hv
    rw [keyLess, keyLess, hkey u hu, hkey v hv]
  rw [before_iff] at hyz ⊢
  rw [hyz' y z hy hz, hyz' z y hz hy]
  exact hyz

/-- The list follows the set step by step. -/
theorem represents_step [Fintype A] (hA : Fintype.card A < 2 ^ 64) {c : Compare K}
    {s : State A K} {a b : Contents A K} {op : Op A K} (h : Represents c s a)
    (hstep : a.step op = some b) : ∃ t, step c s op = some t ∧ Represents c t b := by
  have hcard : ∀ elems : Finset A, elems.card < 2 ^ 64 :=
    fun elems => Nat.lt_of_le_of_lt (Finset.card_le_univ elems) hA
  cases op with
  | insert x =>
      by_cases hx : x ∈ a.elems
      · simp [Contents.step, hx] at hstep
      · simp only [Contents.step, if_neg hx, Option.some.injEq] at hstep
        subst hstep
        obtain ⟨list, hlist, hrep⟩ := h.insert hx (hcard _)
        exact ⟨⟨s.obj, list⟩, by rw [step, hlist, Option.map_some], hrep⟩
  | erase x =>
      by_cases hx : x ∈ a.elems
      · simp only [Contents.step, if_pos hx, Option.some.injEq] at hstep
        subst hstep
        obtain ⟨list, hlist, hrep⟩ := h.erase hx (hcard _)
        exact ⟨⟨s.obj, list⟩, by rw [step, hlist, Option.map_some], hrep⟩
      · simp [Contents.step, hx] at hstep
  | assign x key =>
      by_cases hx : x ∈ a.elems
      · simp [Contents.step, hx] at hstep
      · simp only [Contents.step, if_neg hx, Option.some.injEq] at hstep
        subst hstep
        exact ⟨_, rfl, h.assign hx key⟩

/-- The elements of a sorted list on a machine of 64 bits: non-null addresses. -/
abbrev Element := { a : Fin (2 ^ 64) // a ≠ 0 }

theorem card_element : Fintype.card Element < 2 ^ 64 := by
  have hlt := Fintype.card_subtype_lt (p := fun a : Fin (2 ^ 64) => a ≠ 0) (x := 0) (by simp)
  rwa [Fintype.card_fin] at hlt

/-- The keys `obj`, and a new list. -/
def State.init (obj : A → K) : State A K := ⟨obj, SortedList.init A⟩

/-- The keys `obj`, and no elements. -/
def Contents.init (obj : A → K) : Contents A K := ⟨obj, ∅⟩

theorem represents_init (c : Compare K) (obj : A → K) :
    Represents c (State.init obj) (Contents.init obj) where
  obj_eq := rfl
  levelled := trivial
  sorted := List.Pairwise.nil
  mem_walk x := by simp [State.init, SortedList.init, walk, Contents.init]
  size_eq := rfl
  head_eq := rfl

theorem represents_run (c : Compare K) (obj : Element → K) (ops : List (Op Element K))
    (a : Contents Element K)
    (h : Transition.run Contents.step (Contents.init obj) ops = some a) :
    ∃ s, Transition.run (step c) (State.init obj) ops = some s ∧ Represents c s a := by
  have hstep : ∀ (s : State Element K) (a : Contents Element K) (op : Op Element K)
      (b : Contents Element K), Represents c s a → a.step op = some b →
      ∃ t, step c s op = some t ∧ Represents c t b :=
    fun _ _ _ _ hrep hs => represents_step card_element hrep hs
  exact Transition.run_simulation hstep (represents_init c obj) h

/-- Every sequence of operations on the set can be performed on the list, which then
is the set in order. -/
theorem ordered_set (c : Compare K) (obj : Element → K) (ops : List (Op Element K))
    (a : Contents Element K)
    (h : Transition.run Contents.step (Contents.init obj) ops = some a) :
    ∃ s, Transition.run (step c) (State.init obj) ops = some s ∧ s.obj = a.obj ∧
      s.list.walk.Pairwise (fun x y => c.less (s.obj x) (s.obj y) = true ∨
        (c.less (s.obj x) (s.obj y) = false ∧ c.less (s.obj y) (s.obj x) = false ∧
          x < y)) ∧
      s.list.walk.Nodup ∧ (∀ x, x ∈ s.list.walk ↔ x ∈ a.elems) ∧
      (∀ x, contains (keyLess c s.obj) x s.list = true ↔ x ∈ a.elems) ∧
      s.list.size = a.elems.card ∧ (s.list.empty = true ↔ a.elems = ∅) ∧
      s.list.head = lowest s.list.t ∧ (s.list.head = none ↔ a.elems = ∅) ∧
      ∀ m, s.list.head = some m → m ∈ a.elems ∧ ∀ x ∈ a.elems, x ≠ m →
        Before (keyLess c s.obj) m x := by
  obtain ⟨s, hrun, hrep⟩ := represents_run c obj ops a h
  have hempty : s.list.walk = [] ↔ a.elems = ∅ := by
    rw [Finset.eq_empty_iff_forall_notMem, List.eq_nil_iff_forall_not_mem]
    exact forall_congr' fun x => not_congr (hrep.mem_walk x)
  refine ⟨s, hrun, hrep.obj_eq, ?_, nodup_of_sorted hrep.sorted, hrep.mem_walk,
    hrep.contains_iff, hrep.size_eq, ?_, ?_, ?_, fun m hm => ?_⟩
  · exact hrep.sorted.imp fun {x y} hxy => (before_iff _ x y).1 hxy
  · rw [← hempty, walk, toList_eq_nil_iff]
    exact isNull_iff
  · rw [hrep.head_eq, lowest_eq_head?, walk]
  · rw [hrep.head_eq, List.head?_eq_none_iff, hempty]
  · rw [hrep.head_eq, List.head?_eq_some_iff] at hm
    obtain ⟨w, hw⟩ := hm
    have hsorted := hrep.sorted
    rw [hw, List.pairwise_cons] at hsorted
    refine ⟨(hrep.mem_walk m).1 (by rw [hw]; exact List.mem_cons_self), fun x hx hne => ?_⟩
    rw [← hrep.mem_walk, hw, List.mem_cons] at hx
    exact hsorted.1 x (hx.resolve_left hne)

/-- Natural numbers as keys. -/
def natCompare : Compare ℕ where
  less x y := decide (x < y)
  irrefl x := by simp
  trans x y z := by
    simp only [decide_eq_true_eq]
    exact Nat.lt_trans
  incomp_trans x y z := by
    simp only [decide_eq_false_iff_not]
    omega

/-- The element at address `n + 1`. -/
def element (n : ℕ) (h : n + 1 < 2 ^ 64) : Element :=
  ⟨⟨n + 1, h⟩, by simp [Fin.ext_iff]⟩

/-- Three elements, two of them with the same key. The head is erased, and comes back
with another key. -/
def rekeyed : List (Op Element ℕ) :=
  let x := element 1 (by decide)
  let y := element 2 (by decide)
  let z := element 3 (by decide)
  [.assign y 7, .assign z 7, .insert z, .insert x, .insert y, .erase x, .assign x 9, .insert x]

theorem ordered_set_rekeyed :
    ∃ s, Transition.run (step natCompare) (State.init fun _ => 0) rekeyed = some s ∧
      s.list.size = 3 ∧ s.list.walk.Nodup ∧
      contains (keyLess natCompare s.obj) (element 1 (by decide)) s.list = true := by
  obtain ⟨s, hrun, -, -, hnodup, -, hcontains, hsize, -⟩ :=
    ordered_set natCompare (fun _ => 0) rekeyed _ rfl
  exact ⟨s, hrun, hsize, hnodup, (hcontains _).2 (by decide)⟩

/-- The conditions of `check` on the levels, node by node. -/
def LevelsChecked : LevelTree A → Prop
  | nil => True
  | node l v _ r =>
      LevelsChecked l ∧ LevelsChecked r ∧ (l = nil → r = nil → v = 1) ∧
        (l ≠ nil → l.level + 1 = v) ∧ (r ≠ nil → r.level + 1 = v ∨ r.level = v) ∧
        (r ≠ nil → r.right ≠ nil → r.right.level < v) ∧ (2 ≤ v → l ≠ nil ∧ r ≠ nil)

omit [LinearOrder A] in
theorem ne_nil_of_level_pos {t : LevelTree A} (h : 0 < t.level) : t ≠ nil := by
  rintro rfl
  exact Nat.lt_irrefl 0 h

omit [LinearOrder A] in
theorem levelsChecked_of_levelled {t : LevelTree A} (h : t.Levelled) : LevelsChecked t := by
  induction t with
  | nil => trivial
  | node l v e r ihl ihr =>
      obtain ⟨hl, hr, hlv, hrv, hrr⟩ := h
      refine ⟨ihl hl, ihr hr, ?_, fun _ => hlv, fun _ => hrv.symm, fun _ _ => hrr, ?_⟩
      · rintro rfl -
        exact hlv.symm
      · intro hv
        exact ⟨ne_nil_of_level_pos (by omega), ne_nil_of_level_pos (by omega)⟩

/-- Every sequence of operations on the set can be performed on the list, without a
failing assertion on a level, and leaves a balanced tree: its size is at least
exponential in the level of the root, and its depth at most twice that level. -/
theorem balanced (c : Compare K) (obj : Element → K) (ops : List (Op Element K))
    (a : Contents Element K)
    (h : Transition.run Contents.step (Contents.init obj) ops = some a) :
    ∃ s, Transition.run (step c) (State.init obj) ops = some s ∧ LevelsChecked s.list.t ∧
      2 ^ s.list.t.level - 1 ≤ s.list.t.size ∧ s.list.t.size = a.elems.card ∧
      s.list.t.depth ≤ 2 * s.list.t.level ∧ s.list.t.level ≤ 64 := by
  obtain ⟨s, hrun, hrep⟩ := represents_run c obj ops a h
  have hcard : a.elems.card < 2 ^ 64 :=
    Nat.lt_of_le_of_lt (Finset.card_le_univ a.elems) card_element
  refine ⟨s, hrun, levelsChecked_of_levelled hrep.levelled, ?_, hrep.size_tree,
    hrep.levelled.depth_le, hrep.level_le hcard⟩
  have hpow := hrep.levelled.two_pow_level_le
  omega

theorem balanced_rekeyed :
    ∃ s, Transition.run (step natCompare) (State.init fun _ => 0) rekeyed = some s ∧
      LevelsChecked s.list.t ∧ s.list.t.size = 3 := by
  obtain ⟨s, hrun, hlevels, -, hsize, -⟩ := balanced natCompare (fun _ => 0) rekeyed _ rfl
  exact ⟨s, hrun, hlevels, hsize⟩

end SortedList

end Zth
