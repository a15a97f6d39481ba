import Zth.List.Sequence

/-!
# The iterators that insertions return

`push_back`, `push_front` and `insert` return an iterator to the element they have put in.
An iterator is at the first element of a list when its current pointer is null, and at the
end when it is the head. `push_back` and `insert` in front of the first element take care of
that and return `begin()`. `push_front`, and `insert` in an empty list, return the new head
as the current element of an iterator that starts at this head: this is the end.
-/

namespace Zth

namespace LinkedList

variable {E U : Type*}

/-- The ways to put an element in. A position is the number of steps from the begin. -/
inductive Insertion (E : Type*) where
  | pushBack (e : E)
  | pushFront (e : E)
  | insert (pos : ℕ) (e : E)
deriving DecidableEq, Repr

namespace Insertion

/-- The element that is put in. -/
def elem : Insertion E → E
  | pushBack e | pushFront e | insert _ e => e

/-- Where the element is put in a sequence. -/
def index (l : List E) : Insertion E → ℕ
  | pushBack _ => l.length
  | pushFront _ => 0
  | insert pos _ => pos

def op : Insertion E → Op E
  | pushBack e => .pushBack e
  | pushFront e => .pushFront e
  | insert pos e => .insert pos e

/-- The element may be put in a sequence there. -/
structure Allowed (l : List E) (i : Insertion E) : Prop where
  notMem : i.elem ∉ l
  index_le : i.index l ≤ l.length

/-- The iterator that is returned is at the element. -/
def AtElem (l : List E) : Insertion E → Prop
  | pushBack _ => True
  | pushFront _ => False
  | insert _ _ => l ≠ []

variable [DecidableEq E]

/-- The insertion with the iterator that it returns. -/
def perform [Inhabited U] (enableAssert : Bool) (s : LinkedList E U) :
    Insertion E → Option (LinkedList E U × Iterator E)
  | pushBack e => LinkedList.pushBack enableAssert e s
  | pushFront e => LinkedList.pushFront enableAssert e s
  | insert pos e =>
      (advance enableAssert s pos s.begin).bind fun it =>
        LinkedList.insert enableAssert it e s

end Insertion

variable [DecidableEq E]

/-- The iterator goes through the elements `l`, and is at the end of the list then. -/
def Walks (enableAssert : Bool) (s : LinkedList E U) : List E → Iterator E → Prop
  | [], it => it.eq s.atEnd = true
  | e :: l, it =>
      it.eq s.atEnd = false ∧ it.get enableAssert false = some e ∧
        ∃ it', it.next enableAssert false s.links = some it' ∧ Walks enableAssert s l it'

variable {enableAssert : Bool} {s t : LinkedList E U} {l : List E} {e : E} {it : Iterator E}

/-- An iterator that goes through some element is not at the end. -/
theorem not_walks_atEnd : ¬ Walks enableAssert s (e :: l) s.atEnd := by
  rintro ⟨h, -⟩
  simp [Iterator.eq, LinkedList.atEnd, Iterator.atEnd] at h

/-- From a position on, the elements behind it are gone through. -/
theorem Represents.walks_iteratorAt (h : Represents enableAssert s l) {k : ℕ}
    (hk : k ≤ l.length) : Walks enableAssert s (l.drop k) (iteratorAt l k) := by
  induction hd : l.drop k generalizing k with
  | nil =>
      rw [Walks, h.eq_atEnd, decide_eq_true_eq]
      exact List.drop_eq_nil_iff.1 hd
  | cons x xs ih =>
      have hlt : k < l.length := by
        by_contra hge
        rw [List.drop_eq_nil_of_le (not_lt.1 hge)] at hd
        cases hd
      rw [List.drop_eq_getElem_cons hlt] at hd
      obtain ⟨rfl, hxs⟩ := List.cons.inj hd
      refine ⟨?_, h.get_iteratorAt hlt, _, h.next_iteratorAt hlt, ih hlt hxs⟩
      rw [h.eq_atEnd, decide_eq_false_iff_not]
      exact Nat.not_le.2 hlt

omit [DecidableEq E] in
theorem insertIdx_eq_take_append {k : ℕ} (hk : k ≤ l.length) :
    l.insertIdx k e = l.take k ++ e :: l.drop k := by
  have h := insertIdx_length_append (l.take k) (l.drop k) e
  rwa [List.take_append_drop, List.length_take_of_le hk] at h

namespace Insertion

variable [Inhabited U] {i : Insertion E}

/-- As an operation on the list, the iterator apart. -/
theorem step_op (enableAssert : Bool) (fuel : ℕ) (s : LinkedList E U) (i : Insertion E) :
    step enableAssert fuel s i.op = (i.perform enableAssert s).map Prod.fst := by
  cases i with
  | pushBack e => rfl
  | pushFront e => rfl
  | insert pos e =>
      rw [op, step, perform, Option.map_bind]
      rfl

omit [Inhabited U] in
/-- As an operation on the sequence. -/
theorem Allowed.apply_op (h : i.Allowed l) :
    i.op.apply l = some (l.insertIdx (i.index l) i.elem) := by
  cases i with
  | pushBack e =>
      have he : e ∉ l := h.notMem
      simp [op, Op.apply, index, elem, he, List.insertIdx_length_self]
  | pushFront e =>
      have he : e ∉ l := h.notMem
      simp [op, Op.apply, index, elem, he]
  | insert pos e =>
      have he : e ∉ l := h.notMem
      have hpos : pos ≤ l.length := h.index_le
      simp [op, Op.apply, index, elem, he, Nat.not_lt.2 hpos]

end Insertion

section Returned

variable [Inhabited U]

/-- `push_back` returns the begin, if the list was empty. -/
theorem iterator_of_pushBack (ht : pushBack enableAssert e s = some (t, it)) :
    it = if s.mTail = none then t.begin else ⟨t.mHead, some e⟩ := by
  obtain ⟨_, -, ht⟩ := Option.bind_eq_some_iff.1 ht
  dsimp only at ht
  cases hm : (s.setUser e default).mTail with
  | none =>
      rw [hm] at ht
      obtain ⟨_, -, ht⟩ := Option.map_eq_some_iff.1 ht
      cases ht
      exact (if_pos hm).symm
  | some tail =>
      rw [hm] at ht
      obtain ⟨_, -, ht⟩ := Option.map_eq_some_iff.1 ht
      cases ht
      exact (if_neg (by rw [show s.mTail = some tail from hm]; simp)).symm

/-- `push_front` returns the end. -/
theorem iterator_of_pushFront (ht : pushFront enableAssert e s = some (t, it)) :
    it = t.atEnd := by
  obtain ⟨_, -, ht⟩ := Option.bind_eq_some_iff.1 ht
  dsimp only at ht
  cases hm : (s.setUser e default).mHead with
  | none =>
      rw [hm] at ht
      obtain ⟨_, -, ht⟩ := Option.map_eq_some_iff.1 ht
      cases ht
      rfl
  | some head =>
      rw [hm] at ht
      obtain ⟨_, -, ht⟩ := Option.map_eq_some_iff.1 ht
      cases ht
      rfl

/-- `insert` returns the begin, if it puts the element in front of the first one. -/
theorem iterator_of_insert {pos : Iterator E}
    (ht : insert enableAssert pos e s = some (t, it)) :
    it = if pos.atEnd = false ∧ pos.atBegin = true then t.begin else ⟨t.mHead, some e⟩ := by
  rw [insert] at ht
  cases hend : pos.atEnd with
  | true =>
      rw [hend, if_pos rfl] at ht
      obtain ⟨⟨u, it'⟩, -, ht⟩ := Option.map_eq_some_iff.1 ht
      cases ht
      simp
  | false =>
      rw [hend, if_neg Bool.false_ne_true] at ht
      cases hbegin : pos.atBegin with
      | true =>
          rw [hbegin, if_pos rfl] at ht
          obtain ⟨⟨u, it'⟩, -, ht⟩ := Option.map_eq_some_iff.1 ht
          cases ht
          simp
      | false =>
          rw [hbegin, if_neg Bool.false_ne_true] at ht
          obtain ⟨_, -, ht⟩ := Option.bind_eq_some_iff.1 ht
          obtain ⟨_, -, ht⟩ := Option.map_eq_some_iff.1 ht
          cases ht
          simp [setUser]

end Returned

omit [DecidableEq E] in
/-- An element behind the first one is a position with this current element. -/
theorem Represents.iteratorAt_eq (h : Represents enableAssert s l) {k : ℕ} (hk : 0 < k)
    (he : l[k]? = some e) : iteratorAt l k = ⟨s.mHead, some e⟩ := by
  rw [iteratorAt, if_neg hk.ne', he, h.head, Option.some_or]

omit [DecidableEq E] in
theorem Represents.atEnd_of_head (h : Represents enableAssert s (e :: l)) :
    s.atEnd = ⟨s.mHead, some e⟩ := by
  rw [LinkedList.atEnd, h.head, List.head?_cons]

namespace Insertion

variable [Inhabited U] {i : Insertion E}

/-- An insertion that returns the position of the element, or the end. -/
theorem iterator_of_perform (h : Represents enableAssert s l) (hi : i.Allowed l)
    (ht : i.perform enableAssert s = some (t, it))
    (hrep : Represents enableAssert t (l.insertIdx (i.index l) i.elem)) :
    (i.AtElem l → it = iteratorAt (l.insertIdx (i.index l) i.elem) (i.index l)) ∧
      (¬ i.AtElem l → it = t.atEnd) := by
  have hget : (l.insertIdx (i.index l) i.elem)[i.index l]? = some i.elem :=
    List.getElem?_insertIdx_self.trans (if_pos hi.index_le)
  cases i with
  | pushBack e =>
      refine ⟨fun _ => ?_, fun hno => absurd trivial hno⟩
      rw [iterator_of_pushBack ht, h.tail]
      cases l with
      | nil => exact hrep.begin_eq
      | cons x l =>
          rw [if_neg (by simp)]
          exact (hrep.iteratorAt_eq (Nat.zero_lt_succ _) hget).symm
  | pushFront e => exact ⟨False.elim, fun _ => iterator_of_pushFront ht⟩
  | insert pos e =>
      have hpos : pos ≤ l.length := hi.index_le
      rw [perform, h.begin_eq, h.advance_iteratorAt (by omega), Option.bind_some,
        Nat.zero_add] at ht
      rw [iterator_of_insert ht, atEnd_iteratorAt h.nodup]
      cases l with
      | nil =>
          obtain rfl : pos = 0 := Nat.le_zero.1 hpos
          refine ⟨fun hne => absurd rfl hne, fun _ => ?_⟩
          rw [if_neg (by simp)]
          exact hrep.atEnd_of_head.symm
      | cons x l =>
          refine ⟨fun _ => ?_, fun hno => absurd (List.cons_ne_nil x l) hno⟩
          cases pos with
          | zero =>
              rw [if_pos ⟨by simp, atBegin_iteratorAt_zero (List.cons_ne_nil x l)⟩]
              exact hrep.begin_eq
          | succ pos =>
              have hmiddle : ¬ (decide ((x :: l).length ≤ pos + 1) = false ∧
                  (iteratorAt (x :: l) (pos + 1)).atBegin = true) := by
                rintro ⟨hend, hbegin⟩
                have hlt : pos + 1 < (x :: l).length := by simpa using hend
                rw [atBegin_iteratorAt_succ hlt] at hbegin
                cases hbegin
              rw [if_neg hmiddle]
              exact (hrep.iteratorAt_eq (Nat.zero_lt_succ pos) hget).symm

/-- An insertion that is allowed succeeds, and the iterator it returns goes through the
element and those that follow it, exactly when it is none of those that return the end. -/
theorem perform_walks_iff (h : Represents enableAssert s l) {fuel : ℕ} (hf : l.length < fuel)
    (hi : i.Allowed l) :
    ∃ t it, i.perform enableAssert s = some (t, it) ∧
      Represents enableAssert t (l.insertIdx (i.index l) i.elem) ∧
      (Walks enableAssert t (i.elem :: l.drop (i.index l)) it ↔ i.AtElem l) := by
  obtain ⟨t, ht, hrep⟩ := h.step hf hi.apply_op
  rw [step_op, Option.map_eq_some_iff] at ht
  obtain ⟨⟨t', it⟩, ht, rfl⟩ := ht
  refine ⟨t', it, ht, hrep, ?_⟩
  obtain ⟨hat, hend⟩ := iterator_of_perform h hi ht hrep
  have hle : i.index l ≤ (l.insertIdx (i.index l) i.elem).length := by
    rw [List.length_insertIdx_of_le_length hi.index_le]
    exact Nat.le_succ_of_le hi.index_le
  have hdrop : (l.insertIdx (i.index l) i.elem).drop (i.index l) =
      i.elem :: l.drop (i.index l) := by
    rw [insertIdx_eq_take_append hi.index_le]
    exact List.drop_left' (List.length_take_of_le hi.index_le)
  constructor
  · intro hwalks
    by_contra hno
    rw [hend hno] at hwalks
    exact not_walks_atEnd hwalks
  · intro hyes
    rw [hat hyes, ← hdrop]
    exact hrep.walks_iteratorAt hle

/-- Whatever was done to a list before, an insertion that is allowed succeeds, and the
iterator it returns is at the element and goes on through those that follow it, except
that of `push_front`, and of `insert` in an empty list. -/
theorem returned_designates_iff (enableAssert : Bool) (ops : List (Op E)) (l : List E)
    (hr : Transition.run Op.apply [] ops = some l) (i : Insertion E) (hi : i.Allowed l) :
    ∃ n, ∀ fuel, n ≤ fuel → ∃ (s t : LinkedList E U) (it : Iterator E),
      Transition.run (step enableAssert fuel) (new E U) ops = some s ∧
      i.perform enableAssert s = some (t, it) ∧
      (Walks enableAssert t (i.elem :: l.drop (i.index l)) it ↔ i.AtElem l) := by
  refine ⟨ops.length + 1, fun fuel hfuel => ?_⟩
  have hlt : ([] : List E).length + ops.length < fuel := by
    rw [List.length_nil]
    omega
  obtain ⟨s, hs, h, hf⟩ := (represents_new (E := E) (U := U) enableAssert).run hlt hr
  obtain ⟨t, it, ht, -, hwalks⟩ := perform_walks_iff h hf hi
  exact ⟨s, t, it, hs, ht, hwalks⟩

/-- An element is inserted between the two of a list, which `push_front` has been used for. -/
theorem returned_designates_iff_between :
    Transition.run Op.apply [] [.pushBack 1, .pushFront 2] = some [2, 1] ∧
      ∃ n, ∀ fuel, n ≤ fuel → ∃ (s t : LinkedList ℕ Unit) (it : Iterator ℕ),
        Transition.run (step true fuel) (new ℕ Unit) [.pushBack 1, .pushFront 2] = some s ∧
        (insert 1 3).perform true s = some (t, it) ∧ Walks true t [3, 1] it := by
  have hr : Transition.run Op.apply [] [.pushBack 1, .pushFront 2] = some [2, 1] := by decide
  have hi : (insert 1 3).Allowed [2, 1] := ⟨by decide, by decide⟩
  obtain ⟨n, h⟩ := returned_designates_iff (U := Unit) true _ _ hr (insert 1 3) hi
  refine ⟨hr, n, fun fuel hfuel => ?_⟩
  obtain ⟨s, t, it, hs, ht, hwalks⟩ := h fuel hfuel
  exact ⟨s, t, it, hs, ht, hwalks.2 (List.cons_ne_nil 2 [1])⟩

/-- In front of one element, and in an empty list, the end is returned. -/
theorem not_designates_front :
    (∃ (s t : LinkedList ℕ Unit) (it : Iterator ℕ),
      step true 2 (new ℕ Unit) (.pushBack 1) = some s ∧
      (pushFront 2).perform true s = some (t, it) ∧ it.eq t.atEnd = true ∧
      ¬ Walks true t [2, 1] it) ∧
    ∃ (t : LinkedList ℕ Unit) (it : Iterator ℕ),
      (insert 0 1).perform true (new ℕ Unit) = some (t, it) ∧ it.eq t.atEnd = true ∧
      ¬ Walks true t [1] it := by
  refine ⟨⟨_, _, _, rfl, rfl, rfl, ?_⟩, _, _, rfl, rfl, ?_⟩
  · exact not_walks_atEnd
  · exact not_walks_atEnd

end Insertion

end LinkedList

end Zth
