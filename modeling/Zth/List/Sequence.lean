import Zth.List.Linked

/-!
# The linked list is a sequence

Every operation on the linked structure of a sequence succeeds when its arguments allow
it, and leaves the structure of the sequence that it is meant to give. The functions that
only look at a list return what they return for the sequence, and their loops end.
-/

namespace Zth

namespace LinkedList

variable {E U : Type*} {enableAssert : Bool} {s : LinkedList E U} {l : List E} {e : E}

@[simp] theorem check_true (enableAssert : Bool) : check enableAssert true = some () := by
  simp [check]

theorem insertIdx_length_append (a b : List E) (e : E) :
    (a ++ b).insertIdx a.length e = a ++ e :: b := by
  induction a with
  | nil => rfl
  | cons x a ih => simp [ih]

/-- The position that many steps behind the begin. -/
def iteratorAt (l : List E) (k : ℕ) : Iterator E :=
  ⟨l.head?, if k = 0 then none else l[k]?.or l.head?⟩

theorem iteratorAt_zero (l : List E) : iteratorAt l 0 = ⟨l.head?, none⟩ := rfl

theorem iteratorAt_succ (l : List E) (k : ℕ) :
    iteratorAt l (k + 1) = ⟨l.head?, l[k + 1]?.or l.head?⟩ := rfl

theorem atBegin_iteratorAt_zero (hl : l ≠ []) : (iteratorAt l 0).atBegin = true := by
  simpa [iteratorAt, Iterator.atBegin, List.isSome_head?] using hl

theorem atBegin_iteratorAt_succ {k : ℕ} (hk : k + 1 < l.length) :
    (iteratorAt l (k + 1)).atBegin = false := by
  simp [iteratorAt, Iterator.atBegin, List.getElem?_eq_getElem hk]

theorem position_iteratorAt {k : ℕ} (hk : k < l.length) :
    (iteratorAt l k).position = some l[k] := by
  cases k with
  | zero =>
      rw [Iterator.position, atBegin_iteratorAt_zero (List.ne_nil_of_length_pos hk), if_pos rfl,
        ← List.head?_eq_getElem?.trans (List.getElem?_eq_getElem hk)]
      rfl
  | succ k =>
      rw [Iterator.position, atBegin_iteratorAt_succ hk, if_neg Bool.false_ne_true,
        iteratorAt_succ, List.getElem?_eq_getElem hk, Option.some_or]

variable [DecidableEq E]

/-- Only the position behind the last element is the end. -/
theorem atEnd_iteratorAt (hn : l.Nodup) (k : ℕ) :
    (iteratorAt l k).atEnd = decide (l.length ≤ k) := by
  rw [Iterator.atEnd, decide_eq_decide]
  by_cases hk : k < l.length
  · refine iff_of_false ?_ (not_le.2 hk)
    have hhead : l.head? = some (l[0]) :=
      List.head?_eq_getElem?.trans (List.getElem?_eq_getElem (Nat.zero_lt_of_lt hk))
    cases k with
    | zero => simp [iteratorAt, hhead]
    | succ k =>
        rw [iteratorAt_succ, List.getElem?_eq_getElem hk, hhead]
        simp [hn.getElem_inj_iff]
  · refine iff_of_true ?_ (not_lt.1 hk)
    cases k with
    | zero => simp_all [iteratorAt]
    | succ k => rw [iteratorAt_succ, List.getElem?_eq_none (not_lt.1 hk), Option.none_or]

namespace Represents

omit [DecidableEq E] in
theorem begin_eq (h : Represents enableAssert s l) : s.begin = iteratorAt l 0 := by
  rw [begin, h.head, iteratorAt_zero]

theorem eq_atEnd (h : Represents enableAssert s l) (k : ℕ) :
    (iteratorAt l k).eq s.atEnd = decide (l.length ≤ k) := by
  have hend : s.atEnd.atEnd = true := by simp [LinkedList.atEnd, Iterator.atEnd]
  rw [Iterator.eq, atEnd_iteratorAt h.nodup, hend]
  simp

theorem get_iteratorAt (h : Represents enableAssert s l) {k : ℕ} (hk : k < l.length) :
    (iteratorAt l k).get enableAssert false = some l[k] := by
  rw [Iterator.get, atEnd_iteratorAt h.nodup, position_iteratorAt hk]
  simp [not_le.2 hk]

theorem next_iteratorAt (h : Represents enableAssert s l) {k : ℕ} (hk : k < l.length) :
    (iteratorAt l k).next enableAssert false s.links = some (iteratorAt l (k + 1)) := by
  have hstart : (iteratorAt l k).mStart.isSome = true :=
    List.isSome_head?.2 (List.ne_nil_of_length_pos (Nat.zero_lt_of_lt hk))
  rw [Iterator.next, atEnd_iteratorAt h.nodup, position_iteratorAt hk, hstart, Option.map_some,
    h.ring.next_getElem hk]
  simp [not_le.2 hk, iteratorAt]

theorem advance_iteratorAt (h : Represents enableAssert s l) {k n : ℕ}
    (hk : k + n ≤ l.length) :
    advance enableAssert s n (iteratorAt l k) = some (iteratorAt l (k + n)) := by
  induction n generalizing k with
  | zero => rfl
  | succ n ih =>
      have hsum : k + (n + 1) = k + 1 + n := by omega
      rw [advance, h.next_iteratorAt (by omega), Option.bind_some, ih (by omega), hsum]

/-- The loop of `contains`, from a position on. -/
theorem containsLoop_eq (h : Represents enableAssert s l) (e : E) {k n : ℕ}
    (hk : k ≤ l.length) (hn : l.length - k < n) :
    containsLoop enableAssert e s n (iteratorAt l k) = some (decide (e ∈ l.drop k)) := by
  induction n generalizing k with
  | zero => omega
  | succ n ih =>
      rw [containsLoop, h.eq_atEnd]
      by_cases hend : l.length ≤ k
      · simp [hend, List.drop_eq_nil_of_le hend]
      · have hlt := not_le.1 hend
        have hmem : e ∈ l.drop k ↔ e = l[k] ∨ e ∈ l.drop (k + 1) := by
          rw [List.drop_eq_getElem_cons hlt, List.mem_cons]
        rw [if_neg (by simpa using hlt), h.get_iteratorAt hlt, h.next_iteratorAt hlt,
          Option.bind_some, Option.bind_some, ih hlt (by omega)]
        by_cases he : l[k] = e
        · simp [hmem, he]
        · simp [hmem, he, Ne.symm he]

theorem contains_eq (h : Represents enableAssert s l) {fuel : ℕ} (hf : l.length < fuel)
    (e : E) : contains enableAssert fuel e s = some (decide (e ∈ l)) := by
  rw [contains, h.begin_eq, h.containsLoop_eq e (Nat.zero_le _) (by omega), List.drop_zero]

/-- The loop of `size`, from a position on. -/
theorem sizeLoop_eq (h : Represents enableAssert s l) {k n : ℕ} (res : ℕ)
    (hk : k ≤ l.length) (hn : l.length - k < n) :
    sizeLoop enableAssert s n res (iteratorAt l k) = some (res + (l.length - k)) := by
  induction n generalizing k res with
  | zero => omega
  | succ n ih =>
      rw [sizeLoop, h.eq_atEnd]
      by_cases hend : l.length ≤ k
      · have : l.length - k = 0 := by omega
        simp [hend, this]
      · have hlt := not_le.1 hend
        rw [if_neg (by simpa using hlt), h.next_iteratorAt hlt, Option.bind_some,
          ih (res + 1) hlt (by omega)]
        congr 1
        omega

theorem size_eq (h : Represents enableAssert s l) {fuel : ℕ} (hf : l.length < fuel) :
    size enableAssert fuel s = some l.length := by
  rw [size, h.begin_eq, h.sizeLoop_eq 0 (Nat.zero_le _) (by omega)]
  simp

omit [DecidableEq E] in
theorem empty_eq (h : Represents enableAssert s l) :
    empty enableAssert s = some l.isEmpty := by
  rw [empty, h.head, h.tail]
  cases l <;> simp

omit [DecidableEq E] in
theorem front_eq (h : Represents enableAssert s l) : front enableAssert s = l.head? := by
  rw [front, h.empty_eq, h.head]
  cases l <;> simp

omit [DecidableEq E] in
theorem back_eq (h : Represents enableAssert s l) : back enableAssert s = l.getLast? := by
  rw [back, h.empty_eq, h.tail]
  cases l <;> simp

theorem checkContains_eq (h : Represents enableAssert s l) {fuel : ℕ} (hf : l.length < fuel)
    (he : e ∈ l) : checkContains enableAssert fuel e s = some () := by
  rw [checkContains, h.contains_eq hf]
  simp [he]

omit [DecidableEq E] in
theorem checkUnlinked_eq (h : Represents enableAssert s l) (he : e ∉ l) :
    checkUnlinked enableAssert e s = some () := by
  cases enableAssert with
  | false => simp [checkUnlinked, check]
  | true =>
      obtain ⟨hnext, hprev⟩ := h.unlinked rfl e he
      simp [checkUnlinked, hnext, hprev]

/-- The links of an element that is put in, next to two elements of the list. -/
theorem unlinked_splice (h : Represents enableAssert s l) {p y : E} (hp : p ∈ l) (hy : y ∈ l)
    {l' : List E} (hl : ∀ x, x ∈ l' ↔ x = e ∨ x ∈ l) (ha : enableAssert = true) (x : E)
    (hx : x ∉ l') :
    (s.links.splice e p y).next x = none ∧ (s.links.splice e p y).prev x = none := by
  rw [hl, not_or] at hx
  have hxp : x ≠ p := fun hxp => hx.2 (hxp ▸ hp)
  have hxy : x ≠ y := fun hxy => hx.2 (hxy ▸ hy)
  have hold := h.unlinked ha x hx.2
  simpa [Ring.Links.splice, Function.update_of_ne hx.1, Function.update_of_ne hxp,
    Function.update_of_ne hxy] using hold

variable [Inhabited U]

/-- The first element of a list. -/
theorem singleton (h : Represents enableAssert s []) (e : E) :
    Represents enableAssert { s.setUser e default with
      links := s.links.join e e, mHead := some e, mTail := some e } [e] where
  nodup := List.nodup_singleton e
  ring := Ring.Links.isRing_singleton_iff.2 (by simp [Ring.Links.Joined, Ring.Links.join])
  head := rfl
  tail := rfl
  unlinked ha x hx := by
    have hxe : x ≠ e := by simpa using hx
    simpa [Ring.Links.join, Function.update_of_ne hxe] using h.unlinked ha x (by simp)

theorem pushBack (h : Represents enableAssert s l) (he : e ∉ l) :
    ∃ t it, LinkedList.pushBack enableAssert e s = some (t, it) ∧
      Represents enableAssert t (l ++ [e]) := by
  rw [LinkedList.pushBack, h.checkUnlinked_eq he, Option.bind_some]
  cases l with
  | nil =>
      have htail : (s.setUser e default).mTail = none := h.tail
      have hhead : (s.setUser e default).mHead = none := h.head
      simp only [htail, hhead, Option.isNone_none, check_true, Option.map_some]
      exact ⟨_, _, rfl, h.singleton e⟩
  | cons y l =>
      obtain ⟨p, hp⟩ : ∃ p, (y :: l).getLast? = some p :=
        ⟨_, List.getLast?_eq_some_getLast (by simp)⟩
      have htail : (s.setUser e default).mTail = some p := h.tail.trans hp
      have hnext : (s.setUser e default).links.next p = some y := h.ring.next_last hp
      simp only [htail, hnext, Option.map_some]
      refine ⟨_, _, rfl, ?_, ?_, h.head, ?_, ?_⟩
      · exact List.nodup_append_comm.1 (List.nodup_cons.2 ⟨he, h.nodup⟩)
      · refine (h.ring.splice h.nodup he hp).of_isRotated ?_
        exact (Ring.Links.isRotated_append_cons (y :: l) [] e).symm
      · rw [List.getLast?_append_of_ne_nil _ (by simp), List.getLast?_singleton]
      · exact h.unlinked_splice (List.mem_of_mem_getLast? hp) List.mem_cons_self
          (by simp [or_comm, or_left_comm])

theorem pushFront (h : Represents enableAssert s l) (he : e ∉ l) :
    ∃ t it, LinkedList.pushFront enableAssert e s = some (t, it) ∧
      Represents enableAssert t (e :: l) := by
  rw [LinkedList.pushFront, h.checkUnlinked_eq he, Option.bind_some]
  cases l with
  | nil =>
      have htail : (s.setUser e default).mTail = none := h.tail
      have hhead : (s.setUser e default).mHead = none := h.head
      simp only [htail, hhead, Option.isNone_none, check_true, Option.map_some]
      exact ⟨_, _, rfl, h.singleton e⟩
  | cons y l =>
      obtain ⟨p, hp⟩ : ∃ p, (y :: l).getLast? = some p :=
        ⟨_, List.getLast?_eq_some_getLast (by simp)⟩
      have hhead : (s.setUser e default).mHead = some y := h.head
      have hprev : (s.setUser e default).links.prev y = some p := h.ring.prev_head hp
      simp only [hhead, hprev, Option.map_some]
      refine ⟨_, _, rfl, List.nodup_cons.2 ⟨he, h.nodup⟩, h.ring.splice h.nodup he hp, rfl, ?_, ?_⟩
      · exact h.tail.trans List.getLast?_cons_cons.symm
      · exact h.unlinked_splice (List.mem_of_mem_getLast? hp) List.mem_cons_self (by simp)

/-- An element is inserted in front of another one, which is not the first. -/
theorem insertMiddle {a b : List E} {y : E} (h : Represents enableAssert s (a ++ y :: b))
    (ha : a ≠ []) (he : e ∉ a ++ y :: b) :
    ∃ p, s.links.prev y = some p ∧
      Represents enableAssert { s.setUser e default with links := s.links.splice e p y }
        (a ++ e :: y :: b) := by
  have hy : y ∈ a ++ y :: b := by simp
  obtain ⟨p, hpmem, -, -, hp, -⟩ := h.ring.exists_neighbours hy
  have hperm : (a ++ e :: y :: b).Perm (e :: (a ++ y :: b)) := List.perm_middle
  refine ⟨p, hp, hperm.nodup_iff.2 (List.nodup_cons.2 ⟨he, h.nodup⟩),
    h.ring.insert h.nodup he hp, ?_, ?_, ?_⟩
  · refine h.head.trans ?_
    rw [List.head?_append_of_ne_nil _ ha, List.head?_append_of_ne_nil _ ha]
  · refine h.tail.trans ?_
    rw [List.getLast?_append_of_ne_nil _ (by simp), List.getLast?_append_of_ne_nil _ (by simp),
      List.getLast?_cons_cons]
  · exact h.unlinked_splice hpmem hy fun x => by rw [hperm.mem_iff, List.mem_cons]

theorem insert (h : Represents enableAssert s l) (he : e ∉ l) {k : ℕ} (hk : k ≤ l.length) :
    ∃ t it, LinkedList.insert enableAssert (iteratorAt l k) e s = some (t, it) ∧
      Represents enableAssert t (l.insertIdx k e) := by
  rw [LinkedList.insert, atEnd_iteratorAt h.nodup]
  by_cases hend : l.length ≤ k
  · obtain ⟨t, it, ht, hrep⟩ := h.pushBack he
    obtain rfl : k = l.length := Nat.le_antisymm hk hend
    rw [if_pos (by simp), ht, List.insertIdx_length_self]
    exact ⟨_, _, rfl, hrep⟩
  · have hlt := not_le.1 hend
    rw [if_neg (by simpa using hlt)]
    cases k with
    | zero =>
        obtain ⟨t, it, ht, hrep⟩ := h.pushFront he
        rw [if_pos (atBegin_iteratorAt_zero (List.ne_nil_of_length_pos hlt)), ht,
          List.insertIdx_zero]
        exact ⟨_, _, rfl, hrep⟩
    | succ k =>
        have hsplit : l = l.take (k + 1) ++ l[k + 1] :: l.drop (k + 2) := by
          rw [List.getElem_cons_drop, List.take_append_drop]
        have hlen : (l.take (k + 1)).length = k + 1 := List.length_take_of_le hk
        have hins := insertIdx_length_append (l.take (k + 1)) (l[k + 1] :: l.drop (k + 2)) e
        rw [← hsplit, hlen] at hins
        have hne : l.take (k + 1) ≠ [] := by
          intro hnil
          simp [hnil] at hlen
        have hrep := h
        rw [hsplit] at hrep
        obtain ⟨p, hp, ht⟩ := hrep.insertMiddle hne (by rwa [← hsplit])
        rw [atBegin_iteratorAt_succ hlt, if_neg Bool.false_ne_true, h.get_iteratorAt hlt,
          Option.bind_some, hp, hins]
        exact ⟨_, _, rfl, ht⟩

omit [Inhabited U]

/-- An element that is not alone is taken out, where the head and the tail are set to
those of the rest. -/
theorem unlink {a b : List E} (h : Represents enableAssert s (a ++ e :: b)) (hab : a ++ b ≠ [])
    {head tail : Option E} (hhead : head = (a ++ b).head?) (htail : tail = (a ++ b).getLast?) :
    ∃ t u, (LinkedList.unlink e { s with mHead := head, mTail := tail }).map
        (release enableAssert e) = some (t, u) ∧ Represents enableAssert t (a ++ b) := by
  have he : e ∈ a ++ e :: b := by simp
  obtain ⟨p, hpmem, y, hymem, hp, hy⟩ := h.ring.exists_neighbours he
  have hring := h.ring.remove h.nodup hab hp hy
  have hperm : (a ++ e :: b).Perm (e :: (a ++ b)) := List.perm_middle
  obtain ⟨heab, hnodup⟩ := List.nodup_cons.1 (hperm.nodup_iff.1 h.nodup)
  simp only [LinkedList.unlink, hp, hy, Option.bind_some, Option.map_some]
  refine ⟨_, _, rfl, hnodup, ?_, ?_, ?_, ?_⟩
  · cases enableAssert with
    | false => exact hring
    | true => exact hring.clear heab
  · cases enableAssert <;> exact hhead
  · cases enableAssert <;> exact htail
  · rintro rfl x hx
    by_cases hxe : x = e
    · subst hxe
      simp [Ring.Links.clear]
    · have hxl : x ∉ a ++ e :: b := by
        rw [hperm.mem_iff, List.mem_cons, not_or]
        exact ⟨hxe, hx⟩
      have hold := h.unlinked rfl x hxl
      have hxp : x ≠ p := fun hxp => hxl (hxp ▸ hpmem)
      have hxy : x ≠ y := fun hxy => hxl (hxy ▸ hymem)
      simpa [Ring.Links.clear, Ring.Links.join, Function.update_of_ne hxe,
        Function.update_of_ne hxp, Function.update_of_ne hxy] using hold

/-- The only element is taken out. -/
theorem popLast (h : Represents enableAssert s [e]) :
    ∃ t u, (LinkedList.popLast enableAssert e s).map (release enableAssert e) = some (t, u) ∧
      Represents enableAssert t [] := by
  obtain ⟨hnext, hprev⟩ := Ring.Links.isRing_singleton_iff.1 h.ring
  simp only [LinkedList.popLast, hnext, hprev, decide_true, check_true, Option.bind_some,
    Option.map_some]
  refine ⟨_, _, rfl, List.nodup_nil, Ring.Links.isRing_nil _, ?_, ?_, ?_⟩
  · cases enableAssert <;> rfl
  · cases enableAssert <;> rfl
  · rintro rfl x -
    by_cases hxe : x = e
    · subst hxe
      simp [Ring.Links.clear]
    · have hx := h.unlinked rfl x (by simpa using hxe)
      simpa [Ring.Links.clear, Function.update_of_ne hxe] using hx

omit [DecidableEq E] in
/-- The head is the tail of a list with one element only. -/
theorem tail_ne_head {x y : E} (h : Represents enableAssert s (x :: y :: l)) :
    s.mTail ≠ s.mHead := by
  rw [h.head, h.tail, List.getLast?_cons_cons]
  intro heq
  exact (List.nodup_cons.1 h.nodup).1 (List.mem_of_mem_getLast? heq)

theorem popFront (h : Represents enableAssert s (e :: l)) :
    ∃ t u, LinkedList.popFront enableAssert s = some (t, u) ∧ Represents enableAssert t l := by
  rw [LinkedList.popFront, h.front_eq, List.head?_cons, Option.bind_some]
  cases l with
  | nil =>
      rw [if_pos (h.tail.trans h.head.symm)]
      exact h.popLast
  | cons y l =>
      rw [if_neg h.tail_ne_head]
      have hnext : s.links.next e = some y := (h.ring.joined_of_append (a := [])).1
      exact h.unlink (a := []) (by simp) hnext (h.tail.trans List.getLast?_cons_cons)

theorem popBack (h : Represents enableAssert s (l ++ [e])) :
    ∃ t u, LinkedList.popBack enableAssert s = some (t, u) ∧ Represents enableAssert t l := by
  rw [LinkedList.popBack, h.back_eq, List.getLast?_concat, Option.bind_some]
  cases hl : l with
  | nil =>
      subst hl
      rw [if_pos (h.tail.trans h.head.symm)]
      exact h.popLast
  | cons y r =>
      have hne : l ≠ [] := by simp [hl]
      have htail : s.mTail ≠ s.mHead := by
        rw [hl] at h
        cases r with
        | nil => exact tail_ne_head (l := []) h
        | cons z r => exact tail_ne_head (l := r ++ [e]) h
      rw [if_neg htail, ← hl]
      obtain ⟨p, hp⟩ : ∃ p, l.getLast? = some p := ⟨_, List.getLast?_eq_some_getLast hne⟩
      have hprev : s.links.prev e = l.getLast? := by
        obtain ⟨a, rfl⟩ : ∃ a, l = a ++ [p] := List.getLast?_eq_some_iff.1 hp
        rw [hp]
        refine (Ring.Links.IsRing.joined_of_append (a := a) (b := []) ?_).2
        simpa using h.ring
      have hhead : s.mHead = l.head? := by
        rw [h.head, List.head?_append_of_ne_nil _ hne]
      have hhead' : s.mHead = (l ++ []).head? := by simpa using hhead
      have hprev' : s.links.prev e = (l ++ []).getLast? := by simpa using hprev
      have hunlink := h.unlink (by simpa using hne) hhead' hprev'
      simpa using hunlink

theorem erase (h : Represents enableAssert s l) {fuel : ℕ} (hf : l.length < fuel) (he : e ∈ l) :
    ∃ t u, LinkedList.erase enableAssert fuel e s = some (t, u) ∧
      Represents enableAssert t (l.erase e) := by
  rw [LinkedList.erase, h.checkContains_eq hf he, Option.bind_some]
  obtain ⟨a, b, rfl, hea⟩ := List.eq_append_cons_of_mem he
  rw [List.erase_append_right _ hea, List.erase_cons_head]
  cases ha : a with
  | nil =>
      subst ha
      have hhead : s.mHead = some e := h.head
      rw [if_pos hhead]
      exact h.popFront
  | cons x a' =>
      have hne : a ≠ [] := by simp [ha]
      rw [← ha]
      have hhead : s.mHead = a.head? := by rw [h.head, List.head?_append_of_ne_nil _ hne]
      rw [if_neg]
      · cases hb : b with
        | nil =>
            subst hb
            rw [if_pos (h.tail.trans List.getLast?_concat), List.append_nil]
            exact h.popBack
        | cons y b' =>
            have hbne : b ≠ [] := by simp [hb]
            have htail : s.mTail = b.getLast? := by
              rw [h.tail, List.getLast?_append_of_ne_nil _ (by simp), hb, List.getLast?_cons_cons]
            rw [← hb, if_neg]
            · refine h.unlink (by simp [hne]) ?_ ?_
              · rw [hhead, List.head?_append_of_ne_nil _ hne]
              · rw [htail, List.getLast?_append_of_ne_nil _ hbne]
            · rw [htail]
              intro hlast
              have heb := (List.nodup_cons.1 (List.nodup_append.1 h.nodup).2.1).1
              exact heb (List.mem_of_mem_getLast? hlast)
      · rw [hhead]
        exact fun heq => hea (List.mem_of_mem_head? heq)

theorem eraseAt (h : Represents enableAssert s l) {fuel : ℕ} (hf : l.length < fuel) {k : ℕ}
    (hk : k < l.length) :
    ∃ t it, LinkedList.eraseAt enableAssert fuel (iteratorAt l k) s = some (t, it) ∧
      Represents enableAssert t (l.eraseIdx k) := by
  have hend : (!(iteratorAt l k).atEnd) = true := by
    rw [atEnd_iteratorAt h.nodup]
    simpa using hk
  obtain ⟨t, u, ht, hrep⟩ := h.erase hf (List.getElem_mem hk)
  rw [h.nodup.erase_getElem] at hrep
  rw [LinkedList.eraseAt, hend, check_true, Option.bind_some, h.get_iteratorAt hk,
    Option.bind_some]
  split
  · exact ⟨_, _, by rw [ht]; rfl, hrep⟩
  · split
    · exact ⟨_, _, by rw [ht]; rfl, hrep⟩
    · exact ⟨_, _, by dsimp only; rw [ht]; rfl, hrep⟩

theorem rotate (h : Represents enableAssert s l) {fuel : ℕ} (hf : l.length < fuel)
    (he : e ∈ l) :
    ∃ t, LinkedList.rotate enableAssert fuel e s = some t ∧
      Represents enableAssert t (l.rotate (l.idxOf e)) := by
  rw [LinkedList.rotate, h.checkContains_eq hf he, Option.map_some]
  have hrot : l ~r l.rotate (l.idxOf e) := ⟨_, rfl⟩
  have hhead : (l.rotate (l.idxOf e)).head? = some e := by
    have hlt := List.idxOf_lt_length_iff.2 he
    rw [List.head?_rotate hlt, List.getElem?_eq_getElem hlt, List.getElem_idxOf]
  have hring := h.ring.of_isRotated hrot
  refine ⟨_, rfl, hrot.perm.nodup_iff.1 h.nodup, hring, hhead.symm, ?_, fun ha x hx => ?_⟩
  · cases hl : l.rotate (l.idxOf e) with
    | nil => simp [hl] at hhead
    | cons z r =>
        rw [hl] at hhead hring
        obtain rfl : z = e := by simpa using hhead
        obtain ⟨p, hp⟩ : ∃ p, (z :: r).getLast? = some p :=
          ⟨_, List.getLast?_eq_some_getLast (by simp)⟩
        exact (hring.prev_head hp).trans hp.symm
  · exact h.unlinked ha x fun hmem => hx (hrot.perm.mem_iff.1 hmem)

/-- The element behind another one, where the first is behind the last. -/
theorem behind {a b : List E} (h : Represents enableAssert s (a ++ e :: b)) {fuel : ℕ}
    (hf : (a ++ e :: b).length < fuel) :
    LinkedList.behind enableAssert fuel e s = (b ++ a ++ [e]).head? := by
  have he : e ∈ a ++ e :: b := by simp
  have hring := h.ring.of_isRotated (Ring.Links.isRotated_append_cons a b e)
  have hnext : s.links.next e = (b ++ a ++ [e]).head? := by
    cases hba : b ++ a with
    | nil =>
        rw [hba] at hring
        exact (Ring.Links.isRing_singleton_iff.1 hring).1
    | cons y c =>
        rw [hba] at hring
        exact (hring.joined_of_append (a := [])).1
  obtain ⟨y, hy⟩ : ∃ y, (b ++ a ++ [e]).head? = some y := by
    rw [← Option.isSome_iff_exists, List.isSome_head?]
    simp
  rw [LinkedList.behind, h.checkContains_eq hf he, hy]
  rw [hy] at hnext
  simp [Iterator.next, Iterator.position, Iterator.atBegin, Iterator.get, hnext]

/-- What an operation is meant to do, it does. -/
theorem step [Inhabited U] (h : Represents enableAssert s l) {fuel : ℕ} (hf : l.length < fuel)
    {op : Op E} {l' : List E} (hop : op.apply l = some l') :
    ∃ t, LinkedList.step enableAssert fuel s op = some t ∧ Represents enableAssert t l' := by
  cases op with
  | pushFront e =>
      obtain ⟨he, ⟨⟩⟩ := Option.ite_none_left_eq_some.1 hop
      obtain ⟨t, it, ht, hrep⟩ := h.pushFront he
      exact ⟨t, by rw [LinkedList.step, ht]; rfl, hrep⟩
  | pushBack e =>
      obtain ⟨he, ⟨⟩⟩ := Option.ite_none_left_eq_some.1 hop
      obtain ⟨t, it, ht, hrep⟩ := h.pushBack he
      exact ⟨t, by rw [LinkedList.step, ht]; rfl, hrep⟩
  | popFront =>
      obtain ⟨hne, ⟨⟩⟩ := Option.ite_none_left_eq_some.1 hop
      obtain ⟨e, r, rfl⟩ := List.exists_cons_of_ne_nil hne
      obtain ⟨t, u, ht, hrep⟩ := h.popFront
      exact ⟨t, by rw [LinkedList.step, ht]; rfl, hrep⟩
  | popBack =>
      obtain ⟨hne, ⟨⟩⟩ := Option.ite_none_left_eq_some.1 hop
      rw [← List.dropLast_concat_getLast hne] at h
      obtain ⟨t, u, ht, hrep⟩ := h.popBack
      exact ⟨t, by rw [LinkedList.step, ht]; rfl, hrep⟩
  | insert k e =>
      obtain ⟨hok, ⟨⟩⟩ := Option.ite_none_left_eq_some.1 hop
      obtain ⟨he, hk⟩ := not_or.1 hok
      obtain ⟨t, it, ht, hrep⟩ := h.insert he (not_lt.1 hk)
      refine ⟨t, ?_, hrep⟩
      rw [LinkedList.step, h.begin_eq, h.advance_iteratorAt (by omega), Option.bind_some,
        Nat.zero_add, ht]
      rfl
  | eraseAt k =>
      obtain ⟨hk, ⟨⟩⟩ := Option.ite_none_right_eq_some.1 hop
      obtain ⟨t, it, ht, hrep⟩ := h.eraseAt hf hk
      refine ⟨t, ?_, hrep⟩
      rw [LinkedList.step, h.begin_eq, h.advance_iteratorAt (by omega), Option.bind_some,
        Nat.zero_add, ht]
      rfl
  | erase e =>
      obtain ⟨he, ⟨⟩⟩ := Option.ite_none_right_eq_some.1 hop
      obtain ⟨t, u, ht, hrep⟩ := h.erase hf he
      exact ⟨t, by rw [LinkedList.step, ht]; rfl, hrep⟩
  | rotate e =>
      obtain ⟨he, ⟨⟩⟩ := Option.ite_none_right_eq_some.1 hop
      exact h.rotate hf he

end Represents

omit [DecidableEq E] in
theorem represents_new [Inhabited U] (enableAssert : Bool) :
    Represents enableAssert (new E U) [] where
  nodup := List.nodup_nil
  ring := Ring.Links.isRing_nil _
  head := rfl
  tail := rfl
  unlinked _ _ _ := ⟨rfl, rfl⟩

/-- An operation adds at most one element. -/
theorem Op.length_apply_le {op : Op E} {l' : List E} (h : op.apply l = some l') :
    l'.length ≤ l.length + 1 := by
  cases op with
  | insert k e =>
      obtain ⟨-, ⟨⟩⟩ := Option.ite_none_left_eq_some.1 h
      rw [List.length_insertIdx]
      split <;> omega
  | eraseAt k =>
      obtain ⟨-, ⟨⟩⟩ := Option.ite_none_right_eq_some.1 h
      have := List.length_eraseIdx_le l k
      omega
  | erase e =>
      obtain ⟨-, ⟨⟩⟩ := Option.ite_none_right_eq_some.1 h
      have := List.length_erase_le (a := e) (l := l)
      omega
  | pushFront e =>
      obtain ⟨-, ⟨⟩⟩ := Option.ite_none_left_eq_some.1 h
      exact Nat.le_refl _
  | pushBack e =>
      obtain ⟨-, ⟨⟩⟩ := Option.ite_none_left_eq_some.1 h
      rw [List.length_append, List.length_singleton]
  | popFront =>
      obtain ⟨-, ⟨⟩⟩ := Option.ite_none_left_eq_some.1 h
      rw [List.length_tail]
      omega
  | popBack =>
      obtain ⟨-, ⟨⟩⟩ := Option.ite_none_left_eq_some.1 h
      rw [List.length_dropLast]
      omega
  | rotate e =>
      obtain ⟨-, ⟨⟩⟩ := Option.ite_none_right_eq_some.1 h
      rw [List.length_rotate]
      omega

/-- The run lemma. The fuel is for the elements that there may be at the end. -/
theorem Represents.run [Inhabited U] (h : Represents enableAssert s l) {fuel : ℕ}
    {ops : List (Op E)} {l' : List E} (hf : l.length + ops.length < fuel)
    (hr : Transition.run Op.apply l ops = some l') :
    ∃ t, Transition.run (LinkedList.step enableAssert fuel) s ops = some t ∧
      Represents enableAssert t l' ∧ l'.length < fuel := by
  induction ops generalizing s l with
  | nil =>
      rw [Transition.run_nil] at hr
      obtain rfl := Option.some.inj hr
      exact ⟨s, rfl, h, by simpa using hf⟩
  | cons op ops ih =>
      obtain ⟨r, hop, hr⟩ := Transition.run_cons_eq_some_iff.1 hr
      rw [List.length_cons] at hf
      have hle := Op.length_apply_le hop
      have hlt : l.length < fuel := by omega
      obtain ⟨t, ht, hrep⟩ := h.step hlt hop
      obtain ⟨u, hu, hres⟩ := ih hrep (by omega) hr
      exact ⟨u, Transition.run_cons_eq_some_iff.2 ⟨t, ht, hu⟩, hres⟩

/-- Every sequence of operations that may be done to a sequence succeeds on the linked
structure, which stays one ring from its head to its tail. What is read from it, along the
links in both directions and by its functions, is what the sequence has. -/
theorem refines_sequence [Inhabited U] (enableAssert : Bool) (ops : List (Op E)) (l : List E)
    (hr : Transition.run Op.apply [] ops = some l) :
    ∃ n, ∀ fuel, n ≤ fuel → ∃ s : LinkedList E U,
      Transition.run (LinkedList.step enableAssert fuel) (new E U) ops = some s ∧
      Represents enableAssert s l ∧
      Ring.walk s.links.next l.length s.mHead = l ∧
      Ring.walk s.links.prev l.length s.mTail = l.reverse ∧
      front enableAssert s = l.head? ∧ back enableAssert s = l.getLast? ∧
      size enableAssert fuel s = some l.length ∧ empty enableAssert s = some l.isEmpty ∧
      ∀ e, contains enableAssert fuel e s = some (decide (e ∈ l)) := by
  refine ⟨ops.length + 1, fun fuel hfuel => ?_⟩
  have hlt : ([] : List E).length + ops.length < fuel := by
    rw [List.length_nil]
    omega
  obtain ⟨s, hs, h, hf⟩ := (represents_new (E := E) (U := U) enableAssert).run hlt hr
  refine ⟨s, hs, h, ?_, ?_, h.front_eq, h.back_eq, h.size_eq hf, h.empty_eq, h.contains_eq hf⟩
  · rw [h.head]
    exact h.ring.walk_next
  · rw [h.tail]
    exact h.ring.walk_prev

/-- Elements are put in at both ends and in between, the list is rotated, and elements
are taken out in every way. -/
def putAndTaken : List (Op ℕ) :=
  [.pushBack 1, .pushFront 2, .insert 1 3, .insert 3 4, .insert 0 5, .rotate 1, .eraseAt 2,
    .pushBack 5, .erase 4, .popFront, .popBack]

theorem refines_sequence_putAndTaken :
    Transition.run Op.apply [] putAndTaken = some [2, 3] ∧
      ∃ n, ∀ fuel, n ≤ fuel → ∃ s : LinkedList ℕ Unit,
        Transition.run (LinkedList.step true fuel) (new ℕ Unit) putAndTaken = some s ∧
        s.mHead = some 2 ∧ s.mTail = some 3 ∧ size true fuel s = some 2 := by
  have hr : Transition.run Op.apply [] putAndTaken = some [2, 3] := by decide
  obtain ⟨n, h⟩ := refines_sequence (U := Unit) true putAndTaken [2, 3] hr
  refine ⟨hr, n, fun fuel hfuel => ?_⟩
  obtain ⟨s, hs, hrep, -, -, -, -, hsize, -⟩ := h fuel hfuel
  exact ⟨s, hs, hrep.head, hrep.tail, hsize⟩

end LinkedList

end Zth
