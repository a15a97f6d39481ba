import Mathlib.Data.List.Cycle
import Mathlib.Logic.Function.Basic

/-!
# Rings of linked elements

Elements with a link to the next and to the previous one, and no sentinel: those of a
list form a ring, in which the last is followed by the first. A ring has no begin, so
inserting an element in front of the first is the same as inserting it behind the last,
and a rotated list is the same ring.

The rules below say what it takes to insert an element and to take one out, and that
following the links of a ring gives its elements, in both directions.
-/

namespace Ring

/-- The links of the elements. A link may be null. -/
structure Links (E : Type*) where
  next : E → Option E
  prev : E → Option E

variable {E : Type*}

/-- The links of two neighbours point at each other. -/
def Links.Joined (m : Links E) (x y : E) : Prop := m.next x = some y ∧ m.prev y = some x

/-- Every element is joined with the one behind it, and the last one with the first. -/
def Links.IsRing (m : Links E) (l : List E) : Prop := (l : Cycle E).Chain m.Joined

namespace Links

variable {m m' : Links E} {l l' : List E} {x y e p : E}

theorem isRing_nil (m : Links E) : m.IsRing [] := Cycle.Chain.nil _

theorem isRing_cons_iff :
    m.IsRing (y :: l) ↔
      (y :: l).IsChain m.Joined ∧ ∀ p ∈ (y :: l).getLast?, m.Joined p y := by
  rw [IsRing, Cycle.chain_coe_cons, ← List.cons_append, List.isChain_append]
  simp

theorem isRing_singleton_iff : m.IsRing [x] ↔ m.Joined x x := by
  rw [IsRing, Cycle.chain_singleton]

/-- A ring has no begin. -/
theorem IsRing.of_isRotated (h : m.IsRing l) (hl : l ~r l') : m.IsRing l' := by
  rw [IsRing, ← Cycle.coe_eq_coe.2 hl]
  exact h

theorem IsRing.next_last (h : m.IsRing (y :: l)) (hp : p ∈ (y :: l).getLast?) :
    m.next p = some y :=
  ((isRing_cons_iff.1 h).2 p hp).1

theorem IsRing.prev_head (h : m.IsRing (y :: l)) (hp : p ∈ (y :: l).getLast?) :
    m.prev y = some p :=
  ((isRing_cons_iff.1 h).2 p hp).2

/-- Somewhere in a ring is as good as at its begin. -/
theorem isRotated_append_cons (a b : List E) (x : E) : a ++ x :: b ~r x :: (b ++ a) := by
  have hrot : a ++ x :: b ~r (x :: b) ++ a := List.isRotated_append
  exact hrot

/-- Neighbours anywhere in the list. -/
theorem IsRing.joined_of_append {a b : List E} (h : m.IsRing (a ++ x :: y :: b)) :
    m.Joined x y := by
  have hring := isRing_cons_iff.1 (h.of_isRotated (isRotated_append_cons a (y :: b) x))
  exact (List.isChain_cons_cons.1 hring.1).1

/-- Every element has a neighbour on both sides. -/
theorem IsRing.exists_neighbours (h : m.IsRing l) (hx : x ∈ l) :
    ∃ p ∈ l, ∃ y ∈ l, m.prev x = some p ∧ m.next x = some y := by
  obtain ⟨a, b, rfl⟩ := List.append_of_mem hx
  have hrot := h.of_isRotated (isRotated_append_cons a b x)
  have hmem : ∀ z, z ∈ x :: (b ++ a) → z ∈ a ++ x :: b :=
    fun z hz => (isRotated_append_cons a b x).perm.mem_iff.2 hz
  obtain ⟨p, hp⟩ : ∃ p, (x :: (b ++ a)).getLast? = some p :=
    ⟨_, List.getLast?_eq_some_getLast (by simp)⟩
  refine ⟨p, hmem p (List.mem_of_mem_getLast? hp), ?_⟩
  cases hb : b ++ a with
  | nil =>
      rw [hb] at hrot hp
      obtain rfl : x = p := by simpa using hp
      exact ⟨x, hx, hrot.prev_head hp, hrot.next_last hp⟩
  | cons y c =>
      refine ⟨y, hmem y (by simp [hb]), hrot.prev_head hp, ?_⟩
      rw [hb] at hrot
      exact (hrot.joined_of_append (a := [])).1

/-- The element behind the one at an index, or the first one. -/
theorem IsRing.next_getElem (h : m.IsRing l) {k : ℕ} (hk : k < l.length) :
    m.next l[k] = l[k + 1]?.or l.head? := by
  have hsplit : l = l.take k ++ l[k] :: l.drop (k + 1) := by
    rw [List.getElem_cons_drop, List.take_append_drop]
  by_cases hlast : k + 1 < l.length
  · have hdrop : l.drop (k + 1) = l[k + 1] :: l.drop (k + 2) := by
      rw [List.getElem_cons_drop]
    rw [hdrop] at hsplit
    rw [hsplit] at h
    rw [h.joined_of_append.1, List.getElem?_eq_getElem hlast, Option.some_or]
  · rw [List.getElem?_eq_none (not_lt.1 hlast), Option.none_or]
    obtain ⟨y, t, rfl⟩ := List.exists_cons_of_length_pos (Nat.zero_lt_of_lt hk)
    refine h.next_last ?_
    rw [Option.mem_def, List.getLast?_eq_getElem?]
    have : (y :: t).length - 1 = k := by omega
    rw [this, List.getElem?_eq_getElem hk]

/-- Only the links of the elements matter, and of the links between neighbours only
those of the list. -/
theorem isChain_of_links (h : l.IsChain m.Joined) (hn : l.Nodup)
    (hnext : ∀ x ∈ l, x ∉ l.getLast? → m'.next x = m.next x)
    (hprev : ∀ x ∈ l, x ∉ l.head? → m'.prev x = m.prev x) : l.IsChain m'.Joined := by
  rw [List.isChain_iff_forall_rel_of_append_cons_cons] at h ⊢
  intro a b l₁ l₂ hl
  obtain ⟨hab, hba⟩ := h hl
  subst hl
  have hab' : a ∉ b :: l₂ := (List.nodup_cons.1 (List.nodup_append.1 hn).2.1).1
  have hb' : b ∉ l₁ ++ [a] := by
    intro hb
    have hn' : ((l₁ ++ [a]) ++ b :: l₂).Nodup := by simpa using hn
    exact (List.nodup_append.1 hn').2.2 b hb b (by simp) rfl
  constructor
  · rw [hnext a (by simp), hab]
    intro hlast
    refine hab' ?_
    rw [List.getLast?_append_of_ne_nil _ (by simp), List.getLast?_cons_cons] at hlast
    exact List.mem_of_mem_getLast? hlast
  · rw [hprev b (by simp), hba]
    intro hhead
    cases l₁ with
    | nil => simp_all
    | cons c l₁ => simp_all

/-- The links of other elements do not matter. -/
theorem IsRing.congr (h : m.IsRing l) (hnext : ∀ x ∈ l, m'.next x = m.next x)
    (hprev : ∀ x ∈ l, m'.prev x = m.prev x) : m'.IsRing l := by
  cases l with
  | nil => exact m'.isRing_nil
  | cons y l =>
      rw [isRing_cons_iff] at h ⊢
      have himp : ∀ a b, a ∈ y :: l → b ∈ y :: l → m.Joined a b → m'.Joined a b := by
        intro a b ha hb hab
        rw [Joined, hnext a ha, hprev b hb]
        exact hab
      refine ⟨h.1.imp_of_mem_imp fun a b ha hb => himp a b ha hb, fun p hp => ?_⟩
      exact himp p y (List.mem_of_mem_getLast? hp) List.mem_cons_self (h.2 p hp)

variable [DecidableEq E]

/-- Put `e` between `p` and `y`. -/
def splice (e p y : E) (m : Links E) : Links E where
  next := Function.update (Function.update m.next e (some y)) p (some e)
  prev := Function.update (Function.update m.prev e (some p)) y (some e)

/-- Join `p` and `y`, which leaves out what is between them. -/
def join (p y : E) (m : Links E) : Links E where
  next := Function.update m.next p (some y)
  prev := Function.update m.prev y (some p)

/-- The links of an element that is in no ring. -/
def clear (e : E) (m : Links E) : Links E where
  next := Function.update m.next e none
  prev := Function.update m.prev e none

/-- An element is inserted between the last one and the first one. -/
theorem IsRing.splice (h : m.IsRing (y :: l)) (hn : (y :: l).Nodup) (he : e ∉ y :: l)
    (hp : p ∈ (y :: l).getLast?) : (m.splice e p y).IsRing (e :: y :: l) := by
  have hpmem := List.mem_of_mem_getLast? hp
  have hpe : p ≠ e := fun hpe => he (hpe ▸ hpmem)
  have hye : y ≠ e := fun hye => he (hye ▸ List.mem_cons_self)
  have hnext : (m.splice e p y).next e = some y := by
    simp [Links.splice, Function.update_of_ne hpe.symm]
  have hprev : (m.splice e p y).prev e = some p := by
    simp [Links.splice, Function.update_of_ne hye.symm]
  rw [isRing_cons_iff]
  refine ⟨List.isChain_cons_cons.2 ⟨⟨hnext, ?_⟩, ?_⟩, fun q hq => ?_⟩
  · simp [Links.splice]
  · refine isChain_of_links (isRing_cons_iff.1 h).1 hn (fun x hx hlast => ?_) fun x hx hhead => ?_
    · have hxp : x ≠ p := fun hxp => hlast (hxp ▸ hp)
      have hxe : x ≠ e := fun hxe => he (hxe ▸ hx)
      simp [Links.splice, Function.update_of_ne hxp, Function.update_of_ne hxe]
    · have hxy : x ≠ y := fun hxy => hhead (by simp [hxy])
      have hxe : x ≠ e := fun hxe => he (hxe ▸ hx)
      simp [Links.splice, Function.update_of_ne hxy, Function.update_of_ne hxe]
  · rw [List.getLast?_cons_cons] at hq
    obtain rfl : p = q := Option.some.inj (hp.symm.trans hq)
    exact ⟨by simp [Links.splice], hprev⟩

/-- The first element is taken out. -/
theorem IsRing.join (h : m.IsRing (e :: y :: l)) (hn : (e :: y :: l).Nodup)
    (hp : p ∈ (y :: l).getLast?) : (m.join p y).IsRing (y :: l) := by
  have hchain := (List.isChain_cons_cons.1 (isRing_cons_iff.1 h).1).2
  rw [isRing_cons_iff]
  refine ⟨isChain_of_links hchain hn.of_cons (fun x _ hlast => ?_) (fun x _ hhead => ?_),
    fun q hq => ?_⟩
  · have hxp : x ≠ p := fun hxp => hlast (hxp ▸ hp)
    simp [Links.join, Function.update_of_ne hxp]
  · have hxy : x ≠ y := fun hxy => hhead (by simp [hxy])
    simp [Links.join, Function.update_of_ne hxy]
  · obtain rfl : p = q := Option.some.inj (hp.symm.trans hq)
    exact ⟨by simp [Links.join], by simp [Links.join]⟩

/-- An element is inserted in front of another one. -/
theorem IsRing.insert {a b : List E} (h : m.IsRing (a ++ y :: b)) (hn : (a ++ y :: b).Nodup)
    (he : e ∉ a ++ y :: b) (hp : m.prev y = some p) :
    (m.splice e p y).IsRing (a ++ e :: y :: b) := by
  have hrot := isRotated_append_cons a b y
  have hring := h.of_isRotated hrot
  obtain ⟨q, hq⟩ : ∃ q, (y :: (b ++ a)).getLast? = some q :=
    ⟨_, List.getLast?_eq_some_getLast (by simp)⟩
  obtain rfl : q = p := Option.some.inj ((hring.prev_head hq).symm.trans hp)
  have hnew := hring.splice (hrot.perm.nodup_iff.1 hn)
    (fun hmem => he (hrot.perm.mem_iff.2 hmem)) hq
  refine hnew.of_isRotated ?_
  exact (isRotated_append_cons a (y :: b) e).symm

/-- An element that is not alone is taken out. -/
theorem IsRing.remove {a b : List E} (h : m.IsRing (a ++ e :: b)) (hn : (a ++ e :: b).Nodup)
    (hab : a ++ b ≠ []) (hp : m.prev e = some p) (hy : m.next e = some y) :
    (m.join p y).IsRing (a ++ b) := by
  have hrot := isRotated_append_cons a b e
  have hring := h.of_isRotated hrot
  have hcomm : b ++ a ~r a ++ b := List.isRotated_append
  cases hba : b ++ a with
  | nil => exact absurd (by simpa [and_comm] using hba) hab
  | cons z c =>
      rw [hba] at hring hrot hcomm
      obtain rfl : z = y := Option.some.inj ((hring.joined_of_append (a := [])).1.symm.trans hy)
      obtain ⟨q, hq⟩ : ∃ q, (z :: c).getLast? = some q :=
        ⟨_, List.getLast?_eq_some_getLast (by simp)⟩
      have hqe : q ∈ (e :: z :: c).getLast? := by rwa [List.getLast?_cons_cons]
      obtain rfl : q = p := Option.some.inj ((hring.prev_head hqe).symm.trans hp)
      exact (hring.join (hrot.perm.nodup_iff.1 hn) hq).of_isRotated hcomm

theorem IsRing.clear (h : m.IsRing l) (he : e ∉ l) : (m.clear e).IsRing l := by
  have hne : ∀ x ∈ l, x ≠ e := fun x hx hxe => he (hxe ▸ hx)
  refine h.congr (fun x hx => ?_) fun x hx => ?_
  · exact Function.update_of_ne (hne x hx) _ _
  · exact Function.update_of_ne (hne x hx) _ _

end Links

/-- The elements that are met in that many steps, when a link is followed. -/
def walk (link : E → Option E) : ℕ → Option E → List E
  | 0, _ => []
  | _ + 1, none => []
  | n + 1, some x => x :: walk link n (link x)

theorem walk_of_isChain {link : E → Option E} {x : E} {l : List E}
    (h : (x :: l).IsChain fun a b => link a = some b) :
    walk link (l.length + 1) (some x) = x :: l := by
  induction l generalizing x with
  | nil => rfl
  | cons y l ih =>
      rw [List.isChain_cons_cons] at h
      rw [List.length_cons, walk, h.1, ih h.2]

/-- The walk along `next`. -/
theorem Links.IsRing.walk_next {m : Links E} {l : List E} (h : m.IsRing l) :
    walk m.next l.length l.head? = l := by
  cases l with
  | nil => rfl
  | cons y l =>
      exact walk_of_isChain ((isRing_cons_iff.1 h).1.imp fun a b hab => hab.1)

/-- The walk along `prev`. -/
theorem Links.IsRing.walk_prev {m : Links E} {l : List E} (h : m.IsRing l) :
    walk m.prev l.length l.getLast? = l.reverse := by
  cases l with
  | nil => rfl
  | cons y l =>
      have hchain : (y :: l).reverse.IsChain fun a b => m.prev a = some b :=
        List.isChain_reverse.2 ((isRing_cons_iff.1 h).1.imp fun a b hab => hab.2)
      rw [← List.length_reverse, ← List.head?_reverse]
      cases hrev : (y :: l).reverse with
      | nil => simp at hrev
      | cons z r =>
          rw [hrev] at hchain
          exact walk_of_isChain hchain

end Ring
