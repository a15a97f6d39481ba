import Zth.Util.SmallVector

/-!
# The small vector is a vector

A small vector runs next to a plain list. A call that returns changes the list as
the same call of a plain vector does, and a call that throws leaves it alone.

Two loops of `small_vector` construct one element after the other in calls that
can be refused, and do not undo what they did before the refusal: `resize` within
the buffer, and the move of the elements in `make_vector`. And `clear` and
`clear_and_release` construct an element, although they must not throw. As long as none
of the constructions of the loops but the first is refused, and none of the latter, the
small vector has what the list has.
-/

namespace Zth

namespace SmallVector

variable {L : Layout} {α ι : Type*} (slack : ℕ → ℕ → ℕ) (make : ι → α)

/-- The calls that change a small vector. -/
inductive Op (ι α : Type*) where
  | pushBack (v : α)
  | emplaceBack (args : ι)
  | popBack
  | resize (count : ℕ) (x : α)
  | reserve (newCap : ℕ)
  | clear
  | clearAndRelease

namespace Op

def perform (s : SmallVector L α) (op : Op ι α) (g : Grants) : Outcome (SmallVector L α) :=
  match op with
  | pushBack v => s.pushBack slack v g
  | emplaceBack args => s.emplaceBack slack make args g
  | popBack => s.popBack g
  | resize count x => s.resize slack count x g
  | reserve newCap => s.reserve slack newCap g
  | clear => s.clear g
  | clearAndRelease => s.clearAndRelease g

/-- What the call does to a plain vector. -/
def apply (l : List α) : Op ι α → List α
  | pushBack v => l ++ [v]
  | emplaceBack args => l ++ [make args]
  | popBack => l.dropLast
  | resize count x => l.take count ++ List.replicate (count - l.length) x
  | reserve _ => l
  | clear => []
  | clearAndRelease => []

/-- Only the last element of a vector that has one can be removed. -/
def legal (l : List α) : Op ι α → Bool
  | popBack => !l.isEmpty
  | _ => true

/-- The number of elements for which the call wants memory, if there are `n`. -/
def demand (n : ℕ) : Op ι α → ℕ
  | pushBack _ => n + 1
  | emplaceBack _ => n + 1
  | resize count _ => count
  | reserve newCap => newCap
  | _ => 0

/-- The number of elements that the call constructs one after the other in the buffer,
if there are `n`. -/
def copies (n : ℕ) : Op ι α → ℕ
  | resize count _ => count - n
  | _ => 0

/-- Whether the call makes an element that it does not use, where it must not throw. -/
def spoils : Op ι α → Bool
  | clear | clearAndRelease => true
  | _ => false

end Op

/-- The small vector and the list that go through the same calls. There is no small
vector any more when the program has ended, and after something undefined. -/
structure Pair (L : Layout) (α : Type*) where
  small : Option (SmallVector L α)
  plain : List α

def Pair.new : Pair L α where
  small := some SmallVector.new
  plain := []

/-- One call, with the number of requests that are granted in it. -/
def step (s : Pair L α) (call : Op ι α × Grants) : Option (Pair L α) :=
  if call.1.legal s.plain then
    let o := match s.small with
      | none => Outcome.undefined
      | some v => call.1.perform slack make v call.2
    some
      { small := o.state?
        plain := if o.isReturned then call.1.apply make s.plain else s.plain }
  else none

/-- What can be seen of the small vector is what can be seen of the list, and `m_size`
is what it should be. -/
structure Agrees (s : SmallVector L α) (l : List α) : Prop where
  size : s.size = some l.length
  empty : s.empty = some l.isEmpty
  get : ∀ i, s.get i = l[i]?
  front : s.front = l.head?
  back : s.back = l.getLast?
  mSize : s.mSize = if s.isSmall then l.length else L.prealloc + 1
  mSize_lt : s.mSize < 256
  capacity : ∃ c, s.capacity = some c ∧ l.length ≤ c

/-- The same of the pair. -/
def Pair.Agrees (s : Pair L α) : Prop :=
  ∃ v, s.small = some v ∧ v.Agrees s.plain

/-- If the call moves the elements out of the buffer, the memory for them or the first
move is refused, if any; if it copies elements into the buffer, the first copy is; and if
it clears the buffer, nothing is. -/
def Spared (s : SmallVector L α) (op : Op ι α) (g : Grants) : Prop :=
  s.isSmall → ∀ k, g = some k →
    if op.spoils then 0 < k
    else if L.prealloc < op.demand s.mSize then k ≤ 1 ∨ s.mSize < k
    else k = 0 ∨ op.copies s.mSize ≤ k

def Pair.Spared (s : Pair L α) (call : Op ι α × Grants) : Prop :=
  ∀ v, s.small = some v → v.Spared call.1 call.2

/-- The elements are in the buffer. -/
def inline (L : Layout) (l : List α) : SmallVector L α where
  mSize := l.length
  buffer := .array fun i => l[i]?

/-- The elements are in the vector. -/
def heap (L : Layout) (v : StdVector α) : SmallVector L α where
  mSize := L.prealloc + 1
  buffer := .vector v

/-- The elements are in the buffer, but those before cell `i` are destroyed. -/
def moved (L : Layout) (l : List α) (i : ℕ) : SmallVector L α where
  mSize := l.length
  buffer := .array fun j => if j < i then none else l[j]?

/-- The small vector is well formed and has the elements of the list. -/
inductive Holds : SmallVector L α → List α → Prop where
  | inBuffer (l : List α) (h : l.length ≤ L.prealloc) : Holds (inline L l) l
  | inVector (v : StdVector α) : Holds (heap L v) v.elems

theorem prealloc_lt (L : Layout) : L.prealloc < 255 :=
  L.prealloc_lt

theorem isSmall_inline {l : List α} (h : l.length ≤ L.prealloc) :
    (inline L l).isSmall = true :=
  decide_eq_true h

@[simp] theorem isSmall_heap (v : StdVector α) : (heap L v).isSmall = false :=
  decide_eq_false (Nat.not_succ_le_self L.prealloc)

/-- The cells can be used as long as `m_size` is small. -/
theorem array_mk {n : ℕ} (h : n ≤ L.prealloc) (cells : ℕ → Option α) :
    (⟨n, .array cells⟩ : SmallVector L α).array = some cells := by
  have hs : (⟨n, .array cells⟩ : SmallVector L α).isSmall = true := decide_eq_true h
  rw [array, hs]

theorem array_inline {l : List α} (h : l.length ≤ L.prealloc) :
    (inline L l).array = some fun i => l[i]? :=
  array_mk h _

theorem array_moved {l : List α} (h : l.length ≤ L.prealloc) (i : ℕ) :
    (moved L l i).array = some fun j => if j < i then none else l[j]? :=
  array_mk h _

@[simp] theorem vector_heap (v : StdVector α) : (heap L v).vector = some v := by
  rw [vector, isSmall_heap]
  rfl

theorem moved_zero (l : List α) : moved L l 0 = inline L l := rfl

/-- A well-formed small vector shows what the list shows. -/
theorem Holds.agrees {s : SmallVector L α} {l : List α} (h : Holds s l) : s.Agrees l := by
  have hp := prealloc_lt L
  cases h with
  | inBuffer l h =>
      have hs := isSmall_inline h
      have hsize : (inline L l).size = some l.length := by rw [size, hs]; rfl
      have hempty : (inline L l).empty = some l.isEmpty := by
        rw [empty, hs]
        cases l <;> rfl
      have hget : ∀ i, (inline L l).get i = l[i]? := by
        intro i
        rw [get, hsize, data, hs, if_pos rfl, array_inline h]
        by_cases hi : i < l.length
        · simp [hi]
        · simp [hi]
      refine ⟨hsize, hempty, hget, ?_, ?_, ?_, ?_, ?_⟩
      · rw [front, hget, List.head?_eq_getElem?]
      · rw [back, hempty, hsize, List.getLast?_eq_getElem?]
        cases l with
        | nil => rfl
        | cons a l => exact hget _
      · rw [hs]
        rfl
      · exact (h.trans_lt hp).trans (by decide)
      · exact ⟨L.prealloc, by rw [capacity, hs]; rfl, h⟩
  | inVector v =>
      have hs := isSmall_heap (L := L) v
      have hsize : (heap L v).size = some v.elems.length := by simp [size]
      have hempty : (heap L v).empty = some v.elems.isEmpty := by simp [empty]
      have hget : ∀ i, (heap L v).get i = v.elems[i]? := by
        intro i
        by_cases hi : i < v.elems.length
        · simp [get, hsize, data, hi]
        · simp [get, hsize, hi]
      refine ⟨hsize, hempty, hget, ?_, ?_, ?_, ?_, ?_⟩
      · rw [front, hget, List.head?_eq_getElem?]
      · rw [back, hempty, hsize, List.getLast?_eq_getElem?]
        cases hv : v.elems with
        | nil => rfl
        | cons a l => exact (hget _).trans (by rw [hv])
      · rw [hs]
        rfl
      · change L.prealloc + 1 < 256
        omega
      · exact ⟨v.capacity, by simp [capacity], v.fits⟩

/-! ## What each call does -/

/-- The elements of the list are in the vector. -/
def InVector (s : SmallVector L α) (l : List α) : Prop :=
  ∃ v, s = heap L v ∧ v.elems = l

theorem InVector.holds {s : SmallVector L α} {l : List α} (h : InVector s l) : Holds s l := by
  obtain ⟨v, rfl, rfl⟩ := h
  exact .inVector v

/-- A call of the vector that does all or nothing. -/
theorem meets_onVector {s : SmallVector L α} {l l' : List α} (hs : InVector s l)
    {f : StdVector α → Grants → Option (StdVector α × Grants)} (g : Grants)
    (hf : ∀ v v' g', v.elems = l → f v g = some (v', g') → v'.elems = l') :
    (s.onVector f g).Meets (InVector · l') (Holds · l) := by
  obtain ⟨v, rfl, hv⟩ := hs
  simp only [onVector, vector_heap]
  cases hfv : f v g with
  | none => exact hv ▸ Holds.inVector v
  | some p =>
      obtain ⟨v', g'⟩ := p
      exact ⟨v', rfl, hf v v' g' hv hfv⟩

theorem elems_of_reserve {v v' : StdVector α} {n : ℕ} {g g' : Grants}
    (h : v.reserve slack n g = some (v', g')) : v'.elems = v.elems := by
  rw [StdVector.reserve] at h
  split at h
  · cases h
    rfl
  · obtain ⟨g'', -, h⟩ := Option.map_eq_some_iff.1 h
    cases h
    rfl

/-- Memory that is not there yet is requested. -/
theorem reserve_of_lt {v : StdVector α} {n : ℕ} (h : v.capacity < n) (g : Grants) :
    v.reserve slack n g = g.request.map fun g =>
      ({ v with
          capacity := v.grown slack n
          fits := v.fits.trans (v.capacity_le_grown slack n) }, g) :=
  if_neg (not_le.2 h)

theorem elems_of_pushBack {v v' : StdVector α} {x : α} {g g' : Grants}
    (h : v.pushBack slack x g = some (v', g')) : v'.elems = v.elems ++ [x] := by
  obtain ⟨g'', -, h⟩ := Option.map_eq_some_iff.1 h
  cases h
  rfl

theorem elems_of_resize {v v' : StdVector α} {n : ℕ} {x : α} {g g' : Grants}
    (h : v.resize slack n x g = some (v', g')) :
    v'.elems = v.elems.take n ++ List.replicate (n - v.elems.length) x := by
  rw [StdVector.resize] at h
  split at h
  · rename_i hn
    cases h
    rw [Nat.sub_eq_zero_of_le hn, List.replicate_zero, List.append_nil]
  · rename_i hn
    obtain ⟨g'', -, h⟩ := Option.map_eq_some_iff.1 h
    cases h
    rw [List.take_of_length_le (le_of_not_ge hn)]

/-- The cells of a list with one more element. -/
theorem update_getElem? (l : List α) (x : α) :
    Function.update (fun i => l[i]?) l.length (some x) = fun i => (l ++ [x])[i]? := by
  funext i
  by_cases hi : i = l.length
  · subst hi
    simp
  · rw [Function.update_of_ne hi]
    by_cases hlt : i < l.length
    · rw [List.getElem?_append_left hlt]
    · rw [List.getElem?_eq_none (not_lt.1 hlt), List.getElem?_eq_none (by simp; omega)]

/-- An element is constructed, or it is not and nothing has happened. -/
theorem construct_inline {l : List α} (h : l.length < L.prealloc) (x : α) (g : Grants) :
    (inline L l).construct x g =
      match g.request with
      | none => .thrown (inline L l)
      | some g => .returned (inline L (l ++ [x])) g := by
  have hp := prealloc_lt L
  have hs : (l.length + 1) % 256 = (l ++ [x]).length := by
    rw [List.length_append, List.length_singleton, Nat.mod_eq_of_lt (by omega)]
  rw [construct, array_inline h.le]
  cases g.request with
  | none => rfl
  | some g => simp only [inline, hs, update_getElem?]

/-- The element in a cell of the buffer is destroyed. -/
theorem destroy_mk {n i : ℕ} {cells : ℕ → Option α} {x : α} (h : n ≤ L.prealloc)
    (hx : cells i = some x) :
    destroy (⟨n, .array cells⟩ : SmallVector L α) i =
      some ⟨n, .array (Function.update cells i none)⟩ := by
  rw [destroy, array_mk h, Option.bind_some, hx, Option.map_some]

/-- The last element is destroyed. -/
theorem destroyLast_inline {l : List α} (x : α) (h : (l ++ [x]).length ≤ L.prealloc)
    (g : Grants) :
    (inline L (l ++ [x])).destroyLast g = .returned (inline L l) g := by
  have hp := prealloc_lt L
  rw [List.length_append, List.length_singleton] at h
  have hs : decremented (l ++ [x]).length = l.length := by
    rw [decremented, List.length_append, List.length_singleton]
    omega
  have hc : Function.update (fun i => (l ++ [x])[i]?) l.length none = fun i => l[i]? := by
    rw [← update_getElem?, Function.update_idem]
    exact Function.update_eq_self_iff.2 (List.getElem?_eq_none le_rfl).symm
  have hd := destroy_mk (Nat.le_of_succ_le h) (List.getElem?_concat_length (l := l) (a := x))
  rw [hc] at hd
  rw [destroyLast]
  simp only [inline, hs]
  rw [hd]
  rfl

/-- `shrink` destroys elements from the end. -/
theorem shrink_inline {n : ℕ} {l : List α} (h : l.length ≤ L.prealloc) (hn : n ≤ l.length)
    (g : Grants) :
    (inline L l).shrink n g = .returned (inline L (l.take (l.length - n))) g := by
  induction n generalizing l with
  | zero => rw [Nat.sub_zero, List.take_length, shrink]
  | succ n ih =>
      obtain rfl | ⟨l, x, rfl⟩ := l.eq_nil_or_concat'
      · exact absurd hn (Nat.not_succ_le_zero n)
      · rw [shrink, destroyLast_inline x h]
        rw [List.length_append, List.length_singleton] at h hn
        rw [Outcome.andThen, ih (Nat.le_of_succ_le h) (Nat.le_of_succ_le_succ hn),
          List.length_append, List.length_singleton, Nat.add_sub_add_right,
          List.take_append_of_le_length (Nat.sub_le _ _)]

/-- `fill` adds copies, until one is refused. -/
theorem fill_inline (x : α) {n : ℕ} {l : List α} (h : l.length + n ≤ L.prealloc)
    (g : Grants) :
    g.Covers n ∧ (∃ g', (inline L l).fill x n g =
        .returned (inline L (l ++ List.replicate n x)) g') ∨
      ∃ k < n, g = some k ∧
        (inline L l).fill x n g = .thrown (inline L (l ++ List.replicate k x)) := by
  induction n generalizing l g with
  | zero =>
      refine .inl ⟨g.covers_zero, g, ?_⟩
      rw [fill, List.replicate_zero, List.append_nil]
  | succ n ih =>
      rw [fill, construct_inline (by omega)]
      obtain ⟨rfl, hr⟩ | ⟨g', hr, hg, hne⟩ := g.request_cases
      · refine .inr ⟨0, n.succ_pos, rfl, ?_⟩
        rw [List.replicate_zero, List.append_nil]
        rfl
      · have happ : ∀ m, l ++ List.replicate (m + 1) x = (l ++ [x]) ++ List.replicate m x := by
          intro m
          rw [List.replicate_succ, List.append_assoc, List.singleton_append]
        have hl : (l ++ [x]).length + n ≤ L.prealloc := by
          rw [List.length_append, List.length_singleton]
          omega
        rw [hr]
        obtain ⟨hc, g'', hf⟩ | ⟨k, hk, hg', hf⟩ := ih hl g'
        · exact .inl ⟨hc.succ hg hne, g'', by rw [happ]; exact hf⟩
        · exact .inr ⟨k + 1, Nat.succ_lt_succ hk, (hg k).2 hg', by rw [happ]; exact hf⟩

/-- The element in cell `i` is destroyed. -/
theorem destroy_moved {l : List α} (h : l.length ≤ L.prealloc) {i : ℕ} (hi : i < l.length) :
    (moved L l i).destroy i = some (moved L l (i + 1)) := by
  have hc : Function.update (fun j => if j < i then none else l[j]?) i none =
      fun j => if j < i + 1 then none else l[j]? := by
    funext j
    by_cases hj : j = i
    · subst hj
      simp
    · rw [Function.update_of_ne hj]
      exact if_congr (by omega) rfl rfl
  have hx : (fun j => if j < i then none else l[j]?) i = some l[i] := by
    simp only [lt_irrefl, if_false, List.getElem?_eq_getElem hi]
  have hd : (moved L l i).destroy i = some ⟨l.length, .array _⟩ := destroy_mk h hx
  rwa [hc] at hd

/-- The elements are moved and destroyed one by one, until a move is refused. -/
theorem moveElements_moved {l : List α} (h : l.length ≤ L.prealloc) {n i : ℕ}
    (hn : i + n = l.length) {v : StdVector α} (hv : v.elems = l.take i) (g : Grants) :
    g.Covers n ∧ (∃ s v' g', moveElements slack n i (moved L l i) v g = .returned (s, v') g' ∧
        v'.elems = l) ∨
      ∃ k < n, g = some k ∧ ∃ v',
        moveElements slack n i (moved L l i) v g = .thrown (moved L l (i + k), v') := by
  induction n generalizing i v g with
  | zero =>
      refine .inl ⟨g.covers_zero, _, v, g, rfl, ?_⟩
      rw [hv, List.take_of_length_le (by omega)]
  | succ n ih =>
      have hi : i < l.length := by omega
      have hx : ((moved L l i).array.bind fun cells => cells i) = some l[i] := by
        simp only [array_moved h, Option.bind_some, lt_irrefl, if_false,
          List.getElem?_eq_getElem hi]
      rw [moveElements, hx]
      obtain ⟨rfl, hr⟩ | ⟨g', hr, hg, hne⟩ := g.request_cases
      · exact .inr ⟨0, n.succ_pos, rfl, v, by simp [StdVector.pushBack, hr]⟩
      · have hpush : ∃ v', v.pushBack slack l[i] g = some (v', g') := by
          rw [StdVector.pushBack, hr]
          exact ⟨_, rfl⟩
        obtain ⟨v', hv'⟩ := hpush
        have hel : v'.elems = l.take (i + 1) := by
          rw [elems_of_pushBack slack hv', hv, List.take_append_getElem hi]
        simp only [hv', destroy_moved h hi]
        obtain ⟨hc, hf⟩ | ⟨k, hk, hg', hf⟩ := ih (by omega) hel g'
        · exact .inl ⟨hc.succ hg hne, hf⟩
        · refine .inr ⟨k + 1, Nat.succ_lt_succ hk, (hg k).2 hg', ?_⟩
          rw [← Nat.add_assoc, Nat.add_right_comm]
          exact hf

/-- The elements leave the buffer. They stay there if no memory is granted, and some of
them are lost if a move is refused. -/
theorem makeVector_inline {l : List α} (h : l.length ≤ L.prealloc) {newCap : ℕ}
    (hcap : 0 < newCap) (g : Grants) :
    g.Covers (l.length + 1) ∧ (∃ v g', (inline L l).makeVector slack newCap g =
        .returned (heap L v) g' ∧ v.elems = l) ∨
      g = some 0 ∧ (inline L l).makeVector slack newCap g = .thrown (inline L l) ∨
      ∃ k < l.length, g = some (k + 1) ∧
        (inline L l).makeVector slack newCap g = .thrown (moved L l k) := by
  have hp := prealloc_lt L
  have hms : (inline L l).mSize = l.length := rfl
  simp only [makeVector, isSmall_inline h, not_true_eq_false, if_false, hms]
  rw [reserve_of_lt slack (lt_max_of_lt_left hcap : StdVector.new.capacity < _)]
  obtain ⟨rfl, hr⟩ | ⟨g', hr, hg, hne⟩ := g.request_cases
  · exact .inr (.inl ⟨rfl, by rw [hr]; rfl⟩)
  · simp only [hr, Option.map_some]
    obtain ⟨hc, s, v', g'', hm, hv⟩ | ⟨k, hk, hg', v', hm⟩ :=
      moveElements_moved slack h (Nat.zero_add _) (v := { StdVector.new with
        capacity := StdVector.new.grown slack (max newCap l.length)
        fits := Nat.zero_le _ }) rfl g'
    · refine .inl ⟨hc.succ hg hne, v', g'', ?_, hv⟩
      rw [← moved_zero, hm, Nat.mod_eq_of_lt (by omega)]
      rfl
    · refine .inr (.inr ⟨k, hk, (hg k).2 hg', ?_⟩)
      rw [← moved_zero, hm, Nat.zero_add]

/-! ## When nothing is lost -/

/-- The call does not return, and what it leaves, if anything, is not the list. -/
def Lost (o : Outcome (SmallVector L α)) (l : List α) : Prop :=
  o.isReturned = false ∧ ∀ t, o.state? = some t → ¬ t.Agrees l

theorem lost_thrown {t : SmallVector L α} {l : List α} (h : ¬ t.Agrees l) :
    Lost (.thrown t) l := by
  refine ⟨rfl, ?_⟩
  rintro t' ⟨⟩
  exact h

/-- The call ends well exactly when `c` holds. -/
def Goes (c : Prop) (o : Outcome (SmallVector L α)) (R : SmallVector L α → Prop)
    (l : List α) : Prop :=
  c ∧ o.Meets R (Holds · l) ∨ ¬ c ∧ Lost o l

theorem Goes.andThen {c : Prop} {o : Outcome (SmallVector L α)}
    {f : SmallVector L α → Grants → Outcome (SmallVector L α)}
    {R R' : SmallVector L α → Prop} {l : List α} (h : Goes c o R l)
    (hf : ∀ s g, R s → (f s g).Meets R' (Holds · l)) : Goes c (o.andThen f) R' l := by
  obtain ⟨hc, ho⟩ | ⟨hc, hr, ht⟩ := h
  · exact .inl ⟨hc, ho.andThen hf⟩
  · refine .inr ⟨hc, ?_⟩
    cases o with
    | returned s g => cases hr
    | thrown s => exact ⟨rfl, ht⟩
    | terminated => exact ⟨rfl, ht⟩
    | undefined => exact ⟨rfl, ht⟩

theorem Goes.congr {c c' : Prop} {o : Outcome (SmallVector L α)}
    {R : SmallVector L α → Prop} {l : List α} (h : Goes c o R l) (hc : c ↔ c') :
    Goes c' o R l := by
  rwa [Goes, ← hc]

theorem Goes.mono {c : Prop} {o : Outcome (SmallVector L α)}
    {R R' : SmallVector L α → Prop} {l : List α} (h : Goes c o R l) (hR : ∀ s, R s → R' s) :
    Goes c o R' l := by
  obtain ⟨hc, ho⟩ | ⟨hc, hl⟩ := h
  · exact .inl ⟨hc, ho.mono hR fun _ => id⟩
  · exact .inr ⟨hc, hl⟩

theorem Goes.of_meets {c : Prop} {o : Outcome (SmallVector L α)}
    {R : SmallVector L α → Prop} {l : List α} (hc : c) (h : o.Meets R (Holds · l)) :
    Goes c o R l :=
  .inl ⟨hc, h⟩

/-- The first element is lost once it is destroyed. -/
theorem not_agrees_moved {l : List α} {k : ℕ} (hk : 0 < k) (hkl : k < l.length) :
    ¬ (moved L l k).Agrees l := by
  intro h
  have hget := h.get 0
  rw [List.getElem?_eq_getElem (hk.trans hkl), get, Option.bind_eq_some_iff] at hget
  obtain ⟨n, -, hget⟩ := hget
  split at hget
  · obtain ⟨cells, hcells, hget⟩ := Option.bind_eq_some_iff.1 hget
    have hcell : cells 0 = none := by
      rw [data] at hcells
      split at hcells
      · rw [array_moved (of_decide_eq_true ‹_›)] at hcells
        cases hcells
        exact if_pos hk
      · obtain ⟨v, hv, -⟩ := Option.map_eq_some_iff.1 hcells
        rw [vector] at hv
        split at hv
        · rename_i hb
          cases hb
        · cases hv
    rw [hcell] at hget
    cases hget
  · cases hget

theorem goes_makeVector {l : List α} (h : l.length ≤ L.prealloc) {newCap : ℕ}
    (hcap : L.prealloc < newCap) (g : Grants) :
    Goes (∀ k, g = some k → k ≤ 1 ∨ l.length < k) ((inline L l).makeVector slack newCap g)
      (InVector · l) l := by
  obtain ⟨hg, v, g', hm, hv⟩ | ⟨rfl, hm⟩ | ⟨k, hk, rfl, hm⟩ :=
    makeVector_inline slack h (Nat.zero_lt_of_lt hcap) g
  · rw [hm]
    exact .of_meets (fun k hk => .inr (hg k hk)) ⟨v, rfl, hv⟩
  · rw [hm]
    refine .of_meets ?_ (Holds.inBuffer l h)
    rintro k ⟨⟩
    exact .inl (Nat.zero_le 1)
  · rw [hm]
    cases k with
    | zero =>
        refine .of_meets ?_ (Holds.inBuffer l h)
        rintro k ⟨⟩
        exact .inl le_rfl
    | succ k =>
        refine .inr ⟨fun hc => ?_, lost_thrown (not_agrees_moved k.succ_pos hk)⟩
        have := hc _ rfl
        omega

theorem meets_reserve_vector {s : SmallVector L α} {l : List α} (hs : InVector s l)
    (newCap : ℕ) (g : Grants) :
    (s.onVector (fun v => v.reserve slack newCap) g).Meets (InVector · l) (Holds · l) :=
  meets_onVector hs g fun _ _ _ hv h => (elems_of_reserve slack h).trans hv

/-- `reserve` beyond the buffer. -/
theorem goes_reserve {l : List α} (h : l.length ≤ L.prealloc) {newCap : ℕ}
    (hcap : L.prealloc < newCap) (g : Grants) :
    Goes (∀ k, g = some k → k ≤ 1 ∨ l.length < k) ((inline L l).reserve slack newCap g)
      (InVector · l) l := by
  rw [reserve, if_neg (fun hs => hcap.not_ge hs.2), if_pos (isSmall_inline h)]
  exact (goes_makeVector slack h hcap g).andThen fun s g hs =>
    meets_reserve_vector slack hs newCap g

theorem meets_append_vector {s : SmallVector L α} {l : List α} (hs : InVector s l) (x : α)
    (g : Grants) :
    (if s.mSize < L.prealloc then s.construct x g
      else s.onVector (fun v => v.pushBack slack x) g).Meets
      (Holds · (l ++ [x])) (Holds · l) := by
  have hlt : ¬ s.mSize < L.prealloc := by
    obtain ⟨v, rfl, -⟩ := hs
    exact Nat.not_succ_lt_self
  rw [if_neg hlt]
  refine (meets_onVector hs g ?_).mono (fun _ => InVector.holds) fun _ => id
  exact fun v v' g' hv h => hv ▸ elems_of_pushBack slack h

/-- `push_back` and `emplace_back`. -/
theorem goes_append_inline {l : List α} (h : l.length ≤ L.prealloc) (x : α) (g : Grants) :
    Goes (L.prealloc < l.length + 1 → ∀ k, g = some k → k ≤ 1 ∨ l.length < k)
      ((inline L l).append slack x g) (Holds · (l ++ [x])) l := by
  have hsize := (Holds.inBuffer l h).agrees.size
  simp only [append, hsize]
  by_cases hlt : l.length < L.prealloc
  · refine .of_meets (fun hgt => absurd hlt (by omega)) ?_
    have hlt' : (inline L l).mSize < L.prealloc := hlt
    rw [reserve, if_pos ⟨isSmall_inline h, hlt⟩, Outcome.andThen, if_pos hlt',
      construct_inline hlt]
    cases g.request with
    | none => exact Holds.inBuffer l h
    | some g =>
        refine Holds.inBuffer (l ++ [x]) ?_
        rw [List.length_append, List.length_singleton]
        exact hlt
  · have hcap : L.prealloc < l.length + 1 := by omega
    have hgo := (goes_reserve slack h hcap g).andThen
      fun s g hs => meets_append_vector slack hs x g
    exact hgo.congr ⟨fun hc _ => hc, fun hc => hc hcap⟩

theorem meets_append_heap {s : SmallVector L α} {l : List α} (hs : InVector s l) (x : α)
    (g : Grants) : (s.append slack x g).Meets (Holds · (l ++ [x])) (Holds · l) := by
  have hsmall : s.isSmall = false := by
    obtain ⟨v, rfl, -⟩ := hs
    exact isSmall_heap v
  simp only [append, hs.holds.agrees.size, reserve, hsmall, Bool.false_eq_true, false_and,
    if_false]
  exact (meets_reserve_vector slack hs _ g).andThen fun s g hs =>
    meets_append_vector slack hs x g

/-- `resize`: the elements that are there in the end. -/
theorem take_shrunk (l : List α) (count : ℕ) :
    l.take (l.length - (l.length - count)) = l.take count := by
  rw [List.take_eq_take_iff]
  omega

theorem meets_resize_vector {s : SmallVector L α} {l : List α} (hs : InVector s l)
    (count : ℕ) (x : α) (g : Grants) :
    (s.onVector (fun v => v.resize slack count x) g).Meets
      (Holds · (l.take count ++ List.replicate (count - l.length) x)) (Holds · l) := by
  refine (meets_onVector hs g ?_).mono (fun _ => InVector.holds) fun _ => id
  exact fun v v' g' hv h => hv ▸ elems_of_resize slack h

theorem goes_resize_inline {l : List α} (h : l.length ≤ L.prealloc) (count : ℕ) (x : α)
    (g : Grants) :
    Goes (∀ k, g = some k → if L.prealloc < count then k ≤ 1 ∨ l.length < k
        else k = 0 ∨ count - l.length ≤ k)
      ((inline L l).resize slack count x g)
      (Holds · (l.take count ++ List.replicate (count - l.length) x)) l := by
  have hms : (inline L l).mSize = l.length := rfl
  rw [resize, if_pos (isSmall_inline h), hms, shrink_inline h (Nat.sub_le _ _), Outcome.andThen,
    take_shrunk]
  by_cases hcount : count ≤ L.prealloc
  · simp only [hcount, if_true, not_lt.2 hcount, if_false]
    have hms' : count - (inline L (l.take count)).mSize = count - l.length := by
      change count - (l.take count).length = _
      rw [List.length_take]
      omega
    have hle : (l.take count).length + (count - l.length) ≤ L.prealloc := by
      rw [List.length_take]
      omega
    rw [hms']
    obtain ⟨hg, g', hf⟩ | ⟨k, hk, rfl, hf⟩ := fill_inline x hle g
    · rw [hf]
      refine .of_meets (fun k hk => .inr (hg k hk)) (Holds.inBuffer _ ?_)
      rwa [List.length_append, List.length_replicate]
    · have htake : l.take count = l := List.take_of_length_le (by omega)
      rw [htake] at hf ⊢
      rw [hf]
      cases k with
      | zero =>
          rw [List.replicate_zero, List.append_nil]
          refine .of_meets ?_ (Holds.inBuffer l h)
          rintro k ⟨⟩
          exact .inl rfl
      | succ k =>
          have hle' : (l ++ List.replicate (k + 1) x).length ≤ L.prealloc := by
            rw [List.length_append, List.length_replicate]
            omega
          refine .inr ⟨fun hc => ?_, lost_thrown fun ha => ?_⟩
          · have := hc _ rfl
            omega
          -- the copies before the one that is refused are still there
          · have hsize := ha.size.symm.trans (Holds.inBuffer _ hle').agrees.size
            rw [Option.some_inj, List.length_append, List.length_replicate] at hsize
            omega
  · have htake : l.take count = l := List.take_of_length_le (by omega)
    simp only [hcount, if_false, not_le.1 hcount, if_true]
    have hgo := (goes_makeVector slack h (not_le.1 hcount) g).andThen
      fun s g hs => meets_resize_vector slack hs count x g
    rwa [htake] at hgo ⊢

/-- The last element goes. -/
theorem meets_popBack {s : SmallVector L α} {l : List α} (hs : Holds s l) (hl : l ≠ [])
    (g : Grants) : (s.popBack g).Meets (Holds · l.dropLast) (Holds · l) := by
  have hempty : s.empty = some false := by
    rw [hs.agrees.empty, List.isEmpty_eq_false_iff.2 hl]
  simp only [popBack, hempty]
  cases hs with
  | inBuffer l h =>
      obtain rfl | ⟨l, x, rfl⟩ := l.eq_nil_or_concat'
      · exact absurd rfl hl
      · rw [if_pos (isSmall_inline h), destroyLast_inline x h, List.dropLast_concat]
        rw [List.length_append, List.length_singleton] at h
        exact Holds.inBuffer l (Nat.le_of_succ_le h)
  | inVector v =>
      rw [isSmall_heap, if_neg Bool.false_ne_true]
      refine (meets_onVector ⟨v, rfl, rfl⟩ g ?_).mono (fun _ => InVector.holds) fun _ => id
      rintro v v' g' hv ⟨⟩
      exact congrArg List.dropLast hv

/-- The elements in the buffer are destroyed, unless the program ends. -/
theorem goes_resizeZero {l : List α} (h : l.length ≤ L.prealloc) (g : Grants) :
    Goes (∀ k, g = some k → 0 < k) ((inline L l).resizeZero g).noexcept (Holds · []) l := by
  have hms : (inline L l).mSize = l.length := rfl
  rw [resizeZero, hms]
  obtain ⟨rfl, hr⟩ | ⟨g', hr, -, hne⟩ := g.request_cases
  · rw [hr]
    refine .inr ⟨fun hc => Nat.lt_irrefl 0 (hc 0 rfl), rfl, ?_⟩
    rintro t ⟨⟩
  · rw [hr]
    dsimp only
    rw [shrink_inline h le_rfl, Nat.sub_self, List.take_zero]
    refine .of_meets (fun k hk => Nat.pos_of_ne_zero ?_) (Holds.inBuffer [] (Nat.zero_le _))
    rintro rfl
    exact hne hk

theorem spared_of_not_small {s : SmallVector L α} (hs : s.isSmall = false) (op : Op ι α)
    (g : Grants) : s.Spared op g := by
  intro h
  rw [hs] at h
  cases h

/-- The condition, for elements in the buffer. -/
theorem spared_inline_iff {l : List α} (h : l.length ≤ L.prealloc) (op : Op ι α) (g : Grants) :
    (inline L l).Spared op g ↔ ∀ k, g = some k →
      if op.spoils then 0 < k
      else if L.prealloc < op.demand l.length then k ≤ 1 ∨ l.length < k
      else k = 0 ∨ op.copies l.length ≤ k :=
  ⟨fun hs => hs (isSmall_inline h), fun hs _ => hs⟩

/-- `clear` and `clear_and_release`, with what they do to the vector. -/
theorem goes_clear {s : SmallVector L α} {l : List α} (hs : Holds s l) (g : Grants)
    {op : Op ι α} (hop : op.spoils = true) {f : StdVector α → StdVector α}
    (hf : ∀ v, (f v).elems = []) :
    Goes (s.Spared op g) (if s.isSmall then s.resizeZero g
      else s.onVector (fun v g => some (f v, g)) g).noexcept (Holds · []) l := by
  cases hs with
  | inBuffer l h =>
      rw [if_pos (isSmall_inline h)]
      refine (goes_resizeZero h g).congr ?_
      rw [spared_inline_iff h]
      simp only [hop, if_true]
  | inVector v =>
      refine .of_meets (spared_of_not_small (isSmall_heap v) op g) ?_
      rw [isSmall_heap, if_neg Bool.false_ne_true, onVector, vector_heap]
      exact (InVector.holds ⟨f v, rfl, hf v⟩ : Holds (heap L (f v)) [])

/-- A call that wants no memory, and copies and makes nothing, is always fine. -/
theorem spared_of_modest {s : SmallVector L α} {op : Op ι α} (g : Grants)
    (hop : op.spoils = false) (hd : op.demand s.mSize ≤ L.prealloc)
    (hc : op.copies s.mSize = 0) : s.Spared op g := by
  intro _ k _
  rw [hop, if_neg Bool.false_ne_true, if_neg (not_lt.2 hd), hc]
  exact .inr (Nat.zero_le k)

theorem goes_append {s : SmallVector L α} {l : List α} (hs : Holds s l) (x : α) (g : Grants)
    {op : Op ι α} (hop : op.spoils = false) (hd : op.demand s.mSize = s.mSize + 1)
    (hc : op.copies s.mSize = 0) :
    Goes (s.Spared op g) (s.append slack x g) (Holds · (l ++ [x])) l := by
  cases hs with
  | inBuffer l h =>
      refine (goes_append_inline slack h x g).congr ?_
      change op.demand l.length = l.length + 1 at hd
      change op.copies l.length = 0 at hc
      rw [spared_inline_iff h, hop, hd, hc]
      simp only [Bool.false_eq_true, if_false]
      constructor
      · intro hk k hg
        split
        · exact hk ‹_› k hg
        · exact .inr (Nat.zero_le k)
      · intro hk hlt k hg
        have := hk k hg
        rwa [if_pos hlt] at this
  | inVector v =>
      exact .of_meets (spared_of_not_small (isSmall_heap v) op g)
        (meets_append_heap slack ⟨v, rfl, rfl⟩ x g)

/-- Every call keeps the small vector and the list together, unless it loses elements. -/
theorem goes_perform {s : SmallVector L α} {l : List α} (hs : Holds s l) {op : Op ι α}
    (hl : op.legal l) (g : Grants) :
    Goes (s.Spared op g) (op.perform slack make s g) (Holds · (op.apply make l)) l := by
  cases op with
  | pushBack v => exact goes_append slack hs v g rfl rfl rfl
  | emplaceBack args => exact goes_append slack hs (make args) g rfl rfl rfl
  | popBack =>
      refine .of_meets (spared_of_modest g rfl (Nat.zero_le _) rfl) (meets_popBack hs ?_ g)
      rintro rfl
      cases hl
  | resize count x =>
      cases hs with
      | inBuffer l h =>
          exact (goes_resize_inline slack h count x g).congr
            (spared_inline_iff h (Op.resize count x) g).symm
      | inVector v =>
          refine .of_meets (spared_of_not_small (isSmall_heap v) _ g) ?_
          rw [Op.perform, resize, isSmall_heap, if_neg Bool.false_ne_true]
          exact meets_resize_vector slack ⟨v, rfl, rfl⟩ count x g
  | reserve newCap =>
      cases hs with
      | inBuffer l h =>
          by_cases hcap : newCap ≤ L.prealloc
          · refine .of_meets (spared_of_modest g rfl hcap rfl) ?_
            rw [Op.perform, reserve, if_pos ⟨isSmall_inline h, hcap⟩]
            exact Holds.inBuffer l h
          · refine ((goes_reserve slack h (not_le.1 hcap) g).mono fun _ => InVector.holds).congr ?_
            rw [spared_inline_iff h]
            simp only [Op.spoils, Bool.false_eq_true, if_false, Op.demand, not_le.1 hcap, if_true]
      | inVector v =>
          refine .of_meets (spared_of_not_small (isSmall_heap v) _ g) ?_
          simp only [Op.perform, reserve, isSmall_heap, Bool.false_eq_true, false_and, if_false]
          exact (meets_reserve_vector slack ⟨v, rfl, rfl⟩ newCap g).mono
            (fun _ => InVector.holds) fun _ => id
  | clear => exact goes_clear hs g rfl fun _ => rfl
  | clearAndRelease => exact goes_clear hs g rfl fun _ => rfl

/-! ## Whole runs -/

/-- The small vector and the list are together. -/
def Pair.Together (s : Pair L α) : Prop :=
  ∃ v, s.small = some v ∧ Holds v s.plain

theorem Pair.Together.agrees {s : Pair L α} (h : s.Together) : s.Agrees := by
  obtain ⟨v, hv, hs⟩ := h
  exact ⟨v, hv, hs.agrees⟩

/-- One call keeps them together, or they no longer agree. -/
theorem step_cases {s t : Pair L α} {call : Op ι α × Grants} (h : s.Together)
    (hstep : step slack make s call = some t) :
    s.Spared call ∧ t.Together ∨ ¬ s.Spared call ∧ ¬ t.Agrees := by
  obtain ⟨v, hv, hs⟩ := h
  obtain ⟨op, g⟩ := call
  rw [step, Option.ite_none_right_eq_some] at hstep
  obtain ⟨hl, ⟨⟩⟩ := hstep
  have hspared : s.Spared (op, g) ↔ v.Spared op g := by
    constructor
    · exact fun h => h v hv
    · rintro h v' hv'
      obtain rfl : v = v' := Option.some.inj (hv.symm.trans hv')
      exact h
  rw [hspared]
  obtain ⟨hc, hm⟩ | ⟨hc, hr, hlost⟩ := goes_perform slack make hs hl g
  · refine .inl ⟨hc, ?_⟩
    obtain ⟨w, hw, hholds⟩ := hm.state
    simp only [hv]
    refine ⟨w, hw, ?_⟩
    dsimp only
    split
    · rwa [if_pos ‹_›] at hholds
    · rwa [if_neg ‹_›] at hholds
  · refine .inr ⟨hc, ?_⟩
    simp only [hv, hr]
    rintro ⟨w, hw, ha⟩
    exact hlost w hw ha

/-- Whatever the element type, the size of the buffer and the calls, the small vector shows
in every state what a plain vector shows, if and only if no call is refused a move out of
the buffer, or a copy into it, other than the first one it does, and none that clears the
buffer is refused anything. -/
theorem agrees_always_iff {calls : List (Op ι α × Grants)} {u : Pair L α}
    (hr : Transition.run (step slack make) (Pair.new : Pair L α) calls = some u) :
    Transition.Always (step slack make) Pair.Agrees (Pair.new : Pair L α) calls ↔
      Transition.Guarded (step slack make) Pair.Spared (Pair.new : Pair L α) calls := by
  refine Transition.always_iff_guarded_of_invariant (I := Pair.Together)
    (fun s => Pair.Together.agrees) ?_ ?_ ?_ hr
  · intro s call t hs hok ht
    obtain ⟨-, h⟩ | ⟨hno, -⟩ := step_cases slack make hs ht
    · exact h
    · exact absurd hok hno
  · intro s call t hs ht hP
    obtain ⟨h, -⟩ | ⟨-, hno⟩ := step_cases slack make hs ht
    · exact h
    · exact absurd hP hno
  · exact ⟨SmallVector.new, rfl, Holds.inBuffer [] (Nat.zero_le _)⟩

/-- A `small_vector<std::string, 4>`, where a string takes 32 bytes and a vector 24. -/
def strings : Layout where
  Prealloc := 4
  valueSize := 32
  vectorSize := 24
  prealloc_lt := by decide

/-- Memory is refused for a vector of nine, and granted for one of five. That one can be cleared
without making an element. -/
theorem agrees_always_of_refused_reserve :
    Transition.Always (step (fun _ _ => 0) id) Pair.Agrees (Pair.new : Pair strings ℕ)
      [(.resize 4 7, none), (.reserve 9, some 0), (.pushBack 8, none), (.clear, some 0)] := by
  refine (agrees_always_iff _ _ rfl).2 ?_
  refine Transition.Guarded.cons ?_ rfl (Transition.Guarded.cons ?_ rfl
    (Transition.Guarded.cons ?_ rfl (Transition.Guarded.cons ?_ rfl trivial)))
  · rintro v - - k ⟨⟩
  · rintro v ⟨⟩ - k ⟨⟩
    decide
  · rintro v - - k ⟨⟩
  · rintro v ⟨⟩ ⟨⟩

/-- The second of two copies is refused, and the first one stays. -/
theorem not_agrees_always_of_refused_copy :
    ¬ Transition.Always (step (fun _ _ => 0) id) Pair.Agrees (Pair.new : Pair strings ℕ)
      [(.resize 2 7, some 1)] := by
  rintro ⟨-, h⟩
  obtain ⟨v, hv, ha⟩ := h _ rfl
  cases hv
  cases ha.size

end SmallVector

end Zth
