import Mathlib.Algebra.BigOperators.Group.Finset.Piecewise
import Zth.Sync.SharedPointer

/-!
# Reference counting is exact

Every operation of shared pointers and references comes down to a few changes of
one pointer. For each of them, what happens to the counters, to the number of
pointers and to the objects that are cleaned up follows from what `used` and
`unused` do; the rest is put together from these.
-/

namespace Zth

namespace Shared

variable {P O : Type*} [DecidableEq P] [DecidableEq O]

/-- One for the object that is designated, zero for the others. -/
def mark (object : Option O) (o : O) : ℕ :=
  if object = some o then 1 else 0

@[simp] theorem mark_none (o : O) : mark none o = 0 := rfl

theorem mark_eq_one_iff {object : Option O} {o : O} : mark object o = 1 ↔ object = some o := by
  rw [mark]
  split <;> simp_all

theorem mark_le_one (object : Option O) (o : O) : mark object o ≤ 1 := by
  rw [mark]
  split <;> omega

namespace State

/-- The state with one more pointer alive. -/
def enlist (s : State P O) (p : P) : State P O :=
  { s with alive := insert p s.alive }

omit [DecidableEq P] in
theorem usedIf_eq_some_iff {s t : State P O} {object : Option O} :
    s.usedIf object = some t ↔
      (∀ o, object = some o → o ∉ s.cleaned ∧ s.mCount o < maxCount) ∧
        t = { s with mCount := fun o => s.mCount o + mark object o } := by
  cases object with
  | none =>
      simp only [usedIf, Option.elim_none, Option.some_inj, mark_none, Nat.add_zero, reduceCtorEq,
        false_implies, implies_true, true_and]
      exact eq_comm
  | some a =>
      have hcount : Function.update s.mCount a (s.mCount a + 1) =
          fun o => s.mCount o + mark (some a) o := by
        funext o
        by_cases ho : o = a
        · subst ho
          simp [mark]
        · simp [mark, ho, Ne.symm ho]
      rw [usedIf, Option.elim_some, used, Option.ite_none_right_eq_some, hcount,
        Option.some_inj, eq_comm]
      simp

omit [DecidableEq P] in
theorem unusedIf_eq_some_iff {s t : State P O} {object : Option O} :
    s.unusedIf object = some t ↔
      (∀ o, object = some o → o ∉ s.cleaned ∧ 0 < s.mCount o) ∧
        t = { s with
              mCount := fun o => s.mCount o - mark object o
              cleaned := s.cleaned ++ (object.filter fun o => s.mCount o ≤ 1).toList } := by
  cases object with
  | none =>
      simp only [unusedIf, Option.elim_none, Option.some_inj, mark_none, Nat.sub_zero, reduceCtorEq,
        false_implies, implies_true, true_and, Option.filter_none, Option.toList_none,
        List.append_nil]
      exact eq_comm
  | some a =>
      have hcount : Function.update s.mCount a (s.mCount a - 1) =
          fun o => s.mCount o - mark (some a) o := by
        funext o
        by_cases ho : o = a
        · subst ho
          simp [mark]
        · simp [mark, ho, Ne.symm ho]
      have hclean : (if 0 < s.mCount a - 1 then s.cleaned else s.cleaned ++ [a]) =
          s.cleaned ++ ((some a).filter fun o => s.mCount o ≤ 1).toList := by
        rw [Option.filter_some]
        by_cases hle : s.mCount a ≤ 1
        · simp [hle]
        · simp [hle, Nat.sub_pos_of_lt (not_le.1 hle)]
      rw [unusedIf, Option.elim_some, unused, Option.ite_none_right_eq_some]
      simp only [hcount, hclean, Option.some_inj]
      rw [eq_comm]
      simp

/-- Who designates `o`, when one pointer changes. -/
theorem designators_setObject {s : State P O} {p : P} (hp : p ∈ s.alive) (object : Option O)
    (o : O) :
    (s.setObject p object).designators o + mark (s.mObject p) o =
      s.designators o + mark object o := by
  have hsum : ∀ f : P → Option O,
      (s.alive.filter fun q => f q = some o).card =
        mark (f p) o + ∑ q ∈ s.alive.erase p, mark (f q) o := by
    intro f
    rw [Finset.card_filter]
    exact (Finset.add_sum_erase s.alive (fun q => mark (f q) o) hp).symm
  have hrest : ∑ q ∈ s.alive.erase p, mark (Function.update s.mObject p object q) o =
      ∑ q ∈ s.alive.erase p, mark (s.mObject q) o := by
    refine Finset.sum_congr rfl fun q hq => ?_
    rw [Function.update_of_ne (Finset.ne_of_mem_erase hq)]
  have hnew : (s.setObject p object).designators o =
      mark object o + ∑ q ∈ s.alive.erase p, mark (s.mObject q) o := by
    rw [← hrest]
    exact (hsum (Function.update s.mObject p object)).trans (by rw [Function.update_self])
  rw [hnew, designators, hsum]
  omega

/-- A new pointer that is null designates nothing. -/
theorem designators_enlist {s : State P O} {p : P} (hp : p ∉ s.alive) (o : O) :
    ((s.setObject p none).enlist p).designators o = s.designators o := by
  have hfilter : (insert p s.alive).filter
      (fun q => Function.update s.mObject p none q = some o) =
        s.alive.filter fun q => s.mObject q = some o := by
    rw [Finset.filter_insert, if_neg (by simp)]
    refine Finset.filter_congr fun q hq => ?_
    rw [Function.update_of_ne (ne_of_mem_of_not_mem hq hp)]
  exact congrArg Finset.card hfilter

/-- A null pointer can go. -/
theorem designators_erase {s : State P O} {p : P} (hp : s.mObject p = none) (o : O) :
    State.designators { s with alive := s.alive.erase p } o = s.designators o := by
  have hfilter : (s.alive.erase p).filter (fun q => s.mObject q = some o) =
      s.alive.filter fun q => s.mObject q = some o := by
    rw [Finset.filter_erase, Finset.erase_eq_of_notMem]
    simp [hp]
  exact congrArg Finset.card hfilter

omit [DecidableEq P] in
theorem designators_pos {s : State P O} {p : P} {o : O} (hp : p ∈ s.alive)
    (ho : s.mObject p = some o) : 0 < s.designators o :=
  Finset.card_pos.2 ⟨p, Finset.mem_filter.2 ⟨hp, ho⟩⟩

omit [DecidableEq P] in
theorem designators_le (s : State P O) (o : O) : s.designators o ≤ s.alive.card :=
  Finset.card_filter_le _ _

end State

/-! ## One change of a pointer -/

/-- What holds after an operation. -/
structure Keeps (s t : State P O) : Prop where
  exact : Exact t
  cleans : Cleans s t

omit [DecidableEq P] in
/-- Nobody points to an object that is cleaned up. -/
theorem Exact.designators_eq_zero {s : State P O} (hs : Exact s) {o : O}
    (ho : o ∈ s.cleaned) : s.designators o = 0 := by
  by_contra hne
  obtain ⟨p, hp⟩ := Finset.card_pos.1 (Nat.pos_of_ne_zero hne)
  obtain ⟨hp, hpo⟩ := Finset.mem_filter.1 hp
  exact hs.live p hp o hpo ho

omit [DecidableEq P] in
/-- Where everybody designates what they did before, the rest stays as well. -/
theorem Keeps.congr {s t u : State P O} (h : Keeps s t) (hcount : u.mCount = t.mCount)
    (hclean : u.cleaned = t.cleaned) (hd : ∀ o, u.designators o = t.designators o) :
    Keeps s u := by
  refine ⟨⟨?_, ?_, ?_⟩, ?_, ?_⟩
  · intro o
    rw [hcount, hd]
    exact h.exact.refs o
  · rw [hclean]
    exact h.exact.nodup
  · intro p hp o ho hc
    rw [hclean] at hc
    have hpos := State.designators_pos hp ho
    rw [hd, h.exact.designators_eq_zero hc] at hpos
    exact lt_irrefl 0 hpos
  · rw [hclean]
    exact h.cleans.1
  · intro o
    rw [hclean, hd]
    exact h.cleans.2 o

omit [DecidableEq P] in
/-- Nothing happens to the counters. -/
theorem Exact.keeps {s t : State P O} (hs : Exact s) (hcount : t.mCount = s.mCount)
    (hclean : t.cleaned = s.cleaned) (hd : ∀ o, t.designators o = s.designators o) :
    Keeps s t := by
  have hself : Keeps s s := by
    refine ⟨hs, List.prefix_rfl, fun o => ⟨.inl, ?_⟩⟩
    rintro (ho | ⟨hpos, hzero⟩)
    · exact ho
    · exact absurd hzero hpos.ne'
  exact hself.congr hcount hclean hd

omit [DecidableEq P] in
/-- A step before which nothing happened to the counters. -/
theorem Keeps.trans_same {s t u : State P O} (h : Keeps t u) (hclean : t.cleaned = s.cleaned)
    (hd : ∀ o, t.designators o = s.designators o) : Keeps s u := by
  refine ⟨h.exact, hclean ▸ h.cleans.1, fun o => ?_⟩
  rw [h.cleans.2 o, hclean, hd]

/-- What `reset` leaves. -/
theorem reset_eq_some_iff {s t : State P O} {p : P} {object : Option O} :
    SharedPointer.reset s p object = some t ↔
      (∀ o, object = some o → o ∉ s.cleaned ∧ s.mCount o < maxCount) ∧
        (∀ o, s.mObject p = some o → o ∉ s.cleaned ∧ 0 < s.mCount o + mark object o) ∧
        t = { alive := s.alive
              mObject := Function.update s.mObject p object
              mCount := fun o => s.mCount o + mark object o - mark (s.mObject p) o
              cleaned := s.cleaned ++
                ((s.mObject p).filter fun o => s.mCount o + mark object o ≤ 1).toList } := by
  rw [SharedPointer.reset, Option.bind_eq_some_iff]
  constructor
  · rintro ⟨s', hs', ht⟩
    obtain ⟨hused, rfl⟩ := State.usedIf_eq_some_iff.1 hs'
    obtain ⟨t', ht', rfl⟩ := Option.map_eq_some_iff.1 ht
    obtain ⟨hunused, rfl⟩ := State.unusedIf_eq_some_iff.1 ht'
    exact ⟨hused, hunused, rfl⟩
  · rintro ⟨hused, hunused, rfl⟩
    refine ⟨_, State.usedIf_eq_some_iff.2 ⟨hused, rfl⟩, ?_⟩
    rw [Option.map_eq_some_iff]
    exact ⟨_, State.unusedIf_eq_some_iff.2 ⟨hunused, rfl⟩, rfl⟩

/-- `reset` keeps the counters exact, and cleans up the old object if this was its last
pointer. -/
theorem keeps_reset {s t : State P O} {p : P} {object : Option O} (hs : Exact s)
    (hp : p ∈ s.alive) (h : SharedPointer.reset s p object = some t) : Keeps s t := by
  obtain ⟨hobject, hold, ht⟩ := reset_eq_some_iff.1 h
  have hd : ∀ o, t.designators o + mark (s.mObject p) o = s.designators o + mark object o := by
    intro o
    rw [← State.designators_setObject hp]
    subst ht
    rfl
  have hcount : ∀ o, t.mCount o = s.mCount o + mark object o - mark (s.mObject p) o := by
    subst ht
    exact fun o => rfl
  have hclean : t.cleaned = s.cleaned ++
      ((s.mObject p).filter fun o => s.mCount o + mark object o ≤ 1).toList := by
    subst ht
    rfl
  have hmem : ∀ o, o ∈ t.cleaned ↔ o ∈ s.cleaned ∨ 0 < s.designators o ∧ t.designators o = 0 := by
    intro o
    rw [hclean, List.mem_append, Option.mem_toList, Option.filter_eq_some_iff,
      ← mark_eq_one_iff, decide_eq_true_eq, hs.refs o]
    have hmark := mark_le_one (s.mObject p) o
    have := hd o
    constructor
    · rintro (ho | ⟨ho, hle⟩)
      · exact .inl ho
      · have hpos := State.designators_pos hp (mark_eq_one_iff.1 ho)
        exact .inr ⟨hpos, by omega⟩
    · rintro (ho | ⟨hpos, hzero⟩)
      · exact .inl ho
      · exact .inr ⟨by omega, by omega⟩
  refine ⟨⟨?_, ?_, ?_⟩, ?_, hmem⟩
  · intro o
    rw [hcount, hs.refs, ← hd o, Nat.add_sub_cancel]
  · rw [hclean]
    refine hs.nodup.append (Option.toList_nodup _) ?_
    intro o ho hnew
    rw [Option.mem_toList, Option.filter_eq_some_iff] at hnew
    exact (hold o hnew.1).1 ho
  · intro q hq o ho hc
    have hpos := State.designators_pos hq ho
    obtain hc | ⟨-, hzero⟩ := (hmem o).1 hc
    · have hnone := hs.designators_eq_zero hc
      have hmark := mark_le_one object o
      have := hd o
      exact (hobject o (mark_eq_one_iff.1 (by omega))).1 hc
    · exact absurd hzero hpos.ne'
  · rw [hclean]
    exact List.prefix_append _ _

/-- A pointer that is constructed points to one object more, or to nothing. -/
theorem keeps_construct {s t : State P O} {p : P} {object : Option O} (hs : Exact s)
    (hp : p ∉ s.alive) (h : SharedPointer.construct s p object = some t) : Keeps s t := by
  obtain ⟨hobject, ht⟩ := State.usedIf_eq_some_iff.1 h
  have hd : ∀ o, t.designators o = s.designators o + mark object o := by
    intro o
    have hmem : p ∈ ((s.setObject p none).enlist p).alive := Finset.mem_insert_self p s.alive
    have hset := State.designators_setObject hmem object o
    have hnone : ((s.setObject p none).enlist p).mObject p = none := Function.update_self ..
    have hsame : (((s.setObject p none).enlist p).setObject p object).mObject =
        t.mObject := by
      subst ht
      exact Function.update_idem ..
    rw [State.designators_enlist hp, hnone, mark_none, Nat.add_zero] at hset
    rw [← hset, State.designators, State.designators, hsame]
    subst ht
    rfl
  have hcount : ∀ o, t.mCount o = s.mCount o + mark object o := by
    subst ht
    exact fun o => rfl
  have hclean : t.cleaned = s.cleaned := by
    subst ht
    rfl
  refine ⟨⟨?_, ?_, ?_⟩, ?_, ?_⟩
  · intro o
    rw [hcount, hd, hs.refs]
  · rw [hclean]
    exact hs.nodup
  · intro q hq o ho hc
    rw [hclean] at hc
    have hpos := State.designators_pos hq ho
    rw [hd, hs.designators_eq_zero hc, Nat.zero_add] at hpos
    have hmark := mark_le_one object o
    exact (hobject o (mark_eq_one_iff.1 (by omega))).1 hc
  · rw [hclean]
  · intro o
    rw [hclean, hd]
    refine ⟨.inl, ?_⟩
    rintro (ho | ⟨hpos, hzero⟩)
    · exact ho
    · omega

/-- What one pointer releases and a null pointer takes. -/
theorem keeps_transfer {s : State P O} {p q : P} (hs : Exact s) (hp : p ∈ s.alive)
    (hq : q ∈ s.alive) (hnull : s.mObject p = none) :
    Keeps s ((s.setObject q none).setObject p (s.mObject q)) := by
  refine hs.keeps rfl rfl fun o => ?_
  have hrelease := State.designators_setObject hq none o
  have htake := State.designators_setObject (s := s.setObject q none) hp (s.mObject q) o
  have hnone : (s.setObject q none).mObject p = none := by
    change Function.update s.mObject q none p = none
    by_cases hpq : p = q
    · subst hpq
      exact Function.update_self ..
    · rw [Function.update_of_ne hpq]
      exact hnull
  rw [hnone, mark_none, Nat.add_zero] at htake
  rw [mark_none, Nat.add_zero] at hrelease
  omega

omit [DecidableEq P] in
theorem Keeps.trans_keeps {s t u : State P O} (h : Keeps s t)
    (hcount : u.mCount = t.mCount) (hclean : u.cleaned = t.cleaned)
    (hu : Exact u) : Keeps s u := by
  refine h.congr hcount hclean fun o => ?_
  rw [← hu.refs, ← h.exact.refs, hcount]

theorem keeps_assignMove {s t : State P O} {p q : P} (hs : Exact s) (hp : p ∈ s.alive)
    (hq : q ∈ s.alive) (h : SharedPointer.assignMove s p q = some t) : Keeps s t := by
  obtain ⟨s', hs', rfl⟩ := Option.map_eq_some_iff.1 h
  have hkeeps := keeps_reset hs hp hs'
  obtain ⟨-, -, rfl⟩ := reset_eq_some_iff.1 hs'
  have htransfer := keeps_transfer hkeeps.exact hp hq (Function.update_self ..)
  exact hkeeps.trans_keeps rfl rfl htransfer.exact

theorem keeps_constructMove {s t : State P O} {p q : P} (hs : Exact s) (hp : p ∉ s.alive)
    (hq : q ∈ s.alive) (h : SharedPointer.constructMove s p q = some t) : Keeps s t := by
  have hnew : Keeps s ((s.setObject p none).enlist p) :=
    hs.keeps rfl rfl (State.designators_enlist hp)
  have hmove : Keeps ((s.setObject p none).enlist p) t :=
    keeps_assignMove hnew.exact (Finset.mem_insert_self p s.alive) (Finset.mem_insert_of_mem hq) h
  exact hmove.trans_same rfl (State.designators_enlist hp)

theorem keeps_destruct {s t : State P O} {p : P} (hs : Exact s) (hp : p ∈ s.alive)
    (h : SharedPointer.destruct s p = some t) : Keeps s t := by
  obtain ⟨s', hs', rfl⟩ := Option.map_eq_some_iff.1 h
  have hkeeps := keeps_reset hs hp hs'
  obtain ⟨-, -, rfl⟩ := reset_eq_some_iff.1 hs'
  exact hkeeps.congr rfl rfl (State.designators_erase (Function.update_self ..))

/-! ## Every operation -/

/-- What the operations come down to. -/
inductive Change (P O : Type*) where
  | construct (p : P) (object : Option O)
  | constructMove (p q : P)
  | reset (p : P) (object : Option O)
  | assignMove (p q : P)
  | destruct (p : P)

namespace Change

def perform (s : State P O) : Change P O → Option (State P O)
  | construct p object => SharedPointer.construct s p object
  | constructMove p q => SharedPointer.constructMove s p q
  | reset p object => SharedPointer.reset s p object
  | assignMove p q => SharedPointer.assignMove s p q
  | destruct p => SharedPointer.destruct s p

def Legal (s : State P O) : Change P O → Prop
  | construct p object => p ∉ s.alive ∧ ∀ o, object = some o → o ∉ s.cleaned
  | constructMove p q => p ∉ s.alive ∧ q ∈ s.alive
  | reset p object => p ∈ s.alive ∧ ∀ o, object = some o → o ∉ s.cleaned
  | assignMove p q => p ∈ s.alive ∧ q ∈ s.alive
  | destruct p => p ∈ s.alive

theorem keeps {s t : State P O} {c : Change P O} (hs : Exact s) (hl : c.Legal s)
    (h : c.perform s = some t) : Keeps s t := by
  cases c with
  | construct p object => exact keeps_construct hs hl.1 h
  | constructMove p q => exact keeps_constructMove hs hl.1 hl.2 h
  | reset p object => exact keeps_reset hs hl.1 h
  | assignMove p q => exact keeps_assignMove hs hl.1 hl.2 h
  | destruct p => exact keeps_destruct hs hl h

end Change

/-- A reference does what its member does, and a copy takes what the other has. -/
def Op.change (s : State P O) : Op P O → Change P O
  | construct p object => .construct p object
  | constructCopy p q => .construct p (s.mObject q)
  | constructMove p q => .constructMove p q
  | reset p object => .reset p object
  | assign p object => .reset p object
  | assignCopy p q => .reset p (s.mObject q)
  | assignMove p q => .assignMove p q
  | destruct p => .destruct p
  | refConstruct p => .construct p none
  | refConstructObject p object => .construct p (some object)
  | refConstructCopy p q => .construct p (s.mObject q)
  | refConstructPointer p q => .construct p (s.mObject q)
  | refConstructPointerMove p q => .constructMove p q
  | refConstructMove p q => .constructMove p q
  | refReset p => .reset p none
  | refAssignCopy p q => .reset p (s.mObject q)
  | refAssignMove p q => .assignMove p q
  | refToPointer p q => .construct p (s.mObject q)
  | refToPointerMove p q => .constructMove p q
  | refDestruct p => .destruct p

/-- A reference that is constructed by a move is first constructed as a null pointer; there
`used` is not called, so that this is the move of its member. -/
theorem perform_change (s : State P O) (op : Op P O) :
    (op.change s).perform s = op.perform s := by
  cases op <;> rfl

omit [DecidableEq P] in
theorem legal_change {s : State P O} (hs : Exact s) {op : Op P O} (hl : op.Legal s) :
    (op.change s).Legal s := by
  obtain ⟨hnew, huse, hraw⟩ := hl
  have hnone : ∀ o : O, none = some o → o ∉ s.cleaned := fun o ho => absurd ho (by simp)
  cases op <;>
    simp only [Op.constructs, Op.uses, Op.raw, Option.some_inj, forall_eq', List.mem_cons,
      List.not_mem_nil, or_false, forall_eq, forall_eq_or_imp] at hnew huse hraw
  case construct => exact ⟨hnew, hraw⟩
  case refConstruct => exact ⟨hnew, hnone⟩
  case refConstructObject => exact ⟨hnew, by simpa using hraw⟩
  case constructCopy | refConstructCopy | refConstructPointer | refToPointer =>
    exact ⟨hnew, hs.live _ huse⟩
  case constructMove | refConstructMove | refConstructPointerMove | refToPointerMove =>
    exact ⟨hnew, huse⟩
  case reset | assign => exact ⟨huse, hraw⟩
  case refReset => exact ⟨huse, hnone⟩
  case assignCopy | refAssignCopy => exact ⟨huse.1, hs.live _ huse.2⟩
  case assignMove | refAssignMove => exact huse
  case destruct | refDestruct => exact huse

theorem keeps_step {s t : State P O} {op : Op P O} (hs : Exact s)
    (h : step s op = some t) : Keeps s t := by
  obtain ⟨hl, h⟩ := Option.ite_none_right_eq_some.1 h
  exact (op.change s).keeps hs (legal_change hs hl) ((perform_change s op).trans h)

omit [DecidableEq P] in
theorem exact_new : Exact (State.new : State P O) := by
  refine ⟨fun o => rfl, List.nodup_nil, ?_⟩
  intro p hp
  exact absurd hp (Finset.notMem_empty p)

/-! ## No assertion fails -/

theorem exists_reset {s : State P O} {p : P} {object : Option O} (hs : Exact s)
    (hp : p ∈ s.alive) (hobject : ∀ o, object = some o → o ∉ s.cleaned)
    (hmax : s.alive.card < maxCount) : ∃ t, SharedPointer.reset s p object = some t := by
  refine ⟨_, reset_eq_some_iff.2 ⟨?_, ?_, rfl⟩⟩
  · intro o ho
    refine ⟨hobject o ho, ?_⟩
    rw [hs.refs]
    exact (s.designators_le o).trans_lt hmax
  · intro o ho
    refine ⟨hs.live p hp o ho, ?_⟩
    rw [hs.refs]
    exact Nat.add_pos_left (State.designators_pos hp ho) _

theorem exists_construct {s : State P O} {p : P} {object : Option O} (hs : Exact s)
    (hobject : ∀ o, object = some o → o ∉ s.cleaned) (hmax : s.alive.card < maxCount) :
    ∃ t, SharedPointer.construct s p object = some t := by
  refine ⟨_, State.usedIf_eq_some_iff.2 ⟨?_, rfl⟩⟩
  intro o ho
  refine ⟨hobject o ho, ?_⟩
  change s.mCount o < maxCount
  rw [hs.refs]
  exact (s.designators_le o).trans_lt hmax

theorem exists_change {s : State P O} {c : Change P O} (hs : Exact s) (hl : c.Legal s)
    (hmax : s.alive.card < maxCount) : ∃ t, c.perform s = some t := by
  have hnone : ∀ o : O, none = some o → o ∉ s.cleaned := fun o ho => absurd ho (by simp)
  cases c with
  | construct p object => exact exists_construct hs hl.2 hmax
  | constructMove p q =>
      -- the new pointer is null, so that `reset` does nothing with it
      exact ⟨_, congrArg (Option.map _)
        (reset_eq_some_iff.2 ⟨by simp, by simp [State.setObject], rfl⟩)⟩
  | reset p object => exact exists_reset hs hl.1 hl.2 hmax
  | assignMove p q =>
      obtain ⟨t, ht⟩ := exists_reset hs hl.1 hnone hmax
      exact ⟨_, congrArg (Option.map _) ht⟩
  | destruct p =>
      obtain ⟨t, ht⟩ := exists_reset hs hl hnone hmax
      exact ⟨_, congrArg (Option.map _) ht⟩

/-- In every state that shared pointers and references can reach, the counters are exact and
no pointer is left to an object that is cleaned up; whatever is done next cleans up exactly
what loses its last pointer; and no assertion fails in it, unless there are as many pointers
as a counter can count. -/
theorem refs_exact {ops : List (Op P O)} {s : State P O}
    (hr : Transition.run step State.new ops = some s) :
    Exact s ∧ (∀ op t, step s op = some t → Cleans s t) ∧
      ∀ op, op.Legal s → s.alive.card < maxCount → ∃ t, step s op = some t := by
  have hs : Exact s := by
    refine Transition.run_invariant (P := Exact) ?_ exact_new hr
    exact fun s op t hs ht => (keeps_step hs ht).exact
  refine ⟨hs, fun op t ht => (keeps_step hs ht).cleans, fun op hl hmax => ?_⟩
  obtain ⟨t, ht⟩ := exists_change hs (legal_change hs hl) hmax
  refine ⟨t, ?_⟩
  rw [step, if_pos hl, ← perform_change, ht]

/-- A pointer is moved to itself while a reference designates the same object, and then the
reference goes. -/
theorem refs_exact_of_selfMove :
    ∃ s : State ℕ ℕ, Transition.run step State.new
        [.construct 0 (some 5), .refConstructPointer 1 0, .assignMove 0 0, .refDestruct 1] =
          some s ∧ s.cleaned = [5] ∧ Exact s := by
  have hrun : ∃ s : State ℕ ℕ, Transition.run step State.new
      [.construct 0 (some 5), .refConstructPointer 1 0, .assignMove 0 0, .refDestruct 1] =
        some s ∧ s.cleaned = [5] := ⟨_, rfl, rfl⟩
  obtain ⟨s, hr, hclean⟩ := hrun
  exact ⟨s, hr, hclean, (refs_exact hr).1⟩

end Shared

end Zth
