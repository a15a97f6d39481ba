import Mathlib.Order.Lattice
import Mathlib.Tactic.Common
import Zth.Poller.Server

/-!
# When the two arrays of a poller server agree

`InSync` is the relation documented at `m_pollItems`: the poll items are the
initialised items of an initial part of the registrations. All calls keep it,
except that `remove` may move an item and a registration of two different
pollables into one place. `RemoveSafe` is the exact condition under which it
does not, and it is carried from one call to whole runs.
-/

namespace Zth

namespace PollerServer

variable {P C I κ : Type*}

/-- The item `item` is what `init` produced for the pollable `p`, for some
contents of the pollables. -/
def ItemOf (init : κ → P → Except Errno I) (p : P) (item : I) : Prop :=
  ∃ contents, init contents p = .ok item

/-- The poll items are not more than the registrations, and each one is an item
of the pollable that is registered at its index. -/
def InSync (init : κ → P → Except Errno I) (s : PollerServer P C I) : Prop :=
  s.pollItems.length ≤ s.metaItems.length ∧
    ∀ (i : ℕ) item (m : MetaItem P C), s.pollItems[i]? = some item →
      s.metaItems[i]? = some m → ItemOf init m.pollable item

/-- An event that is reported for an index goes to a registration, and the item
polled at that index is an item of the pollable of this registration. -/
def Attributed (init : κ → P → Except Errno I) (s : PollerServer P C I) : Prop :=
  ∀ (i : ℕ) item, s.pollItems[i]? = some item →
    ∃ m, s.event i = some m ∧ ItemOf init m.pollable item

/-- The removal of an entry that is neither the last registration nor the last
poll item moves the last poll item and the last registration to one index. When
some registrations are not mirrored yet, these two belong together only if the
item happens to be an item of that last registration. -/
def RemoveSafe [DecidableEq P] [DecidableEq C] (init : κ → P → Except Errno I)
    (p : P) (client : Option C) (s : PollerServer P C I) : Prop :=
  ∀ i, find p client s.metaItems s.metaItems.length = some i →
    i + 1 < s.pollItems.length → s.pollItems.length < s.metaItems.length →
    ∀ item m, s.pollItems.getLast? = some item → s.metaItems.getLast? = some m →
      ItemOf init m.pollable item

/-- The condition on one call: only `remove` has one. -/
def StepSafe [DecidableEq P] [DecidableEq C] (init : κ → P → Except Errno I)
    (s : PollerServer P C I) : Op P C κ → Prop
  | .remove p client => RemoveSafe init p client s
  | _ => True

/-- Closing a gap: the entry at `i` becomes the last one, the others stay, and
the array gets one shorter. -/
theorem getElem?_moveBack {α : Type*} (v : List α) (i j : ℕ) (hi : i < v.length) :
    (moveBack v i)[j]? =
      if j + 1 < v.length then
        if j = i then v.getLast? else v[j]?
      else none := by
  cases hv : v.getLast? with
  | none =>
      rw [List.getLast?_eq_none_iff] at hv
      simp [hv] at hi
  | some back =>
      simp only [moveBack, hv, List.getElem?_dropLast, List.length_set]
      by_cases hj : j + 1 < v.length
      · have hj' : j < v.length - 1 := by omega
        rw [if_pos hj, if_pos hj', List.getElem?_set]
        by_cases hij : i = j
        · subst hij
          simp [hi]
        · simp [hij, Ne.symm hij]
      · have hj' : ¬ j < v.length - 1 := by omega
        rw [if_neg hj, if_neg hj']

theorem length_moveBack {α : Type*} (v : List α) (i : ℕ) :
    (moveBack v i).length = v.length - 1 := by
  cases hv : v.getLast? with
  | none =>
      rw [List.getLast?_eq_none_iff] at hv
      simp [moveBack, hv]
  | some back => simp [moveBack, hv]

theorem inSync_empty (init : κ → P → Except Errno I) :
    InSync init (empty : PollerServer P C I) :=
  ⟨le_rfl, fun i item m h => by simp [empty] at h⟩

theorem attributed_of_inSync {init : κ → P → Except Errno I}
    {s : PollerServer P C I} (h : InSync init s) : Attributed init s := by
  intro i item hi
  have hlt : i < s.metaItems.length :=
    (List.getElem?_eq_some_iff.1 hi).1.trans_le h.1
  exact ⟨s.metaItems[i], List.getElem?_eq_getElem hlt,
    h.2 i item _ hi (List.getElem?_eq_getElem hlt)⟩

theorem inSync_add {init : κ → P → Except Errno I} {s : PollerServer P C I}
    (h : InSync init s) (p : P) (client : Option C) (alloc : Bool) :
    InSync init (s.add p client alloc).1 := by
  cases alloc with
  | false => exact h
  | true =>
      refine ⟨h.1.trans (by simp [add]), ?_⟩
      intro i item m hitem hm
      have hlt : i < s.metaItems.length :=
        (List.getElem?_eq_some_iff.1 hitem).1.trans_le h.1
      simp only [add, if_true] at hm
      rw [List.getElem?_append_left hlt] at hm
      exact h.2 i item m hitem hm

theorem inSync_removeLast {init : κ → P → Except Errno I}
    {s : PollerServer P C I} (h : InSync init s) (last : ℕ) :
    InSync init (s.removeLast last) := by
  unfold removeLast
  split
  · exact inSync_empty init
  · refine ⟨?_, ?_⟩
    · dsimp only
      split
      · rw [List.length_take]
        exact min_le_left _ _
      · rename_i hle
        exact not_lt.1 hle
    · intro i item m hitem hm
      have hm' : s.metaItems[i]? = some m := by
        rw [List.getElem?_take] at hm
        split at hm
        · exact hm
        · cases hm
      have hitem' : s.pollItems[i]? = some item := by
        dsimp only at hitem
        split at hitem
        · rw [List.getElem?_take] at hitem
          split at hitem
          · exact hitem
          · cases hitem
        · exact hitem
      exact h.2 i item m hitem' hm'

/-- What the loop of `mirror` appends is, entry by entry, an item of the
registration it was made for. -/
theorem itemOf_initItems {init : κ → P → Except Errno I} {contents : κ}
    {ms : List (MetaItem P C)} {i : ℕ} {item : I} {m : MetaItem P C}
    (hitem : (initItems (init contents) ms).1[i]? = some item)
    (hm : ms[i]? = some m) : ItemOf init m.pollable item := by
  induction ms generalizing i with
  | nil => simp at hm
  | cons m' ms ih =>
      rw [initItems] at hitem
      cases hinit : init contents m'.pollable with
      | error e => simp [hinit] at hitem
      | ok item' =>
          simp only [hinit] at hitem
          cases i with
          | zero =>
              obtain rfl : item' = item := by simpa using hitem
              obtain rfl : m' = m := by simpa using hm
              exact ⟨contents, hinit⟩
          | succ i => exact ih (by simpa using hitem) (by simpa using hm)

theorem length_initItems_le (init : P → Except Errno I)
    (ms : List (MetaItem P C)) : (initItems init ms).1.length ≤ ms.length := by
  induction ms with
  | nil => exact le_rfl
  | cons m ms ih =>
      rw [initItems]
      cases init m.pollable with
      | error e => simp
      | ok item => simpa using ih

theorem inSync_mirror {init : κ → P → Except Errno I} {s : PollerServer P C I}
    (h : InSync init s) (contents : κ) :
    InSync init (s.mirror (init contents)).1 := by
  have hlen := length_initItems_le (init contents)
    (s.metaItems.drop s.pollItems.length)
  have htake : s.pollItems.take s.metaItems.length = s.pollItems :=
    List.take_of_length_le h.1
  refine ⟨?_, ?_⟩
  · simp only [mirror, htake, List.length_append]
    rw [List.length_drop] at hlen
    have := h.1
    omega
  · intro i item m hitem hm
    simp only [mirror, htake] at hitem hm
    by_cases hi : i < s.pollItems.length
    · rw [List.getElem?_append_left hi] at hitem
      exact h.2 i item m hitem hm
    · rw [List.getElem?_append_right (not_lt.1 hi)] at hitem
      refine itemOf_initItems hitem ?_
      rw [List.getElem?_drop, Nat.add_sub_cancel' (not_lt.1 hi)]
      exact hm

theorem poll_fst (init : P → Except Errno I) (s : PollerServer P C I) :
    (s.poll init).1 = (s.mirror init).1 := by
  unfold poll
  split
  · rename_i heq
    rw [heq]
  · rename_i heq
    rw [heq]
    split <;> rfl

theorem metaItems_fillGap (s : PollerServer P C I) (i : ℕ) :
    (s.fillGap i).metaItems = moveBack s.metaItems i := rfl

/-- Both arrays move their last entry to `i`. They stay in sync exactly when the two
entries belong together. -/
theorem inSync_fillGap_iff_of_lt {init : κ → P → Except Errno I}
    {s : PollerServer P C I} (h : InSync init s) {i : ℕ} (hp : i + 1 < s.pollItems.length) :
    InSync init (s.fillGap i) ↔
      ∀ item m, s.pollItems.getLast? = some item → s.metaItems.getLast? = some m →
        ItemOf init m.pollable item := by
  have hle := h.1
  have hi : i + 1 < s.metaItems.length := hp.trans_le hle
  have hmeta := fun j => getElem?_moveBack s.metaItems i j (Nat.lt_of_succ_lt hi)
  have hpoll := fun j => getElem?_moveBack s.pollItems i j (Nat.lt_of_succ_lt hp)
  have hitems : (s.fillGap i).pollItems = moveBack s.pollItems i := by
    rw [fillGap, if_pos (by omega), if_pos (by omega)]
  constructor
  · intro hsync item m hitem hm
    refine hsync.2 i item m ?_ ?_
    · rw [hitems, hpoll, if_pos hp, if_pos rfl, hitem]
    · rw [metaItems_fillGap, hmeta, if_pos hi, if_pos rfl, hm]
  · intro hback
    refine ⟨?_, ?_⟩
    · rw [hitems, length_moveBack]
      exact (Nat.sub_le_sub_right hle 1).trans_eq (length_moveBack _ _).symm
    · intro j item m hitem hm
      rw [hitems, hpoll] at hitem
      rw [metaItems_fillGap, hmeta] at hm
      split at hitem
      · rename_i hj
        rw [if_pos (hj.trans_le hle)] at hm
        by_cases hji : j = i
        · rw [if_pos hji] at hitem hm
          exact hback item m hitem hm
        · rw [if_neg hji] at hitem hm
          exact h.2 j item m hitem hm
      · cases hitem

/-- At most the last poll item is dropped, and the indices below it stay. -/
theorem inSync_fillGap_of_le {init : κ → P → Except Errno I}
    {s : PollerServer P C I} (h : InSync init s) {i : ℕ}
    (hgap : i < s.metaItems.length - 1) (hp : s.pollItems.length ≤ i + 1) :
    InSync init (s.fillGap i) := by
  have hmeta := fun j => getElem?_moveBack s.metaItems i j (by omega)
  have hitems : (s.fillGap i).pollItems = s.pollItems.take i := by
    rw [fillGap]
    by_cases hlt : i < s.pollItems.length
    · have hlen : i = s.pollItems.length - 1 := by omega
      rw [if_pos hlt, if_neg (by omega), List.dropLast_eq_take, ← hlen]
    · rw [if_neg hlt, List.take_of_length_le (not_lt.1 hlt)]
  refine ⟨?_, ?_⟩
  · rw [hitems, List.length_take]
    refine (min_le_left _ _).trans (hgap.le.trans_eq ?_)
    exact (length_moveBack _ _).symm
  · intro j item m hitem hm
    rw [hitems, List.getElem?_take] at hitem
    split at hitem
    · rename_i hj
      rw [metaItems_fillGap, hmeta, if_pos (by omega), if_neg hj.ne] at hm
      exact h.2 j item m hitem hm
    · cases hitem

/-- Closing the gap at `i` keeps the arrays in sync exactly when the two entries
that move to `i`, if both do, belong together. -/
theorem inSync_fillGap_iff {init : κ → P → Except Errno I}
    {s : PollerServer P C I} (h : InSync init s) {i : ℕ}
    (hgap : i < s.metaItems.length - 1) :
    InSync init (s.fillGap i) ↔
      (i + 1 < s.pollItems.length →
        ∀ item m, s.pollItems.getLast? = some item →
          s.metaItems.getLast? = some m → ItemOf init m.pollable item) := by
  by_cases hp : i + 1 < s.pollItems.length
  · rw [inSync_fillGap_iff_of_lt h hp]
    exact ⟨fun hback _ => hback, fun hback => hback hp⟩
  · exact iff_of_true (inSync_fillGap_of_le h hgap (not_lt.1 hp)) fun hp' => absurd hp' hp

/-- A removal keeps the arrays in sync exactly when it is safe. -/
theorem inSync_remove_iff [DecidableEq P] [DecidableEq C]
    {init : κ → P → Except Errno I} {s : PollerServer P C I}
    (h : InSync init s) (p : P) (client : Option C) :
    InSync init (s.remove p client).1 ↔ RemoveSafe init p client s := by
  have hle := h.1
  unfold RemoveSafe
  cases hf : find p client s.metaItems s.metaItems.length with
  | none => simpa [remove, hf] using h
  | some i =>
      by_cases hgap : i < s.metaItems.length - 1
      · simp only [remove, hf, if_pos hgap]
        rw [inSync_fillGap_iff h hgap]
        constructor
        · intro hback j hj hp _
          obtain rfl : i = j := Option.some.inj hj
          exact hback hp
        · intro hsafe hp item m hitem hm
          by_cases hlen : s.pollItems.length = s.metaItems.length
          · -- Everything is mirrored, so the last entries are at one index.
            rw [List.getLast?_eq_getElem?] at hitem hm
            rw [hlen] at hitem
            exact h.2 _ item m hitem hm
          · exact hsafe i rfl hp (lt_of_le_of_ne hle hlen) item m hitem hm
      · simp only [remove, hf, if_neg hgap]
        refine ⟨fun _ j hj hp hlt => ?_, fun _ => inSync_removeLast h 1⟩
        obtain rfl : i = j := Option.some.inj hj
        omega

/-- One call keeps the arrays in sync exactly when it is safe. -/
theorem inSync_step_iff [DecidableEq P] [DecidableEq C]
    {init : κ → P → Except Errno I} {s t : PollerServer P C I} {op : Op P C κ}
    (h : InSync init s) (ht : step init s op = some t) :
    InSync init t ↔ StepSafe init s op := by
  cases op with
  | add p client alloc =>
      obtain rfl := Option.some.inj ht
      exact iff_of_true (inSync_add h p client alloc) trivial
  | remove p client =>
      obtain rfl := Option.some.inj ht
      exact inSync_remove_iff h p client
  | removeLast last =>
      obtain rfl := Option.some.inj ht
      exact iff_of_true (inSync_removeLast h last) trivial
  | clear =>
      obtain rfl := Option.some.inj ht
      exact iff_of_true (inSync_empty init) trivial
  | poll contents =>
      obtain rfl := Option.some.inj ht
      rw [poll_fst]
      exact iff_of_true (inSync_mirror h contents) trivial

/-- In a run of calls that starts with an empty server, the arrays are in sync
and events are attributed correctly in every state, exactly when every removal
in the run is safe. -/
theorem inSync_always_iff [DecidableEq P] [DecidableEq C]
    (init : κ → P → Except Errno I) (ops : List (Op P C κ)) :
    Transition.Always (step init) (fun s => InSync init s ∧ Attributed init s)
        empty ops ↔
      Transition.Guarded (step init) (StepSafe init) empty ops := by
  refine Transition.always_iff_guarded ?_ ?_
    ⟨inSync_empty init, attributed_of_inSync (inSync_empty init)⟩
  · intro s op t hs ht
    rw [← inSync_step_iff hs.1 ht]
    exact ⟨And.left, fun h => ⟨h, attributed_of_inSync h⟩⟩
  · intro s op
    cases op <;> exact ⟨_, rfl⟩

/-- Two registrations are polled, a third one is added and the first one is
removed: the item of the second one ends up at the index of the third one. -/
theorem inSync_fails_unmirrored :
    ¬ Transition.Always (step (fun (_ : Unit) (p : ℕ) => Except.ok p))
        (fun s => InSync (fun (_ : Unit) (p : ℕ) => Except.ok p) s)
        (empty : PollerServer ℕ ℕ ℕ)
        [.add 1 none true, .add 2 none true, .poll (), .add 3 none true,
          .remove 1 none] := by
  intro h
  have h5 := h.2 _ rfl |>.2 _ rfl |>.2 _ rfl |>.2 _ rfl |>.2 _ rfl
  obtain ⟨_, hc⟩ := h5.2 0 2 ⟨3, none⟩ rfl rfl
  cases hc

end PollerServer

end Zth
