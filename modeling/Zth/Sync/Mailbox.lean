import Zth.Sync.Base

/-!
# The fiber-aware mailbox

A mailbox holds at most one item. `put` waits until it is empty, `take` until it
holds an item that the fiber may have: a fiber that is woken from the take queue
gets the item reserved for it by `assigned`.

Items are delivered once and in order, whatever the reservation does. The
reservation itself is never withdrawn, so it outlives the `take` it was made for.
An item that is put later, while nobody is waiting, is then still reserved for
the fiber of that earlier `take`, and all others are turned away.
-/

namespace Zth

namespace Mailbox

open Monitor SynchronizerBase

/-- The queues of a mailbox. -/
inductive Queue where
  | put
  | take
deriving DecidableEq, Repr

/-- What may be put in a mailbox: a value, or an exception pointer. -/
inductive Item (T E : Type*) where
  | value (v : T)
  | exception (e : Option E)
deriving DecidableEq, Repr

/-- The calls on a mailbox. -/
inductive Call (T E : Type*) where
  | put (item : Item T E)
  | take
deriving DecidableEq, Repr

/-- What an item means to the fiber that takes it: an exception it is thrown, or a
value. A null exception pointer is nothing at all. -/
def Item.outcome {T E : Type*} : Item T E → Option (Except E T)
  | .value v => some (.ok v)
  | .exception e => e.map .error

end Mailbox

/-- A value or an exception, or neither. -/
structure Optional (T E : Type*) where
  value : Option T
  exception : Option E
deriving DecidableEq, Repr

namespace Optional

open Mailbox

variable {T E : Type*}

def valid (o : Optional T E) : Bool := o.value.isSome || o.exception.isSome

def reset : Optional T E := ⟨none, none⟩

def set : Item T E → Optional T E
  | .value v => ⟨some v, none⟩
  | .exception e => ⟨none, e⟩

/-- What is taken from it: the exception goes first. -/
def outcome (o : Optional T E) : Option (Except E T) :=
  match o.exception with
  | some e => some (.error e)
  | none => o.value.map .ok

theorem outcome_eq_none_iff (o : Optional T E) : o.outcome = none ↔ o.valid = false := by
  rcases o with ⟨_ | v, _ | e⟩ <;> simp [outcome, valid]

theorem outcome_set (item : Item T E) : (set item).outcome = item.outcome := by
  rcases item with v | (_ | e) <;> rfl

end Optional

namespace Mailbox

open Monitor SynchronizerBase

/-- The data of a mailbox. The code does not have `stored` and `taken`: they log the
items of the completed `put` calls and the outcomes of the completed `take`
calls. -/
structure Data (F T E : Type*) where
  value : Optional T E
  assigned : Option F
  stored : List (Except E T)
  taken : List (Except E T)

variable {F T E : Type*}

namespace Data

/-- A new mailbox. -/
def init (F T E : Type*) : Data F T E := ⟨.reset, none, [], []⟩

/-- `valid(assigned)` of the fiber `f`. -/
def validFor (f : F) [DecidableEq F] (d : Data F T E) : Bool :=
  d.value.valid && (d.assigned.isNone || d.assigned == some f)

/-- The item of a `put` is stored. -/
def store (item : Item T E) (d : Data F T E) : Data F T E :=
  { d with value := .set item, stored := d.stored ++ item.outcome.toList }

/-- The item is taken. -/
def takeItem (d : Data F T E) : Data F T E :=
  { d with value := .reset, taken := d.taken ++ d.value.outcome.toList }

/-- Assignment to `assigned`. -/
def setAssigned (f : F) (d : Data F T E) : Data F T E := { d with assigned := some f }

end Data

variable [DecidableEq F]

/-- `unblockFirst` with the `wakeup` of a mailbox, which reserves the item for a
fiber from the take queue. -/
def unblockFirst (q : Queue) (s : State F Queue (Call T E) (Data F T E)) :
    State F Queue (Call T E) (Data F T E) :=
  match q, SynchronizerBase.unblockFirst q s with
  | .take, (s, some f) => s.setData (s.data.setAssigned f)
  | _, (s, _) => s

/-- The code of the mailbox. -/
def exec (f : F) (c : Call T E) (s : State F Queue (Call T E) (Data F T E)) :
    State F Queue (Call T E) (Data F T E) × Outcome Queue (Call T E) :=
  match c with
  | .put item =>
      if s.data.value.valid then
        (s, .block .put (.put item))
      else
        (unblockFirst .take (s.setData (s.data.store item)), .done)
  | .take =>
      if s.data.validFor f then
        (unblockFirst .put (s.setData s.data.takeItem), .done)
      else
        (s, .block .take .take)

/-- The mailbox as a monitor. -/
def program (F T E : Type*) [DecidableEq F] :
    Program F Queue (Call T E) (Data F T E) where
  exec := exec
  expired _ := none

@[simp] theorem unblockFirst_put (s : State F Queue (Call T E) (Data F T E)) :
    unblockFirst .put s = (s.wakeFirst .put).1 := rfl

/-- Waking a taker: there is none, or the first one gets the reservation. -/
theorem unblockFirst_take (s : State F Queue (Call T E) (Data F T E)) :
    (s.queue .take = [] ∧ unblockFirst .take s = s) ∨
      ∃ g gs, s.queue .take = g :: gs ∧
        unblockFirst .take s = (s.wake .take g).setData (s.data.setAssigned g) := by
  cases hq : s.queue .take with
  | nil =>
      refine Or.inl ⟨rfl, ?_⟩
      simp only [unblockFirst, SynchronizerBase.unblockFirst, State.wakeFirst_of_nil hq]
  | cons g gs =>
      refine Or.inr ⟨g, gs, rfl, ?_⟩
      simp only [unblockFirst, SynchronizerBase.unblockFirst, State.wakeFirst_of_cons hq]
      rfl

/-- Neither queue hides an item: what was stored is what was taken and the item that
is still in the mailbox. -/
def InOrder (d : Data F T E) : Prop := d.stored = d.taken ++ d.value.outcome.toList

omit [DecidableEq F] in
theorem InOrder.store {d : Data F T E} (h : InOrder d) (hv : d.value.valid = false)
    (item : Item T E) : InOrder (d.store item) := by
  have hnil : d.value.outcome = none := (Optional.outcome_eq_none_iff d.value).2 hv
  rw [InOrder, hnil, Option.toList_none, List.append_nil] at h
  rw [InOrder, Data.store, Optional.outcome_set, h]

omit [DecidableEq F] in
theorem InOrder.takeItem {d : Data F T E} (h : InOrder d) : InOrder d.takeItem := by
  have hnil : (Optional.reset : Optional T E).outcome = none := rfl
  rw [InOrder, Data.takeItem, hnil, Option.toList_none, List.append_nil]
  exact h

theorem inOrder_unblockFirst {s : State F Queue (Call T E) (Data F T E)}
    (h : InOrder s.data) (q : Queue) : InOrder (unblockFirst q s).data := by
  cases q with
  | put =>
      rw [unblockFirst_put, State.wakeFirst_data]
      exact h
  | take =>
      rcases unblockFirst_take s with ⟨-, heq⟩ | ⟨g, gs, -, heq⟩
      · rw [heq]
        exact h
      · rw [heq]
        exact h

theorem inOrder_exec {s : State F Queue (Call T E) (Data F T E)} (h : InOrder s.data)
    (f : F) (c : Call T E) :
    InOrder (State.finish f ((program F T E).exec f c s)).data := by
  cases c with
  | put item =>
      cases hv : s.data.value.valid with
      | true =>
          simp only [program, exec, hv, if_true, State.finish_block_data]
          exact h
      | false =>
          simp only [program, exec, hv, Bool.false_eq_true, if_false, State.finish_done]
          exact inOrder_unblockFirst (h.store hv item) .take
  | take =>
      cases hv : s.data.validFor f with
      | true =>
          simp only [program, exec, hv, if_true, State.finish_done]
          exact inOrder_unblockFirst h.takeItem .put
      | false =>
          simp only [program, exec, hv, Bool.false_eq_true, if_false,
            State.finish_block_data]
          exact h

theorem inOrder_step {s t : State F Queue (Call T E) (Data F T E)}
    {l : Label F Queue (Call T E)} (hs : InOrder s.data)
    (h : (program F T E).step s l = some t) : InOrder t.data := by
  rcases Program.step_cases h with ⟨f, c, -, -, rfl⟩ | ⟨f, c, -, -, -, rfl⟩ |
    ⟨q, f, c, c', -, -, he, -, -⟩
  · exact inOrder_exec hs f c
  · exact inOrder_exec (s := s.start f) hs f c
  · cases he

/-- In every interleaving, the outcomes of the completed takes are the stored items
in order, up to the one that is still in the mailbox. -/
theorem delivers_once_in_order (ls : List (Label F Queue (Call T E)))
    (s : State F Queue (Call T E) (Data F T E))
    (hr : Transition.run (program F T E).step (State.idle (Data.init F T E)) ls = some s) :
    s.data.stored = s.data.taken ++ s.data.value.outcome.toList := by
  have hinit : InOrder (State.idle (Data.init F T E) :
    State F Queue (Call T E) (Data F T E)).data := rfl
  exact Transition.run_invariant (P := fun s => InOrder s.data)
    (fun _ _ _ hs h => inOrder_step hs h) hinit hr

/-- A value is taken, and the exception that was put behind it waits in the mailbox. -/
def valueThenException : List (Label ℕ Queue (Call ℕ Unit)) :=
  [.call 1 .take, .call 2 (.put (.value 10)), .call 3 (.put (.exception (some ()))),
    .resume 1, .resume 3]

theorem delivers_once_in_order_exception :
    ∃ s, Transition.run (program ℕ ℕ Unit).step (State.idle (Data.init ℕ ℕ Unit))
        valueThenException = some s ∧ s.data.taken = [.ok 10] ∧
      s.data.value.outcome = some (.error ()) ∧
      s.data.stored = s.data.taken ++ s.data.value.outcome.toList :=
  ⟨_, rfl, rfl, rfl, delivers_once_in_order valueThenException _ rfl⟩

/-- The fiber was woken from the take queue and did not complete its `take`. -/
def Taking (s : State F Queue (Call T E) (Data F T E)) (f : F) : Prop :=
  f ∈ s.woken ∧ s.code f = some .take

/-- The item in the mailbox is not withheld from anyone: if fibers are blocked in
`take`, it is reserved for a fiber that is on its way, and an item that is not
reserved for such a fiber may be taken by whichever fiber asks next. -/
structure NotStranded (s : State F Queue (Call T E) (Data F T E)) : Prop where
  reserved : s.data.value.valid = true → s.queue .take ≠ [] →
    ∃ g, s.data.assigned = some g ∧ Taking s g
  free : s.data.value.valid = true → (∀ g, s.data.assigned = some g → ¬ Taking s g) →
    ∀ f, s.data.validFor f = true

/-- An item that is put while nobody is blocked in `take` finds no reservation, or
that of a fiber that is still on its way. -/
def PutsUnreserved (s : State F Queue (Call T E) (Data F T E))
    (l : Label F Queue (Call T E)) : Prop :=
  ∀ f item, l.runs s = some (f, .put item) → s.data.value.valid = false →
    item.outcome ≠ none → s.queue .take = [] →
    ∀ g, s.data.assigned = some g → Taking s g

/-- The reservation while the fiber `f`, if any, runs a `take`. -/
def Reserved (o : Option F) (s : State F Queue (Call T E) (Data F T E)) : Prop :=
  (s.data.assigned = none ∧ s.queue .take = []) ∨
    ∃ g, s.data.assigned = some g ∧ (Taking s g ∨ o = some g)

/-- The bookkeeping of the reservation while the fiber `o`, if any, runs a `take`. -/
structure Invariant (o : Option F) (s : State F Queue (Call T E) (Data F T E)) :
    Prop where
  wellFormed : s.WellFormed
  code : ∀ f ∈ s.queue .take, s.code f = some .take
  reserved : s.data.value.valid = true → Reserved o s

omit [DecidableEq F] in
/-- A fiber that is not in the middle of a call is not on its way. -/
theorem Taking.ne {s : State F Queue (Call T E) (Data F T E)} {f g : F}
    (h : Taking s g) (hf : s.code f = none) : g ≠ f := by
  rintro rfl
  have hcode := h.2
  rw [hf] at hcode
  cases hcode

theorem Taking.block {s : State F Queue (Call T E) (Data F T E)} {f g : F}
    (h : Taking s g) (hf : s.code f = none) (q : Queue) (c : Call T E) :
    Taking (State.finish f (s, .block q c)) g := by
  refine ⟨h.1, ?_⟩
  rw [State.finish_block_code, Function.update_of_ne (h.ne hf)]
  exact h.2

/-- Storing an item wakes a taker and reserves the item for it. Without a taker the
reservation is what it was. -/
theorem invariant_put {s : State F Queue (Call T E) (Data F T E)} (item : Item T E)
    (hs : Invariant none s)
    (hput : item.outcome ≠ none → s.queue .take = [] →
      ∀ g, s.data.assigned = some g → Taking s g) :
    Invariant none (unblockFirst .take (s.setData (s.data.store item))) := by
  have hwf := hs.wellFormed.setData (s.data.store item)
  rcases unblockFirst_take (s.setData (s.data.store item)) with
    ⟨hq, heq⟩ | ⟨g, gs, hq, heq⟩
  · rw [heq]
    refine ⟨hwf, hs.code, fun hv => ?_⟩
    have hitem : item.outcome ≠ none := by
      intro hnone
      rw [← Optional.outcome_set, Optional.outcome_eq_none_iff] at hnone
      exact Bool.false_ne_true (hnone.symm.trans hv)
    cases ha : s.data.assigned with
    | none => exact Or.inl ⟨ha, hq⟩
    | some g => exact Or.inr ⟨g, ha, Or.inl (hput hitem hq g ha)⟩
  · have hg : g ∈ s.queue .take := by
      rw [State.setData_queue] at hq
      rw [hq]
      exact List.mem_cons_self
    rw [heq]
    refine ⟨(hwf.wake hg).setData _, ?_, fun _ => ?_⟩
    · intro f hf
      rw [State.setData_queue, State.wake_queue, Function.update_self] at hf
      exact hs.code f (List.mem_of_mem_erase hf)
    · refine Or.inr ⟨g, rfl, Or.inl ⟨?_, hs.code g hg⟩⟩
      exact List.mem_append_right _ (List.mem_singleton_self g)

/-- Taking the item leaves nothing to be reserved. -/
theorem invariant_take {s : State F Queue (Call T E) (Data F T E)} {o : Option F}
    (hs : Invariant o s) :
    Invariant none (unblockFirst .put (s.setData s.data.takeItem)) := by
  rw [unblockFirst_put]
  refine ⟨(hs.wellFormed.setData _).wakeFirst .put, ?_, fun hv => ?_⟩
  · intro f hf
    rw [State.wakeFirst_code]
    refine hs.code f ?_
    rcases State.wakeFirst_spec (s.setData s.data.takeItem) .put with
      ⟨-, heq⟩ | ⟨g, gs, -, -, hqueue, -⟩
    · rw [heq] at hf
      exact hf
    · rw [hqueue, Function.update_of_ne (by simp)] at hf
      exact hf
  · rw [State.wakeFirst_data] at hv
    cases hv

/-- A call that has to wait leaves the reservation to the fiber that is on its way. -/
theorem invariant_block {s : State F Queue (Call T E) (Data F T E)} {o : Option F} {f : F}
    (hs : Invariant o s) (hf : s.code f = none) {q : Queue} {c : Call T E}
    (hc : q = .take → c = .take)
    (hres : s.data.value.valid = true →
      (q = .put ∧ s.data.assigned = none ∧ s.queue .take = []) ∨
        ∃ g, s.data.assigned = some g ∧ Taking s g) :
    Invariant none (State.finish f (s, .block q c)) := by
  refine ⟨hs.wellFormed.finish hf _, ?_, fun hv => ?_⟩
  · intro g hg
    by_cases hgf : g = f
    · subst hgf
      rw [State.finish_block_code, Function.update_self]
      cases q with
      | take => rw [hc rfl]
      | put =>
          rw [State.finish_block_queue, Function.update_of_ne (by simp)] at hg
          exact absurd hg ((hs.wellFormed.not_mem hf).2 .take)
    · rw [State.finish_block_code, Function.update_of_ne hgf]
      refine hs.code g ?_
      cases q with
      | put =>
          rw [State.finish_block_queue, Function.update_of_ne (by simp)] at hg
          exact hg
      | take =>
          rw [State.finish_block_queue, Function.update_self, List.mem_append,
            List.mem_singleton] at hg
          exact hg.resolve_right hgf
  · rcases hres hv with ⟨rfl, ha, hq⟩ | ⟨g, ha, htaking⟩
    · refine Or.inl ⟨ha, ?_⟩
      rw [State.finish_block_queue, Function.update_of_ne (by simp)]
      exact hq
    · exact Or.inr ⟨g, ha, Or.inl (htaking.block hf q c)⟩

omit [DecidableEq F] in
/-- Nobody but a fiber that is on its way has the reservation while no `take` runs. -/
theorem Reserved.taking {s : State F Queue (Call T E) (Data F T E)}
    (h : Reserved none s) : (s.data.assigned = none ∧ s.queue .take = []) ∨
      ∃ g, s.data.assigned = some g ∧ Taking s g := by
  rcases h with h | ⟨g, ha, ht | ht⟩
  · exact Or.inl h
  · exact Or.inr ⟨g, ha, ht⟩
  · cases ht

/-- An item that the fiber `f` may not have is reserved for a fiber on its way. -/
theorem Reserved.of_not_validFor {s : State F Queue (Call T E) (Data F T E)} {f : F}
    (h : Reserved (some f) s) (hv : s.data.value.valid = true)
    (hf : s.data.validFor f = false) : ∃ g, s.data.assigned = some g ∧ Taking s g := by
  rcases h with ⟨ha, -⟩ | ⟨g, ha, ht | ht⟩
  · rw [Data.validFor, hv, ha] at hf
    cases hf
  · exact ⟨g, ha, ht⟩
  · rw [Data.validFor, hv, ha, ht] at hf
    simp at hf

/-- One piece of code of the mailbox. -/
theorem invariant_put_exec {s : State F Queue (Call T E) (Data F T E)} {f : F}
    {item : Item T E} (hs : Invariant none s) (hf : s.code f = none)
    (hput : s.data.value.valid = false → item.outcome ≠ none → s.queue .take = [] →
      ∀ g, s.data.assigned = some g → Taking s g) :
    Invariant none (State.finish f ((program F T E).exec f (.put item) s)) := by
  cases hv : s.data.value.valid with
  | true =>
      simp only [program, exec, hv, if_true]
      refine invariant_block hs hf (by simp) fun _ => ?_
      exact (hs.reserved hv).taking.imp_left fun h => ⟨rfl, h⟩
  | false =>
      simp only [program, exec, hv, Bool.false_eq_true, if_false, State.finish_done]
      exact invariant_put item hs (hput hv)

theorem invariant_take_exec {s : State F Queue (Call T E) (Data F T E)} {f : F}
    (hs : Invariant (some f) s) (hf : s.code f = none) :
    Invariant none (State.finish f ((program F T E).exec f .take s)) := by
  cases hv : s.data.validFor f with
  | true =>
      simp only [program, exec, hv, if_true, State.finish_done]
      exact invariant_take hs
  | false =>
      simp only [program, exec, hv, Bool.false_eq_true, if_false]
      refine invariant_block hs hf (fun _ => rfl) fun hvalid => ?_
      exact Or.inr ((hs.reserved hvalid).of_not_validFor hvalid hv)

omit [DecidableEq F] in
theorem Invariant.some {s : State F Queue (Call T E) (Data F T E)}
    (hs : Invariant none s) (f : F) : Invariant (some f) s := by
  refine ⟨hs.wellFormed, hs.code, fun hv => ?_⟩
  rcases (hs.reserved hv).taking with h | ⟨g, ha, ht⟩
  · exact Or.inl h
  · exact Or.inr ⟨g, ha, Or.inl ht⟩

theorem Taking.start {s : State F Queue (Call T E) (Data F T E)} {f g : F}
    (h : Taking s g) (hg : g ≠ f) : Taking (s.start f) g := by
  refine ⟨?_, ?_⟩
  · rw [State.start_woken, List.mem_erase_of_ne hg]
    exact h.1
  · rw [State.start_code_of_ne s hg]
    exact h.2

/-- A woken fiber that starts to run is the only one that may lose the reservation,
and it runs a `take` then. -/
theorem Invariant.start {s : State F Queue (Call T E) (Data F T E)} {o : Option F} {f : F}
    {c : Call T E} (hs : Invariant none s) (hf : s.code f = Option.some c)
    (hw : f ∈ s.woken) (ho : c = .take → o = Option.some f) : Invariant o (s.start f) := by
  refine ⟨hs.wellFormed.start hw, ?_, fun hv => ?_⟩
  · intro g hg
    rw [State.start_code_of_ne s]
    · exact hs.code g hg
    · rintro rfl
      exact hs.wellFormed.queue_not_woken .take g hg hw
  · rcases (hs.reserved hv).taking with h | ⟨g, ha, ht⟩
    · exact Or.inl h
    · refine Or.inr ⟨g, ha, ?_⟩
      by_cases hgf : g = f
      · subst hgf
        have hc : c = .take := Option.some.inj (hf.symm.trans ht.2)
        exact Or.inr (ho hc)
      · exact Or.inl (ht.start hgf)

theorem invariant_step {s t : State F Queue (Call T E) (Data F T E)}
    {l : Label F Queue (Call T E)} (hs : Invariant none s) (hok : PutsUnreserved s l)
    (h : (program F T E).step s l = some t) : Invariant none t := by
  rcases Program.step_cases h with ⟨f, c, rfl, hf, rfl⟩ | ⟨f, c, rfl, hf, hw, rfl⟩ |
    ⟨q, f, c, c', -, -, he, -, -⟩
  · cases c with
    | put item => exact invariant_put_exec hs hf (hok f item rfl)
    | take => exact invariant_take_exec (hs.some f) hf
  · cases c with
    | put item =>
        refine invariant_put_exec (hs.start hf hw (by simp)) (s.start_code_self f) ?_
        intro hv hitem hq g ha
        have htaking := hok f item (by simp [Label.runs, hf]) hv hitem hq g ha
        refine htaking.start ?_
        rintro rfl
        cases hf.symm.trans htaking.2
    | take => exact invariant_take_exec (hs.start hf hw fun _ => rfl) (s.start_code_self f)
  · cases he

/-- In every interleaving in which no item is put under a reservation of the past, no
item is withheld from a taker. -/
theorem notStranded_of_putsUnreserved (ls : List (Label F Queue (Call T E)))
    (s : State F Queue (Call T E) (Data F T E))
    (hg : Transition.Guarded (program F T E).step PutsUnreserved
      (State.idle (Data.init F T E)) ls)
    (hr : Transition.run (program F T E).step (State.idle (Data.init F T E)) ls = some s) :
    NotStranded s := by
  have hinit : Invariant none (State.idle (Data.init F T E)) :=
    ⟨.idle _, fun f hf => by simp [State.idle] at hf, fun hv => by cases hv⟩
  have hs : Invariant none s :=
    hg.invariant (fun _ _ _ hs hok h => invariant_step hs hok h) hinit hr
  refine ⟨fun hv hq => ?_, fun hv hfree f => ?_⟩
  · rcases (hs.reserved hv).taking with ⟨-, hnil⟩ | h
    · exact absurd hnil hq
    · exact h
  · rcases (hs.reserved hv).taking with ⟨ha, -⟩ | ⟨g, ha, ht⟩
    · rw [Data.validFor, hv, ha]
      rfl
    · exact absurd ht (hfree g ha)

/-- Fiber 1 waits for the item 10 and takes it. Nobody waits when 11 is put, but it is
still reserved for fiber 1. -/
def stale : List (Label ℕ Queue (Call ℕ Unit)) :=
  [.call 1 .take, .call 2 (.put (.value 10)), .resume 1, .call 2 (.put (.value 11)),
    .call 3 .take]

/-- Fiber 3 is blocked although the mailbox holds an item that nobody is going to
take. -/
theorem not_notStranded_stale :
    ∃ s, Transition.run (program ℕ ℕ Unit).step (State.idle (Data.init ℕ ℕ Unit)) stale =
        some s ∧ s.data.value.valid = true ∧ s.queue .take = [3] ∧ s.woken = [] ∧
      ¬ NotStranded s := by
  refine ⟨_, rfl, rfl, rfl, rfl, fun h => ?_⟩
  obtain ⟨g, -, hw, -⟩ := h.reserved rfl (by decide)
  cases hw

/-- Two takers that wait, and two items put. -/
def twoTakers : List (Label ℕ Queue (Call ℕ Unit)) :=
  [.call 1 .take, .call 2 .take, .call 3 (.put (.value 10)), .resume 1,
    .call 3 (.put (.value 11))]

theorem notStranded_twoTakers :
    ∃ s, Transition.run (program ℕ ℕ Unit).step (State.idle (Data.init ℕ ℕ Unit))
        twoTakers = some s ∧ s.data.value.valid = true ∧ NotStranded s := by
  refine ⟨_, rfl, rfl, notStranded_of_putsUnreserved twoTakers _ ?_ rfl⟩
  refine .cons ?_ rfl (.cons ?_ rfl (.cons ?_ rfl (.cons ?_ rfl (.cons ?_ rfl trivial))))
  all_goals
    intro f item h _ _ hq
    cases h
  all_goals cases hq

end Mailbox

end Zth
