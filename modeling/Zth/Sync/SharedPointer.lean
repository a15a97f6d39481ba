import Mathlib.Algebra.Group.Nat.Defs
import Mathlib.Data.Finset.Card
import Mathlib.Data.List.Nodup
import Zth.Library.Run

/-!
# Shared pointers

A `RefCounted` object counts the pointers to it, and is cleaned up when the last
of them goes. `SharedPointer` does the counting, and a `SharedReference` is an
object whose only member is a `SharedPointer`; it is known by the address of that
member.

What is deleted must not be used again, and the counter asserts that it neither
overflows nor goes below zero. Where that fails, there is no next state.
-/

namespace Zth

namespace Shared

/-- The shared pointers that are alive and what they point to, and the objects with their
counters and the order in which they are cleaned up. -/
structure State (P O : Type*) where
  alive : Finset P
  mObject : P → Option O
  mCount : O → ℕ
  cleaned : List O

/-- The largest `size_t`. -/
def maxCount : ℕ :=
  2 ^ 64 - 1

variable {P O : Type*} [DecidableEq P] [DecidableEq O]

namespace State

/-- No pointers yet. -/
def new : State P O where
  alive := ∅
  mObject := fun _ => none
  mCount := fun _ => 0
  cleaned := []

def used (s : State P O) (o : O) : Option (State P O) :=
  if o ∉ s.cleaned ∧ s.mCount o < maxCount then
    some { s with mCount := Function.update s.mCount o (s.mCount o + 1) }
  else none

def unused (s : State P O) (o : O) : Option (State P O) :=
  if o ∉ s.cleaned ∧ 0 < s.mCount o then
    let count := s.mCount o - 1
    some
      { s with
        mCount := Function.update s.mCount o count
        cleaned := if 0 < count then s.cleaned else s.cleaned ++ [o] }
  else none

/-- `used` of what a pointer points to, if anything. -/
def usedIf (s : State P O) (object : Option O) : Option (State P O) :=
  object.elim (some s) s.used

/-- `unused` of what a pointer points to, if anything. -/
def unusedIf (s : State P O) (object : Option O) : Option (State P O) :=
  object.elim (some s) s.unused

def setObject (s : State P O) (p : P) (object : Option O) : State P O :=
  { s with mObject := Function.update s.mObject p object }

end State

namespace SharedPointer

def construct (s : State P O) (p : P) (object : Option O) : Option (State P O) :=
  State.usedIf { s.setObject p object with alive := insert p s.alive } object

def constructCopy (s : State P O) (p q : P) : Option (State P O) :=
  construct s p (s.mObject q)

def reset (s : State P O) (p : P) (object : Option O) : Option (State P O) :=
  (s.usedIf object).bind fun s =>
    (s.unusedIf (s.mObject p)).map fun s => s.setObject p object

/-- Assignment of a plain pointer. -/
def assign (s : State P O) (p : P) (object : Option O) : Option (State P O) :=
  reset s p object

def assignCopy (s : State P O) (p q : P) : Option (State P O) :=
  reset s p (s.mObject q)

def release (s : State P O) (p : P) : Option O × State P O :=
  (s.mObject p, s.setObject p none)

def assignMove (s : State P O) (p q : P) : Option (State P O) :=
  (reset s p none).map fun s =>
    let (object, s) := release s q
    s.setObject p object

def constructMove (s : State P O) (p q : P) : Option (State P O) :=
  assignMove { s.setObject p none with alive := insert p s.alive } p q

def destruct (s : State P O) (p : P) : Option (State P O) :=
  (reset s p none).map fun s => { s with alive := s.alive.erase p }

end SharedPointer

namespace SharedReference

def construct (s : State P O) (p : P) : Option (State P O) :=
  SharedPointer.construct s p none

def constructObject (s : State P O) (p : P) (object : O) : Option (State P O) :=
  SharedPointer.construct s p (some object)

def constructCopy (s : State P O) (p q : P) : Option (State P O) :=
  SharedPointer.constructCopy s p q

/-- From a `SharedPointer`. -/
def constructPointer (s : State P O) (p q : P) : Option (State P O) :=
  SharedPointer.constructCopy s p q

/-- From a `SharedPointer` that may be moved. -/
def constructPointerMove (s : State P O) (p q : P) : Option (State P O) :=
  SharedPointer.constructMove s p q

def reset (s : State P O) (p : P) : Option (State P O) :=
  SharedPointer.reset s p none

def assignCopy (s : State P O) (p q : P) : Option (State P O) :=
  SharedPointer.assignCopy s p q

def assignMove (s : State P O) (p q : P) : Option (State P O) :=
  SharedPointer.assignMove s p q

/-- A null pointer that is then assigned to. -/
def constructMove (s : State P O) (p q : P) : Option (State P O) :=
  (SharedPointer.construct s p none).bind fun s => assignMove s p q

/-- The conversion of `q` to a `SharedPointer` `p`. -/
def toPointer (s : State P O) (p q : P) : Option (State P O) :=
  SharedPointer.constructCopy s p q

/-- The same, when `q` may be moved. -/
def toPointerMove (s : State P O) (p q : P) : Option (State P O) :=
  SharedPointer.constructMove s p q

def destruct (s : State P O) (p : P) : Option (State P O) :=
  SharedPointer.destruct s p

end SharedReference

/-- Everything that can be done with shared pointers and shared references. -/
inductive Op (P O : Type*) where
  | construct (p : P) (object : Option O)
  | constructCopy (p q : P)
  | constructMove (p q : P)
  | reset (p : P) (object : Option O)
  | assign (p : P) (object : Option O)
  | assignCopy (p q : P)
  | assignMove (p q : P)
  | destruct (p : P)
  | refConstruct (p : P)
  | refConstructObject (p : P) (object : O)
  | refConstructCopy (p q : P)
  | refConstructPointer (p q : P)
  | refConstructPointerMove (p q : P)
  | refConstructMove (p q : P)
  | refReset (p : P)
  | refAssignCopy (p q : P)
  | refAssignMove (p q : P)
  | refToPointer (p q : P)
  | refToPointerMove (p q : P)
  | refDestruct (p : P)

namespace Op

def perform (s : State P O) : Op P O → Option (State P O)
  | construct p object => SharedPointer.construct s p object
  | constructCopy p q => SharedPointer.constructCopy s p q
  | constructMove p q => SharedPointer.constructMove s p q
  | reset p object => SharedPointer.reset s p object
  | assign p object => SharedPointer.assign s p object
  | assignCopy p q => SharedPointer.assignCopy s p q
  | assignMove p q => SharedPointer.assignMove s p q
  | destruct p => SharedPointer.destruct s p
  | refConstruct p => SharedReference.construct s p
  | refConstructObject p object => SharedReference.constructObject s p object
  | refConstructCopy p q => SharedReference.constructCopy s p q
  | refConstructPointer p q => SharedReference.constructPointer s p q
  | refConstructPointerMove p q => SharedReference.constructPointerMove s p q
  | refConstructMove p q => SharedReference.constructMove s p q
  | refReset p => SharedReference.reset s p
  | refAssignCopy p q => SharedReference.assignCopy s p q
  | refAssignMove p q => SharedReference.assignMove s p q
  | refToPointer p q => SharedReference.toPointer s p q
  | refToPointerMove p q => SharedReference.toPointerMove s p q
  | refDestruct p => SharedReference.destruct s p

/-- What the operation constructs, if anything. -/
def constructs : Op P O → Option P
  | construct p _ | constructCopy p _ | constructMove p _ | refConstruct p
  | refConstructObject p _ | refConstructCopy p _ | refConstructPointer p _
  | refConstructPointerMove p _ | refConstructMove p _ | refToPointer p _
  | refToPointerMove p _ => some p
  | _ => none

/-- The shared pointers that the operation uses. -/
def uses : Op P O → List P
  | constructCopy _ q | constructMove _ q | refConstructCopy _ q | refConstructPointer _ q
  | refConstructPointerMove _ q | refConstructMove _ q | refToPointer _ q
  | refToPointerMove _ q => [q]
  | reset p _ | assign p _ | destruct p | refReset p | refDestruct p => [p]
  | assignCopy p q | assignMove p q | refAssignCopy p q | refAssignMove p q => [p, q]
  | construct _ _ | refConstruct _ | refConstructObject _ _ => []

/-- The object that comes as a plain pointer or reference. -/
def raw : Op P O → Option O
  | construct _ object | reset _ object | assign _ object => object
  | refConstructObject _ object => some object
  | _ => none

/-- Only what is alive is used, nothing is constructed twice, and no plain pointer is to an
object that is cleaned up. -/
def Legal (s : State P O) (op : Op P O) : Prop :=
  (∀ p, op.constructs = some p → p ∉ s.alive) ∧ (∀ p ∈ op.uses, p ∈ s.alive) ∧
    ∀ o, op.raw = some o → o ∉ s.cleaned

instance (s : State P O) (op : Op P O) : Decidable (op.Legal s) :=
  inferInstanceAs (Decidable ((∀ p, op.constructs = some p → p ∉ s.alive) ∧
    (∀ p ∈ op.uses, p ∈ s.alive) ∧ ∀ o, op.raw = some o → o ∉ s.cleaned))

end Op

/-- One operation. -/
def step (s : State P O) (op : Op P O) : Option (State P O) :=
  if op.Legal s then op.perform s else none

/-- The number of shared pointers and references that designate an object. -/
def State.designators (s : State P O) (o : O) : ℕ :=
  (s.alive.filter fun p => s.mObject p = some o).card

/-- The counters are exact, nothing is cleaned up twice, and no pointer is left to what is
cleaned up. -/
structure Exact (s : State P O) : Prop where
  refs : ∀ o, s.mCount o = s.designators o
  nodup : s.cleaned.Nodup
  live : ∀ p ∈ s.alive, ∀ o, s.mObject p = some o → o ∉ s.cleaned

/-- From `s` to `t`, exactly those objects are cleaned up that lose their last pointer. -/
def Cleans (s t : State P O) : Prop :=
  s.cleaned <+: t.cleaned ∧
    ∀ o, o ∈ t.cleaned ↔ o ∈ s.cleaned ∨ 0 < s.designators o ∧ t.designators o = 0

end Shared

end Zth
