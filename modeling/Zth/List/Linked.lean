import Zth.Library.Ring
import Zth.Library.Run

/-!
# The linked list

`List` is a doubly linked list without a sentinel: the links of its elements form a
ring, and the list has a pointer to the first and to the last of them. An iterator holds
the first element and the current one. A null pointer as the current one is the begin,
and the first element is the end, so that both fit in two pointers.

The links are fields of the elements. With `Config::EnableAssert`, those of an element
that is taken out are cleared, and asserted to be null when it is put in again. An
assertion that does not hold and a null pointer that is followed make an operation
return `none`, and so does a loop that is not over within its fuel.
-/

namespace Zth

/-- A list, with the links and the user data of all elements there are. -/
structure LinkedList (E U : Type*) where
  links : Ring.Links E
  user : E → U
  mHead : Option E
  mTail : Option E

/-- A position in a list. -/
structure LinkedList.Iterator (E : Type*) where
  mStart : Option E
  mCurrent : Option E
deriving DecidableEq, Repr

namespace LinkedList

variable {E U : Type*}

/-- `zth_assert`. -/
def check (enableAssert p : Bool) : Option Unit :=
  if enableAssert && !p then none else some ()

namespace Iterator

def atBegin (it : Iterator E) : Bool := it.mCurrent.isNone && it.mStart.isSome

/-- The element of a position, without the assertion of `get`. -/
def position (it : Iterator E) : Option E := if it.atBegin then it.mStart else it.mCurrent

variable [DecidableEq E]

def atEnd (it : Iterator E) : Bool := decide (it.mCurrent = it.mStart)

def get (enableAssert cyclic : Bool) (it : Iterator E) : Option E :=
  (check enableAssert (cyclic || !it.atEnd)).bind fun _ => it.position

/-- `operator==`. -/
def eq (it rhs : Iterator E) : Bool :=
  if it.atEnd then rhs.atEnd
  else if rhs.atEnd then false
  else decide (it.position = rhs.position)

def next (enableAssert cyclic : Bool) (m : Ring.Links E) (it : Iterator E) :
    Option (Iterator E) :=
  (check enableAssert ((cyclic || !it.atEnd) && it.mStart.isSome)).bind fun _ =>
    it.position.map fun x => { it with mCurrent := m.next x }

end Iterator

/-- An empty list, with elements that are in no list. -/
def new (E U : Type*) [Inhabited U] : LinkedList E U :=
  ⟨⟨fun _ => none, fun _ => none⟩, fun _ => default, none, none⟩

def begin (s : LinkedList E U) : Iterator E := ⟨s.mHead, none⟩

/-- `end()`. -/
def atEnd (s : LinkedList E U) : Iterator E := ⟨s.mHead, s.mHead⟩

def empty (enableAssert : Bool) (s : LinkedList E U) : Option Bool :=
  (check enableAssert (s.mHead.isSome || s.mTail.isNone)).map fun _ => s.mHead.isNone

def front (enableAssert : Bool) (s : LinkedList E U) : Option E :=
  (empty enableAssert s).bind fun b => (check enableAssert !b).bind fun _ => s.mHead

def back (enableAssert : Bool) (s : LinkedList E U) : Option E :=
  (empty enableAssert s).bind fun b => (check enableAssert !b).bind fun _ => s.mTail

variable [DecidableEq E]

section Loops

/-- The loop of `contains`. -/
def containsLoop (enableAssert : Bool) (e : E) (s : LinkedList E U) :
    ℕ → Iterator E → Option Bool
  | 0, _ => none
  | n + 1, it =>
      if it.eq s.atEnd then some false
      else
        (it.get enableAssert false).bind fun x =>
          if x = e then some true
          else (it.next enableAssert false s.links).bind (containsLoop enableAssert e s n)

def contains (enableAssert : Bool) (fuel : ℕ) (e : E) (s : LinkedList E U) : Option Bool :=
  containsLoop enableAssert e s fuel s.begin

/-- The loop of `size`. -/
def sizeLoop (enableAssert : Bool) (s : LinkedList E U) : ℕ → ℕ → Iterator E → Option ℕ
  | 0, _, _ => none
  | n + 1, res, it =>
      if it.eq s.atEnd then some res
      else (it.next enableAssert false s.links).bind (sizeLoop enableAssert s n (res + 1))

def size (enableAssert : Bool) (fuel : ℕ) (s : LinkedList E U) : Option ℕ :=
  sizeLoop enableAssert s fuel 0 s.begin

/-- An element is asserted to be contained, which is not looked for otherwise. -/
def checkContains (enableAssert : Bool) (fuel : ℕ) (e : E) (s : LinkedList E U) :
    Option Unit :=
  if enableAssert then (contains enableAssert fuel e s).bind (check enableAssert) else some ()

end Loops

/-- The link fields of an element are asserted to be null. -/
def checkUnlinked (enableAssert : Bool) (e : E) (s : LinkedList E U) : Option Unit :=
  (check enableAssert (s.links.prev e).isNone).bind fun _ =>
    check enableAssert (s.links.next e).isNone

section Push

variable [Inhabited U]

def setUser (e : E) (u : U) (s : LinkedList E U) : LinkedList E U :=
  { s with user := Function.update s.user e u }

def pushBack (enableAssert : Bool) (e : E) (s : LinkedList E U) :
    Option (LinkedList E U × Iterator E) :=
  (checkUnlinked enableAssert e s).bind fun _ =>
    let s := s.setUser e default
    match s.mTail with
    | none =>
        (check enableAssert s.mHead.isNone).map fun _ =>
          let s := { s with links := s.links.join e e, mHead := some e, mTail := some e }
          (s, s.begin)
    | some tail =>
        (s.links.next tail).map fun next =>
          ({ s with links := s.links.splice e tail next, mTail := some e },
            ⟨s.mHead, some e⟩)

def pushFront (enableAssert : Bool) (e : E) (s : LinkedList E U) :
    Option (LinkedList E U × Iterator E) :=
  (checkUnlinked enableAssert e s).bind fun _ =>
    let s := s.setUser e default
    match s.mHead with
    | none =>
        (check enableAssert s.mTail.isNone).map fun _ =>
          ({ s with links := s.links.join e e, mHead := some e, mTail := some e },
            ⟨some e, some e⟩)
    | some head =>
        (s.links.prev head).map fun prev =>
          ({ s with links := s.links.splice e prev head, mHead := some e }, ⟨some e, some e⟩)

def insert (enableAssert : Bool) (pos : Iterator E) (e : E) (s : LinkedList E U) :
    Option (LinkedList E U × Iterator E) :=
  if pos.atEnd then
    (pushBack enableAssert e s).map fun (s, _) => (s, ⟨s.mHead, some e⟩)
  else if pos.atBegin then
    (pushFront enableAssert e s).map fun (s, _) => (s, s.begin)
  else
    (pos.get enableAssert false).bind fun before =>
      (s.links.prev before).map fun prev =>
        let s := s.setUser e default
        ({ s with links := s.links.splice e prev before }, ⟨s.mHead, some e⟩)

end Push

/-- The neighbours of an element are joined. -/
def unlink (e : E) (s : LinkedList E U) : Option (LinkedList E U) :=
  (s.links.prev e).bind fun prev =>
    (s.links.next e).map fun next => { s with links := s.links.join prev next }

/-- The link fields of an element that was taken out. -/
def release (enableAssert : Bool) (e : E) (s : LinkedList E U) : LinkedList E U × U :=
  (if enableAssert then { s with links := s.links.clear e } else s, s.user e)

/-- The last element of a list with one element is taken out. -/
def popLast (enableAssert : Bool) (e : E) (s : LinkedList E U) : Option (LinkedList E U) :=
  (check enableAssert (decide (s.links.prev e = s.links.next e))).bind fun _ =>
    (check enableAssert (decide (s.links.prev e = some e))).map fun _ =>
      { s with mHead := none, mTail := none }

def popBack (enableAssert : Bool) (s : LinkedList E U) : Option (LinkedList E U × U) :=
  (back enableAssert s).bind fun e =>
    if s.mTail = s.mHead then (popLast enableAssert e s).map (release enableAssert e)
    else
      (unlink e { s with mTail := s.links.prev e }).map (release enableAssert e)

def popFront (enableAssert : Bool) (s : LinkedList E U) : Option (LinkedList E U × U) :=
  (front enableAssert s).bind fun e =>
    if s.mTail = s.mHead then (popLast enableAssert e s).map (release enableAssert e)
    else
      (unlink e { s with mHead := s.links.next e }).map (release enableAssert e)

def erase (enableAssert : Bool) (fuel : ℕ) (e : E) (s : LinkedList E U) :
    Option (LinkedList E U × U) :=
  (checkContains enableAssert fuel e s).bind fun _ =>
    if s.mHead = some e then popFront enableAssert s
    else if s.mTail = some e then popBack enableAssert s
    else (unlink e s).map (release enableAssert e)

/-- `erase` at a position. -/
def eraseAt (enableAssert : Bool) (fuel : ℕ) (pos : Iterator E) (s : LinkedList E U) :
    Option (LinkedList E U × Iterator E) :=
  (check enableAssert !pos.atEnd).bind fun _ =>
    (pos.get enableAssert false).bind fun e =>
      if pos.atBegin then (erase enableAssert fuel e s).map fun (s, _) => (s, s.begin)
      else if some e = s.mTail then
        (erase enableAssert fuel e s).map fun (s, _) => (s, s.atEnd)
      else
        let next := s.links.next e
        (erase enableAssert fuel e s).map fun (s, _) => (s, ⟨s.mHead, next⟩)

def rotate (enableAssert : Bool) (fuel : ℕ) (e : E) (s : LinkedList E U) :
    Option (LinkedList E U) :=
  (checkContains enableAssert fuel e s).map fun _ =>
    { s with mHead := some e, mTail := s.links.prev e }

/-- The element that `*++cyclic(e)` is. -/
def behind (enableAssert : Bool) (fuel : ℕ) (e : E) (s : LinkedList E U) : Option E :=
  (checkContains enableAssert fuel e s).bind fun _ =>
    (Iterator.next enableAssert true s.links ⟨some e, none⟩).bind (·.get enableAssert true)

/-- A position, that many times `++` from the begin. -/
def advance (enableAssert : Bool) (s : LinkedList E U) : ℕ → Iterator E → Option (Iterator E)
  | 0, it => some it
  | n + 1, it => (it.next enableAssert false s.links).bind (advance enableAssert s n)

/-- What is done to a list. A position is the number of steps from the begin. -/
inductive Op (E : Type*) where
  | pushFront (e : E)
  | pushBack (e : E)
  | popFront
  | popBack
  | insert (pos : ℕ) (e : E)
  | eraseAt (pos : ℕ)
  | erase (e : E)
  | rotate (e : E)
deriving DecidableEq, Repr

/-- What an operation does to the linked structure. -/
def step [Inhabited U] (enableAssert : Bool) (fuel : ℕ) (s : LinkedList E U) :
    Op E → Option (LinkedList E U)
  | .pushFront e => (pushFront enableAssert e s).map Prod.fst
  | .pushBack e => (pushBack enableAssert e s).map Prod.fst
  | .popFront => (popFront enableAssert s).map Prod.fst
  | .popBack => (popBack enableAssert s).map Prod.fst
  | .insert pos e =>
      (advance enableAssert s pos s.begin).bind fun it =>
        (insert enableAssert it e s).map Prod.fst
  | .eraseAt pos =>
      (advance enableAssert s pos s.begin).bind fun it =>
        (eraseAt enableAssert fuel it s).map Prod.fst
  | .erase e => (erase enableAssert fuel e s).map Prod.fst
  | .rotate e => rotate enableAssert fuel e s

/-- What an operation is meant to do to a sequence, if it may be done. -/
def Op.apply (l : List E) : Op E → Option (List E)
  | .pushFront e => if e ∈ l then none else some (e :: l)
  | .pushBack e => if e ∈ l then none else some (l ++ [e])
  | .popFront => if l = [] then none else some l.tail
  | .popBack => if l = [] then none else some l.dropLast
  | .insert pos e => if e ∈ l ∨ l.length < pos then none else some (l.insertIdx pos e)
  | .eraseAt pos => if pos < l.length then some (l.eraseIdx pos) else none
  | .erase e => if e ∈ l then some (l.erase e) else none
  | .rotate e => if e ∈ l then some (l.rotate (l.idxOf e)) else none

/-- The linked structure is that of a sequence: one ring, from the head to the tail, of its
elements, each once. With assertions, the links of all other elements are null. -/
structure Represents (enableAssert : Bool) (s : LinkedList E U) (l : List E) : Prop where
  nodup : l.Nodup
  ring : s.links.IsRing l
  head : s.mHead = l.head?
  tail : s.mTail = l.getLast?
  unlinked : enableAssert = true → ∀ e ∉ l, s.links.next e = none ∧ s.links.prev e = none

end LinkedList

end Zth
