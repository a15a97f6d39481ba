import Mathlib.Algebra.Group.Nat.Defs
import Mathlib.Data.Fintype.Basic
import Mathlib.Data.Finset.Card
import Mathlib.Order.Lattice
import Zth.Library.LevelTree
import Zth.Library.Run

/-!
# The sorted list

`SortedList` keeps its elements in an Andersson tree of intrusive nodes. An
element is known by its address; its key is read from the object it is part of,
by way of `Compare`. Elements with equal keys are ordered by their address.

The nodes of the tree are the elements themselves, so every subtree is a value
here, and a pointer to a node is the element at its root. An assertion that does
not hold makes an operation return `none`.
-/

namespace Zth

namespace SortedList

open LevelTree

variable {A : Type*}

/-- Rotate right, if the left child is at the level of its parent. -/
def skew : LevelTree A → LevelTree A
  | node (node ll lv le lr) v e r =>
      if lv = v then node ll lv le (node lr v e r) else node (node ll lv le lr) v e r
  | t => t

/-- Rotate left and lift the root, if two right children are at the level of their
parent. The level is a `uint_fast8_t` that is asserted to be below its maximum. -/
def split : LevelTree A → Option (LevelTree A)
  | node l v e (node rl rv re (node a w b c)) =>
      if v = w then
        if rv < 255 then some (node (node l v e rl) (rv + 1) re (node a w b c)) else none
      else
        some (node l v e (node rl rv re (node a w b c)))
  | t => some t

/-- Lower a node that sits too high above its children, and its right child with
it. -/
def decreaseLevel : LevelTree A → LevelTree A
  | nil => nil
  | node l v e r =>
      let shouldBe := (min l.level r.level + 1) % 256
      if shouldBe < v then
        match r with
        | nil => node l shouldBe e nil
        | node rl rv re rr =>
            node l shouldBe e (node rl (if shouldBe < rv then shouldBe else rv) re rr)
      else
        node l v e r

/-- The repair that ends every level of `delete_`. -/
def rebalance (t : LevelTree A) : Option (LevelTree A) :=
  let t := skew (decreaseLevel t)
  let t := t.mapRight skew
  let t := t.mapRight (mapRight skew)
  (split t).bind fun
    | nil => some nil
    | node l v e r => (split r).map (node l v e)

def lowest : LevelTree A → Option A
  | nil => none
  | node nil _ e _ => some e
  | node l _ _ _ => lowest l

def highest : LevelTree A → Option A
  | nil => none
  | node _ _ e nil => some e
  | node _ _ _ r => highest r

/-- A null pointer. -/
def isNull : LevelTree A → Bool
  | nil => true
  | node _ _ _ _ => false

section Search

variable [LinearOrder A] (comp : A → A → Bool)

/-- The tests that send a search for `x` to the left of the node `e`. -/
def goesLeft (x e : A) : Bool :=
  if comp x e then true
  else if comp e x then false
  else decide (x < e)

/-- The search of `contains`. -/
def find (x : A) : LevelTree A → Bool
  | nil => false
  | node l _ e r =>
      if e = x then true
      else if goesLeft comp x e then find x l
      else find x r

/-- The head when the insertion below a node is done: a new left child of the head
is the new head. -/
def headAt (head : Option A) : LevelTree A → Option A
  | nil => head
  | node l _ e _ => if head = some e && !isNull l then l.root? else head

/-- Insert below a node. The head goes along. -/
def insert_ (x : A) : LevelTree A → Option A → Option (LevelTree A × Option A)
  | nil, head => some (node nil 1 x nil, head)
  | node l v e r, head =>
      if goesLeft comp x e then
        (insert_ x l head).bind fun (l, head) =>
          (split (skew (node l v e r))).map fun t => (t, headAt head (node l v e r))
      else
        (insert_ x r head).bind fun (r, head) =>
          (split (skew (node l v e r))).map fun t => (t, headAt head (node l v e r))

/-- Delete below a node. An element with children is replaced by its neighbour,
which is deleted from the subtree it comes from. -/
def delete_ (x : A) : LevelTree A → Option (LevelTree A)
  | nil => some nil
  | node l v e r =>
      if x = e then
        if isNull l && isNull r then some nil
        else if isNull l then
          (lowest r).bind fun y => (delete_ y r).bind fun r => rebalance (node l v y r)
        else
          (highest l).bind fun y => (delete_ y l).bind fun l => rebalance (node l v y r)
      else if goesLeft comp x e then
        (delete_ x l).bind fun l => rebalance (node l v e r)
      else
        (delete_ x r).bind fun r => rebalance (node l v e r)

/-- The assertions on one node. The one on the order of the right child is as the
code has it, and accepts more than that of the left child. -/
def checkNode (l : LevelTree A) (v : ℕ) (e : A) (r : LevelTree A) : Bool :=
  (l.root?.all fun x => comp x e || (!comp e x && decide (x < e))) &&
  (r.root?.all fun x => comp e x || (!comp x e || decide (e < x))) &&
  (!isNull l || !isNull r || v == 1) &&
  (isNull l || l.level + 1 == v) &&
  (isNull r || r.level + 1 == v || r.level == v) &&
  (isNull r || isNull r.right || decide (r.right.level < v)) &&
  (decide (v < 2) || (!isNull l && !isNull r))

/-- The assertions on all nodes; returns their number. -/
def checkTree : LevelTree A → Option ℕ
  | nil => some 0
  | node l v e r =>
      if checkNode comp l v e r then
        (checkTree l).bind fun n => (checkTree r).map fun m => (1 + n + m) % 2 ^ 64
      else none

end Search

end SortedList

/-- A sorted list. `size` is a `size_t`. -/
structure SortedList (A : Type*) where
  t : LevelTree A
  head : Option A
  size : ℕ
deriving DecidableEq, Repr

namespace SortedList

open LevelTree

variable {A : Type*}

/-- A new list. -/
def init (A : Type*) : SortedList A := ⟨.nil, none, 0⟩

def empty (s : SortedList A) : Bool := isNull s.t

/-- The in-order walk. -/
def walk (s : SortedList A) : List A := s.t.toList

variable [LinearOrder A] (comp : A → A → Bool)

def contains (x : A) (s : SortedList A) : Bool := find comp x s.t

/-- The assertions on the whole list. -/
def check (s : SortedList A) : Bool :=
  checkTree comp s.t == some s.size &&
  ((isNull s.t && s.head.isNone) ||
    (!isNull s.t && s.head.isSome && lowest s.t == s.head))

def insert (x : A) (s : SortedList A) : Option (SortedList A) :=
  if contains comp x s then none
  else
    let head := if isNull s.t then some x else s.head
    (insert_ comp x s.t head).bind fun (t, head) =>
      let s : SortedList A := ⟨t, head, (s.size + 1) % 2 ^ 64⟩
      if check comp s then some s else none

def erase (x : A) (s : SortedList A) : Option (SortedList A) :=
  if contains comp x s then
    (delete_ comp x s.t).bind fun t =>
      let head := if s.head = some x then lowest t else s.head
      let s : SortedList A := ⟨t, head, (s.size + (2 ^ 64 - 1)) % 2 ^ 64⟩
      if check comp s then some s else none
  else none

end SortedList

end Zth
