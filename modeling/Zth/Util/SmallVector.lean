import Mathlib.Algebra.Order.Group.Nat
import Mathlib.Data.Int.Notation
import Zth.Library.Run
import Zth.Library.Throwing

/-!
# The small vector

`small_vector` keeps its elements in a buffer inside the object, as long as they
fit, and in an `std::vector` that lives in the same buffer afterwards. One byte,
`m_size`, is the number of elements in the first case and marks the second case
by a value above `prealloc`.

A cell of the buffer is `none` while no element lives in it. Every allocation of
the `std::vector` and every construction of an element is a request that can be
refused; the call then throws. What `std::vector` does in one call it does
completely or not at all. `clear` and `clear_and_release` must not throw, but make the
default argument of `resize(0)`, which is an element. Reading the buffer as what it is
not, or an element that does not live, is undefined.
-/

namespace Zth

/-- `prealloc`, from the template argument and the sizes of an element and of an
`std::vector`. -/
def preallocOf (Prealloc : ℤ) (valueSize vectorSize : ℕ) : ℕ :=
  let preallocRequest := if 0 < Prealloc then Prealloc.toNat else 0
  let preallocRequestSize := preallocRequest * valueSize
  let bufferSize :=
    if vectorSize < preallocRequestSize then preallocRequestSize else vectorSize
  bufferSize / valueSize

/-- What an instance of the template is made of. `prealloc` is asserted to be below
the largest value of a byte. -/
structure Layout where
  Prealloc : ℤ
  valueSize : ℕ
  vectorSize : ℕ
  prealloc_lt : preallocOf Prealloc valueSize vectorSize < 255

/-- The number of elements that fit in the buffer. -/
def Layout.prealloc (L : Layout) : ℕ :=
  preallocOf L.Prealloc L.valueSize L.vectorSize

/-- An `std::vector`. -/
structure StdVector (α : Type*) where
  elems : List α
  capacity : ℕ
  fits : elems.length ≤ capacity

namespace StdVector

variable {α : Type*} (slack : ℕ → ℕ → ℕ)

/-- A new vector, without any memory. -/
def new : StdVector α where
  elems := []
  capacity := 0
  fits := le_rfl

/-- Memory for `n` elements. When there is too little, the implementation takes
`slack` more than it is asked for. -/
def grown (v : StdVector α) (n : ℕ) : ℕ :=
  if n ≤ v.capacity then v.capacity else n + slack v.capacity n

theorem le_grown (v : StdVector α) (n : ℕ) : n ≤ v.grown slack n := by
  rw [grown]
  split <;> omega

theorem capacity_le_grown (v : StdVector α) (n : ℕ) : v.capacity ≤ v.grown slack n := by
  rw [grown]
  split <;> omega

def reserve (v : StdVector α) (n : ℕ) (g : Grants) : Option (StdVector α × Grants) :=
  if n ≤ v.capacity then some (v, g) else
    g.request.map fun g =>
      ({ v with
          capacity := v.grown slack n
          fits := v.fits.trans (v.capacity_le_grown slack n) }, g)

def pushBack (v : StdVector α) (x : α) (g : Grants) : Option (StdVector α × Grants) :=
  g.request.map fun g =>
    ({ elems := v.elems ++ [x]
       capacity := v.grown slack (v.elems ++ [x]).length
       fits := v.le_grown slack _ }, g)

def popBack (v : StdVector α) : StdVector α where
  elems := v.elems.dropLast
  capacity := v.capacity
  fits := (List.length_dropLast ▸ Nat.sub_le _ 1).trans v.fits

def clear (v : StdVector α) : StdVector α where
  elems := []
  capacity := v.capacity
  fits := Nat.zero_le _

def resize (v : StdVector α) (n : ℕ) (x : α) (g : Grants) :
    Option (StdVector α × Grants) :=
  if n ≤ v.elems.length then
    some ({ elems := v.elems.take n
            capacity := v.capacity
            fits := (List.length_take_le' n v.elems).trans v.fits }, g)
  else
    g.request.map fun g =>
      ({ elems := v.elems ++ List.replicate (n - v.elems.length) x
         capacity := v.grown slack (v.elems ++ List.replicate (n - v.elems.length) x).length
         fits := v.le_grown slack _ }, g)

end StdVector

/-- What `m_buffer` holds. -/
inductive Buffer (α : Type*) where
  | array (cells : ℕ → Option α)
  | vector (v : StdVector α)

structure SmallVector (L : Layout) (α : Type*) where
  mSize : ℕ
  buffer : Buffer α

namespace SmallVector

variable {L : Layout} {α : Type*} (slack : ℕ → ℕ → ℕ)

/-- A new small vector. -/
def new : SmallVector L α where
  mSize := 0
  buffer := .array fun _ => none

def isSmall (s : SmallVector L α) : Bool :=
  s.mSize ≤ L.prealloc

def array (s : SmallVector L α) : Option (ℕ → Option α) :=
  match s.isSmall, s.buffer with
  | true, .array cells => some cells
  | _, _ => none

def vector (s : SmallVector L α) : Option (StdVector α) :=
  match s.isSmall, s.buffer with
  | false, .vector v => some v
  | _, _ => none

def size (s : SmallVector L α) : Option ℕ :=
  if s.isSmall then some s.mSize else s.vector.map (·.elems.length)

def empty (s : SmallVector L α) : Option Bool :=
  if s.isSmall then some (s.mSize == 0) else s.vector.map (·.elems.isEmpty)

def capacity (s : SmallVector L α) : Option ℕ :=
  if s.isSmall then some L.prealloc else s.vector.map (·.capacity)

/-- The memory that `data` points to. -/
def data (s : SmallVector L α) : Option (ℕ → Option α) :=
  if s.isSmall then s.array else s.vector.map fun v i => v.elems[i]?

/-- `operator[]`, with its assertion. -/
def get (s : SmallVector L α) (index : ℕ) : Option α :=
  s.size.bind fun n => if index < n then s.data.bind fun cells => cells index else none

def front (s : SmallVector L α) : Option α :=
  s.get 0

def back (s : SmallVector L α) : Option α :=
  s.empty.bind fun e => if e then none else s.size.bind fun n => s.get (n - 1)

/-- A call of the `std::vector`. -/
def onVector (s : SmallVector L α)
    (f : StdVector α → Grants → Option (StdVector α × Grants)) (g : Grants) :
    Outcome (SmallVector L α) :=
  match s.vector with
  | none => .undefined
  | some v =>
      match f v g with
      | none => .thrown s
      | some (v, g) => .returned { s with buffer := .vector v } g

/-- Construct an element in the buffer, in the cell after the last one. -/
def construct (s : SmallVector L α) (x : α) (g : Grants) : Outcome (SmallVector L α) :=
  match s.array with
  | none => .undefined
  | some cells =>
      match g.request with
      | none => .thrown s
      | some g =>
          .returned
            { mSize := (s.mSize + 1) % 256
              buffer := .array (Function.update cells s.mSize (some x)) } g

/-- Destroy the element in cell `i` of the buffer. -/
def destroy (s : SmallVector L α) (i : ℕ) : Option (SmallVector L α) :=
  s.array.bind fun cells =>
    (cells i).map fun _ => { s with buffer := .array (Function.update cells i none) }

/-- `m_size` after `--m_size`. -/
def decremented (n : ℕ) : ℕ :=
  (n + 255) % 256

/-- Destroy the last element in the buffer. -/
def destroyLast (s : SmallVector L α) (g : Grants) : Outcome (SmallVector L α) :=
  (destroy { s with mSize := decremented s.mSize } (decremented s.mSize)).elim .undefined
    fun s => .returned s g

/-- The loop of `make_vector` that moves the elements from cell `i` on into `v`, and
destroys each in turn. -/
def moveElements :
    ℕ → ℕ → SmallVector L α → StdVector α → Grants → Outcome (SmallVector L α × StdVector α)
  | 0, _, s, v, g => .returned (s, v) g
  | n + 1, i, s, v, g =>
      match s.array.bind fun cells => cells i with
      | none => .undefined
      | some x =>
          match v.pushBack slack x g with
          | none => .thrown (s, v)
          | some (v, g) =>
              match s.destroy i with
              | none => .undefined
              | some s => moveElements n (i + 1) s v g

def makeVector (s : SmallVector L α) (newCap : ℕ) (g : Grants) :
    Outcome (SmallVector L α) :=
  if ¬ s.isSmall then .returned s g else
    match StdVector.new.reserve slack (max newCap s.mSize) g with
    | none => .thrown s
    | some (v, g) =>
        match moveElements slack s.mSize 0 s v g with
        | .undefined => .undefined
        | .terminated => .terminated
        | .thrown (s, _) => .thrown s
        | .returned (_, v) g =>
            .returned { mSize := (L.prealloc + 1) % 256, buffer := .vector v } g

def reserve (s : SmallVector L α) (newCap : ℕ) (g : Grants) : Outcome (SmallVector L α) :=
  if s.isSmall ∧ newCap ≤ L.prealloc then .returned s g else
    (if s.isSmall then s.makeVector slack newCap g else .returned s g).andThen fun s g =>
      s.onVector (fun v => v.reserve slack newCap) g

/-- Append a new element, which `push_back` copies and `emplace_back` constructs in
place. -/
def append (s : SmallVector L α) (x : α) (g : Grants) : Outcome (SmallVector L α) :=
  match s.size with
  | none => .undefined
  | some n =>
      (s.reserve slack (n + 1) g).andThen fun s g =>
        if s.mSize < L.prealloc then s.construct x g
        else s.onVector (fun v => v.pushBack slack x) g

def pushBack (s : SmallVector L α) (v : α) (g : Grants) : Outcome (SmallVector L α) :=
  s.append slack v g

/-- The arguments are those of a constructor, `make`. -/
def emplaceBack {ι : Type*} (make : ι → α) (s : SmallVector L α) (args : ι) (g : Grants) :
    Outcome (SmallVector L α) :=
  s.append slack (make args) g

def popBack (s : SmallVector L α) (g : Grants) : Outcome (SmallVector L α) :=
  match s.empty with
  | some false =>
      if s.isSmall then s.destroyLast g else s.onVector (fun v g => some (v.popBack, g)) g
  | _ => .undefined

/-- The loop of `resize` that destroys elements. -/
def shrink : ℕ → SmallVector L α → Grants → Outcome (SmallVector L α)
  | 0, s, g => .returned s g
  | n + 1, s, g => (s.destroyLast g).andThen fun s g => shrink n s g

/-- The loop of `resize` that copies `x` into the buffer. -/
def fill (x : α) : ℕ → SmallVector L α → Grants → Outcome (SmallVector L α)
  | 0, s, g => .returned s g
  | n + 1, s, g => (s.construct x g).andThen fun s g => fill x n s g

def resize (s : SmallVector L α) (count : ℕ) (x : α) (g : Grants) :
    Outcome (SmallVector L α) :=
  if s.isSmall then
    (s.shrink (s.mSize - count) g).andThen fun s g =>
      if count ≤ L.prealloc then s.fill x (count - s.mSize) g
      else
        (s.makeVector slack count g).andThen fun s g =>
          s.onVector (fun v => v.resize slack count x) g
  else s.onVector (fun v => v.resize slack count x) g

/-- `resize(0)`, with its default argument. The element that it would fill with is made, and
not used. -/
def resizeZero (s : SmallVector L α) (g : Grants) : Outcome (SmallVector L α) :=
  match g.request with
  | none => .thrown s
  | some g => s.shrink s.mSize g

def clear (s : SmallVector L α) (g : Grants) : Outcome (SmallVector L α) :=
  (if s.isSmall then s.resizeZero g
    else s.onVector (fun v g => some (v.clear, g)) g).noexcept

def clearAndRelease (s : SmallVector L α) (g : Grants) : Outcome (SmallVector L α) :=
  (if s.isSmall then s.resizeZero g
    else s.onVector (fun _ g => some (StdVector.new, g)) g).noexcept

end SmallVector

end Zth
