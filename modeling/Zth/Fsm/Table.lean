import Zth.Library.Grouping

/-!
# Transition tables

A state machine is described by a list of transitions. A transition has a state it
starts from, unless it starts from the same state as the one before it, a guard or an
input symbol, an action, and possibly a target state. `compile` turns the list into a
flat array, in which the entries of a state follow each other and only the first one
names the state. Entry 0 is a dummy, which plays the part of the state before the first
one.
-/

namespace Zth

namespace Fsm

/-- A string of C: a sequence of characters, none of which is the terminator. -/
structure CString where
  chars : List UInt8
  nonzero : ∀ c ∈ chars, c ≠ 0
deriving DecidableEq

/-- An input or state symbol: a string, or the null pointer. -/
abbrev Symbol := Option CString

namespace Symbol

def valid (s : Symbol) : Bool := s.isSome

/-- The loop of `constexpr_eq`. The terminator follows the characters. -/
def charsEq : List UInt8 → List UInt8 → Bool
  | [], b => 0 == b.headD 0
  | x :: _, [] => x == 0
  | x :: a, y :: b => if x != 0 && x == y then charsEq a b else x == y

/-- Compares the strings, not the pointers. -/
def constexprEq : Symbol → Symbol → Bool
  | none, none => true
  | some a, some b => charsEq a.chars b.chars
  | _, _ => false

theorem charsEq_iff {a b : List UInt8} (ha : ∀ c ∈ a, c ≠ 0) (hb : ∀ c ∈ b, c ≠ 0) :
    charsEq a b = true ↔ a = b := by
  induction a generalizing b with
  | nil =>
      cases b with
      | nil => simp [charsEq]
      | cons y b =>
          have hy : y ≠ 0 := hb y List.mem_cons_self
          simp [charsEq, hy.symm]
  | cons x a ih =>
      have hx : x ≠ 0 := ha x List.mem_cons_self
      cases b with
      | nil => simp [charsEq, hx]
      | cons y b =>
          have ih := ih (fun c hc => ha c (List.mem_cons_of_mem x hc))
            fun c hc => hb c (List.mem_cons_of_mem y hc)
          by_cases hxy : x = y
          · simp [charsEq, hxy, ih, hxy ▸ hx]
          · simp [charsEq, hxy]

/-- Two symbols are equal when both are null or their strings are the same. -/
theorem constexprEq_iff (s t : Symbol) : s.constexprEq t = true ↔ s = t := by
  cases s with
  | none => cases t <;> simp [constexprEq]
  | some a =>
      cases t with
      | none => simp [constexprEq]
      | some b =>
          rw [constexprEq, charsEq_iff a.nonzero b.nonzero]
          cases a
          cases b
          simp

theorem valid_iff (s : Symbol) : s.valid = true ↔ s ≠ none := Option.isSome_iff_ne_none

end Symbol

/-- What is thrown for an incorrect description. -/
structure InvalidFsm where
  what : String
deriving DecidableEq, Repr

/-- The guards and the action that `compile` uses itself. -/
structure Trivial (G A : Type*) where
  always : G
  never : G
  nothing : A

/-- A transition as it is written down. The guard counts if the input symbol is
invalid. -/
structure Transition (G A : Type*) where
  state : Symbol
  guard : G
  input : Symbol
  action : A
  target : Symbol

/-- What a transition waits for. -/
inductive Trigger (G : Type*) where
  | guard (g : G)
  | input (i : Symbol)
deriving DecidableEq

def Trigger.isInput {G : Type*} : Trigger G → Bool
  | .guard _ => false
  | .input _ => true

structure CompiledTransition (G A : Type*) where
  trigger : Trigger G
  action : A
  state : Symbol
  target : ℕ

variable {G A : Type*}

namespace Transition

def isInput (t : Transition G A) : Bool := t.input.valid

def hasGuard (t : Transition G A) : Bool := !t.isInput

def trigger (t : Transition G A) : Trigger G :=
  if t.hasGuard then .guard t.guard else .input t.input

end Transition

/-- The index of the first transition that names the state, counted from `i`. -/
def findLoop (state : Symbol) (i : ℕ) : List (Transition G A) → Except InvalidFsm ℕ
  | [] => .error ⟨"Target state not found"⟩
  | t :: ts => if t.state.constexprEq state then .ok (i + 1) else findLoop state (i + 1) ts

def find (state : Symbol) (l : List (Transition G A)) : Except InvalidFsm ℕ :=
  if state.valid then findLoop state 0 l else .ok 0

/-- The transition starts the entries of another state than `prev`. -/
def starts (prev : Symbol) (t : Transition G A) : Bool :=
  !prev.constexprEq t.state && t.state.valid

/-- The body of the loop of `compile`: entry `i` of the table. -/
def compileEntry (l : List (Transition G A)) (i : ℕ) (prev : Symbol) (t : Transition G A) :
    Except InvalidFsm (CompiledTransition G A) :=
  if starts prev t then
    (find t.state l).bind fun j =>
      if j ≠ i then .error ⟨"State transitions are not contiguous"⟩
      else (find t.target l).map fun j => ⟨t.trigger, t.action, t.state, j⟩
  else (find t.target l).map fun j => ⟨t.trigger, t.action, none, j⟩

/-- The loop of `compile`. -/
def compileLoop (l : List (Transition G A)) :
    ℕ → Symbol → List (Transition G A) → Except InvalidFsm (List (CompiledTransition G A))
  | _, _, [] => .ok []
  | i, prev, t :: ts =>
      (compileEntry l i prev t).bind fun e =>
        (compileLoop l (i + 1) (if starts prev t then t.state else prev) ts).map (e :: ·)

/-- The table of a list of transitions. -/
def compile (d : Trivial G A) (l : List (Transition G A)) :
    Except InvalidFsm (List (CompiledTransition G A)) :=
  match l with
  | [] => .ok [⟨.guard d.never, d.nothing, none, 0⟩]
  | t :: ts =>
      if t.state.valid then
        (compileLoop (t :: ts) 1 none (t :: ts)).map (⟨.guard d.always, d.nothing, none, 1⟩ :: ·)
      else .error ⟨"First state must be valid"⟩

/-- The entries that belong to the state at index `i`: up to the next one that names a
state. -/
def block (table : List (CompiledTransition G A)) (i : ℕ) : List (CompiledTransition G A) :=
  (table.drop i).take 1 ++ (table.drop (i + 1)).takeWhile fun e => !e.state.valid

end Fsm

end Zth
