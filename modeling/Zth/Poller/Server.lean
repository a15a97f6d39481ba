import Mathlib.Data.List.GetD
import Zth.Library.Run

/-!
# The two arrays of a poller server

`PollerServer` keeps the registered pollables with their clients in
`metaItems` and the things that are handed to the actual poll in `pollItems`.
The second array is initialised lazily: `mirror` extends it to the length of the
first one just before a poll. Removing an entry fills the gap from the back of
*each array on its own*, which is where the two can get out of step.

The virtual `init` reads the pollable as it is at the time of the call, so it
takes the contents `κ` of the pollables as an extra argument. A `doPoll` only
reports `revents`; the part of an item that `init` fills in is left alone.
-/

namespace Zth

/-- The `errno` values the poller code returns by name. -/
inductive Errno where
  | enomem
  | esrch
  | einval
  | other (code : ℕ)
deriving DecidableEq, Repr

/-- Meta data for a pollable: the pollable and the client it belongs to, which
may be absent. -/
structure MetaItem (P C : Type*) where
  pollable : P
  client : Option C
deriving DecidableEq, Repr

/-- The administration of a poller server. -/
structure PollerServer (P C I : Type*) where
  metaItems : List (MetaItem P C)
  pollItems : List I
deriving DecidableEq, Repr

namespace PollerServer

variable {P C I κ : Type*}

/-- A server without registrations. -/
def empty : PollerServer P C I := ⟨[], []⟩

/-- Register a pollable. Both allocations are rolled back on failure, so
`alloc = false` leaves the server as it was. -/
def add (p : P) (client : Option C) (alloc : Bool) (s : PollerServer P C I) :
    PollerServer P C I × Option Errno :=
  if alloc then
    ({ s with metaItems := s.metaItems ++ [⟨p, client⟩] }, none)
  else
    (s, some .enomem)

/-- Clear all pollables. -/
def clear (_ : PollerServer P C I) : PollerServer P C I := ⟨[], []⟩

/-- Remove the last added pollables. -/
def removeLast (last : ℕ) (s : PollerServer P C I) : PollerServer P C I :=
  if s.metaItems.length ≤ last then
    s.clear
  else
    let metaItems := s.metaItems.take (s.metaItems.length - last)
    { metaItems := metaItems
      pollItems :=
        if metaItems.length < s.pollItems.length then
          s.pollItems.take metaItems.length
        else
          s.pollItems }

/-- The search loop of `remove`: the highest index below `count` that holds the
pair, found by counting down. -/
def find [DecidableEq P] [DecidableEq C] (p : P) (client : Option C)
    (items : List (MetaItem P C)) : ℕ → Option ℕ
  | 0 => none
  | i + 1 =>
      if items[i]? = some ⟨p, client⟩ then some i
      else find p client items i

/-- Overwrite the entry at `i` by the last one and drop the last one:
`v[i] = std::move(v.back()); v.pop_back()`. -/
def moveBack {α : Type*} (v : List α) (i : ℕ) : List α :=
  match v.getLast? with
  | none => []
  | some back => (v.set i back).dropLast

/-- Drop an entry that is not the last registration; each array closes its own
gap. -/
def fillGap (i : ℕ) (s : PollerServer P C I) : PollerServer P C I where
  metaItems := moveBack s.metaItems i
  pollItems :=
    if i < s.pollItems.length then
      if i < s.pollItems.length - 1 then
        moveBack s.pollItems i
      else
        s.pollItems.dropLast
    else
      s.pollItems

/-- Remove the given pollable of the given client. -/
def remove [DecidableEq P] [DecidableEq C] (p : P) (client : Option C)
    (s : PollerServer P C I) : PollerServer P C I × Option Errno :=
  let count := s.metaItems.length
  match find p client s.metaItems count with
  | none => (s, some .esrch)
  | some i =>
      if i < count - 1 then
        (s.fillGap i, none)
      else
        (s.removeLast 1, none)

/-- The loop of `mirror`: initialise one item after another, up to the first
failure. -/
def initItems (init : P → Except Errno I) :
    List (MetaItem P C) → List I × Option Errno
  | [] => ([], none)
  | m :: ms =>
      match init m.pollable with
      | .error e => ([], some e)
      | .ok item =>
          let (items, res) := initItems init ms
          (item :: items, res)

/-- Make sure all poll items are initialised. -/
def mirror (init : P → Except Errno I) (s : PollerServer P C I) :
    PollerServer P C I × Option Errno :=
  let old := s.pollItems.take s.metaItems.length
  let (items, res) := initItems init (s.metaItems.drop s.pollItems.length)
  ({ s with pollItems := old ++ items }, res)

/-- The server part of `poll`. The items of the resulting server are the ones
handed to `doPoll` when no error is returned. -/
def poll (init : P → Except Errno I) (s : PollerServer P C I) :
    PollerServer P C I × Option Errno :=
  match s.mirror init with
  | (s, some e) => (s, some e)
  | (s, none) => if s.metaItems.isEmpty then (s, some .einval) else (s, none)

/-- The registration that an event at the given index is forwarded to. -/
def event (s : PollerServer P C I) (index : ℕ) : Option (MetaItem P C) :=
  s.metaItems[index]?

/-- The calls on a server, with what the environment decides: whether memory is
available, and the contents of the pollables during a poll. -/
inductive Op (P C κ : Type*) where
  | add (p : P) (client : Option C) (alloc : Bool)
  | remove (p : P) (client : Option C)
  | removeLast (last : ℕ)
  | clear
  | poll (contents : κ)

/-- The server after one call. -/
def step [DecidableEq P] [DecidableEq C] (init : κ → P → Except Errno I)
    (s : PollerServer P C I) : Op P C κ → Option (PollerServer P C I)
  | .add p client alloc => some (s.add p client alloc).1
  | .remove p client => some (s.remove p client).1
  | .removeLast last => some (s.removeLast last)
  | .clear => some s.clear
  | .poll contents => some (s.poll (init contents)).1

end PollerServer

end Zth
