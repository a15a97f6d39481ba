import Zth.Poller.Client

/-!
# Additions that fail halfway

Pollables are added to a poller one after another: those of a list by `add`, and the
registrations of another server by `migrateTo`. If one of them cannot be added, the ones
before it are removed again. `remove` goes by value, looks from the back and fills the gap
with the last entry. What was registered before is in front of what was added, so it is not
touched, whatever the order of the removals.
-/

namespace Zth

variable {K P C I S X : Type*}

/-- The items are behind what there was before. If there is an error, nothing has changed. -/
def AllOrNothing (before items after : List X) (e : Option Errno) : Prop :=
  after = if e = none then before ++ items else before

/-- The functions that each kind of poller has for one pollable. -/
structure PollerInterface (P S : Type*) where
  add : P → Bool → S → S × Option Errno
  remove : P → S → S × Option Errno

namespace PollerInterface

/-- The first `count` pollables of a list are removed, from the first one on. -/
def rollback (v : PollerInterface P S) : List P → ℕ → S → S
  | p :: l, count + 1, s => rollback v l count (v.remove p s).1
  | _, _, s => s

/-- The loop of `add`, where `count` pollables of the list `l` were added already. -/
def addLoop (v : PollerInterface P S) (alloc : ℕ → Bool) (l : List P) :
    List P → ℕ → S → S × Option Errno
  | [], _, s => (s, none)
  | p :: ps, count, s =>
      match v.add p (alloc count) s with
      | (s, none) => addLoop v alloc l ps (count + 1) s
      | (s, some e) => (v.rollback l count s, some e)

/-- Add a list of pollables. Memory is reserved first. -/
def addList (v : PollerInterface P S) (l : List P) (reserve : Bool) (alloc : ℕ → Bool) (s : S) :
    S × Option Errno :=
  if reserve then v.addLoop alloc l l 0 s else (s, some .enomem)

end PollerInterface

/-- A client is a poller. -/
def PollerClient.toInterface [DecidableEq P] : PollerInterface P (PollerClient K P) where
  add p alloc k := k.add p alloc
  remove p k := k.remove p

/-- A server is a poller, for pollables without a client. -/
def PollerServer.toInterface [DecidableEq P] [DecidableEq C] :
    PollerInterface P (PollerServer P C I) where
  add p alloc s := s.add p none alloc
  remove p s := s.remove p none

namespace PollerInterface

variable [DecidableEq X] {v : PollerInterface P S} {regs : S → List X} {item : P → X}

/-- What is registered for a pollable is put behind the rest, unless `add` fails, and the
last one of them is removed first. -/
structure Registers (v : PollerInterface P S) (regs : S → List X) (item : P → X) : Prop where
  add : ∀ p alloc s, AllOrNothing (regs s) [item p] (regs (v.add p alloc s).1) (v.add p alloc s).2
  remove : ∀ p s, regs (v.remove p s).1 = (regs s).swapErase (item p)

theorem Registers.rollback (h : Registers v regs item) (l : List P) (count : ℕ) (s : S) :
    regs (v.rollback l count s) = ((l.take count).map item).foldl List.swapErase (regs s) := by
  induction l generalizing count s with
  | nil =>
      rw [List.take_nil]
      rfl
  | cons p l ih =>
      cases count with
      | zero => rfl
      | succ count =>
          rw [PollerInterface.rollback, ih, h.remove, List.take_succ_cons, List.map_cons,
            List.foldl_cons]

/-- The loop goes on where the pollables in `done` were added. -/
theorem Registers.addLoop (h : Registers v regs item) (alloc : ℕ → Bool) {before : List X}
    {l done todo : List P} (hl : l = done ++ todo) {s : S}
    (hs : regs s = before ++ done.map item) :
    AllOrNothing before (l.map item) (regs (v.addLoop alloc l todo done.length s).1)
      (v.addLoop alloc l todo done.length s).2 := by
  induction todo generalizing done s with
  | nil =>
      rw [List.append_nil] at hl
      subst hl
      exact hs
  | cons p ps ih =>
      rw [PollerInterface.addLoop]
      have hadd := h.add p (alloc done.length) s
      cases hv : v.add p (alloc done.length) s with
      | mk s' e =>
          rw [hv] at hadd
          cases e with
          | none =>
              have hlen : done.length + 1 = (done ++ [p]).length := by
                rw [List.length_append, List.length_singleton]
              dsimp only
              rw [hlen]
              apply ih
              · rw [hl, List.append_assoc, List.singleton_append]
              · have hs' : regs s' = regs s ++ [item p] := hadd
                rw [hs', hs, List.append_assoc, List.map_append]
                rfl
          | some e =>
              have hs' : regs s' = regs s := hadd
              have htake : l.take done.length = done := by rw [hl, List.take_left]
              change regs (v.rollback l done.length s') = before
              rw [h.rollback, htake, hs', hs]
              exact List.foldl_swapErase_append before (List.Perm.refl _)

theorem Registers.addList (h : Registers v regs item) (l : List P) (reserve : Bool)
    (alloc : ℕ → Bool) (s : S) :
    AllOrNothing (regs s) (l.map item) (regs (v.addList l reserve alloc s).1)
      (v.addList l reserve alloc s).2 := by
  rw [PollerInterface.addList]
  cases reserve with
  | false => rfl
  | true => exact h.addLoop alloc (List.nil_append l).symm (List.append_nil _).symm

end PollerInterface

variable [DecidableEq P]

namespace PollerClient

theorem find_eq_findDown (p : P) (pollables : List P) (n : ℕ) :
    find p pollables n = pollables.findDown p n := by
  induction n with
  | zero => rfl
  | succ n ih => rw [find, List.findDown, ih]

theorem mPollables_remove (p : P) (k : PollerClient K P) :
    (k.remove p).1.mPollables = k.mPollables.swapErase p := by
  rw [remove, List.swapErase, find_eq_findDown]
  cases k.mPollables.findDown p k.mPollables.length with
  | none => rfl
  | some i => rfl

theorem registers :
    (toInterface : PollerInterface P (PollerClient K P)).Registers mPollables id where
  add p alloc k := by
    cases alloc with
    | false => rfl
    | true => rfl
  remove p k := mPollables_remove p k

end PollerClient

namespace PollerServer

variable [DecidableEq C]

theorem registers :
    (toInterface : PollerInterface P (PollerServer P C I)).Registers metaItems
      fun p => ⟨p, none⟩ where
  add p alloc s := by
    cases alloc with
    | false => rfl
    | true => rfl
  remove p s := metaItems_remove p none s

end PollerServer

/-- A list of pollables is added as a whole or not at all, to a client and to a server. -/
theorem PollerInterface.addList_allOrNothing [DecidableEq C] (l : List P) (reserve : Bool)
    (alloc : ℕ → Bool) :
    (∀ k : PollerClient K P,
      AllOrNothing k.mPollables l (PollerClient.toInterface.addList l reserve alloc k).1.mPollables
        (PollerClient.toInterface.addList l reserve alloc k).2) ∧
    ∀ s : PollerServer P C I,
      AllOrNothing s.metaItems (l.map fun p => ⟨p, none⟩)
        (PollerServer.toInterface.addList l reserve alloc s).1.metaItems
        (PollerServer.toInterface.addList l reserve alloc s).2 := by
  constructor
  · intro k
    have h := PollerClient.registers.addList l reserve alloc k
    rwa [List.map_id] at h
  · intro s
    exact PollerServer.registers.addList l reserve alloc s

namespace Servers

variable [DecidableEq K] [DecidableEq C]

/-- Each item of another server is looked at once. -/
theorem exists_migrateLoop {src dst : Option K} (h : src ≠ dst) (alloc : ℕ → Bool)
    (t : Servers K P C I) (i n : ℕ) (hn : (t src).metaItems.length ≤ i + n) :
    ∃ t', migrateLoop src dst alloc (n + 1) i t = some t' := by
  induction n generalizing i t with
  | zero =>
      rw [Nat.add_zero] at hn
      rw [migrateLoop_succ, List.getElem?_eq_none hn]
      exact ⟨_, rfl⟩
  | succ n ih =>
      rw [migrateLoop_succ]
      cases (t src).metaItems[i]? with
      | none => exact ⟨_, rfl⟩
      | some m =>
          dsimp only
          cases alloc i with
          | false => exact ⟨_, rfl⟩
          | true =>
              rw [if_pos rfl]
              apply ih
              rw [push_of_ne h]
              omega

/-- A migration to another server takes place as a whole or not at all. -/
theorem migrateTo_allOrNothing {src dst : Option K} (h : src ≠ dst) (reserve : Bool)
    (alloc : ℕ → Bool) (t : Servers K P C I) {fuel : ℕ}
    (hfuel : (t src).metaItems.length < fuel) :
    ∃ t' e, migrateTo src dst reserve alloc fuel t = some (t', e) ∧
      AllOrNothing (t dst).metaItems (t src).metaItems (t' dst).metaItems e ∧
      t' src = if e = none then .empty else t src := by
  obtain ⟨⟨t', e⟩, hrun⟩ : ∃ r, migrateTo src dst reserve alloc fuel t = some r := by
    obtain ⟨n, rfl⟩ := Nat.exists_eq_succ_of_ne_zero (Nat.ne_zero_of_lt hfuel)
    rw [migrateTo]
    cases reserve with
    | false => exact ⟨_, rfl⟩
    | true => exact exists_migrateLoop h alloc t 0 n (by omega)
  refine ⟨t', e, hrun, ?_⟩
  -- As long as items are added, the ones before `i` were, and the source is not changed.
  apply migrateTo_invariant (fun i t₁ => Added src dst t ((t src).metaItems.take i) t₁ ∧
      i ≤ (t src).metaItems.length)
    (fun t₁ e => AllOrNothing (t dst).metaItems (t src).metaItems (t₁ dst).metaItems e ∧
      t₁ src = if e = none then .empty else t src) _ ⟨rfl, rfl⟩ _ _ _ hrun
  · refine ⟨⟨(List.append_nil _).symm, ?_, fun _ _ => rfl⟩, Nat.zero_le _⟩
    intro k hk
    exact absurd hk (Nat.not_lt_zero k)
  · rintro i t₁ m ⟨hA, hi⟩ hm -
    rw [hA.of_ne src h] at hm
    obtain ⟨hlt, hget⟩ := List.getElem?_eq_some_iff.1 hm
    have hlen : ((t src).metaItems.take i).length = i := List.length_take_of_le hi
    rw [List.take_add_one, hm]
    refine ⟨hA.push ?_, hlt⟩
    rw [hlen, hA.of_ne src h, hm]
  · rintro i t₁ ⟨hA, hi⟩ hnone
    rw [hA.of_ne src h, List.getElem?_eq_none_iff] at hnone
    have hdst := hA.dst_eq
    rw [List.take_of_length_le hnone] at hdst
    rw [Function.update_of_ne h.symm, Function.update_self]
    exact ⟨hdst, rfl⟩
  · rintro i t₁ ⟨hA, hi⟩
    have hback := metaItems_rollback _ _ t₁ hA.dst_eq hA.src_eq
    rw [List.length_take_of_le hi] at hback
    rw [rollback_of_ne h, hA.of_ne src h]
    exact ⟨hback, rfl⟩

/-- The third registration cannot be added, and the target has equal ones. -/
theorem migrateTo_allOrNothing_third :
    let t : Servers ℕ ℕ ℕ Unit := fun r =>
      if r = some 0 then ⟨[⟨1, none⟩, ⟨1, none⟩, ⟨2, some 7⟩], []⟩
      else ⟨[⟨1, none⟩, ⟨3, none⟩], []⟩
    ∃ t' e, migrateTo (some 0) none true (fun i => i != 2) 4 t = some (t', e) ∧
      AllOrNothing (t none).metaItems (t (some 0)).metaItems (t' none).metaItems e ∧
      t' (some 0) = if e = none then .empty else t (some 0) :=
  migrateTo_allOrNothing (Option.some_ne_none 0) true _ _ (by decide)

end Servers

end Zth
