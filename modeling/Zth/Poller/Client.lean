import Mathlib.Algebra.Group.Int.Defs
import Zth.Poller.InSync
import Zth.Poller.Rollback

/-!
# Clients that poll by the server of their waiter

`poll` of a client registers the client's pollables at the server in use, tries once, and
then waits until it gets an event or the time is up. Before it returns, it removes its
pollables from the server that it took at the start. Meanwhile, other clients poll, the
waiter serves events, and another server may be set.

A client is used by one fiber, which waits for it: it does one `poll` at a time, and its
pollables are not changed during that. Fibers switch only where `poll` waits, so what it
does before and after that is one step each.
-/

namespace Zth

variable {K P C I κ : Type*} [DecidableEq K] [DecidableEq P] [DecidableEq C]

/-- `EAGAIN`, by its number on Linux. -/
def Errno.eagain : Errno := .other 11

/-- What the fiber in `poll` does: it can go on, it waits for the event callback, or it
waits for that with a timeout, managed by the waiter. -/
inductive Wait where
  | running
  | suspended
  | timed
deriving DecidableEq, Repr

/-- The local variables of `poll`: the server that was taken, and the result of the first
try. -/
structure PollCall (K : Type*) where
  p : Option K
  res : Option Errno
  wait : Wait
deriving DecidableEq, Repr

/-- A client, with its call of `poll` that has not returned yet and the `errno` that the
last one has set. -/
structure PollerClient (K P : Type*) where
  mPollables : List P
  mResult : List P
  call : Option (PollCall K)
  errno : Option Errno
deriving DecidableEq, Repr

namespace PollerClient

/-- A client without pollables. -/
def empty : PollerClient K P := ⟨[], [], none, none⟩

/-- Add a pollable, if there is memory for it and for its result. -/
def add (p : P) (alloc : Bool) (k : PollerClient K P) : PollerClient K P × Option Errno :=
  if alloc then ({ k with mPollables := k.mPollables ++ [p] }, none) else (k, some .enomem)

/-- The search loop of `remove`, which counts down. -/
def find (p : P) (pollables : List P) : ℕ → Option ℕ
  | 0 => none
  | i + 1 => if pollables[i]? = some p then some i else find p pollables i

/-- Remove a pollable. The last one takes its place. -/
def remove (p : P) (k : PollerClient K P) : PollerClient K P × Option Errno :=
  match find p k.mPollables k.mPollables.length with
  | none => (k, some .eagain)
  | some i => ({ k with mPollables := k.mPollables.swapRemove i }, none)

/-- A pollable got an event. If the fiber waits, it is woken. -/
def event (p : P) (k : PollerClient K P) : PollerClient K P :=
  { k with
    mResult := k.mResult ++ [p]
    call := k.call.map fun call => { call with wait := .running } }

end PollerClient

namespace PollerServer

/-- The loop of `poll` that adds all pollables of a client. Errors are ignored. -/
def addAll (c : C) (alloc : ℕ → Bool) : ℕ → List P → PollerServer P C I → PollerServer P C I
  | _, [], s => s
  | i, p :: ps, s => addAll c alloc (i + 1) ps (s.add p (some c) (alloc i)).1

/-- The loop of `poll` that removes all pollables of a client, the last one first. Errors
are ignored. -/
def removeAll (c : C) (ps : List P) (s : PollerServer P C I) : PollerServer P C I :=
  ps.foldr (fun p s => (s.remove p (some c)).1) s

end PollerServer

/-- A waiter with its servers, and the clients. -/
structure Polling (K P C I : Type*) where
  pollers : Pollers K P C I
  clients : C → PollerClient K P

namespace Polling

/-- A new waiter, and clients without pollables. -/
def init (K P C I : Type*) : Polling K P C I := ⟨.init K P C I, fun _ => .empty⟩

/-- Another state of a server. -/
def setServer (r : Option K) (s : PollerServer P C I) (w : Polling K P C I) : Polling K P C I :=
  { w with pollers := { w.pollers with servers := Function.update w.pollers.servers r s } }

/-- Another state of a client. -/
def setClient (c : C) (k : PollerClient K P) (w : Polling K P C I) : Polling K P C I :=
  { w with clients := Function.update w.clients c k }

/-- The events that are found at the given indices are forwarded to the clients. An index
that is out of range fails an assertion. -/
def forward (r : Option K) : List ℕ → Polling K P C I → Option (Polling K P C I)
  | [], w => some w
  | i :: is, w =>
      match (w.pollers.servers r).event i with
      | none => none
      | some ⟨_, none⟩ => forward r is w
      | some ⟨p, some c⟩ => forward r is (w.setClient c ((w.clients c).event p))

/-- `poll` of a server, where `doPoll` finds the given events and returns `res`. -/
def pollServer (init : P → Except Errno I) (r : Option K) (events : List ℕ)
    (res : Option Errno) (w : Polling K P C I) : Option (Polling K P C I × Option Errno) :=
  match (w.pollers.servers r).poll init with
  | (s, some e) => some (w.setServer r s, some e)
  | (s, none) => (forward r events (w.setServer r s)).map fun w => (w, res)

/-- The rest of `poll`, when it does not wait anymore. -/
def finish (c : C) (call : PollCall K) (w : Polling K P C I) : Polling K P C I :=
  let k := w.clients c
  (w.setServer call.p ((w.pollers.servers call.p).removeAll c k.mPollables)).setClient c
    { k with
      call := none
      errno := if k.mResult.isEmpty ∧ call.res = none then some .eagain else call.res }

/-- The server in use is taken, and all pollables of the client are added to it. -/
def register (c : C) (alloc : ℕ → Bool) (w : Polling K P C I) : Polling K P C I × Option K :=
  let (pollers, p) := w.pollers.poller
  let k := w.clients c
  (({ w with pollers := pollers }.setServer p
      ((pollers.servers p).addAll c alloc 0 k.mPollables)).setClient c
    { k with mResult := [], call := some ⟨p, none, .running⟩ }, p)

/-- What `poll` does after the first try. -/
def afterTry (c : C) (timeout : ℤ) (call : PollCall K) (w : Polling K P C I) :
    Polling K P C I :=
  let k := w.clients c
  if ¬ k.mResult.isEmpty then
    -- Completed already.
    w.finish c call
  else if call.res ≠ none ∧ call.res ≠ some .eagain then
    -- Completed with an error.
    w.finish c call
  else if timeout = 0 then
    w.finish c call
  else if timeout < 0 then
    w.setClient c { k with call := some { call with wait := .suspended } }
  else
    w.setClient c { k with call := some { call with wait := .timed } }

/-- `poll` of a client, until it waits or returns. -/
def poll (init : P → Except Errno I) (c : C) (timeout : ℤ) (alloc : ℕ → Bool)
    (events : List ℕ) (res : Option Errno) (w : Polling K P C I) : Option (Polling K P C I) :=
  let k := w.clients c
  if k.mPollables.isEmpty then
    some (w.setClient c { k with mResult := [], errno := some .einval })
  else
    let (w, p) := w.register c alloc
    (w.pollServer init p events res).map fun (w, res) => w.afterTry c timeout ⟨p, res, .running⟩

/-- Is there anything to poll for the waiter? -/
def polling (w : Polling K P C I) : Bool :=
  match w.pollers.mPoller with
  | some r => !(w.pollers.servers r).metaItems.isEmpty
  | none => w.pollers.mDefaultPoller && !(w.pollers.servers none).metaItems.isEmpty

/-- The fiber in `poll` does not wait anymore. -/
def wake (c : C) (wait : Wait) (w : Polling K P C I) : Option (Polling K P C I) :=
  match (w.clients c).call with
  | none => none
  | some call =>
      if call.wait = wait then
        some (w.setClient c { w.clients c with call := some { call with wait := .running } })
      else none

/-- What happens: a pollable is added to a client or removed from it, a client starts to
poll, the waiter polls, the time of a client is up, its fiber is resumed or goes on, another
server is set, or a pollable without a client is added to a server or removed from it. -/
inductive Label (K P C κ : Type*) where
  | add (c : C) (p : P) (alloc : Bool)
  | remove (c : C) (p : P)
  | poll (c : C) (timeout : ℤ) (contents : κ) (alloc : ℕ → Bool) (events : List ℕ)
      (res : Option Errno)
  | serve (contents : κ) (events : List ℕ) (res : Option Errno)
  | timeout (c : C)
  | resume (c : C)
  | go (c : C)
  | setPoller (p : Option (Option K)) (reserve : Bool) (alloc : ℕ → Bool) (fuel : ℕ)
  | addServer (r : Option K) (p : P) (alloc : Bool)
  | removeServer (r : Option K) (p : P)

/-- An operation on the pollers. -/
def stepPollers (initItem : κ → P → Except Errno I) (op : Pollers.Op K P C κ)
    (w : Polling K P C I) : Option (Polling K P C I) :=
  (w.pollers.step initItem op).map fun pollers => { w with pollers := pollers }

/-- One step of a fiber. -/
def step (initItem : κ → P → Except Errno I) (w : Polling K P C I) :
    Label K P C κ → Option (Polling K P C I)
  | .add c p alloc =>
      if (w.clients c).call = none then some (w.setClient c ((w.clients c).add p alloc).1)
      else none
  | .remove c p =>
      if (w.clients c).call = none then some (w.setClient c ((w.clients c).remove p).1)
      else none
  | .poll c timeout contents alloc events res =>
      if (w.clients c).call = none then w.poll (initItem contents) c timeout alloc events res
      else none
  | .serve contents events res =>
      if w.polling then
        let (pollers, r) := w.pollers.poller
        (pollServer (initItem contents) r events res { w with pollers := pollers }).map Prod.fst
      else none
  | .timeout c => w.wake c .timed
  | .resume c => w.wake c .suspended
  | .go c =>
      match (w.clients c).call with
      | none => none
      | some call => if call.wait = .running then some (w.finish c call) else none
  | .setPoller p reserve alloc fuel =>
      w.stepPollers initItem (.setPoller p reserve alloc fuel)
  | .addServer r p alloc => w.stepPollers initItem (.server r (.add p none alloc))
  | .removeServer r p => w.stepPollers initItem (.server r (.remove p none))

/-- No server holds a registration of a client that is not in `poll`. -/
def LeavesNothing (w : Polling K P C I) : Prop :=
  ∀ c, (w.clients c).call = none →
    ∀ r, ∀ m ∈ (w.pollers.servers r).metaItems, m.client ≠ some c

/-- A `setPoller` does not move the registrations of clients. -/
def MovesNoClient (w : Polling K P C I) : Label K P C κ → Prop
  | .setPoller _ reserve alloc _ => w.pollers.MovesNoClient reserve alloc
  | _ => True

end Polling

namespace PollerServer

omit [DecidableEq P] [DecidableEq C] in
theorem metaItems_poll (init : P → Except Errno I) (s : PollerServer P C I) :
    (s.poll init).1.metaItems = s.metaItems := by
  rw [poll_fst]
  rfl

theorem count_add (p : P) (client : Option C) (alloc : Bool) (s : PollerServer P C I)
    (m : MetaItem P C) :
    (s.add p client alloc).1.metaItems.count m ≤
      s.metaItems.count m + [⟨p, client⟩].count m := by
  rw [add]
  cases alloc with
  | false => exact Nat.le_add_right _ _
  | true => exact Nat.le_of_eq (List.count_append ..)

theorem count_remove_le (p : P) (client : Option C) (s : PollerServer P C I)
    (m : MetaItem P C) : (s.remove p client).1.metaItems.count m ≤ s.metaItems.count m := by
  rw [(s.metaItems_remove_perm p client).count_eq]
  exact List.erase_sublist.count_le m

/-- A client registers each of its pollables once at most, and nothing for others. -/
theorem count_addAll (c : C) (alloc : ℕ → Bool) (i : ℕ) (ps : List P)
    (s : PollerServer P C I) (p : P) (c' : C) :
    (s.addAll c alloc i ps).metaItems.count ⟨p, some c'⟩ ≤
      s.metaItems.count ⟨p, some c'⟩ + if c' = c then ps.count p else 0 := by
  induction ps generalizing i s with
  | nil => exact Nat.le_add_right _ _
  | cons q ps ih =>
      have hadd := s.count_add q (some c) (alloc i) ⟨p, some c'⟩
      have hrest := ih (i + 1) (s.add q (some c) (alloc i)).1
      have hone : ([⟨q, some c⟩] : List (MetaItem P C)).count ⟨p, some c'⟩ =
          if c' = c then [q].count p else 0 := by
        rw [List.count_singleton, List.count_singleton]
        by_cases hc : c' = c
        · subst hc
          simp
        · simp [hc, Ne.symm hc]
      rw [hone] at hadd
      rw [addAll, ← List.singleton_append, List.count_append]
      by_cases hc : c' = c
      · rw [if_pos hc] at hadd hrest ⊢
        omega
      · rw [if_neg hc] at hadd hrest ⊢
        omega

theorem count_removeAll_le (c : C) (ps : List P) (s : PollerServer P C I) (m : MetaItem P C) :
    (s.removeAll c ps).metaItems.count m ≤ s.metaItems.count m := by
  induction ps with
  | nil => exact Nat.le_refl _
  | cons p ps ih => exact (count_remove_le p (some c) _ m).trans ih

/-- A client removes each of its pollables once. -/
theorem count_removeAll (c : C) (ps : List P) (s : PollerServer P C I) (p : P) :
    (s.removeAll c ps).metaItems.count ⟨p, some c⟩ =
      s.metaItems.count ⟨p, some c⟩ - ps.count p := by
  induction ps with
  | nil => rfl
  | cons q ps ih =>
      have hperm := (s.removeAll c ps).metaItems_remove_perm q (some c)
      have hcons : s.removeAll c (q :: ps) = ((s.removeAll c ps).remove q (some c)).1 := rfl
      rw [hcons, hperm.count_eq, List.count_erase, ih, List.count_cons, Nat.sub_sub]
      congr 2
      simp

end PollerServer

namespace PollerClient

/-- How often a client may have registered a pollable at a server. -/
def registered (r : Option K) (p : P) (k : PollerClient K P) : ℕ :=
  if k.call.map PollCall.p = some r then k.mPollables.count p else 0

omit [DecidableEq K] [DecidableEq P] in
theorem call_event (p : P) (k : PollerClient K P) :
    (k.event p).call.map PollCall.p = k.call.map PollCall.p := by
  rw [event, Option.map_map]
  rfl

theorem registered_of_idle {k : PollerClient K P} (h : k.call = none) (r : Option K) (p : P) :
    k.registered r p = 0 := by
  rw [registered, h]
  rfl

theorem registered_congr {k k' : PollerClient K P} (hp : k'.mPollables = k.mPollables)
    (hcall : k'.call.map PollCall.p = k.call.map PollCall.p) (r : Option K) (p : P) :
    k'.registered r p = k.registered r p := by
  rw [registered, registered, hp, hcall]

end PollerClient

namespace Polling

/-- A client has registrations at the server that it took only, and there no more than it
is going to remove. -/
structure Accounted (w : Polling K P C I) : Prop where
  tidy : w.pollers.Tidy
  count_le : ∀ c r p, (w.pollers.servers r).metaItems.count ⟨p, some c⟩ ≤
    (w.clients c).registered r p

theorem accounted_init : Accounted (init K P C I) :=
  ⟨Pollers.tidy_init, fun _ _ _ => Nat.zero_le _⟩

/-- A server changes. What is new in it is accounted for by the clients. -/
theorem Accounted.setServer {w : Polling K P C I} (h : Accounted w) {r : Option K}
    {s : PollerServer P C I}
    (hs : w.pollers.mDefaultPoller = false → r = none → s.metaItems = [])
    (hle : ∀ c p, s.metaItems.count ⟨p, some c⟩ ≤ (w.clients c).registered r p) :
    Accounted (w.setServer r s) := by
  refine ⟨h.tidy.updateServer hs, fun c r' p => ?_⟩
  rw [Polling.setServer]
  by_cases hr : r' = r
  · subst hr
    dsimp only
    rw [Function.update_self]
    exact hle c p
  · dsimp only
    rw [Function.update_of_ne hr]
    exact h.count_le c r' p

/-- A server loses registrations. -/
theorem Accounted.shrinkServer {w : Polling K P C I} (h : Accounted w) {r : Option K}
    {s : PollerServer P C I}
    (hle : ∀ m, s.metaItems.count m ≤ (w.pollers.servers r).metaItems.count m) :
    Accounted (w.setServer r s) := by
  refine h.setServer ?_ fun c p => (hle _).trans (h.count_le c r p)
  rintro hd rfl
  apply List.eq_nil_iff_forall_not_mem.2
  intro m hm
  have hpos := (List.count_pos_iff.2 hm).trans_le (hle m)
  rw [h.tidy.empty hd] at hpos
  cases hpos

/-- A client changes, and accounts for its registrations afterwards. -/
theorem Accounted.setClient {w : Polling K P C I} (h : Accounted w) {c : C}
    {k : PollerClient K P}
    (hle : ∀ r p, (w.pollers.servers r).metaItems.count ⟨p, some c⟩ ≤ k.registered r p) :
    Accounted (w.setClient c k) := by
  refine ⟨h.tidy, fun c' r p => ?_⟩
  rw [Polling.setClient]
  by_cases hc : c' = c
  · subst hc
    dsimp only
    rw [Function.update_self]
    exact hle r p
  · dsimp only
    rw [Function.update_of_ne hc]
    exact h.count_le c' r p

theorem Accounted.count_of_idle {w : Polling K P C I} (h : Accounted w) {c : C}
    (hc : (w.clients c).call = none) (r : Option K) (p : P) :
    (w.pollers.servers r).metaItems.count ⟨p, some c⟩ = 0 := by
  have hle := h.count_le c r p
  rw [PollerClient.registered_of_idle hc] at hle
  exact Nat.le_zero.1 hle

/-- A client that is not in `poll` has no registrations. -/
theorem Accounted.leavesNothing {w : Polling K P C I} (h : Accounted w) : LeavesNothing w := by
  rintro c hc r ⟨p, client⟩ hm rfl
  exact absurd hm (List.count_eq_zero.1 (h.count_of_idle hc r p))

/-- A client that is not in `poll` may change. -/
theorem Accounted.setClient_of_idle {w : Polling K P C I} (h : Accounted w) {c : C}
    (hc : (w.clients c).call = none) (k : PollerClient K P) : Accounted (w.setClient c k) := by
  apply h.setClient
  intro r p
  rw [h.count_of_idle hc]
  exact Nat.zero_le _

/-- The client keeps its pollables and the server it took. -/
theorem Accounted.setClient_congr {w : Polling K P C I} (h : Accounted w) {c : C}
    {k : PollerClient K P} (hp : k.mPollables = (w.clients c).mPollables)
    (hcall : k.call.map PollCall.p = (w.clients c).call.map PollCall.p) :
    Accounted (w.setClient c k) := by
  apply h.setClient
  intro r p
  rw [PollerClient.registered_congr hp hcall]
  exact h.count_le c r p

omit [DecidableEq K] [DecidableEq P] in
theorem call_setClient_event (w : Polling K P C I) (c c' : C) (p : P) :
    ((w.setClient c ((w.clients c).event p)).clients c').call.map PollCall.p =
      (w.clients c').call.map PollCall.p := by
  rw [setClient]
  by_cases hc : c' = c
  · subst hc
    dsimp only
    rw [Function.update_self, PollerClient.call_event]
  · dsimp only
    rw [Function.update_of_ne hc]

/-- Events wake clients, but these stay in `poll`. -/
theorem Accounted.forward {r : Option K} {events : List ℕ} {w w' : Polling K P C I}
    (h : Accounted w) (hw' : w.forward r events = some w') :
    Accounted w' ∧
      ∀ c, (w'.clients c).call.map PollCall.p = (w.clients c).call.map PollCall.p := by
  induction events generalizing w with
  | nil =>
      cases hw'
      exact ⟨h, fun _ => rfl⟩
  | cons i is ih =>
      rw [Polling.forward] at hw'
      split at hw'
      · cases hw'
      · exact ih h hw'
      · rename_i p c _
        have hclient : Accounted (w.setClient c ((w.clients c).event p)) := by
          apply h.setClient_congr
          · rfl
          · exact PollerClient.call_event p _
        obtain ⟨hacc, hsame⟩ := ih hclient hw'
        exact ⟨hacc, fun c' => (hsame c').trans (w.call_setClient_event c c' p)⟩

/-- A server polls. -/
theorem Accounted.pollServer {initItem : P → Except Errno I} {r : Option K} {events : List ℕ}
    {res e : Option Errno} {w w' : Polling K P C I} (h : Accounted w)
    (hw' : w.pollServer initItem r events res = some (w', e)) :
    Accounted w' ∧
      ∀ c, (w'.clients c).call.map PollCall.p = (w.clients c).call.map PollCall.p := by
  have hserver : Accounted (w.setServer r ((w.pollers.servers r).poll initItem).1) := by
    apply h.shrinkServer
    intro m
    rw [PollerServer.metaItems_poll]
  rw [Polling.pollServer] at hw'
  split at hw'
  · rename_i s e heq
    rw [heq] at hserver
    cases hw'
    exact ⟨hserver, fun _ => rfl⟩
  · rename_i s heq
    rw [heq] at hserver
    obtain ⟨w₁, hw₁, hpair⟩ := Option.map_eq_some_iff.1 hw'
    cases hpair
    exact hserver.forward hw₁

theorem Accounted.poller {w : Polling K P C I} (h : Accounted w) :
    Accounted { w with pollers := w.pollers.poller.1 } := by
  refine ⟨h.tidy.poller, fun c r p => ?_⟩
  dsimp only
  rw [h.tidy.metaItems_poller]
  exact h.count_le c r p

omit [DecidableEq P] in
theorem call_register (w : Polling K P C I) (c : C) (alloc : ℕ → Bool) :
    ((w.register c alloc).1.clients c).call =
      some ⟨(w.register c alloc).2, none, .running⟩ := by
  simp only [register, setClient, Function.update_self]

/-- A client starts to poll. -/
theorem Accounted.register {w : Polling K P C I} (h : Accounted w) {c : C}
    (hc : (w.clients c).call = none) (alloc : ℕ → Bool) :
    Accounted (w.register c alloc).1 := by
  set p : Option K := w.pollers.poller.2
  set k : PollerClient K P :=
    { w.clients c with mResult := [], call := some ⟨p, none, .running⟩ }
  set w₁ : Polling K P C I := { w with pollers := w.pollers.poller.1 }
  have hw₁ : Accounted w₁ := h.poller
  have hclient : Accounted (w₁.setClient c k) := hw₁.setClient_of_idle hc k
  have hself : (w₁.setClient c k).clients c = k := Function.update_self ..
  have heq : (w.register c alloc).1 = (w₁.setClient c k).setServer p
      ((w₁.pollers.servers p).addAll c alloc 0 k.mPollables) := rfl
  rw [heq]
  apply hclient.setServer
  · intro hd hnone
    have hexists : w₁.pollers.mDefaultPoller = true := h.tidy.mDefaultPoller_poller hnone
    exact absurd (hexists.symm.trans hd) nofun
  · intro c' q
    refine (PollerServer.count_addAll ..).trans ?_
    by_cases hcc : c' = c
    · subst hcc
      have hcall : k.call.map PollCall.p = some p := rfl
      rw [hself, PollerClient.registered, if_pos rfl, if_pos hcall,
        hw₁.count_of_idle hc, Nat.zero_add]
    · rw [if_neg hcc]
      exact hclient.count_le c' p q

/-- A client returns from `poll`. -/
theorem Accounted.finish {w : Polling K P C I} (h : Accounted w) {c : C} {call : PollCall K}
    (hcall : (w.clients c).call.map PollCall.p = some call.p) : Accounted (w.finish c call) := by
  set s : PollerServer P C I :=
    (w.pollers.servers call.p).removeAll c (w.clients c).mPollables
  have hserver : Accounted (w.setServer call.p s) :=
    h.shrinkServer (PollerServer.count_removeAll_le c _ _)
  apply hserver.setClient
  intro r p
  have hle := h.count_le c r p
  rw [PollerClient.registered, hcall] at hle
  rw [Polling.setServer]
  dsimp only
  by_cases hr : r = call.p
  · subst hr
    rw [if_pos rfl] at hle
    rw [Function.update_self, PollerServer.count_removeAll, Nat.sub_eq_zero_of_le hle]
    exact Nat.zero_le _
  · rw [if_neg fun heq => hr (Option.some.inj heq).symm] at hle
    rw [Function.update_of_ne hr]
    exact hle.trans (Nat.zero_le _)

/-- A client has tried, and returns or waits. -/
theorem Accounted.afterTry {w : Polling K P C I} (h : Accounted w) {c : C} {call : PollCall K}
    (hcall : (w.clients c).call.map PollCall.p = some call.p) (timeout : ℤ) :
    Accounted (w.afterTry c timeout call) := by
  rw [Polling.afterTry]
  split
  · exact h.finish hcall
  · split
    · exact h.finish hcall
    · split
      · exact h.finish hcall
      · split
        · exact h.setClient_congr rfl hcall.symm
        · exact h.setClient_congr rfl hcall.symm

theorem Accounted.poll {initItem : P → Except Errno I} {c : C} {timeout : ℤ} {alloc : ℕ → Bool}
    {events : List ℕ} {res : Option Errno} {w w' : Polling K P C I} (h : Accounted w)
    (hc : (w.clients c).call = none)
    (hw' : w.poll initItem c timeout alloc events res = some w') : Accounted w' := by
  rw [Polling.poll] at hw'
  dsimp only at hw'
  split at hw'
  · cases hw'
    exact h.setClient_congr rfl rfl
  · obtain ⟨⟨w₁, e⟩, hw₁, rfl⟩ := Option.map_eq_some_iff.1 hw'
    obtain ⟨hacc, hsame⟩ := (h.register hc alloc).pollServer hw₁
    apply hacc.afterTry
    rw [hsame c, call_register]
    rfl

theorem Accounted.wake {c : C} {wait : Wait} {w w' : Polling K P C I} (h : Accounted w)
    (hw' : w.wake c wait = some w') : Accounted w' := by
  rw [Polling.wake] at hw'
  split at hw'
  · cases hw'
  · rename_i call hcall
    split at hw'
    · cases hw'
      apply h.setClient_congr
      · rfl
      · rw [hcall]
        rfl
    · cases hw'

/-- An operation on the pollers that adds no registrations of clients. -/
theorem Accounted.stepPollers {initItem : κ → P → Except Errno I} {op : Pollers.Op K P C κ}
    {w w' : Polling K P C I} (h : Accounted w)
    (hle : ∀ pollers, w.pollers.step initItem op = some pollers → ∀ c r p,
      (pollers.servers r).metaItems.count ⟨p, some c⟩ ≤
        (w.pollers.servers r).metaItems.count ⟨p, some c⟩)
    (hw' : w.stepPollers initItem op = some w') : Accounted w' := by
  obtain ⟨pollers, hpollers, rfl⟩ := Option.map_eq_some_iff.1 hw'
  refine ⟨h.tidy.step hpollers, fun c r p => ?_⟩
  exact (hle pollers hpollers c r p).trans (h.count_le c r p)

/-- A server adds no registrations of clients. -/
theorem Accounted.stepServer {initItem : κ → P → Except Errno I} {r : Option K}
    {op : PollerServer.Op P C κ} {w w' : Polling K P C I} (h : Accounted w)
    (hle : ∀ s, (w.pollers.servers r).step initItem op = some s → ∀ c p,
      s.metaItems.count ⟨p, some c⟩ ≤ (w.pollers.servers r).metaItems.count ⟨p, some c⟩)
    (hw' : w.stepPollers initItem (.server r op) = some w') : Accounted w' := by
  refine h.stepPollers (fun pollers hpollers c r' p => ?_) hw'
  rw [Pollers.step] at hpollers
  split at hpollers
  · cases hpollers
  · obtain ⟨s, hs, rfl⟩ := Option.map_eq_some_iff.1 hpollers
    dsimp only
    by_cases hr : r' = r
    · subst hr
      rw [Function.update_self]
      exact hle s hs c p
    · rw [Function.update_of_ne hr]

/-- One step, of any fiber. -/
theorem Accounted.step {initItem : κ → P → Except Errno I} {w w' : Polling K P C I}
    (h : Accounted w) {l : Label K P C κ} (hok : w.MovesNoClient l)
    (hw' : w.step initItem l = some w') : Accounted w' := by
  cases l with
  | add c p alloc =>
      rw [Polling.step] at hw'
      split at hw'
      · rename_i hc
        cases hw'
        exact h.setClient_of_idle hc _
      · cases hw'
  | remove c p =>
      rw [Polling.step] at hw'
      split at hw'
      · rename_i hc
        cases hw'
        exact h.setClient_of_idle hc _
      · cases hw'
  | poll c timeout contents alloc events res =>
      rw [Polling.step] at hw'
      split at hw'
      · rename_i hc
        exact h.poll hc hw'
      · cases hw'
  | serve contents events res =>
      rw [Polling.step] at hw'
      split at hw'
      · obtain ⟨⟨w₁, e⟩, hw₁, rfl⟩ := Option.map_eq_some_iff.1 hw'
        exact (h.poller.pollServer hw₁).1
      · cases hw'
  | timeout c => exact h.wake hw'
  | resume c => exact h.wake hw'
  | go c =>
      rw [Polling.step] at hw'
      split at hw'
      · cases hw'
      · rename_i call hcall
        split at hw'
        · cases hw'
          apply h.finish
          rw [hcall]
          rfl
        · cases hw'
  | setPoller p reserve alloc fuel =>
      refine h.stepPollers (fun pollers hpollers c r p => ?_) hw'
      rw [Pollers.step] at hpollers
      split at hpollers
      · cases hpollers
      · exact Nat.le_of_eq (h.tidy.count_setPoller hpollers hok (Option.some_ne_none c) r)
  | addServer r p alloc =>
      apply h.stepServer _ hw'
      intro s hs c q
      cases hs
      refine (PollerServer.count_add p none alloc _ _).trans (Nat.le_of_eq ?_)
      rw [List.count_singleton]
      simp
  | removeServer r p =>
      apply h.stepServer _ hw'
      intro s hs c q
      cases hs
      exact PollerServer.count_remove_le p none _ _

/-- In every interleaving of polls, events, timeouts and replaced servers, in which no
`setPoller` moves a registration of a client: when `poll` of a client has returned, no server
holds a registration of that client. -/
theorem leavesNothing_of_movesNoClient (initItem : κ → P → Except Errno I)
    (ls : List (Label K P C κ)) (w : Polling K P C I)
    (hg : Transition.Guarded (step initItem) MovesNoClient (init K P C I) ls)
    (hr : Transition.run (step initItem) (init K P C I) ls = some w) : LeavesNothing w :=
  (hg.invariant (fun _ _ _ hw hok hstep => Accounted.step hw hok hstep)
    accounted_init hr).leavesNothing

/-- Client 1 waits for pollable 5 by the server that was set. Client 2 tries pollable 6 once,
and then the event for client 1 is served. The server is replaced when both have returned. -/
def servedFirst : List (Label Bool ℕ ℕ Unit) :=
  [.setPoller (some (some false)) true (fun _ => true) 1, .add 1 5 true, .add 2 6 true,
    .poll 1 (-1) () (fun _ => true) [] none, .poll 2 0 () (fun _ => true) [] none,
    .serve () [0] none, .go 1, .setPoller (some (some true)) true (fun _ => true) 1]

theorem leavesNothing_servedFirst :
    ∃ w : Polling Bool ℕ ℕ ℕ,
      Transition.run (step fun _ p => Except.ok p) (init Bool ℕ ℕ ℕ) servedFirst = some w ∧
      w.clients 1 = ⟨[5], [5], none, none⟩ ∧ w.clients 2 = ⟨[6], [], none, some .eagain⟩ ∧
      LeavesNothing w := by
  refine ⟨_, rfl, rfl, rfl,
    leavesNothing_of_movesNoClient (fun _ p => Except.ok p) servedFirst _ ?_ rfl⟩
  refine .cons nofun rfl (.cons trivial rfl (.cons trivial rfl (.cons trivial rfl
    (.cons trivial rfl (.cons trivial rfl (.cons trivial rfl (.cons ?_ rfl trivial)))))))
  intro q hq
  cases hq
  exact Or.inl nofun

/-- Client 1 waits, the server is replaced, and then the event is served. -/
def replacedFirst : List (Label Bool ℕ ℕ Unit) :=
  [.setPoller (some (some false)) true (fun _ => true) 1, .add 1 5 true,
    .poll 1 (-1) () (fun _ => true) [] none,
    .setPoller (some (some true)) true (fun _ => true) 2, .serve () [0] none, .go 1]

/-- The client has returned, and the new server still holds its registration. -/
theorem not_leavesNothing_replacedFirst :
    ∃ w : Polling Bool ℕ ℕ ℕ,
      Transition.run (step fun _ p => Except.ok p) (init Bool ℕ ℕ ℕ) replacedFirst = some w ∧
      w.clients 1 = ⟨[5], [5], none, none⟩ ∧
      (w.pollers.servers (some true)).metaItems = [⟨5, some 1⟩] ∧ ¬ LeavesNothing w := by
  refine ⟨_, rfl, rfl, rfl, ?_⟩
  intro h
  exact h 1 rfl (some true) ⟨5, some 1⟩ List.mem_cons_self rfl

end Polling

end Zth
