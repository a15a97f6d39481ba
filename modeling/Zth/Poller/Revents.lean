import Zth.Poller.DoPoll

/-!
# The events that pollables are left with

`revents` of a pollable is written by `event` of the server, which `doPoll` calls for the
items up to the last one with bits, also for those without. The items behind it, and all of
them when the time is up, are not looked at: their pollables keep the events that an earlier
poll has left there.
-/

namespace Zth

variable {K P C I κ : Type*} [DecidableEq P] [DecidableEq C]

namespace ZmqPoller

-- The bits of `zmq_poll`.
def ZMQ_POLLIN : Revents := 1
def ZMQ_POLLOUT : Revents := 2
def ZMQ_POLLERR : Revents := 4

/-- The events of a pollable, by the bits of its item. -/
def translate (item : Revents) : Events :=
  let revents : Events := 0
  let revents := if item &&& ZMQ_POLLIN ≠ 0 then revents ||| Pollable.PollIn else revents
  let revents := if item &&& ZMQ_POLLOUT ≠ 0 then revents ||| Pollable.PollOut else revents
  if item &&& ZMQ_POLLERR ≠ 0 then revents ||| Pollable.PollErr else revents

end ZmqPoller

/-- The servers that poll. -/
inductive ServerKind where
  | zmqPoller
  | pollPoller
deriving DecidableEq, Repr

namespace ServerKind

def translate : ServerKind → Revents → Events
  | zmqPoller => ZmqPoller.translate
  | pollPoller => PollPoller.translate

/-- The events that an item is reported with. -/
def report (k : ServerKind) (item : Revents) : Events := if item ≠ 0 then k.translate item else 0

/-- The loop of `doPoll`, from the item with index `i` on. -/
def doPollLoop (k : ServerKind) (r : Option K) : List Revents → ℤ → ℕ → Observed K P C I →
    Option (Observed K P C I)
  | [], _, _, w => some w
  | item :: items, res, i, w =>
      if res > 0 then
        let res := if item ≠ 0 then res - 1 else res
        (PollPoller.event r (k.report item) i w).bind (doPollLoop k r items res (i + 1))
      else
        some w

/-- Do the actual poll, where `poll`, or `zmq_poll`, returns `res`, sets `errno` if that is
negative, and the bits of the items otherwise. -/
def doPoll (k : ServerKind) (r : Option K) (res : ℤ) (errno : Errno) (items : List Revents)
    (w : Observed K P C I) : Option (Observed K P C I × Option Errno) :=
  if res < 0 then some (w, some errno)
  else if res = 0 then some (w, none)
  else (k.doPollLoop r items res 0 w).map fun w => (w, none)

end ServerKind

/-- `doPoll` of the server that uses `zmq_poll`. -/
def ZmqPoller.doPoll (r : Option K) (res : ℤ) (errno : Errno) (items : List Revents)
    (w : Observed K P C I) : Option (Observed K P C I × Option Errno) :=
  ServerKind.zmqPoller.doPoll r res errno items w

/-- The loop is the one of the server that uses `poll`. -/
theorem PollPoller.doPollLoop_eq (r : Option K) (items : List Revents) (res : ℤ) (i : ℕ)
    (w : Observed K P C I) :
    ServerKind.pollPoller.doPollLoop r items res i w = doPollLoop r items res i w := by
  induction items generalizing res i w with
  | nil => rfl
  | cons item items ih =>
      have hrest : ServerKind.pollPoller.doPollLoop r items
          (if item ≠ 0 then res - 1 else res) (i + 1) =
            doPollLoop (K := K) (P := P) (C := C) (I := I) r items
              (if item ≠ 0 then res - 1 else res) (i + 1) := funext fun w => ih _ _ w
      rw [ServerKind.doPollLoop, doPollLoop]
      dsimp only
      rw [hrest]
      rfl

theorem PollPoller.doPoll_eq (r : Option K) (res : ℤ) (errno : Errno) (items : List Revents)
    (w : Observed K P C I) :
    ServerKind.pollPoller.doPoll r res errno items w = doPoll r res errno items w := by
  rw [ServerKind.doPoll, doPoll, doPollLoop_eq]

namespace ServerKind

/-- The number of items that are looked at: up to the last one with bits. -/
def scanned : List Revents → ℕ
  | [] => 0
  | item :: items => if item = 0 ∧ scanned items = 0 then 0 else scanned items + 1

theorem scanned_eq_zero_iff {items : List Revents} :
    scanned items = 0 ↔ items.countP (· ≠ 0) = 0 := by
  induction items with
  | nil => exact iff_of_true rfl rfl
  | cons item items ih =>
      rw [scanned]
      by_cases hzero : item = 0
      · rw [List.countP_cons_of_neg (by simpa using hzero), ← ih]
        simp [hzero]
      · rw [List.countP_cons_of_pos (by simpa using hzero), if_neg fun h => hzero h.1]
        exact iff_of_false (Nat.succ_ne_zero _) (Nat.succ_ne_zero _)

/-- The items behind have no bits. -/
theorem getD_of_scanned_le {items : List Revents} {i : ℕ} (h : scanned items ≤ i) :
    items.getD i 0 = 0 := by
  induction items generalizing i with
  | nil => rfl
  | cons item items ih =>
      rw [scanned] at h
      split at h
      · rename_i hzero
        cases i with
        | zero => exact hzero.1
        | succ i => exact ih (by omega)
      · cases i with
        | zero => omega
        | succ i => exact ih (by omega)

/-- A pollable is registered at the index. -/
def At (r : Option K) (i : ℕ) (p : P) (w : Observed K P C I) : Prop :=
  ∃ client, (w.polling.pollers.servers r).event i = some ⟨p, client⟩

omit [DecidableEq P] [DecidableEq C] in
theorem At.unique {r : Option K} {i : ℕ} {p q : P} {w : Observed K P C I} (hp : At r i p w)
    (hq : At r i q w) : p = q := by
  obtain ⟨c, hp⟩ := hp
  obtain ⟨d, hq⟩ := hq
  rw [hp] at hq
  cases hq
  rfl

/-- One event: the pollable at the index gets it, and all registrations stay. -/
theorem event_revents {r : Option K} {i : ℕ} {w : Observed K P C I}
    (hi : i < (w.polling.pollers.servers r).metaItems.length) (revents : Events) :
    ∃ w' p, PollPoller.event r revents i w = some w' ∧
      w'.polling.pollers = w.polling.pollers ∧ At r i p w ∧
      w'.revents = Function.update w.revents p revents := by
  obtain ⟨⟨p, client⟩, hget⟩ : ∃ m, (w.polling.pollers.servers r).event i = some m :=
    ⟨_, List.getElem?_eq_getElem hi⟩
  rw [PollPoller.event, hget]
  dsimp only
  split
  · cases client with
    | none => exact ⟨_, p, rfl, rfl, ⟨_, hget⟩, rfl⟩
    | some c => exact ⟨_, p, rfl, rfl, ⟨_, hget⟩, rfl⟩
  · exact ⟨_, p, rfl, rfl, ⟨_, hget⟩, rfl⟩

/-- What the loop leaves a pollable with: the report of one of its items among those that are
looked at, or what it had before if there is none. -/
theorem doPollLoop_revents (k : ServerKind) {r : Option K} {items : List Revents} {i : ℕ}
    {w : Observed K P C I}
    (hlen : i + items.length ≤ (w.polling.pollers.servers r).metaItems.length) :
    ∃ w', k.doPollLoop r items (items.countP (· ≠ 0)) i w = some w' ∧
      w'.polling.pollers = w.polling.pollers ∧
      ∀ p, (∃ j < scanned items, At r (i + j) p w ∧ w'.revents p = k.report (items.getD j 0)) ∨
        ((∀ j < scanned items, ¬ At r (i + j) p w) ∧ w'.revents p = w.revents p) := by
  induction items generalizing i w with
  | nil => exact ⟨w, rfl, rfl, fun p => Or.inr ⟨fun j hj => absurd hj (Nat.not_lt_zero j), rfl⟩⟩
  | cons item items ih =>
      rw [List.length_cons] at hlen
      rw [doPollLoop]
      by_cases hstop : scanned (item :: items) = 0
      · -- No item has bits anymore.
        have hcount := scanned_eq_zero_iff.1 hstop
        rw [if_neg (by omega), hstop]
        exact ⟨w, rfl, rfl, fun p => Or.inr ⟨fun j hj => absurd hj (Nat.not_lt_zero j), rfl⟩⟩
      · have hpos : (((item :: items).countP (· ≠ 0) : ℕ) : ℤ) > 0 := by
          have hne := mt scanned_eq_zero_iff.2 hstop
          omega
        have hleft : (if item ≠ 0 then (((item :: items).countP (· ≠ 0) : ℕ) : ℤ) - 1
            else ((item :: items).countP (· ≠ 0) : ℕ)) = (items.countP (· ≠ 0) : ℕ) := by
          by_cases hzero : item = 0
          · rw [if_neg fun h => h hzero, List.countP_cons_of_neg (by simpa using hzero)]
          · rw [if_pos hzero, List.countP_cons_of_pos (by simpa using hzero)]
            omega
        have hscanned : scanned (item :: items) = scanned items + 1 := by
          rw [scanned] at hstop ⊢
          split
          · rename_i hzero
            exact absurd (if_pos hzero) hstop
          · rfl
        obtain ⟨w₁, q, hevent, hpollers, hq, hrevents⟩ :=
          event_revents (show i < (w.polling.pollers.servers r).metaItems.length by omega)
            (k.report item)
        have hat : ∀ j p, At r j p w₁ ↔ At r j p w := by
          intro j p
          rw [At, At, hpollers]
        obtain ⟨w', hrun, hpollers', hspec⟩ := ih (i := i + 1) (w := w₁) (by
          rw [hpollers]
          omega)
        rw [if_pos hpos, hevent, Option.bind_some, hleft, hrun]
        refine ⟨w', rfl, hpollers'.trans hpollers, fun p => ?_⟩
        rw [hscanned]
        rcases hspec p with ⟨j, hj, hatj, hrev⟩ | ⟨hnone, hrev⟩
        · refine Or.inl ⟨j + 1, Nat.succ_lt_succ hj, ?_, hrev⟩
          rw [← Nat.add_assoc, Nat.add_right_comm]
          exact (hat _ _).1 hatj
        · rw [hrevents] at hrev
          by_cases hpq : p = q
          · subst hpq
            rw [Function.update_self] at hrev
            exact Or.inl ⟨0, Nat.succ_pos _, hq, hrev⟩
          · rw [Function.update_of_ne hpq] at hrev
            refine Or.inr ⟨fun j hj hatj => ?_, hrev⟩
            cases j with
            | zero => exact hpq (hatj.unique hq)
            | succ j =>
                refine hnone j (Nat.lt_of_succ_lt_succ hj) ((hat _ _).2 ?_)
                rwa [Nat.add_right_comm, Nat.add_assoc]

/-- After a poll, the pollables at all indices have what their items were reported with. -/
def Refreshed (k : ServerKind) (r : Option K) (items : List Revents) (w : Observed K P C I) :
    Prop :=
  ∀ i p, At r i p w → w.revents p = k.report (items.getD i 0)

/-- The items of a pollable are reported alike, and a pollable whose items are all behind the
last one with bits has no events from before. -/
structure UpToDate (k : ServerKind) (r : Option K) (items : List Revents) (w : Observed K P C I) :
    Prop where
  alike : ∀ i j p, At r i p w → At r j p w →
    k.report (items.getD i 0) = k.report (items.getD j 0)
  behind : ∀ p, (∃ i, At r i p w) → (∀ j < scanned items, ¬ At r j p w) → w.revents p = 0

omit [DecidableEq P] [DecidableEq C] in
/-- Only the registrations and the events of the pollables matter. -/
theorem UpToDate.of_at {k : ServerKind} {r : Option K} {items : List Revents}
    {w w' : Observed K P C I} (h : k.UpToDate r items w) (hat : ∀ i p, At r i p w' ↔ At r i p w)
    (hrevents : w'.revents = w.revents) : k.UpToDate r items w' := by
  refine ⟨fun i j p hi hj => h.alike i j p ((hat i p).1 hi) ((hat j p).1 hj), ?_⟩
  rintro p ⟨i, hi⟩ hnone
  rw [hrevents]
  exact h.behind p ⟨i, (hat i p).1 hi⟩ fun j hj hatj => hnone j hj ((hat j p).2 hatj)

/-- The pollables after one poll. -/
theorem doPoll_revents (k : ServerKind) {r : Option K} {items : List Revents}
    {w : Observed K P C I}
    (hlen : items.length = (w.polling.pollers.servers r).metaItems.length) (errno : Errno) :
    ∃ w', k.doPoll r (items.countP (· ≠ 0)) errno items w = some (w', none) ∧
      w'.polling.pollers = w.polling.pollers ∧
      ∀ p, (∃ j < scanned items, At r j p w ∧ w'.revents p = k.report (items.getD j 0)) ∨
        ((∀ j < scanned items, ¬ At r j p w) ∧ w'.revents p = w.revents p) := by
  obtain ⟨w', hrun, hpollers, hspec⟩ := doPollLoop_revents k (r := r) (i := 0) (w := w)
    (show 0 + items.length ≤ _ by omega)
  simp only [Nat.zero_add] at hspec
  refine ⟨w', ?_, hpollers, hspec⟩
  rw [doPoll, if_neg (by omega)]
  split
  · -- The time was up, and the loop would not look at an item either.
    rename_i hzero
    rw [hzero] at hrun
    cases items with
    | nil =>
        cases hrun
        rfl
    | cons item items =>
        rw [doPollLoop, if_neg (lt_irrefl 0)] at hrun
        cases hrun
        rfl
  · rw [hrun]
    rfl

/-- One poll leaves the events that it found, exactly when what it does not write was right
before. -/
theorem doPoll_refreshed_iff (k : ServerKind) {r : Option K} {items : List Revents}
    {w : Observed K P C I}
    (hlen : items.length = (w.polling.pollers.servers r).metaItems.length) (errno : Errno) :
    ∃ w', k.doPoll r (items.countP (· ≠ 0)) errno items w = some (w', none) ∧
      (k.Refreshed r items w' ↔ k.UpToDate r items w) := by
  obtain ⟨w', hrun, hpollers, hspec⟩ := doPoll_revents k hlen errno
  have hat : ∀ i p, At r i p w' ↔ At r i p w := by
    intro i p
    rw [At, At, hpollers]
  have hzero : ∀ i, scanned items ≤ i → k.report (items.getD i 0) = 0 := by
    intro i hi
    rw [getD_of_scanned_le hi, report, if_neg fun h => h rfl]
  refine ⟨w', hrun, fun h => ⟨fun i j p hi hj => ?_, fun p hp hnone => ?_⟩, fun h i p hi => ?_⟩
  · rw [← h i p ((hat i p).2 hi), h j p ((hat j p).2 hj)]
  · obtain ⟨i, hi⟩ := hp
    have hbehind : scanned items ≤ i := by
      by_contra hlt
      exact hnone i (not_le.1 hlt) hi
    rcases hspec p with ⟨j, hj, hatj, -⟩ | ⟨-, hrev⟩
    · exact absurd hatj (hnone j hj)
    · rw [← hrev, h i p ((hat i p).2 hi), hzero i hbehind]
  · rw [hat] at hi
    rcases hspec p with ⟨j, -, hatj, hrev⟩ | ⟨hnone, hrev⟩
    · rw [hrev, h.alike j i p hatj hi]
    · have hbehind : scanned items ≤ i := by
        by_contra hlt
        exact hnone i (not_le.1 hlt) hi
      rw [hrev, h.behind p ⟨i, hi⟩ hnone, hzero i hbehind]

end ServerKind

/-- What is seen of a server, and what the last call found, if it was a poll that succeeded. -/
structure Polled (K P C I : Type*) where
  observed : Observed K P C I
  found : Option (List Revents)

namespace Polled

open ServerKind

/-- What is done with a server: a call that registers pollables, or a poll that fails; or a
poll that succeeds and finds the bits of the items. -/
inductive Label (P C κ : Type*) where
  | call (o : PollerServer.Op P C κ)
  | poll (contents : κ) (items : List Revents)

variable [DecidableEq K] (init : κ → P → Except Errno I)

/-- Another state of the server. -/
def setServer (r : Option K) (s : PollerServer P C I) (w : Observed K P C I) :
    Observed K P C I :=
  { w with polling := w.polling.setServer r s }

/-- One call. `poll` of the operating system returns the number of items with bits. -/
def step (k : ServerKind) (r : Option K) (s : Polled K P C I) :
    Label P C κ → Option (Polled K P C I)
  | .call o =>
      ((s.observed.polling.pollers.servers r).step init o).map fun server =>
        ⟨setServer r server s.observed, none⟩
  | .poll contents items =>
      match (s.observed.polling.pollers.servers r).poll (init contents) with
      | (_, some _) => none
      | (server, none) =>
          if items.length = server.pollItems.length then
            (k.doPoll r (items.countP (· ≠ 0)) .einval items (setServer r server s.observed)).map
              fun e => ⟨e.1, some items⟩
          else none

/-- The pollables have the events of the last call, if that was a poll. -/
def LastPoll (k : ServerKind) (r : Option K) (s : Polled K P C I) : Prop :=
  ∀ items, s.found = some items → k.Refreshed r items s.observed

/-- The condition on one call: only a poll has one. -/
def PollsUpToDate (k : ServerKind) (r : Option K) (s : Polled K P C I) : Label P C κ → Prop
  | .call _ => True
  | .poll _ items => k.UpToDate r items s.observed

omit [DecidableEq P] [DecidableEq C] in
theorem servers_setServer (r : Option K) (s : PollerServer P C I) (w : Observed K P C I) :
    (setServer r s w).polling.pollers.servers r = s := Function.update_self ..

omit [DecidableEq P] [DecidableEq C] in
/-- The items of a poll that succeeds are those of all registrations. -/
theorem length_pollItems_poll {init : P → Except Errno I} {s t : PollerServer P C I}
    (h : s.poll init = (t, none)) : t.pollItems.length = t.metaItems.length := by
  have hinit : ∀ ms : List (MetaItem P C), (PollerServer.initItems init ms).2 = none →
      (PollerServer.initItems init ms).1.length = ms.length := by
    intro ms
    induction ms with
    | nil => exact fun _ => rfl
    | cons m ms ih =>
        rw [PollerServer.initItems]
        cases init m.pollable with
        | error e => exact fun h => absurd h (Option.some_ne_none e)
        | ok item => exact fun h => congrArg Nat.succ (ih h)
  have hmirror : s.mirror init = (t, none) := by
    rw [PollerServer.poll] at h
    rcases hm : s.mirror init with ⟨t', _ | e⟩
    · rw [hm] at h
      dsimp only at h
      split at h <;> cases h
      rfl
    · rw [hm] at h
      cases h
  obtain ⟨ht, hres⟩ := Prod.mk.inj hmirror
  rw [← ht]
  dsimp only
  rw [List.length_append, hinit _ hres, List.length_take, List.length_drop]
  omega

variable {init : κ → P → Except Errno I}

/-- One call: after it the events are those of the last poll if it met the condition. -/
theorem lastPoll_step_iff {k : ServerKind} {r : Option K} {s t : Polled K P C I}
    {l : Label P C κ} (h : step init k r s l = some t) :
    LastPoll k r t ↔ PollsUpToDate k r s l := by
  cases l with
  | call o =>
      obtain ⟨server, -, rfl⟩ := Option.map_eq_some_iff.1 h
      exact iff_of_true (fun items hitems => absurd hitems (by simp)) trivial
  | poll contents items =>
      rw [step] at h
      rcases hpoll : (s.observed.polling.pollers.servers r).poll (init contents) with
        ⟨server, _ | e⟩
      · rw [hpoll] at h
        dsimp only at h
        split at h
        · rename_i hlen
          have hmeta : server.metaItems =
              (s.observed.polling.pollers.servers r).metaItems := by
            have hsame := PollerServer.metaItems_poll (init contents)
              (s.observed.polling.pollers.servers r)
            rwa [hpoll] at hsame
          have hat : ∀ i p, At r i p (setServer r server s.observed) ↔ At r i p s.observed := by
            intro i p
            rw [At, At, servers_setServer, PollerServer.event, PollerServer.event, hmeta]
          have hlen' : items.length = ((setServer r server s.observed).polling.pollers.servers
              r).metaItems.length := by
            rw [servers_setServer, hlen, length_pollItems_poll hpoll]
          obtain ⟨w, hrun, hiff⟩ := doPoll_refreshed_iff k hlen' .einval
          rw [hrun, Option.map_some] at h
          cases h
          have hfound : LastPoll k r ⟨w, some items⟩ ↔ k.Refreshed r items w :=
            ⟨fun hall => hall items rfl, fun href items' hitems => Option.some.inj hitems ▸ href⟩
          rw [hfound, hiff]
          exact ⟨fun hup => hup.of_at (fun i p => (hat i p).symm) rfl,
            fun hup => hup.of_at hat rfl⟩
        · cases h
      · rw [hpoll] at h
        cases h

/-- After every poll of a sequence of calls all registered pollables have the events that
it found, exactly when no poll left out a pollable with events from before. -/
theorem lastPoll_always_iff (k : ServerKind) (r : Option K) {s u : Polled K P C I}
    {ls : List (Label P C κ)} (hs : s.found = none)
    (hr : Transition.run (step init k r) s ls = some u) :
    Transition.Always (step init k r) (LastPoll k r) s ls ↔
      Transition.Guarded (step init k r) (PollsUpToDate k r) s ls := by
  refine Transition.always_iff_guarded_of_run (I := fun _ => True) (fun _ _ _ _ _ => trivial)
    (fun _ _ _ _ _ h => lastPoll_step_iff h) trivial (fun items hitems => ?_) hr
  rw [hs] at hitems
  cases hitems

/-- A server without registrations, and pollables without events. -/
def start (K P C I : Type*) : Polled K P C I := ⟨⟨.init K P C I, fun _ => 0⟩, none⟩

/-- Two pollables. The second one has an event, and then both of them. -/
def allLooked : List (Label ℕ ℕ Unit) :=
  [.call (.add 0 (some 0) true), .call (.add 1 (some 0) true), .poll () [0, 1], .poll () [1, 1]]

/-- The item of a pollable is the pollable. -/
def initItem (_ : Unit) (p : ℕ) : Except Errno ℕ := .ok p

theorem lastPoll_always_iff_allLooked :
    (Transition.run (step initItem .zmqPoller none) (start Unit ℕ ℕ ℕ) allLooked).isSome ∧
      (Transition.Always (step initItem .zmqPoller none) (LastPoll .zmqPoller none)
          (start Unit ℕ ℕ ℕ) allLooked ↔
        Transition.Guarded (step initItem .zmqPoller none) (PollsUpToDate .zmqPoller none)
          (start Unit ℕ ℕ ℕ) allLooked) :=
  ⟨rfl, lastPoll_always_iff .zmqPoller none rfl rfl⟩

/-- Two pollables. The second one has an event, and then the time is up. -/
def timesOut : List (Label ℕ ℕ Unit) :=
  [.call (.add 0 (some 0) true), .call (.add 1 (some 0) true), .poll () [0, 1], .poll () [0, 0]]

/-- The second pollable has an event, and then only the first one. -/
def stopsEarly : List (Label ℕ ℕ Unit) :=
  [.call (.add 0 (some 0) true), .call (.add 1 (some 0) true), .poll () [0, 1], .poll () [1, 0]]

/-- With both servers, the second pollable keeps its event, whether the second poll finds
another one or not. -/
theorem not_lastPoll_second :
    (¬ Transition.Always (step initItem .zmqPoller none) (LastPoll .zmqPoller none)
        (start Unit ℕ ℕ ℕ) timesOut ∧
      ¬ Transition.Always (step initItem .zmqPoller none) (LastPoll .zmqPoller none)
        (start Unit ℕ ℕ ℕ) stopsEarly) ∧
    ¬ Transition.Always (step initItem .pollPoller none) (LastPoll .pollPoller none)
        (start Unit ℕ ℕ ℕ) timesOut ∧
      ¬ Transition.Always (step initItem .pollPoller none) (LastPoll .pollPoller none)
        (start Unit ℕ ℕ ℕ) stopsEarly := by
  refine ⟨⟨fun h => ?_, fun h => ?_⟩, fun h => ?_, fun h => ?_⟩
  all_goals
    have hlast := (((h.2 _ rfl).2 _ rfl).2 _ rfl).2 _ rfl
    have hkept := hlast _ rfl 1 1 ⟨some 0, rfl⟩
    revert hkept
    decide

end Polled

end Zth
