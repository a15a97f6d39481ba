import Zth.Poller.Revents

/-!
# Polling for a single pollable

`zth::poll` waits for one pollable, with a client of its own. When `poll` of that client
returns, it looks at the events of the pollable: 0 is returned if there is one it has asked
for, otherwise an `errno`; without a result it tries again. All fibers that are in there poll
by the same server, and each looks at its own pollable only.
-/

namespace Zth

/-- `EINTR` and `EIO`, by their numbers on Linux. -/
def Errno.eintr : Errno := .other 4
def Errno.eio : Errno := .other 5

/-- What a fiber waits for: something to receive, or room to send. -/
inductive Direction where
  | input
  | output
deriving DecidableEq, Repr

def Direction.events : Direction → Events
  | .input => Pollable.PollIn
  | .output => Pollable.PollOut

variable {K C I : Type*} [DecidableEq K] [DecidableEq C]

namespace Observed

/-- `poll` of a server, where the one of the operating system fails, or finds the bits of the
items. -/
def pollServer (k : ServerKind) (init : C → Except Errno I) (r : Option K)
    (found : Except Errno (List Revents)) (w : Observed K C C I) :
    Option (Observed K C C I × Option Errno) :=
  match (w.polling.pollers.servers r).poll init with
  | (server, some e) => some (Polled.setServer r server w, some e)
  | (server, none) =>
      match found with
      | .error e => k.doPoll r (-1) e [] (Polled.setServer r server w)
      | .ok items =>
          if items.length = server.pollItems.length then
            k.doPoll r (items.countP (· ≠ 0)) .einval items (Polled.setServer r server w)
          else none

/-- What `poll` of a client does after the first try, without a timeout. -/
def afterTry (c : C) (p : Option K) (x : Observed K C C I × Option Errno) : Observed K C C I :=
  { x.1 with polling := x.1.polling.afterTry c (-1) ⟨p, x.2, .running⟩ }

/-- `poll` of a client without a timeout, until it waits or returns. -/
def poll (k : ServerKind) (init : C → Except Errno I) (c : C) (alloc : ℕ → Bool)
    (found : Except Errno (List Revents)) (w : Observed K C C I) : Option (Observed K C C I) :=
  let client := w.polling.clients c
  if client.mPollables.isEmpty then
    some { w with
      polling := w.polling.setClient c { client with mResult := [], errno := some .einval } }
  else
    let (polling, p) := w.polling.register c alloc
    (pollServer k init p found { w with polling := polling }).map (afterTry c p)

/-- The waiter polls. -/
def serve (k : ServerKind) (init : C → Except Errno I) (found : Except Errno (List Revents))
    (w : Observed K C C I) : Option (Observed K C C I) :=
  let (pollers, r) := w.polling.pollers.poller
  (pollServer k init r found { w with polling := { w.polling with pollers := pollers } }).map
    Prod.fst

/-- A new client and a new pollable, which is added if there is memory for it. -/
def newPoller (c : C) (alloc : Bool) (w : Observed K C C I) : Observed K C C I where
  polling := w.polling.setClient c ((PollerClient.empty).add c alloc).1
  revents := Function.update w.revents c 0

/-- What `zth::poll` makes of the result of its client: it returns 0 or an `errno`, or it tries
again. -/
def outcome (d : Direction) (c : C) (w : Observed K C C I) : Option (Option Errno) :=
  match (w.polling.clients c).mResult with
  | [] =>
      if (w.polling.clients c).errno = some .eintr ∨ (w.polling.clients c).errno = some .eagain
      then none else some (w.polling.clients c).errno
  | p :: _ => if w.revents p &&& d.events ≠ 0 then some none else some (some .eio)

/-- The client has got an event of the given kind, and knows it from its pollable. -/
def Reported (w : Observed K C C I) (c : C) (d : Direction) : Prop :=
  ∃ p ps, (w.polling.clients c).mResult = p :: ps ∧ w.revents p &&& d.events ≠ 0

/-- Every fiber polls its own pollable only. -/
structure Own (w : Observed K C C I) : Prop where
  registered : ∀ r, ∀ m ∈ (w.polling.pollers.servers r).metaItems, m.client = some m.pollable
  pollables : ∀ c, ∀ p ∈ (w.polling.clients c).mPollables, p = c
  results : ∀ c, ∀ p ∈ (w.polling.clients c).mResult, p = c

/-- What some events change: only clients that get one, and a client that knows of one of the
given kind either did so before or got it among these, which `R` says. -/
structure Hears (R : Direction → Prop) (w w' : Observed K C C I) : Prop where
  own : Own w'
  reported : ∀ c d, w'.Reported c d → w.Reported c d ∨ R d
  clients : ∀ c, w'.polling.clients c = w.polling.clients c ∨
    (w'.polling.clients c).mResult ≠ []

omit [DecidableEq K] [DecidableEq C] in
theorem Hears.refl {R : Direction → Prop} {w : Observed K C C I} (h : Own w) : Hears R w w :=
  ⟨h, fun _ _ hreported => Or.inl hreported, fun _ => Or.inl rfl⟩

omit [DecidableEq K] [DecidableEq C] in
theorem Hears.trans {R : Direction → Prop} {w w' w'' : Observed K C C I} (h : Hears R w w')
    (h' : Hears R w' w'') : Hears R w w'' where
  own := h'.own
  reported c d hreported := (h'.reported c d hreported).elim (h.reported c d) Or.inr
  clients c := by
    rcases h'.clients c with heq | hne
    · rw [heq]
      exact h.clients c
    · exact Or.inr hne

omit [DecidableEq K] in
/-- Another state of a client. -/
theorem Own.setClient {w : Observed K C C I} (h : Own w) (c : C) (client : PollerClient K C)
    (hpollables : ∀ p ∈ client.mPollables, p = c) (hresults : ∀ p ∈ client.mResult, p = c) :
    Own { w with polling := w.polling.setClient c client } := by
  have hself : (w.polling.setClient c client).clients c = client := Function.update_self ..
  have hother : ∀ c', c' ≠ c → (w.polling.setClient c client).clients c' =
      w.polling.clients c' := fun c' hc => Function.update_of_ne hc _ _
  refine ⟨h.registered, fun c' => ?_, fun c' => ?_⟩
  · dsimp only
    by_cases hc : c' = c
    · subst hc
      rwa [hself]
    · rw [hother c' hc]
      exact h.pollables c'
  · dsimp only
    by_cases hc : c' = c
    · subst hc
      rwa [hself]
    · rw [hother c' hc]
      exact h.results c'

/-- Nothing of other clients changes. -/
structure OnlyClient (c : C) (w w' : Observed K C C I) : Prop where
  clients : ∀ c', c' ≠ c → w'.polling.clients c' = w.polling.clients c'
  revents : ∀ c', c' ≠ c → w'.revents c' = w.revents c'

omit [DecidableEq K] [DecidableEq C] in
theorem OnlyClient.reported_iff {c c' : C} {w w' : Observed K C C I} (h : OnlyClient c w w')
    (hw : Own w) (hc : c' ≠ c) (d : Direction) : w'.Reported c' d ↔ w.Reported c' d := by
  have hown : ∀ p ps, (w.polling.clients c').mResult = p :: ps → w'.revents p = w.revents p := by
    intro p ps hresult
    obtain rfl : p = c' := hw.results c' p (hresult ▸ List.mem_cons_self)
    exact h.revents p hc
  rw [Reported, Reported, h.clients c' hc]
  refine exists_congr fun p => exists_congr fun ps => and_congr_right fun hresult => ?_
  rw [hown p ps hresult]

omit [DecidableEq K] in
/-- One event of the server is for one client, which owns the pollable. -/
theorem Own.event_client {w w' : Observed K C C I} (h : Own w) {r : Option K} {revents : Events}
    {i : ℕ} (hw' : PollPoller.event r revents i w = some w') :
    ∃ q, Own w' ∧ OnlyClient q w w' ∧ w'.revents q = revents ∧
      (w'.polling.clients q = w.polling.clients q ∨ (w'.polling.clients q).mResult ≠ []) := by
  rw [PollPoller.event] at hw'
  cases hm : (w.polling.pollers.servers r).event i with
  | none =>
      rw [hm] at hw'
      cases hw'
  | some m =>
      obtain ⟨q, client⟩ := m
      obtain rfl : client = some q := h.registered r _ (List.mem_of_getElem? hm)
      rw [hm] at hw'
      refine ⟨q, ?_⟩
      dsimp only at hw'
      split at hw'
      · cases hw'
        have hclient := h.setClient q ((w.polling.clients q).event q)
          (h.pollables q) fun p hp => (List.mem_append.1 hp).elim (h.results q p)
            List.mem_singleton.1
        refine ⟨⟨hclient.registered, hclient.pollables, hclient.results⟩,
          ⟨fun c hc => Function.update_of_ne hc _ _, fun c hc => Function.update_of_ne hc _ _⟩,
          Function.update_self .., Or.inr ?_⟩
        have hself : (w.polling.setClient q ((w.polling.clients q).event q)).clients q =
            (w.polling.clients q).event q := Function.update_self ..
        dsimp only
        rw [hself]
        exact List.append_ne_nil_of_right_ne_nil _ (List.cons_ne_nil q [])
      · -- No event, but the ones of before are gone.
        cases hw'
        exact ⟨⟨h.registered, h.pollables, h.results⟩,
          ⟨fun _ _ => rfl, fun c hc => Function.update_of_ne hc _ _⟩,
          Function.update_self .., Or.inl rfl⟩

omit [DecidableEq K] in
theorem Own.event {w w' : Observed K C C I} (h : Own w) {r : Option K} {revents : Events} {i : ℕ}
    (hw' : PollPoller.event r revents i w = some w') :
    Hears (fun d => revents &&& d.events ≠ 0) w w' := by
  obtain ⟨q, hown, honly, hrevents, hself⟩ := h.event_client hw'
  refine ⟨hown, fun c d hreported => ?_, fun c => ?_⟩
  · by_cases hc : c = q
    · subst hc
      obtain ⟨p, ps, hresult, hbits⟩ := hreported
      obtain rfl : p = c := hown.results c p (by rw [hresult]; exact List.mem_cons_self)
      rw [hrevents] at hbits
      exact Or.inr hbits
    · exact Or.inl ((honly.reported_iff h hc d).1 hreported)
  · by_cases hc : c = q
    · subst hc
      exact hself
    · exact Or.inl (honly.clients c hc)

/-- An item is reported with an event of the given kind. -/
def Finds (k : ServerKind) (items : List Revents) (d : Direction) : Prop :=
  ∃ item ∈ items, k.report item &&& d.events ≠ 0

omit [DecidableEq K] [DecidableEq C] in
theorem Hears.mono {R R' : Direction → Prop} {w w' : Observed K C C I} (h : Hears R w w')
    (hR : ∀ d, R d → R' d) : Hears R' w w' :=
  ⟨h.own, fun c d hreported => (h.reported c d hreported).imp_right (hR d), h.clients⟩

omit [DecidableEq K] in
theorem Own.doPollLoop {k : ServerKind} {r : Option K} {items : List Revents} {res : ℤ} {i : ℕ}
    {w w' : Observed K C C I} (h : Own w) (hw' : k.doPollLoop r items res i w = some w') :
    Hears (Finds k items) w w' := by
  induction items generalizing res i w with
  | nil =>
      cases hw'
      exact .refl h
  | cons item items ih =>
      rw [ServerKind.doPollLoop] at hw'
      split at hw'
      · obtain ⟨w₁, hevent, hrun⟩ := Option.bind_eq_some_iff.1 hw'
        have hhead : Hears (Finds k (item :: items)) w w₁ :=
          (h.event hevent).mono fun d hd => ⟨item, List.mem_cons_self, hd⟩
        have hrest : Hears (Finds k (item :: items)) w₁ w' := by
          refine (ih hhead.own hrun).mono ?_
          rintro d ⟨item', hmem, hd⟩
          exact ⟨item', List.mem_cons_of_mem item hmem, hd⟩
        exact hhead.trans hrest
      · cases hw'
        exact .refl h

omit [DecidableEq K] in
theorem Own.doPoll {k : ServerKind} {r : Option K} {items : List Revents} {res : ℤ} {e : Errno}
    {w : Observed K C C I} {x : Observed K C C I × Option Errno} (h : Own w)
    (hx : k.doPoll r res e items w = some x) : Hears (Finds k items) w x.1 := by
  rw [ServerKind.doPoll] at hx
  split at hx
  · cases hx
    exact .refl h
  · split at hx
    · cases hx
      exact .refl h
    · obtain ⟨w', hw', rfl⟩ := Option.map_eq_some_iff.1 hx
      exact h.doPollLoop hw'

/-- All that matters of the clients and the pollables stays. -/
structure SameClients (w w' : Observed K C C I) : Prop where
  clients : w'.polling.clients = w.polling.clients
  revents : w'.revents = w.revents

omit [DecidableEq K] [DecidableEq C] in
theorem SameClients.reported_iff {w w' : Observed K C C I} (h : SameClients w w') (c : C)
    (d : Direction) : w'.Reported c d ↔ w.Reported c d := by
  rw [Reported, Reported, h.clients, h.revents]

omit [DecidableEq K] [DecidableEq C] in
theorem Own.of_sameClients {w w' : Observed K C C I} (h : Own w) (hsame : SameClients w w')
    (hregistered : ∀ r, ∀ m ∈ (w'.polling.pollers.servers r).metaItems,
      m.client = some m.pollable) : Own w' :=
  ⟨hregistered, hsame.clients ▸ h.pollables, hsame.clients ▸ h.results⟩

omit [DecidableEq C] in
theorem Own.setServer {w : Observed K C C I} (h : Own w) (r : Option K)
    (server : PollerServer C C I)
    (hserver : ∀ m ∈ server.metaItems, m.client = some m.pollable) :
    Own (Polled.setServer r server w) := by
  refine h.of_sameClients ⟨rfl, rfl⟩ fun r' m hm => ?_
  by_cases hr : r' = r
  · subst hr
    rw [Polled.servers_setServer] at hm
    exact hserver m hm
  · have hother : (Polled.setServer r server w).polling.pollers.servers r' =
        w.polling.pollers.servers r' := Function.update_of_ne hr _ _
    rw [hother] at hm
    exact h.registered r' m hm

/-- What the operating system found, if it did not fail. -/
def itemsOf : Except Errno (List Revents) → List Revents
  | .error _ => []
  | .ok items => items

theorem Own.pollServer {k : ServerKind} {init : C → Except Errno I} {r : Option K}
    {found : Except Errno (List Revents)} {w : Observed K C C I}
    {x : Observed K C C I × Option Errno} (h : Own w)
    (hx : w.pollServer k init r found = some x) : Hears (Finds k (itemsOf found)) w x.1 := by
  have hmeta := PollerServer.metaItems_poll init (w.polling.pollers.servers r)
  rw [Observed.pollServer] at hx
  cases hpoll : (w.polling.pollers.servers r).poll init with
  | mk server res =>
      rw [hpoll] at hx hmeta
      have hown : Own (Polled.setServer r server w) :=
        h.setServer r server (by rw [hmeta]; exact h.registered r)
      have hsame : SameClients w (Polled.setServer r server w) := ⟨rfl, rfl⟩
      have hfirst : Hears (Finds k (itemsOf found)) w (Polled.setServer r server w) :=
        ⟨hown, fun c d hreported => Or.inl ((hsame.reported_iff c d).1 hreported),
          fun c => Or.inl rfl⟩
      cases res with
      | some e =>
          cases hx
          exact hfirst
      | none =>
          cases found with
          | error e => exact hfirst.trans (hown.doPoll hx)
          | ok items =>
              dsimp only at hx
              split at hx
              · exact hfirst.trans (hown.doPoll hx)
              · cases hx

omit [DecidableEq C] in
/-- The default server may be created. -/
theorem Own.poller {w : Observed K C C I} (h : Own w) :
    Own { w with polling := { w.polling with pollers := w.polling.pollers.poller.1 } } := by
  refine h.of_sameClients ⟨rfl, rfl⟩ fun r m hm => ?_
  dsimp only at hm
  rw [Pollers.poller] at hm
  split at hm
  · exact h.registered r m hm
  · split at hm
    · exact h.registered r m hm
    · by_cases hr : r = none
      · subst hr
        rw [Pollers.newDefault] at hm
        dsimp only at hm
        rw [Function.update_self] at hm
        cases hm
      · rw [Pollers.newDefault] at hm
        dsimp only at hm
        rw [Function.update_of_ne hr] at hm
        exact h.registered r m hm

theorem Own.serve {k : ServerKind} {init : C → Except Errno I}
    {found : Except Errno (List Revents)} {w w' : Observed K C C I} (h : Own w)
    (hw' : w.serve k init found = some w') : Hears (Finds k (itemsOf found)) w w' := by
  obtain ⟨x, hx, rfl⟩ := Option.map_eq_some_iff.1 hw'
  have hsame : SameClients w
      { w with polling := { w.polling with pollers := w.polling.pollers.poller.1 } } := ⟨rfl, rfl⟩
  have hfirst : Hears (Finds k (itemsOf found)) w
      { w with polling := { w.polling with pollers := w.polling.pollers.poller.1 } } :=
    ⟨h.poller, fun c d hreported => Or.inl ((hsame.reported_iff c d).1 hreported),
      fun c => Or.inl rfl⟩
  exact hfirst.trans (h.poller.pollServer hx)

omit [DecidableEq K] [DecidableEq C] in
theorem mem_metaItems_addAll {c : C} {alloc : ℕ → Bool} {i : ℕ} {ps : List C}
    {server : PollerServer C C I} {m : MetaItem C C}
    (hm : m ∈ (server.addAll c alloc i ps).metaItems) :
    m ∈ server.metaItems ∨ ∃ p ∈ ps, m = ⟨p, some c⟩ := by
  induction ps generalizing i server with
  | nil => exact Or.inl hm
  | cons p ps ih =>
      rcases ih hm with hm | ⟨q, hq, rfl⟩
      · rw [PollerServer.add] at hm
        split at hm
        · rcases List.mem_append.1 hm with hm | hm
          · exact Or.inl hm
          · exact Or.inr ⟨p, List.mem_cons_self, List.mem_singleton.1 hm⟩
        · exact Or.inl hm
      · exact Or.inr ⟨q, List.mem_cons_of_mem p hq, rfl⟩

omit [DecidableEq K] in
theorem mem_metaItems_removeAll {c : C} {ps : List C} {server : PollerServer C C I}
    {m : MetaItem C C} (hm : m ∈ (server.removeAll c ps).metaItems) : m ∈ server.metaItems :=
  List.count_pos_iff.1 ((List.count_pos_iff.2 hm).trans_le (server.count_removeAll_le c ps m))

/-- All pollables of a client are registered, and its results of before are gone. -/
theorem Own.register {w : Observed K C C I} (h : Own w) (c : C) (alloc : ℕ → Bool) :
    Own { w with polling := (w.polling.register c alloc).1 } ∧
      OnlyClient c w { w with polling := (w.polling.register c alloc).1 } ∧
      ((w.polling.register c alloc).1.clients c).mResult = [] := by
  set client : PollerClient K C := { w.polling.clients c with
    mResult := [], call := some ⟨w.polling.pollers.poller.2, none, .running⟩ }
  have hown := h.poller.setServer w.polling.pollers.poller.2
    (((w.polling.pollers.poller.1.servers w.polling.pollers.poller.2).addAll c alloc 0
      (w.polling.clients c).mPollables)) (fun m hm => by
        rcases mem_metaItems_addAll hm with hm | ⟨p, hp, rfl⟩
        · exact h.poller.registered _ m hm
        · rw [h.pollables c p hp])
  refine ⟨hown.setClient c client (h.pollables c) (by simp [client]),
    ⟨fun c' hc => Function.update_of_ne hc _ _, fun _ _ => rfl⟩, ?_⟩
  have hself : (w.polling.register c alloc).1.clients c = client := Function.update_self ..
  rw [hself]

/-- `poll` of a client is left. -/
theorem Own.finish {w : Observed K C C I} (h : Own w) (c : C) (call : PollCall K) :
    Own { w with polling := w.polling.finish c call } ∧
      OnlyClient c w { w with polling := w.polling.finish c call } ∧
      ((w.polling.finish c call).clients c).mResult = (w.polling.clients c).mResult ∧
      (((w.polling.finish c call).clients c).mResult = [] →
        ((w.polling.finish c call).clients c).errno ≠ none) := by
  set client : PollerClient K C := { w.polling.clients c with
    call := none
    errno := if (w.polling.clients c).mResult.isEmpty ∧ call.res = none then some .eagain
      else call.res }
  have hself : (w.polling.finish c call).clients c = client := Function.update_self ..
  have hown := h.setServer call.p
    ((w.polling.pollers.servers call.p).removeAll c (w.polling.clients c).mPollables)
    fun m hm => h.registered call.p m (mem_metaItems_removeAll hm)
  refine ⟨hown.setClient c client (h.pollables c) (h.results c),
    ⟨fun c' hc => Function.update_of_ne hc _ _, fun _ _ => rfl⟩, by rw [hself], ?_⟩
  rw [hself]
  intro hresult hnone
  dsimp only [client] at hresult hnone
  rw [hresult] at hnone
  by_cases hres : call.res = none
  · rw [if_pos ⟨rfl, hres⟩] at hnone
    cases hnone
  · rw [if_neg fun hboth => hres hboth.2] at hnone
    exact hres hnone

/-- If `poll` of a client has returned without a result, it has set `errno`. -/
def Answered (w : Observed K C C I) (c : C) : Prop :=
  (w.polling.clients c).call = none → (w.polling.clients c).mResult = [] →
    (w.polling.clients c).errno ≠ none

/-- What follows the first try. -/
theorem Own.afterTry {w : Observed K C C I} (h : Own w) (c : C) (call : PollCall K) :
    Own { w with polling := w.polling.afterTry c (-1) call } ∧
      OnlyClient c w { w with polling := w.polling.afterTry c (-1) call } ∧
      ((w.polling.afterTry c (-1) call).clients c).mResult = (w.polling.clients c).mResult ∧
      Answered { w with polling := w.polling.afterTry c (-1) call } c := by
  obtain ⟨hown, honly, hresult, herrno⟩ := h.finish c call
  rw [Polling.afterTry]
  split
  · exact ⟨hown, honly, hresult, fun _ => herrno⟩
  · split
    · exact ⟨hown, honly, hresult, fun _ => herrno⟩
    · rw [if_neg (by omega), if_pos (by omega)]
      set client : PollerClient K C := { w.polling.clients c with
        call := some { call with wait := .suspended } }
      have hself : (w.polling.setClient c client).clients c = client := Function.update_self ..
      refine ⟨h.setClient c client (h.pollables c) (h.results c),
        ⟨fun c' hc => Function.update_of_ne hc _ _, fun _ _ => rfl⟩, by rw [hself], ?_⟩
      intro hcall
      dsimp only at hcall
      rw [hself] at hcall
      cases hcall

theorem poll_of_pollables {k : ServerKind} {init : C → Except Errno I} {c : C}
    {alloc : ℕ → Bool} {found : Except Errno (List Revents)} {w : Observed K C C I}
    (h : ¬ (w.polling.clients c).mPollables.isEmpty = true) :
    w.poll k init c alloc found =
      ({ w with polling := (w.polling.register c alloc).1 }.pollServer k init
        (w.polling.register c alloc).2 found).map
          (Observed.afterTry c (w.polling.register c alloc).2) := by
  rw [Observed.poll, if_neg h]

/-- `poll` of a client: other clients may get events, and what this one has got it has got
now. -/
theorem Own.poll {k : ServerKind} {init : C → Except Errno I} {c : C} {alloc : ℕ → Bool}
    {found : Except Errno (List Revents)} {w w' : Observed K C C I} (h : Own w)
    (hw' : w.poll k init c alloc found = some w') :
    Own w' ∧ Answered w' c ∧
      (∀ d, w'.Reported c d → Finds k (itemsOf found) d) ∧
      ∀ c', c' ≠ c → (∀ d, w'.Reported c' d → w.Reported c' d ∨ Finds k (itemsOf found) d) ∧
        (w'.polling.clients c' = w.polling.clients c' ∨
          (w'.polling.clients c').mResult ≠ []) := by
  by_cases hpollables : (w.polling.clients c).mPollables.isEmpty = true
  · rw [Observed.poll, if_pos hpollables] at hw'
    cases hw'
    set client : PollerClient K C :=
      { w.polling.clients c with mResult := [], errno := some .einval }
    have hself : (w.polling.setClient c client).clients c = client := Function.update_self ..
    have honly : OnlyClient c w { w with polling := w.polling.setClient c client } :=
      ⟨fun c' hc => Function.update_of_ne hc _ _, fun _ _ => rfl⟩
    refine ⟨h.setClient c client (h.pollables c) (by simp [client]), ?_, ?_, fun c' hc =>
      ⟨fun d hreported => Or.inl ((honly.reported_iff h hc d).1 hreported),
        Or.inl (honly.clients c' hc)⟩⟩
    · intro _ _
      dsimp only
      rw [hself]
      exact Option.some_ne_none _
    · rintro d ⟨p, ps, hresult, -⟩
      dsimp only at hresult
      rw [hself] at hresult
      cases hresult
  · obtain ⟨hown, honly, hempty⟩ := h.register c alloc
    rw [poll_of_pollables hpollables] at hw'
    obtain ⟨x, hx, rfl⟩ := Option.map_eq_some_iff.1 hw'
    have hhears := hown.pollServer hx
    obtain ⟨hown', honly', hresult', hanswered⟩ := hhears.own.afterTry c
      ⟨(w.polling.register c alloc).2, x.2, .running⟩
    rw [Observed.afterTry]
    refine ⟨hown', hanswered, fun d hreported => ?_, fun c' hc => ⟨fun d hreported => ?_, ?_⟩⟩
    · obtain ⟨p, ps, hresult, hbits⟩ := hreported
      dsimp only at hresult hbits
      rw [hresult'] at hresult
      refine (hhears.reported c d ⟨p, ps, hresult, hbits⟩).resolve_left ?_
      rintro ⟨q, qs, hbefore, -⟩
      dsimp only at hbefore
      rw [hempty] at hbefore
      cases hbefore
    · have hmid := hhears.reported c' d ((honly'.reported_iff hhears.own hc d).1 hreported)
      exact hmid.imp_left (honly.reported_iff h hc d).1
    · rcases hhears.clients c' with heq | hne
      · refine Or.inl ((honly'.clients c' hc).trans (heq.trans ?_))
        exact honly.clients c' hc
      · right
        rw [honly'.clients c' hc]
        exact hne

omit [DecidableEq K] [DecidableEq C] in
/-- When `poll` of the client has returned, `zth::poll` returns 0 if there is an event of the
kind, and never `EAGAIN`. -/
theorem outcome_eq_some_none_iff {w : Observed K C C I} {c : C}
    (h : (w.polling.clients c).mResult = [] → (w.polling.clients c).errno ≠ none)
    (d : Direction) : w.outcome d c = some none ↔ w.Reported c d := by
  rw [outcome, Reported]
  cases hresult : (w.polling.clients c).mResult with
  | nil =>
      refine iff_of_false ?_ (by simp)
      dsimp only
      split
      · exact fun hnone => by cases hnone
      · exact fun hsome => h hresult (Option.some.inj hsome)
  | cons p ps =>
      dsimp only
      by_cases hbits : w.revents p &&& d.events ≠ 0
      · rw [if_pos hbits]
        exact iff_of_true rfl ⟨p, ps, rfl, hbits⟩
      · rw [if_neg hbits]
        refine iff_of_false (by simp) ?_
        rintro ⟨q, qs, heq, hne⟩
        cases heq
        exact hbits hne

omit [DecidableEq K] [DecidableEq C] in
theorem outcome_ne_eagain (w : Observed K C C I) (c : C) (d : Direction) :
    w.outcome d c ≠ some (some .eagain) := by
  rw [outcome]
  split
  · split
    · exact nofun
    · rename_i hne
      exact fun heq => hne (Or.inr (Option.some.inj heq))
  · split
    · simp
    · simp [Errno.eio, Errno.eagain]

omit [DecidableEq K] in
/-- A new client and a new pollable. -/
theorem Own.newPoller {w : Observed K C C I} (h : w.Own) (c : C) (alloc : Bool) :
    (w.newPoller c alloc).Own ∧ w.OnlyClient c (w.newPoller c alloc) := by
  have hclient : ((PollerClient.empty : PollerClient K C).add c alloc).1.mResult = [] ∧
      ∀ p ∈ ((PollerClient.empty : PollerClient K C).add c alloc).1.mPollables, p = c := by
    cases alloc with
    | false => exact ⟨rfl, nofun⟩
    | true => exact ⟨rfl, fun p hp => List.mem_singleton.1 hp⟩
  have hown := h.setClient c _ hclient.2 (by rw [hclient.1]; exact nofun)
  exact ⟨⟨hown.registered, hown.pollables, hown.results⟩,
    fun c' hc => Function.update_of_ne hc _ _, fun c' hc => Function.update_of_ne hc _ _⟩

omit [DecidableEq K] [DecidableEq C] in
theorem answered_of_onlyClient {w w' : Observed K C C I} {c c' : C} (h : w.OnlyClient c w')
    (hc : c' ≠ c) : w'.Answered c' ↔ w.Answered c' := by
  rw [Answered, Answered, h.clients c' hc]

end Observed

end Zth
