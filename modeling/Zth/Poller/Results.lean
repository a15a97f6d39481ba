import Mathlib.Data.List.Perm.Subperm
import Zth.Poller.Client

/-!
# The result of a poll

The events of a client are appended to its result by whoever polls the server, and the
registrations of a client that was woken stay at the server until its fiber runs again. So
another poll before that finds the same events again, if they are still there, and `event`
appends them a second time. Without that, the result of a client has every registration once
at most, and fits in the memory that `add` has reserved for it.
-/

namespace Zth

variable {K P C I κ : Type*} [DecidableEq K] [DecidableEq P] [DecidableEq C]

namespace PollerClient

/-- The result has every pollable that was added to the client once at most. -/
def ResultFits (k : PollerClient K P) : Prop := k.mResult.Subperm k.mPollables

omit [DecidableEq K] [DecidableEq P] in
theorem call_add (p : P) (alloc : Bool) (k : PollerClient K P) :
    (k.add p alloc).1.call = k.call := by
  rw [add]
  split
  · rfl
  · rfl

omit [DecidableEq K] in
theorem call_remove (p : P) (k : PollerClient K P) : (k.remove p).1.call = k.call := by
  rw [remove]
  split
  · rfl
  · rfl

end PollerClient

namespace Polling

/-- A poll of a server finds an index once, and none of a registration that its client has in
its result already. -/
def FindsNew (r : Option K) (events : List ℕ) (w : Polling K P C I) : Prop :=
  events.Nodup ∧ ∀ i ∈ events, ∀ p c, (w.pollers.servers r).event i = some ⟨p, some c⟩ →
    p ∉ (w.clients c).mResult

/-- Until a client runs that got an event, no poll finds that event again. The clients share
one server: a `setPoller` does not move their registrations. -/
def FindsOnce (w : Polling K P C I) : Label K P C κ → Prop
  | .poll c _ _ alloc events _ => FindsNew (w.register c alloc).2 events (w.register c alloc).1
  | .serve _ events _ =>
      FindsNew w.pollers.poller.2 events { w with pollers := w.pollers.poller.1 }
  | .setPoller _ reserve alloc _ => w.pollers.MovesNoClient reserve alloc
  | _ => True

omit [DecidableEq P] in
theorem FindsOnce.movesNoClient {w : Polling K P C I} {l : Label K P C κ}
    (h : w.FindsOnce l) : w.MovesNoClient l := by
  cases l with
  | setPoller p reserve alloc fuel => exact h
  | _ => trivial

/-- The step runs in `poll` of the client. -/
def Label.Polls (c : C) : Label K P C κ → Prop
  | .poll c' _ _ _ _ _ => c' = c
  | .go c' => c' = c
  | _ => False

end Polling

namespace PollerServer

/-- Different indices find a registration as often as there is one, at most. -/
theorem countP_event_le {events : List ℕ} (hnodup : events.Nodup) (s : PollerServer P C I)
    (m : MetaItem P C) :
    events.countP (fun i => s.event i = some m) ≤ s.metaItems.count m := by
  have hcount : ∀ ms : List (MetaItem P C),
      (List.range ms.length).countP (fun i => ms[i]? = some m) = ms.count m := by
    intro ms
    induction ms with
    | nil => rfl
    | cons m' ms ih =>
        rw [List.length_cons, List.range_succ_eq_map, List.countP_cons, List.countP_map,
          List.count_cons, ← ih]
        congr 1
        simp
  have hsub : events.filter (fun i => s.event i = some m) ⊆
      (List.range s.metaItems.length).filter (fun i => s.event i = some m) := by
    intro i hi
    obtain ⟨-, hi⟩ := List.mem_filter.1 hi
    apply List.mem_filter.2
    constructor
    · apply List.mem_range.2
      exact (List.getElem?_eq_some_iff.1 (of_decide_eq_true hi)).1
    · exact hi
  rw [← hcount, List.countP_eq_length_filter, List.countP_eq_length_filter]
  exact (List.subperm_of_subset (hnodup.filter _) hsub).length_le

end PollerServer

namespace Polling

omit [DecidableEq K] in
/-- Every event is appended to the result of its client. -/
theorem count_mResult_forward {r : Option K} {events : List ℕ} {w w' : Polling K P C I}
    (hw' : w.forward r events = some w') (c : C) :
    (w'.clients c).mPollables = (w.clients c).mPollables ∧
      ∀ p, (w'.clients c).mResult.count p = (w.clients c).mResult.count p +
        events.countP fun i => (w.pollers.servers r).event i = some ⟨p, some c⟩ := by
  induction events generalizing w with
  | nil =>
      cases hw'
      exact ⟨rfl, fun p => rfl⟩
  | cons i is ih =>
      rw [forward] at hw'
      split at hw'
      · cases hw'
      · rename_i q hq
        obtain ⟨hpollables, hcount⟩ := ih hw'
        refine ⟨hpollables, fun p => ?_⟩
        rw [hcount, List.countP_cons, hq]
        simp
      · rename_i q d hq
        obtain ⟨hpollables, hcount⟩ := ih hw'
        rw [setClient] at hpollables hcount
        dsimp only at hpollables hcount
        by_cases hc : c = d
        · subst hc
          rw [Function.update_self] at hpollables hcount
          refine ⟨hpollables, fun p => ?_⟩
          rw [hcount, List.countP_cons, hq, PollerClient.event]
          dsimp only
          rw [List.count_append, List.count_singleton]
          simp only [Option.some.injEq, MetaItem.mk.injEq, and_true, decide_eq_true_eq,
            beq_iff_eq]
          omega
        · rw [Function.update_of_ne hc] at hpollables hcount
          refine ⟨hpollables, fun p => ?_⟩
          rw [hcount, List.countP_cons, hq]
          simp [Ne.symm hc]

/-- A server that finds new events only, appends them to results that have room for them. -/
theorem resultFits_forward {r : Option K} {events : List ℕ} {w w' : Polling K P C I}
    (h : Accounted w) (hnew : FindsNew r events w) (hw' : w.forward r events = some w') {c : C}
    (hc : (w.clients c).ResultFits) : (w'.clients c).ResultFits := by
  obtain ⟨hpollables, hcount⟩ := count_mResult_forward hw' c
  apply List.subperm_ext_iff.2
  intro p _
  rw [hpollables, hcount]
  by_cases hp : p ∈ (w.clients c).mResult
  · have hnone : (events.countP fun i =>
        (w.pollers.servers r).event i = some ⟨p, some c⟩) = 0 := by
      apply List.countP_eq_zero.2
      intro i hi heq
      exact hnew.2 i hi p c (of_decide_eq_true heq) hp
    rw [hnone]
    exact hc.count_le p
  · have hle := (PollerServer.countP_event_le hnew.1 _ _).trans (h.count_le c r p)
    have hreg : (w.clients c).registered r p ≤ (w.clients c).mPollables.count p := by
      rw [PollerClient.registered]
      split
      · exact Nat.le_refl _
      · exact Nat.zero_le _
    rw [List.count_eq_zero.2 hp, Nat.zero_add]
    exact hle.trans hreg

theorem resultFits_pollServer {initItem : P → Except Errno I} {r : Option K} {events : List ℕ}
    {res e : Option Errno} {w w' : Polling K P C I} (h : Accounted w)
    (hnew : FindsNew r events w) (hw' : w.pollServer initItem r events res = some (w', e)) {c : C}
    (hc : (w.clients c).ResultFits) : (w'.clients c).ResultFits := by
  set s := ((w.pollers.servers r).poll initItem).1 with hs
  have hmeta : s.metaItems = (w.pollers.servers r).metaItems :=
    PollerServer.metaItems_poll initItem _
  have hserver : Accounted (w.setServer r s) := by
    apply h.shrinkServer
    intro m
    rw [hmeta]
  have hnew' : FindsNew r events (w.setServer r s) := by
    refine ⟨hnew.1, fun i hi p c' heq => hnew.2 i hi p c' ?_⟩
    rw [Polling.setServer] at heq
    dsimp only at heq
    rw [Function.update_self, PollerServer.event, hmeta] at heq
    exact heq
  rw [Polling.pollServer] at hw'
  split at hw'
  · cases hw'
    exact hc
  · rename_i s' heq
    obtain ⟨w₁, hw₁, hpair⟩ := Option.map_eq_some_iff.1 hw'
    cases hpair
    rw [hs, heq] at hserver hnew'
    exact resultFits_forward hserver hnew' hw₁ hc

/-- A step leaves the pollables and the results alone, and starts no `poll`. -/
def KeepsResults (w w' : Polling K P C I) : Prop :=
  ∀ c, (w'.clients c).mPollables = (w.clients c).mPollables ∧
    (w'.clients c).mResult = (w.clients c).mResult ∧
    ((w.clients c).call = none → (w'.clients c).call = none)

omit [DecidableEq K] [DecidableEq P] [DecidableEq C] in
theorem KeepsResults.resultFits {w w' : Polling K P C I} (h : KeepsResults w w') {c : C}
    (hc : (w.clients c).ResultFits) : (w'.clients c).ResultFits := by
  rw [PollerClient.ResultFits, (h c).1, (h c).2.1]
  exact hc

omit [DecidableEq K] [DecidableEq P] in
theorem keepsResults_setClient (w : Polling K P C I) {c : C} {k : PollerClient K P}
    (hp : k.mPollables = (w.clients c).mPollables) (hr : k.mResult = (w.clients c).mResult)
    (hcall : (w.clients c).call = none → k.call = none) : KeepsResults w (w.setClient c k) := by
  intro c'
  rw [setClient]
  dsimp only
  by_cases hc : c' = c
  · subst hc
    rw [Function.update_self]
    exact ⟨hp, hr, hcall⟩
  · rw [Function.update_of_ne hc]
    exact ⟨rfl, rfl, id⟩

theorem keepsResults_finish (w : Polling K P C I) (c : C) (call : PollCall K) :
    KeepsResults w (w.finish c call) := by
  rw [finish]
  exact keepsResults_setClient (w.setServer _ _) rfl rfl fun _ => rfl

theorem keepsResults_afterTry (w : Polling K P C I) {c : C} (timeout : ℤ) (call : PollCall K)
    (hcall : (w.clients c).call ≠ none) : KeepsResults w (w.afterTry c timeout call) := by
  rw [afterTry]
  split
  · exact w.keepsResults_finish c call
  · split
    · exact w.keepsResults_finish c call
    · split
      · exact w.keepsResults_finish c call
      · split
        · apply keepsResults_setClient
          · rfl
          · rfl
          · exact fun hnone => absurd hnone hcall
        · apply keepsResults_setClient
          · rfl
          · rfl
          · exact fun hnone => absurd hnone hcall

omit [DecidableEq K] [DecidableEq P] in
theorem keepsResults_wake {c : C} {wait : Wait} {w w' : Polling K P C I}
    (hw' : w.wake c wait = some w') : KeepsResults w w' := by
  rw [wake] at hw'
  split at hw'
  · cases hw'
  · rename_i call hcall
    split at hw'
    · cases hw'
      apply keepsResults_setClient
      · rfl
      · rfl
      · exact fun hnone => absurd (hnone.symm.trans hcall) (Option.some_ne_none call).symm
    · cases hw'

omit [DecidableEq K] [DecidableEq P] [DecidableEq C] in
/-- Where no `poll` starts or returns, a client in `poll` was there before. -/
theorem KeepsResults.step {w w' : Polling K P C I} (h : KeepsResults w w')
    (hfits : ∀ c, (w.clients c).call ≠ none → (w.clients c).ResultFits) {c : C}
    (hc : (w'.clients c).call ≠ none) : (w'.clients c).ResultFits := by
  apply h.resultFits
  apply hfits
  intro hnone
  exact hc ((h c).2.2 hnone)

omit [DecidableEq P] in
theorem mResult_register (w : Polling K P C I) (c : C) (alloc : ℕ → Bool) :
    ((w.register c alloc).1.clients c).mResult = [] := by
  simp only [register, setClient, Function.update_self]

omit [DecidableEq P] in
theorem clients_register_of_ne {c c' : C} (h : c' ≠ c) (w : Polling K P C I)
    (alloc : ℕ → Bool) : (w.register c alloc).1.clients c' = w.clients c' :=
  Function.update_of_ne h ..

/-- A client polls: its own result starts empty, and those of others get new events. -/
theorem resultFits_poll {initItem : P → Except Errno I} {c : C} {timeout : ℤ}
    {alloc : ℕ → Bool} {events : List ℕ} {res : Option Errno} {w w' : Polling K P C I}
    (h : Accounted w) (hfits : ∀ c, (w.clients c).call ≠ none → (w.clients c).ResultFits)
    (hc : (w.clients c).call = none)
    (hnew : FindsNew (w.register c alloc).2 events (w.register c alloc).1)
    (hw' : w.poll initItem c timeout alloc events res = some w') {c' : C}
    (hc' : (w'.clients c').call ≠ none ∨ c = c') : (w'.clients c').ResultFits := by
  rw [poll] at hw'
  dsimp only at hw'
  split at hw'
  · cases hw'
    rw [setClient] at hc' ⊢
    dsimp only at hc' ⊢
    by_cases heq : c' = c
    · subst heq
      rw [Function.update_self]
      exact List.nil_subperm
    · rw [Function.update_of_ne heq] at hc' ⊢
      exact hfits c' (hc'.resolve_right (Ne.symm heq))
  · obtain ⟨⟨w₁, e⟩, hw₁, rfl⟩ := Option.map_eq_some_iff.1 hw'
    have hreg : Accounted (w.register c alloc).1 := h.register hc alloc
    have hsame := (hreg.pollServer hw₁).2
    have hcalls : ∀ d, (w₁.clients d).call ≠ none →
        ((w.register c alloc).1.clients d).call ≠ none := by
      intro d hd hnone
      have hmap := hsame d
      rw [hnone] at hmap
      exact hd (Option.map_eq_none_iff.1 hmap)
    have hself : (w₁.clients c).call ≠ none := by
      intro hnone
      have hmap := hsame c
      rw [hnone, call_register] at hmap
      cases hmap
    have hkeeps := w₁.keepsResults_afterTry timeout ⟨(w.register c alloc).2, e, .running⟩ hself
    apply hkeeps.resultFits
    apply resultFits_pollServer hreg hnew hw₁
    by_cases heq : c' = c
    · subst heq
      rw [PollerClient.ResultFits, mResult_register]
      exact List.nil_subperm
    · have hcall₁ : (w₁.clients c').call ≠ none := by
        intro hnone
        exact hc'.resolve_right (Ne.symm heq) ((hkeeps c').2.2 hnone)
      have hcall := hcalls c' hcall₁
      rw [clients_register_of_ne heq] at hcall ⊢
      exact hfits c' hcall

omit [DecidableEq K] [DecidableEq P] in
/-- A client changes that is not in `poll`. -/
theorem resultFits_setClient {w : Polling K P C I}
    (hfits : ∀ c, (w.clients c).call ≠ none → (w.clients c).ResultFits) {d : C}
    {k : PollerClient K P} (hk : k.call = none) {c : C}
    (hc : ((w.setClient d k).clients c).call ≠ none) :
    ((w.setClient d k).clients c).ResultFits := by
  rw [setClient] at hc ⊢
  dsimp only at hc ⊢
  by_cases heq : c = d
  · subst heq
    rw [Function.update_self] at hc
    exact absurd hk hc
  · rw [Function.update_of_ne heq] at hc ⊢
    exact hfits c hc

/-- One step. The result of a client fits while the client is in `poll`, and when `poll`
returns. -/
theorem resultFits_step {initItem : κ → P → Except Errno I} {w w' : Polling K P C I}
    {l : Label K P C κ} (h : Accounted w)
    (hfits : ∀ c, (w.clients c).call ≠ none → (w.clients c).ResultFits) (hok : w.FindsOnce l)
    (hw' : w.step initItem l = some w') {c : C}
    (hc : (w'.clients c).call ≠ none ∨ l.Polls c) : (w'.clients c).ResultFits := by
  cases l with
  | poll d timeout contents alloc events res =>
      rw [step] at hw'
      split at hw'
      · rename_i hd
        exact resultFits_poll h hfits hd hok hw' hc
      · cases hw'
  | serve contents events res =>
      have hcall := hc.resolve_right id
      rw [step] at hw'
      split at hw'
      · obtain ⟨⟨w₁, e⟩, hw₁, rfl⟩ := Option.map_eq_some_iff.1 hw'
        apply resultFits_pollServer h.poller hok hw₁
        apply hfits
        intro hnone
        have hmap := (h.poller.pollServer hw₁).2 c
        dsimp only at hmap
        rw [hnone] at hmap
        exact hcall (Option.map_eq_none_iff.1 hmap)
      · cases hw'
  | go d =>
      rw [step] at hw'
      split at hw'
      · cases hw'
      · rename_i call hcall
        split at hw'
        · cases hw'
          obtain hc | rfl := hc
          · exact (w.keepsResults_finish d call).step hfits hc
          · apply (w.keepsResults_finish d call).resultFits
            apply hfits
            rw [hcall]
            exact Option.some_ne_none call
        · cases hw'
  | add d p alloc =>
      rw [step] at hw'
      split at hw'
      · rename_i hd
        cases hw'
        apply resultFits_setClient hfits _ (hc.resolve_right id)
        rw [PollerClient.call_add]
        exact hd
      · cases hw'
  | remove d p =>
      rw [step] at hw'
      split at hw'
      · rename_i hd
        cases hw'
        apply resultFits_setClient hfits _ (hc.resolve_right id)
        rw [PollerClient.call_remove]
        exact hd
      · cases hw'
  | timeout d => exact (keepsResults_wake hw').step hfits (hc.resolve_right id)
  | resume d => exact (keepsResults_wake hw').step hfits (hc.resolve_right id)
  | setPoller p reserve alloc fuel =>
      obtain ⟨pollers, -, rfl⟩ := Option.map_eq_some_iff.1 hw'
      exact hfits c (hc.resolve_right id)
  | addServer r p alloc =>
      obtain ⟨pollers, -, rfl⟩ := Option.map_eq_some_iff.1 hw'
      exact hfits c (hc.resolve_right id)
  | removeServer r p =>
      obtain ⟨pollers, -, rfl⟩ := Option.map_eq_some_iff.1 hw'
      exact hfits c (hc.resolve_right id)

/-- In every guarded run, all clients in `poll` have a result that fits. -/
theorem resultFits_run {initItem : κ → P → Except Errno I} {ls : List (Label K P C κ)}
    {w : Polling K P C I}
    (hg : Transition.Guarded (step initItem) FindsOnce (init K P C I) ls)
    (hr : Transition.run (step initItem) (init K P C I) ls = some w) :
    Accounted w ∧ ∀ c, (w.clients c).call ≠ none → (w.clients c).ResultFits := by
  refine hg.invariant (P := fun w : Polling K P C I =>
    Accounted w ∧ ∀ c, (w.clients c).call ≠ none → (w.clients c).ResultFits) ?_ ?_ hr
  · rintro w l w' ⟨hacc, hfits⟩ hok hw'
    constructor
    · exact hacc.step hok.movesNoClient hw'
    · exact fun c hc => resultFits_step hacc hfits hok hw' (Or.inl hc)
  · constructor
    · exact accounted_init
    · exact fun c hc => absurd rfl hc

/-- In every interleaving in which no poll of the server finds an event again before its client
has run, and for every client that is in `poll` or returns from it: the result of the client
has every registration of the client once at most, and is not longer than what `add` has
reserved for it. -/
theorem resultFits_of_findsOnce (initItem : κ → P → Except Errno I)
    (ls : List (Label K P C κ)) (l : Label K P C κ) (w w' : Polling K P C I)
    (hg : Transition.Guarded (step initItem) FindsOnce (init K P C I) (ls ++ [l]))
    (hr : Transition.run (step initItem) (init K P C I) ls = some w)
    (hl : step initItem w l = some w') (c : C)
    (hc : (w'.clients c).call ≠ none ∨ l.Polls c) :
    (∀ p, (w'.clients c).mResult.count p ≤ (w'.clients c).mPollables.count p) ∧
      (w'.clients c).mResult.length ≤ (w'.clients c).mPollables.length := by
  obtain ⟨hls, hok, -⟩ := hg.append hr
  obtain ⟨hacc, hfits⟩ := resultFits_run hls hr
  have hresult := resultFits_step hacc hfits hok hl hc
  exact ⟨fun p => hresult.count_le p, hresult.length_le⟩

omit [DecidableEq K] [DecidableEq P] [DecidableEq C] in
theorem findsNew_nil (r : Option K) (w : Polling K P C I) : FindsNew r [] w :=
  ⟨List.nodup_nil, fun _ hi => absurd hi List.not_mem_nil⟩

omit [DecidableEq K] [DecidableEq P] [DecidableEq C] in
theorem findsNew_singleton {r : Option K} {i : ℕ} {p : P} {c : C} {w : Polling K P C I}
    (hi : (w.pollers.servers r).event i = some ⟨p, some c⟩) (hp : p ∉ (w.clients c).mResult) :
    FindsNew r [i] w := by
  refine ⟨List.pairwise_singleton _ i, fun j hj q d hq => ?_⟩
  obtain rfl := List.mem_singleton.1 hj
  cases hi.symm.trans hq
  exact hp

/-- Clients 1 and 2 wait for pollables 5 and 6, of which the first one has an event that the
waiter finds. Client 1 returns before the waiter polls again, and finds the other event. -/
def foundOnce : List (Label Bool ℕ ℕ Unit) :=
  [.add 1 5 true, .add 2 6 true, .poll 1 (-1) () (fun _ => true) [] none,
    .poll 2 (-1) () (fun _ => true) [] none, .serve () [0] none, .go 1, .serve () [0] none]

theorem resultFits_foundOnce :
    ∃ w w' : Polling Bool ℕ ℕ ℕ,
      Transition.run (step fun _ p => Except.ok p) (init Bool ℕ ℕ ℕ) foundOnce = some w ∧
      step (κ := Unit) (fun _ p => Except.ok p) w (.go 2) = some w' ∧
      (w.clients 1).mResult = [5] ∧ (w'.clients 2).mResult = [6] ∧
      (∀ p, (w'.clients 2).mResult.count p ≤ (w'.clients 2).mPollables.count p) ∧
      (w'.clients 2).mResult.length ≤ (w'.clients 2).mPollables.length := by
  refine ⟨_, _, rfl, rfl, rfl, rfl, resultFits_of_findsOnce (fun _ p => Except.ok p) foundOnce
    (.go 2) _ _ ?_ rfl rfl 2 (Or.inr rfl)⟩
  refine .cons trivial rfl (.cons trivial rfl (.cons (findsNew_nil _ _) rfl
    (.cons (findsNew_nil _ _) rfl (.cons (findsNew_singleton rfl List.not_mem_nil) rfl
    (.cons trivial rfl (.cons (findsNew_singleton rfl List.not_mem_nil) rfl
    (.cons trivial rfl trivial)))))))

/-- Client 1 waits for pollable 5. Client 3 tries pollable 7 twice before client 1
runs again, and both times the event for client 1 is found. -/
def foundTwice : List (Label Bool ℕ ℕ Unit) :=
  [.add 1 5 true, .add 3 7 true, .poll 1 (-1) () (fun _ => true) [] none,
    .poll 3 0 () (fun _ => true) [0] none, .poll 3 0 () (fun _ => true) [0] none, .go 1]

/-- The result has the only pollable of the client twice. -/
theorem not_resultFits_foundTwice :
    ∃ w : Polling Bool ℕ ℕ ℕ,
      Transition.run (step fun _ p => Except.ok p) (init Bool ℕ ℕ ℕ) foundTwice = some w ∧
      w.clients 1 = ⟨[5], [5, 5], none, none⟩ ∧
      ¬ (w.clients 1).mResult.count 5 ≤ (w.clients 1).mPollables.count 5 ∧
      ¬ (w.clients 1).mResult.length ≤ (w.clients 1).mPollables.length :=
  ⟨_, rfl, rfl, by decide, by decide⟩

end Polling

end Zth
