import Mathlib.Data.BitVec
import Zth.Poller.Results

/-!
# The poller that uses `poll` of the operating system

`PollPoller::doPoll` gets a set of bits for every item, translates the ones that it knows to
events of a pollable, and forwards these. It counts the items with bits, so that it can stop
after the last one. What is counted and what is forwarded is not the same: there are bits
that it does not know, such as the one for a file descriptor that is not open.
-/

namespace Zth

variable {K P C I : Type*} [DecidableEq P] [DecidableEq C]

/-- The type of `Pollable::events`, with a bit for each of its flags. -/
abbrev Events := BitVec 5

namespace Pollable

def PollIn : Events := 1 <<< 0
def PollOut : Events := 1 <<< 1
def PollErr : Events := 1 <<< 2
def PollPri : Events := 1 <<< 3
def PollHup : Events := 1 <<< 4

end Pollable

/-- The type of `revents` of a `pollfd`. -/
abbrev Revents := BitVec 16

/-- What `doPoll` reads and writes: the clients, and `revents` of every pollable. -/
structure Observed (K P C I : Type*) where
  polling : Polling K P C I
  revents : P → Events

namespace PollPoller

-- The bits of `poll`, by their value on Linux.
def POLLIN : Revents := 0x001
def POLLPRI : Revents := 0x002
def POLLOUT : Revents := 0x004
def POLLERR : Revents := 0x008
def POLLHUP : Revents := 0x010
def POLLNVAL : Revents := 0x020

/-- The events of a pollable, by the bits of its item. -/
def translate (item : Revents) : Events :=
  let revents : Events := 0
  let revents := if item &&& POLLIN ≠ 0 then revents ||| Pollable.PollIn else revents
  let revents := if item &&& POLLOUT ≠ 0 then revents ||| Pollable.PollOut else revents
  let revents := if item &&& POLLERR ≠ 0 then revents ||| Pollable.PollErr else revents
  let revents := if item &&& POLLPRI ≠ 0 then revents ||| Pollable.PollPri else revents
  if item &&& POLLHUP ≠ 0 then revents ||| Pollable.PollHup else revents

/-- `event` of the server: the pollable at the index gets its events, and its client is told
if there are any. An index that is out of range fails an assertion. -/
def event (r : Option K) (revents : Events) (index : ℕ) (w : Observed K P C I) :
    Option (Observed K P C I) :=
  match (w.polling.pollers.servers r).event index with
  | none => none
  | some ⟨p, client⟩ =>
      let w := { w with revents := Function.update w.revents p revents }
      if revents ≠ 0 then
        match client with
        | none => some w
        | some c => some { w with polling := w.polling.setClient c ((w.polling.clients c).event p) }
      else
        some w

/-- The loop of `doPoll`, from the item with index `i` on. -/
def doPollLoop (r : Option K) : List Revents → ℤ → ℕ → Observed K P C I →
    Option (Observed K P C I)
  | [], _, _, w => some w
  | item :: items, res, i, w =>
      if res > 0 then
        let revents := if item ≠ 0 then translate item else 0
        let res := if item ≠ 0 then res - 1 else res
        (event r revents i w).bind (doPollLoop r items res (i + 1))
      else
        some w

/-- Do the actual poll, where `poll` of the operating system returns `res`, sets `errno` if
that is negative, and the bits of the items otherwise. -/
def doPoll (r : Option K) (res : ℤ) (errno : Errno) (items : List Revents)
    (w : Observed K P C I) : Option (Observed K P C I × Option Errno) :=
  if res < 0 then some (w, some errno)
  else if res = 0 then some (w, none)
  else (doPollLoop r items res 0 w).map fun w => (w, none)

/-- The indices of the items with bits of the given kind. -/
def found (q : Revents → Bool) (items : List Revents) : List ℕ :=
  (List.range items.length).filter fun i => q (items.getD i 0)

/-- At least one bit is known to `doPoll`. -/
def Known (item : Revents) : Prop :=
  item &&& POLLIN ≠ 0 ∨ item &&& POLLOUT ≠ 0 ∨ item &&& POLLERR ≠ 0 ∨ item &&& POLLPRI ≠ 0 ∨
    item &&& POLLHUP ≠ 0

instance : DecidablePred Known := fun item => by
  unfold Known
  infer_instance

/-- The fiber in `poll` of the client does not wait. -/
def Awake (k : PollerClient K P) : Prop := ∃ call, k.call = some call ∧ call.wait = .running

/-- All items with bits are passed to their clients, and a client that is blocked without a
timeout is woken. -/
structure DropsNothing (r : Option K) (items : List Revents) (w w' : Polling K P C I) : Prop where
  event : ∀ p c, (w.clients c).mResult.count p +
    (found (· ≠ 0) items).countP (fun i => (w.pollers.servers r).event i = some ⟨p, some c⟩) ≤
      (w'.clients c).mResult.count p
  wake : ∀ i ∈ found (· ≠ 0) items, ∀ p c,
    (w.pollers.servers r).event i = some ⟨p, some c⟩ → ∀ call, (w.clients c).call = some call →
      call.wait = .suspended → Awake (w'.clients c)

/-- A flag that is set is not cleared by the next ones. -/
theorem ite_or_ne_zero_iff {q : Prop} [Decidable q] (e : Events) {f : Events} (hf : f ≠ 0) :
    (if q then e ||| f else e) ≠ 0 ↔ e ≠ 0 ∨ q := by
  have hor : e ||| f ≠ 0 := fun h => hf (BitVec.or_eq_zero_iff.1 h).2
  split
  · rename_i hq
    exact iff_of_true hor (Or.inr hq)
  · rename_i hq
    rw [or_iff_left hq]

theorem translate_ne_zero_iff (item : Revents) : translate item ≠ 0 ↔ Known item := by
  have hzero : ¬ (0 : Events) ≠ 0 := fun h => h rfl
  rw [translate, Known, ite_or_ne_zero_iff _ (by decide), ite_or_ne_zero_iff _ (by decide),
    ite_or_ne_zero_iff _ (by decide), ite_or_ne_zero_iff _ (by decide),
    ite_or_ne_zero_iff _ (by decide), or_iff_right hzero, or_assoc, or_assoc, or_assoc]

theorem Known.ne_zero {item : Revents} (h : Known item) : item ≠ 0 := by
  rintro rfl
  revert h
  decide

/-- An item gets an event if and only if `doPoll` knows one of its bits. -/
theorem ite_translate_ne_zero_iff (item : Revents) :
    (if item ≠ 0 then translate item else 0) ≠ 0 ↔ Known item := by
  by_cases hzero : item = 0
  · have hnot : ¬ item ≠ 0 := fun h => h hzero
    rw [if_neg hnot]
    exact iff_of_false (fun h => h rfl) fun h => hnot h.ne_zero
  · rw [if_pos hzero]
    exact translate_ne_zero_iff item

/-- The counter of the loop is the number of items with bits that are left. -/
theorem countP_left {all : List Revents} {i n : ℕ} (hi : i < all.length) {res : ℤ}
    (hres : res = (List.range' i (n + 1)).countP fun j => all.getD j 0 ≠ 0) :
    (if all[i] ≠ 0 then res - 1 else res) =
      (List.range' (i + 1) n).countP fun j => all.getD j 0 ≠ 0 := by
  rw [List.range'_succ, List.countP_cons, List.getD_eq_getElem _ _ hi] at hres
  by_cases hzero : all[i] = 0
  · rw [if_neg fun h => h hzero]
    simpa [hzero] using hres
  · simp only [decide_eq_true_eq] at hres
    rw [if_pos hzero] at hres ⊢
    omega

/-- One event is forwarded, if there is one. -/
theorem event_forward {r : Option K} {i : ℕ} {w : Observed K P C I}
    (hi : i < (w.polling.pollers.servers r).metaItems.length) (revents : Events) :
    ∃ w', event r revents i w = some w' ∧ w'.polling.pollers = w.polling.pollers ∧
      ∀ is, w.polling.forward r (if revents ≠ 0 then i :: is else is) =
        w'.polling.forward r is := by
  obtain ⟨⟨p, client⟩, hget⟩ : ∃ m, (w.polling.pollers.servers r).event i = some m :=
    ⟨_, List.getElem?_eq_getElem hi⟩
  rw [event, hget]
  by_cases hrevents : revents = 0
  · subst hrevents
    exact ⟨_, rfl, rfl, fun _ => rfl⟩
  · dsimp only
    rw [if_pos hrevents]
    cases client with
    | none =>
        refine ⟨_, rfl, rfl, fun is => ?_⟩
        rw [if_pos hrevents, Polling.forward, hget]
    | some c =>
        refine ⟨_, rfl, rfl, fun is => ?_⟩
        rw [if_pos hrevents, Polling.forward, hget]

/-- The loop forwards the events of the items that are left. It may stop where no item has
bits anymore. -/
theorem doPollLoop_forward {r : Option K} {all : List Revents} {w : Observed K P C I}
    (hlen : all.length = (w.polling.pollers.servers r).metaItems.length) {i n : ℕ}
    (hn : i + n = all.length) {res : ℤ}
    (hres : res = (List.range' i n).countP fun j => all.getD j 0 ≠ 0) :
    ∃ w', doPollLoop r (all.drop i) res i w = some w' ∧
      w.polling.forward r ((List.range' i n).filter fun j => Known (all.getD j 0)) =
        some w'.polling := by
  induction n generalizing i res w with
  | zero =>
      rw [Nat.add_zero] at hn
      rw [List.drop_eq_nil_of_le (Nat.le_of_eq hn.symm)]
      exact ⟨w, rfl, rfl⟩
  | succ n ih =>
      have hi : i < all.length := by omega
      have hget : all.getD i 0 = all[i] := List.getD_eq_getElem _ _ hi
      rw [List.drop_eq_getElem_cons hi, doPollLoop]
      by_cases hpos : res > 0
      · rw [if_pos hpos]
        dsimp only
        set revents : Events := if all[i] ≠ 0 then translate all[i] else 0
        have hknown : revents ≠ 0 ↔ Known (all.getD i 0) := by
          rw [hget]
          exact ite_translate_ne_zero_iff _
        obtain ⟨w₁, hevent, hpollers, hforward⟩ := event_forward (hlen ▸ hi) revents
        rw [← hpollers] at hlen
        obtain ⟨w', hrun, hrest⟩ := ih hlen (by omega) (countP_left hi hres)
        refine ⟨w', ?_, ?_⟩
        · rw [hevent, Option.bind_some, hrun]
        · rw [← hrest, ← hforward, List.range'_succ, List.filter_cons]
          simp only [decide_eq_true_eq, hknown]
      · -- All bits were seen.
        rw [if_neg hpos]
        refine ⟨w, rfl, ?_⟩
        have hnone : (List.range' i (n + 1)).filter (fun j => Known (all.getD j 0)) = [] := by
          have hzero : (List.range' i (n + 1)).countP (fun j => all.getD j 0 ≠ 0) = 0 := by
            omega
          apply List.filter_eq_nil_iff.2
          intro j hj hknown
          apply List.countP_eq_zero.1 hzero j hj
          exact decide_eq_true (of_decide_eq_true hknown).ne_zero
        rw [hnone]
        rfl

theorem mem_found {q : Revents → Bool} {items : List Revents} {i : ℕ} :
    i ∈ found q items ↔ i < items.length ∧ q (items.getD i 0) = true := by
  rw [found, List.mem_filter, List.mem_range]

/-- What is known is found among what is there. -/
theorem found_sublist (items : List Revents) :
    List.Sublist (found Known items) (found (· ≠ 0) items) := by
  apply List.monotone_filter_right
  intro i hi
  exact decide_eq_true (of_decide_eq_true hi).ne_zero

theorem countP_range_getD (q : Revents → Bool) (items : List Revents) :
    (List.range items.length).countP (fun i => q (items.getD i 0)) = items.countP q := by
  have hmap : (List.range items.length).map (fun i => items.getD i 0) = items := by
    apply List.ext_getElem
    · rw [List.length_map, List.length_range]
    · intro i _ hi
      rw [List.getElem_map, List.getElem_range, List.getD_eq_getElem _ _ hi]
  calc
    (List.range items.length).countP (fun i => q (items.getD i 0))
      = ((List.range items.length).map fun i => items.getD i 0).countP q :=
        List.countP_map.symm
    _ = items.countP q := by rw [hmap]

theorem doPollLoop_zero (r : Option K) (items : List Revents) (i : ℕ) (w : Observed K P C I) :
    doPollLoop r items 0 i w = some w := by
  cases items with
  | nil => rfl
  | cons item items => rw [doPollLoop, if_neg (lt_irrefl 0)]

/-- All items with bits that `doPoll` knows are forwarded, and no others. -/
theorem doPoll_forward {r : Option K} {items : List Revents} {w : Observed K P C I}
    (hlen : items.length = (w.polling.pollers.servers r).metaItems.length) (errno : Errno) :
    ∃ w', doPoll r (items.countP (· ≠ 0)) errno items w = some (w', none) ∧
      w.polling.forward r (found Known items) = some w'.polling := by
  have hcount : ((items.countP (· ≠ 0) : ℕ) : ℤ) =
      (List.range' 0 items.length).countP fun j => items.getD j 0 ≠ 0 := by
    rw [← List.range_eq_range']
    exact congrArg _ (countP_range_getD (fun item => item ≠ 0) items).symm
  obtain ⟨w', hrun, hforward⟩ := doPollLoop_forward hlen (Nat.zero_add _) hcount
  rw [← List.range_eq_range'] at hforward
  refine ⟨w', ?_, hforward⟩
  rw [List.drop_zero] at hrun
  rw [doPoll, if_neg (by omega)]
  split
  · rename_i hzero
    rw [hzero, doPollLoop_zero] at hrun
    cases hrun
    rfl
  · rw [hrun]
    rfl

/-- If `doPoll` knows none of the bits, its clients go on waiting, and the next poll finds the
same again. -/
theorem doPoll_of_unknown {r : Option K} {items : List Revents} {w : Observed K P C I}
    (hlen : items.length = (w.polling.pollers.servers r).metaItems.length) (errno : Errno)
    (h : ∀ item ∈ items, ¬ Known item) :
    ∃ w', doPoll r (items.countP (· ≠ 0)) errno items w = some (w', none) ∧
      w'.polling = w.polling := by
  obtain ⟨w', hrun, hforward⟩ := doPoll_forward hlen errno
  have hnil : found Known items = [] := by
    apply List.filter_eq_nil_iff.2
    intro i hi hknown
    have hget := List.getD_eq_getElem items 0 (List.mem_range.1 hi)
    rw [hget] at hknown
    exact h _ (List.getElem_mem _) (of_decide_eq_true hknown)
  rw [hnil] at hforward
  exact ⟨w', hrun, (Option.some.inj hforward).symm⟩

omit [DecidableEq P] in
theorem awake_event {k : PollerClient K P} (h : k.call ≠ none) (p : P) : Awake (k.event p) := by
  obtain ⟨call, hcall⟩ := Option.ne_none_iff_exists'.1 h
  refine ⟨{ call with wait := .running }, ?_, rfl⟩
  rw [PollerClient.event, hcall]
  rfl

omit [DecidableEq P] in
/-- An event wakes its client, which is not put to sleep by other events. -/
theorem awake_forward {r : Option K} {events : List ℕ} {w w' : Polling K P C I} {c : C}
    (hw' : w.forward r events = some w')
    (h : Awake (w.clients c) ∨ (w.clients c).call ≠ none ∧
      ∃ i ∈ events, ∃ p, (w.pollers.servers r).event i = some ⟨p, some c⟩) :
    Awake (w'.clients c) := by
  induction events generalizing w with
  | nil =>
      cases hw'
      exact h.resolve_right (by simp)
  | cons i is ih =>
      rw [Polling.forward] at hw'
      split at hw'
      · cases hw'
      · rename_i q hq
        apply ih hw'
        simpa [hq] using h
      · rename_i q d hq
        apply ih hw'
        by_cases hc : c = d
        · subst hc
          left
          have hclient : (w.setClient c ((w.clients c).event q)).clients c =
              (w.clients c).event q := Function.update_self ..
          rw [hclient]
          apply awake_event
          rcases h with ⟨call, hcall, -⟩ | ⟨hne, -⟩
          · exact hcall ▸ Option.some_ne_none call
          · exact hne
        · have hclient : (w.setClient d ((w.clients d).event q)).clients c = w.clients c :=
            Function.update_of_ne hc _ _
          rw [hclient]
          rcases h with h | ⟨hne, j, hj, p, hp⟩
          · exact Or.inl h
          · -- The event at `i` is not one of `c`.
            have hji : j ≠ i := by
              rintro rfl
              rw [hq] at hp
              cases hp
              exact hc rfl
            exact Or.inr ⟨hne, j, List.mem_of_ne_of_mem hji hj, p, hp⟩

/-- `doPoll` passes an event to the client of every item with bits if it knows one of these
bits. -/
theorem doPoll_dropsNothing_iff {r : Option K} {items : List Revents} {w : Observed K P C I}
    (hlen : items.length = (w.polling.pollers.servers r).metaItems.length) (errno : Errno) :
    ∃ w', doPoll r (items.countP (· ≠ 0)) errno items w = some (w', none) ∧
      (DropsNothing r items w.polling w'.polling ↔
        ∀ i ∈ found (· ≠ 0) items, ∀ p c,
          (w.polling.pollers.servers r).event i = some ⟨p, some c⟩ →
            Known (items.getD i 0)) := by
  obtain ⟨w', hrun, hforward⟩ := doPoll_forward hlen errno
  refine ⟨w', hrun, fun h i hi p c hm => ?_, fun h => ⟨fun p c => ?_, ?_⟩⟩
  · have hevent := h.event p c
    rw [(Polling.count_mResult_forward hforward c).2 p, List.countP_eq_length_filter,
      List.countP_eq_length_filter] at hevent
    -- As many events are forwarded as there are, so the ones with known bits are all.
    have hall := ((found_sublist items).filter fun j =>
      (w.polling.pollers.servers r).event j = some ⟨p, some c⟩).eq_of_length_le
        (Nat.le_of_add_le_add_left hevent)
    have hmem := hall ▸ List.mem_filter.2 ⟨hi, decide_eq_true hm⟩
    exact of_decide_eq_true (mem_found.1 (List.mem_filter.1 hmem).1).2
  · rw [(Polling.count_mResult_forward hforward c).2 p]
    apply Nat.add_le_add_left
    rw [found, found, List.countP_filter, List.countP_filter]
    apply List.countP_mono_left
    intro i hi hready
    rw [Bool.and_eq_true, decide_eq_true_eq] at hready ⊢
    have hfound : i ∈ found (· ≠ 0) items := mem_found.2 ⟨List.mem_range.1 hi, hready.2⟩
    exact ⟨hready.1, decide_eq_true (h i hfound p c hready.1)⟩
  · intro i hi p c hm call hcall _
    apply awake_forward hforward
    right
    refine ⟨hcall ▸ Option.some_ne_none call, i, ?_, p, hm⟩
    exact mem_found.2 ⟨(mem_found.1 hi).1, decide_eq_true (h i hi p c hm)⟩

/-- A client polls two file descriptors without a timeout. -/
def twoFds : Observed Bool ℕ ℕ Unit where
  polling := {
    pollers := {
      servers := fun _ => ⟨[⟨5, some 0⟩, ⟨6, some 0⟩], [(), ()]⟩
      mPoller := none
      mDefaultPoller := true }
    clients := fun _ => ⟨[5, 6], [], some ⟨none, none, .suspended⟩, none⟩ }
  revents := fun _ => 0

theorem doPoll_dropsNothing_twoFds :
    [0, POLLIN ||| POLLNVAL].length = (twoFds.polling.pollers.servers none).metaItems.length ∧
      ∃ w', doPoll none (([0, POLLIN ||| POLLNVAL] : List Revents).countP (· ≠ 0)) .einval
          [0, POLLIN ||| POLLNVAL] twoFds = some (w', none) ∧
        (DropsNothing none [0, POLLIN ||| POLLNVAL] twoFds.polling w'.polling ↔
          ∀ i ∈ found (· ≠ 0) [0, POLLIN ||| POLLNVAL], ∀ p c,
            (twoFds.polling.pollers.servers none).event i = some ⟨p, some c⟩ →
              Known ([0, POLLIN ||| POLLNVAL].getD i 0)) :=
  ⟨rfl, doPoll_dropsNothing_iff rfl .einval⟩

/-- The first one is closed. The client is not told, and waits on. -/
theorem not_dropsNothing_twoFds :
    ∃ w', doPoll none 1 .einval [POLLNVAL, 0] twoFds = some (w', none) ∧
      ¬ DropsNothing none [POLLNVAL, 0] twoFds.polling w'.polling ∧
      ¬ Awake (w'.polling.clients 0) := by
  refine ⟨_, rfl, fun h => ?_, ?_⟩
  · exact absurd (h.event 5 0) (by decide)
  · rintro ⟨call, hcall, hwait⟩
    cases hcall
    cases hwait

end PollPoller

end Zth
