import Zth.Poller.Client
import Zth.Worker.Idle

/-!
# The waiter and its pollers

A worker whose waiter serves the clients of its pollers. What the waiter has to poll is what is
registered at the server in use. Every registration wakes the waiter, also one at another server,
and one that is moved by `setPoller`. But `setPoller` itself does not, when the server that is
used from then on holds registrations already.
-/

namespace Zth

variable {F Q W K P C I κ : Type*} [DecidableEq K]

namespace Pollers

theorem held_eq (w : Pollers K P C I) :
    w.held = if w.mPoller = none ∧ w.mDefaultPoller = false then []
      else (w.servers (w.mPoller.getD none)).metaItems := by
  rw [held, poller]
  cases w.mPoller with
  | some r => simp
  | none =>
      cases w.mDefaultPoller with
      | false =>
          simp [newDefault]
          rfl
      | true => simp

theorem held_poller (w : Pollers K P C I) : w.poller.1.held = w.held := by
  rw [held_eq, held_eq, poller]
  cases hp : w.mPoller with
  | some r => simp [hp]
  | none =>
      cases hd : w.mDefaultPoller with
      | false =>
          simp [newDefault, hp]
          rfl
      | true => simp [hp, hd]

/-- If nothing is registered at the server in use, that stays so when a server changes that does
not get its first registration. -/
theorem held_update {w : Pollers K P C I} (h : w.held = []) {r : Option K}
    {s : PollerServer P C I} (hs : (w.servers r).metaItems = [] → s.metaItems = []) :
    Pollers.held { w with servers := Function.update w.servers r s } = [] := by
  rw [held_eq] at h ⊢
  dsimp only
  split
  · rfl
  · rename_i hused
    rw [if_neg hused] at h
    by_cases hr : w.mPoller.getD none = r
    · rw [hr, Function.update_self]
      exact hs (hr ▸ h)
    · rw [Function.update_of_ne hr]
      exact h

variable [DecidableEq P] [DecidableEq C]

/-- When nothing is registered at a server, nothing is moved from it. -/
theorem metaItems_migrateTo {t : Servers K P C I} {src dst : Option K} {reserve : Bool}
    {alloc : ℕ → Bool} {fuel : ℕ} {x : Servers K P C I × Option Errno}
    (h : (t src).metaItems = []) (hx : t.migrateTo src dst reserve alloc fuel = some x)
    (r : Option K) : (x.1 r).metaItems = (t r).metaItems := by
  rw [Servers.migrateTo] at hx
  split at hx
  · cases fuel with
    | zero => cases hx
    | succ fuel =>
        rw [Servers.migrateLoop, h] at hx
        obtain rfl := Option.some.inj hx
        dsimp only
        by_cases hr : r = src
        · rw [hr, Function.update_self, h]
          rfl
        · rw [Function.update_of_ne hr]
  · obtain rfl := Option.some.inj hx
    rfl

/-- When nothing is registered at the server in use, `setPoller` only chooses another one. -/
theorem held_setPoller {w w' : Pollers K P C I} (h : w.held = []) {p : Option (Option K)}
    {reserve : Bool} {alloc : ℕ → Bool} {fuel : ℕ}
    (hw' : w.setPoller p reserve alloc fuel = some w') :
    w'.held = Pollers.held { w with mPoller := p } := by
  cases hq : w.mPoller with
  | none =>
      simp only [setPoller, hq] at hw'
      obtain rfl := Option.some.inj hw'
      rfl
  | some q =>
      have hitems : (w.servers q).metaItems = [] := by
        rw [held_eq, hq, if_neg (by simp)] at h
        exact h
      cases p with
      | some r =>
          simp only [setPoller, hq] at hw'
          obtain ⟨x, hx, rfl⟩ := Option.map_eq_some_iff.1 hw'
          rw [held_eq, held_eq, if_neg (by simp), if_neg (by simp)]
          exact metaItems_migrateTo hitems hx r
      | none =>
          simp only [setPoller, hq, hitems, List.isEmpty_nil, Bool.not_true, Bool.and_false,
            Bool.false_eq_true, if_false] at hw'
          split at hw'
          · rename_i hd
            obtain ⟨x, hx, rfl⟩ := Option.map_eq_some_iff.1 hw'
            rw [held_eq, held_eq, if_neg (by simp), if_neg (by simp [hd])]
            exact metaItems_migrateTo hitems hx none
          · obtain rfl := Option.some.inj hw'
            rfl

end Pollers

namespace Polling

/-- Something is registered at a server, which calls `wakeup` of the waiter. -/
def registers (w : Polling K P C I) : Label K P C κ → Bool
  | .poll c _ _ alloc _ _ => (List.range (w.clients c).mPollables.length).any alloc
  | .setPoller _ reserve alloc _ =>
      match w.pollers.mPoller with
      | none => false
      | some q => reserve && !(w.pollers.servers q).metaItems.isEmpty && alloc 0
  | .addServer _ _ alloc => alloc
  | _ => false

/-- There is something to poll, if something is registered at the server in use. -/
theorem polling_eq (w : Polling K P C I) : w.polling = !w.pollers.held.isEmpty := by
  rw [polling, Pollers.held_eq]
  cases w.pollers.mPoller with
  | some r => simp
  | none =>
      cases w.pollers.mDefaultPoller with
      | false => simp
      | true => simp

omit [DecidableEq K] in
theorem pollers_setClient [DecidableEq C] (c : C) (k : PollerClient K P) (w : Polling K P C I) :
    (w.setClient c k).pollers = w.pollers := rfl

theorem held_setServer {w : Polling K P C I} (h : w.pollers.held = []) {r : Option K}
    {s : PollerServer P C I} (hs : (w.pollers.servers r).metaItems = [] → s.metaItems = []) :
    (w.setServer r s).pollers.held = [] :=
  Pollers.held_update h hs

variable [DecidableEq P] [DecidableEq C]

omit [DecidableEq K] [DecidableEq P] in
theorem pollers_forward {r : Option K} {events : List ℕ} {w w' : Polling K P C I}
    (hw' : w.forward r events = some w') : w'.pollers = w.pollers := by
  induction events generalizing w with
  | nil =>
      obtain rfl := Option.some.inj hw'
      rfl
  | cons i is ih =>
      rw [forward] at hw'
      split at hw'
      · cases hw'
      · exact ih hw'
      · exact (ih hw').trans (pollers_setClient ..)

omit [DecidableEq P] in
theorem held_pollServer {init : P → Except Errno I} {r : Option K} {events : List ℕ}
    {res : Option Errno} {w : Polling K P C I} {x : Polling K P C I × Option Errno}
    (h : w.pollers.held = []) (hx : w.pollServer init r events res = some x) :
    x.1.pollers.held = [] := by
  have hserver : ∀ s, s.metaItems = ((w.pollers.servers r).poll init).1.metaItems →
      (w.setServer r s).pollers.held = [] := by
    intro s hs
    apply held_setServer h
    intro hnil
    rw [hs, PollerServer.metaItems_poll, hnil]
  rw [pollServer] at hx
  split at hx
  · rename_i s e heq
    obtain rfl := Option.some.inj hx
    exact hserver s (by rw [heq])
  · rename_i s heq
    obtain ⟨w', hw', rfl⟩ := Option.map_eq_some_iff.1 hx
    rw [pollers_forward hw']
    exact hserver s (by rw [heq])

theorem held_finish {w : Polling K P C I} (h : w.pollers.held = []) (c : C)
    (call : PollCall K) : (w.finish c call).pollers.held = [] := by
  rw [finish, pollers_setClient]
  apply held_setServer h
  intro hnil
  induction (w.clients c).mPollables with
  | nil => exact hnil
  | cons p ps ih =>
      apply List.Perm.eq_nil
      have hperm := (PollerServer.removeAll c ps (w.pollers.servers call.p)).metaItems_remove_perm
        p (some c)
      rw [ih, List.erase_nil] at hperm
      exact hperm

theorem held_afterTry {w : Polling K P C I} (h : w.pollers.held = []) (c : C) (timeout : ℤ)
    (call : PollCall K) : (w.afterTry c timeout call).pollers.held = [] := by
  rw [afterTry]
  split
  · exact held_finish h c call
  · split
    · exact held_finish h c call
    · split
      · exact held_finish h c call
      · split
        · exact h
        · exact h

omit [DecidableEq K] [DecidableEq P] [DecidableEq C] in
/-- Nothing is registered when there is no memory. -/
theorem addAll_of_forall (c : C) (alloc : ℕ → Bool) (i : ℕ) (ps : List P)
    (s : PollerServer P C I) (h : ∀ j < ps.length, alloc (i + j) = false) :
    s.addAll c alloc i ps = s := by
  induction ps generalizing i with
  | nil => rfl
  | cons p ps ih =>
      have hhead : alloc i = false := h 0 (Nat.succ_pos _)
      rw [PollerServer.addAll, PollerServer.add, hhead, if_neg (by simp)]
      apply ih
      intro j hj
      rw [Nat.add_assoc, Nat.add_comm 1 j]
      exact h (j + 1) (Nat.succ_lt_succ hj)

omit [DecidableEq P] in
theorem held_register {w : Polling K P C I} (h : w.pollers.held = []) (c : C)
    {alloc : ℕ → Bool} (halloc : ∀ j < (w.clients c).mPollables.length, alloc j = false) :
    (w.register c alloc).1.pollers.held = [] := by
  rw [register]
  dsimp only
  rw [pollers_setClient]
  have hpoller : w.pollers.poller.1.held = [] := by
    rw [Pollers.held_poller, h]
  apply held_setServer (w := { w with pollers := w.pollers.poller.1 }) hpoller
  intro hnil
  rw [addAll_of_forall]
  · exact hnil
  · intro j hj
    rw [Nat.zero_add]
    exact halloc j hj

omit [DecidableEq K] [DecidableEq P] in
theorem pollers_wake {c : C} {wait : Wait} {w w' : Polling K P C I}
    (hw' : w.wake c wait = some w') : w'.pollers = w.pollers := by
  rw [wake] at hw'
  split at hw'
  · cases hw'
  · obtain ⟨-, hw'⟩ := Option.ite_none_right_eq_some.1 hw'
    obtain rfl := Option.some.inj hw'
    rfl

/-- A call of a server that is not a first registration. -/
theorem held_server {initItem : κ → P → Except Errno I} {w w' : Polling K P C I}
    {r : Option K} {op : PollerServer.Op P C κ} (h : w.pollers.held = [])
    (hop : ∀ s s' : PollerServer P C I, s.metaItems = [] → s.step initItem op = some s' →
      s'.metaItems = [])
    (hw' : w.stepPollers initItem (.server r op) = some w') : w'.pollers.held = [] := by
  obtain ⟨pollers, hstep, rfl⟩ := Option.map_eq_some_iff.1 hw'
  rw [Pollers.step] at hstep
  split at hstep
  · cases hstep
  · obtain ⟨s, hs, rfl⟩ := Option.map_eq_some_iff.1 hstep
    exact Pollers.held_update h fun hnil => hop _ s hnil hs

/-- If nothing is registered at the server in use, that only changes by a registration, or when
another server is chosen. -/
theorem held_step {initItem : κ → P → Except Errno I} {w w' : Polling K P C I}
    {l : Label K P C κ} (h : w.pollers.held = []) (hw' : w.step initItem l = some w')
    (hl : w.registers l = false)
    (hset : ∀ p reserve alloc fuel, l ≠ .setPoller p reserve alloc fuel) :
    w'.pollers.held = [] := by
  cases l with
  | add c p alloc =>
      obtain ⟨-, hw'⟩ := Option.ite_none_right_eq_some.1 hw'
      obtain rfl := Option.some.inj hw'
      exact h
  | remove c p =>
      obtain ⟨-, hw'⟩ := Option.ite_none_right_eq_some.1 hw'
      obtain rfl := Option.some.inj hw'
      exact h
  | poll c timeout contents alloc events res =>
      obtain ⟨-, hw'⟩ := Option.ite_none_right_eq_some.1 hw'
      rw [poll] at hw'
      dsimp only at hw'
      split at hw'
      · obtain rfl := Option.some.inj hw'
        exact h
      · obtain ⟨x, hx, rfl⟩ := Option.map_eq_some_iff.1 hw'
        apply held_afterTry
        apply held_pollServer _ hx
        apply held_register h
        intro j hj
        rw [registers, List.any_eq_false] at hl
        exact Bool.eq_false_iff.2 (hl j (List.mem_range.2 hj))
  | serve contents events res =>
      obtain ⟨-, hw'⟩ := Option.ite_none_right_eq_some.1 hw'
      obtain ⟨x, hx, rfl⟩ := Option.map_eq_some_iff.1 hw'
      apply held_pollServer _ hx
      exact (Pollers.held_poller _).trans h
  | timeout c => exact (congrArg _ (pollers_wake hw')).trans h
  | resume c => exact (congrArg _ (pollers_wake hw')).trans h
  | go c =>
      rw [step] at hw'
      split at hw'
      · cases hw'
      · obtain ⟨-, hw'⟩ := Option.ite_none_right_eq_some.1 hw'
        obtain rfl := Option.some.inj hw'
        exact held_finish h c _
  | setPoller p reserve alloc fuel => exact absurd rfl (hset p reserve alloc fuel)
  | addServer r p alloc =>
      obtain rfl : alloc = false := hl
      apply held_server h _ hw'
      intro s s' hs hs'
      obtain rfl := Option.some.inj hs'
      exact hs
  | removeServer r p =>
      apply held_server h _ hw'
      intro s s' hs hs'
      obtain rfl := Option.some.inj hs'
      have hperm := s.metaItems_remove_perm p none
      rw [hs, List.erase_nil] at hperm
      exact hperm.eq_nil

end Polling

/-- An action of a worker that neither suspends the waiter from outside nor decides what there is
to poll. -/
def Action.external [DecidableEq F] (waiter : F) : Action F Q W → Bool
  | .suspend f _ => f != waiter
  | .setPolling _ => false
  | _ => true

/-- A worker and the pollers of its waiter. -/
structure Serving (F Q W K P C I : Type*) where
  worker : Worker F Q W
  polls : Polling K P C I

namespace Serving

/-- What happens next: something in the worker, a call of `scheduleTask` or `unscheduleTask`, or
something that has to do with the pollers. -/
inductive Label (F Q W K P C κ : Type*) where
  | worker (a : Action F Q W)
  | scheduleTask (w : W) (timeout : ℕ) (interval : Option ℕ)
  | unscheduleTask (w : W)
  | polls (l : Polling.Label K P C κ)

/-- After an operation of the worker. A fault ends everything. -/
def perform (x : Except Fault (Worker F Q W)) (polls : Polling K P C I)
    (s : Serving F Q W K P C I) : Serving F Q W K P C I :=
  match x with
  | .ok worker => ⟨worker, polls⟩
  | .error e => { s with worker := { s.worker with fault := some e } }

/-- While the waiter is suspended, nothing is in its list and nothing is registered at the server
in use. -/
def NothingToWaitFor (waiter : F) (s : Serving F Q W K P C I) : Prop :=
  (s.worker.fiber (some waiter)).state = .suspended →
    s.worker.waiting = [] ∧ s.polls.pollers.held = []

/-- While the waiter is suspended, `setPoller` only chooses a server at which nothing is
registered. -/
def ChoosesEmpty (waiter : F) (s : Serving F Q W K P C I) : Label F Q W K P C κ → Prop
  | .polls (.setPoller p _ _ _) => (s.worker.fiber (some waiter)).state = .suspended →
      Pollers.held { s.polls.pollers with mPoller := p } = []
  | _ => True

/-- The waiter is suspended only while it has nothing to wait for, and the worker knows whether
there is something to poll. -/
def Inv (waiter : F) (s : Serving F Q W K P C I) : Prop :=
  Worker.Idle waiter s.polls.polling s.worker

section Inv

variable {waiter : F} {s : Serving F Q W K P C I}

theorem Inv.held (h : Inv waiter s) (hs : (s.worker.fiber (some waiter)).state = .suspended) :
    s.polls.pollers.held = [] := by
  have hpolling := (h.idle hs).2
  rw [Polling.polling_eq] at hpolling
  simpa using hpolling

theorem Inv.nothingToWaitFor (h : Inv waiter s) : NothingToWaitFor waiter s :=
  fun hs => ⟨(h.idle hs).1, h.held hs⟩

omit [DecidableEq K] in
theorem Inv.perform (h : Inv waiter s) {x : Except Fault (Worker F Q W)}
    {polls : Polling K P C I}
    (hx : x.Sat (fun _ => True) (Worker.Idle waiter polls.polling)) :
    Inv waiter (s.perform x polls) := by
  cases x with
  | ok worker => exact hx
  | error e => exact ⟨⟨h.plain, h.frame, h.polling⟩, h.idle⟩

end Inv

/-- Nothing is moved by `setPoller` while the waiter is suspended. -/
theorem registers_setPoller {w : Polling K P C I} (h : w.pollers.held = [])
    (p : Option (Option K)) (reserve : Bool) (alloc : ℕ → Bool) (fuel : ℕ) :
    w.registers (.setPoller p reserve alloc fuel : Polling.Label K P C κ) = false := by
  rw [Polling.registers]
  cases hq : w.pollers.mPoller with
  | none => rfl
  | some q =>
      rw [Pollers.held_eq, hq, if_neg (by simp), Option.getD_some] at h
      simp [h]

section Step

variable [DecidableEq F]

/-- A new worker. -/
def init (waiter : F) (waitable : W → Waitable F Q) : Serving F Q W K P C I :=
  ⟨.init waiter waitable, .init K P C I⟩

omit [DecidableEq K] in
theorem inv_init (waiter : F) (waitable : W → Waitable F Q) :
    Inv waiter (init waiter waitable : Serving F Q W K P C I) :=
  Worker.idle_init waiter waitable

/-- The waiter polls at the end of its loop, and everything else is done by other fibers. -/
def mayPoll (waiter : F) (s : Worker F Q W) : Polling.Label K P C κ → Bool
  | .serve _ _ _ =>
      match s.waiterFrame waiter with
      | some .events => true
      | _ => false
  | .timeout _ => true
  | _ => s.inUserCode

/-- The operation of the worker for something that has to do with the pollers. -/
def wakeup (waiter : F) (s : Serving F Q W K P C I) (l : Polling.Label K P C κ)
    (polls : Polling K P C I) : Except Fault (Worker F Q W) :=
  let worker := { s.worker with polling := polls.polling }
  if s.polls.registers l then worker.resume waiter else .ok worker

variable [DecidableEq Q] [LinearOrder W] [DecidableEq P] [DecidableEq C]

/-- One step. -/
def step (created : Contexts F) (waiter : F) (initItem : κ → P → Except Errno I)
    (s : Serving F Q W K P C I) : Label F Q W K P C κ → Option (Serving F Q W K P C I)
  | .worker a =>
      if a.external waiter then
        (s.worker.step created waiter a).map fun worker => { s with worker := worker }
      else none
  | .scheduleTask w timeout interval =>
      if s.worker.fault = none ∧ s.worker.inUserCode ∧ s.worker.isFree w then
        some (s.perform ((s.worker.setWaitable w
          (Worker.makeWaitable timeout interval)).scheduleTask waiter w) s.polls)
      else none
  | .unscheduleTask w =>
      if s.worker.fault = none ∧ s.worker.inUserCode then
        some { s with worker := s.worker.unscheduleTask w }
      else none
  | .polls l =>
      if s.worker.fault = none ∧ mayPoll waiter s.worker l then
        (s.polls.step initItem l).map fun polls => s.perform (s.wakeup waiter l polls) polls
      else none

variable {created : Contexts F} {waiter : F} {initItem : κ → P → Except Errno I}
  {s t : Serving F Q W K P C I}

theorem held_stepPollers {w w' : Polling K P C I} (h : w.pollers.held = [])
    {p : Option (Option K)} {reserve : Bool} {alloc : ℕ → Bool} {fuel : ℕ}
    (hw' : w.step initItem (.setPoller p reserve alloc fuel) = some w') :
    w'.pollers.held = Pollers.held { w.pollers with mPoller := p } := by
  obtain ⟨pollers, hstep, rfl⟩ := Option.map_eq_some_iff.1 hw'
  rw [Pollers.step] at hstep
  split at hstep
  · cases hstep
  · exact Pollers.held_setPoller h hstep

omit [DecidableEq Q] [LinearOrder W] in
/-- Something that has to do with the pollers happens. -/
theorem Inv.wakeup (h : Inv waiter s) {l : Polling.Label K P C κ} {polls : Polling K P C I}
    (hpolls : s.polls.step initItem l = some polls)
    (hok : ChoosesEmpty waiter s (.polls l)) :
    (s.wakeup waiter l polls).Sat (fun _ => True) (Worker.Idle waiter polls.polling) := by
  rw [Serving.wakeup]
  have hloops : Worker.Loops waiter polls.polling { s.worker with polling := polls.polling } :=
    ⟨h.plain, h.frame, rfl⟩
  split
  · exact hloops.resume.mono fun _ ht => ht.idle
  · rename_i hregisters
    refine ⟨hloops, fun hs => ⟨(h.idle hs).1, ?_⟩⟩
    have hheld : polls.pollers.held = [] := by
      by_cases hset : ∃ p reserve alloc fuel, l = .setPoller p reserve alloc fuel
      · obtain ⟨p, reserve, alloc, fuel, rfl⟩ := hset
        rw [held_stepPollers (h.held hs) hpolls]
        exact hok hs
      · apply Polling.held_step (h.held hs) hpolls (Bool.eq_false_iff.2 hregisters)
        exact fun p reserve alloc fuel heq => hset ⟨p, reserve, alloc, fuel, heq⟩
    rw [Polling.polling_eq, hheld]
    rfl

/-- The step lemma. -/
theorem Inv.step (h : Inv waiter s) {l : Label F Q W K P C κ} (hok : ChoosesEmpty waiter s l)
    (hs : step created waiter initItem s l = some t) : Inv waiter t := by
  cases l with
  | worker a =>
      obtain ⟨hext, hs⟩ := Option.ite_none_right_eq_some.1 hs
      obtain ⟨worker, hworker, rfl⟩ := Option.map_eq_some_iff.1 hs
      apply Worker.Idle.step h hworker
      · rintro now rfl
        simp [Action.external] at hext
      · rintro p rfl
        simp [Action.external] at hext
  | scheduleTask w timeout interval =>
      obtain ⟨-, hs⟩ := Option.ite_none_right_eq_some.1 hs
      obtain rfl := Option.some.inj hs
      exact h.perform ((Worker.Idle.setWaitable h w _).toLoops.scheduleTask w)
  | unscheduleTask w =>
      obtain ⟨-, hs⟩ := Option.ite_none_right_eq_some.1 hs
      obtain rfl := Option.some.inj hs
      exact Worker.Idle.unscheduleTask h w
  | polls l =>
      obtain ⟨-, hs⟩ := Option.ite_none_right_eq_some.1 hs
      obtain ⟨polls, hpolls, rfl⟩ := Option.map_eq_some_iff.1 hs
      exact h.perform (h.wakeup hpolls hok)

/-- After `setPoller`, what is registered at the chosen server is there, and the waiter is still
suspended. -/
theorem Inv.choosesEmpty (h : Inv waiter s) {l : Label F Q W K P C κ}
    (hs : Serving.step created waiter initItem s l = some t) (ht : NothingToWaitFor waiter t) :
    ChoosesEmpty waiter s l := by
  cases l with
  | polls l =>
      cases l with
      | setPoller p reserve alloc fuel =>
          intro hsuspended
          have hheld := h.held hsuspended
          obtain ⟨-, hs⟩ := Option.ite_none_right_eq_some.1 hs
          obtain ⟨polls, hpolls, rfl⟩ := Option.map_eq_some_iff.1 hs
          rw [← held_stepPollers hheld hpolls]
          rw [Serving.wakeup, registers_setPoller hheld, if_neg (by simp)] at ht
          exact (ht hsuspended).2
      | _ => trivial
  | _ => trivial

/-- In every run, the waiter is suspended only while it has nothing to wait for, exactly if no
`setPoller` chooses a server at which something is registered while the waiter is suspended. -/
theorem nothingToWaitFor_iff (created : Contexts F) (waiter : F)
    (initItem : κ → P → Except Errno I) (waitable : W → Waitable F Q)
    {ls : List (Label F Q W K P C κ)} {u : Serving F Q W K P C I}
    (hr : Transition.run (step created waiter initItem) (init waiter waitable) ls = some u) :
    Transition.Always (step created waiter initItem) (NothingToWaitFor waiter)
        (init waiter waitable) ls ↔
      Transition.Guarded (step created waiter initItem) (ChoosesEmpty waiter)
        (init waiter waitable) ls := by
  apply Transition.always_iff_guarded_of_invariant (I := Inv waiter) _ _ _
    (inv_init waiter waitable) hr
  · exact fun s h => h.nothingToWaitFor
  · exact fun s l t h hok hs => h.step hok hs
  · exact fun s l t h hs ht => h.choosesEmpty hs ht

end Step

/-- Fiber 1 chooses server 0, at which nothing is registered, registers something there, and
yields. The waiter polls. -/
def chosenFirst : List (Label ℕ ℕ ℕ ℕ ℕ ℕ Unit) :=
  [.worker (.hatch 1), .worker (.work 1 1),
    .polls (.setPoller (some (some 0)) true (fun _ => true) 1),
    .polls (.addServer (some 0) 7 true), .worker (.yield none 2), .worker (.yield none 3),
    .worker (.loop 4), .worker (.expire false), .worker (.decide 5)]

theorem nothingToWaitFor_chosenFirst :
    ∃ u : Serving ℕ ℕ ℕ ℕ ℕ ℕ Unit,
      Transition.run (step .all 0 fun _ _ => .ok ())
        (init 0 fun _ => ⟨0, none, .timed, false⟩) chosenFirst = some u ∧
      u.polls.pollers.held = [⟨7, none⟩] ∧
      Transition.Always (step .all 0 fun _ _ => .ok ()) (NothingToWaitFor 0)
        (init 0 fun _ => ⟨0, none, .timed, false⟩) chosenFirst := by
  refine ⟨_, rfl, rfl, (nothingToWaitFor_iff _ 0 _ _ rfl).2 ?_⟩
  exact .cons trivial rfl (.cons trivial rfl (.cons (fun _ => rfl) rfl (.cons trivial rfl
    (.cons trivial rfl (.cons trivial rfl (.cons trivial rfl (.cons trivial rfl (.cons trivial rfl
    trivial))))))))

/-- Fiber 1 registers something at server 0, and yields. The waiter has nothing to poll, and
suspends itself. Then, fiber 1 chooses server 0. -/
def chosenLast : List (Label ℕ ℕ ℕ ℕ ℕ ℕ Unit) :=
  [.worker (.hatch 1), .worker (.work 1 1), .polls (.addServer (some 0) 7 true),
    .worker (.yield none 2), .worker (.yield none 3), .worker (.loop 4), .worker (.expire false),
    .worker (.decide 5), .polls (.setPoller (some (some 0)) true (fun _ => true) 1)]

theorem not_nothingToWaitFor_chosenLast :
    ∃ u : Serving ℕ ℕ ℕ ℕ ℕ ℕ Unit,
      Transition.run (step .all 0 fun _ _ => .ok ())
        (init 0 fun _ => ⟨0, none, .timed, false⟩) chosenLast = some u ∧
      u.worker.currentFiber = some 1 ∧ (u.worker.fiber (some 0)).state = .suspended ∧
      u.polls.pollers.held = [⟨7, none⟩] ∧ ¬ NothingToWaitFor 0 u := by
  refine ⟨_, rfl, rfl, rfl, rfl, fun h => ?_⟩
  exact absurd (h rfl).2 (by decide)

end Serving

end Zth
