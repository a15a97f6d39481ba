import Zth.Library.Rotation
import Zth.List.Sequence
import Zth.Worker.Schedule

/-!
# Round robin

`schedule` without a preference takes the first fiber of the runnable queue, and
rotates the queue to the fiber behind it, which it finds with a cyclic iterator.
So the runnable queue is a list that is picked from in turn: first the linked
structure is shown to be that, and then that this is what `schedule` does to the
queue of a worker. Both pick the same fibers, and between two picks of a fiber, the
others that stay are picked once each, always in the same order.
-/

namespace Zth

namespace LinkedList

variable {F U : Type*} [DecidableEq F] [Inhabited U]

/-- The fiber that `schedule` tries next, if there is one, and the rotated queue. -/
def pick (enableAssert : Bool) (fuel : ℕ) (s : LinkedList F U) :
    Option (LinkedList F U × List F) :=
  (empty enableAssert s).bind fun b =>
    if b then some (s, [])
    else
      (front enableAssert s).bind fun f =>
        (behind enableAssert fuel f s).bind fun next =>
          (rotate enableAssert fuel next s).map (·, [f])

/-- What may happen to the runnable queue. -/
def turn (enableAssert : Bool) (fuel : ℕ) (s : LinkedList F U) :
    Rotation.Event F → Option (LinkedList F U × List F)
  | .pick => pick enableAssert fuel s
  | .addFront f => (pushFront enableAssert f s).map fun (s, _) => (s, [])
  | .addBack f => (pushBack enableAssert f s).map fun (s, _) => (s, [])
  | .remove f => (erase enableAssert fuel f s).map fun (s, _) => (s, [])

/-- A runnable queue, and the fibers that were picked from it so far. -/
structure Turns (F U : Type*) where
  queue : LinkedList F U
  picks : List F

def Turns.step (enableAssert : Bool) (fuel : ℕ) (s : Turns F U) (e : Rotation.Event F) :
    Option (Turns F U) :=
  (turn enableAssert fuel s.queue e).map fun (queue, picked) => ⟨queue, s.picks ++ picked⟩

omit [Inhabited U] in
/-- The first fiber is picked and goes to the end of the queue. -/
theorem Represents.pick {enableAssert : Bool} {s : LinkedList F U} {f : F} {l : List F}
    (h : Represents enableAssert s (f :: l)) {fuel : ℕ} (hf : (f :: l).length < fuel) :
    ∃ t, LinkedList.pick enableAssert fuel s = some (t, [f]) ∧
      Represents enableAssert t (l ++ [f]) := by
  have hbehind : LinkedList.behind enableAssert fuel f s = (l ++ [f]).head? := by
    have := Represents.behind (a := []) (b := l) h hf
    rwa [List.append_nil] at this
  rw [LinkedList.pick, h.empty_eq, h.front_eq, List.head?_cons]
  simp only [Option.bind_some, List.isEmpty_cons, Bool.false_eq_true, if_false, hbehind]
  cases l with
  | nil =>
      obtain ⟨t, ht, hrep⟩ := h.rotate hf (List.mem_singleton_self f)
      refine ⟨t, ?_, by simpa using hrep⟩
      rw [List.nil_append, List.head?_cons, Option.bind_some, ht]
      rfl
  | cons g l =>
      have hne : f ≠ g := by
        have := h.nodup
        simp only [List.nodup_cons, List.mem_cons, not_or] at this
        exact this.1.1
      obtain ⟨t, ht, hrep⟩ := h.rotate (e := g) hf (by simp)
      refine ⟨t, ?_, ?_⟩
      · rw [List.cons_append, List.head?_cons, Option.bind_some, ht]
        rfl
      · have hidx : List.idxOf g (f :: g :: l) = 1 := by simp [hne]
        rw [hidx] at hrep
        simpa using hrep

/-- What may happen to a list that is picked from in turn, happens to the runnable queue. -/
theorem Represents.turn {enableAssert : Bool} {s : LinkedList F U} {l l' : List F}
    (h : Represents enableAssert s l) {fuel : ℕ} (hf : l.length < fuel)
    {e : Rotation.Event F} (he : Rotation.step l e = some l') :
    ∃ t, LinkedList.turn enableAssert fuel s e = some (t, Rotation.picked l e) ∧
      Represents enableAssert t l' := by
  cases e with
  | pick =>
      cases he
      cases l with
      | nil =>
          refine ⟨s, ?_, h⟩
          rw [LinkedList.turn, LinkedList.pick, h.empty_eq]
          rfl
      | cons f l => exact h.pick hf
  | addFront f =>
      obtain ⟨hmem, ⟨⟩⟩ := Option.ite_none_left_eq_some.1 he
      obtain ⟨t, it, ht, hrep⟩ := h.pushFront hmem
      exact ⟨t, by rw [LinkedList.turn, ht]; rfl, hrep⟩
  | addBack f =>
      obtain ⟨hmem, ⟨⟩⟩ := Option.ite_none_left_eq_some.1 he
      obtain ⟨t, it, ht, hrep⟩ := h.pushBack hmem
      exact ⟨t, by rw [LinkedList.turn, ht]; rfl, hrep⟩
  | remove f =>
      obtain ⟨hmem, ⟨⟩⟩ := Option.ite_none_right_eq_some.1 he
      obtain ⟨t, u, ht, hrep⟩ := h.erase hf hmem
      exact ⟨t, by rw [LinkedList.turn, ht]; rfl, hrep⟩

omit [Inhabited U] in
/-- At most one fiber is added. -/
theorem length_rotation_le {l l' : List F} {e : Rotation.Event F}
    (he : Rotation.step l e = some l') : l'.length ≤ l.length + 1 := by
  cases e with
  | pick =>
      cases he
      cases l <;> simp
  | addFront f =>
      obtain ⟨-, ⟨⟩⟩ := Option.ite_none_left_eq_some.1 he
      exact le_rfl
  | addBack f =>
      obtain ⟨-, ⟨⟩⟩ := Option.ite_none_left_eq_some.1 he
      rw [List.length_append, List.length_singleton]
  | remove f =>
      obtain ⟨-, ⟨⟩⟩ := Option.ite_none_right_eq_some.1 he
      have := List.length_erase_le (a := f) (l := l)
      omega

/-- The run lemma. -/
theorem Represents.turns {enableAssert : Bool} {s : Turns F U} {l l' : List F}
    (h : Represents enableAssert s.queue l) {fuel : ℕ} {es : List (Rotation.Event F)}
    (hf : l.length + es.length < fuel) (hr : Transition.run Rotation.step l es = some l') :
    ∃ t, Transition.run (Turns.step enableAssert fuel) s es = some t ∧
      Represents enableAssert t.queue l' ∧ t.picks = s.picks ++ Rotation.picks l es := by
  induction es generalizing s l with
  | nil =>
      rw [Transition.run_nil] at hr
      obtain rfl := Option.some.inj hr
      exact ⟨s, rfl, h, (List.append_nil _).symm⟩
  | cons e es ih =>
      obtain ⟨l₁, he, hr⟩ := Transition.run_cons_eq_some_iff.1 hr
      rw [List.length_cons] at hf
      have hlen := length_rotation_le he
      have hlt : l.length < fuel := by omega
      obtain ⟨t, ht, hrep⟩ := h.turn hlt he
      obtain ⟨u, hu, hrep', hpicks⟩ :=
        ih (s := ⟨t, s.picks ++ Rotation.picked l e⟩) hrep (by omega) hr
      refine ⟨u, Transition.run_cons_eq_some_iff.2 ⟨_, ?_, hu⟩, hrep', ?_⟩
      · rw [Turns.step, ht]
        rfl
      · rw [hpicks, Rotation.picks_cons he, List.append_assoc]

end LinkedList

namespace Worker

variable {F Q W : Type*} [DecidableEq F]

/-- `Fiber::run` leaves the queue alone. -/
theorem runnableQueue_dispatch (next : Option F) (s : Worker F Q W) :
    (dispatch next s).Sat (fun _ => True) fun x => x.1.runnableQueue = s.runnableQueue := by
  rw [dispatch]
  split
  · split
    · trivial
    · rfl
  · split
    · rfl
    · trivial
  · rfl
  all_goals trivial

theorem runnableQueue_run (created : Contexts F) (next : Option F) (s : Worker F Q W) :
    (Worker.run created next s).Sat (fun _ => True) fun x =>
      x.1.runnableQueue = s.runnableQueue :=
  sat_run (fun _ _ => runnableQueue_dispatch next _) (fun _ _ => trivial)
    fun _ => runnableQueue_dispatch next s

theorem runnableQueue_remove (f : F) (s : Worker F Q W) :
    (remove f s).Sat (fun _ => True) fun t => f ∈ s.runnableQueue ∧
      t.runnableQueue = s.runnableQueue.erase f ∧ t.currentFiber = s.currentFiber := by
  rw [remove]
  split
  · exact ⟨‹_›, rfl, rfl⟩
  · trivial

/-- An attempt with the first fiber of the queue picks it. -/
theorem pick_of_attempt (created : Contexts F) (s : Worker F Q W) :
    (attempt created s.runnableQueue.head? s).Sat (fun _ => True) fun x =>
      Rotation.step s.runnableQueue .pick = some x.1.runnableQueue := by
  cases hq : s.runnableQueue with
  | nil =>
      refine (runnableQueue_run created none s).mono fun x hx => ?_
      rw [hx, hq]
      rfl
  | cons f l =>
      rw [List.head?_cons, attempt, if_pos (by simp [hq])]
      refine (runnableQueue_run created _ _).mono fun x hx => ?_
      rw [hx, hq, rotateBehind_cons]
      rfl

/-- The loop of `schedule` without a preference, and the fibers that it takes from the front
of the queue. It takes another one each time the one before was dead and is removed. -/
def reschedulePicking (created : Contexts F) :
    ℕ → Bool → Worker F Q W → Except Fault ((Worker F Q W × Schedule) × List F)
  | 0, _, _ => .error .endless
  | n + 1, did, s =>
      let next := s.runnableQueue.head?
      (attempt created next s).bind fun
        | (s, .switched) => .ok ((s, .switched), next.toList)
        | (s, .eagain) => .ok ((s, .returned did), next.toList)
        | (s, .eperm) =>
            match next with
            | none => .error .abort
            | some f =>
                if s.currentFiber = some f then
                  (attempt created none s).bind fun
                    | (s, .switched) => .ok ((s, .switched), [f])
                    | (_, _) => .error .abort
                else
                  (remove f s).bind fun s =>
                    (reschedulePicking created n true s).map fun x => (x.1, f :: x.2)

/-- `schedule` without a preference, and the fibers that it picks. When the time is up, it
goes to the worker fiber instead. -/
def schedulePicking (created : Contexts F) (now : ℕ) (s : Worker F Q W) :
    Except Fault ((Worker F Q W × Schedule) × List F) :=
  if s.disableContextSwitch ≠ 0 then .ok ((s, .returned true), [])
  else if s.runEnd ≠ 0 ∧ s.runEnd < now then
    (reschedule created (s.runnableQueue.length + 1) (some none) false s).map (·, [])
  else reschedulePicking created (s.runnableQueue.length + 1) false s

/-- The picks are only noted. -/
theorem reschedulePicking_map_fst (created : Contexts F) (n : ℕ) (did : Bool)
    (s : Worker F Q W) :
    (reschedulePicking created n did s).map Prod.fst = reschedule created n none did s := by
  induction n generalizing did s with
  | zero => rfl
  | succ n ih =>
      rw [reschedulePicking, reschedule]
      dsimp only [Option.getD_none]
      cases attempt created s.runnableQueue.head? s with
      | error e => rfl
      | ok x =>
          obtain ⟨t, _ | _ | _⟩ := x
          · rfl
          · rfl
          · cases s.runnableQueue.head? with
            | none => rfl
            | some f =>
                simp only [Except.bind]
                split
                · cases attempt created none t with
                  | error e => rfl
                  | ok y => obtain ⟨u, _ | _ | _⟩ := y <;> rfl
                · cases remove f t with
                  | error e => rfl
                  | ok u =>
                      dsimp only
                      rw [← ih]
                      cases reschedulePicking created n true u <;> rfl

theorem schedulePicking_map_fst (created : Contexts F) (now : ℕ) (s : Worker F Q W) :
    (schedulePicking created now s).map Prod.fst = schedule created none now s := by
  rw [schedulePicking, schedule]
  split
  · rfl
  · simp only [preferable, Bool.not_true, Bool.false_eq_true, if_false]
    split
    · cases reschedule created (s.runnableQueue.length + 1) (some none) false s <;> rfl
    · exact reschedulePicking_map_fst created _ _ s

/-- What the queue goes through in a call of `schedule`: picks, and the removal of fibers that
were picked. -/
def Rotates (s : Worker F Q W) (x : (Worker F Q W × Schedule) × List F) : Prop :=
  ∃ es, Transition.run Rotation.step s.runnableQueue es = some x.1.1.runnableQueue ∧
    Rotation.picks s.runnableQueue es = x.2 ∧ ∀ e ∈ es, e = .pick ∨ ∃ f, e = .remove f

/-- One pick, by an attempt with the first fiber of the queue. -/
theorem rotates_of_pick {s t : Worker F Q W} {r : Schedule}
    (h : Rotation.step s.runnableQueue .pick = some t.runnableQueue) :
    s.Rotates ((t, r), s.runnableQueue.head?.toList) := by
  refine ⟨[.pick], Transition.run_cons_eq_some_iff.2 ⟨_, h, rfl⟩, ?_, by simp⟩
  rw [Rotation.picks_cons h]
  exact List.append_nil _

/-- The loop picks a fiber, and then again each time the one it picked was dead and is
removed. -/
theorem rotates_of_reschedulePicking (created : Contexts F) (n : ℕ) (did : Bool)
    (s : Worker F Q W) :
    (reschedulePicking created n did s).Sat (fun _ => True) s.Rotates := by
  induction n generalizing s did with
  | zero => trivial
  | succ n ih =>
      rw [reschedulePicking]
      refine (pick_of_attempt created s).bind ?_
      rintro ⟨t, _ | _ | _⟩ ht
      · exact rotates_of_pick ht
      · exact rotates_of_pick ht
      · dsimp only
        split
        · trivial
        · rename_i f hf
          split
          · refine (runnableQueue_run created none t).bind ?_
            rintro ⟨u, _ | _ | _⟩ hu
            · have := rotates_of_pick (t := u) (r := .switched) (ht.trans (by rw [hu]))
              rwa [hf] at this
            · trivial
            · trivial
          · refine (runnableQueue_remove f t).bind ?_
            rintro u ⟨hmem, hu, -⟩
            refine (ih true u).map ?_
            rintro x ⟨es, hes, hpicks, hall⟩
            have hremove : Rotation.step t.runnableQueue (.remove f) = some u.runnableQueue := by
              rw [Rotation.step, if_pos hmem, hu]
            refine ⟨.pick :: .remove f :: es, ?_, ?_, by simpa using hall⟩
            · refine Transition.run_cons_eq_some_iff.2 ⟨_, ht, ?_⟩
              exact Transition.run_cons_eq_some_iff.2 ⟨_, hremove, hes⟩
            · rw [Rotation.picks_cons ht, Rotation.picks_cons hremove, Rotation.picked, hf]
              exact congrArg (f :: ·) hpicks

/-- With the worker fiber as the preference, nothing is picked. -/
theorem runnableQueue_reschedule_worker (created : Contexts F) (n : ℕ) (did : Bool)
    (s : Worker F Q W) :
    (reschedule created n (some none) did s).Sat (fun _ => True) fun x =>
      x.1.runnableQueue = s.runnableQueue := by
  cases n with
  | zero => trivial
  | succ n =>
      rw [reschedule]
      refine (runnableQueue_run created none s).bind ?_
      rintro ⟨t, _ | _ | _⟩ ht
      · exact ht
      · exact ht
      · trivial

/-- What `schedule` without a preference does to the queue. -/
theorem rotates_of_schedulePicking (created : Contexts F) (now : ℕ) (s : Worker F Q W) :
    (schedulePicking created now s).Sat (fun _ => True) s.Rotates := by
  rw [schedulePicking]
  split
  · exact ⟨[], rfl, rfl, by simp⟩
  · split
    · refine (runnableQueue_reschedule_worker created _ _ s).map fun x hx => ?_
      exact ⟨[], by rw [hx]; rfl, rfl, by simp⟩
    · exact rotates_of_reschedulePicking created _ _ s

/-- What happens to a worker: a call of `schedule` without a preference, or anything else that
makes another worker of it. Of the runnable queue, that may add a fiber to one of the ends, or
remove one from anywhere. -/
inductive Happening (F Q W : Type*) where
  | schedule (now : ℕ)
  | change (e : Option (Rotation.Event F)) (t : Worker F Q W)

def happen (created : Contexts F) (s : Worker F Q W) : Happening F Q W → Option (Worker F Q W)
  | .schedule now => (schedule created none now s).toOption.map Prod.fst
  | .change none t => if t.runnableQueue = s.runnableQueue then some t else none
  | .change (some e) t =>
      if e ≠ .pick ∧ Rotation.step s.runnableQueue e = some t.runnableQueue then some t else none

/-- A worker, and the fibers that `schedule` picked so far. -/
structure Scheduled (F Q W : Type*) where
  worker : Worker F Q W
  picks : List F

def Scheduled.step (created : Contexts F) (s : Scheduled F Q W) :
    Happening F Q W → Option (Scheduled F Q W)
  | .schedule now =>
      (schedulePicking created now s.worker).toOption.map fun x => ⟨x.1.1, s.picks ++ x.2⟩
  | .change none t => if t.runnableQueue = s.worker.runnableQueue then some ⟨t, s.picks⟩ else none
  | .change (some e) t =>
      if e ≠ .pick ∧ Rotation.step s.worker.runnableQueue e = some t.runnableQueue then
        some ⟨t, s.picks⟩
      else none

/-- The picks are only noted. -/
theorem Scheduled.happen_of_step {created : Contexts F} {s t : Scheduled F Q W}
    {h : Happening F Q W} (ht : Scheduled.step created s h = some t) :
    happen created s.worker h = some t.worker := by
  match h with
  | .schedule now =>
      rw [happen, ← schedulePicking_map_fst]
      rw [Scheduled.step] at ht
      cases hx : schedulePicking created now s.worker with
      | error e =>
          rw [hx] at ht
          cases ht
      | ok x =>
          rw [hx] at ht
          cases ht
          rfl
  | .change none u =>
      obtain ⟨hq, ⟨⟩⟩ := Option.ite_none_right_eq_some.1 ht
      exact if_pos hq
  | .change (some e) u =>
      obtain ⟨he, ⟨⟩⟩ := Option.ite_none_right_eq_some.1 ht
      exact if_pos he

/-- The fiber is in the runnable queue. -/
def Scheduled.Holds (f : F) (s : Scheduled F Q W) : Prop := f ∈ s.worker.runnableQueue

instance (f : F) : DecidablePred (Scheduled.Holds f : Scheduled F Q W → Prop) :=
  fun s => inferInstanceAs (Decidable (f ∈ s.worker.runnableQueue))

/-- The queue goes through the events, in which the new picks are picked. -/
structure Scheduled.Goes (s t : Scheduled F Q W) (es : List (Rotation.Event F)) : Prop where
  run : Transition.run Rotation.step s.worker.runnableQueue es = some t.worker.runnableQueue
  picks : t.picks = s.picks ++ Rotation.picks s.worker.runnableQueue es

theorem Scheduled.Goes.nodup {s t : Scheduled F Q W} {es : List (Rotation.Event F)}
    (h : s.Goes t es) (hs : s.worker.runnableQueue.Nodup) : t.worker.runnableQueue.Nodup :=
  Transition.run_invariant (fun _ _ _ hl he => Rotation.nodup_step hl he) hs h.run

/-- The step lemma. A fiber that is in the queue before and after the step is not removed. -/
theorem Scheduled.goes_of_step {created : Contexts F} {s t : Scheduled F Q W}
    {h : Happening F Q W} (hs : s.worker.runnableQueue.Nodup)
    (ht : Scheduled.step created s h = some t) :
    ∃ es, s.Goes t es ∧ ∀ f, s.Holds f → t.Holds f → .remove f ∉ es := by
  match h with
  | .schedule now =>
      have hsat := rotates_of_schedulePicking created now s.worker
      rw [Scheduled.step] at ht
      cases hx : schedulePicking created now s.worker with
      | error e =>
          rw [hx] at ht
          cases ht
      | ok x =>
          rw [hx] at ht
          cases ht
          obtain ⟨es, hrun, hpicks, hall⟩ := hsat.ok hx
          refine ⟨es, ⟨hrun, by rw [hpicks]⟩, fun f _ hf => ?_⟩
          exact Rotation.remove_notMem_of_run hs hall hrun hf
  | .change none u =>
      obtain ⟨hq, ⟨⟩⟩ := Option.ite_none_right_eq_some.1 ht
      exact ⟨[], ⟨by rw [hq]; rfl, (List.append_nil _).symm⟩, fun f _ _ => List.not_mem_nil⟩
  | .change (some e) u =>
      obtain ⟨⟨hne, he⟩, ⟨⟩⟩ := Option.ite_none_right_eq_some.1 ht
      refine ⟨[e], ⟨Transition.run_cons_eq_some_iff.2 ⟨_, he, rfl⟩, ?_⟩, fun f _ hf => ?_⟩
      · rw [Rotation.picks_cons he]
        cases e with
        | pick => exact absurd rfl hne
        | _ => simp [Rotation.picked, Rotation.picks]
      · rw [List.mem_singleton]
        rintro rfl
        obtain ⟨-, hu⟩ := Option.ite_none_right_eq_some.1 he
        rw [Scheduled.Holds, ← Option.some.inj hu] at hf
        exact hs.not_mem_erase hf

/-- The run lemma. -/
theorem Scheduled.goes_of_run {created : Contexts F} {s t : Scheduled F Q W}
    {hs : List (Happening F Q W)} (hnodup : s.worker.runnableQueue.Nodup)
    (hrun : Transition.run (Scheduled.step created) s hs = some t) :
    ∃ es, s.Goes t es ∧
      ∀ f, Transition.Always (Scheduled.step created) (Holds f) s hs → .remove f ∉ es := by
  induction hs generalizing s with
  | nil =>
      rw [Transition.run_nil] at hrun
      obtain rfl := Option.some.inj hrun
      exact ⟨[], ⟨rfl, (List.append_nil _).symm⟩, fun f _ => List.not_mem_nil⟩
  | cons h hs ih =>
      obtain ⟨u, hu, hrest⟩ := Transition.run_cons_eq_some_iff.1 hrun
      obtain ⟨es, hes, hkeep⟩ := Scheduled.goes_of_step hnodup hu
      obtain ⟨fs, hfs, hkeep'⟩ := ih (hes.nodup hnodup) hrest
      refine ⟨es ++ fs, ⟨?_, ?_⟩, fun f hf => ?_⟩
      · rw [Transition.run_append, hes.run]
        exact hfs.run
      · rw [Rotation.picks_append hes.run, hfs.picks, hes.picks, List.append_assoc]
      · rw [List.mem_append, not_or]
        exact ⟨hkeep f hf.1 (hf.2 u hu).first, hkeep' f (hf.2 u hu)⟩

/-- Whatever happens to the worker between the calls of `schedule`, the runnable queue is picked
from in turn, by the functions of the linked list that it is made of as well. Noting the picks
leaves the worker alone. While a fiber `f`
stays in the queue, each fiber that stays in it too is picked once between two picks of `f` that
follow each other, and in every such round they are picked in the same order: the one in which
they are behind `f`. -/
theorem round_robin {U : Type*} [Inhabited U] (enableAssert : Bool) (created : Contexts F)
    {s t : Scheduled F Q W} {hs : List (Happening F Q W)}
    (hnodup : s.worker.runnableQueue.Nodup)
    (hrun : Transition.run (Scheduled.step created) s hs = some t) :
    Transition.run (happen created) s.worker hs = some t.worker ∧
    ∃ es p, t.picks = s.picks ++ p ∧ p = Rotation.picks s.worker.runnableQueue es ∧
      (∀ (l : LinkedList F U) fuel,
        LinkedList.Represents enableAssert l s.worker.runnableQueue →
        s.worker.runnableQueue.length + es.length < fuel →
        ∃ l', Transition.run (LinkedList.Turns.step enableAssert fuel) ⟨l, []⟩ es =
            some ⟨l', p⟩ ∧
          LinkedList.Represents enableAssert l' t.worker.runnableQueue) ∧
      ∀ x f y stays, s.worker.runnableQueue = x ++ f :: y →
        Transition.Always (Scheduled.step created) (Scheduled.Holds f) s hs →
        (∀ g, stays g = true →
          Transition.Always (Scheduled.step created) (Scheduled.Holds g) s hs) →
        ∀ a b c, p = a ++ f :: (b ++ f :: c) → f ∉ b →
          b.filter stays = (y ++ x).filter stays ∧
          ∀ g, stays g = true → g ≠ f → b.count g = 1 := by
  obtain ⟨u, hworker, rfl⟩ := Transition.run_simulation (R := fun u a => a.worker = u)
    (fun _ a _ b hua hb => ⟨b.worker, hua ▸ Scheduled.happen_of_step hb, rfl⟩) rfl hrun
  obtain ⟨es, hes, hkeep⟩ := Scheduled.goes_of_run hnodup hrun
  refine ⟨hworker, es, _, hes.picks, rfl, fun l fuel hrep hfuel => ?_, ?_⟩
  · obtain ⟨⟨l', p⟩, ht, hrep', rfl⟩ :=
      LinkedList.Represents.turns (s := ⟨l, []⟩) hrep hfuel hes.run
    exact ⟨l', ht, hrep'⟩
  · intro x f y stays hq hf hstays a b c hp hb
    have hmem : ∀ g, stays g = true → g ∈ s.worker.runnableQueue ∧ .remove g ∉ es :=
      fun g hg => ⟨(hstays g hg).first, hkeep g (hstays g hg)⟩
    have hrot := hes.run
    rw [hq] at hrot hnodup hp hmem
    have horder := Rotation.inOrder_of_run hnodup hrot hmem (hkeep f hf) a b c hp hb
    refine ⟨horder, fun g hg hgf => ?_⟩
    rw [← List.count_filter hg, horder, List.count_filter hg]
    have hyx : (f :: (y ++ x)).Perm (x ++ f :: y) := @List.perm_append_comm _ (f :: y) x
    have hnot := hyx.nodup_iff.2 hnodup
    refine List.count_eq_one_of_mem (List.nodup_cons.1 hnot).2 ?_
    exact List.mem_of_ne_of_mem hgf (hyx.mem_iff.2 (hmem g hg).1)

/-- Five fibers that can be switched to, but for one that is dead. -/
def ready (dead currentFiber : Option (Fin 5)) (queue : List (Fin 5)) :
    Worker (Fin 5) Unit Unit where
  fiber r := ⟨if r = currentFiber then .running else if r.isSome ∧ r = dead then .dead else .ready,
    .ready, r.any (· ∈ queue), r.isSome⟩
  currentFiber := currentFiber
  runnableQueue := queue
  suspendedQueue := []
  queue _ := []
  waiting := []
  waitable _ := ⟨0, none, .timed, false⟩
  frame _ := .user
  polling := false
  runEnd := 0
  disableContextSwitch := 0
  held _ := false
  owner _ := none
  fault := none

/-- Two rounds of three fibers. A dead one joins at the front and is removed by `schedule`, and
another one leaves. -/
def twoRounds : List (Happening (Fin 5) Unit Unit) :=
  [.schedule 1, .schedule 2,
    .change (some (.addFront 3)) (ready (some 3) (some 0) [3, 1, 2, 4, 0]), .schedule 3,
    .change (some (.remove 4)) (ready none (some 1) [2, 0, 1]),
    .schedule 4, .schedule 5, .schedule 6, .schedule 7, .schedule 8]

theorem round_robin_twoRounds :
    ∃ t, Transition.run (Scheduled.step .all) ⟨ready none none [4, 0, 1, 2], []⟩
        twoRounds = some t ∧
      Transition.run (happen .all) (ready none none [4, 0, 1, 2]) twoRounds = some t.worker ∧
      t.picks = [4, 0, 3, 1, 2, 0, 1, 2, 0] ∧
      ∀ a b c, t.picks = a ++ 0 :: (b ++ 0 :: c) → 0 ∉ b →
        b.filter (fun g => g == 1 || g == 2) = [1, 2] ∧ b.count 1 = 1 ∧ b.count 2 = 1 := by
  have hpicks : (Transition.run (Scheduled.step .all) ⟨ready none none [4, 0, 1, 2], []⟩
      twoRounds).map Scheduled.picks = some [4, 0, 3, 1, 2, 0, 1, 2, 0] := by decide +kernel
  obtain ⟨t, ht, hpicks⟩ := Option.map_eq_some_iff.1 hpicks
  obtain ⟨hworker, es, p, hp, -, -, hround⟩ :=
    round_robin (U := Unit) true .all (by decide) ht
  rw [List.nil_append] at hp
  refine ⟨t, ht, hworker, hpicks, fun a b c h hb => ?_⟩
  obtain ⟨horder, hcount⟩ := hround [4] 0 [1, 2] (fun g => g == 1 || g == 2) rfl
    (by decide +kernel) (by decide +kernel) a b c (hp ▸ h) hb
  exact ⟨horder, hcount 1 rfl (by decide), hcount 2 rfl (by decide)⟩

end Worker

end Zth
