import Zth.Worker.Kill
import Zth.Worker.RoundRobin

/-!
# Every fiber gets its turn

A fiber that can run stands in line in the runnable queue. Whoever gets its turn goes behind it,
and so do fibers that become runnable, but for those that the waiter wakes and those that are
unblocked with priority, which go in front, and those that a preference lets pass. So no more
fibers get their turn before it than are in front of it already, or overtake it in the meantime.
-/

namespace Zth

namespace Worker

variable {F Q W : Type*} [DecidableEq F]

/-- How many fibers are in front of the fiber. -/
def ahead (f : F) (s : Worker F Q W) : ℕ := s.runnableQueue.idxOf f

/-- The fibers in front of the fiber. -/
def front (f : F) (s : Worker F Q W) : List F := s.runnableQueue.takeWhile (· ≠ f)

/-- The fiber that gets its turn. -/
def turned (s t : Worker F Q W) : List F :=
  if t.currentFiber = s.currentFiber then [] else t.currentFiber.toList

/-- Another fiber of the queue gets its turn. -/
def turns (s t : Worker F Q W) : ℕ := (turned s t).length

/-- The fibers that were behind the fiber or not in the queue, and are in front of it now, or got
their turn. -/
def overtakers (f : F) (s t : Worker F Q W) : List F :=
  (turned s t ++ t.front f).filter (· ∉ s.front f)

/-- Another fiber is preferred. -/
def isPreferred : Option (Option F) → Bool
  | some (some _) => true
  | some none | none => false

/-- A fiber may be put in front of others, or be preferred to them: it is unblocked with priority,
woken by the waiter, or yielded to. -/
def letsPass : Deed F Q W → Bool
  | .act (.yield prefer _) => isPreferred prefer
  | .act (.unblock _ _ prio) | .act (.unblockFirst _ prio) | .act (.unblockAll _ prio) => prio
  | .act (.wakeup _) | .act (.expire _) => true
  | _ => false

/-- How many fibers really overtake the fiber in a deed that lets others pass. -/
def passing (f : F) (s : Worker F Q W) (d : Deed F Q W) (t : Worker F Q W) : ℕ :=
  if letsPass d then (overtakers f s t).length else 0

/-- The fiber is runnable, and it is not its turn. -/
structure InLine (f : F) (s : Worker F Q W) : Prop where
  mem : f ∈ s.runnableQueue
  waits : s.currentFiber ≠ some f

instance (f : F) (s : Worker F Q W) : Decidable (InLine f s) :=
  decidable_of_iff (f ∈ s.runnableQueue ∧ s.currentFiber ≠ some f)
    ⟨fun h => ⟨h.1, h.2⟩, fun h => ⟨h.mem, h.waits⟩⟩

/-- The fiber is in the runnable queue once, and in no queue of a synchronizer. -/
structure Stands (f : F) (s : Worker F Q W) : Prop where
  once : s.runnableQueue.count f = 1
  awake : (s.fiber (some f)).state ≠ .suspended
  elsewhere : ∀ q, f ∉ s.queue q

/-- The fiber still stands in line. Unless others may pass, nobody got in front of it. -/
structure Keeps (f : F) (pass : Bool) (s t : Worker F Q W) : Prop where
  stands : Stands f t
  current : t.currentFiber = s.currentFiber
  ahead : pass = false → t.ahead f ≤ s.ahead f

/-- Another one may have got its turn, and goes behind all others. Unless others may pass, it was in
front of the fiber, if that still stands in line. -/
structure Comes (f : F) (pass : Bool) (s t : Worker F Q W) : Prop where
  behind : ∀ g ∈ turned s t, t.runnableQueue.getLast? = some g
  ahead : pass = false → f ∈ t.runnableQueue → t.currentFiber ≠ some f →
    turns s t + t.ahead f ≤ s.ahead f

variable {f g : F} {pass pass' : Bool} {s t u : Worker F Q W}

theorem turned_of_eq (h : t.currentFiber = s.currentFiber) : turned s t = [] := if_pos h

theorem turns_of_eq (h : t.currentFiber = s.currentFiber) : turns s t = 0 := by
  rw [turns, turned_of_eq h, List.length_nil]

/-- Nobody gets its turn when the context of the worker goes on. -/
theorem turned_of_none (h : t.currentFiber = none) : turned s t = [] := by
  rw [turned, h]
  exact ite_self _

theorem turned_congr (h : t.currentFiber = s.currentFiber) : turned t u = turned s u := by
  rw [turned, turned, h]

theorem Stands.mem (h : Stands f s) : f ∈ s.runnableQueue :=
  List.count_pos_iff.1 (by rw [h.once]; exact Nat.one_pos)

theorem Keeps.after (h : Keeps f pass' t u) (hst : Keeps f pass s t) :
    Keeps f (pass || pass') s u := by
  refine ⟨h.stands, h.current.trans hst.current, fun hpass => ?_⟩
  rw [Bool.or_eq_false_iff] at hpass
  exact (h.ahead hpass.2).trans (hst.ahead hpass.1)

/-- What happens to other fibers, outside of the queues. -/
theorem Keeps.of_eq (h : Stands f s) (hqueue : t.runnableQueue = s.runnableQueue)
    (hcur : t.currentFiber = s.currentFiber) (hfiber : t.fiber (some f) = s.fiber (some f))
    (hq : ∀ q, f ∉ t.queue q) : Keeps f false s t := by
  refine ⟨⟨by rw [hqueue]; exact h.once, by rw [hfiber]; exact h.awake, hq⟩, hcur, fun _ => ?_⟩
  rw [Worker.ahead, hqueue]
  exact le_rfl

theorem Keeps.refl (h : Stands f s) (pass : Bool) : Keeps f pass s s := ⟨h, rfl, fun _ => le_rfl⟩

theorem Keeps.mono (h : Keeps f false s t) (pass : Bool) : Keeps f pass s t :=
  ⟨h.stands, h.current, fun _ => h.ahead rfl⟩

theorem Keeps.comes (h : Keeps f pass s t) : Comes f pass s t := by
  refine ⟨?_, fun hpass _ _ => ?_⟩
  · rw [turned_of_eq h.current]
    simp
  · rw [turns_of_eq h.current, Nat.zero_add]
    exact h.ahead hpass

theorem Comes.after (h : Comes f pass' t u) (hst : Keeps f pass s t) :
    Comes f (pass || pass') s u := by
  refine ⟨?_, fun hpass hmem hcur => ?_⟩
  · rw [← turned_congr hst.current]
    exact h.behind
  · rw [Bool.or_eq_false_iff] at hpass
    rw [turns, ← turned_congr hst.current]
    exact (h.ahead hpass.2 hmem hcur).trans (hst.ahead hpass.1)

/-! ### Who gets in front -/

theorem front_eq_append {x y : List F} (hq : s.runnableQueue = x ++ f :: y) (hf : f ∉ x) :
    s.front f = x := by
  have hx : ∀ g ∈ x, decide (g ≠ f) = true := by
    intro g hg
    rw [decide_eq_true_eq]
    rintro rfl
    exact hf hg
  rw [front, hq, List.takeWhile_append_of_pos hx]
  simp

theorem length_front (hf : f ∈ s.runnableQueue) : (s.front f).length = s.ahead f := by
  obtain ⟨x, y, hq, hx⟩ := List.eq_append_cons_of_mem hf
  rw [front_eq_append hq hx, ahead, hq, List.idxOf_append_of_notMem hx, List.idxOf_cons_self,
    Nat.add_zero]

/-- The last one of the queue is not in front of anybody. -/
theorem notMem_front_of_getLast (hnodup : s.runnableQueue.Nodup) (hf : f ∈ s.runnableQueue)
    (hg : s.runnableQueue.getLast? = some g) : g ∉ s.front f := by
  obtain ⟨x, y, hq, hx⟩ := List.eq_append_cons_of_mem hf
  rw [front_eq_append hq hx]
  intro hgx
  rw [hq, List.getLast?_append_cons] at hg
  rw [hq] at hnodup
  exact List.disjoint_of_nodup_append hnodup hgx (List.mem_of_getLast? hg)

/-- Whoever gets its turn or is in front of the fiber was in front of it, or overtook it. -/
theorem Comes.turns_add_ahead_le (h : Comes f pass s t) (hnodup : t.runnableQueue.Nodup)
    (hs : f ∈ s.runnableQueue) (ht : f ∈ t.runnableQueue) :
    turns s t + t.ahead f ≤ s.ahead f + (overtakers f s t).length := by
  have hall : (turned s t ++ t.front f).Nodup := by
    refine List.Nodup.append ?_ ((List.takeWhile_sublist _).nodup hnodup) fun g hg hfront => ?_
    · rw [turned]
      split
      · exact List.nodup_nil
      · cases t.currentFiber <;> simp
    · exact notMem_front_of_getLast hnodup ht (h.behind g hg) hfront
  have hsplit := List.length_eq_length_filter_add (l := turned s t ++ t.front f)
    fun g => decide (g ∈ s.front f)
  have hold : ((turned s t ++ t.front f).filter fun g => decide (g ∈ s.front f)).length ≤
      (s.front f).length := by
    refine (List.subperm_of_subset (hall.filter _) fun g hg => ?_).length_le
    exact of_decide_eq_true (List.mem_filter.1 hg).2
  have hnew : ((turned s t ++ t.front f).filter fun g => !decide (g ∈ s.front f)) =
      overtakers f s t := by
    rw [overtakers]
    exact List.filter_congr fun g _ => decide_not.symm
  rw [hnew, List.length_append, length_front ht] at hsplit
  rw [length_front hs] at hold
  rw [turns]
  omega

/-! ### Who is in the queue -/

theorem idxOf_erase_le (hne : g ≠ f) (l : List F) : (l.erase g).idxOf f ≤ l.idxOf f := by
  induction l with
  | nil => exact le_rfl
  | cons x l ih =>
      by_cases hx : x = g
      · subst hx
        rw [List.erase_cons_head, List.idxOf_cons_ne _ hne]
        exact Nat.le_succ _
      · rw [List.erase_cons_tail (by simpa using hx)]
        by_cases hxf : x = f
        · subst hxf
          rw [List.idxOf_cons_self]
          exact Nat.zero_le _
        · rw [List.idxOf_cons_ne _ hxf, List.idxOf_cons_ne _ hxf]
          exact Nat.succ_le_succ ih

/-! ### Operations on other fibers -/

theorem Stands.setFiber (h : Stands f s) (hne : g ≠ f) (x : Fiber) :
    Keeps f false s (s.setFiber (some g) x) :=
  .of_eq h rfl rfl (setFiber_fiber_of_ne s x (by simpa using hne.symm)) h.elsewhere

theorem Keeps.setFiber (h : Keeps f pass s t) (hne : g ≠ f) (x : Fiber) :
    Keeps f pass s (t.setFiber (some g) x) := by
  simpa using (h.stands.setFiber hne x).after h

theorem Keeps.setLinked (h : Keeps f pass s t) (hne : g ≠ f) (linked : Bool) :
    Keeps f pass s (t.setLinked g linked) :=
  h.setFiber hne _

/-- Other fibers come and go. -/
theorem Keeps.of_queue (h : Stands f s) {l : List F} (hcount : l.count f = 1)
    (hle : pass = false → l.idxOf f ≤ s.ahead f) : Keeps f pass s { s with runnableQueue := l } :=
  ⟨⟨hcount, h.awake, h.elsewhere⟩, rfl, hle⟩

theorem Stands.release (h : Stands f s) (hne : g ≠ f) :
    (release g s).Sat (fun _ => True) (Keeps f false s) := by
  rw [Worker.release]
  split
  · split
    · have herase : Keeps f false s { s with suspendedQueue := s.suspendedQueue.erase g } :=
        .of_eq h rfl rfl rfl h.elsewhere
      exact herase.setLinked hne false
    · trivial
  · split
    · have hcount : (s.runnableQueue.erase g).count f = 1 :=
        (List.count_erase_of_ne hne.symm).trans h.once
      exact (Keeps.of_queue h hcount fun _ => idxOf_erase_le hne _).setLinked hne false
    · trivial

theorem Stands.add (h : Stands f s) (hne : g ≠ f) (front : Bool) :
    (add g front s).Sat (fun _ => True) (Keeps f front s) := by
  rw [Worker.add]
  split
  · trivial
  · split
    · trivial
    · split
      · have hback : Keeps f front s { s with suspendedQueue := s.suspendedQueue ++ [g] } :=
          ⟨⟨h.once, h.awake, h.elsewhere⟩, rfl, fun _ => le_rfl⟩
        exact hback.setLinked hne true
      · cases front with
        | true =>
            have hcount : (g :: s.runnableQueue).count f = 1 :=
              (List.count_cons_of_ne hne).trans h.once
            exact (Keeps.of_queue h hcount (by simp)).setLinked hne true
        | false =>
            have hcount : (s.runnableQueue ++ [g]).count f = 1 := by
              rw [List.count_append, h.once, List.count_singleton, if_neg (by simpa using hne)]
            have hidx : (s.runnableQueue ++ [g]).idxOf f = s.ahead f :=
              List.idxOf_append_of_mem h.mem
            exact (Keeps.of_queue h hcount fun _ => hidx.le).setLinked hne true

theorem Stands.addSetFiber (h : Stands f s) (hne : g ≠ f) (front : Bool) (x : Fiber) :
    (Worker.add g front (s.setFiber (some g) x)).Sat (fun _ => True) (Keeps f front s) := by
  have hset := h.setFiber hne x
  exact (hset.stands.add hne front).mono fun t ht => by simpa using ht.after hset

/-- A fiber that is suspended is another one. -/
theorem Stands.resume (h : Stands f s) (g : F) :
    (resume g s).Sat (fun _ => True) (Keeps f false s) := by
  have hheld : Keeps f false s { s with held := Function.update s.held g false } :=
    .of_eq h rfl rfl rfl h.elsewhere
  rw [Worker.resume]
  dsimp only
  split
  · rename_i hsus
    have hne : g ≠ f := by
      rintro rfl
      exact h.awake hsus
    refine (hheld.stands.release hne).bind fun t ht => ?_
    exact (ht.stands.addSetFiber hne false _).mono fun u hu => (hu.after ht).after hheld
  · exact hheld

theorem Stands.suspendOther (h : Stands f s) (hne : g ≠ f) :
    (suspendOther g s).Sat (fun _ => True) (Keeps f false s) := by
  have hmove : ((Worker.release g s).bind fun s =>
      Worker.add g false { s.setFiber (some g) (s.fiber (some g)).suspend with
        held := Function.update s.held g true }).Sat (fun _ => True) (Keeps f false s) := by
    refine (h.release hne).bind fun t ht => ?_
    have hset : Keeps f false t { t.setFiber (some g) (t.fiber (some g)).suspend with
        held := Function.update t.held g true } := by
      have hset := ht.stands.setFiber hne (t.fiber (some g)).suspend
      exact ⟨⟨hset.stands.once, hset.stands.awake, hset.stands.elsewhere⟩, hset.current,
        hset.ahead⟩
    exact (hset.stands.add hne false).mono fun u hu => (hu.after hset).after ht
  rw [Worker.suspendOther]
  split
  · exact hmove
  · exact hmove
  · exact hmove
  · have hset := h.setFiber hne (s.fiber (some g)).suspend
    exact ⟨⟨hset.stands.once, hset.stands.awake, hset.stands.elsewhere⟩, hset.current, hset.ahead⟩
  all_goals exact .refl h false

/-! ### Scheduling -/

/-- Who is the current fiber after an attempt to switch, by how it comes back. -/
def Handed (next : Option F) (s : Worker F Q W) : Worker F Q W × Run → Prop
  | (t, .switched) => t.currentFiber = next
  | (t, .eagain) => t.currentFiber = s.currentFiber ∧ s.currentFiber = next
  | (t, .eperm) => t.currentFiber = s.currentFiber

theorem handed_dispatch (next : Option F) (s : Worker F Q W) :
    (dispatch next s).Sat (fun _ => True) (Handed next s) := by
  rw [dispatch]
  split
  · split
    · trivial
    · rfl
  · split
    · rename_i hcur
      exact ⟨rfl, hcur⟩
    · trivial
  · rfl
  all_goals trivial

theorem handed_run (created : Contexts F) (next : Option F) (s : Worker F Q W) :
    (run created next s).Sat (fun _ => True) fun x =>
      Handed next s x ∧ x.1.runnableQueue = s.runnableQueue :=
  sat_run (fun _ _ => (handed_dispatch next _).and (runnableQueue_dispatch next _))
    (fun _ _ => trivial) fun _ => (handed_dispatch next s).and (runnableQueue_dispatch next s)

/-- The queue after an attempt to switch. -/
def rotated (l : List F) : Option F → List F
  | none => l
  | some f => rotateBehind f l

theorem handed_attempt (created : Contexts F) (next : Option F) (s : Worker F Q W) :
    (attempt created next s).Sat (fun _ => True) fun x => Handed next s x ∧
      x.1.runnableQueue = rotated s.runnableQueue next ∧
        ∀ g, next = some g → g ∈ s.runnableQueue := by
  cases next with
  | none => exact (handed_run created none s).mono fun x hx => ⟨hx.1, hx.2, by simp⟩
  | some g =>
      rw [attempt]
      split
      · rename_i hg
        refine (handed_run created (some g) _).mono ?_
        rintro ⟨t, _ | _ | _⟩ hx
        all_goals exact ⟨hx.1, hx.2, fun g' hg' => Option.some.inj hg' ▸ hg⟩
      · trivial

theorem rotated_perm {l : List F} {next : Option F} (h : ∀ g, next = some g → g ∈ l) :
    (rotated l next).Perm l := by
  cases next with
  | none => exact .refl l
  | some g => exact rotateBehind_perm (h g rfl)

theorem getLast_rotateBehind (g : F) (l : List F) : (rotateBehind g l).getLast? = some g := by
  rw [rotateBehind, List.getLast?_append, List.getLast?_singleton]
  rfl

/-- The fiber that is switched to is the last one of the queue then. -/
theorem behind_of_switched {next : Option F} (hcur : t.currentFiber = next)
    (hqueue : t.runnableQueue = rotated s.runnableQueue next) :
    ∀ g ∈ turned s t, t.runnableQueue.getLast? = some g := by
  intro g hg
  rw [turned, hcur] at hg
  split at hg
  · cases hg
  · obtain rfl := Option.mem_toList.1 hg
    rw [hqueue]
    exact getLast_rotateBehind g _

/-- The first fiber of the queue goes behind all others. -/
theorem idxOf_rotated {prefer : Option (Option F)} (hpass : isPreferred prefer = false)
    (hnext : prefer.getD s.runnableQueue.head? = some g) (hne : g ≠ f)
    (hf : f ∈ s.runnableQueue) : (rotateBehind g s.runnableQueue).idxOf f + 1 ≤ s.ahead f := by
  match prefer, hpass, hnext with
  | none, _, hnext =>
      obtain ⟨l, hl⟩ := List.head?_eq_some_iff.1 hnext
      rw [hl] at hf
      have hfl : f ∈ l := (List.mem_cons.1 hf).resolve_left hne.symm
      rw [ahead, hl, rotateBehind_cons, List.idxOf_append_of_mem hfl, List.idxOf_cons_ne _ hne]

/-- What an attempt to switch does to the queue: who was tried is behind the fiber. -/
structure Tried (f : F) (pass : Bool) (next : Option F) (s t : Worker F Q W) : Prop where
  queue : t.runnableQueue = rotated s.runnableQueue next
  perm : t.runnableQueue.Perm s.runnableQueue
  ahead : pass = false → f ∈ s.runnableQueue → next ≠ some f →
    t.ahead f + next.toList.length ≤ s.ahead f

theorem tried_attempt (created : Contexts F) (prefer : Option (Option F)) (s : Worker F Q W) :
    (attempt created (prefer.getD s.runnableQueue.head?) s).Sat (fun _ => True) fun x =>
      Handed (prefer.getD s.runnableQueue.head?) s x ∧
        Tried f (isPreferred prefer) (prefer.getD s.runnableQueue.head?) s x.1 := by
  refine (handed_attempt created _ s).mono ?_
  rintro ⟨t, r⟩ ⟨hhanded, hqueue, hmem⟩
  refine ⟨hhanded, hqueue, hqueue ▸ rotated_perm hmem, fun hpass hf hne => ?_⟩
  rw [ahead, hqueue]
  generalize hnext : prefer.getD s.runnableQueue.head? = next at hne ⊢
  cases next with
  | none => exact le_rfl
  | some g => exact idxOf_rotated hpass hnext (by simpa using hne) hf

theorem turns_le_of_current {next : Option F} (hcur : t.currentFiber = next) :
    turns s t ≤ next.toList.length := by
  rw [turns, turned, hcur]
  split
  · exact Nat.zero_le _
  · exact le_rfl

/-- Who was tried gets its turn. -/
theorem Tried.switched {next : Option F} (h : Tried f pass next s t)
    (hcur : t.currentFiber = next) : Comes f pass s t := by
  refine ⟨behind_of_switched hcur h.queue, fun hpass hf hne => ?_⟩
  have hle := h.ahead hpass (h.perm.mem_iff.1 hf) (hcur ▸ hne)
  have hle' := turns_le_of_current (s := s) hcur
  omega

/-- Nobody gets its turn. -/
theorem Tried.stayed {next : Option F} (h : Tried f pass next s t)
    (hqueue : u.runnableQueue = t.runnableQueue) (hturned : turned s u = [])
    (hne : next ≠ some f) : Comes f pass s u := by
  refine ⟨?_, fun hpass hf _ => ?_⟩
  · rw [hturned]
    simp
  · have hle := h.ahead hpass (h.perm.mem_iff.1 (hqueue ▸ hf)) hne
    rw [turns, hturned, List.length_nil, Worker.ahead, hqueue]
    rw [Worker.ahead] at hle
    omega

/-- Who was tried is dead, and another attempt is made without it. -/
theorem Tried.removed (h : Tried f pass (some g) s t) (hnodup : t.runnableQueue.Nodup)
    (hqueue : u.runnableQueue = t.runnableQueue.erase g) (hcur : u.currentFiber = s.currentFiber)
    {v : Worker F Q W} (hmem : f ∈ v.runnableQueue → f ∈ u.runnableQueue)
    (hv : Comes f false u v) :
    (f ∈ v.runnableQueue → f ∈ s.runnableQueue) ∧ Comes f pass s v := by
  rw [hqueue] at hmem
  have hmem' : f ∈ v.runnableQueue → f ∈ s.runnableQueue := fun hf =>
    h.perm.mem_iff.1 (List.mem_of_mem_erase (hmem hf))
  refine ⟨hmem', ?_, fun hpass hf hne => ?_⟩
  · rw [← turned_congr hcur]
    exact hv.behind
  · -- A fiber that was removed does not come back.
    have hgf : g ≠ f := by
      rintro rfl
      exact hnodup.not_mem_erase (hmem hf)
    have hle := h.ahead hpass (hmem' hf) (by simpa using hgf)
    have hle' := hv.ahead rfl hf hne
    have herase := idxOf_erase_le hgf t.runnableQueue
    rw [turns, turned_congr hcur, Worker.ahead, Worker.ahead, hqueue] at hle'
    rw [turns, Worker.ahead]
    rw [Worker.ahead] at hle
    omega

/-- The loop of `schedule`. -/
theorem comes_reschedule (created : Contexts F) (n : ℕ) (prefer : Option (Option F))
    (did : Bool) (s : Worker F Q W) (hnodup : s.runnableQueue.Nodup)
    (hcur : s.currentFiber ≠ some f) :
    (reschedule created n prefer did s).Sat (fun _ => True) fun x =>
      (f ∈ x.1.runnableQueue → f ∈ s.runnableQueue) ∧ Comes f (isPreferred prefer) s x.1 := by
  induction n generalizing s prefer did with
  | zero => trivial
  | succ n ih =>
      rw [reschedule]
      refine (tried_attempt (f := f) created prefer s).bind ?_
      rintro ⟨t, r⟩ ⟨hhanded, htried⟩
      generalize prefer.getD s.runnableQueue.head? = next at hhanded htried ⊢
      have hmem : f ∈ t.runnableQueue → f ∈ s.runnableQueue := htried.perm.mem_iff.1
      cases r with
      | switched => exact ⟨hmem, htried.switched hhanded⟩
      | eagain =>
          obtain ⟨hcurt, hnext⟩ := hhanded
          exact ⟨hmem, htried.stayed rfl (turned_of_eq hcurt) (hnext ▸ hcur)⟩
      | eperm =>
          have hcurt : t.currentFiber = s.currentFiber := hhanded
          dsimp only
          split
          · trivial
          · rename_i g
            split
            · rename_i hg
              refine (handed_attempt created none t).bind ?_
              rintro ⟨u, _ | _ | _⟩ ⟨hcuru, hqueue, -⟩
              · have hqueue : u.runnableQueue = t.runnableQueue := hqueue
                exact ⟨fun hf => hmem (hqueue ▸ hf),
                  htried.stayed hqueue (turned_of_none hcuru) (by rwa [← hg, hcurt])⟩
              · trivial
              · trivial
            · refine (runnableQueue_remove g t).bind ?_
              rintro u ⟨-, hqueue, hcuru⟩
              have hnodup' := htried.perm.nodup_iff.2 hnodup
              refine (ih none true u (hqueue ▸ hnodup'.erase g) ?_).mono ?_
              · rwa [hcuru, hcurt]
              · exact fun x hx => htried.removed hnodup' hqueue (hcuru.trans hcurt) hx.1 hx.2

/-- `schedule` passes the fiber by at most once. -/
theorem comes_schedule (hnodup : s.runnableQueue.Nodup) (hcur : s.currentFiber ≠ some f)
    (created : Contexts F) (prefer : Option (Option F)) (now : ℕ) :
    (schedule created prefer now s).Sat (fun _ => True) fun x =>
      Comes f (isPreferred prefer) s x.1 := by
  rw [schedule]
  split
  · refine ⟨?_, fun _ _ _ => ?_⟩
    · rw [turned_of_eq rfl]
      simp
    · rw [turns_of_eq rfl, Nat.zero_add]
  · split
    · trivial
    · dsimp only
      refine (comes_reschedule created _ _ false s hnodup hcur).mono fun x hx => ?_
      refine ⟨hx.2.behind, fun hpass => hx.2.ahead ?_⟩
      split
      · rfl
      · exact hpass

theorem Tracked.stands (h : s.Tracked) (hf : f ∈ s.runnableQueue) : Stands f s := by
  obtain ⟨hat, -, hsuits⟩ := h.consistent.of_mem_runnable hf
  refine ⟨List.count_eq_one_of_mem h.consistent.nodups.runnable hf, ?_, fun q hq => ?_⟩
  · obtain ⟨hnew, -⟩ | hr | hr | hr := hsuits.2 <;> simp [*]
  · cases (hat.queued q).1 hq

omit [DecidableEq F] in
/-- A fiber in line does not wait for the waiter. -/
theorem Tracked.not_timed (h : s.Tracked) (hf : f ∈ s.runnableQueue) {w : W} (hw : w ∈ s.waiting) :
    (s.waitable w).fiber ≠ some f := by
  intro hwf
  cases ((h.consistent.of_mem_runnable hf).1.timed w).1 ⟨hw, hwf⟩

/-- An operation on other fibers, and then `schedule`. -/
theorem Tracked.comes_bind {x : Except Fault (Worker F Q W)} (hcur : s.currentFiber ≠ some f)
    (hx : x.Sat (fun _ => True) (Keeps f false s)) (htracked : x.Sat Fault.Plain Tracked)
    (created : Contexts F) (now : ℕ) :
    (x.bind fun s => Worker.schedule created none now s).Sat (fun _ => True) fun y =>
      Comes f false s y.1 := by
  refine (hx.and (htracked.mono_bad fun _ _ => trivial)).bind fun t ht => ?_
  exact (comes_schedule ht.2.consistent.nodups.runnable (by rwa [ht.1.current]) created none
    now).mono fun y hy => hy.after ht.1

theorem runnableQueue_add_suspended (front : Bool)
    (hs : (s.fiber (some f)).state = .suspended) :
    (add f front s).Sat (fun _ => True) fun t =>
      t.runnableQueue = s.runnableQueue ∧ t.currentFiber = s.currentFiber := by
  rw [add, if_neg (by simp [hs])]
  split
  · trivial
  · exact ⟨rfl, rfl⟩

/-- A fiber that is suspended leaves the line. -/
theorem Stands.leaves_suspendOther (h : Stands f s)
    (hs : (s.fiber (some f)).state = .new ∨ (s.fiber (some f)).state = .ready) :
    (Worker.suspendOther f s).Sat (fun _ => True) (Comes f false s) := by
  have herase : f ∉ s.runnableQueue.erase f := by
    rw [← List.count_eq_zero, List.count_erase_self, h.once]
  have hmove : ((Worker.release f s).bind fun s =>
      Worker.add f false { s.setFiber (some f) (s.fiber (some f)).suspend with
        held := Function.update s.held f true }).Sat (fun _ => True) (Comes f false s) := by
    rw [Worker.release, if_neg h.awake, if_pos h.mem]
    refine (runnableQueue_add_suspended false ?_).mono fun t ht => ?_
    · simp only [setFiber_fiber_self, setLinked_fiber_self]
      obtain hs | hs := hs <;> simp [Fiber.suspend, hs]
    · have hqueue : t.runnableQueue = s.runnableQueue.erase f := ht.1
      have hcur : t.currentFiber = s.currentFiber := ht.2
      refine ⟨?_, fun _ hmem => absurd hmem (hqueue ▸ herase)⟩
      rw [turned_of_eq hcur]
      simp
  rw [Worker.suspendOther]
  obtain hs | hs := hs
  · rw [hs]
    exact hmove
  · rw [hs]
    exact hmove

theorem Tracked.comes_suspend (h : s.Tracked) (hf : InLine f s) (created : Contexts F)
    (g : F) (now : ℕ) :
    (Worker.suspend created g now s).Sat (fun _ => True) fun x => Comes f false s x.1 := by
  have hstands := h.stands hf.mem
  rw [Worker.suspend]
  split
  · rename_i hrun
    have hne : g ≠ f := by
      rintro rfl
      exact hf.waits (h.one.current g hrun)
    refine ((hstands.suspendOther hne).and
      ((h.suspendOther g).mono_bad fun _ _ => trivial)).bind fun t ht => ?_
    split
    · exact (comes_schedule ht.2.1.consistent.nodups.runnable (by rw [ht.1.current]; exact hf.waits)
        created none now).mono fun y hy => hy.after ht.1
    · trivial
  · by_cases hgf : g = f
    · subst hgf
      obtain ⟨hnew, -⟩ | hr | hr | hr := (h.consistent.of_mem_runnable hf.mem).2.2.2
      · exact (hstands.leaves_suspendOther (.inl hnew)).map fun t ht => ht
      · exact (hstands.leaves_suspendOther (.inr hr)).map fun t ht => ht
      · rename_i hrun
        exact absurd hr hrun
      · rw [Worker.suspendOther, hr]
        exact (Keeps.refl hstands false).comes
    · exact (hstands.suspendOther hgf).map fun t ht => ht.comes

section Synchronizer

variable [DecidableEq Q]

theorem Stands.setQueue (h : Stands f s) {q : Q} {l : List F} (hl : f ∉ l) :
    Keeps f false s (s.setQueue q l) := by
  refine .of_eq h rfl rfl rfl fun q' => ?_
  rw [Worker.setQueue]
  dsimp only
  by_cases hq : q' = q
  · subst hq
    rwa [Function.update_self]
  · rw [Function.update_of_ne hq]
    exact h.elsewhere q'

/-- A fiber is taken from a queue and made runnable. -/
theorem Stands.wakeQueued (h : Stands f s) (hne : g ≠ f) {q : Q} {l : List F} (hl : f ∉ l)
    (prio : Bool) :
    (wakeFiber g prio (setLinked g false (s.setQueue q l))).Sat (fun _ => True)
      (Keeps f prio s) := by
  have hset := (h.setQueue (q := q) hl).setLinked hne false
  exact (hset.stands.addSetFiber hne prio _).mono fun t ht => by simpa using ht.after hset

theorem Stands.unblock (h : Stands f s) (q : Q) (g : F) (prio : Bool) :
    (unblock q g prio s).Sat (fun _ => True) fun x => Keeps f prio s x.1 := by
  rw [Worker.unblock]
  split
  · rename_i hg
    have hne : g ≠ f := fun heq => h.elsewhere q (heq ▸ hg)
    have hl : f ∉ (s.queue q).erase g := fun hf => h.elsewhere q (List.mem_of_mem_erase hf)
    exact (h.wakeQueued hne hl prio).map fun t ht => ht
  · exact .refl h _

theorem Stands.unblockFirst (h : Stands f s) (q : Q) (prio : Bool) :
    (unblockFirst q prio s).Sat (fun _ => True) (Keeps f prio s) := by
  rw [Worker.unblockFirst]
  split
  · exact .refl h _
  · rename_i g l hq
    have hnot := h.elsewhere q
    rw [hq, List.mem_cons, not_or] at hnot
    exact h.wakeQueued (Ne.symm hnot.1) hnot.2 prio

theorem Stands.unblockAll (h : Stands f s) (q : Q) (prio : Bool) (n : ℕ) :
    (unblockAll q prio n s).Sat (fun _ => True) (Keeps f prio s) := by
  induction n generalizing s with
  | zero => exact .refl h _
  | succ n ih =>
      refine (h.unblockFirst q prio).bind fun t ht => ?_
      exact (ih ht.stands).mono fun u hu => by simpa using hu.after ht

theorem Stands.enterQueue (h : Stands f s) (q : Q) (hne : g ≠ f) :
    (enterQueue q g s).Sat (fun _ => True) (Keeps f false s) := by
  refine (h.release hne).bind fun t ht => ?_
  rw [Worker.enqueue]
  split
  · trivial
  · have hl : f ∉ t.queue q ++ [g] := by
      rw [List.mem_append, List.mem_singleton, not_or]
      exact ⟨ht.stands.elsewhere q, hne.symm⟩
    have hset := ((ht.stands.setQueue (q := q) hl).setLinked hne true).after ht
    exact hset.setFiber hne _

section Waiter

variable [LinearOrder W]

omit [DecidableEq Q] in
theorem Stands.scheduleTask (h : Stands f s) (waiter : F) (w : W) :
    (scheduleTask waiter w s).Sat (fun _ => True) (Keeps f false s) := by
  rw [Worker.scheduleTask, insertWaiting]
  split
  · trivial
  · have hset : Keeps f false s { s with waiting := s.waiting.orderedInsert s.WaitsBefore w } :=
      .of_eq h rfl rfl rfl h.elsewhere
    exact (hset.stands.resume waiter).mono fun t ht => ht.after hset

omit [DecidableEq Q] in
theorem Stands.enterWaiting (h : Stands f s) (waiter : F) (w : W) (hne : g ≠ f) :
    (enterWaiting waiter w g s).Sat (fun _ => True) (Keeps f false s) := by
  have hset : Keeps f false s (s.setWaitable w { s.waitable w with fiber := some g }) :=
    .of_eq h rfl rfl rfl h.elsewhere
  have hnap := hset.setFiber hne (s.fiber (some g)).nap
  refine (hnap.stands.release hne).bind fun t ht => ?_
  exact (ht.stands.scheduleTask waiter w).mono fun u hu => (hu.after ht).after hnap

/-- A poll of a waitable, which may be an alarm that rings. -/
theorem Stands.poll (h : Stands f s) (w : W) (fired : Bool) (now : ℕ) :
    (poll w fired now s).Sat (fun _ => True) fun x =>
      Keeps f false s x.1 ∧ (x.1.waitable w).fiber = (s.waitable w).fiber := by
  rw [Worker.poll]
  dsimp only
  split
  · exact ⟨.refl h false, rfl⟩
  · split
    · exact ⟨.refl h false, rfl⟩
    · exact ⟨.of_eq h rfl rfl rfl h.elsewhere, by simp [Worker.setWaitable]⟩
  · rename_i q g _
    split
    · refine ((h.unblock q g false).and (keepsRest_unblock q g false s)).map fun x hx => ?_
      have hset : Keeps f false x.1 (x.1.setWaitable w { x.1.waitable w with rang := x.2 }) :=
        .of_eq hx.1.stands rfl rfl rfl hx.1.stands.elsewhere
      refine ⟨hset.after hx.1, ?_⟩
      rw [Worker.setWaitable]
      dsimp only
      rw [Function.update_self, hx.2]
    · exact ⟨.refl h false, rfl⟩

omit [DecidableEq Q] in
/-- The waiter wakes a fiber, which goes in front. -/
theorem Tracked.keeps_wakeup (h : s.Tracked) (hf : f ∈ s.runnableQueue) (w : W) :
    (Worker.wakeup w s).Sat (fun _ => True) (Keeps f true s) := by
  have hstands := h.stands hf
  rw [Worker.wakeup]
  split
  · rename_i hw
    have hne := h.not_timed hf hw
    have herase : Keeps f false s (s.eraseWaiting w) :=
      .of_eq hstands rfl rfl rfl hstands.elsewhere
    dsimp only
    split
    · exact (Keeps.refl herase.stands true).after herase
    · rename_i g hg
      have hgf : g ≠ f := fun heq => hne (heq ▸ hg)
      refine (herase.stands.addSetFiber hgf true _).map fun t ht => ?_
      have hset : Keeps f false t (t.setWaitable w { t.waitable w with fiber := none }) :=
        .of_eq ht.stands rfl rfl rfl ht.stands.elsewhere
      exact (hset.after ht).after herase
  · exact .refl hstands true

theorem Tracked.keeps_expire (h : s.Tracked) (hf : f ∈ s.runnableQueue) {w : W}
    (hw : w ∈ s.waiting) (fired : Bool) (now : ℕ) :
    (Worker.expire w fired now s).Sat (fun _ => True) (Keeps f true s) := by
  have hstands := h.stands hf
  have hne := h.not_timed hf hw
  have herase : Keeps f false s (s.eraseWaiting w) :=
    .of_eq hstands rfl rfl rfl hstands.elsewhere
  refine (herase.stands.poll w fired now).bind ?_
  rintro ⟨t, _ | _⟩ ⟨ht, hfiber⟩
  · dsimp only
    rw [Worker.insertWaiting]
    split
    · trivial
    · have hset : Keeps f true t { t with waiting := t.waiting.orderedInsert t.WaitsBefore w } :=
        ⟨⟨ht.stands.once, ht.stands.awake, ht.stands.elsewhere⟩, rfl, fun _ => le_rfl⟩
      exact (hset.after ht).after herase
  · dsimp only at hfiber ⊢
    split
    · exact ((Keeps.refl ht.stands true).after ht).after herase
    · rename_i g hg
      have hgf : g ≠ f := fun heq => hne (heq ▸ hfiber.symm.trans hg)
      exact (ht.stands.addSetFiber hgf true _).mono fun u hu => (hu.after ht).after herase

/-- An operation that ends with `schedule`, or not. -/
def Passes (f : F) (pass : Bool) (s : Worker F Q W) (x : Except Fault (Worker F Q W)) : Prop :=
  x.Sat (fun _ => True) (Comes f pass s)

omit [LinearOrder W] in
theorem Tracked.passes_performUser (h : s.Tracked) (hf : InLine f s) {created : Contexts F}
    {waiter : F} {a : Action F Q W} {x : Except Fault (Worker F Q W)}
    (hx : Worker.performUser created waiter s a = some x) :
    Passes f (letsPass (.act a)) s x := by
  have hstands := h.stands hf.mem
  unfold Worker.performUser at hx
  split at hx
  · rename_i g
    obtain ⟨hg, hx⟩ := Option.ite_none_right_eq_some.1 hx
    obtain rfl := Option.some.inj hx
    have hgf : g ≠ f := by
      rintro rfl
      obtain ⟨hnew, -⟩ | hr | hr | hr := (h.consistent.of_mem_runnable hf.mem).2.2.2 <;>
        simp [hg] at *
    exact (hstands.addSetFiber hgf false _).mono fun t ht => ht.comes
  · rename_i q g prio
    obtain rfl := Option.some.inj hx
    exact (hstands.unblock q g prio).map fun x hx => hx.comes
  · rename_i q prio
    obtain rfl := Option.some.inj hx
    exact (hstands.unblockFirst q prio).mono fun t ht => ht.comes
  · rename_i q prio
    obtain rfl := Option.some.inj hx
    exact (hstands.unblockAll q prio _).mono fun t ht => ht.comes
  · rename_i g now
    obtain rfl := Option.some.inj hx
    exact (h.comes_suspend hf created g now).map fun x hx => hx
  · rename_i polling
    have hset : ∀ polling, Keeps f false s { s with polling := polling } :=
      fun _ => .of_eq hstands rfl rfl rfl hstands.elsewhere
    split at hx
    · obtain rfl := Option.some.inj hx
      exact ((hset true).stands.resume waiter).mono fun t ht => (ht.after (hset true)).comes
    · obtain rfl := Option.some.inj hx
      exact (hset false).comes
  · have hset : ∀ n, Keeps f false s { s with disableContextSwitch := n } :=
      fun _ => .of_eq hstands rfl rfl rfl hstands.elsewhere
    split at hx
    · split at hx
      · obtain rfl := Option.some.inj hx
        exact (hset _).comes
      · obtain rfl := Option.some.inj hx
        trivial
    · obtain rfl := Option.some.inj hx
      exact (hset _).comes
  · cases hx

theorem Tracked.comes_blockUntil (h : s.Tracked) (hf : InLine f s) (created : Contexts F)
    (waiter : F) (q : Q) {w : W} (timeout : ℕ) (hcur : s.currentFiber = some g)
    (hold : ∀ v, s.frame g ≠ .alarm v) (hw : w ∉ s.waiting) (howner : s.owner w = none)
    (now : ℕ) :
    (Worker.blockUntil created waiter q w timeout g now s).Sat (fun _ => True) fun x =>
      Comes f false s x.1 := by
  have hgf : g ≠ f := fun heq => hf.waits (by rw [hcur, heq])
  refine (((h.stands hf.mem).enterQueue q hgf).and
    ((h.enterQueue q hcur).mono_bad fun _ _ => trivial)).bind fun t ht => ?_
  obtain ⟨hkeeps, ht, htouch, -⟩ := ht
  have hwt : w ∉ t.waiting := fun hwt => hw (htouch.waiting.subset hwt)
  have howner : t.owner w = none := by
    rw [htouch.rest]
    exact howner
  have hold : ∀ v, t.frame g ≠ .alarm v := by
    rw [htouch.rest]
    exact hold
  have hset := ht.setAlarm hwt howner timeout q hold
  have halarm : Keeps f false t { (t.setWaitable w ⟨timeout, none, .alarm q g, false⟩).setFrame g
      (.alarm w) with owner := Function.update t.owner w (some g) } :=
    .of_eq hkeeps.stands rfl rfl rfl hkeeps.stands.elsewhere
  have hall := halarm.after hkeeps
  have htask := (hset.scheduleTask waiter (w := w)
    (by simp [Worker.setFrame, Worker.setWaitable]) fun q' g' hk => by
      obtain ⟨-, rfl⟩ : q = q' ∧ g = g' := by
        simpa [Worker.setFrame, Worker.setWaitable] using hk
      exact Function.update_self _ _ _).mono fun _ hu => hu.1
  exact (Tracked.comes_bind (hall.current ▸ hf.waits) (hall.stands.scheduleTask waiter w) htask
    created now).mono fun x hx => hx.after hall

theorem Tracked.comes_wait (h : s.Tracked) (hf : InLine f s) (created : Contexts F)
    (waiter : F) {w : W} (hw : w ∉ s.waiting) (howner : s.owner w = none)
    (hkind : ∀ q g, (s.waitable w).kind ≠ .alarm q g) (fired slice : Bool) (now now' : ℕ) :
    (Worker.wait created waiter w fired slice g now now' s).Sat (fun _ => True) fun x =>
      Comes f false s x.1 := by
  have hstands := h.stands hf.mem
  rw [Worker.wait]
  split
  · exact (Keeps.refl hstands false).comes
  rename_i hrun
  have hgf : g ≠ f := by
    rintro rfl
    exact hf.waits (h.one.current g (not_not.1 hrun))
  refine ((hstands.poll w fired now).and
    ((h.poll_unused hw howner hkind fired now).mono_bad fun _ _ => trivial)).bind ?_
  rintro ⟨t, _ | _⟩ ⟨⟨hkeeps, -⟩, -, ht, hst, hwt, howner, hkind⟩
  · exact (Tracked.comes_bind (by rw [hkeeps.current]; exact hf.waits)
      (hkeeps.stands.enterWaiting waiter w hgf)
      ((ht.enterWaiting waiter (hst.runs g (not_not.1 hrun)) hwt howner hkind).mono
        fun _ hu => hu.1) created now').mono fun x hx => hx.after hkeeps
  · dsimp only
    split
    · exact (comes_schedule ht.consistent.nodups.runnable
        (by rw [hkeeps.current]; exact hf.waits) created none now).mono fun x hx => hx.after hkeeps
    · exact hkeeps.comes

/-- An operation of the current fiber that may hand over. -/
theorem Tracked.passes_performFiber (h : s.Tracked) (hf : InLine f s)
    {created : Contexts F} {waiter : F} (hcur : s.currentFiber = some g)
    (huser : s.inUserCode = true) {a : Action F Q W} {x : Except Fault (Worker F Q W)}
    (hx : Worker.performFiber created waiter g s a = some x) :
    Passes f (letsPass (.act a)) s x := by
  have hstands := h.stands hf.mem
  have hnodup := h.consistent.nodups.runnable
  have hgf : g ≠ f := fun heq => hf.waits (by rw [hcur, heq])
  unfold Worker.performFiber at hx
  split at hx
  · rename_i prefer now
    obtain rfl := Option.some.inj hx
    exact (comes_schedule hnodup hf.waits created prefer now).map fun y hy => hy
  · rename_i q now
    obtain rfl := Option.some.inj hx
    exact (Tracked.comes_bind hf.waits (hstands.enterQueue q hgf)
      ((h.enterQueue q hcur).mono fun t ht => ht.1) created now).map fun y hy => hy
  · rename_i q w timeout now
    split at hx
    · obtain rfl := Option.some.inj hx
      exact (Keeps.refl hstands false).comes
    · obtain ⟨hfree, hx⟩ := Option.ite_none_right_eq_some.1 hx
      obtain rfl := Option.some.inj hx
      obtain ⟨howner, hw⟩ := isFree_iff.1 hfree
      exact (h.comes_blockUntil hf created waiter q timeout hcur
        (frame_of_inUserCode hcur huser) hw howner now).map fun y hy => hy
  · rename_i w timeout interval fired slice now now'
    obtain ⟨hfree, hx⟩ := Option.ite_none_right_eq_some.1 hx
    obtain rfl := Option.some.inj hx
    obtain ⟨howner, hw⟩ := isFree_iff.1 hfree
    have hset := h.setWaitable (v := makeWaitable timeout interval) hw (by simp [howner])
    have hkind : ∀ q g, ((s.setWaitable w (makeWaitable timeout interval)).waitable w).kind ≠
        .alarm q g := by
      intro q g
      cases interval <;> simp [Worker.setWaitable, makeWaitable]
    have hkeeps : Keeps f false s (s.setWaitable w (makeWaitable timeout interval)) :=
      .of_eq hstands rfl rfl rfl hstands.elsewhere
    exact (hset.comes_wait ⟨hf.mem, hf.waits⟩ created waiter hw howner hkind fired slice now
      now').map fun y hy => hy.after hkeeps
  · rename_i now
    obtain rfl := Option.some.inj hx
    have hkill := hstands.setFiber hgf (s.fiber (some g)).kill
    refine (comes_schedule (h.kill g).consistent.nodups.runnable hf.waits created none now).bind ?_
    rintro ⟨t, _ | _⟩ ht
    · trivial
    · exact ht.after hkill
  · cases hx

omit [DecidableEq Q] [LinearOrder W] in
theorem Stands.setFrame (h : Stands f s) (waiter : F) (frame : Frame W) :
    Keeps f false s (s.setFrame waiter frame) :=
  .of_eq h rfl rfl rfl h.elsewhere

omit [DecidableEq Q] [LinearOrder W] in
theorem Comes.setFrame (h : Comes f pass s t) (waiter : F) (frame : Frame W) :
    Comes f pass s (t.setFrame waiter frame) :=
  ⟨h.behind, h.ahead⟩

omit [DecidableEq Q] [LinearOrder W] in
/-- The waiter has nothing to expire any more. -/
theorem Tracked.passes_decideSleep (h : s.Tracked) (hf : InLine f s) (created : Contexts F)
    {waiter : F} (hframe : ∀ w, s.frame waiter ≠ .alarm w) (now : ℕ) :
    Passes f false s (Worker.decideSleep created waiter now s) := by
  have hsleep : ∀ w, Frame.sleep false ≠ Frame.alarm (W := W) w := fun w => by simp
  obtain ⟨hset, -⟩ := h.setFrame waiter hsleep hframe
  have hkeeps := (h.stands hf.mem).setFrame waiter (.sleep false)
  rw [Worker.decideSleep]
  split
  · exact (hset.comes_suspend ⟨hf.mem, hf.waits⟩ created waiter now).map
      fun x hx => hx.after hkeeps
  · refine (comes_schedule hset.consistent.nodups.runnable hf.waits created none now).map ?_
    rintro ⟨t, did | _⟩ ht
    · cases did with
      | false => exact (ht.setFrame waiter _).after hkeeps
      | true => exact ht.after hkeeps
    · exact ht.after hkeeps

/-- A step of the loop of the waiter. -/
theorem Tracked.passes_performWaiter (h : s.Tracked) (hf : InLine f s)
    {created : Contexts F} {waiter : F} {frame : Frame W} (hframe : s.frame waiter = frame)
    {a : Action F Q W} {x : Except Fault (Worker F Q W)}
    (hx : Worker.performWaiter created waiter s frame a = some x) :
    Passes f (letsPass (.act a)) s x := by
  have hstands := h.stands hf.mem
  have hset : ∀ pass (frame : Frame W), Passes f pass s (.ok (s.setFrame waiter frame)) :=
    fun pass frame => ((hstands.setFrame waiter frame).mono pass).comes
  unfold Worker.performWaiter at hx
  split at hx
  · obtain rfl := Option.some.inj hx
    exact hset _ _
  · split at hx
    · obtain rfl := Option.some.inj hx
      exact hset _ _
    · rename_i w ws hw
      split at hx
      · obtain rfl := Option.some.inj hx
        have hmem : w ∈ s.waiting := by simp [hw]
        exact (h.keeps_expire hf.mem hmem _ _).mono fun t ht => ht.comes
      · obtain rfl := Option.some.inj hx
        exact hset _ _
  · obtain rfl := Option.some.inj hx
    exact h.passes_decideSleep hf created (by simp [hframe]) _
  · split at hx
    · obtain rfl := Option.some.inj hx
      exact hset _ _
    · obtain rfl := Option.some.inj hx
      exact hset _ _
  · obtain rfl := Option.some.inj hx
    exact hset _ _
  · cases hx

omit [LinearOrder W] [DecidableEq Q] in
/-- A round of `Worker::run`. -/
theorem Tracked.passes_performWorker (h : s.Tracked) (hf : InLine f s)
    {created : Contexts F} {a : Action F Q W} {x : Except Fault (Worker F Q W)}
    (hx : Worker.performWorker created s a = some x) : Passes f (letsPass (.act a)) s x := by
  have hstands := h.stands hf.mem
  unfold Worker.performWorker at hx
  split at hx
  · rename_i runEnd
    obtain rfl := Option.some.inj hx
    have hkeeps : Keeps f false s { s with runEnd := runEnd } :=
      .of_eq hstands rfl rfl rfl hstands.elsewhere
    exact hkeeps.comes
  · obtain ⟨-, hx⟩ := Option.ite_none_right_eq_some.1 hx
    obtain rfl := Option.some.inj hx
    exact (comes_schedule h.consistent.nodups.runnable hf.waits created none _).map fun y hy => hy
  · cases hx

/-- Everything that may happen. -/
theorem Tracked.passes_perform (h : s.Tracked) (hf : InLine f s) {created : Contexts F}
    {waiter : F} {a : Action F Q W} {x : Except Fault (Worker F Q W)}
    (hx : Worker.perform created waiter s a = some x) : Passes f (letsPass (.act a)) s x := by
  have hstands := h.stands hf.mem
  rcases perform_cases hx with ⟨-, ⟨w, rfl, rfl⟩ | ⟨g, rfl, rfl⟩⟩ | ⟨g, w, rfl, -, -, rfl⟩ |
    ⟨-, hx⟩ | ⟨-, hx⟩ | ⟨g, huser, hcur, hx⟩ | ⟨-, hx⟩
  · exact (h.keeps_wakeup hf.mem w).mono fun t ht => ht.comes
  · exact (hstands.resume g).mono fun t ht => ht.comes
  · have hkeeps : Keeps f false s (Worker.leaveAlarm w g s) := by
      rw [Worker.leaveAlarm, unscheduleTask_eq]
      exact .of_eq hstands rfl rfl rfl hstands.elsewhere
    exact hkeeps.comes
  · exact h.passes_performWorker hf hx
  · exact h.passes_performWaiter hf rfl hx
  · exact h.passes_performFiber hf hcur huser hx
  · exact h.passes_performUser hf hx

/-- What any deed comes to for a fiber in line. -/
theorem Tracked.comes_act (h : s.Tracked) (hf : InLine f s) {created : Contexts F}
    {waiter : F} {d : Deed F Q W} (ht : Worker.act created waiter s d = some t) :
    Comes f (letsPass d) s t := by
  have hstands := h.stands hf.mem
  cases d with
  | act a =>
      obtain ⟨-, hx | ⟨e, -, rfl⟩⟩ := step_eq_some_iff.1 ht
      · exact h.passes_perform hf hx
      · have hkeeps : Keeps f false s { s with fault := some e } :=
          .of_eq hstands rfl rfl rfl hstands.elsewhere
        exact (hkeeps.mono _).comes
  | kill g =>
      obtain ⟨-, rfl⟩ := act_kill_eq_some_iff.1 ht
      have hcur : (s.setFiber (some g) (s.fiber (some g)).kill).currentFiber = s.currentFiber := rfl
      refine ⟨?_, fun _ _ _ => ?_⟩
      · rw [turned_of_eq hcur]
        simp
      · rw [turns_of_eq hcur, Nat.zero_add]
        exact le_rfl

/-- The step lemma. -/
theorem Tracked.turns_add_ahead_le (h : s.Tracked) (hf : InLine f s) (hft : InLine f t)
    {created : Contexts F} {waiter : F} {d : Deed F Q W}
    (ht : Worker.act created waiter s d = some t) :
    turns s t + t.ahead f ≤ s.ahead f + passing f s d t := by
  have hcomes := h.comes_act hf ht
  rw [passing]
  split
  · exact hcomes.turns_add_ahead_le (h.act ht).consistent.nodups.runnable hf.mem hft.mem
  · rename_i hpass
    exact hcomes.ahead (by simpa using hpass) hft.mem hft.waits

/-- Every fiber gets its turn: in any part of any run in which a fiber stands in line, no more
others get their turn than are in front of it at the beginning, or overtake it in a deed that lets
others pass. -/
theorem turn_comes (created : Contexts F) (waiter : F) (waitable : W → Waitable F Q)
    (before ds : List (Deed F Q W)) {s t : Worker F Q W}
    (hbefore : Transition.run (Worker.act created waiter) (init waiter waitable) before = some s)
    (hr : Transition.run (Worker.act created waiter) s ds = some t) {f : F}
    (hf : Transition.Always (Worker.act created waiter) (InLine f) s ds) :
    Transition.total (Worker.act created waiter) (fun s _ t => turns s t) s ds + t.ahead f ≤
      s.ahead f + Transition.total (Worker.act created waiter) (passing f) s ds := by
  apply hf.total_le (I := Tracked) _ _ (tracked_of_run hbefore) hr
  · exact fun s d t hs ht => hs.act ht
  · exact fun s d t hs hfs hft ht => hs.turns_add_ahead_le hfs hft ht

end Waiter

end Synchronizer

/-- Fiber 1 runs, and fibers 2, 3 and 4 are in line. -/
def lineOfThree : List (Deed ℕ ℕ ℕ) :=
  [.act (.hatch 1), .act (.hatch 2), .act (.hatch 3), .act (.hatch 4), .act (.work 1 1)]

/-- Fiber 1 takes a nap, is woken by fiber 2, and overtakes fibers 3 and 4. -/
def napAndOvertake : List (Deed ℕ ℕ ℕ) :=
  [.act (.wait 5 100 none false false 2 2), .act (.wakeup 5), .act (.yield none 3),
    .act (.yield none 4)]

theorem turn_comes_overtaken :
    ∃ s t, Transition.run (act .all 0) (init 0 fun _ => ⟨0, none, .timed, false⟩)
        lineOfThree = some s ∧
      Transition.run (act .all 0) s napAndOvertake = some t ∧
      s.ahead 4 = 2 ∧ t.ahead 4 = 0 ∧
      Transition.total (act .all 0) (fun s _ t => turns s t) s napAndOvertake = 3 ∧
      Transition.total (act .all 0) (passing 4) s napAndOvertake = 1 ∧
      Transition.total (act .all 0) (fun s _ t => turns s t) s napAndOvertake
        + t.ahead 4 ≤
        s.ahead 4 + Transition.total (act .all 0) (passing 4) s napAndOvertake :=
  ⟨_, _, rfl, rfl, rfl, rfl, rfl, rfl, turn_comes .all 0
    (fun _ => ⟨0, none, .timed, false⟩) lineOfThree napAndOvertake rfl rfl (by decide +kernel)⟩

end Worker

end Zth
