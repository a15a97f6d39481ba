import Zth.Library.Run
import Mathlib.Data.List.Perm.Basic

/-!
# Reaping child processes

A process that exits stays a zombie until its parent waits for it. `sigchld_handler` sets a flag
whenever the signal arrives, which is between any two statements, and signals that arrive before
they are handled are one signal. `sigchld_check` is called when a fiber was cleaned up, by the
waiter, and when the worker stops. It returns at once if the flag is not set; otherwise it clears
the flag and waits for a child, until there is none that exited.

The flag is shared by the workers of all threads, and so are the children.
-/

namespace Zth

namespace Children

/-- Where a worker is in `sigchld_check`: not in it, before the flag is cleared, or before
`waitpid`. -/
inductive Pos where
  | idle
  | clear
  | wait
deriving DecidableEq, Repr

/-- The child processes: those that run, those that exited, and those that were waited for. -/
structure State (W P : Type*) where
  running : List P
  zombies : List P
  reaped : List P
  pending : Bool
  sigchldCleanup : Bool
  pos : W → Pos

inductive Action (W P : Type*) where
  | fork (p : P)
  | exit (p : P)
  | signal
  | handler
  | check (w : W)
  | clear (w : W)
  | waitpid (w : W) (p : Option P)
deriving DecidableEq, Repr

variable {W P : Type*} [DecidableEq W] [DecidableEq P]

def State.setPos (w : W) (x : Pos) (s : State W P) : State W P :=
  { s with pos := Function.update s.pos w x }

/-- One step of a child, of the system, or of a worker. The signal is also sent when a child
stops, and which of the zombies `waitpid` returns is up to the system. -/
def step (s : State W P) : Action W P → Option (State W P)
  | .fork p => some { s with running := p :: s.running }
  | .exit p =>
      if p ∈ s.running then
        some { s with running := s.running.erase p, zombies := p :: s.zombies, pending := true }
      else none
  | .signal => some { s with pending := true }
  | .handler =>
      if s.pending then some { s with pending := false, sigchldCleanup := true } else none
  | .check w =>
      if s.pos w = .idle then
        if s.sigchldCleanup then some (s.setPos w .clear) else some s
      else none
  | .clear w =>
      if s.pos w = .clear then some { s.setPos w .wait with sigchldCleanup := false } else none
  | .waitpid w none =>
      -- there is no child, or none of them exited
      if s.pos w = .wait ∧ s.zombies = [] then some (s.setPos w .idle) else none
  | .waitpid w (some p) =>
      if s.pos w = .wait ∧ p ∈ s.zombies then
        some { s.setPos w .clear with zombies := s.zombies.erase p, reaped := p :: s.reaped }
      else none

/-- There are no children yet. -/
def start : State W P := ⟨[], [], [], false, false, fun _ => .idle⟩

def Action.exited? : Action W P → Option P
  | .exit p => some p
  | _ => none

/-- The children that exited, in the order in which they did. -/
def exited (as : List (Action W P)) : List P := as.filterMap Action.exited?

/-- A step of `sigchld_check` of the worker. -/
def Action.IsBy (w : W) : Action W P → Prop
  | .check v => v = w
  | .clear v => v = w
  | .waitpid v _ => v = w
  | _ => False

/-- A zombie is noticed: the signal is still to be handled, or the flag is set, or a worker is
about to wait for it. -/
def Noticed (s : State W P) : Prop :=
  s.zombies ≠ [] → s.pending = true ∨ s.sigchldCleanup = true ∨ ∃ w, s.pos w ≠ .idle

variable {s t : State W P}

omit [DecidableEq P] in
theorem exists_pos_setPos (w : W) {x : Pos} (hx : x ≠ .idle) : ∃ v, (s.setPos w x).pos v ≠ .idle :=
  ⟨w, by simpa [State.setPos] using hx⟩

/-- The flag is cleared before the worker waits, and a worker only stops when there is no zombie,
so a child that exits in between is noticed by the next check. -/
theorem Noticed.step {a : Action W P} (h : Noticed s) (hs : step s a = some t) : Noticed t := by
  intro hz
  cases a with
  | fork p =>
      cases hs
      exact h hz
  | exit p =>
      rw [Children.step] at hs
      split at hs
      · cases hs
        exact Or.inl rfl
      · cases hs
  | signal =>
      cases hs
      exact Or.inl rfl
  | handler =>
      rw [Children.step] at hs
      split at hs
      · cases hs
        exact Or.inr (Or.inl rfl)
      · cases hs
  | check w =>
      rw [Children.step] at hs
      split at hs
      · split at hs
        · cases hs
          exact Or.inr (Or.inr (exists_pos_setPos w (by decide)))
        · cases hs
          exact h hz
      · cases hs
  | clear w =>
      rw [Children.step] at hs
      split at hs
      · cases hs
        exact Or.inr (Or.inr (exists_pos_setPos w (by decide)))
      · cases hs
  | waitpid w p =>
      cases p with
      | none =>
          rw [Children.step] at hs
          split at hs
          · rename_i hnone
            cases hs
            exact absurd hnone.2 hz
          · cases hs
      | some p =>
          rw [Children.step] at hs
          split at hs
          · cases hs
            exact Or.inr (Or.inr (exists_pos_setPos w (by decide)))
          · cases hs

/-- A child that exited is a zombie until it is reaped, and it is reaped once. -/
theorem perm_step {a : Action W P} (hs : step s a = some t) :
    (t.zombies ++ t.reaped).Perm (exited [a] ++ (s.zombies ++ s.reaped)) := by
  cases a with
  | fork p =>
      cases hs
      exact .refl _
  | exit p =>
      rw [step] at hs
      split at hs
      · cases hs
        exact .refl _
      · cases hs
  | signal =>
      cases hs
      exact .refl _
  | handler =>
      rw [step] at hs
      split at hs
      · cases hs
        exact .refl _
      · cases hs
  | check w =>
      rw [step] at hs
      split at hs
      · split at hs <;> cases hs <;> exact .refl _
      · cases hs
  | clear w =>
      rw [step] at hs
      split at hs
      · cases hs
        exact .refl _
      · cases hs
  | waitpid w p =>
      cases p with
      | none =>
          rw [step] at hs
          split at hs
          · cases hs
            exact .refl _
          · cases hs
      | some p =>
          rw [step] at hs
          split at hs
          · rename_i hmem
            cases hs
            calc s.zombies.erase p ++ p :: s.reaped
                _ |>.Perm (p :: s.zombies.erase p ++ s.reaped) := List.perm_middle
                _ |>.Perm (s.zombies ++ s.reaped) :=
                  (List.perm_cons_erase hmem.2).symm.append_right _
          · cases hs

theorem perm_run {as : List (Action W P)} (hr : Transition.run step s as = some t) :
    (t.zombies ++ t.reaped).Perm (exited as ++ (s.zombies ++ s.reaped)) := by
  induction as generalizing s with
  | nil =>
      cases hr
      exact .refl _
  | cons a as ih =>
      obtain ⟨u, hu, hr⟩ := Transition.run_cons_eq_some_iff.1 hr
      have hsplit : exited (a :: as) = exited [a] ++ exited as := by
        rw [exited, ← List.singleton_append, List.filterMap_append]
        rfl
      calc t.zombies ++ t.reaped
          _ |>.Perm (exited as ++ (u.zombies ++ u.reaped)) := ih hr
          _ |>.Perm (exited as ++ (exited [a] ++ (s.zombies ++ s.reaped))) :=
            (perm_step hu).append_left _
          _ |>.Perm (exited [a] ++ (exited as ++ (s.zombies ++ s.reaped))) :=
            List.perm_append_comm_assoc _ _ _
          _ |>.Perm (exited (a :: as) ++ (s.zombies ++ s.reaped)) := by
            rw [hsplit, List.append_assoc]

/-- A worker that is not disturbed waits for one zombie after the other, and stops with the flag
cleared. -/
theorem exists_run_loop (s : State W P) (w : W) (hw : s.pos w = .clear) :
    ∃ as t, (∀ a ∈ as, Action.IsBy w a) ∧ Transition.run step s as = some t ∧
      t.zombies = [] ∧ t.pos = Function.update s.pos w .idle ∧ t.sigchldCleanup = false := by
  cases hz : s.zombies with
  | nil =>
      refine ⟨[.clear w, .waitpid w none],
        ({ s.setPos w .wait with sigchldCleanup := false }).setPos w .idle,
        by simp [Action.IsBy], ?_, ?_⟩
      · rw [Transition.run_cons, step, if_pos hw, Option.bind_some, Transition.run_cons, step,
          if_pos ⟨by simp [State.setPos], hz⟩]
        rfl
      · exact ⟨hz, by simp [State.setPos], rfl⟩
  | cons p ps =>
      have hlen : (s.zombies.erase p).length < s.zombies.length := by
        rw [hz]
        simp
      obtain ⟨as, t, has, hr, ht⟩ := exists_run_loop
        { ({ s.setPos w .wait with sigchldCleanup := false }).setPos w .clear with
          zombies := s.zombies.erase p, reaped := p :: s.reaped } w (by simp [State.setPos])
      refine ⟨.clear w :: .waitpid w (some p) :: as, t, ?_, ?_, ?_⟩
      · simpa [Action.IsBy] using has
      · rw [Transition.run_cons, step, if_pos hw, Option.bind_some, Transition.run_cons, step,
          if_pos ⟨by simp [State.setPos], by simp [State.setPos, hz]⟩, Option.bind_some]
        exact hr
      · simpa [State.setPos] using ht
termination_by s.zombies.length

/-- The signal was handled, and no worker is in `sigchld_check`. -/
def Settled (s : State W P) : Prop := s.pending = false ∧ ∀ w, s.pos w = .idle

omit [DecidableEq W] [DecidableEq P] in
theorem zombies_eq_nil (h : Noticed s) (hs : Settled s) (hflag : s.sigchldCleanup = false) :
    s.zombies = [] := by
  by_contra hz
  obtain hpending | hset | ⟨w, hw⟩ := h hz
  · rw [hs.1] at hpending
    cases hpending
  · rw [hflag] at hset
    cases hset
  · exact hw (hs.2 w)

/-- The next check of any worker reaps what there is. -/
theorem exists_run_check (w : W) (h : Noticed s) (hs : Settled s) :
    ∃ as t, (∀ a ∈ as, Action.IsBy w a) ∧ Transition.run step s as = some t ∧
      t.zombies = [] ∧ t.pos = s.pos ∧ t.sigchldCleanup = false := by
  cases hflag : s.sigchldCleanup with
  | false =>
      refine ⟨[.check w], s, by simp [Action.IsBy], ?_, zombies_eq_nil h hs hflag, rfl, hflag⟩
      rw [Transition.run_cons, step, if_pos (hs.2 w), if_neg (by rw [hflag]; decide)]
      rfl
  | true =>
      obtain ⟨as, t, has, hr, hz, hpos, hclear⟩ :=
        exists_run_loop (s.setPos w .clear) w (by simp [State.setPos])
      refine ⟨.check w :: as, t, by simpa [Action.IsBy] using has, ?_, hz, ?_, hclear⟩
      · rw [Transition.run_cons, step, if_pos (hs.2 w), if_pos hflag, Option.bind_some]
        exact hr
      · rw [hpos, State.setPos, Function.update_idem, ← hs.2 w, Function.update_eq_self]

/-- Whenever the signal was handled and no worker is in `sigchld_check`: if the flag is not set,
every child that exited was waited for exactly once, and otherwise the next check of any worker
does that. -/
theorem exited_are_reaped (as : List (Action W P)) (hr : Transition.run step start as = some t)
    (ht : Settled t) :
    (t.sigchldCleanup = false → t.reaped.Perm (exited as)) ∧
    ∀ w, ∃ bs u, (∀ b ∈ bs, Action.IsBy w b) ∧ Transition.run step t bs = some u ∧
      u.reaped.Perm (exited as) ∧ u.pos = t.pos ∧ u.sigchldCleanup = false := by
  have hnoticed : Noticed t :=
    Transition.run_invariant (P := Noticed) (fun _ _ _ h hs => h.step hs)
      (fun h => absurd rfl h) hr
  have hperm : (t.zombies ++ t.reaped).Perm (exited as) := by
    have hperm := perm_run hr
    simpa [start] using hperm
  constructor
  · intro hflag
    rw [zombies_eq_nil hnoticed ht hflag] at hperm
    exact hperm
  · intro w
    obtain ⟨bs, u, hbs, hu, hz, hpos, hflag⟩ := exists_run_check w hnoticed ht
    have hby : exited bs = [] := by
      rw [exited, List.filterMap_eq_nil_iff]
      intro b hb
      have hb := hbs b hb
      cases b <;> first | rfl | exact hb.elim
    have hpermu := perm_run hu
    rw [hz, hby, List.nil_append, List.nil_append] at hpermu
    exact ⟨bs, u, hbs, hu, hpermu.trans hperm, hpos, hflag⟩

/-- Two children exit. The second one does so when the worker is about to find that there is no
zombie left, and its signal is handled then. -/
def twoChildren : List (Action Bool ℕ) :=
  [.fork 1, .fork 2, .exit 2, .handler, .check false, .clear false, .exit 1,
    .waitpid false (some 2), .clear false, .waitpid false (some 1), .clear false,
    .waitpid false none, .handler]

theorem exited_are_reaped_twoChildren :
    ∃ t : State Bool ℕ, Transition.run step start twoChildren = some t ∧
      (t.sigchldCleanup = false → t.reaped.Perm (exited twoChildren)) ∧
      ∀ w, ∃ bs u, (∀ b ∈ bs, Action.IsBy w b) ∧ Transition.run step t bs = some u ∧
        u.reaped.Perm (exited twoChildren) ∧ u.pos = t.pos ∧ u.sigchldCleanup = false :=
  ⟨_, rfl, exited_are_reaped twoChildren rfl ⟨rfl, by decide⟩⟩

end Children

end Zth
