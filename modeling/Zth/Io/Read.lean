import Zth.Io.Sharing

/-!
# Reading from one file descriptor

`zth::io::read` polls, and calls `read` when the file descriptor is readable. That `read`
blocks the whole thread if there is nothing to read anymore, as when two fibers were told of
the same data.
-/

namespace Zth

namespace Sharing

variable {K C I S κ : Type*} [DecidableEq K] [DecidableEq C] {D : Device S}

/-- The thread is not blocked, and a fiber that was told so finds something to read. -/
structure NeverBlocks (D : Device S) (s : Sharing K C I S) : Prop where
  blocked : s.blocked = false
  readable : ∀ c w, s.Told c w → D.ready w.direction s.device = true

/-- The condition on one step: a `read` leaves something for the other fibers that were told to
read. -/
def ReadLeavesReady (D : Device S) (s : Sharing K C I S) : Label C κ S → Prop
  | .go c a => ∀ device, a = .done device → (∃ w, s.Told c w) → s.OthersReady D c device
  | _ => True

/-- Data that arrives takes nothing from a fiber. -/
theorem leavesReady_iff_of_read {k : ServerKind} {initItem : κ → C → Except Errno I}
    {s t : Sharing K C I S} {l : Label C κ S}
    (harrive : ∀ a b, D.outside a b = true → D.ready .input a = true → D.ready .input b = true)
    (hs : Sound [.read] s) (h : AllReady D s) (ht : s.step D k initItem [.read] l = some t) :
    LeavesReady D s l ↔ ReadLeavesReady D s l := by
  cases l with
  | outside device =>
      refine iff_of_true (fun c w htold => ?_) trivial
      have hw : w = .read := List.mem_singleton.1 (hs.wrapper c w (Or.inr htold.1))
      have hready := h c w htold
      rw [step] at ht
      split at ht
      · rename_i houtside
        subst hw
        exact harrive _ _ houtside hready
      · cases ht
  | call c w alloc a =>
      refine iff_of_true (fun device _ hwait => ?_) trivial
      rw [step] at ht
      split at ht
      · rename_i hcond
        rw [List.mem_singleton.1 hcond.2.2.2] at hwait
        cases hwait
      · cases ht
  | poll c contents alloc found => exact iff_of_true trivial trivial
  | serve contents found => exact iff_of_true trivial trivial
  | go c a => exact Iff.rfl

/-- Where nothing outside of the thread reads, a fiber never blocks the thread in the final
`read`, exactly when every `read` leaves something for the other fibers that were told. -/
theorem neverBlocks_always_iff (k : ServerKind) (initItem : κ → C → Except Errno I)
    (harrive : ∀ a b, D.outside a b = true → D.ready .input a = true → D.ready .input b = true)
    (device : S) {u : Sharing K C I S} {ls : List (Label C κ S)}
    (hr : Transition.run (step D k initItem [.read]) (init K C I device) ls = some u) :
    Transition.Always (step D k initItem [.read]) (NeverBlocks D) (init K C I device) ls ↔
      Transition.Guarded (step D k initItem [.read]) (ReadLeavesReady D) (init K C I device)
        ls := by
  refine Transition.always_iff_guarded_of_run (I := Sound [.read]) (fun _ _ _ hs h => hs.step h)
    ?_ (sound_init [.read] device) ⟨rfl, allReady_init D device⟩ hr
  intro s l t hs hP ht
  have hkeeps := hs.keeps hP.readable ht
  rw [← leavesReady_iff_of_read harrive hs hP.readable ht, ← hkeeps.ready]
  exact ⟨fun h => h.readable, fun h => ⟨hkeeps.blocked.trans hP.blocked, h⟩⟩

/-- A pipe, by the number of bytes in it. -/
def pipe : Device ℕ where
  ready d n := match d with
    | .input => decide (0 < n)
    | .output => true
  operate d n m := match d with
    | .input => decide (m < n)
    | .output => decide (n ≤ m)
  outside n m := decide (n ≤ m)

theorem pipe_arrive (a b : ℕ) (h : pipe.outside a b = true) (ha : pipe.ready .input a = true) :
    pipe.ready .input b = true := by
  have hle : a ≤ b := of_decide_eq_true h
  have hpos : 0 < a := of_decide_eq_true ha
  exact decide_eq_true (hpos.trans_le hle)

/-- Nothing is to be initialised but the pollable itself. -/
def initFd (_ : Unit) (c : ℕ) : Except Errno ℕ := .ok c

/-- Fibers 1 and 2 wait, `n` bytes arrive, and both are told. -/
def bothTold (n : ℕ) : List (Label ℕ Unit ℕ) :=
  [.call 1 .read true (.done 0), .poll 1 () (fun _ => true) (.ok [0]),
    .call 2 .read true (.done 0), .poll 2 () (fun _ => true) (.ok [0, 0]),
    .outside n, .serve () (.ok [PollPoller.POLLIN, PollPoller.POLLIN])]

/-- There is a byte for each of them. -/
theorem neverBlocks_always_iff_two :
    (Transition.run (step pipe .pollPoller initFd [.read]) (init Unit ℕ ℕ 0)
        (bothTold 2 ++ [.go 1 (.done 1), .go 2 (.done 0)])).isSome ∧
      (Transition.Always (step pipe .pollPoller initFd [.read]) (NeverBlocks pipe)
          (init Unit ℕ ℕ 0) (bothTold 2 ++ [.go 1 (.done 1), .go 2 (.done 0)]) ↔
        Transition.Guarded (step pipe .pollPoller initFd [.read]) (ReadLeavesReady pipe)
          (init Unit ℕ ℕ 0) (bothTold 2 ++ [.go 1 (.done 1), .go 2 (.done 0)])) :=
  ⟨rfl, neverBlocks_always_iff .pollPoller initFd pipe_arrive 0 rfl⟩

/-- There is one byte. The first fiber reads it, and the other one blocks the thread. -/
theorem not_neverBlocks_one :
    ∃ s, Transition.run (step pipe .pollPoller initFd [.read]) (init Unit ℕ ℕ 0)
        (bothTold 1 ++ [.go 1 (.done 0), .go 2 (.done 0)]) = some s ∧ s.blocked = true ∧
      ¬ Transition.Always (step pipe .pollPoller initFd [.read]) (NeverBlocks pipe)
        (init Unit ℕ ℕ 0) (bothTold 1 ++ [.go 1 (.done 0), .go 2 (.done 0)]) := by
  refine ⟨_, rfl, rfl, fun h => ?_⟩
  have hlast := (h.last rfl).blocked
  cases hlast

end Sharing

end Zth
