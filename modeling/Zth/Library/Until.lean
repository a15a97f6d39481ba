import Mathlib.Logic.Function.Iterate

/-!
# A machine that goes on until something

A machine is a total step function. `Until` says of the next `n` steps that the states are fine,
up to where something is reached, if it is. A claim for every `n` speaks of a machine that may
never get there; such claims compose like the code that the machine executes.
-/

namespace Transition

variable {σ : Type*}

/-- In `n` steps, every state is `ok`, up to a state that is `Q`. -/
def Until (step : σ → σ) (ok Q : σ → Prop) : ℕ → σ → Prop
  | 0, _ => True
  | n + 1, s => Q s ∨ ok s ∧ Until step ok Q n (step s)

/-- The machine gets to a state that is `Q`. -/
def Reaches (step : σ → σ) (s t : σ) : Prop := ∃ n, step^[n] s = t

variable {step : σ → σ} {ok P Q : σ → Prop}

theorem Until.next {n : ℕ} {s : σ} (hs : ok s) (h : ∀ k < n, Until step ok Q k (step s)) :
    Until step ok Q n s := by
  cases n with
  | zero => trivial
  | succ n => exact .inr ⟨hs, h n (Nat.lt_succ_self n)⟩

theorem Until.of_reached {n : ℕ} {s : σ} (hs : Q s) : Until step ok Q n s := by
  cases n with
  | zero => trivial
  | succ n => exact .inl hs

/-- A machine that stopped. -/
theorem Until.of_stuck {s : σ} (hs : ok s) (hstuck : step s = s) (n : ℕ) :
    Until step ok Q n s := by
  induction n with
  | zero => trivial
  | succ n ih => exact .inr ⟨hs, by rwa [hstuck]⟩

/-- What is reached first goes on from there. -/
theorem Until.bind {n : ℕ} {s : σ} (h : Until step ok P n s)
    (hP : ∀ k ≤ n, ∀ t, P t → Until step ok Q k t) : Until step ok Q n s := by
  induction n generalizing s with
  | zero => trivial
  | succ n ih =>
      rcases h with h | ⟨hs, h⟩
      · exact hP (n + 1) (Nat.le_refl _) s h
      · exact .inr ⟨hs, ih h fun k hk t ht => hP k (Nat.le_succ_of_le hk) t ht⟩

theorem Until.mono {n : ℕ} {s : σ} (h : Until step ok P n s) (hPQ : ∀ t, P t → Q t) :
    Until step ok Q n s := by
  induction n generalizing s with
  | zero => trivial
  | succ n ih => exact h.imp (hPQ s) (And.imp_right ih)

/-- A state that the machine gets to is `ok`, or it is behind one that is `Q`. -/
theorem Until.iterate {s : σ} (h : ∀ n, Until step ok Q n s) (n : ℕ) :
    ok (step^[n] s) ∨ ∃ k ≤ n, Q (step^[k] s) := by
  induction n generalizing s with
  | zero => exact (h 1).elim (fun hQ => .inr ⟨0, Nat.le_refl 0, hQ⟩) fun hok => .inl hok.1
  | succ n ih =>
      by_cases hQ : Q s
      · exact .inr ⟨0, Nat.zero_le _, hQ⟩
      · have hstep : ∀ k, Until step ok Q k (step s) := fun k => ((h (k + 1)).resolve_left hQ).2
        rw [Function.iterate_succ_apply]
        refine (ih hstep).imp id ?_
        rintro ⟨k, hk, ht⟩
        exact ⟨k + 1, Nat.succ_le_succ hk, by rwa [Function.iterate_succ_apply]⟩

theorem Reaches.refl (s : σ) : Reaches step s s := ⟨0, rfl⟩

theorem Reaches.trans {s t u : σ} (h : Reaches step s t) (h' : Reaches step t u) :
    Reaches step s u := by
  obtain ⟨n, rfl⟩ := h
  obtain ⟨k, rfl⟩ := h'
  exact ⟨k + n, Function.iterate_add_apply step k n s⟩

theorem Reaches.next {s t : σ} (h : Reaches step (step s) t) : Reaches step s t :=
  .trans ⟨1, rfl⟩ h

/-- A machine that stopped does not go on. -/
theorem iterate_of_stuck {s : σ} (hstuck : step s = s) {k n : ℕ} {t : σ}
    (hk : step^[k] t = s) (hn : k ≤ n) : step^[n] t = s := by
  obtain ⟨d, rfl⟩ := Nat.exists_eq_add_of_le hn
  rw [Nat.add_comm, Function.iterate_add_apply, hk]
  exact Function.iterate_fixed hstuck d

end Transition
