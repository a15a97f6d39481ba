import Mathlib.Data.List.Basic

/-!
# Calls that may throw

A call changes a state and either returns or throws. On the way it asks for
resources, and a request that is refused is what it throws for. Since a call
ends at the first refusal, how its requests are answered is one number: how many
of them are granted before one is refused, and `none` if all are.

A call that must not throw ends the program when it would.

`Outcome.Meets` is a postcondition for both ways a call can end. A call that
ends the program, or leaves the rules of its language, ends in neither, and meets
nothing.
-/

/-- How many requests are granted before one is refused. -/
abbrev Grants := Option ℕ

namespace Grants

/-- One request: the grants that are left, or a refusal. -/
def request : Grants → Option Grants
  | none => some none
  | some 0 => none
  | some (n + 1) => some (some n)

/-- The next `n` requests are granted. -/
def Covers (g : Grants) (n : ℕ) : Prop :=
  ∀ k, g = some k → n ≤ k

theorem covers_zero (g : Grants) : Covers g 0 :=
  fun k _ => Nat.zero_le k

/-- A request is refused, or it is granted and takes one grant. -/
theorem request_cases (g : Grants) :
    g = some 0 ∧ request g = none ∨
      ∃ h, request g = some h ∧ (∀ k, g = some (k + 1) ↔ h = some k) ∧ g ≠ some 0 := by
  match g with
  | none => exact .inr ⟨none, rfl, by simp, by simp⟩
  | some 0 => exact .inl ⟨rfl, rfl⟩
  | some (k + 1) => exact .inr ⟨some k, rfl, by simp, by simp⟩

/-- The grants before a request, from those after it. -/
theorem Covers.succ {g h : Grants} {n : ℕ} (hg : ∀ k, g = some (k + 1) ↔ h = some k)
    (hne : g ≠ some 0) (hn : Covers h n) : Covers g (n + 1) := by
  intro k hk
  cases k with
  | zero => exact absurd hk hne
  | succ k => exact Nat.succ_le_succ (hn k ((hg k).1 hk))

end Grants

/-- How a call ends. -/
inductive Outcome (σ : Type*) where
  | returned (s : σ) (left : Grants)
  | thrown (s : σ)
  | terminated
  | undefined

namespace Outcome

variable {σ τ : Type*}

/-- Go on after a call that returned. -/
def andThen (o : Outcome σ) (f : σ → Grants → Outcome σ) : Outcome σ :=
  match o with
  | returned s g => f s g
  | thrown s => thrown s
  | terminated => terminated
  | undefined => undefined

/-- A call that must not throw. -/
def noexcept (o : Outcome σ) : Outcome σ :=
  match o with
  | thrown _ => terminated
  | o => o

/-- The state in which a call ended. -/
def state? : Outcome σ → Option σ
  | returned s _ => some s
  | thrown s => some s
  | terminated => none
  | undefined => none

/-- Whether the call returned. -/
def isReturned : Outcome σ → Bool
  | returned _ _ => true
  | thrown _ => false
  | terminated => false
  | undefined => false

/-- A call that returns does so with `R`, one that throws does so with `T`. -/
def Meets (o : Outcome σ) (R T : σ → Prop) : Prop :=
  match o with
  | returned s _ => R s
  | thrown s => T s
  | terminated => False
  | undefined => False

theorem Meets.andThen {o : Outcome σ} {f : σ → Grants → Outcome σ} {R R' T : σ → Prop}
    (ho : o.Meets R T) (hf : ∀ s g, R s → (f s g).Meets R' T) :
    (o.andThen f).Meets R' T := by
  cases o with
  | returned s g => exact hf s g ho
  | thrown s => exact ho
  | terminated => exact ho.elim
  | undefined => exact ho.elim

theorem Meets.mono {o : Outcome σ} {R R' T T' : σ → Prop} (ho : o.Meets R T)
    (hR : ∀ s, R s → R' s) (hT : ∀ s, T s → T' s) : o.Meets R' T' := by
  cases o with
  | returned s g => exact hR s ho
  | thrown s => exact hT s ho
  | terminated => exact ho.elim
  | undefined => exact ho.elim

/-- What a call that has a postcondition leaves behind. -/
theorem Meets.state {o : Outcome σ} {R T : σ → Prop} (ho : o.Meets R T) :
    ∃ s, o.state? = some s ∧ if o.isReturned then R s else T s := by
  cases o with
  | returned s g => exact ⟨s, rfl, ho⟩
  | thrown s => exact ⟨s, rfl, ho⟩
  | terminated => exact ho.elim
  | undefined => exact ho.elim

end Outcome
