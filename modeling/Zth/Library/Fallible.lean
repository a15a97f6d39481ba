import Mathlib.Tactic.Common

/-!
# Computations that may fail

Rules of pre- and postconditions for computations in `Except ε`: `Sat bad P x` says
that `x` either returns a value with `P`, or fails with an error for which `bad`
holds. What a sequence of computations satisfies follows from what its parts do.
-/

/-- The computation returns a value with `P`, or fails with an error that is `bad`. -/
def Except.Sat {ε α : Type*} (bad : ε → Prop) (P : α → Prop) : Except ε α → Prop
  | .ok a => P a
  | .error e => bad e

namespace Except

variable {ε α β : Type*} {bad : ε → Prop}

/-- A computation that returns. -/
theorem Sat.of_ok {P : α → Prop} {x : Except ε α} {a : α} (hx : x = .ok a) (ha : P a) :
    x.Sat bad P := by
  rw [hx]
  exact ha

/-- The value that is returned. -/
theorem Sat.ok {P : α → Prop} {x : Except ε α} {a : α} (h : x.Sat bad P) (hx : x = .ok a) :
    P a := by
  rw [hx] at h
  exact h

theorem Sat.mono {P R : α → Prop} {x : Except ε α} (h : x.Sat bad P)
    (hP : ∀ a, P a → R a) : x.Sat bad R := by
  cases x with
  | ok a => exact hP a h
  | error e => exact h

theorem Sat.mono_bad {bad' : ε → Prop} {P : α → Prop} {x : Except ε α} (h : x.Sat bad P)
    (hbad : ∀ e, bad e → bad' e) : x.Sat bad' P := by
  cases x with
  | ok a => exact h
  | error e => exact hbad e h

/-- What holds of every value that is returned holds as well. -/
theorem Sat.and {P R : α → Prop} {x : Except ε α} (h : x.Sat bad P)
    (hR : x.Sat (fun _ => True) R) : x.Sat bad fun a => P a ∧ R a := by
  cases x with
  | ok a => exact ⟨h, hR⟩
  | error e => exact h

/-- The sequence rule. -/
theorem Sat.bind {P : α → Prop} {R : β → Prop} {x : Except ε α} {k : α → Except ε β}
    (h : x.Sat bad P) (hk : ∀ a, P a → (k a).Sat bad R) : (x.bind k).Sat bad R := by
  cases x with
  | ok a => exact hk a h
  | error e => exact h

theorem Sat.bind_of_ok {R : β → Prop} {x : Except ε α} {k : α → Except ε β} {a : α}
    (hx : x = .ok a) (hk : (k a).Sat bad R) : (x.bind k).Sat bad R := by
  rw [hx]
  exact hk

theorem Sat.map {P : α → Prop} {R : β → Prop} {x : Except ε α} {g : α → β}
    (h : x.Sat bad P) (hg : ∀ a, P a → R (g a)) : (x.map g).Sat bad R := by
  cases x with
  | ok a => exact hg a h
  | error e => exact h

end Except
