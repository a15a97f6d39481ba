import Mathlib.Data.List.Basic

/-!
# Runs of a partial step function

A component that is driven from outside is a partial step function: `step s a`
is the state after the action `a`, and `none` when `a` is not enabled in `s`.
A run performs a list of actions from left to right. Two predicates follow a
run: `Guarded` says that every action meets a condition in the state it is
taken in, and `Always` that a property holds in every state the run visits.

The rules below are all that the models use: an invariant of a step holds at
the end of every run, with or without a guard, a simulation of one step is a
simulation of whole runs, and a condition that is exact for one step is exact
for whole runs.
-/

namespace Transition

/-- The state after a list of actions; `none` as soon as one is not enabled. -/
def run {σ ι : Type*} (step : σ → ι → Option σ) : σ → List ι → Option σ
  | s, [] => some s
  | s, a :: as => (step s a).bind fun t => run step t as

/-- Every action of the run meets `ok` in the state it is taken in. -/
def Guarded {σ ι : Type*} (step : σ → ι → Option σ) (ok : σ → ι → Prop) :
    σ → List ι → Prop
  | _, [] => True
  | s, a :: as => ok s a ∧ ∀ t, step s a = some t → Guarded step ok t as

/-- The property `P` holds in every state that the run visits. -/
def Always {σ ι : Type*} (step : σ → ι → Option σ) (P : σ → Prop) :
    σ → List ι → Prop
  | s, [] => P s
  | s, a :: as => P s ∧ ∀ t, step s a = some t → Always step P t as

@[simp] theorem run_nil {σ ι : Type*} (step : σ → ι → Option σ) (s : σ) :
    run step s [] = some s := rfl

theorem run_cons {σ ι : Type*} (step : σ → ι → Option σ) (s : σ) (a : ι)
    (as : List ι) :
    run step s (a :: as) = (step s a).bind fun t => run step t as := rfl

/-- A run that starts with `a` is one step and the rest of the run. -/
theorem run_cons_eq_some_iff {σ ι : Type*} {step : σ → ι → Option σ} {s u : σ}
    {a : ι} {as : List ι} :
    run step s (a :: as) = some u ↔
      ∃ t, step s a = some t ∧ run step t as = some u := by
  rw [run_cons, Option.bind_eq_some_iff]

/-- A run can be cut in two. -/
theorem run_append {σ ι : Type*} (step : σ → ι → Option σ) (s : σ) (as bs : List ι) :
    run step s (as ++ bs) = (run step s as).bind fun t => run step t bs := by
  induction as generalizing s with
  | nil => rfl
  | cons a as ih =>
      rw [List.cons_append, run_cons, run_cons, Option.bind_assoc]
      exact congrArg _ (funext fun t => ih t)

/-- A guarded run, built from its first step. -/
theorem Guarded.cons {σ ι : Type*} {step : σ → ι → Option σ} {ok : σ → ι → Prop}
    {s t : σ} {a : ι} {as : List ι} (hok : ok s a) (ht : step s a = some t)
    (hg : Guarded step ok t as) : Guarded step ok s (a :: as) := by
  refine ⟨hok, fun t' ht' => ?_⟩
  obtain rfl : t = t' := Option.some.inj (ht.symm.trans ht')
  exact hg

/-- A guard that can be checked can be checked along a run. -/
instance decidableGuarded {σ ι : Type*} (step : σ → ι → Option σ) (ok : σ → ι → Prop)
    [∀ s a, Decidable (ok s a)] : ∀ (s : σ) (as : List ι), Decidable (Guarded step ok s as)
  | _, [] => isTrue trivial
  | s, a :: as =>
      match h : step s a with
      | none => decidable_of_iff (ok s a) ⟨fun hok => ⟨hok, fun t ht => by cases h.symm.trans ht⟩,
          fun hg => hg.1⟩
      | some t =>
          have := decidableGuarded step ok t as
          decidable_of_iff (ok s a ∧ Guarded step ok t as)
            ⟨fun hg => .cons hg.1 h hg.2, fun hg => ⟨hg.1, hg.2 t h⟩⟩

/-- A property that can be checked can be checked along a run. -/
instance decidableAlways {σ ι : Type*} (step : σ → ι → Option σ) (P : σ → Prop)
    [DecidablePred P] : ∀ (s : σ) (as : List ι), Decidable (Always step P s as)
  | s, [] => inferInstanceAs (Decidable (P s))
  | s, a :: as =>
      match h : step s a with
      | none => decidable_of_iff (P s) ⟨fun hP => ⟨hP, fun t ht => by cases h.symm.trans ht⟩,
          fun hP => hP.1⟩
      | some t =>
          have := decidableAlways step P t as
          decidable_of_iff (P s ∧ Always step P t as)
            ⟨fun hP => ⟨hP.1, fun t' ht' => by cases h.symm.trans ht'; exact hP.2⟩,
              fun hP => ⟨hP.1, hP.2 t h⟩⟩

/-- A guarded run can be cut in two. -/
theorem Guarded.append {σ ι : Type*} {step : σ → ι → Option σ} {ok : σ → ι → Prop}
    {s t : σ} {as bs : List ι} (hg : Guarded step ok s (as ++ bs))
    (hr : run step s as = some t) : Guarded step ok s as ∧ Guarded step ok t bs := by
  induction as generalizing s with
  | nil =>
      rw [run_nil] at hr
      cases hr
      exact ⟨trivial, hg⟩
  | cons a as ih =>
      obtain ⟨t', ht', hr⟩ := run_cons_eq_some_iff.1 hr
      obtain ⟨has, hbs⟩ := ih (hg.2 t' ht') hr
      exact ⟨Guarded.cons hg.1 ht' has, hbs⟩

/-- A condition on the actions alone. -/
theorem Guarded.of_forall {σ ι : Type*} (step : σ → ι → Option σ) {ok : ι → Prop} (s : σ)
    {as : List ι} (h : ∀ a ∈ as, ok a) : Guarded step (fun _ a => ok a) s as := by
  induction as generalizing s with
  | nil => trivial
  | cons a as ih =>
      refine ⟨h a List.mem_cons_self, fun t _ => ?_⟩
      exact ih t fun b hb => h b (List.mem_cons_of_mem a hb)

/-- Two conditions that every action meets. -/
theorem Guarded.and {σ ι : Type*} {step : σ → ι → Option σ} {ok ok' : σ → ι → Prop}
    {s : σ} {as : List ι} (h : Guarded step ok s as) (h' : Guarded step ok' s as) :
    Guarded step (fun s a => ok s a ∧ ok' s a) s as := by
  induction as generalizing s with
  | nil => trivial
  | cons a as ih => exact ⟨⟨h.1, h'.1⟩, fun t ht => ih (h.2 t ht) (h'.2 t ht)⟩

/-- A property that every guarded step preserves holds at the end of every
guarded run. -/
theorem Guarded.invariant {σ ι : Type*} {step : σ → ι → Option σ}
    {ok : σ → ι → Prop} {P : σ → Prop}
    (hstep : ∀ s a t, P s → ok s a → step s a = some t → P t)
    {s u : σ} {as : List ι} (hg : Guarded step ok s as) (hs : P s)
    (hr : run step s as = some u) : P u := by
  induction as generalizing s with
  | nil =>
      rw [run_nil] at hr
      exact Option.some.inj hr ▸ hs
  | cons a as ih =>
      obtain ⟨t, ht, hr⟩ := run_cons_eq_some_iff.1 hr
      exact ih (hg.2 t ht) (hstep s a t hs hg.1 ht) hr

/-- If a guard keeps an invariant, and the two give another guard, then every run that
meets the first meets the second as well. -/
theorem Guarded.imp {σ ι : Type*} {step : σ → ι → Option σ} {ok ok' : σ → ι → Prop}
    {P : σ → Prop} (hstep : ∀ s a t, P s → ok s a → step s a = some t → P t)
    (himp : ∀ s a, P s → ok s a → ok' s a) {s : σ} {as : List ι}
    (hg : Guarded step ok s as) (hs : P s) : Guarded step ok' s as := by
  induction as generalizing s with
  | nil => trivial
  | cons a as ih =>
      refine ⟨himp s a hs hg.1, ?_⟩
      intro t ht
      exact ih (hg.2 t ht) (hstep s a t hs hg.1 ht)

/-- A property that every step preserves holds at the end of every run. -/
theorem run_invariant {σ ι : Type*} {step : σ → ι → Option σ} {P : σ → Prop}
    (hstep : ∀ s a t, P s → step s a = some t → P t)
    {s u : σ} {as : List ι} (hs : P s) (hr : run step s as = some u) : P u := by
  induction as generalizing s with
  | nil =>
      rw [run_nil] at hr
      exact Option.some.inj hr ▸ hs
  | cons a as ih =>
      obtain ⟨t, ht, hr⟩ := run_cons_eq_some_iff.1 hr
      exact ih (hstep s a t hs ht) hr

/-- What holds in every state that a run visits holds in the first one. -/
theorem Always.first {σ ι : Type*} {step : σ → ι → Option σ} {P : σ → Prop} {s : σ}
    {as : List ι} (h : Always step P s as) : P s := by
  cases as with
  | nil => exact h
  | cons a as => exact h.1

/-- What holds in every state that a run visits holds in the last one. -/
theorem Always.last {σ ι : Type*} {step : σ → ι → Option σ} {P : σ → Prop} {s u : σ}
    {as : List ι} (h : Always step P s as) (hr : run step s as = some u) : P u := by
  induction as generalizing s with
  | nil =>
      rw [run_nil] at hr
      exact Option.some.inj hr ▸ h
  | cons a as ih =>
      obtain ⟨t, ht, hr⟩ := run_cons_eq_some_iff.1 hr
      exact ih (h.2 t ht) hr

/-- If every step of the specification is one of the implementation that keeps them
related, every run of the specification is one of the implementation. -/
theorem run_simulation {σ τ ι : Type*} {step : σ → ι → Option σ}
    {spec : τ → ι → Option τ} {R : σ → τ → Prop}
    (hstep : ∀ s a l b, R s a → spec a l = some b → ∃ t, step s l = some t ∧ R t b)
    {s : σ} {a b : τ} {ls : List ι} (hs : R s a) (hr : run spec a ls = some b) :
    ∃ t, run step s ls = some t ∧ R t b := by
  induction ls generalizing s a with
  | nil =>
      rw [run_nil] at hr
      exact ⟨s, rfl, Option.some.inj hr ▸ hs⟩
  | cons l ls ih =>
      obtain ⟨a', ha', hr⟩ := run_cons_eq_some_iff.1 hr
      obtain ⟨s', hs', hR⟩ := hstep s a l a' hs ha'
      obtain ⟨t, ht, hR'⟩ := ih hR hr
      exact ⟨t, run_cons_eq_some_iff.2 ⟨s', hs', ht⟩, hR'⟩

/-- If every step of the specification is some steps of the implementation, every run of the
specification is a run of the implementation. -/
theorem exists_run_of_steps {σ τ ι κ : Type*} {step : σ → ι → Option σ}
    {spec : τ → κ → Option τ} {f : τ → σ}
    (hstep : ∀ a l b, spec a l = some b → ∃ is, run step (f a) is = some (f b))
    {a b : τ} {ls : List κ} (hr : run spec a ls = some b) :
    ∃ is, run step (f a) is = some (f b) := by
  induction ls generalizing a with
  | nil =>
      rw [run_nil] at hr
      exact ⟨[], Option.some.inj hr ▸ rfl⟩
  | cons l ls ih =>
      obtain ⟨a', ha', hr⟩ := run_cons_eq_some_iff.1 hr
      obtain ⟨is, his⟩ := hstep a l a' ha'
      obtain ⟨js, hjs⟩ := ih hr
      refine ⟨is ++ js, ?_⟩
      rw [run_append, his]
      exact hjs

/-- If a step that meets `ok` keeps an invariant with `P`, and one that does not meet `ok` leads
to a state without `P`, then `P` holds along a run exactly when every step of it meets `ok`. -/
theorem always_iff_guarded_of_invariant {σ ι : Type*} {step : σ → ι → Option σ}
    {ok : σ → ι → Prop} {I P : σ → Prop} (hP : ∀ s, I s → P s)
    (hinv : ∀ s a t, I s → ok s a → step s a = some t → I t)
    (hstep : ∀ s a t, I s → step s a = some t → P t → ok s a)
    {s u : σ} {as : List ι} (hI : I s) (hr : run step s as = some u) :
    Always step P s as ↔ Guarded step ok s as := by
  induction as generalizing s with
  | nil => exact ⟨fun _ => trivial, fun _ => hP s hI⟩
  | cons a as ih =>
      obtain ⟨t, ht, hr⟩ := run_cons_eq_some_iff.1 hr
      constructor
      · rintro ⟨-, h⟩
        have hPt : P t := (h t ht).first
        have hok := hstep s a t hI ht hPt
        exact Guarded.cons hok ht ((ih (hinv s a t hI hok ht) hr).1 (h t ht))
      · rintro ⟨hok, h⟩
        refine ⟨hP s hI, ?_⟩
        intro t' ht'
        obtain rfl : t = t' := Option.some.inj (ht.symm.trans ht')
        exact (ih (hinv s a t hI hok ht) hr).2 (h t ht)

/-- If a step from a state with `P` leads to a state with `P` exactly when it meets
`ok`, given an invariant, then `P` holds along a run exactly when every step of it meets
`ok`. -/
theorem always_iff_guarded_of_run {σ ι : Type*} {step : σ → ι → Option σ}
    {ok : σ → ι → Prop} {I P : σ → Prop}
    (hinv : ∀ s a t, I s → step s a = some t → I t)
    (hstep : ∀ s a t, I s → P s → step s a = some t → (P t ↔ ok s a))
    {s u : σ} {as : List ι} (hI : I s) (hs : P s) (hr : run step s as = some u) :
    Always step P s as ↔ Guarded step ok s as := by
  apply always_iff_guarded_of_invariant (I := fun s => I s ∧ P s) _ _ _ ⟨hI, hs⟩ hr
  · exact fun s h => h.2
  · exact fun s a t h hok ht => ⟨hinv s a t h.1 ht, (hstep s a t h.1 h.2 ht).2 hok⟩
  · exact fun s a t h ht => (hstep s a t h.1 h.2 ht).1

/-- If every action is enabled in a state with `P` and keeps it, every list of actions is a run
that ends with `P`. -/
theorem exists_run_invariant {σ ι : Type*} {step : σ → ι → Option σ} {P : σ → Prop}
    (hstep : ∀ s a, P s → ∃ t, step s a = some t ∧ P t) {s : σ} (hs : P s) (as : List ι) :
    ∃ u, run step s as = some u ∧ P u := by
  induction as generalizing s with
  | nil => exact ⟨s, rfl, hs⟩
  | cons a as ih =>
      obtain ⟨t, ht, hPt⟩ := hstep s a hs
      obtain ⟨u, hu, hPu⟩ := ih hPt
      exact ⟨u, run_cons_eq_some_iff.2 ⟨t, ht, hu⟩, hPu⟩

/-- The same for actions that meet a guard. -/
theorem Guarded.exists_run_invariant {σ ι : Type*} {step : σ → ι → Option σ}
    {ok : σ → ι → Prop} {P : σ → Prop}
    (hstep : ∀ s a, P s → ok s a → ∃ t, step s a = some t ∧ P t) {s : σ} {as : List ι}
    (hg : Guarded step ok s as) (hs : P s) : ∃ u, run step s as = some u ∧ P u := by
  induction as generalizing s with
  | nil => exact ⟨s, rfl, hs⟩
  | cons a as ih =>
      obtain ⟨t, ht, hPt⟩ := hstep s a hs hg.1
      obtain ⟨u, hu, hPu⟩ := ih (hg.2 t ht) hPt
      exact ⟨u, run_cons_eq_some_iff.2 ⟨t, ht, hu⟩, hPu⟩

/-- Where every action is enabled, every list of actions is a run. -/
theorem exists_run {σ ι : Type*} {step : σ → ι → Option σ}
    (htotal : ∀ s a, ∃ t, step s a = some t) (s : σ) (as : List ι) :
    ∃ u, run step s as = some u := by
  obtain ⟨u, hu, -⟩ := exists_run_invariant (P := fun _ => True)
    (fun s a _ => (htotal s a).imp fun _ ht => ⟨ht, trivial⟩) (s := s) trivial as
  exact ⟨u, hu⟩

/-- The same, where every action is enabled. -/
theorem always_iff_guarded {σ ι : Type*} {step : σ → ι → Option σ}
    {ok : σ → ι → Prop} {P : σ → Prop}
    (hstep : ∀ s a t, P s → step s a = some t → (P t ↔ ok s a))
    (htotal : ∀ s a, ∃ t, step s a = some t)
    {s : σ} {as : List ι} (hs : P s) :
    Always step P s as ↔ Guarded step ok s as := by
  obtain ⟨u, hu⟩ := exists_run htotal s as
  exact always_iff_guarded_of_run (I := fun _ => True) (fun _ _ _ _ _ => trivial)
    (fun s a t _ => hstep s a t) trivial hs hu

/-- What the steps of a run come to together. -/
def total {σ ι : Type*} (step : σ → ι → Option σ) (cost : σ → ι → σ → ℕ) : σ → List ι → ℕ
  | _, [] => 0
  | s, a :: as =>
      match step s a with
      | none => 0
      | some t => cost s a t + total step cost t as

theorem total_cons {σ ι : Type*} {step : σ → ι → Option σ} (cost : σ → ι → σ → ℕ) {s t : σ}
    {a : ι} (ht : step s a = some t) (as : List ι) :
    total step cost s (a :: as) = cost s a t + total step cost t as := by
  rw [total, ht]

/-- If the potential goes down by the cost of a step, but for what the step pays, it does so over
a run in which `P` holds throughout. -/
theorem Always.total_le {σ ι : Type*} {step : σ → ι → Option σ} {cost paid : σ → ι → σ → ℕ}
    {I P : σ → Prop} {φ : σ → ℕ} (hinv : ∀ s a t, I s → step s a = some t → I t)
    (hstep : ∀ s a t, I s → P s → P t → step s a = some t → cost s a t + φ t ≤ φ s + paid s a t)
    {s u : σ} {as : List ι} (h : Always step P s as) (hI : I s) (hr : run step s as = some u) :
    total step cost s as + φ u ≤ φ s + total step paid s as := by
  induction as generalizing s with
  | nil =>
      rw [run_nil] at hr
      obtain rfl := Option.some.inj hr
      exact Nat.le_of_eq (Nat.zero_add _)
  | cons a as ih =>
      obtain ⟨t, ht, hr⟩ := run_cons_eq_some_iff.1 hr
      have hPt : P t := (h.2 t ht).first
      have hPs : P s := h.1
      have hone := hstep s a t hI hPs hPt ht
      have hrest := ih (h.2 t ht) (hinv s a t hI ht) hr
      rw [total_cons cost ht, total_cons paid ht]
      omega

end Transition
