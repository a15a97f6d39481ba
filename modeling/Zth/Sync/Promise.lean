import Mathlib.Logic.Equiv.Basic
import Zth.Library.Run

/-!
# The promise of a future

A promise owns a shared state, of which it hands out the future once. The shared state moves
from one promise to another by a move construction, a move assignment or a swap. Whether its
future was handed out is remembered by the promise, though, and only a move construction takes
that along.
-/

namespace Zth

/-- The errors of a promise. -/
inductive FutureErrc where
  | noState
  | futureAlreadyRetrieved
deriving DecidableEq, Repr

/-- A promise. The shared states are known by a number. -/
structure StdPromise where
  mFuture : Option ℕ
  mGotFuture : Bool
deriving DecidableEq, Repr

namespace StdPromise

/-- A new promise, with a new shared state. -/
def new (s : ℕ) : StdPromise := ⟨some s, false⟩

/-- The future of the shared state, or what is thrown. -/
def getFuture (p : StdPromise) : StdPromise × Except FutureErrc ℕ :=
  match p.mFuture with
  | none => (p, .error .noState)
  | some s =>
      if p.mGotFuture then (p, .error .futureAlreadyRetrieved)
      else ({ p with mGotFuture := true }, .ok s)

end StdPromise

/-- The promises that exist, and the number of shared states that were made for them. The code
does not have `retrieved`, which says of which states the future was handed out. -/
structure Promises (O : Type*) where
  promise : O → Option StdPromise
  made : ℕ
  retrieved : ℕ → Bool

namespace Promises

variable {O : Type*} [DecidableEq O]

/-- There are no promises yet. -/
def init (O : Type*) : Promises O := ⟨fun _ => none, 0, fun _ => false⟩

/-- What is done to the promises. -/
inductive Op (O : Type*) where
  | construct (o : O)
  | moveConstruct (o other : O)
  | moveAssign (o other : O)
  | swap (o other : O)
  | getFuture (o : O)

/-- Another value of a promise. -/
def set (o : O) (p : StdPromise) (w : Promises O) : Promises O :=
  { w with promise := Function.update w.promise o (some p) }

/-- The pointer of a promise is moved from: it is null afterwards. -/
def release (o : O) (p : StdPromise) (w : Promises O) : Promises O :=
  w.set o { p with mFuture := none }

/-- One operation. An object is constructed once, and exists when it is used. -/
def step (w : Promises O) : Op O → Option (Promises O)
  | .construct o =>
      match w.promise o with
      | some _ => none
      | none => some { w.set o (.new w.made) with made := w.made + 1 }
  | .moveConstruct o other =>
      match w.promise o, w.promise other with
      | none, some q => some ((w.release other q).set o q)
      | _, _ => none
  | .moveAssign o other =>
      match w.promise o, w.promise other with
      | some p, some q =>
          -- The pointer is reset before the other one is released, also if it is the same.
          if o = other then some (w.release o p)
          else some ((w.release other q).set o { p with mFuture := q.mFuture })
      | _, _ => none
  | .swap o other =>
      match w.promise o, w.promise other with
      | some p, some q =>
          if o = other then some w
          else some ((w.set o { p with mFuture := q.mFuture }).set other
            { q with mFuture := p.mFuture })
      | _, _ => none
  | .getFuture o =>
      match w.promise o with
      | none => none
      | some p =>
          match p.getFuture with
          | (p, .ok s) =>
              some { w.set o p with retrieved := Function.update w.retrieved s true }
          | (p, .error _) => some (w.set o p)

/-- A promise with a shared state hands out its future, unless that was done before. -/
def RetrievedOnce (w : Promises O) : Prop :=
  ∀ o p s, w.promise o = some p → p.mFuture = some s →
    p.getFuture.2 = if w.retrieved s then .error .futureAlreadyRetrieved else .ok s

/-- A shared state is assigned to, or swapped with, a promise that remembers the same. -/
def TakesFlag (w : Promises O) : Op O → Prop
  | .moveAssign o other =>
      ∀ p q, w.promise o = some p → w.promise other = some q → o ≠ other →
        q.mFuture ≠ none → p.mGotFuture = q.mGotFuture
  | .swap o other =>
      ∀ p q, w.promise o = some p → w.promise other = some q → o ≠ other →
        p.mFuture ≠ none ∨ q.mFuture ≠ none → p.mGotFuture = q.mGotFuture
  | _ => True

omit [DecidableEq O] in
theorem retrievedOnce_iff (w : Promises O) :
    RetrievedOnce w ↔ ∀ o b s, w.promise o = some ⟨some s, b⟩ → b = w.retrieved s := by
  have hget : ∀ (b : Bool) (s : ℕ), (⟨some s, b⟩ : StdPromise).getFuture.2 =
      if b then .error .futureAlreadyRetrieved else .ok s := by
    intro b s
    cases b <;> rfl
  constructor
  · intro h o b s hp
    have hres := h o ⟨some s, b⟩ s hp rfl
    rw [hget] at hres
    cases b <;> cases hr : w.retrieved s <;> simp [hr] at hres ⊢
  · rintro h o ⟨f, b⟩ s hp rfl
    rw [hget, h o b s hp]

/-- A shared state has one owner, and was made before. -/
structure Owned (w : Promises O) : Prop where
  unique : ∀ o o' b b' s, w.promise o = some ⟨some s, b⟩ → w.promise o' = some ⟨some s, b'⟩ →
    o = o'
  made : ∀ o b s, w.promise o = some ⟨some s, b⟩ → s < w.made
  retrieved : ∀ s, w.retrieved s = true → s < w.made

omit [DecidableEq O] in
theorem owned_init : Owned (init O) := ⟨nofun, nofun, nofun⟩

omit [DecidableEq O] in
/-- The shared states are with other owners, each with the one that `f` took it from. -/
theorem Owned.of_source {w t : Promises O} (h : Owned w) (f : O → O)
    (hsource : ∀ o b s, t.promise o = some ⟨some s, b⟩ → ∃ b', w.promise (f o) = some ⟨some s, b'⟩)
    (hinj : ∀ o o' b b' s, t.promise o = some ⟨some s, b⟩ → t.promise o' = some ⟨some s, b'⟩ →
      f o = f o' → o = o')
    (hmade : t.made = w.made) (hretrieved : ∀ s, t.retrieved s = true → s < w.made) : Owned t := by
  refine ⟨fun o o' b b' s ho ho' => ?_, fun o b s ho => ?_, fun s hs => ?_⟩
  · obtain ⟨c, hc⟩ := hsource o b s ho
    obtain ⟨c', hc'⟩ := hsource o' b' s ho'
    exact hinj o o' b b' s ho ho' (h.unique _ _ _ _ _ hc hc')
  · obtain ⟨c, hc⟩ := hsource o b s ho
    rw [hmade]
    exact h.made _ _ _ hc
  · rw [hmade]
    exact hretrieved s hs

theorem promise_set (o o' : O) (p : StdPromise) (w : Promises O) :
    (w.set o p).promise o' = if o' = o then some p else w.promise o' :=
  Function.update_apply ..

/-- The promise `o` gets what the promise `other` owns, and remembers `b`. -/
theorem promise_move {o other : O} (q : StdPromise) (b : Bool) (w : Promises O) (x : O) :
    ((w.release other q).set o ⟨q.mFuture, b⟩).promise x =
      if x = o then some ⟨q.mFuture, b⟩
      else if x = other then some ⟨none, q.mGotFuture⟩ else w.promise x := by
  rw [promise_set, release, promise_set]

/-- A shared state moves from `other` to `o`. -/
theorem Owned.move {w : Promises O} (h : Owned w) {o other : O} {q : StdPromise}
    (hother : w.promise other = some q) (b : Bool) :
    Owned ((w.release other q).set o ⟨q.mFuture, b⟩) := by
  have howner : ∀ x c s, ((w.release other q).set o ⟨q.mFuture, b⟩).promise x =
      some ⟨some s, c⟩ → (x = o ∧ q.mFuture = some s) ∨
        (x ≠ o ∧ x ≠ other ∧ w.promise x = some ⟨some s, c⟩) := by
    intro x c s hx
    rw [promise_move] at hx
    split at hx
    · rename_i hxo
      exact Or.inl ⟨hxo, (StdPromise.mk.inj (Option.some.inj hx)).1⟩
    · rename_i hxo
      split at hx
      · cases hx
      · rename_i hxother
        exact Or.inr ⟨hxo, hxother, hx⟩
  refine h.of_source (fun x => if x = o then other else x) ?_ ?_ rfl h.retrieved
  · intro x c s hx
    rcases howner x c s hx with ⟨rfl, hq⟩ | ⟨hxo, -, hx⟩
    · refine ⟨q.mGotFuture, ?_⟩
      rw [if_pos rfl, hother, ← hq]
    · refine ⟨c, ?_⟩
      rw [if_neg hxo, hx]
  · intro x x' c c' s hx hx' heq
    rcases howner x c s hx with ⟨rfl, -⟩ | ⟨hxo, hxother, -⟩
    · rcases howner x' c' s hx' with ⟨rfl, -⟩ | ⟨hxo', hxother', -⟩
      · rfl
      · rw [if_pos rfl, if_neg hxo'] at heq
        exact absurd heq.symm hxother'
    · rcases howner x' c' s hx' with ⟨rfl, -⟩ | ⟨hxo', -, -⟩
      · rw [if_neg hxo, if_pos rfl] at heq
        exact absurd heq hxother
      · rwa [if_neg hxo, if_neg hxo'] at heq

theorem promise_swap {o other : O} (hne : o ≠ other) (p q : StdPromise) (w : Promises O) (x : O) :
    ((w.set o { p with mFuture := q.mFuture }).set other
        { q with mFuture := p.mFuture }).promise x =
      if x = o then some ⟨q.mFuture, p.mGotFuture⟩
      else if x = other then some ⟨p.mFuture, q.mGotFuture⟩ else w.promise x := by
  rw [promise_set, promise_set]
  by_cases hx : x = o
  · rw [if_neg (hx ▸ hne), if_pos hx, if_pos hx]
  · rw [if_neg hx, if_neg hx]

/-- The shared states of two promises change places. -/
theorem Owned.swap {w : Promises O} (h : Owned w) {o other : O} (hne : o ≠ other)
    {p q : StdPromise} (ho : w.promise o = some p) (hother : w.promise other = some q) :
    Owned ((w.set o { p with mFuture := q.mFuture }).set other
      { q with mFuture := p.mFuture }) := by
  refine h.of_source (Equiv.swap o other) ?_ ?_ rfl h.retrieved
  rotate_left
  · intro x x' c c' s _ _ heq
    exact (Equiv.swap o other).injective heq
  intro x c s hx
  rw [promise_swap hne] at hx
  split at hx
  · rename_i hxo
    refine ⟨q.mGotFuture, ?_⟩
    rw [hxo, Equiv.swap_apply_left, hother, ← (StdPromise.mk.inj (Option.some.inj hx)).1]
  · rename_i hxo
    split at hx
    · rename_i hxother
      refine ⟨p.mGotFuture, ?_⟩
      rw [hxother, Equiv.swap_apply_right, ho, ← (StdPromise.mk.inj (Option.some.inj hx)).1]
    · rename_i hxother
      exact ⟨c, by rw [Equiv.swap_apply_of_ne_of_ne hxo hxother, hx]⟩

/-- A promise that is left with the same shared state, or with none. -/
theorem Owned.set {w : Promises O} (h : Owned w) {o : O} {p p' : StdPromise}
    (ho : w.promise o = some p) (hp : p'.mFuture = none ∨ p'.mFuture = p.mFuture) :
    Owned (w.set o p') := by
  refine h.of_source id ?_ (fun _ _ _ _ _ _ _ heq => heq) rfl h.retrieved
  intro x c s hx
  rw [promise_set] at hx
  split at hx
  · rename_i hxo
    obtain rfl := Option.some.inj hx
    rcases hp with hp | hp
    · cases hp
    · have hs : p.mFuture = some s := hp.symm
      exact ⟨p.mGotFuture, by rw [id, hxo, ho, ← hs]⟩
  · exact ⟨c, hx⟩

theorem Owned.construct {w : Promises O} (h : Owned w) (o : O) :
    Owned { w.set o (.new w.made) with made := w.made + 1 } := by
  have howner : ∀ x c s, (w.set o (.new w.made)).promise x = some ⟨some s, c⟩ →
      (x = o ∧ s = w.made) ∨ (w.promise x = some ⟨some s, c⟩ ∧ s < w.made) := by
    intro x c s hx
    rw [promise_set] at hx
    split at hx
    · rename_i hxo
      cases hx
      exact Or.inl ⟨hxo, rfl⟩
    · exact Or.inr ⟨hx, h.made x c s hx⟩
  refine ⟨fun x x' c c' s hx hx' => ?_, fun x c s hx => ?_, fun s hs => ?_⟩
  · rcases howner x c s hx with ⟨rfl, rfl⟩ | ⟨hx, hlt⟩
    · rcases howner x' c' _ hx' with ⟨rfl, -⟩ | ⟨-, hlt⟩
      · rfl
      · exact absurd hlt (Nat.lt_irrefl _)
    · rcases howner x' c' s hx' with ⟨rfl, rfl⟩ | ⟨hx', -⟩
      · exact absurd hlt (Nat.lt_irrefl _)
      · exact h.unique x x' c c' s hx hx'
  · rcases howner x c s hx with ⟨-, rfl⟩ | ⟨-, hlt⟩
    · exact Nat.lt_succ_self _
    · exact Nat.lt_succ_of_lt hlt
  · exact Nat.lt_succ_of_lt (h.retrieved s hs)

theorem Owned.step {w t : Promises O} (h : Owned w) {op : Op O} (ht : w.step op = some t) :
    Owned t := by
  cases op with
  | construct o =>
      rw [Promises.step] at ht
      split at ht
      · cases ht
      · cases ht
        exact h.construct o
  | moveConstruct o other =>
      rw [Promises.step] at ht
      split at ht
      · rename_i q _ hother
        cases ht
        exact h.move hother q.mGotFuture
      · cases ht
  | moveAssign o other =>
      rw [Promises.step] at ht
      split at ht
      · rename_i p q ho hother
        split at ht
        · cases ht
          exact h.set ho (Or.inl rfl)
        · cases ht
          exact h.move hother p.mGotFuture
      · cases ht
  | swap o other =>
      rw [Promises.step] at ht
      split at ht
      · rename_i p q ho hother
        split at ht
        · cases ht
          exact h
        · rename_i hne
          cases ht
          exact h.swap hne ho hother
      · cases ht
  | getFuture o =>
      rw [Promises.step] at ht
      split at ht
      · cases ht
      · rename_i p ho
        obtain ⟨f, b⟩ := p
        cases f with
        | none =>
            cases ht
            exact h.set ho (Or.inl rfl)
        | some s =>
            cases b with
            | true =>
                cases ht
                exact h.set ho (Or.inr rfl)
            | false =>
                cases ht
                have hset : Owned (w.set o ⟨some s, true⟩) := h.set ho (Or.inr rfl)
                refine ⟨hset.unique, hset.made, fun s' hs' => ?_⟩
                dsimp only at hs'
                rw [Function.update_apply] at hs'
                split at hs'
                · rename_i heq
                  rw [heq]
                  exact h.made o false s ho
                · exact h.retrieved s' hs'

/-- The promise `o` remembers the right thing of what it gets. -/
theorem retrievedOnce_move_iff {w : Promises O} (h : RetrievedOnce w) {o other : O}
    {q : StdPromise} (hother : w.promise other = some q) (b : Bool) :
    RetrievedOnce ((w.release other q).set o ⟨q.mFuture, b⟩) ↔
      (q.mFuture ≠ none → b = q.mGotFuture) := by
  rw [retrievedOnce_iff] at h ⊢
  have hq : ∀ s, q.mFuture = some s → q.mGotFuture = w.retrieved s := by
    intro s hs
    apply h other
    rw [hother, ← hs]
  constructor
  · intro ht hne
    obtain ⟨s, hs⟩ := Option.ne_none_iff_exists'.1 hne
    have hb := ht o b s (by rw [promise_move, if_pos rfl, hs])
    exact hb.trans (hq s hs).symm
  · intro hb x c s hx
    rw [promise_move] at hx
    split at hx
    · obtain ⟨hs, rfl⟩ := StdPromise.mk.inj (Option.some.inj hx)
      exact (hb (by rw [hs]; nofun)).trans (hq s hs)
    · split at hx
      · cases hx
      · exact h x c s hx

/-- Two promises remember the right thing of what they get from each other. -/
theorem retrievedOnce_swap_iff {w : Promises O} (h : RetrievedOnce w) {o other : O}
    (hne : o ≠ other) {p q : StdPromise} (ho : w.promise o = some p)
    (hother : w.promise other = some q) :
    RetrievedOnce ((w.set o { p with mFuture := q.mFuture }).set other
        { q with mFuture := p.mFuture }) ↔
      (p.mFuture ≠ none ∨ q.mFuture ≠ none → p.mGotFuture = q.mGotFuture) := by
  rw [retrievedOnce_iff] at h ⊢
  have hp : ∀ s, p.mFuture = some s → p.mGotFuture = w.retrieved s := by
    intro s hs
    apply h o
    rw [ho, ← hs]
  have hq : ∀ s, q.mFuture = some s → q.mGotFuture = w.retrieved s := by
    intro s hs
    apply h other
    rw [hother, ← hs]
  constructor
  · rintro ht (hsome | hsome)
    · obtain ⟨s, hs⟩ := Option.ne_none_iff_exists'.1 hsome
      have hb := ht other q.mGotFuture s (by
        rw [promise_swap hne, if_neg hne.symm, if_pos rfl, hs])
      exact (hp s hs).trans hb.symm
    · obtain ⟨s, hs⟩ := Option.ne_none_iff_exists'.1 hsome
      have hb := ht o p.mGotFuture s (by rw [promise_swap hne, if_pos rfl, hs])
      exact hb.trans (hq s hs).symm
  · intro hflag x c s hx
    rw [promise_swap hne] at hx
    split at hx
    · obtain ⟨hs, rfl⟩ := StdPromise.mk.inj (Option.some.inj hx)
      exact (hflag (Or.inr (by rw [hs]; nofun))).trans (hq s hs)
    · split at hx
      · obtain ⟨hs, rfl⟩ := StdPromise.mk.inj (Option.some.inj hx)
        exact (hflag (Or.inl (by rw [hs]; nofun))).symm.trans (hp s hs)
      · exact h x c s hx

/-- A promise that is left without a shared state, or as it was, remembers the right thing. -/
theorem RetrievedOnce.set {w : Promises O} (h : RetrievedOnce w) {o : O} {p p' : StdPromise}
    (ho : w.promise o = some p) (hp : p'.mFuture = none ∨ p' = p) :
    RetrievedOnce (w.set o p') := by
  rw [retrievedOnce_iff] at h ⊢
  intro x c s hx
  rw [promise_set] at hx
  split at hx
  · rename_i hxo
    obtain rfl := Option.some.inj hx
    rcases hp with hp | rfl
    · cases hp
    · exact h o c s ho
  · exact h x c s hx

/-- A new shared state was not handed out. -/
theorem RetrievedOnce.construct {w : Promises O} (h : RetrievedOnce w) (howned : Owned w) (o : O) :
    RetrievedOnce { w.set o (.new w.made) with made := w.made + 1 } := by
  rw [retrievedOnce_iff] at h ⊢
  intro x c s hx
  dsimp only at hx ⊢
  rw [promise_set] at hx
  split at hx
  · cases hx
    cases hr : w.retrieved w.made with
    | false => exact hr.symm
    | true => exact absurd (howned.retrieved _ hr) (Nat.lt_irrefl _)
  · exact h x c s hx

/-- The future of a shared state is handed out, by the one promise that owns it. -/
theorem RetrievedOnce.getFuture {w : Promises O} (h : RetrievedOnce w) (howned : Owned w) {o : O}
    {s : ℕ} (ho : w.promise o = some ⟨some s, false⟩) :
    RetrievedOnce { w.set o ⟨some s, true⟩ with
      retrieved := Function.update w.retrieved s true } := by
  rw [retrievedOnce_iff] at h ⊢
  intro x c s' hx
  dsimp only at hx ⊢
  rw [promise_set] at hx
  split at hx
  · cases hx
    rw [Function.update_self]
  · rename_i hxo
    have hs' : s' ≠ s := by
      rintro rfl
      exact hxo (howned.unique _ _ _ _ _ hx ho)
    rw [Function.update_of_ne hs']
    exact h x c s' hx

/-- One operation keeps what the promises remember right exactly when it takes the flag along. -/
theorem retrievedOnce_step_iff {w t : Promises O} (howned : Owned w) (h : RetrievedOnce w)
    {op : Op O} (ht : w.step op = some t) : RetrievedOnce t ↔ w.TakesFlag op := by
  cases op with
  | construct o =>
      rw [step] at ht
      split at ht
      · cases ht
      · cases ht
        exact iff_of_true (h.construct howned o) trivial
  | moveConstruct o other =>
      rw [step] at ht
      split at ht
      · rename_i q _ hother
        cases ht
        exact iff_of_true ((retrievedOnce_move_iff h hother q.mGotFuture).2 fun _ => rfl) trivial
      · cases ht
  | moveAssign o other =>
      rw [step] at ht
      split at ht
      · rename_i p q ho hother
        split at ht
        · rename_i heq
          cases ht
          exact iff_of_true (h.set ho (Or.inl rfl)) fun _ _ _ _ hne => absurd heq hne
        · rename_i hne
          cases ht
          rw [retrievedOnce_move_iff h hother p.mGotFuture, TakesFlag]
          constructor
          · intro hflag p' q' ho' hother' _
            cases ho.symm.trans ho'
            cases hother.symm.trans hother'
            exact hflag
          · intro hflag
            exact hflag p q ho hother hne
      · cases ht
  | swap o other =>
      rw [step] at ht
      split at ht
      · rename_i p q ho hother
        split at ht
        · rename_i heq
          cases ht
          exact iff_of_true h fun _ _ _ _ hne => absurd heq hne
        · rename_i hne
          cases ht
          rw [retrievedOnce_swap_iff h hne ho hother, TakesFlag]
          constructor
          · intro hflag p' q' ho' hother' _
            cases ho.symm.trans ho'
            cases hother.symm.trans hother'
            exact hflag
          · intro hflag
            exact hflag p q ho hother hne
      · cases ht
  | getFuture o =>
      rw [step] at ht
      split at ht
      · cases ht
      · rename_i p ho
        refine iff_of_true ?_ trivial
        obtain ⟨f, b⟩ := p
        cases f with
        | none =>
            cases ht
            exact h.set ho (Or.inl rfl)
        | some s =>
            cases b with
            | true =>
                cases ht
                exact h.set ho (Or.inr rfl)
            | false =>
                cases ht
                exact h.getFuture howned ho

/-- In every run of operations on promises: the future of each shared state is handed out once,
whatever promise owns it, exactly when shared states are only assigned to and swapped with
promises that have the same flag. -/
theorem retrievedOnce_always_iff (ops : List (Op O)) (w : Promises O)
    (hr : Transition.run step (init O) ops = some w) :
    Transition.Always step RetrievedOnce (init O) ops ↔
      Transition.Guarded step TakesFlag (init O) ops := by
  refine Transition.always_iff_guarded_of_run (fun _ _ _ howned ht => howned.step ht)
    (fun _ _ _ howned h ht => retrievedOnce_step_iff howned h ht) owned_init ?_ hr
  rintro o p s hp
  cases hp

/-- The future is retrieved, and the shared state stays with the same promise. -/
theorem retrievedOnce_moveConstructed :
    Transition.Always step RetrievedOnce (init ℕ)
      [.construct 0, .getFuture 0, .moveConstruct 1 0, .construct 2, .getFuture 2, .swap 1 2,
        .getFuture 1] := by
  refine (retrievedOnce_always_iff _ _ rfl).2 ?_
  refine .cons trivial rfl (.cons trivial rfl (.cons trivial rfl (.cons trivial rfl
    (.cons trivial rfl (.cons ?_ rfl (.cons trivial rfl trivial))))))
  rintro p q hp hq - -
  cases hp
  cases hq
  rfl

/-- The future is retrieved, and the promise is swapped with a new one: each of the two is
wrong about the shared state it has now. -/
theorem not_retrievedOnce_swapped :
    ∃ w : Promises ℕ,
      Transition.run step (init ℕ) [.construct 0, .construct 1, .getFuture 0, .swap 0 1] = some w ∧
      w.promise 0 = some ⟨some 1, true⟩ ∧ w.retrieved 1 = false ∧
      w.promise 1 = some ⟨some 0, false⟩ ∧ w.retrieved 0 = true ∧ ¬ RetrievedOnce w := by
  refine ⟨_, rfl, rfl, rfl, rfl, rfl, ?_⟩
  intro h
  cases h 0 _ 1 rfl rfl

end Promises

end Zth
