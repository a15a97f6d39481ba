import Mathlib.Data.List.Forall2
import Zth.Fsm.Table

/-!
# What `compile` accepts and what it returns

The states of the transitions are the groups of a list: a transition that names no state
belongs to that of the one before it. `compile` refuses a list of which the groups are
not contiguous, or in which a target names no group. What it returns for another list
has one block for each state, with the transitions of that state in their order.
-/

namespace Zth

namespace Fsm

open Grouping

variable {G A : Type*}

/-- The transitions with the states they start from, their own or inherited. -/
def owned (prev : Symbol) (l : List (Transition G A)) : List (Symbol × Transition G A) :=
  (owners prev (l.map (·.state))).zip l

/-- The transitions that start from a state. -/
def transitionsOf (s : Symbol) (l : List (Transition G A)) : List (Transition G A) :=
  ((owned none l).filter fun p => p.1 = s).map (·.2)

/-- The entry at index `i` is the one that names the state. -/
def IsIndex (table : List (CompiledTransition G A)) (s : Symbol) (i : ℕ) : Prop :=
  ∀ j, (∃ e, table[j]? = some e ∧ e.state = s) ↔ j = i

/-- The entry does what the transition says. -/
structure Refines (table : List (CompiledTransition G A)) (t : Transition G A)
    (e : CompiledTransition G A) : Prop where
  trigger : e.trigger = t.trigger
  action : e.action = t.action
  target_eq_zero : e.target = 0 ↔ t.target = none
  target : t.target ≠ none → IsIndex table t.target e.target

/-- The first transition that names a state. -/
theorem exists_first {s : Symbol} {l : List (Transition G A)} (h : s ∈ l.map (·.state)) :
    ∃ pre t suf, l = pre ++ t :: suf ∧ t.state = s ∧ s ∉ pre.map (·.state) := by
  obtain ⟨as, bs, hl, has⟩ := List.eq_append_cons_of_mem h
  obtain ⟨pre, rest, rfl, rfl, hrest⟩ := List.map_eq_append_iff.1 hl
  obtain ⟨t, suf, rfl, ht, -⟩ := List.map_eq_cons_iff.1 hrest
  exact ⟨pre, t, suf, rfl, ht, has⟩

theorem findLoop_eq_ok_iff {s : Symbol} {n i : ℕ} {l : List (Transition G A)} :
    findLoop s n l = .ok i ↔ ∃ pre t suf, l = pre ++ t :: suf ∧ t.state = s ∧
      s ∉ pre.map (·.state) ∧ i = n + pre.length + 1 := by
  induction l generalizing n with
  | nil => simp [findLoop]
  | cons t ts ih =>
      rw [findLoop]
      by_cases ht : t.state = s
      · rw [if_pos ((Symbol.constexprEq_iff _ _).2 ht)]
        constructor
        · rintro ⟨⟩
          exact ⟨[], t, ts, rfl, ht, by simp, rfl⟩
        · rintro ⟨pre, u, suf, hl, -, hpre, rfl⟩
          cases pre with
          | nil => rfl
          | cons p pre =>
              obtain ⟨rfl, -⟩ := List.cons.inj hl
              exact absurd (List.mem_cons.2 (Or.inl ht.symm)) hpre
      · rw [if_neg fun h => ht ((Symbol.constexprEq_iff _ _).1 h), ih]
        constructor
        · rintro ⟨pre, u, suf, rfl, hu, hpre, rfl⟩
          refine ⟨t :: pre, u, suf, rfl, hu, ?_, ?_⟩
          · rw [List.map_cons, List.mem_cons, not_or]
            exact ⟨fun h => ht h.symm, hpre⟩
          · rw [List.length_cons]
            omega
        · rintro ⟨pre, u, suf, hl, hu, hpre, rfl⟩
          cases pre with
          | nil =>
              obtain ⟨rfl, -⟩ := List.cons.inj hl
              exact absurd hu ht
          | cons p pre =>
              obtain ⟨rfl, rfl⟩ := List.cons.inj hl
              refine ⟨pre, u, suf, rfl, hu, ?_, ?_⟩
              · exact fun h => hpre (List.mem_cons_of_mem _ h)
              · rw [List.length_cons]
                omega

theorem find_none (l : List (Transition G A)) : find none l = .ok 0 := rfl

/-- The index of a state is that of the first transition that names it. -/
theorem find_eq_ok_iff {s : Symbol} (hs : s ≠ none) {i : ℕ} {l : List (Transition G A)} :
    find s l = .ok i ↔ ∃ pre t suf, l = pre ++ t :: suf ∧ t.state = s ∧
      s ∉ pre.map (·.state) ∧ i = pre.length + 1 := by
  rw [find, if_pos ((Symbol.valid_iff s).2 hs), findLoop_eq_ok_iff]
  simp only [Nat.zero_add]

/-- A state that is named for the first time behind a prefix. -/
theorem find_append_eq_ok_iff {pre suf : List (Transition G A)} {t : Transition G A}
    (ht : t.state ≠ none) :
    find t.state (pre ++ t :: suf) = .ok (pre.length + 1) ↔
      t.state ∉ pre.map (·.state) := by
  rw [find_eq_ok_iff ht]
  constructor
  · rintro ⟨pre', u, suf', hl, -, hpre, hlen⟩
    obtain ⟨rfl, -⟩ := List.append_inj hl (by omega)
    exact hpre
  · intro hpre
    exact ⟨pre, t, suf, rfl, rfl, hpre, rfl⟩

theorem exists_find_eq_ok_iff {s : Symbol} {l : List (Transition G A)} :
    (∃ i, find s l = .ok i) ↔ (s ≠ none → s ∈ l.map (·.state)) := by
  by_cases hs : s = none
  · subst hs
    exact iff_of_true ⟨0, rfl⟩ fun h => absurd rfl h
  · simp only [find_eq_ok_iff hs]
    constructor
    · rintro ⟨_, pre, t, suf, rfl, rfl, -, -⟩ -
      simp
    · intro h
      obtain ⟨pre, t, suf, hl, ht, hpre⟩ := exists_first (h hs)
      exact ⟨_, pre, t, suf, hl, ht, hpre, rfl⟩

theorem starts_iff {prev : Symbol} {t : Transition G A} :
    starts prev t = true ↔ t.state ≠ none ∧ t.state ≠ prev := by
  rw [starts, Bool.and_eq_true, Bool.not_eq_true', ← Bool.not_eq_true,
    Symbol.constexprEq_iff, Symbol.valid_iff, and_comm, ne_comm (a := t.state) (b := prev)]

/-- A transition starts the entries of a state when it belongs to another one than the
transition before it. -/
theorem starts_iff_owner {prev : Symbol} {t : Transition G A} :
    starts prev t = true ↔ (t.state <|> prev) ≠ prev := by
  rw [starts_iff]
  cases ht : t.state with
  | none => simp
  | some k => simp

theorem next_prev (prev : Symbol) (t : Transition G A) :
    (if starts prev t then t.state else prev) = (t.state <|> prev) := by
  by_cases h : starts prev t = true
  · rw [if_pos h]
    cases ht : t.state with
    | none => exact absurd ht (starts_iff.1 h).1
    | some k => rfl
  · rw [if_neg h]
    by_contra hne
    exact h (starts_iff_owner.2 (Ne.symm hne))

theorem compileEntry_eq_ok_iff {l : List (Transition G A)} {i : ℕ} {prev : Symbol}
    {t : Transition G A} {e : CompiledTransition G A} :
    compileEntry l i prev t = .ok e ↔
      (starts prev t = true → find t.state l = .ok i) ∧
      ∃ j, find t.target l = .ok j ∧
        e = ⟨t.trigger, t.action, if starts prev t then t.state else none, j⟩ := by
  rw [compileEntry]
  by_cases h : starts prev t = true
  · simp only [h, if_true, forall_const]
    cases hs : find t.state l with
    | error err => simp [Except.bind]
    | ok k =>
        by_cases hk : k = i
        · cases ht : find t.target l <;> simp [Except.bind, Except.map, hk, eq_comm]
        · simp [Except.bind, hk]
  · cases ht : find t.target l <;> simp [Except.map, h, eq_comm]

theorem compileLoop_cons_eq_ok_iff {l ts : List (Transition G A)} {i : ℕ} {prev : Symbol}
    {t : Transition G A} {es : List (CompiledTransition G A)} :
    compileLoop l i prev (t :: ts) = .ok es ↔
      ∃ e es', compileEntry l i prev t = .ok e ∧
        compileLoop l (i + 1) (t.state <|> prev) ts = .ok es' ∧ es = e :: es' := by
  rw [compileLoop, next_prev]
  cases compileEntry l i prev t with
  | error err => simp [Except.bind]
  | ok e =>
      cases compileLoop l (i + 1) (t.state <|> prev) ts with
      | error err => simp [Except.bind, Except.map]
      | ok es' => simp [Except.bind, Except.map, eq_comm]

/-- The loop goes through what remains of the list, when the groups of the transitions
before it are contiguous, exactly when they are in the whole list and every target is
known. -/
theorem exists_compileLoop_eq_ok_iff {l pre ts : List (Transition G A)} (hl : l = pre ++ ts)
    (hpre : Contiguous (owners none (pre.map (·.state)))) :
    (∃ es, compileLoop l (pre.length + 1) (lastOwner none (pre.map (·.state))) ts = .ok es) ↔
      Contiguous (owners none (l.map (·.state))) ∧
        ∀ t ∈ ts, t.target ≠ none → t.target ∈ l.map (·.state) := by
  induction ts generalizing pre with
  | nil =>
      rw [List.append_nil] at hl
      exact iff_of_true ⟨[], rfl⟩ ⟨hl ▸ hpre, fun t ht => by cases ht⟩
  | cons t ts ih =>
      have hlt : l = pre ++ [t] ++ ts := by simp [hl]
      have hcheck : (starts (lastOwner none (pre.map (·.state))) t = true →
          find t.state l = .ok (pre.length + 1)) ↔
            Contiguous (owners none ((pre ++ [t]).map (·.state))) := by
        rw [List.map_append, List.map_singleton, contiguous_owners_concat_iff t.state hpre,
          starts_iff, hl, and_imp]
        refine forall_congr' fun hne => imp_congr_right fun _ => ?_
        exact find_append_eq_ok_iff hne
      have hprefix : Contiguous (owners none (l.map (·.state))) →
          Contiguous (owners none ((pre ++ [t]).map (·.state))) := by
        intro h
        refine h.sublist ?_
        have hmap : l.map (·.state) = (pre ++ [t]).map (·.state) ++ ts.map (·.state) := by
          rw [hlt, List.map_append]
        rw [hmap, owners_append none]
        exact List.sublist_append_left _ _
      have hlen : (pre ++ [t]).length = pre.length + 1 := by simp
      have hlast : lastOwner none ((pre ++ [t]).map (·.state)) =
          (t.state <|> lastOwner none (pre.map (·.state))) := by
        rw [List.map_append, List.map_singleton, lastOwner_concat]
      have ih := ih hlt
      rw [hlen, hlast] at ih
      simp only [compileLoop_cons_eq_ok_iff, compileEntry_eq_ok_iff, hcheck,
        List.forall_mem_cons, ← exists_find_eq_ok_iff] at ih ⊢
      constructor
      · rintro ⟨_, _, es, ⟨hok, j, hj, -⟩, hes, -⟩
        obtain ⟨hcont, htargets⟩ := (ih hok).1 ⟨es, hes⟩
        exact ⟨hcont, ⟨j, hj⟩, htargets⟩
      · rintro ⟨hcont, ⟨j, hj⟩, htargets⟩
        have hok := hprefix hcont
        obtain ⟨es, hes⟩ := (ih hok).2 ⟨hcont, htargets⟩
        exact ⟨_, _, es, ⟨hok, j, hj, rfl⟩, hes, rfl⟩

/-- The entry is that of the transition, with the index `find` gives for its target. -/
structure Compiles (l : List (Transition G A)) (t : Transition G A)
    (e : CompiledTransition G A) : Prop where
  trigger : e.trigger = t.trigger
  action : e.action = t.action
  target : find t.target l = .ok e.target

theorem compiles_of_compileEntry {l : List (Transition G A)} {i : ℕ} {prev : Symbol}
    {t : Transition G A} {e : CompiledTransition G A} (h : compileEntry l i prev t = .ok e) :
    Compiles l t e := by
  obtain ⟨-, j, hj, rfl⟩ := compileEntry_eq_ok_iff.1 h
  exact ⟨rfl, rfl, hj⟩

theorem compileEntry_state {l : List (Transition G A)} {i : ℕ} {prev : Symbol}
    {t : Transition G A} {e : CompiledTransition G A} (h : compileEntry l i prev t = .ok e) :
    e.state = if starts prev t then t.state else none := by
  obtain ⟨-, j, -, rfl⟩ := compileEntry_eq_ok_iff.1 h
  rfl

theorem compileLoop_append {l xs ys : List (Transition G A)} {i : ℕ} {prev : Symbol}
    {es : List (CompiledTransition G A)} (h : compileLoop l i prev (xs ++ ys) = .ok es) :
    ∃ es₁ es₂, es₁.length = xs.length ∧
      compileLoop l (i + xs.length) (lastOwner prev (xs.map (·.state))) ys = .ok es₂ ∧
      es = es₁ ++ es₂ := by
  induction xs generalizing i prev es with
  | nil => exact ⟨[], es, rfl, h, rfl⟩
  | cons x xs ih =>
      obtain ⟨e, es', he, hes, rfl⟩ := compileLoop_cons_eq_ok_iff.1 h
      obtain ⟨es₁, es₂, hlen, hes₂, rfl⟩ := ih hes
      refine ⟨e :: es₁, es₂, by rw [List.length_cons, hlen, List.length_cons], ?_, rfl⟩
      rw [List.length_cons, Nat.add_comm xs.length, ← Nat.add_assoc]
      exact hes₂

/-- An entry that names a state stands at the index of that state. -/
theorem compileLoop_find {l ts : List (Transition G A)} {i : ℕ} {prev : Symbol}
    {es : List (CompiledTransition G A)} (h : compileLoop l i prev ts = .ok es) {j : ℕ}
    {e : CompiledTransition G A} (he : es[j]? = some e) (hs : e.state ≠ none) :
    find e.state l = .ok (i + j) := by
  induction ts generalizing i prev es j with
  | nil =>
      cases h
      cases he
  | cons t ts ih =>
      obtain ⟨e', es', he', hes, rfl⟩ := compileLoop_cons_eq_ok_iff.1 h
      cases j with
      | zero =>
          obtain rfl : e' = e := Option.some.inj he
          obtain ⟨hfind, -⟩ := compileEntry_eq_ok_iff.1 he'
          have hstate := compileEntry_state he'
          by_cases hstarts : starts prev t = true
          · rw [hstate, if_pos hstarts]
            exact hfind hstarts
          · rw [if_neg hstarts] at hstate
            exact absurd hstate hs
      | succ j =>
          rw [List.getElem?_cons_succ] at he
          rw [ih hes he, Nat.add_assoc, Nat.add_comm 1 j]

/-- The entries up to the next one that names a state are those of the transitions that
belong to the same state as the one before them. -/
theorem compileLoop_takeWhile {l ts : List (Transition G A)} {i : ℕ} {prev : Symbol}
    {es : List (CompiledTransition G A)} (h : compileLoop l i prev ts = .ok es) :
    List.Forall₂ (Compiles l) (((owned prev ts).takeWhile fun p => p.1 = prev).map (·.2))
      (es.takeWhile fun e => !e.state.valid) := by
  induction ts generalizing i prev es with
  | nil =>
      cases h
      exact .nil
  | cons t ts ih =>
      obtain ⟨e, es', he, hes, rfl⟩ := compileLoop_cons_eq_ok_iff.1 h
      have hstate := compileEntry_state he
      have howned : owned prev (t :: ts) =
          ((t.state <|> prev), t) :: owned (t.state <|> prev) ts := rfl
      rw [howned]
      by_cases hstarts : starts prev t = true
      · have hvalid : e.state.valid = true := by
          rw [hstate, if_pos hstarts, Symbol.valid_iff]
          exact (starts_iff.1 hstarts).1
        have hne := starts_iff_owner.1 hstarts
        rw [List.takeWhile_cons_of_neg (by simpa using hne),
          List.takeWhile_cons_of_neg (by simp [hvalid])]
        exact .nil
      · have hvalid : e.state.valid = false := by
          rw [hstate, if_neg hstarts]
          rfl
        have heq : (t.state <|> prev) = prev := by
          by_contra hne
          exact hstarts (starts_iff_owner.2 hne)
        rw [heq] at hes ⊢
        rw [List.takeWhile_cons_of_pos (by simp), List.takeWhile_cons_of_pos (by simp [hvalid])]
        exact .cons (compiles_of_compileEntry he) (ih hes)

theorem owned_append (prev : Symbol) (xs ys : List (Transition G A)) :
    owned prev (xs ++ ys) = owned prev xs ++ owned (lastOwner prev (xs.map (·.state))) ys := by
  rw [owned, List.map_append, owners_append, List.zip_append (by simp)]
  rfl

theorem map_fst_owned (prev : Symbol) (l : List (Transition G A)) :
    (owned prev l).map (·.1) = owners prev (l.map (·.state)) :=
  List.map_fst_zip (by simp)

/-- The transitions that start from a state are the first one that names it, and those
that inherit it from there on. -/
theorem transitionsOf_append {pre suf : List (Transition G A)} {t : Transition G A}
    (hcont : Contiguous (owners none ((pre ++ t :: suf).map (·.state))))
    (ht : t.state ≠ none) (hpre : t.state ∉ pre.map (·.state)) :
    transitionsOf t.state (pre ++ t :: suf) =
      t :: ((owned t.state suf).takeWhile fun p => p.1 = t.state).map (·.2) := by
  obtain ⟨k, hk⟩ := Option.ne_none_iff_exists'.1 ht
  have hor : ∀ o : Symbol, (t.state <|> o) = t.state := fun o => by
    rw [hk]
    rfl
  have hnone : (owned none pre).filter (fun p => p.1 = t.state) = [] := by
    rw [List.filter_eq_nil_iff]
    intro p hp hpt
    have hpt : p.1 = t.state := by simpa using hpt
    have hmem : p.1 ∈ owners none (pre.map (·.state)) := by
      rw [← map_fst_owned]
      exact List.mem_map_of_mem hp
    rw [hpt, hk, mem_owners_iff, ← hk] at hmem
    exact hpre hmem
  have hgroup : Contiguous (t.state :: (owned t.state suf).map (·.1)) := by
    refine hcont.sublist ?_
    rw [map_fst_owned, List.map_append, owners_append, List.map_cons, owners_cons, hor]
    exact List.sublist_append_right _ _
  have howned : ∀ o : Symbol, owned o (t :: suf) = (t.state, t) :: owned t.state suf := by
    intro o
    rw [← hor o]
    rfl
  rw [transitionsOf, owned_append, List.filter_append, hnone, List.nil_append, howned,
    List.filter_cons_of_pos (by simp), List.map_cons, hgroup.takeWhile_eq_filter]

/-- The shape of the table of a list that is not empty. -/
theorem compile_eq_ok_iff {d : Trivial G A} {l : List (Transition G A)} (hl : l ≠ [])
    {table : List (CompiledTransition G A)} :
    compile d l = .ok table ↔ (∀ t ∈ l.head?, t.state ≠ none) ∧
      ∃ es, compileLoop l 1 none l = .ok es ∧
        table = ⟨.guard d.always, d.nothing, none, 1⟩ :: es := by
  obtain ⟨t, ts, rfl⟩ := List.exists_cons_of_ne_nil hl
  rw [compile, List.head?_cons]
  by_cases ht : t.state = none
  · rw [if_neg fun h => (Symbol.valid_iff _).1 h ht]
    simp [ht]
  · rw [if_pos ((Symbol.valid_iff _).2 ht)]
    cases compileLoop (t :: ts) 1 none (t :: ts) with
    | error err => simp [Except.map]
    | ok es => simp [Except.map, ht, eq_comm]

theorem isIndex_of_find {l : List (Transition G A)} {es : List (CompiledTransition G A)}
    (h : compileLoop l 1 none l = .ok es) {e₀ : CompiledTransition G A}
    (he₀ : e₀.state = none) {s : Symbol} (hs : s ≠ none) {i : ℕ} (hi : find s l = .ok i) :
    IsIndex (e₀ :: es) s i := by
  intro j
  constructor
  · rintro ⟨e, he, rfl⟩
    cases j with
    | zero =>
        obtain rfl : e₀ = e := Option.some.inj he
        exact absurd he₀ hs
    | succ j =>
        rw [List.getElem?_cons_succ] at he
        have hfind := compileLoop_find h he hs
        rw [hfind, Nat.add_comm] at hi
        exact Except.ok.inj hi
  · rintro rfl
    obtain ⟨pre, t, suf, rfl, rfl, hpre, rfl⟩ := (find_eq_ok_iff hs).1 hi
    obtain ⟨es₁, es₂, hlen, hes₂, rfl⟩ := compileLoop_append h
    obtain ⟨e, es', he, -, rfl⟩ := compileLoop_cons_eq_ok_iff.1 hes₂
    refine ⟨e, ?_, ?_⟩
    · rw [List.getElem?_cons_succ, ← hlen, List.getElem?_append_right (Nat.le_refl _),
        Nat.sub_self]
      rfl
    · rw [compileEntry_state he, if_pos (starts_iff.2 ⟨hs, fun heq => ?_⟩)]
      obtain ⟨k, hk⟩ := Option.ne_none_iff_exists'.1 hs
      rw [hk] at heq hpre
      exact hpre (mem_of_lastOwner heq.symm)

/-- The entries of a state are those of the transitions that start from it. -/
theorem forall₂_block {l : List (Transition G A)} {es : List (CompiledTransition G A)}
    (h : compileLoop l 1 none l = .ok es) (e₀ : CompiledTransition G A)
    (hcont : Contiguous (owners none (l.map (·.state)))) {s : Symbol} (hs : s ≠ none) {i : ℕ}
    (hi : find s l = .ok i) :
    List.Forall₂ (Compiles l) (transitionsOf s l) (block (e₀ :: es) i) := by
  obtain ⟨pre, t, suf, rfl, rfl, hpre, rfl⟩ := (find_eq_ok_iff hs).1 hi
  obtain ⟨es₁, es₂, hlen, hes₂, rfl⟩ := compileLoop_append h
  obtain ⟨e, es', he, hes', rfl⟩ := compileLoop_cons_eq_ok_iff.1 hes₂
  have hlast : (t.state <|> lastOwner none (pre.map (·.state))) = t.state := by
    obtain ⟨k, hk⟩ := Option.ne_none_iff_exists'.1 hs
    rw [hk]
    rfl
  have hblock : block (e₀ :: (es₁ ++ e :: es')) (pre.length + 1) =
      e :: es'.takeWhile fun e => !e.state.valid := by
    simp [block, ← hlen]
  rw [hlast] at hes'
  rw [hblock, transitionsOf_append hcont hs hpre]
  exact .cons (compiles_of_compileEntry he) (compileLoop_takeWhile hes')

theorem Compiles.refines {l : List (Transition G A)} {es : List (CompiledTransition G A)}
    (h : compileLoop l 1 none l = .ok es) {e₀ : CompiledTransition G A}
    (he₀ : e₀.state = none) {t : Transition G A} {e : CompiledTransition G A}
    (ht : Compiles l t e) : Refines (e₀ :: es) t e where
  trigger := ht.trigger
  action := ht.action
  target_eq_zero := by
    have htarget := ht.target
    by_cases hnone : t.target = none
    · rw [hnone, find_none] at htarget
      exact iff_of_true (Except.ok.inj htarget).symm hnone
    · obtain ⟨pre, -, -, -, -, -, hlen⟩ := (find_eq_ok_iff hnone).1 htarget
      exact iff_of_false (by omega) hnone
  target hne := isIndex_of_find h he₀ hne ht.target

/-- A list is accepted when it is empty, or it names its first state, the transitions of
every state are contiguous and every target is known. -/
theorem exists_compile_eq_ok_iff (d : Trivial G A) {l : List (Transition G A)} (hl : l ≠ []) :
    (∃ table, compile d l = .ok table) ↔
      (∀ t ∈ l.head?, t.state ≠ none) ∧ Contiguous (owners none (l.map (·.state))) ∧
        ∀ t ∈ l, t.target ≠ none → t.target ∈ l.map (·.state) := by
  have hloop := exists_compileLoop_eq_ok_iff (List.nil_append l).symm Contiguous.nil
  simp only [compile_eq_ok_iff hl, ← hloop]
  constructor
  · rintro ⟨table, hfirst, es, hes, -⟩
    exact ⟨hfirst, es, hes⟩
  · rintro ⟨hfirst, es, hes⟩
    exact ⟨_, hfirst, es, hes, rfl⟩

theorem compileLoop_compiles {l ts : List (Transition G A)} {i : ℕ} {prev : Symbol}
    {es : List (CompiledTransition G A)} (h : compileLoop l i prev ts = .ok es)
    {e : CompiledTransition G A} (he : e ∈ es) : ∃ t ∈ ts, Compiles l t e := by
  induction ts generalizing i prev es with
  | nil =>
      cases h
      cases he
  | cons t ts ih =>
      obtain ⟨e', es', he', hes, rfl⟩ := compileLoop_cons_eq_ok_iff.1 h
      rcases List.mem_cons.1 he with rfl | he
      · exact ⟨t, List.mem_cons_self, compiles_of_compileEntry he'⟩
      · obtain ⟨u, hu, hcompiles⟩ := ih hes he
        exact ⟨u, List.mem_cons_of_mem t hu, hcompiles⟩

/-- The target of an entry is 0 or the index of a state. -/
theorem target_of_compile {d : Trivial G A} {l : List (Transition G A)}
    {table : List (CompiledTransition G A)} (h : compile d l = .ok table)
    {e : CompiledTransition G A} (he : e ∈ table) :
    e.target = 0 ∨ ∃ s ≠ none, find s l = .ok e.target := by
  cases l with
  | nil =>
      cases h
      rw [List.mem_singleton.1 he]
      exact Or.inl rfl
  | cons t ts =>
      obtain ⟨hfirst, es, hes, rfl⟩ := (compile_eq_ok_iff (List.cons_ne_nil t ts)).1 h
      rcases List.mem_cons.1 he with rfl | he
      · have ht : t.state ≠ none := hfirst t rfl
        refine Or.inr ⟨t.state, ht, (find_eq_ok_iff ht).2 ?_⟩
        exact ⟨[], t, ts, rfl, rfl, by simp, rfl⟩
      · obtain ⟨u, -, hu⟩ := compileLoop_compiles hes he
        by_cases hnone : u.target = none
        · have htarget := hu.target
          rw [hnone, find_none] at htarget
          exact Or.inl (Except.ok.inj htarget).symm
        · exact Or.inr ⟨u.target, hnone, hu.target⟩

/-- The action of an entry is that of a transition, except for the dummy. -/
theorem action_of_compile {d : Trivial G A} {l : List (Transition G A)}
    {table : List (CompiledTransition G A)} (h : compile d l = .ok table)
    {e : CompiledTransition G A} (he : e ∈ table) :
    e.action = d.nothing ∨ ∃ t ∈ l, e.action = t.action := by
  cases l with
  | nil =>
      cases h
      rw [List.mem_singleton.1 he]
      exact Or.inl rfl
  | cons t ts =>
      obtain ⟨-, es, hes, rfl⟩ := (compile_eq_ok_iff (List.cons_ne_nil t ts)).1 h
      rcases List.mem_cons.1 he with rfl | he
      · exact Or.inl rfl
      · obtain ⟨u, hmem, hu⟩ := compileLoop_compiles hes he
        exact Or.inr ⟨u, hmem, hu.action⟩

/-- The block of a state. -/
theorem block_of_compile {d : Trivial G A} {l : List (Transition G A)}
    {table : List (CompiledTransition G A)} (h : compile d l = .ok table) {s : Symbol}
    (hs : s ≠ none) {i : ℕ} (hi : find s l = .ok i) :
    IsIndex table s i ∧
      List.Forall₂ (Refines table) (transitionsOf s l) (block table i) := by
  have hl : l ≠ [] := by
    rintro rfl
    obtain ⟨pre, t, suf, hnil, -⟩ := (find_eq_ok_iff hs).1 hi
    simp at hnil
  obtain ⟨-, es, hes, rfl⟩ := (compile_eq_ok_iff hl).1 h
  obtain ⟨-, hcont, -⟩ := (exists_compile_eq_ok_iff d hl).1 ⟨_, h⟩
  refine ⟨isIndex_of_find hes rfl hs hi, ?_⟩
  exact (forall₂_block hes _ hcont hs hi).imp fun _ _ ht => ht.refines hes rfl

theorem exists_error_iff {ε α : Type*} (x : Except ε α) :
    (∃ e, x = .error e) ↔ ¬ ∃ a, x = .ok a := by
  cases x <;> simp

/-- `compile` throws exactly when the list is not empty and its first state is absent, the
transitions of some state are not contiguous, or some target names no state of the list.
Otherwise the entries that are scanned from the index of a state are the transitions that
start from it, in their order. -/
theorem compile_correct (d : Trivial G A) (l : List (Transition G A)) :
    ((∃ e, compile d l = .error e) ↔ l ≠ [] ∧
      ((∃ t ∈ l.head?, t.state = none) ∨ ¬ Contiguous (owners none (l.map (·.state))) ∨
        ∃ t ∈ l, t.target ≠ none ∧ t.target ∉ l.map (·.state))) ∧
    ∀ table, compile d l = .ok table → ∀ s ≠ none, s ∈ l.map (·.state) →
      ∃ i, IsIndex table s i ∧
        List.Forall₂ (Refines table) (transitionsOf s l) (block table i) := by
  refine ⟨?_, fun table htable s hs hmem => ?_⟩
  · by_cases hl : l = []
    · subst hl
      simp [compile]
    · rw [exists_error_iff, exists_compile_eq_ok_iff d hl, not_and_or, not_and_or]
      push Not
      simp only [hl, ne_eq, not_false_eq_true, true_and]
  · obtain ⟨i, hi⟩ := exists_find_eq_ok_iff.2 fun _ => hmem
    exact ⟨i, block_of_compile htable hs hi⟩

/-- The symbol of a single character. -/
def letter (c : UInt8) (h : c ≠ 0) : Symbol :=
  some ⟨[c], fun _ hd => List.mem_singleton.1 hd ▸ h⟩

def letterA : Symbol := letter 97 (by decide)

def letterB : Symbol := letter 98 (by decide)

def letterX : Symbol := letter 120 (by decide)

def letterY : Symbol := letter 121 (by decide)

/-- State `a` has two transitions, one to state `b` and one on input `x` without a target;
`b` has one, back to `a`. -/
def twoStates : List (Transition ℕ ℕ) :=
  [⟨letterA, 1, none, 10, letterB⟩,
    ⟨none, 0, letterX, 20, none⟩,
    ⟨letterB, 2, none, 30, letterA⟩]

theorem compile_correct_twoStates :
    ∃ table, compile ⟨0, 0, 0⟩ twoStates = .ok table ∧ ∃ i,
      IsIndex table letterA i ∧
      List.Forall₂ (Refines table) (twoStates.take 2) (block table i) := by
  refine ⟨_, rfl, ?_⟩
  exact (compile_correct ⟨0, 0, 0⟩ twoStates).2 _ rfl letterA (by decide)
    (by decide)

end Fsm

end Zth
