import Zth.Library.Chain

/-!
# Hooks

A hook is a chain of callbacks, each with its argument, and the last that was added is the
first to be called. `once` calls and deletes the entries of the chain, and then takes the
hook to be empty. A callback that adds to the hook meanwhile puts an entry in front of the
chain, where `once` does not look any more: when it is over, it drops the head, and the
entry is neither called nor deleted.
-/

namespace Zth

/-- An entry of a hook. -/
structure Hookable (Fn Arg : Type*) where
  func : Fn
  arg : Arg
  next : Option ℕ
deriving DecidableEq, Repr

/-- A hook, with the memory that its entries are allocated in. The code does not have the
lists: they keep what was added, and what was called, in this order. -/
structure Hook (Fn Arg : Type*) where
  mHead : Option ℕ
  nodes : ℕ → Option (Hookable Fn Arg)
  fresh : ℕ
  registered : List (ℕ × Hookable Fn Arg)
  invoked : List (ℕ × Hookable Fn Arg)

namespace Hook

open Chain

variable {Fn Arg σ : Type*}

def new (Fn Arg : Type*) : Hook Fn Arg := ⟨none, fun _ => none, 0, [], []⟩

/-- `add(f, a)`. -/
def add (h : Hook Fn Arg) (k : Fn × Arg) : Hook Fn Arg where
  mHead := some h.fresh
  nodes := Function.update h.nodes h.fresh (some ⟨k.1, k.2, h.mHead⟩)
  fresh := h.fresh + 1
  registered := h.registered ++ [(h.fresh, ⟨k.1, k.2, h.mHead⟩)]
  invoked := h.invoked

@[simp] theorem add_nodes (h : Hook Fn Arg) (k : Fn × Arg) :
    (h.add k).nodes = Function.update h.nodes h.fresh (some ⟨k.1, k.2, h.mHead⟩) := rfl

/-- The callbacks are added one after the other. -/
def addAll (ks : List (Fn × Arg)) (h : Hook Fn Arg) : Hook Fn Arg := ks.foldl add h

/-- What is kept of a call. -/
def log (p : ℕ) (n : Hookable Fn Arg) (h : Hook Fn Arg) : Hook Fn Arg :=
  { h with invoked := h.invoked ++ [(p, n)] }

/-- The memory of an entry is given back. -/
def free (p : ℕ) (h : Hook Fn Arg) : Hook Fn Arg :=
  { h with nodes := Function.update h.nodes p none }

@[simp] theorem free_nodes (p : ℕ) (h : Hook Fn Arg) :
    (h.free p).nodes = Function.update h.nodes p none := rfl

/-- `delete` of an entry, which has not been deleted before. -/
def delete (p : ℕ) (h : Hook Fn Arg) : Option (Hook Fn Arg) :=
  (h.nodes p).map fun _ => h.free p

/-- What calling a function does: it changes the state of the rest of the program, and adds
callbacks to the hook. -/
abbrev Behaviour (Fn Arg σ : Type*) := Fn → Arg → σ → σ × List (Fn × Arg)

variable (call : Behaviour Fn Arg σ)

/-- `operator()` of an entry; it returns the next one. -/
def invoke (p : ℕ) (h : Hook Fn Arg) (s : σ) : Option (Hook Fn Arg × σ × Option ℕ) :=
  (h.nodes p).bind fun n =>
    let r := call n.func n.arg s
    let h := addAll r.2 (h.log p n)
    (h.nodes p).map fun n => (h, r.1, n.next)

/-- The loop of `once`. -/
def onceLoop : ℕ → Option ℕ → Hook Fn Arg → σ → Option (Hook Fn Arg × σ)
  | _, none, h, s => some (h, s)
  | 0, some _, _, _ => none
  | n + 1, some p, h, s =>
      (invoke call p h s).bind fun r =>
        (r.1.delete p).bind fun h => onceLoop n r.2.2 h r.2.1

/-- `once(x)`. -/
def once (fuel : ℕ) (h : Hook Fn Arg) (s : σ) : Option (Hook Fn Arg × σ) :=
  (onceLoop call fuel h.mHead h s).map fun r => ({ r.1 with mHead := none }, r.2)

/-- The callbacks that are added while these are called one after the other. -/
def addedBy : List (Fn × Arg) → σ → List (Fn × Arg)
  | [], _ => []
  | k :: ks, s => (call k.1 k.2 s).2 ++ addedBy ks (call k.1 k.2 s).1

/-- The state of the rest of the program after these were called one after the other. -/
def stateAfter (ks : List (Fn × Arg)) (s : σ) : σ := ks.foldl (fun s k => (call k.1 k.2 s).1) s

/-- All that was registered was called, once, and nothing is left. -/
structure RunOnce (h : Hook Fn Arg) : Prop where
  nodup : h.invoked.Nodup
  invoked : ∀ e, e ∈ h.invoked ↔ e ∈ h.registered
  deleted : ∀ p, h.nodes p = none
  empty : h.mHead = none

/-- The hook consists of these entries. -/
structure Holds (h : Hook Fn Arg) (l : List (ℕ × Hookable Fn Arg)) : Prop where
  chain : IsChain Hookable.next h.nodes h.mHead l
  nodup : (l.map Prod.fst).Nodup
  lt_fresh : ∀ p ∈ l.map Prod.fst, p < h.fresh
  nodes : ∀ p, h.nodes p ≠ none → p ∈ l.map Prod.fst
  registered : h.registered = l.reverse
  invoked : h.invoked = []

/-- The callback of an entry. -/
def callback (e : ℕ × Hookable Fn Arg) : Fn × Arg := (e.2.func, e.2.arg)

/-- The entries `l` were called and deleted, and the callbacks `ks` were added meanwhile. -/
structure Walked (h : Hook Fn Arg) (l : List (ℕ × Hookable Fn Arg)) (ks : List (Fn × Arg))
    (h' : Hook Fn Arg) : Prop where
  invoked : h'.invoked = h.invoked ++ l
  registered : ∃ m, h'.registered = h.registered ++ m ∧ m.map callback = ks ∧
    ∀ e ∈ m, h.fresh ≤ e.1
  fresh : h'.fresh = h.fresh + ks.length
  nodes : ∀ p, h'.nodes p ≠ none ↔
    (h.nodes p ≠ none ∧ p ∉ l.map Prod.fst) ∨ (h.fresh ≤ p ∧ p < h.fresh + ks.length)
  kept : ∀ p, p < h.fresh → p ∉ l.map Prod.fst → h'.nodes p = h.nodes p

section Walked

variable {h h₁ h₂ : Hook Fn Arg} {l l₂ : List (ℕ × Hookable Fn Arg)} {ks ks₂ : List (Fn × Arg)}

theorem Walked.refl (h : Hook Fn Arg) : Walked h [] [] h where
  invoked := (List.append_nil _).symm
  registered := ⟨[], (List.append_nil _).symm, rfl, by simp⟩
  fresh := rfl
  nodes p :=
    ⟨fun hp => Or.inl ⟨hp, by simp⟩,
      fun hp => hp.elim And.left fun hnew => absurd hnew.2 (Nat.not_lt.2 hnew.1)⟩
  kept _ _ _ := rfl

theorem Walked.trans (h₁₂ : Walked h l ks h₁) (h₂₃ : Walked h₁ l₂ ks₂ h₂)
    (hlt : ∀ p ∈ l₂.map Prod.fst, p < h.fresh) : Walked h (l ++ l₂) (ks ++ ks₂) h₂ where
  invoked := by rw [h₂₃.invoked, h₁₂.invoked, List.append_assoc]
  registered := by
    obtain ⟨m, hm, hks, hge⟩ := h₁₂.registered
    obtain ⟨m₂, hm₂, hks₂, hge₂⟩ := h₂₃.registered
    refine ⟨m ++ m₂, by rw [hm₂, hm, List.append_assoc], by rw [List.map_append, hks, hks₂], ?_⟩
    intro e he
    rcases List.mem_append.1 he with he | he
    · exact hge e he
    · have hle := hge₂ e he
      rw [h₁₂.fresh] at hle
      omega
  fresh := by
    rw [h₂₃.fresh, h₁₂.fresh, List.length_append]
    omega
  nodes p := by
    rw [h₂₃.nodes, h₁₂.nodes, h₁₂.fresh, List.map_append, List.mem_append, not_or,
      List.length_append]
    have hp := hlt p
    by_cases hmem : p ∈ l₂.map Prod.fst
    · have := hp hmem
      simp only [hmem, not_true_eq_false, and_false, false_or]
      omega
    · simp only [hmem, not_false_eq_true, and_true]
      constructor
      · rintro ((hold | hnew) | hnew)
        · exact Or.inl hold
        · exact Or.inr (by omega)
        · exact Or.inr (by omega)
      · rintro (hold | hnew)
        · exact Or.inl (Or.inl hold)
        · by_cases hfirst : p < h.fresh + ks.length
          · exact Or.inl (Or.inr ⟨hnew.1, hfirst⟩)
          · exact Or.inr (by omega)
  kept p hp hmem := by
    rw [List.map_append, List.mem_append, not_or] at hmem
    have hp₁ : p < h₁.fresh := by
      rw [h₁₂.fresh]
      omega
    rw [h₂₃.kept p hp₁ hmem.2, h₁₂.kept p hp hmem.1]

theorem walked_add (h : Hook Fn Arg) (k : Fn × Arg) : Walked h [] [k] (h.add k) where
  invoked := (List.append_nil _).symm
  registered := ⟨[(h.fresh, ⟨k.1, k.2, h.mHead⟩)], rfl, rfl, by simp⟩
  fresh := rfl
  nodes p := by
    by_cases hp : p = h.fresh
    · subst hp
      simp [add]
    · simp [add, Function.update_of_ne hp]
      omega
  kept p hp _ := Function.update_of_ne (Nat.ne_of_lt hp) _ _

theorem walked_addAll (h : Hook Fn Arg) (ks : List (Fn × Arg)) :
    Walked h [] ks (addAll ks h) := by
  induction ks generalizing h with
  | nil => exact .refl h
  | cons k ks ih => exact (walked_add h k).trans (ih (h.add k)) (by simp)

/-- Calling and deleting one entry. -/
theorem walked_invoke {p : ℕ} {n : Hookable Fn Arg} (hn : h.nodes p = some n)
    (hp : p < h.fresh) (s : σ) :
    ∃ h₁ h₂, invoke call p h s = some (h₁, (call n.func n.arg s).1, n.next) ∧
      h₁.delete p = some h₂ ∧ Walked h [(p, n)] (call n.func n.arg s).2 h₂ := by
  have hadd := walked_addAll (h.log p n) (call n.func n.arg s).2
  have hkeep : (addAll (call n.func n.arg s).2 (h.log p n)).nodes p = some n :=
    (hadd.kept p hp (by simp)).trans hn
  refine ⟨addAll (call n.func n.arg s).2 (h.log p n),
    (addAll (call n.func n.arg s).2 (h.log p n)).free p, ?_, ?_, ?_, ?_, hadd.fresh, ?_, ?_⟩
  · simp only [invoke, hn, hkeep, Option.bind_some, Option.map_some]
  · rw [delete, hkeep, Option.map_some]
  · exact hadd.invoked.trans (List.append_nil _)
  · exact hadd.registered
  · intro q
    have hq := hadd.nodes q
    rw [free_nodes]
    by_cases hqp : q = p
    · subst hqp
      rw [Function.update_self]
      refine iff_of_false (absurd rfl) ?_
      rintro (hold | hnew)
      · exact hold.2 List.mem_cons_self
      · exact Nat.not_lt.2 hnew.1 hp
    · rw [Function.update_of_ne hqp, hq]
      simp [log, hqp]
  · intro q hlt hmem
    have hq : q ≠ p := by simpa using hmem
    exact (Function.update_of_ne hq _ _).trans (hadd.kept q hlt (by simp))

/-- The loop calls and deletes the entries of the chain it starts with. -/
theorem walked_onceLoop {q : Option ℕ} (hl : IsChain Hookable.next h.nodes q l)
    (hnodup : (l.map Prod.fst).Nodup) (hlt : ∀ p ∈ l.map Prod.fst, p < h.fresh) (s : σ)
    {fuel : ℕ} (hf : l.length ≤ fuel) :
    ∃ h', onceLoop call fuel q h s = some (h', stateAfter call (l.map callback) s) ∧
      Walked h l (addedBy call (l.map callback) s) h' := by
  induction l generalizing h q s fuel with
  | nil =>
      rw [isChain_nil_iff] at hl
      subst hl
      exact ⟨h, by cases fuel <;> rfl, .refl h⟩
  | cons e l ih =>
      obtain ⟨rfl, hn, hl⟩ := isChain_cons_iff.1 hl
      obtain ⟨fuel, rfl⟩ : ∃ n, fuel = n + 1 := ⟨fuel - 1, by
        rw [List.length_cons] at hf
        omega⟩
      rw [List.map_cons, List.nodup_cons] at hnodup
      have hp : e.1 < h.fresh := hlt e.1 (by simp)
      obtain ⟨h₁, h₂, hinvoke, hdelete, hwalked⟩ := walked_invoke call hn hp s
      have hold : ∀ e' ∈ l, e'.1 < h.fresh := fun e' he' =>
        hlt e'.1 (List.mem_map_of_mem (List.mem_cons_of_mem e he'))
      have hrest : IsChain Hookable.next h₂.nodes e.2.next l := by
        refine hl.congr fun e' he' => hwalked.kept e'.1 (hold e' he') ?_
        rw [List.map_singleton, List.mem_singleton]
        rintro heq
        exact hnodup.1 (heq ▸ List.mem_map_of_mem he')
      have hrestlt : ∀ p ∈ l.map Prod.fst, p < h.fresh := fun p hmem =>
        hlt p (List.mem_cons_of_mem _ hmem)
      have hrestlt₂ : ∀ p ∈ l.map Prod.fst, p < h₂.fresh := by
        intro p hmem
        have := hrestlt p hmem
        rw [hwalked.fresh]
        omega
      obtain ⟨h', hloop, hwalked'⟩ := ih hrest hnodup.2 hrestlt₂
        (call e.2.func e.2.arg s).1 (Nat.le_of_succ_le_succ hf)
      refine ⟨h', ?_, hwalked.trans hwalked' hrestlt⟩
      rw [onceLoop, hinvoke, Option.bind_some, hdelete, Option.bind_some, hloop]
      rfl

end Walked

section Build

variable {h : Hook Fn Arg} {l : List (ℕ × Hookable Fn Arg)}

theorem holds_new : Holds (new Fn Arg) [] where
  chain := isChain_nil_iff.2 rfl
  nodup := List.nodup_nil
  lt_fresh := by simp
  nodes p hp := absurd rfl hp
  registered := rfl
  invoked := rfl

theorem Holds.add (hl : Holds h l) (k : Fn × Arg) :
    Holds (h.add k) ((h.fresh, ⟨k.1, k.2, h.mHead⟩) :: l) := by
  have hfresh : h.fresh ∉ l.map Prod.fst := fun hmem => Nat.lt_irrefl _ (hl.lt_fresh _ hmem)
  refine ⟨⟨rfl, Function.update_self _ _ _, hl.chain.update hfresh _⟩,
    List.nodup_cons.2 ⟨hfresh, hl.nodup⟩, ?_, ?_, ?_, hl.invoked⟩
  · intro p hp
    rcases List.mem_cons.1 hp with rfl | hp
    · exact Nat.lt_succ_self _
    · exact Nat.lt_succ_of_lt (hl.lt_fresh p hp)
  · intro p hp
    by_cases hpf : p = h.fresh
    · exact hpf ▸ List.mem_cons_self
    · refine List.mem_cons_of_mem _ (hl.nodes p ?_)
      rwa [add_nodes, Function.update_of_ne hpf] at hp
  · rw [Hook.add, hl.registered, List.reverse_cons]

/-- A hook that callbacks were added to holds them, the last one in front. -/
theorem Holds.addAll (hl : Holds h l) (ks : List (Fn × Arg)) :
    ∃ l', Holds (addAll ks h) l' ∧ l'.map callback = ks.reverse ++ l.map callback := by
  induction ks generalizing h l with
  | nil => exact ⟨l, hl, rfl⟩
  | cons k ks ih =>
      obtain ⟨l', hl', heq⟩ := ih (hl.add k)
      refine ⟨l', hl', ?_⟩
      rw [heq, List.reverse_cons, List.append_assoc]
      rfl

end Build

/-- Whatever the callbacks do, those that were registered before are called, each once, the
last one first; and the hook is empty then. -/
theorem walked_once {h : Hook Fn Arg} {l : List (ℕ × Hookable Fn Arg)} (hl : Holds h l) (s : σ)
    {fuel : ℕ} (hf : l.length ≤ fuel) :
    ∃ h', once call fuel h s = some (h', stateAfter call (l.map callback) s) ∧
      h'.mHead = none ∧ Walked h l (addedBy call (l.map callback) s) h' := by
  obtain ⟨h', hloop, hwalked⟩ := walked_onceLoop call hl.chain hl.nodup hl.lt_fresh s hf
  refine ⟨{ h' with mHead := none }, ?_, rfl, ?_⟩
  · rw [once, hloop, Option.map_some]
  · exact ⟨hwalked.invoked, hwalked.registered, hwalked.fresh, hwalked.nodes, hwalked.kept⟩

/-- `once` calls all that is registered, and leaves nothing behind, exactly when no callback
that it calls adds another one. -/
theorem once_runOnce_iff (ks : List (Fn × Arg)) (s : σ) :
    ∃ n, ∀ fuel, n ≤ fuel → ∃ h' s',
      once call fuel (addAll ks (new Fn Arg)) s = some (h', s') ∧
      (RunOnce h' ↔ addedBy call ks.reverse s = []) := by
  obtain ⟨l, hl, hcallbacks⟩ := holds_new.addAll ks
  rw [List.map_nil, List.append_nil] at hcallbacks
  refine ⟨l.length, fun fuel hfuel => ?_⟩
  obtain ⟨h', honce, hhead, hwalked⟩ := walked_once call hl s hfuel
  rw [hcallbacks] at hwalked
  refine ⟨h', _, honce, ?_⟩
  obtain ⟨m, hm, hadded, hge⟩ := hwalked.registered
  have hinvoked : h'.invoked = l := by rw [hwalked.invoked, hl.invoked, List.nil_append]
  constructor
  · intro hrun
    rw [← hadded, List.map_eq_nil_iff, List.eq_nil_iff_forall_not_mem]
    intro e he
    -- a callback that was added has an entry behind those that are called
    have hmem : e ∈ h'.registered := hm ▸ List.mem_append_right _ he
    rw [← hrun.invoked, hinvoked] at hmem
    exact Nat.not_lt.2 (hge e he) (hl.lt_fresh e.1 (List.mem_map_of_mem hmem))
  · intro hnone
    rw [hnone, List.map_eq_nil_iff] at hadded
    subst hadded
    refine ⟨?_, ?_, ?_, hhead⟩
    · rw [hinvoked]
      exact List.Nodup.of_map Prod.fst hl.nodup
    · intro e
      rw [hinvoked, hm, hl.registered, List.append_nil, List.mem_reverse]
    · intro p
      by_contra hp
      rcases (hwalked.nodes p).1 hp with hold | hnew
      · exact hold.2 (hl.nodes p hold.1)
      · rw [hnone, List.length_nil] at hnew
        omega

/-- An exit handler that registers another one. -/
def registersAnother : Behaviour ℕ Unit Unit := fun f _ s => (s, if f = 0 then [(1, ())] else [])

/-- The second handler is neither called nor deleted, and the hook is empty. -/
theorem not_runOnce_registersAnother :
    ∃ h' s', once registersAnother 1 (addAll [(0, ())] (new ℕ Unit)) () = some (h', s') ∧
      h'.invoked = [(0, ⟨0, (), none⟩)] ∧
      h'.registered = [(0, ⟨0, (), none⟩), (1, ⟨1, (), some 0⟩)] ∧
      h'.nodes 1 = some ⟨1, (), some 0⟩ ∧ h'.mHead = none ∧ ¬ RunOnce h' := by
  refine ⟨_, (), rfl, rfl, rfl, rfl, rfl, fun hrun => ?_⟩
  have hdeleted := hrun.deleted 1
  cases hdeleted

end Hook

end Zth
