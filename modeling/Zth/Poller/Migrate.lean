import Mathlib.Logic.Function.Basic
import Zth.Poller.Server

/-!
# Replacing the poller of a waiter

A waiter polls by the server that was set by `setPoller`, or by a default one that it
creates when it needs one. The servers are known by an index, where `none` is the default
server. `setPoller` moves the registrations of the server in use to the one that replaces
it, but only if that server was set before, and it does not look whether the two are the
same.
-/

namespace Zth

variable {K P C I κ : Type*} [DecidableEq K]

/-- The servers, by their index. -/
abbrev Servers (K P C I : Type*) := Option K → PollerServer P C I

namespace Servers

variable [DecidableEq P] [DecidableEq C]

/-- The loop of `migrateTo` that undoes the registrations of the first `j` items. -/
def rollback (src dst : Option K) : ℕ → Servers K P C I → Servers K P C I
  | 0, t => t
  | j + 1, t =>
      match (t src).metaItems[j]? with
      | some m =>
          rollback src dst j (Function.update t dst ((t dst).remove m.pollable m.client).1)
      | none => rollback src dst j t

/-- The loop of `migrateTo`, from item `i` on. The items are read while it goes on; `none`
when it does not end in time. -/
def migrateLoop (src dst : Option K) (alloc : ℕ → Bool) :
    ℕ → ℕ → Servers K P C I → Option (Servers K P C I × Option Errno)
  | 0, _, _ => none
  | fuel + 1, i, t =>
      match (t src).metaItems[i]? with
      | none => some (Function.update t src (t src).clear, none)
      | some m =>
          match (t dst).add m.pollable m.client (alloc i) with
          | (s, none) => migrateLoop src dst alloc fuel (i + 1) (Function.update t dst s)
          | (s, some e) => some (rollback src dst i (Function.update t dst s), some e)

/-- Move all registrations of `src` to `dst`. Memory is reserved first. -/
def migrateTo (src dst : Option K) (reserve : Bool) (alloc : ℕ → Bool) (fuel : ℕ)
    (t : Servers K P C I) : Option (Servers K P C I × Option Errno) :=
  if reserve then migrateLoop src dst alloc fuel 0 t else some (t, some .enomem)

end Servers

/-- What a waiter knows of its servers: `mPoller` is the one that was set, and
`mDefaultPoller` says whether the default one exists. -/
structure Pollers (K P C I : Type*) where
  servers : Servers K P C I
  mPoller : Option (Option K)
  mDefaultPoller : Bool

namespace Pollers

/-- A new waiter. -/
def init (K P C I : Type*) : Pollers K P C I := ⟨fun _ => .empty, none, false⟩

/-- The default server is created. -/
def newDefault (w : Pollers K P C I) : Pollers K P C I :=
  { w with servers := Function.update w.servers none .empty, mDefaultPoller := true }

/-- The server in use. -/
def poller (w : Pollers K P C I) : Pollers K P C I × Option K :=
  match w.mPoller with
  | some r => (w, r)
  | none => if w.mDefaultPoller then (w, none) else (w.newDefault, none)

variable [DecidableEq P] [DecidableEq C]

/-- Another server is going to be used. Errors of `migrateTo` are ignored. -/
def setPoller (p : Option (Option K)) (reserve : Bool) (alloc : ℕ → Bool) (fuel : ℕ)
    (w : Pollers K P C I) : Option (Pollers K P C I) :=
  match w.mPoller, p with
  | none, p => some { w with mPoller := p }
  | some q, some r =>
      (w.servers.migrateTo q r reserve alloc fuel).map fun t =>
        { w with servers := t.1, mPoller := some r }
  | some q, none =>
      let w := if !w.mDefaultPoller && !(w.servers q).metaItems.isEmpty then w.newDefault else w
      if w.mDefaultPoller then
        (w.servers.migrateTo q none reserve alloc fuel).map fun t =>
          { w with servers := t.1, mPoller := some none }
      else some { w with mPoller := none }

/-- What is done to the pollers: somebody asks for the server in use, calls a function of a
server, or sets another one. -/
inductive Op (K P C κ : Type*) where
  | poller
  | server (r : Option K) (op : PollerServer.Op P C κ)
  | setPoller (p : Option (Option K)) (reserve : Bool) (alloc : ℕ → Bool) (fuel : ℕ)

/-- The default server must exist to be used. -/
def step (init : κ → P → Except Errno I) (w : Pollers K P C I) :
    Op K P C κ → Option (Pollers K P C I)
  | .poller => some w.poller.1
  | .server r op =>
      if r = none ∧ w.mDefaultPoller = false then none
      else ((w.servers r).step init op).map fun s =>
        { w with servers := Function.update w.servers r s }
  | .setPoller p reserve alloc fuel =>
      if p = some none ∧ w.mDefaultPoller = false then none
      else w.setPoller p reserve alloc fuel

end Pollers

namespace Servers

/-- One more registration in a server. -/
def push (dst : Option K) (m : MetaItem P C) (t : Servers K P C I) : Servers K P C I :=
  Function.update t dst { t dst with metaItems := (t dst).metaItems ++ [m] }

theorem metaItems_push (dst : Option K) (m : MetaItem P C) (t : Servers K P C I) :
    (t.push dst m dst).metaItems = (t dst).metaItems ++ [m] := by
  rw [push, Function.update_self]

theorem push_of_ne {dst r : Option K} (h : r ≠ dst) (m : MetaItem P C) (t : Servers K P C I) :
    t.push dst m r = t r := Function.update_of_ne h _ _

/-- What was in a server is still there. -/
theorem isPrefix_push (dst r : Option K) (m : MetaItem P C) (t : Servers K P C I) :
    (t r).metaItems <+: (t.push dst m r).metaItems := by
  by_cases hr : r = dst
  · subst hr
    rw [metaItems_push]
    exact List.prefix_append _ _
  · exact ⟨[], by rw [push_of_ne hr, List.append_nil]⟩

variable [DecidableEq P] [DecidableEq C]

theorem migrateLoop_succ (src dst : Option K) (alloc : ℕ → Bool) (fuel i : ℕ)
    (t : Servers K P C I) :
    migrateLoop src dst alloc (fuel + 1) i t =
      match (t src).metaItems[i]? with
      | none => some (Function.update t src (t src).clear, none)
      | some m =>
          if alloc i then migrateLoop src dst alloc fuel (i + 1) (t.push dst m)
          else some (rollback src dst i t, some .enomem) := by
  rw [migrateLoop]
  cases (t src).metaItems[i]? with
  | none => rfl
  | some m =>
      dsimp only
      cases halloc : alloc i with
      | true => rfl
      | false =>
          simp only [PollerServer.add, Bool.false_eq_true, if_false, Function.update_eq_self]

/-- What holds before each item is looked at, and what follows from it when `migrateTo`
returns. -/
theorem migrateTo_invariant {src dst : Option K} {reserve : Bool} {alloc : ℕ → Bool} {fuel : ℕ}
    {t t' : Servers K P C I} {e : Option Errno} (Q : ℕ → Servers K P C I → Prop)
    (R : Servers K P C I → Option Errno → Prop) (hQ : Q 0 t) (hstay : R t (some .enomem))
    (hpush : ∀ i t m, Q i t → (t src).metaItems[i]? = some m → alloc i = true →
      Q (i + 1) (t.push dst m))
    (hend : ∀ i t, Q i t → (t src).metaItems[i]? = none →
      R (Function.update t src (t src).clear) none)
    (hfail : ∀ i t, Q i t → R (rollback src dst i t) (some .enomem))
    (h : migrateTo src dst reserve alloc fuel t = some (t', e)) : R t' e := by
  have hloop : ∀ (fuel i : ℕ) (t : Servers K P C I), Q i t →
      migrateLoop src dst alloc fuel i t = some (t', e) → R t' e := by
    intro fuel
    induction fuel with
    | zero =>
        intro i t _ h
        cases h
    | succ fuel ih =>
        intro i t hQ h
        rw [migrateLoop_succ] at h
        split at h
        · rename_i hnone
          cases h
          exact hend i t hQ hnone
        · rename_i m hm
          split at h
          · rename_i halloc
            exact ih (i + 1) (t.push dst m) (hpush i t m hQ hm halloc) h
          · cases h
            exact hfail i t hQ
  rw [migrateTo] at h
  split at h
  · exact hloop fuel 0 t hQ h
  · cases h
    exact hstay

/-- Another server gets the items that are left, behind its own. -/
theorem migrateLoop_of_ne {src dst : Option K} (h : src ≠ dst) (t : Servers K P C I) (i n : ℕ)
    (hn : (t src).metaItems.length ≤ i + n) :
    ∃ t', migrateLoop src dst (fun _ => true) (n + 1) i t = some (t', none) ∧
      (t' dst).metaItems = (t dst).metaItems ++ (t src).metaItems.drop i := by
  induction n generalizing i t with
  | zero =>
      rw [Nat.add_zero] at hn
      rw [migrateLoop_succ, List.getElem?_eq_none hn]
      refine ⟨_, rfl, ?_⟩
      rw [Function.update_of_ne h.symm, List.drop_eq_nil_of_le hn, List.append_nil]
  | succ n ih =>
      rw [migrateLoop_succ]
      cases hi : (t src).metaItems[i]? with
      | none =>
          have hle : (t src).metaItems.length ≤ i := List.getElem?_eq_none_iff.1 hi
          refine ⟨_, rfl, ?_⟩
          rw [Function.update_of_ne h.symm, List.drop_eq_nil_of_le hle, List.append_nil]
      | some m =>
          obtain ⟨hlt, hget⟩ := List.getElem?_eq_some_iff.1 hi
          dsimp only
          rw [if_pos rfl]
          have hsrc : t.push dst m src = t src := push_of_ne h m t
          obtain ⟨t', ht', hdst⟩ := ih (t.push dst m) (i + 1) (by rw [hsrc]; omega)
          refine ⟨t', ht', ?_⟩
          rw [hdst, hsrc, metaItems_push, List.append_assoc, List.drop_eq_getElem_cons hlt, hget]
          rfl

/-- A server that is moved to itself is never through with its items. -/
theorem migrateLoop_self (src : Option K) (t : Servers K P C I) (i fuel : ℕ)
    (h : i < (t src).metaItems.length) :
    migrateLoop src src (fun _ => true) fuel i t = none := by
  induction fuel generalizing i t with
  | zero => rfl
  | succ fuel ih =>
      rw [migrateLoop_succ, List.getElem?_eq_getElem h]
      apply ih
      rw [metaItems_push, List.length_append, List.length_singleton]
      omega

theorem rollback_of_ne {src dst r : Option K} (hdst : r ≠ dst) (j : ℕ) (t : Servers K P C I) :
    rollback src dst j t r = t r := by
  induction j generalizing t with
  | zero => rfl
  | succ j ih =>
      rw [rollback]
      cases (t src).metaItems[j]? with
      | some m =>
          dsimp only
          rw [ih, Function.update_of_ne hdst]
      | none => exact ih t

/-- Other servers are left alone. -/
theorem migrateTo_of_ne {src dst r : Option K} (hsrc : r ≠ src) (hdst : r ≠ dst)
    {reserve : Bool} {alloc : ℕ → Bool} {fuel : ℕ} {t t' : Servers K P C I} {e : Option Errno}
    (h : migrateTo src dst reserve alloc fuel t = some (t', e)) : t' r = t r := by
  apply migrateTo_invariant (fun _ t₁ => t₁ r = t r) (fun t₁ _ => t₁ r = t r) rfl rfl _ _ _ h
  · intro i t₁ m hQ _ _
    rw [push_of_ne hdst, hQ]
  · intro i t₁ hQ _
    rw [Function.update_of_ne hsrc, hQ]
  · intro i t₁ hQ
    rw [rollback_of_ne hdst, hQ]

/-- The registrations that a server holds once another one was moved to it. -/
def merged (src dst : Option K) (t : Servers K P C I) : List (MetaItem P C) :=
  if dst = src then (t src).metaItems else (t dst).metaItems ++ (t src).metaItems

/-- `migrateTo` ends with all registrations in the other server, unless the two are the
same and there is something to move. -/
theorem exists_migrateTo_iff (src dst : Option K) (t : Servers K P C I) :
    (∃ fuel t' e, migrateTo src dst true (fun _ => true) fuel t = some (t', e) ∧
      (t' dst).metaItems.Perm (merged src dst t)) ↔
      (t src).metaItems = [] ∨ dst ≠ src := by
  rw [merged]
  by_cases h : dst = src
  · subst h
    simp only [if_true, ne_eq, not_true_eq_false, or_false]
    constructor
    · rintro ⟨fuel, t', e, hrun, -⟩
      by_contra hne
      rw [migrateTo, if_pos rfl, migrateLoop_self dst t 0 fuel (List.length_pos_of_ne_nil hne)]
        at hrun
      cases hrun
    · intro hnil
      refine ⟨1, Function.update t dst (t dst).clear, none, ?_, ?_⟩
      · rw [migrateTo, if_pos rfl, migrateLoop_succ, hnil]
        rfl
      · rw [Function.update_self, hnil]
        exact List.Perm.refl _
  · rw [if_neg h]
    refine iff_of_true ?_ (Or.inr h)
    obtain ⟨t', hrun, hdst⟩ := migrateLoop_of_ne (Ne.symm h) t 0 (t src).metaItems.length (by simp)
    refine ⟨(t src).metaItems.length + 1, t', none, ?_, ?_⟩
    · rw [migrateTo, if_pos rfl, hrun]
    · rw [hdst, List.drop_zero]

end Servers

namespace Pollers

/-- The registrations in the server in use. -/
def held (w : Pollers K P C I) : List (MetaItem P C) :=
  (w.poller.1.servers w.poller.2).metaItems

/-- The server in use afterwards holds what the one before held, besides its own. -/
def Kept (w w' : Pollers K P C I) : Prop :=
  w'.held.Perm (Servers.merged w.poller.2 w'.poller.2 w.poller.1.servers)

/-- Nothing is registered, or the registrations are moved: a server that was set before is
replaced by another one, and the default one that was not set stays in use. -/
def Replaces (w : Pollers K P C I) (p : Option (Option K)) : Prop :=
  w.held = [] ∨
    match w.mPoller with
    | none => p.getD none = none
    | some q => p.getD none ≠ q

/-- The default server is not used before it exists. -/
structure Tidy (w : Pollers K P C I) : Prop where
  empty : w.mDefaultPoller = false → (w.servers none).metaItems = []
  unused : w.mDefaultPoller = false → w.mPoller ≠ some none

omit [DecidableEq K] in
theorem tidy_init : Tidy (init K P C I) := ⟨fun _ => rfl, fun _ => nofun⟩

theorem poller_snd (w : Pollers K P C I) : w.poller.2 = w.mPoller.getD none := by
  rw [poller]
  cases w.mPoller with
  | some r => rfl
  | none =>
      dsimp only
      split <;> rfl

theorem newDefault_servers (w : Pollers K P C I) :
    w.newDefault.servers = Function.update w.servers none .empty := rfl

theorem Tidy.metaItems_newDefault {w : Pollers K P C I} (h : Tidy w)
    (hd : w.mDefaultPoller = false) (r : Option K) :
    (w.newDefault.servers r).metaItems = (w.servers r).metaItems := by
  rw [newDefault_servers]
  by_cases hr : r = none
  · subst hr
    rw [Function.update_self, h.empty hd]
    rfl
  · rw [Function.update_of_ne hr]

theorem Tidy.metaItems_poller {w : Pollers K P C I} (h : Tidy w) (r : Option K) :
    (w.poller.1.servers r).metaItems = (w.servers r).metaItems := by
  rw [poller]
  cases w.mPoller with
  | some r => rfl
  | none =>
      dsimp only
      cases hd : w.mDefaultPoller with
      | true => rfl
      | false => exact h.metaItems_newDefault hd r

theorem Tidy.held_eq {w : Pollers K P C I} (h : Tidy w) :
    w.held = (w.servers (w.mPoller.getD none)).metaItems := by
  rw [held, h.metaItems_poller, poller_snd]

theorem Tidy.kept_iff {w : Pollers K P C I} (h : Tidy w) (w' : Pollers K P C I) :
    Kept w w' ↔ w'.held.Perm
      (Servers.merged (w.mPoller.getD none) (w'.mPoller.getD none) w.servers) := by
  rw [Kept, Servers.merged, Servers.merged, poller_snd, poller_snd, h.metaItems_poller,
    h.metaItems_poller]

omit [DecidableEq K] in
theorem Tidy.setMPoller {w : Pollers K P C I} (h : Tidy w) {p : Option (Option K)}
    (hp : p = some none → w.mDefaultPoller = true) : Tidy { w with mPoller := p } := by
  refine ⟨h.empty, ?_⟩
  rintro hd rfl
  rw [hp rfl] at hd
  cases hd

/-- The default server is in use, and what is in it stays there. -/
theorem Tidy.kept_setMPoller_iff {w : Pollers K P C I} (h : Tidy w) (hq : w.mPoller = none)
    {p : Option (Option K)} (hp : p = some none → w.mDefaultPoller = true) :
    Kept w { w with mPoller := p } ↔ w.held = [] ∨ p.getD none = none := by
  rw [h.kept_iff, (h.setMPoller hp).held_eq, h.held_eq, hq, Servers.merged]
  dsimp only [Option.getD_none]
  split
  · rename_i heq
    rw [heq]
    exact iff_of_true (List.Perm.refl _) (Or.inr rfl)
  · rename_i hne
    constructor
    · intro hperm
      have hlen := hperm.length_eq
      rw [List.length_append] at hlen
      exact Or.inl (List.eq_nil_of_length_eq_zero (by omega))
    · intro hor
      rw [hor.resolve_right hne, List.append_nil]

theorem Tidy.poller {w : Pollers K P C I} (h : Tidy w) : Tidy w.poller.1 := by
  rw [Pollers.poller]
  split
  · exact h
  · split
    · exact h
    · exact ⟨nofun, nofun⟩

/-- If the default server is in use, it exists. -/
theorem Tidy.mDefaultPoller_poller {w : Pollers K P C I} (h : Tidy w)
    (hp : w.poller.2 = none) : w.poller.1.mDefaultPoller = true := by
  rw [poller_snd] at hp
  rw [Pollers.poller]
  cases hq : w.mPoller with
  | some r =>
      rw [hq] at hp
      obtain rfl : r = none := hp
      cases hd : w.mDefaultPoller with
      | true => rfl
      | false => exact absurd hq (h.unused hd)
  | none =>
      dsimp only
      split
      · assumption
      · rfl

theorem Tidy.updateServer {w : Pollers K P C I} (h : Tidy w) {r : Option K}
    {s : PollerServer P C I} (hs : w.mDefaultPoller = false → r = none → s.metaItems = []) :
    Tidy { w with servers := Function.update w.servers r s } := by
  refine ⟨fun hd => ?_, h.unused⟩
  by_cases hr : r = none
  · subst hr
    dsimp only
    rw [Function.update_self, hs hd rfl]
  · dsimp only
    rw [Function.update_of_ne (Ne.symm hr)]
    exact h.empty hd

variable [DecidableEq P] [DecidableEq C]

/-- The server in use is moved to another one, which is in use afterwards. -/
theorem Tidy.exists_migrate_iff {w w₁ : Pollers K P C I} (h : Tidy w) {q : Option K}
    (hq : w.mPoller = some q) (r : Option K)
    (hitems : ∀ r, (w₁.servers r).metaItems = (w.servers r).metaItems) :
    (∃ fuel w', (w₁.servers.migrateTo q r true (fun _ => true) fuel).map
        (fun t => { w₁ with servers := t.1, mPoller := some r }) = some w' ∧ Kept w w') ↔
      w.held = [] ∨ r ≠ q := by
  have hmerged : Servers.merged q r w₁.servers = Servers.merged q r w.servers := by
    rw [Servers.merged, Servers.merged, hitems, hitems]
  have hkept : ∀ t : Servers K P C I, Kept w { w₁ with servers := t, mPoller := some r } ↔
      (t r).metaItems.Perm (Servers.merged q r w₁.servers) := by
    intro t
    rw [h.kept_iff, hq, hmerged]
    rfl
  rw [h.held_eq, hq, Option.getD_some, ← hitems, ← Servers.exists_migrateTo_iff]
  constructor
  · rintro ⟨fuel, w', hrun, hw'⟩
    obtain ⟨⟨t, e⟩, ht, rfl⟩ := Option.map_eq_some_iff.1 hrun
    exact ⟨fuel, t, e, ht, (hkept t).1 hw'⟩
  · rintro ⟨fuel, t, e, ht, hperm⟩
    refine ⟨fuel, { w₁ with servers := t, mPoller := some r }, ?_, (hkept t).2 hperm⟩
    rw [ht]
    rfl

/-- Back to the default server, which is created if it is needed. -/
theorem Tidy.setPoller_none {w : Pollers K P C I} (h : Tidy w) {q : Option K}
    (hq : w.mPoller = some q) :
    (∃ w₁ : Pollers K P C I, (∀ r, (w₁.servers r).metaItems = (w.servers r).metaItems) ∧
      w₁.mDefaultPoller = true ∧ ∀ reserve alloc fuel, w.setPoller none reserve alloc fuel =
        (w₁.servers.migrateTo q none reserve alloc fuel).map fun t =>
          { w₁ with servers := t.1, mPoller := some none }) ∨
    ((w.servers q).metaItems = [] ∧ w.mDefaultPoller = false ∧
      ∀ reserve alloc fuel, w.setPoller none reserve alloc fuel =
        some { w with mPoller := none }) := by
  cases hd : w.mDefaultPoller with
  | true =>
      refine Or.inl ⟨w, fun _ => rfl, hd, fun _ _ _ => ?_⟩
      simp [setPoller, hq, hd]
  | false =>
      cases hitems : (w.servers q).metaItems.isEmpty with
      | false =>
          refine Or.inl ⟨w.newDefault, h.metaItems_newDefault hd, rfl, fun _ _ _ => ?_⟩
          simp only [setPoller, hq, hd, hitems]
          rfl
      | true =>
          refine Or.inr ⟨List.isEmpty_iff.1 hitems, rfl, fun _ _ _ => ?_⟩
          simp [setPoller, hq, hd, hitems]

/-- `setPoller` returns with all registrations exactly when it replaces the server in use
or there are none. -/
theorem Tidy.setPoller_iff {w : Pollers K P C I} (h : Tidy w) {p : Option (Option K)}
    (hp : p = some none → w.mDefaultPoller = true) :
    (∃ fuel w', w.setPoller p true (fun _ => true) fuel = some w' ∧ Kept w w') ↔
      w.Replaces p := by
  rw [Replaces]
  cases hq : w.mPoller with
  | none =>
      rw [← h.kept_setMPoller_iff hq hp]
      simp only [setPoller, hq]
      constructor
      · rintro ⟨fuel, w', hw', hk⟩
        cases hw'
        exact hk
      · intro hk
        exact ⟨0, _, rfl, hk⟩
  | some q =>
      cases p with
      | some r =>
          simp only [setPoller, hq]
          exact h.exists_migrate_iff hq r fun _ => rfl
      | none =>
          rcases h.setPoller_none hq with ⟨w₁, hitems, -, heq⟩ | ⟨hnil, hd, heq⟩
          · simp only [heq]
            exact h.exists_migrate_iff hq none hitems
          · -- Nothing is registered, and the default server is not needed yet.
            have hheld : w.held = [] := by
              rw [h.held_eq, hq, Option.getD_some, hnil]
            have htidy : Tidy { w with mPoller := none } := h.setMPoller (p := none) nofun
            refine iff_of_true ⟨0, _, heq true (fun _ => true) 0, ?_⟩ (Or.inl hheld)
            rw [h.kept_iff, htidy.held_eq, hq, Servers.merged, Option.getD_none,
              Option.getD_some, h.empty hd, hnil]
            split <;> exact List.Perm.refl _

theorem Tidy.setPoller {w w' : Pollers K P C I} (h : Tidy w) {p : Option (Option K)}
    (hp : p = some none → w.mDefaultPoller = true) {reserve : Bool} {alloc : ℕ → Bool} {fuel : ℕ}
    (hw' : w.setPoller p reserve alloc fuel = some w') : Tidy w' := by
  cases hq : w.mPoller with
  | none =>
      simp only [Pollers.setPoller, hq] at hw'
      cases hw'
      exact h.setMPoller hp
  | some q =>
      cases p with
      | some r =>
          simp only [Pollers.setPoller, hq] at hw'
          obtain ⟨⟨t, e⟩, ht, rfl⟩ := Option.map_eq_some_iff.1 hw'
          have hr : w.mDefaultPoller = false → r ≠ none := by
            rintro hd rfl
            rw [hp rfl] at hd
            cases hd
          refine ⟨fun hd => ?_, fun hd heq => hr hd (Option.some.inj heq)⟩
          have hqne : none ≠ q := by
            rintro rfl
            exact h.unused hd hq
          dsimp only
          rw [Servers.migrateTo_of_ne hqne (hr hd).symm ht]
          exact h.empty hd
      | none =>
          rcases h.setPoller_none hq with ⟨w₁, -, hd, heq⟩ | ⟨-, -, heq⟩
          · rw [heq] at hw'
            obtain ⟨t, -, rfl⟩ := Option.map_eq_some_iff.1 hw'
            refine ⟨fun hd' => ?_, fun hd' => ?_⟩
            all_goals
              rw [hd] at hd'
              cases hd'
          · rw [heq] at hw'
            cases hw'
            exact h.setMPoller (p := none) nofun

theorem Tidy.step {initItem : κ → P → Except Errno I} {w w' : Pollers K P C I} (h : Tidy w)
    {op : Op K P C κ} (hw' : w.step initItem op = some w') : Tidy w' := by
  cases op with
  | poller =>
      cases hw'
      exact h.poller
  | server r op =>
      rw [Pollers.step] at hw'
      split at hw'
      · cases hw'
      · rename_i hr
        obtain ⟨s, -, rfl⟩ := Option.map_eq_some_iff.1 hw'
        exact h.updateServer fun hd hnone => absurd ⟨hnone, hd⟩ hr
  | setPoller p reserve alloc fuel =>
      rw [Pollers.step] at hw'
      split at hw'
      · cases hw'
      · rename_i hp
        refine h.setPoller (fun hnone => ?_) hw'
        by_contra hd
        exact hp ⟨hnone, (Bool.not_eq_true _).mp hd⟩

/-- In every state of a waiter, and for every server that may be set: if no allocation
fails, `setPoller` returns and no registration is lost exactly when nothing is registered
in the server in use, or that server was set and is replaced by another one, or it is the
default one and stays in use. -/
theorem setPoller_keeps_iff (initItem : κ → P → Except Errno I) (ops : List (Op K P C κ))
    (w : Pollers K P C I) (hr : Transition.run (step initItem) (init K P C I) ops = some w)
    (p : Option (Option K)) (hp : p = some none → w.mDefaultPoller = true) :
    (∃ fuel w', w.setPoller p true (fun _ => true) fuel = some w' ∧ Kept w w') ↔
      w.Replaces p := by
  have htidy : Tidy w :=
    Transition.run_invariant (fun _ _ _ hw hstep => hw.step hstep) tidy_init hr
  exact htidy.setPoller_iff hp

/-- A server that was set and holds a registration is replaced by another one. -/
theorem setPoller_keeps_replaced :
    ∃ fuel w', setPoller (some (some true)) true (fun _ => true) fuel
        (⟨Function.update (fun _ => .empty) (some false) ⟨[⟨5, some 7⟩], []⟩,
          some (some false), false⟩ : Pollers Bool ℕ ℕ ℕ) = some w' ∧
      Kept ⟨Function.update (fun _ => .empty) (some false) ⟨[⟨5, some 7⟩], []⟩,
        some (some false), false⟩ w' :=
  (setPoller_keeps_iff (fun (_ : Unit) (p : ℕ) => Except.ok p)
    [.setPoller (some (some false)) true (fun _ => true) 0,
      .server (some false) (.add 5 (some 7) true)]
    _ rfl (some (some true)) nofun).2 (Or.inr (by decide))

/-- Something is registered in the default server, and a server is set for the first time:
the registration stays where it is. Or the server in use is set once more, when something
is registered in it: `setPoller` does not return. -/
theorem not_kept_firstSet :
    (∃ w : Pollers Bool ℕ ℕ ℕ,
      Transition.run (step fun (_ : Unit) (p : ℕ) => Except.ok p) (init Bool ℕ ℕ ℕ)
        [.poller, .server none (.add 5 (some 7) true)] = some w ∧
      w.held = [⟨5, some 7⟩] ∧
      ∀ fuel, ∃ w', w.setPoller (some (some true)) true (fun _ => true) fuel = some w' ∧
        w'.held = [] ∧ ¬ Kept w w') ∧
    (∃ w : Pollers Bool ℕ ℕ ℕ,
      Transition.run (step fun (_ : Unit) (p : ℕ) => Except.ok p) (init Bool ℕ ℕ ℕ)
        [.setPoller (some (some true)) true (fun _ => true) 0,
          .server (some true) (.add 5 (some 7) true)] = some w ∧
      ∀ fuel, w.setPoller (some (some true)) true (fun _ => true) fuel = none) := by
  constructor
  · refine ⟨_, rfl, rfl, fun _ => ⟨_, rfl, rfl, ?_⟩⟩
    intro hkept
    exact absurd hkept.length_eq (by decide)
  · refine ⟨_, rfl, fun fuel => ?_⟩
    have hloop := Servers.migrateLoop_self (some true)
      (Function.update (fun _ => .empty) (some true) ⟨[⟨5, some 7⟩], []⟩ :
        Servers Bool ℕ ℕ ℕ) 0 fuel (by decide)
    exact congrArg (Option.map _) hloop

end Pollers

end Zth
