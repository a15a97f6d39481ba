import Mathlib.Data.List.Induction
import Zth.Library.SwapRemove
import Zth.Poller.Migrate

/-!
# Registrations that stay where they are

`remove` takes one registration away, the one that was added last if there are more of the
same pair. So when `migrateTo` cannot add a registration to the other server, taking the
ones before it out again, from the last one to the first, leaves both servers as they were.
And what belongs to a client is not touched by a migration of registrations without one.
-/

namespace Zth

variable {K P C I : Type*} [DecidableEq K] [DecidableEq P] [DecidableEq C]

namespace PollerServer

/-- The search of `remove` is one from the back. -/
theorem find_eq_findDown (p : P) (client : Option C) (items : List (MetaItem P C)) (n : ℕ) :
    find p client items n = items.findDown ⟨p, client⟩ n := by
  induction n with
  | zero => rfl
  | succ n ih => rw [find, List.findDown, ih]

omit [DecidableEq P] [DecidableEq C] in
theorem metaItems_removeLast_concat {s : PollerServer P C I} {l : List (MetaItem P C)}
    {m : MetaItem P C} (h : s.metaItems = l ++ [m]) : (s.removeLast 1).metaItems = l := by
  have hlen : s.metaItems.length = l.length + 1 := by
    rw [h, List.length_append, List.length_singleton]
  rw [removeLast]
  split
  · rename_i hle
    exact (List.eq_nil_of_length_eq_zero (by omega)).symm
  · dsimp only
    rw [hlen, Nat.add_sub_cancel, h, List.take_left]

/-- `remove` takes the last registration of the pair out of the array. -/
theorem metaItems_remove (p : P) (client : Option C) (s : PollerServer P C I) :
    (s.remove p client).1.metaItems = s.metaItems.swapErase ⟨p, client⟩ := by
  rw [remove, List.swapErase]
  simp only [find_eq_findDown]
  cases hf : s.metaItems.findDown ⟨p, client⟩ s.metaItems.length with
  | none => rfl
  | some i =>
      have hget := List.findDown_eq_some hf
      dsimp only
      split
      · rfl
      · -- The last registration is the one.
        obtain ⟨l, z, hl⟩ := List.eq_nil_or_concat' s.metaItems |>.resolve_left fun hnil => by
          simp [hnil] at hget
        have hlen : s.metaItems.length = l.length + 1 := by
          rw [hl, List.length_append, List.length_singleton]
        have hlt := (List.getElem?_eq_some_iff.1 hget).1
        obtain rfl : i = l.length := by omega
        rw [metaItems_removeLast_concat hl, hl, List.swapRemove_concat]
        simp

/-- `remove` drops the pair once, if it is there. -/
theorem metaItems_remove_perm (p : P) (client : Option C) (s : PollerServer P C I) :
    (s.remove p client).1.metaItems.Perm (s.metaItems.erase ⟨p, client⟩) := by
  rw [metaItems_remove]
  exact List.perm_swapErase _ _

/-- The registration that was added last is found first. -/
theorem metaItems_remove_concat {s : PollerServer P C I} {l : List (MetaItem P C)}
    {m : MetaItem P C} (h : s.metaItems = l ++ [m]) :
    (s.remove m.pollable m.client).1.metaItems = l := by
  rw [metaItems_remove, h]
  exact List.foldl_swapErase_append l (List.Perm.refl [m])

end PollerServer

namespace Servers

/-- What was added to a server is taken out again. -/
theorem metaItems_rollback {src dst : Option K} (D A : List (MetaItem P C))
    (t : Servers K P C I) (hdst : (t dst).metaItems = D ++ A)
    (hsrc : ∀ k < A.length, (t src).metaItems[k]? = A[k]?) :
    (rollback src dst A.length t dst).metaItems = D := by
  induction A using List.reverseRecOn generalizing t with
  | nil => rw [List.length_nil, rollback, hdst, List.append_nil]
  | append_singleton A m ih =>
      have hlast : (t src).metaItems[A.length]? = some m := by
        rw [hsrc A.length (by simp), List.getElem?_concat_length]
      rw [List.length_append, List.length_singleton, rollback, hlast]
      dsimp only
      have hremove := PollerServer.metaItems_remove_concat
        (hdst.trans (List.append_assoc D A [m]).symm)
      apply ih
      · rw [Function.update_self, hremove]
      · intro k hk
        have hkm := hsrc k (by rw [List.length_append]; omega)
        rw [List.getElem?_append_left hk] at hkm
        by_cases hne : src = dst
        · subst hne
          have hlt : k < (D ++ A).length := by
            rw [List.length_append]
            omega
          rw [Function.update_self, hremove, ← hkm, hdst, ← List.append_assoc,
            List.getElem?_append_left hlt]
        · rw [Function.update_of_ne hne, hkm]

/-- The registrations `A` were added, one for each of the first items. -/
structure Added (src dst : Option K) (t₀ : Servers K P C I) (A : List (MetaItem P C))
    (t : Servers K P C I) : Prop where
  dst_eq : (t dst).metaItems = (t₀ dst).metaItems ++ A
  src_eq : ∀ k < A.length, (t src).metaItems[k]? = A[k]?
  of_ne : ∀ r ≠ dst, t r = t₀ r

omit [DecidableEq P] [DecidableEq C] in
theorem Added.push {src dst : Option K} {t₀ t : Servers K P C I} {A : List (MetaItem P C)}
    (h : Added src dst t₀ A t) {m : MetaItem P C}
    (hm : (t src).metaItems[A.length]? = some m) :
    Added src dst t₀ (A ++ [m]) (t.push dst m) := by
  refine ⟨?_, fun k hk => ?_, fun r hr => ?_⟩
  · rw [metaItems_push, h.dst_eq, List.append_assoc]
  · -- The item at `k` was there before `m` was added.
    have hkm : (t src).metaItems[k]? = (A ++ [m])[k]? := by
      rw [List.length_append, List.length_singleton] at hk
      rcases Nat.lt_succ_iff_lt_or_eq.1 hk with hlt | rfl
      · rw [h.src_eq k hlt, List.getElem?_append_left hlt]
      · rw [hm, List.getElem?_concat_length]
    obtain ⟨hlt, -⟩ := List.getElem?_eq_some_iff.1 (hkm.trans (List.getElem?_eq_getElem hk))
    obtain ⟨suf, hsuf⟩ := isPrefix_push dst src m t
    rw [← hsuf, List.getElem?_append_left hlt, hkm]
  · rw [push_of_ne hr, h.of_ne r hr]

/-- A migration that fails leaves all registrations where they are. -/
theorem migrateTo_error {src dst : Option K} {reserve : Bool} {alloc : ℕ → Bool} {fuel : ℕ}
    {t t' : Servers K P C I} {e : Option Errno}
    (h : migrateTo src dst reserve alloc fuel t = some (t', e)) (he : e ≠ none) (r : Option K) :
    (t' r).metaItems = (t r).metaItems := by
  apply migrateTo_invariant (fun i t₁ => ∃ A, A.length = i ∧ Added src dst t A t₁)
    (fun t₁ e => e ≠ none → (t₁ r).metaItems = (t r).metaItems) _ (fun _ => rfl) _ _ _ h he
  · exact ⟨[], rfl, (List.append_nil _).symm, fun k hk => absurd hk (Nat.not_lt_zero k),
      fun _ _ => rfl⟩
  · rintro i t₁ m ⟨A, rfl, hA⟩ hm -
    exact ⟨A ++ [m], List.length_append, hA.push hm⟩
  · intro i t₁ _ _ hne
    exact absurd rfl hne
  · rintro i t₁ ⟨A, rfl, hA⟩ -
    by_cases hr : r = dst
    · subst hr
      exact metaItems_rollback _ A t₁ hA.dst_eq hA.src_eq
    · rw [rollback_of_ne hr, hA.of_ne r hr]

/-- A migration that succeeds could add all registrations. -/
theorem migrateTo_alloc {src dst : Option K} {reserve : Bool} {alloc : ℕ → Bool} {fuel : ℕ}
    {t t' : Servers K P C I} (h : migrateTo src dst reserve alloc fuel t = some (t', none)) :
    reserve = true ∧ ∀ k < (t src).metaItems.length, alloc k = true := by
  constructor
  · cases reserve with
    | false => cases h
    | true => rfl
  · apply migrateTo_invariant
      (fun i t₁ => (∀ k < i, alloc k = true) ∧ (t src).metaItems <+: (t₁ src).metaItems)
      (fun _ e => e = none → ∀ k < (t src).metaItems.length, alloc k = true) _ nofun _ _ _ h rfl
    · exact ⟨fun k hk => absurd hk (Nat.not_lt_zero k), List.prefix_rfl⟩
    · rintro i t₁ m ⟨hbefore, hprefix⟩ _ halloc
      refine ⟨fun k hk => ?_, hprefix.trans (isPrefix_push dst src m t₁)⟩
      rcases Nat.lt_succ_iff_lt_or_eq.1 hk with hlt | rfl
      · exact hbefore k hlt
      · exact halloc
    · rintro i t₁ ⟨hbefore, hprefix⟩ hnone _ k hk
      have hle := List.getElem?_eq_none_iff.1 hnone
      exact hbefore k (Nat.lt_of_lt_of_le hk (Nat.le_trans hprefix.length_le hle))
    · rintro i t₁ _ hne
      cases hne

/-- No registration in a server belongs to a client. -/
def Unclaimed (s : PollerServer P C I) : Prop := ∀ m ∈ s.metaItems, m.client = none

theorem count_rollback {src dst : Option K} {m : MetaItem P C} (hm : m.client ≠ none)
    (r : Option K) (j : ℕ) (t : Servers K P C I) (hsrc : Unclaimed (t src)) :
    (rollback src dst j t r).metaItems.count m = (t r).metaItems.count m := by
  induction j generalizing t with
  | zero => rfl
  | succ j ih =>
      rw [rollback]
      cases hj : (t src).metaItems[j]? with
      | none => exact ih t hsrc
      | some a =>
          have ha : a ≠ m := by
            rintro rfl
            exact hm (hsrc a (List.mem_of_getElem? hj))
          have hperm := (t dst).metaItems_remove_perm a.pollable a.client
          dsimp only
          rw [ih]
          · by_cases hr : r = dst
            · subst hr
              rw [Function.update_self, hperm.count_eq, List.count_erase_of_ne ha.symm]
            · rw [Function.update_of_ne hr]
          · intro b hb
            by_cases hne : src = dst
            · subst hne
              rw [Function.update_self] at hb
              exact hsrc b (List.mem_of_mem_erase (hperm.mem_iff.1 hb))
            · rw [Function.update_of_ne hne] at hb
              exact hsrc b hb

/-- A migration of registrations without a client leaves those of clients where they are. -/
theorem count_migrateTo {src dst : Option K} {reserve : Bool} {alloc : ℕ → Bool} {fuel : ℕ}
    {t t' : Servers K P C I} {e : Option Errno}
    (h : migrateTo src dst reserve alloc fuel t = some (t', e)) (hsrc : Unclaimed (t src))
    {m : MetaItem P C} (hm : m.client ≠ none) (r : Option K) :
    (t' r).metaItems.count m = (t r).metaItems.count m := by
  have hzero : ∀ t₁ : Servers K P C I, Unclaimed (t₁ src) → (t₁ src).metaItems.count m = 0 :=
    fun t₁ hun => List.count_eq_zero.2 fun hmem => hm (hun m hmem)
  apply migrateTo_invariant (fun _ t₁ => Unclaimed (t₁ src) ∧
      (t₁ r).metaItems.count m = (t r).metaItems.count m)
    (fun t₁ _ => (t₁ r).metaItems.count m = (t r).metaItems.count m) ⟨hsrc, rfl⟩ rfl _ _ _ h
  · rintro i t₁ a ⟨hun, hcount⟩ ha -
    have hnone : a.client = none := hun a (List.mem_of_getElem? ha)
    have hone : [a].count m = 0 := by
      apply List.count_eq_zero.2
      intro hmem
      exact hm (List.mem_singleton.1 hmem ▸ hnone)
    constructor
    · intro b hb
      by_cases hs : src = dst
      · subst hs
        rw [metaItems_push, List.mem_append, List.mem_singleton] at hb
        rcases hb with hb | rfl
        · exact hun b hb
        · exact hnone
      · rw [push_of_ne hs] at hb
        exact hun b hb
    · by_cases hr : r = dst
      · subst hr
        rw [metaItems_push, List.count_append, hone, Nat.add_zero, hcount]
      · rw [push_of_ne hr, hcount]
  · rintro i t₁ ⟨hun, hcount⟩ -
    rw [← hcount]
    by_cases hr : r = src
    · subst hr
      rw [Function.update_self, hzero t₁ hun]
      rfl
    · rw [Function.update_of_ne hr]
  · rintro i t₁ ⟨hun, hcount⟩
    rw [count_rollback hm r i t₁ hun, hcount]

end Servers

namespace Pollers

/-- The registrations of clients are not moved: no server was set, or nothing in it belongs
to a client, or there is not enough memory to move what it holds. -/
def MovesNoClient (w : Pollers K P C I) (reserve : Bool) (alloc : ℕ → Bool) : Prop :=
  ∀ q, w.mPoller = some q → Servers.Unclaimed (w.servers q) ∨ reserve = false ∨
    ∃ k < (w.servers q).metaItems.length, alloc k = false

/-- Nothing of a client is moved, whether or not the migration succeeds. -/
theorem MovesNoClient.count_migrateTo {w : Pollers K P C I} {reserve : Bool} {alloc : ℕ → Bool}
    (h : w.MovesNoClient reserve alloc) {q dst : Option K} (hq : w.mPoller = some q)
    {t : Servers K P C I} (hitems : ∀ r, (t r).metaItems = (w.servers r).metaItems) {fuel : ℕ}
    {t' : Servers K P C I × Option Errno}
    (ht : t.migrateTo q dst reserve alloc fuel = some t') {m : MetaItem P C}
    (hm : m.client ≠ none) (r : Option K) :
    (t'.1 r).metaItems.count m = (w.servers r).metaItems.count m := by
  obtain ⟨t', e⟩ := t'
  rw [← hitems r]
  cases e with
  | some e => rw [Servers.migrateTo_error ht (Option.some_ne_none e) r]
  | none =>
      obtain ⟨hreserve, halloc⟩ := Servers.migrateTo_alloc ht
      rw [hitems q] at halloc
      rcases h q hq with hun | hfalse | ⟨k, hk, hfalse⟩
      · refine Servers.count_migrateTo ht (fun a ha => ?_) hm r
        rw [hitems q] at ha
        exact hun a ha
      · rw [hreserve] at hfalse
        cases hfalse
      · rw [halloc k hk] at hfalse
        cases hfalse

/-- Another server is in use, and the registrations of clients are where they were. -/
theorem Tidy.count_setPoller {w w' : Pollers K P C I} (h : Tidy w) {p : Option (Option K)}
    {reserve : Bool} {alloc : ℕ → Bool} {fuel : ℕ}
    (hw' : w.setPoller p reserve alloc fuel = some w') (hsafe : w.MovesNoClient reserve alloc)
    {m : MetaItem P C} (hm : m.client ≠ none) (r : Option K) :
    (w'.servers r).metaItems.count m = (w.servers r).metaItems.count m := by
  cases hq : w.mPoller with
  | none =>
      simp only [Pollers.setPoller, hq] at hw'
      cases hw'
      rfl
  | some q =>
      cases p with
      | some dst =>
          simp only [Pollers.setPoller, hq] at hw'
          obtain ⟨t, ht, rfl⟩ := Option.map_eq_some_iff.1 hw'
          exact hsafe.count_migrateTo hq (fun _ => rfl) ht hm r
      | none =>
          rcases h.setPoller_none hq with ⟨w₁, hitems, -, heq⟩ | ⟨-, -, heq⟩
          · rw [heq] at hw'
            obtain ⟨t, ht, rfl⟩ := Option.map_eq_some_iff.1 hw'
            exact hsafe.count_migrateTo hq hitems ht hm r
          · rw [heq] at hw'
            cases hw'
            rfl

end Pollers

end Zth
