import Mathlib.Data.List.Nodup
import Mathlib.Logic.Relation
import Zth.Coro.Nested

/-!
# Chains of coroutines that await each other

From the coroutine that a loop is for, one gets to the coroutine that the loop executes by going
from every coroutine to the one that it awaits. Every coroutine is awaited by one other at most,
and executed by one loop at most. A coroutine starts to be executed by a new loop or by the loop
of the one that awaits it, and control gets back the same way.
-/

namespace Zth.Coro

/-- The coroutine is neither executed nor suspended for another one. -/
def Point.Free {C : Type*} (a : Point C) : Prop := a ≠ .executing ∧ ∀ d, a ≠ .awaiting d

variable {F C : Type*}

/-- The chains of all loops. -/
structure Shape (point : C → Point C) (drivers : F → List (Driver C)) : Prop where
  executing : ∀ f, ∀ r ∈ drivers f, point r.current = .executing
  nodup : ∀ f, ((drivers f).map Driver.current).Nodup
  disjoint : ∀ f g, ∀ r ∈ drivers f, ∀ s ∈ drivers g, r.current = s.current → f = g
  busy : ∀ c d, point c = .awaiting d → ¬ (point d).Free
  unique : ∀ c c' d, point c = .awaiting d → point c' = .awaiting d → c = c'
  path : ∀ f, ∀ r ∈ drivers f,
    Relation.ReflTransGen (fun c d => point c = .awaiting d) r.root r.current
  root : ∀ f, ∀ r ∈ drivers f, ∀ c, point c ≠ .awaiting r.root

section Awaiting

variable [DecidableEq C] {point : C → Point C}

/-- Who awaits whom, when a coroutine starts or stops to be executed. -/
theorem awaiting_update {c : C} (hc : ∀ d, point c ≠ .awaiting d) {a : Point C}
    (ha : ∀ d, a ≠ .awaiting d) (k d : C) :
    Function.update point c a k = .awaiting d ↔ point k = .awaiting d := by
  by_cases hk : k = c
  · subst hk
    rw [Function.update_self]
    exact ⟨fun h => absurd h (ha d), fun h => absurd h (hc d)⟩
  · rw [Function.update_of_ne hk]

/-- Who awaits whom, when a coroutine starts to await another one. -/
theorem awaiting_delegate {x d : C} (hxd : x ≠ d) (hx : ∀ e, point x ≠ .awaiting e)
    (hd : ∀ e, point d ≠ .awaiting e) (k e : C) :
    Function.update (Function.update point x (.awaiting d)) d .executing k = .awaiting e ↔
      point k = .awaiting e ∨ k = x ∧ e = d := by
  by_cases hkd : k = d
  · subst hkd
    rw [Function.update_self]
    refine ⟨fun h => (by cases h), ?_⟩
    rintro (h | ⟨heq, -⟩)
    · exact absurd h (hd e)
    · exact absurd heq.symm hxd
  · rw [Function.update_of_ne hkd]
    by_cases hkx : k = x
    · subst hkx
      rw [Function.update_self]
      constructor
      · intro h
        cases h
        exact Or.inr ⟨rfl, rfl⟩
      · rintro (h | ⟨-, rfl⟩)
        · exact absurd h (hx e)
        · rfl
    · rw [Function.update_of_ne hkx]
      exact ⟨Or.inl, fun h => h.resolve_right fun heq => hkx heq.1⟩

/-- Who awaits whom, when a coroutine is resumed by the one that it awaited. -/
theorem awaiting_back {x y : C} (hx : ∀ e, point x ≠ .awaiting e) {a : Point C}
    (ha : ∀ e, a ≠ .awaiting e) (k e : C) :
    Function.update (Function.update point x a) y .executing k = .awaiting e ↔
      point k = .awaiting e ∧ k ≠ y := by
  by_cases hky : k = y
  · subst hky
    rw [Function.update_self]
    exact ⟨fun h => (by cases h), fun h => absurd rfl h.2⟩
  · rw [Function.update_of_ne hky, awaiting_update hx ha]
    exact ⟨fun h => ⟨h, hky⟩, fun h => h.1⟩

end Awaiting

namespace Shape

variable {point : C → Point C} {drivers : F → List (Driver C)}

theorem init : Shape (fun _ : C => .initial) (fun _ : F => []) where
  executing := fun _ _ h => absurd h List.not_mem_nil
  nodup := fun _ => List.nodup_nil
  disjoint := fun _ _ _ h => absurd h List.not_mem_nil
  busy := fun _ _ h => by cases h
  unique := fun _ _ _ h => by cases h
  path := fun _ _ h => absurd h List.not_mem_nil
  root := fun _ _ h => absurd h List.not_mem_nil

/-- A coroutine that a loop is for, is executed or suspended for another one. -/
theorem root_busy (h : Shape point drivers) {f : F} {r : Driver C} (hr : r ∈ drivers f) :
    ¬ (point r.root).Free := by
  intro hfree
  obtain heq | ⟨d, hd, -⟩ := (h.path f r hr).cases_head
  · exact hfree.1 (heq ▸ h.executing f r hr)
  · exact hfree.2 d hd

/-- Nobody awaits a coroutine that is free. -/
theorem not_awaited (h : Shape point drivers) {d : C} (hd : (point d).Free) (c : C) :
    point c ≠ .awaiting d :=
  fun hc => h.busy c d hc hd

/-- A coroutine that nobody awaits is executed by its own loop. -/
theorem eq_root (h : Shape point drivers) {f : F} {r : Driver C} (hr : r ∈ drivers f)
    (hnone : ∀ c, point c ≠ .awaiting r.current) : r.current = r.root := by
  obtain heq | ⟨z, -, hz⟩ := (h.path f r hr).cases_tail
  · exact heq
  · exact absurd hz (hnone z)

/-- A path to somewhere else does not lead over a coroutine that is executed. -/
theorem path_avoids {x a b : C} (hx : point x = .executing) (hb : b ≠ x)
    (hab : Relation.ReflTransGen (fun c d => point c = .awaiting d) a b) :
    Relation.ReflTransGen (fun c d => point c = .awaiting d ∧ d ≠ x) a b := by
  induction hab using Relation.ReflTransGen.head_induction_on with
  | refl => exact .refl
  | head hac hcb ih =>
      rename_i a c
      refine .head ⟨hac, ?_⟩ ih
      rintro rfl
      obtain heq | ⟨d, hd, -⟩ := hcb.cases_head
      · exact hb heq.symm
      · cases hx.symm.trans hd

/-- A loop that stays, when those of a fiber are replaced up to the given rest. -/
def Kept (drivers : F → List (Driver C)) (f : F) (rs : List (Driver C)) (g : F)
    (r : Driver C) : Prop :=
  r ∈ drivers g ∧ (g = f → r ∈ rs)

/-- What a loop needs. -/
def Fits (point : C → Point C) (r : Driver C) : Prop :=
  point r.current = .executing ∧
    Relation.ReflTransGen (fun c d => point c = .awaiting d) r.root r.current ∧
    ∀ c, point c ≠ .awaiting r.root

/-- A loop other than the inner one of a fiber executes another coroutine. -/
theorem current_ne (h : Shape point drivers) {f g : F} {r s : Driver C} {rs : List (Driver C)}
    (hr : drivers f = r :: rs) (hs : Kept drivers f rs g s) : s.current ≠ r.current := by
  intro heq
  have hmem : r ∈ drivers f := hr ▸ List.mem_cons_self
  have hgf : g = f := h.disjoint g f s hs.1 r hmem heq
  have hnodup := h.nodup f
  rw [hr, List.map_cons, List.nodup_cons] at hnodup
  exact hnodup.1 (heq ▸ List.mem_map_of_mem (hs.2 hgf))

/-- A loop that stays, when the coroutine that another one executes gets free, and the one that
awaited it, if there is one, is executed. -/
theorem fits_kept (h : Shape point drivers) {f g : F} {r s : Driver C} {rs : List (Driver C)}
    (hr : drivers f = r :: rs) (hs : Kept drivers f rs g s) {point' : C → Point C}
    (hexec : ∀ c, c ≠ r.current → point c = .executing → point' c = .executing)
    (hedge : ∀ a b, point a = .awaiting b → b ≠ r.current → point' a = .awaiting b)
    (hold : ∀ a b, point' a = .awaiting b → point a = .awaiting b) : Fits point' s := by
  have hx : point r.current = .executing := h.executing f r (hr ▸ List.mem_cons_self)
  have hne := h.current_ne hr hs
  refine ⟨hexec s.current hne (h.executing g s hs.1), ?_, ?_⟩
  · exact Relation.ReflTransGen.mono (fun a b hab => hedge a b hab.1 hab.2) _ _
      (path_avoids hx hne (h.path g s hs.1))
  · exact fun a ha => h.root g s hs.1 a (hold a s.root ha)

variable [DecidableEq F]

/-- The loops of a fiber, after they were replaced. -/
theorem mem_update {f g : F} {ds : List (Driver C)} {r : Driver C}
    (h : r ∈ Function.update drivers f ds g) : g = f ∧ r ∈ ds ∨ g ≠ f ∧ r ∈ drivers g := by
  by_cases hg : g = f
  · subst hg
    rw [Function.update_self] at h
    exact Or.inl ⟨rfl, h⟩
  · rw [Function.update_of_ne hg] at h
    exact Or.inr ⟨hg, h⟩

/-- The inner loops of a fiber are replaced by one that executes another coroutine, or by
none. -/
theorem replace (h : Shape point drivers) (ds : List (Driver C)) (new : Option (Driver C))
    {f : F} {rs : List (Driver C)} (hrs : drivers f = ds ++ rs) {point' : C → Point C}
    (hnew : ∀ r ∈ new, Fits point' r) (hkeep : ∀ g r, Kept drivers f rs g r → Fits point' r)
    (hfresh : ∀ r ∈ new, ∀ g s, Kept drivers f rs g s → s.current ≠ r.current)
    (hbusy : ∀ c d, point' c = .awaiting d → ¬ (point' d).Free)
    (hunique : ∀ c c' d, point' c = .awaiting d → point' c' = .awaiting d → c = c') :
    Shape point' (Function.update drivers f (new.toList ++ rs)) := by
  have hcases : ∀ g, ∀ r ∈ Function.update drivers f (new.toList ++ rs) g,
      g = f ∧ r ∈ new ∨ Kept drivers f rs g r := by
    intro g r hr
    obtain ⟨rfl, hmem⟩ | ⟨hne, hmem⟩ := mem_update hr
    · obtain hmem | hmem := List.mem_append.1 hmem
      · exact Or.inl ⟨rfl, Option.mem_toList.1 hmem⟩
      · exact Or.inr ⟨hrs ▸ List.mem_append_right _ hmem, fun _ => hmem⟩
    · exact Or.inr ⟨hmem, fun heq => absurd heq hne⟩
  have hfits : ∀ g, ∀ r ∈ Function.update drivers f (new.toList ++ rs) g, Fits point' r := by
    intro g r hr
    obtain ⟨-, hmem⟩ | hkept := hcases g r hr
    · exact hnew r hmem
    · exact hkeep g r hkept
  exact {
    executing := fun g r hr => (hfits g r hr).1
    nodup := by
      intro g
      by_cases hg : g = f
      · subst hg
        rw [Function.update_self, List.map_append]
        have hold := h.nodup g
        rw [hrs, List.map_append] at hold
        refine List.Nodup.append ?_ hold.of_append_right ?_
        · cases new with
          | none => exact List.nodup_nil
          | some r => exact List.nodup_singleton _
        · intro c hc hc'
          obtain ⟨r, hr, rfl⟩ := List.mem_map.1 hc
          obtain ⟨s, hs, heq⟩ := List.mem_map.1 hc'
          exact hfresh r (Option.mem_toList.1 hr) g s
            ⟨hrs ▸ List.mem_append_right _ hs, fun _ => hs⟩ heq
      · rw [Function.update_of_ne hg]
        exact h.nodup g
    disjoint := by
      intro g g' r hr s hs heq
      obtain ⟨rfl, hmem⟩ | hkept := hcases g r hr
      · obtain ⟨rfl, -⟩ | hkept' := hcases g' s hs
        · rfl
        · exact absurd heq.symm (hfresh r hmem g' s hkept')
      · obtain ⟨rfl, hmem'⟩ | hkept' := hcases g' s hs
        · exact absurd heq (hfresh s hmem' g r hkept)
        · exact h.disjoint g g' r hkept.1 s hkept'.1 heq
    busy := hbusy
    unique := hunique
    path := fun g r hr => (hfits g r hr).2.1
    root := fun g r hr => (hfits g r hr).2.2 }

variable [DecidableEq C]

/-- A new loop starts to execute a free coroutine. -/
theorem start (h : Shape point drivers) {c : C} (hc : (point c).Free) (f : F)
    (generates : Bool) :
    Shape (Function.update point c .executing)
      (Function.update drivers f (⟨generates, c, c⟩ :: drivers f)) := by
  have hedge : ∀ a b, Function.update point c .executing a = .awaiting b ↔
      point a = .awaiting b := awaiting_update hc.2 (by simp)
  have hne : ∀ g, ∀ s ∈ drivers g, s.current ≠ c := by
    intro g s hs heq
    exact hc.1 (heq ▸ h.executing g s hs)
  refine h.replace [] (some ⟨generates, c, c⟩) rfl ?_ ?_ ?_ ?_ ?_
  · rintro r hr
    cases hr
    refine ⟨Function.update_self .., .refl, fun a ha => ?_⟩
    exact h.not_awaited hc a ((hedge a c).1 ha)
  · rintro g r ⟨hr, -⟩
    refine ⟨(Function.update_of_ne (hne g r hr) ..).trans (h.executing g r hr), ?_, ?_⟩
    · exact Relation.ReflTransGen.mono (fun a b hab => (hedge a b).2 hab) _ _ (h.path g r hr)
    · exact fun a ha => h.root g r hr a ((hedge a r.root).1 ha)
  · rintro r hr g s ⟨hs, -⟩
    cases hr
    exact hne g s hs
  · intro a b hab hfree
    have hb : b ≠ c := by
      rintro rfl
      exact hfree.1 (Function.update_self ..)
    rw [Function.update_of_ne hb] at hfree
    exact h.busy a b ((hedge a b).1 hab) hfree
  · intro a a' b hab hab'
    exact h.unique a a' b ((hedge a b).1 hab) ((hedge a' b).1 hab')

/-- The coroutine that a loop executes awaits a free one, which the loop executes then. -/
theorem delegate (h : Shape point drivers) {f : F} {r : Driver C} {rs : List (Driver C)}
    (hr : drivers f = r :: rs) {d : C} (hd : (point d).Free) :
    Shape (Function.update (Function.update point r.current (.awaiting d)) d .executing)
      (Function.update drivers f ({ r with current := d } :: rs)) := by
  set point' := Function.update (Function.update point r.current (.awaiting d)) d .executing
    with hpoint'
  have hmem : r ∈ drivers f := hr ▸ List.mem_cons_self
  have hx := h.executing f r hmem
  have hxd : r.current ≠ d := by
    rintro rfl
    exact hd.1 hx
  have hd' : point' d = .executing := Function.update_self ..
  have hx' : point' r.current = .awaiting d :=
    (Function.update_of_ne hxd ..).trans (Function.update_self ..)
  have hother : ∀ c, c ≠ d → c ≠ r.current → point' c = point c := fun c hcd hcx =>
    (Function.update_of_ne hcd ..).trans (Function.update_of_ne hcx ..)
  have hedge : ∀ a b, point' a = .awaiting b ↔
      point a = .awaiting b ∨ a = r.current ∧ b = d :=
    awaiting_delegate hxd (by simp [hx]) hd.2
  have hpath : ∀ {a b}, Relation.ReflTransGen (fun c d => point c = .awaiting d) a b →
      Relation.ReflTransGen (fun c d => point' c = .awaiting d) a b :=
    Relation.ReflTransGen.mono (fun a b hab => (hedge a b).2 (Or.inl hab)) _ _
  have hroot : ∀ g, ∀ s ∈ drivers g, ∀ a, point' a ≠ .awaiting s.root := by
    intro g s hs a ha
    obtain ha | ⟨-, heq⟩ := (hedge a s.root).1 ha
    · exact h.root g s hs a ha
    · exact h.root_busy hs (heq ▸ hd)
  have hcurrent : ∀ g s, Kept drivers f rs g s → s.current ≠ d := by
    rintro g s ⟨hs, -⟩ heq
    exact hd.1 (heq ▸ h.executing g s hs)
  refine h.replace [r] (some { r with current := d }) hr ?_ ?_ ?_ ?_ ?_
  · intro s hs
    cases hs
    refine ⟨hd', (hpath (h.path f r hmem)).tail hx', hroot f r hmem⟩
  · intro g s hs
    refine ⟨?_, hpath (h.path g s hs.1), hroot g s hs.1⟩
    rw [hother s.current (hcurrent g s hs) (h.current_ne hr hs)]
    exact h.executing g s hs.1
  · intro s hs g t ht
    cases hs
    exact hcurrent g t ht
  · intro a b hab hfree
    obtain hold | ⟨-, hbd⟩ := (hedge a b).1 hab
    · by_cases hbx : b = r.current
      · exact hfree.2 d (hbx ▸ hx')
      · have hbd : b ≠ d := fun heq => h.busy a b hold (heq ▸ hd)
        rw [hother b hbd hbx] at hfree
        exact h.busy a b hold hfree
    · exact hfree.1 (hbd ▸ hd')
  · intro a a' b hab hab'
    obtain hold | ⟨ha, hb⟩ := (hedge a b).1 hab
    · obtain hold' | ⟨-, hb⟩ := (hedge a' b).1 hab'
      · exact h.unique a a' b hold hold'
      · exact absurd (hb ▸ hd) (h.busy a b hold)
    · obtain hold' | ⟨ha', -⟩ := (hedge a' b).1 hab'
      · exact absurd (hb ▸ hd) (h.busy a' b hold')
      · exact ha.trans ha'.symm

/-- The coroutine that a loop executes gets free, and the loop goes on with the one that awaited
it. -/
theorem back (h : Shape point drivers) {f : F} {r : Driver C} {rs : List (Driver C)}
    (hr : drivers f = r :: rs) {y : C} (hy : point y = .awaiting r.current) {a : Point C}
    (ha : a.Free) :
    Shape (Function.update (Function.update point r.current a) y .executing)
      (Function.update drivers f ({ r with current := y } :: rs)) := by
  set point' := Function.update (Function.update point r.current a) y .executing with hpoint'
  have hmem : r ∈ drivers f := hr ▸ List.mem_cons_self
  have hx := h.executing f r hmem
  have hxy : r.current ≠ y := by
    intro heq
    rw [← heq, hx] at hy
    cases hy
  have hy' : point' y = .executing := Function.update_self ..
  have hx' : point' r.current = a :=
    (Function.update_of_ne hxy ..).trans (Function.update_self ..)
  have hother : ∀ c, c ≠ y → c ≠ r.current → point' c = point c := fun c hcy hcx =>
    (Function.update_of_ne hcy ..).trans (Function.update_of_ne hcx ..)
  have hexec : ∀ c, c ≠ r.current → point c = .executing → point' c = .executing := by
    intro c hcx hc
    by_cases hcy : c = y
    · rw [hcy]
      exact hy'
    · rw [hother c hcy hcx]
      exact hc
  have hback : ∀ c d, point' c = .awaiting d ↔ point c = .awaiting d ∧ c ≠ y :=
    awaiting_back (by simp [hx]) ha.2
  have hedge : ∀ c d, point c = .awaiting d → d ≠ r.current → point' c = .awaiting d := by
    intro c d hcd hdx
    refine (hback c d).2 ⟨hcd, ?_⟩
    rintro rfl
    cases hy.symm.trans hcd
    exact hdx rfl
  refine h.replace [r] (some { r with current := y }) hr ?_ ?_ ?_ ?_ ?_
  · intro s hs
    cases hs
    refine ⟨hy', ?_, fun c hc => h.root f r hmem c ((hback c r.root).1 hc).1⟩
    -- The last step to the coroutine is from the one that awaited it.
    obtain heq | ⟨z, hz, hzx⟩ := (h.path f r hmem).cases_tail
    · rw [heq] at hy
      exact absurd hy (h.root f r hmem y)
    · obtain rfl := h.unique z y r.current hzx hy
      exact Relation.ReflTransGen.mono (fun c d hcd => hedge c d hcd.1 hcd.2) _ _
        (path_avoids hx hxy.symm hz)
  · intro g s hs
    exact h.fits_kept hr hs hexec hedge fun c d hcd => ((hback c d).1 hcd).1
  · intro s hs g t ht heq
    cases hs
    have hcurrent := h.executing g t ht.1
    rw [heq] at hcurrent
    cases hcurrent.symm.trans hy
  · intro c d hcd hfree
    obtain ⟨hcd, hcy⟩ := (hback c d).1 hcd
    have hdx : d ≠ r.current := by
      rintro rfl
      exact hcy (h.unique c y r.current hcd hy)
    by_cases hdy : d = y
    · rw [hdy] at hfree
      exact hfree.1 hy'
    · rw [hother d hdy hdx] at hfree
      exact h.busy c d hcd hfree
  · intro c c' d hcd hcd'
    exact h.unique c c' d ((hback c d).1 hcd).1 ((hback c' d).1 hcd').1

/-- The coroutine that a loop executes gets free, and nobody awaits it. The loop returns. -/
theorem leave (h : Shape point drivers) {f : F} {r : Driver C} {rs : List (Driver C)}
    (hr : drivers f = r :: rs) (hnone : ∀ c, point c ≠ .awaiting r.current) {a : Point C}
    (ha : a.Free) : Shape (Function.update point r.current a) (Function.update drivers f rs) := by
  have hx : point r.current = .executing := h.executing f r (hr ▸ List.mem_cons_self)
  have hexec : ∀ c, c ≠ r.current → point c = .executing →
      Function.update point r.current a c = .executing := by
    intro c hcx hc
    rw [Function.update_of_ne hcx]
    exact hc
  have hedge : ∀ c d, Function.update point r.current a c = .awaiting d ↔
      point c = .awaiting d := awaiting_update (by simp [hx]) ha.2
  refine h.replace [r] none hr ?_ ?_ ?_ ?_ ?_
  · intro s hs
    cases hs
  · intro g s hs
    exact h.fits_kept hr hs hexec (fun c d hcd _ => (hedge c d).2 hcd)
      fun c d hcd => (hedge c d).1 hcd
  · intro s hs
    cases hs
  · intro c d hcd hfree
    have hcd := (hedge c d).1 hcd
    have hdx : d ≠ r.current := by
      rintro rfl
      exact hnone c hcd
    rw [Function.update_of_ne hdx] at hfree
    exact h.busy c d hcd hfree
  · intro c c' d hcd hcd'
    exact h.unique c c' d ((hedge c d).1 hcd) ((hedge c' d).1 hcd')

end Shape

end Zth.Coro
