import Zth.Context.Stack
import Zth.Worker.Fiber

/-!
# Creating the context of a fiber

Any size can be set as the size of the stack of a new fiber. The stack is allocated when the
fiber is initialized, together with its context. The sums of `calcStackSize` and `initStack`
are not checked, so a size near the largest one wraps around to a few pages.
-/

namespace Zth

namespace Context

open Rounding

/-- The reasons for which a context is not created. -/
inductive Error where
  | eperm
  | noContext
  | stack (f : Failure)
  | mprotect
deriving DecidableEq, Repr

/-- What `new` and the system do: whether there is memory for the object of the context, the
address that an allocation returns, and whether a page can be protected. -/
structure Env (w : ℕ) where
  newContext : Bool
  alloc : BitVec w → BitVec w
  mprotect : Stack w → Bool

/-- A fiber with its context, which has a stack and a usable part of it. -/
structure Stacked (w : ℕ) where
  fiber : Fiber
  stackSize : BitVec w
  context : Option (Stack w × Stack w)

variable {w : ℕ} (c : Config w) (env : Env w)

/-- `ContextBase::create` -/
def create (stackSize : BitVec w) : Except Error (Stack w × Stack w) :=
  if stackSize = 0 then .ok (⟨0, 0⟩, ⟨0, 0⟩)
  else
    match initStack c env.alloc stackSize with
    | .error f => .error (.stack f)
    | .ok (stack, usable) =>
        if (stackGuardInit c usable).all env.mprotect then .ok (stack, usable)
        else .error .mprotect

def contextCreate (stackSize : BitVec w) : Except Error (Stack w × Stack w) :=
  if env.newContext then create c env stackSize else .error .noContext

/-- `Fiber::setStackSize` -/
def Stacked.setStackSize (size : BitVec w) (f : Stacked w) : Except Error (Stacked w) :=
  if f.fiber.state = .new then .ok { f with stackSize := size } else .error .eperm

/-- `Fiber::init`. The fiber is killed if it does not get a context. -/
def Stacked.init (f : Stacked w) : Stacked w × Except Error Unit :=
  if f.fiber.state = .new then
    match contextCreate c env f.stackSize with
    | .error e => ({ f with fiber := f.fiber.kill }, .error e)
    | .ok both => ({ f with fiber := f.fiber.init, context := some both }, .ok ())
  else (f, .error .eperm)

/-- What an allocation promises: no block wraps around, and `mmap` does not return an empty one. -/
def Env.WellBehaved : Prop :=
  ∀ size, env.alloc size = 0 ∨
    (env.alloc size).toNat + size.toNat < 2 ^ w ∧ (c.haveMman = true → size ≠ 0)

/-- A fiber that is initialized with the size has a stack in which there is as much room, if
there is no error. -/
def LargeEnough (size : BitVec w) : Prop :=
  ∀ env : Env w, env.WellBehaved c → ∀ f f' : Stacked w, f.setStackSize size = .ok f' →
    (f'.init c env).2 = .ok () →
      ∃ stack usable, (f'.init c env).1.context = some (stack, usable) ∧
        size.toNat ≤ usable.size.toNat ∧ usable.Within stack

/-- A stack is never smaller than requested, and neither is what is allocated for it. -/
structure NeverSmaller (size : BitVec w) : Prop where
  usable : LargeEnough c size
  allocated : size ≤ allocSize c size

/-- The size to allocate, if no sum wraps. -/
def asked (size : BitVec w) : ℕ :=
  (needed c size + (c.page.toNat - 1)) / c.page.toNat * c.page.toNat + c.page.toNat

/-- The sizes that wrap, but are refused all the same: `mmap` does not allocate 0 bytes, the
assertions of `stackAlign` fail on as many pages as are not for the stack, and the one of
`initStack` fails on pages that are too large for it. -/
def Refused (size : BitVec w) : Prop :=
  c.haveMman = true ∧ asked c size = 2 ^ w ∨
  c.enableAssert = true ∧ 2 ^ w < asked c size ∧
    asked c size ≤ 2 ^ w + (if c.guarded then 2 else 1) * c.page.toNat ∨
  c.enableAssert = true ∧ 2 ^ 32 ≤ c.page.toNat

instance (size : BitVec w) : Decidable (Refused c size) := inferInstanceAs (Decidable (_ ∨ _))

variable {c env} {k : ℕ}

theorem noWrap_iff {size : BitVec w} : NoWrap c size ↔ asked c size < 2 ^ w := Iff.rfl

theorem toNat_mul_two_mod (c : Config w) : (c.page * 2).toNat = 2 * c.page.toNat % 2 ^ w := by
  rw [BitVec.toNat_mul, Nat.mul_comm]
  have htwo : (2 : BitVec w).toNat = 2 % 2 ^ w := BitVec.toNat_ofNat 2 w
  rw [htwo, Nat.mod_mul_mod]

/-- What is computed of the size, with the sums that wrap. -/
theorem toNat_calcStackSize_mod (c : Config w) (size : BitVec w) :
    (calcStackSize c size).toNat = needed c size % 2 ^ w := by
  unfold calcStackSize needed guardSize
  cases c.guarded with
  | false => simp
  | true =>
      simp only [if_true]
      rw [BitVec.toNat_add, BitVec.toNat_add, toNat_mul_two_mod, Nat.mod_add_mod, Nat.add_mod_mod]

theorem page_dvd (hpage : c.page.toNat = 2 ^ k) : c.page.toNat ∣ 2 ^ w := by
  have hlt := c.page.isLt
  rw [hpage] at hlt ⊢
  exact Nat.pow_dvd_pow 2 (Nat.pow_lt_pow_iff_right (by decide) |>.1 hlt).le

/-- Rounding to a multiple commutes with taking a remainder that is one. -/
theorem mod_div_mul {n m d : ℕ} (hd : d ∣ m) : n % m / d * d = n / d * d % m := by
  obtain ⟨q, rfl⟩ := hd
  rw [Nat.mod_mul_right_div_self, Nat.mul_comm, Nat.mul_comm (n / d), Nat.mul_mod_mul_left]

theorem toNat_allocSize (hpage : c.page.toNat = 2 ^ k) (size : BitVec w) :
    (allocSize c size).toNat = asked c size % 2 ^ w := by
  have hsum : (calcStackSize c size + c.page - 1).toNat =
      (needed c size + (c.page.toNat - 1)) % 2 ^ w := by
    have hassoc : calcStackSize c size + c.page - 1 = calcStackSize c size + (c.page - 1) := by
      rw [BitVec.sub_eq_add_neg, BitVec.sub_eq_add_neg, BitVec.add_assoc]
    rw [hassoc, BitVec.toNat_add, toNat_calcStackSize_mod, toNat_sub_one hpage, Nat.mod_add_mod,
      hpage]
  rw [allocSize, BitVec.toNat_add, up, toNat_down hpage, hsum,
    ← Nat.div_mul_self_eq_mod_sub_self, mod_div_mul (page_dvd hpage), Nat.mod_add_mod, asked]

theorem dvd_asked (c : Config w) (size : BitVec w) : c.page.toNat ∣ asked c size :=
  Nat.dvd_add (Nat.dvd_mul_left _ _) (Nat.dvd_refl _)

theorem needed_add_page_le (hpage : c.page.toNat = 2 ^ k) (size : BitVec w) :
    needed c size + c.page.toNat ≤ asked c size := by
  have hpos := page_pos hpage
  have heq := Nat.div_add_mod' (needed c size + (c.page.toNat - 1)) c.page.toNat
  have hmod := Nat.mod_lt (needed c size + (c.page.toNat - 1)) hpos
  rw [asked]
  omega

theorem asked_lt (hpage : c.page.toNat = 2 ^ k) (size : BitVec w) :
    asked c size < needed c size + 2 * c.page.toNat := by
  have hpos := page_pos hpage
  have hle := Nat.div_mul_le_self (needed c size + (c.page.toNat - 1)) c.page.toNat
  rw [asked]
  omega

theorem guardSize_le (c : Config w) : guardSize c ≤ c.page.toNat := by
  rw [guardSize]
  split <;> omega

/-- A size that wraps only wraps once. -/
theorem toNat_allocSize_of_wrap (hpage : c.page.toNat = 2 ^ k)
    (hroom : c.minSigStkSz.toNat + 6 * c.page.toNat ≤ 2 ^ w) {size : BitVec w}
    (hwrap : ¬ NoWrap c size) : (allocSize c size).toNat = asked c size - 2 ^ w := by
  have hlt := asked_lt hpage size
  have hguard := guardSize_le c
  have hsize := size.isLt
  rw [needed] at hlt
  rw [noWrap_iff, Nat.not_lt] at hwrap
  rw [toNat_allocSize hpage, Nat.mod_eq_sub_mod hwrap, Nat.mod_eq_of_lt (by omega)]

/-- The size that is allocated is enough, unless it wraps. -/
theorem le_allocSize_iff (hpage : c.page.toNat = 2 ^ k)
    (hroom : c.minSigStkSz.toNat + 6 * c.page.toNat ≤ 2 ^ w) (size : BitVec w) :
    size ≤ allocSize c size ↔ NoWrap c size := by
  have hge := needed_add_page_le hpage size
  have hlt := asked_lt hpage size
  have hguard := guardSize_le c
  have hpos := page_pos hpage
  rw [needed] at hge hlt
  rw [BitVec.le_def]
  by_cases hwrap : NoWrap c size
  · rw [toNat_allocSize hpage, Nat.mod_eq_of_lt (noWrap_iff.1 hwrap)]
    exact iff_of_true (by omega) hwrap
  · rw [toNat_allocSize_of_wrap hpage hroom hwrap]
    refine iff_of_false ?_ hwrap
    rw [noWrap_iff] at hwrap
    omega

theorem check_eq_ok_iff {p : Bool} {f : Failure} :
    c.check p f = .ok () ↔ (c.enableAssert = true → p = true) := by
  rw [Config.check]
  cases c.enableAssert <;> cases p <;> simp

/-- What follows a check is only reached if it passes. -/
theorem check_bind_eq_ok {α : Type*} {p : Bool} {f : Failure} {x : Except Failure α} {a : α}
    (h : ((c.check p f).bind fun _ => x) = .ok a) :
    (c.enableAssert = true → p = true) ∧ x = .ok a := by
  cases hcheck : c.check p f with
  | error e =>
      rw [hcheck] at h
      cases h
  | ok =>
      rw [hcheck] at h
      exact ⟨check_eq_ok_iff.1 hcheck, h⟩

/-- How `initStack` returns. -/
theorem initStack_eq_ok {alloc : BitVec w → BitVec w} {size : BitVec w} {stack usable : Stack w}
    (h : initStack c alloc size = .ok (stack, usable)) :
    (c.enableAssert = true → popcount (c.page.setWidth 32) = 1) ∧
    alloc (allocSize c size) ≠ 0 ∧ stack = ⟨alloc (allocSize c size), allocSize c size⟩ ∧
    stackAlign c stack = .ok usable := by
  obtain ⟨hcheck, h⟩ := check_bind_eq_ok h
  dsimp only at h
  split at h
  · cases h
  · cases halign : stackAlign c ⟨alloc (allocSize c size), allocSize c size⟩ with
    | error f =>
        rw [halign] at h
        cases h
    | ok =>
        rw [halign] at h
        cases h
        exact ⟨fun ha => of_decide_eq_true (hcheck ha), ‹_›, rfl, halign⟩

/-- The assertions that hold when `stackAlign` returns. -/
theorem stackAlign_eq_ok {stack usable : Stack w} (hp : stack.p ≠ 0) (hsize : stack.size ≠ 0)
    (h : stackAlign c stack = .ok usable) (ha : c.enableAssert = true) :
    c.page < stack.size ∧ (c.guarded = true →
      c.page * 2 < down c.page (stack.size - (up c.page stack.p - stack.p))) := by
  rw [stackAlign, if_neg (by rintro (h | h) <;> contradiction)] at h
  dsimp only at h
  obtain ⟨habove, h⟩ := check_bind_eq_ok h
  obtain ⟨-, h⟩ := check_bind_eq_ok h
  refine ⟨of_decide_eq_true (habove ha), fun hg => ?_⟩
  rw [if_pos hg] at h
  obtain ⟨hguards, -⟩ := check_bind_eq_ok h
  exact of_decide_eq_true (hguards ha)

/-- The usable part of a stack is that of its allocation. -/
theorem create_eq_ok {size : BitVec w} (hsize : size ≠ 0) {stack usable : Stack w}
    (h : create c env size = .ok (stack, usable)) :
    initStack c env.alloc size = .ok (stack, usable) := by
  rw [create, if_neg hsize] at h
  cases hinit : initStack c env.alloc size with
  | error f =>
      rw [hinit] at h
      cases h
  | ok both =>
      rw [hinit] at h
      dsimp only at h
      split at h
      · cases h
        rfl
      · cases h

/-- What a fiber has is what was created for it. -/
theorem largeEnough_iff (size : BitVec w) :
    LargeEnough c size ↔ ∀ env : Env w, env.WellBehaved c → ∀ stack usable,
      create c env size = .ok (stack, usable) →
        size.toNat ≤ usable.size.toNat ∧ usable.Within stack := by
  constructor
  · intro h env henv stack usable hcreate
    let f : Stacked w := ⟨.construct, size, none⟩
    have hinit : f.init c { env with newContext := true } =
        ({ f with fiber := f.fiber.init, context := some (stack, usable) }, .ok ()) := by
      have hcontext : contextCreate c { env with newContext := true } size = .ok (stack, usable) :=
        hcreate
      rw [Stacked.init, if_pos (show f.fiber.state = .new from rfl)]
      dsimp only [f]
      rw [hcontext]
    obtain ⟨_, _, hsome, hfits⟩ := h { env with newContext := true } henv f f rfl (by rw [hinit])
    rw [hinit] at hsome
    cases hsome
    exact hfits
  · intro h env henv f f' hset hok
    rw [Stacked.setStackSize] at hset
    split at hset
    · cases hset
      rw [Stacked.init, if_pos ‹_›] at hok ⊢
      dsimp only at hok ⊢
      cases hcontext : contextCreate c env size with
      | error e =>
          rw [hcontext] at hok
          cases hok
      | ok both =>
          obtain ⟨stack, usable⟩ := both
          refine ⟨stack, usable, rfl, h env henv stack usable ?_⟩
          rw [contextCreate] at hcontext
          split at hcontext
          · exact hcontext
          · cases hcontext
    · cases hset

/-- If no sum wraps, the stack is large enough. -/
theorem largeEnough_of_noWrap (hpage : c.page.toNat = 2 ^ k) {size : BitVec w}
    (hwrap : NoWrap c size) : LargeEnough c size := by
  rw [largeEnough_iff]
  intro env henv stack usable hcreate
  by_cases hsize : size = 0
  · rw [create, if_pos hsize] at hcreate
    cases hcreate
    rw [hsize]
    exact ⟨Nat.le_refl _, Nat.le_refl _, Nat.le_refl _⟩
  · have hinit := create_eq_ok hsize hcreate
    have hpos : 0 < size.toNat := by
      rw [Nat.pos_iff_ne_zero]
      intro hzero
      exact hsize (BitVec.eq_of_toNat_eq (hzero.trans BitVec.toNat_zero.symm))
    by_cases halloc : env.alloc (allocSize c size) = 0
    · exact absurd halloc (initStack_eq_ok hinit).2.1
    · have hfit := (henv (allocSize c size)).resolve_left halloc
      obtain ⟨usable', hok, hfits⟩ | ⟨herror, -, -⟩ :=
        initStack_fits hpage size (by omega) hwrap env.alloc halloc hfit.1
      · rw [hinit] at hok
        cases hok
        have hle := hfits.room
        exact ⟨by omega, hfits.inside⟩
      · rw [hinit] at herror
        cases herror

/-- No bit is set in the lower half of a page that is too large. -/
theorem popcount_page_of_le (hpage : c.page.toNat = 2 ^ k) (hk : 32 ≤ k) :
    popcount (c.page.setWidth 32) = 0 := by
  rw [popcount, List.countP_eq_zero]
  intro i hi
  rw [BitVec.getLsbD_setWidth, ← BitVec.testBit_toNat, hpage, Nat.testBit_two_pow]
  have hlt := List.mem_range.1 hi
  simp
  omega

/-- A size that wraps is not a problem where it is refused. -/
theorem largeEnough_of_refused (hpage : c.page.toNat = 2 ^ k)
    (hroom : c.minSigStkSz.toNat + 6 * c.page.toNat ≤ 2 ^ w) {size : BitVec w}
    (hwrap : ¬ NoWrap c size) (hrefused : Refused c size) : LargeEnough c size := by
  rw [largeEnough_iff]
  intro env henv stack usable hcreate
  exfalso
  have hsize : size ≠ 0 := by
    rintro rfl
    exact hwrap ((le_allocSize_iff hpage hroom 0).1 (BitVec.not_lt.1 BitVec.not_lt_zero))
  obtain ⟨hpop, halloc, rfl, halign⟩ := initStack_eq_ok (create_eq_ok hsize hcreate)
  obtain ⟨-, hempty⟩ := (henv (allocSize c size)).resolve_left halloc
  have hs := toNat_allocSize_of_wrap hpage hroom hwrap
  have hpos := page_pos hpage
  rcases hrefused with ⟨hmman, hasked⟩ | ⟨ha, hlt, hle⟩ | ⟨ha, hlarge⟩
  · apply hempty hmman
    apply BitVec.eq_of_toNat_eq
    rw [hs, hasked, Nat.sub_self, BitVec.ofNat_eq_ofNat, BitVec.toNat_zero]
  · have hne : allocSize c size ≠ 0 := by
      intro hzero
      rw [hzero, BitVec.ofNat_eq_ofNat, BitVec.toNat_zero] at hs
      omega
    obtain ⟨habove, hguards⟩ := stackAlign_eq_ok halloc hne halign ha
    rw [BitVec.lt_def] at habove
    dsimp only at habove hguards
    cases hg : c.guarded with
    | false =>
        rw [hg, if_neg Bool.false_ne_true] at hle
        omega
    | true =>
        -- what is rounded off the start is less than a page, so no more than two are left
        have hguards := hguards hg
        have hoff := toNat_up_sub hpage (env.alloc (allocSize c size))
        have htwo := toNat_page_mul_two hpage (show 2 * c.page.toNat < 2 ^ w by omega)
        have hdown := down_le hpage (allocSize c size -
          (up c.page (env.alloc (allocSize c size)) - env.alloc (allocSize c size)))
        rw [hg, if_pos rfl] at hle
        rw [BitVec.lt_def, htwo] at hguards
        rw [BitVec.toNat_sub_of_le (by rw [BitVec.le_def]; omega)] at hdown
        omega
  · rw [hpage, Nat.pow_le_pow_iff_right (by decide)] at hlarge
    have hzero := popcount_page_of_le hpage hlarge
    have hone := hpop ha
    omega

/-- A block that starts at the first page is used as it is. -/
theorem stackAlign_page (hpage : c.page.toNat = 2 ^ k) {n : BitVec w}
    (hdvd : c.page.toNat ∣ n.toNat) (hpos : 0 < n.toNat) (hfit : c.page.toNat + n.toNat < 2 ^ w)
    (habove : c.enableAssert = true → (if c.guarded then 2 else 1) * c.page.toNat < n.toNat) :
    stackAlign c ⟨c.page, n⟩ =
      .ok (if c.guarded then ⟨c.page + c.page, n - c.page * 2⟩ else ⟨c.page, n⟩) := by
  have hpagepos := page_pos hpage
  have hlow : c.page.toNat ≤ n.toNat := Nat.le_of_dvd hpos hdvd
  have hne : ¬ (c.page = 0 ∨ n = 0) := by
    rintro (h | h)
    · rw [h] at hpagepos
      simp at hpagepos
    · rw [h] at hpos
      simp at hpos
  have hup : up c.page c.page = c.page := up_of_dvd hpage (by omega) (Nat.dvd_refl _)
  have hdown : down c.page (n - (c.page - c.page)) = n := by
    rw [BitVec.sub_self, BitVec.sub_zero, down_of_dvd hpage hdvd]
  have hstop : c.page < c.page + n := by
    rw [BitVec.lt_def, BitVec.toNat_add, Nat.mod_eq_of_lt hfit]
    omega
  simp only [stackAlign, if_neg hne, check_of (decide_eq_true hstop), hup, hdown, Except.bind]
  have hcheck : c.check (decide (c.page < n)) .sizeNotAbovePage = .ok () := by
    rw [check_eq_ok_iff]
    intro ha
    have habove := habove ha
    rw [decide_eq_true_iff, BitVec.lt_def]
    split at habove <;> omega
  rw [hcheck]
  cases hg : c.guarded with
  | false =>
      have hsize : (0 : BitVec w) < n := by
        rw [BitVec.lt_def]
        simpa using hpos
      simp only [Bool.false_eq_true, if_false, check_of (decide_eq_true hsize), Except.map]
  | true =>
      rw [hg, if_pos rfl] at habove
      have hguards : c.enableAssert = true → (c.page * 2).toNat = 2 * c.page.toNat := fun ha =>
        toNat_page_mul_two hpage (by have habove := habove ha; omega)
      have htwo : c.check (decide (c.page * 2 < n)) .sizeNotAboveGuards = .ok () := by
        rw [check_eq_ok_iff]
        intro ha
        rw [decide_eq_true_iff, BitVec.lt_def, hguards ha]
        exact habove ha
      have hsize : c.check (decide (0 < n - c.page * 2)) .sizeZero = .ok () := by
        rw [check_eq_ok_iff]
        intro ha
        have habove := habove ha
        rw [decide_eq_true_iff, BitVec.lt_def, BitVec.toNat_sub_of_le, hguards ha]
        · simp
          omega
        · rw [BitVec.le_def, hguards ha]
          omega
      simp only [if_true, htwo, hsize, Except.map]

/-- What is used of the block at the first page is too small for a size that wraps, or it is not
in the block. -/
theorem not_fits_page (hpage : c.page.toNat = 2 ^ k)
    (hroom : c.minSigStkSz.toNat + 6 * c.page.toNat ≤ 2 ^ w) {size n : BitVec w}
    (hn : n.toNat + 2 ^ w = asked c size) {usable : Stack w}
    (h : usable = if c.guarded then ⟨c.page + c.page, n - c.page * 2⟩ else ⟨c.page, n⟩) :
    ¬ (size.toNat ≤ usable.size.toNat ∧ usable.Within ⟨c.page, n⟩) := by
  have hpos := page_pos hpage
  have hasked := asked_lt hpage size
  have hlt := size.isLt
  rw [needed, guardSize] at hasked
  rintro ⟨hle, -, hstop⟩
  cases hg : c.guarded with
  | false =>
      rw [hg, if_neg Bool.false_ne_true] at h hasked
      subst h
      dsimp only at hle
      omega
  | true =>
      rw [hg, if_pos rfl] at h hasked
      subst h
      have htwo := toNat_page_mul_two hpage (show 2 * c.page.toNat < 2 ^ w by omega)
      dsimp only at hle hstop
      rw [BitVec.toNat_sub, htwo] at hle hstop
      rw [BitVec.toNat_add, Nat.mod_eq_of_lt (by omega)] at hstop
      obtain hshort | hlong := Nat.lt_or_ge n.toNat (2 * c.page.toNat)
      · rw [Nat.mod_eq_of_lt (by omega)] at hstop
        omega
      · have hsub : 2 ^ w - 2 * c.page.toNat + n.toNat =
            n.toNat - 2 * c.page.toNat + 2 ^ w := by omega
        rw [hsub, Nat.add_mod_right, Nat.mod_eq_of_lt (by omega)] at hle
        omega

/-- What follows for a size that is not refused. -/
theorem not_refused {size : BitVec w} (h : ¬ Refused c size) (hge : 2 ^ w ≤ asked c size) :
    ¬ (c.haveMman = true ∧ asked c size = 2 ^ w) ∧
    (c.enableAssert = true → asked c size = 2 ^ w ∨
      2 ^ w + (if c.guarded then 2 else 1) * c.page.toNat < asked c size) ∧
    (c.enableAssert = true → c.page.toNat < 2 ^ 32) := by
  refine ⟨fun hmman => h (Or.inl hmman), fun ha => ?_, fun ha => ?_⟩
  · by_contra hle
    push Not at hle
    exact h (Or.inr (Or.inl ⟨ha, by omega, hle.2⟩))
  · by_contra hlarge
    exact h (Or.inr (Or.inr ⟨ha, Nat.not_lt.1 hlarge⟩))

/-- An environment that has one block, at the first page. -/
def firstPage (c : Config w) (size : BitVec w) : Env w :=
  ⟨true, fun n => if n = size then c.page else 0, fun _ => true⟩

theorem firstPage_alloc (size : BitVec w) : (firstPage c size).alloc size = c.page := if_pos rfl

theorem wellBehaved_firstPage {size : BitVec w} (hfit : c.page.toNat + size.toNat < 2 ^ w)
    (hmman : c.haveMman = true → size ≠ 0) : (firstPage c size).WellBehaved c := by
  intro n
  by_cases hn : n = size
  · subst hn
    rw [firstPage_alloc]
    exact Or.inr ⟨hfit, hmman⟩
  · exact Or.inl (if_neg hn)

/-- A fiber gets the block at the first page, if the page and what is used of the block pass the
assertions. -/
theorem create_firstPage {size : BitVec w} {usable : Stack w} (hsize : size ≠ 0)
    (hne : c.page ≠ 0)
    (hpop : c.enableAssert = true → popcount (c.page.setWidth 32) = 1)
    (halign : stackAlign c ⟨c.page, allocSize c size⟩ = .ok usable) :
    create c (firstPage c (allocSize c size)) size =
      .ok (⟨c.page, allocSize c size⟩, usable) := by
  have hcheck : c.check (decide (popcount (c.page.setWidth 32) = 1)) .pageNotPowerOfTwo =
      .ok () := by
    rw [check_eq_ok_iff]
    exact fun ha => decide_eq_true (hpop ha)
  have hinit : initStack c (firstPage c (allocSize c size)).alloc size =
      .ok (⟨c.page, allocSize c size⟩, usable) := by
    rw [initStack, hcheck]
    simp only [Except.bind, firstPage_alloc, if_neg hne, halign, Except.map]
  have hguards :
      (stackGuardInit c usable).all (firstPage c (allocSize c size)).mprotect = true := by
    rw [List.all_eq_true]
    intro s _
    rfl
  rw [create, if_neg hsize, hinit]
  exact if_pos hguards

/-- If the size wraps and is not refused, there is an allocation that makes the stack smaller. -/
theorem not_largeEnough (hpage : c.page.toNat = 2 ^ k)
    (hroom : c.minSigStkSz.toNat + 6 * c.page.toNat ≤ 2 ^ w) {size : BitVec w}
    (hwrap : ¬ NoWrap c size) (hrefused : ¬ Refused c size) : ¬ LargeEnough c size := by
  have hpos := page_pos hpage
  have hs := toNat_allocSize_of_wrap hpage hroom hwrap
  have hasked := asked_lt hpage size
  have hguard := guardSize_le c
  have hlt := size.isLt
  rw [needed] at hasked
  have hdvd : c.page.toNat ∣ (allocSize c size).toNat := by
    rw [hs]
    exact Nat.dvd_sub (dvd_asked c size) (page_dvd hpage)
  have hge : 2 ^ w ≤ asked c size := by
    rw [← Nat.not_lt, ← noWrap_iff]
    exact hwrap
  have hsize : size ≠ 0 := by
    rintro rfl
    exact hwrap ((le_allocSize_iff hpage hroom 0).1 (BitVec.not_lt.1 BitVec.not_lt_zero))
  obtain ⟨hmman, hassert, hlarge⟩ := not_refused hrefused hge
  have hne : c.page ≠ 0 := by
    intro hzero
    rw [hzero] at hpos
    simp at hpos
  have hpop : c.enableAssert = true → popcount (c.page.setWidth 32) = 1 := by
    intro ha
    have hlarge := hlarge ha
    rw [hpage, Nat.pow_lt_pow_iff_right (by decide)] at hlarge
    exact popcount_page hpage hlarge
  have henv : (firstPage c (allocSize c size)).WellBehaved c := by
    refine wellBehaved_firstPage (by omega) fun h hzero => hmman ⟨h, ?_⟩
    rw [hzero, BitVec.ofNat_eq_ofNat, BitVec.toNat_zero] at hs
    omega
  have hfit : c.page.toNat + (allocSize c size).toNat < 2 ^ w := by omega
  -- what is used of it
  obtain ⟨usable, halign, hsmall⟩ :
      ∃ usable, stackAlign c ⟨c.page, allocSize c size⟩ = .ok usable ∧
        ¬ (size.toNat ≤ usable.size.toNat ∧ usable.Within ⟨c.page, allocSize c size⟩) := by
    obtain hzero | hnpos := Nat.eq_zero_or_pos (allocSize c size).toNat
    · refine ⟨⟨c.page, allocSize c size⟩, if_pos (Or.inr (BitVec.eq_of_toNat_eq ?_)), ?_⟩
      · rw [hzero, BitVec.ofNat_eq_ofNat, BitVec.toNat_zero]
      · rintro ⟨hle, -⟩
        dsimp only at hle
        omega
    · refine ⟨_, stackAlign_page hpage hdvd hnpos hfit fun ha => ?_, ?_⟩
      · have hassert := hassert ha
        omega
      · exact not_fits_page hpage hroom (by omega) rfl
  rw [largeEnough_iff]
  intro h
  apply hsmall
  exact h _ henv ⟨c.page, allocSize c size⟩ usable (create_firstPage hsize hne hpop halign)

/-- The stack is never smaller than what was asked for exactly if no sum wraps. Some sizes that
wrap are refused: a fiber never gets a stack that is too small exactly if its size does not wrap
or is one of these. -/
theorem neverSmaller_iff (hpage : c.page.toNat = 2 ^ k)
    (hroom : c.minSigStkSz.toNat + 6 * c.page.toNat ≤ 2 ^ w) (size : BitVec w) :
    (NeverSmaller c size ↔ NoWrap c size) ∧
    (LargeEnough c size ↔ NoWrap c size ∨ Refused c size) := by
  constructor
  · constructor
    · intro h
      exact (le_allocSize_iff hpage hroom size).1 h.allocated
    · intro hwrap
      exact ⟨largeEnough_of_noWrap hpage hwrap, (le_allocSize_iff hpage hroom size).2 hwrap⟩
  · constructor
    · intro h
      by_contra hnot
      push Not at hnot
      exact not_largeEnough hpage hroom hnot.1 hnot.2 h
    · intro h
      by_cases hwrap : NoWrap c size
      · exact largeEnough_of_noWrap hpage hwrap
      · exact largeEnough_of_refused hpage hroom hwrap (h.resolve_left hwrap)

/-- Pages of 4096 bytes, with guards and assertions. -/
def largePaged : Config 64 := ⟨true, true, true, 2048, 4096⟩

theorem neverSmaller_iff_largePaged :
    (NeverSmaller largePaged 65536 ↔ NoWrap largePaged 65536) ∧
    (LargeEnough largePaged 65536 ↔ NoWrap largePaged 65536 ∨ Refused largePaged 65536) :=
  neverSmaller_iff (k := 12) rfl (by decide) 65536

/-- For the largest size of all, four pages are allocated, two of which are the guards. -/
theorem not_neverSmaller :
    allocSize largePaged 0xffffffffffffffff = 16384 ∧
    ¬ NeverSmaller largePaged 0xffffffffffffffff :=
  ⟨by decide, fun h => not_largeEnough (k := 12) rfl (by decide) (by decide) (by decide) h.usable⟩

end Context

end Zth
