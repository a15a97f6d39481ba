import Zth.Library.Rounding

/-!
# The stack of a fiber

The stack of a fiber is allocated with more than what was asked for: `calcStackSize` adds
the room for a signal, and two pages when the stack is guarded; `initStack` rounds up to
full pages, and adds another one, as the address of the block is arbitrary. `stackAlign`
then rounds the address up and the size down, and takes the two pages off again, which
`stackGuardInit` protects.

Sizes and addresses have `w` bits.
-/

namespace Zth

namespace Context

open Rounding

/-- A block of memory. -/
structure Stack (w : ℕ) where
  p : BitVec w
  size : BitVec w
deriving DecidableEq, Repr

/-- What the platform and the configuration are: whether there is `mman.h`, whether stacks
are guarded and assertions are checked, `MINSIGSTKSZ`, and the size of a page. -/
structure Config (w : ℕ) where
  haveMman : Bool
  enableStackGuard : Bool
  enableAssert : Bool
  minSigStkSz : BitVec w
  page : BitVec w
deriving DecidableEq, Repr

/-- The ways in which no stack is set up: one of the assertions fails, in the order of the
code, or the allocation does. -/
inductive Failure where
  | pageNotPowerOfTwo
  | sizeNotAbovePage
  | stackWraps
  | sizeNotAboveGuards
  | sizeZero
  | errno
deriving DecidableEq, Repr

variable {w : ℕ} (c : Config w)

/-- Both ends of the stack have a guard page. -/
def Config.guarded : Bool := c.haveMman && c.enableStackGuard

/-- `zth_assert` -/
def Config.check (p : Bool) (f : Failure) : Except Failure Unit :=
  if c.enableAssert && !p then .error f else .ok ()

/-- `__builtin_popcount`, of an `unsigned int` -/
def popcount (x : BitVec 32) : ℕ := (List.range 32).countP fun i => x.getLsbD i

def calcStackSize (size : BitVec w) : BitVec w :=
  let size := size + c.minSigStkSz
  if c.guarded then size + c.page * 2 else size

def stackAlign (stack : Stack w) : Except Failure (Stack w) :=
  if stack.p = 0 ∨ stack.size = 0 then
    .ok stack
  else
    let ps := c.page
    let old := stack.p
    (c.check (decide (ps < stack.size)) .sizeNotAbovePage).bind fun _ =>
      (c.check (decide (old < old + stack.size)) .stackWraps).bind fun _ =>
        let new := up ps old
        let size := down ps (stack.size - (new - old))
        if c.guarded then
          (c.check (decide (ps * 2 < size)) .sizeNotAboveGuards).bind fun _ =>
            let new := new + ps
            let size := size - ps * 2
            (c.check (decide (0 < size)) .sizeZero).map fun _ => ⟨new, size⟩
        else
          (c.check (decide (0 < size)) .sizeZero).map fun _ => ⟨new, size⟩

/-- The size that `initStack` asks for. -/
def allocSize (size : BitVec w) : BitVec w := up c.page (calcStackSize c size) + c.page

/-- `initStack`, with the address that the allocation of a size returns. It returns the
stack, and the part of it that can be used. -/
def initStack (alloc : BitVec w → BitVec w) (size : BitVec w) :
    Except Failure (Stack w × Stack w) :=
  (c.check (decide (popcount (c.page.setWidth 32) = 1)) .pageNotPowerOfTwo).bind fun _ =>
    let stack : Stack w := ⟨alloc (allocSize c size), allocSize c size⟩
    if stack.p = 0 then .error .errno
    else (stackAlign c stack).map fun usable => (stack, usable)

/-- The pages that `stackGuardInit` protects. -/
def stackGuardInit (usable : Stack w) : List (Stack w) :=
  if c.guarded then
    if usable.p = 0 then []
    else [⟨usable.p - c.page, c.page⟩, ⟨usable.p + usable.size, c.page⟩]
  else []

/-- A block that lies in another one. -/
structure Stack.Within (s t : Stack w) : Prop where
  start : t.p.toNat ≤ s.p.toNat
  stop : s.p.toNat + s.size.toNat ≤ t.p.toNat + t.size.toNat

/-- Two blocks that do not overlap. -/
def Stack.Disjoint (s t : Stack w) : Prop :=
  s.p.toNat + s.size.toNat ≤ t.p.toNat ∨ t.p.toNat + t.size.toNat ≤ s.p.toNat

/-- The guard pages of a usable part: one right below it, and one right above. -/
structure Guards (stack usable below above : Stack w) : Prop where
  eq : stackGuardInit c usable = [below, above]
  below_size : below.size = c.page
  above_size : above.size = c.page
  below_end : below.p.toNat + below.size.toNat = usable.p.toNat
  above_start : above.p.toNat = usable.p.toNat + usable.size.toNat
  below_within : below.Within stack
  above_within : above.Within stack
  below_disjoint : below.Disjoint usable
  above_disjoint : above.Disjoint usable

/-- The usable part of a stack fits. -/
structure Fits (size : BitVec w) (stack usable : Stack w) : Prop where
  aligned : c.page.toNat ∣ usable.p.toNat
  pages : c.page.toNat ∣ usable.size.toNat
  room : size.toNat + c.minSigStkSz.toNat ≤ usable.size.toNat
  inside : usable.Within stack
  guards : c.guarded = true → ∃ below above, Guards c stack usable below above

/-- The size of one guard page, if there is one. -/
def guardSize : ℕ := if c.guarded then c.page.toNat else 0

/-- What `calcStackSize` is meant to compute. -/
def needed (size : BitVec w) : ℕ := size.toNat + c.minSigStkSz.toNat + 2 * guardSize c

/-- The computations of the size do not wrap: neither the sums nor the rounding. -/
def NoWrap (size : BitVec w) : Prop :=
  (needed c size + (c.page.toNat - 1)) / c.page.toNat * c.page.toNat + c.page.toNat < 2 ^ w

instance (size : BitVec w) : Decidable (NoWrap c size) := inferInstanceAs (Decidable (_ < _))

/-- The usable part of a stack of `r` bytes and one page, whatever the address is. -/
structure Aligned (r : ℕ) (stack usable : Stack w) : Prop where
  dvd_p : c.page.toNat ∣ usable.p.toNat
  dvd_size : c.page.toNat ∣ usable.size.toNat
  room : r ≤ usable.size.toNat + 2 * guardSize c
  low : stack.p.toNat + guardSize c ≤ usable.p.toNat
  high : usable.p.toNat + usable.size.toNat + guardSize c ≤ stack.p.toNat + stack.size.toNat

variable {c} {k : ℕ}

theorem check_of {p : Bool} (hp : p = true) (f : Failure) : c.check p f = .ok () := by
  simp [Config.check, hp]

theorem page_pos (hpage : c.page.toNat = 2 ^ k) : 0 < c.page.toNat := by
  rw [hpage]
  exact Nat.two_pow_pos k

/-- Twice a page, if it does not wrap. -/
theorem toNat_page_mul_two (hpage : c.page.toNat = 2 ^ k) (hlt : 2 * c.page.toNat < 2 ^ w) :
    (c.page * 2).toNat = 2 * c.page.toNat := by
  have hpos := page_pos hpage
  have htwo : (2 : BitVec w).toNat = 2 := (BitVec.toNat_ofNat 2 w).trans
    (Nat.mod_eq_of_lt (by omega))
  rw [BitVec.toNat_mul, htwo, Nat.mul_comm, Nat.mod_eq_of_lt hlt]

/-- What has to fit before the size is rounded. -/
theorem needed_add_page_lt (hpage : c.page.toNat = 2 ^ k) {size : BitVec w}
    (hwrap : NoWrap c size) : needed c size + c.page.toNat < 2 ^ w := by
  have hpos := page_pos hpage
  have heq := Nat.div_add_mod' (needed c size + (c.page.toNat - 1)) c.page.toNat
  have hmod := Nat.mod_lt (needed c size + (c.page.toNat - 1)) hpos
  rw [NoWrap] at hwrap
  omega

theorem toNat_calcStackSize (hpage : c.page.toNat = 2 ^ k) {size : BitVec w}
    (hwrap : NoWrap c size) : (calcStackSize c size).toNat = needed c size := by
  have hlt := needed_add_page_lt hpage hwrap
  have hsum : (size + c.minSigStkSz).toNat = size.toNat + c.minSigStkSz.toNat := by
    rw [BitVec.toNat_add, Nat.mod_eq_of_lt]
    rw [needed] at hlt
    omega
  unfold calcStackSize needed guardSize
  rw [needed, guardSize] at hlt
  cases hg : c.guarded with
  | false => simpa using hsum
  | true =>
      rw [hg, if_pos rfl] at hlt
      simp only [if_true]
      rw [BitVec.toNat_add, hsum, toNat_page_mul_two hpage (by omega), Nat.mod_eq_of_lt (by omega)]

/-- The size that is asked for is one page more than full pages with enough room. -/
theorem allocSize_spec (hpage : c.page.toNat = 2 ^ k) {size : BitVec w}
    (hwrap : NoWrap c size) :
    ∃ r, c.page.toNat ∣ r ∧ needed c size ≤ r ∧
      (allocSize c size).toNat = r + c.page.toNat := by
  have hpos := page_pos hpage
  have hcalc := toNat_calcStackSize hpage hwrap
  have hx : (calcStackSize c size).toNat + c.page.toNat ≤ 2 ^ w := by
    rw [hcalc]
    exact Nat.le_of_lt (needed_add_page_lt hpage hwrap)
  have hdvd := dvd_up hpage (calcStackSize c size)
  have hle := le_up hpage hx
  have hlt := up_lt hpage hx
  rw [hcalc] at hle hlt
  refine ⟨_, hdvd, hle, ?_⟩
  -- the rounded size is at most the one that does not wrap
  obtain ⟨q, hq⟩ := hdvd
  have hdiv : q ≤ (needed c size + (c.page.toNat - 1)) / c.page.toNat := by
    rw [Nat.le_div_iff_mul_le hpos, Nat.mul_comm, ← hq]
    omega
  have hmul := Nat.mul_le_mul_right c.page.toNat hdiv
  rw [Nat.mul_comm q, ← hq] at hmul
  rw [NoWrap] at hwrap
  rw [allocSize, BitVec.toNat_add, Nat.mod_eq_of_lt (by omega)]

/-- The address that is rounded up, and the size that is left and rounded down. -/
theorem aligned_spec (hpage : c.page.toNat = 2 ^ k) {stack : Stack w} {r : ℕ}
    (hdvd : c.page.toNat ∣ r) (hsize : stack.size.toNat = r + c.page.toNat)
    (hfit : stack.p.toNat + stack.size.toNat < 2 ^ w) :
    c.page.toNat ∣ (up c.page stack.p).toNat ∧
    stack.p.toNat ≤ (up c.page stack.p).toNat ∧
    c.page.toNat ∣ (down c.page (stack.size - (up c.page stack.p - stack.p))).toNat ∧
    r ≤ (down c.page (stack.size - (up c.page stack.p - stack.p))).toNat ∧
    (up c.page stack.p).toNat +
      (down c.page (stack.size - (up c.page stack.p - stack.p))).toNat ≤
        stack.p.toNat + stack.size.toNat := by
  have hx : stack.p.toNat + c.page.toNat ≤ 2 ^ w := by omega
  have hle := le_up hpage hx
  have hlt := up_lt hpage hx
  have hoff : (up c.page stack.p - stack.p).toNat = (up c.page stack.p).toNat - stack.p.toNat :=
    BitVec.toNat_sub_of_le hle
  have hleft : (stack.size - (up c.page stack.p - stack.p)).toNat =
      stack.size.toNat - ((up c.page stack.p).toNat - stack.p.toNat) := by
    rw [BitVec.toNat_sub_of_le, hoff]
    rw [BitVec.le_def, hoff]
    omega
  have hdown := down_le hpage (stack.size - (up c.page stack.p - stack.p))
  have hr : r ≤ (stack.size - (up c.page stack.p - stack.p)).toNat := by omega
  refine ⟨dvd_up hpage _, hle, dvd_down hpage _, le_down hpage hdvd hr, ?_⟩
  omega

/-- No assertion of `stackAlign` fails. -/
theorem stackAlign_spec (hpage : c.page.toNat = 2 ^ k) (stack : Stack w) {r : ℕ}
    (hp : stack.p ≠ 0) (hdvd : c.page.toNat ∣ r) (hr : 2 * guardSize c < r)
    (hsize : stack.size.toNat = r + c.page.toNat)
    (hfit : stack.p.toNat + stack.size.toNat < 2 ^ w) :
    ∃ usable, stackAlign c stack = .ok usable ∧ Aligned c r stack usable := by
  obtain ⟨hnew, hle, hdvdsize, hroom, hhigh⟩ := aligned_spec hpage hdvd hsize hfit
  have hpos := page_pos hpage
  have hzero : ¬ (stack.p = 0 ∨ stack.size = 0) := by
    rintro (h | h)
    · exact hp h
    · rw [h] at hsize
      simp at hsize
      omega
  have habove : c.page < stack.size := by
    rw [BitVec.lt_def]
    omega
  have hstop : stack.p < stack.p + stack.size := by
    rw [BitVec.lt_def, BitVec.toNat_add, Nat.mod_eq_of_lt hfit]
    omega
  simp only [stackAlign, if_neg hzero, check_of (decide_eq_true habove),
    check_of (decide_eq_true hstop), Except.bind]
  generalize down c.page (stack.size - (up c.page stack.p - stack.p)) = size' at *
  generalize up c.page stack.p = new at *
  cases hg : c.guarded with
  | false =>
      have hguard : guardSize c = 0 := by simp [guardSize, hg]
      have hsize' : 0 < size' := by
        rw [BitVec.lt_def]
        simp
        omega
      simp only [Bool.false_eq_true, if_false, check_of (decide_eq_true hsize'), Except.map]
      refine ⟨_, rfl, hnew, hdvdsize, ?_, ?_, ?_⟩
      all_goals dsimp only; omega
  | true =>
      have hguard : guardSize c = c.page.toNat := by simp [guardSize, hg]
      have htwo := toNat_page_mul_two hpage (show 2 * c.page.toNat < 2 ^ w by omega)
      have hguards : c.page * 2 < size' := by
        rw [BitVec.lt_def, htwo]
        omega
      have hsub : (size' - c.page * 2).toNat = size'.toNat - 2 * c.page.toNat := by
        rw [BitVec.toNat_sub_of_le (BitVec.le_of_lt hguards), htwo]
      have hadd : (new + c.page).toNat = new.toNat + c.page.toNat := by
        rw [BitVec.toNat_add, Nat.mod_eq_of_lt (by omega)]
      have hsize' : 0 < size' - c.page * 2 := by
        rw [BitVec.lt_def, hsub]
        simp
        omega
      simp only [if_true, check_of (decide_eq_true hguards), check_of (decide_eq_true hsize'),
        Except.map]
      refine ⟨_, rfl, ?_, ?_, ?_, ?_, ?_⟩
      · rw [hadd]
        exact Nat.dvd_add hnew (Nat.dvd_refl _)
      · rw [hsub]
        exact Nat.dvd_sub hdvdsize (Nat.dvd_mul_left _ _)
      all_goals simp only [hadd, hsub]; omega

/-- The guard pages of a usable part that has room for them on both sides. -/
theorem Aligned.guards (hpage : c.page.toNat = 2 ^ k) {stack usable : Stack w} {r : ℕ}
    (h : Aligned c r stack usable) (hfit : stack.p.toNat + stack.size.toNat < 2 ^ w)
    (hg : c.guarded = true) : ∃ below above, Guards c stack usable below above := by
  obtain ⟨-, -, -, hlow, hhigh⟩ := h
  have hguard : guardSize c = c.page.toNat := by simp [guardSize, hg]
  have hpos := page_pos hpage
  have hne : usable.p ≠ 0 := by
    intro hzero
    rw [hzero] at hlow
    simp at hlow
    omega
  have hbelow : (usable.p - c.page).toNat = usable.p.toNat - c.page.toNat :=
    BitVec.toNat_sub_of_le (by
      rw [BitVec.le_def]
      omega)
  have habove : (usable.p + usable.size).toNat = usable.p.toNat + usable.size.toNat := by
    rw [BitVec.toNat_add, Nat.mod_eq_of_lt (by omega)]
  refine ⟨⟨usable.p - c.page, c.page⟩, ⟨usable.p + usable.size, c.page⟩, ?_, rfl, rfl, ?_,
    habove, ⟨?_, ?_⟩, ⟨?_, ?_⟩, Or.inl ?_, Or.inr ?_⟩
  · rw [stackGuardInit, if_pos hg, if_neg hne]
  all_goals simp only [hbelow, habove]; omega

/-- The assertion of `initStack` looks at the lower 32 bits of the page size only. -/
theorem popcount_page (hpage : c.page.toNat = 2 ^ k) (hk : k < 32) :
    popcount (c.page.setWidth 32) = 1 := by
  have hbit : ∀ i ∈ List.range 32,
      ((c.page.setWidth 32).getLsbD i = true ↔ (i == k) = true) := by
    intro i hi
    rw [BitVec.getLsbD_setWidth, decide_eq_true (List.mem_range.1 hi), Bool.true_and,
      ← BitVec.testBit_toNat, hpage, Nat.testBit_two_pow, decide_eq_true_iff, beq_iff_eq, eq_comm]
  have hcount : (List.range 32).count k = 1 :=
    List.count_range.trans (if_pos hk)
  rw [popcount, List.countP_congr hbit]
  exact hcount

/-- Whatever page, size and address there are, the usable part of the stack fits in the block
that was allocated, and no assertion of `stackAlign` fails. The assertion of `initStack` itself
does not hold of pages that are too large for it. -/
theorem initStack_fits (hpage : c.page.toNat = 2 ^ k) (size : BitVec w)
    (hsize : 0 < size.toNat + c.minSigStkSz.toNat) (hwrap : NoWrap c size)
    (alloc : BitVec w → BitVec w) (halloc : alloc (allocSize c size) ≠ 0)
    (hfit : (alloc (allocSize c size)).toNat + (allocSize c size).toNat < 2 ^ w) :
    (∃ usable, initStack c alloc size =
        .ok (⟨alloc (allocSize c size), allocSize c size⟩, usable) ∧
      Fits c size ⟨alloc (allocSize c size), allocSize c size⟩ usable) ∨
    initStack c alloc size = .error .pageNotPowerOfTwo ∧ c.enableAssert = true ∧
      2 ^ 32 ≤ c.page.toNat := by
  obtain ⟨r, hdvd, hneeded, hr⟩ := allocSize_spec hpage hwrap
  rw [needed] at hneeded
  obtain ⟨usable, hok, haligned⟩ := stackAlign_spec hpage
    ⟨alloc (allocSize c size), allocSize c size⟩ halloc hdvd (by omega) hr hfit
  have hfits : Fits c size ⟨alloc (allocSize c size), allocSize c size⟩ usable := by
    have hroom := haligned.room
    have hlow := haligned.low
    have hhigh := haligned.high
    refine ⟨haligned.dvd_p, haligned.dvd_size, by omega, ⟨by omega, by omega⟩, ?_⟩
    exact haligned.guards hpage hfit
  by_cases hfail : c.enableAssert = true ∧ ¬ popcount (c.page.setWidth 32) = 1
  · refine Or.inr ⟨?_, hfail.1, ?_⟩
    · simp [initStack, Config.check, hfail, Except.bind]
    · rw [hpage]
      apply Nat.pow_le_pow_right Nat.two_pos
      by_contra hk
      exact hfail.2 (popcount_page hpage (Nat.not_le.1 hk))
  · refine Or.inl ⟨usable, ?_, hfits⟩
    have hcheck : c.check (decide (popcount (c.page.setWidth 32) = 1)) .pageNotPowerOfTwo =
        .ok () := by
      rw [Config.check, if_neg]
      simpa using hfail
    rw [initStack, hcheck]
    simp only [Except.bind, if_neg halloc, hok, Except.map]

/-- Stacks of 16 bit addresses with pages of 256 bytes, guarded. -/
def paged : Config 16 := ⟨true, true, true, 100, 256⟩

/-- A stack of 1000 bytes in a block that begins in the middle of a page. -/
theorem initStack_fits_paged :
    ∃ usable, initStack paged (fun _ => 4660) 1000 = .ok (⟨4660, 2048⟩, usable) ∧
      Fits paged 1000 ⟨4660, 2048⟩ usable := by
  have h := initStack_fits (c := paged) (k := 8) rfl 1000 (by decide) (by decide)
    (fun _ => 4660) (by decide) (by decide)
  exact h.resolve_right fun hlarge => absurd hlarge.2.2 (by decide)

end Context

end Zth
