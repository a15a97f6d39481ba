import Zth.Context.Mpu
import Zth.Context.Stack
import Zth.Library.Run

/-!
# The guard of the stack in use

Every context has its own guard, below its stack. `stack_switch` replaces it for the time of a
call, possibly nested, and possibly interrupted by switches to other contexts, which do the same.
There is one region of the memory protection unit for all of them. It is written when a context
gets back from a switch, and whenever the guard of the running context changes.

What it should be is read off the stacks and the calls that are in progress.
-/

namespace Zth

namespace StackGuard

open SwitchGuard

/-- A call in progress: of `zth_stack_switch` without a context to switch in, of
`stack_switch_msp`, or of `stack_switch_psp` with the guard that was saved. -/
inductive Frame where
  | direct
  | msp
  | psp (stack size prevGuard : BitVec 32)
deriving DecidableEq, Repr

def Frame.isMsp : Frame → Bool
  | .msp => true
  | _ => false

/-- `m_stack`, `m_stackUsable` and `m_guard` of a context, and the calls in progress on it, the
last one first. -/
structure Ctx where
  stack : Context.Stack 32
  usable : Context.Stack 32
  guard : BitVec 32
  frames : List Frame

/-- A context without a stack. -/
def Ctx.stackless : Ctx := ⟨⟨0, 0⟩, ⟨0, 0⟩, 0, []⟩

/-- The contexts of one worker. The one of the worker itself is `none`. -/
structure State (κ : Type*) where
  device : Device
  running : Option κ
  disableContextSwitch : ℕ
  contexts : Option κ → Ctx

inductive Action (κ : Type*) where
  | create (k : κ) (block : Context.Stack 32)
  | destroy (k : κ)
  | switchTo (x : Option κ)
  | stackSwitch (stack size : BitVec 32)
  | ret
  | stackUsage (x : Option κ)

/-- What `ContextBase` needs to know to align a stack. -/
def Config.base (c : Config) : Context.Config 32 where
  haveMman := false
  enableStackGuard := c.enableStackGuard
  enableAssert := c.enableAssert
  minSigStkSz := 0
  page := if c.enableStackGuard then stackGuardSize else 8

/-- `ContextArch::stackAlign`: the guard, and the part of the stack that can be used. It fails
with an assertion. -/
def stackAlign (c : Config) (block : Context.Stack 32) : Option (BitVec 32 × Context.Stack 32) :=
  match Context.stackAlign c.base block with
  | .error _ => none
  | .ok stack =>
      if stack.p = 0 ∨ stack.size = 0 then some (0, stack)
      else
        let ps := c.base.page
        if c.enableStackGuard && (c.enableAssert && !decide (ps < stack.size)) then none
        else
          let guard := if c.enableStackGuard then stack.p else 0
          let usable : Context.Stack 32 :=
            if c.enableStackGuard then ⟨stack.p + ps, stack.size - ps⟩ else stack
          if c.enableAssert && !decide (usable.p &&& 7 = 0 ∧ usable.size &&& 7 = 0) then none
          else some (guard, usable)

section Model

variable {κ : Type*} [DecidableEq κ] (c : Config)

def State.setContext (x : Option κ) (a : Ctx) (s : State κ) : State κ :=
  { s with contexts := Function.update s.contexts x a }

def setGuard (x : Option κ) (guard : BitVec 32) (s : State κ) : State κ :=
  s.setContext x { s.contexts x with guard := guard }

def stackGuard (x : Option κ) (s : State κ) : Option (State κ) :=
  (stackGuardImpl c (s.contexts x).guard s.device).map fun d => { s with device := d }

def pushFrame (x : Option κ) (f : Frame) (s : State κ) : State κ :=
  s.setContext x { s.contexts x with frames := f :: (s.contexts x).frames }

def popFrame (x : Option κ) (s : State κ) : State κ :=
  s.setContext x { s.contexts x with frames := (s.contexts x).frames.tail }

def create (k : κ) (block : Context.Stack 32) (s : State κ) : Option (State κ) :=
  (stackAlign c block).map fun (guard, usable) => s.setContext (some k) ⟨block, usable, guard, []⟩

/-- `Worker::schedule` and `context_switch`, up to where the other context is back, or to
`context_entry`. -/
def switchTo (x : Option κ) (s : State κ) : Option (State κ) :=
  if s.disableContextSwitch ≠ 0 then some s
  else if x = s.running then some s
  else stackGuard c x { s with running := x }

/-- `zth_stack_switch`, up to the call of the function. -/
def stackSwitch (stack size : BitVec 32) (s : State κ) : Option (State κ) :=
  if s.running = none then some (pushFrame none .direct s)
  else if stack = 0 then
    some { pushFrame s.running .msp s with disableContextSwitch := s.disableContextSwitch + 1 }
  else
    match (SwitchGuard.stackSwitch c.enableStackGuard stack size).guard with
    | some guard =>
        let prevGuard := (s.contexts s.running).guard
        (stackGuard c s.running (setGuard s.running guard s)).map
          (pushFrame s.running (.psp stack size prevGuard))
    | none => some (pushFrame s.running (.psp stack size 0) s)

/-- What `zth_stack_switch` does when the function returns. -/
def ret (s : State κ) : Option (State κ) :=
  match (s.contexts s.running).frames with
  | [] => none
  | .direct :: _ => some (popFrame s.running s)
  | .msp :: _ =>
      if s.disableContextSwitch = 0 then none
      else some { popFrame s.running s with disableContextSwitch := s.disableContextSwitch - 1 }
  | .psp _ _ prevGuard :: _ =>
      let s := popFrame s.running s
      if prevGuard ≠ 0 then stackGuard c s.running (setGuard s.running prevGuard s) else some s

/-- `context_stack_usage`. The stack is read in between. -/
def contextStackUsage (x : Option κ) (s : State κ) : Option (State κ) :=
  if !c.enableStackWaterMark || decide (x = none) || decide (s.running ≠ x) then some s
  else
    let guard := (s.contexts x).guard
    (stackGuard c x (setGuard x 0 s)).bind fun s =>
      if guard ≠ 0 then stackGuard c x (setGuard x guard s) else some s

def step (s : State κ) : Action κ → Option (State κ)
  | .create k block => create c k block s
  | .destroy k => some (s.setContext (some k) .stackless)
  | .switchTo x => switchTo c x s
  | .stackSwitch stack size => stackSwitch c stack size s
  | .ret => ret c s
  | .stackUsage x => contextStackUsage c x s

/-- The worker runs, and there are no other contexts. -/
def start (m : Mpu) : State κ := ⟨⟨m, 0⟩, none, 0, fun _ => .stackless⟩

/-- The least block that has room for the guard and a page of the stack, wherever it is. -/
def Config.leastBlock (c : Config) : ℕ :=
  if c.enableStackGuard then 3 * c.base.page.toNat else 2 * c.base.page.toNat

/-- What the callers see to. A block has the size that `initStack` computes, no block wraps
around, and a context is not used before it is created or destroyed while it is running. -/
def Allowed (s : State κ) : Action κ → Prop
  | .create k block => (s.contexts (some k)).usable.p = 0 ∧ block.p ≠ 0 ∧
      block.p.toNat + block.size.toNat < 2 ^ 32 ∧
      c.base.page.toNat ∣ block.size.toNat ∧ c.leastBlock ≤ block.size.toNat
  | .destroy k => s.running ≠ some k
  | .switchTo x => x = none ∨ (s.contexts x).usable.p ≠ 0
  | .stackSwitch stack size => stack.toNat + size.toNat < 2 ^ 32
  | .ret => (s.contexts s.running).frames ≠ []
  | .stackUsage _ => True

instance (s : State κ) : ∀ a, Decidable (Allowed c s a)
  | .create _ _ => inferInstanceAs (Decidable (_ ∧ _))
  | .destroy _ => inferInstanceAs (Decidable (_ ≠ _))
  | .switchTo _ => inferInstanceAs (Decidable (_ ∨ _))
  | .stackSwitch _ _ => inferInstanceAs (Decidable (_ < _))
  | .ret => inferInstanceAs (Decidable (_ ≠ _))
  | .stackUsage _ => inferInstanceAs (Decidable True)

end Model

/-! ### What the guard should be -/

/-- The bytes right below the usable part of the stack. -/
def Ctx.ownGuard (c : Config) (a : Ctx) : BitVec 32 :=
  if c.enableStackGuard ∧ a.usable.p ≠ 0 then a.usable.p - stackGuardSize else 0

/-- The guard of the innermost stack that has one. -/
def innermost (c : Config) (own : BitVec 32) : List Frame → BitVec 32
  | [] => own
  | .psp stack size _ :: fs =>
      (SwitchGuard.stackSwitch c.enableStackGuard stack size).guard.getD (innermost c own fs)
  | _ :: fs => innermost c own fs

/-- Every call saved the guard that it replaced, if it replaced it. -/
def Saved (c : Config) (own : BitVec 32) : List Frame → Prop
  | [] => True
  | .psp stack size prevGuard :: fs =>
      stack.toNat + size.toNat < 2 ^ 32 ∧ Saved c own fs ∧
        prevGuard = if (SwitchGuard.stackSwitch c.enableStackGuard stack size).guard.isSome then
          innermost c own fs else 0
  | _ :: fs => Saved c own fs

/-- What holds of every context. -/
structure Ctx.Nested (c : Config) (a : Ctx) : Prop where
  guard : a.guard = innermost c (a.ownGuard c) a.frames
  saved : Saved c (a.ownGuard c) a.frames
  aligned : 32 ∣ (a.ownGuard c).toNat
  stackless : a.usable.p = 0 → ∀ f ∈ a.frames, f = .direct
  ne : c.enableStackGuard = true → a.usable.p ≠ 0 → a.ownGuard c ≠ 0
  below : c.enableStackGuard = true → a.usable.p ≠ 0 →
    (a.ownGuard c).toNat + stackGuardSize.toNat = a.usable.p.toNat
  within : c.enableStackGuard = true → a.usable.p ≠ 0 →
    (⟨a.ownGuard c, stackGuardSize⟩ : Context.Stack 32).Within a.stack

variable {c : Config}

theorem guard_aligned {enable : Bool} {stack size guard : BitVec 32}
    (h : (SwitchGuard.stackSwitch enable stack size).guard = some guard) : 32 ∣ guard.toNat := by
  obtain ⟨-, -, -, rfl⟩ := guard_eq_some h
  exact Rounding.dvd_down (k := 5) rfl _

/-- The guard of a stack that does not wrap around is not null. -/
theorem guard_ne_zero {enable : Bool} {stack size guard : BitVec 32}
    (h : (SwitchGuard.stackSwitch enable stack size).guard = some guard)
    (hfit : stack.toNat + size.toNat < 2 ^ 32) : guard ≠ 0 := by
  obtain ⟨-, hstack, hsize, rfl⟩ := guard_eq_some h
  have hoff := guard_offset stack
  intro hzero
  rw [hzero, BitVec.toNat_sub] at hoff
  have hpos : 0 < stack.toNat := by
    rw [Nat.pos_iff_ne_zero]
    exact fun hz => hstack (BitVec.eq_of_toNat_eq hz)
  have hnull : (0 : BitVec 32).toNat = 0 := rfl
  split at hoff <;> omega

theorem innermost_aligned {own : BitVec 32} (hown : 32 ∣ own.toNat) :
    ∀ fs, 32 ∣ (innermost c own fs).toNat
  | [] => hown
  | .direct :: fs => innermost_aligned hown fs
  | .msp :: fs => innermost_aligned hown fs
  | .psp stack size _ :: fs => by
      rw [innermost]
      cases hguard : (SwitchGuard.stackSwitch c.enableStackGuard stack size).guard with
      | none => exact innermost_aligned hown fs
      | some guard => exact guard_aligned hguard

theorem innermost_ne_zero {own : BitVec 32} (hown : own ≠ 0) :
    ∀ fs, Saved c own fs → innermost c own fs ≠ 0
  | [], _ => hown
  | .direct :: fs, h => innermost_ne_zero hown fs h
  | .msp :: fs, h => innermost_ne_zero hown fs h
  | .psp stack size _ :: fs, h => by
      rw [innermost]
      cases hguard : (SwitchGuard.stackSwitch c.enableStackGuard stack size).guard with
      | none => exact innermost_ne_zero hown fs h.2.1
      | some guard => exact guard_ne_zero hguard h.1

theorem Ctx.Nested.guard_aligned {a : Ctx} (h : a.Nested c) : 32 ∣ a.guard.toNat := by
  rw [h.guard]
  exact innermost_aligned h.aligned _

theorem nested_stackless : Ctx.stackless.Nested c where
  guard := by simp [Ctx.stackless, Ctx.ownGuard, innermost]
  saved := trivial
  aligned := by simp [Ctx.stackless, Ctx.ownGuard]
  stackless := by simp [Ctx.stackless]
  ne := fun _ h => absurd rfl h
  below := fun _ h => absurd rfl h
  within := fun _ h => absurd rfl h

theorem page_base (c : Config) :
    ∃ k, 3 ≤ k ∧ c.base.page.toNat = 2 ^ k ∧ (c.enableStackGuard = true → k = 5) := by
  cases h : c.enableStackGuard with
  | true => exact ⟨5, by decide, by simp only [Config.base, h]; rfl, fun _ => rfl⟩
  | false =>
      exact ⟨3, by decide, by simp only [Config.base, h]; rfl,
        fun h => absurd h Bool.false_ne_true⟩

theorem two_pages_le : 2 * c.base.page.toNat ≤ c.leastBlock := by
  rw [Config.leastBlock]
  split <;> omega

/-- What `ContextBase::stackAlign` leaves of a block. -/
theorem base_stackAlign_spec {block : Context.Stack 32} (hp : block.p ≠ 0)
    (hfit : block.p.toNat + block.size.toNat < 2 ^ 32)
    (hdvd : c.base.page.toNat ∣ block.size.toNat)
    (hsize : 2 * c.base.page.toNat ≤ block.size.toNat) :
    ∃ stack, Context.stackAlign c.base block = .ok stack ∧
      c.base.page.toNat ∣ stack.p.toNat ∧ c.base.page.toNat ∣ stack.size.toNat ∧
      block.size.toNat ≤ stack.size.toNat + c.base.page.toNat ∧
      block.p.toNat ≤ stack.p.toNat ∧
      stack.p.toNat + stack.size.toNat ≤ block.p.toNat + block.size.toNat ∧
      stack.p ≠ 0 ∧ stack.size ≠ 0 := by
  obtain ⟨k, -, hpage, -⟩ := page_base c
  have hpage0 := Context.page_pos hpage
  have hguard : Context.guardSize c.base = 0 := by
    simp [Context.guardSize, Context.Config.guarded, Config.base]
  obtain ⟨stack, hok, halign⟩ := Context.stackAlign_spec hpage block
    (r := block.size.toNat - c.base.page.toNat) hp
    (Nat.dvd_sub hdvd (Nat.dvd_refl _)) (by omega) (by omega) hfit
  have hroom := halign.room
  have hlow := halign.low
  have hhigh := halign.high
  have hpos : 0 < block.p.toNat := by
    rw [Nat.pos_iff_ne_zero]
    exact fun hz => hp (BitVec.eq_of_toNat_eq hz)
  refine ⟨stack, hok, halign.dvd_p, halign.dvd_size, by omega, by omega, by omega, ?_, ?_⟩
  · rintro h
    rw [h, BitVec.ofNat_eq_ofNat, BitVec.toNat_zero] at hlow
    omega
  · rintro h
    rw [h, BitVec.ofNat_eq_ofNat, BitVec.toNat_zero] at hroom
    omega

/-- A block of the size that `initStack` asks for passes every assertion. -/
theorem stackAlign_spec {block : Context.Stack 32} (hp : block.p ≠ 0)
    (hfit : block.p.toNat + block.size.toNat < 2 ^ 32)
    (hdvd : c.base.page.toNat ∣ block.size.toNat) (hsize : c.leastBlock ≤ block.size.toNat) :
    ∃ guard usable, stackAlign c block = some (guard, usable) ∧
      (⟨block, usable, guard, []⟩ : Ctx).Nested c ∧ usable.p ≠ 0 := by
  have hg : stackGuardSize.toNat = 32 := rfl
  obtain ⟨stack, hok, hdvdp, hdvdsize, hroom, hlow, hhigh, hne, hne'⟩ :=
    base_stackAlign_spec hp hfit hdvd (two_pages_le.trans hsize)
  obtain ⟨k, hk, hpage, hguarded⟩ := page_base c
  have height : 2 ^ 3 ∣ c.base.page.toNat := by
    rw [hpage]
    exact Nat.pow_dvd_pow 2 hk
  cases henable : c.enableStackGuard with
  | true =>
      replace hpage : c.base.page.toNat = 32 := by rw [hpage, hguarded henable]; rfl
      have hpageeq : c.base.page = stackGuardSize := by simp only [Config.base, henable, if_true]
      rw [Config.leastBlock, if_pos henable, hpage] at hsize
      rw [hpage] at hdvdp hdvdsize hroom
      have hadd : (stack.p + c.base.page).toNat = stack.p.toNat + 32 := by
        rw [BitVec.toNat_add, hpage, Nat.mod_eq_of_lt (by omega)]
      have hlt : c.base.page < stack.size := by
        rw [BitVec.lt_def, hpage]
        omega
      have hsub : (stack.size - c.base.page).toNat = stack.size.toNat - 32 := by
        rw [BitVec.toNat_sub_of_le (BitVec.le_of_lt hlt), hpage]
      have hnext : stack.p + c.base.page ≠ 0 := by
        intro h
        rw [h, BitVec.ofNat_eq_ofNat, BitVec.toNat_zero] at hadd
        omega
      have hown : (⟨block, ⟨stack.p + c.base.page, stack.size - c.base.page⟩, stack.p, []⟩ :
          Ctx).ownGuard c = stack.p := by
        rw [Ctx.ownGuard, if_pos ⟨henable, hnext⟩, hpageeq, BitVec.add_sub_cancel]
      refine ⟨stack.p, ⟨stack.p + c.base.page, stack.size - c.base.page⟩, ?_, ?_, hnext⟩
      · have hmasks : (stack.p + c.base.page) &&& 7 = 0 ∧ (stack.size - c.base.page) &&& 7 = 0 :=
          ⟨and_mask_eq_zero (k := 3) rfl (by omega), and_mask_eq_zero (k := 3) rfl (by omega)⟩
        simp only [stackAlign, hok, hne, hne', or_self, if_false, henable, if_true, hmasks, hlt,
          decide_true, Bool.not_true, Bool.and_false, Bool.false_eq_true, and_self]
      · constructor
        · exact hown.symm
        · trivial
        · rw [hown]
          exact hdvdp
        · exact fun h => absurd h hnext
        · rw [hown]
          exact fun _ _ => hne
        · rw [hown]
          exact fun _ _ => hadd.symm
        · rw [hown]
          exact fun _ _ => ⟨hlow, by dsimp only; omega⟩
  | false =>
      have hown : (⟨block, stack, 0, []⟩ : Ctx).ownGuard c = 0 := by
        simp [Ctx.ownGuard, henable]
      refine ⟨0, stack, ?_, ?_, hne⟩
      · have hmasks : stack.p &&& 7 = 0 ∧ stack.size &&& 7 = 0 :=
          ⟨and_mask_eq_zero (k := 3) rfl (Nat.dvd_trans height hdvdp),
            and_mask_eq_zero (k := 3) rfl (Nat.dvd_trans height hdvdsize)⟩
        simp only [stackAlign, hok, hne, hne', or_self, if_false, henable, hmasks, decide_true,
          Bool.not_true, Bool.and_false, Bool.false_and, Bool.false_eq_true, and_self]
      · have hfalse : c.enableStackGuard ≠ true := by rw [henable]; exact Bool.false_ne_true
        constructor
        · exact hown.symm
        · trivial
        · rw [hown]
          exact Nat.dvd_zero 32
        · exact fun h => absurd h hne
        · exact fun h => absurd h hfalse
        · exact fun h => absurd h hfalse
        · exact fun h => absurd h hfalse

/-! ### The calls that are in progress -/

theorem innermost_psp_of_some {own stack size prevGuard guard : BitVec 32} {fs : List Frame}
    (hguard : (SwitchGuard.stackSwitch c.enableStackGuard stack size).guard = some guard) :
    innermost c own (.psp stack size prevGuard :: fs) = guard := by rw [innermost, hguard]; rfl

theorem innermost_psp_of_none {own stack size prevGuard : BitVec 32} {fs : List Frame}
    (hguard : (SwitchGuard.stackSwitch c.enableStackGuard stack size).guard = none) :
    innermost c own (.psp stack size prevGuard :: fs) = innermost c own fs := by
  rw [innermost, hguard]
  rfl

/-- Only the guard and the calls change. -/
theorem Ctx.Nested.congr {a : Ctx} (h : a.Nested c) {guard : BitVec 32} {fs : List Frame}
    (hguard : guard = innermost c (a.ownGuard c) fs) (hsaved : Saved c (a.ownGuard c) fs)
    (hstackless : a.usable.p = 0 → ∀ f ∈ fs, f = .direct) :
    ({ a with guard := guard, frames := fs } : Ctx).Nested c :=
  ⟨hguard, hsaved, h.aligned, hstackless, h.ne, h.below, h.within⟩

theorem Ctx.Nested.direct {a : Ctx} (h : a.Nested c) (hp : a.usable.p = 0) :
    ({ a with frames := .direct :: a.frames } : Ctx).Nested c :=
  h.congr h.guard h.saved fun _ => List.forall_mem_cons.2 ⟨rfl, h.stackless hp⟩

theorem Ctx.Nested.msp {a : Ctx} (h : a.Nested c) (hp : a.usable.p ≠ 0) :
    ({ a with frames := .msp :: a.frames } : Ctx).Nested c :=
  h.congr h.guard h.saved fun hzero => absurd hzero hp

/-- The guard of the new stack replaces the one before. -/
theorem Ctx.Nested.psp {a : Ctx} (h : a.Nested c) (hp : a.usable.p ≠ 0)
    {stack size guard : BitVec 32} (hfit : stack.toNat + size.toNat < 2 ^ 32)
    (hguard : (SwitchGuard.stackSwitch c.enableStackGuard stack size).guard = some guard) :
    ({ a with guard := guard, frames := .psp stack size a.guard :: a.frames } : Ctx).Nested c := by
  refine h.congr (innermost_psp_of_some hguard).symm ⟨hfit, h.saved, ?_⟩
    fun hzero => absurd hzero hp
  rw [hguard]
  exact h.guard

/-- A stack that is too small keeps the guard before. -/
theorem Ctx.Nested.psp_small {a : Ctx} (h : a.Nested c) (hp : a.usable.p ≠ 0)
    {stack size : BitVec 32} (hfit : stack.toNat + size.toNat < 2 ^ 32)
    (hguard : (SwitchGuard.stackSwitch c.enableStackGuard stack size).guard = none) :
    ({ a with frames := .psp stack size 0 :: a.frames } : Ctx).Nested c := by
  refine h.congr ?_ ⟨hfit, h.saved, ?_⟩ fun hzero => absurd hzero hp
  · rw [innermost_psp_of_none hguard]
    exact h.guard
  · rw [hguard]
    rfl

theorem Ctx.Nested.tail {a : Ctx} (h : a.Nested c) {f : Frame} {fs : List Frame}
    (hf : a.frames = f :: fs) {guard : BitVec 32}
    (hguard : guard = innermost c (a.ownGuard c) fs) :
    ({ a with guard := guard, frames := fs } : Ctx).Nested c := by
  have hsaved := h.saved
  have hstackless := h.stackless
  rw [hf] at hsaved hstackless
  refine h.congr hguard ?_ fun hzero => fun f hmem =>
    hstackless hzero f (List.mem_cons_of_mem _ hmem)
  cases f with
  | direct => exact hsaved
  | msp => exact hsaved
  | psp stack size prevGuard => exact hsaved.2.1

/-- The guard that was saved is the one of the stack that is returned to, or there is nothing to
restore. -/
theorem Ctx.Nested.prevGuard {a : Ctx} (h : a.Nested c) {stack size prevGuard : BitVec 32}
    {fs : List Frame} (hf : a.frames = .psp stack size prevGuard :: fs) :
    (if prevGuard ≠ 0 then prevGuard else a.guard) = innermost c (a.ownGuard c) fs := by
  have hguard := h.guard
  obtain ⟨-, hsaved, hprev⟩ := hf ▸ h.saved
  rw [hf] at hguard
  cases hset : (SwitchGuard.stackSwitch c.enableStackGuard stack size).guard with
  | none =>
      have hprev : prevGuard = 0 := by rw [hprev, hset]; rfl
      rw [innermost_psp_of_none hset] at hguard
      rw [if_neg (not_not.2 hprev)]
      exact hguard
  | some guard =>
      have hp : a.usable.p ≠ 0 := by
        intro hzero
        have hdirect := h.stackless hzero (.psp stack size prevGuard) (by rw [hf]; simp)
        cases hdirect
      have henable := (guard_eq_some hset).1
      rw [hset] at hprev
      rw [if_pos (by rw [hprev]; exact innermost_ne_zero (h.ne henable hp) fs hsaved), hprev]
      rfl

/-! ### Runs -/

section Runs

variable {κ : Type*} {m : Mpu} {s t : State κ}

/-- The unit holds the guard of the running context, every context has the guard of its innermost
stack, and only the running one may be on the stack of the worker. -/
structure Invariant (c : Config) (m : Mpu) (s : State κ) : Prop where
  device : c.active = true → s.running = none ∧ s.device = ⟨m, 0⟩ ∨
    Programmed m (s.contexts s.running).guard s.device
  idle : c.active = false → s.device = ⟨m, 0⟩
  nested : ∀ x, (s.contexts x).Nested c
  worker : (s.contexts none).usable.p = 0
  created : s.running ≠ none → (s.contexts s.running).usable.p ≠ 0
  switching : s.disableContextSwitch = (s.contexts s.running).frames.countP Frame.isMsp
  others : ∀ x, x ≠ s.running → (s.contexts x).frames.countP Frame.isMsp = 0

/-- The unit is set for the context. -/
structure SetFor (c : Config) (m : Mpu) (guard : BitVec 32) (d : Device) : Prop where
  device : c.active = true → Programmed m guard d
  idle : c.active = false → d = ⟨m, 0⟩

theorem Invariant.ready (h : Invariant c m s) (hc : c.active = true) : Ready m s.device := by
  obtain ⟨-, hstart⟩ | hprog := h.device hc
  · exact Or.inl hstart
  · exact Or.inr ⟨_, hprog⟩

theorem stackGuard_spec (hm : m.dregion.toNat ≤ 16) (x : Option κ)
    (hready : c.active = true → Ready m s.device) (hidle : c.active = false → s.device = ⟨m, 0⟩)
    (haligned : 32 ∣ (s.contexts x).guard.toNat) :
    ∃ d, stackGuard c x s = some { s with device := d } ∧
      SetFor c m (s.contexts x).guard d := by
  cases hc : c.active with
  | true =>
      obtain ⟨d, hd, hprog⟩ := stackGuardImpl_spec hc hm (hready hc) haligned
      refine ⟨d, by rw [stackGuard, hd]; rfl, fun _ => hprog, fun h => ?_⟩
      cases hc.symm.trans h
  | false =>
      refine ⟨s.device, ?_, fun h => ?_, hidle⟩
      · rw [stackGuard, stackGuardImpl, if_pos (by rw [hc]; rfl)]
        rfl
      · cases hc.symm.trans h

theorem invariant_start (c : Config) (m : Mpu) : Invariant c m (start m : State κ) where
  device := fun _ => Or.inl ⟨rfl, rfl⟩
  idle := fun _ => rfl
  nested := fun _ => nested_stackless
  worker := rfl
  created := fun h => absurd rfl h
  switching := rfl
  others := fun _ _ => rfl

variable [DecidableEq κ]

/-- A context that is not running is created or destroyed. -/
theorem Invariant.setContext (h : Invariant c m s) {k : κ} (hk : s.running ≠ some k) {a : Ctx}
    (ha : a.Nested c) (hframes : a.frames = []) : Invariant c m (s.setContext (some k) a) := by
  have hrunning : Function.update s.contexts (some k) a s.running = s.contexts s.running :=
    Function.update_of_ne hk _ _
  constructor <;> simp only [State.setContext, hrunning]
  · exact h.device
  · exact h.idle
  · intro x
    by_cases hx : x = some k
    · rw [hx, Function.update_self]
      exact ha
    · rw [Function.update_of_ne hx]
      exact h.nested x
  · rw [Function.update_of_ne (by simp)]
    exact h.worker
  · exact h.created
  · exact h.switching
  · intro x hx
    by_cases hxk : x = some k
    · rw [hxk, Function.update_self, hframes]
      rfl
    · rw [Function.update_of_ne hxk]
      exact h.others x hx

/-- The running context changes its guard and its calls, and the unit is set for it. -/
theorem Invariant.update (h : Invariant c m s) {a : Ctx} (ha : a.Nested c)
    (husable : a.usable = (s.contexts s.running).usable) {d : Device} {n : ℕ}
    (hn : n = a.frames.countP Frame.isMsp)
    (hd : d = s.device ∧ a.guard = (s.contexts s.running).guard ∨ SetFor c m a.guard d) :
    Invariant c m { s.setContext s.running a with device := d, disableContextSwitch := n } := by
  have hself : Function.update s.contexts s.running a s.running = a := Function.update_self _ _ _
  constructor <;> simp only [State.setContext, hself]
  · intro hc
    obtain ⟨rfl, hguard⟩ | hset := hd
    · rw [hguard]
      exact h.device hc
    · exact Or.inr (hset.device hc)
  · intro hc
    obtain ⟨rfl, -⟩ | hset := hd
    · exact h.idle hc
    · exact hset.idle hc
  · intro x
    by_cases hx : x = s.running
    · rw [hx, hself]
      exact ha
    · rw [Function.update_of_ne hx]
      exact h.nested x
  · by_cases hx : none = s.running
    · rw [hx, hself, husable, ← hx]
      exact h.worker
    · rw [Function.update_of_ne hx]
      exact h.worker
  · rw [husable]
    exact h.created
  · exact hn
  · intro x hx
    rw [Function.update_of_ne hx]
    exact h.others x hx

theorem Invariant.create (h : Invariant c m s) {k : κ} {block : Context.Stack 32}
    (hok : Allowed c s (.create k block)) :
    ∃ t, create c k block s = some t ∧ Invariant c m t := by
  obtain ⟨hnone, hp, hfit, hdvd, hsize⟩ := hok
  obtain ⟨guard, usable, halign, hnested, -⟩ := stackAlign_spec (c := c) hp hfit hdvd hsize
  have hk : s.running ≠ some k := by
    intro hrunning
    exact h.created (by rw [hrunning]; simp) (by rw [hrunning]; exact hnone)
  exact ⟨_, by rw [StackGuard.create, halign]; rfl, h.setContext hk hnested rfl⟩

theorem Invariant.switchTo (hm : m.dregion.toNat ≤ 16) (h : Invariant c m s) {x : Option κ}
    (hok : Allowed c s (.switchTo x)) :
    ∃ t, switchTo c x s = some t ∧ Invariant c m t := by
  by_cases hdisabled : s.disableContextSwitch ≠ 0
  · exact ⟨s, if_pos hdisabled, h⟩
  by_cases hx : x = s.running
  · exact ⟨s, by rw [StackGuard.switchTo, if_neg hdisabled, if_pos hx], h⟩
  have hzero := not_not.1 hdisabled
  have hmsp : ∀ y, (s.contexts y).frames.countP Frame.isMsp = 0 := by
    intro y
    by_cases hy : y = s.running
    · rw [hy, ← h.switching, hzero]
    · exact h.others y hy
  obtain ⟨d, hd, hset⟩ := stackGuard_spec (s := { s with running := x }) hm x h.ready h.idle
    (h.nested x).guard_aligned
  refine ⟨_, by rw [StackGuard.switchTo, if_neg hdisabled, if_neg hx]; exact hd, ?_⟩
  exact {
    device := fun hc => Or.inr (hset.device hc)
    idle := hset.idle
    nested := h.nested
    worker := h.worker
    created := fun hne => hok.resolve_left hne
    switching := by rw [hmsp]; exact hzero
    others := fun y _ => hmsp y }

theorem Invariant.stackSwitch (hm : m.dregion.toNat ≤ 16) (h : Invariant c m s)
    {stack size : BitVec 32} (hok : Allowed c s (.stackSwitch stack size)) :
    ∃ t, stackSwitch c stack size s = some t ∧ Invariant c m t := by
  rw [StackGuard.stackSwitch]
  split
  · rename_i hrunning
    refine ⟨_, rfl, ?_⟩
    have hupdate := h.update ((h.nested s.running).direct (by rw [hrunning]; exact h.worker)) rfl
      (d := s.device) (n := s.disableContextSwitch) (by rw [h.switching]; rfl) (Or.inl ⟨rfl, rfl⟩)
    rw [hrunning] at hupdate
    exact hupdate
  rename_i hrunning
  have hp := h.created hrunning
  split
  · exact ⟨_, rfl, h.update ((h.nested s.running).msp hp) rfl
      (by rw [h.switching, List.countP_cons_of_pos rfl]) (Or.inl ⟨rfl, rfl⟩)⟩
  split
  · rename_i guard hguard
    obtain ⟨d, hd, hset⟩ := stackGuard_spec (s := setGuard s.running guard s) hm s.running h.ready
      h.idle (by simpa [setGuard, State.setContext] using guard_aligned hguard)
    rw [hd]
    refine ⟨_, rfl, ?_⟩
    have hupdate := h.update ((h.nested s.running).psp hp hok hguard) rfl (d := d)
      (n := s.disableContextSwitch) (by rw [h.switching]; rfl)
      (Or.inr (by simpa [setGuard, State.setContext] using hset))
    simpa [pushFrame, setGuard, State.setContext] using hupdate
  · rename_i hguard
    exact ⟨_, rfl, h.update ((h.nested s.running).psp_small hp hok hguard) rfl
      (by rw [h.switching]; rfl) (Or.inl ⟨rfl, rfl⟩)⟩

theorem Invariant.ret (hm : m.dregion.toNat ≤ 16) (h : Invariant c m s)
    (hok : Allowed c s (.ret : Action κ)) : ∃ t, ret c s = some t ∧ Invariant c m t := by
  have hnested := h.nested s.running
  have hguard := hnested.guard
  have hcount := h.switching
  rw [StackGuard.ret]
  cases hframes : (s.contexts s.running).frames with
  | nil => exact absurd hframes hok
  | cons f fs =>
      rw [hframes] at hguard hcount
      cases f with
      | direct =>
          refine ⟨_, rfl, ?_⟩
          have hupdate := h.update (hnested.tail hframes hguard) rfl (d := s.device)
            (n := s.disableContextSwitch) hcount (Or.inl ⟨rfl, rfl⟩)
          simpa [popFrame, State.setContext, hframes] using hupdate
      | msp =>
          rw [List.countP_cons_of_pos rfl] at hcount
          refine ⟨_, if_neg (by omega), ?_⟩
          have hupdate := h.update (hnested.tail hframes hguard) rfl (d := s.device)
            (n := s.disableContextSwitch - 1) (by dsimp only; omega) (Or.inl ⟨rfl, rfl⟩)
          simpa [popFrame, State.setContext, hframes] using hupdate
      | psp stack size prevGuard =>
          have hprev := hnested.prevGuard hframes
          dsimp only
          by_cases hne : prevGuard ≠ 0
          · rw [if_pos hne] at hprev ⊢
            have htail := hnested.tail hframes hprev
            obtain ⟨d, hd, hset⟩ := stackGuard_spec
              (s := setGuard s.running prevGuard (popFrame s.running s)) hm s.running h.ready
              h.idle (by simpa [setGuard, State.setContext] using htail.guard_aligned)
            refine ⟨_, hd, ?_⟩
            have hupdate := h.update htail rfl (d := d) (n := s.disableContextSwitch) hcount
              (Or.inr (by simpa [setGuard, State.setContext] using hset))
            simpa [popFrame, setGuard, State.setContext, hframes] using hupdate
          · rw [if_neg hne] at hprev ⊢
            refine ⟨_, rfl, ?_⟩
            have hupdate := h.update (hnested.tail hframes hprev) rfl (d := s.device)
              (n := s.disableContextSwitch) hcount (Or.inl ⟨rfl, rfl⟩)
            simpa [popFrame, State.setContext, hframes] using hupdate

/-- While the stack is read there is no guard, and afterwards the same one as before. -/
theorem Invariant.contextStackUsage (hm : m.dregion.toNat ≤ 16) (h : Invariant c m s)
    (x : Option κ) : ∃ t, contextStackUsage c x s = some t ∧ Invariant c m t := by
  rw [StackGuard.contextStackUsage]
  split
  · exact ⟨s, rfl, h⟩
  rename_i hcurrent
  obtain ⟨-, hx⟩ : x ≠ none ∧ s.running = x := by
    constructor
    · rintro rfl
      simp at hcurrent
    · by_contra hne
      simp [hne] at hcurrent
  subst hx
  have hself : s.setContext s.running (s.contexts s.running) = s := by
    simp [State.setContext]
  obtain ⟨d, hd, hset⟩ := stackGuard_spec (s := setGuard s.running 0 s) hm s.running h.ready h.idle
    (by simp [setGuard, State.setContext])
  rw [hd]
  simp only [Option.bind_some]
  split
  · obtain ⟨d', hd', hset'⟩ := stackGuard_spec
      (s := setGuard s.running (s.contexts s.running).guard
        { setGuard s.running 0 s with device := d }) hm s.running
      (fun hc => Or.inr ⟨_, hset.device hc⟩) hset.idle
      (by simpa [setGuard, State.setContext] using (h.nested s.running).guard_aligned)
    refine ⟨_, hd', ?_⟩
    have hupdate := h.update (h.nested s.running) rfl (d := d') h.switching
      (Or.inr (by simpa [setGuard, State.setContext] using hset'))
    rw [hself] at hupdate
    simpa [setGuard, State.setContext] using hupdate
  · rename_i hzero
    have hguard : (s.contexts s.running).guard = 0 := not_not.1 hzero
    have hkeep : setGuard s.running 0 s = s := by
      rw [← hguard]
      exact hself
    rw [hkeep] at hset ⊢
    refine ⟨_, rfl, ?_⟩
    have hupdate := h.update (h.nested s.running) rfl (d := d) h.switching (Or.inr hset)
    rw [hself] at hupdate
    exact hupdate

theorem Invariant.step (hm : m.dregion.toNat ≤ 16) (h : Invariant c m s) {a : Action κ}
    (hok : Allowed c s a) : ∃ t, step c s a = some t ∧ Invariant c m t := by
  cases a with
  | create k block => exact h.create hok
  | destroy k => exact ⟨_, rfl, h.setContext hok nested_stackless rfl⟩
  | switchTo x => exact h.switchTo hm hok
  | stackSwitch stack size => exact h.stackSwitch hm hok
  | ret => exact h.ret hm hok
  | stackUsage x => exact h.contextStackUsage hm x

/-- What the running code finds: the one region that was free denies exactly the guard of the
innermost stack that it is on, unless a sub-region of it was disabled, and the others are as they
were. The guard of a fiber is right
below its stack, in the block of it. Contexts are not switched exactly while a call is in progress
on the stack of the worker. -/
structure Follows (c : Config) (m : Mpu) (s : State κ) : Prop where
  denied : c.active = true → freeRegion m ≠ 0 → (m.regions (freeRegion m)).srd = 0 →
    s.running ≠ none →
    s.device.mpu.enable = true ∧
    ∀ a, (s.device.mpu.regions (freeRegion m)).Denies a ↔
      (innermost c ((s.contexts s.running).ownGuard c) (s.contexts s.running).frames).toNat ≤
          a.toNat ∧
        a.toNat < (innermost c ((s.contexts s.running).ownGuard c)
          (s.contexts s.running).frames).toNat + stackGuardSize.toNat
  regions : ∀ r, r ≠ freeRegion m ∨ r = 0 → s.device.mpu.regions r = m.regions r
  own : c.enableStackGuard = true → s.running ≠ none →
    ((s.contexts s.running).ownGuard c).toNat + stackGuardSize.toNat =
        (s.contexts s.running).usable.p.toNat ∧
      (⟨(s.contexts s.running).ownGuard c, stackGuardSize⟩ : Context.Stack 32).Within
        (s.contexts s.running).stack
  switching : s.disableContextSwitch = 0 ↔ ∀ x, Frame.msp ∉ (s.contexts x).frames

theorem countP_isMsp_eq_zero {fs : List Frame} :
    fs.countP Frame.isMsp = 0 ↔ Frame.msp ∉ fs := by
  rw [List.countP_eq_zero]
  constructor
  · exact fun h hmem => h _ hmem rfl
  · intro h f hf hmsp
    cases f with
    | direct => cases hmsp
    | msp => exact h hf
    | psp stack size prevGuard => cases hmsp

theorem Invariant.follows (h : Invariant c m s) : Follows c m s := by
  constructor
  · intro hc hfree hsrd hrunning
    have henable : c.enableStackGuard = true := (Bool.and_eq_true_iff.1 hc).1
    have hnested := h.nested s.running
    have hprog := (h.device hc).resolve_left fun hstart => hrunning hstart.1
    refine ⟨hprog.enable hfree, fun a => ?_⟩
    rw [hprog.regions, withGuard, if_neg hfree, Function.update_self, hsrd, hnested.guard]
    exact denies_guardRegion (innermost_aligned hnested.aligned _)
      (innermost_ne_zero (hnested.ne henable (h.created hrunning)) _ hnested.saved) a
  · intro r hr
    cases hc : c.active with
    | false => rw [h.idle hc]
    | true =>
        obtain ⟨-, hstart⟩ | hprog := h.device hc
        · rw [hstart]
        · rw [hprog.regions, withGuard]
          split
          · rfl
          · rename_i hfree
            rw [Function.update_of_ne]
            rintro rfl
            exact hr.elim (fun hne => hne rfl) hfree
  · intro henable hrunning
    have hnested := h.nested s.running
    exact ⟨hnested.below henable (h.created hrunning), hnested.within henable (h.created hrunning)⟩
  · rw [h.switching, countP_isMsp_eq_zero]
    constructor
    · intro hmsp x
      by_cases hx : x = s.running
      · rw [hx]
        exact hmsp
      · exact countP_isMsp_eq_zero.1 (h.others x hx)
    · exact fun hmsp => hmsp s.running

/-- However contexts are created, switched and destroyed, and whatever stacks are switched to in
between, no assertion fails and the guard follows the running context. -/
theorem guard_follows (c : Config) (m : Mpu) (hm : m.dregion.toNat ≤ 16) (as : List (Action κ))
    (has : Transition.Guarded (StackGuard.step c) (Allowed c) (start m) as) :
    ∃ t, Transition.run (StackGuard.step c) (start m) as = some t ∧ Follows c m t := by
  obtain ⟨t, ht, hinv⟩ := has.exists_run_invariant (P := Invariant c m)
    (fun _ _ h hok => h.step hm hok) (invariant_start c m)
  exact ⟨t, ht, hinv.follows⟩

end Runs

/-- A unit of eight regions, the last of which is in use. -/
def eightRegions : Mpu := ⟨8, 0, fun r => ⟨0, 0, 0, 0, decide (r = 7)⟩, false, false⟩

/-- Two fibers, one of which is on another stack when the other one runs. -/
def switched : List (Action Bool) :=
  [.create false ⟨0x20000000, 256⟩, .create true ⟨0x20000101, 256⟩, .switchTo (some false),
    .stackSwitch 0x20001000 512, .switchTo (some true), .stackUsage (some true),
    .stackSwitch 0 0, .switchTo none, .ret, .switchTo (some false), .ret]

theorem guard_follows_switched :
    ∃ t, Transition.run (step ⟨true, false, true, true⟩) (start eightRegions) switched = some t ∧
      Follows ⟨true, false, true, true⟩ eightRegions t :=
  guard_follows ⟨true, false, true, true⟩ eightRegions (by decide) switched (by decide +kernel)

end StackGuard

end Zth
