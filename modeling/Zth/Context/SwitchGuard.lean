import Zth.Library.Rounding

/-!
# The guard of a stack that is switched to

On an ARM with a memory protection unit, `stack_switch` calls a function on another stack,
with a guard of 32 bytes at its lower end. The guard has to be aligned, so its address is
rounded up, and one size of a guard is kept below it. The size that a stack needs for that is
tested without regard to what the rounding takes.

Addresses have 32 bits. Places in a stack are distances from its start.
-/

namespace Zth

namespace SwitchGuard

open Rounding

/-- `ZTH_ARM_STACK_GUARD_SIZE` -/
def stackGuardSize : BitVec 32 := 1 <<< 5

/-- The size of a word of the stack. -/
def wordSize : ℕ := 4

/-- What `stack_switch` sets before it calls the function: the stack pointer, unless the stack of
the worker is used, and the guard. -/
structure Switch where
  sp : Option (BitVec 32)
  guard : Option (BitVec 32)
deriving DecidableEq, Repr

def stackSwitch (enableStackGuard : Bool) (stack size : BitVec 32) : Switch :=
  if stack = 0 then ⟨none, none⟩
  else
    ⟨some (down 8 (stack + size)),
      if enableStackGuard && decide (stackGuardSize * 2 ≤ size) then
        some (down stackGuardSize (stack + 2 * stackGuardSize - 1))
      else none⟩

/-- The guard is in the stack, and below the stack pointer by at least one word. -/
structure InStack (stack size sp guard : BitVec 32) : Prop where
  inside : (guard - stack).toNat + stackGuardSize.toNat ≤ size.toNat
  below : (guard - stack).toNat + stackGuardSize.toNat + wordSize ≤ (sp - stack).toNat

/-- Whatever guard is set is in the stack. -/
def GuardInStack (s : Switch) (stack size : BitVec 32) : Prop :=
  ∀ sp guard, s.sp = some sp → s.guard = some guard → InStack stack size sp guard

/-- The guard is from 32 to 63 bytes above the start, as the start is aligned. -/
theorem guard_offset (stack : BitVec 32) :
    (down stackGuardSize (stack + 2 * stackGuardSize - 1) - stack).toNat =
      if stack.toNat % 32 = 0 then 32 else 64 - stack.toNat % 32 := by
  have hadd : (stack + 2 * stackGuardSize - 1).toNat = (stack.toNat + 63) % 2 ^ 32 := by
    have hsum : stack + 2 * stackGuardSize - 1 = stack + 63 := by
      rw [BitVec.sub_eq_add_neg, BitVec.add_assoc]
      rfl
    rw [hsum]
    rfl
  have hsize : stackGuardSize.toNat = 2 ^ 5 := rfl
  have hlt := stack.isLt
  rw [BitVec.toNat_sub, toNat_down hsize, hadd, hsize]
  split <;> omega

/-- The stack pointer is at most 7 bytes below the end. -/
theorem sp_offset {stack size : BitVec 32} (hsize : 64 ≤ size.toNat) :
    (down 8 (stack + size) - stack).toNat = size.toNat - (stack.toNat + size.toNat) % 8 := by
  have height : (8 : BitVec 32).toNat = 2 ^ 3 := rfl
  have hlt := stack.isLt
  have hlt' := size.isLt
  rw [BitVec.toNat_sub, toNat_down height, BitVec.toNat_add, height]
  omega

theorem stackSwitch_of_ne {enableStackGuard : Bool} {stack size : BitVec 32} (h : stack ≠ 0) :
    stackSwitch enableStackGuard stack size =
      ⟨some (down 8 (stack + size)),
        if enableStackGuard && decide (stackGuardSize * 2 ≤ size) then
          some (down stackGuardSize (stack + 2 * stackGuardSize - 1))
        else none⟩ := if_neg h

theorem guard_eq_some {enableStackGuard : Bool} {stack size guard : BitVec 32}
    (h : (stackSwitch enableStackGuard stack size).guard = some guard) :
    enableStackGuard = true ∧ stack ≠ 0 ∧ 64 ≤ size.toNat ∧
      guard = down stackGuardSize (stack + 2 * stackGuardSize - 1) := by
  rw [stackSwitch] at h
  split at h
  · cases h
  · rename_i hstack
    obtain ⟨hsize, hguard⟩ := Option.ite_none_right_eq_some.1 h
    rw [Bool.and_eq_true, decide_eq_true_iff] at hsize
    exact ⟨hsize.1, hstack, hsize.2, (Option.some.inj hguard).symm⟩

/-- A guard that is set is in the stack if and only if the stack has room for what the alignment
takes, the guard, and 8 bytes above it. -/
theorem guardInStack_iff (enableStackGuard : Bool) (stack size : BitVec 32) :
    GuardInStack (stackSwitch enableStackGuard stack size) stack size ↔
      enableStackGuard = false ∨ stack = 0 ∨ size.toNat < 64 ∨
        if stack.toNat % 32 = 0 then 72 ≤ size.toNat
        else 104 ≤ stack.toNat % 32 + size.toNat := by
  constructor
  · intro h
    by_cases hset : enableStackGuard = true ∧ stack ≠ 0 ∧ 64 ≤ size.toNat
    · obtain ⟨rfl, hstack, hsize⟩ := hset
      have hle : stackGuardSize * 2 ≤ size := hsize
      have hin := h (down 8 (stack + size))
        (down stackGuardSize (stack + 2 * stackGuardSize - 1))
        (by rw [stackSwitch_of_ne hstack])
        (by rw [stackSwitch_of_ne hstack]; exact if_pos (decide_eq_true hle))
      have hbelow := hin.below
      have hguard : stackGuardSize.toNat = 32 := rfl
      rw [guard_offset, sp_offset hsize, hguard, wordSize] at hbelow
      right; right; right
      split at hbelow <;> rename_i hmod <;> simp only [hmod, if_true, if_false] <;> omega
    · rw [not_and_or, not_and_or, Bool.not_eq_true, not_not, Nat.not_le] at hset
      obtain hset | hset | hset := hset
      · exact Or.inl hset
      · exact Or.inr (Or.inl hset)
      · exact Or.inr (Or.inr (Or.inl hset))
  · intro h sp guard hsp hguard
    obtain ⟨henable, hstack, hsize, rfl⟩ := guard_eq_some hguard
    rw [stackSwitch_of_ne hstack] at hsp
    obtain rfl := Option.some.inj hsp
    have hroom : if stack.toNat % 32 = 0 then 72 ≤ size.toNat
        else 104 ≤ stack.toNat % 32 + size.toNat := by
      obtain h | h | h | h := h
      · rw [henable] at h
        cases h
      · exact absurd h hstack
      · omega
      · exact h
    have hguardSize : stackGuardSize.toNat = 32 := rfl
    constructor
    · rw [guard_offset, hguardSize]
      split at hroom <;> rename_i hmod <;> simp only [hmod, if_true, if_false] <;> omega
    · rw [guard_offset, sp_offset hsize, hguardSize, wordSize]
      split at hroom <;> rename_i hmod <;> simp only [hmod, if_true, if_false] <;> omega

/-- An aligned stack of the least size for which a guard is set: the guard is all that there is
between the stack pointer and the 32 bytes at the start. -/
theorem not_guardInStack_least :
    ¬ GuardInStack (stackSwitch true 0x20000000 64) 0x20000000 64 := by
  intro h
  exact absurd (h 0x20000040 0x20000020 rfl rfl).below (by decide)

/-- A stack that starts right behind an aligned address: the guard ends behind its end. -/
example : ¬ InStack 0x20000001 64 0x20000040 0x20000040 := fun h => absurd h.inside (by decide)

end SwitchGuard

end Zth
