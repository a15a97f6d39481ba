import Zth.Library.Memory
import Zth.Library.Rounding

/-!
# The high-water mark of a stack

`stack_watermark_init` fills a stack with marker words, above a header that keeps the size of
what is marked. The number of markers that are left from the lower end on tells how much of the
stack was never used. The header is aligned, so it starts at the first aligned address in the
stack.

A `size_t` has `2 ^ k` bytes, and an address has as many. The stack is taken to grow down.
-/

namespace Zth

namespace Watermark

open Memory Rounding

variable {k : ℕ}

/-- `size_t` and `uintptr_t` -/
abbrev Size (k : ℕ) := BitVec (8 * 2 ^ k)

def sizeofSize (k : ℕ) : Size k := BitVec.ofNat _ (2 ^ k)

/-- `sizeof(uint64_t)` -/
def sizeofWord (k : ℕ) : Size k := BitVec.ofNat _ 8

/-- `ZTH_STACK_WATERMARKER` -/
def watermarker : ℕ := 0x5a7468574de2889e

/-- What `stack_watermark_align` sets. -/
structure Aligned (k : ℕ) where
  stack : Size k
  sizeptr : Size k
  size : Size k

/-- A caller without a size passes 0, and does not look at the reduced one. -/
def stackWatermarkAlign (stack size : Size k) : Aligned k :=
  if stack = 0 then ⟨stack, 0, size⟩
  else
    let stack_ := up (sizeofSize k) stack
    ⟨stack_ + sizeofSize k, stack_, size - (stack_ + sizeofSize k - stack)⟩

/-- The reasons for which `stack_watermark_init` does not return: an access outside of the memory,
or a loop that takes longer than it was given. -/
inductive Stop where
  | fault
  | fuel
deriving DecidableEq, Repr

/-- The loop of `stack_watermark_init` -/
def markLoop (stack size : Size k) : ℕ → Size k → Mem (8 * 2 ^ k) → Except Stop (Mem (8 * 2 ^ k))
  | 0, _, _ => .error .fuel
  | fuel + 1, i, m =>
      if i * sizeofWord k ≤ size - sizeofWord k then
        match store m (stack + i * sizeofWord k) 8 watermarker with
        | some m => markLoop stack size fuel (i + 1) m
        | none => .error .fault
      else .ok m

def stackWatermarkInit (enableStackWaterMark : Bool) (fuel : ℕ) (stack size : Size k)
    (m : Mem (8 * 2 ^ k)) : Except Stop (Mem (8 * 2 ^ k)) :=
  if enableStackWaterMark = false ∨ stack = 0 ∨ size = 0 then .ok m
  else
    let a := stackWatermarkAlign stack size
    match store m a.sizeptr (2 ^ k) a.size.toNat with
    | some m => markLoop a.stack a.size fuel 0 m
    | none => .error .fault

/-- The part of a stack that is taken for the header, with what is skipped to align it. -/
def headerRoom (stack : Size k) : ℕ := 2 ^ k - 1 - (stack.toNat + (2 ^ k - 1)) % 2 ^ k + 2 ^ k

/-- The initialization stays within the stack: what it takes for the header fits, and it returns
although there is no memory besides the stack. -/
structure StaysWithin (enableStackWaterMark : Bool) (stack size : Size k) : Prop where
  header : enableStackWaterMark = true → stack ≠ 0 → size ≠ 0 →
    (stackWatermarkAlign stack size).stack - stack ≤ size
  returns : ∀ m, Maps m stack size.toNat →
    ∃ fuel m', stackWatermarkInit enableStackWaterMark fuel stack size m = .ok m'

/-- A memory that has nothing but zeros in a block. -/
def block (stack : Size k) (n : ℕ) : Mem (8 * 2 ^ k) := fun b =>
  if (b - stack).toNat < n then some 0 else none

theorem maps_block (stack : Size k) (n : ℕ) : Maps (block stack n) stack n := by
  intro b
  rw [block]
  split
  · exact iff_of_true rfl ‹_›
  · exact iff_of_false Bool.false_ne_true ‹_›

theorem toNat_sizeofSize (k : ℕ) : (sizeofSize k).toNat = 2 ^ k := by
  rw [sizeofSize, BitVec.toNat_ofNat, Nat.mod_eq_of_lt]
  apply Nat.pow_lt_pow_right (by decide)
  have hlt := Nat.lt_two_pow_self (n := k)
  omega

/-- There are words in the memory. -/
theorem words_dvd (k : ℕ) : 256 ∣ 2 ^ (8 * 2 ^ k) := by
  have hpos := Nat.two_pow_pos k
  exact Nat.pow_dvd_pow 2 (show 8 ≤ 8 * 2 ^ k by omega)

theorem le_memory (k : ℕ) : 256 ≤ 2 ^ (8 * 2 ^ k) :=
  Nat.le_of_dvd (Nat.two_pow_pos _) (words_dvd k)

theorem toNat_sizeofWord (k : ℕ) : (sizeofWord k).toNat = 8 := by
  have hle := le_memory k
  rw [sizeofWord, BitVec.toNat_ofNat, Nat.mod_eq_of_lt (by omega)]

theorem headerRoom_le (stack : Size k) : headerRoom stack < 2 * 2 ^ k := by
  have hpos := Nat.two_pow_pos k
  rw [headerRoom]
  omega

theorem two_mul_sizeof_le (k : ℕ) : 2 * 2 ^ k ≤ 2 ^ (8 * 2 ^ k) := by
  rw [← Nat.pow_succ']
  apply Nat.pow_le_pow_right (by decide)
  have hlt := Nat.lt_two_pow_self (n := k)
  omega

theorem le_headerRoom (stack : Size k) : 2 ^ k ≤ headerRoom stack := Nat.le_add_left _ _

/-- The header is right below what is marked. -/
theorem toNat_sizeptr_sub {stack : Size k} (hstack : stack ≠ 0) (size : Size k) :
    ((stackWatermarkAlign stack size).sizeptr - stack).toNat = headerRoom stack - 2 ^ k := by
  rw [stackWatermarkAlign, if_neg hstack]
  dsimp only
  rw [toNat_up_sub (toNat_sizeofSize k), toNat_sizeofSize, headerRoom, Nat.add_sub_cancel]

theorem toNat_stack_sub {stack : Size k} (hstack : stack ≠ 0) (size : Size k) :
    ((stackWatermarkAlign stack size).stack - stack).toNat = headerRoom stack := by
  have hptr := toNat_sizeptr_sub hstack size
  have hle := le_headerRoom stack
  have hlt := headerRoom_le stack
  have hmem := two_mul_sizeof_le k
  rw [stackWatermarkAlign, if_neg hstack] at hptr ⊢
  dsimp only at hptr ⊢
  have hcomm : up (sizeofSize k) stack + sizeofSize k - stack =
      up (sizeofSize k) stack - stack + sizeofSize k := by
    rw [BitVec.sub_eq_add_neg, BitVec.sub_eq_add_neg, BitVec.add_assoc, BitVec.add_assoc,
      BitVec.add_comm (sizeofSize k)]
  rw [hcomm, BitVec.toNat_add, hptr, toNat_sizeofSize, Nat.sub_add_cancel hle,
    Nat.mod_eq_of_lt (Nat.lt_of_lt_of_le hlt hmem)]

/-- The size without the header. -/
theorem size_eq {stack : Size k} (hstack : stack ≠ 0) (size : Size k) :
    (stackWatermarkAlign stack size).size =
      size - ((stackWatermarkAlign stack size).stack - stack) := by
  rw [stackWatermarkAlign, if_neg hstack]

theorem toNat_size {stack size : Size k} (hstack : stack ≠ 0)
    (hroom : headerRoom stack ≤ size.toNat) :
    (stackWatermarkAlign stack size).size.toNat = size.toNat - headerRoom stack := by
  rw [size_eq hstack, BitVec.toNat_sub_of_le, toNat_stack_sub hstack]
  rw [BitVec.le_def, toNat_stack_sub hstack]
  exact hroom

/-- The distance between two places in a stack. -/
theorem toNat_index_mul (i : Size k) :
    (i * sizeofWord k).toNat = 8 * i.toNat % 2 ^ (8 * 2 ^ k) := by
  rw [BitVec.toNat_mul, toNat_sizeofWord, Nat.mul_comm]

/-- A multiple of the word size is never above the bound of the loop if that has wrapped. -/
theorem index_le_of_lt {size : Size k} (hsize : size.toNat < 8) (i : Size k) :
    i * sizeofWord k ≤ size - sizeofWord k := by
  obtain ⟨q, hq⟩ := words_dvd k
  have hmod := Nat.mod_lt (8 * i.toNat) (Nat.two_pow_pos (8 * 2 ^ k))
  rw [BitVec.le_def, toNat_index_mul, BitVec.toNat_sub, toNat_sizeofWord]
  rw [hq] at hmod ⊢
  rw [Nat.mod_eq_of_lt (show 256 * q - 8 + size.toNat < 256 * q by omega),
    show 256 * q = 8 * (32 * q) by omega, Nat.mul_mod_mul_left]
  rw [show 256 * q = 8 * (32 * q) by omega, Nat.mul_mod_mul_left] at hmod
  omega

/-- The loop does not return if the stack has no room for one word. -/
theorem markLoop_ne_ok {stack size : Size k} (hsize : size.toNat < 8) (fuel : ℕ) (i : Size k)
    (m m' : Mem (8 * 2 ^ k)) : markLoop stack size fuel i m ≠ .ok m' := by
  induction fuel generalizing i m with
  | zero =>
      intro h
      cases h
  | succ fuel ih =>
      rw [markLoop, if_pos (index_le_of_lt hsize i)]
      split
      · exact ih _ _
      · intro h
        cases h

/-- A place that is not in a word is not reached by its bytes. -/
theorem le_toNat_sub_word {a b : Size k} {j : ℕ} (hj : 8 * j + 8 ≤ 2 ^ (8 * 2 ^ k))
    (hout : (b - a).toNat < 8 * j ∨ 8 * j + 8 ≤ (b - a).toNat) :
    8 ≤ (b - (a + BitVec.ofNat _ (8 * j))).toNat := by
  have hsub := toNat_add_sub_add a (b - a).isLt (show 8 * j < 2 ^ (8 * 2 ^ k) by omega)
  rw [add_toNat_sub] at hsub
  rw [hsub]
  split <;> omega

theorem index_mul_eq (j : ℕ) :
    (BitVec.ofNat _ j : Size k) * sizeofWord k = BitVec.ofNat _ (8 * j) := by
  rw [sizeofWord, ← BitVec.ofNat_mul, Nat.mul_comm j]

theorem index_add_one (j : ℕ) : (BitVec.ofNat _ j : Size k) + 1 = BitVec.ofNat _ (j + 1) :=
  (BitVec.ofNat_add j 1).symm

/-- The words of a block of memory. -/
def HasWords (m : Mem (8 * 2 ^ k)) (a : Size k) (n : ℕ) : Prop :=
  ∀ i < 8 * n, (m (a + BitVec.ofNat _ i)).isSome

theorem HasWords.word {m : Mem (8 * 2 ^ k)} {a : Size k} {n j : ℕ} (h : HasWords m a n)
    (hj : j < n) : ∀ i < 8, (m (a + BitVec.ofNat _ (8 * j) + BitVec.ofNat _ i)).isSome := by
  intro i hi
  rw [BitVec.add_assoc, ← BitVec.ofNat_add]
  exact h _ (by omega)

/-- The loop marks the words from an index on, and nothing else. -/
theorem markLoop_eq {stack size : Size k} (hsize : 8 ≤ size.toNat) {fuel j : ℕ}
    {m : Mem (8 * 2 ^ k)} (hj : j ≤ size.toNat / 8) (hfuel : size.toNat / 8 < fuel + j)
    (hmem : HasWords m stack (size.toNat / 8)) :
    ∃ m', markLoop stack size fuel (BitVec.ofNat _ j) m = .ok m' ∧
      (∀ b, (m' b).isSome ↔ (m b).isSome) ∧
      (∀ b, (b - stack).toNat < 8 * j ∨ 8 * (size.toNat / 8) ≤ (b - stack).toNat → m' b = m b) ∧
      ∀ i, j ≤ i → i < size.toNat / 8 →
        load m' (stack + BitVec.ofNat _ (8 * i)) 8 = some watermarker := by
  have hlt := size.isLt
  induction fuel generalizing j m with
  | zero => omega
  | succ fuel ih =>
      have hbound : BitVec.ofNat _ j * sizeofWord k ≤ size - sizeofWord k ↔
          j < size.toNat / 8 := by
        rw [BitVec.le_def, toNat_index_mul, BitVec.toNat_ofNat, BitVec.toNat_sub_of_le,
          toNat_sizeofWord, Nat.mod_eq_of_lt (show j < 2 ^ (8 * 2 ^ k) by omega),
          Nat.mod_eq_of_lt (by omega)]
        · omega
        · rw [BitVec.le_def, toNat_sizeofWord]
          exact hsize
      obtain rfl | hj := Nat.eq_or_lt_of_le hj
      · rw [markLoop, if_neg (by rw [hbound]; omega)]
        exact ⟨m, rfl, fun b => Iff.rfl, fun b _ => rfl, fun i _ _ => by omega⟩
      · rw [markLoop, if_pos (hbound.2 hj), index_mul_eq]
        obtain ⟨m1, hstore⟩ := exists_store (hmem.word hj) watermarker
        rw [hstore, index_add_one]
        dsimp only
        obtain ⟨m', hok, hmaps, hkeep, hmark⟩ := ih (m := m1) hj (by omega) (by
          intro i hi
          rw [isSome_store hstore]
          exact hmem i hi)
        refine ⟨m', hok, fun b => (hmaps b).trans (isSome_store hstore b), ?_, ?_⟩
        · intro b hout
          rw [hkeep b (by omega)]
          exact store_of_le hstore (le_toNat_sub_word (by omega) (by omega))
        · intro i hi hi'
          obtain rfl | hi := Nat.eq_or_lt_of_le hi
          · -- the words above do not touch this one
            rw [← load_store (by have := le_memory k; omega) (by decide) hstore]
            apply load_congr
            intro e he
            apply hkeep
            rw [BitVec.add_assoc, ← BitVec.ofNat_add, toNat_add_sub stack (by omega)]
            omega
          · exact hmark i hi hi'

/-- The header starts where the address is aligned. -/
theorem sizeptr_eq {stack : Size k} (hstack : stack ≠ 0) (size : Size k) :
    (stackWatermarkAlign stack size).sizeptr =
      stack + BitVec.ofNat _ (headerRoom stack - 2 ^ k) := by
  rw [← toNat_sizeptr_sub hstack size, add_toNat_sub]

theorem stack_eq {stack : Size k} (hstack : stack ≠ 0) (size : Size k) :
    (stackWatermarkAlign stack size).stack = stack + BitVec.ofNat _ (headerRoom stack) := by
  rw [← toNat_stack_sub hstack size, add_toNat_sub]

/-- The bytes of the header. -/
theorem isSome_header {stack size : Size k} {m : Mem (8 * 2 ^ k)} (hstack : stack ≠ 0)
    (hroom : headerRoom stack ≤ size.toNat) (hm : Maps m stack size.toNat) :
    ∀ i < 2 ^ k, (m ((stackWatermarkAlign stack size).sizeptr + BitVec.ofNat _ i)).isSome := by
  intro i hi
  have hle := le_headerRoom stack
  rw [sizeptr_eq hstack, BitVec.add_assoc, ← BitVec.ofNat_add]
  exact hm.isSome (by omega) size.isLt.le

/-- The words above the header. -/
theorem hasWords_stack {stack size : Size k} {m : Mem (8 * 2 ^ k)} (hstack : stack ≠ 0)
    (hroom : headerRoom stack ≤ size.toNat) (hm : Maps m stack size.toNat) :
    HasWords m (stackWatermarkAlign stack size).stack
      ((stackWatermarkAlign stack size).size.toNat / 8) := by
  intro i hi
  rw [toNat_size hstack hroom] at hi
  rw [stack_eq hstack, BitVec.add_assoc, ← BitVec.ofNat_add]
  exact hm.isSome (by omega) size.isLt.le

/-- The header is below all words. -/
theorem le_header_sub {stack size : Size k} (hstack : stack ≠ 0)
    (hroom : headerRoom stack ≤ size.toNat) {i : ℕ} (hi : i < 2 ^ k) :
    size.toNat - headerRoom stack ≤
      ((stackWatermarkAlign stack size).sizeptr + BitVec.ofNat _ i -
        (stackWatermarkAlign stack size).stack).toNat := by
  have hlt := size.isLt
  have hle := le_headerRoom stack
  rw [sizeptr_eq hstack, stack_eq hstack, BitVec.add_assoc, ← BitVec.ofNat_add,
    toNat_add_sub_add stack (by omega) (by omega), if_neg (by omega)]
  omega

theorem load_size {stack size : Size k} {m m' : Mem (8 * 2 ^ k)}
    (h : store m (stackWatermarkAlign stack size).sizeptr (2 ^ k)
      (stackWatermarkAlign stack size).size.toNat = some m') :
    load m' (stackWatermarkAlign stack size).sizeptr (2 ^ k) =
      some (stackWatermarkAlign stack size).size.toNat := by
  have hmem := two_mul_sizeof_le k
  apply load_store (by omega) ?_ h
  have hlt := (stackWatermarkAlign stack size).size.isLt
  rw [Nat.pow_mul] at hlt
  exact hlt

/-- What the initialization leaves in the stack: the size, and markers above it. -/
structure Initialized (stack size : Size k) (m : Mem (8 * 2 ^ k)) : Prop where
  maps : Maps m stack size.toNat
  header : load m (stackWatermarkAlign stack size).sizeptr (2 ^ k) =
    some (stackWatermarkAlign stack size).size.toNat
  words : ∀ i < (stackWatermarkAlign stack size).size.toNat / 8,
    load m ((stackWatermarkAlign stack size).stack + BitVec.ofNat _ (8 * i)) 8 = some watermarker

theorem not_off {stack size : Size k} (hstack : stack ≠ 0) (hsize : size ≠ 0) :
    ¬ (true = false ∨ stack = 0 ∨ size = 0) := by
  rintro (h | h | h)
  · cases h
  · exact hstack h
  · exact hsize h

theorem exists_stackWatermarkInit {stack size : Size k} {m : Mem (8 * 2 ^ k)} (hstack : stack ≠ 0)
    (hroom : headerRoom stack + 8 ≤ size.toNat) (hm : Maps m stack size.toNat) :
    ∃ fuel m', stackWatermarkInit true fuel stack size m = .ok m' ∧ Initialized stack size m' := by
  have hzero : size ≠ 0 := by
    rintro rfl
    rw [BitVec.ofNat_eq_ofNat, BitVec.toNat_ofNat, Nat.zero_mod] at hroom
    omega
  have hroom' : headerRoom stack ≤ size.toNat := by omega
  have hsize := toNat_size hstack hroom'
  obtain ⟨m1, hstore⟩ := exists_store (isSome_header hstack hroom' hm)
    (stackWatermarkAlign stack size).size.toNat
  have hm1 : Maps m1 stack size.toNat := hm.store hstore
  obtain ⟨m', hok, hmaps, hkeep, hwords⟩ := markLoop_eq (by omega) (Nat.zero_le _)
    (Nat.lt_succ_self _) (hasWords_stack hstack hroom' hm1)
  refine ⟨(stackWatermarkAlign stack size).size.toNat / 8 + 1, m', ?_,
    fun b => (hmaps b).trans (hm1 b), ?_, fun i => hwords i (Nat.zero_le i)⟩
  · rw [stackWatermarkInit, if_neg (not_off hstack hzero)]
    dsimp only
    rw [hstore]
    exact hok
  · rw [← load_size hstore]
    apply load_congr
    intro i hi
    apply hkeep
    right
    have hle := le_header_sub hstack hroom' hi
    omega

/-- The initialization does not return if the header leaves no room for a word. -/
theorem stackWatermarkInit_ne_ok {stack size : Size k} (hstack : stack ≠ 0) (hsize : size ≠ 0)
    (hle : headerRoom stack ≤ size.toNat) (hlt : size.toNat < headerRoom stack + 8) (fuel : ℕ)
    (m m' : Mem (8 * 2 ^ k)) : stackWatermarkInit true fuel stack size m ≠ .ok m' := by
  have hshort : (stackWatermarkAlign stack size).size.toNat < 8 := by
    rw [toNat_size hstack hle]
    omega
  rw [stackWatermarkInit, if_neg (not_off hstack hsize)]
  dsimp only
  split
  · exact markLoop_ne_ok hshort fuel 0 _ m'
  · intro h
    cases h

/-- The initialization stays within the stack exactly if there is room for the header and a word,
where it does anything at all. -/
theorem staysWithin_iff (enableStackWaterMark : Bool) (stack size : Size k) :
    StaysWithin enableStackWaterMark stack size ↔
      enableStackWaterMark = false ∨ stack = 0 ∨ size = 0 ∨
        headerRoom stack + 8 ≤ size.toNat := by
  by_cases hoff : enableStackWaterMark = false ∨ stack = 0 ∨ size = 0
  · have hnone : ∀ m, stackWatermarkInit enableStackWaterMark 0 stack size m = .ok m :=
      fun m => if_pos hoff
    apply iff_of_true
    · refine ⟨fun henable hstack hsize => ?_, fun m _ => ⟨0, m, hnone m⟩⟩
      rcases hoff with h | h | h
      · rw [h] at henable
        cases henable
      · exact absurd h hstack
      · exact absurd h hsize
    · tauto
  · push Not at hoff
    obtain ⟨henable, hstack, hsize⟩ := hoff
    rw [Bool.ne_false_iff] at henable
    subst henable
    have hwant : (true = false ∨ stack = 0 ∨ size = 0 ∨ headerRoom stack + 8 ≤ size.toNat) ↔
        headerRoom stack + 8 ≤ size.toNat := by tauto
    rw [hwant]
    constructor
    · rintro ⟨hheader, hreturns⟩
      have hle := hheader rfl hstack hsize
      rw [BitVec.le_def, toNat_stack_sub hstack] at hle
      by_contra hlt
      obtain ⟨fuel, m', hok⟩ := hreturns _ (maps_block stack size.toNat)
      exact stackWatermarkInit_ne_ok hstack hsize hle (by omega) fuel _ m' hok
    · intro hroom
      refine ⟨fun _ _ _ => ?_, fun m hm => ?_⟩
      · rw [BitVec.le_def, toNat_stack_sub hstack]
        omega
      · obtain ⟨fuel, m', hok, -⟩ := exists_stackWatermarkInit hstack hroom hm
        exact ⟨fuel, m', hok⟩

/-- A stack of 12 bytes has room for the size, and for half a word. -/
theorem not_staysWithin : ¬ StaysWithin true (0x1000 : Size 3) 12 := by
  rintro ⟨-, hreturns⟩
  obtain ⟨fuel, m', hok⟩ := hreturns _ (maps_block 0x1000 _)
  exact stackWatermarkInit_ne_ok (by decide) (by decide) (by decide) (by decide) fuel _ m' hok

/-- The `j`th word above the header. -/
def word (m : Mem (8 * 2 ^ k)) (stack : Size k) (j : ℕ) : Option ℕ :=
  load m ((stackWatermarkAlign stack 0).stack + BitVec.ofNat _ (8 * j)) 8

end Watermark

end Zth
