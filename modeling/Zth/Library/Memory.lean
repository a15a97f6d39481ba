import Mathlib.Algebra.Order.Group.Nat
import Mathlib.Tactic.Common

/-!
# A memory of bytes

A memory maps some addresses to a byte; an access to any other address is a fault. Numbers are
stored in several bytes, the lowest one first. Addresses have `w` bits and wrap around, so
whether an address lies in a block is a matter of its distance from the start of the block.
-/

namespace Memory

/-- The bytes of a memory, where there are any. -/
abbrev Mem (w : ℕ) := BitVec w → Option UInt8

/-- The lower `n` bytes of a number. -/
def toBytes : ℕ → ℕ → List UInt8
  | 0, _ => []
  | n + 1, v => UInt8.ofNat v :: toBytes n (v / 256)

def ofBytes : List UInt8 → ℕ
  | [] => 0
  | b :: bs => b.toNat + 256 * ofBytes bs

theorem length_toBytes (n v : ℕ) : (toBytes n v).length = n := by
  induction n generalizing v with
  | zero => rfl
  | succ n ih => exact congrArg Nat.succ (ih (v / 256))

theorem ofBytes_toBytes {n v : ℕ} (hv : v < 256 ^ n) : ofBytes (toBytes n v) = v := by
  induction n generalizing v with
  | zero =>
      rw [Nat.pow_zero] at hv
      rw [toBytes, ofBytes]
      omega
  | succ n ih =>
      have hdiv : v / 256 < 256 ^ n := by
        rw [Nat.div_lt_iff_lt_mul (by decide)]
        exact hv
      have hbyte : (UInt8.ofNat v).toNat = v % 256 := UInt8.toNat_ofNat'
      rw [toBytes, ofBytes, ih hdiv, hbyte]
      omega

variable {w : ℕ} (m : Mem w) (a : BitVec w)

/-- The `n` bytes from an address on. -/
def loadBytes : ℕ → Option (List UInt8)
  | 0 => some []
  | n + 1 => (loadBytes n).bind fun bs => (m (a + BitVec.ofNat w n)).map fun b => bs ++ [b]

def load (n : ℕ) : Option ℕ := (loadBytes m a n).map ofBytes

/-- The number is stored if all of its bytes can be. -/
def store (n v : ℕ) : Option (Mem w) :=
  if ∀ i < n, (m (a + BitVec.ofNat w i)).isSome then
    some fun b => (toBytes n v)[(b - a).toNat]?.or (m b)
  else none

/-- The memory has bytes in the block of `n` bytes, and nowhere else. -/
def Maps (n : ℕ) : Prop := ∀ b, (m b).isSome ↔ (b - a).toNat < n

variable {m a}

/-- The distance of two addresses that are given by their distances from a third one. -/
theorem toNat_add_sub_add (a : BitVec w) {i j : ℕ} (hi : i < 2 ^ w) (hj : j < 2 ^ w) :
    (a + BitVec.ofNat w i - (a + BitVec.ofNat w j)).toNat =
      if j ≤ i then i - j else 2 ^ w - (j - i) := by
  have hsub : a + BitVec.ofNat w i - (a + BitVec.ofNat w j) =
      BitVec.ofNat w i - BitVec.ofNat w j := by
    rw [BitVec.add_comm a, BitVec.add_comm a, ← BitVec.sub_sub, BitVec.sub_eq_add_neg,
      BitVec.sub_eq_add_neg, BitVec.sub_eq_add_neg, BitVec.add_assoc (BitVec.ofNat w i) a,
      BitVec.add_comm a, ← BitVec.add_assoc, BitVec.add_assoc _ a, BitVec.add_right_neg,
      BitVec.add_zero]
  rw [hsub, BitVec.toNat_sub, BitVec.toNat_ofNat, BitVec.toNat_ofNat, Nat.mod_eq_of_lt hi,
    Nat.mod_eq_of_lt hj]
  generalize 2 ^ w = N at *
  split
  · rw [show N - j + i = i - j + N by omega, Nat.add_mod_right, Nat.mod_eq_of_lt (by omega)]
  · rw [Nat.mod_eq_of_lt (by omega)]
    omega

theorem toNat_add_sub (a : BitVec w) {i : ℕ} (hi : i < 2 ^ w) :
    (a + BitVec.ofNat w i - a).toNat = i := by
  rw [BitVec.add_comm, BitVec.add_sub_cancel, BitVec.toNat_ofNat, Nat.mod_eq_of_lt hi]

/-- An address is the start of a block and its distance from there. -/
theorem add_toNat_sub (a b : BitVec w) : a + BitVec.ofNat w (b - a).toNat = b := by
  rw [BitVec.ofNat_toNat, BitVec.setWidth_eq, BitVec.add_comm, BitVec.sub_add_cancel]

theorem Maps.isSome {n i : ℕ} (h : Maps m a n) (hi : i < n) (hn : n ≤ 2 ^ w) :
    (m (a + BitVec.ofNat w i)).isSome := by
  rw [h, toNat_add_sub a (Nat.lt_of_lt_of_le hi hn)]
  exact hi

theorem loadBytes_eq {n : ℕ} {f : ℕ → UInt8}
    (h : ∀ i < n, m (a + BitVec.ofNat w i) = some (f i)) :
    loadBytes m a n = some ((List.range n).map f) := by
  induction n with
  | zero => rfl
  | succ n ih =>
      rw [loadBytes, ih fun i hi => h i (by omega), h n (by omega), List.range_succ,
        List.map_append]
      rfl

/-- A load only depends on the bytes that are loaded. -/
theorem load_congr {m' : Mem w} {n : ℕ}
    (h : ∀ i < n, m' (a + BitVec.ofNat w i) = m (a + BitVec.ofNat w i)) :
    load m' a n = load m a n := by
  have hbytes : loadBytes m' a n = loadBytes m a n := by
    induction n with
    | zero => rfl
    | succ n ih =>
        rw [loadBytes, loadBytes, ih fun i hi => h i (by omega), h n (by omega)]
  rw [load, load, hbytes]

theorem exists_store {n : ℕ} (h : ∀ i < n, (m (a + BitVec.ofNat w i)).isSome) (v : ℕ) :
    ∃ m', store m a n v = some m' := ⟨_, if_pos h⟩

/-- What is stored can be loaded. -/
theorem load_store {m' : Mem w} {n v : ℕ} (hn : n ≤ 2 ^ w) (hv : v < 256 ^ n)
    (h : store m a n v = some m') : load m' a n = some v := by
  obtain ⟨-, h⟩ := Option.ite_none_right_eq_some.1 h
  obtain rfl := Option.some.inj h
  have hlen := length_toBytes n v
  have hbytes : loadBytes (fun b => (toBytes n v)[(b - a).toNat]?.or (m b)) a n =
      some ((List.range n).map fun i => (toBytes n v)[i]?.getD 0) := by
    apply loadBytes_eq
    intro i hi
    rw [toNat_add_sub a (Nat.lt_of_lt_of_le hi hn), List.getElem?_eq_getElem (by omega)]
    rfl
  have hmap : (List.range n).map (fun i => (toBytes n v)[i]?.getD 0) = toBytes n v := by
    apply List.ext_getElem
    · simp [hlen]
    · intro i hi hi'
      simp [List.getElem?_eq_getElem hi']
  rw [load, hbytes, hmap, Option.map_some, ofBytes_toBytes hv]

/-- The bytes outside of those that are stored stay. -/
theorem store_of_le {m' : Mem w} {n v : ℕ} {b : BitVec w} (h : store m a n v = some m')
    (hb : n ≤ (b - a).toNat) : m' b = m b := by
  obtain ⟨-, h⟩ := Option.ite_none_right_eq_some.1 h
  obtain rfl := Option.some.inj h
  rw [← length_toBytes n v] at hb
  dsimp only
  rw [List.getElem?_eq_none hb]
  rfl

/-- A store does not change where the memory has bytes. -/
theorem isSome_store {m' : Mem w} {n v : ℕ} (h : store m a n v = some m') (b : BitVec w) :
    (m' b).isSome ↔ (m b).isSome := by
  by_cases hb : n ≤ (b - a).toNat
  · rw [store_of_le h hb]
  · obtain ⟨hmap, h⟩ := Option.ite_none_right_eq_some.1 h
    obtain rfl := Option.some.inj h
    have hold := hmap _ (Nat.not_le.1 hb)
    rw [add_toNat_sub] at hold
    rw [iff_true_right hold]
    dsimp only
    rw [List.getElem?_eq_getElem (by rw [length_toBytes]; omega)]
    rfl

theorem Maps.store {m' : Mem w} {b : BitVec w} {k n v : ℕ} (hmaps : Maps m b k)
    (h : Memory.store m a n v = some m') : Maps m' b k := fun c =>
  (isSome_store h c).trans (hmaps c)

end Memory
