import Mathlib.Data.Nat.Digits.Lemmas
import Mathlib.Logic.Function.Basic
import Zth.Library.Run

/-!
# The identifiers of a VCD file

Every fiber has a short name in a VCD file: its number in radix 93, with digits from the
printable characters behind `!`, which is kept for other names. The digits are written
backwards into a buffer of 16 characters. The identifiers are kept in a map, until the fiber
is gone.
-/

namespace Zth

namespace Perf

/-- A string, without the NUL at its end. -/
abbrev Text := List UInt8

/-- `(char)(id % 93 + 34)` -/
def vcdDigit (id : BitVec 64) : UInt8 := UInt8.ofNat (id % 93 + 34).toNat

/-- The loop of the conversion. The pointer into the buffer is its distance from the start of
the buffer, and `s` is the string there; a digit is written right before it. `none` stands for a
write before the start. -/
def vcdIdLoop : ℕ → BitVec 64 → Text → Option Text
  | 0, _, _ => none
  | room + 1, id, s =>
      let s := vcdDigit id :: s
      let id := id / 93
      if id = 0 then some s else vcdIdLoop room id s

/-- The conversion, in a buffer of 16 characters of which the last one is the NUL. -/
def convert (fiber : BitVec 64) : Option Text := vcdIdLoop 15 fiber []

/-- `m_vcdIds` -/
abbrev VcdIds := BitVec 64 → Option Text

/-- `vcdId`: the identifier in the map, or a new one. -/
def vcdId (ids : VcdIds) (fiber : BitVec 64) : Option (VcdIds × Text) :=
  match ids fiber with
  | some id => some (ids, id)
  | none => (convert fiber).map fun id => (Function.update ids fiber (some id), id)

def vcdIdRelease (ids : VcdIds) (fiber : BitVec 64) : VcdIds := Function.update ids fiber none

/-- The calls on the map. -/
inductive VcdCall where
  | id (fiber : BitVec 64)
  | release (fiber : BitVec 64)
deriving DecidableEq, Repr

/-- The map, with the identifiers that were returned so far. -/
structure VcdLog where
  ids : VcdIds
  returned : List (BitVec 64 × Text)

def VcdLog.empty : VcdLog := ⟨fun _ => none, []⟩

def VcdLog.step (s : VcdLog) : VcdCall → Option VcdLog
  | .id fiber => (vcdId s.ids fiber).map fun (ids, id) => ⟨ids, s.returned ++ [(fiber, id)]⟩
  | .release fiber => some { s with ids := vcdIdRelease s.ids fiber }

/-- The character that is kept for other names. -/
def exclamationMark : UInt8 := 33

/-- An identifier, of at most 10 characters that can be printed and are not `!`. -/
structure IsIdentifier (id : Text) : Prop where
  ne_nil : id ≠ []
  length : id.length ≤ 10
  chars : ∀ c ∈ id, 34 ≤ c ∧ c ≤ 126

/-- The digits of a number, with at least one of them. -/
def radixDigits (n : ℕ) : List ℕ := if n = 0 then [0] else (Nat.digits 93 n).reverse

/-- The characters of the digits. -/
def encode (n : ℕ) : Text := (radixDigits n).map fun d => UInt8.ofNat (d + 34)

/-- The number of which the characters are the digits. -/
def decode (id : Text) : ℕ := Nat.ofDigits 93 (id.reverse.map fun c => c.toNat - 34)

theorem encode_of_lt {n : ℕ} (hn : n < 93) : encode n = [UInt8.ofNat (n + 34)] := by
  rw [encode, radixDigits]
  split
  · rename_i hzero
    rw [hzero]
    rfl
  · rename_i hne
    rw [Nat.digits_of_lt 93 n hne hn]
    rfl

/-- The last digit of a number, and those of the rest before it. -/
theorem encode_of_div_ne_zero {n : ℕ} (hn : n / 93 ≠ 0) :
    encode n = encode (n / 93) ++ [UInt8.ofNat (n % 93 + 34)] := by
  have hpos : 0 < n := Nat.pos_of_ne_zero fun h => hn (by rw [h])
  rw [encode, encode, radixDigits, radixDigits, if_neg hpos.ne', if_neg hn,
    Nat.digits_def' (by decide) hpos, List.reverse_cons, List.map_append]
  rfl

theorem radixDigits_lt (n : ℕ) : ∀ d ∈ radixDigits n, d < 93 := by
  intro d hd
  rw [radixDigits] at hd
  split at hd
  · rw [List.mem_singleton] at hd
    rw [hd]
    decide
  · exact Nat.digits_lt_base (by decide) (List.mem_reverse.1 hd)

theorem toNat_char {d : ℕ} (hd : d < 93) : (UInt8.ofNat (d + 34)).toNat = d + 34 := by
  rw [UInt8.toNat_ofNat', Nat.mod_eq_of_lt (by omega)]

/-- A number can be read back from its characters. -/
theorem decode_encode (n : ℕ) : decode (encode n) = n := by
  have hmap : (encode n).reverse.map (fun c => c.toNat - 34) = (radixDigits n).reverse := by
    rw [encode, ← List.map_reverse, List.map_map]
    conv_rhs => rw [← List.map_id (radixDigits n).reverse]
    apply List.map_congr_left
    intro d hd
    rw [Function.comp_apply, toNat_char (radixDigits_lt n d (List.mem_reverse.1 hd))]
    exact Nat.add_sub_cancel d 34
  rw [decode, hmap, radixDigits]
  split
  · rename_i hzero
    rw [hzero]
    rfl
  · rw [List.reverse_reverse, Nat.ofDigits_digits]

theorem encode_injective : Function.Injective encode := Function.LeftInverse.injective decode_encode

theorem length_encode {n k : ℕ} (hk : k ≠ 0) (hn : n < 93 ^ k) : (encode n).length ≤ k := by
  rw [encode, List.length_map, radixDigits]
  split
  · exact Nat.one_le_iff_ne_zero.2 hk
  · rw [List.length_reverse]
    exact (Nat.digits_length_le_iff (by decide) n).2 hn

theorem encode_ne_nil (n : ℕ) : encode n ≠ [] := by
  rw [encode, radixDigits]
  split
  · simp
  · rename_i hne
    simpa [Nat.digits_eq_nil_iff_eq_zero] using hne

/-- All numbers of 64 bits have at most 10 digits. -/
theorem isIdentifier_encode (fiber : BitVec 64) : IsIdentifier (encode fiber.toNat) := by
  have hlt := fiber.isLt
  refine ⟨encode_ne_nil _, length_encode (by decide) (by omega), ?_⟩
  intro c hc
  obtain ⟨d, hd, rfl⟩ := List.mem_map.1 hc
  have hdigit := radixDigits_lt fiber.toNat d hd
  rw [UInt8.le_iff_toNat_le, UInt8.le_iff_toNat_le, toNat_char hdigit]
  have h34 : (34 : UInt8).toNat = 34 := rfl
  have h126 : (126 : UInt8).toNat = 126 := rfl
  omega

theorem vcdDigit_eq (id : BitVec 64) : vcdDigit id = UInt8.ofNat (id.toNat % 93 + 34) := by
  have hmod := Nat.mod_lt id.toNat (show 0 < 93 by decide)
  have h93 : (93 : BitVec 64).toNat = 93 := rfl
  have h34 : (34 : BitVec 64).toNat = 34 := rfl
  rw [vcdDigit, BitVec.toNat_add, BitVec.toNat_umod, h93, h34, Nat.mod_eq_of_lt (by omega)]

/-- The loop writes the digits before the string, if there is room for them. -/
theorem vcdIdLoop_eq {room : ℕ} {id : BitVec 64} (hroom : room ≠ 0) (hid : id.toNat < 93 ^ room)
    (s : Text) : vcdIdLoop room id s = some (encode id.toNat ++ s) := by
  induction room generalizing id s with
  | zero => exact absurd rfl hroom
  | succ room ih =>
      have hdiv : (id / 93).toNat = id.toNat / 93 := BitVec.toNat_udiv
      have hzero : id / 93 = 0 ↔ id.toNat / 93 = 0 := by
        rw [← hdiv]
        exact ⟨fun h => by rw [h]; rfl, fun h => BitVec.eq_of_toNat_eq h⟩
      simp only [vcdIdLoop, vcdDigit_eq]
      split
      · rename_i hend
        rw [hzero] at hend
        rw [encode_of_lt (by omega), Nat.mod_eq_of_lt (by omega)]
        rfl
      · rename_i hgo
        rw [hzero] at hgo
        have hlt : (id / 93).toNat < 93 ^ room := by
          rw [hdiv, Nat.div_lt_iff_lt_mul (by decide)]
          exact hid
        have hne : room ≠ 0 := by
          rintro rfl
          omega
        rw [ih hne hlt, encode_of_div_ne_zero hgo, hdiv, List.append_assoc]
        rfl

/-- The buffer is large enough. -/
theorem convert_eq (fiber : BitVec 64) : convert fiber = some (encode fiber.toNat) := by
  have hlt := fiber.isLt
  rw [convert, vcdIdLoop_eq (by decide) (by omega), List.append_nil]

/-- The map has nothing else than the identifiers of the fibers. -/
def VcdIds.Exact (ids : VcdIds) : Prop :=
  ∀ fiber id, ids fiber = some id → id = encode fiber.toNat

theorem VcdIds.Exact.update {ids : VcdIds} (h : ids.Exact) {fiber : BitVec 64} {id : Option Text}
    (hid : ∀ t, id = some t → t = encode fiber.toNat) :
    VcdIds.Exact (Function.update ids fiber id) := by
  intro fiber' id' hid'
  by_cases heq : fiber' = fiber
  · subst heq
    rw [Function.update_self] at hid'
    exact hid id' hid'
  · rw [Function.update_of_ne heq] at hid'
    exact h fiber' id' hid'

/-- The same identifier is returned, whether it was in the map or not. -/
theorem vcdId_eq {ids : VcdIds} (h : ids.Exact) (fiber : BitVec 64) :
    ∃ ids' : VcdIds, vcdId ids fiber = some (ids', encode fiber.toNat) ∧ ids'.Exact := by
  rw [vcdId]
  cases hid : ids fiber with
  | some id =>
      rw [h fiber id hid]
      exact ⟨ids, rfl, h⟩
  | none =>
      rw [convert_eq]
      exact ⟨_, rfl, h.update fun t ht => (Option.some.inj ht).symm⟩

/-- What is known of the map and of the identifiers that were returned. -/
structure VcdLog.Sound (s : VcdLog) : Prop where
  ids : s.ids.Exact
  returned : ∀ p ∈ s.returned, p.2 = encode p.1.toNat

/-- The step lemma. -/
theorem VcdLog.Sound.step {s : VcdLog} (h : s.Sound) (c : VcdCall) :
    ∃ t, s.step c = some t ∧ t.Sound := by
  cases c with
  | id fiber =>
      obtain ⟨ids, heq, hids⟩ := vcdId_eq h.ids fiber
      refine ⟨⟨ids, s.returned ++ [(fiber, encode fiber.toNat)]⟩, ?_, hids, ?_⟩
      · rw [VcdLog.step, heq]
        rfl
      · intro p hp
        obtain hp | hp := List.mem_append.1 hp
        · exact h.returned p hp
        · rw [List.mem_singleton.1 hp]
  | release fiber =>
      refine ⟨_, rfl, h.ids.update ?_, h.returned⟩
      intro t ht
      cases ht

theorem VcdLog.sound_empty : VcdLog.empty.Sound where
  ids _ _ h := by cases h
  returned _ hp := by cases hp

/-- In every run of calls, nothing is written outside of the buffer, and every identifier that
is returned is a proper one. The identifiers of two fibers differ, also when `!` is appended to
one of them. -/
theorem vcdIds_injective (cs : List VcdCall) :
    ∃ s, Transition.run VcdLog.step VcdLog.empty cs = some s ∧
      ∀ p ∈ s.returned, IsIdentifier p.2 ∧
        ∀ q ∈ s.returned, (p.2 = q.2 ↔ p.1 = q.1) ∧ p.2 ++ [exclamationMark] ≠ q.2 := by
  obtain ⟨s, hs, hsound⟩ :=
    Transition.exists_run_invariant (fun _ c h => VcdLog.Sound.step h c) VcdLog.sound_empty cs
  refine ⟨s, hs, ?_⟩
  intro p hp
  have hid : ∀ q ∈ s.returned, IsIdentifier q.2 := by
    intro q hq
    rw [hsound.returned q hq]
    exact isIdentifier_encode q.1
  refine ⟨hid p hp, ?_⟩
  intro q hq
  constructor
  · rw [hsound.returned p hp, hsound.returned q hq]
    exact encode_injective.eq_iff.trans BitVec.toNat_inj
  · intro heq
    have hmem : exclamationMark ∈ q.2 := by
      rw [← heq]
      exact List.mem_append_right _ (List.mem_singleton_self _)
    exact absurd ((hid q hq).chars _ hmem).1 (by decide)

/-- The largest number takes all 10 characters. -/
example : (convert (BitVec.allOnes 64)).map List.length = some 10 := by decide

end Perf

end Zth
