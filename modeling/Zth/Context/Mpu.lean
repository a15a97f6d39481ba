import Zth.Context.SwitchGuard
import Mathlib.Data.Nat.Find

/-!
# The memory protection unit

On an ARM without `mprotect`, one region of the memory protection unit guards the stack that is
in use. It is the highest region that is free when it is needed for the first time, and region 0
is left to the application. `stackGuardImpl` moves it.

A region has an address of 27 bits, a size, the sub-regions that are disabled, and an access
permission. What it says about caches and about execution is left out.
-/

namespace Zth

namespace StackGuard

/-- What `reg_mpu_rbar` and `reg_mpu_rasr` hold for one region. -/
structure Region where
  addr : BitVec 27
  size : BitVec 5
  srd : BitVec 8
  ap : BitVec 3
  enable : Bool
deriving DecidableEq, Repr

/-- No access to the address is allowed in the region. A region of less than 256 bytes has no
sub-regions, and none may be disabled. -/
def Region.Denies (r : Region) (a : BitVec 32) : Prop :=
  r.enable = true ∧ r.ap = 0 ∧ r.srd = 0 ∧
    a >>> (r.size.toNat + 1) = (r.addr.setWidth 32 <<< 5) >>> (r.size.toNat + 1)

/-- The registers `reg_mpu_type`, `reg_mpu_rnr`, those of each region, and `reg_mpu_ctrl`. -/
structure Mpu where
  dregion : BitVec 8
  rnr : BitVec 8
  regions : ℕ → Region
  privdefena : Bool
  enable : Bool

/-- What is read from `reg_mpu_rasr` and `reg_mpu_rbar`. -/
def Mpu.selected (m : Mpu) : Region := m.regions m.rnr.toNat

def Mpu.setSelected (r : Region) (m : Mpu) : Mpu :=
  { m with regions := Function.update m.regions m.rnr.toNat r }

/-- A write of `reg_mpu_rbar`. If it is valid, it selects the region as well. -/
def Mpu.writeRbar (region : Option (BitVec 4)) (addr : BitVec 27) (m : Mpu) : Mpu :=
  let m := match region with
    | some r => { m with rnr := r.setWidth 8 }
    | none => m
  m.setSelected { m.selected with addr := addr }

/-- A write of `reg_mpu_rasr`. The sub-regions are written back as they were read. -/
def Mpu.writeRasr (size : BitVec 5) (ap : BitVec 3) (enable : Bool) (m : Mpu) : Mpu :=
  m.setSelected { m.selected with size := size, ap := ap, enable := enable }

structure Config where
  enableStackGuard : Bool
  enableThreads : Bool
  enableAssert : Bool
  enableStackWaterMark : Bool
deriving DecidableEq, Repr

/-- Only then is the unit touched. -/
def Config.active (c : Config) : Bool := c.enableStackGuard && !c.enableThreads

/-- `REG_MPU_RBAR_ADDR_UNUSED` -/
def unused : BitVec 27 := ((0 - SwitchGuard.stackGuardSize) >>> 5).setWidth 27

/-- The loop of `stackGuardRegion`. It returns 0 if no other region is free. -/
def findRegion : ℕ → Mpu → ℕ × Mpu
  | 0, m => (0, m)
  | region + 1, m =>
      let m := { m with rnr := BitVec.ofNat 8 (region + 1) }
      if m.selected.enable then findRegion region m else (region + 1, m)

/-- The unit, and the static variable of `stackGuardRegion`. -/
structure Device where
  mpu : Mpu
  region : ℤ

def stackGuardRegion (c : Config) (u : Device) : ℤ × Device :=
  if !c.active then (-1, u)
  else if u.region ≠ 0 then (u.region, u)
  else
    match findRegion (u.mpu.dregion.toNat - 1) u.mpu with
    | (0, m) => (-1, ⟨m, -1⟩)
    | (region, m) =>
        let m := m.writeRbar none unused
        let m := m.writeRasr 4 0 true
        (region, ⟨if m.enable then m else { m with privdefena := true, enable := true }, region⟩)

/-- It fails if the guard is not aligned. -/
def stackGuardImpl (c : Config) (guard : BitVec 32) (u : Device) : Option Device :=
  if !c.active then some u
  else
    let (region, u) := stackGuardRegion c u
    if region < 0 then some u
    else if c.enableAssert && decide (guard &&& (SwitchGuard.stackGuardSize - 1) ≠ 0) then none
    else
      let addr := if guard ≠ 0 then (guard >>> 5).setWidth 27 else unused
      some { u with mpu := u.mpu.writeRbar (some (BitVec.ofInt 4 region)) addr }

/-! ### The region that is used -/

/-- The highest region that is free, other than region 0. -/
def freeRegion (m : Mpu) : ℕ :=
  Nat.findGreatest (fun r => (m.regions r).enable = false) (m.dregion.toNat - 1)

theorem freeRegion_lt {m : Mpu} (h : m.dregion.toNat ≤ 16) : freeRegion m < 16 := by
  have hle : freeRegion m ≤ m.dregion.toNat - 1 := Nat.findGreatest_le _
  omega

/-- The region guards 32 bytes. -/
def guardRegion (srd : BitVec 8) (guard : BitVec 32) : Region :=
  ⟨if guard ≠ 0 then (guard >>> 5).setWidth 27 else unused, 4, srd, 0, true⟩

/-- The regions, with the guard in the one that was free. -/
def withGuard (m : Mpu) (guard : BitVec 32) : ℕ → Region :=
  if freeRegion m = 0 then m.regions
  else Function.update m.regions (freeRegion m)
    (guardRegion (m.regions (freeRegion m)).srd guard)

/-- What became of the unit `m`, when the guard was set last. -/
structure Programmed (m : Mpu) (guard : BitVec 32) (u : Device) : Prop where
  region : u.region = if freeRegion m = 0 then -1 else (freeRegion m : ℤ)
  regions : u.mpu.regions = withGuard m guard
  enable : freeRegion m ≠ 0 → u.mpu.enable = true

theorem findRegion_eq (m : Mpu) {n : ℕ} (hn : n < 256) :
    ∃ rnr, findRegion n m =
      (Nat.findGreatest (fun r => (m.regions r).enable = false) n, { m with rnr := rnr }) ∧
      (Nat.findGreatest (fun r => (m.regions r).enable = false) n ≠ 0 →
        rnr.toNat = Nat.findGreatest (fun r => (m.regions r).enable = false) n) := by
  induction n generalizing m with
  | zero => exact ⟨m.rnr, rfl, fun h => absurd rfl h⟩
  | succ n ih =>
      have hrnr : (BitVec.ofNat 8 (n + 1)).toNat = n + 1 := by
        rw [BitVec.toNat_ofNat, Nat.mod_eq_of_lt hn]
      rw [findRegion, Nat.findGreatest_succ]
      simp only [Mpu.selected, hrnr]
      cases hfree : (m.regions (n + 1)).enable with
      | false => exact ⟨BitVec.ofNat 8 (n + 1), rfl, fun _ => hrnr⟩
      | true =>
          obtain ⟨rnr, heq, hne⟩ := ih { m with rnr := BitVec.ofNat 8 (n + 1) } (by omega)
          exact ⟨rnr, heq, hne⟩

@[simp] theorem regions_writeRbar_some (region : BitVec 4) (addr : BitVec 27) (m : Mpu) :
    (m.writeRbar (some region) addr).regions = Function.update m.regions region.toNat
      { m.regions region.toNat with addr := addr } := by
  have hwidth : (region.setWidth 8).toNat = region.toNat := by
    rw [BitVec.toNat_setWidth]
    exact Nat.mod_eq_of_lt (by omega)
  simp only [Mpu.writeRbar, Mpu.setSelected, Mpu.selected, hwidth]

@[simp] theorem enable_writeRbar (region : Option (BitVec 4)) (addr : BitVec 27) (m : Mpu) :
    (m.writeRbar region addr).enable = m.enable := by
  cases region <;> rfl

/-- When the region is taken, it guards nothing that is used. -/
theorem stackGuardRegion_spec {c : Config} (hc : c.active = true) (m : Mpu) :
    (stackGuardRegion c ⟨m, 0⟩).1 = (stackGuardRegion c ⟨m, 0⟩).2.region ∧
      Programmed m 0 (stackGuardRegion c ⟨m, 0⟩).2 := by
  obtain ⟨rnr, heq, hne⟩ := findRegion_eq m (n := m.dregion.toNat - 1) (by omega)
  rw [stackGuardRegion, if_neg (by simp [hc]), if_neg (by simp)]
  simp only [heq]
  rw [← freeRegion] at hne ⊢
  split
  · rename_i hfind
    obtain ⟨hzero, rfl⟩ := Prod.mk.inj hfind
    exact ⟨rfl, by rw [if_pos hzero], by rw [withGuard, if_pos hzero], fun h => absurd hzero h⟩
  · rename_i region m' hpos hfind
    obtain ⟨rfl, rfl⟩ := Prod.mk.inj hfind
    have hzero : freeRegion m ≠ 0 := hpos
    refine ⟨rfl, by rw [if_neg hzero], ?_, ?_⟩
    · rw [withGuard, if_neg hzero]
      split <;> simp [Mpu.writeRasr, Mpu.writeRbar, Mpu.setSelected, Mpu.selected, hne hzero,
        guardRegion]
    · intro _
      dsimp only
      split <;> rename_i henable
      · exact henable
      · rfl

theorem stackGuardRegion_of_programmed {c : Config} (hc : c.active = true) {m : Mpu}
    {guard : BitVec 32} {u : Device} (h : Programmed m guard u) :
    stackGuardRegion c u = (u.region, u) := by
  have hne : u.region ≠ 0 := by
    rw [h.region]
    split <;> omega
  rw [stackGuardRegion, if_neg (by simp [hc]), if_pos hne]

/-- The bits below the alignment are not set. -/
theorem and_mask_eq_zero {x mask : BitVec 32} {k : ℕ} (hmask : mask.toNat = 2 ^ k - 1)
    (h : 2 ^ k ∣ x.toNat) : x &&& mask = 0 := by
  apply BitVec.eq_of_toNat_eq
  rw [BitVec.toNat_and, hmask, Nat.and_two_pow_sub_one_eq_mod]
  exact Nat.mod_eq_zero_of_dvd h

/-- The unit before it is used for the first time, or with a guard that was set. -/
def Ready (m : Mpu) (u : Device) : Prop := u = ⟨m, 0⟩ ∨ ∃ guard, Programmed m guard u

/-- An aligned guard is set whatever the one before it was. -/
theorem stackGuardImpl_spec {c : Config} (hc : c.active = true) {m : Mpu}
    (hm : m.dregion.toNat ≤ 16) {u : Device} (h : Ready m u) {guard : BitVec 32}
    (hguard : 32 ∣ guard.toNat) :
    ∃ u', stackGuardImpl c guard u = some u' ∧ Programmed m guard u' := by
  obtain ⟨u₁, guard₁, hregion, hu₁⟩ :
      ∃ u₁ guard₁, stackGuardRegion c u = (u₁.region, u₁) ∧ Programmed m guard₁ u₁ := by
    obtain rfl | ⟨guard₁, hu⟩ := h
    · obtain ⟨hfst, hprog⟩ := stackGuardRegion_spec hc m
      exact ⟨_, 0, Prod.ext hfst rfl, hprog⟩
    · exact ⟨u, guard₁, stackGuardRegion_of_programmed hc hu, hu⟩
  have hmask : guard &&& (SwitchGuard.stackGuardSize - 1) = 0 :=
    and_mask_eq_zero (k := 5) rfl hguard
  rw [stackGuardImpl, if_neg (by simp [hc])]
  simp only [hregion, hmask]
  by_cases hzero : freeRegion m = 0
  · have hneg : u₁.region = -1 := by rw [hu₁.region, if_pos hzero]
    refine ⟨u₁, by rw [if_pos (by omega)], hu₁.region, ?_, fun h => absurd hzero h⟩
    rw [hu₁.regions, withGuard, if_pos hzero, withGuard, if_pos hzero]
  · have hpos : u₁.region = (freeRegion m : ℤ) := by rw [hu₁.region, if_neg hzero]
    have hnat : (BitVec.ofInt 4 (freeRegion m : ℤ)).toNat = freeRegion m := by
      have hlt := freeRegion_lt hm
      rw [BitVec.ofInt_natCast, BitVec.toNat_ofNat, Nat.mod_eq_of_lt (by omega)]
    rw [if_neg (by omega), if_neg (by simp)]
    refine ⟨_, rfl, hu₁.region, ?_, ?_⟩
    · simp only [hpos, regions_writeRbar_some, hnat, hu₁.regions, withGuard, if_neg hzero,
        Function.update_idem, Function.update_self]
      rfl
    · intro hne
      rw [enable_writeRbar]
      exact hu₁.enable hne

/-! ### What a guard denies -/

/-- The region denies the 32 bytes of the guard. -/
theorem denies_guardRegion {guard : BitVec 32} (hguard : 32 ∣ guard.toNat) (hne : guard ≠ 0)
    (a : BitVec 32) :
    (guardRegion 0 guard).Denies a ↔
      guard.toNat ≤ a.toNat ∧ a.toNat < guard.toNat + SwitchGuard.stackGuardSize.toNat := by
  have hsize : SwitchGuard.stackGuardSize.toNat = 32 := rfl
  have hfour : (4 : BitVec 5).toNat + 1 = 5 := rfl
  have hlt := guard.isLt
  have haddr : (((guard >>> 5).setWidth 27).setWidth 32 <<< 5 : BitVec 32) = guard := by
    apply BitVec.eq_of_toNat_eq
    simp only [BitVec.toNat_shiftLeft, BitVec.toNat_setWidth, BitVec.toNat_ushiftRight,
      Nat.shiftRight_eq_div_pow, Nat.shiftLeft_eq]
    omega
  rw [Region.Denies, guardRegion, if_pos hne]
  simp only [true_and, hfour, haddr, hsize, ← BitVec.toNat_inj, BitVec.toNat_ushiftRight,
    Nat.shiftRight_eq_div_pow]
  omega

end StackGuard

end Zth
