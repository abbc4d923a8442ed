/-
# Base address registers

`ReadBar`, `WriteBar32`, `WriteBar64` and `CalcBarMapSize`. The size of a window is
found by writing ones and looking which of them stick; afterwards the original value
is written back. Bit 2 of the register alone decides whether the next register belongs
to it.

The model of a device is what its registers do when written, so `CalcBarMapSize` is
followed through all its accesses once (`run_calcBarMapSize`), and what it returns and
what it leaves behind are read off from there.
-/

import Bitnos.Math.BitMask
import Bitnos.Math.WiredWord
import Bitnos.Pci.Device
import Bitnos.Xhci.EventRing

namespace Bitnos.Pci

open Xhci (clearBits)

def calcBarAddress (barIndex : BitVec 32) : BitVec 8 := (0x10#32 + 4#32 * barIndex).setWidth 8

/-- `BitScanForward`. The scan instruction gives the index of the lowest set bit. -/
def bitScanForward (value : BitVec 64) : ℤ := if value = 0#64 then -1 else value.ctz.toNat

/-- A 64-bit value from its halves. -/
def joinBar (bar barUpper : BitVec 32) : BitVec 64 := bar.setWidth 64 ||| barUpper.setWidth 64 <<< 32

def readBar (device : Device) (barIndex : BitVec 32) : ConfigM (WithError (BitVec 64)) :=
  if 6 ≤ barIndex.toNat then
    return ⟨0#64, .indexOutOfRange⟩
  else do
    let addr := calcBarAddress barIndex
    let bar ← device.readConfReg addr
    if bar &&& 4#32 = 0#32 then -- 32 bit address
      return ⟨bar.setWidth 64, .success⟩
    else if 5 ≤ barIndex.toNat then
      return ⟨0#64, .indexOutOfRange⟩
    else
      let barUpper ← device.readConfReg (addr + 4#8)
      return ⟨joinBar bar barUpper, .success⟩

variable (hw : Hardware)

def writeBar32 (device : Device) (barIndex value : BitVec 32) : ConfigM Error :=
  if 6 ≤ barIndex.toNat then
    return .indexOutOfRange
  else do
    device.writeConfReg hw (calcBarAddress barIndex) value
    return .success

def writeBar64 (device : Device) (barIndex : BitVec 32) (value : BitVec 64) : ConfigM Error :=
  if 5 ≤ barIndex.toNat then
    return .indexOutOfRange
  else do
    let addr := calcBarAddress barIndex
    device.writeConfReg hw addr ((value &&& 0xffffffff#64).setWidth 32)
    device.writeConfReg hw (addr + 4#8) (((value >>> 32) &&& 0xffffffff#64).setWidth 32)
    return .success

/-- The size found from the value read back after writing ones. -/
def probedSize (tempBar : BitVec 64) : BitVec 64 :=
  let tempBarVal := clearBits tempBar 0xf#64
  if tempBarVal = 0#64 then 0#64 else 1#64 <<< (bitScanForward tempBarVal).toNat

def calcBarMapSize (device : Device) (barIndex : BitVec 32) :
    ConfigM (WithError (BitVec 64)) := do
  let bar ← readBar device barIndex
  if bar.error.isError then
    return ⟨0#64, bar.error⟩
  else
    let barIs64bits := bar.value &&& 4#64 ≠ 0#64
    let _ ← if barIs64bits then writeBar64 hw device barIndex 0xffffffffffffffff#64
      else writeBar32 hw device barIndex 0xffffffff#32
    let tempBar ← readBar device barIndex
    -- resume original value
    let _ ← if barIs64bits then writeBar64 hw device barIndex bar.value
      else writeBar32 hw device barIndex (bar.value.setWidth 32)
    return ⟨probedSize tempBar.value, .success⟩

/-! ### Bits of the registers -/

section Bits

variable {bar barUpper : BitVec 32}

theorem getLsbD_joinBar (i : ℕ) : (joinBar bar barUpper).getLsbD i =
    if i < 32 then bar.getLsbD i else barUpper.getLsbD (i - 32) := by
  simp only [joinBar, BitVec.getLsbD_or, BitVec.getLsbD_setWidth, BitVec.getLsbD_shiftLeft]
  grind

theorem setWidth_and_mask (x : BitVec 64) : (x &&& 0xffffffff#64).setWidth 32 = x.setWidth 32 := by
  have hmask : 0xffffffff#64 = BitMask.low 64 32 := rfl
  apply BitVec.eq_of_getLsbD_eq
  intro i hi
  rw [hmask, BitVec.getLsbD_setWidth, BitMask.getLsbD_and_low, BitVec.getLsbD_setWidth,
    decide_eq_true hi, Bool.and_true]

@[simp] theorem lower_joinBar : (joinBar bar barUpper &&& 0xffffffff#64).setWidth 32 = bar := by
  apply BitVec.eq_of_getLsbD_eq
  intro i hi
  rw [setWidth_and_mask, BitVec.getLsbD_setWidth, getLsbD_joinBar, if_pos hi, decide_eq_true hi,
    Bool.true_and]

@[simp] theorem upper_joinBar :
    ((joinBar bar barUpper >>> 32) &&& 0xffffffff#64).setWidth 32 = barUpper := by
  apply BitVec.eq_of_getLsbD_eq
  intro i hi
  rw [setWidth_and_mask, BitVec.getLsbD_setWidth, BitVec.getLsbD_ushiftRight, getLsbD_joinBar,
    if_neg (by omega), Nat.add_sub_cancel_left, decide_eq_true hi, Bool.true_and]

/-- The test of the source for a 64-bit BAR looks at bit 2. -/
theorem and_four_eq_zero {w : ℕ} {x : BitVec w} (hw : 2 < w) :
    x &&& BitVec.twoPow w 2 = 0#w ↔ x.getLsbD 2 = false := by
  rw [BitVec.and_twoPow]
  cases hbit : x.getLsbD 2
  · simp
  · simp only [if_true, Bool.true_eq_false, iff_false]
    intro hzero
    have htwo : (BitVec.twoPow w 2).getLsbD 2 = true := by
      rw [BitVec.getLsbD_twoPow, decide_eq_true hw, decide_eq_true rfl, Bool.true_and]
    rw [hzero, BitVec.getLsbD_zero] at htwo
    exact Bool.false_ne_true htwo

/-- The register alone and the joined value agree on the kind of BAR. -/
theorem bar_and_four : bar &&& 4#32 = 0#32 ↔ bar.getLsbD 2 = false :=
  and_four_eq_zero (w := 32) (by omega)

theorem value_and_four {value : BitVec 64} : value &&& 4#64 = 0#64 ↔ value.getLsbD 2 = false :=
  and_four_eq_zero (w := 64) (by omega)

end Bits

/-! ### Where the registers lie -/

namespace Device

variable (device : Device) {barIndex : BitVec 32}

/-- The address of the register of a BAR. -/
def barAddress (barIndex : BitVec 32) : BitVec 32 := device.address (calcBarAddress barIndex)

/-- The address of the register after it. -/
def barUpperAddress (barIndex : BitVec 32) : BitVec 32 :=
  device.address (calcBarAddress barIndex + 4#8)

/-- The upper register of a 64-bit BAR is the register of the next BAR. -/
theorem barUpperAddress_eq :
    device.barUpperAddress barIndex = device.barAddress (barIndex + 1#32) := by
  rw [barUpperAddress, barAddress]
  congr 1
  simp only [calcBarAddress]
  bv_omega

theorem barUpperAddress_ne : device.barUpperAddress barIndex ≠ device.barAddress barIndex := by
  -- the two offsets differ in bit 2
  have hbit : ∀ x : BitVec 8, (x + 4#8) &&& 0xfc#8 ≠ x &&& 0xfc#8 := by decide +kernel
  rw [barUpperAddress, barAddress, Ne, address_inj]
  exact hbit _

/-! ### What the accesses do -/

/-- What `ReadBar` makes of the registers. -/
def barIn (space : ConfigSpace) (barIndex : BitVec 32) : WithError (BitVec 64) :=
  if 6 ≤ barIndex.toNat then
    ⟨0#64, .indexOutOfRange⟩
  else if space (device.barAddress barIndex) &&& 4#32 = 0#32 then
    ⟨(space (device.barAddress barIndex)).setWidth 64, .success⟩
  else if 5 ≤ barIndex.toNat then
    ⟨0#64, .indexOutOfRange⟩
  else
    ⟨joinBar (space (device.barAddress barIndex)) (space (device.barUpperAddress barIndex)),
      .success⟩

/-- Reading a BAR fails, or finds it in one register, or in two. -/
theorem barIn_cases (space : ConfigSpace) (barIndex : BitVec 32) :
    (device.barIn space barIndex).error.isError ∨
      barIndex.toNat < 6 ∧ space (device.barAddress barIndex) &&& 4#32 = 0#32 ∨
      barIndex.toNat < 5 ∧ space (device.barAddress barIndex) &&& 4#32 ≠ 0#32 := by
  unfold barIn
  split_ifs with hsix hbar hfive
  · exact .inl rfl
  · exact .inr (.inl ⟨by omega, hbar⟩)
  · exact .inl rfl
  · exact .inr (.inr ⟨by omega, hbar⟩)

theorem run_readBar (barIndex : BitVec 32) (s : ConfigState) :
    ∃ a, (readBar device barIndex).run s = (device.barIn s.space barIndex, s.latch a) := by
  by_cases hsix : 6 ≤ barIndex.toNat
  · rw [readBar, barIn, if_pos hsix, if_pos hsix]
    exact ⟨s.ports.address, rfl⟩
  · simp only [readBar, barIn, if_neg hsix]
    rw [run_bind_of_run (device.run_readConfReg _ s)]
    change ∃ a, StateT.run (if s.space (device.barAddress barIndex) &&& 4#32 = 0#32 then _ else _) _ = _
    by_cases hbar : s.space (device.barAddress barIndex) &&& 4#32 = 0#32
    · rw [if_pos hbar, if_pos hbar]
      exact ⟨device.barAddress barIndex, rfl⟩
    · rw [if_neg hbar, if_neg hbar]
      by_cases hfive : 5 ≤ barIndex.toNat
      · rw [if_pos hfive, if_pos hfive]
        exact ⟨device.barAddress barIndex, rfl⟩
      · rw [if_neg hfive, if_neg hfive, run_bind_of_run (device.run_readConfReg _ _)]
        exact ⟨device.barUpperAddress barIndex, rfl⟩

variable {hw} {device} {s : ConfigState}

theorem run_writeBar32 (hi : barIndex.toNat < 6) (value : BitVec 32) :
    (writeBar32 hw device barIndex value).run s =
      (.success, s.store hw (device.barAddress barIndex) value) := by
  rw [writeBar32, if_neg (by omega)]
  rfl

theorem run_writeBar64 (hi : barIndex.toNat < 5) (bar barUpper : BitVec 32) :
    (writeBar64 hw device barIndex (joinBar bar barUpper)).run s =
      (.success, (s.store hw (device.barAddress barIndex) bar).store hw
        (device.barUpperAddress barIndex) barUpper) := by
  rw [writeBar64, if_neg (by omega), lower_joinBar, upper_joinBar]
  rfl

end Device

/-! ### The probe -/

section Probe

variable {device : Device} {barIndex : BitVec 32} {s : ConfigState}

/-- A BAR that cannot be read is not written either. -/
theorem run_calcBarMapSize_of_error (herror : (device.barIn s.space barIndex).error.isError) :
    ∃ a, (calcBarMapSize hw device barIndex).run s =
      (⟨0#64, (device.barIn s.space barIndex).error⟩, s.latch a) := by
  obtain ⟨a, hread⟩ := device.run_readBar barIndex s
  refine ⟨a, ?_⟩
  rw [calcBarMapSize, run_bind_of_run hread, if_pos herror]
  rfl

/-- The registers while a 32-bit BAR is probed. -/
def probed32 (hw : Hardware) (device : Device) (space : ConfigSpace) (barIndex : BitVec 32) :
    ConfigSpace :=
  let a := device.barAddress barIndex
  Function.update space a (hw a (space a) 0xffffffff#32)

/-- The registers while a 64-bit BAR is probed. -/
def probed64 (hw : Hardware) (device : Device) (space : ConfigSpace) (barIndex : BitVec 32) :
    ConfigSpace :=
  let a := device.barAddress barIndex
  let u := device.barUpperAddress barIndex
  Function.update (Function.update space a (hw a (space a) 0xffffffff#32)) u
    (hw u (space u) 0xffffffff#32)

theorem run_calcBarMapSize32 (hi : barIndex.toNat < 6)
    (hbar : s.space (device.barAddress barIndex) &&& 4#32 = 0#32) :
    ∃ t, (calcBarMapSize hw device barIndex).run s =
        (⟨probedSize (device.barIn (probed32 hw device s.space barIndex) barIndex).value,
          .success⟩, t) ∧
      t.space = Function.update (probed32 hw device s.space barIndex) (device.barAddress barIndex)
        (hw (device.barAddress barIndex)
          (probed32 hw device s.space barIndex (device.barAddress barIndex))
          (s.space (device.barAddress barIndex))) := by
  have hbarIn : device.barIn s.space barIndex =
      ⟨(s.space (device.barAddress barIndex)).setWidth 64, .success⟩ := by
    rw [Device.barIn, if_neg (by omega), if_pos hbar]
  have hflag : ¬ (s.space (device.barAddress barIndex)).setWidth 64 &&& 4#64 ≠ 0#64 := by
    rw [not_not, value_and_four, BitVec.getLsbD_setWidth, bar_and_four.mp hbar, Bool.and_false]
  obtain ⟨a, hread⟩ := device.run_readBar barIndex s
  rw [hbarIn] at hread
  simp only [calcBarMapSize, run_bind_of_run hread]
  rw [if_neg (by decide), if_neg hflag, run_bind_of_run (Device.run_writeBar32 hi _)]
  obtain ⟨b, hread'⟩ := device.run_readBar barIndex
    ((s.latch a).store hw (device.barAddress barIndex) 0xffffffff#32)
  rw [run_bind_of_run hread', if_neg hflag, run_bind_of_run (Device.run_writeBar32 hi _)]
  refine ⟨_, rfl, ?_⟩
  simp [probed32]

theorem run_calcBarMapSize64 (hi : barIndex.toNat < 5)
    (hbar : s.space (device.barAddress barIndex) &&& 4#32 ≠ 0#32) :
    ∃ t, (calcBarMapSize hw device barIndex).run s =
        (⟨probedSize (device.barIn (probed64 hw device s.space barIndex) barIndex).value,
          .success⟩, t) ∧
      t.space = Function.update
        (Function.update (probed64 hw device s.space barIndex) (device.barAddress barIndex)
          (hw (device.barAddress barIndex)
            (probed64 hw device s.space barIndex (device.barAddress barIndex))
            (s.space (device.barAddress barIndex))))
        (device.barUpperAddress barIndex)
        (hw (device.barUpperAddress barIndex)
          (probed64 hw device s.space barIndex (device.barUpperAddress barIndex))
          (s.space (device.barUpperAddress barIndex))) := by
  have hbarIn : device.barIn s.space barIndex =
      ⟨joinBar (s.space (device.barAddress barIndex)) (s.space (device.barUpperAddress barIndex)),
        .success⟩ := by
    rw [Device.barIn, if_neg (by omega), if_neg hbar, if_neg (by omega)]
  have hflag : joinBar (s.space (device.barAddress barIndex))
      (s.space (device.barUpperAddress barIndex)) &&& 4#64 ≠ 0#64 := by
    rwa [Ne, value_and_four, getLsbD_joinBar, if_pos (by omega), ← bar_and_four]
  obtain ⟨a, hread⟩ := device.run_readBar barIndex s
  rw [hbarIn] at hread
  simp only [calcBarMapSize, run_bind_of_run hread]
  have hones : 0xffffffffffffffff#64 = joinBar 0xffffffff#32 0xffffffff#32 := by decide
  rw [if_neg (by decide), if_pos hflag, hones, run_bind_of_run (Device.run_writeBar64 hi _ _)]
  obtain ⟨b, hread'⟩ := device.run_readBar barIndex
    (((s.latch a).store hw (device.barAddress barIndex) 0xffffffff#32).store hw
      (device.barUpperAddress barIndex) 0xffffffff#32)
  have hspace : ((s.latch a).store hw (device.barAddress barIndex) 0xffffffff#32 |>.store hw
      (device.barUpperAddress barIndex) 0xffffffff#32).space =
        probed64 hw device s.space barIndex := by
    simp [probed64, device.barUpperAddress_ne]
  rw [hspace] at hread'
  rw [run_bind_of_run hread', if_pos hflag, run_bind_of_run (Device.run_writeBar64 hi _ _)]
  refine ⟨_, rfl, ?_⟩
  rw [ConfigState.store_space, ConfigState.store_space, ConfigState.latch_space, hspace,
    Function.update_of_ne device.barUpperAddress_ne]

end Probe

end Bitnos.Pci
