/-
# The register sets of the controller

`Controller` finds the register sets of the ports, of the interrupters and the doorbells
by the capability registers, which say where each array begins and how long it is. The
length of the interrupters is taken from the number of ports.
-/

import Bitnos.Math.BitField
import Bitnos.MemoryAccess
import Bitnos.Xhci.Controller

namespace Bitnos.Xhci

open BitField

/-! ### Register structures -/

/-- The members of `CapabilityRegisters`. -/
inductive CapabilityRegister
  | caplengthHciversion
  | hcsparams1
  | hcsparams2
  | hcsparams3
  | hccparams1
  | dboff
  | rtsoff
  | hccparams2
  deriving DecidableEq

/-- `CapabilityRegisters`, a packed structure of registers of 32 bits. -/
def capabilityRegisters : Layout CapabilityRegister (8 * 0x20) where
  decls := [
    ⟨some .caplengthHciversion, 8, 32⟩,
    ⟨some .hcsparams1, 8, 32⟩,
    ⟨some .hcsparams2, 8, 32⟩,
    ⟨some .hcsparams3, 8, 32⟩,
    ⟨some .hccparams1, 8, 32⟩,
    ⟨some .dboff, 8, 32⟩,
    ⟨some .rtsoff, 8, 32⟩,
    ⟨some .hccparams2, 8, 32⟩]
  declared name := by cases name <;> rfl
  fits := by decide

/-- The members of `PortRegSet`. -/
inductive PortRegister
  | portsc
  | portpmsc
  | portli
  | porthlpmc

/-- `PortRegSet`, a packed structure. -/
def portRegSet : List (Decl PortRegister) :=
  [⟨some .portsc, 8, 32⟩, ⟨some .portpmsc, 8, 32⟩, ⟨some .portli, 8, 32⟩, ⟨some .porthlpmc, 8, 32⟩]

/-- The members of `InterrupterRegSet`. -/
inductive InterrupterRegister
  | iman
  | imod
  | erstsz
  | reserved1
  | erstba
  | erdp

/-- `InterrupterRegSet`. The reserved bytes bring the last two registers to their alignment. -/
def interrupterRegSet : List (Decl InterrupterRegister) :=
  [⟨some .iman, 32, 32⟩, ⟨some .imod, 32, 32⟩, ⟨some .erstsz, 32, 32⟩, ⟨some .reserved1, 8, 32⟩,
    ⟨some .erstba, 64, 64⟩, ⟨some .erdp, 64, 64⟩]

/-- The member of `DoorbellRegister`. -/
inductive Doorbell
  | db

/-- `DoorbellRegister` -/
def doorbellRegister : List (Decl Doorbell) := [⟨some .db, 32, 32⟩]

/-- `sizeof` -/
def sizeof {ι : Type*} (ds : List (Decl ι)) : ℕ := size ds / 8

/-! ### `Controller` -/

/-- `Controller`, as the addresses it keeps. -/
structure Controller where
  mmioBase : BitVec 64
  cap : BitVec 64
  op : BitVec 64

/-- A capability register, read through the pointer to the structure. -/
def CapabilityRegister.read (mem : Bytes.Memory 64) (cap : BitVec 64) (r : CapabilityRegister) :
    BitVec 32 :=
  read32 mem (cap + BitVec.ofNat 64 ((capabilityRegisters.field r).offset / 8))

/-- `ReadCAPLENGTH` -/
def readCAPLENGTH (mem : Bytes.Memory 64) (cap : BitVec 64) : BitVec 8 :=
  (CapabilityRegister.caplengthHciversion.read mem cap &&& 0xff#32).setWidth 8

namespace Controller

/-- The constructor. -/
def construct (mem : Bytes.Memory 64) (mmioBase : BitVec 64) : Controller where
  mmioBase := mmioBase
  cap := mmioBase
  op := mmioBase + (readCAPLENGTH mem mmioBase).setWidth 64

variable (mem : Bytes.Memory 64) (xhc : Controller)

/-- `PortRegSets` -/
def portRegSets : ArrayWrapper where
  arrayBaseAddr := xhc.op + 0x400#64
  size := (CapabilityRegister.hcsparams1.read mem xhc.cap >>> 24).toNat

/-- `InterrupterRegSets` -/
def interrupterRegSets : ArrayWrapper where
  arrayBaseAddr :=
    let rtsoff := clearBits (CapabilityRegister.rtsoff.read mem xhc.cap) 0x1f#32
    xhc.mmioBase + rtsoff.setWidth 64 + 0x20#64
  size := (CapabilityRegister.hcsparams1.read mem xhc.cap >>> 24).toNat

/-- `DoorbellRegisters` -/
def doorbellRegisters : ArrayWrapper where
  arrayBaseAddr :=
    xhc.mmioBase + (clearBits (CapabilityRegister.dboff.read mem xhc.cap) 0x3#32).setWidth 64
  size := 256

end Controller

/-! ### What the controller declares -/

/-- The capability registers as the controller defines them. -/
structure Capabilities where
  capLength : BitVec 8
  maxSlots : BitVec 8
  maxIntrs : BitVec 11
  maxPorts : BitVec 8
  doorbellOffset : BitVec 32
  runtimeOffset : BitVec 32

/-- The capabilities of the controller whose registers begin at the base address. -/
def Capabilities.at (mem : Bytes.Memory 64) (base : BitVec 64) : Capabilities where
  capLength := (read32 mem base).extractLsb' 0 8
  maxSlots := (read32 mem (base + 0x04#64)).extractLsb' 0 8
  maxIntrs := (read32 mem (base + 0x04#64)).extractLsb' 8 11
  maxPorts := (read32 mem (base + 0x04#64)).extractLsb' 24 8
  doorbellOffset := read32 mem (base + 0x14#64)
  runtimeOffset := read32 mem (base + 0x18#64)

namespace Capabilities

variable (caps : Capabilities) (base : BitVec 64) (i : ℕ)

def portAddr : BitVec 64 := base + BitVec.ofNat 64 (caps.capLength.toNat + 0x400 + 16 * i)

/-- The low five bits of the offset are reserved. -/
def interrupterAddr : BitVec 64 :=
  base + BitVec.ofNat 64 (32 * (caps.runtimeOffset.toNat / 32) + 0x20 + 32 * i)

/-- The low two bits of the offset are reserved. -/
def doorbellAddr : BitVec 64 :=
  base + BitVec.ofNat 64 (4 * (caps.doorbellOffset.toNat / 4) + 4 * i)

end Capabilities

/-- The views iterate over the register sets that exist, and there is a doorbell for every
slot and for the controller. -/
structure ViewsCover (mem : Bytes.Memory 64) (base : BitVec 64) : Prop where
  ports : ((Controller.construct mem base).portRegSets mem).elements (sizeof portRegSet) =
    (List.range (Capabilities.at mem base).maxPorts.toNat).map
      ((Capabilities.at mem base).portAddr base)
  ports_size : ((Controller.construct mem base).portRegSets mem).size =
    (Capabilities.at mem base).maxPorts.toNat
  interrupters :
    ((Controller.construct mem base).interrupterRegSets mem).elements (sizeof interrupterRegSet) =
      (List.range (Capabilities.at mem base).maxIntrs.toNat).map
        ((Capabilities.at mem base).interrupterAddr base)
  interrupters_size : ((Controller.construct mem base).interrupterRegSets mem).size =
    (Capabilities.at mem base).maxIntrs.toNat
  doorbells : ∀ i, ((Controller.construct mem base).doorbellRegisters mem).element
    (sizeof doorbellRegister) i = (Capabilities.at mem base).doorbellAddr base i
  doorbells_size : (Capabilities.at mem base).maxSlots.toNat + 1 ≤
    ((Controller.construct mem base).doorbellRegisters mem).size

/-! ### Bases and strides -/

/-- Clearing the low bits rounds down. -/
theorem toNat_clearBits_low {w : ℕ} (x : BitVec w) (k : ℕ) :
    (clearBits x (BitMask.low w k)).toNat = 2 ^ k * (x.toNat / 2 ^ k) := by
  apply Nat.eq_of_testBit_eq
  intro j
  rw [Nat.testBit_two_pow_mul, Nat.testBit_div_two_pow]
  change (clearBits x _).getLsbD j = (decide (k ≤ j) && x.getLsbD (j - k + k))
  by_cases hj : j < w
  · rw [getLsbD_clearBits_low x hj]
    by_cases hk : k ≤ j
    · simp [hk, Nat.not_lt.mpr hk]
    · simp [hk, Nat.lt_of_not_le hk]
  · have hge : w ≤ j - k + k := by omega
    rw [BitVec.getLsbD_of_ge _ _ (Nat.le_of_not_lt hj), BitVec.getLsbD_of_ge _ _ hge, Bool.and_false]

section Views

variable {mem : Bytes.Memory 64} {base : BitVec 64}

theorem readCAPLENGTH_eq : readCAPLENGTH mem base = (Capabilities.at mem base).capLength := by
  have hfield := BitMask.field_eq_extractLsb' (k := 8) (read32 mem base) 0
  rw [BitVec.ushiftRight_zero] at hfield
  change ((read32 mem (base + 0#64)) &&& 0xff#32).setWidth 8 = _
  rw [BitVec.add_zero]
  exact hfield

theorem portAddr_eq (i : ℕ) :
    ((Controller.construct mem base).portRegSets mem).element (sizeof portRegSet) i =
      (Capabilities.at mem base).portAddr base i := by
  change base + (readCAPLENGTH mem base).setWidth 64 + 0x400#64 + BitVec.ofNat 64 (16 * i) = _
  rw [readCAPLENGTH_eq, Capabilities.portAddr, BitVec.ofNat_add, BitVec.ofNat_add,
    BitVec.ofNat_toNat, BitVec.add_assoc, BitVec.add_assoc, BitVec.add_assoc]

theorem interrupterAddr_eq (i : ℕ) :
    ((Controller.construct mem base).interrupterRegSets mem).element (sizeof interrupterRegSet) i =
      (Capabilities.at mem base).interrupterAddr base i := by
  have hround : (clearBits (Capabilities.at mem base).runtimeOffset 0x1f#32).toNat =
      32 * ((Capabilities.at mem base).runtimeOffset.toNat / 32) := toNat_clearBits_low _ 5
  change base + (clearBits (Capabilities.at mem base).runtimeOffset 0x1f#32).setWidth 64 + 0x20#64 +
    BitVec.ofNat 64 (32 * i) = _
  rw [← BitVec.ofNat_toNat, hround, Capabilities.interrupterAddr, BitVec.ofNat_add,
    BitVec.ofNat_add, BitVec.add_assoc, BitVec.add_assoc, BitVec.add_assoc]

theorem doorbellAddr_eq (i : ℕ) :
    ((Controller.construct mem base).doorbellRegisters mem).element (sizeof doorbellRegister) i =
      (Capabilities.at mem base).doorbellAddr base i := by
  have hround : (clearBits (Capabilities.at mem base).doorbellOffset 0x3#32).toNat =
      4 * ((Capabilities.at mem base).doorbellOffset.toNat / 4) := toNat_clearBits_low _ 2
  change base + (clearBits (Capabilities.at mem base).doorbellOffset 0x3#32).setWidth 64 +
    BitVec.ofNat 64 (4 * i) = _
  rw [← BitVec.ofNat_toNat, hround, Capabilities.doorbellAddr, BitVec.ofNat_add, BitVec.add_assoc]

/-- What both `PortRegSets` and `InterrupterRegSets` take for the length. -/
theorem toNat_hcsparams1_shiftRight :
    (CapabilityRegister.hcsparams1.read mem base >>> 24).toNat =
      (Capabilities.at mem base).maxPorts.toNat := by
  have hlt := (read32 mem (base + 0x04#64)).isLt
  change (read32 mem (base + 0x04#64) >>> 24).toNat =
    ((read32 mem (base + 0x04#64)).extractLsb' 24 8).toNat
  rw [BitVec.toNat_ushiftRight, BitVec.extractLsb'_toNat, Nat.shiftRight_eq_div_pow]
  omega

theorem size_portRegSets : ((Controller.construct mem base).portRegSets mem).size =
    (Capabilities.at mem base).maxPorts.toNat := toNat_hcsparams1_shiftRight

theorem size_interrupterRegSets : ((Controller.construct mem base).interrupterRegSets mem).size =
    (Capabilities.at mem base).maxPorts.toNat := toNat_hcsparams1_shiftRight

/-- The views cover what the controller declares just if it has as many interrupters as
ports. -/
theorem viewsCover_iff : ViewsCover mem base ↔
    (Capabilities.at mem base).maxPorts.toNat = (Capabilities.at mem base).maxIntrs.toNat := by
  constructor
  · exact fun h => size_interrupterRegSets.symm.trans h.interrupters_size
  · intro heq
    have hslots := (Capabilities.at mem base).maxSlots.isLt
    constructor
    · rw [ArrayWrapper.elements, size_portRegSets]
      exact List.map_congr_left fun i _ => portAddr_eq i
    · exact size_portRegSets
    · -- the only place where the lengths matter
      rw [ArrayWrapper.elements, size_interrupterRegSets, heq]
      exact List.map_congr_left fun i _ => interrupterAddr_eq i
    · exact size_interrupterRegSets.trans heq
    · exact doorbellAddr_eq
    · exact hslots

end Views

/-- Four ports and eight interrupters: only four of these are shown. -/
theorem not_viewsCover_eightIntrs :
    let mem : Bytes.Memory 64 :=
      write32 (write32 (fun _ => 0#8) 0x1000#64 0x01000020#32) 0x1004#64 0x04000820#32
    (Capabilities.at mem 0x1000#64).maxIntrs = 8#11 ∧
      ((Controller.construct mem 0x1000#64).interrupterRegSets mem).size = 4 ∧
      ¬ViewsCover mem 0x1000#64 := by
  intro mem
  refine ⟨by decide +kernel, by decide +kernel, fun h => ?_⟩
  have hsize := h.interrupters_size
  revert hsize
  decide +kernel

end Bitnos.Xhci
