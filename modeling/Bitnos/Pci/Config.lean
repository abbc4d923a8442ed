/-
# PCI configuration registers

The register file behind the configuration ports and the accessors of `pci.cpp`. A
register is read by writing its address to the address port and reading the data
port. The address packs the bus, the device, the function and the register offset
into one word; device numbers below 32 and function numbers below 8 survive the
packing.
-/

import Mathlib.Data.List.Basic
import Mathlib.Tactic.IntervalCases
import Bitnos.Math.BitMask

namespace Bitnos.Pci

/-- The contents of the configuration registers, by address. -/
abbrev ConfigSpace := BitVec 32 → BitVec 32

/-- The configuration ports: the address port latches what is written to it, the data
port gives the register at the latched address. -/
structure ConfigPorts where
  space : ConfigSpace
  address : BitVec 32

namespace ConfigPorts

def writeAddress (ports : ConfigPorts) (address : BitVec 32) : ConfigPorts :=
  { ports with address }

def readData (ports : ConfigPorts) : BitVec 32 := ports.space ports.address

/-- `ReadData(address)`: the latch is written before every read, so what it held
earlier does not matter. -/
def readDataAt (space : ConfigSpace) (address : BitVec 32) : BitVec 32 :=
  ({ space, address := 0 } : ConfigPorts).writeAddress address |>.readData

theorem readDataAt_eq (space : ConfigSpace) (address : BitVec 32) :
    readDataAt space address = space address := rfl

end ConfigPorts

/-! ### Addresses -/

def makeAddress (bus dev func addr : BitVec 8) : BitVec 32 :=
  0x80000000#32 ||| (bus.setWidth 32 <<< 16) ||| (dev.setWidth 32 <<< 11) |||
    (func.setWidth 32 <<< 8) ||| (addr &&& 0xfc#8).setWidth 32

/-- The bus number in an address. -/
def addressBus (address : BitVec 32) : BitVec 8 := address.extractLsb' 16 8

/-- The device number in an address. -/
def addressDev (address : BitVec 32) : BitVec 8 := (address.extractLsb' 11 5).setWidth 8

/-- The function number in an address. -/
def addressFunc (address : BitVec 32) : BitVec 8 := (address.extractLsb' 8 3).setWidth 8

/-- The register offset in an address. -/
def addressRegister (address : BitVec 32) : BitVec 8 := address.extractLsb' 0 8

section Packing

variable {bus dev func addr : BitVec 8} (hdev : dev.toNat < 32) (hfunc : func.toNat < 8)
include hdev hfunc

/-- The fields of an address do not overlap. -/
theorem getLsbD_makeAddress (i : ℕ) :
    (makeAddress bus dev func addr).getLsbD i =
      if i < 8 then (addr &&& 0xfc#8).getLsbD i
      else if i < 11 then func.getLsbD (i - 8)
      else if i < 16 then dev.getLsbD (i - 11)
      else if i < 24 then bus.getLsbD (i - 16)
      else decide (i = 31) := by
  -- what keeps the fields apart: five bits for the device, three for the function
  have hd : ∀ i, 5 ≤ i → dev.getLsbD i = false := fun i => BitMask.getLsbD_of_lt (k := 5) hdev
  have hf : ∀ i, 3 ≤ i → func.getLsbD i = false := fun i => BitMask.getLsbD_of_lt (k := 3) hfunc
  by_cases hi : i < 32
  · unfold makeAddress
    interval_cases i <;> simp [hd, hf, -BitVec.getLsbD_eq_getElem]
  · rw [BitVec.getLsbD_of_ge _ _ (by omega)]
    grind

theorem addressBus_makeAddress : addressBus (makeAddress bus dev func addr) = bus := by
  apply BitVec.eq_of_getLsbD_eq
  intro i hi
  rw [addressBus, BitVec.getLsbD_extractLsb', getLsbD_makeAddress hdev hfunc]
  grind

theorem addressDev_makeAddress : addressDev (makeAddress bus dev func addr) = dev := by
  apply BitVec.eq_of_getLsbD_eq
  intro i hi
  rw [addressDev, BitVec.getLsbD_setWidth, BitVec.getLsbD_extractLsb',
    getLsbD_makeAddress hdev hfunc]
  by_cases h : i < 5
  · grind
  · -- the address has five bits for the device, the number itself has no more
    have hzero : dev.getLsbD i = false := BitMask.getLsbD_of_lt (k := 5) hdev (by omega)
    rw [hzero, decide_eq_false h, Bool.false_and, Bool.and_false]

theorem addressFunc_makeAddress : addressFunc (makeAddress bus dev func addr) = func := by
  apply BitVec.eq_of_getLsbD_eq
  intro i hi
  rw [addressFunc, BitVec.getLsbD_setWidth, BitVec.getLsbD_extractLsb',
    getLsbD_makeAddress hdev hfunc]
  by_cases h : i < 3
  · grind
  · have hzero : func.getLsbD i = false := BitMask.getLsbD_of_lt (k := 3) hfunc (by omega)
    rw [hzero, decide_eq_false h, Bool.false_and, Bool.and_false]

theorem addressRegister_makeAddress :
    addressRegister (makeAddress bus dev func addr) = addr &&& 0xfc#8 := by
  apply BitVec.eq_of_getLsbD_eq
  intro i hi
  rw [addressRegister, BitVec.getLsbD_extractLsb', getLsbD_makeAddress hdev hfunc]
  grind

/-- Different registers have different addresses. -/
theorem makeAddress_inj {bus' dev' func' addr' : BitVec 8} (hdev' : dev'.toNat < 32)
    (hfunc' : func'.toNat < 8) : makeAddress bus dev func addr = makeAddress bus' dev' func' addr' ↔
      bus = bus' ∧ dev = dev' ∧ func = func' ∧ addr &&& 0xfc#8 = addr' &&& 0xfc#8 := by
  constructor
  · intro heq
    have hbus := congrArg addressBus heq
    have hd := congrArg addressDev heq
    have hf := congrArg addressFunc heq
    have haddr := congrArg addressRegister heq
    rw [addressBus_makeAddress hdev hfunc, addressBus_makeAddress hdev' hfunc'] at hbus
    rw [addressDev_makeAddress hdev hfunc, addressDev_makeAddress hdev' hfunc'] at hd
    rw [addressFunc_makeAddress hdev hfunc, addressFunc_makeAddress hdev' hfunc'] at hf
    rw [addressRegister_makeAddress hdev hfunc, addressRegister_makeAddress hdev' hfunc'] at haddr
    exact ⟨hbus, hd, hf, haddr⟩
  · rintro ⟨rfl, rfl, rfl, haddr⟩
    rw [makeAddress, makeAddress, haddr]

end Packing

open ConfigPorts

/-- The configuration space whose registers have the given contents. -/
def ConfigSpace.ofRegisters (registers : BitVec 8 → BitVec 8 → BitVec 8 → BitVec 8 → BitVec 32) :
    ConfigSpace := fun address =>
  registers (addressBus address) (addressDev address) (addressFunc address)
    (addressRegister address)

/-- The address packing keeps all registers of the devices of a bus apart. -/
theorem readDataAt_ofRegisters {registers : BitVec 8 → BitVec 8 → BitVec 8 → BitVec 8 → BitVec 32}
    {bus dev func : BitVec 8} (hdev : dev.toNat < 32) (hfunc : func.toNat < 8) (addr : BitVec 8) :
    readDataAt (.ofRegisters registers) (makeAddress bus dev func addr) =
      registers bus dev func (addr &&& 0xfc#8) := by
  rw [readDataAt_eq, ConfigSpace.ofRegisters, addressBus_makeAddress hdev hfunc, addressDev_makeAddress hdev hfunc,
    addressFunc_makeAddress hdev hfunc, addressRegister_makeAddress hdev hfunc]

/-! ### Registers -/

section Registers

variable (space : ConfigSpace) (bus dev func : BitVec 8)

def getVendorId : BitVec 16 :=
  (readDataAt space (makeAddress bus dev func 0x00#8) &&& 0xffff#32).setWidth 16

def getDeviceId : BitVec 16 :=
  (readDataAt space (makeAddress bus dev func 0x00#8) >>> 16).setWidth 16

def getHeaderType : BitVec 8 :=
  ((readDataAt space (makeAddress bus dev func 0x0c#8) >>> 16) &&& 0xff#32).setWidth 8

def getClassId : BitVec 32 := readDataAt space (makeAddress bus dev func 0x08#8)

def getBusNumbers : BitVec 32 := readDataAt space (makeAddress bus dev func 0x18#8)

end Registers

def isSingleFunctionDevice (headerType : BitVec 8) : Bool := headerType &&& 0x80#8 = 0#8

end Bitnos.Pci
