/-
# Configuration accesses of a device

`Device` reads and writes its configuration registers through the two configuration
ports. A write reaches the register at the latched address and nothing else; what the
register holds afterwards is up to the hardware, which need not keep what is written.
The machine also remembers every write that reached the data port, so that an access
sequence without writes can be told from one whose writes happen to change nothing.
-/

import Bitnos.Pci.Config
import Bitnos.Queue

namespace Bitnos

/-- `WithError<T>` -/
structure WithError (T : Type*) where
  value : T
  error : Error
  deriving DecidableEq

namespace Pci

/-- What a register holds after a write, from its address, what it held and what is
written to it. -/
abbrev Hardware := BitVec 32 → BitVec 32 → BitVec 32 → BitVec 32

/-- The configuration ports, and the address and value of every data port write made so
far. -/
structure ConfigState where
  ports : ConfigPorts
  written : List (BitVec 32 × BitVec 32)

namespace ConfigState

def space (s : ConfigState) : ConfigSpace := s.ports.space

/-- The state after the address port has been written. -/
def latch (s : ConfigState) (address : BitVec 32) : ConfigState :=
  { s with ports := s.ports.writeAddress address }

/-- The state after a value has been written to the register at an address. -/
def store (hw : Hardware) (s : ConfigState) (address value : BitVec 32) : ConfigState where
  ports :=
    { space := Function.update s.space address (hw address (s.space address) value), address }
  written := s.written ++ [(address, value)]

@[simp] theorem latch_space (s : ConfigState) (address : BitVec 32) :
    (s.latch address).space = s.space := rfl

@[simp] theorem store_space (hw : Hardware) (s : ConfigState) (address value : BitVec 32) :
    (s.store hw address value).space =
      Function.update s.space address (hw address (s.space address) value) := rfl

end ConfigState

/-- Code that uses the configuration ports. -/
abbrev ConfigM := StateM ConfigState

/-- What follows an access starts from what the access gives and leaves. -/
theorem run_bind_of_run {α β : Type} {x : ConfigM α} {s t : ConfigState} {a : α}
    (hx : x.run s = (a, t)) (k : α → ConfigM β) : (x >>= k).run s = (k a).run t := by
  rw [StateT.run_bind, hx]
  rfl

/-! ### Ports -/

variable (hw : Hardware)

def writeAddress (address : BitVec 32) : ConfigM Unit := modify fun s => s.latch address

/-- `WriteData(value)` -/
def writeDataPort (value : BitVec 32) : ConfigM Unit :=
  modify fun s => s.store hw s.ports.address value

/-- `WriteData(address, value)` -/
def writeData (address value : BitVec 32) : ConfigM Unit := do
  writeAddress address
  writeDataPort hw value

/-- `ReadData()` -/
def readDataPort : ConfigM (BitVec 32) := return (← get).ports.readData

/-- `ReadData(address)` -/
def readData (address : BitVec 32) : ConfigM (BitVec 32) := do
  writeAddress address
  readDataPort

theorem run_writeData (address value : BitVec 32) (s : ConfigState) :
    (writeData hw address value).run s = ((), s.store hw address value) := rfl

theorem run_readData (address : BitVec 32) (s : ConfigState) :
    (readData address).run s = (s.space address, s.latch address) := rfl

/-! ### Device -/

structure Device where
  bus : BitVec 8
  dev : BitVec 8
  func : BitVec 8
  headerType : BitVec 8

namespace Device

/-- The address of the register at an offset. -/
def address (device : Device) (addr : BitVec 8) : BitVec 32 :=
  makeAddress device.bus device.dev device.func addr

def readConfReg (device : Device) (addr : BitVec 8) : ConfigM (BitVec 32) :=
  readData (makeAddress device.bus device.dev device.func addr)

def writeConfReg (device : Device) (addr : BitVec 8) (value : BitVec 32) : ConfigM Unit :=
  writeData hw (makeAddress device.bus device.dev device.func addr) value

variable (device : Device) (addr : BitVec 8) (s : ConfigState)

@[simp] theorem run_readConfReg : (device.readConfReg addr).run s =
    (s.space (device.address addr), s.latch (device.address addr)) :=
  run_readData (device.address addr) s

@[simp] theorem run_writeConfReg (value : BitVec 32) :
    (device.writeConfReg hw addr value).run s = ((), s.store hw (device.address addr) value) :=
  run_writeData hw (device.address addr) value s

/-- The low byte of an address is the register offset, whatever the device. -/
theorem getLsbD_address {i : ℕ} (hi : i < 8) :
    (device.address addr).getLsbD i = (addr &&& 0xfc#8).getLsbD i := by
  unfold address makeAddress
  interval_cases i <;> simp [-BitVec.getLsbD_eq_getElem]

/-- Different registers of a device have different addresses. -/
theorem address_inj {addr' : BitVec 8} :
    device.address addr = device.address addr' ↔ addr &&& 0xfc#8 = addr' &&& 0xfc#8 := by
  constructor
  · intro h
    apply BitVec.eq_of_getLsbD_eq
    intro i hi
    rw [← getLsbD_address device addr hi, ← getLsbD_address device addr' hi, h]
  · intro h
    rw [address, address, makeAddress, makeAddress, h]

end Device

/-! ### Plain storage -/

/-- The hardware whose registers hold what was written to them last. -/
def Hardware.storage : Hardware := fun _ _ value => value

/-- Offsets that agree up to their low two bits name the same register. -/
theorem and_mask_inj {addr addr' : BitVec 8} :
    addr &&& 0xfc#8 = addr' &&& 0xfc#8 ↔ addr >>> 2 = addr' >>> 2 := by
  have hmask : ∀ (x : BitVec 8) (i : ℕ), (x &&& 0xfc#8).getLsbD i = (x.getLsbD i && decide (2 ≤ i)) := by
    intro x i
    have hlow : 0xfc#8 = BitMask.low 8 6 <<< 2 := rfl
    rw [hlow, BitMask.getLsbD_and_low_shiftLeft]
    by_cases hi : i < 8
    · have hrange : (2 ≤ i ∧ i < 2 + 6) ↔ 2 ≤ i := and_iff_left hi
      simp only [hrange]
    · rw [BitVec.getLsbD_of_ge _ _ (Nat.le_of_not_lt hi), Bool.false_and, Bool.false_and]
  constructor
  · intro h
    ext i hi
    have hbit := congrArg (fun x => x.getLsbD (2 + i)) h
    simpa [hmask, -BitVec.getLsbD_eq_getElem] using hbit
  · intro h
    apply BitVec.eq_of_getLsbD_eq
    intro i hi
    rw [hmask, hmask]
    by_cases hlow : 2 ≤ i
    · have hbit := congrArg (fun x => x.getLsbD (i - 2)) h
      simp only [BitVec.getLsbD_ushiftRight, Nat.add_sub_cancel' hlow] at hbit
      rw [hbit]
    · rw [decide_eq_false hlow, Bool.and_false, Bool.and_false]

/-- **Registers are apart.** A write to a register is read back from that register of that
function, and read nowhere else. -/
theorem readConfReg_writeConfReg (d d' : Device) (hdev : d.dev.toNat < 32) (hfunc : d.func.toNat < 8)
    (hdev' : d'.dev.toNat < 32) (hfunc' : d'.func.toNat < 8) (a b : BitVec 8) (value : BitVec 32)
    (s : ConfigState) :
    ((d'.readConfReg b).run ((d.writeConfReg .storage a value).run s).2).1 =
      if d.bus = d'.bus ∧ d.dev = d'.dev ∧ d.func = d'.func ∧ a >>> 2 = b >>> 2 then value
      else ((d'.readConfReg b).run s).1 := by
  have hsame : d'.address b = d.address a ↔
      d.bus = d'.bus ∧ d.dev = d'.dev ∧ d.func = d'.func ∧ a >>> 2 = b >>> 2 := by
    rw [eq_comm, ← and_mask_inj]
    exact makeAddress_inj hdev hfunc hdev' hfunc'
  rw [Device.run_writeConfReg, Device.run_readConfReg, Device.run_readConfReg,
    ConfigState.store_space, Function.update_apply]
  simp only [hsame]
  rfl

/-- The second register of the last function of a bus, written through an odd offset. -/
theorem readConfReg_writeConfReg_lastFunction :
    let device : Device := ⟨0xff#8, 31#8, 7#8, 0#8⟩
    let s : ConfigState := ⟨⟨fun _ => 0#32, 0#32⟩, []⟩
    ((device.readConfReg 4#8).run ((device.writeConfReg .storage 7#8 0x12345678#32).run s).2).1 =
      0x12345678#32 :=
  readConfReg_writeConfReg _ _ (by decide) (by decide) (by decide) (by decide) _ _ _ _

end Pci

end Bitnos
