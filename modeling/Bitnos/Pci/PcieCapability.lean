/-
# The PCI Express capability, byte by byte

`ReadPcieCapabilityStructure` reads nine registers and takes them apart. What it should
give is said in terms of the bytes of the configuration space: each field has an offset
and a width, and its bytes lie there lowest first. The structure begins with an
identifier and a link, which `ReadCapabilityStructure` reads as well; those two fields
are not filled in.
-/

import Bitnos.Math.Bytes
import Bitnos.Pci.Capability

namespace Bitnos.Pci

/-! ### Bytes of the configuration space -/

/-- The bytes of the configuration space of a device. A register holds four of them, lowest
first. -/
def Device.configBytes (device : Device) (space : ConfigSpace) : Bytes.Memory 8 := fun p =>
  (space (device.address p) >>> (8 * (p.toNat % 4))).setWidth 8

section Loads

variable {device : Device} {space : ConfigSpace} {addr : BitVec 8} {k n : ℕ}

/-- Offsets name the same register when they lie in the same group of four. -/
theorem Device.address_eq_of_div {addr' : BitVec 8} (h : addr.toNat / 4 = addr'.toNat / 4) :
    device.address addr = device.address addr' := by
  rw [Device.address_inj, and_mask_inj, ← BitVec.toNat_inj]
  simpa [Nat.shiftRight_eq_div_pow] using h

/-- The bytes of a register. -/
theorem configBytes_add (haligned : addr.toNat % 4 = 0) {i : ℕ} (hi : i < 4) :
    device.configBytes space (addr + BitVec.ofNat 8 i) =
      (space (device.address addr)).extractLsb' (8 * i) 8 := by
  have hlt := addr.isLt
  have hsum : (addr + BitVec.ofNat 8 i).toNat = addr.toNat + i := by
    rw [BitVec.toNat_add, BitVec.toNat_ofNat]
    omega
  have hregister : device.address (addr + BitVec.ofNat 8 i) = device.address addr :=
    Device.address_eq_of_div (by omega)
  have hmod : (addr.toNat + i) % 4 = i := by omega
  rw [Device.configBytes, hregister, hsum, hmod]
  apply BitVec.eq_of_getLsbD_eq
  intro j hj
  rw [BitVec.getLsbD_setWidth, BitVec.getLsbD_ushiftRight, BitVec.getLsbD_extractLsb']

/-- A field within one register. -/
theorem load_configBytes (haligned : addr.toNat % 4 = 0) (hk : k + n ≤ 4) :
    Bytes.load (device.configBytes space) (addr + BitVec.ofNat 8 k) n =
      (space (device.address addr)).extractLsb' (8 * k) (8 * n) := by
  apply BitVec.eq_of_getLsbD_eq
  intro i hi
  have hmod : i % 8 < 8 := Nat.mod_lt _ (by omega)
  have hbit : 8 * (k + i / 8) + i % 8 = 8 * k + i := by omega
  rw [Bytes.getLsbD_load hi, BitVec.add_assoc, ← BitVec.ofNat_add,
    configBytes_add haligned (by omega), BitVec.getLsbD_extractLsb', BitVec.getLsbD_extractLsb',
    decide_eq_true hmod, decide_eq_true hi, hbit]

/-- A field within a register of the capability. -/
theorem load_configBytes_register (haligned : addr.toNat % 4 = 0) (j : ℕ) (hk : k + n ≤ 4) :
    Bytes.load (device.configBytes space) (addr + BitVec.ofNat 8 (4 * j + k)) n =
      (space (device.address (addr + BitVec.ofNat 8 (4 * j)))).extractLsb' (8 * k) (8 * n) := by
  have hregister : (addr + BitVec.ofNat 8 (4 * j)).toNat % 4 = 0 := by
    rw [BitVec.toNat_add, BitVec.toNat_ofNat]
    omega
  rw [← load_configBytes hregister hk, BitVec.add_assoc, ← BitVec.ofNat_add]

/-- A whole register. -/
theorem register_eq_load (haligned : addr.toNat % 4 = 0) (j : ℕ) :
    space (device.address (addr + BitVec.ofNat 8 (4 * j))) =
      Bytes.load (device.configBytes space) (addr + BitVec.ofNat 8 (4 * j)) 4 :=
  BitVec.extractLsb'_eq_self.symm.trans
    (load_configBytes_register (k := 0) (n := 4) haligned j (by omega)).symm

/-- The lower half of a register. -/
theorem low_eq_load (haligned : addr.toNat % 4 = 0) (j : ℕ) :
    (space (device.address (addr + BitVec.ofNat 8 (4 * j))) &&& 0xffff#32).setWidth 16 =
      Bytes.load (device.configBytes space) (addr + BitVec.ofNat 8 (4 * j)) 2 := by
  have hfield := BitMask.field_eq_extractLsb' (k := 16)
    (space (device.address (addr + BitVec.ofNat 8 (4 * j)))) 0
  rw [BitVec.ushiftRight_zero] at hfield
  exact hfield.trans (load_configBytes_register (k := 0) (n := 2) haligned j (by omega)).symm

/-- The upper half of a register. -/
theorem high_eq_load (haligned : addr.toNat % 4 = 0) (j : ℕ) :
    ((space (device.address (addr + BitVec.ofNat 8 (4 * j))) >>> 16) &&& 0xffff#32).setWidth 16 =
      Bytes.load (device.configBytes space) (addr + BitVec.ofNat 8 (4 * j + 2)) 2 :=
  (BitMask.field_eq_extractLsb' (k := 16) _ 16).trans
    (load_configBytes_register (k := 2) (n := 2) haligned j (by omega)).symm

end Loads

/-! ### What a reader depends on -/

/-- The code only reads, and registers at other addresses do not matter to it. -/
def ReadsWithin {α : Type} (P : BitVec 32 → Prop) (x : ConfigM α) : Prop :=
  ∀ s, (x.run s).2.space = s.space ∧
    ∀ t : ConfigState, (∀ a, P a → t.space a = s.space a) → (x.run t).1 = (x.run s).1

namespace ReadsWithin

variable {α β : Type} {P : BitVec 32 → Prop}

theorem pure (a : α) : ReadsWithin P (Pure.pure a : ConfigM α) :=
  fun _ => ⟨rfl, fun _ _ => rfl⟩

theorem bind {x : ConfigM α} {f : α → ConfigM β} (hx : ReadsWithin P x)
    (hf : ∀ a, ReadsWithin P (f a)) : ReadsWithin P (x >>= f) := by
  intro s
  have hs : (x >>= f).run s = (f (x.run s).1).run (x.run s).2 := run_bind_of_run rfl f
  rw [hs]
  refine ⟨((hf _ _).1).trans (hx s).1, fun t hsame => ?_⟩
  have ht : (x >>= f).run t = (f (x.run t).1).run (x.run t).2 := run_bind_of_run rfl f
  rw [ht, (hx s).2 t hsame]
  apply (hf (x.run s).1 (x.run s).2).2
  intro a ha
  rw [(hx t).1, (hx s).1, hsame a ha]

theorem readConfReg {device : Device} {addr : BitVec 8} (h : P (device.address addr)) :
    ReadsWithin P (device.readConfReg addr) :=
  fun _ => ⟨rfl, fun _ hsame => hsame _ h⟩

end ReadsWithin

/-! ### The fields -/

/-- The fields of its own that a structure should have for a capability at an offset. -/
structure HoldsPcieFields (device : Device) (space : ConfigSpace) (addr : BitVec 8)
    (cap : PcieCapability) : Prop where
  pcieCap : cap.pcieCap = Bytes.load (device.configBytes space) (addr + 2#8) 2
  deviceCap : cap.deviceCap = Bytes.load (device.configBytes space) (addr + 4#8) 4
  deviceControl : cap.deviceControl = Bytes.load (device.configBytes space) (addr + 8#8) 2
  deviceStatus : cap.deviceStatus = Bytes.load (device.configBytes space) (addr + 10#8) 2
  linkCap : cap.linkCap = Bytes.load (device.configBytes space) (addr + 12#8) 4
  linkControl : cap.linkControl = Bytes.load (device.configBytes space) (addr + 16#8) 2
  linkStatus : cap.linkStatus = Bytes.load (device.configBytes space) (addr + 18#8) 2
  slotCap : cap.slotCap = Bytes.load (device.configBytes space) (addr + 20#8) 4
  slotControl : cap.slotControl = Bytes.load (device.configBytes space) (addr + 24#8) 2
  slotStatus : cap.slotStatus = Bytes.load (device.configBytes space) (addr + 26#8) 2
  rootControl : cap.rootControl = Bytes.load (device.configBytes space) (addr + 28#8) 2
  rootStatus : cap.rootStatus = Bytes.load (device.configBytes space) (addr + 32#8) 4

section Decoders

variable (stack : PcieCapability) (device : Device) (addr : BitVec 8) (s : ConfigState)

/-- The address is that of a register of a capability at an offset. No offset wraps around. -/
def InCapability (a : BitVec 32) : Prop :=
  ∃ offset : BitVec 8, addr.toNat ≤ offset.toNat ∧ offset.toNat < addr.toNat + 36 ∧
    a = device.address offset

/-- The two decoders agree on the fields they share, the others are those of the capability, and
nothing is read outside the capability. -/
structure DecodersAgree : Prop where
  inherited : ((readPcieCapabilityStructure stack device addr).run s).1.toCapability =
    ((device.readCapabilityStructure addr).run s).1
  own : HoldsPcieFields device s.space addr
    ((readPcieCapabilityStructure stack device addr).run s).1
  confined : ReadsWithin (InCapability device addr) (readPcieCapabilityStructure stack device addr)

variable {stack device addr s}

/-- Nothing writes to the fields that come from `Capability`. -/
theorem toCapability_readPcieCapabilityStructure :
    ((readPcieCapabilityStructure stack device addr).run s).1.toCapability = stack.toCapability :=
  rfl

theorem holdsPcieFields (haligned : addr.toNat % 4 = 0) : HoldsPcieFields device s.space addr
    ((readPcieCapabilityStructure stack device addr).run s).1 where
  pcieCap := by
    have hfirst : ((s.space (device.address (addr + BitVec.ofNat 8 (4 * 0))) >>> 16) &&&
        0xffff#32).setWidth 16 = _ := high_eq_load haligned 0
    rwa [Nat.mul_zero, BitVec.add_zero] at hfirst
  deviceCap := register_eq_load haligned 1
  deviceControl := low_eq_load haligned 2
  deviceStatus := high_eq_load haligned 2
  linkCap := register_eq_load haligned 3
  linkControl := low_eq_load haligned 4
  linkStatus := high_eq_load haligned 4
  slotCap := register_eq_load haligned 5
  slotControl := low_eq_load haligned 6
  slotStatus := high_eq_load haligned 6
  rootControl := low_eq_load haligned 7
  rootStatus := register_eq_load haligned 8

/-- What the other decoder finds in the first two bytes. -/
theorem readCapabilityStructure_eq (haligned : addr.toNat % 4 = 0) :
    ((device.readCapabilityStructure addr).run s).1 =
      ⟨device.configBytes s.space addr, device.configBytes s.space (addr + 1#8)⟩ := by
  have hid := BitMask.field_eq_extractLsb' (k := 8) (s.space (device.address addr)) 0
  have hnext := BitMask.field_eq_extractLsb' (k := 8) (s.space (device.address addr)) 8
  have hzero : device.configBytes s.space (addr + BitVec.ofNat 8 0) = _ :=
    configBytes_add haligned (by omega)
  have hone : device.configBytes s.space (addr + BitVec.ofNat 8 1) = _ :=
    configBytes_add haligned (by omega)
  rw [BitVec.ushiftRight_zero] at hid
  rw [BitVec.add_zero] at hzero
  rw [hzero, hone]
  exact congrArg₂ Capability.mk hid hnext

/-- A capability that ends within the configuration space is read without wrapping around. -/
theorem readsWithin_readPcieCapabilityStructure (hend : addr.toNat ≤ 0xdc) :
    ReadsWithin (InCapability device addr) (readPcieCapabilityStructure stack device addr) := by
  have hregister : ∀ k < 36,
      InCapability device addr (device.address (addr + BitVec.ofNat 8 k)) := by
    intro k hk
    have hsum : (addr + BitVec.ofNat 8 k).toNat = addr.toNat + k := by
      rw [BitVec.toNat_add, BitVec.toNat_ofNat]
      omega
    exact ⟨_, by omega, by omega, rfl⟩
  refine .bind (.readConfReg ⟨addr, le_rfl, by omega, rfl⟩) fun _ => ?_
  refine .bind (.readConfReg (hregister 4 (by omega))) fun _ => ?_
  refine .bind (.readConfReg (hregister 8 (by omega))) fun _ => ?_
  refine .bind (.readConfReg (hregister 12 (by omega))) fun _ => ?_
  refine .bind (.readConfReg (hregister 16 (by omega))) fun _ => ?_
  refine .bind (.readConfReg (hregister 20 (by omega))) fun _ => ?_
  refine .bind (.readConfReg (hregister 24 (by omega))) fun _ => ?_
  refine .bind (.readConfReg (hregister 28 (by omega))) fun _ => ?_
  exact .bind (.readConfReg (hregister 32 (by omega))) fun _ => .pure _

end Decoders

/-- **Two decoders.** They agree on a capability exactly when the structure happened to hold its
identifier and its link before. -/
theorem decodersAgree_iff (stack : PcieCapability) (device : Device) (addr : BitVec 8)
    (s : ConfigState) (haligned : addr.toNat % 4 = 0) (hend : addr.toNat ≤ 0xdc) :
    DecodersAgree stack device addr s ↔
      stack.capId = device.configBytes s.space addr ∧
        stack.nextPtr = device.configBytes s.space (addr + 1#8) := by
  have hinherited : ((readPcieCapabilityStructure stack device addr).run s).1.toCapability =
      ((device.readCapabilityStructure addr).run s).1 ↔
        stack.capId = device.configBytes s.space addr ∧
          stack.nextPtr = device.configBytes s.space (addr + 1#8) := by
    rw [toCapability_readPcieCapabilityStructure, readCapabilityStructure_eq haligned]
    exact Capability.mk.injEq .. ▸ Iff.rfl
  constructor
  · exact fun h => hinherited.mp h.inherited
  · intro hstack
    exact ⟨hinherited.mpr hstack, holdsPcieFields haligned,
      readsWithin_readPcieCapabilityStructure hend⟩

/-- A capability at 0x40 that is the last one of its list, read into a structure of zeros but for
the identifier. -/
theorem decodersAgree_iff_lastCapability :
    let stack : PcieCapability := ⟨⟨0x10#8, 0#8⟩, 0#16, 0#32, 0#16, 0#16, 0#32, 0#16, 0#16, 0#32,
      0#16, 0#16, 0#16, 0#32⟩
    let device : Device := ⟨1#8, 0#8, 0#8, 0#8⟩
    DecodersAgree stack device 0x40#8 ⟨⟨fun _ => 0x00020010#32, 0#32⟩, []⟩ :=
  (decodersAgree_iff _ _ _ _ (by decide) (by decide)).mpr ⟨by decide +kernel, by decide +kernel⟩

/-- The same capability read into a structure of zeros has identifier zero. -/
theorem not_decodersAgree_zeros :
    let stack : PcieCapability := ⟨⟨0#8, 0#8⟩, 0#16, 0#32, 0#16, 0#16, 0#32, 0#16, 0#16, 0#32,
      0#16, 0#16, 0#16, 0#32⟩
    let device : Device := ⟨1#8, 0#8, 0#8, 0#8⟩
    let s : ConfigState := ⟨⟨fun _ => 0x00020010#32, 0#32⟩, []⟩
    ((readPcieCapabilityStructure stack device 0x40#8).run s).1.capId = 0#8 ∧
      ((device.readCapabilityStructure 0x40#8).run s).1.capId = 0x10#8 ∧
      ¬ DecodersAgree stack device 0x40#8 s := by
  intro stack device s
  have hid : ((device.readCapabilityStructure 0x40#8).run s).1.capId = 0x10#8 := by decide +kernel
  refine ⟨rfl, hid, fun h => ?_⟩
  have hcapId := congrArg Capability.capId h.inherited
  rw [hid] at hcapId
  exact absurd hcapId (by decide)

end Bitnos.Pci
