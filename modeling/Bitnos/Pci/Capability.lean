/-
# Capabilities

`ReadCapabilityPointer`, `ReadCapabilityStructure`, `ReadPcieCapabilityStructure` and
the loop of `lspci` over the capabilities of a device. The loop goes where the device
points it and ends at a zero pointer. The low two bits of a pointer are lost when a
register is read, so what the loop follows are register offsets: it is a chain, and
whether it ends depends on whether the links of that chain form a cycle.
-/

import Bitnos.Math.Chain
import Bitnos.Pci.Device

namespace Bitnos.Pci

structure Capability where
  capId : BitVec 8
  nextPtr : BitVec 8
  deriving DecidableEq

structure PcieCapability extends Capability where
  pcieCap : BitVec 16
  deviceCap : BitVec 32
  deviceControl : BitVec 16
  deviceStatus : BitVec 16
  linkCap : BitVec 32
  linkControl : BitVec 16
  linkStatus : BitVec 16
  slotCap : BitVec 32
  slotControl : BitVec 16
  slotStatus : BitVec 16
  rootControl : BitVec 16
  rootStatus : BitVec 32
  deriving DecidableEq

def Device.readCapabilityPointer (device : Device) : ConfigM (BitVec 8) := do
  let ptr ← device.readConfReg 0x34#8
  return ptr.setWidth 8

def Device.readCapabilityStructure (device : Device) (addr : BitVec 8) : ConfigM Capability := do
  let cap ← device.readConfReg addr
  return {
    capId := (cap &&& 0xff#32).setWidth 8
    nextPtr := ((cap >>> 8) &&& 0xff#32).setWidth 8 }

/-- `ReadPcieCapabilityStructure`. The structure it fills in is a local variable; `stack` is
what the variable holds before. -/
def readPcieCapabilityStructure (stack : PcieCapability) (device : Device) (addr : BitVec 8) :
    ConfigM PcieCapability := do
  let low (reg : BitVec 32) : BitVec 16 := (reg &&& 0xffff#32).setWidth 16
  let high (reg : BitVec 32) : BitVec 16 := ((reg >>> 16) &&& 0xffff#32).setWidth 16
  let reg0 ← device.readConfReg addr
  let deviceCap ← device.readConfReg (addr + 4#8)
  let reg2 ← device.readConfReg (addr + 8#8)
  let linkCap ← device.readConfReg (addr + 12#8)
  let reg4 ← device.readConfReg (addr + 16#8)
  let slotCap ← device.readConfReg (addr + 20#8)
  let reg6 ← device.readConfReg (addr + 24#8)
  let reg7 ← device.readConfReg (addr + 28#8)
  let rootStatus ← device.readConfReg (addr + 32#8)
  return { stack with
    pcieCap := high reg0
    deviceCap
    deviceControl := low reg2
    deviceStatus := high reg2
    linkCap
    linkControl := low reg4
    linkStatus := high reg4
    slotCap
    slotControl := low reg6
    slotStatus := high reg6
    rootControl := low reg7
    rootStatus }

/-! ### The loop of `lspci` -/

/-- What `lspci` prints about a capability. -/
inductive CapabilityLine
  | pcie (pcieCap : BitVec 16) (deviceCap : BitVec 32) (deviceControl deviceStatus : BitVec 16)
  | other (capId : BitVec 8)
  deriving DecidableEq

variable (stack : PcieCapability) (device : Device)

/-- One round of the loop: the line printed, and the next value of `cap_ptr`. -/
def showCapability (capPtr : BitVec 8) : ConfigM (CapabilityLine × BitVec 8) := do
  let cap ← device.readCapabilityStructure capPtr
  if cap.capId = 0x10#8 then
    let pcieCap ← readPcieCapabilityStructure stack device capPtr
    return (.pcie pcieCap.pcieCap pcieCap.deviceCap pcieCap.deviceControl pcieCap.deviceStatus,
      cap.nextPtr)
  else
    return (.other cap.capId, cap.nextPtr)

/-- `while (cap_ptr != 0)`, for at most the given number of tests of the condition. What a loop
that ends has visited is the list of pointers followed, each with the line printed. -/
def capabilityLoop : ℕ → BitVec 8 → ConfigM (Option (List (BitVec 8 × CapabilityLine)))
  | 0, _ => return none
  | fuel + 1, capPtr =>
    if capPtr = 0#8 then
      return some []
    else do
      let (line, nextPtr) ← showCapability stack device capPtr
      let visits ← capabilityLoop fuel nextPtr
      return visits.map ((capPtr, line) :: ·)

/-- The part of `lspci` that lists capabilities. -/
def lspciCapabilities (fuel : ℕ) : ConfigM (Option (List (BitVec 8 × CapabilityLine))) := do
  let capPtr ← device.readCapabilityPointer
  capabilityLoop stack device fuel capPtr

/-! ### Offsets -/

/-- The register offset a pointer stands for, if it does not end the list. -/
def offsetOf (capPtr : BitVec 8) : Option (BitVec 8) :=
  if capPtr = 0#8 then none else some (capPtr &&& 0xfc#8)

/-- The offset of the capability after the one at an offset. -/
def nextOffset (device : Device) (space : ConfigSpace) (offset : BitVec 8) : Option (BitVec 8) :=
  offsetOf (((space (device.address offset) >>> 8) &&& 0xff#32).setWidth 8)

/-- The offset of the first capability. -/
def firstOffset (device : Device) (space : ConfigSpace) : Option (BitVec 8) :=
  offsetOf ((space (device.address 0x34#8)).setWidth 8)

section Loop

variable (stack : PcieCapability) (device : Device) (s : ConfigState) (fuel : ℕ) (capPtr : BitVec 8)

/-- The low two bits of a pointer do not matter. -/
@[simp] theorem address_and_mask : device.address (capPtr &&& 0xfc#8) = device.address capPtr := by
  rw [Device.address_inj, BitVec.and_assoc, BitVec.and_self]

/-- One round goes on to the next pointer of the capability, whatever it prints. -/
theorem run_showCapability : ∃ line a, (showCapability stack device capPtr).run s =
    ((line, ((s.space (device.address capPtr) >>> 8) &&& 0xff#32).setWidth 8), s.latch a) := by
  have hcap : (device.readCapabilityStructure capPtr).run s = (_, s.latch (device.address capPtr)) :=
    rfl
  rw [showCapability, run_bind_of_run hcap]
  split_ifs
  · exact ⟨_, device.address (capPtr + 32#8), rfl⟩
  · exact ⟨_, device.address capPtr, rfl⟩

/-- The loop follows the chain of the offsets. The last test of its condition prints nothing. -/
theorem run_capabilityLoop : ∃ visits a,
    (capabilityLoop stack device (fuel + 1) capPtr).run s = (visits, s.latch a) ∧
      visits.map (List.map fun visit => visit.1 &&& 0xfc#8) =
        (match offsetOf capPtr with
        | none => some []
        | some offset => Chain.follow (nextOffset device s.space) fuel offset) := by
  induction fuel generalizing s capPtr with
  | zero =>
    by_cases hzero : capPtr = 0#8
    · subst hzero
      exact ⟨some [], s.ports.address, rfl, rfl⟩
    · obtain ⟨line, a, hshow⟩ := run_showCapability stack device s capPtr
      rw [capabilityLoop, offsetOf, if_neg hzero, if_neg hzero, run_bind_of_run hshow]
      exact ⟨none, a, rfl, rfl⟩
  | succ fuel ih =>
    by_cases hzero : capPtr = 0#8
    · subst hzero
      exact ⟨some [], s.ports.address, rfl, rfl⟩
    · obtain ⟨line, a, hshow⟩ := run_showCapability stack device s capPtr
      obtain ⟨visits, b, hrest, hoffsets⟩ := ih (s.latch a)
        (((s.space (device.address capPtr) >>> 8) &&& 0xff#32).setWidth 8)
      refine ⟨visits.map ((capPtr, line) :: ·), b, ?_, ?_⟩
      · rw [capabilityLoop, if_neg hzero, run_bind_of_run hshow, run_bind_of_run hrest]
        rfl
      · -- the offset of this visit comes before those of the others
        have hcons : (visits.map ((capPtr, line) :: ·)).map (List.map fun visit => visit.1 &&& 0xfc#8) =
            (visits.map (List.map fun visit => visit.1 &&& 0xfc#8)).map ((capPtr &&& 0xfc#8) :: ·) := by
          cases visits <;> rfl
        rw [hcons, hoffsets, ConfigState.latch_space, offsetOf, offsetOf, if_neg hzero]
        simp only [Chain.follow, nextOffset, address_and_mask, offsetOf]
        split_ifs <;> rfl

/-- The loop of `lspci` follows the chain from the first offset. -/
theorem offsets_lspciCapabilities :
    ((lspciCapabilities stack device (fuel + 1)).run s).1.map
        (List.map fun visit => visit.1 &&& 0xfc#8) =
      (match firstOffset device s.space with
      | none => some []
      | some offset => Chain.follow (nextOffset device s.space) fuel offset) := by
  have hptr : device.readCapabilityPointer.run s =
      ((s.space (device.address 0x34#8)).setWidth 8, s.latch (device.address 0x34#8)) := rfl
  obtain ⟨visits, a, hrun, hoffsets⟩ := run_capabilityLoop stack device
    (s.latch (device.address 0x34#8)) fuel ((s.space (device.address 0x34#8)).setWidth 8)
  rw [lspciCapabilities, run_bind_of_run hptr, hrun]
  exact hoffsets

/-- The loop ends exactly when the chain from the first offset does. -/
theorem lspciCapabilities_ends_iff_follow :
    (∃ fuel visits, ((lspciCapabilities stack device fuel).run s).1 = some visits) ↔
      ∀ first ∈ firstOffset device s.space, ∃ fuel ns,
        Chain.follow (nextOffset device s.space) fuel first = some ns := by
  have hoffsets := offsets_lspciCapabilities stack device s
  constructor
  · rintro ⟨fuel, visits, hvisits⟩ first hfirst
    cases fuel with
    | zero => cases hvisits
    | succ fuel =>
      have hfollow := hoffsets fuel
      rw [hvisits, Option.mem_def.mp hfirst] at hfollow
      exact ⟨fuel, _, hfollow.symm⟩
  · intro hends
    cases hfirst : firstOffset device s.space with
    | none =>
      obtain ⟨visits, hvisits, -⟩ := Option.map_eq_some_iff.mp
        ((hoffsets 0).trans (by rw [hfirst]))
      exact ⟨1, visits, hvisits⟩
    | some first =>
      obtain ⟨fuel, ns, hfollow⟩ := hends first hfirst
      obtain ⟨visits, hvisits, -⟩ := Option.map_eq_some_iff.mp
        ((hoffsets fuel).trans (by rw [hfirst]; exact hfollow))
      exact ⟨fuel + 1, visits, hvisits⟩

/-- A loop that ends has visited each offset once. -/
theorem nodup_lspciCapabilities {visits : List (BitVec 8 × CapabilityLine)}
    (hvisits : ((lspciCapabilities stack device fuel).run s).1 = some visits) :
    (visits.map fun visit => visit.1 &&& 0xfc#8).Nodup := by
  cases fuel with
  | zero => cases hvisits
  | succ fuel =>
    have hfollow := offsets_lspciCapabilities stack device s fuel
    rw [hvisits] at hfollow
    cases hfirst : firstOffset device s.space with
    | none =>
      rw [hfirst] at hfollow
      rw [Option.some.inj hfollow]
      exact List.nodup_nil
    | some first =>
      rw [hfirst] at hfollow
      exact Chain.nodup_follow hfollow.symm

end Loop

/-- One capability is linked to another. -/
abbrev LinksTo (device : Device) (space : ConfigSpace) : BitVec 8 → BitVec 8 → Prop :=
  Chain.Links (nextOffset device space)

/-- The loop over the capabilities ends exactly when no capability that can be reached from the
first one is linked back to itself, and a loop that ends visits no offset twice. -/
theorem lspciCapabilities_ends_iff (stack : PcieCapability) (device : Device) (s : ConfigState) :
    ((∃ fuel visits, ((lspciCapabilities stack device fuel).run s).1 = some visits) ↔
        ∀ first ∈ firstOffset device s.space, ∀ offset,
          Relation.ReflTransGen (LinksTo device s.space) first offset →
            ¬ Relation.TransGen (LinksTo device s.space) offset offset) ∧
      ∀ fuel visits, ((lspciCapabilities stack device fuel).run s).1 = some visits →
        (visits.map fun visit => visit.1 &&& 0xfc#8).Nodup := by
  have : Finite (BitVec 8) :=
    Finite.of_injective BitVec.toFin fun _ _ heq => BitVec.toFin_inj.mp heq
  refine ⟨?_, fun fuel visits hvisits => nodup_lspciCapabilities stack device s fuel hvisits⟩
  rw [lspciCapabilities_ends_iff_follow]
  exact forall₂_congr fun first _ => Chain.exists_follow_iff

/-- A function that answers all-ones: the pointer leads to the last register, which leads to
itself. -/
theorem lspciCapabilities_allOnes :
    let stack : PcieCapability := ⟨⟨0#8, 0#8⟩, 0#16, 0#32, 0#16, 0#16, 0#32, 0#16, 0#16, 0#32, 0#16,
      0#16, 0#16, 0#32⟩
    let device : Device := ⟨0#8, 31#8, 7#8, 0#8⟩
    ∀ fuel, ((lspciCapabilities stack device fuel).run ⟨⟨fun _ => 0xffffffff#32, 0#32⟩, []⟩).1 =
      none := by
  intro stack device fuel
  cases fuel with
  | zero => rfl
  | succ fuel =>
    have hfirst : firstOffset device (fun _ => 0xffffffff#32) = some 0xfc#8 := by
      change offsetOf ((0xffffffff#32).setWidth 8) = some 0xfc#8
      decide
    have hself : nextOffset device (fun _ => 0xffffffff#32) 0xfc#8 = some 0xfc#8 := by
      change offsetOf (((0xffffffff#32 >>> 8) &&& 0xff#32).setWidth 8) = some 0xfc#8
      decide
    have hoffsets := offsets_lspciCapabilities stack device
      ⟨⟨fun _ => 0xffffffff#32, 0#32⟩, []⟩ fuel
    simp only [ConfigState.space, hfirst, Chain.follow_eq_none hself] at hoffsets
    exact Option.map_eq_none_iff.mp hoffsets

end Bitnos.Pci
