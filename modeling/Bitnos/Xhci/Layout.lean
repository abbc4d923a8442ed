/-
# The bit fields of blocks and contexts

Three unions overlay a block of sixteen bytes, and the contexts of slots and endpoints
are unions too. The compiler places their bit fields; the controller has places of its
own for them, given by dword and bit. The two are the same.
-/

import Bitnos.Math.BitField
import Bitnos.Xhci.Trb
import Mathlib.Tactic.IntervalCases

namespace Bitnos.Xhci

open BitField

/-! ### Declarations -/

section Decls

variable {ι : Type*}

/-- `uint32_t name : width` -/
def uint32 (name : ι) (width : ℕ) : Decl ι := ⟨some name, 32, width⟩

/-- `uint64_t name : width` -/
def uint64 (name : ι) (width : ℕ) : Decl ι := ⟨some name, 64, width⟩

/-- `uint32_t : width` -/
def unnamed (width : ℕ) : Decl ι := ⟨none, 32, width⟩

end Decls

/-- A place in the words of the controller: a dword, the lowest bit in it, and a number of
bits. What does not fit in the dword goes on in the next one. -/
structure Position where
  dword : ℕ
  bit : ℕ
  width : ℕ

def Position.start (p : Position) : ℕ := 32 * p.dword + p.bit

/-- The place as a field of all the words. -/
def Position.toField (p : Position) : Field := ⟨p.start, p.width⟩

/-- `dwords[j]` of a union with the given content. -/
def dword {n : ℕ} (x : BitVec n) (j : ℕ) : BitVec 32 := x.extractLsb' (32 * j) 32

/-- The fields of `TRB`. -/
inductive TRB.Name
  | parameter
  | status
  | cycleBit
  | evaluateNextTrb
  | trbType
  deriving DecidableEq

/-- `TRB::bits` -/
def TRB.bits : Layout TRB.Name (32 * 4) where
  decls := [
    uint64 .parameter 64,
    uint32 .status 32,
    uint32 .cycleBit 1,
    uint32 .evaluateNextTrb 1,
    unnamed 8,
    uint32 .trbType 6,
    unnamed 16]
  declared name := by cases name <;> rfl
  fits := by decide

/-- The template of a block. -/
def TRB.position : TRB.Name → Position
  | .parameter => ⟨0, 0, 64⟩
  | .status => ⟨2, 0, 32⟩
  | .cycleBit => ⟨3, 0, 1⟩
  | .evaluateNextTrb => ⟨3, 1, 1⟩
  | .trbType => ⟨3, 10, 6⟩

/-- The fields of `ConfigureEndpointCommandTRB`. -/
inductive ConfigureEndpointCommandTRB.Name
  | inputContextPointer
  | cycleBit
  | deconfigure
  | trbType
  | slotId
  deriving DecidableEq

/-- `ConfigureEndpointCommandTRB::bits` -/
def ConfigureEndpointCommandTRB.bits : Layout ConfigureEndpointCommandTRB.Name (32 * 4) where
  decls := [
    unnamed 4,
    uint64 .inputContextPointer 60,
    unnamed 32,
    uint32 .cycleBit 1,
    unnamed 8,
    uint32 .deconfigure 1,
    uint32 .trbType 6,
    unnamed 8,
    uint32 .slotId 8]
  declared name := by cases name <;> rfl
  fits := by decide

/-- The Configure Endpoint command. -/
def ConfigureEndpointCommandTRB.position : ConfigureEndpointCommandTRB.Name → Position
  | .inputContextPointer => ⟨0, 4, 60⟩
  | .cycleBit => ⟨3, 0, 1⟩
  | .deconfigure => ⟨3, 9, 1⟩
  | .trbType => ⟨3, 10, 6⟩
  | .slotId => ⟨3, 24, 8⟩

/-- The fields of `CommandCompletionEventTRB`. -/
inductive CommandCompletionEventTRB.Name
  | commandTrbPointer
  | commandCompletionParameter
  | completionCode
  | cycleBit
  | trbType
  | vfId
  | slotId
  deriving DecidableEq

/-- `CommandCompletionEventTRB::bits` -/
def CommandCompletionEventTRB.bits : Layout CommandCompletionEventTRB.Name (32 * 4) where
  decls := [
    unnamed 4,
    uint64 .commandTrbPointer 60,
    uint32 .commandCompletionParameter 24,
    uint32 .completionCode 8,
    uint32 .cycleBit 1,
    unnamed 9,
    uint32 .trbType 6,
    uint32 .vfId 8,
    uint32 .slotId 8]
  declared name := by cases name <;> rfl
  fits := by decide

/-- The Command Completion event. -/
def CommandCompletionEventTRB.position : CommandCompletionEventTRB.Name → Position
  | .commandTrbPointer => ⟨0, 4, 60⟩
  | .commandCompletionParameter => ⟨2, 0, 24⟩
  | .completionCode => ⟨2, 24, 8⟩
  | .cycleBit => ⟨3, 0, 1⟩
  | .trbType => ⟨3, 10, 6⟩
  | .vfId => ⟨3, 16, 8⟩
  | .slotId => ⟨3, 24, 8⟩

/-- The fields of `SlotContext`. -/
inductive SlotContext.Name
  | routeString
  | speed
  | mtt
  | hub
  | contextEntries
  | maxExitLatency
  | rootHubPortNum
  | numPorts
  | ttHubSlotId
  | ttPortNum
  | ttt
  | interrupterTarget
  | usbDeviceAddress
  | slotState
  deriving DecidableEq

/-- `SlotContext::bits` -/
def SlotContext.bits : Layout SlotContext.Name (32 * 8) where
  decls := [
    uint32 .routeString 20,
    uint32 .speed 4,
    unnamed 1,
    uint32 .mtt 1,
    uint32 .hub 1,
    uint32 .contextEntries 5,
    uint32 .maxExitLatency 16,
    uint32 .rootHubPortNum 8,
    uint32 .numPorts 8,
    uint32 .ttHubSlotId 8,
    uint32 .ttPortNum 8,
    uint32 .ttt 2,
    unnamed 4,
    uint32 .interrupterTarget 10,
    uint32 .usbDeviceAddress 8,
    unnamed 19,
    uint32 .slotState 5]
  declared name := by cases name <;> rfl
  fits := by decide

/-- The context of a slot. -/
def SlotContext.position : SlotContext.Name → Position
  | .routeString => ⟨0, 0, 20⟩
  | .speed => ⟨0, 20, 4⟩
  | .mtt => ⟨0, 25, 1⟩
  | .hub => ⟨0, 26, 1⟩
  | .contextEntries => ⟨0, 27, 5⟩
  | .maxExitLatency => ⟨1, 0, 16⟩
  | .rootHubPortNum => ⟨1, 16, 8⟩
  | .numPorts => ⟨1, 24, 8⟩
  | .ttHubSlotId => ⟨2, 0, 8⟩
  | .ttPortNum => ⟨2, 8, 8⟩
  | .ttt => ⟨2, 16, 2⟩
  | .interrupterTarget => ⟨2, 22, 10⟩
  | .usbDeviceAddress => ⟨3, 0, 8⟩
  | .slotState => ⟨3, 27, 5⟩

/-- The fields of `EndpointContext`. -/
inductive EndpointContext.Name
  | epState
  | mult
  | maxPrimaryStreams
  | linearStreamArray
  | interval
  | maxEsitPaylodHi
  | errorCount
  | epType
  | hostInitiateDisable
  | maxBurstSize
  | maxPacketSize
  | dequeueCycleState
  | trDequeuePointerLo
  | averageTrbLength
  | maxEsitPayloadLo
  deriving DecidableEq

/-- `EndpointContext::bits` -/
def EndpointContext.bits : Layout EndpointContext.Name (32 * 8) where
  decls := [
    uint32 .epState 3,
    unnamed 5,
    uint32 .mult 2,
    uint32 .maxPrimaryStreams 5,
    uint32 .linearStreamArray 1,
    uint32 .interval 8,
    uint32 .maxEsitPaylodHi 8,
    unnamed 1,
    uint32 .errorCount 2,
    uint32 .epType 3,
    unnamed 1,
    uint32 .hostInitiateDisable 1,
    uint32 .maxBurstSize 8,
    uint32 .maxPacketSize 16,
    uint32 .dequeueCycleState 1,
    unnamed 3,
    uint64 .trDequeuePointerLo 60,
    uint32 .averageTrbLength 16,
    uint32 .maxEsitPayloadLo 16]
  declared name := by cases name <;> rfl
  fits := by decide

/-- The context of an endpoint. The dequeue pointer takes the rest of its dword and all of
the next one. -/
def EndpointContext.position : EndpointContext.Name → Position
  | .epState => ⟨0, 0, 3⟩
  | .mult => ⟨0, 8, 2⟩
  | .maxPrimaryStreams => ⟨0, 10, 5⟩
  | .linearStreamArray => ⟨0, 15, 1⟩
  | .interval => ⟨0, 16, 8⟩
  | .maxEsitPaylodHi => ⟨0, 24, 8⟩
  | .errorCount => ⟨1, 1, 2⟩
  | .epType => ⟨1, 3, 3⟩
  | .hostInitiateDisable => ⟨1, 7, 1⟩
  | .maxBurstSize => ⟨1, 8, 8⟩
  | .maxPacketSize => ⟨1, 16, 16⟩
  | .dequeueCycleState => ⟨2, 0, 1⟩
  | .trDequeuePointerLo => ⟨2, 4, 60⟩
  | .averageTrbLength => ⟨4, 0, 16⟩
  | .maxEsitPayloadLo => ⟨4, 16, 16⟩

/-! ### Assignments -/

section Assignments

variable {ι : Type*} [DecidableEq ι] {k : ℕ}

/-- Assigning to a field of the union does what the controller expects, whatever its words
are. -/
structure Consistent (l : Layout ι (32 * k)) (position : ι → Position) : Prop where
  reads : ∀ name (value : BitVec 64) x,
    l.read name (l.assign name value x) = value.toNat % 2 ^ (position name).width
  others : ∀ name name' (value : BitVec 64) x, name ≠ name' →
    l.read name' (l.assign name value x) = l.read name' x
  reserved : ∀ name (value : BitVec 64) x i, i < 32 * k → l.Reserved i →
    (l.assign name value x).getLsbD i = x.getLsbD i
  dwords : ∀ name (value : BitVec 64) x, ∀ j < k, ∀ b < 32,
    (dword (l.assign name value x) j).getLsbD b =
      if (position name).toField.Covers (32 * j + b) then
        value.getLsbD (32 * j + b - (position name).start)
      else (dword x j).getLsbD b

theorem getLsbD_dword {n : ℕ} (x : BitVec n) (j : ℕ) {b : ℕ} (hb : b < 32) :
    (dword x j).getLsbD b = x.getLsbD (32 * j + b) := by
  rw [dword, BitVec.getLsbD_extractLsb', decide_eq_true hb, Bool.true_and]

/-- A layout that puts each field in its place is consistent. -/
theorem consistent_of_field_eq {l : Layout ι (32 * k)} {position : ι → Position}
    (hfield : ∀ name, l.field name = (position name).toField) : Consistent l position where
  reads name value x := by
    rw [Layout.read_assign_self, hfield]
    rfl
  others name name' value x hne := Layout.read_assign_of_ne value x hne
  reserved name value x i hi hreserved := Layout.getLsbD_assign_of_reserved value x hi hreserved
  dwords name value x j hj b hb := by
    rw [getLsbD_dword _ j hb, getLsbD_dword _ j hb, Layout.getLsbD_assign value x (by omega), hfield]
    rfl

end Assignments

theorem TRB.field_eq (name : TRB.Name) : bits.field name = (position name).toField := by
  cases name <;> rfl

theorem ConfigureEndpointCommandTRB.field_eq (name : ConfigureEndpointCommandTRB.Name) :
    bits.field name = (position name).toField := by
  cases name <;> rfl

theorem CommandCompletionEventTRB.field_eq (name : CommandCompletionEventTRB.Name) :
    bits.field name = (position name).toField := by
  cases name <;> rfl

theorem SlotContext.field_eq (name : SlotContext.Name) :
    bits.field name = (position name).toField := by
  cases name <;> rfl

theorem EndpointContext.field_eq (name : EndpointContext.Name) :
    bits.field name = (position name).toField := by
  cases name <;> rfl

/-- A slot context filled in field by field. -/
example :
    let x := SlotContext.bits.assign .routeString 0xdeadb#32 0#256
    let x := SlotContext.bits.assign .contextEntries 0x16#32 x
    let x := SlotContext.bits.assign .interrupterTarget 0x15a#32 x
    let x := SlotContext.bits.assign .usbDeviceAddress 0xa5#32 x
    [0, 1, 2, 3].map (dword x) = [0xb00deadb#32, 0#32, 0x56800000#32, 0xa5#32] := by
  decide +kernel

/-! ### The words of a block -/

theorem extractLsb'_dword {n : ℕ} (x : BitVec n) (j : ℕ) {b width : ℕ} (hfits : b + width ≤ 32) :
    (dword x j).extractLsb' b width = x.extractLsb' (32 * j + b) width := by
  apply BitVec.eq_of_getLsbD_eq
  intro i hi
  rw [BitVec.getLsbD_extractLsb', BitVec.getLsbD_extractLsb', getLsbD_dword x j (by omega),
    Nat.add_assoc]

/-- The content of the union that has the words of the block. -/
def TRB.Content (trb : TRB) (x : BitVec (32 * 4)) : Prop := ∀ i : Fin 4, Xhci.dword x i = trb.dword i

namespace TRB.Content

variable {trb : TRB} {x : BitVec (32 * 4)}

/-- The view reads the cycle bit the driver compares. -/
theorem read_cycleBit (h : trb.Content x) : bits.read .cycleBit x = trb.cycleBit.toNat := by
  change (x.extractLsb' (32 * 3 + 0) 1).toNat = ((trb.dword 3).extractLsb' 0 1).toNat
  have hword : Xhci.dword x 3 = trb.dword 3 := h 3
  rw [← hword, extractLsb'_dword x 3 (by decide)]

theorem read_trbType (h : trb.Content x) : bits.read .trbType x = trb.trbType.toNat := by
  change (x.extractLsb' (32 * 3 + 10) 6).toNat = ((trb.dword 3).extractLsb' 10 6).toNat
  have hword : Xhci.dword x 3 = trb.dword 3 := h 3
  rw [← hword, extractLsb'_dword x 3 (by decide)]

end TRB.Content

/-- The command the driver builds field by field has the words that are copied. -/
theorem ConfigureEndpointCommandTRB.content_dwords (cmd : ConfigureEndpointCommandTRB) :
    let assigned := bits.assign .cycleBit cmd.cycleBit 0#(32 * 4)
    let assigned := bits.assign .inputContextPointer cmd.inputContextPointer assigned
    let assigned := bits.assign .deconfigure cmd.deconfigure assigned
    let assigned := bits.assign .trbType cmd.trbType assigned
    TRB.Content ⟨cmd.dwords⟩ (bits.assign .slotId cmd.slotId assigned) := by
  intro a1 a2 a3 a4 ⟨j, hj⟩
  apply BitVec.eq_of_getLsbD_eq
  intro b hb
  have hi : 32 * j + b < 32 * 4 := by omega
  rw [getLsbD_dword _ j hb]
  simp only [a1, a2, a3, a4, Layout.getLsbD_assign _ _ hi, field_eq, position, Position.toField,
    Position.start, Field.Covers]
  -- every word is made of a few of the fields
  interval_cases j
  · change _ = ((cmd.inputContextPointer ++ 0#4).extractLsb' 0 32).getLsbD b
    rw [BitVec.getLsbD_extractLsb', BitVec.getLsbD_append]
    grind
  · change _ = ((cmd.inputContextPointer ++ 0#4).extractLsb' 32 32).getLsbD b
    rw [BitVec.getLsbD_extractLsb', BitVec.getLsbD_append]
    grind
  · change _ = (0#32).getLsbD b
    grind
  · change _ = (cmd.slotId ++ 0#8 ++ cmd.trbType ++ cmd.deconfigure ++ 0#8 ++ cmd.cycleBit).getLsbD b
    simp only [BitVec.getLsbD_append]
    grind

/-! ### One block, three views -/

/-- The views of a block read the same cycle bit and type, and the general parameter is a
pointer with four bits under it. -/
structure ViewsAgree (x : BitVec (32 * 4)) : Prop where
  cycleBit_command : ConfigureEndpointCommandTRB.bits.read .cycleBit x = TRB.bits.read .cycleBit x
  cycleBit_event : CommandCompletionEventTRB.bits.read .cycleBit x = TRB.bits.read .cycleBit x
  trbType_command : ConfigureEndpointCommandTRB.bits.read .trbType x = TRB.bits.read .trbType x
  trbType_event : CommandCompletionEventTRB.bits.read .trbType x = TRB.bits.read .trbType x
  parameter_command : TRB.bits.read .parameter x =
    16 * ConfigureEndpointCommandTRB.bits.read .inputContextPointer x + (dword x 0).toNat % 16
  parameter_event : TRB.bits.read .parameter x =
    16 * CommandCompletionEventTRB.bits.read .commandTrbPointer x + (dword x 0).toNat % 16

/-- A word of 64 bits is its upper 60 bits above its lower four. -/
theorem toNat_extractLsb'_eq {n : ℕ} (x : BitVec n) : (x.extractLsb' 0 64).toNat =
    16 * (x.extractLsb' 4 60).toNat + (dword x 0).toNat % 16 := by
  simp only [dword, BitVec.extractLsb'_toNat, Nat.shiftRight_eq_div_pow]
  omega

theorem viewsAgree (x : BitVec (32 * 4)) : ViewsAgree x where
  cycleBit_command := rfl
  cycleBit_event := rfl
  trbType_command := rfl
  trbType_event := rfl
  parameter_command := toNat_extractLsb'_eq x
  parameter_event := toNat_extractLsb'_eq x

/-- The compiler puts every field where the controller has it, and the views of a block are
views of one thing. -/
theorem layouts_consistent :
    (∀ x, ViewsAgree x) ∧
      Consistent TRB.bits TRB.position ∧
      Consistent ConfigureEndpointCommandTRB.bits ConfigureEndpointCommandTRB.position ∧
      Consistent CommandCompletionEventTRB.bits CommandCompletionEventTRB.position ∧
      Consistent SlotContext.bits SlotContext.position ∧
      Consistent EndpointContext.bits EndpointContext.position := by
  refine ⟨viewsAgree, ?_, ?_, ?_, ?_, ?_⟩
  · exact consistent_of_field_eq TRB.field_eq
  · exact consistent_of_field_eq ConfigureEndpointCommandTRB.field_eq
  · exact consistent_of_field_eq CommandCompletionEventTRB.field_eq
  · exact consistent_of_field_eq SlotContext.field_eq
  · exact consistent_of_field_eq EndpointContext.field_eq

end Bitnos.Xhci
