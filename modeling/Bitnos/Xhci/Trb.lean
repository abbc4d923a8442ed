/-
# Transfer request blocks

The blocks of sixteen bytes that driver and controller exchange: the general view
with the cycle bit and the type, and the Configure Endpoint command as the driver
builds it.
-/

import Mathlib.Data.List.Basic

namespace Bitnos.Xhci

/-- `union TRB`, as its four words. -/
structure TRB where
  dwords : Vector (BitVec 32) 4
  deriving DecidableEq

namespace TRB

/-- What `memset` leaves. -/
def zero : TRB where
  dwords := .replicate 4 0#32

/-- `dwords[i]` -/
def dword (trb : TRB) (i : Fin 4) : BitVec 32 := trb.dwords[i]

/-- The block after `dwords[i] = word`. -/
def setDword (trb : TRB) (i : Fin 4) (word : BitVec 32) : TRB where
  dwords := trb.dwords.set i word

def cycleBit (trb : TRB) : BitVec 1 := trb.dwords[3].extractLsb' 0 1

def trbType (trb : TRB) : BitVec 6 := trb.dwords[3].extractLsb' 10 6

/-- The block with its cycle bit set or cleared. -/
def withCycle (trb : TRB) (cycle : Bool) : TRB where
  dwords := trb.dwords.set 3
    ((trb.dwords[3] &&& ~~~1#32) ||| (BitVec.ofBool cycle).setWidth 32)

/-- The cycle bit as a tag. -/
def tag (trb : TRB) : Bool := trb.cycleBit = 1#1

@[simp] theorem tag_zero : zero.tag = false := rfl

theorem cycleBit_withCycle (trb : TRB) (cycle : Bool) :
    (trb.withCycle cycle).cycleBit = BitVec.ofBool cycle := by
  apply BitVec.eq_of_getLsbD_eq
  intro i hi
  obtain rfl : i = 0 := by omega
  simp [withCycle, cycleBit]

@[simp] theorem tag_withCycle (trb : TRB) (cycle : Bool) : (trb.withCycle cycle).tag = cycle := by
  rw [tag, cycleBit_withCycle]
  cases cycle <;> rfl

@[simp] theorem dword_setDword (trb : TRB) (i j : Fin 4) (word : BitVec 32) :
    (trb.setDword i word).dword j = if i = j then word else trb.dword j := by
  simp only [dword, setDword, Fin.getElem_fin, Vector.getElem_set, Fin.ext_iff]

theorem ext_dword {trb trb' : TRB} (h : ∀ i, trb.dword i = trb'.dword i) : trb = trb' := by
  obtain ⟨dwords⟩ := trb
  obtain ⟨dwords'⟩ := trb'
  congr 1
  ext i hi : 1
  exact h ⟨i, hi⟩

/-- The cycle bit compared with a byte, as the driver does. -/
theorem cycleBit_eq_iff (trb : TRB) (cycle : Bool) :
    trb.cycleBit.toNat = cycle.toNat ↔ trb.tag = cycle := by
  rcases BitVec.eq_zero_or_eq_one trb.cycleBit with hbit | hbit <;>
    cases cycle <;> simp [tag, hbit]

end TRB

/-- `union ConfigureEndpointCommandTRB`, as its bit fields. Reserved fields are zero. -/
structure ConfigureEndpointCommandTRB where
  inputContextPointer : BitVec 60
  cycleBit : BitVec 1
  deconfigure : BitVec 1
  trbType : BitVec 6
  slotId : BitVec 8
  deriving DecidableEq

namespace ConfigureEndpointCommandTRB

/-- The words of the union. -/
def dwords (cmd : ConfigureEndpointCommandTRB) : Vector (BitVec 32) 4 :=
  let parameter := cmd.inputContextPointer ++ 0#4
  #v[parameter.extractLsb' 0 32, parameter.extractLsb' 32 32, 0#32,
    cmd.slotId ++ 0#8 ++ cmd.trbType ++ cmd.deconfigure ++ 0#8 ++ cmd.cycleBit]

/-- Seen as a general block, the command has the cycle bit the driver gave it. -/
theorem cycleBit_dwords (cmd : ConfigureEndpointCommandTRB) :
    TRB.cycleBit { dwords := cmd.dwords } = cmd.cycleBit := by
  apply BitVec.eq_of_getLsbD_eq
  intro i hi
  obtain rfl : i = 0 := by omega
  change ((cmd.slotId ++ 0#8 ++ cmd.trbType ++ cmd.deconfigure ++ 0#8 ++
    cmd.cycleBit).extractLsb' 0 1).getLsbD 0 = cmd.cycleBit.getLsbD 0
  rw [BitVec.getLsbD_extractLsb', BitVec.getLsbD_append]
  rfl

end ConfigureEndpointCommandTRB

end Bitnos.Xhci
