/-
# The input context of a command

For each device context the xhci command builds an input context on its stack: all zero, with
the context of one endpoint copied and the flag set that says so. The command carries the
address without its low four bits, so the controller finds the input context only where these
are zero. The compiler need only align it for the 64-bit fields of the endpoints, to eight.
-/

import Bitnos.Libc
import Bitnos.MemoryAccess
import Bitnos.Xhci.CommandLoop
import Mathlib.Tactic.IntervalCases

namespace Bitnos.Xhci

/-! ### The driver -/

/-- The size of `InputControlContext`, of `SlotContext` and of `EndpointContext`. -/
def kContextBytes : ℕ := 32

/-- `sizeof(DeviceContext)`: a slot and 31 endpoints. -/
def kDeviceContextBytes : ℕ := kContextBytes * (1 + 31)

/-- `sizeof(InputContext)`: a control context in front of these. -/
def kInputContextBytes : ℕ := kContextBytes * (1 + 1 + 31)

/-- `&dcaddr->ep_contexts[i]` -/
def DeviceContext.epContext (dcaddr : BitVec 64) (i : ℕ) : BitVec 64 :=
  dcaddr + BitVec.ofNat 64 (kContextBytes * (1 + i))

/-- `&input_context.ep_contexts[i]` -/
def InputContext.epContext (inputContext : BitVec 64) (i : ℕ) : BitVec 64 :=
  inputContext + BitVec.ofNat 64 (kContextBytes * (1 + 1 + i))

/-- `&input_context.input_control_context.add_context_flags` -/
def InputContext.addContextFlags (inputContext : BitVec 64) : BitVec 64 :=
  inputContext + BitVec.ofNat 64 4

/-- `ep_enabling` -/
def epEnabling : ℕ := 1

/-- Memory after the input context was set up. -/
def fillInputContext (mem : Bytes.Memory 64) (inputContext dcaddr : BitVec 64) : Bytes.Memory 64 :=
  let mem := memset mem inputContext 0#32 (BitVec.ofNat 64 kInputContextBytes)
  let flags := InputContext.addContextFlags inputContext
  let mem := write32 mem flags (read32 mem flags ||| (1#32 <<< (2 * epEnabling)))
  Bytes.store (n := 32) mem (InputContext.epContext inputContext epEnabling)
    (Bytes.load mem (DeviceContext.epContext dcaddr epEnabling) 32)

/-! ### The controller -/

/-- The address in the parameter of a command, whose low four bits are reserved. -/
def TRB.inputContext (trb : TRB) : BitVec 64 := clearBits (trb.dwords[1] ++ trb.dwords[0]) 0xf#64

/-- What the controller finds at an address: nothing to drop, the context of endpoint 1 OUT to
add, this one as it stands in the device context, and all the rest zero. Context 0 is that of the
slot, and an endpoint has one for OUT and one for IN. -/
structure ConfiguresEndpoint (before mem : Bytes.Memory 64) (p dcaddr : BitVec 64) : Prop where
  drop : read32 mem p = 0#32
  add : ∀ dci < 32, (read32 mem (p + BitVec.ofNat 64 4)).getLsbD dci = decide (dci = 2)
  control : ∀ k < 24, mem (p + BitVec.ofNat 64 (8 + k)) = 0#8
  contexts : ∀ dci < 32, Bytes.load mem (p + BitVec.ofNat 64 (32 * (dci + 1))) 32 =
    if dci = 2 then Bytes.load before (dcaddr + BitVec.ofNat 64 (32 * dci)) 32 else 0#(8 * 32)

/-! ### What is built -/

section

variable {mem : Bytes.Memory 64} {inputContext dcaddr : BitVec 64} {k : ℕ}

/-- Memory with the input context cleared. -/
def clearInputContext (mem : Bytes.Memory 64) (inputContext : BitVec 64) : Bytes.Memory 64 :=
  memset mem inputContext 0#32 (BitVec.ofNat 64 kInputContextBytes)

theorem clearInputContext_of_le {p : BitVec 64} (hp : 1056 ≤ (p - inputContext).toNat) :
    clearInputContext mem inputContext p = mem p := by
  rw [clearInputContext, memset_apply]
  exact if_neg (Nat.not_lt.mpr hp)

theorem clearInputContext_add (hk : k < 1056) :
    clearInputContext mem inputContext (inputContext + BitVec.ofNat 64 k) = 0#8 := by
  rw [clearInputContext, memset_apply, Bytes.toNat_add_sub (n := 1056) (by decide) hk]
  exact if_pos hk

/-- The flags were zero, and then there is one. -/
theorem fillInputContext_eq (mem : Bytes.Memory 64) (inputContext dcaddr : BitVec 64) :
    fillInputContext mem inputContext dcaddr =
      let mem := write32 (clearInputContext mem inputContext) (inputContext + BitVec.ofNat 64 4) 4#32
      Bytes.store (n := 32) mem (inputContext + BitVec.ofNat 64 96)
        (Bytes.load mem (dcaddr + BitVec.ofNat 64 64) 32) := by
  have hzero : read32 (clearInputContext mem inputContext) (inputContext + BitVec.ofNat 64 4) =
      0#32 := by
    rw [read32_eq_zero_iff]
    intro i hi
    rw [BitVec.add_assoc, ← BitVec.ofNat_add]
    exact clearInputContext_add (by omega)
  have hflag : read32 (clearInputContext mem inputContext) (inputContext + BitVec.ofNat 64 4) |||
      (1#32 <<< (2 * epEnabling)) = 4#32 := by
    rw [hzero]
    rfl
  dsimp only
  rw [← hflag]
  rfl

/-- Nothing outside the input context changes. -/
theorem fillInputContext_of_le {p : BitVec 64} (hp : 1056 ≤ (p - inputContext).toNat) :
    fillInputContext mem inputContext dcaddr p = mem p := by
  have hflags : (p - (inputContext + BitVec.ofNat 64 4)).toNat = _ := Bytes.toNat_sub_add (by omega)
  have hcopy : (p - (inputContext + BitVec.ofNat 64 96)).toNat = _ := Bytes.toNat_sub_add (by omega)
  rw [if_neg (by omega)] at hflags hcopy
  rw [fillInputContext_eq]
  dsimp only
  rw [Bytes.store_of_le (by omega), write32, Bytes.store_of_le (by omega), clearInputContext_of_le hp]

/-- The bytes of the input context. -/
theorem fillInputContext_add
    (hapart : ∀ i < 1024, 1056 ≤ (dcaddr + BitVec.ofNat 64 i - inputContext).toNat)
    (hk : k < 1056) : fillInputContext mem inputContext dcaddr (inputContext + BitVec.ofNat 64 k) =
      if k = 4 then 4#8
      else if 96 ≤ k ∧ k < 128 then mem (dcaddr + BitVec.ofNat 64 (k - 32))
      else 0#8 := by
  rw [fillInputContext_eq]
  dsimp only
  -- the copied endpoint context, the flags, and what only `memset` has written
  by_cases hcopied : 96 ≤ k ∧ k < 128
  · obtain ⟨i, rfl⟩ := Nat.exists_eq_add_of_le hcopied.1
    have hi : i < 32 := by omega
    rw [if_neg (by omega), if_pos hcopied, BitVec.ofNat_add, ← BitVec.add_assoc,
      Bytes.store_add (by decide) _ hi, Bytes.extractLsb'_load hi, BitVec.add_assoc,
        ← BitVec.ofNat_add]
    -- the source lies outside, so neither `memset` nor the flag has changed it
    have hfar := hapart (64 + i) (by omega)
    have hflags : (dcaddr + BitVec.ofNat 64 (64 + i) - (inputContext + BitVec.ofNat 64 4)).toNat =
        _ :=
      Bytes.toNat_sub_add (by omega)
    rw [if_neg (by omega)] at hflags
    have hsource : 96 + i - 32 = 64 + i := by omega
    rw [hsource, write32, Bytes.store_of_le (by omega), clearInputContext_of_le hfar]
  · rw [Bytes.store_of_offset (by omega) (by decide) (by omega)]
    by_cases hflags : 4 ≤ k ∧ k < 8
    · obtain ⟨i, rfl⟩ := Nat.exists_eq_add_of_le hflags.1
      have hi : i < 4 := by omega
      rw [BitVec.ofNat_add, ← BitVec.add_assoc, write32, Bytes.store_add (by decide) _ hi]
      interval_cases i <;> rfl
    · rw [write32_of_offset _ (by omega) (by decide) (by omega), clearInputContext_add hk,
        if_neg (by omega), if_neg hcopied]

end

/-! ### What the controller finds -/

section

variable {mem : Bytes.Memory 64} {inputContext dcaddr : BitVec 64} {slotId : ℤ}

/-- The address of a command is that of the input context without the low bits. -/
theorem inputContext_commandTrb :
    (commandTrb inputContext slotId).inputContext = clearBits inputContext 0xf#64 := by
  have hmask : 0xf#64 = BitMask.low 64 4 := rfl
  have hlow : (commandTrb inputContext slotId).dwords[0] =
      ((inputContext >>> 4).setWidth 60 ++ 0#4 : BitVec 64).extractLsb' 0 32 := rfl
  have hhigh : (commandTrb inputContext slotId).dwords[1] =
      ((inputContext >>> 4).setWidth 60 ++ 0#4 : BitVec 64).extractLsb' 32 32 := rfl
  apply BitVec.eq_of_getLsbD_eq
  intro i hi
  rw [TRB.inputContext, hlow, hhigh, hmask, getLsbD_clearBits_low _ hi, getLsbD_clearBits_low _ hi]
  simp only [BitVec.getLsbD_append, BitVec.getLsbD_extractLsb', BitVec.getLsbD_setWidth,
    BitVec.getLsbD_ushiftRight, BitVec.getLsbD_zero]
  grind

/-- What clearing the low bits takes away. -/
theorem clearBits_add_mod (p : BitVec 64) :
    clearBits p 0xf#64 + BitVec.ofNat 64 (p.toNat % 16) = p := by
  have hmask : 0xf#64 = BitMask.low 64 4 := rfl
  have hlow : BitVec.ofNat 64 (p.toNat % 16) = p &&& 0xf#64 := by
    apply BitVec.eq_of_toNat_eq
    rw [BitVec.toNat_and, BitVec.toNat_ofNat]
    exact (Nat.mod_eq_of_lt (by omega)).trans (Nat.and_two_pow_sub_one_eq_mod p.toNat 4).symm
  have hbits : ∀ i, i < 64 → (clearBits p 0xf#64).getLsbD i = (p.getLsbD i && !decide (i < 4)) := by
    intro i hi
    rw [hmask, getLsbD_clearBits_low _ hi]
  -- the two parts have no bit in common, so adding is joining
  have hdisjoint : clearBits p 0xf#64 &&& (p &&& 0xf#64) = 0#64 := by
    apply BitVec.eq_of_getLsbD_eq
    intro i hi
    rw [BitVec.getLsbD_and, hbits i hi, hmask, BitMask.getLsbD_and_low, BitVec.getLsbD_zero]
    grind
  rw [hlow, BitVec.add_eq_or_of_and_eq_zero _ _ hdisjoint]
  apply BitVec.eq_of_getLsbD_eq
  intro i hi
  rw [BitVec.getLsbD_or, hbits i hi, hmask, BitMask.getLsbD_and_low]
  grind

/-- Where the input context lies, the controller finds what it should. -/
theorem configuresEndpoint_fill
    (hapart : ∀ i < 1024, 1056 ≤ (dcaddr + BitVec.ofNat 64 i - inputContext).toNat) :
    ConfiguresEndpoint mem (fillInputContext mem inputContext dcaddr) inputContext dcaddr := by
  have hbyte {k : ℕ} (hk : k < 1056) := @fillInputContext_add mem inputContext dcaddr k hapart hk
  refine ⟨?_, ?_, ?_, ?_⟩
  · rw [read32_eq_zero_iff]
    intro i hi
    rw [hbyte (by omega), if_neg (by omega), if_neg (by omega)]
  · intro dci hdci
    have hbit : (read32 (fillInputContext mem inputContext dcaddr)
        (inputContext + BitVec.ofNat 64 4)).getLsbD dci = _ := Bytes.getLsbD_load hdci
    rw [hbit, BitVec.add_assoc, ← BitVec.ofNat_add, hbyte (by omega),
      if_neg (by omega : ¬ (96 ≤ _ ∧ _))]
    interval_cases dci <;> rfl
  · intro k hk
    rw [hbyte (by omega), if_neg (by omega), if_neg (by omega)]
  · intro dci hdci
    have hoffset (i : ℕ) : inputContext + BitVec.ofNat 64 (32 * (dci + 1)) + BitVec.ofNat 64 i =
        inputContext + BitVec.ofNat 64 (32 * (dci + 1) + i) := by
      rw [BitVec.add_assoc, ← BitVec.ofNat_add]
    split_ifs with hendpoint
    · subst hendpoint
      apply Bytes.load_congr_of_bytes
      intro i hi
      have hsource : 32 * (2 + 1) + i - 32 = 32 * 2 + i := by omega
      rw [hoffset, hbyte (by omega), if_neg (by omega), if_pos (by omega), BitVec.add_assoc,
        ← BitVec.ofNat_add, hsource]
    · apply Bytes.load_eq_zero
      intro i hi
      rw [hoffset, hbyte (by omega), if_neg (by omega), if_neg (by omega)]

end

/-- **The input context.** Setting it up changes nothing outside of it; and whatever was in memory,
the controller, going by the address in the command, finds the endpoint to configure and its context,
exactly when the input context is aligned to sixteen bytes. -/
theorem inputContext_delivered_iff (inputContext dcaddr : BitVec 64) (slotId : ℤ)
    (hapart : ∀ i < 1024, 1056 ≤ (dcaddr + BitVec.ofNat 64 i - inputContext).toNat) :
    (∀ mem p, 1056 ≤ (p - inputContext).toNat → fillInputContext mem inputContext dcaddr p = mem p) ∧
      ((∀ mem, ConfiguresEndpoint mem (fillInputContext mem inputContext dcaddr)
          (commandTrb inputContext slotId).inputContext dcaddr) ↔
        inputContext.toNat % 16 = 0) := by
  refine ⟨fun mem p => fillInputContext_of_le, fun hfound => ?_, fun haligned mem => ?_⟩
  · by_contra hunaligned
    -- ones everywhere around the input context
    have hadd := (hfound fun _ => 0xff#8).add
    rw [inputContext_commandTrb] at hadd
    have hsplit := clearBits_add_mod inputContext
    have hd : inputContext.toNat % 16 < 16 := Nat.mod_lt _ (by decide)
    generalize hp : clearBits inputContext 0xf#64 = p at hadd hsplit
    generalize inputContext.toNat % 16 = d at hd hsplit hunaligned
    -- the first byte of the flags the controller reads says: endpoint 2, and nothing else
    have hflags : ∀ dci < 8, (fillInputContext (fun _ => 0xff#8) inputContext dcaddr
        (p + BitVec.ofNat 64 4)).getLsbD dci = decide (dci = 2) := by
      intro dci hdci
      have hbit : (read32 (fillInputContext (fun _ => 0xff#8) inputContext dcaddr)
          (p + BitVec.ofNat 64 4)).getLsbD dci = _ := Bytes.getLsbD_load (by omega)
      rw [hadd dci (by omega), Nat.div_eq_of_lt hdci, Nat.mod_eq_of_lt hdci, BitVec.add_zero] at hbit
      exact hbit.symm
    rcases Nat.lt_or_ge 4 d with hbefore | hinside
    · -- the flags read are in front of the input context
      have hfar : 1056 ≤ (p + BitVec.ofNat 64 4 - inputContext).toNat := by
        have hfour : (p + BitVec.ofNat 64 4 - p).toNat = 4 :=
          Bytes.toNat_add_sub (n := 5) (by decide) (by decide)
        have hdist : (p + BitVec.ofNat 64 4 - (p + BitVec.ofNat 64 d)).toNat = _ :=
          Bytes.toNat_sub_add (by omega)
        rw [hfour, if_pos hbefore] at hdist
        rw [← hsplit]
        omega
      have hone := hflags 0 (by decide)
      rw [fillInputContext_of_le hfar] at hone
      cases hone
    · -- they are among those of contexts to drop
      have hoffset : p + BitVec.ofNat 64 4 = inputContext + BitVec.ofNat 64 (4 - d) := by
        rw [← hsplit, BitVec.add_assoc, ← BitVec.ofNat_add, Nat.add_sub_cancel' hinside]
      have hzero := hflags 2 (by decide)
      rw [hoffset, fillInputContext_add hapart (by omega), if_neg (by omega),
        if_neg (by omega)] at hzero
      cases hzero
  · rw [inputContext_commandTrb, clearBits_of_aligned haligned]
    exact configuresEndpoint_fill hapart

/-- At an address the type allows, aligned to eight bytes only, it is not found. -/
theorem not_configuresEndpoint_eight :
    (∀ mem p, 1056 ≤ (p - 0x20008#64).toNat → fillInputContext mem 0x20008#64 0x10000#64 p = mem p) ∧
      ¬ ∀ mem, ConfiguresEndpoint mem (fillInputContext mem 0x20008#64 0x10000#64)
        (commandTrb 0x20008#64 1).inputContext 0x10000#64 := by
  obtain ⟨hframe, hiff⟩ := inputContext_delivered_iff 0x20008#64 0x10000#64 1 (by decide +kernel)
  exact ⟨hframe, fun hfound => absurd (hiff.mp hfound) (by decide)⟩

end Bitnos.Xhci
