/-
# Keyboard interrupts

`MyMain` sets the gate for vector 0x21 and programs the two interrupt controllers, whatever
state the firmware left them in, and `Inthandler21` tells the first one that the interrupt has
been taken. From then on the processor is interrupted by the keyboard only, finds the handler
each time, and is not interrupted again before the handler is done; and every request of the
keyboard is delivered once.

The processor takes interrupts when `MyMain` gets that far, as the firmware leaves it.
-/

import Bitnos.Devices.I8259
import Bitnos.IdtUpdate
import Bitnos.InterruptFrame
import Bitnos.Math.Run

namespace Bitnos

open Bytes (Memory)
open I8259 (Chip Pair)
open PartialRun

/-! ### The ports -/

def pic0Icw1 : BitVec 16 := 0x0020
def pic0Imr : BitVec 16 := 0x0021
def pic0Icw2 : BitVec 16 := 0x0021
def pic0Icw3 : BitVec 16 := 0x0021
def pic0Icw4 : BitVec 16 := 0x0021
def pic1Icw1 : BitVec 16 := 0x00a0
def pic1Imr : BitVec 16 := 0x00a1
def pic1Icw2 : BitVec 16 := 0x00a1
def pic1Icw3 : BitVec 16 := 0x00a1
def pic1Icw4 : BitVec 16 := 0x00a1

/-- A write to a port, as far as the controllers are concerned. -/
def picOut (pics : Pair) (port : BitVec 16) (value : BitVec 8) : Pair :=
  if port = 0x0020 then { pics with master := pics.master.command value }
  else if port = 0x0021 then { pics with master := pics.master.data value }
  else if port = 0x00a0 then { pics with slave := pics.slave.command value }
  else if port = 0x00a1 then { pics with slave := pics.slave.data value }
  else pics

/-- The calls of `IoOut8` in `init_pic`. -/
def initPicCalls : List (BitVec 16 × BitVec 8) := [
  (pic0Imr, 0xff), (pic1Imr, 0xff),
  (pic0Icw1, 0x11), (pic0Icw2, 0x20), (pic0Icw3, 1 <<< 2), (pic0Icw4, 0x01),
  (pic1Icw1, 0x11), (pic1Icw2, 0x28), (pic1Icw3, 2), (pic1Icw4, 0x01),
  (pic0Imr, 0xf9), (pic1Imr, 0xff)]

/-- `init_pic` -/
def initPic (pics : Pair) : Pair :=
  initPicCalls.foldl (fun pics call => picOut pics call.1 call.2) pics

/-! ### The processor and the controllers -/

/-- What `Inthandler21` does next: tell the controller, or the rest and the return. -/
inductive HandlerPoint
  | ocw2
  | rest
  deriving DecidableEq

structure InterruptSystem where
  pics : Pair
  mem : Memory 64
  interruptFlag : Bool
  /-- where the handler is, if it is running -/
  handler : Option HandlerPoint
  /-- an interrupt was taken that does not lead to the handler -/
  astray : Bool
  /-- the vectors taken so far -/
  taken : List (BitVec 8)
  /-- how often the keyboard has made a request while it had none standing -/
  requests : ℕ

/-- The line of the keyboard. -/
def keyboardLine : BitVec 4 := 1

inductive InterruptAction
  | raise (n : BitVec 4)
  | take
  | handler

section

variable (idtr : DescriptorTableRegister) (asmInthandler21 : BitVec 64)

/-- The processor takes an interrupt through the gate of its vector. An interrupt gate turns
further interrupts off, a trap gate does not. -/
def takeInterrupt (s : InterruptSystem) (vector : BitVec 8) (pics : Pair) : InterruptSystem :=
  let gate := readIDTEntry idtr (vector.setWidth 32) s.mem
  let s := { s with pics, taken := s.taken ++ [vector] }
  if 16 * vector.toNat + 15 ≤ idtr.limit.toNat ∧ gate.p = 1#8 ∧ (gate.type = 14#8 ∨ gate.type = 15#8) ∧
      gate.offset = asmInthandler21 then
    { s with
      handler := some .ocw2
      interruptFlag := s.interruptFlag && decide (gate.type = 15#8) }
  else
    { s with astray := true }

def InterruptSystem.step (s : InterruptSystem) : InterruptAction → Option InterruptSystem
  | .raise n =>
    let standing := s.pics.master.irr.getLsbD 1
    some { s with
      pics := s.pics.raise n
      requests := if n = keyboardLine ∧ ¬ standing then s.requests + 1 else s.requests }
  | .take =>
    if s.interruptFlag then
      s.pics.acknowledge.map fun ack => takeInterrupt idtr asmInthandler21 s ack.1 ack.2
    else none
  | .handler =>
    match s.handler with
    | some .ocw2 => some { s with pics := picOut s.pics (pic0Ocw2.setWidth 16) 0x61, handler := some .rest }
    | some .rest => some { s with handler := none, interruptFlag := true }
    | none => none

/-- After `SetIDTEntry` and `init_pic`. -/
def InterruptSystem.start (mem : Memory 64) (pics : Pair) : InterruptSystem where
  pics := initPic pics
  mem := (setIDTEntry idtr 0x21 asmInthandler21 (makeIDTAttr 1 0 14 0) 0x38 mem).2
  interruptFlag := true
  handler := none
  astray := false
  taken := []
  requests := 0

end

/-! ### The controllers after `init_pic` -/

/-- The first controller with some requests and some levels in service. -/
def keyboardChip (irr isr : BitVec 8) : Chip where
  irr := irr
  isr := isr
  imr := 0xf9#8
  vectors := 0x20#8
  cascade := 4#8
  lowest := 7#3
  phase := .ocw1
  single := false
  expectsIcw4 := true
  autoEoi := false
  rotateAutoEoi := false
  specialMask := false

/-- What `init_pic` writes to one controller, and in which order. -/
def initChip (c : Chip) (icw2 icw3 imr : BitVec 8) : Chip :=
  (((((c.data 0xff#8).command 0x11#8).data icw2).data icw3).data 0x01#8).data imr

theorem initPic_eq (pics : Pair) : initPic pics =
    ⟨initChip pics.master 0x20#8 4#8 0xf9#8, initChip pics.slave 0x28#8 2#8 0xff#8⟩ := rfl

/-- The first initialization word starts over, so it does not matter what the controller was doing,
not even if it was in the middle of being initialized. -/
theorem initChip_eq (c : Chip) (icw2 icw3 imr : BitVec 8) : initChip c icw2 icw3 imr =
    ⟨0#8, 0#8, imr, icw2 &&& 0xf8#8, icw3, 7#3, .ocw1, false, true, false, false, false⟩ := by
  -- whatever the first mask did is gone after the first initialization word
  generalize hc : c.data 0xff#8 = c'
  rw [initChip, hc]
  rfl

theorem master_initPic (pics : Pair) : (initPic pics).master = keyboardChip 0#8 0#8 := by
  rw [initPic_eq, initChip_eq]
  rfl

theorem slave_initPic (pics : Pair) : (initPic pics).slave.imr = 0xff#8 := by
  rw [initPic_eq, initChip_eq pics.slave]

section Chip

variable {irr isr : BitVec 8}

theorem request_keyboardChip (hline : irr.getLsbD 2 = false) :
    (keyboardChip irr 0#8).request = if irr.getLsbD 1 then some 1#3 else none := by
  revert irr
  decide +kernel

theorem acknowledge_keyboardChip :
    (keyboardChip irr 0#8).acknowledge 1#3 = keyboardChip (irr &&& 0xfd#8) 2#8 := by
  have hclear : ~~~(I8259.Level.bit 1#3) = 0xfd#8 := by decide
  have hset : 0#8 ||| I8259.Level.bit 1#3 = 2#8 := by decide
  rw [← hclear, ← hset]
  rfl

/-- With the second controller masked, the keyboard is the only one that can be acknowledged. -/
theorem acknowledge_pair {slave : Chip} (hslave : slave.imr = 0xff#8)
    (hline : irr.getLsbD 2 = false) :
    (Pair.mk (keyboardChip irr 0#8) slave).acknowledge =
      if irr.getLsbD 1 then some (0x21#8, ⟨keyboardChip (irr &&& 0xfd#8) 2#8, slave⟩) else none := by
  rw [Pair.acknowledge, Pair.request_of_masked hslave, request_keyboardChip hline]
  split_ifs with hrequest
  · have hcascade : (4#8).getLsbD 1 = false := by decide
    have hvector : 0x20#8 + (1#3).setWidth 8 = 0x21#8 := by decide
    rw [Option.map_some, acknowledge_keyboardChip, ← hvector]
    exact congrArg some (if_neg (ne_true_of_eq_false hcascade))
  · rfl

/-- The specific end of interrupt of the source names the level of the keyboard. -/
theorem command_keyboardChip : (keyboardChip irr 2#8).command 0x61#8 = keyboardChip irr 0#8 := by
  have hclear : 2#8 &&& ~~~(I8259.Level.bit 1#3) = 0#8 := by decide
  rw [← hclear]
  rfl

end Chip

/-! ### What holds in every state -/

/-- The call of `SetIDTEntry` in `MyMain`. -/
def keyboardCall (asmInthandler21 : BitVec 64) : IDTCall where
  index := 0x21
  offset := asmInthandler21
  selector := 0x38
  p := 1
  dpl := 0
  type := 14
  ist := 0
  p_le := by decide
  dpl_le := by decide
  type_le := by decide
  ist_le := by decide

/-- The levels in service, from where the handler is. -/
def servedLevels : Option HandlerPoint → BitVec 8
  | some .ocw2 => 2#8
  | _ => 0#8

namespace InterruptSystem

variable {idtr : DescriptorTableRegister} {asmInthandler21 : BitVec 64} {s t : InterruptSystem}

/-- The gate is set, the controllers let only the keyboard through, and the processor is open to
interrupts unless it is in the handler. -/
structure Ready (idtr : DescriptorTableRegister) (asmInthandler21 : BitVec 64) (s : InterruptSystem) :
    Prop where
  inTable : 0x21f ≤ idtr.limit.toNat
  gate : readIDTEntry idtr 0x21#32 s.mem = (keyboardCall asmInthandler21).entry
  master : s.pics.master = keyboardChip s.pics.master.irr (servedLevels s.handler)
  slave : s.pics.slave.imr = 0xff#8
  unconnected : s.pics.master.irr.getLsbD 2 = false
  flag : s.interruptFlag = s.handler.isNone
  notAstray : s.astray = false
  keyboard : ∀ v ∈ s.taken, v = 0x21#8
  count : s.taken.length + (if s.pics.master.irr.getLsbD 1 then 1 else 0) = s.requests

/-- A table that has an entry for the keyboard gets one. -/
theorem ready_start {n : ℕ} (hlimit : idtr.limit.toNat + 1 = 16 * n) (hn : 0x21 < n) (mem : Memory 64)
    (pics : Pair) : (start idtr asmInthandler21 mem pics).Ready idtr asmInthandler21 where
  inTable := by omega
  gate := (keyboardCall asmInthandler21).read_perform hlimit hn
  master := by
    change (initPic pics).master = keyboardChip (initPic pics).master.irr 0#8
    rw [master_initPic]
    rfl
  slave := slave_initPic pics
  unconnected := by
    change (initPic pics).master.irr.getLsbD 2 = false
    rw [master_initPic]
    exact BitVec.getLsbD_zero
  flag := rfl
  notAstray := rfl
  keyboard := fun v hv => absurd hv List.not_mem_nil
  count := by
    change 0 + (if (initPic pics).master.irr.getLsbD 1 then 1 else 0) = 0
    rw [master_initPic, show (keyboardChip 0#8 0#8).irr.getLsbD 1 = false from BitVec.getLsbD_zero]
    rfl

namespace Ready

/-- A line that goes up leaves everything but the requests alone. -/
theorem raise (h : s.Ready idtr asmInthandler21) {n : BitVec 4}
    (hstep : step idtr asmInthandler21 s (.raise n) = some t) : t.Ready idtr asmInthandler21 := by
  obtain rfl := Option.some.inj hstep
  obtain ⟨hslave, irr, hirr, hbits⟩ := s.pics.raise_spec n
  refine ⟨h.inTable, h.gate, ?_, hslave.trans h.slave, ?_, h.flag, h.notAstray, h.keyboard, ?_⟩
  · change (s.pics.raise n).master = keyboardChip (s.pics.raise n).master.irr (servedLevels s.handler)
    rw [hirr, h.master]
    rfl
  · change (s.pics.raise n).master.irr.getLsbD 2 = false
    rw [hirr, hbits 2 (by omega), h.unconnected]
    simp [Pair.line]
  · have hline : n = keyboardLine ↔ 1 = n.toNat := by
      rw [← BitVec.toNat_inj, eq_comm]
      rfl
    have hcount := h.count
    change s.taken.length + (if (s.pics.raise n).master.irr.getLsbD 1 then 1 else 0) =
      if n = keyboardLine ∧ ¬ s.pics.master.irr.getLsbD 1 then s.requests + 1 else s.requests
    -- the line of the second controller is not that of the keyboard
    have hother : 1 ≠ Pair.line.toNat := by decide
    simp only [hirr, hbits 1 (by omega), hline, and_iff_left hother]
    rw [← hcount]
    by_cases hkey : 1 = n.toNat
    · cases s.pics.master.irr.getLsbD 1 <;> simp [hkey]
    · simp [hkey]

/-- Outside the handler the keyboard is acknowledged if it has a request. -/
theorem acknowledge (h : s.Ready idtr asmInthandler21) (hidle : s.handler = none) :
    s.pics.acknowledge = if s.pics.master.irr.getLsbD 1 then
      some (0x21#8, ⟨keyboardChip (s.pics.master.irr &&& 0xfd#8) 2#8, s.pics.slave⟩) else none := by
  have hmaster := h.master
  rw [hidle] at hmaster
  rw [← acknowledge_pair h.slave h.unconnected]
  exact congrArg (fun master => (Pair.mk master s.pics.slave).acknowledge) hmaster

/-- An interrupt leads to the handler. -/
theorem take_eq (h : s.Ready idtr asmInthandler21) (hidle : s.handler = none)
    (hrequest : s.pics.master.irr.getLsbD 1 = true) :
    step idtr asmInthandler21 s .take = some { s with
      pics := ⟨keyboardChip (s.pics.master.irr &&& 0xfd#8) 2#8, s.pics.slave⟩
      interruptFlag := false
      handler := some .ocw2
      taken := s.taken ++ [0x21#8] } := by
  have hflag : s.interruptFlag = true := by rw [h.flag, hidle]; rfl
  have hgate : readIDTEntry idtr ((0x21#8).setWidth 32) s.mem =
      (keyboardCall asmInthandler21).entry :=
    h.gate
  have hin : 16 * (0x21#8).toNat + 15 ≤ idtr.limit.toNat := h.inTable
  rw [InterruptSystem.step, if_pos hflag, h.acknowledge hidle, if_pos hrequest, Option.map_some,
    takeInterrupt]
  dsimp only
  rw [hgate, if_pos ⟨hin, rfl, .inl rfl, rfl⟩, hflag]
  rfl

theorem take (h : s.Ready idtr asmInthandler21) (hstep : step idtr asmInthandler21 s .take = some t) :
    t.Ready idtr asmInthandler21 := by
  -- the handler runs with interrupts off
  have hidle : s.handler = none := by
    by_contra hbusy
    have hflag : s.interruptFlag = false := by
      rw [h.flag, Option.isNone_eq_false_iff, Option.isSome_iff_ne_none]
      exact hbusy
    rw [InterruptSystem.step, hflag, if_neg Bool.false_ne_true] at hstep
    cases hstep
  cases hrequest : s.pics.master.irr.getLsbD 1 with
  -- without a request of the keyboard there is none at all
  | false =>
    rw [InterruptSystem.step, h.acknowledge hidle, hrequest, if_neg Bool.false_ne_true,
      Option.map_none, ite_self] at hstep
    cases hstep
  | true =>
    have hcount := h.count
    rw [h.take_eq hidle hrequest] at hstep
    obtain rfl := Option.some.inj hstep
    refine ⟨h.inTable, h.gate, rfl, h.slave, ?_, rfl, h.notAstray, ?_, ?_⟩
    · change (s.pics.master.irr &&& 0xfd#8).getLsbD 2 = false
      rw [BitVec.getLsbD_and, h.unconnected, Bool.false_and]
    · intro v hv
      rcases List.mem_append.mp hv with hv | hv
      · exact h.keyboard v hv
      · exact List.mem_singleton.mp hv
    · -- the request is not standing any more, and its vector is recorded
      have hdone : (s.pics.master.irr &&& 0xfd#8).getLsbD 1 = false := by
        rw [BitVec.getLsbD_and, show (0xfd#8).getLsbD 1 = false from by decide, Bool.and_false]
      change (s.taken ++ [0x21#8]).length +
        (if (s.pics.master.irr &&& 0xfd#8).getLsbD 1 then 1 else 0) = s.requests
      rw [← hcount, hrequest, hdone, List.length_append]
      rfl

/-- The handler tells the controller first, which ends the service of the keyboard. -/
theorem ocw2_eq (h : s.Ready idtr asmInthandler21) (hpoint : s.handler = some .ocw2) :
    step idtr asmInthandler21 s .handler = some { s with
      pics := ⟨keyboardChip s.pics.master.irr 0#8, s.pics.slave⟩
      handler := some .rest } := by
  have hmaster := h.master
  rw [hpoint] at hmaster
  have hout : picOut s.pics (pic0Ocw2.setWidth 16) 0x61 =
      ⟨keyboardChip s.pics.master.irr 0#8, s.pics.slave⟩ := by
    rw [← command_keyboardChip]
    exact congrArg (fun master : Chip => (Pair.mk (master.command 0x61#8) s.pics.slave)) hmaster
  simp only [InterruptSystem.step, hpoint, hout]

theorem rest_eq (hpoint : s.handler = some .rest) : step idtr asmInthandler21 s .handler =
    some { s with handler := none, interruptFlag := true } := by
  simp only [InterruptSystem.step, hpoint]

theorem handler (h : s.Ready idtr asmInthandler21)
    (hstep : step idtr asmInthandler21 s .handler = some t) : t.Ready idtr asmInthandler21 := by
  have hmaster := h.master
  have hflag := h.flag
  cases hpoint : s.handler with
  | none => simp [InterruptSystem.step, hpoint] at hstep
  | some point =>
    rw [hpoint] at hmaster hflag
    cases point with
    | ocw2 =>
      rw [h.ocw2_eq hpoint] at hstep
      obtain rfl := Option.some.inj hstep
      exact ⟨h.inTable, h.gate, rfl, h.slave, h.unconnected, hflag, h.notAstray, h.keyboard, h.count⟩
    | rest =>
      rw [rest_eq hpoint] at hstep
      obtain rfl := Option.some.inj hstep
      exact ⟨h.inTable, h.gate, hmaster, h.slave, h.unconnected, rfl, h.notAstray,
        h.keyboard, h.count⟩

/-- Every action keeps the system ready. -/
theorem step (s : InterruptSystem) (a : InterruptAction) (t : InterruptSystem)
    (h : s.Ready idtr asmInthandler21)
    (hstep : InterruptSystem.step idtr asmInthandler21 s a = some t) :
    t.Ready idtr asmInthandler21 := by
  cases a with
  | raise n => exact h.raise hstep
  | take => exact h.take hstep
  | handler => exact h.handler hstep

end Ready

/-- What is left of the handler. -/
def finish : Option HandlerPoint → List InterruptAction
  | none => []
  | some .ocw2 => [.handler, .handler]
  | some .rest => [.handler]

/-- The handler comes to its end, and a request that stands meanwhile is still there. -/
theorem Ready.finish (h : s.Ready idtr asmInthandler21) :
    ∃ t, run (InterruptSystem.step idtr asmInthandler21) s (finish s.handler) = some t ∧
      t.Ready idtr asmInthandler21 ∧ t.handler = none ∧ t.taken = s.taken ∧
      t.pics.master.irr = s.pics.master.irr := by
  have hrest : ∀ s : InterruptSystem, s.Ready idtr asmInthandler21 → s.handler = some .rest →
      ∃ t, run (InterruptSystem.step idtr asmInthandler21) s [.handler] = some t ∧
        t.Ready idtr asmInthandler21 ∧ t.handler = none ∧ t.taken = s.taken ∧
        t.pics.master.irr = s.pics.master.irr := by
    intro s h hpoint
    have hstep := @rest_eq idtr asmInthandler21 s hpoint
    exact ⟨_, run_cons_of_step hstep, h.handler hstep, rfl, rfl, rfl⟩
  cases hpoint : s.handler with
  | none => exact ⟨s, rfl, h, hpoint, rfl, rfl⟩
  | some point =>
    cases point with
    | ocw2 =>
      have hstep := h.ocw2_eq hpoint
      obtain ⟨t, hrun, ht, hidle, htaken, hirr⟩ := hrest _ (h.handler hstep) rfl
      exact ⟨t, (run_cons_of_step hstep).trans hrun, ht, hidle, htaken, hirr⟩
    | rest => exact hrest s h hpoint

end InterruptSystem

open InterruptSystem

/-- **Keyboard interrupts.** Whatever state the controllers were in, after `MyMain` has set the gate
and programmed them, for every order of the sixteen lines going up with what the processor does, no
interrupt leads anywhere but to the handler, all of them are the keyboard's, and every request of the
keyboard is delivered once or still stands; and a standing request is delivered as soon as the
handler, if it is running, is done. -/
theorem keyboard_interrupts {idtr : DescriptorTableRegister} {asmInthandler21 : BitVec 64} {n : ℕ}
    (hlimit : idtr.limit.toNat + 1 = 16 * n) (hn : 0x21 < n) {mem : Memory 64} {pics : Pair}
    {actions : List InterruptAction} {s : InterruptSystem}
    (hrun : run (InterruptSystem.step idtr asmInthandler21) (start idtr asmInthandler21 mem pics) actions =
      some s) :
    s.astray = false ∧ (∀ v ∈ s.taken, v = 0x21#8) ∧
      s.taken.length + (if s.pics.master.irr.getLsbD 1 then 1 else 0) = s.requests ∧
      (s.pics.master.irr.getLsbD 1 = true → ∃ t,
        run (InterruptSystem.step idtr asmInthandler21) s (finish s.handler ++ [.take]) = some t ∧
          t.handler = some .ocw2 ∧ t.taken = s.taken ++ [0x21#8]) := by
  have hready : s.Ready idtr asmInthandler21 :=
    invariant_run Ready.step (ready_start hlimit hn mem pics) hrun
  refine ⟨hready.notAstray, hready.keyboard, hready.count, fun hrequest => ?_⟩
  -- first the handler finishes, then the request is taken
  obtain ⟨t, hfinish, ht, hidle, htaken, hirr⟩ := hready.finish
  rw [← hirr] at hrequest
  refine ⟨_, by rw [run_append, hfinish, Option.bind_some, run_cons_of_step (ht.take_eq hidle hrequest),
    run_nil], rfl, ?_⟩
  rw [← htaken]

/-- Controllers left in the middle of being initialized; the timer and the keyboard ask for service. -/
theorem keyboard_interrupts_twoLines :
    let chip : Chip := ⟨0x80#8, 0x01#8, 0#8, 0x08#8, 0#8, 3#3, .icw3, true, false, true, false, true⟩
    let step := InterruptSystem.step ⟨0xfff#16, 0x1000#64⟩ 0x100000#64
    let s₀ := start ⟨0xfff#16, 0x1000#64⟩ 0x100000#64 (fun _ => 0#8) ⟨chip, chip⟩
    ∃ s, run step s₀ [.raise 0, .raise 1, .take, .raise 1, .handler] = some s ∧
      s.taken = [0x21#8] ∧ s.requests = 2 ∧
      ∃ t, run step s (finish s.handler ++ [.take]) = some t ∧ t.taken = [0x21#8, 0x21#8] := by
  intro chip step s₀
  have hcheck : (run step s₀ [.raise 0, .raise 1, .take, .raise 1, .handler]).map
      (fun s => (s.taken, s.requests, s.pics.master.irr.getLsbD 1)) = some ([0x21#8], 2, true) := by
    decide +kernel
  obtain ⟨s, hrun, hs⟩ := Option.map_eq_some_iff.mp hcheck
  obtain ⟨htaken, hrequests, hrequest⟩ : _ ∧ _ ∧ _ := by simpa only [Prod.mk.injEq] using hs
  obtain ⟨-, -, -, hdelivered⟩ := keyboard_interrupts (n := 256) (by decide) (by decide) hrun
  obtain ⟨t, hfinish, -, ht⟩ := hdelivered hrequest
  exact ⟨s, hrun, htaken, hrequests, t, hfinish, by rw [ht, htaken]; rfl⟩

end Bitnos
