/-
# The command loop

The loop of the `xhci` command that sends a Configure Endpoint command for each device
context, and the controller that works off the command ring. The two share the ring
`cr_buf` and the event ring, and each keeps its own place in the command ring. The
driver's place is the literal index 0: it declares an enqueue pointer, but never
moves it.
-/

import Bitnos.Xhci.EventFifo

namespace Bitnos.Xhci

open CycleRing PartialRun

/-! ### Commands -/

/-- `cr_cycle_bit` -/
def crCycleBit : BitVec 1 := 1#1

/-- The command for a slot, with an input context at the given address. -/
def configureEndpoint (inputContext : BitVec 64) (slotId : ℤ) : ConfigureEndpointCommandTRB where
  inputContextPointer := (inputContext >>> 4).setWidth 60
  cycleBit := crCycleBit
  deconfigure := 0#1
  trbType := 12#6
  slotId := BitVec.ofInt 8 slotId

/-- The block the command makes in the ring. -/
def commandTrb (inputContext : BitVec 64) (slotId : ℤ) : TRB where
  dwords := (configureEndpoint inputContext slotId).dwords

/-- The commands for the entries of a device context address array from a slot on:
one for each that is not null. -/
def commandsFrom (inputContext : BitVec 64) : ℤ → List (BitVec 64) → List TRB
  | _, [] => []
  | slotId, dcaddr :: rest =>
    if dcaddr = 0#64 then commandsFrom inputContext (slotId + 1) rest
    else commandTrb inputContext slotId :: commandsFrom inputContext (slotId + 1) rest

/-! ### The driver -/

/-- Where the driver stands in its loop. -/
inductive LoopPc
  /-- at the head of the loop -/
  | next
  /-- before `cr_buf[0].dwords[i] = cmd.dwords[i]` -/
  | put (i : Fin 4)
  /-- before the doorbell write -/
  | doorbell
  /-- at `while ((op_reg.CRCR.Read() & 8) == 0)` -/
  | waitRunning
  /-- at `while (!er_mgr.HasFront())` -/
  | waitFront
  /-- before `er_mgr.Pop()` -/
  | pop
  /-- past the loop -/
  | done
  deriving DecidableEq

/-- Driver, controller and the memory between them. The controller has taken up the
doorbell when `ringing` is false again, and executes commands while `running`;
`uncompleted` counts the commands whose completion event it still has to post. -/
structure CommandSystem where
  -- driver
  pc : LoopPc
  rest : List (BitVec 64)
  slotId : ℤ
  -- shared
  crBuf : Vector TRB 8
  events : EventSystem
  ringing : Bool
  crr : Bool
  -- controller
  running : Bool
  crDequeue : ℕ
  cycleState : Bool
  executed : List TRB
  uncompleted : ℕ

/-- Before the first iteration: the ring is zero, CRCR was written and the event ring
was initialised. -/
def CommandSystem.start (m : Manager) (dcaddrs : List (BitVec 64)) : CommandSystem where
  pc := .next
  rest := dcaddrs
  slotId := -1
  crBuf := .replicate 8 .zero
  events := .start m
  ringing := false
  crr := false
  running := false
  crDequeue := 0
  cycleState := true
  executed := []
  uncompleted := 0

namespace CommandSystem

/-- `cr_buf[0]` -/
def firstBlock (s : CommandSystem) : TRB := s.crBuf[0]

/-- `cr_buf[0].dwords[i] = word` -/
def putWord (s : CommandSystem) (i : Fin 4) (word : BitVec 32) : CommandSystem :=
  { s with crBuf := s.crBuf.set 0 (s.firstBlock.setDword i word) }

@[simp] theorem firstBlock_putWord (s : CommandSystem) (i : Fin 4) (word : BitVec 32) :
    (s.putWord i word).firstBlock = s.firstBlock.setDword i word :=
  Vector.getElem_set_self _

theorem getElem_putWord (s : CommandSystem) (i : Fin 4) (word : BitVec 32) {k : ℕ} (hk : k < 8)
    (hpos : 0 < k) : (s.putWord i word).crBuf[k] = s.crBuf[k] := by
  simp only [putWord]
  rw [Vector.getElem_set_ne _ _ (Nat.ne_of_lt hpos)]

end CommandSystem

def driverStep (inputContext : BitVec 64) (s : CommandSystem) : Option CommandSystem :=
  match s.pc with
  | .next =>
    match s.rest with
    | [] => some { s with pc := .done }
    | dcaddr :: rest =>
      -- a null entry is skipped, but has its slot id
      let pc := if dcaddr = 0#64 then LoopPc.next else .put 0
      some { s with pc, rest, slotId := s.slotId + 1 }
  | .put i =>
    let cmd := commandTrb inputContext s.slotId
    let pc := if h : i.val + 1 < 4 then LoopPc.put ⟨i + 1, h⟩ else .doorbell
    some { s.putWord i (cmd.dword i) with pc }
  | .doorbell => some { s with pc := .waitRunning, ringing := true }
  | .waitRunning => some (if s.crr then { s with pc := .waitFront } else s)
  | .waitFront =>
    (eventStep s.events .hasFront).map fun events =>
      { s with events, pc := if events.sawFront then .pop else .waitFront }
  | .pop => (eventStep s.events .pop).map fun events => { s with events, pc := .next }
  | .done => none

section Driver

variable {inputContext : BitVec 64} {s : CommandSystem} {rest : List (BitVec 64)}

theorem driverStep_next_nil (hpc : s.pc = .next) (hrest : s.rest = []) :
    driverStep inputContext s = some { s with pc := .done } := by
  simp only [driverStep, hpc, hrest]

theorem driverStep_next_null (hpc : s.pc = .next) (hrest : s.rest = 0#64 :: rest) :
    driverStep inputContext s = some { s with rest, slotId := s.slotId + 1 } := by
  simp only [driverStep, hpc, hrest, if_true]

theorem driverStep_next_cons {dcaddr : BitVec 64} (hpc : s.pc = .next)
    (hrest : s.rest = dcaddr :: rest) (hnull : dcaddr ≠ 0#64) :
    driverStep inputContext s =
      some { s with pc := .put 0, rest, slotId := s.slotId + 1 } := by
  simp only [driverStep, hpc, hrest, if_neg hnull]

theorem driverStep_put {i : Fin 4} (hpc : s.pc = .put i) :
    driverStep inputContext s =
      some { s.putWord i ((commandTrb inputContext s.slotId).dword i) with
        pc := if h : i.val + 1 < 4 then .put ⟨i + 1, h⟩ else .doorbell } := by
  simp only [driverStep, hpc]

theorem driverStep_doorbell (hpc : s.pc = .doorbell) :
    driverStep inputContext s = some { s with pc := .waitRunning, ringing := true } := by
  simp only [driverStep, hpc]

theorem driverStep_waitRunning (hpc : s.pc = .waitRunning) :
    driverStep inputContext s = some (if s.crr then { s with pc := .waitFront } else s) := by
  rw [driverStep]
  simp only [hpc]

theorem driverStep_waitFront (hpc : s.pc = .waitFront) :
    driverStep inputContext s = (eventStep s.events .hasFront).map fun events =>
      { s with events, pc := if events.sawFront then .pop else .waitFront } := by
  simp only [driverStep, hpc]

theorem driverStep_pop (hpc : s.pc = .pop) :
    driverStep inputContext s =
      (eventStep s.events .pop).map fun events => { s with events, pc := .next } := by
  simp only [driverStep, hpc]

end Driver

/-! ### The controller -/

inductive CommandAction
  | driver
  /-- Take up the doorbell: CRR reads 1 from now on. -/
  | accept
  /-- Look at the next block and execute it, or stop. -/
  | execute
  /-- Post the completion event of a command. -/
  | complete (event : TRB) (flags : BitVec 4)

/-- The next block of the ring, if the controller owns it. -/
def CommandSystem.nextCommand (s : CommandSystem) : Option TRB :=
  s.crBuf[s.crDequeue]?.filter fun trb => trb.tag = s.cycleState

def commandStep (inputContext : BitVec 64) (s : CommandSystem) : CommandAction → Option CommandSystem
  | .driver => driverStep inputContext s
  | .accept =>
    if s.ringing then some { s with ringing := false, crr := true, running := true } else none
  | .execute =>
    if s.running then
      match s.nextCommand with
      | some trb =>
        some { s with
          executed := s.executed ++ [trb]
          -- no link block is ever written, so the controller only goes forward
          crDequeue := s.crDequeue + 1
          uncompleted := s.uncompleted + 1 }
      | none => some { s with running := false }
    else none
  | .complete event flags =>
    if 0 < s.uncompleted then
      (eventStep s.events (.post event flags)).map fun events =>
        { s with events, uncompleted := s.uncompleted - 1 }
    else none

end Bitnos.Xhci
