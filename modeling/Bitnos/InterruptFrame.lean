/-
# What the interrupt stub leaves in the registers

`AsmInthandler21` calls the C++ handler and returns from the interrupt. It saves
no register itself, and the handler is an ordinary function that may overwrite
every caller-saved register, so the interrupted code finds in them whatever was
written last on the path taken.

The compiled body of the handler is a parameter. Between the calls to the
routines of `asmfunc.s` it may overwrite caller-saved registers; it passes
arguments and uses results as the System V ABI prescribes, and it restores the
callee-saved registers. What it writes may depend on the data the handler works
on, but not on registers that are dead on entry to a function without arguments.
-/

import Bitnos.Asm
import Bitnos.KeyLoop

namespace Bitnos

open SpinLockMutex

/-- The stretches of compiled code before each call and before the return. -/
inductive Stretch
  | beforeOut
  | beforeIn
  | beforeTryLock
  | beforeUnlock
  | atReturn

/-- The compiled body of `Inthandler21`. For each stretch, the byte in the
keyboard port and the globals on entry, `scratch` tells which registers the
stretch overwrites and with what. -/
structure Compiled where
  /-- the address of `keydat_mutex.flag_` -/
  flagAddr : BitVec 64
  scratch : Stretch → BitVec 8 → KeyShared → Reg → Option (BitVec 64)

/-- The processor together with the globals only compiled code touches. -/
structure Machine extends Cpu where
  keydat : ArrayQueue (BitVec 8) 16
  numLostkey : BitVec 32

/-- `PIC0_OCW2` and `PORT_KEYDAT` -/
def pic0Ocw2 : BitVec 64 := 0x20
@[inherit_doc pic0Ocw2] def portKeydat : BitVec 64 := 0x60

/-- The globals as the C++ source sees them. -/
def Machine.shared (c : Compiled) (m : Machine) : KeyShared :=
  ⟨m.keydat, ⟨m.mem c.flagAddr⟩, m.numLostkey⟩

/-- The byte the keyboard port would deliver. -/
def Machine.scancode (m : Machine) : BitVec 8 := m.input (portKeydat.setWidth 16)

/-- What each stretch overwrites in the run that starts in `m`. -/
def Compiled.writes (c : Compiled) (m : Machine) (stretch : Stretch) : Reg → Option (BitVec 64) :=
  c.scratch stretch m.scancode (m.shared c)

/-- A stretch of compiled code, as far as caller-saved registers are concerned. -/
def clobber (writes : Reg → Option (BitVec 64)) (cpu : Cpu) : Cpu :=
  { cpu with
    reg := fun r => if r.callerSaved then (writes r).getD (cpu.reg r) else cpu.reg r }

/-- A stretch of compiled code, the argument registers, and the routine called. -/
def callRoutine (writes : Reg → Option (BitVec 64)) (args : List (Reg × BitVec 64))
    (routine : List Instr) (cpu : Cpu) : Cpu :=
  execAll routine (args.foldl (fun cpu arg => cpu.setReg arg.1 arg.2) (clobber writes cpu))

/-- The processor once the keyboard port has been read. -/
def cpuAfterIn (c : Compiled) (m : Machine) : Cpu :=
  callRoutine (c.writes m .beforeIn) [(.rdi, portKeydat)] Routine.ioIn8
    (callRoutine (c.writes m .beforeOut) [(.rdi, pic0Ocw2), (.rsi, 0x61)] Routine.ioOut8 m.toCpu)

/-- The processor once the `CompareExchange` of `TryLock` has returned. -/
def cpuAfterTryLock (c : Compiled) (m : Machine) : Cpu :=
  callRoutine (c.writes m .beforeTryLock)
    [(.rdi, c.flagAddr), (.rsi, kClear), (.rdx, kFlagged)] Routine.compareExchange (cpuAfterIn c m)

/-- The processor once the `LFencedWrite` of `Unlock` has returned. -/
def cpuAfterUnlock (c : Compiled) (m : Machine) : Cpu :=
  callRoutine (c.writes m .beforeUnlock) [(.rdi, c.flagAddr), (.rsi, kClear)]
    Routine.lfencedWrite (cpuAfterTryLock c m)

/-- `Inthandler21` compiled, from its entry to its return. -/
def compiledInthandler21 (c : Compiled) (m : Machine) : Option Machine :=
  let dat := ((cpuAfterIn c m).reg .rax).setWidth 8
  if (cpuAfterTryLock c m).reg .rax = kClear then
    (m.keydat.push dat).map fun result =>
      { m with
        toCpu := clobber (c.writes m .atReturn) (cpuAfterUnlock c m)
        keydat := result.2 }
  else
    some { m with
      toCpu := clobber (c.writes m .atReturn) (cpuAfterTryLock c m)
      numLostkey := m.numLostkey + 1 }

/-- `AsmInthandler21`: a call of the handler and an `iretq`, which restores the
instruction pointer, the flags and the stack pointer. -/
def asmInthandler21 (c : Compiled) (m : Machine) : Option Machine := compiledInthandler21 c m

/-- The value written last to a register between the interrupt and the return,
if it is written at all. -/
def residue (c : Compiled) (m : Machine) (r : Reg) : Option (BitVec 64) :=
  let writes := c.writes m
  let late : Option (BitVec 64) :=
    if m.mem c.flagAddr = kClear then
      (writes .atReturn r).or (writes .beforeUnlock r)
    else
      writes .atReturn r
  match r with
  -- every path ends with a call on the flag, which fixes `rdi` and `rsi`
  | .rdi => (writes .atReturn .rdi).or (some c.flagAddr)
  | .rsi => (writes .atReturn .rsi).or (some kClear)
  -- `rdx` and `rax` are as `CompareExchange` left them unless written later
  | .rdx => late.or (some kFlagged)
  | .rax => late.or (some (m.mem c.flagAddr))
  -- no routine touches the others: the last stretch that wrote them counts
  | .rcx | .r8 | .r9 | .r10 | .r11 =>
    late.or ((writes .beforeTryLock r).or ((writes .beforeIn r).or (writes .beforeOut r)))
  | _ => none

/-! ### Registers and memory after each routine -/

section Routines

variable (writes : Reg → Option (BitVec 64)) (addr value expected : BitVec 64) (cpu : Cpu) (r : Reg)

@[simp] theorem clobber_mem : (clobber writes cpu).mem = cpu.mem := rfl

theorem reg_ioOut8 :
    (callRoutine writes [(.rdi, addr), (.rsi, value)] Routine.ioOut8 cpu).reg r =
      match r with
      | .rdi | .rdx => addr
      | .rsi | .rax => value
      | r => (clobber writes cpu).reg r := by
  cases r <;> simp [callRoutine, execAll, Routine.ioOut8, Instr.exec]

theorem reg_ioIn8 :
    (callRoutine writes [(.rdi, addr)] Routine.ioIn8 cpu).reg r =
      match r with
      | .rdi | .rdx => addr
      | .rax => setLow8 ((clobber writes cpu).reg .rax) (cpu.input (addr.setWidth 16))
      | r => (clobber writes cpu).reg r := by
  cases r <;> simp [callRoutine, execAll, Routine.ioIn8, Instr.exec, clobber]

@[simp] theorem mem_ioOut8 :
    (callRoutine writes [(.rdi, addr), (.rsi, value)] Routine.ioOut8 cpu).mem = cpu.mem := by
  simp [callRoutine, execAll, Routine.ioOut8, Instr.exec]

@[simp] theorem mem_ioIn8 :
    (callRoutine writes [(.rdi, addr)] Routine.ioIn8 cpu).mem = cpu.mem := by
  simp [callRoutine, execAll, Routine.ioIn8, Instr.exec]

theorem reg_compareExchange :
    (callRoutine writes [(.rdi, addr), (.rsi, expected), (.rdx, value)]
        Routine.compareExchange cpu).reg r =
      match r with
      | .rdi => addr
      | .rsi => expected
      | .rdx => value
      | .rax => (compareExchange (cpu.mem addr) expected value).1
      | r => (clobber writes cpu).reg r := by
  cases r <;> simp [callRoutine, execAll, Routine.compareExchange, Instr.exec, clobber]

theorem mem_compareExchange :
    (callRoutine writes [(.rdi, addr), (.rsi, expected), (.rdx, value)]
        Routine.compareExchange cpu).mem =
      Function.update cpu.mem addr (compareExchange (cpu.mem addr) expected value).2 := by
  simp [callRoutine, execAll, Routine.compareExchange, Instr.exec, clobber]

theorem reg_lfencedWrite :
    (callRoutine writes [(.rdi, addr), (.rsi, value)] Routine.lfencedWrite cpu).reg r =
      match r with
      | .rdi => addr
      | .rsi => value
      | r => (clobber writes cpu).reg r := by
  cases r <;> simp [callRoutine, execAll, Routine.lfencedWrite, Instr.exec]

theorem mem_lfencedWrite :
    (callRoutine writes [(.rdi, addr), (.rsi, value)] Routine.lfencedWrite cpu).mem =
      Function.update cpu.mem addr value := by
  simp [callRoutine, execAll, Routine.lfencedWrite, Instr.exec]

end Routines

section Handler

variable {c : Compiled} {m m' : Machine}

theorem mem_cpuAfterIn (c : Compiled) (m : Machine) : (cpuAfterIn c m).mem = m.mem := by
  rw [cpuAfterIn, mem_ioIn8, mem_ioOut8]

/-- The compiled code gets the byte the port delivers. -/
theorem dat_cpuAfterIn (c : Compiled) (m : Machine) :
    ((cpuAfterIn c m).reg .rax).setWidth 8 = m.scancode := by
  rw [cpuAfterIn, reg_ioIn8]
  simp [setWidth_setLow8, callRoutine, execAll, Routine.ioOut8, Instr.exec, clobber,
    Machine.scancode]

theorem rax_cpuAfterTryLock (c : Compiled) (m : Machine) :
    (cpuAfterTryLock c m).reg .rax = m.mem c.flagAddr := by
  -- success returns the expected value, which the flag then held
  rw [cpuAfterTryLock, reg_compareExchange, mem_cpuAfterIn]
  simp only [compareExchange]
  split_ifs with hclear
  · exact hclear.symm
  · rfl

/-- The two ways through the handler, by the state of the lock. -/
theorem asmInthandler21_free (hfree : m.mem c.flagAddr = kClear) :
    asmInthandler21 c m = (m.keydat.push m.scancode).map fun result =>
      { m with
        toCpu := clobber (c.writes m .atReturn) (cpuAfterUnlock c m)
        keydat := result.2 } := by
  simp only [asmInthandler21, compiledInthandler21, rax_cpuAfterTryLock, dat_cpuAfterIn, hfree,
    if_true]

theorem asmInthandler21_held (hheld : m.mem c.flagAddr ≠ kClear) :
    asmInthandler21 c m = some { m with
      toCpu := clobber (c.writes m .atReturn) (cpuAfterTryLock c m)
      numLostkey := m.numLostkey + 1 } := by
  simp only [asmInthandler21, compiledInthandler21, rax_cpuAfterTryLock, hheld, if_false]

/-- On the globals the compiled handler does what the source says. -/
theorem shared_asmInthandler21 (c : Compiled) (m : Machine) :
    (asmInthandler21 c m).map (Machine.shared c) =
      (inthandler21 m.scancode (m.shared c)).map Prod.snd := by
  by_cases hfree : m.mem c.flagAddr = kClear
  -- the lock was free: `Unlock` writes back the value found
  · have hflag : (m.shared c).keydatMutex.flag = kClear := hfree
    have hmem : (cpuAfterUnlock c m).mem c.flagAddr = m.mem c.flagAddr := by
      rw [cpuAfterUnlock, mem_lfencedWrite, Function.update_self, hfree]
    rw [asmInthandler21_free hfree, inthandler21_free hflag, Option.map_map, Option.map_map]
    congr 1
    funext result
    simp only [Function.comp_apply, Machine.shared, clobber_mem, hmem]
  · have hflag : (m.shared c).keydatMutex.flag ≠ kClear := hfree
    have hmem : (cpuAfterTryLock c m).mem c.flagAddr = m.mem c.flagAddr := by
      rw [cpuAfterTryLock, mem_compareExchange, mem_cpuAfterIn, Function.update_self]
      simp [compareExchange, hfree]
    rw [asmInthandler21_held hfree, inthandler21_locked hflag]
    simp only [Option.map_some, Machine.shared, clobber_mem, hmem]

/-- Every register ends up with the value written to it last, or with its old
value if it was not written. -/
theorem reg_asmInthandler21 (hrun : asmInthandler21 c m = some m') (r : Reg) :
    m'.reg r = (residue c m r).getD (m.reg r) := by
  by_cases hfree : m.mem c.flagAddr = kClear
  · rw [asmInthandler21_free hfree] at hrun
    obtain ⟨result, -, rfl⟩ := Option.map_eq_some_iff.mp hrun
    cases r <;>
      simp [residue, hfree, clobber, Reg.callerSaved, cpuAfterUnlock, reg_lfencedWrite,
        cpuAfterTryLock, reg_compareExchange, cpuAfterIn, reg_ioIn8, reg_ioOut8,
        Option.getD_or, mem_ioIn8, compareExchange]
  · rw [asmInthandler21_held hfree] at hrun
    obtain rfl := Option.some.inj hrun
    cases r <;>
      simp [residue, hfree, clobber, Reg.callerSaved,
        cpuAfterTryLock, reg_compareExchange, cpuAfterIn, reg_ioIn8, reg_ioOut8,
        Option.getD_or, mem_ioIn8, compareExchange]

/-- Callee-saved registers come back unchanged from every interrupt. -/
theorem calleeSaved_asmInthandler21 (hrun : asmInthandler21 c m = some m') {r : Reg}
    (hr : r.callerSaved = false) : m'.reg r = m.reg r := by
  have hnone : residue c m r = none := by cases r <;> first | rfl | cases hr
  rw [reg_asmInthandler21 hrun, hnone, Option.getD_none]

/-- The lock flag comes back unchanged from every interrupt. -/
theorem flag_asmInthandler21 (hrun : asmInthandler21 c m = some m') :
    m'.mem c.flagAddr = m.mem c.flagAddr := by
  have hshared := shared_asmInthandler21 c m
  rw [hrun, Option.map_some] at hshared
  obtain ⟨⟨path, g⟩, hpath, hg⟩ := Option.map_eq_some_iff.mp hshared.symm
  have hkept := inthandler21_keeps_lock hpath
  change g = m'.shared c at hg
  rw [hg] at hkept
  exact congrArg SpinLockMutex.flag hkept

/-! ### Transparency -/

/-- **Transparency.** The interrupted code finds all its registers unchanged exactly
when each register the handler writes already held the value written to it last. -/
theorem registers_preserved_iff (hrun : asmInthandler21 c m = some m') :
    (∀ r, m'.reg r = m.reg r) ↔ ∀ r v, residue c m r = some v → m.reg r = v := by
  constructor
  · intro hsame r v hv
    rw [← hsame r, reg_asmInthandler21 hrun, hv, Option.getD_some]
  · intro hheld r
    rw [reg_asmInthandler21 hrun]
    cases hv : residue c m r with
    | none => rfl
    | some v => exact (hheld r v hv).symm

/-- Whether the handler completes does not depend on the registers. -/
theorem isSome_asmInthandler21 (c : Compiled) (m : Machine) :
    (asmInthandler21 c m).isSome = (inthandler21 m.scancode (m.shared c)).isSome := by
  simpa using congrArg Option.isSome (shared_asmInthandler21 c m)

/-- No compiled body makes the stub transparent: on every path `rdi` is overwritten
with a value that does not depend on what it held. -/
theorem exists_rdi_overwritten (hrun : asmInthandler21 c m = some m') :
    ∃ reg t, asmInthandler21 c { m with reg := reg } = some t ∧ t.reg .rdi ≠ reg .rdi := by
  obtain ⟨v, hv⟩ : ∃ v, residue c m .rdi = some v := Option.isSome_iff_exists.mp (by
    simp [residue])
  -- start the same run with another value in `rdi`
  have hsome : (asmInthandler21 c { m with reg := fun _ => v + 1 }).isSome := by
    rw [isSome_asmInthandler21]
    change (inthandler21 m.scancode (m.shared c)).isSome = true
    rw [← isSome_asmInthandler21, hrun, Option.isSome_some]
  obtain ⟨t, ht⟩ := Option.isSome_iff_exists.mp hsome
  refine ⟨_, t, ht, ?_⟩
  have hsame : residue c { m with reg := fun _ => v + 1 } .rdi = some v := hv
  rw [reg_asmInthandler21 ht, hsame, Option.getD_some]
  intro heq
  have hone : (1 : BitVec 64) = 0 := by simpa using congrArg (· - v) heq.symm
  exact absurd hone (by decide)

/-- An interrupt before the `cmpxchg` of `Lock` that leaves a nonzero value in `rax`
makes `CompareExchange` return zero without taking the free lock, so the loop of
`Lock` ends although the flag is clear. -/
theorem lock_not_taken_after_interrupt (hrun : asmInthandler21 c m = some m')
    (hfree : m.mem c.flagAddr = kClear) {v : BitVec 64} (hrdi : residue c m .rdi = some c.flagAddr)
    (hrax : residue c m .rax = some v) (hv : v ≠ kClear) :
    let after := (Instr.lockCmpxchg .rdi .rdx).exec m'.toCpu
    after.reg .rax = kClear ∧ after.mem c.flagAddr = kClear := by
  have haddr : m'.reg .rdi = c.flagAddr := by
    rw [reg_asmInthandler21 hrun, hrdi, Option.getD_some]
  have hflag : m'.mem c.flagAddr = kClear := (flag_asmInthandler21 hrun).trans hfree
  have hcmp : m'.reg .rax = v := by rw [reg_asmInthandler21 hrun, hrax, Option.getD_some]
  simp [Instr.exec, haddr, hflag, hcmp, compareExchange, hv.symm]

end Handler

/-- A compiled body in which `Push` is a call that leaves its error code in `rax`
and nothing else is overwritten between the calls. -/
def callingPush : Compiled where
  flagAddr := 0x100000
  scratch
    | .beforeUnlock, _, g, .rax =>
      some (BitVec.ofNat 64 (if g.keydat.count = 16 then Error.full else Error.success).code)
    | _, _, _, _ => none

/-- The main loop between the two instructions of the `CompareExchange` of `Lock`,
with sixteen keys waiting. -/
def lockingOnFullQueue : Machine where
  reg
    | .rdi => 0x100000
    | .rdx => 1
    | _ => 0
  mem := fun _ => 0
  input := fun _ => 0x1e
  output := []
  keydat := ⟨Vector.replicate 16 0x1e, 0, 0, 16⟩
  numLostkey := 0

theorem registers_preserved_iff_lockingOnFullQueue :
    ∃ m', asmInthandler21 callingPush lockingOnFullQueue = some m' ∧
      ((∀ r, m'.reg r = lockingOnFullQueue.reg r) ↔
        ∀ r v, residue callingPush lockingOnFullQueue r = some v →
          lockingOnFullQueue.reg r = v) :=
  ⟨_, rfl, registers_preserved_iff rfl⟩

/-- The interrupt leaves the error code of `Push` where the `cmpxchg` that follows
expects zero. -/
theorem not_registers_preserved :
    ¬ ∀ c m m', asmInthandler21 c m = some m' → ∀ r, m'.reg r = m.reg r := by
  intro hall
  have hrax := hall callingPush lockingOnFullQueue _ rfl .rax
  exact absurd hrax (by decide +kernel)

end Bitnos
