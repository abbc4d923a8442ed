/-
# The assembly routines for ports and locks

The few instructions `asmfunc.s` uses, on a machine of sixteen registers, memory
seen as quadwords, and byte ports. The `ret` of a routine and the `call` that
enters it move the instruction and stack pointers only and are not listed.
-/

import Bitnos.Mutex
import Mathlib.Logic.Function.Basic

namespace Bitnos

/-- The general-purpose registers. -/
inductive Reg
  | rax | rbx | rcx | rdx | rsi | rdi | rbp | rsp
  | r8 | r9 | r10 | r11 | r12 | r13 | r14 | r15
  deriving DecidableEq, Repr

/-- The registers a called function may overwrite under the System V ABI. -/
def Reg.callerSaved : Reg → Bool
  | .rax | .rcx | .rdx | .rsi | .rdi | .r8 | .r9 | .r10 | .r11 => true
  | _ => false

/-- Registers, memory and ports. -/
structure Cpu where
  reg : Reg → BitVec 64
  mem : BitVec 64 → BitVec 64
  /-- the byte each port would deliver -/
  input : BitVec 16 → BitVec 8
  /-- the bytes written to ports, oldest first -/
  output : List (BitVec 16 × BitVec 8)

namespace Cpu

variable (cpu : Cpu)

/-- Write a register. -/
def setReg (r : Reg) (v : BitVec 64) : Cpu := { cpu with reg := Function.update cpu.reg r v }

@[simp] theorem setReg_reg_self (r : Reg) (v : BitVec 64) : (cpu.setReg r v).reg r = v := by
  simp [setReg]

@[simp] theorem setReg_reg_of_ne {r r' : Reg} (hne : r' ≠ r) (v : BitVec 64) :
    (cpu.setReg r v).reg r' = cpu.reg r' := by
  simp [setReg, hne]

@[simp] theorem setReg_mem (r : Reg) (v : BitVec 64) : (cpu.setReg r v).mem = cpu.mem := rfl

@[simp] theorem setReg_input (r : Reg) (v : BitVec 64) : (cpu.setReg r v).input = cpu.input := rfl

end Cpu

/-- The instructions used. -/
inductive Instr
  /-- `mov dst, src` -/
  | mov (dst src : Reg)
  /-- `out dx, al` -/
  | outDxAl
  /-- `in al, dx` -/
  | inAlDx
  /-- `lock cmpxchg [addr], src` -/
  | lockCmpxchg (addr src : Reg)
  /-- `lfence` -/
  | lfence
  /-- `mov [addr], src` -/
  | store (addr src : Reg)

/-- Replace the low byte of a register, as a write to `al` does. -/
def setLow8 (w : BitVec 64) (b : BitVec 8) : BitVec 64 := w.extractLsb' 8 56 ++ b

theorem setWidth_setLow8 (w : BitVec 64) (b : BitVec 8) : (setLow8 w b).setWidth 8 = b := by
  ext i hi
  rw [BitVec.getElem_setWidth]
  exact BitVec.getLsbD_append.trans (by simp [hi])

/-- The effect of one instruction. -/
def Instr.exec : Instr → Cpu → Cpu
  | .mov dst src, cpu => cpu.setReg dst (cpu.reg src)
  | .outDxAl, cpu =>
    { cpu with
      output := cpu.output ++ [((cpu.reg .rdx).setWidth 16, (cpu.reg .rax).setWidth 8)] }
  | .inAlDx, cpu =>
    cpu.setReg .rax (setLow8 (cpu.reg .rax) (cpu.input ((cpu.reg .rdx).setWidth 16)))
  | .lockCmpxchg addr src, cpu =>
    let result := compareExchange (cpu.mem (cpu.reg addr)) (cpu.reg .rax) (cpu.reg src)
    { cpu.setReg .rax result.1 with mem := Function.update cpu.mem (cpu.reg addr) result.2 }
  | .lfence, cpu => cpu
  | .store addr src, cpu =>
    { cpu with mem := Function.update cpu.mem (cpu.reg addr) (cpu.reg src) }

/-- The instructions of a routine one after another. -/
def execAll (routine : List Instr) (cpu : Cpu) : Cpu :=
  routine.foldl (fun cpu instr => instr.exec cpu) cpu

namespace Routine

/-- `IoOut8` -/
def ioOut8 : List Instr := [.mov .rdx .rdi, .mov .rax .rsi, .outDxAl]

/-- `IoIn8` -/
def ioIn8 : List Instr := [.mov .rdx .rdi, .inAlDx]

/-- `CompareExchange` -/
def compareExchange : List Instr := [.mov .rax .rsi, .lockCmpxchg .rdi .rdx]

/-- `LFencedWrite` -/
def lfencedWrite : List Instr := [.lfence, .store .rdi .rsi]

end Routine

end Bitnos
