/-
# The 8259A interrupt controller

A controller has eight request lines. It is programmed through a command port and a data
port: an initialization command starts a sequence in which the data port takes further
command words, and after that the data port is the mask. A request is delivered unless it is
masked or a request of the same or a higher priority is still in service. Of two controllers
the second is connected to a line of the first.

Requests are edge triggered, and a line stays up until its request has been acknowledged.
Reading a controller, polling it and the special fully nested mode are left out.
-/

import Mathlib.Data.List.Basic

namespace I8259

/-- A number of a line. -/
abbrev Level := BitVec 3

/-- What the next write to the data port is. -/
inductive Phase
  | icw2
  | icw3
  | icw4
  | ocw1
  deriving DecidableEq

structure Chip where
  /-- requests not acknowledged yet -/
  irr : BitVec 8
  /-- requests acknowledged, whose service has not ended -/
  isr : BitVec 8
  imr : BitVec 8
  /-- the upper five bits of the vectors -/
  vectors : BitVec 8
  /-- the connection to the other controller -/
  cascade : BitVec 8
  /-- the level of the lowest priority -/
  lowest : Level
  phase : Phase
  single : Bool
  expectsIcw4 : Bool
  autoEoi : Bool
  rotateAutoEoi : Bool
  specialMask : Bool

/-- The bit of a level. -/
def Level.bit (n : Level) : BitVec 8 := BitVec.twoPow 8 n.toNat

namespace Chip

variable (c : Chip)

/-- The levels from the highest priority to the lowest. -/
def order : List Level := (List.range 8).map fun i => c.lowest + 1#3 + BitVec.ofNat 3 i

def inService (n : Level) : Bool := c.isr.getLsbD n.toNat

/-- The request to deliver next. A level in service holds back itself and those after it, except
that in special mask mode a masked one does not. -/
def request : Option Level :=
  (c.order.takeWhile fun n => !(c.inService n && !(c.specialMask && c.imr.getLsbD n.toNat))).find?
    fun n => c.irr.getLsbD n.toNat && !c.imr.getLsbD n.toNat

/-- The end of the service of a level. -/
def endOfInterrupt (n : Level) : Chip := { c with isr := c.isr &&& ~~~n.bit }

/-- Operation command word 2, by its upper three bits. -/
def ocw2 (value : BitVec 8) : Chip :=
  let level : Level := value.extractLsb' 0 3
  let highest := c.order.find? c.inService
  match (value.extractLsb' 5 3).toNat with
  | 0 => { c with rotateAutoEoi := false }
  | 1 => (highest.map c.endOfInterrupt).getD c
  | 3 => c.endOfInterrupt level
  | 4 => { c with rotateAutoEoi := true }
  | 5 => (highest.map fun n => { c.endOfInterrupt n with lowest := n }).getD c
  | 6 => { c with lowest := level }
  | 7 => { c.endOfInterrupt level with lowest := level }
  | _ => c

/-- A write to the command port. -/
def command (value : BitVec 8) : Chip :=
  if value.getLsbD 4 then
    { c with
      irr := 0#8, isr := 0#8, imr := 0#8, lowest := 7#3, phase := .icw2
      single := value.getLsbD 1, expectsIcw4 := value.getLsbD 0
      autoEoi := false, rotateAutoEoi := false, specialMask := false }
  else if value.getLsbD 3 then
    if value.getLsbD 6 then { c with specialMask := value.getLsbD 5 } else c
  else
    c.ocw2 value

/-- A write to the data port. -/
def data (value : BitVec 8) : Chip :=
  match c.phase with
  | .icw2 =>
    { c with
      vectors := value &&& 0xf8#8
      phase := if c.single then (if c.expectsIcw4 then .icw4 else .ocw1) else .icw3 }
  | .icw3 => { c with cascade := value, phase := if c.expectsIcw4 then .icw4 else .ocw1 }
  | .icw4 => { c with autoEoi := value.getLsbD 1, phase := .ocw1 }
  | .ocw1 => { c with imr := value }

/-- A line goes up. -/
def raise (n : Level) : Chip := { c with irr := c.irr ||| n.bit }

/-- A request is acknowledged. -/
def acknowledge (n : Level) : Chip :=
  let c := { c with irr := c.irr &&& ~~~n.bit }
  if c.autoEoi then (if c.rotateAutoEoi then { c with lowest := n } else c)
  else { c with isr := c.isr ||| n.bit }

/-- The vector of a level. -/
def vector (n : Level) : BitVec 8 := c.vectors + n.setWidth 8

end Chip

/-- The two controllers of a PC. -/
structure Pair where
  master : Chip
  slave : Chip

namespace Pair

variable (p : Pair)

/-- The line of the first controller the second is connected to. -/
def line : Level := 2#3

/-- One of the sixteen lines goes up. -/
def raise (n : BitVec 4) : Pair :=
  if 8 ≤ n.toNat then { p with slave := p.slave.raise (n.setWidth 3) }
  else if n.setWidth 3 = line then p
  else { p with master := p.master.raise (n.setWidth 3) }

/-- The request of the first controller. The second keeps its line up as long as it has one. -/
def request : Option Level :=
  (if p.slave.request.isSome then p.master.raise line else p.master).request

/-- The processor acknowledges the request and gets the vector, from the second controller if the
first one says that the level is connected to it. -/
def acknowledge : Option (BitVec 8 × Pair) :=
  p.request.map fun n =>
    let master := p.master.acknowledge n
    if p.master.cascade.getLsbD n.toNat then
      match p.slave.request with
      | some m => (p.slave.vector m, { master, slave := p.slave.acknowledge m })
      | none => (p.slave.vector 7#3, { p with master })
    else
      (p.master.vector n, { p with master })

end Pair

/-! ### Requests -/

theorem Chip.getLsbD_raise (c : Chip) (n : Level) (k : ℕ) :
    (c.raise n).irr.getLsbD k = (c.irr.getLsbD k || decide (k = n.toNat)) := by
  have hn : n.toNat < 8 := n.isLt
  rw [raise, BitVec.getLsbD_or, Level.bit, BitVec.getLsbD_twoPow, decide_eq_true hn, Bool.true_and]
  simp only [eq_comm]

/-- A line that goes up sets its bit in the first controller, if it is one of its lines. -/
theorem Pair.raise_spec (p : Pair) (n : BitVec 4) : (p.raise n).slave.imr = p.slave.imr ∧
    ∃ irr, (p.raise n).master = { p.master with irr } ∧
      ∀ k < 8, irr.getLsbD k = (p.master.irr.getLsbD k || decide (k = n.toNat ∧ k ≠ line.toNat)) := by
  rw [raise]
  split_ifs with hslave hline
  · refine ⟨rfl, p.master.irr, rfl, fun k hk => ?_⟩
    rw [decide_eq_false (by omega), Bool.or_false]
  · refine ⟨rfl, p.master.irr, rfl, fun k hk => ?_⟩
    have hn : n.toNat = line.toNat := by
      rw [← hline, BitVec.toNat_setWidth]
      omega
    rw [decide_eq_false (by omega), Bool.or_false]
  · refine ⟨rfl, _, rfl, fun k hk => ?_⟩
    have hn : (n.setWidth 3).toNat = n.toNat := by
      rw [BitVec.toNat_setWidth]
      omega
    have hne : n.toNat ≠ line.toNat := fun heq => hline (BitVec.eq_of_toNat_eq (hn.trans heq))
    have hsame : k = n.toNat ↔ k = n.toNat ∧ k ≠ line.toNat :=
      ⟨fun hk => ⟨hk, hk ▸ hne⟩, fun h => h.1⟩
    have hbit := p.master.getLsbD_raise (n.setWidth 3) k
    rwa [hn, decide_eq_decide.mpr hsame] at hbit

/-! ### Masked requests -/

/-- A controller that masks everything has no request. -/
theorem Chip.request_of_masked {c : Chip} (h : c.imr = 0xff#8) : c.request = none := by
  refine List.find?_eq_none.mpr fun n _ => ?_
  have hall : ∀ n : Level, (0xff#8).getLsbD n.toNat = true := by decide
  have hbit := hall n
  rw [h, hbit, Bool.not_true, Bool.and_false]
  exact Bool.false_ne_true

/-- Then only the requests of the first controller count. -/
theorem Pair.request_of_masked {p : Pair} (h : p.slave.imr = 0xff#8) :
    p.request = p.master.request := by
  rw [request, Chip.request_of_masked h]
  rfl

end I8259
