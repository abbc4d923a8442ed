/-
# Setting up the keyboard

`init_keyboard` sends the keyboard controller a command and its parameter. The controller has
room for one byte and takes it in its own time, so each byte is sent after the status has shown
that the one before is gone. When it takes a byte is left open: a schedule says before which
port accesses it does. The other bits of the status are left open as well, and so are other
commands than the one sent here.
-/

import Bitnos.InterruptFrame

namespace Bitnos

def portKeycmd : BitVec 16 := 0x0064
def keystaSendNotready : BitVec 8 := 0x02
def keycmdWriteMode : BitVec 8 := 0x60
def kbcMode : BitVec 8 := 0x47

structure KeyboardController where
  /-- what has been written and not taken yet, with its port -/
  input : Option (BitVec 16 × BitVec 8)
  /-- the next byte of data is the mode -/
  awaitsMode : Bool
  mode : BitVec 8
  /-- something was written on top of a byte not taken yet -/
  overrun : Bool

namespace KeyboardController

variable (c : KeyboardController)

/-- The controller takes what has been written. -/
def take : KeyboardController :=
  match c.input with
  | none => c
  | some (port, value) =>
    if port = portKeycmd then { c with input := none, awaitsMode := decide (value = keycmdWriteMode) }
    else if c.awaitsMode then { c with input := none, awaitsMode := false, mode := value }
    else { c with input := none }

/-- A byte is written to a port. -/
def put (port : BitVec 16) (value : BitVec 8) : KeyboardController :=
  { c with input := some (port, value), overrun := c.overrun || c.input.isSome }

end KeyboardController

/-! ### The kernel's side -/

section

-- before which accesses the controller takes a byte, and the other bits of the status
variable (schedule : ℕ → Bool) (status : ℕ → BitVec 8)

/-- The controller and the number of port accesses so far. -/
structure KeyboardPort where
  controller : KeyboardController
  accesses : ℕ

namespace KeyboardPort

/-- The controller at the next access. -/
def current (s : KeyboardPort) : KeyboardController :=
  if schedule s.accesses then s.controller.take else s.controller

/-- `IoIn8(PORT_KEYSTA)` -/
def readKeysta (s : KeyboardPort) : BitVec 8 × KeyboardPort :=
  let c := s.current schedule
  ((status s.accesses &&& ~~~keystaSendNotready) ||| (if c.input.isSome then keystaSendNotready else 0#8),
    ⟨c, s.accesses + 1⟩)

/-- `IoOut8` -/
def write (s : KeyboardPort) (port : BitVec 16) (value : BitVec 8) : KeyboardPort :=
  ⟨(s.current schedule).put port value, s.accesses + 1⟩

/-- `wait_KBC_sendready`, with a bound on its iterations. -/
def waitKBCSendready : ℕ → KeyboardPort → Option KeyboardPort
  | 0, _ => none
  | fuel + 1, s =>
    let (keysta, s) := s.readKeysta schedule status
    if keysta &&& keystaSendNotready = 0#8 then some s else waitKBCSendready fuel s

/-- `init_keyboard` -/
def initKeyboard (fuel : ℕ) (s : KeyboardPort) : Option KeyboardPort := do
  let s ← s.waitKBCSendready schedule status fuel
  let s := s.write schedule portKeycmd keycmdWriteMode
  let s ← s.waitKBCSendready schedule status fuel
  return s.write schedule (portKeydat.setWidth 16) kbcMode

end KeyboardPort

end

/-! ### Waiting -/

namespace KeyboardController

variable {c : KeyboardController}

theorem take_of_none (h : c.input = none) : c.take = c := by
  rw [take, h]

theorem input_take : c.take.input = none := by
  rw [take]
  cases hinput : c.input with
  | none => exact hinput
  | some byte =>
    dsimp only
    split_ifs <;> rfl

theorem overrun_take : c.take.overrun = c.overrun := by
  rw [take]
  cases c.input with
  | none => rfl
  | some byte =>
    dsimp only
    split_ifs <;> rfl

@[simp] theorem take_take : c.take.take = c.take := take_of_none input_take

end KeyboardController

namespace KeyboardPort

variable {schedule : ℕ → Bool} {status : ℕ → BitVec 8} {fuel fuel' : ℕ} {s t : KeyboardPort}

/-- Only the one bit of the status matters. -/
theorem keysta_ready_iff (s : KeyboardPort) :
    (s.readKeysta schedule status).1 &&& keystaSendNotready = 0#8 ↔
      (s.current schedule).input = none := by
  have hready : ∀ x : BitVec 8, (x &&& ~~~keystaSendNotready ||| 0#8) &&& keystaSendNotready =
      0#8 := by
    decide +kernel
  have hbusy : ∀ x : BitVec 8,
      (x &&& ~~~keystaSendNotready ||| keystaSendNotready) &&& keystaSendNotready ≠ 0#8 := by
    decide +kernel
  rw [readKeysta]
  cases (s.current schedule).input with
  | none => exact iff_of_true (hready _) rfl
  | some byte => exact iff_of_false (hbusy _) (Option.some_ne_none byte)

theorem take_current (s : KeyboardPort) : (s.current schedule).take = s.controller.take := by
  rw [current]
  split_ifs
  · exact KeyboardController.take_take
  · rfl

theorem current_of_none (h : s.controller.input = none) : s.current schedule = s.controller := by
  rw [current, KeyboardController.take_of_none h, ite_self]

/-- The wait ends once the controller has taken what was there. -/
theorem controller_waitKBCSendready (hwait : s.waitKBCSendready schedule status fuel = some t) :
    t.controller = s.controller.take := by
  induction fuel generalizing s with
  | zero => cases hwait
  | succ fuel ih =>
    rw [waitKBCSendready] at hwait
    dsimp only at hwait
    split_ifs at hwait with hready
    · obtain rfl := Option.some.inj hwait
      rw [keysta_ready_iff] at hready
      rw [← @take_current schedule, KeyboardController.take_of_none hready]
      rfl
    · rw [ih hwait]
      exact take_current s

theorem waitKBCSendready_mono (hwait : s.waitKBCSendready schedule status fuel = some t)
    (hle : fuel ≤ fuel') : s.waitKBCSendready schedule status fuel' = some t := by
  induction fuel generalizing s fuel' with
  | zero => cases hwait
  | succ fuel ih =>
    obtain ⟨fuel', rfl⟩ : ∃ n, fuel' = n + 1 := Nat.exists_eq_succ_of_ne_zero (by omega)
    rw [waitKBCSendready] at hwait ⊢
    dsimp only at hwait ⊢
    split_ifs at hwait ⊢ with hready
    · exact hwait
    · exact ih hwait (by omega)

/-- The wait ends if the controller takes a byte sooner or later. -/
theorem exists_waitKBCSendready {k : ℕ} (hk : s.accesses ≤ k) (htakes : schedule k = true) :
    ∃ fuel t, s.waitKBCSendready schedule status fuel = some t := by
  obtain ⟨d, rfl⟩ := Nat.exists_eq_add_of_le hk
  induction d generalizing s with
  | zero =>
    -- the controller takes its byte at this very access
    have hgone : (s.current schedule).input = none := by
      have hnow : schedule s.accesses = true := htakes
      rw [current, if_pos hnow, KeyboardController.input_take]
    refine ⟨1, (s.readKeysta schedule status).2, ?_⟩
    rw [waitKBCSendready]
    exact if_pos ((keysta_ready_iff s).mpr hgone)
  | succ d ih =>
    by_cases hready : (s.readKeysta schedule status).1 &&& keystaSendNotready = 0#8
    · refine ⟨1, (s.readKeysta schedule status).2, ?_⟩
      rw [waitKBCSendready]
      exact if_pos hready
    · have hnext : (s.readKeysta schedule status).2.accesses + d = s.accesses + (d + 1) := by
        change s.accesses + 1 + d = _
        omega
      obtain ⟨fuel, t, hwait⟩ :=
        ih (s := (s.readKeysta schedule status).2) (by omega) (by rwa [hnext])
      refine ⟨fuel + 1, t, ?_⟩
      rw [waitKBCSendready]
      exact (if_neg hready).trans hwait

end KeyboardPort

open KeyboardPort

/-- **Setting up the keyboard.** Whatever the controller was busy with and whenever it takes a byte,
nothing is written on top of a byte it has not taken; once it has taken the last one, its mode is the
one meant for it; and if it never stops taking bytes, `init_keyboard` ends. -/
theorem init_keyboard (schedule : ℕ → Bool) (status : ℕ → BitVec 8) (s : KeyboardPort) :
    (∀ fuel t, s.initKeyboard schedule status fuel = some t →
      t.controller.overrun = s.controller.overrun ∧ t.controller.take.mode = kbcMode) ∧
      ((∀ n, ∃ k ≥ n, schedule k = true) → ∃ fuel t, s.initKeyboard schedule status fuel =
        some t) := by
  constructor
  · intro fuel t hinit
    obtain ⟨u, hfirst, hinit⟩ := Option.bind_eq_some_iff.mp hinit
    obtain ⟨v, hsecond, hlast⟩ := Option.bind_eq_some_iff.mp hinit
    obtain rfl := Option.some.inj hlast
    have hu := controller_waitKBCSendready hfirst
    -- after a wait there is room for a byte
    have hempty : u.controller.input = none := by rw [hu, KeyboardController.input_take]
    have hv := controller_waitKBCSendready hsecond
    have hgone : v.controller.input = none := by rw [hv, KeyboardController.input_take]
    -- by the end of the second wait the command has been taken
    have hcommand : (u.write schedule portKeycmd keycmdWriteMode).controller =
        u.controller.put portKeycmd keycmdWriteMode := by
      rw [KeyboardPort.write, current_of_none hempty]
    have hawaits : v.controller.awaitsMode = true := by
      rw [hv, hcommand]
      rfl
    have hoverrun : v.controller.overrun = s.controller.overrun := by
      rw [hv, KeyboardController.overrun_take, hcommand, KeyboardController.put, hempty, hu,
        KeyboardController.overrun_take]
      exact Bool.or_false _
    have ht : (v.write schedule (portKeydat.setWidth 16) kbcMode).controller =
        v.controller.put (portKeydat.setWidth 16) kbcMode := by
      rw [KeyboardPort.write, current_of_none hgone]
    rw [ht]
    constructor
    · rw [KeyboardController.put, hgone, hoverrun]
      exact Bool.or_false _
    · have hport : portKeydat.setWidth 16 ≠ portKeycmd := by decide
      rw [KeyboardController.take, KeyboardController.put]
      dsimp only
      rw [if_neg hport, if_pos hawaits]
  · intro hfair
    -- one byte taken during each of the two waits is enough
    obtain ⟨k, hk, htakes⟩ := hfair s.accesses
    obtain ⟨fuel, u, hfirst⟩ := @exists_waitKBCSendready _ status _ _ hk htakes
    obtain ⟨k', hk', htakes'⟩ := hfair (u.write schedule portKeycmd keycmdWriteMode).accesses
    obtain ⟨fuel', v, hsecond⟩ := @exists_waitKBCSendready _ status _ _ hk' htakes'
    refine ⟨max fuel fuel', v.write schedule (portKeydat.setWidth 16) kbcMode, ?_⟩
    rw [initKeyboard, waitKBCSendready_mono hfirst (le_max_left fuel fuel'), Option.bind_eq_bind,
      Option.bind_some]
    dsimp only
    rw [waitKBCSendready_mono hsecond (le_max_right fuel fuel')]
    rfl

end Bitnos
