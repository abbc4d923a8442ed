/-
# Scancodes to characters

The part of the key loop that turns one scancode into at most one character for
the shell and keeps track of the shift state in a single flag.
-/

import Mathlib.Data.BitVec

namespace Bitnos

/-- `keytable_normal` -/
def keytableNormal : Vector (BitVec 8) 128 := #v[
  0, 0, 0x31, 0x32, 0x33, 0x34, 0x35, 0x36, 0x37, 0x38, 0x39, 0x30, 0x2d, 0x5e, 0x08, 0,
  0x51, 0x57, 0x45, 0x52, 0x54, 0x59, 0x55, 0x49, 0x4f, 0x50, 0x40, 0x5b, 0x0a, 0, 0x41, 0x53,
  0x44, 0x46, 0x47, 0x48, 0x4a, 0x4b, 0x4c, 0x3b, 0x3a, 0, 0, 0x5d, 0x5a, 0x58, 0x43, 0x56,
  0x42, 0x4e, 0x4d, 0x2c, 0x2e, 0x2f, 0, 0x2a, 0, 0x20, 0, 0, 0, 0, 0, 0,
  0, 0, 0, 0, 0, 0, 0, 0x37, 0x38, 0x39, 0x2d, 0x34, 0x35, 0x36, 0x2b, 0x31,
  0x32, 0x33, 0x30, 0x2e, 0, 0, 0, 0, 0, 0, 0, 0, 0, 0, 0, 0,
  0, 0, 0, 0, 0, 0, 0, 0, 0, 0, 0, 0, 0, 0, 0, 0,
  0, 0, 0, 0x5c, 0, 0, 0, 0, 0, 0, 0, 0, 0, 0x5c, 0, 0]

/-- `keytable_shifted` -/
def keytableShifted : Vector (BitVec 8) 128 := #v[
  0, 0, 0x21, 0x22, 0x23, 0x24, 0x25, 0x26, 0x27, 0x28, 0x29, 0x7e, 0x3d, 0x7e, 0x08, 0,
  0x51, 0x57, 0x45, 0x52, 0x54, 0x59, 0x55, 0x49, 0x4f, 0x50, 0x60, 0x7b, 0x0a, 0, 0x41, 0x53,
  0x44, 0x46, 0x47, 0x48, 0x4a, 0x4b, 0x4c, 0x2b, 0x2a, 0, 0, 0x7d, 0x5a, 0x58, 0x43, 0x56,
  0x42, 0x4e, 0x4d, 0x3c, 0x3e, 0x3f, 0, 0x2a, 0, 0x20, 0, 0, 0, 0, 0, 0,
  0, 0, 0, 0, 0, 0, 0, 0x37, 0x38, 0x39, 0x2d, 0x34, 0x35, 0x36, 0x2b, 0x31,
  0x32, 0x33, 0x30, 0x2e, 0, 0, 0, 0, 0, 0, 0, 0, 0, 0, 0, 0,
  0, 0, 0, 0, 0, 0, 0, 0, 0, 0, 0, 0, 0, 0, 0, 0,
  0, 0, 0, 0x5f, 0, 0, 0, 0, 0, 0, 0, 0, 0, 0x7c, 0, 0]

/-- The test for the two shift keys. -/
def isShiftKey (key : BitVec 8) : Bool := key == 0x2a || key == 0x36

/-- The character a pressed key stands for, zero if it stands for none. -/
def keyAscii (shifted : Bool) (key : Fin 128) : BitVec 8 :=
  let ascii := if shifted then keytableShifted[key] else keytableNormal[key]
  -- letters are stored as capitals in both tables
  if !shifted && 0x41 ≤ ascii && ascii ≤ 0x5a then ascii + 0x20 else ascii

/-- One scancode: the new value of `shifted` and the character handed to
`shell.PutChar`, if any. -/
def decodeKey (shifted : Bool) (key : BitVec 8) : Bool × Option (BitVec 8) :=
  if hpress : key.toNat < 0x80 then
    if isShiftKey key then
      (true, none)
    else
      let ascii := keyAscii shifted ⟨key.toNat, hpress⟩
      (shifted, if ascii = 0 then none else some ascii)
  else if isShiftKey (key &&& 0x7f) then
    (false, none)
  else
    (shifted, none)

end Bitnos
