/-
# Formatted output and input

The conversions of `printf` and `sscanf` the commands use, as the C standard has them.
What `%0Nx` writes for a number of at most `N` digits, `%Nx` reads back, whatever follows.
-/

import Bitnos.Math.Numeral
import Mathlib.Data.BitVec

namespace Bitnos

/-- The bytes of a string literal. -/
def ascii (s : String) : List (BitVec 8) := s.toList.map fun c => BitVec.ofNat 8 c.toNat

/-! ### Output -/

/-- A digit, as `%x` writes it. -/
def hexChar (d : ℕ) : BitVec 8 :=
  if d < 10 then BitVec.ofNat 8 (0x30 + d) else BitVec.ofNat 8 (0x61 + (d - 10))

/-- `%0Nx`, and `%x` for a width of one. -/
def hexText (width n : ℕ) : List (BitVec 8) := (Numeral.padded 16 width n).map hexChar

/-- `%Nu`, and `%u` or `%d` of a number that is not negative for a width of one. -/
def decText (width n : ℕ) : List (BitVec 8) :=
  let digits := (Numeral.digits 10 n).map hexChar
  List.replicate (width - digits.length) 0x20 ++ digits

/-! ### Input -/

/-- `isspace` -/
def isSpace (ch : BitVec 8) : Bool := ch == 0x20 || (0x09 ≤ ch && ch ≤ 0x0d)

/-- The value of a hexadecimal digit. -/
def hexDigit (ch : BitVec 8) : Option ℕ :=
  if 0x30 ≤ ch ∧ ch ≤ 0x39 then some (ch.toNat - 0x30)
  else if 0x61 ≤ ch ∧ ch ≤ 0x66 then some (ch.toNat - 0x61 + 10)
  else if 0x41 ≤ ch ∧ ch ≤ 0x46 then some (ch.toNat - 0x41 + 10)
  else none

/-- The digits a text begins with, at most so many, and the rest. -/
def hexDigits : ℕ → List (BitVec 8) → List ℕ × List (BitVec 8)
  | 0, s => ([], s)
  | _ + 1, [] => ([], [])
  | width + 1, ch :: s =>
    match hexDigit ch with
    | none => ([], ch :: s)
    | some d => (d :: (hexDigits width s).1, (hexDigits width s).2)

/-- An optional sign, with the width it leaves. -/
def scanSign : ℕ → List (BitVec 8) → Bool × ℕ × List (BitVec 8)
  | width + 1, ch :: s =>
    if ch = 0x2d then (true, width, s) else if ch = 0x2b then (false, width, s)
    else (false, width + 1, ch :: s)
  | width, s => (false, width, s)

/-- An optional `0x`, with the width it leaves. -/
def scanPrefix : ℕ → List (BitVec 8) → ℕ × List (BitVec 8)
  | width + 2, ch :: ch' :: s =>
    if ch = 0x30 ∧ (ch' = 0x78 ∨ ch' = 0x58) then (width, s) else (width + 2, ch :: ch' :: s)
  | width, s => (width, s)

/-- `%Nx` into an `unsigned int`, for at most eight digits: the value and what is left of the
input. A sign or a `0x` without a digit after it is a mismatch. -/
def scanHex (width : ℕ) (s : List (BitVec 8)) : Option (BitVec 32 × List (BitVec 8)) :=
  let signed := scanSign width (s.dropWhile isSpace)
  let prefixed := scanPrefix signed.2.1 signed.2.2
  let digits := hexDigits prefixed.1 prefixed.2
  if digits.1 = [] then none
  else
    let value := BitVec.ofNat 32 (Numeral.value 16 digits.1)
    some (if signed.1 then -value else value, digits.2)

/-- A character of the format that is not part of a conversion. -/
def scanLiteral (ch : BitVec 8) : List (BitVec 8) → Option (List (BitVec 8))
  | [] => none
  | ch' :: s => if ch' = ch then some s else none

/-! ### What is written is read back -/

/-- A digit that was written is a digit, and nothing that means something else. -/
theorem hexChar_spec {d : ℕ} (hd : d < 16) : hexDigit (hexChar d) = some d ∧
    isSpace (hexChar d) = false ∧ hexChar d ≠ 0x2d ∧ hexChar d ≠ 0x2b ∧ hexChar d ≠ 0x78 ∧
      hexChar d ≠ 0x58 := by
  have hall : ∀ d : Fin 16, hexDigit (hexChar d) = some d.val ∧ isSpace (hexChar d) = false ∧
      hexChar d ≠ 0x2d ∧ hexChar d ≠ 0x2b ∧ hexChar d ≠ 0x78 ∧ hexChar d ≠ 0x58 := by decide
  exact hall ⟨d, hd⟩

theorem hexDigits_map (ds : List ℕ) (hds : ∀ d ∈ ds, d < 16) (rest : List (BitVec 8)) :
    hexDigits ds.length (ds.map hexChar ++ rest) = (ds, rest) := by
  induction ds with
  | nil => cases rest <;> rfl
  | cons d ds ih =>
    have hrest := ih fun d' hd' => hds d' (List.mem_cons_of_mem d hd')
    rw [List.map_cons, List.cons_append, List.length_cons, hexDigits,
      (hexChar_spec (hds d List.mem_cons_self)).1]
    dsimp only
    rw [hrest]

/-- Digits have no sign and no prefix in front. -/
theorem scanHex_map {ds : List ℕ} (hne : ds ≠ []) (hds : ∀ d ∈ ds, d < 16)
    (rest : List (BitVec 8)) : scanHex ds.length (ds.map hexChar ++ rest) =
      some (BitVec.ofNat 32 (Numeral.value 16 ds), rest) := by
  obtain ⟨d, ds', rfl⟩ := List.exists_cons_of_ne_nil hne
  obtain ⟨-, hspace, hminus, hplus, -⟩ := hexChar_spec (hds d List.mem_cons_self)
  have hsign : scanSign (d :: ds').length (((d :: ds').map hexChar ++ rest).dropWhile isSpace) =
      (false, (d :: ds').length, (d :: ds').map hexChar ++ rest) := by
    rw [List.map_cons, List.cons_append, List.dropWhile_cons_of_neg (by rw [hspace]; decide),
      List.length_cons, scanSign, if_neg hminus, if_neg hplus]
  have hbare : scanPrefix (d :: ds').length ((d :: ds').map hexChar ++ rest) =
      ((d :: ds').length, (d :: ds').map hexChar ++ rest) := by
    cases ds' with
    | nil => rfl
    | cons d' ds' =>
      obtain ⟨-, -, -, -, hsmall, hcapital⟩ :=
        hexChar_spec (hds d' (List.mem_cons_of_mem d List.mem_cons_self))
      exact if_neg fun h => h.2.elim hsmall hcapital
  rw [scanHex, hsign]
  dsimp only
  rw [hbare]
  dsimp only
  rw [hexDigits_map _ hds, if_neg hne]
  rfl

/-- What `%0Nx` writes is read back by `%Nx`. -/
theorem scanHex_hexText {width n : ℕ} (hwidth : 0 < width) (hn : n < 16 ^ width)
    (rest : List (BitVec 8)) :
    scanHex width (hexText width n ++ rest) = some (BitVec.ofNat 32 n, rest) := by
  have hlength : (Numeral.padded 16 width n).length = width :=
    Numeral.length_padded (by decide) hwidth hn
  have hne : Numeral.padded 16 width n ≠ [] := by
    rw [← List.length_pos_iff, hlength]
    exact hwidth
  have hscan := scanHex_map hne (fun d hd => Numeral.lt_of_mem_padded (by decide) hd) rest
  rwa [hlength, Numeral.value_padded] at hscan

/-- A number is written with digits. -/
theorem exists_of_mem_hexText {width n : ℕ} {ch : BitVec 8} (hch : ch ∈ hexText width n) :
    ∃ d : Fin 16, ch = hexChar d := by
  obtain ⟨d, hd, rfl⟩ := List.mem_map.mp hch
  exact ⟨⟨d, Numeral.lt_of_mem_padded (by decide) hd⟩, rfl⟩

theorem length_hexText {width n : ℕ} (hwidth : 0 < width) (hn : n < 16 ^ width) :
    (hexText width n).length = width := by
  rw [hexText, List.length_map, Numeral.length_padded (by decide) hwidth hn]

end Bitnos
