/-
# The text console

`DebugConsole` keeps a cursor and draws through a pixel writer. The cursor is a pair
of `int` that is compared with `unsigned int` sizes; for the sizes a screen can have,
it moves as the cursor of a text screen does.
-/

import Bitnos.Graphics.Draw
import Bitnos.Math.TextCursor
import Mathlib.Data.List.TakeWhile

namespace Bitnos

open Graphics

/-- The characters the console and the shell treat specially. -/
abbrev Ascii.nul : BitVec 8 := 0x00
@[inherit_doc Ascii.nul] abbrev Ascii.backspace : BitVec 8 := 0x08
@[inherit_doc Ascii.nul] abbrev Ascii.newline : BitVec 8 := 0x0a
@[inherit_doc Ascii.nul] abbrev Ascii.space : BitVec 8 := 0x20

/-- The character drawn as the cursor. -/
abbrev Ascii.underscore : BitVec 8 := 0x5f

/-- The fields of `DebugConsole`, except for the writer it draws through. -/
structure DebugConsole where
  size : RectSize
  cur : Point

namespace DebugConsole

/-- The constructor. -/
def construct (size : RectSize) : DebugConsole := ⟨size, ⟨0, 0⟩⟩

/-- `ToPixel` -/
def toPixel (cur : Point) : Point := ⟨8 * cur.x, 16 * cur.y⟩

/-- The size of a cell in pixels. -/
def cellSize : RectSize := ⟨8, 16⟩

variable (font : Font) (cons : DebugConsole)

/-- `Newline`. On the last line the source has a comment in place of scrolling. -/
def newline : DebugConsole :=
  { cons with
    cur := ⟨0, if cons.cur.y < cons.size.height - 1 then cons.cur.y + 1 else cons.cur.y⟩ }

/-- `Backspace`. The comparisons with zero are signed. -/
def backspace : DebugConsole :=
  if (0 : BitVec 32).slt cons.cur.x then
    { cons with cur := ⟨cons.cur.x - 1, cons.cur.y⟩ }
  else
    { cons with
      cur := ⟨cons.size.width - 1,
        if (0 : BitVec 32).slt cons.cur.y then cons.cur.y - 1 else cons.cur.y⟩ }

/-- `EraseCursor` -/
def eraseCursor : List PixelWrite := drawRect (toPixel cons.cur) cellSize white

/-- `DrawCursor` -/
def drawCursor : List PixelWrite :=
  drawRect (toPixel cons.cur) cellSize white ++ drawAscii font (toPixel cons.cur) Ascii.underscore

/-- What `PutChar` does after a printed character. -/
def step : DebugConsole :=
  if cons.cur.x < cons.size.width - 1 then
    { cons with cur := ⟨cons.cur.x + 1, cons.cur.y⟩ }
  else
    cons.newline

/-- `PutChar`: the calls of `Write` and the console afterwards. -/
def putChar (ch : BitVec 8) : List PixelWrite × DebugConsole :=
  if ch = Ascii.newline then
    (cons.eraseCursor, cons.newline)
  else if ch = Ascii.backspace then
    (cons.eraseCursor ++ cons.backspace.drawCursor font, cons.backspace)
  else
    (cons.eraseCursor ++ drawAscii font (toPixel cons.cur) ch ++ cons.step.drawCursor font, cons.step)

/-- One call of `PutChar` after another. -/
def putChars : DebugConsole → List (BitVec 8) → List PixelWrite × DebugConsole
  | cons, [] => ([], cons)
  | cons, ch :: chars =>
    let first := cons.putChar font ch
    let rest := putChars first.2 chars
    (first.1 ++ rest.1, rest.2)

/-- `PutStr`. The string ends at its first zero byte. -/
def putStr (s : List (BitVec 8)) : List PixelWrite × DebugConsole :=
  cons.putChars font (s.takeWhile (· != Ascii.nul))

variable {font cons} {ch : BitVec 8} {chars : List (BitVec 8)}

@[simp] theorem newline_size : cons.newline.size = cons.size := rfl

@[simp] theorem backspace_size : cons.backspace.size = cons.size := by
  unfold backspace
  split_ifs <;> rfl

@[simp] theorem step_size : cons.step.size = cons.size := by
  unfold step
  split_ifs <;> rfl

theorem putChar_backspace : cons.putChar font Ascii.backspace =
    (cons.eraseCursor ++ cons.backspace.drawCursor font, cons.backspace) := rfl

theorem putChar_printed (hn : ch ≠ Ascii.newline) (hb : ch ≠ Ascii.backspace) :
    cons.putChar font ch = (cons.eraseCursor ++ drawAscii font (toPixel cons.cur) ch ++
      cons.step.drawCursor font, cons.step) := by
  rw [putChar, if_neg hn, if_neg hb]

/-- The three kinds of characters. -/
theorem char_cases (ch : BitVec 8) :
    ch = Ascii.newline ∨ ch = Ascii.backspace ∨ (ch ≠ Ascii.newline ∧ ch ≠ Ascii.backspace) := by
  by_cases hn : ch = Ascii.newline
  · exact .inl hn
  · by_cases hb : ch = Ascii.backspace
    · exact .inr (.inl hb)
    · exact .inr (.inr ⟨hn, hb⟩)

theorem putChars_cons : cons.putChars font (ch :: chars) =
    ((cons.putChar font ch).1 ++ ((cons.putChar font ch).2.putChars font chars).1,
      ((cons.putChar font ch).2.putChars font chars).2) := rfl

theorem putChars_append (chars' : List (BitVec 8)) : cons.putChars font (chars ++ chars') =
    ((cons.putChars font chars).1 ++ ((cons.putChars font chars).2.putChars font chars').1,
      ((cons.putChars font chars).2.putChars font chars').2) := by
  induction chars generalizing cons with
  | nil => rfl
  | cons ch chars ih => rw [List.cons_append, putChars_cons, putChars_cons, ih, List.append_assoc]

theorem putStr_eq (hnul : ∀ ch ∈ chars, ch ≠ Ascii.nul) :
    cons.putStr font chars = cons.putChars font chars := by
  rw [putStr, List.takeWhile_eq_self_iff.mpr fun ch hch => bne_iff_ne.mpr (hnul ch hch)]

/-! ### The cursor as a cell -/

/-- The cell the cursor is on. -/
def cell (cons : DebugConsole) : TextCursor.Cell := ⟨cons.cur.x.toNat, cons.cur.y.toNat⟩

/-- The cursor lies on the screen, and every column and every row is an `int`. -/
structure Valid (cons : DebugConsole) : Prop where
  width_le : cons.size.width.toNat ≤ 2 ^ 31
  height_le : cons.size.height.toNat ≤ 2 ^ 31
  onScreen : TextCursor.OnScreen cons.size.width.toNat cons.size.height.toNat cons.cell

/-- Where a character moves the cursor. -/
def moved (width height : ℕ) (ch : BitVec 8) (c : TextCursor.Cell) : TextCursor.Cell :=
  if ch = Ascii.newline then TextCursor.newline height c
  else if ch = Ascii.backspace then TextCursor.retreat width c
  else TextCursor.advance width height c

theorem slt_zero_iff {x : BitVec 32} (hx : x.toNat < 2 ^ 31) : (0 : BitVec 32).slt x ↔ 0 < x.toNat := by
  rw [BitVec.slt_eq_decide, decide_eq_true_iff, BitVec.toInt_eq_toNat_of_lt (x := x) (by omega)]
  exact Int.natCast_pos

theorem toNat_pred {x : BitVec 32} (hpos : 0 < x.toNat) : (x - 1).toNat = x.toNat - 1 :=
  BitVec.toNat_sub_of_le hpos

theorem toNat_succ {x : BitVec 32} (hlt : x.toNat < 2 ^ 31) : (x + 1).toNat = x.toNat + 1 :=
  BitVec.toNat_add_of_lt (by simp; omega)

namespace Valid

theorem width_pos (h : cons.Valid) : 0 < cons.size.width.toNat :=
  (Nat.zero_le _).trans_lt h.onScreen.col_lt

theorem height_pos (h : cons.Valid) : 0 < cons.size.height.toNat :=
  (Nat.zero_le _).trans_lt h.onScreen.row_lt

theorem x_lt (h : cons.Valid) : cons.cur.x.toNat < 2 ^ 31 := h.onScreen.col_lt.trans_le h.width_le

theorem y_lt (h : cons.Valid) : cons.cur.y.toNat < 2 ^ 31 := h.onScreen.row_lt.trans_le h.height_le

theorem cell_newline (h : cons.Valid) :
    cons.newline.cell = TextCursor.newline cons.size.height.toNat cons.cell := by
  have hlast : cons.cur.y < cons.size.height - 1 ↔ cons.cur.y.toNat < cons.size.height.toNat - 1 := by
    rw [BitVec.lt_def, toNat_pred h.height_pos]
  refine TextCursor.Cell.ext rfl ?_
  change BitVec.toNat (if _ then _ else _) = if cons.cur.y.toNat < _ then cons.cur.y.toNat + 1 else _
  simp only [hlast]
  split_ifs
  · exact toNat_succ h.y_lt
  · rfl

theorem cell_step (h : cons.Valid) : cons.step.cell =
    TextCursor.advance cons.size.width.toNat cons.size.height.toNat cons.cell := by
  have hlast : cons.cur.x < cons.size.width - 1 ↔ cons.cur.x.toNat < cons.size.width.toNat - 1 := by
    rw [BitVec.lt_def, toNat_pred h.width_pos]
  unfold step TextCursor.advance
  simp only [hlast]
  change _ = if cons.cur.x.toNat < cons.size.width.toNat - 1 then _ else _
  split_ifs
  · simp only [cell, toNat_succ h.x_lt]
  · exact h.cell_newline

theorem cell_backspace (h : cons.Valid) :
    cons.backspace.cell = TextCursor.retreat cons.size.width.toNat cons.cell := by
  have hx := slt_zero_iff h.x_lt
  have hy := slt_zero_iff h.y_lt
  unfold backspace TextCursor.retreat
  simp only [hx, hy]
  change _ = if 0 < cons.cur.x.toNat then _ else _
  split_ifs with hcol hrow
  · simp only [cell, toNat_pred hcol]
  · simp only [cell, toNat_pred hrow, toNat_pred h.width_pos]
  · simp only [cell, toNat_pred h.width_pos]
    congr 1
    omega

theorem of_cell {next : DebugConsole} (h : cons.Valid) (hsize : next.size = cons.size)
    (hcell : TextCursor.OnScreen cons.size.width.toNat cons.size.height.toNat next.cell) :
    next.Valid where
  width_le := hsize ▸ h.width_le
  height_le := hsize ▸ h.height_le
  onScreen := hsize ▸ hcell

theorem newline (h : cons.Valid) : cons.newline.Valid :=
  h.of_cell newline_size (h.cell_newline ▸ h.onScreen.newline)

theorem step (h : cons.Valid) : cons.step.Valid :=
  h.of_cell step_size (h.cell_step ▸ h.onScreen.advance)

theorem backspace (h : cons.Valid) : cons.backspace.Valid :=
  h.of_cell backspace_size (h.cell_backspace ▸ h.onScreen.retreat)

/-- One call of `PutChar` keeps the cursor on the screen. -/
theorem putChar (h : cons.Valid) (font : Font) (ch : BitVec 8) : (cons.putChar font ch).2.Valid := by
  rcases char_cases ch with rfl | rfl | ⟨hn, hb⟩
  · exact h.newline
  · exact h.backspace
  · rw [putChar_printed hn hb]
    exact h.step

/-- Any run of `PutChar` keeps the cursor on the screen. -/
theorem putChars (h : cons.Valid) (font : Font) (chars : List (BitVec 8)) :
    (cons.putChars font chars).2.Valid := by
  induction chars generalizing cons with
  | nil => exact h
  | cons ch chars ih => exact ih (h.putChar font ch)

/-- `PutChar` moves the cursor as on a text screen. -/
theorem cell_putChar (h : cons.Valid) (font : Font) (ch : BitVec 8) :
    (cons.putChar font ch).2.cell =
      moved cons.size.width.toNat cons.size.height.toNat ch cons.cell := by
  rcases char_cases ch with rfl | rfl | ⟨hn, hb⟩
  · exact h.cell_newline
  · exact h.cell_backspace
  · rw [putChar_printed hn hb, moved, if_neg hn, if_neg hb]
    exact h.cell_step

end Valid

@[simp] theorem putChar_size : (cons.putChar font ch).2.size = cons.size := by
  rcases char_cases ch with rfl | rfl | ⟨hn, hb⟩
  · rfl
  · exact backspace_size
  · rw [putChar_printed hn hb]
    exact step_size

@[simp] theorem putChars_size : (cons.putChars font chars).2.size = cons.size := by
  induction chars generalizing cons with
  | nil => rfl
  | cons ch chars ih => exact ih.trans putChar_size

end DebugConsole

end Bitnos
