/-
# The screen as a grid of characters

Seen from outside, the console is a grid of cells, each blank or showing one
character, and a cursor. The pixels the console draws refine that grid: a glyph is
only ever drawn into a cell that has just been erased.
-/

import Bitnos.Console.Confinement

namespace Bitnos

open Graphics

/-- What a text screen shows in each cell, and where its cursor is. -/
structure TextScreen where
  grid : TextCursor.Cell → Option (BitVec 8)
  cursor : TextCursor.Cell

namespace TextScreen

/-- The cleared screen with the cursor in the first cell. -/
def blank : TextScreen := ⟨fun _ => none, ⟨0, 0⟩⟩

/-- Blank a cell. -/
def erase (grid : TextCursor.Cell → Option (BitVec 8)) (c : TextCursor.Cell) :
    TextCursor.Cell → Option (BitVec 8) :=
  Function.update grid c none

/-- Show a character in a cell. -/
def put (grid : TextCursor.Cell → Option (BitVec 8)) (c : TextCursor.Cell) (ch : BitVec 8) :
    TextCursor.Cell → Option (BitVec 8) :=
  Function.update grid c (some ch)

/-- What a character does to the screen: it takes the place of the cursor, which
appears in its new cell; a newline only takes the cursor away. -/
def type (width height : ℕ) (s : TextScreen) (ch : BitVec 8) : TextScreen :=
  let next := DebugConsole.moved width height ch s.cursor
  if ch = Ascii.newline then ⟨erase s.grid s.cursor, next⟩
  else if ch = Ascii.backspace then ⟨put (erase s.grid s.cursor) next Ascii.underscore, next⟩
  else ⟨put (put s.grid s.cursor ch) next Ascii.underscore, next⟩

/-- What a sequence of characters does to the screen. -/
def typed (width height : ℕ) (s : TextScreen) (chars : List (BitVec 8)) : TextScreen :=
  chars.foldl (type width height) s

@[simp] theorem type_cursor (width height : ℕ) (s : TextScreen) (ch : BitVec 8) :
    (s.type width height ch).cursor = DebugConsole.moved width height ch s.cursor := by
  unfold type
  split_ifs <;> rfl

theorem type_printed {width height : ℕ} {s : TextScreen} {ch : BitVec 8} (hn : ch ≠ Ascii.newline)
    (hb : ch ≠ Ascii.backspace) : (s.type width height ch).grid =
      put (put s.grid s.cursor ch) (DebugConsole.moved width height ch s.cursor) Ascii.underscore := by
  rw [type, if_neg hn, if_neg hb]

/-- After anything but a newline the cursor is shown. -/
theorem type_grid_cursor {width height : ℕ} {s : TextScreen} {ch : BitVec 8}
    (hn : ch ≠ Ascii.newline) :
    (s.type width height ch).grid (s.type width height ch).cursor = some Ascii.underscore := by
  rw [type, if_neg hn]
  split_ifs <;> exact Function.update_self ..

end TextScreen

namespace DebugConsole

/-- The pixel at an offset of a cell that shows a character or nothing. -/
def shade (font : Font) : Option (BitVec 8) → ℕ → ℕ → Color
  | none, _, _ => white
  | some ch, dx, dy => if font.dark ch dx dy then black else white

/-- The fourth byte of a pixel is nothing to see. -/
theorem visible_shade (font : Font) (shown : Option (BitVec 8)) (dx dy : ℕ) :
    (shade font shown dx dy).visible = shade font shown dx dy := by
  cases shown with
  | none => rfl
  | some ch =>
    rw [shade]
    split_ifs <;> rfl

/-- The image of a grid over the cells of another image. -/
def Shows (font : Font) (size : RectSize) (image : Image)
    (grid : TextCursor.Cell → Option (BitVec 8)) : Prop :=
  ∀ p, TextCursor.OnScreen size.width.toNat size.height.toNat (cellOf p) →
    image p = shade font (grid (cellOf p)) (p.x.toNat % 8) (p.y.toNat % 16)

variable {font : Font} {cons : DebugConsole} {size : RectSize} {mode : GraphicMode} {p : Point}
  {ch : BitVec 8} {chars : List (BitVec 8)} {image : Image} {writes : List PixelWrite}
  {grid : TextCursor.Cell → Option (BitVec 8)}

/-- A seven bit character is shown as the font has it at its code. -/
theorem Shows.glyph (hshows : Shows font size image grid)
    (hp : TextCursor.OnScreen size.width.toNat size.height.toNat (cellOf p))
    (hch : grid (cellOf p) = some ch) (hlt : ch.toNat < 0x80) :
    image p = if (font (BitVec.ofNat 64 (16 * ch.toNat + p.y.toNat % 16))).getMsbD (p.x.toNat % 8)
      then black else white := by
  rw [hshows p hp, hch, shade, font.dark_of_lt hlt]

/-! ### Painting a cell -/

theorem OnPlane.paint_erase (h : cons.OnPlane) : paint image cons.eraseCursor p =
    if cellOf p = cons.cell then white else image p := by
  rw [eraseCursor, paint_of_color fun pw hpw => (mem_drawRect.mp hpw).1]
  simp only [mem_drawRect, true_and, h.inside_iff]

theorem OnPlane.paint_glyph (h : cons.OnPlane) :
    paint image (drawAscii font (toPixel cons.cur) ch) p =
      if cellOf p = cons.cell ∧ font.dark ch (p.x.toNat % 8) (p.y.toNat % 16) then black
      else image p := by
  rw [paint_of_color fun pw hpw => (mem_drawAscii.mp hpw).1]
  have hmem : (⟨p, black⟩ : PixelWrite) ∈ drawAscii font (toPixel cons.cur) ch ↔
      cellOf p = cons.cell ∧ font.dark ch (p.x.toNat % 8) (p.y.toNat % 16) := by
    rw [mem_drawAscii, and_iff_right rfl]
    change Inside _ cellSize _ ∧ _ ↔ _
    rw [h.inside_iff]
    refine and_congr_right fun hp => ?_
    rw [h.offset_x hp, h.offset_y hp]
  simp only [hmem]

/-- Erasing a cell and drawing a glyph into it leaves the glyph alone in the cell. -/
theorem OnPlane.paint_erase_glyph (h : cons.OnPlane) :
    paint image (cons.eraseCursor ++ drawAscii font (toPixel cons.cur) ch) p =
      if cellOf p = cons.cell then shade font (some ch) (p.x.toNat % 8) (p.y.toNat % 16)
      else image p := by
  rw [paint_append, h.paint_glyph, h.paint_erase]
  by_cases hp : cellOf p = cons.cell <;> simp only [hp, true_and, false_and, if_true, if_false, shade]

theorem Shows.erase (hshows : Shows font size image grid) (h : cons.OnPlane) :
    Shows font size (paint image cons.eraseCursor) (TextScreen.erase grid cons.cell) := by
  intro p hp
  rw [h.paint_erase, TextScreen.erase, Function.update_apply]
  split_ifs
  · rfl
  · exact hshows p hp

theorem Shows.put (hshows : Shows font size image grid) (h : cons.OnPlane) (ch : BitVec 8) :
    Shows font size (paint image (cons.eraseCursor ++ drawAscii font (toPixel cons.cur) ch))
      (TextScreen.put grid cons.cell ch) := by
  intro p hp
  rw [h.paint_erase_glyph, TextScreen.put, Function.update_apply]
  split_ifs
  · rfl
  · exact hshows p hp

/-! ### One character -/

/-- The image after the cursor is drawn in its new cell. -/
theorem Shows.drawCursor (hshows : Shows font size image grid) (h : cons.OnPlane) :
    Shows font size (paint image (cons.drawCursor font))
      (TextScreen.put grid cons.cell Ascii.underscore) :=
  hshows.put h Ascii.underscore

/-- One call of `PutChar` does to the pixels what the character does to the grid. -/
theorem Shows.putChar (hfits : Fits cons.size mode) (h : cons.Valid) {s : TextScreen}
    (hcursor : s.cursor = cons.cell) (hshows : Shows font cons.size image s.grid) (ch : BitVec 8) :
    Shows font cons.size (paint image (cons.putChar font ch).1)
      (s.type cons.size.width.toNat cons.size.height.toNat ch).grid := by
  have hplane := hfits.onPlane h
  have hmoved := h.cell_putChar font ch
  have hnext : (cons.putChar font ch).2.OnPlane := hfits.putChar_onPlane h
  rw [← hcursor] at hmoved
  rcases char_cases ch with rfl | rfl | ⟨hn, hb⟩
  · change Shows font _ _ (TextScreen.erase s.grid s.cursor)
    rw [hcursor]
    exact hshows.erase hplane
  · change Shows font _ _ (TextScreen.put (TextScreen.erase s.grid s.cursor) (moved _ _ _ s.cursor) _)
    rw [putChar_backspace, paint_append, ← hmoved, hcursor]
    exact (hshows.erase hplane).drawCursor hnext
  · rw [TextScreen.type_printed hn hb, ← hmoved, hcursor]
    rw [putChar_printed hn hb] at hnext ⊢
    rw [paint_append]
    exact (hshows.put hplane ch).drawCursor hnext

/-- Any run of `PutChar` draws what typing does to the grid. -/
theorem Shows.putChars (hsize : cons.size = size) (hfits : Fits size mode) (h : cons.Valid)
    {s : TextScreen} (hcursor : s.cursor = cons.cell) (hshows : Shows font size image s.grid)
    (chars : List (BitVec 8)) :
    (s.typed size.width.toNat size.height.toNat chars).cursor = (cons.putChars font chars).2.cell ∧
      Shows font size (paint image (cons.putChars font chars).1)
        (s.typed size.width.toNat size.height.toNat chars).grid := by
  induction chars generalizing cons s image with
  | nil => exact ⟨hcursor, hshows⟩
  | cons ch chars ih =>
    subst hsize
    have hmoved : (s.type cons.size.width.toNat cons.size.height.toNat ch).cursor =
        (cons.putChar font ch).2.cell := by
      rw [TextScreen.type_cursor, h.cell_putChar, hcursor]
    rw [DebugConsole.putChars, paint_append]
    exact ih putChar_size (h.putChar font ch) hmoved (hshows.putChar hfits h hcursor ch)

/-- `PutChar` changes no pixel outside the cells of the old and of the new cursor. -/
theorem Fits.putChar_frame (hfits : Fits cons.size mode) (h : cons.Valid)
    (hold : cellOf p ≠ cons.cell) (hnew : cellOf p ≠ (cons.putChar font ch).2.cell) :
    paint image (cons.putChar font ch).1 p = image p := by
  have hplane := hfits.onPlane h
  have hnext : (cons.putChar font ch).2.OnPlane := hfits.putChar_onPlane h
  apply paint_of_forall_ne
  rintro pw hpw rfl
  rcases putChar_inside hpw with hinside | hinside
  · exact hold (hplane.inside_iff.mp hinside)
  · exact hnew (hnext.inside_iff.mp hinside)

/-- Pixels outside the text area never change. -/
theorem Fits.putChars_frame (hsize : cons.size = size) (hfits : Fits size mode) (h : cons.Valid)
    (hout : ¬ TextCursor.OnScreen size.width.toNat size.height.toNat (cellOf p))
    (chars : List (BitVec 8)) : paint image (cons.putChars font chars).1 p = image p := by
  induction chars generalizing cons image with
  | nil => rfl
  | cons ch chars ih =>
    have hnext := h.putChar font ch
    have hnextSize : (cons.putChar font ch).2.size = size := putChar_size.trans hsize
    rw [DebugConsole.putChars, paint_append, ih hnextSize hnext]
    subst hsize
    refine hfits.putChar_frame h ?_ ?_
    · exact fun hp => hout (hp ▸ h.onScreen)
    · exact fun hp => hout (hp ▸ hnextSize ▸ hnext.onScreen)

/-- The cleared screen is a blank grid. -/
theorem Fits.shows_clear (hfits : Fits size mode) (font : Font) (image : Image) :
    Shows font size (paint image (clearScreen mode)) TextScreen.blank.grid := by
  intro p hp
  exact (hfits.onScreen_of_cell hp).paint_clear image

/-- After anything but a newline the cell at the cursor shows the cursor. -/
theorem Shows.underscore (hfits : Fits cons.size mode) (h : cons.Valid) {s : TextScreen}
    (hcursor : s.cursor = cons.cell) (hshows : Shows font cons.size image s.grid)
    (hn : ch ≠ Ascii.newline) (hp : cellOf p = (cons.putChar font ch).2.cell) :
    paint image (cons.putChar font ch).1 p =
      shade font (some Ascii.underscore) (p.x.toNat % 8) (p.y.toNat % 16) := by
  have hnext := (h.putChar font ch).onScreen
  rw [putChar_size, ← hp] at hnext
  have hmoved : (s.type cons.size.width.toNat cons.size.height.toNat ch).cursor = cellOf p := by
    rw [TextScreen.type_cursor, hp, h.cell_putChar, hcursor]
  rw [hshows.putChar hfits h hcursor ch p hnext, ← hmoved, TextScreen.type_grid_cursor hn]

end DebugConsole

open DebugConsole

/-- **The pixels refine a grid of characters.** From the cleared screen on, every cell of
a console that fits the screen is blank or shows exactly the glyph last drawn there, as
the grid has it; for a seven bit character these are its sixteen bytes of the font. The
next character changes pixels of the cells of the old and of the new cursor only, and
unless it is a newline the cursor is shown afterwards. Pixels outside the text area stay as
they were cleared. On a usable screen all this is what the frame buffer shows, through
either writer. -/
theorem console_refines_grid {mode : GraphicMode} {size : RectSize} (hfits : Fits size mode)
    (font : Font) (image₀ : Image) (chars : List (BitVec 8)) (ch : BitVec 8) :
    let run := (construct size).putChars font chars
    let image := paint image₀ (clearScreen mode ++ run.1)
    let screen := TextScreen.blank.typed size.width.toNat size.height.toNat chars
    let next := run.2.putChar font ch
    screen.cursor = run.2.cell ∧
      Shows font size image screen.grid ∧
      (∀ p, TextCursor.OnScreen size.width.toNat size.height.toNat (cellOf p) →
        ∀ shown : BitVec 8, screen.grid (cellOf p) = some shown → shown.toNat < 0x80 →
          image p = if (font (BitVec.ofNat 64 (16 * shown.toNat + p.y.toNat % 16))).getMsbD
            (p.x.toNat % 8) then black else white) ∧
      (∀ p, cellOf p ≠ run.2.cell → cellOf p ≠ next.2.cell → paint image next.1 p = image p) ∧
      (ch ≠ Ascii.newline → ∀ p, cellOf p = next.2.cell →
        paint image next.1 p =
          shade font (some Ascii.underscore) (p.x.toNat % 8) (p.y.toNat % 16)) ∧
      (∀ p, ¬ TextCursor.OnScreen size.width.toNat size.height.toNat (cellOf p) →
        image p = paint image₀ (clearScreen mode) p) ∧
      (mode.Usable → ∀ order mem p, mode.OnScreen p →
        (PixelWriter.ofMode order mode).pixel
            ((PixelWriter.ofMode order mode).draw mem (clearScreen mode ++ run.1)) p =
          (image p).visible) := by
  intro run image screen next
  have hstart : (construct size).Valid := hfits.construct_valid
  have hrun : run.2.Valid := hstart.putChars font chars
  have hrunFits : Fits run.2.size mode := putChars_size.symm ▸ hfits
  have hshown := Shows.putChars rfl hfits hstart (s := TextScreen.blank) rfl
    (hfits.shows_clear font image₀) chars
  have himage : image = paint (paint image₀ (clearScreen mode)) run.1 := paint_append ..
  rw [← himage] at hshown
  refine ⟨hshown.1, hshown.2, ?_, ?_, ?_, ?_, ?_⟩
  · intro p hp shown hch hlt
    exact Shows.glyph hshown.2 hp hch hlt
  · intro p hold hnew
    exact hrunFits.putChar_frame hrun hold hnew
  · intro hn p hp
    exact Shows.underscore hrunFits hrun hshown.1 (putChars_size.symm ▸ hshown.2) hn hp
  · intro p hout
    rw [himage]
    exact hfits.putChars_frame rfl hstart hout chars
  · intro hmode order mem p hp
    exact hmode.pixel_draw_clear order mem image₀
      (fun pw hpw => hfits.putChars_onScreen hstart hpw) hp

theorem console_refines_grid_one_cell :
    let size : RectSize := ⟨1, 1⟩
    let mode : GraphicMode := ⟨0x80000000, 512, 8, 16, .blueGreenRedReserved8BitPerColor, 8⟩
    let run := (construct size).putChars (fun _ => 0xff) [0x41]
    Shows (fun _ => 0xff) size (paint (fun _ => black) (clearScreen mode ++ run.1))
      (TextScreen.blank.typed 1 1 [0x41]).grid :=
  have hfits : Fits ⟨1, 1⟩ ⟨0x80000000, 512, 8, 16, .blueGreenRedReserved8BitPerColor, 8⟩ :=
    ⟨by decide, by decide, by decide, by decide⟩
  (console_refines_grid hfits (fun _ => 0xff) (fun _ => black) [0x41] Ascii.backspace).2.1

end Bitnos
