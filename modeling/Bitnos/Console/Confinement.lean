/-
# Where the console draws

Each call of `PutChar` draws in the cell of the old cursor position and in the cell
of the new one. A console no larger than the screen therefore draws visible pixels
only, and its writers store inside the frame buffer.
-/

import Bitnos.Console.Debug
import Bitnos.Graphics.Framebuffer

namespace Bitnos

open Graphics

namespace DebugConsole

/-- The cell a pixel belongs to. -/
def cellOf (p : Point) : TextCursor.Cell := ⟨p.x.toNat / 8, p.y.toNat / 16⟩

/-- The console has at least one cell and is no larger than the screen. -/
structure Fits (size : RectSize) (mode : GraphicMode) : Prop where
  width_pos : 0 < size.width.toNat
  height_pos : 0 < size.height.toNat
  width_le : 8 * size.width.toNat ≤ mode.horizontalResolution.toNat
  height_le : 16 * size.height.toNat ≤ mode.verticalResolution.toNat

/-- The size `MyMain` gives the console. -/
def screenSize (mode : GraphicMode) : RectSize :=
  ⟨mode.horizontalResolution / 8, mode.verticalResolution / 16⟩

variable {font : Font} {cons : DebugConsole} {size : RectSize} {mode : GraphicMode} {p : Point}
  {ch : BitVec 8} {chars : List (BitVec 8)} {pw : PixelWrite}

theorem Fits.screenSize (hwidth : 8 ≤ mode.horizontalResolution)
    (hheight : 16 ≤ mode.verticalResolution) : Fits (screenSize mode) mode := by
  have hx : (mode.horizontalResolution / 8).toNat = mode.horizontalResolution.toNat / 8 :=
    BitVec.toNat_udiv
  have hy : (mode.verticalResolution / 16).toNat = mode.verticalResolution.toNat / 16 :=
    BitVec.toNat_udiv
  rw [BitVec.le_def] at hwidth hheight
  change 8 ≤ _ at hwidth
  change 16 ≤ _ at hheight
  constructor <;> simp only [DebugConsole.screenSize, hx, hy] <;> omega

/-! ### Cells and their pixels -/

/-- Where a stretch of `k` coordinates begins. -/
theorem toNat_scale {k : ℕ} {scale c : BitVec 32} (hscale : scale.toNat = k) (hk : 0 < k)
    (hroom : k * (c.toNat + 1) ≤ 2 ^ 32) : (scale * c).toNat = k * c.toNat := by
  rw [Nat.mul_succ] at hroom
  rw [BitVec.toNat_mul, hscale, Nat.mod_eq_of_lt (by omega)]

/-- Offsets from a multiple of `k` tell in which stretch of `k` coordinates one is. -/
theorem offset_lt_iff {k : ℕ} {scale c x : BitVec 32} (hscale : scale.toNat = k) (hk : 0 < k)
    (hroom : k * (c.toNat + 1) ≤ 2 ^ 32) : (x - scale * c).toNat < k ↔ x.toNat / k = c.toNat := by
  have hx := x.isLt
  rw [BitVec.toNat_sub, toNat_scale hscale hk hroom, Nat.div_eq_iff hk, Nat.mul_comm c.toNat]
  rw [Nat.mul_succ] at hroom
  omega

theorem offset_eq_mod {k : ℕ} {scale c x : BitVec 32} (hscale : scale.toNat = k) (hk : 0 < k)
    (hroom : k * (c.toNat + 1) ≤ 2 ^ 32) (hdiv : x.toNat / k = c.toNat) :
    (x - scale * c).toNat = x.toNat % k := by
  have hx := x.isLt
  have hsplit := Nat.div_add_mod x.toNat k
  rw [hdiv] at hsplit
  rw [BitVec.toNat_sub, toNat_scale hscale hk hroom]
  omega

/-- The cell at the cursor lies on the 32-bit plane of pixels. -/
structure OnPlane (cons : DebugConsole) : Prop where
  x_le : 8 * (cons.cur.x.toNat + 1) ≤ 2 ^ 32
  y_le : 16 * (cons.cur.y.toNat + 1) ≤ 2 ^ 32

theorem OnPlane.inside_iff (h : cons.OnPlane) :
    Inside (toPixel cons.cur) cellSize p ↔ cellOf p = cons.cell := by
  have hx : (p.x - 8 * cons.cur.x).toNat < 8 ↔ p.x.toNat / 8 = cons.cur.x.toNat :=
    offset_lt_iff rfl (by omega) h.x_le
  have hy : (p.y - 16 * cons.cur.y).toNat < 16 ↔ p.y.toNat / 16 = cons.cur.y.toNat :=
    offset_lt_iff rfl (by omega) h.y_le
  rw [TextCursor.Cell.ext_iff]
  exact and_congr hx hy

theorem OnPlane.offset_x (h : cons.OnPlane) (hp : cellOf p = cons.cell) :
    (p.x - (toPixel cons.cur).x).toNat = p.x.toNat % 8 :=
  offset_eq_mod rfl (by omega) h.x_le (congrArg TextCursor.Cell.col hp)

theorem OnPlane.offset_y (h : cons.OnPlane) (hp : cellOf p = cons.cell) :
    (p.y - (toPixel cons.cur).y).toNat = p.y.toNat % 16 :=
  offset_eq_mod rfl (by omega) h.y_le (congrArg TextCursor.Cell.row hp)

/-- A console that fits the screen, with its cursor on it. -/
theorem Fits.onPlane (hfits : Fits cons.size mode) (h : cons.Valid) : cons.OnPlane where
  x_le := by
    have hcol : cons.cur.x.toNat < cons.size.width.toNat := h.onScreen.col_lt
    have hwidth := hfits.width_le
    have hres := mode.horizontalResolution.isLt
    omega
  y_le := by
    have hrow : cons.cur.y.toNat < cons.size.height.toNat := h.onScreen.row_lt
    have hheight := hfits.height_le
    have hres := mode.verticalResolution.isLt
    omega

theorem Fits.construct_valid (hfits : Fits size mode) : (construct size).Valid where
  width_le := by
    have hwidth := hfits.width_le
    have hres := mode.horizontalResolution.isLt
    simp only [construct]
    omega
  height_le := by
    have hheight := hfits.height_le
    have hres := mode.verticalResolution.isLt
    simp only [construct]
    omega
  onScreen := ⟨hfits.width_pos, hfits.height_pos⟩

/-- The pixels of the cells of the console are visible. -/
theorem Fits.onScreen_of_cell (hfits : Fits size mode)
    (hp : TextCursor.OnScreen size.width.toNat size.height.toNat (cellOf p)) : mode.OnScreen p := by
  have hcol : p.x.toNat / 8 < size.width.toNat := hp.col_lt
  have hrow : p.y.toNat / 16 < size.height.toNat := hp.row_lt
  have hwidth := hfits.width_le
  have hheight := hfits.height_le
  rw [GraphicMode.OnScreen, BitVec.lt_def, BitVec.lt_def]
  omega

theorem Fits.visible (hfits : Fits cons.size mode) (h : cons.Valid) (hp : cellOf p = cons.cell) :
    mode.OnScreen p :=
  hfits.onScreen_of_cell (hp ▸ h.onScreen)

/-- The cell of the next cursor position lies on the plane as well. -/
theorem Fits.putChar_onPlane (hfits : Fits cons.size mode) (h : cons.Valid) :
    (cons.putChar font ch).2.OnPlane :=
  Fits.onPlane (putChar_size.symm ▸ hfits) (h.putChar font ch)

/-! ### The pixels `PutChar` touches -/

theorem eraseCursor_inside (hpw : pw ∈ cons.eraseCursor) :
    Inside (toPixel cons.cur) cellSize pw.position :=
  (mem_drawRect.mp hpw).2

theorem drawCursor_inside (hpw : pw ∈ cons.drawCursor font) :
    Inside (toPixel cons.cur) cellSize pw.position := by
  rcases List.mem_append.mp hpw with hrect | hglyph
  · exact (mem_drawRect.mp hrect).2
  · exact (mem_drawAscii.mp hglyph).2.1

/-- `PutChar` writes pixels of the cells of the old and of the new cursor only. -/
theorem putChar_inside (hpw : pw ∈ (cons.putChar font ch).1) :
    Inside (toPixel cons.cur) cellSize pw.position ∨
      Inside (toPixel (cons.putChar font ch).2.cur) cellSize pw.position := by
  rcases char_cases ch with rfl | rfl | ⟨hn, hb⟩
  · exact .inl (eraseCursor_inside hpw)
  · rcases List.mem_append.mp hpw with herase | hcursor
    · exact .inl (eraseCursor_inside herase)
    · exact .inr (drawCursor_inside hcursor)
  · rw [putChar_printed hn hb] at hpw ⊢
    rcases List.mem_append.mp hpw with hold | hcursor
    · rcases List.mem_append.mp hold with herase | hglyph
      · exact .inl (eraseCursor_inside herase)
      · exact .inl (mem_drawAscii.mp hglyph).2.1
    · exact .inr (drawCursor_inside hcursor)

/-- One call of `PutChar` writes visible pixels only. -/
theorem Fits.putChar_onScreen (hfits : Fits cons.size mode) (h : cons.Valid)
    (hpw : pw ∈ (cons.putChar font ch).1) : mode.OnScreen pw.position := by
  rcases putChar_inside hpw with hold | hnew
  · exact hfits.visible h ((hfits.onPlane h).inside_iff.mp hold)
  · have hnext : Fits (cons.putChar font ch).2.size mode := by rwa [putChar_size]
    exact hnext.visible (h.putChar font ch) ((hfits.putChar_onPlane h).inside_iff.mp hnew)

/-- Any run of `PutChar` writes visible pixels only. -/
theorem Fits.putChars_onScreen (hfits : Fits cons.size mode) (h : cons.Valid)
    (hpw : pw ∈ (cons.putChars font chars).1) : mode.OnScreen pw.position := by
  induction chars generalizing cons with
  | nil => exact absurd hpw List.not_mem_nil
  | cons ch chars ih =>
    rcases List.mem_append.mp hpw with hfirst | hrest
    · exact hfits.putChar_onScreen h hfirst
    · exact ih (by rwa [putChar_size]) (h.putChar font ch) hrest

end DebugConsole

open DebugConsole

/-- **The kernel draws inside the frame buffer.** On a usable screen of at least one
cell, the cursor of the console `MyMain` sets up stays on the screen whatever is printed,
and whatever `MyMain` and the console draw through either writer is stored inside the frame
buffer, at offsets that are computed without wrapping around. -/
theorem framebuffer_confined {mode : GraphicMode} (hwidth : 8 ≤ mode.horizontalResolution)
    (hheight : 16 ≤ mode.verticalResolution) (hmode : mode.Usable) (font : Font)
    (chars : List (BitVec 8)) :
    let size := screenSize mode
    let run := (construct size).putChars font chars
    (0 ≤ run.2.cur.x.toInt ∧ run.2.cur.x.toInt < size.width.toNat) ∧
      (0 ≤ run.2.cur.y.toInt ∧ run.2.cur.y.toInt < size.height.toNat) ∧
      ∀ order, ∀ pw ∈ clearScreen mode ++ run.1,
        ((PixelWriter.ofMode order mode).pixelOffset pw.position).toNat =
            4 * (mode.pixelsPerScanLine.toNat * pw.position.y.toNat + pw.position.x.toNat) ∧
          ∀ st ∈ (PixelWriter.ofMode order mode).write pw.position pw.color,
            (st.1 - mode.frameBufferBase).toNat < mode.frameBufferSize.toNat := by
  intro size run
  have hfits := Fits.screenSize hwidth hheight
  have hvalid : run.2.Valid := hfits.construct_valid.putChars font chars
  have hsize : run.2.size = size := putChars_size
  have hint : ∀ {x : BitVec 32}, x.toNat < 2 ^ 31 → x.toInt = x.toNat :=
    fun hx => BitVec.toInt_eq_toNat_of_lt (by omega)
  refine ⟨?_, ?_, ?_⟩
  · have hcol := hvalid.onScreen.col_lt
    rw [hsize] at hcol
    rw [hint hvalid.x_lt]
    exact ⟨Int.natCast_nonneg _, Int.ofNat_lt.mpr hcol⟩
  · have hrow := hvalid.onScreen.row_lt
    rw [hsize] at hrow
    rw [hint hvalid.y_lt]
    exact ⟨Int.natCast_nonneg _, Int.ofNat_lt.mpr hrow⟩
  · intro order pw hpw
    have hon : mode.OnScreen pw.position := by
      rcases List.mem_append.mp hpw with hclear | hconsole
      · exact (mem_clearScreen.mp hclear).2
      · exact hfits.putChars_onScreen hfits.construct_valid hconsole
    exact ⟨hmode.toNat_pixelOffset hon order, fun st hst => hmode.write_confined hon order hst⟩

theorem framebuffer_confined_one_cell :
    let mode : GraphicMode := ⟨0x80000000, 512, 8, 16, .redGreenBlueReserved8BitPerColor, 8⟩
    let run := (construct (screenSize mode)).putChars (fun _ => 0xff) [0x41, Ascii.newline]
    run.2.cur.x.toInt < (screenSize mode).width.toNat ∧
      ∀ pw ∈ clearScreen mode ++ run.1,
        ∀ st ∈ (PixelWriter.ofMode .redGreenBlue mode).write pw.position pw.color,
          (st.1 - 0x80000000).toNat < 512 :=
  have h := @framebuffer_confined ⟨0x80000000, 512, 8, 16, .redGreenBlueReserved8BitPerColor, 8⟩
    (by decide) (by decide) ⟨by decide, by decide⟩ (fun _ => 0xff) [0x41, Ascii.newline]
  ⟨h.1.2, fun pw hpw => (h.2.2 .redGreenBlue pw hpw).2⟩

end Bitnos
