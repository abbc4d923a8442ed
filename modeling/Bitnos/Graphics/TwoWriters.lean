/-
# Two byte orders, one image

The two pixel writers store the bytes of a colour in opposite orders. Each is to be
read in its own order, and then no difference is left: a pixel has the colour of the
last call that names it, or keeps the colour it had.

The geometry counts the pixels at the end of a line that are not visible as well, as
`CalcPixelAddr` does. Such a frame buffer is a usable mode whose lines have no end
that is not visible.
-/

import Bitnos.Math.LastWriter
import Bitnos.Graphics.Framebuffer

namespace Bitnos.Graphics

/-- The lines of a frame buffer whose size in bytes is a `uint32_t`. -/
structure Geometry where
  pixelsPerScanLine : BitVec 32
  height : BitVec 32
  fits : 4 * pixelsPerScanLine.toNat * height.toNat < 2 ^ 32

/-- The colour the last call that names the pixel gives it. -/
def lastColor (writes : List PixelWrite) (p : Point) : Option Color :=
  (LastWriter.last PixelWrite.position writes p).map PixelWrite.color

/-- The address of the byte of the pixel that no colour is stored to. -/
def PixelWriter.reservedAddr (w : PixelWriter) (p : Point) : BitVec 64 :=
  w.calcPixelAddr p + BitVec.ofNat 64 3

namespace Geometry

/-- The position is one of a pixel. -/
def Contains (g : Geometry) (p : Point) : Prop :=
  p.x < g.pixelsPerScanLine ∧ p.y < g.height

/-- The mode of a frame buffer at the given address that shows every pixel. -/
def mode (g : Geometry) (base : BitVec 64) (format : PixelFormat) : GraphicMode where
  frameBufferBase := base
  frameBufferSize := 4 * g.pixelsPerScanLine * g.height
  horizontalResolution := g.pixelsPerScanLine
  verticalResolution := g.height
  pixelFormat := format
  pixelsPerScanLine := g.pixelsPerScanLine

/-- The writer that stores red first. -/
def redGreenBlue (g : Geometry) (base : BitVec 64) : PixelWriter :=
  .ofMode .redGreenBlue (g.mode base .redGreenBlueReserved8BitPerColor)

/-- The writer that stores blue first. -/
def blueGreenRed (g : Geometry) (base : BitVec 64) : PixelWriter :=
  .ofMode .blueGreenRed (g.mode base .blueGreenRedReserved8BitPerColor)

theorem usable (g : Geometry) (base : BitVec 64) (format : PixelFormat) :
    (g.mode base format).Usable where
  line_le := le_rfl
  fits := by
    have hsize : (4 * g.pixelsPerScanLine * g.height).toNat =
        4 * g.pixelsPerScanLine.toNat * g.height.toNat := by
      have hfour : (4 : BitVec 32).toNat = 4 := rfl
      rw [BitVec.toNat_mul, BitVec.toNat_mul, hfour, Nat.mod_mul_mod]
      exact Nat.mod_eq_of_lt g.fits
    exact hsize.ge

end Geometry

theorem paint_eq_lastColor (image : Image) (writes : List PixelWrite) (p : Point) :
    paint image writes p = (lastColor writes p).getD (image p) :=
  LastWriter.foldl_update PixelWrite.color image writes p

/-! ### What each writer draws -/

section

variable {mode : GraphicMode} {p q : Point} {writes : List PixelWrite}

/-- `Write` keeps the reserved byte of every pixel, that of its own included. -/
theorem GraphicMode.Usable.reserved_write (hmode : mode.Usable) (hp : mode.OnScreen p)
    (hq : mode.OnScreen q) (order : ByteOrder) (mem : Memory) (color : Color) :
    mem.store ((PixelWriter.ofMode order mode).write p color)
        ((PixelWriter.ofMode order mode).reservedAddr q) =
      mem ((PixelWriter.ofMode order mode).reservedAddr q) := by
  apply Memory.store_of_notMem
  intro st hst
  obtain ⟨i, hi, haddr⟩ := PixelWriter.mem_write hst
  rw [haddr]
  exact hmode.byte_ne hp hq order (by omega) (by omega) (.inr (by omega))

theorem GraphicMode.Usable.reserved_draw (hmode : mode.Usable) (order : ByteOrder) (mem : Memory)
    (hwrites : ∀ pw ∈ writes, mode.OnScreen pw.position) (hq : mode.OnScreen q) :
    (PixelWriter.ofMode order mode).draw mem writes
        ((PixelWriter.ofMode order mode).reservedAddr q) =
      mem ((PixelWriter.ofMode order mode).reservedAddr q) := by
  induction writes generalizing mem with
  | nil => rfl
  | cons pw writes ih =>
    have hpos := hwrites pw List.mem_cons_self
    have hrest := fun pw' hpw' => hwrites pw' (List.mem_cons_of_mem pw hpw')
    exact (ih _ hrest).trans (hmode.reserved_write hpos hq order mem pw.color)

/-- A writer shows the last colour, whatever its byte order. -/
theorem GraphicMode.Usable.pixel_draw_eq_lastColor (hmode : mode.Usable) (order : ByteOrder)
    (mem : Memory) (hwrites : ∀ pw ∈ writes, mode.OnScreen pw.position) (hq : mode.OnScreen q) :
    (PixelWriter.ofMode order mode).pixel ((PixelWriter.ofMode order mode).draw mem writes) q =
      ((lastColor writes q).map Color.visible).getD
        ((PixelWriter.ofMode order mode).pixel mem q) := by
  have hstart : ∀ r, mode.OnScreen r → (PixelWriter.ofMode order mode).pixel mem r =
      ((PixelWriter.ofMode order mode).pixel mem r).visible :=
    fun r _ => (PixelWriter.pixel_visible _ mem r).symm
  rw [hmode.pixel_draw order hwrites hstart hq, paint_eq_lastColor]
  cases lastColor writes q with
  | none => exact PixelWriter.pixel_visible _ mem q
  | some color => rfl

end

/-- **The two writers draw the same image.** Where the frame buffers showed the same
colour they show the same colour again, the last one written there if there is one. No
reserved byte changes. -/
theorem Geometry.writers_draw_alike (g : Geometry) {redBase blueBase : BitVec 64}
    {redMem blueMem : Memory} {writes : List PixelWrite}
    (hwrites : ∀ pw ∈ writes, g.Contains pw.position) {q : Point} (hq : g.Contains q)
    (hstart : (g.redGreenBlue redBase).pixel redMem q =
      (g.blueGreenRed blueBase).pixel blueMem q) :
    (g.redGreenBlue redBase).pixel ((g.redGreenBlue redBase).draw redMem writes) q =
        ((lastColor writes q).map Color.visible).getD
          ((g.redGreenBlue redBase).pixel redMem q) ∧
      (g.blueGreenRed blueBase).pixel ((g.blueGreenRed blueBase).draw blueMem writes) q =
        (g.redGreenBlue redBase).pixel ((g.redGreenBlue redBase).draw redMem writes) q ∧
      (g.redGreenBlue redBase).draw redMem writes ((g.redGreenBlue redBase).reservedAddr q) =
        redMem ((g.redGreenBlue redBase).reservedAddr q) ∧
      (g.blueGreenRed blueBase).draw blueMem writes ((g.blueGreenRed blueBase).reservedAddr q) =
        blueMem ((g.blueGreenRed blueBase).reservedAddr q) := by
  have hred := g.usable redBase .redGreenBlueReserved8BitPerColor
  have hblue := g.usable blueBase .blueGreenRedReserved8BitPerColor
  have hredPixel := hred.pixel_draw_eq_lastColor .redGreenBlue redMem hwrites hq
  have hbluePixel := hblue.pixel_draw_eq_lastColor .blueGreenRed blueMem hwrites hq
  refine ⟨hredPixel, ?_, ?_, ?_⟩
  · calc (g.blueGreenRed blueBase).pixel ((g.blueGreenRed blueBase).draw blueMem writes) q
        = ((lastColor writes q).map Color.visible).getD
            ((g.blueGreenRed blueBase).pixel blueMem q) := hbluePixel
      _ = ((lastColor writes q).map Color.visible).getD
            ((g.redGreenBlue redBase).pixel redMem q) := by rw [hstart]
      _ = (g.redGreenBlue redBase).pixel ((g.redGreenBlue redBase).draw redMem writes) q :=
          hredPixel.symm
  · exact hred.reserved_draw .redGreenBlue redMem hwrites hq
  · exact hblue.reserved_draw .blueGreenRed blueMem hwrites hq

/-- Two lines of two pixels. The second pixel is written twice. -/
theorem Geometry.writers_draw_alike_twoLines :
    let g : Geometry := ⟨2, 2, by decide⟩
    let writes : List PixelWrite := [⟨⟨1, 0⟩, ⟨1, 2, 3, 4⟩⟩, ⟨⟨0, 1⟩, black⟩, ⟨⟨1, 0⟩, ⟨5, 6, 7, 8⟩⟩]
    (g.redGreenBlue 0x80000000).pixel ((g.redGreenBlue 0x80000000).draw (fun _ => 0) writes) ⟨1, 0⟩ =
        ⟨5, 6, 7, 0⟩ ∧
      (g.blueGreenRed 0xc0000000).pixel
          ((g.blueGreenRed 0xc0000000).draw (fun _ => 0) writes) ⟨1, 0⟩ = ⟨5, 6, 7, 0⟩ := by
  intro g writes
  have hwrites : ∀ pw ∈ writes, g.Contains pw.position := by
    simp [writes, g, Contains]
  have hq : g.Contains ⟨1, 0⟩ := ⟨by decide, by decide⟩
  have hstart : (g.redGreenBlue 0x80000000).pixel (fun _ => 0) ⟨1, 0⟩ =
      (g.blueGreenRed 0xc0000000).pixel (fun _ => 0) ⟨1, 0⟩ := rfl
  have hdraw := g.writers_draw_alike hwrites hq hstart
  exact ⟨hdraw.1, hdraw.2.1.trans hdraw.1⟩

end Bitnos.Graphics
