/-
# Pixels in the frame buffer

The firmware promises a mode whose lines are long enough for the visible pixels
and whose frame buffer holds all lines. Under that promise the 32-bit offset of a
visible pixel does not wrap around, its bytes lie in the frame buffer, and no two
visible pixels share a byte, so the memory shows the painted image.
-/

import Bitnos.Graphics.Draw

namespace Bitnos.Graphics

/-- What the firmware promises of the mode it reports. -/
structure GraphicMode.Usable (mode : GraphicMode) : Prop where
  line_le : mode.horizontalResolution.toNat ≤ mode.pixelsPerScanLine.toNat
  fits : 4 * mode.pixelsPerScanLine.toNat * mode.verticalResolution.toNat ≤
    mode.frameBufferSize.toNat

/-- The pixel is visible. -/
def GraphicMode.OnScreen (mode : GraphicMode) (p : Point) : Prop :=
  p.x < mode.horizontalResolution ∧ p.y < mode.verticalResolution

/-- The number of the pixel when lines are laid out one after another. -/
def GraphicMode.pixelIndex (mode : GraphicMode) (p : Point) : ℕ :=
  mode.pixelsPerScanLine.toNat * p.y.toNat + p.x.toNat

/-- The memory the writers store to. -/
abbrev Memory := BitVec 64 → BitVec 8

/-- Perform the stores in order. -/
def Memory.store (mem : Memory) (stores : List (BitVec 64 × BitVec 8)) : Memory :=
  stores.foldl (fun mem st => Function.update mem st.1 st.2) mem

/-- Perform the calls of `Write` in order. -/
def PixelWriter.draw (w : PixelWriter) (mem : Memory) (writes : List PixelWrite) : Memory :=
  writes.foldl (fun mem pw => mem.store (w.write pw.position pw.color)) mem

/-- The part of a colour that is stored. -/
def Color.visible (color : Color) : Color := { color with a := 0 }

/-- The colour the bytes of a pixel stand for. -/
def PixelWriter.pixel (w : PixelWriter) (mem : Memory) (p : Point) : Color :=
  let byte i := mem (w.calcPixelAddr p + BitVec.ofNat 64 i)
  match w.order with
  | .redGreenBlue => ⟨byte 0, byte 1, byte 2, 0⟩
  | .blueGreenRed => ⟨byte 2, byte 1, byte 0, 0⟩

section

variable {mode : GraphicMode} {p q : Point}

/-! ### Addresses -/

namespace GraphicMode.Usable

theorem pixelIndex_lt (hmode : mode.Usable) (hp : mode.OnScreen p) :
    4 * mode.pixelIndex p + 4 ≤ mode.frameBufferSize.toNat := by
  obtain ⟨hx, hy⟩ := hp
  rw [BitVec.lt_def] at hx hy
  have hlines : mode.pixelsPerScanLine.toNat * (p.y.toNat + 1) ≤
      mode.pixelsPerScanLine.toNat * mode.verticalResolution.toNat :=
    Nat.mul_le_mul_left _ hy
  have hline := hmode.line_le
  have hfits := hmode.fits
  rw [Nat.mul_assoc] at hfits
  rw [Nat.mul_succ] at hlines
  rw [pixelIndex]
  omega

theorem pixelIndex_injective (hmode : mode.Usable) (hp : mode.OnScreen p) (hq : mode.OnScreen q)
    (heq : mode.pixelIndex p = mode.pixelIndex q) : p = q := by
  have hpx : p.x.toNat < mode.pixelsPerScanLine.toNat := hp.1.trans_le hmode.line_le
  have hqx : q.x.toNat < mode.pixelsPerScanLine.toNat := hq.1.trans_le hmode.line_le
  rw [pixelIndex, pixelIndex] at heq
  apply Point.ext
  · have hmod := congrArg (· % mode.pixelsPerScanLine.toNat) heq
    simp only [Nat.mul_add_mod, Nat.mod_eq_of_lt hpx, Nat.mod_eq_of_lt hqx] at hmod
    exact BitVec.eq_of_toNat_eq hmod
  · have hdiv := congrArg (· / mode.pixelsPerScanLine.toNat) heq
    have hpos : 0 < mode.pixelsPerScanLine.toNat := (Nat.zero_le _).trans_lt hpx
    simp only [Nat.mul_add_div hpos, Nat.div_eq_of_lt hpx, Nat.div_eq_of_lt hqx] at hdiv
    exact BitVec.eq_of_toNat_eq hdiv

/-- The 32-bit computation of the offset does not wrap around. -/
theorem toNat_pixelOffset (hmode : mode.Usable) (hp : mode.OnScreen p) (order : ByteOrder) :
    ((PixelWriter.ofMode order mode).pixelOffset p).toNat = 4 * mode.pixelIndex p := by
  have hlt := hmode.pixelIndex_lt hp
  have hsize := mode.frameBufferSize.isLt
  rw [pixelIndex] at hlt ⊢
  have hbytes : (BitVec.setWidth 32 (4 : BitVec 8)).toNat = 4 := rfl
  simp only [PixelWriter.pixelOffset, PixelWriter.ofMode, BitVec.toNat_mul, BitVec.toNat_add, hbytes,
    Nat.mod_add_mod, Nat.mul_mod_mod]
  exact Nat.mod_eq_of_lt (by omega)

/-- Where the bytes of a pixel lie, counted from the start of the frame buffer. -/
theorem toNat_byteOffset (hmode : mode.Usable) (hp : mode.OnScreen p) (order : ByteOrder) {i : ℕ}
    (hi : i < 4) :
    ((PixelWriter.ofMode order mode).calcPixelAddr p + BitVec.ofNat 64 i -
      mode.frameBufferBase).toNat = 4 * mode.pixelIndex p + i := by
  have hlt := hmode.pixelIndex_lt hp
  have hsize := mode.frameBufferSize.isLt
  have hoffset := hmode.toNat_pixelOffset hp order
  have haddr : (PixelWriter.ofMode order mode).calcPixelAddr p + BitVec.ofNat 64 i -
      mode.frameBufferBase = ((PixelWriter.ofMode order mode).pixelOffset p).setWidth 64 +
        BitVec.ofNat 64 i := by
    rw [PixelWriter.calcPixelAddr, BitVec.add_assoc]
    exact (BitVec.add_comm ..) ▸ BitVec.add_sub_cancel _ _
  rw [haddr, BitVec.toNat_add, BitVec.toNat_setWidth, BitVec.toNat_ofNat, hoffset]
  omega

/-- Distinct pixels have distinct bytes. -/
theorem byte_ne (hmode : mode.Usable) (hp : mode.OnScreen p) (hq : mode.OnScreen q) (order : ByteOrder)
    {i j : ℕ} (hi : i < 4) (hj : j < 4) (hne : p ≠ q ∨ i ≠ j) :
    (PixelWriter.ofMode order mode).calcPixelAddr p + BitVec.ofNat 64 i ≠
      (PixelWriter.ofMode order mode).calcPixelAddr q + BitVec.ofNat 64 j := by
  intro heq
  have hoffset := hmode.toNat_byteOffset hp order hi
  rw [heq, hmode.toNat_byteOffset hq order hj] at hoffset
  rcases hne with hne | hne
  · exact hne (hmode.pixelIndex_injective hp hq (by omega))
  · omega

end GraphicMode.Usable

/-- A byte `Write` stores lies at one of the first three addresses of the pixel. -/
theorem PixelWriter.mem_write {w : PixelWriter} {color : Color} {st : BitVec 64 × BitVec 8}
    (hst : st ∈ w.write p color) :
    ∃ i < 3, st.1 = w.calcPixelAddr p + BitVec.ofNat 64 i := by
  obtain ⟨i, hi, rfl⟩ := List.mem_mapIdx.mp hst
  refine ⟨i, ?_, rfl⟩
  unfold PixelWriter.bytes at hi
  split at hi <;> exact hi

/-- Every byte stored for a visible pixel lies in the frame buffer. -/
theorem GraphicMode.Usable.write_confined (hmode : mode.Usable) (hp : mode.OnScreen p)
    (order : ByteOrder) {color : Color} {st : BitVec 64 × BitVec 8}
    (hst : st ∈ (PixelWriter.ofMode order mode).write p color) :
    (st.1 - mode.frameBufferBase).toNat < mode.frameBufferSize.toNat := by
  obtain ⟨i, hi, haddr⟩ := PixelWriter.mem_write hst
  have hlt := hmode.pixelIndex_lt hp
  rw [haddr, hmode.toNat_byteOffset hp order (by omega)]
  omega

/-! ### Reading back -/

theorem Memory.store_of_notMem {mem : Memory} {stores : List (BitVec 64 × BitVec 8)}
    {addr : BitVec 64} (hnot : ∀ st ∈ stores, st.1 ≠ addr) : mem.store stores addr = mem addr := by
  induction stores generalizing mem with
  | nil => rfl
  | cons st stores ih =>
    rw [Memory.store, List.foldl_cons, ← Memory.store,
      ih fun st' hst' => hnot st' (List.mem_cons_of_mem st hst')]
    exact Function.update_of_ne (hnot st List.mem_cons_self).symm _ _

theorem GraphicMode.Usable.pixel_write_of_ne (hmode : mode.Usable) (hp : mode.OnScreen p)
    (hq : mode.OnScreen q) (hne : q ≠ p) (order : ByteOrder) (mem : Memory) (color : Color) :
    (PixelWriter.ofMode order mode).pixel
        (mem.store ((PixelWriter.ofMode order mode).write p color)) q =
      (PixelWriter.ofMode order mode).pixel mem q := by
  have hbyte : ∀ i < 3, mem.store ((PixelWriter.ofMode order mode).write p color)
      ((PixelWriter.ofMode order mode).calcPixelAddr q + BitVec.ofNat 64 i) =
        mem ((PixelWriter.ofMode order mode).calcPixelAddr q + BitVec.ofNat 64 i) := by
    intro i hi
    apply Memory.store_of_notMem
    intro st hst
    obtain ⟨j, hj, haddr⟩ := PixelWriter.mem_write hst
    rw [haddr]
    exact hmode.byte_ne hp hq order (by omega) (by omega) (.inl hne.symm)
  simp only [PixelWriter.pixel, hbyte 0 (by omega), hbyte 1 (by omega), hbyte 2 (by omega)]

theorem PixelWriter.pixel_write_self (w : PixelWriter) (mem : Memory) (color : Color) :
    w.pixel (mem.store (w.write p color)) p = color.visible := by
  -- the three stores go to different addresses, whatever the address of the pixel is
  cases w with
  | mk order base line bytes =>
    cases order with
    | redGreenBlue =>
      simp [PixelWriter.pixel, Memory.store, PixelWriter.write, PixelWriter.bytes, Color.visible]
    | blueGreenRed =>
      simp [PixelWriter.pixel, Memory.store, PixelWriter.write, PixelWriter.bytes, Color.visible]

/-- **The memory shows the image.** What a writer of the mode has drawn is what has
been painted, as far as pixels are visible. -/
theorem GraphicMode.Usable.pixel_draw (hmode : mode.Usable) (order : ByteOrder) {mem : Memory}
    {image : Image} {writes : List PixelWrite} (hwrites : ∀ pw ∈ writes, mode.OnScreen pw.position)
    (hstart : ∀ q, mode.OnScreen q →
      (PixelWriter.ofMode order mode).pixel mem q = (image q).visible)
    (hq : mode.OnScreen q) :
    (PixelWriter.ofMode order mode).pixel ((PixelWriter.ofMode order mode).draw mem writes) q =
      (paint image writes q).visible := by
  induction writes generalizing mem image with
  | nil => exact hstart q hq
  | cons pw writes ih =>
    refine ih (fun pw' hpw' => hwrites pw' (List.mem_cons_of_mem pw hpw')) ?_
    intro r hr
    have hpos := hwrites pw List.mem_cons_self
    change _ = (Function.update image pw.position pw.color r).visible
    by_cases hr' : r = pw.position
    · subst hr'
      rw [PixelWriter.pixel_write_self, Function.update_self]
    · rw [hmode.pixel_write_of_ne hpos hr hr', hstart r hr, Function.update_of_ne hr']

/-- Clearing the screen leaves nothing of what was visible before. -/
theorem GraphicMode.OnScreen.paint_clear (hp : mode.OnScreen p) (image : Image) :
    paint image (clearScreen mode) p = white := by
  rw [paint_of_color fun pw hpw => (mem_clearScreen.mp hpw).1, if_pos]
  exact mem_clearScreen.mpr ⟨rfl, hp⟩

theorem PixelWriter.pixel_visible (w : PixelWriter) (mem : Memory) (p : Point) :
    (w.pixel mem p).visible = w.pixel mem p := by
  cases w with
  | mk order base line bytes => cases order <;> rfl

/-- From the cleared screen on, the memory shows the image whatever it held before. -/
theorem GraphicMode.Usable.pixel_draw_clear (hmode : mode.Usable) (order : ByteOrder)
    (mem : Memory) (image : Image) {writes : List PixelWrite}
    (hwrites : ∀ pw ∈ writes, mode.OnScreen pw.position) (hp : mode.OnScreen p) :
    (PixelWriter.ofMode order mode).pixel
        ((PixelWriter.ofMode order mode).draw mem (clearScreen mode ++ writes)) p =
      (paint image (clearScreen mode ++ writes) p).visible := by
  have hall : ∀ pw ∈ clearScreen mode ++ writes, mode.OnScreen pw.position := by
    intro pw hpw
    rcases List.mem_append.mp hpw with hclear | hwrite
    · exact (mem_clearScreen.mp hclear).2
    · exact hwrites pw hwrite
  rw [hmode.pixel_draw order hall (fun q _ => (PixelWriter.pixel_visible _ mem q).symm) hp,
    paint_append, paint_append]
  exact congrArg Color.visible (paint_congr ((hp.paint_clear _).trans (hp.paint_clear _).symm) _)

end

end Bitnos.Graphics
