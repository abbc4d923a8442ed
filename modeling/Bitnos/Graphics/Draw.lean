/-
# Pixel writers and the drawing functions

`DrawRect` and `DrawAscii` only ever call `Write` of the pixel writer they are
given, so each is the list of its calls, in order. What a call stores is up to the
writer; what an image looks like after the calls is `paint`.
-/

import Mathlib.Algebra.Order.Group.Nat
import Mathlib.Logic.Function.Basic
import Mathlib.Data.List.Basic

namespace Bitnos.Graphics

/-- `Point`, two coordinates of type `int`. -/
@[ext]
structure Point where
  x : BitVec 32
  y : BitVec 32
  deriving DecidableEq

/-- `operator +` of two points. -/
instance : Add Point := ⟨fun lhs rhs => ⟨lhs.x + rhs.x, lhs.y + rhs.y⟩⟩

/-- `RectSize` -/
structure RectSize where
  width : BitVec 32
  height : BitVec 32
  deriving DecidableEq

/-- `Color` -/
structure Color where
  r : BitVec 8
  g : BitVec 8
  b : BitVec 8
  a : BitVec 8
  deriving DecidableEq

/-- The colour of the cleared screen and of erased cells. -/
def white : Color := ⟨255, 255, 255, 0⟩

/-- `kBlack` -/
def black : Color := ⟨0, 0, 0, 0⟩

/-- `GraphicPixelFormat` -/
inductive PixelFormat
  | redGreenBlueReserved8BitPerColor
  | blueGreenRedReserved8BitPerColor
  | bitMask
  | bltOnly
  | formatMax
  deriving DecidableEq

/-- The fields of `GraphicMode` the kernel uses. -/
structure GraphicMode where
  frameBufferBase : BitVec 64
  frameBufferSize : BitVec 32
  horizontalResolution : BitVec 32
  verticalResolution : BitVec 32
  pixelFormat : PixelFormat
  pixelsPerScanLine : BitVec 32

/-! ### Pixel writers -/

/-- The two subclasses of `PixelWriter`. -/
inductive ByteOrder
  | redGreenBlue
  | blueGreenRed
  deriving DecidableEq

/-- `PixelWriter`, with the subclass that overrides `Write`. -/
structure PixelWriter where
  order : ByteOrder
  frameBufferBase : BitVec 64
  pixelsPerScanLine : BitVec 32
  bytesPerPixel : BitVec 8

/-- The constructor of either subclass. -/
def PixelWriter.ofMode (order : ByteOrder) (mode : GraphicMode) : PixelWriter :=
  ⟨order, mode.frameBufferBase, mode.pixelsPerScanLine, 4⟩

/-- The writer `MyMain` constructs for the mode, if it knows the pixel format. -/
def GraphicMode.writer (mode : GraphicMode) : Option PixelWriter :=
  match mode.pixelFormat with
  | .redGreenBlueReserved8BitPerColor => some (.ofMode .redGreenBlue mode)
  | .blueGreenRedReserved8BitPerColor => some (.ofMode .blueGreenRed mode)
  | _ => none

/-- Results about both subclasses cover the writer of `MyMain`. -/
theorem GraphicMode.exists_order {mode : GraphicMode} {w : PixelWriter}
    (hw : mode.writer = some w) : ∃ order, w = .ofMode order mode := by
  unfold writer at hw
  split at hw
  · exact ⟨_, (Option.some.inj hw).symm⟩
  · exact ⟨_, (Option.some.inj hw).symm⟩
  · cases hw

namespace PixelWriter

variable (w : PixelWriter)

/-- The part of `CalcPixelAddr` computed in `uint32_t`. -/
def pixelOffset (pixel : Point) : BitVec 32 :=
  w.bytesPerPixel.setWidth 32 * (w.pixelsPerScanLine * pixel.y + pixel.x)

/-- `CalcPixelAddr` -/
def calcPixelAddr (pixel : Point) : BitVec 64 :=
  w.frameBufferBase + (w.pixelOffset pixel).setWidth 64

/-- The bytes `Write` stores from the address of the pixel on. -/
def bytes (color : Color) : List (BitVec 8) :=
  match w.order with
  | .redGreenBlue => [color.r, color.g, color.b]
  | .blueGreenRed => [color.b, color.g, color.r]

/-- `Write`, as the stores it performs. -/
def write (position : Point) (color : Color) : List (BitVec 64 × BitVec 8) :=
  (w.bytes color).mapIdx fun i byte => (w.calcPixelAddr position + BitVec.ofNat 64 i, byte)

end PixelWriter

/-- A call of `Write`. -/
structure PixelWrite where
  position : Point
  color : Color
  deriving DecidableEq

/-! ### Drawing -/

/-- `DrawRect` -/
def drawRect (position : Point) (size : RectSize) (color : Color) : List PixelWrite :=
  (List.range size.height.toNat).flatMap fun dy =>
    (List.range size.width.toNat).map fun dx =>
      ⟨position + ⟨BitVec.ofNat 32 dx, BitVec.ofNat 32 dy⟩, color⟩

/-- The bytes of the font, relative to `_binary_hankaku_bin_start`. -/
abbrev Font := BitVec 64 → BitVec 8

/-- `p[dy]` in `DrawAscii`. The character is sign extended before it is scaled. -/
def Font.row (font : Font) (ch : BitVec 8) (dy : ℕ) : BitVec 8 :=
  font (16 * ch.signExtend 64 + BitVec.ofNat 64 dy)

/-- The inner loop of `DrawAscii` over the columns from `dx` on. -/
def drawRow (position : Point) (dy : ℕ) : (columns dx : ℕ) → BitVec 8 → List PixelWrite
  | 0, _, _ => []
  | columns + 1, dx, pixels =>
    let rest := drawRow position dy columns (dx + 1) (pixels <<< 1)
    if pixels &&& 0x80 ≠ 0 then
      ⟨position + ⟨BitVec.ofNat 32 dx, BitVec.ofNat 32 dy⟩, black⟩ :: rest
    else
      rest

/-- `DrawAscii` -/
def drawAscii (font : Font) (position : Point) (ch : BitVec 8) : List PixelWrite :=
  (List.range 16).flatMap fun dy => drawRow position dy 8 0 (font.row ch dy)

/-- The two loops of `MyMain` that paint the screen white. -/
def clearScreen (mode : GraphicMode) : List PixelWrite :=
  (List.range mode.verticalResolution.toNat).flatMap fun y =>
    (List.range mode.horizontalResolution.toNat).map fun x =>
      ⟨⟨BitVec.ofNat 32 x, BitVec.ofNat 32 y⟩, white⟩

/-! ### What is drawn where -/

/-- The pixel lies in the rectangle. The differences wrap around as the
coordinates do. -/
def Inside (position : Point) (size : RectSize) (p : Point) : Prop :=
  (p.x - position.x).toNat < size.width.toNat ∧ (p.y - position.y).toNat < size.height.toNat

instance (position : Point) (size : RectSize) : DecidablePred (Inside position size) :=
  fun _ => inferInstanceAs (Decidable (_ ∧ _))

@[simp] theorem add_x (p q : Point) : (p + q).x = p.x + q.x := rfl

@[simp] theorem add_y (p q : Point) : (p + q).y = p.y + q.y := rfl

theorem offset_add (origin : BitVec 32) {d : ℕ} (hd : d < 2 ^ 32) :
    (origin + BitVec.ofNat 32 d - origin).toNat = d := by
  rw [BitVec.add_comm, BitVec.add_sub_cancel, BitVec.toNat_ofNat, Nat.mod_eq_of_lt hd]

theorem add_offset (origin c : BitVec 32) : origin + BitVec.ofNat 32 (c - origin).toNat = c := by
  rw [BitVec.ofNat_toNat, BitVec.setWidth_eq, BitVec.add_comm, BitVec.sub_add_cancel]

theorem mem_drawRect {position : Point} {size : RectSize} {color : Color} {pw : PixelWrite} :
    pw ∈ drawRect position size color ↔ pw.color = color ∧ Inside position size pw.position := by
  simp only [drawRect, List.mem_flatMap, List.mem_map, List.mem_range]
  constructor
  · rintro ⟨dy, hdy, dx, hdx, rfl⟩
    have hx := offset_add position.x (hdx.trans size.width.isLt)
    have hy := offset_add position.y (hdy.trans size.height.isLt)
    exact ⟨rfl, hx.trans_lt hdx, hy.trans_lt hdy⟩
  · rintro ⟨rfl, hx, hy⟩
    refine ⟨_, hy, _, hx, ?_⟩
    exact congrArg (PixelWrite.mk · pw.color) (Point.ext (add_offset ..) (add_offset ..))

theorem mem_clearScreen {mode : GraphicMode} {pw : PixelWrite} :
    pw ∈ clearScreen mode ↔ pw.color = white ∧
      pw.position.x < mode.horizontalResolution ∧ pw.position.y < mode.verticalResolution := by
  simp only [clearScreen, List.mem_flatMap, List.mem_map, List.mem_range, BitVec.lt_def]
  constructor
  · rintro ⟨y, hy, x, hx, rfl⟩
    exact ⟨rfl, (Nat.mod_le ..).trans_lt hx, (Nat.mod_le ..).trans_lt hy⟩
  · rintro ⟨hcolor, hx, hy⟩
    refine ⟨_, hy, _, hx, ?_⟩
    simp only [BitVec.ofNat_toNat, BitVec.setWidth_eq, ← hcolor]

/-- `pixels & 0x80u` tests the leftmost bit of the byte. -/
theorem and_ne_zero_iff (pixels : BitVec 8) : pixels &&& 0x80 ≠ 0 ↔ pixels.getMsbD 0 := by
  revert pixels
  decide

theorem mem_drawRow {position : Point} {dy columns dx : ℕ} {pixels : BitVec 8} {pw : PixelWrite} :
    pw ∈ drawRow position dy columns dx pixels ↔ ∃ i < columns, pixels.getMsbD i ∧
      pw = ⟨position + ⟨BitVec.ofNat 32 (dx + i), BitVec.ofNat 32 dy⟩, black⟩ := by
  induction columns generalizing dx pixels with
  | zero => simp [drawRow]
  | succ columns ih =>
    have hrest : pw ∈ drawRow position dy columns (dx + 1) (pixels <<< 1) ↔
        ∃ i < columns, pixels.getMsbD (i + 1) ∧
          pw = ⟨position + ⟨BitVec.ofNat 32 (dx + (i + 1)), BitVec.ofNat 32 dy⟩, black⟩ := by
      rw [ih]
      simp only [BitVec.getMsbD_shiftLeft, Nat.add_right_comm dx 1, ← Nat.add_assoc]
    rw [Nat.exists_lt_succ_left, ← hrest, drawRow, ← and_ne_zero_iff]
    split_ifs with hbit
    · rw [List.mem_cons, and_iff_right hbit]
      rfl
    · simp only [hbit, false_and, false_or]

/-- The pixel a glyph has at the given offset from its top left corner. A glyph has sixteen bytes,
one for each row, and those of a character, which is signed, begin `16 * ch` bytes into the font. -/
def Font.dark (font : Font) (ch : BitVec 8) (dx dy : ℕ) : Bool :=
  (font (BitVec.ofInt 64 (16 * ch.toInt + dy))).getMsbD dx

/-- The rows are those of the glyph. -/
theorem Font.getMsbD_row (font : Font) (ch : BitVec 8) (dx dy : ℕ) :
    (font.row ch dy).getMsbD dx = font.dark ch dx dy := by
  rw [row, dark, BitVec.ofInt_add, BitVec.ofInt_mul, BitVec.ofInt_natCast]
  rfl

/-- The glyph of a seven bit character is where its code says. -/
theorem Font.dark_of_lt (font : Font) {ch : BitVec 8} (hch : ch.toNat < 0x80) (dx dy : ℕ) :
    font.dark ch dx dy = (font (BitVec.ofNat 64 (16 * ch.toNat + dy))).getMsbD dx := by
  rw [dark, BitVec.toInt_eq_toNat_of_lt (by omega), ← BitVec.ofInt_natCast]
  push_cast
  rfl

theorem mem_drawAscii {font : Font} {position : Point} {ch : BitVec 8} {pw : PixelWrite} :
    pw ∈ drawAscii font position ch ↔ pw.color = black ∧ Inside position ⟨8, 16⟩ pw.position ∧
      font.dark ch (pw.position.x - position.x).toNat (pw.position.y - position.y).toNat := by
  simp only [drawAscii, List.mem_flatMap, List.mem_range, mem_drawRow, Nat.zero_add,
    Font.getMsbD_row]
  constructor
  · rintro ⟨dy, hdy, dx, hdx, hdark, rfl⟩
    have hx := offset_add position.x (show dx < 2 ^ 32 by omega)
    have hy := offset_add position.y (show dy < 2 ^ 32 by omega)
    exact ⟨rfl, ⟨hx.trans_lt hdx, hy.trans_lt hdy⟩, by rwa [add_x, add_y, hx, hy]⟩
  · rintro ⟨hcolor, ⟨hx, hy⟩, hdark⟩
    refine ⟨_, hy, _, hx, hdark, ?_⟩
    rw [← hcolor]
    exact congrArg (PixelWrite.mk · pw.color) (Point.ext (add_offset ..) (add_offset ..)).symm

/-! ### Images -/

/-- The colour of each pixel. -/
abbrev Image := Point → Color

/-- The image after the calls of `Write`, each colouring one pixel. -/
def paint (image : Image) (writes : List PixelWrite) : Image :=
  writes.foldl (fun image pw => Function.update image pw.position pw.color) image

theorem paint_append (image : Image) (ws ws' : List PixelWrite) :
    paint image (ws ++ ws') = paint (paint image ws) ws' :=
  List.foldl_append

/-- What a pixel becomes depends on its own colour only. -/
theorem paint_congr {image image' : Image} {p : Point} (heq : image p = image' p)
    (ws : List PixelWrite) : paint image ws p = paint image' ws p := by
  induction ws generalizing image image' with
  | nil => exact heq
  | cons pw ws ih =>
    refine ih ?_
    simp only [Function.update_apply, heq]

/-- A pixel no call names keeps its colour. -/
theorem paint_of_forall_ne {image : Image} {ws : List PixelWrite} {p : Point}
    (hne : ∀ pw ∈ ws, pw.position ≠ p) : paint image ws p = image p := by
  induction ws generalizing image with
  | nil => rfl
  | cons pw ws ih =>
    rw [paint, List.foldl_cons, ← paint, ih fun pw' hpw' => hne pw' (List.mem_cons_of_mem pw hpw')]
    exact Function.update_of_ne (hne pw List.mem_cons_self).symm _ _

/-- Calls of one colour colour the pixels they name and no others. -/
theorem paint_of_color {image : Image} {ws : List PixelWrite} {color : Color}
    (hcolor : ∀ pw ∈ ws, pw.color = color) (p : Point) :
    paint image ws p = if ⟨p, color⟩ ∈ ws then color else image p := by
  induction ws generalizing image with
  | nil => rfl
  | cons pw ws ih =>
    rw [paint, List.foldl_cons, ← paint, ih fun pw' hpw' => hcolor pw' (List.mem_cons_of_mem pw hpw')]
    by_cases hmem : ⟨p, color⟩ ∈ ws
    · rw [if_pos hmem, if_pos (List.mem_cons_of_mem pw hmem)]
    · by_cases hp : p = pw.position
      · subst hp
        rw [if_neg hmem, Function.update_self, ← hcolor pw List.mem_cons_self,
          if_pos List.mem_cons_self]
      · have hnot : ⟨p, color⟩ ∉ pw :: ws := by
          rw [List.mem_cons, not_or]
          exact ⟨fun h => hp (congrArg PixelWrite.position h), hmem⟩
        rw [if_neg hmem, if_neg hnot, Function.update_of_ne hp]

end Bitnos.Graphics
