/-
# Rectangles and their corners

`DrawRect` fills a rectangle by two loops over its sizes. `graphics.hpp` also has an
operator that takes the upper left corner of a rectangle to its lower right one. It
adds the width to both coordinates, so that the two agree for squares only.
-/

import Bitnos.Graphics.Draw
import Mathlib.Algebra.Order.Ring.Int
import Mathlib.Data.List.Nodup

namespace Bitnos.Graphics

/-- `operator +` of a point and a size. Both coordinates add the width. -/
instance : HAdd Point RectSize Point := ⟨fun p s => ⟨p.x + s.width, p.y + s.width⟩⟩

/-- `operator +` of a size and a point. -/
instance : HAdd RectSize Point Point := ⟨fun s p => p + s⟩

/-- The pixel lies in the half-open box between two corners. Coordinates are `int`. -/
structure InBox (upperLeft lowerRight q : Point) : Prop where
  x_ge : upperLeft.x.toInt ≤ q.x.toInt
  x_lt : q.x.toInt < lowerRight.x.toInt
  y_ge : upperLeft.y.toInt ≤ q.y.toInt
  y_lt : q.y.toInt < lowerRight.y.toInt

theorem inBox_iff {upperLeft lowerRight q : Point} : InBox upperLeft lowerRight q ↔
    (upperLeft.x.toInt ≤ q.x.toInt ∧ q.x.toInt < lowerRight.x.toInt) ∧
      upperLeft.y.toInt ≤ q.y.toInt ∧ q.y.toInt < lowerRight.y.toInt :=
  ⟨fun h => ⟨⟨h.x_ge, h.x_lt⟩, h.y_ge, h.y_lt⟩, fun h => ⟨h.1.1, h.1.2, h.2.1, h.2.2⟩⟩

instance (upperLeft lowerRight : Point) : DecidablePred (InBox upperLeft lowerRight) :=
  fun _ => decidable_of_iff _ inBox_iff.symm

/-- The rectangle is not empty, and the coordinates of its corners are of type `int`. -/
structure FitsInt (p : Point) (s : RectSize) : Prop where
  width_pos : 0 < s.width.toNat
  height_pos : 0 < s.height.toNat
  x_le : p.x.toInt + s.width.toNat ≤ 2 ^ 31 - 1
  y_le : p.y.toInt + s.height.toNat ≤ 2 ^ 31 - 1

/-- `DrawRect` colours each pixel of the box from `p` to `p + s` once, and nothing else. -/
structure CornersAgree (p : Point) (s : RectSize) (color : Color) : Prop where
  count : ∀ q, (drawRect p s color).count ⟨q, color⟩ = if InBox p (p + s) q then 1 else 0
  color_eq : ∀ pw ∈ drawRect p s color, pw.color = color
  comm : s + p = p + s

/-! ### The writes of the loops -/

theorem ofNat_add_inj {origin : BitVec 32} {d d' : ℕ} (hd : d < 2 ^ 32) (hd' : d' < 2 ^ 32)
    (heq : origin + BitVec.ofNat 32 d = origin + BitVec.ofNat 32 d') : d = d' := by
  rw [← offset_add origin hd, heq, offset_add origin hd']

/-- No pixel is written twice. -/
theorem nodup_drawRect (p : Point) (s : RectSize) (color : Color) : (drawRect p s color).Nodup := by
  have hx : ∀ {d}, d ∈ List.range s.width.toNat → d < 2 ^ 32 :=
    fun hd => (List.mem_range.mp hd).trans s.width.isLt
  have hy : ∀ {d}, d ∈ List.range s.height.toNat → d < 2 ^ 32 :=
    fun hd => (List.mem_range.mp hd).trans s.height.isLt
  rw [drawRect, List.nodup_flatMap]
  constructor
  · -- the pixels of one line differ in `x`
    intro dy _
    refine List.nodup_range.map_on fun dx hdx dx' hdx' heq => ?_
    exact ofNat_add_inj (hx hdx) (hx hdx') (congrArg (·.position.x) heq)
  · -- and different lines differ in `y`
    refine List.nodup_range.imp_of_mem fun {dy dy'} hdy hdy' hne pw hpw hpw' => hne ?_
    obtain ⟨dx, -, rfl⟩ := List.mem_map.mp hpw
    obtain ⟨dx', -, heq⟩ := List.mem_map.mp hpw'
    exact ofNat_add_inj (hy hdy) (hy hdy') (congrArg (·.position.y) heq).symm

theorem count_drawRect (p : Point) (s : RectSize) (color : Color) (q : Point) :
    (drawRect p s color).count ⟨q, color⟩ = if Inside p s q then 1 else 0 := by
  rw [(nodup_drawRect p s color).count]
  simp only [mem_drawRect, true_and]

/-! ### Intervals of coordinates -/

theorem toInt_add_of_le {origin extent : BitVec 32}
    (hle : origin.toInt + extent.toNat ≤ 2 ^ 31 - 1) :
    (origin + extent).toInt = origin.toInt + extent.toNat := by
  have hlow := BitVec.le_toInt origin
  rw [BitVec.toInt_add, BitVec.toInt_eq_toNat_bmod extent, Int.add_bmod_bmod]
  exact Int.bmod_eq_of_le (by omega) (by omega)

/-- A difference of coordinates wraps around. -/
theorem toNat_sub_eq (c origin : BitVec 32) :
    (c - origin).toNat = ((c.toInt - origin.toInt) % 2 ^ 32).toNat := by
  have heq : c - origin = BitVec.ofInt 32 (c.toInt - origin.toInt) := by
    rw [Int.sub_eq_add_neg, BitVec.ofInt_add, BitVec.ofInt_neg, BitVec.ofInt_toInt,
      BitVec.ofInt_toInt, BitVec.sub_eq_add_neg]
  rw [heq, BitVec.toNat_ofInt]
  rfl

/-- The offsets below the extent are the coordinates before the far end. -/
theorem offset_lt_iff {origin extent : BitVec 32} (c : BitVec 32)
    (hle : origin.toInt + extent.toNat ≤ 2 ^ 31 - 1) :
    (c - origin).toNat < extent.toNat ↔
      origin.toInt ≤ c.toInt ∧ c.toInt < (origin + extent).toInt := by
  have horigin := BitVec.le_toInt origin
  have hlow := BitVec.le_toInt c
  have hhigh := BitVec.toInt_lt (x := c)
  rw [toInt_add_of_le hle, toNat_sub_eq]
  omega

/-- Two far ends bound the same coordinates only if they are the same. -/
theorem extent_eq_of_forall {origin extent extent' : BitVec 32} (hpos : 0 < extent.toNat)
    (hle : origin.toInt + extent.toNat ≤ 2 ^ 31 - 1)
    (hall : ∀ c : BitVec 32, origin.toInt ≤ c.toInt →
      (c.toInt < (origin + extent).toInt ↔ c.toInt < (origin + extent').toInt)) :
    extent = extent' := by
  have hlast : (origin + (extent - 1)).toInt = origin.toInt + extent.toNat - 1 := by
    have hpred : (extent - 1).toNat = extent.toNat - 1 := BitVec.toNat_sub_of_le hpos
    rw [toInt_add_of_le (by omega), hpred]
    omega
  have hend := toInt_add_of_le hle
  -- The last coordinate inside and the first one outside pin the other far end.
  have hin := (hall (origin + (extent - 1)) (by omega)).mp (by omega)
  have hout := mt (hall (origin + extent) (by omega)).mpr (by omega)
  have heq : (origin + extent).toInt = (origin + extent').toInt := by omega
  exact (BitVec.add_right_inj origin).mp (BitVec.eq_of_toInt_eq heq)

/-! ### Agreement -/

namespace FitsInt

variable {p : Point} {s : RectSize} {color : Color}

/-- The box the loops fill: its lower right corner adds the height to `y`. -/
theorem inside_iff (h : FitsInt p s) (q : Point) :
    Inside p s q ↔ InBox p ⟨p.x + s.width, p.y + s.height⟩ q := by
  rw [inBox_iff, Inside, offset_lt_iff q.x h.x_le, offset_lt_iff q.y h.y_le]

end FitsInt

/-- The corner operator describes the rectangle that is drawn just when it is a square. -/
theorem cornersAgree_iff {p : Point} {s : RectSize} {color : Color} (h : FitsInt p s) :
    CornersAgree p s color ↔ s.width = s.height := by
  constructor
  · intro hagree
    have hbox : ∀ q, InBox p ⟨p.x + s.width, p.y + s.height⟩ q ↔ InBox p (p + s) q := by
      intro q
      have hcount := (count_drawRect p s color q).symm.trans (hagree.count q)
      simp only [h.inside_iff] at hcount
      by_cases hq : InBox p (p + s) q <;> simpa [hq] using hcount
    -- The column of `p` meets both boxes.
    have hx : p.x.toInt < (p.x + s.width).toInt := by
      have hpos := h.width_pos
      have hend := toInt_add_of_le h.x_le
      omega
    refine (extent_eq_of_forall h.height_pos h.y_le fun c hc => ⟨fun hlt => ?_, fun hlt => ?_⟩).symm
    · exact ((hbox ⟨p.x, c⟩).mp ⟨le_rfl, hx, hc, hlt⟩).y_lt
    · exact ((hbox ⟨p.x, c⟩).mpr ⟨le_rfl, hx, hc, hlt⟩).y_lt
  · intro hsquare
    refine ⟨fun q => ?_, fun pw hpw => (mem_drawRect.mp hpw).1, rfl⟩
    rw [count_drawRect]
    simp only [h.inside_iff, ← hsquare]
    rfl

/-- A square of eight pixels at the origin. -/
theorem cornersAgree_iff_square : CornersAgree ⟨0, 0⟩ ⟨8, 8⟩ black :=
  (cornersAgree_iff ⟨by decide, by decide, by decide, by decide⟩).mpr rfl

/-- A cell of the console at the origin: its lower half lies outside the box. -/
theorem not_cornersAgree_cell : FitsInt ⟨0, 0⟩ ⟨8, 16⟩ ∧ ¬CornersAgree ⟨0, 0⟩ ⟨8, 16⟩ white := by
  refine ⟨⟨by decide, by decide, by decide, by decide⟩, fun h => ?_⟩
  have hcount := h.count ⟨0, 8⟩
  revert hcount
  decide

end Bitnos.Graphics
