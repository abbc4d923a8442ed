/-
# Bit fields

The members of a C structure, laid out bit by bit under the System V rules: a member
follows the one before it, unless it would then cross from one unit of its declared
type into the next. The members of a layout do not overlap, so that assigning to one
leaves the others alone.
-/

import Bitnos.Math.BitMask
import Mathlib.Data.List.Pairwise

namespace BitField

/-! ### Fields of a word -/

/-- A stretch of bits. -/
structure Field where
  offset : ℕ
  width : ℕ
  deriving DecidableEq

namespace Field

variable (f g : Field) {n m : ℕ}

/-- The bit belongs to the field. -/
def Covers (i : ℕ) : Prop := f.offset ≤ i ∧ i < f.offset + f.width

instance (i : ℕ) : Decidable (f.Covers i) := inferInstanceAs (Decidable (_ ∧ _))

/-- The fields have no bit in common. -/
def Disjoint : Prop := f.offset + f.width ≤ g.offset ∨ g.offset + g.width ≤ f.offset

/-- The value of the field. -/
def get (x : BitVec n) : BitVec f.width := x.extractLsb' f.offset f.width

/-- The word with the field replaced. The value is cut to the width of the field. -/
def set (x : BitVec n) (value : BitVec m) : BitVec n :=
  x &&& ~~~(BitMask.low n f.width <<< f.offset) |||
    ((value.setWidth f.width).setWidth n) <<< f.offset

variable {f g}

theorem getLsbD_set (x : BitVec n) (value : BitVec m) {i : ℕ} (hi : i < n) :
    (f.set x value).getLsbD i =
      if f.Covers i then value.getLsbD (i - f.offset) else x.getLsbD i := by
  rw [set, BitVec.getLsbD_or, BitVec.getLsbD_and, BitVec.getLsbD_not, BitVec.getLsbD_shiftLeft,
    BitVec.getLsbD_shiftLeft, BitMask.getLsbD_low, BitVec.getLsbD_setWidth, BitVec.getLsbD_setWidth]
  have hdiff : i - f.offset < n := by omega
  -- below the field the shifted mask and the shifted value have no bits
  by_cases hge : f.offset ≤ i
  · have hcovers : f.Covers i ↔ i - f.offset < f.width := by
      unfold Covers
      omega
    by_cases hlt : i - f.offset < f.width
    · simp [hi, hdiff, hlt, hcovers, Nat.not_lt.mpr hge]
    · simp [hi, hlt, hcovers]
  · have hcovers : ¬f.Covers i := fun h => hge h.1
    simp [hi, hcovers, Nat.lt_of_not_le hge]

theorem get_set_self (hfits : f.offset + f.width ≤ n) (x : BitVec n) (value : BitVec m) :
    f.get (f.set x value) = value.setWidth f.width := by
  apply BitVec.eq_of_getLsbD_eq
  intro i hi
  rw [get, BitVec.getLsbD_extractLsb', getLsbD_set x value (by omega),
    if_pos ⟨Nat.le_add_right .., Nat.add_lt_add_left hi _⟩, Nat.add_sub_cancel_left,
    BitVec.getLsbD_setWidth]

theorem get_set_of_disjoint (hdisjoint : f.Disjoint g) (x : BitVec n) (value : BitVec m) :
    g.get (f.set x value) = g.get x := by
  apply BitVec.eq_of_getLsbD_eq
  intro i hi
  rw [get, get, BitVec.getLsbD_extractLsb', BitVec.getLsbD_extractLsb']
  by_cases hn : g.offset + i < n
  · have hout : ¬f.Covers (g.offset + i) := by
      rintro ⟨hge, hlt⟩
      rcases hdisjoint with h | h <;> omega
    rw [getLsbD_set x value hn, if_neg hout]
  · rw [BitVec.getLsbD_of_ge _ _ (Nat.le_of_not_lt hn), BitVec.getLsbD_of_ge _ _ (Nat.le_of_not_lt hn)]

end Field

/-! ### Placing members -/

/-- A declared member: the alignment and the width of its type, in bits. The width of a
bit field is its own, and a member without a name is padding. -/
structure Decl (ι : Type*) where
  name : Option ι
  align : ℕ
  width : ℕ

variable {ι : Type*}

/-- Where a member begins that comes after bit `o`. -/
def Decl.start (d : Decl ι) (o : ℕ) : ℕ :=
  if o % d.align = 0 ∨ o / d.align = (o + d.width - 1) / d.align then o
  else d.align * (o / d.align + 1)

/-- The members with their fields, the first of them after bit `o`. -/
def place : ℕ → List (Decl ι) → List (Option ι × Field)
  | _, [] => []
  | o, d :: ds => (d.name, ⟨d.start o, d.width⟩) :: place (d.start o + d.width) ds

theorem Decl.le_start (d : Decl ι) (o : ℕ) : o ≤ d.start o := by
  rw [start]
  split_ifs with hstays
  · exact le_rfl
  · -- an alignment of zero would not have moved the member
    have hpos : 0 < d.align := by
      by_contra hzero
      obtain hzero : d.align = 0 := by omega
      simp [hzero] at hstays
    exact (Nat.lt_mul_div_succ o hpos).le

theorem le_offset_of_mem_place {o : ℕ} {ds : List (Decl ι)} {p : Option ι × Field}
    (hp : p ∈ place o ds) : o ≤ p.2.offset := by
  induction ds generalizing o with
  | nil => cases hp
  | cons d ds ih =>
    have hstart := d.le_start o
    rcases List.mem_cons.mp hp with rfl | hp
    · exact hstart
    · have hle := ih hp
      omega

/-- Members come one after another. -/
theorem pairwise_place (o : ℕ) (ds : List (Decl ι)) :
    (place o ds).Pairwise fun p q => p.2.offset + p.2.width ≤ q.2.offset := by
  induction ds generalizing o with
  | nil => exact .nil
  | cons d ds ih => exact .cons (fun q hq => le_offset_of_mem_place hq) (ih _)

theorem disjoint_of_mem_place {o : ℕ} {ds : List (Decl ι)} {p q : Option ι × Field}
    (hp : p ∈ place o ds) (hq : q ∈ place o ds) (hne : p ≠ q) : p.2.Disjoint q.2 := by
  have hpairwise : (place o ds).Pairwise fun p q => p.2.Disjoint q.2 := (pairwise_place o ds).imp .inl
  have : Std.Symm fun p q : Option ι × Field => p.2.Disjoint q.2 := ⟨fun _ _ h => h.symm⟩
  exact hpairwise.forall hp hq hne

/-- The first bit after the members. -/
def finish : ℕ → List (Decl ι) → ℕ
  | o, [] => o
  | o, d :: ds => finish (d.start o + d.width) ds

/-- The alignment of a structure. A member without a name does not count. -/
def alignment (ds : List (Decl ι)) : ℕ :=
  ds.foldr (fun d align => if d.name.isSome then max d.align align else align) 8

/-- The size of a structure in bits. It can be repeated without losing its alignment. -/
def size (ds : List (Decl ι)) : ℕ :=
  (finish 0 ds + alignment ds - 1) / alignment ds * alignment ds

theorem le_finish (o : ℕ) (ds : List (Decl ι)) : o ≤ finish o ds := by
  induction ds generalizing o with
  | nil => exact le_rfl
  | cons d ds ih => exact (d.le_start o).trans ((Nat.le_add_right ..).trans (ih _))

theorem le_finish_of_mem_place {o : ℕ} {ds : List (Decl ι)} {p : Option ι × Field}
    (hp : p ∈ place o ds) : p.2.offset + p.2.width ≤ finish o ds := by
  induction ds generalizing o with
  | nil => cases hp
  | cons d ds ih =>
    rcases List.mem_cons.mp hp with rfl | hp
    · exact le_finish _ ds
    · exact ih hp

theorem alignment_pos (ds : List (Decl ι)) : 0 < alignment ds := by
  induction ds with
  | nil => exact Nat.succ_pos 7
  | cons d ds ih =>
    change 0 < if _ then max d.align (alignment ds) else alignment ds
    split_ifs
    · exact ih.trans_le (le_max_right ..)
    · exact ih

theorem finish_le_size (ds : List (Decl ι)) : finish 0 ds ≤ size ds := by
  have hpos := alignment_pos ds
  have hmod := Nat.mod_lt (finish 0 ds + alignment ds - 1) hpos
  have hdiv := Nat.div_add_mod' (finish 0 ds + alignment ds - 1) (alignment ds)
  rw [size]
  omega

/-! ### Layouts -/

variable [DecidableEq ι]

/-- The field of the member of the given name. -/
def fieldOf (ds : List (Decl ι)) (name : ι) : Option Field :=
  ((place 0 ds).find? fun p => p.1 = some name).map Prod.snd

theorem mem_of_fieldOf {ds : List (Decl ι)} {name : ι} {f : Field} (hf : fieldOf ds name = some f) :
    (some name, f) ∈ place 0 ds := by
  obtain ⟨⟨name', f'⟩, hfind, rfl⟩ := Option.map_eq_some_iff.mp hf
  have hname : name' = some name := by simpa using List.find?_some hfind
  exact hname ▸ List.mem_of_find?_eq_some hfind

/-- A structure that has a member of each name and lies in `n` bits. -/
structure Layout (ι : Type*) [DecidableEq ι] (n : ℕ) where
  decls : List (Decl ι)
  declared : ∀ name, (fieldOf decls name).isSome
  fits : size decls ≤ n

namespace Layout

variable {n m : ℕ} (l : Layout ι n) (name : ι)

def field : Field := (fieldOf l.decls name).get (l.declared name)

/-- The value of a member, read as an unsigned number. -/
def read (x : BitVec n) : ℕ := ((l.field name).get x).toNat

/-- The word after an assignment to a member. -/
def assign (value : BitVec m) (x : BitVec n) : BitVec n := (l.field name).set x value

/-- The bit belongs to no member that has a name. -/
def Reserved (i : ℕ) : Prop := ∀ name, ¬(l.field name).Covers i

variable {l name} {name' : ι} (value : BitVec m) (x : BitVec n)

theorem field_mem : (some name, l.field name) ∈ place 0 l.decls :=
  mem_of_fieldOf (Option.some_get (l.declared name)).symm

theorem field_fits : (l.field name).offset + (l.field name).width ≤ n :=
  (le_finish_of_mem_place field_mem).trans ((finish_le_size l.decls).trans l.fits)

theorem field_disjoint (hne : name ≠ name') : (l.field name).Disjoint (l.field name') :=
  disjoint_of_mem_place field_mem field_mem fun heq =>
    hne (Option.some.inj (congrArg Prod.fst heq))

theorem read_assign_self :
    l.read name (l.assign name value x) = value.toNat % 2 ^ (l.field name).width := by
  rw [read, assign, Field.get_set_self field_fits, BitVec.toNat_setWidth]

theorem read_assign_of_ne (hne : name ≠ name') :
    l.read name' (l.assign name value x) = l.read name' x :=
  congrArg BitVec.toNat (Field.get_set_of_disjoint (field_disjoint hne) x value)

theorem getLsbD_assign {i : ℕ} (hi : i < n) : (l.assign name value x).getLsbD i =
    if (l.field name).Covers i then value.getLsbD (i - (l.field name).offset) else x.getLsbD i :=
  Field.getLsbD_set x value hi

theorem getLsbD_assign_of_reserved {i : ℕ} (hi : i < n) (hreserved : l.Reserved i) :
    (l.assign name value x).getLsbD i = x.getLsbD i := by
  rw [getLsbD_assign value x hi, if_neg (hreserved name)]

end Layout

end BitField
