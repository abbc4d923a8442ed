/-
# Memory of bytes

Memory gives a byte for every address of a fixed width, and addresses wrap around. A word
of some bytes is stored with its lowest byte first. What a store changes is said in terms
of the distance of an address from the start of the word, which holds across a wrap.
-/

import Mathlib.Logic.Function.Basic
import Mathlib.Algebra.Order.Group.Nat

namespace Bytes

variable {w n : ℕ}

/-- Memory with addresses of `w` bits. -/
abbrev Memory (w : ℕ) := BitVec w → BitVec 8

variable {mem : Memory w} {addr p : BitVec w}

/-- The word of `n` bytes at an address. -/
def load (mem : Memory w) (addr : BitVec w) : (n : ℕ) → BitVec (8 * n)
  | 0 => 0#0
  | n + 1 => load mem (addr + 1) n ++ mem addr

/-- Memory after a word of `n` bytes has been stored at an address. -/
def store (mem : Memory w) (addr : BitVec w) (value : BitVec (8 * n)) : Memory w := fun p =>
  if (p - addr).toNat < n then value.extractLsb' (8 * (p - addr).toNat) 8 else mem p

/-! ### Loads -/

theorem ofNat_succ_add (addr : BitVec w) (i : ℕ) :
    addr + 1 + BitVec.ofNat w i = addr + BitVec.ofNat w (i + 1) := by
  have hone : (1 : BitVec w) = BitVec.ofNat w 1 := rfl
  rw [BitVec.add_assoc, hone, ← BitVec.ofNat_add, Nat.add_comm 1 i]

/-- A bit of a word is a bit of one of its bytes. -/
theorem getLsbD_load {i : ℕ} (hi : i < 8 * n) : (load mem addr n).getLsbD i =
    (mem (addr + BitVec.ofNat w (i / 8))).getLsbD (i % 8) := by
  induction n generalizing addr i with
  | zero => omega
  | succ n ih =>
    rw [load, BitVec.getLsbD_append]
    by_cases hlow : i < 8
    · rw [if_pos hlow, Nat.div_eq_of_lt hlow, Nat.mod_eq_of_lt hlow, BitVec.add_zero]
    · rw [if_neg hlow, ih (by omega), ofNat_succ_add]
      have hdiv : (i - 8) / 8 + 1 = i / 8 := by omega
      have hmod : (i - 8) % 8 = i % 8 := by omega
      rw [hdiv, hmod]

/-- A byte of a word. -/
theorem extractLsb'_load {i : ℕ} (hi : i < n) :
    (load mem addr n).extractLsb' (8 * i) 8 = mem (addr + BitVec.ofNat w i) := by
  apply BitVec.eq_of_getLsbD_eq
  intro j hj
  have hdiv : (8 * i + j) / 8 = i := by omega
  have hmod : (8 * i + j) % 8 = j := by omega
  rw [BitVec.getLsbD_extractLsb', decide_eq_true hj, Bool.true_and, getLsbD_load (by omega), hdiv, hmod]

/-- Words of the same bytes are the same, wherever they are. -/
theorem load_congr_of_bytes {mem' : Memory w} {addr' : BitVec w}
    (h : ∀ i < n, mem (addr + BitVec.ofNat w i) = mem' (addr' + BitVec.ofNat w i)) :
    load mem addr n = load mem' addr' n := by
  apply BitVec.eq_of_getLsbD_eq
  intro i hi
  rw [getLsbD_load hi, getLsbD_load hi, h _ (Nat.div_lt_of_lt_mul hi)]

/-- A word depends on its bytes alone. -/
theorem load_congr {mem' : Memory w}
    (h : ∀ i < n, mem (addr + BitVec.ofNat w i) = mem' (addr + BitVec.ofNat w i)) :
    load mem addr n = load mem' addr n := load_congr_of_bytes h

/-- A word tells its bytes. -/
theorem load_inj {mem' : Memory w} : load mem addr n = load mem' addr n ↔
    ∀ i < n, mem (addr + BitVec.ofNat w i) = mem' (addr + BitVec.ofNat w i) := by
  refine ⟨fun h i hi => ?_, load_congr⟩
  have hbyte := congrArg (·.extractLsb' (8 * i) 8) h
  simpa only [extractLsb'_load hi] using hbyte

theorem load_eq_zero (h : ∀ i < n, mem (addr + BitVec.ofNat w i) = 0#8) :
    load mem addr n = 0#(8 * n) := by
  apply BitVec.eq_of_getLsbD_eq
  intro i hi
  rw [getLsbD_load hi, h _ (Nat.div_lt_of_lt_mul hi), BitVec.getLsbD_zero, BitVec.getLsbD_zero]

/-- The words that begin and end a longer word. -/
theorem getLsbD_load_add {m i : ℕ} (hi : i < 8 * m) :
    (load mem (addr + BitVec.ofNat w n) m).getLsbD i = (load mem addr (n + m)).getLsbD (8 * n + i) := by
  have hdiv : (8 * n + i) / 8 = n + i / 8 := by omega
  have hmod : (8 * n + i) % 8 = i % 8 := by omega
  rw [getLsbD_load hi, getLsbD_load (by omega), hdiv, hmod, BitVec.add_assoc, ← BitVec.ofNat_add]

@[inherit_doc getLsbD_load_add]
theorem getLsbD_load_of_lt {m i : ℕ} (hi : i < 8 * n) :
    (load mem addr n).getLsbD i = (load mem addr (n + m)).getLsbD i := by
  rw [getLsbD_load hi, getLsbD_load (by omega)]

/-! ### Stores -/

theorem store_of_le (hp : n ≤ (p - addr).toNat) (value : BitVec (8 * n)) :
    store mem addr value p = mem p := if_neg (Nat.not_lt_of_le hp)

/-- An address is as far from another one as the distance says. -/
theorem add_distance (addr p : BitVec w) : addr + BitVec.ofNat w (p - addr).toNat = p := by
  rw [BitVec.ofNat_toNat, BitVec.setWidth_eq, BitVec.add_comm, BitVec.sub_add_cancel]

/-- The bytes of a word lie one after another. -/
theorem toNat_add_sub (hn : n ≤ 2 ^ w) {i : ℕ} (hi : i < n) :
    (addr + BitVec.ofNat w i - addr).toNat = i := by
  rw [BitVec.add_comm, BitVec.add_sub_cancel, BitVec.toNat_ofNat, Nat.mod_eq_of_lt (by omega)]

/-- The address at a distance. -/
theorem eq_add_iff {i : ℕ} (hi : i < 2 ^ w) : p = addr + BitVec.ofNat w i ↔ (p - addr).toNat = i := by
  constructor
  · rintro rfl
    exact toNat_add_sub le_rfl hi
  · intro hp
    rw [← hp, add_distance]

theorem store_add (hn : n ≤ 2 ^ w) (value : BitVec (8 * n)) {i : ℕ} (hi : i < n) :
    store mem addr value (addr + BitVec.ofNat w i) = value.extractLsb' (8 * i) 8 := by
  rw [store, toNat_add_sub hn hi, if_pos hi]

/-- What was stored is loaded. -/
theorem load_store_self (hn : n ≤ 2 ^ w) (value : BitVec (8 * n)) :
    load (store mem addr value) addr n = value := by
  apply BitVec.eq_of_getLsbD_eq
  intro i hi
  have hmod : i % 8 < 8 := Nat.mod_lt _ (by omega)
  rw [getLsbD_load hi, store_add hn value (Nat.div_lt_of_lt_mul hi), BitVec.getLsbD_extractLsb',
    decide_eq_true hmod, Bool.true_and, Nat.div_add_mod]

/-- The distance of an address from the end of a word, from its distance from the start. -/
theorem toNat_sub_add (hn : n ≤ 2 ^ w) : (p - (addr + BitVec.ofNat w n)).toNat =
    if (p - addr).toNat < n then 2 ^ w - n + (p - addr).toNat else (p - addr).toNat - n := by
  have hsub : p - (addr + BitVec.ofNat w n) = (p - addr) - BitVec.ofNat w n := by grind
  have hlt := (p - addr).isLt
  rw [hsub, BitVec.toNat_sub, BitVec.toNat_ofNat]
  rcases hn.lt_or_eq with hn | rfl
  · rw [Nat.mod_eq_of_lt hn]
    split_ifs with hd
    · exact Nat.mod_eq_of_lt (by omega)
    · have hdist : 2 ^ w - n + (p - addr).toNat = 2 ^ w + ((p - addr).toNat - n) := by omega
      rw [hdist, Nat.add_mod_left, Nat.mod_eq_of_lt (by omega)]
  · rw [if_pos hlt, Nat.mod_self, Nat.sub_zero, Nat.add_mod_left, Nat.mod_eq_of_lt hlt, Nat.sub_self,
      Nat.zero_add]

/-- A byte of a part of a word is a byte of the word. -/
theorem extractLsb'_part {v : ℕ} (value : BitVec v) {start k m : ℕ} (hk : k + 8 ≤ m) :
    (value.extractLsb' start m).extractLsb' k 8 = value.extractLsb' (start + k) 8 := by
  ext i hi
  have hlt : k + i < m := by omega
  simp [hlt, Nat.add_assoc]

/-- A word may be stored as two shorter ones, one behind the other. -/
theorem store_eq_store_store {m : ℕ} (hm : n + m ≤ 2 ^ w) (value : BitVec (8 * (n + m))) :
    store mem addr value = store (n := m) (store (n := n) mem addr (value.extractLsb' 0 (8 * n)))
      (addr + BitVec.ofNat w n) (value.extractLsb' (8 * n) (8 * m)) := by
  funext p
  have hdist : (p - (addr + BitVec.ofNat w n)).toNat = _ := toNat_sub_add (by omega)
  simp only [store]
  by_cases hlow : (p - addr).toNat < n
  · rw [if_pos hlow] at hdist
    have hout : ¬ (p - (addr + BitVec.ofNat w n)).toNat < m := by omega
    rw [if_pos (Nat.lt_add_right m hlow), if_neg hout, if_pos hlow,
      extractLsb'_part _ (by omega), Nat.zero_add]
  · rw [if_neg hlow] at hdist
    by_cases hhigh : (p - addr).toNat < n + m
    · have hin : (p - (addr + BitVec.ofNat w n)).toNat < m := by omega
      have hbyte : 8 * n + 8 * (p - (addr + BitVec.ofNat w n)).toNat = 8 * (p - addr).toNat := by
        omega
      rw [if_pos hhigh, if_pos hin, extractLsb'_part _ (by omega), hbyte]
    · have hout : ¬ (p - (addr + BitVec.ofNat w n)).toNat < m := by omega
      rw [if_neg hhigh, if_neg hout, if_neg hlow]

/-! ### Aligned blocks -/

/-- Of two blocks of the same size, a power of two, at aligned addresses, the bytes of one are not
among those of the other. -/
theorem le_distance_of_aligned {k i : ℕ} (hk : k ≤ w) {q : BitVec w} (hp : 2 ^ k ∣ p.toNat)
    (hq : 2 ^ k ∣ q.toNat) (hne : p ≠ q) (hi : i < 2 ^ k) :
    2 ^ k ≤ (p + BitVec.ofNat w i - q).toNat := by
  have hspace : 2 ^ k ∣ 2 ^ w := Nat.pow_dvd_pow 2 hk
  have hle := Nat.le_of_dvd (Nat.two_pow_pos w) hspace
  have hlt := (p - q).isLt
  have hdvd : 2 ^ k ∣ (p - q).toNat := by
    rw [BitVec.toNat_sub, Nat.dvd_mod_iff hspace]
    exact Nat.dvd_add (Nat.dvd_sub hspace hq) hp
  have hpos : (p - q).toNat ≠ 0 := by
    intro hzero
    have hsame := add_distance q p
    rw [hzero, BitVec.add_zero] at hsame
    exact hne hsame.symm
  have hfirst := Nat.le_of_dvd (Nat.pos_of_ne_zero hpos) hdvd
  -- the last block ends where the address space does
  have hlast : (p - q).toNat + 2 ^ k ≤ 2 ^ w :=
    Nat.le_of_lt_add_of_dvd (by omega) (Nat.dvd_add hdvd (Nat.dvd_refl _)) hspace
  have hsub : p + BitVec.ofNat w i - q = (p - q) + BitVec.ofNat w i := by grind
  rw [hsub, BitVec.toNat_add, BitVec.toNat_ofNat, Nat.mod_eq_of_lt (by omega : i < 2 ^ w),
    Nat.mod_eq_of_lt (by omega)]
  omega

/-! ### Offsets from a common base -/

section Offsets

variable {base : BitVec w} {a b m : ℕ}

/-- A store leaves the bytes before and behind its word alone. -/
theorem store_of_offset (ha : a < 2 ^ w) (hb : b + n ≤ 2 ^ w) (hout : a < b ∨ b + n ≤ a)
    (value : BitVec (8 * n)) :
    store mem (base + BitVec.ofNat w b) value (base + BitVec.ofNat w a) =
      mem (base + BitVec.ofNat w a) := by
  apply store_of_le
  have hcancel : base + BitVec.ofNat w a - (base + BitVec.ofNat w b) =
      BitVec.ofNat w a - BitVec.ofNat w b := by grind
  rcases Nat.eq_zero_or_pos n with rfl | hn
  · exact Nat.zero_le _
  have hmod : b % 2 ^ w = b := Nat.mod_eq_of_lt (by omega)
  rw [hcancel, BitVec.toNat_sub, BitVec.toNat_ofNat, BitVec.toNat_ofNat, Nat.mod_eq_of_lt ha, hmod]
  rcases hout with hbefore | hbehind
  · -- round the end of the address space, the word is still to come
    rw [Nat.mod_eq_of_lt (by omega)]
    omega
  · have hdist : 2 ^ w - b + a = 2 ^ w + (a - b) := by omega
    rw [hdist, Nat.add_mod_left, Nat.mod_eq_of_lt (by omega)]
    omega

/-- A store does not disturb the words before and behind it. -/
theorem load_store_of_disjoint (ha : a + m ≤ 2 ^ w) (hb : b + n ≤ 2 ^ w)
    (hout : a + m ≤ b ∨ b + n ≤ a) (value : BitVec (8 * n)) :
    load (store mem (base + BitVec.ofNat w b) value) (base + BitVec.ofNat w a) m =
      load mem (base + BitVec.ofNat w a) m := by
  apply load_congr
  intro i hi
  have hoffset : base + BitVec.ofNat w a + BitVec.ofNat w i = base + BitVec.ofNat w (a + i) := by
    rw [BitVec.add_assoc, ← BitVec.ofNat_add]
  rw [hoffset]
  exact store_of_offset (by omega) hb (by omega) value

end Offsets

end Bytes
