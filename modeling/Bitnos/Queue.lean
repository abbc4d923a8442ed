/-
# The bounded queue `ArrayQueue`

A fixed array with a read position, a write position and a count. Positions and
count are independent fields of type `size_t`, so nothing in the structure ties
them together; `WellFormed` is the relation the operations keep once it holds.
Reading or writing outside the array is undefined in the source and refuses here.
-/

import Mathlib.Data.List.Range
import Mathlib.Data.Nat.ModEq

namespace Bitnos

/-- The error codes of `errorcode.hpp`. -/
inductive Error
  | success
  | indexOutOfRange
  | full
  | empty
  | notImplemented
  | invalidValue
  deriving DecidableEq, Repr

/-- The integer value of an error code. -/
def Error.code : Error → ℕ
  | .success => 0
  | .indexOutOfRange => 1
  | .full => 2
  | .empty => 3
  | .notImplemented => 4
  | .invalidValue => 5

/-- `IsError`. -/
def Error.isError (err : Error) : Bool := err != .success

/-- Increment of a `size_t`, which wraps around. -/
def sizeInc (n : ℕ) : ℕ := if n + 1 = 2 ^ 64 then 0 else n + 1

/-- Decrement of a `size_t`, which wraps around. -/
def sizeDec (n : ℕ) : ℕ := if n = 0 then 2 ^ 64 - 1 else n - 1

theorem sizeInc_of_lt {n m : ℕ} (hn : n < m) (hm : m < 2 ^ 64) : sizeInc n = n + 1 :=
  if_neg (by omega)

theorem sizeDec_of_pos {n : ℕ} (hpos : 0 < n) : sizeDec n = n - 1 :=
  if_neg hpos.ne'

/-- The fields of `ArrayQueue<T, N>`. -/
structure ArrayQueue (T : Type*) (N : ℕ) where
  data : Vector T N
  readPos : ℕ
  writePos : ℕ
  count : ℕ

namespace ArrayQueue

variable {T : Type*} {N : ℕ}

/-- `Push`. Refuses when the write position lies outside the array. -/
def push (q : ArrayQueue T N) (value : T) : Option (Error × ArrayQueue T N) :=
  if q.count = N then
    some (.full, q)
  else if h : q.writePos < N then
    let writePos := sizeInc q.writePos
    some (.success,
      { q with
        data := q.data.set q.writePos value h
        count := sizeInc q.count
        writePos := if writePos = N then 0 else writePos })
  else
    none

/-- `Pop`. -/
def pop (q : ArrayQueue T N) : Error × ArrayQueue T N :=
  if q.count = 0 then
    (.empty, q)
  else
    -- the cell keeps its element, only the position moves
    let readPos := sizeInc q.readPos
    (.success,
      { q with
        count := sizeDec q.count
        readPos := if readPos = N then 0 else readPos })

/-- `Front`. Refuses when the read position lies outside the array. -/
def front (q : ArrayQueue T N) : Option T := q.data[q.readPos]?

/-! ### The elements held -/

/-- The elements at `len` consecutive positions from `start`, going round the
end of the array. -/
def window (q : ArrayQueue T N) (start len : ℕ) : List T :=
  (List.range len).filterMap fun i => q.data[(start + i) % N]?

/-- The elements held, oldest first, read off the read position. -/
def contents (q : ArrayQueue T N) : List T := q.window q.readPos q.count

/-- The elements held, oldest first, read off the write position. Unlike
`contents` it does not move while `Pop` has updated only one of its two fields. -/
def backlog (q : ArrayQueue T N) : List T :=
  q.window (q.writePos + (N - q.count)) q.count

theorem window_mod (q : ArrayQueue T N) (start len : ℕ) :
    q.window (start % N) len = q.window start len := by
  simp only [window, Nat.mod_add_mod]

theorem window_congr {q r : ArrayQueue T N} {start start' len : ℕ} (hdata : q.data = r.data)
    (hstart : start % N = start' % N) : q.window start len = r.window start' len := by
  rw [← window_mod q, ← window_mod r, hstart]
  simp only [window, hdata]

@[simp] theorem window_zero (q : ArrayQueue T N) (start : ℕ) : q.window start 0 = [] := rfl

theorem window_succ (q : ArrayQueue T N) {start len : ℕ} {x : T}
    (hx : q.data[(start + len) % N]? = some x) :
    q.window start (len + 1) = q.window start len ++ [x] := by
  simp [window, List.range_succ, hx]

theorem window_succ_left (q : ArrayQueue T N) {start len : ℕ} {x : T}
    (hx : q.data[start % N]? = some x) :
    q.window start (len + 1) = x :: q.window (start + 1) len := by
  simp only [window, List.range_succ_eq_map, List.filterMap_cons, Nat.add_zero, hx,
    List.filterMap_map]
  congr 2
  funext i
  simp only [Function.comp_apply, Nat.succ_eq_add_one]
  congr 2
  omega

/-- A write outside the window leaves it alone. -/
theorem window_of_agree {q r : ArrayQueue T N} {start len : ℕ}
    (hagree : ∀ i < len, q.data[(start + i) % N]? = r.data[(start + i) % N]?) :
    q.window start len = r.window start len :=
  List.filterMap_congr fun i hi => hagree i (List.mem_range.mp hi)

theorem length_window (q : ArrayQueue T N) (hN : 0 < N) (start len : ℕ) :
    (q.window start len).length = len := by
  induction len with
  | zero => rfl
  | succ len ih =>
    have hlt : (start + len) % N < N := Nat.mod_lt _ hN
    rw [q.window_succ (Vector.getElem?_eq_getElem hlt), List.length_append, ih]
    rfl

@[simp] theorem length_backlog (q : ArrayQueue T N) (hN : 0 < N) :
    q.backlog.length = q.count :=
  q.length_window hN _ _

/-- Distinct offsets below the capacity name distinct positions. -/
theorem offset_ne {start i len : ℕ} (hi : i < len) (hlen : len < N) :
    (start + i) % N ≠ (start + len) % N := by
  intro heq
  have hmod : i ≡ len [MOD N] := Nat.ModEq.add_left_cancel' start heq
  have := hmod.eq_of_lt_of_lt (hi.trans hlen) hlen
  omega

/-! ### The representation invariant -/

/-- Both positions lie in the array and the write position is `count` elements
ahead of the read position. -/
structure WellFormed (q : ArrayQueue T N) : Prop where
  readPos_lt : q.readPos < N
  count_le : q.count ≤ N
  writePos_eq : q.writePos = (q.readPos + q.count) % N

namespace WellFormed

variable {q : ArrayQueue T N}

theorem pos (h : q.WellFormed) : 0 < N := (Nat.zero_le _).trans_lt h.readPos_lt

theorem writePos_lt (h : q.WellFormed) : q.writePos < N := by
  rw [h.writePos_eq]
  exact Nat.mod_lt _ h.pos

end WellFormed

/-! ### What the operations do to the elements held -/

/-- The comparison with the capacity after an increment is reduction modulo it. -/
theorem wrap_eq {n : ℕ} (hn : n < N) : (if n + 1 = N then 0 else n + 1) = (n + 1) % N := by
  split_ifs with heq
  · rw [heq, Nat.mod_self]
  · rw [Nat.mod_eq_of_lt (by omega)]

theorem push_of_full {q : ArrayQueue T N} (hfull : q.count = N) (value : T) :
    q.push value = some (.full, q) :=
  if_pos hfull

theorem push_of_lt {q : ArrayQueue T N} (hN : N < 2 ^ 64) (hcount : q.count < N)
    (hpos : q.writePos < N) (value : T) :
    q.push value = some (.success,
      { q with
        data := q.data.set q.writePos value hpos
        count := q.count + 1
        writePos := (q.writePos + 1) % N }) := by
  have hinc : sizeInc q.writePos = q.writePos + 1 := sizeInc_of_lt hpos hN
  simp only [push, hcount.ne, if_false, hpos, dite_true, hinc, sizeInc_of_lt hcount hN,
    wrap_eq hpos]

/-- A successful `Push` appends its value. -/
theorem backlog_push {q : ArrayQueue T N} (hcount : q.count < N) (hpos : q.writePos < N)
    (value : T) :
    backlog { q with
      data := q.data.set q.writePos value hpos
      count := q.count + 1
      writePos := (q.writePos + 1) % N } = q.backlog ++ [value] := by
  set q' : ArrayQueue T N := { q with
    data := q.data.set q.writePos value hpos
    count := q.count + 1
    writePos := (q.writePos + 1) % N }
  set start := q.writePos + (N - q.count)
  have hstart : ((q.writePos + 1) % N + (N - (q.count + 1))) % N = start % N := by
    rw [Nat.mod_add_mod]
    congr 1
    omega
  -- the window grows by the cell at the write position
  have hlast : (start + q.count) % N = q.writePos := by
    have hsum : start + q.count = q.writePos + N := by omega
    rw [hsum, Nat.add_mod_right, Nat.mod_eq_of_lt hpos]
  have hnew : q'.data[(start + q.count) % N]? = some value := by
    rw [hlast, Vector.getElem?_eq_getElem hpos]
    simp [q']
  calc q'.backlog
      = q'.window start (q.count + 1) := window_congr rfl hstart
    _ = q'.window start q.count ++ [value] := q'.window_succ hnew
    _ = q.window start q.count ++ [value] := by
        congr 1
        -- the cells of the old window are not overwritten
        refine window_of_agree fun i hi => ?_
        have hne : q.writePos ≠ (start + i) % N := hlast ▸ (offset_ne hi hcount).symm
        exact Vector.getElem?_set_ne hpos hne

/-- Removing one element from the count removes the oldest element held. -/
theorem backlog_eq_cons {q : ArrayQueue T N} (hpos : 0 < q.count) (hle : q.count ≤ N)
    {x : T} (hx : q.data[(q.writePos + (N - q.count)) % N]? = some x) :
    q.backlog = x :: backlog { q with count := q.count - 1 } := by
  obtain ⟨len, hlen⟩ : ∃ len, q.count = len + 1 := ⟨q.count - 1, by omega⟩
  have hstart : q.writePos + (N - q.count) + 1 = q.writePos + (N - len) := by omega
  calc q.backlog
      = q.window (q.writePos + (N - q.count)) (len + 1) := by rw [backlog, ← hlen]
    _ = x :: q.window (q.writePos + (N - q.count) + 1) len := q.window_succ_left hx
    _ = x :: backlog { q with count := q.count - 1 } := by
        rw [hstart]
        simp only [backlog, hlen, Nat.add_sub_cancel]
        rfl

/-- A successful `Push` keeps the representation. -/
theorem WellFormed.push {q : ArrayQueue T N} (h : q.WellFormed) (hcount : q.count < N)
    (value : T) :
    WellFormed { q with
      data := q.data.set q.writePos value h.writePos_lt
      count := q.count + 1
      writePos := (q.writePos + 1) % N } where
  readPos_lt := h.readPos_lt
  count_le := hcount
  writePos_eq := by
    change (q.writePos + 1) % N = (q.readPos + (q.count + 1)) % N
    rw [h.writePos_eq, Nat.mod_add_mod, Nat.add_assoc]

/-- The position read by `Front` is where the oldest element held starts. -/
theorem WellFormed.oldest_eq {q : ArrayQueue T N} (h : q.WellFormed) :
    (q.writePos + (N - q.count)) % N = q.readPos := by
  have hle := h.count_le
  calc (q.writePos + (N - q.count)) % N
      = (q.readPos + q.count + (N - q.count)) % N := by rw [h.writePos_eq, Nat.mod_add_mod]
    _ = (q.readPos + N) % N := by congr 1; omega
    _ = q.readPos := by rw [Nat.add_mod_right, Nat.mod_eq_of_lt h.readPos_lt]

theorem WellFormed.backlog_eq {q : ArrayQueue T N} (h : q.WellFormed) :
    q.backlog = q.contents :=
  window_congr rfl (h.oldest_eq.trans (Nat.mod_eq_of_lt h.readPos_lt).symm)

theorem WellFormed.length_contents {q : ArrayQueue T N} (h : q.WellFormed) :
    q.contents.length = q.count :=
  q.length_window h.pos _ _

theorem WellFormed.exists_front {q : ArrayQueue T N} (h : q.WellFormed) : ∃ x, q.front = some x :=
  ⟨_, Vector.getElem?_eq_getElem h.readPos_lt⟩

theorem pop_of_zero {q : ArrayQueue T N} (hcount : q.count = 0) : q.pop = (.empty, q) :=
  if_pos hcount

theorem pop_of_pos {q : ArrayQueue T N} (hN : N < 2 ^ 64) (hcount : 0 < q.count)
    (hpos : q.readPos < N) :
    q.pop = (.success, { q with count := q.count - 1, readPos := (q.readPos + 1) % N }) := by
  have hinc : sizeInc q.readPos = q.readPos + 1 := sizeInc_of_lt hpos hN
  simp only [pop, hcount.ne', if_false, hinc, sizeDec_of_pos hcount, wrap_eq hpos]

/-- A successful `Pop` keeps the representation. -/
theorem WellFormed.pop {q : ArrayQueue T N} (h : q.WellFormed) (hcount : 0 < q.count) :
    WellFormed { q with count := q.count - 1, readPos := (q.readPos + 1) % N } where
  readPos_lt := Nat.mod_lt _ h.pos
  count_le := Nat.sub_le_of_le_add (Nat.le_succ_of_le h.count_le)
  writePos_eq := by
    change q.writePos = ((q.readPos + 1) % N + (q.count - 1)) % N
    rw [h.writePos_eq, Nat.mod_add_mod]
    congr 1
    omega

/-- A successful `Pop` removes the element `Front` shows. -/
theorem WellFormed.contents_pop {q : ArrayQueue T N} (h : q.WellFormed) (hcount : 0 < q.count)
    {x : T} (hx : q.front = some x) :
    q.contents = x :: contents { q with count := q.count - 1, readPos := (q.readPos + 1) % N } := by
  obtain ⟨len, hlen⟩ : ∃ len, q.count = len + 1 := ⟨q.count - 1, by omega⟩
  have hcell : q.data[q.readPos % N]? = some x := by
    rw [Nat.mod_eq_of_lt h.readPos_lt]
    exact hx
  calc q.contents
      = q.window q.readPos (len + 1) := by rw [contents, hlen]
    _ = x :: q.window (q.readPos + 1) len := q.window_succ_left hcell
    _ = x :: contents { q with count := q.count - 1, readPos := (q.readPos + 1) % N } := by
        rw [← window_mod]
        simp only [contents, hlen, Nat.add_sub_cancel]
        rfl

end ArrayQueue

end Bitnos
