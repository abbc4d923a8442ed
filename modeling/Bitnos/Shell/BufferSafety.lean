/-
# The line buffer and the token buffer

What a run of the shell does to its buffers. The cursor bounds the stores of `PutChar`
and the length of the line, and `Exec` reads the line without leaving it. The loops that
fill the copy of the line also store to `argv`, so they stay in their buffers exactly when
the arguments of the line fit there.
-/

import Bitnos.Shell.ArgvBound

namespace Bitnos

open PartialRun

/-- A string ends where its first zero byte is. -/
theorem getElem?_length_takeWhile {s : List (BitVec 8)} (hnul : Ascii.nul ∈ s) :
    s[(s.takeWhile (· != Ascii.nul)).length]? = some Ascii.nul := by
  induction s with
  | nil => cases hnul
  | cons ch s ih =>
    by_cases hch : ch = Ascii.nul
    · subst hch
      rfl
    · rw [List.takeWhile_cons_of_pos (by simpa using hch), List.length_cons, List.getElem?_cons_succ]
      exact ih ((List.mem_cons.mp hnul).resolve_left (Ne.symm hch))

/-! ### Reads of the line -/

namespace Splitter

variable {text text' : List (BitVec 8)} {st : Splitter} {p : BitVec 8 → Bool}
  {f : BitVec 8 → BitVec 8}

/-- The indices at which an inner loop reads the line. It does so only once `i < len` has
been tested. -/
def scanReads (p : BitVec 8 → Bool) (f : BitVec 8 → BitVec 8) (text : List (BitVec 8)) :
    ℕ → Splitter → List ℕ
  | 0, _ => []
  | n + 1, st =>
    st.i :: match text[st.i]? with
      | some ch => if p ch then scanReads p f text n (st.store (f ch)) else []
      | none => []

/-- The reads of the loop over spaces. -/
def skipReads (text : List (BitVec 8)) (st : Splitter) : List ℕ :=
  scanReads (· == Ascii.space) (fun _ => Ascii.nul) text (text.length - st.i) st

/-- The reads of the loop over the characters of an argument. -/
def copyReads (text : List (BitVec 8)) (st : Splitter) : List ℕ :=
  scanReads (· != Ascii.space) (fun ch => ch) text (text.length - st.i) st

/-- The reads of the outer loop. -/
def splitReads (text : List (BitVec 8)) : ℕ → Splitter → List ℕ
  | 0, _ => []
  | fuel + 1, st =>
    let skipped := skipSpaces text st
    skipReads text st ++
      if skipped.i > text.length then []
      else
        copyReads text { skipped with argv := skipped.argv ++ [skipped.i] } ++
          splitReads text fuel (round text st)

theorem scanReads_lt {n : ℕ} (hn : n = text.length - st.i) :
    ∀ k ∈ scanReads p f text n st, k < text.length := by
  induction n generalizing st with
  | zero => exact List.forall_mem_nil _
  | succ n ih =>
    -- the loop is entered only while `i < len`
    have hlt : st.i < text.length := by omega
    rw [scanReads, List.getElem?_eq_getElem hlt]
    refine List.forall_mem_cons.mpr ⟨hlt, ?_⟩
    dsimp only
    split_ifs
    · exact ih (by rw [store_i]; omega)
    · exact List.forall_mem_nil _

theorem splitReads_lt (fuel : ℕ) : ∀ k ∈ splitReads text fuel st, k < text.length := by
  induction fuel generalizing st with
  | zero => exact List.forall_mem_nil _
  | succ fuel ih =>
    rw [splitReads]
    refine List.forall_mem_append.mpr ⟨scanReads_lt rfl, ?_⟩
    split_ifs
    · exact List.forall_mem_nil _
    · exact List.forall_mem_append.mpr ⟨scanReads_lt rfl, ih⟩

/-- An inner loop depends on the line where it reads it. -/
theorem scan_congr {n : ℕ} (h : ∀ k ∈ scanReads p f text n st, text[k]? = text'[k]?) :
    scan p f text n st = scan p f text' n st := by
  induction n generalizing st with
  | zero => rfl
  | succ n ih =>
    rw [scanReads, List.forall_mem_cons] at h
    obtain ⟨hfirst, hrest⟩ := h
    rw [scan, scan, ← hfirst]
    cases hch : text[st.i]? with
    | none => rfl
    | some ch =>
      rw [hch] at hrest
      dsimp only at hrest ⊢
      split_ifs with hp
      · rw [if_pos hp] at hrest
        exact ih hrest
      · rfl

/-- So do all the loops together. -/
theorem splitLoop_congr (hlen : text.length = text'.length) {fuel : ℕ}
    (h : ∀ k ∈ splitReads text fuel st, text[k]? = text'[k]?) :
    splitLoop text fuel st = splitLoop text' fuel st := by
  induction fuel generalizing st with
  | zero => rfl
  | succ fuel ih =>
    rw [splitReads] at h
    obtain ⟨hskipReads, h⟩ := List.forall_mem_append.mp h
    have hskip : skipSpaces text st = skipSpaces text' st := by
      rw [skipSpaces, skipSpaces, ← hlen]
      exact scan_congr hskipReads
    -- the test `i > len` comes out the same, and so does the rest of the round
    rw [splitLoop_succ, splitLoop_succ, ← hskip, ← hlen]
    split_ifs with hend
    · rfl
    · rw [if_neg hend] at h
      obtain ⟨hcopyReads, h⟩ := List.forall_mem_append.mp h
      have hround : round text st = round text' st := by
        rw [round, round, copyWord, copyWord, ← hskip, ← hlen]
        exact congrArg (·.store Ascii.nul) (scan_congr hcopyReads)
      rw [← hround]
      exact ih h

/-! ### The loops with their array -/

/-- `argv[argc++] = s + i`. Behind the end of the array the store is undefined. -/
def storeArg (st : Splitter) : Option Splitter :=
  if st.argv.length < kMaxArgs then some { st with argv := st.argv ++ [st.i] } else none

/-- The outer loop, as far as it is defined. -/
def checkedLoop (text : List (BitVec 8)) : ℕ → Splitter → Option Splitter
  | 0, _ => none
  | fuel + 1, st =>
    let st := skipSpaces text st
    if st.i > text.length then
      some st
    else
      st.storeArg.bind fun st => checkedLoop text fuel ((copyWord text st).store Ascii.nul)

/-- An inner loop stores to `s` only. -/
@[simp] theorem argv_scan {n : ℕ} : (scan p f text n st).argv = st.argv := by
  induction n generalizing st with
  | zero => rfl
  | succ n ih =>
    rw [scan]
    split
    · split_ifs
      · rw [ih, store_argv]
      · rfl
    · rfl

@[simp] theorem argv_skipSpaces : (skipSpaces text st).argv = st.argv := argv_scan

theorem length_argv_round : (round text st).argv.length = st.argv.length + 1 := by
  simp [round, copyWord]

/-- Arguments are never taken back. -/
theorem length_argv_le {st' : Splitter} {fuel : ℕ} (hloop : splitLoop text fuel st = some st') :
    st.argv.length ≤ st'.argv.length := by
  induction fuel generalizing st with
  | zero => cases hloop
  | succ fuel ih =>
    rw [splitLoop_succ] at hloop
    split_ifs at hloop
    · obtain rfl := Option.some.inj hloop
      rw [argv_skipSpaces]
    · have hrest := ih hloop
      rw [length_argv_round] at hrest
      omega

/-- The loop is defined to its end if what it leaves in `argv` has room there. -/
theorem checkedLoop_eq_some_iff {st' : Splitter} {fuel : ℕ} (hroom : st.argv.length ≤ kMaxArgs) :
    checkedLoop text fuel st = some st' ↔
      splitLoop text fuel st = some st' ∧ st'.argv.length ≤ kMaxArgs := by
  induction fuel generalizing st with
  | zero => simp [checkedLoop, splitLoop]
  | succ fuel ih =>
    rw [checkedLoop, splitLoop_succ]
    split_ifs with hend
    · refine (and_iff_left_of_imp fun heq => ?_).symm
      rw [← Option.some.inj heq, argv_skipSpaces]
      exact hroom
    · rw [← @argv_skipSpaces text st] at hroom
      rcases hroom.lt_or_eq with hlt | hfull
      · rw [storeArg, if_pos hlt, Option.bind_some]
        exact ih (length_argv_round.trans_le (by rwa [argv_skipSpaces] at hlt))
      · -- the array is full, and the next round stores one more argument
        rw [storeArg, if_neg hfull.not_lt, Option.bind_none]
        refine iff_of_false nofun ?_
        rintro ⟨hloop, hle⟩
        have hmore := length_argv_le hloop
        rw [length_argv_round] at hmore
        rw [argv_skipSpaces] at hfull
        omega

end Splitter

open Splitter

/-- The splitting part of `Exec`, as far as it is defined. -/
def checkedSplit (text : List (BitVec 8)) : Option Splitter :=
  checkedLoop text (text.length + 2) ⟨0, [], []⟩

theorem checkedSplit_eq_some_iff {text : List (BitVec 8)} {st : Splitter} :
    checkedSplit text = some st ↔ split text = some st ∧ st.argv.length ≤ kMaxArgs :=
  checkedLoop_eq_some_iff (Nat.zero_le _)

/-! ### The copy of a line -/

/-- What the splitting loops leave of a line. The buffer `s` has exactly one byte more than
the line. -/
structure Tokenized (text : List (BitVec 8)) (st : Splitter) : Prop where
  indices : st.stores.map Prod.fst = List.range (text.length + 1)
  buffer : ∀ garbage, garbage.length = text.length + 1 →
    st.stores.foldl (fun s entry => s.set entry.1 entry.2) garbage =
      text.map separated ++ [Ascii.nul]
  argc_pos : 0 < st.argv.length
  inside : ∀ o ∈ st.argv, o ≤ text.length
  terminated : ∀ o ∈ st.argv,
    let s := text.map separated ++ [Ascii.nul]
    s[o + (stringAt s o).length]? = some Ascii.nul
  plain : ∀ o ∈ st.argv, Ascii.space ∉ stringAt (text.map separated ++ [Ascii.nul]) o

theorem separated_ne_space (ch : BitVec 8) : separated ch ≠ Ascii.space := by
  rw [separated]
  split_ifs with hch
  · decide
  · exact hch

theorem space_not_mem_stringAt (text : List (BitVec 8)) (o : ℕ) :
    Ascii.space ∉ stringAt (text.map separated ++ [Ascii.nul]) o := by
  intro hmem
  have hs := List.mem_of_mem_drop (List.takeWhile_subset _ hmem)
  rcases List.mem_append.mp hs with hcopied | hend
  · obtain ⟨ch, -, hch⟩ := List.mem_map.mp hcopied
    exact separated_ne_space ch hch
  · exact absurd (List.mem_singleton.mp hend) (by decide)

/-- A string that starts inside the copy ends inside it. -/
theorem getElem?_stringAt_end {text : List (BitVec 8)} {o : ℕ} (ho : o ≤ text.length) :
    let s := text.map separated ++ [Ascii.nul]
    s[o + (stringAt s o).length]? = some Ascii.nul := by
  intro s
  have hnul : Ascii.nul ∈ s.drop o := by
    rw [List.drop_append_of_le_length (by simpa using ho)]
    exact List.mem_append_right _ List.mem_cons_self
  rw [← List.getElem?_drop]
  exact getElem?_length_takeWhile hnul

/-- The loops end for every line. -/
theorem split_tokenized (text : List (BitVec 8)) : ∃ st, split text = some st ∧ Tokenized text st := by
  obtain ⟨st, hsplit, hfilled, hi, hbound, hwords⟩ := split_spec text
  refine ⟨st, hsplit, ?_, ?_, ?_, hbound, ?_, ?_⟩
  · rw [hfilled, hi, List.map_map]
    exact List.map_id _
  · intro garbage hgarbage
    rw [hfilled, hi, foldl_set _ _ hgarbage.ge, List.drop_eq_nil_of_le hgarbage.le, List.append_nil,
      map_cellAt]
  · rw [← List.length_map (wordAt text), hwords, argsOf_eq]
    exact Nat.succ_pos _
  · exact fun o ho => getElem?_stringAt_end (hbound o ho)
  · exact fun o _ => space_not_mem_stringAt text o

/-! ### The line buffer -/

/-- The indices at which `Exec` reads `buf_`: those of `strlen`, and of the loops if the line
is not empty. -/
def execReads (text : List (BitVec 8)) : List ℕ :=
  List.range (text.length + 1) ++
    if text.length = 0 then [] else splitReads text (text.length + 2) ⟨0, [], []⟩

theorem execReads_le {text : List (BitVec 8)} : ∀ k ∈ execReads text, k ≤ text.length := by
  refine List.forall_mem_append.mpr ⟨fun k hk => Nat.le_of_lt_succ (List.mem_range.mp hk), ?_⟩
  split_ifs
  · exact List.forall_mem_nil _
  · exact fun k hk => (splitReads_lt _ k hk).le

/-- `Exec` finds a string in the buffer and stays in it while it reads. -/
def ReadsInLine (buf : Vector (BitVec 8) kLineLength) : Prop :=
  ∃ text, execLine buf = some text ∧ text.length ≤ kLineLength - 1 ∧
    ∀ k ∈ execReads text, k < kLineLength

/-- If the string is not empty, the loops of `Exec` are defined to their end and copy it. -/
def SplitsInArray (buf : Vector (BitVec 8) kLineLength) : Prop :=
  ∀ text, execLine buf = some text → text ≠ [] →
    ∃ st, checkedSplit text = some st ∧ Tokenized text st

/-- `Exec` stays in a buffer with a zero byte. -/
theorem readsInLine_of_mem {buf : Vector (BitVec 8) kLineLength} (hnul : Ascii.nul ∈ buf.toList) :
    ReadsInLine buf := by
  have hlen : (buf.toList.takeWhile (· != Ascii.nul)).length < kLineLength := by
    obtain ⟨hlt, -⟩ := List.getElem?_eq_some_iff.mp (getElem?_length_takeWhile hnul)
    simpa using hlt
  refine ⟨_, if_pos hnul, Nat.le_sub_one_of_lt hlen, fun k hk => ?_⟩
  exact (execReads_le k hk).trans_lt hlen

/-- A line is copied exactly when `argv` has room for its arguments. -/
theorem exists_tokenized_iff {text : List (BitVec 8)} (htext : text ≠ []) :
    (∃ st, checkedSplit text = some st ∧ Tokenized text st) ↔ argumentCount text ≤ kMaxArgs := by
  constructor
  · rintro ⟨st, hchecked, -⟩
    obtain ⟨hsplit, hle⟩ := checkedSplit_eq_some_iff.mp hchecked
    rwa [← length_argv htext hsplit]
  · intro hle
    obtain ⟨st, hsplit, htokenized⟩ := split_tokenized text
    rw [← length_argv htext hsplit] at hle
    exact ⟨st, checkedSplit_eq_some_iff.mpr ⟨hsplit, hle⟩, htokenized⟩

theorem splitsInArray_iff {buf : Vector (BitVec 8) kLineLength} :
    SplitsInArray buf ↔ ∀ text, execLine buf = some text → argumentCount text ≤ kMaxArgs := by
  refine forall₂_congr fun text _ => ?_
  constructor
  · intro hsplits
    by_cases hempty : text = []
    · rw [hempty]
      exact Nat.zero_le _
    · exact (exists_tokenized_iff hempty).mp (hsplits hempty)
  · exact fun hle htext => (exists_tokenized_iff htext).mpr hle

namespace DebugShell

variable {shell : DebugShell} {ch : BitVec 8}

/-- The indices at which `PutChar` stores to `buf_`. -/
def stores (shell : DebugShell) (ch : BitVec 8) : List ℕ :=
  if shell.cur > kLineLength - 1 then []
  else if ch = Ascii.newline then [shell.cur]
  else if ch = Ascii.backspace then []
  else [shell.cur]

/-- The rest of the buffer stays as it is. -/
theorem buf_putChar_of_not_mem {k : ℕ} (hk : k ∉ shell.stores ch) :
    (shell.putChar ch).2.buf.toList[k]? = shell.buf.toList[k]? := by
  rcases Nat.lt_or_ge shell.cur kLineLength with hlt | hfull
  · have hroom : ¬ shell.cur > kLineLength - 1 := mt full_iff.mp hlt.not_ge
    rw [stores, if_neg hroom] at hk
    rcases DebugConsole.char_cases ch with rfl | rfl | ⟨hn, hb⟩
    · rw [putChar_newline hlt]
      simp only [Vector.toList_set]
      exact List.getElem?_set_ne (fun heq => hk (by simp [heq]))
    · by_cases hempty : shell.cur = 0
      · rw [putChar_backspace_empty hempty]
      · rw [putChar_backspace hlt hempty]
    · rw [if_neg hn, if_neg hb] at hk
      rw [putChar_ordinary hlt hn hb]
      simp only [Vector.toList_set]
      exact List.getElem?_set_ne (fun heq => hk (by simp [heq]))
  · rw [putChar_full hfull]

theorem stores_lt : ∀ k ∈ shell.stores ch, k < kLineLength := by
  intro k hk
  rw [stores] at hk
  split_ifs at hk with hfull hn hb
  · cases hk
  · exact List.mem_singleton.mp hk ▸ Nat.lt_of_not_le (mt full_iff.mpr hfull)
  · cases hk
  · exact List.mem_singleton.mp hk ▸ Nat.lt_of_not_le (mt full_iff.mpr hfull)

/-- The shell after one more character. -/
def typeStep (shell : DebugShell) (ch : BitVec 8) : Option DebugShell := some (shell.putChar ch).2

/-- The next character leaves the cursor in its range, and what it does to the line buffer stays
inside. -/
structure Confined (shell : DebugShell) (ch : BitVec 8) : Prop where
  cur_le : shell.cur ≤ kLineLength
  next_le : (shell.putChar ch).2.cur ≤ kLineLength
  stores_lt : ∀ k ∈ shell.stores ch, k < kLineLength
  exec : ∀ buf, .exec buf ∈ (shell.putChar ch).1 → ReadsInLine buf

/-- The next character is safe for all buffers. -/
structure Safe (shell : DebugShell) (ch : BitVec 8) : Prop extends Confined shell ch where
  split : ∀ buf, .exec buf ∈ (shell.putChar ch).1 → SplitsInArray buf

variable {typed : List (BitVec 8)}

theorem confined_of_cur_le (hcur : shell.cur ≤ kLineLength) : shell.Confined ch where
  cur_le := hcur
  next_le := cur_putChar_le hcur
  stores_lt := DebugShell.stores_lt
  exec buf hexec := by
    obtain ⟨-, hlt, rfl⟩ := exec_mem_putChar.mp hexec
    refine readsInLine_of_mem ?_
    have hlt' : shell.cur < shell.buf.toList.length := by simpa using hlt
    rw [Vector.toList_set]
    exact List.mem_set hlt' Ascii.nul

/-- What remains to be asked is that the arguments of a line that is run fit `argv`. -/
theorem safe_iff (hcur : shell.cur ≤ kLineLength) : shell.Safe ch ↔
    ∀ line, (∃ buf, .exec buf ∈ (shell.putChar ch).1 ∧ execLine buf = some line) →
      argumentCount line ≤ kMaxArgs := by
  constructor
  · rintro hsafe line ⟨buf, hexec, hline⟩
    exact splitsInArray_iff.mp (hsafe.split buf hexec) line hline
  · intro hfits
    refine ⟨confined_of_cur_le hcur, fun buf hexec => splitsInArray_iff.mpr fun line hline => ?_⟩
    exact hfits line ⟨buf, hexec, hline⟩

/-- All along a run the line buffer is kept to. -/
theorem eachStep_confined (hcur : shell.cur ≤ kLineLength) :
    EachStep typeStep Confined shell typed := by
  refine eachStep_of_invariant (I := fun shell => shell.cur ≤ kLineLength) ?_ ?_ hcur
  · rintro s ch _ hs ⟨⟩
    exact cur_putChar_le hs
  · exact fun s ch hs => confined_of_cur_le hs

/-- A run is safe when the arguments of every line it runs fit. -/
theorem eachStep_safe_iff (hcur : shell.cur ≤ kLineLength) : EachStep typeStep Safe shell typed ↔
    ∀ line, Executes shell typed line → argumentCount line ≤ kMaxArgs := by
  induction typed generalizing shell with
  | nil =>
    refine iff_of_true trivial ?_
    rintro line ⟨buf, hmem, -⟩
    exact absurd hmem List.not_mem_nil
  | cons ch typed ih =>
    have hcur' : (shell.putChar ch).2.cur ≤ kLineLength := cur_putChar_le hcur
    simp only [executes_cons, or_imp, forall_and, ← ih hcur', ← safe_iff hcur]
    refine and_congr_right fun _ => ?_
    constructor
    · exact fun hlater => hlater _ rfl
    · rintro hlater _ ⟨⟩
      exact hlater

end DebugShell

/-- **Safety of the buffers.** Whatever is typed into a new shell, the cursor and all accesses keep
to the line buffer, where `Exec` always finds a string. That every line run is copied into its buffer
byte by byte, with arguments that are strings inside it, holds exactly when no line run has more
than 128 arguments, the empty one after a final space included: one more is stored behind `argv`. -/
theorem buffers_safe_iff (garbage : Vector (BitVec 8) kLineLength) (typed : List (BitVec 8)) :
    EachStep DebugShell.typeStep DebugShell.Confined (DebugShell.construct garbage).2 typed ∧
      (EachStep DebugShell.typeStep DebugShell.Safe (DebugShell.construct garbage).2 typed ↔
        ∀ before after, typed = before ++ Ascii.newline :: after →
          (keptText before).length < kLineLength →
          argumentCount ((keptText before).takeWhile (· != Ascii.nul)) ≤ kMaxArgs) := by
  have hcur : (DebugShell.construct garbage).2.cur ≤ kLineLength := Nat.zero_le _
  refine ⟨DebugShell.eachStep_confined hcur, ?_⟩
  rw [DebugShell.eachStep_safe_iff hcur]
  simp only [DebugShell.executes_iff hcur]
  constructor
  · exact fun hfits before after htyped hlt => hfits _ ⟨before, after, htyped, hlt, rfl⟩
  · rintro hfits _ ⟨before, after, htyped, hlt, rfl⟩
    exact hfits before after htyped hlt

/-- 129 arguments, the last of them empty. -/
theorem not_buffers_safe :
    let typed := (List.replicate 128 [0x61, Ascii.space]).flatten ++ [Ascii.newline]
    let shell := (DebugShell.construct (Vector.replicate kLineLength 0)).2
    ¬ EachStep DebugShell.typeStep DebugShell.Safe shell typed := by
  intro typed shell hsafe
  obtain ⟨hrun, hcount⟩ := executes_pairs
  have hle := (DebugShell.eachStep_safe_iff (Nat.zero_le _)).mp hsafe _ hrun
  rw [hcount] at hle
  exact absurd hle (by decide)

end Bitnos
