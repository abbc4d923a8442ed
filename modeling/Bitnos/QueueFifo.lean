/-
# `ArrayQueue` as a bounded FIFO

What callers of the queue see: the error codes, counts and front values returned by a
sequence of calls. From an empty queue these are the answers of a list of bounded
length. The constructor, however, leaves the count as it finds it in memory, so
without zeroed storage the answers depend on what was there before.
-/

import Bitnos.Math.Reactive
import Bitnos.Math.Run
import Bitnos.Queue

namespace Bitnos

open PartialRun Reactive

variable {T : Type*} {N : ℕ}

/-- A call of a member function. -/
inductive QueueOp (T : Type*)
  | push (value : T)
  | pop
  | count
  | front

/-- What a call returns. -/
inductive QueueResult (T : Type*)
  | code (err : Error)
  | count (n : ℕ)
  | front (value : T)
  deriving DecidableEq

/-- One call. It refuses when it would leave the array. -/
def queueStep (q : ArrayQueue T N) : QueueOp T → Option (QueueResult T × ArrayQueue T N)
  | .push value => (q.push value).map fun result => (.code result.1, result.2)
  | .pop => some (.code q.pop.1, q.pop.2)
  | .count => some (.count q.count, q)
  | .front => q.front.map fun value => (.front value, q)

/-! ### The specification -/

/-- One operation of a list of at most `N` elements. What the front of an empty list is
is left open. -/
def fifoStep (N : ℕ) (xs : List T) : QueueOp T → Option (Option (QueueResult T) × List T)
  | .push value =>
    if xs.length < N then some (some (.code .success), xs ++ [value])
    else some (some (.code .full), xs)
  | .pop =>
    match xs with
    | [] => some (some (.code .empty), [])
    | _ :: xs => some (some (.code .success), xs)
  | .count => some (some (.count xs.length), xs)
  | .front => some (xs.head?.map .front, xs)

/-- The answer is the specified one, where one is specified. -/
def Answers (result : QueueResult T) (specified : Option (QueueResult T)) : Prop :=
  ∀ r, specified = some r → result = r

theorem exists_fifoStep (xs : List T) (op : QueueOp T) :
    ∃ r ys, fifoStep N xs op = some (r, ys) := by
  cases op with
  | push value =>
    rw [fifoStep]
    split_ifs <;> exact ⟨_, _, rfl⟩
  | pop => cases xs <;> exact ⟨_, _, rfl⟩
  | count | front => exact ⟨_, _, rfl⟩

theorem exists_fifoRun (xs : List T) (ops : List (QueueOp T)) :
    ∃ specified ys, respond (fifoStep N) xs ops = some (specified, ys) := by
  obtain ⟨specified, ys, hrun, -⟩ :
      ∃ specified ys, respond (fifoStep N) xs ops = some (specified, ys) ∧ True :=
    exists_respond (fun xs op _ => by
      obtain ⟨r, ys, hstep⟩ := exists_fifoStep (N := N) xs op
      exact ⟨r, ys, hstep, trivial⟩) trivial
  exact ⟨specified, ys, hrun⟩

/-! ### Refinement -/

/-- The queue is well formed and holds the elements of the list. -/
def ArrayQueue.Holds (q : ArrayQueue T N) (xs : List T) : Prop := q.WellFormed ∧ q.contents = xs

section Refinement

variable {q : ArrayQueue T N} {xs ys : List T} {r : Option (QueueResult T)}

theorem ArrayQueue.Holds.length_eq (h : q.Holds xs) : xs.length = q.count := by
  rw [← h.2, h.1.length_contents]

theorem ArrayQueue.Holds.push (hsize : N < 2 ^ 64) (h : q.Holds xs) {value : T}
    (hspec : fifoStep N xs (.push value) = some (r, ys)) :
    ∃ result q', queueStep q (.push value) = some (result, q') ∧ Answers result r ∧
      q'.Holds ys := by
  have hlength := h.length_eq
  rw [fifoStep] at hspec
  by_cases hroom : xs.length < N
  · rw [if_pos hroom] at hspec
    obtain ⟨rfl, rfl⟩ := Prod.mk.inj (Option.some.inj hspec)
    have hcount : q.count < N := hlength ▸ hroom
    have hnew := h.1.push hcount value
    refine ⟨.code .success, _, ?_, fun _ heq => Option.some.inj heq, hnew, ?_⟩
    · rw [queueStep, ArrayQueue.push_of_lt hsize hcount h.1.writePos_lt, Option.map_some]
    · rw [← hnew.backlog_eq, ArrayQueue.backlog_push hcount, h.1.backlog_eq, h.2]
  · rw [if_neg hroom] at hspec
    obtain ⟨rfl, rfl⟩ := Prod.mk.inj (Option.some.inj hspec)
    have hfull : q.count = N := by
      have hle := h.1.count_le
      omega
    refine ⟨.code .full, q, ?_, fun _ heq => Option.some.inj heq, h⟩
    rw [queueStep, ArrayQueue.push_of_full hfull, Option.map_some]

theorem ArrayQueue.Holds.pop (hsize : N < 2 ^ 64) (h : q.Holds xs)
    (hspec : fifoStep N xs .pop = some (r, ys)) :
    ∃ result q', queueStep q .pop = some (result, q') ∧ Answers result r ∧ q'.Holds ys := by
  have hlength := h.length_eq
  cases xs with
  | nil =>
    obtain ⟨rfl, rfl⟩ := Prod.mk.inj (Option.some.inj hspec)
    refine ⟨.code .empty, q, ?_, fun _ heq => Option.some.inj heq, h⟩
    rw [queueStep, ArrayQueue.pop_of_zero hlength.symm]
  | cons x xs =>
    obtain ⟨rfl, rfl⟩ := Prod.mk.inj (Option.some.inj hspec)
    have hcount : 0 < q.count := by
      rw [← hlength]
      exact Nat.succ_pos _
    obtain ⟨y, hy⟩ := h.1.exists_front
    have hcontents := (h.1.contents_pop hcount hy).symm.trans h.2
    refine ⟨.code .success, _, ?_, fun _ heq => Option.some.inj heq, h.1.pop hcount,
      (List.cons.inj hcontents).2⟩
    rw [queueStep, ArrayQueue.pop_of_pos hsize hcount h.1.readPos_lt]

theorem ArrayQueue.Holds.front (h : q.Holds xs) (hspec : fifoStep N xs .front = some (r, ys)) :
    ∃ result q', queueStep q .front = some (result, q') ∧ Answers result r ∧ q'.Holds ys := by
  obtain ⟨rfl, rfl⟩ := Prod.mk.inj (Option.some.inj hspec)
  obtain ⟨x, hx⟩ := h.1.exists_front
  refine ⟨.front x, q, by rw [queueStep, hx, Option.map_some], ?_, h⟩
  intro result hresult
  obtain ⟨y, hy, rfl⟩ := Option.map_eq_some_iff.mp hresult
  have hlength := h.length_eq
  cases xs with
  | nil => cases hy
  | cons z xs =>
    have hcount : 0 < q.count := by
      rw [← hlength]
      exact Nat.succ_pos _
    have hcontents := (h.1.contents_pop hcount hx).symm.trans h.2
    rw [(List.cons.inj hcontents).1, Option.some.inj hy]

/-- Every call on a queue that holds a list answers as the list does. -/
theorem ArrayQueue.Holds.step (hsize : N < 2 ^ 64) (q : ArrayQueue T N) (xs : List T) (op : QueueOp T)
    (r : Option (QueueResult T)) (ys : List T) (h : q.Holds xs)
    (hspec : fifoStep N xs op = some (r, ys)) :
    ∃ result q', queueStep q op = some (result, q') ∧ Answers result r ∧ q'.Holds ys := by
  cases op with
  | push value => exact h.push hsize hspec
  | pop => exact h.pop hsize hspec
  | front => exact h.front hspec
  | count =>
    obtain ⟨rfl, rfl⟩ := Prod.mk.inj (Option.some.inj hspec)
    refine ⟨.count q.count, q, rfl, ?_, h⟩
    intro result hresult
    rw [← Option.some.inj hresult, h.length_eq]

end Refinement

/-- **Refinement.** From an empty queue every sequence of calls stays inside the array and
returns what a list of bounded length returns. -/
theorem array_queue_refines_fifo (hN : 0 < N) (hsize : N < 2 ^ 64) (data : Vector T N)
    (ops : List (QueueOp T)) :
    ∃ specified xs results q, respond (fifoStep N) [] ops = some (specified, xs) ∧
      respond queueStep ⟨data, 0, 0, 0⟩ ops = some (results, q) ∧
      List.Forall₂ Answers results specified ∧ q.Holds xs := by
  have hstart : ArrayQueue.Holds (⟨data, 0, 0, 0⟩ : ArrayQueue T N) [] :=
    ⟨⟨hN, Nat.zero_le N, (Nat.zero_mod N).symm⟩, rfl⟩
  obtain ⟨specified, xs, hspec⟩ := exists_fifoRun (N := N) [] ops
  obtain ⟨results, q, hrun, hanswers, hholds⟩ :=
    respond_of_simulation (ArrayQueue.Holds.step hsize) hstart hspec
  exact ⟨specified, xs, results, q, hspec, hrun, hanswers, hholds⟩

/-- A queue of two elements is filled, refused a third, drained and refused an element. -/
theorem array_queue_refines_fifo_two :
    ∃ specified xs results q,
      respond (fifoStep 2) [] [.push 7, .push 8, .push 9, .pop, .front, .pop, .pop] =
        some (specified, xs) ∧
      respond queueStep (⟨#v[0, 0], 0, 0, 0⟩ : ArrayQueue ℕ 2)
        [.push 7, .push 8, .push 9, .pop, .front, .pop, .pop] = some (results, q) ∧
      List.Forall₂ Answers results specified ∧ q.Holds xs :=
  array_queue_refines_fifo (by omega) (by omega) _ _

/-! ### Construction in memory that was used before -/

/-- The storage a queue is constructed in, with what was left there. -/
structure Storage (T : Type*) (N : ℕ) where
  data : Vector T N
  readPos : BitVec 64
  writePos : BitVec 64
  count : BitVec 64

/-- The constructor `ArrayQueue()`, which sets the two positions and nothing else. -/
def Storage.construct (s : Storage T N) : ArrayQueue T N where
  data := s.data
  readPos := 0
  writePos := 0
  count := s.count.toNat

/-- `Front` is called on a queue whose `Count()` is positive only. -/
def FrontAllowed (q : ArrayQueue T N) (op : QueueOp T) : Prop := op = .front → 0 < q.count

/-- Every `Front` of the sequence is allowed. -/
def FrontsAllowed (q : ArrayQueue T N) (ops : List (QueueOp T)) : Prop :=
  EachStep (fun q op => (queueStep q op).map Prod.snd) FrontAllowed q ops

/-- Callers cannot tell the two storages apart: every sequence of calls stays inside the
array in both and returns the same. -/
def SameAnswers (s s' : Storage T N) : Prop :=
  ∀ ops, FrontsAllowed s.construct ops → FrontsAllowed s'.construct ops →
    ∃ results q q', respond queueStep s.construct ops = some (results, q) ∧
      respond queueStep s'.construct ops = some (results, q')

section Leftovers

variable {q : ArrayQueue T N} {xs ys : List T} {s s' : Storage T N}

/-! #### Storage whose count is zero -/

/-- An allowed call of a list that the queue holds has a specified answer. -/
theorem isSome_of_frontAllowed {op : QueueOp T} {r : Option (QueueResult T)} (h : q.Holds xs)
    (hallowed : FrontAllowed q op) (hspec : fifoStep N xs op = some (r, ys)) : r.isSome := by
  cases op with
  | push value =>
    rw [fifoStep] at hspec
    split_ifs at hspec
    · obtain ⟨rfl, -⟩ := Prod.mk.inj (Option.some.inj hspec)
      rfl
    · obtain ⟨rfl, -⟩ := Prod.mk.inj (Option.some.inj hspec)
      rfl
  | pop =>
    cases xs with
    | nil =>
      obtain ⟨rfl, -⟩ := Prod.mk.inj (Option.some.inj hspec)
      rfl
    | cons x xs =>
      obtain ⟨rfl, -⟩ := Prod.mk.inj (Option.some.inj hspec)
      rfl
  | count =>
    obtain ⟨rfl, -⟩ := Prod.mk.inj (Option.some.inj hspec)
    rfl
  | front =>
    obtain ⟨rfl, -⟩ := Prod.mk.inj (Option.some.inj hspec)
    have hpos : 0 < xs.length := h.length_eq ▸ hallowed rfl
    rw [Option.isSome_map, List.isSome_head?]
    exact List.ne_nil_of_length_pos hpos

theorem isSome_of_frontsAllowed (hsize : N < 2 ^ 64) {ops : List (QueueOp T)}
    {specified : List (Option (QueueResult T))} (h : q.Holds xs) (hfronts : FrontsAllowed q ops)
    (hspec : respond (fifoStep N) xs ops = some (specified, ys)) : ∀ r ∈ specified, r.isSome := by
  induction ops generalizing q xs specified with
  | nil =>
    obtain ⟨rfl, -⟩ := Prod.mk.inj (Option.some.inj hspec)
    exact fun r hr => absurd hr List.not_mem_nil
  | cons op ops ih =>
    obtain ⟨⟨r, xs'⟩, hstep, hrest⟩ := Option.bind_eq_some_iff.mp hspec
    obtain ⟨⟨rs, ys'⟩, htail, heq⟩ := Option.map_eq_some_iff.mp hrest
    obtain ⟨rfl, rfl⟩ := Prod.mk.inj heq
    obtain ⟨result, q', hq, -, hholds⟩ := h.step hsize q xs op r xs' hstep
    have hlater := hfronts.2 q' (congrArg (Option.map Prod.snd) hq)
    intro r' hr'
    rcases List.mem_cons.mp hr' with rfl | hr'
    · exact isSome_of_frontAllowed h hfronts.1 hstep
    · exact ih hholds hlater htail r' hr'

/-- Two lists of answers to one specification that leaves none open are the same. -/
theorem eq_of_answers {results results' : List (QueueResult T)}
    {specified : List (Option (QueueResult T))} (h : List.Forall₂ Answers results specified)
    (h' : List.Forall₂ Answers results' specified) (hsome : ∀ r ∈ specified, r.isSome) :
    results = results' := by
  induction h generalizing results' with
  | nil =>
    cases h'
    rfl
  | cons hanswer _ ih =>
    obtain ⟨result', rest', hanswer', hrest', rfl⟩ := List.forall₂_cons_right_iff.mp h'
    obtain ⟨r, hr⟩ := Option.isSome_iff_exists.mp (hsome _ List.mem_cons_self)
    rw [hanswer r hr, hanswer' r hr, ih hrest' fun r hr => hsome r (List.mem_cons_of_mem _ hr)]

theorem sameAnswers_of_zero (hN : 0 < N) (hsize : N < 2 ^ 64) (hzero : s.count = 0)
    (hzero' : s'.count = 0) : SameAnswers s s' := by
  intro ops hfronts hfronts'
  have hholds : ∀ {s : Storage T N}, s.count = 0 → s.construct.Holds [] := by
    intro s hs
    have hcount : s.construct.count = 0 := congrArg BitVec.toNat hs
    refine ⟨⟨hN, hcount ▸ Nat.zero_le N, ?_⟩, ?_⟩
    · rw [hcount]
      exact (Nat.zero_mod N).symm
    · rw [ArrayQueue.contents, hcount, ArrayQueue.window_zero]
  obtain ⟨specified, xs, hspec⟩ := exists_fifoRun (N := N) ([] : List T) ops
  obtain ⟨results, q, hrun, hanswers, -⟩ :=
    respond_of_simulation (ArrayQueue.Holds.step hsize) (hholds hzero) hspec
  obtain ⟨results', q', hrun', hanswers', -⟩ :=
    respond_of_simulation (ArrayQueue.Holds.step hsize) (hholds hzero') hspec
  have hsome := isSome_of_frontsAllowed hsize (hholds hzero) hfronts hspec
  obtain rfl := eq_of_answers hanswers hanswers' hsome
  exact ⟨results, q, q', hrun, hrun'⟩

/-! #### Storage that holds the same -/

/-- Both positions lie in the array. This needs no count. -/
def ArrayQueue.InArray (q : ArrayQueue T N) : Prop := q.readPos < N ∧ q.writePos < N

/-- Where a position moves to stays in the array. -/
theorem wrap_lt (hsize : N < 2 ^ 64) {n : ℕ} (hn : n < N) :
    (if sizeInc n = N then 0 else sizeInc n) < N := by
  rw [sizeInc_of_lt hn hsize, ArrayQueue.wrap_eq hn]
  exact Nat.mod_lt _ (by omega)

theorem ArrayQueue.InArray.step (hsize : N < 2 ^ 64) (q : ArrayQueue T N) (op : QueueOp T)
    (h : q.InArray) : ∃ r q', queueStep q op = some (r, q') ∧ q'.InArray := by
  cases op with
  | count => exact ⟨_, q, rfl, h⟩
  | front =>
    obtain ⟨x, hx⟩ : ∃ x, q.front = some x := ⟨_, Vector.getElem?_eq_getElem h.1⟩
    exact ⟨.front x, q, by rw [queueStep, hx, Option.map_some], h⟩
  | pop =>
    refine ⟨_, _, rfl, ?_⟩
    rw [ArrayQueue.pop]
    split_ifs
    · exact h
    · exact ⟨wrap_lt hsize h.1, h.2⟩
  | push value =>
    rw [queueStep, ArrayQueue.push]
    by_cases hfull : q.count = N
    · rw [if_pos hfull]
      exact ⟨_, q, rfl, h⟩
    · rw [if_neg hfull, dif_pos h.2]
      exact ⟨_, _, rfl, h.1, wrap_lt hsize h.2⟩

theorem sameAnswers_of_eq (hN : 0 < N) (hsize : N < 2 ^ 64) (hcount : s.count = s'.count)
    (hdata : s.data = s'.data) : SameAnswers s s' := by
  intro ops _ _
  have heq : s.construct = s'.construct := by rw [Storage.construct, hcount, hdata]; rfl
  obtain ⟨results, q, hrun, -⟩ := exists_respond (ArrayQueue.InArray.step hsize)
    (⟨hN, hN⟩ : s.construct.InArray)
  exact ⟨results, q, q, hrun, heq ▸ hrun⟩

/-! #### Reading what was left -/

/-- Take an element and put another, a number of times. -/
def cycleOps (value : T) : ℕ → List (QueueOp T)
  | 0 => []
  | n + 1 => cycleOps value n ++ [.pop, .push value]

/-- A queue constructed on a positive count, after `n` turns: what was left in the cells
from the read position on is still there. -/
structure Turned (s : Storage T N) (n : ℕ) (q : ArrayQueue T N) : Prop where
  readPos : q.readPos = n
  writePos_le : q.writePos ≤ n
  count_pos : 0 < q.count
  count_lt : q.count < 2 ^ 64
  left : ∀ k, n ≤ k → q.data[k]? = s.data[k]?

/-- The value put into the cell freed last lands before the read position, or is refused
because more than the capacity was left in the count. -/
theorem Turned.push (hsize : N < 2 ^ 64) {n : ℕ} (hn : n + 1 < N) (hread : q.readPos = n + 1)
    (hwrite : q.writePos ≤ n) (hcount : q.count + 1 < 2 ^ 64)
    (hleft : ∀ k, n + 1 ≤ k → q.data[k]? = s.data[k]?) (value : T) :
    ∃ r q', queueStep q (.push value) = some (r, q') ∧ Turned s (n + 1) q' := by
  by_cases hfull : q.count = N
  · refine ⟨.code .full, q, ?_, hread, Nat.le_succ_of_le hwrite, by omega, by omega, hleft⟩
    rw [queueStep, ArrayQueue.push_of_full hfull, Option.map_some]
  · have hpos : q.writePos < N := by omega
    have hinc : sizeInc q.writePos = q.writePos + 1 := sizeInc_of_lt hpos hsize
    have hinc' : sizeInc q.count = q.count + 1 := sizeInc_of_lt (Nat.lt_succ_self _) hcount
    have hend : q.writePos + 1 ≠ N := by omega
    have hstep : queueStep q (.push value) = some (.code .success, { q with
        data := q.data.set q.writePos value hpos, count := q.count + 1,
        writePos := q.writePos + 1 }) := by
      simp only [queueStep, ArrayQueue.push, hfull, if_false, dif_pos hpos, hinc, hinc', hend,
        Option.map_some]
    refine ⟨_, _, hstep, hread, Nat.succ_le_succ hwrite, Nat.succ_pos _, hcount, ?_⟩
    intro k hk
    rw [← hleft k hk]
    exact Vector.getElem?_set_ne hpos (by omega)

theorem Turned.turn (hsize : N < 2 ^ 64) {n : ℕ} (hn : n + 1 < N) (h : Turned s n q) (value : T) :
    ∃ rs q', respond queueStep q [.pop, .push value] = some (rs, q') ∧ Turned s (n + 1) q' := by
  have hread : sizeInc q.readPos = n + 1 := by
    rw [h.readPos]
    exact sizeInc_of_lt (Nat.lt_of_succ_lt hn) hsize
  have hpop : q.pop = (.success, { q with count := q.count - 1, readPos := n + 1 }) := by
    simp only [ArrayQueue.pop, h.count_pos.ne', if_false, sizeDec_of_pos h.count_pos, hread, hn.ne]
  have hcount : q.count - 1 + 1 < 2 ^ 64 := by
    have := h.count_lt
    have := h.count_pos
    omega
  obtain ⟨r, q', hpush, hturned⟩ := Turned.push hsize hn
    (q := { q with count := q.count - 1, readPos := n + 1 }) rfl h.writePos_le hcount
    (fun k hk => h.left k (Nat.le_of_succ_le hk)) value
  refine ⟨[.code .success, r], q', ?_, hturned⟩
  rw [respond, queueStep, hpop, Option.bind_some, respond_cons_of_step hpush]
  rfl

theorem exists_turned (hsize : N < 2 ^ 64) (hcount : s.count ≠ 0) (value : T) {n : ℕ} (hn : n < N) :
    ∃ rs q, respond queueStep s.construct (cycleOps value n) = some (rs, q) ∧ Turned s n q := by
  induction n with
  | zero =>
    refine ⟨[], s.construct, rfl, rfl, Nat.le_refl 0, ?_, s.count.isLt, fun _ _ => rfl⟩
    exact Nat.pos_of_ne_zero fun hzero => hcount (BitVec.eq_of_toNat_eq hzero)
  | succ n ih =>
    obtain ⟨rs, q, hrun, hturned⟩ := ih (Nat.lt_of_succ_lt hn)
    obtain ⟨rs', q', hturn, hturned'⟩ := hturned.turn hsize hn value
    refine ⟨rs ++ rs', q', ?_, hturned'⟩
    rw [cycleOps, respond_append hrun, hturn]
    rfl

/-- Turning a queue and looking at its front is allowed, and shows a cell never written. -/
theorem exists_front_left (hsize : N < 2 ^ 64) (hcount : s.count ≠ 0) (value : T) {n : ℕ}
    (hn : n < N) :
    FrontsAllowed s.construct (cycleOps value n ++ [.front]) ∧
      ∃ rs q x, respond queueStep s.construct (cycleOps value n ++ [.front]) =
        some (rs ++ [.front x], q) ∧ s.data[n]? = some x := by
  obtain ⟨rs, q, hrun, hturned⟩ := exists_turned hsize hcount value hn
  have hnofront : ∀ n, ∀ op ∈ cycleOps value n, op ≠ .front := by
    intro n
    induction n with
    | zero => exact fun op hop => absurd hop List.not_mem_nil
    | succ n ih =>
      intro op hop
      rcases List.mem_append.mp hop with hop | hop
      · exact ih op hop
      · rcases List.mem_pair.mp hop with rfl | rfl <;> nofun
  constructor
  · refine eachStep_append.mpr ⟨eachStep_of_forall fun _ op hop hfront => ?_, ?_⟩
    · exact absurd hfront (hnofront n op hop)
    · intro q' hq'
      rw [run_eq_respond, hrun] at hq'
      obtain rfl : q = q' := Option.some.inj hq'
      exact ⟨fun _ => hturned.count_pos, fun _ _ => trivial⟩
  · have hfront : q.front = s.data[n]? := by
      rw [ArrayQueue.front, hturned.readPos]
      exact hturned.left n (Nat.le_refl n)
    obtain ⟨x, hx⟩ : ∃ x, s.data[n]? = some x := ⟨_, Vector.getElem?_eq_getElem hn⟩
    refine ⟨rs, q, x, ?_, hx⟩
    rw [respond_append hrun, respond, queueStep, hfront, hx]
    rfl

theorem SameAnswers.count_eq (h : SameAnswers s s') : s.count = s'.count := by
  have hallowed : ∀ {q : ArrayQueue T N}, FrontsAllowed q [.count] :=
    eachStep_of_forall fun _ op hop hfront => by
      rw [List.mem_singleton.mp hop] at hfront
      cases hfront
  obtain ⟨results, q, q', hrun, hrun'⟩ := h [.count] hallowed hallowed
  obtain ⟨rfl, -⟩ := Prod.mk.inj (Option.some.inj hrun)
  obtain ⟨heq, -⟩ := Prod.mk.inj (Option.some.inj hrun')
  exact (BitVec.eq_of_toNat_eq (QueueResult.count.inj (List.cons.inj heq).1)).symm

/-- On a positive count every element left shows up. -/
theorem SameAnswers.data_eq (hsize : N < 2 ^ 64) (h : SameAnswers s s') (hpos : s.count ≠ 0) :
    s.data = s'.data := by
  have hpos' : s'.count ≠ 0 := h.count_eq ▸ hpos
  apply Vector.ext
  intro n hn
  obtain ⟨hfronts, rs, q, x, hrun, hx⟩ := exists_front_left hsize hpos s.data[n] hn
  obtain ⟨hfronts', rs', q', x', hrun', hx'⟩ := exists_front_left hsize hpos' s.data[n] hn
  obtain ⟨results, p, p', hp, hp'⟩ := h _ hfronts hfronts'
  rw [hrun] at hp
  rw [hrun'] at hp'
  have heq := (congrArg Prod.fst (Option.some.inj hp)).trans
    (congrArg Prod.fst (Option.some.inj hp')).symm
  have hfront := (List.cons.inj (List.append_inj' heq rfl).2).1
  rw [Vector.getElem?_eq_getElem hn] at hx hx'
  rw [Option.some.inj hx, Option.some.inj hx', QueueResult.front.inj hfront]

/-- **Leftover memory.** Callers cannot tell two storages apart exactly when a zero was left
in the count of both, or the same count and the same elements. -/
theorem sameAnswers_iff (hN : 0 < N) (hsize : N < 2 ^ 64) (s s' : Storage T N) :
    SameAnswers s s' ↔ s.count = s'.count ∧ (s.count = 0 ∨ s.data = s'.data) := by
  constructor
  · intro hsame
    refine ⟨hsame.count_eq, ?_⟩
    by_cases hzero : s.count = 0
    · exact .inl hzero
    · exact .inr (hsame.data_eq hsize hzero)
  · rintro ⟨hcount, hzero | hdata⟩
    · exact sameAnswers_of_zero hN hsize hzero (hcount ▸ hzero)
    · exact sameAnswers_of_eq hN hsize hcount hdata

end Leftovers

/-- Two elements may be left in a queue whose count is zero. -/
theorem sameAnswers_iff_zeroed :
    SameAnswers (⟨#v[1, 2], 7, 7, 0⟩ : Storage ℕ 2) ⟨#v[3, 4], 9, 9, 0⟩ :=
  (sameAnswers_iff (by omega) (by omega) _ _).mpr ⟨rfl, .inl rfl⟩

/-- The first count of a new queue is what was left in memory. -/
theorem not_sameAnswers_dirty : ¬ ∀ s s' : Storage ℕ 5, SameAnswers s s' := by
  intro hall
  have hcount := (hall ⟨.replicate 5 0, 0, 0, 0⟩ ⟨.replicate 5 0, 0, 0, 3⟩).count_eq
  exact absurd hcount (by decide)

end Bitnos
