/-
# What every interleaving of interrupts with the key loop preserves

The lock flag is a function of the main loop's program point, so the handler
pushes only while the main loop is outside its critical section and every read
and write of a queue field inside it is undisturbed. The invariant ties the flag
and the representation of the queue to the program point.
-/

import Bitnos.KeyLoop

namespace Bitnos

open SpinLockMutex

/-- The queue while `Pop` has decremented the count but not moved the read
position: it is well formed once the count is put back. -/
def ArrayQueue.Behind {T : Type*} {N : ℕ} (q : ArrayQueue T N) : Prop :=
  ArrayQueue.WellFormed { q with count := q.count + 1 }

/-- What holds of the queue and the local `key` at each point of the main loop. -/
def AtPoint (q : ArrayQueue (BitVec 8) 16) (key : BitVec 8) : Pc → Prop
  | .lock | .testCount | .hlt | .halted | .unlockKey | .process => q.WellFormed
  | .unlockEmpty => q.WellFormed ∧ q.count = 0
  | .frontPos => q.WellFormed ∧ 0 < q.count
  | .frontData pos => q.WellFormed ∧ 0 < q.count ∧ pos = q.readPos
  | .popTest | .popCountLoad => q.WellFormed ∧ 0 < q.count ∧ q.data[q.readPos]? = some key
  | .popCountStore count =>
    q.WellFormed ∧ 0 < q.count ∧ q.data[q.readPos]? = some key ∧ count = q.count
  | .popPosLoad => q.Behind
  | .popPosStore pos => q.Behind ∧ pos = q.readPos
  | .popPosTest => q.readPos ≤ 16 ∧ q.count ≤ 16 ∧ q.writePos = (q.readPos + q.count) % 16
  | .popPosWrap => q.readPos = 16 ∧ q.count ≤ 16 ∧ q.writePos = (q.readPos + q.count) % 16

/-- The invariant of the system. -/
structure KeyInv (s : KeySystem) : Prop where
  /-- the flag is set exactly inside the critical section -/
  flag : s.keydatMutex.flag = if s.pc.critical then kFlagged else kClear
  stream : s.taken ++ s.keydat.backlog = s.accepted
  at_point : AtPoint s.keydat s.key s.pc

namespace KeyInv

variable {s t : KeySystem}

theorem start : KeyInv KeySystem.start where
  flag := rfl
  stream := rfl
  at_point := ⟨by decide, by decide, by decide⟩

theorem wellFormed (h : KeyInv s) (hpop : s.pc.midPop = false) : s.keydat.WellFormed := by
  have hat := h.at_point
  cases hpc : s.pc <;> simp only [hpc, Pc.midPop, AtPoint, Bool.true_eq_false] at hpop hat <;>
    first | exact hat | exact hat.1

theorem count_le (h : KeyInv s) : s.keydat.count ≤ 16 := by
  have hat := h.at_point
  cases hpc : s.pc with
  | popPosLoad =>
    rw [hpc] at hat
    exact Nat.le_of_succ_le hat.count_le
  | popPosStore pos =>
    rw [hpc] at hat
    exact Nat.le_of_succ_le hat.1.count_le
  | popPosTest | popPosWrap =>
    rw [hpc] at hat
    exact hat.2.1
  | _ => exact (h.wellFormed (by rw [hpc]; rfl)).count_le

theorem flag_clear (h : KeyInv s) (hcrit : s.pc.critical = false) :
    s.keydatMutex.flag = kClear := by
  rw [h.flag, hcrit]
  rfl

theorem flag_set (h : KeyInv s) (hcrit : s.pc.critical = true) :
    s.keydatMutex.flag = kFlagged := by
  rw [h.flag, hcrit]
  rfl

/-- Moving the program point within one side of the critical section, possibly
with a new local `key`, keeps the invariant if what holds at the new point does. -/
theorem goto (h : KeyInv s) {pc : Pc} {key : BitVec 8} (hcrit : pc.critical = s.pc.critical)
    (hat : AtPoint s.keydat key pc) : KeyInv { s with pc := pc, key := key } where
  flag := by
    rw [hcrit]
    exact h.flag
  stream := h.stream
  at_point := hat

/-- Releasing the lock at the end of the critical section. -/
theorem release (h : KeyInv s) {pc : Pc} (hcrit : pc.critical = false)
    (hat : AtPoint s.keydat s.key pc) :
    KeyInv { s with keydatMutex := s.keydatMutex.unlock, pc := pc } where
  flag := by simp [hcrit]
  stream := h.stream
  at_point := hat

/-! ### Steps of the main loop -/

theorem acquire (h : KeyInv s) (hpc : s.pc = .lock) :
    KeyInv { s with keydatMutex := ⟨kFlagged⟩, pc := .testCount } where
  flag := rfl
  stream := h.stream
  at_point := h.wellFormed (by rw [hpc]; rfl)

/-- The write of the decremented count takes the oldest element off the queue. -/
theorem popCount (h : KeyInv s) {count : ℕ} (hpc : s.pc = .popCountStore count) :
    KeyInv { s with
      keydat := { s.keydat with count := sizeDec count }
      taken := s.taken ++ [s.key]
      pc := .popPosLoad } := by
  have hat := h.at_point
  rw [hpc] at hat
  obtain ⟨hwf, hpos, hkey, rfl⟩ := hat
  have hdec : sizeDec s.keydat.count = s.keydat.count - 1 :=
    sizeDec_of_pos hpos
  have hcons := ArrayQueue.backlog_eq_cons hpos hwf.count_le (hwf.oldest_eq ▸ hkey)
  refine ⟨?_, ?_, ?_⟩
  · exact h.flag_set (by rw [hpc]; rfl)
  -- the key moves from the queue to those taken
  · calc (s.taken ++ [s.key]) ++ ArrayQueue.backlog { s.keydat with count := sizeDec s.keydat.count }
        = s.taken ++ s.keydat.backlog := by rw [hdec, hcons, List.append_assoc, List.singleton_append]
      _ = s.accepted := h.stream
  -- the queue is behind by the element just taken
  · have hback : sizeDec s.keydat.count + 1 = s.keydat.count := by omega
    change ArrayQueue.WellFormed { s.keydat with count := sizeDec s.keydat.count + 1 }
    rw [hback]
    exact hwf

/-- The write of the incremented read position, not yet compared with the capacity. -/
theorem popPos (h : KeyInv s) {pos : ℕ} (hpc : s.pc = .popPosStore pos) :
    KeyInv { s with keydat := { s.keydat with readPos := sizeInc pos }, pc := .popPosTest } := by
  have hat := h.at_point
  rw [hpc] at hat
  obtain ⟨hbehind, rfl⟩ := hat
  have hread : s.keydat.readPos < 16 := hbehind.readPos_lt
  have hcount : s.keydat.count + 1 ≤ 16 := hbehind.count_le
  have hwrite : s.keydat.writePos = (s.keydat.readPos + (s.keydat.count + 1)) % 16 :=
    hbehind.writePos_eq
  have hinc : sizeInc s.keydat.readPos = s.keydat.readPos + 1 :=
    sizeInc_of_lt hread (by omega)
  refine ⟨h.flag_set (by rw [hpc]; rfl), h.stream, ?_⟩
  simp only [AtPoint, hinc]
  omega

theorem popWrap (h : KeyInv s) (hpc : s.pc = .popPosWrap) :
    KeyInv { s with keydat := { s.keydat with readPos := 0 }, pc := .unlockKey } := by
  have hat := h.at_point
  rw [hpc] at hat
  obtain ⟨hread, hcount, hwrite⟩ := hat
  refine ⟨h.flag_set (by rw [hpc]; rfl), h.stream, ⟨Nat.zero_lt_succ 15, hcount, ?_⟩⟩
  change s.keydat.writePos = (0 + s.keydat.count) % 16
  omega

/-- Every step of the main loop keeps the invariant. -/
theorem main (h : KeyInv s) (hstep : mainStep s = some t) : KeyInv t := by
  have hat := h.at_point
  -- one case for each point; most of them only move on
  cases hpc : s.pc <;> rw [hpc] at hat <;>
    simp only [mainStep, hpc, Option.some.injEq, reduceCtorEq] at hstep
  case lock =>
    rw [lockAttempt_of_clear (h.flag_clear (by rw [hpc]; rfl))] at hstep
    exact hstep ▸ h.acquire hpc
  case testCount =>
    subst hstep
    split_ifs with hcount
    · exact h.goto (by rw [hpc]; rfl) ⟨hat, hcount⟩
    · exact h.goto (by rw [hpc]; rfl) ⟨hat, Nat.pos_of_ne_zero hcount⟩
  case unlockEmpty => exact hstep ▸ h.release rfl hat.1
  case hlt => exact hstep ▸ h.goto (by rw [hpc]; rfl) hat
  case frontPos => exact hstep ▸ h.goto (by rw [hpc]; rfl) ⟨hat.1, hat.2, rfl⟩
  case frontData pos =>
    obtain ⟨hwf, hcount, rfl⟩ := hat
    obtain ⟨key, hkey, rfl⟩ := Option.map_eq_some_iff.mp hstep
    exact h.goto (by rw [hpc]; rfl) ⟨hwf, hcount, hkey⟩
  case popTest =>
    subst hstep
    -- the count was tested under the lock, so `Pop` never finds the queue empty
    rw [if_neg hat.2.1.ne']
    exact h.goto (by rw [hpc]; rfl) hat
  case popCountLoad =>
    exact hstep ▸ h.goto (by rw [hpc]; rfl) ⟨hat.1, hat.2.1, hat.2.2, rfl⟩
  case popCountStore count => exact hstep ▸ h.popCount hpc
  case popPosLoad => exact hstep ▸ h.goto (by rw [hpc]; rfl) ⟨hat, rfl⟩
  case popPosStore pos => exact hstep ▸ h.popPos hpc
  case popPosTest =>
    subst hstep
    obtain ⟨hread, hcount, hwrite⟩ := hat
    split_ifs with hend
    · exact h.goto (by rw [hpc]; rfl) ⟨hend, hcount, hwrite⟩
    · exact h.goto (by rw [hpc]; rfl) ⟨lt_of_le_of_ne hread hend, hcount, hwrite⟩
  case popPosWrap => exact hstep ▸ h.popWrap hpc
  case unlockKey => exact hstep ▸ h.release rfl hat
  case process =>
    have hflag := h.flag_clear (by rw [hpc]; rfl)
    exact hstep ▸ ⟨hflag, h.stream, hat⟩

end KeyInv

/-! ### Interrupts

An interrupt has three outcomes: the lock is held, the queue is full, or the
scancode is queued. -/

section Interrupt

variable {s t : KeySystem}

theorem Pc.critical_wake (pc : Pc) : pc.wake.critical = pc.critical := by
  cases pc <;> rfl

theorem Pc.midPop_of_not_critical {pc : Pc} (hcrit : pc.critical = false) :
    pc.midPop = false := by
  cases pc <;> first | rfl | cases hcrit

theorem Pc.wake_of_critical {pc : Pc} (hcrit : pc.critical = true) : pc.wake = pc := by
  cases pc <;> first | rfl | cases hcrit

theorem interruptStep_locked (h : KeyInv s) (hcrit : s.pc.critical = true) (dat : BitVec 8) :
    interruptStep dat s = some { s with
      numLostkey := s.numLostkey + 1
      received := s.received ++ [dat] } := by
  have hset : s.keydatMutex.flag ≠ kClear := ne_clear_of_flagged (h.flag_set hcrit)
  rw [interruptStep, inthandler21_locked hset, Pc.wake_of_critical hcrit]
  rfl

theorem interruptStep_full (h : KeyInv s) (hcrit : s.pc.critical = false)
    (hfull : s.keydat.count = 16) (dat : BitVec 8) :
    interruptStep dat s = some { s with
      pc := s.pc.wake
      received := s.received ++ [dat] } := by
  rw [interruptStep, inthandler21_free (h.flag_clear hcrit), ArrayQueue.push_of_full hfull]
  rfl

theorem KeyInv.writePos_lt (h : KeyInv s) (hcrit : s.pc.critical = false) :
    s.keydat.writePos < 16 :=
  (h.wellFormed (Pc.midPop_of_not_critical hcrit)).writePos_lt

theorem interruptStep_push (h : KeyInv s) (hcrit : s.pc.critical = false)
    (hroom : s.keydat.count < 16) (dat : BitVec 8) :
    interruptStep dat s = some { s with
      keydat := { s.keydat with
        data := s.keydat.data.set s.keydat.writePos dat (h.writePos_lt hcrit)
        count := s.keydat.count + 1
        writePos := (s.keydat.writePos + 1) % 16 }
      pc := s.pc.wake
      received := s.received ++ [dat]
      accepted := s.accepted ++ [dat] } := by
  rw [interruptStep, inthandler21_free (h.flag_clear hcrit),
    ArrayQueue.push_of_lt (by omega) hroom (h.writePos_lt hcrit)]
  rfl

/-- Outside the critical section only the well-formedness of the queue is recorded. -/
theorem atPoint_wake {pc : Pc} (hcrit : pc.critical = false)
    {q : ArrayQueue (BitVec 8) 16} {key : BitVec 8} :
    AtPoint q key pc.wake ↔ q.WellFormed := by
  cases pc <;> first | exact Iff.rfl | cases hcrit

/-- Every interrupt keeps the invariant. -/
theorem KeyInv.interrupt (h : KeyInv s) {dat : BitVec 8} (hstep : interruptStep dat s = some t) :
    KeyInv t := by
  cases hcrit : s.pc.critical with
  | true =>
    -- the handler keeps off a queue that is being changed
    rw [interruptStep_locked h hcrit] at hstep
    exact Option.some.inj hstep ▸ ⟨h.flag, h.stream, h.at_point⟩
  | false =>
    have hwf : s.keydat.WellFormed := h.wellFormed (Pc.midPop_of_not_critical hcrit)
    have hflag : s.keydatMutex.flag = if s.pc.wake.critical then kFlagged else kClear := by
      rw [Pc.critical_wake]
      exact h.flag
    rcases h.count_le.lt_or_eq with hroom | hfull
    · rw [interruptStep_push h hcrit hroom] at hstep
      refine Option.some.inj hstep ▸ ⟨hflag, ?_, (atPoint_wake hcrit).mpr (hwf.push hroom dat)⟩
      change s.taken ++ ArrayQueue.backlog _ = s.accepted ++ [dat]
      rw [ArrayQueue.backlog_push hroom, ← List.append_assoc, h.stream]
    · rw [interruptStep_full h hcrit hfull] at hstep
      exact Option.some.inj hstep ▸ ⟨hflag, h.stream, (atPoint_wake hcrit).mpr hwf⟩

theorem KeyInv.step (s : KeySystem) (a : KeyAction) (t : KeySystem) (h : KeyInv s)
    (hstep : keyStep s a = some t) : KeyInv t := by
  cases a with
  | main => exact h.main hstep
  | interrupt dat => exact h.interrupt hstep

end Interrupt

end Bitnos
