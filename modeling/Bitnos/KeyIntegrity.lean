/-
# The key stream: integrity, losses and sleep

Every interleaving keeps the stream of accepted scancodes intact. Two weaker
expectations fail on some interleavings, and each of them holds along a run
exactly when one kind of interrupt does not occur in it: an interrupt that finds
the queue full loses its scancode without counting it, and an interrupt between
the last unlock and the `hlt` leaves the processor asleep on a pending key.
-/

import Bitnos.Math.Run
import Bitnos.KeyInvariant

namespace Bitnos

open PartialRun SpinLockMutex

/-! ### Integrity -/

/-- What a state owes the stream of keys. -/
structure StreamIntact (s : KeySystem) : Prop where
  /-- the keys taken, then the keys queued, are the keys accepted -/
  stream : s.taken ++ s.keydat.backlog = s.accepted
  /-- the keys queued are those between the two positions unless `Pop` is half done -/
  settled : s.pc.midPop = false → s.keydat.backlog = s.keydat.contents
  /-- inside the critical section the handler does not push -/
  excluded : s.pc.critical = true → ∀ dat path g,
    inthandler21 dat s.toKeyShared = some (path, g) → path = .lost ∧ g.keydat = s.keydat
  /-- the handler leaves the lock as it found it -/
  lock_kept : ∀ dat path g,
    inthandler21 dat s.toKeyShared = some (path, g) → g.keydatMutex = s.keydatMutex
  /-- the handler always completes -/
  handled : ∀ dat, (interruptStep dat s).isSome
  /-- `Lock` succeeds at its first attempt -/
  lock_free : s.pc = .lock → ∃ t, mainStep s = some t ∧ t.pc = .testCount
  /-- the main loop stops for no other reason than `hlt` -/
  running : s.pc ≠ .halted → (mainStep s).isSome

namespace KeyInv

variable {s : KeySystem}

theorem excluded (h : KeyInv s) (hcrit : s.pc.critical = true) {dat : BitVec 8}
    {path : HandlerPath} {g : KeyShared} (hrun : inthandler21 dat s.toKeyShared = some (path, g)) :
    path = .lost ∧ g.keydat = s.keydat := by
  rw [inthandler21_locked (ne_clear_of_flagged (h.flag_set hcrit))] at hrun
  obtain ⟨rfl, rfl⟩ := Prod.mk.inj (Option.some.inj hrun)
  exact ⟨rfl, rfl⟩

theorem handled (h : KeyInv s) (dat : BitVec 8) : (interruptStep dat s).isSome := by
  cases hcrit : s.pc.critical with
  | true => rw [interruptStep_locked h hcrit, Option.isSome_some]
  | false =>
    rcases h.count_le.lt_or_eq with hroom | hfull
    · rw [interruptStep_push h hcrit hroom, Option.isSome_some]
    · rw [interruptStep_full h hcrit hfull, Option.isSome_some]

theorem lock_free (h : KeyInv s) (hpc : s.pc = .lock) :
    ∃ t, mainStep s = some t ∧ t.pc = .testCount := by
  have hclear := h.flag_clear (by rw [hpc]; rfl)
  refine ⟨{ s with keydatMutex := ⟨kFlagged⟩, pc := .testCount }, ?_, rfl⟩
  simp only [mainStep, hpc, lockAttempt_of_clear hclear]
  rfl

theorem running (h : KeyInv s) (hpc : s.pc ≠ .halted) : (mainStep s).isSome := by
  cases hat : s.pc with
  | halted => exact absurd hat hpc
  -- `Front` reads inside the array
  | frontData pos =>
    obtain ⟨hwf, -, rfl⟩ : AtPoint s.keydat s.key (.frontData pos) := hat ▸ h.at_point
    simp only [mainStep, hat, Vector.getElem?_eq_getElem hwf.readPos_lt, Option.map_some,
      Option.isSome_some]
  | _ => simp only [mainStep, hat, Option.isSome_some]

end KeyInv

theorem KeyInv.streamIntact (s : KeySystem) (h : KeyInv s) : StreamIntact s where
  stream := h.stream
  settled hpop := (h.wellFormed hpop).backlog_eq
  excluded hcrit _ _ _ hrun := h.excluded hcrit hrun
  lock_kept _ _ _ hrun := inthandler21_keeps_lock hrun
  handled := h.handled
  lock_free := h.lock_free
  running := h.running

/-- **Key stream integrity.** However interrupts interleave with the field
accesses of the main loop, the stream of keys is intact in every state. -/
theorem key_stream_intact (actions : List KeyAction) :
    Along keyStep StreamIntact KeySystem.start actions :=
  along_of_invariant KeyInv.step KeyInv.streamIntact KeyInv.start

/-! ### Accounting for every scancode -/

/-- Every scancode received was taken, is queued, or is counted as lost. -/
def Accounted (s : KeySystem) : Prop :=
  BitVec.ofNat 32 s.received.length =
    BitVec.ofNat 32 (s.taken.length + s.keydat.count) + s.numLostkey

instance (s : KeySystem) : Decidable (Accounted s) :=
  inferInstanceAs (Decidable (_ = _))

/-- The action is an interrupt that finds the lock free and the queue full. -/
def Overflows (s : KeySystem) : KeyAction → Prop
  | .main => False
  | .interrupt _ => s.keydatMutex.flag = kClear ∧ s.keydat.count = 16

/-- Under the invariant the scancodes taken or queued are the accepted ones. -/
theorem KeyInv.length_accepted {s : KeySystem} (h : KeyInv s) :
    s.taken.length + s.keydat.count = s.accepted.length := by
  rw [← h.stream, List.length_append, ArrayQueue.length_backlog _ (by omega)]

theorem accounted_iff {s : KeySystem} (h : KeyInv s) :
    Accounted s ↔
      BitVec.ofNat 32 s.received.length = BitVec.ofNat 32 s.accepted.length + s.numLostkey := by
  rw [Accounted, h.length_accepted]

/-- The main loop neither receives nor accepts nor loses scancodes. -/
theorem mainStep_records {s t : KeySystem} (hstep : mainStep s = some t) :
    t.received = s.received ∧ t.accepted = s.accepted ∧ t.numLostkey = s.numLostkey := by
  cases hpc : s.pc with
  | halted => simp [mainStep, hpc] at hstep
  | frontData pos =>
    simp only [mainStep, hpc] at hstep
    obtain ⟨key, -, rfl⟩ := Option.map_eq_some_iff.mp hstep
    exact ⟨rfl, rfl, rfl⟩
  | _ =>
    simp only [mainStep, hpc, Option.some.injEq] at hstep
    exact hstep ▸ ⟨rfl, rfl, rfl⟩

theorem Accounted.keep (s : KeySystem) (a : KeyAction) (t : KeySystem) (h : KeyInv s)
    (hacc : Accounted s) (hroom : ¬ Overflows s a) (hstep : keyStep s a = some t) :
    Accounted t := by
  have hinv := KeyInv.step s a t h hstep
  rw [accounted_iff h] at hacc
  rw [accounted_iff hinv]
  cases a with
  | main =>
    obtain ⟨hreceived, haccepted, hlost⟩ := mainStep_records hstep
    rw [hreceived, haccepted, hlost, hacc]
  | interrupt dat =>
    change interruptStep dat s = some t at hstep
    -- an interrupt counts its scancode as lost, or finds room for it
    cases hcrit : s.pc.critical with
    | true =>
      rw [interruptStep_locked h hcrit] at hstep
      rw [← Option.some.inj hstep]
      simp [BitVec.ofNat_add, hacc, BitVec.add_assoc]
    | false =>
      have hlt : s.keydat.count < 16 :=
        h.count_le.lt_of_ne fun hfull => hroom ⟨h.flag_clear hcrit, hfull⟩
      rw [interruptStep_push h hcrit hlt] at hstep
      rw [← Option.some.inj hstep]
      simp only [List.length_append, List.length_singleton, BitVec.ofNat_add, hacc]
      rw [BitVec.add_assoc, BitVec.add_comm s.numLostkey, ← BitVec.add_assoc]

private theorem add_one_ne_self (x : BitVec 32) : x + 1 ≠ x := by
  intro heq
  have hone : (1 : BitVec 32) = 0 := by
    simpa using congrArg (· - x) heq
  exact absurd hone (by decide)

theorem Accounted.break (s : KeySystem) (a : KeyAction) (h : KeyInv s) (hacc : Accounted s)
    (hover : ¬ ¬ Overflows s a) : ∃ t, keyStep s a = some t ∧ ¬ Accounted t := by
  rw [accounted_iff h] at hacc
  cases a with
  | main => exact absurd id hover
  | interrupt dat =>
    obtain ⟨hflag, hfull⟩ := not_not.mp hover
    have hcrit : s.pc.critical = false := by
      by_contra hcrit
      rw [h.flag_set (Bool.eq_true_of_not_eq_false hcrit)] at hflag
      exact absurd hflag (by decide)
    refine ⟨_, interruptStep_full h hcrit hfull dat, ?_⟩
    -- received grows by one, accepted and lost do not
    intro hacc'
    rw [accounted_iff (h.interrupt (interruptStep_full h hcrit hfull dat))] at hacc'
    simp only [List.length_append, List.length_singleton, BitVec.ofNat_add, ← hacc] at hacc'
    exact add_one_ne_self _ hacc'

/-- **Accounting.** Every scancode is accounted for all along a run exactly when
no interrupt of the run finds the lock free and the queue full. -/
theorem accounted_iff_no_overflow (actions : List KeyAction) :
    Along keyStep Accounted KeySystem.start actions ↔
      EachStep keyStep (fun s a => ¬ Overflows s a) KeySystem.start actions :=
  along_iff_eachStep KeyInv.step Accounted.keep Accounted.break KeyInv.start rfl

/-- Seventeen keys in a row, none of them taken: the last one vanishes. -/
theorem seventeenth_key_unaccounted :
    ¬ ∀ actions, Along keyStep Accounted KeySystem.start actions := by
  intro hall
  have hrun : (run keyStep KeySystem.start (List.replicate 17 (.interrupt 0x1e))).map
      (fun s => decide (Accounted s)) = some false := by decide +kernel
  obtain ⟨s, hs, hbad⟩ := Option.map_eq_some_iff.mp hrun
  exact of_decide_eq_false hbad ((hall _).last hs)

/-! ### Sleeping -/

/-- The main loop does not stand before its `hlt` while a key is queued. -/
def SleepsEmpty (s : KeySystem) : Prop := s.pc = .hlt → s.keydat.count = 0

instance (s : KeySystem) : Decidable (SleepsEmpty s) :=
  inferInstanceAs (Decidable (_ → _))

/-- The action is an interrupt that arrives between the unlock and the `hlt`. -/
def ArrivesBeforeHlt (s : KeySystem) : KeyAction → Prop
  | .main => False
  | .interrupt _ => s.pc = .hlt

/-- Only the unlock of the empty path leads to the `hlt`. -/
theorem mainStep_to_hlt {s t : KeySystem} (hstep : mainStep s = some t) (hhlt : t.pc = .hlt) :
    s.pc = .unlockEmpty ∧ t.keydat = s.keydat := by
  cases hpc : s.pc with
  | unlockEmpty =>
    simp only [mainStep, hpc, Option.some.injEq] at hstep
    exact hstep ▸ ⟨rfl, rfl⟩
  | halted => simp [mainStep, hpc] at hstep
  | frontData pos =>
    simp only [mainStep, hpc] at hstep
    obtain ⟨key, -, rfl⟩ := Option.map_eq_some_iff.mp hstep
    cases hhlt
  | _ =>
    simp only [mainStep, hpc, Option.some.injEq] at hstep
    subst hstep
    first
      | cases hhlt
      | split_ifs at hhlt

theorem SleepsEmpty.keep (s : KeySystem) (a : KeyAction) (t : KeySystem) (h : KeyInv s)
    (_ : SleepsEmpty s) (hlate : ¬ ArrivesBeforeHlt s a) (hstep : keyStep s a = some t) :
    SleepsEmpty t := by
  intro hhlt
  cases a with
  | main =>
    obtain ⟨hpc, hsame⟩ := mainStep_to_hlt hstep hhlt
    -- the queue was found empty and no interrupt came since
    obtain ⟨-, hcount⟩ : AtPoint s.keydat s.key .unlockEmpty := hpc ▸ h.at_point
    rw [hsame, hcount]
  | interrupt dat =>
    change interruptStep dat s = some t at hstep
    obtain ⟨result, -, rfl⟩ := Option.map_eq_some_iff.mp hstep
    refine absurd ?_ hlate
    change s.pc.wake = .hlt at hhlt
    change s.pc = .hlt
    cases hpc : s.pc <;> rw [hpc] at hhlt <;> first | rfl | cases hhlt

theorem SleepsEmpty.break (s : KeySystem) (a : KeyAction) (h : KeyInv s)
    (hempty : SleepsEmpty s) (hlate : ¬ ¬ ArrivesBeforeHlt s a) :
    ∃ t, keyStep s a = some t ∧ ¬ SleepsEmpty t := by
  cases a with
  | main => exact absurd id hlate
  | interrupt dat =>
    have hpc : s.pc = .hlt := not_not.mp hlate
    have hcount : s.keydat.count = 0 := hempty hpc
    have hcrit : s.pc.critical = false := by rw [hpc]; rfl
    -- the queue is empty here, so the late key is queued
    refine ⟨_, interruptStep_push h hcrit (by omega) dat, fun hsleeps => ?_⟩
    have hwake : s.pc.wake = .hlt := by rw [hpc]; rfl
    exact absurd (hsleeps hwake) (Nat.succ_ne_zero _)

/-- **Sleeping.** The processor never executes `hlt` on a pending key along a run
exactly when no interrupt of the run arrives between the unlock and the `hlt`. -/
theorem sleeps_empty_iff_no_late_interrupt (actions : List KeyAction) :
    Along keyStep SleepsEmpty KeySystem.start actions ↔
      EachStep keyStep (fun s a => ¬ ArrivesBeforeHlt s a) KeySystem.start actions :=
  along_iff_eachStep KeyInv.step SleepsEmpty.keep SleepsEmpty.break KeyInv.start
    (fun hhlt => by cases hhlt)

/-- A key that arrives just before the `hlt` is slept on. -/
theorem late_key_slept_on :
    ¬ ∀ actions, Along keyStep SleepsEmpty KeySystem.start actions := by
  intro hall
  have hrun : (run keyStep KeySystem.start [.main, .main, .main, .interrupt 0x1e]).map
      (fun s => decide (SleepsEmpty s)) = some false := by decide +kernel
  obtain ⟨s, hs, hbad⟩ := Option.map_eq_some_iff.mp hrun
  exact of_decide_eq_false hbad ((hall _).last hs)

end Bitnos
