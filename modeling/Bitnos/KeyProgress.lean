/-
# Progress of the key loop

Every interrupt gives the main loop at most one key to decode and one wake-up, so the
steps of the main loop are bounded by the interrupts. Once no more of them come the loop
goes to sleep, and unless it was on its way to sleep before, it has then handed the shell
the characters of every key accepted.
-/

import Bitnos.Math.Budget
import Bitnos.KeyIntegrity
import Bitnos.KeyShift

namespace Bitnos

open PartialRun SpinLockMutex

/-- A bound on the steps from a point until the loop halts, with so many keys in the queue. The
keys a halted loop sleeps on count as well. -/
def Pc.work (count : ℕ) : Pc → ℕ
  | .lock => 13 * count + 4
  | .testCount => 13 * count + 3
  | .unlockEmpty => 13 * count + 2
  | .hlt => 13 * count + 1
  | .halted => 13 * count
  | .frontPos => 13 * count + 2
  | .frontData _ => 13 * count + 1
  | .popTest => 13 * count
  | .popCountLoad => 13 * count - 1
  | .popCountStore _ => 13 * count - 2
  | .popPosLoad => 13 * count + 10
  | .popPosStore _ => 13 * count + 9
  | .popPosTest => 13 * count + 8
  | .popPosWrap => 13 * count + 7
  | .unlockKey => 13 * count + 6
  | .process => 13 * count + 5

/-- The work left to the main loop. -/
def KeySystem.work (s : KeySystem) : ℕ := s.pc.work s.keydat.count

def KeyAction.isInterrupt : KeyAction → Bool
  | .main => false
  | .interrupt _ => true

variable {s t : KeySystem}

/-! ### What a step does to the work left -/

/-- Each step of the main loop does some of the work. -/
theorem KeyInv.work_main (h : KeyInv s) (hstep : mainStep s = some t) : t.work < s.work := by
  have hat := h.at_point
  cases hpc : s.pc <;> rw [hpc] at hat <;>
    simp only [mainStep, hpc, Option.some.injEq, reduceCtorEq] at hstep
  -- the lock is free outside the handler, so one round of `Lock` is enough
  case lock =>
    rw [lockAttempt_of_clear (h.flag_clear (by rw [hpc]; rfl))] at hstep
    subst hstep
    simp only [KeySystem.work, hpc]
    exact Nat.lt_succ_self _
  -- either way is one step nearer: to sleep, or to the key
  case testCount =>
    subst hstep
    simp only [KeySystem.work, hpc]
    split_ifs <;> exact Nat.lt_succ_self _
  case frontData pos =>
    obtain ⟨key, -, rfl⟩ := Option.map_eq_some_iff.mp hstep
    simp only [KeySystem.work, hpc]
    exact Nat.lt_succ_self _
  -- the queue is not empty: it was tested under the lock
  case popTest =>
    subst hstep
    simp only [KeySystem.work, hpc, if_neg hat.2.1.ne', Pc.work]
    exact Nat.sub_lt (Nat.mul_pos (by decide) hat.2.1) Nat.one_pos
  case popCountLoad =>
    subst hstep
    have hpos : 0 < s.keydat.count := hat.2.1
    simp only [KeySystem.work, hpc, Pc.work]
    omega
  case popCountStore count =>
    -- the key leaves the queue and is decoded from the local `key`
    obtain ⟨-, hpos, -, rfl⟩ := hat
    subst hstep
    simp only [KeySystem.work, hpc, Pc.work, sizeDec_of_pos hpos]
    omega
  case popPosTest =>
    subst hstep
    simp only [KeySystem.work, hpc]
    split_ifs
    · exact Nat.lt_succ_self _
    · exact Nat.lt_add_of_pos_right (n := 13 * s.keydat.count + 6) (k := 2) Nat.two_pos
  all_goals
    subst hstep
    simp only [KeySystem.work, hpc]
    exact Nat.lt_succ_self _

/-- Waking up a halted processor costs the four steps that find the queue empty again. -/
theorem Pc.work_wake_le (pc : Pc) (count : ℕ) : pc.wake.work count ≤ pc.work count + 4 := by
  cases pc <;> first | exact le_rfl | exact Nat.le_add_right _ _

/-- One more key outside the critical section is one more key to take. -/
theorem Pc.work_succ {pc : Pc} (hcrit : pc.critical = false) (count : ℕ) :
    pc.work (count + 1) = pc.work count + 13 := by
  cases pc <;> first | (simp only [Pc.work]; omega) | cases hcrit

/-- An interrupt brings at most one key and one wake-up. -/
theorem KeyInv.work_interrupt (h : KeyInv s) {dat : BitVec 8}
    (hstep : interruptStep dat s = some t) : t.work ≤ s.work + 17 := by
  cases hcrit : s.pc.critical with
  | true =>
    rw [interruptStep_locked h hcrit] at hstep
    obtain rfl := Option.some.inj hstep
    exact Nat.le_add_right _ _
  | false =>
    have hwake := s.pc.work_wake_le s.keydat.count
    rcases h.count_le.lt_or_eq with hroom | hfull
    · rw [interruptStep_push h hcrit hroom] at hstep
      obtain rfl := Option.some.inj hstep
      change s.pc.wake.work (s.keydat.count + 1) ≤ s.pc.work s.keydat.count + 17
      -- thirteen steps for the key and four for the wake-up
      rw [Pc.work_succ ((Pc.critical_wake _).trans hcrit)]
      omega
    · rw [interruptStep_full h hcrit hfull] at hstep
      obtain rfl := Option.some.inj hstep
      exact hwake.trans (Nat.add_le_add_left (by decide) _)

/-! ### Bounded work -/

/-- The steps of the main loop and the work left are paid for by the interrupts. -/
theorem main_steps_le {actions : List KeyAction}
    (hrun : run keyStep KeySystem.start actions = some s) :
    s.work + actions.countP (fun a => !a.isInterrupt) ≤
      4 + 17 * actions.countP KeyAction.isInterrupt := by
  refine countP_add_le (I := KeyInv) KeySystem.work 17 _ _ ?_ KeyInv.start hrun
  intro s a t h hstep
  refine ⟨h.step s a t hstep, ?_⟩
  cases a with
  | main => exact h.work_main hstep
  | interrupt dat => exact h.work_interrupt hstep

/-! ### Going to sleep -/

/-- Left alone, the main loop goes to sleep within the work left, with an empty queue and
everything accepted decoded. -/
def Drains (s : KeySystem) : Prop :=
  ∃ n ≤ s.work, ∃ t, run keyStep s (List.replicate n .main) = some t ∧ t.pc = .halted ∧
    t.keydat.count = 0 ∧ t.taken = s.accepted ∧ (t.shifted, t.typed) = decodeKeys s.accepted

/-- The loop is not asleep on pending keys, nor about to be. -/
def Awake (s : KeySystem) : Prop := s.pc = .hlt ∨ s.pc = .halted → s.keydat.count = 0

theorem mainStep_to_halted (hstep : mainStep s = some t) (hhalted : t.pc = .halted) :
    s.pc = .hlt ∧ t.keydat = s.keydat := by
  cases hpc : s.pc with
  | hlt =>
    simp only [mainStep, hpc, Option.some.injEq] at hstep
    exact hstep ▸ ⟨rfl, rfl⟩
  | halted => simp [mainStep, hpc] at hstep
  | frontData pos =>
    simp only [mainStep, hpc] at hstep
    obtain ⟨key, -, rfl⟩ := Option.map_eq_some_iff.mp hstep
    cases hhalted
  | _ =>
    simp only [mainStep, hpc, Option.some.injEq] at hstep
    subst hstep
    first
      | cases hhalted
      | split_ifs at hhalted

theorem Awake.main (h : KeyInv s) (hawake : Awake s) (hstep : mainStep s = some t) : Awake t := by
  rintro (hhlt | hhalted)
  · obtain ⟨hpc, hsame⟩ := mainStep_to_hlt hstep hhlt
    obtain ⟨-, hcount⟩ : AtPoint s.keydat s.key .unlockEmpty := hpc ▸ h.at_point
    rw [hsame, hcount]
  · obtain ⟨hpc, hsame⟩ := mainStep_to_halted hstep hhalted
    rw [hsame, hawake (.inl hpc)]

/-- A loop that is awake drains the queue. -/
theorem Awake.drains (h : KeyInv s) (hdecoded : Decoded s) (hawake : Awake s) : Drains s := by
  have hprogress : ∀ u, ((KeyInv u ∧ Decoded u) ∧ Awake u ∧ u.accepted = s.accepted) →
      u.pc ≠ .halted → ∃ t, keyStep u .main = some t ∧
        ((KeyInv t ∧ Decoded t) ∧ Awake t ∧ t.accepted = s.accepted) ∧ t.work < u.work := by
    rintro u ⟨hu, hawake, haccepted⟩ hrunning
    obtain ⟨t, ht⟩ := Option.isSome_iff_exists.mp (hu.1.running hrunning)
    exact ⟨t, ht, ⟨Decoded.step u .main t hu ht, hawake.main hu.1 ht,
      (mainStep_records ht).2.1.trans haccepted⟩, hu.1.work_main ht⟩
  -- each step of the loop does some of the work left, and the loop can only end asleep
  obtain ⟨n, hle, t, hrun, ⟨⟨hinv, hcodes⟩, hempty, haccepted⟩, hhalted⟩ :=
    run_replicate_of_measure KeyAction.main KeySystem.work hprogress ⟨⟨h, hdecoded⟩, hawake, rfl⟩
  have hcount : t.keydat.count = 0 := hempty (.inr hhalted)
  have hbacklog : t.keydat.backlog = [] := by
    rw [← List.length_eq_zero_iff, ArrayQueue.length_backlog _ (by omega), hcount]
  have htaken : t.taken = s.accepted := by
    rw [← haccepted, ← hinv.stream, hbacklog, List.append_nil]
  obtain ⟨codes, hsplit, hstate⟩ := hcodes
  rw [hhalted] at hsplit
  obtain rfl : t.taken = codes := hsplit.trans (List.append_nil codes)
  exact ⟨n, hle, t, hrun, hhalted, hcount, htaken, htaken ▸ hstate⟩

/-- An interrupt wakes a halted loop, whatever was pending. -/
theorem awake_of_interrupt (hhalted : s.pc = .halted) {dat : BitVec 8}
    (hstep : interruptStep dat s = some t) : Awake t := by
  obtain ⟨result, -, rfl⟩ := Option.map_eq_some_iff.mp hstep
  intro hasleep
  change s.pc.wake = .hlt ∨ s.pc.wake = .halted at hasleep
  rw [hhalted] at hasleep
  rcases hasleep with hhlt | hhalted
  · cases hhlt
  · cases hhalted

/-- **Progress.** In every run of the key loop under interrupts the main loop takes no more than
four steps and seventeen for each interrupt, the work still left included. From every state reached
in which it is neither asleep nor about to execute the `hlt` it drains the queue once interrupts
cease, and a processor that has halted, be it on pending keys, does so after the next interrupt. -/
theorem key_loop_drains {actions : List KeyAction}
    (hrun : run keyStep KeySystem.start actions = some s) :
    s.work + actions.countP (fun a => !a.isInterrupt) ≤
        4 + 17 * actions.countP KeyAction.isInterrupt ∧
      (s.pc ≠ .hlt → s.pc ≠ .halted → Drains s) ∧
      ∀ dat, s.pc = .halted → ∃ t, interruptStep dat s = some t ∧ Drains t := by
  obtain ⟨hinv, hdecoded⟩ := invariant_run Decoded.step ⟨KeyInv.start, [], rfl, rfl⟩ hrun
  refine ⟨main_steps_le hrun, ?_, ?_⟩
  · intro hhlt hhalted
    exact Awake.drains hinv hdecoded fun hasleep => (hasleep.elim hhlt hhalted).elim
  · intro dat hhalted
    obtain ⟨t, ht⟩ := Option.isSome_iff_exists.mp (hinv.handled dat)
    obtain ⟨hinv', hdecoded'⟩ := Decoded.step s (.interrupt dat) t ⟨hinv, hdecoded⟩ ht
    exact ⟨t, ht, Awake.drains hinv' hdecoded' (awake_of_interrupt hhalted ht)⟩

/-- A key that arrives between the unlock and the `hlt` is slept on, and the next one wakes the
loop for both. -/
theorem key_loop_drains_late_key :
    ∃ s, run keyStep KeySystem.start [.main, .main, .main, .interrupt 0x1e, .main] = some s ∧
      s.keydat.count = 1 ∧ ∃ t, interruptStep 0x9e s = some t ∧ Drains t := by
  have hend : (run keyStep KeySystem.start [.main, .main, .main, .interrupt 0x1e, .main]).map
      (fun s => (s.pc, s.keydat.count)) = some (.halted, 1) := by decide +kernel
  obtain ⟨s, hrun, hs⟩ := Option.map_eq_some_iff.mp hend
  obtain ⟨hpc, hcount⟩ := Prod.mk.inj hs
  exact ⟨s, hrun, hcount, (key_loop_drains hrun).2.2 0x9e hpc⟩

end Bitnos
