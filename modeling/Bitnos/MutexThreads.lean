/-
# Threads that share a spin lock

Any number of threads take the lock with `Lock` or `TryLock`, increment a shared
counter by reading it and writing it back, and release the lock. A thread may be
interrupted between any two accesses to memory; `CompareExchange` and `LFencedWrite`
are one access each.
-/

import Bitnos.Math.Run
import Bitnos.Mutex
import Mathlib.Algebra.BigOperators.Group.Finset.Basic

namespace Bitnos

open PartialRun SpinLockMutex

/-- Where a thread stands. -/
inductive ThreadPc
  /-- between two rounds -/
  | idle
  /-- `Lock`, before its `CompareExchange` -/
  | lock
  /-- `TryLock`, before its `CompareExchange` -/
  | tryLock
  /-- before the counter is read -/
  | load
  /-- before the counter is written, with the value read -/
  | store (value : BitVec 32)
  /-- `Unlock`, before its `LFencedWrite` -/
  | unlock
  /-- past the last round -/
  | finished
  deriving DecidableEq

/-- The points between acquiring and releasing. -/
def ThreadPc.holding : ThreadPc → Bool
  | .load | .store _ | .unlock => true
  | _ => false

/-- The increments of the current round that are in memory already. -/
def ThreadPc.pending : ThreadPc → ℕ
  | .unlock => 1
  | _ => 0

/-- What a thread does next. Between rounds it is free to choose. -/
inductive ThreadAction
  | callLock
  | callTryLock
  | finish
  /-- the next access to memory -/
  | run
  deriving DecidableEq

/-- The lock, the counter and the threads, each with the rounds it has completed. -/
structure Threads (ι : Type*) where
  mutex : SpinLockMutex
  counter : BitVec 32
  pc : ι → ThreadPc
  rounds : ι → ℕ

namespace Threads

variable {ι : Type*}

/-- A fresh lock, a zero counter and no thread under way. -/
def start : Threads ι where
  mutex := .clear
  counter := 0
  pc _ := .idle
  rounds _ := 0

variable [DecidableEq ι]

/-- A thread moves on. -/
def goto (s : Threads ι) (i : ι) (pc : ThreadPc) : Threads ι :=
  { s with pc := Function.update s.pc i pc }

/-- One step of one thread. It refuses what the thread cannot do where it stands. -/
def step (s : Threads ι) (action : ι × ThreadAction) : Option (Threads ι) :=
  let i := action.1
  match s.pc i, action.2 with
  | .idle, .callLock => some (s.goto i .lock)
  | .idle, .callTryLock => some (s.goto i .tryLock)
  | .idle, .finish => some (s.goto i .finished)
  | .lock, .run =>
    let attempt := s.mutex.lockAttempt
    some ({ s with mutex := attempt.2 }.goto i (if attempt.1 then .lock else .load))
  | .tryLock, .run =>
    let attempt := s.mutex.tryLock
    some ({ s with mutex := attempt.2 }.goto i (if attempt.1 then .load else .idle))
  | .load, .run => some (s.goto i (.store s.counter))
  | .store value, .run => some ({ s with counter := value + 1 }.goto i .unlock)
  | .unlock, .run =>
    some ({ s with
      mutex := s.mutex.unlock
      rounds := Function.update s.rounds i (s.rounds i + 1) }.goto i .idle)
  | _, _ => none

/-- Some thread is between acquiring and releasing. -/
def Held (s : Threads ι) : Prop := ∃ i, (s.pc i).holding = true

section Steps

variable {s : Threads ι} {i : ι}

theorem pc_goto_self (s : Threads ι) (i : ι) (pc : ThreadPc) : (s.goto i pc).pc i = pc :=
  Function.update_self _ _ _

theorem pc_goto_of_ne {j : ι} (hne : j ≠ i) (s : Threads ι) (pc : ThreadPc) :
    (s.goto i pc).pc j = s.pc j :=
  Function.update_of_ne hne _ _

end Steps

variable [Fintype ι]

/-- The increments in memory: one for each completed round, and those of the rounds that
end with the next `Unlock`. -/
def increments (s : Threads ι) : ℕ := ∑ i, (s.rounds i + (s.pc i).pending)

/-- What every step of every thread preserves. -/
structure MutexInv (s : Threads ι) : Prop where
  exclusive : ∀ i j, (s.pc i).holding = true → (s.pc j).holding = true → i = j
  flagged : s.Held → s.mutex.flag = kFlagged
  clear : ¬ s.Held → s.mutex.flag = kClear
  /-- nobody writes the counter between a read and the write that follows it -/
  loaded : ∀ i value, s.pc i = .store value → value = s.counter
  counted : s.counter = BitVec.ofNat 32 s.increments

namespace MutexInv

variable {s t : Threads ι} {i : ι} {pc : ThreadPc}

omit [DecidableEq ι] in
theorem start : MutexInv (start : Threads ι) where
  exclusive _ _ hi := by cases hi
  flagged := by
    rintro ⟨i, hi⟩
    cases hi
  clear _ := rfl
  loaded _ _ hpc := by cases hpc
  counted := by simp [Threads.start, increments, ThreadPc.pending]

/-- A single thread that moves changes the increments by its own only. -/
theorem increments_goto (s : Threads ι) (i : ι) (pc : ThreadPc) :
    (s.goto i pc).increments + (s.pc i).pending = s.increments + pc.pending := by
  have hothers : ∑ j ∈ Finset.univ.erase i, ((s.goto i pc).rounds j + ((s.goto i pc).pc j).pending) =
      ∑ j ∈ Finset.univ.erase i, (s.rounds j + (s.pc j).pending) := by
    apply Finset.sum_congr rfl
    intro j hj
    rw [pc_goto_of_ne (Finset.ne_of_mem_erase hj)]
    rfl
  have hbefore := Finset.add_sum_erase Finset.univ (fun j => s.rounds j + (s.pc j).pending)
    (Finset.mem_univ i)
  have hafter := Finset.add_sum_erase Finset.univ
    (fun j => (s.goto i pc).rounds j + ((s.goto i pc).pc j).pending) (Finset.mem_univ i)
  rw [hothers, pc_goto_self] at hafter
  simp only [increments]
  change s.rounds i + pc.pending + _ = _ at hafter
  omega

/-- Moving a thread that stays on its side of the lock. -/
theorem goto (h : MutexInv s) (hholding : pc.holding = (s.pc i).holding)
    (hpending : pc.pending = (s.pc i).pending)
    (hloaded : ∀ value, pc = .store value → value = s.counter) : MutexInv (s.goto i pc) := by
  have hsame : ∀ j, ((s.goto i pc).pc j).holding = (s.pc j).holding := by
    intro j
    by_cases hj : j = i
    · subst hj
      rw [pc_goto_self, hholding]
    · rw [pc_goto_of_ne hj]
  have hheld : (s.goto i pc).Held ↔ s.Held := exists_congr fun j => by rw [hsame]
  refine ⟨?_, ?_, ?_, ?_, ?_⟩
  · intro j k hj hk
    rw [hsame] at hj hk
    exact h.exclusive j k hj hk
  · exact fun hg => h.flagged (hheld.mp hg)
  · exact fun hg => h.clear (mt hheld.mpr hg)
  · intro j value hj
    by_cases hji : j = i
    · subst hji
      rw [pc_goto_self] at hj
      exact hloaded value hj
    · rw [pc_goto_of_ne hji] at hj
      exact h.loaded j value hj
  · have hincrements := increments_goto s i pc
    have heq : (s.goto i pc).increments = s.increments := by omega
    exact heq ▸ h.counted

/-- A thread that finds the flag clear becomes the only holder. -/
theorem acquire (h : MutexInv s) (hfree : ¬ s.Held) (hpc : (s.pc i).pending = 0) :
    MutexInv ({ s with mutex := ⟨kFlagged⟩ }.goto i .load) := by
  set t := ({ s with mutex := ⟨kFlagged⟩ } : Threads ι).goto i .load with ht
  have honly : ∀ j, (t.pc j).holding = true → j = i := by
    intro j hj
    by_contra hne
    rw [ht, pc_goto_of_ne hne] at hj
    exact hfree ⟨j, hj⟩
  have hself : t.pc i = .load := pc_goto_self _ _ _
  refine ⟨?_, fun _ => rfl, ?_, ?_, ?_⟩
  · intro j k hj hk
    rw [honly j hj, honly k hk]
  · exact fun hnone => absurd ⟨i, by rw [hself]; rfl⟩ hnone
  · intro j value hj
    have hji := honly j (by rw [hj]; rfl)
    rw [hji, hself] at hj
    cases hj
  · have hincrements := increments_goto { s with mutex := ⟨kFlagged⟩ } i .load
    have heq : t.increments = s.increments := by
      change t.increments + (s.pc i).pending = s.increments + 0 at hincrements
      rw [hpc] at hincrements
      exact hincrements
    exact heq ▸ h.counted

/-- The holder writes the counter back: it holds one increment more. -/
theorem store (h : MutexInv s) {value : BitVec 32} (hpc : s.pc i = .store value) :
    MutexInv ({ s with counter := value + 1 }.goto i .unlock) := by
  set t := ({ s with counter := value + 1 } : Threads ι).goto i .unlock with ht
  have hholding : ∀ j, (t.pc j).holding = (s.pc j).holding := by
    intro j
    by_cases hj : j = i
    · rw [hj, hpc, ht, pc_goto_self]
      rfl
    · rw [ht, pc_goto_of_ne hj]
  have hheld : s.Held := ⟨i, by rw [hpc]; rfl⟩
  refine ⟨?_, fun _ => h.flagged hheld, ?_, ?_, ?_⟩
  · intro j k hj hk
    rw [hholding] at hj hk
    exact h.exclusive j k hj hk
  · intro hnone
    exact absurd ⟨i, by rw [ht, pc_goto_self]; rfl⟩ hnone
  · -- no other thread is between its read and its write
    intro j value' hj
    have hji : j = i := by
      apply h.exclusive j i
      · rw [← hholding, hj]
        rfl
      · rw [hpc]
        rfl
    rw [hji, ht, pc_goto_self] at hj
    cases hj
  · have hincrements := increments_goto { s with counter := value + 1 } i .unlock
    have heq : t.increments = s.increments + 1 := by
      change t.increments + (s.pc i).pending = s.increments + 1 at hincrements
      rw [hpc] at hincrements
      exact hincrements
    rw [heq, BitVec.ofNat_add, ← h.counted, ← h.loaded i value hpc]
    rfl

/-- The holder releases the lock: the round is complete. -/
theorem release (h : MutexInv s) (hpc : s.pc i = .unlock) :
    MutexInv ({ s with
      mutex := s.mutex.unlock
      rounds := Function.update s.rounds i (s.rounds i + 1) }.goto i .idle) := by
  set t := ({ s with
    mutex := s.mutex.unlock
    rounds := Function.update s.rounds i (s.rounds i + 1) } : Threads ι).goto i .idle with ht
  have hnone : ∀ j, (t.pc j).holding = false := by
    intro j
    by_cases hj : j = i
    · rw [hj, ht, pc_goto_self]
      rfl
    · rw [ht, pc_goto_of_ne hj]
      by_contra hholding
      exact hj (h.exclusive j i (Bool.eq_true_of_not_eq_false hholding) (by rw [hpc]; rfl))
  have hfree : ¬ t.Held := by
    rintro ⟨j, hj⟩
    rw [hnone] at hj
    cases hj
  refine ⟨?_, fun hheld => absurd hheld hfree, fun _ => rfl, ?_, ?_⟩
  · intro j k hj
    rw [hnone] at hj
    cases hj
  · intro j value hj
    have hholding := hnone j
    rw [hj] at hholding
    cases hholding
  · -- the increment moves from the round under way to those completed
    have heq : t.increments = s.increments := by
      apply Finset.sum_congr rfl
      intro j _
      by_cases hj : j = i
      · rw [hj, ht, pc_goto_self, hpc]
        exact congrArg (· + 0) (Function.update_self _ _ _)
      · rw [ht, pc_goto_of_ne hj]
        exact congrArg (· + _) (Function.update_of_ne hj _ _)
    exact heq ▸ h.counted

omit [DecidableEq ι] in
/-- The flag tells whether the lock is held. -/
theorem held_iff (h : MutexInv s) : s.Held ↔ s.mutex.flag = kFlagged := by
  refine ⟨h.flagged, fun hflag => ?_⟩
  by_contra hfree
  rw [h.clear hfree] at hflag
  cases hflag

/-- `Lock` goes round its loop once more, or acquires. -/
theorem lockAttempt (h : MutexInv s) (hpc : s.pc i = .lock) :
    MutexInv ({ s with mutex := s.mutex.lockAttempt.2 }.goto i
      (if s.mutex.lockAttempt.1 then .lock else .load)) := by
  by_cases hheld : s.Held
  · rw [lockAttempt_of_flagged (h.flagged hheld)]
    exact h.goto (by rw [hpc]; rfl) (by rw [hpc]; rfl) nofun
  · rw [lockAttempt_of_clear (h.clear hheld)]
    exact h.acquire hheld (by rw [hpc]; rfl)

/-- `TryLock` gives up, or acquires. -/
theorem tryLock (h : MutexInv s) (hpc : s.pc i = .tryLock) :
    MutexInv ({ s with mutex := s.mutex.tryLock.2 }.goto i
      (if s.mutex.tryLock.1 then .load else .idle)) := by
  by_cases hheld : s.Held
  · rw [tryLock_of_ne_clear (ne_clear_of_flagged (h.flagged hheld))]
    exact h.goto (by rw [hpc]; rfl) (by rw [hpc]; rfl) nofun
  · rw [tryLock_of_clear (h.clear hheld)]
    exact h.acquire hheld (by rw [hpc]; rfl)

theorem step (s : Threads ι) (action : ι × ThreadAction) (t : Threads ι) (h : MutexInv s)
    (hstep : s.step action = some t) : MutexInv t := by
  obtain ⟨i, action⟩ := action
  cases hpc : s.pc i <;> cases action <;>
    simp only [Threads.step, hpc, Option.some.injEq, reduceCtorEq] at hstep <;> subst hstep
  case idle.callLock | idle.callTryLock | idle.finish =>
    exact h.goto (by rw [hpc]; rfl) (by rw [hpc]; rfl) nofun
  case lock.run => exact h.lockAttempt hpc
  case tryLock.run => exact h.tryLock hpc
  case load.run =>
    refine h.goto (by rw [hpc]; rfl) (by rw [hpc]; rfl) ?_
    exact fun value hvalue => (ThreadPc.store.inj hvalue).symm
  case store.run value => exact h.store hpc
  case unlock.run => exact h.release hpc

end MutexInv

/-! ### Mutual exclusion -/

/-- The call changes the flag from clear to set. -/
def Acquires (before after : SpinLockMutex) : Prop :=
  before.flag = kClear ∧ after.flag = kFlagged

/-- What a state owes the threads. -/
structure MutexSafe (s : Threads ι) : Prop where
  /-- at most one thread is between acquiring and releasing -/
  exclusive : ∀ i j, (s.pc i).holding = true → (s.pc j).holding = true → i = j
  /-- the flag is 1 exactly when some thread is -/
  locked_iff : s.mutex.isLocked = true ↔ s.Held
  /-- `TryLock` returns true exactly when it acquires, and else leaves the lock alone -/
  tryLock_iff : s.mutex.tryLock.1 = true ↔ Acquires s.mutex s.mutex.tryLock.2
  tryLock_false : s.mutex.tryLock.1 = false → s.mutex.tryLock.2 = s.mutex
  /-- the loop of `Lock` ends exactly when it acquires -/
  lock_iff : s.mutex.lockAttempt.1 = false ↔ Acquires s.mutex s.mutex.lockAttempt.2
  /-- no increment is lost -/
  counted : (∀ i, s.pc i = .finished) → s.counter = BitVec.ofNat 32 (∑ i, s.rounds i)

omit [DecidableEq ι] in
theorem MutexInv.mutexSafe (s : Threads ι) (h : MutexInv s) : MutexSafe s := by
  have hcounted : (∀ i, s.pc i = .finished) →
      s.counter = BitVec.ofNat 32 (∑ i, s.rounds i) := by
    intro hfinished
    rw [h.counted, increments]
    simp only [hfinished]
    rfl
  have hlocked : s.mutex.isLocked = true ↔ s.Held := beq_iff_eq.trans h.held_iff.symm
  by_cases hheld : s.Held
  · have hflag := h.flagged hheld
    have hset : s.mutex.flag ≠ kClear := ne_clear_of_flagged hflag
    have hnot : ∀ m, ¬ Acquires s.mutex m := fun m hacquires => hset hacquires.1
    refine ⟨h.exclusive, hlocked, ?_, ?_, ?_, hcounted⟩
    · rw [tryLock_of_ne_clear hset]
      exact iff_of_false Bool.false_ne_true (hnot _)
    · rw [tryLock_of_ne_clear hset]
      exact fun _ => rfl
    · -- a flag that is set is 1, so the loop goes round again
      rw [lockAttempt_of_flagged hflag]
      exact iff_of_false nofun (hnot _)
  · have hflag := h.clear hheld
    refine ⟨h.exclusive, hlocked, ?_, ?_, ?_, hcounted⟩
    · rw [tryLock_of_clear hflag]
      exact iff_of_true rfl ⟨hflag, rfl⟩
    · rw [tryLock_of_clear hflag]
      nofun
    · rw [lockAttempt_of_clear hflag]
      exact iff_of_true rfl ⟨hflag, rfl⟩

/-- **Mutual exclusion.** In every interleaving of any number of threads at most one is
between acquiring and releasing, the flag says whether one is, and no increment is lost. -/
theorem mutex_safe (actions : List (ι × ThreadAction)) :
    Along step MutexSafe (start : Threads ι) actions :=
  along_of_invariant MutexInv.step MutexInv.mutexSafe MutexInv.start

end Threads

end Bitnos
