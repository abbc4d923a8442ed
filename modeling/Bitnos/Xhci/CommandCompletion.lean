/-
# Which commands are executed

The driver puts every command into the first block of the ring, and the controller
never comes back to a block. So the first command is executed and completed, and a
second one never is: the driver waits for ever for its completion event.
-/

import Bitnos.Xhci.CommandLoop

namespace Bitnos.Xhci

open CycleRing PartialRun

variable {table : SegmentTable} {ctx : BitVec 64} {dcaddrs : List (BitVec 64)}
  {s t : CommandSystem}

/-! ### Commands -/

/-- The commands of the whole array. -/
def commands (ctx : BitVec 64) (dcaddrs : List (BitVec 64)) : List TRB := commandsFrom ctx 0 dcaddrs

theorem length_commandsFrom (slotId : ℤ) (dcaddrs : List (BitVec 64)) :
    (commandsFrom ctx slotId dcaddrs).length = dcaddrs.countP (· ≠ 0#64) := by
  induction dcaddrs generalizing slotId with
  | nil => rfl
  | cons dcaddr rest ih =>
    rw [commandsFrom]
    by_cases hnull : dcaddr = 0#64
    · rw [if_pos hnull, ih, List.countP_cons_of_neg (by simpa)]
    · rw [if_neg hnull, List.length_cons, ih, List.countP_cons_of_pos (by simpa)]

/-- A command belongs to the controller in its first lap. -/
theorem tag_commandTrb (slotId : ℤ) : (commandTrb ctx slotId).tag = true := by
  rw [TRB.tag, commandTrb, ConfigureEndpointCommandTRB.cycleBit_dwords]
  rfl

/-! ### The invariant -/

/-- A command is being built, or is out. -/
def LoopPc.inFlight : LoopPc → Bool
  | .next | .done => false
  | _ => true

/-- The doorbell was rung for the command. -/
def LoopPc.rung : LoopPc → Bool
  | .waitRunning | .waitFront | .pop => true
  | _ => false

/-- What holds until the first completion event is popped: the controller sleeps until
the doorbell, finds the whole command in the first block, and works on it. -/
structure FirstCommand (ctx : BitVec 64) (s : CommandSystem) : Prop where
  idle : s.pc.rung = false → s.ringing = false ∧ s.running = false ∧ s.executed = []
  staged : ∀ i, s.pc = .put i → ∀ j : Fin 4, j < i →
    s.firstBlock.dword j = (commandTrb ctx s.slotId).dword j
  placed : s.pc = .doorbell ∨ s.pc.rung = true → s.firstBlock = commandTrb ctx s.slotId
  started : s.pc.rung = true → s.executed = [] → s.ringing = true ∨ s.running = true
  waiting : s.pc = .waitRunning → s.crr = false → s.ringing = true

/-- Before anything was put into the ring the first command is only to come. -/
theorem FirstCommand.of_quiet
    (hidle : s.ringing = false ∧ s.running = false ∧ s.executed = []) (hrung : s.pc.rung = false)
    (hput : ∀ i, s.pc = .put i → i = 0) (hdoorbell : s.pc ≠ .doorbell) : FirstCommand ctx s where
  idle _ := hidle
  staged i hi j hj := by
    obtain rfl := hput i hi
    exact absurd hj (Nat.not_lt_zero _)
  placed hplaced := by
    rw [hrung] at hplaced
    rcases hplaced with hplaced | hplaced
    · exact absurd hplaced hdoorbell
    · cases hplaced
  started hstarted := by
    rw [hrung] at hstarted
    cases hstarted
  waiting hwait := by
    rw [hwait] at hrung
    cases hrung

/-- Nothing changes for a command that is out while the driver waits for it. -/
theorem FirstCommand.moveOn (h : FirstCommand ctx s) (hrung : s.pc.rung = true) {pc : LoopPc}
    (hpc : pc.rung = true) (hstarted : pc ≠ .waitRunning) : FirstCommand ctx { s with pc } where
  idle hquiet := by
    rw [hpc] at hquiet
    cases hquiet
  staged i hput := by
    obtain rfl : pc = .put i := hput
    cases hpc
  placed _ := h.placed (.inr hrung)
  started _ := h.started hrung
  waiting hwait := absurd hwait hstarted

/-- What holds in every state of a run. Blocks other than the first are never written,
so at most the first command is executed; events and commands are in step. -/
structure CommandInv (table : SegmentTable) (ctx : BitVec 64) (dcaddrs : List (BitVec 64))
    (s : CommandSystem) : Prop where
  events : EventInv table s.events
  upper : ∀ k (hk : k < 8), 0 < k → s.crBuf[k].tag = false
  cycle : s.cycleState = true
  dequeue : s.crDequeue = s.executed.length
  executed : s.executed <+: (commands ctx dcaddrs).take 1
  completions : s.events.posted.length + s.uncompleted = s.executed.length
  issued : ∃ taken : List TRB, taken.length = s.events.popped.length ∧ commands ctx dcaddrs =
    taken ++ (if s.pc.inFlight then [commandTrb ctx s.slotId] else []) ++
      commandsFrom ctx (s.slotId + 1) s.rest
  finished : s.pc = .done → s.rest = []
  saw : s.pc = .pop → s.events.sawFront = true
  first : s.events.popped = [] → FirstCommand ctx s

namespace CommandInv

theorem start {m : Manager} (hm : table.DescribedBy m) :
    CommandInv table ctx dcaddrs (.start m dcaddrs) where
  events := .start hm
  upper := by
    intro k hk hpos
    simp only [CommandSystem.start, Vector.getElem_replicate, TRB.tag_zero]
  cycle := rfl
  dequeue := rfl
  executed := List.nil_prefix
  completions := rfl
  issued := ⟨[], rfl, rfl⟩
  finished := nofun
  saw := nofun
  first _ := .of_quiet ⟨rfl, rfl, rfl⟩ rfl nofun nofun

/-- Everything popped was posted, and everything posted was executed. -/
theorem popped_le (h : CommandInv table ctx dcaddrs s) :
    s.events.popped.length ≤ s.executed.length := by
  have hle := h.events.holds.taken_le
  have hcompletions := h.completions
  omega

theorem executed_le (h : CommandInv table ctx dcaddrs s) : s.executed.length ≤ 1 := by
  have hle := h.executed.length_le
  rw [List.length_take] at hle
  omega

/-- Only the first block can be executed, and only while it holds the first command. -/
theorem nextCommand_eq (h : CommandInv table ctx dcaddrs s) (hrun : s.running = true) {trb : TRB}
    (hnext : s.nextCommand = some trb) :
    s.executed = [] ∧ [trb] = (commands ctx dcaddrs).take 1 := by
  obtain ⟨hget, htag⟩ := Option.filter_eq_some_iff.mp hnext
  rw [h.cycle, decide_eq_true_iff] at htag
  obtain ⟨hlt, hcell⟩ := Vector.getElem?_eq_some_iff.mp hget
  -- a block behind the first still has the cycle bit 0
  have hzero : s.crDequeue = 0 := by
    by_contra hpos
    rw [← hcell, h.upper _ hlt (Nat.pos_of_ne_zero hpos)] at htag
    cases htag
  have hempty : s.executed = [] := List.eq_nil_of_length_eq_zero (h.dequeue ▸ hzero)
  have hpopped : s.events.popped = [] := by
    have hle := h.popped_le
    rw [hempty, List.length_nil] at hle
    exact List.eq_nil_of_length_eq_zero (Nat.le_zero.mp hle)
  have hfirst := h.first hpopped
  -- a controller that runs was woken by the doorbell
  have hrung : s.pc.rung = true := by
    by_contra hquiet
    have hidle := (hfirst.idle (Bool.eq_false_of_not_eq_true hquiet)).2.1
    rw [hrun] at hidle
    cases hidle
  have hflight : s.pc.inFlight = true := by
    cases hpc : s.pc <;> rw [hpc] at hrung <;> first | rfl | cases hrung
  obtain ⟨taken, htaken, hissued⟩ := h.issued
  rw [hpopped] at htaken
  obtain rfl := List.eq_nil_of_length_eq_zero htaken
  have htrb : trb = commandTrb ctx s.slotId := by
    rw [← hfirst.placed (.inr hrung), ← hcell]
    simp only [hzero]
    rfl
  refine ⟨hempty, ?_⟩
  rw [hissued, hflight, htrb]
  rfl

/-- A command that is out and not executed is the controller's next. -/
theorem nextCommand_of_rung (h : CommandInv table ctx dcaddrs s) (hpopped : s.events.popped = [])
    (hrung : s.pc.rung = true) (hempty : s.executed = []) :
    s.nextCommand = some (commandTrb ctx s.slotId) := by
  have hplaced := (h.first hpopped).placed (.inr hrung)
  have hzero : s.crDequeue = 0 := by rw [h.dequeue, hempty, List.length_nil]
  rw [CommandSystem.nextCommand, Option.filter_eq_some_iff, h.cycle, tag_commandTrb]
  refine ⟨Vector.getElem?_eq_some_iff.mpr ⟨by omega, ?_⟩, rfl⟩
  rw [← hplaced]
  simp only [hzero]
  rfl

/-! ### Steps of the controller -/

theorem accept (h : CommandInv table ctx dcaddrs s) (hstep : commandStep ctx s .accept = some t) :
    CommandInv table ctx dcaddrs t := by
  rw [commandStep] at hstep
  by_cases hring : s.ringing = true
  · rw [if_pos hring] at hstep
    obtain rfl := Option.some.inj hstep
    refine { h with first := ?_ }
    intro hpopped
    have hfirst := h.first hpopped
    refine { hfirst with idle := ?_, started := ?_, waiting := ?_ }
    · intro hquiet
      have hidle := (hfirst.idle hquiet).1
      rw [hring] at hidle
      cases hidle
    -- the doorbell taken up is a controller that runs
    · exact fun _ _ => .inr rfl
    · intro _ hcrr
      cases hcrr
  · rw [if_neg hring] at hstep
    cases hstep

/-- The controller stops when it finds nothing more to execute. -/
theorem stop (h : CommandInv table ctx dcaddrs s) (hnext : s.nextCommand = none) :
    CommandInv table ctx dcaddrs { s with running := false } := by
  refine { h with first := ?_ }
  intro hpopped
  have hfirst := h.first hpopped
  refine { hfirst with idle := ?_, started := ?_ }
  · intro hquiet
    have hidle := hfirst.idle hquiet
    exact ⟨hidle.1, rfl, hidle.2.2⟩
  · -- a command that is out is found, so the controller did not stop before it
    intro hrung hempty
    rw [h.nextCommand_of_rung hpopped hrung hempty] at hnext
    cases hnext

/-- What the controller executes is the first command of all. -/
theorem executeNext (h : CommandInv table ctx dcaddrs s) (hrun : s.running = true) {trb : TRB}
    (hnext : s.nextCommand = some trb) :
    CommandInv table ctx dcaddrs { s with
      executed := s.executed ++ [trb]
      crDequeue := s.crDequeue + 1
      uncompleted := s.uncompleted + 1 } := by
  obtain ⟨hempty, htake⟩ := h.nextCommand_eq hrun hnext
  have hcompletions := h.completions
  refine { h with dequeue := ?_, executed := ?_, completions := ?_, first := ?_ }
  · rw [List.length_append, List.length_singleton, h.dequeue]
  · rw [hempty, List.nil_append, htake]
  · change s.events.posted.length + (s.uncompleted + 1) = (s.executed ++ [trb]).length
    rw [List.length_append, List.length_singleton]
    omega
  · intro hpopped
    have hfirst := h.first hpopped
    refine { hfirst with idle := ?_, started := ?_ }
    · intro hquiet
      have hidle := (hfirst.idle hquiet).2.1
      rw [hrun] at hidle
      cases hidle
    · exact fun _ _ => .inr hrun

theorem execute (h : CommandInv table ctx dcaddrs s) (hstep : commandStep ctx s .execute = some t) :
    CommandInv table ctx dcaddrs t := by
  rw [commandStep] at hstep
  by_cases hrun : s.running = true
  · rw [if_pos hrun] at hstep
    cases hnext : s.nextCommand with
    | none =>
      rw [hnext] at hstep
      obtain rfl := Option.some.inj hstep
      exact h.stop hnext
    | some trb =>
      rw [hnext] at hstep
      obtain rfl := Option.some.inj hstep
      exact h.executeNext hrun hnext
  · rw [if_neg hrun] at hstep
    cases hstep

theorem complete (h : CommandInv table ctx dcaddrs s) {event : TRB} {flags : BitVec 4}
    (hstep : commandStep ctx s (.complete event flags) = some t) :
    CommandInv table ctx dcaddrs t := by
  rw [commandStep] at hstep
  by_cases hpos : 0 < s.uncompleted
  · rw [if_pos hpos] at hstep
    obtain ⟨events, hpost, rfl⟩ := Option.map_eq_some_iff.mp hstep
    obtain ⟨hpopped, hsaw, hposted⟩ := EventInv.logs_of_post hpost
    have hcompletions := h.completions
    refine { h with
      events := h.events.post hpost, completions := ?_, issued := ?_, saw := ?_, first := ?_ }
    · change events.posted.length + (s.uncompleted - 1) = s.executed.length
      omega
    · rw [hpopped]
      exact h.issued
    · rw [hsaw]
      exact h.saw
    · rw [hpopped]
      exact fun hnone => { h.first hnone with }
  · rw [if_neg hpos] at hstep
    cases hstep

/-! ### Steps of the driver -/

/-- Move to another point of the same iteration. -/
theorem goto (h : CommandInv table ctx dcaddrs s) {pc : LoopPc}
    (hflight : pc.inFlight = s.pc.inFlight) (hfinished : pc = .done → s.rest = [])
    (hsaw : pc = .pop → s.events.sawFront = true)
    (hfirst : s.events.popped = [] → FirstCommand ctx { s with pc }) :
    CommandInv table ctx dcaddrs { s with pc } := by
  refine { h with issued := ?_, finished := hfinished, saw := hsaw, first := hfirst }
  rw [hflight]
  exact h.issued

theorem idle_of_quiet (h : CommandInv table ctx dcaddrs s) (hquiet : s.pc.rung = false)
    (hpopped : s.events.popped = []) :
    s.ringing = false ∧ s.running = false ∧ s.executed = [] :=
  (h.first hpopped).idle hquiet

/-- A null entry uses up a slot id and makes no command. -/
theorem skip (h : CommandInv table ctx dcaddrs s) (hpc : s.pc = .next) {rest : List (BitVec 64)}
    (hrest : s.rest = 0#64 :: rest) :
    CommandInv table ctx dcaddrs { s with rest, slotId := s.slotId + 1 } := by
  obtain ⟨taken, htaken, hissued⟩ := h.issued
  rw [hpc, hrest, commandsFrom, if_pos rfl] at hissued
  refine { h with issued := ?_, finished := ?_, first := ?_ }
  · exact ⟨taken, htaken, by rw [hpc]; exact hissued⟩
  · intro hdone
    rw [hpc] at hdone
    cases hdone
  · intro hpopped
    apply FirstCommand.of_quiet
    · exact h.idle_of_quiet (by rw [hpc]; rfl) hpopped
    · rw [hpc]
      rfl
    · intro i hput
      rw [hpc] at hput
      cases hput
    · rw [hpc]
      nofun

/-- Any other entry makes the next command. -/
theorem build (h : CommandInv table ctx dcaddrs s) (hpc : s.pc = .next) {dcaddr : BitVec 64}
    {rest : List (BitVec 64)} (hrest : s.rest = dcaddr :: rest) (hnull : dcaddr ≠ 0#64) :
    CommandInv table ctx dcaddrs { s with pc := .put 0, rest, slotId := s.slotId + 1 } := by
  obtain ⟨taken, htaken, hissued⟩ := h.issued
  rw [hpc, hrest, commandsFrom, if_neg hnull] at hissued
  refine { h with issued := ?_, finished := nofun, saw := nofun, first := ?_ }
  · refine ⟨taken, htaken, ?_⟩
    rw [hissued]
    simp [LoopPc.inFlight]
  · intro hpopped
    apply FirstCommand.of_quiet
    · exact h.idle_of_quiet (by rw [hpc]; rfl) hpopped
    · rfl
    · exact fun i hput => (LoopPc.put.inj hput).symm
    · nofun

theorem next (h : CommandInv table ctx dcaddrs s) (hpc : s.pc = .next)
    (hstep : driverStep ctx s = some t) : CommandInv table ctx dcaddrs t := by
  cases hrest : s.rest with
  | nil =>
    rw [driverStep_next_nil hpc hrest] at hstep
    obtain rfl := Option.some.inj hstep
    apply h.goto
    · rw [hpc]
      rfl
    · exact fun _ => hrest
    · nofun
    · intro hpopped
      exact .of_quiet (h.idle_of_quiet (by rw [hpc]; rfl) hpopped) rfl nofun nofun
  | cons dcaddr rest =>
    by_cases hnull : dcaddr = 0#64
    · subst hnull
      rw [driverStep_next_null hpc hrest] at hstep
      obtain rfl := Option.some.inj hstep
      exact h.skip hpc hrest
    · rw [driverStep_next_cons hpc hrest hnull] at hstep
      obtain rfl := Option.some.inj hstep
      exact h.build hpc hrest hnull

/-- Writing a word of the command leaves the earlier words as they are. -/
theorem dword_putWord (h : CommandInv table ctx dcaddrs s) {i : Fin 4} (hpc : s.pc = .put i)
    (hpopped : s.events.popped = []) (j : Fin 4) (hj : j ≤ i) :
    (s.putWord i ((commandTrb ctx s.slotId).dword i)).firstBlock.dword j =
      (commandTrb ctx s.slotId).dword j := by
  rw [CommandSystem.firstBlock_putWord, TRB.dword_setDword]
  by_cases heq : i = j
  · subst heq
    rw [if_pos rfl]
  · rw [if_neg heq]
    exact (h.first hpopped).staged i hpc j (by omega)

theorem putWord (h : CommandInv table ctx dcaddrs s) {i : Fin 4} (hpc : s.pc = .put i) :
    CommandInv table ctx dcaddrs (s.putWord i ((commandTrb ctx s.slotId).dword i)) := by
  have hidle := h.idle_of_quiet (by rw [hpc]; rfl)
  refine { h with upper := ?_, first := ?_ }
  · -- the blocks behind the first are not touched
    intro k hk hpos
    rw [CommandSystem.getElem_putWord _ _ _ hk hpos]
    exact h.upper k hk hpos
  · intro hpopped
    have hpc' : (s.putWord i ((commandTrb ctx s.slotId).dword i)).pc = .put i := hpc
    refine ⟨fun _ => hidle hpopped, ?_, ?_, ?_, ?_⟩
    · intro i' hput j hj
      rw [hpc'] at hput
      obtain rfl := LoopPc.put.inj hput
      exact h.dword_putWord hpc hpopped j (Nat.le_of_lt hj)
    · rw [hpc']
      rintro (hplaced | hplaced) <;> cases hplaced
    · rw [hpc']
      nofun
    · rw [hpc']
      nofun

theorem put (h : CommandInv table ctx dcaddrs s) {i : Fin 4} (hpc : s.pc = .put i)
    (hstep : driverStep ctx s = some t) : CommandInv table ctx dcaddrs t := by
  have hidle := h.idle_of_quiet (by rw [hpc]; rfl)
  have hflight : s.pc.inFlight = true := by rw [hpc]; rfl
  rw [driverStep_put hpc] at hstep
  obtain rfl := Option.some.inj hstep
  by_cases hmore : i.val + 1 < 4
  · rw [dif_pos hmore]
    apply (h.putWord hpc).goto
    · exact hflight.symm
    · nofun
    · nofun
    · intro hpopped
      refine ⟨fun _ => hidle hpopped, ?_, ?_, nofun, nofun⟩
      · intro i' hput j hj
        obtain rfl := LoopPc.put.inj hput
        exact h.dword_putWord hpc hpopped j (Nat.le_of_lt_succ hj)
      · rintro (hplaced | hplaced) <;> cases hplaced
  · rw [dif_neg hmore]
    apply (h.putWord hpc).goto
    · exact hflight.symm
    · nofun
    · nofun
    · intro hpopped
      refine ⟨fun _ => hidle hpopped, nofun, ?_, nofun, nofun⟩
      -- the last word was written, so the block is the command
      intro _
      apply TRB.ext_dword
      intro j
      exact h.dword_putWord hpc hpopped j (by omega)

theorem ring (h : CommandInv table ctx dcaddrs s) (hpc : s.pc = .doorbell)
    (hstep : driverStep ctx s = some t) : CommandInv table ctx dcaddrs t := by
  rw [driverStep_doorbell hpc] at hstep
  obtain rfl := Option.some.inj hstep
  refine { h with issued := ?_, finished := nofun, saw := nofun, first := ?_ }
  · obtain ⟨taken, htaken, hissued⟩ := h.issued
    rw [hpc] at hissued
    exact ⟨taken, htaken, hissued⟩
  · intro hpopped
    have hplaced := (h.first hpopped).placed (.inl hpc)
    exact ⟨nofun, nofun, fun _ => hplaced, fun _ _ => .inl rfl, fun _ _ => rfl⟩

theorem waitRunning (h : CommandInv table ctx dcaddrs s) (hpc : s.pc = .waitRunning)
    (hstep : driverStep ctx s = some t) : CommandInv table ctx dcaddrs t := by
  have hrung : s.pc.rung = true := by rw [hpc]; rfl
  rw [driverStep_waitRunning hpc] at hstep
  obtain rfl := Option.some.inj hstep
  by_cases hcrr : s.crr = true
  · rw [if_pos hcrr]
    apply h.goto
    · rw [hpc]
      rfl
    · nofun
    · nofun
    · exact fun hpopped => (h.first hpopped).moveOn hrung rfl nofun
  · rw [if_neg hcrr]
    exact h

theorem waitFront (h : CommandInv table ctx dcaddrs s) (hpc : s.pc = .waitFront)
    (hstep : driverStep ctx s = some t) : CommandInv table ctx dcaddrs t := by
  have hrung : s.pc.rung = true := by rw [hpc]; rfl
  have hflight : s.pc.inFlight = true := by rw [hpc]; rfl
  rw [driverStep_waitFront hpc] at hstep
  obtain ⟨events, hfront, rfl⟩ := Option.map_eq_some_iff.mp hstep
  have hlogs : events.popped = s.events.popped ∧ events.posted = s.events.posted := by
    obtain rfl := Option.some.inj hfront
    exact ⟨rfl, rfl⟩
  have hlooked : CommandInv table ctx dcaddrs { s with events } := by
    refine { h with
      events := h.events.step _ _ _ hfront, completions := ?_, issued := ?_, saw := ?_,
      first := ?_ }
    · rw [hlogs.2]
      exact h.completions
    · rw [hlogs.1]
      exact h.issued
    · intro hpop
      rw [hpc] at hpop
      cases hpop
    · rw [hlogs.1]
      exact fun hpopped => { h.first hpopped with }
  by_cases hsaw : events.sawFront = true
  · rw [if_pos hsaw]
    apply hlooked.goto
    · exact hflight.symm
    · nofun
    · exact fun _ => hsaw
    · exact fun hpopped => (hlooked.first hpopped).moveOn hrung rfl nofun
  · -- nothing there yet: look again
    rw [if_neg hsaw, ← hpc]
    exact hlooked

theorem pop (h : CommandInv table ctx dcaddrs s) (hpc : s.pc = .pop)
    (hstep : driverStep ctx s = some t) : CommandInv table ctx dcaddrs t := by
  rw [driverStep_pop hpc] at hstep
  obtain ⟨events, hpop, rfl⟩ := Option.map_eq_some_iff.mp hstep
  obtain ⟨hpopped, hposted⟩ := EventInv.logs_of_pop hpop
  refine { h with
    events := h.events.pop hpop, completions := ?_, issued := ?_, finished := nofun, saw := nofun,
    first := ?_ }
  · rw [hposted]
    exact h.completions
  · -- the command in flight is one of those taken from now on
    obtain ⟨taken, htaken, hissued⟩ := h.issued
    rw [hpc] at hissued
    refine ⟨taken ++ [commandTrb ctx s.slotId], ?_, ?_⟩
    · rw [List.length_append, htaken, hpopped]
      rfl
    · rw [hissued]
      simp [LoopPc.inFlight]
  · intro hnone
    rw [hnone] at hpopped
    cases hpopped

theorem step (s : CommandSystem) (a : CommandAction) (t : CommandSystem)
    (h : CommandInv table ctx dcaddrs s) (hstep : commandStep ctx s a = some t) :
    CommandInv table ctx dcaddrs t := by
  cases a with
  | accept => exact h.accept hstep
  | execute => exact h.execute hstep
  | complete event flags => exact h.complete hstep
  | driver =>
    change driverStep ctx s = some t at hstep
    cases hpc : s.pc with
    | next => exact h.next hpc hstep
    | put i => exact h.put hpc hstep
    | doorbell => exact h.ring hpc hstep
    | waitRunning => exact h.waitRunning hpc hstep
    | waitFront => exact h.waitFront hpc hstep
    | pop => exact h.pop hpc hstep
    | done =>
      rw [driverStep, hpc] at hstep
      cases hstep

/-! ### The end of the loop -/

/-- A loop that ended has sent at most one command. -/
theorem eq_of_done (h : CommandInv table ctx dcaddrs s) (hdone : s.pc = .done) :
    s.executed = commands ctx dcaddrs ∧
      s.events.popped.length = (commands ctx dcaddrs).length ∧ (commands ctx dcaddrs).length ≤ 1 := by
  obtain ⟨taken, htaken, hissued⟩ := h.issued
  rw [hdone, h.finished hdone] at hissued
  have hcommands : commands ctx dcaddrs = taken := by simpa [LoopPc.inFlight, commandsFrom] using hissued
  have hpopped : s.events.popped.length = (commands ctx dcaddrs).length := by rw [hcommands, htaken]
  -- as many were popped as were taken, and at most one was executed
  have hle := h.popped_le
  have hone := h.executed_le
  have hbegins := h.executed
  rw [List.take_of_length_le (by omega)] at hbegins
  exact ⟨hbegins.eq_of_length (Nat.le_antisymm hbegins.length_le (by omega)), hpopped, by omega⟩

/-- With one command at most, a command in flight is the first. -/
theorem popped_of_inFlight (h : CommandInv table ctx dcaddrs s)
    (hone : (commands ctx dcaddrs).length ≤ 1) (hflight : s.pc.inFlight = true) :
    s.events.popped = [] := by
  obtain ⟨taken, htaken, hissued⟩ := h.issued
  have hlength := congrArg List.length hissued
  rw [hflight, List.length_append, List.length_append] at hlength
  simp only [if_true, List.length_singleton] at hlength
  exact List.eq_nil_of_length_eq_zero (by omega)

end CommandInv

/-- How far the driver is from the end of an iteration. -/
def LoopPc.weight : LoopPc → ℕ
  | .done => 0
  | .next => 1
  | .pop => 10
  | .waitFront => 15
  | .waitRunning => 20
  | .doorbell => 36
  | .put i => 40 - i

/-- A measure of the work left to both sides. -/
def CommandSystem.work (s : CommandSystem) : ℕ :=
  64 * s.rest.length + s.pc.weight + (if s.ringing then 4 else 0) + 2 * (1 - s.executed.length) +
    s.uncompleted

/-- Some step brings the end nearer. -/
def CommandSystem.Advances (ctx : BitVec 64) (s : CommandSystem) : Prop :=
  ∃ a t, commandStep ctx s a = some t ∧ t.work < s.work

namespace CommandSystem

theorem advances_of_ringing (hring : s.ringing = true) : s.Advances ctx := by
  refine ⟨.accept, _, if_pos hring, ?_⟩
  simp only [work, hring, if_true, Bool.false_eq_true, if_false]
  omega

theorem advances_next (hpc : s.pc = .next) : s.Advances ctx := by
  cases hrest : s.rest with
  | nil =>
    refine ⟨.driver, _, driverStep_next_nil hpc hrest, ?_⟩
    simp only [work, hpc, LoopPc.weight]
    omega
  | cons dcaddr rest =>
    by_cases hnull : dcaddr = 0#64
    · subst hnull
      refine ⟨.driver, _, driverStep_next_null hpc hrest, ?_⟩
      simp only [work, hrest, List.length_cons]
      omega
    · refine ⟨.driver, _, driverStep_next_cons hpc hrest hnull, ?_⟩
      simp only [work, hpc, hrest, List.length_cons, LoopPc.weight]
      omega

theorem advances_put {i : Fin 4} (hpc : s.pc = .put i) : s.Advances ctx := by
  refine ⟨.driver, _, driverStep_put hpc, ?_⟩
  by_cases hmore : i.val + 1 < 4
  · simp only [work, putWord, hpc, dif_pos hmore, LoopPc.weight]
    omega
  · simp only [work, putWord, hpc, dif_neg hmore, LoopPc.weight]
    omega

end CommandSystem

namespace CommandInv

theorem advances_waitRunning (h : CommandInv table ctx dcaddrs s) (hpopped : s.events.popped = [])
    (hpc : s.pc = .waitRunning) : s.Advances ctx := by
  by_cases hcrr : s.crr = true
  · refine ⟨.driver, _, driverStep_waitRunning hpc, ?_⟩
    simp only [CommandSystem.work, hpc, hcrr, if_true, LoopPc.weight]
    omega
  · -- CRR still reads 0: the controller has the doorbell to take up
    have hring := (h.first hpopped).waiting hpc (Bool.eq_false_of_not_eq_true hcrr)
    exact CommandSystem.advances_of_ringing hring

/-- The controller has the first command still to execute. -/
theorem advances_of_not_executed (h : CommandInv table ctx dcaddrs s)
    (hpopped : s.events.popped = []) (hrung : s.pc.rung = true) (hexecuted : s.executed = []) :
    s.Advances ctx := by
  rcases (h.first hpopped).started hrung hexecuted with hring | hrun
  · exact CommandSystem.advances_of_ringing hring
  · have hnext := h.nextCommand_of_rung hpopped hrung hexecuted
    refine ⟨.execute, _, by rw [commandStep, if_pos hrun, hnext], ?_⟩
    simp only [CommandSystem.work, hexecuted, List.nil_append, List.length_singleton,
      List.length_nil]
    omega

/-- The controller has the completion event of a command still to post. -/
theorem advances_of_uncompleted (h : CommandInv table ctx dcaddrs s) (hpos : 0 < s.uncompleted)
    (hempty : s.events.posted.length ≤ s.events.popped.length) : s.Advances ctx := by
  obtain ⟨events, hpost⟩ := h.events.exists_post hempty .zero 0#4
  refine ⟨.complete .zero 0#4, { s with events, uncompleted := s.uncompleted - 1 }, ?_, ?_⟩
  · rw [commandStep, if_pos hpos, hpost]
    rfl
  · simp only [CommandSystem.work]
    omega

theorem advances_waitFront (h : CommandInv table ctx dcaddrs s) (hpopped : s.events.popped = [])
    (hpc : s.pc = .waitFront) : s.Advances ctx := by
  cases hsaw : s.events.manager.hasFront with
  | true =>
    refine ⟨.driver, _, driverStep_waitFront hpc, ?_⟩
    simp only [CommandSystem.work, hpc, hsaw, if_true, LoopPc.weight]
    omega
  | false =>
    -- no event waits, so none was posted
    have hempty : s.events.posted.length ≤ s.events.popped.length := by
      by_contra hlt
      rw [h.events.hasFront_iff.mpr (Nat.lt_of_not_le hlt)] at hsaw
      cases hsaw
    by_cases hexecuted : s.executed = []
    · exact h.advances_of_not_executed hpopped (by rw [hpc]; rfl) hexecuted
    · have hpos : 0 < s.executed.length := List.length_pos_of_ne_nil hexecuted
      have hcompletions := h.completions
      rw [hpopped, List.length_nil] at hempty
      exact h.advances_of_uncompleted (by omega) (by omega)

/-- With one command at most, some step always brings the end nearer. -/
theorem progress (hone : (commands ctx dcaddrs).length ≤ 1) (h : CommandInv table ctx dcaddrs s)
    (hrunning : s.pc ≠ .done) : s.Advances ctx := by
  have hfirst := h.popped_of_inFlight hone
  cases hpc : s.pc with
  | done => exact absurd hpc hrunning
  | next => exact CommandSystem.advances_next hpc
  | put i => exact CommandSystem.advances_put hpc
  | doorbell =>
    refine ⟨.driver, _, driverStep_doorbell hpc, ?_⟩
    simp only [CommandSystem.work, hpc, LoopPc.weight, if_true]
    omega
  | waitRunning => exact h.advances_waitRunning (hfirst (by rw [hpc]; rfl)) hpc
  | waitFront => exact h.advances_waitFront (hfirst (by rw [hpc]; rfl)) hpc
  | pop =>
    refine ⟨.driver, _, (driverStep_pop hpc).trans (congrArg _ (if_pos (h.saw hpc))), ?_⟩
    simp only [CommandSystem.work, hpc, LoopPc.weight]
    omega

end CommandInv

/-- The loop gets these commands executed: when it ends, each was executed once and in
order and one completion event was popped for each; and it never waits in vain. -/
structure Serves (ctx : BitVec 64) (start : CommandSystem) (cmds : List TRB) : Prop where
  executes : ∀ s, Reachable (commandStep ctx) start s → s.pc = .done →
    s.executed = cmds ∧ s.events.popped.length = cmds.length
  ends : ∀ s, Reachable (commandStep ctx) start s →
    ∃ t, Reachable (commandStep ctx) s t ∧ t.pc = .done

/-- **The command loop.** It gets its commands executed exactly when at most one entry
of the array is not null. -/
theorem serves_iff {m : Manager} (hm : table.DescribedBy m) (ctx : BitVec 64)
    (dcaddrs : List (BitVec 64)) :
    Serves ctx (.start m dcaddrs) (commands ctx dcaddrs) ↔ dcaddrs.countP (· ≠ 0#64) ≤ 1 := by
  have hinv : ∀ s, Reachable (commandStep ctx) (.start m dcaddrs) s →
      CommandInv table ctx dcaddrs s :=
    fun s => invariant_reachable CommandInv.step (.start hm)
  have hcount : (commands ctx dcaddrs).length = dcaddrs.countP (· ≠ 0#64) :=
    length_commandsFrom 0 dcaddrs
  rw [← hcount]
  constructor
  · intro hserves
    -- some run ends, and a run that ended sent at most one command
    obtain ⟨s, hreach, hdone⟩ := hserves.ends _ .refl
    exact ((hinv s hreach).eq_of_done hdone).2.2
  · intro hone
    refine ⟨?_, ?_⟩
    · intro s hreach hdone
      obtain ⟨hexecuted, hpopped, -⟩ := (hinv s hreach).eq_of_done hdone
      exact ⟨hexecuted, hpopped⟩
    · intro s hreach
      obtain ⟨t, htail, -, hdone⟩ := reachable_of_measure CommandSystem.work
        (fun u hu hrunning => by
          obtain ⟨a, v, hstep, hlt⟩ := hu.progress hone hrunning
          exact ⟨a, v, hstep, hu.step u a v hstep, hlt⟩) (hinv s hreach)
      exact ⟨t, htail, hdone⟩

/-- One device in slot 1. -/
theorem serves_one : twoSegments.DescribedBy twoSegmentsManager ∧
    Serves 0x8000#64 (.start twoSegmentsManager [0#64, 0x5000#64, 0#64])
      (commands 0x8000#64 [0#64, 0x5000#64, 0#64]) :=
  have hdescribed : twoSegments.DescribedBy twoSegmentsManager := ⟨rfl, by decide +kernel⟩
  ⟨hdescribed, (serves_iff hdescribed _ _).mpr (by decide)⟩

/-- With devices in slots 1 and 2 the loop never ends. -/
theorem not_serves_two : ¬ Serves 0x8000#64 (.start twoSegmentsManager [0#64, 0x5000#64, 0x6000#64])
    (commands 0x8000#64 [0#64, 0x5000#64, 0x6000#64]) := by
  intro hserves
  obtain ⟨s, hreach, hdone⟩ := hserves.ends _ .refl
  have hdescribed : twoSegments.DescribedBy twoSegmentsManager := ⟨rfl, by decide +kernel⟩
  have hinv := invariant_reachable CommandInv.step (.start hdescribed) hreach
  have hone := (hinv.eq_of_done hdone).2.2
  exact absurd hone (by decide)

end Bitnos.Xhci
