/-
# Resetting the event ring under a running controller

`Manager::Initialize` writes ERSTBA first, which makes the controller start over at the
first slot, and zeroes the segments last. A controller that is running may post events
in between. They are lost exactly when they go to a segment that is zeroed later.
-/

import Bitnos.Xhci.EventFifo

namespace Bitnos.Xhci

open CycleRing PartialRun

/-- Where `Initialize` stands, by what it does next. -/
inductive ResetPc
  /-- read ERSTBA and write it back -/
  | reload
  /-- set the fields of the manager -/
  | setFields
  /-- write ERDP -/
  | writeDequeue
  /-- test the loop condition, and zero the segment if it holds -/
  | clear (i : ℕ)
  | returned
  deriving DecidableEq

/-- `Initialize` at work next to the controller, whose `cursor` and `unreleased` slots are
as in `EventSystem`. The log collects the blocks posted since ERSTBA was rewritten. -/
structure ResetSystem where
  manager : Manager
  pc : ResetPc
  cursor : Cursor
  unreleased : List (BitVec 64)
  posted : List TRB

inductive ResetAction
  /-- the next step of `Initialize` -/
  | driver
  /-- The controller posts an event and leaves its flags in the low bits of ERDP. -/
  | post (event : TRB) (flags : BitVec 4)

namespace Manager

/-- An entry of the table the registers point to, where the controller finds it. -/
def registerSegment (m : Manager) (i : ℕ) : SegmentTableEntry :=
  m.memory.entries (clearBits m.intRegSet.erstba 0x3f#64 + BitVec.ofNat 64 (16 * i))

/-- The number of entries the registers give. -/
def registerCount (m : Manager) : ℕ := (m.intRegSet.erstsz &&& 0xffff#32).toNat

end Manager

namespace ResetSystem

/-- Before `Initialize`, with the controller anywhere in a ring in use. -/
def start (m : Manager) (cursor : Cursor) (unreleased : List (BitVec 64)) : ResetSystem where
  manager := m
  pc := .reload
  cursor := cursor
  unreleased := unreleased
  posted := []

/-- The slot the controller writes next. -/
def enqueueSlot (s : ResetSystem) : BitVec 64 :=
  (s.manager.registerSegment s.cursor.segment).slot s.cursor.index

/-- One step of `Initialize`. -/
def driverStep (s : ResetSystem) : Option ResetSystem :=
  match s.pc with
  | .reload =>
    -- the register keeps its value, but the controller starts over
    some { s with pc := .setFields, cursor := .start true, unreleased := [], posted := [] }
  | .setFields =>
    some { s with
      pc := .writeDequeue
      manager := { s.manager with
        producerCycle := 1#8
        erst := clearBits s.manager.intRegSet.erstba 0x3f#64
        erstSize := (s.manager.intRegSet.erstsz &&& 0xffff#32).toNat
        erstIndex := 0 } }
  | .writeDequeue =>
    some { s with
      pc := .clear 0
      manager := s.manager.writeDequeuePointer (s.manager.segment 0).begin }
  | .clear i =>
    if i < s.manager.erstSize then
      some { s with pc := .clear (i + 1), manager := s.manager.clearSegment (s.manager.segment i) }
    else some { s with pc := .returned }
  | .returned => none

/-- The number of segments zeroed so far. -/
def cleared (s : ResetSystem) : ℕ :=
  match s.pc with
  | .clear i => i
  | .returned => s.manager.registerCount
  | _ => 0

end ResetSystem

def resetStep (s : ResetSystem) : ResetAction → Option ResetSystem
  | .driver => s.driverStep
  | .post event flags =>
    -- a full ring holds the controller up
    if s.unreleased.contains s.enqueueSlot then none
    else
      let trb := event.withCycle s.cursor.tag
      let m := s.manager.writeTrb s.enqueueSlot trb
      some { s with
        manager := m.writeDequeuePointer (m.readDequeuePointer ||| flags.setWidth 64)
        cursor := s.cursor.advance s.manager.registerCount fun i => (s.manager.registerSegment i).size
        unreleased := s.unreleased ++ [s.enqueueSlot]
        -- what is posted before the rewrite is not asked for
        posted := if s.pc = .reload then s.posted else s.posted ++ [trb] }

/-- `Pop` while `HasFront`, with a bound on the number of rounds. -/
def drain : ℕ → Manager → Option (List TRB)
  | 0, _ => none
  | fuel + 1, m => if m.hasFront then (drain fuel m.pop).map (m.front :: ·) else some []

/-- An event is posted only before the ring is reset or to a segment already zeroed. -/
def PostsCleared (s : ResetSystem) : ResetAction → Prop
  | .driver => True
  | .post _ _ => s.pc = .reload ∨ s.cursor.segment < s.cleared

/-- An element of a list with one more at its end. -/
theorem getElem?_concat_cases {α : Type*} {xs : List α} {x y : α} {k : ℕ}
    (hk : (xs ++ [x])[k]? = some y) : xs[k]? = some y ∨ (k = xs.length ∧ x = y) := by
  rcases Nat.lt_trichotomy k xs.length with hlt | rfl | hgt
  · exact .inl (by rwa [List.getElem?_append_left hlt] at hk)
  · rw [List.getElem?_concat_length] at hk
    exact .inr ⟨rfl, Option.some.inj hk⟩
  · rw [List.getElem?_eq_none (by simpa using hgt)] at hk
    cases hk

/-! ### Without posts -/

/-- The rounds of the clearing loop from segment `i` on. -/
theorem run_clear (n i : ℕ) (s : ResetSystem) (hpc : s.pc = .clear i)
    (hn : s.manager.erstSize = i + n) :
    run resetStep s (List.replicate (n + 1) .driver) =
      some { s with
        pc := .returned
        manager := (List.range' i n).foldl (fun m i => m.clearSegment (m.segment i)) s.manager } := by
  induction n generalizing i s with
  | zero =>
    have hend : ¬ i < s.manager.erstSize := by omega
    rw [List.replicate_one, run_cons, resetStep, ResetSystem.driverStep, hpc]
    dsimp only
    rw [if_neg hend]
    rfl
  | succ n ih =>
    have hmore : i < s.manager.erstSize := by omega
    rw [List.replicate_succ, run_cons, resetStep, ResetSystem.driverStep, hpc]
    dsimp only
    rw [if_pos hmore, Option.bind_some, ih (i + 1) _ rfl ?_]
    · rfl
    · rw [Manager.clearSegment_eq]
      change s.manager.erstSize = _
      omega

/-- Without posts in between, the steps of `Initialize` do what it does at once. -/
theorem run_driver (m : Manager) (cursor : Cursor) (unreleased : List (BitVec 64)) :
    run resetStep (.start m cursor unreleased) (List.replicate (m.registerCount + 4) .driver) =
      some ⟨m.managerInitialize, .returned, .start true, [], []⟩ := by
  change run resetStep _ (.driver :: .driver :: .driver ::
    List.replicate (m.registerCount + 1) .driver) = _
  rw [run_cons_of_step rfl, run_cons_of_step rfl, run_cons_of_step rfl]
  refine (run_clear m.registerCount 0 _ rfl (Nat.zero_add _).symm).trans ?_
  rw [Manager.managerInitialize, List.range_eq_range']
  rfl

/-! ### The invariant -/

variable {table : SegmentTable} {s t : ResetSystem}

/-- The slot of a position lies in the segment of the position. -/
theorem SegmentTable.slot_mem_slots_iff {i k : ℕ} (hi : i < table.count) :
    table.layout.slot k ∈ (table.entry i).slots ↔ (table.position k).segment = i := by
  have hvalid := table.valid_position k
  rw [SegmentTableEntry.mem_slots]
  constructor
  · rintro ⟨j, hj, heq⟩
    by_contra hne
    exact table.disjoint i hi _ hvalid.segment_lt (Ne.symm hne) j hj _ hvalid.index_lt heq
  · rintro rfl
    exact ⟨_, hvalid.index_lt, rfl⟩

/-- What `Initialize` has done to the manager. -/
def ManagerAt (table : SegmentTable) (s : ResetSystem) : Prop :=
  match s.pc with
  | .reload | .setFields => True
  | .writeDequeue =>
    table.UsedBy s.manager ∧ s.manager.producerCycle = 1#8 ∧ s.manager.erstIndex = 0
  | .clear i => i ≤ table.count ∧ table.UsedBy s.manager ∧ table.DriverAt s.manager (.start true)
  | .returned => table.UsedBy s.manager ∧ table.DriverAt s.manager (.start true)

/-- What the controller has done since ERSTBA was rewritten. Slots not yet written are blank
where they have been zeroed. -/
structure Enqueued (table : SegmentTable) (s : ResetSystem) : Prop where
  cursor : s.cursor = table.position s.posted.length
  length_le : s.posted.length ≤ table.layout.size
  unreleased : s.unreleased = (List.range s.posted.length).map table.layout.slot
  tagged : ∀ k trb, s.posted[k]? = some trb → trb.tag = table.layout.tag k
  fresh : ∀ k, s.posted.length ≤ k → k < table.layout.size →
    (table.position k).segment < s.cleared → s.manager.memory.trbs (table.layout.slot k) = .zero

structure ResetInv (table : SegmentTable) (s : ResetSystem) : Prop where
  described : table.DescribedBy s.manager
  manager : ManagerAt table s
  empty : s.pc = .reload → s.posted = []
  enqueued : s.pc ≠ .reload → Enqueued table s

/-- No event posted since the rewrite is lost or about to be. -/
def Safe (table : SegmentTable) (s : ResetSystem) : Prop :=
  ∀ k trb, s.posted[k]? = some trb → (table.position k).segment < s.cleared ∧
    s.manager.memory.trbs (table.layout.slot k) = trb

/-- The step touched neither what the controller works on nor what is zeroed. -/
structure SameRing (s t : ResetSystem) : Prop where
  posted : t.posted = s.posted
  cursor : t.cursor = s.cursor
  unreleased : t.unreleased = s.unreleased
  trbs : t.manager.memory.trbs = s.manager.memory.trbs
  cleared : t.cleared = s.cleared

theorem SameRing.enqueued (h : SameRing s t) (hqueue : Enqueued table s) : Enqueued table t where
  cursor := by rw [h.cursor, h.posted, hqueue.cursor]
  length_le := h.posted ▸ hqueue.length_le
  unreleased := by rw [h.unreleased, h.posted, hqueue.unreleased]
  tagged := h.posted ▸ hqueue.tagged
  fresh k hle hk hcleared := by
    rw [h.posted] at hle
    rw [h.cleared] at hcleared
    exact h.trbs ▸ hqueue.fresh k hle hk hcleared

theorem SameRing.safe_iff (h : SameRing s t) : Safe table t ↔ Safe table s := by
  rw [Safe, Safe, h.posted, h.trbs, h.cleared]

namespace ResetInv

theorem start {m : Manager} (hm : table.DescribedBy m) (cursor : Cursor)
    (unreleased : List (BitVec 64)) : ResetInv table (.start m cursor unreleased) where
  described := hm
  manager := trivial
  empty _ := rfl
  enqueued hpc := absurd rfl hpc

theorem safe_of_reload (h : ResetInv table s) (hpc : s.pc = .reload) : Safe table s := by
  intro k trb hk
  rw [h.empty hpc] at hk
  exact absurd hk (by simp)

theorem enqueueSlot_eq (h : ResetInv table s) (hpc : s.pc ≠ .reload) :
    s.enqueueSlot = table.layout.slot s.posted.length := by
  have hvalid := table.valid_position s.posted.length
  have hentry : s.manager.registerSegment (table.position s.posted.length).segment =
      table.entry (table.position s.posted.length).segment := h.described.entries _ hvalid.segment_lt
  rw [ResetSystem.enqueueSlot, (h.enqueued hpc).cursor, hentry]
  rfl

end ResetInv

/-- What posting an event does. -/
theorem resetStep_post {event : TRB} {flags : BitVec 4}
    (hstep : resetStep s (.post event flags) = some t) :
    s.enqueueSlot ∉ s.unreleased ∧ t.pc = s.pc ∧
      t.manager = (s.manager.writeTrb s.enqueueSlot (event.withCycle s.cursor.tag)).writeDequeuePointer
        (s.manager.readDequeuePointer ||| flags.setWidth 64) ∧
      t.cursor = s.cursor.advance s.manager.registerCount
        (fun i => (s.manager.registerSegment i).size) ∧
      t.unreleased = s.unreleased ++ [s.enqueueSlot] ∧
      t.posted = if s.pc = .reload then s.posted
        else s.posted ++ [event.withCycle s.cursor.tag] := by
  by_cases hfull : s.enqueueSlot ∈ s.unreleased
  · rw [resetStep, if_pos (List.contains_iff_mem.mpr hfull)] at hstep
    cases hstep
  · rw [resetStep, if_neg (mt List.contains_iff_mem.mp hfull)] at hstep
    obtain rfl := Option.some.inj hstep
    exact ⟨hfull, rfl, rfl, rfl, rfl, rfl⟩

namespace SegmentTable

variable {m : Manager} {c : Cursor}

/-- The controller moves through the table the registers describe. -/
theorem DescribedBy.advance (h : table.DescribedBy m) (hc : c.Valid table.count table.size) :
    c.advance m.registerCount (fun i => (m.registerSegment i).size) =
      c.advance table.count table.size := by
  have hcount : m.registerCount = table.count := h.count
  have hentry : m.registerSegment c.segment = table.entry c.segment := h.entries _ hc.segment_lt
  unfold Cursor.advance
  simp only [hcount, hentry]
  rfl

end SegmentTable

namespace ResetInv

variable {event : TRB} {flags : BitVec 4}

theorem managerAt_post (h : ResetInv table s) (hstep : resetStep s (.post event flags) = some t) :
    ManagerAt table t := by
  obtain ⟨-, hpc, hmanager, -, -, -⟩ := resetStep_post hstep
  have hat := h.manager
  unfold ManagerAt at hat ⊢
  rw [hpc, hmanager]
  cases hcase : s.pc with
  | reload => trivial
  | setFields => trivial
  | writeDequeue =>
    rw [hcase] at hat
    exact ⟨hat.1.post .., hat.2.1, hat.2.2⟩
  | clear i =>
    rw [hcase] at hat
    exact ⟨hat.1, hat.2.1.post .., hat.2.2.post ..⟩
  | returned =>
    rw [hcase] at hat
    exact ⟨hat.1.post .., hat.2.post ..⟩

/-- After the rewrite the controller has room only within the first lap. -/
theorem length_lt_of_free (h : ResetInv table s) (hpc : s.pc ≠ .reload)
    (hfree : s.enqueueSlot ∉ s.unreleased) : s.posted.length < table.layout.size := by
  have hqueue := h.enqueued hpc
  rw [h.enqueueSlot_eq hpc, hqueue.unreleased, List.range_eq_range'] at hfree
  have hle : s.posted.length ≤ 0 + table.layout.size := (Nat.zero_add _).symm ▸ hqueue.length_le
  exact Nat.zero_add table.layout.size ▸ table.layout.lt_of_not_mem hle hfree

theorem cleared_post (hstep : resetStep s (.post event flags) = some t) : t.cleared = s.cleared := by
  obtain ⟨-, hpc, hmanager, -, -, -⟩ := resetStep_post hstep
  rw [ResetSystem.cleared, ResetSystem.cleared, hpc, hmanager]
  rfl

/-- Posting after the rewrite writes the next slot and no other. -/
theorem post_memory (h : ResetInv table s) (hpc : s.pc ≠ .reload)
    (hstep : resetStep s (.post event flags) = some t) :
    t.manager.memory.trbs (table.layout.slot s.posted.length) = event.withCycle s.cursor.tag ∧
      ∀ k < table.layout.size, k ≠ s.posted.length →
        t.manager.memory.trbs (table.layout.slot k) =
          s.manager.memory.trbs (table.layout.slot k) := by
  obtain ⟨hfree, -, hmanager, -, -, -⟩ := resetStep_post hstep
  have hlt := h.length_lt_of_free hpc hfree
  have hmemory : t.manager.memory.trbs = Function.update s.manager.memory.trbs
      (table.layout.slot s.posted.length) (event.withCycle s.cursor.tag) := by
    rw [hmanager, ← h.enqueueSlot_eq hpc]
    rfl
  rw [hmemory]
  refine ⟨Function.update_self .., fun k hk hne => Function.update_of_ne ?_ ..⟩
  rcases Nat.lt_or_gt_of_ne hne with hbefore | hafter
  · exact table.layout.slot_ne k _ hbefore (by omega)
  · exact (table.layout.slot_ne _ k hafter (by omega)).symm

theorem enqueued_post (h : ResetInv table s) (hpc : s.pc ≠ .reload)
    (hstep : resetStep s (.post event flags) = some t) : Enqueued table t := by
  obtain ⟨hfree, -, -, hcursor, hunreleased, hposted⟩ := resetStep_post hstep
  obtain ⟨hnew, hold⟩ := h.post_memory hpc hstep
  have hqueue := h.enqueued hpc
  have hlt := h.length_lt_of_free hpc hfree
  have hvalid := table.valid_position s.posted.length
  rw [if_neg hpc] at hposted
  have hlength : t.posted.length = s.posted.length + 1 := by
    rw [hposted, List.length_append, List.length_singleton]
  refine ⟨?_, hlength ▸ hlt, ?_, ?_, ?_⟩
  · rw [hcursor, hqueue.cursor, h.described.advance hvalid, hlength]
    exact (Cursor.position_succ _).symm
  · rw [hunreleased, hqueue.unreleased, h.enqueueSlot_eq hpc, hlength, List.range_succ, List.map_append]
    rfl
  · have htag : (event.withCycle s.cursor.tag).tag = table.layout.tag s.posted.length := by
      rw [TRB.tag_withCycle, hqueue.cursor]
      rfl
    intro k trb hk
    rw [hposted] at hk
    rcases getElem?_concat_cases hk with hbefore | ⟨rfl, rfl⟩
    · exact hqueue.tagged k trb hbefore
    · exact htag
  · intro k hle hk hcleared
    rw [cleared_post hstep] at hcleared
    rw [hold k hk (by omega)]
    exact hqueue.fresh k (by omega) hk hcleared

theorem post (h : ResetInv table s) (hstep : resetStep s (.post event flags) = some t) :
    ResetInv table t := by
  obtain ⟨-, hpc, hmanager, -, -, hposted⟩ := resetStep_post hstep
  refine ⟨?_, h.managerAt_post hstep, ?_, ?_⟩
  · rw [hmanager]
    exact ⟨h.described.count, h.described.entries⟩
  · intro hreload
    rw [hpc] at hreload
    rw [hposted, if_pos hreload, h.empty hreload]
  · intro hreset
    rw [hpc] at hreset
    exact h.enqueued_post hreset hstep

/-- An event posted after the rewrite is safe exactly if it goes to a segment already zeroed,
and it leaves the others as safe as they were. -/
theorem safe_post_iff (h : ResetInv table s) (hpc : s.pc ≠ .reload)
    (hstep : resetStep s (.post event flags) = some t) :
    Safe table t ↔ Safe table s ∧ s.cursor.segment < s.cleared := by
  obtain ⟨hfree, -, -, -, -, hposted⟩ := resetStep_post hstep
  obtain ⟨hnew, hold⟩ := h.post_memory hpc hstep
  have hlt := h.length_lt_of_free hpc hfree
  rw [if_neg hpc] at hposted
  have hlength : t.posted.length = s.posted.length + 1 := by
    rw [hposted, List.length_append, List.length_singleton]
  rw [(h.enqueued hpc).cursor]
  have hcleared := cleared_post hstep
  constructor
  · intro hsafe
    refine ⟨fun k trb hk => ?_, ?_⟩
    · obtain ⟨hk', -⟩ := List.getElem?_eq_some_iff.mp hk
      have hkept := hsafe k trb (by rw [hposted, List.getElem?_append_left hk', hk])
      rwa [hcleared, hold k (by omega) (by omega)] at hkept
    · have hlast := hsafe s.posted.length _ (by rw [hposted, List.getElem?_concat_length])
      exact hcleared ▸ hlast.1
  · rintro ⟨hsafe, hsegment⟩ k trb hk
    rw [hposted] at hk
    rw [hcleared]
    rcases getElem?_concat_cases hk with hbefore | ⟨rfl, rfl⟩
    · obtain ⟨hk', -⟩ := List.getElem?_eq_some_iff.mp hbefore
      rw [hold k (by omega) (by omega)]
      exact hsafe k trb hbefore
    · exact ⟨hsegment, hnew⟩

/-! ### The steps of `Initialize` -/

theorem registerCount_eq (h : ResetInv table s) : s.manager.registerCount = table.count :=
  h.described.count

/-- What zeroing segment `i` leaves in a slot. -/
theorem clearSegment_slot {m : Manager} {i : ℕ} (hused : table.UsedBy m) (hi : i < table.count)
    (k : ℕ) : (m.clearSegment (m.segment i)).memory.trbs (table.layout.slot k) =
      if (table.position k).segment = i then .zero else m.memory.trbs (table.layout.slot k) := by
  rw [Manager.clearSegment_eq, hused.segment i hi]
  simp only [Manager.withTrbs, Manager.cleared, SegmentTable.slot_mem_slots_iff hi]

theorem driver_reload (h : ResetInv table s) (hpc : s.pc = .reload) (hstep : s.driverStep = some t) :
    ResetInv table t ∧ (Safe table t ↔ Safe table s) := by
  rw [ResetSystem.driverStep, hpc] at hstep
  obtain rfl := Option.some.inj hstep
  refine ⟨⟨h.described, trivial, fun hreload => ResetPc.noConfusion hreload, fun _ => ?_⟩, ?_⟩
  · exact ⟨rfl, Nat.zero_le _, rfl, fun k trb hk => absurd hk (by simp),
      fun k _ _ hcleared => absurd hcleared (Nat.not_lt_zero _)⟩
  · exact iff_of_true (fun k trb hk => absurd hk (by simp)) (h.safe_of_reload hpc)

/-- A step of `Initialize` that leaves the ring alone. -/
theorem of_sameRing (h : ResetInv table s) (hsame : SameRing s t) (hs : s.pc ≠ .reload)
    (ht : t.pc ≠ .reload) (hdescribed : table.DescribedBy t.manager) (hat : ManagerAt table t) :
    ResetInv table t ∧ (Safe table t ↔ Safe table s) :=
  ⟨⟨hdescribed, hat, fun hreload => absurd hreload ht, fun _ => hsame.enqueued (h.enqueued hs)⟩,
    hsame.safe_iff⟩

theorem driver_setFields (h : ResetInv table s) (hpc : s.pc = .setFields)
    (hstep : s.driverStep = some t) : ResetInv table t ∧ (Safe table t ↔ Safe table s) := by
  have hcleared : s.cleared = 0 := by rw [ResetSystem.cleared, hpc]
  rw [ResetSystem.driverStep, hpc] at hstep
  obtain rfl := Option.some.inj hstep
  refine h.of_sameRing ⟨rfl, rfl, rfl, rfl, hcleared.symm⟩ (by simp [hpc]) ResetPc.noConfusion
    ⟨h.described.count, h.described.entries⟩ ?_
  exact ⟨⟨h.described.count, h.described.entries⟩, rfl, rfl⟩

theorem driver_writeDequeue (h : ResetInv table s) (hpc : s.pc = .writeDequeue)
    (hstep : s.driverStep = some t) : ResetInv table t ∧ (Safe table t ↔ Safe table s) := by
  have hat := h.manager
  have hcleared : s.cleared = 0 := by rw [ResetSystem.cleared, hpc]
  rw [ManagerAt, hpc] at hat
  obtain ⟨hused, hcycle, hindex⟩ := hat
  have hdriver : table.DriverAt (s.manager.writeDequeuePointer
      (s.manager.segment s.manager.erstIndex).begin) (.start true) :=
    SegmentTable.driverAt_begin hused table.count_pos hindex hcycle
  rw [hindex] at hdriver
  rw [ResetSystem.driverStep, hpc] at hstep
  obtain rfl := Option.some.inj hstep
  refine h.of_sameRing ⟨rfl, rfl, rfl, rfl, hcleared.symm⟩ (by simp [hpc]) ResetPc.noConfusion
    ⟨h.described.count, h.described.entries⟩ ?_
  exact ⟨Nat.zero_le _, ⟨hused.erstSize, hused.segment⟩, hdriver⟩

/-- The round that zeroes segment `i`. -/
theorem clearRound {i : ℕ} (h : ResetInv table s) (hpc : s.pc = .clear i) (hi : i < table.count)
    (hused : table.UsedBy s.manager) (hdriver : table.DriverAt s.manager (.start true)) :
    ResetInv table
      { s with pc := .clear (i + 1), manager := s.manager.clearSegment (s.manager.segment i) } := by
  have hqueue := h.enqueued (by simp [hpc])
  have hcleared : s.cleared = i := by rw [ResetSystem.cleared, hpc]
  have hfields := Manager.clearSegment_eq s.manager (s.manager.segment i)
  refine ⟨?_, ?_, fun hreload => ResetPc.noConfusion hreload, fun _ => ?_⟩
  · rw [hfields]
    exact ⟨h.described.count, h.described.entries⟩
  · change i + 1 ≤ table.count ∧ _
    rw [hfields]
    exact ⟨hi, ⟨hused.erstSize, hused.segment⟩,
      ⟨hdriver.erstIndex, hdriver.pointer, hdriver.producerCycle⟩⟩
  · refine ⟨hqueue.cursor, hqueue.length_le, hqueue.unreleased, hqueue.tagged, ?_⟩
    intro k hle hk hsegment
    refine (clearSegment_slot hused hi k).trans ?_
    split_ifs with hthis
    · rfl
    · refine hqueue.fresh k hle hk ?_
      rw [hcleared]
      exact Nat.lt_of_le_of_ne (Nat.le_of_lt_succ hsegment) hthis

/-- Zeroing a segment loses no event that was safe, since none of those is in it. -/
theorem safe_clearRound_iff {i : ℕ} (h : ResetInv table s) (hpc : s.pc = .clear i)
    (hi : i < table.count) (hused : table.UsedBy s.manager) :
    Safe table
        { s with pc := .clear (i + 1), manager := s.manager.clearSegment (s.manager.segment i) } ↔
      Safe table s := by
  have hqueue := h.enqueued (by simp [hpc])
  have hcleared : s.cleared = i := by rw [ResetSystem.cleared, hpc]
  refine forall_congr' fun k => forall_congr' fun trb => forall_congr' fun hk => ?_
  change _ < i + 1 ∧ (s.manager.clearSegment _).memory.trbs _ = _ ↔ _
  rw [clearSegment_slot hused hi k, hcleared]
  split_ifs with hthis
  · -- an event in this segment was doomed, and is gone now
    refine iff_of_false (fun hkept => ?_) (fun hkept => absurd hthis hkept.1.ne)
    obtain ⟨hlt, -⟩ := List.getElem?_eq_some_iff.mp hk
    have htag := hqueue.tagged k trb hk
    rw [← hkept.2, SegmentTable.tag_of_lt_size (hlt.trans_le hqueue.length_le)] at htag
    exact Bool.false_ne_true htag
  · exact and_congr_left fun _ => ⟨fun hlt => Nat.lt_of_le_of_ne (Nat.le_of_lt_succ hlt) hthis,
      Nat.lt_succ_of_lt⟩

theorem driver_clear {i : ℕ} (h : ResetInv table s) (hpc : s.pc = .clear i)
    (hstep : s.driverStep = some t) : ResetInv table t ∧ (Safe table t ↔ Safe table s) := by
  have hat := h.manager
  have hcleared : s.cleared = i := by rw [ResetSystem.cleared, hpc]
  rw [ManagerAt, hpc] at hat
  obtain ⟨hle, hused, hdriver⟩ := hat
  rw [ResetSystem.driverStep, hpc] at hstep
  dsimp only at hstep
  by_cases hi : i < s.manager.erstSize
  · rw [if_pos hi] at hstep
    obtain rfl := Option.some.inj hstep
    rw [hused.erstSize] at hi
    exact ⟨h.clearRound hpc hi hused hdriver, h.safe_clearRound_iff hpc hi hused⟩
  · -- the loop is over, and every segment is zeroed
    rw [if_neg hi] at hstep
    obtain rfl := Option.some.inj hstep
    rw [hused.erstSize] at hi
    have hall : s.manager.registerCount = s.cleared := by
      rw [h.registerCount_eq, hcleared]
      exact Nat.le_antisymm (Nat.le_of_not_lt hi) hle
    exact h.of_sameRing ⟨rfl, rfl, rfl, rfl, hall⟩ (by simp [hpc]) ResetPc.noConfusion
      ⟨h.described.count, h.described.entries⟩ ⟨hused, hdriver⟩

/-- A step of `Initialize` keeps the invariant and loses nothing that was safe. -/
theorem driver (h : ResetInv table s) (hstep : s.driverStep = some t) :
    ResetInv table t ∧ (Safe table t ↔ Safe table s) := by
  cases hpc : s.pc with
  | reload => exact h.driver_reload hpc hstep
  | setFields => exact h.driver_setFields hpc hstep
  | writeDequeue => exact h.driver_writeDequeue hpc hstep
  | clear i => exact h.driver_clear hpc hstep
  | returned =>
    rw [ResetSystem.driverStep, hpc] at hstep
    cases hstep

theorem step (s : ResetSystem) (a : ResetAction) (t : ResetSystem) (h : ResetInv table s)
    (hstep : resetStep s a = some t) : ResetInv table t := by
  cases a with
  | driver => exact (h.driver hstep).1
  | post event flags => exact h.post hstep

/-- A guarded step keeps every event safe; an unguarded one does not, and what is not safe
stays so. -/
theorem safe_step_iff {a : ResetAction} (h : ResetInv table s) (hstep : resetStep s a = some t) :
    Safe table t ↔ Safe table s ∧ PostsCleared s a := by
  cases a with
  | driver => exact (h.driver hstep).2.trans (and_iff_left trivial).symm
  | post event flags =>
    by_cases hpc : s.pc = .reload
    · have hposts := (resetStep_post hstep).2.1.trans hpc
      exact iff_of_true ((h.post hstep).safe_of_reload hposts) ⟨h.safe_of_reload hpc, .inl hpc⟩
    · rw [h.safe_post_iff hpc hstep, PostsCleared, or_iff_right hpc]

end ResetInv

/-! ### Draining the ring -/

section Drain

variable {m : Manager} {k : ℕ} {log events : List TRB}

/-- Draining takes what memory holds at one position after another. -/
theorem drain_getElem? {fuel i : ℕ} {trb : TRB} (hused : table.UsedBy m)
    (hat : table.DriverAt m (table.position k)) (hdrain : drain fuel m = some events)
    (hi : events[i]? = some trb) : m.memory.trbs (table.layout.slot (k + i)) = trb := by
  induction fuel generalizing m k i events with
  | zero => cases hdrain
  | succ fuel ih =>
    rw [drain] at hdrain
    split_ifs at hdrain
    · obtain ⟨rest, hrest, rfl⟩ := Option.map_eq_some_iff.mp hdrain
      cases i with
      | zero => exact hat.front_eq.symm.trans (Option.some.inj hi)
      | succ i =>
        have hlater := ih hused.pop (hat.pop_position hused) hrest hi
        rwa [SegmentTable.pop_memory, Nat.add_assoc, Nat.add_comm 1] at hlater
    · obtain rfl := Option.some.inj hdrain
      exact absurd hi (by simp)

/-- A ring that holds a log is drained of what was not yet taken. -/
theorem drain_of_holds {n : ℕ} (hused : table.UsedBy m) (hat : table.DriverAt m (table.position k))
    (hholds : Holds table.layout TRB.tag m.memory.trbs log k) (hn : n = log.length - k) :
    drain (n + 1) m = some (log.drop k) := by
  induction n generalizing m k with
  | zero =>
    have hempty : ¬ m.hasFront = true := by
      rw [hat.hasFront_iff_lt hholds]
      omega
    rw [drain, if_neg hempty, List.drop_eq_nil_of_le (by omega)]
  | succ n ih =>
    have hlt : k < log.length := by omega
    have hfront : m.hasFront = true := (hat.hasFront_iff_lt hholds).mpr hlt
    have hholds' : Holds table.layout TRB.tag m.pop.memory.trbs log (k + 1) :=
      (SegmentTable.pop_memory m).symm ▸ hholds.take hlt
    rw [drain, if_pos hfront, ih hused.pop (hat.pop_position hused) hholds' (by omega),
      Option.map_some, List.drop_eq_getElem_cons hlt, hat.front_eq, hholds.pending k hlt le_rfl]

end Drain

/-- A ring in which nothing was lost holds what was posted. -/
theorem ResetInv.holds (h : ResetInv table s) (hpc : s.pc = .returned) (hsafe : Safe table s) :
    Holds table.layout TRB.tag s.manager.memory.trbs s.posted 0 := by
  have hqueue := h.enqueued (by simp [hpc])
  have hcleared : s.cleared = table.count := by
    rw [ResetSystem.cleared, hpc, ← h.registerCount_eq]
  refine ⟨Nat.zero_le _, (Nat.zero_add _).symm ▸ hqueue.length_le, ?_, ?_, ?_⟩
  · intro k hk _
    exact (hsafe k _ (List.getElem?_eq_getElem hk)).2
  · intro k hk
    exact hqueue.tagged k _ (List.getElem?_eq_getElem hk)
  · intro k hle hk
    rw [Nat.zero_add] at hk
    rw [hqueue.fresh k hle hk (hcleared ▸ (table.valid_position k).segment_lt),
      SegmentTable.tag_of_lt_size hk]
    rfl

/-- **Resetting under a running controller.** For every segment table, every state of the
controller before, and every order of steps of `Initialize` and posts in which `Initialize`
returns: popping while there is a front yields exactly the events posted since ERSTBA was
rewritten, if and only if each of them was posted to a segment already zeroed. -/
theorem reset_drained_iff {m : Manager} (hm : table.DescribedBy m) (cursor : Cursor)
    (unreleased : List (BitVec 64)) {actions : List ResetAction} {t : ResetSystem}
    (hrun : run resetStep (.start m cursor unreleased) actions = some t) (hpc : t.pc = .returned) :
    (∃ fuel, drain fuel t.manager = some t.posted) ↔
      EachStep resetStep PostsCleared (.start m cursor unreleased) actions := by
  have hstart := ResetInv.start hm cursor unreleased
  have ht : ResetInv table t := invariant_run ResetInv.step hstart hrun
  have hsafe := last_iff_eachStep ResetInv.step
    (fun s a t h hsafe hguard hstep => (h.safe_step_iff hstep).mpr ⟨hsafe, hguard⟩)
    (fun s a t h hnot hstep hsafe => hnot ((h.safe_step_iff hstep).mp hsafe))
    hstart (hstart.safe_of_reload rfl) hrun
  rw [← hsafe]
  have hat := ht.manager
  rw [ManagerAt, hpc] at hat
  obtain ⟨hused, hdriver⟩ := hat
  constructor
  · rintro ⟨fuel, hdrain⟩ k trb hk
    have hcleared : t.cleared = table.count := by
      rw [ResetSystem.cleared, hpc, ← ht.registerCount_eq]
    refine ⟨hcleared ▸ (table.valid_position k).segment_lt, ?_⟩
    have hslot := drain_getElem? (k := 0) hused hdriver hdrain hk
    rwa [Nat.zero_add] at hslot
  · intro hall
    exact ⟨t.posted.length + 1, drain_of_holds (k := 0) hused hdriver (ht.holds hpc hall) rfl⟩

/-- An event posted to the first segment as soon as it is zeroed. -/
def postedLate : List ResetAction :=
  [.driver, .driver, .driver, .driver, .post .zero 8#4, .driver, .driver]

theorem reset_drained_iff_postedLate :
    ∃ t, run resetStep (.start twoSegmentsManager (.start false) []) postedLate = some t ∧
      t.pc = .returned ∧ ((∃ fuel, drain fuel t.manager = some t.posted) ↔
        EachStep resetStep PostsCleared (.start twoSegmentsManager (.start false) []) postedLate) := by
  have hdescribed : twoSegments.DescribedBy twoSegmentsManager := ⟨rfl, by decide +kernel⟩
  have hreturned : (run resetStep (.start twoSegmentsManager (.start false) []) postedLate).map
      ResetSystem.pc = some .returned := by decide +kernel
  obtain ⟨t, hrun, hpc⟩ := Option.map_eq_some_iff.mp hreturned
  exact ⟨t, hrun, hpc, reset_drained_iff hdescribed (.start false) [] hrun hpc⟩

/-- An event posted right after the rewrite is zeroed with its segment, and the driver sees
no front although one was posted. -/
theorem reset_loses_early_event :
    (run resetStep (.start twoSegmentsManager (.start false) [])
        [.driver, .post .zero 8#4, .driver, .driver, .driver, .driver, .driver]).map
      (fun t => (t.pc, t.posted.length, drain 1 t.manager)) = some (.returned, 1, some []) := by
  decide +kernel

end Bitnos.Xhci
