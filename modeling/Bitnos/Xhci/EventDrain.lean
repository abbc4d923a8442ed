/-
# Draining the event ring

Right after `Initialize` the xhci command prints what the controller has posted so far.
Its loop asks for the front and prints it, and never pops: asking does not move the
dequeue pointer, so the loop either ends at once or never.
-/

import Bitnos.Xhci.EventFifo

namespace Bitnos.Xhci

open PartialRun

/-- `while (er_mgr.HasFront())`, for at most the given number of tests of the condition. A loop
that ends gives the blocks printed and the manager it leaves. -/
def printEvents : ℕ → Manager → Option (List TRB × Manager)
  | 0, _ => none
  | fuel + 1, m =>
    if m.hasFront then
      -- the body prints the front and nothing else
      (printEvents fuel m).map fun (printed, m') => (m.front :: printed, m')
    else
      some ([], m)

/-- The loop ends with an empty ring after printing every event posted, in order. -/
def PrintsAll (s : EventSystem) : Prop :=
  ∃ fuel m, printEvents fuel s.manager = some (s.posted, m) ∧ m.hasFront = false

/-! ### The loop -/

section

variable {m : Manager} {fuel : ℕ}

/-- The loop finds the ring as it left it, so a front stays. -/
theorem printEvents_of_hasFront (hfront : m.hasFront = true) : printEvents fuel m = none := by
  induction fuel with
  | zero => rfl
  | succ fuel ih => rw [printEvents, if_pos hfront, ih, Option.map_none]

theorem printEvents_of_empty (hempty : m.hasFront = false) :
    printEvents (fuel + 1) m = some ([], m) := by
  rw [printEvents, if_neg (by rw [hempty]; exact Bool.false_ne_true)]

end

/-! ### Posting before the loop -/

section

variable {table : SegmentTable} {s t : EventSystem} {events : List (TRB × BitVec 4)}

/-- The controller's posts of these events, with the flags it leaves in ERDP. -/
def postAll (events : List (TRB × BitVec 4)) : List EventAction :=
  events.map fun event => .post event.1 event.2

/-- As many events are in the ring as were posted, and none was popped. -/
theorem length_posted_of_postAll (hrun : run eventStep s (postAll events) = some t) :
    t.posted.length = s.posted.length + events.length ∧ t.popped = s.popped := by
  induction events generalizing s with
  | nil =>
    obtain rfl := Option.some.inj hrun
    exact ⟨rfl, rfl⟩
  | cons event events ih =>
    rw [postAll, List.map_cons, run_cons] at hrun
    obtain ⟨u, hstep, htail⟩ := Option.bind_eq_some_iff.mp hrun
    obtain ⟨hpopped, -, hposted⟩ := EventInv.logs_of_post hstep
    obtain ⟨hlength, hsame⟩ := ih htail
    refine ⟨?_, hsame.trans hpopped⟩
    rw [hlength, hposted, List.length_cons]
    omega

/-- The ring shows a front exactly when an event was posted. -/
theorem hasFront_of_postAll {m : Manager} (hm : table.DescribedBy m)
    (hrun : run eventStep (.start m) (postAll events) = some s) :
    s.manager.hasFront = true ↔ events ≠ [] := by
  have hinv : EventInv table s := invariant_run EventInv.step (EventInv.start hm) hrun
  obtain ⟨hlength, hpopped⟩ := length_posted_of_postAll hrun
  rw [hinv.hasFront_iff, hlength, hpopped, ← List.length_pos_iff]
  change 0 < 0 + events.length ↔ _
  rw [Nat.zero_add]

end

/-- **The drain loop.** After any events the controller can have posted since `Initialize`, the
loop prints them all and ends exactly when there are none. -/
theorem printsAll_iff {table : SegmentTable} {m : Manager} {s : EventSystem}
    {events : List (TRB × BitVec 4)} (hm : table.DescribedBy m)
    (hrun : run eventStep (.start m) (postAll events) = some s) :
    PrintsAll s ↔ events = [] := by
  have hfront := hasFront_of_postAll hm hrun
  constructor
  · rintro ⟨fuel, m', hprint, -⟩
    by_contra hevents
    rw [printEvents_of_hasFront (hfront.mpr hevents)] at hprint
    cases hprint
  · intro hevents
    have hempty : s.manager.hasFront = false :=
      Bool.eq_false_iff.mpr fun htrue => hfront.mp htrue hevents
    have hposted : s.posted = [] := by
      rw [← List.length_eq_zero_iff, (length_posted_of_postAll hrun).1, hevents]
      rfl
    exact ⟨1, s.manager, by rw [printEvents_of_empty hempty, hposted], hempty⟩

/-- With no event the loop ends. -/
theorem printsAll_iff_noEvents : PrintsAll (.start twoSegmentsManager) := by
  have hdescribed : twoSegments.DescribedBy twoSegmentsManager := ⟨rfl, by decide +kernel⟩
  have hrun : run eventStep (.start twoSegmentsManager) (postAll []) =
      some (.start twoSegmentsManager) := rfl
  exact (printsAll_iff hdescribed hrun).mpr rfl

/-- With one event the loop prints it again and again. -/
theorem not_printsAll_oneEvent :
    ∃ s, run eventStep (.start twoSegmentsManager) (postAll [(.zero, 8#4)]) = some s ∧
      ∀ fuel, printEvents fuel s.manager = none := by
  refine ⟨_, rfl, fun fuel => printEvents_of_hasFront ?_⟩
  decide +kernel

end Bitnos.Xhci
