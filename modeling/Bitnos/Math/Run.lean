/-
# Runs of a step function that may refuse an action

A system is given by a step function that performs an action or refuses it.
Runs are lists of actions performed one after another. An invariant of the step
is an invariant of every run, and a property that each guarded step preserves
and each unguarded step destroys holds along a run exactly when the guard does.
-/

import Mathlib.Data.List.Basic
import Mathlib.Order.Basic

namespace PartialRun

variable {σ α : Type*}

/-- Perform the actions in order. A refused action stops the whole run. -/
def run (step : σ → α → Option σ) : σ → List α → Option σ
  | s, [] => some s
  | s, a :: as => (step s a).bind fun t => run step t as

/-- Some list of actions leads from the first state to the second. -/
def Reachable (step : σ → α → Option σ) (s t : σ) : Prop :=
  ∃ as, run step s as = some t

/-- `P` holds in every state the run passes, the first and the last included. -/
def Along (step : σ → α → Option σ) (P : σ → Prop) : σ → List α → Prop
  | s, [] => P s
  | s, a :: as => P s ∧ ∀ t, step s a = some t → Along step P t as

/-- `G` holds of every action of the run in the state it is performed in. -/
def EachStep (step : σ → α → Option σ) (G : σ → α → Prop) : σ → List α → Prop
  | _, [] => True
  | s, a :: as => G s a ∧ ∀ t, step s a = some t → EachStep step G t as

variable {step : σ → α → Option σ} {s t u : σ} {a : α} {as bs : List α}

@[simp] theorem run_nil : run step s [] = some s := rfl

theorem run_cons : run step s (a :: as) = (step s a).bind fun t => run step t as := rfl

theorem run_cons_of_step (h : step s a = some t) : run step s (a :: as) = run step t as := by
  rw [run_cons, h, Option.bind_some]

theorem run_append : run step s (as ++ bs) = (run step s as).bind fun t => run step t bs := by
  induction as generalizing s with
  | nil => rfl
  | cons a as ih =>
    simp only [List.cons_append, run_cons, Option.bind_assoc]
    exact congrArg _ (funext fun t => ih)

theorem Reachable.refl : Reachable step s s := ⟨[], rfl⟩

theorem Reachable.of_step (h : step s a = some t) : Reachable step s t :=
  ⟨[a], run_cons_of_step h⟩

theorem Reachable.trans (hst : Reachable step s t) (htu : Reachable step t u) :
    Reachable step s u := by
  obtain ⟨as, has⟩ := hst
  obtain ⟨bs, hbs⟩ := htu
  exact ⟨as ++ bs, by rw [run_append, has, Option.bind_some, hbs]⟩

/-! ### Invariants -/

/-- What every step preserves, every run preserves. -/
theorem invariant_run {I : σ → Prop} (hstep : ∀ s a t, I s → step s a = some t → I t)
    (hs : I s) (hrun : run step s as = some t) : I t := by
  induction as generalizing s with
  | nil => exact Option.some.inj hrun ▸ hs
  | cons a as ih =>
    obtain ⟨u, hu, htail⟩ := Option.bind_eq_some_iff.mp hrun
    exact ih (hstep s a u hs hu) htail

theorem invariant_reachable {I : σ → Prop} (hstep : ∀ s a t, I s → step s a = some t → I t)
    (hs : I s) (hreach : Reachable step s t) : I t := by
  obtain ⟨as, hrun⟩ := hreach
  exact invariant_run hstep hs hrun

/-- A property of every state of the invariant holds all along every run. -/
theorem along_of_invariant {I P : σ → Prop} (hstep : ∀ s a t, I s → step s a = some t → I t)
    (hP : ∀ s, I s → P s) (hs : I s) : Along step P s as := by
  induction as generalizing s with
  | nil => exact hP s hs
  | cons a as ih => exact ⟨hP s hs, fun t ht => ih (hstep s a t hs ht)⟩

/-- What holds all along a run holds in its last state. -/
theorem Along.last {P : σ → Prop} (h : Along step P s as) (hrun : run step s as = some t) :
    P t := by
  induction as generalizing s with
  | nil => exact Option.some.inj hrun ▸ h
  | cons a as ih =>
    obtain ⟨u, hu, htail⟩ := Option.bind_eq_some_iff.mp hrun
    exact ih (h.2 u hu) htail

/-- Suppose a guarded step preserves `P` and an unguarded one is performed and
destroys it. Then `P` holds all along a run exactly when every step is guarded. -/
theorem along_iff_eachStep {I P : σ → Prop} {G : σ → α → Prop}
    (hstep : ∀ s a t, I s → step s a = some t → I t)
    (hkeep : ∀ s a t, I s → P s → G s a → step s a = some t → P t)
    (hbreak : ∀ s a, I s → P s → ¬ G s a → ∃ t, step s a = some t ∧ ¬ P t)
    (hI : I s) (hP : P s) : Along step P s as ↔ EachStep step G s as := by
  induction as generalizing s with
  | nil => exact ⟨fun _ => trivial, fun _ => hP⟩
  | cons a as ih =>
    constructor
    · rintro ⟨-, hlater⟩
      have hguard : G s a := by
        -- the first unguarded step is performed and spoils the next state
        by_contra hunguarded
        obtain ⟨t, ht, hbad⟩ := hbreak s a hI hP hunguarded
        cases as with
        | nil => exact hbad (hlater t ht)
        | cons b bs => exact hbad (hlater t ht).1
      exact ⟨hguard, fun t ht =>
        (ih (hstep s a t hI ht) (hkeep s a t hI hP hguard ht)).mp (hlater t ht)⟩
    · rintro ⟨hguard, hlater⟩
      exact ⟨hP, fun t ht =>
        (ih (hstep s a t hI ht) (hkeep s a t hI hP hguard ht)).mpr (hlater t ht)⟩

/-- Suppose a guarded step keeps `P`, and `P` never comes back once it fails or a step is
unguarded. Then `P` holds at the end of a run exactly when every step is guarded. -/
theorem last_iff_eachStep {I P : σ → Prop} {G : σ → α → Prop}
    (hstep : ∀ s a t, I s → step s a = some t → I t)
    (hkeep : ∀ s a t, I s → P s → G s a → step s a = some t → P t)
    (hlose : ∀ s a t, I s → ¬ (P s ∧ G s a) → step s a = some t → ¬ P t)
    (hI : I s) (hP : P s) (hrun : run step s as = some t) : P t ↔ EachStep step G s as := by
  have hlost : ∀ as s, I s → ¬ P s → run step s as = some t → ¬ P t := by
    intro as
    induction as with
    | nil => exact fun s _ hnot hrun => Option.some.inj hrun ▸ hnot
    | cons a as ih =>
      intro s hI hnot hrun
      obtain ⟨u, hu, htail⟩ := Option.bind_eq_some_iff.mp hrun
      exact ih u (hstep s a u hI hu) (hlose s a u hI (fun h => hnot h.1) hu) htail
  induction as generalizing s with
  | nil => exact ⟨fun _ => trivial, fun _ => Option.some.inj hrun ▸ hP⟩
  | cons a as ih =>
    obtain ⟨u, hu, htail⟩ := Option.bind_eq_some_iff.mp hrun
    have hIu := hstep s a u hI hu
    constructor
    · intro hlast
      have hguard : G s a := by
        by_contra hunguarded
        exact hlost as u hIu (hlose s a u hI (fun h => hunguarded h.2) hu) htail hlast
      refine ⟨hguard, fun v hv => ?_⟩
      obtain rfl := Option.some.inj (hu.symm.trans hv)
      exact (ih hIu (hkeep s a u hI hP hguard hu) htail).mp hlast
    · rintro ⟨hguard, hlater⟩
      exact (ih hIu (hkeep s a u hI hP hguard hu) htail).mpr (hlater u hu)

/-- A guard that holds of every action in every state of the invariant holds at each step. -/
theorem eachStep_of_invariant {I : σ → Prop} {G : σ → α → Prop}
    (hstep : ∀ s a t, I s → step s a = some t → I t) (hG : ∀ s a, I s → G s a) (hs : I s) :
    EachStep step G s as := by
  induction as generalizing s with
  | nil => trivial
  | cons a as ih => exact ⟨hG s a hs, fun t ht => ih (hstep s a t hs ht)⟩

/-- A guard that never refuses an action of the list holds at each step. -/
theorem eachStep_of_forall {G : σ → α → Prop} (h : ∀ s, ∀ a ∈ as, G s a) : EachStep step G s as := by
  induction as generalizing s with
  | nil => trivial
  | cons a as ih =>
    exact ⟨h s a List.mem_cons_self,
      fun t _ => ih fun s b hb => h s b (List.mem_cons_of_mem a hb)⟩

theorem eachStep_append {G : σ → α → Prop} :
    EachStep step G s (as ++ bs) ↔
      EachStep step G s as ∧ ∀ t, run step s as = some t → EachStep step G t bs := by
  induction as generalizing s with
  | nil =>
    constructor
    · exact fun h => ⟨trivial, fun t ht => Option.some.inj ht ▸ h⟩
    · exact fun h => h.2 s rfl
  | cons a as ih =>
    constructor
    · rintro ⟨hguard, hlater⟩
      refine ⟨⟨hguard, fun t ht => (ih.mp (hlater t ht)).1⟩, ?_⟩
      intro u hrun
      obtain ⟨t, ht, htail⟩ := Option.bind_eq_some_iff.mp hrun
      exact (ih.mp (hlater t ht)).2 u htail
    · rintro ⟨⟨hguard, hlater⟩, hrest⟩
      refine ⟨hguard, fun t ht => ih.mpr ⟨hlater t ht, ?_⟩⟩
      intro u hu
      exact hrest u ((run_cons_of_step ht).trans hu)

/-! ### Progress -/

/-- When every unfinished state of the invariant can step so that a measure
decreases, a finished state can be reached from every state of the invariant. -/
theorem reachable_of_measure {I Done : σ → Prop} (μ : σ → ℕ)
    (hprogress : ∀ s, I s → ¬ Done s → ∃ a t, step s a = some t ∧ I t ∧ μ t < μ s)
    (hs : I s) : ∃ t, Reachable step s t ∧ I t ∧ Done t := by
  induction hn : μ s using Nat.strongRecOn generalizing s with
  | ind n ih =>
    by_cases hdone : Done s
    · exact ⟨s, .refl, hs, hdone⟩
    · obtain ⟨a, t, hstep, ht, hlt⟩ := hprogress s hs hdone
      obtain ⟨u, hreach, hu, hfinished⟩ := ih (μ t) (hn ▸ hlt) ht rfl
      exact ⟨u, (Reachable.of_step hstep).trans hreach, hu, hfinished⟩

end PartialRun
