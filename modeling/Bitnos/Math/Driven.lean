/-
# A system that drives another

Each step of the first system hands some inputs to the second one, which takes them one
after another before the first system goes on. What the second system does is then a
run of its own on the inputs handed over so far.
-/

import Bitnos.Math.Run

namespace PartialRun

variable {σ τ α β : Type*}

/-- A step of the first system, and a run of the second one on what it hands over. -/
def drive (step : σ → α → Option σ) (handed : σ → α → List β) (follow : τ → β → Option τ)
    (s : σ × τ) (a : α) : Option (σ × τ) :=
  (step s.1 a).bind fun s₁ => (run follow s.2 (handed s.1 a)).map fun s₂ => (s₁, s₂)

variable {step : σ → α → Option σ} {handed : σ → α → List β} {follow : τ → β → Option τ}
  {s s' : σ × τ} {a : α} {as : List α}

theorem drive_eq_some : drive step handed follow s a = some s' ↔
    step s.1 a = some s'.1 ∧ run follow s.2 (handed s.1 a) = some s'.2 := by
  rw [drive, Option.bind_eq_some_iff]
  constructor
  · rintro ⟨s₁, hstep, hmap⟩
    obtain ⟨s₂, hrun, rfl⟩ := Option.map_eq_some_iff.mp hmap
    exact ⟨hstep, hrun⟩
  · rintro ⟨hstep, hrun⟩
    exact ⟨s'.1, hstep, Option.map_eq_some_iff.mpr ⟨s'.2, hrun, rfl⟩⟩

/-- The first system runs as it does on its own. -/
theorem run_of_run_drive (hrun : run (drive step handed follow) s as = some s') :
    run step s.1 as = some s'.1 := by
  induction as generalizing s with
  | nil => exact Option.some.inj hrun ▸ rfl
  | cons a as ih =>
    obtain ⟨u, hu, htail⟩ := Option.bind_eq_some_iff.mp hrun
    rw [run_cons_of_step (drive_eq_some.mp hu).1, ih htail]

/-- When the first system keeps a log of what it hands over, the second system has run on what the
log has gained. -/
theorem exists_run_of_run_drive {log : σ → List β}
    (hlog : ∀ s a t, step s a = some t → log t = log s ++ handed s a)
    (hrun : run (drive step handed follow) s as = some s') :
    ∃ bs, log s'.1 = log s.1 ++ bs ∧ run follow s.2 bs = some s'.2 := by
  induction as generalizing s with
  | nil =>
    obtain rfl := Option.some.inj hrun
    exact ⟨[], (List.append_nil _).symm, rfl⟩
  | cons a as ih =>
    obtain ⟨u, hu, htail⟩ := Option.bind_eq_some_iff.mp hrun
    obtain ⟨hstep, hfollow⟩ := drive_eq_some.mp hu
    obtain ⟨bs, hgain, hrest⟩ := ih htail
    refine ⟨handed s.1 a ++ bs, ?_, ?_⟩
    · rw [hgain, hlog _ _ _ hstep, List.append_assoc]
    · rw [run_append, hfollow, Option.bind_some, hrest]

end PartialRun
