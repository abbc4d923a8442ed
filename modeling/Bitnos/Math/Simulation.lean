/-
# Simulation

A system is explained by a coarser one when a relation between their states can be kept up:
whatever the first one does, the second one can follow with some actions of its own, or with
none at all. Every run of the first system then ends in a state that a run of the second one
explains, together with all that the second one keeps invariant.
-/

import Bitnos.Math.Run

namespace PartialRun

variable {σ τ α β : Type*}

/-- Every step from related states, the second one in the invariant, is followed by a run. -/
def Follows (step : σ → α → Option σ) (spec : τ → β → Option τ) (I : τ → Prop) (R : σ → τ → Prop) :
    Prop :=
  ∀ s t a s', R s t → I t → step s a = some s' → ∃ bs t', run spec t bs = some t' ∧ R s' t'

variable {step : σ → α → Option σ} {spec : τ → β → Option τ} {I : τ → Prop} {R : σ → τ → Prop}
  {s s' : σ} {t t' : τ} {b : β} {as : List α}

/-- A step the second system does not notice. -/
theorem exists_run_stutter (hR : R s' t) : ∃ bs t', run spec t bs = some t' ∧ R s' t' :=
  ⟨[], t, rfl, hR⟩

/-- A step that is a step of the second system. -/
theorem exists_run_step (hstep : spec t b = some t') (hR : R s' t') :
    ∃ bs t', run spec t bs = some t' ∧ R s' t' :=
  ⟨[b], t', run_cons_of_step hstep, hR⟩

/-- **Simulation.** The second system follows whole runs. -/
theorem Follows.run (hfollows : Follows step spec I R)
    (hinv : ∀ t b t', I t → spec t b = some t' → I t') (hR : R s t) (hI : I t)
    (hrun : PartialRun.run step s as = some s') : ∃ t', Reachable spec t t' ∧ R s' t' ∧ I t' := by
  induction as generalizing s t with
  | nil => exact ⟨t, .refl, Option.some.inj hrun ▸ hR, hI⟩
  | cons a as ih =>
    obtain ⟨u, hu, htail⟩ := Option.bind_eq_some_iff.mp hrun
    obtain ⟨bs, v, hv, hRu⟩ := hfollows s t a u hR hI hu
    obtain ⟨t', hreach, hR', hI'⟩ := ih hRu (invariant_run hinv hI hv) htail
    exact ⟨t', Reachable.trans ⟨bs, hv⟩ hreach, hR', hI'⟩

end PartialRun
