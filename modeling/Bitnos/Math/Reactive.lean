/-
# Components that answer operations

A component performs operations one after another and answers each of them, or
refuses. Two components are compared by what they answer: a relation between their
states that every operation keeps, with answers that fit, makes all their answers
fit in every run.
-/

import Bitnos.Math.Run
import Mathlib.Data.List.Forall2

namespace Reactive

variable {σ τ α ρ ρ' : Type*}

/-- Perform the operations in order and collect the answers. A refused operation ends
the run without a result. -/
def respond (step : σ → α → Option (ρ × σ)) : σ → List α → Option (List ρ × σ)
  | s, [] => some ([], s)
  | s, a :: as => (step s a).bind fun first =>
      (respond step first.2 as).map fun rest => (first.1 :: rest.1, rest.2)

variable {step : σ → α → Option (ρ × σ)} {spec : τ → α → Option (ρ' × τ)} {s s' : σ} {t t' : τ}
  {a : α} {as bs : List α} {r : ρ} {rs : List ρ}

theorem respond_cons_of_step (h : step s a = some (r, s')) :
    respond step s (a :: as) = (respond step s' as).map fun rest => (r :: rest.1, rest.2) := by
  rw [respond, h, Option.bind_some]

theorem respond_append {u : σ} (h : respond step s as = some (rs, u)) :
    respond step s (as ++ bs) = (respond step u bs).map fun rest => (rs ++ rest.1, rest.2) := by
  induction as generalizing s rs with
  | nil =>
    obtain ⟨rfl, rfl⟩ := Prod.mk.inj (Option.some.inj h)
    simp
  | cons a as ih =>
    obtain ⟨⟨r, v⟩, hstep, hrest⟩ := Option.bind_eq_some_iff.mp h
    obtain ⟨⟨rs', w⟩, htail, heq⟩ := Option.map_eq_some_iff.mp hrest
    obtain ⟨rfl, rfl⟩ := Prod.mk.inj heq
    rw [List.cons_append, respond_cons_of_step hstep, ih htail, Option.map_map]
    rfl

/-- The states a component passes, whatever it answers. -/
theorem run_eq_respond :
    PartialRun.run (fun s a => (step s a).map Prod.snd) s as = (respond step s as).map Prod.snd := by
  induction as generalizing s with
  | nil => rfl
  | cons a as ih =>
    rw [PartialRun.run_cons, respond]
    cases step s a with
    | none => rfl
    | some first => simp only [Option.map_some, Option.bind_some, ih, Option.map_map]; rfl

/-- A component that always answers in the states of an invariant answers every run. -/
theorem exists_respond {I : σ → Prop} (hstep : ∀ s a, I s → ∃ r s', step s a = some (r, s') ∧ I s')
    (hs : I s) : ∃ rs s', respond step s as = some (rs, s') ∧ I s' := by
  induction as generalizing s with
  | nil => exact ⟨[], s, rfl, hs⟩
  | cons a as ih =>
    obtain ⟨r, s', ha, hs'⟩ := hstep s a hs
    obtain ⟨rs, s'', has, hs''⟩ := ih hs'
    exact ⟨r :: rs, s'', by rw [respond_cons_of_step ha, has]; rfl, hs''⟩

/-- **Simulation.** Where every operation of the specification is matched with a fitting
answer, so is every run. -/
theorem respond_of_simulation {R : σ → τ → Prop} {Fits : ρ → ρ' → Prop}
    (hstep : ∀ s t a r' t', R s t → spec t a = some (r', t') →
      ∃ r s', step s a = some (r, s') ∧ Fits r r' ∧ R s' t')
    {rs' : List ρ'} (hR : R s t) (hspec : respond spec t as = some (rs', t')) :
    ∃ rs s', respond step s as = some (rs, s') ∧ List.Forall₂ Fits rs rs' ∧ R s' t' := by
  induction as generalizing s t rs' with
  | nil =>
    obtain ⟨rfl, rfl⟩ := Prod.mk.inj (Option.some.inj hspec)
    exact ⟨[], s, rfl, .nil, hR⟩
  | cons a as ih =>
    obtain ⟨⟨r', u⟩, ha, hrest⟩ := Option.bind_eq_some_iff.mp hspec
    obtain ⟨⟨rs'', v⟩, htail, heq⟩ := Option.map_eq_some_iff.mp hrest
    obtain ⟨rfl, rfl⟩ := Prod.mk.inj heq
    obtain ⟨r, s₁, hs₁, hfits, hR₁⟩ := hstep s t a r' u hR ha
    obtain ⟨rs, s₂, hs₂, hall, hR₂⟩ := ih hR₁ htail
    exact ⟨r :: rs, s₂, by rw [respond_cons_of_step hs₁, hs₂]; rfl, .cons hfits hall, hR₂⟩

end Reactive
