/-
# What a run may cost

A potential bounds how often some actions occur in a run when each of them uses it up
and other actions bring in only so much. A measure bounds how often one action has to be
repeated until the system is done.
-/

import Bitnos.Math.Run

namespace PartialRun

variable {σ α : Type*} {step : σ → α → Option σ} {s t : σ} {as : List α}

/-- If every charged action costs one unit of a potential and only a funded one brings in up to
`gain`, a run has no more charged actions than its potential and its funded actions pay for. -/
theorem countP_add_le {I : σ → Prop} (Φ : σ → ℕ) (gain : ℕ) (charged funded : α → Bool)
    (hstep : ∀ s a t, I s → step s a = some t → I t ∧
      Φ t + (if charged a then 1 else 0) ≤ Φ s + if funded a then gain else 0)
    (hs : I s) (hrun : run step s as = some t) :
    Φ t + as.countP charged ≤ Φ s + gain * as.countP funded := by
  induction as generalizing s with
  | nil =>
    obtain rfl := Option.some.inj hrun
    exact Nat.le_add_right _ _
  | cons a as ih =>
    obtain ⟨u, hu, htail⟩ := Option.bind_eq_some_iff.mp hrun
    obtain ⟨hIu, hpay⟩ := hstep s a u hs hu
    have hrest := ih hIu htail
    have hgain : gain * (as.countP funded + if funded a then 1 else 0) =
        gain * as.countP funded + if funded a then gain else 0 := by
      rw [Nat.mul_add]
      split_ifs <;> simp
    rw [List.countP_cons, List.countP_cons, hgain]
    omega

/-- When an action brings every unfinished state of the invariant nearer to the end, no more
repetitions of it are needed than the measure says. -/
theorem run_replicate_of_measure {I Done : σ → Prop} (a : α) (μ : σ → ℕ)
    (hprogress : ∀ s, I s → ¬ Done s → ∃ t, step s a = some t ∧ I t ∧ μ t < μ s) (hs : I s) :
    ∃ n ≤ μ s, ∃ t, run step s (List.replicate n a) = some t ∧ I t ∧ Done t := by
  induction hn : μ s using Nat.strongRecOn generalizing s with
  | ind m ih =>
    by_cases hdone : Done s
    · exact ⟨0, Nat.zero_le _, s, rfl, hs, hdone⟩
    · obtain ⟨t, ht, hIt, hlt⟩ := hprogress s hs hdone
      obtain ⟨n, hle, u, hrun, hIu, hu⟩ := ih (μ t) (hn ▸ hlt) hIt rfl
      refine ⟨n + 1, by omega, u, ?_, hIu, hu⟩
      rw [List.replicate_succ, run_cons_of_step ht, hrun]

end PartialRun
