/-
# Following links

A chain is a walk in which every node leads to at most one other. Following the links
of a chain without remembering where one has been ends exactly when no node on a cycle
is met, and then no node is met twice.
-/

import Bitnos.Math.Walk

namespace Chain

variable {ν : Type*} {next : ν → Option ν} {n m : ν} {ns : List ν} {fuel : ℕ}

/-- The nodes met from a node on, with at most the given number of them. -/
def follow (next : ν → Option ν) : ℕ → ν → Option (List ν)
  | 0, _ => none
  | fuel + 1, n =>
    match next n with
    | none => some [n]
    | some m => (follow next fuel m).map (n :: ·)

/-- One node is linked to another. -/
def Links (next : ν → Option ν) (n m : ν) : Prop := next n = some m

/-- Each node as its own only item. -/
def items (next : ν → Option ν) (n : ν) : List (ν × Option ν) := [(n, next n)]

theorem follow_eq_walk : follow next fuel n = Walk.walk (items next) fuel n := by
  induction fuel generalizing n with
  | zero => rfl
  | succ fuel ih =>
    rw [follow, Walk.walk_succ, items, Walk.collect_cons, Walk.visit]
    cases next n with
    | none => rfl
    | some m => simp [ih]

theorem leads_items : Walk.Leads (items next) = Links next := by
  funext n m
  simp [Walk.Leads, items, Links, eq_comm]

/-- **Termination.** -/
theorem exists_follow_iff [Finite ν] :
    (∃ fuel ns, follow next fuel n = some ns) ↔
      ∀ m, Relation.ReflTransGen (Links next) n m → ¬ Relation.TransGen (Links next) m m := by
  have hwalk : (∃ bs, Walk.Reports (items next) n bs) ↔ _ := Walk.exists_reports_iff
  rw [Walk.Reaches, leads_items] at hwalk
  rw [← hwalk]
  simp only [follow_eq_walk, Walk.Reports]
  exact exists_comm

/-- A node linked to itself is never left. -/
theorem follow_eq_none (hself : next n = some n) : follow next fuel n = none := by
  induction fuel with
  | zero => rfl
  | succ fuel ih => simp only [follow, hself, ih, Option.map_none]

/-- A node met in a chain that ends can be reached. -/
theorem reaches_of_mem_follow (hfollow : follow next fuel n = some ns) (hmem : m ∈ ns) :
    Relation.ReflTransGen (Links next) n m := by
  rw [follow_eq_walk] at hfollow
  obtain ⟨k, link, hreach, hk⟩ := (Walk.mem_walk hfollow).mp hmem
  obtain ⟨rfl, -⟩ := Prod.mk.inj (List.mem_singleton.mp hk)
  rwa [Walk.Reaches, leads_items] at hreach

/-- A chain that ends meets no node twice. -/
theorem nodup_follow (hfollow : follow next fuel n = some ns) : ns.Nodup := by
  induction fuel generalizing n ns with
  | zero => cases hfollow
  | succ fuel ih =>
    have hcycle := Walk.not_transGen_of_walk (follow_eq_walk ▸ hfollow)
    rw [leads_items] at hcycle
    rw [follow] at hfollow
    cases hlink : next n with
    | none =>
      rw [hlink] at hfollow
      obtain rfl := Option.some.inj hfollow
      exact List.nodup_singleton n
    | some m =>
      rw [hlink] at hfollow
      obtain ⟨ms, hms, rfl⟩ := Option.map_eq_some_iff.mp hfollow
      refine List.nodup_cons.mpr ⟨fun hmem => ?_, ih hms⟩
      -- meeting the node again would close a cycle through it
      exact hcycle (.head' hlink (reaches_of_mem_follow hms hmem))

end Chain
