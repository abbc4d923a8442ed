/-
# Depth-first walks without a visited set

A node has a list of items, and an item may lead to another node. The walk of a
node reports its items in order and walks the node an item leads to right after
reporting the item. It remembers nothing, so it ends exactly when no cycle can be
reached, and it reports an item once for each way of getting to it: once in all
when no node is led to from two places.

Walks carry a bound on the nesting depth; a walk that exceeds it gives no result.
-/

import Mathlib.Logic.Relation
import Mathlib.Data.List.Nodup
import Mathlib.Order.WellFounded
import Mathlib.Data.Set.Card

namespace Walk

variable {α β ν : Type*}

/-! ### Collecting results -/

/-- Run `f` on each element in turn and concatenate the results. -/
def collect (f : α → Option (List β)) : List α → Option (List β)
  | [] => some []
  | a :: as => (f a).bind fun bs => (collect f as).map fun cs => bs ++ cs

@[simp] theorem collect_nil (f : α → Option (List β)) : collect f [] = some [] := rfl

theorem collect_cons (f : α → Option (List β)) (a : α) (as : List α) :
    collect f (a :: as) = (f a).bind fun bs => (collect f as).map fun cs => bs ++ cs := rfl

/-- A collection succeeds exactly when each of its parts does. -/
theorem collect_eq_some_iff {f : α → Option (List β)} {as : List α} {bs : List β} :
    collect f as = some bs ↔
      (∀ a ∈ as, (f a).isSome) ∧ bs = as.flatMap fun a => (f a).getD [] := by
  induction as generalizing bs with
  | nil => exact ⟨fun h => ⟨by simp, (Option.some.inj h).symm⟩, fun h => h.2 ▸ rfl⟩
  | cons a as ih =>
    rw [collect_cons]
    cases ha : f a with
    | none => simp [ha]
    | some cs =>
      simp only [Option.bind_some, Option.map_eq_some_iff, ih, List.mem_cons, forall_eq_or_imp,
        ha, Option.isSome_some, true_and, List.flatMap_cons, Option.getD_some]
      constructor
      · rintro ⟨ds, ⟨hsome, rfl⟩, rfl⟩
        exact ⟨hsome, rfl⟩
      · rintro ⟨hsome, rfl⟩
        exact ⟨_, ⟨hsome, rfl⟩, rfl⟩

theorem collect_congr {f g : α → Option (List β)} {as : List α} (h : ∀ a ∈ as, f a = g a) :
    collect f as = collect g as := by
  induction as with
  | nil => rfl
  | cons a as ih =>
    rw [collect_cons, collect_cons, h a List.mem_cons_self,
      ih fun b hb => h b (List.mem_cons_of_mem a hb)]

theorem collect_append (f : α → Option (List β)) (as bs : List α) :
    collect f (as ++ bs) =
      (collect f as).bind fun cs => (collect f bs).map fun ds => cs ++ ds := by
  induction as with
  | nil => simp
  | cons a as ih =>
    rw [List.cons_append, collect_cons, collect_cons, ih]
    cases f a with
    | none => rfl
    | some x => cases collect f as <;> cases collect f bs <;> simp

/-- A loop over elements that each stand for several is a loop over all of them. -/
theorem collect_flatMap {γ : Type*} (f : γ → Option (List β)) (g : α → List γ) (as : List α) :
    collect f (as.flatMap g) = collect (fun a => collect f (g a)) as := by
  induction as with
  | nil => rfl
  | cons a as ih => rw [List.flatMap_cons, collect_append, collect_cons, ih]

theorem collect_map {γ : Type*} (f : γ → Option (List β)) (g : α → γ) (as : List α) :
    collect f (as.map g) = collect (fun a => f (g a)) as := by
  induction as with
  | nil => rfl
  | cons a as ih => rw [List.map_cons, collect_cons, collect_cons, ih]

/-- Elements the loop body skips may be left out beforehand. -/
theorem collect_filter (f : α → Option (List β)) (p : α → Bool) (as : List α) :
    collect f (as.filter p) = collect (fun a => if p a then f a else some []) as := by
  induction as with
  | nil => rfl
  | cons a as ih =>
    cases hp : p a with
    | false => simp [hp, collect_cons, ih]
    | true => simp [hp, collect_cons, ih]

/-! ### Walks -/

/-- Report an item and walk the node it leads to, if any. -/
def visit (rec : ν → Option (List β)) (item : β × Option ν) : Option (List β) :=
  match item.2 with
  | none => some [item.1]
  | some n => (rec n).map (item.1 :: ·)

/-- The walk of a node with nesting below the given depth. -/
def walk (items : ν → List (β × Option ν)) : ℕ → ν → Option (List β)
  | 0, _ => none
  | depth + 1, n => collect (visit (walk items depth)) (items n)

/-- An item of `n` leads to `m`. -/
def Leads (items : ν → List (β × Option ν)) (n m : ν) : Prop := ∃ b, (b, some m) ∈ items n

/-- `m` can be reached from `n`, in any number of steps. -/
def Reaches (items : ν → List (β × Option ν)) : ν → ν → Prop :=
  Relation.ReflTransGen (Leads items)

/-- The walk of `n` ends and reports `bs`, given enough depth. -/
def Reports (items : ν → List (β × Option ν)) (n : ν) (bs : List β) : Prop :=
  ∃ depth, walk items depth n = some bs

variable {items : ν → List (β × Option ν)} {n m : ν} {b : β} {bs cs : List β} {depth : ℕ}

theorem walk_succ (items : ν → List (β × Option ν)) (depth : ℕ) (n : ν) :
    walk items (depth + 1) n = collect (visit (walk items depth)) (items n) := rfl

/-- What is reported when an item is visited: the item, and what its node reports. -/
theorem mem_visit {rec : ν → Option (List β)} {item : β × Option ν}
    (h : b ∈ (visit rec item).getD []) :
    b = item.1 ∨ ∃ m, item.2 = some m ∧ ∃ cs, rec m = some cs ∧ b ∈ cs := by
  obtain ⟨c, next⟩ := item
  cases next with
  | none => exact .inl (List.mem_singleton.mp h)
  | some m =>
    cases hm : rec m with
    | none => simp [visit, hm] at h
    | some cs =>
      simp only [visit, hm, Option.map_some, Option.getD_some, List.mem_cons] at h
      rcases h with rfl | h
      · exact .inl rfl
      · exact .inr ⟨m, rfl, cs, hm, h⟩

/-- When the walk of a node succeeds, so does that of every node it leads to. -/
theorem exists_walk_of_leads (hwalk : walk items (depth + 1) n = some bs) (hleads : Leads items n m) :
    ∃ cs, walk items depth m = some cs := by
  obtain ⟨b, hb⟩ := hleads
  rw [walk_succ, collect_eq_some_iff] at hwalk
  have hsome := hwalk.1 _ hb
  simp only [visit, Option.isSome_map] at hsome
  exact Option.isSome_iff_exists.mp hsome

/-- More depth never changes the result of a walk. -/
theorem walk_mono (hwalk : walk items depth n = some bs) {depth' : ℕ} (hle : depth ≤ depth') :
    walk items depth' n = some bs := by
  induction depth generalizing depth' n bs with
  | zero => cases hwalk
  | succ depth ih =>
    obtain ⟨d, rfl⟩ : ∃ d, depth' = d + 1 := ⟨depth' - 1, by omega⟩
    have hle' : depth ≤ d := Nat.le_of_succ_le_succ hle
    rw [← hwalk, walk_succ, walk_succ]
    apply collect_congr
    rintro ⟨b, next⟩ hb
    cases next with
    | none => rfl
    | some m =>
      obtain ⟨cs, hcs⟩ := exists_walk_of_leads hwalk ⟨b, hb⟩
      simp only [visit, hcs, ih hcs hle']

/-- The items reported are exactly those of the nodes that can be reached. -/
theorem mem_walk (hwalk : walk items depth n = some bs) :
    b ∈ bs ↔ ∃ m next, Reaches items n m ∧ (b, next) ∈ items m := by
  induction depth generalizing n bs b with
  | zero => cases hwalk
  | succ depth ih =>
    obtain ⟨hsome, rfl⟩ := collect_eq_some_iff.mp hwalk
    rw [List.mem_flatMap]
    constructor
    · rintro ⟨⟨c, next⟩, hc, hb⟩
      cases next with
      | none =>
        obtain rfl := List.mem_singleton.mp hb
        exact ⟨n, none, .refl, hc⟩
      | some m =>
        obtain ⟨ds, hds⟩ := exists_walk_of_leads hwalk ⟨c, hc⟩
        simp only [visit, hds, Option.map_some, Option.getD_some, List.mem_cons] at hb
        rcases hb with rfl | hb
        · exact ⟨n, some m, .refl, hc⟩
        · obtain ⟨k, next, hreach, hmem⟩ := (ih hds).mp hb
          exact ⟨k, next, .head ⟨c, hc⟩ hreach, hmem⟩
    · rintro ⟨k, next, hreach, hmem⟩
      rcases hreach.cases_head with rfl | ⟨m, ⟨c, hc⟩, hreach'⟩
      · refine ⟨(b, next), hmem, ?_⟩
        cases next with
        | none => exact List.mem_singleton.mpr rfl
        | some m =>
          obtain ⟨ds, hds⟩ := exists_walk_of_leads hwalk ⟨b, hmem⟩
          simp [visit, hds]
      · obtain ⟨ds, hds⟩ := exists_walk_of_leads hwalk ⟨c, hc⟩
        refine ⟨(c, some m), hc, ?_⟩
        simp only [visit, hds, Option.map_some, Option.getD_some, List.mem_cons]
        exact .inr ((ih hds).mpr ⟨k, next, hreach', hmem⟩)

/-! ### Termination -/

/-- A node whose walk ends does not lie on a cycle. -/
theorem not_transGen_of_walk (hwalk : walk items depth n = some bs) :
    ¬ Relation.TransGen (Leads items) n n := by
  induction depth generalizing n bs with
  | zero => cases hwalk
  | succ depth ih =>
    intro hcycle
    obtain ⟨m, hleads, hback⟩ := Relation.TransGen.head'_iff.mp hcycle
    obtain ⟨cs, hcs⟩ := exists_walk_of_leads hwalk hleads
    exact ih hcs (Relation.TransGen.tail' hback hleads)

theorem Reports.of_reaches (hreports : Reports items n bs) (hreach : Reaches items n m) :
    ∃ cs, Reports items m cs := by
  induction hreach with
  | refl => exact ⟨bs, hreports⟩
  | tail _ hleads ih =>
    obtain ⟨cs, depth, hcs⟩ := ih
    obtain ⟨ds, hds⟩ := exists_walk_of_leads (walk_mono hcs (Nat.le_succ depth)) hleads
    exact ⟨ds, depth, hds⟩

/-- Finitely many walks that end do so within a common depth. -/
theorem exists_common_depth {ns : List ν} (h : ∀ m ∈ ns, ∃ cs, Reports items m cs) :
    ∃ depth, ∀ m ∈ ns, (walk items depth m).isSome := by
  induction ns with
  | nil => exact ⟨0, fun m hm => absurd hm List.not_mem_nil⟩
  | cons k ns ih =>
    obtain ⟨d, hd⟩ := ih fun m hm => h m (List.mem_cons_of_mem k hm)
    obtain ⟨cs, d', hcs⟩ := h k List.mem_cons_self
    refine ⟨max d d', ?_⟩
    intro m hm
    rcases List.mem_cons.mp hm with rfl | hm
    · rw [walk_mono hcs (Nat.le_max_right d d'), Option.isSome_some]
    · obtain ⟨ds, hds⟩ := Option.isSome_iff_exists.mp (hd m hm)
      rw [walk_mono hds (Nat.le_max_left d d'), Option.isSome_some]

/-- The walk of a node ends once those of the nodes it leads to do. -/
theorem exists_reports_of_leads (h : ∀ m, Leads items n m → ∃ cs, Reports items m cs) :
    ∃ bs, Reports items n bs := by
  have hall : ∀ m ∈ (items n).filterMap Prod.snd, ∃ cs, Reports items m cs := by
    intro m hm
    obtain ⟨⟨b, next⟩, hb, rfl⟩ := List.mem_filterMap.mp hm
    exact h m ⟨b, hb⟩
  obtain ⟨depth, hdepth⟩ := exists_common_depth hall
  refine ⟨_, depth + 1, collect_eq_some_iff.mpr ⟨?_, rfl⟩⟩
  rintro ⟨b, next⟩ hb
  cases next with
  | none => rfl
  | some m =>
    rw [visit, Option.isSome_map]
    exact hdepth m (List.mem_filterMap.mpr ⟨(b, some m), hb, rfl⟩)

/-- **Termination.** Among finitely many nodes, the walk of a node ends exactly when
no node on a cycle can be reached from it. -/
theorem exists_reports_iff [Finite ν] :
    (∃ bs, Reports items n bs) ↔
      ∀ m, Reaches items n m → ¬ Relation.TransGen (Leads items) m m := by
  constructor
  · rintro ⟨bs, hreports⟩ m hreach
    obtain ⟨cs, depth, hcs⟩ := hreports.of_reaches hreach
    exact not_transGen_of_walk hcs
  · intro hacyclic
    -- the steps among the nodes that can be reached, backwards
    let back : ν → ν → Prop := fun k m => Reaches items n m ∧ Leads items m k
    have hforward : ∀ {k m}, Relation.TransGen back k m →
        Reaches items n m ∧ Relation.TransGen (Leads items) m k := by
      intro k m hback
      induction hback with
      | single hstep => exact ⟨hstep.1, .single hstep.2⟩
      | tail _ hstep ih => exact ⟨hstep.1, .head hstep.2 ih.2⟩
    -- without a cycle the backward steps of finitely many nodes end
    have hwf : WellFounded (Relation.TransGen back) := by
      have : Std.Irrefl (Relation.TransGen back) :=
        ⟨fun m hcycle => hacyclic m (hforward hcycle).1 (hforward hcycle).2⟩
      exact Finite.wellFounded_of_trans_of_irrefl _
    have hall : ∀ m, Reaches items n m → ∃ bs, Reports items m bs := by
      intro m
      -- so a walk may be built up from the nodes without successors
      induction m using hwf.induction with
      | _ m ih =>
        intro hreach
        apply exists_reports_of_leads
        intro k hleads
        exact ih k (.single ⟨hreach, hleads⟩) (hreach.tail hleads)
    exact hall n .refl

/-! ### Reporting once -/

/-- Every item belongs to one node and occurs there once, and every node is led to
by at most one item. -/
structure Tidy (items : ν → List (β × Option ν)) : Prop where
  nodup : ∀ n, ((items n).map Prod.fst).Nodup
  owner : ∀ n m b next next', (b, next) ∈ items n → (b, next') ∈ items m → n = m
  entry : ∀ n m k b c, (b, some k) ∈ items n → (c, some k) ∈ items m → b = c

namespace Tidy

/-- A node is led to from one node only. -/
theorem leads_unique (h : Tidy items) {k : ν} (hn : Leads items n k) (hm : Leads items m k) :
    n = m := by
  obtain ⟨b, hb⟩ := hn
  obtain ⟨c, hc⟩ := hm
  obtain rfl := h.entry n m k b c hb hc
  exact h.owner n m b _ _ hb hc

/-- Two nodes led to from one node have nothing in common unless they are equal or
that node lies on a cycle. -/
theorem eq_of_reaches (h : Tidy items) {x y k : ν} (hx : Leads items n x) (hy : Leads items n y)
    (hacyclic : ¬ Relation.TransGen (Leads items) n n)
    (hxk : Reaches items x k) (hyk : Reaches items y k) : x = y := by
  -- a sibling below a sibling is led to from `n`, which closes a cycle
  have hcycle : ∀ {z w}, Leads items n z → Leads items n w → Reaches items z w → z = w := by
    intro z w hz hw hzw
    rcases hzw.cases_tail with rfl | ⟨p, hzp, hpw⟩
    · rfl
    · obtain rfl := h.leads_unique hpw hw
      exact absurd (Relation.TransGen.head' hz hzp) hacyclic
  have hunique : Relator.RightUnique (Function.swap (Leads items)) :=
    fun _ _ _ hp hq => h.leads_unique hp hq
  -- every node has one parent, so the two ways up from `k` are one
  have htotal := Relation.ReflTransGen.total_of_right_unique hunique
    (Relation.reflTransGen_swap.mpr hxk) (Relation.reflTransGen_swap.mpr hyk)
  rcases htotal with hxy | hyx
  · exact (hcycle hy hx (Relation.reflTransGen_swap.mp hxy)).symm
  · exact hcycle hx hy (Relation.reflTransGen_swap.mp hyx)

/-- **Reporting once.** In a tidy graph a walk that ends reports no item twice. -/
theorem nodup_walk (h : Tidy items) (hwalk : walk items depth n = some bs) : bs.Nodup := by
  induction depth generalizing n bs with
  | zero => cases hwalk
  | succ depth ih =>
    have hacyclic := not_transGen_of_walk hwalk
    have hsub : ∀ {b m}, (b, some m) ∈ items n → ∃ cs, walk items depth m = some cs :=
      fun hb => exists_walk_of_leads hwalk ⟨_, hb⟩
    -- an item of `n` itself is not met again below `n`
    have hfresh : ∀ {b c next m cs}, (b, next) ∈ items n → (c, some m) ∈ items n →
        walk items depth m = some cs → b ∉ cs := by
      intro b c next m cs hb hc hcs hmem
      obtain ⟨k, next', hreach, hk⟩ := (mem_walk hcs).mp hmem
      obtain rfl := h.owner n k b _ _ hb hk
      exact hacyclic (Relation.TransGen.head' ⟨c, hc⟩ hreach)
    obtain ⟨hsome, rfl⟩ := collect_eq_some_iff.mp hwalk
    rw [List.nodup_flatMap]
    constructor
    · rintro ⟨b, next⟩ hb
      cases next with
      | none => exact List.nodup_singleton b
      | some m =>
        obtain ⟨cs, hcs⟩ := hsub hb
        simp only [visit, hcs, Option.map_some, Option.getD_some, List.nodup_cons]
        exact ⟨hfresh hb hb hcs, ih hcs⟩
    · have hpairs : (items n).Pairwise fun i j => i.1 ≠ j.1 := List.pairwise_map.mp (h.nodup n)
      apply hpairs.imp_of_mem
      rintro ⟨b, x⟩ ⟨c, y⟩ hb hc hne e heb hec
      -- an item reported below both is below a node that both lead to
      rcases mem_visit heb with rfl | ⟨x', hx', xs, hxs, hex⟩
      · rcases mem_visit hec with heq | ⟨y', hy', ys, hys, hey⟩
        · exact hne heq
        · obtain rfl : y = some y' := hy'
          exact hfresh hb hc hys hey
      · obtain rfl : x = some x' := hx'
        rcases mem_visit hec with rfl | ⟨y', hy', ys, hys, hey⟩
        · exact hfresh hc hb hxs hex
        · obtain rfl : y = some y' := hy'
          obtain ⟨k, next, hxk, hk⟩ := (mem_walk hxs).mp hex
          obtain ⟨l, next', hyl, hl⟩ := (mem_walk hys).mp hey
          obtain rfl := h.owner k l e _ _ hk hl
          obtain rfl := h.eq_of_reaches ⟨b, hb⟩ ⟨c, hc⟩ hacyclic hxk hyl
          exact hne (h.entry n n x' b c hb hc)

end Tidy

/-! ### Routes -/

/-- A route from a node: the items passed on the way to an item, and that item. -/
inductive Route (items : ν → List (β × Option ν)) : ν → List β → Prop
  | last {n : ν} {b : β} {next : Option ν} (hmem : (b, next) ∈ items n) : Route items n [b]
  | step {n m : ν} {b : β} {bs : List β} (hmem : (b, some m) ∈ items n)
      (hroute : Route items m bs) : Route items n (b :: bs)

/-- The route that ends with an item, and those that go on from it. -/
def extend (rec : ν → List (List β)) (item : β × Option ν) : List (List β) :=
  [item.1] :: (item.2.elim [] rec).map (item.1 :: ·)

/-- The routes a walk takes, in its order. -/
def routes (items : ν → List (β × Option ν)) : ℕ → ν → List (List β)
  | 0, _ => []
  | depth + 1, n => (items n).flatMap (extend (routes items depth))

theorem head_of_mem_extend {rec : ν → List (List β)} {item : β × Option ν} {r : List β}
    (hmem : r ∈ extend rec item) : r.head? = some item.1 := by
  rcases List.mem_cons.mp hmem with rfl | hmem
  · rfl
  · obtain ⟨r', -, rfl⟩ := List.mem_map.mp hmem
    rfl

theorem ne_nil_of_mem_routes {r : List β} (hmem : r ∈ routes items depth n) : r ≠ [] := by
  rintro rfl
  cases depth with
  | zero => cases hmem
  | succ depth =>
    obtain ⟨item, -, hextend⟩ := List.mem_flatMap.mp hmem
    cases head_of_mem_extend hextend

/-- A walk reports one item for each route. -/
theorem length_routes (hwalk : walk items depth n = some bs) :
    (routes items depth n).length = bs.length := by
  induction depth generalizing n bs with
  | zero => cases hwalk
  | succ depth ih =>
    obtain ⟨hsome, rfl⟩ := collect_eq_some_iff.mp hwalk
    rw [routes, List.length_flatMap, List.length_flatMap]
    congr 1
    apply List.map_congr_left
    rintro ⟨b, next⟩ hb
    cases next with
    | none => rfl
    | some m =>
      obtain ⟨cs, hcs⟩ := exists_walk_of_leads hwalk ⟨b, hb⟩
      simp only [extend, visit, hcs, Option.elim_some, Option.map_some, Option.getD_some,
        List.length_cons, List.length_map, ih hcs]

theorem mem_routes (hwalk : walk items depth n = some bs) {r : List β} :
    r ∈ routes items depth n ↔ Route items n r := by
  induction depth generalizing n bs r with
  | zero => cases hwalk
  | succ depth ih =>
    rw [routes, List.mem_flatMap]
    constructor
    · rintro ⟨⟨b, next⟩, hb, hextend⟩
      rcases List.mem_cons.mp hextend with rfl | hrest
      · exact .last hb
      · obtain ⟨r', hr', rfl⟩ := List.mem_map.mp hrest
        cases next with
        | none => cases hr'
        | some m =>
          obtain ⟨cs, hcs⟩ := exists_walk_of_leads hwalk ⟨b, hb⟩
          exact .step hb ((ih hcs).mp hr')
    · intro hroute
      cases hroute with
      | last hb => exact ⟨_, hb, List.mem_cons_self⟩
      | step hb hrest =>
        obtain ⟨cs, hcs⟩ := exists_walk_of_leads hwalk ⟨_, hb⟩
        refine ⟨_, hb, List.mem_cons_of_mem _ ?_⟩
        exact List.mem_map.mpr ⟨_, (ih hcs).mpr hrest, rfl⟩

/-- No route is taken twice when no node has an item twice. -/
theorem nodup_routes (hnodup : ∀ n, ((items n).map Prod.fst).Nodup) :
    (routes items depth n).Nodup := by
  induction depth generalizing n with
  | zero => exact List.nodup_nil
  | succ depth ih =>
    rw [routes, List.nodup_flatMap]
    constructor
    · rintro ⟨b, next⟩ -
      have hrest : (next.elim [] (routes items depth)).Nodup := by
        cases next with
        | none => exact List.nodup_nil
        | some m => exact ih
      refine List.nodup_cons.mpr ⟨?_, hrest.map (List.cons_injective)⟩
      -- the routes that go on are longer than the one that ends here
      intro hmem
      obtain ⟨r, hr, heq⟩ := List.mem_map.mp hmem
      obtain rfl := List.tail_eq_of_cons_eq heq
      cases next with
      | none => cases hr
      | some m => exact ne_nil_of_mem_routes hr rfl
    · have hpairs : (items n).Pairwise fun i j => i.1 ≠ j.1 := List.pairwise_map.mp (hnodup n)
      apply hpairs.imp
      intro i j hne r hi hj
      have heq := (head_of_mem_extend hi).symm.trans (head_of_mem_extend hj)
      exact hne (Option.some.inj heq)

theorem exists_item_of_route {r : List β} (hroute : Route items n r) :
    ∃ b next, (b, next) ∈ items n ∧ r.head? = some b := by
  cases hroute with
  | last hmem => exact ⟨_, _, hmem, rfl⟩
  | step hmem _ => exact ⟨_, _, hmem, rfl⟩

/-- **Counting.** When every item belongs to one node and occurs there once, the walks of
some nodes make as many reports as there are routes from these nodes. -/
theorem encard_route {ns : List ν} (hnodup : ∀ n, ((items n).map Prod.fst).Nodup)
    (howner : ∀ n m b next next', (b, next) ∈ items n → (b, next') ∈ items m → n = m)
    (hns : ns.Nodup) (hwalk : collect (walk items depth) ns = some bs) :
    {r | ∃ n ∈ ns, Route items n r}.encard = bs.length := by
  classical
  obtain ⟨hsome, rfl⟩ := collect_eq_some_iff.mp hwalk
  have hwalks : ∀ n ∈ ns, ∃ cs, walk items depth n = some cs :=
    fun n hn => Option.isSome_iff_exists.mp (hsome n hn)
  set taken := ns.flatMap (routes items depth) with htaken
  have hmem : {r | ∃ n ∈ ns, Route items n r} = (taken.toFinset : Set (List β)) := by
    ext r
    rw [Finset.mem_coe, List.mem_toFinset, htaken, List.mem_flatMap]
    constructor
    · rintro ⟨n, hn, hroute⟩
      obtain ⟨cs, hcs⟩ := hwalks n hn
      exact ⟨n, hn, (mem_routes hcs).mpr hroute⟩
    · rintro ⟨n, hn, hr⟩
      obtain ⟨cs, hcs⟩ := hwalks n hn
      exact ⟨n, hn, (mem_routes hcs).mp hr⟩
  have honce : taken.Nodup := by
    rw [htaken, List.nodup_flatMap]
    refine ⟨fun n _ => nodup_routes hnodup, ?_⟩
    apply hns.imp_of_mem
    intro n m hn hm hne r hr hr'
    obtain ⟨cs, hcs⟩ := hwalks n hn
    obtain ⟨ds, hds⟩ := hwalks m hm
    -- a route tells the node it starts from by its first item
    obtain ⟨b, next, hb, hhead⟩ := exists_item_of_route ((mem_routes hcs).mp hr)
    obtain ⟨c, next', hc, hhead'⟩ := exists_item_of_route ((mem_routes hds).mp hr')
    obtain rfl := Option.some.inj (hhead.symm.trans hhead')
    exact hne (howner n m b _ _ hb hc)
  have hlength : taken.length = (ns.flatMap fun n => (walk items depth n).getD []).length := by
    rw [htaken, List.length_flatMap, List.length_flatMap]
    congr 1
    apply List.map_congr_left
    intro n hn
    obtain ⟨cs, hcs⟩ := hwalks n hn
    rw [length_routes hcs, hcs, Option.getD_some]
  rw [hmem, Set.encard_coe_eq_coe_finsetCard, List.toFinset_card_of_nodup honce, hlength]

end Walk
