/-
# What the bus scan covers

When the bridges form a forest with increasing bus numbers, a scan ends and reports
every function behind its start bus once and nothing else. Without that, it ends
exactly when no cycle of bridges can be reached.
-/

import Bitnos.Pci.Scan
import Mathlib.Data.Fintype.EquivFin
import Mathlib.Tactic.SplitIfs

namespace Bitnos.Pci

variable {space : ConfigSpace} {bus dev func bus' : BitVec 8} {reports : List ScanCallbackParam}

/-! ### The graph of buses -/

theorem mem_items {param : ScanCallbackParam} {next : Option (BitVec 8)} :
    (param, next) ∈ items space bus ↔ ∃ dev func : BitVec 8, dev.toNat < 32 ∧ func.toNat < 8 ∧
      Present space bus dev func ∧ item space bus dev func = (param, next) := by
  simp only [items, List.mem_flatMap, List.mem_map, mem_functions,
    mem_counters (show 32 ≤ 256 by omega)]
  constructor
  · rintro ⟨dev, hdev, func, ⟨hfunc, hpresent⟩, hitem⟩
    exact ⟨dev, func, hdev.2, hfunc, hpresent, hitem⟩
  · rintro ⟨dev, func, hdev, hfunc, hpresent, hitem⟩
    exact ⟨dev, ⟨Nat.zero_le _, hdev⟩, func, ⟨hfunc, hpresent⟩, hitem⟩

/-- An item that leads to a bus is a bridge to it. -/
theorem mem_items_some {param : ScanCallbackParam} :
    (param, some bus') ∈ items space bus ↔
      ∃ dev func, BridgeTo space bus dev func bus' ∧ param = ownReport space bus dev func := by
  rw [mem_items]
  constructor
  · rintro ⟨dev, func, hdev, hfunc, hpresent, hitem⟩
    obtain ⟨rfl, hnext⟩ := Prod.mk.inj hitem
    by_cases hbridge : (ownReport space bus dev func).IsBridge
    · rw [if_pos hbridge] at hnext
      exact ⟨dev, func, ⟨hdev, hfunc, hpresent, hbridge, Option.some.inj hnext⟩, rfl⟩
    · rw [if_neg hbridge] at hnext
      cases hnext
  · rintro ⟨dev, func, hto, rfl⟩
    refine ⟨dev, func, hto.dev_lt, hto.func_lt, hto.present, ?_⟩
    rw [item, if_pos hto.bridge, hto.secondary]

theorem leads_items : Walk.Leads (items space) = Bridges space := by
  ext bus bus'
  constructor
  · rintro ⟨param, hmem⟩
    obtain ⟨dev, func, hto, -⟩ := mem_items_some.mp hmem
    exact ⟨dev, func, hto⟩
  · rintro ⟨dev, func, hto⟩
    exact ⟨_, mem_items_some.mpr ⟨dev, func, hto, rfl⟩⟩

theorem reaches_items : Walk.Reaches (items space) = ReachableBus space := by
  rw [ReachableBus, ← leads_items]
  rfl

theorem reports_items : Walk.Reports (items space) = Scans space := by
  funext bus reports
  simp only [Walk.Reports, Scans, scan_eq_walk]

/-! ### Forests of bridges -/

/-- Bridges lead to higher bus numbers, and no two lead to the same bus. -/
structure Forest (space : ConfigSpace) : Prop where
  increasing : ∀ {bus dev func bus'}, BridgeTo space bus dev func bus' → bus < bus'
  single_parent : ∀ {bus₁ dev₁ func₁ bus₂ dev₂ func₂ bus'}, BridgeTo space bus₁ dev₁ func₁ bus' →
    BridgeTo space bus₂ dev₂ func₂ bus' → bus₁ = bus₂ ∧ dev₁ = dev₂ ∧ func₁ = func₂

theorem Forest.acyclic (hforest : Forest space) :
    ¬ Relation.TransGen (Bridges space) bus bus := by
  -- bus numbers grow along every path
  have hlt : ∀ {bus'}, Relation.TransGen (Bridges space) bus bus' → bus.toNat < bus'.toNat := by
    intro bus' hpath
    induction hpath with
    | single hstep =>
      obtain ⟨dev, func, hto⟩ := hstep
      exact hforest.increasing hto
    | tail _ hstep ih =>
      obtain ⟨dev, func, hto⟩ := hstep
      exact ih.trans (hforest.increasing hto)
  exact fun hcycle => Nat.lt_irrefl _ (hlt hcycle)

theorem nodup_functions : (functions space bus dev).Nodup := by
  unfold functions
  by_cases hvendor : getVendorId space bus dev 0#8 = 0xffff#16
  · rw [if_pos hvendor]
    exact List.nodup_nil
  rw [if_neg hvendor]
  by_cases hsingle : isSingleFunctionDevice (getHeaderType space bus dev 0#8)
  · rw [if_pos hsingle]
    exact List.nodup_singleton _
  · rw [if_neg hsingle, List.nodup_cons]
    refine ⟨?_, (nodup_counters (by omega)).filter _⟩
    intro hmem
    -- the loop over the other functions starts at 1
    have hpos := (mem_counters (by omega)).mp (List.mem_filter.mp hmem).1
    exact absurd hpos.1 (by decide)

/-- A function has a place in the listing of its bus, and only one. -/
theorem nodup_items : ((items space bus).map Prod.fst).Nodup := by
  have hmap : (items space bus).map Prod.fst =
      (counters 0 32).flatMap fun dev => (functions space bus dev).map (ownReport space bus dev) := by
    simp only [items, List.map_flatMap, List.map_map]
    rfl
  rw [hmap, List.nodup_flatMap]
  constructor
  · intro dev _
    apply nodup_functions.map
    intro func func' heq
    exact congrArg ScanCallbackParam.func heq
  · apply (nodup_counters (by omega : 32 ≤ 256)).imp
    intro dev dev' hne param hmem hmem'
    obtain ⟨func, -, rfl⟩ := List.mem_map.mp hmem
    obtain ⟨func', -, heq⟩ := List.mem_map.mp hmem'
    exact hne (congrArg ScanCallbackParam.dev heq).symm

/-- A report tells the bus it is about. -/
theorem owner_items {param : ScanCallbackParam} {next next' : Option (BitVec 8)}
    (hmem : (param, next) ∈ items space bus) (hmem' : (param, next') ∈ items space bus') :
    bus = bus' := by
  obtain ⟨dev, func, -, -, -, hitem⟩ := mem_items.mp hmem
  obtain ⟨dev', func', -, -, -, hitem'⟩ := mem_items.mp hmem'
  have heq := (congrArg Prod.fst hitem).trans (congrArg Prod.fst hitem').symm
  exact congrArg ScanCallbackParam.bus heq

theorem Forest.tidy (hforest : Forest space) : Walk.Tidy (items space) where
  nodup _ := nodup_items
  owner _ _ _ _ _ hmem hmem' := owner_items hmem hmem'
  entry bus₁ bus₂ bus' param₁ param₂ hmem₁ hmem₂ := by
    obtain ⟨dev₁, func₁, hto₁, rfl⟩ := mem_items_some.mp hmem₁
    obtain ⟨dev₂, func₂, hto₂, rfl⟩ := mem_items_some.mp hmem₂
    obtain ⟨rfl, rfl, rfl⟩ := hforest.single_parent hto₁ hto₂
    rfl

/-! ### Reporting exactly what is covered -/

/-- Where the function of a report sits. -/
def ScanCallbackParam.location (param : ScanCallbackParam) : BitVec 8 × BitVec 8 × BitVec 8 :=
  (param.bus, param.dev, param.func)

theorem location_ownReport : (ownReport space bus dev func).location = (bus, dev, func) := rfl

/-- Every covered function is reported once, nothing else is, and each report holds
what the function's own registers say. -/
structure ReportsExactly (space : ConfigSpace) (covered : BitVec 8 → BitVec 8 → BitVec 8 → Prop)
    (reports : List ScanCallbackParam) : Prop where
  once : (reports.map ScanCallbackParam.location).Nodup
  covers : ∀ bus dev func,
    (bus, dev, func) ∈ reports.map ScanCallbackParam.location ↔ covered bus dev func
  own : ∀ param ∈ reports, param = ownReport space param.bus param.dev param.func

/-- There are as many reports as covered functions. -/
theorem ReportsExactly.encard_eq {covered : BitVec 8 → BitVec 8 → BitVec 8 → Prop}
    (hexactly : ReportsExactly space covered reports) :
    {p : BitVec 8 × BitVec 8 × BitVec 8 | covered p.1 p.2.1 p.2.2}.encard = reports.length := by
  have hset : {p : BitVec 8 × BitVec 8 × BitVec 8 | covered p.1 p.2.1 p.2.2} =
      ((reports.map ScanCallbackParam.location).toFinset : Set _) := by
    ext ⟨bus, dev, func⟩
    rw [Finset.mem_coe, List.mem_toFinset]
    exact (hexactly.covers bus dev func).symm
  rw [hset, Set.encard_coe_eq_coe_finsetCard, List.toFinset_card_of_nodup hexactly.once,
    List.length_map]

/-- A function that is present on a bus behind `start`, or on `start` itself. -/
def Behind (space : ConfigSpace) (start bus dev func : BitVec 8) : Prop :=
  ReachableBus space start bus ∧ dev.toNat < 32 ∧ func.toNat < 8 ∧ Present space bus dev func

theorem mem_reports (hscans : Scans space bus reports) {param : ScanCallbackParam} :
    param ∈ reports ↔
      ∃ bus' dev func, Behind space bus bus' dev func ∧ param = ownReport space bus' dev func := by
  obtain ⟨depth, hscan⟩ := hscans
  rw [scan_eq_walk] at hscan
  rw [Walk.mem_walk hscan, reaches_items]
  constructor
  · rintro ⟨bus', next, hreach, hmem⟩
    obtain ⟨dev, func, hdev, hfunc, hpresent, hitem⟩ := mem_items.mp hmem
    exact ⟨bus', dev, func, ⟨hreach, hdev, hfunc, hpresent⟩, (congrArg Prod.fst hitem).symm⟩
  · rintro ⟨bus', dev, func, ⟨hreach, hdev, hfunc, hpresent⟩, rfl⟩
    exact ⟨bus', _, hreach, mem_items.mpr ⟨dev, func, hdev, hfunc, hpresent, rfl⟩⟩

/-- In a forest a scan that ends reports exactly the functions behind its bus. -/
theorem Scans.reportsExactly (hscans : Scans space bus reports) (hforest : Forest space) :
    ReportsExactly space (Behind space bus) reports := by
  -- whether reported from here or from behind a bridge
  have hown : ∀ param ∈ reports, param = ownReport space param.bus param.dev param.func := by
    intro param hmem
    obtain ⟨bus', dev, func, -, rfl⟩ := (mem_reports hscans).mp hmem
    rfl
  have hnodup : reports.Nodup := by
    obtain ⟨depth, hscan⟩ := hscans
    rw [scan_eq_walk] at hscan
    exact hforest.tidy.nodup_walk hscan
  refine ⟨?_, ?_, hown⟩
  · -- a report is determined by where its function sits
    apply hnodup.map_on
    intro param hmem param' hmem' hlocation
    simp only [ScanCallbackParam.location, Prod.mk.injEq] at hlocation
    obtain ⟨hbus, hdev, hfunc⟩ := hlocation
    rw [hown param hmem, hown param' hmem', hbus, hdev, hfunc]
  · intro bus' dev func
    rw [List.mem_map]
    constructor
    · rintro ⟨param, hmem, hlocation⟩
      obtain ⟨bus'', dev', func', hbehind, rfl⟩ := (mem_reports hscans).mp hmem
      rw [location_ownReport, Prod.mk.injEq, Prod.mk.injEq] at hlocation
      obtain ⟨rfl, rfl, rfl⟩ := hlocation
      exact hbehind
    · intro hbehind
      exact ⟨_, (mem_reports hscans).mpr ⟨bus', dev, func, hbehind, rfl⟩, rfl⟩

/-! ### Termination -/

theorem exists_scans_iff :
    (∃ reports, Scans space bus reports) ↔
      ∀ bus', ReachableBus space bus bus' → ¬ Relation.TransGen (Bridges space) bus' bus' := by
  have : Finite (BitVec 8) :=
    Finite.of_injective BitVec.toFin fun _ _ heq => BitVec.toFin_inj.mp heq
  rw [← reports_items, Walk.exists_reports_iff, leads_items, reaches_items]

theorem Forest.exists_scans (hforest : Forest space) (bus : BitVec 8) :
    ∃ reports, Scans space bus reports := by
  apply exists_scans_iff.mpr
  intro bus' _
  exact hforest.acyclic

/-! ### Coverage -/

/-- The registers of a machine with a host bridge at 0:0.0, a PCI-PCI bridge at 0:1.0
whose secondary bus register holds `secondary`, and an xHCI controller at 1:0.0. -/
def bridgedRegisters (secondary bus dev func addr : BitVec 8) : BitVec 32 :=
  if bus = 0#8 ∧ dev = 0#8 ∧ func = 0#8 then
    if addr = 0x00#8 then 0x12378086#32 else if addr = 0x08#8 then 0x06000002#32 else 0#32
  else if bus = 0#8 ∧ dev = 1#8 ∧ func = 0#8 then
    if addr = 0x00#8 then 0x244e8086#32 else if addr = 0x08#8 then 0x06040000#32
    else if addr = 0x0c#8 then 0x00010000#32
    else if addr = 0x18#8 then secondary.setWidth 32 <<< 8 else 0#32
  else if bus = 1#8 ∧ dev = 0#8 ∧ func = 0#8 then
    if addr = 0x00#8 then 0x000d1b36#32 else if addr = 0x08#8 then 0x0c033001#32 else 0#32
  else 0xffffffff#32

def bridgedSpace (secondary : BitVec 8) : ConfigSpace := .ofRegisters (bridgedRegisters secondary)

theorem bridgeTo_bridgedSpace {secondary : BitVec 8} :
    BridgeTo (bridgedSpace secondary) bus dev func bus' ↔
      bus = 0#8 ∧ dev = 1#8 ∧ func = 0#8 ∧ bus' = secondary := by
  have hsecondary : secondaryBus (bridgedSpace secondary) 0#8 1#8 0#8 = secondary := by
    rw [secondaryBus, bridgedSpace, register_ofRegisters (by decide) (by decide)]
    apply BitVec.eq_of_getLsbD_eq
    intro i hi
    simp [hi, bridgedRegisters, show 8 + i < 32 by omega]
  constructor
  · intro hto
    have hheader := hto.bridge.1
    simp only [ownReport, bridgedSpace, register_ofRegisters hto.dev_lt hto.func_lt] at hheader
    have hbridge : bus = 0#8 ∧ dev = 1#8 ∧ func = 0#8 := by
      by_contra hother
      rw [bridgedRegisters, if_neg hother] at hheader
      split_ifs at hheader <;> revert hheader <;> decide
    obtain ⟨rfl, rfl, rfl⟩ := hbridge
    exact ⟨rfl, rfl, rfl, by rw [← hto.secondary, hsecondary]⟩
  · rintro ⟨rfl, rfl, rfl, rfl⟩
    refine ⟨by decide, by decide, ⟨?_, .inl rfl⟩, ?_, hsecondary⟩
    · rw [getVendorId_eq, bridgedSpace, register_ofRegisters (by decide) (by decide)]
      simp [bridgedRegisters]
    · simp [ScanCallbackParam.IsBridge, ownReport, bridgedSpace, register_ofRegisters,
        bridgedRegisters]

theorem forest_bridgedSpace : Forest (bridgedSpace 1#8) where
  increasing hto := by
    obtain ⟨rfl, -, -, rfl⟩ := bridgeTo_bridgedSpace.mp hto
    decide
  single_parent hto₁ hto₂ := by
    obtain ⟨rfl, rfl, rfl, -⟩ := bridgeTo_bridgedSpace.mp hto₁
    obtain ⟨rfl, rfl, rfl, -⟩ := bridgeTo_bridgedSpace.mp hto₂
    exact ⟨rfl, rfl, rfl⟩

/-- **Coverage of a scan.** When the bridges form a forest, the scan of a bus ends and
reports exactly the functions behind it. -/
theorem scan_reports_exactly (hforest : Forest space) (bus : BitVec 8) :
    ∃ reports, Scans space bus reports ∧ ReportsExactly space (Behind space bus) reports := by
  obtain ⟨reports, hscans⟩ := hforest.exists_scans bus
  exact ⟨reports, hscans, hscans.reportsExactly hforest⟩

/-- The controller behind the bridge is found from bus 0. -/
theorem scan_reports_exactly_bridgedSpace :
    Forest (bridgedSpace 1#8) ∧ ReachableBus (bridgedSpace 1#8) 0#8 1#8 ∧
      ∃ reports, Scans (bridgedSpace 1#8) 0#8 reports ∧
        ReportsExactly (bridgedSpace 1#8) (Behind (bridgedSpace 1#8) 0#8) reports :=
  ⟨forest_bridgedSpace,
    .single ⟨1#8, 0#8, bridgeTo_bridgedSpace.mpr ⟨rfl, rfl, rfl, rfl⟩⟩,
    scan_reports_exactly forest_bridgedSpace 0#8⟩

end Bitnos.Pci
