/-
# Root buses

`ScanAllBus` scans bus 0 when the host bridge at 0:0.0 is a single-function device.
Otherwise each function of device 0:0 is a host bridge of its own, and its number is
that of its root bus. The loop over them breaks at a function that is present where
it should break at one that is absent, so on a machine with several host bridges it
scans nothing.

A function is reported once for each route of bridges to it, so the number of reports
can be read off the configuration space.
-/

import Bitnos.Pci.Coverage

namespace Bitnos.Pci

variable {space : ConfigSpace} {bus dev func bus' : BitVec 8} {reports : List ScanCallbackParam}

/-! ### The buses a scan starts from -/

/-- The root buses of a machine: bus 0, or one for each function of device 0:0 up to
the first absent one. -/
def rootBuses (space : ConfigSpace) : List (BitVec 8) :=
  if isSingleFunctionDevice (getHeaderType space 0#8 0#8 0#8) then [0#8]
  else (counters 0 8).takeWhile fun func => getVendorId space 0#8 0#8 func ≠ 0xffff#16

/-- The buses `ScanAllBus` starts a scan from. -/
def scannedRoots (space : ConfigSpace) : List (BitVec 8) :=
  if isSingleFunctionDevice (getHeaderType space 0#8 0#8 0#8) then [0#8]
  else (counters 0 8).takeWhile fun func => getVendorId space 0#8 0#8 func = 0xffff#16

theorem scanHosts_eq (depth : ℕ) (funcs : List (BitVec 8)) :
    scanHosts space depth funcs = Walk.collect (scan space depth)
      (funcs.takeWhile fun func => getVendorId space 0#8 0#8 func = 0xffff#16) := by
  induction funcs with
  | nil => rfl
  | cons func funcs ih =>
    by_cases hvendor : getVendorId space 0#8 0#8 func = 0xffff#16
    · rw [scanHosts, if_neg (not_not_intro hvendor), ih, List.takeWhile_cons_of_pos (by simpa),
        Walk.collect_cons]
    · rw [scanHosts, if_pos hvendor, List.takeWhile_cons_of_neg (by simpa), Walk.collect_nil]

theorem scanAllBus_eq (depth : ℕ) :
    scanAllBus space depth = Walk.collect (scan space depth) (scannedRoots space) := by
  unfold scanAllBus scannedRoots
  by_cases hsingle : isSingleFunctionDevice (getHeaderType space 0#8 0#8 0#8)
  · rw [if_pos hsingle, if_pos hsingle]
    simp [Walk.collect_cons]
  · rw [if_neg hsingle, if_neg hsingle, scanHosts_eq]

/-- More stack does not change what a scan that ends reports. -/
theorem scanAllBus_mono {depth depth' : ℕ} (hall : scanAllBus space depth = some reports)
    (hle : depth ≤ depth') : scanAllBus space depth' = some reports := by
  rw [← hall, scanAllBus_eq, scanAllBus_eq]
  rw [scanAllBus_eq, Walk.collect_eq_some_iff] at hall
  apply Walk.collect_congr
  intro root hroot
  obtain ⟨reports', hscan⟩ := Option.isSome_iff_exists.mp (hall.1 root hroot)
  rw [hscan, scan_eq_walk]
  rw [scan_eq_walk] at hscan
  exact Walk.walk_mono hscan hle

theorem ScansAll.unique {reports' : List ScanCallbackParam} (hall : ScansAll space reports)
    (hall' : ScansAll space reports') : reports = reports' := by
  obtain ⟨depth, hdepth⟩ := hall
  obtain ⟨depth', hdepth'⟩ := hall'
  have hmax := scanAllBus_mono hdepth (Nat.le_max_left depth depth')
  have hmax' := scanAllBus_mono hdepth' (Nat.le_max_right depth depth')
  exact Option.some.inj (hmax.symm.trans hmax')

/-- `ScanAllBus` ends exactly when each scan it starts does. -/
theorem exists_scansAll :
    (∃ reports, ScansAll space reports) ↔
      ∀ root ∈ scannedRoots space, ∃ reports, Scans space root reports := by
  constructor
  · rintro ⟨reports, depth, hall⟩ root hroot
    rw [scanAllBus_eq, Walk.collect_eq_some_iff] at hall
    obtain ⟨reports', hscan⟩ := Option.isSome_iff_exists.mp (hall.1 root hroot)
    exact ⟨reports', depth, hscan⟩
  · intro hroots
    rw [← reports_items] at hroots
    -- finitely many roots: one depth is enough for all of them
    obtain ⟨depth, hdepth⟩ := Walk.exists_common_depth hroots
    have hall : ∀ root ∈ scannedRoots space, (scan space depth root).isSome := by
      intro root hroot
      rw [scan_eq_walk]
      exact hdepth root hroot
    exact ⟨_, depth, (scanAllBus_eq depth).trans (Walk.collect_eq_some_iff.mpr ⟨hall, rfl⟩)⟩

/-! ### How many reports -/

/-- A route from a bus: the bridges passed on the way to a function, and that function. -/
inductive Route (space : ConfigSpace) : BitVec 8 → List (BitVec 8 × BitVec 8 × BitVec 8) → Prop
  | present {bus dev func : BitVec 8} (hdev : dev.toNat < 32) (hfunc : func.toNat < 8)
      (hpresent : Present space bus dev func) : Route space bus [(bus, dev, func)]
  | bridge {bus dev func bus' : BitVec 8} {path : List (BitVec 8 × BitVec 8 × BitVec 8)}
      (hto : BridgeTo space bus dev func bus') (hroute : Route space bus' path) :
      Route space bus ((bus, dev, func) :: path)

/-- The routes from the buses `ScanAllBus` starts a scan from. -/
def routes (space : ConfigSpace) : Set (List (BitVec 8 × BitVec 8 × BitVec 8)) :=
  {path | ∃ root ∈ scannedRoots space, Route space root path}

theorem route_items :
    Walk.Route (items space) bus reports ↔ ∃ path, Route space bus path ∧
      path.map (fun p => ownReport space p.1 p.2.1 p.2.2) = reports := by
  constructor
  · intro hroute
    induction hroute with
    | last hmem =>
      obtain ⟨dev, func, hdev, hfunc, hpresent, hitem⟩ := mem_items.mp hmem
      obtain ⟨rfl, -⟩ := Prod.mk.inj hitem
      exact ⟨_, .present hdev hfunc hpresent, rfl⟩
    | step hmem _ ih =>
      obtain ⟨dev, func, hto, rfl⟩ := mem_items_some.mp hmem
      obtain ⟨path, hpath, rfl⟩ := ih
      exact ⟨_, .bridge hto hpath, rfl⟩
  · rintro ⟨path, hpath, rfl⟩
    induction hpath with
    | present hdev hfunc hpresent =>
      exact .last (mem_items.mpr ⟨_, _, hdev, hfunc, hpresent, rfl⟩)
    | bridge hto _ ih => exact .step (mem_items_some.mpr ⟨_, _, hto, rfl⟩) ih

theorem nodup_scannedRoots : (scannedRoots space).Nodup := by
  unfold scannedRoots
  by_cases hsingle : isSingleFunctionDevice (getHeaderType space 0#8 0#8 0#8)
  · rw [if_pos hsingle]
    exact List.nodup_singleton _
  · rw [if_neg hsingle]
    exact (nodup_counters (by omega)).sublist (List.takeWhile_sublist _)

/-- **The number of reports.** `ScanAllBus` reports a function once for each route to it. -/
theorem ScansAll.encard_routes (hall : ScansAll space reports) :
    (routes space).encard = reports.length := by
  obtain ⟨depth, hall⟩ := hall
  rw [scanAllBus_eq, funext (scan_eq_walk depth)] at hall
  have hinjective : Function.Injective
      fun p : BitVec 8 × BitVec 8 × BitVec 8 => ownReport space p.1 p.2.1 p.2.2 :=
    fun _ _ heq => congrArg ScanCallbackParam.location heq
  have himage : List.map (fun p => ownReport space p.1 p.2.1 p.2.2) '' routes space =
      {r | ∃ root ∈ scannedRoots space, Walk.Route (items space) root r} := by
    ext r
    constructor
    · rintro ⟨path, ⟨root, hroot, hpath⟩, rfl⟩
      exact ⟨root, hroot, route_items.mpr ⟨path, hpath, rfl⟩⟩
    · rintro ⟨root, hroot, hr⟩
      obtain ⟨path, hpath, rfl⟩ := route_items.mp hr
      exact ⟨path, ⟨root, hroot, hpath⟩, rfl⟩
  rw [← (List.map_injective_iff.mpr hinjective).encard_image, himage]
  exact Walk.encard_route (fun _ => nodup_items) (fun _ _ _ _ _ => owner_items)
    nodup_scannedRoots hall

/-! ### Coverage of the root buses -/

/-- A function behind some root bus. -/
def RootCovered (space : ConfigSpace) (bus dev func : BitVec 8) : Prop :=
  ∃ root ∈ rootBuses space, Behind space root bus dev func

/-- The host bridge itself is behind a root bus. -/
theorem rootCovered_hostBridge (hpresent : getVendorId space 0#8 0#8 0#8 ≠ 0xffff#16) :
    RootCovered space 0#8 0#8 0#8 := by
  refine ⟨0#8, ?_, .refl, by decide, by decide, hpresent, .inl rfl⟩
  unfold rootBuses
  by_cases hsingle : isSingleFunctionDevice (getHeaderType space 0#8 0#8 0#8)
  · rw [if_pos hsingle]
    exact List.mem_singleton_self _
  · have hcounters : counters 0 8 = 0#8 :: counters 1 8 := by decide
    rw [if_neg hsingle, hcounters, List.takeWhile_cons_of_pos (by simpa)]
    exact List.mem_cons_self

/-- With several host bridges the loop breaks before it scans anything. -/
theorem scansAll_of_multiFunction (hpresent : getVendorId space 0#8 0#8 0#8 ≠ 0xffff#16)
    (hmulti : ¬ isSingleFunctionDevice (getHeaderType space 0#8 0#8 0#8))
    (hall : ScansAll space reports) : reports = [] := by
  obtain ⟨depth, hall⟩ := hall
  have hcounters : counters 0 8 = 0#8 :: counters 1 8 := by decide
  rw [scanAllBus, if_neg hmulti, hcounters, scanHosts, if_pos hpresent] at hall
  exact (Option.some.inj hall).symm

/-- With one host bridge in a forest the scan reports what is behind bus 0. -/
theorem Forest.scansAll_of_singleFunction (hforest : Forest space)
    (hsingle : isSingleFunctionDevice (getHeaderType space 0#8 0#8 0#8)) :
    ∃ reports, ScansAll space reports ∧ ReportsExactly space (Behind space 0#8) reports := by
  obtain ⟨reports, hscans⟩ := hforest.exists_scans 0#8
  refine ⟨reports, ?_, hscans.reportsExactly hforest⟩
  obtain ⟨depth, hscan⟩ := hscans
  refine ⟨depth, ?_⟩
  rwa [scanAllBus, if_pos hsingle]

/-- With one host bridge in a forest there is one route to each function behind bus 0. -/
theorem Forest.encard_routes (hforest : Forest space)
    (hsingle : isSingleFunctionDevice (getHeaderType space 0#8 0#8 0#8)) :
    (routes space).encard =
      {p : BitVec 8 × BitVec 8 × BitVec 8 | Behind space 0#8 p.1 p.2.1 p.2.2}.encard := by
  obtain ⟨reports, hall, hexactly⟩ := hforest.scansAll_of_singleFunction hsingle
  rw [hall.encard_routes, hexactly.encard_eq]

/-- **Root bus coverage.** With a forest of bridges, `ScanAllBus` reports exactly the
functions behind the root buses if and only if the host bridge is a single-function
device. -/
theorem scanAllBus_covers_roots_iff (hpresent : getVendorId space 0#8 0#8 0#8 ≠ 0xffff#16)
    (hforest : Forest space) :
    (∃ reports, ScansAll space reports ∧ ReportsExactly space (RootCovered space) reports) ↔
      isSingleFunctionDevice (getHeaderType space 0#8 0#8 0#8) := by
  constructor
  · rintro ⟨reports, hall, hexactly⟩
    by_contra hmulti
    -- the host bridge ought to be reported, but nothing is
    have hhost := (hexactly.covers 0#8 0#8 0#8).mpr (rootCovered_hostBridge hpresent)
    rw [scansAll_of_multiFunction hpresent hmulti hall] at hhost
    exact List.not_mem_nil hhost
  · intro hsingle
    -- the only root bus is bus 0
    have hcovered : RootCovered space = Behind space 0#8 := by
      funext bus dev func
      simp [RootCovered, rootBuses, hsingle]
    rw [hcovered]
    exact hforest.scansAll_of_singleFunction hsingle

/-- A machine with one host bridge is scanned in full. -/
theorem scanAllBus_covers_roots_bridgedSpace :
    getVendorId (bridgedSpace 1#8) 0#8 0#8 0#8 ≠ 0xffff#16 ∧ Forest (bridgedSpace 1#8) ∧
      ∃ reports, ScansAll (bridgedSpace 1#8) reports ∧
        ReportsExactly (bridgedSpace 1#8) (RootCovered (bridgedSpace 1#8)) reports :=
  have hpresent : getVendorId (bridgedSpace 1#8) 0#8 0#8 0#8 ≠ 0xffff#16 := by decide +kernel
  ⟨hpresent, forest_bridgedSpace,
    (scanAllBus_covers_roots_iff hpresent forest_bridgedSpace).mpr (by decide +kernel)⟩

/-- A machine with two host bridges, functions 0 and 1 of device 0:0. -/
def twoHostsSpace : ConfigSpace := .ofRegisters fun bus dev func addr =>
  if bus = 0#8 ∧ dev = 0#8 ∧ func.toNat < 2 then
    if addr = 0x00#8 then 0x36008086#32 else if addr = 0x08#8 then 0x06000022#32
    else if addr = 0x0c#8 then 0x00800000#32 else 0#32
  else 0xffffffff#32

theorem not_bridgeTo_twoHostsSpace : ¬ BridgeTo twoHostsSpace bus dev func bus' := by
  intro hto
  have hheader := hto.bridge.1
  simp only [ownReport, twoHostsSpace, register_ofRegisters hto.dev_lt hto.func_lt] at hheader
  split_ifs at hheader <;> revert hheader <;> decide

/-- With two host bridges nothing is reported at all. -/
theorem not_scanAllBus_covers_roots :
    getVendorId twoHostsSpace 0#8 0#8 0#8 ≠ 0xffff#16 ∧ Forest twoHostsSpace ∧
      (∀ root ∈ rootBuses twoHostsSpace, ∀ bus dev func, ¬ BridgeTo twoHostsSpace bus dev func root) ∧
      ¬ ∃ reports, ScansAll twoHostsSpace reports ∧
        ReportsExactly twoHostsSpace (RootCovered twoHostsSpace) reports := by
  have hpresent : getVendorId twoHostsSpace 0#8 0#8 0#8 ≠ 0xffff#16 := by decide +kernel
  refine ⟨hpresent, ⟨?_, ?_⟩, ?_, ?_⟩
  · intro _ _ _ _ hto
    exact absurd hto not_bridgeTo_twoHostsSpace
  · intro _ _ _ _ _ _ _ hto
    exact absurd hto not_bridgeTo_twoHostsSpace
  · intro _ _ _ _ _
    exact not_bridgeTo_twoHostsSpace
  · rintro ⟨reports, hall, hexactly⟩
    have hhost := (hexactly.covers 0#8 0#8 0#8).mpr (rootCovered_hostBridge hpresent)
    rw [scansAll_of_multiFunction hpresent (by decide +kernel) hall] at hhost
    exact List.not_mem_nil hhost

/-! ### Termination -/

/-- **Termination.** `ScanAllBus` ends exactly when no cycle of bridges can be reached
from a bus it starts a scan from. -/
theorem scanAllBus_terminates_iff (space : ConfigSpace) :
    (∃ reports, ScansAll space reports) ↔
      ∀ root ∈ scannedRoots space, ∀ bus, ReachableBus space root bus →
        ¬ Relation.TransGen (Bridges space) bus bus := by
  rw [exists_scansAll]
  constructor
  · intro hscans root hroot
    exact exists_scans_iff.mp (hscans root hroot)
  · intro hacyclic root hroot
    exact exists_scans_iff.mpr (hacyclic root hroot)

/-- A bridge whose bus numbers were never programmed leads back to bus 0, and the scan
does not end. -/
theorem not_scanAllBus_terminates : ¬ ∃ reports, ScansAll (bridgedSpace 0#8) reports := by
  intro hall
  have hroot : 0#8 ∈ scannedRoots (bridgedSpace 0#8) := by decide +kernel
  have hcycle : Bridges (bridgedSpace 0#8) 0#8 0#8 :=
    ⟨1#8, 0#8, bridgeTo_bridgedSpace.mpr ⟨rfl, rfl, rfl, rfl⟩⟩
  exact exists_scans_iff.mp (exists_scansAll.mp hall _ hroot) 0#8 .refl (.single hcycle)

end Bitnos.Pci
