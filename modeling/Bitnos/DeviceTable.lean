/-
# The table of PCI devices

The `lspci` and `xhci` commands fill one table of 32 entries from the reports of
`ScanAllBus`, the first time either runs, and again as long as the table is empty.
Neither copy of the callback looks at the size of the table.

No command writes a configuration register while the table is empty, so every scan
sees the same configuration space.
-/

import Bitnos.Pci.RootBuses

namespace Bitnos

open Pci

/-! ### The table and its two writers -/

/-- `pci_devices` and `num_pci_devices`. -/
structure DeviceTable where
  pciDevices : Vector ScanCallbackParam 32
  numPciDevices : ℕ

/-- What goes wrong when a command fills the table: the scan nests deeper than the
stack allows, or a report is written past the end of the array. -/
inductive Fault
  | stack
  | outOfBounds

namespace DeviceTable

/-- The table when the kernel starts: static storage, all zero. -/
def init : DeviceTable where
  pciDevices := .replicate 32 ⟨0, 0, 0, 0, 0, 0, 0, 0, 0⟩
  numPciDevices := 0

/-- `pci_devices[num_pci_devices++] = param`. -/
def record (table : DeviceTable) (param : ScanCallbackParam) : Except Fault DeviceTable :=
  if h : table.numPciDevices < 32 then
    .ok
      { pciDevices := table.pciDevices.set table.numPciDevices param h
        numPciDevices := table.numPciDevices + 1 }
  else
    .error .outOfBounds

/-- Hand the reports of a scan to the callback, in order. -/
def recordAll (table : DeviceTable) (reports : List ScanCallbackParam) : Except Fault DeviceTable :=
  reports.foldlM record table

/-- Fill the table with a scan of the given nesting if it is empty. -/
def scanIfEmpty (space : ConfigSpace) (depth : ℕ) (table : DeviceTable) :
    Except Fault DeviceTable :=
  if table.numPciDevices = 0 then
    match scanAllBus space depth with
    | none => .error .stack
    | some reports => table.recordAll reports
  else
    .ok table

/-- What `Lspci` does to the table. -/
def lspci : ConfigSpace → ℕ → DeviceTable → Except Fault DeviceTable := scanIfEmpty

/-- What `Xhci` does to the table. -/
def xhci : ConfigSpace → ℕ → DeviceTable → Except Fault DeviceTable := scanIfEmpty

/-- The entries in use. -/
def held (table : DeviceTable) : List ScanCallbackParam :=
  table.pciDevices.toList.take table.numPciDevices

end DeviceTable

inductive DeviceCommand
  | lspci
  | xhci

def DeviceCommand.run (space : ConfigSpace) (depth : ℕ) (table : DeviceTable) :
    DeviceCommand → Except Fault DeviceTable
  | .lspci => table.lspci space depth
  | .xhci => table.xhci space depth

/-- Run a sequence of commands from the start of the kernel. -/
def runCommands (space : ConfigSpace) (depth : ℕ) (cmds : List DeviceCommand) :
    Except Fault DeviceTable :=
  cmds.foldlM (DeviceCommand.run space depth) .init

/-! ### Filling the table -/

namespace DeviceTable

variable {table : DeviceTable} {param : ScanCallbackParam} {reports : List ScanCallbackParam}
  {space : ConfigSpace} {depth : ℕ}

theorem record_of_lt (table : DeviceTable) (param : ScanCallbackParam)
    (hlt : table.numPciDevices < 32) :
    ∃ table', table.record param = .ok table' ∧
      table'.numPciDevices = table.numPciDevices + 1 ∧ table'.held = table.held ++ [param] := by
  refine ⟨_, dif_pos hlt, rfl, ?_⟩
  have hlength : table.numPciDevices < table.pciDevices.toList.length := by simpa
  simp only [held, Vector.toList_set]
  rw [List.take_add_one, List.take_set_of_le (Nat.le_refl _), List.getElem?_set_self hlength]
  rfl

theorem record_of_full (hfull : table.numPciDevices = 32) :
    table.record param = .error .outOfBounds :=
  dif_neg (by omega)

/-- Reports that fit are appended in order. -/
theorem recordAll_of_le (hle : table.numPciDevices + reports.length ≤ 32) :
    ∃ table', table.recordAll reports = .ok table' ∧
      table'.numPciDevices = table.numPciDevices + reports.length ∧
      table'.held = table.held ++ reports := by
  induction reports generalizing table with
  | nil => exact ⟨table, rfl, rfl, (List.append_nil _).symm⟩
  | cons param reports ih =>
    rw [List.length_cons] at hle
    obtain ⟨table₁, hrecord, hnum₁, hheld₁⟩ := table.record_of_lt param (by omega)
    have hle₁ : table₁.numPciDevices + reports.length ≤ 32 := by omega
    obtain ⟨table₂, hrest, hnum₂, hheld₂⟩ := ih hle₁
    refine ⟨table₂, ?_, ?_, ?_⟩
    · rw [recordAll, List.foldlM_cons, hrecord]
      exact hrest
    · rw [hnum₂, hnum₁, List.length_cons]
      omega
    · rw [hheld₂, hheld₁, List.append_assoc, List.singleton_append]

/-- Reports that do not fit are written past the end. -/
theorem recordAll_of_lt (hnum : table.numPciDevices ≤ 32)
    (hlt : 32 < table.numPciDevices + reports.length) :
    table.recordAll reports = .error .outOfBounds := by
  induction reports generalizing table with
  | nil =>
    rw [List.length_nil] at hlt
    omega
  | cons param reports ih =>
    rw [List.length_cons] at hlt
    by_cases hfull : table.numPciDevices = 32
    -- the first report that finds the table full is the one written outside
    · rw [recordAll, List.foldlM_cons, record_of_full hfull]
      rfl
    · obtain ⟨table₁, hrecord, hnum₁, -⟩ := table.record_of_lt param (by omega)
      have hle₁ : table₁.numPciDevices ≤ 32 := by omega
      have hlt₁ : 32 < table₁.numPciDevices + reports.length := by omega
      rw [recordAll, List.foldlM_cons, hrecord]
      exact ih hle₁ hlt₁

theorem scanIfEmpty_of_zero (hscan : scanAllBus space depth = some reports)
    (hzero : table.numPciDevices = 0) :
    table.scanIfEmpty space depth = table.recordAll reports := by
  rw [scanIfEmpty, if_pos hzero, hscan]

theorem held_of_zero (hzero : table.numPciDevices = 0) : table.held = [] := by
  rw [held, hzero, List.take_zero]

/-! ### Sequences of commands -/

theorem run_eq_scanIfEmpty (cmd : DeviceCommand) :
    cmd.run space depth table = table.scanIfEmpty space depth := by
  cases cmd <;> rfl

/-- The table is empty or holds what the scan reports. -/
def Filled (reports : List ScanCallbackParam) (table : DeviceTable) : Prop :=
  table.numPciDevices = 0 ∨ table.numPciDevices = reports.length ∧ table.held = reports

theorem Filled.held_prefix (hfilled : table.Filled reports) : table.held <+: reports := by
  rcases hfilled with hzero | ⟨-, hheld⟩
  · rw [held_of_zero hzero]
    exact List.nil_prefix
  · rw [hheld]

section Run

variable (hscan : scanAllBus space depth = some reports)
include hscan

theorem Filled.scanIfEmpty (hle : reports.length ≤ 32) (hfilled : table.Filled reports) :
    ∃ table', table.scanIfEmpty space depth = .ok table' ∧ table'.Filled reports := by
  by_cases hzero : table.numPciDevices = 0
  · have hroom : table.numPciDevices + reports.length ≤ 32 := by omega
    obtain ⟨table', hall, hnum, hheld⟩ := recordAll_of_le hroom
    refine ⟨table', (scanIfEmpty_of_zero hscan hzero).trans hall, .inr ⟨?_, ?_⟩⟩
    · rw [hnum, hzero, Nat.zero_add]
    · rw [hheld, held_of_zero hzero, List.nil_append]
  -- a table with entries is left as it is
  · exact ⟨table, if_neg hzero, hfilled⟩

theorem Filled.run (hle : reports.length ≤ 32) (hfilled : table.Filled reports)
    (cmds : List DeviceCommand) :
    ∃ table', cmds.foldlM (DeviceCommand.run space depth) table = .ok table' ∧
      table'.Filled reports := by
  induction cmds generalizing table with
  | nil => exact ⟨table, rfl, hfilled⟩
  | cons cmd cmds ih =>
    obtain ⟨table₁, hstep, hfilled₁⟩ := hfilled.scanIfEmpty hscan hle
    obtain ⟨table₂, hrun, hfilled₂⟩ := ih hfilled₁
    refine ⟨table₂, ?_, hfilled₂⟩
    rw [List.foldlM_cons, run_eq_scanIfEmpty, hstep]
    exact hrun

end Run

end DeviceTable

/-- When the scan makes too many reports the first command already leaves the table. -/
theorem runCommands_cons_of_lt {space : ConfigSpace} {reports : List ScanCallbackParam}
    (hscan : ScansAll space reports) (hlt : 32 < reports.length) (depth : ℕ) (cmd : DeviceCommand)
    (cmds : List DeviceCommand) (table : DeviceTable) :
    runCommands space depth (cmd :: cmds) ≠ .ok table := by
  intro hrun
  rw [runCommands, List.foldlM_cons, DeviceTable.run_eq_scanIfEmpty] at hrun
  have hzero : DeviceTable.init.numPciDevices = 0 := rfl
  cases hall : scanAllBus space depth with
  | none =>
    rw [DeviceTable.scanIfEmpty, if_pos hzero, hall] at hrun
    cases hrun
  | some reports' =>
    -- a scan that ends makes the same reports at every depth
    obtain rfl := hscan.unique ⟨depth, hall⟩
    rw [DeviceTable.scanIfEmpty_of_zero hall hzero,
      DeviceTable.recordAll_of_lt (by omega) (by omega)] at hrun
    cases hrun

/-- The commands are safe: no write leaves the table, and it holds a beginning of the
reports, in order. -/
def TableSafe (space : ConfigSpace) (reports : List ScanCallbackParam)
    (cmds : List DeviceCommand) : Prop :=
  ∃ depth table, runCommands space depth cmds = .ok table ∧ table.numPciDevices ≤ 32 ∧
    table.held <+: reports

/-- **The bound of the device table.** Commands keep within the table exactly when at most
32 routes lead from the buses the scan starts from to a function that is present. -/
theorem tableSafe_iff {space : ConfigSpace} {reports : List ScanCallbackParam}
    (hscan : ScansAll space reports) (cmds : List DeviceCommand) :
    TableSafe space reports cmds ↔ cmds = [] ∨ (routes space).encard ≤ 32 := by
  rw [hscan.encard_routes, Nat.cast_le_ofNat]
  constructor
  · rintro ⟨depth, table, hrun, -, -⟩
    cases cmds with
    | nil => exact .inl rfl
    | cons cmd cmds =>
      by_cases hle : reports.length ≤ 32
      · exact .inr hle
      · exact absurd hrun (runCommands_cons_of_lt hscan (Nat.lt_of_not_le hle) depth cmd cmds table)
  · rintro (rfl | hle)
    · exact ⟨0, .init, rfl, by decide, List.nil_prefix⟩
    · obtain ⟨depth, hdepth⟩ := hscan
      obtain ⟨table, hrun, hfilled⟩ :=
        DeviceTable.Filled.run hdepth hle (.inl (rfl : DeviceTable.init.numPciDevices = 0)) cmds
      refine ⟨depth, table, hrun, ?_, hfilled.held_prefix⟩
      rcases hfilled with hzero | ⟨hnum, -⟩
      · omega
      · omega

/-- Everything on the bridged machine fits into the table. -/
theorem tableSafe_bridgedSpace : ∃ reports, ScansAll (bridgedSpace 1#8) reports ∧
    reports.length = 3 ∧ TableSafe (bridgedSpace 1#8) reports [.lspci, .xhci, .lspci] := by
  have hscan : (scanAllBus (bridgedSpace 1#8) 2).map List.length = some 3 := by decide +kernel
  obtain ⟨reports, hall, hlength⟩ := Option.map_eq_some_iff.mp hscan
  have hfew : (routes (bridgedSpace 1#8)).encard ≤ 32 := by
    rw [ScansAll.encard_routes ⟨2, hall⟩, Nat.cast_le_ofNat]
    omega
  exact ⟨reports, ⟨2, hall⟩, hlength, (tableSafe_iff ⟨2, hall⟩ _).mpr (.inr hfew)⟩

/-- A bus with a single-function host bridge and 31 devices of two functions each. -/
def crowdedSpace : ConfigSpace := .ofRegisters fun bus dev func addr =>
  if bus = 0#8 ∧ dev = 0#8 ∧ func = 0#8 then
    if addr = 0x00#8 then 0x12378086#32 else if addr = 0x08#8 then 0x06000002#32 else 0#32
  else if bus = 0#8 ∧ func.toNat < 2 then
    if addr = 0x00#8 then 0x10001af4#32 else if addr = 0x08#8 then 0x02000000#32
    else if addr = 0x0c#8 then 0x00800000#32 else 0#32
  else 0xffffffff#32

/-- One `lspci` on the crowded bus writes past the end of the table. -/
theorem not_tableSafe_crowdedSpace : ∃ reports, ScansAll crowdedSpace reports ∧
    ¬ TableSafe crowdedSpace reports [.lspci] := by
  have hscan : (scanAllBus crowdedSpace 1).map List.length = some 63 := by decide +kernel
  obtain ⟨reports, hall, hlength⟩ := Option.map_eq_some_iff.mp hscan
  refine ⟨reports, ⟨1, hall⟩, ?_⟩
  rintro ⟨depth, table, hrun, -, -⟩
  exact runCommands_cons_of_lt ⟨1, hall⟩ (by omega) depth _ _ table hrun

end Bitnos
