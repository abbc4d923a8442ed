/-
# The listing of a machine

The first `lspci` scans the buses and prints a line about each report. It comes to its end
exactly when no cycle of bridges can be reached and no more than 32 routes lead to a
function. Where the bridges form a forest below a single host bridge, the lines are about
the functions of the machine, one about each of them and about nothing else.
-/

import Bitnos.Commands.Lspci

namespace Bitnos

open Graphics DebugConsole PartialRun Splitter Pci

/-! ### Filling the table -/

/-- The scan ends with as many reports as the table has entries, or fewer. -/
def Pci.FitsTable (space : ConfigSpace) : Prop :=
  (∀ root ∈ scannedRoots space, ∀ bus, ReachableBus space root bus →
    ¬ Relation.TransGen (Bridges space) bus bus) ∧ (routes space).encard ≤ 32

theorem Pci.fitsTable_iff {space : ConfigSpace} :
    FitsTable space ↔ ∃ reports, ScansAll space reports ∧ reports.length ≤ 32 := by
  constructor
  · rintro ⟨hacyclic, hfew⟩
    obtain ⟨reports, hall⟩ :=
      exists_scansAll.mpr fun root hroot => exists_scans_iff.mpr (hacyclic root hroot)
    rw [hall.encard_routes, Nat.cast_le_ofNat] at hfew
    exact ⟨reports, hall, hfew⟩
  · rintro ⟨reports, hall, hle⟩
    refine ⟨fun root hroot => exists_scans_iff.mp (exists_scansAll.mp ⟨reports, hall⟩ root hroot), ?_⟩
    rw [hall.encard_routes, Nat.cast_le_ofNat]
    exact hle

namespace DeviceTable

variable {table table' : DeviceTable} {space : ConfigSpace} {depth : ℕ}

/-- A table that has been filled holds what the scan has reported. -/
theorem held_of_scanIfEmpty (hzero : table.numPciDevices = 0)
    (hfill : table.scanIfEmpty space depth = .ok table') :
    scanAllBus space depth = some table'.held ∧ table'.held.length ≤ 32 := by
  cases hscan : scanAllBus space depth with
  | none =>
    rw [scanIfEmpty, if_pos hzero, hscan] at hfill
    cases hfill
  | some reports =>
    rw [scanIfEmpty_of_zero hscan hzero] at hfill
    by_cases hroom : table.numPciDevices + reports.length ≤ 32
    · obtain ⟨filled, hall, -, hheld⟩ := recordAll_of_le hroom
      obtain rfl := Except.ok.inj (hall.symm.trans hfill)
      rw [hheld, held_of_zero hzero, List.nil_append]
      exact ⟨rfl, by omega⟩
    · rw [recordAll_of_lt (by omega) (by omega)] at hfill
      cases hfill

theorem exists_scanIfEmpty_iff (hzero : table.numPciDevices = 0) :
    (∃ depth table', table.scanIfEmpty space depth = .ok table') ↔ FitsTable space := by
  rw [fitsTable_iff]
  constructor
  · rintro ⟨depth, table', hfill⟩
    obtain ⟨hscan, hle⟩ := held_of_scanIfEmpty hzero hfill
    exact ⟨table'.held, ⟨depth, hscan⟩, hle⟩
  · rintro ⟨reports, ⟨depth, hscan⟩, hle⟩
    obtain ⟨table', hfill, -⟩ := @recordAll_of_le table reports (by omega)
    exact ⟨depth, table', (scanIfEmpty_of_zero hscan hzero).trans hfill⟩

end DeviceTable

/-- **The machine on the screen.** As long as the table is empty, `lspci` comes to its end exactly when
no cycle of bridges can be reached and no more than 32 routes lead to a function. It then prints a line
for every route; and if the bridges form a forest below a single host bridge, these are lines about the
functions behind that bridge, one about each of them, with what its registers say. -/
theorem Terminal.typed_lspci_lists {σ : Type*} {hw : Hardware} {stack : PcieCapability} {fuel : ℕ}
    {others : Command → List (List (BitVec 8)) → PciMachine × σ → Option (List (BitVec 8) × σ)}
    {garbage : ℕ → BitVec 8} {font : Font} {size : RectSize} {t : Terminal (PciMachine × σ)}
    (hsound : t.Sound font size) (hempty : t.shell.cur = 0)
    (hzero : t.env.1.table.numPciDevices = 0) :
    let space := t.env.1.space
    let typed (depth : ℕ) :=
      run (putChar font (execute (machineCommands hw stack fuel depth others) garbage)) t
        (ascii "lspci" ++ [Ascii.newline])
    ((∃ depth u, typed depth = some u) ↔ FitsTable space) ∧
      ∀ depth u, typed depth = some u → ∃ table : DeviceTable,
        u.printed = t.printed ++ ascii "lspci" ++ Ascii.newline :: table.held.flatMap deviceLine ++
          kDefaultPrompt ∧
        u.env = (⟨space, table⟩, t.env.2) ∧ (routes space).encard = table.held.length ∧
        (Forest space → isSingleFunctionDevice (getHeaderType space 0#8 0#8 0#8) →
          ReportsExactly space (Behind space 0#8) table.held) := by
  intro space typed
  constructor
  · rw [← DeviceTable.exists_scanIfEmpty_iff hzero]
    refine exists_congr fun depth =>
      (Terminal.exists_run_name_iff garbage font hsound.prompt hempty .lspci).trans ?_
    simp only [answerTo_listing]
    constructor
    · rintro ⟨out, table, hfill, -⟩
      exact ⟨table, hfill⟩
    · rintro ⟨table, hfill⟩
      exact ⟨_, table, hfill, rfl⟩
  · intro depth u htyped
    obtain ⟨out, hout, hprinted, -, henv⟩ :=
      Terminal.answer_of_run_name garbage font hsound.prompt hempty .lspci htyped
    obtain ⟨table, hfill, rfl⟩ := answerTo_listing.mp hout
    obtain ⟨hscan, -⟩ := DeviceTable.held_of_scanIfEmpty hzero hfill
    have hall : ScansAll space table.held := ⟨depth, hscan⟩
    refine ⟨table, hprinted, henv, hall.encard_routes, fun hforest hsingle => ?_⟩
    -- whatever depth it takes, a scan that ends makes the same reports
    obtain ⟨reports, hreports, hexactly⟩ := hforest.scansAll_of_singleFunction hsingle
    rwa [hall.unique hreports]

/-- The three functions of the bridged machine, right after the boot. -/
theorem Terminal.typed_lspci_lists_bridgedSpace :
    let stack : PcieCapability := ⟨⟨0#8, 0#8⟩, 0#16, 0#32, 0#16, 0#16, 0#32, 0#16, 0#16, 0#32, 0#16,
      0#16, 0#16, 0#32⟩
    let commands : Commands (PciMachine × Unit) :=
      machineCommands (.ofWired fun _ => 0#32) stack 1 3 fun _ _ _ => none
    let start := boot (fun _ => 0) ⟨80, 25⟩ (Vector.replicate kLineLength 0)
      ((⟨bridgedSpace 1#8, .init⟩, ()) : PciMachine × Unit)
    ∃ u, run (Terminal.putChar (fun _ => 0) (execute commands fun _ => 0)) start
        (ascii "lspci" ++ [Ascii.newline]) = some u ∧
      u.env.1.table.held.length = 3 ∧
      ReportsExactly (bridgedSpace 1#8) (Behind (bridgedSpace 1#8) 0#8) u.env.1.table.held := by
  intro stack commands start
  have hcheck : (run (Terminal.putChar (fun _ => 0) (execute commands fun _ => 0)) start
      (ascii "lspci" ++ [Ascii.newline])).map (fun u => u.env.1.table.held.length) = some 3 := by
    decide +kernel
  obtain ⟨u, hrun, hlength⟩ := Option.map_eq_some_iff.mp hcheck
  have hsound : start.Sound (fun _ => 0) ⟨80, 25⟩ := Sound.boot _ _ _
  obtain ⟨table, -, henv, -, hexactly⟩ := (Terminal.typed_lspci_lists hsound rfl rfl).2 3 u hrun
  refine ⟨u, hrun, hlength, ?_⟩
  rw [henv]
  exact hexactly forest_bridgedSpace (by decide +kernel)

end Bitnos
