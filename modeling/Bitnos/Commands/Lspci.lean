/-
# The command `lspci`

Without an argument `lspci` lists the device table; with one it looks the device up and
goes through its registers. A line of the listing begins with the location of the device,
written the way the argument is read. Two entries of the table may have the same location,
if several routes lead to a function, but then they are the same in every field.

The probe of the first BAR is the only part that writes registers.
-/

import Bitnos.Commands.Execute
import Bitnos.DeviceTable
import Bitnos.Pci.BarProbe
import Bitnos.Pci.PcieCapability

namespace Bitnos

open Graphics DebugConsole PartialRun Splitter Pci

/-! ### Texts -/

/-- `%02x:%02x.%02x` -/
def locationText (bus dev func : BitVec 8) : List (BitVec 8) :=
  hexText 2 bus.toNat ++ ascii ":" ++ hexText 2 dev.toNat ++ ascii "." ++ hexText 2 func.toNat

/-- The line of a device in the listing. -/
def deviceLine (param : ScanCallbackParam) : List (BitVec 8) :=
  locationText param.bus param.dev param.func ++
    ascii " DEVICE " ++ hexText 4 param.deviceId.toNat ++ ascii ", VENDOR " ++
    hexText 4 param.vendorId.toNat ++ ascii " CLASS " ++ hexText 2 param.baseClass.toNat ++ ascii "." ++
    hexText 2 param.subClass.toNat ++ ascii "." ++ hexText 2 param.interface.toNat ++ ascii " HT " ++
    hexText 2 param.headerType.toNat ++ [Ascii.newline]

def statusCommandLine (statusCommand : BitVec 32) : List (BitVec 8) :=
  ascii "status " ++ hexText 4 ((statusCommand >>> 16) &&& 0xffff#32).toNat ++ ascii ", command " ++
    hexText 4 (statusCommand &&& 0xffff#32).toNat ++ [Ascii.newline]

def barLine (i : ℕ) (bar : BitVec 32) : List (BitVec 8) :=
  ascii "bar " ++ decText 1 i ++ ascii ": " ++ hexText 8 bar.toNat ++ [Ascii.newline]

def barMapSizeLine (size : BitVec 64) : List (BitVec 8) :=
  ascii "bar map size: " ++ hexText 1 size.toNat ++ [Ascii.newline]

/-- What is printed about a capability. -/
def capabilityText : CapabilityLine → List (BitVec 8)
  | .pcie pcieCap deviceCap deviceControl deviceStatus =>
    ascii "Cap ID 0x10 (PCI Express)" ++ [Ascii.newline] ++
      ascii " PCIeCap: " ++ hexText 4 pcieCap.toNat ++ ascii ", DevCap: " ++ hexText 8 deviceCap.toNat ++
      ascii ", DevCon: " ++ hexText 4 deviceControl.toNat ++ ascii ", DevStat: " ++
      hexText 4 deviceStatus.toNat ++ [Ascii.newline]
  | .other capId => ascii "Cap ID " ++ hexText 2 capId.toNat ++ [Ascii.newline]

/-- `sscanf` with `%02x:%02x.%02x`, when all three numbers are assigned. -/
def scanSpecifier (s : List (BitVec 8)) : Option (BitVec 32 × BitVec 32 × BitVec 32) := do
  let (bus, s) ← scanHex 2 s
  let s ← scanLiteral 0x3a s
  let (dev, s) ← scanHex 2 s
  let s ← scanLiteral 0x2e s
  let (func, _) ← scanHex 2 s
  return (bus, dev, func)

/-! ### The command -/

/-- The first device in the table with the given numbers. -/
def DeviceTable.find? (table : DeviceTable) (bus dev func : BitVec 32) : Option ScanCallbackParam :=
  table.held.find? fun param =>
    param.bus.setWidth 32 = bus ∧ param.dev.setWidth 32 = dev ∧ param.func.setWidth 32 = func

/-- `Device` as it is constructed for an entry of the table. -/
def Pci.ScanCallbackParam.device (param : ScanCallbackParam) : Device :=
  ⟨param.bus, param.dev, param.func, param.headerType⟩

/-- A round of the loop over the BAR registers. -/
def showBar (device : Device) (i : ℕ) : ConfigM (List (BitVec 8)) := do
  let bar ← device.readConfReg (0x10#8 + 4#8 * BitVec.ofNat 8 i)
  return barLine i bar

section

variable (hw : Hardware) (stack : PcieCapability) (fuel : ℕ)

/-- What is printed about one device. The loop over the capabilities need not end. -/
def showDevice (param : ScanCallbackParam) : ConfigM (Option (List (BitVec 8))) := do
  let statusCommand ← param.device.readConfReg 0x04#8
  let bars ← (List.range 6).mapM (showBar param.device)
  let size ← calcBarMapSize hw param.device 0#32
  let visits ← lspciCapabilities stack param.device fuel
  return visits.map fun visits =>
    deviceLine param ++ statusCommandLine statusCommand ++ bars.flatten ++ barMapSizeLine size.value ++
      visits.flatMap (capabilityText ·.2)

/-- The part of the machine `lspci` works on. -/
structure PciMachine where
  space : ConfigSpace
  table : DeviceTable

/-- `Lspci` -/
def PciMachine.lspci (depth : ℕ) (argv : List (List (BitVec 8))) (m : PciMachine) :
    Option (List (BitVec 8) × PciMachine) :=
  match m.table.lspci m.space depth with
  | .error _ => none
  | .ok table =>
    match argv with
    | [_] => some (table.held.flatMap deviceLine, { m with table })
    | [_, specifier] =>
      match scanSpecifier specifier with
      | none =>
        some (ascii "Invalid device specifier: " ++ specifier ++ [Ascii.newline], { m with table })
      | some (bus, dev, func) =>
        match table.find? bus dev func with
        | none => some (ascii "No such device: " ++ specifier ++ [Ascii.newline], { m with table })
        | some param =>
          let out := (showDevice hw stack fuel param).run ⟨⟨m.space, 0#32⟩, []⟩
          out.1.map fun text => (text, ⟨out.2.space, table⟩)
    | _ => some ([], { m with table })

end

/-! ### Reading the registers -/

section Registers

variable {hw : Hardware} {stack : PcieCapability} {fuel : ℕ} {device : Device} {s t : ConfigState}
  {param : ScanCallbackParam}

theorem run_showBars (indices : List ℕ) : ∃ a, (indices.mapM (showBar device)).run s =
    (indices.map fun i => barLine i (s.space (device.address (0x10#8 + 4#8 * BitVec.ofNat 8 i))),
      s.latch a) := by
  induction indices generalizing s with
  | nil => exact ⟨s.ports.address, rfl⟩
  | cons i indices ih =>
    have hfirst : (showBar device i).run s = (_, s.latch (device.address _)) := rfl
    obtain ⟨a, hrest⟩ := @ih (s.latch (device.address (0x10#8 + 4#8 * BitVec.ofNat 8 i)))
    refine ⟨a, ?_⟩
    rw [List.mapM_cons, run_bind_of_run hfirst]
    exact run_bind_of_run hrest _

theorem space_calcBarMapSize (hbars : BarsWired hw device) (barIndex : BitVec 32) :
    ((calcBarMapSize hw device barIndex).run s).2.space = s.space := by
  obtain herror | ⟨hi, hbar⟩ | ⟨hi, hbar⟩ := device.barIn_cases s.space barIndex
  · obtain ⟨a, hrun⟩ := run_calcBarMapSize_of_error hw herror
    rw [hrun, ConfigState.latch_space]
  · exact space_calcBarMapSize32 hi hbar hbars
  · exact space_calcBarMapSize64 hi hbar hbars

/-- The size found depends on the registers alone. -/
theorem calcBarMapSize_congr (hspace : t.space = s.space) (barIndex : BitVec 32) :
    ((calcBarMapSize hw device barIndex).run t).1 =
      ((calcBarMapSize hw device barIndex).run s).1 := by
  obtain herror | ⟨hi, hbar⟩ | ⟨hi, hbar⟩ := device.barIn_cases s.space barIndex
  · obtain ⟨a, hrun⟩ := run_calcBarMapSize_of_error hw herror
    obtain ⟨b, hrun'⟩ := @run_calcBarMapSize_of_error hw _ _ t (by rwa [hspace])
    rw [hrun, hrun', hspace]
  · obtain ⟨_, hrun, -⟩ := run_calcBarMapSize32 hw hi hbar
    obtain ⟨_, hrun', -⟩ := @run_calcBarMapSize32 hw _ _ t hi (by rwa [hspace])
    rw [hrun, hrun', hspace]
  · obtain ⟨_, hrun, -⟩ := run_calcBarMapSize64 hw hi hbar
    obtain ⟨_, hrun', -⟩ := @run_calcBarMapSize64 hw _ _ t hi (by rwa [hspace])
    rw [hrun, hrun', hspace]

/-- The loop over the capabilities only reads. -/
theorem readsWithin_lspciCapabilities :
    ReadsWithin (fun _ => True) (lspciCapabilities stack device fuel) := by
  have hread : ∀ addr, ReadsWithin (fun _ => True) (device.readConfReg addr) :=
    fun _ => .readConfReg trivial
  have hpcie : ∀ addr,
      ReadsWithin (fun _ => True) (readPcieCapabilityStructure stack device addr) := by
    intro addr
    refine .bind (hread _) fun _ => .bind (hread _) fun _ => .bind (hread _) fun _ => ?_
    refine .bind (hread _) fun _ => .bind (hread _) fun _ => .bind (hread _) fun _ => ?_
    exact .bind (hread _) fun _ => .bind (hread _) fun _ => .bind (hread _) fun _ => .pure _
  have hloop : ∀ fuel capPtr,
      ReadsWithin (fun _ => True) (capabilityLoop stack device fuel capPtr) := by
    intro fuel
    induction fuel with
    | zero => exact fun _ => .pure none
    | succ fuel ih =>
      intro capPtr
      rw [capabilityLoop]
      split_ifs with hzero
      · exact .pure _
      · refine .bind (.bind (.bind (hread capPtr) fun _ => .pure _) fun cap => ?_)
          fun _ => .bind (ih _) fun _ => .pure _
        split_ifs
        · exact .bind (hpcie capPtr) fun _ => .pure _
        · exact .pure _
  exact .bind (.bind (hread _) fun _ => .pure _) fun capPtr => hloop fuel capPtr

/-- What is printed about the registers of a device. -/
def registerText (hw : Hardware) (space : ConfigSpace) (device : Device)
    (visits : List (BitVec 8 × CapabilityLine)) : List (BitVec 8) :=
  statusCommandLine (space (device.address 0x04#8)) ++
    ((List.range 6).flatMap fun i =>
      barLine i (space (device.address (0x10#8 + 4#8 * BitVec.ofNat 8 i)))) ++
    barMapSizeLine ((calcBarMapSize hw device 0#32).run ⟨⟨space, 0#32⟩, []⟩).1.value ++
    visits.flatMap (capabilityText ·.2)

/-- Showing a device prints what its registers hold, and leaves them as they are. -/
theorem run_showDevice (hbars : BarsWired hw param.device) {space : ConfigSpace}
    {visits : List (BitVec 8 × CapabilityLine)}
    (hvisits : ((lspciCapabilities stack param.device fuel).run ⟨⟨space, 0#32⟩, []⟩).1 =
      some visits) :
    ∃ t, (showDevice hw stack fuel param).run ⟨⟨space, 0#32⟩, []⟩ =
      (some (deviceLine param ++ registerText hw space param.device visits), t) ∧
        t.space = space := by
  have hstatus : (param.device.readConfReg 0x04#8).run ⟨⟨space, 0#32⟩, []⟩ = _ :=
    param.device.run_readConfReg _ _
  obtain ⟨a, hbarsRun⟩ := @run_showBars param.device
    (ConfigState.latch ⟨⟨space, 0#32⟩, []⟩ (param.device.address 0x04#8)) (List.range 6)
  obtain ⟨size, u, hprobe⟩ : ∃ size u, (calcBarMapSize hw param.device 0#32).run
      ((ConfigState.latch ⟨⟨space, 0#32⟩, []⟩ (param.device.address 0x04#8)).latch a) = (size, u) :=
    ⟨_, _, rfl⟩
  have hsize := @calcBarMapSize_congr hw param.device ⟨⟨space, 0#32⟩, []⟩
    ((ConfigState.latch ⟨⟨space, 0#32⟩, []⟩ (param.device.address 0x04#8)).latch a) rfl 0#32
  have hrestored := @space_calcBarMapSize hw param.device
    ((ConfigState.latch ⟨⟨space, 0#32⟩, []⟩ (param.device.address 0x04#8)).latch a) hbars 0#32
  rw [hprobe] at hsize hrestored
  -- the loop over the capabilities finds the registers restored
  have hreads := @readsWithin_lspciCapabilities stack fuel param.device
  have hlist := (hreads ⟨⟨space, 0#32⟩, []⟩).2 u fun b _ => congrFun hrestored b
  obtain ⟨found, t, hloop⟩ : ∃ found t, (lspciCapabilities stack param.device fuel).run u =
      (found, t) :=
    ⟨_, _, rfl⟩
  rw [hvisits, hloop] at hlist
  have hkept := (hreads u).1
  rw [hloop] at hkept
  refine ⟨t, ?_, hkept.trans hrestored⟩
  rw [showDevice, run_bind_of_run hstatus, run_bind_of_run hbarsRun, run_bind_of_run hprobe,
    run_bind_of_run hloop, show found = some visits from hlist, show size = _ from hsize]
  simp only [Option.map_some, registerText, List.append_assoc]
  rfl

end Registers

/-! ### Looking a device up -/

section Locations

variable {bus dev func : BitVec 8}

theorem scanHex_byte (x : BitVec 8) (rest : List (BitVec 8)) :
    scanHex 2 (hexText 2 x.toNat ++ rest) = some (x.setWidth 32, rest) := by
  have hscan := @scanHex_hexText 2 x.toNat (by omega) x.isLt rest
  rwa [BitVec.ofNat_toNat] at hscan

/-- The numbers of a location are read back. -/
theorem scanSpecifier_locationText : scanSpecifier (locationText bus dev func) =
    some (bus.setWidth 32, dev.setWidth 32, func.setWidth 32) := by
  have hlast := scanHex_byte func []
  rw [List.append_nil] at hlast
  rw [scanSpecifier, locationText]
  simp only [List.append_assoc, scanHex_byte, Option.bind_eq_bind, Option.bind_some]
  change (scanHex 2 (hexText 2 dev.toNat ++ (ascii "." ++ hexText 2 func.toNat))).bind _ = _
  rw [scanHex_byte, Option.bind_some]
  change (scanHex 2 (hexText 2 func.toNat)).bind _ = _
  rw [hlast]
  rfl

theorem length_locationText : (locationText bus dev func).length = 8 := by
  have hbyte (x : BitVec 8) : (hexText 2 x.toNat).length = 2 := length_hexText (by omega) x.isLt
  simp only [locationText, List.length_append, hbyte]
  rfl

/-- A location is one word of plain characters. -/
theorem plain_of_mem_locationText {ch : BitVec 8} (hch : ch ∈ locationText bus dev func) :
    Plain ch ∧ ch ≠ Ascii.space := by
  have hdigit : ∀ d : Fin 16, Plain (hexChar d) ∧ hexChar d ≠ Ascii.space := by decide
  have hcolon : ∀ ch ∈ ascii ":", Plain ch ∧ ch ≠ Ascii.space := by decide
  have hdot : ∀ ch ∈ ascii ".", Plain ch ∧ ch ≠ Ascii.space := by decide
  have hbyte (x : BitVec 8) (h : ch ∈ hexText 2 x.toNat) : Plain ch ∧ ch ≠ Ascii.space := by
    obtain ⟨d, rfl⟩ := exists_of_mem_hexText h
    exact hdigit d
  simp only [locationText, List.mem_append] at hch
  rcases hch with (((hbus | hch) | hdev) | hch) | hfunc
  · exact hbyte bus hbus
  · exact hcolon ch hch
  · exact hbyte dev hdev
  · exact hdot ch hch
  · exact hbyte func hfunc

theorem argsOf_locationText : argsOf (locationText bus dev func) = [locationText bus dev func] := by
  refine argsOf_word (fun ch hch => ?_) ?_
  · exact beq_eq_false_iff_ne.mpr (plain_of_mem_locationText hch).2
  · rw [← List.length_pos_iff, length_locationText]
    omega

end Locations

/-- A line of the listing begins with the location. -/
theorem take_deviceLine {param : ScanCallbackParam} :
    (deviceLine param).take 8 = locationText param.bus param.dev param.func := by
  simp only [deviceLine, List.append_assoc]
  exact List.take_left' length_locationText

namespace DeviceTable

variable {table table' : DeviceTable} {param : ScanCallbackParam} {space : ConfigSpace} {depth : ℕ}

/-- Entries with the same location are the same. -/
def Consistent (table : DeviceTable) : Prop :=
  ∀ p ∈ table.held, ∀ q ∈ table.held, p.location = q.location → p = q

/-- The first entry with a location is as good as any other. -/
theorem Consistent.find? (h : table.Consistent) (hmem : param ∈ table.held) :
    table.find? (param.bus.setWidth 32) (param.dev.setWidth 32) (param.func.setWidth 32) =
      some param := by
  -- the numbers are compared as `unsigned int`, but come from bytes
  have hwiden {x y : BitVec 8} (hxy : x.setWidth 32 = y.setWidth 32) : x = y := by
    have hnat := congrArg BitVec.toNat hxy
    simp only [BitVec.toNat_setWidth] at hnat
    exact BitVec.eq_of_toNat_eq (by omega)
  obtain ⟨q, hq⟩ : ∃ q, table.find? (param.bus.setWidth 32) (param.dev.setWidth 32)
      (param.func.setWidth 32) = some q :=
    Option.isSome_iff_exists.mp (List.find?_isSome.mpr ⟨param, hmem, by simp⟩)
  obtain ⟨hbus, hdev, hfunc⟩ : _ ∧ _ ∧ _ := by simpa using List.find?_some hq
  have hlocation : q.location = param.location := by
    rw [ScanCallbackParam.location, hwiden hbus, hwiden hdev, hwiden hfunc]
    rfl
  rw [hq, h q (List.mem_of_find?_eq_some hq) param hmem hlocation]

/-- Whatever a scan reports is read from the registers. -/
theorem eq_ownReport {reports : List ScanCallbackParam}
    (hscan : scanAllBus space depth = some reports)
    (hmem : param ∈ reports) : param = ownReport space param.bus param.dev param.func := by
  rw [scanAllBus_eq, Walk.collect_eq_some_iff] at hscan
  obtain ⟨hroots, rfl⟩ := hscan
  -- the report was made while some root bus was scanned
  obtain ⟨root, hroot, hmem⟩ := List.mem_flatMap.mp hmem
  obtain ⟨found, hfound⟩ := Option.isSome_iff_exists.mp (hroots root hroot)
  rw [hfound, Option.getD_some] at hmem
  obtain ⟨bus, dev, func, -, rfl⟩ := (mem_reports ⟨depth, hfound⟩).mp hmem
  rfl

theorem consistent_init : init.Consistent := by
  intro p hp
  exact absurd hp List.not_mem_nil

/-- Filling the table keeps it consistent. -/
theorem Consistent.scanIfEmpty (h : table.Consistent)
    (hfill : table.scanIfEmpty space depth = .ok table') :
    table'.Consistent := by
  by_cases hzero : table.numPciDevices = 0
  · cases hscan : scanAllBus space depth with
    | none =>
      rw [DeviceTable.scanIfEmpty, if_pos hzero, hscan] at hfill
      cases hfill
    | some reports =>
      rw [scanIfEmpty_of_zero hscan hzero] at hfill
      -- more than 32 reports run over the end of the table, and nothing is filled
      by_cases hroom : table.numPciDevices + reports.length ≤ 32
      · obtain ⟨_, hall, -, hheld⟩ := recordAll_of_le hroom
        obtain rfl := Except.ok.inj (hall.symm.trans hfill)
        rw [Consistent, hheld, held_of_zero hzero, List.nil_append]
        intro p hp q hq hlocation
        simp only [ScanCallbackParam.location, Prod.mk.injEq] at hlocation
        obtain ⟨hbus, hdev, hfunc⟩ := hlocation
        rw [eq_ownReport hscan hp, eq_ownReport hscan hq, hbus, hdev, hfunc]
      · rw [recordAll_of_lt (by omega) (by omega)] at hfill
        cases hfill
  · rw [DeviceTable.scanIfEmpty, if_neg hzero] at hfill
    exact Except.ok.inj hfill ▸ h

theorem scanIfEmpty_of_mem (hmem : param ∈ table.held) (space : ConfigSpace) (depth : ℕ) :
    table.scanIfEmpty space depth = .ok table := by
  refine if_neg fun hzero => ?_
  rw [held_of_zero hzero] at hmem
  exact List.not_mem_nil hmem

end DeviceTable

/-! ### The machine -/

section Machine

variable {σ : Type*} (hw : Hardware) (stack : PcieCapability) (fuel depth : ℕ)
  (others : Command → List (List (BitVec 8)) → PciMachine × σ → Option (List (BitVec 8) × σ))

/-- The commands on the machine. Of the others only `xhci` touches the device table, and none
writes a configuration register; what they print and what they do elsewhere is left open. -/
def machineCommands : Commands (PciMachine × σ)
  | .lspci, argv, (m, rest) =>
    (m.lspci hw stack fuel depth argv).map fun out => (out.1, (out.2, rest))
  | .xhci, argv, (m, rest) =>
    match m.table.xhci m.space depth with
    | .error _ => none
    | .ok table =>
      (others .xhci argv ({ m with table }, rest)).map fun out => (out.1, ({ m with table }, out.2))
  | cmd, argv, (m, rest) => (others cmd argv (m, rest)).map fun out => (out.1, (m, out.2))

variable {hw stack fuel depth others} {m m' : PciMachine} {argv : List (List (BitVec 8))}
  {text : List (BitVec 8)}

/-- Whatever its arguments, `lspci` does to the table what filling it does. -/
theorem table_lspci (hlspci : m.lspci hw stack fuel depth argv = some (text, m')) :
    m.table.scanIfEmpty m.space depth = .ok m'.table := by
  rw [PciMachine.lspci, DeviceTable.lspci] at hlspci
  cases hfill : m.table.scanIfEmpty m.space depth with
  | error fault =>
    rw [hfill] at hlspci
    cases hlspci
  | ok table =>
    rw [hfill] at hlspci
    dsimp only at hlspci
    split at hlspci
    · obtain ⟨-, rfl⟩ := Prod.mk.inj (Option.some.inj hlspci)
      rfl
    · split at hlspci
      · obtain ⟨-, rfl⟩ := Prod.mk.inj (Option.some.inj hlspci)
        rfl
      · split at hlspci
        · obtain ⟨-, rfl⟩ := Prod.mk.inj (Option.some.inj hlspci)
          rfl
        · obtain ⟨_, -, hout⟩ := Option.map_eq_some_iff.mp hlspci
          obtain ⟨-, rfl⟩ := Prod.mk.inj hout
          rfl
    · obtain ⟨-, rfl⟩ := Prod.mk.inj (Option.some.inj hlspci)
      rfl

/-- Every command keeps the table consistent. -/
theorem machineCommands_keeps (cmd : Command) (argv : List (List (BitVec 8))) (env : PciMachine × σ)
    (out : List (BitVec 8) × (PciMachine × σ))
    (hcmd : machineCommands hw stack fuel depth others cmd argv env = some out)
    (henv : env.1.table.Consistent) : out.2.1.table.Consistent := by
  obtain ⟨m, rest⟩ := env
  cases cmd with
  | lspci =>
    obtain ⟨⟨text, m'⟩, hlspci, rfl⟩ := Option.map_eq_some_iff.mp hcmd
    exact henv.scanIfEmpty (table_lspci hlspci)
  | xhci =>
    cases hfill : m.table.scanIfEmpty m.space depth with
    | error fault => simp [machineCommands, DeviceTable.xhci, hfill] at hcmd
    | ok table =>
      simp only [machineCommands, DeviceTable.xhci, hfill] at hcmd
      obtain ⟨_, -, rfl⟩ := Option.map_eq_some_iff.mp hcmd
      exact henv.scanIfEmpty hfill
  | echo | mmap =>
    obtain ⟨_, -, rfl⟩ := Option.map_eq_some_iff.mp hcmd
    exact henv

/-- A location in the table is answered with the device there. -/
theorem lspci_locationText {param : ScanCallbackParam} (htable : m.table.Consistent)
    (hmem : param ∈ m.table.held) (hbars : BarsWired hw param.device)
    {visits : List (BitVec 8 × CapabilityLine)}
    (hvisits : ((lspciCapabilities stack param.device fuel).run ⟨⟨m.space, 0#32⟩, []⟩).1 =
      some visits) :
    m.lspci hw stack fuel depth [Command.lspci.name, locationText param.bus param.dev param.func] =
      some (deviceLine param ++ registerText hw m.space param.device visits, m) := by
  obtain ⟨t, hrun, hspace⟩ := run_showDevice hbars hvisits
  rw [PciMachine.lspci, DeviceTable.lspci, DeviceTable.scanIfEmpty_of_mem hmem]
  dsimp only
  rw [scanSpecifier_locationText]
  dsimp only
  rw [htable.find? hmem]
  dsimp only
  rw [hrun, Option.map_some, hspace]

theorem answerTo_lspci (env : PciMachine × σ) (arg : List (BitVec 8)) :
    answerTo (machineCommands hw stack fuel depth others) env [Command.lspci.name, arg] =
      (env.1.lspci hw stack fuel depth [Command.lspci.name, arg]).map fun out =>
        (out.1, (out.2, env.2)) := rfl

/-- Without an argument, the answer is the listing, if the table can be filled. -/
theorem answerTo_listing {env : PciMachine × σ} {out : List (BitVec 8) × (PciMachine × σ)} :
    answerTo (machineCommands hw stack fuel depth others) env [Command.lspci.name] = some out ↔
      ∃ table, env.1.table.scanIfEmpty env.1.space depth = .ok table ∧
        out = (table.held.flatMap deviceLine, (⟨env.1.space, table⟩, env.2)) := by
  have hanswer : answerTo (machineCommands hw stack fuel depth others) env [Command.lspci.name] =
      (env.1.lspci hw stack fuel depth [Command.lspci.name]).map fun out =>
        (out.1, (out.2, env.2)) := rfl
  rw [hanswer, PciMachine.lspci, DeviceTable.lspci]
  cases hfill : env.1.table.scanIfEmpty env.1.space depth with
  | error fault => simp
  | ok table =>
    dsimp only
    rw [Option.map_some, Option.some.injEq]
    constructor
    · rintro rfl
      exact ⟨table, rfl, rfl⟩
    · rintro ⟨table', htable, rfl⟩
      rw [Except.ok.inj htable]

end Machine

section Typed

variable {σ : Type*} {hw : Hardware} {stack : PcieCapability} {fuel depth : ℕ}
  {others : Command → List (List (BitVec 8)) → PciMachine × σ → Option (List (BitVec 8) × σ)}
  {garbage : ℕ → BitVec 8} {font : Font} {size : RectSize} {t : Terminal (PciMachine × σ)}

/-- In every state the commands can lead to the table is consistent. -/
theorem Terminal.consistent_of_run {buf : Vector (BitVec 8) kLineLength}
    {space : ConfigSpace} {rest : σ}
    {typed : List (BitVec 8)}
    (hrun : run (putChar font (execute (machineCommands hw stack fuel depth others) garbage))
      (boot font size buf (⟨space, .init⟩, rest)) typed = some t) : t.env.1.table.Consistent :=
  invariant_run (I := fun t : Terminal (PciMachine × σ) => t.env.1.table.Consistent)
    (putChar_keeps (execute_keeps machineCommands_keeps)) DeviceTable.consistent_init hrun

/-- A location that is typed is looked up. -/
theorem Terminal.run_lspci_location (hprompt : t.shell.promptStr = kDefaultPrompt)
    (hempty : t.shell.cur = 0) (htable : t.env.1.table.Consistent) {param : ScanCallbackParam}
    (hmem : param ∈ t.env.1.table.held) (hbars : BarsWired hw param.device)
    {visits : List (BitVec 8 × CapabilityLine)}
    (hvisits : ((lspciCapabilities stack param.device fuel).run ⟨⟨t.env.1.space, 0#32⟩, []⟩).1 =
      some visits) {line : List (BitVec 8)}
    (hline : line = ascii "lspci " ++ locationText param.bus param.dev param.func) :
    ∃ u, run (putChar font (execute (machineCommands hw stack fuel depth others) garbage)) t
        (line ++ [Ascii.newline]) = some u ∧
      u.printed = t.printed ++ line ++
        Ascii.newline :: (deviceLine param ++ registerText hw t.env.1.space param.device visits) ++
          kDefaultPrompt ∧
      u.shell.line = [] ∧ u.env = t.env := by
  have hline : line =
      Command.lspci.name ++ Ascii.space :: locationText param.bus param.dev param.func :=
    hline
  -- the line can be typed: it is plain, short and splits into two arguments
  have hplain : ∀ ch ∈ line, Plain ch := by
    intro ch hch
    rw [hline, List.mem_append, List.mem_cons] at hch
    rcases hch with hname | rfl | hlocation
    · have hall : ∀ ch ∈ Command.lspci.name, Plain ch := by decide
      exact hall ch hname
    · decide
    · exact (plain_of_mem_locationText hlocation).1
  have hlength : line.length = 14 := by
    rw [hline, List.length_append, List.length_cons, length_locationText]
    rfl
  have hargs : argsOf line = [Command.lspci.name, locationText param.bus param.dev param.func] := by
    have hname : ∀ ch ∈ Command.lspci.name, (ch == Ascii.space) = false := by decide
    rw [hline, argsOf_word_space hname (by decide), argsOf_locationText]
  have hne : line ≠ [] := by
    rw [← List.length_pos_iff, hlength]
    omega
  have hcount : (argsOf line).length ≤ kMaxArgs := by
    rw [hargs]
    exact (by decide : 2 ≤ kMaxArgs)
  have hanswer : answerTo (machineCommands hw stack fuel depth others) t.env (argsOf line) =
      some (deviceLine param ++ registerText hw t.env.1.space param.device visits, t.env) := by
    rw [hargs, answerTo_lspci, lspci_locationText htable hmem hbars hvisits]
    rfl
  have htext : Typable line := ⟨hplain, hlength.trans_lt (by decide), hne, hcount⟩
  obtain ⟨u, hrun, hprinted, hnext, henv⟩ := run_typed garbage font hprompt hempty htext hanswer
  exact ⟨u, hrun, hprinted, hnext, henv⟩

end Typed

/-- **From the listing to the registers.** In every state the commands can lead to, typing `lspci`
and the first eight characters of any line of the listing prints that very line again, then what the
registers of the device hold and its capabilities; and it leaves every configuration register, the
table and the rest of the machine as they were. -/
theorem Terminal.typed_lspci {σ : Type*} {hw : Hardware} {stack : PcieCapability} {fuel depth : ℕ}
    {others : Command → List (List (BitVec 8)) → PciMachine × σ → Option (List (BitVec 8) × σ)}
    {garbage : ℕ → BitVec 8} {buf : Vector (BitVec 8) kLineLength} {font : Font} {size : RectSize}
    {space : ConfigSpace} {rest : σ} {typed : List (BitVec 8)} {t : Terminal (PciMachine × σ)}
    (hrun : run (putChar font (execute (machineCommands hw stack fuel depth others) garbage))
      (boot font size buf (⟨space, .init⟩, rest)) typed = some t)
    (hempty : t.shell.cur = 0) {param : ScanCallbackParam} (hmem : param ∈ t.env.1.table.held)
    (hbars : BarsWired hw param.device) {visits : List (BitVec 8 × CapabilityLine)}
    (hvisits : ((lspciCapabilities stack param.device fuel).run ⟨⟨t.env.1.space, 0#32⟩, []⟩).1 =
      some visits) :
    let line := ascii "lspci " ++ (deviceLine param).take 8
    ∃ u, run (putChar font (execute (machineCommands hw stack fuel depth others) garbage)) t
        (line ++ [Ascii.newline]) = some u ∧
      u.printed = t.printed ++ line ++
        Ascii.newline :: (deviceLine param ++ registerText hw t.env.1.space param.device visits) ++
          kDefaultPrompt ∧
      u.shell.line = [] ∧ u.env = t.env := by
  intro line
  have hsound : t.Sound font size := invariant_run Sound.step (.boot size buf _) hrun
  exact Terminal.run_lspci_location hsound.prompt hempty (consistent_of_run hrun) hmem hbars hvisits
    (congrArg (ascii "lspci " ++ ·) take_deviceLine)

/-- The device behind the bridge of the bridged machine, looked up after a first `lspci`. -/
theorem Terminal.typed_lspci_bridgedSpace :
    let stack : PcieCapability := ⟨⟨0#8, 0#8⟩, 0#16, 0#32, 0#16, 0#16, 0#32, 0#16, 0#16, 0#32, 0#16,
      0#16, 0#16, 0#32⟩
    let commands : Commands (PciMachine × Unit) :=
      machineCommands (.ofWired fun _ => 0#32) stack 1 3 fun _ _ _ => none
    let step := Terminal.putChar (fun _ => 0) (execute commands fun _ => 0)
    let start := boot (fun _ => 0) ⟨80, 25⟩ (Vector.replicate kLineLength 0)
      ((⟨bridgedSpace 1#8, .init⟩, ()) : PciMachine × Unit)
    ∃ t param u, run step start (ascii "lspci\n") = some t ∧ param.location = (1#8, 0#8, 0#8) ∧
      run step t (ascii "lspci " ++ (deviceLine param).take 8 ++ [Ascii.newline]) = some u ∧
      u.env = t.env := by
  intro stack commands step start
  let visitsOf (t : Terminal (PciMachine × Unit)) (param : ScanCallbackParam) :
      Option (List (BitVec 8 × CapabilityLine)) :=
    ((lspciCapabilities stack param.device 1).run ⟨⟨t.env.1.space, 0#32⟩, []⟩).1
  have hcheck : ((run step start (ascii "lspci\n")).map fun t =>
      (t.shell.cur, t.env.1.table.held.map fun param =>
        (param.location, (visitsOf t param).isSome))) =
      some (0, [((0#8, 0#8, 0#8), true), ((0#8, 1#8, 0#8), true), ((1#8, 0#8, 0#8), true)]) := by
    decide +kernel
  obtain ⟨t, hrun, ht⟩ := Option.map_eq_some_iff.mp hcheck
  obtain ⟨hempty, hheld⟩ := Prod.mk.inj ht
  -- the device behind the bridge is listed, and its capability list ends
  have hlisted : ((1#8, 0#8, 0#8), true) ∈
      t.env.1.table.held.map fun param => (param.location, (visitsOf t param).isSome) := by
    rw [hheld]
    decide
  obtain ⟨param, hmem, hparam⟩ := List.mem_map.mp hlisted
  obtain ⟨hlocation, hends⟩ := Prod.mk.inj hparam
  obtain ⟨visits, hvisits⟩ := Option.isSome_iff_exists.mp hends
  obtain ⟨u, hline, -, -, henv⟩ :=
    Terminal.typed_lspci hrun hempty hmem (fun _ _ => ⟨_, wired_ofWired _ _⟩) hvisits
  exact ⟨t, param, u, hrun, hlocation, hline, henv⟩

end Bitnos
