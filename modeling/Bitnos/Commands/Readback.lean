/-
# What `lspci` tells

The lines of `lspci` convey what they were printed for. The listing is that of no other
devices, and the report about a device that of no other device or registers, although numbers,
the lines for the capabilities and the lines themselves are of different lengths.
-/

import Bitnos.Commands.Lspci
import Bitnos.Commands.Printf

namespace Bitnos

open Graphics DebugConsole PartialRun Splitter Pci Template

/-! ### Lines -/

theorem deviceLine_eq (param : ScanCallbackParam) : deviceLine param =
    printf "%02x:%02x.%02x DEVICE %04x, VENDOR %04x CLASS %02x.%02x.%02x HT %02x\n"
      [param.bus.toNat, param.dev.toNat, param.func.toNat, param.deviceId.toNat, param.vendorId.toNat,
        param.baseClass.toNat, param.subClass.toNat, param.interface.toNat,
          param.headerType.toNat] := by
  simp only [deviceLine, locationText, List.append_assoc]
  rfl

theorem conveys_deviceLine : Conveys deviceLine id := by
  refine conveys_line deviceLine_eq (n := 9) (by decide) (fun _ => rfl) ?_
  rintro ⟨⟩ ⟨⟩ heq
  simpa only [List.cons.injEq, BitVec.toNat_inj, and_true, id_eq, ScanCallbackParam.mk.injEq]
    using heq

theorem statusCommandLine_eq (statusCommand : BitVec 32) : statusCommandLine statusCommand =
    printf "status %04x, command %04x\n" [((statusCommand >>> 16) &&& 0xffff#32).toNat,
      (statusCommand &&& 0xffff#32).toNat] := by
  simp only [statusCommandLine, List.append_assoc]
  rfl

/-- Both halves of the register are printed. -/
theorem conveys_statusCommandLine : Conveys statusCommandLine id := by
  refine conveys_line statusCommandLine_eq (n := 2) (by decide) (fun _ => rfl) ?_
  intro a b heq
  have hlow (x : BitVec 32) : (x &&& 0xffff#32).toNat = x.toNat % 2 ^ 16 :=
    (BitVec.toNat_and ..).trans (Nat.and_two_pow_sub_one_eq_mod _ 16)
  simp only [hlow, BitVec.toNat_ushiftRight, Nat.shiftRight_eq_div_pow, List.cons.injEq,
    and_true] at heq
  apply BitVec.eq_of_toNat_eq
  rw [id, id]
  omega

theorem barLine_eq (i : ℕ) (bar : BitVec 32) :
    barLine i bar = printf "bar %d: %08x\n" [i, bar.toNat] := by
  simp only [barLine, List.append_assoc]
  rfl

theorem conveys_barLine : Conveys (fun bar : ℕ × BitVec 32 => barLine bar.1 bar.2) id := by
  refine conveys_line (fun bar => barLine_eq bar.1 bar.2) (n := 2) (by decide) (fun _ => rfl) ?_
  rintro ⟨⟩ ⟨⟩ heq
  simpa only [List.cons.injEq, BitVec.toNat_inj, and_true, id_eq, Prod.mk.injEq] using heq

theorem barMapSizeLine_eq (size : BitVec 64) : barMapSizeLine size =
    printf "bar map size: %lx\n" [size.toNat] := by
  simp only [barMapSizeLine, List.append_assoc]
  rfl

theorem conveys_barMapSizeLine : Conveys barMapSizeLine id :=
  conveys_line barMapSizeLine_eq (n := 1) (by decide) (fun _ => rfl) fun _ _ heq =>
    BitVec.toNat_inj.mp (List.head_eq_of_cons_eq heq)

theorem pcieText_eq (pcieCap deviceControl deviceStatus : BitVec 16) (deviceCap : BitVec 32) :
    capabilityText (.pcie pcieCap deviceCap deviceControl deviceStatus) =
      printf ("Cap ID 0x10 (PCI Express)\n" ++
        " PCIeCap: %04x, DevCap: %08x, DevCon: %04x, DevStat: %04x\n")
        [pcieCap.toNat, deviceCap.toNat, deviceControl.toNat, deviceStatus.toNat] := by
  simp only [capabilityText, List.append_assoc]
  rfl

theorem otherText_eq (capId : BitVec 8) :
    capabilityText (.other capId) = printf "Cap ID %02x\n" [capId.toNat] := by
  simp only [capabilityText, List.append_assoc]
  rfl

/-- A line without the name of the capability is not the beginning of one with it. -/
theorem pcieText_append_ne (pcieCap deviceControl deviceStatus : BitVec 16) (deviceCap : BitVec 32)
    (capId : BitVec 8) (s t : List (BitVec 8)) :
    capabilityText (.pcie pcieCap deviceCap deviceControl deviceStatus) ++ s ≠
      capabilityText (.other capId) ++ t := by
  intro heq
  obtain ⟨c, d, hdigits⟩ : ∃ c d, hexText 2 capId.toNat = [c, d] :=
    List.length_eq_two.mp (length_hexText (by decide) capId.isLt)
  -- behind the first digit there is another one, not an `x`
  have hd : d = 0x78 := by
    have hnth := congrArg (·[8]?) heq
    simp only [capabilityText, hdigits, List.append_assoc] at hnth
    exact (Option.some.inj hnth).symm
  have hmem : d ∈ hexText 2 capId.toNat := by
    rw [hdigits]
    exact List.mem_cons_of_mem c List.mem_cons_self
  obtain ⟨digit, rfl⟩ := exists_of_mem_hexText hmem
  exact (hexChar_spec digit.isLt).2.2.2.2.1 hd

theorem conveys_capabilityText : Conveys capabilityText id := by
  have hpcie : Conveys (fun f : BitVec 16 × BitVec 32 × BitVec 16 × BitVec 16 =>
      capabilityText (.pcie f.1 f.2.1 f.2.2.1 f.2.2.2)) id := by
    refine conveys_line (fun f => pcieText_eq f.1 f.2.2.1 f.2.2.2 f.2.1) (n := 4) (by decide)
      (fun _ => rfl) ?_
    rintro ⟨⟩ ⟨⟩ heq
    simpa only [List.cons.injEq, BitVec.toNat_inj, and_true, id_eq, Prod.ext_iff] using heq
  have hother : Conveys (fun capId => capabilityText (.other capId)) id :=
    conveys_line otherText_eq (n := 1) (by decide) (fun _ => rfl) fun _ _ heq =>
      BitVec.toNat_inj.mp (List.head_eq_of_cons_eq heq)
  intro a b s t heq
  cases a with
  | pcie a₁ a₂ a₃ a₄ =>
    cases b with
    | pcie b₁ b₂ b₃ b₄ =>
      obtain ⟨hfields, hrest⟩ := @hpcie (a₁, a₂, a₃, a₄) (b₁, b₂, b₃, b₄) s t heq
      simp only [id, Prod.mk.injEq] at hfields
      obtain ⟨rfl, rfl, rfl, rfl⟩ := hfields
      exact ⟨rfl, hrest⟩
    | other b => exact absurd heq (pcieText_append_ne _ _ _ _ _ _ _)
  | other a =>
    cases b with
    | pcie => exact absurd heq.symm (pcieText_append_ne _ _ _ _ _ _ _)
    | other b =>
      obtain ⟨rfl, hrest⟩ := hother heq
      exact ⟨rfl, hrest⟩

theorem capabilityText_ne_nil (line : CapabilityLine) : capabilityText line ≠ [] := by
  cases line <;> exact List.append_ne_nil_of_right_ne_nil _ (List.cons_ne_nil _ _)

/-! ### The listing -/

theorem deviceLine_ne_nil (param : ScanCallbackParam) : deviceLine param ≠ [] :=
  List.append_ne_nil_of_right_ne_nil _ (List.cons_ne_nil _ _)

/-- A listing is that of no other devices. -/
theorem listing_eq_iff {params params' : List ScanCallbackParam} :
    params.flatMap deviceLine = params'.flatMap deviceLine ↔ params = params' := by
  refine ⟨fun heq => ?_, congrArg _⟩
  simpa only [List.map_id] using conveys_deviceLine.flatMap deviceLine_ne_nil heq

/-! ### The report -/

/-- What is printed about the registers of a device. -/
@[ext] structure Registers where
  statusCommand : BitVec 32
  bars : List (BitVec 32)
  mapSize : BitVec 64
  capabilities : List CapabilityLine

/-- The registers that are printed. -/
def registersOf (hw : Hardware) (space : ConfigSpace) (device : Device)
    (visits : List (BitVec 8 × CapabilityLine)) : Registers where
  statusCommand := space (device.address 0x04#8)
  bars := (List.range 6).map fun i => space (device.address (0x10#8 + 4#8 * BitVec.ofNat 8 i))
  mapSize := ((calcBarMapSize hw device 0#32).run ⟨⟨space, 0#32⟩, []⟩).1.value
  capabilities := visits.map (·.2)

/-- A report is that of no other device, and of nothing else in the registers. -/
theorem report_eq_iff {hw hw' : Hardware} {space space' : ConfigSpace}
    {param param' : ScanCallbackParam}
    {visits visits' : List (BitVec 8 × CapabilityLine)} :
    deviceLine param ++ registerText hw space param.device visits =
        deviceLine param' ++ registerText hw' space' param'.device visits' ↔
      param = param' ∧
        registersOf hw space param.device visits = registersOf hw' space' param'.device visits' := by
  constructor
  · intro heq
    obtain ⟨hparam, heq⟩ := conveys_deviceLine heq
    obtain rfl : param = param' := hparam
    refine ⟨rfl, ?_⟩
    rw [registerText, registerText, List.append_assoc, List.append_assoc, List.append_assoc,
      List.append_assoc] at heq
    -- line by line, each one telling where the next begins
    obtain ⟨hstatus, heq⟩ := conveys_statusCommandLine heq
    obtain ⟨hbar, heq⟩ :=
      conveys_barLine.flatMap_range (f := fun i => (i, _)) (g := fun i => (i, _)) heq
    obtain ⟨hsize, heq⟩ := conveys_barMapSizeLine heq
    -- the capabilities come last, so their number is told as well
    have hcaps :=
      (conveys_capabilityText.comp Prod.snd).flatMap (fun _ => capabilityText_ne_nil _) heq
    refine Registers.ext hstatus ?_ hsize hcaps
    exact List.map_congr_left fun i hi => congrArg Prod.snd (hbar i (List.mem_range.mp hi))
  · rintro ⟨rfl, hregisters⟩
    obtain ⟨hstatus, hbars, hsize, hcaps⟩ := Registers.mk.inj hregisters
    have hlines : ((List.range 6).flatMap fun i =>
        barLine i (space (param.device.address (0x10#8 + 4#8 * BitVec.ofNat 8 i)))) =
          (List.range 6).flatMap fun i =>
            barLine i (space' (param.device.address (0x10#8 + 4#8 * BitVec.ofNat 8 i))) := by
      refine congrArg List.flatten (List.map_congr_left fun i hi => ?_)
      rw [List.map_inj_left.mp hbars i hi]
    have htext (visits : List (BitVec 8 × CapabilityLine)) :
        visits.flatMap (capabilityText ·.2) = (visits.map (·.2)).flatMap capabilityText :=
      (List.flatMap_map ..).symm
    rw [registerText, registerText, hstatus, hlines, hsize, htext, htext, hcaps]

/-! ### The screen -/

/-- **What `lspci` tells.** In every state the commands can lead to, `lspci` fills the table if it is
empty and prints a listing that is that of no other devices than those in the table; and `lspci` with
a location prints a report that is that of no other device, and of nothing else in the registers. -/
theorem Terminal.typed_lspci_tells {σ : Type*} {hw : Hardware} {stack : PcieCapability}
    {fuel depth : ℕ}
    {others : Command → List (List (BitVec 8)) → PciMachine × σ → Option (List (BitVec 8) × σ)}
    {garbage : ℕ → BitVec 8} {buf : Vector (BitVec 8) kLineLength} {font : Font} {size : RectSize}
    {space : ConfigSpace} {rest : σ} {typed : List (BitVec 8)} {t : Terminal (PciMachine × σ)}
    (hrun : run (putChar font (execute (machineCommands hw stack fuel depth others) garbage))
      (boot font size buf (⟨space, .init⟩, rest)) typed = some t)
    (hempty : t.shell.cur = 0) :
    let step := putChar font (execute (machineCommands hw stack fuel depth others) garbage)
    let prints (u : Terminal (PciMachine × σ)) (line text : List (BitVec 8)) :=
      run step t (line ++ [Ascii.newline]) = some u ∧
        u.printed = t.printed ++ line ++ Ascii.newline :: text ++ kDefaultPrompt
    (∀ table, t.env.1.table.lspci t.env.1.space depth = .ok table →
      ∃ u text, prints u (ascii "lspci") text ∧ u.env = (⟨t.env.1.space, table⟩, t.env.2) ∧
        ∀ params : List ScanCallbackParam, params.flatMap deviceLine = text ↔ params = table.held) ∧
    ∀ param ∈ t.env.1.table.held, BarsWired hw param.device → ∀ visits,
      ((lspciCapabilities stack param.device fuel).run ⟨⟨t.env.1.space, 0#32⟩, []⟩).1 = some visits →
      ∃ u text, prints u (ascii "lspci " ++ locationText param.bus param.dev param.func) text ∧
        u.env = t.env ∧
        ∀ hw' space' (param' : ScanCallbackParam) visits',
          deviceLine param' ++ registerText hw' space' param'.device visits' = text ↔
            param' = param ∧ registersOf hw' space' param'.device visits' =
              registersOf hw t.env.1.space param.device visits := by
  intro step prints
  have hsound : t.Sound font size := invariant_run Sound.step (.boot size buf _) hrun
  constructor
  · intro table hfill
    obtain ⟨u, hline, hprinted, -, henv⟩ := Terminal.run_name garbage font hsound.prompt hempty
      (answerTo_listing.mpr ⟨table, hfill, rfl⟩)
    exact ⟨u, _, ⟨hline, hprinted⟩, henv, fun params => listing_eq_iff⟩
  · intro param hmem hbars visits hvisits
    obtain ⟨u, hline, hprinted, -, henv⟩ := Terminal.run_lspci_location hsound.prompt hempty
      (consistent_of_run hrun) hmem hbars hvisits rfl
    exact ⟨u, _, ⟨hline, hprinted⟩, henv, fun _ _ _ _ => report_eq_iff⟩

/-- The listing of the bridged machine. -/
theorem Terminal.typed_lspci_tells_bridgedSpace :
    let stack : PcieCapability := ⟨⟨0#8, 0#8⟩, 0#16, 0#32, 0#16, 0#16, 0#32, 0#16, 0#16, 0#32, 0#16,
      0#16, 0#16, 0#32⟩
    let commands : Commands (PciMachine × Unit) :=
      machineCommands (.ofWired fun _ => 0#32) stack 1 3 fun _ _ _ => none
    let step := Terminal.putChar (fun _ => 0) (execute commands fun _ => 0)
    let start := boot (fun _ => 0) ⟨80, 25⟩ (Vector.replicate kLineLength 0)
      ((⟨bridgedSpace 1#8, .init⟩, ()) : PciMachine × Unit)
    ∃ u text, run step start (ascii "lspci" ++ [Ascii.newline]) = some u ∧
      u.printed = start.printed ++ ascii "lspci" ++ Ascii.newline :: text ++ kDefaultPrompt ∧
      ∀ params : List ScanCallbackParam, params.flatMap deviceLine = text →
        params.map (·.location) = [(0#8, 0#8, 0#8), (0#8, 1#8, 0#8), (1#8, 0#8, 0#8)] := by
  intro stack commands step start
  have hcheck : (match DeviceTable.lspci (bridgedSpace 1#8) 3 .init with
      | .ok table => some (table.held.map (·.location))
      | .error _ => none) = some [(0#8, 0#8, 0#8), (0#8, 1#8, 0#8), (1#8, 0#8, 0#8)] := by
    decide +kernel
  cases hfill : DeviceTable.lspci (bridgedSpace 1#8) 3 .init with
  | error fault =>
    rw [hfill] at hcheck
    cases hcheck
  | ok table =>
    rw [hfill] at hcheck
    have hrun : run step start [] = some start := rfl
    obtain ⟨u, text, ⟨htyped, hprinted⟩, -, htext⟩ :=
      (Terminal.typed_lspci_tells hrun rfl).1 table hfill
    refine ⟨u, text, htyped, hprinted, fun params hparams => ?_⟩
    rw [(htext params).mp hparams]
    exact Option.some.inj hcheck

end Bitnos
