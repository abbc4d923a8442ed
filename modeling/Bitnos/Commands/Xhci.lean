/-
# The command `xhci`

`Xhci` looks through the device table for the first controller of its class, reports where
it is and takes the address of the registers from the first BAR. What it then does with the
registers is the subject of the modules on the controller; here it is left open.

The location is reported the way `lspci` takes it.
-/

import Bitnos.Commands.Lspci

namespace Bitnos

open Graphics DebugConsole PartialRun Splitter Pci
open Xhci (clearBits)

/-- The class of an xHCI controller. -/
def Pci.ScanCallbackParam.isXhci (param : ScanCallbackParam) : Bool :=
  param.baseClass == 0x0c#8 && param.subClass == 0x03#8 && param.interface == 0x30#8

/-- The first controller in the table. -/
def DeviceTable.xhciDevice? (table : DeviceTable) : Option ScanCallbackParam :=
  table.held.find? (·.isXhci)

/-- What is printed about the controller. -/
def foundLine (param : ScanCallbackParam) : List (BitVec 8) :=
  ascii "found an xHCI device at " ++ locationText param.bus param.dev param.func ++ [Ascii.newline]

/-- What is printed if there is none. -/
def noDeviceLine : List (BitVec 8) := ascii "no xHCI device" ++ [Ascii.newline]

/-- `NormalDevice` as it is constructed for an entry of the table. -/
def Pci.ScanCallbackParam.normalDevice (param : ScanCallbackParam) : Device :=
  ⟨param.bus, param.dev, param.func, 0#8⟩

/-- `mmio_base` -/
def mmioBase (param : ScanCallbackParam) : ConfigM (BitVec 64) := do
  let bar ← readBar param.normalDevice 0#32
  return clearBits bar.value 0xf#64

section

variable {σ : Type*} (proceed : ScanCallbackParam → BitVec 64 → σ → Option (List (BitVec 8) × σ))

/-- `Xhci` with the table filled, and what it goes on to do with the registers. -/
def PciMachine.xhci (m : PciMachine) (rest : σ) : Option (List (BitVec 8) × σ) :=
  match m.table.xhciDevice? with
  | none => some (noDeviceLine, rest)
  | some param =>
    let base := ((mmioBase param).run ⟨⟨m.space, 0#32⟩, []⟩).1
    (proceed param base rest).map fun out => (foundLine param ++ out.1, out.2)

/-- The commands with `xhci` among them. -/
def withXhci (others : Command → List (List (BitVec 8)) → PciMachine × σ → Option (List (BitVec 8) × σ)) :
    Command → List (List (BitVec 8)) → PciMachine × σ → Option (List (BitVec 8) × σ)
  | .xhci, _, (m, rest) => m.xhci proceed rest
  | cmd, argv, env => others cmd argv env

end

/-! ### The registers of the controller -/

section Base

variable {hw : Hardware} {param : ScanCallbackParam} {s : ConfigState}

/-- The base address is what the BAR holds without its flags. -/
theorem run_mmioBase : ∃ a, (mmioBase param).run s =
    (clearBits (param.device.barIn s.space 0#32).value 0xf#64, s.latch a) := by
  obtain ⟨a, hread⟩ := param.normalDevice.run_readBar 0#32 s
  exact ⟨a, (run_bind_of_run hread _).trans rfl⟩

theorem dvd_clearBits {value : BitVec 64} {k : ℕ} (hk : k ≤ 64)
    (hbelow : ∀ j, 4 ≤ j → j < k → value.getLsbD j = false) :
    2 ^ k ∣ (clearBits value 0xf#64).toNat := by
  apply Nat.dvd_of_mod_eq_zero
  apply Nat.eq_of_testBit_eq
  intro j
  rw [Nat.testBit_mod_two_pow, Nat.zero_testBit]
  by_cases hj : j < k
  · have hbit := @getLsbD_clearBits_flags value j (by omega)
    rw [BitVec.getLsbD] at hbit
    rw [hbit]
    by_cases hflag : j < 4
    · rw [decide_eq_true hflag, Bool.not_true, Bool.and_false, Bool.and_false]
    · rw [hbelow j (by omega) hj, Bool.false_and, Bool.and_false]
  · rw [decide_eq_false hj, Bool.false_and]

/-- Memory windows are aligned to their size, and the base address is that of the window. -/
theorem size_dvd_mmioBase {bar : MemoryBar} (hbar : bar.At hw param.device s.space 0#32) :
    bar.size ∣ ((mmioBase param).run s).1.toNat := by
  obtain ⟨a, hrun⟩ := @run_mmioBase param s
  have hzero : (0#32).toNat = 0 := rfl
  rw [hrun]
  cases bar with
  | memory32 k =>
    obtain ⟨-, hk, -, -, hnarrow, haligned⟩ := hbar
    rw [Device.barIn, hzero, if_neg (by omega), if_pos (bar_and_four.mpr hnarrow)]
    refine dvd_clearBits (by omega) fun j hj hjk => ?_
    rw [BitVec.getLsbD_setWidth, haligned j hj hjk, Bool.and_false]
  | memory64 k =>
    obtain ⟨-, hk, -, -, -, hwide, haligned, hupper⟩ := hbar
    have hflag : s.space (param.device.barAddress 0#32) &&& 4#32 ≠ 0#32 := by
      rw [Ne, bar_and_four, hwide]
      decide
    rw [Device.barIn, hzero, if_neg (by omega), if_neg hflag, if_neg (by omega)]
    refine dvd_clearBits hk.2.le fun j hj hjk => ?_
    rw [getLsbD_joinBar]
    split_ifs with hlow
    · exact haligned j hj hjk hlow
    · exact hupper _ (by omega)
  | unimplemented =>
    obtain ⟨-, hbarZero, -⟩ := hbar
    have hflag : (0#32 : BitVec 32) &&& 4#32 = 0#32 := rfl
    rw [Device.barIn, hzero, if_neg (by omega), hbarZero, if_pos hflag]
    exact dvd_rfl

end Base

/-! ### Reporting the controller -/

section Report

variable {σ : Type*} {hw : Hardware} {stack : PcieCapability} {fuel depth : ℕ}
  {proceed : ScanCallbackParam → BitVec 64 → σ → Option (List (BitVec 8) × σ)}
  {others : Command → List (List (BitVec 8)) → PciMachine × σ → Option (List (BitVec 8) × σ)}
  {garbage : ℕ → BitVec 8} {font : Font} {t : Terminal (PciMachine × σ)} {table : DeviceTable}

theorem answerTo_xhci {m : PciMachine} {rest : σ} (hfill : m.table.xhci m.space depth = .ok table) :
    answerTo (machineCommands hw stack fuel depth (withXhci proceed others)) (m, rest)
        [Command.xhci.name] =
      (PciMachine.xhci proceed ⟨m.space, table⟩ rest).map fun out =>
        (out.1, (⟨m.space, table⟩, out.2)) := by
  change machineCommands hw stack fuel depth (withXhci proceed others) .xhci _ (m, rest) = _
  rw [machineCommands, hfill]
  rfl

/-- What `xhci` answers, when it is typed. -/
theorem Terminal.run_xhci (hprompt : t.shell.promptStr = kDefaultPrompt) (hempty : t.shell.cur = 0)
    (hfill : t.env.1.table.xhci t.env.1.space depth = .ok table) {out : List (BitVec 8) × σ}
    (hout : PciMachine.xhci proceed ⟨t.env.1.space, table⟩ t.env.2 = some out) :
    ∃ u, run (putChar font (execute (machineCommands hw stack fuel depth (withXhci proceed others))
        garbage)) t (ascii "xhci" ++ [Ascii.newline]) = some u ∧
      u.printed = t.printed ++ ascii "xhci" ++ Ascii.newline :: out.1 ++ kDefaultPrompt ∧
      u.shell.line = [] ∧ u.env = (⟨t.env.1.space, table⟩, out.2) := by
  have hanswer : answerTo (machineCommands hw stack fuel depth (withXhci proceed others)) t.env
      [Command.xhci.name] = some (out.1, (⟨t.env.1.space, table⟩, out.2)) := by
    refine (answerTo_xhci hfill).trans ?_
    rw [hout]
    rfl
  exact run_name garbage font hprompt hempty hanswer

end Report

theorem drop_foundLine {param : ScanCallbackParam} :
    ((foundLine param).drop 24).take 8 = locationText param.bus param.dev param.func := by
  have htext : (ascii "found an xHCI device at ").length = 24 := by decide
  rw [foundLine, List.append_assoc, List.drop_left' htext]
  exact List.take_left' length_locationText

/-- **From the controller to its registers.** In every state the commands can lead to, `xhci` reports
the first controller in the table, or that there is none, and goes on at the address its first BAR
holds, which is a multiple of the size of the window. Typing `lspci` and the location it has reported
then shows that device. -/
theorem Terminal.typed_xhci {σ : Type*} {hw : Hardware} {stack : PcieCapability} {fuel depth : ℕ}
    {proceed : ScanCallbackParam → BitVec 64 → σ → Option (List (BitVec 8) × σ)}
    {others : Command → List (List (BitVec 8)) → PciMachine × σ → Option (List (BitVec 8) × σ)}
    {garbage : ℕ → BitVec 8} {buf : Vector (BitVec 8) kLineLength} {font : Font} {size : RectSize}
    {space : ConfigSpace} {rest : σ} {typed : List (BitVec 8)} {t : Terminal (PciMachine × σ)}
    (hrun : run (putChar font
      (execute (machineCommands hw stack fuel depth (withXhci proceed others)) garbage))
      (boot font size buf (⟨space, .init⟩, rest)) typed = some t)
    (hempty : t.shell.cur = 0) {table : DeviceTable}
    (hfill : t.env.1.table.xhci t.env.1.space depth = .ok table) :
    let step := putChar font
      (execute (machineCommands hw stack fuel depth (withXhci proceed others)) garbage)
    let typedXhci (u : Terminal (PciMachine × σ)) (text : List (BitVec 8)) :=
      run step t (ascii "xhci" ++ [Ascii.newline]) = some u ∧
        u.printed = t.printed ++ ascii "xhci" ++ Ascii.newline :: text ++ kDefaultPrompt
    ((∀ p ∈ table.held, p.isXhci = false) →
      ∃ u, typedXhci u noDeviceLine ∧ u.env = (⟨t.env.1.space, table⟩, t.env.2)) ∧
    ∀ before param after, table.held = before ++ param :: after → param.isXhci = true →
      (∀ p ∈ before, p.isXhci = false) →
      let base := ((mmioBase param).run ⟨⟨t.env.1.space, 0#32⟩, []⟩).1
      (∀ bar : MemoryBar, bar.At hw param.device t.env.1.space 0#32 → bar.size ∣ base.toNat) ∧
      ∀ text rest', proceed param base t.env.2 = some (text, rest') →
        ∃ u, typedXhci u (foundLine param ++ text) ∧ u.env = (⟨t.env.1.space, table⟩, rest') ∧
          ∀ visits, BarsWired hw param.device →
            ((lspciCapabilities stack param.device fuel).run ⟨⟨t.env.1.space, 0#32⟩, []⟩).1 =
              some visits →
            let line := ascii "lspci " ++ ((foundLine param).drop 24).take 8
            ∃ v, run step u (line ++ [Ascii.newline]) = some v ∧
              v.printed = u.printed ++ line ++ Ascii.newline ::
                (deviceLine param ++ registerText hw t.env.1.space param.device visits) ++
                  kDefaultPrompt ∧ v.env = u.env := by
  intro step typedXhci
  have hsound : t.Sound font size := invariant_run Sound.step (.boot size buf _) hrun
  refine ⟨fun hnone => ?_, fun before param after hheld hclass hbefore => ?_⟩
  · have hfind : table.xhciDevice? = none := List.find?_eq_none.mpr fun p hp => by simp [hnone p hp]
    obtain ⟨u, htyped, hprinted, -, henv⟩ := @Terminal.run_xhci σ hw stack fuel depth proceed others
      garbage font t table hsound.prompt hempty hfill (noDeviceLine, t.env.2)
      (by rw [PciMachine.xhci, hfind])
    exact ⟨u, ⟨htyped, hprinted⟩, henv⟩
  · intro base
    have hfind : table.xhciDevice? = some param := by
      refine List.find?_eq_some_iff_append.mpr ⟨hclass, before, after, hheld, fun p hp => ?_⟩
      rw [hbefore p hp]
      rfl
    refine ⟨fun bar hbar => @size_dvd_mmioBase hw param ⟨⟨t.env.1.space, 0#32⟩, []⟩ bar hbar, ?_⟩
    intro text rest' hproceed
    obtain ⟨u, htyped, hprinted, hline, henv⟩ :=
      @Terminal.run_xhci σ hw stack fuel depth proceed others
      garbage font t table hsound.prompt hempty hfill (foundLine param ++ text, rest') (by
        rw [PciMachine.xhci, hfind]
        exact (congrArg (Option.map _) hproceed).trans rfl)
    refine ⟨u, ⟨htyped, hprinted⟩, henv, fun visits hbars hvisits => ?_⟩
    have hsound' : u.Sound font size := invariant_run Sound.step hsound htyped
    have hcur : u.shell.cur = 0 := by
      rw [← DebugShell.length_line hsound'.cur_le, hline]
      rfl
    have hwhole : run step (boot font size buf (⟨space, .init⟩, rest))
        (typed ++ (ascii "xhci" ++ [Ascii.newline])) = some u := by
      rw [run_append, hrun]
      exact htyped
    have htable : u.env.1.table.Consistent := consistent_of_run hwhole
    have hmem : param ∈ u.env.1.table.held := by
      rw [henv, hheld]
      exact List.mem_append_right before List.mem_cons_self
    obtain ⟨v, hrun', hprinted', -, henv'⟩ :=
      Terminal.run_lspci_location hsound'.prompt hcur htable hmem
      hbars (by rw [henv]; exact hvisits) (congrArg (ascii "lspci " ++ ·) drop_foundLine)
    refine ⟨v, hrun', ?_, henv'⟩
    rw [hprinted', henv]

/-- The controller behind the bridge of the bridged machine. -/
theorem Terminal.typed_xhci_bridgedSpace :
    let stack : PcieCapability := ⟨⟨0#8, 0#8⟩, 0#16, 0#32, 0#16, 0#16, 0#32, 0#16, 0#16, 0#32, 0#16,
      0#16, 0#16, 0#32⟩
    let commands : Commands (PciMachine × Unit) :=
      machineCommands (.ofWired fun _ => 0#32) stack 1 3
        (withXhci (fun _ _ rest => some ([], rest)) fun _ _ _ => none)
    let step := Terminal.putChar (fun _ => 0) (execute commands fun _ => 0)
    let start := boot (fun _ => 0) ⟨80, 25⟩ (Vector.replicate kLineLength 0)
      ((⟨bridgedSpace 1#8, .init⟩, ()) : PciMachine × Unit)
    ∃ param u v, param.location = (1#8, 0#8, 0#8) ∧ run step start (ascii "xhci\n") = some u ∧
      u.printed = start.printed ++ ascii "xhci\n" ++ foundLine param ++ kDefaultPrompt ∧
      run step u (ascii "lspci " ++ ((foundLine param).drop 24).take 8 ++ [Ascii.newline]) = some v ∧
      v.env = u.env := by
  intro stack commands step start
  let visitsOf (param : ScanCallbackParam) : Option (List (BitVec 8 × CapabilityLine)) :=
    ((lspciCapabilities stack param.device 1).run ⟨⟨bridgedSpace 1#8, 0#32⟩, []⟩).1
  have hcheck : (match DeviceTable.xhci (bridgedSpace 1#8) 3 .init with
      | .ok table => some (table.held.map fun param =>
          (param.location, param.isXhci, (visitsOf param).isSome))
      | .error _ => none) = some [((0#8, 0#8, 0#8), false, true), ((0#8, 1#8, 0#8), false, true),
        ((1#8, 0#8, 0#8), true, true)] := by
    decide +kernel
  cases hfill : DeviceTable.xhci (bridgedSpace 1#8) 3 .init with
  | error fault =>
    rw [hfill] at hcheck
    cases hcheck
  | ok table =>
    rw [hfill] at hcheck
    obtain ⟨first, rest, hheld, hfirst, hrest⟩ := List.map_eq_cons_iff.mp (Option.some.inj hcheck)
    obtain ⟨second, rest, rfl, hsecond, hrest⟩ := List.map_eq_cons_iff.mp hrest
    obtain ⟨param, rest, rfl, hparam, -⟩ := List.map_eq_cons_iff.mp hrest
    simp only [Prod.mk.injEq] at hfirst hsecond hparam
    obtain ⟨visits, hvisits⟩ := Option.isSome_iff_exists.mp hparam.2.2
    have hbefore : ∀ p ∈ [first, second], p.isXhci = false := by
      intro p hp
      rcases List.mem_pair.mp hp with rfl | rfl
      · exact hfirst.2.1
      · exact hsecond.2.1
    have hrun : run step start [] = some start := rfl
    obtain ⟨-, hproceeds⟩ :=
      (Terminal.typed_xhci hrun rfl hfill).2 [first, second] param rest hheld hparam.2.1 hbefore
    obtain ⟨u, ⟨htyped, hprinted⟩, -, hlook⟩ := hproceeds [] () rfl
    obtain ⟨v, hlooked, -, henv⟩ := hlook visits (fun _ _ => ⟨_, wired_ofWired _ _⟩) hvisits
    refine ⟨param, u, v, hparam.1, htyped, ?_, hlooked, henv⟩
    rw [hprinted, List.append_nil]
    simp only [List.append_assoc]
    rfl

end Bitnos
