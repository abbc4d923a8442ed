/-
# What `xhci` reports

Before it rings the doorbell the xhci command prints the status of the ports, the segment table and
the registers of the interrupter, and in the slot loop the contexts of a slot and its endpoints. How
many segments and endpoints there are stands in front of them, so all that was printed can be read
back; and nothing behind a device context is looked at, as the number of endpoints has five bits.
-/

import Bitnos.Commands.Printf
import Bitnos.Xhci.InputContext
import Bitnos.Xhci.Layout
import Bitnos.Xhci.RegisterViews
import Bitnos.Xhci.RingBytes
import Bitnos.Xhci.SlotLoop

namespace Bitnos.Xhci

open Template

/-! ### Registers -/

/-- `ReadHCIVERSION` -/
def readHCIVERSION (mem : Bytes.Memory 64) (cap : BitVec 64) : BitVec 16 :=
  (CapabilityRegister.caplengthHciversion.read mem cap >>> 16).setWidth 16

/-- The capability registers that are printed. -/
def capabilityValues (mem : Bytes.Memory 64) (xhc : Controller) : List ℕ :=
  [(readCAPLENGTH mem xhc.cap).toNat, (readHCIVERSION mem xhc.cap).toNat,
    (CapabilityRegister.dboff.read mem xhc.cap).toNat, (CapabilityRegister.rtsoff.read mem xhc.cap).toNat,
    (CapabilityRegister.hcsparams1.read mem xhc.cap).toNat,
    (CapabilityRegister.hccparams1.read mem xhc.cap).toNat]

def capabilityLine (values : List ℕ) : List (BitVec 8) :=
  printf ("CAPLENGTH=%02x HCIVERSION=%04x" ++ " DBOFF=%08x RTSOFF=%08x" ++
    " HCSPARAMS1=%08x HCCPARAMS1=%08x\n") values

/-- The operational registers that are printed. They are packed, and 64 bits are read in halves. -/
def operationalValues (mem : Bytes.Memory 64) (xhc : Controller) : List ℕ :=
  [(read32 mem xhc.op).toNat, (read32 mem (xhc.op + 0x04#64)).toNat,
    (MemMapRegister64Access32.read mem (xhc.op + 0x30#64)).toNat, (read32 mem (xhc.op + 0x38#64)).toNat]

def operationalLine (values : List ℕ) : List (BitVec 8) :=
  printf "USBCMD=%08x USBSTS=%08x DCBAAP=%016lx CONFIG=%08x\n" values

def crcrLine (crBuf : BitVec 64) : List (BitVec 8) := printf "Write to CRCR cr_buf=%016lx\n" [crBuf.toNat]

/-- The registers of interrupter 0, by way of their offset as it stands in the register. -/
def erstValues (mem : Bytes.Memory 64) (xhc : Controller) : List ℕ :=
  let rtsbase := xhc.mmioBase + (CapabilityRegister.rtsoff.read mem xhc.cap).setWidth 64
  let ir0 (i : ℕ) : BitVec 32 := read32 mem (rtsbase + 0x20#64 + BitVec.ofNat 64 (4 * i))
  [(ir0 2).toNat, ((ir0 4).setWidth 64 ||| ((ir0 5).setWidth 64 <<< 32)).toNat,
    ((ir0 6).setWidth 64 ||| ((ir0 7).setWidth 64 <<< 32)).toNat]

def erstLine (values : List ℕ) : List (BitVec 8) := printf "ERSTSZ=%u ERSTBA=%016lx ERDP=%016lx\n" values

/-! ### Ports -/

/-- `'0' + CCS + 2 * CSC` -/
def portChar (portStatus : BitVec 32) : BitVec 8 :=
  (0x30#32 + (portStatus &&& 1#32) + 2#32 * ((portStatus >>> 17) &&& 1#32)).setWidth 8

/-- The ports in order, each as its `PORTSC` register. -/
def portStatuses (mem : Bytes.Memory 64) (xhc : Controller) : List (BitVec 32) :=
  ((xhc.portRegSets mem).elements (sizeof portRegSet)).map (read32 mem)

def portLine (statuses : List (BitVec 32)) : List (BitVec 8) :=
  ascii "CCS+CSC: " ++ (statuses.map portChar ++ [0x0a])

/-- Current Connect Status and Connect Status Change of a port. -/
def connect (portStatus : BitVec 32) : Bool × Bool := (portStatus.getLsbD 0, portStatus.getLsbD 17)

/-- The digit for the two bits. -/
def connectChar : Bool × Bool → BitVec 8
  | (false, false) => 0x30
  | (true, false) => 0x31
  | (false, true) => 0x32
  | (true, true) => 0x33

theorem portChar_eq (portStatus : BitVec 32) :
    portChar portStatus = connectChar (connect portStatus) := by
  have hbit (i : ℕ) : (portStatus >>> i) &&& 1#32 =
      (BitVec.ofBool (portStatus.getLsbD i)).setWidth 32 := by
    rw [BitVec.and_one_eq_setWidth_ofBool_getLsbD, BitVec.getLsbD_ushiftRight, Nat.add_zero]
  have hfirst := hbit 0
  rw [BitVec.ushiftRight_zero] at hfirst
  rw [portChar, hfirst, hbit 17, connect]
  cases portStatus.getLsbD 0 <;> cases portStatus.getLsbD 17 <;> rfl

theorem portLine_eq (statuses : List (BitVec 32)) :
    portLine statuses = ascii "CCS+CSC: " ++ ((statuses.map connect).map connectChar ++ [0x0a]) := by
  rw [portLine, List.map_map, show portChar = connectChar ∘ connect from funext portChar_eq]

theorem conveys_portLine : Conveys portLine (List.map connect) := by
  have hdigit : ∀ p q, connectChar p = connectChar q → p = q := by decide
  have hnewline : ∀ p, connectChar p ≠ 0x0a := by decide
  have hdigits : Conveys (fun statuses : List (BitVec 32) =>
      (statuses.map connect).map connectChar ++ [0x0a]) (List.map connect) := by
    refine .stop (fun statuses hmem => ?_) fun statuses statuses' heq => ?_
    · obtain ⟨status, -, hstatus⟩ := List.mem_map.mp hmem
      exact hnewline _ hstatus
    · exact List.map_injective_iff.mpr (fun p q => hdigit p q) heq
  rw [show portLine = _ from funext portLine_eq]
  exact ((Conveys.literal _).append hdigits).of_view fun _ _ heq => congrArg Prod.snd heq

/-! ### The segment table -/

/-- The line about an entry. -/
def segmentLine (entry : ℕ × SegmentTableEntry) : List (BitVec 8) :=
  printf "SEGM TABLE %u: Base=%016lx Size=%u\n"
    [entry.1, entry.2.segmentBaseAddress.toNat, entry.2.segmentSize.toNat]

/-- The line about the table. -/
def segmentTableLine (table : BitVec 64 × ℕ) : List (BitVec 8) :=
  printf "SEGM TABLE Base=%016lx Size=%lu\n" [table.1.toNat, table.2]

/-- What is printed about the manager's segment table. -/
def segmentTableText (m : ByteManager) : List (BitVec 8) :=
  segmentTableLine (m.erst, m.erstSize) ++
    (List.range m.erstSize).flatMap fun i => segmentLine (i, m.segment i)

theorem conveys_segmentLine : Conveys segmentLine id := by
  refine conveys_line (fun _ => rfl) (n := 3) (by decide) (fun _ => rfl) ?_
  rintro ⟨_, ⟨⟩⟩ ⟨_, ⟨⟩⟩ heq
  simpa only [List.cons.injEq, BitVec.toNat_inj, and_true, id_eq, Prod.mk.injEq,
    SegmentTableEntry.mk.injEq] using heq

theorem conveys_segmentTableLine : Conveys segmentTableLine id := by
  refine conveys_line (fun _ => rfl) (n := 2) (by decide) (fun _ => rfl) ?_
  rintro ⟨⟩ ⟨⟩ heq
  simpa only [List.cons.injEq, BitVec.toNat_inj, and_true, id_eq, Prod.mk.injEq] using heq

theorem segmentTableText_eq (m : ByteManager) : segmentTableText m =
    let segments := (List.range m.erstSize).map m.segment
    segmentTableLine (m.erst, segments.length) ++
      ((List.range segments.length).zip segments).flatMap segmentLine := by
  dsimp only
  rw [List.length_map, List.length_range, ← List.map_prod_left_eq_zip, List.flatMap_map]
  rfl

/-- The number of entries in the first line tells how many lines follow. -/
theorem conveys_segmentTableText : Conveys segmentTableText fun m =>
    ((m.erst, m.erstSize), (List.range m.erstSize).map m.segment) := by
  refine (conveys_segmentTableLine.comp fun m : ByteManager => (m.erst, m.erstSize)).append_of ?_
  intro m m' s t htable heq
  have hsize : m.erstSize = m'.erstSize := congrArg Prod.snd htable
  -- as many entries on both sides
  rw [← hsize] at heq ⊢
  obtain ⟨hentry, hrest⟩ :=
    conveys_segmentLine.flatMap_range (f := fun i => (i, _)) (g := fun i => (i, _)) heq
  exact ⟨List.map_congr_left fun i hi => congrArg Prod.snd (hentry i (List.mem_range.mp hi)), hrest⟩

/-- What `xhci` prints between finding the controller and the slot loop, when the event ring has no
element. `before` is memory when the first registers are read, `mem` when the others are. -/
def reportText (before mem : Bytes.Memory 64) (xhc : Controller) (crBuf : BitVec 64) (m : ByteManager) :
    List (BitVec 8) :=
  capabilityLine (capabilityValues before xhc) ++ (operationalLine (operationalValues before xhc) ++
    (crcrLine crBuf ++ (ascii "ER has no element\n" ++ (portLine (portStatuses mem xhc) ++
      (segmentTableText m ++ erstLine (erstValues mem xhc))))))

theorem reportText_eq_iff {before mem before' mem' : Bytes.Memory 64} {xhc xhc' : Controller}
    {crBuf crBuf' : BitVec 64} {m m' : ByteManager} :
    reportText before mem xhc crBuf m = reportText before' mem' xhc' crBuf' m' ↔
      capabilityValues before xhc = capabilityValues before' xhc' ∧
        operationalValues before xhc = operationalValues before' xhc' ∧ crBuf = crBuf' ∧
        (portStatuses mem xhc).map connect = (portStatuses mem' xhc').map connect ∧
        m.erst = m'.erst ∧
        (List.range m.erstSize).map m.segment = (List.range m'.erstSize).map m'.segment ∧
        erstValues mem xhc = erstValues mem' xhc' := by
  constructor
  · intro heq
    -- line by line; nothing follows the last one
    obtain ⟨hcap, heq⟩ := render_cancel (n := 6) (by decide) rfl rfl heq
    obtain ⟨hop, heq⟩ := render_cancel (n := 4) (by decide) rfl rfl heq
    obtain ⟨hcr, heq⟩ := render_cancel (n := 1) (by decide) rfl rfl heq
    obtain ⟨hports, heq⟩ := conveys_portLine (List.append_cancel_left heq)
    obtain ⟨htable, heq⟩ := conveys_segmentTableText heq
    obtain ⟨herst, -⟩ := render_cancel (n := 3) (by decide) rfl rfl (congrArg (· ++ []) heq)
    obtain ⟨htable, hsegments⟩ := Prod.mk.inj htable
    exact ⟨hcap, hop, BitVec.toNat_inj.mp (List.head_eq_of_cons_eq hcr), hports,
      congrArg Prod.fst htable,
      hsegments, herst⟩
  · rintro ⟨hcap, hop, rfl, hports, herst, hsegments, hvalues⟩
    rw [reportText, reportText, hcap, hop, hvalues, portLine_eq, portLine_eq, hports,
      segmentTableText_eq, segmentTableText_eq, herst, hsegments]

/-! ### Device contexts -/

/-- What is printed of a slot context. -/
structure SlotReport where
  slotId : ℕ
  hub : ℕ
  contextEntries : ℕ
  slotState : ℕ
  usbDeviceAddress : ℕ

/-- What is printed of an endpoint context. -/
structure EndpointReport where
  epState : ℕ
  epType : ℕ
  maxBurstSize : ℕ
  maxPacketSize : ℕ

def SlotReport.line (slot : SlotReport) : List (BitVec 8) :=
  printf "DevCtx %u: Hub=%d, #EP=%d, slot state %02x, usb dev addr %02x\n"
    [slot.slotId, slot.hub, slot.contextEntries, slot.slotState, slot.usbDeviceAddress]

def EndpointReport.line (endpoint : ℕ × EndpointReport) : List (BitVec 8) :=
  printf "EP %u: state %u, type %u, MaxBSiz %u, MaxPSiz %u\n"
    [endpoint.1, endpoint.2.epState, endpoint.2.epType, endpoint.2.maxBurstSize, endpoint.2.maxPacketSize]

/-- `dcaddr->slot_context` -/
def readSlot (mem : Bytes.Memory 64) (slotId : ℕ) (dcaddr : BitVec 64) : SlotReport :=
  let sc : BitVec (32 * 8) := Bytes.load mem dcaddr kContextBytes
  { slotId
    hub := SlotContext.bits.read .hub sc
    contextEntries := SlotContext.bits.read .contextEntries sc
    slotState := SlotContext.bits.read .slotState sc
    usbDeviceAddress := SlotContext.bits.read .usbDeviceAddress sc }

/-- `dcaddr->ep_contexts[ep_index]` -/
def readEndpoint (mem : Bytes.Memory 64) (dcaddr : BitVec 64) (epIndex : ℕ) : EndpointReport :=
  let ep : BitVec (32 * 8) := Bytes.load mem (DeviceContext.epContext dcaddr epIndex) kContextBytes
  { epState := EndpointContext.bits.read .epState ep
    epType := EndpointContext.bits.read .epType ep
    maxBurstSize := EndpointContext.bits.read .maxBurstSize ep
    maxPacketSize := EndpointContext.bits.read .maxPacketSize ep }

/-- What is printed about a device context. -/
def deviceContextText (mem : Bytes.Memory 64) (slotId : ℕ) (dcaddr : BitVec 64) : List (BitVec 8) :=
  let sc := readSlot mem slotId dcaddr
  sc.line ++ (List.range sc.contextEntries).flatMap fun epIndex =>
    EndpointReport.line (epIndex, readEndpoint mem dcaddr epIndex)

/-- A device context as far as it is printed. -/
def readContext (mem : Bytes.Memory 64) (slotId : ℕ) (dcaddr : BitVec 64) :
    SlotReport × List EndpointReport :=
  let sc := readSlot mem slotId dcaddr
  (sc, (List.range sc.contextEntries).map (readEndpoint mem dcaddr))

/-- The text for a context of which this is known. -/
def contextText (context : SlotReport × List EndpointReport) : List (BitVec 8) :=
  context.1.line ++ ((List.range context.1.contextEntries).zip context.2).flatMap EndpointReport.line

theorem SlotReport.conveys_line : Conveys SlotReport.line id := by
  refine Bitnos.conveys_line (fun _ => rfl) (n := 5) (by decide) (fun _ => rfl) ?_
  rintro ⟨⟩ ⟨⟩ heq
  simpa only [List.cons.injEq, and_true, id_eq, SlotReport.mk.injEq] using heq

theorem EndpointReport.conveys_line : Conveys EndpointReport.line id := by
  refine Bitnos.conveys_line (fun _ => rfl) (n := 5) (by decide) (fun _ => rfl) ?_
  rintro ⟨_, ⟨⟩⟩ ⟨_, ⟨⟩⟩ heq
  simpa only [List.cons.injEq, and_true, id_eq, Prod.mk.injEq, EndpointReport.mk.injEq] using heq

section Contexts

variable {mem mem' : Bytes.Memory 64} {slotId slotId' : ℕ} {dcaddr dcaddr' : BitVec 64}
  {s t : List (BitVec 8)}

/-- The lines of the endpoints end where the slot context says. -/
theorem deviceContextText_cancel
    (heq : deviceContextText mem slotId dcaddr ++ s = deviceContextText mem' slotId' dcaddr' ++ t) :
    readContext mem slotId dcaddr = readContext mem' slotId' dcaddr' ∧ s = t := by
  rw [deviceContextText, deviceContextText, List.append_assoc, List.append_assoc] at heq
  obtain ⟨hslot, heq⟩ := SlotReport.conveys_line heq
  -- the slot context tells how many endpoints follow
  have hslot : readSlot mem slotId dcaddr = readSlot mem' slotId' dcaddr' := hslot
  rw [← hslot] at heq
  obtain ⟨hendpoint, hrest⟩ :=
    EndpointReport.conveys_line.flatMap_range (f := fun ep => (ep, _)) (g := fun ep => (ep, _)) heq
  refine ⟨?_, hrest⟩
  rw [readContext, readContext, ← hslot]
  exact congrArg _ (List.map_congr_left fun ep hep =>
    congrArg Prod.snd (hendpoint ep (List.mem_range.mp hep)))

theorem deviceContextText_eq : deviceContextText mem slotId dcaddr =
    contextText (readContext mem slotId dcaddr) := by
  rw [contextText, readContext, ← List.map_prod_left_eq_zip, List.flatMap_map]
  rfl

/-- There are 31 endpoints at most. -/
theorem contextEntries_lt : (readSlot mem slotId dcaddr).contextEntries < 32 :=
  (BitField.Field.get _ _).isLt

/-- Nothing outside of the device context is looked at. -/
theorem deviceContextText_inside (h : ∀ i < kDeviceContextBytes,
    mem (dcaddr + BitVec.ofNat 64 i) = mem' (dcaddr + BitVec.ofNat 64 i)) :
    deviceContextText mem slotId dcaddr = deviceContextText mem' slotId dcaddr := by
  have hslot : readSlot mem slotId dcaddr = readSlot mem' slotId dcaddr := by
    have hload : Bytes.load mem dcaddr kContextBytes = Bytes.load mem' dcaddr kContextBytes :=
      Bytes.load_congr fun i hi => h i (hi.trans (by decide))
    rw [readSlot, readSlot, hload]
  -- the endpoint contexts follow the slot context, which counts no more than 31 of them
  have hendpoint (ep : ℕ) (hep : ep < 31) : readEndpoint mem dcaddr ep =
      readEndpoint mem' dcaddr ep := by
    have hload : Bytes.load mem (DeviceContext.epContext dcaddr ep) kContextBytes =
        Bytes.load mem' (DeviceContext.epContext dcaddr ep) kContextBytes := by
      refine Bytes.load_congr fun i hi => ?_
      rw [DeviceContext.epContext, BitVec.add_assoc, ← BitVec.ofNat_add]
      rw [kContextBytes] at hi ⊢
      exact h _ (by rw [kDeviceContextBytes, kContextBytes]; omega)
    rw [readEndpoint, readEndpoint, hload]
  rw [deviceContextText_eq, deviceContextText_eq, readContext, readContext, hslot]
  refine congrArg (fun endpoints => contextText (_, endpoints))
    (List.map_congr_left fun ep hep => hendpoint ep ?_)
  have hentries : (readSlot mem' slotId dcaddr).contextEntries < 32 := contextEntries_lt
  have hlt := List.mem_range.mp hep
  omega

end Contexts

/-- What is printed about all contexts the slot loop visits. -/
def contextsText (mem : Bytes.Memory 64) (op : OperationalRegisters) : List (BitVec 8) :=
  (slotVisits (-1) (dcaddrs (read64 mem) op)).flatMap fun slot => deviceContextText mem slot.1.toNat slot.2

/-- The contexts the slot loop visits, as far as they are printed. -/
def readContexts (mem : Bytes.Memory 64) (op : OperationalRegisters) :
    List (SlotReport × List EndpointReport) :=
  (slotVisits (-1) (dcaddrs (read64 mem) op)).map fun slot => readContext mem slot.1.toNat slot.2

theorem contextsText_eq_iff {mem mem' : Bytes.Memory 64} {op op' : OperationalRegisters} :
    contextsText mem op = contextsText mem' op' ↔ readContexts mem op = readContexts mem' op' := by
  let slots (mem : Bytes.Memory 64) (op : OperationalRegisters) :=
    (slotVisits (-1) (dcaddrs (read64 mem) op)).map fun slot => (mem, slot)
  constructor
  · intro heq
    have hconveys : Conveys (fun slot : Bytes.Memory 64 × ℤ × BitVec 64 =>
        deviceContextText slot.1 slot.2.1.toNat slot.2.2) fun slot =>
          readContext slot.1 slot.2.1.toNat slot.2.2 :=
      fun _ _ _ _ heq => deviceContextText_cancel heq
    have hviews := @Conveys.flatMap _ _ _ _ _ (slots mem op) (slots mem' op') hconveys
      (fun slot => List.append_ne_nil_of_left_ne_nil (List.cons_ne_nil _ _) _)
    rw [List.flatMap_map, List.flatMap_map, List.map_map, List.map_map] at hviews
    exact hviews heq
  · intro heq
    have htext (mem : Bytes.Memory 64) (op : OperationalRegisters) :
        contextsText mem op = (readContexts mem op).flatMap contextText := by
      rw [contextsText, readContexts, List.flatMap_map]
      exact congrArg List.flatten (List.map_congr_left fun slot _ => deviceContextText_eq)
    rw [htext, htext, heq]

/-- **The report.** What `xhci` prints before the slot loop is the same for two controllers exactly when
they show the same registers, the same two bits of every port, and the same entries of the segment
table, the ports being where the controller has them; and what it prints about the device contexts is
the same exactly when the slot loop visits the same slots with the same printed fields, in as many
endpoints, and depends on the bytes of the device contexts only. -/
theorem report_lossless :
    (∀ before mem xhc crBuf m before' mem' xhc' crBuf' m',
      reportText before mem xhc crBuf m = reportText before' mem' xhc' crBuf' m' ↔
        capabilityValues before xhc = capabilityValues before' xhc' ∧
          operationalValues before xhc = operationalValues before' xhc' ∧ crBuf = crBuf' ∧
          (portStatuses mem xhc).map connect = (portStatuses mem' xhc').map connect ∧
          m.erst = m'.erst ∧
          (List.range m.erstSize).map m.segment = (List.range m'.erstSize).map m'.segment ∧
          erstValues mem xhc = erstValues mem' xhc') ∧
      (∀ mem base, portStatuses mem (.construct mem base) =
        (List.range (Capabilities.at mem base).maxPorts.toNat).map fun i =>
          read32 mem ((Capabilities.at mem base).portAddr base i)) ∧
      (∀ mem op mem' op',
        contextsText mem op = contextsText mem' op' ↔ readContexts mem op = readContexts mem' op') ∧
      ∀ mem mem' slotId dcaddr, (∀ i < kDeviceContextBytes,
          mem (dcaddr + BitVec.ofNat 64 i) = mem' (dcaddr + BitVec.ofNat 64 i)) →
        deviceContextText mem slotId dcaddr = deviceContextText mem' slotId dcaddr := by
  refine ⟨fun _ _ _ _ _ _ _ _ _ _ => reportText_eq_iff, fun mem base => ?_,
    fun _ _ _ _ => contextsText_eq_iff, fun _ _ _ _ => deviceContextText_inside⟩
  rw [portStatuses, ArrayWrapper.elements, size_portRegSets, List.map_map]
  exact List.map_congr_left fun i _ => congrArg (read32 mem) (portAddr_eq i)

end Bitnos.Xhci
