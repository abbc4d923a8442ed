/-
# The bus scan

`BusScanner` and `ScanAllBus`. `Scan`, `ScanDev` and `ScanFunc` call one another: a
function that is a PCI-PCI bridge has its secondary bus scanned at once. Nothing
bounds that recursion in the source; here a bound on the nesting of `Scan` stands for
the stack, and a scan that exceeds it gives no result. What the scan hands to its
callback is the list of reports, in call order.

`scan_eq_walk` identifies the scan with the depth-first walk of the graph of buses,
which carries everything proved about walks over to the scan.
-/

import Bitnos.Math.Walk
import Bitnos.Pci.Config

namespace Bitnos.Pci

structure ScanCallbackParam where
  bus : BitVec 8
  dev : BitVec 8
  func : BitVec 8
  deviceId : BitVec 16
  vendorId : BitVec 16
  baseClass : BitVec 8
  subClass : BitVec 8
  interface : BitVec 8
  headerType : BitVec 8
  deriving DecidableEq

/-- The values of a loop counter from `lo` to below `hi`. -/
def counters (lo hi : ℕ) : List (BitVec 8) := (List.range' lo (hi - lo)).map (BitVec.ofNat 8)

variable (space : ConfigSpace)

/-! ### BusScanner -/

section Scanner

-- `Scan`, as the recursive call inside the scanner
variable (rec : BitVec 8 → Option (List ScanCallbackParam))

def scanFunc (bus dev func headerType : BitVec 8) : Option (List ScanCallbackParam) :=
  let classId := getClassId space bus dev func
  let base := ((classId >>> 24) &&& 0xff#32).setWidth 8
  let sub := ((classId >>> 16) &&& 0xff#32).setWidth 8
  let interface := ((classId >>> 8) &&& 0xff#32).setWidth 8
  let param : ScanCallbackParam :=
    { bus, dev, func
      deviceId := getDeviceId space bus dev func
      vendorId := getVendorId space bus dev func
      baseClass := base, subClass := sub, interface, headerType }
  if headerType &&& 0x7f#8 = 1#8 ∧ base = 0x06#8 ∧ sub = 0x04#8 then
    -- PCI-PCI bridge
    let busNumbers := getBusNumbers space bus dev func
    let secondaryBus := ((busNumbers >>> 8) &&& 0xff#32).setWidth 8
    (rec secondaryBus).map (param :: ·)
  else
    some [param]

def scanDev (bus dev : BitVec 8) : Option (List ScanCallbackParam) :=
  if getVendorId space bus dev 0#8 = 0xffff#16 then
    some []
  else
    let headerType := getHeaderType space bus dev 0
    -- function 0 comes first, whatever the header type says about others
    (scanFunc space rec bus dev 0#8 headerType).bind fun reports =>
      if isSingleFunctionDevice headerType then
        some reports
      else
        let others := Walk.collect
          (fun func =>
            if getVendorId space bus dev func ≠ 0xffff#16 then
              scanFunc space rec bus dev func (getHeaderType space bus dev func)
            else
              some [])
          (counters 1 8)
        others.map (reports ++ ·)

end Scanner

/-- `BusScanner::Scan` with at most `depth` scans nested. -/
def scan : ℕ → BitVec 8 → Option (List ScanCallbackParam)
  | 0, _ => none
  -- a bridge met on the way is scanned one level deeper
  | depth + 1, bus => Walk.collect (scanDev space (scan depth) bus) (counters 0 32)

/-! ### ScanAllBus -/

/-- The loop over the functions of device 0:0. It breaks at the first one whose vendor
id is not `0xffff`. -/
def scanHosts (depth : ℕ) : List (BitVec 8) → Option (List ScanCallbackParam)
  | [] => some []
  | func :: funcs =>
    if getVendorId space 0#8 0#8 func ≠ 0xffff#16 then
      some []
    else
      (scan space depth func).bind fun reports => (scanHosts depth funcs).map (reports ++ ·)

def scanAllBus (depth : ℕ) : Option (List ScanCallbackParam) :=
  let headerType := getHeaderType space 0#8 0#8 0#8
  if isSingleFunctionDevice headerType then
    scan space depth 0#8
  else
    scanHosts space depth (counters 0 8)

/-- `Scan(bus)` ends after making these reports. -/
def Scans (bus : BitVec 8) (reports : List ScanCallbackParam) : Prop :=
  ∃ depth, scan space depth bus = some reports

/-- `ScanAllBus` ends after making these reports. -/
def ScansAll (reports : List ScanCallbackParam) : Prop :=
  ∃ depth, scanAllBus space depth = some reports

/-! ### Devices and bridges -/

/-- A function the scan looks at: its device answers, and it is function 0, or the
device has several functions and this one answers too. -/
def Present (bus dev func : BitVec 8) : Prop :=
  getVendorId space bus dev 0#8 ≠ 0xffff#16 ∧
    (func = 0#8 ∨
      ¬ isSingleFunctionDevice (getHeaderType space bus dev 0#8) ∧
        getVendorId space bus dev func ≠ 0xffff#16)

instance (bus dev func : BitVec 8) : Decidable (Present space bus dev func) :=
  inferInstanceAs (Decidable (_ ∧ (_ ∨ _ ∧ _)))

/-- The register of a function at the given offset. -/
def register (bus dev func offset : BitVec 8) : BitVec 32 :=
  space (makeAddress bus dev func offset)

/-- What a function's own registers say: the ids, the three class bytes, the header
type. -/
def ownReport (bus dev func : BitVec 8) : ScanCallbackParam where
  bus := bus
  dev := dev
  func := func
  deviceId := (register space bus dev func 0x00#8).extractLsb' 16 16
  vendorId := (register space bus dev func 0x00#8).extractLsb' 0 16
  baseClass := (register space bus dev func 0x08#8).extractLsb' 24 8
  subClass := (register space bus dev func 0x08#8).extractLsb' 16 8
  interface := (register space bus dev func 0x08#8).extractLsb' 8 8
  headerType := (register space bus dev func 0x0c#8).extractLsb' 16 8

/-- A report about a PCI-PCI bridge. -/
def ScanCallbackParam.IsBridge (param : ScanCallbackParam) : Prop :=
  param.headerType &&& 0x7f#8 = 1#8 ∧ param.baseClass = 0x06#8 ∧ param.subClass = 0x04#8

instance (param : ScanCallbackParam) : Decidable param.IsBridge :=
  inferInstanceAs (Decidable (_ ∧ _ ∧ _))

/-- The secondary bus a bridge names. -/
def secondaryBus (bus dev func : BitVec 8) : BitVec 8 :=
  (register space bus dev func 0x18#8).extractLsb' 8 8

/-- The function is a bridge of `bus` to `bus'`. -/
structure BridgeTo (bus dev func bus' : BitVec 8) : Prop where
  dev_lt : dev.toNat < 32
  func_lt : func.toNat < 8
  present : Present space bus dev func
  bridge : (ownReport space bus dev func).IsBridge
  secondary : secondaryBus space bus dev func = bus'

/-- Some bridge of `bus` leads to `bus'`. -/
def Bridges (bus bus' : BitVec 8) : Prop := ∃ dev func, BridgeTo space bus dev func bus'

/-- `bus'` is `bus` or lies behind it, through any number of bridges. -/
def ReachableBus : BitVec 8 → BitVec 8 → Prop := Relation.ReflTransGen (Bridges space)

/-! ### The scan is a walk -/

/-- The functions of a device the scan looks at, in order. -/
def functions (bus dev : BitVec 8) : List (BitVec 8) :=
  if getVendorId space bus dev 0#8 = 0xffff#16 then []
  else if isSingleFunctionDevice (getHeaderType space bus dev 0#8) then [0#8]
  else 0#8 :: (counters 1 8).filter fun func => getVendorId space bus dev func ≠ 0xffff#16

/-- The report about a function, and the bus to scan next when it is a bridge. -/
def item (bus dev func : BitVec 8) : ScanCallbackParam × Option (BitVec 8) :=
  (ownReport space bus dev func,
    if (ownReport space bus dev func).IsBridge then some (secondaryBus space bus dev func)
    else none)

/-- The functions on a bus, as the items of a walk over the buses. -/
def items (bus : BitVec 8) : List (ScanCallbackParam × Option (BitVec 8)) :=
  (counters 0 32).flatMap fun dev => (functions space bus dev).map (item space bus dev)

variable {space} {bus dev func bus' : BitVec 8}

theorem mem_counters {lo hi : ℕ} (hhi : hi ≤ 256) {x : BitVec 8} :
    x ∈ counters lo hi ↔ lo ≤ x.toNat ∧ x.toNat < hi := by
  rw [counters, List.mem_map]
  constructor
  · rintro ⟨n, hn, rfl⟩
    rw [List.mem_range'_1] at hn
    rw [BitVec.toNat_ofNat, Nat.mod_eq_of_lt (by omega)]
    omega
  · rintro ⟨hlo, hlt⟩
    refine ⟨x.toNat, List.mem_range'_1.mpr (by omega), ?_⟩
    exact BitVec.eq_of_toNat_eq (by rw [BitVec.toNat_ofNat, Nat.mod_eq_of_lt x.isLt])

theorem nodup_counters {lo hi : ℕ} (hhi : hi ≤ 256) : (counters lo hi).Nodup := by
  apply List.Nodup.map_on _ List.nodup_range'
  intro m hm n hn heq
  rw [List.mem_range'_1] at hm hn
  have hnat := congrArg BitVec.toNat heq
  rwa [BitVec.toNat_ofNat, BitVec.toNat_ofNat, Nat.mod_eq_of_lt (by omega),
    Nat.mod_eq_of_lt (by omega)] at hnat

theorem mem_functions :
    func ∈ functions space bus dev ↔ func.toNat < 8 ∧ Present space bus dev func := by
  unfold functions Present
  by_cases hvendor : getVendorId space bus dev 0#8 = 0xffff#16
  · simp [hvendor]
  by_cases hsingle : isSingleFunctionDevice (getHeaderType space bus dev 0#8)
  · simp only [hvendor, hsingle, if_true, if_false, List.mem_singleton, not_true_eq_false,
      false_and, or_false]
    constructor
    · rintro rfl
      exact ⟨by decide, hvendor, rfl⟩
    · rintro ⟨-, -, rfl⟩
      rfl
  · simp only [hvendor, hsingle, List.mem_cons, List.mem_filter, Bool.false_eq_true, if_false,
      mem_counters (show 8 ≤ 256 by omega), not_false_eq_true, true_and, ne_eq, decide_not,
      Bool.not_eq_eq_eq_not, Bool.not_true, decide_eq_false_iff_not]
    constructor
    · rintro (rfl | ⟨hlt, hfunc⟩)
      · exact ⟨by decide, .inl rfl⟩
      · exact ⟨hlt.2, .inr hfunc⟩
    · rintro ⟨hlt, rfl | hfunc⟩
      · exact .inl rfl
      · by_cases hzero : func.toNat = 0
        · exact .inl (BitVec.eq_of_toNat_eq hzero)
        · exact .inr ⟨⟨Nat.pos_of_ne_zero hzero, hlt⟩, hfunc⟩

/-- A shifted and masked register holds its bits from the shift on. -/
theorem setWidth_shift_and (x : BitVec 32) (n : ℕ) :
    ((x >>> n) &&& 0xff#32).setWidth 8 = x.extractLsb' n 8 := by
  apply BitVec.eq_of_getLsbD_eq
  intro i hi
  have hmask : (0xff#32).getLsbD i = true := by interval_cases i <;> rfl
  simp only [BitVec.getLsbD_setWidth, BitVec.getLsbD_and, BitVec.getLsbD_ushiftRight, hmask,
    Bool.and_true, BitVec.getLsbD_extractLsb']

theorem setWidth_and (x : BitVec 32) :
    (x &&& 0xffff#32).setWidth 16 = x.extractLsb' 0 16 := by
  apply BitVec.eq_of_getLsbD_eq
  intro i hi
  have hmask : (0xffff#32).getLsbD i = true := by interval_cases i <;> rfl
  simp only [BitVec.getLsbD_setWidth, BitVec.getLsbD_and, hmask, Bool.and_true,
    BitVec.getLsbD_extractLsb', Nat.zero_add]

theorem setWidth_shift (x : BitVec 32) : (x >>> 16).setWidth 16 = x.extractLsb' 16 16 := by
  apply BitVec.eq_of_getLsbD_eq
  intro i hi
  simp only [BitVec.getLsbD_setWidth, BitVec.getLsbD_ushiftRight, BitVec.getLsbD_extractLsb']

theorem getVendorId_eq :
    getVendorId space bus dev func = (register space bus dev func 0x00#8).extractLsb' 0 16 :=
  setWidth_and _

theorem register_ofRegisters {registers : BitVec 8 → BitVec 8 → BitVec 8 → BitVec 8 → BitVec 32}
    (hdev : dev.toNat < 32) (hfunc : func.toNat < 8) (addr : BitVec 8) :
    register (.ofRegisters registers) bus dev func addr =
      registers bus dev func (addr &&& 0xfc#8) :=
  readDataAt_ofRegisters hdev hfunc addr

/-- The report `ScanFunc` builds is the function's own. -/
theorem scanFunc_eq (rec : BitVec 8 → Option (List ScanCallbackParam)) :
    scanFunc space rec bus dev func (getHeaderType space bus dev func) =
      Walk.visit rec (item space bus dev func) := by
  have hparam : ownReport space bus dev func =
      { bus, dev, func
        deviceId := getDeviceId space bus dev func
        vendorId := getVendorId space bus dev func
        baseClass := ((getClassId space bus dev func >>> 24) &&& 0xff#32).setWidth 8
        subClass := ((getClassId space bus dev func >>> 16) &&& 0xff#32).setWidth 8
        interface := ((getClassId space bus dev func >>> 8) &&& 0xff#32).setWidth 8
        headerType := getHeaderType space bus dev func } := by
    rw [getDeviceId, getVendorId_eq, getHeaderType, setWidth_shift]
    simp only [setWidth_shift_and]
    rfl
  have hsecondary : ((getBusNumbers space bus dev func >>> 8) &&& 0xff#32).setWidth 8 =
      secondaryBus space bus dev func := setWidth_shift_and _ 8
  dsimp only [scanFunc]
  rw [hsecondary, ← hparam, item]
  -- the test of the source on the three fields is `IsBridge` of the report
  by_cases hbridge : (ownReport space bus dev func).IsBridge
  · rw [if_pos hbridge, if_pos (by rwa [hparam] at hbridge)]
    rfl
  · rw [if_neg hbridge, if_neg (by rwa [hparam] at hbridge)]
    rfl

theorem scanDev_eq (rec : BitVec 8 → Option (List ScanCallbackParam)) :
    scanDev space rec bus dev =
      Walk.collect (fun func => Walk.visit rec (item space bus dev func))
        (functions space bus dev) := by
  unfold scanDev functions
  by_cases hvendor : getVendorId space bus dev 0#8 = 0xffff#16
  · rw [if_pos hvendor, if_pos hvendor, Walk.collect_nil]
  rw [if_neg hvendor, if_neg hvendor]
  by_cases hsingle : isSingleFunctionDevice (getHeaderType space bus dev 0#8)
  · simp [hsingle, scanFunc_eq, Walk.collect_cons]
  · simp [hsingle, scanFunc_eq, Walk.collect_cons, Walk.collect_filter]

/-- `Scan` is the depth-first walk of the buses. -/
theorem scan_eq_walk (depth : ℕ) (bus : BitVec 8) :
    scan space depth bus = Walk.walk (items space) depth bus := by
  induction depth generalizing bus with
  | zero => rfl
  | succ depth ih =>
    rw [scan, Walk.walk_succ, items, Walk.collect_flatMap]
    apply Walk.collect_congr
    intro dev _
    rw [funext ih, scanDev_eq, Walk.collect_map]

end Bitnos.Pci
