import Bethany.Drivers.Pci
import Bethany.Library.BoundedTable

/-!
# The scan of the PCI bus

`pci_init` goes through all buses, devices and functions and takes those that are there into a
table of 128 entries.

* `PciDevice`, `Pci`: `pci_device_t`, and the table with its counter;
* `pciScanDevice`, `pciScan`, `pciInit`: the scan;
* `pciFind`, `pciFindVendor`: the searches;
* `PciFunction.Present`, `PciFunction.describe`: which functions are there, and their entries;
* `Pci.Scanned.step`, `Pci.Scanned.run`: the table after one function and after a list of them;
* `pciInit_complete`: the table after `pci_init`, and what `pci_find` finds in it.
-/

namespace Bethany

open Machine BoundedTable RegisterBits

/-- `pci_device_t`. -/
structure PciDevice where
  bus : Byte
  device : Byte
  function : Byte
  vendor : BitVec 16
  deviceId : BitVec 16
  classCode : Byte
  subclass : Byte
  progIf : Byte
  revision : Byte
deriving DecidableEq

/-- `PCI_MAX_DEVICES`. -/
def pciMaxDevices : ℕ := 128

/-- `devices` and `device_count`, and the bridge. -/
structure Pci where
  ports : PciPorts
  devices : Vector PciDevice pciMaxDevices
  deviceCount : ℕ

/-- `pci_scan_device`. -/
def pciScanDevice (s : Pci) (bus device function : Byte) : Pci :=
  let vendor := pciRead16 s.ports bus device function 0x00
  if vendor.1 = 0xFFFF then { s with ports := vendor.2 }
  else
    let deviceId := pciRead16 vendor.2 bus device function 0x02
    let classReg := pciRead32 deviceId.2 bus device function 0x08
    if hcount : s.deviceCount < pciMaxDevices then
      let entry : PciDevice := {
        bus := bus
        device := device
        function := function
        vendor := vendor.1
        deviceId := deviceId.1
        classCode := ((classReg.1 >>> 24) &&& 0xFF).setWidth 8
        subclass := ((classReg.1 >>> 16) &&& 0xFF).setWidth 8
        progIf := ((classReg.1 >>> 8) &&& 0xFF).setWidth 8
        revision := (classReg.1 &&& 0xFF).setWidth 8 }
      { ports := classReg.2
        devices := s.devices.set s.deviceCount entry hcount
        deviceCount := s.deviceCount + 1 }
    else { s with ports := classReg.2 }

/-- `pci_scan`. -/
def pciScan (s : Pci) : Pci :=
  (List.range 256).foldl (fun s bus =>
    (List.range 32).foldl (fun s device =>
      (List.range 8).foldl (fun s function =>
        pciScanDevice s (BitVec.ofNat 8 bus) (BitVec.ofNat 8 device) (BitVec.ofNat 8 function))
        s) s) s

/-- `pci_init`. -/
def pciInit (s : Pci) : Pci := pciScan { s with deviceCount := 0 }

/-- The loop of the searches; the result is the place of the entry, or none for `NULL`. -/
def Pci.find (s : Pci) (p : PciDevice → Prop) [DecidablePred p] : Option ℕ :=
  (List.range s.deviceCount).find? fun i => s.devices[i]?.any fun d => p d

/-- `pci_find`. -/
def pciFind (s : Pci) (classCode subclass : Byte) : Option ℕ :=
  s.find fun d => d.classCode = classCode ∧ d.subclass = subclass

/-- `pci_find_vendor`. -/
def pciFindVendor (s : Pci) (vendor deviceId : BitVec 16) : Option ℕ :=
  s.find fun d => d.vendor = vendor ∧ d.deviceId = deviceId

/-- The entries of the table. -/
def Pci.table (s : Pci) : List PciDevice := s.devices.toList.take s.deviceCount

/-- The lexicographic order. -/
def PciFunction.Before (f g : PciFunction) : Prop :=
  f.bus < g.bus ∨ f.bus = g.bus ∧
    (f.device < g.device ∨ f.device = g.device ∧ f.function < g.function)

/-- A function is there if its vendor id is not `0xFFFF`. -/
def PciFunction.Present (space : ConfigSpace) (f : PciFunction) : Prop :=
  (space f 0).extractLsb' 0 16 ≠ 0xFFFF

instance (space : ConfigSpace) : DecidablePred (PciFunction.Present space) := fun f =>
  inferInstanceAs (Decidable ((space f 0).extractLsb' 0 16 ≠ 0xFFFF))

/-- The entry of a function: the dwords 0x00 and 0x08 of its configuration space, in parts. -/
def PciFunction.describe (space : ConfigSpace) (f : PciFunction) : PciDevice where
  bus := f.bus
  device := f.device.setWidth 8
  function := f.function.setWidth 8
  vendor := (space f 0).extractLsb' 0 16
  deviceId := (space f 0).extractLsb' 16 16
  classCode := (space f 2).extractLsb' 24 8
  subclass := (space f 2).extractLsb' 16 8
  progIf := (space f 2).extractLsb' 8 8
  revision := (space f 2).extractLsb' 0 8

variable {s : Pci} {space : ConfigSpace} {t : List PciDevice} {f : PciFunction}

/-! ### All functions -/

/-- The functions in the order of the scan. -/
def allFunctions : List PciFunction :=
  (List.range 256).flatMap fun bus => (List.range 32).flatMap fun device =>
    (List.range 8).map fun function =>
      ⟨BitVec.ofNat 8 bus, BitVec.ofNat 5 device, BitVec.ofNat 3 function⟩

theorem mem_allFunctions (f : PciFunction) : f ∈ allFunctions := by
  simp only [allFunctions, List.mem_flatMap, List.mem_map, List.mem_range]
  refine ⟨f.bus.toNat, f.bus.isLt, f.device.toNat, f.device.isLt, f.function.toNat,
    f.function.isLt, ?_⟩
  simp

theorem ofNat_lt_ofNat {w a b : ℕ} (hab : a < b) (hb : b < 2 ^ w) :
    BitVec.ofNat w a < BitVec.ofNat w b := by
  simp only [BitVec.lt_def, BitVec.toNat_ofNat, Nat.mod_eq_of_lt hb,
    Nat.mod_eq_of_lt (hab.trans hb), hab]

/-- They are in lexicographic order. -/
theorem allFunctions_pairwise : allFunctions.Pairwise PciFunction.Before := by
  rw [allFunctions, List.pairwise_flatMap]
  refine ⟨fun bus _ => ?_, List.pairwise_lt_range.imp_of_mem fun {a b} _ hb hab x hx y hy => ?_⟩
  · rw [List.pairwise_flatMap]
    refine ⟨fun device _ => ?_,
      List.pairwise_lt_range.imp_of_mem fun {a b} _ hb hab x hx y hy => ?_⟩
    · rw [List.pairwise_map]
      refine List.pairwise_lt_range.imp_of_mem fun _ hb hab => ?_
      exact .inr ⟨rfl, .inr ⟨rfl, ofNat_lt_ofNat hab (List.mem_range.mp hb)⟩⟩
    · obtain ⟨i, -, rfl⟩ := List.mem_map.mp hx
      obtain ⟨j, -, rfl⟩ := List.mem_map.mp hy
      exact .inr ⟨rfl, .inl (ofNat_lt_ofNat hab (List.mem_range.mp hb))⟩
  · simp only [List.mem_flatMap, List.mem_map] at hx hy
    obtain ⟨_, -, _, -, rfl⟩ := hx
    obtain ⟨_, -, _, -, rfl⟩ := hy
    exact .inl (ofNat_lt_ofNat hab (List.mem_range.mp hb))

theorem setWidth_ofNat {w n : ℕ} (hn : n < 2 ^ w) :
    (BitVec.ofNat w n).setWidth 8 = BitVec.ofNat 8 n := by
  apply BitVec.eq_of_toNat_eq
  simp only [BitVec.toNat_setWidth, BitVec.toNat_ofNat, Nat.mod_eq_of_lt hn]

/-- The scan goes through them one after the other. -/
theorem pciScan_eq :
    pciScan s = allFunctions.foldl (fun s f =>
      pciScanDevice s f.bus (f.device.setWidth 8) (f.function.setWidth 8)) s := by
  simp only [allFunctions, List.foldl_flatMap, List.foldl_map]
  refine List.foldl_ext _ _ _ fun s bus _ => List.foldl_ext _ _ _ fun s device hdevice =>
    List.foldl_ext _ _ _ fun s function hfunction => ?_
  rw [setWidth_ofNat (List.mem_range.mp hdevice), setWidth_ofNat (List.mem_range.mp hfunction)]

/-! ### One function, and a list of them -/

/-- The table and its counter in order, with the bridge in front of a configuration space. -/
structure Pci.Scanned (space : ConfigSpace) (t : List PciDevice) (s : Pci) : Prop where
  space_eq : s.ports.space = space
  count_le : s.deviceCount ≤ pciMaxDevices
  table_eq : s.table = t

theorem Pci.length_table (hcount : s.deviceCount ≤ pciMaxDevices) :
    s.table.length = s.deviceCount := by
  simpa [Pci.table] using hcount

theorem Pci.getElem?_table {i : ℕ} (hi : i < s.deviceCount) : s.table[i]? = s.devices[i]? := by
  rw [Pci.table, List.getElem?_take_of_lt hi, Vector.getElem?_toList]

/-- What the scan of one function does. -/
theorem pciScanDevice_cases (s : Pci) (f : PciFunction) :
    ∃ address,
      (¬ f.Present s.ports.space ∨ ¬ s.deviceCount < pciMaxDevices) ∧
          pciScanDevice s f.bus (f.device.setWidth 8) (f.function.setWidth 8) =
            { s with ports := { s.ports with address := address } } ∨
        f.Present s.ports.space ∧ ∃ hcount : s.deviceCount < pciMaxDevices,
          pciScanDevice s f.bus (f.device.setWidth 8) (f.function.setWidth 8) =
            { ports := { s.ports with address := address }
              devices := s.devices.set s.deviceCount (f.describe s.ports.space) hcount
              deviceCount := s.deviceCount + 1 } := by
  have hdword (offset : Byte) (p : PciPorts) :
      p.dword f.bus (f.device.setWidth 8) (f.function.setWidth 8) offset =
        p.space f (offset.extractLsb' 2 6) := by
    rw [PciPorts.dword, PciFunction.of_self]
  have hmask : (0xFF : BitVec 32).setWidth 8 = BitVec.allOnes 8 := rfl
  have hlow (x : BitVec 32) : (x &&& 0xFF).setWidth 8 = x.extractLsb' 0 8 :=
    setWidth_shiftRight_and (x := x) (k := 0) hmask
  simp only [pciScanDevice, pciRead16_eq, pciRead32_eq, hdword, PciPorts.select,
    setWidth_shiftRight_and hmask, hlow]
  split_ifs with hvendor hcount
  · exact ⟨_, .inl ⟨.inl fun hpresent => hpresent hvendor, rfl⟩⟩
  · exact ⟨_, .inr ⟨hvendor, hcount, rfl⟩⟩
  · exact ⟨_, .inl ⟨.inr hcount, rfl⟩⟩

/-- The scan of one function puts its entry into the table, if it is there and there is room. -/
theorem Pci.Scanned.step (h : s.Scanned space t) (f : PciFunction) :
    (pciScanDevice s f.bus (f.device.setWidth 8) (f.function.setWidth 8)).Scanned space
      (if f.Present space then push pciMaxDevices t (f.describe space) else t) := by
  obtain ⟨rfl, hle, rfl⟩ := h
  rw [push, s.length_table hle]
  obtain ⟨address, ⟨hskip, heq⟩ | ⟨hpresent, hcount, heq⟩⟩ := pciScanDevice_cases s f
  · rw [heq]
    refine ⟨rfl, hle, ?_⟩
    rcases hskip with hskip | hskip <;> simp [hskip, Pci.table]
  · rw [heq, if_pos hpresent, if_pos hcount]
    refine ⟨rfl, hcount, ?_⟩
    have hlen : s.deviceCount < s.devices.toList.length := by simpa using hcount
    simp only [Pci.table, Vector.toList_set, take_succ_set hlen]

/-- A list of functions. -/
theorem Pci.Scanned.run (h : s.Scanned space t) (fs : List PciFunction) :
    (fs.foldl (fun s f => pciScanDevice s f.bus (f.device.setWidth 8) (f.function.setWidth 8))
      s).Scanned space
      (fs.foldl (fun t f =>
        if f.Present space then push pciMaxDevices t (f.describe space) else t) t) := by
  induction fs generalizing s t with
  | nil => exact h
  | cons f fs ih => exact ih (h.step f)

/-! ### The whole scan -/

/-- The table after `pci_init`. -/
theorem pciInit_scanned (s : Pci) :
    (pciInit s).Scanned s.ports.space
      (((allFunctions.filter fun f => f.Present s.ports.space).map
        (PciFunction.describe s.ports.space)).take pciMaxDevices) := by
  have hstart : Pci.Scanned s.ports.space [] { s with deviceCount := 0 } :=
    ⟨rfl, Nat.zero_le _, List.take_zero⟩
  have hrun := hstart.run allFunctions
  have hfill := foldl_push_if pciMaxDevices (PciFunction.Present s.ports.space)
    (PciFunction.describe s.ports.space) [] allFunctions
  rw [List.take_nil, List.nil_append] at hfill
  rw [hfill] at hrun
  rw [pciInit, pciScan_eq]
  exact hrun

/-! ### Searches -/

section

variable {p : PciDevice → Prop} [DecidablePred p] {i : ℕ}

theorem Pci.find_eq (hcount : s.deviceCount ≤ pciMaxDevices) :
    s.find p = (List.range s.table.length).find? fun i => s.table[i]?.any fun d => p d := by
  rw [Pci.find, s.length_table hcount]
  refine List.find?_congr fun i hi => ?_
  rw [s.getElem?_table (List.mem_range.mp hi)]

theorem Pci.find_eq_some_iff (hcount : s.deviceCount ≤ pciMaxDevices) :
    s.find p = some i ↔ IsFirst p s.table i := by
  rw [s.find_eq hcount, find?_range_eq_some_iff]

theorem Pci.find_eq_none_iff (hcount : s.deviceCount ≤ pciMaxDevices) :
    s.find p = none ↔ ∀ d ∈ s.table, ¬ p d := by
  rw [s.find_eq hcount, find?_range_eq_none_iff]

/-- A search after `pci_init` finds the first entry. -/
theorem pciInit_find (s : Pci) :
    (∀ i, (pciInit s).find p = some i ↔ IsFirst p (pciInit s).table i) ∧
      ((pciInit s).find p = none ↔ ∀ d ∈ (pciInit s).table, ¬ p d) :=
  ⟨fun _ => Pci.find_eq_some_iff (pciInit_scanned s).count_le,
    Pci.find_eq_none_iff (pciInit_scanned s).count_le⟩

end

/-- **The scan is complete up to the capacity of the table.**  It holds the first 128 functions
that are there, in lexicographic order, and `pci_find` finds the first entry of a class. -/
theorem pciInit_complete (s : Pci) :
    (∃ fs : List PciFunction, fs.Pairwise PciFunction.Before ∧
      (∀ f, f ∈ fs ↔ f.Present s.ports.space) ∧
      (pciInit s).table = (fs.take pciMaxDevices).map (PciFunction.describe s.ports.space)) ∧
    ∀ classCode subclass : Byte,
      (∀ i, pciFind (pciInit s) classCode subclass = some i ↔
        IsFirst (fun d => d.classCode = classCode ∧ d.subclass = subclass) (pciInit s).table i) ∧
      (pciFind (pciInit s) classCode subclass = none ↔
        ∀ d ∈ (pciInit s).table, ¬ (d.classCode = classCode ∧ d.subclass = subclass)) := by
  have hscanned := pciInit_scanned s
  refine ⟨⟨allFunctions.filter fun f => f.Present s.ports.space,
    allFunctions_pairwise.filter _, fun f => ?_, ?_⟩, fun classCode subclass => pciInit_find s⟩
  · simp [mem_allFunctions]
  · rw [hscanned.table_eq, List.map_take]

/-- `pci_find_vendor` finds the first entry with the two ids. -/
theorem pciFindVendor_first (s : Pci) (vendor deviceId : BitVec 16) :
    (∀ i, pciFindVendor (pciInit s) vendor deviceId = some i ↔
      IsFirst (fun d => d.vendor = vendor ∧ d.deviceId = deviceId) (pciInit s).table i) ∧
    (pciFindVendor (pciInit s) vendor deviceId = none ↔
      ∀ d ∈ (pciInit s).table, ¬ (d.vendor = vendor ∧ d.deviceId = deviceId)) :=
  pciInit_find s

end Bethany
