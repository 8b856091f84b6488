import Bethany.Library.Machine
import Bethany.Library.RegisterBits

/-!
# Configuration space of the PCI bus

The bridge has two ports: an address is written to `CONFIG_ADDRESS`, and `CONFIG_DATA` is then the
dword there.  A dword is plain storage; only that with the command register has the status register
in its upper half, with bits that a one clears and bits that cannot be written.

* `PciFunction`, `ConfigSpace`: a function of a device on a bus, and the dwords of all of them;
* `PciPorts`, `outl`, `inl`: the bridge;
* `pciAddress`, `pciRead32`, `pciRead16`, `pciWrite32`, `pciWrite16`: the accesses of `pci.c`;
* `PciFunction.ofAddress_pciAddress`, `regOf_pciAddress`: an address decodes to what it is made of;
* `pciRead32_eq`, `pciRead16_eq`, `space_pciWrite32`: what an access reads, and what it changes.
-/

namespace Bethany

open Machine RegisterBits

/-- A function of a device on a bus. -/
@[ext] structure PciFunction where
  bus : BitVec 8
  device : BitVec 5
  function : BitVec 3
deriving DecidableEq

/-- The 64 dwords of each function. -/
abbrev ConfigSpace := PciFunction → BitVec 6 → BitVec 32

def ConfigSpace.set (space : ConfigSpace) (f : PciFunction) (reg : BitVec 6) (x : BitVec 32) :
    ConfigSpace :=
  Function.update space f (Function.update (space f) reg x)

/-- `CONFIG_ADDRESS`, and what can be reached through `CONFIG_DATA`. -/
structure PciPorts where
  address : BitVec 32
  space : ConfigSpace

/-- The function that an address selects. -/
def PciFunction.ofAddress (address : BitVec 32) : PciFunction where
  bus := address.extractLsb' 16 8
  device := address.extractLsb' 11 5
  function := address.extractLsb' 8 3

/-- The dword that an address selects. -/
def regOf (address : BitVec 32) : BitVec 6 := address.extractLsb' 2 6

/-- The bits of the status register that a one clears: 8 and 11 to 15. -/
def statusClear : BitVec 16 := 0xF900

/-- The kinds of bits of the dwords; the dword 1 is command and status. -/
def configRegister (reg : BitVec 6) : Register 32 :=
  if reg = 1 then ⟨0x0000FFFF, statusClear ++ 0#16, by decide⟩ else Register.storage 32

/-- `PCI_CONFIG_ADDRESS`. -/
def pciConfigAddress : BitVec 16 := 0xCF8

/-- `PCI_CONFIG_DATA`. -/
def pciConfigData : BitVec 16 := 0xCFC

/-- A write to the dword that is selected; without bit 31 of the address none is. -/
def PciPorts.write (p : PciPorts) (value : BitVec 32) : PciPorts :=
  if p.address.getLsbD 31 then
    let f := PciFunction.ofAddress p.address
    let reg := regOf p.address
    { p with space := p.space.set f reg ((configRegister reg).write (p.space f reg) value) }
  else p

/-- The dword that is selected. -/
def PciPorts.read (p : PciPorts) : BitVec 32 :=
  if p.address.getLsbD 31 then p.space (PciFunction.ofAddress p.address) (regOf p.address)
  else BitVec.allOnes 32

/-- `outl`. -/
def outl (p : PciPorts) (port : BitVec 16) (value : BitVec 32) : PciPorts :=
  if port = pciConfigAddress then { p with address := value }
  else if port = pciConfigData then p.write value else p

/-- `inl`. -/
def inl (p : PciPorts) (port : BitVec 16) : BitVec 32 :=
  if port = pciConfigAddress then p.address
  else if port = pciConfigData then p.read else BitVec.allOnes 32

/-- `pci_address`. -/
def pciAddress (bus device function offset : Byte) : BitVec 32 :=
  (1#32 <<< 31) ||| (bus.setWidth 32 <<< 16) ||| (device.setWidth 32 <<< 11) |||
    (function.setWidth 32 <<< 8) ||| (offset &&& 0xFC).setWidth 32

variable (p : PciPorts) (bus device function offset : Byte)

/-- `pci_read32`, with the bridge after it. -/
def pciRead32 : BitVec 32 × PciPorts :=
  let p := outl p pciConfigAddress (pciAddress bus device function offset)
  (inl p pciConfigData, p)

/-- `pci_read16`. -/
def pciRead16 : BitVec 16 × PciPorts :=
  let value := pciRead32 p bus device function offset
  (((value.1 >>> ((offset &&& 2).toNat * 8)) &&& 0xFFFF).setWidth 16, value.2)

/-- `pci_write32`. -/
def pciWrite32 (value : BitVec 32) : PciPorts :=
  let p := outl p pciConfigAddress (pciAddress bus device function offset)
  outl p pciConfigData value

/-- `pci_write16`. -/
def pciWrite16 (value : BitVec 16) : PciPorts :=
  let old := pciRead32 p bus device function offset
  let shift := (offset &&& 2).toNat * 8
  let mask := 0xFFFF#32 <<< shift
  let newValue := (old.1 &&& ~~~mask) ||| (value.setWidth 32 <<< shift)
  pciWrite32 old.2 bus device function offset newValue

variable {p bus device function offset} {value : BitVec 16}

/-! ### Addresses -/

theorem enabled_pciAddress : (pciAddress bus device function offset).getLsbD 31 = true := by
  simp [pciAddress]

theorem regOf_pciAddress :
    regOf (pciAddress bus device function offset) = offset.extractLsb' 2 6 := by
  ext i hi
  interval_cases i <;> simp [regOf, pciAddress]

/-- The function that `pci_address` addresses. -/
def PciFunction.of (bus device function : Byte) : PciFunction :=
  PciFunction.ofAddress (pciAddress bus device function 0)

/-- The offset is in the lower eight bits, the function above them. -/
theorem PciFunction.ofAddress_pciAddress :
    PciFunction.ofAddress (pciAddress bus device function offset) = .of bus device function := by
  have hhigh (k n : ℕ) (hk : 8 ≤ k) : (pciAddress bus device function offset).extractLsb' k n =
      (pciAddress bus device function 0).extractLsb' k n := by
    apply BitVec.eq_of_getLsbD_eq
    intro i hi
    simp [pciAddress, BitVec.getLsbD_of_ge offset (k + i) (by omega)]
  simp [PciFunction.of, PciFunction.ofAddress, hhigh]

/-- The fields of an address do not overlap. -/
theorem PciFunction.of_self (f : PciFunction) :
    PciFunction.of f.bus (f.device.setWidth 8) (f.function.setWidth 8) = f := by
  ext i hi
  all_goals
    simp only [PciFunction.of, PciFunction.ofAddress]
    interval_cases i <;> simp [pciAddress]

/-! ### Accesses -/

/-- The half of a dword that an offset is in. -/
def half (offset : Byte) (x : BitVec 32) : BitVec 16 := x.extractLsb' ((offset &&& 2).toNat * 8) 16

theorem shift_cases (offset : Byte) :
    (offset &&& 2).toNat * 8 = 0 ∨ (offset &&& 2).toNat * 8 = 16 := by
  have htwo : offset &&& BitVec.twoPow 8 1 = _ := BitVec.and_twoPow offset 1
  have hand : offset &&& 2 = if offset.getLsbD 1 then 2 else 0 := htwo
  rw [hand]
  cases offset.getLsbD 1
  · exact .inl rfl
  · exact .inr rfl

section

variable (p bus device function offset)

/-- The bridge with the address of the access. -/
def PciPorts.select : PciPorts := { p with address := pciAddress bus device function offset }

/-- The dword that an access reads or writes. -/
def PciPorts.dword : BitVec 32 := p.space (.of bus device function) (offset.extractLsb' 2 6)

theorem PciPorts.read_select :
    (p.select bus device function offset).read = p.dword bus device function offset := by
  rw [PciPorts.read, PciPorts.select, if_pos enabled_pciAddress, PciFunction.ofAddress_pciAddress,
    regOf_pciAddress, PciPorts.dword]

/-- `pci_read32` reads the dword and leaves it as it was. -/
theorem pciRead32_eq :
    pciRead32 p bus device function offset =
      (p.dword bus device function offset, p.select bus device function offset) := by
  rw [← p.read_select]
  rfl

/-- `pci_read16` reads half of it. -/
theorem pciRead16_eq :
    pciRead16 p bus device function offset =
      (half offset (p.dword bus device function offset), p.select bus device function offset) := by
  have hmask : (0xFFFF : BitVec 32).setWidth 16 = BitVec.allOnes 16 := rfl
  rw [pciRead16, pciRead32_eq, half]
  simp only [setWidth_shiftRight_and hmask]

/-- `pci_write32` writes the dword. -/
theorem space_pciWrite32 (value : BitVec 32) :
    (pciWrite32 p bus device function offset value).space =
      p.space.set (.of bus device function) (offset.extractLsb' 2 6)
        ((configRegister (offset.extractLsb' 2 6)).write (p.dword bus device function offset)
          value) := by
  have hwrite : (pciWrite32 p bus device function offset value) =
      (p.select bus device function offset).write value := rfl
  rw [hwrite, PciPorts.write, PciPorts.select, if_pos enabled_pciAddress]
  simp only [PciFunction.ofAddress_pciAddress, regOf_pciAddress, PciPorts.dword]

end

end Bethany
