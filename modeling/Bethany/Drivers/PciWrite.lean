import Bethany.Drivers.PciScan

/-!
# Half-words of the configuration space

`pci_write16` writes a half of a dword by writing the whole dword, with the other half as it was
read.  The other half of the command register is the status register, some bits of which a one
clears.

* `pciEnableDevice`: `pci_enable_device`;
* `TouchesOnly`: what a write of a half-word is to leave as it was;
* `touchesOnly_pciWrite16_iff`: it does exactly if no such bit is in the other half, and set;
* `Enables`: what `pci_enable_device` is to do; `enables_iff`;
* `pciWrite16_frame`: both, in terms of the status register.
-/

namespace Bethany

open Machine RegisterBits

/-- `PCI_CMD_MEM_SPACE`. -/
def pciCmdMemSpace : BitVec 16 := 1 <<< 1

/-- `PCI_CMD_BUS_MASTER`. -/
def pciCmdBusMaster : BitVec 16 := 1 <<< 2

/-- `pci_enable_device`; no device is `NULL`. -/
def pciEnableDevice (p : PciPorts) : Option PciDevice → PciPorts
  | none => p
  | some d =>
    let cmd := pciRead16 p d.bus d.device d.function 0x04
    let enabled := cmd.1 ||| (pciCmdMemSpace ||| pciCmdBusMaster) ||| 1 <<< 10
    pciWrite16 cmd.2 d.bus d.device d.function 0x04 enabled

/-- The half of a dword that an offset is not in. -/
def otherHalf (offset : Byte) (x : BitVec 32) : BitVec 16 :=
  x.extractLsb' (16 - (offset &&& 2).toNat * 8) 16

/-- The command register. -/
def ConfigSpace.command (space : ConfigSpace) (f : PciFunction) : BitVec 16 :=
  (space f 1).extractLsb' 0 16

/-- The status register. -/
def ConfigSpace.status (space : ConfigSpace) (f : PciFunction) : BitVec 16 :=
  (space f 1).extractLsb' 16 16

/-- All but the half-word at an offset is as it was. -/
structure TouchesOnly (f : PciFunction) (offset : Byte) (space space' : ConfigSpace) : Prop where
  other_half : otherHalf offset (space' f (offset.extractLsb' 2 6)) =
    otherHalf offset (space f (offset.extractLsb' 2 6))
  other_dwords : ∀ g reg, (g, reg) ≠ (f, offset.extractLsb' 2 6) → space' g reg = space g reg

/-- The bits 1, 2 and 10 of the command register are set, and all else is as it was. -/
structure Enables (f : PciFunction) (space space' : ConfigSpace) : Prop where
  command : space'.command f = space.command f ||| 0x0406
  touches : TouchesOnly f 0x04 space space'

variable {p : PciPorts} {space : ConfigSpace} {f : PciFunction} {reg : BitVec 6} {x : BitVec 32}
  {bus device function offset : Byte} {value : BitVec 16}

theorem ConfigSpace.set_same : space.set f reg x f reg = x := by
  simp [ConfigSpace.set]

theorem ConfigSpace.set_other {g : PciFunction} {reg' : BitVec 6} (hne : (g, reg') ≠ (f, reg)) :
    space.set f reg x g reg' = space g reg' := by
  rw [ConfigSpace.set]
  rcases eq_or_ne g f with rfl | hg
  · have hreg : reg' ≠ reg := fun heq => hne (by rw [heq])
    simp [hreg]
  · simp [hg]

/-- `pci_write16` writes the dword with the value in the half at the offset. -/
theorem space_pciWrite16 :
    (pciWrite16 p bus device function offset value).space =
      p.space.set (.of bus device function) (offset.extractLsb' 2 6)
        ((configRegister (offset.extractLsb' 2 6)).write (p.dword bus device function offset)
          (insert ((offset &&& 2).toNat * 8) (p.dword bus device function offset) value)) := by
  have hmask : (0xFFFF#32) = (BitVec.allOnes 16).setWidth 32 := rfl
  simp only [pciWrite16, pciRead32_eq, space_pciWrite32, hmask]
  rfl

/-- The other half of the dword keeps its bits, exactly if none is set that a one clears. -/
theorem touchesOnly_pciWrite16_iff :
    TouchesOnly (.of bus device function) offset p.space
        (pciWrite16 p bus device function offset value).space ↔
      otherHalf offset (p.dword bus device function offset) &&&
        otherHalf offset (configRegister (offset.extractLsb' 2 6)).clear = 0 := by
  have hshift := shift_cases offset
  have hiff : otherHalf offset ((configRegister (offset.extractLsb' 2 6)).write
        (p.dword bus device function offset)
        (insert ((offset &&& 2).toNat * 8) (p.dword bus device function offset) value)) =
      otherHalf offset (p.dword bus device function offset) ↔
      otherHalf offset (p.dword bus device function offset) &&&
        otherHalf offset (configRegister (offset.extractLsb' 2 6)).clear = 0 :=
    Register.write_insert_iff _ (by omega) (by omega)
  rw [← hiff, space_pciWrite16]
  constructor
  · intro h
    have hhalf := h.other_half
    rw [ConfigSpace.set_same] at hhalf
    exact hhalf
  · intro h
    refine ⟨?_, fun g reg hne => ConfigSpace.set_other hne⟩
    rw [ConfigSpace.set_same]
    exact h

/-- Only the command register shares its dword with bits that a one clears. -/
theorem otherHalf_clear (heven : offset &&& 1 = 0) :
    otherHalf offset (configRegister (offset.extractLsb' 2 6)).clear =
      if offset = 4 then statusClear else 0 := by
  revert offset
  decide

/-- `pci_write16` at an even offset, in terms of the status register. -/
theorem touchesOnly_pciWrite16_even_iff (p : PciPorts) (bus device function : Byte)
    (value : BitVec 16) (heven : offset &&& 1 = 0) :
    TouchesOnly (.of bus device function) offset p.space
        (pciWrite16 p bus device function offset value).space ↔
      ¬ (offset = 4 ∧ p.space.status (.of bus device function) &&& statusClear ≠ 0) := by
  rw [touchesOnly_pciWrite16_iff, otherHalf_clear heven]
  split_ifs with hfour
  · subst hfour
    simp only [ne_eq, true_and, not_not]
    rfl
  · exact iff_of_true BitVec.and_zero fun h => hfour h.1

/-- The command register takes the value that `pci_write16` writes to it. -/
theorem command_pciWrite16 :
    (pciWrite16 p bus device function 0x04 value).space.command (.of bus device function) =
      value := by
  have hreg : (0x04 : Byte).extractLsb' 2 6 = 1 := rfl
  have hshift : ((0x04 : Byte) &&& 2).toNat * 8 = 0 := rfl
  rw [space_pciWrite16, hreg, hshift, ConfigSpace.command, ConfigSpace.set_same,
    Register.extract_write, Register.write_plain rfl, extract_insert (by norm_num)]

/-- `pci_enable_device` writes the command register with three more bits. -/
theorem pciEnableDevice_some (d : PciDevice) :
    pciEnableDevice p (some d) =
      pciWrite16 (p.select d.bus d.device d.function 0x04) d.bus d.device d.function 0x04
        (p.space.command (.of d.bus d.device d.function) ||| 0x0406) := by
  have hbits : (pciCmdMemSpace ||| pciCmdBusMaster) ||| 1 <<< 10 = 0x0406 := rfl
  have hhalf : half 0x04 (p.dword d.bus d.device d.function 0x04) =
      p.space.command (.of d.bus d.device d.function) := rfl
  simp only [pciEnableDevice, pciRead16_eq, BitVec.or_assoc, hhalf]
  rw [← hbits, BitVec.or_assoc]

/-- `pci_enable_device` does what it is to do exactly if no bit of the status register is set that
a one clears. -/
theorem enables_pciEnableDevice_iff (d : PciDevice) :
    Enables (.of d.bus d.device d.function) p.space (pciEnableDevice p (some d)).space ↔
      p.space.status (.of d.bus d.device d.function) &&& statusClear = 0 := by
  have hwrite (value : BitVec 16) :=
    touchesOnly_pciWrite16_even_iff (p.select d.bus d.device d.function 0x04) d.bus d.device
      d.function value (rfl : (0x04 : Byte) &&& 1 = 0)
  rw [pciEnableDevice_some]
  constructor
  · intro h
    by_contra hne
    exact (hwrite _).mp h.touches ⟨rfl, hne⟩
  · intro hzero
    exact ⟨command_pciWrite16, (hwrite _).mpr fun h => h.2 hzero⟩

/-- **What a write of a half-word touches.**  The rest of the configuration space stays as it was
exactly if it is not the command register that is written to while a bit of the status register is
set that a one clears; the same for `pci_enable_device`. -/
theorem pciWrite16_frame (p : PciPorts) :
    (∀ (bus device function offset : Byte) (value : BitVec 16), offset &&& 1 = 0 →
      (TouchesOnly (.of bus device function) offset p.space
          (pciWrite16 p bus device function offset value).space ↔
        ¬ (offset = 0x04 ∧ p.space.status (.of bus device function) &&& statusClear ≠ 0))) ∧
    ∀ d : PciDevice,
      (Enables (.of d.bus d.device d.function) p.space (pciEnableDevice p (some d)).space ↔
        p.space.status (.of d.bus d.device d.function) &&& statusClear = 0) :=
  ⟨fun bus device function _ value heven =>
    touchesOnly_pciWrite16_even_iff p bus device function value heven,
    enables_pciEnableDevice_iff⟩

/-- With a master abort in the status register (bit 13) it does not: the bit is gone. -/
theorem pciEnableDevice_clears_status :
    let p : PciPorts := ⟨0, fun _ reg => if reg = 1 then 0x20100003 else 0⟩
    let d : PciDevice := ⟨0, 0, 0, 0, 0, 1, 8, 2, 0⟩
    p.space.status (.of 0 0 0) = 0x2010 ∧
      (pciWrite16 p 0 0 0 0x04 0x0407).space.status (.of 0 0 0) = 0x0010 ∧
      ¬ TouchesOnly (.of 0 0 0) 0x04 p.space (pciWrite16 p 0 0 0 0x04 0x0407).space ∧
      (pciEnableDevice p (some d)).space.status (.of 0 0 0) = 0x0010 ∧
      ¬ Enables (.of 0 0 0) p.space (pciEnableDevice p (some d)).space := by
  intro p d
  have hset : p.space.status (.of 0 0 0) &&& statusClear ≠ 0 := by decide
  refine ⟨by decide, by decide, fun h => ?_, by decide, fun h => ?_⟩
  · exact (touchesOnly_pciWrite16_even_iff p 0 0 0 0x0407 rfl).mp h ⟨rfl, hset⟩
  · exact hset ((enables_pciEnableDevice_iff d).mp h)

/-- With no such bit set it does. -/
theorem pciWrite16_frame_clean :
    let p : PciPorts := ⟨0, fun _ reg => if reg = 1 then 0x00100003 else 0⟩
    let d : PciDevice := ⟨0, 0, 0, 0, 0, 1, 8, 2, 0⟩
    TouchesOnly (.of 0 0 0) 0x04 p.space (pciWrite16 p 0 0 0 0x04 0x0407).space ∧
      Enables (.of 0 0 0) p.space (pciEnableDevice p (some d)).space := by
  intro p d
  have hclean : p.space.status (.of 0 0 0) &&& statusClear = 0 := by decide
  obtain ⟨hwrite, henable⟩ := pciWrite16_frame p
  exact ⟨(hwrite 0 0 0 0x04 0x0407 rfl).mpr fun h => h.2 hclean, (henable d).mpr hclean⟩

end Bethany
