import Bethany.Memory.MapWindow
import Bethany.Storage.Nvme

/-!
# The limits of the NVMe controller

The register CAP says how many entries a queue of the controller may have, one less than that in
bits 0 to 15, and which page sizes it can work with, in bits 48 to 51 and 52 to 55.
`nvme_parse_cap` takes these fields apart.  No other function looks at what it stores of them.

* `nvmeParseCap`, `nvmeAdminQueueInit`, `nvmeInitQueues`: `nvme_init` up to its call of
  `nvme_enable_controller`;
* `nvmeEnableController`, `nvmeControllerStart`, `nvmeCreateIoCq`, `nvmeCreateIoSq`: the sizes
  that the driver goes on to program;
* `NvmeFits`: the controller allows these sizes;
* `nvmeInitQueues_outcome`: how far `nvme_init` gets with the free pages that there are;
* `nvmeLimits_iff`: the registers and states for which `nvme_init` keeps to the limits.
-/

namespace Bethany

open Machine

/-! ### The source -/

/-- `nvme_capabilities_t`. -/
structure NvmeCapabilities where
  mqes : ℕ
  timeout : ℕ
  doorbellStride : ℕ
  minPageShift : ℕ
  maxPageShift : ℕ
deriving DecidableEq

/-- `nvme_parse_cap`; `mqes` has 16 bits and the others have 8. -/
def nvmeParseCap (cap : ℕ) : NvmeCapabilities where
  mqes := ((cap &&& 0xFFFF) + 1) % 2 ^ 16
  timeout := ((cap >>> 24) &&& 0xFF) % 2 ^ 8
  doorbellStride := ((cap >>> 32) &&& 0xF) % 2 ^ 8
  minPageShift := (12 + ((cap >>> 48) &&& 0xF)) % 2 ^ 8
  maxPageShift := (12 + ((cap >>> 52) &&& 0xF)) % 2 ^ 8

/-- `nvme_controller_t`, the fields that are set before the controller is enabled. -/
structure NvmeController where
  bar0 : ℕ
  mmio : ℕ
  cap : ℕ
  version : ℕ
  csts : ℕ
  caps : NvmeCapabilities
  adminSqPhys : ℕ
  adminCqPhys : ℕ
  sqTail : ℕ
  cqHead : ℕ
  adminQueueSize : ℕ

/-- The memory, `controller`, and the values written to registers so far, the latest first. -/
structure NvmeStart where
  vmm : Vmm
  controller : NvmeController
  writes : List (ℕ × ℕ)

/-- `nvme_write32`, `nvme_write64`, at an offset within the window that is mapped. -/
def NvmeStart.write (s : NvmeStart) (offset value : ℕ) : NvmeStart :=
  { s with writes := (offset, value) :: s.writes }

/-- `pmm_alloc_page` -/
def NvmeStart.allocPage (s : NvmeStart) : ℕ × NvmeStart :=
  ((pmmAllocPage s.vmm.pmm).1, { s with vmm := { s.vmm with pmm := (pmmAllocPage s.vmm.pmm).2 } })

/-- `memset(vmm_phys_to_virt(phys), 0, PAGE_SIZE)` -/
def NvmeStart.clearPage (s : NvmeStart) (phys : ℕ) : NvmeStart :=
  let ptr := u64 (phys + s.vmm.hhdmOffset)
  { s with vmm := { s.vmm with mem := memset s.vmm.mem (physOf s.vmm ptr) 0 pageSize } }

/-- `nvme_admin_queue_init` -/
def nvmeAdminQueueInit (s : NvmeStart) : Bool × NvmeStart :=
  let (sqPhys, s) := s.allocPage
  let (cqPhys, s) := s.allocPage
  if sqPhys = null ∨ cqPhys = null then (false, s)
  else
    let s := (s.clearPage sqPhys).clearPage cqPhys
    (true, { s with controller := { s.controller with
      adminSqPhys := sqPhys
      adminCqPhys := cqPhys
      sqTail := 0
      cqHead := 0
      adminQueueSize := 64 } })

/-- `nvme_init` up to its call of `nvme_enable_controller`: whether it gets there, or returns
false, or nothing when its first access to the registers is a page fault.  `found` is `pci_bar` of
the controller, if `pci_find` finds one, and `registers` gives what the controller answers at each
offset. -/
def nvmeInitQueues (s : NvmeStart) (found : Option ℕ) (registers : ℕ → ℕ) :
    Option (Bool × NvmeStart) :=
  match found with
  | none => some (false, s)
  | some bar0 =>
    let s := { s with
      vmm := vmmMapRange s.vmm nvmeMmio bar0 nvmeMmioSize nvmeFlags
      controller := { s.controller with
        bar0 := bar0
        mmio := nvmeMmio } }
    -- all registers but the doorbells are on the first page of the window
    if s.vmm.Mapped nvmeMmio then
      let s := { s with controller := { s.controller with
        cap := registers 0x00
        version := registers 0x08
        csts := registers 0x1C
        caps := nvmeParseCap (registers 0x00) } }
      some (nvmeAdminQueueInit (s.write 0x0C 0xFFFFFFFF))
    else none

/-- `aqa` in `nvme_enable_controller` -/
def nvmeAqa : ℕ := ((64 - 1) &&& 0xFFF) <<< 16 ||| ((64 - 1) &&& 0xFFF)

/-- `nvme_enable_controller`, after `nvme_disable_controller`. -/
def nvmeEnableController (s : NvmeStart) : NvmeStart :=
  ((s.write 0x24 nvmeAqa).write 0x28 s.controller.adminSqPhys).write 0x30 s.controller.adminCqPhys

/-- `cc` in `nvme_controller_start` -/
def nvmeCc : ℕ := 6 <<< 16 ||| 4 <<< 20 ||| 1

/-- `nvme_controller_start`, before it waits. -/
def nvmeControllerStart (s : NvmeStart) : NvmeStart := s.write 0x14 nvmeCc

/-- The command of `nvme_create_io_cq`. -/
def nvmeCreateIoCq (c : Nvme) (ioCqPhys : ℕ) : NvmeCommand :=
  { opcode := 0x05
    commandId := 3
    prp1 := ioCqPhys
    cdw10 := (c.ioQueueSize - 1) <<< 16 ||| 1
    cdw11 := 1 ||| 1 <<< 1 }

/-- The command of `nvme_create_io_sq`. -/
def nvmeCreateIoSq (c : Nvme) (ioSqPhys : ℕ) : NvmeCommand :=
  { opcode := 0x01
    commandId := 4
    prp1 := ioSqPhys
    cdw10 := (c.ioQueueSize - 1) <<< 16 ||| 1
    cdw11 := 1 ||| 1 <<< 16 }

/-! ### What the controller makes of it -/

/-- MQES: the most entries of a queue, less one. -/
def mqesOf (cap : ℕ) : ℕ := cap % 2 ^ 16

/-- MPSMIN: the smallest page size is that of 4 KiB shifted by it. -/
def mpsMin (cap : ℕ) : ℕ := cap / 2 ^ 48 % 2 ^ 4

/-- The two sizes in AQA. -/
def aqaSizes (aqa : ℕ) : List ℕ := [(aqa &&& 0xFFF) + 1, ((aqa >>> 16) &&& 0xFFF) + 1]

/-- The size in a command that creates an I/O queue. -/
def NvmeCommand.queueSize (command : NvmeCommand) : ℕ := (command.cdw10 >>> 16) + 1

/-- MPS of CC as the shift of a page size. -/
def ccPageShift (cc : ℕ) : ℕ := 12 + ((cc >>> 7) &&& 0xF)

/-- What has been written last to a register. -/
def NvmeStart.register (s : NvmeStart) (offset : ℕ) : ℕ := (s.writes.lookup offset).getD 0

/-- After `nvme_enable_controller` and `nvme_controller_start`. -/
def NvmeStart.started (s : NvmeStart) : NvmeStart := nvmeControllerStart (nvmeEnableController s)

/-- The queue sizes that the driver programs, for the admin queues and for the I/O queues. -/
def nvmeQueueSizes (s : NvmeStart) (c : Nvme) (ioCqPhys ioSqPhys : ℕ) : List ℕ :=
  aqaSizes (s.started.register 0x24) ++ [(nvmeCreateIoCq (nvmeIoQueueInit c) ioCqPhys).queueSize,
    (nvmeCreateIoSq (nvmeIoQueueInit c) ioSqPhys).queueSize]

/-- The controller with this CAP allows what the driver programs. -/
structure NvmeFits (cap : ℕ) : Prop where
  queues : ∀ s c ioCqPhys ioSqPhys, ∀ size ∈ nvmeQueueSizes s c ioCqPhys ioSqPhys,
    size ≤ mqesOf cap + 1
  minPage : ∀ s : NvmeStart,
    2 ^ (nvmeParseCap cap).minPageShift ≤ 2 ^ ccPageShift (s.started.register 0x14)
  maxPage : ∀ s : NvmeStart,
    2 ^ ccPageShift (s.started.register 0x14) ≤ 2 ^ (nvmeParseCap cap).maxPageShift

/-- `nvme_init` gets to `nvme_enable_controller` (`true`), returns false, or ends in a page
fault. -/
def NvmeStart.outcome (s : NvmeStart) (found : Option ℕ) (registers : ℕ → ℕ) : Option Bool :=
  (nvmeInitQueues s found registers).map Prod.fst

/-- `nvme_parse_cap` stores the number of entries that CAP allows, and `nvme_init` gets to
`nvme_enable_controller` only if CAP allows what it is going to program, and returns false
otherwise. -/
def NvmeStart.KeepsLimits (s : NvmeStart) (found : Option ℕ) (registers : ℕ → ℕ) : Prop :=
  (nvmeParseCap (registers 0x00)).mqes = mqesOf (registers 0x00) + 1 ∧
    (s.outcome found registers = some true → NvmeFits (registers 0x00)) ∧
    (¬ NvmeFits (registers 0x00) → s.outcome found registers = some false)

variable {s : NvmeStart} {found : Option ℕ} {registers : ℕ → ℕ} {bar0 cap top root : ℕ}
  {keep : ℕ → Bool}

/-! ### The condition -/

theorem nvmeParseCap_mqes (cap : ℕ) : (nvmeParseCap cap).mqes = (mqesOf cap + 1) % 2 ^ 16 := by
  simp only [nvmeParseCap, mqesOf]
  rw [show (0xFFFF : ℕ) = 2 ^ 16 - 1 by norm_num, Nat.and_two_pow_sub_one_eq_mod]

theorem nvmeParseCap_minPageShift (cap : ℕ) :
    (nvmeParseCap cap).minPageShift = 12 + mpsMin cap := by
  simp only [nvmeParseCap, mpsMin]
  rw [show (0xF : ℕ) = 2 ^ 4 - 1 by norm_num, Nat.and_two_pow_sub_one_eq_mod,
    Nat.shiftRight_eq_div_pow]
  omega

theorem nvmeParseCap_maxPageShift (cap : ℕ) : 12 ≤ (nvmeParseCap cap).maxPageShift := by
  have hle : (cap >>> 52) &&& 0xF ≤ 0xF := Nat.and_le_right
  simp only [nvmeParseCap]
  omega

/-- The controller is started with these sizes in its registers AQA and CC. -/
theorem nvmeControllerStart_writes (s : NvmeStart) :
    s.started.register 0x24 = nvmeAqa ∧ s.started.register 0x14 = nvmeCc := ⟨rfl, rfl⟩

/-- All queues get 64 entries. -/
theorem nvmeQueueSizes_eq (s : NvmeStart) (c : Nvme) (ioCqPhys ioSqPhys : ℕ) :
    nvmeQueueSizes s c ioCqPhys ioSqPhys = [64, 64, 64, 64] := by
  have haqa : aqaSizes (s.started.register 0x24) = [64, 64] := by
    rw [(nvmeControllerStart_writes s).1]
    decide
  have hcreate : ((64 - 1) <<< 16 ||| 1) >>> 16 + 1 = 64 := by decide
  simp only [nvmeQueueSizes, haqa, NvmeCommand.queueSize, nvmeCreateIoCq, nvmeCreateIoSq,
    nvmeIoQueueInit, hcreate]
  rfl

/-- Pages have `2 ^ 12` bytes. -/
theorem ccPageShift_started (s : NvmeStart) : ccPageShift (s.started.register 0x14) = 12 := by
  rw [(nvmeControllerStart_writes s).2]
  decide

theorem mqes_eq_iff : (nvmeParseCap cap).mqes = mqesOf cap + 1 ↔ mqesOf cap ≠ 0xFFFF := by
  have hlt : mqesOf cap < 2 ^ 16 := Nat.mod_lt _ (by norm_num)
  rw [nvmeParseCap_mqes]
  omega

/-- The state before `nvme_init`. -/
def exampleStart : NvmeStart where
  vmm := exampleVmm
  controller := ⟨0, 0, 0, 0, 0, nvmeParseCap 0, 0, 0, 0, 0, 0⟩
  writes := []

theorem nvmeFits_iff : NvmeFits cap ↔ 63 ≤ mqesOf cap ∧ mpsMin cap = 0 := by
  constructor
  · intro h
    have hqueue := h.queues exampleStart ⟨0, 0, fun _ => {}, fun _ => {}, 0, 0, 0, fun _ => 0⟩
      0 0 64 (by rw [nvmeQueueSizes_eq]; simp)
    have hpage := (Nat.pow_le_pow_iff_right (by norm_num)).mp (h.minPage exampleStart)
    rw [nvmeParseCap_minPageShift, ccPageShift_started] at hpage
    omega
  · rintro ⟨hqueue, hpage⟩
    refine ⟨fun s c ioCqPhys ioSqPhys size hsize => ?_, fun s => ?_, fun s => ?_⟩
    · rw [nvmeQueueSizes_eq] at hsize
      have : size = 64 := by simpa using hsize
      omega
    · rw [nvmeParseCap_minPageShift, hpage, ccPageShift_started]
    · rw [ccPageShift_started]
      exact Nat.pow_le_pow_right (by norm_num) (nvmeParseCap_maxPageShift cap)

/-! ### How far `nvme_init` gets -/

/-- The admin queues take two pages. -/
theorem nvmeAdminQueueInit_fst (hwf : s.vmm.pmm.WF top) (htop : top ≤ 2 ^ 64)
    (hnull : ¬ s.vmm.pmm.Free null) :
    (nvmeAdminQueueInit s).1 = decide (2 ≤ s.vmm.pmm.freePages) := by
  have hresult : (nvmeAdminQueueInit s).1 = decide (¬ ((pmmAllocPage s.vmm.pmm).1 = null ∨
      (pmmAllocPage (pmmAllocPage s.vmm.pmm).2).1 = null)) := by
    simp only [nvmeAdminQueueInit, NvmeStart.allocPage]
    split_ifs with h <;> simp [h]
  rw [hresult, decide_eq_decide]
  rcases hwf.alloc_count htop hnull with ⟨hzero, halloc⟩ | ⟨hne, hcount⟩
  · rw [halloc]
    exact iff_of_false (fun h => h (.inl rfl)) (by omega)
  · have hwf' := hwf.takes (.alloc s.vmm.pmm)
    have hnull' : ¬ (pmmAllocPage s.vmm.pmm).2.Free null :=
      fun hfree => hnull ((Pmm.Takes.alloc _).free hfree)
    rcases hwf'.alloc_count htop hnull' with ⟨hzero, halloc⟩ | ⟨hne', hcount'⟩
    · rw [halloc]
      exact iff_of_false (fun h => h (.inr rfl)) (by omega)
    · exact iff_of_true (not_or.mpr ⟨hne, hne'⟩) (by omega)

/-- The window lies within one page table. -/
theorem nvmeMmio_tablePath (k : ℕ) (hk : k < (nvmeMmioSize + pageSize - 1) / pageSize) :
    tablePath (nvmeMmio + k * pageSize) = tablePath nvmeMmio := by
  rw [nvmeMmioPages] at hk
  rw [tablePath_eq_iff]
  interval_cases k <;> decide

/-- The window is mapped exactly if there is a page for each table that is missing for it. -/
theorem nvmeMmio_mapped (htree : PageTree (s.vmm.only root keep) top root)
    (hkeep : keep (pml4Index nvmeMmio) = true) (hnull : ¬ s.vmm.pmm.Free null) (bar0 : ℕ) :
    ((vmmMapRange s.vmm nvmeMmio bar0 nvmeMmioSize nvmeFlags).Mapped nvmeMmio ↔
        missingTables s.vmm nvmeMmio ≤ s.vmm.pmm.freePages) ∧
      (missingTables s.vmm nvmeMmio ≤ s.vmm.pmm.freePages →
        (vmmMapRange s.vmm nvmeMmio bar0 nvmeMmioSize nvmeFlags).pmm.freePages +
          missingTables s.vmm nvmeMmio = s.vmm.pmm.freePages) :=
  vmmMapRange_window htree hkeep hnull (by decide) (by decide) (by decide) (by decide)
    nvmeMmio_tablePath

/-- **How far `nvme_init` gets**: it needs the missing tables of the window, or it ends in a page
fault, and two pages besides, or it returns false. -/
theorem nvmeInitQueues_outcome (htree : PageTree (s.vmm.only root keep) top root)
    (hkeep : keep (pml4Index nvmeMmio) = true) (hnull : ¬ s.vmm.pmm.Free null) :
    s.outcome found registers =
      if found = none then some false
      else if missingTables s.vmm nvmeMmio ≤ s.vmm.pmm.freePages then
        some (decide (missingTables s.vmm nvmeMmio + 2 ≤ s.vmm.pmm.freePages))
      else none := by
  cases found with
  | none => rfl
  | some bar0 =>
    obtain ⟨hmapped, hcount⟩ := nvmeMmio_mapped htree hkeep hnull bar0
    have htakes : s.vmm.pmm.Takes (vmmMapRange s.vmm nvmeMmio bar0 nvmeMmioSize nvmeFlags).pmm :=
      takes_mapRangeLoop ..
    have hwf := Pmm.WF.takes htree.pmm htakes
    have htop : top ≤ 2 ^ 64 := htree.directMap.top_le.trans (by norm_num)
    rw [if_neg (Option.some_ne_none bar0)]
    simp only [NvmeStart.outcome, nvmeInitQueues, hmapped]
    split_ifs with hroom
    · have hpages := hcount hroom
      have hfst := nvmeAdminQueueInit_fst (s := NvmeStart.write { s with
        vmm := vmmMapRange s.vmm nvmeMmio bar0 nvmeMmioSize nvmeFlags
        controller := { s.controller with
          bar0 := bar0
          mmio := nvmeMmio
          cap := registers 0x00
          version := registers 0x08
          csts := registers 0x1C
          caps := nvmeParseCap (registers 0x00) } } 0x0C 0xFFFFFFFF) hwf htop
        fun hfree => hnull (htakes.free hfree)
      rw [Option.map_some, hfst]
      refine congrArg some (decide_eq_decide.mpr ?_)
      show 2 ≤ (vmmMapRange s.vmm nvmeMmio bar0 nvmeMmioSize nvmeFlags).pmm.freePages ↔ _
      omega
    · rfl

/-- **The limits of the controller** are kept to exactly if MQES is not `0xFFFF`, and the queues
may have 64 entries and the pages 4 KiB, or `nvme_init` returns false for want of a controller or
of memory: there are pages for the missing tables of the window, but not two more.  The tables for
the window form a tree, and page 0 is not free. -/
theorem nvmeLimits_iff (htree : PageTree (s.vmm.only root keep) top root)
    (hkeep : keep (pml4Index nvmeMmio) = true) (hnull : ¬ s.vmm.pmm.Free null) :
    s.KeepsLimits found registers ↔
      mqesOf (registers 0x00) ≠ 0xFFFF ∧
        ((63 ≤ mqesOf (registers 0x00) ∧ mpsMin (registers 0x00) = 0) ∨ found = none ∨
          (missingTables s.vmm nvmeMmio ≤ s.vmm.pmm.freePages ∧
            s.vmm.pmm.freePages < missingTables s.vmm nvmeMmio + 2)) := by
  rw [NvmeStart.KeepsLimits, mqes_eq_iff, nvmeFits_iff, nvmeInitQueues_outcome htree hkeep hnull]
  refine and_congr_right fun _ => ?_
  by_cases hfits : 63 ≤ mqesOf (registers 0x00) ∧ mpsMin (registers 0x00) = 0
  · exact iff_of_true ⟨fun _ => hfits, fun hno => absurd hfits hno⟩ (.inl hfits)
  · rw [or_iff_right hfits]
    split_ifs with hfound hroom
    · simp [hfound]
    · simp [hfits, hfound, hroom]
    · simp [hfits, hfound, hroom]

/-- A controller with MQES 63 and pages of 4 KiB is within its limits, and one with MQES 15 is
given queues that are too long. -/
theorem nvmeLimits_iff_example :
    exampleStart.KeepsLimits (some 0xFEBD4000) (fun _ => 63) ∧
      ¬ exampleStart.KeepsLimits (some 0xFEBD4000) (fun _ => 15) := by
  have htree : PageTree (exampleStart.vmm.only 0x1000 fun _ => true) 0xa000 0x1000 := by
    rw [Vmm.only_all]
    exact exampleVmm_tree
  constructor
  · exact (nvmeLimits_iff htree rfl exampleVmm_notNull).mpr ⟨by decide, .inl ⟨by decide, by decide⟩⟩
  · rw [nvmeLimits_iff htree rfl exampleVmm_notNull]
    decide

/-- A controller whose queues may have 65536 entries: what is stored is zero. -/
theorem nvmeLimits_truncated : ¬ exampleStart.KeepsLimits (some 0xFEBD4000)
    fun offset => if offset = 0x00 then 0x200F00FFFF else 0 := by
  rintro ⟨hmqes, -⟩
  exact absurd hmqes (by decide)

end Bethany
