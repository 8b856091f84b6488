import Bethany.Drivers.PciBar
import Bethany.Storage.NvmeLimits
import Bethany.Storage.NvmeDma

/-!
# The start of the NVMe driver

`nvme_init` looks for a controller, resets it, and gives it four admin commands, one after the
other: it identifies the controller and its namespace, and creates the two I/O queues.  For each
command it looks at one slot of the admin completion ring until that slot shows the id of the
command.  The controller runs beside it.

* `nvmeFind`: the first lines of `nvme_init`, with `pci.c`;
* `NvmeSetup`, `NvmeDevice`: the driver and the controller;
* `nvmeAdminSubmit`, `nvmeWaitFound`, `nvmeWaitFinish`, `NvmeSetup.next`: the driver between two
  looks at a register or at a ring;
* `NvmeSetup.exec`: one look of the driver, or one action of the controller;
* `nvmeFind_spec`: which function of the bus is found, and with which address.
-/

namespace Bethany

open Machine RegisterBits BoundedTable

/-! ### The source -/

/-- `nvme_init` up to `pci_bar`: the device and its `bar0`, if there is one. -/
def nvmeFind (s : Pci) : Option (PciDevice × BitVec 64) × Pci :=
  match (pciFind s 0x01 0x08).bind fun i => s.devices[i]? with
  | none => (none, s)
  | some pci =>
    let enabled := pciEnableDevice s.ports (some pci)
    let bar0 := pciBar enabled (some pci) 0
    (some (pci, bar0.1), { s with ports := bar0.2 })

/-- What the controller has answered to a command: the status, and the data that it has put
before into the page of the command. -/
structure NvmeAnswer where
  command : NvmeCommand
  status : ℕ
  data : Mem

/-- The controller: whether it has the admin queues of the driver, the doorbell of the submission
queue, its places in the two rings, the commands that it has taken and not yet completed, and its
answers so far. -/
structure NvmeDevice where
  enabled : Bool
  sqTail : ℕ
  sqHead : ℕ
  cqTail : ℕ
  taken : List NvmeCommand
  answers : List NvmeAnswer

/-- The admin commands of `nvme_init`. -/
inductive NvmeStage
  | identifyController
  | identifyNamespace
  | createIoCq
  | createIoSq
deriving DecidableEq

/-- Where `nvme_init` is: in the loop of `nvme_disable_controller`, of `nvme_controller_start` or
of `nvme_wait_completion`, or past its end; or it has touched an address where it has not mapped
the registers, which is a page fault unless the heap has a page there. -/
inductive NvmeSetupPhase
  | disabling
  | starting
  | waiting (stage : NvmeStage)
  | returned (result : Bool)
  | faulted
deriving DecidableEq

/-- `controller` with the memory, and the controller beside them.  `io` has the fields for I/O
calls, and `registered` says whether it is the block device of `block.c`. -/
structure NvmeSetup where
  start : NvmeStart
  adminSq : ℕ → NvmeCommand
  adminCq : ℕ → NvmeCompletion
  identifyBuffer : ℕ
  identifyBufferPhys : ℕ
  ioSqPhys : ℕ
  ioCqPhys : ℕ
  io : Nvme
  blockCount : ℕ
  registered : Bool
  phase : NvmeSetupPhase
  device : NvmeDevice

/-- `nvme_admin_submit`, up to its call of `nvme_wait_completion`.  Its doorbell is the first one,
at the beginning of the second page of the window. -/
def nvmeAdminSubmit (s : NvmeSetup) (command : NvmeCommand) : NvmeSetup :=
  let slot := s.start.controller.sqTail
  let sqTail := ringNext s.start.controller.adminQueueSize slot
  let start := { s.start with controller := { s.start.controller with sqTail := sqTail } }
  { s with
    adminSq := Function.update s.adminSq slot command
    start := start.write (nvmeDoorbellOffset s.io 0 false) sqTail
    device := { s.device with sqTail := sqTail } }

/-- The slot that `nvme_wait_completion` looks at. -/
def NvmeSetup.cqe (s : NvmeSetup) : NvmeCompletion := s.adminCq s.start.controller.cqHead

/-- The loop of `nvme_wait_completion` ends when this holds. -/
def nvmeWaitFound (s : NvmeSetup) (cid : ℕ) : Bool := s.cqe.commandId == cid

/-- `nvme_wait_completion` after its loop; nothing if the doorbell that it writes lies behind the
window. -/
def nvmeWaitFinish (s : NvmeSetup) : Option (Bool × NvmeSetup) :=
  let status := s.cqe.status >>> 1
  if status ≠ 0 then some (false, s)
  else
    let cqHead := ringNext s.start.controller.adminQueueSize s.start.controller.cqHead
    let start := { s.start with controller := { s.start.controller with cqHead := cqHead } }
    let offset := nvmeDoorbellOffset s.io 0 true
    if offset < nvmeMmioSize then some (true, { s with start := start.write offset cqHead })
    else none

/-- `nvme_alloc_identify_buffer` -/
def nvmeAllocIdentifyBuffer (s : NvmeSetup) : Bool × NvmeSetup :=
  if s.identifyBuffer ≠ null then (true, s)
  else
    let (phys, start) := s.start.allocPage
    if phys = null then (false, { s with start := start })
    else
      (true, { s with
        start := start
        identifyBufferPhys := phys
        identifyBuffer := u64 (phys + start.vmm.hhdmOffset) })

/-- `memset(controller.identify_buffer, 0, PAGE_SIZE)` -/
def NvmeSetup.clearIdentifyBuffer (s : NvmeSetup) : NvmeSetup :=
  let vmm := s.start.vmm
  let mem := memset vmm.mem (physOf vmm s.identifyBuffer) 0 pageSize
  { s with start := { s.start with vmm := { vmm with mem := mem } } }

/-- The command of each stage. -/
def NvmeSetup.command (s : NvmeSetup) : NvmeStage → NvmeCommand
  | .identifyController =>
    { opcode := 0x06, commandId := 1, nsid := 0, prp1 := s.identifyBufferPhys, cdw10 := 1 }
  | .identifyNamespace =>
    { opcode := 0x06, commandId := 2, nsid := 1, prp1 := s.identifyBufferPhys, cdw10 := 0 }
  | .createIoCq => nvmeCreateIoCq s.io s.ioCqPhys
  | .createIoSq => nvmeCreateIoSq s.io s.ioSqPhys

/-- The call of `nvme_admin_submit` of a stage. -/
def NvmeSetup.submit (s : NvmeSetup) (stage : NvmeStage) : NvmeSetup :=
  { nvmeAdminSubmit s (s.command stage) with phase := .waiting stage }

/-- `nvme_identify_controller` -/
def nvmeIdentifyController (s : NvmeSetup) : NvmeSetup :=
  s.clearIdentifyBuffer.submit .identifyController

/-- `nvme_identify_namespace(1)` -/
def nvmeIdentifyNamespace (s : NvmeSetup) : NvmeSetup :=
  s.clearIdentifyBuffer.submit .identifyNamespace

/-- `nvme_io_queue_init`, with its two pages. -/
def nvmeIoQueuePages (s : NvmeSetup) : Bool × NvmeSetup :=
  let (sq, start) := s.start.allocPage
  let (cq, start) := start.allocPage
  if sq = null ∨ cq = null then (false, { s with start := start })
  else
    (true, { s with
      start := (start.clearPage sq).clearPage cq
      ioSqPhys := sq
      ioCqPhys := cq
      io := nvmeIoQueueInit s.io })

/-- `ns->nsze`, `ns->flbas` and `ns->lbaf[format].lbads` of the data at an address. -/
def nsNsze (mem : Mem) (ns : ℕ) : ℕ := load mem ns 8
def nsFlbas (mem : Mem) (ns : ℕ) : ℕ := load mem (ns + 26) 1
def nsLbads (mem : Mem) (ns format : ℕ) : ℕ := load mem (ns + 128 + 4 * format + 2) 1

/-- `1U << ns->lbaf[format].lbads` -/
def nsBlockSize (mem : Mem) (ns : ℕ) : ℕ :=
  let format := nsFlbas mem ns &&& 0xF
  1 <<< nsLbads mem ns format % 2 ^ 32

/-- The end of `nvme_init`, with `block_register`. -/
def nvmeRegister (s : NvmeSetup) : NvmeSetup :=
  let ns := physOf s.start.vmm s.identifyBuffer
  { s with
    io := { s.io with blockSize := nsBlockSize s.start.vmm.mem ns }
    blockCount := nsNsze s.start.vmm.mem ns
    registered := true }

/-- `nvme_init` after the call of a stage has returned true, up to its next loop. -/
def NvmeSetup.next (s : NvmeSetup) : NvmeStage → NvmeSetup
  | .identifyController => nvmeIdentifyNamespace s
  | .identifyNamespace =>
    let (ok, s) := nvmeIoQueuePages s
    if ok then s.submit .createIoCq else { s with phase := .returned false }
  | .createIoCq => s.submit .createIoSq
  | .createIoSq => { nvmeRegister s with phase := .returned true }

/-- The end of `nvme_enable_controller`, and `nvme_controller_start` up to its loop.  The
controller begins anew with the queues that it is given. -/
def NvmeSetup.enable (s : NvmeSetup) : NvmeSetup :=
  { s with
    start := nvmeControllerStart (nvmeEnableController s.start)
    phase := .starting
    device := { s.device with
      enabled := true, sqTail := 0, sqHead := 0, cqTail := 0, taken := [], answers := [] } }

/-- `nvme_init` up to its first loop.  `registers` gives what the controller answers at each
offset. -/
def NvmeSetup.begin (s : NvmeSetup) (found : Option ℕ) (registers : ℕ → ℕ) : NvmeSetup :=
  let device := { s.device with enabled := false, taken := [], answers := [] }
  match nvmeInitQueues s.start found registers with
  | none => { s with device := device, phase := .faulted }
  | some (false, start) => { s with start := start, device := device, phase := .returned false }
  | some (true, start) =>
    let s := { s with
      start := start
      device := device
      adminSq := fun _ => {}
      adminCq := fun _ => {}
      io := { s.io with doorbellStride := start.controller.caps.doorbellStride } }
    let cc := registers 0x14
    if cc &&& 1 = 0 then s.enable
    else { s with start := s.start.write 0x14 (cc &&& 0xFFFFFFFE), phase := .disabling }

/-! ### The driver and the controller together -/

/-- One look of the driver at what it waits for, and what it does then.  `csts` is what a read of
`CSTS` gives. -/
def NvmeSetup.poll (s : NvmeSetup) (csts : ℕ) : NvmeSetup :=
  match s.phase with
  | .disabling => if csts &&& 1 ≠ 0 then s else s.enable
  | .starting =>
    if csts &&& 1 ≠ 0 then
      let (ok, s) := nvmeAllocIdentifyBuffer s
      if ok then nvmeIdentifyController s else { s with phase := .returned false }
    else s
  | .waiting stage =>
    if nvmeWaitFound s (s.command stage).commandId then
      match nvmeWaitFinish s with
      | none => { s with phase := .faulted }
      | some (ok, s) => if ok then s.next stage else { s with phase := .returned false }
    else s
  | .returned _ => s
  | .faulted => s

/-- The controller takes the next admin command. -/
def NvmeSetup.fetch (s : NvmeSetup) : NvmeSetup :=
  { s with device := { s.device with
      taken := s.device.taken ++ [s.adminSq s.device.sqHead]
      sqHead := ringNext 64 s.device.sqHead } }

/-- The controller completes a command; to identify (opcode 6) it answers with a page of data. -/
def NvmeSetup.post (s : NvmeSetup) (answer : NvmeAnswer) (taken : List NvmeCommand) : NvmeSetup :=
  let vmm := s.start.vmm
  let mem := if answer.command.opcode = 0x06 then
      memcpy vmm.mem answer.command.prp1 answer.data 0 pageSize else vmm.mem
  { s with
    start := { s.start with vmm := { vmm with mem := mem } }
    adminCq := Function.update s.adminCq s.device.cqTail ⟨answer.command.commandId, answer.status⟩
    device := { s.device with
      taken := taken
      cqTail := ringNext 64 s.device.cqTail
      answers := s.device.answers ++ [answer] } }

/-- What can happen: the driver looks, or the controller takes a command or completes one of those
that it has taken. -/
inductive NvmeSetupEvent
  | poll (csts : ℕ)
  | fetch
  | post (i status : ℕ) (data : Mem)

def NvmeSetup.exec (s : NvmeSetup) : NvmeSetupEvent → Option NvmeSetup
  | .poll csts => some (s.poll csts)
  | .fetch =>
    if s.device.enabled ∧ s.device.sqHead ≠ s.device.sqTail then some s.fetch else none
  | .post i status data =>
    if s.device.enabled ∧ status < 2 ^ 16 then
      s.device.taken[i]?.map fun command =>
        s.post ⟨command, status, data⟩ (s.device.taken.eraseIdx i)
    else none

/-- One event of a run. -/
def NvmeSetup.Step (s s' : NvmeSetup) : Prop := ∃ e, s.exec e = some s'

/-! ### The controller on the bus -/

/-- The function is an NVMe controller: class 1, subclass 8. -/
def PciFunction.IsNvme (space : ConfigSpace) (f : PciFunction) : Prop :=
  (f.describe space).classCode = 1 ∧ (f.describe space).subclass = 8

instance (space : ConfigSpace) : DecidablePred (PciFunction.IsNvme space) := fun f =>
  inferInstanceAs (Decidable ((f.describe space).classCode = 1 ∧ (f.describe space).subclass = 8))

/-- The functions that `pci_init` puts into its table. -/
def ConfigSpace.scanned (space : ConfigSpace) : List PciFunction :=
  (allFunctions.filter fun f => f.Present space).take pciMaxDevices

/-- Command and status after `pci_enable_device`: three bits set, and the errors forgotten. -/
def ConfigSpace.enabled (space : ConfigSpace) (f : PciFunction) : ConfigSpace :=
  space.set f 1 ((space.status f &&& ~~~statusClear) ++ (space.command f ||| 0x0406))

variable {p : PciPorts} {space : ConfigSpace} {f : PciFunction} {d : PciDevice}

theorem of_describe (space : ConfigSpace) (f : PciFunction) :
    PciFunction.of (f.describe space).bus (f.describe space).device (f.describe space).function =
      f :=
  f.of_self

/-- What a write of the command register makes of the dword. -/
theorem write_command (x : BitVec 32) (value : BitVec 16) :
    (configRegister 1).write x (insert 0 x value) =
      (x.extractLsb' 16 16 &&& ~~~statusClear) ++ value := by
  have hlow : ((configRegister 1).write x (insert 0 x value)).extractLsb' 0 16 = value := by
    rw [Register.extract_write, Register.write_plain rfl, extract_insert (by norm_num)]
  have hhigh : ((configRegister 1).write x (insert 0 x value)).extractLsb' 16 16 =
      x.extractLsb' 16 16 &&& ~~~statusClear := by
    rw [Register.extract_write, extract_insert_of_disjoint (by norm_num) (by norm_num),
      Register.write_self]
    rfl
  calc (configRegister 1).write x (insert 0 x value)
      = ((configRegister 1).write x (insert 0 x value)).extractLsb' 16 16 ++
          ((configRegister 1).write x (insert 0 x value)).extractLsb' 0 16 :=
        (@BitVec.extractLsb'_append_extractLsb' 16 16 _).symm
    _ = (x.extractLsb' 16 16 &&& ~~~statusClear) ++ value := by rw [hlow, hhigh]

/-- `pci_enable_device` writes the dword with command and status, and no other. -/
theorem space_pciEnableDevice (d : PciDevice) :
    (pciEnableDevice p (some d)).space = p.space.enabled (.of d.bus d.device d.function) := by
  have hreg : (0x04 : Byte).extractLsb' 2 6 = 1 := rfl
  have hshift : ((0x04 : Byte) &&& 2).toNat * 8 = 0 := rfl
  rw [pciEnableDevice_some, space_pciWrite16, hreg, hshift, write_command]
  rfl

/-- The device that `pci_find` finds in the table of `pci_init`. -/
theorem pciFind_pciInit (s : Pci) :
    ((pciFind (pciInit s) 0x01 0x08).bind fun i => (pciInit s).devices[i]?) =
      (s.ports.space.scanned.find? fun f => f.IsNvme s.ports.space).map
        (PciFunction.describe s.ports.space) := by
  have hscanned := pciInit_scanned s
  have hentry (i : ℕ) (hi : i ∈ pciFind (pciInit s) 0x01 0x08) :
      (pciInit s).devices[i]? = (pciInit s).table[i]? := by
    rw [Pci.getElem?_table]
    exact List.mem_range.mp (List.mem_of_find?_eq_some hi)
  rw [Option.bind_congr hentry, pciFind, Pci.find_eq hscanned.count_le, find?_range_bind,
    hscanned.table_eq, ← List.map_take, List.find?_map]
  rfl

/-- The base addresses are behind the dword with command and status. -/
theorem barDwords_enabled (space : ConfigSpace) (f g : PciFunction) :
    (space.enabled g).barDwords f = space.barDwords f := by
  refine List.map_congr_left fun i hi => ConfigSpace.set_other fun heq => ?_
  have hreg := (Prod.mk.inj heq).2
  have hlt := List.mem_range.mp hi
  interval_cases i <;> exact absurd hreg (by decide)

/-- **The controller that `nvme_init` finds.**  After `pci_init` it is the first NVMe controller
among the functions in the table, if there is one.  Its `bar0` is the first of its base addresses,
and of the configuration space only its command register, and bits of its status register, have
changed. -/
theorem nvmeFind_spec (s : Pci) :
    let space := s.ports.space
    let found := nvmeFind (pciInit s)
    (∀ f, space.scanned.find? (fun f => f.IsNvme space) = some f →
      (∃ (bar : Bar) (rest : List (BitVec 32)), space.barDwords f = bar.encode ++ rest ∧
        found.1 = some (f.describe space, bar.address)) ∧
      found.2.ports.space = space.enabled f) ∧
    (space.scanned.find? (fun f => f.IsNvme space) = none →
      found.1 = none ∧ found.2.ports.space = space) := by
  intro space found
  have hfound : found = nvmeFind (pciInit s) := rfl
  rw [nvmeFind, pciFind_pciInit] at hfound
  have hspace : (pciInit s).ports.space = space := (pciInit_scanned s).space_eq
  constructor
  · intro f hf
    rw [hf, Option.map_some] at hfound
    have henabled : (pciEnableDevice (pciInit s).ports (some (f.describe space))).space =
        space.enabled f := by
      rw [space_pciEnableDevice, of_describe, hspace]
    refine ⟨?_, ?_⟩
    · obtain ⟨bar, rest, hbar⟩ := Bar.exists_encode (space f 4) (space f 5)
        [space f 6, space f 7, space f 8, space f 9]
      refine ⟨bar, rest, hbar, ?_⟩
      rw [hfound]
      refine congrArg (fun address => some (f.describe space, address)) ?_
      have hdrop : ((pciEnableDevice (pciInit s).ports (some (f.describe space))).space.barDwords
          (.of (f.describe space).bus (f.describe space).device
            (f.describe space).function)).drop 0 = bar.encode ++ rest := by
        rw [List.drop_zero, henabled, of_describe, barDwords_enabled]
        exact hbar
      exact pciBar_of_drop hdrop
    · rw [hfound]
      exact (space_pciBar _).trans henabled
  · intro hnone
    rw [hnone, Option.map_none] at hfound
    rw [hfound]
    exact ⟨rfl, hspace⟩

end Bethany
