import Bethany.Memory.AllocPage
import Bethany.Storage.NvmeSetup

/-!
# The admin commands of the NVMe driver

The driver gives its four admin commands to the controller one at a time, and the controller may
take and complete them whenever it likes.

* `Vmm.Owns`: pages that the driver has from the page allocator;
* `NvmeSetup.Queued`, `Taken`, `Done`: where the command is that the driver waits for;
* `NvmeSetup.Inv`, `NvmeSetup.Inv.exec`: at most one command is under way, and the slot in view
  is blank until it is done;
* `nvmeInit_handshake`: what `nvme_init` has done when it returns;
* `nvmeInit_returns`: it can return from every state that it gets to.
-/

namespace Bethany

open Machine Relation

/-! ### Pages of the driver -/

/-- These are different pages that the allocator has handed out, and page 0 is none of the free. -/
structure Vmm.Owns (vmm : Vmm) (top : ℕ) (pages : List ℕ) : Prop where
  directMap : DirectMap vmm.hhdmOffset top
  pmm : vmm.pmm.WF top
  notNull : ¬ vmm.pmm.Free null
  nodup : pages.Nodup
  page : ∀ f ∈ pages, pageSize ∣ f ∧ f + pageSize ≤ top ∧ ¬ vmm.pmm.Free f

variable {vmm vmm' : Vmm} {top root f g a b : ℕ} {keep : ℕ → Bool} {pages pages' : List ℕ}
  {m m' data : Mem}

/-- Taking pages for something else. -/
theorem Vmm.Owns.takes (h : vmm.Owns top pages) (hhhdm : vmm'.hhdmOffset = vmm.hhdmOffset)
    (htakes : vmm.pmm.Takes vmm'.pmm) : vmm'.Owns top pages where
  directMap := hhhdm ▸ h.directMap
  pmm := ⟨htakes.usable ▸ h.pmm.usable, by rw [htakes.pageCount, htakes.usable, h.pmm.pageCount]⟩
  notNull hfree := h.notNull (htakes.free hfree)
  nodup := h.nodup
  page f hf := ⟨(h.page f hf).1, (h.page f hf).2.1, fun hfree =>
    (h.page f hf).2.2 (htakes.free hfree)⟩

/-- Writing to memory. -/
theorem Vmm.Owns.write (h : vmm.Owns top pages) (m : Mem) :
    Vmm.Owns { vmm with mem := m } top pages :=
  h.takes rfl (.refl _)

theorem Vmm.Owns.perm (h : vmm.Owns top pages) (hperm : pages.Perm pages') :
    vmm.Owns top pages' :=
  ⟨h.directMap, h.pmm, h.notNull, hperm.nodup_iff.mp h.nodup,
    fun f hf => h.page f (hperm.mem_iff.mpr hf)⟩

/-- `pmm_alloc_page` returns another page, or there is none left. -/
theorem Vmm.Owns.alloc (h : vmm.Owns top pages) :
    (pmmAllocPage vmm.pmm).1 = null ∧ (∀ f, ¬ (pmmAllocPage vmm.pmm).2.Free f) ∧
        Vmm.Owns { vmm with pmm := (pmmAllocPage vmm.pmm).2 } top pages ∨
      (pmmAllocPage vmm.pmm).1 ≠ null ∧
        Vmm.Owns { vmm with pmm := (pmmAllocPage vmm.pmm).2 } top
          ((pmmAllocPage vmm.pmm).1 :: pages) := by
  have htop : top ≤ 2 ^ 64 := h.directMap.top_le.trans (by norm_num)
  have hrest : Vmm.Owns { vmm with pmm := (pmmAllocPage vmm.pmm).2 } top pages :=
    h.takes rfl (.alloc _)
  by_cases hnull : (pmmAllocPage vmm.pmm).1 = null
  · refine .inl ⟨hnull, ?_, hrest⟩
    rcases pmmAllocPage_cases h.pmm htop with ⟨hall, heq⟩ | ⟨bit, f, -, hunused, -, hf, heq⟩
    · rintro f ⟨bit, hunused, hf⟩
      rw [heq] at hunused hf
      obtain ⟨hlt, -⟩ := List.getElem?_eq_some_iff.mp hf
      exact hunused (hall bit (h.pmm.pageCount ▸ hlt))
    · rw [heq] at hnull
      exact absurd ⟨bit, hunused, hnull ▸ hf⟩ h.notNull
  · obtain ⟨hfree, htaken⟩ := h.pmm.alloc_page htop hnull
    obtain ⟨hdvd, hle⟩ := h.pmm.free_ok hfree
    refine .inr ⟨hnull, hrest.directMap, hrest.pmm, hrest.notNull, ?_, fun f hf => ?_⟩
    · exact List.nodup_cons.mpr ⟨fun hmem => (h.page _ hmem).2.2 hfree, h.nodup⟩
    · rcases List.mem_cons.mp hf with rfl | hf
      · exact ⟨hdvd, hle, htaken⟩
      · exact hrest.page f hf

/-- Different pages do not overlap. -/
theorem Vmm.Owns.apart (h : vmm.Owns top pages) (hf : f ∈ pages) (hg : g ∈ pages) (hne : f ≠ g) :
    f + pageSize ≤ g ∨ g + pageSize ≤ f := by
  obtain ⟨i, hi⟩ := (h.page f hf).1
  obtain ⟨j, hj⟩ := (h.page g hg).1
  subst hi hj
  have hij : i ≠ j := fun heq => hne (by rw [heq])
  rw [pageSize_eq]
  omega

/-- Where the direct map has a page. -/
theorem Vmm.Owns.physOf (h : vmm.Owns top pages) (hf : f ∈ pages) :
    Bethany.physOf vmm (u64 (f + vmm.hhdmOffset)) = f := by
  obtain ⟨-, hle, -⟩ := h.page f hf
  have hfits := h.directMap.fits
  rw [pageSize_eq] at hle
  have hlt : f + vmm.hhdmOffset < 2 ^ 64 := by omega
  rw [u64_of_lt hlt]
  exact physOf_ptr h.directMap (k := 0) (by omega)

theorem hhdm_mapRangeLoop (vmm : Vmm) (virt phys flags n offset : ℕ) :
    (mapRangeLoop virt phys flags n offset vmm).hhdmOffset = vmm.hhdmOffset := by
  induction n generalizing vmm offset with
  | zero => rfl
  | succ n ih => rw [mapRangeLoop, ih, hhdm_vmmMap]

/-- The tables of a range are other pages. -/
theorem Vmm.Owns.mapRange (h : vmm.Owns top pages) (virt phys size flags : ℕ) :
    (vmmMapRange vmm virt phys size flags).Owns top pages :=
  h.takes (hhdm_mapRangeLoop ..) (takes_mapRangeLoop ..)

/-! ### The data of a page -/

/-- A page with these bytes. -/
def PageShows (m : Mem) (f : ℕ) (data : Mem) : Prop := ∀ i < pageSize, m (f + i) = data i

theorem pageShows_memcpy (m : Mem) (f : ℕ) (data : Mem) :
    PageShows (memcpy m f data 0 pageSize) f data := by
  intro i hi
  rw [memcpy_apply, if_pos (by omega), Nat.add_sub_cancel_left, Nat.zero_add]

/-- Another page is set to zero. -/
theorem PageShows.memset (h : PageShows m f data) (hapart : f + pageSize ≤ g ∨ g + pageSize ≤ f) :
    PageShows (memset m g 0 pageSize) f data := by
  intro i hi
  rw [memset_apply, if_neg (by omega)]
  exact h i hi

theorem load_shift {n : ℕ} (h : ∀ i < n, m (a + i) = m' (b + i)) : load m a n = load m' b n := by
  induction n generalizing a b with
  | zero => rfl
  | succ n ih =>
    have hfirst : m a = m' b := h 0 (Nat.zero_lt_succ n)
    have hrest : load m (a + 1) n = load m' (b + 1) n := ih fun i hi => by
      have hnext := h (i + 1) (Nat.succ_lt_succ hi)
      rwa [Nat.add_comm i, ← Nat.add_assoc, ← Nat.add_assoc] at hnext
    rw [load, load, hfirst, hrest]

theorem PageShows.load (h : PageShows m f data) {k n : ℕ} (hle : k + n ≤ pageSize) :
    load m (f + k) n = load data k n := by
  apply load_shift
  intro i hi
  rw [Nat.add_assoc]
  exact h (k + i) (by omega)

/-- The namespace is described by the data. -/
theorem PageShows.blocks (h : PageShows m f data) :
    nsBlockSize m f = nsBlockSize data 0 ∧ nsNsze m f = nsNsze data 0 := by
  have hflbas : nsFlbas m f = nsFlbas data 0 := by
    simpa [nsFlbas] using h.load (k := 26) (n := 1) (by decide)
  have hformat : nsFlbas data 0 &&& 0xF ≤ 15 := Nat.and_le_right
  have hlbads : nsLbads m f (nsFlbas data 0 &&& 0xF) = nsLbads data 0 (nsFlbas data 0 &&& 0xF) := by
    have hload := h.load (k := 128 + 4 * (nsFlbas data 0 &&& 0xF) + 2) (n := 1) (by
      rw [pageSize_eq]
      omega)
    simpa [nsLbads, Nat.add_assoc] using hload
  refine ⟨?_, ?_⟩
  · simp only [nsBlockSize, hflbas, hlbads]
  · simpa [nsNsze] using h.load (k := 0) (n := 8) (by decide)

/-! ### One command at a time -/

/-- The number of the stage. -/
def NvmeStage.index : NvmeStage → ℕ
  | .identifyController => 0
  | .identifyNamespace => 1
  | .createIoCq => 2
  | .createIoSq => 3

/-- The stages before. -/
def NvmeStage.before : NvmeStage → List NvmeStage
  | .identifyController => []
  | .identifyNamespace => [.identifyController]
  | .createIoCq => [.identifyController, .identifyNamespace]
  | .createIoSq => [.identifyController, .identifyNamespace, .createIoCq]

/-- All of them. -/
def NvmeStage.all : List NvmeStage :=
  [.identifyController, .identifyNamespace, .createIoCq, .createIoSq]

namespace NvmeSetup

/-- The controller has answered the commands of these stages, in this order, without an error. -/
def Answered (s : NvmeSetup) (stages : List NvmeStage) (answers : List NvmeAnswer) : Prop :=
  answers.map NvmeAnswer.command = stages.map s.command ∧ ∀ a ∈ answers, a.status >>> 1 = 0

/-- The controller has nothing to take or to complete. -/
def Quiet (s : NvmeSetup) : Prop := s.device.sqHead = s.device.sqTail ∧ s.device.taken = []

/-- The command waits in the submission ring. -/
def Queued (s : NvmeSetup) (stage : NvmeStage) : Prop :=
  s.device.sqHead = stage.index ∧ s.device.taken = [] ∧ s.device.cqTail = stage.index ∧
    s.Answered stage.before s.device.answers

/-- The controller works at the command. -/
def Taken (s : NvmeSetup) (stage : NvmeStage) : Prop :=
  s.device.sqHead = s.device.sqTail ∧ s.device.taken = [s.command stage] ∧
    s.device.cqTail = stage.index ∧ s.Answered stage.before s.device.answers

/-- The controller has completed the command, and the slot in view shows its answer. -/
def Done (s : NvmeSetup) (stage : NvmeStage) : Prop :=
  s.Quiet ∧ s.device.cqTail = stage.index + 1 ∧ ∃ answers answer,
    s.device.answers = answers ++ [answer] ∧ s.Answered stage.before answers ∧
      answer.command = s.command stage ∧
      s.cqe = ⟨(s.command stage).commandId, answer.status⟩

/-- `n` commands have been answered, those of the stages given, and none is under way. -/
structure Idle (s : NvmeSetup) (n : ℕ) (stages : List NvmeStage) : Prop where
  enabled : s.device.enabled = true
  size : s.start.controller.adminQueueSize = 64
  sqTail : s.start.controller.sqTail = n
  cqHead : s.start.controller.cqHead = n
  doorbell : s.device.sqTail = n
  sqHead : s.device.sqHead = n
  taken : s.device.taken = []
  cqTail : s.device.cqTail = n
  blank : ∀ i, n ≤ i → s.adminCq i = {}
  answered : s.Answered stages s.device.answers

/-- The driver waits for the command of a stage. -/
structure Waits (s : NvmeSetup) (stage : NvmeStage) : Prop where
  enabled : s.device.enabled = true
  size : s.start.controller.adminQueueSize = 64
  sqTail : s.start.controller.sqTail = stage.index + 1
  cqHead : s.start.controller.cqHead = stage.index
  doorbell : s.device.sqTail = stage.index + 1
  slot : s.adminSq stage.index = s.command stage
  blank : ∀ i, s.device.cqTail ≤ i → s.adminCq i = {}
  way : s.Queued stage ∨ s.Taken stage ∨ s.Done stage

/-- The pages of the I/O queues, once there are any. -/
def ioPages (s : NvmeSetup) : NvmeStage → List ℕ
  | .identifyController => []
  | .identifyNamespace => []
  | .createIoCq => [s.ioCqPhys, s.ioSqPhys]
  | .createIoSq => [s.ioCqPhys, s.ioSqPhys]

/-- The page of the identify data and those of the admin queues. -/
def adminPages (s : NvmeSetup) : List ℕ :=
  [s.identifyBufferPhys, s.start.controller.adminCqPhys, s.start.controller.adminSqPhys]

/-- The memory of the driver: its pages, and in the one for identify data the last of them. -/
structure Keeps (s : NvmeSetup) (top : ℕ) (ioPages : List ℕ) : Prop where
  owns : s.start.vmm.Owns top (ioPages ++ s.adminPages)
  buffer : s.identifyBuffer = u64 (s.identifyBufferPhys + s.start.vmm.hhdmOffset)
  identified : ∀ answer, s.device.answers[1]? = some answer →
    PageShows s.start.vmm.mem s.identifyBufferPhys answer.data

/-- Before the first command: the rings are blank, and there may be a page for identify data from
a call before. -/
structure Prepared (s : NvmeSetup) (top : ℕ) : Prop where
  size : s.start.controller.adminQueueSize = 64
  sqTail : s.start.controller.sqTail = 0
  cqHead : s.start.controller.cqHead = 0
  blank : ∀ i, s.adminCq i = {}
  owns : s.start.vmm.Owns top ((if s.identifyBuffer = null then [] else [s.identifyBufferPhys]) ++
    [s.start.controller.adminCqPhys, s.start.controller.adminSqPhys])
  buffer : s.identifyBuffer ≠ null →
    s.identifyBuffer = u64 (s.identifyBufferPhys + s.start.vmm.hhdmOffset)

/-- The controller has begun anew. -/
structure Fresh (s : NvmeSetup) : Prop where
  enabled : s.device.enabled = true
  sqTail : s.device.sqTail = 0
  sqHead : s.device.sqHead = 0
  cqTail : s.device.cqTail = 0
  taken : s.device.taken = []
  answers : s.device.answers = []

/-- All is set up for I/O. -/
structure Complete (s : NvmeSetup) (top : ℕ) : Prop where
  quiet : s.Quiet
  answered : s.Answered NvmeStage.all s.device.answers
  owns : s.start.vmm.Owns top ([s.ioCqPhys, s.ioSqPhys] ++ s.adminPages)
  described : ∀ answer, s.device.answers[1]? = some answer →
    s.io.blockSize = nsBlockSize answer.data 0 ∧ s.blockCount = nsNsze answer.data 0
  rings : nvmeIoQueueInit s.io = s.io
  registered : s.registered = true

/-- Why `nvme_init` gives up: there is no controller, or no page left, or an error. -/
def Excused (s : NvmeSetup) (found : Option ℕ) : Prop :=
  found = none ∨ (∀ f, ¬ s.start.vmm.pmm.Free f) ∨
    ∃ answer, s.device.answers.getLast? = some answer ∧ answer.status >>> 1 ≠ 0

/-- What holds in each phase. -/
def InPhase (s : NvmeSetup) (top : ℕ) (found : Option ℕ) (lost : Prop) : NvmeSetupPhase → Prop
  | .disabling => s.Prepared top ∧ s.device.enabled = false
  | .starting => s.Prepared top ∧ s.Fresh
  | .waiting stage => s.Waits stage ∧ s.Keeps top (s.ioPages stage) ∧
      (s.ioPages stage ≠ [] → nvmeIoQueueInit s.io = s.io)
  | .returned true => s.Complete top
  | .returned false => s.Excused found ∧ (s.device.enabled = true → s.Quiet)
  | .faulted => (lost ∨ 10 ≤ s.io.doorbellStride) ∧ (s.device.enabled = true → s.Quiet)

/-- The invariant; `lost` says that the registers could not be mapped. -/
def Inv (s : NvmeSetup) (top : ℕ) (found : Option ℕ) (lost : Prop) : Prop :=
  s.InPhase top found lost s.phase

end NvmeSetup

variable {s s' : NvmeSetup} {stage : NvmeStage} {found : Option ℕ} {lost : Prop}
  {registers : ℕ → ℕ}

/-! ### The command of a stage -/

theorem NvmeStage.index_lt (stage : NvmeStage) : stage.index < 4 := by
  cases stage <;> decide

theorem NvmeStage.length_before (stage : NvmeStage) : stage.before.length = stage.index := by
  cases stage <;> rfl

theorem ringNext_index (stage : NvmeStage) : ringNext 64 stage.index = stage.index + 1 := by
  have hlt := stage.index_lt
  exact if_neg (by omega)

theorem NvmeSetup.commandId_command (s : NvmeSetup) (stage : NvmeStage) :
    (s.command stage).commandId = stage.index + 1 := by
  cases stage <;> rfl

theorem NvmeSetup.Answered.length {stages : List NvmeStage} {answers : List NvmeAnswer}
    (h : s.Answered stages answers) : answers.length = stages.length := by
  simpa using congrArg List.length h.1

/-- After it is submitted the driver waits. -/
theorem NvmeSetup.Idle.submit (h : s.Idle stage.index stage.before) :
    (s.submit stage).Waits stage where
  enabled := h.enabled
  size := h.size
  sqTail := by
    show ringNext s.start.controller.adminQueueSize s.start.controller.sqTail = _
    rw [h.size, h.sqTail, ringNext_index]
  cqHead := h.cqHead
  doorbell := by
    show ringNext s.start.controller.adminQueueSize s.start.controller.sqTail = _
    rw [h.size, h.sqTail, ringNext_index]
  slot := by
    show Function.update s.adminSq s.start.controller.sqTail (s.command stage) stage.index = _
    rw [h.sqTail, Function.update_self]
    rfl
  blank i hi := h.blank i (h.cqTail ▸ hi)
  way := .inl ⟨h.sqHead, h.taken, h.cqTail, h.answered⟩

/-- The slot in view shows the id of the command only once it is done. -/
theorem NvmeSetup.Waits.found_iff (h : s.Waits stage) :
    nvmeWaitFound s (s.command stage).commandId = true ↔ s.Done stage := by
  have hcid := s.commandId_command stage
  constructor
  · intro hfound
    have hblank (htail : s.device.cqTail = stage.index) : False := by
      have hslot : s.cqe = {} := h.blank _ (by rw [htail, h.cqHead])
      have hid : s.cqe.commandId = (s.command stage).commandId := beq_iff_eq.mp hfound
      rw [hslot, hcid] at hid
      exact absurd hid (Nat.succ_ne_zero _).symm
    rcases h.way with hqueued | htaken | hdone
    · exact (hblank hqueued.2.2.1).elim
    · exact (hblank htaken.2.2.1).elim
    · exact hdone
  · rintro ⟨-, -, answers, answer, -, -, -, hcqe⟩
    rw [nvmeWaitFound, hcqe]
    exact beq_self_eq_true _

/-- The doorbell of the admin completion queue lies in the window unless its stride is too long. -/
theorem adminDoorbell_lt_iff (c : Nvme) :
    nvmeDoorbellOffset c 0 true < nvmeMmioSize ↔ c.doorbellStride < 10 := by
  have hoffset : nvmeDoorbellOffset c 0 true = 0x1000 + 4 * 2 ^ c.doorbellStride := by
    simp [nvmeDoorbellOffset, Nat.shiftLeft_eq]
  have hpow : c.doorbellStride < 10 ↔ 2 ^ c.doorbellStride < 2 ^ 10 :=
    (Nat.pow_lt_pow_iff_right (by norm_num)).symm
  rw [hoffset, hpow]
  unfold nvmeMmioSize
  omega

/-- After `nvme_wait_completion` has returned true. -/
def NvmeSetup.finished (s : NvmeSetup) : NvmeSetup :=
  let cqHead := ringNext s.start.controller.adminQueueSize s.start.controller.cqHead
  let start := { s.start with controller := { s.start.controller with cqHead := cqHead } }
  { s with start := start.write (nvmeDoorbellOffset s.io 0 true) cqHead }

/-- `nvme_wait_completion` returns false after an error.  Otherwise it returns true if its doorbell
lies in the window. -/
theorem nvmeWaitFinish_cases (s : NvmeSetup) :
    (s.cqe.status >>> 1 ≠ 0 ∧ nvmeWaitFinish s = some (false, s)) ∨
      (s.cqe.status >>> 1 = 0 ∧
        ((10 ≤ s.io.doorbellStride ∧ nvmeWaitFinish s = none) ∨
          nvmeWaitFinish s = some (true, s.finished))) := by
  by_cases hstatus : s.cqe.status >>> 1 ≠ 0
  · exact .inl ⟨hstatus, if_pos hstatus⟩
  · refine .inr ⟨not_not.mp hstatus, ?_⟩
    by_cases hinside : nvmeDoorbellOffset s.io 0 true < nvmeMmioSize
    · exact .inr ((if_neg hstatus).trans (if_pos hinside))
    · rw [adminDoorbell_lt_iff, Nat.not_lt] at hinside
      refine .inl ⟨hinside, (if_neg hstatus).trans (if_neg ?_)⟩
      rwa [adminDoorbell_lt_iff, Nat.not_lt]

/-- `nvme_wait_completion` has returned true: nothing is under way. -/
theorem NvmeSetup.Waits.finish (h : s.Waits stage) (hdone : s.Done stage)
    (hstatus : s.cqe.status >>> 1 = 0) :
    s.finished.Idle (stage.index + 1) (stage.before ++ [stage]) := by
  obtain ⟨⟨hhead, htaken⟩, htail, answers, answer, hanswers, hbefore, hcommand, hcqe⟩ := hdone
  refine ⟨h.enabled, h.size, h.sqTail, ?_, h.doorbell, hhead.trans h.doorbell, htaken, htail,
    fun i hi => h.blank i (htail ▸ hi), ?_⟩
  · show ringNext s.start.controller.adminQueueSize s.start.controller.cqHead = _
    rw [h.size, h.cqHead, ringNext_index]
  · show s.Answered _ s.device.answers
    rw [hanswers]
    refine ⟨?_, fun a ha => ?_⟩
    · rw [List.map_append, List.map_append, hbefore.1]
      exact congrArg (fun c => _ ++ [c]) hcommand
    · rcases List.mem_append.mp ha with ha | ha
      · exact hbefore.2 a ha
      · rw [List.mem_singleton.mp ha]
        rwa [hcqe] at hstatus

/-! ### The memory of the driver -/

section

variable {ioPages : List ℕ}

theorem NvmeSetup.Keeps.submit (h : s.Keeps top ioPages) (stage : NvmeStage) :
    (s.submit stage).Keeps top ioPages :=
  ⟨h.owns, h.buffer, h.identified⟩

theorem NvmeSetup.Keeps.finish (h : s.Keeps top ioPages) : s.finished.Keeps top ioPages :=
  ⟨h.owns, h.buffer, h.identified⟩

/-- Setting the buffer to zero changes the memory only. -/
theorem NvmeSetup.clearIdentifyBuffer_eq (s : NvmeSetup) : ∃ m, s.clearIdentifyBuffer =
    { s with start := { s.start with vmm := { s.start.vmm with mem := m } } } :=
  ⟨_, rfl⟩

/-- The buffer may be set to zero until the namespace has been identified. -/
theorem NvmeSetup.Keeps.clear (h : s.Keeps top ioPages) (hfirst : s.device.answers.length ≤ 1) :
    s.clearIdentifyBuffer.Keeps top ioPages := by
  have hnone : s.device.answers[1]? = none := List.getElem?_eq_none hfirst
  obtain ⟨m, hclear⟩ := s.clearIdentifyBuffer_eq
  rw [hclear]
  exact ⟨h.owns.write m, h.buffer, fun answer hanswer => nomatch hnone.symm.trans hanswer⟩

theorem NvmeSetup.Idle.clear {n : ℕ} {stages : List NvmeStage} (h : s.Idle n stages) :
    s.clearIdentifyBuffer.Idle n stages := by
  obtain ⟨m, hclear⟩ := s.clearIdentifyBuffer_eq
  rw [hclear]
  exact ⟨h.enabled, h.size, h.sqTail, h.cqHead, h.doorbell, h.sqHead, h.taken, h.cqTail, h.blank,
    h.answered⟩

/-- `nvme_alloc_identify_buffer` gets a page, or there is none left. -/
theorem NvmeSetup.Prepared.alloc (h : s.Prepared top) (hfresh : s.Fresh) :
    (nvmeAllocIdentifyBuffer s).2.device = s.device ∧
      (((nvmeAllocIdentifyBuffer s).1 = false ∧
          ∀ f, ¬ (nvmeAllocIdentifyBuffer s).2.start.vmm.pmm.Free f) ∨
        (nvmeAllocIdentifyBuffer s).1 = true ∧ (nvmeAllocIdentifyBuffer s).2.Idle 0 [] ∧
          (nvmeAllocIdentifyBuffer s).2.Keeps top []) := by
  have hanswers : s.Answered [] s.device.answers := by
    rw [hfresh.answers]
    exact ⟨rfl, fun a ha => absurd ha List.not_mem_nil⟩
  have hnone (answer : NvmeAnswer) : s.device.answers[1]? ≠ some answer := by
    rw [hfresh.answers]
    exact Option.some_ne_none _ ∘ Eq.symm
  have howns := h.owns
  by_cases hbuffer : s.identifyBuffer ≠ null
  · have heq : nvmeAllocIdentifyBuffer s = (true, s) := if_pos hbuffer
    rw [if_neg hbuffer] at howns
    rw [heq]
    exact ⟨rfl, .inr ⟨rfl, ⟨hfresh.enabled, h.size, h.sqTail, h.cqHead, hfresh.sqTail,
      hfresh.sqHead, hfresh.taken, hfresh.cqTail, fun i _ => h.blank i, hanswers⟩, howns,
      h.buffer hbuffer, fun answer hanswer => absurd hanswer (hnone answer)⟩⟩
  · rw [if_pos (not_not.mp hbuffer), List.nil_append] at howns
    rcases howns.alloc with ⟨hnull, hfull, -⟩ | ⟨hne, hpage⟩
    · have heq : nvmeAllocIdentifyBuffer s = (false, { s with start := s.start.allocPage.2 }) :=
        (if_neg hbuffer).trans (if_pos hnull)
      rw [heq]
      exact ⟨rfl, .inl ⟨rfl, hfull⟩⟩
    · have heq : nvmeAllocIdentifyBuffer s = (true, { s with
          start := s.start.allocPage.2
          identifyBufferPhys := s.start.allocPage.1
          identifyBuffer := u64 (s.start.allocPage.1 + s.start.vmm.hhdmOffset) }) :=
        (if_neg hbuffer).trans (if_neg hne)
      rw [heq]
      exact ⟨rfl, .inr ⟨rfl, ⟨hfresh.enabled, h.size, h.sqTail, h.cqHead, hfresh.sqTail,
        hfresh.sqHead, hfresh.taken, hfresh.cqTail, fun i _ => h.blank i, hanswers⟩, hpage, rfl,
        fun answer hanswer => absurd hanswer (hnone answer)⟩⟩

/-- Two pages from `pmm_alloc_page`, or there is none left. -/
theorem NvmeStart.alloc_two {start : NvmeStart} (h : start.vmm.Owns top pages) :
    (start.allocPage.1 = null ∨ start.allocPage.2.allocPage.1 = null) ∧
        (∀ f, ¬ start.allocPage.2.allocPage.2.vmm.pmm.Free f) ∨
      ¬ (start.allocPage.1 = null ∨ start.allocPage.2.allocPage.1 = null) ∧
        start.allocPage.2.allocPage.2.vmm.Owns top
          (start.allocPage.2.allocPage.1 :: start.allocPage.1 :: pages) := by
  rcases h.alloc with ⟨hnull, hfull, -⟩ | ⟨hne, howns⟩
  · exact .inl ⟨.inl hnull, fun f hf => hfull f ((Pmm.Takes.alloc _).free hf)⟩
  · rcases howns.alloc with ⟨hnull, hfull, -⟩ | ⟨hne', howns'⟩
    · exact .inl ⟨.inr hnull, hfull⟩
    · exact .inr ⟨not_or.mpr ⟨hne, hne'⟩, howns'⟩

/-- `memset` of a page of the driver leaves its other pages as they are. -/
theorem NvmeStart.clearPage_spec {start : NvmeStart} (h : start.vmm.Owns top pages)
    (hf : f ∈ pages) :
    ∃ m, start.clearPage f = { start with vmm := { start.vmm with mem := m } } ∧
      ∀ g ∈ pages, g ≠ f → ∀ data, PageShows start.vmm.mem g data → PageShows m g data := by
  refine ⟨memset start.vmm.mem f 0 pageSize, ?_, fun g hg hne data hdata => ?_⟩
  · simp only [NvmeStart.clearPage, h.physOf hf]
  · exact hdata.memset (h.apart hg hf hne)

/-- `nvme_io_queue_init` gets two pages and leaves the identify data alone, or there is no page
left. -/
theorem NvmeSetup.Keeps.ioQueues (h : s.Keeps top [])
    (hidle : s.Idle 2 [.identifyController, .identifyNamespace]) :
    (nvmeIoQueuePages s).2.Idle 2 [.identifyController, .identifyNamespace] ∧
      (((nvmeIoQueuePages s).1 = false ∧ ∀ f, ¬ (nvmeIoQueuePages s).2.start.vmm.pmm.Free f) ∨
        (nvmeIoQueuePages s).1 = true ∧
          (nvmeIoQueuePages s).2.Keeps top
            [(nvmeIoQueuePages s).2.ioCqPhys, (nvmeIoQueuePages s).2.ioSqPhys] ∧
          nvmeIoQueueInit (nvmeIoQueuePages s).2.io = (nvmeIoQueuePages s).2.io) := by
  obtain ⟨henabled, hsize, hsqTail, hcqHead, hdoorbell, hsqHead, htaken, hcqTail, hblank,
    hanswered⟩ := hidle
  have howns : s.start.vmm.Owns top s.adminPages := h.owns
  rcases NvmeStart.alloc_two howns with ⟨hnull, hfull⟩ | ⟨hne, hpages⟩
  · have heq : nvmeIoQueuePages s =
        (false, { s with start := s.start.allocPage.2.allocPage.2 }) := if_pos hnull
    rw [heq]
    exact ⟨⟨henabled, hsize, hsqTail, hcqHead, hdoorbell, hsqHead, htaken, hcqTail, hblank,
      hanswered⟩, .inl ⟨rfl, hfull⟩⟩
  · have heq : nvmeIoQueuePages s = (true, { s with
        start := (s.start.allocPage.2.allocPage.2.clearPage s.start.allocPage.1).clearPage
          s.start.allocPage.2.allocPage.1
        ioSqPhys := s.start.allocPage.1
        ioCqPhys := s.start.allocPage.2.allocPage.1
        io := nvmeIoQueueInit s.io }) := if_neg hne
    rw [heq]
    have hsq : s.start.allocPage.1 ∈
        s.start.allocPage.2.allocPage.1 :: s.start.allocPage.1 :: s.adminPages := by simp
    obtain ⟨m, hm, hkeep⟩ := NvmeStart.clearPage_spec hpages hsq
    have hpages' : (s.start.allocPage.2.allocPage.2.clearPage s.start.allocPage.1).vmm.Owns top
        (s.start.allocPage.2.allocPage.1 :: s.start.allocPage.1 :: s.adminPages) := by
      rw [hm]
      exact hpages.write m
    obtain ⟨m', hm', hkeep'⟩ := NvmeStart.clearPage_spec hpages' List.mem_cons_self
    rw [hm] at hkeep'
    rw [hm', hm]
    have hbuffer : s.identifyBufferPhys ∈
        s.start.allocPage.2.allocPage.1 :: s.start.allocPage.1 :: s.adminPages := by
      simp [NvmeSetup.adminPages]
    have hnodup := hpages.nodup
    refine ⟨⟨henabled, hsize, hsqTail, hcqHead, hdoorbell, hsqHead, htaken, hcqTail, hblank,
      hanswered⟩, .inr ⟨rfl, ⟨(hpages.write m).write m', h.buffer, fun answer hanswer => ?_⟩, rfl⟩⟩
    refine hkeep' _ hbuffer (fun heq => ?_) _ (hkeep _ hbuffer (fun heq => ?_) _
      (h.identified answer hanswer))
    · simp [NvmeSetup.adminPages, heq] at hnodup
    · simp [NvmeSetup.adminPages, heq] at hnodup

end

/-! ### One look of the driver -/

theorem NvmeSetup.Prepared.enable (h : s.Prepared top) :
    s.enable.Prepared top ∧ s.enable.Fresh :=
  ⟨⟨h.size, h.sqTail, h.cqHead, h.blank, h.owns, h.buffer⟩, rfl, rfl, rfl, rfl, rfl, rfl⟩

theorem NvmeSetup.Idle.quiet {n : ℕ} {stages : List NvmeStage} (h : s.Idle n stages) : s.Quiet :=
  ⟨h.sqHead.trans h.doorbell.symm, h.taken⟩

/-- The end of `nvme_init` takes the description of the namespace from the second answer. -/
theorem NvmeSetup.Keeps.register (h : s.Keeps top [s.ioCqPhys, s.ioSqPhys])
    (hidle : s.Idle 4 NvmeStage.all) (hrings : nvmeIoQueueInit s.io = s.io) :
    (nvmeRegister s).Complete top where
  quiet := hidle.quiet
  answered := hidle.answered
  owns := h.owns
  described answer hanswer := by
    have hns : physOf s.start.vmm s.identifyBuffer = s.identifyBufferPhys := by
      rw [h.buffer]
      exact h.owns.physOf (by simp [NvmeSetup.adminPages])
    simp only [nvmeRegister, hns]
    exact (h.identified answer hanswer).blocks
  rings := congrArg (fun io => { io with blockSize := (nvmeRegister s).io.blockSize }) hrings
  registered := rfl

/-- The next command is submitted. -/
theorem NvmeSetup.Idle.inv (h : s.Idle stage.index stage.before)
    (hkeeps : s.Keeps top (s.ioPages stage))
    (hrings : s.ioPages stage ≠ [] → nvmeIoQueueInit s.io = s.io) :
    (s.submit stage).Inv top found lost :=
  ⟨h.submit, hkeeps.submit stage, hrings⟩

/-- The first command is submitted. -/
theorem NvmeSetup.Idle.identify (h : s.Idle 0 []) (hkeeps : s.Keeps top []) :
    (nvmeIdentifyController s).Inv top found lost := by
  have hidle := h.clear
  have hkept := hkeeps.clear (h.answered.length.le.trans zero_le_one)
  rw [nvmeIdentifyController]
  generalize s.clearIdentifyBuffer = t at *
  exact hidle.inv hkept fun hne => absurd rfl hne

/-- An error ends `nvme_init`. -/
theorem NvmeSetup.Done.failed (h : s.Done stage) (hstatus : s.cqe.status >>> 1 ≠ 0) :
    NvmeSetup.Inv { s with phase := .returned false } top found lost := by
  obtain ⟨hquiet, -, answers, answer, hanswers, -, -, hcqe⟩ := h
  refine ⟨.inr (.inr ⟨answer, ?_, ?_⟩), fun _ => hquiet⟩
  · show s.device.answers.getLast? = some answer
    rw [hanswers, List.getLast?_concat]
  · rwa [hcqe] at hstatus

/-- What `nvme_init` does after the answer to a command. -/
theorem NvmeSetup.Waits.next (h : s.Waits stage) (hdone : s.Done stage)
    (hkeeps : s.Keeps top (s.ioPages stage))
    (hrings : s.ioPages stage ≠ [] → nvmeIoQueueInit s.io = s.io)
    (hstatus : s.cqe.status >>> 1 = 0) : (s.finished.next stage).Inv top found lost := by
  have hidle := h.finish hdone hstatus
  have hkept := hkeeps.finish
  have hfields : s.finished.io = s.io ∧ s.finished.ioCqPhys = s.ioCqPhys ∧
      s.finished.ioSqPhys = s.ioSqPhys := ⟨rfl, rfl, rfl⟩
  generalize s.finished = t at *
  obtain ⟨hio, hcq, hsq⟩ := hfields
  cases stage with
  | identifyController =>
    have hidle' := hidle.clear
    have hkept' := hkept.clear hidle.answered.length.le
    rw [NvmeSetup.next, nvmeIdentifyNamespace]
    generalize t.clearIdentifyBuffer = u at *
    exact hidle'.inv hkept' fun hne => absurd rfl hne
  | identifyNamespace =>
    obtain ⟨hidle', hcases⟩ := hkept.ioQueues hidle
    simp only [NvmeSetup.next]
    rcases hcases with ⟨hfalse, hfull⟩ | ⟨htrue, hkept', hrings'⟩
    · rw [hfalse, if_neg Bool.false_ne_true]
      exact ⟨.inr (.inl hfull), fun _ => hidle'.quiet⟩
    · rw [htrue, if_pos rfl]
      exact hidle'.inv hkept' fun _ => hrings'
  | createIoCq =>
    have hio' := hrings (List.cons_ne_nil _ _)
    refine hidle.inv ?_ fun _ => ?_
    · show t.Keeps top [t.ioCqPhys, t.ioSqPhys]
      rw [hcq, hsq]
      exact hkept
    · rw [hio]
      exact hio'
  | createIoSq =>
    have hio' := hrings (List.cons_ne_nil _ _)
    rw [← hio] at hio'
    have hkept' : t.Keeps top [t.ioCqPhys, t.ioSqPhys] := by
      rw [hcq, hsq]
      exact hkept
    obtain ⟨hquiet, hanswered, howns, hdescribed, hinit, hregistered⟩ :=
      hkept'.register hidle hio'
    exact ⟨hquiet, hanswered, howns, hdescribed, hinit, hregistered⟩

/-- **One look of the driver** keeps the invariant. -/
theorem NvmeSetup.Inv.poll (h : s.Inv top found lost) (csts : ℕ) :
    (s.poll csts).Inv top found lost := by
  have hin : s.InPhase top found lost s.phase := h
  rw [NvmeSetup.poll]
  cases hp : s.phase with
  | disabling =>
    rw [hp] at hin
    simp only
    split_ifs
    · exact h
    · exact hin.1.enable
  | starting =>
    rw [hp] at hin
    obtain ⟨hprepared, hfresh⟩ := hin
    by_cases hready : csts &&& 1 ≠ 0
    · obtain ⟨hdevice, hcases⟩ := hprepared.alloc hfresh
      simp only [if_pos hready]
      rcases hcases with ⟨hfalse, hfull⟩ | ⟨htrue, hidle, hkeeps⟩
      · rw [hfalse, if_neg Bool.false_ne_true]
        refine ⟨.inr (.inl hfull), fun _ => ?_⟩
        show _ = _ ∧ _ = _
        simp only [hdevice, hfresh.sqHead, hfresh.sqTail, hfresh.taken, and_self]
      · rw [htrue, if_pos rfl]
        exact hidle.identify hkeeps
    · simp only [if_neg hready]
      exact h
  | waiting stage =>
    rw [hp] at hin
    obtain ⟨hwaits, hkeeps, hrings⟩ := hin
    by_cases hfound : nvmeWaitFound s (s.command stage).commandId = true
    · have hdone := hwaits.found_iff.mp hfound
      simp only [if_pos hfound]
      rcases nvmeWaitFinish_cases s with ⟨hstatus, heq⟩ | ⟨hstatus, ⟨hstride, heq⟩ | heq⟩
      · rw [heq]
        exact hdone.failed hstatus
      · rw [heq]
        exact ⟨.inr hstride, fun _ => hdone.1⟩
      · rw [heq]
        exact hwaits.next hdone hkeeps hrings hstatus
    · simp only [if_neg hfound]
      exact h
  | returned b => exact h
  | faulted => exact h

/-! ### One action of the controller -/

/-- The controller has something to do only while the driver waits for a command. -/
theorem NvmeSetup.Inv.busy (h : s.Inv top found lost) (henabled : s.device.enabled = true)
    (hbusy : ¬ s.Quiet) : ∃ stage, s.phase = .waiting stage ∧ s.Waits stage ∧
      s.Keeps top (s.ioPages stage) ∧ (s.ioPages stage ≠ [] → nvmeIoQueueInit s.io = s.io) := by
  have hin : s.InPhase top found lost s.phase := h
  cases hp : s.phase with
  | disabling =>
    rw [hp] at hin
    exact nomatch hin.2.symm.trans henabled
  | starting =>
    rw [hp] at hin
    exact absurd ⟨hin.2.sqHead.trans hin.2.sqTail.symm, hin.2.taken⟩ hbusy
  | waiting stage =>
    rw [hp] at hin
    exact ⟨stage, rfl, hin⟩
  | returned b =>
    rw [hp] at hin
    cases b with
    | true => exact absurd hin.quiet hbusy
    | false => exact absurd (hin.2 henabled) hbusy
  | faulted =>
    rw [hp] at hin
    exact absurd (hin.2 henabled) hbusy

/-- What the controller takes is the command that the driver waits for. -/
theorem NvmeSetup.Waits.fetch (h : s.Waits stage) (hne : s.device.sqHead ≠ s.device.sqTail) :
    s.fetch.Taken stage ∧ s.fetch.Waits stage := by
  rcases h.way with ⟨hhead, htaken, htail, hanswered⟩ | htaken | hdone
  · have hway : s.fetch.Taken stage := by
      refine ⟨?_, ?_, htail, hanswered⟩
      · show ringNext 64 s.device.sqHead = s.device.sqTail
        rw [hhead, ringNext_index, h.doorbell]
      · show s.device.taken ++ [s.adminSq s.device.sqHead] = [s.command stage]
        rw [htaken, hhead, h.slot, List.nil_append]
    exact ⟨hway, h.enabled, h.size, h.sqTail, h.cqHead, h.doorbell, h.slot, h.blank,
      .inr (.inl hway)⟩
  · exact absurd htaken.1 hne
  · exact absurd hdone.1.1 hne

theorem NvmeSetup.Inv.fetch (h : s.Inv top found lost) (henabled : s.device.enabled = true)
    (hne : s.device.sqHead ≠ s.device.sqTail) : s.fetch.Inv top found lost := by
  obtain ⟨stage, hp, hwaits, hkeeps, hrings⟩ := h.busy henabled fun hquiet => hne hquiet.1
  show s.fetch.InPhase top found lost s.phase
  rw [hp]
  exact ⟨(hwaits.fetch hne).2, ⟨hkeeps.owns, hkeeps.buffer, hkeeps.identified⟩, hrings⟩

/-- What the controller completes is the command that the driver waits for. -/
theorem NvmeSetup.Waits.post (h : s.Waits stage) (htaken : s.Taken stage) (status : ℕ)
    (data : Mem) :
    (s.post ⟨s.command stage, status, data⟩ []).Done stage ∧
      (s.post ⟨s.command stage, status, data⟩ []).Waits stage := by
  obtain ⟨hhead, -, htail, hanswered⟩ := htaken
  set answer : NvmeAnswer := ⟨s.command stage, status, data⟩
  have hway : (s.post answer []).Done stage := by
    refine ⟨⟨hhead, rfl⟩, ?_, s.device.answers, answer, rfl, hanswered, rfl, ?_⟩
    · show ringNext 64 s.device.cqTail = _
      rw [htail, ringNext_index]
    · show Function.update s.adminCq s.device.cqTail _ s.start.controller.cqHead = _
      rw [h.cqHead, htail, Function.update_self]
      rfl
  refine ⟨hway, h.enabled, h.size, h.sqTail, h.cqHead, h.doorbell, h.slot, fun i hi => ?_,
    .inr (.inr hway)⟩
  have hgt : stage.index + 1 ≤ i := hway.2.1 ▸ hi
  show Function.update s.adminCq s.device.cqTail _ i = _
  rw [Function.update_of_ne (by omega)]
  exact h.blank i (by omega)

/-- The answer leaves the data of the one before it alone, unless it has data itself. -/
theorem NvmeSetup.Keeps.post (h : s.Keeps top (s.ioPages stage)) (htaken : s.Taken stage)
    (status : ℕ) (data : Mem) :
    (s.post ⟨s.command stage, status, data⟩ []).Keeps top (s.ioPages stage) := by
  have hlength := htaken.2.2.2.length
  rw [stage.length_before] at hlength
  have hdata : ∃ m, (s.post ⟨s.command stage, status, data⟩ []).start.vmm =
      { s.start.vmm with mem := m } ∧
      ((s.command stage).opcode = 0x06 → PageShows m (s.command stage).prp1 data) ∧
      ((s.command stage).opcode ≠ 0x06 → m = s.start.vmm.mem) := by
    simp only [NvmeSetup.post]
    refine ⟨_, rfl, fun hopcode => ?_, fun hopcode => if_neg hopcode⟩
    rw [if_pos hopcode]
    exact pageShows_memcpy _ _ _
  obtain ⟨m, hm, hdata, hother⟩ := hdata
  refine ⟨by rw [hm]; exact h.owns.write m, by rw [hm]; exact h.buffer, fun answer hanswer => ?_⟩
  rw [hm]
  have hanswer' : (s.device.answers ++ [⟨s.command stage, status, data⟩])[1]? = some answer :=
    hanswer
  cases stage with
  | identifyController =>
    rw [List.getElem?_eq_none (by simp [hlength, NvmeStage.index])] at hanswer'
    exact nomatch hanswer'
  | identifyNamespace =>
    have hone : s.device.answers.length = 1 := hlength
    rw [List.getElem?_append_right hone.le, hone] at hanswer'
    rw [← Option.some.inj hanswer']
    exact hdata rfl
  | createIoCq =>
    rw [List.getElem?_append_left (by rw [hlength]; decide)] at hanswer'
    rw [hother (by simp [NvmeSetup.command, nvmeCreateIoCq])]
    exact h.identified answer hanswer'
  | createIoSq =>
    rw [List.getElem?_append_left (by rw [hlength]; decide)] at hanswer'
    rw [hother (by simp [NvmeSetup.command, nvmeCreateIoSq])]
    exact h.identified answer hanswer'

theorem NvmeSetup.Inv.post (h : s.Inv top found lost) (henabled : s.device.enabled = true) {i : ℕ}
    {command : NvmeCommand} (hcommand : s.device.taken[i]? = some command) (status : ℕ)
    (data : Mem) :
    (s.post ⟨command, status, data⟩ (s.device.taken.eraseIdx i)).Inv top found lost := by
  have hne : s.device.taken ≠ [] := fun hnil => by
    rw [hnil] at hcommand
    exact nomatch hcommand
  obtain ⟨stage, hp, hwaits, hkeeps, hrings⟩ := h.busy henabled fun hquiet => hne hquiet.2
  have htaken : s.Taken stage := by
    rcases hwaits.way with hqueued | htaken | hdone
    · exact absurd hqueued.2.1 hne
    · exact htaken
    · exact absurd hdone.1.2 hne
  have hone := htaken.2.1
  obtain ⟨rfl, rfl⟩ : i = 0 ∧ s.command stage = command := by
    rw [hone] at hcommand
    obtain ⟨hlt, heq⟩ := List.getElem?_eq_some_iff.mp hcommand
    obtain rfl : i = 0 := by simpa using hlt
    exact ⟨rfl, heq⟩
  have hrest : s.device.taken.eraseIdx 0 = [] := by rw [hone]; rfl
  rw [hrest]
  show NvmeSetup.InPhase _ top found lost s.phase
  rw [hp]
  exact ⟨(hwaits.post htaken status data).2, hkeeps.post htaken status data, hrings⟩

/-- **Every event** keeps the invariant. -/
theorem NvmeSetup.Inv.exec (h : s.Inv top found lost) (hstep : s.Step s') :
    s'.Inv top found lost := by
  obtain ⟨e, hexec⟩ := hstep
  cases e with
  | poll csts =>
    rw [← Option.some.inj hexec]
    exact h.poll csts
  | fetch =>
    simp only [NvmeSetup.exec] at hexec
    split_ifs at hexec with hfetch
    rw [← Option.some.inj hexec]
    exact h.fetch hfetch.1 hfetch.2
  | post i status data =>
    simp only [NvmeSetup.exec] at hexec
    split_ifs at hexec with hpost
    obtain ⟨command, hcommand, rfl⟩ := Option.map_eq_some_iff.mp hexec
    exact h.post hpost.1 hcommand status data

/-! ### The start -/

/-- The page for identify data, if a call before has taken one. -/
def NvmeSetup.oldPages (s : NvmeSetup) : List ℕ :=
  if s.identifyBuffer = null then [] else [s.identifyBufferPhys]

/-- Before `nvme_init`. -/
structure NvmeSetup.Initial (s : NvmeSetup) (top : ℕ) : Prop where
  owns : s.start.vmm.Owns top s.oldPages
  buffer : s.identifyBuffer ≠ null →
    s.identifyBuffer = u64 (s.identifyBufferPhys + s.start.vmm.hhdmOffset)

/-- `nvme_admin_queue_init` gets two pages, or there is none left. -/
theorem nvmeAdminQueueInit_spec {start : NvmeStart} (h : start.vmm.Owns top pages) :
    (nvmeAdminQueueInit start).1 = false ∧
        (∀ f, ¬ (nvmeAdminQueueInit start).2.vmm.pmm.Free f) ∨
      (nvmeAdminQueueInit start).1 = true ∧
        (nvmeAdminQueueInit start).2.vmm.Owns top
          ((nvmeAdminQueueInit start).2.controller.adminCqPhys ::
            (nvmeAdminQueueInit start).2.controller.adminSqPhys :: pages) ∧
        (nvmeAdminQueueInit start).2.vmm.hhdmOffset = start.vmm.hhdmOffset ∧
        (nvmeAdminQueueInit start).2.controller.adminQueueSize = 64 ∧
        (nvmeAdminQueueInit start).2.controller.sqTail = 0 ∧
        (nvmeAdminQueueInit start).2.controller.cqHead = 0 := by
  rcases NvmeStart.alloc_two h with ⟨hnull, hfull⟩ | ⟨hne, hpages⟩
  · have heq : nvmeAdminQueueInit start = (false, start.allocPage.2.allocPage.2) := if_pos hnull
    rw [heq]
    exact .inl ⟨rfl, hfull⟩
  · have hsq : start.allocPage.1 ∈
        start.allocPage.2.allocPage.1 :: start.allocPage.1 :: pages := by simp
    obtain ⟨m, hm, -⟩ := NvmeStart.clearPage_spec hpages hsq
    have hpages' : (start.allocPage.2.allocPage.2.clearPage start.allocPage.1).vmm.Owns top
        (start.allocPage.2.allocPage.1 :: start.allocPage.1 :: pages) := by
      rw [hm]
      exact hpages.write m
    obtain ⟨m', hm', -⟩ := NvmeStart.clearPage_spec hpages' List.mem_cons_self
    have heq : nvmeAdminQueueInit start = (true,
        let s := (start.allocPage.2.allocPage.2.clearPage start.allocPage.1).clearPage
          start.allocPage.2.allocPage.1
        { s with controller := { s.controller with
          adminSqPhys := start.allocPage.1
          adminCqPhys := start.allocPage.2.allocPage.1
          sqTail := 0
          cqHead := 0
          adminQueueSize := 64 } }) := if_neg hne
    rw [heq, hm', hm]
    exact .inr ⟨rfl, (hpages.write m).write m', rfl, rfl, rfl, rfl⟩

/-- There is a controller, but its registers cannot be mapped for want of a page for a table. -/
def NvmeStart.Lost (start : NvmeStart) (found : Option ℕ) : Prop :=
  ∃ bar0, found = some bar0 ∧
    ¬ (vmmMapRange start.vmm nvmeMmio bar0 nvmeMmioSize nvmeFlags).Mapped nvmeMmio

/-- `nvme_init` gets to its first loop, or it has an excuse, or the registers are not mapped. -/
theorem NvmeSetup.Initial.begin (h : s.Initial top) (found : Option ℕ) (registers : ℕ → ℕ) :
    (s.begin found registers).Inv top found (s.start.Lost found) := by
  cases found with
  | none => exact ⟨.inl rfl, fun henabled => nomatch henabled⟩
  | some bar0 =>
    by_cases hmapped :
        (vmmMapRange s.start.vmm nvmeMmio bar0 nvmeMmioSize nvmeFlags).Mapped nvmeMmio
    · obtain ⟨start, hqueues, hstart, hhhdm⟩ : ∃ start,
          nvmeInitQueues s.start (some bar0) registers = some (nvmeAdminQueueInit start) ∧
            start.vmm.Owns top s.oldPages ∧ start.vmm.hhdmOffset = s.start.vmm.hhdmOffset :=
        ⟨_, if_pos hmapped, h.owns.mapRange .., hhdm_mapRangeLoop ..⟩
      have hspec := nvmeAdminQueueInit_spec hstart
      rw [NvmeSetup.begin, hqueues]
      cases hresult : nvmeAdminQueueInit start with
      | mk ok start' =>
        rw [hresult] at hspec
        rcases hspec with ⟨rfl, hfull⟩ | ⟨rfl, howns, hhhdm', hsize, hsqTail, hcqHead⟩
        · exact ⟨.inr (.inl hfull), fun henabled => nomatch henabled⟩
        · have hperm : start'.vmm.Owns top (s.oldPages ++
              [start'.controller.adminCqPhys, start'.controller.adminSqPhys]) :=
            howns.perm (@List.perm_append_comm _ [_, _] s.oldPages)
          have hbuffer (hne : s.identifyBuffer ≠ null) :
              s.identifyBuffer = u64 (s.identifyBufferPhys + start'.vmm.hhdmOffset) := by
            rw [hhhdm', hhhdm]
            exact h.buffer hne
          simp only
          split_ifs
          · exact NvmeSetup.Prepared.enable ⟨hsize, hsqTail, hcqHead, fun _ => rfl, hperm, hbuffer⟩
          · exact ⟨⟨hsize, hsqTail, hcqHead, fun _ => rfl, hperm, hbuffer⟩, rfl⟩
    · have hqueues : nvmeInitQueues s.start (some bar0) registers = none := if_neg hmapped
      rw [NvmeSetup.begin, hqueues]
      exact ⟨.inl ⟨bar0, rfl, hmapped⟩, fun henabled => nomatch henabled⟩

/-! ### The doorbell stride -/

/-- The buffer is set to zero and a command is submitted. -/
theorem NvmeSetup.stride_submit (s : NvmeSetup) (stage : NvmeStage) :
    (s.clearIdentifyBuffer.submit stage).io.doorbellStride = s.io.doorbellStride := by
  obtain ⟨m, hclear⟩ := s.clearIdentifyBuffer_eq
  rw [hclear]
  rfl

theorem NvmeSetup.stride_next (s : NvmeSetup) (stage : NvmeStage) :
    (s.next stage).io.doorbellStride = s.io.doorbellStride := by
  cases stage with
  | identifyController => exact s.stride_submit .identifyNamespace
  | identifyNamespace =>
    have hpages : (nvmeIoQueuePages s).2.io.doorbellStride = s.io.doorbellStride := by
      simp only [nvmeIoQueuePages]
      split_ifs <;> rfl
    simp only [NvmeSetup.next]
    split_ifs
    · exact hpages
    · exact hpages
  | createIoCq => rfl
  | createIoSq => rfl

/-- The stride stays as it has been read. -/
theorem NvmeSetup.stride_step (hstep : s.Step s') :
    s'.io.doorbellStride = s.io.doorbellStride := by
  obtain ⟨e, hexec⟩ := hstep
  cases e with
  | poll csts =>
    obtain rfl := Option.some.inj hexec
    rw [NvmeSetup.poll]
    cases s.phase with
    | disabling =>
      simp only
      split_ifs <;> rfl
    | starting =>
      have hbuffer : (nvmeAllocIdentifyBuffer s).2.io.doorbellStride = s.io.doorbellStride := by
        simp only [nvmeAllocIdentifyBuffer]
        split_ifs <;> rfl
      generalize nvmeAllocIdentifyBuffer s = r at hbuffer
      obtain ⟨ok, t⟩ := r
      simp only
      split_ifs
      · exact (t.stride_submit .identifyController).trans hbuffer
      · exact hbuffer
      · rfl
    | waiting stage =>
      simp only
      split_ifs
      · rcases nvmeWaitFinish_cases s with ⟨-, heq⟩ | ⟨-, ⟨-, heq⟩ | heq⟩
        · rw [heq]
          rfl
        · rw [heq]
        · rw [heq]
          exact s.finished.stride_next stage
      · rfl
    | returned b => rfl
    | faulted => rfl
  | fetch =>
    simp only [NvmeSetup.exec] at hexec
    split_ifs at hexec
    rw [← Option.some.inj hexec]
    rfl
  | post i status data =>
    simp only [NvmeSetup.exec] at hexec
    split_ifs at hexec
    obtain ⟨command, -, rfl⟩ := Option.map_eq_some_iff.mp hexec
    rfl

/-- Once `nvme_init` has returned, it has returned. -/
theorem NvmeSetup.returned_step {b : Bool} (hstep : s.Step s') (hp : s.phase = .returned b) :
    s'.phase = .returned b := by
  obtain ⟨e, hexec⟩ := hstep
  cases e with
  | poll csts =>
    obtain rfl := Option.some.inj hexec
    rw [NvmeSetup.poll, hp]
    exact hp
  | fetch =>
    simp only [NvmeSetup.exec] at hexec
    split_ifs at hexec
    rw [← Option.some.inj hexec]
    exact hp
  | post i status data =>
    simp only [NvmeSetup.exec] at hexec
    split_ifs at hexec
    obtain ⟨command, -, rfl⟩ := Option.map_eq_some_iff.mp hexec
    exact hp

theorem NvmeStart.clearPage_controller (start : NvmeStart) (phys : ℕ) :
    (start.clearPage phys).controller = start.controller := by
  obtain ⟨m, hclear⟩ : ∃ m, start.clearPage phys =
    { start with vmm := { start.vmm with mem := m } } := ⟨_, rfl⟩
  rw [hclear]

theorem nvmeAdminQueueInit_caps (start : NvmeStart) :
    (nvmeAdminQueueInit start).2.controller.caps = start.controller.caps := by
  simp only [nvmeAdminQueueInit]
  split_ifs
  · rfl
  · simp only [NvmeStart.clearPage_controller]
    rfl

/-- Before its first loop `nvme_init` has read the stride. -/
theorem NvmeSetup.begin_stride (s : NvmeSetup) (found : Option ℕ) (registers : ℕ → ℕ) :
    (s.begin found registers).phase = .returned false ∨ s.start.Lost found ∨
      (s.begin found registers).io.doorbellStride =
        (nvmeParseCap (registers 0x00)).doorbellStride := by
  cases found with
  | none => exact .inl rfl
  | some bar0 =>
    by_cases hmapped :
        (vmmMapRange s.start.vmm nvmeMmio bar0 nvmeMmioSize nvmeFlags).Mapped nvmeMmio
    · obtain ⟨start, hqueues, hcaps⟩ : ∃ start,
          nvmeInitQueues s.start (some bar0) registers = some (nvmeAdminQueueInit start) ∧
            start.controller.caps = nvmeParseCap (registers 0x00) := ⟨_, if_pos hmapped, rfl⟩
      rw [← nvmeAdminQueueInit_caps] at hcaps
      rw [NvmeSetup.begin, hqueues]
      cases hresult : nvmeAdminQueueInit start with
      | mk ok start' =>
        rw [hresult] at hcaps
        cases ok with
        | false => exact .inl rfl
        | true =>
          refine .inr (.inr ?_)
          rw [← hcaps]
          simp only
          split_ifs <;> rfl
    · exact .inr (.inl ⟨bar0, rfl, hmapped⟩)

theorem NvmeSetup.run_stride
    (hrun : ReflTransGen NvmeSetup.Step (s.begin found registers) s') :
    s'.phase = .returned false ∨ s.start.Lost found ∨
      s'.io.doorbellStride = (nvmeParseCap (registers 0x00)).doorbellStride := by
  induction hrun with
  | refl => exact s.begin_stride found registers
  | tail _ hstep ih =>
    rcases ih with hreturned | hlost | hstride
    · exact .inl (NvmeSetup.returned_step hstep hreturned)
    · exact .inr (.inl hlost)
    · exact .inr (.inr ((NvmeSetup.stride_step hstep).trans hstride))

/-! ### Runs -/

/-- **Every run** keeps the invariant. -/
theorem NvmeSetup.Initial.run (h : s.Initial top)
    (hrun : ReflTransGen NvmeSetup.Step (s.begin found registers) s') :
    s'.Inv top found (s.start.Lost found) := by
  induction hrun with
  | refl => exact h.begin found registers
  | tail _ hstep ih => exact ih.exec hstep

/-- **The handshake of `nvme_init` with the controller.**  However the controller behaves,
`nvme_init` returns true only after the controller has answered its four commands, in order and
without an error.  The size of blocks and their number are then from the data of the second
answer, the rings for I/O are blank, and all queues have pages of their own.  It returns false
only without a controller, without a page left, or after the controller has answered with an
error.  At no time is more than one command under way.  It leaves the window of the registers only
if that could not be mapped, or the doorbells are `4 << 10` bytes apart or more. -/
theorem nvmeInit_handshake (h : s.Initial top) (found : Option ℕ) (registers : ℕ → ℕ)
    (hrun : ReflTransGen NvmeSetup.Step (s.begin found registers) s') :
    (s'.phase = .returned true → s'.Complete top) ∧
    (s'.phase = .returned false → s'.Excused found) ∧
    (s'.device.enabled = true → s'.device.taken.length ≤ 1 ∧
      ∀ command ∈ s'.device.taken, ∃ stage, s'.phase = .waiting stage ∧
        command = s'.command stage) ∧
    (s'.phase = .faulted →
      s.start.Lost found ∨ 10 ≤ (nvmeParseCap (registers 0x00)).doorbellStride) := by
  have hinv : s'.InPhase top found (s.start.Lost found) s'.phase := h.run hrun
  refine ⟨fun hp => ?_, fun hp => ?_, fun henabled => ?_, fun hp => ?_⟩
  · rw [hp] at hinv
    exact hinv
  · rw [hp] at hinv
    exact hinv.1
  · by_cases hquiet : s'.Quiet
    · rw [hquiet.2]
      exact ⟨Nat.zero_le _, fun command hmem => absurd hmem List.not_mem_nil⟩
    · obtain ⟨stage, hp, hwaits, -⟩ := NvmeSetup.Inv.busy (h.run hrun) henabled hquiet
      rcases hwaits.way with hqueued | htaken | hdone
      · rw [hqueued.2.1]
        exact ⟨Nat.zero_le _, fun command hmem => absurd hmem List.not_mem_nil⟩
      · rw [htaken.2.1]
        exact ⟨le_rfl, fun command hmem => ⟨stage, hp, List.mem_singleton.mp hmem⟩⟩
      · exact absurd hdone.1 hquiet
  · rw [hp] at hinv
    rcases NvmeSetup.run_stride hrun with hreturned | hlost | hstride
    · exact nomatch hp.symm.trans hreturned
    · exact .inl hlost
    · exact hinv.1.imp_right hstride.le.trans'

/-! ### The way to the end -/

/-- What is still to come. -/
def NvmeSetupPhase.rank : NvmeSetupPhase → ℕ
  | .disabling => 6
  | .starting => 5
  | .waiting stage => 4 - stage.index
  | .returned _ => 0
  | .faulted => 0

theorem NvmeSetup.rank_next (s : NvmeSetup) (stage : NvmeStage) :
    (s.next stage).phase.rank < (NvmeSetupPhase.waiting stage).rank := by
  cases stage with
  | identifyController =>
    show (NvmeSetupPhase.waiting .identifyNamespace).rank < _
    decide
  | identifyNamespace =>
    simp only [NvmeSetup.next]
    split_ifs
    · show (NvmeSetupPhase.waiting .createIoCq).rank < _
      decide
    · show (NvmeSetupPhase.returned false).rank < _
      decide
  | createIoCq =>
    show (NvmeSetupPhase.waiting .createIoSq).rank < _
    decide
  | createIoSq =>
    show (NvmeSetupPhase.returned true).rank < _
    decide

/-- Once the command is done, the next look of the driver goes on. -/
theorem NvmeSetup.Waits.rank_poll (h : s.Waits stage) (hdone : s.Done stage)
    (hp : s.phase = .waiting stage) : (s.poll 0).phase.rank < s.phase.rank := by
  have hpos : 0 < (NvmeSetupPhase.waiting stage).rank := by cases stage <;> decide
  rw [NvmeSetup.poll, hp]
  simp only [if_pos (h.found_iff.mpr hdone)]
  rcases nvmeWaitFinish_cases s with ⟨-, heq⟩ | ⟨-, ⟨-, heq⟩ | heq⟩
  · rw [heq]
    exact hpos
  · rw [heq]
    exact hpos
  · rw [heq]
    exact NvmeSetup.rank_next _ _

/-- The controller can complete the command that the driver waits for. -/
theorem NvmeSetup.Waits.reaches (h : s.Waits stage) (hp : s.phase = .waiting stage) :
    ∃ s', ReflTransGen NvmeSetup.Step s s' ∧ s'.phase = .waiting stage ∧ s'.Waits stage ∧
      s'.Done stage := by
  have hpost : ∀ {t : NvmeSetup}, t.Waits stage → t.phase = .waiting stage → t.Taken stage →
      ∃ s', t.Step s' ∧ s'.phase = .waiting stage ∧ s'.Waits stage ∧ s'.Done stage := by
    intro t hwaits hphase htaken
    obtain ⟨hdone, hwaits'⟩ := hwaits.post htaken 0 fun _ => 0
    refine ⟨t.post ⟨t.command stage, 0, fun _ => 0⟩ [], ⟨.post 0 0 fun _ => 0, ?_⟩, hphase,
      hwaits', hdone⟩
    simp [NvmeSetup.exec, hwaits.enabled, htaken.2.1]
  rcases h.way with hqueued | htaken | hdone
  · have hne : s.device.sqHead ≠ s.device.sqTail := by
      rw [hqueued.1, h.doorbell]
      exact (Nat.succ_ne_self _).symm
    obtain ⟨htaken, hwaits⟩ := h.fetch hne
    obtain ⟨s', hstep, hs'⟩ := hpost hwaits hp htaken
    exact ⟨s', .head ⟨.fetch, if_pos ⟨h.enabled, hne⟩⟩ (.single hstep), hs'⟩
  · obtain ⟨s', hstep, hs'⟩ := hpost h hp htaken
    exact ⟨s', .single hstep, hs'⟩
  · exact ⟨s, .refl, hp, h, hdone⟩

/-- Some events bring `nvme_init` forward. -/
theorem NvmeSetup.Inv.advance (h : s.Inv top found lost) (hrank : 0 < s.phase.rank) :
    ∃ s', ReflTransGen NvmeSetup.Step s s' ∧ s'.phase.rank < s.phase.rank := by
  have hin : s.InPhase top found lost s.phase := h
  cases hp : s.phase with
  | disabling =>
    refine ⟨s.poll 0, .single ⟨.poll 0, rfl⟩, ?_⟩
    rw [NvmeSetup.poll, hp]
    simp only [Nat.zero_and, ne_eq, not_true_eq_false, if_false]
    exact Nat.lt_succ_self 5
  | starting =>
    refine ⟨s.poll 1, .single ⟨.poll 1, rfl⟩, ?_⟩
    rw [NvmeSetup.poll, hp]
    simp only [Nat.and_self, ne_eq, one_ne_zero, not_false_eq_true, if_true]
    split_ifs
    · exact Nat.lt_succ_self 4
    · exact Nat.succ_pos 4
  | waiting stage =>
    rw [hp] at hin
    obtain ⟨s', hrun, hphase, hwaits, hdone⟩ := hin.1.reaches hp
    refine ⟨s'.poll 0, hrun.tail ⟨.poll 0, rfl⟩, ?_⟩
    rw [← hphase]
    exact hwaits.rank_poll hdone hphase
  | returned b =>
    rw [hp] at hrank
    exact absurd hrank (Nat.lt_irrefl 0)
  | faulted =>
    rw [hp] at hrank
    exact absurd hrank (Nat.lt_irrefl 0)

/-- With a page for each table that is missing for the window, and doorbells that lie in it,
`nvme_init` does not leave the window. -/
theorem NvmeSetup.Initial.not_faulted (h : s.Initial top)
    (htree : PageTree (s.start.vmm.only root keep) top root)
    (hkeep : keep (pml4Index nvmeMmio) = true)
    (hroom : missingTables s.start.vmm nvmeMmio ≤ s.start.vmm.pmm.freePages)
    (hstride : (nvmeParseCap (registers 0x00)).doorbellStride < 10)
    (hrun : ReflTransGen NvmeSetup.Step (s.begin found registers) s') : s'.phase ≠ .faulted := by
  intro hp
  have hinv : s'.InPhase top found (s.start.Lost found) s'.phase := h.run hrun
  have hmapped : ¬ s.start.Lost found := fun ⟨bar0, _, hunmapped⟩ =>
    hunmapped ((nvmeMmio_mapped htree hkeep h.owns.notNull bar0).1.mpr hroom)
  rw [hp] at hinv
  rcases NvmeSetup.run_stride hrun with hreturned | hlost | hread
  · exact nomatch hp.symm.trans hreturned
  · exact hmapped hlost
  · rcases hinv.1 with hlost | hlong
    · exact hmapped hlost
    · omega

/-- **`nvme_init` can always return**, whatever has happened so far, if there is a page for each
table that is missing for the window, and the doorbells are less than `4 << 10` bytes apart. -/
theorem nvmeInit_returns (h : s.Initial top)
    (htree : PageTree (s.start.vmm.only root keep) top root)
    (hkeep : keep (pml4Index nvmeMmio) = true)
    (hroom : missingTables s.start.vmm nvmeMmio ≤ s.start.vmm.pmm.freePages)
    (found : Option ℕ) (registers : ℕ → ℕ)
    (hstride : (nvmeParseCap (registers 0x00)).doorbellStride < 10)
    (hrun : ReflTransGen NvmeSetup.Step (s.begin found registers) s') :
    ∃ s'' result, ReflTransGen NvmeSetup.Step s' s'' ∧ s''.phase = .returned result := by
  induction hn : s'.phase.rank using Nat.strong_induction_on generalizing s' with
  | _ n ih =>
    subst hn
    cases hp : s'.phase with
    | returned result => exact ⟨s', result, .refl, hp⟩
    | faulted => exact absurd hp (h.not_faulted htree hkeep hroom hstride hrun)
    | _ =>
      have hpos : 0 < s'.phase.rank := by
        rw [hp]
        first
          | decide
          | cases ‹NvmeStage› <;> decide
      obtain ⟨t, hsteps, hlt⟩ := NvmeSetup.Inv.advance (h.run hrun) hpos
      obtain ⟨s'', result, hrest, hresult⟩ := ih _ hlt (hrun.trans hsteps) rfl
      exact ⟨s'', result, hsteps.trans hrest, hresult⟩

/-- Events one after the other, as long as each can happen. -/
def NvmeSetup.run (s : NvmeSetup) : List NvmeSetupEvent → Option NvmeSetup
  | [] => some s
  | e :: events => (s.exec e).bind fun s => s.run events

theorem NvmeSetup.reflTransGen_of_run {events : List NvmeSetupEvent}
    (h : s.run events = some s') : ReflTransGen NvmeSetup.Step s s' := by
  induction events generalizing s with
  | nil => exact Option.some.inj h ▸ .refl
  | cons e events ih =>
    obtain ⟨t, hexec, hrest⟩ := Option.bind_eq_some_iff.mp h
    exact .head ⟨e, hexec⟩ (ih hrest)

/-- Five free pages, and the tables for the window. -/
def exampleSetup : NvmeSetup where
  start := { exampleStart with vmm := bootVmm }
  adminSq := fun _ => {}
  adminCq := fun _ => {}
  identifyBuffer := null
  identifyBufferPhys := 0
  ioSqPhys := 0
  ioCqPhys := 0
  io := plainNvme
  blockCount := 0
  registered := false
  phase := .disabling
  device := ⟨false, 0, 0, 0, [], []⟩

theorem exampleSetup_initial : exampleSetup.Initial 0xa000 where
  owns := by
    refine ⟨bootVmm_tree.directMap, bootVmm_tree.pmm, takenVmm_notNull 3, ?_, ?_⟩
    · exact List.nodup_nil
    · exact fun f hf => absurd hf List.not_mem_nil
  buffer hne := absurd rfl hne

/-- Queues of up to 64 entries, and doorbells 8 bytes apart. -/
def exampleRegisters (offset : ℕ) : ℕ := if offset = 0x00 then 1 <<< 32 ||| 63 else 0

/-- The controller answers the four commands, each at once. -/
def exampleEvents : List NvmeSetupEvent :=
  .poll 1 :: (List.replicate 4 [.fetch, .post 0 0 fun _ => 9, .poll 0]).flatten

theorem exampleSetup_run : ((exampleSetup.begin (some 0xFEBD4000) exampleRegisters).run
    exampleEvents).map NvmeSetup.phase = some (.returned true) := by
  rfl

theorem nvmeInit_handshake_example : ∃ s',
    ReflTransGen NvmeSetup.Step (exampleSetup.begin (some 0xFEBD4000) exampleRegisters) s' ∧
      s'.phase = .returned true ∧ s'.Complete 0xa000 := by
  obtain ⟨s', hrun, hphase⟩ := Option.map_eq_some_iff.mp exampleSetup_run
  have hsteps := NvmeSetup.reflTransGen_of_run hrun
  exact ⟨s', hsteps, hphase,
    (nvmeInit_handshake exampleSetup_initial (some 0xFEBD4000) exampleRegisters hsteps).1 hphase⟩

/-- From the middle of that run it can return. -/
theorem nvmeInit_returns_example : ∃ s' s'' result,
    (exampleSetup.begin (some 0xFEBD4000) exampleRegisters).run [.poll 1, .fetch] = some s' ∧
      ReflTransGen NvmeSetup.Step s' s'' ∧ s''.phase = .returned result := by
  have hsome : ((exampleSetup.begin (some 0xFEBD4000) exampleRegisters).run
      [.poll 1, .fetch]).map NvmeSetup.phase = some (.waiting .identifyController) := by
    rfl
  obtain ⟨s', hrun, -⟩ := Option.map_eq_some_iff.mp hsome
  obtain ⟨s'', result, hreturns⟩ := nvmeInit_returns exampleSetup_initial bootVmm_tree rfl
    (by decide) (some 0xFEBD4000) exampleRegisters (by decide)
    (NvmeSetup.reflTransGen_of_run hrun)
  exact ⟨s', s'', result, hrun, hreturns⟩

end Bethany
