import Bethany.Library.Runs
import Bethany.Memory.Vmm

/-!
# The I/O queues of the NVMe driver

`nvme.c` keeps one submission ring and one completion ring of 64 entries for I/O.  A call puts
its command into the submission ring, rings the doorbell, and then looks at one slot of the
completion ring until that slot shows the command id of the call.  Command ids are fixed: 5
for reads, 6 for writes, 7 for flushes.

The controller takes commands from the submission ring in order, and at any later moment posts
a completion for one of them into the next slot of the completion ring.  It runs beside the
driver.

* the source: `nvmeRead`, `nvmeWrite`, `nvmeFlush`, `nvmeIoSubmit`, `nvmeIoFound`,
  `nvmeIoFinish`;
* `NvmeSys`, `NvmeSys.exec`: the driver and the controller, one event at a time;
* `NvmeSys.Fresh`: a call does not find its command id in the slot it is going to look at;
* `NvmeSys.Inv`, `NvmeSys.Inv.exec`: at most one command is under way, and the slot in view
  shows its id only once it is done;
* `nvmeIoSubmit_matched`: the completions that calls return.
-/

namespace Bethany

open Machine Relation Runs

/-! ### The source -/

/-- `nvme_command_t`; every field that is not set is zero, as after `= {0}`. -/
structure NvmeCommand where
  opcode : ℕ := 0
  flags : ℕ := 0
  commandId : ℕ := 0
  nsid : ℕ := 0
  metadata : ℕ := 0
  prp1 : ℕ := 0
  prp2 : ℕ := 0
  cdw10 : ℕ := 0
  cdw11 : ℕ := 0
  cdw12 : ℕ := 0
  cdw13 : ℕ := 0
  cdw14 : ℕ := 0
  cdw15 : ℕ := 0

/-- `nvme_completion_t`, the two fields that the driver reads. -/
structure NvmeCompletion where
  commandId : ℕ := 0
  status : ℕ := 0

/-- `nvme_controller_t`, as far as I/O calls use it; `registers` gives the value last written at
each offset from `mmio`. -/
structure Nvme where
  doorbellStride : ℕ
  blockSize : ℕ
  ioSq : ℕ → NvmeCommand
  ioCq : ℕ → NvmeCompletion
  ioSqTail : ℕ
  ioCqHead : ℕ
  ioQueueSize : ℕ
  registers : ℕ → ℕ

/-- `nvme_write32` -/
def nvmeWrite32 (c : Nvme) (offset value : ℕ) : Nvme :=
  { c with registers := Function.update c.registers offset value }

/-- `nvme_doorbell_offset` -/
def nvmeDoorbellOffset (c : Nvme) (qid : ℕ) (isCq : Bool) : ℕ :=
  let stride := 4 <<< c.doorbellStride
  0x1000 + (2 * qid + (if isCq then 1 else 0)) * stride

/-- `nvme_io_queue_init`, once it has its two pages. -/
def nvmeIoQueueInit (c : Nvme) : Nvme :=
  { c with
    ioSq := fun _ => {}
    ioCq := fun _ => {}
    ioSqTail := 0
    ioCqHead := 0
    ioQueueSize := 64 }

/-- The index after `i` in a ring: `i++; if(i == size) i = 0;` -/
def ringNext (size i : ℕ) : ℕ := if i + 1 = size then 0 else i + 1

/-- `nvme_io_submit`, up to its call of `nvme_io_wait_completion`. -/
def nvmeIoSubmit (c : Nvme) (command : NvmeCommand) : Nvme :=
  let slot := c.ioSqTail
  let c := { c with ioSq := Function.update c.ioSq slot command }
  let c := { c with ioSqTail := ringNext c.ioQueueSize c.ioSqTail }
  nvmeWrite32 c (nvmeDoorbellOffset c 1 false) c.ioSqTail

/-- The slot that `nvme_io_wait_completion` looks at. -/
def Nvme.cqe (c : Nvme) : NvmeCompletion := c.ioCq c.ioCqHead

/-- The loop of `nvme_io_wait_completion` ends when this holds. -/
def nvmeIoFound (c : Nvme) (cid : ℕ) : Bool := c.cqe.commandId == cid

/-- `nvme_io_wait_completion` after its loop. -/
def nvmeIoFinish (c : Nvme) : Bool × Nvme :=
  let status := c.cqe.status >>> 1
  if status ≠ 0 then (false, c)
  else
    let c := { c with ioCqHead := ringNext c.ioQueueSize c.ioCqHead }
    (true, nvmeWrite32 c (nvmeDoorbellOffset c 1 true) c.ioCqHead)

/-- What `nvme_read` and `nvme_write` do up to `nvme_io_submit`: the command, or nothing if they
return false instead. -/
def nvmeTransfer (opcode commandId : ℕ) (vmm : Vmm) (c : Nvme) (lba blocks buffer : ℕ) :
    Option NvmeCommand :=
  if buffer = null ∨ blocks = 0 then none
  else if blocks > 0x10000 then none
  else if blocks * c.blockSize > pageSize then none
  else some
    { opcode := opcode
      commandId := commandId
      nsid := 1
      prp1 := physOf vmm buffer
      cdw10 := lba % 2 ^ 32
      cdw11 := (lba >>> 32) % 2 ^ 32
      cdw12 := blocks - 1 }

/-- `nvme_read` -/
def nvmeRead : Vmm → Nvme → (lba blocks buffer : ℕ) → Option NvmeCommand := nvmeTransfer 0x02 5

/-- `nvme_write` -/
def nvmeWrite : Vmm → Nvme → (lba blocks buffer : ℕ) → Option NvmeCommand := nvmeTransfer 0x01 6

/-- `nvme_flush` -/
def nvmeFlush : NvmeCommand := { opcode := 0x00, commandId := 7, nsid := 0xFFFFFFFF }

/-- A call of the block device. -/
inductive NvmeCall
  | read (lba blocks buffer : ℕ)
  | write (lba blocks buffer : ℕ)
  | flush

/-- The command that a call passes to `nvme_io_submit`, if it gets there. -/
def NvmeCall.command (vmm : Vmm) (c : Nvme) : NvmeCall → Option NvmeCommand
  | .read lba blocks buffer => nvmeRead vmm c lba blocks buffer
  | .write lba blocks buffer => nvmeWrite vmm c lba blocks buffer
  | .flush => some nvmeFlush

/-! ### The driver and the controller together -/

/-- Where the driver is: outside of `nvme_io_submit`, in the loop for submission `n`, or past that
loop. -/
inductive NvmePhase
  | idle
  | polling (n cid : ℕ)
  | found (n : ℕ)
  deriving DecidableEq

/-- The driver and the controller.  Submissions are numbered from 0: `owner` gives the one last
put into each slot of the submission ring, `taken` the ones that the controller has taken and
not yet completed, with their command ids, and `posted` the statuses it has posted. -/
structure NvmeSys where
  vmm : Vmm
  driver : Nvme
  phase : NvmePhase
  sqHead : ℕ
  cqTail : ℕ
  taken : List (ℕ × ℕ)
  submitted : ℕ
  owner : ℕ → ℕ
  posted : ℕ → Option ℕ

inductive NvmeEvent
  | call (call : NvmeCall)
  | poll
  | finish
  | fetch
  | post (n cid status : ℕ)

/-- The state after a call: nothing has changed when it is refused. -/
def NvmeSys.call (s : NvmeSys) (call : NvmeCall) : NvmeSys :=
  match call.command s.vmm s.driver with
  | none => s
  | some command =>
      { s with
        driver := nvmeIoSubmit s.driver command
        phase := .polling s.submitted command.commandId
        submitted := s.submitted + 1
        owner := Function.update s.owner s.driver.ioSqTail s.submitted }

/-- The driver looks at its slot once. -/
def NvmeSys.poll (s : NvmeSys) (n cid : ℕ) : NvmeSys :=
  if nvmeIoFound s.driver cid then { s with phase := .found n } else s

/-- The controller takes the next command. -/
def NvmeSys.fetch (s : NvmeSys) : NvmeSys :=
  { s with
    taken := s.taken ++ [(s.owner s.sqHead, (s.driver.ioSq s.sqHead).commandId)]
    sqHead := ringNext s.driver.ioQueueSize s.sqHead }

/-- The controller completes submission `n`. -/
def NvmeSys.post (s : NvmeSys) (n cid status : ℕ) : NvmeSys :=
  { s with
    driver := { s.driver with ioCq := Function.update s.driver.ioCq s.cqTail ⟨cid, status⟩ }
    taken := s.taken.erase (n, cid)
    cqTail := ringNext s.driver.ioQueueSize s.cqTail
    posted := Function.update s.posted n (some status) }

/-- One event: nothing if it cannot happen. -/
def NvmeSys.exec (s : NvmeSys) : NvmeEvent → Option NvmeSys
  | .call call => if s.phase = .idle then some (s.call call) else none
  | .poll =>
      match s.phase with
      | .polling n cid => some (s.poll n cid)
      | _ => none
  | .finish =>
      match s.phase with
      | .found _ => some { s with phase := .idle, driver := (nvmeIoFinish s.driver).2 }
      | _ => none
  | .fetch =>
      if s.sqHead ≠ s.driver.registers (nvmeDoorbellOffset s.driver 1 false) then some s.fetch
      else none
  | .post n cid status =>
      if (n, cid) ∈ s.taken ∧ status < 2 ^ 16 then some (s.post n cid status) else none

/-- After `nvme_init`: the rings are zeroed, and the controller has created its two queues. -/
def NvmeSys.start (vmm : Vmm) (c : Nvme) : NvmeSys where
  vmm := vmm
  driver := nvmeWrite32 (nvmeIoQueueInit c) (nvmeDoorbellOffset c 1 false) 0
  phase := .idle
  sqHead := 0
  cqTail := 0
  taken := []
  submitted := 0
  owner := fun _ => 0
  posted := fun _ => none

/-- `nvme_io_submit` returns `b` for submission `n`. -/
def NvmeSys.Returns (s : NvmeSys) (n : ℕ) (b : Bool) : Prop :=
  s.phase = .found n ∧ (nvmeIoFinish s.driver).1 = b

/-- The controller has completed submission `n`, with the status that `b` stands for. -/
def NvmeSys.Completed (s : NvmeSys) (n : ℕ) (b : Bool) : Prop :=
  ∃ status, s.posted n = some status ∧ b = (status >>> 1 == 0)

/-- A call that submits a command does not find its id in the slot it is going to look at. -/
def NvmeSys.Fresh (s : NvmeSys) : NvmeEvent → Prop
  | .call call => ∀ command, call.command s.vmm s.driver = some command →
      s.driver.cqe.commandId ≠ command.commandId
  | _ => True

instance (s : NvmeSys) : DecidablePred s.Fresh
  | .call call => inferInstanceAs (Decidable (∀ command ∈ call.command s.vmm s.driver, _))
  | .poll | .finish | .fetch | .post .. => isTrue trivial

/-- One event of a run in which all events are as `ok` says. -/
def NvmeSys.Step (ok : NvmeSys → NvmeEvent → Prop) (s s' : NvmeSys) : Prop :=
  ∃ e, ok s e ∧ s.exec e = some s'

variable {s s' : NvmeSys} {vmm : Vmm} {c : Nvme} {command : NvmeCommand} {k : NvmeCall}
  {e : NvmeEvent} {n cid status : ℕ} {b : Bool}

/-! ### The rings and the doorbells -/

theorem nvmeDoorbellOffset_ne (c c' : Nvme) (h : c.doorbellStride = c'.doorbellStride) (qid : ℕ) :
    nvmeDoorbellOffset c qid false ≠ nvmeDoorbellOffset c' qid true := by
  have hpos : 0 < 4 <<< c'.doorbellStride := by
    rw [Nat.shiftLeft_eq]
    positivity
  unfold nvmeDoorbellOffset
  simp only [h, Bool.false_eq_true, if_false, if_true, Nat.add_mul]
  omega

/-- `nvme_io_wait_completion` returns whether the status in view is zero. -/
theorem nvmeIoFinish_fst (c : Nvme) : (nvmeIoFinish c).1 = (c.cqe.status >>> 1 == 0) := by
  simp only [nvmeIoFinish]
  split_ifs with hstatus
  · exact (beq_eq_false_iff_ne.mpr hstatus).symm
  · exact (beq_iff_eq.mpr (not_not.mp hstatus)).symm

/-- The controller has taken and completed all that was submitted. -/
def NvmeSys.Quiet (s : NvmeSys) : Prop := s.sqHead = s.driver.ioSqTail ∧ s.taken = []

/-- Submission `n` is all that waits in the submission ring. -/
def NvmeSys.Queued (s : NvmeSys) (n cid : ℕ) : Prop :=
  ringNext s.driver.ioQueueSize s.sqHead = s.driver.ioSqTail ∧ s.taken = [] ∧
    s.owner s.sqHead = n ∧ (s.driver.ioSq s.sqHead).commandId = cid

/-- Submission `n` is all that the controller works at. -/
def NvmeSys.Taken (s : NvmeSys) (n cid : ℕ) : Prop :=
  s.sqHead = s.driver.ioSqTail ∧ s.taken = [(n, cid)]

/-- What the slot in view says about submission `n` is what the controller has posted for it. -/
def NvmeSys.Shows (s : NvmeSys) (n : ℕ) : Prop :=
  s.Quiet ∧ s.posted n = some s.driver.cqe.status

/-- What holds while the driver is in a phase. -/
def NvmeSys.InPhase (s : NvmeSys) : NvmePhase → Prop
  | .idle => s.Quiet
  | .polling n cid =>
      (s.Queued n cid ∨ s.Taken n cid ∨ s.Quiet) ∧ n < s.submitted ∧
        (s.driver.cqe.commandId = cid → s.Shows n)
  | .found n => s.Shows n

/-- The invariant of runs in which every call is fresh. -/
structure NvmeSys.Inv (s : NvmeSys) : Prop where
  doorbell : s.driver.registers (nvmeDoorbellOffset s.driver 1 false) = s.driver.ioSqTail
  phase : s.InPhase s.phase
  future : ∀ n, s.submitted ≤ n → s.posted n = none

theorem NvmeSys.Inv.start (vmm : Vmm) (c : Nvme) : (NvmeSys.start vmm c).Inv where
  doorbell := Function.update_self ..
  phase := ⟨rfl, rfl⟩
  future _ _ := rfl

/-! ### One event -/

/-- After a fresh call its submission waits in the ring, and the slot in view shows another id. -/
theorem NvmeSys.Inv.call (h : s.Inv) (hidle : s.phase = .idle) (hfresh : s.Fresh (.call k)) :
    (s.call k).Inv := by
  obtain ⟨hdoorbell, hphase, hfuture⟩ := h
  rw [hidle] at hphase
  obtain ⟨hhead, htaken⟩ := hphase
  unfold NvmeSys.call
  cases hc : k.command s.vmm s.driver with
  | none => exact ⟨hdoorbell, hidle ▸ ⟨hhead, htaken⟩, hfuture⟩
  | some command =>
    refine ⟨Function.update_self .., ⟨.inl ⟨?_, htaken, ?_, ?_⟩, Nat.lt_succ_self _, ?_⟩, ?_⟩
    · exact congrArg (ringNext s.driver.ioQueueSize) hhead
    · exact hhead ▸ Function.update_self ..
    · rw [hhead]
      exact congrArg NvmeCommand.commandId (Function.update_self ..)
    · intro heq
      exact absurd heq (hfresh command hc)
    · intro n hn
      exact hfuture n (Nat.le_of_succ_le hn)

theorem NvmeSys.Inv.poll (h : s.Inv) (hphase : s.phase = .polling n cid) :
    (s.poll n cid).Inv := by
  unfold NvmeSys.poll nvmeIoFound
  split_ifs with hfound
  · have hin := h.phase
    rw [hphase] at hin
    exact ⟨h.doorbell, hin.2.2 (beq_iff_eq.mp hfound), h.future⟩
  · exact h

/-- The end of a call leaves the submission ring and its doorbell alone. -/
theorem NvmeSys.Inv.finish (h : s.Inv) (hphase : s.phase = .found n) :
    NvmeSys.Inv { s with phase := .idle, driver := (nvmeIoFinish s.driver).2 } := by
  have hquiet : s.Quiet := by
    have hin := h.phase
    rw [hphase] at hin
    exact hin.1
  simp only [nvmeIoFinish]
  split_ifs
  · exact ⟨h.doorbell, hquiet, h.future⟩
  · refine ⟨?_, hquiet, h.future⟩
    refine Eq.trans ?_ h.doorbell
    exact Function.update_of_ne (nvmeDoorbellOffset_ne _ _ rfl 1) ..

/-- What the controller takes is the submission that the driver waits for. -/
theorem NvmeSys.Inv.fetch (h : s.Inv)
    (hne : s.sqHead ≠ s.driver.registers (nvmeDoorbellOffset s.driver 1 false)) :
    s.fetch.Inv := by
  obtain ⟨hdoorbell, hphase, hfuture⟩ := h
  have hquiet : ¬ s.Quiet := fun hq => hne (hq.1.trans hdoorbell.symm)
  refine ⟨hdoorbell, ?_, hfuture⟩
  show s.fetch.InPhase s.phase
  cases hp : s.phase with
  | idle =>
    rw [hp] at hphase
    exact absurd hphase hquiet
  | found n =>
    rw [hp] at hphase
    exact absurd hphase.1 hquiet
  | polling n cid =>
    rw [hp] at hphase
    obtain ⟨hway, hlt, hshows⟩ := hphase
    refine ⟨.inr (.inl ?_), hlt, fun heq => absurd (hshows heq).1 hquiet⟩
    obtain ⟨hnext, htaken, howner, hid⟩ | ⟨hhead, -⟩ | hq := hway
    · refine ⟨hnext, ?_⟩
      show s.taken ++ _ = _
      rw [htaken, howner, hid, List.nil_append]
    · exact absurd (hhead.trans hdoorbell.symm) hne
    · exact absurd hq hquiet

/-- The controller posts into the slot in view, which then shows the id and the status of the
submission, or into another one. -/
theorem NvmeSys.post_cqe (s : NvmeSys) (n cid status : ℕ) :
    (s.post n cid status).driver.cqe =
      if s.driver.ioCqHead = s.cqTail then ⟨cid, status⟩ else s.driver.cqe :=
  Function.update_apply ..

/-- What the controller completes is the submission that the driver waits for. -/
theorem NvmeSys.Inv.post (h : s.Inv) (hmem : (n, cid) ∈ s.taken) :
    (s.post n cid status).Inv := by
  obtain ⟨hdoorbell, hphase, hfuture⟩ := h
  have hquiet : ¬ s.Quiet := fun hq => List.not_mem_nil (hq.2 ▸ hmem)
  cases hp : s.phase with
  | idle =>
    rw [hp] at hphase
    exact absurd hphase hquiet
  | found n' =>
    rw [hp] at hphase
    exact absurd hphase.1 hquiet
  | polling n' cid' =>
    rw [hp] at hphase
    obtain ⟨hway, hlt, hshows⟩ := hphase
    have hother : s.driver.cqe.commandId ≠ cid' := fun heq => hquiet (hshows heq).1
    obtain ⟨-, htaken, -⟩ | ⟨hhead, htaken⟩ | hq := hway
    · exact absurd (htaken ▸ hmem) List.not_mem_nil
    · obtain ⟨rfl, rfl⟩ : n = n' ∧ cid = cid' := by simpa [htaken] using hmem
      have hq : (s.post n cid status).Quiet := by
        refine ⟨hhead, ?_⟩
        show s.taken.erase (n, cid) = []
        rw [htaken, List.erase_cons_head]
      refine ⟨hdoorbell, ?_, fun k hk => ?_⟩
      · show (s.post n cid status).InPhase s.phase
        rw [hp]
        refine ⟨.inr (.inr hq), hlt, fun heq => ⟨hq, ?_⟩⟩
        rw [NvmeSys.post_cqe] at heq ⊢
        split_ifs at heq ⊢
        · exact Function.update_self ..
        · exact absurd heq hother
      · have hne : k ≠ n := fun heq => absurd (heq ▸ hk) (Nat.not_le_of_lt hlt)
        exact (Function.update_of_ne hne ..).trans (hfuture k hk)
    · exact absurd hq hquiet

/-- Every event keeps the invariant, as long as calls are fresh. -/
theorem NvmeSys.Inv.exec (h : s.Inv) (hfresh : s.Fresh e) (hexec : s.exec e = some s') :
    s'.Inv := by
  cases e with
  | call call =>
    simp only [NvmeSys.exec] at hexec
    split_ifs at hexec with hidle
    exact Option.some.inj hexec ▸ h.call hidle hfresh
  | poll =>
    unfold NvmeSys.exec at hexec
    cases hp : s.phase with
    | polling n cid =>
      rw [hp] at hexec
      exact Option.some.inj hexec ▸ h.poll hp
    | _ => rw [hp] at hexec; nomatch hexec
  | finish =>
    unfold NvmeSys.exec at hexec
    cases hp : s.phase with
    | found n =>
      rw [hp] at hexec
      exact Option.some.inj hexec ▸ h.finish hp
    | _ => rw [hp] at hexec; nomatch hexec
  | fetch =>
    simp only [NvmeSys.exec] at hexec
    split_ifs at hexec with hne
    exact Option.some.inj hexec ▸ h.fetch hne
  | post n cid status =>
    simp only [NvmeSys.exec] at hexec
    split_ifs at hexec with hmem
    exact Option.some.inj hexec ▸ h.post hmem.1

/-! ### Runs -/

theorem NvmeSys.Inv.run (h : ReflTransGen (NvmeSys.Step NvmeSys.Fresh) (.start vmm c) s) :
    s.Inv := by
  induction h with
  | refl => exact .start vmm c
  | tail _ hstep ih =>
    obtain ⟨e, hfresh, hexec⟩ := hstep
    exact ih.exec hfresh hexec

/-- A call that finds its id in the slot in view returns without waiting for the controller. -/
theorem NvmeSys.Inv.stale (h : s.Inv) (hidle : s.phase = .idle)
    (hc : k.command s.vmm s.driver = some command)
    (hid : s.driver.cqe.commandId = command.commandId) :
    ∃ s₁ s₂ b, s.exec (.call k) = some s₁ ∧ s₁.exec .poll = some s₂ ∧
      s₂.Returns s.submitted b ∧ ¬ s₂.Completed s.submitted b := by
  have hcall : s.call k = { s with
      driver := nvmeIoSubmit s.driver command
      phase := .polling s.submitted command.commandId
      submitted := s.submitted + 1
      owner := Function.update s.owner s.driver.ioSqTail s.submitted } := by
    unfold NvmeSys.call
    rw [hc]
  refine ⟨s.call k, { s.call k with phase := .found s.submitted }, _, if_pos hidle, ?_,
    ⟨rfl, rfl⟩, ?_⟩
  · rw [hcall]
    refine congrArg some (if_pos ?_)
    exact beq_iff_eq.mpr hid
  · rintro ⟨status, hposted, -⟩
    rw [hcall] at hposted
    exact nomatch (h.future s.submitted le_rfl).symm.trans hposted

/-- **The completion that a call returns.**  As long as no call finds its command id in the
slot it is going to look at, `nvme_io_submit` returns only after the controller has completed
that very submission, and it returns the status of that completion.  A call that does find its
id there can return with nothing completed. -/
theorem nvmeIoSubmit_matched (vmm : Vmm) (c : Nvme)
    (hrun : ReflTransGen (NvmeSys.Step NvmeSys.Fresh) (.start vmm c) s) :
    (∀ n b, s.Returns n b → s.Completed n b) ∧
    ∀ call command, s.phase = .idle → call.command s.vmm s.driver = some command →
      s.driver.cqe.commandId = command.commandId →
      ∃ s₁ s₂ b, s.exec (.call call) = some s₁ ∧ s₁.exec .poll = some s₂ ∧
        s₂.Returns s.submitted b ∧ ¬ s₂.Completed s.submitted b := by
  have hinv := NvmeSys.Inv.run hrun
  constructor
  · rintro n b ⟨hphase, rfl⟩
    have hshows := hinv.phase
    rw [hphase] at hshows
    exact ⟨_, hshows.2, nvmeIoFinish_fst s.driver⟩
  · intro call command hidle hc hid
    exact hinv.stale hidle hc hid

/-- Events one after the other, as long as each can happen. -/
def NvmeSys.run (s : NvmeSys) : List NvmeEvent → Option NvmeSys
  | [] => some s
  | e :: events => (s.exec e).bind fun s => s.run events

theorem NvmeSys.reflTransGen_of_run {ok : NvmeSys → NvmeEvent → Prop} {events : List NvmeEvent}
    (hok : ∀ e ∈ events, ∀ s, ok s e) (h : s.run events = some s') :
    ReflTransGen (NvmeSys.Step ok) s s' := by
  induction events generalizing s with
  | nil => exact Option.some.inj h ▸ .refl
  | cons e events ih =>
    obtain ⟨s₁, hexec, hrun⟩ := Option.bind_eq_some_iff.mp h
    refine .head ⟨e, hok e List.mem_cons_self s, hexec⟩ (ih (fun e' he' => ?_) hrun)
    exact hok e' (List.mem_cons_of_mem e he')

/-- A memory manager that has the direct map and nothing else. -/
def plainVmm : Vmm where
  mem := fun _ => 0
  pmm := ⟨[], fun _ => 0, 0, 0, 0⟩
  pml4 := 0
  hhdmOffset := 0xffff800000000000

/-- A controller with blocks of 512 bytes. -/
def plainNvme : Nvme where
  doorbellStride := 0
  blockSize := 512
  ioSq := fun _ => {}
  ioCq := fun _ => {}
  ioSqTail := 0
  ioCqHead := 0
  ioQueueSize := 0
  registers := fun _ => 0

/-- A flush that the controller completes without an error, and a read that it completes with
one. -/
def twoCalls : List NvmeEvent :=
  [.call .flush, .fetch, .post 0 7 0, .poll, .finish,
    .call (.read 0 1 0xffff800000001000), .fetch, .post 1 5 2, .poll]

/-- The two calls return what the controller has completed them with. -/
theorem nvmeIoSubmit_matched_example :
    (∃ s, (twoCalls.take 4).foldlM NvmeSys.exec (.start plainVmm plainNvme) = some s ∧
      s.Returns 0 true ∧ s.Completed 0 true) ∧
    ∃ s, twoCalls.foldlM NvmeSys.exec (.start plainVmm plainNvme) = some s ∧
      s.Returns 1 false ∧ s.Completed 1 false := by
  have hmatched : ∀ events s, Along NvmeSys.exec (fun s e _ => s.Fresh e)
      (.start plainVmm plainNvme) events →
      events.foldlM NvmeSys.exec (.start plainVmm plainNvme) = some s →
      ∀ n b, s.Returns n b → s.Completed n b := fun events s hfresh hends =>
    (nvmeIoSubmit_matched plainVmm plainNvme
      (reflTransGen_of_along (fun _ e _ hexec hok => ⟨e, hok, hexec⟩) hends hfresh)).1
  constructor
  · obtain ⟨s, hends, hphase, hstatus⟩ : ∃ s, (twoCalls.take 4).foldlM NvmeSys.exec
        (.start plainVmm plainNvme) = some s ∧ s.phase = .found 0 ∧
        (s.driver.cqe.status >>> 1 == 0) = true := ⟨_, rfl, rfl, by decide⟩
    have hreturns : s.Returns 0 true := ⟨hphase, (nvmeIoFinish_fst s.driver).trans hstatus⟩
    exact ⟨s, hends, hreturns, hmatched _ s (by decide) hends 0 true hreturns⟩
  · obtain ⟨s, hends, hphase, hstatus⟩ : ∃ s, twoCalls.foldlM NvmeSys.exec
        (.start plainVmm plainNvme) = some s ∧ s.phase = .found 1 ∧
        (s.driver.cqe.status >>> 1 == 0) = false := ⟨_, rfl, rfl, by decide⟩
    have hreturns : s.Returns 1 false := ⟨hphase, (nvmeIoFinish_fst s.driver).trans hstatus⟩
    exact ⟨s, hends, hreturns, hmatched _ s (by decide) hends 1 false hreturns⟩

/-- A read that the controller completes with an error, and then a read for which it does nothing
at all. -/
def readTwice : NvmeSys :=
  let call := .read 0 1 0xffff800000001000
  let s := ((((NvmeSys.start plainVmm plainNvme).call call).fetch).post 0 5 2).poll 0 5
  let s := { s with phase := .idle, driver := (nvmeIoFinish s.driver).2 }
  (s.call call).poll 1 5

/-- After a failed read the slot in view still shows the id of reads, and the next read returns
at once, without a completion of its own. -/
theorem nvmeIoSubmit_stale :
    ¬ ∀ vmm c s, ReflTransGen (NvmeSys.Step fun _ _ => True) (.start vmm c) s →
      ∀ n b, s.Returns n b → s.Completed n b := by
  intro h
  have hrun : (NvmeSys.start plainVmm plainNvme).run
      [.call (.read 0 1 0xffff800000001000), .fetch, .post 0 5 2, .poll, .finish,
        .call (.read 0 1 0xffff800000001000), .poll] = some readTwice := rfl
  have hreturns : readTwice.Returns 1 false := by
    refine ⟨by decide, ?_⟩
    rw [nvmeIoFinish_fst]
    decide
  obtain ⟨status, hposted, -⟩ := h plainVmm plainNvme readTwice
    (NvmeSys.reflTransGen_of_run (fun _ _ _ => trivial) hrun) 1 false hreturns
  have hnone : readTwice.posted 1 = none := by decide
  exact nomatch hnone.symm.trans hposted

end Bethany
