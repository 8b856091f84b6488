import Bethany.Storage.NvmeDma

/-!
# The pages of a transfer

A command names the memory of a transfer by two addresses.  The controller goes from `prp1` to the
end of its page, and on from `prp2`.  The driver limits the length of a transfer to that of a
page, wherever in its page the buffer begins, and leaves `prp2` zero.

* `NvmeCommand.address`, `NvmeCommand.Describes`: what the controller accesses;
* `NvmeCall.bytes`: the length of a transfer;
* `nvmeDescribed_iff`: the buffers that the controller accesses as a whole.
-/

namespace Bethany

open Machine

/-- The address that the controller uses for byte `i` of a transfer of at most two pages. -/
def NvmeCommand.address (command : NvmeCommand) (i : ℕ) : ℕ :=
  let first := pageSize - command.prp1 % pageSize
  if i < first then command.prp1 + i else command.prp2 + (i - first)

/-- The `n` bytes from `prp1` on end in its page, or `prp2` is the address of the page after it. -/
def NvmeCommand.Describes (command : NvmeCommand) (n : ℕ) : Prop :=
  command.prp1 % pageSize + n ≤ pageSize ∨
    command.prp2 = (command.prp1 / pageSize + 1) * pageSize

/-- The length of the transfer that a call asks for. -/
def NvmeCall.bytes (c : Nvme) : NvmeCall → ℕ
  | .read _ blocks _ => blocks * c.blockSize
  | .write _ blocks _ => blocks * c.blockSize
  | .flush => 0

variable {s : Vmm} {c : Nvme} {call : NvmeCall} {command : NvmeCommand} {buffer n i : ℕ}

/-- A command that describes the bytes makes the controller access them one after the other. -/
theorem NvmeCommand.Describes.address (h : command.Describes n) (hi : i < n) :
    command.address i = command.prp1 + i := by
  unfold NvmeCommand.Describes at h
  unfold NvmeCommand.address
  rw [pageSize_eq] at *
  simp only
  split_ifs with hfirst
  · rfl
  · omega

/-- An accepted call is for at most a page, and does not set `prp2`. -/
theorem NvmeCall.prp2_eq (hcall : call.command s c = some command)
    (hbuffer : call.buffer = some buffer) : command.prp2 = 0 ∧ call.bytes c ≤ pageSize := by
  have htransfer : ∀ opcode id lba blocks,
      nvmeTransfer opcode id s c lba blocks buffer = some command →
        command.prp2 = 0 ∧ blocks * c.blockSize ≤ pageSize := by
    intro opcode id lba blocks h
    unfold nvmeTransfer at h
    split_ifs at h with hnull hblocks hsize
    obtain rfl := Option.some.inj h
    exact ⟨rfl, Nat.le_of_not_lt hsize⟩
  cases call with
  | read lba blocks =>
    obtain rfl := Option.some.inj hbuffer
    exact htransfer _ _ _ _ hcall
  | write lba blocks =>
    obtain rfl := Option.some.inj hbuffer
    exact htransfer _ _ _ _ hcall
  | flush => cases hbuffer

/-- The direct map undone for one of its addresses. -/
theorem physOf_direct (hlo : s.hhdmOffset ≤ buffer) (hhi : buffer < 2 ^ 64) :
    physOf s buffer = buffer - s.hhdmOffset := by
  unfold physOf u64
  omega

/-- **The pages of a transfer.**  For a buffer in the direct map, the command of `nvme_read` or
`nvme_write` describes the bytes of the buffer exactly if they end in the page that they begin
in; and exactly then the controller accesses these bytes. -/
theorem nvmeDescribed_iff (hcall : call.command s c = some command)
    (hbuffer : call.buffer = some buffer) (hlo : s.hhdmOffset ≤ buffer) (hhi : buffer < 2 ^ 64) :
    (command.Describes (call.bytes c) ↔
      (buffer - s.hhdmOffset) % pageSize + call.bytes c ≤ pageSize) ∧
    ((∀ i < call.bytes c, command.address i = buffer + i - s.hhdmOffset) ↔
      (buffer - s.hhdmOffset) % pageSize + call.bytes c ≤ pageSize) := by
  obtain ⟨hprp2, hbytes⟩ := NvmeCall.prp2_eq hcall hbuffer
  have hprp1 := (NvmeCall.prp1_eq hcall hbuffer).trans (physOf_direct hlo hhi)
  have hiff : command.Describes (call.bytes c) ↔
      (buffer - s.hhdmOffset) % pageSize + call.bytes c ≤ pageSize := by
    unfold NvmeCommand.Describes
    rw [hprp1, hprp2, pageSize_eq]
    omega
  refine ⟨hiff, fun haccess => ?_, fun hend i hi => ?_⟩
  · -- otherwise the first byte of the next page would be looked for at address 0
    by_contra hcross
    have hbyte := haccess (pageSize - command.prp1 % pageSize) (by
      rw [hprp1]
      rw [pageSize_eq] at *
      omega)
    simp only [NvmeCommand.address, lt_irrefl, if_false, hprp2, Nat.sub_self] at hbyte
    rw [hprp1] at hbyte
    rw [pageSize_eq] at *
    omega
  · rw [(hiff.mpr hend).address hi, hprp1]
    omega

/-- Eight blocks of 512 bytes from the beginning of a page. -/
theorem nvmeDescribed_iff_example :
    ∃ command, NvmeCall.command plainVmm plainNvme (.read 0 8 0xFFFF800000001000) =
        some command ∧ ∀ i < 4096, command.address i = 0x1000 + i := by
  obtain ⟨command, hcall⟩ : ∃ command, NvmeCall.command plainVmm plainNvme
      (.read 0 8 0xFFFF800000001000) = some command := ⟨_, rfl⟩
  refine ⟨command, hcall, fun i hi => ?_⟩
  have haddress := (nvmeDescribed_iff hcall rfl (by decide) (by decide)).2.mpr (by decide) i hi
  rw [haddress]
  show 0xFFFF800000001000 + i - 0xFFFF800000000000 = 0x1000 + i
  omega

/-- A read of one block of 512 bytes to a buffer that begins 256 bytes before the end of a page:
the controller puts the second half of the block at address 0. -/
theorem nvmeDescribed_cross :
    ∃ command, NvmeCall.command plainVmm plainNvme (.read 0 1 0xFFFF800000001F00) =
        some command ∧
          ¬ command.Describes ((NvmeCall.read 0 1 0xFFFF800000001F00).bytes plainNvme) ∧
          command.address 255 = 0x1FFF ∧ command.address 256 = 0 := by
  refine ⟨_, rfl, ?_, by decide, by decide⟩
  unfold NvmeCommand.Describes
  decide

end Bethany
