import Bethany.String

/-!
# The block store of `storage.c`

`storage_read` and `storage_write` address block `b` of `fake_disk` as the bytes from
`b + STORAGE_BLOCK_SIZE` on.  Blocks are therefore one byte apart, not one block apart, and
two different blocks less than a block size apart share bytes.

* the source: `storageInit`, `storageRead`, `storageWrite`;
* `latest`: the array of independent blocks the store is meant to be;
* `Undisturbed`: no block sharing bytes with `b` has been written since `b` was;
* `storageRead_latest_iff`: a block reads back whatever was stored exactly when it is
  undisturbed.
-/

namespace Bethany

open Machine

/-- `STORAGE_BLOCK_SIZE` -/
def storageBlockSize : ℕ := 4096

/-- `STORAGE_BLOCK_COUNT` -/
def storageBlockCount : ℕ := 16384

/-- `storage_init`: all of `fake_disk` is zeroed. -/
def storageInit (disk : Mem) : Mem := memset disk 0 0 (storageBlockCount * storageBlockCount)

/-- `storage_read`, with the buffer it fills. -/
def storageRead (disk : Mem) (block : ℕ) (buffer : Mem) : Bool × Mem :=
  if block ≥ storageBlockCount then (false, buffer)
  else (true, memcpy buffer 0 disk (block + storageBlockSize) storageBlockSize)

/-- `storage_write`, with the disk it changes. -/
def storageWrite (disk : Mem) (block : ℕ) (buffer : Mem) : Bool × Mem :=
  if block ≥ storageBlockCount then (false, disk)
  else (true, memcpy disk (block + storageBlockSize) buffer 0 storageBlockSize)

/-! ### Histories -/

/-- A call of the block store. -/
inductive StorageCall
  | read (block : ℕ) (buffer : Mem)
  | write (block : ℕ) (buffer : Mem)

/-- The calls since `storage_init`, the latest first. -/
abbrev History := List StorageCall

/-- The disk after a history, from whatever it held before `storage_init`. -/
def diskAfter (disk : Mem) : History → Mem
  | [] => storageInit disk
  | .read _ _ :: history => diskAfter disk history
  | .write block buffer :: history => (storageWrite (diskAfter disk history) block buffer).2

/-- What block `b` should hold: the buffer of the latest write to it, zeros if there was none. -/
def latest (b : ℕ) : History → Mem
  | [] => fun _ => 0
  | .read _ _ :: history => latest b history
  | .write block buffer :: history => if block = b then buffer else latest b history

/-- The blocks written in a history, the latest first. -/
def written : History → List ℕ
  | [] => []
  | .read _ _ :: history => written history
  | .write block _ :: history => block :: written history

/-- Two different blocks share bytes of the disk. -/
def Overlap (block b : ℕ) : Prop :=
  block < storageBlockCount ∧ block ≠ b ∧ block < b + storageBlockSize ∧
    b < block + storageBlockSize

instance (block b : ℕ) : Decidable (Overlap block b) := inferInstanceAs (Decidable (_ ∧ _))

/-- Among the blocks written, the latest first, none that shares bytes with `b` comes before
`b` itself. -/
def Undisturbed (b : ℕ) : List ℕ → Prop
  | [] => True
  | block :: blocks => block = b ∨ ¬ Overlap block b ∧ Undisturbed b blocks

/-- `storage_read` of block `b` succeeds and fills the buffer with what the block should hold. -/
def ReadsLatest (disk : Mem) (b : ℕ) (history : History) : Prop :=
  ∀ buffer, (storageRead (diskAfter disk history) b buffer).1 = true ∧
    ∀ i < storageBlockSize,
      (storageRead (diskAfter disk history) b buffer).2 i = latest b history i

variable {disk : Mem} {b block : ℕ} {history : History}

/-! ### Single calls -/

/-- A call out of range fails and changes nothing. -/
theorem storage_out_of_range (h : storageBlockCount ≤ block) (disk buffer : Mem) :
    storageRead disk block buffer = (false, buffer) ∧
      storageWrite disk block buffer = (false, disk) :=
  ⟨if_pos h, if_pos h⟩

/-- Block `b` reads as the block-sized window of the disk that begins at `b` bytes after the
first block size. -/
theorem readsLatest_iff (hb : b < storageBlockCount) :
    ReadsLatest disk b history ↔ ∀ i < storageBlockSize,
      diskAfter disk history (b + storageBlockSize + i) = latest b history i := by
  have hread (buffer : Mem) : storageRead (diskAfter disk history) b buffer =
      (true, memcpy buffer 0 (diskAfter disk history) (b + storageBlockSize)
        storageBlockSize) := if_neg (Nat.not_le_of_lt hb)
  have hbyte (buffer : Mem) (i : ℕ) (hi : i < storageBlockSize) :
      memcpy buffer 0 (diskAfter disk history) (b + storageBlockSize) storageBlockSize i =
        diskAfter disk history (b + storageBlockSize + i) := by
    rw [memcpy_apply, if_pos (by omega), Nat.sub_zero]
  constructor
  · intro h i hi
    have := (h fun _ => 0).2 i hi
    simp only [hread] at this
    rwa [hbyte _ i hi] at this
  · intro h buffer
    simp only [hread, true_and]
    intro i hi
    rw [hbyte buffer i hi, h i hi]

/-- Each byte of a fresh disk is zero, as far as the blocks reach. -/
theorem diskAfter_nil (hb : b < storageBlockCount) {i : ℕ} (hi : i < storageBlockSize) :
    diskAfter disk [] (b + storageBlockSize + i) = 0 := by
  unfold diskAfter storageInit
  rw [memset_apply, if_pos]
  unfold storageBlockSize at hi ⊢
  unfold storageBlockCount at hb ⊢
  omega

/-- The disk a write leaves: the block's window has the buffer, other bytes keep theirs. -/
theorem storageWrite_apply (disk : Mem) (block : ℕ) (buffer : Mem) (a : ℕ) :
    (storageWrite disk block buffer).2 a =
      if block < storageBlockCount ∧ block + storageBlockSize ≤ a ∧
        a < block + storageBlockSize + storageBlockSize
      then buffer (a - (block + storageBlockSize)) else disk a := by
  unfold storageWrite
  by_cases hblock : block < storageBlockCount
  · simp only [Nat.not_le_of_lt hblock, hblock, if_false, true_and, memcpy_apply, Nat.zero_add]
  · simp only [Nat.le_of_not_lt hblock, hblock, if_true, false_and, if_false]

theorem diskAfter_write (block : ℕ) (buffer : Mem) (a : ℕ) :
    diskAfter disk (.write block buffer :: history) a =
      if block < storageBlockCount ∧ block + storageBlockSize ≤ a ∧
        a < block + storageBlockSize + storageBlockSize
      then buffer (a - (block + storageBlockSize)) else diskAfter disk history a :=
  storageWrite_apply ..

theorem diskAfter_write_self (hb : b < storageBlockCount) (buffer : Mem) {i : ℕ}
    (hi : i < storageBlockSize) :
    diskAfter disk (.write b buffer :: history) (b + storageBlockSize + i) = buffer i := by
  rw [diskAfter_write, if_pos ⟨hb, by omega, by omega⟩, Nat.add_sub_cancel_left]

/-- A write to a block that shares no byte with `b` leaves `b` alone. -/
theorem diskAfter_write_other (hne : block ≠ b) (h : ¬ Overlap block b) (buffer : Mem) {i : ℕ}
    (hi : i < storageBlockSize) :
    diskAfter disk (.write block buffer :: history) (b + storageBlockSize + i) =
      diskAfter disk history (b + storageBlockSize + i) := by
  rw [diskAfter_write, if_neg]
  rintro ⟨hlt, hlo, hhi⟩
  exact h ⟨hlt, hne, by omega, by omega⟩

/-! ### Runs -/

/-- An undisturbed block holds what it should. -/
theorem diskAfter_of_undisturbed (hb : b < storageBlockCount)
    (h : Undisturbed b (written history)) {i : ℕ} (hi : i < storageBlockSize) :
    diskAfter disk history (b + storageBlockSize + i) = latest b history i := by
  induction history with
  | nil => exact diskAfter_nil hb hi
  | cons call history ih =>
    cases call with
    | read block buffer => exact ih h
    | write block buffer =>
      unfold latest
      by_cases heq : block = b
      · rw [heq, diskAfter_write_self hb buffer hi, if_pos rfl]
      · obtain h | ⟨hover, hrest⟩ := h
        · exact absurd h heq
        · rw [diskAfter_write_other heq hover buffer hi, if_neg heq]
          exact ih hrest

/-- The writes of the given blocks, each with a buffer of zeros. -/
def zeroWrites (blocks : List ℕ) : History := blocks.map fun block => .write block fun _ => 0

theorem written_zeroWrites (blocks : List ℕ) : written (zeroWrites blocks) = blocks := by
  induction blocks with
  | nil => rfl
  | cons block blocks ih => exact congrArg (block :: ·) ih

theorem latest_zeroWrites (b : ℕ) (blocks : List ℕ) (i : ℕ) :
    latest b (zeroWrites blocks) i = 0 := by
  induction blocks with
  | nil => rfl
  | cons block blocks ih =>
    show (if block = b then (fun _ => 0) else latest b (zeroWrites blocks)) i = 0
    split_ifs
    · rfl
    · exact ih

/-- Where a block has been disturbed, some data shows it: the block that shares bytes with
`b` is filled with ones over zeros everywhere else. -/
theorem exists_not_readsLatest (disk : Mem) {blocks : List ℕ}
    (h : ¬ Undisturbed b blocks) :
    ∃ history, written history = blocks ∧ ∃ i < storageBlockSize,
      diskAfter disk history (b + storageBlockSize + i) ≠ latest b history i := by
  induction blocks with
  | nil => exact absurd trivial h
  | cons block blocks ih =>
    obtain ⟨hne, hrest⟩ := not_or.mp h
    by_cases hover : Overlap block b
    · refine ⟨.write block (fun _ => 0xff) :: zeroWrites blocks,
        congrArg (block :: ·) (written_zeroWrites blocks), block - b, ?_, ?_⟩
      · have := hover.2.2.1
        unfold storageBlockSize at this ⊢
        omega
      · obtain ⟨hlt, -, hlo, hhi⟩ := hover
        rw [diskAfter_write, if_pos ⟨hlt, by omega, by omega⟩]
        unfold latest
        rw [if_neg hne, latest_zeroWrites]
        decide
    · obtain ⟨history, hwritten, i, hi, hbyte⟩ := ih fun hund => hrest ⟨hover, hund⟩
      refine ⟨.write block (fun _ => 0) :: history, congrArg (block :: ·) hwritten, i, hi, ?_⟩
      unfold latest
      rwa [diskAfter_write_other hne hover _ hi, if_neg hne]

/-- **When the store keeps its blocks apart.**  Take the blocks written since `storage_init`,
in order, with any reads in between.  Block `b` reads back what was stored in it, whatever
the data, exactly when no block less than a block size away from `b` was written after `b`
was; and calls out of range fail and change nothing. -/
theorem storageRead_latest_iff (disk : Mem) (hb : b < storageBlockCount) (blocks : List ℕ) :
    ((∀ history, written history = blocks → ReadsLatest disk b history) ↔
      Undisturbed b blocks) ∧
    ∀ block, storageBlockCount ≤ block → ∀ disk buffer,
      storageRead disk block buffer = (false, buffer) ∧
        storageWrite disk block buffer = (false, disk) := by
  refine ⟨⟨fun h => ?_, fun h history hwritten => ?_⟩, fun block => storage_out_of_range⟩
  · by_contra hund
    obtain ⟨history, hwritten, i, hi, hbyte⟩ := exists_not_readsLatest disk hund
    exact hbyte ((readsLatest_iff hb).mp (h history hwritten) i hi)
  · subst hwritten
    exact (readsLatest_iff hb).mpr fun i hi => diskAfter_of_undisturbed hb h hi

/-- Blocks 0 and 4096 do not touch each other. -/
theorem storageRead_latest_example :
    ReadsLatest (fun _ => 0) 0 [.write 4096 fun _ => 0xff, .write 0 fun _ => 0x11] := by
  apply (storageRead_latest_iff (fun _ => 0) (by decide) [4096, 0]).1.mpr
  · exact .inr ⟨by decide, .inl rfl⟩
  · rfl

/-- Block 0 written with ones shows in block 1, which was never written. -/
theorem storageRead_neighbour :
    ¬ ReadsLatest (fun _ => 0) 1 [.write 0 fun _ => 0xff] := by
  intro h
  have hbyte := (readsLatest_iff (by decide)).mp h 0 (by decide)
  rw [diskAfter_write, if_pos (by decide)] at hbyte
  exact absurd hbyte (by decide)

end Bethany
