import Bethany.Memory.HeapBlocks
import Bethany.Sync.Queue

/-!
# The sizes of blocks

The sizes that `kmalloc`, `kcalloc` and `queue_init` compute with are 64-bit numbers.  A block is
too short when one of them wraps around.

* `HeapArea.Paged`, `heapRun_paged`: what holds of the heap whatever is asked of it;
* `HeapArea.CanMeet`: the requests that `kmalloc` answers, if it gets the pages;
* `kmalloc_room_iff`: a block has room for the bytes asked for exactly when its end does not wrap;
* `heapSizes_iff`: the same for the three functions.
-/

namespace Bethany

open Machine

/-- The end of the heap is the end of a page. -/
structure HeapArea.Paged (h : HeapArea) : Prop where
  limit : h.heapEnd < 2 ^ 64
  whole : pageSize ∣ h.heapEnd

variable {h : HeapArea} {pages : List Bool} {size bytes n : ℕ}

/-! ### The end of the heap -/

theorem HeapArea.Paged.grown (hpaged : h.Paged) (n : ℕ) : (h.grown n).Paged :=
  ⟨h.grown_lt n, dvd_grown hpaged.whole n⟩

/-- The last page of the address space is never below the end of the heap. -/
theorem HeapArea.Paged.heapEnd_le (hpaged : h.Paged) : h.heapEnd ≤ 2 ^ 64 - pageSize := by
  obtain ⟨hlimit, hwhole⟩ := hpaged
  rw [pageSize_eq] at hwhole ⊢
  omega

theorem HeapArea.Paged.init (pages : List Bool) : (HeapRun.start pages).area.Paged := by
  have hinit := HeapRun.Inv.init pages
  exact ⟨hinit.limit, hinit.dvd_heapEnd⟩

theorem HeapArea.Paged.kmalloc (hpaged : h.Paged) (pages : List Bool) (size : ℕ) :
    (h.kmalloc pages size).2.1.Paged := by
  obtain ⟨-, hk⟩ | ⟨-, pages', hk, -⟩ | ⟨-, n, pages', hk, -, -⟩ :=
    kmalloc_cases hpaged.limit pages size
  · rw [hk]
    exact hpaged
  · rw [hk]
    exact hpaged.grown _
  · rw [hk]
    exact ⟨(hpaged.grown n).limit, (hpaged.grown n).whole⟩

/-- The heap ends at the end of a page in every run, whatever the sizes are. -/
theorem heapRun_paged (pages : List Bool) (calls : List HeapCall) :
    (calls.foldl HeapRun.exec (HeapRun.start pages)).area.Paged := by
  have hinit : (HeapRun.start pages).area.Paged := HeapArea.Paged.init pages
  generalize HeapRun.start pages = r at hinit
  induction calls generalizing r with
  | nil => exact hinit
  | cons c calls ih =>
    apply ih
    cases c with
    | kfree ptr => exact hinit
    | kmalloc size => exact hinit.kmalloc r.pages size

/-- The heap has room up to the last page of the address space when it gets the pages. -/
theorem HeapArea.Paged.exists_grown (hpaged : h.Paged) :
    ∃ n, (h.grown n).heapEnd = 2 ^ 64 - pageSize := by
  have hle := hpaged.heapEnd_le
  obtain ⟨k, hk⟩ := hpaged.whole
  refine ⟨(2 ^ 64 - pageSize) / pageSize - k, ?_⟩
  show u64 (h.heapEnd + _) = _
  rw [hk] at hle ⊢
  rw [pageSize_eq, u64] at *
  omega

/-! ### Room for a block -/

/-- The requests that `kmalloc` meets if `vmm_alloc_page` gives it pages: the heap is there, the
size is not 0, and the end of the block, as it is computed, is not in the last page. -/
def HeapArea.CanMeet (h : HeapArea) (size : ℕ) : Prop :=
  h.heapCurrent ≠ null ∧ size ≠ 0 ∧ h.blockEnd size ≤ 2 ^ 64 - pageSize

/-- The block for `bytes` bytes ends below the end of the address space, if the size that
`kmalloc` is called with, which is `bytes` in 64 bits, is one that it can meet. -/
def HeapArea.ExactEnd (h : HeapArea) (bytes : ℕ) : Prop :=
  h.CanMeet (u64 bytes) → h.heapCurrent + roundUp16 bytes < 2 ^ 64

/-- The block that `kmalloc` returns, whatever pages it gets, has room for `bytes` bytes. -/
def HeapArea.HasRoom (h : HeapArea) (bytes : ℕ) : Prop :=
  ∀ pages, (h.kmalloc pages (u64 bytes)).1 ≠ null →
    (h.kmalloc pages (u64 bytes)).1 + bytes ≤ (h.kmalloc pages (u64 bytes)).2.1.heapEnd

/-- With enough pages a request that can be met is met. -/
theorem HeapArea.CanMeet.kmalloc (hmeet : h.CanMeet size) (hpaged : h.Paged) :
    ∃ pages n, (h.kmalloc pages size).1 = h.heapCurrent ∧
      (h.kmalloc pages size).2.1.heapEnd = (h.grown n).heapEnd := by
  obtain ⟨-, hsize, hend⟩ := hmeet
  obtain ⟨n, hn⟩ := hpaged.exists_grown
  refine ⟨List.replicate n true, ?_⟩
  obtain ⟨hzero, -⟩ | ⟨-, -, -, hlt⟩ | ⟨-, k, pages', hk, -, -⟩ :=
    kmalloc_cases hpaged.limit (List.replicate n true) size
  · exact absurd hzero hsize
  · have := hlt n (by rw [pagesGranted_replicate])
    omega
  · exact ⟨k, by rw [hk], by rw [hk]⟩

/-- **A block has room for the bytes asked for exactly when its end does not wrap around.** -/
theorem kmalloc_room_iff (hpaged : h.Paged) (bytes : ℕ) : h.HasRoom bytes ↔ h.ExactEnd bytes := by
  constructor
  · intro hroom hmeet
    obtain ⟨pages, n, hptr, hend⟩ := hmeet.kmalloc hpaged
    have hfit := hroom pages (by rw [hptr]; exact hmeet.1)
    have hle := (hpaged.grown n).heapEnd_le
    rw [hptr, hend] at hfit
    rw [pageSize_eq] at hle
    unfold roundUp16
    omega
  · intro hexact pages hne
    obtain ⟨-, hk⟩ | ⟨-, pages', hk, -⟩ | ⟨hsize, n, pages', hk, -, hfit⟩ :=
      HeapArea.kmalloc_cases hpaged.limit pages (u64 bytes)
    · rw [hk] at hne
      exact absurd rfl hne
    · rw [hk] at hne
      exact absurd rfl hne
    · rw [hk] at hne ⊢
      have hbelow := hexact ⟨hne, hsize, hfit.trans (hpaged.grown n).heapEnd_le⟩
      have hbytes := le_roundUp16 bytes
      rw [u64_of_lt (by omega), HeapArea.blockEnd_eq hbelow] at hfit
      show h.heapCurrent + bytes ≤ (h.grown n).heapEnd
      omega

/-! ### The three functions -/

/-- The pointers in the memory at `ptr`, unless it is `NULL`. -/
def slotsAt (mem : Mem) (ptr : ℕ) : Option (ℕ → ℕ) :=
  if ptr = null then none else some fun i => load mem (ptr + sizeofPointer * i) sizeofPointer

/-- The block that `kcalloc` returns has room for `count * size` bytes. -/
def HeapArea.KcallocRoom (h : HeapArea) (count size : ℕ) : Prop :=
  ∀ pages mem, (h.kcalloc pages mem count size).1 ≠ null →
    (h.kcalloc pages mem count size).1 + count * size ≤ (h.kcalloc pages mem count size).2.1.heapEnd

/-- The buffer of a queue that `queue_init` has set up is a block with room for `capacity`
pointers. -/
def HeapArea.QueueRoom (h : HeapArea) (s : Sys) (queue : Queue) (capacity : ℕ) : Prop :=
  ∀ pages mem s' queue',
    queueInit s (some queue) capacity (fun bytes => slotsAt mem (h.kmalloc pages bytes).1) =
        (true, s', some queue') →
      ∃ ptr h' pages', h.kmalloc pages (u64 (sizeofPointer * capacity)) = (ptr, h', pages') ∧
        queue'.buffer = slotsAt mem ptr ∧ ptr + sizeofPointer * capacity ≤ h'.heapEnd

theorem HeapArea.kcalloc_eq (h : HeapArea) (pages : List Bool) (mem : Mem) (count size : ℕ) :
    (h.kcalloc pages mem count size).1 = (h.kmalloc pages (u64 (count * size))).1 ∧
      (h.kcalloc pages mem count size).2.1 = (h.kmalloc pages (u64 (count * size))).2.1 := by
  simp only [kcalloc]
  split_ifs with hnull
  · exact ⟨hnull.symm, rfl⟩
  · exact ⟨rfl, rfl⟩

theorem kcalloc_room_iff (h : HeapArea) (count size : ℕ) :
    h.KcallocRoom count size ↔ h.HasRoom (count * size) := by
  simp only [HeapArea.KcallocRoom, HeapArea.HasRoom, HeapArea.kcalloc_eq]
  exact ⟨fun hroom pages => hroom pages fun _ => 0, fun hroom pages _ => hroom pages⟩

/-- `queue_init` succeeds if the capacity is not 0 and `kmalloc` returns a block. -/
theorem queueInit_true_iff {s : Sys} {queue queue' : Queue} {capacity : ℕ}
    {kmalloc : ℕ → Option (ℕ → ℕ)} :
    (∃ s', queueInit s (some queue) capacity kmalloc = (true, s', some queue')) ↔
      capacity ≠ 0 ∧ (kmalloc (u64 (sizeofPointer * capacity))).isSome ∧
        queue' = { queue with
          buffer := kmalloc (u64 (sizeofPointer * capacity))
          capacity := capacity
          head := 0
          tail := 0 } := by
  unfold queueInit
  by_cases hzero : capacity = 0
  · simp [hzero]
  cases hk : kmalloc (u64 (sizeofPointer * capacity)) with
  | none => simp [hzero]
  | some slots => simp [hzero, eq_comm]

theorem isSome_slotsAt {mem : Mem} {ptr : ℕ} : (slotsAt mem ptr).isSome ↔ ptr ≠ null := by
  unfold slotsAt
  split_ifs with hnull <;> simp [hnull]

theorem queue_room_iff (h : HeapArea) (s : Sys) (queue : Queue) (capacity : ℕ) :
    h.QueueRoom s queue capacity ↔ h.HasRoom (sizeofPointer * capacity) := by
  constructor
  · intro hroom pages hne
    have hzero : capacity ≠ 0 := by
      rintro rfl
      exact hne (by simp [HeapArea.kmalloc, u64])
    let kmalloc bytes := slotsAt (fun _ => 0) (h.kmalloc pages bytes).1
    have hsome : (kmalloc (u64 (sizeofPointer * capacity))).isSome := isSome_slotsAt.mpr hne
    obtain ⟨s', hinit⟩ := queueInit_true_iff.mpr ⟨hzero, hsome, rfl⟩
    obtain ⟨ptr, h', pages', hk, -, hfit⟩ := hroom pages _ s' _ hinit
    rwa [hk]
  · intro hroom pages mem s' queue' hinit
    obtain ⟨-, hsome, rfl⟩ := queueInit_true_iff.mp ⟨s', hinit⟩
    exact ⟨_, _, _, rfl, rfl, hroom pages (isSome_slotsAt.mp hsome)⟩

/-- **No size wraps exactly where the end of the block does not.**  A block of `kmalloc`, of
`kcalloc` or of `queue_init` has room for all the bytes asked for, whatever pages the heap gets,
if and only if the block ends below the end of the address space. -/
theorem heapSizes_iff (hpaged : h.Paged) (s : Sys) (queue : Queue) {size : ℕ}
    (hsize : size < 2 ^ 64) (count size' capacity : ℕ) :
    ((∀ pages, (h.kmalloc pages size).1 ≠ null →
        (h.kmalloc pages size).1 + size ≤ (h.kmalloc pages size).2.1.heapEnd) ↔ h.ExactEnd size) ∧
      (h.KcallocRoom count size' ↔ h.ExactEnd (count * size')) ∧
      (h.QueueRoom s queue capacity ↔ h.ExactEnd (sizeofPointer * capacity)) := by
  refine ⟨?_, ?_, ?_⟩
  · have hiff := kmalloc_room_iff hpaged size
    unfold HeapArea.HasRoom at hiff
    rwa [u64_of_lt hsize] at hiff
  · rw [kcalloc_room_iff, kmalloc_room_iff hpaged]
  · rw [queue_room_iff, kmalloc_room_iff hpaged]

/-- A small block on the heap after `heap_init`. -/
theorem heapSizes_iff_start :
    ((∀ pages, ((HeapRun.start [true]).area.kmalloc pages 100).1 ≠ null →
        ((HeapRun.start [true]).area.kmalloc pages 100).1 + 100 ≤
          ((HeapRun.start [true]).area.kmalloc pages 100).2.1.heapEnd) ↔
        (HeapRun.start [true]).area.ExactEnd 100) ∧
      ((HeapRun.start [true]).area.KcallocRoom 10 10 ↔
        (HeapRun.start [true]).area.ExactEnd (10 * 10)) ∧
      ((HeapRun.start [true]).area.QueueRoom (schedulerInit fun _ => 0)
          ⟨none, 0, 0, 0, 0, 0, 1, 0, by decide⟩ 10 ↔
        (HeapRun.start [true]).area.ExactEnd (sizeofPointer * 10)) :=
  heapSizes_iff (HeapArea.Paged.init [true]) _ _ (by decide) 10 10 10

/-- Sizes whose blocks wrap around, on the heap after `heap_init`: `2 ^ 64 - 1` bytes, and 8 times
`2 ^ 61 + 1` bytes. -/
theorem heapSizes_wrap :
    ¬ (∀ pages, ((HeapRun.start [true]).area.kmalloc pages (2 ^ 64 - 1)).1 ≠ null →
        ((HeapRun.start [true]).area.kmalloc pages (2 ^ 64 - 1)).1 + (2 ^ 64 - 1) ≤
          ((HeapRun.start [true]).area.kmalloc pages (2 ^ 64 - 1)).2.1.heapEnd) ∧
      ¬ (HeapRun.start [true]).area.KcallocRoom (2 ^ 61 + 1) 8 ∧
      ¬ (HeapRun.start [true]).area.QueueRoom (schedulerInit fun _ => 0)
          ⟨none, 0, 0, 0, 0, 0, 1, 0, by decide⟩ (2 ^ 61 + 1) := by
  have hpaged := HeapArea.Paged.init [true]
  refine ⟨fun hroom => ?_, ?_, ?_⟩
  · exact absurd (hroom []) (by decide)
  · rw [kcalloc_room_iff, kmalloc_room_iff hpaged]
    intro hexact
    exact absurd (hexact ⟨by decide, by decide, by decide⟩) (by decide)
  · rw [queue_room_iff, kmalloc_room_iff hpaged]
    intro hexact
    exact absurd (hexact ⟨by decide, by decide, by decide⟩) (by decide)

end Bethany
