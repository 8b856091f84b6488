import Bethany.Memory.HeapBlocks

/-!
# `krealloc`

`krealloc` returns a new block and copies nothing into it.

The memory behind the heap gives the byte that each address shows, for a page that is not mapped
yet the byte of the frame it is going to get.  So it stays as it is when the heap grows.

* the source: `krealloc`, `HeapArea.krealloc`; `krealloc_area` connects the two;
* `kmalloc_null_iff`: the requests that `kmalloc` refuses;
* `HeapRun.KeepsData`: what is expected of `krealloc`;
* `krealloc_keeps_iff`: it is met exactly if `kmalloc` refuses, or the bytes are there already.
-/

namespace Bethany

open Machine

/-! ### The source -/

/-- `krealloc`, over the page tables. -/
def krealloc (h : Heap) (ptr size : ℕ) : Option (ℕ × Heap) :=
  if ptr = null then kmalloc h size
  else if size = 0 then some (null, h)
  else
    (kmalloc h size).map fun
      | (newPtr, h) => if newPtr = null then (null, h) else (newPtr, h)

/-- `krealloc`, with the memory behind the heap. -/
def HeapArea.krealloc (h : HeapArea) (pages : List Bool) (mem : Mem) (ptr size : ℕ) :
    ℕ × HeapArea × List Bool × Mem :=
  if ptr = null then
    match h.kmalloc pages size with
    | (newPtr, h, pages) => (newPtr, h, pages, mem)
  else if size = 0 then (null, h.kfree ptr, pages, mem)
  else
    match h.kmalloc pages size with
    | (newPtr, h, pages) =>
        if newPtr = null then (null, h, pages, mem) else (newPtr, h, pages, mem)

/-- The new block holds the bytes of the block `ptr` of `n` bytes, as far as it has room for them;
the other blocks hold their bytes, and so does this one if there is no new block. -/
def HeapRun.KeepsData (r : HeapRun) (mem : Mem) (ptr n size : ℕ) : Prop :=
  let (newPtr, _, _, mem') := r.area.krealloc r.pages mem ptr size
  (newPtr ≠ null → ∀ i < min n size, mem' (newPtr + i) = mem (ptr + i)) ∧
    (∀ block ∈ r.blocks, block ≠ (ptr, n) → ∀ i < block.2,
      mem' (block.1 + i) = mem (block.1 + i)) ∧
    (newPtr = null → ∀ i < n, mem' (ptr + i) = mem (ptr + i))

/-- `kmalloc` has no block of this size: the heap does not get to its end with the pages that
`vmm_alloc_page` gives.  (The pointer that is returned is `heap_current`.) -/
def HeapArea.Refuses (h : HeapArea) (pages : List Bool) (size : ℕ) : Prop :=
  h.heapCurrent = null ∨ ∀ k ≤ pagesGranted pages, (h.grown k).heapEnd < h.blockEnd size

variable {h h' : HeapArea} {r : HeapRun} {pages : List Bool} {mem : Mem} {ptr size n : ℕ}

/-! ### What it returns -/

/-- The loop of `kmalloc` takes no more pages than there are. -/
theorem HeapArea.kmallocLoop_true (hend : h.heapEnd < 2 ^ 64)
    (hloop : (kmallocLoop size pages h).1 = true) :
    ∃ k ≤ pagesGranted pages, u64 (h.heapCurrent + size) ≤ (h.grown k).heapEnd := by
  induction pages generalizing h with
  | nil =>
    unfold kmallocLoop at hloop
    split_ifs at hloop with hfit
    exact ⟨0, Nat.zero_le _, by rw [grown_zero hend]; exact Nat.le_of_not_lt hfit⟩
  | cons ok pages ih =>
    unfold kmallocLoop at hloop
    split_ifs at hloop with hfit hok
    · obtain ⟨k, hk, hle⟩ := ih (Nat.mod_lt _ (by norm_num)) hloop
      have hgrown : HeapArea.grown { h with heapEnd := u64 (h.heapEnd + pageSize) } k =
          h.grown (k + 1) := by
        rw [← grown_succ, show h.grown 1 = { h with heapEnd := u64 (h.heapEnd + pageSize) } by
          rw [grown, Nat.one_mul]]
      rw [hgrown] at hle
      refine ⟨k + 1, ?_, hle⟩
      simp_all [pagesGranted]
    · exact ⟨0, Nat.zero_le _, by rw [grown_zero hend]; exact Nat.le_of_not_lt hfit⟩

/-- The requests that `kmalloc` refuses. -/
theorem kmalloc_null_iff (hend : h.heapEnd < 2 ^ 64) (hsize : size ≠ 0) :
    (h.kmalloc pages size).1 = null ↔ h.Refuses pages size := by
  obtain ⟨b, h', pages', hloop⟩ : ∃ b h' pages',
      HeapArea.kmallocLoop (alignUp size 16) pages h = (b, h', pages') := ⟨_, _, _, rfl⟩
  obtain ⟨n, rfl, hlt, -, hfalse⟩ := HeapArea.loop_cases hend hloop
  rw [HeapArea.kmalloc_of_loop hsize hloop]
  cases b with
  | false =>
    obtain ⟨hlast, rfl⟩ := hfalse rfl
    refine iff_of_true rfl (.inr fun k hk => ?_)
    obtain hk | rfl := Nat.lt_or_eq_of_le hk
    · exact hlt k hk
    · exact hlast
  | true =>
    obtain ⟨k, hk, hfit⟩ := HeapArea.kmallocLoop_true hend (congrArg Prod.fst hloop)
    exact ⟨.inl, fun hrefuses => hrefuses.resolve_right fun hall =>
      absurd hfit (Nat.not_le_of_lt (hall k hk))⟩

/-- A block that `kmalloc` returns begins at `heap_current`. -/
theorem kmalloc_eq_current (hend : h.heapEnd < 2 ^ 64) (hne : (h.kmalloc pages size).1 ≠ null) :
    (h.kmalloc pages size).1 = h.heapCurrent := by
  obtain ⟨-, hk⟩ | ⟨-, pages', hk, -⟩ | ⟨-, n, pages', hk, -, -⟩ :=
    HeapArea.kmalloc_cases hend pages size
  · exact absurd (by rw [hk]) hne
  · exact absurd (by rw [hk]) hne
  · rw [hk]

/-- For a block and a size `krealloc` is `kmalloc`. -/
theorem HeapArea.krealloc_eq (hptr : ptr ≠ null) (hsize : size ≠ 0) :
    h.krealloc pages mem ptr size =
      ((h.kmalloc pages size).1, (h.kmalloc pages size).2.1, (h.kmalloc pages size).2.2, mem) := by
  simp only [HeapArea.krealloc, if_neg hptr, if_neg hsize]
  split_ifs with hnull
  · rw [hnull]
  · rfl

/-- The pointers that `krealloc` leaves over the page tables. -/
theorem krealloc_area {h h' : Heap} {newPtr : ℕ} (hptr : ptr ≠ null) (hsize : size ≠ 0)
    (hk : Bethany.krealloc h ptr size = some (newPtr, h')) :
    ∃ answers, ∀ pages, h.area.krealloc (answers ++ pages) mem ptr size =
      (newPtr, h'.area, pages, mem) := by
  have hkmalloc : Bethany.kmalloc h size = some (newPtr, h') := by
    rw [krealloc, if_neg hptr, if_neg hsize] at hk
    obtain ⟨⟨ptr', h''⟩, hkm, heq⟩ := Option.map_eq_some_iff.mp hk
    rw [hkm]
    dsimp only at heq
    split_ifs at heq with hnull
    · rw [← heq, hnull]
    · rw [← heq]
  obtain ⟨answers, hsame⟩ := kmalloc_area hkmalloc
  refine ⟨answers, fun pages => ?_⟩
  rw [HeapArea.krealloc_eq hptr hsize, hsame]

/-! ### The bytes -/

/-- **`krealloc` keeps the data** of a live block exactly if `kmalloc` refuses the new size, or the
bytes at `heap_current` are those of the block by chance. -/
theorem krealloc_keeps_iff (hend : r.area.heapEnd < 2 ^ 64) (hptr : ptr ≠ null) (hsize : size ≠ 0) :
    r.KeepsData mem ptr n size ↔ r.area.Refuses r.pages size ∨
      ∀ i < min n size, mem (r.area.heapCurrent + i) = mem (ptr + i) := by
  rw [← kmalloc_null_iff hend hsize]
  simp only [HeapRun.KeepsData, HeapArea.krealloc_eq hptr hsize]
  constructor
  · rintro ⟨hnew, -, -⟩
    by_cases hnull : (r.area.kmalloc r.pages size).1 = null
    · exact .inl hnull
    · rw [← kmalloc_eq_current hend hnull]
      exact .inr (hnew hnull)
  · intro h
    refine ⟨fun hne i hi => ?_, by simp, by simp⟩
    rw [kmalloc_eq_current hend hne]
    exact (h.resolve_left hne) i hi

/-- A heap of one page, with a block of 16 bytes. -/
def oneBlockRun : HeapRun := [HeapCall.kmalloc 16].foldl HeapRun.exec (HeapRun.start [true])

theorem krealloc_keeps_iff_example :
    oneBlockRun.KeepsData (fun _ => 0) kernelHeapStart 16 8192 :=
  (krealloc_keeps_iff (by decide) (by decide) (by decide)).mpr
    (.inl (.inr fun k hk => by
      rw [show k = 0 from Nat.le_zero.mp hk]
      decide))

/-- The new block does not show the byte that the old one begins with. -/
theorem krealloc_loses :
    ¬ oneBlockRun.KeepsData (Function.update (fun _ => 0) kernelHeapStart 0x42) kernelHeapStart
      16 32 := by
  rintro ⟨hnew, -, -⟩
  exact absurd (hnew (by decide) 0 (by decide)) (by decide)

end Bethany
