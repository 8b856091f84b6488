import Bethany.Memory.Heap
import Bethany.Library.Runs

/-!
# The blocks of the heap

`heap.c` by itself, for any pattern of answers of `vmm_alloc_page`.

* the source: `HeapArea.heapInit`, `HeapArea.kmalloc`, `HeapArea.kfree`, `HeapArea.kcalloc`, where
  the answers that the calls of `vmm_alloc_page` get are a list;
* `HeapArea.loop_cases`: what the loop of `kmalloc` does;
* `heapInit_area`, `kmalloc_area`: the heap over the page tables is this one, for the answers that
  `vmm_alloc_page` gives there;
* `HeapRun`: runs of `kmalloc` and `kfree`, with the blocks that `kmalloc` has returned;
* `heapRun_iff`: the blocks stay apart in the runs in which `heap_end` does not wrap around.
-/

namespace Bethany

open Machine Runs

/-! ### The source -/

/-- The static variables of `heap.c`. -/
structure HeapArea where
  heapStart : ℕ
  heapEnd : ℕ
  heapCurrent : ℕ
deriving DecidableEq

namespace HeapArea

/-- `heap_init`.  The list has the answers that the calls of `vmm_alloc_page` get, one after the
other; the calls after the last of them fail.  What is left of it is returned. -/
def heapInit : List Bool → HeapArea × List Bool
  | [] => (⟨kernelHeapStart, kernelHeapStart, kernelHeapStart⟩, [])
  | false :: pages => (⟨kernelHeapStart, kernelHeapStart, kernelHeapStart⟩, pages)
  | true :: pages =>
      (⟨kernelHeapStart, u64 (kernelHeapStart + pageSize), kernelHeapStart⟩, pages)

/-- The loop of `kmalloc`; the result is false when `vmm_alloc_page` has failed. -/
def kmallocLoop (size : ℕ) : List Bool → HeapArea → Bool × HeapArea × List Bool
  | [], h => if u64 (h.heapCurrent + size) > h.heapEnd then (false, h, []) else (true, h, [])
  | ok :: pages, h =>
      if u64 (h.heapCurrent + size) > h.heapEnd then
        if !ok then (false, h, pages)
        else kmallocLoop size pages { h with heapEnd := u64 (h.heapEnd + pageSize) }
      else (true, h, ok :: pages)

/-- `kmalloc` -/
def kmalloc (h : HeapArea) (pages : List Bool) (size : ℕ) : ℕ × HeapArea × List Bool :=
  if size = 0 then (null, h, pages)
  else
    let size := alignUp size 16
    match kmallocLoop size pages h with
    | (false, h, pages) => (null, h, pages)
    | (true, h, pages) =>
        (h.heapCurrent, { h with heapCurrent := u64 (h.heapCurrent + size) }, pages)

/-- `kfree` -/
def kfree (h : HeapArea) (_ptr : ℕ) : HeapArea := h

/-- The loop of `kcalloc`, for the first `n` bytes. -/
def kcallocLoop (ptr : ℕ) : ℕ → Mem → Mem
  | 0, mem => mem
  | n + 1, mem => Function.update (kcallocLoop ptr n mem) (u64 (ptr + n)) 0

/-- `kcalloc`, with the memory behind the heap. -/
def kcalloc (h : HeapArea) (pages : List Bool) (mem : Mem) (count size : ℕ) :
    ℕ × HeapArea × List Bool × Mem :=
  let total := u64 (count * size)
  match h.kmalloc pages total with
  | (ptr, h, pages) =>
      if ptr = null then (null, h, pages, mem) else (ptr, h, pages, kcallocLoop ptr total mem)

end HeapArea

variable {h h' : HeapArea} {pages pages' : List Bool} {size ptr n : ℕ} {b : Bool}

/-! ### Growth -/

/-- The pages that `vmm_alloc_page` gives before it fails. -/
def pagesGranted (pages : List Bool) : ℕ := (pages.takeWhile id).length

/-- The heap after it has grown by `n` pages. -/
def HeapArea.grown (h : HeapArea) (n : ℕ) : HeapArea :=
  { h with heapEnd := u64 (h.heapEnd + n * pageSize) }

theorem HeapArea.grown_zero (hend : h.heapEnd < 2 ^ 64) : h.grown 0 = h := by
  unfold grown
  rw [Nat.zero_mul, Nat.add_zero, u64_of_lt hend]

theorem HeapArea.grown_succ (h : HeapArea) (n : ℕ) : (h.grown 1).grown n = h.grown (n + 1) := by
  simp only [grown, HeapArea.mk.injEq, true_and, and_true, u64]
  rw [Nat.one_mul, Nat.succ_mul]
  omega

/-- **What the loop of `kmalloc` does.**  It grows the heap over `n` pages, all of them while the
block does not fit, and stops when the block fits or no page is left. -/
theorem HeapArea.loop_cases (hend : h.heapEnd < 2 ^ 64)
    (hloop : kmallocLoop size pages h = (b, h', pages')) :
    ∃ n, h' = h.grown n ∧ (∀ m < n, (h.grown m).heapEnd < u64 (h.heapCurrent + size)) ∧
      (b = true → u64 (h.heapCurrent + size) ≤ h'.heapEnd) ∧
      (b = false → h'.heapEnd < u64 (h.heapCurrent + size) ∧ n = pagesGranted pages) := by
  induction pages generalizing h with
  | nil =>
    unfold kmallocLoop at hloop
    split_ifs at hloop with hfit
    · obtain ⟨rfl, rfl, -⟩ : _ ∧ h = h' ∧ _ := by simpa using hloop
      exact ⟨0, (grown_zero hend).symm, by simp, by simp, fun _ => ⟨hfit, rfl⟩⟩
    · obtain ⟨rfl, rfl, -⟩ : _ ∧ h = h' ∧ _ := by simpa using hloop
      exact ⟨0, (grown_zero hend).symm, by simp, fun _ => Nat.le_of_not_lt hfit, by simp⟩
  | cons ok pages ih =>
    unfold kmallocLoop at hloop
    split_ifs at hloop with hfit hok
    · obtain ⟨rfl, rfl, -⟩ : _ ∧ h = h' ∧ _ := by simpa using hloop
      refine ⟨0, (grown_zero hend).symm, by simp, by simp, fun _ => ⟨hfit, ?_⟩⟩
      simp_all [pagesGranted]
    · obtain ⟨n, rfl, hlt, htrue, hfalse⟩ := ih (Nat.mod_lt _ (by norm_num)) hloop
      have hgrown : ∀ m, HeapArea.grown { h with heapEnd := u64 (h.heapEnd + pageSize) } m =
          h.grown (m + 1) := fun m => by
        rw [← grown_succ, show h.grown 1 = { h with heapEnd := u64 (h.heapEnd + pageSize) } by
          rw [grown, Nat.one_mul]]
      refine ⟨n + 1, hgrown n, fun m hm => ?_, htrue, fun hb => ⟨(hfalse hb).1, ?_⟩⟩
      · cases m with
        | zero => rwa [grown_zero hend]
        | succ m =>
          rw [← hgrown]
          exact hlt m (by omega)
      · rw [(hfalse hb).2]
        simp_all [pagesGranted]
    · obtain ⟨rfl, rfl, -⟩ : _ ∧ h = h' ∧ _ := by simpa using hloop
      exact ⟨0, (grown_zero hend).symm, by simp, fun _ => Nat.le_of_not_lt hfit, by simp⟩

/-- The end of the next block, when the size of the block is a multiple of 16. -/
def HeapArea.blockEnd (h : HeapArea) (size : ℕ) : ℕ := u64 (h.heapCurrent + alignUp size 16)

theorem HeapArea.kmalloc_of_loop (hzero : size ≠ 0)
    (hloop : kmallocLoop (alignUp size 16) pages h = (b, h', pages')) :
    h.kmalloc pages size =
      if b then (h'.heapCurrent, { h' with heapCurrent := h'.blockEnd size }, pages')
      else (null, h', pages') := by
  rw [kmalloc, if_neg hzero]
  dsimp only
  rw [hloop]
  cases b <;> rfl

/-- **What `kmalloc` does**: nothing for an empty block; else it grows the heap, either over all
the pages there are while the block does not fit, or until it fits. -/
theorem HeapArea.kmalloc_cases (hend : h.heapEnd < 2 ^ 64) (pages : List Bool) (size : ℕ) :
    size = 0 ∧ h.kmalloc pages size = (null, h, pages) ∨
    (size ≠ 0 ∧ ∃ pages', h.kmalloc pages size = (null, h.grown (pagesGranted pages), pages') ∧
      ∀ m ≤ pagesGranted pages, (h.grown m).heapEnd < h.blockEnd size) ∨
    size ≠ 0 ∧ ∃ n pages',
      h.kmalloc pages size =
        (h.heapCurrent, { h.grown n with heapCurrent := h.blockEnd size }, pages') ∧
      (∀ m < n, (h.grown m).heapEnd < h.blockEnd size) ∧
      h.blockEnd size ≤ (h.grown n).heapEnd := by
  by_cases hzero : size = 0
  · exact .inl ⟨hzero, if_pos hzero⟩
  obtain ⟨b, h', pages', hloop⟩ : ∃ b h' pages',
      kmallocLoop (alignUp size 16) pages h = (b, h', pages') := ⟨_, _, _, rfl⟩
  obtain ⟨n, rfl, hlt, htrue, hfalse⟩ := loop_cases hend hloop
  have hk := kmalloc_of_loop hzero hloop
  cases b with
  | false =>
    obtain ⟨hlast, rfl⟩ := hfalse rfl
    refine .inr (.inl ⟨hzero, pages', hk, fun m hm => ?_⟩)
    obtain hm | rfl := Nat.lt_or_eq_of_le hm
    · exact hlt m hm
    · exact hlast
  | true => exact .inr (.inr ⟨hzero, n, pages', hk, hlt, htrue rfl⟩)

/-! ### The heap over the page tables -/

/-- The pointers of the heap. -/
def Heap.area (h : Heap) : HeapArea := ⟨h.heapStart, h.heapEnd, h.heapCurrent⟩

/-- `heap_init` sets the pointers as it does for the answer of `vmm_alloc_page`. -/
theorem heapInit_area (vmm : Vmm) :
    ∃ answers, ∀ pages,
      HeapArea.heapInit (answers ++ pages) = ((Bethany.heapInit vmm).area, pages) := by
  unfold Bethany.heapInit
  by_cases hnull : (pmmAllocPage vmm.pmm).1 = null
  · refine ⟨[false], fun pages => ?_⟩
    rw [heapGrow_full hnull]
    rfl
  · refine ⟨[true], fun pages => ?_⟩
    rw [heapGrow_page hnull]
    rfl

theorem kmallocLoop_area {h h' : Heap} (hloop : Bethany.kmallocLoop size n h = some (b, h')) :
    ∃ answers, ∀ pages,
      HeapArea.kmallocLoop size (answers ++ pages) h.area = (b, h'.area, pages) := by
  induction n generalizing h with
  | zero => simp [Bethany.kmallocLoop] at hloop
  | succ n ih =>
    unfold Bethany.kmallocLoop at hloop
    split_ifs at hloop with hfit
    · by_cases hnull : (pmmAllocPage h.vmm.pmm).1 = null
      · rw [heapGrow_full hnull] at hloop
        obtain ⟨rfl, rfl⟩ := Prod.mk.inj (Option.some.inj hloop)
        refine ⟨[false], fun pages => ?_⟩
        rw [List.singleton_append, HeapArea.kmallocLoop, if_pos (by exact hfit)]
        rfl
      · rw [heapGrow_page hnull] at hloop
        obtain ⟨answers, hsame⟩ := ih hloop
        refine ⟨true :: answers, fun pages => ?_⟩
        rw [List.cons_append, HeapArea.kmallocLoop, if_pos (by exact hfit), if_neg (by decide)]
        exact hsame pages
    · obtain ⟨rfl, rfl⟩ := Prod.mk.inj (Option.some.inj hloop)
      refine ⟨[], fun pages => ?_⟩
      cases pages with
      | nil => exact if_neg hfit
      | cons ok pages => exact if_neg hfit

/-- **The heap over the page tables is this heap**, for the answers that `vmm_alloc_page` gives
there. -/
theorem kmalloc_area {h h' : Heap} (hk : Bethany.kmalloc h size = some (ptr, h')) :
    ∃ answers, ∀ pages, h.area.kmalloc (answers ++ pages) size = (ptr, h'.area, pages) := by
  unfold Bethany.kmalloc at hk
  split_ifs at hk with hzero
  · obtain ⟨rfl, rfl⟩ := Prod.mk.inj (Option.some.inj hk)
    exact ⟨[], fun pages => if_pos hzero⟩
  obtain ⟨⟨b, h₁⟩, hloop, hresult⟩ := Option.map_eq_some_iff.mp hk
  obtain ⟨answers, hsame⟩ := kmallocLoop_area hloop
  refine ⟨answers, fun pages => ?_⟩
  rw [HeapArea.kmalloc, if_neg hzero]
  dsimp only
  rw [hsame]
  cases b with
  | false =>
    obtain ⟨rfl, rfl⟩ := Prod.mk.inj hresult
    rfl
  | true =>
    obtain ⟨rfl, rfl⟩ := Prod.mk.inj hresult
    rfl

/-! ### Runs -/

/-- A call of `kmalloc` or `kfree`. -/
inductive HeapCall
  | kmalloc (size : ℕ)
  | kfree (ptr : ℕ)

/-- The heap, the answers to come, and the blocks that `kmalloc` has returned: the address of
each with the size asked for. -/
structure HeapRun where
  area : HeapArea
  pages : List Bool
  blocks : List (ℕ × ℕ)

/-- The heap after `heap_init`. -/
def HeapRun.start (pages : List Bool) : HeapRun :=
  ⟨(HeapArea.heapInit pages).1, (HeapArea.heapInit pages).2, []⟩

/-- What a call does. -/
def HeapRun.exec (r : HeapRun) : HeapCall → HeapRun
  | .kmalloc size =>
      match r.area.kmalloc r.pages size with
      | (ptr, area, pages) =>
          ⟨area, pages, if ptr = null then r.blocks else (ptr, size) :: r.blocks⟩
  | .kfree ptr => { r with area := r.area.kfree ptr }

/-- The size of a block that holds `size` bytes. -/
def roundUp16 (size : ℕ) : ℕ := (size + 15) / 16 * 16

/-- The block ends below the end of the address space. -/
def HeapRun.Below (r : HeapRun) : HeapCall → Prop
  | .kmalloc size => r.area.heapCurrent + roundUp16 size < 2 ^ 64
  | .kfree _ => True

/-- The block ends below the last page, or `heap_end` does not wrap around to below
`heap_current` when the heap grows over every page that `vmm_alloc_page` gives. -/
def HeapRun.NoWrap (r : HeapRun) : HeapCall → Prop
  | .kmalloc size =>
      r.area.heapCurrent + roundUp16 size ≤ 2 ^ 64 - pageSize ∨
        r.area.heapCurrent ≤ u64 (r.area.heapEnd + pagesGranted r.pages * pageSize)
  | .kfree _ => True

/-- The pointers are in order, and the heap is made of whole pages. -/
structure HeapArea.Ordered (h : HeapArea) : Prop where
  start : h.heapStart ≤ h.heapCurrent
  current : h.heapCurrent ≤ h.heapEnd
  pages : pageSize ∣ h.heapEnd - h.heapStart

/-- Two blocks do not overlap. -/
def BlocksApart (block block' : ℕ × ℕ) : Prop :=
  block.1 + block.2 ≤ block'.1 ∨ block'.1 + block'.2 ≤ block.1

/-- What a call must keep: the pointers are in order, a block that is returned is aligned, lies
in the heap and overlaps no block returned before, and a call that returns `NULL` leaves
`heap_current` alone. -/
def HeapRun.Kept (r : HeapRun) (c : HeapCall) (r' : HeapRun) : Prop :=
  r'.area.Ordered ∧
    match c with
    | .kmalloc size =>
        let ptr := (r.area.kmalloc r.pages size).1
        if ptr = null then r'.area.heapCurrent = r.area.heapCurrent
        else 16 ∣ ptr ∧ r'.area.heapStart ≤ ptr ∧ ptr + size ≤ r'.area.heapEnd ∧
          ∀ block ∈ r.blocks, BlocksApart (ptr, size) block
    | .kfree _ => True

/-- The heap in a run: besides `Ordered`, every block lies below `heap_current`. -/
structure HeapRun.Inv (r : HeapRun) : Prop where
  ordered : r.area.Ordered
  start : r.area.heapStart = kernelHeapStart
  aligned : 16 ∣ r.area.heapCurrent
  limit : r.area.heapEnd < 2 ^ 64
  blocks : ∀ block ∈ r.blocks, block.1 + block.2 ≤ r.area.heapCurrent

theorem HeapRun.Inv.init (pages : List Bool) : (HeapRun.start pages).Inv := by
  have harea : (HeapRun.start pages).area = ⟨kernelHeapStart, kernelHeapStart, kernelHeapStart⟩ ∨
      (HeapRun.start pages).area =
        ⟨kernelHeapStart, u64 (kernelHeapStart + pageSize), kernelHeapStart⟩ := by
    rcases pages with _ | ⟨_ | _, pages⟩
    · exact .inl rfl
    · exact .inl rfl
    · exact .inr rfl
  obtain harea | harea := harea
  all_goals
    constructor
    · rw [harea]
      exact ⟨by decide, by decide, by decide⟩
    · rw [harea]
    · rw [harea]
      decide
    · rw [harea]
      decide
    · simp [HeapRun.start]

variable {r r' : HeapRun} {c : HeapCall}

/-- The end of a block below the end of the address space is computed without wrapping around. -/
theorem HeapArea.blockEnd_eq (hbelow : h.heapCurrent + roundUp16 size < 2 ^ 64) :
    h.blockEnd size = h.heapCurrent + roundUp16 size := by
  unfold roundUp16 at hbelow ⊢
  rw [blockEnd, alignUp_eq (by omega), u64_of_lt hbelow]

theorem le_roundUp16 (size : ℕ) : size ≤ roundUp16 size := by
  unfold roundUp16
  omega

theorem dvd_roundUp16 (size : ℕ) : 16 ∣ roundUp16 size := Nat.dvd_mul_left _ _

/-- The end of the heap stays a multiple of the page size. -/
theorem HeapArea.dvd_grown (hdvd : pageSize ∣ h.heapEnd) (n : ℕ) :
    pageSize ∣ (h.grown n).heapEnd := by
  show pageSize ∣ u64 _
  rw [pageSize_eq] at hdvd ⊢
  unfold u64
  omega

theorem HeapArea.grown_lt (h : HeapArea) (n : ℕ) : (h.grown n).heapEnd < 2 ^ 64 :=
  Nat.mod_lt _ (by norm_num)

/-- The heap does not wrap around while it grows for a block that ends below the last page. -/
theorem HeapArea.grown_of_lt {k : ℕ} (hlimit : h.heapEnd < 2 ^ 64)
    (hlast : size ≤ 2 ^ 64 - pageSize) (hlt : ∀ m < k, (h.grown m).heapEnd < size) :
    (h.grown k).heapEnd = h.heapEnd + k * pageSize := by
  induction k with
  | zero => rw [grown_zero hlimit, Nat.zero_mul, Nat.add_zero]
  | succ k ih =>
    have hk := hlt k k.lt_succ_self
    rw [ih fun m hm => hlt m (Nat.lt_succ_of_lt hm)] at hk
    have hnext : h.heapEnd + k * pageSize + pageSize < 2 ^ 64 := by
      have := pageSize_eq
      omega
    rw [Nat.succ_mul, ← Nat.add_assoc, ← u64_of_lt hnext, Nat.add_assoc, ← Nat.succ_mul]
    rfl

namespace HeapRun.Inv

theorem dvd_heapEnd (hinv : r.Inv) : pageSize ∣ r.area.heapEnd := by
  have hdvd : pageSize ∣ r.area.heapStart := by
    rw [hinv.start]
    decide
  have hle := hinv.ordered.start.trans hinv.ordered.current
  rw [← Nat.sub_add_cancel hle]
  exact (Nat.dvd_add_iff_left hdvd).mp hinv.ordered.pages

/-- The pointers of a heap that has grown are in order when `heap_current` is below its end. -/
theorem ordered_grown (hinv : r.Inv) (hle : r.area.heapCurrent ≤ (r.area.grown n).heapEnd) :
    (r.area.grown n).Ordered := by
  refine ⟨hinv.ordered.start, hle, ?_⟩
  refine Nat.dvd_sub (HeapArea.dvd_grown hinv.dvd_heapEnd n) ?_
  show pageSize ∣ r.area.heapStart
  rw [hinv.start]
  decide

/-- The heap that a refused call leaves behind. -/
theorem heapEnd_refused (hinv : r.Inv) {k : ℕ}
    (hbelow : r.area.heapCurrent + roundUp16 size < 2 ^ 64)
    (hlt : ∀ m ≤ k, (r.area.grown m).heapEnd < r.area.blockEnd size) :
    r.area.heapCurrent ≤ (r.area.grown k).heapEnd ↔
      r.area.heapCurrent + roundUp16 size ≤ 2 ^ 64 - pageSize ∨
        r.area.heapCurrent ≤ (r.area.grown k).heapEnd := by
  refine ⟨.inr, fun hor => hor.elim (fun hlast => ?_) id⟩
  rw [HeapArea.blockEnd_eq hbelow] at hlt
  rw [HeapArea.grown_of_lt hinv.limit hlast fun m hm => hlt m hm.le]
  exact hinv.ordered.current.trans (Nat.le_add_right _ _)

theorem current_ne_null (hinv : r.Inv) : r.area.heapCurrent ≠ null := by
  have hstart := hinv.ordered.start
  rw [hinv.start, kernelHeapStart] at hstart
  rw [null]
  omega

/-- A call keeps what it must keep exactly when `heap_end` does not wrap around. -/
theorem kept_iff (hinv : r.Inv) (hbelow : r.Below c) : r.Kept c (r.exec c) ↔ r.NoWrap c := by
  cases c with
  | kfree ptr => simpa [Kept, NoWrap, exec, HeapArea.kfree] using hinv.ordered
  | kmalloc size =>
    have hbelow' : r.area.heapCurrent + roundUp16 size < 2 ^ 64 := hbelow
    obtain ⟨hzero, hk⟩ | ⟨-, pages', hk, hlt⟩ | ⟨-, n, pages', hk, -, hfit⟩ :=
      HeapArea.kmalloc_cases hinv.limit r.pages size
    · have hlimit := hinv.limit
      have hdvd := hinv.dvd_heapEnd
      have hcurrent := hinv.ordered.current
      simp only [Kept, exec, hk, NoWrap, if_pos, hinv.ordered, true_and, true_iff]
      left
      rw [hzero, pageSize_eq] at *
      simp only [roundUp16]
      omega
    · simp only [Kept, exec, hk, if_pos, NoWrap]
      rw [show u64 (r.area.heapEnd + pagesGranted r.pages * pageSize) =
        (r.area.grown (pagesGranted r.pages)).heapEnd from rfl,
        ← hinv.heapEnd_refused hbelow' hlt]
      exact ⟨fun hkept => hkept.1.current, fun hle => ⟨hinv.ordered_grown hle, rfl⟩⟩
    · rw [HeapArea.blockEnd_eq hbelow'] at hk hfit
      have hsize := le_roundUp16 size
      have hlimit := r.area.grown_lt n
      have hdvd := HeapArea.dvd_grown hinv.dvd_heapEnd n
      simp only [Kept, exec, hk, if_neg hinv.current_ne_null, NoWrap]
      refine iff_of_true ⟨?_, hinv.aligned, hinv.ordered.start, ?_, fun block hblock => ?_⟩
        (.inl ?_)
      · have hordered := hinv.ordered_grown (n := n) (by omega)
        exact ⟨hordered.start.trans (Nat.le_add_right _ _), hfit, hordered.pages⟩
      · show r.area.heapCurrent + size ≤ (r.area.grown n).heapEnd
        omega
      · exact .inr (hinv.blocks block hblock)
      · rw [pageSize_eq] at hdvd ⊢
        omega

/-- A call that keeps what it must keep leaves the heap in order. -/
theorem exec (hinv : r.Inv) (hbelow : r.Below c) (hkept : r.Kept c (r.exec c)) :
    (r.exec c).Inv := by
  cases c with
  | kfree ptr => exact hinv
  | kmalloc size =>
    have hbelow' : r.area.heapCurrent + roundUp16 size < 2 ^ 64 := hbelow
    have hordered := hkept.1
    obtain ⟨-, hk⟩ | ⟨-, pages', hk, -⟩ | ⟨-, n, pages', hk, -, -⟩ :=
      HeapArea.kmalloc_cases hinv.limit r.pages size
    · simp only [HeapRun.exec, hk, if_pos] at hordered ⊢
      exact { hinv with }
    · simp only [HeapRun.exec, hk, if_pos] at hordered ⊢
      exact ⟨hordered, hinv.start, hinv.aligned, r.area.grown_lt _, hinv.blocks⟩
    · rw [HeapArea.blockEnd_eq hbelow'] at hk
      simp only [HeapRun.exec, hk, if_neg hinv.current_ne_null] at hordered ⊢
      refine ⟨hordered, hinv.start, Nat.dvd_add hinv.aligned (dvd_roundUp16 size),
        r.area.grown_lt _, fun block hblock => ?_⟩
      show block.1 + block.2 ≤ r.area.heapCurrent + roundUp16 size
      obtain rfl | hold := List.mem_cons.mp hblock
      · exact Nat.add_le_add_left (le_roundUp16 size) _
      · exact (hinv.blocks block hold).trans (Nat.le_add_right _ _)

end HeapRun.Inv

/-- A step of a run; every call returns. -/
def HeapRun.step (r : HeapRun) (c : HeapCall) : Option HeapRun := some (r.exec c)

/-- **The blocks of the heap stay apart exactly as long as `heap_end` does not wrap around**, in
every run whose blocks end below the end of the address space. -/
theorem heapRun_iff (pages : List Bool) (calls : List HeapCall)
    (hbelow : Along HeapRun.step (fun r c _ => r.Below c) (HeapRun.start pages) calls) :
    (HeapRun.start pages).area.Ordered ∧
      (Along HeapRun.step HeapRun.Kept (HeapRun.start pages) calls ↔
        Along HeapRun.step (fun r c _ => r.NoWrap c) (HeapRun.start pages) calls) := by
  have hinit := HeapRun.Inv.init pages
  refine ⟨hinit.ordered, ?_⟩
  have hboth :
      Along HeapRun.step (fun r c r' => r.Below c ∧ r.Kept c r') (HeapRun.start pages) calls ↔
        Along HeapRun.step (fun r c _ => r.Below c ∧ r.NoWrap c) (HeapRun.start pages) calls := by
    refine along_iff HeapRun.Inv hinit ?_ ?_
    · rintro r c _ hinv ⟨⟩
      exact and_congr_right fun h => hinv.kept_iff h
    · rintro r c _ hinv ⟨⟩ ⟨h, hnowrap⟩
      exact hinv.exec h ((hinv.kept_iff h).mpr hnowrap)
  rw [along_and, along_and] at hboth
  simpa [hbelow] using hboth

/-- Two blocks, the second over the first page that the heap has grown by. -/
theorem heapRun_iff_example :
    (HeapRun.start [true, true, false]).area.Ordered ∧
      (Along HeapRun.step HeapRun.Kept (HeapRun.start [true, true, false])
          [.kmalloc 100, .kfree kernelHeapStart, .kmalloc 5000] ↔
        Along HeapRun.step (fun r c _ => r.NoWrap c) (HeapRun.start [true, true, false])
          [.kmalloc 100, .kfree kernelHeapStart, .kmalloc 5000]) := by
  refine heapRun_iff _ _ ?_
  rintro _ ⟨⟩
  refine ⟨(by decide : kernelHeapStart + roundUp16 100 < 2 ^ 64), ?_⟩
  rintro _ ⟨⟩
  refine ⟨trivial, ?_⟩
  rintro _ ⟨⟩
  exact ⟨(by decide : kernelHeapStart + 112 + roundUp16 5000 < 2 ^ 64), trivial⟩

theorem pagesGranted_replicate (n : ℕ) : pagesGranted (List.replicate n true) = n := by
  simp [pagesGranted]

theorem heapRun_wraps_of (hgranted : pagesGranted pages = 0x6FFFFFFFF) :
    Along HeapRun.step (fun r c _ => r.Below c)
        (HeapRun.start (true :: pages)) [.kmalloc 0x6FFFFFFFFFF0] ∧
      ¬ Along HeapRun.step HeapRun.Kept
        (HeapRun.start (true :: pages)) [.kmalloc 0x6FFFFFFFFFF0] := by
  have hbelow : (HeapRun.start (true :: pages)).Below (.kmalloc 0x6FFFFFFFFFF0) := by
    show kernelHeapStart + roundUp16 0x6FFFFFFFFFF0 < 2 ^ 64
    decide
  have hwrap : ¬ (HeapRun.start (true :: pages)).NoWrap (.kmalloc 0x6FFFFFFFFFF0) := by
    show ¬ (kernelHeapStart + roundUp16 0x6FFFFFFFFFF0 ≤ 2 ^ 64 - pageSize ∨
      kernelHeapStart ≤ u64 (u64 (kernelHeapStart + pageSize) + pagesGranted pages * pageSize))
    rw [hgranted]
    decide
  refine ⟨fun _ _ => ⟨hbelow, trivial⟩, fun hkept => ?_⟩
  obtain ⟨h, -⟩ := hkept _ rfl
  exact hwrap (((HeapRun.Inv.init _).kept_iff hbelow).mp h)

/-- The heap may take the last page of the address space, and `heap_end` is 0 then. -/
theorem heapRun_wraps :
    Along HeapRun.step (fun r c _ => r.Below c)
        (HeapRun.start (true :: List.replicate 0x6FFFFFFFF true)) [.kmalloc 0x6FFFFFFFFFF0] ∧
      ¬ Along HeapRun.step HeapRun.Kept
        (HeapRun.start (true :: List.replicate 0x6FFFFFFFF true)) [.kmalloc 0x6FFFFFFFFFF0] :=
  heapRun_wraps_of (pagesGranted_replicate _)

end Bethany
