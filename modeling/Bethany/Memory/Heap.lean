import Bethany.Memory.PmmSafety
import Bethany.Memory.Region

/-!
# The kernel heap

`heap.c` keeps the heap as one stretch of virtual addresses from `KERNEL_HEAP_START` on.
`kmalloc` moves `heap_current` up, and grows the heap by a page at a time while the block does
not fit below `heap_end`.  `kfree` does nothing.

* the source: `alignUp`, `heapInit`, `kmallocLoop`, `kmalloc`; `heapGrow` is one page of growth;
* `kmalloc_returns`: the loop of `kmalloc` ends, since every round takes a free page;
* `Heap.Inv`: the pages the heap has grown over, the frames it has got for them, and the map;
* `Heap.Inv.init`, `Heap.Inv.grow`, `Heap.Inv.kmalloc`: every call keeps the invariant;
* `Heap.Inv.translate`: the bytes of the heap translate to their frames.
-/

namespace Bethany

open Machine

/-! ### The source -/

/-- `KERNEL_HEAP_START` -/
def kernelHeapStart : ℕ := 0xFFFF900000000000

/-- `align_up`, where `~(alignment - 1)` is the complement in 64 bits. -/
def alignUp (value alignment : ℕ) : ℕ :=
  u64 (value + alignment - 1) &&& (2 ^ 64 - 1 - (alignment - 1))

/-- The static variables of `heap.c` over the memory manager.  Two more fields record what the
heap has done so far: `grown` has the pages it has grown over, each with the frame it got for
the page, and `starved` tells that a page table was missing and could not be allocated. -/
structure Heap where
  vmm : Vmm
  heapStart : ℕ
  heapEnd : ℕ
  heapCurrent : ℕ
  grown : List (ℕ × ℕ)
  starved : Bool

/-- `vmm_alloc_page` at `heap_end`; the heap is a page longer when it succeeds. -/
def heapGrow (h : Heap) : Bool × Heap :=
  match vmmAllocPage h.vmm h.heapEnd (pagePresent ||| pageWritable) with
  | (false, vmm) => (false, { h with vmm := vmm })
  | (true, vmm) =>
      (true, { h with
        vmm := vmm
        heapEnd := u64 (h.heapEnd + pageSize)
        grown := (h.heapEnd, (pmmAllocPage h.vmm.pmm).1) :: h.grown
        starved := h.starved ||
          (ensureTables { h.vmm with pmm := (pmmAllocPage h.vmm.pmm).2 } h.heapEnd).1 == null })

/-- `heap_init` -/
def heapInit (vmm : Vmm) : Heap :=
  (heapGrow
    { vmm := vmm
      heapStart := kernelHeapStart
      heapEnd := kernelHeapStart
      heapCurrent := kernelHeapStart
      grown := []
      starved := false }).2

/-- The loop of `kmalloc`, as far as `n` rounds; the result is false when no page was left. -/
def kmallocLoop (size : ℕ) : ℕ → Heap → Option (Bool × Heap)
  | 0, _ => none
  | n + 1, h =>
      if u64 (h.heapCurrent + size) > h.heapEnd then
        match heapGrow h with
        | (false, h) => some (false, h)
        | (true, h) => kmallocLoop size n h
      else some (true, h)

/-- `kmalloc`.  Every round of the loop but the last takes a page. -/
def kmalloc (h : Heap) (size : ℕ) : Option (ℕ × Heap) :=
  if size = 0 then some (null, h)
  else
    let size := alignUp size 16
    (kmallocLoop size (h.vmm.pmm.pageCount + 1) h).map fun
      | (false, h) => (null, h)
      | (true, h) => (h.heapCurrent, { h with heapCurrent := u64 (h.heapCurrent + size) })

variable {h h' : Heap} {vmm : Vmm} {top root size n ptr : ℕ} {keep : ℕ → Bool} {b : Bool}

/-! ### Rounding -/

theorem and_alignMask {x : ℕ} (hx : x < 2 ^ 64) : x &&& (2 ^ 64 - 1 - (16 - 1)) = x / 16 * 16 :=
  and_highBits (by norm_num : 4 ≤ 64) hx

/-- A size is rounded up to the next multiple of 16, unless that is too large. -/
theorem alignUp_eq (hsize : size + 15 < 2 ^ 64) : alignUp size 16 = (size + 15) / 16 * 16 := by
  unfold alignUp
  rw [show size + 16 - 1 = size + 15 by omega, u64_of_lt hsize, and_alignMask hsize]

theorem le_alignUp (hsize : size + 15 < 2 ^ 64) : size ≤ alignUp size 16 := by
  rw [alignUp_eq hsize]
  omega

/-! ### One page of growth -/

/-- The heap after it has grown by a page that `pmm_alloc_page` returned. -/
def Heap.grow (h : Heap) : Heap :=
  { h with
    vmm := vmmMap { h.vmm with pmm := (pmmAllocPage h.vmm.pmm).2 } h.heapEnd
      (pmmAllocPage h.vmm.pmm).1 (pagePresent ||| pageWritable)
    heapEnd := u64 (h.heapEnd + pageSize)
    grown := (h.heapEnd, (pmmAllocPage h.vmm.pmm).1) :: h.grown
    starved := h.starved ||
      (ensureTables { h.vmm with pmm := (pmmAllocPage h.vmm.pmm).2 } h.heapEnd).1 == null }

theorem heapGrow_full (hnull : (pmmAllocPage h.vmm.pmm).1 = null) :
    heapGrow h = (false, { h with vmm := { h.vmm with pmm := (pmmAllocPage h.vmm.pmm).2 } }) := by
  unfold heapGrow vmmAllocPage
  rw [if_pos hnull]

theorem heapGrow_page (hne : (pmmAllocPage h.vmm.pmm).1 ≠ null) : heapGrow h = (true, h.grow) := by
  unfold heapGrow vmmAllocPage
  rw [if_neg hne]
  rfl

/-! ### The loop ends -/

/-- The pages whose bits are clear. -/
def Pmm.freeBits (s : Pmm) : Finset ℕ := (Finset.range s.pageCount).filter fun bit => ¬ s.Used bit

theorem Pmm.Takes.freeBits {s s' : Pmm} (h : s.Takes s') : s'.freeBits ⊆ s.freeBits := by
  intro bit hbit
  simp only [Pmm.freeBits, Finset.mem_filter, Finset.mem_range, h.pageCount] at hbit ⊢
  exact ⟨hbit.1, fun hused => hbit.2 (h.used bit hused)⟩

/-- An allocation that succeeds leaves fewer free pages. -/
theorem Pmm.WF.freeBits_lt {s : Pmm} (h : s.WF top) (htop : top ≤ 2 ^ 64)
    (hne : (pmmAllocPage s).1 ≠ null) : (pmmAllocPage s).2.freeBits ⊂ s.freeBits := by
  rcases pmmAllocPage_cases h htop with ⟨-, heq⟩ | ⟨bit, f, hlt, hfree, -, -, heq⟩
  · rw [heq] at hne
    exact absurd rfl hne
  · refine Finset.ssubset_iff_subset_ne.mpr ⟨(Pmm.Takes.alloc s).freeBits, fun hsame => ?_⟩
    have hbit : bit ∈ s.freeBits := by
      simp only [Pmm.freeBits, Finset.mem_filter, Finset.mem_range]
      exact ⟨hlt, hfree⟩
    rw [← hsame, heq] at hbit
    simp [Pmm.freeBits] at hbit

theorem Heap.takes_grow_map (h : Heap) : (pmmAllocPage h.vmm.pmm).2.Takes h.grow.vmm.pmm :=
  takes_vmmMap { h.vmm with pmm := (pmmAllocPage h.vmm.pmm).2 } h.heapEnd _ _

theorem Heap.takes_grow (h : Heap) : h.vmm.pmm.Takes h.grow.vmm.pmm :=
  (Pmm.Takes.alloc h.vmm.pmm).trans h.takes_grow_map

theorem Pmm.WF.takes {s s' : Pmm} (h : s.WF top) (ht : s.Takes s') : s'.WF top :=
  ⟨ht.usable ▸ h.usable, by rw [ht.pageCount, ht.usable, h.pageCount]⟩

/-- The loop of `kmalloc` runs out of rounds only if it has not taken a page in each. -/
theorem kmallocLoop_isSome (hwf : h.vmm.pmm.WF top) (htop : top ≤ 2 ^ 64)
    (hn : h.vmm.pmm.freeBits.card < n) : (kmallocLoop size n h).isSome := by
  induction n generalizing h with
  | zero => exact absurd hn (Nat.not_lt_zero _)
  | succ n ih =>
    unfold kmallocLoop
    split_ifs with hfit
    · by_cases hnull : (pmmAllocPage h.vmm.pmm).1 = null
      · rw [heapGrow_full hnull]
        rfl
      · rw [heapGrow_page hnull]
        apply ih (hwf.takes h.takes_grow)
        have hlt := Finset.card_lt_card (hwf.freeBits_lt htop hnull)
        have hle := Finset.card_le_card h.takes_grow_map.freeBits
        omega
    · rfl

/-- **`kmalloc` returns.**  As long as the allocator is in order its loop ends. -/
theorem kmalloc_returns (hwf : h.vmm.pmm.WF top) (htop : top ≤ 2 ^ 64) (size : ℕ) :
    (kmalloc h size).isSome := by
  unfold kmalloc
  split_ifs
  · rfl
  · rw [Option.isSome_map]
    apply kmallocLoop_isSome hwf htop
    have := Finset.card_filter_le (Finset.range h.vmm.pmm.pageCount) fun bit =>
      ¬ h.vmm.pmm.Used bit
    rw [Finset.card_range] at this
    exact Nat.lt_succ_of_le this

/-! ### The invariant -/

/-- The page that the heap grows over as its page number `k`. -/
def heapPage (k : ℕ) : ℕ := u64 (kernelHeapStart + k * pageSize)

/-- The pages of the heap lie next to each other from `KERNEL_HEAP_START` on, each has a frame of
its own that is in use, and the page tables give it that frame. -/
structure Heap.Inv (h : Heap) (top root : ℕ) (keep : ℕ → Bool) : Prop where
  tree : PageTree (h.vmm.only root keep) top root
  start : h.heapStart = kernelHeapStart
  heapEnd : h.heapEnd = heapPage h.grown.length
  current : kernelHeapStart ≤ h.heapCurrent ∧
    h.heapCurrent ≤ kernelHeapStart + h.grown.length * pageSize
  pages : ∀ v, (∃ f, (v, f) ∈ h.grown) ↔ ∃ k < h.grown.length, v = heapPage k
  frames : (h.grown.map Prod.snd).Nodup
  held : ∀ v f, (v, f) ∈ h.grown → f ∈ framesOf h.vmm.pmm.usable ∧ ¬ h.vmm.pmm.Free f
  mapped : h.starved = false → ∀ v f, (v, f) ∈ h.grown →
    pageMap (h.vmm.only root keep) root (pageOf v) = some f

/-- The addresses the heap can grow over are reached through entries that `keep` keeps. -/
def HeapRegion (top : ℕ) (keep : ℕ → Bool) : Prop :=
  ∀ x < top, keep (pml4Index (u64 (kernelHeapStart + x))) = true

/-- Frames that are all different fit the physical memory. -/
theorem Pmm.WF.length_frames_le {s : Pmm} (h : s.WF top) {frames : List ℕ} (hnodup : frames.Nodup)
    (hsub : ∀ f ∈ frames, f ∈ framesOf s.usable) : frames.length * pageSize ≤ top :=
  (Nat.mul_le_mul_right _ (hnodup.subperm hsub).length_le).trans h.usable.length_frames_le

theorem Heap.Inv.length_le (hinv : h.Inv top root keep) : h.grown.length * pageSize ≤ top := by
  rw [← List.length_map Prod.snd]
  apply Pmm.WF.length_frames_le hinv.tree.pmm hinv.frames
  intro f hf
  obtain ⟨⟨v, f⟩, hmem, rfl⟩ := List.mem_map.mp hf
  exact (hinv.held v f hmem).1

/-- Different pages of the heap are different pages to the page tables. -/
theorem pageOf_heapPage_ne {k k' : ℕ} (hlt : k < k') (hk' : k' * pageSize < 2 ^ 48) :
    pageOf (heapPage k) ≠ pageOf (heapPage k') := by
  unfold heapPage
  rw [pageOf_u64, pageOf_u64, ne_eq, pageOf_eq_iff]
  rw [pageSize_eq] at hk' ⊢
  omega

/-- The heap before its first page. -/
theorem Heap.Inv.empty (htree : PageTree (vmm.only root keep) top root) :
    Heap.Inv ⟨vmm, kernelHeapStart, kernelHeapStart, kernelHeapStart, [], false⟩ top root keep where
  tree := htree
  start := rfl
  heapEnd := (by decide : kernelHeapStart = heapPage 0)
  current := by simp
  pages v := by simp
  frames := by simp
  held v f hmem := by simp at hmem
  mapped _ v f hmem := by simp at hmem

/-- An allocation that the heap does not use. -/
theorem Heap.Inv.alloc (hinv : h.Inv top root keep) :
    Heap.Inv { h with vmm := { h.vmm with pmm := (pmmAllocPage h.vmm.pmm).2 } } top root keep where
  tree := hinv.tree.allocated
  start := hinv.start
  heapEnd := hinv.heapEnd
  current := hinv.current
  pages := hinv.pages
  frames := hinv.frames
  held v f hmem := by
    obtain ⟨hf, hused⟩ := hinv.held v f hmem
    have htakes := Pmm.Takes.alloc h.vmm.pmm
    exact ⟨htakes.usable.symm ▸ hf, fun hfree => hused (htakes.free hfree)⟩
  mapped := hinv.mapped

/-- A new page of the heap has a frame that none of its pages has, and that is not free. -/
theorem Heap.Inv.grow_frames (hinv : h.Inv top root keep) (htop : top ≤ 2 ^ 64)
    (hne : (pmmAllocPage h.vmm.pmm).1 ≠ null) :
    (h.grow.grown.map Prod.snd).Nodup ∧ ∀ v f, (v, f) ∈ h.grow.grown →
      f ∈ framesOf h.grow.vmm.pmm.usable ∧ ¬ h.grow.vmm.pmm.Free f := by
  have hwf : h.vmm.pmm.WF top := hinv.tree.pmm
  obtain ⟨hfree, htaken⟩ := hwf.alloc_page htop hne
  -- The new frame was free, so it is none of the frames of the heap.
  have hfresh : (pmmAllocPage h.vmm.pmm).1 ∉ h.grown.map Prod.snd := by
    intro hmem
    obtain ⟨⟨v, f⟩, hgrown, hf⟩ := List.mem_map.mp hmem
    refine (hinv.held v f hgrown).2 ?_
    rw [show f = (pmmAllocPage h.vmm.pmm).1 from hf]
    exact hfree
  refine ⟨List.nodup_cons.mpr ⟨hfresh, hinv.frames⟩, fun v f hmem => ?_⟩
  have htakes := h.takes_grow
  rw [htakes.usable]
  obtain heq | hold := List.mem_cons.mp hmem
  · obtain ⟨rfl, rfl⟩ := Prod.mk.inj heq
    obtain ⟨bit, -, hbit⟩ := hfree
    exact ⟨List.mem_of_getElem? hbit, fun hf => htaken (h.takes_grow_map.free hf)⟩
  · obtain ⟨hf, hused⟩ := hinv.held v f hold
    exact ⟨hf, fun hfree' => hused (htakes.free hfree')⟩

/-- The pages of the heap fit into the memory that the allocator manages. -/
theorem Heap.Inv.grow_length (hinv : h.Inv top root keep) (htop : top ≤ 2 ^ 64)
    (hne : (pmmAllocPage h.vmm.pmm).1 ≠ null) : (h.grown.length + 1) * pageSize ≤ top := by
  obtain ⟨hframes, hheld⟩ := hinv.grow_frames htop hne
  have hwf : h.vmm.pmm.WF top := hinv.tree.pmm
  have := Pmm.WF.length_frames_le (hwf.takes h.takes_grow) hframes fun f hf => by
    obtain ⟨⟨v, f⟩, hmem, rfl⟩ := List.mem_map.mp hf
    exact (hheld v f hmem).1
  rwa [List.length_map] at this

/-- The heap grows by a page. -/
theorem Heap.Inv.grow (hinv : h.Inv top root keep) (hkeep : HeapRegion top keep)
    (htop : top ≤ 2 ^ 48) (hne : (pmmAllocPage h.vmm.pmm).1 ≠ null) : h.grow.Inv top root keep := by
  have htop64 : top ≤ 2 ^ 64 := htop.trans (by norm_num)
  have hwf : h.vmm.pmm.WF top := hinv.tree.pmm
  have hcok := hwf.free_ok (hwf.alloc_page htop64 hne).1
  obtain ⟨hframes, hheld⟩ := hinv.grow_frames htop64 hne
  have hlen := hinv.grow_length htop64 hne
  rw [Nat.succ_mul] at hlen
  have hpage : 0 < pageSize := by simp [pageSize_eq]
  have hregion : keep (pml4Index h.heapEnd) = true := by
    rw [hinv.heapEnd]
    exact hkeep _ (by omega)
  have hflags : ∀ i, 12 ≤ i → i < 52 → (pagePresent ||| pageWritable).testBit i = false :=
    fun i hi _ => flags_testBit (by decide) hi
  obtain ⟨htree, hmap⟩ := PageTree.vmmMap_region
    (s := { h.vmm with pmm := (pmmAllocPage h.vmm.pmm).2 }) hinv.tree.allocated hregion hcok.1
    (by omega : (pmmAllocPage h.vmm.pmm).1 < 2 ^ 52) (by decide) hflags
  refine ⟨htree, hinv.start, ?_, ?_, fun v => ?_, hframes, hheld, ?_⟩
  · show u64 (h.heapEnd + pageSize) = heapPage (h.grown.length + 1)
    rw [hinv.heapEnd, heapPage, heapPage, Nat.succ_mul, u64, u64, u64]
    omega
  · have hcurrent := hinv.current
    refine ⟨hcurrent.1, hcurrent.2.trans ?_⟩
    show _ ≤ kernelHeapStart + (h.grown.length + 1) * pageSize
    rw [Nat.succ_mul]
    omega
  · constructor
    · rintro ⟨f, hmem⟩
      obtain heq | hold := List.mem_cons.mp hmem
      · exact ⟨h.grown.length, Nat.lt_succ_self _, (Prod.mk.inj heq).1.trans hinv.heapEnd⟩
      · obtain ⟨k, hk, hv⟩ := (hinv.pages v).mp ⟨f, hold⟩
        exact ⟨k, Nat.lt_succ_of_lt hk, hv⟩
    · rintro ⟨k, hk, rfl⟩
      obtain hlt | heq := Nat.lt_succ_iff_lt_or_eq.mp hk
      · obtain ⟨f, hmem⟩ := (hinv.pages _).mpr ⟨k, hlt, rfl⟩
        exact ⟨f, List.mem_cons_of_mem _ hmem⟩
      · refine ⟨_, List.mem_cons.mpr (.inl (Prod.ext ?_ rfl))⟩
        rw [heq]
        exact hinv.heapEnd.symm
  · intro hstarved v f hmem
    obtain ⟨hstarved', htables⟩ := Bool.or_eq_false_iff.mp hstarved
    refine (congrFun (hmap (beq_eq_false_iff_ne.mp htables)) _).trans ?_
    obtain heq | hold := List.mem_cons.mp hmem
    · obtain ⟨rfl, rfl⟩ := Prod.mk.inj heq
      exact Function.update_self ..
    · obtain ⟨k, hk, rfl⟩ := (hinv.pages v).mp ⟨f, hold⟩
      rw [hinv.heapEnd, Function.update_of_ne (pageOf_heapPage_ne hk (by omega))]
      exact hinv.mapped hstarved' _ f hold

/-! ### Calls -/

theorem Heap.Inv.init (htree : PageTree (vmm.only root keep) top root)
    (hkeep : HeapRegion top keep) (htop : top ≤ 2 ^ 48) : (heapInit vmm).Inv top root keep := by
  have hempty := Heap.Inv.empty htree
  unfold heapInit
  by_cases hnull : (pmmAllocPage vmm.pmm).1 = null
  · rw [heapGrow_full hnull]
    exact hempty.alloc
  · rw [heapGrow_page hnull]
    exact hempty.grow hkeep htop hnull

/-- The loop of `kmalloc` keeps the invariant.  It grows the heap only, and when it succeeds the
block fits. -/
theorem Heap.Inv.loop (hinv : h.Inv top root keep) (hkeep : HeapRegion top keep)
    (htop : top ≤ 2 ^ 48) (hloop : kmallocLoop size n h = some (b, h')) :
    h'.Inv top root keep ∧ h'.heapCurrent = h.heapCurrent ∧ h.grown <:+ h'.grown ∧
      (b = true → u64 (h'.heapCurrent + size) ≤ h'.heapEnd) := by
  induction n generalizing h with
  | zero => exact nomatch hloop
  | succ n ih =>
    unfold kmallocLoop at hloop
    split_ifs at hloop with hfit
    · by_cases hnull : (pmmAllocPage h.vmm.pmm).1 = null
      · rw [heapGrow_full hnull] at hloop
        obtain ⟨rfl, rfl⟩ := Prod.mk.inj (Option.some.inj hloop)
        exact ⟨hinv.alloc, rfl, List.suffix_rfl, fun hb => absurd hb (by decide)⟩
      · rw [heapGrow_page hnull] at hloop
        obtain ⟨hinv', hcurrent, hsuffix, hfits⟩ := ih (hinv.grow hkeep htop hnull) hloop
        exact ⟨hinv', hcurrent, (List.suffix_cons _ _).trans hsuffix, hfits⟩
    · obtain ⟨rfl, rfl⟩ := Prod.mk.inj (Option.some.inj hloop)
      exact ⟨hinv, rfl, List.suffix_rfl, fun _ => Nat.le_of_not_lt hfit⟩

/-- A block that `kmalloc` returns lies in the pages of the heap, as long as its end does not
wrap around. -/
theorem Heap.Inv.kmalloc (hinv : h.Inv top root keep) (hkeep : HeapRegion top keep)
    (htop : top ≤ 2 ^ 48) (hsize : size + 15 < 2 ^ 64)
    (hend : h.heapCurrent + alignUp size 16 < 2 ^ 64) (hk : kmalloc h size = some (ptr, h')) :
    h'.Inv top root keep ∧ h.grown <:+ h'.grown ∧
      (ptr ≠ null → kernelHeapStart ≤ ptr ∧ ptr + size < 2 ^ 64 ∧
        ptr + size ≤ kernelHeapStart + h'.grown.length * pageSize) := by
  unfold Bethany.kmalloc at hk
  split_ifs at hk with hzero
  · obtain ⟨rfl, rfl⟩ := Prod.mk.inj (Option.some.inj hk)
    exact ⟨hinv, List.suffix_rfl, fun hne => absurd rfl hne⟩
  obtain ⟨⟨b, h₁⟩, hloop, hresult⟩ := Option.map_eq_some_iff.mp hk
  obtain ⟨hinv₁, hcurrent, hsuffix, hfits⟩ := hinv.loop hkeep htop hloop
  cases b with
  | false =>
    obtain ⟨rfl, rfl⟩ := Prod.mk.inj hresult
    exact ⟨hinv₁, hsuffix, fun hne => absurd rfl hne⟩
  | true =>
    obtain ⟨rfl, rfl⟩ := Prod.mk.inj hresult
    have hlo := hinv₁.current.1
    have hle := le_alignUp hsize
    rw [← hcurrent] at hend
    have hfit : h₁.heapCurrent + alignUp size 16 ≤
        kernelHeapStart + h₁.grown.length * pageSize := by
      have := hfits rfl
      rw [u64_of_lt hend, hinv₁.heapEnd] at this
      exact this.trans (Nat.mod_le _ _)
    refine ⟨?_, hsuffix, fun _ => ⟨hlo, by omega, by dsimp only; omega⟩⟩
    refine { hinv₁ with current := ?_ }
    show kernelHeapStart ≤ u64 (h₁.heapCurrent + alignUp size 16) ∧ _ ≤ _
    rw [u64_of_lt hend]
    exact ⟨by omega, hfit⟩

/-- A call for which the heap need not grow, or cannot, changes no page table and no page of the
heap. -/
theorem kmalloc_stays (hroom : size = 0 ∨ u64 (h.heapCurrent + alignUp size 16) ≤ h.heapEnd ∨
    (pmmAllocPage h.vmm.pmm).1 = null) (hk : kmalloc h size = some (ptr, h')) :
    h'.grown = h.grown ∧ h'.starved = h.starved ∧
      (h'.vmm = h.vmm ∨ h'.vmm = { h.vmm with pmm := (pmmAllocPage h.vmm.pmm).2 }) := by
  unfold kmalloc at hk
  split_ifs at hk with hzero
  · obtain ⟨rfl, rfl⟩ := Prod.mk.inj (Option.some.inj hk)
    exact ⟨rfl, rfl, .inl rfl⟩
  obtain ⟨⟨b, h₁⟩, hloop, hresult⟩ := Option.map_eq_some_iff.mp hk
  unfold kmallocLoop at hloop
  split_ifs at hloop with hfit
  · have hnull : (pmmAllocPage h.vmm.pmm).1 = null := by
      rcases hroom with hroom | hroom | hroom
      · exact absurd hroom hzero
      · exact absurd hroom (Nat.not_le_of_lt hfit)
      · exact hroom
    rw [heapGrow_full hnull] at hloop
    obtain ⟨rfl, rfl⟩ := Prod.mk.inj (Option.some.inj hloop)
    obtain ⟨rfl, rfl⟩ := Prod.mk.inj hresult
    exact ⟨rfl, rfl, .inr rfl⟩
  · obtain ⟨rfl, rfl⟩ := Prod.mk.inj (Option.some.inj hloop)
    obtain ⟨rfl, rfl⟩ := Prod.mk.inj hresult
    exact ⟨rfl, rfl, .inl rfl⟩

/-- **Every byte of the heap has the frame that its page got** when the heap grew over it. -/
theorem Heap.Inv.translate (hinv : h.Inv top root keep) (hkeep : HeapRegion top keep)
    (hstarved : h.starved = false) {a : ℕ} (hlo : kernelHeapStart ≤ a) (hlt : a < 2 ^ 64)
    (hhi : a < kernelHeapStart + h.grown.length * pageSize) :
    ∃ f, (a / pageSize * pageSize, f) ∈ h.grown ∧
      vmmTranslate h.vmm a = f + a % pageSize := by
  have hlen := hinv.length_le
  obtain ⟨x, rfl⟩ := Nat.exists_eq_add_of_le hlo
  have hx : x / pageSize < h.grown.length := by
    rw [Nat.div_lt_iff_lt_mul (by simp [pageSize_eq])]
    omega
  have hstart : kernelHeapStart % 4096 = 0 := by decide
  have hpage : (kernelHeapStart + x) / pageSize * pageSize = heapPage (x / pageSize) := by
    rw [heapPage, u64, pageSize_eq]
    omega
  obtain ⟨f, hmem⟩ := (hinv.pages _).mpr ⟨x / pageSize, hx, rfl⟩
  refine ⟨f, hpage ▸ hmem, ?_⟩
  have hkeep' := hkeep x (by omega)
  rw [u64_of_lt hlt] at hkeep'
  have hsame : pageOf (kernelHeapStart + x) = pageOf (heapPage (x / pageSize)) := by
    rw [← hpage, pageOf_eq_iff, pageSize_eq]
    omega
  rw [hinv.tree.vmmTranslate_region _ hkeep', PageMap.translate, hsame,
    hinv.mapped hstarved _ f hmem]

end Bethany
