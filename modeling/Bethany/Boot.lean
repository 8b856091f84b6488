import Bethany.Memory.Heap
import Bethany.String
import Mathlib.Logic.Relation

/-!
# Heap and device window at boot

`kmain` calls `heap_init`, has blocks allocated by `kmalloc`, and calls `nvme_init`, which maps
the registers of the controller.  `heap.c` and `nvme.c` both take `0xFFFF900000000000` for their
part of the address space.

* the source: `nvmeInit`, as far as memory is concerned;
* `Boot`, `Boot.exec`: the calls after `heap_init`;
* `Boot.BlocksKept`, `Boot.WindowKept`: blocks keep their frames, the window shows the registers;
* `Boot.Apart`: no call maps a page for the one where the other has one;
* `kernelRegions_apart`: the runs in which the regions do not collide.
-/

namespace Bethany

open Machine Relation

/-! ### The source -/

/-- The address `nvme_init` maps the registers at. -/
def nvmeMmio : ℕ := 0xFFFF900000000000

/-- The size `nvme_init` maps. -/
def nvmeMmioSize : ℕ := 0x2000

/-- The flags `nvme_init` maps with. -/
def nvmeFlags : ℕ := pagePresent ||| pageWritable ||| pageCacheDisable ||| pageWriteTrough

/-- Pages from `pmm_alloc_page`, each with what the driver and the controller put into it. -/
def takePages : List Mem → Vmm → Vmm
  | [], s => s
  | content :: pages, s =>
      let page := (pmmAllocPage s.pmm).1
      let s := { s with pmm := (pmmAllocPage s.pmm).2 }
      if page = null then takePages pages s
      else takePages pages { s with mem := memcpy s.mem page content 0 pageSize }

/-- The kernel after `heap_init`: the heap, two fields of `controller`, and the blocks that
`kmalloc` has returned, with their sizes. -/
structure Boot where
  heap : Heap
  bar0 : ℕ
  mmio : ℕ
  blocks : List (ℕ × ℕ)

/-- `nvme_init`, as far as memory notices.  `found` is `pci_bar` of the controller, if `pci_find`
finds one.  The controller's answers decide how many pages for queues and for the identify data
the call goes on to take, and what is in them: these are `pages`. -/
def nvmeInit (b : Boot) (found : Option ℕ) (pages : List Mem) : Boot :=
  match found with
  | none => b
  | some bar0 =>
      { b with
        bar0 := bar0
        mmio := nvmeMmio
        heap := { b.heap with
          vmm := takePages pages (vmmMapRange b.heap.vmm nvmeMmio bar0 nvmeMmioSize nvmeFlags)
          starved := b.heap.starved || mapRangeFails nvmeMmio bar0 nvmeFlags
            ((nvmeMmioSize + pageSize - 1) / pageSize) 0 b.heap.vmm } }

/-! ### Runs -/

inductive BootCall
  | kmalloc (size : ℕ)
  | nvmeInit (found : Option ℕ) (pages : List Mem)

def Boot.start (vmm : Vmm) : Boot where
  heap := heapInit vmm
  bar0 := 0
  mmio := 0
  blocks := []

/-- The kernel after `kmalloc` has returned `ptr`. -/
def Boot.allocated (b : Boot) (size ptr : ℕ) (heap : Heap) : Boot :=
  { b with
    heap := heap
    blocks := if ptr = null then b.blocks else (ptr, size) :: b.blocks }

def Boot.exec (b : Boot) : BootCall → Option Boot
  | .kmalloc size => (kmalloc b.heap size).map fun r => b.allocated size r.1 r.2
  | .nvmeInit found pages => some (nvmeInit b found pages)

/-- One call of a run in which all calls are as `ok` says. -/
def Boot.Step (ok : Boot → BootCall → Prop) (b b' : Boot) : Prop :=
  ∃ call, ok b call ∧ b.exec call = some b'

/-- Every byte of every block translates to the frame that the heap got for its page. -/
def Boot.BlocksKept (b : Boot) : Prop :=
  ∀ ptr size, (ptr, size) ∈ b.blocks → ∀ i < size, ∃ f,
    ((ptr + i) / pageSize * pageSize, f) ∈ b.heap.grown ∧
      vmmTranslate b.heap.vmm (ptr + i) = f + (ptr + i) % pageSize

/-- Every byte of the window translates to the register behind it. -/
def Boot.WindowKept (b : Boot) : Prop :=
  b.mmio ≠ 0 → ∀ i < nvmeMmioSize, vmmTranslate b.heap.vmm (b.mmio + i) = b.bar0 + i

/-- The heap has room for a block, or cannot grow. -/
def Heap.Stays (h : Heap) (size : ℕ) : Prop :=
  size = 0 ∨ u64 (h.heapCurrent + alignUp size 16) ≤ h.heapEnd ∨ (pmmAllocPage h.vmm.pmm).1 = null

/-- BAR0 is page-aligned. -/
def Boot.Legal (_ : Boot) : BootCall → Prop
  | .nvmeInit (some bar0) _ => pageSize ∣ bar0
  | _ => True

/-- `nvme_init` finds a controller only while the heap has no page, and then the heap grows no
more.  Blocks end within the address space, and BAR0 is an address that an entry can hold. -/
def Boot.Apart (b : Boot) : BootCall → Prop
  | .kmalloc size => size + 15 < 2 ^ 64 ∧ b.heap.heapCurrent + alignUp size 16 < 2 ^ 64 ∧
      (b.mmio = 0 ∨ b.heap.Stays size)
  | .nvmeInit none _ => True
  | .nvmeInit (some bar0) _ => pageSize ∣ bar0 ∧ bar0 + nvmeMmioSize ≤ 2 ^ 52 ∧
      b.heap.heapEnd = b.heap.heapStart

variable {b b' : Boot} {call : BootCall} {s vmm : Vmm} {top root : ℕ} {keep : ℕ → Bool}

/-! ### `nvme_init` -/

/-- Writing to a page that has just been taken leaves the tables and their map alone. -/
theorem takePage_region (h : PageTree (s.only root keep) top root)
    (hne : (pmmAllocPage s.pmm).1 ≠ null) {m : Mem}
    (hm : ∀ a, ¬ ((pmmAllocPage s.pmm).1 ≤ a ∧ a < (pmmAllocPage s.pmm).1 + pageSize) →
      m a = s.mem a) :
    PageTree (Vmm.only { s with pmm := (pmmAllocPage s.pmm).2, mem := m } root keep) top root ∧
      pageMap (Vmm.only { s with pmm := (pmmAllocPage s.pmm).2, mem := m } root keep) root =
        pageMap (s.only root keep) root := by
  have hfree : s.pmm.Free (pmmAllocPage s.pmm).1 :=
    (h.pmm.alloc_page (h.directMap.top_le.trans (by norm_num)) hne).1
  have hmask : ∀ a, ¬ ((pmmAllocPage s.pmm).1 ≤ a ∧ a < (pmmAllocPage s.pmm).1 + pageSize) →
      maskTable m root keep a = (s.only root keep).mem a := by
    intro a ha
    simp only [Vmm.only, maskTable, hm a ha]
  obtain ⟨htree, hmap⟩ := h.write_free hfree hmask
  exact ⟨htree.allocated, hmap⟩

/-- Taking pages leaves the tables and their map alone. -/
theorem takePages_region (h : PageTree (s.only root keep) top root) (pages : List Mem) :
    PageTree ((takePages pages s).only root keep) top root ∧
      pageMap ((takePages pages s).only root keep) root = pageMap (s.only root keep) root := by
  induction pages generalizing s with
  | nil => exact ⟨h, rfl⟩
  | cons content pages ih =>
    simp only [takePages]
    split_ifs with hnull
    · exact ih h.allocated
    · obtain ⟨htree, hmap⟩ := takePage_region h hnull
        (m := memcpy s.mem (pmmAllocPage s.pmm).1 content 0 pageSize) fun a ha => by
          rw [memcpy_apply, if_neg ha]
      obtain ⟨htree', hmap'⟩ := ih htree
      exact ⟨htree', hmap'.trans hmap⟩

theorem nvmeMmioPages : (nvmeMmioSize + pageSize - 1) / pageSize = 2 := by decide

/-- After `nvme_init` has found a controller, the two pages of the window are mapped to its
registers. -/
theorem nvmeInit_region (h : PageTree (s.only root keep) top root)
    (hkeep : HeapRegion (top + nvmeMmioSize) keep) {bar0 : ℕ} (hbar : pageSize ∣ bar0)
    (hlt : bar0 + nvmeMmioSize ≤ 2 ^ 52) (pages : List Mem) :
    PageTree ((takePages pages (vmmMapRange s nvmeMmio bar0 nvmeMmioSize nvmeFlags)).only root keep)
        top root ∧
      (mapRangeFails nvmeMmio bar0 nvmeFlags ((nvmeMmioSize + pageSize - 1) / pageSize) 0 s =
          false →
        ∀ k < 2, pageMap
          ((takePages pages (vmmMapRange s nvmeMmio bar0 nvmeMmioSize nvmeFlags)).only root keep)
          root (pageOf (nvmeMmio + k * pageSize)) = some (bar0 + k * pageSize)) := by
  unfold vmmMapRange
  rw [nvmeMmioPages]
  have hsize : nvmeMmioSize = 2 * pageSize := by decide
  have hwindow : ∀ k < 2, keep (pml4Index (u64 (nvmeMmio + (0 + k * pageSize)))) = true := by
    intro k hk
    apply hkeep
    rw [hsize, pageSize_eq]
    omega
  have hflags : ∀ i, 12 ≤ i → i < 52 → nvmeFlags.testBit i = false :=
    fun i hi _ => flags_testBit (by decide) hi
  obtain ⟨htree, hmap⟩ := h.mapRange_region (by norm_num) hwindow hbar (dvd_zero pageSize)
    (by omega) (by decide) hflags
  obtain ⟨htree', hmap'⟩ := takePages_region htree pages
  refine ⟨htree', fun hfails k hk => ?_⟩
  rw [hmap']
  simpa using (hmap hfails).1 k hk

/-! ### The invariant -/

/-- Blocks lie in the pages of the heap.  The window is mapped only while there are none. -/
structure Boot.Inv (b : Boot) (top root : ℕ) (keep : ℕ → Bool) : Prop where
  heap : b.heap.Inv top root keep
  blocks : ∀ ptr size, (ptr, size) ∈ b.blocks → kernelHeapStart ≤ ptr ∧ ptr + size < 2 ^ 64 ∧
    ptr + size ≤ kernelHeapStart + b.heap.grown.length * pageSize
  window : b.mmio ≠ 0 → b.mmio = nvmeMmio ∧ b.heap.grown = [] ∧
    (b.heap.starved = false → ∀ k < 2,
      pageMap (b.heap.vmm.only root keep) root (pageOf (nvmeMmio + k * pageSize)) =
        some (b.bar0 + k * pageSize))

theorem HeapRegion.mono {top' : ℕ} (h : HeapRegion top' keep) (hle : top ≤ top') :
    HeapRegion top keep := fun x hx => h x (hx.trans_le hle)

theorem Boot.Inv.start (htree : PageTree (vmm.only root keep) top root)
    (hkeep : HeapRegion top keep) (htop : top ≤ 2 ^ 48) : (Boot.start vmm).Inv top root keep where
  heap := Heap.Inv.init htree hkeep htop
  blocks _ _ hmem := absurd hmem List.not_mem_nil
  window hne := absurd rfl hne

/-- `kmalloc` keeps the blocks in the heap, and does not touch the window. -/
theorem Boot.Inv.kmalloc (hinv : b.Inv top root keep) (hkeep : HeapRegion top keep)
    (htop : top ≤ 2 ^ 48) {size ptr : ℕ} {heap : Heap} (hok : b.Apart (.kmalloc size))
    (hk : kmalloc b.heap size = some (ptr, heap)) :
    (b.allocated size ptr heap).Inv top root keep := by
  obtain ⟨hsize, hend, hstays⟩ := hok
  obtain ⟨hheap, hsuffix, hptr⟩ := hinv.heap.kmalloc hkeep htop hsize hend hk
  refine ⟨hheap, fun p n hmem => ?_, fun hmmio => ?_⟩
  · have hold : ∀ p n, (p, n) ∈ b.blocks → kernelHeapStart ≤ p ∧ p + n < 2 ^ 64 ∧
        p + n ≤ kernelHeapStart + heap.grown.length * pageSize := by
      intro p n hmem
      obtain ⟨hlo, hlt, hhi⟩ := hinv.blocks p n hmem
      have := Nat.mul_le_mul_right pageSize hsuffix.length_le
      exact ⟨hlo, hlt, by omega⟩
    simp only [Boot.allocated] at hmem ⊢
    split_ifs at hmem with hnull
    · exact hold p n hmem
    · obtain heq | hmem := List.mem_cons.mp hmem
      · obtain ⟨rfl, rfl⟩ := Prod.mk.inj heq
        exact hptr hnull
      · exact hold p n hmem
  · obtain ⟨hwindow, hgrown, hmap⟩ := hinv.window hmmio
    obtain hzero | hstays := hstays
    · exact absurd hzero hmmio
    obtain ⟨hgrown', hstarved, hvmm⟩ := kmalloc_stays hstays hk
    refine ⟨hwindow, hgrown'.trans hgrown, fun hok k hk' => ?_⟩
    have hmem : heap.vmm.mem = b.heap.vmm.mem := by
      obtain heq | heq := hvmm
      · rw [heq]
      · rw [heq]
    show pageMap (heap.vmm.only root keep) root _ = _
    unfold pageMap Vmm.only
    rw [hmem]
    exact hmap (hstarved ▸ hok) k hk'

/-- `nvme_init` finds a controller while the heap has no page, and maps the window. -/
theorem Boot.Inv.nvmeInit (hinv : b.Inv top root keep)
    (hkeep : HeapRegion (top + nvmeMmioSize) keep) (htop : top ≤ 2 ^ 48) {found : Option ℕ}
    {pages : List Mem} (hok : b.Apart (.nvmeInit found pages)) :
    (nvmeInit b found pages).Inv top root keep := by
  cases found with
  | none => exact hinv
  | some bar0 =>
    obtain ⟨hbar, hlt, hempty⟩ := hok
    have hgrown : b.heap.grown = [] := by
      have hlen := hinv.heap.length_le
      rw [hinv.heap.heapEnd, hinv.heap.start, heapPage, u64] at hempty
      rw [pageSize_eq] at hempty hlen
      apply List.length_eq_zero_iff.mp
      unfold kernelHeapStart at hempty
      omega
    obtain ⟨htree, hmap⟩ := nvmeInit_region hinv.heap.tree hkeep hbar hlt pages
    have hheap := hinv.heap
    refine ⟨⟨htree, hheap.start, hheap.heapEnd, hheap.current, hheap.pages, hheap.frames, ?_, ?_⟩,
      hinv.blocks, fun _ => ⟨rfl, hgrown, fun hstarved => ?_⟩⟩
    · intro v f hmem
      exact absurd (hgrown ▸ hmem) List.not_mem_nil
    · intro _ v f hmem
      exact absurd (hgrown ▸ hmem) List.not_mem_nil
    · exact hmap (Bool.or_eq_false_iff.mp hstarved).2

theorem Boot.Inv.exec (hinv : b.Inv top root keep) (hkeep : HeapRegion (top + nvmeMmioSize) keep)
    (htop : top ≤ 2 ^ 48) (hok : b.Apart call) (hexec : b.exec call = some b') :
    b'.Inv top root keep := by
  cases call with
  | kmalloc size =>
    obtain ⟨⟨ptr, heap⟩, hk, rfl⟩ := Option.map_eq_some_iff.mp hexec
    exact hinv.kmalloc (hkeep.mono (Nat.le_add_right _ _)) htop hok hk
  | nvmeInit found pages =>
    obtain rfl := Option.some.inj hexec
    exact hinv.nvmeInit hkeep htop hok

/-! ### Runs in which the regions do not collide -/

theorem Boot.Inv.blocksKept (hinv : b.Inv top root keep) (hkeep : HeapRegion top keep)
    (hstarved : b.heap.starved = false) : b.BlocksKept := by
  intro ptr size hmem i hi
  obtain ⟨hlo, hlt, hhi⟩ := hinv.blocks ptr size hmem
  exact hinv.heap.translate hkeep hstarved (by omega) (by omega) (by omega)

theorem Boot.Inv.windowKept (hinv : b.Inv top root keep)
    (hkeep : HeapRegion (top + nvmeMmioSize) keep) (hstarved : b.heap.starved = false) :
    b.WindowKept := by
  intro hmmio i hi
  obtain ⟨hwindow, -, hmap⟩ := hinv.window hmmio
  have hlt : nvmeMmio + i < 2 ^ 64 := by
    unfold nvmeMmio
    unfold nvmeMmioSize at hi
    omega
  have hkeep' : keep (pml4Index (nvmeMmio + i)) = true := by
    have hregion : keep (pml4Index (u64 (nvmeMmio + i))) = true := hkeep i (by omega)
    rwa [u64_of_lt hlt] at hregion
  have hpage : pageOf (nvmeMmio + i) = pageOf (nvmeMmio + i / pageSize * pageSize) := by
    rw [pageOf_eq_iff, pageSize_eq, nvmeMmio]
    omega
  have hk : i / pageSize < 2 := by
    rw [pageSize_eq]
    unfold nvmeMmioSize at hi
    omega
  rw [hwindow, hinv.heap.tree.vmmTranslate_region _ hkeep', PageMap.translate, hpage,
    hmap hstarved _ hk]
  show _ + _ = _
  rw [pageSize_eq, nvmeMmio]
  omega

/-- **Heap and window do not collide** in a run where `nvme_init` finds a controller only while
the heap has no page, and the heap does not grow afterwards.  The tables for the region form a
tree, the direct map lies in the upper half of the canonical addresses, and no page table was
missing. -/
theorem kernelRegions_apart (htree : PageTree (vmm.only root keep) top root)
    (hkeep : HeapRegion (top + nvmeMmioSize) keep) (hhhdm : 0xFFFF800000000000 ≤ vmm.hhdmOffset)
    (hrun : ReflTransGen (Boot.Step Boot.Apart) (.start vmm) b)
    (hstarved : b.heap.starved = false) :
    b.BlocksKept ∧ b.WindowKept := by
  have htop : top ≤ 2 ^ 48 := by
    have := htree.directMap.fits
    rw [Vmm.only_hhdmOffset] at this
    omega
  have hinv : b.Inv top root keep := by
    clear hstarved
    induction hrun with
    | refl => exact .start htree (hkeep.mono (Nat.le_add_right _ _)) htop
    | tail _ hstep ih =>
      obtain ⟨call, hok, hexec⟩ := hstep
      exact ih.exec hkeep htop hok hexec
  constructor
  · exact hinv.blocksKept (hkeep.mono (Nat.le_add_right _ _)) hstarved
  · exact hinv.windowKept hkeep hstarved

/-- With all entries of `pml4` kept, the state is as it was. -/
theorem Vmm.only_all (s : Vmm) (root : ℕ) : s.only root (fun _ => true) = s := by
  unfold Vmm.only maskTable
  simp

/-- The tables for `KERNEL_HEAP_START` in the frames `0x2000`, `0x3000` and `0x4000`, and an
allocator with five free pages above them. -/
def bootVmm : Vmm where
  mem := PageTree.tableMem (PageTree.tableMem (PageTree.tableMem (fun _ => 0) 0x1000 288 0x2000)
    0x2000 0 0x3000) 0x3000 0 0x4000
  pmm := (pmmAllocPage (pmmAllocPage (pmmAllocPage exampleVmm.pmm).2).2).2
  pml4 := exampleVmm.pml4
  hhdmOffset := exampleVmm.hhdmOffset

theorem bootVmm_tree : PageTree (bootVmm.only 0x1000 fun _ => true) 0xa000 0x1000 := by
  rw [Vmm.only_all]
  have h₁ := exampleVmm_tree.add_table (p := []) (i := 288) (by simp) rfl (by decide) (by decide)
  have h₂ := h₁.1.add_table (p := [288]) (t := 0x2000) (i := 0) (by simp) (by decide) (by decide)
    (by decide)
  exact (h₂.1.add_table (p := [288, 0]) (t := 0x3000) (i := 0) (by simp) (by decide) (by decide)
    (by decide)).1

/-- The kernel after `kmalloc(16)`. -/
def oneBlock : Boot := ((Boot.start bootVmm).exec (.kmalloc 16)).get (by decide)

theorem oneBlock_run {ok : Boot → BootCall → Prop} (hok : ok (.start bootVmm) (.kmalloc 16)) :
    ReflTransGen (Boot.Step ok) (.start bootVmm) oneBlock :=
  .single ⟨.kmalloc 16, hok, (Option.some_get _).symm⟩

/-- `bootVmm` with no page left. -/
def fullVmm : Vmm :=
  { bootVmm with pmm := (fun pmm => (pmmAllocPage pmm).2)^[5] bootVmm.pmm }

theorem fullVmm_tree : PageTree (fullVmm.only 0x1000 fun _ => true) 0xa000 0x1000 :=
  bootVmm_tree.allocated.allocated.allocated.allocated.allocated

/-- The kernel after `nvme_init` has found a controller, while the heap has no page. -/
def windowBoot : Boot := nvmeInit (.start fullVmm) (some 0xfebf0000) []

/-- A heap with a block, where no controller is found; and a heap without a page, where one is
found, and `kmalloc` has no block afterwards. -/
theorem kernelRegions_apart_example :
    ((nvmeInit oneBlock none []).BlocksKept ∧ (nvmeInit oneBlock none []).WindowKept) ∧
      ((windowBoot.exec (.kmalloc 16)).get (by decide)).BlocksKept ∧
      ((windowBoot.exec (.kmalloc 16)).get (by decide)).WindowKept := by
  constructor
  · have hblock : ReflTransGen (Boot.Step Boot.Apart) (.start bootVmm) oneBlock :=
      oneBlock_run ⟨by decide, by decide, .inl rfl⟩
    exact kernelRegions_apart bootVmm_tree (fun _ _ => rfl) (by decide)
      (hblock.tail ⟨.nvmeInit none [], trivial, rfl⟩) (by decide)
  · have hwindow : ReflTransGen (Boot.Step Boot.Apart) (.start fullVmm) windowBoot :=
      .single ⟨.nvmeInit (some 0xfebf0000) [], ⟨by decide, by decide, by decide⟩, rfl⟩
    have hfull : windowBoot.Apart (.kmalloc 16) :=
      ⟨by decide, by decide, .inr (.inr (.inr (by decide)))⟩
    exact kernelRegions_apart fullVmm_tree (fun _ _ => rfl) (by decide)
      (hwindow.tail ⟨.kmalloc 16, hfull, (Option.some_get _).symm⟩) (by decide)

/-- `nvme_init` maps the first two pages of the heap to the registers at `0xfebf0000`, and the
block that `kmalloc` returned before is a block no more. -/
theorem kernelRegions_collide :
    ¬ ∀ vmm top root keep b, PageTree (vmm.only root keep) top root →
      HeapRegion (top + nvmeMmioSize) keep → 0xFFFF800000000000 ≤ vmm.hhdmOffset →
      ReflTransGen (Boot.Step Boot.Legal) (.start vmm) b → b.heap.starved = false →
      b.BlocksKept ∧ b.WindowKept := by
  intro h
  have hlegal : oneBlock.Legal (.nvmeInit (some 0xfebf0000) []) := by
    show pageSize ∣ 0xfebf0000
    decide
  have hrun : ReflTransGen (Boot.Step Boot.Legal) (.start bootVmm)
      (nvmeInit oneBlock (some 0xfebf0000) []) :=
    (oneBlock_run trivial).tail ⟨_, hlegal, rfl⟩
  obtain ⟨hblocks, -⟩ := h bootVmm 0xa000 0x1000 _ _ bootVmm_tree (fun _ _ => rfl) (by decide) hrun
    (by decide)
  have hblock : (nvmeInit oneBlock (some 0xfebf0000) []).blocks = [(kernelHeapStart, 16)] := by
    decide
  have hgrown :
      (nvmeInit oneBlock (some 0xfebf0000) []).heap.grown = [(kernelHeapStart, 0x5000)] := by
    decide
  have htranslate : vmmTranslate (nvmeInit oneBlock (some 0xfebf0000) []).heap.vmm
      kernelHeapStart = 0xfebf0000 := by decide
  obtain ⟨f, hmem, hf⟩ := hblocks kernelHeapStart 16 (by simp [hblock]) 0 (by decide)
  have hframe : f = 0x5000 := by
    rw [hgrown] at hmem
    exact (Prod.mk.inj (List.mem_singleton.mp hmem)).2
  rw [Nat.add_zero, htranslate, hframe] at hf
  exact absurd hf (by decide)

end Bethany
