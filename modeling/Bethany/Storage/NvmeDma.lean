import Bethany.Boot
import Bethany.Storage.Nvme

/-!
# The address that the driver gives to the controller

`nvme_read` and `nvme_write` take the physical address of the buffer from `vmm_virt_to_phys`,
which subtracts `hhdm_offset`.  That is right in the direct map only: the heap has its pages
wherever `pmm_alloc_page` found them.

* `Vmm.Linear`, `Vmm.HeapFrames`: what the tables say in the direct map and in the heap;
* `Vmm.Remaps`: what a call of `kmalloc` does to the map;
* `DmaCall`, `Boot.DmaOk`: the calls of a run;
* `nvmeDma_iff`: the buffers for which the two addresses agree.
-/

namespace Bethany

open Machine Relation

/-! ### The map in the two regions -/

/-- The buffer that a call passes. -/
def NvmeCall.buffer : NvmeCall → Option ℕ
  | .read _ _ buffer => some buffer
  | .write _ _ buffer => some buffer
  | .flush => none

/-- The pages of the direct map that the tables of the region map have the frames `hhdm_offset`
below them. -/
def Vmm.Linear (s : Vmm) (top root : ℕ) (keep : ℕ → Bool) : Prop :=
  ∀ x < top, ∀ f, pageMap (s.only root keep) root (pageOf (s.hhdmOffset + x)) = some f →
    f + (s.hhdmOffset + x) % pageSize = x

/-- The pages for the heap that are mapped have frames of the physical memory. -/
def Vmm.HeapFrames (s : Vmm) (top root : ℕ) (keep : ℕ → Bool) : Prop :=
  ∀ k f, k * pageSize < top → pageMap (s.only root keep) root (pageOf (heapPage k)) = some f →
    f + pageSize ≤ top

/-- `s'` is `s` with some pages for the heap mapped anew to frames of the physical memory. -/
structure Vmm.Remaps (s s' : Vmm) (top root : ℕ) (keep : ℕ → Bool) : Prop where
  hhdm : s'.hhdmOffset = s.hhdmOffset
  pages : ∀ page,
    pageMap (s'.only root keep) root page = pageMap (s.only root keep) root page ∨
    ∃ k f, k * pageSize < top ∧ page = pageOf (heapPage k) ∧
      pageMap (s'.only root keep) root page = some f ∧ f + pageSize ≤ top

variable {s s' s'' vmm : Vmm} {h h' : Heap} {b b' : Boot} {c : Nvme}
  {top root n size x k buffer virt phys flags : ℕ} {keep : ℕ → Bool} {r : Bool}

theorem Vmm.Remaps.of_mem (hhhdm : s'.hhdmOffset = s.hhdmOffset) (hmem : s'.mem = s.mem) :
    s.Remaps s' top root keep := by
  refine ⟨hhhdm, fun page => .inl ?_⟩
  unfold pageMap Vmm.only
  rw [hmem]

theorem Vmm.Remaps.trans (h₁ : s.Remaps s' top root keep) (h₂ : s'.Remaps s'' top root keep) :
    s.Remaps s'' top root keep := by
  refine ⟨h₂.hhdm.trans h₁.hhdm, fun page => ?_⟩
  rcases h₂.pages page with hsame | hnew
  · rw [hsame]
    exact h₁.pages page
  · exact .inr hnew

/-- The direct map lies in the upper half of the addresses and ends below the heap. -/
structure Vmm.Below (s : Vmm) (top : ℕ) : Prop where
  upper : 0xFFFF800000000000 ≤ s.hhdmOffset
  below : s.hhdmOffset + top ≤ kernelHeapStart

theorem Vmm.Below.top_le (h : s.Below top) : top ≤ 2 ^ 44 := by
  have hupper := h.upper
  have hbelow := h.below
  unfold kernelHeapStart at hbelow
  omega

/-- No page is in both regions. -/
theorem Vmm.Below.apart (h : s.Below top) (hx : x < top) (hk : k * pageSize < top) :
    pageOf (s.hhdmOffset + x) ≠ pageOf (heapPage k) := by
  have hupper := h.upper
  have hbelow := h.below
  have htop := h.top_le
  unfold heapPage
  rw [pageOf_u64, ne_eq, pageOf_eq_iff]
  unfold kernelHeapStart at hbelow ⊢
  rw [pageSize_eq] at hk ⊢
  omega

theorem Vmm.Linear.remaps (hlinear : s.Linear top root keep) (hbelow : s.Below top)
    (hr : s.Remaps s' top root keep) : s'.Linear top root keep := by
  intro x hx f hf
  rw [hr.hhdm] at hf ⊢
  rcases hr.pages (pageOf (s.hhdmOffset + x)) with hsame | ⟨k, -, hk, hpage, -, -⟩
  · rw [hsame] at hf
    exact hlinear x hx f hf
  · exact absurd hpage (hbelow.apart hx hk)

theorem Vmm.HeapFrames.remaps (hframes : s.HeapFrames top root keep)
    (hr : s.Remaps s' top root keep) : s'.HeapFrames top root keep := by
  intro k f hk hf
  rcases hr.pages (pageOf (heapPage k)) with hsame | ⟨-, g, -, -, hg, hle⟩
  · rw [hsame] at hf
    exact hframes k f hk hf
  · rw [hg] at hf
    exact Option.some.inj hf ▸ hle

/-! ### Growth of the heap -/

theorem hhdm_ensureTable (s : Vmm) (table index : ℕ) :
    (ensureTable s table index).2.hhdmOffset = s.hhdmOffset := by
  have hclear : ∀ (s : Vmm) (table : ℕ), (clearTable s table).hhdmOffset = s.hhdmOffset := by
    intro s table
    unfold clearTable
    induction List.range 512 generalizing s with
    | nil => rfl
    | cons i is ih => exact ih (writeEntry s table i 0)
  simp only [ensureTable]
  split_ifs
  · rfl
  · rfl
  · simp only [writeEntry, hclear]

theorem hhdm_vmmMap (s : Vmm) (virt phys flags : ℕ) :
    (vmmMap s virt phys flags).hhdmOffset = s.hhdmOffset := by
  have hens : (ensureTables s virt).2.hhdmOffset = s.hhdmOffset := by
    simp only [ensureTables]
    split_ifs <;> simp only [hhdm_ensureTable]
  simp only [vmmMap]
  split_ifs
  · exact hens
  · exact hens

/-- A page of growth maps a page of the heap anew. -/
theorem Heap.Inv.remaps_grow (hinv : h.Inv top root keep) (hkeep : HeapRegion top keep)
    (htop : top ≤ 2 ^ 48) (hne : (pmmAllocPage h.vmm.pmm).1 ≠ null) :
    h.vmm.Remaps h.grow.vmm top root keep := by
  have htop64 : top ≤ 2 ^ 64 := htop.trans (by norm_num)
  have hwf : h.vmm.pmm.WF top := hinv.tree.pmm
  have hlen := hinv.grow_length htop64 hne
  have hk : h.grown.length * pageSize < top := by
    rw [pageSize_eq] at hlen ⊢
    omega
  obtain ⟨hdvd, hle⟩ := hwf.free_ok (hwf.alloc_page htop64 hne).1
  have hlt : (pmmAllocPage h.vmm.pmm).1 < 2 ^ 52 := by
    rw [pageSize_eq] at hle
    omega
  have hflags : ∀ i, 12 ≤ i → i < 52 → (pagePresent ||| pageWritable).testBit i = false :=
    fun i hi _ => flags_testBit (by decide) hi
  have hregion : keep (pml4Index h.heapEnd) = true := by
    rw [hinv.heapEnd]
    exact hkeep _ hk
  obtain ⟨-, hmap⟩ := hinv.tree.allocated.vmmMap_entry
    (s := { h.vmm with pmm := (pmmAllocPage h.vmm.pmm).2 }) h.heapEnd
    (pmmAllocPage h.vmm.pmm).1 (pagePresent ||| pageWritable) hregion
  refine ⟨hhdm_vmmMap _ _ _ _, fun page => ?_⟩
  have hpage : pageMap (h.grow.vmm.only root keep) root page = _ := congrFun hmap page
  rw [hpage]
  by_cases hnull : (ensureTables { h.vmm with pmm := (pmmAllocPage h.vmm.pmm).2 }
      h.heapEnd).1 = null
  · rw [if_pos hnull]
    exact .inl rfl
  · rw [if_neg hnull, entryPresent_or (by decide), if_pos rfl, entryAddress_or hdvd hlt hflags]
    by_cases heq : page = pageOf h.heapEnd
    · refine .inr ⟨h.grown.length, _, hk, heq.trans (by rw [hinv.heapEnd]), ?_, hle⟩
      rw [heq, Function.update_self]
    · exact .inl (Function.update_of_ne heq ..)

theorem Heap.Inv.remaps_loop (hinv : h.Inv top root keep) (hkeep : HeapRegion top keep)
    (htop : top ≤ 2 ^ 48) (hloop : kmallocLoop size n h = some (r, h')) :
    h.vmm.Remaps h'.vmm top root keep := by
  induction n generalizing h with
  | zero => exact nomatch hloop
  | succ n ih =>
    unfold kmallocLoop at hloop
    split_ifs at hloop with hfit
    · by_cases hnull : (pmmAllocPage h.vmm.pmm).1 = null
      · rw [heapGrow_full hnull] at hloop
        obtain ⟨-, rfl⟩ := Prod.mk.inj (Option.some.inj hloop)
        exact .of_mem rfl rfl
      · rw [heapGrow_page hnull] at hloop
        exact (hinv.remaps_grow hkeep htop hnull).trans (ih (hinv.grow hkeep htop hnull) hloop)
    · obtain ⟨-, rfl⟩ := Prod.mk.inj (Option.some.inj hloop)
      exact .of_mem rfl rfl

theorem Heap.Inv.remaps_kmalloc {ptr : ℕ} (hinv : h.Inv top root keep)
    (hkeep : HeapRegion top keep) (htop : top ≤ 2 ^ 48)
    (hk : Bethany.kmalloc h size = some (ptr, h')) : h.vmm.Remaps h'.vmm top root keep := by
  unfold Bethany.kmalloc at hk
  split_ifs at hk with hzero
  · obtain ⟨-, rfl⟩ := Prod.mk.inj (Option.some.inj hk)
    exact .of_mem rfl rfl
  obtain ⟨⟨r, h₁⟩, hloop, hresult⟩ := Option.map_eq_some_iff.mp hk
  have hr := hinv.remaps_loop hkeep htop hloop
  cases r with
  | false =>
    obtain ⟨-, rfl⟩ := Prod.mk.inj hresult
    exact hr
  | true =>
    obtain ⟨-, rfl⟩ := Prod.mk.inj hresult
    exact hr

theorem heapInit_remaps (htree : PageTree (vmm.only root keep) top root)
    (hkeep : HeapRegion top keep) (htop : top ≤ 2 ^ 48) :
    vmm.Remaps (heapInit vmm).vmm top root keep := by
  unfold heapInit
  by_cases hnull : (pmmAllocPage vmm.pmm).1 = null
  · rw [heapGrow_full hnull]
    exact .of_mem rfl rfl
  · rw [heapGrow_page hnull]
    exact (Heap.Inv.empty htree).remaps_grow hkeep htop hnull

/-! ### Runs -/

inductive DmaCall
  | kmalloc (size : ℕ)
  | vmmMap (virt phys flags : ℕ)

def Boot.dma (b : Boot) : DmaCall → Option Boot
  | .kmalloc size => b.exec (.kmalloc size)
  | .vmmMap virt phys flags =>
      some { b with heap := { b.heap with vmm := vmmMap b.heap.vmm virt phys flags } }

/-- Blocks end within the address space.  `vmm_map` is called for pages outside the heap, and in
the direct map only for the frame that belongs there. -/
def Boot.DmaOk (top : ℕ) (keep : ℕ → Bool) (b : Boot) : DmaCall → Prop
  | .kmalloc size => size + 15 < 2 ^ 64 ∧ b.heap.heapCurrent + alignUp size 16 < 2 ^ 64
  | .vmmMap virt phys flags => keep (pml4Index virt) = true ∧
      (∀ k, k * pageSize < top → pageOf virt ≠ pageOf (heapPage k)) ∧
      ∀ x < top, pageOf virt = pageOf (b.heap.vmm.hhdmOffset + x) →
        entryPresent (phys ||| flags) = true →
          entryAddress (phys ||| flags) + (b.heap.vmm.hhdmOffset + x) % pageSize = x

/-- One call of a run. -/
def Boot.DmaStep (top : ℕ) (keep : ℕ → Bool) (b b' : Boot) : Prop :=
  ∃ call, b.DmaOk top keep call ∧ b.dma call = some b'

/-- The state of a run. -/
structure Boot.DmaInv (vmm : Vmm) (b : Boot) (top root : ℕ) (keep : ℕ → Bool) : Prop where
  inv : b.Inv top root keep
  mmio : b.mmio = 0
  hhdm : b.heap.vmm.hhdmOffset = vmm.hhdmOffset
  linear : b.heap.vmm.Linear top root keep
  frames : b.heap.vmm.HeapFrames top root keep

/-- The heap does not notice `vmm_map` for a page outside of it. -/
theorem Heap.Inv.vmmMap (hinv : h.Inv top root keep) (hkeep : keep (pml4Index virt) = true)
    (houtside : ∀ k, k * pageSize < top → pageOf virt ≠ pageOf (heapPage k)) :
    Heap.Inv { h with vmm := vmmMap h.vmm virt phys flags } top root keep := by
  obtain ⟨htree, hmap⟩ := hinv.tree.vmmMap_entry virt phys flags hkeep
  have htakes := takes_vmmMap h.vmm virt phys flags
  refine ⟨htree, hinv.start, hinv.heapEnd, hinv.current, hinv.pages, hinv.frames, ?_, ?_⟩
  · intro v f hmem
    obtain ⟨hf, hused⟩ := hinv.held v f hmem
    exact ⟨htakes.usable.symm ▸ hf, fun hfree => hused (htakes.free hfree)⟩
  · intro hstarved v f hmem
    obtain ⟨k, hk, rfl⟩ := (hinv.pages v).mp ⟨f, hmem⟩
    have hlen := hinv.length_le
    have hpage : pageOf virt ≠ pageOf (heapPage k) := by
      refine houtside k ?_
      rw [pageSize_eq] at hlen ⊢
      omega
    refine (congrFun hmap _).trans ?_
    split_ifs
    · exact hinv.mapped hstarved _ f hmem
    all_goals
      rw [Function.update_of_ne hpage.symm]
      exact hinv.mapped hstarved _ f hmem

/-- `vmm_map` outside the heap, and in the direct map only for the right frame. -/
theorem Boot.DmaInv.vmmMap (hinv : b.DmaInv vmm top root keep)
    (hok : b.DmaOk top keep (.vmmMap virt phys flags)) :
    Boot.DmaInv vmm { b with heap := { b.heap with
      vmm := vmmMap b.heap.vmm virt phys flags } } top root keep := by
  obtain ⟨hkeep, houtside, hdirect⟩ := hok
  obtain ⟨-, hmap⟩ := hinv.inv.heap.tree.vmmMap_entry virt phys flags hkeep
  have hhhdm := hhdm_vmmMap b.heap.vmm virt phys flags
  refine ⟨⟨hinv.inv.heap.vmmMap hkeep houtside, hinv.inv.blocks, fun hne => ?_⟩, hinv.mmio,
    hhhdm.trans hinv.hhdm, fun x hx f hf => ?_, fun k f hk hf => ?_⟩
  · exact absurd hinv.mmio hne
  · dsimp only at hf ⊢
    rw [hhhdm] at hf ⊢
    rw [hmap] at hf
    by_cases hpage : pageOf (b.heap.vmm.hhdmOffset + x) = pageOf virt
    · split_ifs at hf with hnull hpres
      · exact hinv.linear x hx f hf
      · rw [hpage, Function.update_self] at hf
        rw [← Option.some.inj hf]
        exact hdirect x hx hpage.symm hpres
      · rw [hpage, Function.update_self] at hf
        cases hf
    · refine hinv.linear x hx f ?_
      split_ifs at hf with hnull hpres
      · exact hf
      all_goals rwa [Function.update_of_ne hpage] at hf
  · dsimp only at hf
    rw [hmap] at hf
    refine hinv.frames k f hk ?_
    split_ifs at hf with hnull hpres
    · exact hf
    all_goals rwa [Function.update_of_ne (houtside k hk).symm] at hf

theorem Boot.DmaInv.start (htree : PageTree (vmm.only root keep) top root)
    (hkeep : HeapRegion top keep) (hbelow : vmm.Below top) (hlinear : vmm.Linear top root keep)
    (hframes : vmm.HeapFrames top root keep) : (Boot.start vmm).DmaInv vmm top root keep := by
  have htop : top ≤ 2 ^ 48 := hbelow.top_le.trans (by norm_num)
  have hr := heapInit_remaps htree hkeep htop
  exact ⟨.start htree hkeep htop, rfl, hr.hhdm, hlinear.remaps hbelow hr, hframes.remaps hr⟩

theorem Boot.DmaInv.step (hinv : b.DmaInv vmm top root keep) (hkeep : HeapRegion top keep)
    (hbelow : vmm.Below top) (hstep : Boot.DmaStep top keep b b') :
    b'.DmaInv vmm top root keep := by
  have htop : top ≤ 2 ^ 48 := hbelow.top_le.trans (by norm_num)
  have hbelow' : b.heap.vmm.Below top := ⟨hinv.hhdm ▸ hbelow.upper, hinv.hhdm ▸ hbelow.below⟩
  obtain ⟨call, hok, hcall⟩ := hstep
  cases call with
  | kmalloc size =>
    obtain ⟨⟨ptr, heap⟩, hk, rfl⟩ := Option.map_eq_some_iff.mp hcall
    have hr := hinv.inv.heap.remaps_kmalloc hkeep htop hk
    exact ⟨hinv.inv.kmalloc hkeep htop ⟨hok.1, hok.2, .inl hinv.mmio⟩ hk, hinv.mmio,
      hr.hhdm.trans hinv.hhdm, hinv.linear.remaps hbelow' hr, hinv.frames.remaps hr⟩
  | vmmMap virt phys flags =>
    obtain rfl := Option.some.inj hcall
    exact hinv.vmmMap hok

/-! ### The two addresses -/

/-- An accepted call gives the controller the address from `vmm_virt_to_phys`. -/
theorem NvmeCall.prp1_eq {call : NvmeCall} {command : NvmeCommand}
    (hcall : call.command s c = some command) (hbuffer : call.buffer = some buffer) :
    command.prp1 = physOf s buffer := by
  have htransfer : ∀ opcode id lba blocks,
      nvmeTransfer opcode id s c lba blocks buffer = some command →
        command.prp1 = physOf s buffer := by
    intro opcode id lba blocks h
    unfold nvmeTransfer at h
    split_ifs at h
    rw [← Option.some.inj h]
  cases call with
  | read lba blocks =>
    obtain rfl := Option.some.inj hbuffer
    exact htransfer _ _ _ _ hcall
  | write lba blocks =>
    obtain rfl := Option.some.inj hbuffer
    exact htransfer _ _ _ _ hcall
  | flush => cases hbuffer

/-- In the direct map the two addresses agree. -/
theorem Boot.DmaInv.direct (hinv : b.DmaInv vmm top root keep) (hbelow : vmm.Below top)
    (hkeep : ∀ x < top, keep (pml4Index (vmm.hhdmOffset + x)) = true) (hx : x < top)
    (hmapped : pageMap (b.heap.vmm.only root keep) root (pageOf (vmm.hhdmOffset + x)) ≠ none) :
    physOf b.heap.vmm (vmm.hhdmOffset + x) = vmmTranslate b.heap.vmm (vmm.hhdmOffset + x) := by
  obtain ⟨f, hf⟩ := Option.ne_none_iff_exists'.mp hmapped
  have hlinear := hinv.linear x hx f
  have htop := hbelow.top_le
  have hupper := hbelow.upper
  have hhigh := hbelow.below
  rw [hinv.hhdm] at hlinear
  rw [hinv.inv.heap.tree.vmmTranslate_region _ (hkeep x hx), PageMap.translate, hf]
  show physOf b.heap.vmm (vmm.hhdmOffset + x) = f + (vmm.hhdmOffset + x) % pageSize
  rw [hlinear hf, physOf, hinv.hhdm, u64]
  unfold kernelHeapStart at hhigh
  omega

/-- In the heap they do not. -/
theorem Boot.DmaInv.block (hinv : b.DmaInv vmm top root keep) (hbelow : vmm.Below top)
    (hkeep : HeapRegion top keep) {ptr : ℕ} (hmem : (ptr, size) ∈ b.blocks) (hlo : ptr ≤ buffer)
    (hhi : buffer < ptr + size)
    (hmapped : pageMap (b.heap.vmm.only root keep) root (pageOf buffer) ≠ none) :
    ¬ buffer < vmm.hhdmOffset + top ∧
      physOf b.heap.vmm buffer ≠ vmmTranslate b.heap.vmm buffer := by
  obtain ⟨f, hf⟩ := Option.ne_none_iff_exists'.mp hmapped
  obtain ⟨hstart, hend, hgrown⟩ := hinv.inv.blocks ptr size hmem
  have hlen := hinv.inv.heap.length_le
  have hupper := hbelow.upper
  have hhigh := hbelow.below
  obtain ⟨y, rfl⟩ := Nat.exists_eq_add_of_le (hstart.trans hlo)
  have hkeep' : keep (pml4Index (kernelHeapStart + y)) = true := by
    have := hkeep y (by omega)
    rwa [u64_of_lt (by omega)] at this
  have hpage : pageOf (kernelHeapStart + y) = pageOf (heapPage (y / pageSize)) := by
    unfold heapPage
    rw [pageOf_u64, pageOf_eq_iff, pageSize_eq, kernelHeapStart]
    omega
  have hframe : f + pageSize ≤ top := by
    refine hinv.frames (y / pageSize) f ?_ (hpage ▸ hf)
    exact lt_of_le_of_lt (Nat.div_mul_le_self y pageSize) (by omega)
  refine ⟨by omega, ?_⟩
  rw [hinv.inv.heap.tree.vmmTranslate_region _ hkeep', PageMap.translate, hf]
  show physOf b.heap.vmm (kernelHeapStart + y) ≠ f + (kernelHeapStart + y) % pageSize
  rw [physOf, hinv.hhdm, u64]
  rw [pageSize_eq] at hframe ⊢
  omega

/-- **The address for the controller** is that of the page tables exactly for buffers in the
direct map.  The tables of the direct map are 4 KiB tables that map it to the physical memory,
the direct map ends below the heap, and `vmm_map` is called outside the heap and respects the
direct map. -/
theorem nvmeDma_iff (htree : PageTree (vmm.only root keep) top root)
    (hkeep : HeapRegion top keep)
    (hdirect : ∀ x < top, keep (pml4Index (vmm.hhdmOffset + x)) = true) (hbelow : vmm.Below top)
    (hlinear : vmm.Linear top root keep) (hframes : vmm.HeapFrames top root keep)
    (hrun : ReflTransGen (Boot.DmaStep top keep) (.start vmm) b) {call : NvmeCall}
    {command : NvmeCommand} (hcall : call.command b.heap.vmm c = some command)
    (hbuffer : call.buffer = some buffer)
    (hmapped : pageMap (b.heap.vmm.only root keep) root (pageOf buffer) ≠ none)
    (hregion : (∃ x < top, buffer = vmm.hhdmOffset + x) ∨
      ∃ ptr size, (ptr, size) ∈ b.blocks ∧ ptr ≤ buffer ∧ buffer < ptr + size) :
    command.prp1 = vmmTranslate b.heap.vmm buffer ↔ buffer < vmm.hhdmOffset + top := by
  have hinv : b.DmaInv vmm top root keep := by
    clear hcall hmapped hregion
    induction hrun with
    | refl => exact .start htree hkeep hbelow hlinear hframes
    | tail _ hstep ih => exact ih.step hkeep hbelow hstep
  rw [NvmeCall.prp1_eq hcall hbuffer]
  rcases hregion with ⟨x, hx, rfl⟩ | ⟨ptr, size, hmem, hlo, hhi⟩
  · refine iff_of_true (hinv.direct hbelow hdirect hx hmapped) ?_
    omega
  · obtain ⟨hout, hne⟩ := hinv.block hbelow hkeep hmem hlo hhi hmapped
    exact iff_of_false hne hout

/-- In `bootVmm` nothing is mapped. -/
theorem bootVmm_unmapped (page : Page) :
    pageMap (bootVmm.only 0x1000 fun _ => true) 0x1000 page = none := by
  have h₁ := exampleVmm_tree.add_table (p := []) (i := 288) (by simp) rfl (by decide) (by decide)
  have h₂ := h₁.1.add_table (p := [288]) (t := 0x2000) (i := 0) (by simp) (by decide) (by decide)
    (by decide)
  have h₃ := h₂.1.add_table (p := [288, 0]) (t := 0x3000) (i := 0) (by simp) (by decide)
    (by decide) (by decide)
  have hne : ∀ p : List (Fin 512), p.length ≤ 3 → pathOf page ≠ p := by
    rintro p hp rfl
    rw [length_pathOf] at hp
    omega
  have hempty : ∀ i, childOf exampleVmm.mem 0x1000 i = none := by
    simp [childOf, load, exampleVmm, entryPresent]
  rw [Vmm.only_all]
  refine (h₃.2 (pathOf page) (by simp)).trans ?_
  rw [if_neg (hne _ (by simp))]
  refine (h₂.2 (pathOf page) (by simp)).trans ?_
  rw [if_neg (hne _ (by simp))]
  refine (h₁.2 (pathOf page) (by simp)).trans ?_
  rw [if_neg (hne _ (by simp))]
  rw [pathOf, Walk.walk_cons, hempty, Option.bind_none]

/-- The kernel after `vmm_map` of the page at `0x8000` in the direct map, and `kmalloc(16)`. -/
def dmaBoot : Boot :=
  (((Boot.start bootVmm).dma (.vmmMap 0xFFFF800000008000 0x8000 3)).bind
    fun b => b.dma (.kmalloc 16)).get (by decide +kernel)

/-- A controller with blocks of 512 bytes. -/
def dmaNvme : Nvme where
  doorbellStride := 0
  blockSize := 512
  ioSq := fun _ => {}
  ioCq := fun _ => {}
  ioSqTail := 0
  ioCqHead := 0
  ioQueueSize := 64
  registers := fun _ => 0

theorem dmaBoot_run :
    ReflTransGen (Boot.DmaStep 0xa000 fun _ => true) (.start bootVmm) dmaBoot := by
  obtain ⟨b₁, h₁, h₂⟩ := Option.bind_eq_some_iff.mp (Option.some_get (by decide +kernel :
    (((Boot.start bootVmm).dma (.vmmMap 0xFFFF800000008000 0x8000 3)).bind
      fun b => b.dma (.kmalloc 16)).isSome = true)).symm
  have hmap : (Boot.start bootVmm).DmaOk 0xa000 (fun _ => true)
      (.vmmMap 0xFFFF800000008000 0x8000 3) := by
    refine ⟨rfl, fun k hk => ?_, fun x hx hpage _ => ?_⟩
    · unfold heapPage
      rw [pageOf_u64, ne_eq, pageOf_eq_iff, kernelHeapStart]
      rw [pageSize_eq] at hk ⊢
      omega
    · have hentry : entryAddress (0x8000 ||| 3) = 0x8000 := by decide
      have hhhdm : (Boot.start bootVmm).heap.vmm.hhdmOffset = 0xFFFF800000000000 := by decide
      rw [hhhdm, pageOf_eq_iff] at hpage
      rw [hentry, hhhdm]
      rw [pageSize_eq] at hpage ⊢
      omega
  refine .tail (.single ⟨_, hmap, h₁⟩) ⟨.kmalloc 16, ?_, h₂⟩
  obtain rfl := Option.some.inj h₁
  exact ⟨by decide, by decide +kernel⟩

theorem nvmeDma_iff_example :
    (∃ command, NvmeCall.command dmaBoot.heap.vmm dmaNvme (.read 0 1 0xFFFF800000008000) =
        some command ∧ command.prp1 = vmmTranslate dmaBoot.heap.vmm 0xFFFF800000008000) ∧
      ∃ command, NvmeCall.command dmaBoot.heap.vmm dmaNvme (.read 0 1 kernelHeapStart) =
        some command ∧ command.prp1 ≠ vmmTranslate dmaBoot.heap.vmm kernelHeapStart := by
  have hlinear : bootVmm.Linear 0xa000 0x1000 fun _ => true := by
    intro x _ f hf
    rw [bootVmm_unmapped] at hf
    cases hf
  have hframes : bootVmm.HeapFrames 0xa000 0x1000 fun _ => true := by
    intro k f _ hf
    rw [bootVmm_unmapped] at hf
    cases hf
  have hbelow : bootVmm.Below 0xa000 := ⟨by decide, by decide⟩
  constructor
  · obtain ⟨command, hcall⟩ : ∃ command, NvmeCall.command dmaBoot.heap.vmm dmaNvme
      (.read 0 1 0xFFFF800000008000) = some command := ⟨_, rfl⟩
    refine ⟨command, hcall, (nvmeDma_iff bootVmm_tree (fun _ _ => rfl) (fun _ _ => rfl) hbelow
      hlinear hframes dmaBoot_run hcall rfl ?_ (.inl ⟨0x8000, by decide, rfl⟩)).mpr (by decide)⟩
    decide +kernel
  · obtain ⟨command, hcall⟩ : ∃ command, NvmeCall.command dmaBoot.heap.vmm dmaNvme
      (.read 0 1 kernelHeapStart) = some command := ⟨_, rfl⟩
    have hblock : (kernelHeapStart, 16) ∈ dmaBoot.blocks := by decide +kernel
    refine ⟨command, hcall, fun heq => ?_⟩
    have hlt := (nvmeDma_iff bootVmm_tree (fun _ _ => rfl) (fun _ _ => rfl) hbelow hlinear hframes
      dmaBoot_run hcall rfl (by decide +kernel)
      (.inr ⟨kernelHeapStart, 16, hblock, le_rfl, by decide⟩)).mp heq
    exact absurd hlt (by decide)

/-- The block that `kmalloc` returns first is at `0x5000`, and not where the controller is told. -/
theorem nvmeDma_heap :
    oneBlock.blocks = [(kernelHeapStart, 16)] ∧
      vmmTranslate oneBlock.heap.vmm kernelHeapStart = 0x5000 ∧
      ∃ command, NvmeCall.command oneBlock.heap.vmm dmaNvme (.read 0 1 kernelHeapStart) =
        some command ∧ command.prp1 = 0x100000000000 :=
  ⟨by decide, by decide, _, rfl, by decide⟩

end Bethany
