import Bethany.Memory.HeapMemory
import Bethany.Memory.Krealloc
import Bethany.Library.BlockStore

/-!
# The heap as a store of blocks

`kmalloc`, `kcalloc` and `krealloc` return blocks, and the kernel writes to them.  Each block is a
piece of memory of its own.

* the source: `kfree`, `kcallocLoop`, `kcalloc`, which writes through the page tables;
  `kcalloc_area` connects it to `HeapArea.kcalloc`;
* `HeapStore`, `HeapStore.exec`: the heap, under all calls of `heap.c` and the writes of the kernel
  to its blocks; there is no result where there is a page fault;
* `StoreCall.Does`: what they do to a store of blocks, which has neither addresses nor pages;
* `HeapStore.Inv.exec`: one call;
* `heap_store`: the heap is that store, as long as no page of growth is short of page tables.
-/

namespace Bethany

open Machine BlockStore

/-! ### The source -/

/-- `kfree` -/
def kfree (h : Heap) (_ptr : ℕ) : Heap := h

/-- The loop of `kcalloc`, for the first `n` bytes. -/
def kcallocLoop (ptr : ℕ) : ℕ → Vmm → Option Vmm
  | 0, s => some s
  | n + 1, s => (kcallocLoop ptr n s).bind fun s => s.write (u64 (ptr + n)) 0

/-- `kcalloc` -/
def kcalloc (h : Heap) (count size : ℕ) : Option (ℕ × Heap) :=
  let total := u64 (count * size)
  (kmalloc h total).bind fun
    | (ptr, h) =>
      if ptr = null then some (null, h)
      else (kcallocLoop ptr total h.vmm).map fun vmm => (ptr, { h with vmm := vmm })

/-- The pointers that `kcalloc` leaves over the page tables. -/
theorem kcalloc_area {h h' : Heap} {count size ptr : ℕ}
    (hk : kcalloc h count size = some (ptr, h')) :
    ∃ answers, ∀ pages mem, ∃ mem',
      h.area.kcalloc (answers ++ pages) mem count size = (ptr, h'.area, pages, mem') := by
  obtain ⟨⟨ptr', h₁⟩, hkmalloc, hresult⟩ := Option.bind_eq_some_iff.mp hk
  obtain ⟨answers, hsame⟩ := kmalloc_area hkmalloc
  refine ⟨answers, fun pages mem => ?_⟩
  simp only [HeapArea.kcalloc, hsame]
  dsimp only at hresult
  split_ifs at hresult with hnull
  · obtain ⟨rfl, rfl⟩ := Prod.mk.inj (Option.some.inj hresult)
    exact ⟨mem, if_pos hnull⟩
  · obtain ⟨vmm, -, heq⟩ := Option.map_eq_some_iff.mp hresult
    obtain ⟨rfl, rfl⟩ := Prod.mk.inj heq
    exact ⟨_, if_neg hnull⟩

/-! ### Runs -/

/-- The heap, and the blocks it has returned: the address of each with its size. -/
structure HeapStore where
  heap : Heap
  blocks : List (ℕ × ℕ)

/-- A call of `heap.c`, or a write of `x` to byte `i` of the block `k`, where 0 is the newest. -/
inductive StoreCall
  | kmalloc (size : ℕ)
  | kcalloc (count size : ℕ)
  | krealloc (ptr size : ℕ)
  | kfree (ptr : ℕ)
  | write (k i : ℕ) (x : Byte)

/-- The heap after a call has returned `ptr`. -/
def HeapStore.returned (s : HeapStore) (size : ℕ) : ℕ × Heap → HeapStore
  | (ptr, heap) => ⟨heap, if ptr = null then s.blocks else (ptr, size) :: s.blocks⟩

/-- What a call does. -/
def HeapStore.exec (s : HeapStore) : StoreCall → Option HeapStore
  | .kmalloc size => (kmalloc s.heap size).map (s.returned size)
  | .kcalloc count size => (kcalloc s.heap count size).map (s.returned (u64 (count * size)))
  | .krealloc ptr size => (krealloc s.heap ptr size).map (s.returned size)
  | .kfree ptr => some { s with heap := kfree s.heap ptr }
  | .write k i x => s.blocks[k]?.bind fun block =>
      (s.heap.vmm.write (block.1 + i) x).map fun vmm =>
        { s with heap := { s.heap with vmm := vmm } }

/-- The heap after `heap_init`. -/
def HeapStore.start (vmm : Vmm) : HeapStore := ⟨heapInit vmm, []⟩

/-- The size that a call asks `kmalloc` for. -/
def StoreCall.size : StoreCall → ℕ
  | .kmalloc size => size
  | .kcalloc count size => u64 (count * size)
  | .krealloc _ size => size
  | .kfree _ => 0
  | .write .. => 0

/-- A block that is asked for ends within the address space, and no page of growth is short of
page tables; a write is to a byte of a block. -/
def HeapStore.Legal (s : HeapStore) : StoreCall → Prop
  | .write k i _ => ∃ block, s.blocks[k]? = some block ∧ i < block.2
  | c => c.size + 15 < 2 ^ 64 ∧ s.heap.heapCurrent + alignUp c.size 16 < 2 ^ 64 ∧
      s.heap.CallFed c.size

/-- All calls of a run are legal. -/
def HeapStore.LegalRun : HeapStore → List StoreCall → Prop
  | _, [] => True
  | s, c :: calls => s.Legal c ∧ ∀ s', s.exec c = some s' → s'.LegalRun calls

/-- A new block, unless it is refused. -/
def NewBlock (refused : Prop) (new : List Byte → Prop) (blocks blocks' : List (List Byte)) : Prop :=
  refused ∧ blocks' = blocks ∨ ¬ refused ∧ ∃ xs, new xs ∧ blocks' = xs :: blocks

/-- What a call does to a store of blocks, which may have to refuse a block.  A new block has any
bytes, but those of `kcalloc` are zero. -/
def StoreCall.Does (refused : Prop) : StoreCall → List (List Byte) → List (List Byte) → Prop
  | .kmalloc size => NewBlock refused fun xs => xs.length = size
  | .kcalloc count size => NewBlock refused fun xs => xs = List.replicate (u64 (count * size)) 0
  | .krealloc _ size => NewBlock refused fun xs => xs.length = size
  | .kfree _ => fun blocks blocks' => blocks' = blocks
  | .write k i x => fun blocks blocks' => blocks' = blocks.modify k fun xs => xs.set i x

/-- The calls return, and do to the heap and to a store what they should. -/
def DoesAll : List StoreCall → HeapStore → List (List Byte) → HeapStore → List (List Byte) → Prop
  | [], s, blocks, s', blocks' => s' = s ∧ blocks' = blocks
  | c :: calls, s, blocks, s', blocks' => ∃ s₁ between, s.exec c = some s₁ ∧
      c.Does (s.heap.Refuses c.size) blocks between ∧ DoesAll calls s₁ between s' blocks'

/-- The heap shows a store of blocks. -/
structure HeapStore.Inv (s : HeapStore) (top root : ℕ) (keep : ℕ → Bool)
    (blocks : List (List Byte)) : Prop where
  heap : s.heap.Sound top root keep
  current : s.heap.heapCurrent < 2 ^ 64
  places : ∀ p ∈ s.blocks, kernelHeapStart ≤ p.1 ∧ p.1 + p.2 ≤ s.heap.heapCurrent
  placed : Placed s.heap.vmm.view s.blocks blocks

variable {s s' : HeapStore} {vmm : Vmm} {h h' : Heap} {top root ptr size count n k i : ℕ}
  {keep : ℕ → Bool} {blocks blocks' : List (List Byte)} {c : StoreCall} {x : Byte}

/-- All that `krealloc` does is `kmalloc`. -/
theorem krealloc_eq_kmalloc (h : Heap) (ptr size : ℕ) : krealloc h ptr size = kmalloc h size := by
  unfold krealloc
  split_ifs with hptr hsize
  · rfl
  · rw [kmalloc, if_pos hsize]
  · refine (congrArg₂ Option.map (funext fun r => ?_) rfl).trans Option.map_id'
    obtain ⟨newPtr, h'⟩ := r
    dsimp only
    split_ifs with hnull
    · rw [hnull]
    · rfl

/-- The loop of `kcalloc` writes `n` zeros to bytes of the heap. -/
theorem Heap.Sound.kcallocLoop (hs : h.Sound top root keep) (hkeep : HeapRegion top keep)
    (hhas : ∀ i < n, h.Has (ptr + i)) :
    ∃ vmm, kcallocLoop ptr n h.vmm = some vmm ∧ Heap.Sound { h with vmm := vmm } top root keep ∧
      ∀ a, h.Has a → vmm.view a = if ptr ≤ a ∧ a < ptr + n then 0 else h.vmm.view a := by
  induction n with
  | zero => exact ⟨h.vmm, rfl, hs, fun a _ => (if_neg (by omega)).symm⟩
  | succ n ih =>
    obtain ⟨vmm, hloop, hsound, hview⟩ := ih fun i hi => hhas i (Nat.lt_succ_of_lt hi)
    have hn := hhas n (Nat.lt_succ_self n)
    obtain ⟨vmm', hwrite, hsound', hview'⟩ := hsound.write hkeep hn 0
    refine ⟨vmm', ?_, hsound', fun a ha => ?_⟩
    · rw [Bethany.kcallocLoop, hloop, Option.bind_some, u64_of_lt hn.2.1]
      exact hwrite
    · rw [hview' a ha, Function.update_apply]
      dsimp only
      rw [hview a ha]
      split_ifs with heq hin hin' hin'
      · rfl
      · omega
      · rfl
      · omega
      · omega
      · rfl

/-! ### One call -/

namespace HeapStore.Inv

/-- The heap has the bytes of the blocks. -/
theorem has (hinv : s.Inv top root keep blocks) {p : ℕ × ℕ} (hp : p ∈ s.blocks) (hi : i < p.2) :
    s.heap.Has (p.1 + i) := by
  obtain ⟨hlo, hhi⟩ := hinv.places p hp
  have hcurrent := hinv.current
  have hend := hinv.heap.inv.current.2
  exact ⟨by omega, by omega, by omega⟩

/-- A call of `kmalloc` returns a block above all others, unless it is refused. -/
theorem kmalloc (hinv : s.Inv top root keep blocks) (hkeep : HeapRegion top keep)
    (htop : top ≤ 2 ^ 48) (hsize : size + 15 < 2 ^ 64)
    (hend : s.heap.heapCurrent + alignUp size 16 < 2 ^ 64) (hfed : s.heap.CallFed size) :
    ∃ ptr h', kmalloc s.heap size = some (ptr, h') ∧ h'.Sound top root keep ∧
      h'.heapCurrent < 2 ^ 64 ∧ Placed h'.vmm.view s.blocks blocks ∧
      (ptr = null ∧ s.heap.Refuses size ∧
          (∀ p ∈ s.blocks, kernelHeapStart ≤ p.1 ∧ p.1 + p.2 ≤ h'.heapCurrent) ∨
        ptr ≠ null ∧ ¬ s.heap.Refuses size ∧ (∀ p ∈ s.blocks, p.1 + p.2 ≤ ptr) ∧
          (∀ i < size, h'.Has (ptr + i)) ∧
          ∀ p ∈ (ptr, size) :: s.blocks,
            kernelHeapStart ≤ p.1 ∧ p.1 + p.2 ≤ h'.heapCurrent) := by
  have hwf : s.heap.vmm.pmm.WF top := hinv.heap.inv.tree.pmm
  obtain ⟨⟨ptr, h'⟩, hk⟩ :=
    Option.isSome_iff_exists.mp (kmalloc_returns hwf (htop.trans (by norm_num)) size)
  have hrefuses := hinv.heap.refuses_iff hkeep htop hk
  obtain ⟨hsound, hext, hcases⟩ := hinv.heap.kmalloc hkeep htop hsize hend hfed hk
  have hplaced : Placed h'.vmm.view s.blocks blocks :=
    hinv.placed.congr fun p hp i hi => hext.view _ (hinv.has hp hi)
  refine ⟨ptr, h', hk, hsound, ?_, hplaced, ?_⟩
  · rcases hcases with ⟨-, hcurrent⟩ | ⟨-, -, hcurrent, -⟩
    · rw [hcurrent]
      exact hinv.current
    · rw [hcurrent]
      exact hend
  · rcases hcases with ⟨hnull, hcurrent⟩ | ⟨hne, hptr, hcurrent, hhas⟩
    · refine .inl ⟨hnull, hrefuses.mp hnull, fun p hp => ?_⟩
      rw [hcurrent]
      exact hinv.places p hp
    · refine .inr ⟨hne, fun h => hne (hrefuses.mpr h), fun p hp => ?_, hhas, fun p hp => ?_⟩
      · rw [hptr]
        exact (hinv.places p hp).2
      · have hle := le_alignUp hsize
        rw [hcurrent]
        rcases List.mem_cons.mp hp with rfl | hold
        · have hlo := hinv.heap.inv.current.1
          exact ⟨by omega, by omega⟩
        · obtain ⟨hlo, hhi⟩ := hinv.places p hold
          exact ⟨hlo, by omega⟩

/-- A call of `kmalloc` adds a block with the bytes that are there. -/
theorem exec_kmalloc (hinv : s.Inv top root keep blocks) (hkeep : HeapRegion top keep)
    (htop : top ≤ 2 ^ 48) (hlegal : s.Legal (.kmalloc size)) :
    ∃ s' blocks', s.exec (.kmalloc size) = some s' ∧
      (StoreCall.kmalloc size).Does (s.heap.Refuses size) blocks blocks' ∧
      s'.Inv top root keep blocks' := by
  obtain ⟨hsize, hend, hfed⟩ := hlegal
  simp only [StoreCall.size] at hsize hend hfed
  obtain ⟨ptr, h', hk, hsound, hcurrent, hplaced, hcases⟩ :=
    hinv.kmalloc hkeep htop hsize hend hfed
  rw [exec, hk]
  rcases hcases with ⟨rfl, hrefused, hplaces⟩ | ⟨hne, hgiven, habove, -, hplaces⟩
  · exact ⟨_, blocks, rfl, .inl ⟨hrefused, rfl⟩, hsound, hcurrent, hplaces, hplaced⟩
  · have hcells := at_cells h'.vmm.view (ptr, size)
    refine ⟨_, _ :: blocks, rfl, .inr ⟨hgiven, _, hcells.1, rfl⟩, ?_⟩
    rw [returned, if_neg hne]
    exact ⟨hsound, hcurrent, hplaces, hplaced.push habove hcells⟩

/-- A call of `kcalloc` adds a block of zeros. -/
theorem exec_kcalloc (hinv : s.Inv top root keep blocks) (hkeep : HeapRegion top keep)
    (htop : top ≤ 2 ^ 48) (hlegal : s.Legal (.kcalloc count size)) :
    ∃ s' blocks', s.exec (.kcalloc count size) = some s' ∧
      (StoreCall.kcalloc count size).Does (s.heap.Refuses (u64 (count * size))) blocks blocks' ∧
      s'.Inv top root keep blocks' := by
  obtain ⟨hsize, hend, hfed⟩ := hlegal
  simp only [StoreCall.size] at hsize hend hfed
  simp only [exec, kcalloc, StoreCall.Does]
  generalize u64 (count * size) = total at hsize hend hfed ⊢
  obtain ⟨ptr, h', hk, hsound, hcurrent, hplaced, hcases⟩ :=
    hinv.kmalloc hkeep htop hsize hend hfed
  rw [hk]
  rcases hcases with ⟨rfl, hrefused, hplaces⟩ | ⟨hne, hgiven, habove, hhas, hplaces⟩
  · exact ⟨_, blocks, rfl, .inl ⟨hrefused, rfl⟩, hsound, hcurrent, hplaces, hplaced⟩
  · obtain ⟨vmm, hloop, hsound', hview⟩ := hsound.kcallocLoop hkeep hhas
    simp only [Option.bind_some, if_neg hne, hloop, Option.map_some]
    refine ⟨_, _ :: blocks, rfl, .inr ⟨hgiven, _, rfl, rfl⟩, ?_⟩
    rw [returned, if_neg hne]
    -- the bytes of the heap after `kmalloc`, of which those of the new block are zero now
    have hkept : ∀ p ∈ s.blocks, ∀ i < p.2, h'.Has (p.1 + i) := fun p hp i hi => by
      obtain ⟨hlo, hhi⟩ := hplaces p (List.mem_cons_of_mem _ hp)
      have hgrown := hsound.inv.current.2
      exact ⟨by omega, by omega, by omega⟩
    refine ⟨hsound', hcurrent, hplaces, Placed.push ?_ habove ?_⟩
    · refine hplaced.congr fun p hp i hi => ?_
      have hbelow := habove p hp
      exact (hview _ (hkept p hp i hi)).trans (if_neg (by omega))
    · refine ⟨List.length_replicate, fun i x hx => ?_⟩
      obtain ⟨hi, rfl⟩ := List.getElem?_eq_some_iff.mp hx
      rw [List.length_replicate] at hi
      dsimp only
      rw [hview _ (hhas i hi), if_pos (by omega), List.getElem_replicate]

/-- A write changes a byte of one block. -/
theorem exec_write (hinv : s.Inv top root keep blocks) (hkeep : HeapRegion top keep)
    (hlegal : s.Legal (.write k i x)) :
    ∃ s' blocks', s.exec (.write k i x) = some s' ∧
      (StoreCall.write k i x).Does (s.heap.Refuses 0) blocks blocks' ∧
      s'.Inv top root keep blocks' := by
  obtain ⟨block, hblock, hi⟩ := hlegal
  have hmem := List.mem_of_getElem? hblock
  obtain ⟨vmm, hwrite, hsound, hview⟩ := hinv.heap.write hkeep (hinv.has hmem hi) x
  refine ⟨{ s with heap := { s.heap with vmm := vmm } }, _, ?_, rfl, hsound, hinv.current,
    hinv.places, ?_⟩
  · rw [exec, hblock, Option.bind_some, hwrite, Option.map_some]
  · refine (hinv.placed.set hblock hi).congr fun p hp j hj => ?_
    exact hview _ (hinv.has hp hj)

/-- **One call** does to the heap what it does to the store. -/
theorem exec (hinv : s.Inv top root keep blocks) (hkeep : HeapRegion top keep)
    (htop : top ≤ 2 ^ 48) (hlegal : s.Legal c) :
    ∃ s' blocks', s.exec c = some s' ∧ c.Does (s.heap.Refuses c.size) blocks blocks' ∧
      s'.Inv top root keep blocks' := by
  cases c with
  | kmalloc size => exact hinv.exec_kmalloc hkeep htop hlegal
  | kcalloc count size => exact hinv.exec_kcalloc hkeep htop hlegal
  | krealloc ptr size =>
    rw [HeapStore.exec, krealloc_eq_kmalloc]
    exact hinv.exec_kmalloc hkeep htop hlegal
  | kfree ptr => exact ⟨_, blocks, rfl, rfl, hinv⟩
  | write k i x => exact hinv.exec_write hkeep hlegal

/-! ### Runs -/

theorem run {calls : List StoreCall} (hinv : s.Inv top root keep blocks)
    (hkeep : HeapRegion top keep) (htop : top ≤ 2 ^ 48) (hlegal : s.LegalRun calls) :
    ∃ s' blocks', DoesAll calls s blocks s' blocks' ∧ s'.Inv top root keep blocks' := by
  induction calls generalizing s blocks with
  | nil => exact ⟨s, blocks, ⟨rfl, rfl⟩, hinv⟩
  | cons c calls ih =>
    obtain ⟨hfirst, hrest⟩ := hlegal
    obtain ⟨s₁, between, hexec, hdoes, hinv₁⟩ := hinv.exec hkeep htop hfirst
    obtain ⟨s', blocks', hall, hlast⟩ := ih hinv₁ (hrest s₁ hexec)
    exact ⟨s', blocks', ⟨s₁, between, hexec, hdoes, hall⟩, hlast⟩

/-- The heap after `heap_init` has no blocks. -/
theorem start (htree : PageTree (vmm.only root keep) top root) (hkeep : HeapRegion top keep)
    (htop : top ≤ 2 ^ 48) (hnull : ¬ vmm.pmm.Free null) (hfed : (Heap.fresh vmm).Fed) :
    (HeapStore.start vmm).Inv top root keep [] := by
  have hcurrent : (heapInit vmm).heapCurrent = kernelHeapStart := by
    unfold heapInit
    by_cases hpage : (pmmAllocPage vmm.pmm).1 = null
    · rw [heapGrow_full hpage]
    · rw [heapGrow_page hpage]
      rfl
  refine ⟨.init htree hkeep htop hnull hfed, ?_, by simp [HeapStore.start], Placed.nil _⟩
  show (heapInit vmm).heapCurrent < 2 ^ 64
  rw [hcurrent]
  decide

end HeapStore.Inv

/-- **The heap is a store of blocks.**  The tables for the region of the heap form a tree, and no
page of growth is short of page tables.  Then in every run of the calls of `heap.c` and of writes
to its blocks no call faults, and a block is refused exactly if it is empty or no page is left
before the heap gets to its end.  Each block has its bytes, read through the page tables: those of
the last writes to it, zeros at first if it is from `kcalloc`, whatever was called or written to
elsewhere in between. -/
theorem heap_store (htree : PageTree (vmm.only root keep) top root) (hkeep : HeapRegion top keep)
    (hhhdm : 0xFFFF800000000000 ≤ vmm.hhdmOffset) (hnull : ¬ vmm.pmm.Free null)
    (hfed : (Heap.fresh vmm).Fed) (calls : List StoreCall)
    (hlegal : (HeapStore.start vmm).LegalRun calls) :
    ∃ (s : HeapStore) (blocks : List (List Byte)),
      DoesAll calls (.start vmm) [] s blocks ∧ blocks.length = s.blocks.length ∧
        ∀ (k ptr size : ℕ) (xs : List Byte), s.blocks[k]? = some (ptr, size) →
          blocks[k]? = some xs → ∀ i < size, s.heap.vmm.read (ptr + i) = xs[i]? := by
  have htop : top ≤ 2 ^ 48 := by
    have := htree.directMap.fits
    rw [Vmm.only_hhdmOffset] at this
    omega
  have hstart := HeapStore.Inv.start htree hkeep htop hnull hfed
  obtain ⟨s, blocks, hall, hinv⟩ := hstart.run hkeep htop hlegal
  refine ⟨s, blocks, hall, hinv.placed.at_place.length_eq.symm, fun k ptr size xs hk hxs i hi => ?_⟩
  have hmapped := hinv.heap.mapped hkeep (hinv.has (List.mem_of_getElem? hk) hi)
  rw [Vmm.read, if_pos hmapped]
  exact (hinv.placed.read hk hxs hi).symm

/-- The heap of `bootVmm` after `kcalloc(2, 8)`, after `kmalloc(5000)`, and after a write to the
older one of the blocks. -/
def zeroBlock : HeapStore := ((HeapStore.start bootVmm).exec (.kcalloc 2 8)).get (by decide)

def largeBlock : HeapStore := (zeroBlock.exec (.kmalloc 5000)).get (by decide)

def writtenBlock : HeapStore := (largeBlock.exec (.write 1 3 7)).get (by decide)

/-- A block of zeros and one that the heap grows for; the older one gets a byte; and a block for
which the heap takes all pages that are left, which are too few. -/
theorem heap_store_example :
    ∃ (s : HeapStore) (blocks : List (List Byte)),
      DoesAll [.kcalloc 2 8, .kmalloc 5000, .write 1 3 7, .kmalloc 100000] (.start bootVmm) [] s
          blocks ∧
        blocks.length = s.blocks.length ∧
        ∀ (k ptr size : ℕ) (xs : List Byte), s.blocks[k]? = some (ptr, size) →
          blocks[k]? = some xs → ∀ i < size, s.heap.vmm.read (ptr + i) = xs[i]? := by
  have hnull : ¬ bootVmm.pmm.Free null := takenVmm_notNull 3
  have hnext : ∀ {s s' : HeapStore} {c : StoreCall} (hexec : (s.exec c).isSome),
      s.exec c = some s' → (s.exec c).get hexec = s' := fun hexec h =>
    Option.some.inj ((Option.some_get hexec).trans h)
  refine heap_store bootVmm_tree (fun _ _ => rfl) (by decide) hnull (by decide) _ ?_
  refine ⟨⟨by decide, by decide, by decide⟩, fun s hs => ?_⟩
  obtain rfl : zeroBlock = s := hnext _ hs
  refine ⟨⟨by decide, by decide, by decide⟩, fun s hs => ?_⟩
  obtain rfl : largeBlock = s := hnext _ hs
  refine ⟨⟨(kernelHeapStart, 16), by decide, by decide⟩, fun s hs => ?_⟩
  obtain rfl : writtenBlock = s := hnext _ hs
  exact ⟨⟨by decide, by decide, by decide⟩, fun _ _ => trivial⟩

end Bethany
