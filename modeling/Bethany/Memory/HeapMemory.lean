import Bethany.Memory.FrameOwnership
import Bethany.Memory.MapWindow

/-!
# The memory behind the heap

A byte of the heap is a byte of the frame that its page got.  The heap grows without writing to
its frames, and what is written to them changes no page table.

* `Vmm.read`, `Vmm.write`: one byte at a virtual address, through the page tables;
* `PageTree.vmmMap_mem`: `vmm_map` writes to page tables and to free frames only;
* `Heap.Sound`: the heap, with every page mapped to a frame that is no page table;
* `Heap.Sound.grow`, `Heap.Sound.kmalloc`: growing keeps the bytes of the heap;
* `Heap.Sound.write`: a byte of the heap can be written to, and no other byte of it changes;
* `Heap.Refuses`, `Heap.Sound.refuses_iff`: the requests for which there is no block.
-/

namespace Bethany

open Machine Walk

variable {s : Vmm} {m : Mem} {top root virt phys flags n size ptr a t c : ℕ} {keep : ℕ → Bool}

/-! ### Bytes at virtual addresses -/

/-- The byte at a virtual address that is mapped. -/
def Vmm.view (s : Vmm) (virt : ℕ) : Byte := s.mem (vmmTranslate s virt)

/-- A load of one byte; there is a page fault if the address is not mapped. -/
def Vmm.read (s : Vmm) (virt : ℕ) : Option Byte :=
  if s.Mapped virt then some (s.view virt) else none

/-- A store of one byte; there is a page fault if the address is not mapped. -/
def Vmm.write (s : Vmm) (virt : ℕ) (x : Byte) : Option Vmm :=
  if s.Mapped virt then
    some { s with mem := Function.update s.mem (vmmTranslate s virt) x }
  else none

/-! ### What `vmm_map` writes to -/

/-- The byte is in no page table and in no free frame. -/
def OutOfTables (s : Vmm) (root a : ℕ) : Prop :=
  ∀ f, IsTable s root f ∨ s.pmm.Free f → ¬ (f ≤ a ∧ a < f + pageSize)

/-- Storing an entry of a table. -/
theorem store_entry_apply (i : Fin 512) (v : ℕ) (ht : ¬ (t ≤ a ∧ a < t + pageSize)) :
    store m (t + 8 * i) 8 v a = m a := by
  have hi := i.isLt
  rw [pageSize_eq] at ht
  exact if_neg (by omega)

namespace PageTree

theorem tableMem_apply (i : Fin 512) (ht : ¬ (t ≤ a ∧ a < t + pageSize))
    (hc : ¬ (c ≤ a ∧ a < c + pageSize)) : tableMem m t i c a = m a := by
  rw [tableMem, store_entry_apply i _ ht]
  exact if_neg hc

/-- `ensure_table` writes to tables and to a free frame only. -/
theorem ensureTable_out (h : PageTree s top root) {p : List (Fin 512)} (hp : p.length ≤ 2)
    (ht : walk (childOf s.mem) root p = some t) (i : Fin 512) (ha : OutOfTables s root a) :
    (ensureTable s (t + s.hhdmOffset) i).2.mem a = s.mem a ∧
      OutOfTables (ensureTable s (t + s.hhdmOffset) i).2 root a := by
  constructor
  · have hpres := h.entryPresent_eq (by omega) ht i
    cases hchild : childOf s.mem t i with
    | some c =>
      rw [hchild] at hpres
      rw [ensureTable, hpres]
      rfl
    | none =>
      by_cases hnull : (pmmAllocPage s.pmm).1 = null
      · rw [hchild] at hpres
        simp only [ensureTable, hpres, hnull, if_pos]
        rfl
      · rw [h.ensureTable_new hp ht hchild hnull]
        have hfree := (h.pmm.alloc_page (h.directMap.top_le.trans (by norm_num)) hnull).1
        exact tableMem_apply i (ha t (.inl ⟨p, by omega, ht⟩)) (ha _ (.inr hfree))
  · rintro f (hf | hf)
    · exact ha f (h.ensureTable_isTable hp ht i hf)
    · exact ha f (.inr ((takes_ensureTable s (t + s.hhdmOffset) i).free hf))

/-- The same for the calls that take the tables down to the page table into the tree. -/
theorem ensureFrom_out (h : PageTree s top root) {p : List (Fin 512)} (hp : p.length + n = 3)
    (ht : walk (childOf s.mem) root p = some t) (ha : OutOfTables s root a) :
    (ensureFrom s virt n (t + s.hhdmOffset)).2.mem a = s.mem a ∧
      OutOfTables (ensureFrom s virt n (t + s.hhdmOffset)).2 root a := by
  induction n generalizing s p t with
  | zero => exact ⟨rfl, ha⟩
  | succ n ih =>
    set i : Fin 512 := ⟨Paging.index (n + 1) virt, Paging.index_lt _ _⟩ with hi
    have hfirst := h.ensureTable_out (by omega) ht i ha
    obtain ⟨r, s₁, he, h₁, hgrows, hr⟩ := h.ensureTable_spec (by omega) ht i
    rw [he] at hfirst
    rw [ensureFrom, show Paging.index (n + 1) virt = (i : ℕ) from rfl, he]
    dsimp only
    obtain ⟨hnull, -⟩ | ⟨hne, c, rfl, hc⟩ := hr
    · rw [if_pos hnull]
      exact hfirst
    · rw [if_neg hne, ← hgrows.hhdm]
      have hlen : (p ++ [i]).length + n = 3 := by
        rw [List.length_append, List.length_singleton]
        omega
      obtain ⟨hmem, hout⟩ := ih h₁ hlen hc hfirst.2
      exact ⟨hmem.trans hfirst.1, hout⟩

/-- **`vmm_map` writes to page tables and to free frames only.** -/
theorem vmmMap_mem (h : PageTree s top root) (ha : OutOfTables s root a) :
    (vmmMap s virt phys flags).mem a = s.mem a := by
  obtain ⟨r, s₁, he, h₁, -, hr⟩ := h.ensureTables_spec virt
  have hfrom : s₁.mem a = s.mem a ∧ OutOfTables s₁ root a := by
    have hout := @ensureFrom_out s top root virt 3 a root h [] rfl (walk_nil _ root) ha
    rwa [← h.pml4, ← ensureTables_eq_from, he] at hout
  rw [vmmMap, he]
  dsimp only
  obtain ⟨hnull, -⟩ | ⟨hne, pt, rfl, hpt⟩ := hr
  · rw [if_pos hnull]
    exact hfrom.1
  · have hok := h₁.frame_ok _ pt (length_tablePath virt).le hpt
    rw [if_neg hne, show ptIndex virt = (leafIndex virt : ℕ) from rfl,
      writeEntry_ptr h₁.directMap hok.2]
    have hpt' : IsTable s₁ root pt := ⟨_, (length_tablePath virt).le, hpt⟩
    exact (store_entry_apply _ _ (hfrom.2 pt (.inl hpt'))).trans hfrom.1

/-- The same where other entries of `pml4` are in use. -/
theorem vmmMap_mem_region (h : PageTree (s.only root keep) top root)
    (hkeep : keep (pml4Index virt) = true) (ha : OutOfTables (s.only root keep) root a) :
    (vmmMap s virt phys flags).mem a = s.mem a := by
  have hroot := ha root (.inl ⟨[], by simp, walk_nil _ root⟩)
  have hmask : ∀ m : Mem, maskTable m root keep a = m a := fun m =>
    if_neg fun hin => hroot ⟨hin.1, hin.2.1⟩
  have hmem := @vmmMap_mem _ top root virt phys flags a h ha
  rw [h.vmmMap_only virt phys flags hkeep] at hmem
  exact (hmask _).symm.trans (hmem.trans (hmask _))

end PageTree

/-! ### The bytes of the heap -/

/-- The heap has a page for the address. -/
def Heap.Has (h : Heap) (a : ℕ) : Prop :=
  kernelHeapStart ≤ a ∧ a < 2 ^ 64 ∧ a < kernelHeapStart + h.grown.length * pageSize

/-- Every page of the heap is mapped to a frame that is no page table. -/
structure Heap.Sound (h : Heap) (top root : ℕ) (keep : ℕ → Bool) : Prop where
  inv : h.Inv top root keep
  supplied : h.Supplied
  apart : ∀ v f, (v, f) ∈ h.grown → ¬ IsTable (h.vmm.only root keep) root f

/-- The heap has the bytes it had, and may have more pages. -/
structure Heap.Extends (h h' : Heap) : Prop where
  grown : h.grown <:+ h'.grown
  view : ∀ a, h.Has a → h'.vmm.view a = h.vmm.view a

variable {h h' : Heap} {v f k : ℕ} {b : Bool} {x : Byte}

theorem Heap.Extends.refl (h : Heap) : h.Extends h := ⟨List.suffix_rfl, fun _ _ => rfl⟩

theorem Heap.Extends.has (hext : h.Extends h') (ha : h.Has a) : h'.Has a := by
  have hle := Nat.mul_le_mul_right pageSize hext.grown.length_le
  obtain ⟨hlo, hlt, hhi⟩ := ha
  exact ⟨hlo, hlt, by omega⟩

theorem Heap.Extends.trans {h'' : Heap} (hext : h.Extends h') (hext' : h'.Extends h'') :
    h.Extends h'' :=
  ⟨hext.grown.trans hext'.grown, fun a ha =>
    (hext'.view a (hext.has ha)).trans (hext.view a ha)⟩

namespace Heap.Sound

variable (hs : h.Sound top root keep)
include hs

/-- A page of the heap has one frame. -/
theorem frame_unique {f' : ℕ} (hmem : (v, f) ∈ h.grown) (hmem' : (v, f') ∈ h.grown) : f = f' := by
  have hmapped := hs.inv.mapped hs.supplied.starved v
  exact Option.some.inj ((hmapped f hmem).symm.trans (hmapped f' hmem'))

/-- A byte of the heap is in the frame of its page. -/
theorem translate (hkeep : HeapRegion top keep) (ha : h.Has a) :
    ∃ f, (a / pageSize * pageSize, f) ∈ h.grown ∧ vmmTranslate h.vmm a = f + a % pageSize :=
  hs.inv.translate hkeep hs.supplied.starved ha.1 ha.2.1 ha.2.2

/-- The frames of the heap lie at multiples of the page size. -/
theorem dvd (hmem : (v, f) ∈ h.grown) : pageSize ∣ f :=
  (hs.inv.tree.pmm.usable.frame_ok (hs.inv.held v f hmem).1).1

/-- The bytes of the heap are in no page table, and in no free frame. -/
theorem out (hmem : (v, f) ∈ h.grown) (hk : k < pageSize) :
    OutOfTables (h.vmm.only root keep) root (f + k) := by
  intro g hg hin
  have hapart : ∀ hdvd : pageSize ∣ g, g = f := fun hdvd => by
    by_contra hne
    have := frame_apart hdvd (hs.dvd hmem) hne
    omega
  rcases hg with ⟨q, hq, hw⟩ | hfree
  · obtain rfl := hapart (hs.inv.tree.frame_ok q g hq hw).1
    exact hs.apart v g hmem ⟨q, hq, hw⟩
  · obtain rfl := hapart (hs.inv.tree.pmm.free_ok hfree).1
    exact (hs.inv.held v g hmem).2 hfree

theorem keep_index (hkeep : HeapRegion top keep) (ha : h.Has a) : keep (pml4Index a) = true := by
  have hlen := hs.inv.length_le
  obtain ⟨hlo, hlt, hhi⟩ := ha
  have hregion := hkeep (a - kernelHeapStart) (by omega)
  rwa [Nat.add_sub_cancel' hlo, u64_of_lt hlt] at hregion

/-- The bytes of the heap are mapped. -/
theorem mapped (hkeep : HeapRegion top keep) (ha : h.Has a) : h.vmm.Mapped a := by
  obtain ⟨f, hmem, -⟩ := hs.translate hkeep ha
  have hpage : pageOf (a / pageSize * pageSize) = pageOf a := by
    rw [pageOf_eq_iff, pageSize_eq]
    omega
  have hmap := hs.inv.mapped hs.supplied.starved _ f hmem
  rw [hpage] at hmap
  refine (hs.inv.tree.mapped_iff (hs.keep_index hkeep ha)).mpr ?_
  rw [hmap]
  exact Option.some_ne_none f

/-- An allocation that the heap does not use. -/
theorem alloc :
    Heap.Sound { h with vmm := { h.vmm with pmm := (pmmAllocPage h.vmm.pmm).2 } } top root keep :=
  ⟨hs.inv.alloc, hs.supplied.alloc, hs.apart⟩

/-- **The heap grows by a page** without writing to the others. -/
theorem grow (hkeep : HeapRegion top keep) (htop : top ≤ 2 ^ 48) (hfed : h.Fed)
    (hne : (pmmAllocPage h.vmm.pmm).1 ≠ null) :
    h.grow.Sound top root keep ∧ h.Extends h.grow := by
  have hregion := hs.inv.region hkeep (htop.trans (by norm_num)) hne
  have hwf : h.vmm.pmm.WF top := hs.inv.tree.pmm
  obtain ⟨hfree, htaken⟩ := hwf.alloc_page (htop.trans (by norm_num)) hne
  have htakes := Pmm.Takes.alloc h.vmm.pmm
  have htree := hs.inv.tree.allocated
  have hsound : h.grow.Sound top root keep := by
    refine ⟨hs.inv.grow hkeep htop hne, hs.supplied.grow hs.inv hregion hfed hne, ?_⟩
    intro v f hmem htable
    -- a table was one before, or its frame was free
    have hbefore : IsTable (h.vmm.only root keep) root f ∨ (pmmAllocPage h.vmm.pmm).2.Free f := by
      rw [Heap.grow, ← PageTree.vmmMap_only (s := { h.vmm with pmm := (pmmAllocPage h.vmm.pmm).2 })
        htree _ _ _ hregion] at htable
      exact htree.vmmMap_isTable htable
    rcases List.mem_cons.mp hmem with heq | hold
    · obtain ⟨-, rfl⟩ := Prod.mk.inj heq
      rcases hbefore with htable | hfree'
      · exact hs.inv.tree.not_free htable hfree
      · exact htaken hfree'
    · rcases hbefore with htable | hfree'
      · exact hs.apart v f hold htable
      · exact (hs.inv.held v f hold).2 (htakes.free hfree')
  refine ⟨hsound, List.suffix_cons _ _, fun a ha => ?_⟩
  obtain ⟨f, hmem, htranslate⟩ := hs.translate hkeep ha
  have hmore : h.grow.Has a := by
    refine ⟨ha.1, ha.2.1, ha.2.2.trans_le ?_⟩
    exact Nat.add_le_add_left (Nat.mul_le_mul_right _ (Nat.le_succ _)) _
  obtain ⟨f', hmem', htranslate'⟩ := hsound.translate hkeep hmore
  obtain rfl : f = f' := hsound.frame_unique (List.mem_cons_of_mem _ hmem) hmem'
  have hout := hs.alloc.out hmem (Nat.mod_lt a (by simp [pageSize_eq] : 0 < pageSize))
  rw [Vmm.view, Vmm.view, htranslate, htranslate']
  exact htree.vmmMap_mem_region hregion hout

/-- The loop of `kmalloc`. -/
theorem loop (hkeep : HeapRegion top keep) (htop : top ≤ 2 ^ 48) (hfed : Heap.LoopFed size n h)
    (hloop : kmallocLoop size n h = some (b, h')) : h'.Sound top root keep ∧ h.Extends h' := by
  induction n generalizing h with
  | zero => exact nomatch hloop
  | succ n ih =>
    unfold kmallocLoop at hloop
    split_ifs at hloop with hfit
    · obtain ⟨hnow, hlater⟩ := hfed hfit
      by_cases hnull : (pmmAllocPage h.vmm.pmm).1 = null
      · rw [heapGrow_full hnull] at hloop
        obtain ⟨-, rfl⟩ := Prod.mk.inj (Option.some.inj hloop)
        exact ⟨hs.alloc, List.suffix_rfl, fun _ _ => rfl⟩
      · rw [heapGrow_page hnull] at hloop hlater
        obtain ⟨hgrown, hext⟩ := hs.grow hkeep htop hnow hnull
        obtain ⟨hsound, hext'⟩ := ih hgrown (hlater rfl) hloop
        exact ⟨hsound, hext.trans hext'⟩
    · obtain ⟨-, rfl⟩ := Prod.mk.inj (Option.some.inj hloop)
      exact ⟨hs, .refl h⟩

/-- **`kmalloc`** keeps the bytes of the heap.  It returns the block at `heap_current`, all bytes
of which the heap has then, or none. -/
theorem kmalloc (hkeep : HeapRegion top keep) (htop : top ≤ 2 ^ 48) (hsize : size + 15 < 2 ^ 64)
    (hend : h.heapCurrent + alignUp size 16 < 2 ^ 64) (hfed : h.CallFed size)
    (hk : kmalloc h size = some (ptr, h')) :
    h'.Sound top root keep ∧ h.Extends h' ∧
      (ptr = null ∧ h'.heapCurrent = h.heapCurrent ∨
        ptr ≠ null ∧ ptr = h.heapCurrent ∧ h'.heapCurrent = h.heapCurrent + alignUp size 16 ∧
          ∀ i < size, h'.Has (ptr + i)) := by
  have hinv := hs.inv.kmalloc hkeep htop hsize hend hk
  have hcurrent := hs.inv.current
  unfold Bethany.kmalloc at hk
  split_ifs at hk with hzero
  · obtain ⟨rfl, rfl⟩ := Prod.mk.inj (Option.some.inj hk)
    exact ⟨hs, .refl h, .inl ⟨rfl, rfl⟩⟩
  obtain ⟨⟨b, h₁⟩, hloop, hresult⟩ := Option.map_eq_some_iff.mp hk
  obtain ⟨hsound, hext⟩ := hs.loop hkeep htop (hfed.resolve_left hzero) hloop
  have hkept := (hs.inv.loop hkeep htop hloop).2.1
  cases b with
  | false =>
    obtain ⟨rfl, rfl⟩ := Prod.mk.inj hresult
    exact ⟨hsound, hext, .inl ⟨rfl, hkept⟩⟩
  | true =>
    obtain ⟨rfl, rfl⟩ := Prod.mk.inj hresult
    have hne : h₁.heapCurrent ≠ null := by
      rw [hkept, null]
      have := hcurrent.1
      unfold kernelHeapStart at this
      omega
    obtain ⟨hstarved, hframes, hnull⟩ := hsound.supplied
    refine ⟨⟨hinv.1, ⟨hstarved, hframes, hnull⟩, hsound.apart⟩, ⟨hext.grown, hext.view⟩,
      .inr ⟨hne, hkept, ?_, fun i hi => ?_⟩⟩
    · dsimp only
      rw [hkept, u64_of_lt hend]
    · obtain ⟨hlo, hlt, hhi⟩ := hinv.2.2 hne
      exact ⟨by omega, by omega, by omega⟩

/-- **A byte of the heap** can be written to, and no other byte of the heap changes. -/
theorem write (hkeep : HeapRegion top keep) (ha : h.Has a) (x : Byte) :
    ∃ vmm, h.vmm.write a x = some vmm ∧ Heap.Sound { h with vmm := vmm } top root keep ∧
      ∀ a', h.Has a' → vmm.view a' = Function.update h.vmm.view a x a' := by
  obtain ⟨f, hmem, htranslate⟩ := hs.translate hkeep ha
  have hpos : 0 < pageSize := by simp [pageSize_eq]
  have hout := hs.out hmem (Nat.mod_lt a hpos)
  refine ⟨_, if_pos (hs.mapped hkeep ha), ?_⟩
  rw [htranslate]
  set m := Function.update h.vmm.mem (f + a % pageSize) x with hm
  -- the tables are what they were
  obtain ⟨htree, hwalk⟩ := hs.inv.tree.write_outside (m := maskTable m root keep)
    fun q g hq hg a' hlo hhi => by
      have hne : a' ≠ f + a % pageSize := by
        rintro rfl
        exact hout g (.inl ⟨q, hq, hg⟩) ⟨hlo, hhi⟩
      simp only [maskTable, Vmm.only, hm, Function.update_of_ne hne]
  have hmap : pageMap (Vmm.only { h.vmm with mem := m } root keep) root =
      pageMap (h.vmm.only root keep) root := funext fun page => hwalk _ (by simp)
  have hsound : Heap.Sound { h with vmm := { h.vmm with mem := m } } top root keep := by
    refine ⟨{ hs.inv with tree := htree, mapped := fun hstarved v f hmem => ?_ }, ?_, ?_⟩
    · rw [hmap]
      exact hs.inv.mapped hstarved v f hmem
    · exact ⟨hs.supplied.starved, hs.supplied.frames, hs.supplied.notNull⟩
    · rintro v f hmem ⟨q, hq, hw⟩
      exact hs.apart v f hmem ⟨q, hq, (hwalk q (by omega)).symm.trans hw⟩
  refine ⟨hsound, fun a' ha' => ?_⟩
  obtain ⟨f', hmem', htranslate'⟩ := hs.translate hkeep ha'
  obtain ⟨f'', hmem'', htranslate''⟩ := hsound.translate hkeep (a := a') ha'
  obtain rfl : f'' = f' := hs.frame_unique hmem'' hmem'
  rw [Vmm.view, htranslate'']
  show m (f'' + a' % pageSize) = _
  rcases eq_or_ne a' a with rfl | hne
  · obtain rfl : f'' = f := hs.frame_unique hmem' hmem
    rw [hm, Function.update_self, Function.update_self]
  · -- another byte of the same page, or a byte of another frame
    have hother : f'' + a' % pageSize ≠ f + a % pageSize := by
      intro heq
      have hmod := Nat.mod_lt a hpos
      have hmod' := Nat.mod_lt a' hpos
      have hdvd := hs.dvd hmem
      have hdvd' := hs.dvd hmem'
      have hframe : f'' = f := by
        by_contra hframe
        have := frame_apart hdvd' hdvd hframe
        omega
      subst hframe
      have hpage : (a' / pageSize * pageSize, f'') = (a / pageSize * pageSize, f'') :=
        List.inj_on_of_nodup_map hs.inv.frames hmem' hmem rfl
      have hpage' := (Prod.mk.inj hpage).1
      have hdiv := Nat.div_add_mod' a pageSize
      have hdiv' := Nat.div_add_mod' a' pageSize
      omega
    rw [hm, Function.update_of_ne hother, Function.update_of_ne hne, Vmm.view, htranslate']

end Heap.Sound

/-- The heap after `heap_init`. -/
theorem Heap.Sound.init {vmm : Vmm} (htree : PageTree (vmm.only root keep) top root)
    (hkeep : HeapRegion top keep) (htop : top ≤ 2 ^ 48) (hnull : ¬ vmm.pmm.Free null)
    (hfed : (Heap.fresh vmm).Fed) : (heapInit vmm).Sound top root keep := by
  have hfresh : (Heap.fresh vmm).Sound top root keep :=
    ⟨Heap.Inv.empty htree, ⟨rfl, fun v f hmem => absurd hmem List.not_mem_nil, hnull⟩,
      fun v f hmem => absurd hmem List.not_mem_nil⟩
  unfold heapInit
  by_cases hpage : (pmmAllocPage vmm.pmm).1 = null
  · rw [heapGrow_full hpage]
    exact hfresh.alloc
  · rw [heapGrow_page hpage]
    exact (hfresh.grow hkeep htop hfed hpage).1

/-! ### Requests without a block -/

/-- The heap after it has asked for `k` pages. -/
def Heap.asked (h : Heap) (k : ℕ) : Heap := (fun h => (heapGrow h).2)^[k] h

/-- There is no block of this size: no page is left before the heap gets to its end. -/
def Heap.Refuses (h : Heap) (size : ℕ) : Prop :=
  size = 0 ∨ ∃ k, (h.asked k).vmm.pmm.freePages = 0 ∧
    ∀ j ≤ k, (h.asked j).heapEnd < u64 (h.heapCurrent + alignUp size 16)

theorem Heap.asked_succ (h : Heap) (k : ℕ) : h.asked (k + 1) = (heapGrow h).2.asked k := rfl

/-- The loop of `kmalloc` fails if no page is left before the heap gets to the end of the block. -/
theorem kmallocLoop_false_iff (hwf : h.vmm.pmm.WF top) (htop : top ≤ 2 ^ 64)
    (hnull : ¬ h.vmm.pmm.Free null) (hloop : kmallocLoop size n h = some (b, h')) :
    b = false ↔ ∃ k, (h.asked k).vmm.pmm.freePages = 0 ∧
      ∀ j ≤ k, (h.asked j).heapEnd < u64 (h.heapCurrent + size) := by
  induction n generalizing h with
  | zero => exact nomatch hloop
  | succ n ih =>
    unfold kmallocLoop at hloop
    split_ifs at hloop with hfit
    · rcases hwf.alloc_count htop hnull with ⟨hzero, halloc⟩ | ⟨hne, hcount⟩
      · rw [heapGrow_full (congrArg Prod.fst halloc)] at hloop
        obtain ⟨rfl, -⟩ := Prod.mk.inj (Option.some.inj hloop)
        refine iff_of_true rfl ⟨0, hzero, fun j hj => ?_⟩
        rw [Nat.le_zero.mp hj]
        exact hfit
      · rw [heapGrow_page hne] at hloop
        have hnull' : ¬ h.grow.vmm.pmm.Free null := fun hfree => hnull (h.takes_grow.free hfree)
        rw [ih (hwf.takes h.takes_grow) hnull' hloop]
        have hasked : ∀ k, h.asked (k + 1) = h.grow.asked k := fun k => by
          rw [Heap.asked_succ, heapGrow_page hne]
        constructor
        · rintro ⟨k, hzero, hlt⟩
          refine ⟨k + 1, by rw [hasked]; exact hzero, fun j hj => ?_⟩
          cases j with
          | zero => exact hfit
          | succ j =>
            rw [hasked]
            exact hlt j (Nat.le_of_succ_le_succ hj)
        · rintro ⟨k, hzero, hlt⟩
          cases k with
          | zero =>
            have hzero' : h.vmm.pmm.freePages = 0 := hzero
            omega
          | succ k =>
            rw [hasked] at hzero
            refine ⟨k, hzero, fun j hj => ?_⟩
            rw [← hasked]
            exact hlt (j + 1) (Nat.succ_le_succ hj)
    · obtain ⟨rfl, -⟩ := Prod.mk.inj (Option.some.inj hloop)
      refine iff_of_false (by decide) ?_
      rintro ⟨k, -, hlt⟩
      exact hfit (hlt 0 (Nat.zero_le k))

/-- **The requests for which `kmalloc` has no block.** -/
theorem Heap.Sound.refuses_iff (hs : h.Sound top root keep) (hkeep : HeapRegion top keep)
    (htop : top ≤ 2 ^ 48) (hk : Bethany.kmalloc h size = some (ptr, h')) :
    ptr = null ↔ h.Refuses size := by
  unfold Bethany.kmalloc at hk
  split_ifs at hk with hzero
  · obtain ⟨rfl, -⟩ := Prod.mk.inj (Option.some.inj hk)
    exact iff_of_true rfl (.inl hzero)
  obtain ⟨⟨b, h₁⟩, hloop, hresult⟩ := Option.map_eq_some_iff.mp hk
  have hfalse := kmallocLoop_false_iff hs.inv.tree.pmm (htop.trans (by norm_num))
    hs.supplied.notNull hloop
  rw [Heap.Refuses, ← hfalse, or_iff_right hzero]
  cases b with
  | false =>
    obtain ⟨rfl, -⟩ := Prod.mk.inj hresult
    exact iff_of_true rfl rfl
  | true =>
    obtain ⟨rfl, -⟩ := Prod.mk.inj hresult
    have hlo := (hs.inv.loop hkeep htop hloop).1.current.1
    refine iff_of_false ?_ (by decide)
    rw [null]
    unfold kernelHeapStart at hlo
    omega

end Bethany
