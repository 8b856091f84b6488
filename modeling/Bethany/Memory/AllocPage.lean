import Bethany.Memory.Translate
import Bethany.Memory.PmmAccounting
import Bethany.Boot

/-!
# `vmm_alloc_page` when pages run out

`vmm_alloc_page` takes the page for `virt` first.  `vmm_map` then takes up to three more for
tables that are missing, and tells nobody when there are none left.

* `missingTables`: how many tables are missing for an address;
* `ensureTables_iff`, `ensureTables_count`: the tables can be had exactly if that many pages are
  free, and they take these pages;
* `vmmAllocPage_truthful_iff`: when the answer of `vmm_alloc_page` is right;
* `Heap.CallFed`, `Boot.Supplied`: calls of `kmalloc` that never run short in the middle;
* `vmmAllocPage_kmalloc`: the two together.
-/

namespace Bethany

open Machine Walk Relation PageTree

variable {s s' : Vmm} {top root virt flags n t : ℕ} {keep : ℕ → Bool}

/-! ### Missing tables -/

/-- The tables that are missing for `virt`, from the table that level `n + 1` reads on. -/
def missingFrom (s : Vmm) (virt : ℕ) : ℕ → ℕ → ℕ
  | 0, _ => 0
  | n + 1, table =>
      let next := nextTable s table (Paging.index (n + 1) virt)
      if next = null then n + 1 else missingFrom s virt n next

/-- The tables that are missing for `virt`. -/
def missingTables (s : Vmm) (virt : ℕ) : ℕ := missingFrom s virt 3 s.pml4

/-- `ensure_table` at each level down to the page table. -/
def ensureFrom (s : Vmm) (virt : ℕ) : ℕ → ℕ → ℕ × Vmm
  | 0, table => (table, s)
  | n + 1, table =>
      match ensureTable s table (Paging.index (n + 1) virt) with
      | (next, s) => if next = null then (null, s) else ensureFrom s virt n next

theorem ensureTables_eq_from (s : Vmm) (virt : ℕ) :
    ensureTables s virt = ensureFrom s virt 3 s.pml4 := by
  simp only [ensureTables, ensureFrom, pml4Index_eq, pdptIndex_eq, pdIndex_eq]
  split_ifs with h₄ h₃ h₂
  · rfl
  · rfl
  · rw [← h₂]
  · rfl

/-- An allocation tells whether a page was left, if that at address 0 is not one of them. -/
theorem Pmm.WF.alloc_count {s : Pmm} (h : s.WF top) (htop : top ≤ 2 ^ 64)
    (hnull : ¬ s.Free null) :
    (s.freePages = 0 ∧ pmmAllocPage s = (null, s)) ∨
      ((pmmAllocPage s).1 ≠ null ∧ (pmmAllocPage s).2.freePages + 1 = s.freePages) := by
  rcases pmmAllocPage_cases h htop with ⟨hall, heq⟩ | ⟨bit, f, hlt, hfree, -, hf, heq⟩
  · exact .inl ⟨freePages_eq_zero_iff.mpr hall, heq⟩
  · rw [heq]
    refine .inr ⟨fun hzero => hnull ⟨bit, hfree, ?_⟩, freePages_bitmapSet hlt hfree⟩
    rw [hf]
    exact congrArg some hzero

/-- Below an empty table everything is missing. -/
theorem missingFrom_of_empty (h : PageTree s top root) {p : List (Fin 512)}
    (hp : p.length + n = 3) (ht : walk (childOf s.mem) root p = some t)
    (hempty : ∀ i, childOf s.mem t i = none) (virt : ℕ) :
    missingFrom s virt n (t + s.hhdmOffset) = n := by
  cases n with
  | zero => rfl
  | succ n =>
    have hnext := h.nextTable_eq (by omega) ht ⟨Paging.index (n + 1) virt, Paging.index_lt _ _⟩
    rw [walk_concat, ht, Option.bind_some, hempty] at hnext
    simp only [missingFrom]
    exact if_pos hnext

/-- **The tables can be had** exactly if there is a page for each one that is missing, and then
these pages are taken. -/
theorem ensureFrom_spec (h : PageTree s top root) (hnull : ¬ s.pmm.Free null)
    {p : List (Fin 512)} (hp : p.length + n = 3) (ht : walk (childOf s.mem) root p = some t) :
    ((ensureFrom s virt n (t + s.hhdmOffset)).1 ≠ null ↔
        missingFrom s virt n (t + s.hhdmOffset) ≤ s.pmm.freePages) ∧
      (missingFrom s virt n (t + s.hhdmOffset) ≤ s.pmm.freePages →
        (ensureFrom s virt n (t + s.hhdmOffset)).2.pmm.freePages +
          missingFrom s virt n (t + s.hhdmOffset) = s.pmm.freePages) := by
  induction n generalizing s p t with
  | zero =>
    have hne := (h.ptr_ok (h.frame_ok p t (by omega) ht).2).2
    simp [ensureFrom, missingFrom, hne]
  | succ n ih =>
    have htop : top ≤ 2 ^ 64 := h.directMap.top_le.trans (by norm_num)
    set i : Fin 512 := ⟨Paging.index (n + 1) virt, Paging.index_lt _ _⟩ with hi
    have hindex : Paging.index (n + 1) virt = (i : ℕ) := rfl
    have hwalk : walk (childOf s.mem) root (p ++ [i]) = childOf s.mem t i := by
      rw [walk_concat, ht]
      rfl
    have hlen : (p ++ [i]).length + n = 3 := by
      rw [List.length_append, List.length_singleton]
      omega
    have hnext := h.nextTable_eq (by omega) ht i
    simp only [ensureFrom, missingFrom, hindex]
    rw [hwalk] at hnext
    cases hchild : childOf s.mem t i with
    | some c =>
      -- The table exists, and the state stays as it is.
      rw [hchild] at hnext hwalk
      have hne := (h.ptr_ok (h.frame_ok _ c (by omega) hwalk).2).2
      have hpres := h.entryPresent_eq (by omega) ht i
      rw [hchild] at hpres
      have hsame : ensureTable s (t + s.hhdmOffset) i = (c + s.hhdmOffset, s) := by
        rw [ensureTable, hpres, hnext]
        rfl
      rw [hsame, hnext]
      simp only [if_neg hne]
      exact ih h hnull hlen hwalk
    | none =>
      rw [hchild] at hnext
      rw [hnext, if_pos rfl]
      rcases h.pmm.alloc_count htop hnull with ⟨hzero, halloc⟩ | ⟨hne, hcount⟩
      · -- There is no page left for the table.
        have hfail : (ensureTable s (t + s.hhdmOffset) i).1 = null := by
          have hpres := h.entryPresent_eq (by omega) ht i
          rw [hchild] at hpres
          rw [ensureTable, hpres, halloc]
          rfl
        rcases hens : ensureTable s (t + s.hhdmOffset) i with ⟨r, s₁⟩
        rw [hens] at hfail
        simp only [if_pos hfail]
        simp [hzero]
      · -- One page goes into the table, which is empty.
        have hcok := h.pmm.free_ok (h.pmm.alloc_page htop hne).1
        obtain ⟨htree, hadd⟩ := h.add_table (by omega) ht hchild hne
        have hptr := (h.ptr_ok hcok.2).2
        have hnew := (hadd (p ++ [i]) (by omega)).trans (if_pos rfl)
        have hempty : ∀ j, childOf (tableMem s.mem t i (pmmAllocPage s.pmm).1)
            (pmmAllocPage s.pmm).1 j = none := by
          intro j
          have hlast := hadd (p ++ [i] ++ [j]) (by simp; omega)
          rw [walk_concat, hnew, Option.bind_some, if_neg (by simp), walk_concat, walk_concat, ht,
            Option.bind_some, hchild, Option.bind_none] at hlast
          exact hlast
        obtain ⟨hrest, htaken⟩ :=
          ih htree (fun hfree => hnull ((Pmm.Takes.alloc s.pmm).free hfree)) hlen hnew
        have hmissing := missingFrom_of_empty htree hlen hnew hempty virt
        dsimp only at hrest htaken hmissing
        rw [hmissing] at hrest htaken
        rw [h.ensureTable_new (by omega) ht hchild hne]
        simp only [if_neg hptr, hrest]
        exact ⟨by omega, fun hle => by have := htaken (by omega); omega⟩

/-- `vmm_map` gets its page table exactly if there is a page for each table that is missing. -/
theorem ensureTables_iff (h : PageTree s top root) (hnull : ¬ s.pmm.Free null) (virt : ℕ) :
    (ensureTables s virt).1 ≠ null ↔ missingTables s virt ≤ s.pmm.freePages := by
  rw [ensureTables_eq_from, missingTables, h.pml4]
  exact (ensureFrom_spec h hnull (p := []) rfl rfl).1

/-- Each table that is missing takes a page. -/
theorem ensureTables_count (h : PageTree s top root) (hnull : ¬ s.pmm.Free null)
    (hroom : missingTables s virt ≤ s.pmm.freePages) :
    (ensureTables s virt).2.pmm.freePages + missingTables s virt = s.pmm.freePages := by
  rw [missingTables, h.pml4] at hroom ⊢
  rw [ensureTables_eq_from, h.pml4]
  exact (ensureFrom_spec h hnull (p := []) rfl rfl).2 hroom

/-- The other entries of `pml4` do not matter for what is missing. -/
theorem missingFrom_only (h : PageTree (s.only root keep) top root)
    (hkeep : keep (pml4Index virt) = true) {p : List (Fin 512)} (hp : p.length + n = 3)
    (ht : walk (childOf (s.only root keep).mem) root p = some t) :
    missingFrom (s.only root keep) virt n (t + s.hhdmOffset) =
      missingFrom s virt n (t + s.hhdmOffset) := by
  induction n generalizing p t with
  | zero => rfl
  | succ n ih =>
    set i : Fin 512 := ⟨Paging.index (n + 1) virt, Paging.index_lt _ _⟩
    have hkeep' : p = [] → keep i = true := by
      rintro rfl
      rw [pml4Index_eq] at hkeep
      rw [List.length_nil, Nat.zero_add] at hp
      rw [← hp] at hkeep
      exact hkeep
    obtain ⟨r, hs, honly, hr⟩ := h.nextTable_level (by omega) ht i hkeep'
    simp only [missingFrom, show Paging.index (n + 1) virt = (i : ℕ) from rfl]
    rw [hs, honly]
    by_cases hnull : r = null
    · rw [if_pos hnull, if_pos hnull]
    · obtain ⟨c, rfl, hc⟩ := hr hnull
      rw [if_neg hnull, if_neg hnull]
      refine ih ?_ hc
      rw [List.length_append, List.length_singleton]
      omega

theorem missingTables_only (h : PageTree (s.only root keep) top root)
    (hkeep : keep (pml4Index virt) = true) :
    missingTables (s.only root keep) virt = missingTables s virt := by
  have hpml4 : s.pml4 = root + s.hhdmOffset := h.pml4
  rw [missingTables, missingTables, Vmm.only_pml4, hpml4]
  exact missingFrom_only (p := []) h hkeep rfl rfl

/-- So it is with the tables for an address of a region. -/
theorem ensureTables_region (h : PageTree (s.only root keep) top root)
    (hkeep : keep (pml4Index virt) = true) (hnull : ¬ s.pmm.Free null) :
    ((ensureTables s virt).1 ≠ null ↔ missingTables s virt ≤ s.pmm.freePages) ∧
      (missingTables s virt ≤ s.pmm.freePages →
        (ensureTables s virt).2.pmm.freePages + missingTables s virt = s.pmm.freePages) := by
  obtain ⟨r, s', he, ho, -⟩ := h.ensureTables_only virt hkeep
  have hiff := ensureTables_iff h hnull virt
  have hcount : missingTables _ virt ≤ _ → _ := ensureTables_count h hnull
  rw [ho, missingTables_only h hkeep] at hiff hcount
  rw [he]
  exact ⟨hiff, hcount⟩

/-! ### `vmm_alloc_page` -/

/-- The page with the lowest clear bit. -/
def Pmm.FirstFree (s : Pmm) (f : ℕ) : Prop :=
  ∃ bit, ¬ s.Used bit ∧ (∀ j < bit, s.Used j) ∧ (framesOf s.usable)[bit]? = some f

theorem Pmm.FirstFree.unique {s : Pmm} {f g : ℕ} (hf : s.FirstFree f) (hg : s.FirstFree g) :
    f = g := by
  obtain ⟨i, hi, hi', hif⟩ := hf
  obtain ⟨j, hj, hj', hjg⟩ := hg
  obtain rfl : i = j := by
    rcases Nat.lt_trichotomy i j with hlt | heq | hgt
    · exact absurd (hj' i hlt) hi
    · exact heq
    · exact absurd (hi' j hgt) hj
  exact Option.some.inj (hif.symm.trans hjg)

theorem Pmm.WF.alloc_firstFree {s : Pmm} (h : s.WF top) (htop : top ≤ 2 ^ 64)
    (hne : (pmmAllocPage s).1 ≠ null) : s.FirstFree (pmmAllocPage s).1 := by
  rcases pmmAllocPage_cases h htop with ⟨-, heq⟩ | ⟨bit, f, -, hfree, hmin, hf, heq⟩
  · rw [heq] at hne
    exact absurd rfl hne
  · rw [heq]
    exact ⟨bit, hfree, hmin, hf⟩

/-- The answer of `vmm_alloc_page` is right: after `true` the page of `virt` has a frame that was
free before, and after `false` the allocator and all translations are as they were. -/
def AllocTruthful (s : Vmm) (virt flags : ℕ) : Prop :=
  ((vmmAllocPage s virt flags).1 = true → ∃ f, s.pmm.Free f ∧
      vmmTranslate (vmmAllocPage s virt flags).2 virt = f + virt % pageSize) ∧
    ((vmmAllocPage s virt flags).1 = false → (vmmAllocPage s virt flags).2.pmm = s.pmm ∧
      ∀ v, vmmTranslate (vmmAllocPage s virt flags).2 v = vmmTranslate s v)

/-- With no page left, the answer is `false` and nothing happens. -/
theorem vmmAllocPage_none {s : Vmm} (halloc : pmmAllocPage s.pmm = (null, s.pmm)) :
    vmmAllocPage s virt flags = (false, s) := by
  unfold vmmAllocPage
  rw [halloc]
  rfl

/-- With a page taken for `virt`, `vmm_map` gets its page table exactly if there was a page for
each missing table too. -/
theorem vmmAllocPage_tables (h : PageTree (s.only root keep) top root)
    (hkeep : keep (pml4Index virt) = true) (hnull : ¬ s.pmm.Free null)
    (hne : (pmmAllocPage s.pmm).1 ≠ null) :
    (ensureTables { s with pmm := (pmmAllocPage s.pmm).2 } virt).1 ≠ null ↔
      missingTables s virt + 1 ≤ s.pmm.freePages := by
  have htop : top ≤ 2 ^ 64 := h.directMap.top_le.trans (by norm_num)
  have hwf : s.pmm.WF top := h.pmm
  set s₁ : Vmm := { s with pmm := (pmmAllocPage s.pmm).2 }
  have h₁ : PageTree (s₁.only root keep) top root := h.allocated
  have hnull₁ : ¬ s₁.pmm.Free null := fun hfree => hnull ((Pmm.Takes.alloc s.pmm).free hfree)
  -- what is missing does not depend on the allocator
  have hmissing : missingTables s₁ virt = missingTables s virt := rfl
  have htables := (ensureTables_region h₁ hkeep hnull₁).1
  rw [htables, hmissing]
  rcases hwf.alloc_count htop hnull with ⟨-, halloc⟩ | ⟨-, hcount⟩
  · rw [halloc] at hne
    exact absurd rfl hne
  · show missingTables s virt ≤ (pmmAllocPage s.pmm).2.freePages ↔ _
    omega

/-- With a page left the answer is `true`, but `virt` gets that page only if there is a page for
each missing table too. -/
theorem vmmAllocPage_some (h : PageTree (s.only root keep) top root)
    (hkeep : keep (pml4Index virt) = true) (hnull : ¬ s.pmm.Free null)
    (hpres : flags.testBit 0 = true) (hne : (pmmAllocPage s.pmm).1 ≠ null) :
    (vmmAllocPage s virt flags).1 = true ∧
      vmmTranslate (vmmAllocPage s virt flags).2 virt =
        if missingTables s virt + 1 ≤ s.pmm.freePages then
          entryAddress ((pmmAllocPage s.pmm).1 ||| flags) + virt % pageSize
        else 0 := by
  have htables := vmmAllocPage_tables h hkeep hnull hne
  set s₁ : Vmm := { s with pmm := (pmmAllocPage s.pmm).2 } with hs₁
  have hcall : vmmAllocPage s virt flags =
      (true, vmmMap s₁ virt (pmmAllocPage s.pmm).1 flags) := by
    unfold vmmAllocPage
    rw [if_neg hne]
  have h₁ : PageTree (s₁.only root keep) top root := h.allocated
  obtain ⟨htree, hmap⟩ := h₁.vmmMap_entry virt (pmmAllocPage s.pmm).1 flags hkeep
  rw [hcall]
  refine ⟨rfl, ?_⟩
  rw [htree.vmmTranslate_region virt hkeep, PageMap.translate, hmap]
  by_cases hroom : missingTables s virt + 1 ≤ s.pmm.freePages
  · rw [if_pos hroom, if_neg (htables.mpr hroom), Function.update_self, entryPresent_or hpres,
      if_pos rfl]
  · have hfail : (ensureTables s₁ virt).1 = null :=
      not_not.mp fun hsome => hroom (htables.mp hsome)
    obtain ⟨r, s', he, ho, -⟩ := h₁.ensureTables_only virt hkeep
    rw [he] at hfail
    have hunmapped := h₁.unmapped_of_failed (by rw [ho]; exact hfail)
    rw [if_neg hroom, he, if_pos hfail, hunmapped]

/-- Flags outside bits 12 to 51 do not make the entry lead elsewhere. -/
theorem Pmm.FirstFree.free_or {s : Pmm} {f : ℕ} (hf : s.FirstFree f) (hwf : s.WF top)
    (htop : top ≤ 2 ^ 52) (hflags : ∀ i, 12 ≤ i → i < 52 → flags.testBit i = false) :
    s.Free (entryAddress (f ||| flags)) := by
  obtain ⟨bit, hbit, -, hframe⟩ := hf
  have hfree : s.Free f := ⟨bit, hbit, hframe⟩
  obtain ⟨hdvd, hle⟩ := hwf.free_ok hfree
  have hlt : f < 2 ^ 52 := by
    rw [pageSize_eq] at hle
    omega
  rwa [entryAddress_or hdvd hlt hflags]

/-- **`vmm_alloc_page` tells the truth** exactly if no page is free, or there are enough for the
page and the missing tables and the flags do not make the entry lead elsewhere. -/
theorem vmmAllocPage_truthful_iff (h : PageTree (s.only root keep) top root)
    (hkeep : keep (pml4Index virt) = true) (hnull : ¬ s.pmm.Free null)
    (hpres : flags.testBit 0 = true) :
    AllocTruthful s virt flags ↔ s.pmm.freePages = 0 ∨
      (missingTables s virt + 1 ≤ s.pmm.freePages ∧
        ∀ f, s.pmm.FirstFree f → s.pmm.Free (entryAddress (f ||| flags))) := by
  have htop : top ≤ 2 ^ 64 := h.directMap.top_le.trans (by norm_num)
  have hwf : s.pmm.WF top := h.pmm
  rcases hwf.alloc_count htop hnull with ⟨hzero, halloc⟩ | ⟨hne, hcount⟩
  · refine iff_of_true ?_ (.inl hzero)
    unfold AllocTruthful
    rw [vmmAllocPage_none halloc]
    exact ⟨fun htrue => absurd htrue Bool.false_ne_true, fun _ => ⟨rfl, fun v => rfl⟩⟩
  · obtain ⟨htrue, htranslate⟩ := vmmAllocPage_some h hkeep hnull hpres hne
    have hfirst := hwf.alloc_firstFree htop hne
    have hpos : s.pmm.freePages ≠ 0 := by omega
    unfold AllocTruthful
    rw [htrue, htranslate]
    constructor
    · rintro ⟨hmapped, -⟩
      obtain ⟨f, hfree, hf⟩ := hmapped rfl
      have hfne : f ≠ null := by
        rintro rfl
        exact hnull hfree
      split_ifs at hf with hroom
      · refine .inr ⟨hroom, fun g hg => ?_⟩
        rw [hg.unique hfirst, Nat.add_right_cancel hf]
        exact hfree
      · rw [null] at hfne
        omega
    · rintro (hzero | ⟨hroom, hflags⟩)
      · exact absurd hzero hpos
      · rw [if_pos hroom]
        exact ⟨fun _ => ⟨_, hflags _ hfirst, rfl⟩, fun hfalse => absurd hfalse (by decide)⟩

/-! ### `kmalloc` -/

/-- A page of growth does not run short in the middle: there is no page left, or there are
enough for the page and the tables that are missing for it. -/
def Heap.Fed (h : Heap) : Prop :=
  h.vmm.pmm.freePages = 0 ∨ missingTables h.vmm h.heapEnd + 1 ≤ h.vmm.pmm.freePages

/-- No round of the loop of `kmalloc` runs short in the middle. -/
def Heap.LoopFed (size : ℕ) : ℕ → Heap → Prop
  | 0, _ => True
  | n + 1, h => u64 (h.heapCurrent + size) > h.heapEnd →
      h.Fed ∧ ((heapGrow h).1 = true → Heap.LoopFed size n (heapGrow h).2)

/-- A call of `kmalloc` that does not run short in the middle. -/
def Heap.CallFed (h : Heap) (size : ℕ) : Prop :=
  size = 0 ∨ Heap.LoopFed (alignUp size 16) (h.vmm.pmm.pageCount + 1) h

instance (h : Heap) : Decidable h.Fed := inferInstanceAs (Decidable (_ ∨ _))

instance Heap.decidableLoopFed (size : ℕ) : ∀ (n : ℕ) (h : Heap), Decidable (Heap.LoopFed size n h)
  | 0, _ => isTrue trivial
  | n + 1, h =>
      have := decidableLoopFed size n (heapGrow h).2
      inferInstanceAs (Decidable (_ → _ ∧ (_ → _)))

instance (h : Heap) (size : ℕ) : Decidable (h.CallFed size) := inferInstanceAs (Decidable (_ ∨ _))

/-- A call of `kmalloc` whose block ends within the address space, and that does not run short in
the middle. -/
def Boot.CallFed (b : Boot) : BootCall → Prop
  | .kmalloc size => size + 15 < 2 ^ 64 ∧ b.heap.heapCurrent + alignUp size 16 < 2 ^ 64 ∧
      b.heap.CallFed size
  | .nvmeInit _ _ => False

/-- The heap before its first page. -/
def Heap.fresh (vmm : Vmm) : Heap :=
  ⟨vmm, kernelHeapStart, kernelHeapStart, kernelHeapStart, [], false⟩

/-- No page of the heap is without its table or its frame. -/
structure Heap.Supplied (h : Heap) : Prop where
  starved : h.starved = false
  frames : ∀ v f, (v, f) ∈ h.grown → f ≠ null
  notNull : ¬ h.vmm.pmm.Free null

variable {h h' : Heap} {b b' : Boot} {vmm : Vmm} {size : ℕ} {r : Bool}

theorem Heap.Supplied.alloc (hs : h.Supplied) :
    Heap.Supplied { h with vmm := { h.vmm with pmm := (pmmAllocPage h.vmm.pmm).2 } } :=
  ⟨hs.starved, hs.frames, fun hfree => hs.notNull ((Pmm.Takes.alloc h.vmm.pmm).free hfree)⟩

/-- Growing by a page with enough pages left. -/
theorem Heap.Supplied.grow (hs : h.Supplied) (hinv : h.Inv top root keep)
    (hregion : keep (pml4Index h.heapEnd) = true) (hfed : h.Fed)
    (hne : (pmmAllocPage h.vmm.pmm).1 ≠ null) : h.grow.Supplied := by
  have htop : top ≤ 2 ^ 64 := hinv.tree.directMap.top_le.trans (by norm_num)
  have hwf : h.vmm.pmm.WF top := hinv.tree.pmm
  have htables := vmmAllocPage_tables hinv.tree hregion hs.notNull hne
  have hroom : missingTables h.vmm h.heapEnd + 1 ≤ h.vmm.pmm.freePages := by
    rcases hfed with hzero | hroom
    · rcases hwf.alloc_count htop hs.notNull with ⟨-, halloc⟩ | ⟨-, hcount⟩
      · rw [halloc] at hne
        exact absurd rfl hne
      · omega
    · exact hroom
  refine ⟨?_, fun v f hmem => ?_, fun hfree => hs.notNull (h.takes_grow.free hfree)⟩
  · have hgot := beq_eq_false_iff_ne.mpr (htables.mpr hroom)
    exact Bool.or_eq_false_iff.mpr ⟨hs.starved, hgot⟩
  · rcases List.mem_cons.mp hmem with heq | hold
    · obtain ⟨rfl, rfl⟩ := Prod.mk.inj heq
      exact hne
    · exact hs.frames v f hold

theorem Heap.Inv.region (hinv : h.Inv top root keep) (hkeep : HeapRegion top keep)
    (htop : top ≤ 2 ^ 64) (hne : (pmmAllocPage h.vmm.pmm).1 ≠ null) :
    keep (pml4Index h.heapEnd) = true := by
  have hlen := hinv.grow_length htop hne
  rw [hinv.heapEnd]
  refine hkeep _ ?_
  rw [pageSize_eq] at hlen ⊢
  omega

theorem Heap.Supplied.loop (hs : h.Supplied) (hinv : h.Inv top root keep)
    (hkeep : HeapRegion top keep) (htop : top ≤ 2 ^ 48) (hfed : Heap.LoopFed size n h)
    (hloop : kmallocLoop size n h = some (r, h')) : h'.Supplied := by
  induction n generalizing h with
  | zero => exact nomatch hloop
  | succ n ih =>
    unfold kmallocLoop at hloop
    split_ifs at hloop with hfit
    · obtain ⟨hnow, hlater⟩ := hfed hfit
      by_cases hnull : (pmmAllocPage h.vmm.pmm).1 = null
      · rw [heapGrow_full hnull] at hloop
        obtain ⟨-, rfl⟩ := Prod.mk.inj (Option.some.inj hloop)
        exact hs.alloc
      · rw [heapGrow_page hnull] at hloop hlater
        have hregion := hinv.region hkeep (htop.trans (by norm_num)) hnull
        exact ih (hs.grow hinv hregion hnow hnull) (hinv.grow hkeep htop hnull) (hlater rfl) hloop
    · obtain ⟨-, rfl⟩ := Prod.mk.inj (Option.some.inj hloop)
      exact hs

theorem Heap.Supplied.kmalloc {ptr : ℕ} (hs : h.Supplied) (hinv : h.Inv top root keep)
    (hkeep : HeapRegion top keep) (htop : top ≤ 2 ^ 48) (hfed : h.CallFed size)
    (hk : kmalloc h size = some (ptr, h')) : h'.Supplied := by
  unfold Bethany.kmalloc at hk
  split_ifs at hk with hzero
  · obtain ⟨-, rfl⟩ := Prod.mk.inj (Option.some.inj hk)
    exact hs
  obtain ⟨⟨r, h₁⟩, hloop, hresult⟩ := Option.map_eq_some_iff.mp hk
  have hs₁ := hs.loop hinv hkeep htop (hfed.resolve_left hzero) hloop
  cases r with
  | false =>
    obtain ⟨-, rfl⟩ := Prod.mk.inj hresult
    exact hs₁
  | true =>
    obtain ⟨-, rfl⟩ := Prod.mk.inj hresult
    exact ⟨hs₁.starved, hs₁.frames, hs₁.notNull⟩

theorem Heap.Supplied.init (htree : PageTree (vmm.only root keep) top root)
    (hkeep : HeapRegion top keep) (htop : top ≤ 2 ^ 48) (hnull : ¬ vmm.pmm.Free null)
    (hfed : (Heap.fresh vmm).Fed) : (heapInit vmm).Supplied := by
  have hfresh : (Heap.fresh vmm).Supplied :=
    ⟨rfl, fun v f hmem => absurd hmem List.not_mem_nil, hnull⟩
  have hinv : (Heap.fresh vmm).Inv top root keep := Heap.Inv.empty htree
  unfold heapInit
  by_cases hpage : (pmmAllocPage vmm.pmm).1 = null
  · rw [heapGrow_full hpage]
    exact hfresh.alloc
  · rw [heapGrow_page hpage]
    exact hfresh.grow hinv (hinv.region hkeep (htop.trans (by norm_num)) hpage) hfed hpage

/-- The state of a run in which no call runs short. -/
structure Boot.Supplied (b : Boot) (top root : ℕ) (keep : ℕ → Bool) : Prop where
  inv : b.Inv top root keep
  heap : b.heap.Supplied
  mmio : b.mmio = 0

theorem Boot.Supplied.exec {call : BootCall} (hs : b.Supplied top root keep)
    (hkeep : HeapRegion top keep) (htop : top ≤ 2 ^ 48) (hok : b.CallFed call)
    (hexec : b.exec call = some b') : b'.Supplied top root keep := by
  cases call with
  | nvmeInit found pages => exact hok.elim
  | kmalloc size =>
    obtain ⟨hsize, hend, hfed⟩ := hok
    obtain ⟨⟨ptr, heap⟩, hk, rfl⟩ := Option.map_eq_some_iff.mp hexec
    exact ⟨hs.inv.kmalloc hkeep htop ⟨hsize, hend, .inl hs.mmio⟩ hk,
      hs.heap.kmalloc hs.inv.heap hkeep htop hfed hk, hs.mmio⟩

/-- Every byte of every block is mapped. -/
theorem Boot.Supplied.mapped (hs : b.Supplied top root keep) (hkeep : HeapRegion top keep)
    {ptr i : ℕ} (hmem : (ptr, size) ∈ b.blocks) (hi : i < size) :
    vmmTranslate b.heap.vmm (ptr + i) ≠ 0 := by
  obtain ⟨f, hgrown, hf⟩ := hs.inv.blocksKept hkeep hs.heap.starved ptr size hmem i hi
  have hne := hs.heap.frames _ f hgrown
  rw [null] at hne
  omega

/-- **`vmm_alloc_page` and `kmalloc`.**  When `vmm_alloc_page` tells the truth; and in a run of
`heap_init` and `kmalloc` in which no page of growth runs short in the middle, every byte of
every block is mapped. -/
theorem vmmAllocPage_kmalloc (htree : PageTree (vmm.only root keep) top root)
    (hnull : ¬ vmm.pmm.Free null) :
    (∀ virt flags, keep (pml4Index virt) = true → flags.testBit 0 = true →
      (AllocTruthful vmm virt flags ↔ vmm.pmm.freePages = 0 ∨
        (missingTables vmm virt + 1 ≤ vmm.pmm.freePages ∧
          ∀ f, vmm.pmm.FirstFree f → vmm.pmm.Free (entryAddress (f ||| flags))))) ∧
      (HeapRegion top keep → 0xFFFF800000000000 ≤ vmm.hhdmOffset → (Heap.fresh vmm).Fed →
        ∀ b, ReflTransGen (Boot.Step Boot.CallFed) (.start vmm) b →
          ∀ ptr size, (ptr, size) ∈ b.blocks → ∀ i < size,
            vmmTranslate b.heap.vmm (ptr + i) ≠ 0) := by
  constructor
  · intro virt flags hkeep hpres
    exact vmmAllocPage_truthful_iff htree hkeep hnull hpres
  · intro hkeep hhhdm hfed b hrun ptr size hmem i hi
    have htop : top ≤ 2 ^ 48 := by
      have := htree.directMap.fits
      rw [Vmm.only_hhdmOffset] at this
      omega
    have hs : b.Supplied top root keep := by
      clear hmem hi
      induction hrun with
      | refl => exact ⟨.start htree hkeep htop, .init htree hkeep htop hnull hfed, rfl⟩
      | tail _ hstep ih =>
        obtain ⟨call, hok, hexec⟩ := hstep
        exact ih.exec hkeep htop hok hexec
    exact hs.mapped hkeep hmem hi

/-- `exampleVmm` after some pages have been taken. -/
def takenVmm (n : ℕ) : Vmm :=
  { exampleVmm with pmm := (fun pmm => (pmmAllocPage pmm).2)^[n] exampleVmm.pmm }

theorem takenVmm_tree (n : ℕ) :
    PageTree ((takenVmm n).only 0x1000 fun _ => true) 0xa000 0x1000 := by
  rw [Vmm.only_all]
  induction n with
  | zero => exact exampleVmm_tree
  | succ n ih =>
    unfold takenVmm
    rw [Function.iterate_succ_apply']
    exact ih.allocated

theorem exampleVmm_notNull : ¬ exampleVmm.pmm.Free null := by
  rintro ⟨bit, -, hbit⟩
  have hmem := List.mem_of_getElem? hbit
  have hframes : framesOf exampleVmm.pmm.usable =
      [0x2000, 0x3000, 0x4000, 0x5000, 0x6000, 0x7000, 0x8000, 0x9000] := by decide
  rw [hframes] at hmem
  exact absurd hmem (by decide)

theorem takenVmm_notNull (n : ℕ) : ¬ (takenVmm n).pmm.Free null := by
  induction n with
  | zero => exact exampleVmm_notNull
  | succ n ih =>
    unfold takenVmm
    rw [Function.iterate_succ_apply']
    exact fun hfree => ih ((Pmm.Takes.alloc _).free hfree)

theorem vmmAllocPage_kmalloc_example :
    AllocTruthful bootVmm 0xFFFF900000001000 3 ∧
      vmmTranslate oneBlock.heap.vmm 0xFFFF90000000000F ≠ 0 := by
  have hnull : ¬ bootVmm.pmm.Free null := takenVmm_notNull 3
  obtain ⟨halloc, hkmalloc⟩ := vmmAllocPage_kmalloc bootVmm_tree hnull
  have hfed : (Heap.fresh bootVmm).Fed := by decide
  have hrun : ReflTransGen (Boot.Step Boot.CallFed) (.start bootVmm) oneBlock :=
    oneBlock_run ⟨by decide, by decide, by decide⟩
  constructor
  · refine (halloc _ _ rfl (by decide)).mpr (.inr ⟨by decide, fun f hf => ?_⟩)
    exact hf.free_or bootVmm_tree.pmm (by norm_num) fun i h12 _ => flags_testBit (by norm_num) h12
  · exact hkmalloc (fun _ _ => rfl) (by decide) hfed oneBlock hrun kernelHeapStart 16 (by decide)
      15 (by decide)

/-- The last page is taken for `virt`, and no table is left for it. -/
theorem vmmAllocPage_lies :
    ¬ ∀ s top root keep virt flags, PageTree (s.only root keep) top root →
      keep (pml4Index virt) = true → ¬ s.pmm.Free null → flags.testBit 0 = true →
      AllocTruthful s virt flags := by
  intro h
  obtain ⟨htrue, -⟩ := h (takenVmm 7) 0xa000 0x1000 _ 0x400000 3 (takenVmm_tree 7) rfl
    (takenVmm_notNull 7) (by decide)
  obtain ⟨f, hfree, hf⟩ := htrue (by decide)
  have hunmapped : vmmTranslate (vmmAllocPage (takenVmm 7) 0x400000 3).2 0x400000 = 0 := by decide
  rw [hunmapped] at hf
  obtain rfl : f = null := by
    rw [null]
    omega
  exact takenVmm_notNull 7 hfree

end Bethany
