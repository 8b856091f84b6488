import Bethany.Memory.IsMapped
import Bethany.Memory.MapRange

/-!
# Windows of pages that share a page table

A driver maps the registers of its device by `vmm_map_range`, at an address that is a few pages
below the next page table.  The first page takes a page for each table that is missing, and the
others take none.

* `PageTree.mapped_iff`: a page is mapped if the map of the region has it;
* `missingTables_of_mapped`, `missingTables_congr`: nothing is missing for a page that is mapped,
  nor for one with the same tables;
* `PageTree.vmmMap_mapped_iff`, `vmmMap_mapped_other`, `vmmMap_count`: one call of `vmm_map`;
* `vmmMapRange_window`: when the first page of a window is mapped, and how many pages that takes.
-/

namespace Bethany

open Machine Walk

variable {s : Vmm} {top root virt virt' phys size flags n table offset : ℕ} {keep : ℕ → Bool}

/-! ### Addresses of one page, and pages of one table -/

/-- The four indices depend on the page only. -/
theorem index_congr (h : pageOf virt = pageOf virt') (hn : n < 4) :
    Paging.index n virt = Paging.index n virt' := by
  rw [pageOf_eq_iff, pageSize_eq] at h
  unfold Paging.index
  interval_cases n <;> omega

theorem Vmm.mapped_congr (h : pageOf virt = pageOf virt') : s.Mapped virt ↔ s.Mapped virt' := by
  simp only [Vmm.Mapped, Vmm.pageTable, walkFrom, ptIndex_eq, index_congr h (by norm_num : 0 < 4),
    index_congr h (by norm_num : 0 + 1 < 4), index_congr h (by norm_num : 1 + 1 < 4),
    index_congr h (by norm_num : 2 + 1 < 4)]

theorem tablePath_eq_iff : tablePath virt = tablePath virt' ↔
    pml4Index virt = pml4Index virt' ∧ pdptIndex virt = pdptIndex virt' ∧
      pdIndex virt = pdIndex virt' := by
  simp only [tablePath, List.cons.injEq, and_true, Fin.ext_iff]

/-- What is missing for an address is missing for all of its page table. -/
theorem missingTables_congr (h : tablePath virt = tablePath virt') :
    missingTables s virt = missingTables s virt' := by
  obtain ⟨h₄, h₃, h₂⟩ := tablePath_eq_iff.mp h
  rw [pml4Index_eq, pml4Index_eq] at h₄
  rw [pdptIndex_eq, pdptIndex_eq] at h₃
  rw [pdIndex_eq, pdIndex_eq] at h₂
  simp only [missingTables, missingFrom, h₄, h₃, h₂]

theorem missingFrom_of_walk (h : walkFrom s virt n table ≠ null) :
    missingFrom s virt n table = 0 := by
  induction n generalizing table with
  | zero => rfl
  | succ n ih =>
    simp only [walkFrom] at h
    simp only [missingFrom]
    split_ifs at h with hnull
    · exact absurd rfl h
    · rw [if_neg hnull]
      exact ih h

/-- No table is missing for a page that is mapped. -/
theorem missingTables_of_mapped (h : s.Mapped virt) : missingTables s virt = 0 :=
  missingFrom_of_walk h.1

/-! ### One page -/

namespace PageTree

variable (h : PageTree (s.only root keep) top root) (hkeep : keep (pml4Index virt) = true)
include h hkeep

/-- A page of the region is mapped if the map of the region has it. -/
theorem mapped_iff : s.Mapped virt ↔ pageMap (s.only root keep) root (pageOf virt) ≠ none := by
  -- the second byte of the page: what it is translated to is not 0 if the page is mapped
  set second := virt / pageSize * pageSize + 1 with hsecond
  have hpage : pageOf second = pageOf virt := by
    rw [pageOf_eq_iff, hsecond, pageSize_eq]
    omega
  have hkeep' : keep (pml4Index second) = true := by
    rwa [pml4Index_eq, index_congr hpage (by norm_num), ← pml4Index_eq]
  have hoffset : second % pageSize = 1 := by
    rw [hsecond, pageSize_eq]
    omega
  have hpml4 : s.pml4 ≠ null := by
    have hroot := (h.ptr_ok h.walk_root.2).2
    rw [show s.pml4 = root + s.hhdmOffset from h.pml4]
    exact hroot
  obtain ⟨hleaf, hnone⟩ := @vmmTranslate_eq_leaf s second hpml4
  rw [h.vmmTranslate_region second hkeep', PageMap.translate, hpage, hoffset] at hleaf hnone
  rw [← Vmm.mapped_congr hpage]
  cases hmap : pageMap (s.only root keep) root (pageOf virt) with
  | none =>
    simp only [hmap] at hleaf
    refine iff_of_false (fun hmapped => ?_) (not_not.mpr rfl)
    have := hleaf hmapped
    rw [pageOffset_eq, hoffset] at this
    omega
  | some f =>
    simp only [hmap] at hnone
    refine iff_of_true ?_ (Option.some_ne_none f)
    by_contra hunmapped
    exact absurd (hnone hunmapped) (Nat.succ_ne_zero f)

/-- `vmm_map` maps its page exactly if it gets its page table. -/
theorem vmmMap_mapped_iff (phys : ℕ) (hpres : flags.testBit 0 = true) :
    (vmmMap s virt phys flags).Mapped virt ↔ (ensureTables s virt).1 ≠ null := by
  obtain ⟨htree, hmap⟩ := h.vmmMap_entry virt phys flags hkeep
  rw [htree.mapped_iff hkeep, hmap]
  by_cases hnull : (ensureTables s virt).1 = null
  · obtain ⟨r, s', he, ho, -⟩ := h.ensureTables_only virt hkeep
    have hfail : (ensureTables (s.only root keep) virt).1 = null := by
      rw [ho]
      rwa [he] at hnull
    have hunmapped := h.unmapped_of_failed hfail
    rw [if_pos hnull]
    exact iff_of_false (not_not.mpr hunmapped) (not_not.mpr hnull)
  · rw [if_neg hnull, Function.update_self, entryPresent_or hpres, if_pos rfl]
    exact iff_of_true (Option.some_ne_none _) hnull

/-- `vmm_map` maps no other page. -/
theorem vmmMap_mapped_other (phys flags : ℕ) (hkeep' : keep (pml4Index virt') = true)
    (hne : pageOf virt ≠ pageOf virt') :
    (vmmMap s virt' phys flags).Mapped virt ↔ s.Mapped virt := by
  obtain ⟨htree, hmap⟩ := h.vmmMap_entry virt' phys flags hkeep'
  rw [htree.mapped_iff hkeep, h.mapped_iff hkeep, hmap]
  split_ifs
  · rfl
  · rw [Function.update_of_ne hne]
  · rw [Function.update_of_ne hne]

/-- `vmm_map` takes a page for each table that is missing. -/
theorem vmmMap_count (phys flags : ℕ) (hnull : ¬ s.pmm.Free null)
    (hroom : missingTables s virt ≤ s.pmm.freePages) :
    (vmmMap s virt phys flags).pmm.freePages + missingTables s virt = s.pmm.freePages := by
  have hpmm : (vmmMap s virt phys flags).pmm = (ensureTables s virt).2.pmm := by
    simp only [vmmMap]
    split_ifs <;> rfl
  rw [hpmm]
  exact (ensureTables_region h hkeep hnull).2 hroom

end PageTree

/-! ### A window -/

/-- Pages behind the first one, in the same page table: the first one is mapped if it was before,
and then they take no page. -/
theorem PageTree.mapRange_shared (h : PageTree (s.only root keep) top root)
    (hkeep : keep (pml4Index virt) = true) (hnull : ¬ s.pmm.Free null)
    (hpath : ∀ k < n, tablePath (virt + (offset + k * pageSize)) = tablePath virt)
    (hne : ∀ k < n, pageOf virt ≠ pageOf (virt + (offset + k * pageSize))) :
    ((mapRangeLoop virt phys flags n offset s).Mapped virt ↔ s.Mapped virt) ∧
      (s.Mapped virt →
        (mapRangeLoop virt phys flags n offset s).pmm.freePages = s.pmm.freePages) := by
  induction n generalizing s offset with
  | zero => exact ⟨Iff.rfl, fun _ => rfl⟩
  | succ n ih =>
    have hpath₀ : tablePath (u64 (virt + offset)) = tablePath virt := by
      simpa using hpath 0 (Nat.succ_pos n)
    have hne₀ : pageOf virt ≠ pageOf (u64 (virt + offset)) := by
      simpa using hne 0 (Nat.succ_pos n)
    have hkeep₀ : keep (pml4Index (u64 (virt + offset))) = true := by
      rwa [(tablePath_eq_iff.mp hpath₀).1]
    have hshift (k : ℕ) : offset + pageSize + k * pageSize = offset + (k + 1) * pageSize := by
      rw [Nat.succ_mul]
      omega
    have hother := h.vmmMap_mapped_other hkeep (u64 (phys + offset)) flags hkeep₀ hne₀
    have htree := (h.vmmMap_entry _ (u64 (phys + offset)) flags hkeep₀).1
    have hnull' : ¬ (vmmMap s (u64 (virt + offset)) (u64 (phys + offset)) flags).pmm.Free null :=
      fun hfree => hnull ((takes_vmmMap ..).free hfree)
    obtain ⟨hmapped, hcount⟩ := ih htree hnull'
      (fun k hk => by rw [hshift]; exact hpath (k + 1) (by omega))
      (fun k hk => by rw [hshift]; exact hne (k + 1) (by omega))
    refine ⟨hmapped.trans hother, fun hm => (hcount (hother.mpr hm)).trans ?_⟩
    have hzero : missingTables s (u64 (virt + offset)) = 0 :=
      (missingTables_congr hpath₀).trans (missingTables_of_mapped hm)
    have hfirst := h.vmmMap_count hkeep₀ (u64 (phys + offset)) flags hnull (by omega)
    omega

/-- **A window within one page table** is mapped exactly if there is a page for each table that is
missing for it, and then these pages are taken. -/
theorem vmmMapRange_window (h : PageTree (s.only root keep) top root)
    (hkeep : keep (pml4Index virt) = true) (hnull : ¬ s.pmm.Free null)
    (hpres : flags.testBit 0 = true) (hvirt : virt < 2 ^ 64) (hsize : 0 < size)
    (hfew : size ≤ 512 * pageSize)
    (hpath : ∀ k < (size + pageSize - 1) / pageSize,
      tablePath (virt + k * pageSize) = tablePath virt) :
    ((vmmMapRange s virt phys size flags).Mapped virt ↔
        missingTables s virt ≤ s.pmm.freePages) ∧
      (missingTables s virt ≤ s.pmm.freePages →
        (vmmMapRange s virt phys size flags).pmm.freePages + missingTables s virt =
          s.pmm.freePages) := by
  have hpages := (pages_bounds size).2
  rw [pageSize_eq] at hfew
  obtain ⟨n, hn⟩ : ∃ n, (size + pageSize - 1) / pageSize = n + 1 := by
    refine Nat.exists_eq_succ_of_ne_zero (Nat.ne_of_gt (Nat.div_pos ?_ ?_))
    · omega
    · simp [pageSize_eq]
  rw [hn] at hpath hpages
  rw [pageSize_eq] at hpages
  have hlt : n < 512 := by omega
  have hfirst : u64 (virt + 0) = virt := u64_of_lt hvirt
  have htables := (ensureTables_region h hkeep hnull).1
  have htree := (h.vmmMap_entry virt (u64 (phys + 0)) flags hkeep).1
  have hnull' : ¬ (vmmMap s virt (u64 (phys + 0)) flags).pmm.Free null :=
    fun hfree => hnull ((takes_vmmMap ..).free hfree)
  have hshift (k : ℕ) : 0 + pageSize + k * pageSize = (k + 1) * pageSize := by
    rw [Nat.succ_mul]
    omega
  obtain ⟨hmapped, hcount⟩ := @PageTree.mapRange_shared _ top root virt phys flags n (0 + pageSize)
    keep htree hkeep hnull' (fun k hk => by rw [hshift]; exact hpath (k + 1) (by omega))
    (fun k hk => by rw [hshift, ne_eq, pageOf_eq_iff, pageSize_eq]; omega)
  have hstart := h.vmmMap_mapped_iff hkeep (u64 (phys + 0)) hpres
  rw [htables] at hstart
  unfold vmmMapRange
  rw [hn, mapRangeLoop, hfirst]
  refine ⟨hmapped.trans hstart, fun hroom => ?_⟩
  rw [hcount (hstart.mpr hroom)]
  exact h.vmmMap_count hkeep _ _ hnull hroom

end Bethany
