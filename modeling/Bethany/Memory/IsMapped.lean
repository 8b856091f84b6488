import Bethany.Memory.AllocPage

/-!
# Queries and removals that allocate

`vmm_is_mapped` and `vmm_unmap` go down the tables by `ensure_table`, as `vmm_map` does, and not by
`next_table`, as `vmm_translate` does.  Where a table is missing they make one.

* the source: `vmmIsMapped`;
* `walkFrom`, `Vmm.Mapped`: the walk of `vmm_translate`, and the entry it should find;
* `Vmm.LacksTable`: the walk ends at an entry that is not present;
* `ensureFrom_of_there`, `ensureFrom_of_full`, `ensureFrom_takes`: what `ensure_table` does on the
  way down in each case;
* `vmmIsMapped_iff`, `vmmUnmap_iff`, `queries_iff`: when the two functions leave all as it was;
* `vmmTranslate_of_queries`: then the answer is that of `vmm_translate`.

Nothing is assumed here about the tables or the allocator.
-/

namespace Bethany

open Machine

/-- `vmm_is_mapped` -/
def vmmIsMapped (s : Vmm) (virt : ℕ) : Bool × Vmm :=
  match ensureTables s virt with
  | (pt, s) => if pt = null then (false, s) else (entryPresent (readEntry s pt (ptIndex virt)), s)

/-- The table that `next_table` leads to, from the one that level `n` reads on, or the null
pointer. -/
def walkFrom (s : Vmm) (virt : ℕ) : ℕ → ℕ → ℕ
  | 0, table => table
  | n + 1, table =>
      let next := nextTable s table (Paging.index (n + 1) virt)
      if next = null then null else walkFrom s virt n next

/-- The page table for `virt` that the walk of `vmm_translate` reaches, or the null pointer. -/
def Vmm.pageTable (s : Vmm) (virt : ℕ) : ℕ := walkFrom s virt 3 s.pml4

/-- The walk of `vmm_translate` reaches a present leaf entry. -/
def Vmm.Mapped (s : Vmm) (virt : ℕ) : Prop :=
  s.pageTable virt ≠ null ∧ entryPresent (readEntry s (s.pageTable virt) (ptIndex virt)) = true

instance (s : Vmm) (virt : ℕ) : Decidable (s.Mapped virt) :=
  inferInstanceAs (Decidable (_ ∧ _))

/-- The walk comes to an entry of an upper table that is not present. -/
def lacksFrom (s : Vmm) (virt : ℕ) : ℕ → ℕ → Prop
  | 0, _ => False
  | n + 1, table =>
      entryPresent (readEntry s table (Paging.index (n + 1) virt)) = false ∨
        (nextTable s table (Paging.index (n + 1) virt) ≠ null ∧
          lacksFrom s virt n (nextTable s table (Paging.index (n + 1) virt)))

/-- A table is missing for `virt`. -/
def Vmm.LacksTable (s : Vmm) (virt : ℕ) : Prop := lacksFrom s virt 3 s.pml4

/-- Every bit of the bitmap is set. -/
def Pmm.Full (s : Pmm) : Prop := ∀ bit < s.pageCount, s.Used bit

/-- The allocator and all page table entries are the same. -/
structure Vmm.Unchanged (s s' : Vmm) : Prop where
  pmm : s'.pmm = s.pmm
  entries : ∀ table index, readEntry s' table index = readEntry s table index

variable {s : Vmm} {p : Pmm} {virt n table i bit : ℕ}

theorem Vmm.Unchanged.refl (s : Vmm) : s.Unchanged s := ⟨rfl, fun _ _ => rfl⟩

/-! ### The walk of `vmm_translate` -/

theorem translateFrom_eq_walk (s : Vmm) (virt n table : ℕ) (hne : table ≠ null) :
    translateFrom s virt n table =
      if walkFrom s virt n table = null then 0
      else translateFrom s virt 0 (walkFrom s virt n table) := by
  induction n generalizing table with
  | zero => simp [walkFrom, hne]
  | succ n ih =>
    simp only [translateFrom, walkFrom]
    by_cases hnull : nextTable s table (Paging.index (n + 1) virt) = null
    · simp [hnull]
    · simpa only [if_neg hnull, translateFrom] using ih _ hnull

/-- `vmm_translate` gives the address in the leaf entry, if the walk reaches a present one. -/
theorem vmmTranslate_eq_leaf (hpml4 : s.pml4 ≠ null) :
    (s.Mapped virt → vmmTranslate s virt =
      entryAddress (readEntry s (s.pageTable virt) (ptIndex virt)) + pageOffset virt) ∧
    (¬ s.Mapped virt → vmmTranslate s virt = 0) := by
  rw [vmmTranslate_eq_from, translateFrom_eq_walk s virt 3 _ hpml4]
  unfold Vmm.Mapped Vmm.pageTable
  simp only [translateFrom, ptIndex_eq]
  constructor
  · rintro ⟨hnull, hpres⟩
    simp [hnull, hpres]
  · intro hmapped
    by_cases hnull : walkFrom s virt 3 s.pml4 = null
    · simp [hnull]
    · simp [hnull, Bool.eq_false_iff.mpr fun hpres => hmapped ⟨hnull, hpres⟩]

/-- Where a table is missing, the walk does not reach a page table. -/
theorem walkFrom_of_lacks (h : lacksFrom s virt n table) : walkFrom s virt n table = null := by
  induction n generalizing table with
  | zero => exact absurd h id
  | succ n ih =>
    simp only [walkFrom]
    obtain habsent | ⟨hne, hrest⟩ := h
    · simp [nextTable, habsent]
    · rw [if_neg hne, ih hrest]

/-! ### The allocator -/

theorem allocLoop_of_used (h : ∀ bit, i ≤ bit → bit < i + n → p.Used bit) :
    allocLoop p n i = (null, p) := by
  induction n generalizing i with
  | zero => rfl
  | succ n ih =>
    have hused : bitmapTest p i ≠ 0 := h i le_rfl (by omega)
    rw [allocLoop, if_pos hused]
    exact ih fun bit hlo hhi => h bit (by omega) (by omega)

/-- The loop sets a bit that was clear, if there is one. -/
theorem allocLoop_takes (hlo : i ≤ bit) (hhi : bit < i + n) (hclear : ¬ p.Used bit) :
    ∃ taken, ¬ p.Used taken ∧ (allocLoop p n i).2.Used taken := by
  induction n generalizing i with
  | zero => omega
  | succ n ih =>
    rw [allocLoop]
    split_ifs with hused
    · refine ih ?_ (by omega)
      refine Nat.lt_of_le_of_ne hlo ?_
      rintro rfl
      exact hclear hused
    · refine ⟨i, hused, ?_⟩
      have hset : (bitmapSet p i).Used i := (used_bitmapSet p i i).mpr (.inl rfl)
      cases pageAddress p.usable i with
      | some page => exact hset
      | none => exact (Pmm.Takes.allocLoop (bitmapSet p i) n (i + 1)).used i hset

theorem Pmm.Full.alloc (h : p.Full) : pmmAllocPage p = (null, p) :=
  allocLoop_of_used fun bit _ hbit => h bit (by omega)

/-- An allocation takes a page, unless all are taken. -/
theorem pmmAllocPage_takes (h : ¬ p.Full) :
    ∃ taken, ¬ p.Used taken ∧ (pmmAllocPage p).2.Used taken := by
  unfold Pmm.Full at h
  push Not at h
  obtain ⟨bit, hbit, hclear⟩ := h
  exact allocLoop_takes (Nat.zero_le bit) (by omega) hclear

/-! ### `ensure_table` on the way down -/

theorem ensureTable_of_present (h : entryPresent (readEntry s table i) = true) :
    ensureTable s table i = (nextTable s table i, s) := by
  simp [ensureTable, h]

theorem ensureTable_of_full (h : entryPresent (readEntry s table i) = false) (hfull : s.pmm.Full) :
    ensureTable s table i = (null, s) := by
  simp [ensureTable, h, hfull.alloc]

theorem ensureTable_of_absent (h : entryPresent (readEntry s table i) = false) :
    (ensureTable s table i).2.pmm = (pmmAllocPage s.pmm).2 := by
  simp only [ensureTable, h, Bool.false_eq_true, if_false]
  split_ifs
  · rfl
  · simp only [writeEntry, clearTable_pmm]

theorem takes_ensureFrom (s : Vmm) (virt n table : ℕ) :
    s.pmm.Takes (ensureFrom s virt n table).2.pmm := by
  induction n generalizing s table with
  | zero => exact .refl s.pmm
  | succ n ih =>
    have hfirst := takes_ensureTable s table (Paging.index (n + 1) virt)
    simp only [ensureFrom]
    split_ifs
    · exact hfirst
    · exact hfirst.trans (ih _ _)

/-- Where no table is missing, nothing happens on the way to the page table. -/
theorem ensureFrom_of_there (h : ¬ lacksFrom s virt n table) :
    ensureFrom s virt n table = (walkFrom s virt n table, s) := by
  induction n generalizing table with
  | zero => rfl
  | succ n ih =>
    obtain ⟨hpres, hrest⟩ := not_or.mp h
    simp only [ensureFrom, walkFrom, ensureTable_of_present (Bool.not_eq_false _ ▸ hpres)]
    by_cases hnull : nextTable s table (Paging.index (n + 1) virt) = null
    · simp [hnull]
    · simp [hnull, ih fun hlacks => hrest ⟨hnull, hlacks⟩]

/-- Where a table is missing and no page is left, nothing happens either. -/
theorem ensureFrom_of_full (hfull : s.pmm.Full) (h : lacksFrom s virt n table) :
    ensureFrom s virt n table = (null, s) := by
  induction n generalizing table with
  | zero => exact absurd h id
  | succ n ih =>
    simp only [ensureFrom]
    obtain habsent | ⟨hne, hrest⟩ := h
    · simp [ensureTable_of_full habsent hfull]
    · cases hpres : entryPresent (readEntry s table (Paging.index (n + 1) virt)) with
      | false => simp [ensureTable_of_full hpres hfull]
      | true => simp [ensureTable_of_present hpres, hne, ih hrest]

/-- Where a table is missing and a page is left, a page is taken. -/
theorem ensureFrom_takes (hroom : ¬ s.pmm.Full) (h : lacksFrom s virt n table) :
    ∃ taken, ¬ s.pmm.Used taken ∧ (ensureFrom s virt n table).2.pmm.Used taken := by
  induction n generalizing table with
  | zero => exact absurd h id
  | succ n ih =>
    simp only [ensureFrom]
    cases hpres : entryPresent (readEntry s table (Paging.index (n + 1) virt)) with
    | false =>
      obtain ⟨taken, hclear, hused⟩ := pmmAllocPage_takes hroom
      rw [← ensureTable_of_absent hpres] at hused
      refine ⟨taken, hclear, ?_⟩
      split_ifs
      · exact hused
      · exact (takes_ensureFrom _ _ _ _).used taken hused
    | true =>
      obtain ⟨hne, hrest⟩ := h.resolve_left (by simp [hpres])
      simpa [ensureTable_of_present hpres, hne] using ih hrest

/-! ### The two functions -/

/-- The walk of `vmm_translate` needs no new table, or there is no page for one. -/
def Vmm.NeedsNoPage (s : Vmm) (virt : ℕ) : Prop := s.LacksTable virt → s.pmm.Full

/-- If no page is taken, the way down leads to where `vmm_translate` gets, and changes nothing. -/
theorem ensureTables_of_needsNoPage (h : s.NeedsNoPage virt) :
    ensureTables s virt = (s.pageTable virt, s) := by
  rw [ensureTables_eq_from]
  by_cases hlacks : s.LacksTable virt
  · rw [ensureFrom_of_full (h hlacks) hlacks, Vmm.pageTable, walkFrom_of_lacks hlacks]
  · exact ensureFrom_of_there hlacks

/-- Otherwise a page is taken. -/
theorem ensureTables_takes (h : ¬ s.NeedsNoPage virt) : (ensureTables s virt).2.pmm ≠ s.pmm := by
  obtain ⟨hlacks, hroom⟩ := Classical.not_imp.mp h
  obtain ⟨taken, hclear, hused⟩ := ensureFrom_takes hroom hlacks
  intro heq
  rw [ensureTables_eq_from] at heq
  rw [heq] at hused
  exact hclear hused

theorem vmmIsMapped_pmm (s : Vmm) (virt : ℕ) :
    (vmmIsMapped s virt).2.pmm = (ensureTables s virt).2.pmm := by
  simp only [vmmIsMapped]
  split_ifs <;> rfl

theorem vmmUnmap_pmm (s : Vmm) (virt : ℕ) :
    (vmmUnmap s virt).pmm = (ensureTables s virt).2.pmm := by
  simp only [vmmUnmap]
  split_ifs <;> rfl

/-- **`vmm_is_mapped`** answers and leaves all as it was exactly if it needs no new table, or
there is no page for one. -/
theorem vmmIsMapped_iff (s : Vmm) (virt : ℕ) :
    (s.Unchanged (vmmIsMapped s virt).2 ∧ ((vmmIsMapped s virt).1 = true ↔ s.Mapped virt)) ↔
      s.NeedsNoPage virt := by
  constructor
  · rintro ⟨hsame, -⟩
    by_contra h
    exact ensureTables_takes h ((vmmIsMapped_pmm s virt).symm.trans hsame.pmm)
  · intro h
    unfold vmmIsMapped Vmm.Mapped
    rw [ensureTables_of_needsNoPage h]
    by_cases hnull : s.pageTable virt = null
    · simp [hnull, Vmm.Unchanged.refl]
    · simp [hnull, Vmm.Unchanged.refl]

/-- **`vmm_unmap`** leaves all as it was exactly if it needs no new table, or there is no page for
one, and the leaf entry, if there is one, is zero. -/
theorem vmmUnmap_iff (s : Vmm) (virt : ℕ) :
    s.Unchanged (vmmUnmap s virt) ↔ s.NeedsNoPage virt ∧
      (s.pageTable virt ≠ null → readEntry s (s.pageTable virt) (ptIndex virt) = 0) := by
  by_cases h : s.NeedsNoPage virt
  · simp only [h, true_and]
    unfold vmmUnmap
    rw [ensureTables_of_needsNoPage h]
    by_cases hnull : s.pageTable virt = null
    · simp [hnull, Vmm.Unchanged.refl]
    · simp only [ne_eq, hnull, not_false_eq_true, true_imp_iff]
      constructor
      · intro hsame
        rw [← hsame.entries]
        simp [readEntry, writeEntry, physOf, load_store_same]
      · intro hzero
        have hstore : writeEntry s (s.pageTable virt) (ptIndex virt) 0 = s := by
          unfold readEntry at hzero
          unfold writeEntry
          rw [← hzero, store_load]
        rw [hstore]
        exact .refl s
  · refine iff_of_false (fun hsame => ?_) fun hok => h hok.1
    exact ensureTables_takes h ((vmmUnmap_pmm s virt).symm.trans hsame.pmm)

/-- **Queries and removals of nothing allocate nothing** exactly if no table is missing on the way
to the page table, or no page is left for it, and a leaf entry that is not present is zero. -/
theorem queries_iff (s : Vmm) (virt : ℕ) :
    ((s.Unchanged (vmmIsMapped s virt).2 ∧ ((vmmIsMapped s virt).1 = true ↔ s.Mapped virt)) ∧
        (¬ s.Mapped virt → s.Unchanged (vmmUnmap s virt))) ↔
      s.NeedsNoPage virt ∧ (s.pageTable virt ≠ null → ¬ s.Mapped virt →
        readEntry s (s.pageTable virt) (ptIndex virt) = 0) := by
  rw [vmmIsMapped_iff]
  refine and_congr_right fun h => ?_
  constructor
  · intro hunmap hnull hunmapped
    exact ((vmmUnmap_iff _ _).mp (hunmap hunmapped)).2 hnull
  · intro hzero hunmapped
    exact (vmmUnmap_iff _ _).mpr ⟨h, fun hnull => hzero hnull hunmapped⟩

/-- The answer says whether `vmm_translate` has an address in a leaf entry to return. -/
theorem vmmTranslate_of_queries (hpml4 : s.pml4 ≠ null) (h : s.NeedsNoPage virt) :
    vmmTranslate s virt = if (vmmIsMapped s virt).1 then
      entryAddress (readEntry s (s.pageTable virt) (ptIndex virt)) + pageOffset virt else 0 := by
  obtain ⟨-, hanswer⟩ := (vmmIsMapped_iff s virt).mpr h
  obtain ⟨hleaf, hnone⟩ := @vmmTranslate_eq_leaf s virt hpml4
  by_cases hmapped : s.Mapped virt
  · rw [hleaf hmapped, if_pos (hanswer.mpr hmapped)]
  · rw [hnone hmapped, if_neg (hanswer.not.mpr hmapped)]

/-- With an empty `pml4` and eight free pages, asking for a page takes three of them. -/
theorem vmmIsMapped_allocates :
    PageTree exampleVmm 0xa000 0x1000 ∧ ¬ exampleVmm.Mapped 0x400000 ∧
      ¬ exampleVmm.Unchanged (vmmIsMapped exampleVmm 0x400000).2 ∧
      ¬ exampleVmm.Unchanged (vmmUnmap exampleVmm 0x400000) := by
  have hlacks : exampleVmm.LacksTable 0x400000 := .inl (by decide)
  have hneeds : ¬ exampleVmm.NeedsNoPage 0x400000 := fun h => h hlacks 0 (by decide) (by decide)
  have hunmapped : ¬ exampleVmm.Mapped 0x400000 := fun h => h.1 (walkFrom_of_lacks hlacks)
  refine ⟨exampleVmm_tree, hunmapped, fun hsame => ?_, fun hsame => ?_⟩
  · exact ensureTables_takes hneeds ((vmmIsMapped_pmm _ _).symm.trans hsame.pmm)
  · exact hneeds ((vmmUnmap_iff _ _).mp hsame).1

end Bethany
