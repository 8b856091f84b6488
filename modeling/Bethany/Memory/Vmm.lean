import Bethany.Memory.Pmm
import Bethany.Library.Walk
import Mathlib.Data.Nat.Bitwise

/-!
# The virtual memory manager

`vmm.c` keeps the four levels of page tables in physical memory and reaches every table
through the direct map at `hhdm_offset`.  A `page_table_t *` is the number of its virtual
address; `physOf` undoes the direct map when the pointer is dereferenced.

* the source: `vmmTranslate`, `ensureTable`, `vmmMap`, `vmmUnmap` and the entry accessors;
* `mapRangeRounds_eq`, `mapRangeRounds_endless`: when the loop of `vmm_map_range` ends;
* `readEntry_ptr`, `writeEntry_ptr`, `clearTable_ptr`: what the accesses through a pointer
  into the direct map do to the frame behind it;
* `entryAddress_or`, `entryPresent_or`: an entry made of an address and flags gives both back.
-/

namespace Bethany

open Machine

/-! ### Entries -/

/-- `PAGE_PRESENT` -/
def pagePresent : ℕ := 1 <<< 0
/-- `PAGE_WRITABLE` -/
def pageWritable : ℕ := 1 <<< 1
/-- `PAGE_WRITE_TROUGH` -/
def pageWriteTrough : ℕ := 1 <<< 3
/-- `PAGE_CACHE_DISABLE` -/
def pageCacheDisable : ℕ := 1 <<< 4
/-- `PAGE_HUGE` -/
def pageHuge : ℕ := 1 <<< 7

/-- `entry_present` -/
def entryPresent (entry : ℕ) : Bool := entry &&& 1 != 0

/-- `entry_address` -/
def entryAddress (entry : ℕ) : ℕ := entry &&& 0x000FFFFFFFFFF000

/-- `pml4_index` -/
def pml4Index (addr : ℕ) : ℕ := addr >>> 39 &&& 0x1FF
/-- `pdpt_index` -/
def pdptIndex (addr : ℕ) : ℕ := addr >>> 30 &&& 0x1FF
/-- `pd_index` -/
def pdIndex (addr : ℕ) : ℕ := addr >>> 21 &&& 0x1FF
/-- `pt_index` -/
def ptIndex (addr : ℕ) : ℕ := addr >>> 12 &&& 0x1FF
/-- `page_offset` -/
def pageOffset (addr : ℕ) : ℕ := addr &&& 0xFFF

/-! ### The state and accesses to it -/

/-- Physical memory, the frame allocator and the static variables of `vmm.c`. -/
structure Vmm where
  mem : Mem
  pmm : Pmm
  pml4 : ℕ
  hhdmOffset : ℕ

/-- The physical address behind a pointer into the direct map. -/
def physOf (s : Vmm) (ptr : ℕ) : ℕ := u64 (ptr + (2 ^ 64 - s.hhdmOffset))

/-- `(*table)[index]` -/
def readEntry (s : Vmm) (table index : ℕ) : ℕ := load s.mem (physOf s (table + 8 * index)) 8

/-- `(*table)[index] = entry` -/
def writeEntry (s : Vmm) (table index entry : ℕ) : Vmm :=
  { s with mem := store s.mem (physOf s (table + 8 * index)) 8 entry }

/-- `vmm_init`, where `cr3` is the value read from the register. -/
def vmmInit (s : Vmm) (hhdm cr3 : ℕ) : Vmm :=
  { s with hhdmOffset := hhdm, pml4 := u64 (cr3 + hhdm) }

/-- `next_table` -/
def nextTable (s : Vmm) (table index : ℕ) : ℕ :=
  let entry := readEntry s table index
  if !entryPresent entry then null else u64 (entryAddress entry + s.hhdmOffset)

/-- `vmm_translate` -/
def vmmTranslate (s : Vmm) (virt : ℕ) : ℕ :=
  let pdpt := nextTable s s.pml4 (pml4Index virt)
  if pdpt = null then 0
  else
    let pd := nextTable s pdpt (pdptIndex virt)
    if pd = null then 0
    else
      let pt := nextTable s pd (pdIndex virt)
      if pt = null then 0
      else
        let pte := readEntry s pt (ptIndex virt)
        if !entryPresent pte then 0 else entryAddress pte + pageOffset virt

/-- `clear_table` -/
def clearTable (s : Vmm) (table : ℕ) : Vmm :=
  (List.range 512).foldl (fun s i => writeEntry s table i 0) s

/-- `ensure_table` -/
def ensureTable (s : Vmm) (table index : ℕ) : ℕ × Vmm :=
  let entry := readEntry s table index
  if entryPresent entry then (nextTable s table index, s)
  else
    let phys := (pmmAllocPage s.pmm).1
    let s := { s with pmm := (pmmAllocPage s.pmm).2 }
    if phys = null then (null, s)
    else
      let newTable := u64 (phys + s.hhdmOffset)
      let s := clearTable s newTable
      (newTable, writeEntry s table index (phys ||| pagePresent ||| pageWritable))

/-- The three calls of `ensure_table` that `vmm_map`, `vmm_unmap` and `vmm_is_mapped` start
with: the page table for `virt`, or the null pointer when one of them fails. -/
def ensureTables (s : Vmm) (virt : ℕ) : ℕ × Vmm :=
  match ensureTable s s.pml4 (pml4Index virt) with
  | (pdpt, s) =>
      if pdpt = null then (null, s)
      else
        match ensureTable s pdpt (pdptIndex virt) with
        | (pd, s) => if pd = null then (null, s) else ensureTable s pd (pdIndex virt)

/-- `vmm_map` -/
def vmmMap (s : Vmm) (virt phys flags : ℕ) : Vmm :=
  match ensureTables s virt with
  | (pt, s) => if pt = null then s else writeEntry s pt (ptIndex virt) (phys ||| flags)

/-- `vmm_unmap` -/
def vmmUnmap (s : Vmm) (virt : ℕ) : Vmm :=
  match ensureTables s virt with
  | (pt, s) => if pt = null then s else writeEntry s pt (ptIndex virt) 0

/-- `vmm_alloc_page` -/
def vmmAllocPage (s : Vmm) (virt flags : ℕ) : Bool × Vmm :=
  let phys := (pmmAllocPage s.pmm).1
  let s := { s with pmm := (pmmAllocPage s.pmm).2 }
  if phys = null then (false, s) else (true, vmmMap s virt phys flags)

/-- The loop of `vmm_map_range`, with the 64-bit `offset` of the source, for so many rounds. -/
def mapRangeRounds (virt phys size flags : ℕ) : ℕ → ℕ → Vmm → Option Vmm
  | 0, _, _ => none
  | n + 1, offset, s =>
      if offset < size then
        mapRangeRounds virt phys size flags n (u64 (offset + pageSize))
          (vmmMap s (u64 (virt + offset)) (u64 (phys + offset)) flags)
      else some s

/-- The calls of `vmm_map` for `n` pages from `offset` on. -/
def mapRangeLoop (virt phys flags : ℕ) : ℕ → ℕ → Vmm → Vmm
  | 0, _, s => s
  | n + 1, offset, s =>
      mapRangeLoop virt phys flags n (offset + pageSize)
        (vmmMap s (u64 (virt + offset)) (u64 (phys + offset)) flags)

/-- `vmm_map_range`, for a `size` up to `2 ^ 64 - PAGE_SIZE`: one call of `vmm_map` for each page
that `size` starts. -/
def vmmMapRange (s : Vmm) (virt phys size flags : ℕ) : Vmm :=
  mapRangeLoop virt phys flags ((size + pageSize - 1) / pageSize) 0 s

/-! ### The loop of `vmm_map_range` -/

section

variable {virt phys size flags n offset : ℕ} {s : Vmm}

theorem mapRangeRounds_loop (hsize : size + pageSize ≤ 2 ^ 64)
    (hn : n = (size - offset + pageSize - 1) / pageSize) :
    mapRangeRounds virt phys size flags (n + 1) offset s =
      some (mapRangeLoop virt phys flags n offset s) := by
  rw [pageSize_eq] at hsize hn
  induction n generalizing offset s with
  | zero => exact if_neg (by omega)
  | succ n ih =>
    have hnext : u64 (offset + pageSize) = offset + pageSize :=
      u64_of_lt (by rw [pageSize_eq]; omega)
    rw [mapRangeRounds, if_pos (by omega), hnext]
    exact ih (by rw [pageSize_eq]; omega)

/-- The loop ends, and has called `vmm_map` once for each page. -/
theorem mapRangeRounds_eq (hsize : size + pageSize ≤ 2 ^ 64) :
    mapRangeRounds virt phys size flags ((size + pageSize - 1) / pageSize + 1) 0 s =
      some (vmmMapRange s virt phys size flags) :=
  mapRangeRounds_loop hsize (by rw [Nat.sub_zero])

/-- With a larger `size` the offset wraps around before it gets there, and the loop does not
end. -/
theorem mapRangeRounds_endless (hsize : 2 ^ 64 < size + pageSize) (hoffset : offset < 2 ^ 64)
    (hdvd : pageSize ∣ offset) : mapRangeRounds virt phys size flags n offset s = none := by
  induction n generalizing offset s with
  | zero => rfl
  | succ n ih =>
    rw [pageSize_eq] at hsize hdvd
    rw [mapRangeRounds, if_pos (by omega)]
    refine ih (Nat.mod_lt _ (by norm_num)) ?_
    rw [u64, pageSize_eq]
    omega

end

/-! ### Pages taken -/

theorem clearTable_pmm (s : Vmm) (table : ℕ) : (clearTable s table).pmm = s.pmm := by
  unfold clearTable
  induction List.range 512 generalizing s with
  | nil => rfl
  | cons i is ih => exact ih (writeEntry s table i 0)

theorem takes_ensureTable (s : Vmm) (table index : ℕ) :
    s.pmm.Takes (ensureTable s table index).2.pmm := by
  simp only [ensureTable]
  split_ifs
  · exact .refl s.pmm
  · exact .alloc s.pmm
  · simp only [writeEntry, clearTable_pmm]
    exact .alloc s.pmm

theorem takes_ensureTables (s : Vmm) (virt : ℕ) : s.pmm.Takes (ensureTables s virt).2.pmm := by
  have h₄ := takes_ensureTable s s.pml4 (pml4Index virt)
  unfold ensureTables
  generalize ensureTable s s.pml4 (pml4Index virt) = x₄ at h₄ ⊢
  obtain ⟨pdpt, s₄⟩ := x₄
  dsimp only at h₄ ⊢
  by_cases hn₄ : pdpt = null
  · rwa [if_pos hn₄]
  rw [if_neg hn₄]
  have h₃ := takes_ensureTable s₄ pdpt (pdptIndex virt)
  generalize ensureTable s₄ pdpt (pdptIndex virt) = x₃ at h₃ ⊢
  obtain ⟨pd, s₃⟩ := x₃
  dsimp only at h₃ ⊢
  by_cases hn₃ : pd = null
  · rw [if_pos hn₃]
    exact h₄.trans h₃
  · rw [if_neg hn₃]
    exact (h₄.trans h₃).trans (takes_ensureTable s₃ pd (pdIndex virt))

/-- `vmm_map` returns no page to the allocator. -/
theorem takes_vmmMap (s : Vmm) (virt phys flags : ℕ) :
    s.pmm.Takes (vmmMap s virt phys flags).pmm := by
  have h := takes_ensureTables s virt
  unfold vmmMap
  generalize ensureTables s virt = x at h ⊢
  obtain ⟨pt, s'⟩ := x
  dsimp only at h ⊢
  split_ifs <;> exact h

/-- Nor does `vmm_map_range`. -/
theorem takes_mapRangeLoop (s : Vmm) (virt phys flags n offset : ℕ) :
    s.pmm.Takes (mapRangeLoop virt phys flags n offset s).pmm := by
  induction n generalizing s offset with
  | zero => exact .refl _
  | succ n ih => exact (takes_vmmMap ..).trans (ih ..)

/-! ### Bits of entries and addresses -/

theorem testBit_addressMask (i : ℕ) :
    (0x000FFFFFFFFFF000 : ℕ).testBit i = decide (12 ≤ i ∧ i < 52) := by
  have h : (0x000FFFFFFFFFF000 : ℕ) = (2 ^ 40 - 1) <<< 12 := by decide
  rw [h, Nat.testBit_shiftLeft, Nat.testBit_two_pow_sub_one]
  by_cases hi : 12 ≤ i
  · have : i - 12 < 40 ↔ i < 52 := by omega
    simp [hi, this]
  · simp [hi]

theorem testBit_entryAddress (entry i : ℕ) :
    (entryAddress entry).testBit i = (entry.testBit i && decide (12 ≤ i ∧ i < 52)) := by
  rw [entryAddress, Nat.testBit_and, testBit_addressMask]

theorem entryPresent_eq_testBit (entry : ℕ) : entryPresent entry = entry.testBit 0 := by
  rw [entryPresent, Nat.testBit_zero, Nat.and_one_is_mod]
  rcases Nat.mod_two_eq_zero_or_one entry with h | h <;> simp [h]

/-- A page-aligned physical address has bits 12 to 51 only. -/
theorem testBit_of_aligned {phys i : ℕ} (h : pageSize ∣ phys) (hlt : phys < 2 ^ 52)
    (hi : ¬ (12 ≤ i ∧ i < 52)) : phys.testBit i = false := by
  rcases Nat.lt_or_ge i 12 with hlow | hhigh
  · obtain ⟨k, rfl⟩ := h
    rw [pageSize_eq, show (4096 : ℕ) = 2 ^ 12 by norm_num, Nat.testBit_two_pow_mul]
    simp
    omega
  · refine Nat.testBit_lt_two_pow (lt_of_lt_of_le hlt ?_)
    exact Nat.pow_le_pow_right (by norm_num) (by omega)

/-- The address in an entry made of a page address and flags outside bits 12 to 51. -/
theorem entryAddress_or {phys flags : ℕ} (h : pageSize ∣ phys) (hlt : phys < 2 ^ 52)
    (hflags : ∀ i, 12 ≤ i → i < 52 → flags.testBit i = false) :
    entryAddress (phys ||| flags) = phys := by
  apply Nat.eq_of_testBit_eq
  intro i
  rw [testBit_entryAddress, Nat.testBit_or]
  by_cases hi : 12 ≤ i ∧ i < 52
  · simp [hi, hflags i hi.1 hi.2]
  · simp [hi, testBit_of_aligned h hlt hi]

/-- Flags below bit 12 are no part of an address. -/
theorem flags_testBit {flags i : ℕ} (h : flags < 2 ^ 12) (hi : 12 ≤ i) : flags.testBit i = false :=
  Nat.testBit_lt_two_pow (lt_of_lt_of_le h (Nat.pow_le_pow_right (by norm_num) hi))

theorem entryPresent_or {phys flags : ℕ} (hflags : flags.testBit 0 = true) :
    entryPresent (phys ||| flags) = true := by
  rw [entryPresent_eq_testBit, Nat.testBit_or, hflags, Bool.or_true]

/-- Storing an entry cuts it to 64 bits, which neither accessor notices. -/
theorem entryAddress_mod (entry : ℕ) : entryAddress (entry % 2 ^ 64) = entryAddress entry := by
  apply Nat.eq_of_testBit_eq
  intro i
  rw [testBit_entryAddress, testBit_entryAddress, Nat.testBit_mod_two_pow]
  by_cases hi : 12 ≤ i ∧ i < 52
  · have : i < 64 := by omega
    simp [this]
  · simp [hi]

theorem entryPresent_mod (entry : ℕ) : entryPresent (entry % 2 ^ 64) = entryPresent entry := by
  rw [entryPresent_eq_testBit, entryPresent_eq_testBit, Nat.testBit_mod_two_pow]
  simp

/-- An entry is not marked `PAGE_HUGE` when bit 7 is clear. -/
theorem and_pageHuge {entry : ℕ} (h : entry.testBit 7 = false) : entry &&& pageHuge = 0 := by
  rw [show pageHuge = 2 ^ 7 from rfl, Nat.and_two_pow, h]
  rfl

/-- The entry made for a new table. -/
theorem tableFlags (phys : ℕ) : phys ||| pagePresent ||| pageWritable = phys ||| 3 := by
  rw [Nat.or_assoc]
  rfl

theorem pageOffset_eq (addr : ℕ) : pageOffset addr = addr % pageSize :=
  Nat.and_two_pow_sub_one_eq_mod addr 12

theorem index_eq (addr k : ℕ) : addr >>> k &&& 0x1FF = addr / 2 ^ k % 512 := by
  rw [Nat.shiftRight_eq_div_pow]
  exact Nat.and_two_pow_sub_one_eq_mod _ 9

theorem index_lt (addr k : ℕ) : addr >>> k &&& 0x1FF < 512 := by
  rw [index_eq]
  exact Nat.mod_lt _ (by norm_num)

/-! ### Accesses through the direct map -/

/-- The direct map covers the physical memory below `top` without wrapping around, and
physical addresses fit an entry. -/
structure DirectMap (hhdm top : ℕ) : Prop where
  pos : 0 < hhdm
  fits : hhdm + top ≤ 2 ^ 64
  top_le : top ≤ 2 ^ 52

variable {s : Vmm} {top f : ℕ}

theorem physOf_ptr (hd : DirectMap s.hhdmOffset top) {k : ℕ} (hk : f + k < top) :
    physOf s (f + s.hhdmOffset + k) = f + k := by
  have := hd.fits
  rw [physOf, u64]
  omega

theorem readEntry_ptr (hd : DirectMap s.hhdmOffset top) (hf : f + pageSize ≤ top) (i : Fin 512) :
    readEntry s (f + s.hhdmOffset) i = load s.mem (f + 8 * i) 8 := by
  have hi := i.isLt
  rw [pageSize_eq] at hf
  rw [readEntry, physOf_ptr hd (by omega)]

theorem writeEntry_ptr (hd : DirectMap s.hhdmOffset top) (hf : f + pageSize ≤ top) (i : Fin 512)
    (entry : ℕ) :
    writeEntry s (f + s.hhdmOffset) i entry =
      { s with mem := store s.mem (f + 8 * i) 8 entry } := by
  have hi := i.isLt
  rw [pageSize_eq] at hf
  rw [writeEntry, physOf_ptr hd (by omega)]

/-- Clearing a table zeroes its frame. -/
theorem clearTable_ptr (hd : DirectMap s.hhdmOffset top) (hf : f + pageSize ≤ top) :
    clearTable s (f + s.hhdmOffset) = { s with mem := fill s.mem f pageSize 0 } := by
  have key : ∀ n ≤ 512,
      (List.range n).foldl (fun t i => writeEntry t (f + s.hhdmOffset) i 0) s =
        { s with mem := fill s.mem f (8 * n) 0 } := by
    intro n hn
    induction n with
    | zero => simp [fill_zero_length]
    | succ n ih =>
      rw [List.range_succ, List.foldl_append, ih (by omega), List.foldl_cons, List.foldl_nil]
      have hw := writeEntry_ptr (s := { s with mem := fill s.mem f (8 * n) 0 }) hd hf
        ⟨n, by omega⟩ 0
      dsimp only at hw
      rw [hw, store_zero_fill, Nat.mul_succ]
  exact key 512 le_rfl

end Bethany
