import Bethany.Memory.Vmm
import Bethany.Library.Paging

/-!
# `vmm_translate` against the processor

`vmm_translate` walks the tables that the boot loader has left in `CR3`.  It follows the
processor as long as the four levels are tables of 4 KiB pages, but it looks at no bit 7, and
`vmm_init` takes the whole value of `CR3` for an address.

* `translateFrom`, `vmmTranslate_eq_from`: `vmm_translate` level by level;
* `translateFrom_eq`: without a large page the two walks agree;
* `translateFrom_large`: with one, the walk goes on in the data of that page;
* `vmmInit_flags`: with a flag in `CR3`, the walk starts at a wrong address;
* `vmmTranslate_x86`: when the two agree; `vmmTranslate_huge`: a large page where they do not.
-/

namespace Bethany

open Machine Paging

variable {s : Vmm} {m : Mem} {top t virt n i e hhdm cr3 : ℕ}

/-! ### Entries and indices -/

theorem entryAddress_eq_frame (e : ℕ) : entryAddress e = frame 0 e := by
  unfold frame
  apply Nat.eq_of_testBit_eq
  intro i
  rw [testBit_entryAddress, Nat.testBit_mul_two_pow, Nat.testBit_mod_two_pow,
    Nat.testBit_div_two_pow]
  by_cases hi : 12 ≤ i
  · have hlt : i - 12 < 40 ↔ i < 52 := by omega
    simp [hi, hlt, Bool.and_comm]
  · simp [hi]

theorem pml4Index_eq (virt : ℕ) : pml4Index virt = index 3 virt := index_eq virt 39
theorem pdptIndex_eq (virt : ℕ) : pdptIndex virt = index 2 virt := index_eq virt 30
theorem pdIndex_eq (virt : ℕ) : pdIndex virt = index 1 virt := index_eq virt 21
theorem ptIndex_eq (virt : ℕ) : ptIndex virt = index 0 virt := index_eq virt 12

/-! ### `vmm_translate` level by level -/

/-- The rest of `vmm_translate` when it has got to the table that level `n + 1` reads. -/
def translateFrom (s : Vmm) (virt : ℕ) : ℕ → ℕ → ℕ
  | 0, pt =>
      let pte := readEntry s pt (index 0 virt)
      if !entryPresent pte then 0 else entryAddress pte + pageOffset virt
  | n + 1, table =>
      let next := nextTable s table (index (n + 1) virt)
      if next = null then 0 else translateFrom s virt n next

theorem vmmTranslate_eq_from (s : Vmm) (virt : ℕ) :
    vmmTranslate s virt = translateFrom s virt 3 s.pml4 := by
  simp only [vmmTranslate, translateFrom, pml4Index_eq, pdptIndex_eq, pdIndex_eq, ptIndex_eq]

section DirectMap

variable (hd : DirectMap s.hhdmOffset top)
include hd

theorem readEntry_eq_entry (ht : t + pageSize ≤ top) (hi : i < 512) :
    readEntry s (t + s.hhdmOffset) i = entry s.mem t i := readEntry_ptr hd ht ⟨i, hi⟩

/-- A pointer to a table of the physical memory is not null. -/
theorem ptr_of_below (ht : t + pageSize ≤ top) :
    u64 (t + s.hhdmOffset) = t + s.hhdmOffset ∧ t + s.hhdmOffset ≠ null := by
  have hfits := hd.fits
  have hpos := hd.pos
  rw [pageSize_eq] at ht
  refine ⟨u64_of_lt (by omega), ?_⟩
  rw [null]
  omega

theorem nextTable_of_absent (ht : t + pageSize ≤ top) (hi : i < 512)
    (habsent : (entry s.mem t i).testBit 0 = false) :
    nextTable s (t + s.hhdmOffset) i = null := by
  simp only [nextTable]
  rw [readEntry_eq_entry hd ht hi, entryPresent_eq_testBit, habsent]
  rfl

theorem nextTable_of_present (ht : t + pageSize ≤ top) (hi : i < 512)
    (hpres : (entry s.mem t i).testBit 0 = true)
    (hnext : frame 0 (entry s.mem t i) + pageSize ≤ top) :
    nextTable s (t + s.hhdmOffset) i = frame 0 (entry s.mem t i) + s.hhdmOffset := by
  simp only [nextTable]
  rw [readEntry_eq_entry hd ht hi, entryPresent_eq_testBit, hpres, entryAddress_eq_frame,
    (ptr_of_below hd hnext).1]
  rfl

/-- **Without a large page** the code follows the processor. -/
theorem translateFrom_eq (htables : ∀ t' ∈ tables s.mem virt (n + 1) t, t' + pageSize ≤ top)
    (hsmall : largePage s.mem virt (n + 1) t = none) :
    translateFrom s virt n (t + s.hhdmOffset) = (walk s.mem virt (n + 1) t).getD 0 := by
  induction n generalizing t with
  | zero =>
    have ht := htables t (mem_tables ..)
    have hread := readEntry_eq_entry hd ht (Paging.index_lt 0 virt)
    simp only [translateFrom, hread, entryPresent_eq_testBit]
    cases hpres : (entry s.mem t (index 0 virt)).testBit 0 with
    | false =>
      rw [walk_of_absent hpres]
      rfl
    | true =>
      have hpage : ¬ Large 0 (entry s.mem t (index 0 virt)) := by
        rintro ⟨h | h, -⟩ <;> exact absurd h (by decide)
      rw [walk_of_table hpres hpage, entryAddress_eq_frame, pageOffset_eq, pageSize_eq]
      rfl
  | succ n ih =>
    have ht := htables t (mem_tables ..)
    have hi := Paging.index_lt (n + 1) virt
    simp only [translateFrom]
    cases hpres : (entry s.mem t (index (n + 1) virt)).testBit 0 with
    | false =>
      rw [nextTable_of_absent hd ht hi hpres, walk_of_absent hpres]
      rfl
    | true =>
      have htable : ¬ Large (n + 1) (entry s.mem t (index (n + 1) virt)) := by
        intro hlarge
        rw [largePage_of_large hpres hlarge] at hsmall
        cases hsmall
      rw [tables_of_table hpres htable] at htables
      rw [largePage_of_table hpres htable] at hsmall
      have hnext := htables _ (List.mem_cons_of_mem t (mem_tables ..))
      rw [nextTable_of_present hd ht hi hpres hnext, if_neg (ptr_of_below hd hnext).2,
        walk_of_table hpres htable]
      exact ih (fun t' ht' => htables t' (List.mem_cons_of_mem t ht')) hsmall

/-- The walk through an empty table ends there. -/
theorem translateFrom_of_zero (ht : t + pageSize ≤ top)
    (hzero : ∀ i < 512, entry s.mem t i = 0) :
    translateFrom s virt n (t + s.hhdmOffset) = 0 := by
  have habsent : (entry s.mem t (index n virt)).testBit 0 = false := by
    rw [hzero _ (Paging.index_lt n virt)]
    rfl
  cases n with
  | zero =>
    simp only [translateFrom]
    rw [readEntry_eq_entry hd ht (Paging.index_lt 0 virt), entryPresent_eq_testBit, habsent]
    rfl
  | succ n =>
    simp only [translateFrom]
    rw [nextTable_of_absent hd ht (Paging.index_lt (n + 1) virt) habsent]
    rfl

/-- **At a large page** the code goes on in the data of the page: if it takes a table from there
that is empty, it finds no entry. -/
theorem translateFrom_large (htables : ∀ t' ∈ tables s.mem virt (n + 1) t, t' + pageSize ≤ top)
    {k : ℕ} (hlarge : largePage s.mem virt (n + 1) t = some (k, e))
    (hpage : frame k e + 2 ^ (12 + 9 * k) ≤ top)
    (hzero : ∀ i < 512, entry s.mem (frame 0 e) i = 0) :
    translateFrom s virt n (t + s.hhdmOffset) = 0 := by
  induction n generalizing t with
  | zero =>
    have hnone : largePage s.mem virt 1 t = none := by
      simp only [largePage]
      split_ifs with habsent hlarge
      · rfl
      · obtain ⟨h | h, -⟩ := hlarge <;> exact absurd h (by decide)
      · rfl
    rw [hnone] at hlarge
    cases hlarge
  | succ n ih =>
    have ht := htables t (mem_tables ..)
    have hi := Paging.index_lt (n + 1) virt
    cases hpres : (entry s.mem t (index (n + 1) virt)).testBit 0 with
    | false =>
      simp only [translateFrom]
      rw [nextTable_of_absent hd ht hi hpres]
      rfl
    | true =>
      by_cases hhere : Large (n + 1) (entry s.mem t (index (n + 1) virt))
      · rw [largePage_of_large hpres hhere] at hlarge
        obtain ⟨rfl, rfl⟩ := Prod.mk.inj (Option.some.inj hlarge)
        have hlevel : 9 * (n + 1) ≤ 40 := by
          obtain ⟨h | h, -⟩ := hhere <;> omega
        have hnext : frame 0 (entry s.mem t (index (n + 1) virt)) + pageSize ≤ top :=
          (frame_zero_in_frame hlevel _).2.trans hpage
        simp only [translateFrom]
        rw [nextTable_of_present hd ht hi hpres hnext, if_neg (ptr_of_below hd hnext).2]
        exact translateFrom_of_zero hd hnext hzero
      · rw [tables_of_table hpres hhere] at htables
        rw [largePage_of_table hpres hhere] at hlarge
        have hnext := htables _ (List.mem_cons_of_mem t (mem_tables ..))
        simp only [translateFrom]
        rw [nextTable_of_present hd ht hi hpres hnext, if_neg (ptr_of_below hd hnext).2]
        exact ih (fun t' ht' => htables t' (List.mem_cons_of_mem t ht')) hlarge

end DirectMap

/-! ### `vmm_init` -/

theorem root_eq (hcr3 : cr3 < 2 ^ 52) : root cr3 = cr3 / pageSize * pageSize := by
  unfold root frame
  rw [pageSize_eq]
  omega

theorem vmmInit_pml4 (s : Vmm) (hd : DirectMap hhdm top) (hcr3 : cr3 + pageSize ≤ top) :
    (vmmInit s hhdm cr3).pml4 = cr3 + hhdm :=
  (ptr_of_below (s := vmmInit s hhdm cr3) hd hcr3).1

/-- A frame that is not that of the first table, and whose address has one bit only. -/
def otherFrame (cr3 : ℕ) : ℕ := if cr3 / pageSize * pageSize = 0x2000 then 0x4000 else 0x2000

theorem otherFrame_cases (cr3 : ℕ) : otherFrame cr3 = 0x2000 ∨ otherFrame cr3 = 0x4000 := by
  unfold otherFrame
  split_ifs <;> simp

/-- A memory in which entry 0 of the first table, and of the one it leads to, lead to the same
table. -/
def loopMem (cr3 : ℕ) : Mem :=
  store (store (fun _ => 0) (cr3 / pageSize * pageSize) 8 (otherFrame cr3 + 1))
    (otherFrame cr3) 8 (otherFrame cr3 + 1)

theorem otherFrame_apart (cr3 : ℕ) :
    otherFrame cr3 + 8 ≤ cr3 / pageSize * pageSize ∨
      cr3 / pageSize * pageSize + 8 ≤ otherFrame cr3 := by
  unfold otherFrame
  rw [pageSize_eq]
  split_ifs <;> omega

theorem index_zero (n : ℕ) : index n 0 = 0 := by simp [index]

theorem entry_loopMem_root (cr3 : ℕ) :
    entry (loopMem cr3) (cr3 / pageSize * pageSize) 0 = otherFrame cr3 + 1 := by
  simp only [entry, loopMem, Nat.mul_zero, Nat.add_zero]
  rw [load_store_disjoint (otherFrame_apart cr3), load_store_same]
  rcases otherFrame_cases cr3 with h | h <;> rw [h] <;> rfl

theorem entry_loopMem_other (cr3 : ℕ) :
    entry (loopMem cr3) (otherFrame cr3) 0 = otherFrame cr3 + 1 := by
  simp only [entry, loopMem, Nat.mul_zero, Nat.add_zero]
  rw [load_store_same]
  rcases otherFrame_cases cr3 with h | h <;> rw [h] <;> rfl

/-- What that entry says to the processor. -/
theorem loopEntry (cr3 n : ℕ) :
    (otherFrame cr3 + 1).testBit 0 = true ∧ ¬ Large n (otherFrame cr3 + 1) ∧
      frame 0 (otherFrame cr3 + 1) = otherFrame cr3 := by
  refine ⟨?_, ?_, ?_⟩
  · rcases otherFrame_cases cr3 with h | h <;> rw [h] <;> decide
  · rintro ⟨-, hbit⟩
    rcases otherFrame_cases cr3 with h | h <;> rw [h] at hbit <;> exact absurd hbit (by decide)
  · rcases otherFrame_cases cr3 with h | h <;> rw [h] <;> decide

/-- The walk from a table whose entry 0 is the entry of the loop. -/
theorem loopMem_step (cr3 n : ℕ) {table : ℕ}
    (hentry : entry (loopMem cr3) table 0 = otherFrame cr3 + 1) :
    walk (loopMem cr3) 0 (n + 1) table = walk (loopMem cr3) 0 n (otherFrame cr3) ∧
      largePage (loopMem cr3) 0 (n + 1) table = largePage (loopMem cr3) 0 n (otherFrame cr3) ∧
      tables (loopMem cr3) 0 (n + 1) table =
        table :: tables (loopMem cr3) 0 n (otherFrame cr3) := by
  have hread : entry (loopMem cr3) table (index n 0) = otherFrame cr3 + 1 := by
    rw [index_zero, hentry]
  obtain ⟨hpres, hsmall, hframe⟩ := loopEntry cr3 n
  rw [← hread] at hpres hsmall hframe
  refine ⟨?_, ?_, ?_⟩
  · rw [walk_of_table hpres hsmall, hframe]
  · rw [largePage_of_table hpres hsmall, hframe]
  · rw [tables_of_table hpres hsmall, hframe]

theorem loopMem_other (cr3 n : ℕ) :
    walk (loopMem cr3) 0 n (otherFrame cr3) = some (otherFrame cr3) ∧
      largePage (loopMem cr3) 0 n (otherFrame cr3) = none ∧
      ∀ t ∈ tables (loopMem cr3) 0 n (otherFrame cr3), t = otherFrame cr3 := by
  induction n with
  | zero => simp [walk, largePage, tables]
  | succ n ih =>
    obtain ⟨hwalk, hlarge, htables⟩ := loopMem_step cr3 n (entry_loopMem_other cr3)
    rw [hwalk, hlarge, htables]
    refine ⟨ih.1, ih.2.1, fun t ht => ?_⟩
    rcases List.mem_cons.mp ht with rfl | hrest
    · rfl
    · exact ih.2.2 t hrest

/-- What the processor makes of that memory. -/
theorem loopMem_x86 (hcr3 : cr3 < 2 ^ 52) :
    Paging.translate (loopMem cr3) cr3 0 = otherFrame cr3 ∧
      largePage (loopMem cr3) 0 4 (root cr3) = none ∧
      ∀ t ∈ tables (loopMem cr3) 0 4 (root cr3), t = root cr3 ∨ t = otherFrame cr3 := by
  have hroot : entry (loopMem cr3) (root cr3) 0 = otherFrame cr3 + 1 := by
    rw [root_eq hcr3, entry_loopMem_root]
  obtain ⟨hwalk, hlarge, htables⟩ := loopMem_step cr3 3 hroot
  obtain ⟨hwalk', hlarge', htables'⟩ := loopMem_other cr3 3
  refine ⟨?_, hlarge.trans hlarge', fun t ht => ?_⟩
  · rw [Paging.translate, hwalk, hwalk']
    rfl
  · rw [htables] at ht
    exact (List.mem_cons.mp ht).imp_right (htables' t)

/-- **With a flag in `CR3`** the code reads the entries of the first table where they are not. -/
theorem vmmInit_flags (s : Vmm) (hd : DirectMap hhdm top) (hcr3 : cr3 + pageSize ≤ top)
    (hflags : cr3 % pageSize ≠ 0) :
    vmmTranslate (vmmInit { s with mem := loopMem cr3 } hhdm cr3) 0 = 0 := by
  have hbyte : (loopMem cr3 cr3).getLsbD 0 = false := by
    unfold loopMem store
    rw [pageSize_eq] at hflags ⊢
    have hfar : ¬ (otherFrame cr3 ≤ cr3 ∧ cr3 < otherFrame cr3 + 8) := by
      unfold otherFrame
      rw [pageSize_eq]
      split_ifs <;> omega
    rw [if_neg hfar]
    split_ifs with hnear
    · -- one of the upper seven bytes of the first entry
      obtain ⟨k, hk⟩ := Nat.exists_eq_add_of_le hnear.1
      rw [show cr3 - cr3 / 4096 * 4096 = k by omega]
      have hpos : 0 < k := by omega
      have hlt : k < 8 := by omega
      rcases otherFrame_cases cr3 with h | h <;> rw [h] <;> interval_cases k <;> decide
    · simp
  have habsent : (entry (vmmInit { s with mem := loopMem cr3 } hhdm cr3).mem cr3
      (index 3 0)).testBit 0 = false := by
    rw [entry, index_zero, Nat.mul_zero, Nat.add_zero]
    exact (testBit_zero_load _ _ 7).trans hbyte
  have hnull : nextTable (vmmInit { s with mem := loopMem cr3 } hhdm cr3) (cr3 + hhdm)
      (index 3 0) = null :=
    nextTable_of_absent (s := vmmInit { s with mem := loopMem cr3 } hhdm cr3) hd hcr3
      (Paging.index_lt 3 0) habsent
  rw [vmmTranslate_eq_from, vmmInit_pml4 _ hd hcr3]
  exact if_pos hnull

/-! ### The whole of it -/

/-- `vmm_translate` after `vmm_init` has been called with this value of `CR3`. -/
def translateAfterInit (s : Vmm) (hhdm cr3 : ℕ) (m : Mem) (virt : ℕ) : ℕ :=
  vmmTranslate (vmmInit { s with mem := m } hhdm cr3) virt

/-- The tables that the processor reads are in the memory that the direct map covers. -/
def TablesBelow (top cr3 : ℕ) (m : Mem) (virt : ℕ) : Prop :=
  ∀ t ∈ tables m virt 4 (root cr3), t + pageSize ≤ top

theorem translateAfterInit_eq_from (s : Vmm) (hd : DirectMap hhdm top)
    (hcr3 : cr3 + pageSize ≤ top) (haligned : cr3 % pageSize = 0) (m : Mem) (virt : ℕ) :
    translateAfterInit s hhdm cr3 m virt =
      translateFrom (vmmInit { s with mem := m } hhdm cr3) virt 3 (root cr3 + hhdm) := by
  have hlt : cr3 < 2 ^ 52 := by
    have := hd.top_le
    rw [pageSize_eq] at hcr3
    omega
  have hroot : root cr3 = cr3 := by
    rw [root_eq hlt]
    exact Nat.div_mul_cancel (Nat.dvd_of_mod_eq_zero haligned)
  rw [translateAfterInit, vmmTranslate_eq_from, vmmInit_pml4 _ hd hcr3, hroot]

/-- **`vmm_translate` and the processor** agree under two conditions.  For a value of `CR3` it
is that no flag is set: then the two agree in every memory, on every address where the processor
meets no large page; with a flag there is a memory in which they do not.  For an address where
the processor does meet a large page, the code looks for a table in the data of that page, so
that data alone decides what the code answers. -/
theorem vmmTranslate_x86 (s : Vmm) (hd : DirectMap hhdm top) (hram : 0x5000 ≤ top)
    (hcr3 : cr3 + pageSize ≤ top) :
    ((∀ m virt, TablesBelow top cr3 m virt → largePage m virt 4 (root cr3) = none →
        translateAfterInit s hhdm cr3 m virt = Paging.translate m cr3 virt) ↔
          cr3 % pageSize = 0) ∧
      (cr3 % pageSize = 0 → ∀ m virt, TablesBelow top cr3 m virt → ∀ n e,
        largePage m virt 4 (root cr3) = some (n, e) → frame n e + 2 ^ (12 + 9 * n) ≤ top →
        frame 0 e ∉ tables m virt 4 (root cr3) → Paging.translate m cr3 virt ≠ 0 →
        ∃ m', Agree m m' virt 4 (root cr3) ∧
          Paging.translate m' cr3 virt = Paging.translate m cr3 virt ∧
          translateAfterInit s hhdm cr3 m' virt ≠ Paging.translate m' cr3 virt) := by
  have hlt : cr3 < 2 ^ 52 := by
    have := hd.top_le
    rw [pageSize_eq] at hcr3
    omega
  refine ⟨⟨fun hall => ?_, fun haligned m virt hbelow hsmall => ?_⟩,
    fun haligned m virt hbelow n e hlarge hpage hnot hmapped => ?_⟩
  · by_contra hflags
    obtain ⟨htranslate, hnone, htables⟩ := loopMem_x86 hlt
    have hbelow : TablesBelow top cr3 (loopMem cr3) 0 := by
      intro t ht
      rcases htables t ht with rfl | rfl
      · have hle : cr3 / pageSize * pageSize ≤ cr3 := Nat.div_mul_le_self cr3 pageSize
        rw [root_eq hlt]
        omega
      · rw [pageSize_eq]
        rcases otherFrame_cases cr3 with h | h <;> omega
    have hagree := hall (loopMem cr3) 0 hbelow hnone
    rw [translateAfterInit, vmmInit_flags s hd hcr3 hflags, htranslate] at hagree
    rcases otherFrame_cases cr3 with h | h <;> omega
  · rw [translateAfterInit_eq_from s hd hcr3 haligned]
    exact translateFrom_eq (s := vmmInit { s with mem := m } hhdm cr3) hd hbelow hsmall
  · -- the same tables, and a page of zeros where the code expects the next one
    have hagree : Agree m (fill m (frame 0 e) (2 ^ 12) 0) virt 4 (root cr3) :=
      agree_fill 0 (frame_dvd 0 cr3) (frame_dvd 0 e) hnot
    obtain ⟨hwalk, hpage', htables⟩ := hagree.same
    have hsame : Paging.translate (fill m (frame 0 e) (2 ^ 12) 0) cr3 virt =
        Paging.translate m cr3 virt := by
      rw [Paging.translate, hwalk, Paging.translate]
    refine ⟨fill m (frame 0 e) (2 ^ 12) 0, hagree, hsame, ?_⟩
    rw [hsame, translateAfterInit_eq_from s hd hcr3 haligned]
    have hzero : ∀ i < 512, entry (fill m (frame 0 e) (2 ^ 12) 0) (frame 0 e) i = 0 :=
      fun i hi => load_fill_zero (by omega) (by omega)
    have hcode : translateFrom (vmmInit { s with mem := fill m (frame 0 e) (2 ^ 12) 0 } hhdm cr3)
        virt 3 (root cr3 + hhdm) = 0 :=
      translateFrom_large (s := vmmInit { s with mem := fill m (frame 0 e) (2 ^ 12) 0 } hhdm cr3)
        hd (htables.symm ▸ hbelow) (hpage'.trans hlarge) hpage hzero
    rw [hcode]
    exact hmapped.symm

/-- Four tables at 4 KiB intervals from 0x1000 on: the last one leads the 2 MiB from address 0 on
to a large page at 0x400000, and the next one is a page table for 0x200000 only. -/
def hugeMem : Mem :=
  store (store (store (store (store (fun _ => 0) 0x1000 8 0x2003) 0x2000 8 0x3003)
    0x3000 8 0x400083) 0x3008 8 0x4003) 0x4000 8 0x5003

/-- The state before `vmm_init`. -/
def translateVmm : Vmm where
  mem := hugeMem
  pmm := { usable := [], bitmap := fun _ => 0, pageCount := 0, bitmapSize := 0, bitmapPhys := 0 }
  pml4 := 0
  hhdmOffset := 0

theorem vmmTranslate_x86_example :
    translateAfterInit translateVmm 0xFFFF800000000000 0x1000 hugeMem 0x200ABC =
        Paging.translate hugeMem 0x1000 0x200ABC ∧
      ∃ m, Paging.translate m 0x1000 0x1234 = 0x401234 ∧
        translateAfterInit translateVmm 0xFFFF800000000000 0x1000 m 0x1234 ≠ 0x401234 := by
  have hd : DirectMap 0xFFFF800000000000 (2 ^ 40) := ⟨by norm_num, by norm_num, by norm_num⟩
  have hcr3 : 0x1000 + pageSize ≤ 2 ^ 40 := by
    rw [pageSize_eq]
    norm_num
  obtain ⟨⟨-, hsmall⟩, hlarge⟩ := vmmTranslate_x86 translateVmm hd (by norm_num) hcr3
  have hread : Paging.translate hugeMem 0x1000 0x1234 = 0x401234 := by decide +kernel
  refine ⟨hsmall rfl hugeMem 0x200ABC ?_ ?_, ?_⟩
  · unfold TablesBelow
    decide +kernel
  · decide +kernel
  · obtain ⟨m, -, hm, hne⟩ := hlarge rfl hugeMem 0x1234 (by unfold TablesBelow; decide +kernel)
      1 0x400083 (by decide +kernel) (by decide +kernel) (by decide +kernel) (by rw [hread]; decide)
    rw [hm, hread] at hne
    exact ⟨m, hm.trans hread, hne⟩

/-- In the large page the code finds no entry. -/
theorem vmmTranslate_huge :
    Paging.translate hugeMem 0x1000 0x1234 = 0x401234 ∧
      translateAfterInit translateVmm 0xFFFF800000000000 0x1000 hugeMem 0x1234 = 0 := by
  constructor <;> decide +kernel

end Bethany
