import Bethany.Memory.AllocPage

/-!
# `vmm_map_range` maps exactly its range

`vmm_map_range` calls `vmm_map` once for each page that the range starts, and each call may
enter up to three tables, which later pages then share.  Whether all pages get their tables is
a matter of counting: the tables that are missing on the way to some page of the range must be
no more than the free pages, and every call keeps it so.

* `tablesTo`, `rangeTables`: the tables on the way to one address, and to a range;
* `missingOf`, `Vmm.Room`: those that are missing, and that there are pages for them;
* `PageTree.ensureTable_room`, `ensureTables_room`, `vmmMap_room`: with room for its tables a
  call gets them, and leaves room for the others;
* `mapRange_room`: so all calls of a range get theirs;
* `vmmMapRange_exact`: the map afterwards.
-/

namespace Bethany

open Machine Walk

variable {s : Vmm} {top root virt phys size flags n offset : ℕ}
  {p q : List (Fin 512)} {t : ℕ} {tables : Finset (List (Fin 512))}

/-! ### Tables on the way -/

/-- The tables on the way to an address, below the one in `pml4`. -/
def tablesTo (addr : ℕ) : Finset (List (Fin 512)) :=
  {(tablePath addr).take 1, (tablePath addr).take 2, tablePath addr}

/-- The tables on the way to the pages of a range. -/
def rangeTables (virt size : ℕ) : Finset (List (Fin 512)) :=
  (Finset.range ((size + pageSize - 1) / pageSize)).biUnion fun k =>
    tablesTo (virt + k * pageSize)

/-- The tables that there are not. -/
def missingOf (s : Vmm) (root : ℕ) (tables : Finset (List (Fin 512))) :
    Finset (List (Fin 512)) :=
  tables.filter fun q => walk (childOf s.mem) root q = none

/-- There is a free page for each of these tables that is missing. -/
def Vmm.Room (s : Vmm) (root : ℕ) (tables : Finset (List (Fin 512))) : Prop :=
  (missingOf s root tables).card ≤ s.pmm.freePages

@[simp] theorem mem_missingOf :
    q ∈ missingOf s root tables ↔ q ∈ tables ∧ walk (childOf s.mem) root q = none := by
  simp [missingOf]

theorem mem_tablesTo {addr : ℕ} :
    q ∈ tablesTo addr ↔
      q = (tablePath addr).take 1 ∨ q = (tablePath addr).take 2 ∨ q = tablePath addr := by
  simp [tablesTo]

theorem length_of_mem_tablesTo {addr : ℕ} (hq : q ∈ tablesTo addr) : q.length ≤ 3 := by
  rcases mem_tablesTo.mp hq with rfl | rfl | rfl <;> simp

theorem length_of_mem_rangeTables (hq : q ∈ rangeTables virt size) : q.length ≤ 3 := by
  simp only [rangeTables, Finset.mem_biUnion] at hq
  obtain ⟨k, -, hk⟩ := hq
  exact length_of_mem_tablesTo hk

/-- Addresses of one page have the same tables. -/
@[simp] theorem tablePath_u64 (addr : ℕ) : tablePath (u64 addr) = tablePath addr := by
  simp only [tablePath, pml4Index, pdptIndex, pdIndex, index_eq, u64, List.cons.injEq,
    Fin.mk.injEq, and_true]
  refine ⟨?_, ?_, ?_⟩ <;> omega

@[simp] theorem tablesTo_u64 (addr : ℕ) : tablesTo (u64 addr) = tablesTo addr := by
  simp [tablesTo]

/-- Entering one of the tables takes it from the missing ones. -/
theorem missingOf_set {s' : Vmm} {c : ℕ}
    (hset : ∀ q ∈ tables, walk (childOf s'.mem) root q =
      if q = p then some c else walk (childOf s.mem) root q) :
    missingOf s' root tables = (missingOf s root tables).erase p := by
  ext q
  simp only [mem_missingOf, Finset.mem_erase]
  constructor
  · rintro ⟨hq, hnone⟩
    rw [hset q hq] at hnone
    split_ifs at hnone with hqp
    exact ⟨hqp, hq, hnone⟩
  · rintro ⟨hqp, hq, hnone⟩
    exact ⟨hq, by rw [hset q hq, if_neg hqp, hnone]⟩

/-- A page that goes into a missing table leaves room for the others. -/
theorem Vmm.Room.enter {s' : Vmm} {c : ℕ} (hroom : s.Room root tables)
    (hmissing : p ∈ missingOf s root tables)
    (hcount : s'.pmm.freePages + 1 = s.pmm.freePages)
    (hset : ∀ q ∈ tables, walk (childOf s'.mem) root q =
      if q = p then some c else walk (childOf s.mem) root q) : s'.Room root tables := by
  have hpos : 0 < (missingOf s root tables).card := Finset.card_pos.mpr ⟨p, hmissing⟩
  unfold Vmm.Room at hroom ⊢
  rw [missingOf_set hset, Finset.card_erase_of_mem hmissing]
  omega

/-- Room depends on the upper tables and the count of free pages only. -/
theorem Vmm.Room.congr {s' : Vmm} (hroom : s.Room root tables)
    (hpages : s'.pmm.freePages = s.pmm.freePages)
    (hwalk : ∀ q ∈ tables, walk (childOf s'.mem) root q = walk (childOf s.mem) root q) :
    s'.Room root tables := by
  have hsame : missingOf s' root tables = missingOf s root tables :=
    Finset.filter_congr fun q hq => by rw [hwalk q hq]
  rwa [Vmm.Room, hsame, hpages]

namespace PageTree

variable (h : PageTree s top root) (hnull : ¬ s.pmm.Free null) (hroom : s.Room root tables)
  (hshort : ∀ q ∈ tables, q.length ≤ 3)
include h hnull hroom hshort

/-- With room for the table behind entry `i`, `ensure_table` gets it, and leaves room for the
others. -/
theorem ensureTable_room (hp : p.length ≤ 2) (ht : walk (childOf s.mem) root p = some t)
    {i : Fin 512} (hmem : p ++ [i] ∈ tables) :
    ∃ c s', ensureTable s (t + s.hhdmOffset) i = (c + s'.hhdmOffset, s') ∧
      c + s'.hhdmOffset ≠ null ∧ PageTree s' top root ∧ ¬ s'.pmm.Free null ∧
      s'.Room root tables ∧ walk (childOf s'.mem) root (p ++ [i]) = some c := by
  have htop : top ≤ 2 ^ 64 := h.directMap.top_le.trans (by norm_num)
  have hwalk : walk (childOf s.mem) root (p ++ [i]) = childOf s.mem t i := by
    rw [walk_concat, ht, Option.bind_some]
  have hpres := h.entryPresent_eq (by omega) ht i
  cases hchild : childOf s.mem t i with
  | some c =>
    rw [hchild] at hwalk hpres
    have hok := h.frame_ok (p ++ [i]) c (by simp; omega) hwalk
    have hnext := h.nextTable_eq hp ht i
    rw [hwalk] at hnext
    refine ⟨c, s, ?_, (h.ptr_ok hok.2).2, h, hnull, hroom, hwalk⟩
    simp [ensureTable, hpres, hnext]
  | none =>
    -- The table is one of the missing ones, so there is a page for it.
    rw [hchild] at hwalk
    have hmissing : p ++ [i] ∈ missingOf s root tables := mem_missingOf.mpr ⟨hmem, hwalk⟩
    have hpos : 0 < (missingOf s root tables).card := Finset.card_pos.mpr ⟨_, hmissing⟩
    rcases h.pmm.alloc_count htop hnull with ⟨hzero, -⟩ | ⟨hne, hcount⟩
    · have : (missingOf s root tables).card ≤ s.pmm.freePages := hroom
      omega
    · obtain ⟨htree, hadd⟩ := h.add_table hp ht hchild hne
      have hcok := h.pmm.free_ok (h.pmm.alloc_page htop hne).1
      have hnew := h.ensureTable_new hp ht hchild hne
      set c := (pmmAllocPage s.pmm).1
      set s' : Vmm := { s with
        pmm := (pmmAllocPage s.pmm).2
        mem := tableMem s.mem t i c } with hs'
      have hroom' : s'.Room root tables := hroom.enter hmissing hcount fun q hq =>
        hadd q ((hshort q hq).trans (by norm_num))
      have hentered : walk (childOf s'.mem) root (p ++ [i]) = some c :=
        (hadd (p ++ [i]) (by simp; omega)).trans (if_pos rfl)
      exact ⟨c, s', hnew, (h.ptr_ok hcok.2).2, htree,
        fun hfree => hnull ((Pmm.Takes.alloc s.pmm).free hfree), hroom', hentered⟩

/-- With room for the tables on the way to `virt`, `vmm_map` gets them. -/
theorem ensureTables_room (hmem : tablesTo virt ⊆ tables) :
    ∃ pt s', ensureTables s virt = (pt + s'.hhdmOffset, s') ∧ pt + s'.hhdmOffset ≠ null ∧
      PageTree s' top root ∧ ¬ s'.pmm.Free null ∧ s'.Room root tables ∧
      walk (childOf s'.mem) root (tablePath virt) = some pt := by
  set i₄ : Fin 512 := ⟨pml4Index virt, index_lt virt 39⟩
  set i₃ : Fin 512 := ⟨pdptIndex virt, index_lt virt 30⟩
  set i₂ : Fin 512 := ⟨pdIndex virt, index_lt virt 21⟩
  have hm₄ : [] ++ [i₄] ∈ tables := hmem (mem_tablesTo.mpr (.inl rfl))
  have hm₃ : [] ++ [i₄] ++ [i₃] ∈ tables := hmem (mem_tablesTo.mpr (.inr (.inl rfl)))
  have hm₂ : [] ++ [i₄] ++ [i₃] ++ [i₂] ∈ tables := hmem (mem_tablesTo.mpr (.inr (.inr rfl)))
  obtain ⟨t₄, s₄, he₄, hn₄, h₄, hnull₄, hroom₄, hw₄⟩ :=
    h.ensureTable_room hnull hroom hshort (by simp) (walk_nil _ root) hm₄
  rw [← h.pml4] at he₄
  obtain ⟨t₃, s₃, he₃, hn₃, h₃, hnull₃, hroom₃, hw₃⟩ :=
    h₄.ensureTable_room hnull₄ hroom₄ hshort (by simp) hw₄ hm₃
  obtain ⟨t₂, s₂, he₂, hn₂, h₂, hnull₂, hroom₂, hw₂⟩ :=
    h₃.ensureTable_room hnull₃ hroom₃ hshort (by simp) hw₃ hm₂
  refine ⟨t₂, s₂, ?_, hn₂, h₂, hnull₂, hroom₂, hw₂⟩
  rw [ensureTables, show pml4Index virt = (i₄ : ℕ) from rfl, he₄]
  simp only [if_neg hn₄]
  rw [show pdptIndex virt = (i₃ : ℕ) from rfl, he₃]
  simp only [if_neg hn₃]
  exact he₂

/-- **One page**: `vmm_map` gets its tables, and the pages of later calls are not touched. -/
theorem vmmMap_room (phys flags : ℕ) (hmem : tablesTo virt ⊆ tables) :
    (ensureTables s virt).1 ≠ null ∧ PageTree (vmmMap s virt phys flags) top root ∧
      ¬ (vmmMap s virt phys flags).pmm.Free null ∧
      (vmmMap s virt phys flags).Room root tables := by
  obtain ⟨pt, s', he, hne, h', hnull', hroom', hpt⟩ :=
    h.ensureTables_room hnull hroom hshort hmem
  obtain ⟨htree, hwalk⟩ := h'.write_leaf (length_tablePath virt) hpt (leafIndex virt)
    (phys ||| flags)
  have hmap : vmmMap s virt phys flags =
      writeEntry s' (pt + s'.hhdmOffset) (leafIndex virt) (phys ||| flags) := by
    simp only [vmmMap, he, if_neg hne]
    rfl
  rw [hmap, he]
  refine ⟨hne, htree, hnull', hroom'.congr rfl fun q hq => ?_⟩
  have hlen := hshort q hq
  rw [hwalk q (hlen.trans (by norm_num)), if_neg]
  rintro rfl
  simp at hlen

end PageTree

/-- **All pages of a range** get their tables when there is room for them. -/
theorem mapRange_room (h : PageTree s top root) (hnull : ¬ s.pmm.Free null)
    (hroom : s.Room root tables) (hshort : ∀ q ∈ tables, q.length ≤ 3)
    (hmem : ∀ k < n, tablesTo (virt + (offset + k * pageSize)) ⊆ tables) :
    mapRangeFails virt phys flags n offset s = false := by
  induction n generalizing s offset with
  | zero => rfl
  | succ n ih =>
    have hfirst : tablesTo (u64 (virt + offset)) ⊆ tables := by
      simpa using hmem 0 (Nat.succ_pos n)
    obtain ⟨hne, h', hnull', hroom'⟩ :=
      h.vmmMap_room hnull hroom hshort (u64 (phys + offset)) flags hfirst
    have hrest : ∀ k < n, tablesTo (virt + (offset + pageSize + k * pageSize)) ⊆ tables := by
      intro k hk
      have hnext := hmem (k + 1) (by omega)
      rwa [Nat.succ_mul, Nat.add_comm (k * pageSize), ← Nat.add_assoc offset] at hnext
    simp [mapRangeFails, hne, ih h' hnull' hroom' hrest]

/-! ### The range -/

/-- The pages that `size` bytes from a page border on start, in bytes. -/
theorem pages_bounds (size : ℕ) :
    size ≤ (size + pageSize - 1) / pageSize * pageSize ∧
      (size + pageSize - 1) / pageSize * pageSize < size + pageSize := by
  rw [pageSize_eq]
  omega

/-- **`vmm_map_range` maps exactly its range.**  From any tree of tables, with a free page for
each table that is missing on the way to the range, every byte of the range is translated to
its place in the physical range afterwards, and every address on another page as before. -/
theorem vmmMapRange_exact (h : PageTree s top root) (hvirt : pageSize ∣ virt)
    (hphys : pageSize ∣ phys) (hwrap : virt % 2 ^ 48 + size ≤ 2 ^ 48) (hlt : phys + size < 2 ^ 52)
    (hpres : flags.testBit 0 = true) (hflags : ∀ i, 12 ≤ i → i < 52 → flags.testBit i = false)
    (hnull : ¬ s.pmm.Free null)
    (hroom : (missingOf s root (rangeTables virt size)).card ≤ s.pmm.freePages) :
    (∀ b < size, vmmTranslate (vmmMapRange s virt phys size flags) (virt + b) = phys + b) ∧
      ∀ v, (∀ b < size, ¬ SamePage v (virt + b)) →
        vmmTranslate (vmmMapRange s virt phys size flags) v = vmmTranslate s v := by
  obtain ⟨hle, hpages⟩ := pages_bounds size
  set n := (size + pageSize - 1) / pageSize with hn
  have hfails : mapRangeFails virt phys flags n 0 s = false := by
    refine mapRange_room h hnull hroom (fun q hq => length_of_mem_rangeTables hq)
      fun k hk q hq => ?_
    simp only [rangeTables, Finset.mem_biUnion, Finset.mem_range]
    exact ⟨k, hk, by simpa using hq⟩
  obtain ⟨i, rfl⟩ := hvirt
  obtain ⟨j, rfl⟩ := hphys
  have hall : PageTree (s.only root fun _ => true) top root := by rwa [Vmm.only_all]
  have hn36 : n ≤ 2 ^ 36 := by
    rw [pageSize_eq] at *
    omega
  have hend : pageSize * j + 0 + n * pageSize ≤ 2 ^ 52 := by
    rw [pageSize_eq] at *
    omega
  have hkeep : ∀ k < n, (fun _ => true) (pml4Index (u64 (pageSize * i + (0 + k * pageSize)))) =
      true := fun _ _ => rfl
  obtain ⟨htree, hmap⟩ := hall.mapRange_region hn36 hkeep (Dvd.intro j rfl) (dvd_zero _) hend
    hpres hflags
  obtain ⟨hin, hout⟩ := hmap hfails
  simp only [Vmm.only_all, Nat.zero_add] at htree hin hout
  have hmapped : mapRangeLoop (pageSize * i) (pageSize * j) flags n 0 s =
      vmmMapRange s (pageSize * i) (pageSize * j) size flags := rfl
  rw [hmapped] at htree hin hout
  constructor
  · intro b hb
    have hk : b / pageSize < n := by
      rw [pageSize_eq] at *
      omega
    have hpage : pageOf (pageSize * i + b) = pageOf (pageSize * i + b / pageSize * pageSize) := by
      rw [pageOf_eq_iff, pageSize_eq]
      omega
    rw [htree.vmmTranslate_eq, PageMap.translate, hpage, hin _ hk]
    rw [pageSize_eq]
    dsimp only
    omega
  · intro v hv
    rw [htree.vmmTranslate_eq, h.vmmTranslate_eq, PageMap.translate, PageMap.translate,
      hout (pageOf v)]
    intro k hk hpage
    refine hv (k * pageSize) ?_ (samePage_iff.mpr hpage)
    have : (k + 1) * pageSize ≤ n * pageSize := Nat.mul_le_mul_right _ hk
    rw [Nat.succ_mul] at this
    omega

/-- The range starts on the last page below 2 MiB and goes on with the next page table. -/
theorem vmmMapRange_exact_example :
    vmmTranslate (vmmMapRange exampleVmm 0x1FF000 0x7000 0x1801 3) (0x1FF000 + 0x1800) =
      0x7000 + 0x1800 := by
  have hroom : (missingOf exampleVmm 0x1000 (rangeTables 0x1FF000 0x1801)).card ≤ 8 :=
    (Finset.card_filter_le _ _).trans (by decide)
  have hvirt : pageSize ∣ 0x1FF000 := by decide
  have hphys : pageSize ∣ 0x7000 := by decide
  have hflags : ∀ i, 12 ≤ i → i < 52 → (3 : ℕ).testBit i = false :=
    fun i h12 _ => flags_testBit (by norm_num) h12
  obtain ⟨hin, -⟩ := vmmMapRange_exact exampleVmm_tree hvirt hphys (by norm_num) (by norm_num) rfl
    hflags exampleVmm_notNull (hroom.trans (by decide))
  exact hin 0x1800 (by norm_num)

end Bethany
