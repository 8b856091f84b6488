import Bethany.Memory.PageMap

/-!
# The tables below some entries of `pml4`

The boot loader fills `pml4`, and what it has entered for other parts of the address space need
not be a tree of 4 KiB tables.  A virtual region is reached through some of the entries of
`pml4` only.  `Vmm.only` blanks all other entries; when what is left is a tree, calls for the
region behave on the whole memory as they do on that tree.

* `maskTable`, `Vmm.only`: the memory with the other entries blanked;
* `load_maskTable`, `store_maskTable`, `fill_maskTable`: accesses that do not notice;
* `ensureTables_only`, `vmmMap_only`, `vmmTranslate_only`: the calls do not notice either;
* `vmmMap_entry`: what `vmm_map` does to the map;
* `mapRange_spec`: what `vmm_map_range` does to the map.
-/

namespace Bethany

open Machine Walk

/-- The memory with the entries of the table in frame `root` that `keep` rejects set to zero. -/
def maskTable (m : Mem) (root : ℕ) (keep : ℕ → Bool) : Mem := fun a =>
  if root ≤ a ∧ a < root + pageSize ∧ keep ((a - root) / 8) = false then 0 else m a

/-- The state with only some entries of the `pml4` in frame `root`. -/
def Vmm.only (s : Vmm) (root : ℕ) (keep : ℕ → Bool) : Vmm :=
  { s with mem := maskTable s.mem root keep }

variable {s : Vmm} {m : Mem} {top root f v : ℕ} {keep : ℕ → Bool}

@[simp] theorem Vmm.only_pmm (s : Vmm) : (s.only root keep).pmm = s.pmm := rfl
@[simp] theorem Vmm.only_pml4 (s : Vmm) : (s.only root keep).pml4 = s.pml4 := rfl
@[simp] theorem Vmm.only_hhdmOffset (s : Vmm) :
    (s.only root keep).hhdmOffset = s.hhdmOffset := rfl

/-- Some page of a `vmm_map_range` does not get its page table. -/
def mapRangeFails (virt phys flags : ℕ) : ℕ → ℕ → Vmm → Bool
  | 0, _, _ => false
  | n + 1, offset, s =>
      (ensureTables s (u64 (virt + offset))).1 == null ||
        mapRangeFails virt phys flags n (offset + pageSize)
          (vmmMap s (u64 (virt + offset)) (u64 (phys + offset)) flags)

theorem pageOf_eq_iff {a b : ℕ} :
    pageOf a = pageOf b ↔ a / pageSize % 2 ^ 36 = b / pageSize % 2 ^ 36 := by
  simp [pageOf]

@[simp] theorem pageOf_u64 (a : ℕ) : pageOf (u64 a) = pageOf a := by
  rw [pageOf_eq_iff, u64, pageSize_eq]
  omega

/-! ### Accesses -/

/-- The byte `k` of entry `i` of the table in frame `f` is not blanked. -/
theorem maskTable_entry (m : Mem) (hroot : pageSize ∣ root) (hf : pageSize ∣ f) {i k : ℕ}
    (hi : i < 512) (hk : k < 8) (hkeep : f = root → keep i = true) :
    maskTable m root keep (f + 8 * i + k) = m (f + 8 * i + k) := by
  apply if_neg
  rintro ⟨hlo, hhi, hmask⟩
  by_cases heq : f = root
  · subst heq
    rw [show (f + 8 * i + k - f) / 8 = i by omega, hkeep rfl] at hmask
    exact absurd hmask (by decide)
  · have := frame_apart hf hroot heq
    rw [pageSize_eq] at this hhi
    omega

theorem load_maskTable (m : Mem) (hroot : pageSize ∣ root) (hf : pageSize ∣ f) {i : ℕ}
    (hi : i < 512) (hkeep : f = root → keep i = true) :
    load (maskTable m root keep) (f + 8 * i) 8 = load m (f + 8 * i) 8 :=
  load_congr fun _ hk => maskTable_entry m hroot hf hi hk hkeep

theorem store_maskTable (m : Mem) (hroot : pageSize ∣ root) (hf : pageSize ∣ f) {i : ℕ}
    (hi : i < 512) (hkeep : f = root → keep i = true) (v : ℕ) :
    store (maskTable m root keep) (f + 8 * i) 8 v =
      maskTable (store m (f + 8 * i) 8 v) root keep := by
  funext a
  by_cases ha : f + 8 * i ≤ a ∧ a < f + 8 * i + 8
  · obtain ⟨k, rfl⟩ := Nat.exists_eq_add_of_le ha.1
    have hk : k < 8 := by omega
    rw [maskTable_entry _ hroot hf hi hk hkeep]
    simp only [store, if_pos ha]
  · simp only [store, maskTable, if_neg ha]

theorem fill_maskTable (m : Mem) (hroot : pageSize ∣ root) (hf : pageSize ∣ f) (hne : f ≠ root)
    (x : Byte) :
    fill (maskTable m root keep) f pageSize x = maskTable (fill m f pageSize x) root keep := by
  funext a
  have hapart := frame_apart hf hroot hne
  simp only [fill, maskTable]
  split_ifs with h₁ h₂ h₃
  · omega
  · rfl
  · rfl
  · rfl

section Accesses

variable {t : ℕ} (hd : DirectMap s.hhdmOffset top) (hroot : pageSize ∣ root)
  (ht : pageSize ∣ t ∧ t + pageSize ≤ top) (i : Fin 512) (hkeep : t = root → keep i = true)
include hd hroot ht hkeep

theorem readEntry_only :
    readEntry (s.only root keep) (t + s.hhdmOffset) i = readEntry s (t + s.hhdmOffset) i := by
  rw [readEntry_ptr (s := s) hd ht.2 i, ← load_maskTable s.mem hroot ht.1 i.isLt hkeep]
  exact readEntry_ptr (s := s.only root keep) hd ht.2 i

theorem writeEntry_only (entry : ℕ) :
    writeEntry (s.only root keep) (t + s.hhdmOffset) i entry =
      (writeEntry s (t + s.hhdmOffset) i entry).only root keep := by
  rw [writeEntry_ptr (s := s) hd ht.2 i entry]
  refine (writeEntry_ptr (s := s.only root keep) hd ht.2 i entry).trans ?_
  unfold Vmm.only
  simp only [store_maskTable s.mem hroot ht.1 i.isLt hkeep]

theorem nextTable_only :
    nextTable (s.only root keep) (t + s.hhdmOffset) i = nextTable s (t + s.hhdmOffset) i := by
  unfold nextTable
  rw [readEntry_only hd hroot ht i hkeep]
  rfl

end Accesses

theorem clearTable_only (keep : ℕ → Bool) {c : ℕ} (hd : DirectMap s.hhdmOffset top)
    (hroot : pageSize ∣ root) (hc : pageSize ∣ c ∧ c + pageSize ≤ top) (hne : c ≠ root) :
    clearTable (s.only root keep) (c + s.hhdmOffset) =
      (clearTable s (c + s.hhdmOffset)).only root keep := by
  rw [clearTable_ptr (s := s) hd hc.2]
  refine (clearTable_ptr (s := s.only root keep) hd hc.2).trans ?_
  unfold Vmm.only
  simp only [fill_maskTable s.mem hroot hc.1 hne]

/-! ### Calls -/

namespace PageTree

variable (h : PageTree (s.only root keep) top root)
include h

/-- `ensure_table` does not notice the other entries of `pml4`. -/
theorem ensureTable_only {t : ℕ} (ht : pageSize ∣ t ∧ t + pageSize ≤ top) (i : Fin 512)
    (hkeep : t = root → keep i = true) :
    ensureTable (s.only root keep) (t + s.hhdmOffset) i =
      ((ensureTable s (t + s.hhdmOffset) i).1,
        (ensureTable s (t + s.hhdmOffset) i).2.only root keep) := by
  have hd : DirectMap s.hhdmOffset top := h.directMap
  have hroot := h.walk_root.1
  simp only [ensureTable]
  rw [readEntry_only hd hroot ht i hkeep, nextTable_only hd hroot ht i hkeep]
  by_cases hpres : entryPresent (readEntry s (t + s.hhdmOffset) i) = true
  · rw [if_pos hpres, if_pos hpres]
  rw [if_neg hpres, if_neg hpres]
  by_cases hnull : (pmmAllocPage s.pmm).1 = null
  · rw [if_pos (show (pmmAllocPage (s.only root keep).pmm).1 = null from hnull), if_pos hnull]
    rfl
  rw [if_neg (show (pmmAllocPage (s.only root keep).pmm).1 ≠ null from hnull), if_neg hnull]
  have hfree : s.pmm.Free (pmmAllocPage s.pmm).1 :=
    (h.pmm.alloc_page (hd.top_le.trans (by norm_num)) hnull).1
  have hcok := h.pmm.free_ok hfree
  have hne : (pmmAllocPage s.pmm).1 ≠ root := fun heq =>
    h.used [] root (by simp) rfl (heq.subst hfree)
  have hptr : u64 ((pmmAllocPage s.pmm).1 + s.hhdmOffset) =
      (pmmAllocPage s.pmm).1 + s.hhdmOffset := (h.ptr_ok hcok.2).1
  have hfill := clearTable_ptr (s := { s with pmm := (pmmAllocPage s.pmm).2 }) hd hcok.2
  have hclear : clearTable { s.only root keep with pmm := (pmmAllocPage s.pmm).2 }
      ((pmmAllocPage s.pmm).1 + s.hhdmOffset) =
      (clearTable { s with pmm := (pmmAllocPage s.pmm).2 }
        ((pmmAllocPage s.pmm).1 + s.hhdmOffset)).only root keep :=
    clearTable_only (s := { s with pmm := (pmmAllocPage s.pmm).2 }) keep hd hroot hcok hne
  have hwrite := writeEntry_only (s := { s with
    pmm := (pmmAllocPage s.pmm).2
    mem := fill s.mem (pmmAllocPage s.pmm).1 pageSize 0 }) hd hroot ht i hkeep
    ((pmmAllocPage s.pmm).1 ||| pagePresent ||| pageWritable)
  simp only [Vmm.only_pmm, Vmm.only_hhdmOffset, Vmm.only_pml4] at hfill hclear hwrite ⊢
  rw [hptr, hclear, hfill, hwrite]

omit h in
/-- A table below the root is in a frame of its own. -/
theorem ne_root {s : Vmm} (h : PageTree s top root) {p : List (Fin 512)} {t : ℕ}
    (hp : p.length ≤ 3) (hne : p ≠ []) (ht : walk (childOf s.mem) root p = some t) : t ≠ root := by
  rintro rfl
  exact hne (h.distinct p [] t hp (by simp) ht rfl)

/-- One level of the tables: both memories get the same table, and what the masked memory has
then is a tree again. -/
theorem ensureTable_level {p : List (Fin 512)} {t : ℕ} (hp : p.length ≤ 2)
    (ht : walk (childOf (s.only root keep).mem) root p = some t) (i : Fin 512)
    (hkeep : p = [] → keep i = true) :
    ∃ r s', ensureTable s (t + s.hhdmOffset) i = (r, s') ∧
      ensureTable (s.only root keep) (t + s.hhdmOffset) i = (r, s'.only root keep) ∧
      PageTree (s'.only root keep) top root ∧ s'.hhdmOffset = s.hhdmOffset ∧
      (r ≠ null → ∃ c, r = c + s.hhdmOffset ∧
        walk (childOf (s'.only root keep).mem) root (p ++ [i]) = some c) := by
  have honly := h.ensureTable_only (h.frame_ok p t (by omega) ht) i fun heq => by
    by_contra hk
    exact h.ne_root (by omega) (fun hnil => hk (hkeep hnil)) ht heq
  obtain ⟨r, s₁, he, htree, hgrows, hr⟩ := h.ensureTable_spec hp ht i
  rcases hs : ensureTable s (t + s.hhdmOffset) i with ⟨r', s'⟩
  rw [hs] at honly
  obtain ⟨rfl, rfl⟩ := Prod.mk.inj (honly.symm.trans he)
  refine ⟨_, _, rfl, honly, htree, hgrows.hhdm, fun hne => ?_⟩
  obtain ⟨hnull, -⟩ | ⟨-, hc⟩ := hr
  · exact absurd hnull hne
  · exact hc

/-- The page table that `vmm_map` gets is the same in both memories. -/
theorem ensureTables_only (virt : ℕ) (hkeep : keep (pml4Index virt) = true) :
    ∃ r s', ensureTables s virt = (r, s') ∧
      ensureTables (s.only root keep) virt = (r, s'.only root keep) ∧
      PageTree (s'.only root keep) top root ∧
      (r ≠ null → ∃ pt, r = pt + s'.hhdmOffset ∧
        walk (childOf (s'.only root keep).mem) root (tablePath virt) = some pt) := by
  set i₄ : Fin 512 := ⟨pml4Index virt, index_lt virt 39⟩
  set i₃ : Fin 512 := ⟨pdptIndex virt, index_lt virt 30⟩
  set i₂ : Fin 512 := ⟨pdIndex virt, index_lt virt 21⟩
  have hpml4 : s.pml4 = root + s.hhdmOffset := h.pml4
  unfold ensureTables
  rw [Vmm.only_pml4, hpml4]
  obtain ⟨r₄, s₄, he₄, ho₄, h₄, hh₄, hr₄⟩ := h.ensureTable_level (by simp) (walk_nil _ root) i₄
    fun _ => hkeep
  rw [show pml4Index virt = (i₄ : ℕ) from rfl, he₄, ho₄]
  dsimp only
  by_cases hn₄ : r₄ = null
  · rw [if_pos hn₄, if_pos hn₄]
    exact ⟨_, _, rfl, rfl, h₄, fun hne => absurd rfl hne⟩
  obtain ⟨t₄, rfl, hw₄⟩ := hr₄ hn₄
  rw [if_neg hn₄, if_neg hn₄, ← hh₄]
  obtain ⟨r₃, s₃, he₃, ho₃, h₃, hh₃, hr₃⟩ := h₄.ensureTable_level (by simp) hw₄ i₃
    (fun hnil => absurd hnil (by simp))
  rw [show pdptIndex virt = (i₃ : ℕ) from rfl, he₃, ho₃]
  dsimp only
  by_cases hn₃ : r₃ = null
  · rw [if_pos hn₃, if_pos hn₃]
    exact ⟨_, _, rfl, rfl, h₃, fun hne => absurd rfl hne⟩
  obtain ⟨t₃, rfl, hw₃⟩ := hr₃ hn₃
  rw [if_neg hn₃, if_neg hn₃, ← hh₃]
  obtain ⟨r₂, s₂, he₂, ho₂, h₂, hh₂, hr₂⟩ := h₃.ensureTable_level (by simp) hw₃ i₂
    (fun hnil => absurd hnil (by simp))
  refine ⟨r₂, s₂, he₂, ho₂, h₂, fun hne => ?_⟩
  rw [hh₂]
  exact hr₂ hne

/-- `vmm_map` does not notice the other entries of `pml4`. -/
theorem vmmMap_only (virt phys flags : ℕ) (hkeep : keep (pml4Index virt) = true) :
    vmmMap (s.only root keep) virt phys flags = (vmmMap s virt phys flags).only root keep := by
  obtain ⟨r, s', he, ho, htree, hpt⟩ := h.ensureTables_only virt hkeep
  unfold vmmMap
  rw [he, ho]
  dsimp only
  split_ifs with hnull
  · rfl
  · obtain ⟨pt, rfl, hw⟩ := hpt hnull
    have hne := htree.ne_root (by simp) (by simp [tablePath]) hw
    exact writeEntry_only (s := s') htree.directMap htree.walk_root.1
      (htree.frame_ok _ pt (by simp) hw) (leafIndex virt) (fun heq => absurd heq hne)
      (phys ||| flags)

theorem nextTable_level {p : List (Fin 512)} {t : ℕ} (hp : p.length ≤ 2)
    (ht : walk (childOf (s.only root keep).mem) root p = some t) (i : Fin 512)
    (hkeep : p = [] → keep i = true) :
    ∃ r, nextTable s (t + s.hhdmOffset) i = r ∧
      nextTable (s.only root keep) (t + s.hhdmOffset) i = r ∧
      (r ≠ null → ∃ c, r = c + s.hhdmOffset ∧
        walk (childOf (s.only root keep).mem) root (p ++ [i]) = some c) := by
  have honly := nextTable_only (s := s) h.directMap h.walk_root.1 (h.frame_ok p t (by omega) ht) i
    fun heq => by
      by_contra hk
      exact h.ne_root (by omega) (fun hnil => hk (hkeep hnil)) ht heq
  refine ⟨_, rfl, honly, fun hne => ?_⟩
  have hnext : nextTable (s.only root keep) (t + s.hhdmOffset) i = _ := h.nextTable_eq hp ht i
  rw [honly] at hnext
  cases hw : walk (childOf (s.only root keep).mem) root (p ++ [i]) with
  | none =>
    rw [hw] at hnext
    exact absurd hnext hne
  | some c =>
    rw [hw] at hnext
    exact ⟨c, hnext, rfl⟩

/-- `vmm_translate` does not notice the other entries of `pml4`. -/
theorem vmmTranslate_only (virt : ℕ) (hkeep : keep (pml4Index virt) = true) :
    vmmTranslate (s.only root keep) virt = vmmTranslate s virt := by
  set i₄ : Fin 512 := ⟨pml4Index virt, index_lt virt 39⟩
  set i₃ : Fin 512 := ⟨pdptIndex virt, index_lt virt 30⟩
  set i₂ : Fin 512 := ⟨pdIndex virt, index_lt virt 21⟩
  have hpml4 : s.pml4 = root + s.hhdmOffset := h.pml4
  simp only [vmmTranslate, Vmm.only_pml4, hpml4]
  obtain ⟨r₄, he₄, ho₄, hr₄⟩ := h.nextTable_level (by simp) (walk_nil _ root) i₄ fun _ => hkeep
  rw [show pml4Index virt = (i₄ : ℕ) from rfl, he₄, ho₄]
  by_cases hn₄ : r₄ = null
  · rw [if_pos hn₄, if_pos hn₄]
  obtain ⟨t₄, rfl, hw₄⟩ := hr₄ hn₄
  rw [if_neg hn₄, if_neg hn₄]
  obtain ⟨r₃, he₃, ho₃, hr₃⟩ := h.nextTable_level (by simp) hw₄ i₃
    fun hnil => absurd hnil (by simp)
  rw [show pdptIndex virt = (i₃ : ℕ) from rfl, he₃, ho₃]
  by_cases hn₃ : r₃ = null
  · rw [if_pos hn₃, if_pos hn₃]
  obtain ⟨t₃, rfl, hw₃⟩ := hr₃ hn₃
  rw [if_neg hn₃, if_neg hn₃]
  obtain ⟨r₂, he₂, ho₂, hr₂⟩ := h.nextTable_level (by simp) hw₃ i₂
    fun hnil => absurd hnil (by simp)
  rw [show pdIndex virt = (i₂ : ℕ) from rfl, he₂, ho₂]
  by_cases hn₂ : r₂ = null
  · rw [if_pos hn₂, if_pos hn₂]
  obtain ⟨pt, rfl, hw₂⟩ := hr₂ hn₂
  rw [if_neg hn₂, if_neg hn₂]
  have hne := h.ne_root (by simp) (by simp) hw₂
  have hread : readEntry (s.only root keep) (pt + s.hhdmOffset) (leafIndex virt) =
      readEntry s (pt + s.hhdmOffset) (leafIndex virt) :=
    readEntry_only (s := s) h.directMap h.walk_root.1 (h.frame_ok _ pt (by simp) hw₂)
      (leafIndex virt) fun heq => absurd heq hne
  rw [show ptIndex virt = (leafIndex virt : ℕ) from rfl, hread]

/-! ### The map of the region -/

/-- `vmm_translate` follows the tables of the region. -/
theorem vmmTranslate_region (virt : ℕ) (hkeep : keep (pml4Index virt) = true) :
    vmmTranslate s virt = (pageMap (s.only root keep) root).translate virt := by
  rw [← h.vmmTranslate_only virt hkeep, h.vmmTranslate_eq]

/-- `vmm_map` writes one entry of the map of the region, if it gets its page table. -/
theorem vmmMap_entry (virt phys flags : ℕ) (hkeep : keep (pml4Index virt) = true) :
    PageTree ((vmmMap s virt phys flags).only root keep) top root ∧
      pageMap ((vmmMap s virt phys flags).only root keep) root =
        if (ensureTables s virt).1 = null then pageMap (s.only root keep) root
        else Function.update (pageMap (s.only root keep) root) (pageOf virt)
          (if entryPresent (phys ||| flags) then some (entryAddress (phys ||| flags))
            else none) := by
  obtain ⟨r, s', he, ho, -⟩ := h.ensureTables_only virt hkeep
  have hafter : (vmmMap s virt phys flags).only root keep =
      if r = null then s'.only root keep
      else writeEntry (s'.only root keep) r (ptIndex virt) (phys ||| flags) := by
    rw [← h.vmmMap_only virt phys flags hkeep, vmmMap, ho]
  rw [hafter, he]
  exact h.write_page virt (phys ||| flags) ho

/-- `vmm_map` updates the map of the region, if it gets its page table. -/
theorem vmmMap_region {virt phys flags : ℕ} (hkeep : keep (pml4Index virt) = true)
    (hphys : pageSize ∣ phys) (hlt : phys < 2 ^ 52) (hpres : flags.testBit 0 = true)
    (hflags : ∀ i, 12 ≤ i → i < 52 → flags.testBit i = false) :
    PageTree ((vmmMap s virt phys flags).only root keep) top root ∧
      ((ensureTables s virt).1 ≠ null →
        pageMap ((vmmMap s virt phys flags).only root keep) root =
          Function.update (pageMap (s.only root keep) root) (pageOf virt) (some phys)) := by
  obtain ⟨htree, hmap⟩ := h.vmmMap_entry virt phys flags hkeep
  refine ⟨htree, fun hne => ?_⟩
  rw [hmap, if_neg hne, entryPresent_or hpres, if_pos rfl, entryAddress_or hphys hlt hflags]

/-- `vmm_map_range` maps the pages of its range, and no others. -/
theorem mapRange_region {virt phys flags n offset : ℕ} (hn : n ≤ 2 ^ 36)
    (hkeep : ∀ k < n, keep (pml4Index (u64 (virt + (offset + k * pageSize)))) = true)
    (hphys : pageSize ∣ phys) (hoffset : pageSize ∣ offset)
    (hlt : phys + offset + n * pageSize ≤ 2 ^ 52) (hpres : flags.testBit 0 = true)
    (hflags : ∀ i, 12 ≤ i → i < 52 → flags.testBit i = false) :
    PageTree ((mapRangeLoop virt phys flags n offset s).only root keep) top root ∧
      (mapRangeFails virt phys flags n offset s = false →
        (∀ k < n, pageMap ((mapRangeLoop virt phys flags n offset s).only root keep) root
          (pageOf (virt + (offset + k * pageSize))) = some (phys + (offset + k * pageSize))) ∧
        ∀ page, (∀ k < n, page ≠ pageOf (virt + (offset + k * pageSize))) →
          pageMap ((mapRangeLoop virt phys flags n offset s).only root keep) root page =
            pageMap (s.only root keep) root page) := by
  induction n generalizing s offset with
  | zero => exact ⟨h, fun _ => ⟨fun k hk => absurd hk (Nat.not_lt_zero k), fun _ _ => rfl⟩⟩
  | succ n ih =>
    have hend : phys + offset + n * pageSize + pageSize ≤ 2 ^ 52 := by
      rw [Nat.succ_mul] at hlt
      omega
    have hpage : 0 < pageSize := by simp [pageSize_eq]
    have hphys' : u64 (phys + offset) = phys + offset := u64_of_lt (by omega)
    have hfirst : keep (pml4Index (u64 (virt + offset))) = true := by
      simpa using hkeep 0 (Nat.succ_pos n)
    have hlt' : phys + offset < 2 ^ 52 := by omega
    obtain ⟨htree, hmap⟩ := h.vmmMap_region hfirst (Dvd.dvd.add hphys hoffset) hlt' hpres hflags
    have hshift : ∀ k, offset + pageSize + k * pageSize = offset + (k + 1) * pageSize := by
      intro k
      rw [Nat.succ_mul]
      omega
    have hkeep' : ∀ k < n, keep (pml4Index (u64 (virt + (offset + pageSize + k * pageSize)))) =
        true := by
      intro k hk
      rw [hshift]
      exact hkeep (k + 1) (by omega)
    obtain ⟨htree', hmap'⟩ := ih htree (by omega) hkeep' (Dvd.dvd.add hoffset dvd_rfl) (by omega)
    simp only [mapRangeLoop, mapRangeFails, hphys', Bool.or_eq_false_iff]
    refine ⟨htree', fun ⟨hfirst', hrest⟩ => ?_⟩
    obtain ⟨hin, hout⟩ := hmap' hrest
    have hupdate := hmap (beq_eq_false_iff_ne.mp hfirst')
    rw [pageOf_u64] at hupdate
    simp only [hshift] at hin hout
    constructor
    · intro k hk
      cases k with
      | succ k => exact hin k (by omega)
      | zero =>
        rw [hout, hupdate, Nat.zero_mul, Nat.add_zero, Function.update_self]
        intro k' hk'
        rw [ne_eq, pageOf_eq_iff, pageSize_eq]
        omega
    · intro page hpage
      rw [hout page fun k hk => hpage (k + 1) (by omega), hupdate]
      refine Function.update_of_ne ?_ ..
      simpa using hpage 0 (Nat.succ_pos n)

omit h in
/-- Writing outside of the page tables leaves them alone. -/
theorem write_outside {s : Vmm} (h : PageTree s top root) {m : Mem}
    (hm : ∀ (q : List (Fin 512)) (f : ℕ), q.length ≤ 3 → walk (childOf s.mem) root q = some f →
      ∀ a, f ≤ a → a < f + pageSize → m a = s.mem a) :
    PageTree { s with mem := m } top root ∧ ∀ q : List (Fin 512), q.length ≤ 4 →
      walk (childOf m) root q = walk (childOf s.mem) root q := by
  have hload : ∀ q f, q.length ≤ 3 → walk (childOf s.mem) root q = some f → ∀ i : Fin 512,
      load m (f + 8 * i) 8 = load s.mem (f + 8 * i) 8 := by
    intro q f hq hf i
    have hi := i.isLt
    refine load_congr fun k hk => hm q f hq hf _ ?_ ?_
    · omega
    · rw [pageSize_eq]
      omega
  have hwalk : ∀ q : List (Fin 512), q.length ≤ 4 →
      walk (childOf m) root q = walk (childOf s.mem) root q := by
    intro q hq
    apply walk_congr
    intro p i t heq f hf
    have hlen := congrArg List.length heq
    simp only [List.length_append, List.length_cons] at hlen
    rw [childOf, childOf, hload p f (by omega) hf i]
  refine ⟨⟨h.pml4, h.directMap, h.pmm, fun q f hq hf => ?_, fun a b f ha hb hfa hfb => ?_,
    fun q f hq hf => ?_, fun q f hq hf i hpres => ?_⟩, hwalk⟩
  · exact h.frame_ok q f hq (hwalk q (by omega) ▸ hf)
  · exact h.distinct a b f ha hb (hwalk a (by omega) ▸ hfa) (hwalk b (by omega) ▸ hfb)
  · exact h.used q f hq (hwalk q (by omega) ▸ hf)
  · have hf' : walk (childOf s.mem) root q = some f := hwalk q (by omega) ▸ hf
    have hsame := hload q f (by omega) hf' i
    dsimp only at hpres ⊢
    rw [hsame] at hpres ⊢
    exact h.notHuge q f hq hf' i hpres

omit h in
/-- Writing to a frame that is free leaves the tables alone. -/
theorem write_free {s : Vmm} (h : PageTree s top root) {c : ℕ} (hc : s.pmm.Free c) {m : Mem}
    (hm : ∀ a, ¬ (c ≤ a ∧ a < c + pageSize) → m a = s.mem a) :
    PageTree { s with mem := m } top root ∧ pageMap { s with mem := m } root = pageMap s root := by
  have hcok := h.pmm.free_ok hc
  obtain ⟨htree, hwalk⟩ := h.write_outside (m := m) fun q f hq hf a hlo hhi => hm a <| by
    have hne : f ≠ c := fun heq => h.used q f hq hf (heq ▸ hc)
    have hapart := frame_apart (h.frame_ok q f hq hf).1 hcok.1 hne
    omega
  exact ⟨htree, funext fun page => hwalk _ (by simp)⟩

end PageTree

end Bethany
