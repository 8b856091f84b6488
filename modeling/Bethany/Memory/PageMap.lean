import Bethany.Memory.Vmm

/-!
# Page tables as a partial map

The purpose of the page tables is a partial map from virtual pages to page frames.  This file
states the map (`pageMap`), the shape of memory under which the tables represent it
(`PageTree`: the tables reached from `pml4` form a tree of distinct frames), and proves that
`vmm_map` and `vmm_unmap` update it at one page.

* `Page`, `PageMap`, `PageMap.translate`: the abstract view;
* `PageTree`: the representation invariant, with `vmmTranslate_eq`;
* `Grows`: what taking missing tables into the tree changes, and leaves alone;
* `ensureTables_spec`, `vmmMap_spec`, `vmmUnmap_spec`: one call;
* `vmm_refines_partialMap`: whole runs.
-/

namespace Bethany

open Machine Walk

/-! ### The abstract view -/

/-- A virtual page: bits 12 to 47 of an address. -/
abbrev Page := Fin (2 ^ 36)

/-- The page an address lies in. -/
def pageOf (addr : ℕ) : Page := ⟨addr / pageSize % 2 ^ 36, Nat.mod_lt _ (by norm_num)⟩

/-- A partial map from virtual pages to page frames. -/
abbrev PageMap := Page → Option ℕ

/-- The physical address of `addr`, or `0` when its page is not mapped. -/
def PageMap.translate (m : PageMap) (addr : ℕ) : ℕ :=
  match m (pageOf addr) with
  | none => 0
  | some frame => frame + addr % pageSize

/-- The entries of the four tables that are read for a page. -/
def pathOf (page : Page) : List (Fin 512) :=
  [⟨page / 2 ^ 27 % 512, Nat.mod_lt _ (by norm_num)⟩,
    ⟨page / 2 ^ 18 % 512, Nat.mod_lt _ (by norm_num)⟩,
    ⟨page / 2 ^ 9 % 512, Nat.mod_lt _ (by norm_num)⟩,
    ⟨page % 512, Nat.mod_lt _ (by norm_num)⟩]

/-- The entries that lead to the page table for an address. -/
def tablePath (addr : ℕ) : List (Fin 512) :=
  [⟨pml4Index addr, index_lt addr 39⟩, ⟨pdptIndex addr, index_lt addr 30⟩,
    ⟨pdIndex addr, index_lt addr 21⟩]

/-- The entry of the page table for an address. -/
def leafIndex (addr : ℕ) : Fin 512 := ⟨ptIndex addr, index_lt addr 12⟩

theorem pathOf_injective : Function.Injective pathOf := by
  intro p q h
  simp only [pathOf, List.cons.injEq, Fin.mk.injEq, and_true] at h
  obtain ⟨h1, h2, h3, h4⟩ := h
  have hp := p.isLt
  have hq := q.isLt
  apply Fin.ext
  omega

theorem pathOf_pageOf (addr : ℕ) : pathOf (pageOf addr) = tablePath addr ++ [leafIndex addr] := by
  simp only [pathOf, tablePath, leafIndex, pageOf, pml4Index, pdptIndex, pdIndex, ptIndex,
    index_eq, pageSize_eq, List.cons_append, List.nil_append, List.cons.injEq, Fin.mk.injEq,
    and_true]
  refine ⟨?_, ?_, ?_, ?_⟩ <;> omega

@[simp] theorem length_pathOf (page : Page) : (pathOf page).length = 4 := rfl
@[simp] theorem length_tablePath (addr : ℕ) : (tablePath addr).length = 3 := rfl

/-! ### The tables in memory -/

/-- The frame entry `i` of the table in frame `f` refers to. -/
def childOf (m : Mem) (f : ℕ) (i : Fin 512) : Option ℕ :=
  if entryPresent (load m (f + 8 * i) 8) then some (entryAddress (load m (f + 8 * i) 8)) else none

/-- The partial map that the tables below `root` represent. -/
def pageMap (s : Vmm) (root : ℕ) : PageMap := fun page => walk (childOf s.mem) root (pathOf page)

/-- The 4 KiB tables reached from `pml4`, which points to the frame `root`, form a tree of
distinct frames of the physical memory below `top`.  None of them is free, and no present
entry above the last level is marked `PAGE_HUGE`. -/
structure PageTree (s : Vmm) (top root : ℕ) : Prop where
  pml4 : s.pml4 = root + s.hhdmOffset
  directMap : DirectMap s.hhdmOffset top
  pmm : s.pmm.WF top
  frame_ok : ∀ p f, p.length ≤ 3 → walk (childOf s.mem) root p = some f →
    pageSize ∣ f ∧ f + pageSize ≤ top
  distinct : Distinct (childOf s.mem) root 3
  used : ∀ p f, p.length ≤ 3 → walk (childOf s.mem) root p = some f → ¬ s.pmm.Free f
  notHuge : ∀ p f, p.length ≤ 2 → walk (childOf s.mem) root p = some f → ∀ i : Fin 512,
    entryPresent (load s.mem (f + 8 * i) 8) = true → load s.mem (f + 8 * i) 8 &&& pageHuge = 0

variable {s s' s'' : Vmm} {top root : ℕ}

/-! ### Entries of distinct frames do not overlap -/

theorem frame_apart {f g : ℕ} (hf : pageSize ∣ f) (hg : pageSize ∣ g) (hne : f ≠ g) :
    f + pageSize ≤ g ∨ g + pageSize ≤ f := by
  obtain ⟨a, rfl⟩ := hf
  obtain ⟨b, rfl⟩ := hg
  rw [pageSize_eq] at hne ⊢
  omega

theorem entry_apart {f g : ℕ} (hf : pageSize ∣ f) (hg : pageSize ∣ g) {i j : Fin 512}
    (hne : ¬ (g = f ∧ j = i)) : f + 8 * i + 8 ≤ g + 8 * j ∨ g + 8 * j + 8 ≤ f + 8 * i := by
  have hi := i.isLt
  have hj := j.isLt
  by_cases hfg : g = f
  · have hij : (j : ℕ) ≠ i := fun h => hne ⟨hfg, Fin.ext h⟩
    subst hfg
    omega
  · have := frame_apart hf hg (Ne.symm hfg)
    rw [pageSize_eq] at this
    omega

/-- Storing one entry leaves the other entries of all tables alone. -/
theorem childOf_store_of_ne {m : Mem} {f g v : ℕ} (hf : pageSize ∣ f) (hg : pageSize ∣ g)
    {i j : Fin 512} (hne : ¬ (g = f ∧ j = i)) :
    childOf (store m (f + 8 * i) 8 v) g j = childOf m g j := by
  rw [childOf, childOf, load_store_disjoint (entry_apart hf hg hne)]

theorem childOf_store_same (m : Mem) (f v : ℕ) (i : Fin 512) :
    childOf (store m (f + 8 * i) 8 v) f i =
      if entryPresent v then some (entryAddress v) else none := by
  rw [childOf, load_store_same, show 256 ^ 8 = 2 ^ 64 by norm_num, entryPresent_mod,
    entryAddress_mod]

/-- Clearing a frame leaves the entries of other frames alone. -/
theorem load_fill_of_ne {m : Mem} {c g : ℕ} (hc : pageSize ∣ c) (hg : pageSize ∣ g) (hne : g ≠ c)
    (j : Fin 512) : load (fill m c pageSize 0) (g + 8 * j) 8 = load m (g + 8 * j) 8 := by
  have hj := j.isLt
  apply load_fill_disjoint 0
  have := frame_apart hc hg (Ne.symm hne)
  rw [pageSize_eq] at this ⊢
  omega

theorem childOf_fill_same (m : Mem) (c : ℕ) (j : Fin 512) :
    childOf (fill m c pageSize 0) c j = none := by
  have hj := j.isLt
  have h0 : load (fill m c pageSize 0) (c + 8 * j) 8 = 0 :=
    load_fill_zero (by omega) (by rw [pageSize_eq]; omega)
  rw [childOf, h0]
  rfl

/-! ### Translation -/

namespace PageTree

/-- A `pml4` without a present entry is a tree of its own. -/
theorem of_empty (hpml4 : s.pml4 = root + s.hhdmOffset) (hd : DirectMap s.hhdmOffset top)
    (hpmm : s.pmm.WF top) (hroot : pageSize ∣ root ∧ root + pageSize ≤ top)
    (hfree : ¬ s.pmm.Free root) (hempty : ∀ i, childOf s.mem root i = none) :
    PageTree s top root := by
  have hwalk : ∀ p f, walk (childOf s.mem) root p = some f → p = [] ∧ f = root := by
    intro p f hf
    cases p with
    | nil => exact ⟨rfl, (Option.some.inj hf).symm⟩
    | cons i p =>
      rw [walk_cons, hempty i] at hf
      cases hf
  refine ⟨hpml4, hd, hpmm, fun p f _ hf => ?_, fun p q f _ _ hp hq => ?_, fun p f _ hf => ?_,
    fun p f _ hf i hpres => ?_⟩
  · rw [(hwalk p f hf).2]
    exact hroot
  · rw [(hwalk p f hp).1, (hwalk q f hq).1]
  · rw [(hwalk p f hf).2]
    exact hfree
  · have := hempty i
    rw [(hwalk p f hf).2] at hpres
    rw [childOf, if_pos hpres] at this
    cases this

theorem walk_root (h : PageTree s top root) : pageSize ∣ root ∧ root + pageSize ≤ top :=
  h.frame_ok [] root (by simp) rfl

/-- A pointer into the direct map is not null and has not wrapped around. -/
theorem ptr_ok (h : PageTree s top root) {f : ℕ} (hf : f + pageSize ≤ top) :
    u64 (f + s.hhdmOffset) = f + s.hhdmOffset ∧ f + s.hhdmOffset ≠ null := by
  have hfits := h.directMap.fits
  have hpos := h.directMap.pos
  rw [pageSize_eq] at hf
  refine ⟨u64_of_lt (by omega), ?_⟩
  rw [null]
  omega

/-- `next_table` follows an entry of a table of the tree. -/
theorem nextTable_eq (h : PageTree s top root) {p : List (Fin 512)} {f : ℕ} (hp : p.length ≤ 2)
    (hf : walk (childOf s.mem) root p = some f) (i : Fin 512) :
    nextTable s (f + s.hhdmOffset) i =
      match walk (childOf s.mem) root (p ++ [i]) with
      | none => null
      | some c => c + s.hhdmOffset := by
  have hread := readEntry_ptr h.directMap (h.frame_ok p f (by omega) hf).2 i
  have hwalk : walk (childOf s.mem) root (p ++ [i]) = childOf s.mem f i := by
    rw [walk_concat, hf]
    rfl
  rw [nextTable, hread, hwalk, childOf]
  cases hpres : entryPresent (load s.mem (f + 8 * i) 8) with
  | false => rfl
  | true =>
    rw [childOf, hpres, if_pos rfl] at hwalk
    have hc := h.frame_ok (p ++ [i]) _ (by simp; omega) hwalk
    simp only [Bool.not_true, Bool.false_eq_true, if_false, if_true]
    exact (h.ptr_ok hc.2).1

/-- An entry of a table of the tree is present exactly if it leads to a table. -/
theorem entryPresent_eq (h : PageTree s top root) {p : List (Fin 512)} {t : ℕ}
    (hp : p.length ≤ 3) (ht : walk (childOf s.mem) root p = some t) (i : Fin 512) :
    entryPresent (readEntry s (t + s.hhdmOffset) i) = (childOf s.mem t i).isSome := by
  rw [readEntry_ptr h.directMap (h.frame_ok p t hp ht).2 i, childOf]
  cases entryPresent (load s.mem (t + 8 * i) 8) <;> rfl

/-- **`vmm_translate` computes the abstract map.** -/
theorem vmmTranslate_eq (h : PageTree s top root) (virt : ℕ) :
    vmmTranslate s virt = (pageMap s root).translate virt := by
  rw [PageMap.translate, pageMap, pathOf_pageOf]
  set i₄ : Fin 512 := ⟨pml4Index virt, index_lt virt 39⟩ with hi₄
  set i₃ : Fin 512 := ⟨pdptIndex virt, index_lt virt 30⟩ with hi₃
  set i₂ : Fin 512 := ⟨pdIndex virt, index_lt virt 21⟩ with hi₂
  have hpath : tablePath virt = [i₄, i₃, i₂] := rfl
  have hnil : walk (childOf s.mem) root [] = some root := rfl
  have h₄ := h.nextTable_eq (by simp) hnil i₄
  rw [hpath, vmmTranslate, h.pml4, show pml4Index virt = (i₄ : ℕ) from rfl, h₄, List.nil_append]
  cases hw₄ : walk (childOf s.mem) root [i₄] with
  | none =>
    rw [show [i₄, i₃, i₂] ++ [leafIndex virt] = [i₄] ++ [i₃, i₂, leafIndex virt] from rfl,
      walk_append, hw₄]
    rfl
  | some pdpt =>
    have hok₄ := h.frame_ok [i₄] pdpt (by simp) hw₄
    have h₃ := h.nextTable_eq (by simp) hw₄ i₃
    simp only [if_neg (h.ptr_ok hok₄.2).2]
    rw [show pdptIndex virt = (i₃ : ℕ) from rfl, h₃]
    cases hw₃ : walk (childOf s.mem) root ([i₄] ++ [i₃]) with
    | none =>
      rw [show [i₄, i₃, i₂] ++ [leafIndex virt] = ([i₄] ++ [i₃]) ++ [i₂, leafIndex virt] from rfl,
        walk_append, hw₃]
      rfl
    | some pd =>
      have hok₃ := h.frame_ok _ pd (by simp) hw₃
      have h₂ := h.nextTable_eq (by simp) hw₃ i₂
      simp only [if_neg (h.ptr_ok hok₃.2).2]
      rw [show pdIndex virt = (i₂ : ℕ) from rfl, h₂]
      cases hw₂ : walk (childOf s.mem) root ([i₄] ++ [i₃] ++ [i₂]) with
      | none =>
        rw [show [i₄, i₃, i₂] ++ [leafIndex virt] =
            ([i₄] ++ [i₃] ++ [i₂]) ++ [leafIndex virt] from rfl, walk_append, hw₂]
        rfl
      | some pt =>
        have hok₂ := h.frame_ok _ pt (by simp) hw₂
        have hread := readEntry_ptr h.directMap hok₂.2 (leafIndex virt)
        simp only [if_neg (h.ptr_ok hok₂.2).2]
        rw [show ptIndex virt = (leafIndex virt : ℕ) from rfl, hread,
          show [i₄, i₃, i₂] ++ [leafIndex virt] =
            ([i₄] ++ [i₃] ++ [i₂]) ++ [leafIndex virt] from rfl, walk_concat, hw₂,
          Option.bind_some, childOf, pageOffset_eq]
        cases entryPresent (load s.mem (pt + 8 * (leafIndex virt)) 8) <;> rfl

/-! ### Writing a leaf entry -/

/-- Writing an entry of a table of the last level changes the walk that ends there. -/
theorem write_leaf (h : PageTree s top root) {p : List (Fin 512)} {pt : ℕ} (hp : p.length = 3)
    (hpt : walk (childOf s.mem) root p = some pt) (i : Fin 512) (entry : ℕ) :
    PageTree (writeEntry s (pt + s.hhdmOffset) i entry) top root ∧
      ∀ q : List (Fin 512), q.length ≤ 4 →
        walk (childOf (writeEntry s (pt + s.hhdmOffset) i entry).mem) root q =
          if q = p ++ [i] then if entryPresent entry then some (entryAddress entry) else none
          else walk (childOf s.mem) root q := by
  have hok := h.frame_ok p pt (by omega) hpt
  rw [writeEntry_ptr h.directMap hok.2]
  have hwalk : ∀ q : List (Fin 512), q.length ≤ 4 →
      walk (childOf (store s.mem (pt + 8 * i) 8 entry)) root q =
        if q = p ++ [i] then if entryPresent entry then some (entryAddress entry) else none
        else walk (childOf s.mem) root q := fun q hq =>
    walk_set h.distinct (by omega) hpt
      (fun a u ha hu j hne => childOf_store_of_ne hok.1 (h.frame_ok a u ha hu).1 hne)
      (childOf_store_same s.mem pt entry i) (Or.inl hp) hq
  have hsame : ∀ q : List (Fin 512), q.length ≤ 3 →
      walk (childOf (store s.mem (pt + 8 * i) 8 entry)) root q = walk (childOf s.mem) root q := by
    intro q hq
    rw [hwalk q (by omega), if_neg]
    rintro rfl
    simp at hq
    omega
  refine ⟨⟨h.pml4, h.directMap, h.pmm, fun q f hq hf => ?_, fun a b t ha hb hat hbt => ?_,
    fun q f hq hf => ?_, fun q f hq hf j => ?_⟩, hwalk⟩
  · rw [hsame q hq] at hf
    exact h.frame_ok q f hq hf
  · rw [hsame a ha] at hat
    rw [hsame b hb] at hbt
    exact h.distinct a b t ha hb hat hbt
  · rw [hsame q hq] at hf
    exact h.used q f hq hf
  · rw [hsame q (by omega)] at hf
    have hqf := h.frame_ok q f (by omega) hf
    -- An upper table is not the page table that is written to.
    have hne : ¬ (f = pt ∧ j = i) := by
      rintro ⟨rfl, -⟩
      have := h.distinct q p f (by omega) (by omega) hf hpt
      rw [this] at hq
      omega
    dsimp only
    rw [load_store_disjoint (entry_apart hok.1 hqf.1 hne)]
    exact h.notHuge q f hq hf j

/-! ### Adding a table -/

/-- Taking frames from the allocator, without touching memory, keeps the tree. -/
theorem allocated (h : PageTree s top root) :
    PageTree { s with pmm := (pmmAllocPage s.pmm).2 } top root := by
  have htop : top ≤ 2 ^ 64 := h.directMap.top_le.trans (by norm_num)
  obtain ⟨hwf, hfree⟩ := h.pmm.alloc htop
  exact ⟨h.pml4, h.directMap, hwf, h.frame_ok, h.distinct,
    fun p f hp hf hf' => h.used p f hp hf (hfree f hf'), h.notHuge⟩

/-- The memory after a zeroed frame `c` has been entered at entry `i` of the table `t`. -/
def tableMem (m : Mem) (t : ℕ) (i : Fin 512) (c : ℕ) : Mem :=
  store (fill m c pageSize 0) (t + 8 * i) 8 (c ||| pagePresent ||| pageWritable)

section tableMem

variable {m : Mem} {t c : ℕ} {i : Fin 512} (hc : pageSize ∣ c)
include hc

theorem childOf_tableMem_same (hlt : c < 2 ^ 52) : childOf (tableMem m t i c) t i = some c := by
  have hflags : ∀ j, 12 ≤ j → j < 52 → (3 : ℕ).testBit j = false := fun j h12 _ =>
    flags_testBit (by norm_num) h12
  rw [tableMem, childOf_store_same, tableFlags, entryPresent_or rfl, if_pos rfl,
    entryAddress_or hc hlt hflags]

/-- The new table is empty. -/
theorem childOf_tableMem_new (ht : pageSize ∣ t) (hne : c ≠ t) (j : Fin 512) :
    childOf (tableMem m t i c) c j = none := by
  have hct : ¬ (c = t ∧ j = i) := fun h => hne h.1
  rw [tableMem, childOf_store_of_ne ht hc hct, childOf_fill_same]

theorem load_tableMem_of_ne (ht : pageSize ∣ t) {u : ℕ} (hu : pageSize ∣ u) (huc : u ≠ c)
    {j : Fin 512} (hne : ¬ (u = t ∧ j = i)) :
    load (tableMem m t i c) (u + 8 * j) 8 = load m (u + 8 * j) 8 := by
  rw [tableMem, load_store_disjoint (entry_apart ht hu hne), load_fill_of_ne hc hu huc]

theorem childOf_tableMem_of_ne (ht : pageSize ∣ t) {u : ℕ} (hu : pageSize ∣ u) (huc : u ≠ c)
    {j : Fin 512} (hne : ¬ (u = t ∧ j = i)) :
    childOf (tableMem m t i c) u j = childOf m u j := by
  rw [childOf, childOf, load_tableMem_of_ne hc ht hu huc hne]

theorem notHuge_tableMem (hlt : c < 2 ^ 52) :
    load (tableMem m t i c) (t + 8 * i) 8 &&& pageHuge = 0 := by
  rw [tableMem, load_store_same, tableFlags]
  apply and_pageHuge
  rw [show 256 ^ 8 = 2 ^ 64 by norm_num, Nat.testBit_mod_two_pow, Nat.testBit_or,
    testBit_of_aligned hc hlt (by norm_num)]
  rfl

end tableMem

/-- Entering a zeroed free frame where there was no table extends the tree by that table. -/
theorem add_table (h : PageTree s top root) {p : List (Fin 512)} {t : ℕ} (hp : p.length ≤ 2)
    (ht : walk (childOf s.mem) root p = some t) {i : Fin 512} (hnone : childOf s.mem t i = none)
    (hne : (pmmAllocPage s.pmm).1 ≠ null) :
    PageTree { s with
        pmm := (pmmAllocPage s.pmm).2
        mem := tableMem s.mem t i (pmmAllocPage s.pmm).1 } top root ∧
      ∀ q : List (Fin 512), q.length ≤ 4 →
        walk (childOf (tableMem s.mem t i (pmmAllocPage s.pmm).1)) root q =
          if q = p ++ [i] then some (pmmAllocPage s.pmm).1 else walk (childOf s.mem) root q := by
  have htop : top ≤ 2 ^ 64 := h.directMap.top_le.trans (by norm_num)
  obtain ⟨hwf, hfree⟩ := h.pmm.alloc htop
  obtain ⟨hcfree, hcused⟩ := h.pmm.alloc_page htop hne
  set c := (pmmAllocPage s.pmm).1 with hc
  have hcok := h.pmm.free_ok hcfree
  have hclt : c < 2 ^ 52 := by
    have := h.directMap.top_le
    have := hcok.2
    rw [pageSize_eq] at this
    omega
  have htok := h.frame_ok p t (by omega) ht
  -- The frame taken is none of the tables, since those are not free.
  have hfresh : ∀ q u, q.length ≤ 3 → walk (childOf s.mem) root q = some u → u ≠ c := by
    rintro q u hq hu rfl
    exact h.used q _ hq hu hcfree
  have hnew : childOf (tableMem s.mem t i c) t i = some c := childOf_tableMem_same hcok.1 hclt
  have hold : ∀ q u, q.length ≤ 3 → walk (childOf s.mem) root q = some u →
      ∀ j, ¬ (u = t ∧ j = i) → childOf (tableMem s.mem t i c) u j = childOf s.mem u j := by
    intro q u hq hu j hne'
    exact childOf_tableMem_of_ne hcok.1 htok.1 (h.frame_ok q u hq hu).1 (hfresh q u hq hu) hne'
  have hempty : ∀ j, childOf (tableMem s.mem t i c) c j = none := fun j =>
    childOf_tableMem_new hcok.1 htok.1 (hfresh p t (by omega) ht).symm j
  have hwalk : ∀ q : List (Fin 512), q.length ≤ 4 →
      walk (childOf (tableMem s.mem t i c)) root q =
        if q = p ++ [i] then some c else walk (childOf s.mem) root q := fun q hq =>
    walk_set h.distinct (by omega) ht hold hnew
      (Or.inr ⟨hnone, fun d hd j => by rw [← Option.some.inj hd]; exact hempty j⟩) hq
  refine ⟨⟨h.pml4, h.directMap, hwf, fun q f hq hf => ?_, ?_, fun q f hq hf => ?_,
    fun q f hq hf j => ?_⟩, hwalk⟩
  · dsimp only at hf
    rw [hwalk q (by omega)] at hf
    split_ifs at hf with heq
    · cases hf
      exact hcok
    · exact h.frame_ok q f hq hf
  · apply h.distinct.set (fun q hq => hwalk q (by omega))
    intro d hd q hq hqd
    cases hd
    exact hfresh q c hq hqd rfl
  · dsimp only at hf ⊢
    rw [hwalk q (by omega)] at hf
    split_ifs at hf with heq
    · cases hf
      exact hcused
    · exact fun hf' => h.used q f hq hf (hfree f hf')
  · dsimp only at hf ⊢
    rw [hwalk q (by omega)] at hf
    split_ifs at hf with heq
    · cases hf
      have := hempty j
      rw [childOf] at this
      split_ifs at this with hpres
      exact fun h' => absurd h' hpres
    · have hfok := (h.frame_ok q f (by omega) hf).1
      by_cases hti : f = t ∧ j = i
      · obtain ⟨rfl, rfl⟩ := hti
        exact fun _ => notHuge_tableMem hcok.1 hclt
      · rw [load_tableMem_of_ne hcok.1 htok.1 hfok (hfresh q f (by omega) hf) hti]
        exact h.notHuge q f hq hf j

end PageTree

/-! ### Taking missing tables into the tree -/

/-- `s'` has the tables of `s` and perhaps some more, but represents the same map. -/
structure Grows (s s' : Vmm) (root : ℕ) : Prop where
  hhdm : s'.hhdmOffset = s.hhdmOffset
  tables : ∀ q t, q.length ≤ 3 → walk (childOf s.mem) root q = some t →
    walk (childOf s'.mem) root q = some t
  leaves : ∀ q : List (Fin 512), q.length = 4 →
    walk (childOf s'.mem) root q = walk (childOf s.mem) root q

theorem Grows.refl (s : Vmm) (root : ℕ) : Grows s s root :=
  ⟨rfl, fun _ _ _ h => h, fun _ _ => rfl⟩

theorem Grows.trans (h : Grows s s' root) (h' : Grows s' s'' root) : Grows s s'' root :=
  ⟨h'.hhdm.trans h.hhdm, fun q t hq ht => h'.tables q t hq (h.tables q t hq ht),
    fun q hq => (h'.leaves q hq).trans (h.leaves q hq)⟩

/-- A table missing afterwards was missing before. -/
theorem Grows.missing (h : Grows s s' root) {q : List (Fin 512)} (hq : q.length ≤ 3)
    (hw : walk (childOf s'.mem) root q = none) : walk (childOf s.mem) root q = none := by
  cases hs : walk (childOf s.mem) root q with
  | none => rfl
  | some t =>
    rw [h.tables q t hq hs] at hw
    cases hw

theorem Grows.pageMap (h : Grows s s' root) : Bethany.pageMap s' root = Bethany.pageMap s root :=
  funext fun page => h.leaves (pathOf page) rfl

namespace PageTree

/-- Where there is no table, `ensure_table` enters a cleared page, if there is one left. -/
theorem ensureTable_new (h : PageTree s top root) {p : List (Fin 512)} {t : ℕ}
    (hp : p.length ≤ 2) (ht : walk (childOf s.mem) root p = some t) {i : Fin 512}
    (hnone : childOf s.mem t i = none) (hne : (pmmAllocPage s.pmm).1 ≠ null) :
    ensureTable s (t + s.hhdmOffset) i =
      ((pmmAllocPage s.pmm).1 + s.hhdmOffset,
        { s with
          pmm := (pmmAllocPage s.pmm).2
          mem := tableMem s.mem t i (pmmAllocPage s.pmm).1 }) := by
  have htok := h.frame_ok p t (by omega) ht
  have hcok := h.pmm.free_ok (h.pmm.alloc_page (h.directMap.top_le.trans (by norm_num)) hne).1
  have habsent : ¬ entryPresent (load s.mem (t + 8 * i) 8) = true := by
    intro hpres
    rw [childOf, if_pos hpres] at hnone
    cases hnone
  have hclear := clearTable_ptr (s := { s with pmm := (pmmAllocPage s.pmm).2 }) h.directMap hcok.2
  have hwrite := writeEntry_ptr (s := { s with
    pmm := (pmmAllocPage s.pmm).2
    mem := fill s.mem (pmmAllocPage s.pmm).1 pageSize 0 }) h.directMap htok.2 i
    ((pmmAllocPage s.pmm).1 ||| pagePresent ||| pageWritable)
  rw [ensureTable, readEntry_ptr h.directMap htok.2 i, if_neg habsent, if_neg hne]
  dsimp only at hclear hwrite ⊢
  rw [(h.ptr_ok hcok.2).1, hclear, hwrite]
  rfl

/-- What `ensure_table` does at entry `i` of the table at the end of `p`: it leads to the table
there, now part of the tree, or returns the null pointer when there was none; the map
represented stays the same. -/
theorem ensureTable_spec (h : PageTree s top root) {p : List (Fin 512)} {t : ℕ}
    (hp : p.length ≤ 2) (ht : walk (childOf s.mem) root p = some t) (i : Fin 512) :
    ∃ r s', ensureTable s (t + s.hhdmOffset) i = (r, s') ∧ PageTree s' top root ∧
      Grows s s' root ∧
      (r = null ∧ walk (childOf s.mem) root (p ++ [i]) = none ∨
        r ≠ null ∧ ∃ c, r = c + s.hhdmOffset ∧ walk (childOf s'.mem) root (p ++ [i]) = some c) := by
  have htok := h.frame_ok p t (by omega) ht
  have hwalk : walk (childOf s.mem) root (p ++ [i]) = childOf s.mem t i := by
    rw [walk_concat, ht]
    rfl
  have hread := readEntry_ptr h.directMap htok.2 i
  by_cases hpres : entryPresent (load s.mem (t + 8 * i) 8) = true
  · -- The table exists already.
    have hchild : childOf s.mem t i = some (entryAddress (load s.mem (t + 8 * i) 8)) := by
      rw [childOf, if_pos hpres]
    rw [ensureTable, hread, if_pos hpres, h.nextTable_eq hp ht i, hwalk, hchild]
    have hok := h.frame_ok (p ++ [i]) _ (by simp; omega) (hwalk.trans hchild)
    exact ⟨_, s, rfl, h, Grows.refl s root,
      Or.inr ⟨(h.ptr_ok hok.2).2, _, rfl, hwalk.trans hchild⟩⟩
  · have hchild : childOf s.mem t i = none := by rw [childOf, if_neg hpres]
    by_cases hnull : (pmmAllocPage s.pmm).1 = null
    · -- There is no page left for it.
      rw [ensureTable, hread, if_neg hpres, if_pos hnull]
      exact ⟨_, _, rfl, h.allocated, ⟨rfl, fun _ _ _ hq => hq, fun _ _ => rfl⟩,
        Or.inl ⟨rfl, hwalk.trans hchild⟩⟩
    · -- A new table is cleared and entered.
      rw [h.ensureTable_new hp ht hchild hnull]
      have hcok := h.pmm.free_ok (h.pmm.alloc_page
        (h.directMap.top_le.trans (by norm_num)) hnull).1
      obtain ⟨htree, hadd⟩ := h.add_table hp ht hchild hnull
      refine ⟨_, _, rfl, htree, ⟨rfl, fun q u hq hu => ?_, fun q hq => ?_⟩,
        Or.inr ⟨(h.ptr_ok hcok.2).2, _, rfl, ?_⟩⟩
      · exact (hadd q (by omega)).trans (by
          rw [if_neg, hu]
          rintro rfl
          rw [hwalk, hchild] at hu
          cases hu)
      · exact (hadd q (by omega)).trans (if_neg fun heq => by
          rw [heq, List.length_append, List.length_singleton] at hq
          omega)
      · exact (hadd _ (by rw [List.length_append, List.length_singleton]; omega)).trans
          (if_pos rfl)

/-- A table reached along a list of entries needs the table at every step. -/
theorem walk_none {m : Mem} {p : List (Fin 512)} (h : walk (childOf m) root p = none)
    (q : List (Fin 512)) : walk (childOf m) root (p ++ q) = none := by
  rw [walk_append, h]
  rfl

/-- The three calls that open `vmm_map` and `vmm_unmap`.  They fail only when the page table
for `virt` was missing. -/
theorem ensureTables_spec (h : PageTree s top root) (virt : ℕ) :
    ∃ r s', ensureTables s virt = (r, s') ∧ PageTree s' top root ∧ Grows s s' root ∧
      (r = null ∧ walk (childOf s.mem) root (tablePath virt) = none ∨
        r ≠ null ∧ ∃ pt, r = pt + s'.hhdmOffset ∧
          walk (childOf s'.mem) root (tablePath virt) = some pt) := by
  set i₄ : Fin 512 := ⟨pml4Index virt, index_lt virt 39⟩
  set i₃ : Fin 512 := ⟨pdptIndex virt, index_lt virt 30⟩
  set i₂ : Fin 512 := ⟨pdIndex virt, index_lt virt 21⟩
  have hpath : tablePath virt = [i₄, i₃, i₂] := rfl
  obtain ⟨r₄, s₄, he₄, h₄, g₄, hr₄⟩ := h.ensureTable_spec (by simp) (walk_nil _ root) i₄
  rw [← h.pml4] at he₄
  rw [ensureTables, show pml4Index virt = (i₄ : ℕ) from rfl, he₄]
  dsimp only
  obtain ⟨hn₄, hw₄⟩ | ⟨hn₄, t₄, rfl, hw₄⟩ := hr₄
  · rw [if_pos hn₄]
    exact ⟨_, s₄, rfl, h₄, g₄, Or.inl ⟨rfl, walk_none hw₄ [i₃, i₂]⟩⟩
  rw [if_neg hn₄]
  obtain ⟨r₃, s₃, he₃, h₃, g₃, hr₃⟩ := h₄.ensureTable_spec (by simp) hw₄ i₃
  rw [g₄.hhdm] at he₃ hr₃
  rw [show pdptIndex virt = (i₃ : ℕ) from rfl, he₃]
  dsimp only
  obtain ⟨hn₃, hw₃⟩ | ⟨hn₃, t₃, rfl, hw₃⟩ := hr₃
  · rw [if_pos hn₃]
    exact ⟨_, s₃, rfl, h₃, g₄.trans g₃,
      Or.inl ⟨rfl, walk_none (g₄.missing (by simp) hw₃) [i₂]⟩⟩
  rw [if_neg hn₃]
  obtain ⟨r₂, s₂, he₂, h₂, g₂, hr₂⟩ := h₃.ensureTable_spec (by simp) hw₃ i₂
  rw [g₃.hhdm, g₄.hhdm] at he₂ hr₂
  refine ⟨r₂, s₂, he₂, h₂, (g₄.trans g₃).trans g₂, ?_⟩
  rw [hpath, g₂.hhdm, g₃.hhdm, g₄.hhdm]
  exact hr₂.imp_left fun ⟨hn₂, hw₂⟩ => ⟨hn₂, (g₄.trans g₃).missing (by simp) hw₂⟩

/-! ### One call -/

/-- `vmm_map` and `vmm_unmap` share this shape: they write one leaf entry of the page table for
`virt`, if they get hold of that table. -/
theorem write_page (h : PageTree s top root) (virt entry : ℕ) {r : ℕ}
    (he : ensureTables s virt = (r, s')) :
    PageTree (if r = null then s' else writeEntry s' r (ptIndex virt) entry) top root ∧
      pageMap (if r = null then s' else writeEntry s' r (ptIndex virt) entry) root =
        if r = null then pageMap s root
        else Function.update (pageMap s root) (pageOf virt)
          (if entryPresent entry then some (entryAddress entry) else none) := by
  obtain ⟨r', t', he', htree, hgrows, hr⟩ := h.ensureTables_spec virt
  rw [he] at he'
  cases he'
  obtain ⟨hnull, -⟩ | ⟨hnull, pt, rfl, hpt⟩ := hr
  · rw [if_pos hnull, if_pos hnull]
    exact ⟨htree, hgrows.pageMap⟩
  rw [if_neg hnull, if_neg hnull]
  obtain ⟨hw, hwalk⟩ := htree.write_leaf (length_tablePath virt) hpt (leafIndex virt) entry
  refine ⟨hw, funext fun page => ?_⟩
  have hpage := hwalk (pathOf page) (by simp)
  rw [← pathOf_pageOf] at hpage
  rw [Function.update_apply, ← hgrows.pageMap]
  apply hpage.trans
  by_cases heq : page = pageOf virt
  · rw [heq, if_pos rfl, if_pos rfl]
  · rw [if_neg (fun hp => heq (pathOf_injective hp)), if_neg heq]
    rfl

/-- **`vmm_map` refines an update of the map**, unless an intermediate table is missing and
cannot be allocated. -/
theorem vmmMap_spec (h : PageTree s top root) {virt phys flags : ℕ} (hphys : pageSize ∣ phys)
    (hlt : phys < 2 ^ 52) (hpres : flags.testBit 0 = true)
    (hflags : ∀ i, 12 ≤ i → i < 52 → flags.testBit i = false) :
    PageTree (vmmMap s virt phys flags) top root ∧
      pageMap (vmmMap s virt phys flags) root =
        if (ensureTables s virt).1 = null then pageMap s root
        else Function.update (pageMap s root) (pageOf virt) (some phys) := by
  have := h.write_page virt (phys ||| flags) (Prod.mk.eta (p := ensureTables s virt)).symm
  rwa [entryPresent_or hpres, if_pos rfl, entryAddress_or hphys hlt hflags] at this

/-- When the page table for `virt` cannot be had, its page is not mapped. -/
theorem unmapped_of_failed (h : PageTree s top root) {virt : ℕ}
    (hnull : (ensureTables s virt).1 = null) : pageMap s root (pageOf virt) = none := by
  obtain ⟨r, s', he, -, -, hr⟩ := h.ensureTables_spec virt
  rw [he] at hnull
  obtain ⟨-, hw⟩ | ⟨hne, -⟩ := hr
  · rw [pageMap, pathOf_pageOf]
    exact walk_none hw _
  · exact absurd hnull hne

/-- **`vmm_unmap` refines the removal of a page from the map.** -/
theorem vmmUnmap_spec (h : PageTree s top root) (virt : ℕ) :
    PageTree (vmmUnmap s virt) top root ∧
      pageMap (vmmUnmap s virt) root = Function.update (pageMap s root) (pageOf virt) none := by
  have := h.write_page virt 0 (Prod.mk.eta (p := ensureTables s virt)).symm
  refine this.imp_right fun hmap => hmap.trans ?_
  rw [show entryPresent 0 = false from rfl, if_neg Bool.false_ne_true]
  split_ifs with hnull
  · rw [← h.unmapped_of_failed hnull, Function.update_eq_self]
  · rfl

end PageTree

/-! ### Runs -/

/-- A call that changes the page tables. -/
inductive VmmCall
  | map (virt phys flags : ℕ)
  | unmap (virt : ℕ)

/-- The arguments are as `vmm_map` expects them: a page address, and flags that contain
`PAGE_PRESENT` and leave bits 12 to 51 to the address. -/
def VmmCall.Ok : VmmCall → Prop
  | .map _ phys flags => pageSize ∣ phys ∧ phys < 2 ^ 52 ∧ flags.testBit 0 = true ∧
      ∀ i, 12 ≤ i → i < 52 → flags.testBit i = false
  | .unmap _ => True

def VmmCall.exec : VmmCall → Vmm → Vmm
  | .map virt phys flags, s => vmmMap s virt phys flags
  | .unmap virt, s => vmmUnmap s virt

/-- The state after a list of calls. -/
def vmmRun (s : Vmm) (calls : List VmmCall) : Vmm := calls.foldl (fun s call => call.exec s) s

theorem PageTree.exec (h : PageTree s top root) {call : VmmCall} (hok : call.Ok) :
    PageTree (call.exec s) top root := by
  cases call with
  | map virt phys flags =>
    obtain ⟨hphys, hlt, hpres, hflags⟩ := hok
    exact (h.vmmMap_spec hphys hlt hpres hflags).1
  | unmap virt => exact (h.vmmUnmap_spec virt).1

theorem PageTree.run (h : PageTree s top root) {calls : List VmmCall}
    (hok : ∀ call ∈ calls, call.Ok) : PageTree (vmmRun s calls) top root := by
  induction calls generalizing s with
  | nil => exact h
  | cons call calls ih =>
    exact ih (h.exec (hok call (List.mem_cons_self ..)))
      fun c hc => hok c (List.mem_cons_of_mem _ hc)

/-- The two addresses agree in bits 12 to 47. -/
def SamePage (v w : ℕ) : Prop := v / 4096 % 2 ^ 36 = w / 4096 % 2 ^ 36

theorem samePage_iff {v w : ℕ} : SamePage v w ↔ pageOf v = pageOf w := by
  rw [SamePage, pageOf, pageOf, Fin.mk.injEq, pageSize_eq]

theorem PageMap.translate_update (m : PageMap) (virt v : ℕ) (x : Option ℕ) :
    PageMap.translate (Function.update m (pageOf virt) x) v =
      if pageOf v = pageOf virt then (match x with | none => 0 | some f => f + v % pageSize)
      else m.translate v := by
  simp only [PageMap.translate, Function.update_apply]
  split_ifs <;> rfl

/-- **The page tables refine a partial map.**  From any memory whose tables form a tree, every
run of `vmm_map` and `vmm_unmap` keeps the tree.  In every state reached, `vmm_map` maps the
page of `virt` and no other, or changes no translation at all when an intermediate table
cannot be allocated; `vmm_unmap` removes the page of `virt` and no other. -/
theorem vmm_refines_partialMap (h : PageTree s top root) {calls : List VmmCall}
    (hcalls : ∀ call ∈ calls, call.Ok) (hs' : s' = vmmRun s calls) :
    PageTree s' top root ∧
    (∀ virt phys flags, (VmmCall.map virt phys flags).Ok →
      ((ensureTables s' virt).1 ≠ null → ∀ v,
        (SamePage v virt → vmmTranslate (vmmMap s' virt phys flags) v = phys + v % 4096) ∧
        (¬ SamePage v virt → vmmTranslate (vmmMap s' virt phys flags) v = vmmTranslate s' v)) ∧
      ((ensureTables s' virt).1 = null → ∀ v,
        vmmTranslate (vmmMap s' virt phys flags) v = vmmTranslate s' v)) ∧
    (∀ virt v, (SamePage v virt → vmmTranslate (vmmUnmap s' virt) v = 0) ∧
      (¬ SamePage v virt → vmmTranslate (vmmUnmap s' virt) v = vmmTranslate s' v)) := by
  subst hs'
  have h' := h.run hcalls
  refine ⟨h', ?_, ?_⟩
  · rintro virt phys flags ⟨hphys, hlt, hpres, hflags⟩
    obtain ⟨htree, hmap⟩ : PageTree (vmmMap _ virt phys flags) top root ∧ _ :=
      h'.vmmMap_spec hphys hlt hpres hflags
    constructor
    · intro hne v
      rw [htree.vmmTranslate_eq, h'.vmmTranslate_eq, hmap, if_neg hne, PageMap.translate_update]
      simp only [samePage_iff]
      exact ⟨fun hv => if_pos hv, fun hv => if_neg hv⟩
    · intro hnull v
      rw [htree.vmmTranslate_eq, h'.vmmTranslate_eq, hmap, if_pos hnull]
  · intro virt v
    obtain ⟨htree, hmap⟩ := h'.vmmUnmap_spec virt
    rw [htree.vmmTranslate_eq, h'.vmmTranslate_eq, hmap, PageMap.translate_update]
    simp only [samePage_iff]
    exact ⟨fun hv => if_pos hv, fun hv => if_neg hv⟩

/-- An empty `pml4` in frame `0x1000` and an allocator with eight free pages above it. -/
def exampleVmm : Vmm where
  mem := fun _ => 0
  pmm := ⟨[⟨0x2000, 8⟩], fun _ => 0, 8, 1, 0x2000⟩
  pml4 := 0x1000 + 0xffff800000000000
  hhdmOffset := 0xffff800000000000

theorem exampleVmm_tree : PageTree exampleVmm 0xa000 0x1000 := by
  have hframes : framesOf exampleVmm.pmm.usable =
      [0x2000, 0x3000, 0x4000, 0x5000, 0x6000, 0x7000, 0x8000, 0x9000] := by decide
  refine PageTree.of_empty rfl ⟨by decide, by decide, by decide⟩ ⟨⟨?_, ?_, ?_⟩, ?_⟩
    ⟨by decide, by decide⟩ ?_ fun i => ?_
  · simp [exampleVmm, pageSize_eq]
  · simp [exampleVmm]
  · simp [exampleVmm, pageSize_eq]
  · rw [hframes]
    rfl
  · rintro ⟨bit, -, hbit⟩
    have := List.mem_of_getElem? hbit
    rw [hframes] at this
    revert this
    decide
  · simp [childOf, load, exampleVmm, entryPresent]

theorem vmm_refines_partialMap_example :
    PageTree (vmmRun exampleVmm [.map 0x400000 0x5000 3, .unmap 0x800000]) 0xa000 0x1000 ∧
      ∀ v, ¬ SamePage v 0x400000 →
        vmmTranslate (vmmUnmap (vmmRun exampleVmm [.map 0x400000 0x5000 3, .unmap 0x800000])
          0x400000) v =
        vmmTranslate (vmmRun exampleVmm [.map 0x400000 0x5000 3, .unmap 0x800000]) v := by
  have hflags : ∀ j, 12 ≤ j → j < 52 → (3 : ℕ).testBit j = false := fun j h12 _ =>
    flags_testBit (by norm_num) h12
  have hcalls : ∀ call ∈ [VmmCall.map 0x400000 0x5000 3, .unmap 0x800000], call.Ok := by
    intro call hcall
    simp only [List.mem_cons, List.not_mem_nil, or_false] at hcall
    rcases hcall with rfl | rfl
    · exact ⟨by decide, by decide, by decide, hflags⟩
    · trivial
  have h := vmm_refines_partialMap exampleVmm_tree hcalls rfl
  exact ⟨h.1, fun v => (h.2.2 0x400000 v).2⟩

end Bethany
