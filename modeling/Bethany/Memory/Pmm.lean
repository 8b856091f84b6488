import Bethany.Library.Machine

/-!
# The physical memory manager

`pmm.c` hands out 4 KiB pages of the usable regions of the memory map.  A page is known by
two names: its *bit number*, which counts pages through all usable regions in order, and
its *address*, which is relative to the region it lies in.  `pmm_alloc_page` turns the
first into the second and `pmm_free_page` the second into the first.

* the source: `pmmInit`, `pmmAllocPage`, `pmmFreePage` and the bit operations on `bitmap`;
* `framesOf`: the addresses of all pages in the order of their bit numbers, which both
  translations are about (`pageAddress_eq`, `freeIndex_some`);
* `Pmm.WF`: the usable table is aligned, ascending and below `top`;
* `pmmAllocPage_cases`: everything one allocation can do.

`bitmap` is the array the pointer of that name refers to.  It is a component of its own
here: its storage is disjoint from every page handed out (`Bethany.Memory.PmmSafety`).
-/

namespace Bethany

open Machine

/-- `PAGE_SIZE` -/
def pageSize : ℕ := 4096

/-- The null pointer. -/
def null : ℕ := 0

theorem pageSize_eq : pageSize = 4096 := rfl

/-- `memory_type_t` -/
inductive MemoryType
  | usable
  | reserved
  | acpiReclaimable
  | acpiNvs
  | bootloaderReclaimable
  | kernel
  | framebuffer
  | badMemory
  | unknown
  deriving DecidableEq

/-- `memory_region_t` -/
structure MemoryRegion where
  base : ℕ
  length : ℕ
  type : MemoryType
  deriving DecidableEq

/-- `pmm_region_t` -/
structure PmmRegion where
  base : ℕ
  pages : ℕ
  deriving DecidableEq

/-- The static variables of `pmm.c`; `usable` stands for the first `usable_count` entries
of the array of that name. -/
structure Pmm where
  usable : List PmmRegion
  bitmap : Mem
  pageCount : ℕ
  bitmapSize : ℕ
  bitmapPhys : ℕ

/-! ### The bitmap -/

/-- `bitmap_set` -/
def bitmapSet (s : Pmm) (bit : ℕ) : Pmm :=
  { s with bitmap := Function.update s.bitmap (bit / 8) (s.bitmap (bit / 8) ||| 1#8 <<< (bit % 8)) }

/-- `bitmap_clear` -/
def bitmapClear (s : Pmm) (bit : ℕ) : Pmm :=
  { s with
    bitmap := Function.update s.bitmap (bit / 8) (s.bitmap (bit / 8) &&& ~~~(1#8 <<< (bit % 8))) }

/-- `bitmap_test` -/
def bitmapTest (s : Pmm) (bit : ℕ) : Byte := s.bitmap (bit / 8) &&& 1#8 <<< (bit % 8)

/-! ### Initialisation -/

/-- The first loop of `pmm_init`: the usable entries of the memory map, in order. -/
def usableEntries : List MemoryRegion → List PmmRegion
  | [] => []
  | r :: rs =>
      if r.type = .usable then ⟨r.base, r.length / pageSize⟩ :: usableEntries rs
      else usableEntries rs

/-- `pmm_init`.  `none` is the `hlt` loop entered when no usable region has a page (or when
the address computed for the bitmap is the null pointer). -/
def pmmInit (regions : List MemoryRegion) (hhdm : ℕ) (s : Pmm) : Option Pmm :=
  let usable := usableEntries regions
  let pageCount := usable.foldl (fun n r => u64 (n + r.pages)) 0
  let bitmapSize := u64 (pageCount + 7) / 8
  match usable.find? (fun r => u64 (r.pages * pageSize) ≠ 0) with
  | none => none
  | some r =>
      if u64 (r.base + hhdm) = null then none
      else
        let bitmapPages := u64 (bitmapSize + pageSize - 1) / pageSize
        some ((List.range bitmapPages).foldl bitmapSet
          { usable := usable
            bitmap := fill s.bitmap 0 bitmapSize 0
            pageCount := pageCount
            bitmapSize := bitmapSize
            bitmapPhys := r.base })

/-! ### Allocation -/

/-- The inner loop of `pmm_alloc_page`: the address of page number `index`, counted through
the regions. -/
def pageAddress : List PmmRegion → ℕ → Option ℕ
  | [], _ => none
  | r :: rs, index =>
      if index < r.pages then some (u64 (r.base + index * pageSize))
      else pageAddress rs (index - r.pages)

/-- The outer loop of `pmm_alloc_page` with `n` bits still to look at, from `bit` on. -/
def allocLoop (s : Pmm) : ℕ → ℕ → ℕ × Pmm
  | 0, _ => (null, s)
  | n + 1, bit =>
      if bitmapTest s bit ≠ 0 then allocLoop s n (bit + 1)
      else
        match pageAddress s.usable bit with
        | some page => (page, bitmapSet s bit)
        | none => allocLoop (bitmapSet s bit) n (bit + 1)

/-- `pmm_alloc_page` -/
def pmmAllocPage (s : Pmm) : ℕ × Pmm := allocLoop s s.pageCount 0

/-- The loop of `pmm_free_page`: the bit number of the page that holds `addr`, where `bit`
pages lie in the regions already passed. -/
def freeIndex (addr : ℕ) : List PmmRegion → ℕ → Option ℕ
  | [], _ => none
  | r :: rs, bit =>
      if r.base ≤ addr ∧ addr < u64 (r.base + r.pages * pageSize) then
        some (bit + (addr - r.base) / pageSize)
      else freeIndex addr rs (bit + r.pages)

/-- `pmm_free_page`; an address in no usable region is reported and otherwise ignored. -/
def pmmFreePage (s : Pmm) (page : ℕ) : Pmm :=
  if page = null then s
  else
    match freeIndex page s.usable 0 with
    | some bit => bitmapClear s bit
    | none => s

/-! ### Bits -/

/-- Bit `bit` of the bitmap is set: the page with that number is not free. -/
def Pmm.Used (s : Pmm) (bit : ℕ) : Prop := bitmapTest s bit ≠ 0

instance (s : Pmm) (bit : ℕ) : Decidable (s.Used bit) := inferInstanceAs (Decidable (_ ≠ _))

theorem used_iff (s : Pmm) (bit : ℕ) :
    s.Used bit ↔ (s.bitmap (bit / 8)).getLsbD (bit % 8) = true := by
  have h8 : bit % 8 < 8 := Nat.mod_lt _ (by norm_num)
  have hbit : ∀ j < 8, (bitmapTest s bit).getLsbD j =
      ((s.bitmap (bit / 8)).getLsbD j && decide (j = bit % 8)) := fun j hj => by
    rw [bitmapTest, BitVec.getLsbD_and, getLsbD_one_shiftLeft hj]
  constructor
  · intro h
    by_contra hc
    refine h (BitVec.eq_of_getLsbD_eq fun j hj => ?_)
    rw [hbit j hj, show (0 : Byte).getLsbD j = false from BitVec.getLsbD_zero]
    by_cases hj8 : j = bit % 8
    · rw [hj8, Bool.eq_false_iff.2 hc, Bool.false_and]
    · rw [decide_eq_false hj8, Bool.and_false]
  · intro h h0
    have := hbit (bit % 8) h8
    rw [h0, h] at this
    simp at this

@[simp] theorem used_bitmapSet (s : Pmm) (i j : ℕ) :
    (bitmapSet s i).Used j ↔ j = i ∨ s.Used j := by
  have h8 : j % 8 < 8 := Nat.mod_lt _ (by norm_num)
  rw [used_iff, used_iff]
  by_cases hb : j / 8 = i / 8
  · rw [bitmapSet]
    simp only [hb, Function.update_self]
    rw [BitVec.getLsbD_or, getLsbD_one_shiftLeft h8, Bool.or_eq_true, decide_eq_true_eq]
    have : j % 8 = i % 8 ↔ j = i := by omega
    rw [this, or_comm]
  · have hne : j ≠ i := fun h => hb (by rw [h])
    simp [bitmapSet, Function.update_of_ne hb, hne]

@[simp] theorem used_bitmapClear (s : Pmm) (i j : ℕ) :
    (bitmapClear s i).Used j ↔ j ≠ i ∧ s.Used j := by
  have h8 : j % 8 < 8 := Nat.mod_lt _ (by norm_num)
  rw [used_iff, used_iff]
  by_cases hb : j / 8 = i / 8
  · rw [bitmapClear]
    simp only [hb, Function.update_self]
    rw [BitVec.getLsbD_and, BitVec.getLsbD_not, getLsbD_one_shiftLeft h8]
    have : j % 8 = i % 8 ↔ j = i := by omega
    simp [h8, this, and_comm]
  · have hne : j ≠ i := fun h => hb (by rw [h])
    simp [bitmapClear, Function.update_of_ne hb, hne]

@[simp] theorem bitmapSet_usable (s : Pmm) (i : ℕ) : (bitmapSet s i).usable = s.usable := rfl
@[simp] theorem bitmapSet_pageCount (s : Pmm) (i : ℕ) :
    (bitmapSet s i).pageCount = s.pageCount := rfl
@[simp] theorem bitmapClear_usable (s : Pmm) (i : ℕ) : (bitmapClear s i).usable = s.usable := rfl
@[simp] theorem bitmapClear_pageCount (s : Pmm) (i : ℕ) :
    (bitmapClear s i).pageCount = s.pageCount := rfl

/-! ### Pages and their addresses -/

/-- The pages of one region, by address. -/
def PmmRegion.frames (r : PmmRegion) : List ℕ :=
  (List.range r.pages).map fun i => r.base + i * pageSize

/-- All pages by address, in the order of their bit numbers. -/
def framesOf (rs : List PmmRegion) : List ℕ := rs.flatMap PmmRegion.frames

/-- The usable table is page-aligned, ascending without overlap, and ends at or below `top`. -/
structure UsableOk (rs : List PmmRegion) (top : ℕ) : Prop where
  aligned : ∀ r ∈ rs, pageSize ∣ r.base
  ascending : rs.Pairwise fun r r' => r.base + r.pages * pageSize ≤ r'.base
  below : ∀ r ∈ rs, r.base + r.pages * pageSize ≤ top

theorem UsableOk.tail {r : PmmRegion} {rs : List PmmRegion} {top : ℕ}
    (h : UsableOk (r :: rs) top) : UsableOk rs top where
  aligned r' hr' := h.aligned r' (List.mem_cons_of_mem _ hr')
  ascending := (List.pairwise_cons.1 h.ascending).2
  below r' hr' := h.below r' (List.mem_cons_of_mem _ hr')

theorem PmmRegion.length_frames (r : PmmRegion) : r.frames.length = r.pages := by
  simp [PmmRegion.frames]

theorem PmmRegion.mem_frames {r : PmmRegion} {f : ℕ} :
    f ∈ r.frames ↔ ∃ i < r.pages, f = r.base + i * pageSize := by
  simp [PmmRegion.frames, eq_comm]

theorem mem_framesOf {rs : List PmmRegion} {f : ℕ} :
    f ∈ framesOf rs ↔ ∃ r ∈ rs, ∃ i < r.pages, f = r.base + i * pageSize := by
  simp [framesOf, PmmRegion.mem_frames]

theorem framesOf_cons (r : PmmRegion) (rs : List PmmRegion) :
    framesOf (r :: rs) = r.frames ++ framesOf rs := rfl

/-- A page lies wholly in a region of the table, on a page boundary. -/
theorem UsableOk.frame_ok {rs : List PmmRegion} {top f : ℕ} (h : UsableOk rs top)
    (hf : f ∈ framesOf rs) : pageSize ∣ f ∧ f + pageSize ≤ top := by
  obtain ⟨r, hr, i, hi, rfl⟩ := mem_framesOf.1 hf
  refine ⟨Dvd.dvd.add (h.aligned r hr) (Dvd.intro_left i rfl), ?_⟩
  have hb := h.below r hr
  rw [pageSize_eq] at hb ⊢
  omega

/-- Pages with ascending bit numbers have ascending addresses and do not overlap. -/
theorem UsableOk.frames_pairwise {rs : List PmmRegion} {top : ℕ} (h : UsableOk rs top) :
    (framesOf rs).Pairwise fun f g => f + pageSize ≤ g := by
  rw [framesOf, List.pairwise_flatMap]
  constructor
  · intro r _
    rw [PmmRegion.frames, List.pairwise_map]
    refine List.pairwise_lt_range.imp fun {i j} hij => ?_
    rw [pageSize_eq]
    omega
  · refine h.ascending.imp fun {r r'} hle f hf g hg => ?_
    obtain ⟨i, hi, rfl⟩ := PmmRegion.mem_frames.1 hf
    obtain ⟨j, hj, rfl⟩ := PmmRegion.mem_frames.1 hg
    rw [pageSize_eq] at hle ⊢
    omega

theorem UsableOk.frames_nodup {rs : List PmmRegion} {top : ℕ} (h : UsableOk rs top) :
    (framesOf rs).Nodup := by
  refine h.frames_pairwise.imp fun {f g} hfg heq => ?_
  rw [pageSize_eq] at hfg
  omega

/-- A page has one bit number. -/
theorem UsableOk.bit_unique {rs : List PmmRegion} {top i j f : ℕ} (h : UsableOk rs top)
    (hi : (framesOf rs)[i]? = some f) (hj : (framesOf rs)[j]? = some f) : i = j := by
  obtain ⟨hil, hif⟩ := List.getElem?_eq_some_iff.1 hi
  obtain ⟨hjl, hjf⟩ := List.getElem?_eq_some_iff.1 hj
  exact (List.Nodup.getElem_inj_iff h.frames_nodup).1 (hif.trans hjf.symm)

/-- Page number `i` lies at least `i` pages above page number `0`. -/
theorem UsableOk.frame_ge {rs : List PmmRegion} {top f g : ℕ} (h : UsableOk rs top)
    (hf : (framesOf rs)[0]? = some f) (i : ℕ) (hg : (framesOf rs)[i]? = some g) :
    f + i * pageSize ≤ g := by
  induction i generalizing g with
  | zero => rw [hf] at hg; cases hg; omega
  | succ i ih =>
    obtain ⟨hi, hgi⟩ := List.getElem?_eq_some_iff.1 hg
    have hprev := ih (List.getElem?_eq_getElem (by omega : i < (framesOf rs).length))
    have hstep := List.pairwise_iff_getElem.1 h.frames_pairwise i (i + 1) (by omega) hi (by omega)
    rw [hgi] at hstep
    rw [Nat.succ_mul]
    omega

/-- The address computed for a bit number is that of the page with this number. -/
theorem pageAddress_eq {rs : List PmmRegion} {top : ℕ} (h : UsableOk rs top)
    (htop : top ≤ 2 ^ 64) (i : ℕ) : pageAddress rs i = (framesOf rs)[i]? := by
  induction rs generalizing i with
  | nil => rfl
  | cons r rs ih =>
    rw [pageAddress, framesOf_cons]
    split_ifs with hi
    · rw [List.getElem?_append_left (by rwa [r.length_frames]), PmmRegion.frames,
        List.getElem?_map, List.getElem?_range hi, Option.map_some]
      have hb := h.below r (List.mem_cons_self ..)
      have hlt : r.base + i * pageSize < 2 ^ 64 := by
        rw [pageSize_eq] at hb ⊢
        omega
      rw [u64_of_lt hlt]
    · rw [ih h.tail, List.getElem?_append_right (by rw [r.length_frames]; omega),
        r.length_frames]

/-- The bit number computed for an address is that of the page the address lies in. -/
theorem freeIndex_some {rs : List PmmRegion} {addr b₀ b : ℕ}
    (h : freeIndex addr rs b₀ = some b) :
    b₀ ≤ b ∧ ∃ f, (framesOf rs)[b - b₀]? = some f ∧ f ≤ addr ∧ addr < f + pageSize := by
  induction rs generalizing b₀ with
  | nil => cases h
  | cons r rs ih =>
    rw [freeIndex] at h
    split_ifs at h with hr
    · cases h
      obtain ⟨hlo, hhi⟩ := hr
      have hend : addr < r.base + r.pages * pageSize := lt_of_lt_of_le hhi (Nat.mod_le _ _)
      have hidx : (addr - r.base) / pageSize < r.pages := by
        rw [pageSize_eq] at hend ⊢
        omega
      refine ⟨Nat.le_add_right _ _, r.base + (addr - r.base) / pageSize * pageSize, ?_, ?_, ?_⟩
      · rw [framesOf_cons, Nat.add_sub_cancel_left,
          List.getElem?_append_left (by rwa [r.length_frames]), PmmRegion.frames,
          List.getElem?_map, List.getElem?_range hidx, Option.map_some]
      · rw [pageSize_eq]
        omega
      · rw [pageSize_eq]
        omega
    · obtain ⟨hle, f, hf, hlo, hhi⟩ := ih h
      refine ⟨by omega, f, ?_, hlo, hhi⟩
      rw [framesOf_cons, List.getElem?_append_right (by rw [r.length_frames]; omega),
        r.length_frames, show b - b₀ - r.pages = b - (b₀ + r.pages) by omega, hf]

/-! ### Well-formed states and one allocation -/

/-- The usable table is in order and `page_count` counts its pages. -/
structure Pmm.WF (s : Pmm) (top : ℕ) : Prop where
  usable : UsableOk s.usable top
  pageCount : s.pageCount = (framesOf s.usable).length

theorem Pmm.WF.bitmapSet {s : Pmm} {top : ℕ} (h : s.WF top) (i : ℕ) : (bitmapSet s i).WF top :=
  ⟨h.usable, h.pageCount⟩

theorem Pmm.WF.bitmapClear {s : Pmm} {top : ℕ} (h : s.WF top) (i : ℕ) :
    (bitmapClear s i).WF top :=
  ⟨h.usable, h.pageCount⟩

/-- The page at address `f` is free. -/
def Pmm.Free (s : Pmm) (f : ℕ) : Prop :=
  ∃ bit, ¬ s.Used bit ∧ (framesOf s.usable)[bit]? = some f

theorem allocLoop_cases {s : Pmm} {top : ℕ} (h : s.WF top) (htop : top ≤ 2 ^ 64) {n i : ℕ}
    (hn : i + n = s.pageCount) :
    ((∀ j, i ≤ j → j < s.pageCount → s.Used j) ∧ allocLoop s n i = (null, s)) ∨
    ∃ bit f, i ≤ bit ∧ bit < s.pageCount ∧ ¬ s.Used bit ∧
      (∀ j, i ≤ j → j < bit → s.Used j) ∧ (framesOf s.usable)[bit]? = some f ∧
      allocLoop s n i = (f, bitmapSet s bit) := by
  induction n generalizing i with
  | zero => exact Or.inl ⟨fun j h1 h2 => by omega, rfl⟩
  | succ n ih =>
    rw [allocLoop]
    split_ifs with hused
    · rcases ih (i := i + 1) (by omega) with ⟨hall, heq⟩ | ⟨bit, f, hle, hlt, hfree, hmin, hf, heq⟩
      · refine Or.inl ⟨fun j h1 h2 => ?_, heq⟩
        rcases Nat.eq_or_lt_of_le h1 with rfl | hlt
        · exact hused
        · exact hall j hlt h2
      · refine Or.inr ⟨bit, f, by omega, hlt, hfree, fun j h1 h2 => ?_, hf, heq⟩
        rcases Nat.eq_or_lt_of_le h1 with rfl | hlt'
        · exact hused
        · exact hmin j hlt' h2
    · have hi : i < (framesOf s.usable).length := by rw [← h.pageCount]; omega
      rw [pageAddress_eq h.usable htop, List.getElem?_eq_getElem hi]
      exact Or.inr ⟨i, _, le_rfl, by omega, hused, fun j h1 h2 => by omega,
        List.getElem?_eq_getElem hi, rfl⟩

/-- What an allocation does: either every page is taken and nothing changes, or it takes the
page with the lowest free bit number. -/
theorem pmmAllocPage_cases {s : Pmm} {top : ℕ} (h : s.WF top) (htop : top ≤ 2 ^ 64) :
    ((∀ j < s.pageCount, s.Used j) ∧ pmmAllocPage s = (null, s)) ∨
    ∃ bit f, bit < s.pageCount ∧ ¬ s.Used bit ∧ (∀ j < bit, s.Used j) ∧
      (framesOf s.usable)[bit]? = some f ∧ pmmAllocPage s = (f, bitmapSet s bit) := by
  rcases allocLoop_cases h htop (i := 0) (n := s.pageCount) (by omega) with
    ⟨hall, heq⟩ | ⟨bit, f, -, hlt, hfree, hmin, hf, heq⟩
  · exact Or.inl ⟨fun j => hall j (Nat.zero_le j), heq⟩
  · exact Or.inr ⟨bit, f, hlt, hfree, fun j => hmin j (Nat.zero_le j), hf, heq⟩

/-- An allocation keeps the allocator in order and frees nothing. -/
theorem Pmm.WF.alloc {s : Pmm} {top : ℕ} (h : s.WF top) (htop : top ≤ 2 ^ 64) :
    (pmmAllocPage s).2.WF top ∧ ∀ f, (pmmAllocPage s).2.Free f → s.Free f := by
  rcases pmmAllocPage_cases h htop with ⟨-, heq⟩ | ⟨bit, f, -, -, -, -, heq⟩
  · rw [heq]
    exact ⟨h, fun f hf => hf⟩
  · rw [heq]
    refine ⟨h.bitmapSet bit, ?_⟩
    rintro g ⟨b, hb, hg⟩
    rw [used_bitmapSet, not_or] at hb
    exact ⟨b, hb.2, hg⟩

/-- The page handed out was free and is free no longer. -/
theorem Pmm.WF.alloc_page {s : Pmm} {top : ℕ} (h : s.WF top) (htop : top ≤ 2 ^ 64)
    (hne : (pmmAllocPage s).1 ≠ null) :
    s.Free (pmmAllocPage s).1 ∧ ¬ (pmmAllocPage s).2.Free (pmmAllocPage s).1 := by
  rcases pmmAllocPage_cases h htop with ⟨-, heq⟩ | ⟨bit, f, -, hfree, -, hf, heq⟩
  · rw [heq] at hne
    exact absurd rfl hne
  · rw [heq]
    refine ⟨⟨bit, hfree, hf⟩, ?_⟩
    rintro ⟨b, hb, hg⟩
    rw [used_bitmapSet, not_or] at hb
    exact hb.1 (h.usable.bit_unique hg hf)

/-! ### Taking pages -/

/-- `s'` is `s` after pages may have been taken, and none returned. -/
structure Pmm.Takes (s s' : Pmm) : Prop where
  usable : s'.usable = s.usable
  pageCount : s'.pageCount = s.pageCount
  used : ∀ bit, s.Used bit → s'.Used bit

theorem Pmm.Takes.refl (s : Pmm) : s.Takes s := ⟨rfl, rfl, fun _ h => h⟩

theorem Pmm.Takes.trans {s s' s'' : Pmm} (h : s.Takes s') (h' : s'.Takes s'') : s.Takes s'' :=
  ⟨h'.usable.trans h.usable, h'.pageCount.trans h.pageCount,
    fun bit hb => h'.used bit (h.used bit hb)⟩

theorem Pmm.Takes.bitmapSet (s : Pmm) (i : ℕ) : s.Takes (bitmapSet s i) :=
  ⟨rfl, rfl, fun _ hb => (used_bitmapSet _ _ _).mpr (.inr hb)⟩

theorem Pmm.Takes.allocLoop (s : Pmm) (n bit : ℕ) : s.Takes (allocLoop s n bit).2 := by
  induction n generalizing s bit with
  | zero => exact .refl s
  | succ n ih =>
    unfold Bethany.allocLoop
    split_ifs
    · exact ih s (bit + 1)
    · cases pageAddress s.usable bit with
      | some page => exact .bitmapSet s bit
      | none => exact .trans (.bitmapSet s bit) (ih _ (bit + 1))

theorem Pmm.Takes.alloc (s : Pmm) : s.Takes (pmmAllocPage s).2 := .allocLoop s s.pageCount 0

/-- A page that is free afterwards was free before. -/
theorem Pmm.Takes.free {s s' : Pmm} (h : s.Takes s') {f : ℕ} (hf : s'.Free f) : s.Free f := by
  obtain ⟨bit, hbit, hframe⟩ := hf
  exact ⟨bit, fun hused => hbit (h.used bit hused), h.usable ▸ hframe⟩

theorem Pmm.WF.free_ok {s : Pmm} {top f : ℕ} (h : s.WF top) (hf : s.Free f) :
    pageSize ∣ f ∧ f + pageSize ≤ top := by
  obtain ⟨bit, -, hbit⟩ := hf
  exact h.usable.frame_ok (List.mem_of_getElem? hbit)

end Bethany
