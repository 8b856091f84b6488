import Bethany.Memory.PmmSafety

/-!
# The pages of the physical memory manager, counted

Every page is free, held, or one of those kept for the bitmap, and the bits of the bitmap say
which.  A page that has been handed out is found again by `pmm_free_page` if the regions end
within 64 bits: the end of a region is computed modulo `2 ^ 64`.

* `Pmm.freePages`: the number of clear bits, with what `bitmap_set` and `bitmap_clear` do to it;
* `freeIndex_page`: `pmm_free_page` finds the bit of the page that an address lies in;
* `PmmCall`: a call of a run, where only pages that are held are freed, and addresses outside
  the usable regions at will;
* `Holding.Accounts`, `Holding.Accounts.call`: the balance;
* `pmm_accounting`: whole runs.
-/

namespace Bethany

open Machine Relation

/-- The number of clear bits below `page_count`. -/
def Pmm.freePages (s : Pmm) : ℕ := ((List.range s.pageCount).filter fun bit => ¬ s.Used bit).length

variable {s s₀ : Pmm} {t t' : Holding} {map : MemoryMap} {bit i f page hhdm : ℕ}
  {rs : List PmmRegion}

/-! ### Counting bits -/

theorem Pmm.freePages_eq_card (s : Pmm) :
    s.freePages = ((Finset.range s.pageCount).filter fun bit => ¬ s.Used bit).card := by
  rw [Pmm.freePages, ← List.toFinset_card_of_nodup (List.nodup_range.filter _)]
  congr 1
  ext bit
  simp

/-- Setting a clear bit takes one page. -/
theorem freePages_bitmapSet (hlt : bit < s.pageCount) (hclear : ¬ s.Used bit) :
    (bitmapSet s bit).freePages + 1 = s.freePages := by
  rw [Pmm.freePages_eq_card, Pmm.freePages_eq_card]
  have herase : (Finset.range (bitmapSet s bit).pageCount).filter
      (fun b => ¬ (bitmapSet s bit).Used b) =
        ((Finset.range s.pageCount).filter fun b => ¬ s.Used b).erase bit := by
    ext b
    simp only [bitmapSet_pageCount, used_bitmapSet, not_or, Finset.mem_filter, Finset.mem_range,
      Finset.mem_erase]
    tauto
  rw [herase]
  exact Finset.card_erase_add_one (Finset.mem_filter.mpr ⟨Finset.mem_range.mpr hlt, hclear⟩)

/-- Clearing a bit that is set gives one page back. -/
theorem freePages_bitmapClear (hlt : bit < s.pageCount) (hset : s.Used bit) :
    (bitmapClear s bit).freePages = s.freePages + 1 := by
  rw [Pmm.freePages_eq_card, Pmm.freePages_eq_card]
  have hinsert : (Finset.range (bitmapClear s bit).pageCount).filter
      (fun b => ¬ (bitmapClear s bit).Used b) =
        insert bit ((Finset.range s.pageCount).filter fun b => ¬ s.Used b) := by
    ext b
    simp only [bitmapClear_pageCount, used_bitmapClear, not_and_or, not_not, Finset.mem_filter,
      Finset.mem_range, Finset.mem_insert]
    constructor
    · rintro ⟨hb, rfl | hb'⟩
      · exact .inl rfl
      · exact .inr ⟨hb, hb'⟩
    · rintro (rfl | ⟨hb, hb'⟩)
      · exact ⟨hlt, .inl rfl⟩
      · exact ⟨hb, .inr hb'⟩
  rw [hinsert]
  exact Finset.card_insert_of_notMem fun hmem => (Finset.mem_filter.mp hmem).2 hset

/-- All bits are set if none is clear. -/
theorem freePages_eq_zero_iff : s.freePages = 0 ↔ ∀ bit < s.pageCount, s.Used bit := by
  rw [Pmm.freePages, List.length_eq_zero_iff, List.filter_eq_nil_iff]
  simp

/-- Clearing a bit undoes the setting of it. -/
theorem bitmapClear_bitmapSet (hclear : ¬ s.Used bit) : bitmapClear (bitmapSet s bit) bit = s := by
  rw [used_iff, Bool.not_eq_true] at hclear
  have hbyte : (s.bitmap (bit / 8) ||| 1#8 <<< (bit % 8)) &&& ~~~(1#8 <<< (bit % 8)) =
      s.bitmap (bit / 8) := by
    apply BitVec.eq_of_getLsbD_eq
    intro j hj
    rw [BitVec.getLsbD_and, BitVec.getLsbD_or, BitVec.getLsbD_not, getLsbD_one_shiftLeft hj]
    by_cases hbit : j = bit % 8
    · subst hbit
      simp [hclear]
    · simp [hbit, hj]
  simp only [bitmapClear, bitmapSet, Function.update_self, Function.update_idem, hbyte,
    Function.update_eq_self]

/-! ### Pages and their bits -/

/-- The regions of the table end within 64 bits. -/
def EndsInRange (rs : List PmmRegion) : Prop := ∀ r ∈ rs, r.base + r.pages * pageSize < 2 ^ 64

/-- `pmm_free_page` finds the bit of the page that an address lies in. -/
theorem freeIndex_page {top addr : ℕ} (hok : UsableOk rs top) (hends : EndsInRange rs)
    (hf : (framesOf rs)[i]? = some f) (hlo : f ≤ addr) (hhi : addr < f + pageSize) (b : ℕ) :
    freeIndex addr rs b = some (b + i) := by
  induction rs generalizing i b with
  | nil => cases hf
  | cons r rs ih =>
    have hend := u64_of_lt (hends r List.mem_cons_self)
    unfold freeIndex
    rw [hend]
    rw [framesOf_cons] at hf
    rw [pageSize_eq] at hhi
    by_cases hi : i < r.pages
    · rw [List.getElem?_append_left (by rwa [r.length_frames]), PmmRegion.frames,
        List.getElem?_map, List.getElem?_range hi, Option.map_some] at hf
      obtain rfl := Option.some.inj hf
      rw [pageSize_eq] at hlo hhi ⊢
      have hpage : (addr - r.base) / 4096 = i := by omega
      rw [if_pos (by omega), hpage]
    · rw [List.getElem?_append_right (by rw [r.length_frames]; omega), r.length_frames] at hf
      obtain ⟨r', hr', j, hj, rfl⟩ := mem_framesOf.mp (List.mem_of_getElem? hf)
      have hpast := (List.pairwise_cons.mp hok.ascending).1 r' hr'
      rw [if_neg (by omega),
        ih hok.tail (fun q hq => hends q (List.mem_cons_of_mem r hq)) hf (b + r.pages)]
      congr 1
      omega

/-- `pmm_free_page` finds the bit of every page. -/
theorem freeIndex_frame {top : ℕ} (hok : UsableOk rs top) (hends : EndsInRange rs)
    (hf : (framesOf rs)[i]? = some f) (b : ℕ) : freeIndex f rs b = some (b + i) :=
  freeIndex_page hok hends hf le_rfl (Nat.lt_add_of_pos_right (by decide)) b

/-- `pmm_free_page` finds no bit for an address in no region. -/
theorem freeIndex_eq_none {addr : ℕ}
    (h : ∀ r ∈ rs, ¬ (r.base ≤ addr ∧ addr < r.base + r.pages * pageSize)) (b : ℕ) :
    freeIndex addr rs b = none := by
  induction rs generalizing b with
  | nil => rfl
  | cons r rs ih =>
    unfold freeIndex
    rw [if_neg, ih fun q hq => h q (List.mem_cons_of_mem r hq)]
    rintro ⟨hlo, hhi⟩
    exact h r List.mem_cons_self ⟨hlo, lt_of_lt_of_le hhi (Nat.mod_le _ _)⟩

namespace MemoryMap

/-- An address in a usable region. -/
def Usable (map : MemoryMap) (addr : ℕ) : Prop :=
  ∃ r ∈ map.entries, r.type = .usable ∧ r.base ≤ addr ∧ addr < r.base + r.length

theorem endsInRange (map : MemoryMap)
    (hends : ∀ r ∈ map.entries, r.type = .usable → r.base + r.length < 2 ^ 64) :
    EndsInRange (usableEntries map.entries) := by
  intro q hq
  obtain ⟨r, hr, hu, rfl⟩ := mem_usableEntries.mp hq
  rw [map.toPmm_end hr hu]
  exact hends r hr hu

theorem not_usable (map : MemoryMap) {addr : ℕ} (h : ¬ map.Usable addr) :
    ∀ q ∈ usableEntries map.entries, ¬ (q.base ≤ addr ∧ addr < q.base + q.pages * pageSize) := by
  rintro q hq ⟨hlo, hhi⟩
  obtain ⟨r, hr, hu, rfl⟩ := mem_usableEntries.mp hq
  rw [map.toPmm_end hr hu] at hhi
  exact h ⟨r, hr, hu, hlo, hhi⟩

end MemoryMap

/-- The null pointer and addresses outside the usable regions are ignored. -/
theorem pmmFreePage_ignored (husable : s.usable = usableEntries map.entries)
    (h : page = null ∨ ¬ map.Usable page) : pmmFreePage s page = s := by
  unfold pmmFreePage
  split_ifs with hnull
  · rfl
  · rw [husable, freeIndex_eq_none (map.not_usable (h.resolve_left hnull))]

/-- A page other than the null pointer that has a bit is freed by clearing it. -/
theorem pmmFreePage_frame {top : ℕ} (hwf : s.WF top) (hends : EndsInRange s.usable)
    (hf : (framesOf s.usable)[bit]? = some page) (hne : page ≠ null) :
    pmmFreePage s page = bitmapClear s bit := by
  unfold pmmFreePage
  rw [if_neg hne, freeIndex_frame hwf.usable hends hf, Nat.zero_add]

/-! ### Runs -/

/-- One call: an allocation, or a release.  A page in a usable region is released only while it
is held; any other address may be passed to `pmm_free_page`. -/
inductive PmmCall (map : MemoryMap) : Holding → Holding → Prop
  | alloc (t : Holding) :
      PmmCall map t
        { pmm := (pmmAllocPage t.pmm).2
          held := if (pmmAllocPage t.pmm).1 = null then t.held
            else (pmmAllocPage t.pmm).1 :: t.held }
  | free (t : Holding) (page : ℕ) (h : page ≠ null → map.Usable page → page ∈ t.held) :
      PmmCall map t { pmm := pmmFreePage t.pmm page, held := t.held.erase page }

/-- The balance after `pmm_init`, with `s` the state it left: of all pages, those of the bitmap
are kept, some are held, and the others are free. -/
structure Holding.Accounts (map : MemoryMap) (s : Pmm) (t : Holding) : Prop where
  inv : t.Inv s
  map : t.pmm.usable = usableEntries map.entries
  pageCount : t.pmm.pageCount = s.pageCount
  kept : 0 < s.bitmapPages
  notNull : null ∉ t.held
  balance : t.pmm.freePages + s.bitmapPages + t.held.length = t.pmm.pageCount

/-- The page of a bit that is not kept is not at address 0. -/
theorem UsableOk.frame_ne_null {top : ℕ} (h : UsableOk rs top) (hbit : 0 < bit)
    (hf : (framesOf rs)[bit]? = some f) : f ≠ null := by
  obtain ⟨hlt, -⟩ := List.getElem?_eq_some_iff.mp hf
  have hge := h.frame_ge (List.getElem?_eq_getElem (Nat.zero_lt_of_lt hlt)) bit hf
  rw [pageSize_eq] at hge
  rw [null]
  omega

/-- An allocation fails if no page is free, and otherwise takes the first free one. -/
theorem Holding.Accounts.alloc_cases (h : t.Accounts map s) :
    (t.pmm.freePages = 0 ∧ pmmAllocPage t.pmm = (null, t.pmm)) ∨
    ∃ bit f, bit < t.pmm.pageCount ∧ ¬ t.pmm.Used bit ∧ (∀ j < bit, t.pmm.Used j) ∧
      (framesOf t.pmm.usable)[bit]? = some f ∧ f ≠ null ∧
      pmmAllocPage t.pmm = (f, bitmapSet t.pmm bit) := by
  rcases pmmAllocPage_cases h.inv.wf le_rfl with ⟨hall, heq⟩ | ⟨bit, f, hlt, hfree, hmin, hf, heq⟩
  · exact .inl ⟨freePages_eq_zero_iff.mpr hall, heq⟩
  · have hkept : 0 < bit := by
      by_contra hzero
      refine hfree (h.inv.reserved bit ?_)
      exact lt_of_le_of_lt (Nat.le_of_not_lt hzero) h.kept
    exact .inr ⟨bit, f, hlt, hfree, hmin, hf, h.inv.wf.usable.frame_ne_null hkept hf, heq⟩

theorem Holding.Accounts.alloc (h : t.Accounts map s) :
    Holding.Accounts map s
      { pmm := (pmmAllocPage t.pmm).2
        held := if (pmmAllocPage t.pmm).1 = null then t.held
          else (pmmAllocPage t.pmm).1 :: t.held } := by
  have hinv := h.inv.alloc
  rcases h.alloc_cases with ⟨-, heq⟩ | ⟨bit, f, hlt, hfree, -, -, hne, heq⟩
  · rw [heq, if_pos rfl]
    exact h
  · rw [heq, if_neg hne] at hinv ⊢
    refine ⟨hinv, h.map, h.pageCount, h.kept, ?_, ?_⟩
    · exact List.mem_cons.not.mpr (not_or.mpr ⟨Ne.symm hne, h.notNull⟩)
    · have hcount := freePages_bitmapSet hlt hfree
      have hbalance := h.balance
      simp only [List.length_cons, bitmapSet_pageCount]
      omega

theorem Holding.Accounts.free (h : t.Accounts map s) (hends : EndsInRange t.pmm.usable)
    (hheld : page ≠ null → map.Usable page → page ∈ t.held) :
    Holding.Accounts map s { pmm := pmmFreePage t.pmm page, held := t.held.erase page } := by
  by_cases hmem : page ∈ t.held
  · have hinv := h.inv.free hmem
    have hne : page ≠ null := fun heq => h.notNull (heq ▸ hmem)
    obtain ⟨bit, -, hused, hbit⟩ := h.inv.held page hmem
    rw [← h.inv.usable] at hbit
    have hlt : bit < t.pmm.pageCount := by
      rw [h.inv.wf.pageCount]
      exact (List.getElem?_eq_some_iff.mp hbit).1
    rw [pmmFreePage_frame h.inv.wf hends hbit hne] at hinv ⊢
    refine ⟨hinv, h.map, h.pageCount, h.kept, fun hnull => ?_, ?_⟩
    · exact h.notNull (List.mem_of_mem_erase hnull)
    · have hcount := freePages_bitmapClear hlt hused
      have hlen := List.length_erase_of_mem hmem
      have hpos := List.length_pos_of_mem hmem
      have hbalance := h.balance
      simp only [bitmapClear_pageCount]
      omega
  · have hignored : page = null ∨ ¬ map.Usable page := by
      by_contra hno
      obtain ⟨hne, husable⟩ := not_or.mp hno
      exact hmem (hheld hne (not_not.mp husable))
    rw [pmmFreePage_ignored h.map hignored, List.erase_of_not_mem hmem]
    exact h

theorem Holding.Accounts.call (h : t.Accounts map s) (hends : EndsInRange t.pmm.usable)
    (hcall : PmmCall map t t') : t'.Accounts map s := by
  cases hcall with
  | alloc => exact h.alloc
  | free page hheld => exact h.free hends hheld

/-- `pmm_init` keeps the pages of the bitmap and frees all others. -/
theorem Holding.Accounts.init (map : MemoryMap) (hinit : pmmInit map.entries hhdm s₀ = some s) :
    Holding.Accounts map s ⟨s, []⟩ := by
  obtain ⟨husable, hwf, hsize, hfirst, hbits⟩ := pmmInit_spec map hinit
  have hpos : 0 < s.pageCount := by
    rw [hwf.pageCount]
    exact (List.getElem?_eq_some_iff.mp hfirst).1
  have hkept : 0 < s.bitmapPages ∧ s.bitmapPages ≤ s.pageCount := by
    rw [Pmm.bitmapPages, hsize, pageSize_eq]
    omega
  refine ⟨⟨hwf, rfl, fun bit hbit => ?_, List.nodup_nil, fun _ hp => absurd hp List.not_mem_nil⟩,
    husable, rfl, hkept.1, List.not_mem_nil, ?_⟩
  · exact (hbits bit (by omega)).mpr hbit
  · show s.freePages + s.bitmapPages + 0 = s.pageCount
    have hfree : (Finset.range s.pageCount).filter (fun bit => ¬ s.Used bit) =
        Finset.Ico s.bitmapPages s.pageCount := by
      ext bit
      rw [Finset.mem_filter, Finset.mem_range, Finset.mem_Ico]
      constructor
      · rintro ⟨hlt, hclear⟩
        exact ⟨Nat.le_of_not_lt fun hbit => hclear ((hbits bit hlt).mpr hbit), hlt⟩
      · rintro ⟨hle, hlt⟩
        exact ⟨hlt, fun hused => Nat.not_lt_of_le hle ((hbits bit hlt).mp hused)⟩
    rw [Pmm.freePages_eq_card, hfree, Nat.card_Ico]
    omega

/-- **Accounting of the allocator.**  After `pmm_init` on a memory map whose usable regions end
within 64 bits, and after any run of allocations and releases, the pages free, kept and held
are all pages.  An allocation returns the null pointer exactly if no page is free; otherwise
it takes the page with the lowest clear bit and sets that bit, and a release of the page undoes
it.  A release of the null pointer or of an address in no usable region changes nothing. -/
theorem pmm_accounting (map : MemoryMap)
    (hends : ∀ r ∈ map.entries, r.type = .usable → r.base + r.length < 2 ^ 64)
    (hinit : pmmInit map.entries hhdm s₀ = some s)
    (hrun : ReflTransGen (PmmCall map) ⟨s, []⟩ t) :
    t.pmm.freePages + s.bitmapPages + t.held.length = t.pmm.pageCount ∧
      ((pmmAllocPage t.pmm).1 = null ↔ t.pmm.freePages = 0) ∧
      ((pmmAllocPage t.pmm).1 = null → (pmmAllocPage t.pmm).2 = t.pmm) ∧
      ((pmmAllocPage t.pmm).1 ≠ null →
        (∃ bit < t.pmm.pageCount, ¬ t.pmm.Used bit ∧ (∀ j < bit, t.pmm.Used j) ∧
          (framesOf t.pmm.usable)[bit]? = some (pmmAllocPage t.pmm).1 ∧
          (pmmAllocPage t.pmm).2 = bitmapSet t.pmm bit ∧
          ∀ j, (pmmAllocPage t.pmm).2.Used j ↔ j = bit ∨ t.pmm.Used j) ∧
        pmmFreePage (pmmAllocPage t.pmm).2 (pmmAllocPage t.pmm).1 = t.pmm) ∧
      ∀ page, page = null ∨ ¬ map.Usable page → pmmFreePage t.pmm page = t.pmm := by
  have h : t.Accounts map s := by
    induction hrun with
    | refl => exact .init map hinit
    | tail _ hcall ih => exact ih.call (ih.map ▸ map.endsInRange hends) hcall
  refine ⟨h.balance, ?_⟩
  rcases h.alloc_cases with ⟨hzero, heq⟩ | ⟨bit, f, hlt, hfree, hmin, hf, hne, heq⟩
  · rw [heq]
    refine ⟨⟨fun _ => hzero, fun _ => rfl⟩, fun _ => rfl, fun hne => absurd rfl hne, ?_⟩
    exact fun page hpage => pmmFreePage_ignored h.map hpage
  · have hsome : t.pmm.freePages ≠ 0 := fun hzero =>
      hfree (freePages_eq_zero_iff.mp hzero bit hlt)
    have hundo : pmmFreePage (bitmapSet t.pmm bit) f = t.pmm := by
      have hrange : EndsInRange t.pmm.usable := h.map ▸ map.endsInRange hends
      rw [pmmFreePage_frame (h.inv.wf.bitmapSet bit) hrange hf hne, bitmapClear_bitmapSet hfree]
    rw [heq]
    refine ⟨iff_of_false hne hsome, fun hnull => absurd hnull hne, fun _ => ⟨?_, hundo⟩, ?_⟩
    · exact ⟨bit, hlt, hfree, hmin, hf, rfl, used_bitmapSet t.pmm bit⟩
    · exact fun page hpage => pmmFreePage_ignored h.map hpage

/-- The example map after two allocations and the release of the first page. -/
def releasedPmm : Pmm :=
  pmmFreePage (pmmAllocPage (pmmAllocPage examplePmm).2).2 0x101000

theorem releasedPmm_run : ReflTransGen (PmmCall exampleMap) ⟨examplePmm, []⟩
    ⟨releasedPmm, [0x102000]⟩ := by
  have hfirst : (pmmAllocPage examplePmm).1 = 0x101000 := by decide
  have hsecond : (pmmAllocPage (pmmAllocPage examplePmm).2).1 = 0x102000 := by decide
  have h₁ : PmmCall exampleMap ⟨examplePmm, []⟩ ⟨(pmmAllocPage examplePmm).2, [0x101000]⟩ := by
    have halloc := @PmmCall.alloc exampleMap ⟨examplePmm, []⟩
    rwa [hfirst, if_neg (by decide)] at halloc
  have h₂ : PmmCall exampleMap ⟨(pmmAllocPage examplePmm).2, [0x101000]⟩
      ⟨(pmmAllocPage (pmmAllocPage examplePmm).2).2, [0x102000, 0x101000]⟩ := by
    have halloc := @PmmCall.alloc exampleMap ⟨(pmmAllocPage examplePmm).2, [0x101000]⟩
    rwa [hsecond, if_neg (by decide)] at halloc
  exact ((ReflTransGen.single h₁).tail h₂).tail (.free _ 0x101000 fun _ _ => by simp)

/-- The page that has been released is handed out again. -/
theorem pmm_accounting_example :
    (pmmAllocPage releasedPmm).1 = 0x101000 ∧ releasedPmm.freePages = 14 ∧
      pmmFreePage (pmmAllocPage releasedPmm).2 0x101000 = releasedPmm ∧
      pmmFreePage releasedPmm null = releasedPmm := by
  have hfirst : (pmmAllocPage releasedPmm).1 = 0x101000 := by decide
  have hne : (pmmAllocPage releasedPmm).1 ≠ null := by
    rw [hfirst]
    decide
  have hkept : examplePmm.bitmapPages = 1 := by decide
  have hcount : releasedPmm.pageCount = 16 := by decide
  obtain ⟨hbalance, -, -, htaken, hignored⟩ := pmm_accounting exampleMap (by decide)
    (Option.some_get _).symm releasedPmm_run
  obtain ⟨-, hundo⟩ := htaken hne
  rw [hfirst] at hundo
  refine ⟨hfirst, ?_, hundo, hignored _ (.inl rfl)⟩
  change releasedPmm.freePages + examplePmm.bitmapPages + 1 = releasedPmm.pageCount at hbalance
  omega

end Bethany
