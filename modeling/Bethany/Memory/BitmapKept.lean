import Bethany.Memory.PmmAccounting

/-!
# The pages of the bitmap

`pmm_init` sets the bits of the pages that hold the bitmap.  `pmm_free_page` looks whether an
address lies in a usable region, but not whether its page was ever handed out.

* `Pmm.HoldsBitmap`, `Pmm.BitmapKept`: the pages of the bitmap, and that their bits are set;
* `PmmOp`, `PmmOp.SparesBitmap`: a call with any address, and the addresses that do no harm;
* `bitmapKept_iff`: the runs in which the bitmap is never handed out.
-/

namespace Bethany

open Machine

/-- A call, with any address. -/
inductive PmmOp
  | alloc
  | free (page : ℕ)

/-- The state after a call. -/
def PmmOp.exec (s : Pmm) : PmmOp → Pmm
  | .alloc => (pmmAllocPage s).2
  | .free page => pmmFreePage s page

/-- The state after calls one after the other. -/
def Pmm.run (s : Pmm) (ops : List PmmOp) : Pmm := ops.foldl PmmOp.exec s

/-- Some byte of the bitmap lies in the page at address `f`. -/
def Pmm.HoldsBitmap (s : Pmm) (f : ℕ) : Prop :=
  f < s.bitmapPhys + s.bitmapSize ∧ s.bitmapPhys < f + pageSize

instance (s : Pmm) (f : ℕ) : Decidable (s.HoldsBitmap f) := inferInstanceAs (Decidable (_ ∧ _))

/-- The bits of the pages that hold the bitmap are set, and the page that `pmm_alloc_page` returns
next is none of them. -/
structure Pmm.BitmapKept (s : Pmm) : Prop where
  used : ∀ bit f, (framesOf s.usable)[bit]? = some f → s.HoldsBitmap f → s.Used bit
  alloc : (pmmAllocPage s).1 ≠ null → ¬ s.HoldsBitmap (pmmAllocPage s).1

/-- The call does not free an address in a page that holds the bitmap. -/
def PmmOp.SparesBitmap (map : MemoryMap) (s : Pmm) : PmmOp → Prop
  | .alloc => True
  | .free page => page = null ∨ ¬ map.Usable page ∨ ¬ s.HoldsBitmap (page / pageSize * pageSize)

variable {map : MemoryMap} {s s₀ t : Pmm} {op : PmmOp} {ops : List PmmOp} {page hhdm bit f : ℕ}

@[simp] theorem Pmm.run_nil (s : Pmm) : s.run [] = s := rfl

theorem Pmm.run_concat (s : Pmm) (ops : List PmmOp) (op : PmmOp) :
    s.run (ops ++ [op]) = op.exec (s.run ops) := by
  simp [Pmm.run]

/-! ### What no call changes -/

/-- `t` is `s` but for the bits of the bitmap. -/
structure Pmm.SamePages (s t : Pmm) : Prop where
  usable : t.usable = s.usable
  pageCount : t.pageCount = s.pageCount
  bitmapPhys : t.bitmapPhys = s.bitmapPhys
  bitmapSize : t.bitmapSize = s.bitmapSize

theorem Pmm.SamePages.wf (h : s.SamePages t) (hwf : s.WF (2 ^ 64)) : t.WF (2 ^ 64) :=
  ⟨h.usable ▸ hwf.usable, by rw [h.pageCount, h.usable, hwf.pageCount]⟩

theorem Pmm.SamePages.holdsBitmap (h : s.SamePages t) (f : ℕ) :
    t.HoldsBitmap f ↔ s.HoldsBitmap f := by
  simp [Pmm.HoldsBitmap, h.bitmapPhys, h.bitmapSize]

theorem PmmOp.samePages (hwf : t.WF (2 ^ 64)) (op : PmmOp) : t.SamePages (op.exec t) := by
  cases op with
  | alloc =>
    rcases pmmAllocPage_cases hwf le_rfl with ⟨-, heq⟩ | ⟨bit, f, -, -, -, -, heq⟩
    all_goals
      simp only [PmmOp.exec, heq]
      exact ⟨rfl, rfl, rfl, rfl⟩
  | free page =>
    simp only [PmmOp.exec, pmmFreePage]
    split_ifs
    · exact ⟨rfl, rfl, rfl, rfl⟩
    · cases freeIndex page t.usable 0 <;> exact ⟨rfl, rfl, rfl, rfl⟩

theorem Pmm.SamePages.run (hwf : s.WF (2 ^ 64)) (ops : List PmmOp) :
    s.SamePages (s.run ops) := by
  induction ops using List.reverseRecOn with
  | nil => exact ⟨rfl, rfl, rfl, rfl⟩
  | append_singleton ops op ih =>
    rw [Pmm.run_concat]
    obtain ⟨husable, hcount, hphys, hsize⟩ := op.samePages (ih.wf hwf)
    exact ⟨husable.trans ih.usable, hcount.trans ih.pageCount, hphys.trans ih.bitmapPhys,
      hsize.trans ih.bitmapSize⟩

/-! ### The pages of the bitmap -/

/-- A page whose bit is set is not handed out. -/
theorem Pmm.BitmapKept.of_used (hwf : t.WF (2 ^ 64))
    (h : ∀ bit f, (framesOf t.usable)[bit]? = some f → t.HoldsBitmap f → t.Used bit) :
    t.BitmapKept := by
  refine ⟨h, fun hne hholds => ?_⟩
  rcases pmmAllocPage_cases hwf le_rfl with ⟨-, heq⟩ | ⟨bit, f, -, hfree, -, hf, heq⟩
  · simp [heq] at hne
  · rw [heq] at hholds
    exact hfree (h bit f hf hholds)

/-- `pmm_init` sets the bits of all pages that hold the bitmap. -/
theorem Pmm.BitmapKept.init (hinit : pmmInit map.entries hhdm s₀ = some s) : s.BitmapKept := by
  obtain ⟨-, hwf, -, hphys, hbits⟩ := pmmInit_spec map hinit
  refine .of_used hwf fun bit f hf hholds => ?_
  have hge := hwf.usable.frame_ge hphys bit hf
  have hlt : bit < s.pageCount := by
    rw [hwf.pageCount]
    exact (List.getElem?_eq_some_iff.mp hf).1
  refine (hbits bit hlt).mpr ?_
  have hin := hholds.1
  rw [Pmm.bitmapPages, pageSize_eq]
  rw [pageSize_eq] at hge
  omega

/-- The start of the page that an address lies in. -/
theorem UsableOk.frame_eq {rs : List PmmRegion} {top : ℕ} (h : UsableOk rs top)
    (hf : f ∈ framesOf rs) (hlo : f ≤ page) (hhi : page < f + pageSize) :
    page / pageSize * pageSize = f := by
  obtain ⟨⟨k, rfl⟩, -⟩ := h.frame_ok hf
  rw [pageSize_eq] at hlo hhi ⊢
  omega

/-- An address in a usable region lies in a page with a bit. -/
theorem MemoryMap.exists_frame (h : map.Usable page) :
    ∃ bit : ℕ,
      (framesOf (usableEntries map.entries))[bit]? = some (page / pageSize * pageSize) := by
  obtain ⟨r, hr, hu, hlo, hhi⟩ := h
  have hend := map.toPmm_end hr hu
  obtain ⟨k, hk⟩ := (map.aligned r hr hu).1
  refine List.mem_iff_getElem?.mp (mem_framesOf.mpr ⟨r.toPmm, mem_usableEntries.mpr
    ⟨r, hr, hu, rfl⟩, (page - r.base) / pageSize, ?_⟩)
  have hbase : r.toPmm.base = r.base := rfl
  rw [hbase] at hend ⊢
  rw [pageSize_eq] at hk hend ⊢
  omega

/-- A call that spares the bitmap keeps it. -/
theorem Pmm.BitmapKept.exec (h : t.BitmapKept) (hwf : t.WF (2 ^ 64))
    (husable : t.usable = usableEntries map.entries) (hop : op.SparesBitmap map t) :
    (op.exec t).BitmapKept := by
  have hpages := op.samePages hwf
  refine .of_used (hpages.wf hwf) fun bit f hf hholds => ?_
  rw [hpages.usable] at hf
  rw [hpages.holdsBitmap] at hholds
  have hused := h.used bit f hf hholds
  cases op with
  | alloc => exact (Pmm.Takes.alloc t).used bit hused
  | free page =>
    simp only [PmmOp.exec]
    rcases hop with hnull | houtside | hspared
    · rwa [pmmFreePage_ignored husable (.inl hnull)]
    · rwa [pmmFreePage_ignored husable (.inr houtside)]
    · unfold pmmFreePage
      split_ifs with hnull
      · exact hused
      · cases hindex : freeIndex page t.usable 0 with
        | none => exact hused
        | some i =>
          obtain ⟨-, g, hg, hlo, hhi⟩ := freeIndex_some hindex
          rw [hwf.usable.frame_eq (List.mem_of_getElem? hg) hlo hhi] at hspared
          -- the page that is freed is not the one with this bit
          refine (used_bitmapClear _ _ _).mpr ⟨?_, hused⟩
          rintro rfl
          obtain rfl : f = g := by simpa [hf] using hg
          exact hspared hholds

/-- Freeing an address in a page that holds the bitmap clears its bit. -/
theorem Pmm.not_bitmapKept (hwf : t.WF (2 ^ 64)) (husable : t.usable = usableEntries map.entries)
    (hends : EndsInRange t.usable) (hop : ¬ op.SparesBitmap map t) : ¬ (op.exec t).BitmapKept := by
  cases op with
  | alloc => exact absurd trivial hop
  | free page =>
    simp only [PmmOp.SparesBitmap, not_or, not_not] at hop
    obtain ⟨hnull, hin, hholds⟩ := hop
    obtain ⟨bit, hbit⟩ := MemoryMap.exists_frame hin
    rw [← husable] at hbit
    have hfree : PmmOp.exec t (.free page) = bitmapClear t bit := by
      have hlo : page / pageSize * pageSize ≤ page := Nat.div_mul_le_self page pageSize
      have hhi : page < page / pageSize * pageSize + pageSize := Nat.lt_div_mul_add (by decide)
      simp [PmmOp.exec, pmmFreePage, hnull, freeIndex_page hwf.usable hends hbit hlo hhi]
    intro hkept
    rw [hfree] at hkept
    have hused := hkept.used bit _ hbit hholds
    simp at hused

/-- **The bitmap is not handed out.**  After `pmm_init` and in every run of `pmm_alloc_page` and
`pmm_free_page`, the bits of the pages that hold the bitmap stay set, and none of these pages is
handed out, exactly if no call frees an address in one of them. -/
theorem bitmapKept_iff (map : MemoryMap)
    (hends : ∀ r ∈ map.entries, r.type = .usable → r.base + r.length < 2 ^ 64)
    (hinit : pmmInit map.entries hhdm s₀ = some s) (ops : List PmmOp) :
    (∀ pre, pre <+: ops → (s.run pre).BitmapKept) ↔ ∀ op ∈ ops, op.SparesBitmap map s := by
  obtain ⟨husable, hwf, -⟩ := pmmInit_spec map hinit
  have hrun (pre : List PmmOp) : s.SamePages (s.run pre) := .run hwf pre
  have hspares (pre : List PmmOp) (op : PmmOp) :
      op.SparesBitmap map (s.run pre) ↔ op.SparesBitmap map s := by
    cases op with
    | alloc => rfl
    | free page => simp [PmmOp.SparesBitmap, (hrun pre).holdsBitmap]
  constructor
  · intro hkept op hop
    obtain ⟨pre, post, rfl⟩ := List.append_of_mem hop
    by_contra hharm
    refine Pmm.not_bitmapKept ((hrun pre).wf hwf) ((hrun pre).usable.trans husable)
      ((hrun pre).usable ▸ husable ▸ map.endsInRange hends)
      (fun h => hharm ((hspares pre op).mp h)) ?_
    rw [← Pmm.run_concat]
    exact hkept _ ⟨post, by simp⟩
  · intro hok pre hpre
    induction pre using List.reverseRecOn with
    | nil => exact .init hinit
    | append_singleton pre op ih =>
      rw [Pmm.run_concat]
      refine (ih ((List.prefix_append pre [op]).trans hpre)).exec ((hrun pre).wf hwf)
        ((hrun pre).usable.trans husable) ((hspares pre op).mpr (hok op ?_))
      exact hpre.subset (by simp)

theorem bitmapKept_iff_example :
    (examplePmm.run [.alloc, .free 0x101000, .free 0x200000]).BitmapKept := by
  refine (bitmapKept_iff exampleMap (by decide) (Option.some_get _).symm
    [.alloc, .free 0x101000, .free 0x200000]).mpr (fun op hop => ?_) _ (List.prefix_refl _)
  simp only [List.mem_cons, List.not_mem_nil, or_false] at hop
  obtain rfl | rfl | rfl := hop
  · trivial
  · exact .inr (.inr (by decide))
  · exact .inr (.inr (by decide))

/-- The page of the bitmap can be freed, and is then handed out. -/
theorem bitmapKept_freed :
    pmmInit exampleMap.entries 0xffff800000000000 ⟨[], fun _ => 0xff, 0, 0, 0⟩ = some examplePmm ∧
      (pmmAllocPage (examplePmm.run [.free 0x100000])).1 = examplePmm.bitmapPhys ∧
      ¬ (examplePmm.run [.free 0x100000]).BitmapKept := by
  have halloc : (pmmAllocPage (examplePmm.run [.free 0x100000])).1 = 0x100000 := by decide
  refine ⟨(Option.some_get _).symm, halloc, fun hkept => ?_⟩
  refine hkept.alloc ?_ ?_
  · rw [halloc]
    decide
  · rw [halloc]
    decide

end Bethany
