import Bethany.Memory.Pmm
import Mathlib.Logic.Relation

/-!
# Safety of the physical memory manager

From the memory map to whole runs of `pmm_alloc_page` and `pmm_free_page`.

* `MemoryMap`: a memory map as the boot protocol provides it;
* `pmmInit_spec`: what `pmm_init` leaves behind on such a map;
* `PmmStep`: one call, with the list of the pages currently held as history;
* `Holding.Inv` and `pmmStep_inv`: the first bits stay reserved, and every held page has a
  bit of its own that is set;
* `pmm_safety`: no page is handed out twice, and none overlaps the bitmap.

The bitmap is placed at the first non-empty region and may spill past its end, while the
pages kept for it are simply the first `bitmap_pages` bits.  Nevertheless the two agree:
page number `i` lies at least `i` pages above the start of the bitmap (`UsableOk.frame_ge`).
-/

namespace Bethany

open Machine Relation

/-- A memory map of the boot protocol: at most 256 entries, the usable ones page-aligned,
ascending and without overlap in a 64-bit address space. -/
structure MemoryMap where
  entries : List MemoryRegion
  count_le : entries.length ≤ 256
  aligned : ∀ r ∈ entries, r.type = .usable → pageSize ∣ r.base ∧ pageSize ∣ r.length
  ascending : (entries.filter fun r => r.type = .usable).Pairwise
    fun r r' => r.base + r.length ≤ r'.base
  below : ∀ r ∈ entries, r.type = .usable → r.length < 2 ^ 64 ∧ r.base + r.length ≤ 2 ^ 64

/-! ### The usable table -/

/-- The table entry made from a usable region. -/
def MemoryRegion.toPmm (r : MemoryRegion) : PmmRegion := ⟨r.base, r.length / pageSize⟩

theorem usableEntries_eq (rs : List MemoryRegion) :
    usableEntries rs = (rs.filter fun r => r.type = .usable).map MemoryRegion.toPmm := by
  induction rs with
  | nil => rfl
  | cons r rs ih =>
    rw [usableEntries]
    split_ifs with h
    · rw [List.filter_cons_of_pos (by simpa using h), List.map_cons, ih]
      rfl
    · rw [List.filter_cons_of_neg (by simpa using h), ih]

theorem mem_usableEntries {rs : List MemoryRegion} {q : PmmRegion} :
    q ∈ usableEntries rs ↔ ∃ r ∈ rs, r.type = .usable ∧ r.toPmm = q := by
  rw [usableEntries_eq]
  simp [and_assoc]

namespace MemoryMap

variable (map : MemoryMap)

theorem toPmm_end {r : MemoryRegion} (hr : r ∈ map.entries) (hu : r.type = .usable) :
    r.toPmm.base + r.toPmm.pages * pageSize = r.base + r.length := by
  rw [MemoryRegion.toPmm, Nat.div_mul_cancel (map.aligned r hr hu).2]

theorem usableOk : UsableOk (usableEntries map.entries) (2 ^ 64) where
  aligned q hq := by
    obtain ⟨r, hr, hu, rfl⟩ := mem_usableEntries.1 hq
    exact (map.aligned r hr hu).1
  ascending := by
    rw [usableEntries_eq, List.pairwise_map]
    refine map.ascending.imp_of_mem fun {r r'} hr _ hle => ?_
    obtain ⟨hr, hu⟩ := List.mem_filter.1 hr
    rw [map.toPmm_end hr (by simpa using hu)]
    exact hle
  below q hq := by
    obtain ⟨r, hr, hu, rfl⟩ := mem_usableEntries.1 hq
    rw [map.toPmm_end hr hu]
    exact (map.below r hr hu).2

theorem pages_lt {q : PmmRegion} (hq : q ∈ usableEntries map.entries) :
    q.pages * pageSize < 2 ^ 64 := by
  obtain ⟨r, hr, hu, rfl⟩ := mem_usableEntries.1 hq
  rw [MemoryRegion.toPmm, Nat.div_mul_cancel (map.aligned r hr hu).2]
  exact (map.below r hr hu).1

end MemoryMap

theorem length_framesOf (rs : List PmmRegion) :
    (framesOf rs).length = (rs.map PmmRegion.pages).sum := by
  rw [framesOf, List.length_flatMap]
  simp [PmmRegion.length_frames]

/-- The pages of a table fit below its upper bound. -/
theorem UsableOk.length_frames_le {rs : List PmmRegion} {top : ℕ} (h : UsableOk rs top) :
    (framesOf rs).length * pageSize ≤ top := by
  rcases Nat.eq_zero_or_pos (framesOf rs).length with h0 | hpos
  · rw [h0, Nat.zero_mul]
    exact Nat.zero_le _
  · have hlast := List.getElem?_eq_getElem (show (framesOf rs).length - 1 < (framesOf rs).length
      by omega)
    have hge := h.frame_ge (List.getElem?_eq_getElem hpos) _ hlast
    have htop := (h.frame_ok (List.mem_of_getElem? hlast)).2
    rw [Nat.sub_mul, Nat.one_mul] at hge
    omega

theorem foldl_u64 {α : Type} (g : α → ℕ) (l : List α) (n : ℕ) (h : n + (l.map g).sum < 2 ^ 64) :
    l.foldl (fun n r => u64 (n + g r)) n = n + (l.map g).sum := by
  induction l generalizing n with
  | nil => simp
  | cons a l ih =>
    rw [List.map_cons, List.sum_cons] at h
    rw [List.foldl_cons, u64_of_lt (by omega), ih _ (by omega), List.map_cons, List.sum_cons,
      Nat.add_assoc]

/-! ### What `pmm_init` leaves behind -/

theorem reserve_spec (s : Pmm) (n : ℕ) :
    let s' := (List.range n).foldl bitmapSet s
    (s'.usable = s.usable ∧ s'.pageCount = s.pageCount ∧ s'.bitmapSize = s.bitmapSize ∧
      s'.bitmapPhys = s.bitmapPhys) ∧ ∀ bit, s'.Used bit ↔ bit < n ∨ s.Used bit := by
  induction n with
  | zero => simp
  | succ n ih =>
    rw [List.range_succ, List.foldl_append, List.foldl_cons, List.foldl_nil]
    refine ⟨ih.1, fun bit => ?_⟩
    rw [used_bitmapSet, ih.2 bit, Nat.lt_succ_iff_lt_or_eq]
    tauto

/-- The number of pages of the bitmap. -/
def Pmm.bitmapPages (s : Pmm) : ℕ := (s.bitmapSize + pageSize - 1) / pageSize

/-- The first non-empty region holds page number `0` at its start. -/
theorem frames_head {rs : List PmmRegion} {r : PmmRegion}
    (hlt : ∀ q ∈ rs, q.pages * pageSize < 2 ^ 64)
    (hfind : rs.find? (fun r => u64 (r.pages * pageSize) ≠ 0) = some r) :
    (framesOf rs)[0]? = some r.base := by
  induction rs with
  | nil => cases hfind
  | cons q rs ih =>
    have hq := u64_of_lt (hlt q (List.mem_cons_self ..))
    rw [framesOf_cons]
    by_cases h0 : q.pages = 0
    · have hnil : q.frames = [] := by rw [PmmRegion.frames, h0]; rfl
      rw [List.find?_cons_of_neg (by simp [h0, u64])] at hfind
      rw [hnil, List.nil_append]
      exact ih (fun q' hq' => hlt q' (List.mem_cons_of_mem _ hq')) hfind
    · rw [List.find?_cons_of_pos (by rw [hq, pageSize_eq]; simpa using h0)] at hfind
      cases hfind
      rw [List.getElem?_append_left (by rw [PmmRegion.length_frames]; omega), PmmRegion.frames,
        List.getElem?_map, List.getElem?_range (by omega)]
      simp

/-- `pmm_init` on a memory map: the statics it sets, and the bits of the pages it reserves. -/
theorem pmmInit_spec (map : MemoryMap) {hhdm : ℕ} {s₀ s : Pmm}
    (h : pmmInit map.entries hhdm s₀ = some s) :
    s.usable = usableEntries map.entries ∧ s.WF (2 ^ 64) ∧
      s.bitmapSize = (s.pageCount + 7) / 8 ∧ (framesOf s.usable)[0]? = some s.bitmapPhys ∧
      ∀ bit < s.pageCount, s.Used bit ↔ bit < s.bitmapPages := by
  have hok := map.usableOk
  have hlen := hok.length_frames_le
  have hcount : (usableEntries map.entries).foldl (fun n r => u64 (n + r.pages)) 0 =
      (framesOf (usableEntries map.entries)).length := by
    rw [length_framesOf, foldl_u64 PmmRegion.pages _ _ (by
      rw [← length_framesOf, Nat.zero_add]
      rw [pageSize_eq] at hlen
      omega), Nat.zero_add]
  rw [pmmInit, hcount] at h
  set count := (framesOf (usableEntries map.entries)).length with hc
  have hlt : count < 2 ^ 60 := by
    rw [pageSize_eq] at hlen
    omega
  rw [u64_of_lt (show count + 7 < 2 ^ 64 by omega)] at h
  cases hfind : (usableEntries map.entries).find? (fun r => u64 (r.pages * pageSize) ≠ 0) with
  | none =>
    rw [hfind] at h
    cases h
  | some r =>
    simp only [hfind] at h
    split_ifs at h with hnull
    rw [u64_of_lt (by rw [pageSize_eq]; omega)] at h
    have hs := Option.some.inj h
    set base : Pmm :=
      { usable := usableEntries map.entries
        bitmap := fill s₀.bitmap 0 ((count + 7) / 8) 0
        pageCount := count
        bitmapSize := (count + 7) / 8
        bitmapPhys := r.base } with hbase
    obtain ⟨⟨husable, hpc, hsize, hphys⟩, hused⟩ :=
      reserve_spec base (((count + 7) / 8 + pageSize - 1) / pageSize)
    rw [hs] at husable hpc hsize hphys hused
    refine ⟨husable, ⟨by rw [husable]; exact hok, by rw [hpc, husable]⟩, by rw [hsize, hpc],
      by rw [husable, hphys]; exact frames_head (fun q hq => map.pages_lt hq) hfind,
      fun bit hbit => ?_⟩
    have hclear : ¬ base.Used bit := by
      rw [used_iff, hbase]
      rw [hpc, hbase] at hbit
      simp only at hbit ⊢
      rw [fill, if_pos (by omega)]
      simp
    rw [hused bit, Pmm.bitmapPages, hsize]
    exact or_iff_left hclear

/-! ### Runs -/

/-- The allocator together with the pages handed out and not yet given back. -/
structure Holding where
  pmm : Pmm
  held : List ℕ

/-- One call: an allocation, or the release of a page currently held. -/
inductive PmmStep : Holding → Holding → Prop
  | alloc (t : Holding) :
      PmmStep t
        { pmm := (pmmAllocPage t.pmm).2
          held := if (pmmAllocPage t.pmm).1 = null then t.held
            else (pmmAllocPage t.pmm).1 :: t.held }
  | free (t : Holding) (page : ℕ) (h : page ∈ t.held) :
      PmmStep t { pmm := pmmFreePage t.pmm page, held := t.held.erase page }

/-- What holds after `pmm_init`, with `s` the state it left, throughout every run. -/
structure Holding.Inv (s : Pmm) (t : Holding) : Prop where
  wf : t.pmm.WF (2 ^ 64)
  usable : t.pmm.usable = s.usable
  /-- The bits of the bitmap's own pages stay set. -/
  reserved : ∀ bit < s.bitmapPages, t.pmm.Used bit
  nodup : t.held.Nodup
  /-- A held page has a bit of its own, which is set and not reserved. -/
  held : ∀ page ∈ t.held, ∃ bit, s.bitmapPages ≤ bit ∧ t.pmm.Used bit ∧
    (framesOf s.usable)[bit]? = some page

variable {s : Pmm} {t t' : Holding}

/-- The bit number `pmm_free_page` computes for the start of a page is that of the page. -/
theorem UsableOk.freeIndex_frame {rs : List PmmRegion} {top i f bit : ℕ} (h : UsableOk rs top)
    (hi : (framesOf rs)[i]? = some f) (hf : freeIndex f rs 0 = some bit) : bit = i := by
  obtain ⟨-, g, hg, hlo, hhi⟩ := freeIndex_some hf
  rw [Nat.sub_zero] at hg
  obtain ⟨hil, hif⟩ := List.getElem?_eq_some_iff.1 hi
  obtain ⟨hbl, hbg⟩ := List.getElem?_eq_some_iff.1 hg
  have hpw := List.pairwise_iff_getElem.1 h.frames_pairwise
  rcases Nat.lt_trichotomy bit i with hlt | heq | hgt
  · have := hpw bit i hbl hil hlt
    omega
  · exact heq
  · have := hpw i bit hil hbl hgt
    rw [pageSize_eq] at this
    omega

theorem Holding.Inv.alloc (h : t.Inv s) :
    Holding.Inv s
      { pmm := (pmmAllocPage t.pmm).2
        held := if (pmmAllocPage t.pmm).1 = null then t.held
          else (pmmAllocPage t.pmm).1 :: t.held } := by
  rcases pmmAllocPage_cases h.wf le_rfl with ⟨-, heq⟩ | ⟨bit, f, -, hfree, -, hf, heq⟩
  · rw [heq, if_pos rfl]
    exact h
  rw [heq]
  rw [h.usable] at hf
  have hres : s.bitmapPages ≤ bit := by
    by_contra hlt
    exact hfree (h.reserved bit (by omega))
  have hnew : f ∉ t.held := fun hmem => by
    obtain ⟨b, -, hused, hb⟩ := h.held f hmem
    have hok : UsableOk s.usable (2 ^ 64) := h.usable ▸ h.wf.usable
    rw [hok.bit_unique hb hf] at hused
    exact hfree hused
  have hold : ∀ page ∈ t.held, ∃ b, s.bitmapPages ≤ b ∧ (bitmapSet t.pmm bit).Used b ∧
      (framesOf s.usable)[b]? = some page := fun page hp => by
    obtain ⟨b, hle, hused, hb⟩ := h.held page hp
    exact ⟨b, hle, (used_bitmapSet _ _ _).2 (Or.inr hused), hb⟩
  refine ⟨h.wf.bitmapSet bit, h.usable, fun b hb => ?_, ?_, ?_⟩
  · exact (used_bitmapSet _ _ _).2 (Or.inr (h.reserved b hb))
  · dsimp only
    split_ifs with hnull
    · exact h.nodup
    · exact List.nodup_cons.2 ⟨hnew, h.nodup⟩
  · dsimp only
    split_ifs with hnull
    · exact hold
    · intro page hp
      rcases List.mem_cons.1 hp with rfl | hp
      · exact ⟨bit, hres, (used_bitmapSet _ _ _).2 (Or.inl rfl), hf⟩
      · exact hold page hp

theorem Holding.Inv.free (h : t.Inv s) {page : ℕ} (hmem : page ∈ t.held) :
    Holding.Inv s { pmm := pmmFreePage t.pmm page, held := t.held.erase page } := by
  have hsub : ∀ q ∈ t.held.erase page, q ∈ t.held ∧ q ≠ page := fun q hq =>
    ⟨List.mem_of_mem_erase hq, (List.Nodup.mem_erase_iff h.nodup).1 hq |>.1⟩
  -- A page at the null address, or one the loop does not find, is not returned to the pool.
  have hsame : Holding.Inv s { pmm := t.pmm, held := t.held.erase page } :=
    ⟨h.wf, h.usable, h.reserved, h.nodup.erase page, fun q hq => h.held q (hsub q hq).1⟩
  rw [pmmFreePage]
  split_ifs with hnull
  · exact hsame
  cases hidx : freeIndex page t.pmm.usable 0 with
  | none => exact hsame
  | some bit =>
    obtain ⟨b, hle, hused, hb⟩ := h.held page hmem
    have hok : UsableOk s.usable (2 ^ 64) := h.usable ▸ h.wf.usable
    rw [h.usable] at hidx
    obtain rfl := hok.freeIndex_frame hb hidx
    refine ⟨h.wf.bitmapClear bit, h.usable, fun i hi => ?_, h.nodup.erase page, fun q hq => ?_⟩
    · exact (used_bitmapClear _ _ _).2 ⟨by omega, h.reserved i hi⟩
    · obtain ⟨hq, hne⟩ := hsub q hq
      obtain ⟨i, hile, hiused, hi⟩ := h.held q hq
      refine ⟨i, hile, (used_bitmapClear _ _ _).2 ⟨fun heq => hne ?_, hiused⟩, hi⟩
      rw [heq, hb] at hi
      exact (Option.some.inj hi).symm

theorem pmmStep_inv (hstep : PmmStep t t') (h : t.Inv s) : t'.Inv s := by
  cases hstep with
  | alloc => exact h.alloc
  | free page hmem => exact h.free hmem

theorem pmmRun_inv (hrun : ReflTransGen PmmStep t t') (h : t.Inv s) : t'.Inv s := by
  induction hrun with
  | refl => exact h
  | tail _ hstep ih => exact pmmStep_inv hstep ih

/-- **Safety of the allocator.**  After `pmm_init` on any memory map and after any run of
allocations and releases of held pages, the page an allocation returns is page-aligned, lies
wholly in one usable region, does not overlap the bitmap and is not held already. -/
theorem pmm_safety (map : MemoryMap) {hhdm : ℕ} {s₀ : Pmm}
    (hinit : pmmInit map.entries hhdm s₀ = some s)
    (hrun : ReflTransGen PmmStep ⟨s, []⟩ t) (hne : (pmmAllocPage t.pmm).1 ≠ null) :
    pageSize ∣ (pmmAllocPage t.pmm).1 ∧
      (∃ r ∈ map.entries, r.type = .usable ∧ r.base ≤ (pmmAllocPage t.pmm).1 ∧
        (pmmAllocPage t.pmm).1 + pageSize ≤ r.base + r.length) ∧
      ((pmmAllocPage t.pmm).1 + pageSize ≤ s.bitmapPhys ∨
        s.bitmapPhys + s.bitmapSize ≤ (pmmAllocPage t.pmm).1) ∧
      (pmmAllocPage t.pmm).1 ∉ t.held := by
  obtain ⟨husable, hwf, hsize, hphys, hbits⟩ := pmmInit_spec map hinit
  have hres : ∀ bit < s.bitmapPages, s.Used bit := fun bit hbit => by
    refine (hbits bit ?_).2 hbit
    rw [Pmm.bitmapPages, hsize, pageSize_eq] at hbit
    omega
  have hinv := pmmRun_inv hrun (s := s)
    ⟨hwf, rfl, hres, List.nodup_nil, fun page hp => absurd hp (List.not_mem_nil)⟩
  rcases pmmAllocPage_cases hinv.wf le_rfl with ⟨-, heq⟩ | ⟨bit, f, -, hfree, -, hf, heq⟩
  · rw [heq] at hne
    exact absurd rfl hne
  rw [heq]
  rw [hinv.usable] at hf
  have hmem := List.mem_of_getElem? hf
  refine ⟨(hwf.usable.frame_ok hmem).1, ?_, Or.inr ?_, fun hheld => ?_⟩
  · rw [husable] at hmem
    obtain ⟨q, hq, i, hi, rfl⟩ := mem_framesOf.1 hmem
    obtain ⟨r, hr, hu, rfl⟩ := mem_usableEntries.1 hq
    refine ⟨r, hr, hu, Nat.le_add_right _ _, ?_⟩
    rw [← map.toPmm_end hr hu, Nat.add_assoc, ← Nat.succ_mul]
    exact Nat.add_le_add_left (Nat.mul_le_mul_right _ hi) _
  · have hle : s.bitmapPages ≤ bit := by
      by_contra hlt
      exact hfree (hinv.reserved bit (by omega))
    have hge := hwf.usable.frame_ge hphys bit hf
    rw [Pmm.bitmapPages, pageSize_eq] at hle
    rw [pageSize_eq] at hge
    omega
  · obtain ⟨b, -, hused, hb⟩ := hinv.held f hheld
    rw [hwf.usable.bit_unique hb hf] at hused
    exact hfree hused

/-- A map with one usable region of sixteen pages between two reserved ones. -/
def exampleMap : MemoryMap where
  entries := [⟨0, 0x100000, .reserved⟩, ⟨0x100000, 0x10000, .usable⟩, ⟨0x110000, 8, .acpiNvs⟩]
  count_le := by decide
  aligned := by decide
  ascending := by decide
  below := by decide

/-- The allocator after `pmm_init` on this map, over storage that held ones. -/
def examplePmm : Pmm :=
  (pmmInit exampleMap.entries 0xffff800000000000 ⟨[], fun _ => 0xff, 0, 0, 0⟩).get (by decide)

theorem pmm_safety_example :
    pageSize ∣ (pmmAllocPage (pmmAllocPage examplePmm).2).1 ∧
      (pmmAllocPage (pmmAllocPage examplePmm).2).1 ∉ [0x101000] := by
  have hfirst : (pmmAllocPage examplePmm).1 = 0x101000 := by decide
  have hrun : ReflTransGen PmmStep ⟨examplePmm, []⟩ ⟨(pmmAllocPage examplePmm).2, [0x101000]⟩ := by
    have hstep := PmmStep.alloc ⟨examplePmm, []⟩
    rw [hfirst] at hstep
    exact ReflTransGen.single hstep
  have h := pmm_safety exampleMap (Option.some_get _).symm hrun
    (by decide)
  exact ⟨h.1, h.2.2.2⟩

end Bethany
