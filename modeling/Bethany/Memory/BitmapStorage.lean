import Bethany.Memory.PmmSafety

/-!
# Where the bitmap lies

`pmm_init` places the bitmap at the start of the first usable region that is not empty, and takes
its size from all the regions.

* `MemoryMap.usableRegions`, `MemoryMap.firstRegion`, `MemoryMap.bitmapBytes`: what the place and
  the size of the bitmap depend on;
* `pmmInit_place`: the place and the size;
* `bitmapStorage_iff`: the bitmap lies in one usable region exactly when the first one holds it.
-/

namespace Bethany

open Machine

namespace MemoryMap

variable (map : MemoryMap)

/-- The usable entries of the map. -/
def usableRegions : List MemoryRegion := map.entries.filter fun r => r.type = .usable

/-- The first usable region that is not empty. -/
def firstRegion : Option MemoryRegion := map.usableRegions.find? fun r => r.length ≠ 0

/-- The bytes of a bitmap with a bit for each usable page. -/
def bitmapBytes : ℕ := ((map.usableRegions.map fun r => r.length / pageSize).sum + 7) / 8

variable {map} {r r' : MemoryRegion}

theorem mem_usableRegions : r ∈ map.usableRegions ↔ r ∈ map.entries ∧ r.type = .usable := by
  simp [usableRegions]

theorem usableEntries_map : usableEntries map.entries = map.usableRegions.map MemoryRegion.toPmm :=
  usableEntries_eq map.entries

/-- The region that `pmm_init` finds is the first one that is not empty. -/
theorem find_usableEntries :
    (usableEntries map.entries).find? (fun r => u64 (r.pages * pageSize) ≠ 0) =
      map.firstRegion.map MemoryRegion.toPmm := by
  rw [usableEntries_map, List.find?_map, firstRegion]
  congr 1
  refine List.find?_congr fun r hr => ?_
  obtain ⟨hr, hu⟩ := mem_usableRegions.mp hr
  have hlt := (map.below r hr hu).1
  have hdvd := (map.aligned r hr hu).2
  simp [MemoryRegion.toPmm, Nat.div_mul_cancel hdvd, u64_of_lt hlt]

/-- The bitmap of a map with a region that is not empty is not empty. -/
theorem bitmapBytes_pos (hr : r ∈ map.usableRegions) (hpos : r.length ≠ 0) :
    0 < map.bitmapBytes := by
  obtain ⟨hentry, hu⟩ := mem_usableRegions.mp hr
  obtain ⟨k, hk⟩ := (map.aligned r hentry hu).2
  have hle : r.length / pageSize ≤ (map.usableRegions.map fun r => r.length / pageSize).sum :=
    List.le_sum_of_mem (List.mem_map_of_mem hr)
  rw [hk, pageSize_eq] at hpos hle
  unfold bitmapBytes
  rw [pageSize_eq] at *
  omega

/-- Two usable regions that share an address are the same. -/
theorem usable_unique {a : ℕ} (hr : r ∈ map.usableRegions) (hr' : r' ∈ map.usableRegions)
    (ha : r.base ≤ a ∧ a < r.base + r.length) (ha' : r'.base ≤ a ∧ a < r'.base + r'.length) :
    r = r' := by
  obtain ⟨i, hi, rfl⟩ := List.getElem_of_mem hr
  obtain ⟨j, hj, rfl⟩ := List.getElem_of_mem hr'
  have happart : ∀ i j (hi : i < map.usableRegions.length) (hj : j < map.usableRegions.length),
      i < j → map.usableRegions[i].base + map.usableRegions[i].length ≤ map.usableRegions[j].base :=
    List.pairwise_iff_getElem.mp map.ascending
  rcases Nat.lt_trichotomy i j with hlt | rfl | hlt
  · have := happart i j hi hj hlt
    omega
  · rfl
  · have := happart j i hj hi hlt
    omega

end MemoryMap

variable {map : MemoryMap} {hhdm : ℕ} {s₀ s : Pmm}

/-- The bitmap is placed in the first region that is not empty, with a bit for each page. -/
theorem pmmInit_place (hinit : pmmInit map.entries hhdm s₀ = some s) :
    (∃ r, map.firstRegion = some r ∧ s.bitmapPhys = r.base) ∧ s.bitmapSize = map.bitmapBytes := by
  obtain ⟨husable, hwf, hsize, hphys, -⟩ := pmmInit_spec map hinit
  constructor
  · cases hfind : map.firstRegion with
    | none =>
      simp only [pmmInit, MemoryMap.find_usableEntries, hfind] at hinit
      cases hinit
    | some r =>
      have hframe := frames_head (fun q hq => map.pages_lt hq)
        (MemoryMap.find_usableEntries.trans (congrArg _ hfind))
      rw [husable, hframe] at hphys
      exact ⟨r, rfl, (Option.some.inj hphys).symm⟩
  · rw [hsize, hwf.pageCount, husable, length_framesOf, MemoryMap.usableEntries_map, List.map_map]
    rw [MemoryMap.bitmapBytes]
    congr

/-- **The bitmap lies in one usable region exactly when the first one that is not empty has room
for it**: its size comes from all the regions. -/
theorem bitmapStorage_iff (map : MemoryMap) {hhdm : ℕ} {s₀ s : Pmm}
    (hinit : pmmInit map.entries hhdm s₀ = some s) :
    (∃ r ∈ map.entries, r.type = .usable ∧ r.base ≤ s.bitmapPhys ∧
        s.bitmapPhys + s.bitmapSize ≤ r.base + r.length) ↔
      ∃ r, map.firstRegion = some r ∧ map.bitmapBytes ≤ r.length := by
  obtain ⟨⟨first, hfirst, hphys⟩, hsize⟩ := pmmInit_place hinit
  have hmem : first ∈ map.usableRegions := List.mem_of_find?_eq_some hfirst
  have hpos : first.length ≠ 0 := by simpa using List.find?_some hfirst
  rw [hphys, hsize, hfirst]
  constructor
  · rintro ⟨r, hr, hu, hle, hend⟩
    -- The bitmap is not empty, so the region shares its first address with the first region.
    have hbytes := MemoryMap.bitmapBytes_pos hmem hpos
    obtain rfl := MemoryMap.usable_unique (MemoryMap.mem_usableRegions.mpr ⟨hr, hu⟩) hmem
      (show r.base ≤ first.base ∧ first.base < r.base + r.length by omega) (by omega)
    exact ⟨r, rfl, by omega⟩
  · rintro ⟨r, ⟨⟩, hle⟩
    obtain ⟨hr, hu⟩ := MemoryMap.mem_usableRegions.mp hmem
    exact ⟨first, hr, hu, le_rfl, by omega⟩

theorem bitmapStorage_iff_example :
    ∃ r ∈ exampleMap.entries, r.type = .usable ∧ r.base ≤ examplePmm.bitmapPhys ∧
      examplePmm.bitmapPhys + examplePmm.bitmapSize ≤ r.base + r.length :=
  (bitmapStorage_iff exampleMap (Option.some_get _).symm).mpr
    ⟨⟨0x100000, 0x10000, .usable⟩, by decide, by decide⟩

/-- A map with a page at `0x1000`, reserved memory after it, and 128 MiB of usable memory. -/
def lowPageMap : MemoryMap where
  entries := [⟨0x1000, 0x1000, .usable⟩, ⟨0x2000, 0xFE000, .reserved⟩,
    ⟨0x100000, 0x8000000, .usable⟩]
  count_le := by decide
  aligned := by decide
  ascending := by decide
  below := by decide

/-- The allocator after `pmm_init` on this map. -/
def lowPagePmm : Pmm :=
  (pmmInit lowPageMap.entries 0xffff800000000000 ⟨[], fun _ => 0xff, 0, 0, 0⟩).get (by decide)

/-- There the bitmap has 4097 bytes, and the last of them is in reserved memory. -/
theorem bitmapStorage_lowPage :
    pmmInit lowPageMap.entries 0xffff800000000000 ⟨[], fun _ => 0xff, 0, 0, 0⟩ = some lowPagePmm ∧
      ¬ ∃ r ∈ lowPageMap.entries, r.type = .usable ∧ r.base ≤ lowPagePmm.bitmapPhys ∧
        lowPagePmm.bitmapPhys + lowPagePmm.bitmapSize ≤ r.base + r.length := by
  refine ⟨(Option.some_get _).symm, ?_⟩
  have hphys : lowPagePmm.bitmapPhys = 0x1000 := by decide
  have hsize : lowPagePmm.bitmapSize = 4097 := by decide
  rw [hphys, hsize]
  decide

end Bethany
