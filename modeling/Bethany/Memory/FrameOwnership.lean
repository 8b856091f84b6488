import Bethany.Memory.AllocPage

/-!
# Who owns a page frame

`vmm_alloc_page` takes frames for pages and for page tables from one pool, and `vmm_free_page`
gives the frame of a page back.

* the source: `vmmFreePage`;
* `IsTable`, `vmmMap_isTable`: the frames of the page tables, before and after `vmm_map`;
* `FrameUser`, `FrameUser.Holds`: the page tables, the pages of a region and the other users of
  the allocator, with the frames that each of them holds;
* `FramesOwned`: no two of them hold the same frame, and no frame they hold is free;
* `FramesOwned.alloc`, `FramesOwned.free`: the two calls keep that;
* `frame_ownership`: it holds in all runs, also when other entries of `pml4` are in use.
-/

namespace Bethany

open Machine Walk Relation

/-- `vmm_free_page` -/
def vmmFreePage (s : Vmm) (virt : ℕ) : Vmm :=
  let phys := vmmTranslate s virt
  if phys = 0 then s
  else
    let s := vmmUnmap s virt
    { s with pmm := pmmFreePage s.pmm (phys &&& (2 ^ 64 - 1 - 0xFFF)) }

variable {s s' : Vmm} {top root virt phys flags n f g : ℕ} {keep : ℕ → Bool}

/-! ### Page tables -/

/-- The frame holds a page table of the tree below `root`. -/
def IsTable (s : Vmm) (root f : ℕ) : Prop :=
  ∃ q : List (Fin 512), q.length ≤ 3 ∧ walk (childOf s.mem) root q = some f

namespace PageTree

theorem not_free (h : PageTree s top root) (hf : IsTable s root f) : ¬ s.pmm.Free f := by
  obtain ⟨q, hq, hw⟩ := hf
  exact h.used q f hq hw

/-- A table after `ensure_table` was one before, or its frame was free. -/
theorem ensureTable_isTable (h : PageTree s top root) {p : List (Fin 512)} {t : ℕ}
    (hp : p.length ≤ 2) (ht : walk (childOf s.mem) root p = some t) (i : Fin 512)
    (hf : IsTable (ensureTable s (t + s.hhdmOffset) i).2 root f) :
    IsTable s root f ∨ s.pmm.Free f := by
  have hpres := h.entryPresent_eq (by omega) ht i
  cases hchild : childOf s.mem t i with
  | some c =>
    rw [hchild] at hpres
    rw [ensureTable, hpres] at hf
    exact .inl hf
  | none =>
    by_cases hnull : (pmmAllocPage s.pmm).1 = null
    · rw [hchild] at hpres
      simp only [ensureTable, hpres, hnull, if_pos] at hf
      exact .inl hf
    · rw [h.ensureTable_new hp ht hchild hnull] at hf
      obtain ⟨-, hadd⟩ := h.add_table hp ht hchild hnull
      obtain ⟨q, hq, hw⟩ := hf
      dsimp only at hw
      rw [hadd q (by omega)] at hw
      split_ifs at hw with hnew
      · obtain rfl := Option.some.inj hw
        exact .inr (h.pmm.alloc_page (h.directMap.top_le.trans (by norm_num)) hnull).1
      · exact .inl ⟨q, hq, hw⟩

/-- The same for the calls that take the tables down to the page table into the tree. -/
theorem ensureFrom_isTable (h : PageTree s top root) {p : List (Fin 512)} {t : ℕ}
    (hp : p.length + n = 3) (ht : walk (childOf s.mem) root p = some t)
    (hf : IsTable (ensureFrom s virt n (t + s.hhdmOffset)).2 root f) :
    IsTable s root f ∨ s.pmm.Free f := by
  induction n generalizing s p t with
  | zero => exact .inl hf
  | succ n ih =>
    set i : Fin 512 := ⟨Paging.index (n + 1) virt, Paging.index_lt _ _⟩ with hi
    have hfirst := h.ensureTable_isTable (by omega) ht i (f := f)
    have htakes := takes_ensureTable s (t + s.hhdmOffset) i
    obtain ⟨r, s₁, he, h₁, hgrows, hr⟩ := h.ensureTable_spec (by omega) ht i
    rw [he] at hfirst htakes
    rw [ensureFrom, show Paging.index (n + 1) virt = (i : ℕ) from rfl, he] at hf
    dsimp only at hf
    obtain ⟨hnull, -⟩ | ⟨hne, c, rfl, hc⟩ := hr
    · rw [if_pos hnull] at hf
      exact hfirst hf
    · rw [if_neg hne, ← hgrows.hhdm] at hf
      have hlen : (p ++ [i]).length + n = 3 := by
        rw [List.length_append, List.length_singleton]
        omega
      obtain hold | hfree := ih h₁ hlen hc hf
      · exact hfirst hold
      · exact .inr (htakes.free hfree)

/-- **A table after `vmm_map` was one before, or its frame was free.** -/
theorem vmmMap_isTable (h : PageTree s top root) (hf : IsTable (vmmMap s virt phys flags) root f) :
    IsTable s root f ∨ s.pmm.Free f := by
  obtain ⟨r, s₁, he, h₁, -, hr⟩ := h.ensureTables_spec virt
  have hold : IsTable s₁ root f → IsTable s root f ∨ s.pmm.Free f := by
    intro hf
    have hfrom : IsTable (ensureFrom s virt 3 (root + s.hhdmOffset)).2 root f := by
      rw [← h.pml4, ← ensureTables_eq_from, he]
      exact hf
    exact h.ensureFrom_isTable rfl (walk_nil _ root) hfrom
  simp only [vmmMap, he] at hf
  obtain ⟨hnull, -⟩ | ⟨hne, pt, rfl, hpt⟩ := hr
  · rw [if_pos hnull] at hf
    exact hold hf
  · rw [if_neg hne] at hf
    obtain ⟨-, hwalk⟩ := h₁.write_leaf (length_tablePath virt) hpt (leafIndex virt) (phys ||| flags)
    obtain ⟨q, hq, hw⟩ := hf
    have hne : q ≠ tablePath virt ++ [leafIndex virt] := by
      rintro rfl
      simp at hq
    rw [show ptIndex virt = (leafIndex virt : ℕ) from rfl, hwalk q (by omega), if_neg hne] at hw
    exact hold ⟨q, hq, hw⟩

end PageTree

/-! ### Users of frames -/

/-- A release frees the page with the address, and no other. -/
theorem Pmm.WF.free_page {s : Pmm} (h : s.WF top) (hdvd : pageSize ∣ g) :
    (pmmFreePage s g).WF top ∧ ∀ f, (pmmFreePage s g).Free f → s.Free f ∨ f = g := by
  unfold pmmFreePage
  split_ifs with hnull
  · exact ⟨h, fun f hf => .inl hf⟩
  cases hidx : freeIndex g s.usable 0 with
  | none => exact ⟨h, fun f hf => .inl hf⟩
  | some bit =>
    refine ⟨h.bitmapClear bit, fun f ⟨b, hclear, hb⟩ => ?_⟩
    obtain ⟨-, f', hf', hlo, hhi⟩ := freeIndex_some hidx
    rw [Nat.sub_zero] at hf'
    by_cases heq : b = bit
    · right
      rw [heq, bitmapClear_usable, hf'] at hb
      obtain rfl := Option.some.inj hb
      have := (h.usable.frame_ok (List.mem_of_getElem? hf')).1
      rw [pageSize_eq] at *
      omega
    · rw [used_bitmapClear] at hclear
      exact .inl ⟨b, fun hused => hclear ⟨heq, hused⟩, hb⟩

/-- Who may hold a page frame: the page tables, a page, and the other users of the allocator. -/
inductive FrameUser
  | tables
  | page (page : Page)
  | holder

/-- The frames that a user holds: the tables below `root` and those in `others`, the frames of the
pages of `R`, and the frames that the other users have got. -/
def FrameUser.Holds (s : Vmm) (root : ℕ) (R : Set Page) (others : Set ℕ) (held : List ℕ) :
    FrameUser → ℕ → Prop
  | .tables, f => IsTable s root f ∨ f ∈ others
  | .page p, f => p ∈ R ∧ pageMap s root p = some f
  | .holder, f => f ∈ held

variable {R : Set Page} {others : Set ℕ} {held held' : List ℕ} {u u' : FrameUser}

/-- **Every frame that is in use has one user.** -/
structure FramesOwned (s : Vmm) (top root : ℕ) (R : Set Page) (others : Set ℕ) (held : List ℕ) :
    Prop where
  tree : PageTree s top root
  used : ∀ (u : FrameUser) f, u.Holds s root R others held f → ¬ s.pmm.Free f
  apart : ∀ (u u' : FrameUser) f, u.Holds s root R others held f →
    u'.Holds s root R others held f → u = u'
  frame : ∀ (u : FrameUser) f, u ≠ .tables → u.Holds s root R others held f →
    f ≠ null ∧ pageSize ∣ f ∧ f + pageSize ≤ top
  nodup : held.Nodup

/-- What a user holds after `vmm_map`: what it held before, a free frame that has become a page
table, or the frame that the page of `virt` now has. -/
theorem PageTree.holds_vmmMap (h : PageTree s top root) (virt phys flags : ℕ)
    (hu : u.Holds (vmmMap s virt phys flags) root R others held f) :
    u.Holds s root R others held f ∨ (s.pmm.Free f ∧ u = .tables) ∨
      entryPresent (phys ||| flags) = true ∧ f = entryAddress (phys ||| flags) ∧
        u = .page (pageOf virt) := by
  cases u with
  | tables =>
    obtain hu | hu := hu
    · obtain hold | hnew := h.vmmMap_isTable hu
      · exact .inl (.inl hold)
      · exact .inr (.inl ⟨hnew, rfl⟩)
    · exact .inl (.inr hu)
  | page p =>
    obtain ⟨hp, hu⟩ := hu
    obtain ⟨-, hmap⟩ := h.write_page virt (phys ||| flags)
      (Prod.mk.eta (p := ensureTables s virt)).symm
    have hu' := (congrFun hmap p).symm.trans hu
    by_cases hnull : (ensureTables s virt).1 = null
    · rw [if_pos hnull] at hu'
      exact .inl ⟨hp, hu'⟩
    rw [if_neg hnull] at hu'
    by_cases hv : p = pageOf virt
    · rw [hv, Function.update_self] at hu'
      split_ifs at hu' with hpres
      exact .inr (.inr ⟨hpres, (Option.some.inj hu').symm, congrArg _ hv⟩)
    · rw [Function.update_of_ne hv] at hu'
      exact .inl ⟨hp, hu'⟩
  | holder => exact .inl hu

namespace FramesOwned

/-- Frames stay with one user when the frame `g` is handed over to `v` and some free frames
become page tables. -/
theorem apart_of_handed (h : FramesOwned s top root R others held) (v : FrameUser)
    (hold : ∀ (u : FrameUser) f, u.Holds s' root R others held' f →
      u.Holds s root R others held f ∧ f ≠ g ∨ (s.pmm.Free f ∧ f ≠ g ∧ u = .tables) ∨
        f = g ∧ u = v)
    (u u' : FrameUser) (f : ℕ) (hu : u.Holds s' root R others held' f)
    (hu' : u'.Holds s' root R others held' f) : u = u' := by
  obtain ⟨hu, hne⟩ | ⟨hfree, hne, rfl⟩ | ⟨rfl, rfl⟩ := hold u f hu
  · obtain ⟨hu', -⟩ | ⟨hfree, -⟩ | ⟨heq, -⟩ := hold u' f hu'
    · exact h.apart u u' f hu hu'
    · exact absurd hfree (h.used u f hu)
    · exact absurd heq hne
  · obtain ⟨hu', -⟩ | ⟨-, -, rfl⟩ | ⟨heq, -⟩ := hold u' f hu'
    · exact absurd hfree (h.used u' f hu')
    · rfl
    · exact absurd heq hne
  · obtain ⟨-, hne⟩ | ⟨-, hne, -⟩ | ⟨-, rfl⟩ := hold u' f hu'
    · exact absurd rfl hne
    · exact absurd rfl hne
    · rfl

/-- A page table is in use, also one that is new. -/
theorem tables_used (h : FramesOwned s top root R others held) (htree : PageTree s' top root)
    (htakes : s.pmm.Takes s'.pmm) (hu : FrameUser.Holds s' root R others held' .tables f) :
    ¬ s'.pmm.Free f := by
  obtain hu | hu := hu
  · exact htree.not_free hu
  · exact fun hf => h.used .tables f (.inr hu) (htakes.free hf)

/-- Everything is still owned when the frame `g`, which is in use, has been handed over to `v`. -/
theorem handed (h : FramesOwned s top root R others held) (v : FrameUser)
    (hold : ∀ (u : FrameUser) f, u.Holds s' root R others held' f →
      u.Holds s root R others held f ∧ f ≠ g ∨ (s.pmm.Free f ∧ f ≠ g ∧ u = .tables) ∨
        f = g ∧ u = v)
    (htree : PageTree s' top root) (htakes : s.pmm.Takes s'.pmm) (hused : ¬ s'.pmm.Free g)
    (hframe : g ≠ null ∧ pageSize ∣ g ∧ g + pageSize ≤ top) (hnodup : held'.Nodup) :
    FramesOwned s' top root R others held' := by
  refine ⟨htree, fun u f hu hf => ?_, h.apart_of_handed v hold, fun u f hne hu => ?_, hnodup⟩
  · obtain ⟨hu', -⟩ | ⟨-, -, rfl⟩ | ⟨rfl, -⟩ := hold u f hu
    · exact h.used u f hu' (htakes.free hf)
    · exact h.tables_used htree htakes hu hf
    · exact hused hf
  · obtain ⟨hu, -⟩ | ⟨-, -, rfl⟩ | ⟨rfl, -⟩ := hold u f hu
    · exact h.frame u f hne hu
    · exact absurd rfl hne
    · exact hframe

/-- Another user takes a frame from the allocator. -/
theorem take (h : FramesOwned s top root R others held)
    (hne : (pmmAllocPage s.pmm).1 ≠ null) :
    FramesOwned { s with pmm := (pmmAllocPage s.pmm).2 } top root R others
      ((pmmAllocPage s.pmm).1 :: held) := by
  have htop : top ≤ 2 ^ 64 := h.tree.directMap.top_le.trans (by norm_num)
  have htakes := Pmm.Takes.alloc s.pmm
  obtain ⟨hfree, htaken⟩ := h.tree.pmm.alloc_page htop hne
  have hold : ∀ (u : FrameUser) f, u.Holds { s with pmm := (pmmAllocPage s.pmm).2 } root R others
      ((pmmAllocPage s.pmm).1 :: held) f →
      u.Holds s root R others held f ∧ f ≠ (pmmAllocPage s.pmm).1 ∨
        (s.pmm.Free f ∧ f ≠ (pmmAllocPage s.pmm).1 ∧ u = .tables) ∨
        f = (pmmAllocPage s.pmm).1 ∧ u = .holder := by
    intro u f hu
    by_cases hf : f = (pmmAllocPage s.pmm).1
    · refine .inr (.inr ⟨hf, ?_⟩)
      cases u with
      | tables => exact absurd (hf ▸ hfree) (h.used .tables f hu)
      | page p => exact absurd (hf ▸ hfree) (h.used (.page p) f hu)
      | holder => rfl
    · refine .inl ⟨?_, hf⟩
      cases u with
      | tables => exact hu
      | page p => exact hu
      | holder => exact (List.mem_cons.mp hu).resolve_left hf
  exact h.handed _ hold h.tree.allocated htakes htaken ⟨hne, h.tree.pmm.free_ok hfree⟩
    (List.nodup_cons.mpr ⟨fun hmem => h.used .holder _ hmem hfree, h.nodup⟩)

/-- A failed allocation changes nothing that is owned. -/
theorem starved (h : FramesOwned s top root R others held) :
    FramesOwned { s with pmm := (pmmAllocPage s.pmm).2 } top root R others held :=
  ⟨h.tree.allocated, fun u f hu hf => h.used u f hu ((Pmm.Takes.alloc s.pmm).free hf), h.apart,
    h.frame, h.nodup⟩

/-- `vmm_map` hands a frame over to the page of `virt`. -/
theorem map (h : FramesOwned s top root R others (g :: held)) (hpres : flags.testBit 0 = true)
    (hflags : ∀ i, 12 ≤ i → i < 52 → flags.testBit i = false) :
    FramesOwned (vmmMap s virt g flags) top root R others held := by
  obtain ⟨hnull, hdvd, hle⟩ := h.frame .holder g (by simp) (List.mem_cons_self ..)
  have hlt : g < 2 ^ 52 := by
    have := h.tree.directMap.top_le
    rw [pageSize_eq] at hle
    omega
  have htakes := takes_vmmMap s virt g flags
  obtain ⟨htree, -⟩ : PageTree (vmmMap s virt g flags) top root ∧ _ :=
    h.tree.vmmMap_spec hdvd hlt hpres hflags
  have hg := List.nodup_cons.mp h.nodup
  -- A free frame may become a table, and `g` goes from the other users to the page.
  have hold : ∀ (u : FrameUser) f, u.Holds (vmmMap s virt g flags) root R others held f →
      u.Holds s root R others (g :: held) f ∧ f ≠ g ∨ (s.pmm.Free f ∧ f ≠ g ∧ u = .tables) ∨
        f = g ∧ u = .page (pageOf virt) := by
    intro u f hu
    obtain hu | ⟨hfree, rfl⟩ | ⟨-, rfl, rfl⟩ := h.tree.holds_vmmMap virt g flags hu
    · have hu' : u.Holds s root R others (g :: held) f := by
        cases u with
        | tables => exact hu
        | page p => exact hu
        | holder => exact List.mem_cons_of_mem _ hu
      refine .inl ⟨hu', ?_⟩
      rintro rfl
      obtain rfl := h.apart u .holder f hu' (List.mem_cons_self ..)
      exact hg.1 hu
    · refine .inr (.inl ⟨hfree, ?_, rfl⟩)
      rintro rfl
      exact h.used .holder f (List.mem_cons_self ..) hfree
    · exact .inr (.inr ⟨entryAddress_or hdvd hlt hflags, rfl⟩)
  have hused : ¬ s.pmm.Free g := h.used .holder g (List.mem_cons_self ..)
  exact h.handed _ hold htree htakes (fun hf => hused (htakes.free hf)) ⟨hnull, hdvd, hle⟩ hg.2

/-- `vmm_unmap` takes the frame of the page of `virt` from it. -/
theorem unmap (h : FramesOwned s top root R others held) (hv : pageOf virt ∈ R)
    (hg : pageMap s root (pageOf virt) = some g) :
    FramesOwned (vmmUnmap s virt) top root R others (g :: held) := by
  have hpage : FrameUser.Holds s root R others held (.page (pageOf virt)) g := ⟨hv, hg⟩
  have htakes : s.pmm.Takes (vmmUnmap s virt).pmm := takes_vmmMap s virt 0 0
  obtain ⟨htree, hmap⟩ := h.tree.vmmUnmap_spec virt
  have hnew : g ∉ held := fun hmem => by
    cases h.apart (.page (pageOf virt)) .holder g hpage hmem
  have hold : ∀ (u : FrameUser) f, u.Holds (vmmUnmap s virt) root R others (g :: held) f →
      u.Holds s root R others held f ∧ f ≠ g ∨ (s.pmm.Free f ∧ f ≠ g ∧ u = .tables) ∨
        f = g ∧ u = .holder := by
    intro u f hu
    cases u with
    | tables =>
      obtain hu | ⟨hfree, -⟩ | ⟨-, -, hu⟩ := h.tree.holds_vmmMap virt 0 0 hu
      · refine .inl ⟨hu, ?_⟩
        rintro rfl
        cases h.apart .tables _ f hu hpage
      · refine .inr (.inl ⟨hfree, ?_, rfl⟩)
        rintro rfl
        exact h.used _ f hpage hfree
      · cases hu
    | page p =>
      obtain ⟨hp, hf⟩ := hu
      rw [hmap] at hf
      by_cases heq : p = pageOf virt
      · rw [heq, Function.update_self] at hf
        cases hf
      · rw [Function.update_of_ne heq] at hf
        refine .inl ⟨⟨hp, hf⟩, ?_⟩
        rintro rfl
        exact heq (FrameUser.page.inj (h.apart (.page p) _ f ⟨hp, hf⟩ hpage))
    | holder =>
      obtain rfl | hf := List.mem_cons.mp hu
      · exact .inr (.inr ⟨rfl, rfl⟩)
      · refine .inl ⟨hf, ?_⟩
        rintro rfl
        exact hnew hf
  exact h.handed _ hold htree htakes (fun hf => h.used _ g hpage (htakes.free hf))
    (h.frame _ g (by simp) hpage) (List.nodup_cons.mpr ⟨hnew, h.nodup⟩)

/-- A frame goes back to the allocator. -/
theorem give (h : FramesOwned s top root R others held) (hg : g ∈ held) :
    FramesOwned { s with pmm := pmmFreePage s.pmm g } top root R others (held.erase g) := by
  obtain ⟨hwf, hfree⟩ := h.tree.pmm.free_page (h.frame .holder g (by simp) hg).2.1
  have hholder : FrameUser.Holds s root R others held .holder g := hg
  have hold : ∀ (u : FrameUser) f, u.Holds { s with pmm := pmmFreePage s.pmm g } root R others
      (held.erase g) f → u.Holds s root R others held f ∧ f ≠ g := by
    intro u f hu
    cases u with
    | tables =>
      refine ⟨hu, ?_⟩
      rintro rfl
      cases h.apart .tables .holder f hu hholder
    | page p =>
      refine ⟨hu, ?_⟩
      rintro rfl
      cases h.apart (.page p) .holder f hu hholder
    | holder =>
      obtain ⟨hne, hf⟩ := h.nodup.mem_erase_iff.mp hu
      exact ⟨hf, hne⟩
  have hused : ∀ (u : FrameUser) f, u.Holds { s with pmm := pmmFreePage s.pmm g } root R others
      (held.erase g) f → ¬ (pmmFreePage s.pmm g).Free f := by
    intro u f hu hf
    obtain ⟨hu, hne⟩ := hold u f hu
    exact (hfree f hf).elim (h.used u f hu) hne
  refine ⟨{ h.tree with
      pmm := hwf
      used := fun q f hq hw => hused .tables f (.inl ⟨q, hq, hw⟩) },
    hused, fun u u' f hu hu' => h.apart u u' f (hold u f hu).1 (hold u' f hu').1,
    fun u f hne hu => h.frame u f hne (hold u f hu).1, h.nodup.erase g⟩

/-- **`vmm_alloc_page` gives every frame that it takes one user**: a page of the region, or the
page tables. -/
theorem alloc (h : FramesOwned s top root R others held) (hpres : flags.testBit 0 = true)
    (hflags : ∀ i, 12 ≤ i → i < 52 → flags.testBit i = false) :
    FramesOwned (vmmAllocPage s virt flags).2 top root R others held := by
  unfold vmmAllocPage
  by_cases hnull : (pmmAllocPage s.pmm).1 = null
  · rw [if_pos hnull]
    exact h.starved
  · rw [if_neg hnull]
    exact (h.take hnull).map hpres hflags

/-- The address that `vmm_free_page` passes on is that of the frame. -/
theorem frame_of_translate {o : ℕ} (hdvd : pageSize ∣ g) (hlt : g + pageSize ≤ 2 ^ 64)
    (ho : o < pageSize) : (g + o) &&& (2 ^ 64 - 1 - 0xFFF) = g := by
  rw [pageSize_eq] at *
  have hhigh := and_highBits (x := g + o) (by norm_num : 12 ≤ 64) (by omega)
  rw [show 2 ^ 64 - 1 - 0xFFF = 2 ^ 64 - 2 ^ 12 by norm_num, hhigh]
  omega

/-- **`vmm_free_page` frees the frame of its page and no other.** -/
theorem free (h : FramesOwned s top root R others held) (hv : pageOf virt ∈ R) :
    FramesOwned (vmmFreePage s virt) top root R others held := by
  unfold vmmFreePage
  rw [h.tree.vmmTranslate_eq, PageMap.translate]
  cases hg : pageMap s root (pageOf virt) with
  | none => exact h
  | some g =>
    obtain ⟨hnull, hdvd, hle⟩ := h.frame (.page (pageOf virt)) g (by simp) ⟨hv, hg⟩
    have htop := h.tree.directMap.top_le
    dsimp only
    rw [if_neg (by rw [null] at hnull; omega),
      frame_of_translate hdvd (by omega) (Nat.mod_lt _ (by simp [pageSize_eq]))]
    have hgive := (h.unmap hv hg).give (List.mem_cons_self ..)
    rwa [List.erase_cons_head] at hgive

end FramesOwned

/-! ### A region of the address space -/

namespace PageTree

/-- `vmm_alloc_page` does not notice the other entries of `pml4`. -/
theorem vmmAllocPage_only (h : PageTree (s.only root keep) top root)
    (hkeep : keep (pml4Index virt) = true) (flags : ℕ) :
    (vmmAllocPage (s.only root keep) virt flags).2 =
      (vmmAllocPage s virt flags).2.only root keep := by
  unfold vmmAllocPage
  rw [Vmm.only_pmm]
  dsimp only
  split_ifs with hnull
  · rfl
  · have htree : PageTree (Vmm.only { s with pmm := (pmmAllocPage s.pmm).2 } root keep) top root :=
      h.allocated
    exact htree.vmmMap_only virt _ flags hkeep

/-- `vmm_free_page` does not notice the other entries of `pml4`. -/
theorem vmmFreePage_only (h : PageTree (s.only root keep) top root)
    (hkeep : keep (pml4Index virt) = true) :
    vmmFreePage (s.only root keep) virt = (vmmFreePage s virt).only root keep := by
  have hunmap : vmmUnmap (s.only root keep) virt = (vmmUnmap s virt).only root keep :=
    h.vmmMap_only virt 0 0 hkeep
  unfold vmmFreePage
  rw [h.vmmTranslate_only virt hkeep, hunmap]
  dsimp only
  split_ifs with hzero
  · rfl
  · rfl

end PageTree

/-! ### Runs -/

/-- The memory manager, and the frames that other users of the allocator have got. -/
structure FrameRun where
  vmm : Vmm
  held : List ℕ

/-- A call of `vmm_alloc_page` or `vmm_free_page` for a page of `R`, with flags that contain
`PAGE_PRESENT` and leave bits 12 to 51 to the address, or a call of `pmm_alloc_page` or
`pmm_free_page` by another user. -/
inductive FrameStep (R : Set Page) : FrameRun → FrameRun → Prop
  | allocPage (t : FrameRun) (virt flags : ℕ) (hv : pageOf virt ∈ R)
      (hpres : flags.testBit 0 = true) (hflags : ∀ i, 12 ≤ i → i < 52 → flags.testBit i = false) :
      FrameStep R t { t with vmm := (vmmAllocPage t.vmm virt flags).2 }
  | freePage (t : FrameRun) (virt : ℕ) (hv : pageOf virt ∈ R) :
      FrameStep R t { t with vmm := vmmFreePage t.vmm virt }
  | take (t : FrameRun) (hne : (pmmAllocPage t.vmm.pmm).1 ≠ null) :
      FrameStep R t
        { vmm := { t.vmm with pmm := (pmmAllocPage t.vmm.pmm).2 }
          held := (pmmAllocPage t.vmm.pmm).1 :: t.held }
  | give (t : FrameRun) (page : ℕ) (hpage : page ∈ t.held) :
      FrameStep R t
        { vmm := { t.vmm with pmm := pmmFreePage t.vmm.pmm page }
          held := t.held.erase page }

variable {t t' : FrameRun}

/-- Before the run no page of `R` is mapped, and no frame of a page table is free. -/
theorem FramesOwned.init (h : PageTree (s.only root keep) top root)
    (hothers : ∀ f ∈ others, ¬ s.pmm.Free f)
    (hunmapped : ∀ p ∈ R, pageMap (s.only root keep) root p = none) :
    FramesOwned (s.only root keep) top root R others [] := by
  have hold : ∀ (u : FrameUser) f, u.Holds (s.only root keep) root R others [] f →
      u = .tables ∧ ¬ s.pmm.Free f := by
    intro u f hu
    cases u with
    | tables => exact ⟨rfl, hu.elim h.not_free (hothers f)⟩
    | page p =>
      obtain ⟨hp, hf⟩ := hu
      rw [hunmapped p hp] at hf
      cases hf
    | holder => exact absurd hu List.not_mem_nil
  exact ⟨h, fun u f hu => (hold u f hu).2,
    fun u u' f hu hu' => (hold u f hu).1.trans (hold u' f hu').1.symm,
    fun u f hne hu => absurd (hold u f hu).1 hne, List.nodup_nil⟩

theorem FrameStep.owned (hkeep : ∀ virt, pageOf virt ∈ R → keep (pml4Index virt) = true)
    (hstep : FrameStep R t t') (h : FramesOwned (t.vmm.only root keep) top root R others t.held) :
    FramesOwned (t'.vmm.only root keep) top root R others t'.held := by
  cases hstep with
  | allocPage virt flags hv hpres hflags =>
    dsimp only
    rw [← h.tree.vmmAllocPage_only (hkeep virt hv)]
    exact h.alloc hpres hflags
  | freePage virt hv =>
    dsimp only
    rw [← h.tree.vmmFreePage_only (hkeep virt hv)]
    exact h.free hv
  | take hne => exact h.take hne
  | give page hpage => exact h.give hpage

/-- **Frame ownership.**  In every run of `vmm_alloc_page` and `vmm_free_page` on the pages of a
region, with other users of the allocator at any point between the calls, different pages have
different frames, none of these frames is free, and none holds a page table: neither one of the
tree through which the region is reached, nor one of the `others`. -/
theorem frame_ownership (htree : PageTree (s.only root keep) top root)
    (hothers : ∀ f ∈ others, ¬ s.pmm.Free f)
    (hkeep : ∀ virt, pageOf virt ∈ R → keep (pml4Index virt) = true)
    (hunmapped : ∀ p ∈ R, pageMap (s.only root keep) root p = none)
    (hrun : ReflTransGen (FrameStep R) ⟨s, []⟩ t) :
    (∀ p ∈ R, ∀ p' ∈ R, ∀ f, pageMap (t.vmm.only root keep) root p = some f →
        pageMap (t.vmm.only root keep) root p' = some f → p = p') ∧
      ∀ p ∈ R, ∀ f, pageMap (t.vmm.only root keep) root p = some f →
        ¬ t.vmm.pmm.Free f ∧ ¬ IsTable (t.vmm.only root keep) root f ∧ f ∉ others := by
  have howned : FramesOwned (t.vmm.only root keep) top root R others t.held := by
    induction hrun with
    | refl => exact FramesOwned.init htree hothers hunmapped
    | tail _ hstep ih => exact hstep.owned hkeep ih
  constructor
  · intro p hp p' hp' f hf hf'
    exact FrameUser.page.inj (howned.apart (.page p) (.page p') f ⟨hp, hf⟩ ⟨hp', hf'⟩)
  · intro p hp f hf
    have hpage : FrameUser.Holds (t.vmm.only root keep) root R others t.held (.page p) f :=
      ⟨hp, hf⟩
    refine ⟨howned.used _ f hpage, fun htable => ?_, fun hmem => ?_⟩
    · cases howned.apart (.page p) .tables f hpage (.inl htable)
    · cases howned.apart (.page p) .tables f hpage (.inr hmem)

/-- The state after two pages have got frames and the first one has given its frame back. -/
def twoPagesVmm : Vmm :=
  vmmFreePage (vmmAllocPage (vmmAllocPage exampleVmm 0x400000 3).2 0x401000 3).2 0x400000

theorem frame_ownership_example :
    pageMap (twoPagesVmm.only 0x1000 fun _ => true) 0x1000 (pageOf 0x401000) = some 0x6000 ∧
      ¬ twoPagesVmm.pmm.Free 0x6000 ∧
      ¬ IsTable (twoPagesVmm.only 0x1000 fun _ => true) 0x1000 0x6000 := by
  have hflags : ∀ j, 12 ≤ j → j < 52 → (3 : ℕ).testBit j = false := fun j h12 _ =>
    flags_testBit (by norm_num) h12
  have hpres : (3 : ℕ).testBit 0 = true := by decide
  have hv : ∀ p : Page, p ∈ Set.univ := Set.mem_univ
  have h₁ (t : FrameRun) := FrameStep.allocPage t 0x400000 3 (hv _) hpres hflags
  have h₂ (t : FrameRun) := FrameStep.allocPage t 0x401000 3 (hv _) hpres hflags
  have h₃ (t : FrameRun) := FrameStep.freePage t 0x400000 (hv _)
  have hrun := ((ReflTransGen.single (h₁ ⟨exampleVmm, []⟩)).tail (h₂ _)).tail (h₃ _)
  have htree : PageTree (exampleVmm.only 0x1000 fun _ => true) 0xa000 0x1000 := by
    rw [Vmm.only_all]
    exact exampleVmm_tree
  have hunmapped : ∀ p ∈ Set.univ,
      pageMap (exampleVmm.only 0x1000 fun _ => true) 0x1000 p = none := by
    intro p _
    rw [Vmm.only_all]
    simp [pageMap, pathOf, walk_cons, childOf, load, exampleVmm, entryPresent]
  have hothers : ∀ f ∈ (∅ : Set ℕ), ¬ exampleVmm.pmm.Free f := by simp
  have hf : pageMap (twoPagesVmm.only 0x1000 fun _ => true) 0x1000 (pageOf 0x401000) =
      some 0x6000 := by
    decide +kernel
  have h := frame_ownership htree hothers (fun _ _ => rfl) hunmapped hrun
  dsimp only at h
  unfold twoPagesVmm at *
  obtain ⟨hused, htable, -⟩ := h.2 (pageOf 0x401000) (hv _) 0x6000 hf
  exact ⟨hf, hused, htable⟩

end Bethany
