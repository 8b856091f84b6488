import Bethany.Memory.PageMap
import Bethany.Memory.Translate

/-!
# The rights of a mapped page

The processor allows with a page what the entries of all four tables on the way allow.
`vmm_map` puts the caller's flags into the last entry only.  The three entries above it are made
by `ensure_table`, once and for all pages below them, with `PAGE_PRESENT` and `PAGE_WRITABLE`.
So what a page may be used for does not depend on what was mapped before it, but `PAGE_USER`
has no effect.

* `entryAt`: the entry at the end of a walk;
* `PageTree.entryAt_table`, `PageTree.entryAt_leaf`: the entries after a table has been entered,
  and after a page has;
* `MadeTables`: the entries of the upper tables are those that `ensure_table` makes;
* `MadeTables.rights_eq`: then the last entry decides, but for `PAGE_USER`;
* `vmmMap_rights_iff`: when a page gets the rights asked for.
-/

namespace Bethany

open Machine Walk Paging

variable {s s' : Vmm} {m : Mem} {top root virt phys flags n t e : ℕ}
  {p q : List (Fin 512)} {i j : Fin 512}

/-! ### Entries -/

/-- Entry `i` of the table in frame `f`, if it is present. -/
def presentEntry (m : Mem) (f : ℕ) (i : Fin 512) : Option ℕ :=
  if entryPresent (load m (f + 8 * i) 8) then some (load m (f + 8 * i) 8) else none

/-- Entry `i` of the table at the end of `p`, if there is one. -/
def entryAt (m : Mem) (root : ℕ) (p : List (Fin 512)) (i : Fin 512) : Option ℕ :=
  (Walk.walk (childOf m) root p).bind fun f => presentEntry m f i

theorem childOf_eq_map (m : Mem) (f : ℕ) (i : Fin 512) :
    childOf m f i = (presentEntry m f i).map entryAddress := by
  unfold childOf presentEntry
  split_ifs <;> rfl

theorem entryAt_of_walk (ht : Walk.walk (childOf m) root p = some t) (i : Fin 512) :
    entryAt m root p i = presentEntry m t i := by
  simp [entryAt, ht]

theorem entryAt_of_none (ht : Walk.walk (childOf m) root p = none) (i : Fin 512) :
    entryAt m root p i = none := by
  simp [entryAt, ht]

theorem presentEntry_store_same (m : Mem) (f v : ℕ) (i : Fin 512) :
    presentEntry (store m (f + 8 * i) 8 v) f i =
      if entryPresent v then some (v % 2 ^ 64) else none := by
  simp only [presentEntry, load_store_same, show 256 ^ 8 = 2 ^ 64 by norm_num, entryPresent_mod]

theorem presentEntry_of_empty {f : ℕ} (h : childOf m f i = none) : presentEntry m f i = none := by
  rwa [childOf_eq_map, Option.map_eq_none_iff] at h

namespace PageTree

variable (h : PageTree s top root)
include h

/-- When one entry of the table at the end of `p` is written, the walks to that table and to
others stay, and so do the other entries of all of them. -/
theorem entryAt_set {x : Option ℕ} (hp : p.length ≤ 3)
    (ht : Walk.walk (childOf s.mem) root p = some t) (hq : q.length ≤ 3)
    (hwalk : Walk.walk (childOf m) root q = Walk.walk (childOf s.mem) root q)
    (hentry : presentEntry m t i = x)
    (hrest : ∀ u, Walk.walk (childOf s.mem) root q = some u → ¬ (u = t ∧ j = i) →
      load m (u + 8 * j) 8 = load s.mem (u + 8 * j) 8) :
    entryAt m root q j = if q = p ∧ j = i then x else entryAt s.mem root q j := by
  cases hu : Walk.walk (childOf s.mem) root q with
  | none =>
    rw [hu] at hwalk
    rw [entryAt_of_none hwalk, entryAt_of_none hu, if_neg]
    rintro ⟨rfl, -⟩
    rw [ht] at hu
    cases hu
  | some u =>
    rw [hu] at hwalk
    rw [entryAt_of_walk hwalk, entryAt_of_walk hu]
    split_ifs with heq
    · obtain ⟨rfl, rfl⟩ := heq
      rwa [Option.some.inj (hu.symm.trans ht)]
    · have hne : ¬ (u = t ∧ j = i) := by
        rintro ⟨rfl, rfl⟩
        exact heq ⟨h.distinct q p u hq hp hu ht, rfl⟩
      unfold presentEntry
      rw [hrest u hu hne]

/-- **A new table** adds its own entry to the tables above it, and no other. -/
theorem entryAt_table (hp : p.length ≤ 2) (ht : Walk.walk (childOf s.mem) root p = some t)
    (hnone : childOf s.mem t i = none) (hne : (pmmAllocPage s.pmm).1 ≠ null)
    (hq : q.length ≤ 3) (j : Fin 512) :
    entryAt (tableMem s.mem t i (pmmAllocPage s.pmm).1) root q j =
      if q = p ∧ j = i then some ((pmmAllocPage s.pmm).1 ||| pagePresent ||| pageWritable)
      else entryAt s.mem root q j := by
  have htop : top ≤ 2 ^ 64 := h.directMap.top_le.trans (by norm_num)
  obtain ⟨-, hadd⟩ := h.add_table hp ht hnone hne
  have hfree := (h.pmm.alloc_page htop hne).1
  have hcok := h.pmm.free_ok hfree
  have htok := (h.frame_ok p t (by omega) ht).1
  have hwalk := hadd q (by omega)
  set c := (pmmAllocPage s.pmm).1
  by_cases hnew : q = p ++ [i]
  · -- The new table has no entry yet.
    have hold : Walk.walk (childOf s.mem) root q = none := by
      rw [hnew, walk_concat, ht, Option.bind_some, hnone]
    have hct : c ≠ t := fun heq => h.used p t (by omega) ht (heq ▸ hfree)
    have hempty := childOf_tableMem_new (m := s.mem) (i := i) hcok.1 htok hct j
    rw [if_pos hnew] at hwalk
    rw [entryAt_of_walk hwalk, presentEntry_of_empty hempty, entryAt_of_none hold, if_neg]
    rintro ⟨rfl, -⟩
    simp at hnew
  · rw [if_neg hnew] at hwalk
    refine h.entryAt_set (by omega) ht hq hwalk ?_ fun u hu hother => ?_
    · have hclt : c < 2 ^ 52 := by
        have := h.directMap.top_le
        rw [pageSize_eq] at hcok
        omega
      have hlt : c ||| pagePresent ||| pageWritable < 2 ^ 64 :=
        Nat.or_lt_two_pow (Nat.or_lt_two_pow (hclt.trans (by norm_num)) (by decide)) (by decide)
      have hpres : entryPresent (c ||| pagePresent ||| pageWritable) = true := by
        rw [tableFlags, entryPresent_or rfl]
      rw [tableMem, presentEntry_store_same, if_pos hpres, Nat.mod_eq_of_lt hlt]
    · have huc : u ≠ c := fun heq => h.used q u hq hu (heq ▸ hfree)
      exact load_tableMem_of_ne hcok.1 htok (h.frame_ok q u hq hu).1 huc hother

/-- **Writing a leaf** changes that entry and no other. -/
theorem entryAt_leaf (hp : p.length = 3) (ht : Walk.walk (childOf s.mem) root p = some t)
    (i : Fin 512) (entry : ℕ) (hq : q.length ≤ 3) (j : Fin 512) :
    entryAt (writeEntry s (t + s.hhdmOffset) i entry).mem root q j =
      if q = p ∧ j = i then if entryPresent entry then some (entry % 2 ^ 64) else none
      else entryAt s.mem root q j := by
  obtain ⟨-, hwalk⟩ := h.write_leaf hp ht i entry
  have htok := h.frame_ok p t (by omega) ht
  have hsame := (hwalk q (by omega)).trans (if_neg (by
    rintro rfl
    simp at hq
    omega))
  rw [writeEntry_ptr h.directMap htok.2] at hsame ⊢
  refine h.entryAt_set (by omega) ht hq hsame (presentEntry_store_same ..) fun u hu hother => ?_
  exact load_store_disjoint (entry_apart htok.1 (h.frame_ok q u hq hu).1 hother)

end PageTree

/-! ### The upper tables -/

/-- The entries of the upper tables are those that `ensure_table` makes. -/
def MadeTables (m : Mem) (root : ℕ) : Prop :=
  ∀ q j e, q.length ≤ 2 → entryAt m root q j = some e →
    ∃ c, pageSize ∣ c ∧ c < 2 ^ 52 ∧ e = c ||| pagePresent ||| pageWritable

/-- From `s` to `s'` only entries of upper tables have been made. -/
structure Enters (s s' : Vmm) (root : ℕ) : Prop where
  made : MadeTables s.mem root → MadeTables s'.mem root
  leaves : ∀ q j, q.length = 3 → entryAt s'.mem root q j = entryAt s.mem root q j

theorem Enters.refl (s : Vmm) (root : ℕ) : Enters s s root := ⟨id, fun _ _ _ => rfl⟩

theorem Enters.trans {s'' : Vmm} (h : Enters s s' root) (h' : Enters s' s'' root) :
    Enters s s'' root :=
  ⟨fun hm => h'.made (h.made hm), fun q j hq => (h'.leaves q j hq).trans (h.leaves q j hq)⟩

/-- The rights that the entries of upper tables give. -/
def tableRights : Rights := ⟨true, false, false⟩

/-- What `ensure_table` makes says nothing else to the processor. -/
theorem madeEntry_eq {c : ℕ} (hc : pageSize ∣ c) (hlt : c < 2 ^ 52) :
    Rights.ofEntry (c ||| pagePresent ||| pageWritable) = tableRights ∧
      ¬ Large n (c ||| pagePresent ||| pageWritable) := by
  have hbit : ∀ i, ¬ (12 ≤ i ∧ i < 52) → c.testBit i = false := fun i hi =>
    testBit_of_aligned hc hlt hi
  rw [tableFlags]
  constructor
  · simp [Rights.ofEntry, tableRights, hbit 1 (by omega), hbit 2 (by omega), hbit 63 (by omega),
      show (3 : ℕ).testBit 1 = true by decide, show (3 : ℕ).testBit 2 = false by decide,
      show (3 : ℕ).testBit 63 = false by decide]
  · rintro ⟨-, hlarge⟩
    simp [hbit 7 (by omega), show (3 : ℕ).testBit 7 = false by decide] at hlarge

namespace PageTree

theorem ensureTable_enters (h : PageTree s top root) (hp : p.length ≤ 2)
    (ht : Walk.walk (childOf s.mem) root p = some t) (i : Fin 512) :
    Enters s (ensureTable s (t + s.hhdmOffset) i).2 root := by
  have hpres := h.entryPresent_eq (by omega) ht i
  cases hchild : childOf s.mem t i with
  | some c =>
    rw [hchild] at hpres
    have hsame : (ensureTable s (t + s.hhdmOffset) i).2 = s := by simp [ensureTable, hpres]
    rw [hsame]
    exact .refl s root
  | none =>
    by_cases hnull : (pmmAllocPage s.pmm).1 = null
    · rw [hchild] at hpres
      have hfull : (ensureTable s (t + s.hhdmOffset) i).2 =
          { s with pmm := (pmmAllocPage s.pmm).2 } := by
        simp [ensureTable, hpres, hnull]
      rw [hfull]
      exact ⟨id, fun _ _ _ => rfl⟩
    · have htop : top ≤ 2 ^ 64 := h.directMap.top_le.trans (by norm_num)
      have hcok := h.pmm.free_ok (h.pmm.alloc_page htop hnull).1
      rw [h.ensureTable_new hp ht hchild hnull]
      constructor
      · intro hmade q j e hq he
        dsimp only at he
        rw [h.entryAt_table hp ht hchild hnull (by omega) j] at he
        split_ifs at he with heq
        · refine ⟨(pmmAllocPage s.pmm).1, hcok.1, ?_, (Option.some.inj he).symm⟩
          have := h.directMap.top_le
          rw [pageSize_eq] at hcok
          omega
        · exact hmade q j e hq he
      · intro q j hq
        dsimp only
        rw [h.entryAt_table hp ht hchild hnull hq.le j, if_neg]
        rintro ⟨rfl, -⟩
        omega

/-- The three calls of `ensure_table` make entries of upper tables only. -/
theorem ensureTables_enters (h : PageTree s top root) (virt : ℕ) :
    Enters s (ensureTables s virt).2 root := by
  set i₄ : Fin 512 := ⟨pml4Index virt, index_lt virt 39⟩
  set i₃ : Fin 512 := ⟨pdptIndex virt, index_lt virt 30⟩
  set i₂ : Fin 512 := ⟨pdIndex virt, index_lt virt 21⟩
  have e₄ := h.ensureTable_enters (by simp) (walk_nil _ root) i₄
  obtain ⟨r₄, s₄, he₄, h₄, g₄, hr₄⟩ := h.ensureTable_spec (by simp) (walk_nil _ root) i₄
  rw [he₄] at e₄
  rw [← h.pml4] at he₄
  rw [ensureTables, show pml4Index virt = (i₄ : ℕ) from rfl, he₄]
  dsimp only at e₄ ⊢
  obtain ⟨hn₄, -⟩ | ⟨hn₄, t₄, rfl, hw₄⟩ := hr₄
  · rwa [if_pos hn₄]
  rw [if_neg hn₄, ← g₄.hhdm]
  have e₃ := h₄.ensureTable_enters (by simp) hw₄ i₃
  obtain ⟨r₃, s₃, he₃, h₃, g₃, hr₃⟩ := h₄.ensureTable_spec (by simp) hw₄ i₃
  rw [show pdptIndex virt = (i₃ : ℕ) from rfl, he₃]
  rw [he₃] at e₃
  dsimp only at e₃ ⊢
  obtain ⟨hn₃, -⟩ | ⟨hn₃, t₃, rfl, hw₃⟩ := hr₃
  · rw [if_pos hn₃]
    exact e₄.trans e₃
  rw [if_neg hn₃, ← g₃.hhdm]
  exact (e₄.trans e₃).trans (h₃.ensureTable_enters (by simp) hw₃ i₂)

end PageTree

/-! ### The walk of the processor -/

/-- The entries that lead to the page table for an address, from level `n` on. -/
def pathFrom (virt : ℕ) : ℕ → List (Fin 512)
  | 0 => []
  | n + 1 => ⟨index (n + 1) virt, Paging.index_lt _ _⟩ :: pathFrom virt n

theorem tablePath_eq_pathFrom (virt : ℕ) : tablePath virt = pathFrom virt 3 := by
  simp [tablePath, pathFrom, pml4Index_eq, pdptIndex_eq, pdIndex_eq]

theorem presentEntry_leaf (m : Mem) (f virt : ℕ) :
    presentEntry m f (leafIndex virt) =
      if (entry m f (index 0 virt)).testBit 0 then some (entry m f (index 0 virt)) else none := by
  simp only [presentEntry, leafIndex, entryPresent_eq_testBit, ptIndex_eq]
  rfl

/-- The rights of a page, as the processor computes them. -/
def effectiveRights (s : Vmm) (root virt : ℕ) : Option Rights := rights s.mem virt 4 root

/-- **Below tables that `ensure_table` has made** the last entry decides. -/
theorem MadeTables.rights_from (hmade : MadeTables m root) (hp : p.length + n = 3)
    (ht : Walk.walk (childOf m) root p = some t) :
    rights m virt (n + 1) t =
      (entryAt m t (pathFrom virt n) (leafIndex virt)).map fun e =>
        tableRights.meet^[n] (Rights.ofEntry e) := by
  induction n generalizing p t with
  | zero =>
    rw [pathFrom, entryAt_of_walk (walk_nil _ t), presentEntry_leaf]
    cases hpres : (entry m t (index 0 virt)).testBit 0 with
    | false => simp [rights_of_absent hpres]
    | true =>
      have hsmall : ¬ Large 0 (entry m t (index 0 virt)) := by simp [Large]
      rw [rights_of_table hpres hsmall, rights]
      simp only [if_true, Option.map_some, Rights.meet_full, Function.iterate_zero, id]
  | succ n ih =>
    set i : Fin 512 := ⟨index (n + 1) virt, Paging.index_lt _ _⟩ with hi
    have hentry : entry m t (index (n + 1) virt) = load m (t + 8 * i) 8 := rfl
    have hchild := childOf_eq_map m t i
    cases hpres : (entry m t (index (n + 1) virt)).testBit 0 with
    | false =>
      have hnone : presentEntry m t i = none := by
        rw [presentEntry, entryPresent_eq_testBit, ← hentry, hpres]
        rfl
      rw [hnone] at hchild
      rw [rights_of_absent hpres, pathFrom, ← hi, entryAt, walk_cons, hchild]
      rfl
    | true =>
      have hsome : presentEntry m t i = some (entry m t (index (n + 1) virt)) := by
        rw [presentEntry, entryPresent_eq_testBit, ← hentry, hpres]
        rfl
      obtain ⟨c, hc, hlt, he⟩ := hmade p i _ (by omega) ((entryAt_of_walk ht i).trans hsome)
      obtain ⟨hrights, hsmall⟩ := madeEntry_eq (n := n + 1) hc hlt
      rw [← he] at hrights hsmall
      rw [hsome, Option.map_some] at hchild
      have hnext : Walk.walk (childOf m) root (p ++ [i]) =
          some (entryAddress (entry m t (index (n + 1) virt))) := by
        rw [walk_concat, ht, Option.bind_some, hchild]
      have hlen : (p ++ [i]).length + n = 3 := by
        simp
        omega
      have hrest : entryAt m t (pathFrom virt (n + 1)) (leafIndex virt) =
          entryAt m (entryAddress (entry m t (index (n + 1) virt))) (pathFrom virt n)
            (leafIndex virt) := by
        rw [pathFrom, ← hi, entryAt, walk_cons, hchild]
        rfl
      rw [rights_of_table hpres hsmall, hrights, ← entryAddress_eq_frame, ih hlen hnext, hrest,
        Option.map_map]
      refine congrArg (Option.map · _) (funext fun e => ?_)
      rw [Function.comp_apply, Function.iterate_succ_apply']

theorem MadeTables.rights_eq (hmade : MadeTables s.mem root) (virt : ℕ) :
    effectiveRights s root virt =
      (entryAt s.mem root (tablePath virt) (leafIndex virt)).map fun e =>
        tableRights.meet (Rights.ofEntry e) := by
  rw [effectiveRights, hmade.rights_from (p := []) rfl rfl, tablePath_eq_pathFrom]
  simp

/-! ### One call -/

/-- The arguments of a call of `vmm_map`. -/
structure MapCall where
  virt : ℕ
  phys : ℕ
  flags : ℕ

def MapCall.exec (call : MapCall) (s : Vmm) : Vmm := vmmMap s call.virt call.phys call.flags

instance (v w : ℕ) : Decidable (SamePage v w) := inferInstanceAs (Decidable (_ = _))

theorem samePage_iff_path {v w : ℕ} :
    SamePage v w ↔ tablePath v = tablePath w ∧ leafIndex v = leafIndex w := by
  rw [samePage_iff, ← pathOf_injective.eq_iff, pathOf_pageOf, pathOf_pageOf]
  simp

theorem ofEntry_mod (e : ℕ) : Rights.ofEntry (e % 2 ^ 64) = Rights.ofEntry e := by
  simp only [Rights.ofEntry, Nat.testBit_mod_two_pow]
  simp

/-- **What `vmm_map` does to rights**: the page of `virt` gets those of the last entry, but for
`PAGE_USER`, and every other page keeps its own. -/
theorem MapCall.exec_rights (h : PageTree s top root) (hmade : MadeTables s.mem root)
    (call : MapCall) :
    PageTree (call.exec s) top root ∧ MadeTables (call.exec s).mem root ∧
      ∀ v, effectiveRights (call.exec s) root v =
        if (ensureTables s call.virt).1 ≠ null ∧ SamePage v call.virt then
          if entryPresent (call.phys ||| call.flags) then
            some (tableRights.meet (Rights.ofEntry (call.phys ||| call.flags)))
          else none
        else effectiveRights s root v := by
  obtain ⟨r, s', he, h', -, hr⟩ := h.ensureTables_spec call.virt
  have henters := h.ensureTables_enters call.virt
  have htree := (h.write_page call.virt (call.phys ||| call.flags) he).1
  have hexec : call.exec s = if r = null then s' else
      writeEntry s' r (ptIndex call.virt) (call.phys ||| call.flags) := by
    simp only [MapCall.exec, vmmMap, he]
  rw [he] at henters ⊢
  rw [hexec]
  have hmade' : MadeTables s'.mem root := henters.made hmade
  have hkept : ∀ v, effectiveRights s' root v = effectiveRights s root v := by
    intro v
    rw [hmade'.rights_eq, hmade.rights_eq, henters.leaves _ _ (length_tablePath v)]
  obtain ⟨hnull, -⟩ | ⟨hnull, pt, rfl, hpt⟩ := hr
  · rw [if_pos hnull] at htree ⊢
    exact ⟨htree, hmade', fun v => by simp [hnull, hkept v]⟩
  rw [if_neg hnull] at htree ⊢
  have hentry := fun q j hq => h'.entryAt_leaf (q := q) (length_tablePath call.virt) hpt
    (leafIndex call.virt) (call.phys ||| call.flags) hq j
  have hmade'' : MadeTables (writeEntry s' (pt + s'.hhdmOffset) (leafIndex call.virt)
      (call.phys ||| call.flags)).mem root := by
    intro q j e hq hqe
    rw [hentry q j (by omega), if_neg] at hqe
    · exact hmade' q j e hq hqe
    · rintro ⟨rfl, -⟩
      simp at hq
  refine ⟨htree, hmade'', fun v => ?_⟩
  have hv := hmade''.rights_eq v
  rw [hentry _ _ (length_tablePath v).le] at hv
  refine hv.trans ?_
  simp only [← samePage_iff_path, hnull, ne_eq, not_false_eq_true, true_and]
  split_ifs
  · rw [Option.map_some, ofEntry_mod]
  · rfl
  · rw [← hkept v, hmade'.rights_eq]

/-! ### Runs -/

/-- The state after a list of calls of `vmm_map`. -/
def mapRun (s : Vmm) (calls : List MapCall) : Vmm := calls.foldl (fun s call => call.exec s) s

theorem mapRun_made (h : PageTree s top root) (hmade : MadeTables s.mem root)
    (calls : List MapCall) :
    PageTree (mapRun s calls) top root ∧ MadeTables (mapRun s calls).mem root := by
  induction calls generalizing s with
  | nil => exact ⟨h, hmade⟩
  | cons call calls ih =>
    obtain ⟨h', hmade', -⟩ := call.exec_rights h hmade
    exact ih h' hmade'

theorem MadeTables.of_empty (hempty : ∀ i, childOf m root i = none) : MadeTables m root := by
  intro q j e _ he
  cases q with
  | nil =>
    rw [entryAt_of_walk (walk_nil _ root), presentEntry_of_empty (hempty j)] at he
    cases he
  | cons i q =>
    rw [entryAt_of_none (by simp [walk_cons, hempty])] at he
    cases he

/-- The call gives the page the rights asked for, and leaves those of other pages alone. -/
def RightsGiven (s : Vmm) (root : ℕ) (call : MapCall) : Prop :=
  effectiveRights (call.exec s) root call.virt = some (Rights.ofEntry call.flags) ∧
    ∀ v, ¬ SamePage v call.virt →
      effectiveRights (call.exec s) root v = effectiveRights s root v

/-- What is left of the flags in an entry made of an address and flags below such tables. -/
theorem tableRights_meet_or (phys flags : ℕ) :
    tableRights.meet (Rights.ofEntry (phys ||| flags)) = Rights.ofEntry flags ↔
      flags.testBit 2 = false ∧ (phys.testBit 1 = true → flags.testBit 1 = true) ∧
        (phys.testBit 63 = true → flags.testBit 63 = true) := by
  simp only [Rights.ext_iff, tableRights, Rights.meet, Rights.ofEntry, Nat.testBit_or,
    Bool.true_and, Bool.false_and, Bool.false_or, Bool.or_eq_right_iff_imp]
  tauto

/-- **When a page gets the rights asked for.**  In every run of `vmm_map` from an empty `pml4`,
a call that gets its tables leaves the rights of other pages alone, whatever was mapped before.
Its own page gets those of its flags exactly if `PAGE_USER` is not among them and the address
brings in neither `PAGE_WRITABLE` nor `PAGE_NO_EXECUTE`. -/
theorem vmmMap_rights_iff (h : PageTree s top root) (hempty : ∀ i, childOf s.mem root i = none)
    (calls : List MapCall) (hs' : s' = mapRun s calls) (call : MapCall)
    (hpres : call.flags.testBit 0 = true) (htables : (ensureTables s' call.virt).1 ≠ null) :
    RightsGiven s' root call ↔
      call.flags.testBit 2 = false ∧
        (call.phys.testBit 1 = true → call.flags.testBit 1 = true) ∧
        (call.phys.testBit 63 = true → call.flags.testBit 63 = true) := by
  subst hs'
  obtain ⟨h', hmade⟩ := mapRun_made h (.of_empty hempty) calls
  obtain ⟨-, -, hrights⟩ := call.exec_rights h' hmade
  have hself : SamePage call.virt call.virt := rfl
  unfold RightsGiven
  rw [hrights call.virt, if_pos ⟨htables, hself⟩, entryPresent_or hpres, if_pos rfl,
    Option.some.injEq, tableRights_meet_or]
  exact and_iff_left fun v hv => by rw [hrights v, if_neg fun hboth => hv hboth.2]

/-- A page that may be written, and after it one below the same tables that may not. -/
theorem vmmMap_rights_iff_example :
    RightsGiven (mapRun exampleVmm [⟨0x400000, 0x5000, 3⟩]) 0x1000
      ⟨0x401000, 0x6000, 2 ^ 63 + 1⟩ := by
  have hempty : ∀ i, childOf exampleVmm.mem 0x1000 i = none := by
    simp [childOf, load, exampleVmm, entryPresent]
  exact (vmmMap_rights_iff exampleVmm_tree hempty [⟨0x400000, 0x5000, 3⟩] rfl
    ⟨0x401000, 0x6000, 2 ^ 63 + 1⟩ (by decide) (by decide +kernel)).mpr (by decide)

/-- A page mapped with `PAGE_USER` is not open to the user. -/
theorem vmmMap_not_user :
    ¬ ∀ s top root, PageTree s top root → (∀ i, childOf s.mem root i = none) →
      ∀ calls call, call.flags.testBit 0 = true →
        (ensureTables (mapRun s calls) call.virt).1 ≠ null →
        RightsGiven (mapRun s calls) root call := by
  intro hall
  have hempty : ∀ i, childOf exampleVmm.mem 0x1000 i = none := by
    simp [childOf, load, exampleVmm, entryPresent]
  obtain ⟨hrights, -⟩ := hall exampleVmm 0xa000 0x1000 exampleVmm_tree hempty []
    ⟨0x400000, 0x5000, 7⟩ (by decide) (by decide +kernel)
  have hkernel : effectiveRights (MapCall.exec ⟨0x400000, 0x5000, 7⟩ (mapRun exampleVmm [])) 0x1000
      0x400000 = some ⟨true, false, false⟩ := by
    decide +kernel
  rw [hkernel] at hrights
  exact absurd hrights (by decide)

end Bethany
