import Bethany.Filesystem.RamfsCopy

/-!
# Complete copies

`ramfs_copy` takes back what it has made when there is no memory for the data of a file, and at no
other point.  It reads the children of directories only, and gives another name to a copy whose
name is in use.

* `Ramfs.WellFormed`: a tree of nodes with names, and files with their data;
* `Ramfs.Copied`: the complete subtree has been copied, and nothing else has changed;
* `Ramfs.ApartFrom`: later writes to one side do not change the other;
* `ramfsCopy_faithful_iff`: when the copy is complete, without failures;
* `ramfsCopy_whole_iff`: when it is complete or nothing has changed, with failures.
-/

namespace Bethany

open Fuel LinkedList Machine Unfolding Relation

variable {s s' : Ramfs} {T T' : OrderedTree NodeId} {n m p c : NodeId} {l : List NodeId}
  {t t' : FsTree} {name : CString}

/-! ### The properties -/

/-- The nodes represent a tree, all have names, and all files their data. -/
structure Ramfs.WellFormed (s : Ramfs) (T : OrderedTree NodeId) : Prop where
  represents : s.Represents T
  backed : s.Backed T
  named : ∀ n ∈ T.nodes, (s.name n).isSome

/-- `c` has become the last child of `p`, with the name `str`, and looks like `n` otherwise.  It
shares no node and no data block with the nodes that were there, which are as they were. -/
structure Ramfs.Copied (s : Ramfs) (T : OrderedTree NodeId) (s' : Ramfs) (T' : OrderedTree NodeId)
    (n p c : NodeId) (str : CString) : Prop extends s.Grows T s' T' p [c] where
  same : ∃ t, Unfolds s.label T.kids t n ∧ Unfolds s'.label T'.kids (renamed t str) c
  new_node : ∀ m, T'.Below c m → m ∉ T.nodes
  new_block : ∀ m, T'.Below c m → ∀ a ∈ T.nodes, ∀ block, s'.data m = some block →
    s'.data a ≠ some block

/-- A sequence of `ramfs_write(node, buffer, size)`. -/
def Ramfs.writes (s : Ramfs) (l : List (NodeId × Mem × ℕ)) : Ramfs :=
  l.foldl (fun s w => (ramfsWrite s (some w.1) w.2.1 w.2.2).2) s

/-- Writes to nodes that are not below `a` change nothing below `a`. -/
def Ramfs.ApartFrom (s : Ramfs) (T : OrderedTree NodeId) (a : NodeId) : Prop :=
  ∀ l : List (NodeId × Mem × ℕ), (∀ w ∈ l, ¬ T.Below a w.1) →
    ∀ m, T.Below a m → (s.writes l).label m = s.label m

/-- `ramfs_copy(node, new_parent)` returns a complete copy, which can be written to without a
change to the original, and the other way round. -/
def Ramfs.CopiesFaithfully (s : Ramfs) (T : OrderedTree NodeId) (n p : NodeId) (name : CString) :
    Prop :=
  ∃ c s' T', Ends (fun fuel => ramfsCopy fuel s (some n) (some p)) (some (some c, s')) ∧
    s.Copied T s' T' n p c name ∧ s'.ApartFrom T' c ∧ s'.ApartFrom T' n

/-- `ramfs_copy(node, new_parent)` returns a complete copy, or returns a null pointer and leaves
all as it was. -/
def Ramfs.CopiesAllOrNothing (s : Ramfs) (T : OrderedTree NodeId) (n p : NodeId)
    (name : CString) : Prop :=
  ∃ r s', Ends (fun fuel => ramfsCopy fuel s (some n) (some p)) (some (r, s')) ∧
    ((∃ c T', r = some c ∧ s.Copied T s' T' n p c name) ∨ r = none ∧ s.Extends T s' T)

/-- The number of calls of `kmalloc` for the copy of a node. -/
def Ramfs.copyAllocs (s : Ramfs) (n : NodeId) : ℕ :=
  if s.type n = .file ∧ s.size n ≠ 0 then 3 else 2

/-! ### Additions -/

theorem Ramfs.Grows.kids_subset (h : s.Grows T s' T' p l) (m : NodeId) : T.kids m ⊆ T'.kids m := by
  by_cases hm : m ∈ T.nodes
  · by_cases hmp : m = p
    · rw [hmp, h.kids_self]
      exact List.subset_append_left _ _
    · rw [h.kids m hm hmp]
      exact List.Subset.refl _
  · rw [T.kids_eq_nil hm]
    exact List.nil_subset _

/-- A node that was there has the parent that it had. -/
theorem Ramfs.Grows.kid_old (h : s.Grows T s' T' p l) (hm : m ∈ T.nodes) (hkid : T'.Kid m c) :
    T.Kid m c := by
  have hroot : m ≠ T.root := fun heq => T'.root_not_mem c (by rw [h.root, ← heq]; exact hkid)
  obtain ⟨q, hq⟩ := T.exists_kid hm hroot
  rwa [T'.disjoint c q m hkid (h.kids_subset q hq)]

/-- The new nodes are the new children and what is below them. -/
theorem Ramfs.Grows.below_new (h : s.Grows T s' T' p l) (hm : m ∈ T'.nodes) (hnew : m ∉ T.nodes) :
    ∃ b ∈ l, T'.Below b m := by
  induction T'.climbs m hm using ReflTransGen.head_induction_on with
  | refl =>
    rw [h.root] at hnew
    exact absurd T.root_mem hnew
  | @head a b hkid _ ih =>
    by_cases hb : b ∈ T.nodes
    · have hold : a ∉ T.kids b := fun ha => hnew (T.kids_mem b a ha).2
      obtain rfl : b = p := by_contra fun hne => hold (h.kids b hb hne ▸ hkid)
      rw [h.kids_self] at hkid
      exact ⟨a, (List.mem_append.mp hkid).resolve_left hold, .refl⟩
    · obtain ⟨x, hx, hbelow⟩ := ih (T'.kids_mem b a hkid).1 hb
      exact ⟨x, hx, .head hkid hbelow⟩

/-- Without new children of `p` there are no new nodes at all. -/
theorem Ramfs.Grows.eq_of_nil (h : s.Grows T s' T' p []) : T' = T := by
  have hnodes : T'.nodes = T.nodes := by
    refine Set.Subset.antisymm (fun m hm => ?_) h.nodes
    by_contra hnew
    obtain ⟨b, hb, -⟩ := h.below_new hm hnew
    exact absurd hb List.not_mem_nil
  refine OrderedTree.ext hnodes h.root (funext fun m => ?_)
  by_cases hm : m ∈ T.nodes
  · by_cases hmp : m = p
    · rw [hmp, h.kids_self, List.append_nil]
    · exact h.kids m hm hmp
  · rw [T.kids_eq_nil hm, T'.kids_eq_nil (hnodes ▸ hm)]

/-- A new child is a new node. -/
theorem Ramfs.Grows.not_mem (h : s.Grows T s' T' p l) (hc : c ∈ l) : c ∉ T.nodes := by
  intro hmem
  have hkid : T'.Kid c p := by
    rw [OrderedTree.Kid, h.kids_self]
    exact List.mem_append_right _ hc
  have hnodup := T'.nodup p
  rw [h.kids_self] at hnodup
  exact List.disjoint_of_nodup_append hnodup (h.kid_old hmem hkid) hc

/-- The nodes below a new node are new. -/
theorem Ramfs.Grows.below_not_mem (h : s.Grows T s' T' p l) (hc : c ∉ T.nodes)
    (hm : T'.Below c m) : m ∉ T.nodes := by
  induction hm using ReflTransGen.head_induction_on with
  | refl => exact hc
  | @head a b hkid _ ih => exact fun ha => ih (T.kids_mem b a (h.kid_old ha hkid)).1

/-! ### Later writes -/

/-- A write to another node. -/
theorem ramfsWrite_label (hne : m ≠ n)
    (hblock : ∀ block, s.data m = some block → block < s.nextBlock) (buffer : Mem) (size : ℕ) :
    (ramfsWrite s (some n) buffer size).2.label m = s.label m ∧
      (ramfsWrite s (some n) buffer size).2.data m = s.data m ∧
      s.nextBlock ≤ (ramfsWrite s (some n) buffer size).2.nextBlock := by
  simp only [ramfsWrite]
  by_cases htype : s.type n ≠ .file
  · rw [if_pos htype]
    exact ⟨rfl, rfl, le_rfl⟩
  · rw [if_neg htype]
    obtain ⟨allocs, -, halloc | ⟨-, halloc⟩⟩ := allocBlock_cases s size
    · rw [halloc]
      simp [Ramfs.label, Ramfs.content, hne]
    · rw [halloc]
      refine ⟨?_, by simp [hne], Nat.le_succ _⟩
      simp only [Ramfs.label, Ramfs.content, Function.update_of_ne hne]
      congr 1
      cases s.type m with
      | directory => rfl
      | file =>
        cases hdata : s.data m with
        | none => rfl
        | some block => simp only [Function.update_of_ne (hblock block hdata).ne]

/-- Writes to other nodes. -/
theorem writes_label {l : List (NodeId × Mem × ℕ)} (hne : ∀ w ∈ l, m ≠ w.1)
    (hblock : ∀ block, s.data m = some block → block < s.nextBlock) :
    (s.writes l).label m = s.label m := by
  induction l generalizing s with
  | nil => rfl
  | cons w l ih =>
    obtain ⟨hlabel, hdata, hle⟩ := ramfsWrite_label (hne w List.mem_cons_self) hblock w.2.1 w.2.2
    have hrest : ((ramfsWrite s (some w.1) w.2.1 w.2.2).2.writes l).label m =
        (ramfsWrite s (some w.1) w.2.1 w.2.2).2.label m := by
      refine ih (fun v hv => hne v (List.mem_cons_of_mem w hv)) fun block hb => ?_
      rw [hdata] at hb
      exact (hblock block hb).trans_le hle
    exact hrest.trans hlabel

theorem Ramfs.Backed.apartFrom (h : s.Backed T) (hn : n ∈ T.nodes) : s.ApartFrom T n := by
  intro l hl m hm
  refine writes_label (fun w hw heq => hl w hw (heq ▸ hm)) ?_
  exact h.allocated m (OrderedTree.below_mem hn hm)

/-! ### What is copied -/

/-- Where files have no children everything is read. -/
theorem unfolds_reads (hfiles : ∀ m, T.Below n m → s.type m = .file → T.kids m = [])
    (ht : Unfolds s.label T.kids t n) : Unfolds s.label (s.reads T.kids) t n := by
  refine ht.congr (fun m _ => rfl) fun m hm => ?_
  cases htype : s.type m with
  | directory => exact Ramfs.reads_directory htype
  | file => rw [Ramfs.reads_file htype, hfiles m hm htype]

theorem all_filesChildless (ht : Unfolds s.label T.kids t n) :
    t.All FilesChildless ↔ ∀ m, T.Below n m → s.type m = .file → T.kids m = [] := by
  rw [ht.all_iff]
  refine forall₂_congr fun m _ => ?_
  simp [FilesChildless, Ramfs.label]

theorem all_kidsDistinct (ht : Unfolds s.label T.kids t n) :
    t.All KidsDistinct ↔ ∀ m, T.Below n m → ((T.kids m).map s.name).Nodup := by
  rw [ht.all_iff]
  refine forall₂_congr fun m _ => ?_
  simp [KidsDistinct, Ramfs.label, Function.comp_def]

theorem Ramfs.WellFormed.all_kidsNamed (h : s.WellFormed T)
    {kids : NodeId → List NodeId} (hsub : ∀ m, kids m ⊆ T.kids m)
    (ht : Unfolds s.label kids t n) : t.All KidsNamed := by
  rw [ht.all_iff]
  intro m _ hmem
  obtain ⟨x, hx, hname⟩ := List.mem_map.mp hmem
  obtain ⟨c, hc, rfl⟩ := List.mem_map.mp hx
  have := h.named c (T.kids_mem m c (hsub m hc)).2
  rw [show s.name c = none from hname] at this
  exact absurd this (by simp)

theorem Ramfs.WellFormed.names_some (h : s.WellFormed T) (p : NodeId) :
    none ∉ (T.kids p).map s.name := by
  intro hmem
  obtain ⟨c, hc, hname⟩ := List.mem_map.mp hmem
  have := h.named c (T.kids_mem p c hc).2
  rw [hname] at this
  exact absurd this (by simp)

theorem all_proper (ht : Unfolds s.label T.kids t n) (hfiles : t.All FilesChildless) :
    t.All Proper := by
  rw [ht.all_iff] at hfiles ⊢
  exact fun m hm => ⟨hfiles m hm, fun hdir => Ramfs.content_directory hdir⟩

theorem Ramfs.WellFormed.sum_allocs (h : s.WellFormed T) (hn : n ∈ T.nodes)
    (ht : Unfolds s.label T.kids t n) :
    t.sum FsLabel.allocs = ∑ᶠ m ∈ {m | T.Below n m}, s.copyAllocs m := by
  rw [ht.sum_eq h.represents.finite_nodes hn fun p => List.Sublist.refl _]
  refine finsum_mem_congr rfl fun m hm => ?_
  have hcontent : s.type m = .file → (s.content m ≠ [] ↔ s.size m ≠ 0) := fun htype =>
    (h.backed.content_eq_nil (OrderedTree.below_mem hn hm) htype).not
  simp only [FsLabel.allocs, Ramfs.copyAllocs, Ramfs.label, and_congr_right hcontent]

/-! ### Complete copies -/

section whole

variable (h : s.WellFormed T) (hn : n ∈ T.nodes) (hp : p ∈ T.nodes) (hout : ¬ T.Below n p)
  (hname : s.name n = some name)
include h hn hp hout hname

omit hn hout in
/-- Into a node that is no directory nothing is copied. -/
theorem ramfsCopy_file (hfile : s.type p ≠ .directory) :
    Ends (fun fuel => ramfsCopy fuel s (some n) (some p)) (some (none, s)) := by
  rw [← ends_succ]
  refine (ends_const _).congr fun fuel => ?_
  have hnamed : ∀ a ∈ T.kids p, (s.name a).isSome := fun a ha => h.named a (T.kids_mem p a ha).2
  rw [ramfsCopy_succ h.represents hp fuel hname (findIn_eq_find? hnamed)]
  simp [ramfsCreate, hfile]

/-- The copy of what is read, into a directory. -/
theorem ramfsCopy_ends (hdir : s.type p = .directory) :
    ∃ t, Unfolds s.label (s.reads T.kids) t n ∧ t.label.name = some name ∧
      s.CopyEnds T p (nodeCount t) (fun fuel => ramfsCopy fuel s (some n) (some p))
        (copyTree s.fails t ((T.kids p).map s.name) s.allocs) := by
  have hsub := s.reads_sublist T.kids
  obtain ⟨t, ht⟩ := exists_unfolds h.represents.finite_nodes (fun p => (hsub p).subset) s.label hn
  refine ⟨t, ht, ?_, ?_⟩
  · rw [ht.label_eq]
    exact hname
  · exact ramfsCopy_copies t h.represents h.backed hn hp hdir ht fun hreach =>
      hout (hreach.mono fun p => (hsub p).subset)

/-- Where files have no children and names are different, without failures, the copy is complete. -/
theorem ramfsCopy_complete (hdir : s.type p = .directory)
    (hfree : some (chosenName ((T.kids p).map s.name) name) ∉ (T.kids p).map s.name)
    (hfails : ∀ i < ∑ᶠ m ∈ {m | T.Below n m}, s.copyAllocs m, s.fails (s.allocs + i) = false)
    (hdistinct : ∀ m, T.Below n m → ((T.kids m).map s.name).Nodup)
    (hfiles : ∀ m, T.Below n m → s.type m = .file → T.kids m = []) :
    ∃ c s' T', Ends (fun fuel => ramfsCopy fuel s (some n) (some p)) (some (some c, s')) ∧
      s.Copied T s' T' n p c (chosenName ((T.kids p).map s.name) name) := by
  obtain ⟨t, ht⟩ :=
    exists_unfolds h.represents.finite_nodes (fun p => List.Subset.refl _) s.label hn
  obtain ⟨t', ht', htop, hends⟩ := ramfsCopy_ends h hn hp hout hname hdir
  obtain rfl := (unfolds_reads hfiles ht).unique ht'
  have hchildless := (all_filesChildless ht).mpr hfiles
  rw [← h.sum_allocs hn ht] at hfails
  rw [copyTree_eq (all_proper ht hchildless) (h.all_kidsNamed (fun _ => List.Subset.refl _) ht)
    ((all_kidsDistinct ht).mpr hdistinct) htop (h.names_some p) hfree hfails] at hends
  obtain ⟨c, s', T', hends, hgrows, hrel, -, -⟩ := hends
  cases hrel with
  | @some _ c hu =>
    have hnot := hgrows.not_mem (List.mem_singleton_self c)
    refine ⟨c, s', T', hends, { hgrows with same := ⟨t, ht, hu⟩, new_node := ?_, new_block := ?_ }⟩
    · exact fun m hm => hgrows.below_not_mem hnot hm
    · intro m hm a ha block hblock hshared
      have hmT := OrderedTree.below_mem (T'.kids_mem p c (by
        rw [hgrows.kids_self]
        simp)).2 hm
      have hle := hgrows.fresh_data m hmT (hgrows.below_not_mem hnot hm) block hblock
      rw [hgrows.data a ha] at hshared
      exact absurd (h.backed.allocated a ha block hshared) hle.not_gt

/-- A complete copy needs all this. -/
theorem ramfsCopy_complete_only {s' : Ramfs} {T' : OrderedTree NodeId} {str : CString}
    (hdir : s.type p = .directory)
    (hends : Ends (fun fuel => ramfsCopy fuel s (some n) (some p)) (some (some c, s')))
    (hcopied : s.Copied T s' T' n p c str) :
    (∀ i < ∑ᶠ m ∈ {m | T.Below n m}, s.copyAllocs m, s.fails (s.allocs + i) = false) ∧
      (∀ m, T.Below n m → ((T.kids m).map s.name).Nodup) ∧
      ∀ m, T.Below n m → s.type m = .file → T.kids m = [] := by
  obtain ⟨t, ht, hu⟩ := hcopied.same
  obtain ⟨t₀, ht₀, htop, hcopy⟩ := ramfsCopy_ends h hn hp hout hname hdir
  cases hresult : copyTree s.fails t₀ ((T.kids p).map s.name) s.allocs with
  | none =>
    rw [hresult] at hcopy
    exact absurd (hends.unique hcopy) (by simp)
  | some r =>
    obtain ⟨copy, k⟩ := r
    rw [hresult] at hcopy
    obtain ⟨c', s'', T'', hends', hgrows, hrel, -, -⟩ := hcopy
    obtain ⟨rfl, rfl⟩ : c' = some c ∧ s'' = s' := by simpa using hends'.unique hends
    obtain rfl := hgrows.represents.unique hcopied.represents
    cases hrel with
    | some hu' =>
      obtain rfl := hu'.unique hu
      -- a copy has no files with children, so the original has none
      have hchildless : t.All FilesChildless := by
        obtain ⟨label, ts⟩ := t
        have hcopy : LabelTree.All FilesChildless (.node { label with name := some str } ts) :=
          copyTree_filesChildless hresult
        obtain ⟨hlabel, hkids⟩ := LabelTree.all_node.mp hcopy
        exact LabelTree.all_node.mpr ⟨hlabel, hkids⟩
      have hfiles := (all_filesChildless ht).mp hchildless
      obtain rfl := ht₀.unique (unfolds_reads hfiles ht)
      obtain ⟨hfails, hdistinct, -⟩ := copyTree_complete (h.names_some p) hresult
      rw [h.sum_allocs hn ht] at hfails
      exact ⟨hfails, (all_kidsDistinct ht).mp hdistinct, hfiles⟩

/-- **When a copy is faithful.**  With enough memory, different names in the subtree, and a free
name in the directory `p` outside of the subtree, the copy is complete and apart from the original
exactly when no file in the subtree has children. -/
theorem ramfsCopy_faithful_iff (hdir : s.type p = .directory)
    (hdistinct : ∀ m, T.Below n m → ((T.kids m).map s.name).Nodup)
    (hfails : ∀ i, s.fails (s.allocs + i) = false)
    (hfree : some (chosenName ((T.kids p).map s.name) name) ∉ (T.kids p).map s.name) :
    s.CopiesFaithfully T n p (chosenName ((T.kids p).map s.name) name) ↔
      ∀ m, T.Below n m → s.type m = .file → T.kids m = [] := by
  constructor
  · rintro ⟨c, s', T', hends, hcopied, -, -⟩
    exact (ramfsCopy_complete_only h hn hp hout hname hdir hends hcopied).2.2
  · intro hfiles
    obtain ⟨c, s', T', hends, hcopied⟩ := ramfsCopy_complete h hn hp hout hname hdir hfree
      (fun i _ => hfails i) hdistinct hfiles
    have hc : c ∈ T'.nodes := (T'.kids_mem p c (by
      rw [hcopied.kids_self]
      simp)).2
    exact ⟨c, s', T', hends, hcopied, hcopied.backed.apartFrom hc,
      hcopied.backed.apartFrom (hcopied.nodes hn)⟩

/-- The copy is refused, or fails where `ramfs_copy` takes back what it has made, or nothing at all
fails and the subtree is one that can be copied. -/
def Ramfs.CopyOk (s : Ramfs) (T : OrderedTree NodeId) (n p : NodeId) (name : CString) : Prop :=
  s.type p ≠ .directory ∨
  some (chosenName ((T.kids p).map s.name) name) ∈ (T.kids p).map s.name ∨
  s.fails s.allocs = true ∨
  (s.type n = .file ∧ s.size n ≠ 0 ∧ s.fails (s.allocs + 2) = true) ∨
  (∀ i < ∑ᶠ m ∈ {m | T.Below n m}, s.copyAllocs m, s.fails (s.allocs + i) = false) ∧
    (∀ m, T.Below n m → ((T.kids m).map s.name).Nodup) ∧
    ∀ m, T.Below n m → s.type m = .file → T.kids m = []

/-- The calls that return a null pointer. -/
theorem ramfsCopy_null (hdir : s.type p = .directory)
    (hnull : some (chosenName ((T.kids p).map s.name) name) ∈ (T.kids p).map s.name ∨
      s.fails s.allocs = true ∨
      (s.type n = .file ∧ s.size n ≠ 0 ∧ s.fails (s.allocs + 2) = true)) :
    ∃ s', Ends (fun fuel => ramfsCopy fuel s (some n) (some p)) (some (none, s')) ∧
      s.Extends T s' T := by
  obtain ⟨⟨label, ts⟩, ht, -, hends⟩ := ramfsCopy_ends h hn hp hout hname hdir
  obtain ⟨rfl, -⟩ := unfolds_node.mp ht
  have hcopy : ∃ k, copyTree s.fails (.node (s.label n) ts) ((T.kids p).map s.name) s.allocs =
      some (none, k) := by
    have htop : (s.label n).name = some name := hname
    rw [copyTree_node (h.names_some p) htop]
    by_cases htaken : some (chosenName ((T.kids p).map s.name) name) ∈ (T.kids p).map s.name
    · exact ⟨_, if_pos htaken⟩
    · rw [if_neg htaken]
      by_cases hfail : s.fails s.allocs = true
      · exact ⟨_, if_pos hfail⟩
      · obtain ⟨htype, hsize, hthird⟩ := (hnull.resolve_left htaken).resolve_left hfail
        have hcontent : s.content n ≠ [] := (h.backed.content_eq_nil hn htype).not.mpr hsize
        simp [hfail, Ramfs.label, htype, hcontent, hthird]
  obtain ⟨k, hcopy⟩ := hcopy
  rw [hcopy] at hends
  obtain ⟨c, s', T', hends, hgrows, hrel, -, -⟩ := hends
  cases hrel with
  | none =>
    obtain rfl := hgrows.eq_of_nil
    exact ⟨s', hends, hgrows.toExtends⟩

/-- The calls that return a node. -/
theorem ramfsCopy_node (hdir : s.type p = .directory)
    (hnull : ¬ (some (chosenName ((T.kids p).map s.name) name) ∈ (T.kids p).map s.name ∨
      s.fails s.allocs = true ∨
      (s.type n = .file ∧ s.size n ≠ 0 ∧ s.fails (s.allocs + 2) = true))) {s' : Ramfs} :
    ¬ Ends (fun fuel => ramfsCopy fuel s (some n) (some p)) (some (none, s')) := by
  intro hends'
  obtain ⟨⟨label, ts⟩, ht, -, hends⟩ := ramfsCopy_ends h hn hp hout hname hdir
  obtain ⟨rfl, -⟩ := unfolds_node.mp ht
  simp only [not_or, not_and] at hnull
  obtain ⟨htaken, hfail, hthird⟩ := hnull
  have hcopy : ∀ k, copyTree s.fails (.node (s.label n) ts) ((T.kids p).map s.name) s.allocs ≠
      some (none, k) := by
    intro k
    have htop : (s.label n).name = some name := hname
    rw [copyTree_node (h.names_some p) htop, if_neg htaken, if_neg hfail]
    cases htype : s.type n with
    | directory => simp [Ramfs.label, htype]
    | file =>
      have hcontent := h.backed.content_eq_nil hn htype
      by_cases hsize : s.size n = 0
      · simp [Ramfs.label, htype, hcontent, hsize]
      · simp [Ramfs.label, htype, hcontent, hsize, hthird htype hsize]
  cases hresult : copyTree s.fails (.node (s.label n) ts) ((T.kids p).map s.name) s.allocs with
  | none =>
    rw [hresult] at hends
    exact absurd (hends.unique hends') (by simp)
  | some r =>
    obtain ⟨copy, k⟩ := r
    rw [hresult] at hends
    obtain ⟨c, s'', T'', hends, -, hrel, -, -⟩ := hends
    obtain ⟨rfl, -⟩ : c = none ∧ s'' = s' := by simpa using hends.unique hends'
    cases hrel
    exact hcopy k hresult

/-- **When a copy is all or nothing.**  Exactly when the call is refused, or fails at a point where
nothing else has been made, or nothing fails and the subtree can be copied. -/
theorem ramfsCopy_whole_iff :
    s.CopiesAllOrNothing T n p (chosenName ((T.kids p).map s.name) name) ↔
      s.CopyOk T n p name := by
  by_cases hdir : s.type p = .directory
  · by_cases hnull : some (chosenName ((T.kids p).map s.name) name) ∈ (T.kids p).map s.name ∨
        s.fails s.allocs = true ∨
        (s.type n = .file ∧ s.size n ≠ 0 ∧ s.fails (s.allocs + 2) = true)
    · obtain ⟨s', hends, hextends⟩ := ramfsCopy_null h hn hp hout hname hdir hnull
      refine iff_of_true ⟨none, s', hends, .inr ⟨rfl, hextends⟩⟩ ?_
      unfold Ramfs.CopyOk
      tauto
    · constructor
      · rintro ⟨r, s', hends, ⟨c, T', rfl, hcopied⟩ | ⟨rfl, -⟩⟩
        · have hall := ramfsCopy_complete_only h hn hp hout hname hdir hends hcopied
          exact .inr (.inr (.inr (.inr hall)))
        · exact absurd hends (ramfsCopy_node h hn hp hout hname hdir hnull)
      · intro hok
        unfold Ramfs.CopyOk at hok
        obtain ⟨hfails, hdistinct, hfiles⟩ :
            (∀ i < ∑ᶠ m ∈ {m | T.Below n m}, s.copyAllocs m, s.fails (s.allocs + i) = false) ∧
              (∀ m, T.Below n m → ((T.kids m).map s.name).Nodup) ∧
              ∀ m, T.Below n m → s.type m = .file → T.kids m = [] := by
          tauto
        obtain ⟨c, s', T', hends, hcopied⟩ := ramfsCopy_complete h hn hp hout hname hdir
          (not_or.mp hnull).1 hfails hdistinct hfiles
        exact ⟨some c, s', hends, .inl ⟨c, T', rfl, hcopied⟩⟩
  · refine iff_of_true ⟨none, s, ramfsCopy_file h hp hname hdir, .inr ⟨rfl, ?_⟩⟩ (.inl hdir)
    exact (h.represents.grows_self h.backed s.allocs p).toExtends

end whole

/-! ### Examples -/

/-- Nodes 1 and 3 are in the root, node 2 is in node 1; all have names, none has data. -/
structure Ramfs.OneInside (s : Ramfs) (T : OrderedTree NodeId) : Prop where
  represents : s.Represents T
  nextNode : s.nextNode = 4
  live : ∀ n < 4, s.Live n
  unwritten : ∀ n < 4, s.data n = none ∧ s.size n = 0 ∧ (s.name n).isSome
  kids_zero : T.kids 0 = [1, 3]
  kids_one : T.kids 1 = [2]
  kids_two : T.kids 2 = []
  kids_three : T.kids 3 = []
  names : s.name 1 ≠ s.name 3
  root : T.root = 0

namespace Ramfs.OneInside

theorem of_links (h : s.Represents T) (hnext : s.nextNode = 4) (hlive : ∀ n < 4, s.Live n)
    (hdata : ∀ n < 4, s.data n = none ∧ s.size n = 0 ∧ (s.name n).isSome)
    (hroot : s.root = some 0)
    (hchildren : s.children 0 = some 1 ∧ s.children 1 = some 2 ∧ s.children 2 = none ∧
      s.children 3 = none)
    (hlinks : s.next 1 = some 3 ∧ s.next 2 = none ∧ s.next 3 = none)
    (hnames : s.name 1 ≠ s.name 3) : s.OneInside T where
  represents := h
  nextNode := hnext
  live := hlive
  unwritten := hdata
  kids_zero := h.kids_eq (hlive 0 (by decide)) ⟨hchildren.1, hlinks.1, hlinks.2.2⟩
  kids_one := h.kids_eq (hlive 1 (by decide)) ⟨hchildren.2.1, hlinks.2.1⟩
  kids_two := h.kids_eq (hlive 2 (by decide)) hchildren.2.2.1
  kids_three := h.kids_eq (hlive 3 (by decide)) hchildren.2.2.2
  names := hnames
  root := Option.some.inj (h.root.symm.trans hroot)

theorem mem (h : s.OneInside T) (hn : n < 4) : n ∈ T.nodes := (h.represents.live n).mp (h.live n hn)

theorem lt (h : s.OneInside T) (hn : n ∈ T.nodes) : n < 4 :=
  h.nextNode ▸ h.represents.wired.lt_nextNode hn

theorem wellFormed (h : s.OneInside T) : s.WellFormed T := by
  refine ⟨h.represents, ⟨fun n hn block hblock => ?_, fun n hn _ hsize => ?_⟩, fun n hn => ?_⟩
  · rw [(h.unwritten n (h.lt hn)).1] at hblock
    simp at hblock
  · exact absurd (h.unwritten n (h.lt hn)).2.1 hsize
  · exact (h.unwritten n (h.lt hn)).2.2

theorem distinct (h : s.OneInside T) (m : NodeId) : ((T.kids m).map s.name).Nodup := by
  by_cases hm : m ∈ T.nodes
  · have hlt := h.lt hm
    interval_cases m
    · simpa [h.kids_zero] using h.names
    · simp [h.kids_one]
    · simp [h.kids_two]
    · simp [h.kids_three]
  · simp [T.kids_eq_nil hm]

theorem not_below (h : s.OneInside T) : ¬ T.Below 1 3 := by
  have hkid : T.Kid 3 0 := by simp [OrderedTree.Kid, h.kids_zero]
  rw [OrderedTree.below_kid_iff hkid (by decide)]
  intro hbelow
  rw [← h.root] at hbelow
  exact absurd (OrderedTree.below_root hbelow) (by simp [h.root])

end Ramfs.OneInside

theorem oneNested_oneInside (h : oneNested.Represents T) : oneNested.OneInside T :=
  .of_links h (by decide) (by decide) (by decide) (by decide) (by decide) (by decide) (by decide)

theorem oneNested_files (h : oneNested.OneInside T) (m : NodeId) (hm : T.Below 1 m)
    (hfile : oneNested.type m = .file) : T.kids m = [] := by
  have hdir : ∀ m < 4, oneNested.type m = .directory := by decide
  rw [hdir m (h.lt (OrderedTree.below_mem (h.mem (by decide)) hm))] at hfile
  exact absurd hfile (by decide)

theorem ramfsCopy_faithful_iff_example : ∃ T, oneNested.Represents T ∧
    oneNested.CopiesFaithfully T 1 3 (letter 0) := by
  obtain ⟨T, hT⟩ := oneNested_represents
  have h := oneNested_oneInside hT
  have hname : oneNested.name 1 = some (letter 0) := by decide
  have hiff := ramfsCopy_faithful_iff h.wellFormed (h.mem (by decide)) (h.mem (by decide))
    h.not_below hname (by decide) (fun m _ => h.distinct m) (fun _ => rfl) (by simp [h.kids_three])
  rw [h.kids_three, List.map_nil, chosenName_of_not_mem (List.not_mem_nil)] at hiff
  exact ⟨T, hT, hiff.mpr (oneNested_files h)⟩

theorem ramfsCopy_whole_iff_example : ∃ T, oneNested.Represents T ∧
    oneNested.CopiesAllOrNothing T 1 3 (letter 0) := by
  obtain ⟨T, hT⟩ := oneNested_represents
  have h := oneNested_oneInside hT
  have hname : oneNested.name 1 = some (letter 0) := by decide
  have hiff := ramfsCopy_whole_iff h.wellFormed (h.mem (by decide)) (h.mem (by decide))
    h.not_below hname
  rw [h.kids_three, List.map_nil, chosenName_of_not_mem (List.not_mem_nil)] at hiff
  refine ⟨T, hT, hiff.mpr (.inr (.inr (.inr (.inr ⟨fun _ _ => rfl, ?_, ?_⟩))))⟩
  · exact fun m _ => h.distinct m
  · exact oneNested_files h

/-- Node 1 is the file `f` in the root, node 2 the file `g`, and node 3 the directory `d`. -/
def twoFiles : Ramfs :=
  ((ramfsInit (Ramfs.blank fun _ => false)).run
    [.create (some 0) (letter 5) .file, .create (some 0) (letter 6) .file,
      .mkdir (some 0) (letter 3)]).get (by decide)

/-- Then `ramfs_move(g, f)`. -/
def fileInFile : Ramfs := ((FsCall.move (some 2) (some 1)).exec 0 twoFiles).get (by decide)

theorem fileInFile_represents : ∃ T, fileInFile.Represents T := by
  obtain ⟨T₀, h₀⟩ : ∃ T, (ramfsInit (Ramfs.blank fun _ => false)).Represents T :=
    ramfsInit_spec rfl
  obtain ⟨T, h⟩ : ∃ T, twoFiles.Represents T := by
    refine h₀.run (Ramfs.reflTransGen_of_run ?_ (Option.some_get _).symm)
    simp [FsCall.Outside]
  have hout : ¬ twoFiles.Descends 2 1 :=
    Ramfs.not_descends_of_top (show twoFiles.parent 1 = some 0 by decide) (by decide) (by decide)
      (by decide)
  have hexec : (FsCall.move (some 2) (some 1)).exec 0 twoFiles = some fileInFile :=
    (Option.some_get _).symm
  refine h.exec (by decide) ?_ hexec
  exact .inr (.inr (.inr hout))

/-- The copy of a file drops what has been moved into the file. -/
theorem ramfsCopy_drops : ¬ ∀ (s : Ramfs) (T : OrderedTree NodeId) (n p : NodeId) (name : CString),
    s.WellFormed T → n ∈ T.nodes → p ∈ T.nodes → ¬ T.Below n p → s.name n = some name →
      s.type p = .directory → (∀ m, ((T.kids m).map s.name).Nodup) → (∀ i, s.fails i = false) →
      some (chosenName ((T.kids p).map s.name) name) ∉ (T.kids p).map s.name →
      s.CopiesFaithfully T n p (chosenName ((T.kids p).map s.name) name) := by
  intro hall
  obtain ⟨T, hT⟩ := fileInFile_represents
  have h : fileInFile.OneInside T :=
    .of_links hT (by decide) (by decide) (by decide) (by decide) (by decide) (by decide) (by decide)
  have hname : fileInFile.name 1 = some (letter 5) := by decide
  obtain ⟨c, s', T', hends, hcopied, -⟩ := hall fileInFile T 1 3 _ h.wellFormed (h.mem (by decide))
    (h.mem (by decide)) h.not_below hname (by decide) h.distinct (fun _ => rfl)
    (by simp [h.kids_three])
  have hfiles := (ramfsCopy_complete_only h.wellFormed (h.mem (by decide)) (h.mem (by decide))
    h.not_below hname (by decide) hends hcopied).2.2
  have hempty := hfiles 1 .refl (by decide)
  rw [h.kids_one] at hempty
  exact absurd hempty (by decide)

/-- As `oneNested`, but the eleventh call of `kmalloc` fails. -/
def failsLater : Ramfs :=
  ((ramfsInit (Ramfs.blank fun i => i == 10)).run
    [.mkdir (some 0) (letter 0), .mkdir (some 1) (letter 1),
      .mkdir (some 0) (letter 2)]).get (by decide)

theorem failsLater_represents : ∃ T, failsLater.Represents T := by
  obtain ⟨T₀, h₀⟩ : ∃ T, (ramfsInit (Ramfs.blank fun i => i == 10)).Represents T :=
    ramfsInit_spec rfl
  refine h₀.run (Ramfs.reflTransGen_of_run ?_ (Option.some_get _).symm)
  simp [FsCall.Outside]

/-- A copy that fails at a child is returned without it. -/
theorem ramfsCopy_incomplete :
    ¬ ∀ (s : Ramfs) (T : OrderedTree NodeId) (n p : NodeId) (name : CString),
      s.WellFormed T → n ∈ T.nodes → p ∈ T.nodes → ¬ T.Below n p → s.name n = some name →
        s.CopiesAllOrNothing T n p (chosenName ((T.kids p).map s.name) name) := by
  intro hall
  obtain ⟨T, hT⟩ := failsLater_represents
  have h : failsLater.OneInside T :=
    .of_links hT (by decide) (by decide) (by decide) (by decide) (by decide) (by decide) (by decide)
  have hname : failsLater.name 1 = some (letter 0) := by decide
  have hn : 1 ∈ T.nodes := h.mem (by decide)
  have hp : 3 ∈ T.nodes := h.mem (by decide)
  obtain ⟨r, s', hends, ⟨c, T', rfl, hcopied⟩ | ⟨rfl, -⟩⟩ :=
    hall failsLater T 1 3 _ h.wellFormed hn hp h.not_below hname
  · -- the subtree has two directories, so there are four calls
    have hview : Unfolds failsLater.label T.kids
        (.node (failsLater.label 1) [.node (failsLater.label 2) []]) 1 := by
      refine unfolds_node.mpr ⟨rfl, ?_⟩
      rw [h.kids_one]
      refine .cons (unfolds_node.mpr ⟨rfl, ?_⟩) .nil
      rw [h.kids_two]
      exact .nil
    have hsum := h.wellFormed.sum_allocs hn hview
    have hfirst : (failsLater.label 1).allocs = 2 := allocs_directory (by decide)
    have hsecond : (failsLater.label 2).allocs = 2 := allocs_directory (by decide)
    simp only [LabelTree.sum, LabelTree.sums, hfirst, hsecond] at hsum
    have hfails := (ramfsCopy_complete_only h.wellFormed hn hp h.not_below hname (by decide) hends
      hcopied).1 2 (by rw [← hsum]; decide)
    exact absurd hfails (by decide)
  · refine ramfsCopy_node h.wellFormed hn hp h.not_below hname (by decide) ?_ hends
    simp only [h.kids_three, List.map_nil, List.not_mem_nil, false_or, not_or, not_and]
    exact ⟨by decide, fun htype => absurd htype (by decide)⟩

end Bethany
