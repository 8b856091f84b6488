import Bethany.Filesystem.FsTree
import Bethany.Filesystem.RamfsDelete

/-!
# Copying a subtree

`ramfs_copy` reads one subtree while it adds to another.  As long as the directory that it adds to
is not among the directories that it reads, it copies what one sees from the node.

* `Ramfs.label`, `Ramfs.reads`: what one sees of a node, and the children that are read;
* `Ramfs.Backed`: every file has the data block that its size asks for;
* `Ramfs.Extends`, `Ramfs.Grows`: the nodes and blocks that were there are as they were, and one
  directory has new children;
* `Ramfs.Represents.grow`: `ramfs_create`;
* `ramfsCopy_copies`: `ramfs_copy` ends as `copyTree` does.
-/

namespace Bethany

open Fuel LinkedList Machine Unfolding

/-! ### What one sees -/

/-- The bytes of a file. -/
def Ramfs.content (s : Ramfs) (n : NodeId) : List Byte :=
  match s.type n, s.data n with
  | .file, some block => (List.range (s.size n)).map (s.bytes block)
  | _, _ => []

/-- What one sees of a node. -/
def Ramfs.label (s : Ramfs) (n : NodeId) : FsLabel := ⟨s.name n, s.type n, s.content n⟩

/-- The children that `ramfs_copy` reads: those of directories. -/
def Ramfs.reads (s : Ramfs) (kids : NodeId → List NodeId) (p : NodeId) : List NodeId :=
  if s.type p = .directory then kids p else []

/-- All data blocks have been allocated, and a file with a size has one of at least this size. -/
structure Ramfs.Backed (s : Ramfs) (T : OrderedTree NodeId) : Prop where
  allocated : ∀ n ∈ T.nodes, ∀ block, s.data n = some block → block < s.nextBlock
  stored : ∀ n ∈ T.nodes, s.type n = .file → s.size n ≠ 0 →
    ∃ block, s.data n = some block ∧ s.size n ≤ s.length block

variable {s s' s'' : Ramfs} {T T' T'' : OrderedTree NodeId} {n m p c a : NodeId}
  {l l' ns : List NodeId} {t : FsTree} {ts copies : List FsTree} {str : CString}
  {type : FsNodeType}

theorem Ramfs.content_directory (h : s.type n = .directory) : s.content n = [] := by
  simp [content, h]

theorem Ramfs.Backed.content_eq_nil (h : s.Backed T) (hn : n ∈ T.nodes) (htype : s.type n = .file) :
    s.content n = [] ↔ s.size n = 0 := by
  by_cases hzero : s.size n = 0
  · cases hdata : s.data n <;> simp [content, htype, hzero, hdata]
  · obtain ⟨block, hblock, -⟩ := h.stored n hn htype hzero
    simp [content, htype, hzero, hblock]

theorem Ramfs.reads_directory {kids : NodeId → List NodeId} (h : s.type n = .directory) :
    s.reads kids n = kids n := if_pos h

theorem Ramfs.reads_file {kids : NodeId → List NodeId} (h : s.type n = .file) :
    s.reads kids n = [] := by
  simp [reads, h]

theorem Ramfs.mem_reads {kids : NodeId → List NodeId} :
    m ∈ s.reads kids p ↔ s.type p = .directory ∧ m ∈ kids p := by
  unfold reads
  split_ifs with hdir
  · simp [hdir]
  · simp [hdir]

theorem Ramfs.reads_sublist (s : Ramfs) (kids : NodeId → List NodeId) (p : NodeId) :
    (s.reads kids p).Sublist (kids p) := by
  unfold reads
  split_ifs
  · exact List.Sublist.refl _
  · exact List.nil_sublist _

/-! ### What is added -/

/-- The nodes of `T` and their data are as they were; the other nodes and their data are new. -/
structure Ramfs.Extends (s : Ramfs) (T : OrderedTree NodeId) (s' : Ramfs)
    (T' : OrderedTree NodeId) : Prop where
  represents : s'.Represents T'
  backed : s'.Backed T'
  root : T'.root = T.root
  nodes : T.nodes ⊆ T'.nodes
  fresh : ∀ m ∈ T'.nodes, m ∉ T.nodes → s.nextNode ≤ m
  fresh_data : ∀ m ∈ T'.nodes, m ∉ T.nodes → ∀ block, s'.data m = some block → s.nextBlock ≤ block
  name : ∀ m ∈ T.nodes, s'.name m = s.name m
  type : ∀ m ∈ T.nodes, s'.type m = s.type m
  size : ∀ m ∈ T.nodes, s'.size m = s.size m
  data : ∀ m ∈ T.nodes, s'.data m = s.data m
  bytes : ∀ block < s.nextBlock, s'.bytes block = s.bytes block
  nextNode : s.nextNode ≤ s'.nextNode
  nextBlock : s.nextBlock ≤ s'.nextBlock
  fails : s'.fails = s.fails

/-- Besides, `p` has the new children `l`, and no other node of `T` has any. -/
structure Ramfs.Grows (s : Ramfs) (T : OrderedTree NodeId) (s' : Ramfs) (T' : OrderedTree NodeId)
    (p : NodeId) (l : List NodeId) : Prop extends s.Extends T s' T' where
  kids : ∀ m ∈ T.nodes, m ≠ p → T'.kids m = T.kids m
  kids_self : T'.kids p = T.kids p ++ l

theorem Ramfs.Extends.trans (h : s.Extends T s' T') (h' : s'.Extends T' s'' T'') :
    s.Extends T s'' T'' where
  represents := h'.represents
  backed := h'.backed
  root := h'.root.trans h.root
  nodes := h.nodes.trans h'.nodes
  fresh m hm hnew := by
    by_cases hm' : m ∈ T'.nodes
    · exact h.fresh m hm' hnew
    · exact h.nextNode.trans (h'.fresh m hm hm')
  fresh_data m hm hnew block hblock := by
    by_cases hm' : m ∈ T'.nodes
    · rw [h'.data m hm'] at hblock
      exact h.fresh_data m hm' hnew block hblock
    · exact h.nextBlock.trans (h'.fresh_data m hm hm' block hblock)
  name m hm := (h'.name m (h.nodes hm)).trans (h.name m hm)
  type m hm := (h'.type m (h.nodes hm)).trans (h.type m hm)
  size m hm := (h'.size m (h.nodes hm)).trans (h.size m hm)
  data m hm := (h'.data m (h.nodes hm)).trans (h.data m hm)
  bytes block hlt := (h'.bytes block (hlt.trans_le h.nextBlock)).trans (h.bytes block hlt)
  nextNode := h.nextNode.trans h'.nextNode
  nextBlock := h.nextBlock.trans h'.nextBlock
  fails := h'.fails.trans h.fails

theorem Ramfs.Extends.content_eq (h : s.Extends T s' T') (hbacked : s.Backed T) (hm : m ∈ T.nodes) :
    s'.content m = s.content m := by
  simp only [content, h.type m hm, h.size m hm, h.data m hm]
  cases s.type m with
  | directory => rfl
  | file =>
    cases hdata : s.data m with
    | none => rfl
    | some block => simp only [h.bytes block (hbacked.allocated m hm block hdata)]

theorem Ramfs.Extends.label_eq (h : s.Extends T s' T') (hbacked : s.Backed T) (hm : m ∈ T.nodes) :
    s'.label m = s.label m := by
  rw [label, label, h.name m hm, h.type m hm, h.content_eq hbacked hm]

namespace Ramfs.Grows

/-- Two additions to one directory. -/
theorem trans (h : s.Grows T s' T' p l) (h' : s'.Grows T' s'' T'' p l') :
    s.Grows T s'' T'' p (l ++ l') where
  toExtends := h.toExtends.trans h'.toExtends
  kids m hm hne := (h'.kids m (h.nodes hm) hne).trans (h.kids m hm hne)
  kids_self := by rw [h'.kids_self, h.kids_self, List.append_assoc]

/-- An addition below a node that is itself new. -/
theorem into (h : s.Grows T s' T' p l) (h' : s'.Grows T' s'' T'' c l') (hp : p ∈ T.nodes)
    (hc : c ∉ T.nodes) : s.Grows T s'' T'' p l where
  toExtends := h.toExtends.trans h'.toExtends
  kids m hm hne := (h'.kids m (h.nodes hm) fun heq => hc (heq ▸ hm)).trans (h.kids m hm hne)
  kids_self := (h'.kids p (h.nodes hp) fun heq => hc (heq ▸ hp)).trans h.kids_self

/-- What one sees from a node above which nothing has been added. -/
theorem unfolds (h : s.Grows T s' T' p l) (hbacked : s.Backed T) (ha : a ∈ T.nodes)
    (hout : ¬ T.Below a p) (ht : Unfolds s.label T.kids t a) : Unfolds s'.label T'.kids t a := by
  have hmem : ∀ m, Reaches T.kids a m → m ∈ T.nodes := fun m hm => OrderedTree.below_mem ha hm
  refine ht.congr (fun m hm => h.label_eq hbacked (hmem m hm)) fun m hm => ?_
  refine h.kids m (hmem m hm) ?_
  rintro rfl
  exact hout hm

theorem reads_eq (h : s.Grows T s' T' p l) (hm : m ∈ T.nodes) (hne : m ≠ p) :
    s'.reads T'.kids m = s.reads T.kids m := by
  rw [reads, reads, h.type m hm, h.kids m hm hne]

theorem reads_mem (ha : a ∈ T.nodes) (h : Reaches (s.reads T.kids) a m) : m ∈ T.nodes :=
  OrderedTree.below_mem ha (h.mono fun p => (s.reads_sublist T.kids p).subset)

/-- From a node that does not lead to the addition the same nodes are read. -/
theorem reaches (h : s.Grows T s' T' p l) (ha : a ∈ T.nodes)
    (hout : ¬ Reaches (s.reads T.kids) a p) (hm : Reaches (s'.reads T'.kids) a m) :
    Reaches (s.reads T.kids) a m := by
  refine hm.of_congr fun q hq => h.reads_eq (reads_mem ha hq) ?_
  rintro rfl
  exact hout hq

theorem reads_unfolds (h : s.Grows T s' T' p l) (hbacked : s.Backed T) (ha : a ∈ T.nodes)
    (hout : ¬ Reaches (s.reads T.kids) a p) (ht : Unfolds s.label (s.reads T.kids) t a) :
    Unfolds s'.label (s'.reads T'.kids) t a := by
  refine ht.congr (fun m hm => h.label_eq hbacked (reads_mem ha hm)) fun m hm => ?_
  refine h.reads_eq (reads_mem ha hm) ?_
  rintro rfl
  exact hout hm

/-- The nodes of a list from which the addition is not read are as they were. -/
theorem reads_forall (h : s.Grows T s' T' c l) (hbacked : s.Backed T)
    (hout : ∀ b ∈ ns, b ∈ T.nodes ∧ ¬ Reaches (s.reads T.kids) b c)
    (hts : List.Forall₂ (Unfolds s.label (s.reads T.kids)) ts ns) :
    List.Forall₂ (Unfolds s'.label (s'.reads T'.kids)) ts ns ∧
      ∀ b ∈ ns, ¬ Reaches (s'.reads T'.kids) b c := by
  constructor
  · refine forall₂_imp_mem hts fun t b hb hu => ?_
    exact h.reads_unfolds hbacked (hout b hb).1 (hout b hb).2 hu
  · intro b hb hreach
    exact (hout b hb).2 (h.reaches (hout b hb).1 (hout b hb).2 hreach)

/-- The loop over other children goes on as it would have. -/
theorem next_eq (h : s.Grows T s' T' c l) (hn : n ∈ T.nodes) (hnc : n ≠ c) {pre : List NodeId}
    (hkids : T.kids n = pre ++ a :: ns) :
    T'.kids n = (pre ++ [a]) ++ ns ∧ s'.next a = ns.head? := by
  have hkids' : T'.kids n = (pre ++ [a]) ++ ns := by
    rw [h.kids n hn hnc, hkids, List.append_assoc]
    rfl
  refine ⟨hkids', ?_⟩
  have hchain := h.represents.links.chain n (h.nodes hn)
  rw [hkids', List.append_assoc] at hchain
  exact hchain.next_eq

end Ramfs.Grows

/-- A call that changes the number of allocations only adds nothing. -/
theorem Ramfs.Represents.grows_self (h : s.Represents T) (hbacked : s.Backed T) (allocs : ℕ)
    (p : NodeId) : s.Grows T { s with allocs := allocs } T p [] where
  represents := h.congr rfl rfl rfl rfl rfl rfl
  backed := ⟨hbacked.allocated, hbacked.stored⟩
  root := rfl
  nodes := subset_rfl
  fresh _ hm hnew := absurd hm hnew
  fresh_data _ hm hnew := absurd hm hnew
  name _ _ := rfl
  type _ _ := rfl
  size _ _ := rfl
  data _ _ := rfl
  bytes _ _ := rfl
  nextNode := le_rfl
  nextBlock := le_rfl
  fails := rfl
  kids _ _ _ := rfl
  kids_self := (List.append_nil _).symm

/-- A new child of `p`. -/
theorem Ramfs.Represents.grow (h : s.Represents T) (hbacked : s.Backed T) (hp : p ∈ T.nodes)
    (hdir : s.type p = .directory) (hfree : findIn s.name str (T.kids p) = some none)
    (halloc : s.fails s.allocs = false) (type : FsNodeType) :
    ∃ s' T', ramfsCreate s (some p) str type = some (some s.nextNode, s') ∧
      s.Created s' p (if s.fails (s.allocs + 1) then none else some str) type ∧
      s.Grows T s' T' p [s.nextNode] ∧ s.nextNode ∈ T'.nodes ∧ T'.kids s.nextNode = [] ∧
      T'.prune s.nextNode = T := by
  obtain ⟨s', hcreate, hnew, hwired, -⟩ := ramfsCreate_new h.wired hp hdir hfree halloc type
  have hnot := h.wired.nextNode_not_mem
  have hroot : s.nextNode ≠ T.root := fun heq => hnot (heq ▸ T.root_mem)
  have hbelow := h.not_below_nextNode hp
  have hold : ∀ m ∈ T.nodes, m ≠ s.nextNode := fun m hm heq => hnot (heq ▸ hm)
  have hkids : ∀ q, OrderedTree.placeKids T.kids p s.nextNode q =
      T.kids q ++ if q = p then [s.nextNode] else [] := fun q => by
    rw [OrderedTree.placeKids, List.erase_of_not_mem (h.wired.nextNode_not_kid q)]
  refine ⟨s', T.place p s.nextNode hp hroot hbelow, hcreate, hnew, ?_, .inl rfl,
    T.place_kids_self hp hroot hbelow hnot, OrderedTree.place_prune hp hroot hbelow hnot⟩
  refine
    { represents := .of_wired hwired
      backed := ⟨?_, ?_⟩
      root := rfl
      nodes := Set.subset_insert _ _
      fresh := ?_
      fresh_data := ?_
      name := fun m hm => by rw [hnew.name, Function.update_of_ne (hold m hm)]
      type := fun m hm => by rw [hnew.type, Function.update_of_ne (hold m hm)]
      size := fun m hm => by rw [hnew.size, Function.update_of_ne (hold m hm)]
      data := fun m hm => by rw [hnew.data, Function.update_of_ne (hold m hm)]
      bytes := fun b _ => by rw [hnew.bytes]
      nextNode := by rw [hnew.nextNode]; exact Nat.le_succ _
      nextBlock := by rw [hnew.nextBlock]
      fails := hnew.fails
      kids := fun m hm hne => (hkids m).trans (by simp [hne])
      kids_self := (hkids p).trans (by simp) }
  · rintro m (rfl | hm) block hblock
    · simp [hnew.data] at hblock
    · rw [hnew.data, Function.update_of_ne (hold m hm)] at hblock
      rw [hnew.nextBlock]
      exact hbacked.allocated m hm block hblock
  · rintro m (rfl | hm) htype hsize
    · simp [hnew.size] at hsize
    · rw [hnew.size, Function.update_of_ne (hold m hm)] at hsize ⊢
      rw [hnew.type, Function.update_of_ne (hold m hm)] at htype
      rw [hnew.data, Function.update_of_ne (hold m hm), hnew.length]
      exact hbacked.stored m hm htype hsize
  · rintro m (rfl | hm) hnot'
    · exact le_rfl
    · exact absurd hm hnot'
  · rintro m (rfl | hm) hnot' block hblock
    · simp [hnew.data] at hblock
    · exact absurd hm hnot'

/-- The data of a node that is new. -/
theorem Ramfs.Grows.fill (h : s.Grows T s' T' p l) (hc : c ∉ T.nodes) {size : ℕ} {content : Mem}
    {allocs : ℕ} : s.Grows T { s' with
      allocs := allocs
      nextBlock := s'.nextBlock + 1
      length := Function.update s'.length s'.nextBlock size
      data := Function.update s'.data c (some s'.nextBlock)
      bytes := Function.update s'.bytes s'.nextBlock content
      size := Function.update s'.size c size } T' p l := by
  have hold : ∀ m ∈ T.nodes, m ≠ c := fun m hm heq => hc (heq ▸ hm)
  refine
    { h with
      represents := h.represents.congr rfl rfl rfl rfl rfl rfl
      backed := ⟨?_, ?_⟩
      fresh_data := ?_
      size := fun m hm => (Function.update_of_ne (hold m hm) ..).trans (h.size m hm)
      data := fun m hm => (Function.update_of_ne (hold m hm) ..).trans (h.data m hm)
      bytes := fun b hb => ?_
      nextBlock := h.nextBlock.trans (Nat.le_succ _) }
  · intro m hm block hblock
    obtain rfl | hne := eq_or_ne m c
    · obtain rfl : s'.nextBlock = block := by simpa using hblock
      exact Nat.lt_succ_self _
    · simp only [Function.update_of_ne hne] at hblock
      exact Nat.lt_succ_of_lt (h.backed.allocated m hm block hblock)
  · intro m hm htype hsize
    obtain rfl | hne := eq_or_ne m c
    · exact ⟨s'.nextBlock, by simp, by simp⟩
    · simp only [Function.update_of_ne hne] at hsize ⊢
      obtain ⟨block, hblock, hle⟩ := h.backed.stored m hm htype hsize
      have hlt := h.backed.allocated m hm block hblock
      refine ⟨block, hblock, ?_⟩
      rwa [Function.update_of_ne hlt.ne]
  · intro m hm hnew block hblock
    obtain rfl | hne := eq_or_ne m c
    · obtain rfl : s'.nextBlock = block := by simpa using hblock
      exact h.nextBlock
    · simp only [Function.update_of_ne hne] at hblock
      exact h.fresh_data m hm hnew block hblock
  · have hlt := hb.trans_le h.nextBlock
    exact (Function.update_of_ne hlt.ne ..).trans (h.bytes b hb)

/-- A new node that is taken out again. -/
theorem Ramfs.Grows.undo (h : s.Grows T s' T' p [c]) (hprune : T'.prune c = T)
    (hlinks : s'.Relinked s'') (h'' : s''.Represents (T'.prune c)) : s.Grows T s'' T p [] where
  represents := hprune ▸ h''
  backed := by
    constructor
    · intro m hm block hblock
      rw [hlinks.data] at hblock
      rw [hlinks.nextBlock]
      exact h.backed.allocated m (h.nodes hm) block hblock
    · intro m hm htype hsize
      rw [hlinks.type] at htype
      rw [hlinks.size] at hsize ⊢
      rw [hlinks.data, hlinks.length]
      exact h.backed.stored m (h.nodes hm) htype hsize
  root := rfl
  nodes := subset_rfl
  fresh _ hm hnew := absurd hm hnew
  fresh_data _ hm hnew := absurd hm hnew
  name m hm := (congrFun hlinks.name m).trans (h.name m hm)
  type m hm := (congrFun hlinks.type m).trans (h.type m hm)
  size m hm := (congrFun hlinks.size m).trans (h.size m hm)
  data m hm := (congrFun hlinks.data m).trans (h.data m hm)
  bytes b hb := (congrFun hlinks.bytes b).trans (h.bytes b hb)
  nextNode := hlinks.nextNode ▸ h.nextNode
  nextBlock := hlinks.nextBlock ▸ h.nextBlock
  fails := hlinks.fails.trans h.fails
  kids _ _ _ := rfl
  kids_self := (List.append_nil _).symm

/-! ### `ramfs_copy` -/

/-- The call `f`, a copy of `size` nodes into `p`, ends as the copy of trees does. -/
def Ramfs.CopyEnds (s : Ramfs) (T : OrderedTree NodeId) (p : NodeId) (size : ℕ)
    (f : ℕ → Option (Option NodeId × Ramfs)) : Option (Option FsTree × ℕ) → Prop
  | none => Ends f none
  | some (copy, k) => ∃ c s' T', Ends f (some (c, s')) ∧ s.Grows T s' T' p c.toList ∧
      Option.Rel (Unfolds s'.label T'.kids) copy c ∧ s'.allocs = k ∧ s'.nextNode ≤ s.nextNode + size

/-- The loop `f`, a copy of `size` nodes into `c`, ends as the loop over trees does. -/
def Ramfs.LoopEnds (s : Ramfs) (T : OrderedTree NodeId) (c : NodeId) (size : ℕ)
    (f : ℕ → Option Ramfs) : Option (List FsTree × ℕ) → Prop
  | none => Ends f none
  | some (copies, k) => ∃ s' T' l, Ends f (some s') ∧ s.Grows T s' T' c l ∧
      List.Forall₂ (Unfolds s'.label T'.kids) copies (T'.kids c) ∧ s'.allocs = k ∧
      s'.nextNode ≤ s.nextNode + size

/-- The loop after the copy of a child. -/
theorem Ramfs.Grows.loop_ends (h : s.Grows T s' T' c l) (hn : n ∈ T.nodes) (hnc : n ≠ c)
    {pre : List NodeId} (hkids : T.kids n = pre ++ a :: ns) {r : Option NodeId}
    (hends : Ends (fun fuel => ramfsCopy fuel s (some a) (some c)) (some (r, s')))
    {x : Option Ramfs} (hx : Ends (fun fuel => copyChildren fuel s' ns.head? c) x) :
    Ends (fun fuel => copyChildren fuel s (some a) c) x := by
  rw [← (h.next_eq hn hnc hkids).2] at hx
  rw [← ends_succ]
  have hboth := hends.bind (g := fun fuel r => copyChildren fuel r.2 (r.2.next a) c) hx
  exact hboth.congr fun fuel => rfl

theorem Ramfs.CopyEnds.imp {size : ℕ} {f g : ℕ → Option (Option NodeId × Ramfs)}
    {out : Option (Option FsTree × ℕ)} (h : s.CopyEnds T p size f out)
    (hends : ∀ {x}, Ends f x → Ends g x) : s.CopyEnds T p size g out := by
  cases out with
  | none => exact hends h
  | some r =>
    obtain ⟨c, s', T', hf, hrest⟩ := h
    exact ⟨c, s', T', hends hf, hrest⟩

/-- The number of nodes of a tree. -/
abbrev nodeCount (t : FsTree) : ℕ := t.sum fun _ => 1

theorem nodeCount_eq (t : FsTree) : nodeCount t = 1 + LabelTree.sums (fun _ => 1) t.kids := by
  cases t
  rfl

/-- The statement that the induction on the tree proves. -/
def Copies (t : FsTree) : Prop :=
  ∀ {s : Ramfs} {T : OrderedTree NodeId} {n p : NodeId}, s.Represents T → s.Backed T →
    n ∈ T.nodes → p ∈ T.nodes → s.type p = .directory → Unfolds s.label (s.reads T.kids) t n →
    ¬ Reaches (s.reads T.kids) n p →
    s.CopyEnds T p (nodeCount t) (fun fuel => ramfsCopy fuel s (some n) (some p))
      (copyTree s.fails t ((T.kids p).map s.name) s.allocs)

/-- The loop copies the rest of the children of a directory `n`. -/
theorem copyChildren_copies (ih : ∀ t ∈ ts, Copies t) (h : s.Represents T) (hbacked : s.Backed T)
    (hn : n ∈ T.nodes) (hnc : n ≠ c) (hc : c ∈ T.nodes) (hdir : s.type c = .directory)
    {pre : List NodeId} (hkids : T.kids n = pre ++ ns)
    (hts : List.Forall₂ (Unfolds s.label (s.reads T.kids)) ts ns)
    (hout : ∀ a ∈ ns, ¬ Reaches (s.reads T.kids) a c)
    (hcopies : List.Forall₂ (Unfolds s.label T.kids) copies (T.kids c)) :
    s.LoopEnds T c (LabelTree.sums (fun _ => 1) ts) (fun fuel => copyChildren fuel s ns.head? c)
      (copyTrees s.fails ts copies s.allocs) := by
  induction ts generalizing s T pre copies ns with
  | nil =>
    cases hts
    refine ⟨s, T, [], ?_, h.grows_self hbacked s.allocs c, hcopies, rfl, le_rfl⟩
    rw [← ends_succ]
    exact ends_const _
  | cons t ts ihl =>
    obtain ⟨a, ns, ht, hrest, rfl⟩ := List.forall₂_cons_left_iff.mp hts
    have ha : a ∈ T.nodes := (T.kids_mem n a (by simp [hkids])).2
    have hnames : copies.map (fun t => t.label.name) = (T.kids c).map s.name := by
      have := congrArg (List.map FsLabel.name) (map_label_eq hcopies)
      simpa [Function.comp_def, Ramfs.label] using this
    have hcopy := ih t List.mem_cons_self h hbacked ha hc hdir ht (hout a List.mem_cons_self)
    rw [← hnames] at hcopy
    rw [copyTrees]
    cases hresult : copyTree s.fails t (copies.map fun t => t.label.name) s.allocs with
    | none =>
      rw [hresult] at hcopy
      have hends : Ends (fun fuel => ramfsCopy fuel s (some a) (some c)) none := hcopy
      show Ends _ none
      rw [← ends_succ]
      have hnone := hends.bind_none (g := fun fuel r => copyChildren fuel r.2 (r.2.next a) c)
      exact hnone.congr fun fuel => rfl
    | some r =>
      obtain ⟨copy, k⟩ := r
      rw [hresult] at hcopy
      obtain ⟨b, s₁, T₁, hends, hgrows, hrel, rfl, hcount⟩ := hcopy
      have hn₁ := hgrows.nodes hn
      have hc₁ := hgrows.nodes hc
      have hkids₁ := (hgrows.next_eq hn hnc hkids).1
      -- the trees that are still to be read, and those that have been copied, look the same
      obtain ⟨hts₁, hout₁⟩ := hgrows.reads_forall hbacked (fun b hb =>
        ⟨(T.kids_mem n b (by simp [hkids, hb])).2, hout b (List.mem_cons_of_mem _ hb)⟩) hrest
      have hcopies₁ : List.Forall₂ (Unfolds s₁.label T₁.kids) (copies ++ copy.toList)
          (T₁.kids c) := by
        rw [hgrows.kids_self]
        refine List.rel_append (forall₂_imp_mem hcopies fun t b hb hu => ?_) ?_
        · exact hgrows.unfolds hbacked (T.kids_mem c b hb).2 (OrderedTree.not_below_kid hb) hu
        · cases hrel with
          | none => exact .nil
          | some hu => exact .cons hu .nil
      have hloop := ihl (fun t ht => ih t (List.mem_cons_of_mem _ ht)) hgrows.represents
        hgrows.backed hn₁ hc₁ ((hgrows.type c hc).trans hdir) hkids₁ hts₁ hout₁ hcopies₁
      rw [hgrows.fails] at hloop
      simp only [Option.bind_eq_bind, Option.bind_some]
      have hstep : ∀ {x}, Ends (fun fuel => copyChildren fuel s₁ ns.head? c) x →
          Ends (fun fuel => copyChildren fuel s (some a) c) x := fun hx =>
        hgrows.loop_ends hn hnc hkids hends hx
      cases htrees : copyTrees s.fails ts (copies ++ copy.toList) s₁.allocs with
      | none =>
        rw [htrees] at hloop
        exact hstep hloop
      | some r =>
        obtain ⟨copies', k'⟩ := r
        rw [htrees] at hloop
        obtain ⟨s₂, T₂, l, hends₂, hgrows₂, hrel₂, hallocs, hcount₂⟩ := hloop
        refine ⟨s₂, T₂, _, hstep hends₂, hgrows.trans hgrows₂, hrel₂, hallocs, ?_⟩
        rw [LabelTree.sums, ← Nat.add_assoc]
        exact hcount₂.trans (Nat.add_le_add_right hcount _)

/-- `ramfs_copy` once the new node is there. -/
def copyInto (fuel : ℕ) (s : Ramfs) (n copy : NodeId) : Option (Option NodeId × Ramfs) :=
  match s.type n with
  | .file =>
    if s.size n = 0 then some (some copy, s)
    else
      match allocBlock s (s.size n) with
      | (none, s) =>
        (ramfsDelete fuel { s with data := Function.update s.data copy none } (some copy)).bind
          fun r => some (none, r.2)
      | (some block, s) => (s.data n).bind fun source => some (some copy, { s with
          data := Function.update s.data copy (some block)
          bytes := Function.update s.bytes block
            (memcpy (s.bytes block) 0 (s.bytes source) 0 (s.size n))
          size := Function.update s.size copy (s.size n) })
  | .directory => (copyChildren fuel s (s.children n) copy).bind fun s => some (some copy, s)

/-- The start of `ramfs_copy`: the names that are looked for, and the new node. -/
theorem ramfsCopy_succ (h : s.Represents T) (hp : p ∈ T.nodes) (fuel : ℕ) {name : CString}
    {found : Option NodeId} (hname : s.name n = some name)
    (hfind : findIn s.name name (T.kids p) = some found) :
    ramfsCopy (fuel + 1) s (some n) (some p) =
      (ramfsCreate s (some p) (if found.isSome then copyName name else name) (s.type n)).bind
        fun r => match r with
        | (none, s) => some (none, s)
        | (some copy, s) => copyInto fuel s n copy := by
  simp only [ramfsCopy, hname, ramfsFind_eq h.wired hp, hfind, Option.bind_eq_bind,
    Option.bind_some, Option.pure_def]
  rfl

/-- A new node has no content. -/
theorem Ramfs.Created.label_eq {name : Option CString} (h : s.Created s' p name type) :
    s'.label s.nextNode = ⟨name, type, []⟩ := by
  have hcontent : s'.content s.nextNode = [] := by
    cases type <;> simp [content, h.type, h.data]
  rw [label, hcontent, h.name, h.type, Function.update_self, Function.update_self]

section created

variable {name : Option CString} (hbacked : s.Backed T) (hn : n ∈ T.nodes)
  (hnew : s.Created s' p name type) (hgrows : s.Grows T s' T' p [s.nextNode])
  (hnot : s.nextNode ∉ T.nodes) (hleaf : T'.kids s.nextNode = [])

include hbacked hn hnew hgrows hleaf in
/-- The content of a file is copied to a new block. -/
theorem Ramfs.Created.copy_content (htype : s.type n = .file) (hfile : type = .file)
    {source : BlockId} (hsource : s'.data n = some source) (allocs : ℕ) :
    Unfolds (Ramfs.label { s' with
        allocs := allocs
        nextBlock := s'.nextBlock + 1
        length := Function.update s'.length s'.nextBlock (s'.size n)
        data := Function.update s'.data s.nextNode (some s'.nextBlock)
        bytes := Function.update s'.bytes s'.nextBlock
          (memcpy (s'.bytes s'.nextBlock) 0 (s'.bytes source) 0 (s'.size n))
        size := Function.update s'.size s.nextNode (s'.size n) }) T'.kids
      (.node ⟨name, .file, s.content n⟩ []) s.nextNode := by
  rw [unfolds_node, hleaf]
  refine ⟨?_, .nil⟩
  have hcontent := hgrows.content_eq hbacked hn
  have htype' : s'.type n = .file := (hgrows.type n hn).trans htype
  simp only [label, hnew.name, hnew.type, Function.update_self, hfile, ← hcontent]
  simp only [content, Function.update_self, htype', hsource]
  congr 1
  refine List.map_congr_left fun i hi => ?_
  simp [memcpy_apply, List.mem_range.mp hi]

include hbacked hn hnew hgrows hnot hleaf in
/-- The copy of a file. -/
theorem copyInto_file (hc : s.nextNode ∈ T'.nodes) (hprune : T'.prune s.nextNode = T)
    (htype : s.type n = .file) (hfile : type = .file) (k : ℕ) :
    s.CopyEnds T p (1 + k) (fun fuel => copyInto fuel s' n s.nextNode)
      (if s.content n = [] then some (some (.node ⟨name, .file, []⟩ []), s.allocs + 2)
      else if s.fails (s.allocs + 2) then some (none, s.allocs + 3)
      else some (some (.node ⟨name, .file, s.content n⟩ []), s.allocs + 3)) := by
  have htype' : s'.type n = .file := (hgrows.type n hn).trans htype
  have hcount : s'.nextNode ≤ s.nextNode + (1 + k) := by
    rw [hnew.nextNode]
    exact Nat.add_le_add_left (Nat.le_add_right 1 k) _
  have hsize : s.content n = [] ↔ s'.size n = 0 := by
    rw [hbacked.content_eq_nil hn htype, hgrows.size n hn]
  by_cases hzero : s'.size n = 0
  · rw [if_pos (hsize.mpr hzero)]
    refine ⟨some s.nextNode, s', T', ?_, hgrows, .some ?_, hnew.allocs, hcount⟩
    · refine (ends_const _).congr fun fuel => ?_
      simp [copyInto, htype', hzero]
    · rw [unfolds_node, hleaf]
      exact ⟨hnew.label_eq.trans (by rw [hfile]), .nil⟩
  · rw [if_neg fun heq => hzero (hsize.mp heq)]
    cases hfail : s.fails (s.allocs + 2) with
    | true =>
      -- the new node has no data, so nothing is lost with it
      have hdata : Function.update s'.data s.nextNode none = s'.data := by
        rw [hnew.data, Function.update_idem]
      have hgrows' := hgrows.trans (hgrows.represents.grows_self hgrows.backed (s'.allocs + 1) p)
      obtain ⟨s₂, hdelete, h₂⟩ := ramfsDelete_ends hgrows'.represents hc
      obtain ⟨fuel, hfuel⟩ := hdelete.exists
      have hlinks := ramfsDelete_relinked hfuel
      refine ⟨none, s₂, T, ?_, hgrows'.undo hprune hlinks h₂, .none, ?_, ?_⟩
      · have hends := hdelete.map fun r => r.bind fun r => some ((none : Option NodeId), r.2)
        refine hends.congr fun fuel => ?_
        have hfail' : s'.fails s'.allocs = true := by rw [hnew.fails, hnew.allocs, hfail]
        simp only [copyInto, htype', allocBlock, if_neg hzero, hfail', if_true, hdata]
      · rw [hlinks.allocs]
        show s'.allocs + 1 = _
        rw [hnew.allocs]
      · rw [hlinks.nextNode]
        exact hcount
    | false =>
      obtain ⟨source, hsource, -⟩ :=
        hgrows.backed.stored n (hgrows.nodes hn) htype' hzero
      refine ⟨some s.nextNode, _, T', ?_, hgrows.fill hnot, .some
        (hnew.copy_content hbacked hn hgrows hleaf htype hfile hsource (s'.allocs + 1)), ?_, hcount⟩
      · refine (ends_const _).congr fun fuel => ?_
        have hfail' : s'.fails s'.allocs = false := by rw [hnew.fails, hnew.allocs, hfail]
        simp [copyInto, htype', allocBlock, hzero, hfail', hsource]
      · show s'.allocs + 1 = _
        rw [hnew.allocs]

include hbacked hn hnew hgrows hnot hleaf in
/-- The copy of a directory. -/
theorem copyInto_directory (ih : ∀ t ∈ ts, Copies t) (hp : p ∈ T.nodes)
    (hc : s.nextNode ∈ T'.nodes) (htype : s.type n = .directory) (hdir : type = .directory)
    (hts : List.Forall₂ (Unfolds s.label (s.reads T.kids)) ts (s.reads T.kids n))
    (hout : ¬ Reaches (s.reads T.kids) n p) :
    s.CopyEnds T p (1 + LabelTree.sums (fun _ => 1) ts)
      (fun fuel => copyInto fuel s' n s.nextNode)
      ((copyTrees s.fails ts [] (s.allocs + 2)).map fun r =>
        (some (.node ⟨name, .directory, []⟩ r.1), r.2)) := by
  have htype' : s'.type n = .directory := (hgrows.type n hn).trans htype
  have hnp : n ≠ p := fun heq => hout (heq ▸ .refl ..)
  have hkids : T'.kids n = T.kids n := hgrows.kids n hn hnp
  have hnc : n ≠ s.nextNode := fun heq => hnot (heq ▸ hn)
  rw [Ramfs.reads_directory htype] at hts
  -- the children do not lead to `p`, so they look the same, and do not lead to the new node
  have hkid : ∀ a ∈ T.kids n, a ∈ T.nodes ∧ ¬ Reaches (s.reads T.kids) a p := by
    intro a ha
    refine ⟨(T.kids_mem n a ha).2, fun hreach => hout (Reaches.trans (.kid ?_) hreach)⟩
    rwa [Ramfs.reads_directory htype]
  have hts' := (hgrows.reads_forall hbacked hkid hts).1
  have hout' : ∀ a ∈ T.kids n, ¬ Reaches (s'.reads T'.kids) a s.nextNode := fun a ha hreach =>
    hnot (Ramfs.Grows.reads_mem (hkid a ha).1
      (hgrows.reaches (hkid a ha).1 (hkid a ha).2 hreach))
  have hempty : List.Forall₂ (Unfolds s'.label T'.kids) [] (T'.kids s.nextNode) := by
    rw [hleaf]
    exact .nil
  have hloop := copyChildren_copies ih hgrows.represents hgrows.backed (hgrows.nodes hn) hnc hc
    (by rw [hnew.type, Function.update_self, hdir]) (hkids.trans (List.nil_append _).symm) hts'
    hout' hempty
  rw [hgrows.fails, hnew.allocs] at hloop
  have hfirst : s'.children n = (T.kids n).head? := by
    rw [(hgrows.represents.links.chain n (hgrows.nodes hn)).head_eq, hkids]
  have hinto : ∀ {x}, Ends (fun fuel => copyChildren fuel s' (T.kids n).head? s.nextNode) x →
      Ends (fun fuel => copyInto fuel s' n s.nextNode)
        (x.bind fun s₂ => some (some s.nextNode, s₂)) := by
    intro x hx
    have hends := hx.map fun r => r.bind fun s₂ => some (some s.nextNode, s₂)
    exact hends.congr fun fuel => by simp only [copyInto, htype', hfirst]
  cases htrees : copyTrees s.fails ts [] (s.allocs + 2) with
  | none =>
    rw [htrees] at hloop
    exact hinto hloop
  | some r =>
    obtain ⟨copies, k⟩ := r
    rw [htrees] at hloop
    obtain ⟨s₂, T₂, l, hends, hgrows₂, hcopies, hallocs, hcount⟩ := hloop
    refine ⟨some s.nextNode, s₂, T₂, hinto hends, hgrows.into hgrows₂ hp hnot, .some ?_, hallocs,
      ?_⟩
    · rw [unfolds_node, hgrows₂.label_eq hgrows.backed hc, hnew.label_eq, hdir]
      exact ⟨rfl, hcopies⟩
    · rw [hnew.nextNode, Nat.add_assoc] at hcount
      exact hcount

end created

/-- `ramfs_copy` copies what one sees. -/
theorem ramfsCopy_copies (t : FsTree) : Copies t := by
  induction t using LabelTree.induction with
  | node label ts ih =>
    intro s T n p h hbacked hn hp hdir ht hout
    obtain ⟨rfl, hts⟩ := unfolds_node.mp ht
    rw [copyTree]
    have hends : ∀ {f : ℕ → Option (Option NodeId × Ramfs)} {x}, (∀ fuel, f (fuel + 1) = x) →
        Ends f x := fun hf => ends_succ.mp ((ends_const _).congr hf)
    cases hname : s.name n with
    | none =>
      simp only [Ramfs.label, hname, Option.bind_eq_bind, Option.bind_none]
      exact hends fun fuel => by simp [ramfsCopy, hname]
    | some name =>
      simp only [Ramfs.label, hname, Option.bind_eq_bind, Option.bind_some, ← findIn_isSome]
      cases hfind : findIn s.name name (T.kids p) with
      | none =>
        simp only [Option.map_none, Option.bind_none]
        exact hends fun fuel => by simp [ramfsCopy, hname, ramfsFind_eq h.wired hp, hfind]
      | some found =>
        have hsucc := fun fuel => ramfsCopy_succ h hp fuel hname hfind
        simp only [Option.map_some, Option.bind_some]
        generalize (if found.isSome then copyName name else name) = str at hsucc ⊢
        cases hfind' : findIn s.name str (T.kids p) with
        | none =>
          simp only [Option.map_none, Option.bind_none]
          refine hends fun fuel => ?_
          rw [hsucc, ramfsCreate_eq h.wired hp hdir, hfind']
          rfl
        | some found' =>
          simp only [Option.map_some, Option.bind_some]
          cases found' with
          | some m =>
            refine ⟨none, s, T, ?_, h.grows_self hbacked s.allocs p, .none, rfl,
              Nat.le_add_right _ _⟩
            refine hends fun fuel => ?_
            rw [hsucc, ramfsCreate_eq h.wired hp hdir, hfind']
            rfl
          | none =>
            simp only [Option.isSome_none, Bool.false_eq_true, if_false]
            cases hfail : s.fails s.allocs with
            | true =>
              refine ⟨none, _, T, ?_, h.grows_self hbacked (s.allocs + 1) p, .none, rfl,
                Nat.le_add_right _ _⟩
              refine hends fun fuel => ?_
              rw [hsucc, ramfsCreate_eq h.wired hp hdir, hfind']
              simp [hfail]
            | false =>
              obtain ⟨s₁, T₁, hcreate, hnew, hgrows, hc, hleaf, hprune⟩ :=
                h.grow hbacked hp hdir hfind' hfail (s.type n)
              have hnot := h.wired.nextNode_not_mem
              have hinto : ∀ {x}, Ends (fun fuel => copyInto fuel s₁ n s.nextNode) x →
                  Ends (fun fuel => ramfsCopy fuel s (some n) (some p)) x := by
                intro x hx
                rw [← ends_succ]
                refine hx.congr fun fuel => ?_
                rw [hsucc, hcreate]
                rfl
              cases htype : s.type n with
              | file =>
                have hfile := copyInto_file hbacked hn hnew hgrows hnot hleaf hc hprune htype htype
                  (LabelTree.sums (fun _ => 1) ts)
                exact hfile.imp hinto
              | directory =>
                have hdirectory := copyInto_directory hbacked hn hnew hgrows hnot hleaf ih hp hc
                  htype htype hts hout
                rw [Option.map_eq_bind] at hdirectory
                exact hdirectory.imp hinto

end Bethany
