import Bethany.Filesystem.RamfsLinks

/-!
# The RAM file system as a tree

What the nodes are meant to be is an ordered tree.  `ramfs_move` is the only function that can
make them something else: it looks whether the new parent is the first child of the node, but
not whether it lies deeper in the node's subtree.

* `Ramfs.IsTree`: every live node is reached from the root along one path, and its parent field
  is right;
* `Ramfs.Represents`: the links of the nodes represent an ordered tree;
* `ramfsCreate_spec`, `ramfsRemove_spec`, `ramfsMove_spec`, `ramfsDelete_spec`, `ramfsCopy_spec`:
  one call;
* `ramfs_tree`: the runs that keep the tree.
-/

namespace Bethany

open LinkedList Relation Walk

/-! ### The property -/

/-- The links of the nodes form a tree of the live nodes, with the right parent fields. -/
structure Ramfs.IsTree (s : Ramfs) : Prop where
  /-- Every live node is reached from the root along exactly one path. -/
  path : ∃ r, s.root = some r ∧ ∀ n, s.Live n →
    ∃! p, walk (follow s.children s.next) r p = some n
  /-- The parent field is the one node that has the node in its list of children. -/
  parent : ∀ n, s.Live n → s.root ≠ some n → ∃ p, s.parent n = some p ∧ s.Live p ∧
    Linked s.next (s.children p) n ∧ ∀ q, s.Live q → Linked s.next (s.children q) n → q = p
  /-- The links have no cycle. -/
  acyclic : ∀ n, s.Live n → ∀ p, walk (follow s.children s.next) n p = some n → p = []

/-- `m` lies in the subtree of `n`, by the parent fields. -/
def Ramfs.Descends (s : Ramfs) (n m : NodeId) : Prop :=
  ReflTransGen (fun m p => s.parent m = some p) m n

/-! ### Runs -/

/-- A call of a run, with its arguments. -/
inductive FsCall
  | create (parent : Option NodeId) (name : CString) (type : FsNodeType)
  | mkdir (parent : Option NodeId) (name : CString)
  | write (node : Option NodeId) (buffer : Machine.Mem) (size : ℕ)
  | rename (node : Option NodeId) (newName : CString)
  | move (node newParent : Option NodeId)
  | copy (node newParent : Option NodeId)
  | remove (node : Option NodeId)
  | delete (node : Option NodeId)

/-- The nodes that a call is given. -/
def FsCall.args : FsCall → List (Option NodeId)
  | .create parent _ _ => [parent]
  | .mkdir parent _ => [parent]
  | .write node _ _ => [node]
  | .rename node _ => [node]
  | .move node newParent => [node, newParent]
  | .copy node newParent => [node, newParent]
  | .remove node => [node]
  | .delete node => [node]

/-- The state after a call that returns; `fuel` bounds the rounds of `ramfs_copy` and
`ramfs_delete`. -/
def FsCall.exec (fuel : ℕ) (s : Ramfs) : FsCall → Option Ramfs
  | .create parent name type => (ramfsCreate s parent name type).map Prod.snd
  | .mkdir parent name => (ramfsMkdir s parent name).map Prod.snd
  | .write node buffer size => some (ramfsWrite s node buffer size).2
  | .rename node newName => (ramfsRename s node newName).map Prod.snd
  | .move node newParent => (ramfsMove s node newParent).map Prod.snd
  | .copy node newParent => (ramfsCopy fuel s node newParent).map Prod.snd
  | .remove node => ramfsRemove s node
  | .delete node => (ramfsDelete fuel s node).map Prod.snd

/-- The nodes that a call is given are live. -/
def FsCall.Legal (s : Ramfs) (call : FsCall) : Prop := ∀ arg ∈ call.args, ∀ n ∈ arg, s.Live n

/-- A move that `ramfs_move` does not refuse goes to a node outside of the subtree. -/
def FsCall.Outside (s : Ramfs) : FsCall → Prop
  | .move (some node) (some newParent) => s.root = some node ∨ node = newParent ∨
      s.children node = some newParent ∨ ¬ s.Descends node newParent
  | _ => True

/-- One call of a run in which all calls are as `ok` says. -/
def Ramfs.Step (ok : Ramfs → FsCall → Prop) (s s' : Ramfs) : Prop :=
  ∃ call fuel, ok s call ∧ call.exec fuel s = some s'

/-- Memory before `ramfs_init`. -/
def Ramfs.blank (fails : ℕ → Bool) : Ramfs where
  root := none
  name := fun _ => none
  size := fun _ => 0
  data := fun _ => none
  type := fun _ => .file
  parent := fun _ => none
  children := fun _ => none
  next := fun _ => none
  bytes := fun _ _ => 0
  length := fun _ => 0
  nextNode := 0
  nextBlock := 0
  freed := fun _ => false
  allocs := 0
  fails := fails

/-! ### The tree behind the links -/

/-- The fields of the nodes represent a tree, whose nodes are the live ones. -/
structure Ramfs.Represents (s : Ramfs) (T : OrderedTree NodeId) : Prop where
  root : s.root = some T.root
  links : Links T s.children s.next
  parent : ∀ n p, T.Kid n p → s.parent n = some p
  parent_root : s.parent T.root = none
  live : ∀ n, s.Live n ↔ n ∈ T.nodes
  unfreed : ∀ n, s.nextNode ≤ n → s.freed n = false

variable {s s' : Ramfs} {T T' : OrderedTree NodeId} {n m p q node : NodeId} {fuel : ℕ}
  {call : FsCall} {S : Set NodeId} {kids : NodeId → List NodeId}

namespace Ramfs.Represents

theorem wired (h : s.Represents T) : s.Wired T.root T.nodes T.kids where
  root := h.root
  root_mem := T.root_mem
  chain := h.links.chain
  kids_mem := T.kids_mem
  disjoint := T.disjoint
  root_not_mem := T.root_not_mem
  exists_kid _ hn hne := T.exists_kid hn hne
  parent := h.parent
  parent_root := h.parent_root
  next_root := h.links.root
  live := h.live
  unfreed := h.unfreed

theorem of_wired (h : s.Wired T.root T.nodes T.kids) : s.Represents T :=
  ⟨h.root, ⟨h.chain, h.next_root⟩, h.parent, h.parent_root, h.live, h.unfreed⟩

theorem unique (h : s.Represents T) (h' : s.Represents T') : T = T' := by
  obtain ⟨hroot, hnodes, hkids⟩ := h.wired.unique h'.wired
  exact OrderedTree.ext hnodes hroot hkids

theorem isTree (h : s.Represents T) : s.IsTree where
  path := ⟨T.root, h.root, fun n hn => h.links.path ((h.live n).mp hn)⟩
  parent n hn hroot := by
    obtain ⟨p, hkid⟩ := T.exists_kid ((h.live n).mp hn) fun heq => hroot (heq ▸ h.root)
    have hp := (T.kids_mem p n hkid).1
    refine ⟨p, h.parent n p hkid, (h.live p).mpr hp, ⟨_, h.links.chain p hp, hkid⟩, ?_⟩
    intro q hq hlinked
    have hn := (h.links.chain q ((h.live q).mp hq)).linked_iff.mp hlinked
    exact T.disjoint q p n hn hkid
  acyclic n hn p hp := h.links.acyclic ((h.live n).mp hn) hp

/-- The next sibling of a live node is live. -/
theorem next_mem (h : s.Represents T) (hn : n ∈ T.nodes) (hnext : s.next n = some m) :
    m ∈ T.nodes :=
  h.links.link_mem (k := .next) hn hnext

/-- The first child of a live node is a child of it. -/
theorem kid_of_children (h : s.Represents T) (hn : n ∈ T.nodes) (hm : s.children n = some m) :
    T.Kid m n := by
  have hchain := (h.links.chain n hn).head_eq
  rw [hm] at hchain
  exact List.mem_of_head? hchain.symm

theorem kids_eq_nil (h : s.Represents T) (hn : n ∈ T.nodes) (hnull : s.children n = none) :
    T.kids n = [] := by
  have hchain := h.links.chain n hn
  rw [hnull] at hchain
  exact chain_none.mp hchain

/-- The children of a live node are those that its links lead to. -/
theorem kids_eq {l : List NodeId} (h : s.Represents T) (hn : s.Live n)
    (hchain : Chain s.next (s.children n) l) : T.kids n = l :=
  (h.links.chain n ((h.live n).mp hn)).unique hchain

/-- The parent fields of live nodes climb as the tree does. -/
theorem descends_iff (h : s.Represents T) (hm : m ∈ T.nodes) : s.Descends n m ↔ T.Below n m := by
  constructor
  · intro hdesc
    induction hdesc using ReflTransGen.head_induction_on with
    | refl => exact .refl
    | @head a b hab _ ih =>
      have hne : a ≠ T.root := by
        rintro rfl
        rw [h.parent_root] at hab
        exact absurd hab (Option.some_ne_none b).symm
      obtain ⟨p, hkid⟩ := T.exists_kid hm hne
      obtain rfl := Option.some.inj (hab.symm.trans (h.parent a p hkid))
      exact .head hkid (ih (T.kids_mem b a hkid).1)
  · intro hbelow
    exact ReflTransGen.mono (fun a b hkid => h.parent a b hkid) _ _ hbelow

end Ramfs.Represents

/-! ### The calls -/

/-- A change to the names, the data and the allocations leaves the tree as it is. -/
theorem Ramfs.Represents.congr (h : s.Represents T) (hroot : s'.root = s.root)
    (hchildren : s'.children = s.children) (hnext : s'.next = s.next)
    (hparent : s'.parent = s.parent) (hnode : s'.nextNode = s.nextNode)
    (hfreed : s'.freed = s.freed) : s'.Represents T :=
  .of_wired (h.wired.congr hroot hchildren hnext hparent hnode hfreed)

/-- What `ramfs_create` can do: nothing but ask for memory, or append a node with new fields. -/
theorem ramfsCreate_cases {parent r : Option NodeId} {name : CString} {type : FsNodeType}
    (hr : ramfsCreate s parent name type = some (r, s')) :
    (r = none ∧ ∃ allocs, s' = { s with allocs := allocs }) ∨
    ∃ p str, parent = some p ∧ s.type p = .directory ∧
      ramfsFind s (some p) name = some none ∧ (str = some name ∨ str = none) ∧
      r = some s.nextNode ∧
      appendChild (initNode { s with allocs := s.allocs + 2, nextNode := s.nextNode + 1 }
        s.nextNode str type (some p)) p s.nextNode = some s' := by
  cases parent with
  | none =>
    obtain ⟨rfl, rfl⟩ : none = r ∧ s = s' := by simpa [ramfsCreate] using hr
    exact .inl ⟨rfl, s.allocs, rfl⟩
  | some p =>
    by_cases hdir : s.type p = .directory
    · rw [ramfsCreate_directory hdir] at hr
      obtain ⟨found, hfind, hr⟩ := Option.bind_eq_some_iff.mp hr
      cases found with
      | some m =>
        obtain ⟨rfl, rfl⟩ : none = r ∧ s = s' := by simpa using hr
        exact .inl ⟨rfl, s.allocs, rfl⟩
      | none =>
        by_cases hfail : s.fails s.allocs
        · obtain ⟨rfl, rfl⟩ : none = r ∧ _ = s' := by simpa [hfail] using hr
          exact .inl ⟨rfl, _, rfl⟩
        · rw [if_neg (by simp), if_neg hfail] at hr
          obtain ⟨s'', happend, hr⟩ := Option.map_eq_some_iff.mp hr
          obtain ⟨rfl, rfl⟩ := Prod.mk.inj hr
          exact .inr ⟨p, _, rfl, hdir, hfind, (ite_eq_or_eq _ _ _).symm, rfl, happend⟩
    · obtain ⟨rfl, rfl⟩ : none = r ∧ s = s' := by simpa [ramfsCreate, hdir] using hr
      exact .inl ⟨rfl, s.allocs, rfl⟩

/-- A new node is in the subtree of itself only. -/
theorem Ramfs.Represents.not_below_nextNode (h : s.Represents T) (hp : p ∈ T.nodes) :
    ¬ T.Below s.nextNode p := by
  intro hbelow
  have hnew := h.wired.nextNode_not_mem
  obtain rfl := T.below_leaf (T.kids_eq_nil hnew) hbelow
  exact hnew hp

/-- `ramfs_create` adds a new last child, or nothing. -/
theorem ramfsCreate_spec (h : s.Represents T) {parent r : Option NodeId} {name : CString}
    {type : FsNodeType} (hparent : ∀ p, parent = some p → p ∈ T.nodes)
    (hr : ramfsCreate s parent name type = some (r, s')) :
    r = none ∧ s'.Represents T ∨ ∃ p hp hroot hbelow, parent = some p ∧ r = some s.nextNode ∧
      s'.Represents (T.place p s.nextNode hp hroot hbelow) := by
  obtain ⟨rfl, allocs, rfl⟩ | ⟨p, str, rfl, -, -, -, rfl, happend⟩ := ramfsCreate_cases hr
  · exact .inl ⟨rfl, h.congr rfl rfl rfl rfl rfl rfl⟩
  · right
    have hp := hparent p rfl
    have hroot : s.nextNode ≠ T.root := fun heq =>
      h.wired.nextNode_not_mem (heq ▸ T.root_mem)
    obtain ⟨s₁, happend', -, hwired, -⟩ := h.wired.create hp str type
    obtain rfl := Option.some.inj (happend.symm.trans happend')
    exact ⟨p, hp, hroot, h.not_below_nextNode hp, rfl, rfl, .of_wired hwired⟩

/-- `ramfs_remove` takes a leaf out, or does nothing. -/
theorem ramfsRemove_spec (h : s.Represents T) {node : Option NodeId}
    (hnode : ∀ n, node = some n → n ∈ T.nodes) (hr : ramfsRemove s node = some s') :
    s' = s ∧ (∀ n, node = some n → n = T.root ∨ (s.children n).isSome) ∨
    ∃ n hroot hleaf, node = some n ∧ s'.Represents (T.remove n hroot hleaf) := by
  cases node with
  | none =>
    left
    simp only [ramfsRemove, Option.some.injEq] at hr
    exact ⟨hr.symm, by simp⟩
  | some n =>
    have hn := hnode n rfl
    by_cases hrefused : s.root = some n ∨ (s.children n).isSome
    · left
      rw [ramfsRemove_refused hrefused] at hr
      refine ⟨(Option.some.inj hr).symm, fun m hm => ?_⟩
      obtain rfl := Option.some.inj hm
      exact hrefused.imp_left h.wired.root_eq_iff.mp
    · right
      obtain ⟨hroot, hkids⟩ := not_or.mp hrefused
      have hne : n ≠ T.root := fun heq => hroot (heq ▸ h.root)
      have hleaf := h.kids_eq_nil hn (Option.not_isSome_iff_eq_none.mp hkids)
      obtain ⟨children, next, hremove, hwired, -⟩ := h.wired.remove hn hne hleaf
      obtain rfl := Option.some.inj (hremove.symm.trans hr)
      exact ⟨n, hne, hleaf, rfl, .of_wired hwired⟩

/-- A move to a node outside of the subtree. -/
theorem ramfsMove_place (h : s.Represents T) (hn : n ∈ T.nodes) (hp : p ∈ T.nodes)
    (hroot : n ≠ T.root) (hbelow : ¬ T.Below n p) :
    ∃ s', ramfsMove s (some n) (some p) = some (true, s') ∧
      s'.Represents (T.place p n hp hroot hbelow) := by
  have hne : n ≠ p := by
    rintro rfl
    exact hbelow .refl
  have hfirst : s.children n ≠ some p := fun heq =>
    hbelow (.single (h.kid_of_children hn heq))
  obtain ⟨children, next, hmove, hwired, -⟩ := h.wired.move hn hp hroot hne hfirst
  refine ⟨_, hmove, .of_wired ?_⟩
  have hinsert : insert n T.nodes = T.nodes := Set.insert_eq_of_mem hn
  simp only [OrderedTree.place, hinsert]
  exact hwired

/-- A move that is refused, or goes to a node outside of the subtree. -/
theorem ramfsMove_spec (h : s.Represents T) {node newParent : Option NodeId} {r : Bool}
    (hnode : ∀ n, node = some n → n ∈ T.nodes) (hparent : ∀ p, newParent = some p → p ∈ T.nodes)
    (houtside : (FsCall.move node newParent).Outside s)
    (hr : ramfsMove s node newParent = some (r, s')) : ∃ T', s'.Represents T' := by
  cases node with
  | none =>
    obtain ⟨-, rfl⟩ : false = r ∧ s = s' := by simpa [ramfsMove] using hr
    exact ⟨T, h⟩
  | some n =>
    cases newParent with
    | none =>
      obtain ⟨-, rfl⟩ : false = r ∧ s = s' := by simpa [ramfsMove] using hr
      exact ⟨T, h⟩
    | some p =>
      have hn := hnode n rfl
      have hp := hparent p rfl
      by_cases hrefused : s.root = some n ∨ n = p ∨ s.children n = some p
      · rw [ramfsMove_refused hrefused] at hr
        obtain ⟨-, rfl⟩ : false = r ∧ s = s' := by simpa using hr
        exact ⟨T, h⟩
      · have hroot : n ≠ T.root := fun heq => hrefused (.inl (heq ▸ h.root))
        have hbelow : ¬ T.Below n p := by
          rw [← h.descends_iff hp]
          simp only [FsCall.Outside] at houtside
          tauto
        obtain ⟨s₁, hmove, h₁⟩ := ramfsMove_place h hn hp hroot hbelow
        obtain ⟨-, rfl⟩ : true = r ∧ s₁ = s' := by simpa [hmove] using hr
        exact ⟨_, h₁⟩

/-- `ramfs_delete` takes away nodes of the subtree only. -/
theorem ramfsDelete_keeps (h : s.Represents T) (hn : n ∈ T.nodes) {r : Bool}
    (hr : ramfsDelete fuel s (some n) = some (r, s')) :
    ∃ T', s'.Represents T' ∧ (∀ m ∈ T.nodes, ¬ T.Below n m → m ∈ T'.nodes) ∧
      ∀ m p, T'.Kid m p → T.Kid m p := by
  induction fuel generalizing s T n r s' with
  | zero => exact absurd hr (by simp [ramfsDelete])
  | succ fuel ih =>
    obtain ⟨child, r₁, s₁, hfirst, hchild, hrest⟩ | hremove := ramfsDelete_steps hr
    · have hkid := h.kid_of_children hn hfirst
      obtain ⟨T₁, h₁, hkeep₁, hkids₁⟩ := ih h (T.kids_mem n child hkid).2 hchild
      have hn₁ : n ∈ T₁.nodes := hkeep₁ n hn fun hbelow => T.acyclic hn (.tail' hbelow hkid)
      obtain ⟨T₂, h₂, hkeep₂, hkids₂⟩ := ih h₁ hn₁ hrest
      refine ⟨T₂, h₂, fun m hm hbelow => ?_, fun m p hm => hkids₁ m p (hkids₂ m p hm)⟩
      have hm₁ : m ∈ T₁.nodes := hkeep₁ m hm fun hm => hbelow (.tail hm hkid)
      exact hkeep₂ m hm₁ fun hm => hbelow (ReflTransGen.mono hkids₁ _ _ hm)
    · obtain ⟨rfl, -⟩ | ⟨m, hroot, hleaf, hm, h₁⟩ :=
        ramfsRemove_spec h (fun m hm => Option.some.inj hm ▸ hn) hremove
      · exact ⟨T, h, fun m hm _ => hm, fun m p hm => hm⟩
      · obtain rfl := Option.some.inj hm
        refine ⟨_, h₁, fun m hm hbelow => ⟨hm, ?_⟩, fun m p hm => List.mem_of_mem_erase hm⟩
        rintro rfl
        exact hbelow .refl

theorem ramfsDelete_spec (h : s.Represents T) {node : Option NodeId}
    (hnode : ∀ n, node = some n → n ∈ T.nodes) {r : Bool}
    (hr : ramfsDelete fuel s node = some (r, s')) : ∃ T', s'.Represents T' := by
  cases node with
  | none =>
    cases fuel with
    | zero => exact absurd hr (by simp [ramfsDelete])
    | succ fuel =>
      obtain ⟨-, rfl⟩ : false = r ∧ s = s' := by simpa [ramfsDelete] using hr
      exact ⟨T, h⟩
  | some n =>
    obtain ⟨T', h', -⟩ := ramfsDelete_keeps h (hnode n rfl) hr
    exact ⟨T', h'⟩

/-- `ramfs_copy` and its loop take no node away. -/
theorem ramfsCopy_keeps (fuel : ℕ) :
    (∀ {s s' : Ramfs} {T n p r}, s.Represents T → n ∈ T.nodes → p ∈ T.nodes →
      ramfsCopy fuel s (some n) (some p) = some (r, s') →
      ∃ T', s'.Represents T' ∧ T.nodes ⊆ T'.nodes) ∧
    ∀ {s s' : Ramfs} {T child copy}, s.Represents T → (∀ n, child = some n → n ∈ T.nodes) →
      copy ∈ T.nodes → copyChildren fuel s child copy = some s' →
      ∃ T', s'.Represents T' ∧ T.nodes ⊆ T'.nodes := by
  induction fuel with
  | zero => exact ⟨by simp [ramfsCopy], by simp [copyChildren]⟩
  | succ fuel ih =>
    obtain ⟨ih, ihLoop⟩ := ih
    constructor
    · intro s s' T n p r h hn hp hr
      obtain ⟨str, copy, s₁, hcreate, hrest⟩ := ramfsCopy_cases hr
      obtain ⟨rfl, h₁⟩ | ⟨q, hq, hroot, hbelow, -, rfl, h₁⟩ :=
        ramfsCreate_spec h (fun q hq => Option.some.inj hq ▸ hp) hcreate
      · obtain rfl | ⟨c, hc, -⟩ := hrest
        · exact ⟨T, h₁, subset_rfl⟩
        · exact absurd hc (by simp)
      · have hsub : T.nodes ⊆ (T.place q s.nextNode hq hroot hbelow).nodes := Set.subset_insert _ _
        have hcopy : s.nextNode ∈ (T.place q s.nextNode hq hroot hbelow).nodes :=
          Set.mem_insert _ _
        obtain rfl | ⟨c, hc, hloop | ⟨-, r₁, hdelete⟩ | ⟨source, rfl⟩⟩ := hrest
        · exact ⟨_, h₁, hsub⟩
        · obtain rfl := Option.some.inj hc
          obtain ⟨T', h', hsub'⟩ := ihLoop h₁
            (fun m hm => h₁.links.link_mem (k := .children) (hsub hn) hm) hcopy hloop
          exact ⟨T', h', hsub.trans hsub'⟩
        · -- the copy is taken away again
          obtain rfl := Option.some.inj hc
          have h₂ : ({ s₁ with
              allocs := s₁.allocs + 1
              data := Function.update s₁.data s.nextNode none } : Ramfs).Represents _ :=
            h₁.congr rfl rfl rfl rfl rfl rfl
          obtain ⟨T', h', hkeep, -⟩ := ramfsDelete_keeps h₂ hcopy hdelete
          refine ⟨T', h', fun m hm => hkeep m (hsub hm) fun hm' => ?_⟩
          have hleaf := T.place_kids_self hq hroot hbelow h.wired.nextNode_not_mem
          exact h.wired.nextNode_not_mem (OrderedTree.below_leaf hleaf hm' ▸ hm)
        · exact ⟨_, h₁.congr rfl rfl rfl rfl rfl rfl, hsub⟩
    · intro s s' T child copy h hchild hcopy hr
      obtain ⟨-, rfl⟩ | ⟨n, r, s₁, rfl, hcopyn, hrest⟩ := copyChildren_cases hr
      · exact ⟨T, h, subset_rfl⟩
      · have hn := hchild n rfl
        obtain ⟨T₁, h₁, hsub₁⟩ := ih h hn hcopy hcopyn
        obtain ⟨T₂, h₂, hsub₂⟩ := ihLoop h₁ (fun m hm => h₁.next_mem (hsub₁ hn) hm)
          (hsub₁ hcopy) hrest
        exact ⟨T₂, h₂, hsub₁.trans hsub₂⟩

theorem ramfsCopy_spec (h : s.Represents T) {node newParent : Option NodeId}
    (hnode : ∀ n, node = some n → n ∈ T.nodes) (hparent : ∀ p, newParent = some p → p ∈ T.nodes)
    {r : Option NodeId} (hr : ramfsCopy fuel s node newParent = some (r, s')) :
    ∃ T', s'.Represents T' := by
  by_cases hnull : node = none ∨ newParent = none
  · obtain rfl := ramfsCopy_of_null hnull hr
    exact ⟨T, h⟩
  · obtain ⟨hn, hp⟩ := not_or.mp hnull
    obtain ⟨n, rfl⟩ := Option.ne_none_iff_exists'.mp hn
    obtain ⟨p, rfl⟩ := Option.ne_none_iff_exists'.mp hp
    obtain ⟨T', h', -⟩ := (ramfsCopy_keeps fuel).1 h (hnode n rfl) (hparent p rfl) hr
    exact ⟨T', h'⟩

/-- `ramfs_init` -/
theorem ramfsInit_spec {fails : ℕ → Bool} (h : fails 0 = false) :
    ∃ T, (ramfsInit (Ramfs.blank fails)).Represents T := by
  have halloc : allocNode (Ramfs.blank fails) =
      (some 0, { Ramfs.blank fails with allocs := 1, nextNode := 1 }) := by
    simp [allocNode, Ramfs.blank, h]
  obtain ⟨name, -, hdup⟩ := strdup_cases
    { Ramfs.blank fails with allocs := 1, nextNode := 1, root := some 0 } rootName
  refine ⟨.single 0, ?_⟩
  simp only [ramfsInit, halloc, hdup]
  refine ⟨rfl, ⟨?_, rfl⟩, fun n p hkid => absurd hkid List.not_mem_nil, rfl, fun n => ?_,
    fun n _ => rfl⟩
  · rintro p rfl
    exact rfl
  · simp [Ramfs.Live, Ramfs.blank, initNode, OrderedTree.single]

/-- `ramfs_rename` and `ramfs_write` change no links. -/
theorem ramfsRename_spec (h : s.Represents T) {node : Option NodeId} {newName : CString} {r : Bool}
    (hr : ramfsRename s node newName = some (r, s')) : s'.Represents T := by
  obtain ⟨name, allocs, rfl⟩ := ramfsRename_frame hr
  exact h.congr rfl rfl rfl rfl rfl rfl

theorem ramfsWrite_spec (h : s.Represents T) (node : Option NodeId) (buffer : Machine.Mem)
    (size : ℕ) : (ramfsWrite s node buffer size).2.Represents T := by
  obtain ⟨sizes, data, bytes, length, nextBlock, allocs, heq⟩ := ramfsWrite_frame s node buffer size
  rw [heq]
  exact h.congr rfl rfl rfl rfl rfl rfl

/-! ### Runs of calls -/

/-- A call with a null pointer does nothing. -/
theorem FsCall.exec_null (hnull : none ∈ call.args) (hexec : call.exec fuel s = some s') :
    s' = s := by
  cases call with
  | create parent name type =>
    obtain rfl : parent = none := (List.mem_singleton.mp hnull).symm
    exact (Option.some.inj hexec).symm
  | mkdir parent name =>
    obtain rfl : parent = none := (List.mem_singleton.mp hnull).symm
    exact (Option.some.inj hexec).symm
  | write node buffer size =>
    obtain rfl : node = none := (List.mem_singleton.mp hnull).symm
    exact (Option.some.inj hexec).symm
  | rename node newName =>
    obtain rfl : node = none := (List.mem_singleton.mp hnull).symm
    exact (Option.some.inj hexec).symm
  | move node newParent =>
    have hmove : ramfsMove s node newParent = some (false, s) := by
      cases node with
      | none => rfl
      | some n =>
        obtain rfl : newParent = none := by simpa [args, eq_comm] using hnull
        rfl
    rw [exec, hmove] at hexec
    exact (Option.some.inj hexec).symm
  | copy node newParent =>
    obtain ⟨⟨r, s₁⟩, hr, rfl⟩ := Option.map_eq_some_iff.mp hexec
    exact ramfsCopy_of_null (by simpa [args, eq_comm] using hnull) hr
  | remove node =>
    obtain rfl : node = none := (List.mem_singleton.mp hnull).symm
    exact (Option.some.inj hexec).symm
  | delete node =>
    obtain rfl : node = none := (List.mem_singleton.mp hnull).symm
    obtain ⟨⟨r, s₁⟩, hr, rfl⟩ := Option.map_eq_some_iff.mp hexec
    cases fuel with
    | zero => exact absurd hr (by simp [ramfsDelete])
    | succ fuel =>
      obtain ⟨-, rfl⟩ : false = r ∧ s = s₁ := by simpa [ramfsDelete] using hr
      rfl

/-- **One call.**  Unless it is a move into the subtree of the node, a tree is left. -/
theorem Ramfs.Represents.exec (h : s.Represents T) (hlegal : call.Legal s)
    (houtside : call.Outside s) (hexec : call.exec fuel s = some s') : ∃ T', s'.Represents T' := by
  have harg : ∀ arg ∈ call.args, ∀ n, arg = some n → n ∈ T.nodes := fun arg harg n hn =>
    (h.live n).mp (hlegal arg harg n hn)
  have hcreate : ∀ {parent r name type}, (∀ p, parent = some p → p ∈ T.nodes) →
      ramfsCreate s parent name type = some (r, s') → ∃ T', s'.Represents T' := by
    intro parent r name type hparent hr
    obtain ⟨-, h'⟩ | ⟨p, hp, hroot, hbelow, -, -, h'⟩ := ramfsCreate_spec h hparent hr
    · exact ⟨T, h'⟩
    · exact ⟨_, h'⟩
  cases call with
  | create parent name type =>
    obtain ⟨⟨r, s₁⟩, hr, rfl⟩ := Option.map_eq_some_iff.mp hexec
    exact hcreate (harg parent (by simp [FsCall.args])) hr
  | mkdir parent name =>
    obtain ⟨⟨r, s₁⟩, hr, rfl⟩ := Option.map_eq_some_iff.mp hexec
    exact hcreate (harg parent (by simp [FsCall.args])) hr
  | write node buffer size =>
    obtain rfl := Option.some.inj hexec
    exact ⟨T, ramfsWrite_spec h node buffer size⟩
  | rename node newName =>
    obtain ⟨⟨r, s₁⟩, hr, rfl⟩ := Option.map_eq_some_iff.mp hexec
    exact ⟨T, ramfsRename_spec h hr⟩
  | move node newParent =>
    obtain ⟨⟨r, s₁⟩, hr, rfl⟩ := Option.map_eq_some_iff.mp hexec
    have hnode := harg node (by simp [FsCall.args])
    have hparent := harg newParent (by simp [FsCall.args])
    exact ramfsMove_spec h hnode hparent houtside hr
  | copy node newParent =>
    obtain ⟨⟨r, s₁⟩, hr, rfl⟩ := Option.map_eq_some_iff.mp hexec
    have hnode := harg node (by simp [FsCall.args])
    have hparent := harg newParent (by simp [FsCall.args])
    exact ramfsCopy_spec h hnode hparent hr
  | remove node =>
    obtain ⟨rfl, -⟩ | ⟨n, hroot, hleaf, -, h'⟩ :=
      ramfsRemove_spec h (harg node (by simp [FsCall.args])) hexec
    · exact ⟨T, h⟩
    · exact ⟨_, h'⟩
  | delete node =>
    obtain ⟨⟨r, s₁⟩, hr, rfl⟩ := Option.map_eq_some_iff.mp hexec
    exact ramfsDelete_spec h (harg node (by simp [FsCall.args])) hr

theorem Ramfs.Represents.run (h : s.Represents T)
    (hrun : ReflTransGen (Ramfs.Step fun s call => call.Legal s ∧ call.Outside s) s s') :
    ∃ T', s'.Represents T' := by
  induction hrun with
  | refl => exact ⟨T, h⟩
  | tail _ hstep ih =>
    obtain ⟨T₁, h₁⟩ := ih
    obtain ⟨call, fuel, ⟨hlegal, houtside⟩, hexec⟩ := hstep
    exact h₁.exec hlegal houtside hexec

/-- A move into the subtree of the node cuts the node off. -/
theorem Ramfs.Represents.not_isTree (h : s.Represents T) (hlegal : call.Legal s)
    (hinside : ¬ call.Outside s) (fuel : ℕ) :
    ∃ s', call.exec fuel s = some s' ∧ ¬ s'.IsTree := by
  cases call with
  | move node newParent =>
    cases node with
    | none => exact absurd trivial hinside
    | some n =>
      cases newParent with
      | none => exact absurd trivial hinside
      | some p =>
        simp only [FsCall.Outside, not_or, not_not] at hinside
        obtain ⟨hroot, hne, hfirst, hdesc⟩ := hinside
        have hn := (h.live n).mp (hlegal (some n) (by simp [FsCall.args]) n rfl)
        have hp := (h.live p).mp (hlegal (some p) (by simp [FsCall.args]) p rfl)
        have hroot' : n ≠ T.root := fun heq => hroot (heq ▸ h.root)
        have hbelow := (h.descends_iff hp).mp hdesc
        obtain ⟨children, next, hmove, hwired, -⟩ := h.wired.move hn hp hroot' hne hfirst
        refine ⟨_, congrArg (Option.map Prod.snd) hmove, fun htree => ?_⟩
        obtain ⟨r, hr, hpath⟩ := htree.path
        obtain rfl := Option.some.inj (h.root.symm.trans hr)
        obtain ⟨q, hq, -⟩ := hpath n ((h.live n).mpr hn)
        exact Links.place_below hbelow hwired.siblings hwired.next_root hroot' q hq
  | _ => exact absurd trivial hinside

/-- **The nodes stay a tree.**  From `ramfs_init` on, every run in which no move that is not
refused goes into the subtree of the node that is moved leaves a tree of the live nodes; such a
move leaves none. -/
theorem ramfs_tree {fails : ℕ → Bool} (hfails : fails 0 = false)
    (hrun : ReflTransGen (Ramfs.Step fun s call => call.Legal s ∧ call.Outside s)
      (ramfsInit (Ramfs.blank fails)) s) :
    s.IsTree ∧ ∀ call : FsCall, call.Legal s → ¬ call.Outside s →
      ∀ fuel, ∃ s', call.exec fuel s = some s' ∧ ¬ s'.IsTree := by
  obtain ⟨T₀, h₀⟩ := ramfsInit_spec hfails
  obtain ⟨T, h⟩ := h₀.run hrun
  constructor
  · exact h.isTree
  · intro call hlegal hinside fuel
    exact h.not_isTree hlegal hinside fuel

instance (s : Ramfs) (n : NodeId) : Decidable (s.Live n) :=
  inferInstanceAs (Decidable (_ ∧ _))

instance (s : Ramfs) (call : FsCall) : Decidable (call.Legal s) :=
  inferInstanceAs (Decidable (∀ arg ∈ call.args, ∀ n ∈ arg, s.Live n))

/-- Calls one after the other, as long as they are given live nodes and return. -/
def Ramfs.run (s : Ramfs) : List FsCall → Option Ramfs
  | [] => some s
  | call :: calls => if call.Legal s then (call.exec 0 s).bind fun s => s.run calls else none

theorem Ramfs.reflTransGen_of_run {ok : Ramfs → FsCall → Prop} {calls : List FsCall}
    (hok : ∀ call ∈ calls, ∀ s, call.Legal s → ok s call) (h : s.run calls = some s') :
    ReflTransGen (Ramfs.Step ok) s s' := by
  induction calls generalizing s with
  | nil => exact Option.some.inj h ▸ .refl
  | cons call calls ih =>
    simp only [Ramfs.run] at h
    by_cases hlegal : call.Legal s
    · rw [if_pos hlegal] at h
      obtain ⟨s₁, hexec, hrun⟩ := Option.bind_eq_some_iff.mp h
      refine .head ⟨call, 0, hok call List.mem_cons_self s hlegal, hexec⟩ ?_
      exact ih (fun c hc => hok c (List.mem_cons_of_mem call hc)) hrun
    · rw [if_neg hlegal] at h
      exact absurd h (Option.some_ne_none s').symm

/-- The name that is one of the letters `a` to `z`. -/
def letter (i : ℕ) : CString where
  bytes := [BitVec.ofNat 8 (97 + i % 26)]
  nonzero := by
    rw [List.mem_singleton]
    intro heq
    have hzero : 0 = (97 + i % 26) % 2 ^ 8 := congrArg BitVec.toNat heq
    omega

/-- A node right in the root lies in no subtree but its own and that of the root. -/
theorem Ramfs.not_descends_of_top {r : NodeId} (hparent : s.parent m = some r)
    (htop : s.parent r = none) (hm : m ≠ n) (hr : r ≠ n) : ¬ s.Descends n m := by
  intro hdesc
  obtain heq | ⟨p, hp, hdesc⟩ := ReflTransGen.cases_head hdesc
  · exact hm heq
  · obtain rfl : r = p := Option.some.inj (hparent.symm.trans hp)
    obtain heq | ⟨p, hp, -⟩ := ReflTransGen.cases_head hdesc
    · exact hr heq
    · exact absurd (hp.symm.trans htop) (Option.some_ne_none p)

/-- Nodes 1 and 2 with the names `a` and `b` in the root. -/
def sideBySide : Ramfs :=
  ((ramfsInit (Ramfs.blank fun _ => false)).run
    [.mkdir (some 0) ⟨[97], by decide⟩, .mkdir (some 0) ⟨[98], by decide⟩]).get (by decide)

theorem ramfs_tree_example :
    ∃ s, (FsCall.move (some 2) (some 1)).exec 0 sideBySide = some s ∧ s.IsTree := by
  have hrun : ReflTransGen (Ramfs.Step fun s call => call.Legal s ∧ call.Outside s)
      (ramfsInit (Ramfs.blank fun _ => false)) sideBySide := by
    apply Ramfs.reflTransGen_of_run _ (Option.some_get _).symm
    simp [FsCall.Outside]
  have hdesc : ¬ sideBySide.Descends 2 1 :=
    Ramfs.not_descends_of_top (show sideBySide.parent 1 = some 0 by decide) (by decide) (by decide)
      (by decide)
  obtain ⟨s, hexec⟩ : ∃ s, (FsCall.move (some 2) (some 1)).exec 0 sideBySide = some s :=
    Option.isSome_iff_exists.mp (by decide)
  have houtside : (FsCall.move (some 2) (some 1)).Outside sideBySide := Or.inr (.inr (.inr hdesc))
  have hstep := hrun.tail ⟨_, 0, ⟨by decide, houtside⟩, hexec⟩
  exact ⟨s, hexec, (ramfs_tree rfl hstep).1⟩

/-- Node 1 with the name `a` in the root, node 2 with the name `b` in it, and node 3 with the name
`c` in that; then `ramfs_move(a, c)`. -/
def cutOff : Ramfs :=
  ((ramfsInit (Ramfs.blank fun _ => false)).run
    [.mkdir (some 0) ⟨[97], by decide⟩, .mkdir (some 1) ⟨[98], by decide⟩,
      .mkdir (some 2) ⟨[99], by decide⟩, .move (some 1) (some 3)]).get (by decide)

/-- A move to a grandchild leaves a cycle that the root does not lead to. -/
theorem ramfs_tree_cut :
    ¬ ∀ s, ReflTransGen (Ramfs.Step fun s call => call.Legal s)
      (ramfsInit (Ramfs.blank fun _ => false)) s → s.IsTree := by
  intro h
  have htree : cutOff.IsTree :=
    h cutOff (Ramfs.reflTransGen_of_run (fun _ _ _ hlegal => hlegal) (Option.some_get _).symm)
  obtain ⟨r, hr, hpath⟩ := htree.path
  obtain rfl : 0 = r := Option.some.inj hr
  obtain ⟨p, hp, -⟩ := hpath 1 (by decide)
  cases p with
  | nil => exact absurd hp (by decide)
  | cons k p =>
    have hnull : follow cutOff.children cutOff.next 0 k = none := by
      cases k with
      | children => rfl
      | next => rfl
    rw [walk_cons, hnull] at hp
    exact absurd hp (Option.some_ne_none 1).symm

end Bethany
