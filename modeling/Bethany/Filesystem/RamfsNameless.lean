import Bethany.Filesystem.RamfsTypes

/-!
# Names when memory runs out

`ramfs_create` looks whether it has got memory for the node, but not whether `strdup` has got
memory for the name; `ramfs_rename` looks after it has put the result of `strdup` into the node.
A node without a name is one that the next `ramfs_find` in its directory stumbles over.

* `Ramfs.LinkedNamed`: every node that `root` leads to has a name; `Ramfs.AllNamed`: the invariant
  behind it;
* `createStrdups`, `renameStrdups`, `copyStrdups`, `FsCall.strdups`: the calls of `kmalloc`, by
  number, in which a call asks for memory for a name;
* `FsCall.Clean`: what a `ramfs_create` or a `ramfs_rename` that gets no memory should do;
* `ramfsCreate_clean_iff`, `ramfsRename_clean_iff`: when it does;
* `ramfs_names`: runs that have memory for all names.
-/

namespace Bethany

open LinkedList Relation Runs Walk

variable {s s' : Ramfs} {n p k : NodeId} {parent node newParent r : Option NodeId}
  {name : CString} {type : FsNodeType} {fuel : ℕ} {call : FsCall}

/-- Every node that `root` leads to has a name. -/
def Ramfs.LinkedNamed (s : Ramfs) : Prop :=
  ∀ r path n, s.root = some r → walk (follow s.children s.next) r path = some n →
    (s.name n).isSome

/-- Every node has a name, and all links lead to nodes. -/
structure Ramfs.AllNamed (s : Ramfs) : Prop where
  named : ∀ n < s.nextNode, (s.name n).isSome
  root : ∀ n, s.root = some n → n < s.nextNode
  children : ∀ n m, s.children n = some m → m < s.nextNode
  next : ∀ n m, s.next n = some m → m < s.nextNode

theorem Ramfs.AllNamed.linkedNamed (h : s.AllNamed) : s.LinkedNamed := by
  intro r path n hr hwalk
  refine h.named n (walk_mem (S := {m | m < s.nextNode}) (fun a _ k m hm => ?_) (h.root r hr) hwalk)
  cases k with
  | children => exact h.children a m hm
  | next => exact h.next a m hm

/-- A change to the data and the allocations leaves the names as they are. -/
theorem Ramfs.AllNamed.congr (h : s.AllNamed) (hroot : s'.root = s.root) (hname : s'.name = s.name)
    (hnode : s'.nextNode = s.nextNode) (hchildren : s'.children = s.children)
    (hnext : s'.next = s.next) : s'.AllNamed := by
  obtain ⟨h₁, h₂, h₃, h₄⟩ := h
  constructor <;> simpa [hroot, hname, hnode, hchildren, hnext]

/-! ### Calls of `strdup` -/

/-- `ramfs_create` gets as far as `strdup`. -/
def CreateReached (s : Ramfs) (p : NodeId) (name : CString) : Prop :=
  s.type p = .directory ∧ ramfsFind s (some p) name = some none ∧ s.fails s.allocs = false

instance (s : Ramfs) (p : NodeId) (name : CString) : Decidable (CreateReached s p name) :=
  inferInstanceAs (Decidable (_ ∧ _ ∧ _))

/-- The `kmalloc` of `strdup` in `ramfs_create`, if it gets there. -/
def createStrdups (s : Ramfs) (parent : Option NodeId) (name : CString) : List ℕ :=
  match parent with
  | none => []
  | some p => if CreateReached s p name then [s.allocs + 1] else []

/-- The `kmalloc` of `strdup` in `ramfs_rename`, if it gets there. -/
def renameStrdups (s : Ramfs) (node : Option NodeId) (newName : CString) : List ℕ :=
  match node with
  | none => []
  | some n => if ramfsFind s (s.parent n) newName = some none then [s.allocs] else []

mutual

/-- The `kmalloc` calls of `strdup` in `ramfs_copy`: that for the name of the copy, and those for
the copies of the children. -/
def copyStrdups : ℕ → Ramfs → (node newParent : Option NodeId) → List ℕ
  | fuel + 1, s, some node, some newParent =>
    match s.name node with
    | none => []
    | some name =>
      match ramfsFind s (some newParent) name with
      | none => []
      | some found =>
        let name := if found.isSome then copyName name else name
        createStrdups s (some newParent) name ++
          match ramfsCreate s (some newParent) name (s.type node) with
          | some (some copy, s) =>
            if s.type node = .directory then copyChildrenStrdups fuel s (s.children node) copy
            else []
          | _ => []
  | _, _, _, _ => []

def copyChildrenStrdups : ℕ → Ramfs → (child : Option NodeId) → (copy : NodeId) → List ℕ
  | fuel + 1, s, some child, copy =>
    copyStrdups fuel s (some child) (some copy) ++
      match ramfsCopy fuel s (some child) (some copy) with
      | none => []
      | some (_, s) => copyChildrenStrdups fuel s (s.next child) copy
  | _, _, _, _ => []

end

/-- The `kmalloc` calls of `strdup` in a call. -/
def FsCall.strdups (fuel : ℕ) (s : Ramfs) : FsCall → List ℕ
  | .create parent name _ => createStrdups s parent name
  | .mkdir parent name => createStrdups s parent name
  | .rename node newName => renameStrdups s node newName
  | .copy node newParent => copyStrdups fuel s node newParent
  | _ => []

/-- There is memory for all names that the call copies. -/
def FsCall.NamesStored (fuel : ℕ) (s : Ramfs) (call : FsCall) : Prop :=
  ∀ k ∈ call.strdups fuel s, s.fails k = false

instance (fuel : ℕ) (s : Ramfs) (call : FsCall) : Decidable (call.NamesStored fuel s) :=
  inferInstanceAs (Decidable (∀ k ∈ call.strdups fuel s, s.fails k = false))

/-! ### `ramfs_create` -/

/-- A `ramfs_create` that gets as far as `strdup` links the node. -/
theorem ramfsCreate_reached (h : CreateReached s p name) (type : FsNodeType) :
    ramfsCreate s (some p) name type =
      (appendChild (initNode { s with allocs := s.allocs + 2, nextNode := s.nextNode + 1 }
        s.nextNode (if s.fails (s.allocs + 1) then none else some name) type (some p)) p
          s.nextNode).map fun s' => (some s.nextNode, s') := by
  obtain ⟨hdir, hfind, halloc⟩ := h
  simp [ramfsCreate_directory hdir, hfind, halloc]

/-- One that does not returns the null pointer. -/
theorem ramfsCreate_unreached (h : ¬ CreateReached s p name)
    (hr : ramfsCreate s (some p) name type = some (r, s')) :
    r = none ∧ ∃ allocs, s' = { s with allocs := allocs } := by
  obtain hnone | ⟨q, str, hq, hdir, hfind, -, rfl, -⟩ := ramfsCreate_cases hr
  · exact hnone
  · obtain rfl := Option.some.inj hq
    have halloc : s.fails s.allocs = true := by simpa [CreateReached, hdir, hfind] using h
    simp [ramfsCreate_directory hdir, hfind, halloc] at hr

/-- A write of a node, or of the null pointer, to a pointer to a first child. -/
theorem Ramfs.AllNamed.setChildren (h : s.AllNamed) {x : Option NodeId}
    (hx : ∀ m, x = some m → m < s.nextNode) (b : NodeId) :
    Ramfs.AllNamed { s with children := Function.update s.children b x } := by
  refine ⟨h.named, h.root, fun a m hm => ?_, h.next⟩
  by_cases hab : a = b
  · exact hx m (by simpa [hab] using hm)
  · exact h.children a m (by simpa [hab] using hm)

/-- A write of a node, or of the null pointer, to a pointer to a sibling. -/
theorem Ramfs.AllNamed.setNext (h : s.AllNamed) {x : Option NodeId}
    (hx : ∀ m, x = some m → m < s.nextNode) (b : NodeId) :
    Ramfs.AllNamed { s with next := Function.update s.next b x } := by
  refine ⟨h.named, h.root, h.children, fun a m hm => ?_⟩
  by_cases hab : a = b
  · exact hx m (by simpa [hab] using hm)
  · exact h.next a m (by simpa [hab] using hm)

theorem Ramfs.AllNamed.append {s : Ramfs} (h : s.AllNamed) (hn : n < s.nextNode)
    (happend : appendChild s p n = some s') : s'.AllNamed := by
  have hnode : ∀ m, some n = some m → m < s.nextNode := by
    rintro m ⟨⟩
    exact hn
  obtain ⟨-, rfl⟩ | ⟨-, b, rfl⟩ := appendChild_steps happend
  · exact h.setChildren hnode p
  · exact h.setNext hnode b

theorem Ramfs.AllNamed.unlink {c : Bool} (h : s.AllNamed)
    (hunlink : unlinkChild s p n = some (c, s')) : s'.AllNamed := by
  obtain ⟨-, -, rfl⟩ | ⟨-, ⟨b, -, -, rfl⟩ | ⟨-, -, rfl⟩⟩ := unlinkChild_steps hunlink
  · exact h.setChildren (h.next n) p
  · exact h.setNext (h.next n) b
  · exact h

/-- A new node gets a name, when there is memory for it. -/
theorem Ramfs.AllNamed.create (h : s.AllNamed)
    (hstored : ∀ k ∈ createStrdups s parent name, s.fails k = false)
    (hr : ramfsCreate s parent name type = some (r, s')) : s'.AllNamed := by
  cases parent with
  | none =>
    obtain ⟨-, rfl⟩ : none = r ∧ s = s' := by simpa [ramfsCreate] using hr
    exact h
  | some p =>
    by_cases hreached : CreateReached s p name
    · have hname : s.fails (s.allocs + 1) = false := hstored _ (by simp [createStrdups, hreached])
      simp only [ramfsCreate_reached hreached, hname] at hr
      obtain ⟨s₁, happend, hr⟩ := Option.map_eq_some_iff.mp hr
      obtain ⟨-, rfl⟩ := Prod.mk.inj hr
      refine Ramfs.AllNamed.append ?_ (Nat.lt_succ_self _) happend
      constructor
      · intro m hm
        by_cases hnew : m = s.nextNode
        · simp [initNode, hnew]
        · have hlt : m < s.nextNode := Nat.lt_of_le_of_ne (Nat.le_of_lt_succ hm) hnew
          simpa [initNode, hnew] using h.named m hlt
      · intro m hm
        exact Nat.lt_succ_of_lt (h.root m hm)
      · intro a m hm
        by_cases hnew : a = s.nextNode
        · simp [initNode, hnew] at hm
        · exact Nat.lt_succ_of_lt (h.children a m (by simpa [initNode, hnew] using hm))
      · intro a m hm
        by_cases hnew : a = s.nextNode
        · simp [initNode, hnew] at hm
        · exact Nat.lt_succ_of_lt (h.next a m (by simpa [initNode, hnew] using hm))
    · obtain ⟨-, allocs, rfl⟩ := ramfsCreate_unreached hreached hr
      exact h.congr rfl rfl rfl rfl rfl

/-- When the node or its name cannot be had, the call returns the null pointer and nothing
changes. -/
def CreateClean (s : Ramfs) (parent : Option NodeId) (name : CString) (type : FsNodeType) : Prop :=
  ∀ r s', ramfsCreate s parent name type = some (r, s') →
    s.fails s.allocs = true ∨ s.fails (s.allocs + 1) = true →
    r = none ∧ ∃ allocs, s' = { s with allocs := allocs }

/-- **`ramfs_create`** handles failures exactly if it does not fail in `strdup`. -/
theorem ramfsCreate_clean_iff (hreturns : ∃ r s', ramfsCreate s parent name type = some (r, s')) :
    CreateClean s parent name type ↔ ∀ k ∈ createStrdups s parent name, s.fails k = false := by
  obtain ⟨r, s', hr⟩ := hreturns
  cases parent with
  | none =>
    simp only [createStrdups, List.not_mem_nil, false_implies, implies_true, iff_true]
    intro r' s'' hr' _
    obtain ⟨rfl, rfl⟩ : none = r' ∧ s = s'' := by simpa [ramfsCreate] using hr'
    exact ⟨rfl, s.allocs, rfl⟩
  | some p =>
    by_cases hreached : CreateReached s p name
    · have hmem : ∀ k, k ∈ createStrdups s (some p) name ↔ k = s.allocs + 1 := by
        simp [createStrdups, hreached]
      simp only [hmem, forall_eq]
      constructor
      · intro hclean
        by_contra hfails
        have hnull := (hclean r s' hr (.inr (by simpa using hfails))).1
        rw [ramfsCreate_reached hreached, hnull] at hr
        simp at hr
      · intro hname r' s'' _ hfails
        simp [hreached.2.2, hname] at hfails
    · have hnone : createStrdups s (some p) name = [] := by simp [createStrdups, hreached]
      simp only [hnone, List.not_mem_nil, false_implies, implies_true, iff_true]
      intro r' s'' hr' _
      exact ramfsCreate_unreached hreached hr'

/-! ### `ramfs_rename` -/

theorem ramfsRename_reached {newName : CString}
    (h : ramfsFind s (s.parent n) newName = some none) :
    ramfsRename s (some n) newName = some (!s.fails s.allocs, { s with
      allocs := s.allocs + 1
      name := Function.update s.name n (if s.fails s.allocs then none else some newName) }) := by
  cases hfails : s.fails s.allocs <;> simp [ramfsRename, h, strdup, hfails]

theorem ramfsRename_unreached {newName : CString} {c : Bool}
    (h : ramfsFind s (s.parent n) newName ≠ some none)
    (hr : ramfsRename s (some n) newName = some (c, s')) : c = false ∧ s' = s := by
  simp only [ramfsRename, Option.bind_eq_bind, Option.bind_eq_some_iff, Option.pure_def] at hr
  obtain ⟨found, hfind, hr⟩ := hr
  cases found with
  | none => exact absurd hfind h
  | some m =>
    obtain ⟨rfl, rfl⟩ : false = c ∧ s = s' := by simpa using hr
    exact ⟨rfl, rfl⟩

/-- When the call returns false all names are as they were. -/
def RenameClean (s : Ramfs) (node : Option NodeId) (newName : CString) : Prop :=
  ∀ s', ramfsRename s node newName = some (false, s') → s'.name = s.name

theorem renameClean_of_stored {newName : CString}
    (hstored : ∀ k ∈ renameStrdups s node newName, s.fails k = false) :
    RenameClean s node newName := by
  intro s' hr
  cases node with
  | none =>
    obtain rfl : s = s' := by simpa [ramfsRename] using hr
    rfl
  | some n =>
    by_cases hreached : ramfsFind s (s.parent n) newName = some none
    · have hname : s.fails s.allocs = false := hstored _ (by simp [renameStrdups, hreached])
      simp [ramfsRename_reached hreached, hname] at hr
    · rw [(ramfsRename_unreached hreached hr).2]

/-- **`ramfs_rename`** of a node with a name handles failures exactly if it does not fail in
`strdup`. -/
theorem ramfsRename_clean_iff {newName : CString} (hname : (s.name n).isSome) :
    RenameClean s (some n) newName ↔
      ∀ k ∈ renameStrdups s (some n) newName, s.fails k = false := by
  refine ⟨fun hclean k hk => ?_, renameClean_of_stored⟩
  have hreached : ramfsFind s (s.parent n) newName = some none := by
    by_contra hreached
    simp [renameStrdups, hreached] at hk
  obtain rfl : k = s.allocs := by simpa [renameStrdups, hreached] using hk
  by_contra hfails
  have hr := ramfsRename_reached hreached
  simp only [Bool.not_eq_false] at hfails
  rw [hfails] at hr
  -- the name has been lost
  have hlost : Function.update s.name n none n = s.name n := congrFun (hclean _ hr) n
  rw [Function.update_self] at hlost
  simp [← hlost] at hname

theorem Ramfs.AllNamed.rename {newName : CString} {c : Bool} (h : s.AllNamed)
    (hstored : ∀ k ∈ renameStrdups s node newName, s.fails k = false)
    (hr : ramfsRename s node newName = some (c, s')) : s'.AllNamed := by
  cases node with
  | none =>
    obtain ⟨-, rfl⟩ : false = c ∧ s = s' := by simpa [ramfsRename] using hr
    exact h
  | some n =>
    by_cases hreached : ramfsFind s (s.parent n) newName = some none
    · have hname : s.fails s.allocs = false := hstored _ (by simp [renameStrdups, hreached])
      rw [ramfsRename_reached hreached, hname] at hr
      obtain ⟨-, rfl⟩ := Prod.mk.inj (Option.some.inj hr)
      refine ⟨fun m hm => ?_, h.root, h.children, h.next⟩
      by_cases hmn : m = n
      · simp [hmn]
      · simpa [hmn] using h.named m hm
    · obtain ⟨-, rfl⟩ := ramfsRename_unreached hreached hr
      exact h

/-! ### The other calls -/

theorem Ramfs.AllNamed.remove (h : s.AllNamed) (hr : ramfsRemove s node = some s') :
    s'.AllNamed := by
  obtain rfl | ⟨n, p, c, s₁, -, hunlink, rfl⟩ := ramfsRemove_steps hr
  · exact h
  · exact (h.unlink hunlink).congr rfl rfl rfl rfl rfl

theorem Ramfs.AllNamed.delete {c : Bool} (h : s.AllNamed)
    (hr : ramfsDelete fuel s node = some (c, s')) : s'.AllNamed :=
  ramfsDelete_of_remove (R := fun s s' => s.AllNamed → s'.AllNamed) (fun _ h => h)
    (fun h₁ h₂ h => h₂ (h₁ h)) (fun hr h => h.remove hr) hr h

/-- A child that a loop meets is a node. -/
theorem Ramfs.AllNamed.met_lt (h : s.AllNamed) (hmet : Met s.next (s.children p) n) :
    n < s.nextNode := by
  obtain ⟨first, hfirst, hpath⟩ := hmet
  obtain rfl | ⟨b, -, hb⟩ := hpath.cases_tail
  · exact h.children p n hfirst
  · exact h.next b n hb

theorem Ramfs.AllNamed.move {c : Bool} (h : s.AllNamed)
    (hr : ramfsMove s node newParent = some (c, s')) : s'.AllNamed := by
  cases node with
  | none =>
    obtain ⟨-, rfl⟩ : false = c ∧ s = s' := by simpa [ramfsMove] using hr
    exact h
  | some n =>
    cases newParent with
    | none =>
      obtain ⟨-, rfl⟩ : false = c ∧ s = s' := by simpa [ramfsMove] using hr
      exact h
    | some p =>
      obtain ⟨-, rfl, -⟩ | ⟨-, -, -, -, q, s₁, s₂, -, hunlink, happend, rfl⟩ := ramfsMove_steps hr
      · exact h
      · obtain ⟨hshrinks, hmet⟩ := unlinkChild_shrinks hunlink
        have hn : n < s₁.nextNode := by
          rw [hshrinks.nextNode]
          exact h.met_lt (hmet.mp rfl)
        have h₁ := (h.unlink hunlink).setNext (x := none) (by simp) n
        exact (h₁.append hn happend).congr rfl rfl rfl rfl rfl

theorem ramfsCreate_fails (hr : ramfsCreate s parent name type = some (r, s')) :
    s'.fails = s.fails := by
  obtain ⟨-, allocs, rfl⟩ | ⟨p, str, rfl, -, -, -, -, happend⟩ := ramfsCreate_cases hr
  · rfl
  · obtain ⟨children, next, rfl⟩ := appendChild_frame happend
    rfl

/-- `ramfs_copy` names all its nodes, when there is memory for all names. -/
theorem Ramfs.AllNamed.copy (fuel : ℕ) :
    (∀ {s s' : Ramfs} {node newParent r}, s.AllNamed →
      (∀ k ∈ copyStrdups fuel s node newParent, s.fails k = false) →
      ramfsCopy fuel s node newParent = some (r, s') → s'.AllNamed ∧ s'.fails = s.fails) ∧
    ∀ {s s' : Ramfs} {child copy}, s.AllNamed →
      (∀ k ∈ copyChildrenStrdups fuel s child copy, s.fails k = false) →
      copyChildren fuel s child copy = some s' → s'.AllNamed ∧ s'.fails = s.fails := by
  induction fuel with
  | zero => exact ⟨by simp [ramfsCopy], by simp [copyChildren]⟩
  | succ fuel ih =>
    obtain ⟨ih, ihLoop⟩ := ih
    constructor
    · intro s s' node newParent r h hstored hr
      by_cases hnull : node = none ∨ newParent = none
      · rw [ramfsCopy_of_null hnull hr]
        exact ⟨h, rfl⟩
      · obtain ⟨hn, hp⟩ := not_or.mp hnull
        obtain ⟨n, rfl⟩ := Option.ne_none_iff_exists'.mp hn
        obtain ⟨p, rfl⟩ := Option.ne_none_iff_exists'.mp hp
        obtain ⟨name, found, copy, s₁, hname, hfind, hcreate, hrest⟩ := ramfsCopy_steps hr
        simp only [copyStrdups, hname, hfind, hcreate, List.mem_append] at hstored
        have h₁ := h.create (fun k hk => hstored k (.inl hk)) hcreate
        have hfails := ramfsCreate_fails hcreate
        obtain rfl | ⟨c, rfl, ⟨hdir, hloop⟩ | ⟨-, r₁, hdelete⟩ | ⟨source, rfl⟩⟩ := hrest
        · exact ⟨h₁, hfails⟩
        · simp only [hdir, if_true] at hstored
          obtain ⟨h', hfails'⟩ := ihLoop h₁ (fun k hk => hfails ▸ hstored k (.inr hk)) hloop
          exact ⟨h', hfails'.trans hfails⟩
        · have h₂ : Ramfs.AllNamed { s₁ with
              allocs := s₁.allocs + 1
              data := Function.update s₁.data c none } := h₁.congr rfl rfl rfl rfl rfl
          exact ⟨h₂.delete hdelete, (ramfsDelete_relinked hdelete).fails.trans hfails⟩
        · exact ⟨h₁.congr rfl rfl rfl rfl rfl, hfails⟩
    · intro s s' child copy h hstored hr
      obtain ⟨-, rfl⟩ | ⟨n, r, s₁, rfl, hcopy, hrest⟩ := copyChildren_cases hr
      · exact ⟨h, rfl⟩
      · simp only [copyChildrenStrdups, hcopy, List.mem_append] at hstored
        obtain ⟨h₁, hfails⟩ := ih h (fun k hk => hstored k (.inl hk)) hcopy
        obtain ⟨h', hfails'⟩ := ihLoop h₁ (fun k hk => hfails ▸ hstored k (.inr hk)) hrest
        exact ⟨h', hfails'.trans hfails⟩

/-! ### Runs -/

/-- What a call that gets no memory should do. -/
def FsCall.Clean (s : Ramfs) : FsCall → Prop
  | .create parent name type => CreateClean s parent name type
  | .mkdir parent name => CreateClean s parent name .directory
  | .rename node newName => RenameClean s node newName
  | _ => True

theorem createClean_of_stored (hstored : ∀ k ∈ createStrdups s parent name, s.fails k = false) :
    CreateClean s parent name type := by
  intro r s' hr
  exact (ramfsCreate_clean_iff ⟨r, s', hr⟩).mpr hstored r s' hr

/-- **One call** that has memory for all names. -/
theorem Ramfs.AllNamed.exec (h : s.AllNamed) (hstored : call.NamesStored fuel s)
    (hexec : call.exec fuel s = some s') : s'.AllNamed ∧ call.Clean s := by
  cases call with
  | create parent name type =>
    obtain ⟨⟨r, s₁⟩, hr, rfl⟩ := Option.map_eq_some_iff.mp hexec
    exact ⟨h.create hstored hr, createClean_of_stored hstored⟩
  | mkdir parent name =>
    obtain ⟨⟨r, s₁⟩, hr, rfl⟩ := Option.map_eq_some_iff.mp hexec
    exact ⟨h.create hstored hr, createClean_of_stored hstored⟩
  | write node buffer size =>
    obtain rfl := Option.some.inj hexec
    obtain ⟨sizes, data, bytes, length, nextBlock, allocs, heq⟩ :=
      ramfsWrite_frame s node buffer size
    rw [heq]
    exact ⟨h.congr rfl rfl rfl rfl rfl, trivial⟩
  | rename node newName =>
    obtain ⟨⟨r, s₁⟩, hr, rfl⟩ := Option.map_eq_some_iff.mp hexec
    exact ⟨h.rename hstored hr, renameClean_of_stored hstored⟩
  | move node newParent =>
    obtain ⟨⟨r, s₁⟩, hr, rfl⟩ := Option.map_eq_some_iff.mp hexec
    exact ⟨h.move hr, trivial⟩
  | copy node newParent =>
    obtain ⟨⟨r, s₁⟩, hr, rfl⟩ := Option.map_eq_some_iff.mp hexec
    exact ⟨((Ramfs.AllNamed.copy fuel).1 h hstored hr).1, trivial⟩
  | remove node => exact ⟨h.remove hexec, trivial⟩
  | delete node =>
    obtain ⟨⟨r, s₁⟩, hr, rfl⟩ := Option.map_eq_some_iff.mp hexec
    exact ⟨h.delete hr, trivial⟩

theorem ramfsInit_allNamed {fails : ℕ → Bool} (hnode : fails 0 = false) (hname : fails 1 = false) :
    (ramfsInit (Ramfs.blank fails)).AllNamed := by
  have hinit : ramfsInit (Ramfs.blank fails) =
      initNode { Ramfs.blank fails with allocs := 2, nextNode := 1, root := some 0 } 0
        (some rootName) .directory none := by
    simp [ramfsInit, allocNode, strdup, Ramfs.blank, hnode, hname]
  rw [hinit]
  constructor
  · intro n hn
    obtain rfl : n = 0 := Nat.lt_one_iff.mp hn
    simp [initNode]
  · intro n hn
    obtain rfl : 0 = n := Option.some.inj hn
    exact Nat.zero_lt_one
  · intro n m hm
    by_cases hn : n = 0 <;> simp [initNode, Ramfs.blank, hn] at hm
  · intro n m hm
    by_cases hn : n = 0 <;> simp [initNode, Ramfs.blank, hn] at hm

/-- **Every linked node has a name** after a `ramfs_init` that has got its memory, and in every
state of a run that has memory for all names; and each `ramfs_create` and `ramfs_rename` of the
run that gets no memory leaves things as they were. -/
theorem ramfs_names {fails : ℕ → Bool} (hnode : fails 0 = false) (hname : fails 1 = false)
    (events : List (FsCall × ℕ))
    (hstored : Along Ramfs.after (fun s event _ => event.1.NamesStored event.2 s)
      (ramfsInit (Ramfs.blank fails)) events) :
    (ramfsInit (Ramfs.blank fails)).LinkedNamed ∧
      Along Ramfs.after (fun s event s' => s'.LinkedNamed ∧ event.1.Clean s)
        (ramfsInit (Ramfs.blank fails)) events := by
  have h₀ := ramfsInit_allNamed hnode hname
  refine ⟨h₀.linkedNamed, along_of_invariant Ramfs.AllNamed h₀ ?_ hstored⟩
  intro s event s' h hexec hevent
  obtain ⟨h', hclean⟩ := h.exec hevent hexec
  exact ⟨⟨h'.linkedNamed, hclean⟩, h'⟩

/-- A directory in the root, a file in it that there is no memory for, and a copy of the directory
next to it. -/
theorem ramfs_names_example :
    Along Ramfs.after (fun s event s' => s'.LinkedNamed ∧ event.1.Clean s)
      (ramfsInit (Ramfs.blank fun k => k = 4))
      [(.mkdir (some 0) (letter 0), 0), (.create (some 1) (letter 1) .file, 0),
        (.copy (some 1) (some 0), 2)] := by
  refine (ramfs_names rfl rfl _ ?_).2
  rintro _ ⟨⟩
  refine ⟨by decide, ?_⟩
  rintro _ ⟨⟩
  refine ⟨by decide, ?_⟩
  refine fun s _ => ⟨?_, trivial⟩
  beta_reduce
  decide +kernel

/-- The calls that store names. -/
def FsCall.StoresName : FsCall → Prop
  | .create .. | .mkdir .. | .rename .. | .copy .. => True
  | _ => False

/-- A file that there is memory for, but not for its name. -/
def withoutName : Ramfs :=
  ((ramfsInit (Ramfs.blank fun k => k = 3)).run [.create (some 0) (letter 5) .file]).get (by decide)

/-- A node that `root` leads to can be without a name. -/
theorem ramfs_names_lost :
    ¬ ∀ fails : ℕ → Bool, fails 0 = false → fails 1 = false → ∀ s,
      ReflTransGen (Ramfs.Step fun s call => call.Legal s ∧ call.StoresName)
        (ramfsInit (Ramfs.blank fails)) s → s.LinkedNamed := by
  intro h
  have hrun : ReflTransGen (Ramfs.Step fun s call => call.Legal s ∧ call.StoresName)
      (ramfsInit (Ramfs.blank fun k => k = 3)) withoutName := by
    apply Ramfs.reflTransGen_of_run _ (Option.some_get _).symm
    simp [FsCall.StoresName]
  have hnamed : withoutName.LinkedNamed := h _ rfl rfl withoutName hrun
  exact absurd (hnamed 0 [.children] 1 (by decide) (by decide)) (by decide)

end Bethany
