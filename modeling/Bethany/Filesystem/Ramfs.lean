import Bethany.Library.LinkedList
import Bethany.String

/-!
# The RAM file system

`ramfs.c` keeps a tree of nodes in the kernel heap.  A node points to its parent, to its first
child and to its next sibling.  `kfree` does nothing and `kmalloc` never returns memory twice,
so nodes and data blocks are numbered in the order of their allocation.

* the state: `Ramfs`, with the fields of all nodes;
* allocation: `allocNode`, `allocBlock`, `strdup`;
* the source: `ramfsInit`, `ramfsFind`, `ramfsCreate`, `ramfsRemove`, `ramfsRead`, `ramfsWrite`,
  `ramfsRename`, `ramfsMove`, `ramfsCopy`, `ramfsDelete`.

The result `none` is a call that does not return: a loop that does not end, or an access through
a null pointer.
-/

namespace Bethany

open Machine LinkedList

/-- A node, by the order of allocation. -/
abbrev NodeId := ℕ

/-- A data block, by the order of allocation. -/
abbrev BlockId := ℕ

/-- `fs_node_type_t` -/
inductive FsNodeType
  | file
  | directory
  deriving DecidableEq

/-- The nodes and data blocks in memory, and `root`.  `length` is the size that a data block has
been allocated with.  `fails` gives the calls of `kmalloc` that fail, by their number; `freed` the
nodes that `kfree` has been called for. -/
structure Ramfs where
  root : Option NodeId
  name : NodeId → Option CString
  size : NodeId → ℕ
  data : NodeId → Option BlockId
  type : NodeId → FsNodeType
  parent : NodeId → Option NodeId
  children : NodeId → Option NodeId
  next : NodeId → Option NodeId
  bytes : BlockId → Mem
  length : BlockId → ℕ
  nextNode : NodeId
  nextBlock : BlockId
  freed : NodeId → Bool
  allocs : ℕ
  fails : ℕ → Bool

variable (s : Ramfs)

/-- No list of different nodes is longer than the number of nodes ever allocated, so a loop
along one has at most this many rounds. -/
def Ramfs.fuel : ℕ := s.nextNode + 1

/-! ### Allocation -/

/-- `kmalloc(sizeof(ramfs_node_t))` -/
def allocNode : Option NodeId × Ramfs :=
  let failed := s.fails s.allocs
  let s := { s with allocs := s.allocs + 1 }
  if failed then (none, s) else (some s.nextNode, { s with nextNode := s.nextNode + 1 })

/-- `kmalloc(size)` for the data of a file. -/
def allocBlock (size : ℕ) : Option BlockId × Ramfs :=
  if size = 0 then (none, s)
  else
    let failed := s.fails s.allocs
    let s := { s with allocs := s.allocs + 1 }
    if failed then (none, s)
    else
      (some s.nextBlock, { s with
        nextBlock := s.nextBlock + 1
        length := Function.update s.length s.nextBlock size })

/-- `strdup` -/
def strdup (str : CString) : Option CString × Ramfs :=
  let failed := s.fails s.allocs
  let s := { s with allocs := s.allocs + 1 }
  if failed then (none, s) else (some str, s)

/-- The fields of a new node, as `ramfs_init` and `ramfs_create` set them. -/
def initNode (node : NodeId) (name : Option CString) (type : FsNodeType)
    (parent : Option NodeId) : Ramfs :=
  { s with
    name := Function.update s.name node name
    type := Function.update s.type node type
    parent := Function.update s.parent node parent
    children := Function.update s.children node none
    next := Function.update s.next node none
    data := Function.update s.data node none
    size := Function.update s.size node 0 }

theorem allocNode_cases :
    allocNode s = (none, { s with allocs := s.allocs + 1 }) ∨
    allocNode s =
      (some s.nextNode, { s with allocs := s.allocs + 1, nextNode := s.nextNode + 1 }) := by
  unfold allocNode
  by_cases hfail : s.fails s.allocs = true
  · left
    simp [hfail]
  · right
    simp [hfail]

theorem allocBlock_cases (size : ℕ) : ∃ allocs, s.allocs ≤ allocs ∧
    (allocBlock s size = (none, { s with allocs := allocs }) ∨
    size ≠ 0 ∧ allocBlock s size =
      (some s.nextBlock, { s with
        allocs := allocs
        nextBlock := s.nextBlock + 1
        length := Function.update s.length s.nextBlock size })) := by
  unfold allocBlock
  by_cases hzero : size = 0
  · refine ⟨s.allocs, le_rfl, .inl ?_⟩
    rw [if_pos hzero]
  · refine ⟨s.allocs + 1, Nat.le_succ _, ?_⟩
    rw [if_neg hzero]
    by_cases hfail : s.fails s.allocs = true
    · left
      simp [hfail]
    · right
      simp [hfail, hzero]

theorem strdup_cases (str : CString) : ∃ copy, (copy = some str ∨ copy = none) ∧
    strdup s str = (copy, { s with allocs := s.allocs + 1 }) := by
  unfold strdup
  by_cases hfail : s.fails s.allocs = true
  · refine ⟨none, .inr rfl, ?_⟩
    simp [hfail]
  · refine ⟨some str, .inl rfl, ?_⟩
    simp [hfail]

/-! ### `ramfs.c` -/

/-- The name `"/"`. -/
def rootName : CString := ⟨[47], by decide⟩

/-- `ramfs_init` -/
def ramfsInit : Ramfs :=
  match allocNode s with
  | (none, s) => { s with root := none }
  | (some root, s) =>
    let s := { s with root := some root }
    match strdup s rootName with
    | (name, s) => initNode s root name .directory none

/-- The loop of `ramfs_find`. -/
def findLoop (name : CString) : ℕ → Option NodeId → Option (Option NodeId)
  | 0, _ => none
  | _ + 1, none => some none
  | fuel + 1, some it =>
    (s.name it).bind fun str =>
      if strcmp str.bytes name.bytes = 0 then some (some it) else findLoop name fuel (s.next it)

/-- `ramfs_find` -/
def ramfsFind (parent : Option NodeId) (name : CString) : Option (Option NodeId) :=
  match parent with
  | none => some none
  | some parent => findLoop s name s.fuel (s.children parent)

/-- The end of `ramfs_create` and of `ramfs_move`: `node` becomes the last child of `parent`. -/
def appendChild (parent node : NodeId) : Option Ramfs :=
  match s.children parent with
  | none => some { s with children := Function.update s.children parent (some node) }
  | some first => do
    let it ← advance s.next (fun _ => false) s.fuel first
    pure { s with next := Function.update s.next it (some node) }

/-- The loop of `ramfs_remove` and of `ramfs_move` that takes `node` out of the children of
`parent`; the result is false when it is not there. -/
def unlinkChild (parent node : NodeId) : Option (Bool × Ramfs) :=
  if s.children parent = some node then
    some (true, { s with children := Function.update s.children parent (s.next node) })
  else do
    match ← seekPrev s.next node s.fuel (s.children parent) with
    | some it => pure (true, { s with next := Function.update s.next it (s.next node) })
    | none => pure (false, s)

/-- `ramfs_create` -/
def ramfsCreate (parent : Option NodeId) (name : CString) (type : FsNodeType) :
    Option (Option NodeId × Ramfs) :=
  match parent with
  | none => some (none, s)
  | some parent =>
    if s.type parent ≠ .directory then some (none, s)
    else do
      if (← ramfsFind s (some parent) name).isSome then pure (none, s)
      else
        match allocNode s with
        | (none, s) => pure (none, s)
        | (some node, s) =>
          let (str, s) := strdup s name
          let s ← appendChild (initNode s node str type (some parent)) parent node
          pure (some node, s)

/-- `ramfs_mkdir` -/
def ramfsMkdir (parent : Option NodeId) (name : CString) : Option (Option NodeId × Ramfs) :=
  ramfsCreate s parent name .directory

/-- `ramfs_remove` -/
def ramfsRemove (node : Option NodeId) : Option Ramfs :=
  match node with
  | none => some s
  | some node =>
    if s.root = some node then some s
    else if (s.children node).isSome then some s
    else
      match s.parent node with
      | none => some s
      | some parent => do
        let (_, s) ← unlinkChild s parent node
        pure { s with freed := Function.update s.freed node true }

/-- `ramfs_read`, with the bytes of the buffer after it. -/
def ramfsRead (node : Option NodeId) (buffer : Mem) (size offset : ℕ) : Option (ℕ × Mem) :=
  match node with
  | none => some (0, buffer)
  | some node =>
    if s.type node ≠ .file then some (0, buffer)
    else if s.size node ≤ offset then some (0, buffer)
    else
      let remaining := s.size node - offset
      let size := if remaining < size then remaining else size
      -- the copy of no bytes does not look at the data
      if size = 0 then some (0, buffer)
      else do
        let block ← s.data node
        pure (size, memcpy buffer 0 (s.bytes block) offset size)

/-- `ramfs_write` -/
def ramfsWrite (node : Option NodeId) (buffer : Mem) (size : ℕ) : Bool × Ramfs :=
  match node with
  | none => (false, s)
  | some node =>
    if s.type node ≠ .file then (false, s)
    else
      match allocBlock s size with
      | (none, s) => (false, { s with data := Function.update s.data node none })
      | (some block, s) =>
        (true, { s with
          data := Function.update s.data node (some block)
          bytes := Function.update s.bytes block (memcpy (s.bytes block) 0 buffer 0 size)
          size := Function.update s.size node size })

/-- `ramfs_rename` -/
def ramfsRename (node : Option NodeId) (newName : CString) : Option (Bool × Ramfs) :=
  match node with
  | none => some (false, s)
  | some node => do
    if (← ramfsFind s (s.parent node) newName).isSome then pure (false, s)
    else
      let (name, s) := strdup s newName
      pure (name.isSome, { s with name := Function.update s.name node name })

/-- `ramfs_move` -/
def ramfsMove (node newParent : Option NodeId) : Option (Bool × Ramfs) :=
  match node, newParent with
  | some node, some newParent =>
    if s.root = some node then some (false, s)
    else if node = newParent then some (false, s)
    else
      match s.parent node with
      | none => some (false, s)
      | some parent =>
        if s.children node = some newParent then some (false, s)
        else do
          match ← unlinkChild s parent node with
          | (false, s) => pure (false, s)
          | (true, s) =>
            let s := { s with next := Function.update s.next node none }
            let s ← appendChild s newParent node
            pure (true, { s with parent := Function.update s.parent node (some newParent) })
  | _, _ => some (false, s)

/-- `ramfs_delete`, with a bound on its rounds and calls.  The call goes on, after each round of
`while(node->children) ramfs_delete(node->children)`, as it began. -/
def ramfsDelete : ℕ → Ramfs → Option NodeId → Option (Bool × Ramfs)
  | 0, _, _ => none
  | _ + 1, s, none => some (false, s)
  | fuel + 1, s, some node =>
    match s.children node with
    | some child => do
      let (_, s) ← ramfsDelete fuel s (some child)
      ramfsDelete fuel s (some node)
    | none => do
      let s ← ramfsRemove s (some node)
      pure (true, s)

/-- The bytes `"_copy"`. -/
def copySuffix : List Byte := [95, 99, 111, 112, 121]

/-- `new_name` of `ramfs_copy`. -/
def copyName (name : CString) : CString where
  bytes := name.bytes ++ copySuffix
  nonzero := by
    simp only [List.mem_append, not_or]
    exact ⟨name.nonzero, by decide⟩

/-- The array `new_name[strlen(name)+6]` has room for the name and its terminating zero. -/
theorem strlen_copyName (name : CString) : strlen (copyName name) + 1 = strlen name + 6 := by
  simp [strlen, copyName, copySuffix]

mutual

/-- `ramfs_copy`, with a bound on its rounds and calls. -/
def ramfsCopy : ℕ → Ramfs → (node newParent : Option NodeId) → Option (Option NodeId × Ramfs)
  | 0, _, _, _ => none
  | _ + 1, s, none, _ => some (none, s)
  | _ + 1, s, some _, none => some (none, s)
  | fuel + 1, s, some node, some newParent => do
    let name ← s.name node
    let found ← ramfsFind s (some newParent) name
    let name := if found.isSome then copyName name else name
    match ← ramfsCreate s (some newParent) name (s.type node) with
    | (none, s) => pure (none, s)
    | (some copy, s) =>
      match s.type node with
      | .file =>
        if s.size node = 0 then pure (some copy, s)
        else
          match allocBlock s (s.size node) with
          | (none, s) => do
            let s := { s with data := Function.update s.data copy none }
            let (_, s) ← ramfsDelete fuel s (some copy)
            pure (none, s)
          | (some block, s) => do
            let source ← s.data node
            pure (some copy, { s with
              data := Function.update s.data copy (some block)
              bytes := Function.update s.bytes block
                (memcpy (s.bytes block) 0 (s.bytes source) 0 (s.size node))
              size := Function.update s.size copy (s.size node) })
      | .directory => do
        let s ← copyChildren fuel s (s.children node) copy
        pure (some copy, s)

/-- `while(child){ ramfs_copy(child, copy); child = child->next; }` -/
def copyChildren : ℕ → Ramfs → (child : Option NodeId) → (copy : NodeId) → Option Ramfs
  | 0, _, _, _ => none
  | _ + 1, s, none, _ => some s
  | fuel + 1, s, some child, copy => do
    let (_, s) ← ramfsCopy fuel s (some child) (some copy)
    copyChildren fuel s (s.next child) copy

end

end Bethany
