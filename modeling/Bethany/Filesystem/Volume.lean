import Bethany.Filesystem.RamfsRead
import Bethany.Filesystem.RamfsCopyEnds
import Bethany.Library.KeyedTree

/-!
# What the RAM file system is for

A file system is a tree of files and directories.  Each of them has a handle, by which the callers
know it.  What the functions of `ramfs.c` do to it is said here without nodes, links, data blocks
and memory: the tree is a value, and each request says how it answers and what the tree is then.
The only choice that a request has is the handles of what is new.

* `Volume`: the tree, whose handles are all different;
* `FsRequest`, `FsReply`: the calls of the interface with their arguments, and what they return;
* `Volume.Does`: the answer to a request and the volume after it;
* `Volume.Allows`: what the callers have to keep to;
* `Volume.Serves`: the requests of a run, one after the other.
-/

namespace Bethany

open Machine Unfolding

/-- A file or a directory with all that is below it, and the handles. -/
abbrev FsPlace := LabelTree (NodeId × FsLabel)

/-- The names in a directory. -/
def FsPlace.names (d : FsPlace) : List (Option CString) := d.kids.map fun u => u.value.name

/-- A file system. -/
structure Volume where
  tree : FsPlace
  distinct : tree.keys.Nodup
  files : ∀ u ∈ tree.subtrees, u.value.type = .file → u.kids = []
  named : ∀ u ∈ tree.subtrees, u.value.name.isSome

/-- The requests to a file system. -/
inductive FsRequest
  | change (call : FsCall)
  | find (parent : Option NodeId) (name : CString)
  | exist (parent : Option NodeId) (name : CString)
  | read (node : Option NodeId) (buffer : Mem) (size offset : ℕ)

/-- What a request returns: nothing, a node, a truth value, or a number of bytes with the buffer
that they are in. -/
inductive FsReply
  | done
  | node (node : Option NodeId)
  | success (success : Bool)
  | bytes (count : ℕ) (buffer : Mem)

/-- The nodes that a request is given. -/
def FsRequest.args : FsRequest → List (Option NodeId)
  | .change call => call.args
  | .find parent _ => [parent]
  | .exist parent _ => [parent]
  | .read node _ _ _ => [node]

namespace Volume

variable (v : Volume)

/-- The handle of the whole tree. -/
def root : NodeId := v.tree.key

/-- The new file or directory `parent/name`. -/
def Creates (p : NodeId) (name : CString) (type : FsNodeType) (r : FsReply) (v' : Volume) : Prop :=
  ∃ d, v.tree.find? p = some d ∧
    ((d.value.type ≠ .directory ∨ some name ∈ FsPlace.names d) ∧ r = .node none ∧ v' = v ∨
      d.value.type = .directory ∧ some name ∉ FsPlace.names d ∧
        ∃ n, n ∉ v.tree.keys ∧ r = .node (some n) ∧
          v'.tree = v.tree.graft p (.node (n, ⟨some name, type, []⟩) []))

/-- Another content of a file. -/
def Writes (n : NodeId) (buffer : Mem) (size : ℕ) (r : FsReply) (v' : Volume) : Prop :=
  ∃ d, v.tree.find? n = some d ∧
    if d.value.type ≠ .file ∨ size = 0 then r = .success false ∧ v' = v
    else r = .success true ∧
      v'.tree = v.tree.adjust n fun label => { label with content := (List.range size).map buffer }

/-- The node or one beside it has the name. -/
def NameTaken (n : NodeId) (name : CString) : Prop :=
  ∃ d ∈ v.tree.parent? n, some name ∈ FsPlace.names d

/-- Another name, that is not taken. -/
def Renames (n : NodeId) (newName : CString) (r : FsReply) (v' : Volume) : Prop :=
  v.NameTaken n newName ∧ r = .success false ∧ v' = v ∨
    ¬ v.NameTaken n newName ∧ r = .success true ∧
      v'.tree = v.tree.adjust n fun label => { label with name := some newName }

/-- A move of the root, to the node itself, or to its first child. -/
def MoveRefused (n p : NodeId) : Prop :=
  n = v.root ∨ n = p ∨ ∃ d ∈ v.tree.find? n, d.kids.head?.map LabelTree.key = some p

/-- The subtree at another place. -/
def Moves (n p : NodeId) (r : FsReply) (v' : Volume) : Prop :=
  v.MoveRefused n p ∧ r = .success false ∧ v' = v ∨
    ¬ v.MoveRefused n p ∧ r = .success true ∧
      ∃ d, v.tree.find? n = some d ∧ v'.tree = (v.tree.prune n).graft p d

/-- The tree, if there is one, as a new last child with new handles. -/
def Pastes (p : NodeId) (r : FsReply) (v' : Volume) : Option FsTree → Prop
  | none => r = .node none ∧ v' = v
  | some t => ∃ c : FsPlace, c.unkeyed = t ∧ (∀ m ∈ c.keys, m ∉ v.tree.keys) ∧
      r = .node (some c.key) ∧ v'.tree = v.tree.graft p c

/-- A copy of the subtree, under a name that is free. -/
def Copies (n p : NodeId) (r : FsReply) (v' : Volume) : Prop :=
  ∃ d e, v.tree.find? n = some d ∧ v.tree.find? p = some e ∧
    if e.value.type ≠ .directory then r = .node none ∧ v' = v
    else ∃ copy,
      (copyTree (fun _ => false) d.unkeyed (FsPlace.names e) 0).map Prod.fst = some copy ∧
        v.Pastes p r v' copy

/-- A file or an empty directory taken out. -/
def Removes (n : NodeId) (r : FsReply) (v' : Volume) : Prop :=
  ∃ d, v.tree.find? n = some d ∧ r = .done ∧
    if n = v.root ∨ d.kids ≠ [] then v' = v else v'.tree = v.tree.prune n

/-- The subtree taken out; of the whole tree the root stays. -/
def Deletes (n : NodeId) (r : FsReply) (v' : Volume) : Prop :=
  r = .success true ∧
    v'.tree = if n = v.root then .node v.tree.label [] else v.tree.prune n

/-- The first entry of the directory with the name. -/
def Finds (p : NodeId) (name : CString) (found : Option NodeId) : Prop :=
  ∃ d, v.tree.find? p = some d ∧
    found = (d.kids.find? fun u => u.value.name = some name).map LabelTree.key

/-- The bytes of the file from the offset on, as many as there are and are asked for. -/
def Reads (n : NodeId) (buffer : Mem) (size offset : ℕ) (r : FsReply) : Prop :=
  ∃ d, v.tree.find? n = some d ∧
    let bytes := if d.value.type = .file then (d.value.content.drop offset).take size else []
    r = .bytes bytes.length fun i => bytes.getD i (buffer i)

/-- **What a request does.**  Given a null pointer it refuses. -/
def Does : FsRequest → FsReply → Volume → Prop
  | .change (.create (some p) name type), r, v' => v.Creates p name type r v'
  | .change (.create none _ _), r, v' => r = .node none ∧ v' = v
  | .change (.mkdir (some p) name), r, v' => v.Creates p name .directory r v'
  | .change (.mkdir none _), r, v' => r = .node none ∧ v' = v
  | .change (.write (some n) buffer size), r, v' => v.Writes n buffer size r v'
  | .change (.write none _ _), r, v' => r = .success false ∧ v' = v
  | .change (.rename (some n) newName), r, v' => v.Renames n newName r v'
  | .change (.rename none _), r, v' => r = .success false ∧ v' = v
  | .change (.move (some n) (some p)), r, v' => v.Moves n p r v'
  | .change (.move _ _), r, v' => r = .success false ∧ v' = v
  | .change (.copy (some n) (some p)), r, v' => v.Copies n p r v'
  | .change (.copy _ _), r, v' => r = .node none ∧ v' = v
  | .change (.remove (some n)), r, v' => v.Removes n r v'
  | .change (.remove none), r, v' => r = .done ∧ v' = v
  | .change (.delete (some n)), r, v' => v.Deletes n r v'
  | .change (.delete none), r, v' => r = .success false ∧ v' = v
  | .find (some p) name, r, v' => (∃ found, v.Finds p name found ∧ r = .node found) ∧ v' = v
  | .find none _, r, v' => r = .node none ∧ v' = v
  | .exist (some p) name, r, v' =>
    (∃ found, v.Finds p name found ∧ r = .success found.isSome) ∧ v' = v
  | .exist none _, r, v' => r = .success false ∧ v' = v
  | .read (some n) buffer size offset, r, v' => v.Reads n buffer size offset r ∧ v' = v
  | .read none buffer _ _, r, v' => r = .bytes 0 buffer ∧ v' = v

/-- `p` is in the subtree of `n`. -/
def Within (n p : NodeId) : Prop := ∃ d ∈ v.tree.find? n, p ∈ d.keys

/-- A file or a directory as the handle says. -/
def IsA (n : NodeId) (type : FsNodeType) : Prop := ∃ d ∈ v.tree.find? n, d.value.type = type

/-- **What the callers have to keep to**, as the functions do not look at it: the handles are those
of the volume; nothing is moved or copied into its own subtree, or moved into a file; a content
is not replaced by nothing. -/
def Allows (request : FsRequest) : Prop :=
  (∀ arg ∈ request.args, ∀ n ∈ arg, n ∈ v.tree.keys) ∧
    match request with
    | .change (.move (some n) (some p)) => v.MoveRefused n p ∨ ¬ v.Within n p ∧ v.IsA p .directory
    | .change (.copy (some n) (some p)) => v.IsA p .directory → ¬ v.Within n p
    | .change (.write (some n) _ size) => size = 0 → ∀ d ∈ v.tree.find? n, d.value.content = []
    | _ => True

/-- Requests that are allowed, one after the other, with the replies to them. -/
inductive Serves : Volume → List (FsRequest × FsReply) → Volume → Prop
  | nil (v : Volume) : Serves v [] v
  | cons {v v' v'' : Volume} {request : FsRequest} {r : FsReply}
      {log : List (FsRequest × FsReply)} :
      v.Allows request → v.Does request r v' → Serves v' log v'' →
        Serves v ((request, r) :: log) v''

/-- The empty file system. -/
def empty (handle : NodeId) : Volume where
  tree := .node (handle, ⟨some rootName, .directory, []⟩) []
  distinct := by simp [LabelTree.keys_node]
  files := by simp [LabelTree.subtrees, LabelTree.rowSubtrees]
  named := by simp [LabelTree.subtrees, LabelTree.rowSubtrees, LabelTree.value]

end Volume

end Bethany
