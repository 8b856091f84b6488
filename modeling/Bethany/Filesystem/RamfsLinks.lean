import Bethany.Filesystem.Ramfs
import Bethany.Library.OrderedTree

/-!
# The links of the RAM file system

`ramfs.c` walks and changes lists of siblings.  What a call does to them does not depend on
whether the nodes are a tree: it is enough that every live node has a list of children, and is a
child of one node.

* `Ramfs.Wired`: the lists of children that the links and the parent fields give;
* `unlinkChild_eq`, `appendChild_eq`: the two pieces of pointer surgery;
* `ramfsFind_eq`: `ramfs_find` searches the list of children;
* `Ramfs.Wired.create`, `Ramfs.Wired.remove`, `Ramfs.Wired.move`: the calls that change the links;
* `ramfsRemove_relinked`, `ramfsMove_frame`, `ramfsRename_frame`, `ramfsWrite_frame`,
  `ramfsDelete_relinked`: what the calls leave alone;
* `ramfsCopy_cases`, `copyChildren_cases`: what a call of `ramfs_copy` and a round of its loop do;
* `ramfsCopy_rel`: what the steps of a copy keep, the copy keeps.
-/

namespace Bethany

open LinkedList

/-- A node that has been created and not removed. -/
def Ramfs.Live (s : Ramfs) (n : NodeId) : Prop := n < s.nextNode ∧ s.freed n = false

/-- The live nodes are those of `S`, with the root `r`; the children of `p` are `kids p`. -/
structure Ramfs.Wired (s : Ramfs) (r : NodeId) (S : Set NodeId) (kids : NodeId → List NodeId) :
    Prop where
  root : s.root = some r
  root_mem : r ∈ S
  chain : ∀ p ∈ S, Chain s.next (s.children p) (kids p)
  kids_mem : ∀ p n, n ∈ kids p → p ∈ S ∧ n ∈ S
  disjoint : ∀ p q n, n ∈ kids p → n ∈ kids q → p = q
  root_not_mem : ∀ p, r ∉ kids p
  exists_kid : ∀ n ∈ S, n ≠ r → ∃ p, n ∈ kids p
  parent : ∀ n p, n ∈ kids p → s.parent n = some p
  parent_root : s.parent r = none
  next_root : s.next r = none
  live : ∀ n, s.Live n ↔ n ∈ S
  unfreed : ∀ n, s.nextNode ≤ n → s.freed n = false

variable {s s' s'' : Ramfs} {r n m p q : NodeId} {S : Set NodeId} {kids : NodeId → List NodeId}
  {str : CString} {l : List NodeId}

namespace Ramfs.Wired

theorem siblings (h : s.Wired r S kids) : Siblings S kids s.children s.next :=
  ⟨h.chain, fun p _ q _ n => h.disjoint p q n⟩

theorem lt_nextNode (h : s.Wired r S kids) (hn : n ∈ S) : n < s.nextNode := ((h.live n).mpr hn).1

/-- A number that has not been given to a node is not live. -/
theorem nextNode_not_mem (h : s.Wired r S kids) : s.nextNode ∉ S :=
  fun hn => lt_irrefl _ (h.lt_nextNode hn)

theorem nextNode_not_kid (h : s.Wired r S kids) (q : NodeId) : s.nextNode ∉ kids q :=
  fun hq => h.nextNode_not_mem (h.kids_mem q _ hq).2

/-- A node that is not live has no children. -/
theorem kids_eq_nil (h : s.Wired r S kids) (hp : p ∉ S) : kids p = [] :=
  List.eq_nil_iff_forall_not_mem.mpr fun m hm => hp (h.kids_mem p m hm).1

theorem nodup (h : s.Wired r S kids) (p : NodeId) : (kids p).Nodup := by
  by_cases hp : p ∈ S
  · exact (h.chain p hp).nodup
  · rw [h.kids_eq_nil hp]
    exact List.nodup_nil

/-- A loop along the children of a node does not run out of rounds. -/
theorem length_lt_fuel (h : s.Wired r S kids) (p : NodeId) : (kids p).length < s.fuel :=
  Nat.lt_succ_of_le <| length_le_of_lt (h.nodup p) fun n hn => h.lt_nextNode (h.kids_mem p n hn).2

theorem root_eq_iff (h : s.Wired r S kids) : s.root = some n ↔ n = r := by
  rw [h.root]
  constructor
  · intro heq
    exact (Option.some.inj heq).symm
  · rintro rfl
    rfl

/-- The links determine the lists. -/
theorem unique {r' : NodeId} {S' : Set NodeId} {kids' : NodeId → List NodeId}
    (h : s.Wired r S kids) (h' : s.Wired r' S' kids') : r = r' ∧ S = S' ∧ kids = kids' := by
  have hS : S = S' := Set.ext fun n => (h.live n).symm.trans (h'.live n)
  subst hS
  refine ⟨Option.some.inj (h.root.symm.trans h'.root), rfl, funext fun p => ?_⟩
  by_cases hp : p ∈ S
  · exact (h.chain p hp).unique (h'.chain p hp)
  · rw [h.kids_eq_nil hp, h'.kids_eq_nil hp]

/-- A change to the names, the data and the allocations leaves the links as they are. -/
theorem congr (h : s.Wired r S kids) (hroot : s'.root = s.root)
    (hchildren : s'.children = s.children) (hnext : s'.next = s.next)
    (hparent : s'.parent = s.parent) (hnode : s'.nextNode = s.nextNode)
    (hfreed : s'.freed = s.freed) : s'.Wired r S kids where
  root := hroot.trans h.root
  root_mem := h.root_mem
  chain := by
    rw [hchildren, hnext]
    exact h.chain
  kids_mem := h.kids_mem
  disjoint := h.disjoint
  root_not_mem := h.root_not_mem
  exists_kid := h.exists_kid
  parent := by
    rw [hparent]
    exact h.parent
  parent_root := by
    rw [hparent]
    exact h.parent_root
  next_root := by
    rw [hnext]
    exact h.next_root
  live n := by
    rw [← h.live, Ramfs.Live, Ramfs.Live, hnode, hfreed]
  unfreed := by
    rw [hnode, hfreed]
    exact h.unfreed

/-- The links once `n` has become the last child of `p`. -/
theorem place (h : s.Wired r S kids) (hp : p ∈ S) (hroot : n ≠ r) (hroot' : s'.root = s.root)
    (hsib : Siblings (insert n S) (OrderedTree.placeKids kids p n) s'.children s'.next)
    (hnull : s'.next r = none) (hparent : s'.parent = Function.update s.parent n (some p))
    (hlive : ∀ m, s'.Live m ↔ m ∈ insert n S)
    (hunfreed : ∀ m, s'.nextNode ≤ m → s'.freed m = false) :
    s'.Wired r (insert n S) (OrderedTree.placeKids kids p n) where
  root := hroot'.trans h.root
  root_mem := .inr h.root_mem
  chain := hsib.chain
  kids_mem := by
    intro q m hm
    obtain ⟨-, hkid⟩ | ⟨rfl, rfl⟩ := (OrderedTree.mem_placeKids_of_nodup (h.nodup q)).mp hm
    · exact ⟨.inr (h.kids_mem q m hkid).1, .inr (h.kids_mem q m hkid).2⟩
    · exact ⟨.inr hp, .inl rfl⟩
  disjoint := by
    intro x y m hx hy
    obtain ⟨hne, hkid⟩ | ⟨rfl, rfl⟩ := (OrderedTree.mem_placeKids_of_nodup (h.nodup x)).mp hx
    · obtain ⟨-, hkid'⟩ | ⟨-, heq⟩ := (OrderedTree.mem_placeKids_of_nodup (h.nodup y)).mp hy
      · exact h.disjoint x y m hkid hkid'
      · exact absurd heq hne
    · obtain ⟨hne, -⟩ | ⟨rfl, -⟩ := (OrderedTree.mem_placeKids_of_nodup (h.nodup y)).mp hy
      · exact absurd rfl hne
      · rfl
  root_not_mem := by
    intro q hm
    obtain ⟨-, hkid⟩ | ⟨-, heq⟩ := (OrderedTree.mem_placeKids_of_nodup (h.nodup q)).mp hm
    · exact h.root_not_mem q hkid
    · exact hroot heq.symm
  exists_kid := by
    intro m hm hne
    by_cases hmn : m = n
    · exact ⟨p, (OrderedTree.mem_placeKids_of_nodup (h.nodup p)).mpr (.inr ⟨rfl, hmn⟩)⟩
    · obtain ⟨q, hq⟩ := h.exists_kid m (hm.resolve_left hmn) hne
      exact ⟨q, (OrderedTree.mem_placeKids_of_nodup (h.nodup q)).mpr (.inl ⟨hmn, hq⟩)⟩
  parent := by
    intro m q hkid
    rw [hparent]
    obtain ⟨hne, hkid⟩ | ⟨rfl, rfl⟩ := (OrderedTree.mem_placeKids_of_nodup (h.nodup q)).mp hkid
    · rw [Function.update_of_ne hne]
      exact h.parent m q hkid
    · rw [Function.update_self]
  parent_root := by
    rw [hparent]
    exact (Function.update_of_ne hroot.symm ..).trans h.parent_root
  next_root := hnull
  live := hlive
  unfreed := hunfreed

end Ramfs.Wired

/-! ### Pointer surgery -/

/-- `unlinkChild` takes a child out of the list of its parent. -/
theorem unlinkChild_eq (h : Siblings S kids s.children s.next) (hp : p ∈ S) (hn : n ∈ kids p)
    (hlen : (kids p).length < s.fuel) :
    ∃ children next,
      unlinkChild s p n = some (true, { s with children := children, next := next }) ∧
      Siblings S (Function.update kids p ((kids p).erase n)) children next ∧
      (∀ m, m ≠ p → children m = s.children m) ∧ ∀ m, m ∉ kids p → next m = s.next m := by
  have hchain := h.chain p hp
  have hnodup := hchain.nodup
  obtain ⟨u, v, huv⟩ := List.append_of_mem hn
  rw [huv] at hchain hnodup hlen
  have hnu : n ∉ u := fun hmem =>
    List.disjoint_of_nodup_append hnodup hmem List.mem_cons_self
  have herase : (kids p).erase n = u ++ v := by
    rw [huv, List.erase_append_right _ hnu, List.erase_cons_head]
  rw [herase]
  unfold unlinkChild
  induction u using List.reverseRecOn with
  | nil =>
    rw [if_pos hchain.1]
    refine ⟨_, _, rfl, h.unlink_first hp huv, fun m hm => ?_, fun _ _ => rfl⟩
    exact Function.update_of_ne hm ..
  | append_singleton u a _ =>
    rw [List.append_assoc, List.singleton_append] at huv hchain
    have hfirst : s.children p ≠ some n := by
      rw [hchain.head_eq]
      intro heq
      apply hnu
      cases u with
      | nil =>
        simp at heq
        simp [heq]
      | cons c u =>
        simp at heq
        simp [heq]
    have hseek : seekPrev s.next n s.fuel (s.children p) = some (some a) := by
      apply seekPrev_eq hchain
      simp at hlen
      omega
    rw [if_neg hfirst, hseek, List.append_assoc, List.singleton_append]
    refine ⟨_, _, rfl, h.unlink_next hp huv, fun _ _ => rfl, fun m hm => ?_⟩
    refine Function.update_of_ne ?_ ..
    rintro rfl
    exact hm (by simp [huv])

/-- `unlinkChild` changes nothing for a node that is not there. -/
theorem unlinkChild_of_not_mem (hchain : Chain s.next (s.children p) l) (hn : n ∉ l)
    (hlen : l.length < s.fuel) : unlinkChild s p n = some (false, s) := by
  have hfirst : s.children p ≠ some n := by
    intro heq
    rw [hchain.head_eq] at heq
    exact hn (List.mem_of_head? heq)
  unfold unlinkChild
  rw [if_neg hfirst, seekPrev_of_not_mem hchain hn hlen]
  rfl

/-- `appendChild` puts a node at the end of the list of its parent. -/
theorem appendChild_eq (h : Siblings S kids s.children s.next) (hp : p ∈ S)
    (hn : ∀ q ∈ S, n ∉ kids q) (hnull : s.next n = none) (hlen : (kids p).length < s.fuel) :
    ∃ children next, appendChild s p n = some { s with children := children, next := next } ∧
      Siblings S (Function.update kids p (kids p ++ [n])) children next ∧
      (∀ m, m ≠ p → children m = s.children m) ∧ ∀ m, m ∉ kids p → next m = s.next m := by
  have hchain := h.chain p hp
  unfold appendChild
  obtain hkids | ⟨l, a, hkids⟩ := List.eq_nil_or_concat (kids p)
  · rw [hkids] at hchain
    rw [show s.children p = none from hchain, hkids, List.nil_append]
    refine ⟨_, _, rfl, h.append_first hp hn hnull, fun m hm => ?_, fun _ _ => rfl⟩
    exact Function.update_of_ne hm ..
  · rw [List.concat_eq_append] at hkids
    have happend := h.append_last hp hn hnull hkids
    rw [hkids] at hchain hlen
    cases hl : l ++ [a] with
    | nil => simp at hl
    | cons first rest =>
      rw [hl] at hchain hlen
      have hlast : advance s.next (fun _ => false) s.fuel first = some a := by
        obtain ⟨hfirst, hrest⟩ := hchain
        rw [advance_last ⟨rfl, hrest⟩ (fun _ _ => rfl) (Nat.lt_of_succ_lt hlen)]
        simp only [← hl, List.getLast_append_singleton]
      rw [hchain.1]
      simp only [hlast, Option.bind_eq_bind, Option.bind_some]
      rw [hkids, List.append_assoc, List.singleton_append]
      refine ⟨_, _, rfl, happend, fun _ _ => rfl, fun m hm => Function.update_of_ne ?_ ..⟩
      rintro rfl
      exact hm (by simp)

/-! ### `ramfs_find` -/

/-- The search for a name in a list.  It stops at an entry without a name. -/
def findIn {α : Type*} (name : α → Option CString) (str : CString) : List α → Option (Option α)
  | [] => some none
  | a :: l => (name a).bind fun x => if x = str then some (some a) else findIn name str l

theorem findLoop_eq {head : Option NodeId} {fuel : ℕ} (hchain : Chain s.next head l)
    (hlen : l.length < fuel) : findLoop s str fuel head = findIn s.name str l := by
  induction l generalizing head fuel with
  | nil =>
    obtain ⟨fuel, rfl⟩ := Nat.exists_eq_succ_of_ne_zero (Nat.ne_of_gt hlen)
    obtain rfl : head = none := hchain
    rfl
  | cons a l ih =>
    obtain ⟨fuel, rfl⟩ := Nat.exists_eq_succ_of_ne_zero (Nat.ne_of_gt (Nat.zero_lt_of_lt hlen))
    obtain ⟨rfl, hrest⟩ := hchain
    simp only [findLoop, findIn, strcmp_eq_zero_iff]
    rw [ih hrest (Nat.lt_of_succ_lt_succ hlen)]

/-- Where all entries have names, the search finds the first one with the name. -/
theorem findIn_eq_find? {α : Type*} {name : α → Option CString} {l : List α}
    (h : ∀ a ∈ l, (name a).isSome) : findIn name str l = some (l.find? (name · = some str)) := by
  induction l with
  | nil => rfl
  | cons a l ih =>
    obtain ⟨x, hx⟩ := Option.isSome_iff_exists.mp (h a List.mem_cons_self)
    have ih := ih fun b hb => h b (List.mem_cons_of_mem a hb)
    by_cases heq : x = str
    · simp [findIn, hx, heq]
    · simp [findIn, hx, heq, ih]

/-- The search finds nothing where no entry has the name. -/
theorem findIn_eq_none_iff {α : Type*} {name : α → Option CString} {l : List α} :
    findIn name str l = some none ↔ ∀ a ∈ l, (name a).isSome ∧ name a ≠ some str := by
  induction l with
  | nil => simp [findIn]
  | cons a l ih =>
    cases hx : name a with
    | none => simp [findIn, hx]
    | some x =>
      by_cases heq : x = str
      · simp [findIn, hx, heq]
      · simp [findIn, hx, heq, ih]

/-- `ramfs_find` searches the children of the node. -/
theorem ramfsFind_eq (h : s.Wired r S kids) (hp : p ∈ S) (str : CString) :
    ramfsFind s (some p) str = findIn s.name str (kids p) :=
  findLoop_eq (h.chain p hp) (h.length_lt_fuel p)

/-! ### `ramfs_create` -/

/-- `s'` is `s` with a new node in `p`, but for the links. -/
structure Ramfs.Created (s s' : Ramfs) (p : NodeId) (str : Option CString) (type : FsNodeType) :
    Prop where
  name : s'.name = Function.update s.name s.nextNode str
  size : s'.size = Function.update s.size s.nextNode 0
  data : s'.data = Function.update s.data s.nextNode none
  type : s'.type = Function.update s.type s.nextNode type
  bytes : s'.bytes = s.bytes
  length : s'.length = s.length
  nextNode : s'.nextNode = s.nextNode + 1
  nextBlock : s'.nextBlock = s.nextBlock
  allocs : s'.allocs = s.allocs + 2
  fails : s'.fails = s.fails

/-- The new node becomes the last child of `p`. -/
theorem Ramfs.Wired.create (h : s.Wired r S kids) (hp : p ∈ S) (str : Option CString)
    (type : FsNodeType) : ∃ s', appendChild (initNode
        { s with allocs := s.allocs + 2, nextNode := s.nextNode + 1 } s.nextNode str type (some p))
        p s.nextNode = some s' ∧
      s.Created s' p str type ∧
      s'.Wired r (insert s.nextNode S) (OrderedTree.placeKids kids p s.nextNode) ∧
      ∀ m, m ∉ insert s.nextNode S → s'.children m = s.children m := by
  have hnew := h.nextNode_not_mem
  have hkids := h.nextNode_not_kid
  have hroot : s.nextNode ≠ r := fun heq => hnew (heq ▸ h.root_mem)
  -- the new node has a list of its own, which is empty
  have hsib : Siblings (insert s.nextNode S) kids
      (Function.update s.children s.nextNode none) (Function.update s.next s.nextNode none) := by
    refine ⟨fun q hq => ?_, fun q _ r _ m => h.disjoint q r m⟩
    obtain rfl | hq := hq
    · rw [Function.update_self, h.kids_eq_nil hnew]
      exact rfl
    · have hne : q ≠ s.nextNode := fun heq => hnew (heq ▸ hq)
      rw [Function.update_of_ne hne]
      exact (h.chain q hq).update (hkids q) none
  have hlen := Nat.lt_succ_of_lt (h.length_lt_fuel p)
  obtain ⟨children, next, happend, hsib', hchildren, hnext⟩ := appendChild_eq
    (s := initNode { s with allocs := s.allocs + 2, nextNode := s.nextNode + 1 } s.nextNode str
      type (some p)) hsib (.inr hp) (fun q _ => hkids q) (Function.update_self ..) hlen
  refine ⟨_, happend, ⟨rfl, rfl, rfl, rfl, rfl, rfl, rfl, rfl, rfl, rfl⟩, ?_, fun m hm => ?_⟩
  · refine h.place hp hroot rfl ?_ ?_ rfl (fun m => ?_) fun m hm => ?_
    · rw [OrderedTree.placeKids_eq]
      simp only [List.erase_of_not_mem (hkids _)]
      exact hsib'
    · refine (hnext _ (h.root_not_mem p)).trans ?_
      exact (Function.update_of_ne hroot.symm ..).trans h.next_root
    · rw [Set.mem_insert_iff, ← h.live, Ramfs.Live, Ramfs.Live]
      have hfree := h.unfreed s.nextNode le_rfl
      constructor
      · rintro ⟨hlt, hfreed⟩
        obtain heq | hlt := Nat.eq_or_lt_of_le (Nat.le_of_lt_succ hlt)
        · exact .inl heq
        · exact .inr ⟨hlt, hfreed⟩
      · rintro (rfl | ⟨hlt, hfreed⟩)
        · exact ⟨Nat.lt_succ_self _, hfree⟩
        · exact ⟨Nat.lt_succ_of_lt hlt, hfreed⟩
    · exact h.unfreed m (Nat.le_of_succ_le hm)
  · obtain ⟨hmn, hmS⟩ := not_or.mp hm
    have hmp : m ≠ p := fun heq => hmS (heq ▸ hp)
    exact (hchildren m hmp).trans (Function.update_of_ne hmn ..)

/-- `ramfs_create` in a directory, by what `ramfs_find` finds there. -/
theorem ramfsCreate_directory (hdir : s.type p = .directory) (str : CString) (type : FsNodeType) :
    ramfsCreate s (some p) str type = (ramfsFind s (some p) str).bind fun found =>
      if found.isSome then some (none, s)
      else if s.fails s.allocs then some (none, { s with allocs := s.allocs + 1 })
      else
        (appendChild (initNode { s with allocs := s.allocs + 2, nextNode := s.nextNode + 1 }
          s.nextNode (if s.fails (s.allocs + 1) then none else some str) type (some p)) p
            s.nextNode).map fun s' => (some s.nextNode, s') := by
  simp only [ramfsCreate, hdir, ne_eq, not_true_eq_false, if_false, Option.bind_eq_bind,
    Option.pure_def]
  refine congrArg _ (funext fun found => ?_)
  cases found with
  | some m => rfl
  | none =>
    simp only [Option.isSome_none, Bool.false_eq_true, if_false, allocNode]
    by_cases hfail : s.fails s.allocs
    · simp only [hfail, if_true]
    · by_cases hdup : s.fails (s.allocs + 1)
      · simp [hfail, hdup, strdup, Option.map_eq_bind]
      · simp [hfail, hdup, strdup, Option.map_eq_bind]

theorem ramfsCreate_eq (h : s.Wired r S kids) (hp : p ∈ S) (hdir : s.type p = .directory)
    (str : CString) (type : FsNodeType) :
    ramfsCreate s (some p) str type = (findIn s.name str (kids p)).bind fun found =>
      if found.isSome then some (none, s)
      else if s.fails s.allocs then some (none, { s with allocs := s.allocs + 1 })
      else
        (appendChild (initNode { s with allocs := s.allocs + 2, nextNode := s.nextNode + 1 }
          s.nextNode (if s.fails (s.allocs + 1) then none else some str) type (some p)) p
            s.nextNode).map fun s' => (some s.nextNode, s') := by
  rw [ramfsCreate_directory hdir, ramfsFind_eq h hp]

/-- `ramfs_create` that adds a node. -/
theorem ramfsCreate_new (h : s.Wired r S kids) (hp : p ∈ S) (hdir : s.type p = .directory)
    (hfree : findIn s.name str (kids p) = some none) (halloc : s.fails s.allocs = false)
    (type : FsNodeType) :
    ∃ s', ramfsCreate s (some p) str type = some (some s.nextNode, s') ∧
      s.Created s' p (if s.fails (s.allocs + 1) then none else some str) type ∧
      s'.Wired r (insert s.nextNode S) (OrderedTree.placeKids kids p s.nextNode) ∧
      ∀ m, m ∉ insert s.nextNode S → s'.children m = s.children m := by
  obtain ⟨s', happend, hrest⟩ :=
    h.create hp (if s.fails (s.allocs + 1) then none else some str) type
  refine ⟨s', ?_, hrest⟩
  rw [ramfsCreate_eq h hp hdir, hfree, Option.bind_some]
  simp only [Option.isSome_none, Bool.false_eq_true, if_false, halloc]
  rw [happend]
  rfl

/-! ### `ramfs_remove` -/

/-- A leaf is taken out of the list of its parent. -/
theorem Ramfs.Wired.remove (h : s.Wired r S kids) (hn : n ∈ S) (hroot : n ≠ r)
    (hleaf : kids n = []) : ∃ children next, ramfsRemove s (some n) =
        some { s with
          children := children, next := next, freed := Function.update s.freed n true } ∧
      Ramfs.Wired { s with
          children := children, next := next, freed := Function.update s.freed n true }
        r (S \ {n}) (fun x => (kids x).erase n) ∧
      ∀ m, m ∉ S \ {n} → children m = s.children m := by
  obtain ⟨p, hkid⟩ := h.exists_kid n hn hroot
  have hp := (h.kids_mem p n hkid).1
  obtain ⟨children, next, hunlink, hsib, hchildren, hnext⟩ :=
    unlinkChild_eq h.siblings hp hkid (h.length_lt_fuel p)
  have hnull : s.children n = none := by
    have hchain := h.chain n hn
    rw [hleaf] at hchain
    exact hchain
  have hmem : ∀ x m, m ∈ (kids x).erase n ↔ m ≠ n ∧ m ∈ kids x :=
    fun x m => (h.nodup x).mem_erase_iff
  rw [← OrderedTree.erase_kids fun x hx => h.disjoint x p n hx hkid] at hsib
  have hpn : p ≠ n := by
    rintro rfl
    rw [hleaf] at hkid
    exact List.not_mem_nil hkid
  refine ⟨children, next, ?_, ?_, fun m hm => hchildren m fun heq => hm (heq ▸ ⟨hp, hpn⟩)⟩
  · have hroot' : s.root ≠ some n := fun heq => hroot (h.root_eq_iff.mp heq)
    simp only [ramfsRemove, if_neg hroot', hnull, Option.isSome_none, Bool.false_eq_true, if_false,
      h.parent n p hkid, hunlink, Option.bind_eq_bind, Option.bind_some, Option.pure_def]
  · refine ⟨h.root, ⟨h.root_mem, fun heq => hroot heq.symm⟩, fun q hq => hsib.chain q hq.1, ?_, ?_,
      fun q hq => h.root_not_mem q ((hmem q r).mp hq).2, ?_,
      fun m q hm => h.parent m q ((hmem q m).mp hm).2, h.parent_root, ?_, fun m => ?_,
      fun m hm => ?_⟩
    · intro q m hm
      obtain ⟨hne, hkid'⟩ := (hmem q m).mp hm
      refine ⟨⟨(h.kids_mem q m hkid').1, ?_⟩, (h.kids_mem q m hkid').2, hne⟩
      rintro rfl
      rw [hleaf] at hkid'
      exact List.not_mem_nil hkid'
    · intro x y m hx hy
      exact h.disjoint x y m ((hmem x m).mp hx).2 ((hmem y m).mp hy).2
    · rintro m ⟨hm, hne⟩ hmr
      obtain ⟨q, hq⟩ := h.exists_kid m hm hmr
      exact ⟨q, (hmem q m).mpr ⟨hne, hq⟩⟩
    · exact (hnext _ (h.root_not_mem p)).trans h.next_root
    · obtain rfl | hmn := eq_or_ne m n
      · simp [Ramfs.Live]
      · simp [Ramfs.Live, ← h.live, hmn]
    · have hmn : m ≠ n := Nat.ne_of_gt (lt_of_lt_of_le (h.lt_nextNode hn) hm)
      exact (Function.update_of_ne hmn ..).trans (h.unfreed m hm)

/-- The root and a node with children stay. -/
theorem ramfsRemove_refused (h : s.root = some n ∨ (s.children n).isSome) :
    ramfsRemove s (some n) = some s := by
  simp only [ramfsRemove]
  by_cases hroot : s.root = some n
  · rw [if_pos hroot]
  · rw [if_neg hroot, if_pos (h.resolve_left hroot)]

/-! ### `ramfs_move` -/

/-- What `ramfs_move` does to the links, unless it refuses. -/
theorem Ramfs.Wired.move (h : s.Wired r S kids) (hn : n ∈ S) (hp : p ∈ S) (hroot : n ≠ r)
    (hne : n ≠ p) (hfirst : s.children n ≠ some p) :
    ∃ children next, ramfsMove s (some n) (some p) =
        some (true, { s with
          children := children
          next := next
          parent := Function.update s.parent n (some p) }) ∧
      Ramfs.Wired { s with
          children := children
          next := next
          parent := Function.update s.parent n (some p) } r S (OrderedTree.placeKids kids p n) ∧
      ∀ m, m ∉ S → children m = s.children m := by
  obtain ⟨q, hkid⟩ := h.exists_kid n hn hroot
  have hq := (h.kids_mem q n hkid).1
  obtain ⟨children, next, hunlink, hsib, hchildren, hnext⟩ :=
    unlinkChild_eq h.siblings hq hkid (h.length_lt_fuel q)
  rw [← OrderedTree.erase_kids fun x hx => h.disjoint x q n hx hkid] at hsib
  have hnot : ∀ x ∈ S, n ∉ (kids x).erase n := fun x _ hx =>
    ((h.nodup x).mem_erase_iff.mp hx).1 rfl
  have hlen : ((kids p).erase n).length < s.fuel :=
    lt_of_le_of_lt (List.erase_sublist.length_le) (h.length_lt_fuel p)
  obtain ⟨children', next', happend, hsib', hchildren', hnext'⟩ := appendChild_eq
    (s := { s with children := children, next := Function.update next n none })
    (hsib.update_free hnot none) hp hnot (Function.update_self ..) hlen
  have hinsert : insert n S = S := Set.insert_eq_of_mem hn
  refine ⟨children', next', ?_, ?_, fun m hm => ?_⟩
  · have hroot' : s.root ≠ some n := fun heq => hroot (h.root_eq_iff.mp heq)
    simp only [ramfsMove, if_neg hroot', if_neg hne, h.parent n q hkid, if_neg hfirst, hunlink,
      happend, Option.bind_eq_bind, Option.bind_some, Option.pure_def]
  · rw [← hinsert]
    refine h.place hp hroot rfl ?_ ?_ rfl (fun m => ?_) h.unfreed
    · rw [hinsert, OrderedTree.placeKids_eq]
      exact hsib'
    · have hroot' : r ∉ (kids p).erase n := fun hr => h.root_not_mem p (List.mem_of_mem_erase hr)
      calc next' r = Function.update next n none r := hnext' _ hroot'
        _ = next r := Function.update_of_ne hroot.symm ..
        _ = s.next r := hnext _ (h.root_not_mem q)
        _ = none := h.next_root
    · rw [hinsert]
      exact h.live m
  · have hmp : m ≠ p := fun heq => hm (heq ▸ hp)
    have hmq : m ≠ q := fun heq => hm (heq ▸ hq)
    exact (hchildren' m hmp).trans (hchildren m hmq)

/-- A move that `ramfs_move` refuses. -/
theorem ramfsMove_refused (h : s.root = some n ∨ n = p ∨ s.children n = some p) :
    ramfsMove s (some n) (some p) = some (false, s) := by
  simp only [ramfsMove]
  by_cases hroot : s.root = some n
  · rw [if_pos hroot]
  · rw [if_neg hroot]
    by_cases hne : n = p
    · rw [if_pos hne]
    · rw [if_neg hne]
      have hfirst : s.children n = some p := (h.resolve_left hroot).resolve_left hne
      cases s.parent n with
      | none => rfl
      | some q => simp only [if_pos hfirst]

/-! ### What stays, whatever the links are -/

/-- What `unlinkChild` does: the node is the first child, or comes after another one, or is not
found. -/
theorem unlinkChild_steps {r : Bool} (h : unlinkChild s p n = some (r, s')) :
    (r = true ∧ s.children p = some n ∧
        s' = { s with children := Function.update s.children p (s.next n) }) ∨
      s.children p ≠ some n ∧
        ((∃ a, r = true ∧ seekPrev s.next n s.fuel (s.children p) = some (some a) ∧
            s' = { s with next := Function.update s.next a (s.next n) }) ∨
          r = false ∧ seekPrev s.next n s.fuel (s.children p) = some none ∧ s' = s) := by
  unfold unlinkChild at h
  split_ifs at h with hfirst
  · obtain ⟨rfl, rfl⟩ : true = r ∧ _ = s' := by simpa using h
    exact .inl ⟨rfl, hfirst, rfl⟩
  · simp only [Option.bind_eq_bind, Option.bind_eq_some_iff, Option.pure_def] at h
    obtain ⟨found, hseek, h⟩ := h
    refine .inr ⟨hfirst, ?_⟩
    cases found with
    | none =>
      obtain ⟨rfl, rfl⟩ : false = r ∧ s = s' := by simpa using h
      exact .inr ⟨rfl, hseek, rfl⟩
    | some a =>
      obtain ⟨rfl, rfl⟩ : true = r ∧ _ = s' := by simpa using h
      exact .inl ⟨a, rfl, hseek, rfl⟩

/-- What `appendChild` does: the node becomes the first child, or comes after another one. -/
theorem appendChild_steps (h : appendChild s p n = some s') :
    (s.children p = none ∧ s' = { s with children := Function.update s.children p (some n) }) ∨
      s.children p ≠ none ∧ ∃ a, s' = { s with next := Function.update s.next a (some n) } := by
  unfold appendChild at h
  cases hfirst : s.children p with
  | none =>
    rw [hfirst] at h
    exact .inl ⟨rfl, (Option.some.inj h).symm⟩
  | some first =>
    simp only [hfirst, Option.bind_eq_bind, Option.bind_eq_some_iff, Option.pure_def] at h
    obtain ⟨a, -, h⟩ := h
    exact .inr ⟨by simp, a, (Option.some.inj h).symm⟩

theorem unlinkChild_frame {r : Bool} (h : unlinkChild s p n = some (r, s')) :
    ∃ children next, s' = { s with children := children, next := next } := by
  obtain ⟨-, -, rfl⟩ | ⟨-, ⟨a, -, -, rfl⟩ | ⟨-, -, rfl⟩⟩ := unlinkChild_steps h
  · exact ⟨_, _, rfl⟩
  · exact ⟨_, _, rfl⟩
  · exact ⟨_, _, rfl⟩

theorem appendChild_frame (h : appendChild s p n = some s') :
    ∃ children next, s' = { s with children := children, next := next } := by
  obtain ⟨-, rfl⟩ | ⟨-, a, rfl⟩ := appendChild_steps h
  · exact ⟨_, _, rfl⟩
  · exact ⟨_, _, rfl⟩

/-- Nothing has changed but the links, and which nodes have been freed. -/
structure Ramfs.Relinked (s s' : Ramfs) : Prop where
  root : s'.root = s.root
  name : s'.name = s.name
  size : s'.size = s.size
  data : s'.data = s.data
  type : s'.type = s.type
  parent : s'.parent = s.parent
  bytes : s'.bytes = s.bytes
  length : s'.length = s.length
  nextNode : s'.nextNode = s.nextNode
  nextBlock : s'.nextBlock = s.nextBlock
  allocs : s'.allocs = s.allocs
  fails : s'.fails = s.fails

theorem Ramfs.Relinked.refl (s : Ramfs) : s.Relinked s :=
  ⟨rfl, rfl, rfl, rfl, rfl, rfl, rfl, rfl, rfl, rfl, rfl, rfl⟩

theorem Ramfs.Relinked.trans (h : s.Relinked s') (h' : s'.Relinked s'') : s.Relinked s'' where
  root := h'.root.trans h.root
  name := h'.name.trans h.name
  size := h'.size.trans h.size
  data := h'.data.trans h.data
  type := h'.type.trans h.type
  parent := h'.parent.trans h.parent
  bytes := h'.bytes.trans h.bytes
  length := h'.length.trans h.length
  nextNode := h'.nextNode.trans h.nextNode
  nextBlock := h'.nextBlock.trans h.nextBlock
  allocs := h'.allocs.trans h.allocs
  fails := h'.fails.trans h.fails

/-- What `ramfs_remove` can do: nothing, or take the node out of the children of its parent. -/
theorem ramfsRemove_steps {node : Option NodeId} (h : ramfsRemove s node = some s') :
    s' = s ∨ ∃ n p r s₁, node = some n ∧ unlinkChild s p n = some (r, s₁) ∧
      s' = { s₁ with freed := Function.update s₁.freed n true } := by
  cases node with
  | none =>
    obtain rfl : s = s' := by simpa [ramfsRemove] using h
    exact .inl rfl
  | some n =>
    by_cases hrefused : s.root = some n ∨ (s.children n).isSome
    · rw [ramfsRemove_refused hrefused] at h
      exact .inl (Option.some.inj h).symm
    · obtain ⟨hroot, hkids⟩ := not_or.mp hrefused
      simp only [ramfsRemove, if_neg hroot, if_neg hkids] at h
      cases hparent : s.parent n with
      | none =>
        rw [hparent] at h
        exact .inl (Option.some.inj h).symm
      | some p =>
        simp only [hparent, Option.bind_eq_bind, Option.bind_eq_some_iff, Option.pure_def] at h
        obtain ⟨⟨r, s₁⟩, hunlink, h⟩ := h
        exact .inr ⟨n, p, r, s₁, rfl, hunlink, (Option.some.inj h).symm⟩

theorem ramfsRemove_relinked {node : Option NodeId} (h : ramfsRemove s node = some s') :
    s.Relinked s' := by
  obtain rfl | ⟨n, p, r, s₁, -, hunlink, rfl⟩ := ramfsRemove_steps h
  · exact .refl s'
  · obtain ⟨children, next, rfl⟩ := unlinkChild_frame hunlink
    exact ⟨rfl, rfl, rfl, rfl, rfl, rfl, rfl, rfl, rfl, rfl, rfl, rfl⟩

/-- A node that is not found is not taken out. -/
theorem unlinkChild_false (h : unlinkChild s p n = some (false, s')) : s' = s := by
  obtain ⟨hr, -⟩ | ⟨-, ⟨a, hr, -⟩ | ⟨-, -, hsame⟩⟩ := unlinkChild_steps h
  · cases hr
  · cases hr
  · exact hsame

/-- What `ramfs_move` does: it refuses, and nothing happens, or it takes the node out and appends
it. -/
theorem ramfsMove_steps {r : Bool} (h : ramfsMove s (some n) (some p) = some (r, s')) :
    (r = false ∧ s' = s ∧ (s.root = some n ∨ n = p ∨ s.children n = some p ∨ s.parent n = none ∨
      ∃ q, s.parent n = some q ∧ unlinkChild s q n = some (false, s))) ∨
    r = true ∧ s.root ≠ some n ∧ n ≠ p ∧ s.children n ≠ some p ∧ ∃ q s₁ s₂,
      s.parent n = some q ∧ unlinkChild s q n = some (true, s₁) ∧
      appendChild { s₁ with next := Function.update s₁.next n none } p n = some s₂ ∧
      s' = { s₂ with parent := Function.update s₂.parent n (some p) } := by
  by_cases hrefused : s.root = some n ∨ n = p ∨ s.children n = some p
  · rw [ramfsMove_refused hrefused] at h
    obtain ⟨rfl, rfl⟩ : false = r ∧ s = s' := by simpa using h
    exact .inl ⟨rfl, rfl, by tauto⟩
  · simp only [not_or] at hrefused
    obtain ⟨hroot, hne, hfirst⟩ := hrefused
    simp only [ramfsMove, if_neg hroot, if_neg hne, if_neg hfirst] at h
    cases hparent : s.parent n with
    | none =>
      obtain ⟨rfl, rfl⟩ : false = r ∧ s = s' := by simpa [hparent] using h
      exact .inl ⟨rfl, rfl, by simp⟩
    | some q =>
      simp only [hparent, Option.bind_eq_bind, Option.bind_eq_some_iff, Option.pure_def] at h
      obtain ⟨⟨found, s₁⟩, hunlink, h⟩ := h
      cases found with
      | false =>
        obtain ⟨rfl, rfl⟩ : false = r ∧ s₁ = s' := by simpa using h
        obtain rfl := unlinkChild_false hunlink
        exact .inl ⟨rfl, rfl, by simp [hunlink]⟩
      | true =>
        simp only [Option.bind_eq_some_iff] at h
        obtain ⟨s₂, happend, h⟩ := h
        obtain ⟨rfl, rfl⟩ : true = r ∧ _ = s' := by simpa using h
        exact .inr ⟨rfl, hroot, hne, hfirst, q, s₁, s₂, rfl, hunlink, happend, rfl⟩

/-- `ramfs_move` changes the links and the parent fields. -/
theorem ramfsMove_frame {node newParent : Option NodeId} {r : Bool}
    (h : ramfsMove s node newParent = some (r, s')) : ∃ children next parent,
      s' = { s with children := children, next := next, parent := parent } := by
  cases node with
  | none =>
    obtain ⟨-, rfl⟩ : false = r ∧ s = s' := by simpa [ramfsMove] using h
    exact ⟨_, _, _, rfl⟩
  | some n =>
    cases newParent with
    | none =>
      obtain ⟨-, rfl⟩ : false = r ∧ s = s' := by simpa [ramfsMove] using h
      exact ⟨_, _, _, rfl⟩
    | some p =>
      obtain ⟨-, rfl, -⟩ | ⟨-, -, -, -, q, s₁, s₂, -, hunlink, happend, rfl⟩ := ramfsMove_steps h
      · exact ⟨_, _, _, rfl⟩
      · obtain ⟨children, next, rfl⟩ := unlinkChild_frame hunlink
        obtain ⟨children', next', rfl⟩ := appendChild_frame happend
        exact ⟨_, _, _, rfl⟩

/-- `ramfs_rename` changes names only. -/
theorem ramfsRename_frame {node : Option NodeId} {newName : CString} {r : Bool}
    (h : ramfsRename s node newName = some (r, s')) :
    ∃ name allocs, s' = { s with name := name, allocs := allocs } := by
  cases node with
  | none =>
    obtain ⟨-, rfl⟩ : false = r ∧ s = s' := by simpa [ramfsRename] using h
    exact ⟨_, _, rfl⟩
  | some n =>
    simp only [ramfsRename, Option.bind_eq_bind, Option.bind_eq_some_iff, Option.pure_def] at h
    obtain ⟨found, -, h⟩ := h
    by_cases hfound : found.isSome
    · rw [if_pos hfound] at h
      obtain ⟨-, rfl⟩ : false = r ∧ s = s' := by simpa using h
      exact ⟨_, _, rfl⟩
    · obtain ⟨str, -, hdup⟩ := strdup_cases s newName
      rw [if_neg hfound, hdup] at h
      obtain ⟨-, rfl⟩ : str.isSome = r ∧ _ = s' := by simpa using h
      exact ⟨_, _, rfl⟩

/-- `ramfs_write` changes the data only. -/
theorem ramfsWrite_frame (s : Ramfs) (node : Option NodeId) (buffer : Machine.Mem) (size : ℕ) :
    ∃ sizes data bytes length nextBlock allocs, (ramfsWrite s node buffer size).2 = { s with
      size := sizes, data := data, bytes := bytes, length := length, nextBlock := nextBlock,
      allocs := allocs } := by
  cases node with
  | none => exact ⟨_, _, _, _, _, _, rfl⟩
  | some n =>
    simp only [ramfsWrite]
    by_cases htype : s.type n ≠ .file
    · rw [if_pos htype]
      exact ⟨_, _, _, _, _, _, rfl⟩
    · rw [if_neg htype]
      obtain ⟨allocs, -, halloc | ⟨-, halloc⟩⟩ := allocBlock_cases s size
      · rw [halloc]
        exact ⟨_, _, _, _, _, _, rfl⟩
      · rw [halloc]
        exact ⟨_, _, _, _, _, _, rfl⟩

/-- One round of `ramfs_delete`: it deletes the first child and goes on, or removes the node. -/
theorem ramfsDelete_steps {fuel : ℕ} {r : Bool}
    (h : ramfsDelete (fuel + 1) s (some n) = some (r, s')) :
    (∃ child r₁ s₁, s.children n = some child ∧ ramfsDelete fuel s (some child) = some (r₁, s₁) ∧
      ramfsDelete fuel s₁ (some n) = some (r, s')) ∨ ramfsRemove s (some n) = some s' := by
  rw [ramfsDelete] at h
  cases hfirst : s.children n with
  | some child =>
    simp only [hfirst, Option.bind_eq_bind, Option.bind_eq_some_iff] at h
    obtain ⟨⟨r₁, s₁⟩, hchild, hrest⟩ := h
    exact .inl ⟨child, r₁, s₁, rfl, hchild, hrest⟩
  | none =>
    simp only [hfirst, Option.bind_eq_bind, Option.bind_eq_some_iff, Option.pure_def] at h
    obtain ⟨s₁, hremove, h⟩ := h
    obtain ⟨-, rfl⟩ : true = r ∧ s₁ = s' := by simpa using h
    exact .inr hremove

/-- What every `ramfs_remove` does to the nodes, `ramfs_delete` does to them. -/
theorem ramfsDelete_of_remove {R : Ramfs → Ramfs → Prop} (hrefl : ∀ s, R s s)
    (htrans : ∀ {s₁ s₂ s₃}, R s₁ s₂ → R s₂ s₃ → R s₁ s₃)
    (hremove : ∀ {s s' node}, ramfsRemove s node = some s' → R s s')
    {fuel : ℕ} {node : Option NodeId} {r : Bool}
    (h : ramfsDelete fuel s node = some (r, s')) : R s s' := by
  induction fuel generalizing s node r s' with
  | zero => simp [ramfsDelete] at h
  | succ fuel ih =>
    cases node with
    | none =>
      obtain ⟨-, rfl⟩ : false = r ∧ s = s' := by simpa [ramfsDelete] using h
      exact hrefl s
    | some n =>
      obtain ⟨child, r₁, s₁, -, hchild, hrest⟩ | hlast := ramfsDelete_steps h
      · exact htrans (ih hchild) (ih hrest)
      · exact hremove hlast

theorem ramfsDelete_relinked {fuel : ℕ} {node : Option NodeId} {r : Bool}
    (h : ramfsDelete fuel s node = some (r, s')) : s.Relinked s' :=
  ramfsDelete_of_remove .refl .trans ramfsRemove_relinked h

/-! ### `ramfs_copy` -/

variable {fuel : ℕ}

/-- What one call of `ramfs_copy` does: it creates a node under the name of the old one, or with
`_copy` after it, and then nothing more, or copies the children, or takes the node back, or fills
it. -/
theorem ramfsCopy_steps {r : Option NodeId}
    (h : ramfsCopy (fuel + 1) s (some n) (some p) = some (r, s')) :
    ∃ name found copy s₁, s.name n = some name ∧ ramfsFind s (some p) name = some found ∧
      ramfsCreate s (some p) (if found.isSome then copyName name else name) (s.type n) =
        some (copy, s₁) ∧
      (s' = s₁ ∨ ∃ c, copy = some c ∧
        (s₁.type n = .directory ∧ copyChildren fuel s₁ (s₁.children n) c = some s' ∨
        (s₁.fails s₁.allocs = true ∧ ∃ r₁, ramfsDelete fuel { s₁ with
          allocs := s₁.allocs + 1
          data := Function.update s₁.data c none } (some c) = some (r₁, s')) ∨
        ∃ source, s' = { s₁ with
          allocs := s₁.allocs + 1
          nextBlock := s₁.nextBlock + 1
          length := Function.update s₁.length s₁.nextBlock (s₁.size n)
          data := Function.update s₁.data c (some s₁.nextBlock)
          bytes := Function.update s₁.bytes s₁.nextBlock
            (memcpy (s₁.bytes s₁.nextBlock) 0 (s₁.bytes source) 0 (s₁.size n))
          size := Function.update s₁.size c (s₁.size n) })) := by
  simp only [ramfsCopy, Option.bind_eq_bind, Option.bind_eq_some_iff, Option.pure_def] at h
  obtain ⟨name, hname, found, hfind, ⟨copy₁, s₁⟩, hcreate, h⟩ := h
  refine ⟨name, found, copy₁, s₁, hname, hfind, hcreate, ?_⟩
  cases copy₁ with
  | none =>
    obtain ⟨-, rfl⟩ : none = r ∧ s₁ = s' := by simpa using h
    exact .inl rfl
  | some c =>
    cases htype : s₁.type n with
    | directory =>
      simp only [htype, Option.bind_eq_some_iff] at h
      obtain ⟨s₂, hloop, h⟩ := h
      obtain ⟨-, rfl⟩ : some c = r ∧ s₂ = s' := by simpa using h
      exact .inr ⟨c, rfl, .inl ⟨rfl, hloop⟩⟩
    | file =>
      simp only [htype] at h
      by_cases hzero : s₁.size n = 0
      · obtain ⟨-, rfl⟩ : some c = r ∧ s₁ = s' := by simpa [hzero] using h
        exact .inl rfl
      · refine .inr ⟨c, rfl, .inr ?_⟩
        simp only [if_neg hzero, allocBlock] at h
        by_cases hfail : s₁.fails s₁.allocs = true
        · simp only [hfail, if_true, Option.bind_eq_some_iff] at h
          obtain ⟨⟨r₁, s₂⟩, hdelete, h⟩ := h
          obtain ⟨-, rfl⟩ : none = r ∧ s₂ = s' := by simpa using h
          exact .inl ⟨hfail, r₁, hdelete⟩
        · simp only [if_neg hfail, Option.bind_eq_some_iff] at h
          obtain ⟨source, -, h⟩ := h
          obtain ⟨-, rfl⟩ : some c = r ∧ _ = s' := by simpa using h
          exact .inr ⟨source, rfl⟩

/-- The same, whatever the name is. -/
theorem ramfsCopy_cases {r : Option NodeId}
    (h : ramfsCopy (fuel + 1) s (some n) (some p) = some (r, s')) :
    ∃ str copy s₁, ramfsCreate s (some p) str (s.type n) = some (copy, s₁) ∧
      (s' = s₁ ∨ ∃ c, copy = some c ∧
        (copyChildren fuel s₁ (s₁.children n) c = some s' ∨
        (s₁.fails s₁.allocs = true ∧ ∃ r₁, ramfsDelete fuel { s₁ with
          allocs := s₁.allocs + 1
          data := Function.update s₁.data c none } (some c) = some (r₁, s')) ∨
        ∃ source, s' = { s₁ with
          allocs := s₁.allocs + 1
          nextBlock := s₁.nextBlock + 1
          length := Function.update s₁.length s₁.nextBlock (s₁.size n)
          data := Function.update s₁.data c (some s₁.nextBlock)
          bytes := Function.update s₁.bytes s₁.nextBlock
            (memcpy (s₁.bytes s₁.nextBlock) 0 (s₁.bytes source) 0 (s₁.size n))
          size := Function.update s₁.size c (s₁.size n) })) := by
  obtain ⟨name, found, copy, s₁, -, -, hcreate, hrest⟩ := ramfsCopy_steps h
  refine ⟨_, copy, s₁, hcreate, hrest.imp_right fun ⟨c, hc, hrest⟩ => ⟨c, hc, ?_⟩⟩
  exact hrest.imp_left And.right

theorem ramfsCopy_of_null {node newParent : Option NodeId} {r : Option NodeId}
    (hnull : node = none ∨ newParent = none)
    (h : ramfsCopy fuel s node newParent = some (r, s')) : s' = s := by
  cases fuel with
  | zero => exact absurd h (by simp [ramfsCopy])
  | succ fuel =>
    cases node with
    | none => exact (by simpa [ramfsCopy] using h : none = r ∧ s = s').2.symm
    | some n =>
      obtain rfl := hnull.resolve_left (by simp)
      exact (by simpa [ramfsCopy] using h : none = r ∧ s = s').2.symm

/-- What one round of the loop of `ramfs_copy` does. -/
theorem copyChildren_cases {child : Option NodeId} {c : NodeId}
    (h : copyChildren (fuel + 1) s child c = some s') :
    child = none ∧ s' = s ∨ ∃ n r s₁, child = some n ∧
      ramfsCopy fuel s (some n) (some c) = some (r, s₁) ∧
      copyChildren fuel s₁ (s₁.next n) c = some s' := by
  cases child with
  | none =>
    obtain rfl : s = s' := by simpa [copyChildren] using h
    exact .inl ⟨rfl, rfl⟩
  | some n =>
    simp only [copyChildren, Option.bind_eq_bind, Option.bind_eq_some_iff] at h
    obtain ⟨⟨r, s₁⟩, hcopy, hrest⟩ := h
    exact .inr ⟨n, r, s₁, rfl, hcopy, hrest⟩

/-- What holds between the states before and after each step of a copy holds of the whole copy. -/
theorem ramfsCopy_rel {R : Ramfs → Ramfs → Prop} (hrefl : ∀ s, R s s)
    (htrans : ∀ {s₁ s₂ s₃}, R s₁ s₂ → R s₂ s₃ → R s₁ s₃)
    (hcreate : ∀ {s s₁ p str type copy}, ramfsCreate s (some p) str type = some (copy, s₁) → R s s₁)
    (hdelete : ∀ {s s₁ s' p str type c fuel r},
      ramfsCreate s (some p) str type = some (some c, s₁) →
      ramfsDelete fuel { s₁ with
        allocs := s₁.allocs + 1
        data := Function.update s₁.data c none } (some c) = some (r, s') → R s s')
    (hfill : ∀ {s s₁ p str type c bytes size},
      ramfsCreate s (some p) str type = some (some c, s₁) →
      R s { s₁ with
        allocs := s₁.allocs + 1
        nextBlock := s₁.nextBlock + 1
        length := Function.update s₁.length s₁.nextBlock size
        data := Function.update s₁.data c (some s₁.nextBlock)
        bytes := Function.update s₁.bytes s₁.nextBlock bytes
        size := Function.update s₁.size c size }) (fuel : ℕ) :
    (∀ {s s' : Ramfs} {node newParent r},
      ramfsCopy fuel s node newParent = some (r, s') → R s s') ∧
    ∀ {s s' : Ramfs} {child copy}, copyChildren fuel s child copy = some s' → R s s' := by
  induction fuel with
  | zero => exact ⟨by simp [ramfsCopy], by simp [copyChildren]⟩
  | succ fuel ih =>
    obtain ⟨ih, ihLoop⟩ := ih
    constructor
    · intro s s' node newParent r hr
      by_cases hnull : node = none ∨ newParent = none
      · rw [ramfsCopy_of_null hnull hr]
        exact hrefl s
      · obtain ⟨hn, hp⟩ := not_or.mp hnull
        obtain ⟨n, rfl⟩ := Option.ne_none_iff_exists'.mp hn
        obtain ⟨p, rfl⟩ := Option.ne_none_iff_exists'.mp hp
        obtain ⟨str, copy, s₁, hnew, hrest⟩ := ramfsCopy_cases hr
        obtain rfl | ⟨c, rfl, hloop | ⟨-, r₁, hagain⟩ | ⟨source, rfl⟩⟩ := hrest
        · exact hcreate hnew
        · exact htrans (hcreate hnew) (ihLoop hloop)
        · exact hdelete hnew hagain
        · exact hfill hnew
    · intro s s' child copy hr
      obtain ⟨-, rfl⟩ | ⟨n, r, s₁, rfl, hcopy, hrest⟩ := copyChildren_cases hr
      · exact hrefl s'
      · exact htrans (ih hcopy) (ihLoop hrest)

end Bethany
