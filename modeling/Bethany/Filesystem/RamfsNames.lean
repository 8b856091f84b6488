import Bethany.Filesystem.RamfsTree

/-!
# The names of siblings

`ramfs_create`, `ramfs_rename` and `ramfs_copy` look for the name before they give it to a node.
`ramfs_move` does not.

* `Ramfs.Findable`: the children of a node have different names, and are found by them;
* `FsCall.NameFree`: a move takes no name to a directory in which it is in use;
* `Ramfs.Named`: the invariant; `Ramfs.Named.exec`: what one call keeps of it;
* `siblings_findable`: the runs whose moves are all like this.

A move can also give children to a file.  So the statements are about the nodes of some types,
which may be directories only.
-/

namespace Bethany

open LinkedList Relation

/-! ### The property -/

/-- The children of `d` have different names.  `ramfs_find` finds each by its name, and nothing
by any other name. -/
def Ramfs.Findable (s : Ramfs) (d : NodeId) : Prop :=
  ∃ l, Chain s.next (s.children d) l ∧
    (∀ a ∈ l, ∀ b ∈ l, s.name a = s.name b → a = b) ∧
    (∀ c ∈ l, ∃ str, s.name c = some str ∧ ramfsFind s (some d) str = some (some c)) ∧
    ∀ str, ramfsFind s (some d) str = some none ↔ ∀ c ∈ l, s.name c ≠ some str

/-- If a move that `ramfs_move` does not refuse goes to a node of these types, none of the other
children of this has the name of the node. -/
def FsCall.NameFree (types : Set FsNodeType) (s : Ramfs) : FsCall → Prop
  | .move (some node) (some newParent) => s.root = some node ∨ node = newParent ∨
      s.children node = some newParent ∨ (s.type newParent ∈ types →
        ∀ c, Linked s.next (s.children newParent) c → c ≠ node → s.name c ≠ s.name node)
  | _ => True

variable {s s' : Ramfs} {r n m p : NodeId} {S : Set NodeId} {kids : NodeId → List NodeId}
  {str : CString} {fuel : ℕ} {call : FsCall} {types : Set FsNodeType}

/-! ### The invariant -/

/-- All live nodes have names, which are different for siblings below a node of these types.  Only
live nodes have children.  There is always memory. -/
structure Ramfs.Named (s : Ramfs) (types : Set FsNodeType) (r : NodeId) (S : Set NodeId)
    (kids : NodeId → List NodeId) : Prop where
  wired : s.Wired r S kids
  named : ∀ n ∈ S, (s.name n).isSome
  distinct : ∀ p, s.type p ∈ types → ∀ a ∈ kids p, ∀ b ∈ kids p, s.name a = s.name b → a = b
  childless : ∀ n, n ∉ S → s.children n = none
  fails : ∀ i, s.fails i = false

namespace Ramfs.Named

theorem kids_named (h : s.Named types r S kids) (p : NodeId) : ∀ a ∈ kids p, (s.name a).isSome :=
  fun a ha => h.named a (h.wired.kids_mem p a ha).2

theorem find_eq (h : s.Named types r S kids) (hp : p ∈ S) (str : CString) :
    ramfsFind s (some p) str = some ((kids p).find? (s.name · = some str)) := by
  rw [ramfsFind_eq h.wired hp, findIn_eq_find? (h.kids_named p)]

theorem findable (h : s.Named types r S kids) (hp : p ∈ S) (htype : s.type p ∈ types) :
    s.Findable p := by
  refine ⟨kids p, h.wired.chain p hp, h.distinct p htype, fun c hc => ?_, fun str => ?_⟩
  · obtain ⟨str, hstr⟩ := Option.isSome_iff_exists.mp (h.kids_named p c hc)
    refine ⟨str, hstr, ?_⟩
    rw [h.find_eq hp]
    cases hfind : (kids p).find? (s.name · = some str) with
    | none =>
      rw [List.find?_eq_none] at hfind
      exact absurd hstr (by simpa using hfind c hc)
    | some a =>
      have ha : s.name a = some str := by simpa using List.find?_some hfind
      rw [h.distinct p htype a (List.mem_of_find?_eq_some hfind) c hc (ha.trans hstr.symm)]
  · rw [h.find_eq hp]
    simp [List.find?_eq_none]

/-- A change to the data and the allocations. -/
theorem congr (h : s.Named types r S kids) (hroot : s'.root = s.root)
    (hchildren : s'.children = s.children) (hnext : s'.next = s.next)
    (hparent : s'.parent = s.parent) (hnode : s'.nextNode = s.nextNode)
    (hfreed : s'.freed = s.freed) (hname : s'.name = s.name) (hfails : s'.fails = s.fails)
    (htype : s'.type = s.type) :
    s'.Named types r S kids where
  wired := h.wired.congr hroot hchildren hnext hparent hnode hfreed
  named := by
    rw [hname]
    exact h.named
  distinct := by
    rw [hname, htype]
    exact h.distinct
  childless := by
    rw [hchildren]
    exact h.childless
  fails := by
    rw [hfails]
    exact h.fails

end Ramfs.Named

/-! ### The calls -/

/-- `ramfs_create` gives a new name, or does nothing. -/
theorem Ramfs.Named.create (h : s.Named types r S kids) (hp : p ∈ S) {type : FsNodeType}
    {c : Option NodeId} (hr : ramfsCreate s (some p) str type = some (c, s')) :
    ∃ S' kids', s'.Named types r S' kids' ∧ S ⊆ S' ∧ ∀ n, c = some n → n ∈ S' := by
  by_cases hdir : s.type p = .directory
  · cases hfind : findIn s.name str (kids p) with
    | none =>
      rw [ramfsCreate_eq h.wired hp hdir, hfind] at hr
      simp at hr
    | some found =>
      cases found with
      | some m =>
        rw [ramfsCreate_eq h.wired hp hdir, hfind] at hr
        obtain ⟨rfl, rfl⟩ : none = c ∧ s = s' := by simpa using hr
        exact ⟨S, kids, h, subset_rfl, by simp⟩
      | none =>
        obtain ⟨s₁, hcreate, hnew, hwired, hframe⟩ :=
          ramfsCreate_new h.wired hp hdir hfind (h.fails _) type
        obtain ⟨rfl, rfl⟩ : some s.nextNode = c ∧ s₁ = s' := by simpa [hcreate] using hr
        have hfree := findIn_eq_none_iff.mp hfind
        have hold : ∀ {n}, n ∈ S → s₁.name n = s.name n := by
          intro n hn
          have hne : n ≠ s.nextNode := fun heq => h.wired.nextNode_not_mem (heq ▸ hn)
          rw [hnew.name, Function.update_of_ne hne]
        have hname : s₁.name s.nextNode = some str := by
          rw [hnew.name, Function.update_self, h.fails]
          rfl
        have hmem : ∀ {q a}, a ∈ OrderedTree.placeKids kids p s.nextNode q →
            a ∈ kids q ∨ q = p ∧ a = s.nextNode := fun {q a} ha =>
          ((OrderedTree.mem_placeKids_of_nodup (h.wired.nodup q)).mp ha).imp_left And.right
        refine ⟨_, _, ⟨hwired, ?_, ?_, ?_, ?_⟩, Set.subset_insert _ _, ?_⟩
        · rintro n (rfl | hn)
          · simp [hname]
          · rw [hold hn]
            exact h.named n hn
        · intro q hq a ha b hb heq
          have hqS : q ∈ S := by
            obtain ha' | ⟨rfl, -⟩ := hmem ha
            · exact (h.wired.kids_mem q a ha').1
            · exact hp
          have hqne : q ≠ s.nextNode := fun heq => h.wired.nextNode_not_mem (heq ▸ hqS)
          rw [hnew.type, Function.update_of_ne hqne] at hq
          obtain ha' | ⟨rfl, rfl⟩ := hmem ha
          · have haS := (h.wired.kids_mem q a ha').2
            obtain hb' | ⟨rfl, rfl⟩ := hmem hb
            · have hbS := (h.wired.kids_mem q b hb').2
              rw [hold haS, hold hbS] at heq
              exact h.distinct q hq a ha' b hb' heq
            · rw [hold haS, hname] at heq
              exact absurd heq (hfree a ha').2
          · obtain hb' | ⟨-, rfl⟩ := hmem hb
            · rw [hold (h.wired.kids_mem q b hb').2, hname] at heq
              exact absurd heq.symm (hfree b hb').2
            · rfl
        · intro m hm
          rw [hframe m hm]
          exact h.childless m fun hmS => hm (.inr hmS)
        · rw [hnew.fails]
          exact h.fails
        · rintro n ⟨⟩
          exact Set.mem_insert _ _
  · obtain ⟨rfl, rfl⟩ : none = c ∧ s = s' := by simpa [ramfsCreate, hdir] using hr
    exact ⟨S, kids, h, subset_rfl, by simp⟩

/-- A node that has been removed before is in no list any more. -/
theorem ramfsRemove_dead (h : s.Named types r S kids) (hn : n ∉ S) (hlt : n < s.nextNode) :
    ramfsRemove s (some n) = some s := by
  have hroot : s.root ≠ some n := by
    intro heq
    rw [h.wired.root_eq_iff.mp heq] at hn
    exact hn h.wired.root_mem
  have hfreed : Function.update s.freed n true = s.freed := by
    have : s.freed n = true := by
      by_contra hfree
      exact hn ((h.wired.live n).mp ⟨hlt, by simpa using hfree⟩)
    rw [← this, Function.update_eq_self]
  simp only [ramfsRemove, hroot, if_false, h.childless n hn, Option.isSome_none, Bool.false_eq_true]
  cases s.parent n with
  | none => rfl
  | some p =>
    have hunlink : unlinkChild s p n = some (false, s) := by
      by_cases hp : p ∈ S
      · exact unlinkChild_of_not_mem (h.wired.chain p hp)
          (fun hkid => hn (h.wired.kids_mem p n hkid).2) (h.wired.length_lt_fuel p)
      · have hchain : Chain s.next (s.children p) [] := h.childless p hp
        exact unlinkChild_of_not_mem hchain List.not_mem_nil (Nat.succ_pos _)
    simp [hunlink, hfreed]

theorem Ramfs.Named.remove (h : s.Named types r S kids) (hlt : n < s.nextNode)
    (hr : ramfsRemove s (some n) = some s') : ∃ S' kids', s'.Named types r S' kids' := by
  by_cases hn : n ∈ S
  · by_cases hrefused : s.root = some n ∨ (s.children n).isSome
    · rw [ramfsRemove_refused hrefused] at hr
      exact ⟨S, kids, Option.some.inj hr ▸ h⟩
    · obtain ⟨hroot, hkids⟩ := not_or.mp hrefused
      have hleaf : kids n = [] := by
        have hchain := h.wired.chain n hn
        rw [Option.not_isSome_iff_eq_none.mp hkids] at hchain
        exact chain_none.mp hchain
      have hne : n ≠ r := fun heq => hroot (h.wired.root_eq_iff.mpr heq)
      obtain ⟨children, next, hremove, hwired, hframe⟩ := h.wired.remove hn hne hleaf
      obtain rfl := Option.some.inj (hremove.symm.trans hr)
      refine ⟨_, _, hwired, fun m hm => h.named m hm.1, ?_, ?_, h.fails⟩
      · intro q hq a ha b hb heq
        exact h.distinct q hq a (List.mem_of_mem_erase ha) b (List.mem_of_mem_erase hb) heq
      · intro m hm
        refine (hframe m hm).trans ?_
        by_cases hmS : m ∈ S
        · obtain rfl : m = n := by_contra fun hmn => hm ⟨hmS, hmn⟩
          exact Option.not_isSome_iff_eq_none.mp hkids
        · exact h.childless m hmS
  · rw [ramfsRemove_dead h hn hlt] at hr
    exact ⟨S, kids, Option.some.inj hr ▸ h⟩

/-- `ramfs_delete`, even of a node that a call on the way has removed. -/
theorem Ramfs.Named.delete {c : Bool} (h : s.Named types r S kids) (hlt : n < s.nextNode)
    (hr : ramfsDelete fuel s (some n) = some (c, s')) : ∃ S' kids', s'.Named types r S' kids' := by
  induction fuel generalizing s S kids n c s' with
  | zero => exact absurd hr (by simp [ramfsDelete])
  | succ fuel ih =>
    obtain ⟨child, c₁, s₁, hfirst, hchild, hrest⟩ | hremove := ramfsDelete_steps hr
    · have hn : n ∈ S := by
        by_contra hn
        rw [h.childless n hn] at hfirst
        exact absurd hfirst (Option.some_ne_none child).symm
      have hkid : child ∈ kids n := by
        have hhead := (h.wired.chain n hn).head_eq
        rw [hfirst] at hhead
        exact List.mem_of_head? hhead.symm
      obtain ⟨S₁, kids₁, h₁⟩ := ih h (h.wired.lt_nextNode (h.wired.kids_mem n child hkid).2) hchild
      exact ih h₁ ((ramfsDelete_relinked hchild).nextNode ▸ hlt) hrest
    · exact h.remove hlt hremove

/-- `ramfs_rename` gives a name that no sibling has. -/
theorem Ramfs.Named.rename {c : Bool} (h : s.Named types r S kids) (hn : n ∈ S)
    (hr : ramfsRename s (some n) str = some (c, s')) : s'.Named types r S kids := by
  simp only [ramfsRename, Option.bind_eq_bind, Option.bind_eq_some_iff, Option.pure_def] at hr
  obtain ⟨found, hfind, hr⟩ := hr
  cases found with
  | some m =>
    obtain ⟨-, rfl⟩ : false = c ∧ s = s' := by simpa using hr
    exact h
  | none =>
    obtain ⟨-, rfl⟩ : true = c ∧ _ = s' := by simpa [strdup, h.fails] using hr
    have hfree : ∀ p, n ∈ kids p → ∀ a ∈ kids p, s.name a ≠ some str := by
      intro p hkid a ha
      rw [h.wired.parent n p hkid, ramfsFind_eq h.wired (h.wired.kids_mem p n hkid).1] at hfind
      exact (findIn_eq_none_iff.mp hfind a ha).2
    refine ⟨h.wired.congr rfl rfl rfl rfl rfl rfl, fun m hm => ?_,
      fun p hp a ha b hb heq => ?_, h.childless, h.fails⟩
    · obtain rfl | hmn := eq_or_ne m n
      · simp
      · simpa [hmn] using h.named m hm
    · obtain rfl | han := eq_or_ne a n
      · obtain rfl | hbn := eq_or_ne b a
        · rfl
        · exact absurd (by simpa [hbn] using heq.symm) (hfree p ha b hb)
      · obtain rfl | hbn := eq_or_ne b n
        · exact absurd (by simpa [han] using heq) (hfree p hb a ha)
        · exact h.distinct p hp a ha b hb (by simpa [han, hbn] using heq)

/-- What a move that is not refused leaves. -/
theorem Ramfs.Named.move (h : s.Named types r S kids) (hn : n ∈ S) (hp : p ∈ S)
    (hmoves : ¬ (s.root = some n ∨ n = p ∨ s.children n = some p)) :
    ∃ s', ramfsMove s (some n) (some p) = some (true, s') ∧ s'.name = s.name ∧ s'.type = s.type ∧
      s'.Wired r S (OrderedTree.placeKids kids p n) ∧
      ((s.type p ∈ types → ∀ c ∈ kids p, c ≠ n → s.name c ≠ s.name n) →
        s'.Named types r S (OrderedTree.placeKids kids p n)) := by
  simp only [not_or] at hmoves
  obtain ⟨hroot, hne, hfirst⟩ := hmoves
  have hnr : n ≠ r := fun heq => hroot (h.wired.root_eq_iff.mpr heq)
  obtain ⟨children, next, hmove, hwired, hframe⟩ := h.wired.move hn hp hnr hne hfirst
  refine ⟨_, hmove, rfl, rfl, hwired, fun hfree => ⟨hwired, h.named, ?_, ?_, h.fails⟩⟩
  · intro q hq a ha b hb heq
    have hmem : ∀ {a}, a ∈ OrderedTree.placeKids kids p n q →
        a ≠ n ∧ a ∈ kids q ∨ q = p ∧ a = n :=
      fun ha => (OrderedTree.mem_placeKids_of_nodup (h.wired.nodup q)).mp ha
    obtain ⟨han, ha'⟩ | ⟨rfl, rfl⟩ := hmem ha
    · obtain ⟨-, hb'⟩ | ⟨rfl, rfl⟩ := hmem hb
      · exact h.distinct q hq a ha' b hb' heq
      · exact absurd heq (hfree hq a ha' han)
    · obtain ⟨hbn, hb'⟩ | ⟨-, rfl⟩ := hmem hb
      · exact absurd heq.symm (hfree hq b hb' hbn)
      · rfl
  · intro m hm
    exact (hframe m hm).trans (h.childless m hm)

/-- `ramfs_copy` and its loop get their names from `ramfs_create`. -/
theorem Ramfs.Named.copy (fuel : ℕ) :
    (∀ {s s' : Ramfs} {S kids node p c}, s.Named types r S kids → p ∈ S →
      ramfsCopy fuel s node (some p) = some (c, s') →
        ∃ S' kids', s'.Named types r S' kids' ∧ S ⊆ S') ∧
    ∀ {s s' : Ramfs} {S kids child p}, s.Named types r S kids → p ∈ S →
      copyChildren fuel s child p = some s' → ∃ S' kids', s'.Named types r S' kids' ∧ S ⊆ S' := by
  induction fuel with
  | zero => exact ⟨by simp [ramfsCopy], by simp [copyChildren]⟩
  | succ fuel ih =>
    obtain ⟨ih, ihLoop⟩ := ih
    constructor
    · intro s s' S kids node p c h hp hr
      cases node with
      | none =>
        obtain rfl := ramfsCopy_of_null (.inl rfl) hr
        exact ⟨S, kids, h, subset_rfl⟩
      | some n =>
        obtain ⟨str, copy, s₁, hcreate, hrest⟩ := ramfsCopy_cases hr
        obtain ⟨S₁, kids₁, h₁, hsub, hcopy⟩ := h.create hp hcreate
        obtain rfl | ⟨c, hc, hloop | ⟨hfail, -⟩ | ⟨source, rfl⟩⟩ := hrest
        · exact ⟨S₁, kids₁, h₁, hsub⟩
        · obtain ⟨S₂, kids₂, h₂, hsub₂⟩ := ihLoop h₁ (hcopy c hc) hloop
          exact ⟨S₂, kids₂, h₂, hsub.trans hsub₂⟩
        · rw [h₁.fails] at hfail
          exact absurd hfail (by simp)
        · exact ⟨S₁, kids₁, h₁.congr rfl rfl rfl rfl rfl rfl rfl rfl rfl, hsub⟩
    · intro s s' S kids child p h hp hr
      obtain ⟨-, rfl⟩ | ⟨n, r, s₁, rfl, hcopy, hrest⟩ := copyChildren_cases hr
      · exact ⟨S, kids, h, subset_rfl⟩
      · obtain ⟨S₁, kids₁, h₁, hsub₁⟩ := ih h hp hcopy
        obtain ⟨S₂, kids₂, h₂, hsub₂⟩ := ihLoop h₁ (hsub₁ hp) hrest
        exact ⟨S₂, kids₂, h₂, hsub₁.trans hsub₂⟩

/-! ### Runs -/

theorem ramfsInit_named :
    (ramfsInit (Ramfs.blank fun _ => false)).Named types 0 {0} fun _ => [] := by
  refine ⟨⟨rfl, rfl, ?_, by simp, by simp, by simp, by simp, by simp, rfl, rfl, fun n => ?_,
    fun n _ => rfl⟩, ?_, by simp, fun n hn => ?_, fun i => rfl⟩
  · rintro p rfl
    rfl
  · simp [Ramfs.Live, ramfsInit, allocNode, strdup, initNode, Ramfs.blank]
  · rintro n rfl
    rfl
  · simp [ramfsInit, allocNode, strdup, initNode, Ramfs.blank]

/-- **One call.**  The names of siblings stay different, unless a move takes a name to where it is
in use. -/
theorem Ramfs.Named.exec (h : s.Named types r S kids) (hlegal : call.Legal s)
    (hfree : call.NameFree types s) (hexec : call.exec fuel s = some s') :
    ∃ S' kids', s'.Named types r S' kids' := by
  by_cases hnull : none ∈ call.args
  · obtain rfl := FsCall.exec_null hnull hexec
    exact ⟨S, kids, h⟩
  · have harg : ∀ arg ∈ call.args, ∃ n ∈ S, arg = some n := by
      intro arg harg
      obtain ⟨n, rfl⟩ := Option.ne_none_iff_exists'.mp fun heq => hnull (heq ▸ harg)
      exact ⟨n, (h.wired.live n).mp (hlegal (some n) harg n rfl), rfl⟩
    cases call with
    | create parent name type =>
      obtain ⟨p, hp, rfl⟩ := harg parent (by simp [FsCall.args])
      obtain ⟨⟨c, s₁⟩, hr, rfl⟩ := Option.map_eq_some_iff.mp hexec
      obtain ⟨S', kids', h', -⟩ := h.create hp hr
      exact ⟨S', kids', h'⟩
    | mkdir parent name =>
      obtain ⟨p, hp, rfl⟩ := harg parent (by simp [FsCall.args])
      obtain ⟨⟨c, s₁⟩, hr, rfl⟩ := Option.map_eq_some_iff.mp hexec
      obtain ⟨S', kids', h', -⟩ := h.create hp hr
      exact ⟨S', kids', h'⟩
    | write node buffer size =>
      obtain rfl := Option.some.inj hexec
      obtain ⟨sizes, data, bytes, length, nextBlock, allocs, heq⟩ :=
        ramfsWrite_frame s node buffer size
      rw [heq]
      exact ⟨S, kids, h.congr rfl rfl rfl rfl rfl rfl rfl rfl rfl⟩
    | rename node newName =>
      obtain ⟨n, hn, rfl⟩ := harg node (by simp [FsCall.args])
      obtain ⟨⟨c, s₁⟩, hr, rfl⟩ := Option.map_eq_some_iff.mp hexec
      exact ⟨S, kids, h.rename hn hr⟩
    | move node newParent =>
      obtain ⟨n, hn, rfl⟩ := harg node (by simp [FsCall.args])
      obtain ⟨p, hp, rfl⟩ := harg newParent (by simp [FsCall.args])
      obtain ⟨⟨c, s₁⟩, hr, rfl⟩ := Option.map_eq_some_iff.mp hexec
      by_cases hrefused : s.root = some n ∨ n = p ∨ s.children n = some p
      · rw [ramfsMove_refused hrefused] at hr
        obtain ⟨-, rfl⟩ : false = c ∧ s = s₁ := by simpa using hr
        exact ⟨S, kids, h⟩
      · obtain ⟨s₂, hmove, -, -, -, h₂⟩ := h.move hn hp hrefused
        obtain ⟨-, rfl⟩ : true = c ∧ s₂ = s₁ := by simpa [hmove] using hr
        refine ⟨S, _, h₂ fun htype a ha => ?_⟩
        simp only [FsCall.NameFree] at hfree
        simp only [not_or] at hrefused
        exact ((hfree.resolve_left hrefused.1).resolve_left hrefused.2.1).resolve_left
          hrefused.2.2 htype a ⟨_, h.wired.chain p hp, ha⟩
    | copy node newParent =>
      obtain ⟨p, hp, rfl⟩ := harg newParent (by simp [FsCall.args])
      obtain ⟨⟨c, s₁⟩, hr, rfl⟩ := Option.map_eq_some_iff.mp hexec
      obtain ⟨S', kids', h', -⟩ := (Ramfs.Named.copy fuel).1 h hp hr
      exact ⟨S', kids', h'⟩
    | remove node =>
      obtain ⟨n, hn, rfl⟩ := harg node (by simp [FsCall.args])
      exact h.remove (h.wired.lt_nextNode hn) hexec
    | delete node =>
      obtain ⟨n, hn, rfl⟩ := harg node (by simp [FsCall.args])
      obtain ⟨⟨c, s₁⟩, hr, rfl⟩ := Option.map_eq_some_iff.mp hexec
      exact h.delete (h.wired.lt_nextNode hn) hr

theorem Ramfs.Named.run (h : s.Named types r S kids)
    (hrun : ReflTransGen (Ramfs.Step fun s call => call.Legal s ∧ call.NameFree types s) s s') :
    ∃ S' kids', s'.Named types r S' kids' := by
  induction hrun with
  | refl => exact ⟨S, kids, h⟩
  | tail _ hstep ih =>
    obtain ⟨S₁, kids₁, h₁⟩ := ih
    obtain ⟨call, fuel, ⟨hlegal, hfree⟩, hexec⟩ := hstep
    exact h₁.exec hlegal hfree hexec

/-- A move that takes a name to where it is in use leaves two children with this name. -/
theorem Ramfs.Named.not_findable (h : s.Named types r S kids) (hlegal : call.Legal s)
    (hused : ¬ call.NameFree types s) (fuel : ℕ) :
    ∃ s' d, call.exec fuel s = some s' ∧ s'.Live d ∧ s'.type d ∈ types ∧ ¬ s'.Findable d := by
  cases call with
  | move node newParent =>
    cases node with
    | none => exact absurd trivial hused
    | some n =>
      cases newParent with
      | none => exact absurd trivial hused
      | some p =>
        have hn := (h.wired.live n).mp (hlegal (some n) (by simp [FsCall.args]) n rfl)
        have hp := (h.wired.live p).mp (hlegal (some p) (by simp [FsCall.args]) p rfl)
        simp only [FsCall.NameFree, not_or, not_forall, not_not, exists_prop] at hused
        obtain ⟨hroot, hne, hfirst, htype, c, hc, hcn, hname⟩ := hused
        have hc := (h.wired.chain p hp).linked_iff.mp hc
        obtain ⟨s', hmove, hnames, htypes, hwired, -⟩ :=
          h.move hn hp (by simp [hroot, hne, hfirst])
        refine ⟨s', p, congrArg (Option.map Prod.snd) hmove, (hwired.live p).mpr hp, ?_, ?_⟩
        · rw [htypes]
          exact htype
        rintro ⟨l, hchain, hdistinct, -⟩
        obtain rfl := (hwired.chain p hp).unique hchain
        have hmem : ∀ m, m ∈ OrderedTree.placeKids kids p n p ↔ m ≠ n ∧ m ∈ kids p ∨ m = n :=
          fun m => (OrderedTree.mem_placeKids_of_nodup (h.wired.nodup p)).trans (by simp)
        exact hcn (hdistinct c ((hmem c).mpr (.inl ⟨hcn, hc⟩)) n ((hmem n).mpr (.inr rfl))
          (by rwa [hnames]))
  | _ => exact absurd trivial hused

/-- **The names of siblings are different.**  From `ramfs_init` on, with enough memory, every run
in which no move that is not refused takes a name to a directory in which it is in use leaves every
directory with children that are found by their names; such a move leaves one without.  The same
is true of directories and files together. -/
theorem siblings_findable (types : Set FsNodeType)
    (hrun : ReflTransGen (Ramfs.Step fun s call => call.Legal s ∧ call.NameFree types s)
      (ramfsInit (Ramfs.blank fun _ => false)) s) :
    (∀ d, s.Live d → s.type d ∈ types → s.Findable d) ∧
      ∀ call : FsCall, call.Legal s → ¬ call.NameFree types s → ∀ fuel, ∃ s' d,
        call.exec fuel s = some s' ∧ s'.Live d ∧ s'.type d ∈ types ∧ ¬ s'.Findable d := by
  obtain ⟨S, kids, h⟩ := ramfsInit_named.run hrun
  constructor
  · intro d hd htype
    exact h.findable ((h.wired.live d).mp hd) htype
  · intro call hlegal hused fuel
    exact h.not_findable hlegal hused fuel

/-- Node 2 with the name `b` is moved into node 1, and then a new node gets its name. -/
theorem siblings_findable_example :
    ∃ s, sideBySide.run [.move (some 2) (some 1), .mkdir (some 0) (letter 1)] = some s ∧
      s.Findable 0 ∧ s.Findable 1 := by
  have hbefore : ReflTransGen (Ramfs.Step fun s call => call.Legal s ∧
      call.NameFree {.directory} s) (ramfsInit (Ramfs.blank fun _ => false)) sideBySide := by
    apply Ramfs.reflTransGen_of_run _ (Option.some_get _).symm
    simp [FsCall.NameFree]
  have hnone : sideBySide.children 1 = none := by decide
  have hfree : (FsCall.move (some 2) (some 1)).NameFree {.directory} sideBySide := by
    refine .inr (.inr (.inr ?_))
    rintro - c ⟨l, hchain, hc⟩
    rw [hnone] at hchain
    rw [chain_none.mp hchain] at hc
    exact absurd hc List.not_mem_nil
  obtain ⟨s₁, hmove, s, hmkdir, hlive⟩ : ∃ s₁,
      (FsCall.move (some 2) (some 1)).exec 0 sideBySide = some s₁ ∧
      ∃ s, s₁.run [.mkdir (some 0) (letter 1)] = some s ∧
        ∀ d ∈ [0, 1], s.Live d ∧ s.type d = .directory := ⟨_, rfl, _, rfl, by decide⟩
  have hrun := (hbefore.tail ⟨_, 0, ⟨by decide, hfree⟩, hmove⟩).trans
    (Ramfs.reflTransGen_of_run (by simp [FsCall.NameFree]) hmkdir)
  have hfindable := (siblings_findable {.directory} hrun).1
  obtain ⟨hroot, hdir⟩ := hlive 0 (by simp)
  obtain ⟨hroot', hdir'⟩ := hlive 1 (by simp)
  refine ⟨s, ?_, hfindable 0 hroot hdir, hfindable 1 hroot' hdir'⟩
  rw [Ramfs.run, if_pos (by decide), hmove, Option.bind_some, hmkdir]

/-- Node 1 with the name `a` in the root, and node 2 with the name `a` in it; then
`ramfs_move(2, root)`. -/
def twoNamed : Ramfs :=
  ((ramfsInit (Ramfs.blank fun _ => false)).run
    [.mkdir (some 0) (letter 0), .mkdir (some 1) (letter 0),
      .move (some 2) (some 0)]).get (by decide)

/-- A move can bring two nodes with one name together. -/
theorem siblings_findable_move :
    ¬ ∀ s, ReflTransGen (Ramfs.Step fun s call => call.Legal s)
      (ramfsInit (Ramfs.blank fun _ => false)) s → ∀ d, s.Live d → s.Findable d := by
  intro h
  obtain ⟨l, hchain, hdistinct, -⟩ : twoNamed.Findable 0 :=
    h twoNamed (Ramfs.reflTransGen_of_run (fun _ _ _ hlegal => hlegal) (Option.some_get _).symm)
      0 (by decide)
  have hkids : Chain twoNamed.next (twoNamed.children 0) [1, 2] :=
    ⟨by decide, by decide, chain_nil.mpr (by decide)⟩
  obtain rfl := hkids.unique hchain
  exact absurd (hdistinct 1 (by simp) 2 (by simp) (by decide)) (by decide)

end Bethany
