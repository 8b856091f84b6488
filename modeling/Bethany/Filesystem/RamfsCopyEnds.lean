import Bethany.Filesystem.RamfsCopyWhole
import Mathlib.Data.Set.Card.Arithmetic

/-!
# Where `ramfs_copy` ends

`ramfs_copy` reads the children of a directory while it may be adding to them.  A call that reads
the directory to which it adds comes to its own copy and copies that, and so on, unless a name on
the way is taken.

* `ramfsCopy_steady`: a larger bound keeps the result;
* `Ramfs.Adds`: what a copy adds, with the number of nodes; `copyChildren_aside`: the loop over
  children from which the new node is not read;
* `Ramfs.Blocked`: a loop that finds a name taken; `Ramfs.CopyLoops`: the calls that come to their
  own copies; `ramfsCopy_loops`: these do not end;
* `Ramfs.Blocked.stops`: the loop that finds a name taken on the way;
* `ramfsCopy_terminates_iff`: when `ramfs_copy` ends.
-/

namespace Bethany

open Fuel LinkedList Unfolding Relation

variable {s s' s'' : Ramfs} {T T' T'' : OrderedTree NodeId} {n m p c q a : NodeId}
  {l l' pre post : List NodeId} {t : FsTree} {ts : List FsTree} {k k' fuel : ℕ}

/-! ### Larger bounds -/

theorem ramfsDelete_steady (s : Ramfs) (node : Option NodeId) :
    Steady fun fuel => ramfsDelete fuel s node := by
  intro fuel
  induction fuel generalizing s node with
  | zero => simp [ramfsDelete]
  | succ fuel ih =>
    intro r hr
    cases node with
    | none => simpa [ramfsDelete] using hr
    | some n =>
      cases hfirst : s.children n with
      | none =>
        simp only [ramfsDelete, hfirst] at hr ⊢
        exact hr
      | some child =>
        simp only [ramfsDelete, hfirst, Option.bind_eq_bind, Option.bind_eq_some_iff] at hr
        obtain ⟨r₁, hchild, hrest⟩ := hr
        simp only [ramfsDelete, hfirst, Option.bind_eq_bind, Option.bind_eq_some_iff]
        exact ⟨r₁, ih s (some child) r₁ hchild, ih r₁.2 (some n) r hrest⟩

/-- A larger bound keeps the results of `ramfs_copy` and of its loop. -/
theorem ramfsCopy_steady :
    (∀ s node newParent, Steady fun fuel => ramfsCopy fuel s node newParent) ∧
      ∀ s child copy, Steady fun fuel => copyChildren fuel s child copy := by
  suffices h : ∀ fuel,
      (∀ s node newParent r, ramfsCopy fuel s node newParent = some r →
        ramfsCopy (fuel + 1) s node newParent = some r) ∧
      ∀ s child copy s', copyChildren fuel s child copy = some s' →
        copyChildren (fuel + 1) s child copy = some s' from
    ⟨fun s node newParent fuel => (h fuel).1 s node newParent,
      fun s child copy fuel => (h fuel).2 s child copy⟩
  intro fuel
  induction fuel with
  | zero =>
    exact ⟨fun _ _ _ _ hr => absurd hr (by simp [ramfsCopy]),
      fun _ _ _ _ hr => absurd hr (by simp [copyChildren])⟩
  | succ fuel ih =>
    obtain ⟨ih, ihLoop⟩ := ih
    constructor
    · intro s node newParent r hr
      cases node with
      | none => simpa [ramfsCopy] using hr
      | some n =>
        cases newParent with
        | none => simpa [ramfsCopy] using hr
        | some p =>
          simp only [ramfsCopy, Option.bind_eq_bind, Option.bind_eq_some_iff] at hr
          obtain ⟨name, hname, found, hfind, ⟨copy, s₁⟩, hcreate, hr⟩ := hr
          rw [ramfsCopy]
          simp only [Option.bind_eq_bind, Option.bind_eq_some_iff]
          refine ⟨name, hname, found, hfind, (copy, s₁), hcreate, ?_⟩
          cases copy with
          | none => exact hr
          | some c =>
            cases htype : s₁.type n with
            | directory =>
              simp only [htype, Option.bind_eq_some_iff] at hr ⊢
              obtain ⟨s₂, hloop, hr⟩ := hr
              exact ⟨s₂, ihLoop _ _ _ _ hloop, hr⟩
            | file =>
              simp only [htype] at hr ⊢
              by_cases hsize : s₁.size n = 0
              · rwa [if_pos hsize] at hr ⊢
              · rw [if_neg hsize] at hr ⊢
                cases halloc : allocBlock s₁ (s₁.size n) with
                | mk block s₂ =>
                  cases block with
                  | some block => rwa [halloc] at hr
                  | none =>
                    simp only [halloc, Option.bind_eq_some_iff] at hr ⊢
                    obtain ⟨r₁, hdelete, hr⟩ := hr
                    exact ⟨r₁, ramfsDelete_steady _ _ fuel r₁ hdelete, hr⟩
    · intro s child copy s' hr
      cases child with
      | none => simpa [copyChildren] using hr
      | some n =>
        simp only [copyChildren, Option.bind_eq_bind, Option.bind_eq_some_iff] at hr
        obtain ⟨r, hcopy, hrest⟩ := hr
        rw [copyChildren]
        simp only [Option.bind_eq_bind, Option.bind_eq_some_iff]
        exact ⟨r, ih _ _ _ _ hcopy, ihLoop _ _ _ _ hrest⟩

/-! ### What is added, with enough memory -/

/-- No call of `kmalloc` fails from now on. -/
def Ramfs.HasMemory (s : Ramfs) : Prop := ∀ i, s.allocs ≤ i → s.fails i = false

/-- As `Ramfs.Grows`; all nodes have names, and there are at most `k` new ones. -/
structure Ramfs.Adds (s : Ramfs) (T : OrderedTree NodeId) (s' : Ramfs) (T' : OrderedTree NodeId)
    (p : NodeId) (l : List NodeId) (k : ℕ) : Prop extends s.Grows T s' T' p l where
  named : ∀ m ∈ T'.nodes, (s'.name m).isSome
  allocs : s.allocs ≤ s'.allocs
  count : s'.nextNode ≤ s.nextNode + k

namespace Ramfs.Adds

theorem wellFormed (h : s.Adds T s' T' p l k) : s'.WellFormed T' :=
  ⟨h.represents, h.backed, h.named⟩

theorem hasMemory (h : s.Adds T s' T' p l k) (hmem : s.HasMemory) : s'.HasMemory := by
  intro i hi
  rw [h.fails]
  exact hmem i (h.allocs.trans hi)

theorem count_trans (h : s.Adds T s' T' p l k) (h' : s'.Adds T' s'' T'' c l' k') :
    s''.nextNode ≤ s.nextNode + (k + k') := by
  rw [← Nat.add_assoc]
  exact h'.count.trans (Nat.add_le_add_right h.count k')

theorem trans (h : s.Adds T s' T' p l k) (h' : s'.Adds T' s'' T'' p l' k') :
    s.Adds T s'' T'' p (l ++ l') (k + k') where
  toGrows := h.toGrows.trans h'.toGrows
  named := h'.named
  allocs := h.allocs.trans h'.allocs
  count := h.count_trans h'

theorem into (h : s.Adds T s' T' p l k) (h' : s'.Adds T' s'' T'' c l' k') (hp : p ∈ T.nodes)
    (hc : c ∉ T.nodes) : s.Adds T s'' T'' p l (k + k') where
  toGrows := h.toGrows.into h'.toGrows hp hc
  named := h'.named
  allocs := h.allocs.trans h'.allocs
  count := h.count_trans h'

theorem mono (h : s.Adds T s' T' p l k) (hle : k ≤ k') : s.Adds T s' T' p l k' :=
  { h with count := h.count.trans (Nat.add_le_add_left hle _) }

end Ramfs.Adds

theorem Ramfs.WellFormed.adds_self (h : s.WellFormed T) (p : NodeId) : s.Adds T s T p [] 0 where
  toGrows := h.represents.grows_self h.backed s.allocs p
  named := h.named
  allocs := le_rfl
  count := le_rfl

namespace Ramfs.Grows

theorem reads_subset (h : s.Grows T s' T' p l) (m : NodeId) :
    s.reads T.kids m ⊆ s'.reads T'.kids m := by
  intro a ha
  obtain ⟨hdir, ha⟩ := mem_reads.mp ha
  rw [mem_reads, h.type m (T.kids_mem m a ha).1]
  exact ⟨hdir, h.kids_subset m ha⟩

/-- What was read still is. -/
theorem reaches_mono (h : s.Grows T s' T' p l) (hm : Reaches (s.reads T.kids) a m) :
    Reaches (s'.reads T'.kids) a m := hm.mono h.reads_subset

/-- What is read now, and was there, was read. -/
theorem reaches_old (h : s.Grows T s' T' p l) (hm : m ∈ T.nodes)
    (hreach : Reaches (s'.reads T'.kids) a m) : Reaches (s.reads T.kids) a m := by
  induction hreach using ReflTransGen.head_induction_on with
  | refl => exact .refl ..
  | @head b q hkid _ ih =>
    obtain ⟨hdir, hkid⟩ := mem_reads.mp hkid
    have hold := h.kid_old hm hkid
    have hq := (T.kids_mem q b hold).1
    rw [h.type q hq] at hdir
    exact (ih hq).trans (.kid (mem_reads.mpr ⟨hdir, hold⟩))

end Ramfs.Grows

/-- All nodes have names once the new ones have. -/
theorem Ramfs.Grows.named (h : s.Grows T s' T' p l) (hwell : s.WellFormed T)
    (hnew : ∀ b ∈ l, ∀ m, T'.Below b m → (s'.name m).isSome) :
    ∀ m ∈ T'.nodes, (s'.name m).isSome := by
  intro m hm
  by_cases hold : m ∈ T.nodes
  · rw [h.name m hold]
    exact hwell.named m hold
  · obtain ⟨b, hb, hbelow⟩ := h.below_new hm hold
    exact hnew b hb m hbelow

theorem Ramfs.reads_below (h : Reaches (s.reads T.kids) a m) : T.Below a m :=
  h.mono fun q => (s.reads_sublist T.kids q).subset

/-- A copy from which the directory it goes to is not read. -/
theorem ramfsCopy_aside (h : s.WellFormed T) (hmem : s.HasMemory) (hn : n ∈ T.nodes)
    (hc : c ∈ T.nodes) (hdir : s.type c = .directory) (hout : ¬ Reaches (s.reads T.kids) n c)
    (ht : Unfolds s.label (s.reads T.kids) t n) :
    ∃ r s' T' l, Ends (fun fuel => ramfsCopy fuel s (some n) (some c)) (some (r, s')) ∧
      s.Adds T s' T' c l (nodeCount t) ∧
      (T'.kids c).map s'.name = addName ((T.kids c).map s.name) (s.name n) := by
  have hnamed : t.All HasName := by
    rw [ht.all_iff]
    exact fun m hm => h.named m (Ramfs.Grows.reads_mem hn hm)
  obtain ⟨copy, k, hcopy, hle, hall, hadd⟩ := copyTree_total hnamed (h.names_some c) hmem
  have hends := ramfsCopy_copies t h.represents h.backed hn hc hdir ht hout
  rw [hcopy] at hends
  obtain ⟨r, s', T', hends, hgrows, hrel, rfl, hcount⟩ := hends
  refine ⟨r, s', T', r.toList, hends,
    { hgrows with
      named := hgrows.named h fun b hb m hbelow => ?_
      allocs := hle
      count := hcount }, ?_⟩
  · cases hrel with
    | none => exact absurd hb List.not_mem_nil
    | some hu =>
      obtain rfl : b = _ := List.mem_singleton.mp hb
      exact hu.all_iff.mp (hall _ rfl) m hbelow
  · rw [hgrows.kids_self, List.map_append,
      List.map_congr_left fun m hm => hgrows.name m (T.kids_mem c m hm).2]
    rw [ht.label_eq] at hadd
    refine Eq.trans (congrArg _ ?_) hadd
    cases hrel with
    | none => rfl
    | some hu => simp [hu.label_eq, Ramfs.label]

/-- The loop over the first children, from which the new node is not read: it goes on from the
others, with a smaller bound. -/
theorem copyChildren_aside (h : s.WellFormed T) (hmem : s.HasMemory) (hn : n ∈ T.nodes)
    (hnc : n ≠ c) (hc : c ∈ T.nodes) (hdir : s.type c = .directory) {front : List NodeId}
    (hkids : T.kids n = front ++ (pre ++ post))
    (hts : List.Forall₂ (Unfolds s.label (s.reads T.kids)) ts pre)
    (hout : ∀ a ∈ pre, ¬ Reaches (s.reads T.kids) a c) :
    ∃ s' T' l, s.Adds T s' T' c l (LabelTree.sums (fun _ => 1) ts) ∧
      (T'.kids c).map s'.name = (pre.map s.name).foldl addName ((T.kids c).map s.name) ∧
      (∀ x, Ends (fun fuel => copyChildren fuel s' post.head? c) x →
        Ends (fun fuel => copyChildren fuel s (pre ++ post).head? c) x) ∧
      ∀ fuel x, copyChildren fuel s (pre ++ post).head? c = some x →
        ∃ fuel' ≤ fuel, copyChildren fuel' s' post.head? c = some x := by
  induction ts generalizing s T pre front with
  | nil =>
    cases hts
    exact ⟨s, T, [], h.adds_self c, rfl, fun x hx => hx, fun fuel x hx => ⟨fuel, le_rfl, hx⟩⟩
  | cons t ts ih =>
    obtain ⟨a, pre, ht, hrest, rfl⟩ := List.forall₂_cons_left_iff.mp hts
    have hmemT : ∀ b ∈ a :: pre, b ∈ T.nodes := fun b hb =>
      (T.kids_mem n b (hkids ▸ List.mem_append_right _ (List.mem_append_left _ hb))).2
    obtain ⟨r, s₁, T₁, l₁, hends, hadds, hnames⟩ := ramfsCopy_aside h hmem
      (hmemT a List.mem_cons_self) hc hdir (hout a List.mem_cons_self) ht
    rw [List.cons_append] at hkids
    obtain ⟨hkids₁, hnext⟩ := hadds.next_eq hn hnc hkids
    obtain ⟨hts₁, hout₁⟩ := hadds.reads_forall h.backed (fun b hb =>
      ⟨hmemT b (List.mem_cons_of_mem _ hb), hout b (List.mem_cons_of_mem _ hb)⟩) hrest
    obtain ⟨s₂, T₂, l₂, hadds₂, hnames₂, hon, hback⟩ := ih hadds.wellFormed
      (hadds.hasMemory hmem) (hadds.nodes hn) (hadds.nodes hc) ((hadds.type c hc).trans hdir)
      hkids₁ hts₁ hout₁
    refine ⟨s₂, T₂, l₁ ++ l₂, hadds.trans hadds₂, ?_, fun x hx => ?_, fun fuel x hx => ?_⟩
    · rw [hnames₂, hnames, List.map_cons, List.foldl_cons]
      congr 1
      exact List.map_congr_left fun b hb => hadds.name b (hmemT b (List.mem_cons_of_mem _ hb))
    · exact hadds.loop_ends hn hnc hkids hends (hon x hx)
    · cases fuel with
      | zero => exact absurd hx (by simp [copyChildren])
      | succ fuel =>
        simp only [List.cons_append, List.head?_cons, copyChildren, Option.bind_eq_bind,
          Option.bind_eq_some_iff] at hx
        obtain ⟨r₁, hcopy, hloop⟩ := hx
        obtain rfl : r₁ = (r, s₁) :=
          Option.some.inj (((ramfsCopy_steady.1 _ _ _).ends hcopy).unique hends)
        rw [hnext] at hloop
        obtain ⟨fuel', hle, hfuel'⟩ := hback fuel x hloop
        exact ⟨fuel', hle.trans (Nat.le_succ _), hfuel'⟩

/-! ### The start of a copy -/

theorem Ramfs.WellFormed.findIn_eq (h : s.WellFormed T) (str : CString) (p : NodeId) :
    ∃ found, findIn s.name str (T.kids p) = some found ∧
      (found.isSome ↔ some str ∈ (T.kids p).map s.name) := by
  refine ⟨_, findIn_eq_find? fun a ha => h.named a (T.kids_mem p a ha).2, ?_⟩
  simp [List.find?_isSome]

/-- `ramfs_copy` creates a node with the chosen name. -/
theorem ramfsCopy_create (h : s.WellFormed T) (hp : p ∈ T.nodes) {name : CString}
    (hname : s.name n = some name) (fuel : ℕ) :
    ramfsCopy (fuel + 1) s (some n) (some p) =
      (ramfsCreate s (some p) (chosenName ((T.kids p).map s.name) name) (s.type n)).bind
        fun r => match r with
        | (none, s) => some (none, s)
        | (some copy, s) => copyInto fuel s n copy := by
  obtain ⟨found, hfind, hiff⟩ := h.findIn_eq name p
  have hstr : (if found.isSome then copyName name else name) =
      chosenName ((T.kids p).map s.name) name := by
    simp only [chosenName, hiff]
  have hsucc := ramfsCopy_succ h.represents hp fuel hname hfind
  rw [hstr] at hsucc
  exact hsucc

/-- Nothing is created in a file, or where the name is taken. -/
theorem ramfsCopy_refused (h : s.WellFormed T) (hn : n ∈ T.nodes) (hp : p ∈ T.nodes)
    (hrefused : s.type p ≠ .directory ∨
      copiedName ((T.kids p).map s.name) (s.name n) ∈ (T.kids p).map s.name) :
    Ends (fun fuel => ramfsCopy fuel s (some n) (some p)) (some (none, s)) := by
  obtain ⟨name, hname⟩ := Option.isSome_iff_exists.mp (h.named n hn)
  by_cases hdir : s.type p = .directory
  · have htaken := hrefused.resolve_left (not_not.mpr hdir)
    rw [hname, copiedName, Option.map_some] at htaken
    rw [← ends_succ]
    refine (ends_const _).congr fun fuel => ?_
    obtain ⟨found, hfind, hiff⟩ := h.findIn_eq (chosenName ((T.kids p).map s.name) name) p
    rw [ramfsCopy_create h hp hname, ramfsCreate_eq h.represents.wired hp hdir, hfind,
      Option.bind_some, if_pos (hiff.mpr htaken), Option.bind_some]
  · exact ramfsCopy_file h hp hname hdir

/-- The copy of a directory creates a directory, and goes on to the children. -/
theorem ramfsCopy_enters (h : s.WellFormed T) (hmem : s.HasMemory) (hn : n ∈ T.nodes)
    (hp : p ∈ T.nodes) (hdir : s.type p = .directory)
    (hfree : copiedName ((T.kids p).map s.name) (s.name n) ∉ (T.kids p).map s.name)
    (htype : s.type n = .directory) :
    ∃ s' T', s.Adds T s' T' p [s.nextNode] 1 ∧ s.nextNode ∈ T'.nodes ∧
      s'.type s.nextNode = .directory ∧
      s'.name s.nextNode = copiedName ((T.kids p).map s.name) (s.name n) ∧
      T'.kids s.nextNode = [] ∧
      ∀ fuel, ramfsCopy (fuel + 1) s (some n) (some p) =
        (copyChildren fuel s' (T'.kids n).head? s.nextNode).bind fun s₁ =>
          some (some s.nextNode, s₁) := by
  obtain ⟨name, hname⟩ := Option.isSome_iff_exists.mp (h.named n hn)
  rw [hname, copiedName, Option.map_some] at hfree ⊢
  obtain ⟨found, hfind, hiff⟩ := h.findIn_eq (chosenName ((T.kids p).map s.name) name) p
  obtain rfl : found = none := by
    rw [← Option.not_isSome_iff_eq_none, hiff]
    exact hfree
  have hfirst := hmem s.allocs le_rfl
  have hsecond := hmem (s.allocs + 1) (Nat.le_succ _)
  obtain ⟨s', T', hcreate, hnew, hgrows, hc, hleaf, -⟩ :=
    h.represents.grow h.backed hp hdir hfind hfirst (s.type n)
  have hstr : s'.name s.nextNode = some (chosenName ((T.kids p).map s.name) name) := by
    rw [hnew.name, Function.update_self, hsecond]
    rfl
  refine ⟨s', T', { hgrows with named := ?_, allocs := ?_, count := ?_ }, hc, ?_, hstr, hleaf, ?_⟩
  · refine hgrows.named h fun b hb m hbelow => ?_
    obtain rfl := List.mem_singleton.mp hb
    rw [OrderedTree.below_leaf hleaf hbelow, hstr]
    rfl
  · rw [hnew.allocs]
    exact Nat.le_add_right _ _
  · rw [hnew.nextNode]
  · rw [hnew.type, Function.update_self, htype]
  · intro fuel
    rw [ramfsCopy_create h hp hname, hcreate, Option.bind_some]
    have hhead := (hgrows.represents.links.chain n (hgrows.nodes hn)).head_eq
    have htype' := (hgrows.type n hn).trans htype
    simp only [copyInto, htype', hhead]

/-! ### The calls that do not end -/

/-- On the way from `n` to `c`, the loop at `q` finds no free name for the copy of `a`, once it has
copied `front`. -/
structure Ramfs.Blocked (s : Ramfs) (T : OrderedTree NodeId) (n c q : NodeId)
    (front : List NodeId) (a : NodeId) (back : List NodeId) : Prop where
  reached : Reaches (s.reads T.kids) n q
  read : s.reads T.kids q = front ++ a :: back
  leads : Reaches (s.reads T.kids) a c
  taken : copiedName (copyNames (front.map s.name)) (s.name a) ∈ copyNames (front.map s.name)

/-- The loops on the way from `n` to `c` find free names. -/
def Ramfs.FreeOnWay (s : Ramfs) (T : OrderedTree NodeId) (n c : NodeId) : Prop :=
  ∀ q front a back, ¬ s.Blocked T n c q front a back

/-- The call comes to its own copy: `p` is read from `n`, the copy has a free name in `p`, and the
loops find a free name for each node on the way to `p`, and for the copy itself. -/
structure Ramfs.CopyLoops (s : Ramfs) (T : OrderedTree NodeId) (n p : NodeId) : Prop where
  directory : s.type p = .directory
  reached : Reaches (s.reads T.kids) n p
  free : copiedName ((T.kids p).map s.name) (s.name n) ∉ (T.kids p).map s.name
  onWay : s.FreeOnWay T n p
  atEnd : copiedName (copyNames ((T.kids p).map s.name))
      (copiedName ((T.kids p).map s.name) (s.name n)) ∉ copyNames ((T.kids p).map s.name)

/-- The way to the nodes that are added leads along nodes that were there. -/
theorem Ramfs.Grows.above_old (h : s.Grows T s' T' p l) (hkid : T'.Kid a q)
    (hap : T'.Below a p) : q ∈ T.nodes := by
  by_contra hnew
  obtain ⟨b, hb, hbelow⟩ := h.below_new (T'.kids_mem q a hkid).1 hnew
  have hbp : T'.Kid b p := by
    rw [OrderedTree.Kid, h.kids_self]
    exact List.mem_append_right _ hb
  exact OrderedTree.not_below_kid hkid ((hbelow.tail hbp).trans hap)

theorem Ramfs.Grows.map_name (h : s.Grows T s' T' p l) (hpre : ∀ m ∈ pre, m ∈ T.nodes) :
    pre.map s'.name = pre.map s.name :=
  List.map_congr_left fun m hm => h.name m (hpre m hm)

theorem Ramfs.Grows.mem_reads_last (h : s.Grows T s' T' p [c]) (hp : p ∈ T.nodes)
    (hdir : s.type p = .directory) : c ∈ s'.reads T'.kids p := by
  rw [mem_reads, h.type p hp, h.kids_self]
  exact ⟨hdir, List.mem_append_right _ (List.mem_singleton_self c)⟩

theorem Ramfs.directory_of_reaches (hreach : Reaches (s.reads T.kids) n m)
    (hdir : s.type m = .directory) : s.type n = .directory := by
  obtain rfl | ⟨a, ha, -⟩ := reaches_iff_kid.mp hreach
  · exact hdir
  · exact (mem_reads.mp ha).1

namespace Ramfs.Blocked

variable {front back : List NodeId}

theorem mem_reads (h : s.Blocked T n c q front a back) : a ∈ s.reads T.kids q := by
  simp [h.read]

theorem directory (h : s.Blocked T n c q front a back) : s.type q = .directory :=
  (Ramfs.mem_reads.mp h.mem_reads).1

theorem kid (h : s.Blocked T n c q front a back) : T.Kid a q := (Ramfs.mem_reads.mp h.mem_reads).2

theorem kids_eq (h : s.Blocked T n c q front a back) : T.kids q = front ++ a :: back :=
  (reads_directory h.directory).symm.trans h.read

theorem front_mem (h : s.Blocked T n c q front a back) : ∀ m ∈ front, T.Kid m q := fun m hm => by
  rw [OrderedTree.Kid, h.kids_eq]
  exact List.mem_append_left _ hm

theorem not_below (h : s.Blocked T n c q front a back) : ¬ T.Below a n := fun hbelow =>
  OrderedTree.not_below_kid h.kid ((reads_below h.reached).trans hbelow)

theorem ne (h : s.Blocked T n c q front a back) : n ≠ c := by
  rintro rfl
  exact h.not_below (reads_below h.leads)

theorem ne_last (h : s.Blocked T n c q front a back) : q ≠ c := by
  rintro rfl
  exact OrderedTree.not_below_kid h.kid (reads_below h.leads)

/-- The loop at `q` is on the way to what is added to `c`. -/
theorem next (h : s.Blocked T n c q front a back) (hgrows : s.Grows T s' T' c l)
    {d : NodeId} (hd : d ∈ s'.reads T'.kids c) (hmq : Reaches (s.reads T.kids) m q) :
    s'.Blocked T' m d q front a back where
  reached := hgrows.reaches_mono hmq
  read := (hgrows.reads_eq (T.kids_mem q a h.kid).1 h.ne_last).trans h.read
  leads := (hgrows.reaches_mono h.leads).trans (.kid hd)
  taken := by
    rw [hgrows.map_name fun m hm => (T.kids_mem q m (h.front_mem m hm)).2,
      hgrows.name a (T.kids_mem q a h.kid).2]
    exact h.taken

end Ramfs.Blocked

/-- Once the new node is there, the way leads to it. -/
theorem Ramfs.CopyLoops.freeOnWay (h : s.CopyLoops T n p) (hgrows : s.Grows T s' T' p [c])
    (hname : s'.name c = copiedName ((T.kids p).map s.name) (s.name n)) :
    s'.FreeOnWay T' n c := by
  intro q front a back hblocked
  have hc : c ∉ T.nodes := hgrows.not_mem (List.mem_singleton_self c)
  have hcp : T'.Kid c p := by
    rw [OrderedTree.Kid, hgrows.kids_self]
    exact List.mem_append_right _ (List.mem_singleton_self c)
  have htaken := hblocked.taken
  obtain rfl | hne := eq_or_ne a c
  · -- the new node is the last child of `p`
    obtain rfl := T'.disjoint q p a hblocked.kid hcp
    have hkids := hblocked.kids_eq
    rw [hgrows.kids_self] at hkids
    obtain ⟨rfl, -⟩ := (List.append_cons_inj_of_notMem
      (fun ha => hc (T.kids_mem q a ha).2) List.not_mem_nil).mp hkids
    rw [hname, hgrows.map_name fun m hm => (T.kids_mem q m hm).2] at htaken
    exact h.atEnd htaken
  · have hap := (OrderedTree.below_kid_iff hcp hne.symm).mp (Ramfs.reads_below hblocked.leads)
    have hq := hgrows.above_old hblocked.kid hap
    have hqp : q ≠ p := fun heq => OrderedTree.not_below_kid (heq ▸ hblocked.kid) hap
    have hold : ∀ m, T'.Kid m q → m ∈ T.nodes := fun m hm =>
      (T.kids_mem q m (hgrows.kids q hq hqp ▸ hm)).2
    have ha := hold a hblocked.kid
    rw [hgrows.name a ha, hgrows.map_name fun m hm => hold m (hblocked.front_mem m hm)] at htaken
    refine h.onWay q front a back ⟨hgrows.reaches_old hq hblocked.reached,
      (hgrows.reads_eq hq hqp).symm.trans hblocked.read, ?_, htaken⟩
    by_contra hout
    exact hc (Ramfs.Grows.reads_mem ha (hgrows.reaches ha hout hblocked.leads))

/-- From a child on, and with more below the new node, the way is as before. -/
theorem Ramfs.FreeOnWay.next (h : s.FreeOnWay T n c) (hgrows : s.Grows T s' T' c l)
    (hc : c ∈ T.nodes) (hm : m ∈ s.reads T.kids n) : s'.FreeOnWay T' m c := by
  intro q front a back hblocked
  have hq := hgrows.above_old hblocked.kid (Ramfs.reads_below hblocked.leads)
  have hold : ∀ b, T'.Kid b q → b ∈ T.nodes := fun b hb =>
    (T.kids_mem q b (hgrows.kids q hq hblocked.ne_last ▸ hb)).2
  have htaken := hblocked.taken
  rw [hgrows.name a (hold a hblocked.kid),
    hgrows.map_name fun b hb => hold b (hblocked.front_mem b hb)] at htaken
  exact h q front a back ⟨(Reaches.kid hm).trans (hgrows.reaches_old hq hblocked.reached),
    (hgrows.reads_eq hq hblocked.ne_last).symm.trans hblocked.read,
    hgrows.reaches_old hc hblocked.leads, htaken⟩

/-- The other children do not lead to where one child leads. -/
theorem Ramfs.not_reaches_sibling (hkids : T.kids n = pre ++ a :: post)
    (hreach : Reaches (s.reads T.kids) a m) :
    ∀ b ∈ pre ++ post, ¬ Reaches (s.reads T.kids) b m := by
  intro b hb hbm
  have hnodup := T.nodup n
  rw [hkids] at hnodup
  have hba : b ≠ a := fun heq => (List.nodup_middle.mp hnodup).notMem (heq ▸ hb)
  have ha' : T.Kid a n := by simp [OrderedTree.Kid, hkids]
  have hb' : T.Kid b n := by
    rw [OrderedTree.Kid, hkids]
    exact (List.perm_middle.mem_iff).mpr (List.mem_cons_of_mem a hb)
  exact not_below_sibling hb' ha' hba (reads_below hbm) (reads_below hreach)

/-- A node that is not `n` is reached from a child. -/
theorem Ramfs.reads_split (hreach : Reaches (s.reads T.kids) n m) (hne : m ≠ n) :
    ∃ pre a post, s.type n = .directory ∧ T.kids n = pre ++ a :: post ∧
      Reaches (s.reads T.kids) a m := by
  obtain ⟨a, ha, ham⟩ := (reaches_iff_kid.mp hreach).resolve_left hne
  obtain ⟨hdir, hkid⟩ := mem_reads.mp ha
  obtain ⟨pre, post, hkids⟩ := List.append_of_mem hkid
  exact ⟨pre, a, post, hdir, hkids, ham⟩

theorem Ramfs.WellFormed.exists_unfolds (h : s.WellFormed T) (hl : ∀ a ∈ l, a ∈ T.nodes) :
    ∃ ts, List.Forall₂ (Unfolds s.label (s.reads T.kids)) ts l :=
  exists_forall₂ fun a ha => Unfolding.exists_unfolds h.represents.finite_nodes
    (fun p => (s.reads_sublist T.kids p).subset) s.label (hl a ha)

/-- The call needs another one, of the child that leads to the new node. -/
theorem Ramfs.CopyLoops.step (h : s.CopyLoops T n p) (hwell : s.WellFormed T) (hmem : s.HasMemory)
    (hn : n ∈ T.nodes) (hp : p ∈ T.nodes) {r : Option NodeId × Ramfs}
    (hr : ramfsCopy fuel s (some n) (some p) = some r) :
    ∃ s' T' a c, s'.WellFormed T' ∧ s'.HasMemory ∧ a ∈ T'.nodes ∧ c ∈ T'.nodes ∧
      s'.CopyLoops T' a c ∧
      ∃ fuel' < fuel, ∃ r', ramfsCopy fuel' s' (some a) (some c) = some r' := by
  have htype := directory_of_reaches h.reached h.directory
  cases fuel with
  | zero => exact absurd hr (by simp [ramfsCopy])
  | succ fuel =>
    obtain ⟨s₁, T₁, hadds, hc, hdir, hname, hleaf, heq⟩ :=
      ramfsCopy_enters hwell hmem hn hp h.directory h.free htype
    generalize s.nextNode = c at *
    have hnc : n ≠ c := by
      rintro rfl
      exact hadds.not_mem (List.mem_singleton_self n) hn
    have hcp := hadds.mem_reads_last hp h.directory
    have hway := h.freeOnWay hadds.toGrows hname
    obtain ⟨pre, a, post, htype₁, hkids, hac⟩ :=
      reads_split ((hadds.reaches_mono h.reached).trans (.kid hcp)) hnc.symm
    have hout := not_reaches_sibling hkids hac
    have hn₁ := hadds.nodes hn
    have hkidsT : ∀ b ∈ pre ++ a :: post, b ∈ T₁.nodes := fun b hb =>
      (T₁.kids_mem n b (hkids ▸ hb)).2
    obtain ⟨ts, hts⟩ :=
      hadds.wellFormed.exists_unfolds fun b hb => hkidsT b (List.mem_append_left _ hb)
    -- the loop over the children before `a`
    obtain ⟨s₂, T₂, l, hadds₂, hnames, -, hback⟩ := copyChildren_aside hadds.wellFormed
      (hadds.hasMemory hmem) hn₁ hnc hc hdir
      (hkids.trans (List.nil_append _).symm) hts fun b hb => hout b (List.mem_append_left _ hb)
    rw [hleaf, List.map_nil] at hnames
    rw [heq, hkids, Option.bind_eq_some_iff] at hr
    obtain ⟨s₃, hloop, -⟩ := hr
    obtain ⟨fuel', hle, hfuel'⟩ := hback fuel s₃ hloop
    cases fuel' with
    | zero => exact absurd hfuel' (by simp [copyChildren])
    | succ fuel' =>
      simp only [List.head?_cons, copyChildren, Option.bind_eq_bind, Option.bind_eq_some_iff]
        at hfuel'
      obtain ⟨r', hcopy, -⟩ := hfuel'
      have ha := hkidsT a (by simp)
      have hread : s₁.reads T₁.kids n = pre ++ a :: post := by
        rw [reads_directory htype₁, hkids]
      have hfree : copiedName ((T₂.kids c).map s₂.name) (s₂.name a) ∉ (T₂.kids c).map s₂.name := by
        rw [hnames, hadds₂.name a ha]
        exact fun htaken => hway n pre a post ⟨.refl .., hread, hac, htaken⟩
      refine ⟨s₂, T₂, a, c, hadds₂.wellFormed, hadds₂.hasMemory (hadds.hasMemory hmem),
        hadds₂.nodes ha, hadds₂.nodes hc,
        { directory := (hadds₂.type c hc).trans hdir
          reached := hadds₂.reaches_mono hac
          free := hfree
          onWay := hway.next hadds₂.toGrows hc (hread ▸ by simp)
          atEnd := ?_ }, fuel', by omega, r', hcopy⟩
      have hnodup : ((T₂.kids c).map s₂.name).Nodup := by
        rw [hnames]
        exact nodup_addNames List.nodup_nil
      rw [copyNames_of_nodup hnodup, copiedName_of_not_mem hfree]
      exact hfree

/-- A call that comes to its own copy does not end. -/
theorem ramfsCopy_loops (h : s.CopyLoops T n p) (hwell : s.WellFormed T) (hmem : s.HasMemory)
    (hn : n ∈ T.nodes) (hp : p ∈ T.nodes) (fuel : ℕ) :
    ramfsCopy fuel s (some n) (some p) = none := by
  refine eq_none_of_progress
    (f := fun (call : Ramfs × NodeId × NodeId) fuel =>
      ramfsCopy fuel call.1 (some call.2.1) (some call.2.2))
    (I := fun call => ∃ T, call.1.WellFormed T ∧ call.1.HasMemory ∧ call.2.1 ∈ T.nodes ∧
      call.2.2 ∈ T.nodes ∧ call.1.CopyLoops T call.2.1 call.2.2) ?_
    (s := (s, n, p)) ⟨T, hwell, hmem, hn, hp, h⟩ fuel
  rintro ⟨s, n, p⟩ ⟨T, hwell, hmem, hn, hp, h⟩ fuel r hr
  obtain ⟨s', T', a, c, hwell', hmem', ha, hc, h', hdeeper⟩ := h.step hwell hmem hn hp hr
  exact ⟨(s', a, c), ⟨T', hwell', hmem', ha, hc, h'⟩, hdeeper⟩

/-! ### The calls that end -/

/-- The loop with one child from which the new node may be read. -/
theorem copyChildren_around (h : s.WellFormed T) (hmem : s.HasMemory) (hn : n ∈ T.nodes)
    (hnc : n ≠ c) (hc : c ∈ T.nodes) (hdir : s.type c = .directory)
    (hkids : T.kids n = pre ++ a :: post) {us : List FsTree}
    (hts : List.Forall₂ (Unfolds s.label (s.reads T.kids)) ts pre)
    (hus : List.Forall₂ (Unfolds s.label (s.reads T.kids)) us post)
    (hout : ∀ b ∈ pre ++ post, ¬ Reaches (s.reads T.kids) b c)
    (hcopy : ∀ s' T' l k', s.Adds T s' T' c l k' →
      (T'.kids c).map s'.name = (pre.map s.name).foldl addName ((T.kids c).map s.name) →
        ∃ r s'' T'' l', Ends (fun fuel => ramfsCopy fuel s' (some a) (some c)) (some (r, s'')) ∧
          s'.Adds T' s'' T'' c l' k) :
    ∃ s' T' l, Ends (fun fuel => copyChildren fuel s (T.kids n).head? c) (some s') ∧
      s.Adds T s' T' c l
        (LabelTree.sums (fun _ => 1) ts + (k + LabelTree.sums (fun _ => 1) us)) := by
  obtain ⟨s₁, T₁, l₁, hadds₁, hnames, hfirst, -⟩ := copyChildren_aside h hmem hn hnc hc hdir
    (hkids.trans (List.nil_append _).symm) hts fun b hb => hout b (List.mem_append_left _ hb)
  obtain ⟨r, s₂, T₂, l₂, hends, hadds₂⟩ := hcopy s₁ T₁ l₁ _ hadds₁ hnames
  have hgrows := hadds₁.toGrows.trans hadds₂.toGrows
  have hkids₁ : T₁.kids n = pre ++ a :: post := (hadds₁.kids n hn hnc).trans hkids
  have hkids₂ : T₂.kids n = (pre ++ [a]) ++ (post ++ []) := by
    rw [(hgrows.next_eq hn hnc hkids).1, List.append_nil]
  obtain ⟨hus₂, hout₂⟩ := hgrows.reads_forall h.backed (fun b hb =>
    ⟨(T.kids_mem n b (by simp [hkids, hb])).2, hout b (List.mem_append_right _ hb)⟩) hus
  obtain ⟨s₃, T₃, l₃, hadds₃, -, hlast, -⟩ := copyChildren_aside hadds₂.wellFormed
    (hadds₂.hasMemory (hadds₁.hasMemory hmem)) (hgrows.nodes hn) hnc (hgrows.nodes hc)
    ((hgrows.type c hc).trans hdir) hkids₂ hus₂ hout₂
  refine ⟨s₃, T₃, l₁ ++ (l₂ ++ l₃), ?_, hadds₁.trans (hadds₂.trans hadds₃)⟩
  have hend : Ends (fun fuel => copyChildren fuel s₃ none c) (some s₃) := by
    rw [← ends_succ]
    exact ends_const _
  have hloop := hlast _ hend
  rw [List.append_nil] at hloop
  rw [hkids]
  exact hfirst _ (hadds₂.loop_ends (hadds₁.nodes hn) hnc hkids₁ hends hloop)

/-- The children that are read, without `a`. -/
def Ramfs.readsWithout (s : Ramfs) (kids : NodeId → List NodeId) (a p : NodeId) : List NodeId :=
  (s.reads kids p).erase a

theorem Ramfs.readsWithout_subset (s : Ramfs) (kids : NodeId → List NodeId) (a p : NodeId) :
    s.readsWithout kids a p ⊆ s.reads kids p := List.erase_subset

/-- What is read without `a` is not below `a`. -/
theorem Ramfs.not_below_readsWithout (han : ¬ T.Below a n)
    (hreach : Reaches (s.readsWithout T.kids a) n m) : ¬ T.Below a m := by
  induction hreach using ReflTransGen.head_induction_on with
  | refl => exact han
  | @head b q hkid _ ih =>
    have hnodup : (s.reads T.kids q).Nodup := (T.nodup q).sublist (s.reads_sublist T.kids q)
    obtain ⟨hne, hread⟩ := hnodup.mem_erase_iff.mp hkid
    rwa [OrderedTree.below_kid_iff (mem_reads.mp hread).2 hne]

/-- Where `a` is not read nothing is left out. -/
theorem Ramfs.unfolds_reads_of_without (hac : Reaches (s.reads T.kids) a c)
    (hout : ¬ Reaches (s.reads T.kids) n c)
    (ht : Unfolds s.label (s.readsWithout T.kids a) t n) :
    Unfolds s.label (s.reads T.kids) t n := by
  refine ht.congr (fun _ _ => rfl) fun m hm => ?_
  refine (List.erase_of_not_mem fun ha => hout ?_).symm
  exact ((hm.mono (s.readsWithout_subset T.kids a)).trans (.kid ha)).trans hac

/-- What is added below `a` is left out. -/
theorem Ramfs.Grows.unfolds_without (h : s.Grows T s' T' c l) (hbacked : s.Backed T)
    (hn : n ∈ T.nodes) (han : ¬ T.Below a n) (hac : T.Below a c)
    (ht : Unfolds s.label (s.readsWithout T.kids a) t n) :
    Unfolds s'.label (s'.readsWithout T'.kids a) t n := by
  have hmem : ∀ m, Reaches (s.readsWithout T.kids a) n m → m ∈ T.nodes := fun m hm =>
    reads_mem hn (hm.mono (s.readsWithout_subset T.kids a))
  refine ht.congr (fun m hm => h.label_eq hbacked (hmem m hm)) fun m hm => ?_
  have hne : m ≠ c := by
    rintro rfl
    exact not_below_readsWithout han hm hac
  rw [readsWithout, readsWithout, h.reads_eq (hmem m hm) hne]

/-- The loop at `n` ends, with copies of what is in the tree besides `n`. -/
def Ramfs.LoopStops (s : Ramfs) (T : OrderedTree NodeId) (n c : NodeId) (t : FsTree) : Prop :=
  ∃ s' T' l, Ends (fun fuel => copyChildren fuel s (T.kids n).head? c) (some s') ∧
    s.Adds T s' T' c l (LabelTree.sums (fun _ => 1) t.kids)

section blocked

variable {front back : List NodeId} (h : s.WellFormed T) (hmem : s.HasMemory) (hn : n ∈ T.nodes)
  (hc : c ∈ T.nodes) (hdir : s.type c = .directory) (hleaf : T.kids c = [])
include h hmem hn hc hdir

include hleaf in
/-- The loop in which no name is free for `a`. -/
theorem Ramfs.Blocked.stops_here (hblocked : s.Blocked T n c n front a back)
    (ht : Unfolds s.label (s.readsWithout T.kids a) t n) : s.LoopStops T n c t := by
  have hts := ht.kids_forall
  have hnot : a ∉ front := by
    have hnodup := T.nodup n
    rw [hblocked.kids_eq] at hnodup
    exact fun hmem => (List.nodup_middle.mp hnodup).notMem (List.mem_append_left _ hmem)
  rw [readsWithout, hblocked.read, List.erase_append_right _ hnot, List.erase_cons_head] at hts
  obtain ⟨ts₁, ts₂, hsplit, hts₁, hts₂⟩ := forall₂_split hts
  have hout := not_reaches_sibling hblocked.kids_eq hblocked.leads
  have hloop := copyChildren_around (k := 0) h hmem hn hblocked.ne hc hdir hblocked.kids_eq
    (forall₂_imp_mem hts₁ fun t b hb hu =>
      unfolds_reads_of_without hblocked.leads (hout b (List.mem_append_left _ hb)) hu)
    (forall₂_imp_mem hts₂ fun t b hb hu =>
      unfolds_reads_of_without hblocked.leads (hout b (List.mem_append_right _ hb)) hu) hout ?_
  · rwa [Nat.zero_add, ← LabelTree.sums_append, ← hsplit] at hloop
  · -- the copy of `a` is refused
    intro s₁ T₁ l₁ k₁ hadds hnames
    have ha := (T.kids_mem n a hblocked.kid).2
    refine ⟨none, s₁, T₁, [], ?_, hadds.wellFormed.adds_self c⟩
    refine ramfsCopy_refused hadds.wellFormed (hadds.nodes ha) (hadds.nodes hc) (.inr ?_)
    rw [hleaf, List.map_nil] at hnames
    rw [hnames, hadds.name a ha]
    exact hblocked.taken

omit hn in
/-- The copy of a child on the way is refused, or ends with its loop. -/
theorem Ramfs.Blocked.copy_ends (hblocked : s.Blocked T n c q front a back)
    {b : NodeId} (hb : b ∈ T.nodes) (hbq : Reaches (s.reads T.kids) b q)
    (hab : ¬ T.Below a b) (ht : Unfolds s.label (s.readsWithout T.kids a) t b)
    (ih : ∀ {s : Ramfs} {T : OrderedTree NodeId} {n c : NodeId}, s.WellFormed T → s.HasMemory →
      n ∈ T.nodes → c ∈ T.nodes → s.type c = .directory → T.kids c = [] →
      s.Blocked T n c q front a back → Unfolds s.label (s.readsWithout T.kids a) t n →
      s.LoopStops T n c t) (hadds : s.Adds T s' T' c l k) :
    ∃ r s'' T'' l', Ends (fun fuel => ramfsCopy fuel s' (some b) (some c)) (some (r, s'')) ∧
      s'.Adds T' s'' T'' c l' (nodeCount t) := by
  have hmem' := hadds.hasMemory hmem
  have hb' := hadds.nodes hb
  have hc' := hadds.nodes hc
  have hdir' := (hadds.type c hc).trans hdir
  have hbdir := (hadds.type b hb).trans (directory_of_reaches hbq hblocked.directory)
  by_cases hfree : copiedName ((T'.kids c).map s'.name) (s'.name b) ∈ (T'.kids c).map s'.name
  · refine ⟨none, s', T', [], ?_, (hadds.wellFormed.adds_self c).mono (Nat.zero_le _)⟩
    exact ramfsCopy_refused hadds.wellFormed hb' hc' (.inr hfree)
  · obtain ⟨s₂, T₂, hadds₂, hd, hddir, -, hdleaf, heq⟩ :=
      ramfsCopy_enters hadds.wellFormed hmem' hb' hc' hdir' hfree hbdir
    have hgrows := hadds.toGrows.trans hadds₂.toGrows
    obtain ⟨s₃, T₃, l₃, hends, hadds₃⟩ := ih hadds₂.wellFormed (hadds₂.hasMemory hmem')
      (hgrows.nodes hb) hd hddir hdleaf
      (hblocked.next hgrows (hadds₂.mem_reads_last hc' hdir') hbq)
      (hgrows.unfolds_without h.backed hb hab (reads_below hblocked.leads) ht)
    refine ⟨some s'.nextNode, s₃, T₃, [s'.nextNode], hends.of_bind heq, ?_⟩
    rw [nodeCount_eq]
    exact hadds₂.into hadds₃ hc' (hadds₂.not_mem (List.mem_singleton_self _))

end blocked

/-- The loop that finds a name taken on the way to the new node ends.  It copies no more than what
is read without the node whose name is taken. -/
theorem Ramfs.Blocked.stops {front back : List NodeId} (h : s.WellFormed T) (hmem : s.HasMemory)
    (hn : n ∈ T.nodes) (hc : c ∈ T.nodes) (hdir : s.type c = .directory) (hleaf : T.kids c = [])
    (hblocked : s.Blocked T n c q front a back)
    (ht : Unfolds s.label (s.readsWithout T.kids a) t n) : s.LoopStops T n c t := by
  induction t using LabelTree.induction generalizing s T n c with
  | node label ts ih =>
    obtain rfl | hqn := eq_or_ne q n
    · exact hblocked.stops_here h hmem hn hc hdir hleaf ht
    · obtain ⟨pre, b, post, hndir, hkids, hbq⟩ := reads_split hblocked.reached hqn
      have hbc : Reaches (s.reads T.kids) b c :=
        (hbq.trans (.kid hblocked.mem_reads)).trans hblocked.leads
      have hout := not_reaches_sibling hkids hbc
      have hb : b ∈ T.nodes := (T.kids_mem n b (by simp [hkids])).2
      have hab : ¬ T.Below a b := fun hbelow =>
        OrderedTree.not_below_kid hblocked.kid ((reads_below hbq).trans hbelow)
      have hnot : a ∉ s.reads T.kids n := fun hmem =>
        hqn (T.disjoint q n a hblocked.kid (Ramfs.mem_reads.mp hmem).2)
      have hts := ht.kids_forall
      rw [LabelTree.kids_node, readsWithout, List.erase_of_not_mem hnot, reads_directory hndir,
        hkids] at hts
      obtain ⟨ts₁, us, rfl, hts₁, hus⟩ := forall₂_split hts
      obtain ⟨u, ts₂, hu, hts₂, rfl⟩ := List.forall₂_cons_right_iff.mp hus
      have hloop := copyChildren_around (k := nodeCount u) h hmem hn hblocked.ne hc hdir hkids
        (forall₂_imp_mem hts₁ fun t x hx hu =>
          unfolds_reads_of_without hblocked.leads (hout x (List.mem_append_left _ hx)) hu)
        (forall₂_imp_mem hts₂ fun t x hx hu =>
          unfolds_reads_of_without hblocked.leads (hout x (List.mem_append_right _ hx)) hu) hout ?_
      · rwa [← LabelTree.sums, ← LabelTree.sums_append] at hloop
      · intro s₁ T₁ l₁ k₁ hadds₁ _
        exact hblocked.copy_ends h hmem hc hdir hb hbq hab hu (ih u (by simp)) hadds₁

/-! ### Where `ramfs_copy` ends -/

/-- `ramfs_copy(node, new_parent)` ends, and has created no more nodes than there were in the
subtree of `node`. -/
def Ramfs.CopyTerminates (s : Ramfs) (T : OrderedTree NodeId) (n p : NodeId) : Prop :=
  ∃ r s', Ends (fun fuel => ramfsCopy fuel s (some n) (some p)) (some (r, s')) ∧
    s'.nextNode ≤ s.nextNode + {m | T.Below n m}.ncard

/-- A tree does not have more nodes than the subtree from which it has been read. -/
theorem nodeCount_le {kids : NodeId → List NodeId} (hfinite : T.nodes.Finite)
    (hfinite' : T'.nodes.Finite) (hn : n ∈ T.nodes) (hn' : n ∈ T'.nodes)
    (hsub : ∀ p, (kids p).Sublist (T'.kids p)) (hold : ∀ m, Reaches kids n m → T.Below n m)
    (ht : Unfolds s.label kids t n) : nodeCount t ≤ {m | T.Below n m}.ncard := by
  rw [nodeCount, ht.sum_eq hfinite' hn' hsub, finsum_one]
  exact Set.ncard_le_ncard hold (hfinite.subset fun m hm => OrderedTree.below_mem hn hm)

section ends

variable (h : s.WellFormed T) (hmem : s.HasMemory) (hn : n ∈ T.nodes) (hp : p ∈ T.nodes)
include h hmem hn hp

/-- Calls that do not read the new node end. -/
theorem ramfsCopy_terminates_aside (hdir : s.type p = .directory)
    (hout : ¬ Reaches (s.reads T.kids) n p) : s.CopyTerminates T n p := by
  obtain ⟨t, ht⟩ := Unfolding.exists_unfolds h.represents.finite_nodes
    (fun p => (s.reads_sublist T.kids p).subset) s.label hn
  obtain ⟨r, s', T', l, hends, hadds, -⟩ := ramfsCopy_aside h hmem hn hp hdir hout ht
  refine ⟨r, s', hends, hadds.count.trans (Nat.add_le_add_left ?_ _)⟩
  exact nodeCount_le h.represents.finite_nodes h.represents.finite_nodes hn hn
    (s.reads_sublist T.kids) (fun m hm => Ramfs.reads_below hm) ht

/-- Calls that find a name taken on the way to the new node end. -/
theorem ramfsCopy_terminates_blocked (hdir : s.type p = .directory)
    (hreach : Reaches (s.reads T.kids) n p)
    (hfree : copiedName ((T.kids p).map s.name) (s.name n) ∉ (T.kids p).map s.name)
    (hloops : ¬ s.CopyLoops T n p) : s.CopyTerminates T n p := by
  have htype := Ramfs.directory_of_reaches hreach hdir
  obtain ⟨s₁, T₁, hadds, hc, hcdir, hname, hleaf, heq⟩ :=
    ramfsCopy_enters h hmem hn hp hdir hfree htype
  generalize s.nextNode = c at *
  have hread : s₁.reads T₁.kids p = T.kids p ++ [c] := by
    rw [Ramfs.reads_directory ((hadds.type p hp).trans hdir), hadds.kids_self]
  have hkid := hadds.mem_reads_last hp hdir
  have hway : ¬ s₁.FreeOnWay T₁ n c := by
    refine fun hway => hloops ⟨hdir, hreach, hfree, ?_, fun htaken => ?_⟩
    · intro q front a back hblocked
      exact hway q front a back (hblocked.next hadds.toGrows hkid hblocked.reached)
    · refine hway p (T.kids p) c [] ⟨hadds.reaches_mono hreach, hread, .refl .., ?_⟩
      rwa [hadds.map_name fun m hm => (T.kids_mem p m hm).2, hname]
  simp only [Ramfs.FreeOnWay, not_forall, not_not] at hway
  obtain ⟨q, front, a, back, hblocked⟩ := hway
  have hsub : ∀ m, (s₁.readsWithout T₁.kids a m).Sublist (T₁.kids m) := fun m =>
    List.erase_sublist.trans (s₁.reads_sublist T₁.kids m)
  obtain ⟨t, ht⟩ := Unfolding.exists_unfolds hadds.represents.finite_nodes
    (fun m => (hsub m).subset) s₁.label (hadds.nodes hn)
  obtain ⟨s₂, T₂, l, hends, hadds₂⟩ := hblocked.stops hadds.wellFormed (hadds.hasMemory hmem)
    (hadds.nodes hn) hc hcdir hleaf ht
  refine ⟨some c, s₂, hends.of_bind heq, ?_⟩
  have hcount := hadds.count_trans hadds₂
  rw [← nodeCount_eq] at hcount
  refine hcount.trans (Nat.add_le_add_left ?_ _)
  refine nodeCount_le h.represents.finite_nodes hadds.represents.finite_nodes hn (hadds.nodes hn)
    hsub (fun m hm => ?_) ht
  -- what is copied was there, as the new node is below `a`
  have hread₁ := hm.mono (s₁.readsWithout_subset T₁.kids a)
  have hold : m ∈ T.nodes := by
    by_contra hnew
    obtain ⟨b, hb, hbelow⟩ :=
      hadds.below_new (Ramfs.Grows.reads_mem (hadds.nodes hn) hread₁) hnew
    obtain rfl := List.mem_singleton.mp hb
    exact Ramfs.not_below_readsWithout hblocked.not_below hm
      (hbelow.trans (Ramfs.reads_below hblocked.leads))
  exact Ramfs.reads_below (hadds.reaches_old hold hread₁)

/-- **Where `ramfs_copy` ends.**  With enough memory it ends, with no more new nodes than there were
in the subtree, unless it comes to its own copy; then it never ends. -/
theorem ramfsCopy_terminates_iff : s.CopyTerminates T n p ↔ ¬ s.CopyLoops T n p := by
  constructor
  · rintro ⟨r, s', hends, -⟩ hloops
    have hnone : Ends (fun fuel => ramfsCopy fuel s (some n) (some p)) none :=
      (ends_const none).congr fun fuel => ramfsCopy_loops hloops h hmem hn hp fuel
    exact absurd (hends.unique hnone) (Option.some_ne_none _)
  · intro hloops
    by_cases hrefused : s.type p ≠ .directory ∨
        copiedName ((T.kids p).map s.name) (s.name n) ∈ (T.kids p).map s.name
    · exact ⟨none, s, ramfsCopy_refused h hn hp hrefused, Nat.le_add_right _ _⟩
    · obtain ⟨hdir, hfree⟩ := not_or.mp hrefused
      rw [not_not] at hdir
      by_cases hreach : Reaches (s.reads T.kids) n p
      · exact ramfsCopy_terminates_blocked h hmem hn hp hdir hreach hfree hloops
      · exact ramfsCopy_terminates_aside h hmem hn hp hdir hreach

end ends

/-- Where the names of siblings are different, only the name in `p` matters. -/
theorem copyLoops_iff_of_distinct
    (hdistinct : ∀ m, Reaches (s.reads T.kids) n m → ((T.kids m).map s.name).Nodup) :
    s.CopyLoops T n p ↔ s.type p = .directory ∧ Reaches (s.reads T.kids) n p ∧
      copiedName ((T.kids p).map s.name) (s.name n) ∉ (T.kids p).map s.name := by
  constructor
  · exact fun h => ⟨h.directory, h.reached, h.free⟩
  · rintro ⟨hdir, hreach, hfree⟩
    refine ⟨hdir, hreach, hfree, fun q front a back hblocked => ?_, ?_⟩
    · have hnodup := hdistinct q hblocked.reached
      rw [hblocked.kids_eq, List.map_append, List.map_cons] at hnodup
      have hnot : s.name a ∉ front.map s.name := fun hmem =>
        List.disjoint_of_nodup_append hnodup hmem List.mem_cons_self
      have htaken := hblocked.taken
      rw [copyNames_of_nodup (List.Nodup.of_append_left hnodup), copiedName_of_not_mem hnot]
        at htaken
      exact hnot htaken
    · rw [copyNames_of_nodup (hdistinct p hreach), copiedName_of_not_mem hfree]
      exact hfree

theorem ramfsCopy_terminates_iff_example :
    ∃ T, oneNested.Represents T ∧ oneNested.CopyTerminates T 1 3 := by
  obtain ⟨T, hT⟩ := oneNested_represents
  have h := oneNested_oneInside hT
  refine ⟨T, hT, (ramfsCopy_terminates_iff h.wellFormed (fun _ _ => rfl) (h.mem (by decide))
    (h.mem (by decide))).mpr fun hloops => ?_⟩
  exact h.not_below (Ramfs.reads_below hloops.reached)

/-- `ramfs_copy(node, node)` does not end. -/
theorem ramfsCopy_endless : ¬ ∀ (s : Ramfs) (T : OrderedTree NodeId) (n p : NodeId),
    s.WellFormed T → s.HasMemory → n ∈ T.nodes → p ∈ T.nodes → s.CopyTerminates T n p := by
  intro hall
  obtain ⟨T, hT⟩ := oneNested_represents
  have h := oneNested_oneInside hT
  have hmem : oneNested.HasMemory := fun _ _ => rfl
  have hn : 1 ∈ T.nodes := h.mem (by decide)
  have hloops : oneNested.CopyLoops T 1 1 := by
    refine (copyLoops_iff_of_distinct fun m _ => h.distinct m).mpr ⟨by decide, .refl .., ?_⟩
    rw [h.kids_one]
    decide
  obtain ⟨r, s', hends, -⟩ := hall oneNested T 1 1 h.wellFormed hmem hn hn
  have hnone : Ends (fun fuel => ramfsCopy fuel oneNested (some 1) (some 1)) none :=
    (ends_const none).congr fun fuel => ramfsCopy_loops hloops h.wellFormed hmem hn hn fuel
  exact absurd (hends.unique hnone) (Option.some_ne_none _)

end Bethany
