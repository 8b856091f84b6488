import Bethany.Filesystem.RamfsMove
import Bethany.Filesystem.RamfsNameless
import Bethany.Filesystem.Volume

/-!
# The RAM file system is a file system

As long as there is memory, the nodes, links and data blocks of `ramfs.c` are a `Volume`, and every
call does to them what the request does to the volume, and returns what it returns.

* `FsRequest.perform`: the calls of the source;
* `Ramfs.Shows`: the nodes are the volume; `Ramfs.Shows.intro`: a volume for well-formed nodes;
* `Ramfs.Shows.create`, `write`, `rename`, `move`, `copy`, `remove`, `delete`, `find`, `read`: one
  call;
* `ramfs_refines`: the runs.
-/

namespace Bethany

open Fuel Machine Unfolding

/-! ### Copies -/

/-- When no call of `kmalloc` fails, the number of calls does not matter to a loop. -/
theorem copyTrees_allocs {ts : List FsTree}
    (ih : ∀ t ∈ ts, ∀ names k j, (copyTree (fun _ => false) t names k).map Prod.fst =
      (copyTree (fun _ => false) t names j).map Prod.fst) (copies : List FsTree) (k j : ℕ) :
    (copyTrees (fun _ => false) ts copies k).map Prod.fst =
      (copyTrees (fun _ => false) ts copies j).map Prod.fst := by
  induction ts generalizing copies k j with
  | nil => rfl
  | cons t ts ihl =>
    have hfirst := ih t List.mem_cons_self (copies.map fun t => t.label.name) k j
    have hrest := ihl fun t ht => ih t (List.mem_cons_of_mem _ ht)
    simp only [copyTrees]
    cases hk : copyTree (fun _ => false) t (copies.map fun t => t.label.name) k with
    | none =>
      rw [hk, Option.map_none, eq_comm, Option.map_eq_none_iff] at hfirst
      rw [hfirst]
    | some r =>
      rw [hk, Option.map_some, eq_comm] at hfirst
      obtain ⟨r', hj, hr⟩ := Option.map_eq_some_iff.mp hfirst
      rw [hj]
      simp only [Option.bind_eq_bind, Option.bind_some, hr]
      exact hrest (copies ++ r.1.toList) r.2 r'.2

/-- When no call of `kmalloc` fails, the number of calls does not matter to a copy. -/
theorem copyTree_allocs (t : FsTree) (names : List (Option CString)) (k j : ℕ) :
    (copyTree (fun _ => false) t names k).map Prod.fst =
      (copyTree (fun _ => false) t names j).map Prod.fst := by
  induction t using LabelTree.induction generalizing names k j with
  | node label ts ih =>
    have hloop := copyTrees_allocs (fun t ht names k j => ih t ht names k j) [] (k + 2) (j + 2)
    simp only [copyTree]
    cases label.name with
    | none => rfl
    | some name =>
      simp only [Option.bind_eq_bind, Option.bind_some]
      cases nameIn name names with
      | none => rfl
      | some found =>
        simp only [Option.bind_some]
        cases nameIn (if found = true then copyName name else name) names with
        | none => rfl
        | some taken =>
          cases taken with
          | true => rfl
          | false =>
            cases label.type with
            | file =>
              by_cases hcontent : label.content = []
              · simp [hcontent]
              · simp [hcontent]
            | directory =>
              cases hk : copyTrees (fun _ => false) ts [] (k + 2) with
              | none =>
                rw [hk, Option.map_none, eq_comm, Option.map_eq_none_iff] at hloop
                simp [hloop]
              | some r =>
                rw [hk, Option.map_some, eq_comm] at hloop
                obtain ⟨r', hj, hr⟩ := Option.map_eq_some_iff.mp hloop
                simp [hj, hr]

/-! ### The interface -/

/-- `ramfs_exists` -/
def ramfsExists (s : Ramfs) (parent : Option NodeId) (name : CString) : Option Bool :=
  (ramfsFind s parent name).map Option.isSome

/-- The call with its result, if it returns; `fuel` bounds the rounds of `ramfs_copy` and
`ramfs_delete`. -/
def FsRequest.perform (fuel : ℕ) (s : Ramfs) : FsRequest → Option (FsReply × Ramfs)
  | .change (.create parent name type) =>
    (ramfsCreate s parent name type).map fun r => (.node r.1, r.2)
  | .change (.mkdir parent name) => (ramfsMkdir s parent name).map fun r => (.node r.1, r.2)
  | .change (.write node buffer size) =>
    let r := ramfsWrite s node buffer size
    some (.success r.1, r.2)
  | .change (.rename node newName) =>
    (ramfsRename s node newName).map fun r => (.success r.1, r.2)
  | .change (.move node newParent) =>
    (ramfsMove s node newParent).map fun r => (.success r.1, r.2)
  | .change (.copy node newParent) =>
    (ramfsCopy fuel s node newParent).map fun r => (.node r.1, r.2)
  | .change (.remove node) => (ramfsRemove s node).map fun s => (.done, s)
  | .change (.delete node) => (ramfsDelete fuel s node).map fun r => (.success r.1, r.2)
  | .find parent name => (ramfsFind s parent name).map fun r => (.node r, s)
  | .exist parent name => (ramfsExists s parent name).map fun r => (.success r, s)
  | .read node buffer size offset =>
    (ramfsRead s node buffer size offset).map fun r => (.bytes r.1 r.2, s)

/-- The nodes are those of the tree `T`, look like the volume, and there is memory. -/
structure Ramfs.Shows (s : Ramfs) (T : OrderedTree NodeId) (v : Volume) : Prop where
  wellFormed : s.WellFormed T
  memory : ∀ i, s.fails i = false
  seen : Keyed s.label T.kids v.tree T.root

variable {s s' : Ramfs} {T T' : OrderedTree NodeId} {v v' : Volume} {n m p : NodeId}
  {name : CString} {type : FsNodeType} {d : FsPlace}

theorem FsPlace.names_eq (h : Keyed s.label T.kids d p) :
    FsPlace.names d = (T.kids p).map s.name := by
  have hnames : d.kids.map LabelTree.value = (T.kids p).map s.label := Keyed.map_value h.kids_forall
  have := congrArg (List.map FsLabel.name) hnames
  simpa [FsPlace.names, Function.comp_def, Ramfs.label] using this

namespace Ramfs.Shows

theorem represents (h : s.Shows T v) : s.Represents T := h.wellFormed.represents

theorem root_eq (h : s.Shows T v) : v.root = T.root := h.seen.key_eq

theorem mem_keys (h : s.Shows T v) : n ∈ v.tree.keys ↔ n ∈ T.nodes := by
  rw [h.seen.mem_keys]
  constructor
  · exact OrderedTree.below_mem T.root_mem
  · exact T.climbs n

theorem find? (h : s.Shows T v) (hn : n ∈ T.nodes) :
    ∃ d, v.tree.find? n = some d ∧ Keyed s.label T.kids d n :=
  h.seen.find?_eq (T.climbs n hn)

theorem mem_keys_of_live (h : s.Shows T v) (hn : s.Live n) : n ∈ v.tree.keys :=
  h.mem_keys.mpr ((h.represents.live n).mp hn)

/-- The nodes that a legal call is given. -/
theorem args_mem_keys (h : s.Shows T v) {request : FsRequest}
    (hlive : ∀ arg ∈ request.args, ∀ n ∈ arg, s.Live n) :
    ∀ arg ∈ request.args, ∀ n ∈ arg, n ∈ v.tree.keys :=
  fun arg harg n hn => h.mem_keys_of_live (hlive arg harg n hn)

/-- Files have no children. -/
theorem childless (h : s.Shows T v) (hn : n ∈ T.nodes) (hfile : s.type n = .file) :
    T.kids n = [] := by
  obtain ⟨d, hd, hseen⟩ := h.find? hn
  have hmem : d ∈ v.tree.subtrees := List.mem_of_find?_eq_some hd
  have hkids : d.kids = [] := v.files d hmem (by rw [hseen.value_eq]; exact hfile)
  rw [← hseen.kids_key, hkids]
  rfl

theorem within_iff (h : s.Shows T v) (hn : n ∈ T.nodes) : v.Within n p ↔ T.Below n p := by
  obtain ⟨d, hd, hseen⟩ := h.find? hn
  constructor
  · rintro ⟨e, he, hp⟩
    obtain rfl : d = e := Option.some.inj (hd.symm.trans he)
    exact hseen.mem_keys.mp hp
  · exact fun hbelow => ⟨d, hd, hseen.mem_keys.mpr hbelow⟩

theorem isA_iff (h : s.Shows T v) (hn : n ∈ T.nodes) : v.IsA n type ↔ s.type n = type := by
  obtain ⟨d, hd, hseen⟩ := h.find? hn
  have hvalue : d.value.type = s.type n := by
    rw [hseen.value_eq]
    rfl
  constructor
  · rintro ⟨e, he, htype⟩
    obtain rfl : d = e := Option.some.inj (hd.symm.trans he)
    exact hvalue.symm.trans htype
  · exact fun htype => ⟨d, hd, hvalue.trans htype⟩

/-- Nothing else is below a file. -/
theorem not_within_file (h : s.Shows T v) (hn : s.Live n) (hfile : s.type n = .file)
    (hne : p ≠ n) : ¬ v.Within n p := by
  have hn := (h.represents.live n).mp hn
  rw [h.within_iff hn]
  exact fun hbelow => hne (OrderedTree.below_leaf (h.childless hn hfile) hbelow)

/-- The root is below nothing else. -/
theorem not_within_root (h : s.Shows T v) (hn : s.Live n) (hroot : s.root = some p)
    (hne : n ≠ p) : ¬ v.Within n p := by
  rw [h.represents.root, Option.some.injEq] at hroot
  subst hroot
  rw [h.within_iff ((h.represents.live n).mp hn)]
  exact fun hbelow => hne (OrderedTree.below_root hbelow)

/-- What is seen of well-formed nodes, with files that have no children, is a volume. -/
theorem intro {t : FsPlace} (hwell : s.WellFormed T) (hmem : ∀ i, s.fails i = false)
    (hfiles : ∀ n ∈ T.nodes, s.type n = .file → T.kids n = [])
    (hseen : Keyed s.label T.kids t T.root) : ∃ v : Volume, v.tree = t ∧ s.Shows T v := by
  have hsub : ∀ u ∈ t.subtrees, ∃ m ∈ T.nodes, Keyed s.label T.kids u m := by
    intro u hu
    obtain ⟨m, hm, hum⟩ := (Unfolds.mem_subtrees hseen).mp hu
    exact ⟨m, OrderedTree.below_mem T.root_mem hm, hum⟩
  have hdistinct := hseen.nodup_keys T.root_mem
  refine ⟨⟨t, hdistinct, fun u hu hfile => ?_, fun u hu => ?_⟩, rfl, hwell, hmem, hseen⟩
  · obtain ⟨m, hm, hum⟩ := hsub u hu
    rw [hum.value_eq] at hfile
    have hkids := hum.kids_key
    rw [hfiles m hm hfile] at hkids
    exact List.map_eq_nil_iff.mp hkids
  · obtain ⟨m, hm, hum⟩ := hsub u hu
    rw [hum.value_eq]
    exact hwell.named m hm

/-- New children of a directory. -/
theorem grow (h : s.Shows T v) (hp : p ∈ T.nodes) (hdir : s.type p = .directory) {c : NodeId}
    (hgrows : s.Grows T s' T' p [c]) (hnamed : ∀ m ∈ T'.nodes, (s'.name m).isSome)
    (hfiles : ∀ m, T'.Below c m → s'.type m = .file → T'.kids m = [])
    {u : FsPlace} (hu : Keyed s'.label T'.kids u c) :
    ∃ v' : Volume, v'.tree = v.tree.graft p u ∧ s'.Shows T' v' := by
  have hlabel : ∀ m, Reaches T.kids T.root m → s'.label m = s.label m := fun m hm =>
    hgrows.label_eq h.wellFormed.backed (OrderedTree.below_mem T.root_mem hm)
  have hseen : Keyed s'.label T'.kids (v.tree.graft p u) T'.root := by
    rw [hgrows.root]
    exact h.seen.graft hu hlabel hgrows.kids_self fun m hm =>
      hgrows.kids m (OrderedTree.below_mem T.root_mem hm)
  refine intro ⟨hgrows.represents, hgrows.backed, hnamed⟩ (by rw [hgrows.fails]; exact h.memory)
    (fun m hm hfile => ?_) hseen
  by_cases hold : m ∈ T.nodes
  · rw [hgrows.type m hold] at hfile
    have hne : m ≠ p := by
      rintro rfl
      rw [hdir] at hfile
      cases hfile
    rw [hgrows.kids m hold hne]
    exact h.childless hold hfile
  · obtain ⟨b, hb, hbelow⟩ := hgrows.below_new hm hold
    obtain rfl := List.mem_singleton.mp hb
    exact hfiles m hbelow hfile

/-! ### The calls -/

theorem create (h : s.Shows T v) (hp : p ∈ T.nodes) (name : CString) (type : FsNodeType) :
    ∃ r s' T' v', ramfsCreate s (some p) name type = some (r, s') ∧
      v.Creates p name type (.node r) v' ∧ s'.Shows T' v' := by
  obtain ⟨d, hd, hseen⟩ := h.find? hp
  have hvalue : d.value.type = s.type p := by
    rw [hseen.value_eq]
    rfl
  obtain ⟨found, hfind, hfound⟩ := h.wellFormed.findIn_eq name p
  rw [← FsPlace.names_eq hseen] at hfound
  by_cases hdir : s.type p = .directory
  · by_cases htaken : some name ∈ FsPlace.names d
    · refine ⟨none, s, T, v, ?_, ⟨d, hd, ?_⟩, h⟩
      · rw [ramfsCreate_eq h.represents.wired hp hdir, hfind, Option.bind_some,
          if_pos (hfound.mpr htaken)]
      · exact .inl ⟨.inr htaken, rfl, rfl⟩
    · obtain rfl : found = none := by
        rw [← hfound] at htaken
        exact Option.not_isSome_iff_eq_none.mp htaken
      obtain ⟨s', T', hcreate, hnew, hgrows, hc, hleaf, -⟩ :=
        h.represents.grow h.wellFormed.backed hp hdir hfind (h.memory _) type
      have hstr : s.fails (s.allocs + 1) = false := h.memory _
      rw [hstr, if_neg Bool.false_ne_true] at hnew
      have hu : Keyed s'.label T'.kids (.node (s.nextNode, ⟨some name, type, []⟩) [])
          s.nextNode := by
        refine unfolds_node.mpr ⟨by rw [hnew.label_eq], ?_⟩
        rw [hleaf]
        exact .nil
      have hnamed : ∀ m ∈ T'.nodes, (s'.name m).isSome := by
        refine hgrows.named h.wellFormed fun b hb m hm => ?_
        obtain rfl := List.mem_singleton.mp hb
        rw [OrderedTree.below_leaf hleaf hm, hnew.name, Function.update_self]
        rfl
      obtain ⟨v', hv', h'⟩ := h.grow hp hdir hgrows hnamed
        (fun m hm _ => by rw [OrderedTree.below_leaf hleaf hm, hleaf]) hu
      refine ⟨some s.nextNode, s', T', v', hcreate, ⟨d, hd, ?_⟩, h'⟩
      refine .inr ⟨hvalue.trans hdir, by simpa using hfound.not, s.nextNode, ?_, rfl, hv'⟩
      rw [h.mem_keys]
      exact h.represents.wired.nextNode_not_mem
  · refine ⟨none, s, T, v, ?_, ⟨d, hd, ?_⟩, h⟩
    · simp [ramfsCreate, hdir]
    · exact .inl ⟨.inl (hvalue ▸ hdir), rfl, rfl⟩

/-- Another label of one node, of the same type. -/
theorem relabel (h : s.Shows T v) {f : FsLabel → FsLabel}
    (hrep : s'.Represents T) (hbacked : s'.Backed T) (hmem : s'.fails = s.fails)
    (htype : s'.type = s.type) (hname : (s'.name n).isSome) (hlabel : s'.label n = f (s.label n))
    (hother : ∀ m ∈ T.nodes, m ≠ n → s'.label m = s.label m) :
    ∃ v' : Volume, v'.tree = v.tree.adjust n f ∧ s'.Shows T v' := by
  refine intro ⟨hrep, hbacked, fun m hm => ?_⟩ (by rw [hmem]; exact h.memory)
    (fun m hm hfile => h.childless hm (by rw [← htype]; exact hfile)) ?_
  · by_cases hmn : m = n
    · exact hmn ▸ hname
    · have hsame : s'.name m = s.name m := congrArg FsLabel.name (hother m hm hmn)
      rw [hsame]
      exact h.wellFormed.named m hm
  · exact h.seen.adjust hlabel fun m hm => hother m (OrderedTree.below_mem T.root_mem hm)

theorem write (h : s.Shows T v) (hn : n ∈ T.nodes) (buffer : Mem) (size : ℕ)
    (hkeep : size = 0 → s.content n = []) :
    ∃ r s' v', ramfsWrite s (some n) buffer size = (r, s') ∧
      v.Writes n buffer size (.success r) v' ∧ s'.Shows T v' := by
  obtain ⟨d, hd, hseen⟩ := h.find? hn
  have hvalue : d.value.type = s.type n := by
    rw [hseen.value_eq]
    rfl
  have hbacked := h.wellFormed.backed
  by_cases hfile : s.type n = .file
  · have hnotdir : ¬ d.value.type ≠ .file := by rw [hvalue, hfile]; simp
    by_cases hzero : size = 0
    · obtain ⟨allocs, hwrite⟩ := ramfsWrite_fails hfile (fun hok => hok.1 hzero) buffer
      have hempty : s.size n = 0 := (hbacked.content_eq_nil hn hfile).mp (hkeep hzero)
      refine ⟨_, _, v, hwrite, ⟨d, hd, ?_⟩, ?_, h.memory, ?_⟩
      · rw [if_pos (.inr hzero)]
        exact ⟨rfl, rfl⟩
      · refine ⟨h.represents.congr rfl rfl rfl rfl rfl rfl, ⟨fun m hm block hblock => ?_,
          fun m hm htype hsize => ?_⟩, h.wellFormed.named⟩
        · by_cases hmn : m = n
          · simp [hmn] at hblock
          · exact hbacked.allocated m hm block (by simpa [hmn] using hblock)
        · have hmn : m ≠ n := by
            rintro rfl
            exact hsize hempty
          obtain ⟨block, hblock, hle⟩ := hbacked.stored m hm htype hsize
          exact ⟨block, by simpa [hmn] using hblock, hle⟩
      · refine h.seen.congr (fun m hm => ?_) fun _ _ => rfl
        by_cases hmn : m = n
        · subst hmn
          simp [label, content, hfile, hempty]
          cases s.data m <;> rfl
        · simp [label, content, hmn]
    · have halloc : s.fails s.allocs = false := h.memory _
      have hwrite := ramfsWrite_succeeds hfile hzero halloc buffer
      have hrep := ramfsWrite_spec h.represents (some n) buffer size
      have hother : ∀ m ∈ T.nodes, m ≠ n →
          (ramfsWrite s (some n) buffer size).2.label m = s.label m := fun m hm hmn =>
        (ramfsWrite_label hmn (hbacked.allocated m hm) buffer size).1
      have hbacked' : (ramfsWrite s (some n) buffer size).2.Backed T := by
        rw [hwrite]
        refine ⟨fun m hm block hblock => ?_, fun m hm htype hsize => ?_⟩
        · by_cases hmn : m = n
          · obtain rfl : s.nextBlock = block := by simpa [hmn] using hblock
            exact Nat.lt_succ_self _
          · exact Nat.lt_succ_of_lt (hbacked.allocated m hm block (by simpa [hmn] using hblock))
        · by_cases hmn : m = n
          · subst hmn
            exact ⟨s.nextBlock, by simp⟩
          · obtain ⟨block, hblock, hle⟩ := hbacked.stored m hm htype (by simpa [hmn] using hsize)
            have hold := hbacked.allocated m hm block hblock
            exact ⟨block, by simpa [hmn] using hblock, by simpa [hmn, hold.ne] using hle⟩
      have hbytes : (List.range size).map (memcpy (s.bytes s.nextBlock) 0 buffer 0 size) =
          (List.range size).map buffer := by
        refine List.map_congr_left fun i hi => ?_
        rw [memcpy_apply]
        simpa using fun hle => absurd (List.mem_range.mp hi) (Nat.not_lt.mpr hle)
      rw [hwrite] at hrep hother hbacked'
      obtain ⟨v', hv', h'⟩ := h.relabel (n := n)
        (f := fun label => { label with content := (List.range size).map buffer }) hrep hbacked' rfl
        rfl (h.wellFormed.named n hn) (by simp [label, content, hfile, hbytes]) hother
      refine ⟨true, _, v', hwrite, ⟨d, hd, ?_⟩, h'⟩
      rw [if_neg (not_or.mpr ⟨hnotdir, hzero⟩)]
      exact ⟨rfl, hv'⟩
  · refine ⟨false, s, v, ?_, ⟨d, hd, ?_⟩, h⟩
    · simp [ramfsWrite, hfile]
    · rw [if_pos (.inl (hvalue ▸ hfile))]
      exact ⟨rfl, rfl⟩

/-- The names beside a node are those that `ramfs_rename` searches. -/
theorem parent? (h : s.Shows T v) (hn : n ∈ T.nodes) (newName : CString) :
    ∃ found, ramfsFind s (s.parent n) newName = some found ∧
      (found.isSome ↔ v.NameTaken n newName) := by
  rw [Volume.NameTaken]
  obtain ⟨hnone, hnot⟩ | ⟨u, p, hu, hp, hkid, hseen⟩ := h.seen.parent?_eq (k := n)
  · have hroot : n = T.root := by
      by_contra hne
      obtain ⟨p, hkid⟩ := T.exists_kid hn hne
      exact hnot p (T.climbs p (T.kids_mem p n hkid).1) hkid
    refine ⟨none, ?_, by simp [hnone]⟩
    rw [hroot, h.represents.parent_root]
    rfl
  · have hp : p ∈ T.nodes := (T.kids_mem p n hkid).1
    obtain ⟨found, hfind, hfound⟩ := h.wellFormed.findIn_eq newName p
    refine ⟨found, ?_, ?_⟩
    · rw [h.represents.parent n p hkid, ramfsFind_eq h.represents.wired hp, hfind]
    · simpa [hu, FsPlace.names_eq hseen] using hfound

theorem rename (h : s.Shows T v) (hn : n ∈ T.nodes) (newName : CString) :
    ∃ r s' v', ramfsRename s (some n) newName = some (r, s') ∧
      v.Renames n newName (.success r) v' ∧ s'.Shows T v' := by
  obtain ⟨found, hfind, hfound⟩ := h.parent? hn newName
  cases found with
  | some m =>
    refine ⟨false, s, v, ?_, ?_, h⟩
    · simp [ramfsRename, hfind]
    · exact .inl ⟨hfound.mp rfl, rfl, rfl⟩
  | none =>
    have hstr : s.fails s.allocs = false := h.memory _
    have hrename := ramfsRename_reached hfind
    simp only [hstr, Bool.not_false, Bool.false_eq_true, if_false] at hrename
    have hrep : Ramfs.Represents { s with
        allocs := s.allocs + 1
        name := Function.update s.name n (some newName) } T :=
      h.represents.congr rfl rfl rfl rfl rfl rfl
    obtain ⟨v', hv', h'⟩ := h.relabel (n := n)
      (f := fun label => { label with name := some newName }) hrep
      ⟨h.wellFormed.backed.allocated, h.wellFormed.backed.stored⟩ rfl rfl (by simp)
      (by simp [label, content]) (fun m hm hmn => by simp [label, content, hmn])
    refine ⟨true, _, v', hrename, .inr ⟨fun htaken => ?_, rfl, hv'⟩, h'⟩
    simpa using hfound.mpr htaken

/-- Other links for the same nodes, or some of them. -/
theorem relink (h : s.Shows T v) (hrep : s'.Represents T') (hnodes : T'.nodes ⊆ T.nodes)
    (hlinks : ∃ children next parent freed, s' = { s with
      children := children, next := next, parent := parent, freed := freed })
    (hfiles : ∀ m ∈ T'.nodes, T.kids m = [] → s.type m = .file → T'.kids m = []) {t : FsPlace}
    (hseen : Keyed s.label T'.kids t T'.root) :
    ∃ v' : Volume, v'.tree = t ∧ s'.Shows T' v' := by
  obtain ⟨children, next, parent, freed, rfl⟩ := hlinks
  have hbacked := h.wellFormed.backed
  refine intro ⟨hrep, ⟨fun m hm => hbacked.allocated m (hnodes hm), fun m hm =>
    hbacked.stored m (hnodes hm)⟩, fun m hm => h.wellFormed.named m (hnodes hm)⟩ h.memory
    (fun m hm hfile => hfiles m hm (h.childless (hnodes hm) hfile) hfile) hseen

theorem move (h : s.Shows T v) (hn : n ∈ T.nodes) (hp : p ∈ T.nodes)
    (hallowed : v.MoveRefused n p ∨ ¬ v.Within n p ∧ v.IsA p .directory) :
    ∃ r s' v', ramfsMove s (some n) (some p) = some (r, s') ∧
      v.Moves n p (.success r) v' ∧ ∃ T', s'.Shows T' v' := by
  obtain ⟨d, hd, hseen⟩ := h.find? hn
  have hrefused : v.MoveRefused n p ↔ s.root = some n ∨ n = p ∨ s.children n = some p := by
    have hfirst : (d.kids.head?.map LabelTree.key = some p) ↔ s.children n = some p := by
      rw [← List.head?_map, hseen.kids_key, (h.represents.links.chain n hn).head_eq]
    rw [Volume.MoveRefused, h.root_eq, h.represents.wired.root_eq_iff, ← hfirst]
    simp [hd]
  by_cases hmoves : v.MoveRefused n p
  · refine ⟨false, s, v, ramfsMove_refused (hrefused.mp hmoves), .inl ⟨hmoves, rfl, rfl⟩, T, h⟩
  · obtain ⟨hwithin, hdir⟩ := hallowed.resolve_left hmoves
    rw [h.within_iff hn] at hwithin
    rw [h.isA_iff hp] at hdir
    have hroot : n ≠ T.root := fun heq => hmoves (.inl (by rw [h.root_eq]; exact heq))
    obtain ⟨s', hmove, hrep⟩ := ramfsMove_place h.represents hn hp hroot hwithin
    obtain ⟨children, next, parent, hlinks⟩ := ramfsMove_frame hmove
    have hfiles : ∀ m ∈ (T.place p n hp hroot hwithin).nodes, T.kids m = [] → s.type m = .file →
        (T.place p n hp hroot hwithin).kids m = [] := by
      intro m _ hkids hfile
      have hne : m ≠ p := by
        rintro rfl
        rw [hdir] at hfile
        cases hfile
      simp [OrderedTree.place, OrderedTree.placeKids, hkids, hne]
    obtain ⟨v', hv', h'⟩ := h.relink hrep (fun m hm => hm.elim (fun heq => heq ▸ hn) id)
      ⟨children, next, parent, s.freed, hlinks⟩ hfiles (h.seen.place_tree hseen hp hroot hwithin)
    exact ⟨true, s', v', hmove, .inr ⟨hmoves, rfl, d, hd, hv'⟩, _, h'⟩

/-- The tree without a subtree. -/
theorem pruned (h : s.Shows T v) (hn : n ∈ T.nodes) (hlinks : s.Relinked s')
    (hrep : s'.Represents (T.prune n)) :
    ∃ v' : Volume, v'.tree = (if n = v.root then .node v.tree.label [] else v.tree.prune n) ∧
      s'.Shows (T.prune n) v' := by
  have hbacked := h.wellFormed.backed
  have hsub : ∀ m ∈ (T.prune n).nodes, m ∈ T.nodes := fun m hm => hm.1
  have hlabel : s'.label = s.label := by
    funext m
    simp [label, content, hlinks.name, hlinks.type, hlinks.size, hlinks.data, hlinks.bytes]
  have hseen : Keyed s'.label (T.prune n).kids
      (if n = v.root then .node v.tree.label [] else v.tree.prune n) (T.prune n).root := by
    rw [hlabel, h.root_eq]
    split_ifs with hroot
    · subst hroot
      have hkids : (T.prune T.root).kids T.root = [] := by
        refine List.eq_nil_iff_forall_not_mem.mpr fun m hm => ?_
        have hmem : m ∈ (T.prune T.root).nodes := ((T.prune T.root).kids_mem _ _ hm).2
        rw [OrderedTree.prune_root_nodes] at hmem
        rw [Set.mem_singleton_iff.mp hmem] at hm
        exact (T.prune T.root).root_not_mem _ hm
      refine unfolds_node.mpr ⟨(Unfolds.label_eq h.seen).symm, ?_⟩
      rw [show (T.prune T.root).root = T.root from rfl, hkids]
      exact .nil
    · exact h.seen.prune_tree hroot
  refine intro ⟨hrep, ⟨fun m hm => ?_, fun m hm => ?_⟩, fun m hm => ?_⟩ ?_ (fun m hm hfile => ?_)
    hseen
  · rw [hlinks.data, hlinks.nextBlock]
    exact hbacked.allocated m (hsub m hm)
  · rw [hlinks.data, hlinks.type, hlinks.size, hlinks.length]
    exact hbacked.stored m (hsub m hm)
  · rw [hlinks.name]
    exact h.wellFormed.named m (hsub m hm)
  · rw [hlinks.fails]
    exact h.memory
  · rw [hlinks.type] at hfile
    rw [OrderedTree.prune_kids, h.childless (hsub m hm) hfile, List.filter_nil]

theorem remove (h : s.Shows T v) (hn : n ∈ T.nodes) :
    ∃ s' v', ramfsRemove s (some n) = some s' ∧ v.Removes n .done v' ∧ ∃ T', s'.Shows T' v' := by
  obtain ⟨d, hd, hseen⟩ := h.find? hn
  have hkids : d.kids = [] ↔ T.kids n = [] := by
    rw [← hseen.kids_key, List.map_eq_nil_iff]
  by_cases hstays : n = v.root ∨ d.kids ≠ []
  · refine ⟨s, v, ramfsRemove_refused ?_, ⟨d, hd, rfl, ?_⟩, T, h⟩
    · rw [h.root_eq, Ne, hkids] at hstays
      refine hstays.imp h.represents.wired.root_eq_iff.mpr fun hne => ?_
      rw [(h.represents.links.chain n hn).head_eq]
      simpa using hne
    · rw [if_pos hstays]
  · obtain ⟨hroot, hleaf⟩ := not_or.mp hstays
    rw [not_not, hkids] at hleaf
    have hne : n ≠ T.root := fun heq => hroot (by rw [h.root_eq]; exact heq)
    obtain ⟨children, next, hremove, hwired, -⟩ := h.represents.wired.remove hn hne hleaf
    have hrep : Ramfs.Represents { s with
        children := children, next := next, freed := Function.update s.freed n true }
        (T.prune n) := by
      rw [OrderedTree.prune_leaf hne hleaf]
      exact .of_wired hwired
    obtain ⟨v', hv', h'⟩ := h.pruned hn (ramfsRemove_relinked hremove) hrep
    refine ⟨_, v', hremove, ⟨d, hd, rfl, ?_⟩, _, h'⟩
    rw [if_neg hstays, hv', if_neg hroot]

theorem delete (h : s.Shows T v) (hn : n ∈ T.nodes) :
    ∃ s' v', Ends (fun fuel => ramfsDelete fuel s (some n)) (some (true, s')) ∧
      v.Deletes n (.success true) v' ∧ s'.Shows (T.prune n) v' := by
  obtain ⟨s', hends, hrep⟩ := ramfsDelete_ends h.represents hn
  obtain ⟨fuel, hfuel⟩ := hends.exists
  obtain ⟨v', hv', h'⟩ := h.pruned hn (ramfsDelete_relinked hfuel) hrep
  exact ⟨s', v', hends, ⟨rfl, hv'⟩, h'⟩

theorem find (h : s.Shows T v) (hp : p ∈ T.nodes) (name : CString) :
    ∃ found, ramfsFind s (some p) name = some found ∧ v.Finds p name found := by
  obtain ⟨d, hd, hseen⟩ := h.find? hp
  refine ⟨_, ?_, d, hd, rfl⟩
  rw [ramfsFind_eq h.represents.wired hp,
    findIn_eq_find? fun m hm => h.wellFormed.named m (T.kids_mem p m hm).2, Option.some.injEq]
  have hkids : List.Forall₂ (Keyed s.label T.kids) d.kids (T.kids p) := hseen.kids_forall
  generalize d.kids = us at hkids
  generalize T.kids p = l at hkids
  induction hkids with
  | nil => rfl
  | @cons u c us l hu _ ih =>
    have hname : u.value.name = s.name c := by
      rw [hu.value_eq]
      rfl
    rw [List.find?_cons, List.find?_cons, hname, ih]
    cases decide (s.name c = some name) with
    | true => simp [hu.key_eq]
    | false => rfl

/-- The bytes of a memory from an offset on. -/
theorem slice_eq (bytes : Mem) (len size offset : ℕ) :
    (((List.range len).map bytes).drop offset).take size =
      (List.range (min size (len - offset))).map fun i => bytes (offset + i) := by
  refine List.ext_getElem (by simp) fun i _ _ => ?_
  simp

theorem read (h : s.Shows T v) (hn : n ∈ T.nodes) (buffer : Mem) (size offset : ℕ) :
    ∃ k out, ramfsRead s (some n) buffer size offset = some (k, out) ∧
      v.Reads n buffer size offset (.bytes k out) := by
  obtain ⟨d, hd, hseen⟩ := h.find? hn
  have hvalue : d.value = s.label n := hseen.value_eq
  have hbacked := h.wellFormed.backed
  by_cases hfile : s.type n = .file
  · by_cases hzero : s.size n = 0
    · refine ⟨0, buffer, ?_, d, hd, ?_⟩
      · simp [ramfsRead, hfile, hzero]
      · simp [hvalue, label, (hbacked.content_eq_nil hn hfile).mpr hzero]
    · obtain ⟨block, hblock, hle⟩ := hbacked.stored n hn hfile hzero
      have hholds : s.Holds n (s.bytes block) (s.size n) :=
        ⟨rfl, block, hblock, hle, fun _ _ => rfl⟩
      refine ⟨_, _, ramfsRead_eq hfile hholds buffer size offset, d, hd, ?_⟩
      have hcontent : s.content n = (List.range (s.size n)).map (s.bytes block) := by
        simp [content, hfile, hblock]
      simp only [hvalue, label, hfile, hcontent, if_true, slice_eq, List.length_map,
        List.length_range]
      refine congrArg _ (funext fun i => ?_)
      rw [memcpy_apply, List.getD_eq_getElem?_getD, List.getElem?_map]
      by_cases hi : i < min size (s.size n - offset)
      · simp [hi]
      · simp [hi]
  · refine ⟨0, buffer, ?_, d, hd, ?_⟩
    · simp [ramfsRead, hfile]
    · simp [hvalue, label, hfile]

/-- The children that `ramfs_copy` reads are all children. -/
theorem reads_eq (h : s.Shows T v) : s.reads T.kids = T.kids := by
  funext m
  by_cases hdir : s.type m = .directory
  · exact reads_directory hdir
  · have hfile : s.type m = .file := by
      cases htype : s.type m with
      | file => rfl
      | directory => exact absurd htype hdir
    rw [reads_file hfile]
    by_cases hm : m ∈ T.nodes
    · exact (h.childless hm hfile).symm
    · exact (T.kids_eq_nil hm).symm

theorem copy (h : s.Shows T v) (hn : n ∈ T.nodes) (hp : p ∈ T.nodes)
    (hallowed : v.IsA p .directory → ¬ v.Within n p) :
    ∃ r s' v', Ends (fun fuel => ramfsCopy fuel s (some n) (some p)) (some (r, s')) ∧
      v.Copies n p (.node r) v' ∧ ∃ T', s'.Shows T' v' := by
  obtain ⟨d, hd, hseen⟩ := h.find? hn
  obtain ⟨e, he, hseen'⟩ := h.find? hp
  have hvalue : e.value.type = s.type p := by
    rw [hseen'.value_eq]
    rfl
  rw [h.isA_iff hp, h.within_iff hn] at hallowed
  by_cases hdir : s.type p = .directory
  · have hout := hallowed hdir
    have ht : Unfolds s.label (s.reads T.kids) d.unkeyed n := by
      rw [h.reads_eq]
      exact hseen.unkeyed
    have hnamed : d.unkeyed.All HasName := by
      rw [hseen.unkeyed.all_iff]
      exact fun m hm => h.wellFormed.named m (OrderedTree.below_mem hn hm)
    obtain ⟨copy, k, hcopy, -, hall, -⟩ :=
      copyTree_total hnamed (h.wellFormed.names_some p) fun i (_ : s.allocs ≤ i) => h.memory i
    have hends := ramfsCopy_copies d.unkeyed h.represents h.wellFormed.backed hn hp hdir ht (by
      rw [h.reads_eq]
      exact hout)
    rw [hcopy] at hends
    obtain ⟨c, s', T', hends, hgrows, hrel, -, -⟩ := hends
    have hspec : (copyTree (fun _ => false) d.unkeyed (FsPlace.names e) 0).map Prod.fst =
        some copy := by
      have hfails : s.fails = fun _ => false := funext h.memory
      rw [copyTree_allocs _ _ 0 s.allocs, FsPlace.names_eq hseen', ← hfails, hcopy, Option.map_some]
    have hdoes : ∀ {r v'}, v.Pastes p r v' copy → v.Copies n p r v' := by
      intro r v' hpastes
      refine ⟨d, e, hd, he, ?_⟩
      rw [if_neg (by rw [hvalue, hdir]; simp)]
      exact ⟨copy, hspec, hpastes⟩
    cases hrel with
    | none =>
      obtain rfl := hgrows.eq_of_nil
      have hmem : ∀ i, s'.fails i = false := by
        rw [hgrows.fails]
        exact h.memory
      refine ⟨none, s', v, hends, hdoes ⟨rfl, rfl⟩, T', ⟨hgrows.represents, hgrows.backed,
        fun m hm => ?_⟩, hmem, ?_⟩
      · rw [hgrows.name m hm]
        exact h.wellFormed.named m hm
      · exact h.seen.congr (fun m hm => hgrows.label_eq h.wellFormed.backed
          (OrderedTree.below_mem T'.root_mem hm)) fun _ _ => rfl
    | @some t c hu =>
      have hnew : c ∉ T.nodes := hgrows.not_mem (List.mem_singleton_self c)
      have hc : c ∈ T'.nodes := by
        refine (T'.kids_mem p c ?_).2
        rw [hgrows.kids_self]
        simp
      have hnamed' := hgrows.named h.wellFormed fun b hb m hbelow => by
        obtain rfl := List.mem_singleton.mp hb
        exact (hu.all_iff.mp (hall t rfl)) m hbelow
      have hchildless := hu.all_iff.mp (copyTree_filesChildless hcopy)
      obtain ⟨w, hw⟩ := exists_unfolds hgrows.represents.finite_nodes
        (fun _ => List.Subset.refl _) (fun a => (a, s'.label a)) hc
      have hw : Keyed s'.label T'.kids w c := hw
      obtain ⟨v', hv', h'⟩ := h.grow hp hdir hgrows hnamed'
        (fun m hm hfile => List.map_eq_nil_iff.mp (hchildless m hm hfile)) hw
      refine ⟨some c, s', v', hends, hdoes ⟨w, hw.unkeyed.unique hu, fun m hm => ?_, ?_, hv'⟩, T',
        h'⟩
      · rw [h.mem_keys]
        exact hgrows.below_not_mem hnew (hw.mem_keys.mp hm)
      · rw [hw.key_eq]
  · refine ⟨none, s, v, ramfsCopy_refused h.wellFormed hn hp (.inl hdir), ⟨d, e, hd, he, ?_⟩, T, h⟩
    rw [if_pos (hvalue ▸ hdir)]
    exact ⟨rfl, rfl⟩

/-- **One call.**  A request that the volume allows ends, and does to the nodes what it does to the
volume. -/
theorem perform (h : s.Shows T v) {request : FsRequest} (hallowed : v.Allows request) :
    ∃ r s' v', Ends (fun fuel => request.perform fuel s) (some (r, s')) ∧
      v.Does request r v' ∧ ∃ T', s'.Shows T' v' := by
  obtain ⟨hargs, hallowed⟩ := hallowed
  have harg : ∀ n, some n ∈ request.args → n ∈ T.nodes := fun n hn =>
    h.mem_keys.mp (hargs _ hn n rfl)
  have hconst : ∀ {f : ℕ → Option (FsReply × Ramfs)} {x}, (∀ fuel, f fuel = some x) →
      Ends f (some x) := fun hf => (ends_const _).congr hf
  cases request with
  | change call =>
    cases call with
    | create parent name type =>
      cases parent with
      | none => exact ⟨_, s, v, hconst fun _ => rfl, ⟨rfl, rfl⟩, T, h⟩
      | some p =>
        have hp := harg p List.mem_cons_self
        obtain ⟨r, s', T', v', hr, hdoes, h'⟩ := h.create hp name type
        exact ⟨_, s', v', hconst fun _ => by rw [FsRequest.perform, hr]; rfl, hdoes, T', h'⟩
    | mkdir parent name =>
      cases parent with
      | none => exact ⟨_, s, v, hconst fun _ => rfl, ⟨rfl, rfl⟩, T, h⟩
      | some p =>
        have hp := harg p List.mem_cons_self
        obtain ⟨r, s', T', v', hr, hdoes, h'⟩ := h.create hp name .directory
        exact ⟨_, s', v', hconst fun _ => by rw [FsRequest.perform, ramfsMkdir, hr]; rfl, hdoes, T',
          h'⟩
    | write node buffer size =>
      cases node with
      | none => exact ⟨_, s, v, hconst fun _ => rfl, ⟨rfl, rfl⟩, T, h⟩
      | some n =>
        have hn := harg n List.mem_cons_self
        obtain ⟨d, hd, hseen⟩ := h.find? hn
        have hkeep : size = 0 → s.content n = [] := by
          intro hzero
          have hcontent := hallowed hzero d hd
          rwa [hseen.value_eq] at hcontent
        obtain ⟨r, s', v', hr, hdoes, h'⟩ := h.write hn buffer size hkeep
        exact ⟨_, s', v', hconst fun _ => by rw [FsRequest.perform, hr], hdoes, T, h'⟩
    | rename node newName =>
      cases node with
      | none => exact ⟨_, s, v, hconst fun _ => rfl, ⟨rfl, rfl⟩, T, h⟩
      | some n =>
        have hn := harg n List.mem_cons_self
        obtain ⟨r, s', v', hr, hdoes, h'⟩ := h.rename hn newName
        exact ⟨_, s', v', hconst fun _ => by rw [FsRequest.perform, hr]; rfl, hdoes, T, h'⟩
    | move node newParent =>
      cases node with
      | none => exact ⟨_, s, v, hconst fun _ => rfl, ⟨rfl, rfl⟩, T, h⟩
      | some n =>
        cases newParent with
        | none => exact ⟨_, s, v, hconst fun _ => rfl, ⟨rfl, rfl⟩, T, h⟩
        | some p =>
          have hn := harg n List.mem_cons_self
          have hp := harg p (List.mem_cons_of_mem _ List.mem_cons_self)
          obtain ⟨r, s', v', hr, hdoes, h'⟩ := h.move hn hp hallowed
          exact ⟨_, s', v', hconst fun _ => by rw [FsRequest.perform, hr]; rfl, hdoes, h'⟩
    | copy node newParent =>
      cases node with
      | none =>
        refine ⟨.node none, s, v, ends_succ.mp (hconst fun _ => ?_), ⟨rfl, rfl⟩, T, h⟩
        simp [FsRequest.perform, ramfsCopy]
      | some n =>
        cases newParent with
        | none =>
          refine ⟨.node none, s, v, ends_succ.mp (hconst fun _ => ?_), ⟨rfl, rfl⟩, T, h⟩
          simp [FsRequest.perform, ramfsCopy]
        | some p =>
          have hn := harg n List.mem_cons_self
          have hp := harg p (List.mem_cons_of_mem _ List.mem_cons_self)
          obtain ⟨r, s', v', hends, hdoes, h'⟩ := h.copy hn hp hallowed
          exact ⟨_, s', v', hends.map (Option.map fun r => (FsReply.node r.1, r.2)), hdoes, h'⟩
    | remove node =>
      cases node with
      | none => exact ⟨_, s, v, hconst fun _ => rfl, ⟨rfl, rfl⟩, T, h⟩
      | some n =>
        have hn := harg n List.mem_cons_self
        obtain ⟨s', v', hr, hdoes, h'⟩ := h.remove hn
        exact ⟨_, s', v', hconst fun _ => by rw [FsRequest.perform, hr]; rfl, hdoes, h'⟩
    | delete node =>
      cases node with
      | none =>
        refine ⟨.success false, s, v, ends_succ.mp (hconst fun _ => ?_), ⟨rfl, rfl⟩, T, h⟩
        simp [FsRequest.perform, ramfsDelete]
      | some n =>
        have hn := harg n List.mem_cons_self
        obtain ⟨s', v', hends, hdoes, h'⟩ := h.delete hn
        exact ⟨_, s', v', hends.map (Option.map fun r => (FsReply.success r.1, r.2)), hdoes, _, h'⟩
  | find parent name =>
    cases parent with
    | none => exact ⟨_, s, v, hconst fun _ => rfl, ⟨rfl, rfl⟩, T, h⟩
    | some p =>
      have hp := harg p List.mem_cons_self
      obtain ⟨found, hr, hdoes⟩ := h.find hp name
      exact ⟨_, s, v, hconst fun _ => by rw [FsRequest.perform, hr]; rfl,
        ⟨⟨found, hdoes, rfl⟩, rfl⟩, T, h⟩
  | exist parent name =>
    cases parent with
    | none => exact ⟨_, s, v, hconst fun _ => rfl, ⟨rfl, rfl⟩, T, h⟩
    | some p =>
      have hp := harg p List.mem_cons_self
      obtain ⟨found, hr, hdoes⟩ := h.find hp name
      exact ⟨_, s, v, hconst fun _ => by rw [FsRequest.perform, ramfsExists, hr]; rfl,
        ⟨⟨found, hdoes, rfl⟩, rfl⟩, T, h⟩
  | read node buffer size offset =>
    cases node with
    | none => exact ⟨_, s, v, hconst fun _ => rfl, ⟨rfl, rfl⟩, T, h⟩
    | some n =>
      have hn := harg n List.mem_cons_self
      obtain ⟨k, out, hr, hdoes⟩ := h.read hn buffer size offset
      exact ⟨_, s, v, hconst fun _ => by rw [FsRequest.perform, hr]; rfl, ⟨hdoes, rfl⟩, T, h⟩

end Ramfs.Shows

/-! ### Runs -/

theorem FsRequest.perform_steady (s : Ramfs) (request : FsRequest) :
    Steady fun fuel => request.perform fuel s := by
  intro fuel a hr
  cases request with
  | change call =>
    cases call with
    | copy node newParent =>
      obtain ⟨r, hcopy, rfl⟩ := Option.map_eq_some_iff.mp hr
      exact Option.map_eq_some_iff.mpr ⟨r, ramfsCopy_steady.1 s node newParent fuel r hcopy, rfl⟩
    | delete node =>
      obtain ⟨r, hdelete, rfl⟩ := Option.map_eq_some_iff.mp hr
      exact Option.map_eq_some_iff.mpr ⟨r, ramfsDelete_steady s node fuel r hdelete, rfl⟩
    | _ => exact hr
  | _ => exact hr

/-- Calls one after the other, with their results, as far as they keep to what is allowed. -/
inductive Ramfs.Answers : Ramfs → List (FsRequest × FsReply) → Ramfs → Prop
  | nil (s : Ramfs) : Answers s [] s
  | cons {s s' s'' : Ramfs} {request : FsRequest} {r : FsReply} {fuel : ℕ}
      {log : List (FsRequest × FsReply)} : (∀ T v, s.Shows T v → v.Allows request) →
      request.perform fuel s = some (r, s') → Answers s' log s'' →
        Answers s ((request, r) :: log) s''

theorem Ramfs.Shows.answers {log : List (FsRequest × FsReply)} (h : s.Shows T v)
    (hrun : s.Answers log s') : ∃ v', v.Serves log v' ∧ ∃ T', s'.Shows T' v' := by
  induction hrun generalizing T v with
  | nil s => exact ⟨v, .nil v, T, h⟩
  | @cons s s₁ s₂ request r fuel log hallowed hr _ ih =>
    obtain ⟨r', s', v₁, hends, hdoes, T₁, h₁⟩ := h.perform (hallowed T v h)
    obtain ⟨rfl, rfl⟩ : r = r' ∧ s₁ = s' := by
      simpa using ((FsRequest.perform_steady s request).ends hr).unique hends
    obtain ⟨v', hserves, hshows⟩ := ih h₁
    exact ⟨v', .cons (hallowed T v h) hdoes hserves, hshows⟩

theorem ramfsInit_shows :
    ∃ T, (ramfsInit (Ramfs.blank fun _ => false)).Shows T (Volume.empty 0) := by
  obtain ⟨T, h⟩ := @ramfsInit_spec (fun _ => false) rfl
  have hroot : T.root = 0 := (Option.some.inj h.root).symm
  have hnodes : ∀ n ∈ T.nodes, n = 0 := fun n hn => Nat.lt_one_iff.mp ((h.live n).mpr hn).1
  have hkids : T.kids 0 = [] := h.kids_eq_nil (hroot ▸ T.root_mem) rfl
  refine ⟨T, ⟨h, ⟨fun n hn block hblock => ?_, fun n hn htype => ?_⟩, fun n hn => ?_⟩,
    fun _ => rfl, ?_⟩
  · obtain rfl := hnodes n hn
    cases hblock
  · obtain rfl := hnodes n hn
    cases htype
  · obtain rfl := hnodes n hn
    rfl
  · rw [hroot]
    refine unfolds_node.mpr ⟨rfl, ?_⟩
    rw [hkids]
    exact .nil

/-- **The RAM file system is a file system.**  The replies that a run of allowed calls gets, from
`ramfs_init` on, are those that the requests get from a volume, which the nodes then are; and every
further call that is allowed ends. -/
theorem ramfs_refines {log : List (FsRequest × FsReply)}
    (hrun : (ramfsInit (Ramfs.blank fun _ => false)).Answers log s) :
    ∃ v, (Volume.empty 0).Serves log v ∧ (∃ T, s.Shows T v) ∧
      ∀ request, v.Allows request → ∃ r s' v', Ends (fun fuel => request.perform fuel s)
        (some (r, s')) ∧ v.Does request r v' ∧ ∃ T', s'.Shows T' v' := by
  obtain ⟨T₀, h₀⟩ := ramfsInit_shows
  obtain ⟨v, hserves, T, h⟩ := h₀.answers hrun
  exact ⟨v, hserves, ⟨T, h⟩, fun _ hallowed => h.perform hallowed⟩

/-- The nodes after the request. -/
def Ramfs.served (s : Ramfs) (request : FsRequest) : Ramfs :=
  (request.perform 4 s).elim s Prod.snd

theorem Ramfs.served_eq {α : Type*} {call : Option (α × Ramfs)} {a : α} {request : FsRequest}
    (reply : α → FsReply) (hperform : request.perform 4 s = call.map fun r => (reply r.1, r.2))
    (hcall : call.map Prod.fst = some a) :
    request.perform 4 s = some (reply a, s.served request) := by
  obtain ⟨r, rfl, rfl⟩ := Option.map_eq_some_iff.mp hcall
  rw [Ramfs.served, hperform]
  rfl

/-- A file `a/b` is made beside `a`, written and moved into it.  Then `a` is copied, and the file
read from the copy. -/
def copiedFile : List FsRequest :=
  [.change (.mkdir (some 0) (letter 0)), .change (.create (some 0) (letter 1) .file),
    .change (.write (some 2) (fun i => BitVec.ofNat 8 (10 * i)) 3),
    .change (.move (some 2) (some 1)), .change (.copy (some 1) (some 0)),
    .read (some 4) (fun _ => 0) 2 1, .exist (some 3) (letter 1)]

/-- The nodes after the first `k` of these. -/
def copiedFileAfter (k : ℕ) : Ramfs :=
  (copiedFile.take k).foldl Ramfs.served (ramfsInit (Ramfs.blank fun _ => false))

/-- The copy is node 3, with the file in it as node 4, which has the bytes of the original. -/
theorem ramfs_refines_example :
    ∃ v, ∃ out : Mem, (Volume.empty 0).Serves (copiedFile.zip [.node (some 1), .node (some 2),
      .success true, .success true, .node (some 3), .bytes 2 out, .success true]) v ∧
        out 0 = 10 ∧ out 1 = 20 ∧ 4 ∈ v.tree.keys := by
  have hmkdir : (FsRequest.change (.mkdir (some 0) (letter 0))).perform 4 (copiedFileAfter 0) =
      some (.node (some 1), copiedFileAfter 1) :=
    Ramfs.served_eq .node rfl (by decide +kernel :
      (ramfsMkdir (copiedFileAfter 0) (some 0) (letter 0)).map Prod.fst = some (some 1))
  have hcreate : (FsRequest.change (.create (some 0) (letter 1) .file)).perform 4
      (copiedFileAfter 1) = some (.node (some 2), copiedFileAfter 2) :=
    Ramfs.served_eq .node rfl (by decide +kernel :
      (ramfsCreate (copiedFileAfter 1) (some 0) (letter 1) .file).map Prod.fst = some (some 2))
  have hwrite : (FsRequest.change (.write (some 2) (fun i => BitVec.ofNat 8 (10 * i)) 3)).perform 4
      (copiedFileAfter 2) = some (.success true, copiedFileAfter 3) :=
    Ramfs.served_eq .success rfl (by decide +kernel :
      (some (ramfsWrite (copiedFileAfter 2) (some 2) (fun i => BitVec.ofNat 8 (10 * i)) 3)).map
        Prod.fst = some true)
  have hmove : (FsRequest.change (.move (some 2) (some 1))).perform 4 (copiedFileAfter 3) =
      some (.success true, copiedFileAfter 4) :=
    Ramfs.served_eq .success rfl (by decide +kernel :
      (ramfsMove (copiedFileAfter 3) (some 2) (some 1)).map Prod.fst = some true)
  have hcopy : (FsRequest.change (.copy (some 1) (some 0))).perform 4 (copiedFileAfter 4) =
      some (.node (some 3), copiedFileAfter 5) :=
    Ramfs.served_eq .node rfl (by decide +kernel :
      (ramfsCopy 4 (copiedFileAfter 4) (some 1) (some 0)).map Prod.fst = some (some 3))
  have hread : (ramfsRead (copiedFileAfter 5) (some 4) (fun _ => 0) 2 1).map
      (fun r => (r.1, r.2 0, r.2 1)) = some (2, 10, 20) := by decide +kernel
  have hexists : ramfsExists (copiedFileAfter 5) (some 3) (letter 1) = some true := by
    decide +kernel
  obtain ⟨⟨k, out⟩, hread, hbytes⟩ := Option.map_eq_some_iff.mp hread
  simp only [Prod.mk.injEq] at hbytes
  obtain ⟨rfl, hout⟩ := hbytes
  have hroot : ∀ k ≤ 4, (copiedFileAfter k).Live 0 := by decide +kernel
  have hdir : (copiedFileAfter 3).Live 1 ∧ (copiedFileAfter 3).type 1 = .directory ∧
      (copiedFileAfter 4).Live 1 ∧ (copiedFileAfter 4).root = some 0 := by decide +kernel
  have hfile : (copiedFileAfter 2).Live 2 ∧ (copiedFileAfter 3).Live 2 ∧
      (copiedFileAfter 3).type 2 = .file := by decide +kernel
  have hcopied : (copiedFileAfter 5).Live 3 ∧ (copiedFileAfter 5).Live 4 := by decide +kernel
  have hrun : (copiedFileAfter 0).Answers (copiedFile.zip [.node (some 1), .node (some 2),
      .success true, .success true, .node (some 3), .bytes 2 out, .success true])
      (copiedFileAfter 5) := by
    refine .cons (fun T v h => ⟨h.args_mem_keys ?_, trivial⟩) hmkdir ?_
    · simpa [FsRequest.args, FsCall.args] using hroot 0 (by omega)
    refine .cons (fun T v h => ⟨h.args_mem_keys ?_, trivial⟩) hcreate ?_
    · simpa [FsRequest.args, FsCall.args] using hroot 1 (by omega)
    refine .cons (fun T v h => ⟨h.args_mem_keys ?_, by simp⟩) hwrite ?_
    · simpa [FsRequest.args, FsCall.args] using hfile.1
    refine .cons (fun T v h => ⟨h.args_mem_keys ?_, .inr ⟨?_, ?_⟩⟩) hmove ?_
    · simpa [FsRequest.args, FsCall.args] using ⟨hfile.2.1, hdir.1⟩
    · exact h.not_within_file hfile.2.1 hfile.2.2 (by decide)
    · exact (h.isA_iff ((h.represents.live 1).mp hdir.1)).mpr hdir.2.1
    refine .cons (fun T v h => ⟨h.args_mem_keys ?_, fun _ => ?_⟩) hcopy ?_
    · simpa [FsRequest.args, FsCall.args] using ⟨hdir.2.2.1, hroot 4 (by omega)⟩
    · exact h.not_within_root hdir.2.2.1 hdir.2.2.2 (by decide)
    refine .cons (fun T v h => ⟨h.args_mem_keys ?_, trivial⟩)
      (show (FsRequest.read _ _ _ _).perform 4 _ = _ by rw [FsRequest.perform, hread]; rfl) ?_
    · simpa [FsRequest.args] using hcopied.2
    refine .cons (fun T v h => ⟨h.args_mem_keys ?_, trivial⟩)
      (show (FsRequest.exist _ _).perform 4 _ = _ by rw [FsRequest.perform, hexists]; rfl) (.nil _)
    · simpa [FsRequest.args] using hcopied.1
  obtain ⟨v, hserves, ⟨T, h⟩, -⟩ := ramfs_refines hrun
  exact ⟨v, out, hserves, hout.1, hout.2, h.mem_keys_of_live hcopied.2⟩

end Bethany
