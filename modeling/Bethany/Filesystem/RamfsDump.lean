import Bethany.Filesystem.RamfsDelete
import Bethany.Library.Outline
import Bethany.Print

/-!
# Printing the tree

`ramfs_dump` prints the names of a node and of all that its links lead to: one line for each, with
a tab for each level and a slash after the name of a directory.  From a node other than the root
these are also the siblings after it.

* `ramfsDumpNode`, `ramfsDump`: the functions of the source, which send characters as in `print.c`;
* `FsEntry`, `Ramfs.entry`: what is printed of a node; `FsEntry.Plain`: names that do not look like
  the marks around them;
* `listing`: the text for trees of entries; `readListing`: the trees of such a text;
* `ramfsDump_prints`: the text that `ramfs_dump` sends;
* `ramfsDump_reads_back`: the tree can be read from it.
-/

namespace Bethany

open Fuel LinkedList Machine Outline Unfolding

variable {σ : Type*} (putchar : σ → Byte → Option σ)

/-- `ramfs_dump_node`; `print_string` reads through a null name. -/
def ramfsDumpNode (s : Ramfs) : (fuel : ℕ) → σ → (node : Option NodeId) → (depth : ℕ) → Option σ
  | 0, _, _, _ => none
  | _ + 1, t, none, _ => some t
  | fuel + 1, t, some node, depth =>
    (sendAll putchar t (List.replicate depth 0x09)).bind fun t =>
    (s.name node).bind fun name =>
    (sendAll putchar t name.bytes).bind fun t =>
    (if s.type node = .directory then putchar t 0x2F else some t).bind fun t =>
    (putchar t 0x0A).bind fun t =>
    (ramfsDumpNode s fuel t (s.children node) (depth + 1)).bind fun t =>
    ramfsDumpNode s fuel t (s.next node) depth

/-- `ramfs_dump` -/
def ramfsDump (s : Ramfs) (fuel : ℕ) (t : σ) (node : Option NodeId) : Option σ :=
  ramfsDumpNode putchar s fuel t node 0

/-- The name of a node and its type. -/
structure FsEntry where
  name : List Byte
  type : FsNodeType
  deriving DecidableEq

def Ramfs.entry (s : Ramfs) (n : NodeId) : FsEntry :=
  ⟨(s.name n).elim [] CString.bytes, s.type n⟩

/-- One line, without the newline at its end. -/
def FsEntry.line (depth : ℕ) (e : FsEntry) : List Byte :=
  List.replicate depth 0x09 ++ e.name ++ if e.type = .directory then [0x2F] else []

/-- The text for trees at the given depth. -/
def listing (depth : ℕ) (ts : List (LabelTree FsEntry)) : List Byte :=
  ((outlines depth ts).map fun l => l.2.line l.1).flatMap fun line => line ++ [0x0A]

/-- The depth and the entry that a line shows. -/
def readLine (line : List Byte) : ℕ × FsEntry :=
  let name := line.dropWhile (· = 0x09)
  ((line.takeWhile (· = 0x09)).length,
    if name.getLast? = some 0x2F then ⟨name.dropLast, .directory⟩ else ⟨name, .file⟩)

/-- The trees that a text shows. -/
def readListing (text : List Byte) : List (LabelTree FsEntry) :=
  (((text.splitOn 0x0A).dropLast.map readLine).foldr gather []).map Prod.snd

/-- There is no newline in the name, it does not begin with a tab, and that of a file does not end
with a slash. -/
structure FsEntry.Plain (e : FsEntry) : Prop where
  newline : 0x0A ∉ e.name
  tab : e.name.head? ≠ some 0x09
  slash : e.type = .file → e.name.getLast? ≠ some 0x2F

variable {s : Ramfs} {T : OrderedTree NodeId} {n p : NodeId} {l : List NodeId} {e : FsEntry}
  {head : Option NodeId} {depth : ℕ} {t : LabelTree FsEntry} {ts : List (LabelTree FsEntry)}

/-! ### Printing -/

/-- The text for a first tree and those after it, in the order in which it is printed. -/
theorem listing_cons (e : FsEntry) (us : List (LabelTree FsEntry)) :
    listing depth (.node e us :: ts) =
      e.line depth ++ [0x0A] ++ listing (depth + 1) us ++ listing depth ts := by
  simp [listing, outlines, outline]

/-- The line of a node with a name, as `ramfs_dump_node` sends it. -/
theorem sendAll_line (t : σ) (name : CString) (type : FsNodeType) (k : σ → Option σ) :
    ((sendAll putchar t (List.replicate depth 0x09)).bind fun t =>
      (sendAll putchar t name.bytes).bind fun t =>
        (if type = .directory then putchar t 0x2F else some t).bind fun t =>
          (putchar t 0x0A).bind k) =
      (sendAll putchar t (FsEntry.line depth ⟨name.bytes, type⟩ ++ [0x0A])).bind k := by
  have hslash : ∀ t, (if type = .directory then putchar t 0x2F else some t) =
      sendAll putchar t (if type = .directory then [0x2F] else []) := by
    intro t
    split_ifs <;> simp
  simp only [FsEntry.line, sendAll_append, sendAll_cons, sendAll_nil, hslash, Option.bind_assoc]
  simp

/-- One step of the recursion, for a node with a name. -/
theorem ramfsDumpNode_succ (t : σ) {name : CString} (hname : s.name n = some name) (fuel : ℕ) :
    ramfsDumpNode putchar s (fuel + 1) t (some n) depth =
      (sendAll putchar t ((s.entry n).line depth ++ [0x0A])).bind fun t =>
        (ramfsDumpNode putchar s fuel t (s.children n) (depth + 1)).bind fun t =>
          ramfsDumpNode putchar s fuel t (s.next n) depth := by
  have hentry : s.entry n = ⟨name.bytes, s.type n⟩ := by
    simp [Ramfs.entry, hname]
  rw [hentry, ← sendAll_line]
  simp [ramfsDumpNode, hname]

/-- The text for the nodes of a list of siblings.  By induction on the number of the nodes in the
text: it is smaller both for the children of the first one and for the others. -/
theorem ramfsDumpNode_ends (h : s.Represents T) (hnamed : ∀ m ∈ T.nodes, (s.name m).isSome)
    (hl : ∀ m ∈ l, m ∈ T.nodes) (hchain : Chain s.next head l)
    (hts : List.Forall₂ (Unfolds s.entry T.kids) ts l) (t : σ) :
    Ends (fun fuel => ramfsDumpNode putchar s fuel t head depth)
      (sendAll putchar t (listing depth ts)) := by
  induction hsize : LabelTree.sums (fun _ => 1) ts using Nat.strong_induction_on
    generalizing ts l head depth t with
  | _ size ih =>
    subst hsize
    rw [← ends_succ]
    cases hts with
    | nil =>
      obtain rfl : head = none := hchain
      exact (ends_const _).congr fun fuel => rfl
    | @cons u n ts l hu hts =>
      obtain ⟨rfl, hnext⟩ : head = some n ∧ Chain s.next (s.next n) l := hchain
      have hn := hl n List.mem_cons_self
      obtain ⟨name, hname⟩ := Option.isSome_iff_exists.mp (hnamed n hn)
      cases u with
      | node e us =>
        obtain ⟨rfl, hus⟩ := unfolds_node.mp hu
        have hkids : ∀ m ∈ T.kids n, m ∈ T.nodes := fun m hm => (T.kids_mem n m hm).2
        have hsmall : LabelTree.sums (fun _ => 1) us <
              LabelTree.sums (fun _ => 1) (.node (s.entry n) us :: ts) ∧
            LabelTree.sums (fun _ => 1) ts <
              LabelTree.sums (fun _ => 1) (.node (s.entry n) us :: ts) := by
          simp only [LabelTree.sums, LabelTree.sum]
          omega
        rw [listing_cons, List.append_assoc, sendAll_append]
        refine Ends.congr ?_ fun fuel => ramfsDumpNode_succ putchar t hname fuel
        refine (ends_const _).bind_ends fun t _ => ?_
        rw [sendAll_append]
        refine Ends.bind_ends ?_ fun t _ => ?_
        · exact ih _ hsmall.1 hkids (h.links.chain n hn) hus t rfl
        · exact ih _ hsmall.2 (fun m hm => hl m (List.mem_cons_of_mem n hm)) hnext hts t rfl

/-- A node and the siblings after it. -/
theorem Ramfs.Represents.exists_row (h : s.Represents T) (hn : n ∈ T.nodes) :
    ∃ l, Chain s.next (some n) (n :: l) ∧ (n = T.root → l = []) ∧
      ∀ p, T.Kid n p → ∃ before, T.kids p = before ++ n :: l := by
  by_cases hroot : n = T.root
  · subst hroot
    refine ⟨[], ⟨rfl, h.links.root⟩, fun _ => rfl, fun p hp => absurd hp (T.root_not_mem p)⟩
  · obtain ⟨p, hkid⟩ := T.exists_kid hn hroot
    obtain ⟨before, l, hkids⟩ := List.append_of_mem hkid
    have hchain := h.links.chain p (T.kids_mem p n hkid).1
    rw [hkids] at hchain
    refine ⟨l, hchain.suffix, fun heq => absurd heq hroot, fun q hq => ?_⟩
    obtain rfl := T.disjoint p q n hkid hq
    exact ⟨before, hkids⟩

/-- **What `ramfs_dump` prints.**  The text for the subtree of the node, and then, as the recursion
follows `next` also at the top, for the subtrees of the siblings after it. -/
theorem ramfsDump_prints (h : s.Represents T) (hnamed : ∀ m ∈ T.nodes, (s.name m).isSome)
    (hn : n ∈ T.nodes) (t : σ) :
    ∃ l ts, List.Forall₂ (Unfolds s.entry T.kids) ts (n :: l) ∧ (n = T.root → l = []) ∧
      (∀ p, T.Kid n p → ∃ before, T.kids p = before ++ n :: l) ∧
      Ends (fun fuel => ramfsDump putchar s fuel t (some n))
        (sendAll putchar t (listing 0 ts)) := by
  obtain ⟨l, hchain, hroot, hrow⟩ := h.exists_row hn
  have hl : ∀ m ∈ n :: l, m ∈ T.nodes := by
    intro m hm
    by_cases hr : n = T.root
    · rw [hroot hr, List.mem_singleton] at hm
      exact hm ▸ hn
    · obtain ⟨p, hkid⟩ := T.exists_kid hn hr
      obtain ⟨before, hkids⟩ := hrow p hkid
      have hkid' : T.Kid m p := by
        rw [OrderedTree.Kid, hkids]
        exact List.mem_append_right before hm
      exact (T.kids_mem p m hkid').2
  obtain ⟨ts, hts⟩ := exists_forall₂ fun m hm =>
    exists_unfolds h.finite_nodes (fun _ => List.Subset.refl _) s.entry (hl m hm)
  exact ⟨l, ts, hts, hroot, hrow, ramfsDumpNode_ends putchar h hnamed hl hchain hts t⟩

theorem oneNested_named {m : NodeId} (hm : oneNested.Live m) :
    (oneNested.name m).isSome ∧ (oneNested.entry m).Plain := by
  have hlt : m < 4 := hm.1
  interval_cases m <;> exact ⟨by decide, by decide, by decide, by decide⟩

theorem ramfsDump_prints_example :
    ∃ (l : List NodeId) (ts : List (LabelTree FsEntry)), ts.length = l.length + 1 ∧ 3 ∈ l ∧
      Ends (fun fuel => ramfsDump (fun t c => some (t ++ [c])) oneNested fuel [] (some 1))
        (sendAll (fun t c => some (t ++ [c])) [] (listing 0 ts)) := by
  obtain ⟨T, h⟩ := oneNested_represents
  have hnamed : ∀ m ∈ T.nodes, (oneNested.name m).isSome := fun m hm =>
    (oneNested_named ((h.live m).mpr hm)).1
  obtain ⟨l, ts, hts, -, hrow, hends⟩ :=
    ramfsDump_prints (fun t c => some (t ++ [c])) h hnamed ((h.live 1).mp (by decide)) []
  have hkids : T.kids 0 = [1, 3] := h.kids_eq (by decide)
    ⟨by decide, by decide, show oneNested.next 3 = none by decide⟩
  obtain ⟨before, hl⟩ := hrow 0 (by simp [OrderedTree.Kid, hkids])
  refine ⟨l, ts, hts.length_eq, ?_, hends⟩
  rw [hkids] at hl
  cases before with
  | nil => simp [(List.cons.inj hl).2.symm]
  | cons a before =>
    obtain ⟨-, hl⟩ := List.cons.inj hl
    cases before <;> simp at hl

/-! ### Reading it back -/

theorem FsEntry.Plain.newline_not_mem (he : e.Plain) (depth : ℕ) : 0x0A ∉ e.line depth := by
  simp only [FsEntry.line, List.mem_append, List.mem_replicate]
  rintro ((⟨-, heq⟩ | hmem) | hmem)
  · exact absurd heq (by decide)
  · exact he.newline hmem
  · split_ifs at hmem <;> simp at hmem

/-- A line shows its depth and its entry. -/
theorem readLine_line (he : e.Plain) (depth : ℕ) : readLine (e.line depth) = (depth, e) := by
  obtain ⟨name, type⟩ := e
  have hstart : (name ++ if type = FsNodeType.directory then [0x2F] else []).head? ≠
      some (0x09 : Byte) := by
    cases name with
    | nil => split_ifs <;> simp
    | cons a name => simpa using he.tab
  obtain ⟨htabs, hname⟩ := span_indent hstart depth
  rw [← List.append_assoc] at htabs hname
  simp only [readLine, FsEntry.line, htabs, hname, List.length_replicate]
  cases type with
  | file =>
    have hslash := he.slash rfl
    simpa using hslash
  | directory => simp

/-- The trees can be read from the text for them. -/
theorem readListing_listing (hplain : ∀ line ∈ outlines 0 ts, line.2.Plain) :
    readListing (listing 0 ts) = ts := by
  have hlines : ∀ line ∈ (outlines 0 ts).map fun l => l.2.line l.1, 0x0A ∉ line := by
    intro line hline
    obtain ⟨l, hl, rfl⟩ := List.mem_map.mp hline
    exact (hplain l hl).newline_not_mem l.1
  have hread : ((outlines 0 ts).map fun l => l.2.line l.1).map readLine = outlines 0 ts := by
    rw [List.map_map]
    refine (List.map_congr_left fun l hl => ?_).trans (List.map_id _)
    exact readLine_line (hplain l hl) l.1
  rw [readListing, listing, splitOn_flatMap hlines, List.dropLast_concat, hread,
    foldr_gather_outlines, List.map_map]
  exact List.map_id _

/-- **The text shows the tree.**  When all names can be told from the marks around them, the text
that `ramfs_dump` prints for the root can be read, and gives the names, the types and the shape of
the whole tree. -/
theorem ramfsDump_reads_back (h : s.Represents T) (hnamed : ∀ m ∈ T.nodes, (s.name m).isSome)
    (hplain : ∀ m ∈ T.nodes, (s.entry m).Plain) (t : σ) :
    ∃ text tree, Ends (fun fuel => ramfsDump putchar s fuel t s.root) (sendAll putchar t text) ∧
      Unfolds s.entry T.kids tree T.root ∧ readListing text = [tree] := by
  obtain ⟨l, ts, hts, hroot, -, hends⟩ := ramfsDump_prints putchar h hnamed T.root_mem t
  obtain rfl := hroot rfl
  obtain ⟨tree, us, htree, hus, rfl⟩ := List.forall₂_cons_right_iff.mp hts
  obtain rfl := List.forall₂_nil_right_iff.mp hus
  refine ⟨_, tree, h.root ▸ hends, htree, readListing_listing fun line hline => ?_⟩
  have hall : tree.All fun e _ => e.Plain := htree.all_iff.mpr fun m hreach =>
    hplain m (OrderedTree.below_mem T.root_mem hreach)
  obtain ⟨u, hu, hline⟩ := mem_outlines.mp hline
  rw [List.mem_singleton] at hu
  exact mem_outline_of_all (hu ▸ hall) hline

theorem ramfsDump_reads_back_example :
    ∃ text tree, Ends (fun fuel =>
        ramfsDump (fun t c => some (t ++ [c])) oneNested fuel [] oneNested.root)
          (sendAll (fun t c => some (t ++ [c])) [] text) ∧ readListing text = [tree] := by
  obtain ⟨T, h⟩ := oneNested_represents
  have hnamed : ∀ m ∈ T.nodes, (oneNested.name m).isSome ∧ (oneNested.entry m).Plain :=
    fun m hm => oneNested_named ((h.live m).mpr hm)
  obtain ⟨text, tree, hends, -, hread⟩ := ramfsDump_reads_back (fun t c => some (t ++ [c])) h
    (fun m hm => (hnamed m hm).1) (fun m hm => (hnamed m hm).2) []
  exact ⟨text, tree, hends, hread⟩

end Bethany
