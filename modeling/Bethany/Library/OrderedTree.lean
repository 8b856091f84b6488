import Bethany.Library.LinkedList
import Bethany.Library.Walk

/-!
# Ordered trees, and their representation by two links a node

An ordered tree has a root, and for each node the list of its children.  In a heap it can be
kept with two links a node: `children` leads to the first child, and `next` to the next sibling.
Every node but the root then has exactly one link that leads to it, so it is reached from the
root along exactly one path.

* `OrderedTree`, `OrderedTree.Kid`, `OrderedTree.Below`;
* `place`: the tree with a node, new or from elsewhere in the tree, as the last child of another;
* `remove`: the tree without a leaf;
* `prune`: the tree without a subtree;
* `Siblings`: the lists of children that the links of a heap give; `Siblings.append` and
  `Siblings.unlink`: the usual writes;
* `Links`, `Links.path`, `Links.acyclic`: the paths in a heap that represents a tree.
-/

open Relation LinkedList Walk

/-- A tree with ordered children.  Every node climbs to the root. -/
structure OrderedTree (α : Type*) where
  nodes : Set α
  root : α
  kids : α → List α
  root_mem : root ∈ nodes
  kids_mem : ∀ p n, n ∈ kids p → p ∈ nodes ∧ n ∈ nodes
  nodup : ∀ p, (kids p).Nodup
  root_not_mem : ∀ p, root ∉ kids p
  disjoint : ∀ p q n, n ∈ kids p → n ∈ kids q → p = q
  climbs : ∀ n ∈ nodes, ReflTransGen (fun n p => n ∈ kids p) n root

namespace OrderedTree

variable {α : Type*} {T : OrderedTree α} {n m p q a b : α}

/-- `n` is a child of `p`. -/
def Kid (T : OrderedTree α) (n p : α) : Prop := n ∈ T.kids p

/-- `m` lies in the subtree of `n`. -/
def Below (T : OrderedTree α) (n m : α) : Prop := ReflTransGen T.Kid m n

theorem exists_kid (hn : n ∈ T.nodes) (hne : n ≠ T.root) : ∃ p, T.Kid n p := by
  obtain heq | ⟨p, hkid, -⟩ := (T.climbs n hn).cases_head
  · exact absurd heq hne
  · exact ⟨p, hkid⟩

/-- A node without a place is in no list. -/
theorem kids_eq_nil (hn : n ∉ T.nodes) : T.kids n = [] :=
  List.eq_nil_iff_forall_not_mem.mpr fun m hm => hn (T.kids_mem n m hm).1

/-- A node without children has only itself in its subtree. -/
theorem below_leaf (hleaf : T.kids n = []) (h : T.Below n m) : m = n := by
  obtain heq | ⟨p, -, hkid⟩ := ReflTransGen.cases_tail h
  · exact heq.symm
  · unfold Kid at hkid
    rw [hleaf] at hkid
    exact absurd hkid List.not_mem_nil

/-- Only the root has the root in its subtree. -/
theorem below_root (h : T.Below n T.root) : n = T.root := by
  obtain heq | ⟨p, hkid, -⟩ := ReflTransGen.cases_head h
  · exact heq.symm
  · exact absurd hkid (T.root_not_mem p)

/-- No node lies strictly below itself. -/
theorem acyclic (hn : n ∈ T.nodes) : ¬ TransGen T.Kid n n := by
  induction T.climbs n hn using ReflTransGen.head_induction_on with
  | refl =>
    intro h
    obtain ⟨p, hkid, -⟩ := TransGen.head'_iff.mp h
    exact T.root_not_mem p hkid
  | head hkid _ ih =>
    intro h
    obtain ⟨p, hkid', hback⟩ := TransGen.head'_iff.mp h
    obtain rfl := T.disjoint _ _ _ hkid' hkid
    exact ih (T.kids_mem _ _ hkid').1 (TransGen.tail' hback hkid')

/-- Nodes outside the subtree of `n` still climb to the root when `n` leaves its place. -/
theorem climbs_without {R : α → α → Prop} (hR : ∀ a b, a ≠ n → T.Kid a b → R a b)
    (hm : m ∈ T.nodes) (h : ¬ T.Below n m) : ReflTransGen R m T.root := by
  induction T.climbs m hm using ReflTransGen.head_induction_on with
  | refl => exact .refl
  | @head a b hkid _ ih =>
    have hne : a ≠ n := fun heq => h (heq ▸ .refl)
    exact .head (hR a b hne hkid) (ih (T.kids_mem b a hkid).1 fun hb => h (.head hkid hb))

/-- The tree of one node. -/
def single (r : α) : OrderedTree α where
  nodes := {r}
  root := r
  kids _ := []
  root_mem := rfl
  kids_mem := nofun
  nodup _ := List.nodup_nil
  root_not_mem _ := List.not_mem_nil
  disjoint := nofun
  climbs n hn := by
    rw [hn]

/-! ### Changes -/

section changes

variable [DecidableEq α]

/-- The lists of children once `n` has been made the last child of `p`. -/
def placeKids (kids : α → List α) (p n : α) (x : α) : List α :=
  (kids x).erase n ++ if x = p then [n] else []

theorem mem_placeKids_of_nodup {kids : α → List α} {x : α} (hnodup : (kids x).Nodup) :
    m ∈ placeKids kids p n x ↔ m ≠ n ∧ m ∈ kids x ∨ x = p ∧ m = n := by
  unfold placeKids
  rw [List.mem_append, hnodup.mem_erase_iff]
  split_ifs with h
  · simp [h]
  · simp [h]

theorem mem_placeKids {x : α} :
    m ∈ placeKids T.kids p n x ↔ m ≠ n ∧ T.Kid m x ∨ x = p ∧ m = n :=
  mem_placeKids_of_nodup (T.nodup x)

/-- The tree with `n` as the last child of `p`.  `n` may be a new node, or be moved from where it
was together with its subtree, as long as `p` is not in that. -/
def place (T : OrderedTree α) (p n : α) (hp : p ∈ T.nodes) (hroot : n ≠ T.root)
    (hbelow : ¬ T.Below n p) : OrderedTree α where
  nodes := insert n T.nodes
  root := T.root
  kids := placeKids T.kids p n
  root_mem := .inr T.root_mem
  kids_mem := by
    intro x m hm
    obtain ⟨-, hkid⟩ | ⟨rfl, rfl⟩ := mem_placeKids.mp hm
    · exact ⟨.inr (T.kids_mem x m hkid).1, .inr (T.kids_mem x m hkid).2⟩
    · exact ⟨.inr hp, .inl rfl⟩
  nodup := by
    intro x
    refine List.Nodup.append ((T.nodup x).erase n) ?_ ?_
    · split_ifs
      · exact List.nodup_singleton n
      · exact List.nodup_nil
    · intro m hm hm'
      have hne := ((T.nodup x).mem_erase_iff.mp hm).1
      split_ifs at hm'
      · exact hne (List.mem_singleton.mp hm')
      · exact absurd hm' List.not_mem_nil
  root_not_mem := by
    intro x hm
    obtain ⟨-, hkid⟩ | ⟨-, heq⟩ := mem_placeKids.mp hm
    · exact T.root_not_mem x hkid
    · exact hroot heq.symm
  disjoint := by
    intro x y m hx hy
    obtain ⟨hne, hkid⟩ | ⟨rfl, rfl⟩ := mem_placeKids.mp hx
    · obtain ⟨-, hkid'⟩ | ⟨-, heq⟩ := mem_placeKids.mp hy
      · exact T.disjoint x y m hkid hkid'
      · exact absurd heq hne
    · obtain ⟨hne, -⟩ | ⟨rfl, -⟩ := mem_placeKids.mp hy
      · exact absurd rfl hne
      · rfl
  climbs := by
    have hkid : ∀ a b, a ≠ n → T.Kid a b → a ∈ placeKids T.kids p n b :=
      fun a b hne h => mem_placeKids.mpr (.inl ⟨hne, h⟩)
    -- `p` is not below `n`, so `n` climbs through it; and everything else as before, or to `n`
    have hn : ReflTransGen (fun a b => a ∈ placeKids T.kids p n b) n T.root :=
      .head (mem_placeKids.mpr (.inr ⟨rfl, rfl⟩)) (climbs_without hkid hp hbelow)
    intro m hm
    obtain rfl | hm := hm
    · exact hn
    · induction T.climbs m hm using ReflTransGen.head_induction_on with
      | refl => exact .refl
      | @head a b hab _ ih =>
        by_cases heq : a = n
        · exact heq ▸ hn
        · exact .head (hkid a b heq hab) (ih (T.kids_mem b a hab).1)

/-- A new node has no children. -/
theorem place_kids_self (hp : p ∈ T.nodes) (hroot : n ≠ T.root) (hbelow : ¬ T.Below n p)
    (hn : n ∉ T.nodes) : (T.place p n hp hroot hbelow).kids n = [] := by
  have hnp : n ≠ p := fun heq => hn (heq ▸ hp)
  simp only [place, placeKids, kids_eq_nil hn, if_neg hnp, List.erase_nil, List.append_nil]

/-- The tree without the leaf `n`. -/
def remove (T : OrderedTree α) (n : α) (hroot : n ≠ T.root) (hleaf : T.kids n = []) :
    OrderedTree α where
  nodes := T.nodes \ {n}
  root := T.root
  kids x := (T.kids x).erase n
  root_mem := ⟨T.root_mem, fun heq => hroot heq.symm⟩
  kids_mem := by
    intro x m hm
    obtain ⟨hne, hkid⟩ := (T.nodup x).mem_erase_iff.mp hm
    refine ⟨⟨(T.kids_mem x m hkid).1, ?_⟩, (T.kids_mem x m hkid).2, hne⟩
    rintro rfl
    rw [hleaf] at hkid
    exact absurd hkid List.not_mem_nil
  nodup x := (T.nodup x).erase n
  root_not_mem x hm := T.root_not_mem x (List.mem_of_mem_erase hm)
  disjoint x y m hx hy := T.disjoint x y m (List.mem_of_mem_erase hx) (List.mem_of_mem_erase hy)
  climbs := by
    rintro m ⟨hm, hne⟩
    refine climbs_without (fun a b hne' h => (T.nodup b).mem_erase_iff.mpr ⟨hne', h⟩) hm fun h => ?_
    exact hne (below_leaf hleaf h)

/-- Taking a child out of all lists takes it out of the list of its parent. -/
theorem erase_kids {kids : α → List α} (h : ∀ x, n ∈ kids x → x = p) :
    (fun x => (kids x).erase n) = Function.update kids p ((kids p).erase n) := by
  funext x
  obtain rfl | hne := eq_or_ne x p
  · rw [Function.update_self]
  · rw [Function.update_of_ne hne]
    exact List.erase_of_not_mem fun hx => hne (h x hx)

theorem placeKids_eq (kids : α → List α) (p n : α) :
    placeKids kids p n =
      Function.update (fun x => (kids x).erase n) p ((kids p).erase n ++ [n]) := by
  funext x
  unfold placeKids
  obtain rfl | hne := eq_or_ne x p
  · simp
  · simp [hne]

end changes

end OrderedTree

/-! ### Without a subtree -/

namespace OrderedTree

variable {α : Type*} {T : OrderedTree α} {n m p c : α}

attribute [ext] OrderedTree

theorem below_mem (hn : n ∈ T.nodes) (h : T.Below n m) : m ∈ T.nodes := by
  obtain rfl | ⟨p, hkid, -⟩ := ReflTransGen.cases_head h
  · exact hn
  · exact (T.kids_mem p m hkid).2

/-- Nothing lies below a node and is its parent. -/
theorem not_below_kid (hkid : T.Kid c n) : ¬ T.Below c n :=
  fun h => T.acyclic (T.kids_mem n c hkid).1 (.tail' h hkid)

/-- A node that is a child of a node below `n` is below `n`. -/
theorem below_kid_iff (hkid : T.Kid m p) (hne : m ≠ n) : T.Below n m ↔ T.Below n p := by
  constructor
  · intro h
    obtain heq | ⟨q, hkid', h⟩ := ReflTransGen.cases_head h
    · exact absurd heq hne
    · rwa [T.disjoint p q m hkid hkid']
  · exact .head hkid

/-- What lies below a node that is moved is what lay there before. -/
theorem place_below_iff [DecidableEq α] (hp : p ∈ T.nodes) (hroot : n ≠ T.root)
    (hbelow : ¬ T.Below n p) : (T.place p n hp hroot hbelow).Below n m ↔ T.Below n m := by
  constructor
  · intro h
    induction h using ReflTransGen.head_induction_on with
    | refl => exact .refl
    | @head a b hkid _ ih =>
      obtain ⟨-, hkid⟩ | ⟨rfl, -⟩ := mem_placeKids.mp hkid
      · exact .head hkid ih
      · exact absurd ih hbelow
  · intro h
    induction h using ReflTransGen.head_induction_on with
    | refl => exact .refl
    | @head a b hkid _ ih =>
      by_cases heq : a = n
      · rw [heq]
        exact .refl
      · exact .head (mem_placeKids.mpr (.inl ⟨heq, hkid⟩)) ih

/-- A node that is moved takes its subtree along. -/
theorem place_kids_below [DecidableEq α] (hp : p ∈ T.nodes) (hroot : n ≠ T.root)
    (hbelow : ¬ T.Below n p) (hm : T.Below n m) :
    (T.place p n hp hroot hbelow).kids m = T.kids m := by
  have hnot : n ∉ T.kids m := fun hkid => not_below_kid hkid hm
  have hne : m ≠ p := fun heq => hbelow (heq ▸ hm)
  simp [place, placeKids, List.erase_of_not_mem hnot, hne]

open Classical in
/-- The tree without the subtree of `n`; of the root it keeps the root. -/
noncomputable def prune (T : OrderedTree α) (n : α) : OrderedTree α where
  nodes := {m ∈ T.nodes | m = T.root ∨ ¬ T.Below n m}
  root := T.root
  kids p := (T.kids p).filter fun m => ¬ T.Below n m
  root_mem := ⟨T.root_mem, .inl rfl⟩
  kids_mem := by
    intro p m hm
    obtain ⟨hkid, hout⟩ := List.mem_filter.mp hm
    have hout := of_decide_eq_true hout
    exact ⟨⟨(T.kids_mem p m hkid).1, .inr fun h => hout (.head hkid h)⟩,
      (T.kids_mem p m hkid).2, .inr hout⟩
  nodup p := (T.nodup p).filter _
  root_not_mem p hp := T.root_not_mem p (List.mem_of_mem_filter hp)
  disjoint p q m hp hq := T.disjoint p q m (List.mem_of_mem_filter hp) (List.mem_of_mem_filter hq)
  climbs := by
    rintro m ⟨hm, heq | hout⟩
    · rw [heq]
    · induction T.climbs m hm using ReflTransGen.head_induction_on with
      | refl => exact .refl
      | @head a b hkid _ ih =>
        have hb : ¬ T.Below n b := fun h => hout (.head hkid h)
        exact .head (List.mem_filter.mpr ⟨hkid, decide_eq_true hout⟩)
          (ih (T.kids_mem b a hkid).1 hb)

theorem mem_prune : m ∈ (T.prune n).nodes ↔ m ∈ T.nodes ∧ (m = T.root ∨ ¬ T.Below n m) := Iff.rfl

open Classical in
theorem prune_kids : (T.prune n).kids p = (T.kids p).filter fun m => ¬ T.Below n m := rfl

theorem prune_kid : (T.prune n).Kid m p ↔ T.Kid m p ∧ ¬ T.Below n m := by
  simp [Kid, prune]

/-- Below a node outside of the subtree is what was there, without the subtree. -/
theorem prune_below (hout : ¬ T.Below n p) :
    (T.prune n).Below p m ↔ T.Below p m ∧ ¬ T.Below n m := by
  constructor
  · intro h
    induction h using ReflTransGen.head_induction_on with
    | refl => exact ⟨.refl, hout⟩
    | head hkid _ ih =>
      obtain ⟨hkid, hm⟩ := prune_kid.mp hkid
      exact ⟨.head hkid ih.1, hm⟩
  · rintro ⟨h, hm⟩
    induction h using ReflTransGen.head_induction_on with
    | refl => exact .refl
    | head hkid _ ih => exact .head (prune_kid.mpr ⟨hkid, hm⟩) (ih fun h => hm (.head hkid h))

open Classical in
/-- The subtree of a node can be taken out after that of one of its children. -/
theorem prune_prune (hkid : T.Kid c n) : (T.prune c).prune n = T.prune n := by
  have hbelow : ∀ m, (T.prune c).Below n m ↔ T.Below n m ∧ ¬ T.Below c m :=
    fun m => prune_below (not_below_kid hkid)
  have hsub : ∀ m, T.Below c m → T.Below n m := fun m h => .tail h hkid
  refine OrderedTree.ext (Set.ext fun m => ?_) rfl (funext fun p => ?_)
  · rw [mem_prune, mem_prune, mem_prune, hbelow]
    have := hsub m
    simp only [show (T.prune c).root = T.root from rfl]
    tauto
  · rw [prune_kids, prune_kids, prune_kids, List.filter_filter]
    refine List.filter_congr fun m _ => ?_
    have := hsub m
    rw [← Bool.decide_and, decide_eq_decide, hbelow]
    tauto

/-- Taking out the subtree of a leaf takes the leaf out. -/
theorem prune_leaf [DecidableEq α] (hroot : n ≠ T.root) (hleaf : T.kids n = []) :
    T.prune n = T.remove n hroot hleaf := by
  have hbelow : ∀ m, T.Below n m ↔ m = n := fun m => ⟨below_leaf hleaf, fun heq => heq ▸ .refl⟩
  refine OrderedTree.ext (Set.ext fun m => ?_) rfl (funext fun p => ?_)
  · rw [mem_prune, hbelow]
    simp only [remove, Set.mem_sdiff, Set.mem_singleton_iff]
    refine and_congr_right fun _ => ⟨?_, .inr⟩
    rintro (rfl | hne)
    · exact hroot.symm
    · exact hne
  · rw [prune_kids]
    simp only [remove, (T.nodup p).erase_eq_filter, hbelow]
    refine List.filter_congr fun m _ => ?_
    by_cases hm : m = n
    · simp [hm]
    · simp [hm]

/-- Taking out a node that has just been placed. -/
theorem place_prune [DecidableEq α] (hp : p ∈ T.nodes) (hroot : n ≠ T.root)
    (hbelow : ¬ T.Below n p) (hn : n ∉ T.nodes) : (T.place p n hp hroot hbelow).prune n = T := by
  have hkids : ∀ q, n ∉ T.kids q := fun q hq => hn (T.kids_mem q n hq).2
  rw [prune_leaf (T := T.place p n hp hroot hbelow) hroot (T.place_kids_self hp hroot hbelow hn)]
  refine OrderedTree.ext ?_ rfl (funext fun q => ?_)
  · simp [remove, place, hn]
  · simp only [remove, place, placeKids, List.erase_of_not_mem (hkids q)]
    rw [List.erase_append_right _ (hkids q)]
    split_ifs
    · simp
    · simp

/-- A root without children is all of the tree. -/
theorem prune_root (hleaf : T.kids T.root = []) : T.prune T.root = T := by
  have hall : ∀ m ∈ T.nodes, m = T.root := fun m hm => below_leaf hleaf (T.climbs m hm)
  refine OrderedTree.ext (Set.ext fun m => ?_) rfl (funext fun p => ?_)
  · rw [mem_prune]
    exact ⟨And.left, fun hm => ⟨hm, .inl (hall m hm)⟩⟩
  · rw [prune_kids]
    refine List.filter_eq_self.mpr fun m hm => ?_
    exact absurd (hall m (T.kids_mem p m hm).2 ▸ hm) (T.root_not_mem p)

/-- The root is all that is left of the tree once its subtree is taken out. -/
theorem prune_root_nodes : (T.prune T.root).nodes = {T.root} := by
  ext m
  rw [mem_prune, Set.mem_singleton_iff]
  constructor
  · rintro ⟨hm, heq | hout⟩
    · exact heq
    · exact absurd (T.climbs m hm) hout
  · rintro rfl
    exact ⟨T.root_mem, .inl rfl⟩

end OrderedTree

/-! ### Lists of siblings in a heap -/

/-- The links lead each node of `S` to its children, and no node is a child of two. -/
structure Siblings {α : Type*} (S : Set α) (kids : α → List α) (children next : α → Option α) :
    Prop where
  chain : ∀ p ∈ S, Chain next (children p) (kids p)
  disjoint : ∀ p ∈ S, ∀ q ∈ S, ∀ n, n ∈ kids p → n ∈ kids q → p = q

namespace Siblings

variable {α : Type*} [DecidableEq α] {S : Set α} {kids : α → List α} {children next : α → Option α}
  {n p a : α} {l u v : List α}

/-- A link of a node that is in no list does not matter. -/
theorem update_free (h : Siblings S kids children next) (hn : ∀ q ∈ S, n ∉ kids q)
    (x : Option α) : Siblings S kids children (Function.update next n x) :=
  ⟨fun q hq => (h.chain q hq).update (hn q hq) x, h.disjoint⟩

/-- The lists stay apart when one list changes to nodes that are in no other. -/
theorem disjoint_update (h : Siblings S kids children next)
    (hl : ∀ m ∈ l, ∀ q ∈ S, m ∈ kids q → q = p) :
    ∀ q ∈ S, ∀ r ∈ S, ∀ m, m ∈ Function.update kids p l q → m ∈ Function.update kids p l r →
      q = r := by
  intro q hq r hr m hmq hmr
  simp only [Function.update_apply] at hmq hmr
  split_ifs at hmq hmr with hqp hrp hrp
  · rw [hqp, hrp]
  · rw [hqp, hl m hmq r hr hmr]
  · rw [hrp, hl m hmr q hq hmq]
  · exact h.disjoint q hq r hr m hmq hmr

/-- A write to `children p` that gives `p` a new list. -/
theorem update_children (h : Siblings S kids children next) (hp : p ∈ S) {x : Option α}
    (hchain : Chain next x l) (hl : ∀ m ∈ l, ∀ q ∈ S, m ∈ kids q → q = p) :
    Siblings S (Function.update kids p l) (Function.update children p x) next := by
  refine ⟨fun q hq => ?_, h.disjoint_update hl⟩
  obtain rfl | hne := eq_or_ne q p
  · rw [Function.update_self, Function.update_self]
    exact hchain
  · rw [Function.update_of_ne hne, Function.update_of_ne hne]
    exact h.chain q hq

/-- A write to `next a`, for a child `a` of `p`, that gives `p` a new list. -/
theorem update_next (h : Siblings S kids children next) (hp : p ∈ S) (ha : a ∈ kids p)
    {x : Option α} (hchain : Chain (Function.update next a x) (children p) l)
    (hl : ∀ m ∈ l, ∀ q ∈ S, m ∈ kids q → q = p) :
    Siblings S (Function.update kids p l) children (Function.update next a x) := by
  refine ⟨fun q hq => ?_, h.disjoint_update hl⟩
  obtain rfl | hne := eq_or_ne q p
  · rw [Function.update_self]
    exact hchain
  · rw [Function.update_of_ne hne]
    exact (h.chain q hq).update (fun hq' => hne (h.disjoint q hq p hp a hq' ha)) x

section append

variable (h : Siblings S kids children next) (hp : p ∈ S) (hn : ∀ q ∈ S, n ∉ kids q)
  (hnull : next n = none)
include h hp hn hnull

/-- `p->children = n;` -/
theorem append_first :
    Siblings S (Function.update kids p [n]) (Function.update children p (some n)) next := by
  refine h.update_children hp ⟨rfl, hnull⟩ fun m hm q hq hmq => ?_
  rw [List.mem_singleton.mp hm] at hmq
  exact absurd hmq (hn q hq)

/-- `last->next = n;` for the last child of `p`. -/
theorem append_last (hkids : kids p = l ++ [a]) :
    Siblings S (Function.update kids p (l ++ [a, n])) children
      (Function.update next a (some n)) := by
  have hchain := h.chain p hp
  rw [hkids] at hchain
  refine h.update_next hp (by simp [hkids]) (hchain.snoc ?_ hnull) fun m hm q hq hmq => ?_
  · rw [← hkids]
    exact hn p hp
  · have hm' : m ∈ kids p ∨ m = n := by
      simp only [List.mem_append, List.mem_cons, List.not_mem_nil, or_false] at hm
      rw [hkids]
      simp only [List.mem_append, List.mem_singleton]
      tauto
    obtain hm' | rfl := hm'
    · exact h.disjoint q hq p hp m hmq hm'
    · exact absurd hmq (hn q hq)

end append

section unlink

variable (h : Siblings S kids children next) (hp : p ∈ S)
include h hp

/-- `p->children = n->next;` for the first child of `p`. -/
theorem unlink_first (hkids : kids p = n :: l) :
    Siblings S (Function.update kids p l) (Function.update children p (next n)) next := by
  have hchain := h.chain p hp
  rw [hkids] at hchain
  apply h.update_children hp hchain.2
  intro m hm q hq hmq
  exact h.disjoint q hq p hp m hmq (by rw [hkids]; exact List.mem_cons_of_mem n hm)

/-- `a->next = n->next;` for the child `n` of `p` after `a`. -/
theorem unlink_next (hkids : kids p = u ++ a :: n :: v) :
    Siblings S (Function.update kids p (u ++ a :: v)) children
      (Function.update next a (next n)) := by
  have hchain := h.chain p hp
  rw [hkids] at hchain
  apply h.update_next hp (by simp [hkids]) hchain.unlink
  intro m hm q hq hmq
  apply h.disjoint q hq p hp m hmq
  rw [hkids]
  simp only [List.mem_append, List.mem_cons] at hm ⊢
  tauto

end unlink

end Siblings

/-! ### Paths in a heap that represents a tree -/

/-- The two links of a node. -/
inductive LinkKind
  | children
  | next
  deriving DecidableEq

/-- The node that a link leads to. -/
def follow {α : Type*} (children next : α → Option α) (n : α) : LinkKind → Option α
  | .children => children n
  | .next => next n

/-- The links represent a tree. -/
structure Links {α : Type*} (T : OrderedTree α) (children next : α → Option α) : Prop where
  chain : ∀ p ∈ T.nodes, Chain next (children p) (T.kids p)
  root : next T.root = none

namespace Links

variable {α : Type*} {T : OrderedTree α} {children next : α → Option α} {n m a b t : α}
  {k k' : LinkKind} {l : List α}

/-- A link leads to the first child of a node, or to the sibling after it. -/
theorem inlink (h : Links T children next) (ha : a ∈ T.nodes)
    (hlink : follow children next a k = some t) :
    ∃ p i, (T.kids p)[i]? = some t ∧
      (k = .children ∧ i = 0 ∧ a = p ∨ k = .next ∧ ∃ j, i = j + 1 ∧ (T.kids p)[j]? = some a) := by
  cases k with
  | children =>
    have hhead := (h.chain a ha).head_eq
    rw [show children a = some t from hlink, List.head?_eq_getElem?] at hhead
    exact ⟨a, 0, hhead.symm, .inl ⟨rfl, rfl, rfl⟩⟩
  | next =>
    have hnext : next a = some t := hlink
    have hne : a ≠ T.root := by
      rintro rfl
      rw [h.root] at hnext
      exact nomatch hnext
    obtain ⟨p, hkid⟩ := T.exists_kid ha hne
    obtain ⟨j, hj⟩ := List.mem_iff_getElem?.mp hkid
    have := (h.chain p (T.kids_mem p a hkid).1).next_getElem? hj
    rw [hnext] at this
    exact ⟨p, j + 1, this.symm, .inr ⟨rfl, j, rfl, hj⟩⟩

theorem link_kid (h : Links T children next) (ha : a ∈ T.nodes)
    (hlink : follow children next a k = some t) : ∃ p, T.Kid t p := by
  obtain ⟨p, i, hi, -⟩ := h.inlink ha hlink
  exact ⟨p, List.mem_of_getElem? hi⟩

theorem link_mem (h : Links T children next) (ha : a ∈ T.nodes)
    (hlink : follow children next a k = some t) : t ∈ T.nodes := by
  obtain ⟨p, hkid⟩ := h.link_kid ha hlink
  exact (T.kids_mem p t hkid).2

/-- Only one link leads to a node. -/
theorem link_unique (h : Links T children next) (ha : a ∈ T.nodes) (hb : b ∈ T.nodes)
    (hlink : follow children next a k = some t) (hlink' : follow children next b k' = some t) :
    a = b ∧ k = k' := by
  obtain ⟨p, i, hi, hcase⟩ := h.inlink ha hlink
  obtain ⟨q, j, hj, hcase'⟩ := h.inlink hb hlink'
  obtain rfl := T.disjoint p q t (List.mem_of_getElem? hi) (List.mem_of_getElem? hj)
  have hij : i = j := by
    obtain ⟨hil, hit⟩ := List.getElem?_eq_some_iff.mp hi
    obtain ⟨hjl, hjt⟩ := List.getElem?_eq_some_iff.mp hj
    exact ((T.nodup p).getElem_inj_iff).mp (hit.trans hjt.symm)
  subst hij
  obtain ⟨rfl, rfl, rfl⟩ | ⟨rfl, i', rfl, hi'⟩ := hcase
  · obtain ⟨rfl, -, rfl⟩ | ⟨-, j', hzero, -⟩ := hcase'
    · exact ⟨rfl, rfl⟩
    · exact absurd hzero (Nat.succ_ne_zero j').symm
  · obtain ⟨-, hzero, -⟩ | ⟨rfl, j', heq, hj'⟩ := hcase'
    · exact absurd hzero (Nat.succ_ne_zero i')
    · obtain rfl := Nat.succ_injective heq
      exact ⟨Option.some_injective _ (hi'.symm.trans hj'), rfl⟩

/-- The nodes of a chain are reached from its first node. -/
theorem walk_chain (hchain : Chain next (some a) l) (hn : n ∈ l) :
    ∃ p, walk (follow children next) a p = some n := by
  induction l generalizing a with
  | nil => exact absurd hn List.not_mem_nil
  | cons b l ih =>
    obtain ⟨hb, hrest⟩ := hchain
    obtain rfl := Option.some.inj hb
    obtain rfl | hn := List.mem_cons.mp hn
    · exact ⟨[], rfl⟩
    · cases l with
      | nil => exact absurd hn List.not_mem_nil
      | cons c l =>
        obtain ⟨p, hp⟩ := ih ⟨rfl, hrest.2⟩ hn
        refine ⟨.next :: p, ?_⟩
        rw [walk_cons, follow, hrest.1]
        exact hp

/-- **Every node is reached from the root along exactly one path.** -/
theorem path (h : Links T children next) (hn : n ∈ T.nodes) :
    ∃! p, walk (follow children next) T.root p = some n := by
  have hexists : ∃ p, walk (follow children next) T.root p = some n := by
    induction T.climbs n hn using ReflTransGen.head_induction_on with
    | refl => exact ⟨[], rfl⟩
    | @head m p hkid _ ih =>
      have hp := (T.kids_mem p m hkid).1
      obtain ⟨q, hq⟩ := ih hp
      have hchain := h.chain p hp
      cases hfirst : children p with
      | none =>
        rw [hfirst, chain_none] at hchain
        rw [hchain] at hkid
        exact absurd hkid List.not_mem_nil
      | some c =>
        rw [hfirst] at hchain
        obtain ⟨r, hr⟩ := walk_chain hchain hkid
        refine ⟨q ++ .children :: r, ?_⟩
        rw [walk_append, hq, Option.bind_some, walk_cons, follow, hfirst]
        exact hr
  obtain ⟨p, hp⟩ := hexists
  refine ⟨p, hp, fun q hq => ?_⟩
  refine walk_unique (S := T.nodes) (fun a ha k t => h.link_mem ha)
    (fun a ha b hb k k' t => h.link_unique ha hb) T.root_mem (fun a ha k hlink => ?_) hq hp
  obtain ⟨p, hkid⟩ := h.link_kid ha hlink
  exact T.root_not_mem p hkid

/-- The links have no cycle. -/
theorem acyclic (h : Links T children next) (hn : n ∈ T.nodes) {p : List LinkKind}
    (hp : walk (follow children next) n p = some n) : p = [] := by
  obtain ⟨q, hq, hunique⟩ := h.path hn
  have hlong : walk (follow children next) T.root (q ++ p) = some n := by
    rw [walk_append, hq, Option.bind_some, hp]
  have := hunique (q ++ p) hlong
  exact List.append_right_eq_self.mp this

/-- A node that is made a child of a node of its own subtree is cut off from the root. -/
theorem place_below [DecidableEq α] {p : α} (hbelow : T.Below n p)
    (hsib : Siblings T.nodes (OrderedTree.placeKids T.kids p n) children next)
    (hnull : next T.root = none) (hroot : n ≠ T.root) (q : List LinkKind) :
    walk (follow children next) T.root q ≠ some n := by
  -- the children of nodes outside of the subtree are outside
  have hkid : ∀ x ∈ T.nodes, ¬ T.Below n x → ∀ t ∈ OrderedTree.placeKids T.kids p n x,
      t ∈ T.nodes ∧ ¬ T.Below n t := by
    intro x hx hout t ht
    obtain ⟨hne, hkid⟩ | ⟨rfl, -⟩ := OrderedTree.mem_placeKids.mp ht
    · refine ⟨(T.kids_mem x t hkid).2, fun hb => ?_⟩
      obtain heq | ⟨y, hkid', hb⟩ := ReflTransGen.cases_head hb
      · exact hne heq
      · exact hout (T.disjoint y x t hkid' hkid ▸ hb)
    · exact absurd hbelow hout
  have hclosed : ∀ x ∈ {x ∈ T.nodes | ¬ T.Below n x}, ∀ k t, follow children next x k = some t →
      t ∈ {x ∈ T.nodes | ¬ T.Below n x} := by
    rintro x ⟨hx, hout⟩ k t hlink
    cases k with
    | children =>
      have hhead := (hsib.chain x hx).head_eq
      rw [show children x = some t from hlink] at hhead
      exact hkid x hx hout t (List.mem_of_head? hhead.symm)
    | next =>
      have hnext : next x = some t := hlink
      have hne : x ≠ T.root := by
        rintro rfl
        rw [hnull] at hnext
        exact nomatch hnext
      obtain ⟨y, hy⟩ := T.exists_kid hx hne
      have hyT := (T.kids_mem y x hy).1
      have hx' : x ∈ OrderedTree.placeKids T.kids p n y :=
        OrderedTree.mem_placeKids.mpr (.inl ⟨fun heq => hout (heq ▸ .refl), hy⟩)
      exact hkid y hyT (fun hb => hout (.head hy hb)) t ((hsib.chain y hyT).next_mem hx' hnext)
  intro hq
  have hmem := walk_mem hclosed ⟨T.root_mem, fun h => hroot (OrderedTree.below_root h)⟩ hq
  exact hmem.2 .refl

end Links
