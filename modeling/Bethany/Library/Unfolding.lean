import Bethany.Library.OrderedTree

/-!
# What a node of a heap looks like

The nodes of a heap have labels and lists of children.  What can be seen from a node on, without
the identities of the nodes, is a tree of labels.

* `LabelTree`, with its induction principle, `LabelTree.All`, `LabelTree.sum`;
* `Reaches`: the nodes that are seen;
* `Unfolds label kids t a`: from `a` on one sees `t`; `Unfolds.unique`, `Unfolds.congr`;
* `Unfolds.all_iff`, `Unfolds.sum_eq`: what holds of all nodes seen, and sums over them;
* `exists_unfolds`: in a finite `OrderedTree` something is seen from every node.
-/

namespace Unfolding

open Relation

/-- A tree of labels with ordered children. -/
inductive LabelTree (β : Type*)
  | node (label : β) (kids : List (LabelTree β))

namespace LabelTree

variable {β : Type*}

def label : LabelTree β → β
  | node label _ => label

def kids : LabelTree β → List (LabelTree β)
  | node _ kids => kids

/-- The tree with another label at the top. -/
def relabel (b : β) : LabelTree β → LabelTree β
  | node _ kids => node b kids

@[simp] theorem label_node (b : β) (ts : List (LabelTree β)) : (node b ts).label = b := rfl

@[simp] theorem kids_node (b : β) (ts : List (LabelTree β)) : (node b ts).kids = ts := rfl

@[simp] theorem relabel_node (a b : β) (ts : List (LabelTree β)) :
    (node b ts).relabel a = node a ts := rfl

@[simp] theorem relabel_label (t : LabelTree β) : t.relabel t.label = t := by
  cases t
  rfl

/-- Induction with the children at hand. -/
theorem induction {motive : LabelTree β → Prop}
    (node : ∀ b ts, (∀ t ∈ ts, motive t) → motive (.node b ts)) : ∀ t, motive t
  | .node b ts => node b ts fun t _ => induction node t

mutual

/-- The sum of the values of the labels. -/
def sum (f : β → ℕ) : LabelTree β → ℕ
  | node b ts => f b + sums f ts

def sums (f : β → ℕ) : List (LabelTree β) → ℕ
  | [] => 0
  | t :: ts => sum f t + sums f ts

end

theorem sums_append (f : β → ℕ) (ts us : List (LabelTree β)) :
    sums f (ts ++ us) = sums f ts + sums f us := by
  induction ts with
  | nil => simp [sums]
  | cons t ts ih => rw [List.cons_append, sums, sums, ih, Nat.add_assoc]

/-- Every label, together with those of the children, is as `P` says. -/
inductive All (P : β → List β → Prop) : LabelTree β → Prop
  | node (b : β) (ts : List (LabelTree β)) :
      P b (ts.map label) → (∀ t ∈ ts, All P t) → All P (.node b ts)

variable {P Q : β → List β → Prop} {b : β} {ts : List (LabelTree β)}

theorem all_node : All P (.node b ts) ↔ P b (ts.map label) ∧ ∀ t ∈ ts, All P t := by
  constructor
  · rintro ⟨⟩
    exact ⟨‹_›, ‹_›⟩
  · rintro ⟨hb, hts⟩
    exact .node b ts hb hts

end LabelTree

variable {α β : Type*} {label label' : α → β} {kids kids' : α → List α} {t t' : LabelTree β}
  {ts : List (LabelTree β)} {a b c m : α} {l : List α} {x : β}

/-! ### The nodes that are seen -/

/-- From `a` on one comes to `m`. -/
def Reaches (kids : α → List α) (a m : α) : Prop := ReflTransGen (fun m p => m ∈ kids p) m a

theorem Reaches.refl (kids : α → List α) (a : α) : Reaches kids a a := ReflTransGen.refl

theorem Reaches.trans (h : Reaches kids a b) (h' : Reaches kids b c) : Reaches kids a c :=
  ReflTransGen.trans h' h

theorem Reaches.kid (h : c ∈ kids a) : Reaches kids a c := ReflTransGen.single h

/-- What is reached is the node, or is reached from one of its children. -/
theorem reaches_iff_kid : Reaches kids a m ↔ m = a ∨ ∃ c ∈ kids a, Reaches kids c m := by
  constructor
  · intro h
    obtain heq | ⟨c, hreach, hkid⟩ := ReflTransGen.cases_tail h
    · exact .inl heq.symm
    · exact .inr ⟨c, hkid, hreach⟩
  · rintro (rfl | ⟨c, hkid, hreach⟩)
    · exact .refl ..
    · exact (Reaches.kid hkid).trans hreach

theorem Reaches.mono (hsub : ∀ p, kids p ⊆ kids' p) (h : Reaches kids a m) : Reaches kids' a m :=
  ReflTransGen.mono (fun _ p hkid => hsub p hkid) _ _ h

/-- Only the children of the nodes that are reached matter. -/
theorem Reaches.of_congr (hkids : ∀ p, Reaches kids a p → kids' p = kids p)
    (h : Reaches kids' a m) : Reaches kids a m := by
  induction h using ReflTransGen.head_induction_on with
  | refl => exact .refl ..
  | @head c p hkid _ ih =>
    rw [hkids p ih] at hkid
    exact ih.trans (.kid hkid)

/-! ### Unfolding -/

/-- From `a` on one sees the tree. -/
inductive Unfolds (label : α → β) (kids : α → List α) : LabelTree β → α → Prop
  | node (ts : List (LabelTree β)) (a : α) :
      List.Forall₂ (Unfolds label kids) ts (kids a) → Unfolds label kids (.node (label a) ts) a

theorem unfolds_node :
    Unfolds label kids (.node x ts) a ↔
      label a = x ∧ List.Forall₂ (Unfolds label kids) ts (kids a) := by
  constructor
  · rintro ⟨⟩
    exact ⟨rfl, ‹_›⟩
  · rintro ⟨rfl, hts⟩
    exact .node ts a hts

theorem Unfolds.label_eq (h : Unfolds label kids t a) : t.label = label a := by
  cases h
  rfl

theorem Unfolds.kids_forall (h : Unfolds label kids t a) :
    List.Forall₂ (Unfolds label kids) t.kids (kids a) := by
  cases h
  assumption

/-- Lists stay related when their entries do. -/
theorem forall₂_imp_mem {R S : LabelTree β → α → Prop} (h : List.Forall₂ R ts l)
    (himp : ∀ t, ∀ a ∈ l, R t a → S t a) : List.Forall₂ S ts l := by
  induction h with
  | nil => exact .nil
  | cons hr _ ih =>
    exact .cons (himp _ _ List.mem_cons_self hr)
      (ih fun t a ha => himp t a (List.mem_cons_of_mem _ ha))

theorem exists_forall₂ {R : LabelTree β → α → Prop} (h : ∀ a ∈ l, ∃ t, R t a) :
    ∃ ts, List.Forall₂ R ts l := by
  induction l with
  | nil => exact ⟨[], .nil⟩
  | cons a l ih =>
    obtain ⟨t, ht⟩ := h a List.mem_cons_self
    obtain ⟨ts, hts⟩ := ih fun a ha => h a (List.mem_cons_of_mem _ ha)
    exact ⟨t :: ts, .cons ht hts⟩

theorem forall₂_split {R : LabelTree β → α → Prop} {l' : List α} (h : List.Forall₂ R ts (l ++ l')) :
    ∃ ts₁ ts₂, ts = ts₁ ++ ts₂ ∧ List.Forall₂ R ts₁ l ∧ List.Forall₂ R ts₂ l' :=
  ⟨_, _, (List.take_append_drop l.length ts).symm, List.forall₂_take_append _ _ _ h,
    List.forall₂_drop_append _ _ _ h⟩

theorem map_label_eq (h : List.Forall₂ (Unfolds label kids) ts l) :
    ts.map LabelTree.label = l.map label := by
  induction h with
  | nil => rfl
  | cons ht _ ih => rw [List.map_cons, List.map_cons, ht.label_eq, ih]

theorem Unfolds.unique (h : Unfolds label kids t a) (h' : Unfolds label kids t' a) : t = t' := by
  induction t using LabelTree.induction generalizing a t' with
  | node x ts ih =>
    obtain ⟨rfl, hts⟩ := unfolds_node.mp h
    obtain ⟨x', ts'⟩ := t'
    obtain ⟨rfl, hts'⟩ := unfolds_node.mp h'
    congr 1
    clear h h'
    generalize kids a = l at hts hts'
    induction hts generalizing ts' with
    | nil =>
      cases hts'
      rfl
    | cons ht hts ihl =>
      cases hts' with
      | cons ht' hts' =>
        rw [ih _ List.mem_cons_self ht ht',
          ihl (fun t ht => ih t (List.mem_cons_of_mem _ ht)) _ hts']

/-- The tree depends only on the nodes that are reached. -/
theorem Unfolds.congr (h : Unfolds label kids t a)
    (hlabel : ∀ m, Reaches kids a m → label' m = label m)
    (hkids : ∀ m, Reaches kids a m → kids' m = kids m) : Unfolds label' kids' t a := by
  induction t using LabelTree.induction generalizing a with
  | node x ts ih =>
    obtain ⟨rfl, hts⟩ := unfolds_node.mp h
    refine unfolds_node.mpr ⟨hlabel a (.refl ..), ?_⟩
    rw [hkids a (.refl ..)]
    have hreach : ∀ c ∈ kids a, ∀ m, Reaches kids c m → Reaches kids a m :=
      fun c hc m hm => (Reaches.kid hc).trans hm
    clear h
    generalize kids a = l at hts hreach
    induction hts with
    | nil => exact .nil
    | @cons t c ts l ht _ ihl =>
      refine .cons ?_ ?_
      · exact ih t List.mem_cons_self ht
          (fun m hm => hlabel m (hreach c List.mem_cons_self m hm))
          fun m hm => hkids m (hreach c List.mem_cons_self m hm)
      · exact ihl (fun t ht => ih t (List.mem_cons_of_mem _ ht))
          fun c hc => hreach c (List.mem_cons_of_mem _ hc)

/-- What holds of all labels of the tree holds at all nodes that are reached. -/
theorem Unfolds.all_iff {P : β → List β → Prop} (h : Unfolds label kids t a) :
    t.All P ↔ ∀ m, Reaches kids a m → P (label m) ((kids m).map label) := by
  induction t using LabelTree.induction generalizing a with
  | node x ts ih =>
    obtain ⟨rfl, hts⟩ := unfolds_node.mp h
    rw [LabelTree.all_node, map_label_eq hts]
    have hkids : (∀ t ∈ ts, t.All P) ↔
        ∀ c ∈ kids a, ∀ m, Reaches kids c m → P (label m) ((kids m).map label) := by
      clear h
      generalize kids a = l at hts
      induction hts with
      | nil => simp
      | cons ht _ ihl =>
        simp only [List.forall_mem_cons]
        rw [ih _ List.mem_cons_self ht, ihl fun t ht => ih t (List.mem_cons_of_mem _ ht)]
    rw [hkids]
    constructor
    · rintro ⟨ha, hall⟩ m hm
      obtain rfl | ⟨c, hc, hm⟩ := reaches_iff_kid.mp hm
      · exact ha
      · exact hall c hc m hm
    · intro hall
      exact ⟨hall a (.refl ..), fun c hc m hm => hall m ((Reaches.kid hc).trans hm)⟩

/-! ### Unfolding a tree -/

variable {T : OrderedTree α} {n p : α}

/-- Different children of a node have nothing below them in common. -/
theorem not_below_sibling (hb : T.Kid b p) (hc : T.Kid c p) (hne : b ≠ c) (hbm : T.Below b m) :
    ¬ T.Below c m := by
  intro hcm
  have hunique : Relator.RightUnique T.Kid := fun _ p q hp hq => T.disjoint p q _ hp hq
  obtain h | h := ReflTransGen.total_of_right_unique hunique hbm hcm
  · obtain rfl | ⟨q, hkid, h⟩ := ReflTransGen.cases_head h
    · exact hne rfl
    · exact OrderedTree.not_below_kid hc (T.disjoint p q b hb hkid ▸ h)
  · obtain rfl | ⟨q, hkid, h⟩ := ReflTransGen.cases_head h
    · exact hne rfl
    · exact OrderedTree.not_below_kid hb (T.disjoint p q c hc hkid ▸ h)

/-- In a finite tree something is seen from every node, also when some children are left out. -/
theorem exists_unfolds (hfinite : T.nodes.Finite) (hsub : ∀ p, kids p ⊆ T.kids p)
    (label : α → β) (hn : n ∈ T.nodes) : ∃ t, Unfolds label kids t n := by
  induction hsize : {m | T.Below n m}.ncard using Nat.strong_induction_on generalizing n with
  | _ size ih =>
    subst hsize
    have hkid : ∀ c ∈ kids n, ∃ t, Unfolds label kids t c := by
      intro c hc
      have hkid : T.Kid c n := hsub n hc
      refine ih _ ?_ (T.kids_mem n c hkid).2 rfl
      refine Set.ncard_lt_ncard ⟨fun m hm => .tail hm hkid, fun hback => ?_⟩
        (hfinite.subset fun m hm => OrderedTree.below_mem hn hm)
      exact OrderedTree.not_below_kid hkid (hback .refl)
    obtain ⟨ts, hts⟩ := exists_forall₂ hkid
    exact ⟨_, .node ts n hts⟩

/-- The sum over the labels of the tree is the sum over the nodes that are reached. -/
theorem Unfolds.sum_eq (h : Unfolds label kids t n) (hfinite : T.nodes.Finite) (hn : n ∈ T.nodes)
    (hsub : ∀ p, (kids p).Sublist (T.kids p)) (f : β → ℕ) :
    t.sum f = ∑ᶠ m ∈ {m | Reaches kids n m}, f (label m) := by
  have hbelow : ∀ {a m}, Reaches kids a m → T.Below a m := fun h => h.mono fun p => (hsub p).subset
  have hfinite' : ∀ {a}, a ∈ T.nodes → {m | Reaches kids a m}.Finite := fun ha =>
    hfinite.subset fun m hm => OrderedTree.below_mem ha (hbelow hm)
  induction t using LabelTree.induction generalizing n with
  | node x ts ih =>
    obtain ⟨rfl, hts⟩ := unfolds_node.mp h
    -- the nodes reached from the children, for each first part of their list
    have hsums : ∀ l, l.Sublist (T.kids n) → ∀ ts', List.Forall₂ (Unfolds label kids) ts' l →
        (∀ t ∈ ts', t ∈ ts) → {m | ∃ c ∈ l, Reaches kids c m}.Finite ∧
        LabelTree.sums f ts' = ∑ᶠ m ∈ {m | ∃ c ∈ l, Reaches kids c m}, f (label m) := by
      intro l hl ts' hts' hmem
      induction hts' with
      | nil => simp [LabelTree.sums]
      | @cons t c ts' l ht _ ihl =>
        have hkid : ∀ b ∈ c :: l, T.Kid b n := fun b hb => hl.subset hb
        have hcT := (T.kids_mem n c (hkid c List.mem_cons_self)).2
        obtain ⟨hfin, hsum⟩ := ihl ((List.sublist_cons_self c l).trans hl)
          fun t ht => hmem t (List.mem_cons_of_mem _ ht)
        have hset : {m | ∃ b ∈ c :: l, Reaches kids b m} =
            {m | Reaches kids c m} ∪ {m | ∃ b ∈ l, Reaches kids b m} := by
          ext m
          simp
        have hdisjoint : Disjoint {m | Reaches kids c m} {m | ∃ b ∈ l, Reaches kids b m} := by
          refine Set.disjoint_left.mpr fun m hm hm' => ?_
          obtain ⟨b, hb, hbm⟩ := hm'
          have hcb : c ≠ b := fun heq =>
            (List.nodup_cons.mp ((T.nodup n).sublist hl)).1 (heq ▸ hb)
          exact not_below_sibling (hkid c List.mem_cons_self) (hkid b (List.mem_cons_of_mem _ hb))
            hcb (hbelow hm) (hbelow hbm)
        rw [hset]
        refine ⟨(hfinite' hcT).union hfin, ?_⟩
        rw [finsum_mem_union hdisjoint (hfinite' hcT) hfin, LabelTree.sums, hsum,
          ih t (hmem t List.mem_cons_self) ht hcT]
    obtain ⟨hfin, hsum⟩ := hsums (kids n) (hsub n) ts hts fun t ht => ht
    have hset : {m | Reaches kids n m} = insert n {m | ∃ c ∈ kids n, Reaches kids c m} := by
      ext m
      exact reaches_iff_kid
    have hnot : n ∉ {m | ∃ c ∈ kids n, Reaches kids c m} := by
      rintro ⟨c, hc, hreach⟩
      exact OrderedTree.not_below_kid ((hsub n).subset hc) (hbelow hreach)
    rw [hset, finsum_mem_insert _ hnot hfin, LabelTree.sum, hsum]

end Unfolding
