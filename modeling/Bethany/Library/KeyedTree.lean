import Bethany.Library.Unfolding

/-!
# Trees with keys

When the labels of a tree have keys, the tree is a value that can be changed at a place.  The trees
that are seen from the nodes of a heap have the nodes themselves as keys, and what is done to a
node of the heap is seen as a change at its key.

* `LabelTree.subtrees`, `LabelTree.rebuild`: all subtrees, and a tree with other labels and
  children;
* `LabelTree.keys`, `find?`, `parent?`: the keys, the subtree at a key and the one above it;
* `LabelTree.adjust`, `graft`, `prune`: another label at a key, one more child, a subtree taken out;
* `Keyed`: what is seen from a node, with the nodes as keys;
* `Keyed.find?_eq`, `Keyed.adjust`, `Keyed.graft`, `Keyed.prune`: the changes, as they are seen.
-/

namespace Unfolding

open Relation

namespace LabelTree

variable {β γ : Type*}

mutual

/-- All subtrees, each before those of its children. -/
def subtrees : LabelTree β → List (LabelTree β)
  | node b ts => node b ts :: rowSubtrees ts

def rowSubtrees : List (LabelTree β) → List (LabelTree β)
  | [] => []
  | t :: ts => subtrees t ++ rowSubtrees ts

end

mutual

/-- The tree with its labels changed by `f` and its lists of children, from the leaves on, by
`g`. -/
def rebuild (f : β → γ) (g : β → List (LabelTree γ) → List (LabelTree γ)) :
    LabelTree β → LabelTree γ
  | node b ts => node (f b) (g b (rebuildRow f g ts))

def rebuildRow (f : β → γ) (g : β → List (LabelTree γ) → List (LabelTree γ)) :
    List (LabelTree β) → List (LabelTree γ)
  | [] => []
  | t :: ts => rebuild f g t :: rebuildRow f g ts

end

variable {κ : Type*} {t u new : LabelTree (κ × β)}

/-- The key of a node. -/
abbrev key (t : LabelTree (κ × β)) : κ := t.label.1

/-- What there is at a node, but for its key. -/
abbrev value (t : LabelTree (κ × β)) : β := t.label.2

def keys (t : LabelTree (κ × β)) : List κ := t.subtrees.map key

/-- The tree without its keys. -/
def unkeyed (t : LabelTree (κ × β)) : LabelTree β := t.rebuild Prod.snd fun _ ts => ts

variable [DecidableEq κ]

/-- The subtree at a key. -/
def find? (k : κ) (t : LabelTree (κ × β)) : Option (LabelTree (κ × β)) :=
  t.subtrees.find? fun u => u.key = k

/-- The subtree that has a key among its children. -/
def parent? (k : κ) (t : LabelTree (κ × β)) : Option (LabelTree (κ × β)) :=
  t.subtrees.find? fun u => k ∈ u.kids.map key

def adjust (k : κ) (f : β → β) (t : LabelTree (κ × β)) : LabelTree (κ × β) :=
  t.rebuild (fun b => if b.1 = k then (b.1, f b.2) else b) fun _ ts => ts

/-- The tree with `new` as the last child of a key. -/
def graft (k : κ) (t new : LabelTree (κ × β)) : LabelTree (κ × β) :=
  t.rebuild id fun b ts => if b.1 = k then ts ++ [new] else ts

/-- The tree without the subtree at a key, unless it is the whole tree. -/
def prune (k : κ) (t : LabelTree (κ × β)) : LabelTree (κ × β) :=
  t.rebuild id fun _ ts => ts.filter fun u => u.key ≠ k

theorem rowSubtrees_eq (ts : List (LabelTree β)) : rowSubtrees ts = ts.flatMap subtrees := by
  induction ts with
  | nil => rfl
  | cons t ts ih => rw [rowSubtrees, ih, List.flatMap_cons]

omit [DecidableEq κ] in
theorem keys_node (b : κ × β) (ts : List (LabelTree (κ × β))) :
    keys (node b ts) = b.1 :: ts.flatMap keys := by
  rw [keys, subtrees, rowSubtrees_eq, List.map_cons, List.map_flatMap]
  rfl

end LabelTree

open LabelTree

variable {α β γ : Type*} {kids kids' : α → List α} {a k n m : α}

/-! ### What is seen of a change -/

theorem forall₂_left {α β : Type*} {R : β → α → Prop} {us : List β} {l : List α} {u : β}
    (h : List.Forall₂ R us l) (hu : u ∈ us) : ∃ c ∈ l, R u c := by
  induction h with
  | nil => exact absurd hu List.not_mem_nil
  | @cons b c us l hbc _ ih =>
    rcases List.mem_cons.mp hu with rfl | hu
    · exact ⟨c, List.mem_cons_self, hbc⟩
    · obtain ⟨d, hd, hud⟩ := ih hu
      exact ⟨d, List.mem_cons_of_mem c hd, hud⟩

theorem forall₂_right {α β : Type*} {R : β → α → Prop} {us : List β} {l : List α} {c : α}
    (h : List.Forall₂ R us l) (hc : c ∈ l) : ∃ u ∈ us, R u c := forall₂_left h.flip hc

section seen

variable {label : α → β} {label' : α → γ} {t u : LabelTree β} {ts : List (LabelTree β)}

/-- The subtrees are what is seen from the nodes that are seen. -/
theorem Unfolds.mem_subtrees (h : Unfolds label kids t a) :
    u ∈ t.subtrees ↔ ∃ m, Reaches kids a m ∧ Unfolds label kids u m := by
  induction t using LabelTree.induction generalizing a with
  | node b ts ih =>
    obtain ⟨-, hts⟩ := unfolds_node.mp h
    rw [subtrees, rowSubtrees_eq, List.mem_cons, List.mem_flatMap]
    constructor
    · rintro (rfl | ⟨t, ht, hu⟩)
      · exact ⟨a, .refl kids a, h⟩
      · obtain ⟨c, hc, htc⟩ := forall₂_left hts ht
        obtain ⟨m, hm, hum⟩ := (ih t ht htc).mp hu
        exact ⟨m, Reaches.trans (.kid hc) hm, hum⟩
    · rintro ⟨m, hm, hum⟩
      obtain rfl | ⟨c, hc, hcm⟩ := reaches_iff_kid.mp hm
      · exact .inl (hum.unique h)
      · obtain ⟨t, ht, htc⟩ := forall₂_right hts hc
        exact .inr ⟨t, ht, (ih t ht htc).mpr ⟨m, hcm, hum⟩⟩

/-- The rebuilt tree is seen when at each node the changed children are. -/
theorem Unfolds.rebuild {f : β → γ} {g : β → List (LabelTree γ) → List (LabelTree γ)}
    (h : Unfolds label kids t a) (hlabel : ∀ m, Reaches kids a m → label' m = f (label m))
    (hkids : ∀ m ts, Reaches kids a m → List.Forall₂ (Unfolds label' kids') ts (kids m) →
      List.Forall₂ (Unfolds label' kids') (g (label m) ts) (kids' m)) :
    Unfolds label' kids' (t.rebuild f g) a := by
  induction t using LabelTree.induction generalizing a with
  | node b ts ih =>
    obtain ⟨rfl, hts⟩ := unfolds_node.mp h
    rw [LabelTree.rebuild, unfolds_node]
    refine ⟨hlabel a (.refl kids a), hkids a _ (.refl kids a) ?_⟩
    have hreach : ∀ c ∈ kids a, ∀ m, Reaches kids c m → Reaches kids a m := fun c hc m hm =>
      Reaches.trans (.kid hc) hm
    generalize kids a = l at hts hreach
    clear h
    induction hts with
    | nil => exact .nil
    | @cons t c ts l ht hts ihl =>
      refine .cons ?_ ?_
      · exact ih t (by simp) ht (fun m hm => hlabel m (hreach c (by simp) m hm))
          fun m us hm => hkids m us (hreach c (by simp) m hm)
      · exact ihl (fun t ht => ih t (List.mem_cons_of_mem _ ht))
          fun c hc => hreach c (List.mem_cons_of_mem _ hc)

end seen

/-- From `a` on one sees `t`, where the key of a node is the node itself. -/
def Keyed (label : α → β) (kids : α → List α) : LabelTree (α × β) → α → Prop :=
  Unfolds (fun a => (a, label a)) kids

namespace Keyed

variable {label label' : α → β} {t u new : LabelTree (α × β)}

theorem key_eq (h : Keyed label kids t a) : t.key = a := by
  rw [LabelTree.key, Unfolds.label_eq h]

theorem value_eq (h : Keyed label kids t a) : t.value = label a := by
  rw [LabelTree.value, Unfolds.label_eq h]

theorem map_key {ts : List (LabelTree (α × β))} {l : List α}
    (h : List.Forall₂ (Keyed label kids) ts l) : ts.map LabelTree.key = l := by
  induction h with
  | nil => rfl
  | cons ht _ ih => rw [List.map_cons, ht.key_eq, ih]

theorem map_value {ts : List (LabelTree (α × β))} {l : List α}
    (h : List.Forall₂ (Keyed label kids) ts l) : ts.map LabelTree.value = l.map label := by
  induction h with
  | nil => rfl
  | cons ht _ ih => rw [List.map_cons, List.map_cons, ht.value_eq, ih]

theorem kids_forall (h : Keyed label kids t a) : List.Forall₂ (Keyed label kids) t.kids (kids a) :=
  Unfolds.kids_forall h

theorem kids_key (h : Keyed label kids t a) : t.kids.map LabelTree.key = kids a :=
  map_key h.kids_forall

/-- Without the keys it is what is seen of the labels. -/
theorem unkeyed (h : Keyed label kids t a) : Unfolds label kids t.unkeyed a :=
  Unfolds.rebuild h (fun _ _ => rfl) fun _ _ _ hts => hts

theorem congr (h : Keyed label kids t a) (hlabel : ∀ m, Reaches kids a m → label' m = label m)
    (hkids : ∀ m, Reaches kids a m → kids' m = kids m) : Keyed label' kids' t a :=
  Unfolds.congr h (fun m hm => by rw [hlabel m hm]) hkids

/-- The keys are the nodes that are seen. -/
theorem mem_keys (h : Keyed label kids t a) : k ∈ t.keys ↔ Reaches kids a k := by
  rw [keys, List.mem_map]
  constructor
  · rintro ⟨u, hu, rfl⟩
    obtain ⟨m, hm, hum⟩ := (Unfolds.mem_subtrees h).mp hu
    rwa [key_eq hum]
  · intro hk
    induction t using LabelTree.induction generalizing a with
    | node b ts ih =>
      obtain ⟨-, hts⟩ := unfolds_node.mp h
      rw [subtrees, rowSubtrees_eq]
      obtain rfl | ⟨c, hc, hck⟩ := reaches_iff_kid.mp hk
      · exact ⟨_, List.mem_cons_self, h.key_eq⟩
      · obtain ⟨t, ht, htc⟩ := forall₂_right hts hc
        obtain ⟨u, hu, hkey⟩ := ih t ht htc hck
        exact ⟨u, List.mem_cons_of_mem _ (List.mem_flatMap_of_mem ht hu), hkey⟩

variable [DecidableEq α]

/-- The subtree at a key is what is seen from the node. -/
theorem find?_eq (h : Keyed label kids t a) (hk : Reaches kids a k) :
    ∃ u, t.find? k = some u ∧ Keyed label kids u k := by
  cases hfind : t.find? k with
  | none =>
    obtain ⟨u, hu, rfl⟩ := List.mem_map.mp (h.mem_keys.mpr hk)
    simpa using List.find?_eq_none.mp hfind u hu
  | some u =>
    obtain ⟨m, -, hum⟩ := (Unfolds.mem_subtrees h).mp (List.mem_of_find?_eq_some hfind)
    have hkey : u.key = k := by simpa using List.find?_some hfind
    obtain rfl : m = k := (key_eq hum).symm.trans hkey
    exact ⟨u, rfl, hum⟩

/-- The subtree above a key is what is seen from a node with the key among its children. -/
theorem parent?_eq (h : Keyed label kids t a) :
    (t.parent? k = none ∧ ∀ p, Reaches kids a p → k ∉ kids p) ∨
      ∃ u p, t.parent? k = some u ∧ Reaches kids a p ∧ k ∈ kids p ∧ Keyed label kids u p := by
  cases hfind : t.parent? k with
  | none =>
    refine .inl ⟨rfl, fun p hp hkid => ?_⟩
    obtain ⟨u, hu, rfl⟩ := List.mem_map.mp (h.mem_keys.mpr hp)
    obtain ⟨m, -, hum⟩ := (Unfolds.mem_subtrees h).mp hu
    have hnot : k ∉ u.kids.map LabelTree.key := by
      simpa using List.find?_eq_none.mp hfind u hu
    rw [kids_key hum, ← key_eq hum] at hnot
    exact hnot hkid
  | some u =>
    obtain ⟨p, hp, hup⟩ := (Unfolds.mem_subtrees h).mp (List.mem_of_find?_eq_some hfind)
    have hkid : k ∈ u.kids.map LabelTree.key := by simpa using List.find?_some hfind
    rw [kids_key hup] at hkid
    exact .inr ⟨u, p, rfl, hp, hkid, hup⟩

/-- One label has changed. -/
theorem adjust (h : Keyed label kids t a) {f : β → β} (hk : label' k = f (label k))
    (hother : ∀ m, Reaches kids a m → m ≠ k → label' m = label m) :
    Keyed label' kids (t.adjust k f) a := by
  refine Unfolds.rebuild h (fun m hm => ?_) fun _ _ _ hts => hts
  by_cases hmk : m = k
  · simp [hmk, hk]
  · simp [hmk, hother m hm hmk]

/-- One node has become the last child of another. -/
theorem graft (h : Keyed label kids t a) (hnew : Keyed label' kids' new n)
    (hlabel : ∀ m, Reaches kids a m → label' m = label m) (hk : kids' k = kids k ++ [n])
    (hkids : ∀ m, Reaches kids a m → m ≠ k → kids' m = kids m) :
    Keyed label' kids' (t.graft k new) a := by
  refine Unfolds.rebuild h (fun m hm => by rw [hlabel m hm]; rfl) fun m ts hm hts => ?_
  by_cases hmk : m = k
  · subst hmk
    rw [hk]
    rw [if_pos rfl]
    exact List.rel_append hts (.cons hnew .nil)
  · rw [hkids m hm hmk]
    simpa only [if_neg hmk] using hts

theorem filter_forall {ts : List (LabelTree (α × β))} {l : List α}
    (h : List.Forall₂ (Keyed label kids) ts l) :
    List.Forall₂ (Keyed label kids) (ts.filter fun u => u.key ≠ k) (l.filter (· ≠ k)) := by
  induction h with
  | nil => exact .nil
  | @cons u c ts l hu _ ih =>
    have hkey : u.key = c := hu.key_eq
    by_cases hc : c = k
    · rw [List.filter_cons_of_neg (by simp [hkey, hc]), List.filter_cons_of_neg (by simp [hc])]
      exact ih
    · rw [List.filter_cons_of_pos (by simp [hkey, hc]), List.filter_cons_of_pos (by simp [hc])]
      exact .cons hu ih

/-- One node is nobody's child any more. -/
theorem prune (h : Keyed label kids t a) :
    Keyed label (fun m => (kids m).filter (· ≠ k)) (t.prune k) a := by
  refine Unfolds.rebuild h (fun _ _ => rfl) fun m ts _ hts => filter_forall ?_
  exact hts

/-! ### In an ordered tree -/

variable {T : OrderedTree α} {p : α}

omit [DecidableEq α] in
/-- In an ordered tree all keys are different. -/
theorem nodup_keys (h : Keyed label T.kids t n) (hn : n ∈ T.nodes) : t.keys.Nodup := by
  induction t using LabelTree.induction generalizing n with
  | node b ts ih =>
    have hkey : b.1 = n := h.key_eq
    have hts : List.Forall₂ (Keyed label T.kids) ts (T.kids n) := h.kids_forall
    rw [keys_node, List.nodup_cons, List.nodup_flatMap]
    refine ⟨?_, ?_, ?_⟩
    · intro hmem
      obtain ⟨u, hu, hmem⟩ := List.mem_flatMap.mp hmem
      obtain ⟨c, hc, huc⟩ := forall₂_left hts hu
      rw [hkey, huc.mem_keys] at hmem
      exact OrderedTree.not_below_kid hc hmem
    · intro u hu
      obtain ⟨c, hc, huc⟩ := forall₂_left hts hu
      exact ih u hu huc (T.kids_mem n c hc).2
    · -- a key below two children would be below both of two siblings
      have hsub : ∀ c ∈ T.kids n, T.Kid c n := fun c hc => hc
      have hnodup := T.nodup n
      generalize T.kids n = l at hts hsub hnodup
      clear h ih
      induction hts with
      | nil => exact .nil
      | @cons u c us l hu hus ihl =>
        obtain ⟨hnot, hnodup⟩ := List.nodup_cons.mp hnodup
        refine .cons (fun v hv => ?_) (ihl (fun d hd => hsub d (by simp [hd])) hnodup)
        obtain ⟨d, hd, hvd⟩ := forall₂_left hus hv
        intro k hku hkv
        have hne : c ≠ d := fun heq => hnot (heq ▸ hd)
        exact not_below_sibling (hsub c (by simp)) (hsub d (by simp [hd])) hne
          (hu.mem_keys.mp hku) (hvd.mem_keys.mp hkv)

/-- What is seen from the root once a subtree has been taken out of an ordered tree. -/
theorem prune_tree (h : Keyed label T.kids t T.root) (hroot : n ≠ T.root) :
    Keyed label (T.prune n).kids (t.prune n) T.root := by
  refine congr (h.prune (k := n)) (fun _ _ => rfl) fun m hm => ?_
  -- on the way from the root to `m` there is no `n`
  have hout : ¬ T.Below n m := by
    induction hm using ReflTransGen.head_induction_on with
    | refl => exact fun hbelow => hroot (OrderedTree.below_root hbelow)
    | @head c p hc _ ih =>
      obtain ⟨hkid, hne⟩ := List.mem_filter.mp hc
      rwa [OrderedTree.below_kid_iff hkid (by simpa using hne)]
  rw [OrderedTree.prune_kids]
  refine List.filter_congr fun c hc => ?_
  by_cases hcn : c = n
  · subst hcn
    have hbelow : T.Below c c := .refl
    simp [hbelow]
  · simpa [hcn, OrderedTree.below_kid_iff hc hcn] using hout

/-- What is seen from the root once a node has been put in another place of an ordered tree. -/
theorem place_tree (h : Keyed label T.kids t T.root) (hu : Keyed label T.kids u n)
    (hp : p ∈ T.nodes) (hroot : n ≠ T.root) (hbelow : ¬ T.Below n p) :
    Keyed label (T.place p n hp hroot hbelow).kids ((t.prune n).graft p u) T.root := by
  have hnew : Keyed label (T.place p n hp hroot hbelow).kids u n :=
    hu.congr (fun _ _ => rfl) fun m hm => OrderedTree.place_kids_below hp hroot hbelow hm
  have hplace : ∀ m, (T.place p n hp hroot hbelow).kids m =
      (T.kids m).filter (· ≠ n) ++ if m = p then [n] else [] := by
    intro m
    have herase : (T.kids m).erase n = (T.kids m).filter (· ≠ n) := by
      rw [(T.nodup m).erase_eq_filter]
      exact List.filter_congr fun c _ => by rw [bne, Bool.beq_eq_decide_eq, decide_not]
    exact congrArg (· ++ if m = p then [n] else []) herase
  refine graft (h.prune (k := n)) hnew (fun _ _ => rfl) ?_ fun m _ hne => ?_
  · rw [hplace, if_pos rfl]
  · rw [hplace, if_neg hne, List.append_nil]

end Keyed

end Unfolding
