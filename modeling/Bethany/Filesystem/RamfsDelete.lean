import Bethany.Filesystem.RamfsTree
import Bethany.Library.Fuel

/-!
# Deleting a subtree

The loop of `ramfs_delete` deletes the first child of the node until there is none, and then
takes out the node itself.  Each call of the loop takes one subtree out of the list that the loop
reads.

* `ramfsDelete_ends`: what is left is the tree without the subtree;
* `ramfsDelete_prunes`: the same, field by field.
-/

namespace Bethany

open Fuel LinkedList

variable {s : Ramfs} {T : OrderedTree NodeId} {n : NodeId}

/-- There are finitely many nodes. -/
theorem Ramfs.Represents.finite_nodes (h : s.Represents T) : T.nodes.Finite :=
  (Set.finite_lt_nat s.nextNode).subset fun _ hn => h.wired.lt_nextNode hn

theorem Ramfs.Represents.finite_below (h : s.Represents T) (hn : n ∈ T.nodes) :
    {m | T.Below n m}.Finite :=
  h.finite_nodes.subset fun _ hm => OrderedTree.below_mem hn hm

/-- `ramfs_delete` of a node without children. -/
theorem ramfsDelete_leaf (h : s.Represents T) (hn : n ∈ T.nodes) (hnull : s.children n = none) :
    ∃ s', Ends (fun fuel => ramfsDelete fuel s (some n)) (some (true, s')) ∧
      s'.Represents (T.prune n) := by
  have hleaf := h.kids_eq_nil hn hnull
  have hends : ∀ s', ramfsRemove s (some n) = some s' →
      Ends (fun fuel => ramfsDelete fuel s (some n)) (some (true, s')) := by
    intro s' hremove
    rw [← ends_succ]
    refine (ends_const _).congr fun fuel => ?_
    simp only [ramfsDelete, hnull, hremove, Option.bind_eq_bind, Option.bind_some, Option.pure_def]
  by_cases hroot : n = T.root
  · subst hroot
    refine ⟨s, hends s (ramfsRemove_refused (.inl h.root)), ?_⟩
    rw [OrderedTree.prune_root hleaf]
    exact h
  · obtain ⟨children, next, hremove, hwired, -⟩ := h.wired.remove hn hroot hleaf
    refine ⟨_, hends _ hremove, ?_⟩
    rw [OrderedTree.prune_leaf hroot hleaf]
    exact .of_wired hwired

/-- `ramfs_delete` takes out the subtree of the node.  By induction on the size of the subtree: it
gets smaller with each child that the loop deletes. -/
theorem ramfsDelete_ends (h : s.Represents T) (hn : n ∈ T.nodes) :
    ∃ s', Ends (fun fuel => ramfsDelete fuel s (some n)) (some (true, s')) ∧
      s'.Represents (T.prune n) := by
  induction hsize : {m | T.Below n m}.ncard using Nat.strong_induction_on generalizing s T n with
  | _ size ih =>
    subst hsize
    cases hfirst : s.children n with
    | none => exact ramfsDelete_leaf h hn hfirst
    | some child =>
      have hkid := h.kid_of_children hn hfirst
      have hout := OrderedTree.not_below_kid hkid
      have hfinite := h.finite_below hn
      -- the first child, whose subtree does not have the node
      have hlt : {m | T.Below child m}.ncard < {m | T.Below n m}.ncard := by
        apply Set.ncard_lt_ncard _ hfinite
        refine ⟨fun m hm => .tail hm hkid, fun hsub => hout (hsub ?_)⟩
        exact Relation.ReflTransGen.refl
      obtain ⟨s₁, hchild, h₁⟩ := ih _ hlt h (T.kids_mem n child hkid).2 rfl
      -- the rest, which does not have the child any more
      have hn₁ : n ∈ (T.prune child).nodes := ⟨hn, .inr hout⟩
      have hlt₁ : {m | (T.prune child).Below n m}.ncard < {m | T.Below n m}.ncard := by
        apply Set.ncard_lt_ncard _ hfinite
        refine ⟨fun m hm => ((OrderedTree.prune_below hout).mp hm).1, fun hsub => ?_⟩
        exact ((OrderedTree.prune_below hout).mp (hsub (.single hkid))).2 .refl
      obtain ⟨s₂, hrest, h₂⟩ := ih _ hlt₁ h₁ hn₁ rfl
      refine ⟨s₂, ?_, OrderedTree.prune_prune hkid ▸ h₂⟩
      rw [← ends_succ]
      have hboth := hchild.bind (g := fun fuel r => ramfsDelete fuel r.2 (some n)) hrest
      refine hboth.congr fun fuel => ?_
      simp only [ramfsDelete, hfirst, Option.bind_eq_bind]

/-- **Recursive delete removes exactly the subtree.**  The call returns true; the nodes that are
left are those outside of the subtree, and the root; their lists of children are what is left of
the old ones, and all other fields are as they were. -/
theorem ramfsDelete_prunes (h : s.Represents T) (hn : n ∈ T.nodes) :
    ∃ s' T', Ends (fun fuel => ramfsDelete fuel s (some n)) (some (true, s')) ∧
      s'.Represents T' ∧ T'.root = T.root ∧
      T'.nodes = (if n = T.root then {T.root} else {m ∈ T.nodes | ¬ T.Below n m}) ∧
      (∀ p ∈ T'.nodes, (T'.kids p).Sublist (T.kids p) ∧
        ∀ m, m ∈ T'.kids p ↔ m ∈ T.kids p ∧ m ∈ T'.nodes) ∧
      s.Relinked s' := by
  obtain ⟨s', hends, h'⟩ := ramfsDelete_ends h hn
  obtain ⟨fuel, hdelete⟩ := hends.exists
  refine ⟨s', T.prune n, hends, h', rfl, ?_, fun p hp => ⟨List.filter_sublist, fun m => ?_⟩,
    ramfsDelete_relinked hdelete⟩
  · split_ifs with hroot
    · rw [hroot, OrderedTree.prune_root_nodes]
    · ext m
      rw [OrderedTree.mem_prune, Set.mem_ofPred_eq]
      refine and_congr_right fun hm => ⟨?_, .inr⟩
      rintro (rfl | hout)
      · exact fun hbelow => hroot (OrderedTree.below_root hbelow)
      · exact hout
  · rw [OrderedTree.mem_prune]
    refine OrderedTree.prune_kid.trans ⟨fun ⟨hkid, hout⟩ => ?_, fun ⟨hkid, _, hout⟩ => ?_⟩
    · exact ⟨hkid, (T.kids_mem p m hkid).2, .inr hout⟩
    · refine ⟨hkid, hout.resolve_left ?_⟩
      rintro rfl
      exact T.root_not_mem p hkid

/-- Node 1 with the name `a` in the root, node 2 with the name `b` in it, and node 3 with the name
`c` in the root. -/
def oneNested : Ramfs :=
  ((ramfsInit (Ramfs.blank fun _ => false)).run
    [.mkdir (some 0) (letter 0), .mkdir (some 1) (letter 1),
      .mkdir (some 0) (letter 2)]).get (by decide)

theorem oneNested_represents : ∃ T, oneNested.Represents T := by
  obtain ⟨T₀, h₀⟩ : ∃ T, (ramfsInit (Ramfs.blank fun _ => false)).Represents T :=
    ramfsInit_spec rfl
  refine h₀.run (Ramfs.reflTransGen_of_run ?_ (Option.some_get _).symm)
  simp [FsCall.Outside]

theorem ramfsDelete_prunes_example : ∃ s',
    Ends (fun fuel => ramfsDelete fuel oneNested (some 1)) (some (true, s')) ∧
      ¬ s'.Live 1 ∧ s'.Live 3 := by
  obtain ⟨T, h⟩ := oneNested_represents
  have hlive : ∀ n, oneNested.Live n → n ∈ T.nodes := fun n hn => (h.live n).mp hn
  have hroot : T.root = 0 := Option.some.inj (h.root.symm.trans (by decide))
  obtain ⟨s', T', hends, h', -, hnodes, -⟩ := ramfsDelete_prunes h (hlive 1 (by decide))
  rw [hroot, if_neg (by decide)] at hnodes
  refine ⟨s', hends, fun hl => ?_, ?_⟩
  · rw [h'.live, hnodes] at hl
    exact hl.2 .refl
  · rw [h'.live, hnodes]
    refine ⟨hlive 3 (by decide), fun hbelow => ?_⟩
    -- the parent of node 3 is the root, which is not below node 1
    rw [← h.descends_iff (hlive 3 (by decide))] at hbelow
    obtain heq | ⟨p, hp, hbelow⟩ := Relation.ReflTransGen.cases_head hbelow
    · exact absurd heq (by decide)
    · obtain rfl : 0 = p := Option.some.inj hp
      obtain heq | ⟨p, hp, -⟩ := Relation.ReflTransGen.cases_head hbelow
      · exact absurd heq (by decide)
      · have hnull : oneNested.parent 0 = none := by decide
        exact absurd (hp.symm.trans hnull) (Option.some_ne_none p)

end Bethany
