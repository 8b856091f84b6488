import Bethany.Filesystem.RamfsDelete

/-!
# Moving a node

`ramfs_move` takes a node out of one list of siblings and appends it to another, or to the same
one.  As long as the new parent is not below the node, exactly one subtree changes its place.
Where `ramfs_move` returns false it has not written to anything yet.

* `OrderedTree.Relocated`: one subtree has changed its place;
* `ramfsMove_false`: what a refused move does;
* `ramfsMove_relocates`: both results.
-/

namespace Bethany

open Relation

variable {s s' : Ramfs} {T T' : OrderedTree NodeId} {n p : NodeId}

/-- `T'` is `T` with the subtree of `n` at the end of the children of `p`. -/
structure OrderedTree.Relocated (T T' : OrderedTree NodeId) (n p : NodeId) : Prop where
  root : T'.root = T.root
  nodes : T'.nodes = T.nodes
  last : T'.kids p = (T.kids p).erase n ++ [n]
  others : ∀ q, q ≠ p → T'.kids q = (T.kids q).erase n
  below : ∀ m, T'.Below n m ↔ T.Below n m
  subtree : ∀ m, T.Below n m → T'.kids m = T.kids m

theorem OrderedTree.place_relocated (hn : n ∈ T.nodes) (hp : p ∈ T.nodes) (hroot : n ≠ T.root)
    (hbelow : ¬ T.Below n p) : OrderedTree.Relocated T (T.place p n hp hroot hbelow) n p where
  root := rfl
  nodes := Set.insert_eq_of_mem hn
  last := by simp [OrderedTree.place, OrderedTree.placeKids]
  others q hq := by simp [OrderedTree.place, OrderedTree.placeKids, hq]
  below _ := OrderedTree.place_below_iff hp hroot hbelow
  subtree _ hm := OrderedTree.place_kids_below hp hroot hbelow hm

/-- **A move that returns false** has changed nothing. -/
theorem ramfsMove_false {node newParent : Option NodeId}
    (h : ramfsMove s node newParent = some (false, s')) : s' = s := by
  cases node with
  | none => simpa [ramfsMove] using h.symm
  | some n =>
    cases newParent with
    | none => simpa [ramfsMove] using h.symm
    | some p =>
      obtain ⟨-, heq, -⟩ | ⟨hfalse, -⟩ := ramfsMove_steps h
      · exact heq
      · cases hfalse

/-- **`ramfs_move` relocates exactly one subtree**, for every node but the root and every new
parent that is not below it, whatever the name of the node and the type of the new parent.  All
fields but the links and the parent field of the node stay.  A move that returns false, in any
state at all, changes nothing. -/
theorem ramfsMove_relocates (h : s.Represents T) (hn : n ∈ T.nodes) (hp : p ∈ T.nodes)
    (hroot : n ≠ T.root) (hbelow : ¬ T.Below n p) :
    (∃ s' T', ramfsMove s (some n) (some p) = some (true, s') ∧ s'.Represents T' ∧
      OrderedTree.Relocated T T' n p ∧
      ∃ children next, s' = { s with
        children := children
        next := next
        parent := Function.update s.parent n (some p) }) ∧
    ∀ s node newParent s', ramfsMove s node newParent = some (false, s') → s' = s := by
  constructor
  · have hne : n ≠ p := by
      rintro rfl
      exact hbelow .refl
    have hfirst : s.children n ≠ some p := fun heq =>
      hbelow (.single (h.kid_of_children hn heq))
    obtain ⟨children, next, hmove, -⟩ := h.wired.move hn hp hroot hne hfirst
    obtain ⟨s', hmove', h'⟩ := ramfsMove_place h hn hp hroot hbelow
    obtain ⟨-, rfl⟩ := Prod.mk.inj (Option.some.inj (hmove.symm.trans hmove'))
    exact ⟨_, _, hmove, h', OrderedTree.place_relocated hn hp hroot hbelow, children, next, rfl⟩
  · intro s node newParent s' hfalse
    exact ramfsMove_false hfalse

/-- Node 2 goes from node 1 to the root, behind node 3. -/
theorem ramfsMove_relocates_example :
    ∃ s', ramfsMove oneNested (some 2) (some 0) = some (true, s') ∧ s'.next 3 = some 2 := by
  obtain ⟨T, h⟩ := oneNested_represents
  have hlive : ∀ n, oneNested.Live n → n ∈ T.nodes := fun n hn => (h.live n).mp hn
  have hroot : T.root = 0 := Option.some.inj (h.root.symm.trans (by decide))
  have hbelow : ¬ T.Below 2 0 := by
    intro hbelow
    rw [← hroot] at hbelow
    exact absurd ((OrderedTree.below_root hbelow).trans hroot) (by decide)
  have hne : 2 ≠ T.root := by
    rw [hroot]
    decide
  obtain ⟨⟨s', T', hmove, h', hrelocated, -⟩, -⟩ :=
    ramfsMove_relocates h (hlive 2 (by decide)) (hlive 0 (by decide)) hne hbelow
  have hkids : T.kids 0 = [1, 3] := h.kids_eq (by decide) ⟨rfl, rfl, rfl⟩
  have hlast : T'.kids 0 = [1, 3, 2] := by
    rw [hrelocated.last, hkids]
    decide
  have hchain := h'.links.chain 0 (hrelocated.nodes ▸ hlive 0 (by decide))
  rw [hlast] at hchain
  exact ⟨s', hmove, hchain.next_eq (p := [1]) (q := [2])⟩

end Bethany
