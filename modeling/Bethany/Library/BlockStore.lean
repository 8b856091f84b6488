import Mathlib.Data.List.Forall2
import Mathlib.Logic.Function.Basic
import Mathlib.Data.List.Pairwise
import Mathlib.Tactic.Common

/-!
# Blocks in a memory

A store of blocks is a list of lists of cells.  A memory holds the store when each block has a
place of its own there, its cells one after the other.

* `Cells mem a xs`: the cells from `a` on are `xs`;
* `Placed mem places blocks`: each block is at its place, the newest first, and the places go up;
* `Placed.push`: a new block above all others;
* `Placed.set`: a write to one block is seen in this one only.
-/

namespace BlockStore

variable {α : Type*} {mem mem' : ℕ → α} {a n : ℕ} {place : ℕ × ℕ} {places : List (ℕ × ℕ)}
  {xs : List α} {blocks : List (List α)} {k i : ℕ} {x : α}

/-- The cells from `a` on are `xs`. -/
def Cells (mem : ℕ → α) (a : ℕ) (xs : List α) : Prop :=
  ∀ i x, xs[i]? = some x → mem (a + i) = x

/-- The block at a place, which is an address and a length. -/
def At (mem : ℕ → α) (place : ℕ × ℕ) (xs : List α) : Prop :=
  xs.length = place.2 ∧ Cells mem place.1 xs

/-- Each block is at its place; the newest block comes first and is above all others. -/
structure Placed (mem : ℕ → α) (places : List (ℕ × ℕ)) (blocks : List (List α)) : Prop where
  at_place : List.Forall₂ (At mem) places blocks
  apart : places.Pairwise fun p q => q.1 + q.2 ≤ p.1

theorem At.congr (h : At mem place xs)
    (heq : ∀ i < place.2, mem' (place.1 + i) = mem (place.1 + i)) : At mem' place xs := by
  refine ⟨h.1, fun i x hx => ?_⟩
  obtain ⟨hi, -⟩ := List.getElem?_eq_some_iff.mp hx
  rw [heq i (h.1 ▸ hi)]
  exact h.2 i x hx

theorem At.set (h : At mem place xs) (hi : i < place.2) :
    At (Function.update mem (place.1 + i) x) place (xs.set i x) := by
  refine ⟨by rw [List.length_set, h.1], fun j y hy => ?_⟩
  rw [List.getElem?_set] at hy
  rcases eq_or_ne i j with rfl | hne
  · rw [if_pos rfl, if_pos (h.1 ▸ hi)] at hy
    rw [Function.update_self, Option.some.inj hy]
  · rw [if_neg hne] at hy
    rw [Function.update_of_ne (fun heq => hne (Nat.add_left_cancel heq).symm)]
    exact h.2 j y hy

/-- The block that is at a place. -/
def cells (mem : ℕ → α) (place : ℕ × ℕ) : List α :=
  (List.range place.2).map fun i => mem (place.1 + i)

theorem at_cells (mem : ℕ → α) (place : ℕ × ℕ) : At mem place (cells mem place) := by
  refine ⟨by simp [cells], fun i x hx => ?_⟩
  obtain ⟨hi, rfl⟩ := List.getElem?_eq_some_iff.mp hx
  simp [cells]

namespace Placed

theorem nil (mem : ℕ → α) : Placed mem [] [] := ⟨.nil, .nil⟩

/-- The memory changes outside of the blocks. -/
theorem congr (h : Placed mem places blocks)
    (heq : ∀ p ∈ places, ∀ i < p.2, mem' (p.1 + i) = mem (p.1 + i)) :
    Placed mem' places blocks := by
  refine ⟨?_, h.apart⟩
  have hat := h.at_place
  clear h
  induction hat with
  | nil => exact .nil
  | cons hhead _ ih =>
    refine .cons (hhead.congr (heq _ List.mem_cons_self)) (ih fun p hp => ?_)
    exact heq p (List.mem_cons_of_mem _ hp)

/-- A new block above all others. -/
theorem push (h : Placed mem places blocks) (hnew : ∀ p ∈ places, p.1 + p.2 ≤ place.1)
    (hat : At mem place xs) : Placed mem (place :: places) (xs :: blocks) :=
  ⟨.cons hat h.at_place, List.pairwise_cons.mpr ⟨hnew, h.apart⟩⟩

/-- A write to one block is seen in this one only. -/
theorem set (h : Placed mem places blocks) (hk : places[k]? = some place) (hi : i < place.2) :
    Placed (Function.update mem (place.1 + i) x) places
      (blocks.modify k fun xs => xs.set i x) := by
  induction k generalizing places blocks with
  | zero =>
    obtain ⟨hat, hpairs⟩ := h
    cases hat with
    | nil => exact nomatch hk
    | @cons p _ ps _ hhead htail =>
      obtain rfl : p = place := Option.some.inj hk
      obtain ⟨hbelow, hrest⟩ := List.pairwise_cons.mp hpairs
      have hother : Placed (Function.update mem (p.1 + i) x) ps _ :=
        Placed.congr ⟨htail, hrest⟩ fun q hq j hj => by
          have hle := hbelow q hq
          exact Function.update_of_ne (by omega) _ _
      exact hother.push hbelow (hhead.set hi)
  | succ k ih =>
    obtain ⟨hat, hpairs⟩ := h
    cases hat with
    | nil => exact nomatch hk
    | cons hhead htail =>
      obtain ⟨hbelow, hrest⟩ := List.pairwise_cons.mp hpairs
      have hlow := hbelow place (List.mem_of_getElem? hk)
      have hother := ih ⟨htail, hrest⟩ hk
      refine hother.push hbelow (hhead.congr fun j _ => Function.update_of_ne (by omega) _ _)

/-- What a cell of the memory holds that belongs to a block. -/
theorem read (h : Placed mem places blocks) (hk : places[k]? = some place)
    (hxs : blocks[k]? = some xs) (hi : i < place.2) : xs[i]? = some (mem (place.1 + i)) := by
  induction k generalizing places blocks with
  | zero =>
    cases h.at_place with
    | nil => exact nomatch hk
    | @cons p ys _ _ hhead _ =>
      obtain rfl : p = place := Option.some.inj hk
      obtain rfl : ys = xs := Option.some.inj hxs
      have hlt : i < ys.length := hhead.1 ▸ hi
      rw [List.getElem?_eq_getElem hlt, hhead.2 i _ (List.getElem?_eq_getElem hlt)]
  | succ k ih =>
    obtain ⟨hat, hpairs⟩ := h
    cases hat with
    | nil => exact nomatch hk
    | cons _ htail => exact ih ⟨htail, hpairs.of_cons⟩ hk hxs

end Placed

end BlockStore
