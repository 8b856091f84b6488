import Bethany.Library.Unfolding
import Mathlib.Data.List.Basic

/-!
# Outlines

A forest can be written one node a line, each line with the depth of its node, and the children of
a node one level deeper on the lines after it.  The forest can be read back from such lines.

* `outline`, `outlines`: the lines of a tree, and of a forest;
* `gather`: one line more, in front of the trees that are read already;
* `foldr_gather_outlines`: reading the lines of a forest gives the forest;
* `splitOn_flatMap`, `span_indent`: lines that end with a mark can be told apart, and an indent can
  be told from the text after it.
-/

namespace Outline

open Unfolding

variable {α β : Type*}

mutual

/-- The lines of a tree at the given depth. -/
def outline : (depth : ℕ) → LabelTree β → List (ℕ × β)
  | depth, .node b ts => (depth, b) :: outlines (depth + 1) ts

/-- The lines of trees that are all at the given depth. -/
def outlines : (depth : ℕ) → List (LabelTree β) → List (ℕ × β)
  | _, [] => []
  | depth, t :: ts => outline depth t ++ outlines depth ts

end

variable {depth : ℕ} {t : LabelTree β} {ts us : List (LabelTree β)}
  {rest : List (ℕ × LabelTree β)} {line : ℕ × β}

/-- The trees read from the lines after this one become its children, up to the first that is not
deeper. -/
def gather (line : ℕ × β) (read : List (ℕ × LabelTree β)) : List (ℕ × LabelTree β) :=
  (line.1, .node line.2 ((read.takeWhile fun t => line.1 < t.1).map Prod.snd)) ::
    read.dropWhile fun t => line.1 < t.1

theorem mem_outlines :
    line ∈ outlines depth ts ↔ ∃ t ∈ ts, line ∈ outline depth t := by
  induction ts with
  | nil => simp [outlines]
  | cons t ts ih => simp [outlines, ih]

/-- The lines show the labels of the tree. -/
theorem mem_outline_of_all {P : β → Prop} (h : t.All fun b _ => P b)
    (hline : line ∈ outline depth t) : P line.2 := by
  induction t using LabelTree.induction generalizing depth with
  | node b ts ih =>
    obtain ⟨hb, hts⟩ := LabelTree.all_node.mp h
    rw [outline, List.mem_cons] at hline
    rcases hline with rfl | hline
    · exact hb
    · obtain ⟨t, ht, hline⟩ := mem_outlines.mp hline
      exact ih t ht (hts t ht) hline

/-- The children of a line are the trees one level deeper that follow it at once. -/
theorem gather_map (b : β) (hrest : ∀ x ∈ rest.head?, x.1 ≤ depth) :
    gather (depth, b) (ts.map (fun t => (depth + 1, t)) ++ rest) =
      (depth, .node b ts) :: rest := by
  have hdeeper : ∀ x ∈ ts.map (fun t => (depth + 1, t)), decide (depth < x.1) = true := by
    simp
  have hend : rest.takeWhile (fun x => decide (depth < x.1)) = [] ∧
      rest.dropWhile (fun x => decide (depth < x.1)) = rest := by
    cases rest with
    | nil => simp
    | cons x rest =>
      have hx : ¬ depth < x.1 := Nat.not_lt.mpr (hrest x rfl)
      simp [hx]
  rw [gather, List.takeWhile_append_of_pos hdeeper, List.dropWhile_append_of_pos hdeeper,
    hend.1, hend.2]
  simp [Function.comp_def]

/-- The loop over the trees of a forest, when each tree is read back. -/
theorem foldr_gather_forest
    (hread : ∀ t ∈ ts, ∀ rest : List (ℕ × LabelTree β), (∀ x ∈ rest.head?, x.1 ≤ depth) →
      (outline depth t).foldr gather rest = (depth, t) :: rest)
    (hrest : ∀ x ∈ rest.head?, x.1 ≤ depth) :
    (outlines depth ts).foldr gather rest = ts.map (fun t => (depth, t)) ++ rest := by
  induction ts with
  | nil => simp [outlines]
  | cons t ts ih =>
    rw [outlines, List.foldr_append, ih fun u hu => hread u (List.mem_cons_of_mem t hu)]
    rw [hread t List.mem_cons_self]
    · rfl
    · -- the tree after this one, if any, is at the same depth
      cases ts with
      | nil => simpa using hrest
      | cons u us => simp

theorem foldr_gather_outline (hrest : ∀ x ∈ rest.head?, x.1 ≤ depth) :
    (outline depth t).foldr gather rest = (depth, t) :: rest := by
  induction t using LabelTree.induction generalizing depth rest with
  | node b ts ih =>
    have hrest' : ∀ x ∈ rest.head?, x.1 ≤ depth + 1 := fun x hx =>
      (hrest x hx).trans (Nat.le_succ depth)
    rw [outline, List.foldr_cons, foldr_gather_forest (fun t ht rest h => ih t ht h) hrest']
    exact gather_map b hrest

/-- **A forest is read back from its lines.** -/
theorem foldr_gather_outlines :
    (outlines depth ts).foldr gather [] = ts.map fun t => (depth, t) := by
  rw [foldr_gather_forest (fun t _ rest h => foldr_gather_outline h) (by simp), List.append_nil]

/-- Lines that end with a mark, and do not contain it otherwise. -/
theorem splitOn_flatMap [DecidableEq α] {mark : α} {lines : List (List α)}
    (hlines : ∀ l ∈ lines, mark ∉ l) :
    (lines.flatMap fun l => l ++ [mark]).splitOn mark = lines ++ [[]] := by
  induction lines with
  | nil => simp
  | cons l lines ih =>
    rw [List.flatMap_cons, List.append_assoc, List.singleton_append,
      List.splitOn_append_cons_self_of_not_mem (hlines l List.mem_cons_self),
      ih fun l' hl' => hlines l' (List.mem_cons_of_mem l hl'), List.cons_append]

/-- An indent can be told from what follows it. -/
theorem span_indent [DecidableEq α] {mark : α} {l : List α} (hl : l.head? ≠ some mark) (n : ℕ) :
    (List.replicate n mark ++ l).takeWhile (· = mark) = List.replicate n mark ∧
      (List.replicate n mark ++ l).dropWhile (· = mark) = l := by
  have hmarks : ∀ a ∈ List.replicate n mark, decide (a = mark) = true := by
    simp [List.mem_replicate]
  have hend : l.takeWhile (· = mark) = [] ∧ l.dropWhile (· = mark) = l := by
    cases l with
    | nil => simp
    | cons a l =>
      have ha : a ≠ mark := by simpa using hl
      simp [ha]
  rw [List.takeWhile_append_of_pos hmarks, List.dropWhile_append_of_pos hmarks, hend.1, hend.2]
  exact ⟨List.append_nil _, rfl⟩

end Outline
