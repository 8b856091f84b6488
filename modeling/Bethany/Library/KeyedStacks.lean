import Mathlib.Data.List.Basic
import Mathlib.Logic.Function.Basic
import Mathlib.Tactic.Common

/-!
# A stack for each key, in one list

The entries of all stacks are in one list, the newest first.  `stackOf` takes them apart.

* `stackOf_push`, `stackOf_pop`, `stackOf_clear`: a change to the stack of one key is a change of
  the list, and touches no other stack;
* `exists_mem_stackOf`: the values of the list are those of all stacks.
-/

namespace KeyedStacks

variable {κ α : Type*} [DecidableEq κ] {k : κ} {a : α} {l : List (κ × α)}

/-- The stack of each key. -/
def stackOf (l : List (κ × α)) (k : κ) : List α := (l.filter (·.1 = k)).map Prod.snd

/-- The list without the newest entry of the key. -/
def pop (k : κ) (l : List (κ × α)) : List (κ × α) := l.eraseP (·.1 = k)

/-- The list without the entries of the key. -/
def clear (k : κ) (l : List (κ × α)) : List (κ × α) := l.filter (·.1 ≠ k)

theorem stackOf_push (k : κ) (a : α) (l : List (κ × α)) :
    stackOf ((k, a) :: l) = Function.update (stackOf l) k (a :: stackOf l k) := by
  funext k'
  by_cases hk : k = k'
  · subst hk
    rw [Function.update_self]
    simp [stackOf]
  · rw [Function.update_of_ne (Ne.symm hk)]
    simp [stackOf, hk]

theorem stackOf_pop (k : κ) (l : List (κ × α)) :
    stackOf (pop k l) = Function.update (stackOf l) k (stackOf l k).tail := by
  induction l with
  | nil => exact (Function.update_eq_self k _).symm
  | cons e l ih =>
    obtain ⟨k₁, a⟩ := e
    by_cases hk : k₁ = k
    · subst hk
      have hpop : pop k₁ ((k₁, a) :: l) = l := List.eraseP_cons_of_pos (decide_eq_true rfl)
      rw [hpop, stackOf_push, Function.update_self, List.tail_cons, Function.update_idem,
        Function.update_eq_self]
    · have hpop : pop k ((k₁, a) :: l) = (k₁, a) :: pop k l :=
        List.eraseP_cons_of_neg (by simpa using hk)
      rw [hpop, stackOf_push, ih, stackOf_push, Function.update_of_ne hk,
        Function.update_of_ne (Ne.symm hk), Function.update_comm hk]

theorem stackOf_clear (k : κ) (l : List (κ × α)) :
    stackOf (clear k l) = Function.update (stackOf l) k [] := by
  funext k'
  unfold stackOf clear
  rw [List.filter_filter]
  by_cases hk : k' = k
  · subst hk
    rw [Function.update_self, List.map_eq_nil_iff, List.filter_eq_nil_iff]
    simp
  · rw [Function.update_of_ne hk]
    congr 1
    refine List.filter_congr fun e _ => ?_
    by_cases he : e.1 = k'
    · simp [he, hk]
    · simp [he]

/-- The values of the list are those of all stacks. -/
theorem exists_mem_stackOf : (∃ k, a ∈ stackOf l k) ↔ a ∈ l.map Prod.snd := by
  simp only [stackOf, List.mem_map, List.mem_filter, decide_eq_true_eq]
  constructor
  · rintro ⟨k, e, ⟨he, -⟩, ha⟩
    exact ⟨e, he, ha⟩
  · rintro ⟨e, he, ha⟩
    exact ⟨e.1, e, ⟨he, rfl⟩, ha⟩

end KeyedStacks
