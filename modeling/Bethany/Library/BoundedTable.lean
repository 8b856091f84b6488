import Mathlib.Tactic

/-!
# Tables of bounded size

A table takes entries at its end as long as it has room, and later ones are dropped.

* `push cap t x`: one entry; `take_succ_set`: the same in an array with a counter;
* `foldl_push_if`: a loop that pushes an entry for some of the elements it goes through leaves the
  first entries that there are to push;
* `IsFirst p l i`, `find?_range_eq_some_iff`, `find?_range_eq_none_iff`: a search from the first
  entry on.
-/

namespace BoundedTable

variable {α β : Type*} {cap : ℕ} {t : List β}

/-- An entry at the end, if there is room. -/
def push (cap : ℕ) (t : List β) (x : β) : List β := if t.length < cap then t ++ [x] else t

/-- An entry stored behind the ones that are there. -/
theorem take_succ_set {i : ℕ} (hi : i < t.length) (x : β) :
    (t.set i x).take (i + 1) = t.take i ++ [x] := by
  have hlen : i < (t.set i x).length := by simpa using hi
  rw [List.take_succ_eq_append_getElem hlen, List.take_set_of_le le_rfl, List.getElem_set_self]

/-- A table that holds the first entries of a list, and one entry more. -/
theorem push_take (l : List β) (x : β) : push cap (l.take cap) x = (l ++ [x]).take cap := by
  rw [push, List.length_take]
  split_ifs with hlt
  · have hlen : l.length < cap := by omega
    rw [List.take_of_length_le hlen.le, List.take_of_length_le (by simpa using hlen)]
  · have hlen : cap ≤ l.length := by omega
    rw [List.take_append_of_le_length hlen]

/-- **A loop that fills a table.** -/
theorem foldl_push_if (cap : ℕ) (p : α → Prop) [DecidablePred p] (g : α → β) (l : List β)
    (xs : List α) :
    xs.foldl (fun t x => if p x then push cap t (g x) else t) (l.take cap) =
      (l ++ (xs.filter p).map g).take cap := by
  induction xs generalizing l with
  | nil => simp
  | cons x xs ih =>
    rw [List.foldl_cons]
    split_ifs with hp
    · rw [push_take, ih]
      simp [hp]
    · rw [ih]
      simp [hp]

/-! ### Searches -/

/-- The first element with the property is at `i`. -/
def IsFirst (p : β → Prop) (l : List β) (i : ℕ) : Prop :=
  (∃ x, l[i]? = some x ∧ p x) ∧ ∀ j < i, ∀ x, l[j]? = some x → ¬ p x

/-- A loop over the places of a table that stops at the first entry with the property. -/
theorem find?_range_eq_some_iff (p : β → Prop) [DecidablePred p] {i : ℕ} :
    (List.range t.length).find? (fun i => t[i]?.any fun x => p x) = some i ↔ IsFirst p t i := by
  rw [List.find?_range_eq_some, IsFirst]
  simp only [Option.any_eq_true, decide_eq_true_eq, List.mem_range]
  constructor
  · rintro ⟨⟨x, hx, hp⟩, -, hbefore⟩
    refine ⟨⟨x, hx, hp⟩, fun j hj y hy hpy => ?_⟩
    have := hbefore j hj
    simp [hy, hpy] at this
  · rintro ⟨⟨x, hx, hp⟩, hbefore⟩
    obtain ⟨hlt, -⟩ := List.getElem?_eq_some_iff.mp hx
    refine ⟨⟨x, hx, hp⟩, hlt, fun j hj => ?_⟩
    have hlt' : j < t.length := hj.trans hlt
    simpa [hlt'] using hbefore j hj t[j] (List.getElem?_eq_getElem hlt')

theorem find?_range_eq_none_iff (p : β → Prop) [DecidablePred p] :
    (List.range t.length).find? (fun i => t[i]?.any fun x => p x) = none ↔ ∀ x ∈ t, ¬ p x := by
  rw [List.find?_range_eq_none, List.forall_mem_iff_getElem]
  refine forall₂_congr fun i hlt => ?_
  simp [hlt]

/-- The entry at which the loop stops. -/
theorem find?_range_bind (p : β → Prop) [DecidablePred p] (t : List β) :
    (((List.range t.length).find? fun i => t[i]?.any fun x => p x).bind fun i => t[i]?) =
      t.find? fun x => p x := by
  cases h : (List.range t.length).find? fun i => t[i]?.any fun x => p x with
  | none =>
    have hnone := (find?_range_eq_none_iff p).mp h
    rw [Option.bind_none, eq_comm, List.find?_eq_none]
    simpa using hnone
  | some i =>
    obtain ⟨⟨x, hx, hp⟩, hbefore⟩ := (find?_range_eq_some_iff p).mp h
    obtain ⟨hlt, rfl⟩ := List.getElem?_eq_some_iff.mp hx
    rw [Option.bind_some, hx, eq_comm, List.find?_eq_some_iff_getElem]
    refine ⟨by simpa using hp, i, hlt, rfl, fun j hj => ?_⟩
    simpa using hbefore j hj _ (List.getElem?_eq_getElem (hj.trans hlt))

end BoundedTable
