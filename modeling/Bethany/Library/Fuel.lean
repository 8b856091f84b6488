import Mathlib.Order.Filter.AtTopBot.Basic

/-!
# Recursions with a bound

A recursion that need not end is modelled by its results for each bound on its depth.  It ends
with a result when every bound that is large enough gives this result.

* `Ends f a`: from some bound on, the result is `a`;
* `Ends.unique`, `ends_succ`, `Ends.map`, `Ends.bind`: a call ends with one result, one more level
  of the recursion does not matter, and calls can follow each other;
* `Steady f`: a larger bound keeps the result; `Steady.ends`: then one result is enough;
* `eq_none_of_progress`: a call that needs a deeper call of its kind does not end.
-/

namespace Fuel

open Filter

variable {α β : Type*} {f f' : ℕ → α} {a b : α}

/-- From some bound on the result is `a`. -/
def Ends (f : ℕ → α) (a : α) : Prop := ∀ᶠ fuel in atTop, f fuel = a

theorem Ends.unique (h : Ends f a) (h' : Ends f b) : a = b := by
  obtain ⟨fuel, ha, hb⟩ := (Eventually.and h h').exists
  exact ha.symm.trans hb

theorem ends_const (a : α) : Ends (fun _ => a) a := Eventually.of_forall fun _ => rfl

/-- One more level of the recursion does not matter. -/
theorem ends_succ : Ends (fun fuel => f (fuel + 1)) a ↔ Ends f a := by
  unfold Ends
  rw [← eventually_map (P := fun x => f x = a), map_add_atTop_eq_nat]

/-- Recursions that agree for all bounds end alike. -/
theorem Ends.congr (h : Ends f a) (hcongr : ∀ fuel, f' fuel = f fuel) : Ends f' a :=
  Eventually.mono h fun fuel heq => (hcongr fuel).trans heq

/-- A call that ends, and then a computation without a bound. -/
theorem Ends.map (h : Ends f a) (g : α → β) : Ends (fun fuel => g (f fuel)) (g a) :=
  Eventually.mono h fun _ heq => congrArg g heq

/-- A call that ends, and then another. -/
theorem Ends.bind {f : ℕ → Option α} {g : ℕ → α → Option β} {r : Option β}
    (h : Ends f (some a)) (hg : Ends (fun fuel => g fuel a) r) :
    Ends (fun fuel => (f fuel).bind (g fuel)) r := by
  filter_upwards [h, hg] with fuel hf hg
  rw [hf, Option.bind_some, hg]

/-- A call that makes another call, and then a computation without a bound. -/
theorem Ends.of_bind {f : ℕ → Option β} {g : ℕ → Option α} {k : α → β} (h : Ends g (some a))
    (heq : ∀ fuel, f (fuel + 1) = (g fuel).bind fun x => some (k x)) : Ends f (some (k a)) := by
  rw [← ends_succ]
  exact (h.map fun x => x.bind fun x => some (k x)).congr heq

/-- A call that does not return, whatever would follow. -/
theorem Ends.bind_none {f : ℕ → Option α} {g : ℕ → α → Option β} (h : Ends f none) :
    Ends (fun fuel => (f fuel).bind (g fuel)) none := by
  filter_upwards [h] with fuel hf
  rw [hf, Option.bind_none]

/-- A call that ends in any way, and then another if it returns. -/
theorem Ends.bind_ends {f : ℕ → Option α} {g : ℕ → α → Option β} {r : Option α}
    {k : α → Option β} (h : Ends f r)
    (hg : ∀ a, r = some a → Ends (fun fuel => g fuel a) (k a)) :
    Ends (fun fuel => (f fuel).bind (g fuel)) (r.bind k) := by
  cases r with
  | none => exact h.bind_none
  | some a => exact h.bind (hg a rfl)

/-- A larger bound keeps the result. -/
def Steady (f : ℕ → Option α) : Prop := ∀ fuel a, f fuel = some a → f (fuel + 1) = some a

theorem Steady.ends {f : ℕ → Option α} (h : Steady f) {fuel : ℕ} (hf : f fuel = some a) :
    Ends f (some a) := by
  refine eventually_atTop.mpr ⟨fuel, fun fuel' hle => ?_⟩
  induction fuel', hle using Nat.le_induction with
  | base => exact hf
  | succ fuel' _ ih => exact h fuel' a ih

/-- Calls that each need another one, with a smaller bound, do not end. -/
theorem eq_none_of_progress {σ : Type*} {f : σ → ℕ → Option α} {I : σ → Prop}
    (hstep : ∀ s, I s → ∀ fuel a, f s fuel = some a →
      ∃ s', I s' ∧ ∃ fuel' < fuel, ∃ a', f s' fuel' = some a')
    {s : σ} (hs : I s) (fuel : ℕ) : f s fuel = none := by
  induction fuel using Nat.strong_induction_on generalizing s with
  | _ fuel ih =>
    cases hf : f s fuel with
    | none => rfl
    | some a =>
      obtain ⟨s', hs', fuel', hlt, a', hf'⟩ := hstep s hs fuel a hf
      rw [ih fuel' hlt hs'] at hf'
      simp at hf'

end Fuel
