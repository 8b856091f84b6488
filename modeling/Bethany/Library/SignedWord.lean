import Mathlib.Tactic

/-!
# Signed 64-bit arithmetic

The value of a signed word is an integer.  An operation whose exact result does not fit has no
result, and neither has a division by zero.

* `Fits v`, `int64 v`: the exact result `v`, if it fits; `int64_bind_eq_some_iff`: what goes on
  with it;
* `div a b`, `mod a b`: division that rounds towards zero, and its remainder;
* `uint64 v`: the value of `v` after a conversion to an unsigned word;
* `mod_adjusted`, `div_adjusted`: for a positive divisor, the quotient and the remainder of the
  division that rounds down, by the usual correction of a negative remainder.
-/

namespace SignedWord

/-- The value of some signed word. -/
def Fits (v : ℤ) : Prop := -2 ^ 63 ≤ v ∧ v < 2 ^ 63

instance : DecidablePred Fits := fun v => inferInstanceAs (Decidable (-2 ^ 63 ≤ v ∧ v < 2 ^ 63))

/-- The exact result `v`, if it fits into a signed word. -/
def int64 (v : ℤ) : Option ℤ := if Fits v then some v else none

/-- `a / b`. -/
def div (a b : ℤ) : Option ℤ := if b = 0 then none else int64 (a.tdiv b)

/-- `a % b`, which is undefined where `a / b` is. -/
def mod (a b : ℤ) : Option ℤ := (div a b).map fun _ => a.tmod b

/-- The conversion to an unsigned word. -/
def uint64 (v : ℤ) : ℕ := (v % 2 ^ 64).toNat

variable {a b v u : ℤ}

theorem int64_of_fits (h : Fits v) : int64 v = some v := if_pos h

/-- A computation that goes on with a number that fits. -/
theorem int64_bind_eq_some_iff {β : Type} {f : ℤ → Option β} {b : β} :
    (int64 v >>= f) = some b ↔ Fits v ∧ f v = some b := by
  unfold int64
  split_ifs with h
  · simp [h]
  · simp [h]

theorem uint64_of_nonneg (h0 : 0 ≤ v) (h : Fits v) : (uint64 v : ℤ) = v := by
  unfold Fits at h
  unfold uint64
  omega

/-- A division by a positive number does not overflow. -/
theorem div_of_pos (hb : 0 < b) (ha : Fits a) : div a b = some (a.tdiv b) := by
  have hle : (a.tdiv b).natAbs ≤ a.natAbs := Int.natAbs_tdiv_le_natAbs a b
  have hsign : a < 0 → a.tdiv b ≤ 0 := by
    intro hneg
    rw [← Int.neg_neg a, Int.neg_tdiv]
    exact Int.neg_nonpos_of_nonneg (Int.tdiv_nonneg (by omega) hb.le)
  unfold Fits at ha
  rw [div, if_neg hb.ne']
  apply int64_of_fits
  unfold Fits
  omega

/-- The remainder of the division that rounds down. -/
theorem mod_adjusted (hb : 0 < b) : (if a.tmod b < 0 then a.tmod b + b else a.tmod b) = a % b := by
  have hrange := Int.emod_lt_of_pos a hb
  have hnonneg := Int.emod_nonneg a hb.ne'
  rw [Int.tmod_eq_emod]
  split_ifs with h <;> omega

/-- The quotient of the division that rounds down. -/
theorem div_adjusted (hb : 0 < b) :
    (if a.tmod b < 0 then a.tdiv b - 1 else a.tdiv b) = a / b := by
  have htrunc := Int.mul_tdiv_add_tmod a b
  have hfloor := Int.mul_ediv_add_emod a b
  have hmod := mod_adjusted (a := a) hb
  apply Int.eq_of_mul_eq_mul_left hb.ne'
  split_ifs at hmod ⊢
  · linarith [Int.mul_sub b (a.tdiv b) 1]
  · linarith

theorem Fits.ediv (ha : Fits a) (hb : 0 < b) : Fits (a / b) := by
  have hself := Int.mul_ediv_add_emod a b
  obtain ⟨hlo, hhi⟩ := ha
  constructor
  · exact Int.le_ediv_of_mul_le hb (by nlinarith)
  · exact Int.ediv_lt_of_lt_mul hb (by nlinarith)

theorem Fits.emod (hb : Fits b) (hpos : 0 < b) (a : ℤ) : Fits (a % b) := by
  have hlt := Int.emod_lt_of_pos a hpos
  have hnonneg := Int.emod_nonneg a hpos.ne'
  unfold Fits at *
  omega

end SignedWord
