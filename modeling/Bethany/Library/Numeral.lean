import Mathlib.Data.Nat.Digits.Lemmas
import Mathlib.Tactic.Ring

/-!
# Numerals

Numbers as lists of digits, the most significant one first.

* `value b l`: the number that the digits spell in base `b`;
* `IsNumeral b l`: a canonical numeral, where only the number zero has a leading zero;
* `numeral b n`: the one of `n`; `isNumeral_numeral`, `value_numeral`;
* `numeral_of_lt`, `numeral_of_le`: its digits one by one, as a recursion finds them.
-/

namespace Numeral

variable {b n : ℕ} {l : List ℕ}

/-- The number that the digits spell. -/
def value (b : ℕ) (l : List ℕ) : ℕ := l.foldl (fun n d => n * b + d) 0

theorem value_reverse : value b l.reverse = Nat.ofDigits b l := by
  induction l with
  | nil => rfl
  | cons d l ih =>
    rw [value, List.reverse_cons, List.foldl_append, ← value, ih, Nat.ofDigits_cons]
    simp only [List.foldl_cons, List.foldl_nil]
    ring

/-- A canonical numeral in base `b`. -/
structure IsNumeral (b : ℕ) (l : List ℕ) : Prop where
  ne_nil : l ≠ []
  digit_lt : ∀ d ∈ l, d < b
  leading : l.head? = some 0 → l = [0]

/-- The canonical numeral of `n`. -/
def numeral (b n : ℕ) : List ℕ := if n = 0 then [0] else (Nat.digits b n).reverse

theorem numeral_zero : numeral b 0 = [0] := rfl

theorem numeral_of_pos (hn : 0 < n) : numeral b n = (Nat.digits b n).reverse :=
  if_neg hn.ne'

/-- A numeral of a single digit. -/
theorem numeral_of_lt (hn : n < b) : numeral b n = [n] := by
  rcases n.eq_zero_or_pos with rfl | hpos
  · exact numeral_zero
  · rw [numeral_of_pos hpos, Nat.digits_of_lt b n hpos.ne' hn, List.reverse_singleton]

/-- A numeral of more digits ends with the last one. -/
theorem numeral_of_le (hb : 1 < b) (hn : b ≤ n) : numeral b n = numeral b (n / b) ++ [n % b] := by
  have hpos : 0 < n := by omega
  have hdiv : 0 < n / b := Nat.div_pos hn (by omega)
  rw [numeral_of_pos hpos, numeral_of_pos hdiv, Nat.digits_def' hb hpos, List.reverse_cons]

@[simp] theorem value_numeral : value b (numeral b n) = n := by
  rcases n.eq_zero_or_pos with rfl | hpos
  · simp [numeral_zero, value]
  · rw [numeral_of_pos hpos, value_reverse, Nat.ofDigits_digits]

theorem isNumeral_numeral (hb : 1 < b) : IsNumeral b (numeral b n) := by
  rcases n.eq_zero_or_pos with rfl | hpos
  · refine ⟨by simp [numeral_zero], fun d hd => ?_, fun _ => numeral_zero⟩
    rw [numeral_zero, List.mem_singleton] at hd
    omega
  · have hne : Nat.digits b n ≠ [] := Nat.digits_ne_nil_iff_ne_zero.mpr hpos.ne'
    rw [numeral_of_pos hpos]
    refine ⟨by simpa using hne, fun d hd => ?_, fun hhead => ?_⟩
    · exact Nat.digits_lt_base hb (List.mem_reverse.mp hd)
    · -- the first digit is the last one of `Nat.digits`
      rw [List.head?_reverse, List.getLast?_eq_getLast_of_ne_nil hne, Option.some.injEq] at hhead
      exact absurd hhead (Nat.getLast_digit_ne_zero b hpos.ne')

end Numeral
