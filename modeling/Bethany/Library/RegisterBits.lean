import Mathlib.Data.BitVec

/-!
# Device registers

A bit of a device register takes the value that is written, or is cleared when a one is written,
or cannot be written.

* `Register w`: the first two kinds of bits, as masks;
* `Register.write r old new`: what a write of `new` makes of `old`;
* `Register.field`, `Register.extract_write`: a write acts on each field by itself;
* `Register.write_plain`: plain bits take the new value;
* `Register.write_self_iff`: a register that is written back as it was read is the same exactly if
  no bit was set that a one clears.
-/

namespace RegisterBits

variable {w k n : ℕ}

/-- The bits that take the value written, and the bits that a one clears. -/
structure Register (w : ℕ) where
  plain : BitVec w
  clear : BitVec w
  disjoint : plain &&& clear = 0

namespace Register

/-- A register of plain bits. -/
def storage (w : ℕ) : Register w := ⟨BitVec.allOnes w, 0, by simp⟩

def write (r : Register w) (old new : BitVec w) : BitVec w :=
  (new &&& r.plain) ||| (old &&& ~~~r.plain &&& ~~~(new &&& r.clear))

/-- The bits from bit `k` on. -/
def field (r : Register w) (k n : ℕ) : Register n where
  plain := r.plain.extractLsb' k n
  clear := r.clear.extractLsb' k n
  disjoint := by
    have hdisjoint := congrArg (BitVec.extractLsb' k n) r.disjoint
    rw [BitVec.extractLsb'_and] at hdisjoint
    simpa using hdisjoint

variable {r : Register w} {old new : BitVec w}

/-- A write acts on each field by itself. -/
theorem extract_write :
    (r.write old new).extractLsb' k n =
      (r.field k n).write (old.extractLsb' k n) (new.extractLsb' k n) := by
  apply BitVec.eq_of_getLsbD_eq
  intro i hi
  by_cases hlt : k + i < w
  · simp [write, field, hi, hlt]
  · simp [write, field, hi, BitVec.getLsbD_of_ge old (k + i) (Nat.not_lt.mp hlt)]

/-- Plain bits take the value written. -/
theorem write_plain (hplain : r.plain = BitVec.allOnes w) : r.write old new = new := by
  simp [write, hplain]

theorem clear_of_plain {i : ℕ} (hi : i < w) (hplain : r.plain[i] = true) : r.clear[i] = false := by
  have hbit : (r.plain &&& r.clear)[i] = false := by simp [r.disjoint]
  simpa [hplain] using hbit

/-- Writing a register back as it was read clears the bits that a one clears. -/
theorem write_self : r.write old old = old &&& ~~~r.clear := by
  ext i hi
  cases hplain : r.plain[i]
  · cases hold : old[i] <;> simp [write, hplain, hold]
  · simp [write, hplain, clear_of_plain hi hplain]

theorem and_not_eq_self_iff (x y : BitVec w) : x &&& ~~~y = x ↔ x &&& y = 0 := by
  constructor
  · intro heq
    rw [← heq, BitVec.and_assoc, BitVec.and_comm (~~~y), BitVec.and_not_self]
    exact BitVec.and_zero
  · intro hzero
    ext i hi
    have hbit : (x[i] && y[i]) = false := by rw [← BitVec.getElem_and, hzero]; simp
    cases hx : x[i]
    · simp [hx]
    · simpa [hx] using hbit

/-- It is the same exactly if none of them was set. -/
theorem write_self_iff : r.write old old = old ↔ old &&& r.clear = 0 := by
  rw [write_self, and_not_eq_self_iff]

end Register

/-! ### Fields that are read by shifts and masks -/

/-- A shift and a mask of ones select a field. -/
theorem setWidth_shiftRight_and {x mask : BitVec w} (hmask : mask.setWidth n = BitVec.allOnes n) :
    ((x >>> k) &&& mask).setWidth n = x.extractLsb' k n := by
  apply BitVec.eq_of_getLsbD_eq
  intro i hi
  have hbit := congrArg (fun y => y.getLsbD i) hmask
  simp only [BitVec.getLsbD_setWidth, BitVec.getLsbD_allOnes, hi, decide_true,
    Bool.true_and] at hbit
  simp [hi, hbit]

/-! ### Fields that are written through the whole register -/

/-- A register's value with `x` in the bits from bit `k` on. -/
def insert (k : ℕ) (old : BitVec w) (x : BitVec n) : BitVec w :=
  (old &&& ~~~((BitVec.allOnes n).setWidth w <<< k)) ||| (x.setWidth w <<< k)

variable {old : BitVec w} {x : BitVec n} {i m : ℕ}

theorem getLsbD_insert (hi : i < w) :
    (insert k old x).getLsbD i =
      if k ≤ i ∧ i < k + n then x.getLsbD (i - k) else old.getLsbD i := by
  rw [insert]
  rcases lt_or_ge i k with hlt | hge
  · simp [hi, hlt]
  · rcases lt_or_ge i (k + n) with hlt | hge'
    · have hn : i - k < n := by omega
      simp [hi, hge, Nat.not_lt.mpr hge, hlt, hn]
    · have hn : n ≤ i - k := by omega
      simp [hi, hge, hge', hn]

/-- The field itself. -/
theorem extract_insert (hw : k + n ≤ w) : (insert k old x).extractLsb' k n = x := by
  apply BitVec.eq_of_getLsbD_eq
  intro i hi
  rw [BitVec.getLsbD_extractLsb', getLsbD_insert (by omega), if_pos (by omega)]
  simp [hi]

/-- Another field. -/
theorem extract_insert_of_disjoint (hdisjoint : i + m ≤ k ∨ k + n ≤ i) (hw : i + m ≤ w) :
    (insert k old x).extractLsb' i m = old.extractLsb' i m := by
  apply BitVec.eq_of_getLsbD_eq
  intro j hj
  rw [BitVec.getLsbD_extractLsb', BitVec.getLsbD_extractLsb', getLsbD_insert (by omega),
    if_neg (by omega)]

/-- **A field written through the whole register.**  Another field stays the same exactly if none
of its bits was set that a one clears. -/
theorem Register.write_insert_iff (r : Register w) (hdisjoint : i + m ≤ k ∨ k + n ≤ i)
    (hw : i + m ≤ w) :
    (r.write old (insert k old x)).extractLsb' i m = old.extractLsb' i m ↔
      old.extractLsb' i m &&& r.clear.extractLsb' i m = 0 := by
  rw [extract_write, extract_insert_of_disjoint hdisjoint hw]
  exact write_self_iff

end RegisterBits
