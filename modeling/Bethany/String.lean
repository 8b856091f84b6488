import Bethany.Library.Machine

/-!
# Memory and string functions of `string.c`

`memcpy` and `memset` with their byte loops, and the memory they leave behind.  The source
and the destination of a copy are two memories; a caller that copies within one memory
passes it twice and keeps the two ranges apart.  A C string is the list of its bytes before the
terminating zero.
-/

namespace Bethany

open Machine

/-- `memcpy`: `n` bytes from `src` of the memory `s` to `dest` of the memory `d`. -/
def memcpy (d : Mem) (dest : ℕ) (s : Mem) (src n : ℕ) : Mem :=
  (List.range n).foldl (fun d i => Function.update d (dest + i) (s (src + i))) d

/-- `memset`: the loop `while(n--) *p++ = value`. -/
def memset (d : Mem) : (ptr : ℕ) → (value : Byte) → (n : ℕ) → Mem
  | _, _, 0 => d
  | ptr, value, n + 1 => memset (Function.update d ptr value) (ptr + 1) value n

/-- A C string: its bytes up to the terminating zero. -/
structure CString where
  bytes : List Byte
  nonzero : 0 ∉ bytes
  deriving DecidableEq

/-- `strlen` -/
def strlen (str : CString) : ℕ := str.bytes.length

/-- `strcmp`, before its result is turned into a `uint64_t`: the difference of the first two
bytes that differ, where the byte after the last one is zero. -/
def strcmp : List Byte → List Byte → ℤ
  | a :: as, b :: bs => if a ≠ b then a.toInt - b.toInt else strcmp as bs
  | a :: _, [] => a.toInt
  | [], b :: _ => -b.toInt
  | [], [] => 0

/-- `strcmp` gives zero for equal strings only: a string that goes on has no zero to compare with
the end of the other. -/
theorem strcmp_eq_zero_iff (a b : CString) : strcmp a.bytes b.bytes = 0 ↔ a = b := by
  have hzero : ∀ a : Byte, a ≠ 0 → a.toInt ≠ 0 := fun a ha heq =>
    ha (BitVec.toInt_inj.mp (heq.trans BitVec.toInt_zero.symm))
  have hiff : ∀ as bs : List Byte, 0 ∉ as → 0 ∉ bs → (strcmp as bs = 0 ↔ as = bs) := by
    intro as
    induction as with
    | nil =>
      intro bs _ hbs
      cases bs with
      | nil => simp [strcmp]
      | cons b bs =>
        have hb := hzero b fun heq => hbs (heq ▸ List.mem_cons_self)
        simp [strcmp, hb]
    | cons a as ih =>
      intro bs has hbs
      have ha := hzero a fun heq => has (heq ▸ List.mem_cons_self)
      cases bs with
      | nil => simp [strcmp, ha]
      | cons b bs =>
        simp only [strcmp]
        by_cases hab : a = b
        · subst hab
          rw [if_neg (not_not_intro rfl), ih bs (fun h => has (List.mem_cons_of_mem a h))
            (fun h => hbs (List.mem_cons_of_mem a h))]
          simp
        · have hne : a.toInt ≠ b.toInt := fun heq => hab (BitVec.toInt_inj.mp heq)
          simp [hab, sub_eq_zero, hne]
  rw [hiff a.bytes b.bytes a.nonzero b.nonzero]
  constructor
  · intro h
    cases a
    cases b
    simpa using h
  · rintro rfl
    rfl

theorem memcpy_apply (d : Mem) (dest : ℕ) (s : Mem) (src n a : ℕ) :
    memcpy d dest s src n a = if dest ≤ a ∧ a < dest + n then s (src + (a - dest)) else d a := by
  induction n with
  | zero => exact (if_neg (by omega)).symm
  | succ n ih =>
    rw [memcpy, List.range_succ, List.foldl_append, List.foldl_cons, List.foldl_nil]
    by_cases ha : a = dest + n
    · rw [ha, Function.update_self, if_pos (by omega), Nat.add_sub_cancel_left]
    · rw [Function.update_of_ne ha]
      apply ih.trans
      congr 1
      rw [eq_iff_iff]
      omega

theorem memset_apply (d : Mem) (ptr : ℕ) (value : Byte) (n a : ℕ) :
    memset d ptr value n a = if ptr ≤ a ∧ a < ptr + n then value else d a := by
  induction n generalizing d ptr with
  | zero => exact (if_neg (by omega)).symm
  | succ n ih =>
    rw [memset, ih, Function.update_apply]
    split_ifs <;> first | rfl | omega

end Bethany
