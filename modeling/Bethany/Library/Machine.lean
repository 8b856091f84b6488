import Mathlib.Tactic

/-!
# Machine words and byte-addressed memories

Machine integers are natural numbers; arithmetic that can leave the range of a 64-bit
register is cut back by `u64`.  A memory is a total function from addresses to bytes.  A
word of `n` bytes is read and written little-endian, as a natural number below `256 ^ n`.

* `u64 x`: `x` modulo `2 ^ 64`;
* `and_highBits`: a number with its low bits cleared;
* `load m a n`, `store m a n v`: an `n`-byte word at address `a`;
* `fill m a n b`: `n` equal bytes, as `memset` leaves them;
* `load_store_same`, `load_store_disjoint`: the read-over-write laws;
* `load_congr`: a load depends only on the bytes it covers.
-/

namespace Machine

/-- The value of a 64-bit register after an operation whose exact result is `x`. -/
def u64 (x : ℕ) : ℕ := x % 2 ^ 64

theorem u64_of_lt {x : ℕ} (h : x < 2 ^ 64) : u64 x = x := Nat.mod_eq_of_lt h

/-- The bits of a 64-bit number from bit `k` on. -/
theorem and_highBits {x k : ℕ} (hk : k ≤ 64) (hx : x < 2 ^ 64) :
    x &&& (2 ^ 64 - 2 ^ k) = x / 2 ^ k * 2 ^ k := by
  have hmask : 2 ^ 64 - 2 ^ k = (2 ^ (64 - k) - 1) <<< k := by
    rw [Nat.shiftLeft_eq, Nat.sub_mul, ← pow_add, Nat.sub_add_cancel hk, Nat.one_mul]
  apply Nat.eq_of_testBit_eq
  intro i
  rw [hmask, ← Nat.shiftRight_eq_div_pow, ← Nat.shiftLeft_eq, Nat.testBit_and,
    Nat.testBit_shiftLeft, Nat.testBit_shiftLeft, Nat.testBit_two_pow_sub_one,
    Nat.testBit_shiftRight]
  by_cases hi : k ≤ i
  · rw [Nat.add_sub_cancel' hi]
    by_cases hlt : i < 64
    · simp [hi, show i - k < 64 - k by omega]
    · rw [Nat.testBit_lt_two_pow (lt_of_lt_of_le hx (Nat.pow_le_pow_right (by norm_num)
        (Nat.le_of_not_lt hlt)))]
      simp
  · simp [hi]

/-- A byte. -/
abbrev Byte := BitVec 8

theorem getLsbD_one_shiftLeft {i j : ℕ} (hj : j < 8) :
    (1#8 <<< i).getLsbD j = decide (j = i) := by
  rw [BitVec.getLsbD_shiftLeft, BitVec.getLsbD_one, Bool.eq_iff_iff]
  simp
  omega

/-- A memory: the byte at each address. -/
abbrev Mem := ℕ → Byte

/-- The `n` bytes from `a` on, read as a little-endian number. -/
def load (m : Mem) (a : ℕ) : ℕ → ℕ
  | 0 => 0
  | n + 1 => (m a).toNat + 256 * load m (a + 1) n

/-- Write the low `n` bytes of `v` at `a`, least significant byte first. -/
def store (m : Mem) (a n v : ℕ) : Mem := fun b =>
  if a ≤ b ∧ b < a + n then BitVec.ofNat 8 (v / 256 ^ (b - a)) else m b

/-- `n` copies of the byte `x` from `a` on. -/
def fill (m : Mem) (a n : ℕ) (x : Byte) : Mem := fun b =>
  if a ≤ b ∧ b < a + n then x else m b

variable {m m' : Mem} {a b n k v : ℕ}

/-- A load depends only on the bytes it covers. -/
theorem load_congr (h : ∀ i < n, m' (a + i) = m (a + i)) : load m' a n = load m a n := by
  induction n generalizing a with
  | zero => rfl
  | succ n ih =>
    have h0 : m' a = m a := h 0 (by omega)
    have hr : load m' (a + 1) n = load m (a + 1) n := ih fun i hi => by
      have := h (i + 1) (by omega)
      rwa [show a + (i + 1) = a + 1 + i by omega] at this
    rw [load, load, h0, hr]

/-- Bytes that are the digits of `v` load as `v`, cut to the width read. -/
theorem load_of_digits (h : ∀ i < n, (m (a + i)).toNat = v / 256 ^ i % 256) :
    load m a n = v % 256 ^ n := by
  induction n generalizing a v with
  | zero => rw [load, pow_zero, Nat.mod_one]
  | succ n ih =>
    have h0 : (m a).toNat = v % 256 := by simpa using h 0 (by omega)
    have hr : load m (a + 1) n = v / 256 % 256 ^ n := ih fun i hi => by
      have := h (i + 1) (by omega)
      rwa [show a + (i + 1) = a + 1 + i by omega, pow_succ', ← Nat.div_div_eq_div_mul] at this
    rw [load, h0, hr, pow_succ', Nat.mod_mul]

theorem load_store_same (m : Mem) (a n v : ℕ) : load (store m a n v) a n = v % 256 ^ n := by
  apply load_of_digits
  intro i hi
  rw [store, if_pos (by omega), BitVec.toNat_ofNat, show a + i - a = i by omega]

theorem load_store_disjoint (h : a + n ≤ b ∨ b + k ≤ a) :
    load (store m a n v) b k = load m b k :=
  load_congr fun i hi => if_neg (by omega)

theorem load_fill_disjoint (x : Byte) (h : a + n ≤ b ∨ b + k ≤ a) :
    load (fill m a n x) b k = load m b k :=
  load_congr fun i hi => if_neg (by omega)

/-- Every word inside a zero-filled range reads as zero. -/
theorem load_fill_zero (hl : a ≤ b) (hu : b + k ≤ a + n) : load (fill m a n 0) b k = 0 := by
  have h : ∀ i < k, (fill m a n 0 (b + i)).toNat = 0 / 256 ^ i % 256 := fun i hi => by
    rw [fill, if_pos (by omega)]
    simp
  rw [load_of_digits h, Nat.zero_mod]

/-- The digits of a word are its bytes. -/
theorem load_digit {i : ℕ} (hi : i < n) : load m a n / 256 ^ i % 256 = (m (a + i)).toNat := by
  induction n generalizing a i with
  | zero => omega
  | succ n ih =>
    have hlt : (m a).toNat < 256 := (m a).isLt
    rw [load]
    cases i with
    | zero => simp [Nat.mod_eq_of_lt hlt]
    | succ i =>
      have hdiv : ((m a).toNat + 256 * load m (a + 1) n) / 256 = load m (a + 1) n := by omega
      rw [pow_succ', ← Nat.div_div_eq_div_mul, hdiv, ih (by omega), Nat.add_right_comm,
        Nat.add_assoc]

/-- Writing a word back changes nothing. -/
theorem store_load (m : Mem) (a n : ℕ) : store m a n (load m a n) = m := by
  funext b
  unfold store
  split_ifs with h
  · obtain ⟨i, rfl⟩ := Nat.exists_eq_add_of_le h.1
    have hdigit := load_digit (m := m) (a := a) (show i < n by omega)
    apply BitVec.eq_of_toNat_eq
    rw [Nat.add_sub_cancel_left, BitVec.toNat_ofNat, ← hdigit]
  · rfl

/-- The lowest bit of a word is that of its first byte. -/
theorem testBit_zero_load (m : Mem) (a n : ℕ) :
    (load m a (n + 1)).testBit 0 = (m a).getLsbD 0 := by
  have hlow : ((m a).toNat + 256 * load m (a + 1) n) % 2 = (m a).toNat % 2 := by omega
  rw [load, BitVec.getLsbD, Nat.testBit_zero, Nat.testBit_zero, hlow]

/-- Zero words stored one after the other are one zero fill. -/
theorem store_zero_fill (m : Mem) (a n k : ℕ) :
    store (fill m a n 0) (a + n) k 0 = fill m a (n + k) 0 := by
  funext b
  simp only [store, fill, Nat.zero_div]
  split_ifs with h1 h2 h3 h4 h5
  · rfl
  · omega
  · rfl
  · omega
  · omega
  · rfl

theorem fill_zero_length (m : Mem) (a : ℕ) (x : Byte) : fill m a 0 x = m := by
  funext b
  exact if_neg (by omega)

end Machine
