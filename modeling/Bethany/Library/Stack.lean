import Bethany.Library.Machine

/-!
# Registers saved on a stack

A processor with registers of 64 bits, taken from any type `R`, and a stack that grows downwards
by words of 8 bytes.  Registers that are pushed one after the other lie in memory in the opposite
order; popping them in that order gives back their values, as long as nobody has written there.

* `Core`, `push`, `pop`, `pushAll`, `popAll`;
* `Frame m regs a l`: the words from `a` on are the values of the registers in `l`;
* `pushWords`, `Words`: the same for values;
* `pushAll_spec`, `popAll_spec`, `pushWords_spec`: what a list of pushes leaves, and what a list of
  pops finds;
* `Frame.congr`, `frame_fill`, `Frame.write`: frames that nobody writes to, or that are written
  by hand.
-/

namespace Stack

open Machine

/-- A word of 64 bits. -/
abbrev Word := BitVec 64

def readWord (m : Mem) (a : ℕ) : Word := BitVec.ofNat 64 (load m a 8)

def writeWord (m : Mem) (a : ℕ) (v : Word) : Mem := store m a 8 v.toNat

/-- The registers, the stack pointer and the memory. -/
structure Core (R : Type*) where
  regs : R → Word
  sp : ℕ
  mem : Mem

variable {R : Type*} {m m' : Mem} {regs : R → Word} {c : Core R} {r : R}
  {l : List R} {a b : ℕ} {v : Word}

/-- `push` of a value -/
def pushWord (c : Core R) (v : Word) : Core R :=
  let sp := u64 (2 ^ 64 - 8 + c.sp)
  { c with sp := sp, mem := writeWord c.mem sp v }

/-- `push` of a register -/
def push (c : Core R) (r : R) : Core R := pushWord c (c.regs r)

def pushAll (c : Core R) (l : List R) : Core R := l.foldl push c

/-- Pushes of values, the first one first. -/
def pushWords (c : Core R) (l : List Word) : Core R := l.foldl pushWord c

variable [DecidableEq R]

/-- `pop` into a register -/
def pop (c : Core R) (r : R) : Core R :=
  { c with regs := Function.update c.regs r (readWord c.mem c.sp), sp := u64 (c.sp + 8) }

def popAll (c : Core R) (l : List R) : Core R := l.foldl pop c

omit [DecidableEq R]

/-! ### Words -/

@[simp] theorem readWord_writeWord (m : Mem) (a : ℕ) (v : Word) :
    readWord (writeWord m a v) a = v := by
  unfold readWord writeWord
  rw [load_store_same, show 256 ^ 8 = 2 ^ 64 by norm_num, Nat.mod_eq_of_lt v.isLt]
  exact BitVec.ofNat_toNat 64 v |>.trans (BitVec.setWidth_eq v)

theorem readWord_writeWord_of_ne (h : a + 8 ≤ b ∨ b + 8 ≤ a) :
    readWord (writeWord m a v) b = readWord m b := by
  unfold readWord writeWord
  rw [load_store_disjoint h]

theorem readWord_congr (h : ∀ x, a ≤ x → x < a + 8 → m' x = m x) :
    readWord m' a = readWord m a := by
  unfold readWord
  rw [load_congr fun i hi => h (a + i) (by omega) (by omega)]

/-- A write changes the bytes of its word only. -/
theorem writeWord_of_ne {x : ℕ} (h : x < a ∨ a + 8 ≤ x) : writeWord m a v x = m x :=
  if_neg (by omega)

@[simp] theorem pushWord_regs (c : Core R) (v : Word) : (pushWord c v).regs = c.regs := rfl

theorem pushWord_sp (hlo : 8 ≤ c.sp) (hlt : c.sp < 2 ^ 64) (v : Word) :
    (pushWord c v).sp = c.sp - 8 := by
  simp only [pushWord, u64]
  omega

theorem pushWord_mem (hlo : 8 ≤ c.sp) (hlt : c.sp < 2 ^ 64) (v : Word) :
    (pushWord c v).mem = writeWord c.mem (c.sp - 8) v := by
  have hsp := pushWord_sp hlo hlt v
  simp only [pushWord] at hsp ⊢
  rw [hsp]

/-! ### Frames -/

/-- The words from `a` on are the values of the registers in `l`. -/
def Frame (m : Mem) (regs : R → Word) : ℕ → List R → Prop
  | _, [] => True
  | a, r :: l => readWord m a = regs r ∧ Frame m regs (a + 8) l

/-- A frame stays as long as nobody writes there. -/
theorem Frame.congr (h : Frame m regs a l)
    (hm : ∀ x, a ≤ x → x < a + 8 * l.length → m' x = m x) : Frame m' regs a l := by
  induction l generalizing a with
  | nil => trivial
  | cons r l ih =>
    rw [List.length_cons] at hm
    refine ⟨?_, ih h.2 fun x hlo hhi => hm x (by omega) (by omega)⟩
    rw [← h.1]
    exact readWord_congr fun x hlo hhi => hm x hlo (by omega)

/-- A frame depends on the values of its registers only. -/
theorem Frame.regs_congr {regs' : R → Word} (h : Frame m regs a l)
    (hregs : ∀ r ∈ l, regs' r = regs r) : Frame m regs' a l := by
  induction l generalizing a with
  | nil => trivial
  | cons r l ih =>
    refine ⟨h.1.trans (hregs r List.mem_cons_self).symm, ih h.2 fun q hq => ?_⟩
    exact hregs q (List.mem_cons_of_mem r hq)

/-- Zeros are a frame of registers that are zero. -/
theorem frame_fill (m : Mem) {n : ℕ} (hlo : b ≤ a) (hhi : a + 8 * l.length ≤ b + n) :
    Frame (fill m b n 0) (fun _ : R => 0) a l := by
  induction l generalizing a with
  | nil => trivial
  | cons r l ih =>
    rw [List.length_cons] at hhi
    refine ⟨?_, ih (by omega) (by omega)⟩
    unfold readWord
    rw [load_fill_zero hlo (by omega)]
    rfl

/-- Writing to the place of a register in the frame. -/
theorem Frame.write [DecidableEq R] (h : Frame m regs a l) (hnodup : l.Nodup) (hr : r ∈ l)
    (v : Word) :
    Frame (writeWord m (a + 8 * l.idxOf r) v) (Function.update regs r v) a l := by
  induction l generalizing a with
  | nil => cases hr
  | cons q l ih =>
    obtain ⟨hq, hnodup'⟩ := List.nodup_cons.mp hnodup
    by_cases heq : r = q
    · subst heq
      rw [List.idxOf_cons_self, Nat.mul_zero, Nat.add_zero]
      refine ⟨by simp, ?_⟩
      have hrest : Frame m (Function.update regs r v) (a + 8) l :=
        h.2.regs_congr fun p hp => Function.update_of_ne (ne_of_mem_of_not_mem hp hq) ..
      exact hrest.congr fun x hlo _ => writeWord_of_ne (.inr hlo)
    · have hmem : r ∈ l := (List.mem_cons.mp hr).resolve_left heq
      rw [List.idxOf_cons_ne l (Ne.symm heq)]
      have hplace : a + 8 * (l.idxOf r).succ = a + 8 + 8 * l.idxOf r := by omega
      rw [hplace]
      refine ⟨?_, ih h.2 hnodup' hmem⟩
      rw [readWord_writeWord_of_ne (by omega), Function.update_of_ne (Ne.symm heq)]
      exact h.1

/-- The words from `a` on. -/
def Words (m : Mem) : ℕ → List Word → Prop
  | _, [] => True
  | a, v :: l => readWord m a = v ∧ Words m (a + 8) l

variable {vs : List Word}

theorem Words.congr (h : Words m a vs)
    (hm : ∀ x, a ≤ x → x < a + 8 * vs.length → m' x = m x) : Words m' a vs := by
  induction vs generalizing a with
  | nil => trivial
  | cons v vs ih =>
    rw [List.length_cons] at hm
    refine ⟨?_, ih h.2 fun x hlo hhi => hm x (by omega) (by omega)⟩
    rw [← h.1]
    exact readWord_congr fun x hlo hhi => hm x hlo (by omega)

/-! ### Lists of pushes and pops -/

@[simp] theorem pushWords_regs (c : Core R) (vs : List Word) : (pushWords c vs).regs = c.regs := by
  induction vs generalizing c with
  | nil => rfl
  | cons v vs ih => exact ih (pushWord c v)

theorem pushWords_append (c : Core R) (vs ws : List Word) :
    pushWords c (vs ++ ws) = pushWords (pushWords c vs) ws := List.foldl_append

/-- **Pushes of values** leave them below the old stack pointer, the last one lowest, and change
nothing else. -/
theorem pushWords_spec (vs : List Word) (hroom : 8 * vs.length ≤ c.sp) (hlt : c.sp < 2 ^ 64) :
    (pushWords c vs.reverse).sp = c.sp - 8 * vs.length ∧
      Words (pushWords c vs.reverse).mem (c.sp - 8 * vs.length) vs ∧
      ∀ x, x < c.sp - 8 * vs.length ∨ c.sp ≤ x → (pushWords c vs.reverse).mem x = c.mem x := by
  induction vs with
  | nil => exact ⟨rfl, trivial, fun x _ => rfl⟩
  | cons v vs ih =>
    rw [List.length_cons] at hroom ⊢
    obtain ⟨hsp, hwords, hrest⟩ := ih (by omega)
    rw [List.reverse_cons, pushWords_append]
    show (pushWord (pushWords c vs.reverse) v).sp = _ ∧ _
    have hsp' := pushWord_sp (c := pushWords c vs.reverse) (by omega) (by omega) v
    have hmem' := pushWord_mem (c := pushWords c vs.reverse) (by omega) (by omega) v
    have hplace : c.sp - 8 * vs.length - 8 = c.sp - 8 * (vs.length + 1) := by omega
    have hnext : c.sp - 8 * (vs.length + 1) + 8 = c.sp - 8 * vs.length := by omega
    rw [hsp, hplace] at hsp' hmem'
    refine ⟨hsp', ?_, fun x hx => ?_⟩
    · show Words (pushWord (pushWords c vs.reverse) v).mem _ _
      rw [hmem']
      refine ⟨by simp, ?_⟩
      rw [hnext]
      exact hwords.congr fun x hlo _ => writeWord_of_ne (by omega)
    · show (pushWord (pushWords c vs.reverse) v).mem x = c.mem x
      rw [hmem', writeWord_of_ne (by omega)]
      exact hrest x (by omega)

/-- **Pushes** leave a frame below the old stack pointer, and change nothing else. -/
theorem pushAll_spec (hroom : 8 * l.length ≤ c.sp) (hlt : c.sp < 2 ^ 64) :
    (pushAll c l.reverse).regs = c.regs ∧ (pushAll c l.reverse).sp = c.sp - 8 * l.length ∧
      Frame (pushAll c l.reverse).mem c.regs (c.sp - 8 * l.length) l ∧
      ∀ x, x < c.sp - 8 * l.length ∨ c.sp ≤ x → (pushAll c l.reverse).mem x = c.mem x := by
  induction l with
  | nil => exact ⟨rfl, rfl, trivial, fun x _ => rfl⟩
  | cons r l ih =>
    rw [List.length_cons] at hroom ⊢
    obtain ⟨hregs, hsp, hframe, hrest⟩ := ih (by omega)
    have hlast : pushAll c (r :: l).reverse =
        pushWord (pushAll c l.reverse) ((pushAll c l.reverse).regs r) := by
      rw [List.reverse_cons, pushAll, List.foldl_append]
      rfl
    rw [hlast, pushWord_regs, pushWord_sp (by omega) (by omega),
      pushWord_mem (by omega) (by omega), hregs, hsp]
    have hplace : c.sp - 8 * l.length - 8 = c.sp - 8 * (l.length + 1) := by omega
    have hnext : c.sp - 8 * (l.length + 1) + 8 = c.sp - 8 * l.length := by omega
    rw [hplace]
    refine ⟨rfl, rfl, ⟨by simp, ?_⟩, fun x hx => ?_⟩
    · rw [hnext]
      exact hframe.congr fun x hlo _ => writeWord_of_ne (by omega)
    · rw [writeWord_of_ne (by omega)]
      exact hrest x (by omega)

/-- **Pops** find the frame at the stack pointer. -/
theorem popAll_spec [DecidableEq R] (h : Frame c.mem regs c.sp l)
    (hlt : c.sp + 8 * l.length < 2 ^ 64) :
    (∀ r, (popAll c l).regs r = if r ∈ l then regs r else c.regs r) ∧
      (popAll c l).sp = c.sp + 8 * l.length ∧ (popAll c l).mem = c.mem := by
  induction l generalizing c with
  | nil => exact ⟨fun r => by simp [popAll], rfl, rfl⟩
  | cons q l ih =>
    rw [List.length_cons] at hlt ⊢
    have hsp : (pop c q).sp = c.sp + 8 := u64_of_lt (by omega)
    have hrest : Frame (pop c q).mem regs (pop c q).sp l := by
      rw [hsp]
      exact h.2
    obtain ⟨hregs, hsp', hmem⟩ := ih hrest (by omega)
    refine ⟨fun r => (hregs r).trans ?_, ?_, hmem⟩
    · by_cases hr : r ∈ l
      · simp [hr]
      · by_cases heq : r = q
        · subst heq
          simp [hr, pop, h.1]
        · simp [hr, heq, pop, Function.update_of_ne]
    · show (popAll (pop c q) l).sp = _
      rw [hsp', hsp]
      omega

end Stack
