import Mathlib.Tactic
import Mathlib.Data.Finset.Max

/-!
# Two 8259 interrupt controllers

A controller has eight request lines.  A request is kept until the processor takes it; from then on
it is in service, until an end-of-interrupt command, and holds back the lines behind it.  The slave
is connected to line 2 of the master.

* `Chip`: one controller, `Chip.command` and `Chip.data` the bytes for its two ports;
* `Pair`: the two of them, `Pair.raise`, `Pair.take`, `Pair.endOf`;
* `Pair.Serving`: what is in service;
* `Pair.take_eq_none`, `Pair.take_eq_some`: with nothing in service the processor gets the first
  line that is requested and not masked.

The commands that are neither an initialisation nor a plain end of interrupt are a parameter.
-/

namespace Pic8259

/-- What the next byte for the data port is. -/
inductive Awaits
  | icw2
  | icw3
  | icw4
  | mask
deriving DecidableEq

/-- A controller: the lines requested and in service, the mask, the words of its initialisation. -/
structure Chip where
  irr : Finset (Fin 8)
  isr : Finset (Fin 8)
  imr : BitVec 8
  icw1 : BitVec 8
  icw2 : BitVec 8
  icw3 : BitVec 8
  icw4 : BitVec 8
  awaits : Awaits
deriving DecidableEq

/-- The end of the interrupt in service that comes first. -/
def Chip.eoi (c : Chip) : Chip :=
  match c.isr.min with
  | ⊤ => c
  | (i : Fin 8) => { c with isr := c.isr.erase i }

/-- A byte for the command port: bit 4 starts an initialisation. -/
def Chip.command (other : Chip → BitVec 8 → Chip) (c : Chip) (v : BitVec 8) : Chip :=
  if v.getLsbD 4 then
    { c with irr := ∅, isr := ∅, imr := 0, icw1 := v, icw4 := 0, awaits := .icw2 }
  else if v = 0x20 then c.eoi else other c v

/-- A byte for the data port: bit 0 of the first word announces the fourth, bit 1 drops the
third. -/
def Chip.data (c : Chip) (v : BitVec 8) : Chip :=
  let last : Awaits := if c.icw1.getLsbD 0 then .icw4 else .mask
  match c.awaits with
  | .icw2 => { c with icw2 := v, awaits := if c.icw1.getLsbD 1 then last else .icw3 }
  | .icw3 => { c with icw3 := v, awaits := last }
  | .icw4 => { c with icw4 := v, awaits := .mask }
  | .mask => { c with imr := v }

/-- A line goes up. -/
def Chip.raise (c : Chip) (i : Fin 8) : Chip := { c with irr := insert i c.irr }

/-- The first line that is requested and not masked. -/
def Chip.first (c : Chip) : WithTop (Fin 8) :=
  (c.irr.filter fun i : Fin 8 => c.imr.getLsbD i = false).min

/-- Such a line is ahead of those in service. -/
def Chip.Int (c : Chip) : Prop := c.first < c.isr.min

instance (c : Chip) : Decidable c.Int := inferInstanceAs (Decidable (c.first < c.isr.min))

/-- The processor takes the request. -/
def Chip.ack (c : Chip) (i : Fin 8) : Chip :=
  { c with irr := c.irr.erase i, isr := insert i c.isr }

/-- The vector of a line. -/
def Chip.vector (c : Chip) (i : Fin 8) : BitVec 8 := c.icw2 &&& 0xF8 ||| BitVec.ofNat 8 i

/-- A line of one of the controllers. -/
inductive Line
  | master (i : Fin 8)
  | slave (i : Fin 8)
deriving DecidableEq, Fintype

/-- The line of the master that the slave drives. -/
abbrev Line.cascade : Line := .master 2

def Line.number : Line → ℕ
  | .master i => i
  | .slave i => 8 + i

/-- The place of a line in the order of priority: those of the slave are behind line 1. -/
def Line.rank : Line → ℕ
  | .master i => 8 * i
  | .slave i => 16 + i

structure Pair where
  master : Chip
  slave : Chip
deriving DecidableEq

namespace Pair

variable (p : Pair)

/-- The master, with the line that the slave drives. -/
def front : Chip := if p.slave.Int then p.master.raise 2 else p.master

def raise : Line → Pair
  | .master i => { p with master := p.master.raise i }
  | .slave i => { p with slave := p.slave.raise i }

def Requested : Line → Prop
  | .master i => i ∈ p.master.irr
  | .slave i => i ∈ p.slave.irr

instance (l : Line) : Decidable (p.Requested l) := by
  cases l <;> exact Finset.decidableMem _ _

def Masked : Line → Prop
  | .master i => p.master.imr.getLsbD i
  | .slave i => p.slave.imr.getLsbD i

instance (l : Line) : Decidable (p.Masked l) := by
  cases l <;> exact instDecidableEqBool _ _

def ack : Line → Pair
  | .master i => { p with master := p.master.ack i }
  | .slave i => { master := p.master.ack 2, slave := p.slave.ack i }

def vector : Line → BitVec 8
  | .master i => p.master.vector i
  | .slave i => p.slave.vector i

/-- The processor takes an interrupt, if the master asks for one: the line, and what comes of it. -/
def take : Option (Line × Pair) :=
  if p.front.Int then
    match p.front.first with
    | ⊤ => none
    | (i : Fin 8) =>
      if i = 2 then
        match p.slave.first with
        | ⊤ => none
        | (j : Fin 8) => some (.slave j, p.ack (.slave j))
      else some (.master i, p.ack (.master i))
  else none

/-- What is in service. -/
def Serving : Option Line → Prop
  | none => p.master.isr = ∅ ∧ p.slave.isr = ∅
  | some (.master i) => p.master.isr = {i} ∧ p.slave.isr = ∅
  | some (.slave i) => p.master.isr = {2} ∧ p.slave.isr = {i}

/-- The line is requested, and nothing masks it. -/
def Open (l : Line) : Prop := p.Requested l ∧ ¬ p.Masked l

instance (l : Line) : Decidable (p.Open l) := inferInstanceAs (Decidable (_ ∧ _))

/-- Line 2 of the master is the slave's, and not masked. -/
structure Cascaded : Prop where
  free : 2 ∉ p.master.irr
  unmasked : p.master.imr.getLsbD 2 = false

end Pair

/-! ### One controller -/

variable {c : Chip} {i j : Fin 8} {p : Pair} {l l' : Line} {v : BitVec 8}
  {other : Chip → BitVec 8 → Chip}

theorem Chip.eoi_singleton (h : c.isr = {i}) : c.eoi = { c with isr := ∅ } := by
  simp only [Chip.eoi, h, Finset.min_singleton]
  rw [Finset.erase_singleton]

theorem Chip.command_eoi : c.command other 32#8 = c.eoi := by
  simp [Chip.command]

theorem Chip.data_mask (h : c.awaits = .mask) (v : BitVec 8) : c.data v = { c with imr := v } := by
  simp [Chip.data, h]

/-- The four words of an initialisation, and a mask. -/
theorem Chip.init_eq (c : Chip) (icw2 icw3 icw4 mask : BitVec 8) :
    (((((c.command other 0x11).data icw2).data icw3).data icw4).data mask) =
      ⟨∅, ∅, mask, 0x11, icw2, icw3, icw4, .mask⟩ := by
  simp [Chip.command, Chip.data]

theorem Chip.mem_unmasked :
    (i ∈ c.irr.filter fun i : Fin 8 => c.imr.getLsbD i = false) ↔
      i ∈ c.irr ∧ c.imr.getLsbD i = false := by
  simp

theorem Chip.first_ne_top (hi : i ∈ c.irr) (hmask : c.imr.getLsbD i = false) : c.first ≠ ⊤ := by
  intro h
  rw [Chip.first, Finset.min_eq_top] at h
  exact Finset.notMem_empty i (h ▸ Chip.mem_unmasked.mpr ⟨hi, hmask⟩)

theorem Chip.first_eq_coe (h : c.first = i) :
    (i ∈ c.irr ∧ c.imr.getLsbD i = false) ∧
      ∀ j ∈ c.irr, c.imr.getLsbD j = false → i ≤ j :=
  ⟨Chip.mem_unmasked.mp (Finset.mem_of_min h),
    fun _ hj hmask => Finset.min_le_of_eq (Chip.mem_unmasked.mpr ⟨hj, hmask⟩) h⟩

/-- With nothing in service, every request that is not masked gets through. -/
theorem Chip.int_iff (h : c.isr = ∅) : c.Int ↔ c.first ≠ ⊤ := by
  rw [Chip.Int, h, Finset.min_empty, lt_top_iff_ne_top]

/-! ### Both of them -/

theorem Line.rank_injective (hl : l ≠ .master 2) (hl' : l' ≠ .master 2) (h : l.rank = l'.rank) :
    l = l' := by
  cases l <;> cases l' <;> simp only [Line.rank, Line.master.injEq, Line.slave.injEq] at h ⊢ <;>
    rename_i i j
  · omega
  · have hi : i = 2 := by omega
    exact absurd (congrArg Line.master hi) hl
  · have hj : j = 2 := by omega
    exact absurd (congrArg Line.master hj) hl'
  · omega

theorem Line.number_injective : Function.Injective Line.number := by
  intro l l' h
  cases l <;> cases l' <;> simp only [Line.number, Line.master.injEq, Line.slave.injEq] at h ⊢ <;>
    omega

theorem Line.number_lt (l : Line) : l.number < 16 := by
  cases l <;> simp only [Line.number] <;> omega

namespace Pair

theorem front_isr (p : Pair) : p.front.isr = p.master.isr := by
  unfold front
  split_ifs <;> rfl

theorem open_master : p.Open (.master i) ↔ i ∈ p.master.irr ∧ p.master.imr.getLsbD i = false := by
  simp [Open, Requested, Masked]

theorem open_slave : p.Open (.slave i) ↔ i ∈ p.slave.irr ∧ p.slave.imr.getLsbD i = false := by
  simp [Open, Requested, Masked]

/-- What the master has in front of it, with its own lines and that of the slave. -/
theorem mem_front (hcas : p.Cascaded) (hserving : p.Serving none) :
    i ∈ p.front.irr ∧ p.front.imr.getLsbD i = false ↔
      p.Open (.master i) ∨ i = 2 ∧ ∃ j, p.slave.first = (j : Fin 8) := by
  have hint : p.slave.Int ↔ ∃ j, p.slave.first = (j : Fin 8) := by
    rw [Chip.int_iff hserving.2, WithTop.ne_top_iff_exists]
    exact exists_congr fun j => eq_comm
  rw [← hint, open_master, front]
  split_ifs with h
  · have hfree := hcas.unmasked
    simp only [Chip.raise, Finset.mem_insert, h, and_true]
    constructor
    · rintro ⟨rfl | hi, hmask⟩
      · exact .inr rfl
      · exact .inl ⟨hi, hmask⟩
    · rintro (⟨hi, hmask⟩ | rfl)
      · exact ⟨.inr hi, hmask⟩
      · exact ⟨.inl rfl, hfree⟩
  · simp [h]

/-- The processor gets nothing because no line is open, or it gets the first of them. -/
theorem take_cases (hcas : p.Cascaded) (hserving : p.Serving none) :
    (p.take = none ∧ ∀ l, ¬ p.Open l) ∨
      ∃ l, p.take = some (l, p.ack l) ∧ p.Open l ∧ l ≠ .master 2 ∧
        ∀ l', p.Open l' → l.rank ≤ l'.rank := by
  have hslave : ∀ j, p.Open (.slave j) → p.slave.first ≠ ⊤ := fun j hj =>
    Chip.first_ne_top (open_slave.mp hj).1 (open_slave.mp hj).2
  have hint := Chip.int_iff (c := p.front) (p.front_isr.trans hserving.1)
  rcases hfirst : p.front.first with _ | i
  · refine .inl ⟨?_, fun l hopen => ?_⟩
    · rw [take, if_neg (hint.not.mpr (not_not.mpr hfirst))]
    · cases l with
      | master i =>
        obtain ⟨hi, hmask⟩ := (mem_front hcas hserving).mpr (.inl hopen)
        exact Chip.first_ne_top hi hmask hfirst
      | slave j =>
        obtain ⟨k, hk⟩ := WithTop.ne_top_iff_exists.mp (hslave j hopen)
        obtain ⟨hi, hmask⟩ := (mem_front hcas hserving).mpr (.inr ⟨rfl, k, hk.symm⟩)
        exact Chip.first_ne_top hi hmask hfirst
  · have hfirst : p.front.first = (i : Fin 8) := hfirst
    obtain ⟨hi, hle⟩ := Chip.first_eq_coe hfirst
    have hle' : ∀ j, p.Open (.master j) ∨ j = 2 ∧ (∃ k, p.slave.first = (k : Fin 8)) → i ≤ j :=
      fun j hj => hle j ((mem_front hcas hserving).mpr hj).1 ((mem_front hcas hserving).mpr hj).2
    have htake : p.front.Int := hint.mpr (by rw [hfirst]; exact WithTop.coe_ne_top)
    refine .inr ?_
    rw [take, if_pos htake, hfirst]
    dsimp only
    split_ifs with htwo
    · -- the slave is the one that asks
      subst htwo
      rcases (mem_front hcas hserving).mp hi with hopen | ⟨-, j, hj⟩
      · exact absurd (open_master.mp hopen).1 hcas.free
      · rw [hj]
        obtain ⟨hrequest, hbefore⟩ := Chip.first_eq_coe hj
        refine ⟨.slave j, rfl, open_slave.mpr hrequest, by simp, fun l' hopen => ?_⟩
        cases l' with
        | master k =>
          have hne : k ≠ 2 := by
            rintro rfl
            exact hcas.free (open_master.mp hopen).1
          have hk := hle' k (.inl hopen)
          simp only [Line.rank]
          omega
        | slave k =>
          have hk := hbefore k (open_slave.mp hopen).1 (open_slave.mp hopen).2
          simp only [Line.rank]
          omega
    · rcases (mem_front hcas hserving).mp hi with hopen | ⟨rfl, -⟩
      · refine ⟨.master i, rfl, hopen, by simpa using htwo, fun l' hopen' => ?_⟩
        cases l' with
        | master k =>
          have hk := hle' k (.inl hopen')
          simp only [Line.rank]
          omega
        | slave k =>
          obtain ⟨j, hj⟩ := WithTop.ne_top_iff_exists.mp (hslave k hopen')
          have hk := hle' 2 (.inr ⟨rfl, j, hj.symm⟩)
          simp only [Line.rank]
          omega
      · exact absurd rfl htwo

/-- With nothing in service the processor gets nothing exactly if no line is open. -/
theorem take_eq_none (hcas : p.Cascaded) (hserving : p.Serving none) :
    p.take = none ↔ ∀ l, ¬ p.Open l := by
  rcases take_cases hcas hserving with ⟨htake, hopen⟩ | ⟨l, htake, hopen, -⟩
  · exact iff_of_true htake hopen
  · exact iff_of_false (by simp [htake]) fun h => h l hopen

/-- With nothing in service the processor gets the first of the open lines. -/
theorem take_eq_some (hcas : p.Cascaded) (hserving : p.Serving none) {p' : Pair}
    (h : p.take = some (l, p')) :
    p' = p.ack l ∧ p.Open l ∧ l ≠ .master 2 ∧ ∀ l', p.Open l' → l.rank ≤ l'.rank := by
  rcases take_cases hcas hserving with ⟨htake, -⟩ | ⟨k, htake, hopen, hne, hfirst⟩
  · exact absurd (htake.symm.trans h) (by simp)
  · obtain ⟨rfl, rfl⟩ := Prod.mk.inj (Option.some.inj (htake.symm.trans h))
    exact ⟨rfl, hopen, hne, hfirst⟩

end Pair

end Pic8259
