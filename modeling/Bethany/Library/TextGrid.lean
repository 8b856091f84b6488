import Mathlib.Tactic

/-!
# Cells on a torus

A grid of `rows` by `cols` cells, numbered row by row, with the place where the next one is put.
The place goes from the end of a row to the next row, and from the last row to the first.

* `Grid.move`, `Grid.put`, `Grid.startOfRow`, `Grid.newline`;
* `row_emod`, `col_emod`: the row and the column of a number that is reduced to a place;
* `Grid.type`, `Grid.type_spec`: cells put one after the other;
* `Grid.typeLines_spec`: lines of cells, each at the start of its row.
-/

namespace TextGrid

/-- The cells by their number, and the place of the next one. -/
structure Grid (α : Type*) where
  cells : ℕ → α
  place : ℕ

variable {α : Type*} (rows cols : ℕ) (g : Grid α)

def Grid.move (d : ℤ) : Grid α :=
  { g with place := ((g.place + d) % (rows * cols : ℤ)).toNat }

def Grid.put (a : α) : Grid α := { g with cells := Function.update g.cells g.place a }

def Grid.startOfRow : Grid α := { g with place := g.place / cols * cols }

def Grid.newline : Grid α := (g.startOfRow cols).move rows cols cols

/-- Cells, one after the other. -/
def Grid.type (l : List α) : Grid α := l.foldl (fun g a => (g.put a).move rows cols 1) g

/-- Lines, each with a `newline` at its end. -/
def Grid.typeLines (ls : List (List α)) : Grid α :=
  ls.foldl (fun g l => (g.type rows cols l).newline rows cols) g

variable {rows cols g} {n p i j : ℕ} {a b : ℤ} {l : List α} {ls : List (List α)}

/-! ### Rows and columns -/

theorem col_emod (a : ℤ) : a % (rows * cols : ℤ) % cols = a % cols :=
  Int.emod_emod_of_dvd a (Dvd.intro_left _ rfl)

theorem row_emod (hcols : 0 < cols) (a : ℤ) :
    a % (rows * cols : ℤ) / cols = a / cols % rows := by
  have hcols' : (0 : ℤ) < cols := Int.natCast_pos.mpr hcols
  rw [mul_comm, Int.emod_def, Int.emod_def, ← Int.ediv_ediv_of_nonneg hcols'.le, mul_assoc,
    Int.sub_mul_ediv_left _ _ hcols'.ne']

theorem place_lt (h : 0 < rows * cols) (d : ℤ) : (g.move rows cols d).place < rows * cols := by
  have hpos : (0 : ℤ) < rows * cols := by exact_mod_cast h
  have hlt := Int.emod_lt_of_pos (g.place + d) hpos
  have hnonneg := Int.emod_nonneg (g.place + d) hpos.ne'
  simp only [Grid.move]
  omega

theorem move_place (h : 0 < rows * cols) (d : ℤ) :
    ((g.move rows cols d).place : ℤ) = (g.place + d) % (rows * cols : ℤ) := by
  have hpos : (0 : ℤ) < rows * cols := by exact_mod_cast h
  exact Int.toNat_of_nonneg (Int.emod_nonneg _ hpos.ne')

/-- A move that does not go over the end. -/
theorem move_of_lt {d : ℕ} (h : g.place + d < rows * cols) :
    (g.move rows cols d).place = g.place + d := by
  have hcast : ((g.place + d : ℕ) : ℤ) % ((rows * cols : ℕ) : ℤ) = (g.place + d : ℕ) := by
    exact_mod_cast Nat.mod_eq_of_lt h
  simp only [Grid.move]
  push_cast at hcast
  rw [hcast]
  omega

/-- The cell in row `i` and column `j`. -/
theorem place_of_row (hj : j < cols) : (i * cols + j) / cols = i ∧ (i * cols + j) % cols = j := by
  have hcols : 0 < cols := Nat.zero_lt_of_lt hj
  rw [mul_comm, Nat.mul_add_div hcols, Nat.mul_add_mod, Nat.div_eq_of_lt hj, Nat.mod_eq_of_lt hj]
  simp

/-! ### Typing -/

theorem type_nil : g.type rows cols [] = g := rfl

theorem type_cons (x : α) :
    g.type rows cols (x :: l) = ((g.put x).move rows cols 1).type rows cols l := rfl

/-- Cells that fit before the end: they are where they should be, and nothing else changes. -/
theorem type_spec (h : g.place + l.length < rows * cols) :
    (g.type rows cols l).place = g.place + l.length ∧
      ∀ k, (g.type rows cols l).cells k =
        if k < g.place then g.cells k else (l[k - g.place]?).getD (g.cells k) := by
  induction l generalizing g with
  | nil => simp [type_nil]
  | cons x l ih =>
    rw [List.length_cons] at h
    have hplace : ((g.put x).move rows cols 1).place = g.place + 1 :=
      move_of_lt (g := g.put x) (d := 1) (show g.place + 1 < rows * cols by omega)
    obtain ⟨hp, hcells⟩ := ih (g := (g.put x).move rows cols 1) (by omega)
    rw [type_cons, hp, hplace, List.length_cons]
    refine ⟨by omega, fun k => ?_⟩
    rw [hcells, hplace]
    have hput : ((g.put x).move rows cols 1).cells k = Function.update g.cells g.place x k := rfl
    rw [hput]
    rcases lt_trichotomy k g.place with hk | hk | hk
    · rw [if_pos (by omega), if_pos hk, Function.update_of_ne hk.ne]
    · subst hk
      simp
    · rw [if_neg (by omega), if_neg (by omega), Function.update_of_ne hk.ne']
      rw [show k - g.place = k - (g.place + 1) + 1 by omega, List.getElem?_cons_succ]

/-- A line that is shorter than a row, from the start of a row. -/
theorem typeLine_spec (hplace : g.place = i * cols) (hl : l.length < cols) (hi : i < rows) :
    ((g.type rows cols l).newline rows cols).place = (i + 1) % rows * cols ∧
      ∀ i' j, j < cols → ((g.type rows cols l).newline rows cols).cells (i' * cols + j) =
        if i' = i then (l[j]?).getD (g.cells (i' * cols + j)) else g.cells (i' * cols + j) := by
  have hend : (i + 1) * cols ≤ rows * cols := Nat.mul_le_mul_right _ hi
  rw [Nat.succ_mul] at hend
  have hfits : g.place + l.length < rows * cols := by omega
  obtain ⟨hp, hcells⟩ := type_spec hfits
  constructor
  · have hstart : ((g.type rows cols l).startOfRow cols).place = i * cols := by
      rw [Grid.startOfRow, hp, hplace, (place_of_row hl).1]
    have hmove := move_place (g := (g.type rows cols l).startOfRow cols)
      (Nat.zero_lt_of_lt hfits) cols
    rw [hstart] at hmove
    have hrow : ((i * cols : ℕ) + cols : ℤ) % (rows * cols : ℤ) =
        ((i + 1) % rows * cols : ℕ) := by
      rw [← Nat.mul_mod_mul_right, Nat.succ_mul]
      push_cast
      rfl
    rw [hrow] at hmove
    exact Int.natCast_inj.mp hmove
  · intro i' j hj
    have hsame : ((g.type rows cols l).newline rows cols).cells = (g.type rows cols l).cells := rfl
    rw [hsame, hcells, hplace]
    rcases lt_trichotomy i' i with hlt | rfl | hlt
    · have hle : (i' + 1) * cols ≤ i * cols := Nat.mul_le_mul_right _ hlt
      rw [Nat.succ_mul] at hle
      rw [if_pos (by omega), if_neg hlt.ne]
    · rw [if_neg (by omega), if_pos rfl, Nat.add_sub_cancel_left]
    · have hle : (i + 1) * cols ≤ i' * cols := Nat.mul_le_mul_right _ hlt
      rw [Nat.succ_mul] at hle
      rw [if_neg (by omega), if_neg hlt.ne', List.getElem?_eq_none (by omega)]
      rfl

/-- **Lines are in their rows**, each behind the one before it, and all other cells are as they
were. -/
theorem typeLines_spec (hplace : g.place = p * cols) (hl : ∀ l ∈ ls, l.length < cols)
    (hrows : p + ls.length ≤ rows) (hj : j < cols) :
    (g.typeLines rows cols ls).cells (i * cols + j) =
      if i < p then g.cells (i * cols + j)
      else ((ls[i - p]?).bind fun l => l[j]?).getD (g.cells (i * cols + j)) := by
  induction ls generalizing g p with
  | nil => simp [Grid.typeLines]
  | cons l ls ih =>
    rw [List.length_cons] at hrows
    obtain ⟨hp, hcells⟩ := typeLine_spec hplace (hl l (by simp)) (show p < rows by omega)
    set g₁ := (g.type rows cols l).newline rows cols
    have hstep : g.typeLines rows cols (l :: ls) = g₁.typeLines rows cols ls := rfl
    rw [hstep]
    rcases eq_or_ne ls [] with rfl | hne
    · have hnil : g₁.typeLines rows cols [] = g₁ := rfl
      rw [hnil, hcells i j hj]
      rcases lt_trichotomy i p with hlt | rfl | hlt
      · rw [if_neg hlt.ne, if_pos hlt]
      · simp
      · rw [if_neg hlt.ne', if_neg hlt.not_gt, List.getElem?_eq_none (by simp; omega)]
        rfl
    · have hlen := List.length_pos_of_ne_nil hne
      rw [Nat.mod_eq_of_lt (by omega)] at hp
      rw [ih hp (fun l' hl' => hl l' (by simp [hl'])) (by omega), hcells i j hj]
      rcases lt_trichotomy i p with hlt | rfl | hlt
      · rw [if_pos (by omega), if_neg hlt.ne, if_pos hlt]
      · simp
      · rw [if_neg (by omega), if_neg hlt.ne', if_neg hlt.not_gt,
          show i - p = i - (p + 1) + 1 by omega, List.getElem?_cons_succ]

end TextGrid
