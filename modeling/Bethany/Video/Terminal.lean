import Bethany.Library.Runs
import Bethany.Library.SignedWord
import Bethany.String

/-!
# The cursor of the terminal

The screen is `width` pixels wide and `height` pixels high, and a character takes 8 by 16 of them.
The cursor is the pixel at which the next character is drawn.  A move that goes over an edge of
the screen goes on at the opposite one; over the left or the right edge also one row up or down.

* `terminalMoveCursor`, `terminalSetPosition`, `terminalPutchar`, `terminalWrite`: as in
  `terminal.c`; they have no result when an `int64_t` overflows or `font` is read behind its end;
* `Cursor.move`: a move of the cursor in unbounded arithmetic, and how moves compose;
* `cursor_moves_compose`: two moves are one, and `\b` takes a drawn character back;
* `TerminalCall.run`, `cursor_stays_iff`: a run keeps the cursor on the screen exactly if
  `terminal_set_position` is never called for the pixels just behind the last row or column.
-/

namespace Bethany

open Machine Runs SignedWord

/-- `FONT_WIDTH` -/
def fontWidth : ℕ := 8

/-- `FONT_HEIGHT` -/
def fontHeight : ℕ := 16

/-- `graphics_t`: the frame buffer as its 32-bit pixels, and its measures. -/
structure Graphics where
  address : ℕ → BitVec 32
  width : ℕ
  height : ℕ
  pitch : ℕ

/-- `put_pixel`. -/
def putPixel (g : Graphics) (y x : ℕ) (color : BitVec 32) : Graphics :=
  if y < g.height ∧ x < g.width then
    { g with address := Function.update g.address (u64 (y * (g.pitch / 4) + x)) color }
  else g

/-- `terminal_t`. -/
structure Terminal where
  cursorX : ℕ
  cursorY : ℕ
  foregroundColor : BitVec 32
  backgroundColor : BitVec 32
deriving DecidableEq

/-- The terminal and the graphics that it draws on. -/
structure Screen where
  graphics : Graphics
  terminal : Terminal

/-- `font`: the sixteen rows of each character. -/
abbrev Font := Byte → ℕ → Byte

/-- `font` has 128 characters. -/
def HasGlyph (c : Byte) : Prop := c < 0x80

instance : DecidablePred HasGlyph := fun c => inferInstanceAs (Decidable (c < 0x80))

/-- The loops of `draw_char`. -/
def drawGlyph (font : Font) (s : Screen) (height width : ℕ) (c : Byte) : Graphics :=
  (List.range 16).foldl (fun g i =>
    (List.range 8).foldl (fun g j =>
      putPixel g (u64 (height + i)) (u64 (width + j))
        (if (font c i).getLsbD (7 - j) then s.terminal.foregroundColor
        else s.terminal.backgroundColor)) g) s.graphics

/-- `draw_char`: nothing where it reads behind the table. -/
def drawChar (font : Font) (s : Screen) (height width : ℕ) (c : Byte) : Option Graphics :=
  if HasGlyph c then some (drawGlyph font s height width c) else none

/-- `terminal_init`. -/
def terminalInit (s : Screen) (c bgc : BitVec 32) : Screen where
  graphics := s.graphics
  terminal := { cursorX := 0, cursorY := 0, foregroundColor := c, backgroundColor := bgc }

/-- `floor_div`. -/
def floorDiv (a b : ℤ) : Option ℤ := do
  let q ← div a b
  let r ← mod a b
  if r < 0 then int64 (q - 1) else some q

/-- `floor_mod`. -/
def floorMod (a b : ℤ) : Option ℤ := do
  let r ← mod a b
  if r < 0 then int64 (r + b) else some r

/-- `terminal_move_cursor`. -/
def terminalMoveCursor (s : Screen) (y x : ℤ) : Option Screen := do
  let w ← int64 s.graphics.width
  let h ← int64 s.graphics.height
  let newX ← int64 ((← int64 s.terminal.cursorX) + (← int64 (x * fontWidth)))
  let y ← int64 (y + (← floorDiv newX w))
  let cursorX ← floorMod newX w
  let newY ← int64 ((← int64 s.terminal.cursorY) + (← int64 (y * fontHeight)))
  let cursorY ← floorMod newY h
  some { s with
    terminal := { s.terminal with cursorX := uint64 cursorX, cursorY := uint64 cursorY } }

/-- `terminal_set_position`. -/
def terminalSetPosition (s : Screen) (y x : ℕ) : Screen :=
  if x > s.graphics.width ∨ y > s.graphics.height then s
  else { s with terminal := { s.terminal with cursorX := x, cursorY := y } }

/-- `terminal_putchar`. -/
def terminalPutchar (font : Font) (s : Screen) (c : Byte) : Option Screen :=
  if c = 0x0A then
    terminalMoveCursor { s with terminal := { s.terminal with cursorX := 0 } } 1 0
  else if c = 0x0D then some { s with terminal := { s.terminal with cursorX := 0 } }
  else if c = 0x09 then
    let col := s.terminal.cursorX / fontWidth
    terminalMoveCursor s 0 (((col + 4) &&& (2 ^ 64 - 2 ^ 2) : ℕ) - (col : ℤ))
  else if c = 0x08 then terminalMoveCursor s 0 (-1)
  else
    (drawChar font s s.terminal.cursorY s.terminal.cursorX c).bind fun g =>
      terminalMoveCursor { s with graphics := g } 0 1

/-- `terminal_write`. -/
def terminalWrite (font : Font) (s : Screen) (str : CString) : Option Screen :=
  str.bytes.foldlM (terminalPutchar font) s

/-- The cursor is on the screen. -/
def Screen.InBounds (s : Screen) : Prop :=
  s.terminal.cursorX < s.graphics.width ∧ s.terminal.cursorY < s.graphics.height

variable {font : Font} {s s' s₁ s₂ : Screen} {c : Byte} {y x y₁ x₁ y₂ x₂ a b q r w h : ℤ}

/-! ### Moves in unbounded arithmetic -/

/-- A row and a column of pixels. -/
abbrev Cursor := ℤ × ℤ

/-- The cursor `y` rows and `x` columns of characters further, on a screen of height `h` and
width `w`. -/
def Cursor.move (h w : ℤ) (p : Cursor) (y x : ℤ) : Cursor :=
  ((p.1 + (y + (p.2 + x * fontWidth) / w) * fontHeight) % h, (p.2 + x * fontWidth) % w)

/-- The part of a sum that is carried over is carried in the first step or in the second. -/
theorem carry_add (a b w : ℤ) : a / w + (a % w + b) / w = (a + b) / w := by
  rcases eq_or_ne w 0 with rfl | hw
  · simp
  · have ha : a + b = a % w + b + a / w * w := by linarith [Int.mul_ediv_add_emod a w]
    rw [ha, Int.add_mul_ediv_right _ _ hw, add_comm]

/-- **Moves compose.** -/
theorem Cursor.move_move (p : Cursor) :
    (p.move h w y₁ x₁).move h w y₂ x₂ = p.move h w (y₁ + y₂) (x₁ + x₂) := by
  have hcarry := carry_add (p.2 + x₁ * fontWidth) (x₂ * fontWidth) w
  rw [add_assoc, ← add_mul] at hcarry
  unfold Cursor.move
  ext
  · simp only [Int.emod_add_emod]
    rw [← hcarry]
    ring_nf
  · simp only [Int.emod_add_emod]
    ring_nf

/-- No move. -/
theorem Cursor.move_zero {p : Cursor} (h1 : 0 ≤ p.1 ∧ p.1 < h) (h2 : 0 ≤ p.2 ∧ p.2 < w) :
    p.move h w 0 0 = p := by
  unfold Cursor.move
  simp [Int.ediv_eq_zero_of_lt, Int.emod_eq_of_lt, h1, h2]

theorem Cursor.move_range (p : Cursor) (hh : 0 < h) (hw : 0 < w) :
    (0 ≤ (p.move h w y x).1 ∧ (p.move h w y x).1 < h) ∧
      0 ≤ (p.move h w y x).2 ∧ (p.move h w y x).2 < w :=
  ⟨⟨Int.emod_nonneg _ hh.ne', Int.emod_lt_of_pos _ hh⟩, Int.emod_nonneg _ hw.ne',
    Int.emod_lt_of_pos _ hw⟩

/-! ### One call -/

theorem floorDiv_eq (hb : 0 < b) (ha : Fits a) : floorDiv a b = some (a / b) := by
  have hfloor := div_adjusted (a := a) hb
  simp only [floorDiv, mod, div_of_pos hb ha, Option.map_some, Option.bind_eq_bind,
    Option.bind_some]
  split_ifs at hfloor ⊢
  · rw [hfloor, int64_of_fits (ha.ediv hb)]
  · rw [hfloor]

theorem floorMod_eq (hb : Fits b) (hpos : 0 < b) (ha : Fits a) : floorMod a b = some (a % b) := by
  have hfloor := mod_adjusted (a := a) hpos
  simp only [floorMod, mod, div_of_pos hpos ha, Option.map_some, Option.bind_eq_bind,
    Option.bind_some]
  split_ifs at hfloor ⊢
  · rw [hfloor, int64_of_fits (hb.emod hpos a)]
  · rw [hfloor]

/-- The cursor as a row and a column of pixels. -/
def Screen.cursor (s : Screen) : Cursor := (s.terminal.cursorY, s.terminal.cursorX)

/-- The screen with its cursor at `p`. -/
def Screen.at (s : Screen) (p : Cursor) : Screen :=
  { s with terminal := { s.terminal with cursorX := uint64 p.2, cursorY := uint64 p.1 } }

@[simp] theorem Screen.at_graphics (p : Cursor) : (s.at p).graphics = s.graphics := rfl

@[simp] theorem Screen.at_at (p p' : Cursor) : (s.at p).at p' = s.at p' := rfl

/-- The cursor after a move, on the screen of `s`. -/
def Screen.moved (s : Screen) (y x : ℤ) : Cursor :=
  s.cursor.move s.graphics.height s.graphics.width y x

/-- What `terminal_move_cursor` computes fits. -/
structure Screen.Fits (s : Screen) (y x : ℤ) : Prop where
  width : SignedWord.Fits s.graphics.width
  height : SignedWord.Fits s.graphics.height
  cursorX : SignedWord.Fits s.cursor.2
  columns : SignedWord.Fits (x * fontWidth)
  newX : SignedWord.Fits (s.cursor.2 + x * fontWidth)
  row : SignedWord.Fits (y + (s.cursor.2 + x * fontWidth) / s.graphics.width)
  cursorY : SignedWord.Fits s.cursor.1
  rows : SignedWord.Fits ((y + (s.cursor.2 + x * fontWidth) / s.graphics.width) * fontHeight)
  newY : SignedWord.Fits
    (s.cursor.1 + (y + (s.cursor.2 + x * fontWidth) / s.graphics.width) * fontHeight)

/-- Where nothing overflows a move is the move in unbounded arithmetic. -/
theorem terminalMoveCursor_eq_some_iff (hw : 0 < s.graphics.width) (hh : 0 < s.graphics.height) :
    terminalMoveCursor s y x = some s' ↔ s.Fits y x ∧ s' = s.at (s.moved y x) := by
  have hw' : (0 : ℤ) < s.graphics.width := Int.natCast_pos.mpr hw
  have hh' : (0 : ℤ) < s.graphics.height := Int.natCast_pos.mpr hh
  constructor
  · intro hmove
    unfold terminalMoveCursor at hmove
    obtain ⟨hwidth, hmove⟩ := int64_bind_eq_some_iff.mp hmove
    obtain ⟨hheight, hmove⟩ := int64_bind_eq_some_iff.mp hmove
    obtain ⟨hcx, hmove⟩ := int64_bind_eq_some_iff.mp hmove
    obtain ⟨hdx, hmove⟩ := int64_bind_eq_some_iff.mp hmove
    obtain ⟨hnewX, hmove⟩ := int64_bind_eq_some_iff.mp hmove
    obtain ⟨q, hq, hmove⟩ := Option.bind_eq_some_iff.mp hmove
    obtain ⟨hrow, hmove⟩ := int64_bind_eq_some_iff.mp hmove
    obtain ⟨cx, hcursorX, hmove⟩ := Option.bind_eq_some_iff.mp hmove
    obtain ⟨hcy, hmove⟩ := int64_bind_eq_some_iff.mp hmove
    obtain ⟨hdy, hmove⟩ := int64_bind_eq_some_iff.mp hmove
    obtain ⟨hnewY, hmove⟩ := int64_bind_eq_some_iff.mp hmove
    obtain ⟨cy, hcursorY, hs'⟩ := Option.bind_eq_some_iff.mp hmove
    rw [floorDiv_eq hw' hnewX, Option.some.injEq] at hq
    rw [floorMod_eq hwidth hw' hnewX, Option.some.injEq] at hcursorX
    rw [floorMod_eq hheight hh' hnewY, Option.some.injEq] at hcursorY
    subst hq hcursorX hcursorY
    exact ⟨⟨hwidth, hheight, hcx, hdx, hnewX, hrow, hcy, hdy, hnewY⟩, (Option.some.inj hs').symm⟩
  · rintro ⟨hfits, rfl⟩
    obtain ⟨hwidth, hheight, hcx, hdx, hnewX, hrow, hcy, hdy, hnewY⟩ := hfits
    simp only [Screen.cursor] at hcx hnewX hrow hcy hdy hnewY
    simp only [terminalMoveCursor, int64_of_fits hwidth, int64_of_fits hheight, int64_of_fits hcx,
      int64_of_fits hdx, Option.bind_eq_bind, Option.bind_some, int64_of_fits hnewX,
      floorDiv_eq hw' hnewX, int64_of_fits hrow, floorMod_eq hwidth hw' hnewX, int64_of_fits hcy,
      int64_of_fits hdy, int64_of_fits hnewY, floorMod_eq hheight hh' hnewY]
    rfl

theorem Screen.InBounds.pos (hs : s.InBounds) : 0 < s.graphics.width ∧ 0 < s.graphics.height :=
  ⟨Nat.zero_lt_of_lt hs.1, Nat.zero_lt_of_lt hs.2⟩

/-- What a move leaves behind: the graphics, and the cursor on the screen. -/
theorem terminalMoveCursor_spec (hw : 0 < s.graphics.width) (hh : 0 < s.graphics.height)
    (hmove : terminalMoveCursor s y x = some s') :
    s' = s.at (s.moved y x) ∧ s'.cursor = s.moved y x ∧ s'.InBounds := by
  obtain ⟨hfits, rfl⟩ := (terminalMoveCursor_eq_some_iff hw hh).mp hmove
  have hh' : (0 : ℤ) < s.graphics.height := Int.natCast_pos.mpr hh
  have hw' : (0 : ℤ) < s.graphics.width := Int.natCast_pos.mpr hw
  have hrange := s.cursor.move_range (y := y) (x := x) hh' hw'
  have hy : (uint64 (s.moved y x).1 : ℤ) = (s.moved y x).1 :=
    uint64_of_nonneg hrange.1.1 (hfits.height.emod hh' _)
  have hx : (uint64 (s.moved y x).2 : ℤ) = (s.moved y x).2 :=
    uint64_of_nonneg hrange.2.1 (hfits.width.emod hw' _)
  refine ⟨rfl, Prod.ext hy hx, ?_, ?_⟩
  · exact Int.ofNat_lt.mp (hx.trans_lt hrange.2.2)
  · exact Int.ofNat_lt.mp (hy.trans_lt hrange.1.2)

/-- Two moves are one. -/
theorem terminalMoveCursor_twice (hs : s.InBounds) (h₁ : terminalMoveCursor s y₁ x₁ = some s₁)
    (h₂ : terminalMoveCursor s₁ y₂ x₂ = some s₂) : s₂ = s.at (s.moved (y₁ + y₂) (x₁ + x₂)) := by
  obtain ⟨rfl, hcursor, hs₁⟩ := terminalMoveCursor_spec hs.pos.1 hs.pos.2 h₁
  obtain ⟨rfl, -⟩ := terminalMoveCursor_spec hs₁.pos.1 hs₁.pos.2 h₂
  have hmoved : (s.at (s.moved y₁ x₁)).moved y₂ x₂ = s.moved (y₁ + y₂) (x₁ + x₂) := by
    rw [Screen.moved, hcursor]
    exact s.cursor.move_move
  rw [hmoved, Screen.at_at]

/-- The row and the column of the cursor. -/
theorem Screen.InBounds.cursor_range (hs : s.InBounds) :
    (0 ≤ s.cursor.1 ∧ s.cursor.1 < s.graphics.height) ∧
      0 ≤ s.cursor.2 ∧ s.cursor.2 < s.graphics.width :=
  ⟨⟨Int.natCast_nonneg _, Int.ofNat_lt.mpr hs.2⟩, Int.natCast_nonneg _, Int.ofNat_lt.mpr hs.1⟩

/-- A move of no row and no column. -/
theorem Screen.moved_zero (hs : s.InBounds) : s.moved 0 0 = s.cursor :=
  Cursor.move_zero hs.cursor_range.1 hs.cursor_range.2

/-- One column back never overflows on a screen that has a size. -/
theorem Screen.InBounds.back_fits (hs : s.InBounds)
    (hwidth : SignedWord.Fits s.graphics.width) (hheight : SignedWord.Fits s.graphics.height) :
    s.Fits 0 (-1) := by
  obtain ⟨hcy, hcx⟩ := hs.cursor_range
  have hw : (0 : ℤ) < s.graphics.width := Int.natCast_pos.mpr hs.pos.1
  have hcol : (-1 : ℤ) * fontWidth = -8 := rfl
  have hlo : -8 ≤ (s.cursor.2 + -8) / s.graphics.width :=
    Int.le_ediv_of_mul_le hw (by nlinarith)
  have hhi : (s.cursor.2 + -8) / s.graphics.width < 1 :=
    Int.ediv_lt_of_lt_mul hw (by omega)
  unfold SignedWord.Fits at hwidth hheight
  constructor <;> simp only [SignedWord.Fits, hcol, fontHeight] <;> omega

/-! ### Characters -/

/-- Drawing changes pixels only. -/
theorem drawChar_size {g : Graphics} {height width : ℕ}
    (hdraw : drawChar font s height width c = some g) :
    g.width = s.graphics.width ∧ g.height = s.graphics.height := by
  have hfold : ∀ (f : Graphics → ℕ → Graphics),
      (∀ g i, (f g i).width = g.width ∧ (f g i).height = g.height) → ∀ (l : List ℕ) g,
      (l.foldl f g).width = g.width ∧ (l.foldl f g).height = g.height := by
    intro f hf l
    induction l with
    | nil => simp
    | cons i l ih =>
      intro g
      simp [ih, hf]
  obtain ⟨-, hdraw⟩ := Option.ite_none_right_eq_some.mp hdraw
  rw [← Option.some.inj hdraw]
  refine hfold _ (fun g i => hfold _ (fun g j => ?_) _ g) _ _
  unfold putPixel
  split_ifs <;> simp

/-- A character that is drawn: all but the four that `terminal_putchar` looks for. -/
def Drawn (c : Byte) : Prop := c ≠ 0x0A ∧ c ≠ 0x0D ∧ c ≠ 0x09 ∧ c ≠ 0x08

instance : DecidablePred Drawn := fun c =>
  inferInstanceAs (Decidable (c ≠ 0x0A ∧ c ≠ 0x0D ∧ c ≠ 0x09 ∧ c ≠ 0x08))

theorem terminalPutchar_drawn (hc : Drawn c) :
    terminalPutchar font s c =
      (drawChar font s s.terminal.cursorY s.terminal.cursorX c).bind fun g =>
        terminalMoveCursor { s with graphics := g } 0 1 := by
  obtain ⟨hn, hr, ht, hb⟩ := hc
  simp only [terminalPutchar, if_neg hn, if_neg hr, if_neg ht, if_neg hb]

/-- A screen with another picture on it. -/
theorem Screen.InBounds.of_size (hs : s.InBounds) {g : Graphics}
    (hg : g.width = s.graphics.width ∧ g.height = s.graphics.height) :
    Screen.InBounds { s with graphics := g } := by
  simp only [Screen.InBounds, hg]
  exact hs

theorem Screen.at_cursor (hx : SignedWord.Fits s.cursor.2) (hy : SignedWord.Fits s.cursor.1) :
    s.at s.cursor = s := by
  have hcx := Int.natCast_inj.mp (uint64_of_nonneg (Int.natCast_nonneg _) hx)
  have hcy := Int.natCast_inj.mp (uint64_of_nonneg (Int.natCast_nonneg _) hy)
  simp only [Screen.at, Screen.cursor, hcx, hcy]

/-- After a drawn character `\b` takes the cursor back. -/
theorem terminalPutchar_undone (hs : s.InBounds) (hc : Drawn c)
    (hput : terminalPutchar font s c = some s₁) :
    ∃ s₂, terminalPutchar font s₁ 0x08 = some s₂ ∧ s₂.terminal = s.terminal := by
  rw [terminalPutchar_drawn hc] at hput
  obtain ⟨g, hdraw, hput⟩ := Option.bind_eq_some_iff.mp hput
  have hd := hs.of_size (drawChar_size hdraw)
  obtain ⟨hfits, -⟩ := (terminalMoveCursor_eq_some_iff hd.pos.1 hd.pos.2).mp hput
  obtain ⟨hs₁, -, hin⟩ := terminalMoveCursor_spec hd.pos.1 hd.pos.2 hput
  have hback : s₁.Fits 0 (-1) := by
    subst hs₁
    exact hin.back_fits hfits.width hfits.height
  have hmove := (terminalMoveCursor_eq_some_iff hin.pos.1 hin.pos.2).mpr ⟨hback, rfl⟩
  refine ⟨_, hmove, ?_⟩
  rw [terminalMoveCursor_twice hd hput hmove, add_zero, Int.add_right_neg, Screen.moved_zero hd,
    Screen.at_cursor hfits.cursorX hfits.cursorY]

/-- **Cursor moves compose**, and `\b` takes the cursor back to where a character was drawn. -/
theorem cursor_moves_compose (hs : s.InBounds) :
    (∀ y₁ x₁ y₂ x₂ s₁ s₂ s', terminalMoveCursor s y₁ x₁ = some s₁ →
      terminalMoveCursor s₁ y₂ x₂ = some s₂ →
      terminalMoveCursor s (y₁ + y₂) (x₁ + x₂) = some s' → s₂ = s' ∧ s'.InBounds) ∧
    ∀ font c s₁, Drawn c → terminalPutchar font s c = some s₁ →
      ∃ s₂, terminalPutchar font s₁ 0x08 = some s₂ ∧ s₂.terminal = s.terminal := by
  refine ⟨fun y₁ x₁ y₂ x₂ s₁ s₂ s' h₁ h₂ h => ?_, fun font c s₁ hc hput =>
    terminalPutchar_undone hs hc hput⟩
  obtain ⟨rfl, -, hin⟩ := terminalMoveCursor_spec hs.pos.1 hs.pos.2 h
  exact ⟨terminalMoveCursor_twice hs h₁ h₂, hin⟩

/-- On a screen of any real size a move of any real length does not overflow. -/
theorem Screen.InBounds.fits (hs : s.InBounds) (hw : s.graphics.width < 2 ^ 31)
    (hh : s.graphics.height < 2 ^ 31) (hy : y.natAbs < 2 ^ 31) (hx : x.natAbs < 2 ^ 31) :
    s.Fits y x := by
  obtain ⟨hcy, hcx⟩ := hs.cursor_range
  have hq : ((s.cursor.2 + x * fontWidth) / s.graphics.width).natAbs ≤
      (s.cursor.2 + x * fontWidth).natAbs := Int.natAbs_ediv_le_natAbs _ _
  unfold fontWidth at hq
  constructor <;> simp only [SignedWord.Fits, fontWidth, fontHeight] <;> omega

/-- A screen of 20 by 20 pixels, with the cursor near the lower right corner. -/
def smallScreen : Screen where
  graphics := { address := fun _ => 0, width := 20, height := 20, pitch := 80 }
  terminal := { cursorX := 16, cursorY := 16, foregroundColor := 0xFFFFFF, backgroundColor := 0 }

theorem smallScreen_inBounds : smallScreen.InBounds := by simp [Screen.InBounds, smallScreen]

theorem cursor_moves_compose_example : ∃ s₁ s₂ s',
    terminalMoveCursor smallScreen (-3) 2 = some s₁ ∧ terminalMoveCursor s₁ 1 (-5) = some s₂ ∧
      terminalMoveCursor smallScreen (-2) (-3) = some s' ∧ s₂ = s' ∧ s'.InBounds := by
  have hmove : ∀ s : Screen, s.InBounds → s.graphics = smallScreen.graphics → ∀ y x : ℤ,
      y.natAbs < 2 ^ 31 → x.natAbs < 2 ^ 31 → ∃ s', terminalMoveCursor s y x = some s' := by
    intro s hs hg y x hy hx
    have hfits := hs.fits (by rw [hg]; decide) (by rw [hg]; decide) hy hx
    exact ⟨_, (terminalMoveCursor_eq_some_iff hs.pos.1 hs.pos.2).mpr ⟨hfits, rfl⟩⟩
  have hs := smallScreen_inBounds
  obtain ⟨s₁, h₁⟩ := hmove _ hs rfl (-3) 2 (by decide) (by decide)
  obtain ⟨hs₁, -, hin⟩ := terminalMoveCursor_spec hs.pos.1 hs.pos.2 h₁
  obtain ⟨s₂, h₂⟩ := hmove s₁ hin (by rw [hs₁]; rfl) 1 (-5) (by decide) (by decide)
  obtain ⟨s', h⟩ := hmove _ hs rfl (-2) (-3) (by decide) (by decide)
  exact ⟨s₁, s₂, s', h₁, h₂, h, (cursor_moves_compose hs).1 (-3) 2 1 (-5) s₁ s₂ s' h₁ h₂ h⟩

/-! ### Runs -/

/-- A call of the terminal. -/
inductive TerminalCall
  | init (c bgc : BitVec 32)
  | moveCursor (y x : ℤ)
  | setPosition (y x : ℕ)
  | putchar (c : Byte)
  | write (str : CString)

def TerminalCall.exec (font : Font) (s : Screen) : TerminalCall → Option Screen
  | .init c bgc => some (terminalInit s c bgc)
  | .moveCursor y x => terminalMoveCursor s y x
  | .setPosition y x => some (terminalSetPosition s y x)
  | .putchar c => terminalPutchar font s c
  | .write str => terminalWrite font s str

/-- The screen after some calls. -/
def TerminalCall.run (font : Font) (s : Screen) (calls : List TerminalCall) : Option Screen :=
  calls.foldlM (TerminalCall.exec font) s

/-- The cursor is on the screen after a call, and in `terminal_write` after each character. -/
def TerminalCall.Stays (font : Font) (s : Screen) : TerminalCall → Screen → Prop
  | .write str, _ => ∀ front s', front <+: str.bytes →
      front.foldlM (terminalPutchar font) s = some s' → s'.InBounds
  | _, s' => s'.InBounds

/-- The call sets the cursor to the pixels just behind the last row or column. -/
def TerminalCall.OverEdge (w h : ℕ) : TerminalCall → Prop
  | .setPosition y x => x ≤ w ∧ y ≤ h ∧ (x = w ∨ y = h)
  | _ => False

variable {calls : List TerminalCall} {call : TerminalCall}

theorem terminalPutchar_keeps (hs : s.InBounds) (hput : terminalPutchar font s c = some s') :
    s'.InBounds ∧ s'.graphics.width = s.graphics.width ∧
      s'.graphics.height = s.graphics.height := by
  have hmove : ∀ s₁ : Screen, s₁.InBounds → ∀ y x, terminalMoveCursor s₁ y x = some s' →
      s'.InBounds ∧ s'.graphics = s₁.graphics := by
    intro s₁ hs₁ y x h
    obtain ⟨rfl, -, hin⟩ := terminalMoveCursor_spec hs₁.pos.1 hs₁.pos.2 h
    exact ⟨hin, rfl⟩
  have hleft : Screen.InBounds { s with terminal := { s.terminal with cursorX := 0 } } :=
    ⟨hs.pos.1, hs.2⟩
  by_cases hc : Drawn c
  · rw [terminalPutchar_drawn hc] at hput
    obtain ⟨g, hdraw, hput⟩ := Option.bind_eq_some_iff.mp hput
    have hsize := drawChar_size hdraw
    obtain ⟨hin, hg⟩ := hmove _ (hs.of_size hsize) _ _ hput
    rw [hg]
    exact ⟨hin, hsize⟩
  · simp only [terminalPutchar] at hput
    split_ifs at hput with hn hr ht hb
    · obtain ⟨hin, hg⟩ := hmove _ hleft _ _ hput
      simp [hin, hg]
    · cases hput
      exact ⟨hleft, rfl, rfl⟩
    · obtain ⟨hin, hg⟩ := hmove _ hs _ _ hput
      simp [hin, hg]
    · obtain ⟨hin, hg⟩ := hmove _ hs _ _ hput
      simp [hin, hg]
    · exact absurd ⟨hn, hr, ht, hb⟩ hc

theorem terminalSetPosition_inBounds_iff (hs : s.InBounds) (y x : ℕ) :
    (terminalSetPosition s y x).InBounds ↔
      ¬ (x ≤ s.graphics.width ∧ y ≤ s.graphics.height ∧
        (x = s.graphics.width ∨ y = s.graphics.height)) := by
  unfold terminalSetPosition
  split_ifs with h
  · exact iff_of_true hs (by omega)
  · simp only [Screen.InBounds]
    omega

/-- Characters, one after the other. -/
theorem foldlM_putchar_keeps (hs : s.InBounds) {front : List Byte}
    (hput : front.foldlM (terminalPutchar font) s = some s') :
    s'.InBounds ∧ s'.graphics.width = s.graphics.width ∧
      s'.graphics.height = s.graphics.height := by
  induction front generalizing s with
  | nil =>
    cases hput
    exact ⟨hs, rfl, rfl⟩
  | cons c front ih =>
    rw [List.foldlM_cons, Option.bind_eq_bind, Option.bind_eq_some_iff] at hput
    obtain ⟨s₁, hc, hput⟩ := hput
    obtain ⟨hs₁, hw₁, hh₁⟩ := terminalPutchar_keeps hs hc
    obtain ⟨hs', hw', hh'⟩ := ih hs₁ hput
    exact ⟨hs', hw'.trans hw₁, hh'.trans hh₁⟩

/-- A call from a cursor on the screen. -/
theorem TerminalCall.stays_iff (hs : s.InBounds) (hexec : call.exec font s = some s') :
    call.Stays font s s' ↔ ¬ call.OverEdge s.graphics.width s.graphics.height := by
  cases call with
  | init c bgc =>
    cases hexec
    exact iff_of_true hs.pos not_false
  | moveCursor y x =>
    have hspec := terminalMoveCursor_spec hs.pos.1 hs.pos.2 hexec
    exact iff_of_true hspec.2.2 not_false
  | setPosition y x =>
    cases hexec
    exact terminalSetPosition_inBounds_iff hs y x
  | putchar c => exact iff_of_true (terminalPutchar_keeps hs hexec).1 not_false
  | write str => exact iff_of_true (fun _ _ _ h => (foldlM_putchar_keeps hs h).1) not_false

theorem TerminalCall.exec_keeps (hs : s.InBounds) (hexec : call.exec font s = some s')
    (hedge : ¬ call.OverEdge s.graphics.width s.graphics.height) :
    s'.InBounds ∧ s'.graphics.width = s.graphics.width ∧
      s'.graphics.height = s.graphics.height := by
  cases call with
  | init c bgc =>
    cases hexec
    exact ⟨hs.pos, rfl, rfl⟩
  | moveCursor y x =>
    obtain ⟨rfl, -, hin⟩ := terminalMoveCursor_spec hs.pos.1 hs.pos.2 hexec
    exact ⟨hin, rfl, rfl⟩
  | setPosition y x =>
    cases hexec
    refine ⟨(terminalSetPosition_inBounds_iff hs y x).mpr hedge, ?_⟩
    unfold terminalSetPosition
    split_ifs <;> simp
  | putchar c => exact terminalPutchar_keeps hs hexec
  | write str => exact foldlM_putchar_keeps hs hexec

/-- **The cursor stays on the screen** after `terminal_init`, exactly if no call of
`terminal_set_position` is for a pixel just behind the last row or column. -/
theorem cursor_stays_iff {color bgc : BitVec 32} (hw : 0 < s.graphics.width)
    (hh : 0 < s.graphics.height)
    (hrun : TerminalCall.run font (terminalInit s color bgc) calls = some s') :
    Along (TerminalCall.exec font) (TerminalCall.Stays font) (terminalInit s color bgc) calls ↔
      ∀ call ∈ calls, ¬ call.OverEdge s.graphics.width s.graphics.height := by
  rw [← along_events_iff hrun]
  refine along_iff (fun s₁ => s₁.InBounds ∧ s₁.graphics.width = s.graphics.width ∧
    s₁.graphics.height = s.graphics.height) ⟨⟨hw, hh⟩, rfl, rfl⟩ ?_ ?_
  · rintro s₁ call s₂ ⟨hs₁, hw₁, hh₁⟩ hexec
    rw [← hw₁, ← hh₁]
    exact TerminalCall.stays_iff hs₁ hexec
  · rintro s₁ call s₂ ⟨hs₁, hw₁, hh₁⟩ hexec hedge
    rw [← hw₁, ← hh₁] at hedge ⊢
    exact TerminalCall.exec_keeps hs₁ hexec hedge

theorem cursor_stays_iff_example :
    Along (TerminalCall.exec fun _ _ => 0) (TerminalCall.Stays fun _ _ => 0)
      (terminalInit smallScreen 0xFFFFFF 0) [.setPosition 19 19, .setPosition 30 5] :=
  (cursor_stays_iff (s := smallScreen) (by decide) (by decide) rfl).mpr
    (by simp [TerminalCall.OverEdge, smallScreen])

/-- The column behind the last one is let through. -/
theorem cursor_stays_edge :
    ¬ Along (TerminalCall.exec fun _ _ => 0) (TerminalCall.Stays fun _ _ => 0)
      (terminalInit smallScreen 0xFFFFFF 0) [.setPosition 0 20] := by
  intro h
  have hin := (h _ rfl).1
  exact absurd hin.1 (by decide)

end Bethany
