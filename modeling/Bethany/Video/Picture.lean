import Bethany.Library.TextGrid
import Bethany.Video.Terminal

/-!
# The picture on the screen

The terminal draws characters pixel by pixel into the frame buffer.  What is to be seen there is a
grid of cells, each with the glyph of a character in the colours it was written in.

* `clear`, `terminalClear`, `graphicsInit`: as in `graphics.c` and `terminal.c`;
* `Graphics.Painted`: how drawing changes the pixels that are to be seen, and nothing else;
  `drawGlyph_painted`, `clear_painted`;
* `Console`: the grid of cells, and what each call of the terminal does to it;
* `Console.Shows`: the frame buffer shows the cells, and the cursor is at the place of the next;
* `screen_shows_console`: in every run of calls the frame buffer shows what the console holds;
* `screen_shows_lines`: lines that are written to the terminal are to be seen in their rows.
-/

namespace Bethany

open Machine Runs SignedWord TextGrid

/-! ### The source -/

abbrev Color := BitVec 32

/-- `graphics_init`, for a frame buffer with the pixels `fb`. -/
def graphicsInit (fb : ℕ → Color) (pitch y x : ℕ) : Graphics where
  address := fb
  width := x
  height := y
  pitch := pitch

/-- `clear`: there is no check as in `put_pixel`. -/
def clear (g : Graphics) (color : Color) : Graphics :=
  (List.range g.height).foldl (fun g i =>
    (List.range g.width).foldl (fun g j =>
      { g with address := Function.update g.address (u64 (i * (g.pitch / 4) + j)) color }) g) g

/-- `terminal_clear` -/
def terminalClear (s : Screen) : Screen :=
  { s with graphics := clear s.graphics s.terminal.backgroundColor }

/-- A call of the terminal; `terminal_clear` is not among those of `TerminalCall`. -/
inductive ScreenCall
  | terminal (call : TerminalCall)
  | clear

def ScreenCall.exec (font : Font) (s : Screen) : ScreenCall → Option Screen
  | .terminal call => call.exec font s
  | .clear => some (terminalClear s)

def ScreenCall.run (font : Font) (s : Screen) (calls : List ScreenCall) : Option Screen :=
  calls.foldlM (ScreenCall.exec font) s

/-! ### Pixels -/

/-- Colours by row and column. -/
abbrev Picture := ℕ → ℕ → Color

/-- The picture in the frame buffer. -/
def Graphics.pixel (g : Graphics) : Picture := fun y x => g.address (y * (g.pitch / 4) + x)

/-- Rows do not overlap, and the frame buffer fits into the address space. -/
structure Graphics.Sound (g : Graphics) : Prop where
  width : g.width ≤ g.pitch / 4
  size : g.height * (g.pitch / 4) ≤ 2 ^ 64

/-- From `g` to `g'` each pixel that is to be seen is changed by `f`, and no other memory is. -/
structure Graphics.Painted (g g' : Graphics) (f : ℕ → ℕ → Color → Color) : Prop where
  width : g'.width = g.width
  height : g'.height = g.height
  pitch : g'.pitch = g.pitch
  pixel : ∀ y < g.height, ∀ x < g.width, g'.pixel y x = f y x (g.pixel y x)
  rest : ∀ a, (∀ y < g.height, ∀ x < g.width, a ≠ y * (g.pitch / 4) + x) →
    g'.address a = g.address a

variable {g g' g'' : Graphics} {f f' : ℕ → ℕ → Color → Color} {y x : ℕ} {color : Color}
  {font : Font}

namespace Graphics

theorem Painted.refl (g : Graphics) : g.Painted g fun _ _ c => c :=
  ⟨rfl, rfl, rfl, fun _ _ _ _ => rfl, fun _ _ => rfl⟩

theorem Painted.trans (h : g.Painted g' f) (h' : g'.Painted g'' f') :
    g.Painted g'' fun y x c => f' y x (f y x c) := by
  refine ⟨h'.width.trans h.width, h'.height.trans h.height, h'.pitch.trans h.pitch,
    fun y hy x hx => ?_, fun a ha => ?_⟩
  · rw [h'.pixel y (h.height ▸ hy) x (h.width ▸ hx), h.pixel y hy x hx]
  · rw [h'.rest a (by rw [h.width, h.height, h.pitch]; exact ha), h.rest a ha]

theorem Painted.congr (h : g.Painted g' f)
    (hf : ∀ y < g.height, ∀ x < g.width, ∀ c, f y x c = f' y x c) : g.Painted g' f' :=
  { h with pixel := fun y hy x hx => (h.pixel y hy x hx).trans (hf y hy x hx _) }

theorem Painted.sound (h : g.Painted g' f) (hg : g.Sound) : g'.Sound :=
  ⟨by rw [h.width, h.pitch]; exact hg.width, by rw [h.height, h.pitch]; exact hg.size⟩

/-- A loop. -/
theorem Painted.foldl {step : Graphics → ℕ → Graphics} {f : ℕ → ℕ → ℕ → Color → Color}
    (hg : g.Sound) (l : List ℕ)
    (hstep : ∀ i ∈ l, ∀ g' : Graphics, g'.Sound → g'.width = g.width → g'.height = g.height →
      g'.Painted (step g' i) (f i)) :
    g.Painted (l.foldl step g) fun y x c => l.foldl (fun c i => f i y x c) c := by
  induction l generalizing g with
  | nil => exact Painted.refl g
  | cons i l ih =>
    have hfirst := hstep i (by simp) g hg rfl rfl
    refine hfirst.trans (ih (hfirst.sound hg) fun j hj g' hg' hw hh => ?_)
    exact hstep j (by simp [hj]) g' hg' (hw.trans hfirst.width) (hh.trans hfirst.height)

/-- One pixel. -/
theorem Sound.painted_update (hg : g.Sound) (hy : y < g.height) (hx : x < g.width) :
    g.Painted { g with address := Function.update g.address (u64 (y * (g.pitch / 4) + x)) color }
      fun r q c => if r = y ∧ q = x then color else c := by
  have hrow : ∀ r < g.height, ∀ q < g.width, r * (g.pitch / 4) + q < 2 ^ 64 := by
    intro r hr q hq
    have hle : (r + 1) * (g.pitch / 4) ≤ g.height * (g.pitch / 4) := Nat.mul_le_mul_right _ hr
    rw [Nat.succ_mul] at hle
    have hwidth := hg.width
    have hsize := hg.size
    omega
  rw [u64_of_lt (hrow y hy x hx)]
  refine ⟨rfl, rfl, rfl, fun r hr q hq => ?_, fun a ha => Function.update_of_ne (ha y hy x hx) _ _⟩
  have hwidth := hg.width
  have hiff : r * (g.pitch / 4) + q = y * (g.pitch / 4) + x ↔ r = y ∧ q = x := by
    constructor
    · intro heq
      have hq' := place_of_row (i := r) (show q < g.pitch / 4 by omega)
      have hx' := place_of_row (i := y) (show x < g.pitch / 4 by omega)
      rw [heq] at hq'
      exact ⟨hq'.1.symm.trans hx'.1, hq'.2.symm.trans hx'.2⟩
    · rintro ⟨rfl, rfl⟩
      rfl
  simp only [pixel, Function.update_apply, hiff]

end Graphics

open Graphics

/-- `put_pixel` paints one pixel, if this is on the screen. -/
theorem putPixel_painted (hg : g.Sound) (y x : ℕ) (color : Color) :
    g.Painted (putPixel g y x color) fun r q c => if r = y ∧ q = x then color else c := by
  unfold putPixel
  split_ifs with h
  · exact hg.painted_update h.1 h.2
  · refine (Painted.refl g).congr fun r hr q hq c => (if_neg ?_).symm
    rintro ⟨rfl, rfl⟩
    exact h ⟨hr, hq⟩

/-- A loop over a range in which one step has an effect. -/
theorem foldl_range_pick {β : Type*} (v : ℕ → β → β) (k a n : ℕ) (c : β) :
    (List.range n).foldl (fun c i => if k = a + i then v i c else c) c =
      if a ≤ k ∧ k < a + n then v (k - a) c else c := by
  induction n with
  | zero =>
    rw [List.range_zero, List.foldl_nil, if_neg (by omega)]
  | succ n ih =>
    rw [List.range_succ, List.foldl_append, ih, List.foldl_cons, List.foldl_nil]
    rcases lt_trichotomy k (a + n) with hk | rfl | hk
    · rw [if_neg hk.ne]
      exact if_congr (by omega) rfl rfl
    · rw [if_pos rfl, if_neg (by omega), if_pos (by omega), Nat.add_sub_cancel_left]
    · rw [if_neg hk.ne', if_neg (by omega), if_neg (by omega)]

/-- The picture of a character. -/
def glyph (font : Font) (c : Byte) (foreground background : Color) : Picture := fun i j =>
  if (font c i).getLsbD (7 - j) then foreground else background

/-- One row of a glyph. -/
theorem drawRow_painted (hg : g.Sound) {y width : ℕ} (hwidth : width + 8 ≤ 2 ^ 64)
    (row : ℕ → Color) :
    g.Painted ((List.range 8).foldl (fun g j => putPixel g y (u64 (width + j)) (row j)) g)
      fun r q old => if r = y then
        (if width ≤ q ∧ q < width + 8 then row (q - width) else old) else old := by
  have hpixel : ∀ j ∈ List.range 8, ∀ g' : Graphics, g'.Sound → g'.width = g.width →
      g'.height = g.height → g'.Painted (putPixel g' y (u64 (width + j)) (row j)) fun r q old =>
        if r = y ∧ q = u64 (width + j) then row j else old :=
    fun j _ g' hg' _ _ => putPixel_painted hg' y (u64 (width + j)) (row j)
  refine (Painted.foldl hg _ hpixel).congr fun r _ q _ old => ?_
  rw [← foldl_range_pick (fun j _ => row j)]
  split_ifs with hr
  · refine List.foldl_ext _ _ _ fun old j hj => ?_
    rw [List.mem_range] at hj
    have hx : u64 (width + j) = width + j := u64_of_lt (by omega)
    simp only [hx, hr, true_and]
  · simp [hr]

/-- `draw_char` paints the glyph, as far as it is on the screen. -/
theorem drawGlyph_painted (font : Font) {s : Screen} (hg : s.graphics.Sound) {height width : ℕ}
    (hheight : height + 16 ≤ 2 ^ 64) (hwidth : width + 8 ≤ 2 ^ 64) (c : Byte) :
    s.graphics.Painted (drawGlyph font s height width c) fun y x old =>
      if height ≤ y ∧ y < height + 16 then
        (if width ≤ x ∧ x < width + 8 then
          glyph font c s.terminal.foregroundColor s.terminal.backgroundColor (y - height)
            (x - width)
        else old)
      else old := by
  set picture := glyph font c s.terminal.foregroundColor s.terminal.backgroundColor
  have hrow : ∀ i ∈ List.range 16, ∀ g' : Graphics, g'.Sound → g'.width = s.graphics.width →
      g'.height = s.graphics.height → g'.Painted
        ((List.range 8).foldl (fun g j =>
          putPixel g (u64 (height + i)) (u64 (width + j)) (picture i j)) g') fun y x old =>
        if y = height + i then
          (if width ≤ x ∧ x < width + 8 then picture i (x - width) else old) else old := by
    intro i hi g' hg' _ _
    rw [List.mem_range] at hi
    have hy : u64 (height + i) = height + i := u64_of_lt (by omega)
    rw [hy]
    exact drawRow_painted hg' hwidth (picture i)
  refine (Painted.foldl hg _ hrow).congr fun y _ x _ old => ?_
  exact foldl_range_pick (fun i old =>
    if width ≤ x ∧ x < width + 8 then picture i (x - width) else old) y height 16 old

/-- `clear` paints everything that is to be seen. -/
theorem clear_painted (hg : g.Sound) (color : Color) :
    g.Painted (clear g color) fun _ _ _ => color := by
  have hrow : ∀ i ∈ List.range g.height, ∀ g' : Graphics, g'.Sound → g'.width = g.width →
      g'.height = g.height → g'.Painted
        ((List.range g'.width).foldl (fun g j =>
          { g with address := Function.update g.address (u64 (i * (g.pitch / 4) + j)) color }) g')
        fun y _ old => if y = 0 + i then color else old := by
    intro i hi g' hg' _ hheight
    rw [List.mem_range, ← hheight] at hi
    have hpixel : ∀ j ∈ List.range g'.width, ∀ g'' : Graphics, g''.Sound → g''.width = g'.width →
        g''.height = g'.height → g''.Painted
          { g'' with
            address := Function.update g''.address (u64 (i * (g''.pitch / 4) + j)) color }
          fun y x old => if y = i ∧ x = j then color else old := by
      intro j hj g'' hg'' hwidth hheight
      rw [List.mem_range] at hj
      exact hg''.painted_update (hheight ▸ hi) (hwidth ▸ hj)
    refine (Painted.foldl hg' _ hpixel).congr fun y _ x hx old => ?_
    have hpick := foldl_range_pick (fun _ _ => color) x 0 g'.width old
    rw [if_pos ⟨Nat.zero_le _, by omega⟩] at hpick
    split_ifs with hy
    · refine Eq.trans (List.foldl_ext _ _ _ fun old j _ => ?_) hpick
      simp [hy]
    · rw [Nat.zero_add] at hy
      simp [hy]
  refine (Painted.foldl hg _ hrow).congr fun y hy x _ old => ?_
  rw [foldl_range_pick (fun _ _ => color), if_pos ⟨Nat.zero_le _, by omega⟩]

/-! ### The console -/

/-- What is to be seen: the pictures in the cells, and the colours of the next characters. -/
structure Console where
  grid : Grid Picture
  foreground : Color
  background : Color

namespace Console

variable (font : Font) (rows cols : ℕ) (t : Console)

/-- The next character in its cell. -/
def draw (c : Byte) : Console :=
  { t with grid := (t.grid.put (glyph font c t.foreground t.background)).move rows cols 1 }

/-- A character: the end of a line, the start of the line, the next fourth column, the column
before, or a picture. -/
def putchar (c : Byte) : Console :=
  if c = 0x0A then { t with grid := t.grid.newline rows cols }
  else if c = 0x0D then { t with grid := t.grid.startOfRow cols }
  else if c = 0x09 then
    { t with grid := t.grid.move rows cols (4 - t.grid.place % cols % 4 : ℕ) }
  else if c = 0x08 then { t with grid := t.grid.move rows cols (-1) }
  else t.draw font rows cols c

def terminalCall : TerminalCall → Console
  | .init c bgc => ⟨{ t.grid with place := 0 }, c, bgc⟩
  | .moveCursor y x => { t with grid := t.grid.move rows cols (y * cols + x) }
  | .setPosition y x =>
      if fontWidth * cols < x ∨ fontHeight * rows < y then t
      else { t with grid := { t.grid with place := y / fontHeight * cols + x / fontWidth } }
  | .putchar c => t.putchar font rows cols c
  | .write str => str.bytes.foldl (putchar font rows cols) t

def call : ScreenCall → Console
  | .terminal call => t.terminalCall font rows cols call
  | .clear => { t with grid := { t.grid with cells := fun _ _ _ => t.background } }

def run (calls : List ScreenCall) : Console := calls.foldl (call font rows cols) t

/-- The frame buffer shows the console, and apart from that it is as it was in `before`. -/
structure Shows (before : Graphics) (s : Screen) : Prop where
  sound : s.graphics.Sound
  width : s.graphics.width = fontWidth * cols
  height : s.graphics.height = fontHeight * rows
  small : fontWidth * cols < 2 ^ 31 ∧ fontHeight * rows < 2 ^ 31
  place : t.grid.place < rows * cols
  cursorX : s.terminal.cursorX = fontWidth * (t.grid.place % cols)
  cursorY : s.terminal.cursorY = fontHeight * (t.grid.place / cols)
  foreground : s.terminal.foregroundColor = t.foreground
  background : s.terminal.backgroundColor = t.background
  cells : ∀ k < rows * cols, ∀ i < fontHeight, ∀ j < fontWidth,
    s.graphics.pixel (fontHeight * (k / cols) + i) (fontWidth * (k % cols) + j) =
      t.grid.cells k i j
  pitch : s.graphics.pitch = before.pitch
  rest : ∀ a, (∀ y < fontHeight * rows, ∀ x < fontWidth * cols, a ≠ y * (before.pitch / 4) + x) →
    s.graphics.address a = before.address a

end Console

variable {s s' : Screen} {t t' : Console} {rows cols : ℕ} {c : Byte} {before : Graphics}

namespace Console

theorem Shows.pos (h : t.Shows rows cols before s) : 0 < rows ∧ 0 < cols := by
  have hplace := h.place
  exact ⟨Nat.pos_of_ne_zero fun h0 => by simp [h0] at hplace,
    Nat.pos_of_ne_zero fun h0 => by simp [h0] at hplace⟩

theorem Shows.row_lt (h : t.Shows rows cols before s) : t.grid.place / cols < rows :=
  Nat.div_lt_of_lt_mul (by rw [mul_comm]; exact h.place)

theorem Shows.inBounds (h : t.Shows rows cols before s) : s.InBounds := by
  have hcol := Nat.mod_lt t.grid.place h.pos.2
  have hrow := h.row_lt
  rw [Screen.InBounds, h.cursorX, h.cursorY, h.width, h.height]
  exact ⟨Nat.mul_lt_mul_of_pos_left hcol (by decide), Nat.mul_lt_mul_of_pos_left hrow (by decide)⟩

/-- A move of the cursor. -/
theorem Shows.move (h : t.Shows rows cols before s) {y x : ℤ} (hy : y.natAbs < 2 ^ 31)
    (hx : x.natAbs < 2 ^ 31) :
    ∃ s', terminalMoveCursor s y x = some s' ∧ s'.graphics = s.graphics ∧
      Shows rows cols { t with grid := t.grid.move rows cols (y * cols + x) } before s' := by
  have hin := h.inBounds
  have hfits := hin.fits (h.width ▸ h.small.1) (h.height ▸ h.small.2) hy hx
  have hmove := (terminalMoveCursor_eq_some_iff hin.pos.1 hin.pos.2).mpr ⟨hfits, rfl⟩
  obtain ⟨-, hcursor, -⟩ := terminalMoveCursor_spec hin.pos.1 hin.pos.2 hmove
  refine ⟨_, hmove, rfl, ?_⟩
  set s' := s.at (s.moved y x)
  have hcols : (0 : ℤ) < cols := Int.natCast_pos.mpr h.pos.2
  have hplace := move_place (g := t.grid) (Nat.zero_lt_of_lt h.place) (y * cols + x)
  have hsplit : (t.grid.place + (y * cols + x) : ℤ) =
      (t.grid.place % cols + x) + (t.grid.place / cols + y) * cols := by
    have := Int.emod_add_mul_ediv t.grid.place cols
    linarith [this]
  have hcol : ((t.grid.move rows cols (y * cols + x)).place % cols : ℤ) =
      (t.grid.place % cols + x) % cols := by
    rw [hplace, col_emod, hsplit, Int.add_mul_emod_self_right]
  have hrow : ((t.grid.move rows cols (y * cols + x)).place / cols : ℤ) =
      (t.grid.place / cols + y + (t.grid.place % cols + x) / cols) % rows := by
    rw [hplace, row_emod h.pos.2, hsplit, Int.add_mul_ediv_right _ _ hcols.ne', add_comm]
  have hX : s.cursor.2 + x * fontWidth = fontWidth * (t.grid.place % cols + x : ℤ) := by
    simp only [Screen.cursor, h.cursorX]
    push_cast
    ring
  refine
    { h with
      place := place_lt (Nat.zero_lt_of_lt h.place) _
      cursorX := ?_
      cursorY := ?_ }
  · have hx' : (s'.terminal.cursorX : ℤ) = (s.moved y x).2 := congrArg Prod.snd hcursor
    rw [Screen.moved, Cursor.move, h.width, hX, Nat.cast_mul,
      Int.mul_emod_mul_of_pos _ _ (by decide), ← hcol] at hx'
    dsimp only at hx' ⊢
    exact_mod_cast hx'
  · have hy' : (s'.terminal.cursorY : ℤ) = (s.moved y x).1 := congrArg Prod.fst hcursor
    have hY : s.cursor.1 = fontHeight * (t.grid.place / cols : ℤ) := by
      simp [Screen.cursor, h.cursorY]
    rw [Screen.moved, Cursor.move, h.width, h.height, hX, Nat.cast_mul, Nat.cast_mul,
      Int.mul_ediv_mul_of_pos _ _ (by decide), hY, mul_comm _ (fontHeight : ℤ), ← mul_add,
      Int.mul_emod_mul_of_pos _ _ (by decide), ← add_assoc, ← hrow] at hy'
    dsimp only at hy' ⊢
    exact_mod_cast hy'

/-- Cells are the same if their rows and columns are. -/
theorem cell_ext {k p : ℕ} (hrow : k / cols = p / cols) (hcol : k % cols = p % cols) : k = p := by
  rw [← Nat.div_add_mod k cols, ← Nat.div_add_mod p cols, hrow, hcol]

/-- The pixels of a cell are on the screen. -/
theorem Shows.pixel_lt (h : t.Shows rows cols before s) {k i j : ℕ} (hk : k < rows * cols)
    (hi : i < fontHeight) (hj : j < fontWidth) :
    fontHeight * (k / cols) + i < s.graphics.height ∧
      fontWidth * (k % cols) + j < s.graphics.width := by
  have hrow : k / cols + 1 ≤ rows := Nat.div_lt_of_lt_mul (by rw [mul_comm]; exact hk)
  have hcol : k % cols + 1 ≤ cols := Nat.mod_lt k h.pos.2
  have hrow' := Nat.mul_le_mul_left fontHeight hrow
  have hcol' := Nat.mul_le_mul_left fontWidth hcol
  rw [h.height, h.width]
  rw [Nat.mul_succ] at hrow' hcol'
  omega

/-- A picture is painted at the cursor. -/
theorem Shows.put (h : t.Shows rows cols before s) (picture : Picture)
    (hpainted : s.graphics.Painted g' fun y x old =>
      if s.terminal.cursorY ≤ y ∧ y < s.terminal.cursorY + fontHeight then
        (if s.terminal.cursorX ≤ x ∧ x < s.terminal.cursorX + fontWidth then
          picture (y - s.terminal.cursorY) (x - s.terminal.cursorX)
        else old)
      else old) :
    Shows rows cols { t with grid := t.grid.put picture } before { s with graphics := g' } := by
  refine
    { h with
      sound := hpainted.sound h.sound
      width := hpainted.width.trans h.width
      height := hpainted.height.trans h.height
      pitch := hpainted.pitch.trans h.pitch
      rest := fun a ha =>
        (hpainted.rest a (by rw [h.height, h.width, h.pitch]; exact ha)).trans (h.rest a ha)
      cells := fun k hk i hi j hj => ?_ }
  obtain ⟨hy, hx⟩ := h.pixel_lt hk hi hj
  have hold := h.cells k hk i hi j hj
  have hnew := hpainted.pixel _ hy _ hx
  rw [hold, h.cursorX, h.cursorY] at hnew
  refine hnew.trans ?_
  have hrow : (fontHeight * (t.grid.place / cols) ≤ fontHeight * (k / cols) + i ∧
      fontHeight * (k / cols) + i < fontHeight * (t.grid.place / cols) + fontHeight) ↔
        k / cols = t.grid.place / cols := by
    unfold fontHeight at hi ⊢
    omega
  have hcol : (fontWidth * (t.grid.place % cols) ≤ fontWidth * (k % cols) + j ∧
      fontWidth * (k % cols) + j < fontWidth * (t.grid.place % cols) + fontWidth) ↔
        k % cols = t.grid.place % cols := by
    unfold fontWidth at hj ⊢
    omega
  simp only [hrow, hcol, Grid.put, Function.update_apply]
  by_cases heq : k = t.grid.place
  · subst heq
    simp
  · rw [if_neg heq]
    split_ifs with hr hc
    · exact absurd (cell_ext hr hc) heq
    · rfl
    · rfl

/-- A character is drawn. -/
theorem Shows.draw (h : t.Shows rows cols before s) (hc : Drawn c) (hglyph : HasGlyph c) :
    ∃ s', terminalPutchar font s c = some s' ∧
      (t.draw font rows cols c).Shows rows cols before s' := by
  have hsmall := h.small
  have hin := h.inBounds
  rw [Screen.InBounds, h.width, h.height] at hin
  have hput := h.put _ (drawGlyph_painted font h.sound (by omega) (by omega) c)
  rw [h.foreground, h.background] at hput
  obtain ⟨s', hmove, -, hshows⟩ := hput.move (y := 0) (x := 1) (by decide) (by decide)
  refine ⟨s', ?_, ?_⟩
  · rw [terminalPutchar_drawn hc, drawChar, if_pos hglyph, Option.bind_some]
    exact hmove
  · rw [zero_mul, zero_add] at hshows
    exact hshows

/-- The cursor goes to the start of its row. -/
theorem Shows.startOfRow (h : t.Shows rows cols before s) :
    Shows rows cols { t with grid := t.grid.startOfRow cols } before
      { s with terminal := { s.terminal with cursorX := 0 } } := by
  have hmul : t.grid.place / cols * cols + 0 = t.grid.place / cols * cols := Nat.add_zero _
  obtain ⟨hrow, hcol⟩ := place_of_row (i := t.grid.place / cols) h.pos.2
  rw [hmul] at hrow hcol
  refine
    { h with
      place := (Nat.div_mul_le_self _ _).trans_lt h.place
      cursorX := ?_
      cursorY := ?_ }
  · simp only [Grid.startOfRow, hcol, Nat.mul_zero]
  · simp only [Grid.startOfRow, hrow]
    exact h.cursorY

/-- A character. -/
theorem Shows.putchar (h : t.Shows rows cols before s) (font : Font) (hglyph : HasGlyph c) :
    ∃ s', terminalPutchar font s c = some s' ∧
      (t.putchar font rows cols c).Shows rows cols before s' := by
  by_cases hc : Drawn c
  · simp only [Console.putchar, if_neg hc.1, if_neg hc.2.1, if_neg hc.2.2.1, if_neg hc.2.2.2]
    exact h.draw hc hglyph
  · simp only [terminalPutchar, Console.putchar]
    split_ifs with hn hr ht hb
    · obtain ⟨s', hmove, -, hshows⟩ := h.startOfRow.move (y := 1) (x := 0) (by decide) (by decide)
      refine ⟨s', hmove, ?_⟩
      rw [one_mul, add_zero] at hshows
      exact hshows
    · exact ⟨_, rfl, h.startOfRow⟩
    · -- the next column that is a multiple of four
      have hcol := Nat.mod_lt t.grid.place h.pos.2
      have hsmall := h.small.1
      unfold fontWidth at hsmall
      have hcursor : s.terminal.cursorX / fontWidth = t.grid.place % cols := by
        rw [h.cursorX, Nat.mul_div_cancel_left _ (by decide)]
      have hnext := and_highBits (k := 2) (x := t.grid.place % cols + 4) (by decide) (by omega)
      have hdiff : (((t.grid.place % cols + 4) &&& (2 ^ 64 - 2 ^ 2) : ℕ) -
          (t.grid.place % cols : ℕ) : ℤ) = (4 - t.grid.place % cols % 4 : ℕ) := by
        rw [hnext]
        omega
      obtain ⟨s', hmove, -, hshows⟩ := h.move (y := 0)
        (x := (4 - t.grid.place % cols % 4 : ℕ)) (by decide) (by omega)
      rw [hcursor]
      refine ⟨s', ?_, ?_⟩
      · rw [hdiff]
        exact hmove
      · rw [zero_mul, zero_add] at hshows
        exact hshows
    · obtain ⟨s', hmove, -, hshows⟩ := h.move (y := 0) (x := -1) (by decide) (by decide)
      refine ⟨s', hmove, ?_⟩
      rw [zero_mul, zero_add] at hshows
      exact hshows
    · exact absurd ⟨hn, hr, ht, hb⟩ hc

/-- Characters. -/
theorem Shows.write (h : t.Shows rows cols before s) (font : Font) {str : List Byte}
    (hglyphs : ∀ c ∈ str, HasGlyph c) :
    ∃ s', str.foldlM (terminalPutchar font) s = some s' ∧
      (str.foldl (Console.putchar font rows cols) t).Shows rows cols before s' := by
  induction str generalizing s t with
  | nil => exact ⟨s, rfl, h⟩
  | cons c str ih =>
    obtain ⟨s₁, hput, h₁⟩ := h.putchar font (hglyphs c (by simp))
    obtain ⟨s', hwrite, hshows⟩ := ih h₁ fun c' hmem => hglyphs c' (by simp [hmem])
    refine ⟨s', ?_, hshows⟩
    rw [List.foldlM_cons, hput]
    exact hwrite

/-- `terminal_clear` -/
theorem Shows.clear (h : t.Shows rows cols before s) :
    Shows rows cols { t with grid := { t.grid with cells := fun _ _ _ => t.background } } before
      (terminalClear s) := by
  have hpainted := clear_painted h.sound s.terminal.backgroundColor
  refine
    { h with
      sound := hpainted.sound h.sound
      width := hpainted.width.trans h.width
      height := hpainted.height.trans h.height
      pitch := hpainted.pitch.trans h.pitch
      rest := fun a ha =>
        (hpainted.rest a (by rw [h.height, h.width, h.pitch]; exact ha)).trans (h.rest a ha)
      cells := fun k hk i hi j hj => ?_ }
  obtain ⟨hy, hx⟩ := h.pixel_lt hk hi hj
  exact (hpainted.pixel _ hy _ hx).trans h.background

end Console

/-- A call that keeps the cursor at a cell: `terminal_set_position` is for the corner of one, or
has no effect, and moves are by less than `2 ^ 31` rows and columns.  Characters have a glyph. -/
def ScreenCall.InCells (rows cols : ℕ) : ScreenCall → Prop
  | .terminal (.moveCursor y x) => y.natAbs < 2 ^ 31 ∧ x.natAbs < 2 ^ 31
  | .terminal (.setPosition y x) =>
      (fontWidth * cols < x ∨ fontHeight * rows < y) ∨
        ∃ i < rows, ∃ j < cols, y = fontHeight * i ∧ x = fontWidth * j
  | .terminal (.putchar c) => HasGlyph c
  | .terminal (.write str) => ∀ c ∈ str.bytes, HasGlyph c
  | _ => True

/-- One call. -/
theorem Console.Shows.call (h : t.Shows rows cols before s) (font : Font) {call : ScreenCall}
    (hcall : call.InCells rows cols) :
    ∃ s', call.exec font s = some s' ∧ (t.call font rows cols call).Shows rows cols before s' := by
  cases call with
  | clear => exact ⟨_, rfl, h.clear⟩
  | terminal call =>
    cases call with
    | init c bgc =>
      exact ⟨_, rfl,
        { h with
          place := Nat.mul_pos h.pos.1 h.pos.2
          cursorX := by simp [terminalInit, Console.call, Console.terminalCall]
          cursorY := by simp [terminalInit, Console.call, Console.terminalCall]
          foreground := rfl
          background := rfl }⟩
    | moveCursor y x =>
      obtain ⟨s', hmove, -, hshows⟩ := h.move hcall.1 hcall.2
      exact ⟨s', hmove, hshows⟩
    | setPosition y x =>
      refine ⟨_, rfl, ?_⟩
      simp only [terminalSetPosition, Console.call, Console.terminalCall, h.width, h.height,
        gt_iff_lt]
      split_ifs with hout
      · exact h
      · obtain ⟨i, hi, j, hj, rfl, rfl⟩ := hcall.resolve_left hout
        obtain ⟨hrow, hcol⟩ := place_of_row (i := i) hj
        rw [Nat.mul_div_cancel_left _ (by decide), Nat.mul_div_cancel_left _ (by decide)]
        have hend : (i + 1) * cols ≤ rows * cols := Nat.mul_le_mul_right _ hi
        rw [Nat.succ_mul] at hend
        exact
          { h with
            place := by dsimp only; omega
            cursorX := by rw [hcol]
            cursorY := by rw [hrow] }
    | putchar c => exact h.putchar font hcall
    | write str => exact h.write font hcall

/-! ### Runs -/

/-- A screen that cells fill exactly, with the cursor at one of them. -/
structure Screen.Aligned (rows cols : ℕ) (s : Screen) : Prop where
  sound : s.graphics.Sound
  width : s.graphics.width = fontWidth * cols
  height : s.graphics.height = fontHeight * rows
  small : fontWidth * cols < 2 ^ 31 ∧ fontHeight * rows < 2 ^ 31
  cursor : ∃ i < rows, ∃ j < cols,
    s.terminal.cursorY = fontHeight * i ∧ s.terminal.cursorX = fontWidth * j

/-- What is to be seen on a screen. -/
def Console.of (cols : ℕ) (s : Screen) : Console where
  grid :=
    { cells := fun k i j =>
        s.graphics.pixel (fontHeight * (k / cols) + i) (fontWidth * (k % cols) + j)
      place := s.terminal.cursorY / fontHeight * cols + s.terminal.cursorX / fontWidth }
  foreground := s.terminal.foregroundColor
  background := s.terminal.backgroundColor

theorem Console.of_shows (hs : s.Aligned rows cols) :
    (Console.of cols s).Shows rows cols s.graphics s := by
  obtain ⟨i, hi, j, hj, hy, hx⟩ := hs.cursor
  obtain ⟨hrow, hcol⟩ := place_of_row (i := i) hj
  have hplace : (Console.of cols s).grid.place = i * cols + j := by
    simp only [Console.of, hy, hx, Nat.mul_div_cancel_left _ (show 0 < fontHeight by decide),
      Nat.mul_div_cancel_left _ (show 0 < fontWidth by decide)]
  have hend : (i + 1) * cols ≤ rows * cols := Nat.mul_le_mul_right _ hi
  rw [Nat.succ_mul] at hend
  exact
    { hs with
      place := by omega
      cursorX := by rw [hplace, hcol, hx]
      cursorY := by rw [hplace, hrow, hy]
      foreground := rfl
      background := rfl
      cells := fun _ _ _ _ _ _ => rfl
      pitch := rfl
      rest := fun _ _ => rfl }

/-- **The frame buffer shows the console.**  On a screen that is filled by `rows` by `cols` cells,
with the cursor at a cell, no sequence of calls that keep it at a cell fails, and after each of
them the pixels are those of the console after the same calls.  Memory that is not to be seen is
never written to. -/
theorem screen_shows_console (font : Font) (hs : s.Aligned rows cols) (calls : List ScreenCall)
    (hcalls : ∀ call ∈ calls, call.InCells rows cols) :
    ∃ s', ScreenCall.run font s calls = some s' ∧
      ((Console.of cols s).run font rows cols calls).Shows rows cols s.graphics s' := by
  have hrun : ∀ (calls : List ScreenCall) (t : Console) (s₁ : Screen),
      (∀ call ∈ calls, call.InCells rows cols) → t.Shows rows cols s.graphics s₁ →
      ∃ s', ScreenCall.run font s₁ calls = some s' ∧
        (t.run font rows cols calls).Shows rows cols s.graphics s' := by
    intro calls
    induction calls with
    | nil => exact fun t s₁ _ h => ⟨s₁, rfl, h⟩
    | cons call calls ih =>
      intro t s₁ hcalls h
      obtain ⟨s₂, hexec, h₂⟩ := h.call font (hcalls call (by simp))
      obtain ⟨s', hrun, hshows⟩ := ih _ s₂ (fun call' hmem => hcalls call' (by simp [hmem])) h₂
      refine ⟨s', ?_, hshows⟩
      rw [ScreenCall.run, List.foldlM_cons, hexec]
      exact hrun
  exact hrun calls _ s hcalls (Console.of_shows hs)

/-- Two by two cells, in a frame buffer with rows of 20 pixels. -/
def fourCells : Screen where
  graphics := graphicsInit (fun _ => 7) 80 32 16
  terminal := { cursorX := 0, cursorY := 0, foregroundColor := 0xFFFFFF, backgroundColor := 0 }

theorem fourCells_aligned : fourCells.Aligned 2 2 where
  sound := ⟨by decide, by decide⟩
  width := rfl
  height := rfl
  small := by decide
  cursor := ⟨0, by decide, 0, by decide, rfl, rfl⟩

theorem screen_shows_console_example : ∃ s',
    ScreenCall.run (fun c _ => c) fourCells
        [.clear, .terminal (.setPosition 16 8), .terminal (.putchar 0x41)] = some s' ∧
      s'.graphics.pixel 16 9 = 0xFFFFFF ∧ s'.graphics.pixel 16 10 = 0 ∧
      s'.graphics.address 16 = 7 := by
  obtain ⟨s', hrun, hshows⟩ := screen_shows_console (fun c _ => c) fourCells_aligned
    [.clear, .terminal (.setPosition 16 8), .terminal (.putchar 0x41)]
    (by
      simp only [List.forall_mem_cons, ScreenCall.InCells]
      exact ⟨trivial, .inr ⟨1, by decide, 1, by decide, rfl, rfl⟩, by decide, by simp⟩)
  refine ⟨s', hrun, ?_, ?_, ?_⟩
  · exact (hshows.cells 3 (by decide) 0 (by decide) 1 (by decide)).trans (by decide)
  · exact (hshows.cells 3 (by decide) 0 (by decide) 2 (by decide)).trans (by decide)
  · refine (hshows.rest 16 fun y _ x hx => ?_).trans rfl
    have hx' : x < 16 := hx
    show 16 ≠ y * 20 + x
    omega

/-! ### Lines of text -/

theorem foldl_putchar_line (font : Font) (rows cols : ℕ) (t : Console) {l : List Byte}
    (hl : ∀ c ∈ l, Drawn c) :
    l.foldl (Console.putchar font rows cols) t =
      { t with
        grid := t.grid.type rows cols
          (l.map fun c => glyph font c t.foreground t.background) } := by
  induction l generalizing t with
  | nil => rfl
  | cons c l ih =>
    obtain ⟨hn, hr, ht, hb⟩ := hl c (by simp)
    have hput : t.putchar font rows cols c = t.draw font rows cols c := by
      simp only [Console.putchar, if_neg hn, if_neg hr, if_neg ht, if_neg hb]
    rw [List.foldl_cons, hput, ih _ fun c' hmem => hl c' (by simp [hmem])]
    rfl

theorem foldl_putchar_lines (font : Font) (rows cols : ℕ) (t : Console) {ls : List (List Byte)}
    (hls : ∀ l ∈ ls, ∀ c ∈ l, Drawn c) :
    (ls.flatMap (· ++ [0x0A])).foldl (Console.putchar font rows cols) t =
      { t with
        grid := t.grid.typeLines rows cols
          (ls.map (List.map fun c => glyph font c t.foreground t.background)) } := by
  induction ls generalizing t with
  | nil => rfl
  | cons l ls ih =>
    rw [List.flatMap_cons, List.foldl_append, List.foldl_append,
      foldl_putchar_line font rows cols t (hls l (by simp))]
    exact ih _ fun l' hmem => hls l' (by simp [hmem])

/-- **Text is to be seen where it was written.**  Lines of characters with a glyph, each shorter
than a row and each with a newline at its end, that are written from the start of row `p` on and
do not go over the last row: the cells of these rows show the characters, and every other cell
what it did. -/
theorem screen_shows_lines (font : Font) (hs : s.Aligned rows cols) {p : ℕ}
    (hx : s.terminal.cursorX = 0) (hy : s.terminal.cursorY = fontHeight * p)
    (ls : List (List Byte)) (hdrawn : ∀ l ∈ ls, ∀ c ∈ l, Drawn c)
    (hglyphs : ∀ l ∈ ls, ∀ c ∈ l, HasGlyph c)
    (hcols : ∀ l ∈ ls, l.length < cols) (hrows : p + ls.length ≤ rows) (str : CString)
    (hstr : str.bytes = ls.flatMap (· ++ [0x0A])) :
    ∃ s', terminalWrite font s str = some s' ∧ ∀ i < rows, ∀ j < cols, ∀ a < fontHeight,
      ∀ b < fontWidth, s'.graphics.pixel (fontHeight * i + a) (fontWidth * j + b) =
        match if i < p then none else (ls[i - p]?).bind fun l => l[j]? with
        | some c => glyph font c s.terminal.foregroundColor s.terminal.backgroundColor a b
        | none => s.graphics.pixel (fontHeight * i + a) (fontWidth * j + b) := by
  have hall : ∀ c ∈ str.bytes, HasGlyph c := by
    rw [hstr]
    intro c hc
    obtain ⟨l, hl, hc⟩ := List.mem_flatMap.mp hc
    rcases List.mem_append.mp hc with hc | hc
    · exact hglyphs l hl c hc
    · rw [List.mem_singleton.mp hc]
      decide
  obtain ⟨s', hwrite, hshows⟩ := (Console.of_shows hs).write font hall
  refine ⟨s', hwrite, fun i hi j hj a ha b hb => ?_⟩
  have hplace : (Console.of cols s).grid.place = p * cols := by
    simp [Console.of, hx, hy, Nat.mul_div_cancel_left _ (show 0 < fontHeight by decide)]
  obtain ⟨hrow, hcol⟩ := place_of_row (i := i) hj
  have hend : (i + 1) * cols ≤ rows * cols := Nat.mul_le_mul_right _ hi
  rw [Nat.succ_mul] at hend
  have hcell := hshows.cells (i * cols + j) (by omega) a ha b hb
  rw [hrow, hcol, hstr, foldl_putchar_lines font rows cols _ hdrawn] at hcell
  rw [hcell]
  dsimp only
  rw [typeLines_spec hplace (by simpa using hcols) (by simpa using hrows) hj]
  have hold : (Console.of cols s).grid.cells (i * cols + j) a b =
      s.graphics.pixel (fontHeight * i + a) (fontWidth * j + b) := by
    simp only [Console.of, hrow, hcol]
  split_ifs with hlt
  · exact hold
  · rw [List.getElem?_map]
    cases ls[i - p]? with
    | none => exact hold
    | some l =>
      simp only [Option.map_some, Option.bind_some, List.getElem?_map]
      cases l[j]? with
      | none => exact hold
      | some c => rfl

theorem screen_shows_lines_example : ∃ s',
    terminalWrite (fun c _ => c) fourCells ⟨[0x41, 0x0A, 0x42, 0x0A], by decide⟩ = some s' ∧
      s'.graphics.pixel 16 1 = 0xFFFFFF ∧ s'.graphics.pixel 16 9 = 7 := by
  obtain ⟨s', hwrite, hpixel⟩ := screen_shows_lines (fun c _ => c) fourCells_aligned (p := 0) rfl
    rfl [[0x41], [0x42]] (by decide) (by decide) (by decide) (by decide)
    ⟨[0x41, 0x0A, 0x42, 0x0A], by decide⟩ rfl
  exact ⟨s', hwrite, hpixel 1 (by decide) 0 (by decide) 0 (by decide) 1 (by decide),
    hpixel 1 (by decide) 1 (by decide) 0 (by decide) 1 (by decide)⟩

end Bethany
