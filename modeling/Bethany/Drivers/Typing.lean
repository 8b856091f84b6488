import Bethany.Drivers.Modifiers
import Bethany.Video.Picture

/-!
# Typing

A key that is struck goes down and up, perhaps while a shift key or AltGr is held.  The keyboard
sends the scan codes of this as bytes, and each interrupt of the driver takes one of them.

* `ScanCode.wire`, `keyboardIrqs_wire`: scan codes as bytes, which the interrupts take back;
* `Stroke`, `Stroke.sends`, `Stroke.char`: a stroke and the character that it stands for;
* `keyboard_types`: strokes give the terminal their characters, one after the other;
* `typing_shows_lines`: lines that are typed are to be seen in their rows.
-/

namespace Bethany

open Machine

/-! ### Scan codes as bytes -/

/-- The bytes of a scan code. -/
def ScanCode.wire (c : ScanCode) : List Byte :=
  (if c.extended then [0xE0] else []) ++ [BitVec.ofNat 8 (c.low + if c.make then 0 else 128)]

/-- The byte of the code is not the prefix. -/
def ScanCode.Sent (c : ScanCode) : Prop :=
  c.extended = true ∨ BitVec.ofNat 8 (c.low + if c.make then 0 else 128) ≠ 0xE0

instance (c : ScanCode) : Decidable c.Sent := inferInstanceAs (Decidable (_ ∨ _))

/-- The keyboard after some scan codes, and the calls of the terminal. -/
def Keyboard.feed : Keyboard → List ScanCode → Keyboard × List TerminalCall
  | k, [] => (k, [])
  | k, c :: codes =>
      let after := k.receive c
      let r := after.feed codes
      (r.1, (if c.make then after.respond else none).toList ++ r.2)

variable {k k' : Keyboard} {c : ScanCode} {codes codes' : List ScanCode} {input : List Byte}
  {caps : Bool}

theorem ScanCode.ofByte_wire (c : ScanCode) :
    ScanCode.ofByte c.extended (BitVec.ofNat 8 (c.low + if c.make then 0 else 128)) = c := by
  obtain ⟨extended, low, make⟩ := c
  have hlow : ∀ (low : Fin 128) (make : Bool),
      ((BitVec.ofNat 8 (low + if make then 0 else 128) &&& 0x7F).toNat = low) ∧
        (BitVec.ofNat 8 (low + if make then 0 else 128) &&& 0x80 == 0) = make := by
    decide
  simp only [ScanCode.ofByte, ScanCode.mk.injEq, true_and]
  exact ⟨Fin.ext (hlow low make).1, (hlow low make).2⟩

/-- An interrupt takes a scan code. -/
theorem keyboardIrq_wire (hc : c.Sent) (k : Keyboard) (input : List Byte) :
    keyboardIrq k (c.wire ++ input) = some (k.taken c input) := by
  have hbyte := c.ofByte_wire
  obtain ⟨extended, low, make⟩ := c
  cases extended
  · have hne : BitVec.ofNat 8 (low + if make then 0 else 128) ≠ 0xE0 := hc.resolve_left (by simp)
    exact (keyboardIrq_plain hne).trans (by rw [hbyte]; rfl)
  · exact (keyboardIrq_extended _).trans (by rw [hbyte]; rfl)

/-- Interrupts take scan codes one by one, and make the calls for them. -/
theorem keyboardIrqs_wire (hcodes : ∀ c ∈ codes, c.Sent) (k : Keyboard) (input : List Byte) :
    keyboardIrqs codes.length k (codes.flatMap ScanCode.wire ++ input) =
      some ((k.feed codes).1, (k.feed codes).2, input) := by
  induction codes generalizing k with
  | nil => rfl
  | cons c codes ih =>
    rw [List.flatMap_cons, List.append_assoc, List.length_cons, keyboardIrqs,
      keyboardIrq_wire (hcodes c (by simp))]
    simp only [Keyboard.taken, Option.bind_eq_bind, Option.bind_some,
      ih (fun c' hc' => hcodes c' (by simp [hc'])), Keyboard.feed]

theorem Keyboard.feed_append :
    k.feed (codes ++ codes') =
      (((k.feed codes).1.feed codes').1, (k.feed codes).2 ++ ((k.feed codes).1.feed codes').2) := by
  induction codes generalizing k with
  | nil => rfl
  | cons c codes ih => simp [Keyboard.feed, ih]

/-! ### Strokes -/

/-- A key that is struck: its scan code, and whether the left shift key and AltGr are held. -/
structure Stroke where
  low : Fin 128
  shift : Bool
  altGr : Bool
deriving DecidableEq

def Stroke.key (st : Stroke) : Keycode := scancodeSet1 st.low

/-- A modifier goes down or up. -/
def Modifier.sends (m : Modifier) (make : Bool) : ScanCode := ⟨m.code.1, m.code.2, make⟩

@[simp] theorem Modifier.sends_make (m : Modifier) (make : Bool) : (m.sends make).make = make := rfl

/-- The other keys go down, the key down and up, the other keys up. -/
def Stroke.sends (st : Stroke) : List ScanCode :=
  (if st.shift then [Modifier.lshift.sends true] else []) ++
    (if st.altGr then [Modifier.ralt.sends true] else []) ++
    [⟨false, st.low, true⟩, ⟨false, st.low, false⟩] ++
    (if st.altGr then [Modifier.ralt.sends false] else []) ++
    if st.shift then [Modifier.lshift.sends false] else []

/-- No key is held. -/
def Modifiers.rest (caps : Bool) : Modifiers := ⟨false, false, false, false, false, false, caps⟩

/-- The keys that are held during a stroke. -/
def Stroke.held (st : Stroke) (caps : Bool) : Modifiers :=
  ⟨st.shift, false, false, false, false, st.altGr, caps⟩

/-- The key is in the table, and no modifier. -/
def Stroke.Plain (st : Stroke) : Prop :=
  st.key ∉ [.keyNone, .keyLshift, .keyRshift, .keyLctrl, .keyRctrl, .keyLalt, .keyRalt,
    Keycode.keyCapslock]

instance (st : Stroke) : Decidable st.Plain := inferInstanceAs (Decidable (_ ∉ _))

/-- The character of a stroke. -/
def Stroke.char (caps : Bool) (st : Stroke) : Byte :=
  BitVec.ofNat 8 (getch ⟨st.key, st.held caps⟩)

/-- The tables of the keyboard hold characters below 128. -/
theorem keyboardMap_lt (key : Keycode) :
    (keyboardMapNormal key).toNat < 128 ∧ (keyboardMapShift key).toNat < 128 ∧
      (keyboardMapAltgr key).toNat < 128 := by
  cases key <;> decide

/-- A character of the keyboard is below 128, with whatever keys held. -/
theorem getch_lt (k : Keyboard) : getch k < 128 := by
  obtain ⟨hnormal, hshift, haltgr⟩ := keyboardMap_lt k.lastKeycode
  have htable : ∀ b : Bool, (if b then keyboardMapShift k.lastKeycode
      else keyboardMapNormal k.lastKeycode).toNat < 128 := by
    rintro (_ | _)
    · exact hnormal
    · exact hshift
  unfold getch
  split
  iterate 8 exact Nat.zero_lt_succ _
  dsimp only
  have hc := htable (if k.mod.capsLock ∧ k.lastKeycode.isLetter then
    !(k.mod.lshift || k.mod.rshift) else k.mod.lshift || k.mod.rshift)
  split_ifs <;> omega

/-- `font` has the characters of the keyboard. -/
theorem Stroke.hasGlyph (st : Stroke) (caps : Bool) : HasGlyph (st.char caps) := by
  have hlt := getch_lt ⟨st.key, st.held caps⟩
  rw [HasGlyph, Stroke.char, BitVec.lt_def, BitVec.toNat_ofNat, Nat.mod_eq_of_lt (by omega)]
  exact hlt

/-- The call that the driver answers a stroke with. -/
def Stroke.calls (caps : Bool) (st : Stroke) : List TerminalCall :=
  (Keyboard.respond ⟨st.key, st.held caps⟩).toList

variable {st : Stroke} {strokes : List Stroke}

theorem Modifiers.update_plain (hst : st.Plain) (mod : Modifiers) (pressed : Bool) :
    mod.update st.key pressed = mod := by
  unfold Stroke.Plain at hst
  generalize st.key = key at hst
  cases key <;> first | rfl | exact absurd hst (by decide)

/-- A modifier goes down or up. -/
theorem Keyboard.receive_held (last : Keycode) (shift altGr caps make : Bool) :
    Keyboard.receive ⟨last, ⟨shift, false, false, false, false, altGr, caps⟩⟩
        (Modifier.lshift.sends make) =
      ⟨if make then .keyLshift else last, ⟨make, false, false, false, false, altGr, caps⟩⟩ ∧
    Keyboard.receive ⟨last, ⟨shift, false, false, false, false, altGr, caps⟩⟩
        (Modifier.ralt.sends make) =
      ⟨if make then .keyRalt else last, ⟨shift, false, false, false, false, make, caps⟩⟩ :=
  ⟨rfl, rfl⟩

/-- A stroke: the call is made while the other keys are held, and then no key is held. -/
theorem Keyboard.feed_stroke (hst : st.Plain) (last : Keycode) :
    Keyboard.feed ⟨last, .rest caps⟩ st.sends = (⟨st.key, .rest caps⟩, st.calls caps) := by
  have hkey : ∀ last mod make, Keyboard.receive ⟨last, mod⟩ ⟨false, st.low, make⟩ =
      ⟨if make then st.key else last, mod⟩ := by
    intro last mod make
    rw [Keyboard.receive_eq]
    exact congrArg _ (Modifiers.update_plain hst mod make)
  have hnone : ∀ (mod : Modifiers), (Keyboard.respond ⟨.keyLshift, mod⟩ = none) ∧
      Keyboard.respond ⟨.keyRalt, mod⟩ = none := fun mod => ⟨rfl, rfl⟩
  obtain ⟨low, shift, altGr⟩ := st
  cases shift <;> cases altGr <;>
    simp [Stroke.sends, Keyboard.feed, hkey, Modifiers.rest, Keyboard.receive_held, hnone,
      Stroke.calls, Stroke.held]

theorem Stroke.sent (hst : st.Plain) : ∀ c ∈ st.sends, c.Sent := by
  have hplain : ∀ make, ScanCode.Sent ⟨false, st.low, make⟩ := by
    have hbyte : ∀ (low : Fin 128) (make : Bool),
        BitVec.ofNat 8 (low + if make then 0 else 128) = 0xE0 → low = 0x60 := by
      decide
    refine fun make => .inr fun hprefix => hst ?_
    rw [Stroke.key, hbyte st.low make hprefix]
    decide
  intro c hc
  simp only [Stroke.sends, List.mem_append, List.mem_cons, List.not_mem_nil, or_false,
    List.mem_ite_nil_right] at hc
  rcases hc with (((⟨-, rfl⟩ | ⟨-, rfl⟩) | (rfl | rfl)) | ⟨-, rfl⟩) | ⟨-, rfl⟩
  · decide
  · decide
  · exact hplain true
  · exact hplain false
  · decide
  · decide

/-- **The driver types what is struck.**  If no key is held at first, then after as many interrupts
as there are scan codes in some strokes of ordinary keys, with or without shift and AltGr, each
stroke has been answered by its call, in order, and no key is held. -/
theorem keyboard_types (strokes : List Stroke) (hplain : ∀ st ∈ strokes, st.Plain)
    (hrest : k.mod = .rest caps) (input : List Byte) :
    let codes := strokes.flatMap Stroke.sends
    ∃ k', k'.mod = .rest caps ∧
      keyboardIrqs codes.length k (codes.flatMap ScanCode.wire ++ input) =
        some (k', strokes.flatMap (Stroke.calls caps), input) := by
  intro codes
  have hfeed : ∀ (strokes : List Stroke) (k : Keyboard), (∀ st ∈ strokes, st.Plain) →
      k.mod = .rest caps → (k.feed (strokes.flatMap Stroke.sends)).1.mod = .rest caps ∧
        (k.feed (strokes.flatMap Stroke.sends)).2 = strokes.flatMap (Stroke.calls caps) := by
    intro strokes
    induction strokes with
    | nil => exact fun k _ hrest => ⟨hrest, rfl⟩
    | cons st strokes ih =>
      intro k hplain hrest
      obtain ⟨hmod, hcalls⟩ := ih ⟨st.key, .rest caps⟩ (fun st' h => hplain st' (by simp [h])) rfl
      obtain ⟨last, mod⟩ := k
      obtain rfl : mod = .rest caps := hrest
      rw [List.flatMap_cons, Keyboard.feed_append, Keyboard.feed_stroke (hplain st (by simp)),
        List.flatMap_cons, hcalls]
      exact ⟨hmod, rfl⟩
  have hsent : ∀ c ∈ codes, c.Sent := by
    intro c hc
    obtain ⟨st, hst, hc⟩ := List.mem_flatMap.mp hc
    exact Stroke.sent (hplain st hst) c hc
  obtain ⟨hmod, hcalls⟩ := hfeed strokes k hplain hrest
  exact ⟨_, hmod, by rw [keyboardIrqs_wire hsent, hcalls]⟩

theorem keyboard_types_example : ∃ k',
    keyboardIrqs 6 Keyboard.start [0x2A, 0x23, 0xA3, 0xAA, 0x17, 0x97] =
      some (k', [.putchar 0x48, .putchar 0x69], []) := by
  obtain ⟨k', -, hirqs⟩ := @keyboard_types Keyboard.start false
    [⟨0x23, true, false⟩, ⟨0x17, false, false⟩] (by decide) rfl []
  exact ⟨k', hirqs⟩

/-! ### From the keys to the screen -/

/-- The table without the prefix has no arrow keys. -/
theorem Stroke.key_ne_arrow (st : Stroke) :
    ∀ key ∈ [.keyUp, .keyDown, .keyLeft, Keycode.keyRight], st.key ≠ key := by
  intro key hkey heq
  have hne : key ≠ .keyNone := by
    rintro rfl
    exact absurd hkey (by decide)
  have hentry := mem_of_entryOf heq hne
  simp only [List.mem_cons, List.not_mem_nil, or_false] at hkey
  rcases hkey with rfl | rfl | rfl | rfl <;> simp at hentry

/-- The character of a stroke goes to the terminal. -/
theorem Stroke.calls_eq (hzero : st.char caps ≠ 0) (hdrawn : st.char caps ≠ 0x08) :
    st.calls caps = [.putchar (st.char caps)] := by
  have harrow := st.key_ne_arrow
  unfold Stroke.calls Keyboard.respond
  split
  · exact absurd ‹_› (harrow _ (by simp))
  · exact absurd ‹_› (harrow _ (by simp))
  · exact absurd ‹_› (harrow _ (by simp))
  · exact absurd ‹_› (harrow _ (by simp))
  · have hc : BitVec.ofNat 8 (getch ⟨st.key, st.held caps⟩) = st.char caps := rfl
    simp only [hc, if_pos (show st.char caps ≠ 0 from hzero),
      if_pos (show st.char caps ≠ 0x08 from hdrawn), Option.toList_some]

/-- The Enter key. -/
def enter : Stroke := ⟨⟨0x1C, by decide⟩, false, false⟩

theorem enter_plain : enter.Plain := by decide

theorem enter_calls : enter.calls caps = [.putchar 0x0A] := by cases caps <;> rfl

theorem run_putchar (font : Font) (s : Screen) (str : List Byte) :
    TerminalCall.run font s (str.map .putchar) = str.foldlM (terminalPutchar font) s := by
  induction str generalizing s with
  | nil => rfl
  | cons c str ih =>
    rw [List.map_cons, TerminalCall.run, List.foldlM_cons, List.foldlM_cons]
    exact congrArg _ (funext ih)

/-- **What is typed is to be seen.**  Lines of strokes for characters, each shorter than a row and
each with Enter at its end, are typed while the cursor is at the start of row `p` and no key is
held.  The interrupts take all bytes of the keyboard, their calls draw the characters in the rows
from `p` on, and every other cell shows what it did. -/
theorem typing_shows_lines (font : Font) {rows cols p : ℕ} {s : Screen} (hs : s.Aligned rows cols)
    (hx : s.terminal.cursorX = 0) (hy : s.terminal.cursorY = fontHeight * p)
    (hrest : k.mod = .rest caps) (ls : List (List Stroke))
    (hstrokes : ∀ l ∈ ls, ∀ st ∈ l, st.Plain ∧ st.char caps ≠ 0 ∧ Drawn (st.char caps))
    (hcols : ∀ l ∈ ls, l.length < cols) (hrows : p + ls.length ≤ rows) :
    let codes := (ls.flatMap (· ++ [enter])).flatMap Stroke.sends
    ∃ k' calls s', keyboardIrqs codes.length k (codes.flatMap ScanCode.wire) =
        some (k', calls, []) ∧ k'.mod = .rest caps ∧ TerminalCall.run font s calls = some s' ∧
      ∀ i < rows, ∀ j < cols, ∀ a < fontHeight, ∀ b < fontWidth,
        s'.graphics.pixel (fontHeight * i + a) (fontWidth * j + b) =
          match if i < p then none else (ls[i - p]?).bind fun l => l[j]? with
          | some st => glyph font (st.char caps) s.terminal.foregroundColor
              s.terminal.backgroundColor a b
          | none => s.graphics.pixel (fontHeight * i + a) (fontWidth * j + b) := by
  intro codes
  have hplain : ∀ st ∈ ls.flatMap (· ++ [enter]), st.Plain := by
    intro st hst
    obtain ⟨l, hl, hst⟩ := List.mem_flatMap.mp hst
    rcases List.mem_append.mp hst with hst | hst
    · exact (hstrokes l hl st hst).1
    · rw [List.mem_singleton.mp hst]
      exact enter_plain
  obtain ⟨k', hrest', hirqs⟩ := keyboard_types _ hplain hrest []
  rw [List.append_nil] at hirqs
  -- the characters, line by line
  set text := (ls.map (List.map (Stroke.char caps))).flatMap (· ++ [0x0A])
  have hcalls : (ls.flatMap (· ++ [enter])).flatMap (Stroke.calls caps) = text.map .putchar := by
    simp only [text, List.flatMap_assoc, List.map_flatMap, List.flatMap_map]
    refine List.flatMap_congr fun l hl => ?_
    rw [List.flatMap_append, List.map_append, List.map_map]
    refine congrArg₂ _ ?_ (by simp [enter_calls])
    rw [← List.flatMap_pure_eq_map]
    refine List.flatMap_congr fun st hst => ?_
    obtain ⟨-, hzero, -, -, -, hback⟩ := hstrokes l hl st hst
    exact Stroke.calls_eq hzero hback
  have hnonzero : 0 ∉ text := by
    simp only [text, List.mem_flatMap, List.mem_map, List.mem_append, not_exists, not_and]
    rintro _ ⟨l, hl, rfl⟩ hzero
    rcases hzero with hzero | hzero
    · obtain ⟨st, hst, hchar⟩ := List.mem_map.mp hzero
      exact (hstrokes l hl st hst).2.1 hchar
    · simp at hzero
  have hdrawn : ∀ l ∈ ls.map (List.map (Stroke.char caps)), ∀ c ∈ l, Drawn c := by
    simp only [List.forall_mem_map]
    exact fun l hl st hst => (hstrokes l hl st hst).2.2
  have hglyphs : ∀ l ∈ ls.map (List.map (Stroke.char caps)), ∀ c ∈ l, HasGlyph c := by
    simp only [List.forall_mem_map]
    exact fun l _ st _ => st.hasGlyph caps
  obtain ⟨s', hwrite, hpixel⟩ := screen_shows_lines font hs hx hy
    (ls.map (List.map (Stroke.char caps))) hdrawn hglyphs (by simpa using hcols)
    (by simpa using hrows)
    ⟨text, hnonzero⟩ rfl
  refine ⟨k', _, s', hirqs, hrest', ?_, fun i hi j hj a ha b hb => ?_⟩
  · rw [hcalls, run_putchar]
    exact hwrite
  · rw [hpixel i hi j hj a ha b hb]
    split_ifs with hlt
    · rfl
    · rw [List.getElem?_map]
      cases ls[i - p]? with
      | none => rfl
      | some l =>
        simp only [Option.map_some, Option.bind_some, List.getElem?_map]
        cases l[j]? <;> rfl

theorem typing_shows_lines_example : ∃ k' calls s',
    keyboardIrqs 6 Keyboard.start [0x2A, 0x23, 0xA3, 0xAA, 0x1C, 0x9C] = some (k', calls, []) ∧
      TerminalCall.run (fun c _ => c) fourCells calls = some s' ∧
      s'.graphics.pixel 0 1 = 0xFFFFFF ∧ s'.graphics.pixel 0 8 = 7 := by
  obtain ⟨k', calls, s', hirqs, -, hrun, hpixel⟩ := typing_shows_lines (k := Keyboard.start)
    (p := 0) (fun c _ => c) fourCells_aligned rfl rfl rfl [[⟨0x23, true, false⟩]] (by decide)
    (by decide) (by decide)
  exact ⟨k', calls, s', hirqs, hrun,
    hpixel 0 (by decide) 0 (by decide) 0 (by decide) 1 (by decide),
    hpixel 0 (by decide) 1 (by decide) 0 (by decide) 0 (by decide)⟩

end Bethany
