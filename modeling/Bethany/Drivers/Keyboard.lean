import Bethany.Video.Terminal

/-!
# The keyboard

`keyboard_irq` takes one scan code from the controller: a byte, or the byte `0xE0` and the one
after it.  The lower seven bits say which key it is, in one of two tables, and bit 7 that the key
is released.  The driver keeps the key that was pressed last and the state of the modifiers.

* `Keycode`, `scancodeSet1`, `scancodeSet1Extended`, `keyboardMapNormal` and its siblings: the
  tables of `keyboard_handler.c`;
* `updateInput`, `getch`: what a scan code does, and the character it stands for;
* `keyboardIrq`: one interrupt, with the call that it makes of the terminal;
* `keyboardIrqs`: interrupts, one after the other;
* `scanCodes`, `keyboardIrqs_eq`: a stream of bytes as scan codes; the interrupts take them one by
  one.
-/

namespace Bethany

open Machine

/-- `keycode_t`. -/
inductive Keycode
  | keyNone | keyA | keyB | keyC | keyD | keyE | keyF | keyG | keyH | keyI | keyJ | keyK | keyL
  | keyM | keyN | keyO | keyP | keyQ | keyR | keyS | keyT | keyU | keyV | keyW | keyX | keyY | keyZ
  | key1 | key2 | key3 | key4 | key5 | key6 | key7 | key8 | key9 | key0 | keyEnter | keyEsc
  | keyBackspace | keyTab | keySpace | keyMinus | keyEqual | keyLeftbrace | keyRightbrace
  | keyBackslash | keySemicolon | keyApostrophe | keyGrave | keyComma | keyDot | keySlash
  | keyCapslock | keyF1 | keyF2 | keyF3 | keyF4 | keyF5 | keyF6 | keyF7 | keyF8 | keyF9 | keyF10
  | keyF11 | keyF12 | keyLshift | keyRshift | keyLctrl | keyRctrl | keyLalt | keyRalt | keyUp
  | keyDown | keyLeft | keyRight | keyNumlock | keyScrolllock | keyInsert | keyDelete | keyHome
  | keyEnd | keyPageup | keyPagedown
deriving DecidableEq

/-- An array as its initialiser lists it; entries that it leaves out are zero. -/
def entryOf {α β : Type} [BEq α] (zero : β) (entries : List (α × β)) (i : α) : β :=
  (entries.lookup i).getD zero

/-- `scancode_set1`. -/
def scancodeSet1 : ℕ → Keycode := entryOf .keyNone
  [(0x01, .keyEsc), (0x02, .key1), (0x03, .key2), (0x04, .key3), (0x05, .key4), (0x06, .key5),
   (0x07, .key6), (0x08, .key7), (0x09, .key8), (0x0A, .key9), (0x0B, .key0), (0x0C, .keyMinus),
   (0x0D, .keyEqual), (0x0E, .keyBackspace), (0x0F, .keyTab), (0x10, .keyQ), (0x11, .keyW),
   (0x12, .keyE), (0x13, .keyR), (0x14, .keyT), (0x15, .keyY), (0x16, .keyU), (0x17, .keyI),
   (0x18, .keyO), (0x19, .keyP), (0x1A, .keyLeftbrace), (0x1B, .keyRightbrace), (0x1C, .keyEnter),
   (0x1D, .keyLctrl), (0x1E, .keyA), (0x1F, .keyS), (0x20, .keyD), (0x21, .keyF), (0x22, .keyG),
   (0x23, .keyH), (0x24, .keyJ), (0x25, .keyK), (0x26, .keyL), (0x27, .keySemicolon),
   (0x28, .keyApostrophe), (0x29, .keyGrave), (0x2A, .keyLshift), (0x2B, .keyBackslash),
   (0x2C, .keyZ), (0x2D, .keyX), (0x2E, .keyC), (0x2F, .keyV), (0x30, .keyB), (0x31, .keyN),
   (0x32, .keyM), (0x33, .keyComma), (0x34, .keyDot), (0x35, .keySlash), (0x36, .keyRshift),
   (0x37, .keyNone), (0x38, .keyLalt), (0x39, .keySpace), (0x3A, .keyCapslock), (0x3B, .keyF1),
   (0x3C, .keyF2), (0x3D, .keyF3), (0x3E, .keyF4), (0x3F, .keyF5), (0x40, .keyF6), (0x41, .keyF7),
   (0x42, .keyF8), (0x43, .keyF9), (0x44, .keyF10), (0x45, .keyNumlock), (0x46, .keyScrolllock),
   (0x57, .keyF11), (0x58, .keyF12), (0x59, .keyNone)]

/-- `scancode_set1_extended`. -/
def scancodeSet1Extended : ℕ → Keycode := entryOf .keyNone
  [(0x1C, .keyEnter), (0x1D, .keyRctrl), (0x35, .keySlash), (0x38, .keyRalt), (0x47, .keyHome),
   (0x48, .keyUp), (0x49, .keyPageup), (0x4B, .keyLeft), (0x4D, .keyRight), (0x4F, .keyEnd),
   (0x50, .keyDown), (0x51, .keyPagedown), (0x52, .keyInsert), (0x53, .keyDelete)]

/-- `keyboard_map_normal`. -/
def keyboardMapNormal : Keycode → Char := entryOf '\x00'
  [(.keyA, 'a'), (.keyB, 'b'), (.keyC, 'c'), (.keyD, 'd'), (.keyE, 'e'), (.keyF, 'f'),
   (.keyG, 'g'), (.keyH, 'h'), (.keyI, 'i'), (.keyJ, 'j'), (.keyK, 'k'), (.keyL, 'l'),
   (.keyM, 'm'), (.keyN, 'n'), (.keyO, 'o'), (.keyP, 'p'), (.keyQ, 'q'), (.keyR, 'r'),
   (.keyS, 's'), (.keyT, 't'), (.keyU, 'u'), (.keyV, 'v'), (.keyW, 'w'), (.keyX, 'x'),
   (.keyY, 'y'), (.keyZ, 'z'), (.key1, '1'), (.key2, '2'), (.key3, '3'), (.key4, '4'),
   (.key5, '5'), (.key6, '6'), (.key7, '7'), (.key8, '8'), (.key9, '9'), (.key0, '0'),
   (.keySpace, ' '), (.keyEnter, '\n'), (.keyTab, '\t'), (.keyBackspace, '\x08'),
   (.keyMinus, '\x27'), (.keyEqual, '\x00'), (.keyComma, ','), (.keyDot, '.'), (.keySlash, '-'),
   (.keySemicolon, 'c'), (.keyApostrophe, '\x00'), (.keyGrave, '`'), (.keyLeftbrace, '+'),
   (.keyRightbrace, '\x00'), (.keyBackslash, '~')]

/-- `keyboard_map_shift`. -/
def keyboardMapShift : Keycode → Char := entryOf '\x00'
  [(.keyA, 'A'), (.keyB, 'B'), (.keyC, 'C'), (.keyD, 'D'), (.keyE, 'E'), (.keyF, 'F'),
   (.keyG, 'G'), (.keyH, 'H'), (.keyI, 'I'), (.keyJ, 'J'), (.keyK, 'K'), (.keyL, 'L'),
   (.keyM, 'M'), (.keyN, 'N'), (.keyO, 'O'), (.keyP, 'P'), (.keyQ, 'Q'), (.keyR, 'R'),
   (.keyS, 'S'), (.keyT, 'T'), (.keyU, 'U'), (.keyV, 'V'), (.keyW, 'W'), (.keyX, 'X'),
   (.keyY, 'Y'), (.keyZ, 'Z'), (.key1, '!'), (.key2, '\x22'), (.key3, '#'), (.key4, '$'),
   (.key5, '%'), (.key6, '&'), (.key7, '/'), (.key8, '('), (.key9, ')'), (.key0, '='),
   (.keyMinus, '?'), (.keyEqual, '\x00'), (.keyComma, ';'), (.keyDot, ':'), (.keySlash, '_'),
   (.keySemicolon, 'C'), (.keyApostrophe, '\x00'), (.keyGrave, '\x00'), (.keyLeftbrace, '*'),
   (.keyRightbrace, '\x00'), (.keyBackslash, '^'), (.keySpace, ' '), (.keyEnter, '\n'),
   (.keyTab, '\t'), (.keyBackspace, '\x08')]

/-- `keyboard_map_altgr`. -/
def keyboardMapAltgr : Keycode → Char := entryOf '\x00'
  [(.key2, '@'), (.key7, '\x7b'), (.key8, '['), (.key9, ']'), (.key0, '\x7d')]

/-- `modifier_t`. -/
structure Modifiers where
  lshift : Bool
  rshift : Bool
  lctrl : Bool
  rctrl : Bool
  lalt : Bool
  ralt : Bool
  capsLock : Bool
deriving DecidableEq

/-- `last_keycode` and `mod`. -/
structure Keyboard where
  lastKeycode : Keycode
  mod : Modifiers
deriving DecidableEq

/-- The keyboard before the first interrupt. -/
def Keyboard.start : Keyboard where
  lastKeycode := .keyNone
  mod := ⟨false, false, false, false, false, false, false⟩

/-- What `update_input_state` makes of the modifiers. -/
def Modifiers.update (mod : Modifiers) (key : Keycode) (pressed : Bool) : Modifiers :=
  match key with
  | .keyLshift => { mod with lshift := pressed }
  | .keyRshift => { mod with rshift := pressed }
  | .keyLctrl => { mod with lctrl := pressed }
  | .keyRctrl => { mod with rctrl := pressed }
  | .keyLalt => { mod with lalt := pressed }
  | .keyRalt => { mod with ralt := pressed }
  | .keyCapslock => if pressed then { mod with capsLock := !mod.capsLock } else mod
  | _ => mod

/-- `update_input_state`. -/
def updateInputState (k : Keyboard) (key : Keycode) (pressed : Bool) : Keyboard where
  lastKeycode := if pressed then key else k.lastKeycode
  mod := k.mod.update key pressed

/-- `update_input`. -/
def updateInput (k : Keyboard) (key : ℕ) (pressed extended : Bool) : Keyboard :=
  if extended then
    if key < 128 then updateInputState k (scancodeSet1Extended key) pressed else k
  else if key < 128 then updateInputState k (scancodeSet1 key) pressed else k

/-- `k >= KEY_A && k <= KEY_Z`. -/
def Keycode.isLetter (k : Keycode) : Prop :=
  Keycode.keyA.ctorIdx ≤ k.ctorIdx ∧ k.ctorIdx ≤ Keycode.keyZ.ctorIdx

instance (k : Keycode) : Decidable k.isLetter :=
  inferInstanceAs (Decidable (Keycode.keyA.ctorIdx ≤ k.ctorIdx ∧ k.ctorIdx ≤ Keycode.keyZ.ctorIdx))

/-- `getch_`. -/
def getch (k : Keyboard) : ℕ :=
  match k.lastKeycode with
  | .keyNone | .keyLshift | .keyRshift | .keyLctrl | .keyRctrl | .keyLalt | .keyRalt
  | .keyCapslock => 0
  | key =>
    let shift := k.mod.lshift || k.mod.rshift
    let shiftTable := if k.mod.capsLock ∧ key.isLetter then !shift else shift
    let c := (if shiftTable then keyboardMapShift key else keyboardMapNormal key).toNat
    let ctrl := k.mod.lctrl || k.mod.rctrl
    let c := if ctrl ∧ 'a'.toNat ≤ c ∧ c ≤ 'z'.toNat then c - ('a'.toNat - 1) else c
    let c := if ctrl ∧ 'A'.toNat ≤ c ∧ c ≤ 'Z'.toNat then c - ('A'.toNat - 1) else c
    let altCode := (keyboardMapAltgr key).toNat
    if (k.mod.lalt || k.mod.ralt) ∧ altCode ≠ 0 then altCode else c

/-- The string `"\b \b"`. -/
def eraseString : CString := ⟨[0x08, 0x20, 0x08], by decide⟩

/-- The call of the terminal with which `keyboard_irq` answers a key that is pressed. -/
def Keyboard.respond (k : Keyboard) : Option TerminalCall :=
  match k.lastKeycode with
  | .keyUp => some (.moveCursor (-1) 0)
  | .keyDown => some (.moveCursor 1 0)
  | .keyLeft => some (.moveCursor 0 (-1))
  | .keyRight => some (.moveCursor 0 1)
  | _ =>
    let c : Byte := BitVec.ofNat 8 (getch k)
    if c ≠ 0 then
      if c ≠ 0x08 then some (.putchar c) else some (.write eraseString)
    else none

/-- `ps2_read`: the next byte of the controller, once it is there. -/
def ps2Read : List Byte → Option (Byte × List Byte)
  | [] => none
  | b :: input => some (b, input)

/-- `keyboard_irq`, where the controller is to deliver the bytes `input`: the keyboard, the call of
the terminal, and the bytes that are left.  Without a byte to read it does not return. -/
def keyboardIrq (k : Keyboard) (input : List Byte) :
    Option (Keyboard × Option TerminalCall × List Byte) := do
  let (scancode, input) ← ps2Read input
  let extended := scancode == 0xE0
  let (scancode, input) ← if extended then ps2Read input else some (scancode, input)
  let pressed := scancode &&& 0x80 == 0
  let k := updateInput k (scancode &&& 0x7F).toNat pressed extended
  some (k, if pressed then k.respond else none, input)

/-- `n` interrupts, and the calls of the terminal. -/
def keyboardIrqs : ℕ → Keyboard → List Byte → Option (Keyboard × List TerminalCall × List Byte)
  | 0, k, input => some (k, [], input)
  | n + 1, k, input => do
    let (k, call, input) ← keyboardIrq k input
    let (k, calls, input) ← keyboardIrqs n k input
    some (k, call.toList ++ calls, input)

/-! ### Bytes as scan codes -/

/-- A scan code: with the prefix `0xE0` or without it, the lower seven bits, and whether it is a
make code. -/
structure ScanCode where
  extended : Bool
  low : Fin 128
  make : Bool
deriving DecidableEq

theorem and_low_lt (b : Byte) : (b &&& 0x7F).toNat < 128 := by
  rw [BitVec.toNat_and]
  exact Nat.lt_succ_of_le Nat.and_le_right

def ScanCode.ofByte (extended : Bool) (b : Byte) : ScanCode where
  extended := extended
  low := ⟨(b &&& 0x7F).toNat, and_low_lt b⟩
  make := b &&& 0x80 == 0

/-- The key, by the table that the prefix says. -/
def ScanCode.key (c : ScanCode) : Keycode :=
  if c.extended then scancodeSet1Extended c.low else scancodeSet1 c.low

/-- The scan codes of a stream of bytes.  A prefix at its end is not one yet. -/
def scanCodes : List Byte → List ScanCode
  | [] => []
  | [b] => if b = 0xE0 then [] else [ScanCode.ofByte false b]
  | b :: b' :: input =>
    if b = 0xE0 then ScanCode.ofByte true b' :: scanCodes input
    else ScanCode.ofByte false b :: scanCodes (b' :: input)

/-- An entry of an array other than zero is in its initialiser. -/
theorem mem_of_entryOf {α β : Type} [BEq α] [LawfulBEq α] {zero v : β} {entries : List (α × β)}
    {i : α} (h : entryOf zero entries i = v) (hv : v ≠ zero) : (i, v) ∈ entries := by
  unfold entryOf at h
  cases hlookup : entries.lookup i with
  | none =>
    rw [hlookup] at h
    exact absurd h.symm hv
  | some v' =>
    rw [hlookup] at h
    obtain rfl : v' = v := h
    obtain ⟨l₁, l₂, rfl, -⟩ := List.lookup_eq_some_iff.mp hlookup
    simp

/-- A scan code comes in. -/
def Keyboard.receive (k : Keyboard) (c : ScanCode) : Keyboard :=
  updateInput k c.low c.make c.extended

variable {k k' : Keyboard} {input rest : List Byte} {call : Option TerminalCall}
  {calls : List TerminalCall} {c : ScanCode} {codes : List ScanCode} {n : ℕ}

theorem Keyboard.receive_eq : k.receive c = updateInputState k c.key c.make := by
  unfold Keyboard.receive updateInput ScanCode.key
  split_ifs with _ hlt hlt
  · rfl
  · exact absurd c.low.isLt hlt
  · rfl
  · exact absurd c.low.isLt hlt

/-- What an interrupt does with a scan code, and with the bytes after it. -/
def Keyboard.taken (k : Keyboard) (c : ScanCode) (input : List Byte) :
    Keyboard × Option TerminalCall × List Byte :=
  (k.receive c, if c.make then (k.receive c).respond else none, input)

theorem keyboardIrq_plain {b : Byte} (hb : b ≠ 0xE0) :
    keyboardIrq k (b :: input) = some (k.taken (.ofByte false b) input) := by
  have hplain : (b == 0xE0) = false := beq_false_of_ne hb
  simp only [keyboardIrq, ps2Read, Option.bind_eq_bind, Option.bind_some, hplain]
  rfl

theorem keyboardIrq_extended (b : Byte) :
    keyboardIrq k (0xE0 :: b :: input) = some (k.taken (.ofByte true b) input) := rfl

theorem scanCodes_plain {b : Byte} (hb : b ≠ 0xE0) :
    scanCodes (b :: input) = .ofByte false b :: scanCodes input := by
  cases input <;> simp only [scanCodes, if_neg hb]

/-- An interrupt takes the next scan code, and waits for it if it is not there yet. -/
theorem keyboardIrq_eq (k : Keyboard) (input : List Byte) :
    (scanCodes input = [] ∧ keyboardIrq k input = none) ∨
      ∃ c rest, scanCodes input = c :: scanCodes rest ∧
        keyboardIrq k input = some (k.taken c rest) := by
  cases input with
  | nil => exact .inl ⟨rfl, rfl⟩
  | cons b input =>
    by_cases hb : b = 0xE0
    · subst hb
      cases input with
      | nil => exact .inl ⟨rfl, rfl⟩
      | cons b input => exact .inr ⟨_, input, rfl, keyboardIrq_extended b⟩
    · exact .inr ⟨_, input, scanCodes_plain hb, keyboardIrq_plain hb⟩

/-- `n` interrupts return when there are as many scan codes. -/
theorem keyboardIrqs_isSome_iff :
    (keyboardIrqs n k input).isSome = true ↔ n ≤ (scanCodes input).length := by
  induction n generalizing k input with
  | zero => simp [keyboardIrqs]
  | succ n ih =>
    rcases keyboardIrq_eq k input with ⟨hcodes, hirq⟩ | ⟨c, rest, hcodes, hirq⟩
    · simp [keyboardIrqs, hcodes, hirq]
    · have hrest : (keyboardIrqs n (k.receive c) rest).isSome = true ↔
          n ≤ (scanCodes rest).length := ih
      simp [keyboardIrqs, hcodes, hirq, Keyboard.taken, ← hrest, Option.isSome_bind]

/-- **The interrupts take the scan codes one by one.** -/
theorem keyboardIrqs_eq (h : keyboardIrqs n k input = some (k', calls, rest)) :
    k' = ((scanCodes input).take n).foldl Keyboard.receive k ∧
      scanCodes rest = (scanCodes input).drop n := by
  induction n generalizing k input calls with
  | zero =>
    cases h
    simp
  | succ n ih =>
    rcases keyboardIrq_eq k input with ⟨-, hirq⟩ | ⟨c, next, hcodes, hirq⟩
    · simp [keyboardIrqs, hirq] at h
    · simp only [keyboardIrqs, hirq, Keyboard.taken, Option.bind_eq_bind, Option.bind_some,
        Option.bind_eq_some_iff, Option.some.injEq, Prod.exists, Prod.mk.injEq] at h
      obtain ⟨k₁, calls₁, rest₁, hnext, rfl, -, rfl⟩ := h
      obtain ⟨hk, hrest⟩ := ih hnext
      rw [hcodes, List.take_succ_cons, List.foldl_cons, List.drop_succ_cons]
      exact ⟨hk, hrest⟩

end Bethany
