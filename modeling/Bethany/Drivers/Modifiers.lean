import Bethany.Drivers.Keyboard

/-!
# The modifier keys

* `Modifier`: the six keys whose state the driver follows, with their flags and scan codes;
* `modifiers_follow`: a flag is set exactly if the last scan code of its key was a make code;
* `capsPresses`, `capsRepeats`: how often Caps Lock is pressed in a stream, and how often its make
  code comes again while it is held;
* `capsLock_iff`: the flag of Caps Lock is the parity of the presses exactly if the number of the
  repetitions is even, and always so exactly if there is none.
-/

namespace Bethany

open Machine

/-- A key that is down or up. -/
inductive Modifier
  | lshift | rshift | lctrl | rctrl | lalt | ralt
deriving DecidableEq

def Modifier.flag (mod : Modifiers) : Modifier → Bool
  | .lshift => mod.lshift
  | .rshift => mod.rshift
  | .lctrl => mod.lctrl
  | .rctrl => mod.rctrl
  | .lalt => mod.lalt
  | .ralt => mod.ralt

def Modifier.key : Modifier → Keycode
  | .lshift => .keyLshift
  | .rshift => .keyRshift
  | .lctrl => .keyLctrl
  | .rctrl => .keyRctrl
  | .lalt => .keyLalt
  | .ralt => .keyRalt

/-- The scan code of a key on the wire: whether it has the prefix, and the lower seven bits. -/
def Modifier.code : Modifier → Bool × Fin 128
  | .lshift => (false, 0x2A)
  | .rshift => (false, 0x36)
  | .lctrl => (false, 0x1D)
  | .rctrl => (true, 0x1D)
  | .lalt => (false, 0x38)
  | .ralt => (true, 0x38)

/-- The make or the break code of the key with this code. -/
def ScanCode.isOf (code : Bool × Fin 128) (c : ScanCode) : Bool := (c.extended, c.low) == code

/-- The last code of the key was a make code.  Before the first one the key is up. -/
def lastMake (code : Bool × Fin 128) (codes : List ScanCode) : Prop :=
  ∃ c, (codes.filter (ScanCode.isOf code)).getLast? = some c ∧ c.make = true

variable {k k' : Keyboard} {mod : Modifiers} {m : Modifier} {key : Keycode} {pressed : Bool}
  {c : ScanCode} {codes : List ScanCode} {input rest : List Byte} {n : ℕ}
  {calls : List TerminalCall}

/-! ### Up and down -/

/-- A key that the two tables list at one place has this place as its code. -/
theorem ScanCode.key_eq_iff (code : Bool × Fin 128)
    (hkey : ScanCode.key ⟨code.1, code.2, true⟩ = key)
    (hplain : ∀ low, scancodeSet1 low = key → (false, low) = (code.1, code.2.val))
    (hextended : ∀ low, scancodeSet1Extended low = key → (true, low) = (code.1, code.2.val))
    (c : ScanCode) : c.key = key ↔ c.isOf code = true := by
  obtain ⟨extended, low, make⟩ := c
  obtain ⟨prefixed, low'⟩ := code
  rw [ScanCode.isOf, beq_iff_eq]
  constructor
  · intro h
    have hplace : (extended, low.val) = (prefixed, low'.val) := by
      cases extended
      · exact hplain low h
      · exact hextended low h
    rw [Prod.mk.injEq] at hplace
    rw [hplace.1, Fin.ext hplace.2]
  · intro h
    obtain ⟨rfl, rfl⟩ := Prod.mk.inj h
    exact hkey

/-- The two tables give a modifier for its code only. -/
theorem Modifier.key_eq_iff (m : Modifier) (c : ScanCode) :
    c.key = m.key ↔ c.isOf m.code = true := by
  have hnone : m.key ≠ .keyNone := by cases m <;> decide
  refine ScanCode.key_eq_iff m.code ?_ (fun low h => ?_) (fun low h => ?_) c
  · cases m <;> rfl
  · have hmem := mem_of_entryOf h hnone
    cases m <;> simp_all [Modifier.key, Modifier.code]
  · have hmem := mem_of_entryOf h hnone
    cases m <;> simp_all [Modifier.key, Modifier.code]

/-- A key changes its own flag. -/
theorem Modifier.flag_update :
    m.flag (mod.update key pressed) = if key = m.key then pressed else m.flag mod := by
  cases m <;> cases pressed <;> unfold Modifiers.update <;> split <;>
    simp_all [Modifier.flag, Modifier.key]

theorem Modifier.flag_receive :
    m.flag (k.receive c).mod = if c.isOf m.code then c.make else m.flag k.mod := by
  rw [Keyboard.receive_eq, updateInputState, flag_update]
  simp only [m.key_eq_iff]

/-- The flag after some codes. -/
theorem Modifier.flag_foldl :
    m.flag (codes.foldl Keyboard.receive k).mod =
      ((codes.filter (ScanCode.isOf m.code)).getLast?.map ScanCode.make).getD (m.flag k.mod) := by
  induction codes using List.reverseRecOn with
  | nil => rfl
  | append_singleton codes c ih =>
    rw [List.foldl_concat, flag_receive, List.filter_append, ih]
    cases hc : ScanCode.isOf m.code c <;> simp [hc]

/-- **The modifier flags follow the keys**: after some interrupts a flag is set exactly if the last
scan code of its key was a make code, and the code of another key leaves it as it is. -/
theorem modifiers_follow (hrun : keyboardIrqs n Keyboard.start input = some (k, calls, rest))
    (m : Modifier) :
    (m.flag k.mod = true ↔ lastMake m.code ((scanCodes input).take n)) ∧
      ∀ c ∈ (scanCodes rest).head?, c.isOf m.code = false →
        ∀ k' call rest', keyboardIrq k rest = some (k', call, rest') →
          m.flag k'.mod = m.flag k.mod := by
  constructor
  · obtain ⟨rfl, -⟩ := keyboardIrqs_eq hrun
    have hstart : m.flag Keyboard.start.mod = false := by cases m <;> rfl
    rw [Modifier.flag_foldl, hstart, lastMake]
    cases (((scanCodes input).take n).filter (ScanCode.isOf m.code)).getLast? <;> simp
  · intro c hc hother k' call rest' hirq
    rcases keyboardIrq_eq k rest with ⟨hnil, -⟩ | ⟨c', next, hcons, hirq'⟩
    · simp [hnil] at hc
    · rw [hirq', Option.some.injEq] at hirq
      obtain rfl : c' = c := by simpa [hcons] using hc
      obtain rfl : k.receive c' = k' := congrArg Prod.fst hirq
      rw [Modifier.flag_receive, if_neg (by simp [hother])]

theorem modifiers_follow_example : ∃ k calls,
    keyboardIrqs 3 Keyboard.start [0x2A, 0xE0, 0xAA, 0x1E] = some (k, calls, []) ∧
      (Modifier.lshift.flag k.mod = true ↔ lastMake Modifier.lshift.code
        ((scanCodes [0x2A, 0xE0, 0xAA, 0x1E]).take 3)) :=
  ⟨_, _, rfl, (modifiers_follow rfl .lshift).1⟩

/-! ### Caps Lock -/

/-- The scan code of Caps Lock. -/
def capsCode : Bool × Fin 128 := (false, 0x3A)

/-- The codes of Caps Lock in a stream: whether each is a make code. -/
def capsCodes (codes : List ScanCode) : List Bool :=
  (codes.filter (ScanCode.isOf capsCode)).map ScanCode.make

/-- Make codes of a key that is not held: the presses. -/
def pressesFrom (held : Bool) : List Bool → ℕ
  | [] => 0
  | make :: makes => (if make && !held then 1 else 0) + pressesFrom make makes

/-- Make codes of a key that is held. -/
def repeatsFrom (held : Bool) : List Bool → ℕ
  | [] => 0
  | make :: makes => (if make && held then 1 else 0) + repeatsFrom make makes

/-- How often Caps Lock is pressed. -/
def capsPresses (codes : List ScanCode) : ℕ := pressesFrom false (capsCodes codes)

/-- How often Caps Lock repeats its make code. -/
def capsRepeats (codes : List ScanCode) : ℕ := repeatsFrom false (capsCodes codes)

/-- The flag of Caps Lock is the parity of the presses. -/
def Keyboard.CapsRight (k : Keyboard) (codes : List ScanCode) : Prop :=
  k.mod.capsLock = true ↔ Odd (capsPresses codes)

instance (k : Keyboard) (codes : List ScanCode) : Decidable (k.CapsRight codes) :=
  inferInstanceAs (Decidable (k.mod.capsLock = true ↔ Odd (capsPresses codes)))

variable {held : Bool} {makes makes' : List Bool} {i : ℕ}

theorem capsKey_iff (c : ScanCode) : c.key = .keyCapslock ↔ c.isOf capsCode = true := by
  refine ScanCode.key_eq_iff capsCode ?_ (fun low h => ?_) (fun low h => ?_) c
  · rfl
  · simpa [capsCode] using mem_of_entryOf h (by decide)
  · simpa [capsCode] using mem_of_entryOf h (by decide)

/-- A make code of Caps Lock turns the flag over. -/
theorem capsLock_receive :
    (k.receive c).mod.capsLock = (k.mod.capsLock ^^ (c.isOf capsCode && c.make)) := by
  have hupdate : ∀ (mod : Modifiers) (key : Keycode) (pressed : Bool),
      (mod.update key pressed).capsLock =
        (mod.capsLock ^^ (decide (key = .keyCapslock) && pressed)) := by
    intro mod key pressed
    cases pressed <;> unfold Modifiers.update <;> split <;> simp_all
  have hkey : decide (c.key = .keyCapslock) = c.isOf capsCode := by
    rw [Bool.eq_iff_iff, decide_eq_true_iff, capsKey_iff]
  rw [Keyboard.receive_eq, updateInputState, hupdate, hkey]

/-- The flag is the parity of the make codes. -/
theorem capsLock_foldl :
    (codes.foldl Keyboard.receive Keyboard.start).mod.capsLock = true ↔
      Odd ((capsCodes codes).count true) := by
  induction codes using List.reverseRecOn with
  | nil => simp [capsCodes, Keyboard.start]
  | append_singleton codes c ih =>
    rw [List.foldl_concat, capsLock_receive]
    unfold capsCodes at ih ⊢
    cases hc : ScanCode.isOf capsCode c <;> cases hm : c.make <;>
      simp [List.filter_append, hc, hm, Nat.odd_add_one, ← ih]

/-- A make code is a press or a repetition. -/
theorem presses_add_repeats (held : Bool) (makes : List Bool) :
    pressesFrom held makes + repeatsFrom held makes = makes.count true := by
  induction makes generalizing held with
  | nil => rfl
  | cons make makes ih =>
    have hrest := ih make
    cases make <;> cases held <;> simp [pressesFrom, repeatsFrom, ← hrest] <;> omega

/-- The repetitions in a stream that goes on. -/
theorem repeatsFrom_append :
    repeatsFrom held (makes ++ makes') =
      repeatsFrom held makes + repeatsFrom (makes.getLast?.getD held) makes' := by
  induction makes generalizing held with
  | nil => simp [repeatsFrom]
  | cons make makes ih =>
    rw [List.cons_append, repeatsFrom, repeatsFrom, ih, List.getLast?_cons]
    simp [Nat.add_assoc]

/-- After some codes the flag is right if the number of repetitions is even. -/
theorem capsRight_foldl :
    (codes.foldl Keyboard.receive Keyboard.start).CapsRight codes ↔ Even (capsRepeats codes) := by
  have hsum := presses_add_repeats false (capsCodes codes)
  rw [Keyboard.CapsRight, capsLock_foldl, ← hsum, Nat.odd_add, capsPresses, capsRepeats]
  tauto

/-- One more code is at most one more repetition. -/
theorem capsRepeats_concat :
    capsRepeats codes ≤ capsRepeats (codes ++ [c]) ∧
      capsRepeats (codes ++ [c]) ≤ capsRepeats codes + 1 := by
  unfold capsRepeats capsCodes
  rw [List.filter_append, List.map_append, repeatsFrom_append]
  cases hc : ScanCode.isOf capsCode c
  · simp [hc, repeatsFrom]
  · simp [hc, repeatsFrom]
    split <;> omega

theorem capsRepeats_take_succ (codes : List ScanCode) (i : ℕ) :
    capsRepeats (codes.take i) ≤ capsRepeats (codes.take (i + 1)) ∧
      capsRepeats (codes.take (i + 1)) ≤ capsRepeats (codes.take i) + 1 := by
  rw [List.take_add_one]
  cases codes[i]? with
  | none => simp
  | some c => exact capsRepeats_concat

/-- Before the repetitions are many there is one. -/
theorem exists_capsRepeats_eq_one (h : capsRepeats (codes.take n) ≠ 0) :
    ∃ i ≤ n, capsRepeats (codes.take i) = 1 := by
  have hex : ∃ i, capsRepeats (codes.take i) ≠ 0 := ⟨n, h⟩
  refine ⟨Nat.find hex, Nat.find_min' hex h, ?_⟩
  have hfirst := Nat.find_spec hex
  cases hi : Nat.find hex with
  | zero =>
    rw [hi] at hfirst
    exact absurd rfl hfirst
  | succ j =>
    have hbefore : capsRepeats (codes.take j) = 0 := by
      by_contra hj
      exact Nat.find_min hex (hi ▸ Nat.lt_succ_self j) hj
    rw [hi] at hfirst
    have := capsRepeats_take_succ codes j
    omega

/-- **Caps Lock.**  After some interrupts its flag is the parity of the presses exactly if the
number of repetitions is even; and it has been so all along exactly if there was no repetition. -/
theorem capsLock_iff (hrun : keyboardIrqs n Keyboard.start input = some (k, calls, rest)) :
    (k.CapsRight ((scanCodes input).take n) ↔ Even (capsRepeats ((scanCodes input).take n))) ∧
      ((∀ i ≤ n, ∀ k' calls' rest', keyboardIrqs i Keyboard.start input = some (k', calls', rest') →
        k'.CapsRight ((scanCodes input).take i)) ↔ capsRepeats ((scanCodes input).take n) = 0) := by
  have hright : ∀ i k' calls' rest',
      keyboardIrqs i Keyboard.start input = some (k', calls', rest') →
        (k'.CapsRight ((scanCodes input).take i) ↔
          Even (capsRepeats ((scanCodes input).take i))) := by
    intro i k' calls' rest' hi
    rw [(keyboardIrqs_eq hi).1]
    exact capsRight_foldl
  refine ⟨hright n k calls rest hrun, fun hall => ?_, fun hzero i hi k' calls' rest' hirqs => ?_⟩
  · by_contra hne
    obtain ⟨i, hi, hone⟩ := exists_capsRepeats_eq_one hne
    have hn := keyboardIrqs_isSome_iff.mp (Option.isSome_of_eq_some hrun)
    obtain ⟨⟨k', calls', rest'⟩, hirqs⟩ := Option.isSome_iff_exists.mp
      (keyboardIrqs_isSome_iff (k := Keyboard.start).mpr (hi.trans hn))
    have heven := (hright i k' calls' rest' hirqs).mp (hall i hi k' calls' rest' hirqs)
    rw [hone] at heven
    exact absurd heven (by decide)
  · have hmono : Monotone fun i => capsRepeats ((scanCodes input).take i) :=
      monotone_nat_of_le_succ fun i => (capsRepeats_take_succ _ i).1
    have hi0 : capsRepeats ((scanCodes input).take i) = 0 :=
      Nat.le_zero.mp (hzero ▸ hmono hi)
    rw [hright i k' calls' rest' hirqs, hi0]
    exact Even.zero

/-- Caps Lock is pressed, a letter in between, and pressed again after its release. -/
theorem capsLock_iff_example : ∃ k calls,
    keyboardIrqs 5 Keyboard.start [0x3A, 0x1E, 0x9E, 0xBA, 0x3A] = some (k, calls, []) ∧
      k.CapsRight ((scanCodes [0x3A, 0x1E, 0x9E, 0xBA, 0x3A]).take 5) :=
  ⟨_, _, rfl, (capsLock_iff rfl).1.mpr (by decide)⟩

/-- A key that is held repeats its make code, which turns the flag off again. -/
theorem capsLock_repeats : ∃ k calls,
    keyboardIrqs 2 Keyboard.start [0x3A, 0x3A] = some (k, calls, []) ∧
      ¬ k.CapsRight (scanCodes [0x3A, 0x3A]) :=
  ⟨_, _, rfl, by decide⟩

end Bethany
