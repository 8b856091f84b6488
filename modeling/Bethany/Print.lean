import Bethany.Library.BoundedTable
import Bethany.Library.Numeral
import Bethany.Video.Terminal

/-!
# Printing numbers

`print_uint` and `print_hex` send the digits of a number to the terminal, one `terminal_putchar`
each.  What they send does not depend on what becomes of a character, so the terminal is any state
with a `putchar` that may fail.

* `printUint`, `printHexEx`, `printHex`: the functions of `print.c`, with the buffer of 17 bytes;
* `HexRound`: one round of the two loops of `print_hex_ex`;
* `Spells b n chars`: read back in base `b` the characters are the canonical numeral of `n`;
* `printUint_eq`, `printHex_eq`: what they send is `spelling` of the number;
* `print_spells`: which is a canonical numeral, and no index leaves the buffer.
-/

namespace Bethany

open Machine Numeral Relation BoundedTable

variable {σ : Type*} (putchar : σ → Byte → Option σ)

/-- The characters one after the other, as `terminal_write` sends them. -/
def sendAll (s : σ) (chars : List Byte) : Option σ := chars.foldlM putchar s

/-- `print_uint`. -/
def printUint (s : σ) (val : BitVec 64) : Option σ :=
  (if 10 ≤ val then printUint s (val / 10) else some s).bind fun s =>
    putchar s ((0x30 + val % 10).setWidth 8)
termination_by val.toNat
decreasing_by
  rename_i hle
  rw [BitVec.le_def] at hle
  rw [BitVec.toNat_udiv]
  exact Nat.div_lt_self (lt_of_lt_of_le (by decide) hle) (by decide)

/-- `hex`, without the zero at its end. -/
def hexChars : List Byte :=
  [0x30, 0x31, 0x32, 0x33, 0x34, 0x35, 0x36, 0x37, 0x38, 0x39, 0x41, 0x42, 0x43, 0x44, 0x45, 0x46]

/-- `value`, `buffer` and `index` of `print_hex_ex`. -/
structure HexState where
  value : BitVec 64
  buffer : Vector Byte 17
  index : ℕ

/-- `buffer[index++] = hex[value & 0xF]; value >>= 4;` -/
def HexState.put (h : HexState) (hindex : h.index < 17) : HexState where
  value := h.value >>> 4
  buffer := h.buffer.set h.index (hexChars.getD (h.value &&& 0xF).toNat 0)
  index := (h.index + 1) % 2 ^ 8

theorem toNat_shiftRight_four (v : BitVec 64) : (v >>> 4).toNat = v.toNat / 16 := by
  rw [BitVec.toNat_ushiftRight, Nat.shiftRight_eq_div_pow]

/-- The loop that fills the buffer; a store behind its end fails. -/
def HexState.fill (h : HexState) : Option HexState :=
  if 0 < h.value then
    if hindex : h.index < 17 then (h.put hindex).fill else none
  else some h
termination_by h.value.toNat
decreasing_by
  rename_i hpos
  rw [HexState.put, toNat_shiftRight_four]
  exact Nat.div_lt_self hpos (by norm_num)

/-- The loop that sends it: `while(index > 0) terminal_putchar(buffer[--index])`. -/
def drain (buffer : Vector Byte 17) (s : σ) : ℕ → Option σ
  | 0 => some s
  | index + 1 => buffer[index]?.bind fun c => (putchar s c).bind fun s => drain buffer s index

/-- `print_hex_ex`; what is in `buffer` at first is left open. -/
def printHexEx (buffer : Vector Byte 17) (s : σ) (value : BitVec 64) (pre : Bool) : Option σ :=
  (if pre then sendAll putchar s [0x30, 0x78] else some s).bind fun s =>
    if value = 0 then putchar s 0x30
    else (HexState.fill ⟨value, buffer, 0⟩).bind fun h => drain putchar h.buffer s h.index

/-- `print_hex`. -/
def printHex (buffer : Vector Byte 17) (s : σ) (value : BitVec 64) : Option σ :=
  printHexEx putchar buffer s value true

/-- One round of the loops: the first one, as long as there is a value, and then the second. -/
inductive HexRound : HexState → HexState → Prop
  | fill {h : HexState} (hvalue : 0 < h.value) (hindex : h.index < 17) : HexRound h (h.put hindex)
  | drain {h : HexState} {i : ℕ} (hvalue : ¬ 0 < h.value) (hindex : h.index = i + 1) :
      HexRound h { h with index := i }

/-- The digit that a character stands for; letters are upper-case ones. -/
def digitValue (c : Byte) : Option ℕ :=
  if 0x30 ≤ c ∧ c ≤ 0x39 then some (c.toNat - 0x30)
  else if 0x41 ≤ c ∧ c ≤ 0x46 then some (c.toNat - 0x41 + 10) else none

/-- The characters are the canonical numeral of `n` in base `b`. -/
def Spells (b n : ℕ) (chars : List Byte) : Prop :=
  ∃ l, chars.map digitValue = l.map some ∧ IsNumeral b l ∧ value b l = n

variable {putchar} {s : σ} {b d n : ℕ} {v : BitVec 64} {buffer : Vector Byte 17} {h h' : HexState}

/-! ### Digits and characters -/

@[simp] theorem sendAll_nil : sendAll putchar s [] = some s := rfl

@[simp] theorem sendAll_cons (c : Byte) (chars : List Byte) :
    sendAll putchar s (c :: chars) = (putchar s c).bind fun s => sendAll putchar s chars := rfl

@[simp] theorem sendAll_append (chars chars' : List Byte) :
    sendAll putchar s (chars ++ chars') =
      (sendAll putchar s chars).bind fun s => sendAll putchar s chars' :=
  List.foldlM_append

/-- The character for a digit. -/
def digitChar (d : ℕ) : Byte := hexChars.getD d 0

/-- The characters of the numeral. -/
def spelling (b n : ℕ) : List Byte := (numeral b n).map digitChar

theorem digitValue_digitChar (hd : d < 16) : digitValue (digitChar d) = some d := by
  interval_cases d <;> rfl

theorem digitChar_of_lt_ten (hd : d < 10) : digitChar d = 0x30 + BitVec.ofNat 8 d := by
  interval_cases d <;> rfl

theorem spells_spelling (hb : 1 < b) (hb' : b ≤ 16) : Spells b n (spelling b n) := by
  have hnumeral : IsNumeral b (numeral b n) := isNumeral_numeral hb
  refine ⟨numeral b n, ?_, hnumeral, value_numeral⟩
  rw [spelling, List.map_map]
  refine List.map_congr_left fun d hd => ?_
  exact digitValue_digitChar (lt_of_lt_of_le (hnumeral.digit_lt d hd) hb')

/-- No character of a numeral is zero. -/
theorem Spells.nonzero {chars : List Byte} (h : Spells b n chars) : 0 ∉ chars := by
  obtain ⟨l, hchars, -⟩ := h
  intro hmem
  have hzero : digitValue 0 ∈ l.map some := hchars ▸ List.mem_map_of_mem hmem
  simp [digitValue] at hzero

/-! ### `print_uint` -/

theorem decimal_char : (0x30 + v % 10).setWidth 8 = digitChar (v.toNat % 10) := by
  rw [digitChar_of_lt_ten (Nat.mod_lt _ (by norm_num))]
  apply BitVec.eq_of_toNat_eq
  simp [BitVec.toNat_setWidth]

/-- `print_uint` sends the decimal numeral. -/
theorem printUint_eq : printUint putchar s v = sendAll putchar s (spelling 10 v.toNat) := by
  fun_induction printUint putchar s v with
  | case1 v ih =>
    split_ifs with hle
    · have hten : 10 ≤ v.toNat := BitVec.le_def.mp hle
      have hdiv : (v / 10).toNat = v.toNat / 10 := BitVec.toNat_udiv
      rw [ih hle, decimal_char, hdiv]
      simp [spelling, numeral_of_le (by norm_num) hten]
    · have hten : v.toNat < 10 := Nat.not_le.mp fun hle' => hle (BitVec.le_def.mpr hle')
      rw [decimal_char, Nat.mod_eq_of_lt hten]
      simp [spelling, numeral_of_lt hten]

/-! ### `print_hex` -/

theorem toNat_pos_iff : 0 < v.toNat ↔ 0 < v := by
  rw [BitVec.lt_def]
  rfl

theorem pos_of_ne_zero (hv : v ≠ 0) : 0 < v :=
  toNat_pos_iff.mp (Nat.pos_of_ne_zero fun heq => hv (BitVec.toNat_eq.mpr heq))

theorem toNat_eq_zero (hv : ¬ 0 < v) : v.toNat = 0 :=
  Nat.eq_zero_of_not_pos (mt toNat_pos_iff.mp hv)

/-- A round of the first loop splits the last digit off. -/
theorem digits_sixteen (hv : 0 < v) :
    Nat.digits 16 v.toNat = (v &&& 0xF).toNat :: Nat.digits 16 (v >>> 4).toNat := by
  have hmask : (v &&& 0xF).toNat = v.toNat % 16 := by
    rw [BitVec.toNat_and]
    exact Nat.and_two_pow_sub_one_eq_mod v.toNat 4
  rw [Nat.digits_def' (by norm_num) (toNat_pos_iff.mpr hv), hmask, toNat_shiftRight_four]

/-- A round of the first loop adds a character. -/
theorem HexState.take_put (hindex : h.index < 17) :
    (h.put hindex).buffer.toList.take (h.put hindex).index =
      h.buffer.toList.take h.index ++ [digitChar (h.value &&& 0xF).toNat] := by
  have hmod : (h.index + 1) % 2 ^ 8 = h.index + 1 := Nat.mod_eq_of_lt (by omega)
  have hlen : h.index < h.buffer.toList.length := by simpa using hindex
  rw [HexState.put, hmod, Vector.toList_set, take_succ_set hlen, digitChar]

/-- The first loop leaves the digits in the buffer, the last one first. -/
theorem HexState.fill_eq (hroom : h.index + (Nat.digits 16 h.value.toNat).length ≤ 17) :
    ∃ h', h.fill = some h' ∧ h'.index = h.index + (Nat.digits 16 h.value.toNat).length ∧
      h'.buffer.toList.take h'.index =
        h.buffer.toList.take h.index ++ (Nat.digits 16 h.value.toNat).map digitChar := by
  fun_induction HexState.fill h with
  | case1 h hpos hindex ih =>
    have hmod : (h.put hindex).index = h.index + 1 := Nat.mod_eq_of_lt (by omega)
    have hdigits : Nat.digits 16 h.value.toNat =
        (h.value &&& 0xF).toNat :: Nat.digits 16 (h.put hindex).value.toNat := digits_sixteen hpos
    rw [hdigits, List.length_cons] at hroom
    obtain ⟨h', hfill, hindex', htake⟩ := ih (by omega)
    refine ⟨h', hfill, ?_, ?_⟩
    · rw [hindex', hmod, hdigits, List.length_cons]
      omega
    · rw [htake, take_put hindex, hdigits]
      simp
  | case2 h hpos hindex =>
    rw [digits_sixteen hpos, List.length_cons] at hroom
    omega
  | case3 h hpos =>
    exact ⟨h, rfl, by simp [toNat_eq_zero hpos]⟩

/-- The second loop sends what is in the buffer, the last character first. -/
theorem drain_eq (hindex : d ≤ 17) :
    drain putchar buffer s d = sendAll putchar s (buffer.toList.take d).reverse := by
  induction d generalizing s with
  | zero => rfl
  | succ i ih =>
    have hlt : i < buffer.toList.length := by simpa using hindex
    rw [drain, List.take_succ_eq_append_getElem hlt, List.reverse_append]
    simp [ih (Nat.le_of_succ_le hindex), Nat.lt_of_succ_le hindex]

/-- The two loops send the hexadecimal numeral. -/
theorem fill_drain_eq (hv : 0 < v) :
    ((HexState.fill ⟨v, buffer, 0⟩).bind fun h => drain putchar h.buffer s h.index) =
      sendAll putchar s (spelling 16 v.toNat) := by
  have hlen : (Nat.digits 16 v.toNat).length ≤ 16 :=
    (Nat.digits_length_le_iff (by norm_num) _).mpr v.isLt
  obtain ⟨h', hfill, hindex, htake⟩ :=
    HexState.fill_eq (h := ⟨v, buffer, 0⟩) (by rw [Nat.zero_add]; exact Nat.le_succ_of_le hlen)
  rw [Nat.zero_add] at hindex
  have hle : h'.index ≤ 17 := hindex.trans_le (Nat.le_succ_of_le hlen)
  rw [hfill, Option.bind_some, drain_eq hle, htake, List.take_zero, List.nil_append,
    spelling, numeral_of_pos (toNat_pos_iff.mpr hv), List.map_reverse]

/-- `print_hex_ex` sends the hexadecimal numeral, after `0x` if it is to. -/
theorem printHexEx_eq (pre : Bool) :
    printHexEx putchar buffer s v pre =
      sendAll putchar s ((if pre then [0x30, 0x78] else []) ++ spelling 16 v.toNat) := by
  have hloops : (fun s => if v = 0 then putchar s 0x30
      else (HexState.fill ⟨v, buffer, 0⟩).bind fun h => drain putchar h.buffer s h.index) =
      fun s => sendAll putchar s (spelling 16 v.toNat) := by
    funext s
    split_ifs with hv
    · simp [hv, spelling, numeral_zero, digitChar, hexChars]
    · exact fill_drain_eq (pos_of_ne_zero hv)
  rw [printHexEx, hloops, sendAll_append]
  cases pre <;> rfl

theorem printHex_eq :
    printHex putchar buffer s v = sendAll putchar s (0x30 :: 0x78 :: spelling 16 v.toNat) :=
  printHexEx_eq true

/-- The digits that are left fit into the buffer's first 16 places. -/
structure HexState.Fits (h : HexState) : Prop where
  index_le : h.index ≤ 16
  value_lt : h.value.toNat < 16 ^ (16 - h.index)

theorem HexRound.fits (hround : HexRound h h') (hfits : h.Fits) : h'.Fits := by
  cases hround with
  | fill hvalue hindex =>
    -- a value that is left needs a place
    have hlt : h.index < 16 := by
      refine lt_of_le_of_ne hfits.index_le fun heq => ?_
      have hone := hfits.value_lt
      rw [heq, Nat.sub_self, pow_zero] at hone
      have hpos := toNat_pos_iff.mpr hvalue
      omega
    have hmod : (h.put hindex).index = h.index + 1 := Nat.mod_eq_of_lt (by omega)
    refine ⟨hmod.le.trans hlt, ?_⟩
    have hpow : 16 ^ (16 - h.index) = 16 * 16 ^ (16 - (h.index + 1)) := by
      rw [← pow_succ']
      congr 1
      omega
    rw [hmod, HexState.put, toNat_shiftRight_four]
    exact Nat.div_lt_of_lt_mul (hpow ▸ hfits.value_lt)
  | @drain i hvalue hindex =>
    have hle := hfits.index_le
    rw [hindex] at hle
    refine ⟨Nat.le_of_succ_le hle, ?_⟩
    rw [toNat_eq_zero hvalue]
    exact Nat.pow_pos (by norm_num)

/-- At every point of the loops. -/
theorem HexRound.index_le (hrounds : ReflTransGen HexRound ⟨v, buffer, 0⟩ h) : h.index ≤ 16 := by
  have hfits : h.Fits := by
    induction hrounds with
    | refl => exact ⟨Nat.zero_le _, v.isLt⟩
    | tail _ hround ih => exact hround.fits ih
  exact hfits.index_le

/-- The second loop goes through the places below its first index. -/
theorem HexState.drain_rounds (hvalue : ¬ 0 < h.value) (hd : d ≤ h.index) :
    ReflTransGen HexRound h { h with index := d } := by
  induction hd using Nat.decreasingInduction with
  | self => exact .refl
  | of_succ i _ ih => exact ih.tail (.drain hvalue rfl)

/-- The states that the two loops are in are reached by rounds. -/
theorem HexState.loop_rounds (hfill : h.fill = some h') (hd : d ≤ h'.index) :
    ReflTransGen HexRound h { h' with index := d } := by
  fun_induction HexState.fill h with
  | case1 h hpos hindex ih => exact (ih hfill).head (.fill hpos hindex)
  | case2 h hpos hindex => cases hfill
  | case3 h hpos =>
    cases hfill
    exact drain_rounds hpos hd

/-- On the screen `print_uint` is the `terminal_write` of a numeral. -/
theorem printUint_terminal (font : Font) (s : Screen) :
    ∃ str : CString, Spells 10 v.toNat str.bytes ∧
      printUint (terminalPutchar font) s v = terminalWrite font s str := by
  have hspells : Spells 10 v.toNat (spelling 10 v.toNat) :=
    spells_spelling (by norm_num) (by norm_num)
  exact ⟨⟨spelling 10 v.toNat, hspells.nonzero⟩, hspells, printUint_eq⟩

/-- **Printing a number**: `print_uint` sends its canonical decimal numeral, `print_hex` sends `0x`
and its canonical upper-case hexadecimal numeral, and the index into the buffer is at most 16. -/
theorem print_spells (value : BitVec 64) :
    (∃ chars, Spells 10 value.toNat chars ∧ ∀ {σ : Type*} (putchar : σ → Byte → Option σ) (s : σ),
        printUint putchar s value = sendAll putchar s chars) ∧
      ∃ chars, Spells 16 value.toNat chars ∧
        ∀ buffer : Vector Byte 17,
          (∀ {σ : Type*} (putchar : σ → Byte → Option σ) (s : σ),
            printHex putchar buffer s value = sendAll putchar s (0x30 :: 0x78 :: chars)) ∧
          ∀ h, ReflTransGen HexRound ⟨value, buffer, 0⟩ h → h.index ≤ 16 :=
  ⟨⟨spelling 10 value.toNat, spells_spelling (by norm_num) (by norm_num), fun _ _ => printUint_eq⟩,
    spelling 16 value.toNat, spells_spelling (by norm_num) le_rfl,
    fun _ => ⟨fun _ _ => printHex_eq, fun _ => HexRound.index_le⟩⟩

end Bethany
