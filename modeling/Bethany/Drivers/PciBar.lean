import Bethany.Drivers.PciWrite

/-!
# Base addresses

The six dwords from 0x10 on in the configuration space of a function say where its registers are.
A base address takes one dword or two, and the lowest bits of the first tell of which kind it is.

* `pciBar`: `pci_bar`;
* `Bar`, `Bar.encode`, `Bar.decode`: the kinds of base addresses, and their dwords;
* `Bar.encode_append_inj`, `Splits.unique`: dwords are read as base addresses in one way;
* `pciBar_fst`: `pci_bar` decodes the dword at its index and the next;
* `pciBar_layout`: the base addresses of a function, and what `pci_bar` returns for them.
-/

namespace Bethany

open Machine RegisterBits

/-- `pci_bar`, with the bridge after it; no device is `NULL`. -/
def pciBar (p : PciPorts) (device : Option PciDevice) (index : Byte) : BitVec 64 × PciPorts :=
  match device with
  | none => (0, p)
  | some d =>
    if index ≥ 6 then (0, p)
    else
      let offset := 0x10 + index * 4
      let low := pciRead32 p d.bus d.device d.function offset
      if low.1 &&& 1 ≠ 0 then (0, low.2)
      else if (low.1 >>> 1) &&& 0b11 = 0b10 then
        let high := pciRead32 low.2 d.bus d.device d.function (offset + 4)
        ((high.1.setWidth 64 <<< 32) ||| (low.1.setWidth 64 &&& ~~~0xF), high.2)
      else (low.1.setWidth 64 &&& ~~~0xF, low.2)

/-- A base address: of ports, or of memory, below `2 ^ 32` or anywhere.  Bit 0 tells ports from
memory, and bits 1 and 2 are 2 for memory anywhere. -/
inductive Bar
  | io (base : BitVec 30) (reserved : BitVec 1)
  | memory32 (base : BitVec 28) (prefetchable : BitVec 1) (kind : BitVec 2) (hkind : kind ≠ 2)
  | memory64 (base : BitVec 60) (prefetchable : BitVec 1)

/-- The dwords of a base address. -/
def Bar.encode : Bar → List (BitVec 32)
  | .io base reserved => [base ++ reserved ++ 1#1]
  | .memory32 base prefetchable kind _ => [base ++ prefetchable ++ kind ++ 0#1]
  | .memory64 base prefetchable =>
    [base.extractLsb' 0 28 ++ prefetchable ++ 0b100#3, base.extractLsb' 28 32]

/-- The base address that begins at a dword. -/
def Bar.decode (low high : BitVec 32) : Bar :=
  if low.getLsbD 0 then .io (low.extractLsb' 2 30) (low.extractLsb' 1 1)
  else if hkind : low.extractLsb' 1 2 = 2 then
    .memory64 (high ++ low.extractLsb' 4 28) (low.extractLsb' 3 1)
  else .memory32 (low.extractLsb' 4 28) (low.extractLsb' 3 1) (low.extractLsb' 1 2) hkind

/-- Where the memory begins; ports have no address there. -/
def Bar.address : Bar → BitVec 64
  | .io .. => 0
  | .memory32 base .. => (base ++ 0#4).setWidth 64
  | .memory64 base _ => base ++ 0#4

/-- Dwords as base addresses, one after the other.  What is left over is nothing, or a dword whose
other half would be behind the end. -/
def Splits (ws : List (BitVec 32)) (bars : List Bar) : Prop :=
  ∃ rest, ws = bars.flatMap Bar.encode ++ rest ∧
    (rest = [] ∨ ∃ low, rest = [low] ∧ low.extractLsb' 0 3 = 0b100)

/-- The base addresses that dwords hold. -/
def Bar.parse : List (BitVec 32) → List Bar
  | [] => []
  | [low] => if low.extractLsb' 0 3 = 0b100 then [] else [Bar.decode low 0]
  | low :: high :: ws =>
    if low.extractLsb' 0 3 = 0b100 then Bar.decode low high :: Bar.parse ws
    else Bar.decode low high :: Bar.parse (high :: ws)

/-- The dword at which the base address after `bars` begins, from 0x10 on. -/
def slotAfter (bars : List Bar) : ℕ := (bars.flatMap Bar.encode).length

/-- The six dwords of the base addresses. -/
def ConfigSpace.barDwords (space : ConfigSpace) (f : PciFunction) : List (BitVec 32) :=
  (List.range 6).map fun i => space f (4 + BitVec.ofNat 6 i)

variable {p : PciPorts} {space : ConfigSpace} {f : PciFunction} {d : PciDevice} {index : Byte}
  {low high : BitVec 32} {bar bar' : Bar} {bars bars' : List Bar} {ws ws' : List (BitVec 32)}

/-! ### The bits of a base address -/

theorem and_one_ne_zero_iff : low &&& 1 ≠ 0 ↔ low.getLsbD 0 = true := by
  have hone : low &&& BitVec.twoPow 32 0 = _ := BitVec.and_twoPow low 0
  have hand : low &&& 1 = if low.getLsbD 0 then 1 else 0 := hone
  rw [hand]
  cases low.getLsbD 0 <;> decide

theorem shiftRight_and_eq_two_iff : (low >>> 1) &&& 0b11 = 0b10 ↔ low.extractLsb' 1 2 = 2 := by
  have hmask : ∀ i, ∀ hi : i < 32, (0b11 : BitVec 32)[i] = decide (i < 2) := by decide
  have hback : (low >>> 1) &&& 0b11 = (low.extractLsb' 1 2).setWidth 32 := by
    ext i hi
    rw [BitVec.getElem_and, hmask i hi]
    simp [Bool.and_comm]
  rw [hback]
  constructor
  · intro h
    have hwidth := congrArg (BitVec.setWidth 2) h
    simpa using hwidth
  · intro h
    rw [h]
    rfl

/-- Without its lowest four bits. -/
theorem and_not_fifteen :
    low.setWidth 64 &&& ~~~0xF = (low.extractLsb' 4 28 ++ 0#4).setWidth 64 := by
  have hmask : ∀ i, ∀ hi : i < 64, (~~~(0xF : BitVec 64))[i] = decide (4 ≤ i) := by decide
  ext i hi
  rw [BitVec.getElem_and, hmask i hi, BitVec.getElem_setWidth, BitVec.getElem_setWidth,
    BitVec.getLsbD_append]
  rcases Nat.lt_or_ge i 4 with hlt | hge
  · simp [hlt]
  · have hsum : 4 + (i - 4) = i := by omega
    simp only [BitVec.getLsbD_extractLsb', hsum, Nat.not_lt.mpr hge, if_false,
      decide_eq_true hge, Bool.and_true]
    rcases Nat.lt_or_ge i 32 with hin | hout
    · have : i - 4 < 28 := by omega
      simp [this]
    · simp [BitVec.getLsbD_of_ge low i hout]

/-- Two dwords to one address. -/
theorem shiftLeft_or_and_not :
    (high.setWidth 64 <<< 32) ||| (low.setWidth 64 &&& ~~~0xF) =
      (high ++ low.extractLsb' 4 28) ++ 0#4 := by
  rw [and_not_fifteen]
  apply BitVec.eq_of_getLsbD_eq
  intro i hi
  simp only [BitVec.getLsbD_or, BitVec.getLsbD_shiftLeft, BitVec.getLsbD_setWidth,
    BitVec.getLsbD_append, BitVec.getLsbD_extractLsb']
  rcases Nat.lt_or_ge i 32 with hin | hout
  · have hbase : i - 4 < 28 := by omega
    simp [hin, hbase]
    omega
  · have hfour : ¬ i < 4 := by omega
    have hbase : ¬ i - 4 < 28 := by omega
    have hsub : i - 4 - 28 = i - 32 := by omega
    have hhigh : i - 32 < 64 := by omega
    simp [Nat.not_lt.mpr hout, hfour, hbase, hsub, show i < 64 from hi, hhigh]

theorem Bar.address_io (hio : low.getLsbD 0 = true) : (Bar.decode low high).address = 0 := by
  rw [Bar.decode, if_pos hio, Bar.address]

theorem Bar.address_memory32 (hio : ¬ low.getLsbD 0 = true) (hkind : low.extractLsb' 1 2 ≠ 2) :
    (Bar.decode low high).address = low.setWidth 64 &&& ~~~0xF := by
  rw [Bar.decode, if_neg hio, dif_neg hkind, Bar.address, and_not_fifteen]

theorem Bar.address_memory64 (hio : ¬ low.getLsbD 0 = true) (hkind : low.extractLsb' 1 2 = 2) :
    (Bar.decode low high).address =
      (high.setWidth 64 <<< 32) ||| (low.setWidth 64 &&& ~~~0xF) := by
  rw [Bar.decode, if_neg hio, dif_pos hkind, Bar.address]
  exact shiftLeft_or_and_not.symm

/-- `pci_bar` decodes the dword at its index and the next. -/
theorem pciBar_fst (hindex : index < 6) :
    (pciBar p (some d) index).1 =
      (Bar.decode (p.dword d.bus d.device d.function (0x10 + index * 4))
        (p.dword d.bus d.device d.function (0x10 + index * 4 + 4))).address := by
  have hnot : ¬ index ≥ 6 := BitVec.not_le.mpr hindex
  simp only [pciBar, if_neg hnot, pciRead32_eq, and_one_ne_zero_iff, shiftRight_and_eq_two_iff]
  split_ifs with hio hkind
  · exact (Bar.address_io hio).symm
  · exact (Bar.address_memory64 hio hkind).symm
  · exact (Bar.address_memory32 hio hkind).symm

/-- It changes nothing but the address of the bridge. -/
theorem space_pciBar (device : Option PciDevice) : (pciBar p device index).2.space = p.space := by
  cases device with
  | none => rfl
  | some d =>
    simp only [pciBar, pciRead32_eq]
    split_ifs <;> rfl

/-! ### Base addresses one after the other -/

theorem Bar.encode_ne_nil (bar : Bar) : bar.encode ≠ [] := by
  cases bar <;> simp [Bar.encode]

/-- A dword with ports or memory below `2 ^ 32` is a base address by itself. -/
theorem Bar.encode_decode_narrow (hnarrow : low.extractLsb' 0 3 ≠ 0b100) :
    (Bar.decode low high).encode = [low] := by
  have hone : low.extractLsb' 0 1 = BitVec.ofBool (low.getLsbD 0) := by
    ext i hi
    simp [show i = 0 by omega]
  have hlow : low.extractLsb' 1 2 ++ low.extractLsb' 0 1 = low.extractLsb' 0 3 :=
    BitVec.extractLsb'_append_extractLsb'_eq_extractLsb' rfl
  have hports : low.extractLsb' 2 30 ++ low.extractLsb' 1 1 = low.extractLsb' 1 31 :=
    BitVec.extractLsb'_append_extractLsb'_eq_extractLsb' rfl
  have hbase : low.extractLsb' 4 28 ++ low.extractLsb' 3 1 = low.extractLsb' 3 29 :=
    BitVec.extractLsb'_append_extractLsb'_eq_extractLsb' rfl
  have hkinds : low.extractLsb' 3 29 ++ low.extractLsb' 1 2 = low.extractLsb' 1 31 :=
    BitVec.extractLsb'_append_extractLsb'_eq_extractLsb' rfl
  have hwhole : low.extractLsb' 1 31 ++ low.extractLsb' 0 1 = low :=
    @BitVec.extractLsb'_append_extractLsb' 31 1 low
  rw [hone] at hlow hwhole
  rw [Bar.decode]
  split_ifs with hio hkind
  · rw [hio] at hwhole
    rw [Bar.encode, hports]
    exact congrArg (fun x => [x]) hwhole
  · rw [hkind, Bool.eq_false_iff.mpr hio] at hlow
    exact absurd hlow.symm hnarrow
  · rw [Bool.eq_false_iff.mpr hio] at hwhole
    rw [Bar.encode, hbase, hkinds]
    exact congrArg (fun x => [x]) hwhole

/-- One with memory anywhere takes the next dword as well. -/
theorem Bar.encode_decode_wide (hwide : low.extractLsb' 0 3 = 0b100) :
    (Bar.decode low high).encode = [low, high] := by
  have hio : ¬ low.getLsbD 0 = true := by
    have hbit : (low.extractLsb' 0 3).getLsbD 0 = low.getLsbD 0 := by simp
    rw [← hbit, hwide]
    decide
  have hkind : low.extractLsb' 1 2 = 2 := by
    have hpart : (low.extractLsb' 0 3).extractLsb' 1 2 = low.extractLsb' 1 2 :=
      BitVec.extractLsb'_extractLsb'_of_le le_rfl
    rw [← hpart, hwide]
    rfl
  have hbase : low.extractLsb' 4 28 ++ low.extractLsb' 3 1 = low.extractLsb' 3 29 :=
    BitVec.extractLsb'_append_extractLsb'_eq_extractLsb' rfl
  have hwhole : low.extractLsb' 3 29 ++ low.extractLsb' 0 3 = low :=
    @BitVec.extractLsb'_append_extractLsb' 29 3 low
  have hlow : (high ++ low.extractLsb' 4 28).extractLsb' 0 28 = low.extractLsb' 4 28 := by
    rw [BitVec.extractLsb'_append_eq_of_add_le (by norm_num), BitVec.extractLsb'_eq_self]
  have hhigh : (high ++ low.extractLsb' 4 28).extractLsb' 28 32 = high := by
    rw [BitVec.extractLsb'_append_eq_of_le (by norm_num), Nat.sub_self, BitVec.extractLsb'_eq_self]
  rw [hwide] at hwhole
  rw [Bar.decode, if_neg hio, dif_pos hkind, Bar.encode, hlow, hhigh, hbase]
  exact congrArg (fun x => [x, high]) hwhole

/-- Two dwords begin with a base address. -/
theorem Bar.exists_encode (low high : BitVec 32) (ws : List (BitVec 32)) :
    ∃ (bar : Bar) (rest : List (BitVec 32)), low :: high :: ws = bar.encode ++ rest := by
  by_cases hwide : low.extractLsb' 0 3 = 0b100
  · exact ⟨Bar.decode low high, ws, by rw [Bar.encode_decode_wide hwide]; rfl⟩
  · exact ⟨Bar.decode low high, high :: ws, by rw [Bar.encode_decode_narrow hwide]; rfl⟩

/-- A base address is decoded to itself, whatever is behind it. -/
theorem Bar.decode_encode (h : bar.encode ++ ws = low :: ws') (hhigh : ∀ x ∈ ws'.head?, x = high) :
    Bar.decode low high = bar := by
  cases bar with
  | io base reserved =>
    obtain ⟨rfl, -⟩ := List.cons.inj h
    have hbit : (base ++ reserved ++ 1#1).getLsbD 0 = true := by
      rw [BitVec.getLsbD_append]
      rfl
    have hbase : (base ++ reserved ++ 1#1).extractLsb' 2 30 = base := by
      simp (disch := norm_num) only [BitVec.extractLsb'_append_eq_of_le, Nat.reduceSub,
        BitVec.extractLsb'_eq_self]
    have hreserved : (base ++ reserved ++ 1#1).extractLsb' 1 1 = reserved := by
      simp (disch := norm_num) only [BitVec.extractLsb'_append_eq_of_le, Nat.reduceSub,
        BitVec.extractLsb'_append_eq_of_add_le, BitVec.extractLsb'_eq_self]
    rw [Bar.decode, if_pos hbit, hbase, hreserved]
  | memory32 base prefetchable kind hkind =>
    obtain ⟨rfl, -⟩ := List.cons.inj h
    have hbit : ¬ (base ++ prefetchable ++ kind ++ 0#1).getLsbD 0 = true := by
      rw [BitVec.getLsbD_append, if_pos Nat.zero_lt_one]
      decide
    have hbase : (base ++ prefetchable ++ kind ++ 0#1).extractLsb' 4 28 = base := by
      simp (disch := norm_num) only [BitVec.extractLsb'_append_eq_of_le, Nat.reduceSub,
        BitVec.extractLsb'_eq_self]
    have hprefetchable :
        (base ++ prefetchable ++ kind ++ 0#1).extractLsb' 3 1 = prefetchable := by
      simp (disch := norm_num) only [BitVec.extractLsb'_append_eq_of_le, Nat.reduceSub,
        BitVec.extractLsb'_append_eq_of_add_le, BitVec.extractLsb'_eq_self]
    have hkinds : (base ++ prefetchable ++ kind ++ 0#1).extractLsb' 1 2 = kind := by
      simp (disch := norm_num) only [BitVec.extractLsb'_append_eq_of_le, Nat.reduceSub,
        BitVec.extractLsb'_append_eq_of_add_le, BitVec.extractLsb'_eq_self]
    rw [Bar.decode, if_neg hbit, dif_neg (hkinds.symm ▸ hkind)]
    simp only [hbase, hprefetchable, hkinds]
  | memory64 base prefetchable =>
    obtain ⟨rfl, hrest⟩ := List.cons.inj h
    obtain rfl : base.extractLsb' 28 32 = high := hhigh _ (by simp [← hrest])
    have hbit : ¬ (base.extractLsb' 0 28 ++ prefetchable ++ 0b100#3).getLsbD 0 = true := by
      rw [BitVec.getLsbD_append, if_pos (by norm_num)]
      decide
    have hkinds : (base.extractLsb' 0 28 ++ prefetchable ++ 0b100#3).extractLsb' 1 2 = 2 := by
      rw [BitVec.extractLsb'_append_eq_of_add_le (by norm_num)]
      rfl
    have hbase : (base.extractLsb' 0 28 ++ prefetchable ++ 0b100#3).extractLsb' 4 28 =
        base.extractLsb' 0 28 := by
      simp (disch := norm_num) only [BitVec.extractLsb'_append_eq_of_le, Nat.reduceSub,
        BitVec.extractLsb'_eq_self]
    have hprefetchable : (base.extractLsb' 0 28 ++ prefetchable ++ 0b100#3).extractLsb' 3 1 =
        prefetchable := by
      simp (disch := norm_num) only [BitVec.extractLsb'_append_eq_of_le, Nat.reduceSub,
        BitVec.extractLsb'_append_eq_of_add_le, BitVec.extractLsb'_eq_self]
    have hwhole : base.extractLsb' 28 32 ++ base.extractLsb' 0 28 = base :=
      @BitVec.extractLsb'_append_extractLsb' 32 28 base
    rw [Bar.decode, if_neg hbit, dif_pos hkinds, hprefetchable, hbase]
    exact congrArg (fun x => Bar.memory64 x prefetchable) hwhole

/-- Base addresses can be told from what is behind them. -/
theorem Bar.encode_append_inj (h : bar.encode ++ ws = bar'.encode ++ ws') :
    bar = bar' ∧ ws = ws' := by
  have heq : bar = bar' := by
    cases hws : bar.encode ++ ws with
    | nil => exact absurd (List.append_eq_nil_iff.mp hws).1 bar.encode_ne_nil
    | cons low rest =>
      have hhigh : ∀ x ∈ rest.head?, x = rest.headD 0 := by
        intro x hx
        rw [List.headD_eq_head?_getD, hx]
        rfl
      exact (Bar.decode_encode hws hhigh).symm.trans (Bar.decode_encode (h ▸ hws) hhigh)
  subst heq
  exact ⟨rfl, List.append_cancel_left h⟩

/-- A base address does not end with the first half of one. -/
theorem Bar.encode_ne_wide (hwide : low.extractLsb' 0 3 = 0b100) : bar.encode ++ ws ≠ [low] := by
  intro h
  have hdecode : Bar.decode low 0 = bar := Bar.decode_encode h (by simp)
  have hlength := congrArg List.length h
  rw [← hdecode, Bar.encode_decode_wide hwide] at hlength
  simp at hlength

/-- There is at most one way to read dwords as base addresses. -/
theorem Splits.unique (h : Splits ws bars) (h' : Splits ws bars') : bars = bars' := by
  obtain ⟨rest, hws, hrest⟩ := h
  obtain ⟨rest', hws', hrest'⟩ := h'
  rw [hws] at hws'
  clear hws
  induction bars generalizing bars' with
  | nil =>
    cases bars' with
    | nil => rfl
    | cons bar' bars' =>
      rw [List.flatMap_nil, List.nil_append, List.flatMap_cons, List.append_assoc] at hws'
      rcases hrest with rfl | ⟨low, rfl, hwide⟩
      · exact absurd (List.append_eq_nil_iff.mp hws'.symm).1 bar'.encode_ne_nil
      · exact absurd hws'.symm (Bar.encode_ne_wide hwide)
  | cons bar bars ih =>
    rw [List.flatMap_cons, List.append_assoc] at hws'
    cases bars' with
    | nil =>
      rw [List.flatMap_nil, List.nil_append] at hws'
      rcases hrest' with rfl | ⟨low, rfl, hwide⟩
      · exact absurd (List.append_eq_nil_iff.mp hws').1 bar.encode_ne_nil
      · exact absurd hws' (Bar.encode_ne_wide hwide)
    | cons bar' bars' =>
      rw [List.flatMap_cons, List.append_assoc] at hws'
      obtain ⟨rfl, htail⟩ := Bar.encode_append_inj hws'
      rw [ih htail]

/-- There is one. -/
theorem splits_parse (ws : List (BitVec 32)) : Splits ws (Bar.parse ws) := by
  induction ws using Bar.parse.induct with
  | case1 => exact ⟨[], rfl, .inl rfl⟩
  | case2 low hwide =>
    rw [Bar.parse, if_pos hwide]
    exact ⟨[low], rfl, .inr ⟨low, rfl, hwide⟩⟩
  | case3 low hnarrow =>
    rw [Bar.parse, if_neg hnarrow]
    refine ⟨[], ?_, .inl rfl⟩
    simp [Bar.encode_decode_narrow hnarrow]
  | case4 low high ws hwide ih =>
    obtain ⟨rest, hws, hrest⟩ := ih
    rw [Bar.parse, if_pos hwide]
    refine ⟨rest, ?_, hrest⟩
    rw [List.flatMap_cons, Bar.encode_decode_wide hwide, List.append_assoc, ← hws]
    rfl
  | case5 low high ws hnarrow ih =>
    obtain ⟨rest, hws, hrest⟩ := ih
    rw [Bar.parse, if_neg hnarrow]
    refine ⟨rest, ?_, hrest⟩
    rw [List.flatMap_cons, Bar.encode_decode_narrow hnarrow, List.append_assoc, ← hws]
    rfl

/-! ### The base addresses of a function -/

theorem dword_bar {n : ℕ} (hn : n < 6) :
    p.dword d.bus d.device d.function (0x10 + BitVec.ofNat 8 n * 4) =
        p.space (.of d.bus d.device d.function) (4 + BitVec.ofNat 6 n) ∧
      p.dword d.bus d.device d.function (0x10 + BitVec.ofNat 8 n * 4 + 4) =
        p.space (.of d.bus d.device d.function) (4 + BitVec.ofNat 6 (n + 1)) := by
  interval_cases n <;> exact ⟨rfl, rfl⟩

/-- The dwords from one of the base addresses on. -/
theorem Splits.drop {i : ℕ} (h : Splits ws bars) (hi : bars[i]? = some bar) :
    ∃ rest, ws.drop (slotAfter (bars.take i)) = bar.encode ++ rest := by
  obtain ⟨rest, hws, -⟩ := h
  have hsplit : bars = bars.take i ++ bar :: bars.drop (i + 1) := by
    obtain ⟨hlt, rfl⟩ := List.getElem?_eq_some_iff.mp hi
    rw [List.cons_getElem_drop_succ, List.take_append_drop]
  have hflat : bars.flatMap Bar.encode = (bars.take i).flatMap Bar.encode ++
      (bar.encode ++ (bars.drop (i + 1)).flatMap Bar.encode) := by
    rw [← List.flatMap_cons, ← List.flatMap_append, ← hsplit]
  refine ⟨(bars.drop (i + 1)).flatMap Bar.encode ++ rest, ?_⟩
  rw [hws, hflat, slotAfter, List.append_assoc, List.drop_left, List.append_assoc]

theorem ConfigSpace.getElem?_barDwords {n : ℕ} {x : BitVec 32}
    (h : (space.barDwords f)[n]? = some x) : n < 6 ∧ x = space f (4 + BitVec.ofNat 6 n) := by
  obtain ⟨hn, rfl⟩ := List.getElem?_eq_some_iff.mp h
  exact ⟨by simpa [ConfigSpace.barDwords] using hn, by simp [ConfigSpace.barDwords]⟩

/-- `pci_bar` at the dword where a base address begins. -/
theorem pciBar_of_drop {n : ℕ}
    (h : (p.space.barDwords (.of d.bus d.device d.function)).drop n = bar.encode ++ ws) :
    (pciBar p (some d) (BitVec.ofNat 8 n)).1 = bar.address := by
  obtain ⟨low, rest, hcons⟩ : ∃ low rest, bar.encode ++ ws = low :: rest := by
    cases hws : bar.encode ++ ws with
    | nil => exact absurd (List.append_eq_nil_iff.mp hws).1 bar.encode_ne_nil
    | cons low rest => exact ⟨low, rest, rfl⟩
  have hdrop := h.trans hcons
  have hlow : (p.space.barDwords (.of d.bus d.device d.function))[n]? = some low := by
    rw [← List.head?_drop, hdrop]
    rfl
  obtain ⟨hn, rfl⟩ := ConfigSpace.getElem?_barDwords hlow
  have hindex : BitVec.ofNat 8 n < 6 := by
    interval_cases n <;> decide
  obtain ⟨hfirst, hsecond⟩ := dword_bar (p := p) (d := d) hn
  rw [pciBar_fst hindex, hfirst, hsecond]
  refine congrArg Bar.address (Bar.decode_encode hcons fun x hx => ?_)
  have htail : rest = (p.space.barDwords (.of d.bus d.device d.function)).drop (n + 1) := by
    rw [← List.tail_drop, hdrop, List.tail_cons]
  rw [htail, List.head?_drop] at hx
  exact (ConfigSpace.getElem?_barDwords hx).2

/-- **The base addresses of a function.**  Its six dwords can be read as base addresses in exactly
one way.  At the dword where one of them begins `pci_bar` returns its address, and zero if it is
one of ports; it returns zero behind the six, and leaves the configuration space as it is. -/
theorem pciBar_layout (p : PciPorts) (d : PciDevice) :
    (∃ bars, Splits (p.space.barDwords (.of d.bus d.device d.function)) bars ∧
      (∀ bars', Splits (p.space.barDwords (.of d.bus d.device d.function)) bars' → bars' = bars) ∧
      ∀ i, ∀ bar ∈ bars[i]?,
        (pciBar p (some d) (BitVec.ofNat 8 (slotAfter (bars.take i)))).1 = bar.address) ∧
    (∀ index, 6 ≤ index → (pciBar p (some d) index).1 = 0) ∧
    ∀ index, (pciBar p (some d) index).2.space = p.space := by
  have hsplits := splits_parse (p.space.barDwords (.of d.bus d.device d.function))
  refine ⟨⟨_, hsplits, fun bars' h => h.unique hsplits, fun i bar hi => ?_⟩, fun index hindex => ?_,
    fun index => space_pciBar _⟩
  · obtain ⟨rest, hdrop⟩ := hsplits.drop hi
    exact pciBar_of_drop hdrop
  · rw [pciBar]
    exact congrArg Prod.fst (if_pos hindex)

/-- Registers above `2 ^ 32`, ports, and memory below: the index of each tells its address. -/
def exampleBars : PciPorts where
  address := 0
  space := fun _ reg =>
    if reg = 4 then 0xFEBD4004 else if reg = 5 then 0x38 else if reg = 6 then 0xC001
    else if reg = 7 then 0xFEB00008 else 0

def exampleDevice : PciDevice := ⟨0, 4, 0, 0x1B36, 0x0010, 1, 8, 2, 2⟩

theorem pciBar_layout_example :
    (pciBar exampleBars (some exampleDevice) 0).1 = 0x38FEBD4000 ∧
      (pciBar exampleBars (some exampleDevice) 2).1 = 0 ∧
      (pciBar exampleBars (some exampleDevice) 3).1 = 0xFEB00000 := by
  obtain ⟨⟨bars, -, hunique, hreturns⟩, -⟩ := pciBar_layout exampleBars exampleDevice
  obtain rfl : _ = bars := hunique _ (splits_parse _)
  refine ⟨?_, ?_, ?_⟩
  · exact (hreturns 0 (.decode 0xFEBD4004 0x38) rfl).trans rfl
  · exact (hreturns 1 (.decode 0xC001 0xFEB00008) rfl).trans rfl
  · exact (hreturns 2 (.decode 0xFEB00008 0) rfl).trans rfl

end Bethany
