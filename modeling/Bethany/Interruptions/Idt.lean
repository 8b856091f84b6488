import Bethany.Library.RegisterBits
import Bethany.Library.Stack

/-!
# The interrupt descriptor table

`idt_init` fills the first 48 of the 256 gates: 32 with the stubs of the exceptions, and 16 with
those of the interrupt lines.  The processor reads a gate as 16 bytes.

* the source: `IdtEntry`, `idtSetGate`, `idtInit`;
* `IdtEntry.descriptor`: the bytes of the packed structure; `Gate.ofDescriptor`: what the processor
  reads from them;
* `gate_idtSetGate`: a handler is read back as it was put in;
* `idtInit_gates`: all 256 gates after `idt_init`.
-/

namespace Bethany

open Machine RegisterBits Stack

/-- `idt_entry_t` -/
structure IdtEntry where
  offsetLow : BitVec 16
  selector : BitVec 16
  ist : Byte
  typeAttributes : Byte
  offsetMid : BitVec 16
  offsetHigh : BitVec 32
  reserved : BitVec 32
deriving DecidableEq

/-- `idt` -/
abbrev Idt := Byte → IdtEntry

/-- `KERNEL_CODE_SELECTOR` -/
def kernelCodeSelector : BitVec 16 := 0x28

/-- `idt_set_gate` -/
def idtSetGate (idt : Idt) (vector : Byte) (handler : Word) (flags : Byte) : Idt :=
  Function.update idt vector
    { offsetLow := (handler &&& 0xFFFF).setWidth 16
      selector := kernelCodeSelector
      ist := 0
      typeAttributes := flags
      offsetMid := ((handler >>> 16) &&& 0xFFFF).setWidth 16
      offsetHigh := ((handler >>> 32) &&& 0xFFFFFFFF).setWidth 32
      reserved := 0 }

/-- `idt_init`; the two tables hold the addresses of the stubs. -/
def idtInit (idt : Idt) (isrStubTable irqStubTable : ℕ → Word) : Idt :=
  let idt := (List.range 32).foldl
    (fun idt i => idtSetGate idt (BitVec.ofNat 8 i) (isrStubTable i) 0x8E) idt
  (List.range 16).foldl
    (fun idt i => idtSetGate idt (BitVec.ofNat 8 (i + 32)) (irqStubTable i) 0x8E) idt

/-- The static table before `idt_init`. -/
def idtBlank : Idt := fun _ => ⟨0, 0, 0, 0, 0, 0, 0⟩

/-! ### The processor's view -/

/-- The bytes of the packed structure, the first one lowest. -/
def IdtEntry.descriptor (e : IdtEntry) : BitVec 128 :=
  e.reserved ++ (e.offsetHigh ++ (e.offsetMid ++ (e.typeAttributes ++ (e.ist ++
    (e.selector ++ e.offsetLow)))))

/-- A gate: where it leads, with which code segment and which stack, its kind, who may use it, and
if it may be used at all. -/
structure Gate where
  offset : Word
  selector : BitVec 16
  ist : BitVec 3
  kind : BitVec 4
  dpl : BitVec 2
  present : Bool
deriving DecidableEq

/-- The fields that the processor reads. -/
def Gate.ofDescriptor (d : BitVec 128) : Gate :=
  let attributes := d.extractLsb' 40 8
  { offset := d.extractLsb' 64 32 ++ (d.extractLsb' 48 16 ++ d.extractLsb' 0 16)
    selector := d.extractLsb' 16 16
    ist := (d.extractLsb' 32 8).extractLsb' 0 3
    kind := attributes.extractLsb' 0 4
    dpl := attributes.extractLsb' 5 2
    present := attributes.getLsbD 7 }

/-- An interrupt gate of the kernel, on the stack in use. -/
def Gate.interrupt (offset : Word) : Gate := ⟨offset, kernelCodeSelector, 0, 0xE, 0, true⟩

def Idt.gate (idt : Idt) (vector : Byte) : Gate := .ofDescriptor (idt vector).descriptor

variable {idt : Idt} {vector v : Byte} {handler : Word} {flags : Byte}

/-- Each field has its own bytes of the descriptor. -/
theorem descriptor_fields (e : IdtEntry) :
    e.descriptor.extractLsb' 0 16 = e.offsetLow ∧ e.descriptor.extractLsb' 16 16 = e.selector ∧
      e.descriptor.extractLsb' 32 8 = e.ist ∧ e.descriptor.extractLsb' 40 8 = e.typeAttributes ∧
      e.descriptor.extractLsb' 48 16 = e.offsetMid ∧
      e.descriptor.extractLsb' 64 32 = e.offsetHigh := by
  have hbit : ∀ start len j, j < len →
      (e.descriptor.extractLsb' start len).getLsbD j = e.descriptor.getLsbD (start + j) := by
    intro start len j hj
    simp [hj]
  refine ⟨?_, ?_, ?_, ?_, ?_, ?_⟩
  all_goals
    apply BitVec.eq_of_getLsbD_eq
    intro j hj
    rw [hbit _ _ _ hj]
    simp only [IdtEntry.descriptor, BitVec.getLsbD_append]
    simp (disch := omega) only [if_pos, if_neg, Nat.zero_add]
  all_goals
    congr 1
    omega

/-- The parts of the handler's address. -/
theorem idtSetGate_self :
    idtSetGate idt vector handler flags vector =
      ⟨handler.extractLsb' 0 16, kernelCodeSelector, 0, flags, handler.extractLsb' 16 16,
        handler.extractLsb' 32 32, 0⟩ := by
  have hlow : (handler &&& 0xFFFF).setWidth 16 = handler.extractLsb' 0 16 := by
    have hmask : (0xFFFF#64).setWidth 16 = BitVec.allOnes 16 := by decide
    simpa using setWidth_shiftRight_and (x := handler) (k := 0) hmask
  rw [idtSetGate, Function.update_self, hlow, setWidth_shiftRight_and (by decide),
    setWidth_shiftRight_and (by decide)]

/-- **A gate round trip.**  The three parts of the address come together again. -/
theorem gate_idtSetGate :
    (idtSetGate idt vector handler flags).gate vector =
      ⟨handler, kernelCodeSelector, 0, flags.extractLsb' 0 4, flags.extractLsb' 5 2,
        flags.getLsbD 7⟩ := by
  have hoffset : handler.extractLsb' 32 32 ++
      (handler.extractLsb' 16 16 ++ handler.extractLsb' 0 16) = handler := by
    apply BitVec.eq_of_getLsbD_eq
    intro i hi
    simp only [BitVec.getLsbD_append, BitVec.getLsbD_extractLsb']
    split_ifs with hlow hmid
    · simp [hmid]
    · have hlt : i - 16 < 16 := by omega
      simp (disch := omega) [hlt]
    · have hlt : i - 32 < 32 := by omega
      simp (disch := omega) [hlt]
  obtain ⟨hlow, hselector, hist, hattributes, hmid, hhigh⟩ :=
    descriptor_fields (idtSetGate idt vector handler flags vector)
  rw [Idt.gate, Gate.ofDescriptor, hlow, hselector, hist, hattributes, hmid, hhigh,
    idtSetGate_self]
  simp only [hoffset]
  rfl

theorem gate_idtSetGate_of_ne (h : v ≠ vector) :
    (idtSetGate idt vector handler flags).gate v = idt.gate v := by
  rw [Idt.gate, Idt.gate, idtSetGate, Function.update_of_ne h]

/-- A loop that puts the stubs of a table into the gates from `first` on. -/
theorem gate_fill (idt : Idt) (table : ℕ → Word) (first : ℕ) {n : ℕ} (hn : first + n ≤ 256)
    (v : Byte) :
    Idt.gate ((List.range n).foldl
        (fun idt i => idtSetGate idt (BitVec.ofNat 8 (i + first)) (table i) 0x8E) idt) v =
      if first ≤ v.toNat ∧ v.toNat < first + n then .interrupt (table (v.toNat - first))
      else idt.gate v := by
  induction n with
  | zero => exact (if_neg (by omega)).symm
  | succ n ih =>
    rw [List.range_succ, List.foldl_append, List.foldl_cons, List.foldl_nil]
    have hvector : (BitVec.ofNat 8 (n + first)).toNat = n + first := by
      rw [BitVec.toNat_ofNat, Nat.mod_eq_of_lt (by omega)]
    by_cases hv : v = BitVec.ofNat 8 (n + first)
    · subst hv
      rw [gate_idtSetGate, hvector, if_pos (by omega), Nat.add_sub_cancel]
      rfl
    · have hne : v.toNat ≠ n + first := fun heq =>
        hv (BitVec.eq_of_toNat_eq (heq.trans hvector.symm))
      rw [gate_idtSetGate_of_ne hv, ih (by omega)]
      congr 1
      rw [eq_iff_iff]
      omega

/-- **The table after `idt_init`.**  The processor finds an interrupt gate of the kernel for each of
the first 48 vectors, which leads to the stub of the vector; all other gates are as they were. -/
theorem idtInit_gates (idt : Idt) (isrStubTable irqStubTable : ℕ → Word) (v : Byte) :
    (idtInit idt isrStubTable irqStubTable).gate v =
      if v.toNat < 32 then .interrupt (isrStubTable v.toNat)
      else if v.toNat < 48 then .interrupt (irqStubTable (v.toNat - 32))
      else idt.gate v := by
  rw [idtInit, gate_fill _ irqStubTable 32 (by norm_num)]
  have hfirst := gate_fill idt isrStubTable 0 (n := 32) (by norm_num) v
  simp only [Nat.add_zero, Nat.zero_le, true_and, Nat.zero_add, Nat.sub_zero] at hfirst
  rw [hfirst]
  split_ifs <;> first | rfl | omega

/-- No other vector leads anywhere when the table was blank. -/
theorem idtInit_absent {isrStubTable irqStubTable : ℕ → Word} (hv : 48 ≤ v.toNat) :
    ((idtInit idtBlank isrStubTable irqStubTable).gate v).present = false := by
  rw [idtInit_gates, if_neg (by omega), if_neg (by omega)]
  show (Gate.ofDescriptor (idtBlank 0).descriptor).present = false
  decide

end Bethany
