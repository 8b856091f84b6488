import Bethany.Library.Machine

/-!
# The interrupt masks of the two controllers

Each controller has a command port and a data port.  Once `pic_init` is done the data port reads
and writes the mask register; what comes of a read or a write at the command port is left open.

* `PicPorts`: the controllers behind `inb` and `outb`;
* `picSetMask`, `picClearMas`: the two calls, with every byte that they write on record;
* `IrqMask`: what they are for, one mask of 16 bits;
* `picMasks_iff`: after a sequence of calls the registers hold that mask, and no command port was
  written to, exactly if `pic_set_mask` was called for lines of the first controller only.
-/

namespace Bethany

open Machine

abbrev Port := BitVec 16

/-- The two controllers; lines 8 to 15 are those of the slave. -/
inductive Pic
  | master
  | slave
deriving DecidableEq

/-- `PIC1_COMMAND` and `PIC2_COMMAND`. -/
def Pic.command : Pic → Port
  | .master => 0x20
  | .slave => 0xA0

/-- `PIC1_DATA` and `PIC2_DATA`. -/
def Pic.data (c : Pic) : Port := c.command + 1

/-- The controllers, with states in `δ`.  While they are `Ready`, that is not in the middle of an
initialisation, a data port is the mask register of its controller. -/
structure PicPorts (δ : Type*) where
  inb : δ → Port → Byte × δ
  outb : δ → Port → Byte → δ
  mask : δ → Pic → Byte
  Ready : δ → Prop
  inb_data : ∀ d c, Ready d → inb d c.data = (mask d c, d)
  outb_data : ∀ d c v, Ready d →
    Ready (outb d c.data v) ∧ mask (outb d c.data v) = Function.update (mask d) c v

/-- The state of the controllers, and the bytes written to ports so far, the latest first. -/
structure PicState (δ : Type*) where
  dev : δ
  written : List (Port × Byte)

variable {δ : Type*} (P : PicPorts δ) (s : PicState δ)

/-- `value = f(inb(port)); outb(port, value)`. -/
def PicState.update (port : Port) (f : Byte → Byte) : PicState δ :=
  let read := P.inb s.dev port
  { dev := P.outb read.2 port (f read.1), written := (port, f read.1) :: s.written }

/-- `pic_set_mask`; from line 8 on its port is `PIC2_COMMAND`. -/
def picSetMask (irq : ℕ) : PicState δ :=
  if irq < 8 then s.update P Pic.master.data (· ||| 1#8 <<< irq)
  else s.update P Pic.slave.command (· ||| 1#8 <<< (irq - 8))

/-- `pic_clear_mas`. -/
def picClearMas (irq : ℕ) : PicState δ :=
  if irq < 8 then s.update P Pic.master.data (· &&& ~~~(1#8 <<< irq))
  else s.update P Pic.slave.data (· &&& ~~~(1#8 <<< (irq - 8)))

/-- A call, for one line. -/
inductive PicCall
  | set (irq : ℕ)
  | clear (irq : ℕ)
deriving DecidableEq

def PicCall.irq : PicCall → ℕ
  | .set irq | .clear irq => irq

def PicCall.exec (s : PicState δ) : PicCall → PicState δ
  | .set irq => picSetMask P s irq
  | .clear irq => picClearMas P s irq

def PicCall.run (s : PicState δ) (calls : List PicCall) : PicState δ :=
  calls.foldl (PicCall.exec P) s

/-- The mask of all 16 lines. -/
abbrev IrqMask := BitVec 16

/-- What a call is to do. -/
def IrqMask.apply (m : IrqMask) : PicCall → IrqMask
  | .set irq => m ||| 1#16 <<< irq
  | .clear irq => m &&& ~~~(1#16 <<< irq)

/-- The two mask registers as one mask. -/
def PicPorts.irqMask (d : δ) : IrqMask := P.mask d .slave ++ P.mask d .master

/-- After the calls the registers hold the mask that the calls make of the first one, and no byte
has been written to a command port. -/
def PicPorts.Tracks (d : δ) (calls : List PicCall) : Prop :=
  let s := PicCall.run P ⟨d, []⟩ calls
  P.irqMask s.dev = calls.foldl IrqMask.apply (P.irqMask d) ∧
    ∀ c : Pic, ∀ v, (c.command, v) ∉ s.written

variable {P s} {d : δ} {c : Pic} {call : PicCall} {calls : List PicCall} {irq : ℕ}

/-! ### One call -/

theorem Pic.data_ne_command (c c' : Pic) : c.data ≠ c'.command := by
  cases c <;> cases c' <;> simp [Pic.data, Pic.command]

/-- An update at a data port changes that mask register. -/
theorem PicState.update_data (hready : P.Ready s.dev) (f : Byte → Byte) :
    P.Ready (s.update P c.data f).dev ∧
      P.mask (s.update P c.data f).dev =
        Function.update (P.mask s.dev) c (f (P.mask s.dev c)) := by
  simp only [PicState.update, P.inb_data _ _ hready]
  exact P.outb_data _ _ _ hready

theorem one_shiftLeft_append (hirq : irq < 16) :
    1#16 <<< irq =
      if irq < 8 then (0 : Byte) ++ (1#8 <<< irq) else (1#8 <<< (irq - 8)) ++ (0 : Byte) := by
  interval_cases irq <;> rfl

theorem IrqMask.or_append (a b a' b' : Byte) :
    ((a ++ b : IrqMask) ||| (a' ++ b' : IrqMask)) = (a ||| a') ++ (b ||| b') :=
  BitVec.or_append

theorem IrqMask.and_not_append (a b a' b' : Byte) :
    ((a ++ b : IrqMask) &&& ~~~(a' ++ b' : IrqMask)) = (a &&& ~~~a') ++ (b &&& ~~~b') := by
  have hnot : ~~~(a' ++ b' : IrqMask) = ~~~a' ++ ~~~b' := BitVec.not_append
  rw [hnot]
  exact BitVec.and_append

@[simp] theorem byte_and_allOnes (a : Byte) : a &&& 255#8 = a := BitVec.and_allOnes

/-- The call for a line that it gives to the data port. -/
theorem PicCall.exec_good (hready : P.Ready s.dev) (hirq : call.irq < 16)
    (hset : ∀ irq, call = .set irq → irq < 8) :
    P.Ready (call.exec P s).dev ∧
      P.irqMask (call.exec P s).dev = (P.irqMask s.dev).apply call ∧
      ∃ c : Pic, ∃ v, (call.exec P s).written = (c.data, v) :: s.written := by
  cases call with
  | set irq =>
    replace hirq : irq < 16 := hirq
    have hlt : irq < 8 := hset irq rfl
    obtain ⟨hready', hmask⟩ := s.update_data (c := .master) hready (· ||| 1#8 <<< irq)
    simp only [PicCall.exec, picSetMask, if_pos hlt]
    refine ⟨hready', ?_, .master, _, rfl⟩
    simp [PicPorts.irqMask, hmask, IrqMask.apply, one_shiftLeft_append hirq, hlt, IrqMask.or_append]
  | clear irq =>
    replace hirq : irq < 16 := hirq
    simp only [PicCall.exec, picClearMas]
    split_ifs with hlt
    · obtain ⟨hready', hmask⟩ := s.update_data (c := .master) hready (· &&& ~~~(1#8 <<< irq))
      refine ⟨hready', ?_, .master, _, rfl⟩
      simp [PicPorts.irqMask, hmask, IrqMask.apply, one_shiftLeft_append hirq, hlt,
        IrqMask.and_not_append]
    · obtain ⟨hready', hmask⟩ :=
        s.update_data (c := .slave) hready (· &&& ~~~(1#8 <<< (irq - 8)))
      refine ⟨hready', ?_, .slave, _, rfl⟩
      simp [PicPorts.irqMask, hmask, IrqMask.apply, one_shiftLeft_append hirq, hlt,
        IrqMask.and_not_append]

/-- The call that writes to a command port. -/
theorem PicCall.exec_command (hirq : 8 ≤ irq) :
    ∃ v, ((PicCall.set irq).exec P s).written = (Pic.slave.command, v) :: s.written := by
  simp only [PicCall.exec, picSetMask, if_neg (Nat.not_lt.mpr hirq)]
  exact ⟨_, rfl⟩

/-- A byte written stays on record. -/
theorem PicCall.written_run : s.written ⊆ (PicCall.run P s calls).written := by
  induction calls generalizing s with
  | nil => exact List.Subset.refl _
  | cons call calls ih =>
    have hcall : s.written ⊆ (call.exec P s).written := by
      cases call with
      | set irq =>
        simp only [PicCall.exec, picSetMask]
        split_ifs <;> exact List.subset_cons_self _ _
      | clear irq =>
        simp only [PicCall.exec, picClearMas]
        split_ifs <;> exact List.subset_cons_self _ _
    exact List.Subset.trans hcall ih

/-! ### A sequence of calls -/

/-- Calls that keep to the data ports. -/
theorem PicCall.run_good (hready : P.Ready s.dev) (hirq : ∀ call ∈ calls, call.irq < 16)
    (hset : ∀ irq, .set irq ∈ calls → irq < 8)
    (hwritten : ∀ c : Pic, ∀ v, (c.command, v) ∉ s.written) :
    P.irqMask (PicCall.run P s calls).dev = calls.foldl IrqMask.apply (P.irqMask s.dev) ∧
      ∀ c : Pic, ∀ v, (c.command, v) ∉ (PicCall.run P s calls).written := by
  induction calls generalizing s with
  | nil => exact ⟨rfl, hwritten⟩
  | cons call calls ih =>
    obtain ⟨hready', hmask, c, v, hlog⟩ := call.exec_good hready (hirq call (by simp))
      fun irq h => hset irq (by simp [h])
    simp only [PicCall.run, List.foldl_cons, ← hmask]
    refine ih hready' (fun call h => hirq call (by simp [h])) (fun irq h => hset irq (by simp [h]))
      fun c' v' h => ?_
    rw [hlog, List.mem_cons, Prod.mk.injEq] at h
    rcases h with ⟨hport, -⟩ | h
    · exact c.data_ne_command c' hport.symm
    · exact hwritten c' v' h

/-- **The masks follow the calls** as one mask of 16 bits does, by writes to the data ports only,
exactly if `pic_set_mask` is called for no line of the second controller. -/
theorem picMasks_iff (hready : P.Ready d) (hirq : ∀ call ∈ calls, call.irq < 16) :
    P.Tracks d calls ↔ ∀ irq, .set irq ∈ calls → irq < 8 := by
  constructor
  · rintro ⟨-, hwritten⟩ irq hmem
    by_contra hge
    obtain ⟨before, after, rfl⟩ := List.append_of_mem hmem
    obtain ⟨v, hv⟩ := PicCall.exec_command (P := P) (s := PicCall.run P ⟨d, []⟩ before)
      (Nat.le_of_not_lt hge)
    refine hwritten .slave v ?_
    simp only [PicCall.run, List.foldl_append, List.foldl_cons]
    exact PicCall.written_run (by rw [PicCall.run] at hv; simp [hv])
  · intro hset
    exact PicCall.run_good hready hirq hset (by simp)

/-! ### A run -/

/-- Two controllers with no interrupt requested or in service, so that a command port reads as
zero.  A byte with bit 4 set starts an initialisation: the mask is cleared, and the next two or
three bytes for the data port are not masks. -/
structure IdlePic where
  mask : Pic → Byte
  pending : Pic → ℕ

/-- The byte `v` for the command port of `c`. -/
def IdlePic.control (d : IdlePic) (c : Pic) (v : Byte) : IdlePic :=
  if v.getLsbD 4 then
    { mask := Function.update d.mask c 0
      pending := Function.update d.pending c (if v.getLsbD 0 then 3 else 2) }
  else d

/-- The byte `v` for the data port of `c`. -/
def IdlePic.data (d : IdlePic) (c : Pic) (v : Byte) : IdlePic :=
  if d.pending c = 0 then { d with mask := Function.update d.mask c v }
  else { d with pending := Function.update d.pending c (d.pending c - 1) }

def idlePics : PicPorts IdlePic where
  inb d port :=
    if port = Pic.master.data then (d.mask .master, d)
    else if port = Pic.slave.data then (d.mask .slave, d) else (0, d)
  outb d port v :=
    if port = Pic.master.data then d.data .master v
    else if port = Pic.slave.data then d.data .slave v
    else if port = Pic.master.command then d.control .master v
    else if port = Pic.slave.command then d.control .slave v else d
  mask := IdlePic.mask
  Ready d := ∀ c, d.pending c = 0
  inb_data d c _ := by cases c <;> rfl
  outb_data d c v hready := by
    cases c <;> simp [Pic.data, Pic.command, IdlePic.data, hready]

theorem picMasks_example :
    idlePics.Tracks ⟨fun _ => 0xFF, fun _ => 0⟩ [.clear 1, .clear 12, .set 1] :=
  (picMasks_iff (P := idlePics) (fun _ => rfl) (by decide)).mpr (by simp)

/-- Line 8 is masked by a byte for the command port, and the mask stays as it was. -/
theorem picMasks_slave : ¬ idlePics.Tracks ⟨fun _ => 0, fun _ => 0⟩ [.set 8] := by
  rintro ⟨hmask, -⟩
  exact absurd hmask (by decide)

end Bethany
