import Bethany.Interruptions.Pic
import Bethany.Library.Pic8259
import Bethany.Library.Runs
import Bethany.Library.Stack

/-!
# From a line of a device to its handler

Devices raise lines of the two controllers at any time, also while `irq_handler` runs.  The
processor takes a request when it is outside of the handler.  `irq_handler` calls the handler of
the line, or masks it if there is none, ends the interrupt, and calls the scheduler if the timer
has asked for that.

* the source: `picInit`, `picSendEoi`, `irqRegister`, `irqHandler`, `pitIrq`, `pitInit`;
* `IrqLines`, `IrqLines.exec`: devices, controllers and handler, step by step;
* `IrqLines.Inv`: what holds in every run;
* `irqLines_exactlyOnce`: after `pic_init` every request comes to its handler exactly once;
* `irqLines_drain`: open requests are handled in the order of their priority, up to the last one;
* `irqLines_time`: the ticks, the seconds and the calls of the scheduler that the timer makes.
-/

namespace Bethany

open Machine Stack Pic8259 Runs

/-! ### The source -/

section Source

variable {δ : Type*} (P : PicPorts δ)

/-- `outb(port, v)`. -/
def PicState.outb (s : PicState δ) (port : Port) (v : Byte) : PicState δ where
  dev := P.outb s.dev port v
  written := (port, v) :: s.written

/-- `io_wait` -/
def ioWait (s : PicState δ) : PicState δ := s.outb P 0x80 0

def icw1Icw4 : Byte := 0x01
def icw1Init : Byte := 0x10
def icw4For8086 : Byte := 0x01

/-- `pic_init` -/
def picInit (s : PicState δ) : PicState δ :=
  let s := ioWait P (s.outb P Pic.master.command (icw1Init ||| icw1Icw4))
  let s := ioWait P (s.outb P Pic.slave.command (icw1Init ||| icw1Icw4))
  let s := ioWait P (s.outb P Pic.master.data 32)
  let s := ioWait P (s.outb P Pic.slave.data 40)
  let s := ioWait P (s.outb P Pic.master.data 4)
  let s := ioWait P (s.outb P Pic.slave.data 2)
  let s := ioWait P (s.outb P Pic.master.data icw4For8086)
  let s := ioWait P (s.outb P Pic.slave.data icw4For8086)
  let s := ioWait P (s.outb P Pic.master.data 0)
  s.outb P Pic.slave.data 0

/-- `pic_send_eoi` -/
def picSendEoi (s : PicState δ) (irq : ℕ) : PicState δ :=
  let s := if 8 ≤ irq then s.outb P Pic.slave.command 0x20 else s
  s.outb P Pic.master.command 0x20

/-- `ticks`, `seconds` and `need_reschedule` of `pit.c`. -/
structure Pit where
  ticks : ℕ
  seconds : ℕ
  needReschedule : Bool
deriving DecidableEq

/-- The kernel: what belongs to `pit.c`, and the rest. -/
structure IrqKernel (σ : Type*) where
  pit : Pit
  rest : σ

variable {σ : Type*}

/-- `irq_handler_t` -/
abbrev IrqHandler (σ : Type*) := IrqKernel σ → IrqKernel σ

/-- `pit_irq` -/
def pitIrq : IrqHandler σ := fun k =>
  let ticks := u64 (k.pit.ticks + 1)
  { k with
    pit :=
      { ticks := ticks
        seconds := if ticks % 100 = 0 then u64 (k.pit.seconds + 1) else k.pit.seconds
        needReschedule := true } }

/-- `irq_register` -/
def irqRegister (irqHandlers : ℕ → Option (IrqHandler σ)) (irq : ℕ)
    (handler : Option (IrqHandler σ)) : ℕ → Option (IrqHandler σ) :=
  if 16 ≤ irq then irqHandlers else Function.update irqHandlers irq handler

/-- What `irq_handler` works on. -/
structure IrqState (δ σ : Type*) where
  pics : PicState δ
  kernel : IrqKernel σ

/-- `frame->interrupt - 32`, as a byte. -/
def irqOf (interrupt : Word) : ℕ := ((interrupt - 32).setWidth 8).toNat

variable (irqHandlers : ℕ → Option (IrqHandler σ)) (schedulerSchedule : σ → σ)

/-- The first half of `irq_handler`; there is no entry for a line from 16 on. -/
def irqCall (s : IrqState δ σ) (irq : ℕ) : Option (IrqState δ σ) :=
  if irq < 16 then
    match irqHandlers irq with
    | some handler => some { s with kernel := handler s.kernel }
    | none => some { s with pics := picSetMask P s.pics irq }
  else none

def irqEnd (s : IrqState δ σ) (irq : ℕ) : IrqState δ σ :=
  { s with pics := picSendEoi P s.pics irq }

/-- `if(need_reschedule)` of `irq_handler`. -/
def irqReschedule (k : IrqKernel σ) : IrqKernel σ :=
  if k.pit.needReschedule then
    { pit := { k.pit with needReschedule := false }, rest := schedulerSchedule k.rest }
  else k

/-- `irq_handler` -/
def irqHandler (s : IrqState δ σ) (interrupt : Word) : Option (IrqState δ σ) := do
  let s ← irqCall P irqHandlers s (irqOf interrupt)
  let s := irqEnd P s (irqOf interrupt)
  some { s with kernel := irqReschedule schedulerSchedule s.kernel }

def pitCommand : Port := 0x43
def pitChannel0 : Port := 0x40
def pitBaseFrequency : ℕ := 1193182

/-- `pit_init`, with the handlers after it. -/
def pitInit (s : PicState δ) (frequency : ℕ) : PicState δ × (ℕ → Option (IrqHandler σ)) :=
  if frequency = 0 then (s, irqHandlers)
  else
    let divisor : BitVec 16 := BitVec.ofNat 16 (pitBaseFrequency / frequency)
    let s := s.outb P pitCommand 0x36
    let s := s.outb P pitChannel0 ((divisor &&& 0xFF).setWidth 8)
    let s := s.outb P pitChannel0 ((divisor >>> 8 &&& 0xFF).setWidth 8)
    (s, irqRegister irqHandlers 0 (some pitIrq))

/-- The bytes for the counter are the divisor, as long as this fits. -/
theorem pitInit_divisor (s : PicState δ) {frequency : ℕ} (hf : 19 ≤ frequency) :
    ∃ lo hi : Byte, (pitInit P irqHandlers s frequency).1.written =
        (pitChannel0, hi) :: (pitChannel0, lo) :: (pitCommand, 0x36) :: s.written ∧
      (hi ++ lo : BitVec 16).toNat = pitBaseFrequency / frequency := by
  have hdivisor : pitBaseFrequency / frequency < 2 ^ 16 := by
    refine (Nat.div_lt_iff_lt_mul (by omega)).mpr ?_
    unfold pitBaseFrequency
    omega
  simp only [pitInit, if_neg (show frequency ≠ 0 by omega), PicState.outb]
  refine ⟨_, _, rfl, ?_⟩
  generalize hd : BitVec.ofNat 16 (pitBaseFrequency / frequency) = d
  have hd' : d.toNat = pitBaseFrequency / frequency := by
    rw [← hd, BitVec.toNat_ofNat, Nat.mod_eq_of_lt hdivisor]
  rw [← hd']
  refine congrArg BitVec.toNat (BitVec.eq_of_getLsbD_eq fun i hi => ?_)
  rw [BitVec.getLsbD_append]
  interval_cases i <;> simp

theorem pitInit_handlers (s : PicState δ) {frequency : ℕ} (hf : frequency ≠ 0) :
    (pitInit P irqHandlers s frequency).2 0 = some pitIrq ∧
      ∀ irq ≠ 0, (pitInit P irqHandlers s frequency).2 irq = irqHandlers irq := by
  simp only [pitInit, if_neg hf, irqRegister, if_neg (show ¬ 16 ≤ 0 by decide)]
  exact ⟨Function.update_self _ _ _, fun irq hirq => Function.update_of_ne hirq _ _⟩

end Source

/-! ### The devices, the controllers and the handler -/

/-- The controllers behind their ports; what a command port reads as is a parameter. -/
def cascade (other : Chip → Byte → Chip) (status : Chip → Byte) : PicPorts Pair where
  inb d port :=
    if port = Pic.master.data then (d.master.imr, d)
    else if port = Pic.slave.data then (d.slave.imr, d)
    else if port = Pic.master.command then (status d.master, d)
    else if port = Pic.slave.command then (status d.slave, d) else (0, d)
  outb d port v :=
    if port = Pic.master.data then { d with master := d.master.data v }
    else if port = Pic.slave.data then { d with slave := d.slave.data v }
    else if port = Pic.master.command then { d with master := d.master.command other v }
    else if port = Pic.slave.command then { d with slave := d.slave.command other v } else d
  mask d
    | .master => d.master.imr
    | .slave => d.slave.imr
  Ready d := d.master.awaits = .mask ∧ d.slave.awaits = .mask
  inb_data d c _ := by cases c <;> rfl
  outb_data d c v hready := by
    obtain ⟨hmaster, hslave⟩ := hready
    cases c <;> simp [Pic.data, Pic.command, Chip.data_mask, hmaster, hslave, funext_iff,
      Function.update_apply]
    · rintro (_ | _) <;> simp
    · rintro (_ | _) <;> simp

/-- Where the processor is: outside of `irq_handler`, or in it, with the number in the frame. -/
inductive IrqPhase
  | outside
  | entered (interrupt : Word)
  | called (interrupt : Word)
  | ended
deriving DecidableEq

/-- The state, with a record of the requests that devices have made of each line, of the lines
that `irq_handler` has called or masked, the latest first, and of the calls of the scheduler. -/
structure IrqLines (σ : Type*) extends IrqState Pair σ where
  phase : IrqPhase
  raised : Line → ℕ
  called : List ℕ
  schedules : ℕ

/-- A device raises a line; the processor takes an interrupt; and the three parts of
`irq_handler`. -/
inductive LineEvent
  | raise (l : Line)
  | interrupt
  | call
  | eoi
  | reschedule
deriving DecidableEq

section Steps

variable {σ : Type*} (other : Chip → Byte → Chip) (status : Chip → Byte)
  (irqHandlers : ℕ → Option (IrqHandler σ)) (schedulerSchedule : σ → σ)

/-- One event, if it can happen.  A line that is requested already is not requested twice. -/
def IrqLines.exec (s : IrqLines σ) : LineEvent → Option (IrqLines σ)
  | .raise l =>
      if l = .cascade then none
      else some { s with
        pics := { s.pics with dev := s.pics.dev.raise l }
        raised := if s.pics.dev.Requested l then s.raised
          else Function.update s.raised l (s.raised l + 1) }
  | .interrupt =>
      match s.phase, s.pics.dev.take with
      | .outside, some (l, p) => some { s with
          pics := { s.pics with dev := p }
          phase := .entered ((p.vector l).setWidth 64) }
      | _, _ => none
  | .call =>
      match s.phase with
      | .entered interrupt =>
          (irqCall (cascade other status) irqHandlers s.toIrqState (irqOf interrupt)).map fun t =>
            { s with
              toIrqState := t
              phase := .called interrupt
              called := irqOf interrupt :: s.called }
      | _ => none
  | .eoi =>
      match s.phase with
      | .called interrupt => some { s with
          toIrqState := irqEnd (cascade other status) s.toIrqState (irqOf interrupt)
          phase := .ended }
      | _ => none
  | .reschedule =>
      match s.phase with
      | .ended => some { s with
          kernel := irqReschedule schedulerSchedule s.kernel
          phase := .outside
          schedules := s.schedules + s.kernel.pit.needReschedule.toNat }
      | _ => none

/-- The events, one after the other. -/
def IrqLines.run (s : IrqLines σ) (events : List LineEvent) : Option (IrqLines σ) :=
  events.foldlM (IrqLines.exec other status irqHandlers schedulerSchedule) s

/-- The kernel after `pic_init`, with the controllers as they were before and any time. -/
def IrqLines.start (dev : Pair) (rest : σ) : IrqLines σ where
  pics := picInit (cascade other status) ⟨dev, []⟩
  kernel := ⟨⟨0, 0, false⟩, rest⟩
  phase := .outside
  raised _ := 0
  called := []
  schedules := 0

end Steps

variable {σ : Type*} {other : Chip → Byte → Chip} {status : Chip → Byte}
  {irqHandlers : ℕ → Option (IrqHandler σ)} {schedulerSchedule : σ → σ} {p : Pair} {l l' : Line}
  {s s' : IrqLines σ} {events : List LineEvent} {dev : Pair} {rest : σ} {e : LineEvent}

/-! ### The controllers under the calls -/

/-- The interrupts in service are ended. -/
def endService (p : Pair) : Pair where
  master := { p.master with isr := ∅ }
  slave := { p.slave with isr := ∅ }

theorem picInit_dev (s : PicState Pair) :
    (picInit (cascade other status) s).dev =
      ⟨⟨∅, ∅, 0, 0x11, 32, 4, 1, .mask⟩, ⟨∅, ∅, 0, 0x11, 40, 2, 1, .mask⟩⟩ := by
  have hmaster := @Chip.init_eq other s.dev.master 32 4 1 0
  have hslave := @Chip.init_eq other s.dev.slave 40 2 1 0
  simpa [picInit, ioWait, PicState.outb, cascade, Pic.data, Pic.command, icw1Init, icw1Icw4,
    icw4For8086] using And.intro hmaster hslave

/-- `pic_send_eoi` for the line in service. -/
theorem picSendEoi_dev (other : Chip → Byte → Chip) (status : Chip → Byte) {s : PicState Pair}
    (hserving : s.dev.Serving (some l)) :
    (picSendEoi (cascade other status) s l.number).dev = endService s.dev := by
  obtain ⟨hmaster, hslave⟩ : s.dev.master.eoi = (endService s.dev).master ∧
      (if 8 ≤ l.number then s.dev.slave.eoi else s.dev.slave) = (endService s.dev).slave := by
    cases l with
    | master i =>
      rw [if_neg (by simp only [Line.number]; omega)]
      refine ⟨Chip.eoi_singleton hserving.1, ?_⟩
      rw [endService, ← hserving.2]
    | slave i =>
      rw [if_pos (by simp only [Line.number]; omega)]
      exact ⟨Chip.eoi_singleton hserving.1, Chip.eoi_singleton hserving.2⟩
  calc
    (picSendEoi (cascade other status) s l.number).dev =
        ⟨s.dev.master.eoi, if 8 ≤ l.number then s.dev.slave.eoi else s.dev.slave⟩ := by
      unfold picSendEoi
      split_ifs <;> simp [PicState.outb, cascade, Pic.data, Pic.command, Chip.command_eoi]
    _ = endService s.dev := by rw [hmaster, hslave]

/-- `pic_set_mask` for a line of the master. -/
theorem picSetMask_dev (other : Chip → Byte → Chip) (status : Chip → Byte) {s : PicState Pair}
    (hready : (cascade other status).Ready s.dev)
    (i : Fin 8) :
    (picSetMask (cascade other status) s i).dev =
      { s.dev with master := { s.dev.master with imr := s.dev.master.imr ||| 1#8 <<< i.val } } := by
  rw [picSetMask, if_pos i.isLt]
  simp [PicState.update, cascade, Chip.data_mask hready.1]

theorem masked_setMask {imr : Byte} (i j : Fin 8) :
    (imr ||| 1#8 <<< i.val).getLsbD j.val = true ↔ imr.getLsbD j.val = true ∨ j = i := by
  simp only [BitVec.getLsbD_or, Bool.or_eq_true]
  refine or_congr_right ?_
  revert i j
  decide

/-! ### The number in the frame -/

/-- The number that the frame of a line holds, after `pic_init`. -/
def vectorOf (l : Line) : Word := BitVec.ofNat 64 (32 + l.number)

@[simp] theorem irqOf_vectorOf (l : Line) : irqOf (vectorOf l) = l.number := by
  have h := l.number_lt
  rw [irqOf, vectorOf]
  interval_cases l.number <;> rfl

theorem vectorOf_injective : Function.Injective vectorOf := fun l l' h =>
  Line.number_injective (by rw [← irqOf_vectorOf l, h, irqOf_vectorOf])

theorem vector_eq (hmaster : p.master.icw2 = 32) (hslave : p.slave.icw2 = 40) (l : Line) :
    (p.vector l).setWidth 64 = vectorOf l := by
  cases l with
  | master i =>
    rw [Pair.vector, Chip.vector, hmaster, vectorOf, Line.number]
    revert i
    decide
  | slave i =>
    rw [Pair.vector, Chip.vector, hslave, vectorOf, Line.number]
    revert i
    decide

/-! ### One event -/

/-- The line that `irq_handler` is at work for, before the end of the interrupt. -/
inductive IrqPhase.Serves : IrqPhase → Option Line → Prop
  | outside : Serves .outside none
  | entered (l : Line) : Serves (.entered (vectorOf l)) (some l)
  | called (l : Line) : Serves (.called (vectorOf l)) (some l)
  | ended : Serves .ended none

/-- What holds in every run: the masked lines are those that `irq_handler` has found no handler
for, and each request is pending, or has just been taken, or has been called. -/
structure IrqLines.Inv (irqHandlers : ℕ → Option (IrqHandler σ)) (s : IrqLines σ) : Prop where
  ready : s.pics.dev.master.awaits = .mask ∧ s.pics.dev.slave.awaits = .mask
  master : s.pics.dev.master.icw2 = 32
  slave : s.pics.dev.slave.icw2 = 40
  cascaded : s.pics.dev.Cascaded
  serving : ∃ o, s.phase.Serves o ∧ s.pics.dev.Serving o ∧ o ≠ some (.master 2)
  masked : ∀ l, s.pics.dev.Masked l ↔ irqHandlers l.number = none ∧ l.number ∈ s.called
  count : ∀ l ≠ .master 2, s.raised l = s.called.count l.number +
    (if s.pics.dev.Requested l then 1 else 0) + if s.phase = .entered (vectorOf l) then 1 else 0
  two : 2 ∉ s.called
  slaves : ∀ i, s.raised (.slave i) ≠ 0 → irqHandlers (8 + i) ≠ none

/-- A line of the slave that is raised has a handler. -/
def LineEvent.Allowed (irqHandlers : ℕ → Option (IrqHandler σ)) (e : LineEvent) : Prop :=
  ∀ i, e = .raise (.slave i) → irqHandlers (8 + i) ≠ none

instance (irqHandlers : ℕ → Option (IrqHandler σ)) (e : LineEvent) :
    Decidable (e.Allowed irqHandlers) :=
  inferInstanceAs (Decidable (∀ i : Fin 8, e = .raise (.slave i) → irqHandlers (8 + i) ≠ none))

theorem IrqLines.start_inv (dev : Pair) (rest : σ) :
    (IrqLines.start other status dev rest).Inv irqHandlers := by
  have hdev : (IrqLines.start other status dev rest).pics.dev =
      ⟨⟨∅, ∅, 0, 0x11, 32, 4, 1, .mask⟩, ⟨∅, ∅, 0, 0x11, 40, 2, 1, .mask⟩⟩ :=
    picInit_dev ⟨dev, []⟩
  refine ⟨hdev ▸ ⟨rfl, rfl⟩, hdev ▸ rfl, hdev ▸ rfl, hdev ▸ ⟨by simp, by simp⟩,
    ⟨none, .outside, hdev ▸ ⟨rfl, rfl⟩, by simp⟩, fun l => ?_, fun l _ => ?_,
    by simp [IrqLines.start], by simp [IrqLines.start]⟩
  · cases l <;> simp [picInit_dev, Pair.Masked, IrqLines.start]
  · cases l <;> simp [picInit_dev, Pair.Requested, IrqLines.start]

theorem requested_raise : (p.raise l).Requested l' ↔ l' = l ∨ p.Requested l' := by
  cases l <;> cases l' <;> simp [Pair.raise, Pair.Requested, Chip.raise]

theorem requested_ack (hne : l ≠ .master 2) (hcas : p.Cascaded) :
    (p.ack l).Requested l' ↔ l' ≠ l ∧ p.Requested l' := by
  have hfree := hcas.free
  cases l <;> cases l' <;> simp [Pair.ack, Pair.Requested, Chip.ack]
  grind

theorem masked_raise : (p.raise l).Masked l' ↔ p.Masked l' := by
  cases l <;> cases l' <;> rfl

theorem masked_ack : (p.ack l).Masked l' ↔ p.Masked l' := by
  cases l <;> cases l' <;> rfl

theorem serving_raise {o : Option Line} (h : p.Serving o) : (p.raise l).Serving o := by
  cases l <;> rcases o with _ | _ | _ <;> exact h

theorem serving_ack (h : p.Serving none) : (p.ack l).Serving (some l) := by
  obtain ⟨hmaster, hslave⟩ := h
  cases l <;> simp [Pair.ack, Pair.Serving, Chip.ack, hmaster, hslave]

/-- A device raises a line. -/
theorem IrqLines.Inv.raise (h : s.Inv irqHandlers)
    (hallowed : LineEvent.Allowed irqHandlers (.raise l))
    (hexec : s.exec other status irqHandlers schedulerSchedule (.raise l) = some s') :
    s'.Inv irqHandlers := by
  simp only [IrqLines.exec, Option.ite_none_left_eq_some, Option.some.injEq] at hexec
  obtain ⟨hne, rfl⟩ := hexec
  obtain ⟨o, hphase, hserving, htwo⟩ := h.serving
  refine ⟨?_, ?_, ?_, ?_, ⟨o, hphase, serving_raise hserving, htwo⟩, fun l' => ?_, fun l' hl' => ?_,
    h.two, fun i hi => ?_⟩
  · cases l <;> exact h.ready
  · cases l <;> exact h.master
  · cases l <;> exact h.slave
  · refine ⟨fun hmem => ?_, ?_⟩
    · have hreq : (s.pics.dev.raise l).Requested (.master 2) := hmem
      rcases requested_raise.mp hreq with heq | hreq
      · exact hne heq.symm
      · exact h.cascaded.free hreq
    · cases l <;> exact h.cascaded.unmasked
  · exact masked_raise.trans (h.masked l')
  · have hcount := h.count l' hl'
    dsimp only
    simp only [requested_raise]
    by_cases heq : l' = l
    · subst heq
      by_cases hreq : s.pics.dev.Requested l'
      · simpa [hreq] using hcount
      · simp only [hreq, if_false, Function.update_self] at hcount ⊢
        simp only [true_or, if_true]
        omega
    · have hsame : (if s.pics.dev.Requested l then s.raised
          else Function.update s.raised l (s.raised l + 1)) l' = s.raised l' := by
        split_ifs
        · rfl
        · exact Function.update_of_ne heq _ _
      rw [hsame, hcount]
      simp [heq]
  · by_cases heq : l = .slave i
    · exact hallowed i (congrArg LineEvent.raise heq)
    · refine h.slaves i (fun hzero => hi ?_)
      dsimp only
      split_ifs
      · exact hzero
      · rw [Function.update_of_ne (Ne.symm heq)]
        exact hzero

/-- The processor takes an interrupt. -/
theorem IrqLines.Inv.interrupt (h : s.Inv irqHandlers)
    (hexec : s.exec other status irqHandlers schedulerSchedule .interrupt = some s') :
    s'.Inv irqHandlers ∧ ∃ l, s.pics.dev.Open l ∧ s'.pics.dev = s.pics.dev.ack l ∧
      s'.phase = .entered (vectorOf l) ∧ (∀ l', s.pics.dev.Open l' → l.rank ≤ l'.rank) ∧
      s.phase = .outside ∧ s'.kernel = s.kernel ∧ s'.called = s.called := by
  obtain ⟨o, hphase, hserving, -⟩ := h.serving
  simp only [IrqLines.exec] at hexec
  split at hexec
  · rename_i l p hout htake
    rw [hout] at hphase
    cases hphase
    obtain ⟨rfl, hopen, hne, hfirst⟩ := Pair.take_eq_some h.cascaded hserving htake
    have hvector : ((s.pics.dev.ack l).vector l).setWidth 64 = vectorOf l :=
      vector_eq (by cases l <;> exact h.master) (by cases l <;> exact h.slave) l
    rw [hvector] at hexec
    obtain rfl := Option.some.inj hexec
    refine ⟨⟨?_, ?_, ?_, ?_, ⟨some l, .entered l, serving_ack hserving, by simpa using hne⟩,
      fun l' => masked_ack.trans (h.masked l'), fun l' hl' => ?_, h.two, h.slaves⟩,
      l, hopen, rfl, rfl, hfirst, hout, rfl, rfl⟩
    · cases l <;> exact h.ready
    · cases l <;> exact h.master
    · cases l <;> exact h.slave
    · refine ⟨fun hmem => ?_, by cases l <;> exact h.cascaded.unmasked⟩
      have hreq : (s.pics.dev.ack l).Requested (.master 2) := hmem
      exact h.cascaded.free ((requested_ack hne h.cascaded).mp hreq).2
    · have hcount := h.count l' hl'
      simp only [requested_ack hne h.cascaded, hout] at hcount ⊢
      by_cases heq : l' = l
      · subst heq
        have hreq : s.pics.dev.Requested l' := hopen.1
        simpa [hreq] using hcount
      · have hphase : IrqPhase.entered (vectorOf l) ≠ .entered (vectorOf l') := fun hsame =>
          heq (vectorOf_injective (IrqPhase.entered.inj hsame)).symm
        simpa [heq, hphase] using hcount
  · exact absurd hexec (by simp)

/-- The line that has been taken is the one that is called. -/
theorem IrqLines.Inv.count_called (h : s.Inv irqHandlers) (hphase : s.phase = .entered (vectorOf l))
    (hne : l' ≠ .master 2) :
    s.raised l' = (l.number :: s.called).count l'.number +
      if s.pics.dev.Requested l' then 1 else 0 := by
  rw [h.count l' hne, hphase, List.count_cons]
  by_cases heq : l' = l
  · simp [heq]
    omega
  · have hnumber : l.number ≠ l'.number := fun hsame => heq (Line.number_injective hsame).symm
    have hvector : vectorOf l ≠ vectorOf l' := fun hsame => heq (vectorOf_injective hsame).symm
    simp [hnumber, hvector]

/-- What `irq_handler` does for a line: the handler runs, or the line is masked. -/
theorem IrqLines.Inv.call (h : s.Inv irqHandlers)
    (hexec : s.exec other status irqHandlers schedulerSchedule .call = some s') :
    s'.Inv irqHandlers ∧ ∃ l, s.phase = .entered (vectorOf l) ∧
      s'.phase = .called (vectorOf l) ∧ s'.called = l.number :: s.called ∧
      (∀ l', s'.pics.dev.Requested l' ↔ s.pics.dev.Requested l') ∧
      (∀ l', s'.pics.dev.Masked l' ↔
        s.pics.dev.Masked l' ∨ l' = l ∧ irqHandlers l.number = none) := by
  obtain ⟨o, hserves, hserving, htwo⟩ := h.serving
  simp only [IrqLines.exec] at hexec
  split at hexec
  case h_2 => exact absurd hexec (by simp)
  rename_i interrupt hphase
  obtain ⟨l, rfl, rfl⟩ : ∃ l, interrupt = vectorOf l ∧ o = some l := by
    rw [hphase] at hserves
    cases hserves with
    | entered l => exact ⟨l, rfl, rfl⟩
  have hne : l ≠ .master 2 := fun heq => htwo (by rw [heq])
  have htwo' : 2 ∉ l.number :: s.called := by
    rw [List.mem_cons, not_or]
    exact ⟨fun heq => hne (@Line.number_injective l (.master 2) heq.symm), h.two⟩
  rw [irqOf_vectorOf, irqCall, if_pos l.number_lt] at hexec
  have hmem : ∀ l' : Line, l'.number ∈ l.number :: s.called ↔ l' = l ∨ l'.number ∈ s.called :=
    fun l' => by rw [List.mem_cons, Line.number_injective.eq_iff]
  cases hhandler : irqHandlers l.number with
  | some handler =>
    rw [hhandler] at hexec
    obtain rfl := Option.some.inj hexec
    refine ⟨⟨h.ready, h.master, h.slave, h.cascaded, ⟨some l, .called l, hserving, htwo⟩,
      fun l' => ?_, fun l' hl' => ?_, htwo', h.slaves⟩,
      l, hphase, rfl, rfl, fun _ => Iff.rfl, fun l' => ?_⟩
    · rw [hmem, h.masked l']
      refine and_congr_right fun hnone => ?_
      refine (or_iff_right fun heq => ?_).symm
      rw [heq, hhandler] at hnone
      exact absurd hnone (by simp)
    · simpa using h.count_called hphase hl'
    · simp [hhandler]
  | none =>
    rw [hhandler] at hexec
    obtain rfl := Option.some.inj hexec
    have hraised : s.raised l ≠ 0 := by
      rw [h.count l hne, if_pos hphase]
      omega
    cases l with
    | slave i => exact absurd hhandler (h.slaves i hraised)
    | master i =>
      have hdev := picSetMask_dev other status (s := s.pics) h.ready i
      replace hdev : (picSetMask (cascade other status) s.pics (Line.master i).number).dev = _ :=
        hdev
      set pics := picSetMask (cascade other status) s.pics (Line.master i).number
      have hreq : ∀ l', pics.dev.Requested l' ↔ s.pics.dev.Requested l' := fun l' => by
        rw [hdev]
        cases l' <;> rfl
      have hmask : ∀ l', pics.dev.Masked l' ↔ s.pics.dev.Masked l' ∨ l' = .master i := fun l' => by
        rw [hdev]
        cases l' with
        | master j => simpa [Pair.Masked] using masked_setMask i j
        | slave j => simp [Pair.Masked]
      have hfree : ¬ pics.dev.Masked (.master 2) := (hmask _).not.mpr
        (not_or.mpr ⟨Bool.eq_false_iff.mp h.cascaded.unmasked, hne.symm⟩)
      refine ⟨⟨hdev ▸ h.ready, hdev ▸ h.master, hdev ▸ h.slave,
        ⟨hdev ▸ h.cascaded.free, Bool.eq_false_iff.mpr hfree⟩,
        ⟨some (.master i), .called _, hdev ▸ hserving, htwo⟩, fun l' => ?_,
        fun l' hl' => ?_, htwo', h.slaves⟩, .master i, hphase, rfl, rfl, hreq, fun l' => ?_⟩
      · rw [hmem, hmask l', h.masked l', or_comm, and_or_left]
        refine or_congr_left ⟨fun heq => ⟨?_, heq⟩, And.right⟩
        rw [heq]
        exact hhandler
      · simpa [hreq] using h.count_called hphase hl'
      · exact (hmask l').trans (by simp [hhandler])

/-- The interrupt is ended. -/
theorem IrqLines.Inv.eoi (h : s.Inv irqHandlers)
    (hexec : s.exec other status irqHandlers schedulerSchedule .eoi = some s') :
    s'.Inv irqHandlers ∧ s'.phase = .ended ∧ s'.pics.dev = endService s.pics.dev := by
  obtain ⟨o, hserves, hserving, htwo⟩ := h.serving
  simp only [IrqLines.exec] at hexec
  split at hexec
  case h_2 => exact absurd hexec (by simp)
  rename_i interrupt hphase
  obtain ⟨l, rfl, rfl⟩ : ∃ l, interrupt = vectorOf l ∧ o = some l := by
    rw [hphase] at hserves
    cases hserves with
    | called l => exact ⟨l, rfl, rfl⟩
  have hdev := picSendEoi_dev other status hserving
  rw [irqOf_vectorOf, irqEnd] at hexec
  obtain rfl := Option.some.inj hexec
  refine ⟨⟨hdev ▸ h.ready, hdev ▸ h.master, hdev ▸ h.slave,
    ⟨hdev ▸ h.cascaded.free, hdev ▸ h.cascaded.unmasked⟩,
    ⟨none, .ended, hdev ▸ ⟨rfl, rfl⟩, by simp⟩,
    fun l' => ?_, fun l' hl' => ?_, h.two, h.slaves⟩, rfl, hdev⟩
  · refine Iff.trans ?_ (h.masked l')
    dsimp only
    rw [hdev]
    cases l' <;> rfl
  · have hcount := h.count l' hl'
    have hreq : (endService s.pics.dev).Requested l' ↔ s.pics.dev.Requested l' := by
      cases l' <;> rfl
    simpa [hdev, hreq, hphase] using hcount

/-- `irq_handler` returns. -/
theorem IrqLines.Inv.reschedule (h : s.Inv irqHandlers)
    (hexec : s.exec other status irqHandlers schedulerSchedule .reschedule = some s') :
    s'.Inv irqHandlers ∧ s'.phase = .outside ∧ s'.pics = s.pics ∧ s'.called = s.called := by
  obtain ⟨o, hserves, hserving, htwo⟩ := h.serving
  simp only [IrqLines.exec] at hexec
  split at hexec
  case h_2 => exact absurd hexec (by simp)
  rename_i hphase
  obtain rfl := Option.some.inj hexec
  obtain rfl : o = none := by
    rw [hphase] at hserves
    cases hserves
    rfl
  refine ⟨⟨h.ready, h.master, h.slave, h.cascaded, ⟨none, .outside, hserving, htwo⟩, h.masked,
    fun l' hl' => ?_, h.two, h.slaves⟩, rfl, rfl, rfl⟩
  simpa [hphase] using h.count l' hl'

/-- One event. -/
theorem IrqLines.Inv.exec (h : s.Inv irqHandlers) (hallowed : e.Allowed irqHandlers)
    (hexec : s.exec other status irqHandlers schedulerSchedule e = some s') :
    s'.Inv irqHandlers := by
  cases e with
  | raise l => exact h.raise hallowed hexec
  | interrupt => exact (h.interrupt hexec).1
  | call => exact (h.call hexec).1
  | eoi => exact (h.eoi hexec).1
  | reschedule => exact (h.reschedule hexec).1

/-! ### Runs -/

/-- A run. -/
theorem IrqLines.Inv.run (h : s.Inv irqHandlers) (hallowed : ∀ e ∈ events, e.Allowed irqHandlers)
    (hrun : s.run other status irqHandlers schedulerSchedule events = some s') :
    s'.Inv irqHandlers :=
  invariant_of_run (fun _ _ _ h hallowed hexec => h.exec hallowed hexec) h hallowed hrun

/-- The three parts of `irq_handler` with nothing in between are `irq_handler`. -/
theorem irqHandler_eq_run {interrupt : Word} (hphase : s.phase = .entered interrupt) :
    (s.run other status irqHandlers schedulerSchedule [.call, .eoi, .reschedule]).map
        IrqLines.toIrqState =
      irqHandler (cascade other status) irqHandlers schedulerSchedule s.toIrqState interrupt := by
  simp only [IrqLines.run, List.foldlM_cons, IrqLines.exec, hphase, irqHandler]
  cases irqCall (cascade other status) irqHandlers s.toIrqState (irqOf interrupt) <;> rfl

/-- **Every request is handled exactly once.**  `pic_init` takes the controllers from any state to
one in which all lines are open.  In every run from there, in which a line of the slave is raised
only if it has a handler, whatever was raised of a line is still requested, or has just been taken,
or has come to `irq_handler` under the number of the line.  The lines that are masked are those
that have come there and have no handler.  Outside of `irq_handler` no interrupt is in service. -/
theorem irqLines_exactlyOnce (hallowed : ∀ e ∈ events, e.Allowed irqHandlers)
    (hrun : (IrqLines.start other status dev rest).run other status irqHandlers schedulerSchedule
      events = some s) :
    (∀ l ≠ .master 2, s.raised l = s.called.count l.number +
      (if s.pics.dev.Requested l then 1 else 0) +
        if s.phase = .entered (vectorOf l) then 1 else 0) ∧
    (∀ l, s.pics.dev.Masked l ↔ irqHandlers l.number = none ∧ l.number ∈ s.called) ∧
    (s.phase = .outside → s.pics.dev.Serving none) := by
  have h := (IrqLines.start_inv dev rest).run hallowed hrun
  refine ⟨h.count, h.masked, fun hphase => ?_⟩
  obtain ⟨o, hserves, hserving, -⟩ := h.serving
  rw [hphase] at hserves
  cases hserves
  exact hserving

def idlePair : Pair :=
  ⟨⟨∅, ∅, 0, 0, 0, 0, 0, .mask⟩, ⟨∅, ∅, 0, 0, 0, 0, 0, .mask⟩⟩

/-- The timer, and two devices that count. -/
def timerAndMore : ℕ → Option (IrqHandler ℕ) :=
  let count : IrqHandler ℕ := fun k => { k with rest := k.rest + 1 }
  let handlers := (pitInit (cascade (fun c _ => c) fun _ => 0) (fun _ => none) ⟨idlePair, []⟩ 100).2
  irqRegister (irqRegister handlers 1 (some count)) 11 (some count)

/-- A run from controllers with nothing requested. -/
def idleRun (events : List LineEvent) : Option (IrqLines ℕ) :=
  (IrqLines.start (fun c _ => c) (fun _ => 0) idlePair 0).run (fun c _ => c) (fun _ => 0)
    timerAndMore (fun n => n + 10) events

theorem irqLines_exactlyOnce_example :
    ∃ s, idleRun [.raise (.master 7), .raise (.master 1), .interrupt, .call, .raise (.master 1),
        .eoi, .reschedule, .interrupt, .call, .eoi, .reschedule, .interrupt, .call] = some s ∧
      s.called = [7, 1, 1] ∧ s.raised (.master 1) = 2 ∧ s.pics.dev.Masked (.master 7) := by
  obtain ⟨s, hrun⟩ := Option.isSome_iff_exists.mp (show (idleRun [.raise (.master 7),
    .raise (.master 1), .interrupt, .call, .raise (.master 1), .eoi, .reschedule, .interrupt, .call,
    .eoi, .reschedule, .interrupt, .call]).isSome by decide)
  have hmap := congrArg (Option.map fun s => (s.called, s.phase,
    decide (s.pics.dev.Requested (.master 1)))) hrun
  have hmap := (show _ = some ([7, 1, 1], IrqPhase.called 39, false) by decide).symm.trans hmap
  simp only [Option.map_some, Option.some.injEq, Prod.mk.injEq] at hmap
  obtain ⟨hcalled, hphase, hreq⟩ := hmap
  obtain ⟨hcount, hmasked, -⟩ := irqLines_exactlyOnce (by decide) hrun
  refine ⟨s, hrun, hcalled.symm, ?_, (hmasked _).mpr ⟨rfl, ?_⟩⟩
  · rw [hcount _ (by decide), ← hcalled, ← hphase, if_neg (of_decide_eq_false hreq.symm)]
    rfl
  · rw [← hcalled]
    decide

/-! ### Up to the last request -/

/-- One interrupt from the line to the return of `irq_handler`. -/
def serveOne : List LineEvent := [.interrupt, .call, .eoi, .reschedule]

theorem not_open_two (hcas : p.Cascaded) : ¬ p.Open (.master 2) := fun hopen => hcas.free hopen.1

/-- With a line that is open, the first of these goes through `irq_handler`, and the others are
open as before. -/
theorem IrqLines.Inv.serveOne (other : Chip → Byte → Chip) (status : Chip → Byte)
    (schedulerSchedule : σ → σ) (h : s.Inv irqHandlers) (hphase : s.phase = .outside)
    (hopen : ∃ l, s.pics.dev.Open l) :
    ∃ l s', s.run other status irqHandlers schedulerSchedule serveOne = some s' ∧
      s'.Inv irqHandlers ∧ s'.phase = .outside ∧ s.pics.dev.Open l ∧
      (∀ l', s.pics.dev.Open l' → l.rank ≤ l'.rank) ∧
      (∀ l', s'.pics.dev.Open l' ↔ s.pics.dev.Open l' ∧ l' ≠ l) ∧
      s'.called = l.number :: s.called := by
  obtain ⟨o, hserves, hserving, -⟩ := h.serving
  rw [hphase] at hserves
  cases hserves
  -- the processor takes the interrupt
  obtain ⟨⟨k, p⟩, htake⟩ : ∃ r, s.pics.dev.take = some r := by
    rw [← Option.ne_none_iff_exists']
    intro hnone
    obtain ⟨l, hl⟩ := hopen
    exact (Pair.take_eq_none h.cascaded hserving).mp hnone l hl
  obtain ⟨s₁, h₁⟩ :
      ∃ s₁, s.exec other status irqHandlers schedulerSchedule .interrupt = some s₁ := by
    simp [IrqLines.exec, hphase, htake]
  obtain ⟨hinv₁, l, hl, hdev₁, hphase₁, hfirst, -, -, hcalled₁⟩ := h.interrupt h₁
  have hne : l ≠ .master 2 := fun heq => not_open_two h.cascaded (heq ▸ hl)
  -- `irq_handler` calls its handler, or masks it
  obtain ⟨s₂, h₂⟩ : ∃ s₂, s₁.exec other status irqHandlers schedulerSchedule .call = some s₂ := by
    rw [IrqLines.exec, hphase₁]
    dsimp only
    rw [irqOf_vectorOf, irqCall, if_pos l.number_lt]
    cases irqHandlers l.number <;> simp
  obtain ⟨hinv₂, l₂, hl₂, hphase₂, hcalled₂, hreq₂, hmask₂⟩ := hinv₁.call h₂
  obtain rfl : l = l₂ := vectorOf_injective (IrqPhase.entered.inj (hphase₁.symm.trans hl₂))
  obtain ⟨s₃, h₃⟩ : ∃ s₃, s₂.exec other status irqHandlers schedulerSchedule .eoi = some s₃ := by
    simp [IrqLines.exec, hphase₂]
  obtain ⟨hinv₃, hphase₃, hdev₃⟩ := hinv₂.eoi h₃
  have hcalled₃ : s₃.called = s₂.called := by
    simp only [IrqLines.exec, hphase₂, Option.some.injEq] at h₃
    rw [← h₃]
  obtain ⟨s₄, h₄⟩ :
      ∃ s₄, s₃.exec other status irqHandlers schedulerSchedule .reschedule = some s₄ := by
    simp [IrqLines.exec, hphase₃]
  obtain ⟨hinv₄, hphase₄, hpics₄, hcalled₄⟩ := hinv₃.reschedule h₄
  refine ⟨l, s₄, ?_, hinv₄, hphase₄, hl, hfirst, fun l' => ?_, ?_⟩
  · simp [IrqLines.run, Bethany.serveOne, h₁, h₂, h₃, h₄]
  · have hend : (endService s₂.pics.dev).Open l' ↔ s₂.pics.dev.Open l' := by
      cases l' <;> rfl
    rw [hpics₄, hdev₃, hend, Pair.Open, hreq₂, hmask₂, hdev₁, requested_ack hne h.cascaded,
      masked_ack, Pair.Open]
    tauto
  · rw [hcalled₄, hcalled₃, hcalled₂, hcalled₁]

/-- The open lines are handled one after the other. -/
theorem IrqLines.Inv.drain (other : Chip → Byte → Chip) (status : Chip → Byte)
    (schedulerSchedule : σ → σ) (h : s.Inv irqHandlers) (hphase : s.phase = .outside) :
    ∃ (ls : List Line) (s' : IrqLines σ), ls.Pairwise (fun l l' => l.rank < l'.rank) ∧
      (∀ l, l ∈ ls ↔ s.pics.dev.Open l) ∧
      s.run other status irqHandlers schedulerSchedule (ls.flatMap fun _ => Bethany.serveOne) =
        some s' ∧ s'.phase = .outside ∧ s'.pics.dev.take = none ∧
      s'.called = (ls.map Line.number).reverse ++ s.called := by
  -- by the number of open lines
  induction hn : (Finset.univ.filter s.pics.dev.Open).card generalizing s with
  | zero =>
    obtain ⟨o, hserves, hserving, -⟩ := h.serving
    rw [hphase] at hserves
    cases hserves
    have hnone : ∀ l, ¬ s.pics.dev.Open l := by
      simpa [Finset.filter_eq_empty_iff] using hn
    exact ⟨[], s, .nil, by simpa using hnone, rfl, hphase,
      (Pair.take_eq_none h.cascaded hserving).mpr hnone, rfl⟩
  | succ n ih =>
    obtain ⟨l₀, hl₀⟩ : (Finset.univ.filter s.pics.dev.Open).Nonempty := by
      rw [← Finset.card_pos]
      omega
    obtain ⟨l, s₁, hrun₁, hinv₁, hphase₁, hl, hfirst, hopen₁, hcalled₁⟩ :=
      h.serveOne other status schedulerSchedule hphase ⟨l₀, by simpa using hl₀⟩
    have hcard : (Finset.univ.filter s₁.pics.dev.Open).card = n := by
      have herase : Finset.univ.filter s₁.pics.dev.Open =
          (Finset.univ.filter s.pics.dev.Open).erase l := by
        ext l'
        simp [hopen₁, and_comm]
      rw [herase, Finset.card_erase_of_mem (by simpa using hl), hn, Nat.add_sub_cancel]
    obtain ⟨ls, s', hpairwise, hls, hrun, hphase', htake, hcalled⟩ := ih hinv₁ hphase₁ hcard
    refine ⟨l :: ls, s', List.pairwise_cons.mpr ⟨fun l' hl' => ?_, hpairwise⟩, fun l' => ?_, ?_,
      hphase', htake, ?_⟩
    · obtain ⟨hopen, hne⟩ := (hopen₁ l').mp ((hls l').mp hl')
      refine lt_of_le_of_ne (hfirst l' hopen) fun hrank => hne ?_
      exact (Line.rank_injective (fun heq => not_open_two h.cascaded (heq ▸ hl))
        (fun heq => not_open_two h.cascaded (heq ▸ hopen)) hrank).symm
    · rw [List.mem_cons, hls, hopen₁]
      constructor
      · rintro (rfl | hl')
        · exact hl
        · exact hl'.1
      · intro hl'
        by_cases heq : l' = l
        · exact .inl heq
        · exact .inr ⟨hl', heq⟩
    · rw [List.flatMap_cons, IrqLines.run, List.foldlM_append]
      rw [IrqLines.run] at hrun₁ hrun
      rw [hrun₁]
      exact hrun
    · rw [hcalled, hcalled₁]
      simp

/-- **Requests come to an end.**  In a run as above, at any time outside of `irq_handler`, let no
more lines be raised.  The processor then takes one interrupt for each line that is requested and
not masked, in the order of their priority, `irq_handler` gets the number of each of them, and there
is no interrupt left to take. -/
theorem irqLines_drain (hallowed : ∀ e ∈ events, e.Allowed irqHandlers)
    (hrun : (IrqLines.start other status dev rest).run other status irqHandlers schedulerSchedule
      events = some s) (hphase : s.phase = .outside) :
    ∃ (ls : List Line) (s' : IrqLines σ), ls.Pairwise (fun l l' => l.rank < l'.rank) ∧
      (∀ l, l ∈ ls ↔ s.pics.dev.Open l) ∧
      s.run other status irqHandlers schedulerSchedule (ls.flatMap fun _ => Bethany.serveOne) =
        some s' ∧ s'.phase = .outside ∧ s'.pics.dev.take = none ∧
      s'.called = (ls.map Line.number).reverse ++ s.called :=
  ((IrqLines.start_inv dev rest).run hallowed hrun).drain other status schedulerSchedule hphase

theorem irqLines_drain_example :
    ∃ s, idleRun [.raise (.slave 3), .raise (.master 3), .raise (.master 1)] = some s ∧
      ∃ (ls : List Line) (s' : IrqLines ℕ), (∀ l, l ∈ ls ↔ s.pics.dev.Open l) ∧
        s'.pics.dev.take = none ∧ s'.called = (ls.map Line.number).reverse ++ s.called := by
  obtain ⟨s, hrun⟩ := Option.isSome_iff_exists.mp (show (idleRun [.raise (.slave 3),
    .raise (.master 3), .raise (.master 1)]).isSome by decide)
  have hphase := congrArg (Option.map IrqLines.phase) hrun
  have hphase := (show _ = some IrqPhase.outside by decide).symm.trans hphase
  obtain ⟨ls, s', -, hls, -, -, htake, hcalled⟩ :=
    irqLines_drain (by decide) hrun (Option.some.inj hphase).symm
  exact ⟨s, hrun, ls, s', hls, htake, hcalled⟩

/-! ### Time -/

/-- What `pit.c` keeps: the timer interrupts so far are its ticks, and each of them leads to one
call of the scheduler. -/
structure IrqLines.Timed (s : IrqLines σ) : Prop where
  ticks : s.kernel.pit.ticks = u64 (s.called.count 0)
  seconds : s.called.count 0 < 2 ^ 64 → s.kernel.pit.seconds = s.called.count 0 / 100
  schedules : s.schedules + s.kernel.pit.needReschedule.toNat = s.called.count 0
  pending : s.kernel.pit.needReschedule = true →
    s.phase ≠ .outside ∧ ∀ interrupt, s.phase ≠ .entered interrupt

theorem pitIrq_ticks {k : IrqKernel σ} {n : ℕ} (hticks : k.pit.ticks = u64 n)
    (hseconds : n < 2 ^ 64 → k.pit.seconds = n / 100) :
    (pitIrq k).pit.ticks = u64 (n + 1) ∧
      (n + 1 < 2 ^ 64 → (pitIrq k).pit.seconds = (n + 1) / 100) := by
  have hnext : u64 (k.pit.ticks + 1) = u64 (n + 1) := by
    rw [hticks]
    unfold u64
    omega
  refine ⟨hnext, fun hlt => ?_⟩
  simp only [pitIrq, hnext, hseconds (by omega), u64_of_lt hlt]
  split_ifs
  · rw [u64_of_lt (by omega)]
    omega
  · omega

/-- One event. -/
theorem IrqLines.Timed.exec (h : s.Timed) (hpit : irqHandlers 0 = some pitIrq)
    (hothers : ∀ irq handler, irq ≠ 0 → irqHandlers irq = some handler →
      ∀ k, (handler k).pit = k.pit)
    (hexec : s.exec other status irqHandlers schedulerSchedule e = some s') : s'.Timed := by
  cases e with
  | raise l =>
    simp only [IrqLines.exec, Option.ite_none_left_eq_some, Option.some.injEq] at hexec
    obtain ⟨-, rfl⟩ := hexec
    exact ⟨h.ticks, h.seconds, h.schedules, h.pending⟩
  | interrupt =>
    simp only [IrqLines.exec] at hexec
    split at hexec
    case h_2 => exact absurd hexec (by simp)
    rename_i hphase _
    obtain rfl := Option.some.inj hexec
    exact ⟨h.ticks, h.seconds, h.schedules, fun hneed => absurd hphase (h.pending hneed).1⟩
  | call =>
    simp only [IrqLines.exec] at hexec
    split at hexec
    case h_2 => exact absurd hexec (by simp)
    rename_i interrupt hphase
    have hneed : s.kernel.pit.needReschedule = false := by
      by_contra hneed
      exact (h.pending (by simpa using hneed)).2 interrupt hphase
    obtain ⟨t, hcall, rfl⟩ := Option.map_eq_some_iff.mp hexec
    rw [irqCall] at hcall
    split_ifs at hcall with hlt
    by_cases hzero : irqOf interrupt = 0
    · rw [hzero, hpit] at hcall
      obtain rfl := Option.some.inj hcall
      obtain ⟨hticks, hseconds⟩ := pitIrq_ticks h.ticks h.seconds
      have hschedules := h.schedules
      rw [hneed, Bool.toNat_false] at hschedules
      refine ⟨?_, ?_, ?_, fun _ => ⟨by simp, by simp⟩⟩
      · simpa [hzero] using hticks
      · simpa [hzero] using hseconds
      · simp only [hzero, List.count_cons_self, pitIrq, Bool.toNat_true]
        omega
    · have hpitEq : t.kernel.pit = s.kernel.pit := by
        split at hcall
        · rename_i handler hhandler
          obtain rfl := Option.some.inj hcall
          exact hothers _ handler hzero hhandler _
        · obtain rfl := Option.some.inj hcall
          rfl
      have hcount : (irqOf interrupt :: s.called).count 0 = s.called.count 0 :=
        List.count_cons_of_ne hzero
      refine ⟨?_, ?_, ?_, fun _ => ⟨by simp, by simp⟩⟩
      · simpa only [hpitEq, hcount] using h.ticks
      · simpa only [hpitEq, hcount] using h.seconds
      · simpa only [hpitEq, hcount] using h.schedules
  | eoi =>
    simp only [IrqLines.exec] at hexec
    split at hexec
    case h_2 => exact absurd hexec (by simp)
    obtain rfl := Option.some.inj hexec
    exact ⟨h.ticks, h.seconds, h.schedules, fun _ => ⟨by simp, by simp⟩⟩
  | reschedule =>
    simp only [IrqLines.exec] at hexec
    split at hexec
    case h_2 => exact absurd hexec (by simp)
    obtain rfl := Option.some.inj hexec
    have hpit' : (irqReschedule schedulerSchedule s.kernel).pit =
        { s.kernel.pit with needReschedule := false } := by
      unfold irqReschedule
      split_ifs with hneed
      · rfl
      · rw [← (Bool.not_eq_true _).mp hneed]
    refine ⟨?_, ?_, ?_, ?_⟩
    · simpa only [hpit'] using h.ticks
    · simpa only [hpit'] using h.seconds
    · simpa only [hpit', Bool.toNat_false, Nat.add_zero] using h.schedules
    · simp only [hpit']
      exact fun hneed => absurd hneed (by simp)

/-- **What the timer counts.**  If `pit_irq` is the handler of line 0 and no other handler touches
the variables of `pit.c`, then in every run the ticks are the timer interrupts that have come to
`irq_handler`, the seconds a hundredth of them, and outside of `irq_handler` each of them has led
to one call of the scheduler. -/
theorem irqLines_time (hpit : irqHandlers 0 = some pitIrq)
    (hothers : ∀ irq handler, irq ≠ 0 → irqHandlers irq = some handler →
      ∀ k, (handler k).pit = k.pit)
    (hrun : (IrqLines.start other status dev rest).run other status irqHandlers schedulerSchedule
      events = some s) :
    let n := s.called.count 0
    s.kernel.pit.ticks = n % 2 ^ 64 ∧ (n < 2 ^ 64 → s.kernel.pit.seconds = n / 100) ∧
      (s.phase = .outside → s.schedules = n) := by
  have hstart : (IrqLines.start other status dev rest).Timed :=
    ⟨rfl, fun _ => by simp [IrqLines.start], rfl, by simp [IrqLines.start]⟩
  obtain ⟨hticks, hseconds, hschedules, hpending⟩ : s.Timed :=
    invariant_of_run (fun _ _ _ h _ hexec => h.exec hpit hothers hexec) hstart
      (fun _ _ => trivial) hrun
  refine ⟨hticks, hseconds, fun hphase => ?_⟩
  have hneed : s.kernel.pit.needReschedule = false := by
    by_contra hneed
    exact (hpending (by simpa using hneed)).1 hphase
  simpa [hneed] using hschedules

theorem irqLines_time_example :
    ∃ s, idleRun ([.raise (.master 0)] ++ serveOne ++ [.raise (.master 0)] ++ serveOne) = some s ∧
      s.kernel.pit.ticks = 2 ∧ s.schedules = 2 := by
  obtain ⟨s, hrun⟩ := Option.isSome_iff_exists.mp (show (idleRun ([.raise (.master 0)] ++
    serveOne ++ [.raise (.master 0)] ++ serveOne)).isSome by decide)
  have hmap := congrArg (Option.map fun s => (s.called, s.phase)) hrun
  have hmap := (show _ = some ([0, 0], IrqPhase.outside) by decide).symm.trans hmap
  simp only [Option.map_some, Option.some.injEq, Prod.mk.injEq] at hmap
  have hothers : ∀ irq handler, irq ≠ 0 → timerAndMore irq = some handler →
      ∀ k, (handler k).pit = k.pit := by
    intro irq handler hirq hhandler k
    rw [timerAndMore, irqRegister, irqRegister, if_neg (by decide), if_neg (by decide),
      Function.update_apply, Function.update_apply, (pitInit_handlers _ _ _ (by decide)).2 _ hirq]
      at hhandler
    split_ifs at hhandler <;> obtain rfl := Option.some.inj hhandler <;> rfl
  obtain ⟨hticks, -, hschedules⟩ := irqLines_time rfl hothers hrun
  rw [← hmap.1] at hticks hschedules
  exact ⟨s, hrun, hticks, hschedules hmap.2.symm⟩

end Bethany
