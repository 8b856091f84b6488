import Bethany.Interruptions.Idt
import Bethany.Scheduler.Context

/-!
# Entering and leaving an interrupt

The processor saves what it interrupts on the stack and goes through a gate to a stub of `isr.asm`
or `irq.asm`.  The stub completes an `interrupt_frame_t`, calls the handler in C, takes the frame
down again and goes back with `iretq`.

* the processor: `Processor`, `Processor.interrupt`, `iretq`;
* the source: `isrStubs`, `irqStubs` with the macros behind them, `stubEnter`, `stubLeave`;
* `InterruptFrame`: what the handler gets; `stubEnter_spec`, `stubLeave_spec`;
* `interrupt_dispatch`: each vector comes to its stub and its handler with the frame it should have;
* `InsideStep`: runs while a task is inside of an interrupt, in which other tasks run as well;
* `interrupt_transparent`: the interrupted task goes on as if nothing had been.
-/

namespace Bethany

open Machine Stack Relation

/-! ### The processor -/

/-- The processor with its flags and the segments of code and stack. -/
structure Processor extends Cpu where
  rflags : Word
  cs : Word
  ss : Word

/-- The bits TF, IF, NT, RF and VM, which are cleared on the way through an interrupt gate. -/
def gateFlags : Word := 1 <<< 8 ||| 1 <<< 9 ||| 1 <<< 14 ||| 1 <<< 16 ||| 1 <<< 17

/-- What the processor pushes, the last word first: an error code for some exceptions, and what
`iretq` takes back. -/
def Processor.saves (c : Processor) (error : Option Word) : List Word :=
  error.toList ++ [c.rip, c.cs, c.rflags, BitVec.ofNat 64 c.sp, c.ss]

/-- An interrupt through an interrupt gate of the same privilege; there is no way through other
gates. -/
def Processor.interrupt (c : Processor) (g : Gate) (error : Option Word) : Option Processor :=
  if g.present = true ∧ g.kind = 0xE then
    let core := pushWords { c.toCore with sp := c.sp &&& (2 ^ 64 - 1 - 0xF) } (c.saves error).reverse
    some
      { regs := core.regs
        sp := core.sp
        mem := core.mem
        rip := g.offset
        rflags := c.rflags &&& ~~~gateFlags
        cs := g.selector.setWidth 64
        ss := c.ss }
  else none

/-- `iretq` -/
def iretq (c : Core Reg) : Processor where
  regs := c.regs
  sp := (readWord c.mem (c.sp + 24)).toNat
  mem := c.mem
  rip := readWord c.mem c.sp
  cs := readWord c.mem (c.sp + 8)
  rflags := readWord c.mem (c.sp + 16)
  ss := readWord c.mem (c.sp + 32)

/-- The exceptions for which the processor pushes an error code. -/
def pushesError (vector : ℕ) : Bool := vector ∈ [8, 10, 11, 12, 13, 14, 17, 21, 29, 30]

/-! ### The stubs -/

/-- The function that a stub calls. -/
inductive Handler
  | isrHandler
  | irqHandler
deriving DecidableEq

/-- A stub: what it pushes before `PUSH_REGS`, in this order, and what it calls. -/
structure Stub where
  pushes : List Word
  handler : Handler
deriving DecidableEq

/-- `ISR_NOERR` -/
def isrNoErr (n : ℕ) : Stub := ⟨[0, BitVec.ofNat 64 n], .isrHandler⟩

/-- `ISR_ERR` -/
def isrErr (n : ℕ) : Stub := ⟨[BitVec.ofNat 64 n], .isrHandler⟩

/-- `IRQ`, whose first argument is for the name only. -/
def irqStub (_n vector : ℕ) : Stub := ⟨[0, BitVec.ofNat 64 vector], .irqHandler⟩

/-- `isr0` to `isr31` -/
def isrStubs : List Stub :=
  [isrNoErr 0, isrNoErr 1, isrNoErr 2, isrNoErr 3, isrNoErr 4, isrNoErr 5, isrNoErr 6, isrNoErr 7,
    isrErr 8, isrNoErr 9, isrErr 10, isrErr 11, isrErr 12, isrErr 13, isrErr 14, isrNoErr 15,
    isrNoErr 16, isrErr 17, isrNoErr 18, isrNoErr 19, isrNoErr 20, isrNoErr 21, isrNoErr 22,
    isrNoErr 23, isrNoErr 24, isrNoErr 25, isrNoErr 26, isrNoErr 27, isrNoErr 28, isrNoErr 29,
    isrErr 30, isrNoErr 31]

/-- `irq0` to `irq15` -/
def irqStubs : List Stub :=
  [irqStub 0 32, irqStub 1 33, irqStub 2 34, irqStub 3 35, irqStub 4 36, irqStub 5 37,
    irqStub 6 38, irqStub 7 39, irqStub 8 40, irqStub 9 41, irqStub 10 42, irqStub 11 43,
    irqStub 12 44, irqStub 13 45, irqStub 14 46, irqStub 15 47]

/-- A stub up to the first instruction of the handler, with `ret` the address behind the call. -/
def stubEnter (stub : Stub) (c : Core Reg) (ret : Word) : Core Reg :=
  let c := pushWords c stub.pushes
  let c := pushAll c pushRegs
  -- `mov rdi, rsp`
  let c := { c with regs := Function.update c.regs .rdi (BitVec.ofNat 64 c.sp) }
  pushWord c ret

/-- A stub after the call, up to `iretq`. -/
def stubLeave (c : Core Reg) : Core Reg :=
  let c := popAll c popRegs
  -- `add rsp, 16`
  { c with sp := u64 (c.sp + 16) }

/-- `interrupt_frame_t` -/
structure InterruptFrame (m : Mem) (frame : ℕ) (regs : Reg → Word) (interrupt error : Word) :
    Prop where
  regs : Frame m regs frame contextT
  numbers : Words m (frame + 120) [interrupt, error]

variable {m m' : Mem} {c : Processor} {core : Core Reg} {a : ℕ} {error : Option Word} {stub : Stub}
  {number code : Word} {vs ws : List Word}

/-! ### One interrupt -/

theorem words_append : Words m a (vs ++ ws) ↔ Words m a vs ∧ Words m (a + 8 * vs.length) ws := by
  induction vs generalizing a with
  | nil => simp [Words]
  | cons v vs ih =>
    have hplace : a + 8 + 8 * vs.length = a + 8 * (v :: vs).length := by
      rw [List.length_cons]
      omega
    rw [List.cons_append, Words, Words, ih, hplace, and_assoc]

/-- The memory at the first instruction of the handler: the frame, what the processor has saved
above it, and nothing else is changed. -/
theorem stubEnter_spec (stub : Stub) (error : Option Word) (core : Core Reg) (vs : List Word)
    (ret : Word) (hroom : 184 ≤ core.sp) (hlt : core.sp < 2 ^ 64) (hlen : vs.length = 5)
    (hpushes : error.toList.reverse ++ stub.pushes = [code, number]) :
    let c' := stubEnter stub (pushWords core (error.toList ++ vs).reverse) ret
    c'.sp = core.sp - 184 ∧
      c'.regs = Function.update core.regs .rdi (BitVec.ofNat 64 (core.sp - 176)) ∧
      InterruptFrame c'.mem (core.sp - 176) core.regs number code ∧
      Words c'.mem (core.sp - 40) vs ∧ readWord c'.mem (core.sp - 184) = ret ∧
      ∀ x, x < core.sp - 184 ∨ core.sp ≤ x → c'.mem x = core.mem x := by
  intro c'
  -- all values that are pushed, by the processor and by the stub
  have hall : pushWords (pushWords core (error.toList ++ vs).reverse) stub.pushes =
      pushWords core (number :: code :: vs).reverse := by
    rw [← pushWords_append, List.reverse_append, List.append_assoc, hpushes]
    simp
  obtain ⟨hsp₁, hwords, hrest₁⟩ := pushWords_spec (c := core) (number :: code :: vs)
    (by simp only [List.length_cons]; omega) hlt
  have hregs₁ := pushWords_regs core (number :: code :: vs).reverse
  have hseven : 8 * (number :: code :: vs).length = 56 := by
    simp only [List.length_cons, hlen]
  rw [hseven] at hsp₁ hwords hrest₁
  set c₁ := pushWords core (number :: code :: vs).reverse
  have hfifteen : 8 * contextT.length = 120 := rfl
  obtain ⟨hregs₂, hsp₂, hframe, hrest₂⟩ := pushAll_spec (c := c₁) (l := contextT)
    (by omega) (by omega)
  rw [← pushRegs_eq] at hregs₂ hsp₂ hframe hrest₂
  rw [hsp₁, hfifteen] at hsp₂ hframe hrest₂
  have hplace : core.sp - 56 - 120 = core.sp - 176 := by omega
  rw [hplace] at hsp₂ hframe hrest₂
  set c₂ := pushAll c₁ pushRegs
  set regs := Function.update c₂.regs .rdi (BitVec.ofNat 64 c₂.sp) with hregs
  have hc' : c' = pushWord { c₂ with regs := regs } ret := by
    simp only [c', stubEnter, hall, hregs, c₂, c₁]
  have hsp' : c'.sp = core.sp - 184 := by
    rw [hc', pushWord_sp (by dsimp only; omega) (by dsimp only; omega)]
    dsimp only
    omega
  have hmem' : c'.mem = writeWord c₂.mem (core.sp - 184) ret := by
    rw [hc', pushWord_mem (by dsimp only; omega) (by dsimp only; omega)]
    dsimp only
    rw [hsp₂, show core.sp - 176 - 8 = core.sp - 184 by omega]
  have hkept : ∀ x, core.sp - 56 ≤ x → c'.mem x = c₁.mem x := fun x hx => by
    rw [hmem', writeWord_of_ne (by omega)]
    exact hrest₂ x (by omega)
  have hnumbers : Words c'.mem (core.sp - 56) ([number, code] ++ vs) :=
    hwords.congr fun x hx _ => hkept x hx
  obtain ⟨hnumbers, hsaved⟩ := words_append.mp hnumbers
  have h120 : core.sp - 176 + 120 = core.sp - 56 := by omega
  have h40 : core.sp - 56 + 8 * [number, code].length = core.sp - 40 := by
    simp only [List.length_cons, List.length_nil]
    omega
  rw [h40] at hsaved
  refine ⟨hsp', ?_, ⟨?_, ?_⟩, hsaved, ?_, fun x hx => ?_⟩
  · rw [hc', pushWord_regs, hregs, hsp₂, hregs₂, hregs₁]
  · rw [hregs₁] at hframe
    refine hframe.congr fun x hx _ => ?_
    rw [hmem', writeWord_of_ne (by omega)]
  · rw [h120]
    exact hnumbers
  · rw [hmem', readWord_writeWord]
  · rw [hmem', writeWord_of_ne (by omega), hrest₂ x (by omega)]
    exact hrest₁ x (by omega)

/-- From a frame on its stack the processor takes back what was saved there. -/
theorem stubLeave_spec {saved : Processor} (hlt : core.sp + 176 < 2 ^ 64)
    (hframe : Frame core.mem saved.regs core.sp contextT)
    (hsaved : Words core.mem (core.sp + 136) (saved.saves none)) (hsp : saved.sp < 2 ^ 64) :
    iretq (stubLeave core) = { saved with mem := core.mem } := by
  have hfifteen : 8 * contextT.length = 120 := rfl
  obtain ⟨hregs, hsp', hmem⟩ := popAll_spec hframe (by omega)
  have hplace : (stubLeave core).sp = core.sp + 136 := by
    show u64 ((popAll core contextT).sp + 16) = core.sp + 136
    rw [hsp', hfifteen, u64_of_lt (by omega)]
  have hmem' : (stubLeave core).mem = core.mem := hmem
  obtain ⟨hrip, hcs, hrflags, hrsp, hss, -⟩ := hsaved
  simp only [iretq, hplace, hmem', Processor.mk.injEq, Cpu.mk.injEq, Core.mk.injEq, and_true]
  refine ⟨⟨⟨?_, ?_⟩, hrip⟩, hrflags, hcs, hss⟩
  · funext r
    exact (hregs r).trans (if_pos (mem_contextT r))
  · exact (congrArg BitVec.toNat hrsp).trans (toNat_ofNat hsp)

/-! ### From the vector to the handler -/

/-- The stub of a vector. -/
def stubOf (vector : ℕ) : Option Stub :=
  if vector < 32 then isrStubs[vector]? else irqStubs[vector - 32]?

/-- A stub completes what the processor has pushed; the two exceptions for which it does not know
of an error code are left out. -/
theorem pushes_stubOf {vector : ℕ} (hv : vector < 48) (hne : vector ≠ 21 ∧ vector ≠ 29)
    (hstub : stubOf vector = some stub) (herror : error.isSome = pushesError vector) :
    error.toList.reverse ++ stub.pushes = [error.getD 0, BitVec.ofNat 64 vector] := by
  have hboth : stub.pushes =
      if pushesError vector then [BitVec.ofNat 64 vector] else [0, BitVec.ofNat 64 vector] := by
    revert hstub
    interval_cases vector <;> rintro ⟨⟩ <;> first | rfl | omega
  rw [hboth, ← herror]
  cases error <;> simp

/-- The stack pointer that the processor starts to push at. -/
def alignedSp (c : Processor) : ℕ := c.sp / 16 * 16

/-- The processor at the first instruction of a stub, after an interrupt through a gate of
`idt_init`. -/
def atStub (c : Processor) (offset : Word) (error : Option Word) : Processor :=
  let core := pushWords { c.toCore with sp := alignedSp c } (c.saves error).reverse
  { regs := core.regs
    sp := core.sp
    mem := core.mem
    rip := offset
    rflags := c.rflags &&& ~~~gateFlags
    cs := kernelCodeSelector.setWidth 64
    ss := c.ss }

theorem interrupt_eq (hlt : c.sp < 2 ^ 64) (offset : Word) (error : Option Word) :
    c.interrupt (.interrupt offset) error = some (atStub c offset error) := by
  have hmask : c.sp &&& (2 ^ 64 - 1 - 0xF) = alignedSp c := and_alignMask hlt
  rw [Processor.interrupt, if_pos ⟨rfl, rfl⟩, hmask]
  rfl

theorem interrupt_absent {v : Byte} {isrStubTable irqStubTable : ℕ → Word} (hv : 48 ≤ v.toNat) :
    c.interrupt ((idtInit idtBlank isrStubTable irqStubTable).gate v) error = none := by
  rw [Processor.interrupt, idtInit_absent hv]
  simp

/-- **Every vector comes to its handler.**  After `idt_init` an interrupt by one of the first 48
vectors leads to the stub of this vector, with interrupts disabled.  The stub calls `isr_handler`
for an exception and `irq_handler` for a line, with a pointer, aligned to 16 bytes, to a frame that
holds the registers at the interrupt, the vector, and the error code or zero. -/
theorem interrupt_dispatch (isrStubTable irqStubTable : ℕ → Word) (stubAt : Word → Option Stub)
    (error : Option Word) (hisr : ∀ i < 32, stubAt (isrStubTable i) = isrStubs[i]?)
    (hirq : ∀ i < 16, stubAt (irqStubTable i) = irqStubs[i]?) {v : Byte} (hv : v.toNat < 48)
    (hne : v.toNat ≠ 21 ∧ v.toNat ≠ 29) (herror : error.isSome = pushesError v.toNat)
    (hroom : 200 ≤ c.sp) (hlt : c.sp < 2 ^ 64) (idt : Idt) (ret : Word) :
    ∃ p stub, c.interrupt ((idtInit idt isrStubTable irqStubTable).gate v) error = some p ∧
      stubAt p.rip = some stub ∧ p.rflags.getLsbD 9 = false ∧
      stub.handler = (if v.toNat < 32 then .isrHandler else .irqHandler) ∧
      let frame := alignedSp c - 176
      frame % 16 = 0 ∧
        (stubEnter stub p.toCore ret).regs =
          Function.update c.regs .rdi (BitVec.ofNat 64 frame) ∧
        InterruptFrame (stubEnter stub p.toCore ret).mem frame c.regs (v.setWidth 64)
          (error.getD 0) := by
  have hgate := idtInit_gates idt isrStubTable irqStubTable v
  obtain ⟨offset, stub, hoffset, hat, hstub, hhandler⟩ : ∃ offset stub,
      (idtInit idt isrStubTable irqStubTable).gate v = .interrupt offset ∧
      stubAt offset = some stub ∧ stubOf v.toNat = some stub ∧
      stub.handler = if v.toNat < 32 then .isrHandler else .irqHandler := by
    by_cases hlow : v.toNat < 32
    · rw [if_pos hlow] at hgate ⊢
      have hget : ∃ stub, isrStubs[v.toNat]? = some stub ∧ stub.handler = .isrHandler := by
        interval_cases v.toNat <;> exact ⟨_, rfl, rfl⟩
      obtain ⟨stub, hget, hhandler⟩ := hget
      exact ⟨_, stub, hgate, (hisr _ hlow).trans hget, (if_pos hlow).trans hget, hhandler⟩
    · rw [if_neg hlow, if_pos hv] at hgate
      rw [if_neg hlow]
      have hline : v.toNat - 32 < 16 := by omega
      have hget : ∃ stub, irqStubs[v.toNat - 32]? = some stub ∧ stub.handler = .irqHandler := by
        interval_cases v.toNat - 32 <;> exact ⟨_, rfl, rfl⟩
      obtain ⟨stub, hget, hhandler⟩ := hget
      exact ⟨_, stub, hgate, (hirq _ hline).trans hget, (if_neg hlow).trans hget, hhandler⟩
  have hpushes := pushes_stubOf hv hne hstub herror
  have haligned : alignedSp c % 16 = 0 ∧ 184 ≤ alignedSp c ∧ alignedSp c < 2 ^ 64 := by
    unfold alignedSp
    omega
  obtain ⟨-, hregs, hframe, -⟩ := stubEnter_spec stub error
    { c.toCore with sp := alignedSp c } [c.rip, c.cs, c.rflags, BitVec.ofNat 64 c.sp, c.ss] ret
    haligned.2.1 haligned.2.2 rfl hpushes
  have hvector : BitVec.ofNat 64 v.toNat = v.setWidth 64 := BitVec.ofNat_toNat 64 v
  rw [hvector] at hframe
  refine ⟨atStub c offset error, stub, hoffset ▸ interrupt_eq hlt offset error, hat, ?_, hhandler,
    ?_, hregs, hframe⟩
  · simp [atStub, gateFlags]
  · omega

theorem interrupt_dispatch_example : ∃ p stub,
    Processor.interrupt ⟨⟨⟨fun _ => 7, 0x2808, fun _ => 0⟩, 0x400000⟩, 0x202, 0x28, 0x30⟩
        ((idtInit idtBlank (BitVec.ofNat 64) fun i => BitVec.ofNat 64 (32 + i)).gate 33) none =
      some p ∧ p.rip = 33 ∧ stub.handler = .irqHandler ∧
      InterruptFrame (stubEnter stub p.toCore 0x500000).mem 0x2750 (fun _ => 7) 33 0 := by
  obtain ⟨p, stub, hp, hat, -, hhandler, -, -, hframe⟩ :=
    interrupt_dispatch (BitVec.ofNat 64) (fun i => BitVec.ofNat 64 (32 + i))
      (fun a => stubOf a.toNat) none (by decide) (by decide) (v := 33) (by decide) (by decide)
      (by decide) (c := ⟨⟨⟨fun _ => 7, 0x2808, fun _ => 0⟩, 0x400000⟩, 0x202, 0x28, 0x30⟩)
      (by decide) (by decide) idtBlank 0x500000
  refine ⟨p, stub, hp, ?_, hhandler, hframe⟩
  rw [idtInit_gates, if_neg (by decide), if_pos (by decide), interrupt_eq (by decide)] at hp
  obtain rfl := Option.some.inj hp
  rfl

/-! ### Inside of an interrupt -/

variable {taskTrampoline : Word} {r : Region} {frame : ℕ} {s s' s₁ s₂ : Ctx}

/-- A step while the task `r` is inside of an interrupt.  The compiled handler does not write above
its own part of the stack, which ends where the frame begins. -/
structure InsideStep (taskTrampoline : Word) (r : Region) (frame : ℕ) (s s' : Ctx) : Prop where
  step : CtxStep taskTrampoline s s'
  below : s.current = r → s.cpu.sp ≤ frame
  kept : s.current = r → s'.current = r →
    ∀ x, frame ≤ x → x < r.hi → s'.cpu.mem x = s.cpu.mem x

/-- Leaving a task, `context_switch` writes below its stack pointer and to its `rsp` only. -/
theorem callContextSwitch_above {c : Core Reg} (hroom : 128 ≤ c.sp) (hlt : c.sp < 2 ^ 64)
    (htask : r.task + sizeofTask < 2 ^ 64) (current : ℕ) (ret : Word) {x : ℕ} (hx : c.sp ≤ x)
    (hne : x < r.task + taskRsp ∨ r.task + taskRsp + 8 ≤ x) :
    (callContextSwitch c r.task current ret).mem x = c.mem x := by
  set regs := Function.update (Function.update c.regs .rdi (BitVec.ofNat 64 (r.task + taskRsp)))
    .rsi (readWord c.mem (current + taskRsp)) with hregs
  have hsp₁ : (pushWord { c with regs := regs } ret).sp = c.sp - 8 :=
    pushWord_sp (c := { c with regs := regs }) (by dsimp only; omega) hlt ret
  have hmem₁ : (pushWord { c with regs := regs } ret).mem = writeWord c.mem (c.sp - 8) ret :=
    pushWord_mem (c := { c with regs := regs }) (by dsimp only; omega) hlt ret
  have hlen : 8 * contextT.length = 120 := rfl
  obtain ⟨hregs₂, -, -, hrest⟩ := pushAll_spec (c := pushWord { c with regs := regs } ret)
    (l := contextT) (by omega) (by omega)
  rw [← pushRegs_eq, pushWord_regs] at hregs₂
  dsimp only at hregs₂
  rw [← pushRegs_eq, hsp₁, hmem₁] at hrest
  set c₂ := pushAll (pushWord { c with regs := regs } ret) pushRegs with hc₂
  have hrdi : (c₂.regs .rdi).toNat = r.task + taskRsp := by
    unfold sizeofTask at htask
    rw [hregs₂, hregs, Function.update_of_ne (by decide), Function.update_self,
      toNat_ofNat (by unfold taskRsp; omega)]
  have hpop : ∀ (l : List Reg) (c : Core Reg), (popAll c l).mem = c.mem := by
    intro l
    induction l with
    | nil => exact fun _ => rfl
    | cons q l ih => exact fun c => ih (pop c q)
  have hcall : (callContextSwitch c r.task current ret).mem =
      writeWord c₂.mem (c₂.regs .rdi).toNat (BitVec.ofNat 64 c₂.sp) := by
    simp only [callContextSwitch, contextSwitch, retInstr, hpop, ← hregs, ← hc₂]
  rw [hcall, hrdi, writeWord_of_ne (by omega), hrest x (by omega), writeWord_of_ne (by omega)]

/-- One step keeps what the interrupt has saved, whoever runs. -/
theorem InsideStep.keeps (h : InsideStep taskTrampoline r frame s s')
    (hinv : s.Inv taskTrampoline) (hr : r ∈ s.tasks) {x : ℕ} (hlo : r.lo ≤ frame)
    (hx : frame ≤ x) (hhi : x < r.hi) :
    s'.cpu.mem x = s.cpu.mem x ∧ r ∈ s'.tasks := by
  have hhas : r.Has x := .inr ⟨hlo.trans hx, hhi⟩
  have hwf := hinv.wf r hr
  by_cases hcurrent : s.current = r
  · cases h.step with
    | compute cpu _ _ _ => exact ⟨h.kept hcurrent hcurrent x hx hhi, hr⟩
    | create task stack entry arg cr3 pid _ _ =>
      exact ⟨h.kept hcurrent hcurrent x hx hhi, List.mem_cons_of_mem _ hr⟩
    | switch new ret hswitch =>
      refine ⟨?_, hr⟩
      have hroom := hswitch.room
      have hle := hinv.hi
      have hhi' := hwf.hi_lt
      have hapart := hwf.apart
      rw [sizeofContext_eq] at hroom
      rw [hcurrent] at hle
      have hsp := h.below hcurrent
      have hmem := callContextSwitch_above (c := s.cpu.toCore) (r := r) (by omega) (by omega)
        hwf.task_lt new.task ret (x := x) (by omega)
        (by unfold sizeofTask at hapart; unfold taskRsp; omega)
      show (callContextSwitch s.cpu.toCore s.current.task new.task ret).mem x = s.cpu.mem x
      rw [hcurrent]
      exact hmem
  · cases h.step with
    | compute cpu _ _ hmem => exact ⟨hmem r hr (Ne.symm hcurrent) x (.inr ⟨hlo.trans hx, hhi⟩), hr⟩
    | create task stack entry arg cr3 pid hnew hfresh =>
      refine ⟨?_, List.mem_cons_of_mem _ hr⟩
      exact (taskCreateAt_spec s.cpu.mem taskTrampoline entry arg cr3 pid hnew).2 x
        (hfresh r hr x hhas)
    | switch new ret hswitch =>
      refine ⟨?_, hr⟩
      obtain ⟨-, -, -, -, hrest⟩ := contextSwitch_spec (c := s.cpu.toCore) (hinv.wf _ hinv.current)
        (hinv.wf _ hswitch.mem) hswitch.room hinv.hi
        (hinv.apart _ hswitch.mem _ hinv.current hswitch.ne) (hinv.saved new hswitch.mem hswitch.ne)
        ret
      exact hrest x (hinv.apart r hr _ hinv.current (Ne.symm hcurrent) x hhas)

/-- The state at the first instruction of `irq_handler`, after an interrupt of the running task by
a line; `offset` is the address of the stub, and `handler` that of `irq_handler`. -/
def Ctx.interrupted (s : Ctx) (c : Processor) (stub : Stub) (offset handler ret : Word) : Ctx :=
  let core := stubEnter stub (atStub c offset none).toCore ret
  { s with cpu := { core with rip := handler } }

/-- An interrupt writes to the stack of the running task only. -/
theorem Ctx.Inv.interrupted (h : s.Inv taskTrampoline) (hc : c.toCpu = s.cpu) {line : ℕ}
    (hroom : s.current.lo + 200 ≤ s.cpu.sp) (offset handler ret : Word) :
    let s₁ := s.interrupted c (irqStub line (32 + line)) offset handler ret
    CtxStep taskTrampoline s s₁ ∧ s₁.cpu.sp = alignedSp c - 184 ∧
      Frame s₁.cpu.mem c.regs (alignedSp c - 176) contextT ∧
      Words s₁.cpu.mem (alignedSp c - 40) (c.saves none) ∧
      ∀ x, alignedSp c ≤ x → s₁.cpu.mem x = s.cpu.mem x := by
  intro s₁
  have hcore : c.toCore = s.cpu.toCore := congrArg Cpu.toCore hc
  have hcsp : c.sp = s.cpu.sp := congrArg Core.sp hcore
  have hmem : c.mem = s.cpu.mem := congrArg Core.mem hcore
  have hwf := h.wf _ h.current
  have hhi := h.hi
  have hlt := hwf.hi_lt
  have htop : 184 ≤ alignedSp c ∧ alignedSp c ≤ c.sp ∧ c.sp < alignedSp c + 16 := by
    unfold alignedSp
    omega
  obtain ⟨hsp, -, hframe, hsaved, -, hrest⟩ := stubEnter_spec (irqStub line (32 + line)) none
    { c.toCore with sp := alignedSp c } (c.saves none) ret htop.1 (by dsimp only; omega) rfl rfl
  refine ⟨.compute s _ ?_ ?_ fun r hr hne x hx => ?_, hsp, hframe.regs, hsaved, fun x hx => ?_⟩
  · exact (show s.current.lo ≤ alignedSp c - 184 by omega).trans_eq hsp.symm
  · exact hsp.trans_le (show alignedSp c - 184 ≤ s.current.hi by omega)
  · have hapart : ¬ s.current.Has x :=
      h.apart r hr _ h.current hne x (Region.needs_has hx)
    unfold Region.Has at hapart
    refine (hrest x ?_).trans (congrFun hmem x)
    dsimp only
    omega
  · exact (hrest x (.inr hx)).trans (congrFun hmem x)

/-- **Interrupts are transparent.**  In any run from `scheduler_init` on, the running task is
interrupted by a line.  Whatever happens while it is inside of the interrupt, with any number of
switches to other tasks and interrupts of them: when `irq_handler` returns to the stub on its
stack, `iretq` gives the processor back with all registers, flags and segments as they were, and
the stack of the task is as it was. -/
theorem interrupt_transparent {boot : Region} {cpu : Cpu} (hwf : boot.WF) (hhi : cpu.sp ≤ boot.hi)
    (hrun : ReflTransGen (CtxStep taskTrampoline) (.boot cpu boot) s) (hc : c.toCpu = s.cpu)
    (hroom : s.current.lo + 200 ≤ s.cpu.sp) (line : ℕ)
    {offset handler ret : Word}
    (hinside : ReflTransGen (InsideStep taskTrampoline s.current (alignedSp c - 176))
      (s.interrupted c (irqStub line (32 + line)) offset handler ret) s₂)
    (hback : s₂.cpu.sp = alignedSp c - 176) :
    iretq (stubLeave s₂.cpu.toCore) = { c with mem := s₂.cpu.mem } ∧
      ∀ x, c.sp ≤ x → x < s.current.hi → s₂.cpu.mem x = c.mem x := by
  have hinv : s.Inv taskTrampoline := by
    clear hc hroom hinside
    induction hrun with
    | refl => exact .init hwf hhi
    | tail _ hstep ih => exact ih.step hstep
  have hwf' := hinv.wf _ hinv.current
  have hsphi := hinv.hi
  have hlt := hwf'.hi_lt
  have hmem : c.mem = s.cpu.mem := congrArg (fun cpu : Cpu => cpu.mem) hc
  have hcsp : c.sp = s.cpu.sp := congrArg (fun cpu : Cpu => cpu.sp) hc
  have htop : 184 ≤ alignedSp c ∧ alignedSp c ≤ c.sp ∧ c.sp < alignedSp c + 16 := by
    unfold alignedSp
    omega
  obtain ⟨hstep, -, hframe, hsaved, hstack⟩ := hinv.interrupted hc hroom offset handler ret
  set s₁ := s.interrupted c (irqStub line (32 + line)) offset handler ret
  -- the steps inside keep what is saved
  have hkept : s₂.Inv taskTrampoline ∧ s.current ∈ s₂.tasks ∧
      ∀ x, alignedSp c - 176 ≤ x → x < s.current.hi → s₂.cpu.mem x = s₁.cpu.mem x := by
    clear hback
    induction hinside with
    | refl => exact ⟨hinv.step hstep, hinv.current, fun _ _ _ => rfl⟩
    | @tail s₂ s₃ _ hinside ih =>
      obtain ⟨hinv', hmem', hkept⟩ := ih
      have hlo : s.current.lo ≤ alignedSp c - 176 := by omega
      have hnext : s.current ∈ s₃.tasks := (hinside.keeps hinv' hmem' hlo le_rfl (by omega)).2
      refine ⟨hinv'.step hinside.step, hnext, fun x hx hx' => ?_⟩
      exact (hinside.keeps hinv' hmem' hlo hx hx').1.trans (hkept x hx hx')
  obtain ⟨-, -, hkept⟩ := hkept
  have hlengths : contextT.length = 15 ∧ (c.saves none).length = 5 := ⟨rfl, rfl⟩
  refine ⟨?_, fun x hx hx' => ?_⟩
  · apply stubLeave_spec
    · omega
    · rw [hback]
      exact hframe.congr fun x hx hx' => hkept x hx (by omega)
    · rw [hback, show alignedSp c - 176 + 136 = alignedSp c - 40 by omega]
      exact hsaved.congr fun x hx hx' => hkept x (by omega) (by omega)
    · omega
  · rw [hkept x (by omega) hx', hstack x (by omega), hmem]

/-- The boot task of `twoStacks`, with its flags and segments. -/
def bootProcessor : Processor where
  toCpu := twoStacks.cpu
  rflags := 0x202
  cs := 0x28
  ss := 0x30

/-- It is interrupted by the timer, and the handler switches to the other task, which switches
back. -/
def timerSwitch : Ctx :=
  ((twoStacks.interrupted bootProcessor (irqStub 0 32) 0x600000 0x700000 0x600040).switch
    (createdRegion 0x4000 0x5000) 0x700800).switch ⟨0x1000, 0x2000, 0x3000⟩ 0x700900

theorem interrupt_transparent_example :
    iretq (stubLeave { timerSwitch.cpu.toCore with sp := 0x2750 }) =
      { bootProcessor with mem := timerSwitch.cpu.mem } := by
  have hboot : (⟨0x1000, 0x2000, 0x3000⟩ : Region).WF := ⟨by decide, by decide, by decide⟩
  set s₁ := twoStacks.interrupted bootProcessor (irqStub 0 32) 0x600000 0x700000 0x600040 with hs₁
  have hto : s₁.CanSwitch (createdRegion 0x4000 0x5000) :=
    ⟨List.mem_cons_self, by decide, by decide +kernel⟩
  have hback : (s₁.switch (createdRegion 0x4000 0x5000) 0x700800).CanSwitch
      ⟨0x1000, 0x2000, 0x3000⟩ :=
    ⟨List.mem_cons_of_mem _ (List.mem_singleton_self _), by decide, by decide +kernel⟩
  have hleave : InsideStep 0x400000 ⟨0x1000, 0x2000, 0x3000⟩ 0x2750 s₁
      (s₁.switch (createdRegion 0x4000 0x5000) 0x700800) :=
    ⟨.switch _ _ _ hto, fun _ => by decide +kernel, fun _ h => absurd h (by decide)⟩
  have hreturn : InsideStep 0x400000 ⟨0x1000, 0x2000, 0x3000⟩ 0x2750
      (s₁.switch (createdRegion 0x4000 0x5000) 0x700800) timerSwitch :=
    ⟨.switch _ _ _ hback, fun h => absurd h (by decide), fun h _ => absurd h (by decide)⟩
  -- the handler returns to the stub
  have hret : InsideStep 0x400000 ⟨0x1000, 0x2000, 0x3000⟩ 0x2750 timerSwitch
      { timerSwitch with cpu := { timerSwitch.cpu with sp := 0x2750 } } := by
    refine ⟨.compute _ _ ?_ ?_ fun _ _ _ _ _ => rfl, fun _ => by decide +kernel,
      fun _ _ _ _ _ => rfl⟩
    · decide
    · decide
  exact (interrupt_transparent (c := bootProcessor) hboot (by decide) twoStacks_run rfl
    (by decide) 0 (((ReflTransGen.single hleave).tail hreturn).tail hret) rfl).1

end Bethany
