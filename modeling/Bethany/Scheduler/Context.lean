import Bethany.Library.Stack
import Bethany.Memory.Heap
import Mathlib.Logic.Relation

/-!
# Switching from task to task (`context.asm`, `task_create`)

`context_switch` pushes the registers of the task that runs, stores its stack pointer in the
`rsp` field of its `task_t`, takes the stack pointer of the next task, and pops registers from
there.  `task_create` prepares a stack by hand, so that the first switch to the task finds
something to pop.

* the source: `contextSwitch`, with the macros `pushRegs` and `popRegs`; `contextT`, the fields
  of `context_t`; `taskCreateAt`;
* `Region`: the two pieces of memory of a task; `Saved`: what a task that does not run has there;
* `contextSwitch_spec`, `taskCreateAt_spec`: one switch, and one creation;
* `Ctx`, `CtxStep`: runs, in which tasks compute, create tasks and switch in any order;
* `contextSwitch_preserves`: a task goes on where it was.
-/

namespace Bethany

open Machine Stack Relation

/-! ### The source -/

/-- The general registers but `rsp`. -/
inductive Reg
  | rax | rbx | rcx | rdx | rsi | rdi | rbp | r8 | r9 | r10 | r11 | r12 | r13 | r14 | r15
deriving DecidableEq

/-- The fields of `context_t`, from its first byte on; each has 8 bytes. -/
def contextT : List Reg :=
  [.rax, .rbx, .rcx, .rdx, .rsi, .rdi, .rbp, .r8, .r9, .r10, .r11, .r12, .r13, .r14, .r15]

/-- `offsetof(context_t, r)` -/
def contextOffset (r : Reg) : ℕ := 8 * contextT.idxOf r

/-- `sizeof(context_t)` -/
def sizeofContext : ℕ := 8 * contextT.length

/-- `POP_REGS` -/
def popRegs : List Reg :=
  [.rax, .rbx, .rcx, .rdx, .rsi, .rdi, .rbp, .r8, .r9, .r10, .r11, .r12, .r13, .r14, .r15]

/-- `PUSH_REGS` -/
def pushRegs : List Reg :=
  [.r15, .r14, .r13, .r12, .r11, .r10, .r9, .r8, .rbp, .rdi, .rsi, .rdx, .rcx, .rbx, .rax]

/-- The processor, with the address of the next instruction. -/
structure Cpu extends Core Reg where
  rip : Word

/-- `ret` -/
def retInstr (c : Core Reg) : Cpu :=
  { regs := c.regs, sp := u64 (c.sp + 8), mem := c.mem, rip := readWord c.mem c.sp }

/-- `context_switch` -/
def contextSwitch (c : Core Reg) : Cpu :=
  let c := pushAll c pushRegs
  -- `mov [rdi], rsp`
  let c := { c with mem := writeWord c.mem (c.regs .rdi).toNat (BitVec.ofNat 64 c.sp) }
  -- `mov rsp, rsi`
  let c := { c with sp := (c.regs .rsi).toNat }
  retInstr (popAll c popRegs)

/-! The fields of `task_t`, by their offsets. -/

def taskPid : ℕ := 0
def taskRsp : ℕ := 8
def taskCr3 : ℕ := 16
def taskWakeTick : ℕ := 24
def taskStack : ℕ := 32
def taskStackSize : ℕ := 40
def taskEntry : ℕ := 48
def taskState : ℕ := 56
def taskArg : ℕ := 64
def taskNext : ℕ := 72
def taskWaiters : ℕ := 80
def taskWaitNext : ℕ := 88

/-- `sizeof(task_t)` -/
def sizeofTask : ℕ := 96

/-- `TASK_STACK_SIZE` -/
def stackSize : ℕ := 4 * 1024

/-- The end of `scheduler_schedule`: `context_switch(&old->rsp, current->rsp)`, with `ret` the
address behind the call. -/
def callContextSwitch (c : Core Reg) (old current : ℕ) (ret : Word) : Cpu :=
  let rsi := readWord c.mem (current + taskRsp)
  let regs := Function.update (Function.update c.regs .rdi (BitVec.ofNat 64 (old + taskRsp)))
    .rsi rsi
  contextSwitch (pushWord { c with regs := regs } ret)

/-- The first half of `task_create`: the stack that `kmalloc` has returned is prepared, and the
stack pointer for the task found. -/
def prepareStack (m : Mem) (taskTrampoline : Word) (stack : ℕ) (entry arg : Word) : ℕ × Mem :=
  let stackTop := u64 (stack + stackSize)
  let stackTop := stackTop &&& (2 ^ 64 - 1 - 0xF)
  let stackTop := stackTop - 8
  let m := writeWord m stackTop taskTrampoline
  let ctx := stackTop - sizeofContext
  let m := fill m ctx sizeofContext 0
  let m := writeWord m (ctx + contextOffset .rdi) entry
  let m := writeWord m (ctx + contextOffset .rsi) arg
  (ctx, m)

/-- The second half of `task_create`: the fields of the `task_t`.  `TASK_READY` is 0. -/
def fillTask (m : Mem) (task stack ctx : ℕ) (entry arg cr3 pid : Word) : Mem :=
  let m := writeWord m (task + taskPid) pid
  let m := writeWord m (task + taskRsp) (BitVec.ofNat 64 ctx)
  let m := writeWord m (task + taskCr3) cr3
  let m := writeWord m (task + taskStack) (BitVec.ofNat 64 stack)
  let m := writeWord m (task + taskStackSize) (BitVec.ofNat 64 stackSize)
  let m := writeWord m (task + taskEntry) entry
  let m := writeWord m (task + taskArg) arg
  let m := store m (task + taskState) 4 0
  let m := writeWord m (task + taskWakeTick) 0
  let m := writeWord m (task + taskNext) 0
  let m := writeWord m (task + taskWaiters) 0
  writeWord m (task + taskWaitNext) 0

/-- `task_create`, when `kmalloc` has returned `task` and `stack`. -/
def taskCreateAt (m : Mem) (taskTrampoline : Word) (task stack : ℕ) (entry arg cr3 pid : Word) :
    Mem :=
  match prepareStack m taskTrampoline stack entry arg with
  | (ctx, m) => fillTask m task stack ctx entry arg cr3 pid

/-- The macros follow `context_t`. -/
theorem popRegs_eq : popRegs = contextT := rfl
theorem pushRegs_eq : pushRegs = contextT.reverse := rfl

theorem contextT_nodup : contextT.Nodup := by decide

theorem mem_contextT (r : Reg) : r ∈ contextT := by
  cases r <;> decide

theorem sizeofContext_eq : sizeofContext = 120 := rfl

/-! ### The memory of a task -/

/-- The `task_t` of a task and its stack. -/
structure Region where
  task : ℕ
  lo : ℕ
  hi : ℕ
deriving DecidableEq

/-- The bytes of a task. -/
def Region.Has (r : Region) (x : ℕ) : Prop :=
  (r.task ≤ x ∧ x < r.task + sizeofTask) ∨ (r.lo ≤ x ∧ x < r.hi)

/-- The bytes that a task needs while it does not run: its stack and its `rsp`. -/
def Region.Needs (r : Region) (x : ℕ) : Prop :=
  (r.task + taskRsp ≤ x ∧ x < r.task + taskRsp + 8) ∨ (r.lo ≤ x ∧ x < r.hi)

/-- The two pieces are different memory, below `2 ^ 64`. -/
structure Region.WF (r : Region) : Prop where
  task_lt : r.task + sizeofTask < 2 ^ 64
  hi_lt : r.hi < 2 ^ 64
  apart : r.task + sizeofTask ≤ r.lo ∨ r.hi ≤ r.task

/-- Two tasks share no memory. -/
def Region.Apart (r q : Region) : Prop := ∀ x, r.Has x → ¬ q.Has x

/-- What a task was when it left the processor. -/
structure Snapshot where
  regs : Reg → Word
  sp : ℕ
  rip : Word

/-- The memory of a task that does not run: `rsp` leads to its registers, and above them is the
address that it goes on at. -/
structure Saved (m : Mem) (r : Region) (t : Snapshot) : Prop where
  lo : r.lo + sizeofContext + 8 ≤ t.sp
  hi : t.sp ≤ r.hi
  rsp : readWord m (r.task + taskRsp) = BitVec.ofNat 64 (t.sp - 8 - sizeofContext)
  frame : Frame m t.regs (t.sp - 8 - sizeofContext) contextT
  ret : readWord m (t.sp - 8) = t.rip

variable {m m' : Mem} {c : Core Reg} {r q new : Region} {t : Snapshot}

theorem Region.needs_has (h : r.Needs x) : r.Has x := by
  unfold Region.Needs taskRsp at h
  unfold Region.Has sizeofTask
  omega

/-- What is saved stays as long as nobody writes there. -/
theorem Saved.congr (h : Saved m r t) (hm : ∀ x, r.Needs x → m' x = m x) : Saved m' r t := by
  have hlo := h.lo
  have hhi := h.hi
  rw [sizeofContext_eq] at hlo
  refine ⟨h.lo, h.hi, ?_, h.frame.congr fun x hx hx' => hm x (.inr ?_), ?_⟩
  · rw [← h.rsp]
    exact readWord_congr fun x hx hx' => hm x (.inl ⟨hx, hx'⟩)
  · rw [sizeofContext_eq] at hx hx'
    rw [show contextT.length = 15 from rfl] at hx'
    omega
  · rw [← h.ret]
    refine readWord_congr fun x hx hx' => hm x (.inr ?_)
    omega

/-! ### One switch -/

theorem toNat_ofNat {n : ℕ} (h : n < 2 ^ 64) : (BitVec.ofNat 64 n).toNat = n := by
  rw [BitVec.toNat_ofNat, Nat.mod_eq_of_lt h]

/-- Popping what is saved for a task, from where its `rsp` leads, gives its state. -/
theorem Saved.resume (h : Saved c.mem r t) (hwf : r.WF) (hsp : c.sp = t.sp - 8 - sizeofContext) :
    (retInstr (popAll c popRegs)).regs = t.regs ∧ (retInstr (popAll c popRegs)).sp = t.sp ∧
      (retInstr (popAll c popRegs)).rip = t.rip ∧ (retInstr (popAll c popRegs)).mem = c.mem := by
  have hlo := h.lo
  have hhi := h.hi
  have hlt := hwf.hi_lt
  have hframe := h.frame
  have hlen : 8 * contextT.length = 120 := rfl
  rw [sizeofContext_eq] at hlo hsp
  rw [sizeofContext_eq, ← hsp] at hframe
  obtain ⟨hregs, hsp', hmem⟩ := popAll_spec hframe (by omega)
  rw [popRegs_eq]
  refine ⟨?_, ?_, ?_, hmem⟩
  · funext x
    exact (hregs x).trans (if_pos (mem_contextT x))
  · show u64 ((popAll c contextT).sp + 8) = t.sp
    rw [hsp', u64_of_lt (by omega)]
    omega
  · show readWord (popAll c contextT).mem (popAll c contextT).sp = t.rip
    rw [hmem, hsp', hlen, show c.sp + 120 = t.sp - 8 by omega]
    exact h.ret

/-- What a task leaves behind when it has pushed its registers and stored its stack pointer. -/
theorem saved_push (hwf : r.WF) (hlo : r.lo + sizeofContext + 8 ≤ c.sp) (hhi : c.sp ≤ r.hi)
    (ret : Word) :
    let c₂ := pushAll (pushWord c ret) pushRegs
    c₂.regs = c.regs ∧
      Saved (writeWord c₂.mem (r.task + taskRsp) (BitVec.ofNat 64 c₂.sp)) r ⟨c.regs, c.sp, ret⟩ ∧
      ∀ x, ¬ r.Has x →
        writeWord c₂.mem (r.task + taskRsp) (BitVec.ofNat 64 c₂.sp) x = c.mem x := by
  intro c₂
  have hlt := hwf.hi_lt
  have hpieces := hwf.apart
  have hlen : 8 * contextT.length = 120 := rfl
  have hlo' := hlo
  rw [sizeofContext_eq] at hlo'
  have hsp₁ : (pushWord c ret).sp = c.sp - 8 := pushWord_sp (by omega) (by omega) ret
  have hmem₁ : (pushWord c ret).mem = writeWord c.mem (c.sp - 8) ret :=
    pushWord_mem (by omega) (by omega) ret
  obtain ⟨hregs₂, hsp₂, hframe, hrest⟩ := pushAll_spec (c := pushWord c ret) (l := contextT)
    (by omega) (by omega)
  rw [pushWord_regs] at hregs₂ hframe
  rw [hsp₁, hlen] at hsp₂ hframe hrest
  rw [hmem₁] at hrest
  rw [← pushRegs_eq] at hregs₂ hsp₂ hframe hrest
  have hstruct : r.task + taskRsp + 8 ≤ r.lo ∨ r.hi ≤ r.task + taskRsp := by
    unfold sizeofTask at hpieces
    unfold taskRsp
    omega
  refine ⟨hregs₂, ⟨hlo, hhi, ?_, ?_, ?_⟩, fun x hx => ?_⟩
  · rw [readWord_writeWord, sizeofContext_eq]
    exact congrArg _ hsp₂
  · rw [sizeofContext_eq]
    refine hframe.congr fun x hx hx' => writeWord_of_ne ?_
    omega
  · rw [readWord_writeWord_of_ne (by dsimp only; omega)]
    dsimp only
    have hword : readWord c₂.mem (c.sp - 8) =
        readWord (writeWord c.mem (c.sp - 8) ret) (c.sp - 8) :=
      readWord_congr fun x hx _ => hrest x (by omega)
    rw [hword, readWord_writeWord]
  · unfold Region.Has sizeofTask at hx
    rw [writeWord_of_ne (by unfold taskRsp; omega)]
    refine (hrest x (by omega)).trans (writeWord_of_ne (by omega))

/-- **One switch.**  The processor has the state of the next task, and that of the old one is
saved.  Only memory of the old task is written. -/
theorem contextSwitch_spec (hold : r.WF) (hnew : new.WF) (hlo : r.lo + sizeofContext + 8 ≤ c.sp)
    (hhi : c.sp ≤ r.hi) (hapart : new.Apart r) (ht : Saved c.mem new t) (ret : Word) :
    (callContextSwitch c r.task new.task ret).regs = t.regs ∧
      (callContextSwitch c r.task new.task ret).sp = t.sp ∧
      (callContextSwitch c r.task new.task ret).rip = t.rip ∧
      Saved (callContextSwitch c r.task new.task ret).mem r
        { regs := Function.update (Function.update c.regs .rdi
            (BitVec.ofNat 64 (r.task + taskRsp))) .rsi (readWord c.mem (new.task + taskRsp))
          sp := c.sp
          rip := ret } ∧
      ∀ x, ¬ r.Has x → (callContextSwitch c r.task new.task ret).mem x = c.mem x := by
  set regs := Function.update (Function.update c.regs .rdi (BitVec.ofNat 64 (r.task + taskRsp)))
    .rsi (readWord c.mem (new.task + taskRsp)) with hregs
  obtain ⟨hregs₂, hsaved, hother⟩ := saved_push (c := { c with regs := regs }) hold hlo hhi ret
  dsimp only at hregs₂ hsaved hother
  set c₂ := pushAll (pushWord { c with regs := regs } ret) pushRegs with hc₂
  have hrdi : (c₂.regs .rdi).toNat = r.task + taskRsp := by
    have hlt := hold.task_lt
    unfold sizeofTask at hlt
    rw [hregs₂, hregs, Function.update_of_ne (by decide), Function.update_self,
      toNat_ofNat (by unfold taskRsp; omega)]
  have hrsi : (c₂.regs .rsi).toNat = t.sp - 8 - sizeofContext := by
    have hlt := hnew.hi_lt
    have hhi := ht.hi
    rw [hregs₂, hregs, Function.update_self, ht.rsp, toNat_ofNat (by omega)]
  have hneeds : ∀ x, new.Needs x →
      writeWord c₂.mem (r.task + taskRsp) (BitVec.ofNat 64 c₂.sp) x = c.mem x :=
    fun x hx => hother x (hapart x (Region.needs_has hx))
  have ht' := ht.congr hneeds
  have hcall : callContextSwitch c r.task new.task ret = retInstr (popAll
      { regs := c₂.regs
        sp := (c₂.regs .rsi).toNat
        mem := writeWord c₂.mem (c₂.regs .rdi).toNat (BitVec.ofNat 64 c₂.sp) } popRegs) := by
    simp only [callContextSwitch, contextSwitch, ← hregs, ← hc₂]
  rw [hrsi, hrdi] at hcall
  have hresume := Saved.resume (c := ⟨c₂.regs, t.sp - 8 - sizeofContext,
    writeWord c₂.mem (r.task + taskRsp) (BitVec.ofNat 64 c₂.sp)⟩) ht' hnew rfl
  obtain ⟨h₁, h₂, h₃, h₄⟩ := hresume
  rw [hcall, h₁, h₂, h₃, h₄]
  exact ⟨rfl, rfl, rfl, hsaved, hother⟩

/-! ### One creation -/

/-- The region of a task that `task_create` makes. -/
def createdRegion (task stack : ℕ) : Region := ⟨task, stack, stack + stackSize⟩

/-- The end of the stack of a new task. -/
def stackTop (stack : ℕ) : ℕ := (stack + stackSize) / 16 * 16

/-- The state that a new task starts in. -/
def startOf (taskTrampoline : Word) (stack : ℕ) (entry arg : Word) : Snapshot where
  regs := Function.update (Function.update (fun _ => 0) .rdi entry) .rsi arg
  sp := stackTop stack
  rip := taskTrampoline

variable {taskTrampoline entry arg cr3 pid : Word} {task stack ctx : ℕ}

/-- The fields of the `task_t` are written, and nothing else. -/
theorem fillTask_spec (m : Mem) (task stack ctx : ℕ) (entry arg cr3 pid : Word) :
    readWord (fillTask m task stack ctx entry arg cr3 pid) (task + taskRsp) =
        BitVec.ofNat 64 ctx ∧
      ∀ x, ¬ (task ≤ x ∧ x < task + sizeofTask) →
        fillTask m task stack ctx entry arg cr3 pid x = m x := by
  have hstore : ∀ (m : Mem) (a : ℕ), a + 8 ≤ task + taskState →
      readWord (store m (task + taskState) 4 0) a = readWord m a := fun m a h => by
    unfold readWord
    rw [load_store_disjoint (.inr h)]
  simp only [taskState] at hstore
  simp only [fillTask, taskPid, taskRsp, taskCr3, taskWakeTick, taskStack, taskStackSize, taskEntry,
    taskState, taskArg, taskNext, taskWaiters, taskWaitNext, sizeofTask]
  constructor
  · simp (disch := omega) only [readWord_writeWord_of_ne, hstore, readWord_writeWord]
  · intro x hx
    have hstate : ∀ m : Mem, store m (task + 56) 4 0 x = m x := fun m => if_neg (by omega)
    simp (disch := omega) only [writeWord_of_ne, hstate]

/-- The prepared stack holds what the first switch to the task pops. -/
theorem prepareStack_spec (m : Mem) (taskTrampoline : Word) (entry arg : Word)
    (hlt : stack + stackSize < 2 ^ 64) :
    (prepareStack m taskTrampoline stack entry arg).1 = stackTop stack - 8 - sizeofContext ∧
      Frame (prepareStack m taskTrampoline stack entry arg).2
        (startOf taskTrampoline stack entry arg).regs (stackTop stack - 8 - sizeofContext)
        contextT ∧
      readWord (prepareStack m taskTrampoline stack entry arg).2 (stackTop stack - 8) =
        taskTrampoline ∧
      ∀ x, ¬ (stack ≤ x ∧ x < stack + stackSize) →
        (prepareStack m taskTrampoline stack entry arg).2 x = m x := by
  have htop : u64 (stack + stackSize) &&& (2 ^ 64 - 1 - 0xF) = stackTop stack := by
    rw [u64_of_lt hlt]
    exact and_alignMask hlt
  have hle : stack + stackSize ≤ stackTop stack + 15 ∧ stackTop stack ≤ stack + stackSize := by
    unfold stackTop
    omega
  have hrdi : contextOffset .rdi = 40 := by decide
  have hrsi : contextOffset .rsi = 32 := by decide
  simp only [prepareStack, htop]
  set top := stackTop stack
  have hsize : stackSize = 4096 := rfl
  rw [hsize] at hle
  refine ⟨trivial, ?_, ?_, fun x hx => ?_⟩
  · have hzero : Frame (fill (writeWord m (top - 8) taskTrampoline) (top - 8 - sizeofContext)
        sizeofContext 0) (fun _ : Reg => 0) (top - 8 - sizeofContext) contextT :=
      frame_fill _ le_rfl le_rfl
    exact (hzero.write contextT_nodup (mem_contextT .rdi) entry).write contextT_nodup
      (mem_contextT .rsi) arg
  · rw [hrdi, hrsi, sizeofContext_eq, readWord_writeWord_of_ne (by omega),
      readWord_writeWord_of_ne (by omega)]
    have hword : readWord (fill (writeWord m (top - 8) taskTrampoline) (top - 8 - 120) 120 0)
        (top - 8) = readWord (writeWord m (top - 8) taskTrampoline) (top - 8) :=
      readWord_congr fun x hx _ => if_neg (by omega)
    rw [hword, readWord_writeWord]
  · rw [hsize] at hx
    rw [hrdi, hrsi, sizeofContext_eq, writeWord_of_ne (by omega), writeWord_of_ne (by omega)]
    refine (if_neg (by omega)).trans (writeWord_of_ne (by omega))

/-- **One creation** leaves a task that starts at the trampoline. -/
theorem taskCreateAt_spec (m : Mem) (taskTrampoline entry arg cr3 pid : Word)
    (hwf : (createdRegion task stack).WF) :
    Saved (taskCreateAt m taskTrampoline task stack entry arg cr3 pid) (createdRegion task stack)
        (startOf taskTrampoline stack entry arg) ∧
      ∀ x, ¬ (createdRegion task stack).Has x →
        taskCreateAt m taskTrampoline task stack entry arg cr3 pid x = m x := by
  have hlt : stack + stackSize < 2 ^ 64 := hwf.hi_lt
  have hpieces : task + sizeofTask ≤ stack ∨ stack + stackSize ≤ task := hwf.apart
  obtain ⟨hctx, hframe, hret, hrest⟩ := prepareStack_spec m taskTrampoline entry arg hlt
  obtain ⟨hrsp, hfields⟩ := fillTask_spec (prepareStack m taskTrampoline stack entry arg).2 task
    stack (prepareStack m taskTrampoline stack entry arg).1 entry arg cr3 pid
  have hle : stack + stackSize ≤ stackTop stack + 15 ∧ stackTop stack ≤ stack + stackSize := by
    unfold stackTop
    omega
  have hsize : stackSize = 4096 := rfl
  have hsp : (startOf taskTrampoline stack entry arg).sp = stackTop stack := rfl
  have hoff : ∀ x, stack ≤ x → x < stack + stackSize → ¬ (task ≤ x ∧ x < task + sizeofTask) := by
    intro x hlo hhi
    omega
  have hmem : ∀ x, stack ≤ x → x < stack + stackSize →
      taskCreateAt m taskTrampoline task stack entry arg cr3 pid x =
        (prepareStack m taskTrampoline stack entry arg).2 x := fun x hlo hhi =>
    hfields x (hoff x hlo hhi)
  refine ⟨⟨?_, hle.2, ?_, hframe.congr fun x hx hx' => hmem x ?_ ?_, ?_⟩, fun x hx => ?_⟩
  · show stack + sizeofContext + 8 ≤ stackTop stack
    rw [sizeofContext_eq]
    omega
  · refine hrsp.trans ?_
    rw [hctx]
    rfl
  · rw [sizeofContext_eq] at hx
    omega
  · rw [sizeofContext_eq, show contextT.length = 15 from rfl] at hx'
    omega
  · refine (readWord_congr fun x hx hx' => hmem x ?_ ?_).trans hret
    · rw [hsp] at hx
      omega
    · rw [hsp] at hx'
      omega
  · unfold Region.Has createdRegion at hx
    dsimp only at hx
    refine (hfields x (by omega)).trans (hrest x (by omega))

/-! ### Runs -/

/-- How a task left the processor: it has never had it, or it was switched away from. -/
inductive Departure
  | created (entry arg : Word) (stack : ℕ)
  | suspended (t : Snapshot)

/-- The processor and the tasks.  `left` records how each task that does not run left the
processor. -/
structure Ctx where
  cpu : Cpu
  tasks : List Region
  current : Region
  left : ℕ → Departure

/-- The state of the task that calls `context_switch`, at the call: `rdi` and `rsi` have the
arguments. -/
def Ctx.atCall (s : Ctx) (new : Region) (ret : Word) : Snapshot where
  regs := Function.update (Function.update s.cpu.regs .rdi
    (BitVec.ofNat 64 (s.current.task + taskRsp))) .rsi
    (readWord s.cpu.mem (new.task + taskRsp))
  sp := s.cpu.sp
  rip := ret

/-- The state after the running task has called `context_switch` for another one. -/
def Ctx.switch (s : Ctx) (new : Region) (ret : Word) : Ctx where
  cpu := callContextSwitch s.cpu.toCore s.current.task new.task ret
  tasks := s.tasks
  current := new
  left := Function.update s.left s.current.task (.suspended (s.atCall new ret))

/-- The state after the running task has called `task_create`. -/
def Ctx.create (s : Ctx) (taskTrampoline : Word) (task stack : ℕ) (entry arg cr3 pid : Word) :
    Ctx where
  cpu := { s.cpu with mem := taskCreateAt s.cpu.mem taskTrampoline task stack entry arg cr3 pid }
  tasks := createdRegion task stack :: s.tasks
  current := s.current
  left := Function.update s.left task (.created entry arg stack)

/-- A switch to another task; the running one has room on its stack. -/
structure Ctx.CanSwitch (s : Ctx) (new : Region) : Prop where
  mem : new ∈ s.tasks
  ne : new ≠ s.current
  room : s.current.lo + sizeofContext + 8 ≤ s.cpu.sp

/-- One step.  A task that runs does what it likes with the registers and with all memory but the
stacks and the `rsp` fields of the others; its stack pointer stays in its stack.  `kmalloc`
returns memory that no task has. -/
inductive CtxStep (taskTrampoline : Word) : Ctx → Ctx → Prop
  | compute (s : Ctx) (cpu : Cpu) (hlo : s.current.lo ≤ cpu.sp) (hhi : cpu.sp ≤ s.current.hi)
      (hmem : ∀ r ∈ s.tasks, r ≠ s.current → ∀ x, r.Needs x → cpu.mem x = s.cpu.mem x) :
      CtxStep taskTrampoline s { s with cpu := cpu }
  | create (s : Ctx) (task stack : ℕ) (entry arg cr3 pid : Word)
      (hwf : (createdRegion task stack).WF)
      (hfresh : ∀ r ∈ s.tasks, r.Apart (createdRegion task stack)) :
      CtxStep taskTrampoline s (s.create taskTrampoline task stack entry arg cr3 pid)
  | switch (s : Ctx) (new : Region) (ret : Word) (h : s.CanSwitch new) :
      CtxStep taskTrampoline s (s.switch new ret)

/-- The boot task, on the stack it has from the loader, after `scheduler_init`. -/
def Ctx.boot (cpu : Cpu) (boot : Region) : Ctx where
  cpu := cpu
  tasks := [boot]
  current := boot
  left := fun _ => .created 0 0 0

/-- The processor goes on with a task as the task was left. -/
def Departure.Resumes (taskTrampoline : Word) : Departure → Cpu → Prop
  | .created entry arg stack, cpu => cpu.rip = taskTrampoline ∧ cpu.regs .rdi = entry ∧
      cpu.regs .rsi = arg ∧ stack ≤ cpu.sp ∧ cpu.sp ≤ stack + stackSize
  | .suspended t, cpu => cpu.regs = t.regs ∧ cpu.sp = t.sp ∧ cpu.rip = t.rip

/-- The state that the record of a task stands for. -/
def Departure.snapshot (taskTrampoline : Word) : Departure → Snapshot
  | .created entry arg stack => startOf taskTrampoline stack entry arg
  | .suspended t => t

/-- The tasks have memory of their own, and every task that does not run has there what it left
with. -/
structure Ctx.Inv (taskTrampoline : Word) (s : Ctx) : Prop where
  wf : ∀ r ∈ s.tasks, r.WF
  apart : ∀ r ∈ s.tasks, ∀ q ∈ s.tasks, r ≠ q → r.Apart q
  current : s.current ∈ s.tasks
  hi : s.cpu.sp ≤ s.current.hi
  saved : ∀ r ∈ s.tasks, r ≠ s.current →
    Saved s.cpu.mem r ((s.left r.task).snapshot taskTrampoline)

variable {s s' : Ctx} {boot : Region} {cpu : Cpu}

theorem Region.Apart.symm (h : r.Apart q) : q.Apart r := fun x hq hr => h x hr hq

/-- Tasks that share no memory have different pointers. -/
theorem Region.Apart.task_ne (h : r.Apart q) : r.task ≠ q.task := by
  intro heq
  refine h r.task ?_ ?_
  · unfold Region.Has sizeofTask
    omega
  · unfold Region.Has sizeofTask
    omega

theorem Ctx.Inv.init (hwf : boot.WF) (hhi : cpu.sp ≤ boot.hi) :
    (Ctx.boot cpu boot).Inv taskTrampoline where
  wf r hr := by
    obtain rfl := List.mem_singleton.mp hr
    exact hwf
  apart r hr q hq hne :=
    absurd ((List.mem_singleton.mp hr).trans (List.mem_singleton.mp hq).symm) hne
  current := List.mem_singleton_self boot
  hi := hhi
  saved r hr hne := absurd (List.mem_singleton.mp hr) hne

theorem Ctx.Inv.create (h : s.Inv taskTrampoline) (hwf : (createdRegion task stack).WF)
    (hfresh : ∀ r ∈ s.tasks, r.Apart (createdRegion task stack)) (entry arg cr3 pid : Word) :
    (s.create taskTrampoline task stack entry arg cr3 pid).Inv taskTrampoline := by
  obtain ⟨hnew, hrest⟩ := taskCreateAt_spec s.cpu.mem taskTrampoline entry arg cr3 pid hwf
  refine ⟨fun r hr => ?_, fun r hr q hq hne => ?_, List.mem_cons_of_mem _ h.current, h.hi,
    fun r hr hne => ?_⟩
  · rcases List.mem_cons.mp hr with rfl | hr
    · exact hwf
    · exact h.wf r hr
  · rcases List.mem_cons.mp hr with rfl | hr
    · rcases List.mem_cons.mp hq with rfl | hq
      · exact absurd rfl hne
      · exact (hfresh q hq).symm
    · rcases List.mem_cons.mp hq with rfl | hq
      · exact hfresh r hr
      · exact h.apart r hr q hq hne
  · rcases List.mem_cons.mp hr with rfl | hr
    · simp only [Ctx.create, createdRegion, Function.update_self]
      exact hnew
    · have hapart := hfresh r hr
      have hptr : r.task ≠ task := hapart.task_ne
      simp only [Ctx.create, Function.update_of_ne hptr]
      refine (h.saved r hr hne).congr fun x hx => ?_
      exact hrest x (hapart x (Region.needs_has hx))

/-- A switch gives the next task the processor as it left it, and keeps the invariant. -/
theorem Ctx.Inv.switch (h : s.Inv taskTrampoline) (hswitch : s.CanSwitch new) (ret : Word) :
    (s.switch new ret).Inv taskTrampoline ∧
      (s.switch new ret).cpu.regs = ((s.left new.task).snapshot taskTrampoline).regs ∧
      (s.switch new ret).cpu.sp = ((s.left new.task).snapshot taskTrampoline).sp ∧
      (s.switch new ret).cpu.rip = ((s.left new.task).snapshot taskTrampoline).rip := by
  have hsaved := h.saved new hswitch.mem hswitch.ne
  obtain ⟨hregs, hsp, hrip, hold, hrest⟩ := contextSwitch_spec (c := s.cpu.toCore)
    (h.wf _ h.current) (h.wf _ hswitch.mem) hswitch.room h.hi
    (h.apart _ hswitch.mem _ h.current hswitch.ne) hsaved ret
  refine ⟨⟨h.wf, h.apart, hswitch.mem, ?_, fun r hr hne => ?_⟩, hregs, hsp, hrip⟩
  · exact hsp.trans_le hsaved.hi
  · by_cases heq : r = s.current
    · subst heq
      simp only [Ctx.switch, Function.update_self]
      exact hold
    · have hapart := h.apart r hr _ h.current heq
      simp only [Ctx.switch, Function.update_of_ne hapart.task_ne]
      refine (h.saved r hr heq).congr fun x hx => ?_
      exact hrest x (hapart x (Region.needs_has hx))

theorem Ctx.Inv.step (h : s.Inv taskTrampoline) (hstep : CtxStep taskTrampoline s s') :
    s'.Inv taskTrampoline := by
  cases hstep with
  | compute cpu hlo hhi hmem =>
    exact ⟨h.wf, h.apart, h.current, hhi, fun r hr hne =>
      (h.saved r hr hne).congr (hmem r hr hne)⟩
  | create task stack entry arg cr3 pid hwf hfresh => exact h.create hwf hfresh entry arg cr3 pid
  | switch new ret hswitch => exact (h.switch hswitch ret).1

/-- **A task goes on where it was.**  After any run, whenever the processor is switched to a task,
its registers, its stack pointer and the address it continues at are those it called
`context_switch` with; a task that has not run yet starts at the trampoline with its entry and
argument, on its own stack. -/
theorem contextSwitch_preserves (hwf : boot.WF) (hhi : cpu.sp ≤ boot.hi)
    (hrun : ReflTransGen (CtxStep taskTrampoline) (.boot cpu boot) s) (hswitch : s.CanSwitch new)
    (ret : Word) :
    (s.left new.task).Resumes taskTrampoline (s.switch new ret).cpu := by
  have h : s.Inv taskTrampoline := by
    clear hswitch
    induction hrun with
    | refl => exact .init hwf hhi
    | tail _ hstep ih => exact ih.step hstep
  obtain ⟨-, hregs, hsp, hrip⟩ := h.switch hswitch ret
  cases hleft : s.left new.task with
  | suspended t =>
    rw [hleft] at hregs hsp hrip
    exact ⟨hregs, hsp, hrip⟩
  | created entry arg stack =>
    rw [hleft] at hregs hsp hrip
    have hle : stack + stackSize ≤ stackTop stack + 15 ∧ stackTop stack ≤ stack + stackSize := by
      unfold stackTop
      omega
    have hsize : stackSize = 4096 := rfl
    have hsp' : (s.switch new ret).cpu.sp = stackTop stack := hsp
    refine ⟨hrip, ?_, ?_, by omega, by omega⟩
    · rw [hregs]
      rfl
    · rw [hregs]
      rfl

/-- The boot task with its stack below `0x3000`, and one task with its stack below `0x6000`. -/
def twoStacks : Ctx :=
  (Ctx.boot { regs := fun _ => 7, sp := 0x2800, mem := fun _ => 0, rip := 0 }
    ⟨0x1000, 0x2000, 0x3000⟩).create 0x400000 0x4000 0x5000 0x401000 0x42 0 1

theorem twoStacks_run : ReflTransGen (CtxStep 0x400000)
    (.boot { regs := fun _ => 7, sp := 0x2800, mem := fun _ => 0, rip := 0 }
      ⟨0x1000, 0x2000, 0x3000⟩) twoStacks := by
  refine .single (.create _ 0x4000 0x5000 0x401000 0x42 0 1 ⟨by decide, by decide, by decide⟩
    fun r hr x hx hx' => ?_)
  obtain rfl := List.mem_singleton.mp hr
  unfold Region.Has sizeofTask at hx hx'
  unfold createdRegion stackSize at hx'
  dsimp only at hx hx'
  omega

theorem contextSwitch_preserves_example :
    (twoStacks.switch (createdRegion 0x4000 0x5000) 0x400800).cpu.rip = 0x400000 ∧
      ((twoStacks.switch (createdRegion 0x4000 0x5000) 0x400800).switch
        ⟨0x1000, 0x2000, 0x3000⟩ 0x400900).cpu.rip = 0x400800 := by
  have hboot : (⟨0x1000, 0x2000, 0x3000⟩ : Region).WF := ⟨by decide, by decide, by decide⟩
  have hnew : twoStacks.CanSwitch (createdRegion 0x4000 0x5000) :=
    ⟨List.mem_cons_self, by decide, by decide⟩
  have hback : (twoStacks.switch (createdRegion 0x4000 0x5000) 0x400800).CanSwitch
      ⟨0x1000, 0x2000, 0x3000⟩ :=
    ⟨List.mem_cons_of_mem _ (List.mem_singleton_self _), by decide, by decide +kernel⟩
  have hfirst := contextSwitch_preserves hboot (by decide) twoStacks_run hnew 0x400800
  have hsecond := contextSwitch_preserves hboot (by decide)
    (twoStacks_run.tail (.switch _ _ 0x400800 hnew)) hback 0x400900
  exact ⟨hfirst.1, hsecond.2.2⟩

end Bethany
