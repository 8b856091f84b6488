import Bethany.Sync.Runs

/-!
# The bounded queue (`queue.c`)

* `Queue`, `queueInit`: the queue;
* `Queue.put`, `Queue.take`: what `queue_push` and `queue_pop` do to it while they hold its lock;
  `queuePush`, `queuePop`: the functions, for a caller that keeps control;
* `QueueCall`, `QueueStep`, `Shared`, `Shared.Step`: tasks that use a queue, step by step, with the
  items written and read and the slots in use as a history of the run;
* `Shared.run_push`, `Shared.run_pop`: the steps make up the functions.
-/

namespace Bethany

open Machine LinkedList Relation

/-! ### The queue -/

/-- The two semaphores of a queue. -/
inductive QueueSem
  | items
  | space
deriving DecidableEq

/-- `queue_t`: `buffer` gives the slots, and is `none` where it is `NULL`; `items`, `space` and
`lock` are the numbers of its semaphores and its mutex. -/
structure Queue where
  buffer : Option (ℕ → ℕ)
  capacity : ℕ
  head : ℕ
  tail : ℕ
  size : ℕ
  items : ℕ
  space : ℕ
  lock : ℕ
  apart : items ≠ space

/-- The number of one of the semaphores. -/
def Queue.sem (queue : Queue) : QueueSem → ℕ
  | .items => queue.items
  | .space => queue.space

/-- The objects of a queue that tasks wait for. -/
def Queue.objects (queue : Queue) : List WaitObj :=
  [.semaphore queue.items, .semaphore queue.space, .mutex queue.lock]

/-- `sizeof(void *)` -/
def sizeofPointer : ℕ := 8

/-- `queue_init`; `kmalloc` gives the slots that it returns for a size in bytes. -/
def queueInit (s : Sys) (queue : Option Queue) (capacity : ℕ) (kmalloc : ℕ → Option (ℕ → ℕ)) :
    Bool × Sys × Option Queue :=
  match queue with
  | none => (false, s, none)
  | some queue =>
    if capacity = 0 then (false, s, some queue)
    else
      let queue := { queue with buffer := kmalloc (u64 (sizeofPointer * capacity)) }
      if queue.buffer.isNone then (false, s, some queue)
      else
        let queue := { queue with capacity := capacity, head := 0, tail := 0 }
        let s := mutexInit s queue.lock
        let s := semaphoreInit s queue.items 0
        (true, semaphoreInit s queue.space capacity, some queue)

/-- What `queue_push` does with the lock held. -/
def Queue.put (queue : Queue) (item : ℕ) : Option Queue :=
  queue.buffer.map fun buffer =>
    let queue := { queue with buffer := some (Function.update buffer queue.tail item) }
    let queue := { queue with tail := u64 (queue.tail + 1), size := u64 (queue.size + 1) }
    if queue.tail = queue.capacity then { queue with tail := 0 } else queue

/-- What `queue_pop` does with the lock held, and the item that it returns. -/
def Queue.take (queue : Queue) : Option (ℕ × Queue) :=
  queue.buffer.map fun buffer =>
    let item := buffer queue.head
    let queue := { queue with
      head := u64 (queue.head + 1)
      size := u64 (queue.size + (2 ^ 64 - 1)) }
    (item, if queue.head = queue.capacity then { queue with head := 0 } else queue)

/-- `queue_push`, for a caller that keeps control to the end. -/
def queuePush (s : Sys) (queue : Option Queue) (item : ℕ) : Option (Sys × Option Queue) :=
  match queue with
  | none => some (s, none)
  | some queue =>
    if item = 0 then some (s, some queue)
    else do
      let s ← semaphoreWait s queue.space
      let s ← mutexLock s queue.lock
      let queue ← queue.put item
      let s := mutexUnlock s queue.lock
      pure (semaphoreSignal s queue.items, some queue)

/-- `queue_pop`, for a caller that keeps control to the end, with the item it returns: 0 is
`NULL`. -/
def queuePop (s : Sys) (queue : Option Queue) : Option (ℕ × Sys × Option Queue) :=
  match queue with
  | none => some (0, s, none)
  | some queue => do
    let s ← semaphoreWait s queue.items
    let s ← mutexLock s queue.lock
    let (item, queue) ← queue.take
    let s := mutexUnlock s queue.lock
    pure (item, semaphoreSignal s queue.space, some queue)

/-! ### Tasks that share a queue -/

/-- A call of `queue_push` or `queue_pop`. -/
inductive QueueCall
  | push (item : ℕ)
  | pop
deriving DecidableEq

/-- The semaphore that the call waits for first. -/
def QueueCall.takes : QueueCall → QueueSem
  | .push _ => .space
  | .pop => .items

/-- The semaphore that the call signals last. -/
def QueueCall.gives : QueueCall → QueueSem
  | .push _ => .items
  | .pop => .space

/-- The step that comes next, after `semaphore_wait`. -/
inductive QueueStep
  | lock
  | update
  | unlock
  | signal
deriving DecidableEq

/-- The system with a queue, and the place at which each task is in a call of `queue_push` or
`queue_pop`.  The items written to the buffer, those read from it, and the slots written and not
read since make up the history of the run. -/
structure Shared where
  world : World
  queue : Queue
  place : TaskId → Option (QueueCall × QueueStep)
  written : List ℕ
  read : List ℕ
  unread : Finset ℕ

/-- The object that a call of a mutex or a semaphore is about. -/
def Op.object : Op → Option WaitObj
  | .mutexTryLock m => some (.mutex m)
  | .mutexLock m => some (.mutex m)
  | .mutexUnlock m => some (.mutex m)
  | .semaphoreTryWait k => some (.semaphore k)
  | .semaphoreWait k => some (.semaphore k)
  | .semaphoreSignal k => some (.semaphore k)
  | _ => none

/-- A complete call of `kmain`: it is legal, and the boot task never has to be woken. -/
def Shared.Calls (x : Shared) (op : Op) (w : World) : Prop :=
  x.world.Legal op ∧ x.world.BootStays op ∧ x.world.exec op = some w

/-- The task `t` has made a call and is at another place. -/
def Shared.goto (x : Shared) (w : World) (t : TaskId) (place : Option (QueueCall × QueueStep)) :
    Shared :=
  { x with world := w, place := Function.update x.place t place }

/-- One step, while the task `t` has control. -/
inductive Shared.StepBy (x : Shared) (t : TaskId) : Shared → Prop
  /-- A timer interrupt, at any place. -/
  | tick {w : World} (hcalls : x.Calls .tick w) : StepBy x t { x with world := w }
  /-- Outside of `queue_push` and `queue_pop`, anything that does not touch the queue. -/
  | other {op : Op} {w : World} (hplace : x.place t = none)
      (hop : ∀ o ∈ x.queue.objects, op.object ≠ some o) (hcalls : x.Calls op w) :
      StepBy x t { x with world := w }
  /-- `queue_push` returns at once if the item is `NULL`. -/
  | null (hplace : x.place t = none) : StepBy x t x
  | wait {w : World} (call : QueueCall) (hplace : x.place t = none) (hitem : call ≠ .push 0)
      (hcalls : x.Calls (.semaphoreWait (x.queue.sem call.takes)) w) :
      StepBy x t (x.goto w t (some (call, .lock)))
  | lock {w : World} (call : QueueCall) (hplace : x.place t = some (call, .lock))
      (hcalls : x.Calls (.mutexLock x.queue.lock) w) :
      StepBy x t (x.goto w t (some (call, .update)))
  | push {item : ℕ} {queue : Queue} (hplace : x.place t = some (.push item, .update))
      (hput : x.queue.put item = some queue) :
      StepBy x t { x with
        queue := queue
        place := Function.update x.place t (some (.push item, .unlock))
        written := x.written ++ [item]
        unread := insert x.queue.tail x.unread }
  | pop {item : ℕ} {queue : Queue} (hplace : x.place t = some (.pop, .update))
      (htake : x.queue.take = some (item, queue)) :
      StepBy x t { x with
        queue := queue
        place := Function.update x.place t (some (.pop, .unlock))
        read := x.read ++ [item]
        unread := x.unread.erase x.queue.head }
  | unlock {call : QueueCall} {w : World} (hplace : x.place t = some (call, .unlock))
      (hcalls : x.Calls (.mutexUnlock x.queue.lock) w) :
      StepBy x t (x.goto w t (some (call, .signal)))
  | signal {call : QueueCall} {w : World} (hplace : x.place t = some (call, .signal))
      (hcalls : x.Calls (.semaphoreSignal (x.queue.sem call.gives)) w) :
      StepBy x t (x.goto w t none)

/-- One step of the task that has control. -/
def Shared.Step (x y : Shared) : Prop := ∃ t, x.world.sys.current = some t ∧ x.StepBy t y

/-- A queue that has just been initialized, when no task is in `queue_push` or `queue_pop`. -/
def Shared.start (w : World) (s : Sys) (queue : Queue) : Shared where
  world := { w with sys := s }
  queue := queue
  place := fun _ => none
  written := []
  read := []
  unread := ∅

variable {x : Shared} {t : TaskId} {op : Op} {s s' : Sys} {call : QueueCall} {queue : Queue}
  {item : ℕ}

/-! ### A caller that keeps control -/

theorem mutexUnlock_current (s : Sys) (m : ℕ) : (mutexUnlock s m).current = s.current := by
  unfold mutexUnlock
  split <;> rfl

/-- The items written and those read are the same. -/
structure Shared.SameHistory (x y : Shared) : Prop where
  written : x.written = y.written
  read : x.read = y.read

/-- A call that returns at once. -/
theorem Shared.calls_of_returns (op : Op) (hlegal : x.world.Legal op)
    (hsusp : ¬ op.Suspends x.world.sys) (hexec : op.exec x.world.sys = some s') :
    x.Calls op (x.world.after op s') := by
  refine ⟨hlegal, fun _ => hsusp, ?_⟩
  unfold World.exec
  rw [hexec]
  rfl

/-- A call that finds its object free. -/
theorem Shared.calls_waitOn {o : WaitObj} (hlegal : x.world.Legal (.waitOn o))
    (hfree : ¬ Blocks x.world.sys o) :
    x.Calls (.waitOn o) (x.world.after (.waitOn o) (acquire x.world.sys o)) := by
  refine Shared.calls_of_returns _ hlegal (fun hsusp => ?_) ?_
  · exact hfree (yields_waitOn.mp (yields_of_suspends hsusp))
  · rw [exec_waitOn, if_neg hfree]

/-- The steps of a call up to the use of the buffer. -/
theorem Shared.run_acquire (call : QueueCall) (hcur : x.world.sys.current = some t)
    (hplace : x.place t = none) (hitem : call ≠ .push 0)
    (hunit : ¬ Blocks x.world.sys (.semaphore (x.queue.sem call.takes)))
    (hfree : ¬ Blocks x.world.sys (.mutex x.queue.lock)) :
    ∃ y, ReflTransGen Shared.Step x y ∧ y.queue = x.queue ∧ y.SameHistory x ∧
      y.place t = some (call, .update) ∧ y.world.sys.current = some t ∧
      (semaphoreWait x.world.sys (x.queue.sem call.takes)).bind (mutexLock · x.queue.lock) =
        some y.world.sys := by
  set k := x.queue.sem call.takes
  have hwait := Shared.calls_waitOn (o := .semaphore k) trivial hunit
  set x₁ := x.goto (x.world.after (.semaphoreWait k) (acquire x.world.sys (.semaphore k))) t
    (some (call, .lock)) with hx₁
  have hlock := Shared.calls_waitOn (x := x₁) (o := .mutex x.queue.lock) trivial hfree
  have hfirst : x.Step x₁ := ⟨t, hcur, .wait call hplace hitem hwait⟩
  have hself : x₁.place t = some (call, .lock) := Function.update_self ..
  refine ⟨_, (ReflTransGen.single hfirst).tail ⟨t, hcur, .lock call hself hlock⟩, rfl, ⟨rfl, rfl⟩,
    Function.update_self .., hcur, ?_⟩
  have hunits : semaphoreWait x.world.sys k = some (acquire x.world.sys (.semaphore k)) :=
    (exec_waitOn _ (.semaphore k)).trans (if_neg hunit)
  rw [hunits, Option.bind_some]
  exact (exec_waitOn _ (.mutex x.queue.lock)).trans (if_neg hfree)

/-- The steps of a call after the use of the buffer. -/
theorem Shared.run_release (hcur : x.world.sys.current = some t)
    (hplace : x.place t = some (call, .unlock)) :
    ∃ y, ReflTransGen Shared.Step x y ∧ y.queue = x.queue ∧ y.SameHistory x ∧ y.place t = none ∧
      semaphoreSignal (mutexUnlock x.world.sys x.queue.lock) (x.queue.sem call.gives) =
        y.world.sys := by
  have hsusp {op : Op} {s : Sys} (hop : op.target = none) (hsleep : ∀ ticks, op ≠ .sleep ticks)
      (hexit : op ≠ .exit) : ¬ op.Suspends s := by
    intro h
    rcases suspends_cases h with ⟨o, ho, -⟩ | ⟨ticks, hs⟩ | hs
    · exact absurd (hop.symm.trans ho) nofun
    · exact hsleep ticks hs
    · exact hexit hs
  have hunlock := Shared.calls_of_returns (x := x) (.mutexUnlock x.queue.lock) trivial
    (hsusp rfl nofun nofun) rfl
  set x₁ := x.goto (x.world.after (.mutexUnlock x.queue.lock)
    (mutexUnlock x.world.sys x.queue.lock)) t (some (call, .signal)) with hx₁
  have hsignal := Shared.calls_of_returns (x := x₁)
    (.semaphoreSignal (x.queue.sem call.gives)) trivial (hsusp rfl nofun nofun) rfl
  have hfirst : x.Step x₁ := ⟨t, hcur, .unlock hplace hunlock⟩
  have hself : x₁.place t = some (call, .signal) := Function.update_self ..
  have hcur₁ : x₁.world.sys.current = some t := (mutexUnlock_current _ _).trans hcur
  exact ⟨_, (ReflTransGen.single hfirst).tail ⟨t, hcur₁, .signal hself hsignal⟩, rfl, ⟨rfl, rfl⟩,
    Function.update_self .., rfl⟩

/-- **The steps of a call of `queue_push` make up the function**, if the caller keeps control. -/
theorem Shared.run_push (hcur : x.world.sys.current = some t) (hplace : x.place t = none)
    (hitem : item ≠ 0) (hunit : ¬ Blocks x.world.sys (.semaphore x.queue.space))
    (hfree : ¬ Blocks x.world.sys (.mutex x.queue.lock)) (hput : x.queue.put item = some queue) :
    ∃ y, ReflTransGen Shared.Step x y ∧ y.place t = none ∧
      y.written = x.written ++ [item] ∧ y.read = x.read ∧
      queuePush x.world.sys (some x.queue) item = some (y.world.sys, some y.queue) := by
  have hcall : QueueCall.push item ≠ .push 0 := fun heq => hitem (QueueCall.push.inj heq)
  obtain ⟨y, hrun, hqueue, hsame, hupdate, hcur', hacquire⟩ :=
    Shared.run_acquire (.push item) hcur hplace hcall hunit hfree
  rw [← hqueue] at hput
  set y' : Shared := ⟨y.world, queue, Function.update y.place t (some (.push item, .unlock)),
    y.written ++ [item], y.read, insert y.queue.tail y.unread⟩
  have hstep : y.Step y' := ⟨t, hcur', .push hupdate hput⟩
  have hself : y'.place t = some (.push item, .unlock) := Function.update_self ..
  obtain ⟨z, hrun', hqueue', hsame', hnone, hrelease⟩ := Shared.run_release (x := y') hcur' hself
  refine ⟨z, (hrun.tail hstep).trans hrun', hnone, ?_, hsame'.read.trans hsame.read, ?_⟩
  · exact hsame'.written.trans (congrArg (· ++ [item]) hsame.written)
  obtain ⟨s, hwait, hlock⟩ := Option.bind_eq_some_iff.mp hacquire
  change semaphoreWait x.world.sys x.queue.space = some s at hwait
  rw [hqueue] at hput
  simp only [queuePush, hitem, if_false, hwait, hlock, hput, Option.bind_eq_bind, Option.bind_some]
  rw [hqueue', ← hrelease]
  rfl

/-- **The steps of a call of `queue_pop` make up the function**, if the caller keeps control. -/
theorem Shared.run_pop (hcur : x.world.sys.current = some t) (hplace : x.place t = none)
    (hunit : ¬ Blocks x.world.sys (.semaphore x.queue.items))
    (hfree : ¬ Blocks x.world.sys (.mutex x.queue.lock))
    (htake : x.queue.take = some (item, queue)) :
    ∃ y, ReflTransGen Shared.Step x y ∧ y.place t = none ∧
      y.written = x.written ∧ y.read = x.read ++ [item] ∧
      queuePop x.world.sys (some x.queue) = some (item, y.world.sys, some y.queue) := by
  obtain ⟨y, hrun, hqueue, hsame, hupdate, hcur', hacquire⟩ :=
    Shared.run_acquire .pop hcur hplace nofun hunit hfree
  rw [← hqueue] at htake
  set y' : Shared := ⟨y.world, queue, Function.update y.place t (some (.pop, .unlock)),
    y.written, y.read ++ [item], y.unread.erase y.queue.head⟩
  have hstep : y.Step y' := ⟨t, hcur', .pop hupdate htake⟩
  have hself : y'.place t = some (.pop, .unlock) := Function.update_self ..
  obtain ⟨z, hrun', hqueue', hsame', hnone, hrelease⟩ := Shared.run_release (x := y') hcur' hself
  refine ⟨z, (hrun.tail hstep).trans hrun', hnone, hsame'.written.trans hsame.written, ?_, ?_⟩
  · exact hsame'.read.trans (congrArg (· ++ [item]) hsame.read)
  obtain ⟨s, hwait, hlock⟩ := Option.bind_eq_some_iff.mp hacquire
  change semaphoreWait x.world.sys x.queue.items = some s at hwait
  rw [hqueue] at htake
  simp only [queuePop, hwait, hlock, htake, Option.bind_eq_bind, Option.bind_some]
  rw [hqueue', ← hrelease]
  rfl

end Bethany
