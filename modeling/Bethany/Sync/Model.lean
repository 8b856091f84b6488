import Bethany.Scheduler.Model

/-!
# Mutexes, semaphores and events (`sync/`), and complete calls

* `mutexInit`, `mutexTryLock`, `mutexLock`, `mutexUnlock`; `semaphoreInit`, `semaphoreTryWait`,
  `semaphoreWait`, `semaphoreSignal`; `eventWait`, `eventSet`, `eventReset`;
* `timerTick`: the timer interrupt;
* `Op`: the calls a task can make, with an interrupt as one of them; `Op.exec`: a complete
  call by the current task, up to the point where some task has control again.
-/

namespace Bethany

open Machine LinkedList

variable (s : Sys)

/-! ### `mutex.c` -/

/-- `mutex_init` -/
def mutexInit (m : ℕ) : Sys :=
  { s with
    locked := Function.update s.locked m false
    waiters := Function.update s.waiters (.mutex m) none }

/-- `mutex_try_lock` -/
def mutexTryLock (m : ℕ) : Bool × Sys :=
  if s.locked m then (false, s) else (true, { s with locked := Function.update s.locked m true })

/-- `mutex_lock` -/
def mutexLock (m : ℕ) : Option Sys :=
  if ¬ s.locked m then some { s with locked := Function.update s.locked m true }
  else block s (.mutex m)

/-- `mutex_unlock` -/
def mutexUnlock (m : ℕ) : Sys :=
  match s.waiters (.mutex m) with
  | none => { s with locked := Function.update s.locked m false }
  | some task => wakeFirst s (.mutex m) task

/-! ### `semaphore.c` -/

/-- `semaphore_init` -/
def semaphoreInit (k initial : ℕ) : Sys :=
  { s with
    count := Function.update s.count k initial
    waiters := Function.update s.waiters (.semaphore k) none }

/-- `semaphore_try_wait` -/
def semaphoreTryWait (k : ℕ) : Bool × Sys :=
  if s.count k = 0 then (false, s)
  else (true, { s with count := Function.update s.count k (s.count k - 1) })

/-- `semaphore_wait` -/
def semaphoreWait (k : ℕ) : Option Sys :=
  if s.count k > 0 then some { s with count := Function.update s.count k (s.count k - 1) }
  else block s (.semaphore k)

/-- `semaphore_signal` -/
def semaphoreSignal (k : ℕ) : Sys :=
  match s.waiters (.semaphore k) with
  | some task => wakeFirst s (.semaphore k) task
  | none => { s with count := Function.update s.count k (u64 (s.count k + 1)) }

/-! ### `event.c` -/

/-- `event_wait` -/
def eventWait (e : ℕ) : Option Sys :=
  if s.signaled e then some s else block s (.event e)

/-- `event_set` -/
def eventSet (e : ℕ) : Option Sys :=
  wakeAll { s with signaled := Function.update s.signaled e true } (.event e)

/-- `event_reset` -/
def eventReset (e : ℕ) : Sys := { s with signaled := Function.update s.signaled e false }

/-! ### Complete calls -/

/-- `pit_irq` and the rest of `irq_handler`. -/
def timerTick : Option Sys := schedulerSchedule { s with ticks := u64 (s.ticks + 1) }

/-- What the current task can do next: a call, or be interrupted by the timer. -/
inductive Op
  | create (taskMemory stackMemory : Bool)
  | add (task : Option TaskId)
  | yield
  | sleep (ticks : ℕ)
  | exit
  | join (task : Option TaskId)
  | mutexTryLock (m : ℕ)
  | mutexLock (m : ℕ)
  | mutexUnlock (m : ℕ)
  | semaphoreTryWait (k : ℕ)
  | semaphoreWait (k : ℕ)
  | semaphoreSignal (k : ℕ)
  | eventWait (e : ℕ)
  | eventSet (e : ℕ)
  | eventReset (e : ℕ)
  | tick
deriving DecidableEq

/-- The state in which some task has control again. -/
def Op.exec : Op → Sys → Option Sys
  | .create taskMemory stackMemory, s => some (taskCreate s taskMemory stackMemory).2
  | .add task, s => schedulerAdd s task
  | .yield, s => taskYield s
  | .sleep ticks, s => taskSleep s ticks
  | .exit, s => taskExit s
  | .join task, s => taskJoin s task
  | .mutexTryLock m, s => some (Bethany.mutexTryLock s m).2
  | .mutexLock m, s => Bethany.mutexLock s m
  | .mutexUnlock m, s => some (Bethany.mutexUnlock s m)
  | .semaphoreTryWait k, s => some (Bethany.semaphoreTryWait s k).2
  | .semaphoreWait k, s => Bethany.semaphoreWait s k
  | .semaphoreSignal k, s => some (Bethany.semaphoreSignal s k)
  | .eventWait e, s => Bethany.eventWait s e
  | .eventSet e, s => Bethany.eventSet s e
  | .eventReset e, s => some (Bethany.eventReset s e)
  | .tick, s => timerTick s

end Bethany
