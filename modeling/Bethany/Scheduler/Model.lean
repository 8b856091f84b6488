import Bethany.Library.LinkedList
import Bethany.Library.Machine

/-!
# Tasks and the scheduler (`task.c`, `scheduler.c`)

Each field of a C structure is a function from the objects that have it.  A task pointer is
the number of the task in the order of creation, and `none` is `NULL`: `task_create` takes
fresh memory each time and `kfree` gives none back, so different tasks never share an
address.  Mutexes, semaphores and events are numbered likewise.  The fields that only a
context switch uses are left out.

* `Sys`: the state of all tasks, of all objects that tasks wait for, and of the scheduler;
* `schedulerUpdate`, `schedulerAdd`, `schedulerNext`, `schedulerRemove`, `schedulerSchedule`;
* `block`, `wakeFirst`, `wakeAll`: what all objects with a `waiters` list do with it;
* `taskCreate`, `taskExit`, `taskSleep`, `taskJoin`.

A function returns `none` where the code reads through a null pointer or loops for ever.
-/

namespace Bethany

open Machine LinkedList

/-- A task pointer other than `NULL`. -/
abbrev TaskId := ℕ

/-- `task_state_t` -/
inductive TaskState
  | ready
  | running
  | sleeping
  | blocked
  | dead
deriving DecidableEq

/-- The objects that have a `waiters` list. -/
inductive WaitObj
  | mutex (m : ℕ)
  | semaphore (k : ℕ)
  | event (e : ℕ)
  | task (t : TaskId)
deriving DecidableEq

/-- The state of `scheduler.c`, `task.c` and of the objects of `sync/`, with the tick counter
of `pit.c`.  `destroyed` lists the tasks passed to `task_destroy`, the latest first. -/
structure Sys where
  state : TaskId → TaskState
  wakeTick : TaskId → ℕ
  next : TaskId → Option TaskId
  waitNext : TaskId → Option TaskId
  waiters : WaitObj → Option TaskId
  locked : ℕ → Bool
  count : ℕ → ℕ
  signaled : ℕ → Bool
  first : Option TaskId
  current : Option TaskId
  taskToDestroy : Option TaskId
  nextPid : ℕ
  ticks : ℕ
  destroyed : List TaskId

variable (s : Sys)

/-- No list of different tasks is longer than the number of tasks ever created, so a loop
along one has at most this many rounds. -/
def Sys.fuel : ℕ := s.nextPid + 1

/-! ### `scheduler.c` -/

/-- The body of the loop of `scheduler_update`. -/
def updateBody (ticks : ℕ) (s : Sys) (it : TaskId) : Sys × Option TaskId :=
  let s := if s.state it = .sleeping ∧ s.wakeTick it ≤ ticks
    then { s with state := Function.update s.state it .ready } else s
  (s, s.next it)

/-- `scheduler_update` -/
def schedulerUpdate : Option Sys := loop (updateBody s.ticks) s.fuel s.first s

/-- `scheduler_add` -/
def schedulerAdd : Option TaskId → Option Sys
  | none => some s
  | some task =>
    match s.first with
    | none => some { s with first := some task, current := some task }
    | some first => do
      let it ← advance s.next (fun _ => false) s.fuel first
      pure { s with next := Function.update s.next it (some task) }

/-- The loop of `scheduler_next`, with the value of `current` it ends with. -/
def nextLoop (start : TaskId) : ℕ → TaskId → Option TaskId
  | 0, _ => none
  | fuel + 1, current =>
    -- `current = current->next; if(current == NULL) current = first;`
    (s.next current <|> s.first).bind fun current =>
      if s.state current = .ready then some current
      else if current ≠ start then nextLoop start fuel current
      else some current

/-- `scheduler_next` -/
def schedulerNext : Option Sys :=
  match s.current with
  | none => some s
  | some start => do
    let current ← nextLoop s start s.fuel start
    pure { s with current := some current }

/-- `task_destroy` -/
def taskDestroy (task : TaskId) : Sys := { s with destroyed := task :: s.destroyed }

/-- `scheduler_remove` -/
def schedulerRemove : Option TaskId → Option Sys
  | none => some s
  | some task =>
    match s.first with
    | none => some s
    | some first =>
      if task = first then
        let s := { s with first := s.next first }
        let s := if s.current = some task then { s with current := s.first } else s
        some (taskDestroy s task)
      else do
        let it ← advance s.next (· == task) s.fuel first
        match s.next it with
        | none => pure s
        | some _ =>
          let s := { s with next := Function.update s.next it (s.next task) }
          let s := if s.current = some task
            then { s with current := s.next it <|> s.first } else s
          pure (taskDestroy s task)

/-- The removal of the task that exited before, at the beginning of `scheduler_schedule`. -/
def removeDestroyed : Option Sys :=
  match s.taskToDestroy with
  | none => some s
  | some task => do
    let s ← schedulerRemove s (some task)
    pure { s with taskToDestroy := none }

/-- The end of `scheduler_schedule`, up to the switch of the stacks. -/
def switchFrom (old : TaskId) (current : TaskId) : Sys :=
  let s := if s.state old = .running
    then { s with state := Function.update s.state old .ready } else s
  let s := { s with state := Function.update s.state current .running }
  if s.state old = .dead ∧ s.taskToDestroy = none then { s with taskToDestroy := some old } else s

/-- `scheduler_schedule`, up to the point where the task in `current` has control. -/
def schedulerSchedule : Option Sys := do
  let s ← removeDestroyed s
  let s ← schedulerUpdate s
  let old := s.current
  let s ← schedulerNext s
  if old = s.current then pure s
  else do
    let old ← old
    let current ← s.current
    pure (switchFrom s old current)

/-! ### Waiting -/

/-- Put the running task to sleep on an object, as `mutex_lock`, `semaphore_wait`,
`event_wait` and `task_join` all do: push it on the `waiters` list and yield. -/
def block (o : WaitObj) : Option Sys := do
  let current ← s.current
  let s := { s with state := Function.update s.state current .blocked }
  let s := { s with waitNext := Function.update s.waitNext current (s.waiters o) }
  let s := { s with waiters := Function.update s.waiters o (some current) }
  schedulerSchedule s

/-- Wake the first waiter, as `mutex_unlock` and `semaphore_signal` do. -/
def wakeFirst (o : WaitObj) (task : TaskId) : Sys :=
  let s := { s with waiters := Function.update s.waiters o (s.waitNext task) }
  let s := { s with waitNext := Function.update s.waitNext task none }
  { s with state := Function.update s.state task .ready }

/-- The body of the loops of `event_set` and `task_exit`. -/
def wakeBody (s : Sys) (waiter : TaskId) : Sys × Option TaskId :=
  let s := { s with state := Function.update s.state waiter .ready }
  let next := s.waitNext waiter
  ({ s with waitNext := Function.update s.waitNext waiter none }, next)

/-- Wake all waiters, as `event_set` and `task_exit` do. -/
def wakeAll (o : WaitObj) : Option Sys := do
  let s ← loop wakeBody s.fuel (s.waiters o) s
  pure { s with waiters := Function.update s.waiters o none }

/-! ### `task.c` -/

/-- `task_create_current`, called by `scheduler_init` for the boot task: task 0, which runs.
The rest of the memory is as `mutex_init`, `semaphore_init` and `event_init` leave it. -/
def schedulerInit (initial : ℕ → ℕ) : Sys where
  state := fun t => if t = 0 then .running else .ready
  wakeTick := fun _ => 0
  next := fun _ => none
  waitNext := fun _ => none
  waiters := fun _ => none
  locked := fun _ => false
  count := initial
  signaled := fun _ => false
  first := some 0
  current := some 0
  taskToDestroy := none
  nextPid := 1
  ticks := 0
  destroyed := []

/-- `task_create`; `taskMemory` and `stackMemory` say whether its two `kmalloc` calls
succeed. -/
def taskCreate (taskMemory stackMemory : Bool) : Option TaskId × Sys :=
  if ¬ taskMemory then (none, s)
  else if ¬ stackMemory then (none, s)
  else
    let task := s.nextPid
    (some task,
      { s with
        nextPid := s.nextPid + 1
        state := Function.update s.state task .ready
        wakeTick := Function.update s.wakeTick task 0
        next := Function.update s.next task none
        waiters := Function.update s.waiters (.task task) none
        waitNext := Function.update s.waitNext task none })

/-- `task_yield` -/
def taskYield : Option Sys := schedulerSchedule s

/-- `task_exit`, up to the `hlt` loop that a dead task would run. -/
def taskExit : Option Sys := do
  let task ← s.current
  let s ← wakeAll s (.task task)
  taskYield { s with state := Function.update s.state task .dead }

/-- `task_sleep` -/
def taskSleep (ticks : ℕ) : Option Sys := do
  let task ← s.current
  let s := { s with wakeTick := Function.update s.wakeTick task (u64 (s.ticks + ticks)) }
  taskYield { s with state := Function.update s.state task .sleeping }

/-- `task_join` -/
def taskJoin : Option TaskId → Option Sys
  | none => some s
  | some task =>
    if s.state task = .dead ∨ s.current = some task then some s
    else block s (.task task)

end Bethany
