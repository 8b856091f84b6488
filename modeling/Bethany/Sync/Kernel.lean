import Bethany.Library.KeyedStacks
import Bethany.Library.Runs
import Bethany.Scheduler.LifeCycle

/-!
# The kernel without pointers

What the scheduler and the objects of `sync/` are for, without the links of tasks, without states of
tasks and without the deferred removal of a task that has exited: the tasks that take turns are a
list, and those that wait are a list of pairs with the object each waits for, the newest first.

* `Kernel`, `Kernel.call`, `Kernel.pass`, `Kernel.step`: this kernel, and a call of the task in
  control;
* `Sys.Shows`: a state of the code shows a state of this kernel;
* `Sys.Shows.before`, `Sys.Shows.pass`: a call up to the point where it returns or yields, and
  `scheduler_schedule`;
* `kernel_refines`: every run of the code shows the run of the kernel with the same calls.
-/

namespace Bethany

open Machine KeyedStacks Runs

/-- The tasks that take turns with the one in control, those that have exited, when the others
wake up and what they wait for, and the values of the objects. -/
structure Kernel where
  tasks : List TaskId
  current : TaskId
  created : ℕ
  exited : List TaskId
  asleep : TaskId → Option ℕ
  waiting : List (WaitObj × TaskId)
  locked : ℕ → Bool
  count : ℕ → ℕ
  signaled : ℕ → Bool
  ticks : ℕ

namespace Kernel

variable (k : Kernel)

/-- The boot task is alone. -/
def boot (initial : ℕ → ℕ) : Kernel where
  tasks := [0]
  current := 0
  created := 1
  exited := []
  asleep := fun _ => none
  waiting := []
  locked := fun _ => false
  count := initial
  signaled := fun _ => false
  ticks := 0

/-- The task can go on. -/
def Ready (t : TaskId) : Prop :=
  t ∉ k.exited ∧ k.asleep t = none ∧ t ∉ k.waiting.map Prod.snd

instance (t : TaskId) : Decidable (k.Ready t) := inferInstanceAs (Decidable (_ ∧ _ ∧ _))

/-- A task that wants the object has to wait. -/
def Taken : WaitObj → Prop
  | .mutex m => k.locked m = true
  | .semaphore i => k.count i = 0
  | .event e => k.signaled e = false
  | .task t => t ∉ k.exited ∧ t ≠ k.current

instance : DecidablePred k.Taken
  | .mutex m => inferInstanceAs (Decidable (k.locked m = true))
  | .semaphore i => inferInstanceAs (Decidable (k.count i = 0))
  | .event e => inferInstanceAs (Decidable (k.signaled e = false))
  | .task t => inferInstanceAs (Decidable (t ∉ k.exited ∧ t ≠ k.current))

/-- An object that is not taken is taken. -/
def take : WaitObj → Kernel
  | .mutex m => { k with locked := Function.update k.locked m true }
  | .semaphore i => { k with count := Function.update k.count i (k.count i - 1) }
  | _ => k

/-- The task in control takes the object, or waits for it and gives up control. -/
def wait (o : WaitObj) : Kernel × Bool :=
  if k.Taken o then ({ k with waiting := (o, k.current) :: k.waiting }, true) else (k.take o, false)

/-- The object goes to the task that has waited for the shortest time; without one it is free. -/
def give (o : WaitObj) (free : Kernel) : Kernel :=
  if stackOf k.waiting o = [] then free else { k with waiting := pop o k.waiting }

/-- What a call of the task in control does, and whether it gives up control. -/
def call : Op → Kernel × Bool
  | .create taskMemory stackMemory =>
    (if taskMemory ∧ stackMemory then { k with created := k.created + 1 } else k, false)
  | .add none => (k, false)
  | .add (some t) => ({ k with tasks := k.tasks ++ [t] }, false)
  | .yield => (k, true)
  | .sleep ticks =>
    ({ k with asleep := Function.update k.asleep k.current (some (u64 (k.ticks + ticks))) }, true)
  | .exit =>
    ({ k with
      exited := k.current :: k.exited
      waiting := clear (.task k.current) k.waiting }, true)
  | .join none => (k, false)
  | .join (some t) => k.wait (.task t)
  | .mutexTryLock m => (if k.Taken (.mutex m) then k else k.take (.mutex m), false)
  | .mutexLock m => k.wait (.mutex m)
  | .mutexUnlock m =>
    (k.give (.mutex m) { k with locked := Function.update k.locked m false }, false)
  | .semaphoreTryWait i => (if k.Taken (.semaphore i) then k else k.take (.semaphore i), false)
  | .semaphoreWait i => k.wait (.semaphore i)
  | .semaphoreSignal i =>
    (k.give (.semaphore i) { k with count := Function.update k.count i (u64 (k.count i + 1)) },
      false)
  | .eventWait e => k.wait (.event e)
  | .eventSet e =>
    ({ k with
      signaled := Function.update k.signaled e true
      waiting := clear (.event e) k.waiting }, false)
  | .eventReset e => ({ k with signaled := Function.update k.signaled e false }, false)
  | .tick => ({ k with ticks := u64 (k.ticks + 1) }, true)

/-- The tasks whose time has come wake up. -/
def wake : Kernel :=
  { k with asleep := fun t => (k.asleep t).filter fun wakeTick => k.ticks < wakeTick }

/-- The next task of the round that can go on, or the one that is in control. -/
def turn : TaskId := ((othersOf k.tasks k.current).find? fun t => k.Ready t).getD k.current

/-- Control goes on; a task that has exited takes no more turns. -/
def pass : Kernel :=
  { k.wake with current := k.wake.turn, tasks := k.tasks.filter (· ∉ k.exited) }

/-- A complete call. -/
def step (op : Op) : Kernel := if (k.call op).2 then (k.call op).1.pass else (k.call op).1

end Kernel

/-- The state of the code shows the state of the kernel: `L` is its run list, `W` are its wait
lists, and `c` is the task in control. -/
structure Sys.Shows (s : Sys) (L : List TaskId) (W : WaitObj → List TaskId) (c : TaskId)
    (k : Kernel) : Prop where
  tasks : k.tasks = s.remaining L
  current : k.current = c
  created : k.created = s.nextPid
  exited : ∀ t, t ∈ k.exited ↔ s.state t = .dead
  asleep : ∀ t u, k.asleep t = some u ↔ s.state t = .sleeping ∧ s.wakeTick t = u
  waiting : stackOf k.waiting = W
  locked : k.locked = s.locked
  count : k.count = s.count
  signaled : k.signaled = s.signaled
  ticks : k.ticks = s.ticks

variable {s s' : Sys} {L : List TaskId} {W W' : WaitObj → List TaskId} {c c' t : TaskId}
  {k k' : Kernel} {o : WaitObj} {op : Op} {initial : ℕ → ℕ}

/-! ### A call up to the point where it returns or yields -/

/-- But for the caller in `task_sleep` and `task_exit`, a call makes waiters of running tasks and
wakes waiters. -/
theorem before_calm (h : s.Inv L W c) (hrun : s.state c = .running)
    (ht : t ≠ c ∨ (∀ ticks, op ≠ .sleep ticks) ∧ op ≠ .exit) :
    (op.before s L W c).state t = s.state t ∨
      (s.state t = .running ∨ s.state t = .blocked) ∧
        ((op.before s L W c).state t = .blocked ∨ (op.before s L W c).state t = .ready) := by
  by_cases hcaller : t ≠ c ∨ ¬ op.Suspends s
  · exact (before_state op h hcaller).imp_right fun hwoken => ⟨.inr hwoken.1, .inr hwoken.2⟩
  · obtain ⟨heq, hsusp⟩ := not_or.mp hcaller
    obtain rfl := not_not.mp heq
    obtain ⟨hsleep, hexit⟩ := ht.resolve_left fun hne => hne rfl
    rcases suspends_cases (not_not.mp hsusp) with ⟨o, ho, hb⟩ | ⟨ticks, rfl⟩ | rfl
    · obtain rfl := target_eq_some.mp ho
      rw [before_waitOn, if_pos hb]
      exact .inr ⟨.inl hrun, .inl (Function.update_self ..)⟩
    · exact absurd rfl (hsleep ticks)
    · exact absurd rfl hexit

/-- A task sleeps on after `scheduler_schedule` if it has not been woken. -/
theorem Scheduled.sleeping_iff (hs : Scheduled s s' L c c') (h : RunList s L c) :
    s'.state t = .sleeping ↔ s.woken (s.remaining L) t = .sleeping := by
  rcases hs.chosen_cases h with ⟨hcc, -⟩ | ⟨-, hne, hready⟩
  · rw [hs.state, switched, if_pos hcc]
  · by_cases hc' : t = c'
    · rw [hc', hs.state_new, if_neg hne, hready]
      decide
    · by_cases hc : t = c
      · subst hc
        rw [hs.state_old hne]
        split_ifs with hrun
        · have hwoken : s.woken (s.remaining L) t = .running :=
            (Sys.woken_iff (by decide) (by decide)).mpr hrun
          rw [hwoken]
          decide
        · rfl
      · rw [hs.state_other hc hc']

namespace Sys.Shows

/-- The call touches objects only, and the states of tasks that are neither dead nor asleep. -/
theorem objects (h : s.Shows L W c k) (hsame : SameButObjects s s')
    (hcalm : ∀ t, s'.state t = s.state t ∨ (s.state t = .running ∨ s.state t = .blocked) ∧
      (s'.state t = .blocked ∨ s'.state t = .ready))
    (hk : k' = { k with
      waiting := k'.waiting, locked := k'.locked, count := k'.count, signaled := k'.signaled })
    (hwaiting : stackOf k'.waiting = W') (hlocked : k'.locked = s'.locked)
    (hcount : k'.count = s'.count) (hsignaled : k'.signaled = s'.signaled) :
    s'.Shows L W' c k' := by
  have hstate (st : TaskState) (hst : st = .dead ∨ st = .sleeping) (t : TaskId) :
      s'.state t = st ↔ s.state t = st := by
    rcases hcalm t with heq | ⟨hold, hnew⟩
    · rw [heq]
    · refine iff_of_false (fun heq => ?_) (fun heq => ?_)
      · rcases hst with rfl | rfl <;> rcases hnew with hnew | hnew <;>
          exact absurd (heq.symm.trans hnew) (by decide)
      · rcases hst with rfl | rfl <;> rcases hold with hold | hold <;>
          exact absurd (heq.symm.trans hold) (by decide)
  have hremaining : s'.remaining L = s.remaining L := by rw [hsame]; rfl
  have hwake : s'.wakeTick = s.wakeTick := by rw [hsame]
  have hpid : s'.nextPid = s.nextPid := by rw [hsame]
  have hticks : s'.ticks = s.ticks := by rw [hsame]
  rw [hk]
  refine ⟨h.tasks.trans hremaining.symm, h.current, h.created.trans hpid.symm, fun t => ?_,
    fun t u => ?_, hwaiting, hlocked, hcount, hsignaled, h.ticks.trans hticks.symm⟩
  · rw [hstate .dead (.inl rfl)]
    exact h.exited t
  · rw [hstate .sleeping (.inr rfl), hwake]
    exact h.asleep t u

/-- An object is taken exactly if a call that waits for it blocks. -/
theorem taken_iff (h : s.Shows L W c k) (hcurrent : s.current = some c) :
    k.Taken o ↔ Blocks s o := by
  cases o with
  | mutex m =>
    show k.locked m = true ↔ s.locked m = true
    rw [h.locked]
  | semaphore i =>
    show k.count i = 0 ↔ s.count i = 0
    rw [h.count]
  | event e =>
    show k.signaled e = false ↔ s.signaled e = false
    rw [h.signaled]
  | task t =>
    show t ∉ k.exited ∧ t ≠ k.current ↔ s.state t ≠ .dead ∧ s.current ≠ some t
    rw [h.exited, h.current, hcurrent]
    exact and_congr_right fun _ => by simp [eq_comm]

/-- An object that is not taken is taken. -/
theorem take (h : s.Shows L W c k) (o : WaitObj) : (acquire s o).Shows L W c (k.take o) := by
  have hcalm : ∀ t, (acquire s o).state t = s.state t := by
    intro t
    cases o <;> rfl
  cases o with
  | mutex m =>
    refine h.objects rfl (fun t => .inl (hcalm t)) rfl h.waiting ?_ h.count h.signaled
    show Function.update k.locked m true = Function.update s.locked m true
    rw [h.locked]
  | semaphore i =>
    refine h.objects rfl (fun t => .inl (hcalm t)) rfl h.waiting h.locked ?_ h.signaled
    show Function.update k.count i (k.count i - 1) = Function.update s.count i (s.count i - 1)
    rw [h.count]
  | event e => exact h
  | task t => exact h

/-- A call that waits for an object. -/
theorem wait (h : s.Shows L W c k) (hinv : s.Inv L W c) (hrun : s.state c = .running)
    (o : WaitObj) :
    ((Op.waitOn o).before s L W c).Shows L ((Op.waitOn o).waits s W c) c (k.wait o).1 ∧
      ((k.wait o).2 = true ↔ (Op.waitOn o).Yields s) := by
  have htaken := h.taken_iff (o := o) hinv.runList.current
  have hne : (∀ ticks, Op.waitOn o ≠ .sleep ticks) ∧ Op.waitOn o ≠ .exit := by
    cases o <;> exact ⟨nofun, nofun⟩
  have hcalm := fun t => before_calm (t := t) hinv hrun (.inr hne)
  rw [before_waitOn] at hcalm ⊢
  rw [waits_waitOn, yields_waitOn]
  unfold Kernel.wait
  by_cases hb : Blocks s o
  · rw [if_pos hb] at hcalm
    rw [if_pos hb, if_pos hb, if_pos (htaken.mpr hb)]
    refine ⟨h.objects rfl hcalm rfl ?_ h.locked h.count h.signaled, iff_of_true rfl hb⟩
    rw [stackOf_push, h.waiting, h.current]
  · rw [if_neg hb, if_neg hb, if_neg (mt htaken.mp hb)]
    exact ⟨h.take o, iff_of_false Bool.false_ne_true hb⟩

/-- An object goes to the first task that waits for it, or nobody waits for it. -/
theorem give (h : s.Shows L W c k) (hinv : s.Inv L W c) {free : Kernel} {o : WaitObj}
    (hnone : s.waiters o = none → s'.Shows L W c free)
    (hsome : ∀ t, s.waiters o = some t → s' = wakeFirst s o t) :
    s'.Shows L (Function.update W o (W o).tail) c (k.give o free) := by
  unfold Kernel.give
  rw [h.waiting]
  rcases hinv.waits.waiters_cases o with ⟨hnull, hnil⟩ | ⟨t, l, hhead, hcons⟩
  · rw [if_pos hnil, hnil, List.tail_nil, ← hnil, Function.update_eq_self]
    exact hnone hnull
  · rw [if_neg (hcons ▸ List.cons_ne_nil t l), hsome t hhead]
    refine h.objects rfl (fun x => ?_) rfl ?_ h.locked h.count h.signaled
    · exact (wakeFirst_state_cases hinv hhead x).imp_right fun hwoken =>
        ⟨.inr hwoken.1, .inr hwoken.2⟩
    · rw [stackOf_pop, h.waiting]

/-- The links to the next task have no part in what the kernel is. -/
theorem withNext (h : s.Shows L W c k) (next : TaskId → Option TaskId) :
    { s with next := next }.Shows L W c k :=
  ⟨h.tasks, h.current, h.created, h.exited, h.asleep, h.waiting, h.locked, h.count, h.signaled,
    h.ticks⟩

/-- A new task is ready, and was taken to be so before. -/
theorem create (h : s.Shows L W c k) (hinv : s.Inv L W c) :
    (taskCreate s true true).2.Shows L W c { k with created := k.created + 1 } := by
  have hstate : Function.update s.state s.nextPid .ready = s.state := by
    rw [← (hinv.fresh s.nextPid le_rfl).1, Function.update_eq_self]
  refine ⟨h.tasks, h.current, congrArg (· + 1) h.created, fun t => ?_, fun t u => ?_, h.waiting,
    h.locked, h.count, h.signaled, h.ticks⟩
  · show t ∈ k.exited ↔ Function.update s.state s.nextPid .ready t = .dead
    rw [hstate]
    exact h.exited t
  · show k.asleep t = some u ↔ Function.update s.state s.nextPid .ready t = .sleeping ∧
      Function.update s.wakeTick s.nextPid 0 t = u
    rw [hstate, h.asleep]
    refine and_congr_right fun hsleep => ?_
    rw [Function.update_of_ne]
    rintro rfl
    exact absurd ((hinv.fresh s.nextPid le_rfl).1.symm.trans hsleep) (by decide)

/-- A task that is added is the last one of the round. -/
theorem add (h : s.Shows L W c k) (hinv : s.Inv L W c) (t : TaskId) :
    { s with next := appended s L t }.Shows (L ++ [t]) W c { k with tasks := k.tasks ++ [t] } := by
  refine { h.withNext (appended s L t) with tasks := ?_ }
  show k.tasks ++ [t] = s.remaining (L ++ [t])
  rw [h.tasks]
  unfold Sys.remaining
  cases hdoomed : s.taskToDestroy with
  | none => rfl
  | some d => exact (List.erase_append_left _ (hinv.runList.doomed d hdoomed).1).symm

/-- The caller goes to sleep. -/
theorem sleep (h : s.Shows L W c k) (hrun : s.state c = .running) (wakeTick : ℕ) :
    { s with
      wakeTick := Function.update s.wakeTick c wakeTick
      state := Function.update s.state c .sleeping }.Shows L W c
        { k with asleep := Function.update k.asleep c (some wakeTick) } := by
  refine ⟨h.tasks, h.current, h.created, fun t => ?_, fun t u => ?_, h.waiting, h.locked, h.count,
    h.signaled, h.ticks⟩
  · show t ∈ k.exited ↔ Function.update s.state c .sleeping t = .dead
    rw [h.exited]
    by_cases htc : t = c
    · subst htc
      rw [Function.update_self, hrun]
      decide
    · rw [Function.update_of_ne htc]
  · show Function.update k.asleep c (some wakeTick) t = some u ↔
      Function.update s.state c .sleeping t = .sleeping ∧
        Function.update s.wakeTick c wakeTick t = u
    by_cases htc : t = c
    · subst htc
      simp
    · simp only [Function.update_of_ne htc]
      exact h.asleep t u

/-- The caller exits, and those that wait for it go on. -/
theorem exit (h : s.Shows L W c k) (hinv : s.Inv L W c) (hrun : s.state c = .running) :
    (Op.exit.before s L W c).Shows L (Function.update W (.task c) []) c
      { k with
        exited := k.current :: k.exited
        waiting := clear (.task k.current) k.waiting } := by
  have hcaller : (Op.exit.before s L W c).state c = .dead := Function.update_self ..
  have hother : ∀ t, t ≠ c → (Op.exit.before s L W c).state t = s.state t ∨
      s.state t = .blocked ∧ (Op.exit.before s L W c).state t = .ready :=
    fun t ht => before_state .exit hinv (.inl ht)
  obtain rfl := h.current
  refine ⟨h.tasks, rfl, h.created, fun t => ?_, fun t u => ?_, ?_, h.locked, h.count, h.signaled,
    h.ticks⟩
  · rw [List.mem_cons, h.exited]
    by_cases htc : t = k.current
    · subst htc
      exact iff_of_true (.inl rfl) hcaller
    · rw [or_iff_right htc]
      rcases hother t htc with heq | ⟨hblocked, hready⟩
      · rw [heq]
      · rw [hblocked, hready]
        decide
  · show k.asleep t = some u ↔ _ ∧ s.wakeTick t = u
    rw [h.asleep]
    by_cases htc : t = k.current
    · subst htc
      rw [hcaller, hrun]
      simp
    · rcases hother t htc with heq | ⟨hblocked, hready⟩
      · rw [heq]
      · rw [hblocked, hready]
        simp
  · rw [stackOf_clear, h.waiting]

/-- **A call up to the point where it returns or yields.** -/
theorem before (h : s.Shows L W c k) (hinv : s.Inv L W c) (hrun : s.state c = .running) :
    (op.before s L W c).Shows (op.list L) (op.waits s W c) c (k.call op).1 ∧
      ((k.call op).2 = true ↔ op.Yields s) := by
  have hreturns (ho : op.target = none) : false = true ↔ ∃ o, op.target = some o ∧ Blocks s o := by
    simp [ho]
  have hcurrent := hinv.runList.current
  cases op using Op.waitOn_cases with
  | waitOn o =>
    have hcall : k.call (.waitOn o) = k.wait o := by cases o <;> rfl
    rw [hcall, list_waitOn]
    exact h.wait hinv hrun o
  | create taskMemory stackMemory =>
    refine ⟨?_, hreturns rfl⟩
    rcases taskMemory with _ | _
    · exact h
    rcases stackMemory with _ | _
    · exact h
    exact h.create hinv
  | add task =>
    cases task with
    | none => exact ⟨h, hreturns rfl⟩
    | some t => exact ⟨h.add hinv t, hreturns rfl⟩
  | yield => exact ⟨h, iff_of_true rfl trivial⟩
  | sleep ticks =>
    refine ⟨?_, iff_of_true rfl trivial⟩
    obtain rfl := h.current
    have hticks : u64 (k.ticks + ticks) = u64 (s.ticks + ticks) := by rw [h.ticks]
    show { s with
      wakeTick := Function.update s.wakeTick k.current (u64 (s.ticks + ticks))
      state := Function.update s.state k.current .sleeping }.Shows L W k.current _
    rw [← hticks]
    exact h.sleep hrun _
  | exit => exact ⟨h.exit hinv hrun, iff_of_true rfl trivial⟩
  | join => exact ⟨h, hreturns rfl⟩
  | mutexTryLock m =>
    refine ⟨?_, hreturns rfl⟩
    show (mutexTryLock s m).2.Shows L W c (if k.Taken (.mutex m) then k else k.take (.mutex m))
    unfold mutexTryLock
    have htaken := h.taken_iff (o := .mutex m) hcurrent
    by_cases hlocked : s.locked m = true
    · rw [if_pos hlocked, if_pos (htaken.mpr hlocked)]
      exact h
    · rw [if_neg hlocked, if_neg (mt htaken.mp hlocked)]
      exact h.take (.mutex m)
  | mutexUnlock m =>
    refine ⟨h.give hinv (fun hnull => ?_) fun t hhead => ?_, hreturns rfl⟩
    · show (mutexUnlock s m).Shows L W c _
      unfold mutexUnlock
      rw [hnull]
      refine h.objects rfl (fun t => .inl rfl) rfl h.waiting ?_ h.count h.signaled
      show Function.update k.locked m false = Function.update s.locked m false
      rw [h.locked]
    · show mutexUnlock s m = _
      unfold mutexUnlock
      rw [hhead]
  | semaphoreTryWait i =>
    refine ⟨?_, hreturns rfl⟩
    show (semaphoreTryWait s i).2.Shows L W c
      (if k.Taken (.semaphore i) then k else k.take (.semaphore i))
    unfold semaphoreTryWait
    have htaken := h.taken_iff (o := .semaphore i) hcurrent
    by_cases hzero : s.count i = 0
    · rw [if_pos hzero, if_pos (htaken.mpr hzero)]
      exact h
    · rw [if_neg hzero, if_neg (mt htaken.mp hzero)]
      exact h.take (.semaphore i)
  | semaphoreSignal i =>
    refine ⟨h.give hinv (fun hnull => ?_) fun t hhead => ?_, hreturns rfl⟩
    · show (semaphoreSignal s i).Shows L W c _
      unfold semaphoreSignal
      rw [hnull]
      refine h.objects rfl (fun t => .inl rfl) rfl h.waiting h.locked ?_ h.signaled
      show Function.update k.count i (u64 (k.count i + 1)) =
        Function.update s.count i (u64 (s.count i + 1))
      rw [h.count]
    · show semaphoreSignal s i = _
      unfold semaphoreSignal
      rw [hhead]
  | eventSet e =>
    have hcalm := fun t => before_calm (t := t) hinv hrun
      (.inr ⟨nofun, nofun⟩ : _ ∨ (∀ ticks, Op.eventSet e ≠ .sleep ticks) ∧ Op.eventSet e ≠ .exit)
    refine ⟨h.objects rfl hcalm rfl ?_ h.locked h.count ?_, hreturns rfl⟩
    · show stackOf (clear (.event e) k.waiting) = Function.update W (.event e) []
      rw [stackOf_clear, h.waiting]
    · show Function.update k.signaled e true = Function.update s.signaled e true
      rw [h.signaled]
  | eventReset e =>
    refine ⟨h.objects rfl (fun t => .inl rfl) rfl h.waiting h.locked h.count ?_, hreturns rfl⟩
    show Function.update k.signaled e false = Function.update s.signaled e false
    rw [h.signaled]
  | tick =>
    refine ⟨⟨h.tasks, h.current, h.created, h.exited, h.asleep, h.waiting, h.locked, h.count,
      h.signaled, ?_⟩, iff_of_true rfl trivial⟩
    show u64 (k.ticks + 1) = u64 (s.ticks + 1)
    rw [h.ticks]

/-! ### `scheduler_schedule` -/

/-- The tasks that sleep on. -/
theorem wake_asleep (h : s.Shows L W c k)
    (hsleepers : ∀ t, s.state t = .sleeping → t ∈ s.remaining L) (t : TaskId) (u : ℕ) :
    k.wake.asleep t = some u ↔
      s.woken (s.remaining L) t = .sleeping ∧ s.wakeTick t = u := by
  show (k.asleep t).filter (fun wakeTick => k.ticks < wakeTick) = some u ↔ _
  rw [Option.filter_eq_some_iff, h.asleep, h.ticks, decide_eq_true_eq]
  unfold Sys.woken Sys.Due
  constructor
  · rintro ⟨⟨hsleep, rfl⟩, hlt⟩
    rw [if_neg fun hdue => Nat.not_le_of_lt hlt hdue.2.2]
    exact ⟨hsleep, rfl⟩
  · split_ifs with hdue
    · rintro ⟨hready, -⟩
      exact absurd hready (by decide)
    · rintro ⟨hsleep, rfl⟩
      refine ⟨⟨hsleep, rfl⟩, Nat.lt_of_not_le fun hle => hdue ⟨hsleepers t hsleep, hsleep, hle⟩⟩

/-- The tasks that can go on when the sleepers have been woken. -/
theorem wake_ready (h : s.Shows L W c k) (hwaits : WaitLists s W)
    (hsleepers : ∀ t, s.state t = .sleeping → t ∈ s.remaining L) :
    k.wake.Ready t ↔ s.woken (s.remaining L) t = .ready ∨ s.woken (s.remaining L) t = .running := by
  have hdead : t ∉ k.exited ↔ s.woken (s.remaining L) t ≠ .dead := by
    rw [h.exited, Ne, Sys.woken_iff (by decide) (by decide)]
  have hasleep : k.wake.asleep t = none ↔ s.woken (s.remaining L) t ≠ .sleeping := by
    rw [Option.eq_none_iff_forall_ne_some]
    simp only [ne_eq, h.wake_asleep hsleepers]
    exact ⟨fun hno heq => hno _ ⟨heq, rfl⟩, fun hne u heq => hne heq.1⟩
  have hwaiting : t ∉ k.waiting.map Prod.snd ↔ s.woken (s.remaining L) t ≠ .blocked := by
    rw [← exists_mem_stackOf, h.waiting, Ne, Sys.woken_iff (by decide) (by decide), hwaits.blocked]
  show t ∉ k.exited ∧ k.wake.asleep t = none ∧ t ∉ k.waiting.map Prod.snd ↔ _
  rw [hdead, hasleep, hwaiting]
  cases s.woken (s.remaining L) t <;> simp

/-- The kernel and the scheduler pass control to the same task. -/
theorem turn (h : s.Shows L W c k) (hinv : s.Inv L W c)
    (hsleepers : ∀ t, s.state t = .sleeping → t ∈ s.remaining L) (hs : Scheduled s s' L c c') :
    k.wake.turn = c' := by
  have hnodup : (s.remaining L).Nodup := hs.chain.nodup
  rw [hs.choice]
  show ((othersOf k.tasks k.current).find? fun t => k.wake.Ready t).getD k.current = _
  rw [h.tasks, h.current, chosen]
  congr 1
  refine List.find?_congr fun t ht => ?_
  have hne := ((mem_othersOf hnodup hinv.runList.current_remaining).mp ht).2
  have hrun : s.woken (s.remaining L) t ≠ .running := by
    rw [Ne, Sys.woken_iff (by decide) (by decide)]
    exact fun hrun => hne (hinv.others t hrun)
  rw [decide_eq_decide, h.wake_ready hinv.waits hsleepers, or_iff_left hrun]

/-- **`scheduler_schedule`** passes control on as the kernel does. -/
theorem pass (h : s.Shows L W c k) (hinv : s.Inv L W c)
    (hsleepers : ∀ t, s.state t = .sleeping → t ∈ s.remaining L) (hs : Scheduled s s' L c c')
    (hrun : s'.state c' = .running) : s'.Shows (s.remaining L) W c' k.pass where
  tasks := by
    have hnodup : (s.remaining L).Nodup := hs.chain.nodup
    have hdead : ∀ t ∈ s.remaining L, t ≠ c → t ∉ k.exited := by
      intro t ht hne hexited
      obtain ⟨hL, hdoomed⟩ := hinv.runList.mem_remaining.mp ht
      exact hdoomed ((hinv.dead_iff t hL hne).mp ((h.exited t).mp hexited))
    have hremaining (R : List TaskId) : s'.remaining R = s'.taskToDestroy.elim R R.erase := by
      unfold Sys.remaining
      cases s'.taskToDestroy <;> rfl
    have hcaller : s.woken (s.remaining L) c = .dead ↔ c ∈ k.exited := by
      rw [h.exited, Sys.woken_iff (by decide) (by decide)]
    show k.tasks.filter (· ∉ k.exited) = s'.remaining (s.remaining L)
    rw [h.tasks, hremaining, hs.toDestroy]
    by_cases hexited : c ∈ k.exited
    · have hne : c' ≠ c := by
        rintro rfl
        rw [hs.state_new, if_pos rfl, hcaller.mpr hexited] at hrun
        exact absurd hrun (by decide)
      rw [if_pos ⟨hne, hcaller.mpr hexited⟩, Option.elim_some, hnodup.erase_eq_filter]
      refine List.filter_congr fun t ht => ?_
      by_cases htc : t = c
      · simp [htc, hexited]
      · simp [htc, hdead t ht htc]
    · rw [if_neg fun hpassed => hexited (hcaller.mp hpassed.2), Option.elim_none,
        List.filter_eq_self]
      intro t ht
      by_cases htc : t = c
      · simp [htc, hexited]
      · simp [hdead t ht htc]
  current := h.turn hinv hsleepers hs
  created := by
    rw [hs.frame]
    exact h.created
  exited t := by
    rw [hs.state_iff hinv.runList (.inr rfl)]
    exact h.exited t
  asleep t u := by
    have hwake : s'.wakeTick = s.wakeTick := by rw [hs.frame]
    rw [hwake, hs.sleeping_iff hinv.runList]
    exact h.wake_asleep hsleepers t u
  waiting := h.waiting
  locked := by
    rw [hs.frame]
    exact h.locked
  count := by
    rw [hs.frame]
    exact h.count
  signaled := by
    rw [hs.frame]
    exact h.signaled
  ticks := by
    rw [hs.frame]
    exact h.ticks

end Sys.Shows

/-! ### Runs -/

namespace Kernel

/-- The caller cannot go on before it has been woken. -/
def Suspends (k : Kernel) (op : Op) : Prop :=
  (∃ ticks, op = .sleep ticks) ∨ op = .exit ∨ ∃ o, op.target = some o ∧ k.Taken o

/-- A task that is added or joined has been created, none is added twice, and the boot task does not
have to be woken. -/
structure Legal (k : Kernel) (op : Op) : Prop where
  add : ∀ t, op = .add (some t) → t < k.created ∧ t ∉ k.tasks ∧ t ∉ k.exited
  join : ∀ t, op = .join (some t) → t < k.created
  boot : k.current = 0 → ¬ k.Suspends op

/-- All calls of a run of the kernel are legal. -/
def LegalRun : Kernel → List Op → Prop
  | _, [] => True
  | k, op :: ops => k.Legal op ∧ (k.step op).LegalRun ops

end Kernel

variable {w w' : World}

/-- The code shows the kernel: the fields of its tasks and objects are those of a state that is
reached in runs of `kmain`, and tell the state of the kernel. -/
structure World.Shows (w : World) (k : Kernel) (L : List TaskId) (W : WaitObj → List TaskId)
    (c : TaskId) : Prop where
  kmain : w.Kmain L W c
  shows : w.sys.Shows L W c k
  sleepers : ∀ t, w.sys.state t = .sleeping → t ∈ L
  added : ∀ t ∈ w.added, t ∈ L ∨ w.sys.state t = .dead

theorem Kernel.shows_boot (initial : ℕ → ℕ) :
    (World.boot initial).Shows (Kernel.boot initial) [0] (fun _ => []) 0 := by
  have hstate : ∀ t, (World.boot initial).sys.state t = if t = 0 then .running else .ready :=
    fun t => rfl
  refine ⟨World.Kmain.boot, ⟨rfl, rfl, rfl, fun t => ?_, fun t u => ?_, rfl, rfl, rfl, rfl, rfl⟩,
    fun t ht => ?_, fun t ht => .inl ht⟩
  · rw [hstate]
    split_ifs <;> simp [Kernel.boot]
  · rw [hstate]
    split_ifs <;> simp [Kernel.boot]
  · rw [hstate] at ht
    split_ifs at ht

namespace World.Shows

/-- A call that is legal in the kernel is legal in the code. -/
theorem legal (h : w.Shows k L W c) (hlegal : k.Legal op) : w.Legal op := by
  have hpid : k.created = w.sys.nextPid := h.shows.created
  cases op with
  | add task =>
    cases task with
    | none => trivial
    | some t =>
      obtain ⟨hlt, htasks, hexited⟩ := hlegal.add t rfl
      rw [h.shows.exited] at hexited
      refine ⟨hpid ▸ hlt, fun hadded => htasks ?_⟩
      have hL := (h.added t hadded).resolve_right hexited
      rw [h.shows.tasks]
      refine h.kmain.inv.sys.runList.mem_remaining.mpr ⟨hL, fun hdoomed => hexited ?_⟩
      have hne := (h.kmain.inv.sys.runList.doomed t hdoomed).2
      exact (h.kmain.inv.sys.dead_iff t hL hne).mpr hdoomed
  | join task =>
    cases task with
    | none => trivial
    | some t =>
      show t < w.sys.nextPid
      exact hpid ▸ hlegal.join t rfl
  | _ => trivial

/-- The boot task need not be woken in the code either. -/
theorem bootStays (h : w.Shows k L W c) (hlegal : k.Legal op) : w.BootStays op := by
  intro hcurrent hsusp
  have hrun := h.kmain.inv.sys.runList.current
  refine hlegal.boot ?_ ?_
  · exact h.shows.current.trans (Option.some_injective _ (hrun.symm.trans hcurrent))
  · rcases suspends_cases hsusp with ⟨o, ho, hb⟩ | ⟨ticks, rfl⟩ | rfl
    · exact .inr (.inr ⟨o, ho, (h.shows.taken_iff hrun).mpr hb⟩)
    · exact .inl ⟨ticks, rfl⟩
    · exact .inr (.inl rfl)

/-- A sleeper has not exited. -/
theorem mem_remaining (h : s.Inv L W c) (ht : t ∈ L) (hsleep : s.state t = .sleeping) :
    t ∈ s.remaining L := by
  refine h.runList.mem_remaining.mpr ⟨ht, fun hdoomed => ?_⟩
  have hdead := (h.dead_iff t ht (h.runList.doomed t hdoomed).2).mpr hdoomed
  exact absurd (hsleep.symm.trans hdead) (by decide)

/-- **One call.** -/
theorem step (h : w.Shows k L W c) (hlegal : k.Legal op) :
    ∃ w' L' c', w.exec op = some w' ∧
      w'.Shows (k.step op) L' (op.waits w.sys W c) c' := by
  obtain ⟨w', L', c', hexec, hout, hk⟩ := h.kmain.exec (h.legal hlegal) (h.bootStays hlegal)
  refine ⟨w', L', c', hexec, ?_⟩
  have hinv := h.kmain.inv.sys
  have hrun := h.kmain.inv.running
  have hbefore := hinv.before hrun (h.kmain.inv.fits (h.legal hlegal))
  obtain ⟨hshows, hyields⟩ : (op.before w.sys L W c).Shows (op.list L) (op.waits w.sys W c) c
      (k.call op).1 ∧ ((k.call op).2 = true ↔ op.Yields w.sys) := h.shows.before hinv hrun
  have hlist : ∀ t ∈ L, t ∈ op.list L := by
    intro t ht
    unfold Op.list
    split
    · exact List.mem_append_left _ ht
    · exact ht
  -- the two invariants at the point where the call returns or yields
  have hsleepers : ∀ t, (op.before w.sys L W c).state t = .sleeping → t ∈ op.list L := by
    intro t ht
    by_cases htc : t = c
    · exact hlist t (htc ▸ hinv.runList.mem)
    · rcases before_state op hinv (.inl htc) with heq | ⟨-, hready⟩
      · exact hlist t (h.sleepers t (heq.symm.trans ht))
      · exact absurd (ht.symm.trans hready) (by decide)
  have hadded : ∀ t ∈ w'.added, t ∈ op.list L ∨ (op.before w.sys L W c).state t = .dead := by
    have hold : ∀ t ∈ w.added, t ∈ op.list L ∨ (op.before w.sys L W c).state t = .dead := by
      intro t ht
      by_cases htc : t = c
      · exact .inl (hlist t (htc ▸ hinv.runList.mem))
      · exact (h.added t ht).imp (hlist t) (before_dead hinv htc)
    obtain ⟨s', -, rfl⟩ := Option.map_eq_some_iff.mp hexec
    by_cases hadd : ∃ t, op = .add (some t)
    · obtain ⟨t, rfl⟩ := hadd
      intro x hx
      rcases List.mem_cons.mp hx with rfl | hx
      · exact .inl (List.mem_append_right L (List.mem_singleton_self x))
      · exact hold x hx
    · obtain ⟨-, hsame⟩ := list_of_ne_add (w := w) (L := L) (s := s') fun t heq => hadd ⟨t, heq⟩
      rw [hsame]
      exact hold
  unfold Kernel.step
  generalize hs' : w'.sys = s' at hout
  cases hout with
  | returns hy =>
    rw [if_neg (mt hyields.mp hy)]
    exact ⟨hk, hs' ▸ hshows, hs' ▸ hsleepers, hs' ▸ hadded⟩
  | yields hy hs =>
    rw [if_pos (hyields.mpr hy)]
    subst hs'
    refine ⟨hk, hshows.pass hbefore (fun t ht => mem_remaining hbefore (hsleepers t ht) ht) hs
      hk.inv.running, fun t ht => ?_, fun t ht => ?_⟩
    · rw [hs.sleeping_iff hbefore.runList] at ht
      have hsleep : (op.before w.sys L W c).state t = .sleeping := by
        unfold Sys.woken at ht
        split_ifs at ht
        exact ht
      exact mem_remaining hbefore (hsleepers t hsleep) hsleep
    · rw [hs.state_iff hbefore.runList (.inr rfl)]
      rcases hadded t ht with hmem | hdead
      · by_cases hdoomed : (op.before w.sys L W c).taskToDestroy = some t
        · have hne := (hbefore.runList.doomed t hdoomed).2
          exact .inr ((hbefore.dead_iff t hmem hne).mpr hdoomed)
        · exact .inl (hbefore.runList.mem_remaining.mpr ⟨hmem, hdoomed⟩)
      · exact .inr hdead

/-- A run of calls. -/
theorem run {ops : List Op} (h : w.Shows k L W c) (hlegal : k.LegalRun ops) :
    ∃ w' L' W' c', ops.foldlM World.exec w = some w' ∧
      w'.Shows (ops.foldl Kernel.step k) L' W' c' := by
  induction ops generalizing w k L W c with
  | nil => exact ⟨w, L, W, c, rfl, h⟩
  | cons op ops ih =>
    obtain ⟨w₁, L₁, c₁, hexec, h₁⟩ := h.step hlegal.1
    obtain ⟨w', L', W', c', hrest, hlast⟩ := ih h₁ hlegal.2
    refine ⟨w', L', W', c', ?_, hlast⟩
    rw [List.foldlM_cons, hexec]
    exact hrest

end World.Shows

/-- **The code is the kernel without pointers.**  Every run of calls that is legal in the kernel
completes in the code, however often tasks block, sleep, exit and are interrupted, and leaves the
same task in control, the same tasks ready, asleep, exited and to take turns, the same tasks waiting
for each object in the same order, and the same values of the objects. -/
theorem kernel_refines (initial : ℕ → ℕ) (ops : List Op)
    (hlegal : (Kernel.boot initial).LegalRun ops) :
    ∃ w L W, ops.foldlM World.exec (World.boot initial) = some w ∧
      w.Shows (ops.foldl Kernel.step (Kernel.boot initial)) L W
        (ops.foldl Kernel.step (Kernel.boot initial)).current := by
  obtain ⟨w, L, W, c, hrun, h⟩ := (Kernel.shows_boot initial).run hlegal
  obtain rfl := h.shows.current
  exact ⟨w, L, W, hrun, h⟩

/-- A second task waits for a semaphore, the boot task signals it, and the second task exits. -/
theorem kernel_refines_example :
    ∃ w L W, [Op.create true true, .add (some 1), .yield, .semaphoreWait 3, .semaphoreSignal 3,
        .yield, .exit].foldlM World.exec (World.boot fun _ => 0) = some w ∧
      w.Shows ([Op.create true true, .add (some 1), .yield, .semaphoreWait 3, .semaphoreSignal 3,
        .yield, .exit].foldl Kernel.step (Kernel.boot fun _ => 0)) L W
          ([Op.create true true, .add (some 1), .yield, .semaphoreWait 3, .semaphoreSignal 3,
            .yield, .exit].foldl Kernel.step (Kernel.boot fun _ => 0)).current := by
  have hgoes {k : Kernel} {op : Op} (hsleep : ∀ ticks, op ≠ .sleep ticks) (hexit : op ≠ .exit)
      (htarget : op.target = none) : ¬ k.Suspends op := by
    rintro (⟨ticks, rfl⟩ | rfl | ⟨o, ho, -⟩)
    · exact hsleep ticks rfl
    · exact hexit rfl
    · exact absurd (htarget.symm.trans ho) nofun
  refine kernel_refines _ _ ⟨⟨nofun, nofun, fun _ => hgoes nofun nofun rfl⟩,
    ⟨?_, nofun, fun _ => hgoes nofun nofun rfl⟩, ⟨nofun, nofun, fun _ => hgoes nofun nofun rfl⟩,
    ⟨nofun, nofun, fun hboot => absurd hboot (by decide)⟩,
    ⟨nofun, nofun, fun _ => hgoes nofun nofun rfl⟩, ⟨nofun, nofun, fun _ => hgoes nofun nofun rfl⟩,
    ⟨nofun, nofun, fun hboot => absurd hboot (by decide)⟩, trivial⟩
  rintro t ⟨⟩
  decide

end Bethany
