import Bethany.Library.Runs
import Bethany.Sync.Calls

/-!
# Preemption inside the calls that wait

`mutex_lock`, `semaphore_wait`, `event_wait` and `task_join` do not turn interrupts off while they
put the caller on a `waiters` list, so the timer can come in between any two of their
assignments.

* `Micro`, `Micro.exec`: the system between two assignments, with the place at which each task is
  in such a call; `Micro.run_waitOn`: without interrupts the assignments make up the call;
* `Micro.Findable`: a task that loses control while it is blocked is on the list of its object;
* `Micro.TickSafe`: a tick between `state = TASK_BLOCKED` and `waiters = current` finds no other
  task of the run list that is ready, or sleeps and whose time has come;
* `Micro.Inv`: what holds in every run up to the first tick that is not safe;
* `preemption_iff`: in a run every blocked task can be found exactly if every tick is safe.
-/

namespace Bethany

open Machine LinkedList Relation Runs

/-- The assignment that comes next in a call that waits. -/
inductive Place
  | setState
  | setWaitNext
  | setWaiters
  | yield
deriving DecidableEq

/-- The system between two assignments.  `call` gives the object that a task is about to wait for
and its place in the call, `target` the object for which it has set its state to blocked last,
and `added` the tasks passed to `scheduler_add`, with the boot task. -/
structure Micro where
  sys : Sys
  call : TaskId → Option (WaitObj × Place)
  target : TaskId → Option WaitObj
  added : List TaskId

/-- What happens next: a timer interrupt; the task in control enters a call that waits, goes on to
the next assignment of it, or makes another call. -/
inductive MicroEvent
  | tick
  | enter (o : WaitObj)
  | assign
  | call (op : Op)

/-- A task that is waited for has been created. -/
def WaitObj.Created (o : WaitObj) (s : Sys) : Prop := ∀ t, o = .task t → t < s.nextPid

instance (o : WaitObj) (s : Sys) : Decidable (o.Created s) :=
  match o with
  | .task t =>
    decidable_of_iff (t < s.nextPid) ⟨fun h _ heq => WaitObj.task.inj heq ▸ h, fun h => h t rfl⟩
  | .mutex _ => isTrue (by rintro _ ⟨⟩)
  | .semaphore _ => isTrue (by rintro _ ⟨⟩)
  | .event _ => isTrue (by rintro _ ⟨⟩)

/-- The calls that go in one step: they wait for no object, and no task is added twice. -/
def Micro.Legal (m : Micro) : Op → Prop
  | .add (some t) => t < m.sys.nextPid ∧ t ∉ m.added
  | op => op.target = none

instance (m : Micro) : DecidablePred m.Legal := fun op => by
  unfold Micro.Legal
  split <;> infer_instance

/-- One assignment of the task `t`, which is about to wait for the object. -/
def Micro.assign (m : Micro) (t : TaskId) (o : WaitObj) : Place → Option Micro
  | .setState => some { m with
      sys := { m.sys with state := Function.update m.sys.state t .blocked }
      call := Function.update m.call t (some (o, .setWaitNext))
      target := Function.update m.target t (some o) }
  | .setWaitNext => some { m with
      sys := { m.sys with waitNext := Function.update m.sys.waitNext t (m.sys.waiters o) }
      call := Function.update m.call t (some (o, .setWaiters)) }
  | .setWaiters => some { m with
      sys := { m.sys with waiters := Function.update m.sys.waiters o (some t) }
      call := Function.update m.call t (some (o, .yield)) }
  | .yield => (taskYield m.sys).map fun s =>
      { m with sys := s, call := Function.update m.call t none }

/-- The tasks added after a call. -/
def addedAfter (added : List TaskId) : Op → List TaskId
  | .add (some t) => t :: added
  | _ => added

/-- One event, for the task `t` that has control: nothing if it cannot happen.  A task that has
exited only halts. -/
def Micro.execBy (m : Micro) (t : TaskId) : MicroEvent → Option Micro
  | .tick => (timerTick m.sys).map fun s => { m with sys := s }
  | .enter o =>
      if m.sys.state t ≠ .dead ∧ m.call t = none ∧ o.Created m.sys then
        if Blocks m.sys o then
          some { m with call := Function.update m.call t (some (o, .setState)) }
        else some { m with sys := acquire m.sys o }
      else none
  | .assign => (m.call t).bind fun (o, place) => m.assign t o place
  | .call op =>
      if m.sys.state t ≠ .dead ∧ m.call t = none ∧ m.Legal op then
        (op.exec m.sys).map fun s => { m with sys := s, added := addedAfter m.added op }
      else none

def Micro.exec (m : Micro) (e : MicroEvent) : Option Micro :=
  m.sys.current.bind fun t => m.execBy t e

/-- After `scheduler_init`, with semaphores of the given counts. -/
def Micro.boot (initial : ℕ → ℕ) : Micro where
  sys := schedulerInit initial
  call := fun _ => none
  target := fun _ => none
  added := [0]

/-- The task is met from `waiters` of the object on. -/
def Sys.Waits (s : Sys) (o : WaitObj) (t : TaskId) : Prop :=
  ∃ first, s.waiters o = some first ∧ ReflTransGen (fun a b => s.waitNext a = some b) first t

/-- The task is on the list of the object that it is blocking on. -/
def Micro.Listed (m : Micro) (t : TaskId) : Prop := ∃ o, m.target t = some o ∧ m.sys.Waits o t

/-- A task that loses control while it is blocked is on the list of its object. -/
def Micro.Findable (m : Micro) (_ : MicroEvent) (m' : Micro) : Prop :=
  ∀ t, m.sys.current = some t → m'.sys.current ≠ some t → m'.sys.state t = .blocked → m'.Listed t

/-- The task has set its state to blocked and has not set `waiters` yet. -/
def Micro.Window (m : Micro) (t : TaskId) : Prop :=
  ∃ o, m.call t = some (o, .setWaitNext) ∨ m.call t = some (o, .setWaiters)

/-- A task of the run list other than `t`, and other than `task_to_destroy`, is ready, or it sleeps
and its time will have come when the next tick has been counted. -/
def Sys.OtherDue (s : Sys) (t : TaskId) : Prop :=
  ∃ t', Linked s.next s.first t' ∧ t' ≠ t ∧ s.taskToDestroy ≠ some t' ∧
    (s.state t' = .ready ∨ s.state t' = .sleeping ∧ s.wakeTick t' ≤ u64 (s.ticks + 1))

/-- When a tick comes between `state = TASK_BLOCKED` and `waiters = current`, and the task is
blocked and not on the list yet, then no other task of the run list is ready or due. -/
def Micro.TickSafe (m : Micro) (e : MicroEvent) (_ : Micro) : Prop :=
  e = .tick → ∀ t, m.sys.current = some t → m.Window t → m.sys.state t = .blocked → ¬ m.Listed t →
    ¬ m.sys.OtherDue t

variable {m m' : Micro} {s s' : Sys} {L : List TaskId} {c c' t : TaskId} {o : WaitObj} {op : Op}
  {e : MicroEvent} {events : List MicroEvent} {initial : ℕ → ℕ} {place : Place}

/-- **Without interrupts the assignments make up the call.** -/
theorem Micro.run_waitOn (hcur : m.sys.current = some t) (hdead : m.sys.state t ≠ .dead)
    (hcall : m.call t = none) (ho : o.Created m.sys) :
    ((if Blocks m.sys o then [.enter o, .assign, .assign, .assign, .assign] else [.enter o]).foldlM
        Micro.exec m).map Micro.sys = (Op.waitOn o).exec m.sys := by
  rw [exec_waitOn]
  have henter : m.exec (.enter o) = if Blocks m.sys o then
      some { m with call := Function.update m.call t (some (o, .setState)) }
      else some { m with sys := acquire m.sys o } := by
    simp only [Micro.exec, hcur, Option.bind_some, Micro.execBy]
    rw [if_pos ⟨hdead, hcall, ho⟩]
  by_cases hb : Blocks m.sys o
  · rw [if_pos hb] at henter
    rw [if_pos hb, if_pos hb, block_eq hcur]
    simp only [List.foldlM_cons, List.foldlM_nil, Option.bind_eq_bind, henter, Option.bind_some]
    simp [Micro.exec, Micro.execBy, Micro.assign, hcur, taskYield, pushed]
    exact congrFun Option.map_id _
  · rw [if_neg hb] at henter
    rw [if_neg hb, if_neg hb]
    simp [henter]

/-! ### Calls other than those that wait -/

/-- What a call leaves alone up to its own `scheduler_schedule`. -/
structure Keeps (s s' : Sys) (c : TaskId) : Prop where
  first : s'.first = s.first
  current : s'.current = s.current
  taskToDestroy : s'.taskToDestroy = s.taskToDestroy
  nextPid : s.nextPid ≤ s'.nextPid
  next : ∀ t, s'.next t = s.next t ∨ t = s.nextPid ∧ s'.next t = none
  blocked : s'.state c = .blocked → s.state c = .blocked
  waiters : s'.state c = .blocked → ∀ o, o.Created s → s.waiters o = some c → s'.waiters o = some c

/-- A call that changes neither the tasks nor the lists. -/
theorem Keeps.of_eq (hfirst : s'.first = s.first) (hcurrent : s'.current = s.current)
    (hdestroy : s'.taskToDestroy = s.taskToDestroy) (hpid : s'.nextPid = s.nextPid)
    (hnext : s'.next = s.next) (hstate : s'.state c = .blocked → s.state c = .blocked)
    (hwaiters : s'.waiters = s.waiters) : Keeps s s' c :=
  ⟨hfirst, hcurrent, hdestroy, hpid.ge, fun t => .inl (congrFun hnext t), hstate,
    fun _ o _ ho => (congrFun hwaiters o).trans ho⟩

theorem Keeps.refl (s : Sys) (c : TaskId) : Keeps s s c := Keeps.of_eq rfl rfl rfl rfl rfl id rfl

/-- A call that wakes tasks of the list of one object, and the first one for certain. -/
theorem Keeps.of_wake (hframe : s' = { s with
      state := s'.state, waitNext := s'.waitNext, waiters := s'.waiters })
    (hstate : s'.state c = s.state c ∨ s'.state c = .ready)
    (hwaiters : ∀ o', o' ≠ o → s'.waiters o' = s.waiters o')
    (hfirst : s.waiters o = some c → s'.state c = .ready) : Keeps s s' c := by
  have hready : s'.state c = .ready → s'.state c ≠ .blocked := fun h => by
    rw [h]
    decide
  refine ⟨?_, ?_, ?_, ?_, ?_, fun hb => ?_, fun hb o' _ ho' => ?_⟩
  · rw [hframe]
  · rw [hframe]
  · rw [hframe]
  · rw [hframe]
  · rw [hframe]
    exact fun t => .inl rfl
  · rwa [← hstate.resolve_right fun hr => hready hr hb]
  · refine (hwaiters o' ?_).trans ho'
    rintro rfl
    exact hready (hfirst ho') hb

theorem keeps_wakeFirst (hfirst : s.waiters o = some t) : Keeps s (wakeFirst s o t) c := by
  refine Keeps.of_wake (o := o) rfl ?_ (fun o' hne => Function.update_of_ne hne _ _) fun hc => ?_
  · by_cases hct : c = t
    · exact .inr (hct ▸ Function.update_self ..)
    · exact .inl (Function.update_of_ne hct _ _)
  · obtain rfl := Option.some_injective _ (hc.symm.trans hfirst)
    exact Function.update_self ..

/-- What the loops of `event_set` and `task_exit` keep. -/
def Woken (s s₁ : Sys) : Prop :=
  s₁ = { s with state := s₁.state, waitNext := s₁.waitNext } ∧
    ∀ t, s₁.state t = s.state t ∨ s₁.state t = .ready

theorem woken_wakeBody {s₁ : Sys} (h : Woken s s₁) (t : TaskId) : Woken s (wakeBody s₁ t).1 := by
  obtain ⟨hframe, hstate⟩ := h
  refine ⟨?_, fun x => ?_⟩
  · show { s₁ with state := _, waitNext := _ } = _
    rw [hframe]
    rfl
  · show Function.update s₁.state t .ready x = _ ∨ Function.update s₁.state t .ready x = _
    by_cases hx : x = t
    · exact .inr (hx ▸ Function.update_self ..)
    · rw [Function.update_of_ne hx]
      exact hstate x

theorem keeps_wakeAll (h : wakeAll s o = some s') : Keeps s s' c := by
  unfold wakeAll at h
  obtain ⟨s₁, hloop, h⟩ := Option.bind_eq_some_iff.mp h
  obtain rfl := Option.some_injective _ h
  obtain ⟨hframe, hstate⟩ : Woken s s₁ := by
    refine loop_invariant (fun s₁ t h => woken_wakeBody h t) ⟨rfl, fun t => .inl rfl⟩ hloop
  refine Keeps.of_wake (o := o) ?_ (hstate c) (fun o' hne => ?_) fun hc => ?_
  · rw [hframe]
  · refine (Function.update_of_ne hne _ _).trans ?_
    rw [hframe]
  · -- the first round wakes the task, and no later one puts it to sleep
    rw [hc, Sys.fuel, loop] at hloop
    have hready : s₁.state c = .ready := by
      refine loop_invariant (P := fun s₁ : Sys => s₁.state c = .ready) (fun s₁ t h => ?_)
        (Function.update_self ..) hloop
      show Function.update s₁.state t .ready c = .ready
      by_cases hct : c = t
      · exact hct ▸ Function.update_self ..
      · rwa [Function.update_of_ne hct]
    exact hready

/-- **A call that waits for nothing** leaves the caller's lists alone, and then it returns or calls
`scheduler_schedule`. -/
theorem keeps_exec (hcur : s.current = some c) (hlt : c < s.nextPid) (ho : op.target = none)
    (hadd : ∀ t, op ≠ .add (some t)) (h : op.exec s = some s') :
    Keeps s s' c ∨ ∃ mid, Keeps s mid c ∧ schedulerSchedule mid = some s' := by
  cases op using Op.waitOn_cases with
  | waitOn o => exact absurd ho (by simp)
  | create taskMemory stackMemory =>
    left
    obtain rfl := Option.some_injective _ h
    rcases taskMemory with _ | _
    · exact Keeps.refl s c
    rcases stackMemory with _ | _
    · exact Keeps.refl s c
    refine ⟨rfl, rfl, rfl, Nat.le_succ _, fun t => ?_, fun hb => ?_, fun _ o ho hw => ?_⟩
    · by_cases ht : t = s.nextPid
      · exact .inr ⟨ht, ht ▸ Function.update_self ..⟩
      · exact .inl (Function.update_of_ne ht _ _)
    · exact (Function.update_of_ne (Nat.ne_of_lt hlt) _ _).symm.trans hb
    · have hne : o ≠ .task s.nextPid := fun heq => Nat.lt_irrefl _ (ho s.nextPid heq)
      exact (Function.update_of_ne hne _ _).trans hw
  | add task =>
    cases task with
    | none =>
      obtain rfl := Option.some_injective _ h
      exact .inl (Keeps.refl s c)
    | some t => exact absurd rfl (hadd t)
  | yield => exact .inr ⟨s, Keeps.refl s c, h⟩
  | sleep ticks =>
    right
    obtain ⟨t, ht, h⟩ := Option.bind_eq_some_iff.mp h
    obtain rfl := Option.some_injective _ (hcur.symm.trans ht)
    have hsleep : Function.update s.state c .sleeping c ≠ .blocked := by simp
    refine ⟨_, ?_, h⟩
    exact Keeps.of_eq rfl rfl rfl rfl rfl (fun hb => absurd hb hsleep) rfl
  | exit =>
    right
    obtain ⟨t, ht, h⟩ := Option.bind_eq_some_iff.mp h
    obtain rfl := Option.some_injective _ (hcur.symm.trans ht)
    obtain ⟨s₁, hwake, h⟩ := Option.bind_eq_some_iff.mp h
    have hk : Keeps s s₁ c := keeps_wakeAll hwake
    have hdead : Function.update s₁.state c .dead c ≠ .blocked := by simp
    refine ⟨_, ?_, h⟩
    refine ⟨hk.first, hk.current, hk.taskToDestroy, hk.nextPid, hk.next, ?_, ?_⟩
    · exact fun hb => absurd hb hdead
    · exact fun hb => absurd hb hdead
  | join =>
    obtain rfl := Option.some_injective _ h
    exact .inl (Keeps.refl s c)
  | mutexTryLock m =>
    left
    obtain rfl := Option.some_injective _ h
    unfold mutexTryLock
    split_ifs
    · exact Keeps.refl s c
    · exact Keeps.of_eq rfl rfl rfl rfl rfl id rfl
  | mutexUnlock m =>
    left
    obtain rfl := Option.some_injective _ h
    unfold mutexUnlock
    cases hw : s.waiters (.mutex m) with
    | none => exact Keeps.of_eq rfl rfl rfl rfl rfl id rfl
    | some t => exact keeps_wakeFirst hw
  | semaphoreTryWait k =>
    left
    obtain rfl := Option.some_injective _ h
    unfold semaphoreTryWait
    split_ifs
    · exact Keeps.refl s c
    · exact Keeps.of_eq rfl rfl rfl rfl rfl id rfl
  | semaphoreSignal k =>
    left
    obtain rfl := Option.some_injective _ h
    unfold semaphoreSignal
    cases hw : s.waiters (.semaphore k) with
    | none => exact Keeps.of_eq rfl rfl rfl rfl rfl id rfl
    | some t => exact keeps_wakeFirst hw
  | eventSet e =>
    left
    have hk : Keeps { s with signaled := Function.update s.signaled e true } s' c := keeps_wakeAll h
    exact ⟨hk.first, hk.current, hk.taskToDestroy, hk.nextPid, hk.next, hk.blocked, hk.waiters⟩
  | eventReset e =>
    left
    obtain rfl := Option.some_injective _ h
    exact Keeps.of_eq rfl rfl rfl rfl rfl id rfl
  | tick =>
    right
    refine ⟨_, ?_, h⟩
    exact Keeps.of_eq rfl rfl rfl rfl rfl id rfl

/-! ### The invariant -/

/-- In every run up to the first tick that is not safe: the run list with its current task; the
links of the tasks that have not been added; the objects that tasks wait for; and a task that has
control while it is blocked is the first one on the list of its object, except between
`state = TASK_BLOCKED` and `waiters = current`. -/
structure Micro.Inv (m : Micro) (L : List TaskId) (c : TaskId) : Prop where
  runList : RunList m.sys L c
  unadded : ∀ t, t ∉ m.added → t ∉ L ∧ m.sys.next t = none
  called : ∀ t o place, m.call t = some (o, place) → o.Created m.sys
  created : ∀ t o, m.target t = some o → o.Created m.sys
  target : ∀ t o place, m.call t = some (o, place) → place ≠ .setState → m.target t = some o
  head : m.sys.state c = .blocked → ¬ m.Window c →
    ∃ o, m.target c = some o ∧ m.sys.waiters o = some c

theorem Keeps.runList (hk : Keeps s s' c) (h : RunList s L c) : RunList s' L c where
  chain := by
    rw [hk.first]
    refine h.chain.congr fun t ht => (hk.next t).resolve_right fun hn => ?_
    exact Nat.ne_of_lt (h.lt t ht) hn.1
  lt t ht := Nat.lt_of_lt_of_le (h.lt t ht) hk.nextPid
  current := hk.current.trans h.current
  mem := h.mem
  doomed t ht := h.doomed t (hk.taskToDestroy.symm.trans ht)

theorem Created.mono (ho : o.Created s) (hle : s.nextPid ≤ s'.nextPid) : o.Created s' :=
  fun t ht => Nat.lt_of_lt_of_le (ho t ht) hle

/-- The part of a call before its `scheduler_schedule`. -/
theorem Micro.Inv.keep (h : m.Inv L c) (hk : Keeps m.sys s' c) :
    Micro.Inv { m with sys := s' } L c where
  runList := hk.runList h.runList
  unadded t ht := by
    obtain ⟨hL, hnull⟩ := h.unadded t ht
    refine ⟨hL, ?_⟩
    rcases hk.next t with heq | ⟨-, heq⟩
    · exact heq.trans hnull
    · exact heq
  called t o place ht := Created.mono (h.called t o place ht) hk.nextPid
  created t o ht := Created.mono (h.created t o ht) hk.nextPid
  target := h.target
  head hb hwin := by
    obtain ⟨o, ho, hw⟩ := h.head (hk.blocked hb) hwin
    exact ⟨o, ho, hk.waiters hb o (h.created c o ho) hw⟩

/-- `scheduler_schedule` keeps the invariant. -/
theorem Micro.Inv.schedule (h : m.Inv L c) (hs : Scheduled m.sys s' L c c') :
    Micro.Inv { m with sys := s' } (m.sys.remaining L) c' where
  runList := hs.runList h.runList
  unadded t ht := by
    obtain ⟨hL, hnull⟩ := h.unadded t ht
    refine ⟨fun hrem => hL (h.runList.mem_remaining.mp hrem).1, ?_⟩
    exact (hs.next_other t hL).trans hnull
  called t o place ht := Created.mono (h.called t o place ht) (by rw [hs.frame])
  created t o ht := Created.mono (h.created t o ht) (by rw [hs.frame])
  target := h.target
  head hb hwin := by
    -- a task that gets control from another one runs
    have hcc : c' = c := by
      by_contra hne
      have := hs.state_new
      rw [if_neg hne, hb] at this
      exact absurd this (by decide)
    subst hcc
    obtain ⟨o, ho, hw⟩ := h.head ((hs.state_iff h.runList (.inl rfl)).mp hb) hwin
    refine ⟨o, ho, ?_⟩
    rw [hs.frame]
    exact hw

/-- The task that calls `scheduler_schedule` can be found afterwards, if that is so before. -/
theorem Micro.Inv.findable (h : m.Inv L c) (hs : Scheduled m.sys s' L c c') (hm' : m'.sys = s')
    (htarget : m'.target = m.target)
    (hlisted : c' ≠ c → m.sys.state c = .blocked → m.Listed c) : m.Findable e m' := by
  intro t ht hne hb
  obtain rfl := h.runList.eq_of_current ht
  rw [hm'] at hne hb
  have hcc : c' ≠ c := fun heq => hne (heq ▸ hs.current)
  obtain ⟨o, ho, first, hfirst, hreach⟩ :=
    hlisted hcc ((hs.state_iff h.runList (.inl rfl)).mp hb)
  refine ⟨o, (congrFun htarget c).trans ho, first, ?_, ?_⟩
  · rw [hm', hs.frame]
    exact hfirst
  · rw [hm', hs.frame]
    exact hreach

/-- The first task of a list is on it. -/
theorem Micro.Inv.listed (h : m.Inv L c) (hwin : ¬ m.Window c) (hb : m.sys.state c = .blocked) :
    m.Listed c := by
  obtain ⟨o, ho, hw⟩ := h.head hb hwin
  exact ⟨o, ho, c, hw, ReflTransGen.refl⟩

theorem Micro.Inv.boot (initial : ℕ → ℕ) : (Micro.boot initial).Inv [0] 0 where
  runList := ⟨⟨rfl, rfl⟩, fun _ ht => List.mem_singleton.mp ht ▸ Nat.one_pos, rfl,
    List.mem_singleton_self 0, nofun⟩
  unadded _ ht := ⟨ht, rfl⟩
  called _ _ _ := nofun
  created _ _ := nofun
  target _ _ _ := nofun
  head hb := absurd (show TaskState.running = .blocked from hb) (by decide)

/-! ### One event -/

/-- Nothing is lost while the task keeps control. -/
theorem Micro.findable_of_current (h : m'.sys.current = m.sys.current) : m.Findable e m' :=
  fun _ ht hne => absurd (h.trans ht) hne

/-- The caller goes on to another place in the call. -/
theorem Micro.Inv.assign (h : m.Inv L c) (ho : o.Created m.sys) (hframe : s' = { m.sys with
      state := s'.state, waitNext := s'.waitNext, waiters := s'.waiters })
    (hne : place ≠ .setState) (hhead : place = .yield → s'.waiters o = some c) :
    Micro.Inv ⟨s', Function.update m.call c (some (o, place)),
      Function.update m.target c (some o), m.added⟩ L c := by
  have hrun : RunList s' L c := by
    rw [hframe]
    exact ⟨h.runList.chain, h.runList.lt, h.runList.current, h.runList.mem, h.runList.doomed⟩
  have hnext : s'.next = m.sys.next := by rw [hframe]
  have hpid : s'.nextPid = m.sys.nextPid := by rw [hframe]
  have hcall (t : TaskId) (o' : WaitObj) (place' : Place)
      (ht : Function.update m.call c (some (o, place)) t = some (o', place')) :
      t = c ∧ o' = o ∧ place' = place ∨ t ≠ c ∧ m.call t = some (o', place') := by
    by_cases htc : t = c
    · subst htc
      rw [Function.update_self] at ht
      obtain ⟨rfl, rfl⟩ := Prod.mk.inj (Option.some_injective _ ht)
      exact .inl ⟨rfl, rfl, rfl⟩
    · exact .inr ⟨htc, (Function.update_of_ne htc _ _).symm.trans ht⟩
  refine ⟨hrun, fun t ht => ?_, fun t o' place' ht => ?_, fun t o' ht => ?_,
    fun t o' place' ht hplace => ?_, fun _ hwin => ⟨o, Function.update_self .., hhead ?_⟩⟩
  · obtain ⟨hL, hnull⟩ := h.unadded t ht
    exact ⟨hL, (congrFun hnext t).trans hnull⟩
  · refine Created.mono (s := m.sys) ?_ hpid.ge
    rcases hcall t o' place' ht with ⟨-, rfl, -⟩ | ⟨-, ht'⟩
    · exact ho
    · exact h.called t o' place' ht'
  · refine Created.mono (s := m.sys) ?_ hpid.ge
    by_cases htc : t = c
    · subst htc
      have hself : Function.update m.target t (some o) t = some o := Function.update_self ..
      obtain rfl := Option.some_injective _ (hself.symm.trans ht)
      exact ho
    · exact h.created t o' ((Function.update_of_ne htc _ _).symm.trans ht)
  · rcases hcall t o' place' ht with ⟨rfl, rfl, -⟩ | ⟨htc, ht'⟩
    · exact Function.update_self ..
    · exact (Function.update_of_ne htc _ _).trans (h.target t o' place' ht' hplace)
  · have hself : Function.update m.call c (some (o, place)) c = some (o, place) :=
      Function.update_self ..
    cases place with
    | setState => exact absurd rfl hne
    | setWaitNext => exact absurd ⟨o, .inl hself⟩ hwin
    | setWaiters => exact absurd ⟨o, .inr hself⟩ hwin
    | yield => rfl

/-- The caller is outside of a call, or at the check or the yield of one. -/
theorem Micro.Inv.setCall (h : m.Inv L c) {x : Option (WaitObj × Place)}
    (hx : ∀ o place, x = some (o, place) → o.Created m.sys ∧ place = .setState)
    (hwin : ¬ m.Window c) : Micro.Inv { m with call := Function.update m.call c x } L c := by
  have hcall (t : TaskId) (o : WaitObj) (place : Place)
      (ht : Function.update m.call c x t = some (o, place)) :
      x = some (o, place) ∨ m.call t = some (o, place) := by
    by_cases htc : t = c
    · subst htc
      rw [Function.update_self] at ht
      exact .inl ht
    · exact .inr ((Function.update_of_ne htc _ _).symm.trans ht)
  refine ⟨h.runList, h.unadded, fun t o place ht => ?_, h.created, fun t o place ht hne => ?_,
    fun hb _ => h.head hb hwin⟩
  · rcases hcall t o place ht with hxo | ht
    · exact (hx o place hxo).1
    · exact h.called t o place ht
  · rcases hcall t o place ht with hxo | ht
    · exact absurd (hx o place hxo).2 hne
    · exact h.target t o place ht hne

theorem keeps_acquire (s : Sys) (o : WaitObj) : Keeps s (acquire s o) c := by
  cases o with
  | mutex m => exact Keeps.of_eq rfl rfl rfl rfl rfl id rfl
  | semaphore k => exact Keeps.of_eq rfl rfl rfl rfl rfl id rfl
  | event e => exact Keeps.refl s c
  | task t => exact Keeps.refl s c

/-- The call of `scheduler_schedule` at the end of a call that does not stop in the window. -/
theorem Micro.Inv.yields (h : m.Inv L c) (hwin : ¬ m.Window c)
    (hs : schedulerSchedule m.sys = some s') :
    (∃ L' c', Micro.Inv { m with sys := s' } L' c') ∧ m.Findable e { m with sys := s' } := by
  obtain ⟨s₁, c', heq, hsched⟩ := schedulerSchedule_spec h.runList
  obtain rfl := Option.some_injective _ (heq.symm.trans hs)
  exact ⟨⟨_, c', h.schedule hsched⟩, h.findable hsched rfl rfl fun _ hb => h.listed hwin hb⟩

/-- A new task is passed to `scheduler_add`. -/
theorem Micro.Inv.add (h : m.Inv L c) (hlt : t < m.sys.nextPid) (ht : t ∉ m.added) :
    schedulerAdd m.sys (some t) = some { m.sys with next := appended m.sys L t } ∧
      Micro.Inv { m with sys := { m.sys with next := appended m.sys L t }, added := t :: m.added }
        (L ++ [t]) c := by
  obtain ⟨hL, hnull⟩ := h.unadded t ht
  refine ⟨(schedulerAdd_spec h.runList hL hnull).1, h.runList.add hlt hL hnull, fun x hx => ?_,
    h.called, h.created, h.target, h.head⟩
  obtain ⟨hxt, hx⟩ := not_or.mp (List.mem_cons.not.mp hx)
  obtain ⟨hxL, hxnull⟩ := h.unadded x hx
  refine ⟨fun hmem => ?_, (appended_of_not_mem hxL).trans hxnull⟩
  rcases List.mem_append.mp hmem with hmem | hmem
  · exact hxL hmem
  · exact hxt (List.mem_singleton.mp hmem)

/-- The timer interrupt takes control from the current task exactly if another one is ready or
due. -/
theorem RunList.tick_switches (h : RunList s L c)
    (hs : Scheduled { s with ticks := u64 (s.ticks + 1) } s' L c c') :
    c' ≠ c ↔ s.OtherDue c := by
  have hmid : RunList { s with ticks := u64 (s.ticks + 1) } L c :=
    ⟨h.chain, h.lt, h.current, h.mem, h.doomed⟩
  rw [hs.switches_iff hmid]
  refine exists_congr fun t => ?_
  rw [hmid.mem_remaining, h.chain.linked_iff, and_assoc]
  exact and_congr_right fun _ => and_left_comm

/-- The timer interrupt. -/
theorem Micro.Inv.ticked (h : m.Inv L c) (hexec : m.execBy c .tick = some m') :
    (∃ L' c', m'.Inv L' c') ∧ (m.Findable .tick m' ↔ m.TickSafe .tick m') := by
  have hcur := h.runList.current
  obtain ⟨s', htick, rfl⟩ := Option.map_eq_some_iff.mp hexec
  set mid : Sys := { m.sys with ticks := u64 (m.sys.ticks + 1) }
  have hk : Keeps m.sys mid c := Keeps.of_eq rfl rfl rfl rfl rfl id rfl
  have hmid := h.keep hk
  obtain ⟨s₁, c', heq, hsched⟩ := schedulerSchedule_spec hmid.runList
  obtain rfl := Option.some_injective _ (heq.symm.trans htick)
  have hswitch := h.runList.tick_switches hsched
  refine ⟨⟨_, c', hmid.schedule hsched⟩, fun hfind _ t ht hwin hb hunlisted hother => ?_,
    fun hsafe => ?_⟩
  · obtain rfl := h.runList.eq_of_current ht
    have hcurrent : s₁.current ≠ some c := fun heq =>
      hswitch.mpr hother (Option.some_injective _ (hsched.current.symm.trans heq))
    have hblocked := (hsched.state_iff hmid.runList (.inl rfl)).mpr hb
    obtain ⟨o, ho, first, hfirst, hreach⟩ := hfind c hcur hcurrent hblocked
    rw [hsched.frame] at hfirst hreach
    exact hunlisted ⟨o, ho, first, hfirst, hreach⟩
  · refine hmid.findable (e := .tick) hsched rfl rfl fun hne hb => ?_
    by_cases hwin : m.Window c
    · by_contra hunlisted
      exact hsafe rfl c hcur hwin hb hunlisted (hswitch.mp hne)
    · exact h.listed hwin hb

/-- The check at the start of a call that waits. -/
theorem Micro.Inv.entered (h : m.Inv L c) (hexec : m.execBy c (.enter o) = some m') :
    (∃ L' c', m'.Inv L' c') ∧ m.Findable e m' := by
  obtain ⟨⟨-, hcall, ho⟩, hexec⟩ := Option.ite_none_right_eq_some.mp hexec
  have hwin : ¬ m.Window c := by simp [Micro.Window, hcall]
  split_ifs at hexec with hb
  · obtain rfl := Option.some_injective _ hexec
    refine ⟨⟨L, c, h.setCall (fun o' place hx => ?_) hwin⟩, Micro.findable_of_current rfl⟩
    obtain ⟨rfl, rfl⟩ := Prod.mk.inj (Option.some_injective _ hx)
    exact ⟨ho, rfl⟩
  · obtain rfl := Option.some_injective _ hexec
    have hk : Keeps m.sys (acquire m.sys o) c := keeps_acquire m.sys o
    exact ⟨⟨L, c, h.keep hk⟩, Micro.findable_of_current hk.current⟩

/-- The next assignment of such a call, or its `task_yield`. -/
theorem Micro.Inv.assigned (h : m.Inv L c) (hexec : m.execBy c .assign = some m') :
    (∃ L' c', m'.Inv L' c') ∧ m.Findable e m' := by
  obtain ⟨⟨o, place⟩, hcall, hexec⟩ := Option.bind_eq_some_iff.mp hexec
  have ho := h.called c o place hcall
  have htarget (hne : place ≠ .setState) : Function.update m.target c (some o) = m.target := by
    rw [← h.target c o place hcall hne, Function.update_eq_self]
  cases place with
  | setState =>
    obtain rfl := Option.some_injective _ hexec
    exact ⟨⟨L, c, h.assign ho rfl nofun nofun⟩, Micro.findable_of_current rfl⟩
  | setWaitNext =>
    obtain rfl := Option.some_injective _ hexec
    refine ⟨⟨L, c, ?_⟩, Micro.findable_of_current rfl⟩
    rw [← htarget nofun]
    exact h.assign ho rfl nofun nofun
  | setWaiters =>
    obtain rfl := Option.some_injective _ hexec
    refine ⟨⟨L, c, ?_⟩, Micro.findable_of_current rfl⟩
    rw [← htarget nofun]
    exact h.assign ho rfl nofun fun _ => Function.update_self ..
  | yield =>
    obtain ⟨s', hyield, rfl⟩ := Option.map_eq_some_iff.mp hexec
    have hwin : ¬ m.Window c := by simp [Micro.Window, hcall]
    have hreturn := h.setCall (x := none) nofun hwin
    have hout : ¬ Micro.Window { m with call := Function.update m.call c none } c := by
      simp [Micro.Window]
    exact hreturn.yields (e := e) hout hyield

/-- A call of another kind. -/
theorem Micro.Inv.other (h : m.Inv L c) (hexec : m.execBy c (.call op) = some m') :
    (∃ L' c', m'.Inv L' c') ∧ m.Findable e m' := by
  have hcur := h.runList.current
  obtain ⟨⟨-, hcall, hlegal⟩, hexec⟩ := Option.ite_none_right_eq_some.mp hexec
  obtain ⟨s', hop, rfl⟩ := Option.map_eq_some_iff.mp hexec
  have hwin : ¬ m.Window c := by simp [Micro.Window, hcall]
  by_cases hadd : ∃ t, op = .add (some t)
  · obtain ⟨t, rfl⟩ := hadd
    obtain ⟨heq, hinv⟩ := h.add hlegal.1 hlegal.2
    obtain rfl := Option.some_injective _ (heq.symm.trans hop)
    exact ⟨⟨_, c, hinv⟩, Micro.findable_of_current rfl⟩
  · have hnone : op.target = none := by
      unfold Micro.Legal at hlegal
      split at hlegal
      · exact absurd ⟨_, rfl⟩ hadd
      · exact hlegal
    have hadded : addedAfter m.added op = m.added := by
      unfold addedAfter
      split
      · exact absurd ⟨_, rfl⟩ hadd
      · rfl
    rw [hadded]
    rcases keeps_exec hcur (h.runList.lt c h.runList.mem) hnone (not_exists.mp hadd) hop with
      hk | ⟨mid, hk, hsched⟩
    · exact ⟨⟨L, c, h.keep hk⟩, Micro.findable_of_current hk.current⟩
    · obtain ⟨hinv, hfind⟩ := (h.keep hk).yields (e := e) hwin hsched
      exact ⟨hinv, fun t ht => hfind t (hk.current.trans ht)⟩

/-- **One event** keeps the invariant, and it loses a blocked task exactly if it is a tick that is
not safe. -/
theorem Micro.Inv.exec (h : m.Inv L c) (hexec : m.exec e = some m') :
    (∃ L' c', m'.Inv L' c') ∧ (m.Findable e m' ↔ m.TickSafe e m') := by
  obtain ⟨t, ht, hexec⟩ := Option.bind_eq_some_iff.mp hexec
  obtain rfl : c = t := h.runList.eq_of_current ht
  cases e with
  | tick => exact h.ticked hexec
  | enter o => exact (h.entered hexec).imp_right fun hfind => iff_of_true hfind nofun
  | assign => exact (h.assigned hexec).imp_right fun hfind => iff_of_true hfind nofun
  | call op => exact (h.other hexec).imp_right fun hfind => iff_of_true hfind nofun

/-- **Preemption inside the calls that wait.**  In a run, every task that loses control while it is
blocked is on the list of the object it is blocking on, exactly if at no tick between the
assignments to `state` and to `waiters`, while the task is blocked and not on the list, another
task is ready or due. -/
theorem preemption_iff (initial : ℕ → ℕ) (events : List MicroEvent) :
    Along Micro.exec Micro.Findable (Micro.boot initial) events ↔
      Along Micro.exec Micro.TickSafe (Micro.boot initial) events := by
  refine along_iff (fun m => ∃ L c, m.Inv L c) ⟨_, _, Micro.Inv.boot initial⟩ ?_ ?_
  · rintro m e m' ⟨L, c, h⟩ hexec
    exact (h.exec hexec).2
  · rintro m e m' ⟨L, c, h⟩ hexec -
    exact (h.exec hexec).1

/-- The boot task waits for a semaphore, and the timer comes in after it has set its state. -/
theorem preemption_lost :
    ¬ Along Micro.exec Micro.Findable (Micro.boot fun _ => 0)
        [.call (.create true true), .call (.add (some 1)), .enter (.semaphore 0), .assign,
          .tick] := by
  intro h
  obtain ⟨-, h⟩ := h _ rfl
  obtain ⟨-, h⟩ := h _ rfl
  obtain ⟨-, h⟩ := h _ rfl
  obtain ⟨-, h⟩ := h _ rfl
  obtain ⟨h, -⟩ := h _ rfl
  obtain ⟨o, ho, first, hfirst, -⟩ := h 0 rfl (by decide) rfl
  obtain rfl : WaitObj.semaphore 0 = o := Option.some_injective _ ho
  exact absurd (show none = some first from hfirst) nofun

/-- The second task sleeps until tick 2.  The boot task then waits for a semaphore: one tick comes
in after it has set its state, when no other task is due, and the next one when it is on the
list. -/
theorem preemption_iff_example :
    Along Micro.exec Micro.Findable (Micro.boot fun _ => 0)
        [.call (.create true true), .call (.add (some 1)), .call .yield, .call (.sleep 2),
          .enter (.semaphore 0), .assign, .tick, .assign, .assign, .tick] ∧
      ∃ m, [.call (.create true true), .call (.add (some 1)), .call .yield, .call (.sleep 2),
          .enter (.semaphore 0), .assign, .tick, .assign, .assign, .tick].foldlM Micro.exec
            (Micro.boot fun _ => 0) = some m ∧
        m.sys.current = some 1 ∧ m.sys.state 0 = .blocked := by
  refine ⟨(preemption_iff _ _).mpr ?_, _, rfl, rfl, rfl⟩
  have hsafe {m m' : Micro} {e : MicroEvent} (he : e ≠ .tick) : m.TickSafe e m' :=
    fun heq => absurd heq he
  rintro _ ⟨⟩
  refine ⟨hsafe nofun, ?_⟩
  rintro _ ⟨⟩
  refine ⟨hsafe nofun, ?_⟩
  rintro _ ⟨⟩
  refine ⟨hsafe nofun, ?_⟩
  rintro _ ⟨⟩
  refine ⟨hsafe nofun, ?_⟩
  rintro _ ⟨⟩
  refine ⟨hsafe nofun, ?_⟩
  rintro _ ⟨⟩
  refine ⟨hsafe nofun, ?_⟩
  rintro _ ⟨⟩
  constructor
  · -- the first tick: the run list is the boot task and the sleeper
    rintro - t ⟨⟩ - - - ⟨t', hlinked, hne, -, hgo⟩
    have hmem : t' ∈ [0, 1] := by
      refine (Chain.linked_iff ?_).mp hlinked
      exact ⟨rfl, rfl, rfl⟩
    obtain rfl : t' = 1 := by simpa [hne] using hmem
    rcases hgo with hready | ⟨-, hdue⟩
    · exact absurd (show TaskState.sleeping = .ready from hready) nofun
    · exact absurd (show 2 ≤ 1 from hdue) (by decide)
  rintro _ ⟨⟩
  refine ⟨hsafe nofun, ?_⟩
  rintro _ ⟨⟩
  refine ⟨hsafe nofun, ?_⟩
  rintro _ ⟨⟩
  constructor
  · -- at the second one the boot task is at its `task_yield`
    rintro - t ⟨⟩ ⟨o, hcall | hcall⟩
    · exact absurd (show some (WaitObj.semaphore 0, Place.yield) = _ from hcall) (by simp)
    · exact absurd (show some (WaitObj.semaphore 0, Place.yield) = _ from hcall) (by simp)
  trivial

end Bethany
