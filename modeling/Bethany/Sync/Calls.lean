import Bethany.Sync.WaitLists

/-!
# What one call does

Every call of a task first changes the objects and the tasks, and then either returns or
yields.  `Op.before` gives the state at that point, so that a call is `Op.before` followed, if
the call yields, by `scheduler_schedule`: this is `Op.exec_eq`.  The invariant `Sys.Inv` holds
at that point as well as between calls.

* `Op.target`, `Op.waitOn`, `acquire`, `exec_waitOn`: the four calls that wait for an object;
* `Op.waitOn_cases`: the cases of a call, with these four as one;
* `Sys.Inv`: the run list and the wait lists of a reachable state;
* `Op.before`, `Op.waits`, `Op.list`: the state, the wait lists and the run list when the call
  returns or yields;
* `before_cases`: the calls that touch more than the states of tasks and the objects they wait for;
* `Op.Suspends`: the caller cannot go on before some other task wakes it.
-/

namespace Bethany

open Machine LinkedList

variable {s s' : Sys} {L : List TaskId} {W W' : WaitObj → List TaskId} {c c' t : TaskId}
  {o : WaitObj} {op : Op} {l : List TaskId}

/-! ### Calls that wait for an object -/

/-- The object a call waits for. -/
def Op.target : Op → Option WaitObj
  | .mutexLock m => some (.mutex m)
  | .semaphoreWait k => some (.semaphore k)
  | .eventWait e => some (.event e)
  | .join (some t) => some (.task t)
  | _ => none

/-- What the call does when it need not wait. -/
def acquire (s : Sys) : WaitObj → Sys
  | .mutex m => { s with locked := Function.update s.locked m true }
  | .semaphore k => { s with count := Function.update s.count k (s.count k - 1) }
  | _ => s

/-- The call that waits for an object. -/
def Op.waitOn : WaitObj → Op
  | .mutex m => .mutexLock m
  | .semaphore k => .semaphoreWait k
  | .event e => .eventWait e
  | .task t => .join (some t)

theorem target_eq_some : op.target = some o ↔ op = .waitOn o := by
  constructor
  · intro ho
    cases op with
    | join task =>
      cases task with
      | none => exact absurd ho nofun
      | some t => exact Option.some_injective _ ho ▸ rfl
    | mutexLock m => exact Option.some_injective _ ho ▸ rfl
    | semaphoreWait k => exact Option.some_injective _ ho ▸ rfl
    | eventWait e => exact Option.some_injective _ ho ▸ rfl
    | _ => exact absurd ho nofun
  · rintro rfl
    cases o <;> rfl

@[simp] theorem target_waitOn (o : WaitObj) : (Op.waitOn o).target = some o :=
  target_eq_some.mpr rfl

/-- A call waits for an object, or it is one of the others. -/
theorem Op.waitOn_cases {motive : Op → Prop} (op : Op) (waitOn : ∀ o, motive (.waitOn o))
    (create : ∀ taskMemory stackMemory, motive (.create taskMemory stackMemory))
    (add : ∀ task, motive (.add task)) (yield : motive .yield)
    (sleep : ∀ ticks, motive (.sleep ticks)) (exit : motive .exit) (join : motive (.join none))
    (mutexTryLock : ∀ m, motive (.mutexTryLock m)) (mutexUnlock : ∀ m, motive (.mutexUnlock m))
    (semaphoreTryWait : ∀ k, motive (.semaphoreTryWait k))
    (semaphoreSignal : ∀ k, motive (.semaphoreSignal k)) (eventSet : ∀ e, motive (.eventSet e))
    (eventReset : ∀ e, motive (.eventReset e)) (tick : motive .tick) : motive op := by
  cases op with
  | join task =>
    cases task with
    | none => exact join
    | some t => exact waitOn (.task t)
  | mutexLock m => exact waitOn (.mutex m)
  | semaphoreWait k => exact waitOn (.semaphore k)
  | eventWait e => exact waitOn (.event e)
  | create taskMemory stackMemory => exact create taskMemory stackMemory
  | add task => exact add task
  | yield => exact yield
  | sleep ticks => exact sleep ticks
  | exit => exact exit
  | mutexTryLock m => exact mutexTryLock m
  | mutexUnlock m => exact mutexUnlock m
  | semaphoreTryWait k => exact semaphoreTryWait k
  | semaphoreSignal k => exact semaphoreSignal k
  | eventSet e => exact eventSet e
  | eventReset e => exact eventReset e
  | tick => exact tick

theorem exec_waitOn (s : Sys) (o : WaitObj) :
    (Op.waitOn o).exec s = if Blocks s o then block s o else some (acquire s o) := by
  cases o with
  | mutex m =>
    by_cases hb : Blocks s (.mutex m)
    · exact (if_neg (not_not.mpr hb)).trans (if_pos hb).symm
    · exact (if_pos hb).trans (if_neg hb).symm
  | semaphore k =>
    by_cases hb : Blocks s (.semaphore k)
    · exact (if_neg (Nat.not_lt_of_le (Nat.le_of_eq hb))).trans (if_pos hb).symm
    · exact (if_pos (Nat.pos_of_ne_zero hb)).trans (if_neg hb).symm
  | event e =>
    by_cases hb : Blocks s (.event e)
    · exact (if_neg (Bool.eq_false_iff.mp hb)).trans (if_pos hb).symm
    · exact (if_pos (Bool.not_eq_false _ ▸ hb)).trans (if_neg hb).symm
  | task t =>
    by_cases hb : Blocks s (.task t)
    · exact (if_neg (not_or.mpr hb)).trans (if_pos hb).symm
    · have hreturns : s.state t = .dead ∨ s.current = some t := by
        by_contra hn
        exact hb (not_or.mp hn)
      exact (if_pos hreturns).trans (if_neg hb).symm

/-! ### The invariant -/

/-- The invariant: the run list `L` with its current task `c`, the wait lists `W`, and what
holds of the states of the tasks.  The task `c` itself may be about to yield. -/
structure Sys.Inv (s : Sys) (L : List TaskId) (W : WaitObj → List TaskId) (c : TaskId) :
    Prop where
  runList : RunList s L c
  waits : WaitLists s W
  others : ∀ t, s.state t = .running → t = c
  dead_iff : ∀ t ∈ L, t ≠ c → (s.state t = .dead ↔ s.taskToDestroy = some t)
  fresh : ∀ t, s.nextPid ≤ t → s.state t = .ready ∧ s.waiters (.task t) = none

namespace Sys.Inv

theorem current_lt (h : s.Inv L W c) : c < s.nextPid := h.runList.lt c h.runList.mem

/-- A task on a wait list has been created. -/
theorem lt_of_mem (h : s.Inv L W c) (ht : t ∈ W o) : t < s.nextPid := by
  by_contra hle
  have hblocked := (h.waits.blocked t).mpr ⟨o, ht⟩
  rw [(h.fresh t (Nat.le_of_not_lt hle)).1] at hblocked
  exact absurd hblocked (by decide)

theorem length_lt (h : s.Inv L W c) (o : WaitObj) : (W o).length < s.fuel :=
  Nat.lt_succ_of_le (length_le_of_lt (h.waits.chain o).nodup fun _ ht => h.lt_of_mem ht)

/-- A call keeps the run list when it leaves the fields of the scheduler alone, and of the
other tasks at most makes some ready that were blocked. -/
theorem update (h : s.Inv L W c) (hwaits : WaitLists s' W')
    (hnext : s'.next = s.next) (hfirst : s'.first = s.first) (hcurrent : s'.current = s.current)
    (hdestroy : s'.taskToDestroy = s.taskToDestroy) (hpid : s'.nextPid = s.nextPid)
    (hstate : ∀ t, t ≠ c → s'.state t = s.state t ∨ s.state t = .blocked ∧ s'.state t = .ready)
    (hwaiters : ∀ t, s.nextPid ≤ t → s'.waiters (.task t) = s.waiters (.task t)) :
    s'.Inv L W' c where
  runList := by
    obtain ⟨hchain, hlt, hcur, hmem, hdoomed⟩ := h.runList
    refine ⟨?_, ?_, ?_, hmem, ?_⟩
    · rwa [hnext, hfirst]
    · rwa [hpid]
    · rwa [hcurrent]
    · rwa [hdestroy]
  waits := hwaits
  others t ht := by
    by_contra hc
    rcases hstate t hc with heq | ⟨-, heq⟩
    · exact hc (h.others t (heq ▸ ht))
    · rw [heq] at ht
      exact absurd ht (by decide)
  dead_iff t ht hc := by
    rw [hdestroy, ← h.dead_iff t ht hc]
    rcases hstate t hc with heq | ⟨hold, hnew⟩
    · rw [heq]
    · rw [hold, hnew]
      decide
  fresh t ht := by
    rw [hpid] at ht
    have hc : t ≠ c := Nat.ne_of_gt (Nat.lt_of_lt_of_le h.current_lt ht)
    have hold := h.fresh t ht
    rw [hwaiters t ht]
    refine ⟨?_, hold.2⟩
    rcases hstate t hc with heq | ⟨hblocked, -⟩
    · rw [heq]
      exact hold.1
    · rw [hold.1] at hblocked
      exact absurd hblocked (by decide)

/-- **The scheduler keeps the invariant.** -/
theorem schedule (h : s.Inv L W c) :
    ∃ s' c', schedulerSchedule s = some s' ∧ Scheduled s s' L c c' ∧
      s'.Inv (s.remaining L) W c' := by
  obtain ⟨s', c', heq, hs⟩ := schedulerSchedule_spec h.runList
  have hrun := hs.runList h.runList
  have hpid : s'.nextPid = s.nextPid := by rw [hs.frame]
  refine ⟨s', c', heq, hs, hrun, h.waits.scheduled h.runList hs,
    fun t ht => hs.eq_of_running h.runList h.others ht, fun t ht hc' => ?_, fun t ht => ?_⟩
  · rw [hs.state_iff h.runList (.inr rfl), hs.toDestroy]
    by_cases hc : t = c
    · subst hc
      have hdead : s.woken (s.remaining L) t = .dead ↔ s.state t = .dead :=
        Sys.woken_iff (by decide) (by decide)
      simp only [hdead, ne_eq, Ne.symm hc', not_false_eq_true, true_and]
      split_ifs with hd
      · exact iff_of_true hd rfl
      · exact iff_of_false hd nofun
    · -- the task that was to be destroyed has left the list
      obtain ⟨hmem, hdoomed⟩ := h.runList.mem_remaining.mp ht
      rw [h.dead_iff t hmem hc]
      apply iff_of_false hdoomed
      split_ifs
      · exact fun heq => hc (Option.some_injective _ heq).symm
      · nofun
  · rw [hpid] at ht
    have hL : t ∉ L := fun hmem => absurd (h.runList.lt t hmem) (Nat.not_lt_of_le ht)
    have hc : t ≠ c := fun heq => hL (heq ▸ h.runList.mem)
    have hc' : t ≠ c' := fun heq => hL (h.runList.mem_remaining.mp (heq ▸ hrun.mem)).1
    rw [hs.state_other hc hc', hs.frame]
    refine ⟨?_, (h.fresh t ht).2⟩
    unfold Sys.woken
    rw [if_neg fun hdue => hL (h.runList.mem_remaining.mp hdue.1).1]
    exact (h.fresh t ht).1

end Sys.Inv

/-! ### The invariant, call by call -/

namespace Sys.Inv

theorem not_blocked (hrun : s.state c = .running) : s.state c ≠ .blocked := by
  rw [hrun]
  decide

/-- Other values of the objects keep the invariant, where they agree with the wait lists. -/
theorem objects (h : s.Inv L W c) {locked : ℕ → Bool} {count : ℕ → ℕ} {signaled : ℕ → Bool}
    (hm : ∀ m, W (.mutex m) ≠ [] → locked m = true)
    (hk : ∀ k, W (.semaphore k) ≠ [] → count k = 0)
    (he : ∀ e, signaled e = true → W (.event e) = []) :
    Sys.Inv { s with locked := locked, count := count, signaled := signaled } L W c :=
  h.update (h.waits.objects hm hk he) rfl rfl rfl rfl rfl (fun _ _ => .inl rfl) fun _ _ => rfl

/-- An object without waiters may get any value. -/
theorem setLocked (h : s.Inv L W c) {m : ℕ} {b : Bool} (hb : W (.mutex m) ≠ [] → b = true) :
    Sys.Inv { s with locked := Function.update s.locked m b } L W c := by
  refine h.objects (fun m' hm' => ?_) h.waits.semaphore h.waits.event
  by_cases hmm : m' = m
  · subst hmm
    rw [Function.update_self]
    exact hb hm'
  · rw [Function.update_of_ne hmm]
    exact h.waits.mutex m' hm'

theorem setCount (h : s.Inv L W c) {k n : ℕ} (hn : W (.semaphore k) ≠ [] → n = 0) :
    Sys.Inv { s with count := Function.update s.count k n } L W c := by
  refine h.objects h.waits.mutex (fun k' hk' => ?_) h.waits.event
  by_cases hkk : k' = k
  · subst hkk
    rw [Function.update_self]
    exact hn hk'
  · rw [Function.update_of_ne hkk]
    exact h.waits.semaphore k' hk'

theorem setSignaled (h : s.Inv L W c) {e : ℕ} {b : Bool} (hb : b = true → W (.event e) = []) :
    Sys.Inv { s with signaled := Function.update s.signaled e b } L W c := by
  apply h.objects h.waits.mutex h.waits.semaphore
  intro e' he'
  by_cases hee : e' = e
  · subst hee
    rw [Function.update_self] at he'
    exact hb he'
  · rw [Function.update_of_ne hee] at he'
    exact h.waits.event e' he'

theorem acquire (h : s.Inv L W c) (ho : ¬ Blocks s o) : (acquire s o).Inv L W c := by
  cases o with
  | mutex m => exact h.setLocked fun _ => rfl
  | semaphore k => exact h.setCount fun hk => absurd (h.waits.semaphore k hk) ho
  | event e => exact h
  | task t => exact h

theorem pushed (h : s.Inv L W c) (hrun : s.state c = .running) (ho : Blocks s o)
    (hlt : ∀ t, o = .task t → t < s.nextPid) :
    (pushed s c o).Inv L (Function.update W o (c :: W o)) c := by
  refine h.update (h.waits.push (not_blocked hrun) ho) rfl rfl rfl rfl rfl
    (fun t hc => .inl (Function.update_of_ne hc _ _)) fun t ht => ?_
  refine Function.update_of_ne (fun heq => ?_) _ _
  exact absurd (hlt t heq.symm) (Nat.not_lt_of_le ht)

theorem wakeFirst (h : s.Inv L W c) (ht : W o = t :: l) :
    (wakeFirst s o t).Inv L (Function.update W o l) c := by
  have hmem : t ∈ W o := by
    rw [ht]
    exact List.mem_cons_self
  have hchain := h.waits.chain o
  refine h.update (h.waits.pop ht) rfl rfl rfl rfl rfl (fun x _ => ?_) fun x hx => ?_
  · by_cases hxt : x = t
    · subst hxt
      exact .inr ⟨(h.waits.blocked x).mpr ⟨o, hmem⟩, Function.update_self ..⟩
    · exact .inl (Function.update_of_ne hxt _ _)
  · refine Function.update_of_ne (fun heq => ?_) _ _
    -- the object is not a task that has not been created: such a task has no waiters
    subst heq
    rw [(h.fresh x hx).2, ht] at hchain
    exact absurd hchain.1 nofun

theorem awake (h : s.Inv L W c) (o : WaitObj) :
    (awake s o (W o)).Inv L (Function.update W o []) c := by
  refine h.update (h.waits.awake o) rfl rfl rfl rfl rfl (fun x _ => ?_) fun x hx => ?_
  · by_cases hxo : x ∈ W o
    · exact .inr ⟨(h.waits.blocked x).mpr ⟨o, hxo⟩, if_pos hxo⟩
    · exact .inl (if_neg hxo)
  · by_cases heq : WaitObj.task x = o
    · subst heq
      exact (Function.update_self ..).trans (h.fresh x hx).2.symm
    · exact Function.update_of_ne heq _ _

/-- The caller may get any state other than `TASK_BLOCKED`, and `TASK_DEAD` when no task waits
for it. -/
theorem setState (h : s.Inv L W c) {st : TaskState} (hc : s.state c ≠ .blocked)
    (hblocked : st ≠ .blocked) (hdead : st = .dead → W (.task c) = []) {wakeTick : TaskId → ℕ} :
    Sys.Inv { s with state := Function.update s.state c st, wakeTick := wakeTick } L W c := by
  have hother : ∀ t, t ≠ c → Function.update s.state c st t = s.state t :=
    fun t ht => Function.update_of_ne ht _ _
  refine h.update ⟨h.waits.chain, h.waits.disjoint, fun t => ?_, h.waits.mutex,
    h.waits.semaphore, h.waits.event, fun t ht => ?_⟩ rfl rfl rfl rfl rfl
    (fun t ht => .inl (hother t ht)) fun _ _ => rfl
  · show Function.update s.state c st t = .blocked ↔ _
    by_cases htc : t = c
    · subst htc
      refine iff_of_false ?_ fun ⟨o, ho⟩ => h.waits.not_mem hc o ho
      rwa [Function.update_self]
    · rw [hother t htc]
      exact h.waits.blocked t
  · change Function.update s.state c st t = .dead at ht
    by_cases htc : t = c
    · subst htc
      rw [Function.update_self] at ht
      exact hdead ht
    · rw [hother t htc] at ht
      exact h.waits.dead t ht

/-- A new task is as its memory was taken to be: ready, and without waiters. -/
theorem create (h : s.Inv L W c) (taskMemory stackMemory : Bool) :
    (taskCreate s taskMemory stackMemory).2.Inv L W c := by
  have hfresh := h.fresh s.nextPid le_rfl
  have hstate : Function.update s.state s.nextPid .ready = s.state := by
    rw [← hfresh.1, Function.update_eq_self]
  have hwaiters : Function.update s.waiters (.task s.nextPid) none = s.waiters := by
    rw [← hfresh.2, Function.update_eq_self]
  have hL : s.nextPid ∉ L := fun hmem => Nat.lt_irrefl _ (h.runList.lt _ hmem)
  have hW : ∀ o, s.nextPid ∉ W o := fun o hmem => Nat.lt_irrefl _ (h.lt_of_mem hmem)
  rcases taskMemory with _ | _
  · exact h
  rcases stackMemory with _ | _
  · exact h
  simp only [taskCreate, not_true_eq_false, if_false, hstate, hwaiters]
  refine ⟨⟨h.runList.chain.update hL _, fun t ht => ?_, h.runList.current, h.runList.mem,
    h.runList.doomed⟩, ⟨fun o => (h.waits.chain o).update (hW o) _, h.waits.disjoint,
    h.waits.blocked, h.waits.mutex, h.waits.semaphore, h.waits.event, h.waits.dead⟩,
    h.others, h.dead_iff, fun t ht => h.fresh t (Nat.le_of_succ_le ht)⟩
  exact Nat.lt_succ_of_lt (h.runList.lt t ht)

theorem add (h : s.Inv L W c) (hlt : t < s.nextPid) (ht : t ∉ L) (hnull : s.next t = none)
    (hready : s.state t = .ready) :
    Sys.Inv { s with next := appended s L t } (L ++ [t]) W c where
  runList := h.runList.add hlt ht hnull
  waits := h.waits.congr
    ⟨rfl, rfl, rfl, rfl, rfl, fun _ => Iff.rfl, fun _ => Iff.rfl⟩
  others := h.others
  dead_iff x hx hc := by
    rcases List.mem_append.mp hx with hx | hx
    · exact h.dead_iff x hx hc
    · rw [List.mem_singleton.mp hx]
      refine iff_of_false ?_ fun hd => ht (h.runList.doomed t hd).1
      rw [hready]
      decide
  fresh := h.fresh

end Sys.Inv

/-! ### The state in which a call returns or yields -/

/-- The state in which the call returns or yields, if `L` and `W` are its lists and `c` calls. -/
def Op.before (s : Sys) (L : List TaskId) (W : WaitObj → List TaskId) (c : TaskId) : Op → Sys
  | .create taskMemory stackMemory => (taskCreate s taskMemory stackMemory).2
  | .add (some t) => { s with next := appended s L t }
  | .sleep ticks => { s with
      wakeTick := Function.update s.wakeTick c (u64 (s.ticks + ticks))
      state := Function.update s.state c .sleeping }
  | .exit => { awake s (.task c) (W (.task c)) with
      state := Function.update (awake s (.task c) (W (.task c))).state c .dead }
  | .mutexTryLock m => (Bethany.mutexTryLock s m).2
  | .mutexUnlock m => Bethany.mutexUnlock s m
  | .semaphoreTryWait k => (Bethany.semaphoreTryWait s k).2
  | .semaphoreSignal k => Bethany.semaphoreSignal s k
  | .eventSet e => awake { s with signaled := Function.update s.signaled e true } (.event e)
      (W (.event e))
  | .eventReset e => Bethany.eventReset s e
  | .tick => { s with ticks := u64 (s.ticks + 1) }
  | op => match op.target with
    | some o => if Blocks s o then pushed s c o else acquire s o
    | none => s

/-- The call yields. -/
def Op.Yields (s : Sys) : Op → Prop
  | .yield => True
  | .sleep _ => True
  | .exit => True
  | .tick => True
  | op => ∃ o, op.target = some o ∧ Blocks s o

/-- The wait lists when the call returns or yields. -/
def Op.waits (s : Sys) (W : WaitObj → List TaskId) (c : TaskId) : Op → WaitObj → List TaskId
  | .exit => Function.update W (.task c) []
  | .mutexUnlock m => Function.update W (.mutex m) (W (.mutex m)).tail
  | .semaphoreSignal k => Function.update W (.semaphore k) (W (.semaphore k)).tail
  | .eventSet e => Function.update W (.event e) []
  | op => match op.target with
    | some o => if Blocks s o then Function.update W o (c :: W o) else W
    | none => W

/-- The run list when the call returns or yields. -/
def Op.list (L : List TaskId) : Op → List TaskId
  | .add (some t) => L ++ [t]
  | _ => L

/-- The arguments of the call are as the caller has to provide them: a task to join with has
been created, and a task to add has been created and not been added before. -/
def Op.Fits (s : Sys) (L : List TaskId) : Op → Prop
  | .add (some t) => t < s.nextPid ∧ t ∉ L ∧ s.next t = none ∧ s.state t = .ready
  | .join (some t) => t < s.nextPid
  | _ => True

theorem before_waitOn (o : WaitObj) :
    (Op.waitOn o).before s L W c = if Blocks s o then pushed s c o else acquire s o := by
  cases o <;> rfl

theorem waits_waitOn (o : WaitObj) :
    (Op.waitOn o).waits s W c = if Blocks s o then Function.update W o (c :: W o) else W := by
  cases o <;> rfl

/-- A caller that waits for an object comes onto its list. -/
theorem mem_waits_waitOn {o : WaitObj} (hb : Blocks s o) : c ∈ (Op.waitOn o).waits s W c o := by
  rw [waits_waitOn, if_pos hb]
  exact mem_push.mpr (.inl ⟨rfl, rfl⟩)

theorem list_waitOn (o : WaitObj) : (Op.waitOn o).list L = L := by
  cases o <;> rfl

theorem yields_waitOn {o : WaitObj} : (Op.waitOn o).Yields s ↔ Blocks s o := by
  have hex : (∃ o', (Op.waitOn o).target = some o' ∧ Blocks s o') ↔ Blocks s o := by
    simp
  rw [← hex]
  cases o <;> exact Iff.rfl

/-- The states agree but for the states of the tasks and for the objects that tasks wait for. -/
def SameButObjects (s s' : Sys) : Prop :=
  s' = { s with
    state := s'.state, waitNext := s'.waitNext, waiters := s'.waiters
    locked := s'.locked, count := s'.count, signaled := s'.signaled }

/-- A call makes or adds a task, or goes to sleep, or it is the timer, or it touches nothing but
states and objects before it returns or yields. -/
theorem before_cases (s : Sys) (L : List TaskId) (W : WaitObj → List TaskId) (c : TaskId)
    (op : Op) : op = .create true true ∨ (∃ t, op = .add (some t)) ∨ (∃ ticks, op = .sleep ticks) ∨
      op = .tick ∨ SameButObjects s (op.before s L W c) := by
  cases op using Op.waitOn_cases with
  | waitOn o =>
    rw [before_waitOn]
    split_ifs
    · exact .inr (.inr (.inr (.inr rfl)))
    · cases o <;> exact .inr (.inr (.inr (.inr rfl)))
  | create taskMemory stackMemory =>
    rcases taskMemory with _ | _
    · exact .inr (.inr (.inr (.inr rfl)))
    rcases stackMemory with _ | _
    · exact .inr (.inr (.inr (.inr rfl)))
    exact .inl rfl
  | add task =>
    cases task with
    | none => exact .inr (.inr (.inr (.inr rfl)))
    | some t => exact .inr (.inl ⟨t, rfl⟩)
  | sleep ticks => exact .inr (.inr (.inl ⟨ticks, rfl⟩))
  | tick => exact .inr (.inr (.inr (.inl rfl)))
  | mutexTryLock m =>
    refine .inr (.inr (.inr (.inr ?_)))
    show SameButObjects s (mutexTryLock s m).2
    unfold mutexTryLock
    split_ifs <;> rfl
  | mutexUnlock m =>
    refine .inr (.inr (.inr (.inr ?_)))
    show SameButObjects s (mutexUnlock s m)
    unfold mutexUnlock
    split <;> rfl
  | semaphoreTryWait k =>
    refine .inr (.inr (.inr (.inr ?_)))
    show SameButObjects s (semaphoreTryWait s k).2
    unfold semaphoreTryWait
    split_ifs <;> rfl
  | semaphoreSignal k =>
    refine .inr (.inr (.inr (.inr ?_)))
    show SameButObjects s (semaphoreSignal s k)
    unfold semaphoreSignal
    split <;> rfl
  | _ => exact .inr (.inr (.inr (.inr rfl)))

/-- What calls leave to the scheduler: it alone destroys tasks, notes one for that and switches.
The number of a task is never taken back, and tasks outside of the run list stay so. -/
structure LeavesToScheduler (s s' : Sys) (L : List TaskId) : Prop where
  destroyed : s'.destroyed = s.destroyed
  taskToDestroy : s'.taskToDestroy = s.taskToDestroy
  current : s'.current = s.current
  nextPid : s.nextPid ≤ s'.nextPid
  next : ∀ t ∉ L, s.next t = none → s'.next t = none

/-- A call before it returns or yields. -/
theorem before_frame (s : Sys) (L : List TaskId) (W : WaitObj → List TaskId) (c : TaskId)
    (op : Op) : LeavesToScheduler s (op.before s L W c) L := by
  have hsame {s' : Sys} (hdestroyed : s'.destroyed = s.destroyed)
      (hdestroy : s'.taskToDestroy = s.taskToDestroy) (hcurrent : s'.current = s.current)
      (hpid : s'.nextPid = s.nextPid) (hnext : s'.next = s.next) : LeavesToScheduler s s' L :=
    ⟨hdestroyed, hdestroy, hcurrent, hpid.ge, fun t _ hnull => (congrFun hnext t).trans hnull⟩
  rcases before_cases s L W c op with rfl | ⟨t, rfl⟩ | ⟨ticks, rfl⟩ | rfl | hsame'
  · refine ⟨rfl, rfl, rfl, Nat.le_succ _, fun t _ hnull => ?_⟩
    show Function.update s.next s.nextPid none t = none
    by_cases heq : t = s.nextPid
    · rw [heq, Function.update_self]
    · rwa [Function.update_of_ne heq]
  · exact ⟨rfl, rfl, rfl, le_rfl, fun _ hL hnull => (appended_of_not_mem hL).trans hnull⟩
  · exact hsame rfl rfl rfl rfl rfl
  · exact hsame rfl rfl rfl rfl rfl
  · rw [hsame']
    exact hsame rfl rfl rfl rfl rfl

/-- A null `waiters` pointer is an empty list, and another one points to its first task. -/
theorem WaitLists.waiters_cases (h : WaitLists s W) (o : WaitObj) :
    (s.waiters o = none ∧ W o = []) ∨ ∃ t l, s.waiters o = some t ∧ W o = t :: l := by
  have hhead := (h.chain o).head_eq
  cases hW : W o with
  | nil =>
    rw [hW] at hhead
    exact .inl ⟨hhead, rfl⟩
  | cons t l =>
    rw [hW] at hhead
    exact .inr ⟨t, l, hhead, rfl⟩

theorem Sys.Inv.unlock (h : s.Inv L W c) (m : ℕ) :
    (mutexUnlock s m).Inv L (Function.update W (.mutex m) (W (.mutex m)).tail) c := by
  unfold mutexUnlock
  rcases h.waits.waiters_cases (.mutex m) with ⟨hnull, hnil⟩ | ⟨t, l, hsome, hcons⟩
  · rw [hnull, hnil, List.tail_nil, ← hnil, Function.update_eq_self]
    exact h.setLocked fun hne => absurd hnil hne
  · rw [hsome, hcons, List.tail_cons]
    exact h.wakeFirst hcons

theorem Sys.Inv.signal (h : s.Inv L W c) (k : ℕ) :
    (semaphoreSignal s k).Inv L (Function.update W (.semaphore k) (W (.semaphore k)).tail) c := by
  unfold semaphoreSignal
  rcases h.waits.waiters_cases (.semaphore k) with ⟨hnull, hnil⟩ | ⟨t, l, hsome, hcons⟩
  · rw [hnull, hnil, List.tail_nil, ← hnil, Function.update_eq_self]
    exact h.setCount fun hne => absurd hnil hne
  · rw [hsome, hcons, List.tail_cons]
    exact h.wakeFirst hcons

/-- **The invariant holds when a call returns or yields.** -/
theorem Sys.Inv.before (h : s.Inv L W c) (hrun : s.state c = .running) (hfits : op.Fits s L) :
    (op.before s L W c).Inv (op.list L) (op.waits s W c) c := by
  cases op using Op.waitOn_cases with
  | waitOn o =>
    rw [before_waitOn, waits_waitOn, list_waitOn]
    split_ifs with hb
    · apply h.pushed hrun hb
      intro t ht
      subst ht
      exact hfits
    · exact h.acquire hb
  | create taskMemory stackMemory => exact h.create taskMemory stackMemory
  | add task =>
    cases task with
    | none => exact h
    | some t => exact h.add hfits.1 hfits.2.1 hfits.2.2.1 hfits.2.2.2
  | yield => exact h
  | sleep ticks => exact h.setState (not_blocked hrun) (by decide) (fun hd => absurd hd (by decide))
  | exit =>
    have hc : (Bethany.awake s (.task c) (W (.task c))).state c ≠ .blocked := by
      show (if c ∈ W (.task c) then TaskState.ready else s.state c) ≠ .blocked
      rw [if_neg (h.waits.not_mem (not_blocked hrun) _)]
      exact not_blocked hrun
    exact (h.awake (.task c)).setState hc (by decide) fun _ => Function.update_self ..
  | join => exact h
  | mutexTryLock m =>
    show (Bethany.mutexTryLock s m).2.Inv L W c
    unfold Bethany.mutexTryLock
    split_ifs
    · exact h
    · exact h.setLocked fun _ => rfl
  | mutexUnlock m => exact h.unlock m
  | semaphoreTryWait k =>
    show (Bethany.semaphoreTryWait s k).2.Inv L W c
    unfold Bethany.semaphoreTryWait
    split_ifs with hk
    · exact h
    · exact h.setCount fun hne => absurd (h.waits.semaphore k hne) hk
  | semaphoreSignal k => exact h.signal k
  | eventSet e =>
    -- setting the flag and emptying the list commute
    refine (h.awake (.event e)).setSignaled (fun _ => ?_)
    exact Function.update_self ..
  | eventReset e => exact h.setSignaled fun hb => absurd hb (by decide)
  | tick =>
    exact ⟨⟨h.runList.chain, h.runList.lt, h.runList.current, h.runList.mem, h.runList.doomed⟩,
      h.waits.congr ⟨rfl, rfl, rfl, rfl, rfl, fun _ => Iff.rfl, fun _ => Iff.rfl⟩,
      h.others, h.dead_iff, h.fresh⟩

/-! ### Complete calls -/

/-- **A call is `Op.before`, followed by `scheduler_schedule` if it yields.** -/
theorem Sys.Inv.exec_eq (h : s.Inv L W c) (hfits : op.Fits s L) :
    (op.Yields s → op.exec s = schedulerSchedule (op.before s L W c)) ∧
      (¬ op.Yields s → op.exec s = some (op.before s L W c)) := by
  have hcurrent := h.runList.current
  have hreturns (ho : op.target = none) : ¬ ∃ o, op.target = some o ∧ Blocks s o := by
    simp [ho]
  cases op using Op.waitOn_cases with
  | waitOn o =>
    rw [exec_waitOn, before_waitOn, yields_waitOn]
    constructor
    · intro hb
      rw [if_pos hb, if_pos hb, block_eq hcurrent]
    · intro hb
      rw [if_neg hb, if_neg hb]
  | add task =>
    refine ⟨fun hy => absurd hy (hreturns rfl), fun _ => ?_⟩
    cases task with
    | none => rfl
    | some t => exact (schedulerAdd_spec h.runList hfits.2.1 hfits.2.2.1).1
  | yield => exact ⟨fun _ => rfl, fun hy => absurd trivial hy⟩
  | sleep ticks =>
    refine ⟨fun _ => ?_, fun hy => absurd trivial hy⟩
    show taskSleep s ticks = _
    unfold taskSleep
    simp only [hcurrent, Option.bind_eq_bind, Option.bind_some]
    rw [← hcurrent]
    rfl
  | exit =>
    refine ⟨fun _ => ?_, fun hy => absurd trivial hy⟩
    show taskExit s = _
    unfold taskExit
    simp only [hcurrent, Option.bind_eq_bind, Option.bind_some,
      wakeAll_eq (h.waits.chain (.task c)) (h.length_lt (.task c))]
    rfl
  | tick => exact ⟨fun _ => rfl, fun hy => absurd trivial hy⟩
  | join => exact ⟨fun hy => absurd hy (hreturns rfl), fun _ => rfl⟩
  | eventSet e =>
    exact ⟨fun hy => absurd hy (hreturns rfl),
      fun _ => wakeAll_eq (h.waits.chain (.event e)) (h.length_lt (.event e))⟩
  | _ => exact ⟨fun hy => absurd hy (hreturns rfl), fun _ => rfl⟩

/-- The caller cannot go on before it has been woken. -/
def Op.Suspends (s : Sys) : Op → Prop
  | .sleep _ => True
  | .exit => True
  | op => ∃ o, op.target = some o ∧ Blocks s o

theorem suspends_of_blocks (ho : op.target = some o) (hb : Blocks s o) : op.Suspends s := by
  cases op with
  | sleep ticks => trivial
  | exit => trivial
  | _ => exact ⟨o, ho, hb⟩

theorem suspends_cases (h : op.Suspends s) :
    (∃ o, op.target = some o ∧ Blocks s o) ∨ (∃ ticks, op = .sleep ticks) ∨ op = .exit := by
  cases op with
  | sleep ticks => exact .inr (.inl ⟨ticks, rfl⟩)
  | exit => exact .inr (.inr rfl)
  | _ => exact .inl h

theorem suspends_waitOn {o : WaitObj} : (Op.waitOn o).Suspends s ↔ Blocks s o := by
  constructor
  · intro h
    rcases suspends_cases h with ⟨o', ho, hb⟩ | ⟨ticks, heq⟩ | heq
    · rw [target_waitOn] at ho
      exact Option.some_injective _ ho ▸ hb
    · cases o <;> exact absurd heq nofun
    · cases o <;> exact absurd heq nofun
  · exact suspends_of_blocks (target_waitOn o)

instance Op.decidableSuspends (s : Sys) : DecidablePred (Op.Suspends s)
  | .sleep _ | .exit => isTrue trivial
  | .mutexLock m => decidable_of_iff _ (suspends_waitOn (o := .mutex m)).symm
  | .semaphoreWait k => decidable_of_iff _ (suspends_waitOn (o := .semaphore k)).symm
  | .eventWait e => decidable_of_iff _ (suspends_waitOn (o := .event e)).symm
  | .join (some t) => decidable_of_iff _ (suspends_waitOn (o := .task t)).symm
  | .create .. | .add _ | .yield | .join none | .mutexTryLock _ | .mutexUnlock _
  | .semaphoreTryWait _ | .semaphoreSignal _ | .eventSet _ | .eventReset _ | .tick =>
      isFalse fun ⟨_, ho, _⟩ => nomatch ho

theorem yields_of_suspends (h : op.Suspends s) : op.Yields s := by
  rcases suspends_cases h with ⟨o, ho, hb⟩ | ⟨ticks, rfl⟩ | rfl
  · obtain rfl := target_eq_some.mp ho
    exact yields_waitOn.mpr hb
  · trivial
  · trivial

/-- If the caller cannot go on, some other task of the run list can: it is ready, its time to
wake up has come, or it waits for the caller, which exits. -/
def Op.Relieved (s : Sys) (op : Op) : Prop :=
  op.Suspends s → ∃ t, Linked s.next s.first t ∧ s.current ≠ some t ∧
    (s.state t = .ready ∨ s.Due t ∨
      op = .exit ∧ ∃ c, s.current = some c ∧ Linked s.waitNext (s.waiters (.task c)) t)

/-- How a call ends: it returns to the caller, or the scheduler passes control on. -/
inductive Op.Outcome (op : Op) (s : Sys) (L : List TaskId) (W : WaitObj → List TaskId)
    (c : TaskId) : Sys → List TaskId → TaskId → Prop
  | returns (hy : ¬ op.Yields s) : Outcome op s L W c (op.before s L W c) (op.list L) c
  | yields {s' : Sys} {c' : TaskId} (hy : op.Yields s)
      (hs : Scheduled (op.before s L W c) s' (op.list L) c c') :
      Outcome op s L W c s' ((op.before s L W c).remaining (op.list L)) c'

theorem wakeFirst_state_cases (h : s.Inv L W c) (ht : s.waiters o = some t) (x : TaskId) :
    (wakeFirst s o t).state x = s.state x ∨
      s.state x = .blocked ∧ (wakeFirst s o t).state x = .ready := by
  rw [wakeFirst_state]
  by_cases hxt : x = t
  · subst hxt
    rcases h.waits.waiters_cases o with ⟨hnull, -⟩ | ⟨x', l, hsome, hcons⟩
    · exact absurd (hnull.symm.trans ht) nofun
    · obtain rfl := Option.some_injective _ (hsome.symm.trans ht)
      refine .inr ⟨(h.waits.blocked x').mpr ⟨o, ?_⟩, Function.update_self ..⟩
      rw [hcons]
      exact List.mem_cons_self
  · exact .inl (Function.update_of_ne hxt _ _)

/-- Before it returns or yields, a call changes the states of the caller and of the tasks that
it wakes only, and that of the caller only if it has to be woken. -/
theorem before_state (op : Op) (h : s.Inv L W c) (ht : t ≠ c ∨ ¬ op.Suspends s) :
    (op.before s L W c).state t = s.state t ∨
      s.state t = .blocked ∧ (op.before s L W c).state t = .ready := by
  have hawake (o : WaitObj) : (if t ∈ W o then TaskState.ready else s.state t) = s.state t ∨
      s.state t = .blocked ∧ (if t ∈ W o then TaskState.ready else s.state t) = .ready := by
    split_ifs with hmem
    · exact .inr ⟨(h.waits.blocked t).mpr ⟨o, hmem⟩, rfl⟩
    · exact .inl rfl
  cases op using Op.waitOn_cases with
  | waitOn o =>
    left
    rw [before_waitOn]
    split_ifs with hb
    · have hsusp : (Op.waitOn o).Suspends s := suspends_of_blocks (target_waitOn o) hb
      exact Function.update_of_ne (ht.resolve_right fun hn => hn hsusp) _ _
    · cases o <;> rfl
  | create taskMemory stackMemory =>
    left
    rcases taskMemory with _ | _
    · rfl
    rcases stackMemory with _ | _
    · rfl
    show Function.update s.state s.nextPid .ready t = s.state t
    rw [← (h.fresh s.nextPid le_rfl).1, Function.update_eq_self]
  | add task => cases task <;> exact .inl rfl
  | sleep ticks =>
    exact .inl (Function.update_of_ne (ht.resolve_right fun hn => hn trivial) _ _)
  | exit =>
    have hne : t ≠ c := ht.resolve_right fun hn => hn trivial
    have hstate : (Op.exit.before s L W c).state t =
        if t ∈ W (.task c) then .ready else s.state t := Function.update_of_ne hne _ _
    rw [hstate]
    exact hawake _
  | mutexTryLock m =>
    left
    show (mutexTryLock s m).2.state t = s.state t
    unfold mutexTryLock
    split_ifs <;> rfl
  | mutexUnlock m =>
    show (mutexUnlock s m).state t = s.state t ∨ _ ∧ (mutexUnlock s m).state t = .ready
    unfold mutexUnlock
    cases hw : s.waiters (.mutex m) with
    | none => exact .inl rfl
    | some w => exact wakeFirst_state_cases h hw t
  | semaphoreTryWait k =>
    left
    show (semaphoreTryWait s k).2.state t = s.state t
    unfold semaphoreTryWait
    split_ifs <;> rfl
  | semaphoreSignal k =>
    show (semaphoreSignal s k).state t = s.state t ∨ _ ∧ (semaphoreSignal s k).state t = .ready
    unfold semaphoreSignal
    cases hw : s.waiters (.semaphore k) with
    | none => exact .inl rfl
    | some w => exact wakeFirst_state_cases h hw t
  | eventSet e => exact hawake _
  | eventReset e => exact .inl rfl
  | tick => exact .inl rfl
  | yield => exact .inl rfl
  | join => exact .inl rfl

/-- A caller that need not be woken is running when the call returns or yields. -/
theorem before_state_caller (h : s.Inv L W c) (hrun : s.state c = .running)
    (hsusp : ¬ op.Suspends s) : (op.before s L W c).state c = .running := by
  rcases before_state op h (.inr hsusp) with heq | ⟨hblocked, -⟩
  · rw [heq, hrun]
  · exact absurd hblocked (Sys.Inv.not_blocked hrun)

/-- What a call by a caller that has to be woken leaves alone. -/
theorem before_of_suspends (hsusp : op.Suspends s) :
    op.list L = L ∧ (op.before s L W c).taskToDestroy = s.taskToDestroy ∧
      (op.before s L W c).ticks = s.ticks ∧
      ∀ t, t ≠ c → (op.before s L W c).wakeTick t = s.wakeTick t := by
  rcases suspends_cases hsusp with ⟨o, ho, hb⟩ | ⟨ticks, rfl⟩ | rfl
  · obtain rfl := target_eq_some.mp ho
    rw [before_waitOn, if_pos hb]
    exact ⟨list_waitOn o, rfl, rfl, fun _ _ => rfl⟩
  · exact ⟨rfl, rfl, rfl, fun t ht => Function.update_of_ne ht _ _⟩
  · exact ⟨rfl, rfl, rfl, fun _ _ => rfl⟩

/-- The task that relieves the caller can be given control when the caller yields. -/
theorem relieved_before (h : s.Inv L W c) (hrun : s.state c = .running) (hrel : op.Relieved s) :
    (op.before s L W c).state c = .running ∨
      ∃ t ∈ (op.before s L W c).remaining (op.list L), t ≠ c ∧
        ((op.before s L W c).state t = .ready ∨ (op.before s L W c).Due t) := by
  by_cases hsusp : op.Suspends s
  · right
    obtain ⟨t, hlinked, hcur, hgo⟩ := hrel hsusp
    have ht : t ∈ L := h.runList.chain.linked_iff.mp hlinked
    have hc : t ≠ c := fun heq => hcur (heq ▸ h.runList.current)
    obtain ⟨hlist, hdestroy, hticks, hwake⟩ := before_of_suspends (L := L) (W := W) (c := c) hsusp
    have hstate := before_state op h (.inl hc)
    refine ⟨t, ?_, hc, ?_⟩
    · have hremaining : (op.before s L W c).remaining (op.list L) = s.remaining L := by
        unfold Sys.remaining
        rw [hlist, hdestroy]
      rw [hremaining]
      refine h.runList.mem_remaining.mpr ⟨ht, fun hd => ?_⟩
      have hdead := (h.dead_iff t ht hc).mpr hd
      rcases hgo with hready | hdue | ⟨rfl, c₁, hc₁, hwaits⟩
      · exact absurd (hready.symm.trans hdead) (by decide)
      · exact absurd (hdue.1.symm.trans hdead) (by decide)
      · obtain rfl := h.runList.eq_of_current hc₁
        have hmem := (h.waits.chain (.task c)).linked_iff.mp hwaits
        have hblocked := (h.waits.blocked t).mpr ⟨_, hmem⟩
        exact absurd (hblocked.symm.trans hdead) (by decide)
    · rcases hgo with hready | hdue | ⟨rfl, c₁, hc₁, hwaits⟩
      · rcases hstate with heq | ⟨hblocked, -⟩
        · exact .inl (heq.trans hready)
        · exact absurd (hready.symm.trans hblocked) (by decide)
      · rcases hstate with heq | ⟨hblocked, -⟩
        · refine .inr ⟨heq.trans hdue.1, ?_⟩
          rw [hwake t hc, hticks]
          exact hdue.2
        · exact absurd (hdue.1.symm.trans hblocked) (by decide)
      · obtain rfl := h.runList.eq_of_current hc₁
        have hmem := (h.waits.chain (.task c)).linked_iff.mp hwaits
        left
        have : (Op.exit.before s L W c).state t = if t ∈ W (.task c) then .ready else s.state t :=
          Function.update_of_ne hc _ _
        rw [this, if_pos hmem]
  · exact .inl (before_state_caller h hrun hsusp)

/-- **A relieved call ends with a running task in control**, and keeps the invariant. -/
theorem Sys.Inv.exec (h : s.Inv L W c) (hrun : s.state c = .running) (hfits : op.Fits s L)
    (hrel : op.Relieved s) :
    ∃ s' L' c', op.exec s = some s' ∧ op.Outcome s L W c s' L' c' ∧
      s'.Inv L' (op.waits s W c) c' ∧ s'.state c' = .running := by
  have hbefore := h.before hrun hfits
  by_cases hy : op.Yields s
  · obtain ⟨s', c', heq, hs, hinv⟩ := hbefore.schedule
    refine ⟨s', _, c', ((h.exec_eq hfits).1 hy).trans heq, .yields hy hs, hinv, ?_⟩
    exact hs.runs hbefore.runList (relieved_before h hrun hrel)
  · refine ⟨_, _, c, (h.exec_eq hfits).2 hy, .returns hy, hbefore, ?_⟩
    exact before_state_caller h hrun fun hsusp => hy (yields_of_suspends hsusp)

end Bethany
