import Bethany.Library.Runs
import Bethany.Scheduler.LifeCycle

/-!
# `task_join` and `event_wait` return for their reason

Neither call looks at its condition again when it goes on, and it goes on long after it has been
woken.  So a task must be woken by the exit it joins with or by the event it waits for, by nothing
else, and only once.

* `KmainRun`, `InCall`, `Returns`, `WokenIn`: a run as the sequence of its worlds, the steps in
  which a call is made and returns, and the step in which a task is woken;
* `Op.wakesAll`: the object all of whose waiters a call wakes;
* `World.Kmain.wakes`, `World.Kmain.stays_awake`: what one step does to the waiters;
* `KmainRun.woken_once`: a call that has blocked is woken in one step before it returns;
* `waits_return_for_reason`: joins and event waits return for their reason.
-/

namespace Bethany

open Machine LinkedList Relation

variable {w w' : World} {L L' : List TaskId} {W : WaitObj → List TaskId} {c c' t u : TaskId}
  {op : Op} {o : WaitObj} {initial : ℕ → ℕ} {s s' : Sys} {run : ℕ → World} {ops : ℕ → Op}
  {i j m n : ℕ}

/-! ### Runs as sequences -/

/-- The first `n` steps of a run of `kmain`: in step `i` the task that has control in `run i`
carries out `ops i`. -/
structure KmainRun (initial : ℕ → ℕ) (n : ℕ) (run : ℕ → World) (ops : ℕ → Op) : Prop where
  boot : run 0 = World.boot initial
  legal : ∀ i < n, (run i).Legal (ops i)
  stays : ∀ i < n, (run i).BootStays (ops i)
  exec : ∀ i < n, (run i).exec (ops i) = some (run (i + 1))

/-- The task `t` makes a call in step `i`, and has not got control back up to `run m`. -/
structure InCall (run : ℕ → World) (t : TaskId) (i m : ℕ) : Prop where
  le : i ≤ m
  caller : (run i).sys.current = some t
  without : ∀ k, i < k → k ≤ m → (run k).sys.current ≠ some t

/-- The call that the task `t` makes in step `i` returns in step `j`. -/
def Returns (run : ℕ → World) (t : TaskId) (i j : ℕ) : Prop :=
  InCall run t i j ∧ (run (j + 1)).sys.current = some t

/-- The task is woken in step `m`. -/
def WokenIn (run : ℕ → World) (t : TaskId) (m : ℕ) : Prop :=
  (run m).sys.state t = .blocked ∧ (run (m + 1)).sys.state t ≠ .blocked

theorem KmainRun.kmain (h : KmainRun initial n run ops) (hi : i ≤ n) :
    ∃ L W c, (run i).Kmain L W c := by
  induction i with
  | zero =>
    rw [h.boot]
    exact ⟨_, _, _, World.Kmain.boot⟩
  | succ i ih =>
    obtain ⟨L, W, c, hk⟩ := ih (Nat.le_of_succ_le hi)
    obtain ⟨L', c', -, hk'⟩ := hk.next (h.legal i hi) (h.stays i hi) (h.exec i hi)
    exact ⟨_, _, _, hk'⟩

/-! ### The waiters of one object -/

/-- The object all of whose waiters a call wakes. -/
def Op.wakesAll (s : Sys) : Op → Option WaitObj
  | .exit => s.current.map .task
  | .eventSet e => some (.event e)
  | _ => none

/-- `task_exit` and `event_set` alone wake all waiters. -/
theorem wakesAll_cases (hcurrent : s.current = some c) (h : op.wakesAll s = some o) :
    op = .exit ∧ o = .task c ∨ ∃ e, op = .eventSet e ∧ o = .event e := by
  cases op with
  | exit =>
    left
    change s.current.map WaitObj.task = some o at h
    rw [hcurrent] at h
    exact ⟨rfl, (Option.some_injective _ h).symm⟩
  | eventSet e => exact .inr ⟨e, rfl, (Option.some_injective _ h).symm⟩
  | _ => exact absurd h nofun

/-- The tasks that a call finds on the `waiters` list of the object, each of them once, are those
that wait for it, and none of them is blocked afterwards. -/
def World.WakesWaiters (w : World) (o : WaitObj) (w' : World) : Prop :=
  ∃ l, Chain w.sys.waitNext (w.sys.waiters o) l ∧ l.Nodup ∧
    (∀ t, t ∈ l ↔ w.inside t = some (.waitOn o) ∧ w.sys.state t = .blocked) ∧
    w'.sys.waiters o = none ∧
    ∀ t ∈ l, w'.sys.state t = .ready ∨ w'.sys.current = some t

/-- A task on the list of an event or of a task stays there, or the call wakes all of the list. -/
theorem mem_waits_or_wakesAll (hcurrent : s.current = some c) (ht : t ∈ W o)
    (hm : ∀ m, o ≠ .mutex m) (hsem : ∀ k, o ≠ .semaphore k) :
    t ∈ op.waits s W c o ∨ op.wakesAll s = some o := by
  have hother (o' : WaitObj) (l : List TaskId) (hne : o ≠ o') : t ∈ Function.update W o' l o := by
    rwa [Function.update_of_ne hne]
  have hall (o' : WaitObj) : t ∈ Function.update W o' [] o ∨ some o' = some o := by
    by_cases heq : o = o'
    · exact .inr (congrArg some heq.symm)
    · exact .inl (hother _ _ heq)
  cases op using Op.waitOn_cases with
  | waitOn o' =>
    left
    rw [waits_waitOn]
    split_ifs
    · exact mem_push.mpr (.inr ht)
    · exact ht
  | exit =>
    show _ ∨ s.current.map WaitObj.task = some o
    rw [hcurrent]
    exact hall (.task c)
  | eventSet e => exact hall (.event e)
  | mutexUnlock m => exact .inl (hother _ _ (hm m))
  | semaphoreSignal k => exact .inl (hother _ _ (hsem k))
  | _ => exact .inl ht

/-- The tasks on a wait list are those inside of a call that waits for its object, and blocked. -/
theorem World.Kmain.mem_iff (hk : w.Kmain L W c) :
    t ∈ W o ↔ w.inside t = some (.waitOn o) ∧ w.sys.state t = .blocked := by
  constructor
  · intro ht
    obtain ⟨op, hinside, htarget⟩ := hk.inv.inside o t ht
    rw [hinside, target_eq_some.mp htarget]
    exact ⟨rfl, (hk.inv.sys.waits.blocked t).mpr ⟨o, ht⟩⟩
  · rintro ⟨hinside, hblocked⟩
    obtain ⟨o', ht⟩ := (hk.inv.sys.waits.blocked t).mp hblocked
    obtain ⟨op, hinside', htarget⟩ := hk.inv.inside o' t ht
    obtain rfl := Option.some_injective _ (hinside.symm.trans hinside')
    rw [target_waitOn] at htarget
    rwa [Option.some_injective _ htarget]

/-! ### One step -/

/-- The scheduler neither kills a task nor brings one back. -/
theorem Op.Outcome.dead_iff (hout : op.Outcome s L W c s' L' c')
    (hbefore : RunList (op.before s L W c) (op.list L) c) :
    s'.state t = .dead ↔ (op.before s L W c).state t = .dead := by
  cases hout with
  | returns hy => rfl
  | yields hy hs => exact hs.state_iff hbefore (.inr rfl)

/-- A dead task stays dead. -/
theorem World.Kmain.dead (hk : w.Kmain L W c) (hout : op.Outcome w.sys L W c w'.sys L' c')
    (hlegal : w.Legal op) (hdead : w.sys.state t = .dead) : w'.sys.state t = .dead := by
  have hbefore := hk.inv.sys.before hk.inv.running (hk.inv.fits hlegal)
  have hne : t ≠ c := by
    rintro rfl
    exact absurd (hdead.symm.trans hk.inv.running) (by decide)
  exact (hout.dead_iff hbefore.runList).mpr (before_dead hk.inv.sys hne hdead)

/-- A task that is not blocked and has no control does not become blocked. -/
theorem World.Kmain.stays_awake (hk : w.Kmain L W c) (hk' : w'.Kmain L' (op.waits w.sys W c) c')
    (hc : t ≠ c) (hawake : w.sys.state t ≠ .blocked) : w'.sys.state t ≠ .blocked := by
  intro hblocked
  obtain ⟨o, ht⟩ := (hk'.inv.sys.waits.blocked t).mp hblocked
  rcases mem_waits ht with hold | ⟨heq, -⟩
  · exact hk.inv.sys.waits.not_mem hawake o hold
  · exact hc heq

/-- A task that waits for an event or for a task stays blocked, or the call wakes all that wait
for it. -/
theorem World.Kmain.woken (hk : w.Kmain L W c) (hk' : w'.Kmain L' (op.waits w.sys W c) c')
    (hm : ∀ m, o ≠ .mutex m) (hsem : ∀ k, o ≠ .semaphore k)
    (hinside : w.inside t = some (.waitOn o)) (hblocked : w.sys.state t = .blocked) :
    w'.sys.state t = .blocked ∨ op.wakesAll w.sys = some o := by
  have ht := hk.mem_iff.mpr ⟨hinside, hblocked⟩
  refine (mem_waits_or_wakesAll hk.inv.sys.runList.current ht hm hsem).imp_left fun hmem => ?_
  exact (hk'.inv.sys.waits.blocked t).mpr ⟨o, hmem⟩

/-- A task that exits is dead when it loses control. -/
theorem World.Kmain.exits (hk : w.Kmain L W c) (hout : Op.exit.Outcome w.sys L W c w'.sys L' c') :
    w'.sys.state c = .dead := by
  have hlegal : w.Legal .exit := trivial
  have hbefore := hk.inv.sys.before hk.inv.running (hk.inv.fits hlegal)
  exact (hout.dead_iff hbefore.runList).mpr ((before_dead_iff hk.inv.sys hk.inv.running).mpr rfl)

/-- `event_set` returns to its caller with the event signaled. -/
theorem Op.Outcome.signaled {e : ℕ} (hout : (Op.eventSet e).Outcome s L W c s' L' c') :
    s'.signaled e = true := by
  cases hout with
  | returns hy => exact Function.update_self ..
  | yields hy hs =>
    obtain ⟨o, ho, -⟩ := hy
    cases ho

/-- **A call that wakes all waiters** empties the list, and every task that was on it is ready or
has got control. -/
theorem World.Kmain.wakes (hk : w.Kmain L W c) (hout : op.Outcome w.sys L W c w'.sys L' c')
    (hk' : w'.Kmain L' (op.waits w.sys W c) c') (hwakes : op.wakesAll w.sys = some o) :
    w.WakesWaiters o w' := by
  have hchain := hk.inv.sys.waits.chain o
  have hcases := wakesAll_cases hk.inv.sys.runList.current hwakes
  have hempty : op.waits w.sys W c o = [] := by
    rcases hcases with ⟨rfl, rfl⟩ | ⟨e, rfl, rfl⟩
    · exact Function.update_self ..
    · exact Function.update_self ..
  refine ⟨W o, hchain, hchain.nodup, fun t => hk.mem_iff, ?_, fun t ht => ?_⟩
  · have hchain' := hk'.inv.sys.waits.chain o
    rw [hempty] at hchain'
    exact hchain'
  · have hready : (op.before w.sys L W c).state t = .ready := by
      rcases hcases with ⟨rfl, rfl⟩ | ⟨e, rfl, rfl⟩
      · have hne : t ≠ c := fun heq => not_mem_of_control hk _ (heq ▸ ht)
        exact (Function.update_of_ne hne _ _).trans (if_pos ht)
      · exact if_pos ht
    have hgoes : w'.sys.state t = .ready ∨ w'.sys.state t = .running := by
      generalize w'.sys = s' at hout
      cases hout with
      | returns hy => exact .inl hready
      | yields hy hs => exact hs.ready_or_running (.inl hready)
    refine hgoes.imp_right fun hrunning => ?_
    rw [hk'.inv.sys.others t hrunning]
    exact hk'.inv.sys.runList.current

/-- A call that waits blocks its caller, or returns at once and leaves all tasks as they are. -/
theorem Op.Outcome.waitOn (hout : (Op.waitOn o).Outcome s L W c s' L' c')
    (hwaits : WaitLists s' ((Op.waitOn o).waits s W c)) :
    if Blocks s o then s'.state c = .blocked
    else c' = c ∧ s'.state = s.state ∧ s'.signaled = s.signaled := by
  split_ifs with hb
  · exact (hwaits.blocked c).mpr ⟨o, mem_waits_waitOn hb⟩
  · cases hout with
    | returns hy =>
      rw [before_waitOn, if_neg hb]
      cases o <;> exact ⟨rfl, rfl, rfl⟩
    | yields hy hs => exact absurd (yields_waitOn.mp hy) hb

/-! ### Joins -/

/-- A task inside of a join is blocked, or the task that it joins with has exited. -/
def World.Joins (w : World) : Prop :=
  ∀ t u, w.inside t = some (.join (some u)) → w.sys.state t = .blocked ∨ w.sys.state u = .dead

theorem World.Joins.step (h : w.Joins) (hk : w.Kmain L W c) (hlegal : w.Legal op)
    (hstays : w.BootStays op) (heq : w.exec op = some w') : w'.Joins := by
  obtain ⟨L', c', hout, hk'⟩ := hk.next hlegal hstays heq
  intro t u hinside
  rcases World.inside_after heq hinside with hold | ⟨hcurrent, hlost, rfl⟩
  · rcases h t u hold with hblocked | hdead
    · refine (hk.woken (o := .task u) hk' nofun nofun hold hblocked).imp_right fun hwakes => ?_
      rcases wakesAll_cases hk.inv.sys.runList.current hwakes with ⟨rfl, ho⟩ | ⟨e, -, ho⟩
      · rw [WaitObj.task.inj ho]
        exact hk.exits hout
      · exact absurd ho nofun
    · exact .inr (hk.dead hout hlegal hdead)
  · -- the caller has lost control in its join
    left
    obtain rfl := hk.inv.sys.runList.eq_of_current hcurrent
    have hcall := Op.Outcome.waitOn (o := .task u) hout hk'.inv.sys.waits
    split_ifs at hcall with hb
    · exact hcall
    · rw [hk'.inv.sys.runList.current, hcall.1] at hlost
      exact absurd rfl hlost

theorem KmainRun.joins (h : KmainRun initial n run ops) (hi : i ≤ n) : (run i).Joins := by
  induction i with
  | zero =>
    rw [h.boot]
    exact fun t u hinside => absurd hinside nofun
  | succ i ih =>
    obtain ⟨L, W, c, hk⟩ := h.kmain (Nat.le_of_succ_le hi)
    exact (ih (Nat.le_of_succ_le hi)).step hk (h.legal i hi) (h.stays i hi) (h.exec i hi)

/-! ### From the call to its return -/

/-- All that is known of step `i` of a run. -/
theorem KmainRun.step (h : KmainRun initial n run ops) (hi : i < n) :
    ∃ L W c L' c', (run i).Kmain L W c ∧
      (ops i).Outcome (run i).sys L W c (run (i + 1)).sys L' c' ∧
      (run (i + 1)).Kmain L' ((ops i).waits (run i).sys W c) c' := by
  obtain ⟨L, W, c, hk⟩ := h.kmain (Nat.le_of_lt hi)
  obtain ⟨L', c', hout, hk'⟩ := hk.next (h.legal i hi) (h.stays i hi) (h.exec i hi)
  exact ⟨L, W, c, L', c', hk, hout, hk'⟩

/-- A task that is dead once is dead from then on. -/
theorem KmainRun.dead (h : KmainRun initial n run ops) (hij : i ≤ j) (hj : j ≤ n)
    (hdead : (run i).sys.state t = .dead) : (run j).sys.state t = .dead := by
  induction j, hij using Nat.le_induction with
  | base => exact hdead
  | succ j hij ih =>
    obtain ⟨L, W, c, L', c', hk, hout, -⟩ := h.step hj
    exact hk.dead hout (h.legal j hj) (ih (Nat.le_of_succ_le hj))

/-- A task that has lost control in a call stays inside of it. -/
theorem KmainRun.inside (h : KmainRun initial n run ops) (hm : m ≤ n) (hcall : InCall run t i m)
    (him : i < m) : (run m).inside t = some (ops i) := by
  induction m, Nat.succ_le_of_lt him using Nat.le_induction with
  | base =>
    obtain ⟨s', -, heq⟩ := Option.map_eq_some_iff.mp (h.exec i hm)
    have hlost : s'.current ≠ some t := by
      have := hcall.without (i + 1) (Nat.lt_succ_self i) le_rfl
      rwa [← heq] at this
    rw [← heq]
    show insideAfter (run i).inside (ops i) (run i).sys.current s'.current t = some (ops i)
    unfold insideAfter
    rw [hcall.caller, if_neg (Ne.symm hlost), if_neg hlost, if_pos rfl]
  | succ m hle ih =>
    have hback : InCall run t i m :=
      ⟨Nat.le_of_succ_le hle, hcall.caller, fun k hik hkm =>
        hcall.without k hik (Nat.le_succ_of_le hkm)⟩
    rw [World.inside_of_ne (h.exec m hm) (hcall.without m hle (Nat.le_succ m))
      (hcall.without (m + 1) (Nat.lt_succ_of_lt hle) le_rfl)]
    exact ih (Nat.le_of_succ_le hm) hback hle

/-- **A wait that has blocked** is woken in exactly one step before it returns, by a call that
wakes all that wait for its object. -/
theorem KmainRun.woken_once (h : KmainRun initial n run ops) (hj : j < n)
    (hret : Returns run t i j) (hop : ops i = .waitOn o) (hb : Blocks (run i).sys o)
    (hm : ∀ m, o ≠ .mutex m) (hsem : ∀ k, o ≠ .semaphore k) :
    (∃! m, i < m ∧ m ≤ j ∧ WokenIn run t m) ∧
      ∀ m, i < m → m ≤ j → WokenIn run t m → (ops m).wakesAll (run m).sys = some o := by
  obtain ⟨hcall, hcontrol⟩ := hret
  -- the task has no control from the step after the call on, until the call returns
  have hother {m : ℕ} (him : i < m) (hmj : m ≤ j) {L W c} (hk : (run m).Kmain L W c) : t ≠ c := by
    rintro rfl
    exact hcall.without m him hmj hk.inv.sys.runList.current
  constructor
  · have hblocked : (run (i + 1)).sys.state t = .blocked := by
      obtain ⟨L, W, c, L', c', hk, hout, hk'⟩ := h.step (Nat.lt_of_le_of_lt hcall.le hj)
      obtain rfl := hk.inv.sys.runList.eq_of_current hcall.caller
      rw [hop] at hout hk'
      have hstate := hout.waitOn hk'.inv.sys.waits
      rwa [if_pos hb] at hstate
    have hawake : (run (j + 1)).sys.state t ≠ .blocked := by
      obtain ⟨L, W, c, hk⟩ := h.kmain hj
      obtain rfl := hk.inv.sys.runList.eq_of_current hcontrol
      exact Sys.Inv.not_blocked hk.inv.running
    have honce := Runs.existsUnique_lost (Nat.succ_le_succ hcall.le) hblocked hawake
      fun m him hmj hm => by
        obtain ⟨L, W, c, L', c', hk, -, hk'⟩ := h.step (Nat.lt_of_lt_of_le hmj hj)
        exact hk.stays_awake hk' (hother him (Nat.le_of_lt_succ hmj) hk) hm
    simpa only [WokenIn, ne_eq, Nat.succ_le_iff, Nat.lt_succ_iff] using honce
  · rintro m him hmj ⟨hblocked, hawake⟩
    have hback : InCall run t i m :=
      ⟨Nat.le_of_lt him, hcall.caller, fun k hik hkm => hcall.without k hik (hkm.trans hmj)⟩
    have hinside := h.inside (Nat.le_of_lt (Nat.lt_of_le_of_lt hmj hj)) hback him
    rw [hop] at hinside
    obtain ⟨L, W, c, L', c', hk, -, hk'⟩ := h.step (Nat.lt_of_le_of_lt hmj hj)
    exact (hk.woken hk' hm hsem hinside hblocked).resolve_left hawake

/-- `task_join` returns to a task other than the one it joins with when that one is dead. -/
theorem KmainRun.join_returns (h : KmainRun initial n run ops) (hj : j < n)
    (hret : Returns run t i j) (hop : ops i = .join (some u)) (hne : u ≠ t) :
    (run (j + 1)).sys.state u = .dead := by
  have hij := hret.1.le
  by_cases hb : Blocks (run i).sys (.task u)
  · obtain ⟨⟨m, ⟨him, hmj, hwoken⟩, -⟩, hreason⟩ :=
      h.woken_once (o := .task u) hj hret hop hb nofun nofun
    have hwakes := hreason m him hmj hwoken
    obtain ⟨L, W, c, L', c', hk, hout, -⟩ := h.step (Nat.lt_of_le_of_lt hmj hj)
    rcases wakesAll_cases hk.inv.sys.runList.current hwakes with ⟨hexit, ho⟩ | ⟨e, -, ho⟩
    · rw [hexit] at hout
      have hdead := hk.exits hout
      rw [← WaitObj.task.inj ho] at hdead
      exact h.dead (Nat.succ_le_succ hmj) hj hdead
    · exact absurd ho nofun
  · -- it has exited before the call
    have hdead : (run i).sys.state u = .dead := by
      by_contra hlive
      refine hb ⟨hlive, fun hcurrent => hne ?_⟩
      exact Option.some_injective _ (hcurrent.symm.trans hret.1.caller)
    exact h.dead (Nat.le_succ_of_le hij) hj hdead

/-- `event_wait` returns when the event has been signaled since the call. -/
theorem KmainRun.eventWait_returns {e : ℕ} (h : KmainRun initial n run ops) (hj : j < n)
    (hret : Returns run t i j) (hop : ops i = .eventWait e) :
    ∃ m, i ≤ m ∧ m ≤ j + 1 ∧ (run m).sys.signaled e = true := by
  have hij := hret.1.le
  by_cases hb : Blocks (run i).sys (.event e)
  · obtain ⟨⟨m, ⟨him, hmj, hwoken⟩, -⟩, hreason⟩ :=
      h.woken_once (o := .event e) hj hret hop hb nofun nofun
    have hwakes := hreason m him hmj hwoken
    obtain ⟨L, W, c, L', c', hk, hout, -⟩ := h.step (Nat.lt_of_le_of_lt hmj hj)
    rcases wakesAll_cases hk.inv.sys.runList.current hwakes with ⟨-, ho⟩ | ⟨e', hset, ho⟩
    · exact absurd ho nofun
    · rw [hset] at hout
      obtain rfl := WaitObj.event.inj ho
      exact ⟨m + 1, Nat.le_succ_of_le (Nat.le_of_lt him), Nat.succ_le_succ hmj, hout.signaled⟩
  · exact ⟨i, le_rfl, Nat.le_succ_of_le hij, (Bool.not_eq_false _).mp hb⟩

/-- **Joins and event waits return for their reason.**  In every run in which the boot task never
has to be woken: a `task_join` by a task other than the one it joins with returns in a state in
which that one is dead; an `event_wait` returns only if the event was signaled at some moment from
the call to the return; `task_exit` wakes all tasks that have joined and not returned, and
`event_set` all that wait for the event; and a join or an event wait that has blocked is woken
exactly once before it returns, by the exit or by a call that sets the event. -/
theorem waits_return_for_reason (h : KmainRun initial n run ops) :
    (∀ t u i j, j < n → Returns run t i j → ops i = .join (some u) → u ≠ t →
      (run (j + 1)).sys.state u = .dead) ∧
    (∀ t e i j, j < n → Returns run t i j → ops i = .eventWait e →
      ∃ m, i ≤ m ∧ m ≤ j + 1 ∧ (run m).sys.signaled e = true) ∧
    (∀ i < n, ∀ u, ops i = .exit → (run i).sys.current = some u →
      (run i).WakesWaiters (.task u) (run (i + 1)) ∧
        ∀ t, (run i).inside t = some (.join (some u)) → (run i).sys.state t = .blocked) ∧
    (∀ i < n, ∀ e, ops i = .eventSet e → (run i).WakesWaiters (.event e) (run (i + 1))) ∧
    (∀ t u i j, j < n → Returns run t i j → ops i = .join (some u) →
      Blocks (run i).sys (.task u) →
      (∃! m, i < m ∧ m ≤ j ∧ WokenIn run t m) ∧
        ∀ m, i < m → m ≤ j → WokenIn run t m →
          ops m = .exit ∧ (run m).sys.current = some u) ∧
    (∀ t e i j, j < n → Returns run t i j → ops i = .eventWait e →
      Blocks (run i).sys (.event e) →
      (∃! m, i < m ∧ m ≤ j ∧ WokenIn run t m) ∧
        ∀ m, i < m → m ≤ j → WokenIn run t m → ops m = .eventSet e) := by
  refine ⟨fun t u i j hj hret hop hne => h.join_returns hj hret hop hne,
    fun t e i j hj hret hop => h.eventWait_returns hj hret hop,
    fun i hi u hop hcurrent => ⟨?_, fun t hinside => ?_⟩, fun i hi e hop => ?_,
    fun t u i j hj hret hop hb => ?_, fun t e i j hj hret hop hb => ?_⟩
  · obtain ⟨L, W, c, L', c', hk, hout, hk'⟩ := h.step hi
    refine hk.wakes hout hk' ?_
    rw [hop]
    exact congrArg (Option.map WaitObj.task) hcurrent
  · obtain ⟨L, W, c, hk⟩ := h.kmain (Nat.le_of_lt hi)
    obtain rfl := hk.inv.sys.runList.eq_of_current hcurrent
    -- the caller has not exited yet
    refine (h.joins (Nat.le_of_lt hi) t c hinside).resolve_right fun hdead => ?_
    exact absurd (hdead.symm.trans hk.inv.running) (by decide)
  · obtain ⟨L, W, c, L', c', hk, hout, hk'⟩ := h.step hi
    refine hk.wakes hout hk' ?_
    rw [hop]
    rfl
  · obtain ⟨honce, hreason⟩ := h.woken_once (o := .task u) hj hret hop hb nofun nofun
    refine ⟨honce, fun m him hmj hwoken => ?_⟩
    obtain ⟨L, W, c, hk⟩ := h.kmain (Nat.le_of_lt (Nat.lt_of_le_of_lt hmj hj))
    have hcurrent := hk.inv.sys.runList.current
    rcases wakesAll_cases hcurrent (hreason m him hmj hwoken) with ⟨hexit, ho⟩ | ⟨e, -, ho⟩
    · rw [WaitObj.task.inj ho]
      exact ⟨hexit, hcurrent⟩
    · exact absurd ho nofun
  · obtain ⟨honce, hreason⟩ := h.woken_once (o := .event e) hj hret hop hb nofun nofun
    refine ⟨honce, fun m him hmj hwoken => ?_⟩
    obtain ⟨L, W, c, hk⟩ := h.kmain (Nat.le_of_lt (Nat.lt_of_le_of_lt hmj hj))
    have hcurrent := hk.inv.sys.runList.current
    rcases wakesAll_cases hcurrent (hreason m him hmj hwoken) with ⟨-, ho⟩ | ⟨e', hset, ho⟩
    · exact absurd ho nofun
    · rw [WaitObj.event.inj ho]
      exact hset

/-- The second task waits for event 5, which the boot task sets. -/
theorem waits_return_for_reason_example : ∃ run ops, KmainRun (fun _ => 0) 6 run ops ∧
    Returns run 1 3 5 ∧ ops 3 = .eventWait 5 ∧
      ∃ m, 3 ≤ m ∧ m ≤ 6 ∧ (run m).sys.signaled 5 = true := by
  obtain ⟨w₁, h₁, hadd, h₂, w₃, h₃, c₃, w₄, h₄, c₄, w₅, h₅, c₅, w₆, h₆, c₆⟩ :
      ∃ w₁, (World.boot fun _ => 0).exec (.create true true) = some w₁ ∧
        w₁.Legal (.add (some 1)) ∧ w₁.exec (.add (some 1)) = some twoTasks ∧
      ∃ w₃, twoTasks.exec .yield = some w₃ ∧ w₃.sys.current = some 1 ∧
      ∃ w₄, w₃.exec (.eventWait 5) = some w₄ ∧ w₄.sys.current = some 0 ∧
      ∃ w₅, w₄.exec (.eventSet 5) = some w₅ ∧ w₅.sys.current = some 0 ∧
      ∃ w₆, w₅.exec .yield = some w₆ ∧ w₆.sys.current = some 1 :=
    ⟨_, rfl, ⟨by decide, by decide⟩, rfl, _, rfl, rfl, _, rfl, rfl, _, rfl, rfl, _, rfl, rfl⟩
  let run : ℕ → World := fun i => [World.boot fun _ => 0, w₁, twoTasks, w₃, w₄, w₅].getD i w₆
  let ops : ℕ → Op := fun i =>
    [.create true true, .add (some 1), .yield, .eventWait 5, .eventSet 5].getD i .yield
  have hrun : KmainRun (fun _ => 0) 6 run ops := by
    refine ⟨rfl, fun i hi => ?_, fun i hi => ?_, fun i hi => ?_⟩
    · interval_cases i
      · trivial
      · exact hadd
      all_goals trivial
    · interval_cases i
      · exact fun _ => nofun
      · exact fun _ => nofun
      · exact fun _ => nofun
      · exact fun hboot => absurd (c₃.symm.trans hboot) (by decide)
      · exact fun _ => nofun
      · exact fun _ => nofun
    · interval_cases i
      · exact h₁
      · exact h₂
      · exact h₃
      · exact h₄
      · exact h₅
      · exact h₆
  have hret : Returns run 1 3 5 := by
    refine ⟨⟨by decide, c₃, fun k hlt hle => ?_⟩, c₆⟩
    have hboot : (run k).sys.current = some 0 := by
      interval_cases k
      · exact c₄
      · exact c₅
    rw [hboot]
    decide
  exact ⟨run, ops, hrun, hret, rfl, (waits_return_for_reason hrun).2.1 1 5 3 5 (by decide) hret rfl⟩

end Bethany
