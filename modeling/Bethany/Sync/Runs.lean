import Bethany.Sync.Calls

/-!
# Runs of the tasks

In a run the task that has control makes one complete call after the other, or is interrupted
by the timer.  A task that loses control stays inside its call until it gets control again, and
then the call returns.

* `World`, `World.exec`, `World.boot`: the system with the calls that tasks are inside of;
* `World.Legal`: the arguments a caller has to provide;
* `World.BootStays`: the boot task never has to be woken, as in `kmain`;
* `World.Inv`, `World.Inv.exec`: the invariant of runs in which every caller is relieved;
* `scheduler_runs_current`: in such a run only `current` runs;
* `waitLists_integrity`: the wait lists of every run of `kmain`.
-/

namespace Bethany

open Machine LinkedList Relation

/-- The system between two calls.  `inside` gives the call that a task without control is in,
if it has lost control in one; `added` are the tasks passed to `scheduler_add`, and the boot
task. -/
structure World where
  sys : Sys
  inside : TaskId → Option Op
  added : List TaskId

/-- After `scheduler_init`, with semaphores of the given counts. -/
def World.boot (initial : ℕ → ℕ) : World where
  sys := schedulerInit initial
  inside := fun _ => none
  added := [0]

/-- The calls that tasks are inside of, after `op` has passed control from one task to
another. -/
def insideAfter (inside : TaskId → Option Op) (op : Op) (old new : Option TaskId) :
    TaskId → Option Op := fun t =>
  if old = new then inside t
  else if new = some t then none
  else if old = some t then some op
  else inside t

/-- The world after a call that leaves the state `s`. -/
def World.after (w : World) (op : Op) (s : Sys) : World where
  sys := s
  inside := insideAfter w.inside op w.sys.current s.current
  added := match op with
    | .add (some t) => t :: w.added
    | _ => w.added

/-- A complete call. -/
def World.exec (w : World) (op : Op) : Option World := (op.exec w.sys).map (w.after op)

/-- The call that returns to the task that has control after `op`. -/
def World.returned (w : World) (op : Op) (w' : World) : Option Op :=
  if w.sys.current = w'.sys.current then some op else w'.sys.current.bind w.inside

/-- What the caller has to provide: the task it joins with or adds has been created, and no
task is added twice. -/
def World.Legal (w : World) : Op → Prop
  | .add (some t) => t < w.sys.nextPid ∧ t ∉ w.added
  | .join (some t) => t < w.sys.nextPid
  | _ => True

/-- The boot task makes no call after which it has to be woken. -/
def World.BootStays (w : World) (op : Op) : Prop :=
  w.sys.current = some 0 → ¬ op.Suspends w.sys

instance World.decidableLegal (w : World) : DecidablePred w.Legal
  | .add (some t) => inferInstanceAs (Decidable (t < w.sys.nextPid ∧ t ∉ w.added))
  | .join (some t) => inferInstanceAs (Decidable (t < w.sys.nextPid))
  | .add none | .join none | .create .. | .yield | .sleep _ | .exit | .mutexTryLock _
  | .mutexLock _ | .mutexUnlock _ | .semaphoreTryWait _ | .semaphoreWait _ | .semaphoreSignal _
  | .eventWait _ | .eventSet _ | .eventReset _ | .tick => isTrue trivial

instance World.decidableBootStays (w : World) (op : Op) : Decidable (w.BootStays op) :=
  inferInstanceAs (Decidable (_ → ¬ _))

/-- One call of a run in which all calls are as `ok` says. -/
def World.Step (ok : World → Op → Prop) (w w' : World) : Prop :=
  ∃ op, ok w op ∧ w.exec op = some w'

variable {w w' : World} {L L' l : List TaskId} {W W' : WaitObj → List TaskId} {c c' t : TaskId}
  {o : WaitObj} {op op' : Op} {initial : ℕ → ℕ} {s s' : Sys}

/-! ### The invariant -/

structure World.Inv (w : World) (L : List TaskId) (W : WaitObj → List TaskId) (c : TaskId) :
    Prop where
  sys : w.sys.Inv L W c
  running : w.sys.state c = .running
  unadded : ∀ t, t ∉ w.added → t ∉ L ∧ w.sys.next t = none ∧ w.sys.state t = .ready
  inside : ∀ o t, t ∈ W o → ∃ op, w.inside t = some op ∧ op.target = some o
  outside : w.inside c = none

theorem World.Inv.boot : (World.boot initial).Inv [0] (fun _ => []) 0 where
  sys := by
    refine ⟨⟨⟨rfl, rfl⟩, fun t ht => ?_, rfl, List.mem_singleton_self 0, nofun⟩,
      ⟨fun _ => rfl, fun _ _ _ h => absurd h List.not_mem_nil, fun t => ?_, fun _ h => absurd rfl h,
        fun _ h => absurd rfl h, fun _ _ => rfl, fun _ _ => rfl⟩, fun t ht => ?_,
      fun t ht hne => ?_, fun t ht => ⟨?_, rfl⟩⟩
    · rw [List.mem_singleton.mp ht]
      exact Nat.one_pos
    · refine iff_of_false ?_ (by simp)
      show (if t = 0 then TaskState.running else .ready) ≠ .blocked
      split_ifs <;> decide
    · by_contra hne
      change (if t = 0 then TaskState.running else .ready) = .running at ht
      rw [if_neg hne] at ht
      exact absurd ht (by decide)
    · exact absurd (List.mem_singleton.mp ht) hne
    · exact if_neg (Nat.ne_of_gt ht)
  running := rfl
  unadded t ht := by
    have hne : t ≠ 0 := fun heq => ht (List.mem_singleton.mpr heq)
    exact ⟨List.mem_singleton.not.mpr hne, rfl, if_neg hne⟩
  inside o t ht := absurd ht List.not_mem_nil
  outside := rfl

/-- A legal call has fitting arguments. -/
theorem World.Inv.fits (h : w.Inv L W c) (hlegal : w.Legal op) : op.Fits w.sys L := by
  cases op with
  | add task =>
    cases task with
    | none => trivial
    | some t =>
      obtain ⟨hL, hnull, hready⟩ := h.unadded t hlegal.2
      exact ⟨hlegal.1, hL, hnull, hready⟩
  | join task =>
    cases task with
    | none => trivial
    | some t => exact hlegal
  | _ => trivial

/-- The tasks on a wait list after a call were there before, or it is the caller, which waits
for the object. -/
theorem mem_waits (ht : t ∈ op.waits s W c o) :
    t ∈ W o ∨ t = c ∧ op.target = some o ∧ Blocks s o := by
  have hupdate (o' : WaitObj) (l : List TaskId) (hl : ∀ x ∈ l, x ∈ W o')
      (h : t ∈ Function.update W o' l o) : t ∈ W o := by
    by_cases hne : o = o'
    · subst hne
      rw [Function.update_self] at h
      exact hl t h
    · rwa [Function.update_of_ne hne] at h
  cases op using Op.waitOn_cases with
  | waitOn o' =>
    rw [waits_waitOn] at ht
    split_ifs at ht with hb
    · obtain ⟨rfl, heq⟩ | ht := mem_push.mp ht
      · exact .inr ⟨heq, target_waitOn o, hb⟩
      · exact .inl ht
    · exact .inl ht
  | exit => exact .inl (hupdate _ _ (fun _ hx => absurd hx List.not_mem_nil) ht)
  | eventSet e => exact .inl (hupdate _ _ (fun _ hx => absurd hx List.not_mem_nil) ht)
  | mutexUnlock m => exact .inl (hupdate _ _ (fun _ hx => List.mem_of_mem_tail hx) ht)
  | semaphoreSignal k => exact .inl (hupdate _ _ (fun _ hx => List.mem_of_mem_tail hx) ht)
  | _ => exact .inl ht

/-- The tasks of the run list after a call were there before or have just been added. -/
theorem mem_list (hne : op ≠ .add (some t)) : t ∈ op.list L ↔ t ∈ L := by
  cases op with
  | add task =>
    cases task with
    | none => rfl
    | some t' =>
      refine ⟨fun ht => ?_, List.mem_append_left _⟩
      refine (List.mem_append.mp ht).resolve_right fun ht => hne ?_
      rw [List.mem_singleton.mp ht]
  | _ => rfl

/-- A task that has not been added to the run list is left alone. -/
theorem Op.Outcome.unadded (hout : op.Outcome s L W c s' L' c') (h : s.Inv L W c)
    (hbefore : RunList (op.before s L W c) (op.list L) c) (hL : t ∉ L)
    (hnull : s.next t = none) (hready : s.state t = .ready) (hne : op ≠ .add (some t)) :
    t ∉ L' ∧ s'.next t = none ∧ s'.state t = .ready := by
  have hlist : t ∉ op.list L := (mem_list hne).not.mpr hL
  have hnext : (op.before s L W c).next t = none := (before_frame s L W c op).next t hL hnull
  have hc : t ≠ c := fun heq => hL (heq ▸ h.runList.mem)
  have hstate : (op.before s L W c).state t = .ready := by
    rcases before_state op h (.inl hc) with heq | ⟨hblocked, -⟩
    · exact heq.trans hready
    · exact absurd (hready.symm.trans hblocked) (by decide)
  cases hout with
  | returns hy => exact ⟨hlist, hnext, hstate⟩
  | yields hy hs =>
    have hrem : t ∉ (op.before s L W c).remaining (op.list L) := fun hmem =>
      hlist (hbefore.mem_remaining.mp hmem).1
    have hc' : t ≠ c' := fun heq => hrem (heq ▸ (hs.runList hbefore).mem)
    refine ⟨hrem, (hs.next_other t hlist).trans hnext, ?_⟩
    rw [hs.state_other hc hc', Sys.woken, if_neg fun hdue => hrem hdue.1]
    exact hstate

/-- **Every legal call of a relieved caller completes and keeps the invariant.** -/
theorem World.Inv.exec (h : w.Inv L W c) (hlegal : w.Legal op) (hrel : op.Relieved w.sys) :
    ∃ w' L' c', w.exec op = some w' ∧ op.Outcome w.sys L W c w'.sys L' c' ∧
      w'.Inv L' (op.waits w.sys W c) c' := by
  have hfits := h.fits hlegal
  obtain ⟨s', L', c', heq, hout, hinv, hrun⟩ := h.sys.exec h.running hfits hrel
  have hcurrent := h.sys.runList.current
  have hcurrent' := hinv.runList.current
  have hexec : w.exec op = some (w.after op s') := by
    unfold World.exec
    rw [heq, Option.map_some]
  refine ⟨w.after op s', L', c', hexec, hout, hinv, hrun, fun t ht => ?_, fun o t ht => ?_, ?_⟩
  · have hne : op ≠ .add (some t) := by
      rintro rfl
      exact ht List.mem_cons_self
    have hold : t ∉ w.added := by
      cases op with
      | add task =>
        cases task with
        | none => exact ht
        | some t' => exact fun hmem => ht (List.mem_cons_of_mem _ hmem)
      | _ => exact ht
    obtain ⟨hL, hnull, hready⟩ := h.unadded t hold
    exact hout.unadded h.sys (h.sys.before h.running hfits).runList hL hnull hready hne
  · -- a task on a wait list is blocked, so it does not have control
    have hblocked := (hinv.waits.blocked t).mpr ⟨o, ht⟩
    have hc' : t ≠ c' := by
      rintro rfl
      exact absurd (hrun.symm.trans hblocked) (by decide)
    have hnew : s'.current ≠ some t := fun heq =>
      hc' (Option.some_injective _ (heq.symm.trans hcurrent'))
    show ∃ op', insideAfter w.inside op w.sys.current s'.current t = some op' ∧ _
    unfold insideAfter
    rcases mem_waits ht with hold | ⟨rfl, htarget, -⟩
    · have hc : t ≠ c := by
        rintro rfl
        exact h.sys.waits.not_mem (Sys.Inv.not_blocked h.running) o hold
      have hnotold : w.sys.current ≠ some t := fun heq =>
        hc (Option.some_injective _ (heq.symm.trans hcurrent))
      simp only [hnew, hnotold, if_false, ite_self]
      exact h.inside o t hold
    · refine ⟨op, ?_, htarget⟩
      rw [if_neg fun heq => hnew (heq.symm.trans hcurrent), if_neg hnew, if_pos hcurrent]
  · show insideAfter w.inside op w.sys.current s'.current c' = none
    unfold insideAfter
    split_ifs with hsame
    · obtain rfl : c = c' := Option.some_injective _ (hcurrent.symm.trans (hsame.trans hcurrent'))
      exact h.outside
    · rfl

/-- A run of legal calls by relieved callers keeps the invariant. -/
theorem World.Inv.run {ok : World → Op → Prop}
    (hok : ∀ w op, ok w op → w.Legal op ∧ op.Relieved w.sys)
    (hrun : ReflTransGen (World.Step ok) (World.boot initial) w) : ∃ L W c, w.Inv L W c := by
  induction hrun with
  | refl => exact ⟨_, _, _, World.Inv.boot⟩
  | tail _ hstep ih =>
    obtain ⟨L, W, c, h⟩ := ih
    obtain ⟨op, hstep, heq⟩ := hstep
    obtain ⟨hlegal, hrel⟩ := hok _ _ hstep
    obtain ⟨w', L', c', heq', -, hinv⟩ := h.exec hlegal hrel
    obtain rfl := Option.some_injective _ (heq.symm.trans heq')
    exact ⟨_, _, _, hinv⟩

/-! ### Only the current task runs -/

/-- The task in `current` is marked as running, and no other task is. -/
def Sys.RunsCurrent (s : Sys) : Prop :=
  ∃ c, s.current = some c ∧ ∀ t, s.state t = .running ↔ t = c

/-- **A task that is not runnable never runs**, in every run in which a caller that goes to
sleep, blocks or exits leaves some other task of the list that can go on: whenever a call or an
interrupt ends, the task that has control is the one in `current`, it is marked as running, and
no other task is.  Every further call of such a run ends. -/
theorem scheduler_runs_current
    (hrun : ReflTransGen (World.Step fun w op => w.Legal op ∧ op.Relieved w.sys)
      (World.boot initial) w) :
    w.sys.RunsCurrent ∧
      ∀ op, w.Legal op → op.Relieved w.sys → ∃ w', w.exec op = some w' ∧ w'.sys.RunsCurrent := by
  have honly : ∀ {w : World} {L W c}, w.Inv L W c → w.sys.RunsCurrent := by
    intro w L W c h
    refine ⟨c, h.sys.runList.current, fun t => ⟨h.sys.others t, ?_⟩⟩
    rintro rfl
    exact h.running
  obtain ⟨L, W, c, h⟩ := World.Inv.run (fun _ _ hok => hok) hrun
  refine ⟨honly h, fun op hlegal hrel => ?_⟩
  obtain ⟨w', L', c', heq, -, hinv⟩ := h.exec hlegal hrel
  exact ⟨w', heq, honly hinv⟩

/-- The boot task creates and adds a second task. -/
def twoTasks : World where
  sys := { (taskCreate (schedulerInit fun _ => 0) true true).2 with
    next := Function.update (Function.update (fun _ => none) 1 none) 0 (some 1) }
  inside := fun _ => none
  added := [1, 0]

theorem twoTasks_run {ok : World → Op → Prop}
    (hok : ∀ w op, w.Legal op → ¬ op.Suspends w.sys → ok w op) :
    ReflTransGen (World.Step ok) (World.boot fun _ => 0) twoTasks := by
  have hcreate : (World.boot fun _ => 0).exec (.create true true) =
      some ((World.boot fun _ => 0).after (.create true true)
        (taskCreate (schedulerInit fun _ => 0) true true).2) := rfl
  refine (ReflTransGen.single ⟨.create true true, hok _ _ trivial nofun, hcreate⟩).tail
    ⟨.add (some 1), hok _ _ ⟨by decide, by decide⟩ nofun, rfl⟩

/-- The boot task sleeps while a second task is ready. -/
theorem scheduler_runs_current_example :
    ∃ w, twoTasks.exec (.sleep 3) = some w ∧ w.sys.RunsCurrent := by
  have hrel : (Op.sleep 3).Relieved twoTasks.sys := fun _ =>
    ⟨1, ⟨[0, 1], ⟨rfl, rfl, rfl⟩, by decide⟩, by decide, .inl rfl⟩
  have hrun : ReflTransGen (World.Step fun w op => w.Legal op ∧ op.Relieved w.sys)
      (World.boot fun _ => 0) twoTasks :=
    twoTasks_run fun w op hlegal hsusp => ⟨hlegal, fun h => absurd h hsusp⟩
  exact (scheduler_runs_current hrun).2 (.sleep 3) trivial hrel

/-- The boot task goes to sleep while there is no other task. -/
theorem scheduler_runs_sleeper :
    ∃ w, ReflTransGen (World.Step World.Legal) (World.boot fun _ => 0) w ∧
      w.sys.current = some 0 ∧ w.sys.state 0 = .sleeping ∧ ¬ w.sys.RunsCurrent := by
  obtain ⟨w, hexec, hcur, hstate⟩ : ∃ w, (World.boot fun _ => 0).exec (.sleep 5) = some w ∧
      w.sys.current = some 0 ∧ w.sys.state 0 = .sleeping := ⟨_, rfl, rfl, rfl⟩
  refine ⟨w, ReflTransGen.single ⟨.sleep 5, trivial, hexec⟩, hcur, hstate, ?_⟩
  rintro ⟨c, hc, hrunning⟩
  have hzero := (hrunning 0).mpr (Option.some_injective _ (hcur.symm.trans hc))
  exact absurd (hstate.symm.trans hzero) (by decide)

/-! ### Runs of `kmain` -/

/-- The invariant of runs in which the boot task can always run. -/
structure World.Kmain (w : World) (L : List TaskId) (W : WaitObj → List TaskId) (c : TaskId) :
    Prop where
  inv : w.Inv L W c
  listed : 0 ∈ L
  awake : w.sys.state 0 = .ready ∨ w.sys.state 0 = .running

/-- The boot task relieves every other caller. -/
theorem World.Kmain.relieved (h : w.Kmain L W c) (hstays : w.BootStays op) :
    op.Relieved w.sys := by
  intro hsusp
  have hcurrent := h.inv.sys.runList.current
  have hc : w.sys.current ≠ some 0 := fun h0 => hstays h0 hsusp
  refine ⟨0, h.inv.sys.runList.chain.linked_iff.mpr h.listed, hc, .inl ?_⟩
  refine h.awake.resolve_right fun hrun => hc ?_
  rw [hcurrent, ← h.inv.sys.others 0 hrun]

/-- The boot task stays in the run list and can run. -/
theorem Op.Outcome.boot (hout : op.Outcome s L W c s' L' c') (h : s.Inv L W c)
    (hbefore : (op.before s L W c).Inv (op.list L) (op.waits s W c) c) (hL : 0 ∈ L)
    (hawake : s.state 0 = .ready ∨ s.state 0 = .running) (hstays : c = 0 → ¬ op.Suspends s) :
    0 ∈ L' ∧ (s'.state 0 = .ready ∨ s'.state 0 = .running) := by
  have hlist : 0 ∈ op.list L := by
    unfold Op.list
    split
    · exact List.mem_append_left _ hL
    · exact hL
  have hcaller : 0 ≠ c ∨ ¬ op.Suspends s := by
    by_cases hc : c = 0
    · exact .inr (hstays hc)
    · exact .inl (Ne.symm hc)
  have hstate : (op.before s L W c).state 0 = .ready ∨ (op.before s L W c).state 0 = .running := by
    rcases before_state op h hcaller with heq | ⟨hblocked, -⟩
    · rwa [heq]
    · rcases hawake with ht | ht <;> exact absurd (hblocked.symm.trans ht) (by decide)
  cases hout with
  | returns hy => exact ⟨hlist, hstate⟩
  | yields hy hs =>
    refine ⟨hbefore.runList.mem_remaining.mpr ⟨hlist, fun hdoomed => ?_⟩,
      hs.ready_or_running hstate⟩
    have hdead := (hbefore.dead_iff 0 hlist (hbefore.runList.doomed 0 hdoomed).2).mpr hdoomed
    rcases hstate with ht | ht <;> exact absurd (hdead.symm.trans ht) (by decide)

/-- Every legal call of a run of `kmain` completes and keeps the invariant. -/
theorem World.Kmain.exec (h : w.Kmain L W c) (hlegal : w.Legal op) (hstays : w.BootStays op) :
    ∃ w' L' c', w.exec op = some w' ∧ op.Outcome w.sys L W c w'.sys L' c' ∧
      w'.Kmain L' (op.waits w.sys W c) c' := by
  obtain ⟨w', L', c', heq, hout, hinv⟩ := h.inv.exec hlegal (h.relieved hstays)
  have hbefore := h.inv.sys.before h.inv.running (h.inv.fits hlegal)
  obtain ⟨hlisted, hawake⟩ := hout.boot h.inv.sys hbefore h.listed h.awake fun hc =>
    hstays (hc ▸ h.inv.sys.runList.current)
  exact ⟨w', L', c', heq, hout, hinv, hlisted, hawake⟩

/-- The same of a call that is known to complete. -/
theorem World.Kmain.next (h : w.Kmain L W c) (hlegal : w.Legal op) (hstays : w.BootStays op)
    (heq : w.exec op = some w') :
    ∃ L' c', op.Outcome w.sys L W c w'.sys L' c' ∧ w'.Kmain L' (op.waits w.sys W c) c' := by
  obtain ⟨w₁, L', c', heq₁, hout, hk⟩ := h.exec hlegal hstays
  obtain rfl := Option.some_injective _ (heq.symm.trans heq₁)
  exact ⟨L', c', hout, hk⟩

theorem World.Kmain.boot : (World.boot initial).Kmain [0] (fun _ => []) 0 :=
  ⟨World.Inv.boot, List.mem_singleton_self 0, .inr rfl⟩

theorem World.Kmain.run
    (hrun : ReflTransGen (World.Step fun w op => w.Legal op ∧ w.BootStays op)
      (World.boot initial) w) : ∃ L W c, w.Kmain L W c := by
  induction hrun with
  | refl => exact ⟨_, _, _, World.Kmain.boot⟩
  | tail _ hstep ih =>
    obtain ⟨L, W, c, h⟩ := ih
    obtain ⟨op, ⟨hlegal, hstays⟩, heq⟩ := hstep
    obtain ⟨L', c', -, hk⟩ := h.next hlegal hstays heq
    exact ⟨_, _, _, hk⟩

/-- The boot task calls something that does not make it wait. -/
theorem World.bootStays_waitOn (ho : ¬ Blocks w.sys o) : w.BootStays (.waitOn o) := by
  rintro - hsusp
  exact ho (yields_waitOn.mp (yields_of_suspends hsusp))

/-- The boot task has added a second task and goes on. -/
theorem twoTasks_next (op : Op) (hlegal : twoTasks.Legal op) (hsusp : ¬ op.Suspends twoTasks.sys)
    (heq : twoTasks.exec op = some w) :
    ReflTransGen (World.Step fun w op => w.Legal op ∧ w.BootStays op) (World.boot fun _ => 0) w :=
  (twoTasks_run fun _ _ hlegal hsusp => ⟨hlegal, fun _ => hsusp⟩).tail
    ⟨op, ⟨hlegal, fun _ => hsusp⟩, heq⟩

/-! ### Control -/

theorem Op.Yields.cases (hy : op.Yields s) :
    (∃ o, op.target = some o ∧ Blocks s o) ∨ (∃ ticks, op = .sleep ticks) ∨ op = .exit ∨
      op = .yield ∨ op = .tick := by
  cases op with
  | sleep ticks => exact .inr (.inl ⟨ticks, rfl⟩)
  | exit => exact .inr (.inr (.inl rfl))
  | yield => exact .inr (.inr (.inr (.inl rfl)))
  | tick => exact .inr (.inr (.inr (.inr rfl)))
  | _ => exact .inl hy

/-- A call that yields takes no task off the list of an object other than a task. -/
theorem Op.Yields.mem_waits (hy : op.Yields s) (hno : ∀ t, o ≠ .task t) (ht : t ∈ W o) :
    t ∈ op.waits s W c o := by
  rcases hy.cases with ⟨o', ho, hb⟩ | ⟨ticks, rfl⟩ | rfl | rfl | rfl
  · obtain rfl := target_eq_some.mp ho
    rw [waits_waitOn, if_pos hb]
    exact mem_push.mpr (.inr ht)
  · exact ht
  · show t ∈ Function.update W (.task c) [] o
    rwa [Function.update_of_ne (hno c)]
  · exact ht
  · exact ht

theorem Op.Outcome.yields_of_ne (hout : op.Outcome s L W c s' L' c') (hne : c ≠ c') :
    op.Yields s := by
  cases hout with
  | returns hy => exact absurd rfl hne
  | yields hy hs => exact hy

/-- The object whose first waiter a call wakes. -/
def Op.handsOn : Op → Option WaitObj
  | .mutexUnlock m => some (.mutex m)
  | .semaphoreSignal k => some (.semaphore k)
  | _ => none

/-- A task on the list of a mutex or a semaphore stays there, or the call wakes it as the first
waiter. -/
theorem mem_waits_or_woken (h : WaitLists s W) (ht : t ∈ W o) (hno : ∀ t, o ≠ .task t)
    (hne : ∀ e, o ≠ .event e) :
    t ∈ op.waits s W c o ∨ op.handsOn = some o ∧ s.waiters o = some t := by
  have hother (o' : WaitObj) (l : List TaskId) (hne : o ≠ o') : t ∈ Function.update W o' l o := by
    rwa [Function.update_of_ne hne]
  have hhead (o' : WaitObj) : t ∈ Function.update W o' (W o').tail o ∨
      some o' = some o ∧ s.waiters o = some t := by
    by_cases heq : o = o'
    · subst heq
      rcases h.waiters_cases o with ⟨-, hnil⟩ | ⟨t', l, hsome, hcons⟩
      · rw [hnil] at ht
        exact absurd ht List.not_mem_nil
      · rw [hcons, List.mem_cons] at ht
        rcases ht with rfl | ht
        · exact .inr ⟨rfl, hsome⟩
        · left
          rwa [Function.update_self, hcons, List.tail_cons]
    · exact .inl (hother _ _ heq)
  cases op using Op.waitOn_cases with
  | waitOn o' =>
    rw [waits_waitOn]
    left
    split_ifs
    · exact mem_push.mpr (.inr ht)
    · exact ht
  | exit => exact .inl (hother _ _ (hno c))
  | eventSet e => exact .inl (hother _ _ (hne e))
  | semaphoreSignal k => exact hhead _
  | mutexUnlock m => exact hhead _
  | _ => exact .inl ht

/-- A task that gets control has no call to wait in any more. -/
theorem not_mem_of_control (h : w.Kmain L W c) (o : WaitObj) : c ∉ W o :=
  h.inv.sys.waits.not_mem (Sys.Inv.not_blocked h.inv.running) o

/-- A step leaves the calls that the other tasks are inside of as they are. -/
theorem World.inside_after (heq : w.exec op = some w') (hinside : w'.inside t = some op') :
    w.inside t = some op' ∨ w.sys.current = some t ∧ w'.sys.current ≠ some t ∧ op' = op := by
  obtain ⟨s', -, rfl⟩ := Option.map_eq_some_iff.mp heq
  change insideAfter w.inside op w.sys.current s'.current t = some op' at hinside
  unfold insideAfter at hinside
  split_ifs at hinside with hsame hnew hold
  · exact .inl hinside
  · exact .inr ⟨hold, hnew, (Option.some_injective _ hinside).symm⟩
  · exact .inl hinside

theorem World.inside_of_ne (heq : w.exec op = some w') (hold : w.sys.current ≠ some t)
    (hnew : w'.sys.current ≠ some t) : w'.inside t = w.inside t := by
  obtain ⟨s', -, rfl⟩ := Option.map_eq_some_iff.mp heq
  show insideAfter w.inside op w.sys.current s'.current t = w.inside t
  change s'.current ≠ some t at hnew
  unfold insideAfter
  rw [if_neg hold, if_neg hnew, ite_self]

/-- **Integrity of the wait lists.**  In every run in which the boot task never has to be woken,
between any two calls every `waiters` pointer begins a list without repetitions, the lists of
different objects are disjoint, a task is blocked exactly if it is on exactly one list, once,
a mutex with waiters is locked, a semaphore with waiters has count 0, and a signaled event and a
dead task have no waiters. -/
theorem waitLists_integrity
    (hrun : ReflTransGen (World.Step fun w op => w.Legal op ∧ w.BootStays op)
      (World.boot initial) w) :
    ∃ W : WaitObj → List TaskId,
      (∀ o, Chain w.sys.waitNext (w.sys.waiters o) (W o) ∧ (W o).Nodup) ∧
      (∀ o o', o ≠ o' → (W o).Disjoint (W o')) ∧
      (∀ t, w.sys.state t = .blocked ↔ ∃ o, (W o).count t = 1 ∧ ∀ o', o' ≠ o → t ∉ W o') ∧
      (∀ m, W (.mutex m) ≠ [] → w.sys.locked m = true) ∧
      (∀ k, W (.semaphore k) ≠ [] → w.sys.count k = 0) ∧
      (∀ e, w.sys.signaled e = true → W (.event e) = []) ∧
      ∀ t, w.sys.state t = .dead → W (.task t) = [] := by
  obtain ⟨L, W, c, h⟩ := World.Kmain.run hrun
  have hw := h.inv.sys.waits
  refine ⟨W, fun o => ⟨hw.chain o, (hw.chain o).nodup⟩, fun o o' hne t ht ht' => ?_, fun t => ?_,
    hw.mutex, hw.semaphore, hw.event, hw.dead⟩
  · exact hne (hw.disjoint o o' t ht ht')
  · rw [hw.blocked t]
    refine exists_congr fun o => ⟨fun ht => ?_, fun ht => ?_⟩
    · exact ⟨List.count_eq_one_of_mem (hw.chain o).nodup ht, fun o' hne => hw.not_mem_other ht hne⟩
    · exact List.count_pos_iff.mp (by rw [ht.1]; exact Nat.one_pos)

/-- A second task waits for a semaphore of count 0. -/
theorem waitLists_integrity_example :
    ∃ w, (twoTasks.exec .yield).bind (World.exec · (.semaphoreWait 7)) = some w ∧
      w.sys.state 1 = .blocked ∧
      ∃ W : WaitObj → List TaskId, ∀ o, Chain w.sys.waitNext (w.sys.waiters o) (W o) := by
  have hruns : ∃ w₁, twoTasks.exec .yield = some w₁ ∧ w₁.sys.current = some 1 ∧
      ∃ w₂, w₁.exec (.semaphoreWait 7) = some w₂ ∧ w₂.sys.state 1 = .blocked :=
    ⟨_, rfl, rfl, _, rfl, rfl⟩
  obtain ⟨w₁, h₁, hcur, w₂, h₂, hblocked⟩ := hruns
  have hrun : ReflTransGen (World.Step fun w op => w.Legal op ∧ w.BootStays op)
      (World.boot fun _ => 0) w₂ := by
    have hyield := twoTasks_next .yield trivial nofun h₁
    refine hyield.tail ⟨.semaphoreWait 7, ⟨trivial, fun h => ?_⟩, h₂⟩
    exact absurd (hcur.symm.trans h) (by decide)
  obtain ⟨W, hW, -⟩ := waitLists_integrity hrun
  refine ⟨w₂, ?_, hblocked, W, fun o => (hW o).1⟩
  rw [h₁, Option.bind_some, h₂]

end Bethany
