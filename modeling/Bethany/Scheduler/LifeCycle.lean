import Bethany.Sync.Runs

/-!
# The life cycle of a task

A task enters the run list by `scheduler_add` and leaves it when it has exited: the schedule
that switches away from it only notes it in `task_to_destroy`, and the next one unlinks it and
passes it to `task_destroy`.

* `World.LifeCycle`: the run list against the history of the run, which is the tasks added, the
  tasks destroyed, and the calls that tasks without control are inside of;
* `World.LifeCycle.exec`: one call;
* `scheduler_lifeCycle`: this is so in every run of `kmain`, every loop of the scheduler ends,
  and what each call destroys.
-/

namespace Bethany

open Machine LinkedList Relation

variable {w w' : World} {L L' : List TaskId} {W : WaitObj → List TaskId} {c c' d t : TaskId}
  {op : Op} {initial : ℕ → ℕ} {s s' : Sys}

/-- The run list `L` with its current task `c` and the history of the run: the list holds the
tasks added and not yet destroyed in the order in which they were added, and a task has been
destroyed, once, or is going to be, exactly if `task_exit` has lost control. -/
structure World.LifeCycle (w : World) (L : List TaskId) (c : TaskId) : Prop where
  order : L = w.added.reverse.filter (· ∉ w.sys.destroyed)
  added : w.added.Nodup
  once : w.sys.destroyed.Nodup
  destroyed : ∀ t ∈ w.sys.destroyed, t ∈ w.added ∧ w.sys.state t = .dead
  exited : ∀ t, w.inside t = some .exit ↔ t ∈ w.sys.destroyed ∨ w.sys.taskToDestroy = some t

theorem World.LifeCycle.boot : (World.boot initial).LifeCycle [0] 0 where
  order := rfl
  added := List.nodup_singleton 0
  once := List.nodup_nil
  destroyed _ ht := absurd ht List.not_mem_nil
  exited _ := iff_of_false nofun (by rintro (ht | ht) <;> cases ht)

/-! ### What a call does before it returns or yields -/

/-- The caller dies in `task_exit` and in no other call. -/
theorem before_dead_iff (h : s.Inv L W c) (hrun : s.state c = .running) :
    (op.before s L W c).state c = .dead ↔ op = .exit := by
  constructor
  · intro hdead
    by_cases hsusp : op.Suspends s
    · rcases suspends_cases hsusp with ⟨o, ho, hb⟩ | ⟨ticks, rfl⟩ | rfl
      · obtain rfl := target_eq_some.mp ho
        rw [before_waitOn, if_pos hb] at hdead
        exact absurd ((Function.update_self ..).symm.trans hdead) (by decide)
      · exact absurd ((Function.update_self ..).symm.trans hdead) (by decide)
      · rfl
    · exact absurd ((before_state_caller h hrun hsusp).symm.trans hdead) (by decide)
  · rintro rfl
    exact Function.update_self ..

/-- A dead task other than the caller is left alone. -/
theorem before_dead (h : s.Inv L W c) (hc : t ≠ c) (ht : s.state t = .dead) :
    (op.before s L W c).state t = .dead := by
  rcases before_state op h (.inl hc) with heq | ⟨hblocked, -⟩
  · exact heq.trans ht
  · exact absurd (ht.symm.trans hblocked) (by decide)

/-! ### One call -/

/-- A call other than `scheduler_add` adds no task. -/
theorem list_of_ne_add (hadd : ∀ t, op ≠ .add (some t)) :
    op.list L = L ∧ (w.after op s).added = w.added := by
  cases op with
  | add task =>
    cases task with
    | none => exact ⟨rfl, rfl⟩
    | some t => exact absurd rfl (hadd t)
  | _ => exact ⟨rfl, rfl⟩

/-- A destroyed task is not in the run list. -/
theorem World.LifeCycle.not_mem (h : w.LifeCycle L c) (ht : t ∈ w.sys.destroyed) : t ∉ L := by
  rw [h.order]
  intro hmem
  exact of_decide_eq_true (List.mem_filter.mp hmem).2 ht

/-- A task that has been destroyed is dead, and is not the caller. -/
theorem World.LifeCycle.ne_current (h : w.LifeCycle L c) (hk : w.Kmain L W c)
    (ht : t ∈ w.sys.destroyed) : t ≠ c := by
  rintro rfl
  exact h.not_mem ht hk.inv.sys.runList.mem

/-- The task noted in `task_to_destroy` is in the run list, dead, and not the caller. -/
theorem World.Kmain.doomed (hk : w.Kmain L W c) (ht : w.sys.taskToDestroy = some t) :
    t ∈ L ∧ t ≠ c ∧ w.sys.state t = .dead := by
  obtain ⟨hmem, hne⟩ := hk.inv.sys.runList.doomed t ht
  exact ⟨hmem, hne, (hk.inv.sys.dead_iff t hmem hne).mpr ht⟩

/-- A call that returns. -/
theorem World.LifeCycle.returns (h : w.LifeCycle L c) (hk : w.Kmain L W c) (hlegal : w.Legal op) :
    (w.after op (op.before w.sys L W c)).LifeCycle (op.list L) c := by
  obtain ⟨hdestroyed, hdoomed, hcurrent, -, -⟩ := before_frame w.sys L W c op
  have hdead : ∀ t ∈ (op.before w.sys L W c).destroyed,
      t ∈ w.added ∧ (op.before w.sys L W c).state t = .dead := by
    rw [hdestroyed]
    intro t ht
    obtain ⟨hadded, hstate⟩ := h.destroyed t ht
    exact ⟨hadded, before_dead hk.inv.sys (h.ne_current hk ht) hstate⟩
  have hinside : ∀ t, (w.after op (op.before w.sys L W c)).inside t = w.inside t := by
    intro t
    exact if_pos hcurrent.symm
  have hexited : ∀ t, (w.after op (op.before w.sys L W c)).inside t = some .exit ↔
      t ∈ (op.before w.sys L W c).destroyed ∨ (op.before w.sys L W c).taskToDestroy = some t := by
    intro t
    rw [hinside, hdestroyed, hdoomed]
    exact h.exited t
  by_cases hadd : ∃ t, op = .add (some t)
  · obtain ⟨t, rfl⟩ := hadd
    obtain ⟨-, hnew⟩ := hlegal
    refine ⟨?_, List.nodup_cons.mpr ⟨hnew, h.added⟩, h.once,
      fun t ht => (hdead t ht).imp_left (List.mem_cons_of_mem _), hexited⟩
    have hlive : t ∉ w.sys.destroyed := fun ht => hnew (h.destroyed t ht).1
    show L ++ [t] = (t :: w.added).reverse.filter (· ∉ w.sys.destroyed)
    rw [List.reverse_cons, List.filter_append, ← h.order]
    simp [hlive]
  · obtain ⟨hlist, hadded⟩ := list_of_ne_add (w := w) (L := L) (s := op.before w.sys L W c)
      fun t heq => hadd ⟨t, heq⟩
    rw [hlist]
    refine ⟨?_, hadded ▸ h.added, hdestroyed ▸ h.once, hadded ▸ hdead, hexited⟩
    show L = (w.after op (op.before w.sys L W c)).added.reverse.filter
      (· ∉ (op.before w.sys L W c).destroyed)
    rw [hadded, hdestroyed]
    exact h.order

/-- The run list after a call that yields, if `doomed` is unlinked by it. -/
theorem World.LifeCycle.order_remaining (h : w.LifeCycle L c) (hnodup : L.Nodup) :
    w.sys.remaining L =
      w.added.reverse.filter (· ∉ w.sys.taskToDestroy.toList ++ w.sys.destroyed) := by
  unfold Sys.remaining
  cases w.sys.taskToDestroy with
  | none => exact h.order
  | some d =>
    show L.erase d = _
    rw [hnodup.erase_eq_filter, h.order, List.filter_filter]
    apply List.filter_congr
    intro t _
    by_cases htd : t = d <;> simp [htd]

/-- The scheduler notes the caller if it has exited. -/
theorem Scheduled.toDestroy_iff (hs : Scheduled (op.before s L W c) s' L c c') (h : s.Inv L W c)
    (hrun : s.state c = .running) (hne : op = .exit → c' ≠ c) :
    s'.taskToDestroy = some t ↔ t = c ∧ op = .exit := by
  have hwoken : (op.before s L W c).woken ((op.before s L W c).remaining L) c = .dead ↔
      op = .exit := by
    rw [Sys.woken_iff (by decide) (by decide)]
    exact before_dead_iff h hrun
  rw [hs.toDestroy]
  simp only [hwoken]
  by_cases hexit : op = .exit
  · rw [if_pos ⟨hne hexit, hexit⟩]
    simp [hexit, eq_comm]
  · rw [if_neg fun hd => hexit hd.2]
    simp [hexit]

/-- After control has gone from `c` to `c'`, the tasks inside `task_exit` are those that were,
and the caller if that was its call; `c'` is inside of no call. -/
theorem insideAfter_exit_iff {inside : TaskId → Option Op} (hne : op = .exit → c' ≠ c)
    (hc : inside c = none) (hc' : inside c' ≠ some .exit) :
    insideAfter inside op (some c) (some c') t = some .exit ↔
      inside t = some .exit ∨ t = c ∧ op = .exit := by
  unfold insideAfter
  simp only [Option.some.injEq]
  by_cases hsame : c = c'
  · have hno : ¬ (t = c ∧ op = .exit) := fun hd => hne hd.2 hsame.symm
    rw [if_pos hsame, or_iff_left hno]
  rw [if_neg hsame]
  by_cases htc' : c' = t
  · subst htc'
    rw [if_pos rfl]
    refine iff_of_false nofun ?_
    rintro (hin | ⟨hcc, -⟩)
    · exact hc' hin
    · exact hsame hcc.symm
  rw [if_neg htc']
  by_cases htc : c = t
  · subst htc
    simp [hc]
  · have hno : ¬ (t = c ∧ op = .exit) := fun hd => htc hd.1.symm
    rw [if_neg htc, or_iff_left hno]

/-- A call that yields. -/
theorem World.LifeCycle.yields (h : w.LifeCycle L c) (hk : w.Kmain L W c) (hy : op.Yields w.sys)
    (hbefore : RunList (op.before w.sys L W c) L c)
    (hs : Scheduled (op.before w.sys L W c) s' L c c') (hrun : s'.state c' = .running) :
    (w.after op s').LifeCycle (w.sys.remaining L) c' := by
  obtain ⟨hdestroyed, hdoomed, hcurrent, -, -⟩ := before_frame w.sys L W c op
  have hadded : (w.after op s').added = w.added := by
    cases op with
    | add task => exact absurd hy (by rintro ⟨o, ho, -⟩; cases ho)
    | _ => rfl
  have hnew : s'.destroyed = w.sys.taskToDestroy.toList ++ w.sys.destroyed := by
    rw [hs.destroyed, hdestroyed, hdoomed]
  have hdead_iff (t : TaskId) : s'.state t = .dead ↔ (op.before w.sys L W c).state t = .dead :=
    hs.state_iff hbefore (.inr rfl)
  have hmem_new (t : TaskId) : t ∈ s'.destroyed ↔ w.inside t = some .exit := by
    rw [hnew, List.mem_append, Option.mem_toList, h.exited, or_comm]
  have hold : ∀ t ∈ s'.destroyed, t ∈ w.added ∧ s'.state t = .dead := by
    intro t ht
    rw [hnew, List.mem_append, Option.mem_toList] at ht
    rw [hdead_iff]
    rcases ht with hd | hd
    · obtain ⟨hmem, hne, hdead⟩ := hk.doomed hd
      rw [h.order] at hmem
      exact ⟨List.mem_reverse.mp (List.mem_filter.mp hmem).1, before_dead hk.inv.sys hne hdead⟩
    · obtain ⟨hadd, hdead⟩ := h.destroyed t hd
      exact ⟨hadd, before_dead hk.inv.sys (h.ne_current hk hd) hdead⟩
  have hne : op = .exit → c' ≠ c := by
    rintro hexit rfl
    have hdead := (hdead_iff c').mpr ((before_dead_iff hk.inv.sys hk.inv.running).mpr hexit)
    exact absurd (hrun.symm.trans hdead) (by decide)
  refine ⟨?_, hadded ▸ h.added, ?_, hadded ▸ hold, fun t => ?_⟩
  · show w.sys.remaining L = (w.after op s').added.reverse.filter (· ∉ s'.destroyed)
    rw [hadded, hnew]
    exact h.order_remaining hk.inv.sys.runList.chain.nodup
  · show s'.destroyed.Nodup
    rw [hnew]
    cases hd : w.sys.taskToDestroy with
    | none => exact h.once
    | some d => exact List.nodup_cons.mpr ⟨fun hmem => h.not_mem hmem (hk.doomed hd).1, h.once⟩
  · show insideAfter w.inside op w.sys.current s'.current t = some .exit ↔
      t ∈ s'.destroyed ∨ s'.taskToDestroy = some t
    have hlive : w.inside c' ≠ some .exit := fun hin =>
      absurd (hrun.symm.trans (hold c' ((hmem_new c').mpr hin)).2) (by decide)
    rw [hk.inv.sys.runList.current, hs.current, insideAfter_exit_iff hne hk.inv.outside hlive,
      hs.toDestroy_iff hk.inv.sys hk.inv.running hne, hmem_new]

/-- **One call** of a run of `kmain` keeps the life cycle. -/
theorem World.LifeCycle.exec (h : w.LifeCycle L c) (hk : w.Kmain L W c) (hlegal : w.Legal op)
    (hstays : w.BootStays op) :
    ∃ w' L' c', w.exec op = some w' ∧ op.Outcome w.sys L W c w'.sys L' c' ∧
      w'.LifeCycle L' c' ∧ w'.Kmain L' (op.waits w.sys W c) c' := by
  obtain ⟨w', L', c', heq, hout, hk'⟩ := hk.exec hlegal hstays
  have hbefore := hk.inv.sys.before hk.inv.running (hk.inv.fits hlegal)
  refine ⟨w', L', c', heq, hout, ?_, hk'⟩
  obtain ⟨s', -, rfl⟩ := Option.map_eq_some_iff.mp heq
  cases hout with
  | returns hy => exact h.returns hk hlegal
  | yields hy hs =>
    have hlist : op.list L = L := by
      refine (list_of_ne_add (w := w) (s := s') ?_).1
      rintro t rfl
      obtain ⟨o, ho, -⟩ := hy
      cases ho
    have hremaining : (op.before w.sys L W c).remaining (op.list L) = w.sys.remaining L := by
      unfold Sys.remaining
      rw [hlist, (before_frame w.sys L W c op).taskToDestroy]
    have hlisted := hbefore.runList
    rw [hlist] at hlisted hs
    rw [hremaining]
    exact h.yields hk hy hlisted hs hk'.inv.running

theorem World.LifeCycle.run
    (hrun : ReflTransGen (World.Step fun w op => w.Legal op ∧ w.BootStays op)
      (World.boot initial) w) : ∃ L W c, w.LifeCycle L c ∧ w.Kmain L W c := by
  induction hrun with
  | refl => exact ⟨_, _, _, World.LifeCycle.boot, World.Kmain.boot⟩
  | tail _ hstep ih =>
    obtain ⟨L, W, c, h, hk⟩ := ih
    obtain ⟨op, ⟨hlegal, hstays⟩, heq⟩ := hstep
    obtain ⟨w', L', c', heq', -, h', hk'⟩ := h.exec hk hlegal hstays
    obtain rfl := Option.some_injective _ (heq.symm.trans heq')
    exact ⟨_, _, _, h', hk'⟩

/-- **The life cycle of tasks.**  In every run in which the boot task never has to be woken, the
list from `first` ends, has no repetitions and contains `current`; it holds, in the order of
insertion, the tasks added and not yet destroyed; a dead task in it is the current one or the
one in `task_to_destroy`.  A task that has exited and lost control has been destroyed once, or
is the one in `task_to_destroy`.  Every further call completes, and destroys a task only if it
yields: the one in `task_to_destroy`, which is then dead, not the current one, and not
destroyed before. -/
theorem scheduler_lifeCycle
    (hrun : ReflTransGen (World.Step fun w op => w.Legal op ∧ w.BootStays op)
      (World.boot initial) w) :
    ∃ L W c, Chain w.sys.next w.sys.first L ∧ L.Nodup ∧ w.sys.current = some c ∧ c ∈ L ∧
      L = w.added.reverse.filter (· ∉ w.sys.destroyed) ∧ w.added.Nodup ∧
      (∀ t ∈ L, w.sys.state t = .dead →
        w.sys.current = some t ∨ w.sys.taskToDestroy = some t) ∧
      w.sys.destroyed.Nodup ∧
      (∀ t, w.inside t = some .exit ↔ t ∈ w.sys.destroyed ∨ w.sys.taskToDestroy = some t) ∧
      (∀ o, Chain w.sys.waitNext (w.sys.waiters o) (W o)) ∧
      ∀ op, w.Legal op → w.BootStays op → ∃ w', w.exec op = some w' ∧
        (¬ op.Yields w.sys → w'.sys.destroyed = w.sys.destroyed) ∧
        (op.Yields w.sys →
          schedulerSchedule (op.before w.sys L W c) = some w'.sys ∧
          w'.sys.destroyed =
            (op.before w.sys L W c).taskToDestroy.toList ++ w.sys.destroyed ∧
          ∀ t, (op.before w.sys L W c).taskToDestroy = some t →
            (op.before w.sys L W c).state t = .dead ∧
            (op.before w.sys L W c).current ≠ some t ∧ t ∉ w.sys.destroyed) := by
  obtain ⟨L, W, c, h, hk⟩ := World.LifeCycle.run hrun
  have hlist := hk.inv.sys.runList
  refine ⟨L, W, c, hlist.chain, hlist.chain.nodup, hlist.current, hlist.mem, h.order, h.added,
    fun t ht hdead => ?_, h.once, h.exited, hk.inv.sys.waits.chain, fun op hlegal hstays => ?_⟩
  · by_cases hc : t = c
    · exact .inl (hc ▸ hlist.current)
    · exact .inr ((hk.inv.sys.dead_iff t ht hc).mp hdead)
  obtain ⟨hdestroyed, hdoomed, hcurrent, -, -⟩ := before_frame w.sys L W c op
  obtain ⟨w', L', c', heq, hout, -, -⟩ := h.exec hk hlegal hstays
  have hexec : op.exec w.sys = some w'.sys := by
    obtain ⟨s', hs', rfl⟩ := Option.map_eq_some_iff.mp heq
    exact hs'
  refine ⟨w', heq, fun hy => ?_, fun hy => ⟨?_, ?_, fun t ht => ?_⟩⟩
  · have hreturns := (hk.inv.sys.exec_eq (hk.inv.fits hlegal)).2 hy
    rw [Option.some_injective _ (hexec.symm.trans hreturns), hdestroyed]
  · rw [← (hk.inv.sys.exec_eq (hk.inv.fits hlegal)).1 hy, hexec]
  · generalize hw' : w'.sys = s' at hout
    cases hout with
    | returns hn => exact absurd hy hn
    | yields _ hs => rw [hs.destroyed, hdestroyed]
  · rw [hdoomed] at ht
    obtain ⟨hmem, hne, hdead⟩ := hk.doomed ht
    rw [hcurrent, hlist.current]
    refine ⟨before_dead hk.inv.sys hne hdead, fun hc => hne (Option.some_injective _ hc).symm, ?_⟩
    exact fun hd => h.not_mem hd hmem

/-- A second task exits; the boot task gets control, and the task is noted in
`task_to_destroy`. -/
theorem scheduler_lifeCycle_example :
    ∃ w, (twoTasks.exec .yield).bind (World.exec · .exit) = some w ∧
      w.sys.taskToDestroy = some 1 ∧ ∃ w', w.exec .yield = some w' ∧ w'.sys.destroyed = [1] := by
  have hruns : ∃ w₁, twoTasks.exec .yield = some w₁ ∧ w₁.sys.current = some 1 ∧
      ∃ w₂, w₁.exec .exit = some w₂ ∧ w₂.sys.taskToDestroy = some 1 ∧ w₂.sys.destroyed = [] :=
    ⟨_, rfl, rfl, _, rfl, rfl, rfl⟩
  obtain ⟨w₁, h₁, hcur, w₂, h₂, hdoomed, hnone⟩ := hruns
  have hrun : ReflTransGen (World.Step fun w op => w.Legal op ∧ w.BootStays op)
      (World.boot fun _ => 0) w₂ := by
    refine (twoTasks_next .yield trivial nofun h₁).tail ⟨.exit, ⟨trivial, fun h => ?_⟩, h₂⟩
    exact absurd (hcur.symm.trans h) (by decide)
  obtain ⟨L, W, c, -, -, -, -, -, -, -, -, -, -, hcalls⟩ := scheduler_lifeCycle hrun
  obtain ⟨w', hexec, -, hyields⟩ := hcalls .yield trivial fun _ => nofun
  obtain ⟨-, hdestroyed, -⟩ := hyields trivial
  refine ⟨w₂, ?_, hdoomed, w', hexec, ?_⟩
  · rw [h₁, Option.bind_some, h₂]
  · rw [hdestroyed, (before_frame w₂.sys L W c .yield).taskToDestroy, hdoomed, hnone]
    rfl

end Bethany
