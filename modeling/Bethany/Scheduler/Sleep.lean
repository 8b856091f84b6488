import Bethany.Sync.Runs

/-!
# `task_sleep`

`task_sleep` notes the tick at which the task is to wake up, as a `uint64_t`, and every later
`scheduler_update` compares it with the counter.

* `Scheduled.sleeping`: `scheduler_schedule` leaves a task asleep whose tick lies ahead;
* `World.Clocked`, `World.SleepsUntil`: runs in which the counter does not wrap, and a task that
  sleeps in all of them until a given tick;
* `taskSleep_iff`: `task_sleep` sleeps for as long as it was asked to exactly if the tick at which
  the task is to wake up fits into 64 bits.
-/

namespace Bethany

open Machine Relation

variable {w w' : World} {L L' : List TaskId} {W : WaitObj → List TaskId} {c c' t : TaskId}
  {op : Op} {initial : ℕ → ℕ} {s s' : Sys} {n tick : ℕ}

/-! ### The scheduler -/

/-- `scheduler_schedule` leaves a task asleep whose time to wake up has not come. -/
theorem Scheduled.sleeping (hs : Scheduled s s' L c c') (h : RunList s L c)
    (hsleep : s.state t = .sleeping) (hlt : s.ticks < s.wakeTick t) : s'.state t = .sleeping := by
  have hwoken : s.woken (s.remaining L) t = .sleeping := by
    rw [Sys.woken, if_neg fun hdue => absurd hdue.2.2 (Nat.not_le_of_lt hlt)]
    exact hsleep
  rcases hs.chosen_cases h with ⟨rfl, -⟩ | ⟨-, hne, hready⟩
  · rw [hs.state, switched, if_pos rfl]
    exact hwoken
  · by_cases hc' : t = c'
    · rw [hc', hready] at hwoken
      exact absurd hwoken (by decide)
    · by_cases hc : t = c
      · subst hc
        rw [hs.state_old hne, if_neg, hwoken]
        simp [hsleep]
      · rw [hs.state_other hc hc', hwoken]

/-- `scheduler_schedule` makes the caller ready if its time to wake up has come, and some other
task gets control. -/
theorem Scheduled.due (hs : Scheduled s s' L c c') (h : RunList s L c) (hdue : s.Due c)
    (hne : c' ≠ c) : s'.state c = .ready := by
  rw [hs.state_old hne, if_neg, Sys.woken, if_pos ⟨h.current_remaining, hdue⟩]
  simp [hdue.1]

/-! ### One call -/

/-- The counter is as it was, and so are the ticks noted in the tasks other than the caller. -/
structure KeepsClock (s s' : Sys) (c : TaskId) : Prop where
  ticks : s'.ticks = s.ticks
  wakeTick : ∀ t, t < s.nextPid → t ≠ c → s'.wakeTick t = s.wakeTick t

/-- The timer alone sets the counter, and `task_sleep` alone the tick noted in the caller. -/
theorem before_clock (s : Sys) (L : List TaskId) (W : WaitObj → List TaskId) (c : TaskId)
    (hop : op ≠ .tick) : KeepsClock s (op.before s L W c) c := by
  rcases before_cases s L W c op with rfl | ⟨t, rfl⟩ | ⟨ticks, rfl⟩ | rfl | hsame
  · exact ⟨rfl, fun t ht _ => Function.update_of_ne (Nat.ne_of_lt ht) _ _⟩
  · exact ⟨rfl, fun _ _ _ => rfl⟩
  · exact ⟨rfl, fun t _ hc => Function.update_of_ne hc _ _⟩
  · exact absurd rfl hop
  · rw [hsame]
    exact ⟨rfl, fun _ _ _ => rfl⟩

/-- The scheduler leaves the counter and the ticks noted in the tasks alone. -/
theorem Op.Outcome.clock (hout : op.Outcome s L W c s' L' c') :
    s'.ticks = (op.before s L W c).ticks ∧ s'.wakeTick = (op.before s L W c).wakeTick := by
  cases hout with
  | returns hy => exact ⟨rfl, rfl⟩
  | yields hy hs =>
    constructor
    · rw [hs.frame]
    · rw [hs.frame]

/-! ### Runs -/

/-- A call or an interrupt of a run of `kmain` in which the counter does not wrap. -/
def World.Clocked (w : World) (op : Op) : Prop :=
  w.Legal op ∧ w.BootStays op ∧ (op = .tick → w.sys.ticks + 1 < 2 ^ 64)

/-- In every run from here on in which the counter does not wrap, the task sleeps and has no
control for as long as the counter is below `tick`. -/
def World.SleepsUntil (w : World) (t : TaskId) (tick : ℕ) : Prop :=
  ∀ w', ReflTransGen (World.Step World.Clocked) w w' → w'.sys.ticks < tick →
    w'.sys.state t = .sleeping ∧ w'.sys.current ≠ some t

/-- The task sleeps until `tick`. -/
structure World.Asleep (w : World) (t : TaskId) (tick : ℕ) : Prop where
  state : w.sys.state t = .sleeping
  wakeTick : w.sys.wakeTick t = tick

/-- A task that sleeps has been created, and does not have control. -/
theorem World.Asleep.other (h : w.Asleep t tick) (hk : w.Kmain L W c) :
    t < w.sys.nextPid ∧ t ≠ c := by
  constructor
  · by_contra hle
    have hready := (hk.inv.sys.fresh t (Nat.le_of_not_lt hle)).1
    exact absurd (h.state.symm.trans hready) (by decide)
  · rintro rfl
    exact absurd (h.state.symm.trans hk.inv.running) (by decide)

/-- A step in which the counter does not wrap does not set it back. -/
theorem World.Clocked.ticks_le (hk : w.Kmain L W c) (hok : w.Clocked op)
    (heq : w.exec op = some w') : w.sys.ticks ≤ w'.sys.ticks := by
  obtain ⟨hlegal, hstays, hwrap⟩ := hok
  obtain ⟨L', c', hout, -⟩ := hk.next hlegal hstays heq
  rw [hout.clock.1]
  by_cases hop : op = .tick
  · subst hop
    show w.sys.ticks ≤ u64 (w.sys.ticks + 1)
    rw [u64_of_lt (hwrap rfl)]
    exact Nat.le_succ _
  · exact (before_clock w.sys L W c hop).ticks.ge

/-- **One call** of another task, or an interrupt, leaves the task asleep if its tick lies ahead
afterwards. -/
theorem World.Asleep.step (h : w.Asleep t tick) (hk : w.Kmain L W c) (hlegal : w.Legal op)
    (hstays : w.BootStays op) (heq : w.exec op = some w') (hlt : w'.sys.ticks < tick) :
    w'.Asleep t tick := by
  obtain ⟨hpid, hc⟩ := h.other hk
  obtain ⟨L', c', hout, -⟩ := hk.next hlegal hstays heq
  have hbefore := (hk.inv.sys.before hk.inv.running (hk.inv.fits hlegal)).runList
  have hsleep : (op.before w.sys L W c).state t = .sleeping := by
    rcases before_state op hk.inv.sys (.inl hc) with hsame | ⟨hblocked, -⟩
    · rw [hsame, h.state]
    · exact absurd (h.state.symm.trans hblocked) (by decide)
  have hwake : (op.before w.sys L W c).wakeTick t = tick := by
    rw [← h.wakeTick]
    by_cases hop : op = .tick
    · subst hop
      rfl
    · exact (before_clock w.sys L W c hop).wakeTick t hpid hc
  obtain ⟨hticks, hticks'⟩ := hout.clock
  rw [hticks, ← hwake] at hlt
  refine ⟨?_, (congrFun hticks' t).trans hwake⟩
  generalize w'.sys = s' at hout
  cases hout with
  | returns hy => exact hsleep
  | yields hy hs => exact hs.sleeping hbefore hsleep hlt

/-- A run in which the counter does not wrap does not set it back. -/
theorem World.Kmain.clocked (hk : w.Kmain L W c)
    (hrun : ReflTransGen (World.Step World.Clocked) w w') :
    (∃ L W c, w'.Kmain L W c) ∧ w.sys.ticks ≤ w'.sys.ticks := by
  induction hrun with
  | refl => exact ⟨⟨L, W, c, hk⟩, le_rfl⟩
  | tail _ hstep ih =>
    obtain ⟨⟨L, W, c, hk⟩, hle⟩ := ih
    obtain ⟨op, hok, heq⟩ := hstep
    obtain ⟨L', c', -, hk'⟩ := hk.next hok.1 hok.2.1 heq
    exact ⟨⟨_, _, _, hk'⟩, hle.trans (hok.ticks_le hk heq)⟩

/-- In a whole run the task is asleep for as long as its tick lies ahead. -/
theorem World.Asleep.run (h : w.Asleep t tick) (hk : w.Kmain L W c)
    (hrun : ReflTransGen (World.Step World.Clocked) w w') (hlt : w'.sys.ticks < tick) :
    w'.Asleep t tick := by
  induction hrun with
  | refl => exact h
  | tail hprev hstep ih =>
    obtain ⟨⟨L, W, c, hk⟩, -⟩ := hk.clocked hprev
    obtain ⟨op, hok, heq⟩ := hstep
    -- the counter has not been set back, so the tick lay ahead before the step
    have hbelow := Nat.lt_of_le_of_lt (hok.ticks_le hk heq) hlt
    exact (ih hbelow).step hk hok.1 hok.2.1 heq hlt

/-! ### `task_sleep` -/

/-- The counter is a `uint64_t`. -/
theorem ticks_lt
    (hrun : ReflTransGen (World.Step fun w op => w.Legal op ∧ w.BootStays op)
      (World.boot initial) w) : w.sys.ticks < 2 ^ 64 := by
  induction hrun with
  | refl => exact Nat.two_pow_pos 64
  | tail hprev hstep ih =>
    obtain ⟨L, W, c, hk⟩ := World.Kmain.run hprev
    obtain ⟨op, ⟨hlegal, hstays⟩, heq⟩ := hstep
    obtain ⟨L', c', hout, -⟩ := hk.next hlegal hstays heq
    rw [hout.clock.1]
    by_cases hop : op = .tick
    · subst hop
      exact Nat.mod_lt _ (Nat.two_pow_pos 64)
    · rwa [(before_clock _ L W c hop).ticks]

/-- What a call of `task_sleep` by a task other than the boot task leaves: the task is asleep
until the tick it has noted, or ready at once if that is not ahead. -/
theorem taskSleep_spec (hk : w.Kmain L W t) (hboot : t ≠ 0) (n : ℕ) :
    ∃ w', w.exec (.sleep n) = some w' ∧ w'.sys.ticks = w.sys.ticks ∧
      (∃ L W c, w'.Kmain L W c) ∧
      (w.sys.ticks < u64 (w.sys.ticks + n) → w'.Asleep t (u64 (w.sys.ticks + n))) ∧
      (u64 (w.sys.ticks + n) ≤ w.sys.ticks → w'.sys.state t = .ready) := by
  have hlegal : w.Legal (.sleep n) := trivial
  have hstays : w.BootStays (.sleep n) := fun h0 _ =>
    hboot (hk.inv.sys.runList.eq_of_current h0)
  obtain ⟨w', L', c', heq, hout, hk'⟩ := hk.exec hlegal hstays
  have hbefore := (hk.inv.sys.before hk.inv.running (hk.inv.fits hlegal)).runList
  obtain ⟨hticks, hwake⟩ := hout.clock
  have hsleep : ((Op.sleep n).before w.sys L W t).state t = .sleeping := Function.update_self ..
  have hnoted : ((Op.sleep n).before w.sys L W t).wakeTick t = u64 (w.sys.ticks + n) :=
    Function.update_self ..
  have hrunning := hk'.inv.running
  refine ⟨w', heq, hticks, ⟨_, _, _, hk'⟩, ?_⟩
  have hwake' := (congrFun hwake t).trans hnoted
  suffices h : (w.sys.ticks < u64 (w.sys.ticks + n) → w'.sys.state t = .sleeping) ∧
      (u64 (w.sys.ticks + n) ≤ w.sys.ticks → w'.sys.state t = .ready) from
    ⟨fun hlt => ⟨h.1 hlt, hwake'⟩, h.2⟩
  generalize w'.sys = s' at hout hrunning
  cases hout with
  | returns hy => exact absurd trivial hy
  | yields hy hs =>
    constructor
    · intro hlt
      refine hs.sleeping hbefore hsleep ?_
      rwa [hnoted]
    · intro hle
      refine hs.due hbefore ⟨hsleep, hnoted.trans_le hle⟩ ?_
      -- the task that gets control runs, and the caller has gone to sleep
      rintro rfl
      rw [hs.state_new, if_pos rfl, Sys.woken_iff (by decide) (by decide), hsleep] at hrunning
      exact absurd hrunning (by decide)

/-- **`task_sleep` and early wake-ups.**  In every run in which the boot task never has to be
woken, a call of `task_sleep` by another task leaves it asleep, without control, for as long as
the counter is below the tick of the call plus the argument, whatever happens then, exactly if
this sum fits into 64 bits. -/
theorem taskSleep_iff
    (hrun : ReflTransGen (World.Step fun w op => w.Legal op ∧ w.BootStays op)
      (World.boot initial) w) (hcurrent : w.sys.current = some t) (hboot : t ≠ 0)
    (hn : n < 2 ^ 64) :
    ∃ w', w.exec (.sleep n) = some w' ∧
      (w'.SleepsUntil t (w.sys.ticks + n) ↔ w.sys.ticks + n < 2 ^ 64) := by
  have hlt := ticks_lt hrun
  obtain ⟨L, W, c, hk⟩ := World.Kmain.run hrun
  obtain rfl : c = t := hk.inv.sys.runList.eq_of_current hcurrent
  obtain ⟨w', heq, hticks, ⟨L', W', c', hk'⟩, hasleep, hready⟩ := taskSleep_spec hk hboot n
  refine ⟨w', heq, ?_, ?_⟩
  · intro hsleeps
    by_contra hwrap
    -- the sum has wrapped to a tick that is past
    have hpast : u64 (w.sys.ticks + n) ≤ w.sys.ticks := by
      have hmod := Nat.mod_eq_sub_mod (Nat.le_of_not_lt hwrap)
      have hle := Nat.mod_le (w.sys.ticks + n - 2 ^ 64) (2 ^ 64)
      unfold u64
      omega
    have hstate := (hsleeps w' .refl (by omega)).1
    exact absurd ((hready hpast).symm.trans hstate) (by decide)
  · intro hfits w'' hrun' hbelow
    obtain ⟨⟨_, _, c'', hk''⟩, hle⟩ := hk'.clocked hrun'
    rw [u64_of_lt hfits] at hasleep
    have hstate := ((hasleep (by omega)).run hk' hrun' hbelow).state
    refine ⟨hstate, fun hcontrol => ?_⟩
    obtain rfl := hk''.inv.sys.runList.eq_of_current hcontrol
    exact absurd (hstate.symm.trans hk''.inv.running) (by decide)

/-- The second task gets control at tick 1 and sleeps for five ticks. -/
theorem taskSleep_iff_example :
    ∃ w w', twoTasks.exec .tick = some w ∧ w.exec (.sleep 5) = some w' ∧ w'.SleepsUntil 1 6 := by
  obtain ⟨w, htick, hcurrent, hticks⟩ : ∃ w, twoTasks.exec .tick = some w ∧
      w.sys.current = some 1 ∧ w.sys.ticks = 1 := ⟨_, rfl, rfl, rfl⟩
  have hrun := twoTasks_next .tick trivial nofun htick
  obtain ⟨w', heq, hiff⟩ := taskSleep_iff hrun hcurrent Nat.one_ne_zero (n := 5) (by decide)
  rw [hticks] at hiff
  exact ⟨w, w', htick, heq, hiff.mpr (by decide)⟩

/-- The second task is to sleep for `2 ^ 64 - 1` ticks from tick 1 on, that is, until tick
`2 ^ 64`.  It is ready at once, and has control again at tick 2. -/
theorem taskSleep_wakes : ∃ w, ReflTransGen
    (World.Step fun w op => w.Legal op ∧ w.BootStays op) (World.boot fun _ => 0) w ∧
      w.sys.current = some 1 ∧ w.sys.ticks = 1 ∧
      ∃ w', w.exec (.sleep (2 ^ 64 - 1)) = some w' ∧ w'.sys.state 1 = .ready ∧
        ¬ w'.SleepsUntil 1 (w.sys.ticks + (2 ^ 64 - 1)) ∧
        ∃ w'', w'.exec .tick = some w'' ∧ w''.sys.current = some 1 ∧ w''.sys.ticks = 2 := by
  obtain ⟨w, htick, hcurrent, hticks, w', heq, hstate, hnow, hagain⟩ :
      ∃ w, twoTasks.exec .tick = some w ∧ w.sys.current = some 1 ∧ w.sys.ticks = 1 ∧
        ∃ w', w.exec (.sleep (2 ^ 64 - 1)) = some w' ∧ w'.sys.state 1 = .ready ∧
          w'.sys.ticks = 1 ∧ ∃ w'', w'.exec .tick = some w'' ∧ w''.sys.current = some 1 ∧
            w''.sys.ticks = 2 := ⟨_, rfl, rfl, rfl, _, rfl, rfl, rfl, _, rfl, rfl, rfl⟩
  refine ⟨w, twoTasks_next .tick trivial nofun htick, hcurrent, hticks, w', heq, hstate,
    fun hsleeps => ?_, hagain⟩
  have hlt : w'.sys.ticks < w.sys.ticks + (2 ^ 64 - 1) := by
    rw [hnow, hticks]
    decide
  exact absurd (hstate.symm.trans (hsleeps w' .refl hlt).1) (by decide)

end Bethany
