import Bethany.Library.Runs
import Bethany.Scheduler.Model

/-!
# The interrupt flag of the tasks

All gates are interrupt gates: the processor clears the interrupt flag when it enters a handler,
and `iretq` restores the one that it has put on the stack.  `context_switch` saves general
registers only.  So the flag goes from task to task with the processor, unless both tasks leave
and come back through `irq_handler`.

* `Irq`, `Irq.exec`: the processor's flag and the interrupts that each task is inside of;
* `Irq.Inv`: what holds in every run;
* `Irq.TaskCodeEnabled`, `Irq.ToPreempted`: the flag is set in task code; `irq_handler` switches
  to a task that it has itself taken from the processor;
* `interruptFlag_iff`: in a run the one holds after every step exactly if the other does.
-/

namespace Bethany

open Machine Runs

/-- An interrupt that a task is inside of: the flag on its stack, and whether `irq_handler` is
past its call of `scheduler_schedule`. -/
structure IrqFrame where
  flag : Bool
  scheduled : Bool
deriving DecidableEq

/-- The scheduler, the interrupt flag of the processor, `need_reschedule`, and the interrupts
that each task is inside of, the latest first.  A task that is inside of none is in task code, or
has not run yet. -/
structure Irq where
  sys : Sys
  interruptFlag : Bool
  needReschedule : Bool
  frames : TaskId → List IrqFrame

/-- What happens to the task that has control: its own code does anything but switch, or calls
`scheduler_schedule`; an interrupt of the timer or of another device comes in; `irq_handler` gets
to its end; `iretq`. -/
inductive IrqEvent
  | taskCode (sys : Sys)
  | yield
  | irq (timer : Bool)
  | handlerEnd
  | iretq

/-- `scheduler_schedule`: `context_switch` leaves the interrupt flag alone. -/
def Irq.schedule (s : Irq) : Option Irq :=
  (schedulerSchedule s.sys).map fun sys => { s with sys := sys }

/-- The processor enters the handler of an interrupt; `pit_irq` is the handler of the timer. -/
def Irq.enter (s : Irq) (t : TaskId) (timer : Bool) : Irq where
  sys := if timer then { s.sys with ticks := u64 (s.sys.ticks + 1) } else s.sys
  interruptFlag := false
  needReschedule := s.needReschedule || timer
  frames := Function.update s.frames t (⟨s.interruptFlag, false⟩ :: s.frames t)

/-- The end of `irq_handler`, in the interrupt `f`. -/
def Irq.handlerEnd (s : Irq) (t : TaskId) (f : IrqFrame) (rest : List IrqFrame) : Option Irq :=
  let s := { s with frames := Function.update s.frames t ({ f with scheduled := true } :: rest) }
  if s.needReschedule then { s with needReschedule := false }.schedule else some s

/-- One event, for the task `t` that has control: nothing if it cannot happen. -/
def Irq.execBy (s : Irq) (t : TaskId) : IrqEvent → Option Irq
  | .taskCode sys =>
      if s.frames t = [] ∧ sys.current = some t then some { s with sys := sys } else none
  | .yield => if s.frames t = [] then s.schedule else none
  | .irq timer => if s.interruptFlag then some (s.enter t timer) else none
  | .handlerEnd =>
      match s.frames t with
      | [] => none
      | f :: rest => if f.scheduled then none else s.handlerEnd t f rest
  | .iretq =>
      match s.frames t with
      | [] => none
      | f :: rest =>
          if f.scheduled then
            some { s with interruptFlag := f.flag, frames := Function.update s.frames t rest }
          else none

def Irq.exec (s : Irq) (e : IrqEvent) : Option Irq := s.sys.current.bind fun t => s.execBy t e

/-- After `sti` and `scheduler_init`. -/
def Irq.boot (initial : ℕ → ℕ) : Irq where
  sys := schedulerInit initial
  interruptFlag := true
  needReschedule := false
  frames := fun _ => []

/-- The task that has control is inside of an interrupt, or the interrupt flag is set. -/
def Irq.TaskCodeEnabled (s : Irq) : Prop :=
  ∀ t, s.sys.current = some t → s.frames t = [] → s.interruptFlag = true

/-- The task that `scheduler_schedule` stops at. -/
def Irq.nextTask (s : Irq) : Option TaskId := (schedulerSchedule s.sys).bind Sys.current

/-- If `irq_handler` is to pass control to another task, that task is inside of an interrupt. -/
def Irq.ToPreempted (s : Irq) (e : IrqEvent) (_ : Irq) : Prop :=
  e = .handlerEnd → s.needReschedule = true →
    ∀ t, s.nextTask = some t → s.sys.current ≠ some t → s.frames t ≠ []

/-- In every run: the flags on the stacks are set; in a handler that has not come to its call of
`scheduler_schedule` the interrupt flag is clear; and only the latest interrupt of the task that
has control can be such a one. -/
structure Irq.Inv (s : Irq) : Prop where
  flags : ∀ t, ∀ f ∈ s.frames t, f.flag = true
  closed : ∀ t f rest, s.sys.current = some t → s.frames t = f :: rest → f.scheduled = false →
    s.interruptFlag = false
  others : ∀ t f rest, s.sys.current ≠ some t → s.frames t = f :: rest → f.scheduled = true
  outer : ∀ t f rest, s.frames t = f :: rest → ∀ g ∈ rest, g.scheduled = true

variable {s s' : Irq} {t : TaskId} {e : IrqEvent} {events : List IrqEvent} {initial : ℕ → ℕ}

/-! ### One event -/

/-- Entering a handler switches to no other task. -/
theorem Irq.enter_current (timer : Bool) : (s.enter t timer).sys.current = s.sys.current := by
  cases timer <;> rfl

/-- All that an event can do while the task `t` has control. -/
inductive Irq.Stepped (s : Irq) (t : TaskId) : IrqEvent → Irq → Prop
  | taskCode {sys : Sys} (hnil : s.frames t = []) (hcur : sys.current = some t) :
      Stepped s t (.taskCode sys) { s with sys := sys }
  | yield {sys : Sys} (hnil : s.frames t = []) (hsys : schedulerSchedule s.sys = some sys) :
      Stepped s t .yield { s with sys := sys }
  | irq {timer : Bool} (hflag : s.interruptFlag = true) : Stepped s t (.irq timer) (s.enter t timer)
  | handlerEnd {f : IrqFrame} {rest : List IrqFrame} {sys : Sys} (hf : s.frames t = f :: rest)
      (hopen : f.scheduled = false)
      (hsys : (if s.needReschedule then schedulerSchedule s.sys else some s.sys) = some sys) :
      Stepped s t .handlerEnd { s with
        sys := sys
        needReschedule := false
        frames := Function.update s.frames t ({ f with scheduled := true } :: rest) }
  | iretq {f : IrqFrame} {rest : List IrqFrame} (hf : s.frames t = f :: rest)
      (hdone : f.scheduled = true) :
      Stepped s t .iretq
        { s with interruptFlag := f.flag, frames := Function.update s.frames t rest }

theorem Irq.schedule_eq_some (h : s.schedule = some s') :
    ∃ sys, schedulerSchedule s.sys = some sys ∧ s' = { s with sys := sys } := by
  unfold Irq.schedule at h
  obtain ⟨sys, hsys, rfl⟩ := Option.map_eq_some_iff.mp h
  exact ⟨sys, hsys, rfl⟩

theorem Irq.stepped (h : s.exec e = some s') :
    ∃ t, s.sys.current = some t ∧ s.Stepped t e s' := by
  unfold Irq.exec at h
  obtain ⟨t, ht, h⟩ := Option.bind_eq_some_iff.mp h
  refine ⟨t, ht, ?_⟩
  cases e with
  | taskCode sys =>
    obtain ⟨⟨hnil, hcur⟩, h⟩ := Option.ite_none_right_eq_some.mp h
    obtain rfl := Option.some_injective _ h
    exact .taskCode hnil hcur
  | yield =>
    obtain ⟨hnil, h⟩ := Option.ite_none_right_eq_some.mp h
    obtain ⟨sys, hsys, rfl⟩ := Irq.schedule_eq_some h
    exact .yield hnil hsys
  | irq timer =>
    obtain ⟨hflag, h⟩ := Option.ite_none_right_eq_some.mp h
    obtain rfl := Option.some_injective _ h
    exact .irq hflag
  | handlerEnd =>
    cases hf : s.frames t with
    | nil => simp [Irq.execBy, hf] at h
    | cons f rest =>
      simp only [Irq.execBy, hf] at h
      obtain ⟨hopen, h⟩ := Option.ite_none_left_eq_some.mp h
      replace hopen := Bool.eq_false_of_not_eq_true hopen
      unfold Irq.handlerEnd at h
      by_cases hneed : s.needReschedule = true
      · rw [if_pos hneed] at h
        obtain ⟨sys, hsys, rfl⟩ := Irq.schedule_eq_some h
        exact .handlerEnd hf hopen ((if_pos hneed).trans hsys)
      · rw [if_neg hneed] at h
        obtain rfl := Option.some_injective _ h
        have hkeep : s.needReschedule = false := Bool.eq_false_of_not_eq_true hneed
        have hstepped := Irq.Stepped.handlerEnd hf hopen (if_neg hneed)
        rwa [← hkeep] at hstepped
  | iretq =>
    cases hf : s.frames t with
    | nil => simp [Irq.execBy, hf] at h
    | cons f rest =>
      simp only [Irq.execBy, hf] at h
      obtain ⟨hdone, h⟩ := Option.ite_none_right_eq_some.mp h
      obtain rfl := Option.some_injective _ h
      exact .iretq hf hdone

/-! ### The invariant -/

theorem Irq.Inv.boot (initial : ℕ → ℕ) : (Irq.boot initial).Inv where
  flags _ _ hf := absurd hf List.not_mem_nil
  closed _ f rest _ hf := absurd hf.symm (List.cons_ne_nil f rest)
  others _ f rest _ hf := absurd hf.symm (List.cons_ne_nil f rest)
  outer _ f rest hf := absurd hf.symm (List.cons_ne_nil f rest)

/-- A switch from a task that is not before its call of `scheduler_schedule` in a handler. -/
theorem Irq.Inv.switch (h : s.Inv) (sys : Sys)
    (hleft : ∀ t f rest, s.sys.current = some t → s.frames t = f :: rest → f.scheduled = true) :
    { s with sys := sys }.Inv := by
  have hall : ∀ t f rest, s.frames t = f :: rest → f.scheduled = true := fun t f rest hf => by
    by_cases ht : s.sys.current = some t
    · exact hleft t f rest ht hf
    · exact h.others t f rest ht hf
  refine ⟨h.flags, fun t f rest _ hf hopen => ?_, fun t f rest _ hf => hall t f rest hf, h.outer⟩
  exact absurd ((hall t f rest hf).symm.trans hopen) (by simp)

/-- The invariant for a change of the interrupts that the task in control is inside of. -/
theorem Irq.Inv.setFrames (h : s.Inv) (ht : s.sys.current = some t) {sys : Sys} {flag need : Bool}
    {l : List IrqFrame} (hsys : sys.current = some t) (hflags : ∀ f ∈ l, f.flag = true)
    (hclosed : ∀ f rest, l = f :: rest → f.scheduled = false → flag = false)
    (houter : ∀ f rest, l = f :: rest → ∀ g ∈ rest, g.scheduled = true) :
    Irq.Inv ⟨sys, flag, need, Function.update s.frames t l⟩ := by
  have hof {x : TaskId} (hx : x ≠ t) : Function.update s.frames t l x = s.frames x :=
    Function.update_of_ne hx _ _
  have hself : Function.update s.frames t l t = l := Function.update_self ..
  have hcurrent {x : TaskId} : some t = some x ↔ x = t := by simp [eq_comm]
  constructor
  · intro x f hf
    by_cases hx : x = t
    · subst hx
      exact hflags f (hself ▸ hf)
    · exact h.flags x f (hof hx ▸ hf)
  · intro x f rest hx hf
    obtain rfl : x = t := hcurrent.mp (hsys.symm.trans hx)
    exact hclosed f rest (hself.symm.trans hf)
  · intro x f rest hx hf
    have hne : x ≠ t := fun heq => hx (hsys.trans (hcurrent.mpr heq))
    refine h.others x f rest (fun hcur => hne ?_) ((hof hne).symm.trans hf)
    exact hcurrent.mp (ht.symm.trans hcur)
  · intro x f rest hf
    by_cases hx : x = t
    · subst hx
      exact houter f rest (hself.symm.trans hf)
    · exact h.outer x f rest ((hof hx).symm.trans hf)

/-- **Every event keeps the invariant.** -/
theorem Irq.Inv.exec (h : s.Inv) (hexec : s.exec e = some s') : s'.Inv := by
  obtain ⟨t, ht, hstep⟩ := Irq.stepped hexec
  have hcur {x : TaskId} (hx : s.sys.current = some x) : x = t :=
    Option.some_injective _ (hx.symm.trans ht)
  cases hstep with
  | taskCode hnil hsys =>
    refine h.switch _ fun x f rest hx hf => ?_
    obtain rfl := hcur hx
    exact absurd (hf.symm.trans hnil) (List.cons_ne_nil f rest)
  | yield hnil hsys =>
    refine h.switch _ fun x f rest hx hf => ?_
    obtain rfl := hcur hx
    exact absurd (hf.symm.trans hnil) (List.cons_ne_nil f rest)
  | @irq timer hflag =>
    refine h.setFrames ht ?_ ?_ ?_ ?_
    · exact (Irq.enter_current (t := t) timer).trans ht
    · simp only [List.mem_cons, forall_eq_or_imp]
      exact ⟨hflag, h.flags t⟩
    · exact fun _ _ _ _ => rfl
    · -- the interrupts that the flag has let in are past their call
      rintro f rest ⟨⟩ g hg
      cases hframes : s.frames t with
      | nil => exact absurd (hframes ▸ hg) List.not_mem_nil
      | cons f' rest' =>
        rcases List.mem_cons.mp (hframes ▸ hg) with rfl | hg'
        · refine Bool.eq_true_of_not_eq_false fun hopen => ?_
          exact absurd ((h.closed t g rest' ht hframes hopen).symm.trans hflag) (by simp)
        · exact h.outer t f' rest' hframes g hg'
  | @handlerEnd f rest sys hf hopen hsys =>
    have hmid : Irq.Inv ⟨s.sys, s.interruptFlag, false,
        Function.update s.frames t ({ f with scheduled := true } :: rest)⟩ := by
      refine h.setFrames ht ht ?_ ?_ ?_
      · have hflags := h.flags t
        rw [hf] at hflags
        simpa using hflags
      · rintro _ _ ⟨⟩ hfalse
        exact absurd hfalse (by simp)
      · rintro _ _ ⟨⟩
        exact h.outer t f rest hf
    refine hmid.switch sys fun x g rest' hx hg => ?_
    obtain rfl := hcur hx
    have hself : Function.update s.frames x ({ f with scheduled := true } :: rest) x = g :: rest' :=
      hg
    rw [Function.update_self] at hself
    obtain ⟨rfl, -⟩ := List.cons.inj hself
    rfl
  | @iretq f rest hf hdone =>
    have hflags := h.flags t
    rw [hf] at hflags
    refine h.setFrames ht ht (fun g hg => hflags g (List.mem_cons_of_mem _ hg)) ?_ ?_
    · rintro g rest' rfl hopen
      exact absurd ((h.outer t f _ hf g List.mem_cons_self).symm.trans hopen) (by simp)
    · rintro g rest' rfl g' hg'
      exact h.outer t f _ hf g' (List.mem_cons_of_mem _ hg')

/-! ### The flag in task code -/

/-- **One event.**  The flag stays set in task code exactly if `irq_handler` does not switch to a
task that is in task code or has never run. -/
theorem Irq.taskCodeEnabled_iff (h : s.Inv) (henabled : s.TaskCodeEnabled)
    (hexec : s.exec e = some s') : s'.TaskCodeEnabled ↔ s.ToPreempted e s' := by
  obtain ⟨t, ht, hstep⟩ := Irq.stepped hexec
  have hcur {x : TaskId} (hx : some t = some x) : t = x := Option.some_injective _ hx
  cases hstep with
  | taskCode hnil hsys =>
    exact iff_of_true (fun _ _ _ => henabled t ht hnil) nofun
  | yield hnil hsys =>
    exact iff_of_true (fun _ _ _ => henabled t ht hnil) nofun
  | @irq timer hflag =>
    refine iff_of_true (fun x hx hnil => ?_) nofun
    rw [Irq.enter_current, ht] at hx
    obtain rfl := hcur hx
    exact absurd hnil (by simp [Irq.enter])
  | @iretq f rest hf hdone =>
    refine iff_of_true (fun _ _ _ => ?_) nofun
    exact h.flags t f (hf ▸ List.mem_cons_self)
  | @handlerEnd f rest sys hf hopen hsys =>
    have hclear : s.interruptFlag = false := h.closed t f rest ht hf hopen
    set frames := Function.update s.frames t ({ f with scheduled := true } :: rest)
    have hself : frames t = { f with scheduled := true } :: rest := Function.update_self ..
    by_cases hneed : s.needReschedule = true
    · rw [if_pos hneed] at hsys
      have hnext : s.nextTask = sys.current := by simp [Irq.nextTask, hsys]
      constructor
      · intro hs' _ _ x hx hne hnil
        have hxt : x ≠ t := fun heq => hne (heq ▸ ht)
        have := hs' x (hnext.symm.trans hx) ((Function.update_of_ne hxt _ _).trans hnil)
        exact absurd (hclear.symm.trans this) (by simp)
      · intro hto x hx hnil
        by_cases hxt : x = t
        · subst hxt
          exact absurd (hself.symm.trans hnil) (List.cons_ne_nil _ _)
        · refine absurd ((Function.update_of_ne hxt _ _).symm.trans hnil) ?_
          exact hto rfl hneed x (hnext.trans hx) fun heq => hxt (hcur (ht.symm.trans heq)).symm
    · refine iff_of_true (fun x hx hnil => ?_) fun _ hn => absurd hn hneed
      rw [if_neg hneed] at hsys
      obtain rfl := Option.some_injective _ hsys
      obtain rfl := hcur (ht.symm.trans hx)
      exact absurd (hself.symm.trans hnil) (List.cons_ne_nil _ _)

/-- **The interrupt flag of the tasks.**  It is set whenever task code runs, in exactly those runs
in which `irq_handler` only switches to tasks that it has itself taken from the processor. -/
theorem interruptFlag_iff (initial : ℕ → ℕ) (events : List IrqEvent) :
    Along Irq.exec (fun _ _ s' => s'.TaskCodeEnabled) (Irq.boot initial) events ↔
      Along Irq.exec Irq.ToPreempted (Irq.boot initial) events := by
  have hboot : (Irq.boot initial).Inv ∧ (Irq.boot initial).TaskCodeEnabled :=
    ⟨Irq.Inv.boot initial, fun _ _ _ => rfl⟩
  refine along_iff (fun s => s.Inv ∧ s.TaskCodeEnabled) hboot ?_ ?_
  · intro s e s' hs hexec
    exact Irq.taskCodeEnabled_iff hs.1 hs.2 hexec
  · intro s e s' hs hexec hto
    exact ⟨hs.1.exec hexec, (Irq.taskCodeEnabled_iff hs.1 hs.2 hexec).mpr hto⟩

/-- A timer interrupt right after the boot task has added a new task: the new task starts with
interrupts off. -/
theorem interruptFlag_firstEntry :
    ∃ sys, schedulerAdd (taskCreate (schedulerInit fun _ => 0) true true).2 (some 1) = some sys ∧
      ¬ Along Irq.exec (fun _ _ s' => s'.TaskCodeEnabled) (Irq.boot fun _ => 0)
        [.taskCode sys, .irq true, .handlerEnd] := by
  refine ⟨_, rfl, fun h => ?_⟩
  obtain ⟨-, h⟩ := h _ rfl
  obtain ⟨-, h⟩ := h _ rfl
  obtain ⟨h, -⟩ := h _ rfl
  exact absurd (h 1 rfl rfl) (by decide)

end Bethany
