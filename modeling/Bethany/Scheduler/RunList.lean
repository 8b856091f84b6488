import Bethany.Scheduler.Model

/-!
# The run list and `scheduler_schedule`

The tasks of the scheduler form a chain from `first`, and `current` is one of them.  On such a
list every loop of `scheduler.c` ends.  `schedulerSchedule_spec` says all that a call of
`scheduler_schedule` does: the task that exited before is unlinked, sleepers whose time has
come are woken, and the next ready task in the order of the list gets control.

* `RunList`: the run list with its current task;
* `remaining`, `woken`, `chosen`: the list without the task to destroy, the states after
  `scheduler_update`, and the task `scheduler_next` stops at;
* `Scheduled`: the state `scheduler_schedule` leaves.
-/

namespace Bethany

open Machine LinkedList

/-- The tasks from `first` on are those of `L`, and one of them, `c`, is the current one. -/
structure RunList (s : Sys) (L : List TaskId) (c : TaskId) : Prop where
  chain : Chain s.next s.first L
  lt : ∀ t ∈ L, t < s.nextPid
  current : s.current = some c
  mem : c ∈ L
  doomed : ∀ t, s.taskToDestroy = some t → t ∈ L ∧ t ≠ c

variable {s s' : Sys} {L : List TaskId} {c c' d t : TaskId}

theorem RunList.eq_of_current (h : RunList s L c) (ht : s.current = some t) : c = t :=
  Option.some_injective _ (h.current.symm.trans ht)

theorem RunList.length_lt (h : RunList s L c) : L.length < s.fuel :=
  Nat.lt_succ_of_le (length_le_of_lt h.chain.nodup h.lt)

/-! ### `scheduler_update` -/

/-- A task whose time to wake up has come. -/
def Sys.Due (s : Sys) (t : TaskId) : Prop := s.state t = .sleeping ∧ s.wakeTick t ≤ s.ticks

instance (s : Sys) (t : TaskId) : Decidable (s.Due t) := inferInstanceAs (Decidable (_ ∧ _))

/-- The states after `scheduler_update` has gone over the tasks of `L`. -/
def Sys.woken (s : Sys) (L : List TaskId) (t : TaskId) : TaskState :=
  if t ∈ L ∧ s.Due t then .ready else s.state t

/-- Waking sleepers changes no other state. -/
theorem Sys.woken_iff {st : TaskState} (hready : st ≠ .ready) (hsleep : st ≠ .sleeping) :
    s.woken L t = st ↔ s.state t = st := by
  unfold Sys.woken
  split_ifs with hdue
  · rw [hdue.2.1]
    exact iff_of_false hready.symm hsleep.symm
  · rfl

/-- The tasks of the list that are ready after `scheduler_update`. -/
theorem Sys.woken_ready (ht : t ∈ L) : s.woken L t = .ready ↔ s.state t = .ready ∨ s.Due t := by
  unfold Sys.woken
  split_ifs with hdue
  · exact iff_of_true rfl (.inr hdue.2)
  · exact (or_iff_left fun hd => hdue ⟨ht, hd⟩).symm

theorem updateBody_eq {ticks : ℕ} {s : Sys} (hticks : s.ticks = ticks) (it : TaskId) :
    updateBody ticks s it =
      ({ s with state := Function.update s.state it (s.woken [it] it) }, s.next it) := by
  subst hticks
  unfold updateBody
  by_cases hdue : s.state it = .sleeping ∧ s.wakeTick it ≤ s.ticks
  · have hwoken : s.woken [it] it = .ready := if_pos ⟨List.mem_singleton_self it, hdue⟩
    rw [if_pos hdue, hwoken]
  · have hwoken : s.woken [it] it = s.state it := if_neg fun h => hdue h.2
    rw [if_neg hdue, hwoken, Function.update_eq_self]

theorem updateBody_next (ticks : ℕ) (s : Sys) (it : TaskId) :
    (updateBody ticks s it).1.next = s.next ∧ (updateBody ticks s it).2 = s.next it := by
  unfold updateBody
  split_ifs <;> exact ⟨rfl, rfl⟩

theorem foldl_updateBody {ticks : ℕ} (L : List TaskId) (s : Sys) (hticks : s.ticks = ticks) :
    L.foldl (fun s t => (updateBody ticks s t).1) s = { s with state := s.woken L } := by
  induction L generalizing s with
  | nil =>
    have hnil : s.woken [] = s.state := funext fun t => if_neg fun h => List.not_mem_nil h.1
    rw [List.foldl_nil, hnil]
  | cons a L ih =>
    rw [List.foldl_cons, updateBody_eq hticks]
    refine (ih _ ?_).trans ?_
    · exact hticks
    congr 1
    funext t
    by_cases hta : t = a
    · -- a task that has been woken stays ready when it is met again
      subst hta
      simp only [Sys.woken, Sys.Due, Function.update_self, List.mem_cons, List.not_mem_nil,
        or_false, true_or, true_and]
      by_cases hdue : s.state t = .sleeping ∧ s.wakeTick t ≤ s.ticks
      · simp [hdue]
      · simp [hdue]
    · simp only [Sys.woken, Sys.Due, Function.update_of_ne hta, List.mem_cons, hta, false_or]

theorem schedulerUpdate_eq (h : RunList s L c) :
    schedulerUpdate s = some { s with state := s.woken L } := by
  unfold schedulerUpdate
  rw [← foldl_updateBody L s rfl]
  exact loop_eq_foldl (fun s₁ a => (updateBody_next _ s₁ a).2)
    (fun s₁ a b _ => congrFun (updateBody_next _ s₁ a).1 b) h.chain h.length_lt

/-! ### `scheduler_add` -/

/-- The links after the task `t` has been put behind the last one of `L`. -/
def appended (s : Sys) (L : List TaskId) (t : TaskId) : TaskId → Option TaskId :=
  match L.getLast? with
  | none => s.next
  | some it => Function.update s.next it (some t)

theorem appended_of_not_mem {x : TaskId} (hx : x ∉ L) : appended s L t x = s.next x := by
  unfold appended
  cases hlast : L.getLast? with
  | none => rfl
  | some it =>
    refine Function.update_of_ne (fun heq => hx ?_) _ _
    rw [heq]
    exact List.mem_of_getLast? hlast

/-- A task that is not in the list, and whose link is null, becomes the last one. -/
theorem schedulerAdd_spec (h : RunList s L c) (ht : t ∉ L) (hnull : s.next t = none) :
    schedulerAdd s (some t) = some { s with next := appended s L t } ∧
      Chain (appended s L t) s.first (L ++ [t]) := by
  obtain ⟨hchain, hlen⟩ := And.intro h.chain h.length_lt
  cases L with
  | nil => exact absurd h.mem List.not_mem_nil
  | cons f L =>
    have hfirst : s.first = some f := hchain.1
    obtain ⟨r, it, hit⟩ : ∃ r it, f :: L = r ++ [it] :=
      ⟨_, _, (List.dropLast_append_getLast (List.cons_ne_nil f L)).symm⟩
    have hadv : advance s.next (fun _ => false) s.fuel f = some it := by
      have hlast : it = (f :: L).getLast (List.cons_ne_nil _ _) := by
        simp only [hit, List.getLast_append_singleton]
      rw [hlast]
      apply advance_last (hfirst ▸ hchain) (fun _ _ => rfl)
      rw [List.length_cons] at hlen
      omega
    have happ : appended s (f :: L) t = Function.update s.next it (some t) := by
      unfold appended
      rw [hit, List.getLast?_concat]
    rw [hit] at hchain ht
    rw [happ]
    constructor
    · unfold schedulerAdd
      simp only [hfirst, hadv, Option.bind_eq_bind, Option.bind_some]
      rfl
    · have := hchain.snoc ht hnull
      rwa [hit, List.append_assoc]

/-- The run list after `scheduler_add`. -/
theorem RunList.add (h : RunList s L c) (hlt : t < s.nextPid) (ht : t ∉ L)
    (hnull : s.next t = none) :
    RunList { s with next := appended s L t } (L ++ [t]) c := by
  obtain ⟨-, hchain⟩ := schedulerAdd_spec h ht hnull
  refine ⟨hchain, fun x hx => ?_, h.current, ?_, fun x hx => ?_⟩
  · rcases List.mem_append.mp hx with hx | hx
    · exact h.lt x hx
    · rwa [List.mem_singleton.mp hx]
  · exact List.mem_append_left _ h.mem
  · exact (h.doomed x hx).imp_left (List.mem_append_left _)

/-! ### `scheduler_next` -/

theorem nextLoop_eq {s : Sys} {start current : TaskId} {T : List TaskId}
    (hring : (current :: (T ++ [start])).IsChain fun a b => (s.next a <|> s.first) = some b)
    (hstart : start ∉ T) {fuel : ℕ} (hfuel : T.length < fuel) :
    nextLoop s start fuel current = some ((T.find? (s.state · = .ready)).getD start) := by
  induction T generalizing current fuel with
  | nil =>
    obtain ⟨fuel, rfl⟩ := Nat.exists_eq_succ_of_ne_zero (Nat.ne_of_gt hfuel)
    rw [List.nil_append, List.isChain_cons_cons] at hring
    unfold nextLoop
    rw [hring.1, Option.bind_some, if_neg (not_not.mpr rfl), ite_self]
    rfl
  | cons t T ih =>
    obtain ⟨fuel, rfl⟩ := Nat.exists_eq_succ_of_ne_zero (Nat.ne_of_gt (Nat.zero_lt_of_lt hfuel))
    obtain ⟨hne, hstart⟩ := not_or.mp (List.mem_cons.not.mp hstart)
    rw [List.cons_append, List.isChain_cons_cons] at hring
    unfold nextLoop
    rw [hring.1, Option.bind_some, List.find?_cons]
    by_cases hready : s.state t = .ready
    · rw [if_pos hready, decide_eq_true hready]
      rfl
    · rw [if_neg hready, if_pos (Ne.symm hne), decide_eq_false hready]
      apply ih hring.2 hstart
      rw [List.length_cons] at hfuel
      omega

/-- The tasks in the order in which `scheduler_next` looks at them: those after the current
one, and then those before it. -/
def othersOf (L : List TaskId) (c : TaskId) : List TaskId :=
  (L.dropWhile (· ≠ c)).tail ++ L.takeWhile (· ≠ c)

theorem othersOf_append {p q : List TaskId} (hp : c ∉ p) : othersOf (p ++ c :: q) c = q ++ p := by
  have hpne : ∀ t ∈ p, decide (t ≠ c) = true := fun t ht =>
    decide_eq_true fun heq => hp (heq ▸ ht)
  unfold othersOf
  rw [List.dropWhile_append_of_pos hpne, List.takeWhile_append_of_pos hpne]
  simp

theorem mem_othersOf (hL : L.Nodup) (hc : c ∈ L) : t ∈ othersOf L c ↔ t ∈ L ∧ t ≠ c := by
  obtain ⟨p, q, rfl, hp⟩ := List.eq_append_cons_of_mem hc
  rw [othersOf_append hp, List.mem_append, List.mem_append, List.mem_cons]
  have hq : c ∉ q := (List.nodup_cons.mp (List.nodup_append.mp hL).2.1).1
  constructor
  · rintro (ht | ht)
    · exact ⟨.inr (.inr ht), fun heq => hq (heq ▸ ht)⟩
    · exact ⟨.inl ht, fun heq => hp (heq ▸ ht)⟩
  · rintro ⟨ht | ht | ht, hne⟩
    · exact .inr ht
    · exact absurd ht hne
    · exact .inl ht

/-- The task `scheduler_next` stops at: the first ready one after the current task, or the
current task itself. -/
def chosen (state : TaskId → TaskState) (L : List TaskId) (c : TaskId) : TaskId :=
  ((othersOf L c).find? (state · = .ready)).getD c

theorem schedulerNext_eq (h : RunList s L c) :
    schedulerNext s = some { s with current := some (chosen s.state L c) } := by
  have hlen := h.length_lt
  obtain ⟨hchain, -, hcur, hmem, -⟩ := h
  obtain ⟨p, q, rfl, hp⟩ := List.eq_append_cons_of_mem hmem
  have hq : c ∉ q := (List.nodup_cons.mp (List.nodup_append.mp hchain.nodup).2.1).1
  unfold schedulerNext chosen
  rw [hcur, othersOf_append hp]
  simp only
  rw [nextLoop_eq hchain.ring]
  · rfl
  · rw [List.mem_append]
    exact not_or.mpr ⟨hq, hp⟩
  · simp only [List.length_append, List.length_cons] at hlen ⊢
    omega

/-- The task stopped at is ready, unless no other task of the list is. -/
theorem chosen_cases (state : TaskId → TaskState) (hL : L.Nodup) (hc : c ∈ L) :
    (chosen state L c = c ∧ ∀ t ∈ L, t ≠ c → state t ≠ .ready) ∨
      (chosen state L c ∈ L ∧ chosen state L c ≠ c ∧ state (chosen state L c) = .ready) := by
  unfold chosen
  cases hfind : (othersOf L c).find? (state · = .ready) with
  | none =>
    refine .inl ⟨rfl, fun t ht hne => ?_⟩
    have := List.find?_eq_none.mp hfind t ((mem_othersOf hL hc).mpr ⟨ht, hne⟩)
    rwa [decide_eq_true_eq] at this
  | some t =>
    have hmem := (mem_othersOf hL hc).mp (List.mem_of_find?_eq_some hfind)
    have hready := List.find?_some hfind
    rw [decide_eq_true_eq] at hready
    exact .inr ⟨hmem.1, hmem.2, hready⟩

/-! ### `scheduler_remove` -/

/-- Removing a task of the list other than the current one unlinks it. -/
theorem schedulerRemove_spec (h : RunList s L c) (hd : d ∈ L) (hdc : d ≠ c) :
    ∃ first next,
      schedulerRemove s (some d) =
        some { s with first := first, next := next, destroyed := d :: s.destroyed } ∧
      Chain next first (L.erase d) ∧ ∀ t ∉ L, next t = s.next t := by
  have hcur : s.current ≠ some d := fun heq =>
    hdc (Option.some_injective _ (heq.symm.trans h.current))
  obtain ⟨hchain, hlen⟩ := And.intro h.chain h.length_lt
  cases L with
  | nil => exact absurd hd List.not_mem_nil
  | cons f L =>
    unfold schedulerRemove
    have hfirst : s.first = some f := hchain.1
    rw [hfirst] at hchain ⊢
    by_cases hdf : d = f
    · subst hdf
      refine ⟨s.next d, s.next, ?_, ?_, fun t _ => rfl⟩
      · simp only [if_true, hcur, if_false]
        rfl
      · rw [List.erase_cons_head]
        exact hchain.2
    · have hd : d ∈ L := (List.mem_cons.mp hd).resolve_left hdf
      obtain ⟨p, q, rfl, hp⟩ := List.eq_append_cons_of_mem hd
      -- `it` is the node before `d`
      obtain ⟨r, it, hit⟩ : ∃ r it, f :: p = r ++ [it] :=
        ⟨_, _, (List.dropLast_append_getLast (List.cons_ne_nil f p)).symm⟩
      have hsplit : f :: (p ++ d :: q) = r ++ it :: d :: q := by
        rw [← List.cons_append, hit, List.append_assoc]
        rfl
      have hadv : advance s.next (· == d) s.fuel f = some it := by
        have hlast : it = (f :: p).getLast (List.cons_ne_nil _ _) := by
          simp only [hit, List.getLast_append_singleton]
        rw [hlast]
        refine advance_prev hchain (fun t ht => ?_) ?_ ?_
        · exact beq_eq_false_iff_ne.mpr fun heq => hp (heq ▸ ht)
        · exact beq_self_eq_true d
        · simp only [List.length_cons, List.length_append] at hlen
          omega
      rw [hsplit] at hchain
      have hnext : s.next it = some d := hchain.next_eq
      refine ⟨some f, Function.update s.next it (s.next d), ?_, ?_, fun t ht => ?_⟩
      · simp only [if_neg hdf, hadv, Option.bind_eq_bind, Option.bind_some, hnext, hcur, if_false]
        rfl
      · have hdp : d ∉ f :: p := List.mem_cons.not.mpr (not_or.mpr ⟨hdf, hp⟩)
        have herase : (f :: (p ++ d :: q)).erase d = r ++ it :: q := by
          rw [← List.cons_append, List.erase_append_right _ hdp, List.erase_cons_head, hit,
            List.append_assoc]
          rfl
        rw [herase]
        exact hchain.unlink
      · refine Function.update_of_ne (fun heq => ht ?_) _ _
        rw [hsplit, heq]
        simp

/-- The list without the task that exited before. -/
def Sys.remaining (s : Sys) (L : List TaskId) : List TaskId :=
  match s.taskToDestroy with
  | none => L
  | some t => L.erase t

theorem RunList.mem_remaining (h : RunList s L c) :
    t ∈ s.remaining L ↔ t ∈ L ∧ s.taskToDestroy ≠ some t := by
  unfold Sys.remaining
  cases hd : s.taskToDestroy with
  | none => simp
  | some d =>
    rw [h.chain.nodup.mem_erase_iff, and_comm]
    simp [eq_comm]

theorem RunList.current_remaining (h : RunList s L c) : c ∈ s.remaining L :=
  h.mem_remaining.mpr ⟨h.mem, fun hd => (h.doomed c hd).2 rfl⟩

theorem removeDestroyed_spec (h : RunList s L c) :
    ∃ first next,
      removeDestroyed s = some { s with
        first := first, next := next, taskToDestroy := none,
        destroyed := s.taskToDestroy.toList ++ s.destroyed } ∧
      Chain next first (s.remaining L) ∧ ∀ t ∉ L, next t = s.next t := by
  unfold removeDestroyed Sys.remaining
  cases hd : s.taskToDestroy with
  | none =>
    refine ⟨s.first, s.next, ?_, h.chain, fun t _ => rfl⟩
    cases s
    cases hd
    rfl
  | some d =>
    obtain ⟨hmem, hdc⟩ := h.doomed d hd
    obtain ⟨first, next, heq, hchain, hnext⟩ := schedulerRemove_spec h hmem hdc
    refine ⟨first, next, ?_, hchain, hnext⟩
    simp only [heq, Option.bind_eq_bind, Option.bind_some]
    rfl

/-! ### `scheduler_schedule` -/

/-- The states after control has gone from `c` to `c'`. -/
def switched (state : TaskId → TaskState) (c c' : TaskId) : TaskId → TaskState :=
  if c' = c then state
  else Function.update (if state c = .running then Function.update state c .ready else state)
    c' .running

theorem switchFrom_eq {s : Sys} (hne : c' ≠ c) (hd : s.taskToDestroy = none) :
    switchFrom s c c' = { s with
      state := switched s.state c c'
      taskToDestroy := if s.state c = .dead then some c else none } := by
  have hother (f : TaskId → TaskState) : Function.update f c' .running c = f c :=
    Function.update_of_ne hne.symm _ _
  unfold switchFrom switched
  by_cases hrun : s.state c = .running
  · cases s
    simp_all
  · by_cases hdead : s.state c = .dead
    · simp [hne, hdead, hother, hd]
    · cases s
      simp_all

/-- What a call of `scheduler_schedule` does when it passes control from `c` to `c'`, which
may be `c` again. -/
structure Scheduled (s s' : Sys) (L : List TaskId) (c c' : TaskId) : Prop where
  frame : s' = { s with
    first := s'.first, next := s'.next, destroyed := s'.destroyed, state := s'.state,
    current := s'.current, taskToDestroy := s'.taskToDestroy }
  chain : Chain s'.next s'.first (s.remaining L)
  next_other : ∀ t ∉ L, s'.next t = s.next t
  destroyed : s'.destroyed = s.taskToDestroy.toList ++ s.destroyed
  current : s'.current = some c'
  choice : c' = chosen (s.woken (s.remaining L)) (s.remaining L) c
  state : s'.state = switched (s.woken (s.remaining L)) c c'
  toDestroy : s'.taskToDestroy =
    if c' ≠ c ∧ s.woken (s.remaining L) c = .dead then some c else none

/-- **All that `scheduler_schedule` does.** -/
theorem schedulerSchedule_spec (h : RunList s L c) :
    ∃ s' c', schedulerSchedule s = some s' ∧ Scheduled s s' L c c' := by
  obtain ⟨first, next, hremove, hchain, hnext⟩ := removeDestroyed_spec h
  set L' := s.remaining L
  set s₁ : Sys := { s with
    first := first, next := next, taskToDestroy := none,
    destroyed := s.taskToDestroy.toList ++ s.destroyed }
  have h₁ : RunList s₁ L' c := ⟨hchain, fun t ht => h.lt t (h.mem_remaining.mp ht).1, h.current,
    h.current_remaining, fun t ht => absurd ht (Option.some_ne_none t).symm⟩
  set s₂ : Sys := { s₁ with state := s.woken L' }
  have hupdate : schedulerUpdate s₁ = some s₂ := schedulerUpdate_eq h₁
  have h₂ : RunList s₂ L' c := ⟨h₁.chain, h₁.lt, h₁.current, h₁.mem, h₁.doomed⟩
  have hsecond := schedulerNext_eq h₂
  set c' := chosen s₂.state L' c with hc'
  unfold schedulerSchedule
  simp only [hremove, Option.bind_eq_bind, Option.bind_some, hupdate, hsecond, h₂.current,
    Option.some.injEq]
  by_cases hcc : c = c'
  · -- no other task is ready
    rw [if_pos hcc]
    have hswitch : switched (s.woken L') c c' = s.woken L' := if_pos hcc.symm
    have hdestroy : ¬ (c' ≠ c ∧ s.woken L' c = .dead) := fun hd => hd.1 hcc.symm
    exact ⟨_, c', rfl, ⟨rfl, hchain, hnext, rfl, rfl, hc', hswitch.symm, (if_neg hdestroy).symm⟩⟩
  · rw [if_neg hcc]
    rw [switchFrom_eq (Ne.symm hcc) rfl]
    refine ⟨_, c', rfl, ⟨rfl, hchain, hnext, rfl, rfl, hc', rfl, ?_⟩⟩
    simp only [ne_eq, Ne.symm hcc, not_false_eq_true, true_and]
    rfl

namespace Scheduled

theorem chosen_cases (hs : Scheduled s s' L c c') (h : RunList s L c) :
    (c' = c ∧ ∀ t ∈ s.remaining L, t ≠ c → s.woken (s.remaining L) t ≠ .ready) ∨
      (c' ∈ s.remaining L ∧ c' ≠ c ∧ s.woken (s.remaining L) c' = .ready) := by
  have hnodup : (s.remaining L).Nodup := hs.chain.nodup
  rw [hs.choice]
  exact Bethany.chosen_cases _ hnodup h.current_remaining

/-- Control goes to another task exactly if one of the list is ready, or sleeps and its time has
come. -/
theorem switches_iff (hs : Scheduled s s' L c c') (h : RunList s L c) :
    c' ≠ c ↔ ∃ t ∈ s.remaining L, t ≠ c ∧ (s.state t = .ready ∨ s.Due t) := by
  rcases hs.chosen_cases h with ⟨hcc, hnone⟩ | ⟨hmem, hne, hready⟩
  · refine iff_of_false (not_not.mpr hcc) ?_
    rintro ⟨t, ht, hne, hgo⟩
    exact hnone t ht hne ((Sys.woken_ready ht).mpr hgo)
  · exact iff_of_true hne ⟨c', hmem, hne, (Sys.woken_ready hmem).mp hready⟩

theorem runList (hs : Scheduled s s' L c c') (h : RunList s L c) :
    RunList s' (s.remaining L) c' where
  chain := hs.chain
  lt t ht := by
    rw [hs.frame]
    exact h.lt t (h.mem_remaining.mp ht).1
  current := hs.current
  mem := by
    rcases hs.chosen_cases h with ⟨rfl, -⟩ | ⟨hmem, -⟩
    · exact h.current_remaining
    · exact hmem
  doomed t ht := by
    rw [hs.toDestroy] at ht
    split_ifs at ht with hc
    obtain rfl := Option.some_injective _ ht
    exact ⟨h.current_remaining, hc.1.symm⟩

/-- The state of a task other than the two that control passes between. -/
theorem state_other (hs : Scheduled s s' L c c') (hc : t ≠ c) (hc' : t ≠ c') :
    s'.state t = s.woken (s.remaining L) t := by
  rw [hs.state, switched]
  split_ifs
  · rfl
  · rw [Function.update_of_ne hc', Function.update_of_ne hc]
  · rw [Function.update_of_ne hc']

/-- The state of the task that loses control. -/
theorem state_old (hs : Scheduled s s' L c c') (hne : c' ≠ c) :
    s'.state c = if s.state c = .running then .ready else s.woken (s.remaining L) c := by
  have hrun : s.woken (s.remaining L) c = .running ↔ s.state c = .running :=
    Sys.woken_iff (by decide) (by decide)
  rw [hs.state, switched, if_neg hne, Function.update_of_ne hne.symm]
  simp only [hrun]
  split_ifs
  · rw [Function.update_self]
  · rfl

/-- The state of the task that gets control. -/
theorem state_new (hs : Scheduled s s' L c c') :
    s'.state c' = if c' = c then s.woken (s.remaining L) c else .running := by
  rw [hs.state, switched]
  split_ifs with hcc
  · rw [hcc]
  · rw [Function.update_self]
  · rw [Function.update_self]

/-- No task is blocked, and none killed, by `scheduler_schedule`. -/
theorem state_iff (hs : Scheduled s s' L c c') (h : RunList s L c) {st : TaskState}
    (hst : st = .blocked ∨ st = .dead) : s'.state t = st ↔ s.state t = st := by
  have hkeep (x : TaskId) : s.woken (s.remaining L) x = st ↔ s.state x = st :=
    Sys.woken_iff (by rcases hst with rfl | rfl <;> decide)
      (by rcases hst with rfl | rfl <;> decide)
  have hrun : TaskState.running ≠ st := by rcases hst with rfl | rfl <;> decide
  have hready : TaskState.ready ≠ st := by rcases hst with rfl | rfl <;> decide
  rcases hs.chosen_cases h with ⟨hcc, -⟩ | ⟨-, hne, hchosen⟩
  · rw [hs.state, switched, if_pos hcc]
    exact hkeep t
  · by_cases hc' : t = c'
    · rw [hc', hs.state_new, if_neg hne, ← hkeep, hchosen]
      exact iff_of_false hrun hready
    · by_cases hc : t = c
      · rw [hc, hs.state_old hne]
        split_ifs with hcrun
        · rw [hcrun]
          exact iff_of_false hready hrun
        · exact hkeep c
      · rw [hs.state_other hc hc']
        exact hkeep t

/-- A task that could run can still run. -/
theorem ready_or_running (hs : Scheduled s s' L c c')
    (ht : s.state t = .ready ∨ s.state t = .running) :
    s'.state t = .ready ∨ s'.state t = .running := by
  have hwoken : s.woken (s.remaining L) t = s.state t := if_neg fun hdue => by
    have hsleep := hdue.2.1
    rcases ht with ht | ht <;> exact absurd (hsleep.symm.trans ht) (by decide)
  by_cases hc' : t = c'
  · rw [hc', hs.state_new]
    split_ifs with hcc
    · rwa [← hcc, ← hc', hwoken]
    · exact .inr rfl
  · by_cases hc : t = c
    · rw [hc, hs.state_old (hc ▸ Ne.symm hc')]
      split_ifs
      · exact .inl rfl
      · rwa [← hc, hwoken]
    · rwa [hs.state_other hc hc', hwoken]

/-- If no other task ran before, none but the task that gets control runs afterwards. -/
theorem eq_of_running (hs : Scheduled s s' L c c') (h : RunList s L c)
    (hothers : ∀ t, s.state t = .running → t = c) (ht : s'.state t = .running) : t = c' := by
  have hrun (x : TaskId) : s.woken (s.remaining L) x = .running ↔ s.state x = .running :=
    Sys.woken_iff (by decide) (by decide)
  by_contra hc'
  by_cases hc : t = c
  · subst hc
    rw [hs.state_old (Ne.symm hc')] at ht
    split_ifs at ht with hold
    exact hold ((hrun t).mp ht)
  · rw [hs.state_other hc hc', hrun] at ht
    exact hc (hothers t ht)

/-- If the task that calls `scheduler_schedule` runs, or another one is ready or due, then the
task that gets control runs. -/
theorem runs (hs : Scheduled s s' L c c') (h : RunList s L c)
    (hrelief : s.state c = .running ∨
      ∃ t ∈ s.remaining L, t ≠ c ∧ (s.state t = .ready ∨ s.Due t)) :
    s'.state c' = .running := by
  rw [hs.state_new]
  by_cases hcc : c' = c
  · rw [if_pos hcc, Sys.woken_iff (by decide) (by decide)]
    exact hrelief.resolve_right fun hgo => (hs.switches_iff h).mpr hgo hcc
  · rw [if_neg hcc]

end Scheduled

end Bethany
