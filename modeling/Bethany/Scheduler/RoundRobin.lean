import Bethany.Scheduler.RunList
import Mathlib.Data.List.TakeWhile

/-!
# Turns

`scheduler_next` goes round the list and stops at the first ready task.  While a task waits there,
ready and without getting control, the tasks that do get control have to be passed on the way to
it, and a task that has been passed is not met again before.

* `aheadOf`: the tasks from the current one to the task that waits;
* `Turn`: a call of `scheduler_schedule` with the task that it selects, a call of `scheduler_add`
  with a new task, or any other step that leaves the list as it is;
* `Lap`: no task that has been selected lies ahead;
* `roundRobin_no_overtaking`: no task is selected twice.
-/

namespace Bethany

open LinkedList Relation

variable {s s' : Sys} {L : List TaskId} {c c' d n t x : TaskId} {log : List TaskId}

/-! ### The tasks ahead -/

/-- The tasks that `scheduler_next` looks at before it comes to `t`. -/
def aheadOf (L : List TaskId) (c t : TaskId) : List TaskId := (othersOf L c).takeWhile (· ≠ t)

/-- After a task that was looked at on the way from `c`, the rest of the way follows, then `c`,
and then what lay before. -/
theorem othersOf_next {u v : List TaskId} (hL : L.Nodup) (hc : c ∈ L)
    (h : othersOf L c = u ++ c' :: v) : othersOf L c' = v ++ c :: u := by
  obtain ⟨p, q, rfl, hp⟩ := List.eq_append_cons_of_mem hc
  rw [othersOf_append hp] at h
  have hfirst {a b : List TaskId} (heq : p ++ c :: q = a ++ c' :: b) : c' ∉ a := by
    rw [heq] at hL
    exact fun hmem => List.disjoint_of_nodup_append hL hmem List.mem_cons_self
  obtain ⟨a, rfl, rfl⟩ | ⟨a, rfl, ha⟩ := List.append_eq_append_iff.mp h
  · -- `c'` comes before `c` in the list
    have hsplit : (a ++ c' :: v) ++ c :: q = a ++ c' :: (v ++ c :: q) := by simp
    rw [hsplit, othersOf_append (hfirst hsplit)]
    simp
  · cases a with
    | nil =>
      obtain rfl : c' :: v = p := ha
      have hsplit : (c' :: v) ++ c :: (u ++ []) = [] ++ c' :: (v ++ c :: u) := by simp
      rw [hsplit, othersOf_append (hfirst hsplit), List.append_nil]
    | cons b a =>
      -- `c'` comes after `c`
      obtain ⟨rfl, rfl⟩ := List.cons.inj ha
      have hsplit : p ++ c :: (u ++ c' :: a) = (p ++ c :: u) ++ c' :: a := by simp
      rw [hsplit, othersOf_append (hfirst hsplit)]
      simp

/-- Taking tasks out of the list, but not the two at the ends, takes them out of the way. -/
theorem aheadOf_filter {P : TaskId → Bool} (hmem : c ∈ L) (hc : P c) (ht : P t) :
    aheadOf (L.filter P) c t = (aheadOf L c t).filter P := by
  obtain ⟨p, q, rfl, hp⟩ := List.eq_append_cons_of_mem hmem
  have hp' : c ∉ p.filter P := fun hmem => hp (List.mem_of_mem_filter hmem)
  have hstop : (fun a => !P a || decide (a ≠ t)) = fun a => decide (a ≠ t) := by
    funext a
    by_cases hat : a = t <;> simp [hat, ht]
  unfold aheadOf
  rw [List.filter_append, List.filter_cons_of_pos hc, othersOf_append hp, othersOf_append hp',
    ← List.filter_append, List.takeWhile_filter, hstop]

/-- A new task at the end of the list may come to lie ahead, and no other one. -/
theorem aheadOf_add (hn : n ∉ L) (hc : c ∈ L) (ht : t ∈ L) (hx : x ∈ aheadOf (L ++ [n]) c t) :
    x = n ∨ x ∈ aheadOf L c t := by
  by_cases hxn : x = n
  · exact .inl hxn
  · right
    have hne : ∀ a ∈ L, a ≠ n := fun a ha heq => hn (heq ▸ ha)
    have hold : (L ++ [n]).filter (· ≠ n) = L := by
      rw [List.filter_append, List.filter_eq_self.mpr (by simpa using hne)]
      simp
    rw [← hold,
      aheadOf_filter (List.mem_append_left _ hc) (by simp [hne c hc]) (by simp [hne t ht])]
    exact List.mem_filter.mpr ⟨hx, by simp [hxn]⟩

/-- A task removed from the list no longer lies ahead. -/
theorem aheadOf_erase (hL : L.Nodup) (hc : c ∈ L) (hdc : d ≠ c) (hdt : d ≠ t)
    (hx : x ∈ aheadOf (L.erase d) c t) : x ∈ aheadOf L c t := by
  rw [hL.erase_eq_filter, aheadOf_filter hc (by simp [hdc.symm]) (by simp [hdt.symm])] at hx
  exact List.mem_of_mem_filter hx

theorem othersOf_nodup (hL : L.Nodup) (hc : c ∈ L) : (othersOf L c).Nodup := by
  obtain ⟨p, q, rfl, hp⟩ := List.eq_append_cons_of_mem hc
  have hperm : (p ++ c :: q).Perm (c :: (q ++ p)) := List.perm_append_comm
  rw [othersOf_append hp]
  exact (List.nodup_cons.mp (hperm.nodup_iff.mp hL)).2

theorem takeWhile_ne_append {u v : List TaskId} (ht : t ∉ u) :
    (u ++ t :: v).takeWhile (· ≠ t) = u := by
  have hne : ∀ a ∈ u, decide (a ≠ t) = true := fun a ha => decide_eq_true fun heq => ht (heq ▸ ha)
  rw [List.takeWhile_append_of_pos hne]
  simp

/-- From a task that lies ahead on, the rest of the way lies ahead. -/
theorem aheadOf_split (hL : L.Nodup) (hc : c ∈ L) (ht : t ∈ L) (hc' : c' ∈ aheadOf L c t) :
    ∃ u, aheadOf L c t = u ++ c' :: aheadOf L c' t := by
  by_cases htc : t = c
  · -- the way is once round the list
    subst htc
    have ht' : t ∉ othersOf L t := fun hmem => ((mem_othersOf hL hc).mp hmem).2 rfl
    have hall : aheadOf L t t = othersOf L t := by
      refine List.takeWhile_eq_self_iff.mpr fun a ha => decide_eq_true ?_
      rintro rfl
      exact ht' ha
    rw [hall] at hc' ⊢
    obtain ⟨u, v, huv⟩ := List.append_of_mem hc'
    have hv : t ∉ v := fun hmem => ht' (by simp [huv, hmem])
    refine ⟨u, ?_⟩
    rw [huv, aheadOf, othersOf_next hL hc huv, takeWhile_ne_append hv]
  · obtain ⟨m, w, hmw, hm⟩ := List.eq_append_cons_of_mem ((mem_othersOf hL hc).mpr ⟨ht, htc⟩)
    have hway : aheadOf L c t = m := by rw [aheadOf, hmw, takeWhile_ne_append hm]
    rw [hway] at hc' ⊢
    obtain ⟨u, v, rfl⟩ := List.append_of_mem hc'
    have hv : t ∉ v := fun hmem => hm (by simp [hmem])
    have hothers : othersOf L c = u ++ c' :: (v ++ t :: w) := by simp [hmw]
    refine ⟨u, ?_⟩
    rw [aheadOf, othersOf_next hL hc hothers, List.append_assoc, List.cons_append,
      takeWhile_ne_append hv]

/-- Where `t` is ready, a search that stops before it stops ahead of it. -/
theorem mem_takeWhile_of_find? {P : TaskId → Bool} {l : List TaskId} (ht : P t) (hne : c ≠ t)
    (h : l.find? P = some c) : c ∈ l.takeWhile (· ≠ t) := by
  induction l with
  | nil => simp at h
  | cons a l ih =>
    by_cases ha : P a
    · obtain rfl : a = c := by simpa [ha] using h
      simp [hne]
    · have hat : a ≠ t := fun heq => ha (heq ▸ ht)
      have hmem := ih (by simpa [ha] using h)
      simpa [hat] using Or.inr hmem

/-- **The task selected lies ahead**, unless it is the one that waits. -/
theorem chosen_mem_aheadOf {state : TaskId → TaskState} (hL : L.Nodup) (hc : c ∈ L) (ht : t ∈ L)
    (hready : state t = .ready) (hne : chosen state L c ≠ t) :
    chosen state L c ∈ aheadOf L c t := by
  unfold chosen at hne ⊢
  cases hfind : (othersOf L c).find? (state · = .ready) with
  | none =>
    -- no other task is ready, so the one that waits is `c`
    rw [hfind] at hne
    have htc : t ≠ c := fun heq => hne heq.symm
    have := List.find?_eq_none.mp hfind t ((mem_othersOf hL hc).mpr ⟨ht, htc⟩)
    simp [hready] at this
  | some a =>
    rw [hfind] at hne
    exact mem_takeWhile_of_find? (by simp [hready]) hne hfind

/-! ### Turns -/

/-- Nothing has happened to the list: states, times and whatever else may have changed, and tasks
may have been created. -/
structure Sys.SameList (s s' : Sys) : Prop where
  first : s'.first = s.first
  current : s'.current = s.current
  taskToDestroy : s'.taskToDestroy = s.taskToDestroy
  destroyed : s'.destroyed = s.destroyed
  nextPid : s.nextPid ≤ s'.nextPid
  next : ∀ t < s.nextPid, s'.next t = s.next t

/-- A task that has not been in the list before. -/
structure Sys.New (s : Sys) (n : TaskId) : Prop where
  lt : n < s.nextPid
  next : s.next n = none
  not_linked : ¬ Linked s.next s.first n
  not_destroyed : n ∉ s.destroyed

/-- The system, and the tasks that `scheduler_schedule` has selected, the latest first. -/
structure Rota where
  sys : Sys
  selected : List TaskId

/-- One step. -/
inductive Turn : Rota → Rota → Prop
  | schedule {s s' : Sys} {c' : TaskId} {selected : List TaskId} :
      schedulerSchedule s = some s' → s'.current = some c' →
      Turn ⟨s, selected⟩ ⟨s', c' :: selected⟩
  | add {s s' : Sys} {n : TaskId} {selected : List TaskId} :
      s.New n → schedulerAdd s (some n) = some s' → Turn ⟨s, selected⟩ ⟨s', selected⟩
  | other {s s' : Sys} {selected : List TaskId} :
      s.SameList s' → Turn ⟨s, selected⟩ ⟨s', selected⟩

/-- The task waits for its turn: it is in the list, ready, and has not been selected. -/
structure Rota.Waits (r : Rota) (t : TaskId) : Prop where
  linked : Linked r.sys.next r.sys.first t
  ready : r.sys.state t = .ready
  unselected : t ∉ r.selected

/-- On the way from the current task `c` to `t` there is no task of the log. -/
structure Lap (s : Sys) (L : List TaskId) (c t : TaskId) (log : List TaskId) : Prop where
  list : RunList s L c
  nodup : log.Nodup
  passed : ∀ x ∈ log, x ∉ aheadOf L c t
  known : ∀ x ∈ log, x ∈ L ∨ x ∈ s.destroyed

theorem Lap.start (h : RunList s L c) : Lap s L c t [c] where
  list := h
  nodup := List.nodup_singleton c
  passed := by
    intro x hx hmem
    obtain rfl := List.mem_singleton.mp hx
    have hothers := (List.takeWhile_sublist _).subset hmem
    exact ((mem_othersOf h.chain.nodup h.mem).mp hothers).2 rfl
  known x hx := .inl (List.mem_singleton.mp hx ▸ h.mem)

theorem Lap.schedule (h : Lap s L c t log) (hs : Scheduled s s' L c c')
    (ht : t ∈ s.remaining L) (hready : s.state t = .ready) (hne : c' ≠ t) :
    Lap s' (s.remaining L) c' t (c' :: log) := by
  have hnodup : (s.remaining L).Nodup := hs.chain.nodup
  have hc := h.list.current_remaining
  have hwoken : s.woken (s.remaining L) t = .ready := by
    unfold Sys.woken
    split_ifs
    · rfl
    · exact hready
  have hahead : c' ∈ aheadOf (s.remaining L) c t := by
    rw [hs.choice] at hne ⊢
    exact chosen_mem_aheadOf hnodup hc ht hwoken hne
  -- the way has become shorter by the task destroyed
  have hsub : ∀ x ∈ aheadOf (s.remaining L) c t, x ∈ aheadOf L c t := by
    intro x hx
    unfold Sys.remaining at hx ht
    cases hd : s.taskToDestroy with
    | none =>
      rw [hd] at hx
      exact hx
    | some d =>
      rw [hd] at hx ht
      have hdt : d ≠ t := by
        rintro rfl
        exact h.list.chain.nodup.not_mem_erase ht
      exact aheadOf_erase h.list.chain.nodup h.list.mem (h.list.doomed d hd).2 hdt hx
  obtain ⟨u, hu⟩ := aheadOf_split hnodup hc ht hahead
  have hway : (u ++ c' :: aheadOf (s.remaining L) c' t).Nodup := by
    rw [← hu]
    exact (othersOf_nodup hnodup hc).sublist (List.takeWhile_sublist _)
  have hrest : c' ∉ aheadOf (s.remaining L) c' t :=
    (List.nodup_cons.mp (List.nodup_append.mp hway).2.1).1
  refine ⟨hs.runList h.list, ?_, ?_, ?_⟩
  · exact List.nodup_cons.mpr ⟨fun hmem => h.passed c' hmem (hsub c' hahead), h.nodup⟩
  · intro x hx hmem
    obtain rfl | hx := List.mem_cons.mp hx
    · exact hrest hmem
    · exact h.passed x hx (hsub x (by simp [hu, hmem]))
  · intro x hx
    rw [hs.destroyed, List.mem_append, Option.mem_toList, h.list.mem_remaining]
    obtain rfl | hx := List.mem_cons.mp hx
    · exact .inl (h.list.mem_remaining.mp (hs.runList h.list).mem)
    · have := h.known x hx
      tauto

theorem Lap.add (h : Lap s L c t log) (ht : t ∈ L) (hnew : s.New n) :
    Lap { s with next := appended s L n } (L ++ [n]) c t log := by
  have hn : n ∉ L := fun hmem => hnew.not_linked (h.list.chain.linked_iff.mpr hmem)
  refine ⟨h.list.add hnew.lt hn hnew.next, h.nodup, fun x hx hmem => ?_, fun x hx => ?_⟩
  · obtain rfl | hahead := aheadOf_add hn h.list.mem ht hmem
    · exact (h.known x hx).elim hn hnew.not_destroyed
    · exact h.passed x hx hahead
  · exact (h.known x hx).imp_left (List.mem_append_left _)

theorem Lap.other (h : Lap s L c t log) (hsame : s.SameList s') : Lap s' L c t log where
  list := by
    refine ⟨?_, fun x hx => (h.list.lt x hx).trans_le hsame.nextPid, ?_, h.list.mem, ?_⟩
    · rw [hsame.first]
      exact h.list.chain.congr fun x hx => hsame.next x (h.list.lt x hx)
    · rw [hsame.current]
      exact h.list.current
    · rw [hsame.taskToDestroy]
      exact h.list.doomed
  nodup := h.nodup
  passed := h.passed
  known := by
    rw [hsame.destroyed]
    exact h.known

/-- **One turn.** -/
theorem Lap.turn {r r' : Rota} {c₀ : TaskId} (h : Lap r.sys L c t (r.selected ++ [c₀]))
    (hwaits : r.Waits t) (hturn : Turn r r') (hwaits' : r'.Waits t) :
    ∃ L' c', Lap r'.sys L' c' t (r'.selected ++ [c₀]) := by
  have ht : t ∈ L := h.list.chain.linked_iff.mp hwaits.linked
  cases hturn with
  | schedule hschedule hcurrent =>
    obtain ⟨s', c', heq, hs⟩ := schedulerSchedule_spec h.list
    obtain rfl := Option.some.inj (hschedule.symm.trans heq)
    obtain rfl := Option.some.inj (hcurrent.symm.trans hs.current)
    have ht' := hs.chain.linked_iff.mp hwaits'.linked
    have hne := fun heq => hwaits'.unselected (List.mem_cons.mpr (.inl (Eq.symm heq)))
    exact ⟨_, _, h.schedule hs ht' hwaits.ready hne⟩
  | add hnew hadd =>
    have hn := fun hmem => hnew.not_linked (h.list.chain.linked_iff.mpr hmem)
    obtain rfl := Option.some.inj (hadd.symm.trans (schedulerAdd_spec h.list hn hnew.next).1)
    exact ⟨_, _, h.add ht hnew⟩
  | other hsame => exact ⟨_, _, h.other hsame⟩

/-- **Round robin.**  As long as a task waits, in the run list, ready and unselected, no task is
selected twice, and neither is the task that was current at the beginning. -/
theorem roundRobin_no_overtaking (h : RunList s L c) {r : Rota}
    (hrun : ReflTransGen (fun r r' => r.Waits t ∧ Turn r r' ∧ r'.Waits t) ⟨s, []⟩ r) :
    (r.selected ++ [c]).Nodup := by
  obtain ⟨L', c', hlap⟩ : ∃ L' c', Lap r.sys L' c' t (r.selected ++ [c]) := by
    induction hrun with
    | refl => exact ⟨L, c, .start h⟩
    | tail _ hstep ih =>
      obtain ⟨L', c', hlap⟩ := ih
      exact hlap.turn hstep.1 hstep.2.1 hstep.2.2
  exact hlap.nodup

/-- The tasks 0 to 3, of which 0 runs, and a task 4 that has been created. -/
def fourTasks : Sys :=
  { schedulerInit fun _ => 0 with
    nextPid := 5
    next := fun t => if t < 3 then some (t + 1) else none }

/-- Task 1 has got control. -/
def taskOne : Sys := (schedulerSchedule fourTasks).get (by decide)

/-- Task 4 has been added. -/
def taskAdded : Sys := (schedulerAdd taskOne (some 4)).get (by decide)

/-- Task 2 has got control. -/
def taskTwo : Sys := (schedulerSchedule taskAdded).get (by decide)

/-- Task 3 waits while 1 and then 2 get control. -/
theorem roundRobin_no_overtaking_example :
    ∃ r : Rota, r.Waits 3 ∧ r.selected = [2, 1] ∧ (r.selected ++ [0]).Nodup := by
  have hlist : RunList fourTasks [0, 1, 2, 3] 0 :=
    ⟨⟨rfl, rfl, rfl, rfl, rfl⟩, by decide, rfl, by decide, nofun⟩
  have hwaits : Rota.Waits ⟨fourTasks, []⟩ 3 :=
    ⟨⟨[0, 1, 2, 3], hlist.chain, by decide⟩, rfl, by decide⟩
  have hchain₁ : Chain taskOne.next taskOne.first [0, 1, 2, 3] := ⟨rfl, rfl, rfl, rfl, rfl⟩
  have hwaits₁ : Rota.Waits ⟨taskOne, [1]⟩ 3 := ⟨⟨_, hchain₁, by decide⟩, rfl, by decide⟩
  have hchain₂ : Chain taskAdded.next taskAdded.first [0, 1, 2, 3, 4] :=
    ⟨rfl, rfl, rfl, rfl, rfl, rfl⟩
  have hwaits₂ : Rota.Waits ⟨taskAdded, [1]⟩ 3 := ⟨⟨_, hchain₂, by decide⟩, rfl, by decide⟩
  have hchain₃ : Chain taskTwo.next taskTwo.first [0, 1, 2, 3, 4] :=
    ⟨rfl, rfl, rfl, rfl, rfl, rfl⟩
  have hwaits₃ : Rota.Waits ⟨taskTwo, [2, 1]⟩ 3 := ⟨⟨_, hchain₃, by decide⟩, rfl, by decide⟩
  have hnew : taskOne.New 4 := by
    refine ⟨by decide, rfl, ?_, by decide⟩
    rw [hchain₁.linked_iff]
    decide
  have hturn₁ : Turn ⟨fourTasks, []⟩ ⟨taskOne, [1]⟩ := .schedule (Option.some_get _).symm rfl
  have hturn₂ : Turn ⟨taskOne, [1]⟩ ⟨taskAdded, [1]⟩ := .add hnew (Option.some_get _).symm
  have hturn₃ : Turn ⟨taskAdded, [1]⟩ ⟨taskTwo, [2, 1]⟩ := .schedule (Option.some_get _).symm rfl
  refine ⟨_, hwaits₃, rfl, roundRobin_no_overtaking (t := 3) hlist ?_⟩
  exact .tail (.tail (.single ⟨hwaits, hturn₁, hwaits₁⟩) ⟨hwaits₁, hturn₂, hwaits₂⟩)
    ⟨hwaits₂, hturn₃, hwaits₃⟩

end Bethany
