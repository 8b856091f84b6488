import Bethany.Sync.Runs
import Bethany.Library.Runs

/-!
# Semaphores count

`semaphore_signal` either increments the counter or wakes the first waiter, which never touches
the counter.  Both ways together lose no signal and deliver none twice.

* `Tally`: the signals, the completed waits and the returned waits of one semaphore, as a
  history of the run, with the tasks that have been woken and not yet got control;
* `Counting.Inv`: the balance between them and the counter;
* `semaphore_conservation`: the balance holds in every run of `kmain`.
-/

namespace Bethany

open Machine LinkedList Relation Runs

/-- The history of a semaphore. -/
structure Tally where
  signals : ℕ
  completed : ℕ
  returned : ℕ
  delivered : Finset TaskId

/-- The history after the part of a call that the caller carries out: a wait that takes a unit
off the counter is complete, and so is the wait of a task that `semaphore_signal` wakes. -/
def tallyCall (k : ℕ) (x : Tally) (s : Sys) : Op → Tally
  | .semaphoreTryWait k' =>
    if k' = k ∧ (semaphoreTryWait s k').1 then
      { x with completed := x.completed + 1, returned := x.returned + 1 }
    else x
  | .semaphoreWait k' =>
    if k' = k ∧ s.count k' > 0 then { x with completed := x.completed + 1 } else x
  | .semaphoreSignal k' =>
    if k' = k then
      match s.waiters (.semaphore k') with
      | none => { x with signals := x.signals + 1 }
      | some t => { x with
          signals := x.signals + 1
          completed := x.completed + 1
          delivered := insert t x.delivered }
    else x
  | _ => x

/-- The history after a call has returned to the task `t`. -/
def tallyReturn (k : ℕ) (x : Tally) (returned : Option Op) (t : Option TaskId) : Tally :=
  if returned = some (.semaphoreWait k) then
    { x with returned := x.returned + 1, delivered := x.delivered \ t.toFinset }
  else x

/-- The history after a step of the world. -/
def tallyAfter (k : ℕ) (x : Tally) (w : World) (op : Op) (w' : World) : Tally :=
  tallyReturn k (tallyCall k x w.sys op) (w.returned op w') w'.sys.current

/-- A run with the history of a semaphore. -/
structure Counting where
  world : World
  tally : Tally

def Counting.boot (initial : ℕ → ℕ) : Counting := ⟨World.boot initial, ⟨0, 0, 0, ∅⟩⟩

/-- A step of `kmain`. -/
def Counting.Step (k : ℕ) (x y : Counting) : Prop :=
  ∃ op, x.world.Legal op ∧ x.world.BootStays op ∧ x.world.exec op = some y.world ∧
    y.tally = tallyAfter k x.tally x.world op y.world

/-- The invariant of runs with the history of the semaphore `k`. -/
structure Counting.Inv (k n : ℕ) (x : Counting) (L : List TaskId) (W : WaitObj → List TaskId)
    (c : TaskId) : Prop where
  kmain : x.world.Kmain L W c
  balance : n + x.tally.signals < 2 ^ 64 →
    x.world.sys.count k + x.tally.completed = n + x.tally.signals
  returned : x.tally.returned + x.tally.delivered.card = x.tally.completed
  delivered : ∀ t ∈ x.tally.delivered,
    x.world.inside t = some (.semaphoreWait k) ∧ t ∉ W (.semaphore k)
  inside : ∀ t, x.world.inside t = some (.semaphoreWait k) →
    t ∈ W (.semaphore k) ∨ t ∈ x.tally.delivered

variable {x y : Counting} {w w' : World} {L L' : List TaskId} {W W' : WaitObj → List TaskId}
  {c c' t : TaskId} {op : Op} {initial : ℕ → ℕ} {s s' : Sys} {k k' n : ℕ} {g : Tally}

/-! ### What a call does to the counter -/

/-- The scheduler leaves the semaphores alone. -/
theorem Op.Outcome.count (hout : op.Outcome s L W c s' L' c') :
    s'.count = (op.before s L W c).count := by
  cases hout with
  | returns hy => rfl
  | yields hy hs => rw [hs.frame]

/-- What the caller does to the counter and to the history of the semaphore `k`: nothing, or a
wait takes a unit, or a signal adds one, or it wakes the first waiter instead. -/
inductive CountStep (k : ℕ) (s : Sys) (g : Tally) (op : Op) : ℕ → Tally → Prop
  | other (hop : op ≠ .semaphoreSignal k) (hwait : op = .semaphoreWait k → s.count k = 0) :
      CountStep k s g op (s.count k) g
  | wait (hop : op = .semaphoreWait k) (hpos : 0 < s.count k) :
      CountStep k s g op (s.count k - 1) { g with completed := g.completed + 1 }
  | tryWait (hop : op = .semaphoreTryWait k) (hpos : 0 < s.count k) :
      CountStep k s g op (s.count k - 1)
        { g with completed := g.completed + 1, returned := g.returned + 1 }
  | signal (hop : op = .semaphoreSignal k) (hnull : s.waiters (.semaphore k) = none) :
      CountStep k s g op (u64 (s.count k + 1)) { g with signals := g.signals + 1 }
  | handOn (t : TaskId) (hop : op = .semaphoreSignal k)
      (hwaiter : s.waiters (.semaphore k) = some t) :
      CountStep k s g op (s.count k) { g with
        signals := g.signals + 1, completed := g.completed + 1, delivered := insert t g.delivered }

/-- A call that does nothing to the semaphore `k`. -/
theorem CountStep.same {n : ℕ} {g' : Tally} (hcount : n = s.count k) (htally : g' = g)
    (hop : op ≠ .semaphoreSignal k) (hwait : op = .semaphoreWait k → s.count k = 0) :
    CountStep k s g op n g' := by
  rw [hcount, htally]
  exact .other hop hwait

theorem countStep_wait (k k' : ℕ) (s : Sys) (g : Tally) :
    CountStep k s g (.semaphoreWait k') (((Op.semaphoreWait k').before s L W c).count k)
      (tallyCall k g s (.semaphoreWait k')) := by
  show CountStep k s g _ (((Op.waitOn (.semaphore k')).before s L W c).count k) _
  rw [before_waitOn]
  by_cases hk : k' = k
  · subst hk
    by_cases hzero : Blocks s (.semaphore k')
    · have hcount : s.count k' = 0 := hzero
      rw [if_pos hzero]
      exact .same rfl (by simp [tallyCall, hcount]) nofun fun _ => hcount
    · have hpos : 0 < s.count k' := Nat.pos_of_ne_zero hzero
      have hstep := CountStep.wait (g := g) rfl hpos
      rw [if_neg hzero]
      convert hstep using 1
      · exact Function.update_self ..
      · simp [tallyCall, hpos]
  · refine .same ?_ (by simp [tallyCall, hk]) nofun fun heq => absurd (Op.semaphoreWait.inj heq) hk
    split_ifs
    · rfl
    · exact Function.update_of_ne (Ne.symm hk) _ _

theorem countStep_tryWait (k k' : ℕ) (s : Sys) (g : Tally) :
    CountStep k s g (.semaphoreTryWait k') ((semaphoreTryWait s k').2.count k)
      (tallyCall k g s (.semaphoreTryWait k')) := by
  by_cases hk : k' = k
  · subst hk
    by_cases hzero : s.count k' = 0
    · apply CountStep.same
      · simp [semaphoreTryWait, hzero]
      · simp [tallyCall, semaphoreTryWait, hzero]
      · exact nofun
      · exact nofun
    · have hstep := CountStep.tryWait (g := g) rfl (Nat.pos_of_ne_zero hzero)
      convert hstep using 1
      · simp [semaphoreTryWait, hzero]
      · simp [tallyCall, semaphoreTryWait, hzero]
  · refine .same ?_ (by simp [tallyCall, hk]) nofun nofun
    unfold semaphoreTryWait
    split_ifs
    · rfl
    · exact Function.update_of_ne (Ne.symm hk) _ _

theorem countStep_signal (k k' : ℕ) (s : Sys) (g : Tally) :
    CountStep k s g (.semaphoreSignal k') ((semaphoreSignal s k').count k)
      (tallyCall k g s (.semaphoreSignal k')) := by
  by_cases hk : k' = k
  · subst hk
    cases hw : s.waiters (.semaphore k') with
    | none =>
      have hstep := CountStep.signal (g := g) rfl hw
      convert hstep using 1
      · simp [semaphoreSignal, hw]
      · simp [tallyCall, hw]
    | some t =>
      have hstep := CountStep.handOn (g := g) t rfl hw
      convert hstep using 1
      · simp [semaphoreSignal, hw, wakeFirst]
      · simp [tallyCall, hw]
  · refine .same ?_ (by simp [tallyCall, hk]) (fun heq => hk (Op.semaphoreSignal.inj heq)) nofun
    unfold semaphoreSignal
    split
    · rfl
    · exact Function.update_of_ne (Ne.symm hk) _ _

theorem countStep (k : ℕ) (s : Sys) (g : Tally) (op : Op) :
    CountStep k s g op ((op.before s L W c).count k) (tallyCall k g s op) := by
  cases op using Op.waitOn_cases with
  | waitOn o =>
    cases o with
    | semaphore k' => exact countStep_wait k k' s g
    | _ =>
      refine .same ?_ rfl nofun nofun
      rw [before_waitOn]
      split_ifs <;> rfl
  | create taskMemory stackMemory =>
    exact .same (by cases taskMemory <;> cases stackMemory <;> rfl) rfl nofun nofun
  | add task => exact .same (by cases task <;> rfl) rfl nofun nofun
  | mutexTryLock m =>
    refine .same ?_ rfl nofun nofun
    show (mutexTryLock s m).2.count k = s.count k
    unfold mutexTryLock
    split_ifs <;> rfl
  | mutexUnlock m =>
    refine .same ?_ rfl nofun nofun
    show (mutexUnlock s m).count k = s.count k
    unfold mutexUnlock
    split <;> rfl
  | semaphoreTryWait k' => exact countStep_tryWait k k' s g
  | semaphoreSignal k' => exact countStep_signal k k' s g
  | _ => exact .same rfl rfl nofun nofun

/-! ### The invariant -/

theorem Counting.Inv.boot : (Counting.boot initial).Inv k (initial k) [0] (fun _ => []) 0 where
  kmain := World.Kmain.boot
  balance _ := rfl
  returned := rfl
  delivered _ ht := absurd ht (Finset.notMem_empty _)
  inside _ h := absurd h nofun

/-- A task that has been woken and has not got control is not the caller. -/
theorem Counting.Inv.ne_of_delivered (h : x.Inv k n L W c) (ht : t ∈ x.tally.delivered) :
    t ≠ c := by
  rintro rfl
  exact absurd (h.kmain.inv.outside.symm.trans (h.delivered t ht).1) nofun

/-- `semaphore_wait` returns at once when the counter is not zero, or later to a task that has
been woken by a signal. -/
theorem Counting.Inv.return (h : x.Inv k n L W c)
    (hout : op.Outcome x.world.sys L W c w'.sys L' c')
    (hk : w'.Kmain L' (op.waits x.world.sys W c) c') :
    (x.world.returned op w' = some (.semaphoreWait k) ↔
      (op = .semaphoreWait k ∧ 0 < x.world.sys.count k ∧ c' = c) ∨
        (op.Yields x.world.sys ∧ c' ≠ c ∧ c' ∈ x.tally.delivered)) := by
  have hcurrent := h.kmain.inv.sys.runList.current
  have hcurrent' := hk.inv.sys.runList.current
  unfold World.returned
  rw [hcurrent, hcurrent']
  by_cases hcc : c = c'
  · subst hcc
    rw [if_pos rfl]
    simp only [Option.some.injEq, ne_eq, not_true_eq_false, false_and, and_false, or_false,
      and_true]
    refine ⟨?_, fun hop => hop.1⟩
    rintro rfl
    refine ⟨rfl, Nat.pos_of_ne_zero fun hzero => ?_⟩
    apply not_mem_of_control hk (.semaphore k)
    exact mem_waits_waitOn (o := .semaphore k) hzero
  · have hy : op.Yields x.world.sys := hout.yields_of_ne hcc
    rw [if_neg fun heq => hcc (Option.some_injective _ heq), Option.bind_some]
    constructor
    · intro hinside
      refine .inr ⟨hy, Ne.symm hcc, (h.inside c' hinside).resolve_left fun hmem => ?_⟩
      exact not_mem_of_control hk (.semaphore k) (hy.mem_waits nofun hmem)
    · rintro (⟨-, -, heq⟩ | ⟨-, -, hmem⟩)
      · exact absurd heq.symm hcc
      · exact (h.delivered c' hmem).1

/-- The balance when the caller has done its part of the call. -/
theorem CountStep.balance {count : ℕ} {g' : Tally} (hstep : CountStep k s g op count g')
    (hbalance : n + g.signals < 2 ^ 64 → s.count k + g.completed = n + g.signals)
    (hlt : n + g'.signals < 2 ^ 64) : count + g'.completed = n + g'.signals := by
  cases hstep with
  | other hop hwait => exact hbalance hlt
  | wait hop hpos =>
    have := hbalance hlt
    show s.count k - 1 + (g.completed + 1) = n + g.signals
    omega
  | tryWait hop hpos =>
    have := hbalance hlt
    show s.count k - 1 + (g.completed + 1) = n + g.signals
    omega
  | signal hop hnull =>
    change n + (g.signals + 1) < 2 ^ 64 at hlt
    have := hbalance (by omega)
    show u64 (s.count k + 1) + g.completed = n + (g.signals + 1)
    rw [u64_of_lt (by omega)]
    omega
  | handOn t hop hwaiter =>
    change n + (g.signals + 1) < 2 ^ 64 at hlt
    have := hbalance (by omega)
    show s.count k + (g.completed + 1) = n + (g.signals + 1)
    omega

/-- The tasks that are woken by the end of a call: those woken before, and a first waiter. -/
theorem Counting.Inv.delivered_call (h : x.Inv k n L W c)
    (ht : t ∈ (tallyCall k x.tally x.world.sys op).delivered) :
    x.world.inside t = some (.semaphoreWait k) ∧ t ∉ op.waits x.world.sys W c (.semaphore k) ∧
      t ≠ c := by
  have hold : t ∈ x.tally.delivered → x.world.inside t = some (.semaphoreWait k) ∧
      t ∉ op.waits x.world.sys W c (.semaphore k) ∧ t ≠ c := by
    intro hmem
    have hne := h.ne_of_delivered hmem
    refine ⟨(h.delivered t hmem).1, fun hwaits => ?_, hne⟩
    rcases mem_waits hwaits with hwaits | ⟨heq, -⟩
    · exact (h.delivered t hmem).2 hwaits
    · exact hne heq
  have hstep := countStep (L := L) (W := W) (c := c) k x.world.sys x.tally op
  generalize tallyCall k x.tally x.world.sys op = g' at hstep ht
  generalize (op.before x.world.sys L W c).count k = count at hstep
  cases hstep with
  | other hop hwait => exact hold ht
  | wait hop hpos => exact hold ht
  | tryWait hop hpos => exact hold ht
  | signal hop hnull => exact hold ht
  | handOn t' hop hwaiter =>
    rcases Finset.mem_insert.mp ht with rfl | hmem
    · have hwaits := h.kmain.inv.sys.waits
      rcases hwaits.waiters_cases (.semaphore k) with ⟨hnull, -⟩ | ⟨t', l, hsome, hcons⟩
      · exact absurd (hnull.symm.trans hwaiter) nofun
      · obtain rfl := Option.some_injective _ (hsome.symm.trans hwaiter)
        have hmem : t' ∈ W (.semaphore k) := by
          rw [hcons]
          exact List.mem_cons_self
        obtain ⟨op', hinside, htarget⟩ := h.kmain.inv.inside _ _ hmem
        refine ⟨?_, ?_, ?_⟩
        · rw [hinside, target_eq_some.mp htarget]
          rfl
        · subst hop
          show t' ∉ Function.update W (.semaphore k) (W (.semaphore k)).tail (.semaphore k)
          rw [Function.update_self, hcons, List.tail_cons]
          have hnodup := (h.kmain.inv.sys.waits.chain (.semaphore k)).nodup
          rw [hcons] at hnodup
          exact (List.nodup_cons.mp hnodup).1
        · rintro rfl
          exact not_mem_of_control h.kmain (.semaphore k) hmem
    · exact hold hmem

/-- The number of waits that the caller's part of the call completes and returns. -/
theorem Counting.Inv.returned_call (h : x.Inv k n L W c) (op : Op) :
    (tallyCall k x.tally x.world.sys op).returned +
      (tallyCall k x.tally x.world.sys op).delivered.card +
      (if op = .semaphoreWait k ∧ 0 < x.world.sys.count k then 1 else 0) =
      (tallyCall k x.tally x.world.sys op).completed := by
  have hreturned := h.returned
  have hstep := countStep (L := L) (W := W) (c := c) k x.world.sys x.tally op
  generalize tallyCall k x.tally x.world.sys op = g' at hstep ⊢
  generalize (op.before x.world.sys L W c).count k = count at hstep
  cases hstep with
  | other hop hwait =>
    rw [if_neg fun hw => absurd (hwait hw.1) (Nat.ne_of_gt hw.2)]
    exact hreturned
  | wait hop hpos =>
    rw [if_pos ⟨hop, hpos⟩]
    show x.tally.returned + x.tally.delivered.card + 1 = x.tally.completed + 1
    omega
  | tryWait hop hpos =>
    have hne : op ≠ .semaphoreWait k := by
      rw [hop]
      nofun
    rw [if_neg fun hw => hne hw.1]
    show x.tally.returned + 1 + x.tally.delivered.card = x.tally.completed + 1
    omega
  | signal hop hnull =>
    have hne : op ≠ .semaphoreWait k := by
      rw [hop]
      nofun
    rw [if_neg fun hw => hne hw.1]
    exact hreturned
  | handOn t hop hwaiter =>
    have hne : op ≠ .semaphoreWait k := by
      rw [hop]
      nofun
    rw [if_neg fun hw => hne hw.1]
    -- the task is still on the list, so it has not been woken before
    have hfresh : t ∉ x.tally.delivered := fun hmem => (h.delivered t hmem).2 (by
      rw [(h.kmain.inv.sys.waits.chain (.semaphore k)).head_eq] at hwaiter
      exact List.mem_of_mem_head? hwaiter)
    show x.tally.returned + (insert t x.tally.delivered).card + 0 = x.tally.completed + 1
    rw [Finset.card_insert_of_notMem hfresh]
    omega

/-- A task that has been woken stays so until the call returns, and a first waiter that
`semaphore_signal` wakes joins it. -/
theorem mem_delivered_call (s : Sys) (op : Op) (ht : t ∈ g.delivered ∨
    op.handsOn = some (.semaphore k) ∧ s.waiters (.semaphore k) = some t) :
    t ∈ (tallyCall k g s op).delivered := by
  have hstep := countStep (L := []) (W := fun _ => []) (c := 0) k s g op
  generalize tallyCall k g s op = g' at hstep ⊢
  generalize (op.before s [] (fun _ => []) 0).count k = count at hstep
  have hhands : op.handsOn = some (.semaphore k) → op = .semaphoreSignal k := by
    intro hhands
    cases op with
    | semaphoreSignal k' =>
      obtain rfl := WaitObj.semaphore.inj (Option.some_injective _ hhands)
      rfl
    | mutexUnlock m => exact absurd (Option.some_injective _ hhands) nofun
    | _ => exact absurd hhands nofun
  cases hstep with
  | handOn t' hop hwaiter =>
    refine Finset.mem_insert.mpr (ht.symm.imp_left fun hw => ?_)
    exact Option.some_injective _ (hw.2.symm.trans hwaiter)
  | signal hop hnull =>
    exact ht.resolve_right fun hw => absurd (hnull.symm.trans hw.2) nofun
  | wait hop hpos =>
    subst hop
    exact ht.resolve_right fun hw => absurd hw.1 nofun
  | tryWait hop hpos =>
    subst hop
    exact ht.resolve_right fun hw => absurd hw.1 nofun
  | other hop hwait => exact ht.resolve_right fun hw => hop (hhands hw.1)

/-- **One step keeps the balance.** -/
theorem Counting.Inv.step (h : x.Inv k n L W c) (hstep : Counting.Step k x y) :
    ∃ L' W' c', y.Inv k n L' W' c' := by
  obtain ⟨op, hlegal, hstays, heq, htally⟩ := hstep
  obtain ⟨L', c', hout, hk⟩ := h.kmain.next hlegal hstays heq
  have hcurrent := h.kmain.inv.sys.runList.current
  have hcurrent' := hk.inv.sys.runList.current
  have hret := h.return hout hk
  have hbalance := (countStep (L := L) (W := W) (c := c) k x.world.sys x.tally op).balance h.balance
  have hreturned := h.returned_call op
  have hyields : op = .semaphoreWait k → op.Yields x.world.sys → x.world.sys.count k = 0 := by
    rintro rfl hy
    exact (yields_waitOn (o := .semaphore k)).mp hy
  -- the tasks woken and not yet in control, before and after the call returns
  have hdelivered : ∀ t, t ∈ y.tally.delivered ↔
      t ∈ (tallyCall k x.tally x.world.sys op).delivered ∧ t ≠ c' := by
    intro t
    rw [htally]
    unfold tallyAfter tallyReturn
    split_ifs with hr
    · rw [hcurrent', Option.toFinset_some, Finset.mem_sdiff, Finset.mem_singleton]
    · refine ⟨fun ht => ⟨ht, ?_⟩, And.left⟩
      rintro rfl
      obtain ⟨hinside, -, hne⟩ := h.delivered_call ht
      apply hr
      unfold World.returned
      rw [hcurrent, hcurrent', if_neg fun heq => hne (Option.some_injective _ heq).symm]
      exact hinside
  refine ⟨L', _, c', hk, ?_, ?_, fun t ht => ?_, fun t ht => ?_⟩
  · rw [htally, hout.count]
    unfold tallyAfter tallyReturn
    split_ifs <;> exact hbalance
  · rw [htally]
    unfold tallyAfter tallyReturn
    split_ifs with hr
    · show (tallyCall k x.tally x.world.sys op).returned + 1 +
        ((tallyCall k x.tally x.world.sys op).delivered \ _).card =
          (tallyCall k x.tally x.world.sys op).completed
      rw [hcurrent', Option.toFinset_some, Finset.sdiff_singleton_eq_erase]
      rcases hret.mp hr with ⟨hop, hpos, rfl⟩ | ⟨hy, -, hmem⟩
      · rw [if_pos ⟨hop, hpos⟩] at hreturned
        rw [Finset.erase_eq_of_notMem fun hmem => (h.delivered_call hmem).2.2 rfl]
        omega
      · rw [if_neg fun hw => absurd (hyields hw.1 hy) (Nat.ne_of_gt hw.2)] at hreturned
        have := Finset.card_erase_add_one (mem_delivered_call (k := k) x.world.sys op (.inl hmem))
        omega
    · rw [if_neg] at hreturned
      · exact hreturned
      · rintro ⟨hop, hpos⟩
        refine hr (hret.mpr (.inl ⟨hop, hpos, ?_⟩))
        by_contra hne
        exact absurd (hyields hop (hout.yields_of_ne (Ne.symm hne))) (Nat.ne_of_gt hpos)
  · obtain ⟨hmem, hne'⟩ := (hdelivered t).mp ht
    obtain ⟨hinside, hwaits, hne⟩ := h.delivered_call hmem
    refine ⟨?_, hwaits⟩
    rw [World.inside_of_ne heq]
    · exact hinside
    · exact fun heq => hne (Option.some_injective _ (heq.symm.trans hcurrent))
    · exact fun heq => hne' (Option.some_injective _ (heq.symm.trans hcurrent'))
  · rcases World.inside_after heq ht with hold | ⟨hc, hc', rfl⟩
    · have hne' : t ≠ c' := by
        rintro rfl
        exact absurd (hk.inv.outside.symm.trans ht) nofun
      have hwoken := mem_delivered_call (t := t) (k := k) (g := x.tally) x.world.sys op
      rcases h.inside t hold with hmem | hmem
      · refine (mem_waits_or_woken h.kmain.inv.sys.waits hmem nofun nofun).imp_right ?_
        exact fun hw => (hdelivered t).mpr ⟨hwoken (.inr hw), hne'⟩
      · exact .inr ((hdelivered t).mpr ⟨hwoken (.inl hmem), hne'⟩)
    · -- the caller has lost control, so it waits
      left
      obtain rfl := Option.some_injective _ (hcurrent.symm.trans hc)
      have hy := hout.yields_of_ne fun heq => hc' (heq ▸ hcurrent')
      exact mem_waits_waitOn (o := .semaphore k) ((yields_waitOn (o := .semaphore k)).mp hy)

theorem Counting.Inv.run (hrun : ReflTransGen (Counting.Step k) (Counting.boot initial) x) :
    ∃ L W c, x.Inv k (initial k) L W c := by
  induction hrun with
  | refl => exact ⟨_, _, _, Counting.Inv.boot⟩
  | tail _ hstep ih =>
    obtain ⟨L, W, c, h⟩ := ih
    exact h.step hstep

/-- **Semaphores conserve their units.**  In every run of `kmain` with fewer signals than would
overflow the counter, at every point the counter and the completed waits, among them those of
tasks that a signal has woken, make up the initial count and the signals; while tasks wait the
counter is 0; and no more waits have returned than there were units. -/
theorem semaphore_conservation
    (hrun : ReflTransGen (Counting.Step k) (Counting.boot initial) x)
    (hlt : x.tally.signals < 2 ^ 64 - initial k) :
    x.world.sys.count k + x.tally.completed = initial k + x.tally.signals ∧
      (x.world.sys.waiters (.semaphore k) ≠ none → x.world.sys.count k = 0) ∧
      x.tally.returned ≤ initial k + x.tally.signals := by
  obtain ⟨L, W, c, h⟩ := Counting.Inv.run hrun
  have hbalance := h.balance (by omega)
  refine ⟨hbalance, fun hne => h.kmain.inv.sys.waits.semaphore k fun hnil => hne ?_, ?_⟩
  · rw [(h.kmain.inv.sys.waits.chain (.semaphore k)).head_eq, hnil]
    rfl
  · have := h.returned
    omega

/-- The state after a call, with the history after it. -/
def Counting.next (k : ℕ) (x : Counting) (op : Op) : Option Counting :=
  (x.world.exec op).map fun w => ⟨w, tallyAfter k x.tally x.world op w⟩

theorem Counting.step_of_next (hnext : x.next k op = some y)
    (h : x.world.Legal op ∧ x.world.BootStays op) : x.Step k y := by
  obtain ⟨w, hexec, rfl⟩ := Option.map_eq_some_iff.mp hnext
  exact ⟨op, h.1, h.2, hexec, rfl⟩

/-- The boot task creates a second task, which waits for a semaphore of count 0. -/
def waitingCalls : List Op := [.create true true, .add (some 1), .yield, .semaphoreWait 4]

/-- The boot task signals the semaphore, and the second task gets control. -/
def wokenCalls : List Op := waitingCalls ++ [.semaphoreSignal 4, .yield]

/-- While the second task waits the count is 0; once it has been woken the wait is complete, and
has returned. -/
theorem semaphore_conservation_example :
    (∃ x, ReflTransGen (Counting.Step 4) (.boot fun _ => 0) x ∧
      x.world.sys.waiters (.semaphore 4) = some 1 ∧ x.world.sys.count 4 = 0) ∧
    ∃ x, ReflTransGen (Counting.Step 4) (.boot fun _ => 0) x ∧ x.tally.signals = 1 ∧
      x.world.sys.count 4 + x.tally.completed = 0 + x.tally.signals ∧ x.tally.returned = 1 ∧
      x.tally.returned ≤ 0 + x.tally.signals := by
  have hsteps : ∀ (x : Counting) (op : Op) (y : Counting), x.next 4 op = some y →
      x.world.Legal op ∧ x.world.BootStays op → x.Step 4 y :=
    fun _ _ _ => Counting.step_of_next
  constructor
  · obtain ⟨x, hends, hwaiters, hsignals⟩ : ∃ x, waitingCalls.foldlM (Counting.next 4)
        (.boot fun _ => 0) = some x ∧ x.world.sys.waiters (.semaphore 4) = some 1 ∧
        x.tally.signals = 0 := ⟨_, rfl, rfl, rfl⟩
    have hrun := reflTransGen_of_along hsteps hends (by decide)
    have hlt : x.tally.signals < 2 ^ 64 - 0 := by
      rw [hsignals]
      decide
    obtain ⟨-, hzero, -⟩ := semaphore_conservation hrun hlt
    exact ⟨x, hrun, hwaiters, hzero (by rw [hwaiters]; exact Option.some_ne_none 1)⟩
  · obtain ⟨x, hends, hsignals, hreturned⟩ : ∃ x, wokenCalls.foldlM (Counting.next 4)
        (.boot fun _ => 0) = some x ∧ x.tally.signals = 1 ∧ x.tally.returned = 1 :=
      ⟨_, rfl, rfl, rfl⟩
    have hrun := reflTransGen_of_along hsteps hends (by decide)
    have hlt : x.tally.signals < 2 ^ 64 - 0 := by
      rw [hsignals]
      decide
    obtain ⟨hbalance, -, hbound⟩ := semaphore_conservation hrun hlt
    exact ⟨x, hrun, hsignals, hbalance, hreturned, hbound⟩

end Bethany
