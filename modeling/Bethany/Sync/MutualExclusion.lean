import Bethany.Sync.Runs
import Bethany.Library.Runs

/-!
# Mutual exclusion

`mutex_unlock` hands a contended mutex to its first waiter: it leaves `locked` set, and the
waiter returns from `mutex_lock` much later, without looking at the mutex again.  A task is
counted as a holder from the moment the mutex is handed to it.

* `holdersAfter`: the holders of the mutexes, as a history of the run;
* `Locking`, `Locking.Step`: runs with their holders, where only a holder unlocks;
* `Locking.Inv`: a mutex is locked if and only if it has a holder, it has at most one, and a
  task inside `mutex_lock` waits for the mutex or holds it;
* `mutex_mutualExclusion`: this is so in every run of `kmain`.
-/

namespace Bethany

open Machine LinkedList Relation Runs

/-- The holders after the part of a call that the caller carries out: a successful
`mutex_try_lock` makes the caller a holder, and `mutex_unlock` ends that and makes the task it
wakes one. -/
def holdersCall (holders : ℕ → Finset TaskId) (s : Sys) : Op → ℕ → Finset TaskId
  | .mutexTryLock m =>
    if (mutexTryLock s m).1 then Function.update holders m (holders m ∪ s.current.toFinset)
    else holders
  | .mutexUnlock m =>
    Function.update holders m
      (holders m \ s.current.toFinset ∪ (s.waiters (.mutex m)).toFinset)
  | _ => holders

/-- The holders after a call has returned to the task `t`: `mutex_lock` makes it a holder. -/
def holdersReturn (holders : ℕ → Finset TaskId) (returned : Option Op) (t : Option TaskId) :
    ℕ → Finset TaskId :=
  match returned with
  | some (.mutexLock m) => Function.update holders m (holders m ∪ t.toFinset)
  | _ => holders

/-- The holders after a step of the world. -/
def holdersAfter (holders : ℕ → Finset TaskId) (w : World) (op : Op) (w' : World) :
    ℕ → Finset TaskId :=
  holdersReturn (holdersCall holders w.sys op) (w.returned op w') w'.sys.current

/-- A run with the holders of the mutexes. -/
structure Locking where
  world : World
  holders : ℕ → Finset TaskId

def Locking.boot (initial : ℕ → ℕ) : Locking := ⟨World.boot initial, fun _ => ∅⟩

/-- A caller unlocks only a mutex that it holds. -/
def Locking.UnlocksOwn (x : Locking) (op : Op) : Prop :=
  ∀ m, op = .mutexUnlock m → ∃ c, x.world.sys.current = some c ∧ c ∈ x.holders m

/-- A step of `kmain` in which only holders unlock. -/
def Locking.Step (x : Locking) (op : Op) (y : Locking) : Prop :=
  x.world.Legal op ∧ x.world.BootStays op ∧ x.UnlocksOwn op ∧
    x.world.exec op = some y.world ∧ y.holders = holdersAfter x.holders x.world op y.world

/-- The invariant of runs with their holders. -/
structure Locking.Inv (x : Locking) (L : List TaskId) (W : WaitObj → List TaskId) (c : TaskId) :
    Prop where
  kmain : x.world.Kmain L W c
  free : ∀ m, x.world.sys.locked m = false → x.holders m = ∅
  held : ∀ m, x.world.sys.locked m = true → ∃ t, x.holders m = {t}
  inside : ∀ t m, x.world.inside t = some (.mutexLock m) → t ∈ W (.mutex m) ∨ t ∈ x.holders m

variable {x y : Locking} {w w' : World} {L L' : List TaskId} {W W' : WaitObj → List TaskId}
  {c c' t : TaskId} {op op' : Op} {initial : ℕ → ℕ} {s s' : Sys} {m : ℕ}

/-! ### What a call does to `locked` -/

/-- The scheduler leaves the mutexes alone. -/
theorem Op.Outcome.locked (hout : op.Outcome s L W c s' L' c') :
    s'.locked = (op.before s L W c).locked := by
  cases hout with
  | returns hy => rfl
  | yields hy hs => rw [hs.frame]

theorem before_locked (hlock : ∀ m, op ≠ .mutexLock m) (htry : ∀ m, op ≠ .mutexTryLock m)
    (hunlock : ∀ m, op ≠ .mutexUnlock m) : (op.before s L W c).locked = s.locked := by
  cases op using Op.waitOn_cases with
  | waitOn o =>
    rw [before_waitOn]
    cases o with
    | mutex m => exact absurd rfl (hlock m)
    | _ => split_ifs <;> rfl
  | create taskMemory stackMemory => cases taskMemory <;> cases stackMemory <;> rfl
  | add task => cases task <;> rfl
  | mutexTryLock m => exact absurd rfl (htry m)
  | mutexUnlock m => exact absurd rfl (hunlock m)
  | semaphoreTryWait k =>
    show (semaphoreTryWait s k).2.locked = s.locked
    unfold semaphoreTryWait
    split_ifs <;> rfl
  | semaphoreSignal k =>
    show (semaphoreSignal s k).locked = s.locked
    unfold semaphoreSignal
    split <;> rfl
  | _ => rfl

theorem before_locked_lock : ((Op.mutexLock m).before s L W c).locked =
    if s.locked m then s.locked else Function.update s.locked m true := by
  show ((Op.waitOn (.mutex m)).before s L W c).locked = _
  rw [before_waitOn]
  exact apply_ite Sys.locked ..

theorem before_locked_tryLock : ((Op.mutexTryLock m).before s L W c).locked =
    if s.locked m then s.locked else Function.update s.locked m true := by
  show (mutexTryLock s m).2.locked = _
  unfold mutexTryLock
  split_ifs <;> rfl

theorem before_locked_unlock : ((Op.mutexUnlock m).before s L W c).locked =
    if s.waiters (.mutex m) = none then Function.update s.locked m false else s.locked := by
  show (mutexUnlock s m).locked = _
  unfold mutexUnlock
  cases s.waiters (.mutex m) <;> rfl

theorem holdersCall_tryLock (holders : ℕ → Finset TaskId) :
    holdersCall holders s (.mutexTryLock m) =
      if s.locked m then holders
      else Function.update holders m (holders m ∪ s.current.toFinset) := by
  by_cases hlocked : s.locked m = true <;> simp [holdersCall, mutexTryLock, hlocked]

theorem holdersCall_unlock (holders : ℕ → Finset TaskId) :
    holdersCall holders s (.mutexUnlock m) = Function.update holders m
      (holders m \ s.current.toFinset ∪ (s.waiters (.mutex m)).toFinset) := rfl

/-- A call that yields changes no holder before it returns. -/
theorem Op.Yields.holdersCall (hy : op.Yields s) (holders : ℕ → Finset TaskId) :
    holdersCall holders s op = holders := by
  cases op with
  | mutexTryLock m =>
    obtain ⟨o, ho, -⟩ := hy
    cases ho
  | mutexUnlock m =>
    obtain ⟨o, ho, -⟩ := hy
    cases ho
  | _ => rfl

/-! ### The invariant -/

theorem Locking.Inv.boot : (Locking.boot initial).Inv [0] (fun _ => []) 0 where
  kmain := World.Kmain.boot
  free _ _ := rfl
  held _ hm := absurd hm Bool.false_ne_true
  inside _ _ h := absurd h nofun

/-- `mutex_lock` returns at once from a free mutex, or later to a task that holds the mutex
already. -/
theorem Locking.Inv.returned (h : x.Inv L W c)
    (hout : op.Outcome x.world.sys L W c w'.sys L' c')
    (hk : w'.Kmain L' (op.waits x.world.sys W c) c')
    (hret : x.world.returned op w' = some (.mutexLock m)) :
    (op = .mutexLock m ∧ x.world.sys.locked m = false ∧ c' = c) ∨
      (op.Yields x.world.sys ∧ c' ≠ c ∧ c' ∈ x.holders m) := by
  have hcurrent := h.kmain.inv.sys.runList.current
  have hcurrent' := hk.inv.sys.runList.current
  unfold World.returned at hret
  rw [hcurrent, hcurrent'] at hret
  by_cases hcc : c = c'
  · -- the caller itself goes on
    rw [if_pos (congrArg some hcc)] at hret
    obtain rfl := Option.some_injective _ hret
    refine .inl ⟨rfl, Bool.eq_false_iff.mpr fun hlocked => ?_, hcc.symm⟩
    apply not_mem_of_control hk (.mutex m)
    rw [← hcc]
    exact mem_waits_waitOn (o := .mutex m) hlocked
  · rw [if_neg fun heq => hcc (Option.some_injective _ heq), Option.bind_some] at hret
    have hy : op.Yields x.world.sys := hout.yields_of_ne hcc
    refine .inr ⟨hy, Ne.symm hcc, (h.inside c' m hret).resolve_left fun hmem => ?_⟩
    exact not_mem_of_control hk (.mutex m) (hy.mem_waits nofun hmem)

/-- The mutexes and their holders when the caller has done its part of the call. -/
theorem Locking.Inv.call (h : x.Inv L W c) (hown : x.UnlocksOwn op) (m : ℕ) :
    ((op.before x.world.sys L W c).locked m = false → holdersCall x.holders x.world.sys op m = ∅) ∧
    ((op.before x.world.sys L W c).locked m = true →
      (∃ t, holdersCall x.holders x.world.sys op m = {t}) ∨
        op = .mutexLock m ∧ x.world.sys.locked m = false ∧ x.holders m = ∅) := by
  have hcurrent := h.kmain.inv.sys.runList.current
  cases op with
  | mutexLock m' =>
    rw [before_locked_lock]
    show (_ → x.holders m = ∅) ∧ (_ → (∃ t, x.holders m = {t}) ∨ _)
    split_ifs with hlocked
    · exact ⟨h.free m, fun hm => .inl (h.held m hm)⟩
    · by_cases hmm : m = m'
      · subst hmm
        have hfree := Bool.eq_false_iff.mpr hlocked
        rw [Function.update_self]
        exact ⟨nofun, fun _ => .inr ⟨rfl, hfree, h.free m hfree⟩⟩
      · rw [Function.update_of_ne hmm]
        exact ⟨h.free m, fun hm => .inl (h.held m hm)⟩
  | mutexTryLock m' =>
    rw [before_locked_tryLock, holdersCall_tryLock]
    split_ifs with hlocked
    · exact ⟨h.free m, fun hm => .inl (h.held m hm)⟩
    · by_cases hmm : m = m'
      · subst hmm
        rw [Function.update_self, Function.update_self,
          h.free m (Bool.eq_false_iff.mpr hlocked), hcurrent]
        exact ⟨nofun, fun _ => .inl ⟨c, by simp⟩⟩
      · rw [Function.update_of_ne hmm, Function.update_of_ne hmm]
        exact ⟨h.free m, fun hm => .inl (h.held m hm)⟩
  | mutexUnlock m' =>
    rw [before_locked_unlock, holdersCall_unlock]
    by_cases hmm : m = m'
    · subst hmm
      -- the caller is the holder, and the mutex goes to the first waiter
      obtain ⟨c₁, hc₁, hmem⟩ := hown m rfl
      have hlocked : x.world.sys.locked m = true := by
        rw [← Bool.not_eq_false]
        intro hfree
        rw [h.free m hfree] at hmem
        exact Finset.notMem_empty _ hmem
      obtain ⟨t, ht⟩ := h.held m hlocked
      rw [ht, Finset.mem_singleton] at hmem
      rw [Function.update_self, ht, hc₁, hmem]
      cases hw : x.world.sys.waiters (.mutex m) with
      | none => simp
      | some t' => simp [hlocked]
    · rw [Function.update_of_ne hmm]
      split_ifs
      · rw [Function.update_of_ne hmm]
        exact ⟨h.free m, fun hm => .inl (h.held m hm)⟩
      · exact ⟨h.free m, fun hm => .inl (h.held m hm)⟩
  | _ =>
    rw [before_locked]
    · exact ⟨h.free m, fun hm => .inl (h.held m hm)⟩
    all_goals nofun

/-- Only the caller stops being a holder. -/
theorem mem_holdersCall {holders : ℕ → Finset TaskId} (hcurrent : s.current = some c)
    (ht : t ∈ holders m) (hne : t ≠ c) : t ∈ holdersCall holders s op m := by
  cases op with
  | mutexTryLock m' =>
    rw [holdersCall_tryLock]
    split_ifs
    · exact ht
    · by_cases hmm : m = m'
      · subst hmm
        rw [Function.update_self]
        exact Finset.mem_union_left _ ht
      · rwa [Function.update_of_ne hmm]
  | mutexUnlock m' =>
    rw [holdersCall_unlock]
    by_cases hmm : m = m'
    · subst hmm
      rw [Function.update_self, hcurrent]
      refine Finset.mem_union_left _ (Finset.mem_sdiff.mpr ⟨ht, ?_⟩)
      simpa using hne
    · rwa [Function.update_of_ne hmm]
  | _ => exact ht

/-- The task that `mutex_unlock` wakes becomes a holder. -/
theorem mem_holdersCall_of_woken {holders : ℕ → Finset TaskId}
    (hhands : op.handsOn = some (.mutex m)) (hwaiter : s.waiters (.mutex m) = some t) :
    t ∈ holdersCall holders s op m := by
  cases op with
  | mutexUnlock m' =>
    obtain rfl := WaitObj.mutex.inj (Option.some_injective _ hhands)
    rw [holdersCall_unlock, Function.update_self, hwaiter]
    exact Finset.mem_union_right _ (by simp)
  | semaphoreSignal k => exact absurd (Option.some_injective _ hhands) nofun
  | _ => exact absurd hhands nofun

/-- A return adds at most a holder, and of one mutex only. -/
theorem holdersReturn_cases (holders : ℕ → Finset TaskId) (returned : Option Op) (t : Option TaskId)
    (m : ℕ) :
    (returned = some (.mutexLock m) ∧ holdersReturn holders returned t m = holders m ∪ t.toFinset) ∨
      (returned ≠ some (.mutexLock m) ∧ holdersReturn holders returned t m = holders m) := by
  unfold holdersReturn
  by_cases hret : returned = some (.mutexLock m)
  · subst hret
    exact .inl ⟨rfl, Function.update_self ..⟩
  · refine .inr ⟨hret, ?_⟩
    split
    · next m' => exact Function.update_of_ne (fun heq => hret (by rw [heq])) _ _
    · rfl

/-- `mutex_lock` returns to the only holder of a locked mutex. -/
theorem Locking.Inv.return (h : x.Inv L W c) (hown : x.UnlocksOwn op)
    (hout : op.Outcome x.world.sys L W c w'.sys L' c')
    (hk : w'.Kmain L' (op.waits x.world.sys W c) c')
    (hret : x.world.returned op w' = some (.mutexLock m)) :
    holdersAfter x.holders x.world op w' m = {c'} ∧ (c' ≠ c → x.holders m = {c'}) ∧
      w'.sys.locked m = true := by
  have hcurrent' := hk.inv.sys.runList.current
  have hafter : holdersAfter x.holders x.world op w' m =
      holdersCall x.holders x.world.sys op m ∪ {c'} := by
    unfold holdersAfter
    rcases holdersReturn_cases (holdersCall x.holders x.world.sys op) (x.world.returned op w')
      w'.sys.current m with ⟨-, heq⟩ | ⟨hne, -⟩
    · rw [heq, hcurrent', Option.toFinset_some]
    · exact absurd hret hne
  rw [hafter, hout.locked]
  rcases h.returned hout hk hret with ⟨rfl, hfree, rfl⟩ | ⟨hy, -, hmem⟩
  · have hempty : holdersCall x.holders x.world.sys (.mutexLock m) m = ∅ := h.free m hfree
    refine ⟨by rw [hempty, Finset.empty_union], fun hne => absurd rfl hne, ?_⟩
    rw [before_locked_lock, hfree, if_neg Bool.false_ne_true, Function.update_self]
  · have hcall := h.call hown m
    rw [hy.holdersCall] at hcall ⊢
    have hlocked : (op.before x.world.sys L W c).locked m = true := by
      rw [← Bool.not_eq_false]
      intro hfree
      rw [hcall.1 hfree] at hmem
      exact Finset.notMem_empty _ hmem
    have hsingle : x.holders m = {c'} := by
      rcases hcall.2 hlocked with ⟨t, ht⟩ | ⟨-, -, hempty⟩
      · rw [ht, Finset.mem_singleton] at hmem
        rw [ht, hmem]
      · rw [hempty] at hmem
        exact absurd hmem (Finset.notMem_empty _)
    exact ⟨by rw [hsingle, Finset.union_idempotent], fun _ => hsingle, hlocked⟩

/-- **One step keeps the invariant**, and `mutex_lock` returns to the only holder. -/
theorem Locking.Inv.step (h : x.Inv L W c) (hstep : x.Step op y) :
    ∃ L' W' c', y.Inv L' W' c' ∧ ∀ m, x.world.returned op y.world = some (.mutexLock m) →
      y.holders m = {c'} ∧ (c' ≠ c → x.holders m = {c'}) := by
  obtain ⟨hlegal, hstays, hown, heq, hholders⟩ := hstep
  obtain ⟨L', c', hout, hk⟩ := h.kmain.next hlegal hstays heq
  have hcurrent := h.kmain.inv.sys.runList.current
  have hcurrent' := hk.inv.sys.runList.current
  have hafter := holdersReturn_cases (holdersCall x.holders x.world.sys op)
    (x.world.returned op y.world) y.world.sys.current
  refine ⟨L', _, c', ⟨hk, fun m hm => ?_, fun m hm => ?_, fun t m ht => ?_⟩, fun m hret => ?_⟩
  · rcases hafter m with ⟨hret, -⟩ | ⟨-, heq⟩
    · rw [(h.return hown hout hk hret).2.2] at hm
      exact absurd hm.symm Bool.false_ne_true
    · rw [hholders]
      rw [hout.locked] at hm
      exact heq.trans ((h.call hown m).1 hm)
  · rcases hafter m with ⟨hret, -⟩ | ⟨hne, heq⟩
    · exact ⟨c', hholders ▸ (h.return hown hout hk hret).1⟩
    · rw [hout.locked] at hm
      rcases (h.call hown m).2 hm with ⟨t, ht⟩ | ⟨rfl, hfree, -⟩
      · exact ⟨t, hholders ▸ heq.trans ht⟩
      · -- a call that takes a free mutex returns
        refine absurd ?_ hne
        unfold World.returned
        rw [if_pos]
        rw [hcurrent, hcurrent']
        by_contra hcc
        have hy := hout.yields_of_ne fun heq => hcc (congrArg some heq)
        have hlocked : x.world.sys.locked m = true := (yields_waitOn (o := .mutex m)).mp hy
        exact absurd (hfree.symm.trans hlocked) Bool.false_ne_true
  · have hkeep : t ∈ holdersCall x.holders x.world.sys op m → t ∈ y.holders m := by
      intro hmem
      rw [hholders, holdersAfter]
      rcases hafter m with ⟨-, heq⟩ | ⟨-, heq⟩
      · rw [heq]
        exact Finset.mem_union_left _ hmem
      · rwa [heq]
    rcases World.inside_after heq ht with hold | ⟨hc, hc', rfl⟩
    · have hne : t ≠ c := by
        rintro rfl
        exact absurd (h.kmain.inv.outside.symm.trans hold) nofun
      rcases h.inside t m hold with hmem | hmem
      · refine (mem_waits_or_woken h.kmain.inv.sys.waits hmem nofun nofun).imp_right ?_
        rintro ⟨hhands, hwaiter⟩
        exact hkeep (mem_holdersCall_of_woken hhands hwaiter)
      · exact .inr (hkeep (mem_holdersCall hcurrent hmem hne))
    · -- the caller has lost control, so it waits
      left
      obtain rfl := Option.some_injective _ (hcurrent.symm.trans hc)
      have hy := hout.yields_of_ne fun heq => hc' (heq ▸ hcurrent')
      exact mem_waits_waitOn (o := .mutex m) ((yields_waitOn (o := .mutex m)).mp hy)
  · obtain ⟨h₁, h₂, -⟩ := h.return hown hout hk hret
    exact ⟨hholders ▸ h₁, h₂⟩

theorem Locking.Inv.run
    (hrun : ReflTransGen (fun x y => ∃ op, Locking.Step x op y) (Locking.boot initial) x) :
    ∃ L W c, x.Inv L W c := by
  induction hrun with
  | refl => exact ⟨_, _, _, Locking.Inv.boot⟩
  | tail _ hstep ih =>
    obtain ⟨L, W, c, h⟩ := ih
    obtain ⟨op, hstep⟩ := hstep
    obtain ⟨L', W', c', hinv, -⟩ := h.step hstep
    exact ⟨_, _, _, hinv⟩

/-- **Mutual exclusion with hand-off.**  In every run of `kmain` in which a task unlocks only
mutexes it holds, every mutex has at most one holder at every point and is locked exactly when
it has one; and `mutex_lock` returns only to the holder of the mutex, which, if it has waited,
was the holder before it got control. -/
theorem mutex_mutualExclusion
    (hrun : ReflTransGen (fun x y => ∃ op, Locking.Step x op y) (Locking.boot initial) x) :
    (∀ m, (x.holders m).card ≤ 1 ∧ (x.world.sys.locked m = true ↔ (x.holders m).Nonempty)) ∧
      ∀ op y, x.Step op y → ∀ m, x.world.returned op y.world = some (.mutexLock m) →
        ∃ t, y.world.sys.current = some t ∧ y.holders m = {t} ∧
          (x.world.sys.current ≠ some t → x.holders m = {t}) := by
  obtain ⟨L, W, c, h⟩ := Locking.Inv.run hrun
  constructor
  · intro m
    cases hlocked : x.world.sys.locked m with
    | false =>
      rw [h.free m hlocked]
      simp
    | true =>
      obtain ⟨t, ht⟩ := h.held m hlocked
      rw [ht]
      simp
  · intro op y hstep m hret
    obtain ⟨L', W', c', hinv, hlock⟩ := h.step hstep
    obtain ⟨hafter, hbefore⟩ := hlock m hret
    refine ⟨c', hinv.kmain.inv.sys.runList.current, hafter, fun hne => hbefore ?_⟩
    rintro rfl
    exact hne h.kmain.inv.sys.runList.current

/-- The state after a call, with the holders after it. -/
def Locking.next (x : Locking) (op : Op) : Option Locking :=
  (x.world.exec op).map fun w => ⟨w, holdersAfter x.holders x.world op w⟩

theorem Locking.step_of_next (hnext : x.next op = some y)
    (h : x.world.Legal op ∧ x.world.BootStays op ∧ x.UnlocksOwn op) : x.Step op y := by
  obtain ⟨w, hexec, rfl⟩ := Option.map_eq_some_iff.mp hnext
  exact ⟨h.1, h.2.1, h.2.2, hexec, rfl⟩

instance Locking.decidableUnlocksOwn (x : Locking) : DecidablePred x.UnlocksOwn
  | .mutexUnlock m =>
      decidable_of_iff (∃ c ∈ x.world.sys.current, c ∈ x.holders m)
        ⟨fun h m' hm => by cases hm; exact h, fun h => h m rfl⟩
  | .create .. | .add _ | .yield | .sleep _ | .exit | .join _ | .mutexTryLock _ | .mutexLock _
  | .semaphoreTryWait _ | .semaphoreWait _ | .semaphoreSignal _ | .eventWait _ | .eventSet _
  | .eventReset _ | .tick => isTrue nofun

/-- The boot task creates a second task and locks a mutex; the second task tries to lock it, too;
the boot task unlocks it. -/
def contention : List Op :=
  [.create true true, .add (some 1), .mutexLock 5, .yield, .mutexLock 5, .mutexUnlock 5]

def contended : Locking := (contention.foldlM Locking.next (.boot fun _ => 0)).get (by decide)

/-- The second task holds the mutex while the boot task still has control, and `mutex_lock`
returns to it when it gets control. -/
theorem mutex_mutualExclusion_example :
    contended.world.sys.current = some 0 ∧ contended.world.sys.locked 5 = true ∧
      (contended.holders 5).card = 1 ∧
      ∃ y, contended.Step .yield y ∧ y.world.sys.current = some 1 ∧ y.holders 5 = {1} ∧
        contended.holders 5 = {1} := by
  have hcurrent : contended.world.sys.current = some 0 := by decide
  have hlocked : contended.world.sys.locked 5 = true := by decide
  have hends : contention.foldlM Locking.next (.boot fun _ => 0) = some contended :=
    (Option.some_get _).symm
  have hrun : ReflTransGen (fun x y => ∃ op, Locking.Step x op y) (.boot fun _ => 0) contended :=
    reflTransGen_of_along (fun _ op _ hnext h => ⟨op, Locking.step_of_next hnext h⟩) hends
      (by decide)
  obtain ⟨hmutex, hreturn⟩ := mutex_mutualExclusion hrun
  obtain ⟨y, hnext, hcontrol, hreturned⟩ : ∃ y, contended.next .yield = some y ∧
      y.world.sys.current = some 1 ∧ contended.world.returned .yield y.world =
        some (.mutexLock 5) := ⟨_, rfl, rfl, rfl⟩
  have hstep : contended.Step .yield y := Locking.step_of_next hnext (by decide)
  obtain ⟨t, ht, hafter, hbefore⟩ := hreturn .yield y hstep 5 hreturned
  obtain rfl : 1 = t := Option.some_injective _ (hcontrol.symm.trans ht)
  have hholder := hbefore (by rw [hcurrent]; decide)
  exact ⟨hcurrent, hlocked, by rw [hholder]; rfl, y, hstep, hcontrol, hafter, hholder⟩

end Bethany
