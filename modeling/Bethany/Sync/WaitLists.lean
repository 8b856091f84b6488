import Bethany.Sync.Model
import Bethany.Scheduler.RunList

/-!
# The `waiters` lists

Every object that tasks wait for threads its list through the field `wait_next` of the tasks.
The lists keep apart because a task is on a list exactly while it is blocked, and a task
blocks only while it runs.

* `WaitLists`: the invariant of all `waiters` lists together;
* `pushed`: the state in which a blocking call yields;
* `WaitLists.push`, `WaitLists.release`, `WaitLists.pop`, `WaitLists.awake`: its upkeep by the
  ways the lists change;
* `WaitLists.scheduled`: it does not depend on what the scheduler does.
-/

namespace Bethany

open Machine LinkedList

variable {s s' : Sys} {W : WaitObj → List TaskId} {L l : List TaskId} {c c' t : TaskId}
  {o : WaitObj}

/-- `W` gives the tasks on the `waiters` list of each object. -/
structure WaitLists (s : Sys) (W : WaitObj → List TaskId) : Prop where
  chain : ∀ o, Chain s.waitNext (s.waiters o) (W o)
  disjoint : ∀ o o' t, t ∈ W o → t ∈ W o' → o = o'
  blocked : ∀ t, s.state t = .blocked ↔ ∃ o, t ∈ W o
  mutex : ∀ m, W (.mutex m) ≠ [] → s.locked m = true
  semaphore : ∀ k, W (.semaphore k) ≠ [] → s.count k = 0
  event : ∀ e, s.signaled e = true → W (.event e) = []
  dead : ∀ t, s.state t = .dead → W (.task t) = []

/-- The fields that wait lists depend on are as they were, but for states other than
`TASK_BLOCKED` and `TASK_DEAD`. -/
structure SameWaits (s s' : Sys) : Prop where
  waitNext : s'.waitNext = s.waitNext
  waiters : s'.waiters = s.waiters
  locked : s'.locked = s.locked
  count : s'.count = s.count
  signaled : s'.signaled = s.signaled
  blocked : ∀ t, s'.state t = .blocked ↔ s.state t = .blocked
  dead : ∀ t, s'.state t = .dead ↔ s.state t = .dead

theorem WaitLists.congr (h : WaitLists s W) (hsame : SameWaits s s') : WaitLists s' W where
  chain o := by
    rw [hsame.waitNext, hsame.waiters]
    exact h.chain o
  disjoint := h.disjoint
  blocked t := (hsame.blocked t).trans (h.blocked t)
  mutex := by
    rw [hsame.locked]
    exact h.mutex
  semaphore := by
    rw [hsame.count]
    exact h.semaphore
  event := by
    rw [hsame.signaled]
    exact h.event
  dead t ht := h.dead t ((hsame.dead t).mp ht)

/-- Other values of the objects go with the same lists, where they agree with them. -/
theorem WaitLists.objects (h : WaitLists s W) {locked : ℕ → Bool} {count : ℕ → ℕ}
    {signaled : ℕ → Bool} (hm : ∀ m, W (.mutex m) ≠ [] → locked m = true)
    (hk : ∀ k, W (.semaphore k) ≠ [] → count k = 0)
    (he : ∀ e, signaled e = true → W (.event e) = []) :
    WaitLists { s with locked := locked, count := count, signaled := signaled } W :=
  ⟨h.chain, h.disjoint, h.blocked, hm, hk, he, h.dead⟩

theorem Scheduled.sameWaits (hs : Scheduled s s' L c c') (h : RunList s L c) : SameWaits s s' where
  waitNext := by rw [hs.frame]
  waiters := by rw [hs.frame]
  locked := by rw [hs.frame]
  count := by rw [hs.frame]
  signaled := by rw [hs.frame]
  blocked _ := hs.state_iff h (.inl rfl)
  dead _ := hs.state_iff h (.inr rfl)

theorem WaitLists.scheduled (h : WaitLists s W) (hr : RunList s L c)
    (hs : Scheduled s s' L c c') : WaitLists s' W :=
  h.congr (hs.sameWaits hr)

/-- A task that is not blocked is on no list. -/
theorem WaitLists.not_mem (h : WaitLists s W) (ht : s.state t ≠ .blocked) (o : WaitObj) :
    t ∉ W o :=
  fun hmem => ht ((h.blocked t).mpr ⟨o, hmem⟩)

/-- A task on one list is on no other. -/
theorem WaitLists.not_mem_other (h : WaitLists s W) (ht : t ∈ W o) {o' : WaitObj} (hne : o' ≠ o) :
    t ∉ W o' :=
  fun hmem => hne (h.disjoint _ _ t hmem ht)

/-! ### Blocking -/

/-- A call that waits for the object blocks. -/
def Blocks (s : Sys) : WaitObj → Prop
  | .mutex m => s.locked m = true
  | .semaphore k => s.count k = 0
  | .event e => s.signaled e = false
  | .task t => s.state t ≠ .dead ∧ s.current ≠ some t

instance (s : Sys) : DecidablePred (Blocks s)
  | .mutex m => inferInstanceAs (Decidable (s.locked m = true))
  | .semaphore k => inferInstanceAs (Decidable (s.count k = 0))
  | .event e => inferInstanceAs (Decidable (s.signaled e = false))
  | .task t => inferInstanceAs (Decidable (s.state t ≠ .dead ∧ s.current ≠ some t))

/-- The state in which `block` calls `scheduler_schedule`. -/
def pushed (s : Sys) (c : TaskId) (o : WaitObj) : Sys :=
  { s with
    state := Function.update s.state c .blocked
    waitNext := Function.update s.waitNext c (s.waiters o)
    waiters := Function.update s.waiters o (some c) }

@[simp] theorem pushed_state : (pushed s c o).state = Function.update s.state c .blocked := rfl
@[simp] theorem pushed_waitNext :
    (pushed s c o).waitNext = Function.update s.waitNext c (s.waiters o) := rfl
@[simp] theorem pushed_waiters :
    (pushed s c o).waiters = Function.update s.waiters o (some c) := rfl

theorem block_eq (hc : s.current = some c) : block s o = schedulerSchedule (pushed s c o) := by
  unfold block
  simp only [hc, Option.bind_eq_bind, Option.bind_some]
  congr 1
  unfold pushed
  rw [hc]

theorem mem_push {o o' : WaitObj} :
    t ∈ Function.update W o (c :: W o) o' ↔ o' = o ∧ t = c ∨ t ∈ W o' := by
  by_cases hne : o' = o
  · subst hne
    simp
  · simp [hne]

/-- **A running task that blocks** becomes the first on the list of the object. -/
theorem WaitLists.push (h : WaitLists s W) (hc : s.state c ≠ .blocked) (ho : Blocks s o) :
    WaitLists (pushed s c o) (Function.update W o (c :: W o)) where
  chain o' := by
    rw [pushed_waitNext, pushed_waiters]
    by_cases hoo : o' = o
    · subst hoo
      rw [Function.update_self, Function.update_self]
      exact (h.chain o').push (h.not_mem hc o')
    · rw [Function.update_of_ne hoo, Function.update_of_ne hoo]
      exact (h.chain o').update (h.not_mem hc o') _
  disjoint o₁ o₂ t h₁ h₂ := by
    -- `c` was on no list, so now it is on the list of `o` only
    rcases mem_push.mp h₁ with ⟨rfl, rfl⟩ | hold₁
    · rcases mem_push.mp h₂ with ⟨rfl, -⟩ | hold₂
      · rfl
      · exact absurd hold₂ (h.not_mem hc o₂)
    · rcases mem_push.mp h₂ with ⟨rfl, rfl⟩ | hold₂
      · exact absurd hold₁ (h.not_mem hc o₁)
      · exact h.disjoint o₁ o₂ t hold₁ hold₂
  blocked t := by
    rw [pushed_state]
    by_cases htc : t = c
    · subst htc
      exact iff_of_true (Function.update_self ..) ⟨o, mem_push.mpr (.inl ⟨rfl, rfl⟩)⟩
    · simp only [Function.update_of_ne htc, h.blocked t, mem_push, htc, and_false, false_or]
  mutex m hm := by
    by_cases hne : WaitObj.mutex m = o
    · subst hne
      exact ho
    · rw [Function.update_of_ne hne] at hm
      exact h.mutex m hm
  semaphore k hk := by
    by_cases hne : WaitObj.semaphore k = o
    · subst hne
      exact ho
    · rw [Function.update_of_ne hne] at hk
      exact h.semaphore k hk
  event e he := by
    by_cases hne : WaitObj.event e = o
    · subst hne
      have hoff : s.signaled e = false := ho
      exact absurd (hoff.symm.trans he) (by decide)
    · rw [Function.update_of_ne hne]
      exact h.event e he
  dead t ht := by
    rw [pushed_state] at ht
    have htc : t ≠ c := by
      rintro rfl
      rw [Function.update_self] at ht
      exact absurd ht (by decide)
    rw [Function.update_of_ne htc] at ht
    by_cases hne : WaitObj.task t = o
    · subst hne
      exact absurd ht ho.1
    · rw [Function.update_of_ne hne]
      exact h.dead t ht

/-! ### Waking -/

/-- **Tasks leave a list** when they are made ready and the list goes on with the others. -/
theorem WaitLists.release (h : WaitLists s W) (hsub : ∀ t ∈ l, t ∈ W o)
    (hchain : Chain s'.waitNext (s'.waiters o) l)
    (hwaiters : ∀ o', o' ≠ o → s'.waiters o' = s.waiters o')
    (hnext : ∀ t ∉ W o, s'.waitNext t = s.waitNext t)
    (hready : ∀ t ∈ W o, t ∉ l → s'.state t = .ready)
    (hstate : ∀ t, t ∈ W o → t ∈ l → s'.state t = s.state t)
    (hother : ∀ t ∉ W o, s'.state t = s.state t)
    (hlocked : s'.locked = s.locked) (hcount : s'.count = s.count)
    (hsignaled : s'.signaled = s.signaled) : WaitLists s' (Function.update W o l) := by
  have hmem : ∀ o' t, t ∈ Function.update W o l o' → t ∈ W o' := by
    intro o' t ht
    by_cases hne : o' = o
    · subst hne
      rw [Function.update_self] at ht
      exact hsub t ht
    · rwa [Function.update_of_ne hne] at ht
  have hnil : ∀ o', W o' = [] → Function.update W o l o' = [] := by
    intro o' ho'
    rw [List.eq_nil_iff_forall_not_mem] at ho' ⊢
    exact fun t ht => ho' t (hmem o' t ht)
  refine ⟨fun o' => ?_, fun o₁ o₂ t h₁ h₂ => h.disjoint o₁ o₂ t (hmem o₁ t h₁) (hmem o₂ t h₂),
    fun t => ?_, fun m hm => ?_, fun k hk => ?_, fun e he => ?_, fun t ht => ?_⟩
  · by_cases hne : o' = o
    · subst hne
      rwa [Function.update_self]
    · rw [Function.update_of_ne hne, hwaiters o' hne]
      exact (h.chain o').congr fun t ht => hnext t (h.not_mem_other ht (Ne.symm hne))
  · by_cases ho : t ∈ W o
    · by_cases hl : t ∈ l
      · -- it stays on the list
        rw [hstate t ho hl]
        refine iff_of_true ((h.blocked t).mpr ⟨o, ho⟩) ⟨o, ?_⟩
        rwa [Function.update_self]
      · rw [hready t ho hl]
        apply iff_of_false (by decide)
        rintro ⟨o', ht⟩
        obtain rfl := h.disjoint _ _ t (hmem o' t ht) ho
        rw [Function.update_self] at ht
        exact hl ht
    · rw [hother t ho, h.blocked t]
      refine ⟨?_, fun ⟨o', ht⟩ => ⟨o', hmem o' t ht⟩⟩
      rintro ⟨o', ht⟩
      refine ⟨o', ?_⟩
      rw [Function.update_of_ne]
      · exact ht
      · rintro rfl
        exact ho ht
  · rw [hlocked]
    exact h.mutex m (mt (hnil _) hm)
  · rw [hcount]
    exact h.semaphore k (mt (hnil _) hk)
  · rw [hsignaled] at he
    exact hnil _ (h.event e he)
  · refine hnil _ (h.dead t ?_)
    by_cases ho : t ∈ W o
    · by_cases hl : t ∈ l
      · rwa [hstate t ho hl] at ht
      · rw [hready t ho hl] at ht
        exact absurd ht (by decide)
    · rwa [hother t ho] at ht

@[simp] theorem wakeFirst_state :
    (wakeFirst s o t).state = Function.update s.state t .ready := rfl
@[simp] theorem wakeFirst_waitNext :
    (wakeFirst s o t).waitNext = Function.update s.waitNext t none := rfl
@[simp] theorem wakeFirst_waiters :
    (wakeFirst s o t).waiters = Function.update s.waiters o (s.waitNext t) := rfl

/-- **Waking the first waiter** takes it off its list. -/
theorem WaitLists.pop (h : WaitLists s W) (ht : W o = t :: l) :
    WaitLists (Bethany.wakeFirst s o t) (Function.update W o l) := by
  have hchain := h.chain o
  rw [ht] at hchain
  have hl : t ∉ l := (List.nodup_cons.mp hchain.nodup).1
  refine h.release (fun x hx => ?_) ?_ (fun o' hne => ?_) (fun x hx => ?_) (fun x hx hxl => ?_)
    (fun x _ hxl => ?_) (fun x hx => ?_) rfl rfl rfl
  · rw [ht]
    exact List.mem_cons_of_mem _ hx
  · rw [wakeFirst_waitNext, wakeFirst_waiters, Function.update_self]
    exact hchain.pop none
  · exact Function.update_of_ne hne _ _
  · refine Function.update_of_ne (fun heq => hx ?_) _ _
    rw [ht, heq]
    exact List.mem_cons_self
  · rw [ht] at hx
    obtain rfl := (List.mem_cons.mp hx).resolve_right hxl
    exact Function.update_self ..
  · refine Function.update_of_ne (fun heq => hl ?_) _ _
    rwa [← heq]
  · refine Function.update_of_ne (fun heq => hx ?_) _ _
    rw [ht, heq]
    exact List.mem_cons_self

/-- The state after `wakeAll` has gone over a list of waiters. -/
def awake (s : Sys) (o : WaitObj) (l : List TaskId) : Sys :=
  { s with
    state := fun t => if t ∈ l then .ready else s.state t
    waitNext := fun t => if t ∈ l then none else s.waitNext t
    waiters := Function.update s.waiters o none }

theorem foldl_wakeBody (s : Sys) (l : List TaskId) :
    l.foldl (fun s t => (wakeBody s t).1) s =
      { s with
        state := fun t => if t ∈ l then .ready else s.state t
        waitNext := fun t => if t ∈ l then none else s.waitNext t } := by
  induction l generalizing s with
  | nil => simp only [List.foldl_nil, List.not_mem_nil, if_false]
  | cons a l ih =>
    rw [List.foldl_cons]
    refine (ih _).trans ?_
    unfold wakeBody
    congr 1 <;> funext t <;> by_cases hta : t = a <;> simp [hta]

theorem wakeAll_eq (h : Chain s.waitNext (s.waiters o) l) (hfuel : l.length < s.fuel) :
    wakeAll s o = some (awake s o l) := by
  have hnext : ∀ (s : Sys) a, (wakeBody s a).2 = s.waitNext a := fun _ _ => rfl
  have hframe : ∀ (s : Sys) a b, b ≠ a → (wakeBody s a).1.waitNext b = s.waitNext b :=
    fun _ _ _ hne => Function.update_of_ne hne _ _
  unfold wakeAll
  rw [loop_eq_foldl hnext hframe h hfuel, foldl_wakeBody]
  rfl

/-- **Waking all waiters** empties the list. -/
theorem WaitLists.awake (h : WaitLists s W) (o : WaitObj) :
    WaitLists (Bethany.awake s o (W o)) (Function.update W o []) := by
  refine h.release (fun t ht => absurd ht List.not_mem_nil) ?_ (fun o' hne => ?_)
    (fun t ht => if_neg ht) (fun t ht _ => if_pos ht) (fun t _ ht => absurd ht List.not_mem_nil)
    (fun t ht => if_neg ht) rfl rfl rfl
  · exact Function.update_self ..
  · exact Function.update_of_ne hne _ _

end Bethany
