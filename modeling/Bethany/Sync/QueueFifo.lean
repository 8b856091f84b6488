import Bethany.Library.Ring
import Bethany.Sync.Conservation
import Bethany.Sync.Queue

/-!
# The bounded queue is first in, first out

The ring has no test of its own for empty or full: the semaphores `space` and `items` count the
free slots and the items, and a task may lose control between taking a unit of one and giving
one to the other.

* `held`: the units of a semaphore that a task has taken and not used up, or has still to give;
* `Shared.Inv`: the counters and these units make up the free slots and the items;
* `Shared.Inv.step`: one step keeps the invariant, with a lemma for each kind of step;
* `queue_fifo`: the queue is a lossless first-in first-out queue.
-/

namespace Bethany

open Machine LinkedList Relation

variable {x y : Shared} {w w' : World} {L L' l l' : List TaskId} {W W' : WaitObj → List TaskId}
  {c c' t : TaskId} {op : Op} {initial : ℕ → ℕ} {s s' : Sys} {sem : QueueSem} {n n' : ℕ}
  {place : TaskId → Option (QueueCall × QueueStep)} {p : Option (QueueCall × QueueStep)}
  {call : QueueCall} {queue queue' : Queue} {item : ℕ} {buffer : ℕ → ℕ}

/-! ### Units -/

/-- The units of a semaphore that a task at this place has taken and not used up, or that it has
still to give.  A task that is `waiting` for the semaphore has taken none yet. -/
def held (sem : QueueSem) (waiting : Prop) [Decidable waiting] :
    Option (QueueCall × QueueStep) → ℕ
  | none => 0
  | some (call, .lock) => if call.takes = sem ∧ ¬ waiting then 1 else 0
  | some (call, .update) => if call.takes = sem then 1 else 0
  | some (call, .unlock) => if call.gives = sem then 1 else 0
  | some (call, .signal) => if call.gives = sem then 1 else 0

/-- The units that the tasks below `n` hold, when those of `l` wait for the semaphore. -/
def heldBelow (sem : QueueSem) (place : TaskId → Option (QueueCall × QueueStep)) (l : List TaskId)
    (n : ℕ) : ℕ :=
  ∑ t ∈ Finset.range n, held sem (t ∈ l) (place t)

/-- A sum that changes at one place. -/
theorem sum_range_change {f g : ℕ → ℕ} (ht : t < n) (hfg : ∀ a, a ≠ t → g a = f a) :
    ∑ a ∈ Finset.range n, g a + f t = ∑ a ∈ Finset.range n, f a + g t := by
  have hmem : t ∈ Finset.range n := Finset.mem_range.mpr ht
  rw [← Finset.add_sum_erase _ f hmem, ← Finset.add_sum_erase _ g hmem]
  have hrest : ∑ a ∈ (Finset.range n).erase t, g a = ∑ a ∈ (Finset.range n).erase t, f a :=
    Finset.sum_congr rfl fun a ha => hfg a (Finset.ne_of_mem_erase ha)
  rw [hrest]
  omega

/-- One task goes to another place. -/
theorem heldBelow_place (sem : QueueSem) (place : TaskId → Option (QueueCall × QueueStep))
    (l : List TaskId) (p : Option (QueueCall × QueueStep)) (ht : t < n) :
    heldBelow sem (Function.update place t p) l n + held sem (t ∈ l) (place t) =
      heldBelow sem place l n + held sem (t ∈ l) p := by
  have hself : Function.update place t p t = p := Function.update_self ..
  have hchange := sum_range_change (f := fun a => held sem (a ∈ l) (place a))
    (g := fun a => held sem (a ∈ l) (Function.update place t p a)) ht fun a ha => by
      simp only [Function.update_of_ne ha]
  simp only [hself] at hchange
  exact hchange

/-- One task comes to wait, or stops waiting. -/
theorem heldBelow_list (sem : QueueSem) (place : TaskId → Option (QueueCall × QueueStep))
    (ht : t < n) (hl : ∀ a, a ≠ t → (a ∈ l' ↔ a ∈ l)) :
    heldBelow sem place l' n + held sem (t ∈ l) (place t) =
      heldBelow sem place l n + held sem (t ∈ l') (place t) := by
  refine sum_range_change (f := fun a => held sem (a ∈ l) (place a))
    (g := fun a => held sem (a ∈ l') (place a)) ht fun a ha => ?_
  simp only [hl a ha]

/-- Tasks that are outside of the calls hold no unit. -/
theorem heldBelow_mono (hn : n ≤ n') (hplace : ∀ t, place t ≠ none → t < n) :
    heldBelow sem place l n' = heldBelow sem place l n := by
  symm
  refine Finset.sum_subset (Finset.range_mono hn) fun t _ ht => ?_
  have hnone : place t = none := by
    by_contra hne
    exact ht (Finset.mem_range.mpr (hplace t hne))
  rw [hnone]
  rfl

/-! ### The invariant -/

/-- The units of a semaphore: those of its counter, and those that tasks hold. -/
def Shared.units (x : Shared) (W : WaitObj → List TaskId) (sem : QueueSem) : ℕ :=
  x.world.sys.count (x.queue.sem sem) +
    heldBelow sem x.place (W (.semaphore (x.queue.sem sem))) x.world.sys.nextPid

/-- The units of `items` are the items, and the units of `space` the free slots. -/
structure Shared.Inv (x : Shared) (L : List TaskId) (W : WaitObj → List TaskId) (c : TaskId) :
    Prop where
  kmain : x.world.Kmain L W c
  created : ∀ t, x.place t ≠ none → t < x.world.sys.nextPid
  waiting : ∀ sem, ∀ t ∈ W (.semaphore (x.queue.sem sem)),
    ∃ call, x.place t = some (call, .lock) ∧ call.takes = sem
  ring : ∃ buffer, x.queue.buffer = some buffer ∧
    Ring.Represents buffer x.queue.capacity x.queue.head x.queue.tail x.written x.read x.unread
  capacity_lt : x.queue.capacity < 2 ^ 64
  items : x.units W .items + x.read.length = x.written.length
  space : x.units W .space + x.written.length = x.read.length + x.queue.capacity

theorem Queue.sem_injective (queue : Queue) : Function.Injective queue.sem := by
  intro a b hab
  cases a with
  | items =>
    cases b with
    | items => rfl
    | space => exact absurd hab queue.apart
  | space =>
    cases b with
    | items => exact absurd hab.symm queue.apart
    | space => rfl

theorem Queue.sem_mem (queue : Queue) (sem : QueueSem) :
    .semaphore (queue.sem sem) ∈ queue.objects := by
  cases sem <;> simp [Queue.objects, Queue.sem]

/-- No semaphore has more units than the queue has slots. -/
theorem Shared.Inv.units_le (h : x.Inv L W c) (sem : QueueSem) :
    x.units W sem ≤ x.queue.capacity := by
  obtain ⟨buffer, -, hring⟩ := h.ring
  have hle := hring.length_le
  have hfits := hring.fits
  have hitems := h.items
  have hspace := h.space
  cases sem with
  | items => omega
  | space => omega

/-! ### Calls -/

/-- A call that is about another object leaves a semaphore alone. -/
theorem before_quiet (s : Sys) (L : List TaskId) (W : WaitObj → List TaskId) (c : TaskId) {k : ℕ}
    (hop : op.object ≠ some (.semaphore k)) :
    (op.before s L W c).count k = s.count k ∧
      op.waits s W c (.semaphore k) = W (.semaphore k) := by
  have hother (o : WaitObj) (l : List TaskId) (hne : .semaphore k ≠ o) :
      Function.update W o l (.semaphore k) = W (.semaphore k) := Function.update_of_ne hne _ _
  constructor
  · have hstep := countStep (L := L) (W := W) (c := c) k s ⟨0, 0, 0, ∅⟩ op
    generalize (op.before s L W c).count k = count at hstep
    generalize tallyCall k ⟨0, 0, 0, ∅⟩ s op = g at hstep
    cases hstep with
    | other _ _ => rfl
    | wait heq _ => exact absurd (congrArg Op.object heq) hop
    | tryWait heq _ => exact absurd (congrArg Op.object heq) hop
    | signal heq _ => exact absurd (congrArg Op.object heq) hop
    | handOn t heq _ => rfl
  · cases op using Op.waitOn_cases with
    | waitOn o =>
      rw [waits_waitOn]
      split_ifs with hb
      · apply hother
        rintro rfl
        exact hop rfl
      · rfl
    | exit => exact hother (.task c) _ nofun
    | mutexUnlock m => exact hother (.mutex m) _ nofun
    | semaphoreSignal k' => exact hother (.semaphore k') _ fun heq => hop (congrArg some heq.symm)
    | eventSet e => exact hother (.event e) _ nofun
    | _ => rfl

theorem Op.Outcome.nextPid_le (hout : op.Outcome s L W c s' L' c') : s.nextPid ≤ s'.nextPid := by
  have hbefore := (before_frame s L W c op).nextPid
  cases hout with
  | returns hy => exact hbefore
  | yields hy hs =>
    rw [hs.frame]
    exact hbefore

/-- What a call does to the world. -/
theorem Shared.Inv.calls (h : x.Inv L W c) (hcalls : x.Calls op w) :
    ∃ L' c', w.Kmain L' (op.waits x.world.sys W c) c' ∧
      w.sys.count = (op.before x.world.sys L W c).count ∧
      x.world.sys.nextPid ≤ w.sys.nextPid := by
  obtain ⟨hlegal, hstays, hexec⟩ := hcalls
  obtain ⟨w', L', c', heq, hout, hk⟩ := h.kmain.exec hlegal hstays
  obtain rfl := Option.some_injective _ (heq.symm.trans hexec)
  exact ⟨L', c', hk, hout.count, hout.nextPid_le⟩

/-- Only tasks that exist are in a call, wherever the caller goes. -/
theorem Shared.Inv.created_update (h : x.Inv L W c) (ht : Function.update x.place c p t ≠ none) :
    t < x.world.sys.nextPid := by
  by_cases htc : t = c
  · exact htc ▸ h.kmain.inv.sys.current_lt
  · rw [Function.update_of_ne htc] at ht
    exact h.created t ht

/-- The tasks that wait stay at their places, wherever the caller goes. -/
theorem Shared.Inv.waiting_update (h : x.Inv L W c)
    (ht : t ∈ W (.semaphore (x.queue.sem sem))) :
    ∃ call, Function.update x.place c p t = some (call, .lock) ∧ call.takes = sem := by
  have htc : t ≠ c := by
    rintro rfl
    exact not_mem_of_control h.kmain _ ht
  rw [Function.update_of_ne htc]
  exact h.waiting sem t ht

/-- A call keeps the invariant if it keeps the units of both semaphores. -/
theorem Shared.Inv.goto (h : x.Inv L W c) (hk : w.Kmain L' W' c')
    (hpid : x.world.sys.nextPid ≤ w.sys.nextPid)
    (hunits : ∀ sem, w.sys.count (x.queue.sem sem) + heldBelow sem (Function.update x.place c p)
      (W' (.semaphore (x.queue.sem sem))) x.world.sys.nextPid = x.units W sem)
    (hwaiting : ∀ sem, ∀ t ∈ W' (.semaphore (x.queue.sem sem)),
      ∃ call, Function.update x.place c p t = some (call, .lock) ∧ call.takes = sem) :
    (x.goto w c p).Inv L' W' c' := by
  have hsame (sem : QueueSem) : (x.goto w c p).units W' sem = x.units W sem := by
    rw [← hunits sem]
    exact congrArg (w.sys.count (x.queue.sem sem) + ·)
      (heldBelow_mono hpid fun t => h.created_update)
  refine ⟨hk, fun t ht => (h.created_update ht).trans_le hpid, hwaiting, h.ring, h.capacity_lt,
    ?_, ?_⟩
  · rw [hsame]
    exact h.items
  · rw [hsame]
    exact h.space

/-- A call that is about another object, by a task whose units stay the same. -/
theorem Shared.Inv.quiet (h : x.Inv L W c) (hop : op.object ≠ some (.semaphore (x.queue.sem sem)))
    (hcount : w.sys.count = (op.before x.world.sys L W c).count)
    (hheld : held sem False p = held sem False (x.place c)) :
    w.sys.count (x.queue.sem sem) + heldBelow sem (Function.update x.place c p)
      (op.waits x.world.sys W c (.semaphore (x.queue.sem sem))) x.world.sys.nextPid =
      x.units W sem := by
  obtain ⟨hbefore, hwaits⟩ := before_quiet x.world.sys L W c hop
  rw [hcount, hbefore, hwaits]
  have hplace := heldBelow_place sem x.place (W (.semaphore (x.queue.sem sem))) p
    h.kmain.inv.sys.current_lt
  have hc : ¬ c ∈ W (.semaphore (x.queue.sem sem)) := not_mem_of_control h.kmain _
  simp only [hc] at hplace
  unfold Shared.units
  omega

/-- A call that is not about the semaphores of the queue. -/
theorem Shared.Inv.other (h : x.Inv L W c) (hcalls : x.Calls op w)
    (hop : ∀ sem, op.object ≠ some (.semaphore (x.queue.sem sem)))
    (hheld : ∀ sem, held sem False p = held sem False (x.place c)) :
    ∃ L' W' c', (x.goto w c p).Inv L' W' c' := by
  obtain ⟨L', c', hk, hcount, hpid⟩ := h.calls hcalls
  refine ⟨L', _, c', h.goto hk hpid (fun sem => ?_) fun sem t ht => ?_⟩
  · exact h.quiet (hop sem) hcount (hheld sem)
  · rw [(before_quiet x.world.sys L W c (hop sem)).2] at ht
    exact h.waiting_update ht

/-- `semaphore_wait` at the beginning of a call. -/
theorem Shared.Inv.wait (h : x.Inv L W c) (hplace : x.place c = none)
    (hcalls : x.Calls (.semaphoreWait (x.queue.sem call.takes)) w) :
    ∃ L' W' c', (x.goto w c (some (call, .lock))).Inv L' W' c' := by
  obtain ⟨L', c', hk, hcount, hpid⟩ := h.calls hcalls
  set k := x.queue.sem call.takes with hkdef
  have hother (sem : QueueSem) (hne : sem ≠ call.takes) :
      (Op.semaphoreWait k).object ≠ some (.semaphore (x.queue.sem sem)) := by
    intro heq
    exact hne (x.queue.sem_injective (WaitObj.semaphore.inj (Option.some_injective _ heq))).symm
  have hc : c ∉ W (.semaphore k) := not_mem_of_control h.kmain _
  have hlt := h.kmain.inv.sys.current_lt
  have hbefore : ((Op.semaphoreWait k).before x.world.sys L W c) =
      if Blocks x.world.sys (.semaphore k) then pushed x.world.sys c (.semaphore k)
      else acquire x.world.sys (.semaphore k) := before_waitOn (.semaphore k)
  have hwaits : (Op.semaphoreWait k).waits x.world.sys W c =
      if Blocks x.world.sys (.semaphore k)
      then Function.update W (.semaphore k) (c :: W (.semaphore k)) else W :=
    waits_waitOn (.semaphore k)
  refine ⟨L', _, c', h.goto hk hpid (fun sem => ?_) fun sem t ht => ?_⟩
  · by_cases hsem : sem = call.takes
    · subst hsem
      rw [hcount, hbefore, hwaits]
      split_ifs with hb
      · -- the caller waits, and holds no unit
        have hl : ∀ a, a ≠ c → (a ∈ c :: W (.semaphore k) ↔ a ∈ W (.semaphore k)) :=
          fun a ha => by simp [ha]
        have hlist := heldBelow_list call.takes x.place hlt hl
        have hgo := heldBelow_place call.takes x.place (c :: W (.semaphore k))
          (some (call, .lock)) hlt
        simp only [held, hplace, List.mem_cons, true_or, not_true_eq_false, and_false, if_false,
          Nat.add_zero] at hlist hgo
        rw [Function.update_self, hgo, hlist]
        rfl
      · -- the caller takes a unit from the counter
        have hpos : 0 < x.world.sys.count k := Nat.pos_of_ne_zero hb
        have hgo := heldBelow_place call.takes x.place (W (.semaphore k)) (some (call, .lock)) hlt
        simp only [held, hplace, hc, not_false_eq_true, and_true, if_true, Nat.add_zero] at hgo
        have hdec : (acquire x.world.sys (.semaphore k)).count k = x.world.sys.count k - 1 :=
          Function.update_self ..
        unfold Shared.units
        rw [hdec, hgo, ← hkdef]
        omega
    · refine h.quiet (hother sem hsem) hcount ?_
      simp [held, hplace, Ne.symm hsem]
  · by_cases hsem : sem = call.takes
    · subst hsem
      rcases mem_waits ht with ht | ⟨rfl, -, -⟩
      · exact h.waiting_update ht
      · exact ⟨call, Function.update_self .., rfl⟩
    · rw [(before_quiet x.world.sys L W c (hother sem hsem)).2] at ht
      exact h.waiting_update ht

/-- `semaphore_signal` at the end of a call. -/
theorem Shared.Inv.signal (h : x.Inv L W c) (hplace : x.place c = some (call, .signal))
    (hcalls : x.Calls (.semaphoreSignal (x.queue.sem call.gives)) w) :
    ∃ L' W' c', (x.goto w c none).Inv L' W' c' := by
  obtain ⟨L', c', hk, hcount, hpid⟩ := h.calls hcalls
  set k := x.queue.sem call.gives with hkdef
  have hother (sem : QueueSem) (hne : sem ≠ call.gives) :
      (Op.semaphoreSignal k).object ≠ some (.semaphore (x.queue.sem sem)) := by
    intro heq
    exact hne (x.queue.sem_injective (WaitObj.semaphore.inj (Option.some_injective _ heq))).symm
  have hc : c ∉ W (.semaphore k) := not_mem_of_control h.kmain _
  have hlt := h.kmain.inv.sys.current_lt
  have hwaits : (Op.semaphoreSignal k).waits x.world.sys W c (.semaphore k) =
      (W (.semaphore k)).tail := Function.update_self ..
  refine ⟨L', _, c', h.goto hk hpid (fun sem => ?_) fun sem t ht => ?_⟩
  · by_cases hsem : sem = call.gives
    · subst hsem
      have hgo (l : List TaskId) := heldBelow_place call.gives x.place l none hlt
      simp only [held, hplace, if_true, Nat.add_zero] at hgo
      rw [hcount, hwaits]
      show (semaphoreSignal x.world.sys k).count k + _ = _
      have hle : x.units W call.gives ≤ x.queue.capacity := h.units_le call.gives
      have hcapacity := h.capacity_lt
      unfold Shared.units at hle ⊢
      rw [← hkdef] at hle ⊢
      unfold semaphoreSignal
      rcases h.kmain.inv.sys.waits.waiters_cases (.semaphore k) with
        ⟨hnull, hnil⟩ | ⟨a, l, hsome, hcons⟩
      · -- the unit goes to the counter
        have hgo := hgo []
        rw [hnil] at hle ⊢
        rw [hnull, List.tail_nil]
        show Function.update x.world.sys.count k (u64 (x.world.sys.count k + 1)) k + _ = _
        rw [Function.update_self, u64_of_lt (by omega)]
        omega
      · -- the first waiter gets the unit
        have hmem : a ∈ W (.semaphore k) := hcons ▸ List.mem_cons_self
        obtain ⟨call', ha, htakes⟩ := h.waiting call.gives a hmem
        have hnodup := (h.kmain.inv.sys.waits.chain (.semaphore k)).nodup
        rw [hcons] at hnodup
        have hnot : a ∉ l := (List.nodup_cons.mp hnodup).1
        have hl : ∀ b, b ≠ a → (b ∈ l ↔ b ∈ a :: l) := fun b hb => by simp [hb]
        have hlist := heldBelow_list call.gives x.place (h.kmain.inv.sys.lt_of_mem hmem) hl
        simp only [held, ha, htakes, List.mem_cons_self, hnot, not_true_eq_false,
          not_false_eq_true, and_true, and_false, if_true, if_false, Nat.add_zero] at hlist
        have hgo := hgo l
        rw [hsome, hcons, List.tail_cons]
        show x.world.sys.count k + _ = _
        omega
    · refine h.quiet (hother sem hsem) hcount ?_
      simp [held, hplace, Ne.symm hsem]
  · by_cases hsem : sem = call.gives
    · subst hsem
      rw [hwaits] at ht
      exact h.waiting_update (List.mem_of_mem_tail ht)
    · rw [(before_quiet x.world.sys L W c (hother sem hsem)).2] at ht
      exact h.waiting_update ht

/-! ### The buffer -/

theorem Queue.put_eq (hbuffer : queue.buffer = some buffer) (htail : queue.tail < queue.capacity)
    (hlt : queue.capacity < 2 ^ 64) (item : ℕ) :
    queue.put item = some { queue with
      buffer := some (Function.update buffer queue.tail item)
      tail := Ring.next queue.capacity queue.tail
      size := u64 (queue.size + 1) } := by
  unfold Queue.put Ring.next
  simp only [hbuffer, Option.map_some, u64_of_lt (show queue.tail + 1 < 2 ^ 64 by omega)]
  split_ifs <;> rfl

theorem Queue.take_eq (hbuffer : queue.buffer = some buffer) (hhead : queue.head < queue.capacity)
    (hlt : queue.capacity < 2 ^ 64) :
    queue.take = some (buffer queue.head, { queue with
      head := Ring.next queue.capacity queue.head
      size := u64 (queue.size + (2 ^ 64 - 1)) }) := by
  unfold Queue.take Ring.next
  simp only [hbuffer, Option.map_some, u64_of_lt (show queue.head + 1 < 2 ^ 64 by omega)]
  split_ifs <;> rfl

/-- A task that is about to use the buffer has a unit. -/
theorem Shared.Inv.units_pos (h : x.Inv L W c) (hplace : x.place t = some (call, .update)) :
    0 < x.units W call.takes := by
  have hlt : t < x.world.sys.nextPid := h.created t fun hnone => by simp [hplace] at hnone
  have hle : held call.takes (t ∈ W (.semaphore (x.queue.sem call.takes))) (x.place t) ≤
      heldBelow call.takes x.place (W (.semaphore (x.queue.sem call.takes)))
        x.world.sys.nextPid :=
    Finset.single_le_sum
      (f := fun t => held call.takes (t ∈ W (.semaphore (x.queue.sem call.takes))) (x.place t))
      (fun _ _ => Nat.zero_le _) (Finset.mem_range.mpr hlt)
  rw [hplace] at hle
  simp only [held, if_true] at hle
  unfold Shared.units
  omega

/-- Before an item is written there is a free slot. -/
theorem Shared.Inv.room (h : x.Inv L W c) (hplace : x.place t = some (.push item, .update)) :
    x.written.length < x.read.length + x.queue.capacity := by
  have hpos : 0 < x.units W .space := h.units_pos hplace
  have hspace := h.space
  omega

/-- Before an item is read there is one. -/
theorem Shared.Inv.stored (h : x.Inv L W c) (hplace : x.place t = some (.pop, .update)) :
    x.read.length < x.written.length := by
  have hpos : 0 < x.units W .items := h.units_pos hplace
  have hitems := h.items
  omega

/-- The task gives up the unit it has taken, and will give one to the other semaphore. -/
theorem Shared.Inv.units_updated (h : x.Inv L W c) (hplace : x.place c = some (call, .update))
    (hworld : y.world = x.world) (hsem : y.queue.sem = x.queue.sem)
    (hy : y.place = Function.update x.place c (some (call, .unlock))) :
    y.units W call.takes + 1 = x.units W call.takes ∧
      y.units W call.gives = x.units W call.gives + 1 := by
  have hgo (sem : QueueSem) := heldBelow_place sem x.place (W (.semaphore (x.queue.sem sem)))
    (some (call, .unlock)) h.kmain.inv.sys.current_lt
  have htakes := hgo call.takes
  have hgives := hgo call.gives
  have hne : call.gives ≠ call.takes := by cases call <;> exact nofun
  simp only [held, hplace, hne, hne.symm, if_true, if_false, Nat.add_zero] at htakes hgives
  unfold Shared.units
  rw [hworld, hsem, hy]
  omega

/-- The invariant when the buffer has been used. -/
theorem Shared.Inv.updated (h : x.Inv L W c) (hplace : x.place c = some (call, .update))
    (hworld : y.world = x.world) (hsem : y.queue.sem = x.queue.sem)
    (hy : y.place = Function.update x.place c (some (call, .unlock)))
    (hring : ∃ buffer, y.queue.buffer = some buffer ∧ Ring.Represents buffer y.queue.capacity
      y.queue.head y.queue.tail y.written y.read y.unread)
    (hcapacity : y.queue.capacity = x.queue.capacity)
    (hcall : match call with
      | .push _ => y.written.length = x.written.length + 1 ∧ y.read = x.read
      | .pop => y.written = x.written ∧ y.read.length = x.read.length + 1) : y.Inv L W c := by
  obtain ⟨htakes, hgives⟩ := h.units_updated hplace hworld hsem hy
  have hitems := h.items
  have hspace := h.space
  refine ⟨hworld ▸ h.kmain, fun t ht => ?_, fun sem t ht => ?_, hring, ?_, ?_, ?_⟩
  · rw [hy] at ht
    exact hworld ▸ h.created_update ht
  · rw [hsem] at ht
    exact hy ▸ h.waiting_update ht
  · exact hcapacity ▸ h.capacity_lt
  · cases call with
    | push item =>
      obtain ⟨hwritten, hread⟩ := hcall
      change y.units W .items = x.units W .items + 1 at hgives
      rw [hwritten, hread]
      omega
    | pop =>
      obtain ⟨hwritten, hread⟩ := hcall
      change y.units W .items + 1 = x.units W .items at htakes
      rw [hwritten, hread]
      omega
  · cases call with
    | push item =>
      obtain ⟨hwritten, hread⟩ := hcall
      change y.units W .space + 1 = x.units W .space at htakes
      rw [hwritten, hread, hcapacity]
      omega
    | pop =>
      obtain ⟨hwritten, hread⟩ := hcall
      change y.units W .space = x.units W .space + 1 at hgives
      rw [hwritten, hread, hcapacity]
      omega

/-- **One step keeps the invariant.** -/
theorem Shared.Inv.step (h : x.Inv L W c) (hstep : x.Step y) : ∃ L' W' c', y.Inv L' W' c' := by
  obtain ⟨t, ht, hstep⟩ := hstep
  obtain rfl : c = t := h.kmain.inv.sys.runList.eq_of_current ht
  obtain ⟨buffer, hbuffer, hring⟩ := h.ring
  have hsame (w : World) : x.goto w c (x.place c) = { x with world := w } := by
    unfold Shared.goto
    rw [Function.update_eq_self]
  cases hstep with
  | tick hcalls =>
    rw [← hsame]
    exact h.other hcalls (fun _ => nofun) fun _ => rfl
  | other hplace hop hcalls =>
    rw [← hsame]
    exact h.other hcalls (fun sem => hop _ (x.queue.sem_mem sem)) fun _ => rfl
  | null hplace => exact ⟨L, W, c, h⟩
  | wait call hplace hitem hcalls => exact h.wait hplace hcalls
  | lock call hplace hcalls =>
    refine h.other hcalls (fun _ => nofun) fun sem => ?_
    rw [hplace]
    simp [held]
  | @push item queue hplace hput =>
    rw [Queue.put_eq hbuffer hring.tail_lt h.capacity_lt, Option.some.injEq] at hput
    subst hput
    refine ⟨L, W, c, h.updated hplace rfl rfl rfl ?_ rfl ⟨List.length_append, rfl⟩⟩
    exact ⟨_, rfl, hring.put (h.room hplace) item⟩
  | @pop item queue hplace htake =>
    rw [Queue.take_eq hbuffer hring.head_lt h.capacity_lt, Option.some.injEq,
      Prod.mk.injEq] at htake
    obtain ⟨rfl, rfl⟩ := htake
    refine ⟨L, W, c, h.updated hplace rfl rfl rfl ?_ rfl ⟨rfl, List.length_append⟩⟩
    exact ⟨_, hbuffer, hring.take (h.stored hplace)⟩
  | unlock hplace hcalls =>
    refine h.other hcalls (fun _ => nofun) fun sem => ?_
    rw [hplace]
    rfl
  | signal hplace hcalls => exact h.signal hplace hcalls

/-! ### Runs -/

/-- Initializing objects that no task waits for sets their values only. -/
theorem initObjects_eq {m k k' : ℕ} (hm : s.waiters (.mutex m) = none)
    (hk : s.waiters (.semaphore k) = none) (hk' : s.waiters (.semaphore k') = none)
    (initial initial' : ℕ) :
    semaphoreInit (semaphoreInit (mutexInit s m) k initial) k' initial' = { s with
      locked := Function.update s.locked m false
      count := Function.update (Function.update s.count k initial) k' initial' } := by
  have hnull (o : WaitObj) (ho : s.waiters o = none) :
      Function.update s.waiters o none = s.waiters := by
    rw [← ho, Function.update_eq_self]
  unfold semaphoreInit mutexInit
  simp only [hnull _ hm, hnull _ hk, hnull _ hk']

variable {queue₀ : Queue} {capacity : ℕ} {kmalloc : ℕ → Option (ℕ → ℕ)}

/-- All that a successful call of `queue_init` needs and does. -/
theorem queueInit_iff :
    queueInit s (some queue₀) capacity kmalloc = (true, s', some queue) ↔
      0 < capacity ∧ ∃ buffer, kmalloc (u64 (sizeofPointer * capacity)) = some buffer ∧
        queue = { queue₀ with buffer := some buffer, capacity := capacity, head := 0, tail := 0 } ∧
        s' = semaphoreInit (semaphoreInit (mutexInit s queue₀.lock) queue₀.items 0) queue₀.space
          capacity := by
  unfold queueInit
  by_cases hzero : capacity = 0
  · simp [hzero]
  · have hpos : 0 < capacity := Nat.pos_of_ne_zero hzero
    cases hbuffer : kmalloc (u64 (sizeofPointer * capacity)) with
    | none => simp [hzero]
    | some buffer =>
      simp only [hzero, if_false, Option.isNone_some, Bool.false_eq_true, Prod.mk.injEq, true_and,
        Option.some.injEq, exists_eq_left', hpos]
      rw [eq_comm, and_comm, eq_comm (a := queue)]

/-- Objects that no task waits for may get other values. -/
theorem World.Kmain.setSys (h : w.Kmain L W c) (hinv : s.Inv L W c)
    (hstate : s.state = w.sys.state) (hnext : s.next = w.sys.next) :
    World.Kmain { w with sys := s } L W c where
  inv := by
    refine ⟨hinv, (congrFun hstate c).trans h.inv.running, fun t ht => ?_, h.inv.inside,
      h.inv.outside⟩
    obtain ⟨hL, hnull, hready⟩ := h.inv.unadded t ht
    exact ⟨hL, (congrFun hnext t).trans hnull, (congrFun hstate t).trans hready⟩
  listed := h.listed
  awake := by
    rw [hstate]
    exact h.awake

/-- While no task is in a call all units are in the counters. -/
theorem Shared.units_start (w : World) (s : Sys) (queue : Queue) (sem : QueueSem) :
    (Shared.start w s queue).units W sem = s.count (queue.sem sem) := by
  have hnone : heldBelow sem (fun _ => none) (W (.semaphore (queue.sem sem))) s.nextPid = 0 :=
    Finset.sum_eq_zero fun _ _ => rfl
  exact congrArg (s.count (queue.sem sem) + ·) hnone

theorem Shared.Inv.start (h : w.Kmain L W c) (hnew : ∀ o ∈ queue₀.objects, w.sys.waiters o = none)
    (hcapacity : capacity < 2 ^ 64)
    (hinit : queueInit w.sys (some queue₀) capacity kmalloc = (true, s, some queue)) :
    (Shared.start w s queue).Inv L W c := by
  obtain ⟨hpos, buffer, -, rfl, rfl⟩ := queueInit_iff.mp hinit
  have hnil (o : WaitObj) (ho : o ∈ queue₀.objects) : W o = [] := by
    have hchain := h.inv.sys.waits.chain o
    rw [hnew o ho] at hchain
    exact chain_none.mp hchain
  have hlock : w.sys.waiters (.mutex queue₀.lock) = none := hnew _ (by simp [Queue.objects])
  have hitems : w.sys.waiters (.semaphore queue₀.items) = none :=
    hnew _ (queue₀.sem_mem .items)
  have hspace : w.sys.waiters (.semaphore queue₀.space) = none :=
    hnew _ (queue₀.sem_mem .space)
  rw [initObjects_eq hlock hitems hspace]
  have h₁ := h.inv.sys.setLocked (m := queue₀.lock) (b := false) fun hne =>
    absurd (hnil _ (by simp [Queue.objects])) hne
  have h₂ := h₁.setCount (k := queue₀.items) (n := 0) fun _ => rfl
  have h₃ := h₂.setCount (k := queue₀.space) (n := capacity) fun hne =>
    absurd (hnil _ (queue₀.sem_mem .space)) hne
  refine ⟨h.setSys h₃ rfl rfl, fun t ht => absurd rfl ht, fun sem t ht => ?_,
    ⟨buffer, rfl, Ring.Represents.empty buffer hpos⟩, hcapacity, ?_, ?_⟩
  · have hmem : t ∈ W (.semaphore (queue₀.sem sem)) := by cases sem <;> exact ht
    rw [hnil _ (queue₀.sem_mem sem)] at hmem
    exact absurd hmem List.not_mem_nil
  · rw [Shared.units_start]
    show Function.update (Function.update w.sys.count queue₀.items 0) queue₀.space capacity
      queue₀.items = 0
    rw [Function.update_of_ne queue₀.apart, Function.update_self]
  · rw [Shared.units_start]
    show Function.update (Function.update w.sys.count queue₀.items 0) queue₀.space capacity
      queue₀.space = 0 + capacity
    rw [Function.update_self, Nat.zero_add]

theorem Queue.put_capacity (h : queue.put item = some queue') :
    queue'.capacity = queue.capacity := by
  unfold Queue.put at h
  obtain ⟨buffer, -, rfl⟩ := Option.map_eq_some_iff.mp h
  dsimp only
  split_ifs <;> rfl

theorem Queue.take_capacity (h : queue.take = some (item, queue')) :
    queue'.capacity = queue.capacity := by
  unfold Queue.take at h
  obtain ⟨buffer, -, heq⟩ := Option.map_eq_some_iff.mp h
  obtain ⟨-, rfl⟩ := Prod.mk.inj heq
  dsimp only
  split_ifs <;> rfl

/-- No step changes the capacity. -/
theorem Shared.capacity_eq (h : x.Step y) : y.queue.capacity = x.queue.capacity := by
  obtain ⟨t, -, h⟩ := h
  cases h with
  | push hplace hput => exact Queue.put_capacity hput
  | pop hplace htake => exact Queue.take_capacity htake
  | _ => rfl

theorem Shared.Inv.run (h : x.Inv L W c) (hrun : ReflTransGen Shared.Step x y) :
    (∃ L' W' c', y.Inv L' W' c') ∧ y.queue.capacity = x.queue.capacity := by
  induction hrun with
  | refl => exact ⟨⟨L, W, c, h⟩, rfl⟩
  | tail _ hstep ih =>
    obtain ⟨⟨L', W', c', hinv⟩, hcapacity⟩ := ih
    exact ⟨hinv.step hstep, (Shared.capacity_eq hstep).trans hcapacity⟩

/-- **The queue is a lossless first-in first-out queue.**  In every run of tasks that use it, from
the state that `queue_init` leaves, the items read are the first ones written; a task that is
about to write an item finds a slot that is not in use, and one that is about to read finds a slot
with an item; at most `capacity` items are stored; and `head` and `tail` are slots. -/
theorem queue_fifo
    (hworld : ReflTransGen (World.Step fun w op => w.Legal op ∧ w.BootStays op)
      (World.boot initial) w)
    (hnew : ∀ o ∈ queue₀.objects, w.sys.waiters o = none)
    (hslots : sizeofPointer * capacity < 2 ^ 64)
    (hinit : queueInit w.sys (some queue₀) capacity kmalloc = (true, s, some queue))
    (hrun : ReflTransGen Shared.Step (Shared.start w s queue) x) :
    x.read <+: x.written ∧
      (∀ t item, x.place t = some (.push item, .update) → x.queue.tail ∉ x.unread) ∧
      (∀ t, x.place t = some (.pop, .update) → x.queue.head ∈ x.unread) ∧
      x.unread.card ≤ capacity ∧ x.written.length ≤ x.read.length + capacity ∧
      x.queue.head < capacity ∧ x.queue.tail < capacity := by
  obtain ⟨L₀, W₀, c₀, hk⟩ := World.Kmain.run hworld
  have hlt : capacity < 2 ^ 64 := by
    unfold sizeofPointer at hslots
    omega
  have hstart := Shared.Inv.start hk hnew hlt hinit
  obtain ⟨⟨L, W, c, h⟩, hcapacity⟩ := hstart.run hrun
  obtain ⟨buffer, -, hring⟩ := h.ring
  obtain ⟨-, buffer₀, -, rfl, -⟩ := queueInit_iff.mp hinit
  have hcap : x.queue.capacity = capacity := hcapacity
  rw [← hcap]
  refine ⟨hring.order, fun t item ht => ?_, fun t ht => ?_, hring.card_unread_le, hring.fits,
    hring.head_lt, hring.tail_lt⟩
  · exact hring.tail_notMem (h.room ht)
  · exact hring.head_mem (h.stored ht)

/-- The boot task has pushed an item to a queue of two slots, and popped it. -/
theorem queue_fifo_example :
    ∃ x : Shared, x.written = [7] ∧ x.read = [7] ∧ x.read <+: x.written ∧ x.unread.card ≤ 2 ∧
      x.queue.head < 2 ∧ x.queue.tail < 2 := by
  let queue₀ : Queue := ⟨none, 0, 0, 0, 0, 3, 4, 5, by decide⟩
  obtain ⟨s, queue, hinit, hcurrent, hspace, hfree, full, hput⟩ : ∃ s queue,
      queueInit (schedulerInit fun _ => 0) (some queue₀) 2 (fun _ => some fun _ => 0) =
        (true, s, some queue) ∧ s.current = some 0 ∧ ¬ Blocks s (.semaphore queue.space) ∧
      ¬ Blocks s (.mutex queue.lock) ∧ ∃ full, queue.put 7 = some full :=
    ⟨_, _, rfl, rfl, by decide, by decide, _, rfl⟩
  set x₀ := Shared.start (World.boot fun _ => 0) s queue
  obtain ⟨x₁, hpush, hnone, hwritten, hread, hpushed⟩ :=
    Shared.run_push (x := x₀) hcurrent rfl (by decide) hspace hfree hput
  -- the semaphores and the queue after `queue_push`
  have hafter : x₁.world.sys.current = some 0 ∧ ¬ Blocks x₁.world.sys (.semaphore x₁.queue.items) ∧
      ¬ Blocks x₁.world.sys (.mutex x₁.queue.lock) ∧ ∃ rest, x₁.queue.take = some (7, rest) := by
    cases hinit
    obtain ⟨hs, hq⟩ := Prod.mk.inj (Option.some_injective _ hpushed)
    rw [← hs, ← Option.some_injective _ hq]
    exact ⟨rfl, by decide, by decide, _, rfl⟩
  obtain ⟨hcurrent₁, hitem, hfree₁, rest, htake⟩ := hafter
  obtain ⟨x, hpop, -, hwritten', hread', -⟩ :=
    Shared.run_pop hcurrent₁ hnone hitem hfree₁ htake
  have hnew : ∀ o ∈ queue₀.objects, (World.boot fun _ => 0).sys.waiters o = none := fun _ _ => rfl
  obtain ⟨horder, -, -, hcard, -, hhead, htail⟩ :=
    queue_fifo ReflTransGen.refl hnew (by decide) hinit (hpush.trans hpop)
  refine ⟨x, hwritten'.trans hwritten, ?_, horder, hcard, hhead, htail⟩
  rw [hread', hread]
  rfl

end Bethany
