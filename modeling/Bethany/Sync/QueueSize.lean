import Bethany.Sync.QueueFifo

/-!
# The size of the bounded queue

`queue_push` adds one to `size` and `queue_pop` takes one from it, but `queue_init` does not set
it.

* `Queue.garbage`: the memory of a queue before `queue_init`;
* `Shared.SizeRight`: `size` is the number of items, and agrees with `head` and `tail`;
* `Shared.Counts`: what `size` counts in every run;
* `queueSize_iff`: in every state of a run `size` is right exactly if it was zero before
  `queue_init`.
-/

namespace Bethany

open Machine LinkedList Relation

/-- The system where the memory of the queue's semaphores and of its mutex holds anything. -/
def Queue.garbage (queue : Queue) (s : Sys) (waiters : WaitObj → Option TaskId) (count : ℕ → ℕ)
    (locked : ℕ → Bool) : Sys :=
  { s with
    waiters := fun o => if o ∈ queue.objects then waiters o else s.waiters o
    count := fun k => if k = queue.items ∨ k = queue.space then count k else s.count k
    locked := fun m => if m = queue.lock then locked m else s.locked m }

/-- `size` is the number of slots in use, is at most `capacity`, and leads from `head` to
`tail`. -/
def Shared.SizeRight (x : Shared) : Prop :=
  x.queue.size = x.unread.card ∧ x.queue.size ≤ x.queue.capacity ∧
    (x.queue.head + x.queue.size) % x.queue.capacity = x.queue.tail

/-- `size` has counted the items from `n` on. -/
structure Shared.Counts (n : ℕ) (x : Shared) : Prop where
  limit : x.queue.size < 2 ^ 64
  count : u64 (x.queue.size + x.read.length) = u64 (n + x.written.length)

variable {x y : Shared} {w : World} {L : List TaskId} {W : WaitObj → List TaskId} {c : TaskId}
  {initial : ℕ → ℕ} {s s' : Sys} {queue₀ queue : Queue} {n capacity : ℕ}
  {kmalloc : ℕ → Option (ℕ → ℕ)} {waiters : WaitObj → Option TaskId} {count : ℕ → ℕ}
  {locked : ℕ → Bool}

/-- The initialisation of its objects overwrites what was in their memory. -/
theorem initObjects_garbage (initial initial' : ℕ) :
    semaphoreInit (semaphoreInit (mutexInit (queue₀.garbage s waiters count locked) queue₀.lock)
        queue₀.items initial) queue₀.space initial' =
      semaphoreInit (semaphoreInit (mutexInit s queue₀.lock) queue₀.items initial) queue₀.space
        initial' := by
  simp only [semaphoreInit, mutexInit, Queue.garbage, Sys.mk.injEq, true_and, and_true]
  refine ⟨?_, ?_, ?_⟩
  · funext o
    simp only [Function.update_apply, Queue.objects, List.mem_cons, List.not_mem_nil, or_false]
    split_ifs <;> simp_all
  · funext m
    simp only [Function.update_apply]
    split_ifs <;> rfl
  · funext k
    simp only [Function.update_apply]
    split_ifs <;> simp_all

theorem queueInit_garbage
    (hinit : queueInit (queue₀.garbage s waiters count locked) (some queue₀) capacity kmalloc =
      (true, s', some queue)) :
    queueInit s (some queue₀) capacity kmalloc = (true, s', some queue) := by
  obtain ⟨hpos, buffer, hbuffer, hqueue, hs'⟩ := queueInit_iff.mp hinit
  rw [initObjects_garbage] at hs'
  exact queueInit_iff.mpr ⟨hpos, buffer, hbuffer, hqueue, hs'⟩

/-- One step keeps the count. -/
theorem Shared.Counts.step (hcounts : x.Counts n) (h : x.Inv L W c) (hstep : x.Step y) :
    y.Counts n := by
  obtain ⟨t, -, hstep⟩ := hstep
  obtain ⟨buffer, hbuffer, hring⟩ := h.ring
  obtain ⟨hlimit, hcount⟩ := hcounts
  cases hstep with
  | @push item queue hplace hput =>
    rw [Queue.put_eq hbuffer hring.tail_lt h.capacity_lt, Option.some.injEq] at hput
    subst hput
    refine ⟨Nat.mod_lt _ (by norm_num), ?_⟩
    unfold u64 at hcount
    simp only [u64, List.length_append, List.length_singleton]
    omega
  | @pop item queue hplace htake =>
    rw [Queue.take_eq hbuffer hring.head_lt h.capacity_lt, Option.some.injEq,
      Prod.mk.injEq] at htake
    obtain ⟨rfl, rfl⟩ := htake
    refine ⟨Nat.mod_lt _ (by norm_num), ?_⟩
    unfold u64 at hcount
    simp only [u64, List.length_append, List.length_singleton]
    omega
  | _ => exact ⟨hlimit, hcount⟩

theorem Shared.Counts.run (hcounts : x.Counts n) (h : x.Inv L W c)
    (hrun : ReflTransGen Shared.Step x y) : y.Counts n := by
  induction hrun with
  | refl => exact hcounts
  | tail hrun hstep ih =>
    obtain ⟨⟨L', W', c', hinv⟩, -⟩ := h.run hrun
    exact ih.step hinv hstep

/-- A count that began at `n` is right exactly if `n` is zero. -/
theorem Shared.Counts.sizeRight_iff (hcounts : x.Counts n) (h : x.Inv L W c) (hn : n < 2 ^ 64) :
    x.SizeRight ↔ n = 0 := by
  obtain ⟨buffer, -, hring⟩ := h.ring
  obtain ⟨hlimit, hcount⟩ := hcounts
  have hcard := hring.card_unread
  have hle := hring.length_le
  have hfits := hring.fits
  have hcapacity := h.capacity_lt
  have hsize : x.queue.size = x.unread.card ↔ n = 0 := by
    unfold u64 at hcount
    omega
  rw [← hsize]
  refine ⟨fun hright => hright.1, fun heq => ⟨heq, ?_, ?_⟩⟩
  · rw [heq]
    exact hring.card_unread_le
  · rw [heq]
    exact hring.head_add_card

/-- **`size` counts the items** in every state of every run of tasks that use the queue, whatever
was in its memory before, exactly if that field was zero before `queue_init`. -/
theorem queueSize_iff
    (hworld : ReflTransGen (World.Step fun w op => w.Legal op ∧ w.BootStays op)
      (World.boot initial) w)
    (hnew : ∀ o ∈ queue₀.objects, w.sys.waiters o = none)
    (hcapacity : capacity < 2 ^ 64) (hsize : queue₀.size < 2 ^ 64)
    (hinit : queueInit (queue₀.garbage w.sys waiters count locked) (some queue₀) capacity kmalloc =
      (true, s, some queue))
    (hrun : ReflTransGen Shared.Step (Shared.start w s queue) x) :
    x.SizeRight ↔ queue₀.size = 0 := by
  have hinit' := queueInit_garbage hinit
  obtain ⟨L₀, W₀, c₀, hk⟩ := World.Kmain.run hworld
  have hstart := Shared.Inv.start hk hnew hcapacity hinit'
  obtain ⟨-, buffer₀, -, rfl, -⟩ := queueInit_iff.mp hinit'
  obtain ⟨⟨L, W, c, h⟩, -⟩ := hstart.run hrun
  have hcounts : (Shared.start w s { queue₀ with
      buffer := some buffer₀, capacity := capacity, head := 0, tail := 0 }).Counts queue₀.size :=
    ⟨hsize, rfl⟩
  exact (hcounts.run hstart hrun).sizeRight_iff h hsize

/-- The boot task has written an item to a queue whose memory was zero. -/
theorem queueSize_iff_example : ∃ x : Shared, x.queue.size = 1 ∧ x.SizeRight := by
  let queue₀ : Queue := ⟨none, 0, 0, 0, 0, 3, 4, 5, by decide⟩
  obtain ⟨s, queue, hinit, x₁, h₁, x₂, h₂, x, h₃, hone⟩ : ∃ s queue,
      queueInit (queue₀.garbage (schedulerInit fun _ => 0) (fun _ => some 9) (fun _ => 8)
        fun _ => true) (some queue₀) 2 (fun _ => some fun _ => 0) = (true, s, some queue) ∧
      ∃ x₁, (Shared.start (World.boot fun _ => 0) s queue).Step x₁ ∧
        ∃ x₂, x₁.Step x₂ ∧ ∃ x, x₂.Step x ∧ x.queue.size = 1 :=
    ⟨_, _, rfl,
      _, ⟨0, rfl, .wait (.push 7) rfl (by decide)
        ⟨trivial, World.bootStays_waitOn (o := .semaphore 4) (by decide), rfl⟩⟩,
      _, ⟨0, rfl, .lock (.push 7) rfl
        ⟨trivial, World.bootStays_waitOn (o := .mutex 5) (by decide), rfl⟩⟩,
      _, ⟨0, rfl, .push rfl rfl⟩, rfl⟩
  have hrun := ((ReflTransGen.single h₁).tail h₂).tail h₃
  have hnew : ∀ o ∈ queue₀.objects, (World.boot fun _ => 0).sys.waiters o = none := fun _ _ => rfl
  exact ⟨x, hone,
    (queueSize_iff ReflTransGen.refl hnew (by decide) (by decide) hinit hrun).mpr rfl⟩

/-- The field holds 5 before `queue_init`, and so it does after it. -/
theorem queueSize_unset : ∃ s queue,
    queueInit (schedulerInit fun _ => 0)
      (some ⟨none, 0, 0, 0, 5, 3, 4, 5, by decide⟩) 2 (fun _ => some fun _ => 0) =
        (true, s, some queue) ∧
      ¬ (Shared.start (World.boot fun _ => 0) s queue).SizeRight := by
  refine ⟨_, _, rfl, ?_⟩
  rintro ⟨hsize, -⟩
  exact absurd hsize (by decide)

end Bethany
