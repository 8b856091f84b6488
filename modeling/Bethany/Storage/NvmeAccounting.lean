import Bethany.Storage.Nvme

/-!
# The indices of the I/O rings

Every call moves `io_sq_tail` when it submits its command, and `io_cq_head` when it has found
its completion, but only where that completion reports no error: the error exit of
`nvme_io_wait_completion` comes before the move.

* `NvmeSys.Accounted`: what the two indices and their doorbells should be between calls;
* `NvmeSys.Ring`: the invariant of runs in which no call has met an error, `NvmeSys.Ring.exec`;
* `NvmeSys.Ring.finish_iff`: the end of one call;
* `nvme_accounted_iff`: whole runs.
-/

namespace Bethany

open Machine

/-- Both indices are the number of commands submitted, modulo the size of the rings, and each
was the last value written to its doorbell. -/
def NvmeSys.Accounted (s : NvmeSys) : Prop :=
  s.driver.ioCqHead = s.driver.ioSqTail ∧
  s.driver.ioSqTail = s.submitted % s.driver.ioQueueSize ∧
  s.driver.registers (nvmeDoorbellOffset s.driver 1 false) = s.driver.ioSqTail ∧
  s.driver.registers (nvmeDoorbellOffset s.driver 1 true) = s.driver.ioCqHead

/-- `io_cq_head` against `io_sq_tail`: one behind while a call waits for its completion. -/
def NvmeSys.HeadOk (s : NvmeSys) : NvmePhase → Prop
  | .idle => s.driver.ioCqHead = s.driver.ioSqTail
  | _ => ringNext s.driver.ioQueueSize s.driver.ioCqHead = s.driver.ioSqTail

/-- The invariant of runs in which no call has met an error. -/
structure NvmeSys.Ring (s : NvmeSys) : Prop where
  size : s.driver.ioQueueSize = 64
  tail : s.driver.ioSqTail = s.submitted % s.driver.ioQueueSize
  doorbell : s.driver.registers (nvmeDoorbellOffset s.driver 1 false) = s.driver.ioSqTail
  head : s.HeadOk s.phase

/-- The completion in view reports no error. -/
def NvmeSys.Succeeds (s : NvmeSys) : Prop := s.driver.cqe.status >>> 1 = 0

variable {s s' s₁ : NvmeSys} {vmm : Vmm} {c : Nvme} {k : NvmeCall} {e : NvmeEvent}
  {n cid status size : ℕ} {events pre post : List NvmeEvent}

/-! ### One event -/

theorem ringNext_mod (hsize : 1 < size) (n : ℕ) : ringNext size (n % size) = (n + 1) % size := by
  have hlt : n % size < size := Nat.mod_lt _ (by omega)
  have hadd : (n + 1) % size = (n % size + 1) % size := by rw [Nat.mod_add_mod]
  rw [hadd]
  generalize n % size = i at hlt
  unfold ringNext
  split_ifs with hend
  · rw [hend, Nat.mod_self]
  · exact (Nat.mod_eq_of_lt (by omega)).symm

theorem ringNext_ne (hsize : 1 < size) (i : ℕ) : ringNext size i ≠ i := by
  unfold ringNext
  split_ifs with hend
  · omega
  · exact Nat.succ_ne_self i

theorem NvmeSys.Ring.start (vmm : Vmm) (c : Nvme) : (NvmeSys.start vmm c).Ring where
  size := rfl
  tail := rfl
  doorbell := Function.update_self ..
  head := rfl

theorem NvmeSys.Ring.call (h : s.Ring) (hidle : s.phase = .idle) : (s.call k).Ring := by
  have hhead : s.driver.ioCqHead = s.driver.ioSqTail := by
    have := h.head
    rwa [hidle] at this
  unfold NvmeSys.call
  cases k.command s.vmm s.driver with
  | none => exact h
  | some command =>
    refine ⟨h.size, ?_, Function.update_self .., ?_⟩
    · show ringNext s.driver.ioQueueSize s.driver.ioSqTail = (s.submitted + 1) % _
      rw [h.tail]
      exact ringNext_mod (by rw [h.size]; norm_num) _
    · exact congrArg (ringNext s.driver.ioQueueSize) hhead

/-- The success exit of `nvme_io_wait_completion` moves the head. -/
theorem nvmeIoFinish_of_zero (h : c.cqe.status >>> 1 = 0) :
    (nvmeIoFinish c).2 = nvmeWrite32 { c with ioCqHead := ringNext c.ioQueueSize c.ioCqHead }
      (nvmeDoorbellOffset c 1 true) (ringNext c.ioQueueSize c.ioCqHead) := by
  simp only [nvmeIoFinish]
  rw [if_neg (not_not.mpr h)]
  rfl

/-- The error exit does not. -/
theorem nvmeIoFinish_of_ne_zero (h : c.cqe.status >>> 1 ≠ 0) : (nvmeIoFinish c).2 = c := by
  simp only [nvmeIoFinish]
  rw [if_pos h]

/-- The end of a call that met no error accounts for its command. -/
theorem NvmeSys.Ring.finish (h : s.Ring) (hphase : s.phase = .found n) (hok : s.Succeeds) :
    NvmeSys.Accounted { s with phase := .idle, driver := (nvmeIoFinish s.driver).2 } := by
  have hhead : ringNext s.driver.ioQueueSize s.driver.ioCqHead = s.driver.ioSqTail := by
    have := h.head
    rwa [hphase] at this
  rw [nvmeIoFinish_of_zero hok, hhead]
  refine ⟨rfl, h.tail, ?_, Function.update_self ..⟩
  refine Eq.trans ?_ h.doorbell
  exact Function.update_of_ne (nvmeDoorbellOffset_ne _ _ rfl 1) ..

/-- **The end of one call**: its command is accounted for exactly if it met no error. -/
theorem NvmeSys.Ring.finish_iff (h : s.Ring) (hphase : s.phase = .found n) :
    NvmeSys.Accounted { s with phase := .idle, driver := (nvmeIoFinish s.driver).2 } ↔
      s.Succeeds := by
  refine ⟨fun hacc => ?_, h.finish hphase⟩
  by_contra hfail
  have hhead := h.head
  rw [hphase] at hhead
  -- the head has stayed one behind
  obtain ⟨heq, -⟩ := hacc
  rw [nvmeIoFinish_of_ne_zero hfail] at heq
  exact ringNext_ne (by rw [h.size]; norm_num) _ (hhead.trans heq.symm)

/-- Every event keeps the invariant, as long as no call meets an error. -/
theorem NvmeSys.Ring.exec (h : s.Ring) (hok : e = .finish → s.Succeeds)
    (hexec : s.exec e = some s') : s'.Ring := by
  cases e with
  | call call =>
    simp only [NvmeSys.exec] at hexec
    split_ifs at hexec with hidle
    exact Option.some.inj hexec ▸ h.call hidle
  | poll =>
    unfold NvmeSys.exec at hexec
    cases hp : s.phase with
    | polling n cid =>
      rw [hp] at hexec
      have hhead := h.head
      rw [hp] at hhead
      obtain rfl := Option.some.inj hexec
      unfold NvmeSys.poll
      split_ifs
      · exact ⟨h.size, h.tail, h.doorbell, hhead⟩
      · exact h
    | _ => rw [hp] at hexec; simp at hexec
  | finish =>
    unfold NvmeSys.exec at hexec
    cases hp : s.phase with
    | found n =>
      rw [hp] at hexec
      obtain rfl := Option.some.inj hexec
      obtain ⟨hhead, htail, hdoorbell, -⟩ := h.finish hp (hok rfl)
      refine ⟨?_, htail, hdoorbell, hhead⟩
      show (nvmeIoFinish s.driver).2.ioQueueSize = 64
      simp only [nvmeIoFinish]
      split_ifs <;> exact h.size
    | _ => rw [hp] at hexec; simp at hexec
  | fetch =>
    simp only [NvmeSys.exec] at hexec
    split_ifs at hexec with hne
    exact Option.some.inj hexec ▸ ⟨h.size, h.tail, h.doorbell, h.head⟩
  | post n cid status =>
    simp only [NvmeSys.exec] at hexec
    split_ifs at hexec with hmem
    exact Option.some.inj hexec ▸ ⟨h.size, h.tail, h.doorbell, h.head⟩

/-! ### Runs -/

theorem NvmeSys.run_append (s : NvmeSys) (pre post : List NvmeEvent) :
    s.run (pre ++ post) = (s.run pre).bind fun s => s.run post := by
  induction pre generalizing s with
  | nil => rfl
  | cons e pre ih =>
    show (s.exec e).bind (fun s => s.run (pre ++ post)) = _
    simp only [ih]
    exact (Option.bind_assoc ..).symm

/-- A run ends with the end of a call. -/
theorem NvmeSys.run_finish (h : s.run (pre ++ [.finish]) = some s') :
    ∃ s₁ n, s.run pre = some s₁ ∧ s₁.phase = .found n ∧
      s' = { s₁ with phase := .idle, driver := (nvmeIoFinish s₁.driver).2 } := by
  rw [NvmeSys.run_append] at h
  obtain ⟨s₁, hpre, h⟩ := Option.bind_eq_some_iff.mp h
  obtain ⟨s₂, hexec, hrun⟩ := Option.bind_eq_some_iff.mp h
  unfold NvmeSys.exec at hexec
  cases hp : s₁.phase with
  | found n =>
    rw [hp] at hexec
    refine ⟨s₁, n, hpre, hp, ?_⟩
    rw [← Option.some.inj hrun, ← Option.some.inj hexec]
  | _ => rw [hp] at hexec; simp at hexec

/-- No call of the run `events` from `s` meets an error. -/
def NvmeSys.Errorless (s : NvmeSys) (events : List NvmeEvent) : Prop :=
  ∀ pre s₁, pre ++ [.finish] <+: events → s.run pre = some s₁ → s₁.Succeeds

theorem NvmeSys.Ring.run (h : s.Ring) (hok : s.Errorless events) (hrun : s.run events = some s') :
    s'.Ring := by
  induction events generalizing s with
  | nil => exact Option.some.inj hrun ▸ h
  | cons e events ih =>
    obtain ⟨s₁, hexec, hrest⟩ := Option.bind_eq_some_iff.mp hrun
    refine ih (h.exec ?_ hexec) (fun pre s₂ hpre hs₂ => ?_) hrest
    · rintro rfl
      exact hok [] s ⟨events, rfl⟩ rfl
    · refine hok (e :: pre) s₂ ((List.prefix_cons_inj e).mpr hpre) ?_
      show (s.exec e).bind _ = _
      rw [hexec]
      exact hs₂

/-- Of a run without errors every prefix is one. -/
theorem NvmeSys.Errorless.of_prefix (h : s.Errorless events) (hpre : pre <+: events) :
    s.Errorless pre :=
  fun pre' s₁ hpre' hs₁ => h pre' s₁ (hpre'.trans hpre) hs₁

/-- No slot of the completion ring reports an error. -/
def Nvme.Clean (c : Nvme) : Prop := ∀ i, (c.ioCq i).status >>> 1 = 0

/-- The ring stays free of errors as long as the controller posts none. -/
theorem Nvme.Clean.exec (h : s.driver.Clean)
    (hpost : ∀ n cid status, e = .post n cid status → status >>> 1 = 0)
    (hexec : s.exec e = some s') : s'.driver.Clean := by
  cases e with
  | call call =>
    simp only [NvmeSys.exec] at hexec
    split_ifs at hexec
    obtain rfl := Option.some.inj hexec
    unfold NvmeSys.call
    cases call.command s.vmm s.driver <;> exact h
  | poll =>
    unfold NvmeSys.exec at hexec
    cases hp : s.phase with
    | polling n cid =>
      rw [hp] at hexec
      obtain rfl := Option.some.inj hexec
      unfold NvmeSys.poll
      split_ifs <;> exact h
    | _ => rw [hp] at hexec; simp at hexec
  | finish =>
    unfold NvmeSys.exec at hexec
    cases hp : s.phase with
    | found n =>
      rw [hp] at hexec
      obtain rfl := Option.some.inj hexec
      show (nvmeIoFinish s.driver).2.Clean
      simp only [nvmeIoFinish]
      split_ifs <;> exact h
    | _ => rw [hp] at hexec; simp at hexec
  | fetch =>
    simp only [NvmeSys.exec] at hexec
    split_ifs at hexec
    exact Option.some.inj hexec ▸ h
  | post n cid status =>
    simp only [NvmeSys.exec] at hexec
    split_ifs at hexec
    obtain rfl := Option.some.inj hexec
    intro i
    show (Function.update s.driver.ioCq s.cqTail ⟨cid, status⟩ i).status >>> 1 = 0
    by_cases hi : i = s.cqTail
    · rw [hi, Function.update_self]
      exact hpost n cid status rfl
    · rw [Function.update_of_ne hi]
      exact h i

/-- If the controller completes no command with an error, then no call meets one. -/
theorem Nvme.Clean.run (h : s.driver.Clean)
    (hpost : ∀ n cid status, .post n cid status ∈ events → status >>> 1 = 0)
    (hrun : s.run events = some s') : s'.driver.Clean := by
  induction events generalizing s with
  | nil => exact Option.some.inj hrun ▸ h
  | cons e events ih =>
    obtain ⟨s₁, hexec, hrest⟩ := Option.bind_eq_some_iff.mp hrun
    refine ih (h.exec (fun n cid status heq => ?_) hexec) (fun n cid status hmem => ?_) hrest
    · exact hpost n cid status (heq ▸ List.mem_cons_self)
    · exact hpost n cid status (List.mem_cons_of_mem e hmem)

/-- **Ring accounting.**  In a run the indices and doorbells are right after every return of a
call exactly if every call, when it returns, finds a completion that reports no error.  So it
is in every run in which the controller completes no command with an error. -/
theorem nvme_accounted_iff (vmm : Vmm) (c : Nvme)
    (hrun : (NvmeSys.start vmm c).run events = some s) :
    ((∀ pre s₁, pre ++ [.finish] <+: events →
        (NvmeSys.start vmm c).run (pre ++ [.finish]) = some s₁ → s₁.Accounted) ↔
      ∀ pre s₁, pre ++ [.finish] <+: events →
        (NvmeSys.start vmm c).run pre = some s₁ → s₁.driver.cqe.status >>> 1 = 0) ∧
    ((∀ n cid status, .post n cid status ∈ events → status >>> 1 = 0) →
      ∀ pre s₁, pre ++ [.finish] <+: events →
        (NvmeSys.start vmm c).run (pre ++ [.finish]) = some s₁ → s₁.Accounted) := by
  have hring := NvmeSys.Ring.start vmm c
  have hiff : (∀ pre s₁, pre ++ [.finish] <+: events →
      (NvmeSys.start vmm c).run (pre ++ [.finish]) = some s₁ → s₁.Accounted) ↔
      (NvmeSys.start vmm c).Errorless events := by
    constructor
    · intro hacc pre
      -- the first call to meet an error would not be accounted for
      induction hn : pre.length using Nat.strong_induction_on generalizing pre with
      | _ n ih =>
        intro s₁ hpre hs₁
        have hbefore : (NvmeSys.start vmm c).Errorless pre := by
          intro pre' s₂ hpre' hs₂
          have hlen := hpre'.length_le
          rw [List.length_append, List.length_singleton] at hlen
          refine ih pre'.length (by omega) pre' rfl s₂ ?_ hs₂
          exact hpre'.trans ((List.prefix_append pre [.finish]).trans hpre)
        obtain ⟨post, rfl⟩ := hpre
        rw [NvmeSys.run_append] at hrun
        obtain ⟨s₂, hs₂, -⟩ := Option.bind_eq_some_iff.mp hrun
        have hacc₂ := hacc pre s₂ ⟨post, rfl⟩ hs₂
        obtain ⟨s₃, k, hs₃, hphase, rfl⟩ := NvmeSys.run_finish hs₂
        obtain rfl := Option.some.inj (hs₁.symm.trans hs₃)
        exact ((hring.run hbefore hs₁).finish_iff hphase).mp hacc₂
    · intro hok pre s₁ hpre hs₁
      obtain ⟨s₂, k, hs₂, hphase, rfl⟩ := NvmeSys.run_finish hs₁
      have hbefore := hok.of_prefix ((List.prefix_append pre [.finish]).trans hpre)
      exact (hring.run hbefore hs₂).finish hphase (hok pre s₂ hpre hs₂)
  refine ⟨hiff, fun hpost => hiff.mpr fun pre s₁ hpre hs₁ => ?_⟩
  have hclean : (NvmeSys.start vmm c).driver.Clean := fun _ => Nat.zero_shiftRight 1
  refine hclean.run (fun n cid status hmem => hpost n cid status ?_) hs₁ _
  exact ((List.prefix_append pre [.finish]).trans hpre).subset hmem

/-- The rings after each of two calls: a flush, and a read. -/
theorem nvme_accounted_iff_example :
    let events : List NvmeEvent :=
      [.call .flush, .fetch, .post 0 7 0, .poll, .finish,
        .call (.read 0 1 0xffff800000001000), .fetch, .post 1 5 0, .poll, .finish]
    ∃ s₁ s₂, (NvmeSys.start plainVmm plainNvme).run (events.take 5) = some s₁ ∧ s₁.Accounted ∧
      (NvmeSys.start plainVmm plainNvme).run events = some s₂ ∧ s₂.Accounted ∧
      s₂.driver.ioSqTail = 2 := by
  intro events
  obtain ⟨s₁, hs₁⟩ : ∃ s₁, (NvmeSys.start plainVmm plainNvme).run (events.take 5) = some s₁ :=
    ⟨_, rfl⟩
  obtain ⟨s₂, hs₂, htail⟩ : ∃ s₂, (NvmeSys.start plainVmm plainNvme).run events = some s₂ ∧
      s₂.driver.ioSqTail = 2 := ⟨_, rfl, rfl⟩
  have haccounted := (nvme_accounted_iff plainVmm plainNvme hs₂).2 fun n cid status hmem => by
    simp only [events, List.mem_cons, NvmeEvent.post.injEq, List.not_mem_nil, reduceCtorEq,
      false_or, or_false] at hmem
    rcases hmem with ⟨-, -, rfl⟩ | ⟨-, -, rfl⟩
    · rfl
    · rfl
  refine ⟨s₁, s₂, hs₁, haccounted (events.take 4) s₁ ?_ hs₁, hs₂,
    haccounted (events.take 9) s₂ (List.prefix_refl _) hs₂, htail⟩
  exact List.take_prefix 5 events

/-- A read that the controller completes with an error is not accounted for. -/
theorem nvme_unaccounted :
    ¬ ∀ vmm c events s, (NvmeSys.start vmm c).run events = some s →
      ∀ pre s₁, pre ++ [.finish] <+: events →
        (NvmeSys.start vmm c).run (pre ++ [.finish]) = some s₁ → s₁.Accounted := by
  intro h
  have hrun : ∃ s₁, (NvmeSys.start plainVmm plainNvme).run
      [.call (.read 0 1 0xffff800000001000), .fetch, .post 0 5 2, .poll, .finish] = some s₁ ∧
        s₁.driver.ioCqHead = 0 ∧ s₁.driver.ioSqTail = 1 := ⟨_, rfl, rfl, rfl⟩
  obtain ⟨s₁, hs₁, hhead, htail⟩ := hrun
  obtain ⟨heq, -⟩ := h plainVmm plainNvme _ s₁ hs₁
    [.call (.read 0 1 0xffff800000001000), .fetch, .post 0 5 2, .poll] s₁ (List.prefix_refl _) hs₁
  exact absurd (hhead.symm.trans (heq.trans htail)) (by decide)

end Bethany
