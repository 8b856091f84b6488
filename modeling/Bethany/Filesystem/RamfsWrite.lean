import Bethany.Filesystem.RamfsTree

/-!
# Writing and reading files

`ramfs_write` drops the old data block before it asks for the new one.  When it gets none, the
file has lost its data but not its size.

* `Ramfs.Holds`: what a successful write leaves; `Ramfs.SameFile`: what a failed one should leave;
* `ramfsWrite_loses_nothing_iff`: when one write is all right;
* `Ramfs.Stored`: every size is backed by a data block; `Ramfs.Stored.exec`: the calls that keep
  this;
* `ramfsWrite_iff`: one write, and the runs in which all writes are all right.
-/

namespace Bethany

open Machine Relation

variable {s s' : Ramfs} {n m : NodeId} {buffer : Mem} {size fuel : ℕ} {call : FsCall}

/-- The content of the file is the first `size` bytes of the buffer. -/
def Ramfs.Holds (s : Ramfs) (n : NodeId) (buffer : Mem) (size : ℕ) : Prop :=
  s.size n = size ∧
    ∃ block, s.data n = some block ∧ size ≤ s.length block ∧ ∀ i < size, s.bytes block i = buffer i

/-- The data and the size of the file, and all that can be read from it, are the same. -/
def Ramfs.SameFile (s s' : Ramfs) (n : NodeId) : Prop :=
  s'.data n = s.data n ∧ s'.size n = s.size n ∧
    ∀ buffer size offset, ramfsRead s' (some n) buffer size offset =
      ramfsRead s (some n) buffer size offset

/-- The write succeeds with the right content, or fails and loses nothing. -/
def Ramfs.LosesNothing (s : Ramfs) (n : NodeId) (buffer : Mem) (size : ℕ) : Prop :=
  ∃ ok s', ramfsWrite s (some n) buffer size = (ok, s') ∧
    (ok = true ∧ s'.Holds n buffer size ∨ ok = false ∧ s.SameFile s' n)

/-- There is memory for the new content, or there is no old content. -/
def Ramfs.WriteOk (s : Ramfs) (n : NodeId) (size : ℕ) : Prop :=
  size ≠ 0 ∧ s.fails s.allocs = false ∨ s.data n = none

/-! ### One call -/

theorem ramfsWrite_succeeds (htype : s.type n = .file) (hzero : size ≠ 0)
    (halloc : s.fails s.allocs = false) (buffer : Mem) :
    ramfsWrite s (some n) buffer size = (true, { s with
      allocs := s.allocs + 1
      nextBlock := s.nextBlock + 1
      length := Function.update s.length s.nextBlock size
      data := Function.update s.data n (some s.nextBlock)
      bytes := Function.update s.bytes s.nextBlock
        (memcpy (s.bytes s.nextBlock) 0 buffer 0 size)
      size := Function.update s.size n size }) := by
  simp [ramfsWrite, allocBlock, htype, hzero, halloc]

/-- Without memory the data of the file is dropped. -/
theorem ramfsWrite_fails (htype : s.type n = .file)
    (halloc : ¬ (size ≠ 0 ∧ s.fails s.allocs = false)) (buffer : Mem) :
    ∃ allocs, ramfsWrite s (some n) buffer size =
      (false, { s with allocs := allocs, data := Function.update s.data n none }) := by
  by_cases hzero : size = 0
  · refine ⟨s.allocs, ?_⟩
    simp [ramfsWrite, allocBlock, htype, hzero]
  · have hfail : s.fails s.allocs = true := by simpa [hzero] using halloc
    refine ⟨s.allocs + 1, ?_⟩
    simp [ramfsWrite, allocBlock, htype, hzero, hfail]

/-- A write loses nothing exactly when there is memory, or nothing to lose. -/
theorem ramfsWrite_loses_nothing_iff (htype : s.type n = .file) :
    s.LosesNothing n buffer size ↔ s.WriteOk n size := by
  unfold Ramfs.LosesNothing Ramfs.WriteOk
  by_cases halloc : size ≠ 0 ∧ s.fails s.allocs = false
  · simp only [halloc, ne_eq, not_false_eq_true, and_self, true_or, iff_true]
    refine ⟨true, _, ramfsWrite_succeeds htype halloc.1 halloc.2 buffer, .inl ⟨rfl, ?_⟩⟩
    refine ⟨by simp, s.nextBlock, by simp, by simp, fun i hi => ?_⟩
    simp [memcpy_apply, hi]
  · obtain ⟨allocs, hwrite⟩ := ramfsWrite_fails htype halloc buffer
    rw [hwrite]
    constructor
    · rintro ⟨ok, s', heq, ⟨rfl, -⟩ | ⟨-, hdata, -⟩⟩
      · simp at heq
      · obtain ⟨-, rfl⟩ := Prod.mk.injEq .. ▸ heq
        right
        simpa using hdata.symm
    · intro hok
      have hnone := hok.resolve_left halloc
      have hdata : Function.update s.data n none = s.data := by
        rw [← hnone, Function.update_eq_self]
      exact ⟨false, _, rfl, .inr ⟨rfl, congrFun hdata n, rfl, fun _ _ _ => by rw [hdata]; rfl⟩⟩

/-! ### Runs -/

/-- Every node with a size has a data block of at least this size. -/
def Ramfs.Stored (s : Ramfs) : Prop := ∀ n, s.size n ≠ 0 →
  ∃ block, s.data n = some block ∧ block < s.nextBlock ∧ s.size n ≤ s.length block

theorem Ramfs.Stored.congr (h : s.Stored) (hsize : s'.size = s.size) (hdata : s'.data = s.data)
    (hblock : s'.nextBlock = s.nextBlock) (hlength : s'.length = s.length) : s'.Stored := by
  unfold Ramfs.Stored
  rw [hsize, hdata, hblock, hlength]
  exact h

theorem Ramfs.Stored.relinked (h : s.Stored) (hlinks : s.Relinked s') : s'.Stored :=
  h.congr hlinks.size hlinks.data hlinks.nextBlock hlinks.length

/-- The data of a node without a size does not matter. -/
theorem Ramfs.Stored.drop (h : s.Stored) (hsize : s.size n = 0) (hsize' : s'.size = s.size)
    (hdata : s'.data = Function.update s.data n none) (hblock : s'.nextBlock = s.nextBlock)
    (hlength : s'.length = s.length) : s'.Stored := by
  intro m hm
  rw [hsize'] at hm ⊢
  have hne : m ≠ n := fun heq => hm (heq ▸ hsize)
  rw [hdata, hblock, hlength, Function.update_of_ne hne]
  exact h m hm

/-- A node gets a new data block of its size. -/
theorem Ramfs.Stored.fill (h : s.Stored) (hsize : s'.size = Function.update s.size n size)
    (hdata : s'.data = Function.update s.data n (some s.nextBlock))
    (hblock : s'.nextBlock = s.nextBlock + 1)
    (hlength : s'.length = Function.update s.length s.nextBlock size) : s'.Stored := by
  intro m hm
  rw [hdata, hblock, hlength]
  rw [hsize] at hm ⊢
  obtain rfl | hne := eq_or_ne m n
  · exact ⟨s.nextBlock, by simp, Nat.lt_succ_self _, by simp⟩
  · simp only [Function.update_of_ne hne] at hm ⊢
    obtain ⟨block, hblock, hlt, hle⟩ := h m hm
    refine ⟨block, hblock, Nat.lt_succ_of_lt hlt, ?_⟩
    rwa [Function.update_of_ne hlt.ne]

theorem ramfsCreate_stored {parent r : Option NodeId} {str : CString} {type : FsNodeType}
    (h : s.Stored) (hr : ramfsCreate s parent str type = some (r, s')) :
    s'.Stored ∧ ∀ copy, r = some copy → s'.size copy = 0 := by
  obtain ⟨rfl, allocs, rfl⟩ | ⟨p, name, rfl, -, -, -, rfl, happend⟩ := ramfsCreate_cases hr
  · exact ⟨h, by simp⟩
  · obtain ⟨children, next, rfl⟩ := appendChild_frame happend
    constructor
    · intro m hm
      have hne : m ≠ s.nextNode := by
        rintro rfl
        exact hm (Function.update_self ..)
      simp only [initNode, Function.update_of_ne hne] at hm ⊢
      exact h m hm
    · rintro copy ⟨⟩
      exact Function.update_self ..

theorem ramfsWrite_stored (h : s.Stored) (hok : s.type n = .file → s.WriteOk n size) :
    (ramfsWrite s (some n) buffer size).2.Stored := by
  by_cases htype : s.type n = .file
  · by_cases halloc : size ≠ 0 ∧ s.fails s.allocs = false
    · rw [ramfsWrite_succeeds htype halloc.1 halloc.2]
      exact h.fill rfl rfl rfl rfl
    · obtain ⟨allocs, hwrite⟩ := ramfsWrite_fails htype halloc buffer
      have hnone := (hok htype).resolve_left halloc
      rw [hwrite]
      refine h.congr rfl ?_ rfl rfl
      rw [← hnone, Function.update_eq_self]
  · simpa [ramfsWrite, htype] using h

theorem ramfsCopy_stored (h : s.Stored) {node newParent r : Option NodeId}
    (hr : ramfsCopy fuel s node newParent = some (r, s')) : s'.Stored := by
  refine (ramfsCopy_rel (R := fun s s' => s.Stored → s'.Stored) (fun _ h => h)
    (fun h₁ h₂ h => h₂ (h₁ h)) (fun hcreate h => (ramfsCreate_stored h hcreate).1)
    (fun hcreate hdelete h => ?_) (fun hcreate h => ?_) fuel).1 hr h
  · obtain ⟨h₁, hempty⟩ := ramfsCreate_stored h hcreate
    refine Ramfs.Stored.relinked ?_ (ramfsDelete_relinked hdelete)
    exact h₁.drop (hempty _ rfl) rfl rfl rfl rfl
  · exact (ramfsCreate_stored h hcreate).1.fill rfl rfl rfl rfl

/-- A write to a file is all right as `WriteOk` says. -/
def FsCall.WriteOk (s : Ramfs) : FsCall → Prop
  | .write (some n) _ size => s.type n = .file → s.WriteOk n size
  | _ => True

/-- **One call.**  Every size stays backed by a data block, unless a write loses the data. -/
theorem Ramfs.Stored.exec (h : s.Stored) (hok : call.WriteOk s)
    (hexec : call.exec fuel s = some s') : s'.Stored := by
  cases call with
  | create parent name type =>
    obtain ⟨⟨r, s₁⟩, hr, rfl⟩ := Option.map_eq_some_iff.mp hexec
    exact (ramfsCreate_stored h hr).1
  | mkdir parent name =>
    obtain ⟨⟨r, s₁⟩, hr, rfl⟩ := Option.map_eq_some_iff.mp hexec
    exact (ramfsCreate_stored h hr).1
  | write node buffer size =>
    obtain rfl := Option.some.inj hexec
    cases node with
    | none => exact h
    | some n => exact ramfsWrite_stored h hok
  | rename node newName =>
    obtain ⟨⟨r, s₁⟩, hr, rfl⟩ := Option.map_eq_some_iff.mp hexec
    obtain ⟨name, allocs, rfl⟩ := ramfsRename_frame hr
    exact h
  | move node newParent =>
    obtain ⟨⟨r, s₁⟩, hr, rfl⟩ := Option.map_eq_some_iff.mp hexec
    obtain ⟨children, next, parent, rfl⟩ := ramfsMove_frame hr
    exact h
  | copy node newParent =>
    obtain ⟨⟨r, s₁⟩, hr, rfl⟩ := Option.map_eq_some_iff.mp hexec
    exact ramfsCopy_stored h hr
  | remove node => exact h.relinked (ramfsRemove_relinked hexec)
  | delete node =>
    obtain ⟨⟨r, s₁⟩, hr, rfl⟩ := Option.map_eq_some_iff.mp hexec
    exact h.relinked (ramfsDelete_relinked hr)

theorem ramfsInit_stored (fails : ℕ → Bool) : (ramfsInit (Ramfs.blank fails)).Stored := by
  intro n hn
  refine absurd ?_ hn
  by_cases hfail : fails 0
  · simp [ramfsInit, allocNode, hfail, Ramfs.blank]
  · by_cases hdup : fails 1
    · simp [ramfsInit, allocNode, hfail, strdup, hdup, initNode, Ramfs.blank]
    · simp [ramfsInit, allocNode, hfail, strdup, hdup, initNode, Ramfs.blank]

theorem Ramfs.Stored.run (h : s.Stored)
    (hrun : ReflTransGen (Ramfs.Step fun s call => call.Legal s ∧ call.WriteOk s) s s') :
    s'.Stored := by
  induction hrun with
  | refl => exact h
  | tail _ hstep ih =>
    obtain ⟨call, fuel, ⟨-, hok⟩, hexec⟩ := hstep
    exact ih.exec hok hexec

/-- **When a write loses nothing.**  It does exactly when there is memory for the new content, or
no data block to lose.  If all writes since `ramfs_init` were like this, a file with a size has a
data block of at least this size. -/
theorem ramfsWrite_iff (htype : s.type n = .file) (buffer : Mem) (size : ℕ) :
    (s.LosesNothing n buffer size ↔ s.WriteOk n size) ∧
      ∀ fails, ReflTransGen (Ramfs.Step fun s call => call.Legal s ∧ call.WriteOk s)
        (ramfsInit (Ramfs.blank fails)) s → s.Live n → 0 < s.size n →
          ∃ block, s.data n = some block ∧ s.size n ≤ s.length block := by
  constructor
  · exact ramfsWrite_loses_nothing_iff htype
  · intro fails hrun _ hsize
    obtain ⟨block, hblock, -, hle⟩ := (ramfsInit_stored fails).run hrun n (Nat.ne_of_gt hsize)
    exact ⟨block, hblock, hle⟩

instance (s : Ramfs) (n : NodeId) (size : ℕ) : Decidable (s.WriteOk n size) :=
  inferInstanceAs (Decidable (_ ∨ _))

/-- An empty file with the name `f` in the root. -/
def emptyFile : Ramfs :=
  ((ramfsInit (Ramfs.blank fun _ => false)).run
    [.create (some 0) (letter 5) .file]).get (by decide)

/-- The file with one byte in it. -/
def oneByte : Ramfs := (ramfsWrite emptyFile (some 1) (fun _ => 7) 1).2

theorem ramfsWrite_iff_example :
    oneByte.LosesNothing 1 (fun _ => 8) 2 ∧
      ∃ block, oneByte.data 1 = some block ∧ 1 ≤ oneByte.length block := by
  have htype : oneByte.type 1 = .file := by decide
  obtain ⟨hwrite, hrun⟩ := ramfsWrite_iff htype (fun _ => 8) 2
  constructor
  · exact hwrite.mpr (by decide)
  · have hempty : ReflTransGen (Ramfs.Step fun s call => call.Legal s ∧ call.WriteOk s)
        (ramfsInit (Ramfs.blank fun _ => false)) emptyFile := by
      apply Ramfs.reflTransGen_of_run _ (Option.some_get _).symm
      simp [FsCall.WriteOk]
    have hok : (FsCall.write (some 1) (fun _ => 7) 1).WriteOk emptyFile := fun _ =>
      show emptyFile.WriteOk 1 1 by decide
    have hone := hempty.tail ⟨_, 0, ⟨by decide, hok⟩, rfl⟩
    exact hrun (fun _ => false) hone (by decide) (by decide)

/-- A write of no bytes loses the byte in the file, and the next read goes through the null
pointer. -/
theorem ramfsWrite_loses :
    ¬ oneByte.LosesNothing 1 (fun _ => 8) 0 ∧
      ∃ s, (FsCall.write (some 1) (fun _ => 8) 0).exec 0 oneByte = some s ∧
        s.size 1 = 1 ∧ s.data 1 = none ∧ ramfsRead s (some 1) (fun _ => 0) 1 0 = none := by
  constructor
  · rw [ramfsWrite_loses_nothing_iff (by decide)]
    decide
  · exact ⟨_, rfl, by decide, by decide, by decide⟩

end Bethany
