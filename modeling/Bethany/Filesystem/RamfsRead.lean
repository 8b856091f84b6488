import Bethany.Filesystem.RamfsWrite

/-!
# Reading back what was written

Every successful `ramfs_write` and every copy of a file puts its bytes into a data block that is
new, and no block is written to again.  So the content of a file stays until the next write to
the same file, whatever happens to the other nodes, and even when the file is renamed, moved or
removed itself.

* `Ramfs.Spares`: nothing has happened to a file;
* `ramfsCreate_spares`, `ramfsWrite_spares`, `ramfsCopy_spares`, `FsCall.exec_spares`: the calls
  that spare it; `Ramfs.Spares.run`: runs of them;
* `ramfsRead_eq`: what `ramfs_read` returns of a file that holds a buffer;
* `readAll`, `readAll_eq`: reads one after the other;
* `ramfsRead_written`: the two together.
-/

namespace Bethany

open Machine Relation

variable {s s' s'' : Ramfs} {n m : NodeId} {out buffer : Mem} {size fuel k off i : ℕ}
  {call : FsCall} {chunk : ℕ → ℕ}

/-! ### Other calls -/

/-- From `s` to `s'` the file has been left alone, and no data block has been written to. -/
structure Ramfs.Spares (s s' : Ramfs) (n : NodeId) : Prop where
  type : s'.type n = s.type n
  size : s'.size n = s.size n
  data : s'.data n = s.data n
  bytes : ∀ block < s.nextBlock, s'.bytes block = s.bytes block
  length : ∀ block < s.nextBlock, s'.length block = s.length block
  nextNode : s.nextNode ≤ s'.nextNode
  nextBlock : s.nextBlock ≤ s'.nextBlock

theorem Ramfs.Spares.refl (s : Ramfs) (n : NodeId) : s.Spares s n :=
  ⟨rfl, rfl, rfl, fun _ _ => rfl, fun _ _ => rfl, le_rfl, le_rfl⟩

theorem Ramfs.Spares.trans (h : s.Spares s' n) (h' : s'.Spares s'' n) : s.Spares s'' n where
  type := h'.type.trans h.type
  size := h'.size.trans h.size
  data := h'.data.trans h.data
  bytes block hb := (h'.bytes block (hb.trans_le h.nextBlock)).trans (h.bytes block hb)
  length block hb := (h'.length block (hb.trans_le h.nextBlock)).trans (h.length block hb)
  nextNode := h.nextNode.trans h'.nextNode
  nextBlock := h.nextBlock.trans h'.nextBlock

theorem Ramfs.Relinked.spares (h : s.Relinked s') (n : NodeId) : s.Spares s' n := by
  constructor <;> simp [h.type, h.size, h.data, h.bytes, h.length, h.nextNode, h.nextBlock]

/-- Another file gets a new data block. -/
theorem Ramfs.Spares.fill (hne : n ≠ m) {content : Mem} {allocs : ℕ} :
    s.Spares { s with
      allocs := allocs
      nextBlock := s.nextBlock + 1
      length := Function.update s.length s.nextBlock size
      data := Function.update s.data m (some s.nextBlock)
      bytes := Function.update s.bytes s.nextBlock content
      size := Function.update s.size m size } n where
  type := rfl
  size := by simp [hne]
  data := by simp [hne]
  bytes block hb := by simp [hb.ne]
  length block hb := by simp [hb.ne]
  nextNode := le_rfl
  nextBlock := Nat.le_succ _

/-- Another file loses its data block. -/
theorem Ramfs.Spares.drop (hne : n ≠ m) {allocs : ℕ} :
    s.Spares { s with allocs := allocs, data := Function.update s.data m none } n := by
  constructor <;> simp [hne]

/-- `ramfs_create` makes a new node. -/
theorem ramfsCreate_spares (hn : n < s.nextNode) {parent r : Option NodeId} {str : CString}
    {type : FsNodeType} (hr : ramfsCreate s parent str type = some (r, s')) :
    s.Spares s' n ∧ ∀ c, r = some c → n ≠ c := by
  obtain ⟨rfl, allocs, rfl⟩ | ⟨p, name, rfl, -, -, -, rfl, happend⟩ := ramfsCreate_cases hr
  · exact ⟨⟨rfl, rfl, rfl, fun _ _ => rfl, fun _ _ => rfl, le_rfl, le_rfl⟩, by simp⟩
  · obtain ⟨children, next, rfl⟩ := appendChild_frame happend
    constructor
    · constructor <;> simp [initNode, hn.ne]
    · rintro c ⟨⟩
      exact hn.ne

theorem ramfsWrite_spares (hne : n ≠ m) (buffer : Mem) (size : ℕ) :
    s.Spares (ramfsWrite s (some m) buffer size).2 n := by
  by_cases htype : s.type m = .file
  · by_cases halloc : size ≠ 0 ∧ s.fails s.allocs = false
    · rw [ramfsWrite_succeeds htype halloc.1 halloc.2]
      exact .fill hne
    · obtain ⟨allocs, hwrite⟩ := ramfsWrite_fails htype halloc buffer
      rw [hwrite]
      exact .drop hne
  · simpa [ramfsWrite, htype] using Ramfs.Spares.refl s n

/-- `ramfs_copy` writes to nodes of its own only. -/
theorem ramfsCopy_spares (hn : n < s.nextNode) {node newParent r : Option NodeId}
    (hr : ramfsCopy fuel s node newParent = some (r, s')) : s.Spares s' n := by
  refine (ramfsCopy_rel (R := fun s s' => n < s.nextNode → s.Spares s' n) (fun s _ => .refl s n)
    (fun h₁ h₂ hn => (h₁ hn).trans (h₂ (hn.trans_le (h₁ hn).nextNode)))
    (fun hcreate hn => (ramfsCreate_spares hn hcreate).1) (fun hcreate hdelete hn => ?_)
    (fun hcreate hn => ?_) fuel).1 hr hn
  · obtain ⟨h₁, hnew⟩ := ramfsCreate_spares hn hcreate
    -- the copy is taken away again
    exact h₁.trans ((Ramfs.Spares.drop (hnew _ rfl)).trans
      ((ramfsDelete_relinked hdelete).spares n))
  · obtain ⟨h₁, hnew⟩ := ramfsCreate_spares hn hcreate
    exact h₁.trans (.fill (hnew _ rfl))

/-- The call is not a write to the file. -/
def FsCall.NotWrite (n : NodeId) : FsCall → Prop
  | .write node _ _ => node ≠ some n
  | _ => True

/-- **One call** that is not a write to the file leaves its content alone. -/
theorem FsCall.exec_spares (hn : n < s.nextNode) (hother : call.NotWrite n)
    (hexec : call.exec fuel s = some s') : s.Spares s' n := by
  cases call with
  | create parent name type =>
    obtain ⟨⟨r, s₁⟩, hr, rfl⟩ := Option.map_eq_some_iff.mp hexec
    exact (ramfsCreate_spares hn hr).1
  | mkdir parent name =>
    obtain ⟨⟨r, s₁⟩, hr, rfl⟩ := Option.map_eq_some_iff.mp hexec
    exact (ramfsCreate_spares hn hr).1
  | write node buffer size =>
    obtain rfl := Option.some.inj hexec
    cases node with
    | none => exact .refl s n
    | some m => exact ramfsWrite_spares (fun heq => hother (congrArg some heq.symm)) buffer size
  | rename node newName =>
    obtain ⟨⟨r, s₁⟩, hr, rfl⟩ := Option.map_eq_some_iff.mp hexec
    obtain ⟨name, allocs, rfl⟩ := ramfsRename_frame hr
    constructor <;> simp
  | move node newParent =>
    obtain ⟨⟨r, s₁⟩, hr, rfl⟩ := Option.map_eq_some_iff.mp hexec
    obtain ⟨children, next, parent, rfl⟩ := ramfsMove_frame hr
    constructor <;> simp
  | copy node newParent =>
    obtain ⟨⟨r, s₁⟩, hr, rfl⟩ := Option.map_eq_some_iff.mp hexec
    exact ramfsCopy_spares hn hr
  | remove node => exact (ramfsRemove_relinked hexec).spares n
  | delete node =>
    obtain ⟨⟨r, s₁⟩, hr, rfl⟩ := Option.map_eq_some_iff.mp hexec
    exact (ramfsDelete_relinked hr).spares n

theorem Ramfs.Spares.run (hn : n < s.nextNode)
    (hrun : ReflTransGen (Ramfs.Step fun _ call => call.NotWrite n) s s') : s.Spares s' n := by
  induction hrun with
  | refl => exact .refl s n
  | tail _ hstep ih =>
    obtain ⟨call, fuel, hother, hexec⟩ := hstep
    exact ih.trans (FsCall.exec_spares (hn.trans_le ih.nextNode) hother hexec)

/-! ### Reading -/

/-- A file keeps what it holds as long as it is spared. -/
theorem Ramfs.Holds.spared (h : s.Holds n buffer size)
    (hblock : ∀ block, s.data n = some block → block < s.nextBlock) (hspares : s.Spares s' n) :
    s'.Holds n buffer size := by
  obtain ⟨hsize, block, hdata, hlen, hbytes⟩ := h
  have hb := hblock block hdata
  refine ⟨hspares.size.trans hsize, block, hspares.data.trans hdata, ?_, fun i hi => ?_⟩
  · rwa [hspares.length block hb]
  · rw [hspares.bytes block hb]
    exact hbytes i hi

/-- **`ramfs_read`** returns as much of the content as there is from the offset on. -/
theorem ramfsRead_eq (htype : s.type n = .file) (h : s.Holds n buffer size) (out : Mem)
    (k off : ℕ) :
    ramfsRead s (some n) out k off =
      some (min k (size - off), memcpy out 0 buffer off (min k (size - off))) := by
  obtain ⟨rfl, block, hdata, -, hbytes⟩ := h
  have hclamp : (if s.size n - off < k then s.size n - off else k) = min k (s.size n - off) := by
    split_ifs <;> omega
  have hcopy : memcpy out 0 (s.bytes block) off (min k (s.size n - off)) =
      memcpy out 0 buffer off (min k (s.size n - off)) := by
    funext a
    simp only [memcpy_apply]
    split_ifs with ha
    · exact hbytes _ (by omega)
    · rfl
  have hnone : memcpy out 0 buffer off 0 = out := by simp [memcpy]
  by_cases hend : s.size n ≤ off
  · simp [ramfsRead, htype, hend, hnone]
  · simp only [ramfsRead, htype, ne_eq, not_true_eq_false, if_false, hend, hclamp]
    split_ifs with hzero
    · rw [hzero, hnone]
    · simp [hdata, hcopy]

/-- Calls of `ramfs_read` one after the other into the same buffer, each from where the last one
has stopped, until one returns zero; the result is what they have put into the buffer. -/
def readAll (s : Ramfs) (node : Option NodeId) (chunk : ℕ → ℕ) :
    ℕ → (i off : ℕ) → (out : Mem) → Option (List Byte)
  | 0, _, _, _ => none
  | fuel + 1, i, off, out => do
    let (k, out) ← ramfsRead s node out (chunk i) off
    if k = 0 then pure []
    else
      let rest ← readAll s node chunk fuel (i + 1) (off + k) out
      pure ((List.range k).map out ++ rest)

/-- **Reads one after the other** give the rest of the content, piece by piece. -/
theorem readAll_eq (htype : s.type n = .file) (h : s.Holds n buffer size)
    (hchunk : ∀ i, 0 < chunk i) (hfuel : size - off < fuel) :
    readAll s (some n) chunk fuel i off out =
      some ((List.range' off (size - off)).map buffer) := by
  induction fuel generalizing i off out with
  | zero => omega
  | succ fuel ih =>
    have hpos := hchunk i
    simp only [readAll, ramfsRead_eq htype h, Option.bind_eq_bind, Option.bind_some]
    by_cases hend : size - off = 0
    · simp [hend]
    · set k := min (chunk i) (size - off) with hk
      have hkpos : k ≠ 0 := by omega
      have hpiece : (List.range k).map (memcpy out 0 buffer off k) =
          (List.range' off k).map buffer := by
        rw [List.range'_eq_map_range, List.map_map]
        refine List.map_congr_left fun j hj => ?_
        have hj := List.mem_range.mp hj
        simp [memcpy_apply, hj]
      have hsplit : size - off = k + (size - (off + k)) := by omega
      rw [if_neg hkpos, ih (by omega), hpiece, hsplit, ← List.range'_append_1, List.map_append]
      rfl

/-- **What was written is read back.**  After a write that has succeeded, and any calls that are
no writes to the same file, every read returns the part of the buffer that it asks for; so reads
one after the other, in pieces of any sizes, return the whole buffer. -/
theorem ramfsRead_written (hn : n < s.nextNode)
    (hwrite : ramfsWrite s (some n) buffer size = (true, s'))
    (hrun : ReflTransGen (Ramfs.Step fun _ call => call.NotWrite n) s' s'') :
    (∀ out k off, ramfsRead s'' (some n) out k off =
      some (min k (size - off), memcpy out 0 buffer off (min k (size - off)))) ∧
      ∀ chunk : ℕ → ℕ, (∀ i, 0 < chunk i) → ∀ fuel out, size < fuel →
        readAll s'' (some n) chunk fuel 0 0 out = some ((List.range size).map buffer) := by
  obtain ⟨htype, hn', hholds, hblock⟩ : s'.type n = .file ∧ n < s'.nextNode ∧
      s'.Holds n buffer size ∧ ∀ block, s'.data n = some block → block < s'.nextBlock := by
    by_cases htype : s.type n = .file
    · by_cases halloc : size ≠ 0 ∧ s.fails s.allocs = false
      · rw [ramfsWrite_succeeds htype halloc.1 halloc.2] at hwrite
        obtain ⟨-, rfl⟩ := Prod.mk.inj hwrite
        refine ⟨htype, hn, ⟨by simp, s.nextBlock, by simp, by simp, fun i hi => ?_⟩, ?_⟩
        · simp [memcpy_apply, hi]
        · simp
      · obtain ⟨allocs, hfails⟩ := ramfsWrite_fails htype halloc buffer
        rw [hfails] at hwrite
        simp at hwrite
    · simp [ramfsWrite, htype] at hwrite
  have hspares := Ramfs.Spares.run hn' hrun
  have htype' : s''.type n = .file := hspares.type.trans htype
  have hholds' := hholds.spared hblock hspares
  constructor
  · intro out k off
    exact ramfsRead_eq htype' hholds' out k off
  · intro chunk hchunk fuel out hfuel
    rw [readAll_eq htype' hholds' hchunk (by omega), List.range_eq_range', Nat.sub_zero]

/-- A file that is copied after it has been written. -/
theorem ramfsRead_written_example :
    ∃ s, ramfsRead s (some 1) (fun _ => 0) 5 1 =
      some (2, memcpy (fun _ => 0) 0 (fun i => BitVec.ofNat 8 i) 1 2) := by
  obtain ⟨s, hs⟩ : ∃ s, (FsCall.copy (some 1) (some 0)).exec 10
      (ramfsWrite emptyFile (some 1) (fun i => BitVec.ofNat 8 i) 3).2 = some s :=
    Option.isSome_iff_exists.mp (by decide)
  have hwrite : ramfsWrite emptyFile (some 1) (fun i => BitVec.ofNat 8 i) 3 =
      (true, (ramfsWrite emptyFile (some 1) (fun i => BitVec.ofNat 8 i) 3).2) := rfl
  have hstep : Ramfs.Step (fun _ call => call.NotWrite 1) _ s :=
    ⟨.copy (some 1) (some 0), 10, trivial, hs⟩
  obtain ⟨hread, -⟩ := ramfsRead_written (by decide) hwrite (.single hstep)
  exact ⟨s, hread _ 5 1⟩

end Bethany
