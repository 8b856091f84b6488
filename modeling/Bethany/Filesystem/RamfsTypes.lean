import Bethany.Filesystem.RamfsMove
import Bethany.Library.Runs

/-!
# Which nodes have children

`ramfs_create` refuses a parent that is no directory, and so does `ramfs_copy`, which creates its
nodes with it.  `ramfs_move` does not look at the type of the new parent.

* `Ramfs.Typed`: only directories have children; `Ramfs.WellTyped`: the invariant behind it;
* `Ramfs.Shrinks`: nodes have only lost children; `Ramfs.Moves`: a move that is not refused;
* `FsCall.IntoDirectory`, `Ramfs.WellTyped.exec_iff`: when one call keeps it so;
* `ramfs_typed_iff`: when a run does.
-/

namespace Bethany

open LinkedList Relation Runs

variable {s s' s'' : Ramfs} {n p : NodeId} {fuel : ℕ} {call : FsCall}

/-- Only directories have children. -/
def Ramfs.Typed (s : Ramfs) : Prop := ∀ n, s.children n ≠ none → s.type n = .directory

/-- Only directories have children, and only nodes are directories. -/
structure Ramfs.WellTyped (s : Ramfs) : Prop where
  typed : s.Typed
  fresh : ∀ n, s.nextNode ≤ n → s.type n = .file

theorem Ramfs.WellTyped.lt_nextNode (h : s.WellTyped) (hdir : s.type n = .directory) :
    n < s.nextNode := by
  by_contra hn
  rw [h.fresh n (Nat.le_of_not_lt hn)] at hdir
  cases hdir

/-! ### Children lost and gained -/

/-- From `s` to `s'` nodes have only lost children. -/
structure Ramfs.Shrinks (s s' : Ramfs) : Prop where
  type : s'.type = s.type
  nextNode : s'.nextNode = s.nextNode
  children : ∀ n, s.children n = none → s'.children n = none

theorem Ramfs.Shrinks.refl (s : Ramfs) : s.Shrinks s := ⟨rfl, rfl, fun _ h => h⟩

theorem Ramfs.Shrinks.trans (h : s.Shrinks s') (h' : s'.Shrinks s'') : s.Shrinks s'' :=
  ⟨h'.type.trans h.type, h'.nextNode.trans h.nextNode,
    fun n hn => h'.children n (h.children n hn)⟩

theorem Ramfs.WellTyped.shrinks (h : s.WellTyped) (hs : s.Shrinks s') : s'.WellTyped := by
  constructor
  · intro n hn
    rw [hs.type]
    exact h.typed n fun hnull => hn (hs.children n hnull)
  · rw [hs.type, hs.nextNode]
    exact h.fresh

theorem Ramfs.WellTyped.congr (h : s.WellTyped) (htype : s'.type = s.type)
    (hnode : s'.nextNode = s.nextNode) (hchildren : s'.children = s.children) : s'.WellTyped :=
  h.shrinks ⟨htype, hnode, fun n hn => by rw [hchildren, hn]⟩

/-- Taking a child out gives no node a child; it is found exactly if the loop meets it. -/
theorem unlinkChild_shrinks {r : Bool} (h : unlinkChild s p n = some (r, s')) :
    s.Shrinks s' ∧ (r = true ↔ Met s.next (s.children p) n) := by
  obtain ⟨rfl, hfirst, rfl⟩ | ⟨hfirst, ⟨a, rfl, hseek, rfl⟩ | ⟨rfl, hseek, rfl⟩⟩ :=
    unlinkChild_steps h
  · refine ⟨⟨rfl, rfl, fun m hm => ?_⟩, by simp [hfirst]⟩
    have hne : m ≠ p := by
      rintro rfl
      rw [hfirst] at hm
      cases hm
    simpa [hne] using hm
  · rw [← seekPrev_isSome_iff hseek hfirst]
    exact ⟨⟨rfl, rfl, fun _ hm => hm⟩, by simp⟩
  · rw [← seekPrev_isSome_iff hseek hfirst]
    exact ⟨.refl s', by simp⟩

/-- Appending a child gives one to the parent, and to no other node. -/
theorem appendChild_children (h : appendChild s p n = some s') :
    s'.type = s.type ∧ s'.nextNode = s.nextNode ∧ s'.children p ≠ none ∧
      ∀ m, m ≠ p → s'.children m = s.children m := by
  obtain ⟨-, rfl⟩ | ⟨hfirst, a, rfl⟩ := appendChild_steps h
  · exact ⟨rfl, rfl, by simp, fun m hm => by simp [hm]⟩
  · exact ⟨rfl, rfl, hfirst, fun _ _ => rfl⟩

/-- It is all right exactly for a directory. -/
theorem Ramfs.WellTyped.append_iff (h : s.WellTyped) (happend : appendChild s p n = some s') :
    s'.Typed ↔ s.type p = .directory := by
  obtain ⟨htype, -, hchild, hrest⟩ := appendChild_children happend
  unfold Ramfs.Typed
  rw [htype]
  constructor
  · intro htyped
    exact htyped p hchild
  · intro hdir m hm
    by_cases hmp : m = p
    · rwa [hmp]
    · rw [hrest m hmp] at hm
      exact h.typed m hm

theorem Ramfs.WellTyped.append (h : s.WellTyped) (hdir : s.type p = .directory)
    (happend : appendChild s p n = some s') : s'.WellTyped := by
  refine ⟨(h.append_iff happend).mpr hdir, ?_⟩
  obtain ⟨htype, hnode, -⟩ := appendChild_children happend
  rw [htype, hnode]
  exact h.fresh

theorem ramfsRemove_shrinks {node : Option NodeId} (h : ramfsRemove s node = some s') :
    s.Shrinks s' := by
  obtain rfl | ⟨n, p, r, s₁, -, hunlink, rfl⟩ := ramfsRemove_steps h
  · exact .refl s'
  · obtain ⟨hs, -⟩ := unlinkChild_shrinks hunlink
    exact ⟨hs.type, hs.nextNode, hs.children⟩

theorem ramfsDelete_shrinks {node : Option NodeId} {r : Bool}
    (h : ramfsDelete fuel s node = some (r, s')) : s.Shrinks s' :=
  ramfsDelete_of_remove .refl .trans ramfsRemove_shrinks h

/-! ### New nodes and copies -/

/-- `ramfs_create` has looked at the type of the parent. -/
theorem Ramfs.WellTyped.create (h : s.WellTyped) {parent r : Option NodeId} {name : CString}
    {type : FsNodeType} (hr : ramfsCreate s parent name type = some (r, s')) : s'.WellTyped := by
  obtain ⟨-, allocs, rfl⟩ | ⟨p, str, rfl, hdir, -, -, -, happend⟩ := ramfsCreate_cases hr
  · exact h.congr rfl rfl rfl
  · have hne : p ≠ s.nextNode := (h.lt_nextNode hdir).ne
    refine Ramfs.WellTyped.append ?_ ?_ happend
    · constructor
      · intro m hm
        by_cases hnew : m = s.nextNode
        · simp [initNode, hnew] at hm
        · simp only [initNode, Function.update_of_ne hnew] at hm ⊢
          exact h.typed m hm
      · intro m hm
        have hlt : s.nextNode < m := hm
        simp only [initNode, Function.update_of_ne hlt.ne']
        exact h.fresh m hlt.le
    · simpa [initNode, hne] using hdir

theorem Ramfs.WellTyped.copy (h : s.WellTyped) {node newParent r : Option NodeId}
    (hr : ramfsCopy fuel s node newParent = some (r, s')) : s'.WellTyped := by
  refine (ramfsCopy_rel (R := fun s s' => s.WellTyped → s'.WellTyped) (fun _ h => h)
    (fun h₁ h₂ h => h₂ (h₁ h)) (fun hcreate h => h.create hcreate) (fun hcreate hdelete h => ?_)
    (fun hcreate h => (h.create hcreate).congr rfl rfl rfl) fuel).1 hr h
  refine Ramfs.WellTyped.shrinks ?_ (ramfsDelete_shrinks hdelete)
  exact (h.create hcreate).congr rfl rfl rfl

/-! ### Moves -/

/-- `ramfs_move` does not refuse the move: none of its checks holds, and it meets the node in the
list of its parent. -/
def Ramfs.Moves (s : Ramfs) (n p : NodeId) : Prop :=
  s.root ≠ some n ∧ n ≠ p ∧ s.children n ≠ some p ∧
    ∃ q, s.parent n = some q ∧ Met s.next (s.children q) n

/-- What a move does to the children: it takes one away and gives one to the new parent. -/
theorem ramfsMove_children {r : Bool} (h : ramfsMove s (some n) (some p) = some (r, s')) :
    (¬ s.Moves n p ∧ s' = s) ∨
      s.Moves n p ∧ ∃ s₁ s₂, s.Shrinks s₁ ∧ appendChild s₁ p n = some s₂ ∧
        s'.type = s₂.type ∧ s'.nextNode = s₂.nextNode ∧ s'.children = s₂.children := by
  obtain ⟨-, rfl, hrefused⟩ |
    ⟨-, hroot, hne, hfirst, q, s₁, s₂, hparent, hunlink, happend, rfl⟩ := ramfsMove_steps h
  · refine .inl ⟨fun ⟨hroot, hne, hfirst, q, hparent, hmet⟩ => ?_, rfl⟩
    obtain heq | heq | heq | heq | ⟨q', hparent', hunlink⟩ := hrefused
    · exact hroot heq
    · exact hne heq
    · exact hfirst heq
    · simp [heq] at hparent
    · obtain rfl := Option.some.inj (hparent.symm.trans hparent')
      exact Bool.false_ne_true ((unlinkChild_shrinks hunlink).2.mpr hmet)
  · obtain ⟨hshrinks, hmet⟩ := unlinkChild_shrinks hunlink
    refine .inr ⟨⟨hroot, hne, hfirst, q, hparent, hmet.mp rfl⟩, _, s₂, ?_, happend, rfl, rfl, rfl⟩
    exact ⟨hshrinks.type, hshrinks.nextNode, hshrinks.children⟩

/-- A move that is not refused goes into a directory. -/
def FsCall.IntoDirectory (s : Ramfs) : FsCall → Prop
  | .move (some n) (some p) => s.Moves n p → s.type p = .directory
  | _ => True

theorem Ramfs.WellTyped.move (h : s.WellTyped) {node newParent : Option NodeId} {r : Bool}
    (hr : ramfsMove s node newParent = some (r, s')) :
    (s'.Typed ↔ (FsCall.move node newParent).IntoDirectory s) ∧
      ((FsCall.move node newParent).IntoDirectory s → s'.WellTyped) := by
  cases node with
  | none =>
    obtain ⟨-, rfl⟩ : false = r ∧ s = s' := by simpa [ramfsMove] using hr
    simp [FsCall.IntoDirectory, h, h.typed]
  | some n =>
    cases newParent with
    | none =>
      obtain ⟨-, rfl⟩ : false = r ∧ s = s' := by simpa [ramfsMove] using hr
      simp [FsCall.IntoDirectory, h, h.typed]
    | some p =>
      obtain ⟨hrefused, rfl⟩ | ⟨hmoves, s₁, s₂, hs, happend, htype, hnode, hchildren⟩ :=
        ramfsMove_children hr
      · simp [FsCall.IntoDirectory, hrefused, h, h.typed]
      · have h₁ := h.shrinks hs
        have hiff := h₁.append_iff happend
        rw [hs.type] at hiff
        simp only [FsCall.IntoDirectory, hmoves, true_implies]
        constructor
        · rw [← hiff, Ramfs.Typed, htype, hchildren]
          rfl
        · intro hdir
          rw [← hs.type] at hdir
          exact (h₁.append hdir happend).congr htype hnode hchildren

/-! ### Runs -/

/-- **One call** leaves children to directories exactly if it does not move a node elsewhere. -/
theorem Ramfs.WellTyped.exec (h : s.WellTyped) (hexec : call.exec fuel s = some s') :
    (s'.Typed ↔ call.IntoDirectory s) ∧ (call.IntoDirectory s → s'.WellTyped) := by
  have hkept : s'.WellTyped → (∀ n p, call ≠ .move n p) →
      (s'.Typed ↔ call.IntoDirectory s) ∧ (call.IntoDirectory s → s'.WellTyped) := by
    intro h' hother
    cases call with
    | move node newParent => exact absurd rfl (hother node newParent)
    | _ => simp [FsCall.IntoDirectory, h', h'.typed]
  cases call with
  | create parent name type =>
    obtain ⟨⟨r, s₁⟩, hr, rfl⟩ := Option.map_eq_some_iff.mp hexec
    exact hkept (h.create hr) (by simp)
  | mkdir parent name =>
    obtain ⟨⟨r, s₁⟩, hr, rfl⟩ := Option.map_eq_some_iff.mp hexec
    exact hkept (h.create hr) (by simp)
  | write node buffer size =>
    obtain rfl := Option.some.inj hexec
    obtain ⟨sizes, data, bytes, length, nextBlock, allocs, heq⟩ :=
      ramfsWrite_frame s node buffer size
    rw [heq] at hkept ⊢
    exact hkept (h.congr rfl rfl rfl) (by simp)
  | rename node newName =>
    obtain ⟨⟨r, s₁⟩, hr, rfl⟩ := Option.map_eq_some_iff.mp hexec
    obtain ⟨name, allocs, rfl⟩ := ramfsRename_frame hr
    exact hkept (h.congr rfl rfl rfl) (by simp)
  | move node newParent =>
    obtain ⟨⟨r, s₁⟩, hr, rfl⟩ := Option.map_eq_some_iff.mp hexec
    exact h.move hr
  | copy node newParent =>
    obtain ⟨⟨r, s₁⟩, hr, rfl⟩ := Option.map_eq_some_iff.mp hexec
    exact hkept (h.copy hr) (by simp)
  | remove node => exact hkept (h.shrinks (ramfsRemove_shrinks hexec)) (by simp)
  | delete node =>
    obtain ⟨⟨r, s₁⟩, hr, rfl⟩ := Option.map_eq_some_iff.mp hexec
    exact hkept (h.shrinks (ramfsDelete_shrinks hr)) (by simp)

theorem ramfsInit_wellTyped (fails : ℕ → Bool) : (ramfsInit (Ramfs.blank fails)).WellTyped := by
  obtain halloc | halloc := allocNode_cases (Ramfs.blank fails)
  · simp only [ramfsInit, halloc]
    exact ⟨fun n hn => absurd rfl hn, fun _ _ => rfl⟩
  · simp only [ramfsInit, halloc]
    obtain ⟨name, -, hdup⟩ := strdup_cases { Ramfs.blank fails with
      allocs := 1, nextNode := 1, root := some 0 } rootName
    simp only [Ramfs.blank] at hdup ⊢
    rw [hdup]
    constructor
    · intro n hn
      by_cases hroot : n = 0 <;> simp [initNode, hroot] at hn
    · intro n hn
      have hne : n ≠ 0 := by
        rintro rfl
        simp [initNode] at hn
      simp [initNode, hne]

/-- A call with the bound on its rounds, as an event. -/
def Ramfs.after (s : Ramfs) (event : FsCall × ℕ) : Option Ramfs := event.1.exec event.2 s

/-- **Only directories have children** after `ramfs_init`, and in every state of a run exactly if
all moves of the run that are not refused go into directories. -/
theorem ramfs_typed_iff (fails : ℕ → Bool) (events : List (FsCall × ℕ)) :
    (ramfsInit (Ramfs.blank fails)).Typed ∧
      (Along Ramfs.after (fun _ _ s' => s'.Typed) (ramfsInit (Ramfs.blank fails)) events ↔
        Along Ramfs.after (fun s event _ => event.1.IntoDirectory s)
          (ramfsInit (Ramfs.blank fails)) events) := by
  have h₀ := ramfsInit_wellTyped fails
  refine ⟨h₀.typed, along_iff Ramfs.WellTyped h₀ ?_ ?_⟩
  · intro s event s' h hexec
    exact (h.exec hexec).1
  · intro s event s' h hexec hdir
    exact (h.exec hexec).2 hdir

/-- Files `f` and `g` in the root; then `ramfs_move(g, f)`. -/
def childInFile : Ramfs :=
  ((ramfsInit (Ramfs.blank fun _ => false)).run
    [.create (some 0) (letter 5) .file, .create (some 0) (letter 6) .file,
      .move (some 2) (some 1)]).get (by decide)

/-- A file can get a child. -/
theorem ramfs_typed_file :
    ¬ ∀ s, ReflTransGen (Ramfs.Step fun s call => call.Legal s)
      (ramfsInit (Ramfs.blank fun _ => false)) s → s.Typed := by
  intro h
  have htyped : childInFile.Typed := h childInFile
    (Ramfs.reflTransGen_of_run (fun _ _ _ hlegal => hlegal) (Option.some_get _).symm)
  exact absurd (htyped 1 (by decide)) (by decide)

end Bethany
