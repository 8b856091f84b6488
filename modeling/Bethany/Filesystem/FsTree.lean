import Bethany.Filesystem.RamfsLinks
import Bethany.Library.Unfolding

/-!
# Copying a tree

What `ramfs_copy` does, on trees of labels: without nodes, blocks and links.  What is left of the
state is the number of calls of `kmalloc`, some of which fail.

* `FsLabel`: the name, the type and the content of a node;
* `copyTree`, `copyTrees`: the copy of a tree, and of the children of a node;
* `chosenName`, `copyNames`: the name of a copy, and the names that a loop gives;
* `copyTree_eq`: the copy without failures; `copyTree_complete`: only then it is complete;
* `copyTree_total`: with enough memory there is a copy, or the name is taken.
-/

namespace Bethany

open Unfolding

/-- What one sees of a node. -/
structure FsLabel where
  name : Option CString
  type : FsNodeType
  content : List Machine.Byte
  deriving DecidableEq

/-- A node with all that is below it. -/
abbrev FsTree := LabelTree FsLabel

/-- `ramfs_find` in a directory with these names, as far as the source looks at the result. -/
def nameIn (str : CString) (names : List (Option CString)) : Option Bool :=
  (findIn id str names).map Option.isSome

mutual

/-- `ramfs_copy` into a directory with the names `names`, after `k` calls of `kmalloc`.  The result
is the copy and the number of calls after it. -/
def copyTree (fails : ℕ → Bool) : FsTree → List (Option CString) → ℕ → Option (Option FsTree × ℕ)
  | .node label kids, names, k => do
    let name ← label.name
    let found ← nameIn name names
    let name := if found then copyName name else name
    let found ← nameIn name names
    if found then pure (none, k)
    else if fails k then pure (none, k + 1)
    else
      let str := if fails (k + 1) then none else some name
      match label.type with
      | .file =>
        if label.content = [] then pure (some (.node ⟨str, .file, []⟩ []), k + 2)
        else if fails (k + 2) then pure (none, k + 3)
        else pure (some (.node ⟨str, .file, label.content⟩ []), k + 3)
      | .directory => do
        let (copies, k) ← copyTrees fails kids [] (k + 2)
        pure (some (.node ⟨str, .directory, []⟩ copies), k)

/-- The loop of `ramfs_copy`, with the copies that there are so far. -/
def copyTrees (fails : ℕ → Bool) :
    List FsTree → (copies : List FsTree) → ℕ → Option (List FsTree × ℕ)
  | [], copies, k => some (copies, k)
  | t :: ts, copies, k => do
    let (copy, k) ← copyTree fails t (copies.map fun t => t.label.name) k
    copyTrees fails ts (copies ++ copy.toList) k

end

variable {fails : ℕ → Bool} {t t' : FsTree} {ts copies copies' : List FsTree} {label : FsLabel}
  {names : List (Option CString)} {name str : CString} {k k' : ℕ} {copy : Option FsTree}

/-! ### Names -/

theorem findIn_isSome {α : Type*} (name : α → Option CString) (str : CString) (l : List α) :
    (findIn name str l).map Option.isSome = nameIn str (l.map name) := by
  induction l with
  | nil => rfl
  | cons a l ih =>
    cases hx : name a with
    | none => simp [findIn, nameIn, hx]
    | some x =>
      by_cases heq : x = str
      · simp [findIn, nameIn, hx, heq]
      · simpa [findIn, nameIn, hx, heq] using ih

theorem nameIn_eq (h : none ∉ names) (str : CString) :
    nameIn str names = some (decide (some str ∈ names)) := by
  have hsome : ∀ x ∈ names, (id x).isSome := by
    intro x hx
    cases x with
    | none => exact absurd hx h
    | some x => rfl
  rw [nameIn, findIn_eq_find? hsome, Option.map_some, Option.some.injEq, Bool.eq_iff_iff]
  simp [List.find?_isSome]

/-- The name that `ramfs_copy` gives to the copy. -/
def chosenName (names : List (Option CString)) (name : CString) : CString :=
  if some name ∈ names then copyName name else name

theorem copyName_ne (name : CString) : copyName name ≠ name := by
  intro heq
  have hlen := congrArg (fun x : CString => x.bytes.length) heq
  simp [copyName, copySuffix] at hlen

theorem chosenName_of_not_mem (h : some name ∉ names) : chosenName names name = name := if_neg h

/-- The name of the copy of a node. -/
def copiedName (names : List (Option CString)) (name : Option CString) : Option CString :=
  name.map (chosenName names)

theorem copiedName_of_not_mem {name : Option CString} (h : name ∉ names) :
    copiedName names name = name := by
  cases name with
  | none => rfl
  | some name => rw [copiedName, Option.map_some, chosenName_of_not_mem h]

/-- The names in a directory after the copy of a node to it, with enough memory. -/
def addName (names : List (Option CString)) (name : Option CString) : List (Option CString) :=
  if copiedName names name ∈ names then names else names ++ [copiedName names name]

theorem addName_of_mem {name : Option CString} (h : copiedName names name ∈ names) :
    addName names name = names := if_pos h

theorem addName_of_not_mem {name : Option CString} (h : copiedName names name ∉ names) :
    addName names name = names ++ [copiedName names name] := if_neg h

/-- The names of the copies of nodes with these names in a new directory. -/
def copyNames (names : List (Option CString)) : List (Option CString) := names.foldl addName []

theorem nodup_addNames {l : List (Option CString)} (h : names.Nodup) :
    (l.foldl addName names).Nodup := by
  induction l generalizing names with
  | nil => exact h
  | cons name l ih =>
    refine ih ?_
    by_cases htaken : copiedName names name ∈ names
    · rwa [addName_of_mem htaken]
    · rw [addName_of_not_mem htaken]
      exact List.Nodup.append h (List.nodup_singleton _) (by simpa using htaken)

/-- Names that are different are kept. -/
theorem addNames_of_nodup {l : List (Option CString)} (h : (names ++ l).Nodup) :
    l.foldl addName names = names ++ l := by
  induction l generalizing names with
  | nil => simp
  | cons name l ih =>
    have hfree : name ∉ names := fun hmem =>
      List.disjoint_of_nodup_append h hmem List.mem_cons_self
    have hadd : addName names name = names ++ [name] := by
      rw [addName_of_not_mem (by rwa [copiedName_of_not_mem hfree]), copiedName_of_not_mem hfree]
    rw [List.foldl_cons, hadd, ih (by simpa using h)]
    simp

theorem copyNames_of_nodup (h : names.Nodup) : copyNames names = names := by
  rw [copyNames, addNames_of_nodup (by simpa using h), List.nil_append]

/-- The number of calls of `kmalloc` for one node. -/
def FsLabel.allocs (label : FsLabel) : ℕ :=
  if label.type = .file ∧ label.content ≠ [] then 3 else 2

/-- The copy of a node in a directory where all have names. -/
theorem copyTree_node (hnames : none ∉ names) (hname : label.name = some name) :
    copyTree fails (.node label ts) names k =
      if some (chosenName names name) ∈ names then some (none, k)
      else if fails k then some (none, k + 1)
      else
        let str := if fails (k + 1) then none else some (chosenName names name)
        match label.type with
        | .file =>
          if label.content = [] then some (some (.node ⟨str, .file, []⟩ []), k + 2)
          else if fails (k + 2) then some (none, k + 3)
          else some (some (.node ⟨str, .file, label.content⟩ []), k + 3)
        | .directory => (copyTrees fails ts [] (k + 2)).map fun r =>
          (some (.node ⟨str, .directory, []⟩ r.1), r.2) := by
  rw [copyTree]
  simp only [hname, nameIn_eq hnames, Option.bind_eq_bind, Option.bind_some, Option.pure_def,
    decide_eq_true_eq, chosenName]
  cases label.type with
  | file => rfl
  | directory =>
    simp only [Option.map_eq_bind]
    rfl

/-- What there is of a copy: no call of `kmalloc` for the node has failed, but for the name it may
have. -/
theorem copyTree_cases (h : copyTree fails (.node label ts) names k = some (some t', k')) :
    fails k = false ∧ ∃ name',
      (none ∉ names → ∃ name, label.name = some name ∧
        name' = if fails (k + 1) then none else some (chosenName names name)) ∧
      (label.type = .file ∧ label.content = [] ∧ t' = .node ⟨name', .file, []⟩ [] ∧ k' = k + 2 ∨
      label.type = .file ∧ label.content ≠ [] ∧ fails (k + 2) = false ∧
        t' = .node ⟨name', .file, label.content⟩ [] ∧ k' = k + 3 ∨
      label.type = .directory ∧ ∃ us, copyTrees fails ts [] (k + 2) = some (us, k') ∧
        t' = .node ⟨name', .directory, []⟩ us) := by
  rw [copyTree] at h
  simp only [Option.bind_eq_bind, Option.bind_eq_some_iff, Option.pure_def] at h
  obtain ⟨name, hname, found, hfound, taken, -, h⟩ := h
  by_cases hnull : taken = true ∨ fails k = true
  · obtain htaken | hfail := hnull
    · simp [htaken] at h
    · cases taken <;> simp [hfail] at h
  · obtain ⟨htaken, hfirst⟩ := not_or.mp hnull
    rw [if_neg htaken, if_neg hfirst] at h
    refine ⟨by simpa using hfirst,
      if fails (k + 1) then none else some (if found then copyName name else name),
      fun hnames => ⟨name, hname, ?_⟩, ?_⟩
    · rw [nameIn_eq hnames, Option.some.injEq] at hfound
      simp [← hfound, chosenName]
    · cases htype : label.type with
      | file =>
        simp only [htype] at h
        by_cases hcontent : label.content = []
        · obtain ⟨rfl, rfl⟩ : _ = t' ∧ k + 2 = k' := by simpa [hcontent] using h
          exact .inl ⟨rfl, hcontent, rfl, rfl⟩
        · rw [if_neg hcontent] at h
          by_cases hthird : fails (k + 2) = true
          · simp [hthird] at h
          · obtain ⟨rfl, rfl⟩ : _ = t' ∧ k + 3 = k' := by simpa [hthird] using h
            exact .inr (.inl ⟨rfl, hcontent, by simpa using hthird, rfl, rfl⟩)
      | directory =>
        simp only [htype, Option.bind_eq_some_iff] at h
        obtain ⟨⟨us, k₁⟩, hloop, h⟩ := h
        obtain ⟨rfl, rfl⟩ : _ = t' ∧ k₁ = k' := by simpa using h
        exact .inr (.inr ⟨rfl, us, hloop, rfl⟩)

/-! ### A complete copy -/

/-- Files have no children, and directories no content. -/
def Proper (label : FsLabel) (kids : List FsLabel) : Prop :=
  (label.type = .file → kids = []) ∧ (label.type = .directory → label.content = [])

/-- The children have names. -/
def KidsNamed (_ : FsLabel) (kids : List FsLabel) : Prop := none ∉ kids.map FsLabel.name

/-- The children have different names. -/
def KidsDistinct (_ : FsLabel) (kids : List FsLabel) : Prop := (kids.map FsLabel.name).Nodup

/-- The tree with another name at the top. -/
def renamed (t : FsTree) (name : CString) : FsTree := t.relabel { t.label with name := some name }

theorem renamed_self (h : t.label.name = some name) : renamed t name = t := by
  unfold renamed
  rw [← h]
  exact t.relabel_label

theorem allocs_pos (t : FsTree) : 2 ≤ t.sum FsLabel.allocs := by
  cases t with
  | node label ts =>
    rw [LabelTree.sum, FsLabel.allocs]
    split_ifs <;> omega

theorem allocs_directory (h : label.type = .directory) : label.allocs = 2 := by
  simp [FsLabel.allocs, h]

/-- The loop copies trees with different names one after the other. -/
theorem copyTrees_eq
    (ih : ∀ t ∈ ts, ∀ {name names k}, t.label.name = some name → none ∉ names →
      some name ∉ names → (∀ i < t.sum FsLabel.allocs, fails (k + i) = false) →
      copyTree fails t names k = some (some t, k + t.sum FsLabel.allocs))
    (hnamed : none ∉ (copies ++ ts).map fun t => t.label.name)
    (hdistinct : ((copies ++ ts).map fun t => t.label.name).Nodup)
    (hfails : ∀ i < LabelTree.sums FsLabel.allocs ts, fails (k + i) = false) :
    copyTrees fails ts copies k = some (copies ++ ts, k + LabelTree.sums FsLabel.allocs ts) := by
  induction ts generalizing copies k with
  | nil => simp [copyTrees, LabelTree.sums]
  | cons t ts ihl =>
    rw [LabelTree.sums] at hfails
    have hcopies : none ∉ copies.map fun t => t.label.name := fun h =>
      hnamed (by rw [List.map_append]; exact List.mem_append_left _ h)
    obtain ⟨name, hname⟩ : ∃ name, t.label.name = some name := by
      refine Option.ne_none_iff_exists'.mp fun heq => hnamed ?_
      rw [← heq]
      exact List.mem_map_of_mem (by simp)
    have hfree : some name ∉ copies.map fun t => t.label.name := by
      rw [List.map_append, List.map_cons, hname] at hdistinct
      exact fun h => List.disjoint_of_nodup_append hdistinct h List.mem_cons_self
    have hcopy : copyTree fails t (copies.map fun t => t.label.name) k =
        some (some t, k + t.sum FsLabel.allocs) :=
      ih t List.mem_cons_self hname hcopies hfree fun i hi => hfails i (by omega)
    have hrest : copyTrees fails ts (copies ++ [t]) (k + t.sum FsLabel.allocs) =
        some (copies ++ [t] ++ ts,
          k + t.sum FsLabel.allocs + LabelTree.sums FsLabel.allocs ts) := by
      refine ihl (fun t ht => ih t (List.mem_cons_of_mem _ ht)) (by simpa using hnamed)
        (by simpa using hdistinct) fun i hi => ?_
      rw [Nat.add_assoc]
      exact hfails _ (by omega)
    simp only [copyTrees, hcopy, Option.bind_eq_bind, Option.bind_some, Option.toList_some, hrest,
      LabelTree.sums, List.append_assoc, List.singleton_append, Nat.add_assoc]

/-- Without failures the copy is complete. -/
theorem copyTree_eq (hproper : t.All Proper) (hnamed : t.All KidsNamed)
    (hdistinct : t.All KidsDistinct) (hname : t.label.name = some name) (hnames : none ∉ names)
    (hfree : some (chosenName names name) ∉ names)
    (hfails : ∀ i < t.sum FsLabel.allocs, fails (k + i) = false) :
    copyTree fails t names k =
      some (some (renamed t (chosenName names name)), k + t.sum FsLabel.allocs) := by
  induction t using LabelTree.induction generalizing name names k with
  | node label ts ih =>
    obtain ⟨hproper, hproperKids⟩ := LabelTree.all_node.mp hproper
    obtain ⟨hnamed, hnamedKids⟩ := LabelTree.all_node.mp hnamed
    obtain ⟨hdistinct, hdistinctKids⟩ := LabelTree.all_node.mp hdistinct
    have hpos := allocs_pos (.node label ts)
    have hfirst : fails k = false := hfails 0 (by omega)
    have hsecond : fails (k + 1) = false := hfails 1 (by omega)
    have hname : label.name = some name := hname
    rw [copyTree_node hnames hname, if_neg hfree]
    simp only [hfirst, hsecond, Bool.false_eq_true, if_false]
    rw [LabelTree.sum] at hfails
    cases htype : label.type with
    | file =>
      obtain rfl : ts = [] := by simpa using hproper.1 htype
      by_cases hcontent : label.content = []
      · simp [hcontent, renamed, htype, LabelTree.sum, LabelTree.sums, FsLabel.allocs]
      · have hthird : fails (k + 2) = false := hfails 2 (by
          simp [FsLabel.allocs, htype, hcontent, LabelTree.sums])
        simp [hcontent, hthird, renamed, htype, LabelTree.sum, LabelTree.sums, FsLabel.allocs]
    | directory =>
      have hcontent := hproper.2 htype
      rw [allocs_directory htype] at hfails
      have hloop : copyTrees fails ts [] (k + 2) =
          some ([] ++ ts, k + 2 + LabelTree.sums FsLabel.allocs ts) := by
        apply copyTrees_eq
        · intro t ht name' names' k' hname' hnames' hfree' hfails'
          have hchosen := chosenName_of_not_mem hfree'
          have := ih t ht (hproperKids t ht) (hnamedKids t ht) (hdistinctKids t ht) hname' hnames'
            (hchosen.symm ▸ hfree') hfails'
          rwa [hchosen, renamed_self hname'] at this
        · simpa [KidsNamed] using hnamed
        · simpa [KidsDistinct, Function.comp_def] using hdistinct
        · intro i hi
          rw [Nat.add_assoc]
          exact hfails _ (by omega)
      simp [hloop, renamed, htype, hcontent, LabelTree.sum, allocs_directory htype, Nat.add_assoc]

/-- The loop adds at most one copy for each tree. -/
theorem copyTrees_length (h : copyTrees fails ts copies k = some (copies', k')) :
    ∃ l, copies' = copies ++ l ∧ l.length ≤ ts.length := by
  induction ts generalizing copies k with
  | nil =>
    obtain ⟨rfl, -⟩ : copies = copies' ∧ k = k' := by simpa [copyTrees] using h
    exact ⟨[], by simp⟩
  | cons t ts ih =>
    simp only [copyTrees, Option.bind_eq_bind, Option.bind_eq_some_iff] at h
    obtain ⟨⟨copy, k₁⟩, -, h⟩ := h
    obtain ⟨l, rfl, hlen⟩ := ih h
    refine ⟨copy.toList ++ l, by simp, ?_⟩
    cases copy with
    | none => simpa using Nat.le_succ_of_le hlen
    | some t' => simpa using hlen

/-- When nothing is missing in the list of copies, every copy has been complete. -/
theorem copyTrees_complete
    (ih : ∀ t ∈ ts, ∀ {names k k' str}, none ∉ names →
      copyTree fails t names k = some (some (renamed t str), k') →
        (∀ i < t.sum FsLabel.allocs, fails (k + i) = false) ∧ t.All KidsDistinct ∧
        k' = k + t.sum FsLabel.allocs ∧
        ∃ name, t.label.name = some name ∧ str = chosenName names name)
    (hnamed : none ∉ copies.map fun t => t.label.name)
    (hdistinct : (copies.map fun t => t.label.name).Nodup)
    (h : copyTrees fails ts copies k = some (copies ++ ts, k')) :
    (∀ i < LabelTree.sums FsLabel.allocs ts, fails (k + i) = false) ∧
      (∀ t ∈ ts, t.All KidsDistinct) ∧ ((copies ++ ts).map fun t => t.label.name).Nodup ∧
      k' = k + LabelTree.sums FsLabel.allocs ts := by
  induction ts generalizing copies k with
  | nil =>
    obtain rfl : k = k' := by simpa [copyTrees] using h
    simpa [LabelTree.sums] using hdistinct
  | cons t ts ihl =>
    simp only [copyTrees, Option.bind_eq_bind, Option.bind_eq_some_iff] at h
    obtain ⟨⟨copy, k₁⟩, hcopy, h⟩ := h
    obtain ⟨l, hl, hlen⟩ := copyTrees_length h
    cases copy with
    | none =>
      -- one copy is missing
      have := congrArg List.length hl
      simp at this
      omega
    | some t' =>
      obtain ⟨rfl, rfl⟩ : t = t' ∧ ts = l := by simpa using hl
      have hname : ∃ name, t.label.name = some name := by
        cases t with
        | node label ts' =>
          rw [copyTree] at hcopy
          cases hname : label.name with
          | none => simp [hname] at hcopy
          | some name => exact ⟨name, hname⟩
      obtain ⟨name, hname⟩ := hname
      have hself : copyTree fails t (copies.map fun t => t.label.name) k =
          some (some (renamed t name), k₁) := by
        rw [renamed_self hname]
        exact hcopy
      obtain ⟨hfails, hkids, rfl, name', hname', hchosen⟩ := ih t List.mem_cons_self hnamed hself
      obtain rfl := Option.some.inj (hname.symm.trans hname')
      have hfree : some name ∉ copies.map fun t => t.label.name := by
        intro hmem
        rw [chosenName, if_pos hmem] at hchosen
        exact copyName_ne name hchosen.symm
      have hloop : copyTrees fails ts (copies ++ [t]) (k + t.sum FsLabel.allocs) =
          some (copies ++ [t] ++ ts, k') := by
        simpa using h
      obtain ⟨hfails', hkids', hdistinct', rfl⟩ := ihl
        (fun t ht => ih t (List.mem_cons_of_mem _ ht)) (by simp [hname] at hnamed ⊢; exact hnamed)
        (by
          rw [List.map_append, List.nodup_append_comm]
          simpa [hname] using ⟨by simpa using hfree, hdistinct⟩) hloop
      refine ⟨fun i hi => ?_, ?_, by simpa using hdistinct',
        by simp [LabelTree.sums, Nat.add_assoc]⟩
      · rw [LabelTree.sums] at hi
        by_cases hlt : i < t.sum FsLabel.allocs
        · exact hfails i hlt
        · have := hfails' (i - t.sum FsLabel.allocs) (by omega)
          rwa [Nat.add_assoc, Nat.add_sub_cancel' (by omega)] at this
      · rintro u (_ | ⟨_, hu⟩)
        · exact hkids
        · exact hkids' u hu

/-- A complete copy needs that no call of `kmalloc` fails, and that the names are different. -/
theorem copyTree_complete (hnames : none ∉ names)
    (h : copyTree fails t names k = some (some (renamed t str), k')) :
    (∀ i < t.sum FsLabel.allocs, fails (k + i) = false) ∧ t.All KidsDistinct ∧
      k' = k + t.sum FsLabel.allocs ∧
      ∃ name, t.label.name = some name ∧ str = chosenName names name := by
  induction t using LabelTree.induction generalizing names k k' str with
  | node label ts ih =>
    obtain ⟨hfirst, name', hname', hcases⟩ := copyTree_cases h
    obtain ⟨name, hname, rfl⟩ := hname' hnames
    have hnode : renamed (.node label ts) str = .node { label with name := some str } ts := rfl
    rw [hnode] at hcases
    have hstr : (if fails (k + 1) then none else some (chosenName names name)) = some str := by
      obtain ⟨-, -, heq, -⟩ | ⟨-, -, -, heq, -⟩ | ⟨-, us, -, heq⟩ := hcases
      · exact (congrArg (fun t => t.label.name) heq).symm
      · exact (congrArg (fun t => t.label.name) heq).symm
      · exact (congrArg (fun t => t.label.name) heq).symm
    obtain ⟨hsecond, rfl⟩ : fails (k + 1) = false ∧ chosenName names name = str := by
      simpa using hstr
    have htwo : ∀ i < 2, fails (k + i) = false := by
      intro i hi
      obtain rfl | rfl : i = 0 ∨ i = 1 := by omega
      · exact hfirst
      · exact hsecond
    have hleaf : LabelTree.All KidsDistinct (.node label []) :=
      LabelTree.all_node.mpr ⟨by simp [KidsDistinct], by simp⟩
    obtain ⟨htype, hcontent, heq, rfl⟩ | ⟨htype, hcontent, hthird, heq, rfl⟩ |
      ⟨htype, us, hloop, heq⟩ := hcases
    · obtain rfl : ts = [] := congrArg LabelTree.kids heq
      have hsum : LabelTree.sum FsLabel.allocs (.node label []) = 2 := by
        simp [LabelTree.sum, LabelTree.sums, FsLabel.allocs, hcontent]
      rw [hsum]
      exact ⟨htwo, hleaf, rfl, name, hname, rfl⟩
    · obtain rfl : ts = [] := congrArg LabelTree.kids heq
      have hsum : LabelTree.sum FsLabel.allocs (.node label []) = 3 := by
        simp [LabelTree.sum, LabelTree.sums, FsLabel.allocs, hcontent, htype]
      rw [hsum]
      refine ⟨fun i hi => ?_, hleaf, rfl, name, hname, rfl⟩
      obtain hi | rfl : i < 2 ∨ i = 2 := by omega
      · exact htwo i hi
      · exact hthird
    · obtain rfl : ts = us := congrArg LabelTree.kids heq
      have hloop : copyTrees fails ts [] (k + 2) = some ([] ++ ts, k') := hloop
      obtain ⟨hfails, hkids, hdistinct, rfl⟩ :=
        copyTrees_complete (fun t ht => ih t ht) (by simp) (by simp) hloop
      refine ⟨fun i hi => ?_, LabelTree.all_node.mpr ⟨?_, hkids⟩, ?_, name, hname, rfl⟩
      · rw [LabelTree.sum, allocs_directory htype] at hi
        by_cases hlt : i < 2
        · exact htwo i hlt
        · have := hfails (i - 2) (by omega)
          rwa [Nat.add_assoc, Nat.add_sub_cancel' (by omega)] at this
      · simpa [KidsDistinct, Function.comp_def] using hdistinct
      · rw [LabelTree.sum, allocs_directory htype, Nat.add_assoc]

/-- The node has a name. -/
def HasName (label : FsLabel) (_ : List FsLabel) : Prop := label.name.isSome

theorem none_not_mem_names (h : ∀ t ∈ ts, t.All HasName) : none ∉ ts.map fun t => t.label.name := by
  intro hmem
  obtain ⟨⟨label, us⟩, ht, hname⟩ := List.mem_map.mp hmem
  have hsome : label.name.isSome := (LabelTree.all_node.mp (h _ ht)).1
  rw [show label.name = none from hname] at hsome
  simp at hsome

/-- With enough memory there is a copy with the chosen name, or none because the name is taken. -/
theorem copyTree_total (hnamed : t.All HasName) (hnames : none ∉ names)
    (hfails : ∀ i, k ≤ i → fails i = false) :
    ∃ copy k', copyTree fails t names k = some (copy, k') ∧ k ≤ k' ∧
      (∀ t' ∈ copy, t'.All HasName) ∧
      names ++ copy.toList.map (fun t => t.label.name) = addName names t.label.name := by
  induction t using LabelTree.induction generalizing names k with
  | node label ts ih =>
    obtain ⟨hlabel, hkids⟩ := LabelTree.all_node.mp hnamed
    obtain ⟨name, hname⟩ := Option.isSome_iff_exists.mp hlabel
    have hcopied : copiedName names label.name = some (chosenName names name) := by
      rw [hname, copiedName, Option.map_some]
    rw [copyTree_node hnames hname, LabelTree.label_node]
    by_cases htaken : some (chosenName names name) ∈ names
    · refine ⟨none, k, if_pos htaken, le_rfl, by simp, ?_⟩
      rw [addName_of_mem (hcopied ▸ htaken)]
      simp
    · have hadd : addName names label.name = names ++ [some (chosenName names name)] := by
        rw [addName_of_not_mem (hcopied ▸ htaken), hcopied]
      have hfirst : fails k = false := hfails k le_rfl
      have hsecond : fails (k + 1) = false := hfails (k + 1) (by omega)
      simp only [if_neg htaken, hfirst, hsecond, Bool.false_eq_true, if_false, hadd]
      have hmade : ∀ type content us k', k ≤ k' → (∀ t ∈ us, t.All HasName) →
          ∃ copy k'', some (some (LabelTree.node
              ⟨some (chosenName names name), type, content⟩ us), k') = some (copy, k'') ∧
            k ≤ k'' ∧ (∀ t' ∈ copy, t'.All HasName) ∧
            names ++ copy.toList.map (fun t => t.label.name) =
              names ++ [some (chosenName names name)] := by
        intro type content us k' hle hall
        refine ⟨some _, k', rfl, hle, ?_, rfl⟩
        rintro t' ⟨⟩
        exact LabelTree.all_node.mpr ⟨rfl, hall⟩
      cases label.type with
      | file =>
        by_cases hcontent : label.content = []
        · simp only [if_pos hcontent]
          exact hmade .file [] [] (k + 2) (by omega) (by simp)
        · have hthird : fails (k + 2) = false := hfails (k + 2) (by omega)
          simp only [if_neg hcontent, hthird, Bool.false_eq_true, if_false]
          exact hmade .file label.content [] (k + 3) (by omega) (by simp)
      | directory =>
        -- the names of the copies are there for the next one
        have hloop : ∀ us copies k', (∀ t ∈ us, t ∈ ts) → k ≤ k' →
            (∀ t ∈ copies, t.All HasName) →
            ∃ copies' k'', copyTrees fails us copies k' = some (copies', k'') ∧ k ≤ k'' ∧
              ∀ t ∈ copies', t.All HasName := by
          intro us
          induction us with
          | nil => exact fun copies k' _ hle hcopies => ⟨copies, k', rfl, hle, hcopies⟩
          | cons t us ihl =>
            intro copies k' hsub hle hcopies
            have ht := hsub t List.mem_cons_self
            obtain ⟨copy, k₁, hcopy, hle₁, hnamed, -⟩ := ih t ht (hkids t ht)
              (none_not_mem_names hcopies) fun i hi => hfails i (hle.trans hi)
            have hcopies' : ∀ t ∈ copies ++ copy.toList, t.All HasName := by
              intro t ht
              obtain ht | ht := List.mem_append.mp ht
              · exact hcopies t ht
              · exact hnamed t (Option.mem_toList.mp ht)
            obtain ⟨copies', k₂, hrest, hle₂, hall⟩ := ihl (copies ++ copy.toList) k₁
              (fun u hu => hsub u (List.mem_cons_of_mem _ hu)) (hle.trans hle₁) hcopies'
            exact ⟨copies', k₂, by simp [copyTrees, hcopy, hrest], hle₂, hall⟩
        obtain ⟨copies, k', hr, hle, hall⟩ :=
          hloop ts [] (k + 2) (fun t ht => ht) (by omega) (by simp)
        simp only [hr, Option.map_some]
        exact hmade .directory [] copies k' hle hall

/-- Files have no children. -/
def FilesChildless (label : FsLabel) (kids : List FsLabel) : Prop := label.type = .file → kids = []

/-- In a copy files have no children. -/
theorem copyTree_filesChildless (h : copyTree fails t names k = some (some t', k')) :
    t'.All FilesChildless := by
  induction t using LabelTree.induction generalizing names k k' t' with
  | node label ts ih =>
    have hleaf : ∀ x : FsLabel, LabelTree.All FilesChildless (.node x []) := fun x =>
      LabelTree.all_node.mpr ⟨fun _ => rfl, by simp⟩
    have hloop : ∀ us copies k r, (∀ t ∈ us, t ∈ ts) → (∀ t ∈ copies, t.All FilesChildless) →
        copyTrees fails us copies k = some r → ∀ t ∈ r.1, t.All FilesChildless := by
      intro us
      induction us with
      | nil =>
        intro copies k r _ hcopies hr
        obtain rfl : (copies, k) = r := by simpa [copyTrees] using hr
        exact hcopies
      | cons u us ihl =>
        intro copies k r hsub hcopies hr
        simp only [copyTrees, Option.bind_eq_bind, Option.bind_eq_some_iff] at hr
        obtain ⟨⟨copy, k₁⟩, hcopy, hr⟩ := hr
        refine ihl _ _ r (fun t ht => hsub t (List.mem_cons_of_mem _ ht)) ?_ hr
        intro t ht
        obtain ht | ht := List.mem_append.mp ht
        · exact hcopies t ht
        · obtain rfl := Option.mem_toList.mp ht
          exact ih u (hsub u List.mem_cons_self) hcopy
    obtain ⟨-, name', -, ⟨-, -, rfl, -⟩ | ⟨-, -, -, rfl, -⟩ | ⟨-, us, hr, rfl⟩⟩ :=
      copyTree_cases h
    · exact hleaf _
    · exact hleaf _
    · refine LabelTree.all_node.mpr ⟨by simp [FilesChildless], ?_⟩
      exact hloop ts [] (k + 2) (us, k') (fun t ht => ht) (by simp) hr

end Bethany
