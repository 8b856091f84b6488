import Mathlib.Tactic

/-!
# Singly linked lists in a field of a heap

The nodes of a heap are linked by a field `next`.  `Chain next head l` says that the pointers
met from `head` on are the nodes of `l`, in this order, up to a null pointer.  A chain is
finite, so its nodes are pairwise different and no loop along it runs for ever.

* `Chain`, `Chain.unique`, `Chain.nodup`, `Chain.congr`;
* `Chain.push`, `Chain.pop`, `Chain.snoc`, `Chain.unlink`: what the usual writes to `next`
  do to the list;
* `loop`, `loop_invariant`, `loop_eq_foldl`: the loop `while(it){ ...; it = it->next; }`;
* `advance`, `advance_last`, `advance_prev`: the loop `while(it->next && ...) it = it->next`;
* `seekPrev`, `seekPrev_eq`, `seekPrev_of_not_mem`: the loop
  `while(it && it->next != node) it = it->next`;
* `Met`, `seekPrev_isSome_iff`: what it finds where the links need not be a chain.

Loops that need not end carry a bound on the number of rounds; running out of it is `none`.
-/

namespace LinkedList

variable {α σ : Type*} {next next' : α → Option α} {head : Option α} {l l' p q : List α}
  {a b : α}

/-- The nodes met from `head` on are those of the list. -/
def Chain (next : α → Option α) : Option α → List α → Prop
  | head, [] => head = none
  | head, a :: l => head = some a ∧ Chain next (next a) l

@[simp] theorem chain_nil : Chain next head [] ↔ head = none := Iff.rfl

@[simp] theorem chain_cons : Chain next head (a :: l) ↔ head = some a ∧ Chain next (next a) l :=
  Iff.rfl

theorem chain_none : Chain next none l ↔ l = [] := by
  cases l <;> simp

/-- The pointer to a chain is the pointer to its first node. -/
theorem Chain.head_eq (h : Chain next head l) : head = l.head? := by
  cases l with
  | nil => exact h
  | cons a l => exact h.1

theorem Chain.unique (h : Chain next head l) (h' : Chain next head l') : l = l' := by
  induction l generalizing head l' with
  | nil =>
    rw [chain_nil] at h
    subst h
    exact (chain_none.mp h').symm
  | cons a l ih =>
    cases l' with
    | nil => exact absurd (h.1.symm.trans h') (Option.some_ne_none a)
    | cons b l' =>
      obtain rfl : a = b := Option.some_injective _ (h.1.symm.trans h'.1)
      rw [ih h.2 h'.2]

/-- A part of a chain is a chain from its first node on. -/
theorem Chain.suffix (h : Chain next head (p ++ a :: q)) : Chain next (some a) (a :: q) := by
  induction p generalizing head with
  | nil => exact ⟨rfl, h.2⟩
  | cons b p ih => exact ih h.2

/-- The successor of a node is the next one of the list. -/
theorem Chain.next_eq (h : Chain next head (p ++ a :: q)) : next a = q.head? :=
  h.suffix.2.head_eq

/-- A chain visits no node twice. -/
theorem Chain.nodup (h : Chain next head l) : l.Nodup := by
  induction l generalizing head with
  | nil => exact List.nodup_nil
  | cons a l ih =>
    refine List.nodup_cons.mpr ⟨fun hmem => ?_, ih h.2⟩
    -- from a second visit of `a` on, the rest of the list would begin with itself
    obtain ⟨p, q, rfl⟩ := List.append_of_mem hmem
    have hlen := congrArg List.length (h.2.unique (h.2.suffix.2))
    rw [List.length_append, List.length_cons] at hlen
    omega

/-- A chain depends only on the links of its nodes. -/
theorem Chain.congr (h : Chain next head l) (hcongr : ∀ a ∈ l, next' a = next a) :
    Chain next' head l := by
  induction l generalizing head with
  | nil => exact h
  | cons a l ih =>
    refine ⟨h.1, ih ?_ fun b hb => hcongr b (List.mem_cons_of_mem _ hb)⟩
    rw [hcongr a (List.mem_cons_self ..)]
    exact h.2

/-- The last node of a chain has no successor. -/
theorem Chain.next_last (h : Chain next head (p ++ [a])) : next a = none := h.next_eq

theorem Chain.isChain (h : Chain next head l) : l.IsChain fun a b => next a = some b := by
  induction l generalizing head with
  | nil => exact List.isChain_nil
  | cons a l ih =>
    refine (ih h.2).cons fun b hb => ?_
    rw [h.2.head_eq]
    exact hb

/-- Going on from the front after the last node, one visits the nodes after `a`, the nodes
before it, and `a` again. -/
theorem Chain.ring (h : Chain next head (p ++ a :: q)) :
    (a :: (q ++ p ++ [a])).IsChain fun b c => (next b <|> head) = some c := by
  have hstep : ∀ b c, next b = some c → (next b <|> head) = some c := by
    intro b c hbc
    rw [hbc]
    rfl
  have hback : (a :: q).IsChain fun b c => (next b <|> head) = some c :=
    (h.suffix.isChain).imp hstep
  have hfront : (p ++ [a]).IsChain fun b c => (next b <|> head) = some c := by
    have := h.isChain.imp hstep
    rw [List.append_cons] at this
    exact this.left_of_append
  have hjoin : ∀ x ∈ (a :: q).getLast?, ∀ y ∈ (p ++ [a]).head?, (next x <|> head) = some y := by
    intro x hx y hy
    -- the last node has no successor, so the step goes to the front of the list
    have hhead : head = (p ++ [a]).head? := by
      rw [h.head_eq]
      cases p <;> rfl
    obtain ⟨r, hr⟩ := List.getLast?_eq_some_iff.mp hx
    rw [hr, ← List.append_assoc] at h
    rw [h.next_last, hhead]
    exact hy
  rw [List.append_assoc]
  exact hback.append hfront hjoin

/-- The node is met from `head` on. -/
def Linked (next : α → Option α) (head : Option α) (a : α) : Prop :=
  ∃ l, Chain next head l ∧ a ∈ l

theorem Chain.linked_iff (h : Chain next head l) : Linked next head a ↔ a ∈ l := by
  refine ⟨fun ⟨l', h', ha⟩ => ?_, fun ha => ⟨l, h, ha⟩⟩
  rwa [h.unique h']

/-! ### Writes to the links -/

section update

variable [DecidableEq α]

/-- A link outside a chain does not matter to it. -/
theorem Chain.update (h : Chain next head l) (ha : a ∉ l) (x : Option α) :
    Chain (Function.update next a x) head l :=
  h.congr fun b hb => Function.update_of_ne (fun heq => ha (by rwa [← heq])) _ _

/-- `a->next = head; head = a;` -/
theorem Chain.push (h : Chain next head l) (ha : a ∉ l) :
    Chain (Function.update next a head) (some a) (a :: l) := by
  refine ⟨rfl, ?_⟩
  rw [Function.update_self]
  exact h.update ha _

/-- `head = a->next;`, after which `a->next` may be anything. -/
theorem Chain.pop (h : Chain next head (a :: l)) (x : Option α) :
    Chain (Function.update next a x) (next a) l :=
  h.2.update (List.nodup_cons.mp h.nodup).1 x

/-- `last->next = b;` for the last node of the chain. -/
theorem Chain.snoc (h : Chain next head (p ++ [a])) (hb : b ∉ p ++ [a]) (hnull : next b = none) :
    Chain (Function.update next a (some b)) head (p ++ [a, b]) := by
  have hab : b ≠ a := fun heq => hb (by rw [heq]; simp)
  induction p generalizing head with
  | nil =>
    refine ⟨h.1, ?_, ?_⟩
    · rw [Function.update_self]
    · rw [Function.update_of_ne hab]
      exact hnull
  | cons c p ih =>
    refine ⟨h.1, ?_⟩
    have hca : c ≠ a := fun heq => (List.nodup_cons.mp h.nodup).1 (by rw [heq]; simp)
    rw [Function.update_of_ne hca]
    exact ih h.2 fun hmem => hb (List.mem_cons_of_mem _ hmem)

/-- `a->next = b->next;` for the node `b` after `a`. -/
theorem Chain.unlink (h : Chain next head (p ++ a :: b :: q)) :
    Chain (Function.update next a (next b)) head (p ++ a :: q) := by
  induction p generalizing head with
  | nil =>
    refine ⟨h.1, ?_⟩
    rw [Function.update_self]
    exact h.2.2.update (fun hmem => (List.nodup_cons.mp h.nodup).1 (List.mem_cons_of_mem _ hmem)) _
  | cons c p ih =>
    refine ⟨h.1, ?_⟩
    have hca : c ≠ a := fun heq => (List.nodup_cons.mp h.nodup).1 (by rw [heq]; simp)
    rw [Function.update_of_ne hca]
    exact ih h.2

end update

/-! ### Loops -/

/-- `while(it){ body }`, where the body changes the state and yields the next pointer. -/
def loop (body : σ → α → σ × Option α) : ℕ → Option α → σ → Option σ
  | 0, _, _ => none
  | _ + 1, none, s => some s
  | fuel + 1, some it, s => loop body fuel (body s it).2 (body s it).1

/-- What the body keeps the whole loop keeps. -/
theorem loop_invariant {body : σ → α → σ × Option α} {P : σ → Prop} {s s' : σ} {fuel : ℕ}
    (hbody : ∀ s a, P s → P (body s a).1) (hs : P s) (h : loop body fuel head s = some s') :
    P s' := by
  induction fuel generalizing head s with
  | zero => exact absurd h nofun
  | succ fuel ih =>
    cases head with
    | none => exact Option.some_injective _ h ▸ hs
    | some a => exact ih (hbody s a hs) h

/-- A loop whose body follows the links, and changes at most the link it has just followed,
handles the nodes of the chain one after the other and ends. -/
theorem loop_eq_foldl {body : σ → α → σ × Option α} {nextOf : σ → α → Option α} {s : σ}
    (hnext : ∀ s a, (body s a).2 = nextOf s a)
    (hframe : ∀ s a b, b ≠ a → nextOf (body s a).1 b = nextOf s b)
    (h : Chain (nextOf s) head l) {fuel : ℕ} (hfuel : l.length < fuel) :
    loop body fuel head s = some (l.foldl (fun s a => (body s a).1) s) := by
  induction l generalizing head s fuel with
  | nil =>
    obtain ⟨fuel, rfl⟩ := Nat.exists_eq_succ_of_ne_zero (Nat.ne_of_gt hfuel)
    rw [chain_nil] at h
    subst h
    rfl
  | cons a l ih =>
    obtain ⟨fuel, rfl⟩ := Nat.exists_eq_succ_of_ne_zero (Nat.ne_of_gt (Nat.zero_lt_of_lt hfuel))
    have ha : a ∉ l := (List.nodup_cons.mp h.nodup).1
    obtain ⟨rfl, hrest⟩ := h
    rw [loop, hnext, List.foldl_cons]
    apply ih (hrest.congr fun b hb => hframe s a b fun heq => ha (by rwa [← heq]))
    rw [List.length_cons] at hfuel
    omega

/-- `while(it->next && !stop(it->next)) it = it->next;` -/
def advance (next : α → Option α) (stop : α → Bool) : ℕ → α → Option α
  | 0, _ => none
  | fuel + 1, it =>
    match next it with
    | none => some it
    | some n => if stop n then some it else advance next stop fuel n

/-- Without a node to stop at, the loop ends at the last node. -/
theorem advance_last {stop : α → Bool} (h : Chain next (some a) (a :: l))
    (hstop : ∀ b ∈ l, stop b = false) {fuel : ℕ} (hfuel : l.length < fuel) :
    advance next stop fuel a = some ((a :: l).getLast (List.cons_ne_nil _ _)) := by
  induction l generalizing a fuel with
  | nil =>
    obtain ⟨fuel, rfl⟩ := Nat.exists_eq_succ_of_ne_zero (Nat.ne_of_gt hfuel)
    have hnull : next a = none := h.2
    rw [advance, hnull]
    rfl
  | cons b l ih =>
    obtain ⟨fuel, rfl⟩ := Nat.exists_eq_succ_of_ne_zero (Nat.ne_of_gt (Nat.zero_lt_of_lt hfuel))
    have hb : next a = some b := h.2.1
    rw [advance, hb, List.getLast_cons (List.cons_ne_nil _ _)]
    simp only [hstop b (List.mem_cons_self ..), Bool.false_eq_true, if_false]
    refine ih ⟨rfl, h.2.2⟩ (fun c hc => hstop c (List.mem_cons_of_mem _ hc)) ?_
    rw [List.length_cons] at hfuel
    omega

/-- The loop ends before the first node to stop at. -/
theorem advance_prev {stop : α → Bool} (h : Chain next (some a) (a :: p ++ b :: q))
    (hstop : ∀ c ∈ p, stop c = false) (hb : stop b = true) {fuel : ℕ} (hfuel : p.length < fuel) :
    advance next stop fuel a = some ((a :: p).getLast (List.cons_ne_nil _ _)) := by
  induction p generalizing a fuel with
  | nil =>
    obtain ⟨fuel, rfl⟩ := Nat.exists_eq_succ_of_ne_zero (Nat.ne_of_gt hfuel)
    have hab : next a = some b := h.2.1
    rw [advance, hab]
    simp only [hb, if_true]
    rfl
  | cons c p ih =>
    obtain ⟨fuel, rfl⟩ := Nat.exists_eq_succ_of_ne_zero (Nat.ne_of_gt (Nat.zero_lt_of_lt hfuel))
    have hc : next a = some c := h.2.1
    rw [advance, hc, List.getLast_cons (List.cons_ne_nil _ _)]
    simp only [hstop c (List.mem_cons_self ..), Bool.false_eq_true, if_false]
    refine ih ⟨rfl, h.2.2⟩ (fun d hd => hstop d (List.mem_cons_of_mem _ hd)) ?_
    rw [List.length_cons] at hfuel
    omega

/-- `while(it && it->next != node) it = it->next;` -/
def seekPrev [DecidableEq α] (next : α → Option α) (node : α) : ℕ → Option α → Option (Option α)
  | 0, _ => none
  | _ + 1, none => some none
  | fuel + 1, some it =>
    if next it = some node then some (some it) else seekPrev next node fuel (next it)

/-- The loop ends at the node before the one that is looked for. -/
theorem seekPrev_eq [DecidableEq α] (h : Chain next head (p ++ a :: b :: q)) {fuel : ℕ}
    (hfuel : p.length < fuel) : seekPrev next b fuel head = some (some a) := by
  have hb : b ∉ p ++ [a] := by
    have := h.nodup
    rw [List.append_cons] at this
    intro hmem
    exact List.disjoint_of_nodup_append this hmem List.mem_cons_self
  induction p generalizing head fuel with
  | nil =>
    obtain ⟨fuel, rfl⟩ := Nat.exists_eq_succ_of_ne_zero (Nat.ne_of_gt hfuel)
    obtain ⟨rfl, hnext, -⟩ := h
    unfold seekPrev
    rw [if_pos hnext]
  | cons c p ih =>
    obtain ⟨fuel, rfl⟩ := Nat.exists_eq_succ_of_ne_zero (Nat.ne_of_gt (Nat.zero_lt_of_lt hfuel))
    obtain ⟨rfl, hrest⟩ := h
    have hne : next c ≠ some b := by
      rw [hrest.head_eq]
      intro heq
      apply hb
      cases p with
      | nil => simp at heq; simp [heq]
      | cons d p => simp at heq; simp [heq]
    unfold seekPrev
    rw [if_neg hne]
    refine ih hrest ?_ fun hmem => hb (List.mem_cons_of_mem _ hmem)
    rw [List.length_cons] at hfuel
    omega

/-- The loop ends with a null pointer when the node has none before it. -/
theorem seekPrev_of_not_mem [DecidableEq α] (h : Chain next head l) (hb : b ∉ l) {fuel : ℕ}
    (hfuel : l.length < fuel) : seekPrev next b fuel head = some none := by
  induction l generalizing head fuel with
  | nil =>
    obtain ⟨fuel, rfl⟩ := Nat.exists_eq_succ_of_ne_zero (Nat.ne_of_gt hfuel)
    obtain rfl : head = none := h
    rfl
  | cons c l ih =>
    obtain ⟨fuel, rfl⟩ := Nat.exists_eq_succ_of_ne_zero (Nat.ne_of_gt (Nat.zero_lt_of_lt hfuel))
    obtain ⟨rfl, hrest⟩ := h
    have hne : next c ≠ some b := by
      rw [hrest.head_eq]
      intro heq
      exact hb (List.mem_cons_of_mem c (List.mem_of_head? heq))
    unfold seekPrev
    rw [if_neg hne]
    exact ih hrest (fun hmem => hb (List.mem_cons_of_mem c hmem)) (Nat.lt_of_succ_lt_succ hfuel)

/-- The node is met from `head` on, whether or not the links come to an end. -/
def Met (next : α → Option α) (head : Option α) (a : α) : Prop :=
  ∃ first, head = some first ∧ Relation.ReflTransGen (fun b c => next b = some c) first a

@[simp] theorem not_met_none : ¬ Met next none a := by simp [Met]

@[simp] theorem met_some : Met next (some a) b ↔ b = a ∨ Met next (next a) b := by
  simp only [Met, Option.some.injEq, exists_eq_left']
  rw [Relation.ReflTransGen.cases_head_iff, eq_comm]

/-- The loop ends at a node exactly if the one that is looked for is met behind the first. -/
theorem seekPrev_isSome_iff [DecidableEq α] {fuel : ℕ} {r : Option α}
    (h : seekPrev next b fuel head = some r) (hne : head ≠ some b) :
    r.isSome ↔ Met next head b := by
  induction fuel generalizing head with
  | zero => simp [seekPrev] at h
  | succ fuel ih =>
    cases head with
    | none =>
      obtain rfl : none = r := by simpa [seekPrev] using h
      simp
    | some it =>
      have hit : b ≠ it := fun heq => hne (congrArg some heq.symm)
      unfold seekPrev at h
      split_ifs at h with hnext
      · obtain rfl := Option.some.inj h
        simp [hnext]
      · simp [ih h hnext, hit]

/-- The successor of the node number `i` is the node number `i + 1`. -/
theorem Chain.next_getElem? (h : Chain next head l) {i : ℕ} (hi : l[i]? = some a) :
    next a = l[i + 1]? := by
  induction l generalizing head i with
  | nil => simp at hi
  | cons b l ih =>
    cases i with
    | zero =>
      obtain rfl : b = a := by simpa using hi
      rw [h.2.head_eq]
      simp [List.head?_eq_getElem?]
    | succ i =>
      rw [List.getElem?_cons_succ] at hi ⊢
      exact ih h.2 hi

/-- The successor of a node of the chain is one of its nodes. -/
theorem Chain.next_mem (h : Chain next head l) (ha : a ∈ l) (hnext : next a = some b) : b ∈ l := by
  obtain ⟨i, hi⟩ := List.mem_iff_getElem?.mp ha
  exact List.mem_of_getElem? ((h.next_getElem? hi).symm.trans hnext)

/-- Different naturals below a bound are at most as many as the bound. -/
theorem length_le_of_lt {l : List ℕ} {n : ℕ} (h : l.Nodup) (hlt : ∀ a ∈ l, a < n) :
    l.length ≤ n := by
  rw [← List.toFinset_card_of_nodup h, ← Finset.card_range n]
  exact Finset.card_le_card fun a ha => Finset.mem_range.mpr (hlt a (List.mem_toFinset.mp ha))

end LinkedList
