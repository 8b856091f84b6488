import Mathlib.Tactic

/-!
# Walks through a graph of tables

A table `t` refers through its entry `i` to at most one other table, `child t i`.  Walking
from a root along a list of entries reaches at most one table.  When no table is reached
along two lists (`Distinct`), changing a single entry changes exactly the walk that ends
there: this is the frame rule for trees kept in one shared store.

* `walk`, `walk_append`, `walk_congr`;
* `Distinct child r n`: the tables reached in at most `n` steps are pairwise distinct;
* `walk_set`: the walks after one entry has been written;
* `Distinct.set`: the tables stay distinct when the new table is a fresh one;
* `walk_unique`: a graph with one entry to each table has one walk to each table.
-/

namespace Walk

variable {α ι : Type*} {child child' : α → ι → Option α} {r t : α} {n : ℕ}

/-- The table reached from `r` along a list of entries. -/
def walk (child : α → ι → Option α) : α → List ι → Option α
  | r, [] => some r
  | r, i :: p => (child r i).bind fun c => walk child c p

@[simp] theorem walk_nil (child : α → ι → Option α) (r : α) : walk child r [] = some r := rfl

theorem walk_cons (child : α → ι → Option α) (r : α) (i : ι) (p : List ι) :
    walk child r (i :: p) = (child r i).bind fun c => walk child c p := rfl

theorem walk_append (child : α → ι → Option α) (r : α) (p q : List ι) :
    walk child r (p ++ q) = (walk child r p).bind fun c => walk child c q := by
  induction p generalizing r with
  | nil => rfl
  | cons i p ih =>
    rw [List.cons_append, walk_cons, walk_cons]
    cases child r i with
    | none => rfl
    | some c => exact ih c

theorem walk_concat (child : α → ι → Option α) (r : α) (p : List ι) (i : ι) :
    walk child r (p ++ [i]) = (walk child r p).bind fun c => child c i := by
  rw [walk_append]
  congr 1
  funext c
  rw [walk_cons]
  cases child c i <;> rfl

/-- A walk depends only on the entries it reads. -/
theorem walk_congr {q : List ι}
    (h : ∀ p i s, q = p ++ i :: s → ∀ t, walk child r p = some t → child' t i = child t i) :
    walk child' r q = walk child r q := by
  induction q generalizing r with
  | nil => rfl
  | cons i q ih =>
    have h0 : child' r i = child r i := h [] i q rfl r rfl
    rw [walk_cons, walk_cons, h0]
    cases hc : child r i with
    | none => rfl
    | some c =>
      refine ih fun p j s hq u hu => h (i :: p) j s (by rw [hq]; rfl) u ?_
      rw [walk_cons, hc]
      exact hu

/-- No table is reached from `r` along two lists of at most `n` entries. -/
def Distinct (child : α → ι → Option α) (r : α) (n : ℕ) : Prop :=
  ∀ p q t, p.length ≤ n → q.length ≤ n → walk child r p = some t → walk child r q = some t → p = q

/-- **The frame rule.**  Let the entry `i` of the table `t` at the end of `p` become `x` while
the other entries of the tree stay as they are.  If `t` is on the last level, or if its entry
was empty and the new table is empty, only the walk `p ++ [i]` changes. -/
theorem walk_set (hd : Distinct child r n) {p : List ι} {i : ι} {x : Option α}
    (hp : p.length ≤ n) (ht : walk child r p = some t)
    (hold : ∀ q u, q.length ≤ n → walk child r q = some u →
      ∀ j, ¬ (u = t ∧ j = i) → child' u j = child u j)
    (hnew : child' t i = x)
    (hlast : p.length = n ∨ child t i = none ∧ ∀ c, x = some c → ∀ j, child' c j = none)
    {q : List ι} [Decidable (q = p ++ [i])] (hq : q.length ≤ n + 1) :
    walk child' r q = if q = p ++ [i] then x else walk child r q := by
  by_cases hpre : ∃ s, q = p ++ i :: s
  · -- The walk passes the changed entry: it first reaches `t` as before.
    obtain ⟨s, rfl⟩ := hpre
    have hp' : walk child' r p = some t := by
      rw [← ht]
      refine walk_congr fun a j b hab u hu => hold a u ?_ hu j ?_
      · rw [hab] at hp
        simp at hp
        omega
      · rintro ⟨rfl, rfl⟩
        have hlen := congrArg List.length hab
        rw [hd p a u hp (by rw [hab] at hp; simp at hp; omega) ht hu] at hlen
        simp at hlen
    have hlhs : walk child' r (p ++ i :: s) = x.bind fun c => walk child' c s := by
      rw [walk_append, hp', Option.bind_some, walk_cons, hnew]
    rw [hlhs]
    cases s with
    | nil =>
      rw [if_pos rfl]
      cases x <;> rfl
    | cons j s =>
      rw [if_neg (by simp)]
      obtain hn | ⟨hnone, hempty⟩ := hlast
      · simp at hq
        omega
      · rw [walk_append, ht, Option.bind_some, walk_cons, hnone, Option.bind_none]
        cases hx : x with
        | none => rfl
        | some c => rw [Option.bind_some, walk_cons, hempty c hx j, Option.bind_none]
  · -- The walk reads other entries only.
    have hne : q ≠ p ++ [i] := fun h => hpre ⟨[], h⟩
    rw [if_neg hne]
    refine walk_congr fun a j b hab u hu => hold a u ?_ hu j ?_
    · rw [hab] at hq
      simp at hq
      omega
    · rintro ⟨rfl, rfl⟩
      have hal : a.length ≤ n := by
        rw [hab] at hq
        simp at hq
        omega
      exact hpre ⟨b, by rw [hab, hd p a u hp hal ht hu]⟩

/-- Tables stay distinct when one entry comes to refer to a table that was not reached. -/
theorem Distinct.set [DecidableEq ι] (hd : Distinct child r n) {p : List ι} {i : ι} {x : Option α}
    (hset : ∀ q : List ι, q.length ≤ n →
      walk child' r q = if q = p ++ [i] then x else walk child r q)
    (hfresh : ∀ c, x = some c → ∀ q : List ι, q.length ≤ n → walk child r q ≠ some c) :
    Distinct child' r n := by
  intro a b t ha hb hat hbt
  rw [hset a ha] at hat
  rw [hset b hb] at hbt
  split_ifs at hat hbt with h1 h2
  · rw [h1, h2]
  · exact absurd hbt (hfresh t hat b hb)
  · exact absurd hat (hfresh t hbt a ha)
  · exact hd a b t ha hb hat hbt

/-! ### Unique ways -/

/-- A walk does not leave a set that the entries do not leave. -/
theorem walk_mem {S : Set α} (hclosed : ∀ a ∈ S, ∀ i t, child a i = some t → t ∈ S) (hr : r ∈ S)
    {p : List ι} (h : walk child r p = some t) : t ∈ S := by
  induction p generalizing r with
  | nil => exact Option.some.inj h ▸ hr
  | cons i p ih =>
    obtain ⟨c, hc, hrest⟩ := Option.bind_eq_some_iff.mp h
    exact ih (hclosed r hr i c hc) hrest

/-- When only one entry leads to each table, and none to the root, every table is reached along
one list of entries. -/
theorem walk_unique {S : Set α} (hclosed : ∀ a ∈ S, ∀ i t, child a i = some t → t ∈ S)
    (hone : ∀ a ∈ S, ∀ b ∈ S, ∀ i j t, child a i = some t → child b j = some t → a = b ∧ i = j)
    (hr : r ∈ S) (hroot : ∀ a ∈ S, ∀ i, child a i ≠ some r) {p q : List ι}
    (hp : walk child r p = some t) (hq : walk child r q = some t) : p = q := by
  induction p using List.reverseRecOn generalizing q t with
  | nil =>
    obtain rfl : r = t := Option.some.inj hp
    induction q using List.reverseRecOn with
    | nil => rfl
    | append_singleton q j _ =>
      rw [walk_concat] at hq
      obtain ⟨b, hb, hlast⟩ := Option.bind_eq_some_iff.mp hq
      exact absurd hlast (hroot b (walk_mem hclosed hr hb) j)
  | append_singleton p i ih =>
    rw [walk_concat] at hp
    obtain ⟨a, ha, hlast⟩ := Option.bind_eq_some_iff.mp hp
    have haS := walk_mem hclosed hr ha
    induction q using List.reverseRecOn with
    | nil =>
      obtain rfl : r = t := Option.some.inj hq
      exact absurd hlast (hroot a haS i)
    | append_singleton q j _ =>
      rw [walk_concat] at hq
      obtain ⟨b, hb, hlast'⟩ := Option.bind_eq_some_iff.mp hq
      obtain ⟨rfl, rfl⟩ := hone a haS b (walk_mem hclosed hr hb) i j t hlast hlast'
      rw [ih ha hb]

end Walk
