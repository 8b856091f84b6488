import Mathlib.Tactic

/-!
# Runs of a machine that takes events

`exec s e` is the state after the event `e`, or `none` when it cannot happen in `s`.  A property
of steps holds along a run when it holds of every step that the run takes.

* `Along exec P s events`: `P` holds of every step of the run;
* `along_and`: two properties of the steps hold along a run together;
* `along_of_invariant`: a property that steps with another one have, as long as these keep the
  state in order, holds along each run that the other holds along;
* `along_iff`: two properties that are the same for every step from a state in order, where one
  of them keeps the state in order, are the same along every run;
* `invariant_of_run`: what every event keeps, holds at the end of a run;
* `reflTransGen_of_along`: a run as steps of a relation;
* `existsUnique_lost`: what holds at one point of a run, does not at a later one, and never comes
  back is lost in exactly one step.
-/

namespace Runs

variable {σ ε : Type*} {exec : σ → ε → Option σ} {P Q : σ → ε → σ → Prop} {s : σ}
  {events : List ε}

/-- The property holds of every step of the run. -/
def Along (exec : σ → ε → Option σ) (P : σ → ε → σ → Prop) : σ → List ε → Prop
  | _, [] => True
  | s, e :: events => ∀ s', exec s e = some s' → P s e s' ∧ Along exec P s' events

instance decidableAlong [∀ s e s', Decidable (P s e s')] :
    ∀ (s : σ) (events : List ε), Decidable (Along exec P s events)
  | _, [] => isTrue trivial
  | s, e :: events =>
      match h : exec s e with
      | none => isTrue fun s' hexec => absurd (h.symm.trans hexec) (Option.some_ne_none s').symm
      | some s' =>
          have := decidableAlong s' events
          decidable_of_iff (P s e s' ∧ Along exec P s' events) <| by
            simp only [Along, h, Option.some.injEq, forall_eq']

/-- Two properties of steps hold along a run together. -/
theorem along_and :
    Along exec (fun s e s' => P s e s' ∧ Q s e s') s events ↔
      Along exec P s events ∧ Along exec Q s events := by
  induction events generalizing s with
  | nil => simp [Along]
  | cons e events ih =>
    simp only [Along, ih]
    constructor
    · intro h
      exact ⟨fun s' hexec => ⟨(h s' hexec).1.1, (h s' hexec).2.1⟩,
        fun s' hexec => ⟨(h s' hexec).1.2, (h s' hexec).2.2⟩⟩
    · rintro ⟨hp, hq⟩ s' hexec
      exact ⟨⟨(hp s' hexec).1, (hq s' hexec).1⟩, (hp s' hexec).2, (hq s' hexec).2⟩

/-- Steps with the second property keep the state in order, and have the first one. -/
theorem along_of_invariant (Inv : σ → Prop) (hs : Inv s)
    (hstep : ∀ s e s', Inv s → exec s e = some s' → Q s e s' → P s e s' ∧ Inv s')
    (h : Along exec Q s events) : Along exec P s events := by
  induction events generalizing s with
  | nil => trivial
  | cons e events ih =>
    intro s' hexec
    obtain ⟨hq, hrest⟩ := h s' hexec
    obtain ⟨hp, hs'⟩ := hstep s e s' hs hexec hq
    exact ⟨hp, ih hs' hrest⟩

/-- **Two properties of steps along a run.**  They agree on steps from states in order, and steps
with the second property keep the state in order. -/
theorem along_iff (Inv : σ → Prop) (hs : Inv s)
    (hiff : ∀ s e s', Inv s → exec s e = some s' → (P s e s' ↔ Q s e s'))
    (hinv : ∀ s e s', Inv s → exec s e = some s' → Q s e s' → Inv s') :
    Along exec P s events ↔ Along exec Q s events := by
  induction events generalizing s with
  | nil => rfl
  | cons e events ih =>
    refine forall₂_congr fun s' hexec => ?_
    rw [hiff s e s' hs hexec]
    exact and_congr_right fun hq => ih (hinv s e s' hs hexec hq)

/-- A property of the events alone, along a run that gets to its end. -/
theorem along_events_iff {R : ε → Prop} {s' : σ} (hrun : events.foldlM exec s = some s') :
    Along exec (fun _ e _ => R e) s events ↔ ∀ e ∈ events, R e := by
  induction events generalizing s with
  | nil => simp [Along]
  | cons e events ih =>
    rw [List.foldlM_cons, Option.bind_eq_bind, Option.bind_eq_some_iff] at hrun
    obtain ⟨s₁, hexec, hrun⟩ := hrun
    simp only [Along, hexec, Option.some.injEq, forall_eq', ih hrun, List.forall_mem_cons]

/-- What the events of a run keep, if all of them are `ok`, holds at its end. -/
theorem invariant_of_run {Inv : σ → Prop} {ok : ε → Prop} {s' : σ}
    (hstep : ∀ s e s', Inv s → ok e → exec s e = some s' → Inv s') (hs : Inv s)
    (hok : ∀ e ∈ events, ok e) (hrun : events.foldlM exec s = some s') : Inv s' := by
  induction events generalizing s with
  | nil =>
    obtain rfl := Option.some.inj hrun
    exact hs
  | cons e events ih =>
    rw [List.foldlM_cons, Option.bind_eq_bind, Option.bind_eq_some_iff] at hrun
    obtain ⟨s₁, hexec, hrun⟩ := hrun
    exact ih (hstep s e s₁ hs (hok e (by simp)) hexec) (fun e' he => hok e' (by simp [he])) hrun

/-- A run that gets to its end is made of steps of a relation. -/
theorem reflTransGen_of_along {r : σ → σ → Prop} {s' : σ}
    (hstep : ∀ s e s', exec s e = some s' → P s e s' → r s s')
    (hrun : events.foldlM exec s = some s') (h : Along exec P s events) :
    Relation.ReflTransGen r s s' := by
  induction events generalizing s with
  | nil =>
    obtain rfl := Option.some.inj hrun
    exact .refl
  | cons e events ih =>
    rw [List.foldlM_cons, Option.bind_eq_bind, Option.bind_eq_some_iff] at hrun
    obtain ⟨s₁, hexec, hrun⟩ := hrun
    obtain ⟨hp, hrest⟩ := h s₁ hexec
    exact (Relation.ReflTransGen.single (hstep s e s₁ hexec hp)).trans (ih hrun hrest)

/-! ### Points of a run -/

variable {R : ℕ → Prop} {a b m k : ℕ}

/-- What never comes back is lost for good. -/
theorem not_of_lost (hlost : ∀ m, a ≤ m → m < b → ¬ R m → ¬ R (m + 1)) (ham : a ≤ m) (hmk : m ≤ k)
    (hkb : k ≤ b) (hm : ¬ R m) : ¬ R k := by
  induction k, hmk using Nat.le_induction with
  | base => exact hm
  | succ k hmk ih => exact hlost k (ham.trans hmk) hkb (ih (Nat.le_of_succ_le hkb))

/-- **What is lost and never comes back** is lost in exactly one step. -/
theorem existsUnique_lost (hab : a ≤ b) (ha : R a) (hb : ¬ R b)
    (hlost : ∀ m, a ≤ m → m < b → ¬ R m → ¬ R (m + 1)) :
    ∃! m, a ≤ m ∧ m < b ∧ R m ∧ ¬ R (m + 1) := by
  obtain ⟨m, ham, hmb, hm, hnext⟩ : ∃ m, a ≤ m ∧ m < b ∧ R m ∧ ¬ R (m + 1) := by
    by_contra hnone
    -- otherwise it would hold at every point from `a` to `b`
    have hall : ∀ m, a ≤ m → m ≤ b → R m := by
      intro m ham
      induction m, ham using Nat.le_induction with
      | base => exact fun _ => ha
      | succ m ham ih =>
        intro hmb
        by_contra hm
        exact hnone ⟨m, ham, hmb, ih (Nat.le_of_succ_le hmb), hm⟩
    exact hb (hall b hab le_rfl)
  refine ⟨m, ⟨ham, hmb, hm, hnext⟩, fun k hk => ?_⟩
  obtain ⟨hak, hkb, hk, hknext⟩ := hk
  rcases lt_trichotomy k m with hlt | heq | hgt
  · exact absurd hm (not_of_lost hlost (Nat.le_succ_of_le hak) hlt (Nat.le_of_lt hmb) hknext)
  · exact heq
  · exact absurd hk (not_of_lost hlost (Nat.le_succ_of_le ham) hgt (Nat.le_of_lt hkb) hnext)

end Runs
