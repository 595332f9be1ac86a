import GraphInference.Proofs.Pattern.Likeness

/-!
# Patterns that are refused

A pattern is refused when its fragment sets are made, at the first statement that makes none
(`FragmentSet.fails_ofStatements`). Once the sets are made nothing is refused any more: planning fails
with the error of the sets and never with one of its own (`Planner.fails_planWithBound`).
-/

namespace GraphInference

namespace Attempt

variable {α β : Type}

/-- The attempt fails with `e` on the supply `s` and leaves the supply `t`. -/
def Fails (x : Attempt α) (s : Supply) (e : InferenceError) (t : Supply) : Prop :=
  x.run s = (.error e, t)

theorem gives_or_fails (x : Attempt α) (s : Supply) :
    (∃ a t, x.Gives s a t) ∨ ∃ e t, x.Fails s e t := by
  unfold Gives Fails
  rcases x.run s with ⟨e | a, t⟩
  · exact .inr ⟨e, t, rfl⟩
  · exact .inl ⟨a, t, rfl⟩

theorem not_fails_of_gives {x : Attempt α} {s t t' : Supply} {a : α} {e : InferenceError}
    (h : x.Gives s a t) : ¬ x.Fails s e t' :=
  fun h' => nomatch h.symm.trans h'

theorem not_fails_pure {a : α} {s t : Supply} {e : InferenceError} : ¬ Fails (pure a) s e t :=
  fun h => nomatch h

theorem not_fails_lift {x : Fresh α} {s t : Supply} {e : InferenceError} :
    ¬ Fails (x : Attempt α) s e t :=
  fun h => nomatch h

theorem fails_throw {s t : Supply} {e e' : InferenceError} :
    Fails (throw e' : Attempt α) s e t ↔ e' = e ∧ s = t := by
  constructor
  · intro h
    cases h
    exact ⟨rfl, rfl⟩
  · rintro ⟨rfl, rfl⟩
    rfl

theorem fails_bind {x : Attempt α} {f : α → Attempt β} {s t : Supply} {e : InferenceError} :
    (x >>= f).Fails s e t ↔ x.Fails s e t ∨ ∃ a u, x.Gives s a u ∧ (f a).Fails u e t := by
  unfold Gives Fails
  rw [run_bind]
  rcases x.run s with ⟨e' | a, u⟩
  · constructor
    · intro h
      cases h
      exact .inl rfl
    · rintro (h | ⟨_, _, h, -⟩)
      · cases h
        rfl
      · cases h
  · constructor
    · exact fun h => .inr ⟨a, u, rfl, h⟩
    · rintro (h | ⟨_, _, h, hf⟩)
      · cases h
      · cases h
        exact hf

end Attempt

open Attempt

/-- The statement makes no fragment set. -/
def Statement.isVoid (s : Statement) : Bool :=
  ((FragmentSet.ofStatement s).run {}).1.isEmpty

/-- Whether a statement makes a set does not depend on the variables that are drawn for it. -/
theorem Statement.isVoid_iff {s : Statement} (u : Supply) :
    s.isVoid = true ↔ ((FragmentSet.ofStatement s).run u).1 = [] := by
  rw [isVoid, List.isEmpty_iff, FragmentSet.ofStatement_eq_nil_iff,
    FragmentSet.ofStatement_eq_nil_iff]

/-- The pattern is refused with `e`, for its first statement that makes no fragment set. -/
def Conjunction.RefusedFor (c : Conjunction) (e : InferenceError) : Prop :=
  ∃ s, c.statements.find? Statement.isVoid = some s ∧
    e = .noApplicableFragments ("no traversal fragment applies to '" ++ s.text ++ "'")

theorem Conjunction.RefusedFor.unique {c : Conjunction} {e e' : InferenceError}
    (h : c.RefusedFor e) (h' : c.RefusedFor e') : e = e' := by
  obtain ⟨s, hs, rfl⟩ := h
  obtain ⟨s', hs', rfl⟩ := h'
  rw [Option.some.inj (hs.symm.trans hs')]

theorem FragmentSet.fails_ofConjunction {c : Conjunction} {s t : Supply} {e : InferenceError}
    (h : (ofConjunction c).Fails s e t) : c.RefusedFor e := by
  obtain ⟨statements⟩ := c
  replace h : (ofStatements statements).Fails s e t := h
  induction statements generalizing s with
  | nil => exact absurd h not_fails_pure
  | cons st statements ih =>
    rcases fails_bind.mp h with h | ⟨sets, u, hsets, h⟩
    · exact absurd h not_fails_lift
    · have hvoid : st.isVoid = sets.isEmpty := by
        rw [Bool.eq_iff_iff, Statement.isVoid_iff s, gives_lift.mp hsets, List.isEmpty_iff]
      dsimp only at h
      split at h
      · next hempty =>
        rcases fails_bind.mp h with h | ⟨_, _, h, -⟩
        · obtain ⟨rfl, -⟩ := fails_throw.mp h
          exact ⟨st, List.find?_cons_of_pos (hvoid.trans hempty), rfl⟩
        · exact absurd h not_gives_throw
      · next hne =>
        rcases fails_bind.mp h with h | ⟨_, _, _, h⟩
        · obtain ⟨s', hs', he⟩ := ih h
          refine ⟨s', ?_, he⟩
          rw [List.find?_cons_of_neg (hvoid ▸ hne), hs']
        · exact absurd h not_fails_pure

theorem Conjunction.find?_isVoid_eq_none {c : Conjunction} (h : ∀ s ∈ c.statements, s.IsFounded) :
    c.statements.find? Statement.isVoid = none := by
  refine List.find?_eq_none.mpr fun s hs hvoid => ?_
  exact (FragmentSet.ofStatement_eq_nil_iff s {}).mp ((Statement.isVoid_iff {}).mp hvoid) (h s hs)

/-- Planning fails where the sets are not made and nowhere else. -/
theorem Planner.fails_planWithBound {c : Conjunction} {bound : SortedSet Var} {s t : Supply}
    {e : InferenceError} (h : (planWithBound c bound).Fails s e t) : c.RefusedFor e := by
  rcases gives_or_fails (FragmentSet.ofConjunction c) s with ⟨sets, u, hsets⟩ | ⟨e', u, hfails⟩
  · obtain ⟨p, hp⟩ := exists_planWithBound hsets bound
    exact absurd h (not_fails_of_gives hp)
  · have he : (planWithBound c bound).Fails s e' u := fails_bind.mpr (.inl hfails)
    cases h.symm.trans he
    exact FragmentSet.fails_ofConjunction hfails

/-- A pattern is planned if each statement makes a set, and refused for the first that makes none. -/
theorem Planner.gives_or_refused (c : Conjunction) (s : Supply) :
    (∃ p t, (planWithBound c .empty).Gives s p t ∧ c.statements.find? Statement.isVoid = none) ∨
      ∃ e t, (planWithBound c .empty).Fails s e t ∧ c.RefusedFor e := by
  rcases gives_or_fails (planWithBound c .empty) s with ⟨p, t, hp⟩ | ⟨e, t, he⟩
  · have hfounded := Conjunction.exists_planWithBound_iff.mp ⟨p, t, hp⟩
    exact .inl ⟨p, t, hp, Conjunction.find?_isVoid_eq_none hfounded⟩
  · exact .inr ⟨e, t, he, fails_planWithBound he⟩

end GraphInference
