import GraphInference.Proofs.Resolution.Invariant

/-!
# Resolutions that come to no bound

A bound of the configuration cuts a stream short if the query would be expanded but for the depth of its
path, or if its rules would be applied again but for the number of rounds (`AnswerStream.AtBound`). To
drain freely is to drain with an error instead of the cut, in the stream and in all streams nested in it.
What a free drain gives an ordinary one gives too: `AnswerStream.gives_drain_of_freely`.
-/

namespace GraphInference

open Resolve

namespace AnswerStream

/-- The next step of the stream is cut short by a bound. -/
def AtBound (s : Setting) (st : AnswerStream) : Prop :=
  st.stage = .unresolved ∧ ¬ st.path.meets st.query = true ∧
      s.config.maxRecursionDepth ≤ st.path.length ∨
    st.stage = .needsRuleExpansion ∧ st.rulesLeft = [] ∧ st.recursive = true ∧ st.roundAdded = true ∧
      s.config.maxFixpointIterations ≤ st.round + 1

instance (s : Setting) (st : AnswerStream) : Decidable (st.AtBound s) :=
  have : Decidable (st.rulesLeft = []) := decidable_of_iff _ List.isEmpty_iff
  inferInstanceAs (Decidable (_ ∨ _))

/-- The error of a stream that comes to a bound. -/
def hindered (st : AnswerStream) : InferenceError :=
  .planning ("bound reached while resolving " ++ st.query.text)

/-- The stream at its end, if it comes to no bound. -/
def finishFreely (resolve : Resolver) (s : Setting) : Nat → AnswerStream → Resolve AnswerStream
  | n, st =>
    if st.failed ∨ st.stage.isTerminal then return st
    else if ¬ s.transaction.isOpen then throw st.interrupted
    else if st.AtBound s then throw st.hindered
    else
      match n with
      | 0 => throw st.hindered
      | n + 1 => do finishFreely resolve s n (← step resolve s st)

def drainFreelyWith (resolve : Resolver) (s : Setting) (st : AnswerStream) : Resolve (List Answer) :=
  return (← finishFreely resolve s (stepBound s) st).answers.answers

/-- Every answer to a query on a path that can grow by `n` more queries, if no stream comes to a bound. -/
def resolveFreely (s : Setting) : Nat → Resolver
  | 0, path, q => drainFreelyWith (fun _ q => throw (hindered { query := q, path })) s { query := q, path }
  | n + 1, path, q => drainFreelyWith (resolveFreely s n) s { query := q, path }

/-- Every answer of a stream, if neither it nor a stream nested in it comes to a bound. -/
def drainFreely (s : Setting) (st : AnswerStream) : Resolve (List Answer) :=
  drainFreelyWith (resolveFreely s (s.config.maxRecursionDepth - (st.path.length + 1))) s st

/-! ## Refinement -/

/-- Whatever the one resolver gives, the other one gives. -/
def Refines (resolve resolve' : Resolver) : Prop :=
  ∀ {path q k t as k' t'}, (resolve path q).Gives k t as k' t' → (resolve' path q).Gives k t as k' t'

variable {resolve resolve' : Resolver} {s : Setting} {st st' : AnswerStream} {k k' : Knowledge}
  {t t' : Supply} {n : Nat} {p : AnswerStream → Knowledge → Supply → Prop}

theorem Refines.joinBody (h : Refines resolve resolve') {path : ResolutionPath} {body : List AtomicQuery}
    {rows rows' : List JoinRow} (hgives : (joinBody resolve path rows body).Gives k t rows' k' t') :
    (joinBody resolve' path rows body).Gives k t rows' k' t' := by
  induction body generalizing rows k t with
  | nil => exact hgives
  | cons q body ih =>
    obtain ⟨q', k₁, t₁, hfork, hgives⟩ := gives_bind.mp hgives
    obtain ⟨as, k₂, t₂, has, hgives⟩ := gives_bind.mp hgives
    refine gives_bind.mpr ⟨q', k₁, t₁, hfork, gives_bind.mpr ⟨as, k₂, t₂, h has, ?_⟩⟩
    dsimp only at hgives ⊢
    split at hgives
    · next hempty => rwa [if_pos hempty]
    · next hempty => rw [if_neg hempty]; exact ih hgives

theorem Refines.applyRule (h : Refines resolve resolve') {id : RuleId} {u : Unifier} {as : List Answer}
    (hgives : (applyRule resolve s st id u).Gives k t as k' t') :
    (applyRule resolve' s st id u).Gives k t as k' t' := by
  unfold AnswerStream.applyRule at hgives ⊢
  split at hgives
  · exact hgives
  · obtain ⟨rows, k₁, t₁, hrows, hgives⟩ := gives_bind.mp hgives
    exact gives_bind.mpr ⟨rows, k₁, t₁, h.joinBody hrows, hgives⟩

theorem Refines.step (h : Refines resolve resolve') (hgives : (step resolve s st).Gives k t st' k' t') :
    (step resolve' s st).Gives k t st' k' t' := by
  unfold AnswerStream.step at hgives ⊢
  split at hgives
  · exact hgives
  · exact hgives
  · split at hgives
    · obtain ⟨as, k₁, t₁, has, hgives⟩ := gives_bind.mp hgives
      exact gives_bind.mpr ⟨as, k₁, t₁, h.applyRule has, hgives⟩
    · exact hgives
  · exact hgives

theorem gives_finishWithin_of_freely (h : Refines resolve resolve')
    (hgives : (finishFreely resolve s n st).Gives k t st' k' t') :
    (finishWithin resolve' s n st).Gives k t st' k' t' := by
  induction n generalizing st k t with
  | zero =>
    rw [finishFreely.eq_def] at hgives
    rw [finishWithin.eq_def]
    dsimp only at hgives ⊢
    split at hgives
    · next hended => rwa [if_pos hended]
    · split at hgives
      · exact absurd hgives not_gives_throw
      · split at hgives <;> exact absurd hgives not_gives_throw
  | succ n ih =>
    rw [finishFreely.eq_def] at hgives
    rw [finishWithin.eq_def]
    dsimp only at hgives ⊢
    split at hgives
    · next hended => rwa [if_pos hended]
    · next hended =>
      split at hgives
      · exact absurd hgives not_gives_throw
      · next hopen =>
        split at hgives
        · exact absurd hgives not_gives_throw
        · obtain ⟨mid, k₁, t₁, hmid, hgives⟩ := gives_bind.mp hgives
          rw [if_neg hended, if_neg hopen]
          exact gives_bind.mpr ⟨mid, k₁, t₁, h.step hmid, ih hgives⟩

theorem gives_drainWith_of_freely (h : Refines resolve resolve') {as : List Answer}
    (hgives : (drainFreelyWith resolve s st).Gives k t as k' t') :
    (drainWith resolve' s st).Gives k t as k' t' := by
  obtain ⟨st', k₁, t₁, hfinish, hgives⟩ := gives_bind.mp hgives
  exact gives_bind.mpr ⟨st', k₁, t₁, gives_finishWithin_of_freely h hfinish, hgives⟩

theorem refines_resolveFreely (s : Setting) (n : Nat) : Refines (resolveFreely s n) (resolveWithin s n) := by
  induction n with
  | zero => exact gives_drainWith_of_freely fun h => absurd h not_gives_throw
  | succ n ih => exact gives_drainWith_of_freely ih

theorem gives_drain_of_freely {as : List Answer} (h : (drainFreely s st).Gives k t as k' t') :
    (drain s st).Gives k t as k' t' :=
  gives_drainWith_of_freely (refines_resolveFreely s _) h

/-! ## Runs -/

/-- What every step that comes to no bound keeps, a stream has at its end. -/
theorem finishFreely_induction
    (hstep : ∀ {st k t st' k' t'}, ¬ st.AtBound s → Steps resolve s st k t st' k' t' → p st k t →
      p st' k' t')
    (h : (finishFreely resolve s n st).Gives k t st' k' t') (hp : p st k t) :
    p st' k' t' ∧ st'.Ended := by
  induction n generalizing st k t with
  | zero =>
    rw [finishFreely.eq_def] at h
    dsimp only at h
    split at h
    · next hended =>
      obtain ⟨rfl, rfl, rfl⟩ := gives_pure.mp h
      exact ⟨hp, hended⟩
    · split at h
      · exact absurd h not_gives_throw
      · split at h <;> exact absurd h not_gives_throw
  | succ n ih =>
    rw [finishFreely.eq_def] at h
    dsimp only at h
    split at h
    · next hended =>
      obtain ⟨rfl, rfl, rfl⟩ := gives_pure.mp h
      exact ⟨hp, hended⟩
    · split at h
      · exact absurd h not_gives_throw
      · split at h
        · exact absurd h not_gives_throw
        · next hfree =>
          obtain ⟨mid, k₁, t₁, hmid, h⟩ := gives_bind.mp h
          exact ih h (hstep hfree (steps_of_gives hmid) hp)

end AnswerStream

end GraphInference
