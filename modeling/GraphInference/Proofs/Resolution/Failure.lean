import GraphInference.Proofs.Resolution.Coherence
import GraphInference.Proofs.Resolution.Unhindered

/-!
# What a failure leaves

Work that fails has made known what it had learnt by then. What failed look-ups keep of the knowledge every
failed stream keeps, and where look-ups and admissions fail with certain errors only, so do streams
(`AnswerStream.Confined`). The induction over steps, rounds and nested streams is the one for results, done
for errors: `AnswerStream.Confined.drain` and, for streams that may not be cut short,
`AnswerStream.Confined.drainFreely`.
-/

namespace GraphInference

/-! ## Errors -/

namespace Resolve

variable {α β : Type} {k k' : Knowledge} {s s' : Supply} {e : InferenceError}

/-- The work fails with `e` on the knowledge `k` and the supply `s` and leaves `k'` and `s'`. -/
def Fails (x : Resolve α) (k : Knowledge) (s : Supply) (e : InferenceError) (k' : Knowledge)
    (s' : Supply) : Prop :=
  (x.run.run k).run s = ((.error e, k'), s')

theorem gives_or_fails (x : Resolve α) (k : Knowledge) (s : Supply) :
    (∃ a k' s', x.Gives k s a k' s') ∨ ∃ e k' s', x.Fails k s e k' s' := by
  unfold Gives Fails
  rcases (x.run.run k).run s with ⟨⟨e | a, k'⟩, s'⟩
  · exact .inr ⟨e, k', s', rfl⟩
  · exact .inl ⟨a, k', s', rfl⟩

theorem not_fails_pure {a : α} : ¬ Fails (pure a) k s e k' s' :=
  fun h => nomatch h

theorem fails_throw {e' : InferenceError} :
    Fails (throw e' : Resolve α) k s e k' s' ↔ e' = e ∧ k = k' ∧ s = s' := by
  constructor
  · intro h
    cases h
    exact ⟨rfl, rfl, rfl⟩
  · rintro ⟨rfl, rfl, rfl⟩
    rfl

/-- What is done in two parts fails in the first or, after a result of it, in the second. -/
theorem fails_bind {x : Resolve α} {f : α → Resolve β} : (x >>= f).Fails k s e k' s' ↔
    x.Fails k s e k' s' ∨ ∃ a l t, x.Gives k s a l t ∧ (f a).Fails l t e k' s' := by
  unfold Gives Fails
  rw [run_bind]
  rcases (x.run.run k).run s with ⟨⟨e' | a, l⟩, t⟩
  · refine ⟨fun h => ?_, ?_⟩
    · cases h
      exact .inl rfl
    · rintro (h | ⟨_, _, _, h, -⟩)
      · cases h
        rfl
      · cases h
  · refine ⟨fun h => .inr ⟨a, l, t, rfl, h⟩, ?_⟩
    rintro (h | ⟨_, _, _, h, hf⟩)
    · cases h
    · cases h
      exact hf

theorem not_fails_lift {x : Fresh α} : ¬ Fails (x : Resolve α) k s e k' s' :=
  fun h => nomatch h

theorem fails_liftExcept {x : Except InferenceError α} :
    Fails (liftExcept x) k s e k' s' ↔ x = .error e ∧ k = k' ∧ s = s' := by
  cases x with
  | ok a => exact ⟨fun h => (nomatch h), fun h => nomatch h.1⟩
  | error e' =>
    refine fails_throw.trans (and_congr_left fun _ => ?_)
    exact ⟨congrArg Except.error, Except.error.inj⟩

theorem fails_ofAttempt {x : Attempt α} :
    (ofAttempt x).Fails k s e k' s' ↔ x.run s = (.error e, s') ∧ k = k' := by
  have hrun : ((ofAttempt x).run.run k).run s = (((x.run s).1, k), (x.run s).2) := rfl
  unfold Fails
  rw [hrun]
  rcases x.run s with ⟨r, t⟩
  constructor
  · intro h
    cases h
    exact ⟨rfl, rfl⟩
  · rintro ⟨h, rfl⟩
    cases h
    rfl

theorem not_fails_mapM {f : α → Resolve β} (hf : ∀ a k s e k' s', ¬ (f a).Fails k s e k' s') {l : List α} :
    ¬ (l.mapM f).Fails k s e k' s' := by
  induction l generalizing k s with
  | nil => exact not_fails_pure
  | cons a l ih =>
    rw [List.mapM_cons]
    intro h
    rcases fails_bind.mp h with h | ⟨_, _, _, -, h⟩
    · exact hf _ _ _ _ _ _ h
    · rcases fails_bind.mp h with h | ⟨_, _, _, -, h⟩
      · exact ih h
      · exact not_fails_pure h

end Resolve

/-! ## Look-ups -/

/-- An attempt draws variables, whether it succeeds or not, if its parts do. -/
theorem Attempt.vars_le_bind {α β : Type} {x : Attempt α} {f : α → Attempt β}
    (hx : ∀ s, s.vars ≤ (x.run s).2.vars) (hf : ∀ a s, s.vars ≤ ((f a).run s).2.vars) (s : Supply) :
    s.vars ≤ ((x >>= f).run s).2.vars := by
  have hs := hx s
  rw [Attempt.run_bind]
  generalize x.run s = r at hs ⊢
  rcases r with ⟨e | a, t⟩
  · exact hs
  · exact hs.trans (hf a t)

/-- Planning draws variables, whether it succeeds or not. -/
theorem Planner.vars_le_planWithBound {g : Graph} (hg : g.WellFormed) (c : Conjunction)
    (bound : SortedSet Var) (s : Supply) : s.vars ≤ ((planWithBound c bound).run s).2.vars := by
  have hsets (statements : List Statement) (s : Supply) :
      s.vars ≤ ((FragmentSet.ofStatements statements).run s).2.vars := by
    induction statements generalizing s with
    | nil => exact le_rfl
    | cons st statements ih =>
      have hst (s : Supply) : s.vars ≤ ((FragmentSet.ofStatement st).run s).2.vars :=
        (FragmentSet.imparts_ofStatement hg st s).le
      refine Attempt.vars_le_bind (x := (FragmentSet.ofStatement st : Attempt _)) hst (fun sets s => ?_) s
      dsimp only
      split
      · exact le_rfl
      · exact Attempt.vars_le_bind ih (fun _ _ => le_rfl) s
  refine Attempt.vars_le_bind (hsets c.statements) (fun sets s => ?_) s
  refine Attempt.vars_le_bind (fun s => ?_) (fun _ _ => le_rfl) s
  cases order bound sets.length sets <;> exact le_rfl

namespace Resolve

variable {k k' : Knowledge} {s s' : Supply} {e : InferenceError} {q : AtomicQuery}
  {queries : List AtomicQuery} {g : Graph} {st : Setting}

/-- Planning that fails keeps no program and makes no answers known. -/
theorem of_fails_plan (hg : g.WellFormed) {c : Conjunction} (h : (plan c).Fails k s e k' s') :
    s.vars ≤ s'.vars ∧ (∀ d ∈ k'.programs.entries, d ∈ k.programs.entries) ∧ k'.known = k.known := by
  have hrun : ((plan c).run.run k).run s =
      ((((ProgramCache.plan c k.programs).run s).1.1,
        { k with programs := ((ProgramCache.plan c k.programs).run s).1.2 }),
        ((ProgramCache.plan c k.programs).run s).2) := rfl
  rw [Fails, hrun] at h
  obtain ⟨hresult, rfl⟩ := Prod.mk.inj h
  obtain ⟨herror, rfl⟩ := Prod.mk.inj hresult
  refine ⟨?_, ?_, rfl⟩
  all_goals
    rcases hplan : (ProgramCache.plan c k.programs).run s with ⟨⟨r, programs⟩, t⟩
    rw [hplan] at herror
    obtain rfl : r = .error e := herror
    rcases ProgramCache.cases_of_plan hplan with ⟨_, -, hok, -⟩ | ⟨-, hfresh, hentries⟩
    · cases hok
  · exact (congrArg (·.2.vars) hfresh) ▸ Planner.vars_le_planWithBound hg c .empty s
  · exact fun d hd => (hentries d hd).resolve_right fun h => nomatch h.2

/-- A look-up fails while it plans, or on a plan that cannot be run. -/
theorem of_fails_lookup (h : (lookup st q).Fails k s e k' s') :
    (plan q.toConjunction).Fails k s e k' s' ∨ ∃ p, (plan q.toConjunction).Gives k s p k' s' := by
  unfold lookup at h
  dsimp only at h
  split at h
  · exact absurd h not_fails_pure
  · rcases fails_bind.mp h with h | ⟨p, k₁, s₁, hp, h⟩
    · exact .inl h
    · rcases fails_bind.mp h with h | ⟨_, _, _, -, h⟩
      · obtain ⟨-, rfl, rfl⟩ := fails_liftExcept.mp h
        exact .inr ⟨p, hp⟩
      · refine absurd h (not_fails_mapM fun b k s e k' s' h => ?_)
        rcases fails_bind.mp h with h | ⟨_, _, _, -, h⟩
        · exact not_fails_lift h
        · exact not_fails_pure h

end Resolve

namespace AnswerStream

open Resolve

variable {s : Setting} {k k' : Knowledge} {t t' : Supply} {e : InferenceError}
  {involved : AtomicQuery → Prop} {K : Knowledge → Nat → Prop} {N : AtomicQuery → Prop}
  {E : InferenceError → Prop} {P : ResolutionPath → Interpretation} {resolve : Resolver}
  {st : AnswerStream} {n : Nat}

/-- What is true of the knowledge and of the error when work on the involved queries fails. -/
structure Confined (s : Setting) (involved : AtomicQuery → Prop) (K : Knowledge → Nat → Prop)
    (E : InferenceError → Prop) : Prop where
  interrupted : ∀ st : AnswerStream, s.transaction.isOpen = false → E st.interrupted
  lookup : ∀ {q k t e k' t'}, involved q → K k t.vars → (lookup s q).Fails k t e k' t' → K k' t'.vars ∧ E e
  admits : ∀ {q b e}, involved q → q.admits s.transaction b = .error e → E e
  unregistered : ∀ {q id u}, involved q → (id, u) ∈ s.rules.applicable q.central →
    s.rules.get? id = none → E (.planning ("rule " ++ id.text ++ " is not registered"))

/-- A resolver whose failures leave such knowledge and are such errors. -/
def Confines (involved : AtomicQuery → Prop) (K : Knowledge → Nat → Prop) (E : InferenceError → Prop)
    (resolve : Resolver) : Prop :=
  ∀ {path q k t e k' t'}, involved q → K k t.vars → (resolve path q).Fails k t e k' t' →
    K k' t'.vars ∧ E e

/-- A join fails in the resolution of a query of the body. -/
theorem confined_of_fails_joinBody {path : ResolutionPath} {body : List AtomicQuery} {rows : List JoinRow}
    (hmaintains : Maintains involved K P resolve) (hconfines : Confines involved K E resolve)
    (hbody : ∀ q ∈ body, ∀ i, involved (q.renumber i)) (hk : K k t.vars)
    (h : (joinBody resolve path rows body).Fails k t e k' t') : K k' t'.vars ∧ E e := by
  induction body generalizing rows k t with
  | nil => exact absurd h not_fails_pure
  | cons q body ih =>
    obtain ⟨hq, hbody⟩ := List.forall_mem_cons.mp hbody
    rcases fails_bind.mp h with h | ⟨_, k₁, t₁, hfork, h⟩
    · exact absurd h not_fails_lift
    obtain ⟨hrun, rfl⟩ := gives_lift.mp hfork
    obtain ⟨rfl, rfl⟩ := Prod.mk.inj hrun
    rcases fails_bind.mp h with h | ⟨as, k₂, t₂, has, h⟩
    · exact hconfines (hq _) (by exact hk) h
    · dsimp only at h
      split at h
      · exact absurd h not_fails_pure
      · exact ih hbody (hmaintains (hq _) (by exact hk) has).1 h

/-- To derive answers fails only where a binding cannot be tested. -/
theorem exists_of_fails_derive {q : AtomicQuery} {rule : RuleRef} {u : Unifier} {rows : List JoinRow}
    (h : (derive s q rule u rows).Fails k t e k' t') :
    k' = k ∧ t'.vars = t.vars ∧ ∃ b, q.admits s.transaction b = .error e := by
  rcases fails_bind.mp h with h | ⟨_, _, _, -, h⟩
  · clear * - h
    induction rows generalizing k t with
    | nil => exact absurd h not_fails_pure
    | cons row rows ih =>
      rw [List.mapM_cons] at h
      rcases fails_bind.mp h with h | ⟨o, k₁, t₁, ho, hrest⟩
      · dsimp only at h
        split at h
        · rcases fails_bind.mp h with h | ⟨admitted, k₂, t₂, -, h⟩
          · obtain ⟨hadmits, rfl, rfl⟩ := fails_liftExcept.mp h
            exact ⟨rfl, rfl, _, hadmits⟩
          · split at h
            · rcases fails_bind.mp h with h | ⟨_, _, _, -, h⟩
              · exact absurd h not_fails_lift
              · exact absurd h not_fails_pure
            · exact absurd h not_fails_pure
        · exact absurd h not_fails_pure
      · have hone : k₁ = k ∧ t₁.vars = t.vars := by
          dsimp only at ho
          split at ho
          · obtain ⟨admitted, k₂, t₂, hrun, ho⟩ := gives_bind.mp ho
            obtain ⟨-, rfl, rfl⟩ := gives_liftExcept.mp hrun
            split at ho
            · obtain ⟨made, k₃, t₃, hmade, ho⟩ := gives_bind.mp ho
              obtain ⟨-, rfl, rfl⟩ := gives_pure.mp ho
              obtain ⟨hrun, rfl⟩ := gives_lift.mp hmade
              obtain ⟨-, rfl⟩ := Prod.mk.inj hrun
              exact ⟨rfl, rfl⟩
            · obtain ⟨-, rfl, rfl⟩ := gives_pure.mp ho
              exact ⟨rfl, rfl⟩
          · obtain ⟨-, rfl, rfl⟩ := gives_pure.mp ho
            exact ⟨rfl, rfl⟩
        rcases fails_bind.mp hrest with hrest | ⟨_, _, _, -, hrest⟩
        · obtain ⟨rfl, hvars, hb⟩ := ih hrest
          exact ⟨hone.1, hvars.trans hone.2, hb⟩
        · exact absurd hrest not_fails_pure
  · exact absurd h not_fails_pure

variable (hconfined : Confined s involved K E) (hinv : Invariant s involved K N P)

include hconfined hinv

theorem Confined.applyRule (hmaintains : Maintains involved K P resolve)
    (hconfines : Confines involved K E resolve) (hq : involved st.query) {id : RuleId} {u : Unifier}
    (hu : (id, u) ∈ s.rules.applicable st.query.central) (hk : K k t.vars)
    (h : (applyRule resolve s st id u).Fails k t e k' t') : K k' t'.vars ∧ E e := by
  unfold AnswerStream.applyRule at h
  split at h
  · next hnone =>
    obtain ⟨rfl, rfl, rfl⟩ := fails_throw.mp h
    exact ⟨hk, hconfined.unregistered hq hu hnone⟩
  · next r hr =>
    have hbody : ∀ p ∈ r.body, ∀ i, involved (p.renumber i) := hinv.body hq hu hr
    rcases fails_bind.mp h with h | ⟨rows, k₁, t₁, hjoin, h⟩
    · exact confined_of_fails_joinBody hmaintains hconfines hbody hk h
    · obtain ⟨hk₁, -⟩ := joins_of_gives_joinBody (K := K) (L := fun _ _ => False) (U := fun _ _ => True)
        (fun p hp i _ _ _ _ _ hk hgives => ⟨(hmaintains (hbody p hp i) hk hgives).1,
          fun _ h => h.elim, fun _ _ => trivial⟩) hjoin hk
      obtain ⟨rfl, hvars, b, hb⟩ := exists_of_fails_derive h
      exact ⟨hvars ▸ hk₁, hconfined.admits hq hb⟩

/-- A step that fails leaves what held of the knowledge. -/
theorem Confined.step (hmaintains : Maintains involved K P resolve)
    (hconfines : Confines involved K E resolve) (hst : st.Upholds s involved N P) (hk : K k t.vars)
    (h : (step resolve s st).Fails k t e k' t') : K k' t'.vars ∧ E e := by
  unfold AnswerStream.step at h
  split at h
  case h_1 =>
    split at h
    · rcases fails_bind.mp h with h | ⟨_, _, _, -, h⟩
      · cases h
      · exact absurd h not_fails_pure
    · rcases fails_bind.mp h with h | ⟨as, k₁, t₁, -, h⟩
      · exact hconfined.lookup hst.involved hk h
      · rcases fails_bind.mp h with h | ⟨_, _, _, -, h⟩
        · cases h
        · exact absurd h not_fails_pure
  case h_2 =>
    dsimp only at h
    split at h <;> exact absurd h not_fails_pure
  case h_3 =>
    split at h
    case h_1 id u rulesLeft hleft =>
      rcases fails_bind.mp h with h | ⟨as, k₁, t₁, -, h⟩
      · have hu := hst.rulesLeft (id, u) (hleft ▸ .head _)
        have hinvolved : involved ({ st with rulesLeft } : AnswerStream).query := hst.involved
        exact hconfined.applyRule hinv hmaintains hconfines hinvolved hu hk h
      · rcases fails_bind.mp h with h | ⟨_, _, _, -, h⟩
        · cases h
        · exact absurd h not_fails_pure
    case h_2 =>
      dsimp only at h
      split at h <;> exact absurd h not_fails_pure
  case h_4 => exact absurd h not_fails_pure

theorem Confined.finishWithin (hmaintains : Maintains involved K P resolve)
    (hconfines : Confines involved K E resolve) (hst : st.Upholds s involved N P) (hk : K k t.vars)
    (h : (finishWithin resolve s n st).Fails k t e k' t') : K k' t'.vars ∧ E e := by
  induction n generalizing st k t with
  | zero =>
    rw [AnswerStream.finishWithin.eq_def] at h
    dsimp only at h
    split at h
    · exact absurd h not_fails_pure
    · split at h
      · next hclosed =>
        obtain ⟨rfl, rfl, rfl⟩ := fails_throw.mp h
        exact ⟨hk, hconfined.interrupted st (Bool.eq_false_iff.mpr hclosed)⟩
      · exact absurd h not_fails_pure
  | succ n ih =>
    rw [AnswerStream.finishWithin.eq_def] at h
    dsimp only at h
    split at h
    · exact absurd h not_fails_pure
    · split at h
      · next hclosed =>
        obtain ⟨rfl, rfl, rfl⟩ := fails_throw.mp h
        exact ⟨hk, hconfined.interrupted st (Bool.eq_false_iff.mpr hclosed)⟩
      · rcases fails_bind.mp h with h | ⟨mid, k₁, t₁, hmid, h⟩
        · exact hconfined.step hinv hmaintains hconfines hst hk h
        · obtain ⟨hmidUpholds, hk₁⟩ := hinv.step hmaintains hst hk (steps_of_gives hmid)
          exact ih hmidUpholds hk₁ h

theorem Confined.drainWith (hmaintains : Maintains involved K P resolve)
    (hconfines : Confines involved K E resolve) :
    Confines involved K E fun path q => drainWith resolve s { query := q, path } := by
  intro path q k t e k' t' hq hk h
  rcases fails_bind.mp h with h | ⟨_, _, _, -, h⟩
  · exact hconfined.finishWithin hinv hmaintains hconfines (.start hq) hk h
  · exact absurd h not_fails_pure

theorem Confined.resolveWithin (n : Nat) : Confines involved K E (resolveWithin s n) := by
  induction n with
  | zero =>
    refine hconfined.drainWith hinv (fun _ hk h => ?_) fun _ _ h => absurd h not_fails_pure
    obtain ⟨rfl, rfl, rfl⟩ := gives_pure.mp h
    exact ⟨hk, fun _ ha => nomatch ha⟩
  | succ n ih => exact hconfined.drainWith hinv (hinv.resolveWithin n) ih

/-- A drain that fails leaves what held of the knowledge. -/
theorem Confined.drain : Confines involved K E fun path q => drain s { query := q, path } := fun hq hk h =>
  hconfined.drainWith hinv (hinv.resolveWithin _) (hconfined.resolveWithin hinv _) hq hk h

/-! ## Streams that are not cut short -/

variable (hhindered : ∀ st : AnswerStream, E st.hindered)

include hhindered

theorem Confined.finishFreely (hmaintains : Maintains involved K P resolve)
    (hconfines : Confines involved K E resolve) (hst : st.Upholds s involved N P) (hk : K k t.vars)
    (h : (finishFreely resolve s n st).Fails k t e k' t') : K k' t'.vars ∧ E e := by
  induction n generalizing st k t with
  | zero =>
    rw [AnswerStream.finishFreely.eq_def] at h
    dsimp only at h
    split at h
    · exact absurd h not_fails_pure
    · split at h
      · next hclosed =>
        obtain ⟨rfl, rfl, rfl⟩ := fails_throw.mp h
        exact ⟨hk, hconfined.interrupted st (Bool.eq_false_iff.mpr hclosed)⟩
      · split at h <;> obtain ⟨rfl, rfl, rfl⟩ := fails_throw.mp h <;> exact ⟨hk, hhindered st⟩
  | succ n ih =>
    rw [AnswerStream.finishFreely.eq_def] at h
    dsimp only at h
    split at h
    · exact absurd h not_fails_pure
    · split at h
      · next hclosed =>
        obtain ⟨rfl, rfl, rfl⟩ := fails_throw.mp h
        exact ⟨hk, hconfined.interrupted st (Bool.eq_false_iff.mpr hclosed)⟩
      · split at h
        · obtain ⟨rfl, rfl, rfl⟩ := fails_throw.mp h
          exact ⟨hk, hhindered st⟩
        · rcases fails_bind.mp h with h | ⟨mid, k₁, t₁, hmid, h⟩
          · exact hconfined.step hinv hmaintains hconfines hst hk h
          · obtain ⟨hmidUpholds, hk₁⟩ := hinv.step hmaintains hst hk (steps_of_gives hmid)
            exact ih hmidUpholds hk₁ h

theorem Confined.drainFreelyWith (hmaintains : Maintains involved K P resolve)
    (hconfines : Confines involved K E resolve) :
    Confines involved K E fun path q => drainFreelyWith resolve s { query := q, path } := by
  intro path q k t e k' t' hq hk h
  rcases fails_bind.mp h with h | ⟨_, _, _, -, h⟩
  · exact hconfined.finishFreely hinv hhindered hmaintains hconfines (.start hq) hk h
  · exact absurd h not_fails_pure

theorem Confined.resolveFreely (n : Nat) : Confines involved K E (resolveFreely s n) := by
  induction n with
  | zero =>
    refine hconfined.drainFreelyWith hinv hhindered (fun _ _ h => absurd h not_gives_throw) fun _ hk h => ?_
    obtain ⟨rfl, rfl, rfl⟩ := fails_throw.mp h
    exact ⟨hk, hhindered _⟩
  | succ n ih =>
    refine hconfined.drainFreelyWith hinv hhindered (fun hq hk h => ?_) ih
    exact hinv.resolveWithin n hq hk (refines_resolveFreely s n h)

/-- A drain that may not be cut short fails with the errors of look-ups and admissions, or at a bound. -/
theorem Confined.drainFreely :
    Confines involved K E fun path q => drainFreely s { query := q, path } := fun hq hk h => by
  refine hconfined.drainFreelyWith hinv hhindered (fun hq hk h => ?_)
    (hconfined.resolveFreely hinv hhindered _) hq hk h
  exact hinv.resolveWithin _ hq hk (refines_resolveFreely s _ h)

end AnswerStream

/-! ## Coherent queries -/

theorem AtomicQuery.IsCopyOf.searchable {q r : AtomicQuery} (h : q.IsCopyOf r) (hr : r.Searchable) :
    q.Searchable := by
  rcases h with rfl | ⟨i, rfl⟩
  · exact hr
  · intro a ha
    rw [atoms_renumber] at ha
    obtain ⟨b, hb, rfl⟩ := List.mem_map.mp ha
    exact Atom.searchable_withQuery.mpr (hr b hb)

namespace Setting.Coherent

open AtomicQuery Resolve AnswerStream

variable {s : Setting} {queries : List AtomicQuery} {q : AtomicQuery} {k k' : Knowledge} {t t' : Supply}
  {e : InferenceError} (h : s.Coherent queries)

include h

/-- A look-up that fails leaves plans of the queries and what was known. -/
theorem trusts_of_fails_lookup (hq : q.IsAmong queries) (hk : s.Trusts queries k t.vars)
    (hlookup : (lookup s q).Fails k t e k' t') : s.Trusts queries k' t'.vars := by
  have hg := h.reachable.wellFormed
  obtain ⟨p, hp, hqp⟩ := hq
  rcases of_fails_lookup hlookup with hplan | ⟨program, hplan⟩
  · obtain ⟨hle, hentries, hknown⟩ := of_fails_plan hg hplan
    refine ⟨fun r hr => ?_, fun d hd => hk.named d (hentries d hd), hknown ▸ hk.entailed⟩
    obtain ⟨hfresh, hkeeps⟩ := hk.settled r hr
    exact ⟨hfresh.mono hle, fun d hd => hkeeps d (hentries d hd)⟩
  · have hsettled : k.Settled t queries := hk.settled
    have hsettled' : k'.Settled t' queries := settled_of_gives_plan hg (fun r hr htext =>
      (h.texts r hr p hp (htext.trans hqp.text_eq)).trans hqp.toConjunction_eq.symm) hsettled hplan
    refine ⟨hsettled', fun d hd => ?_, known_of_gives_plan hplan ▸ hk.entailed⟩
    rcases (entries_of_gives_plan hg hplan).2 d hd with hd | ⟨htext, -⟩
    · exact hk.named d hd
    · exact ⟨p, hp, htext.trans hqp.text_eq⟩

/-- Whatever fails, what is planned was planned for the queries, and what is known follows by the rules. -/
theorem confined : Confined s (IsAmong queries) (s.Trusts queries) fun _ => True where
  interrupted := fun _ _ => trivial
  lookup := fun hq hk hlookup => ⟨h.trusts_of_fails_lookup hq hk hlookup, trivial⟩
  admits := fun _ _ => trivial
  unregistered := fun _ _ _ => trivial

/-- On an open transaction nothing fails for queries that can be looked up. -/
theorem confined_of_searchable {searched : List AtomicQuery} {E : InferenceError → Prop}
    (hopen : s.transaction.isOpen = true) (hsub : ∀ q ∈ searched, q ∈ queries)
    (hsearchable : ∀ q ∈ searched, q.Searchable) :
    Confined s (IsAmong searched) (s.Trusts queries) E where
  interrupted := fun _ hclosed => nomatch hopen.symm.trans hclosed
  lookup := by
    rintro q k t e k' t' ⟨p, hp, hqp⟩ hk hlookup
    obtain ⟨g, -, hpg⟩ := h.made p (hsub p hp)
    obtain ⟨hfresh, hkeeps⟩ : p.FreshFrom t ∧ k.KeepsPlansOf p := hk.settled p (hsub p hp)
    obtain ⟨as, l, u, hgives⟩ := (exists_gives_lookup_iff h.reachable (hqp.decomposed hpg).plain
      (hqp.keepsPlansOf hkeeps) (hqp.freshFrom hfresh)).mpr (.inr ⟨hopen, hqp.searchable (hsearchable p hp)⟩)
    cases hgives.symm.trans hlookup
  admits := by
    intro q b e _ hadmits
    obtain ⟨holds, hholds⟩ := AtomicQuery.exists_admits hopen q b
    cases hholds.symm.trans hadmits
  unregistered := by
    intro q id u _ hu hnone
    obtain ⟨c, hc, -⟩ := h.built.get?_of_applicable hu
    cases hc.symm.trans hnone

end Setting.Coherent

end GraphInference
