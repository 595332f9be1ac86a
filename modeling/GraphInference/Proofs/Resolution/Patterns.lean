import GraphInference.Proofs.Resolution.Closure
import GraphInference.Proofs.Resolution.Failure

/-!
# The answers to patterns

What follows for the atomic queries of a pattern, joined, is concluded of the pattern
(`Setting.Concludes`). A reasoner that knows what its earlier work found out answers a pattern with
conclusions only (`Setting.Coherent.concludes_of_gives_resolve`). If no stream comes to a bound
(`Reasoner.Unhindered`), the transaction is open and every query can be looked up, then it does answer, and
with all of them: `Setting.Coherent.exists_resolve_of_unhindered`.
-/

namespace GraphInference

open AtomicQuery Resolve Decomposition

/-! ## Patterns that are resolved without a bound -/

namespace Reasoner

open AnswerStream

variable {drain drain' : AtomicQuery → Resolve (List Answer)} {tx : Transaction} {c : Conjunction}
  {d : DecomposedQuery} {queries : List AtomicQuery} {rows rows' : List JoinRow} {k k' : Knowledge}
  {t t' : Supply} {as : List Answer} {e : InferenceError} {s : Setting}
  {K : Knowledge → Nat → Prop} {E : InferenceError → Prop}

/-- The answers to a conjunction, if no stream comes to a bound. -/
def resolveFreely (s : Setting) (c : Conjunction) : Resolve (List Answer) :=
  resolveWith (fun q => (stream q).drainFreely s) s.transaction c

/-- No stream comes to a bound when the conjunction is resolved. -/
def Unhindered (s : Setting) (c : Conjunction) (k : Knowledge) (t : Supply) : Prop :=
  ∀ st k' t', ¬ (resolveFreely s c).Fails k t (AnswerStream.hindered st) k' t'

theorem unhindered_of_isOk (h : (((resolveFreely s c).run.run k).run t).1.1.isOk = true) :
    Unhindered s c k t := by
  intro st k' t' hfails
  rw [show ((resolveFreely s c).run.run k).run t = _ from hfails] at h
  cases h

theorem gives_joinAllWith_of_gives
    (hdrain : ∀ {q k t as k' t'}, (drain q).Gives k t as k' t' → (drain' q).Gives k t as k' t')
    (h : (joinAllWith drain rows queries).Gives k t rows' k' t') :
    (joinAllWith drain' rows queries).Gives k t rows' k' t' := by
  induction queries generalizing rows k t with
  | nil => exact h
  | cons q queries ih =>
    obtain ⟨as, k₁, t₁, has, h⟩ := gives_bind.mp h
    refine gives_bind.mpr ⟨as, k₁, t₁, hdrain has, ?_⟩
    dsimp only at h ⊢
    split at h
    · next hempty => rwa [if_pos hempty]
    · next hempty => rw [if_neg hempty]; exact ih h

theorem gives_resolveWith_of_gives
    (hdrain : ∀ {q k t as k' t'}, (drain q).Gives k t as k' t' → (drain' q).Gives k t as k' t')
    (h : (resolveWith drain tx c).Gives k t as k' t') :
    (resolveWith drain' tx c).Gives k t as k' t' := by
  obtain ⟨d, k₀, t₀, hd, h⟩ := gives_bind.mp h
  refine gives_bind.mpr ⟨d, k₀, t₀, hd, ?_⟩
  dsimp only at h ⊢
  split at h
  · obtain ⟨found, k₁, t₁, hfound, h⟩ := gives_bind.mp h
    exact gives_bind.mpr ⟨found, k₁, t₁, hdrain hfound, h⟩
  · obtain ⟨rows, k₁, t₁, hrows, h⟩ := gives_bind.mp h
    exact gives_bind.mpr ⟨rows, k₁, t₁, gives_joinAllWith_of_gives hdrain hrows, h⟩

/-- What is found where no stream comes to a bound is what is found. -/
theorem gives_resolve_of_freely (h : (resolveFreely s c).Gives k t as k' t') :
    (resolve s c).Gives k t as k' t' :=
  resolve_eq ▸ gives_resolveWith_of_gives gives_drain_of_freely h

/-! ## Failures -/

/-- A join fails in the answers to one of the queries. -/
theorem confined_of_fails_joinAllWith
    (hgives : ∀ q ∈ queries, ∀ k t as k' t', K k t.vars → (drain q).Gives k t as k' t' → K k' t'.vars)
    (hfails : ∀ q ∈ queries, ∀ k t e k' t', K k t.vars → (drain q).Fails k t e k' t' → K k' t'.vars ∧ E e)
    (hk : K k t.vars) (h : (joinAllWith drain rows queries).Fails k t e k' t') : K k' t'.vars ∧ E e := by
  induction queries generalizing rows k t with
  | nil => exact absurd h not_fails_pure
  | cons q queries ih =>
    obtain ⟨hgive, hgives⟩ := List.forall_mem_cons.mp hgives
    obtain ⟨hfail, hfails⟩ := List.forall_mem_cons.mp hfails
    rcases fails_bind.mp h with h | ⟨as, k₁, t₁, has, h⟩
    · exact hfail _ _ _ _ _ hk h
    · dsimp only at h
      split at h
      · exact absurd h not_fails_pure
      · exact ih hgives hfails (hgive _ _ _ _ _ hk has) h

/-- A conjunction that is decomposed fails in the answers to one of its queries. -/
theorem confined_of_fails_resolveWith {t₁ : Supply} (hd : (ofConjunction tx c).Gives t d t₁)
    (hgives : ∀ q ∈ d.queries, ∀ k t as k' t', K k t.vars → (drain q).Gives k t as k' t' → K k' t'.vars)
    (hfails : ∀ q ∈ d.queries, ∀ k t e k' t', K k t.vars → (drain q).Fails k t e k' t' →
      K k' t'.vars ∧ E e)
    (hk : K k t₁.vars) (h : (resolveWith drain tx c).Fails k t e k' t') : K k' t'.vars ∧ E e := by
  rcases fails_bind.mp h with h | ⟨d', k₀, t₀, hd', h⟩
  · obtain ⟨herror, -⟩ := fails_ofAttempt.mp h
    cases herror.symm.trans hd
  obtain ⟨hgiven, rfl⟩ := gives_ofAttempt.mp hd'
  obtain ⟨heq, rfl⟩ := Prod.mk.inj (hd.symm.trans hgiven)
  obtain rfl := Except.ok.inj heq
  dsimp only at h
  split at h
  · next q hqueries =>
    rcases fails_bind.mp h with h | ⟨_, _, _, -, h⟩
    · exact hfails q (hqueries ▸ .head _) _ _ _ _ _ hk h
    · exact absurd h not_fails_pure
  · rcases fails_bind.mp h with h | ⟨rows, k₁, t₂, -, h⟩
    · exact confined_of_fails_joinAllWith hgives hfails hk h
    · rcases fails_bind.mp h with h | ⟨_, _, _, -, h⟩
      · exact absurd h (not_fails_mapM fun _ _ _ _ _ _ h => not_fails_lift h)
      · exact absurd h not_fails_pure

end Reasoner

/-! ## Conclusions -/

/-- The queries in the bodies of the rules. -/
def RuleSet.bodies (rules : RuleSet) : List AtomicQuery :=
  rules.rules.flatMap CompiledRule.body

theorem RuleSet.mem_bodies {rules : RuleSet} {c : CompiledRule} {p : AtomicQuery} (hc : c ∈ rules.rules)
    (hp : p ∈ c.body) : p ∈ rules.bodies :=
  List.mem_flatMap.mpr ⟨c, hc, hp⟩

theorem DecomposedQuery.pattern_eq {t : Transaction} {c : Conjunction} {d : DecomposedQuery} {u u' : Supply}
    (hd : (ofConjunction t c).Gives u d u') : d.pattern = c := by
  unfold ofConjunction at hd
  dsimp only at hd
  split at hd
  · obtain ⟨_, _, hd, -⟩ := Attempt.gives_bind.mp hd
    exact absurd hd Attempt.not_gives_throw
  · obtain ⟨_, _, -, hd⟩ := Attempt.gives_bind.mp hd
    obtain ⟨_, _, -, hd⟩ := Attempt.gives_bind.mp hd
    obtain ⟨rfl, -⟩ := Attempt.gives_pure.mp hd
    rfl

namespace Setting

open Reasoner AnswerStream

variable {s : Setting} {queries : List AtomicQuery} {c : Conjunction} {d : DecomposedQuery}
  {k k' : Knowledge} {t t' t₁ : Supply} {as : List Answer} {e : InferenceError} {b : Binding}

/-- The binding is what a joined binding of what follows for the queries of a pattern binds of the
pattern's user-defined variables. -/
def Concludes (s : Setting) (d : DecomposedQuery) (b : Binding) : Prop :=
  ∃ ρ, Interpretation.Joins s.Entails d.queries .empty ρ ∧ ρ.restrict d.pattern.userVars.contains = b

namespace Coherent

theorem mem_of_mem_bodies (h : s.Coherent queries) {p : AtomicQuery} (hp : p ∈ s.rules.bodies) :
    p ∈ queries := by
  obtain ⟨r, hr, hp⟩ := List.mem_flatMap.mp hp
  exact h.bodies r hr p hp

/-- Fewer queries are coherent if they still have the bodies of the rules among them. -/
theorem subset {queries' : List AtomicQuery} (h : s.Coherent queries) (hsub : ∀ q ∈ queries', q ∈ queries)
    (hbodies : ∀ p ∈ s.rules.bodies, p ∈ queries') : s.Coherent queries' :=
  ⟨h.reachable, h.built, fun _ hc _ hp => hbodies _ (RuleSet.mem_bodies hc hp),
    fun q hq => h.made q (hsub q hq), fun q hq r hr => h.texts q (hsub q hq) r (hsub r hr),
    fun q hq r hr => h.unifiers q (hsub q hq) r (hsub r hr)⟩

variable (h : s.Coherent queries) (hd : (ofConjunction s.transaction c).Gives t d t₁)
  (hqueries : ∀ q ∈ d.queries, q ∈ queries) (hk : s.Trusts queries k t₁.vars)

include h hd hqueries hk

/-- Every answer to a pattern is a conclusion, whatever was known before. -/
theorem concludes_of_gives_resolve (hresolve : (resolve s c).Gives k t as k' t') :
    s.Trusts queries k' t'.vars ∧ ∀ a ∈ as, s.Concludes d a.binding := by
  obtain ⟨hk', -, hjoins, -⟩ := joins_of_gives_resolve (K := s.Trusts queries) (L := fun _ _ => False)
    (U := s.Entails) hd (fun q hq k t as k' t' hk hdrain => by
      obtain ⟨hk', has⟩ := h.entails_of_gives_drain (isAmong_of_mem (hqueries q hq)) hk hdrain
      exact ⟨hk', fun _ h => h.elim, has⟩) hresolve hk
  refine ⟨hk', fun a ha => ?_⟩
  rw [Concludes, DecomposedQuery.pattern_eq hd]
  exact hjoins a ha

/-- A pattern that cannot be answered leaves trusted knowledge too. -/
theorem trusts_of_fails_resolve (hresolve : (resolve s c).Fails k t e k' t') :
    s.Trusts queries k' t'.vars := by
  rw [resolve_eq] at hresolve
  refine (confined_of_fails_resolveWith (K := s.Trusts queries) (E := fun _ => True) hd
    (fun q hq k t as k' t' hk hdrain => ?_) (fun q hq k t e k' t' hk hdrain => ?_) hk hresolve).1
  · exact (h.entails_of_gives_drain (isAmong_of_mem (hqueries q hq)) hk hdrain).1
  · exact h.confined.drain h.invariant (isAmong_of_mem (hqueries q hq)) hk hdrain

/-- If no stream comes to a bound, then all conclusions are among the answers. -/
theorem concludes_iff_of_gives_resolveFreely (hresolve : (resolveFreely s c).Gives k t as k' t') :
    (∃ a ∈ as, a.binding = b) ↔ s.Concludes d b := by
  obtain ⟨-, -, hup, hdown⟩ := joins_of_gives_resolveWith (K := s.Trusts queries) (L := s.Entails)
    (U := s.Entails) hd (fun q hq k t as k' t' hk hdrain => by
      have hamong : q.IsAmong queries := isAmong_of_mem (hqueries q hq)
      have hiff {b : Binding} : (∃ a ∈ as, a.binding = b) ↔ s.Entails q b :=
        h.entails_iff_of_gives_drainFreely hamong hk hdrain
      exact ⟨(h.entails_of_gives_drain hamong hk (gives_drain_of_freely hdrain)).1,
        fun b hb => hiff.mpr hb, fun a ha => hiff.mp ⟨a, ha, rfl⟩⟩) hresolve hk
  rw [Concludes, DecomposedQuery.pattern_eq hd]
  constructor
  · rintro ⟨a, ha, rfl⟩
    exact hup a ha
  · rintro ⟨ρ, hρ, rfl⟩
    exact hdown ρ hρ

/-- On an open transaction a pattern whose queries can be looked up is answered with its conclusions, if no
stream comes to a bound. -/
theorem exists_resolve_of_unhindered (hopen : s.transaction.isOpen = true)
    (hsearchable : ∀ q ∈ d.queries ++ s.rules.bodies, q.Searchable) (hfree : Unhindered s c k t) :
    ∃ as k' t', (resolve s c).Gives k t as k' t' ∧ ∀ b, (∃ a ∈ as, a.binding = b) ↔ s.Concludes d b := by
  rcases gives_or_fails (resolveFreely s c) k t with ⟨as, k', t', hgives⟩ | ⟨e, k', t', hfails⟩
  · exact ⟨as, k', t', gives_resolve_of_freely hgives, fun b =>
      h.concludes_iff_of_gives_resolveFreely hd hqueries hk hgives⟩
  · have hsub : ∀ q ∈ d.queries ++ s.rules.bodies, q ∈ queries := fun q hq =>
      (List.mem_append.mp hq).elim (hqueries q) h.mem_of_mem_bodies
    have hconfined := h.confined_of_searchable (E := fun e => ∃ st, e = AnswerStream.hindered st) hopen hsub
      hsearchable
    have hinv : Invariant s (IsAmong (d.queries ++ s.rules.bodies)) (s.Trusts queries)
        (fun q => ∀ b, ¬ s.Found q b) fun _ => s.Entails :=
      h.invariant.restrict (fun q ⟨p, hp, hqp⟩ => ⟨p, hsub p hp, hqp⟩) fun _ hr p hp i =>
        (isAmong_of_mem (List.mem_append_right _ (RuleSet.mem_bodies hr hp))).renumber
    have hamong {q : AtomicQuery} (hq : q ∈ d.queries) : q.IsAmong (d.queries ++ s.rules.bodies) :=
      isAmong_of_mem (List.mem_append_left _ hq)
    obtain ⟨-, st, rfl⟩ := confined_of_fails_resolveWith (K := s.Trusts queries)
      (E := fun e => ∃ st, e = AnswerStream.hindered st) hd
      (fun q hq k t as k' t' hk hdrain => (hinv.drain (hamong hq) hk (gives_drain_of_freely hdrain)).1)
      (fun q hq k t e k' t' hk hdrain => hconfined.drainFreely hinv (fun st => ⟨st, rfl⟩) (hamong hq) hk
        hdrain) hk hfails
    exact absurd hfails (hfree st k' t')

end Coherent

end Setting

end GraphInference
