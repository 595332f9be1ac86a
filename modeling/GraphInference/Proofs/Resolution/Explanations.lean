import GraphInference.Proofs.Answer.Explanations
import GraphInference.Proofs.Resolution.Bounds
import GraphInference.Proofs.Resolution.Invariant

/-!
# How answers are explained

Every answer that a stream finds, and every answer that is known, is explained by look-ups and rules for its
query, down to the leaves of the tree. Each piece of work of a stream keeps this of the known answers,
whether it succeeds or fails (`Resolve.Ensures`), and so do all uses of a reasoner one after the other
(`Consultation.Step`): the answers to a pattern are faithfully explained, whatever was asked before
(`Consultation.faithful_answers`).
-/

namespace GraphInference

/-! ## Work that keeps a property of the known answers -/

namespace Resolve

variable {α β : Type} {K : AnswerCache → Prop} {p : α → Prop} {r : β → Prop}

/-- Whether it succeeds or fails, the work keeps `K` of the known answers, and its result has `p`. -/
def Ensures (K : AnswerCache → Prop) (x : Resolve α) (p : α → Prop) : Prop :=
  ∀ k t, K k.known → K ((x.run.run k).run t).1.2.known ∧ ∀ a, ((x.run.run k).run t).1.1 = .ok a → p a

theorem ensures_pure {a : α} (h : p a) : Ensures K (pure a) p :=
  fun _ _ hk => ⟨hk, fun _ hb => Except.ok.inj hb ▸ h⟩

theorem ensures_throw {e : InferenceError} : Ensures K (throw e) p :=
  fun _ _ hk => ⟨hk, fun _ h => nomatch h⟩

theorem Ensures.bind {x : Resolve α} {f : α → Resolve β} (hx : Ensures K x p)
    (hf : ∀ a, p a → Ensures K (f a) r) : Ensures K (x >>= f) r := by
  intro k t hk
  obtain ⟨hk', hp⟩ := hx k t hk
  rw [run_bind]
  generalize (x.run.run k).run t = result at hk' hp
  rcases result with ⟨⟨e | a, l⟩, u⟩
  · exact ⟨hk', fun _ h => nomatch h⟩
  · exact hf a (hp a rfl) l u hk'

theorem Ensures.imp {p' : α → Prop} {x : Resolve α} (hx : Ensures K x p) (himp : ∀ a, p a → p' a) :
    Ensures K x p' :=
  fun k t hk => ⟨(hx k t hk).1, fun a ha => himp a ((hx k t hk).2 a ha)⟩

theorem ensures_lift {x : Fresh α} (h : Fresh.Always x p) : Ensures K (x : Resolve α) p :=
  fun _ t hk => ⟨hk, fun _ ha => Except.ok.inj ha ▸ h t⟩

theorem ensures_liftExcept (x : Except InferenceError α) :
    Ensures K (liftExcept x : Resolve α) fun _ => True := by
  cases x with
  | ok a => exact ensures_pure trivial
  | error e => exact ensures_throw

theorem ensures_mapM {γ : Type} {f : γ → Resolve α} {l : List γ} (h : ∀ c ∈ l, Ensures K (f c) p) :
    Ensures K (l.mapM f) fun as => ∀ a ∈ as, p a := by
  induction l with
  | nil => exact ensures_pure fun _ ha => nomatch ha
  | cons c l ih =>
    obtain ⟨hc, hl⟩ := List.forall_mem_cons.mp h
    rw [List.mapM_cons]
    exact hc.bind fun a ha => (ih hl).bind fun as has => ensures_pure (List.forall_mem_cons.mpr ⟨ha, has⟩)

/-- To plan makes no answers known. -/
theorem ensures_plan (c : Conjunction) : Ensures K (plan c) fun _ => True :=
  fun _ _ hk => ⟨hk, fun _ _ => trivial⟩

variable {J : AtomicQuery → Binding → Explanation → Prop} (hJ : Standard J) {q : AtomicQuery}

include hJ

theorem ensures_knownAnswers :
    Ensures (·.Explained J) (knownAnswers q) fun as => ∀ a ∈ as, a.Explained (J q) := by
  intro k t hk
  refine ⟨hk, fun as has => ?_⟩
  obtain rfl : (k.known.get? q).getD [] = as := Except.ok.inj has
  cases hget : k.known.get? q with
  | none => exact fun _ ha => nomatch ha
  | some as => exact hk.get? hJ hget

theorem ensures_record {as : List Answer} (has : ∀ a ∈ as, a.Explained (J q)) :
    Ensures (·.Explained J) (record q as) fun _ => True :=
  fun _ _ hk => ⟨hk.record hJ has, fun _ _ => trivial⟩

omit hJ in
/-- What a look-up finds is explained by the look-up. -/
theorem ensures_lookup (s : Setting) (q : AtomicQuery) : Ensures K (lookup s q)
    fun as => ∀ a ∈ as, a.Explained (s.rules.Explains q) := by
  unfold lookup
  dsimp only
  split
  · exact ensures_pure fun _ ha => nomatch ha
  · refine (ensures_plan _).bind fun p _ => (ensures_liftExcept _).bind fun bs _ => ?_
    refine ensures_mapM fun b _ => (ensures_lift fun _ => rfl).bind (p := fun a =>
      a.explanations = [.lookup q.snapshot]) fun a ha => ensures_pure fun e he => ?_
    have he : e ∈ a.explanations := he
    rw [ha, List.mem_singleton] at he
    exact he ▸ s.rules.explains_lookup q _

end Resolve

/-! ## Streams -/

namespace AnswerStream

open Resolve

variable {s : Setting} {rules : RuleSet} {st st' : AnswerStream} {resolve : Resolver}

/-- The answers of the stream are explained, as answers to its query. -/
structure Explained (rules : RuleSet) (st : AnswerStream) : Prop where
  answers : st.answers.Explained (rules.Explains st.query)
  pending : ∀ a ∈ st.pending, a.Explained (rules.Explains st.query)

/-- The resolver gives explained answers and keeps the known answers so. -/
def Accounts (s : Setting) (resolve : Resolver) : Prop :=
  ∀ path q, Ensures (·.Explained s.rules.Explains) (resolve path q)
    fun as => ∀ a ∈ as, a.Explained (s.rules.Explains q)

theorem Explained.emitAll (h : st.Explained rules) {as : List Answer}
    (has : ∀ a ∈ as, a.Explained (rules.Explains st.query)) : (st.emitAll as).Explained rules := by
  induction as generalizing st with
  | nil => exact h
  | cons a as ih =>
    obtain ⟨ha, has⟩ := List.forall_mem_cons.mp has
    have hemit : (st.emit a).Explained rules ∧ (st.emit a).query = st.query := by
      unfold emit
      dsimp only
      split
      · refine ⟨⟨h.answers.insert ha, fun b hb => ?_⟩, rfl⟩
        rcases List.mem_append.mp hb with hb | hb
        · exact h.pending b hb
        · exact List.mem_singleton.mp hb ▸ ha
      · exact ⟨⟨h.answers.insert ha, h.pending⟩, rfl⟩
    exact ih hemit.1 fun b hb => hemit.2 ▸ has b hb

theorem explained_start (q : AtomicQuery) (path : ResolutionPath) :
    ({ query := q, path } : AnswerStream).Explained rules :=
  ⟨fun _ ha => (nomatch ha), fun _ ha => nomatch ha⟩

/-- The rows that are joined have an answer to each query of the body in turn. -/
theorem ensures_joinBody (hresolve : Accounts s resolve) {path : ResolutionPath} {body done : List AtomicQuery}
    {rows : List JoinRow} (hrows : ∀ row ∈ rows, row.Joins s.rules.Explains done) :
    Ensures (·.Explained s.rules.Explains) (joinBody resolve path rows body)
      fun rows => ∀ row ∈ rows, row.Joins s.rules.Explains (done ++ body) := by
  induction body generalizing rows done with
  | nil => exact ensures_pure (done.append_nil.symm ▸ hrows)
  | cons q body ih =>
    unfold joinBody
    refine (ensures_lift fun _ => ⟨_, rfl⟩).bind (p := fun r => ∃ i, r = q.renumber i) ?_
    rintro _ ⟨i, rfl⟩
    refine (hresolve path (q.renumber i)).bind fun as has => ?_
    have has : ∀ a ∈ as, a.Explained (s.rules.Explains q) := fun a ha => (has a ha).imp fun e he =>
      s.rules.standard_explains.equivalent _ _ _ _ AtomicQuery.isEquivalent_renumber he
    dsimp only
    split
    · exact ensures_pure (List.forall_mem_nil _)
    · rw [List.append_cons]
      exact ih (JoinRow.Joins.join hrows has)

/-- What a registered rule derives is explained by the rule. -/
theorem ensures_derive {q : AtomicQuery} {c : CompiledRule} {u : Unifier} {rows : List JoinRow}
    {K : AnswerCache → Prop} (hc : s.rules.get? c.id = some c)
    (hrows : ∀ row ∈ rows, row.Joins s.rules.Explains c.body) :
    Ensures K (derive s q ⟨c.id, c.rule.label⟩ u rows)
      fun as => ∀ a ∈ as, a.Explained (s.rules.Explains q) := by
  refine (ensures_mapM (p := fun o => ∀ a ∈ o, a.Explained (s.rules.Explains q)) fun row hrow => ?_).bind
    fun os hos => ensures_pure fun a ha => ?_
  · dsimp only
    split
    · refine (ensures_liftExcept _).bind fun admitted _ => ?_
      split
      · refine (ensures_lift fun _ => ⟨rfl, rfl⟩).bind (p := fun a =>
          a.binding = pullBack q u row.binding ∧
            a.explanations = [.rule ⟨c.id, c.rule.label⟩ q.snapshot row.answers]) fun a ha => ?_
        refine ensures_pure fun b hb => ?_
        obtain rfl := Option.some.inj hb
        have hexplained : a.Explained (s.rules.Explains q) := by
          intro e he
          rw [ha.2, List.mem_singleton] at he
          subst he
          exact RuleSet.explains_rule hc rfl (hrows row hrow) (ha.1 ▸ .pullBack q u row.binding)
        exact hexplained.project (s.rules.standard_explains.shrinks q) _
      · exact ensures_pure fun _ h => nomatch h
    · exact ensures_pure fun _ h => nomatch h
  · obtain ⟨o, ho, heq⟩ := List.mem_filterMap.mp ha
    exact hos o ho a heq

variable (hrules : s.rules.Built)

include hrules

theorem ensures_applyRule (hresolve : Accounts s resolve) (id : RuleId) (u : Unifier) :
    Ensures (·.Explained s.rules.Explains) (applyRule resolve s st id u)
      fun as => ∀ a ∈ as, a.Explained (s.rules.Explains st.query) := by
  unfold applyRule
  split
  · exact ensures_throw
  · next c hc =>
    have hid : s.rules.get? c.id = some c := by
      rw [RuleSet.get?, hrules.id_eq hc]
      exact hc
    have hstart : ∀ row ∈ [JoinRow.empty], row.Joins s.rules.Explains [] :=
      List.forall_mem_singleton.mpr JoinRow.joins_empty
    exact (ensures_joinBody hresolve hstart).bind fun rows hrows => ensures_derive hid hrows

/-- One step keeps the answers explained, whether it succeeds or fails. -/
theorem ensures_step (hresolve : Accounts s resolve) (hst : st.Explained s.rules) :
    Ensures (·.Explained s.rules.Explains) (step resolve s st)
      fun st' => st'.Explained s.rules ∧ st'.query = st.query := by
  have hstandard := s.rules.standard_explains
  unfold step
  split
  · split
    · refine (ensures_knownAnswers hstandard).bind fun as has => ensures_pure ?_
      have hemit := hst.emitAll has
      exact ⟨⟨hemit.answers, hemit.pending⟩, query_emitAll st as⟩
    · refine (ensures_lookup s st.query).bind fun as has => ?_
      have hemit := hst.emitAll has
      have hquery := query_emitAll st as
      dsimp only
      refine (ensures_record hstandard ?_).bind fun _ _ => ensures_pure ⟨⟨hemit.answers, hemit.pending⟩, hquery⟩
      exact hemit.answers
  · dsimp only
    split <;> exact ensures_pure ⟨⟨hst.answers, hst.pending⟩, rfl⟩
  · split
    · next id u rulesLeft _ =>
      refine (ensures_applyRule hrules hresolve id u).bind fun as has => ?_
      have hrest : ({ st with rulesLeft } : AnswerStream).Explained s.rules := ⟨hst.answers, hst.pending⟩
      have hemit := hrest.emitAll has
      exact (ensures_record hstandard hemit.answers).bind fun _ _ =>
        ensures_pure ⟨hemit, query_emitAll _ as⟩
    · dsimp only
      split <;> exact ensures_pure ⟨⟨hst.answers, hst.pending⟩, rfl⟩
  · exact ensures_pure ⟨hst, rfl⟩

theorem ensures_finishWithin (hresolve : Accounts s resolve) (hst : st.Explained s.rules) (n : Nat) :
    Ensures (·.Explained s.rules.Explains) (finishWithin resolve s n st)
      fun st' => st'.Explained s.rules ∧ st'.query = st.query := by
  induction n generalizing st with
  | zero =>
    rw [finishWithin.eq_def]
    dsimp only
    split
    · exact ensures_pure ⟨hst, rfl⟩
    · split
      · exact ensures_throw
      · exact ensures_pure ⟨hst, rfl⟩
  | succ n ih =>
    rw [finishWithin.eq_def]
    dsimp only
    split
    · exact ensures_pure ⟨hst, rfl⟩
    · split
      · exact ensures_throw
      · exact (ensures_step hrules hresolve hst).bind fun st' hst' =>
          (ih hst'.1).imp fun _ h => ⟨h.1, h.2.trans hst'.2⟩

theorem ensures_drainWith (hresolve : Accounts s resolve) (hst : st.Explained s.rules) :
    Ensures (·.Explained s.rules.Explains) (drainWith resolve s st)
      fun as => ∀ a ∈ as, a.Explained (s.rules.Explains st.query) :=
  (ensures_finishWithin hrules hresolve hst _).bind fun _ ⟨hst', hquery⟩ =>
    ensures_pure fun a ha => hquery ▸ hst'.answers a ha

theorem accounts_resolveWithin (n : Nat) : Accounts s (resolveWithin s n) := by
  induction n with
  | zero =>
    have hnone : Accounts s fun _ _ => pure [] := fun _ _ => ensures_pure fun _ ha => nomatch ha
    exact fun path q => ensures_drainWith hrules hnone (explained_start q path)
  | succ n ih => exact fun path q => ensures_drainWith hrules ih (explained_start q path)

theorem ensures_drain (hst : st.Explained s.rules) : Ensures (·.Explained s.rules.Explains) (st.drain s)
    fun as => ∀ a ∈ as, a.Explained (s.rules.Explains st.query) :=
  ensures_drainWith hrules (accounts_resolveWithin hrules _) hst

/-- A stream that is asked for its next answer keeps the answers explained. -/
theorem explained_next {k k' : Knowledge} {t t' : Supply} {r : Option (Except InferenceError Answer)}
    (hst : st.Explained s.rules) (hk : k.known.Explained s.rules.Explains)
    (h : ((st.next s).run k).run t = (((r, st'), k'), t')) :
    st'.Explained s.rules ∧ k'.known.Explained s.rules.Explains := by
  have hresolve : Accounts s (bodyResolver s st) := accounts_resolveWithin hrules _
  unfold next at h
  generalize bodyResolver s st = resolve at h hresolve
  generalize stepBound s = n at h
  induction n generalizing st k t with
  | zero =>
    rw [nextWithin.eq_def] at h
    dsimp only at h
    split at h
    · next a pending hpending =>
      cases h
      exact ⟨⟨hst.answers, fun b hb => hst.pending b (hpending ▸ .tail _ hb)⟩, hk⟩
    · split at h
      · cases h
        exact ⟨hst, hk⟩
      · split at h <;> cases h
        · exact ⟨⟨hst.answers, hst.pending⟩, hk⟩
        · exact ⟨hst, hk⟩
  | succ n ih =>
    rcases hpending : st.pending with _ | ⟨a, pending⟩
    case cons =>
      rw [nextWithin_of_pending hpending] at h
      cases h
      exact ⟨⟨hst.answers, fun b hb => hst.pending b (hpending ▸ .tail _ hb)⟩, hk⟩
    by_cases hended : st.Ended
    · rw [nextWithin_of_ended hpending hended] at h
      cases h
      exact ⟨hst, hk⟩
    cases hopen : s.transaction.isOpen with
    | false =>
      rw [nextWithin_of_closed hpending hended hopen] at h
      cases h
      exact ⟨⟨hst.answers, hst.pending⟩, hk⟩
    | true =>
      rw [run_nextWithin_succ hpending hended hopen] at h
      obtain ⟨hl, hmid⟩ := ensures_step hrules hresolve hst k t hk
      generalize ((AnswerStream.step resolve s st).run.run k).run t = result at h hl hmid
      rcases result with ⟨⟨e | mid, l⟩, u⟩
      · cases h
        exact ⟨⟨hst.answers, hst.pending⟩, hl⟩
      · exact ih (hmid mid rfl).1 hl h

end AnswerStream

/-! ## Patterns -/

/-- The explanation is faithful and so is the tree below it, and a join has an answer to each of the
queries in turn. -/
def RuleSet.Joins (rules : RuleSet) (queries : List AtomicQuery) (b : Binding) (e : Explanation) : Prop :=
  e.Faithful rules b ∧ (∀ a ∈ e.answers, a.Faithful rules) ∧
    ∀ as, e = .join as → List.Forall₂ Answer.Answers queries as

namespace RuleSet

variable {rules : RuleSet} {queries : List AtomicQuery}

theorem shrinks_joins (rules : RuleSet) (queries : List AtomicQuery) : Shrinks (rules.Joins queries) :=
  fun _ _ _ hc ⟨hfaithful, hbelow, hjoin⟩ => ⟨hfaithful.within hc, hbelow, hjoin⟩

theorem explained_joins_iff {a : Answer} : a.Explained (rules.Joins queries) ↔
    a.Faithful rules ∧ ∀ as, .join as ∈ a.explanations → List.Forall₂ Answer.Answers queries as := by
  rw [Answer.faithful_iff]
  constructor
  · exact fun h => ⟨fun e he => ⟨(h e he).1, (h e he).2.1⟩, fun as has => (h _ has).2.2 as rfl⟩
  · exact fun h e he => ⟨(h.1 e he).1, (h.1 e he).2, fun as has => h.2 as (has ▸ he)⟩

/-- What explains an answer to a query is no join. -/
theorem Explains.joins {q : AtomicQuery} {b : Binding} {e : Explanation} (h : rules.Explains q b e) :
    rules.Joins queries b e := by
  obtain ⟨⟨r, -, hquery⟩, hfaithful, hbelow⟩ := h
  refine ⟨hfaithful, hbelow, ?_⟩
  rintro as rfl
  cases hquery

theorem joins_join {row : JoinRow} (h : row.Joins rules.Explains queries) :
    rules.Joins queries row.binding (.join row.answers) := by
  refine ⟨.join (h.supports fun v i hi => ⟨v, hi⟩), fun a ha => ?_, ?_⟩
  · obtain ⟨_, -, ha⟩ := exists_of_forall₂_of_mem h.answers.flip ha
    exact (explained_explains_iff.mp ha).2
  · rintro as ⟨⟩
    exact h.answers.imp fun _ _ ha => (explained_explains_iff.mp ha).1

end RuleSet

namespace Reasoner

open AnswerStream Decomposition Resolve

variable {s : Setting} {c : Conjunction} (hrules : s.rules.Built)

include hrules

theorem ensures_joinAll {queries done : List AtomicQuery} {rows : List JoinRow}
    (hrows : ∀ row ∈ rows, row.Joins s.rules.Explains done) :
    Ensures (·.Explained s.rules.Explains) (joinAll s rows queries)
      fun rows => ∀ row ∈ rows, row.Joins s.rules.Explains (done ++ queries) := by
  induction queries generalizing rows done with
  | nil => exact ensures_pure (done.append_nil.symm ▸ hrows)
  | cons q queries ih =>
    unfold joinAll
    refine (ensures_drain hrules (explained_start q [])).bind fun as has => ?_
    dsimp only
    split
    · exact ensures_pure (List.forall_mem_nil _)
    · rw [List.append_cons]
      exact ih (JoinRow.Joins.join hrows has)

/-- The answers of a decomposed pattern: those to its one query, or the joins of those to several. -/
theorem ensures_answers (d : DecomposedQuery) (vars : List Var) :
    Ensures (·.Explained s.rules.Explains) (do
        let answers ← match d.queries with
          | [q] => (stream q).drain s
          | queries => do
            let rows ← joinAll s [.empty] queries
            rows.mapM fun row => (Answer.make row.binding (.join row.answers) : Fresh _)
        return (AnswerSet.ofList (answers.map (·.project vars))).answers)
      fun as => ∀ a ∈ as, a.Explained (s.rules.Joins d.queries) := by
  have hproject {as : List Answer} (has : ∀ a ∈ as, a.Explained (s.rules.Joins d.queries)) :
      (AnswerSet.ofList (as.map (·.project vars))).Explained (s.rules.Joins d.queries) :=
    AnswerSet.explained_ofList <| List.forall_mem_map.mpr fun a ha =>
      (has a ha).project (s.rules.shrinks_joins d.queries) vars
  dsimp only
  split
  · next q hqueries =>
    refine (ensures_drain hrules (explained_start q [])).bind fun as has => ensures_pure ?_
    exact hproject fun a ha => (has a ha).imp fun _ he => he.joins
  · have hstart : ∀ row ∈ [JoinRow.empty], row.Joins s.rules.Explains [] :=
      List.forall_mem_singleton.mpr JoinRow.joins_empty
    refine (ensures_joinAll hrules hstart).bind fun rows hrows => ?_
    refine (ensures_mapM (p := (·.Explained (s.rules.Joins d.queries))) fun row hrow => ?_).bind
      fun as has => ensures_pure (hproject has)
    refine ensures_lift fun _ e he => ?_
    cases List.mem_singleton.mp he
    exact RuleSet.joins_join (hrows row hrow)

/-- Resolving a pattern keeps the known answers explained, and every answer that it gives is explained. -/
theorem explained_resolve {k k' : Knowledge} {t t' : Supply} {r : Except InferenceError (List Answer)}
    (hk : k.known.Explained s.rules.Explains)
    (h : ((resolve s c).run.run k).run t = ((r, k'), t')) :
    k'.known.Explained s.rules.Explains ∧ ∀ as, r = .ok as →
      ∃ d t₁, (ofConjunction s.transaction c).Gives t d t₁ ∧
        ∀ a ∈ as, a.Explained (s.rules.Joins d.queries) := by
  unfold resolve at h
  rw [run_bind] at h
  have hrun : ((ofAttempt (ofConjunction s.transaction c)).run.run k).run t =
      ((((ofConjunction s.transaction c).run t).1, k), ((ofConjunction s.transaction c).run t).2) := rfl
  rw [hrun] at h
  rcases hd : (ofConjunction s.transaction c).run t with ⟨e | d, t₁⟩
  · rw [hd] at h
    cases h
    exact ⟨hk, fun _ h => nomatch h⟩
  · rw [hd] at h
    obtain ⟨hk', has⟩ := ensures_answers hrules d c.userVars.toList k t₁ hk
    exact ⟨congrArg (·.1.2.known) h ▸ hk', fun as hr =>
      ⟨d, t₁, hd, has as ((congrArg (·.1.1) h).trans hr)⟩⟩

omit hrules in
theorem run_perform {α : Type} (r : Reasoner) (w : Work α) (t : Supply) : (r.perform w).run t =
    ((((w.run r.knowledge).run t).1.1, { r with knowledge := ((w.run r.knowledge).run t).1.2 }),
      ((w.run r.knowledge).run t).2) :=
  rfl

end Reasoner

/-! ## Reasoners in use -/

/-- A reasoner in use, with the streams that are open on it, in every state they were in. -/
structure Consultation where
  reasoner : Reasoner
  streams : List AnswerStream := []

namespace Consultation

open Reasoner

/-- One use of a reasoner, on the transaction as it is then. It may end in an error as well. -/
inductive Step (σ : Consultation) : Consultation → Prop where
  /-- A rule is added; no stream outlasts this. -/
  | addRule {tx : Transaction} {rule : Rule} {id : RuleId} {r : Reasoner} {t t' : Supply}
    (h : (σ.reasoner.addRule tx rule).Gives t (id, r) t') : Step σ ⟨r, []⟩
  /-- A pattern is planned. -/
  | plan {c : Conjunction} {p : Except InferenceError Program} {r : Reasoner} {t t' : Supply}
    (h : (σ.reasoner.perform (Reasoner.plan c).run).run t = ((p, r), t')) : Step σ ⟨r, σ.streams⟩
  /-- A pattern is resolved. -/
  | resolve {tx : Transaction} {c : Conjunction} {as : Except InferenceError (List Answer)} {r : Reasoner}
    {t t' : Supply}
    (h : (σ.reasoner.perform (Reasoner.resolve (σ.reasoner.setting tx) c).run).run t = ((as, r), t')) :
    Step σ ⟨r, σ.streams⟩
  /-- A stream is opened. -/
  | stream (q : AtomicQuery) : Step σ ⟨σ.reasoner, Reasoner.stream q :: σ.streams⟩
  /-- A stream is asked for its next answer. -/
  | next {tx : Transaction} {st st' : AnswerStream} {a : Option (Except InferenceError Answer)}
    {r : Reasoner} {t t' : Supply} (hst : st ∈ σ.streams)
    (h : (σ.reasoner.perform (st.next (σ.reasoner.setting tx))).run t = (((a, st'), r), t')) :
    Step σ ⟨r, st' :: σ.streams⟩
  /-- A stream is asked for all its answers. -/
  | drain {tx : Transaction} {st : AnswerStream} {as : Except InferenceError (List Answer)} {r : Reasoner}
    {t t' : Supply} (hst : st ∈ σ.streams)
    (h : (σ.reasoner.perform (st.drain (σ.reasoner.setting tx)).run).run t = ((as, r), t')) :
    Step σ ⟨r, σ.streams⟩

/-- The reasoner was made and has been in use. -/
def Reached (σ : Consultation) : Prop :=
  ∃ config r, Reasoner.make config = .ok r ∧ Relation.ReflTransGen Step ⟨r, []⟩ σ

/-- The rules are numbered, and all answers that are known or that streams have found are explained. -/
structure Explained (σ : Consultation) : Prop where
  built : σ.reasoner.rules.Built
  known : σ.reasoner.knowledge.known.Explained σ.reasoner.rules.Explains
  streams : ∀ st ∈ σ.streams, st.Explained σ.reasoner.rules

theorem Step.explained {σ σ' : Consultation} (h : Step σ σ') (hσ : σ.Explained) : σ'.Explained := by
  obtain ⟨hbuilt, hknown, hstreams⟩ := hσ
  cases h with
  | addRule h =>
    obtain ⟨⟨id, rules⟩, u, hadd, h⟩ := Attempt.gives_bind.mp h
    obtain ⟨heq, rfl⟩ := Attempt.gives_pure.mp h
    obtain ⟨rfl, rfl⟩ := Prod.mk.inj heq
    exact ⟨.add hbuilt hadd, fun _ he => (nomatch he), fun _ hst => nomatch hst⟩
  | plan h =>
    rw [run_perform] at h
    cases h
    exact ⟨hbuilt, hknown, hstreams⟩
  | resolve h =>
    rw [run_perform] at h
    cases h
    exact ⟨hbuilt, (explained_resolve hbuilt hknown rfl).1, hstreams⟩
  | stream q =>
    exact ⟨hbuilt, hknown, List.forall_mem_cons.mpr ⟨AnswerStream.explained_start q [], hstreams⟩⟩
  | @next tx st st' a r t t' hst h =>
    rw [run_perform] at h
    rcases hnext : ((st.next (σ.reasoner.setting tx)).run σ.reasoner.knowledge).run t with ⟨⟨⟨b, st₁⟩, k⟩, u⟩
    obtain ⟨hst', hknown'⟩ := AnswerStream.explained_next hbuilt (hstreams st hst) hknown hnext
    rw [hnext] at h
    cases h
    exact ⟨hbuilt, hknown', List.forall_mem_cons.mpr ⟨hst', hstreams⟩⟩
  | drain hst h =>
    rw [run_perform] at h
    cases h
    exact ⟨hbuilt, (AnswerStream.ensures_drain hbuilt (hstreams _ hst) _ _ hknown).1, hstreams⟩

theorem Reached.explained {σ : Consultation} (h : σ.Reached) : σ.Explained := by
  obtain ⟨config, r, hmake, hsteps⟩ := h
  induction hsteps with
  | refl =>
    obtain ⟨_, -, h⟩ := Except.bind_eq_ok.mp hmake
    obtain rfl := Except.ok.inj h
    exact ⟨.empty, fun _ he => (nomatch he), fun _ hst => nomatch hst⟩
  | tail _ hstep ih => exact hstep.explained ih

/-- Whatever a reasoner was used for before, the answers that it gives to a pattern, and those that a
stream ends with, are faithfully explained throughout their trees. A join that explains an answer to a
pattern has an answer to each atomic query of the pattern. -/
theorem faithful_answers {σ : Consultation} (hσ : σ.Reached) (tx : Transaction) {k : Knowledge}
    {t t' : Supply} {as : List Answer} :
    (∀ c, (resolve (σ.reasoner.setting tx) c).Gives σ.reasoner.knowledge t as k t' →
      ∃ d t₁, (Decomposition.ofConjunction tx c).Gives t d t₁ ∧ ∀ a ∈ as, a.Faithful σ.reasoner.rules ∧
        ∀ bs, .join bs ∈ a.explanations → List.Forall₂ Answer.Answers d.queries bs) ∧
    ∀ st, (st ∈ σ.streams ∨ ∃ q, st = stream q) →
      (st.drain (σ.reasoner.setting tx)).Gives σ.reasoner.knowledge t as k t' →
        ∀ a ∈ as, a.Answers st.query ∧ a.Faithful σ.reasoner.rules := by
  obtain ⟨hbuilt, hknown, hstreams⟩ := hσ.explained
  refine ⟨fun c h => ?_, fun st hst h a ha => ?_⟩
  · obtain ⟨-, hanswers⟩ := explained_resolve hbuilt hknown h
    obtain ⟨d, t₁, hd, has⟩ := hanswers as rfl
    exact ⟨d, t₁, hd, fun a ha => RuleSet.explained_joins_iff.mp (has a ha)⟩
  · have hexplained : st.Explained σ.reasoner.rules := by
      rcases hst with hst | ⟨q, rfl⟩
      · exact hstreams st hst
      · exact AnswerStream.explained_start q []
    obtain ⟨-, has⟩ := AnswerStream.ensures_drain (s := σ.reasoner.setting tx) hbuilt hexplained _ t hknown
    exact RuleSet.explained_explains_iff.mp (has as (congrArg (·.1.1) h) a ha)

end Consultation

/-! ## A grandparent -/

namespace Grandparent

open Consultation Reasoner

/-- Three persons, the first one a parent of the second and the second one of the third. -/
def transaction : Transaction where
  name := ""
  graph := [.entityType ⟨"person"⟩, .relationType ⟨"parentOf"⟩ [⟨"parent"⟩, ⟨"child"⟩],
    .relationType ⟨"ancestorOf"⟩ [⟨"ancestor"⟩, ⟨"descendant"⟩], .entity ⟨"person"⟩, .entity ⟨"person"⟩,
    .entity ⟨"person"⟩, .relation ⟨"parentOf"⟩ [(⟨"parent"⟩, ⟨"V8"⟩), (⟨"child"⟩, ⟨"V9"⟩)],
    .relation ⟨"parentOf"⟩ [(⟨"parent"⟩, ⟨"V9"⟩), (⟨"child"⟩, ⟨"V10"⟩)]].foldl Graph.perform {}

/-- `(r₁: $x₁, r₂: $x₂) isa type;`, about the variable that is generated as the `n`-th one. -/
def related (n : Nat) (type r₁ x₁ r₂ x₂ : String) : Statement :=
  ⟨.generated n, [.relation [⟨some ⟨r₁⟩, .named x₁⟩, ⟨some ⟨r₂⟩, .named x₂⟩], .isa (.label ⟨type⟩)]⟩

/-- A parent of a parent is an ancestor. -/
def rule : Rule where
  label := "grandparent"
  body := ⟨[related 0 "parentOf" "parent" "p" "child" "c", related 1 "parentOf" "parent" "gp" "child" "p"]⟩
  head := ⟨[related 2 "ancestorOf" "ancestor" "gp" "descendant" "c"]⟩

/-- `(ancestor: $x, descendant: $y) isa ancestorOf;` -/
def pattern : Conjunction :=
  ⟨[related 3 "ancestorOf" "ancestor" "x" "descendant" "y"]⟩

def untaught : Reasoner :=
  ⟨{}, {}, { programs := .ofCapacity ({} : Config).planCacheCapacity }⟩

/-- The reasoner with the rule. -/
def reasoner : Reasoner :=
  ((untaught.addRule transaction rule).resultOr { vars := 4 } (default, untaught)).2

/-- The rule's name and the number of answers that it derives from, for every answer to the pattern. -/
def found : List (Option String × Nat) :=
  ((resolve (reasoner.setting transaction) pattern).resultOr reasoner.knowledge { vars := 20 } []).map fun a =>
    (a.explanation.rule?.map RuleRef.label, a.explanation.answers.length)

/-- The ancestor is explained by the rule and the two parents. -/
theorem faithful_answers_ancestor : ∃ as k t',
    (resolve (reasoner.setting transaction) pattern).Gives reasoner.knowledge { vars := 20 } as k t' ∧
      as.map (fun a => (a.explanation.rule?.map RuleRef.label, a.explanation.answers.length)) =
        [(some "grandparent", 2)] ∧ ∀ a ∈ as, a.Faithful reasoner.rules := by
  obtain ⟨hrule, hok, hfound⟩ :
      ((untaught.addRule transaction rule).run { vars := 4 }).1.isOk = true ∧
      (((resolve (reasoner.setting transaction) pattern).run.run reasoner.knowledge).run
        { vars := 20 }).1.1.isOk = true ∧ found = [(some "grandparent", 2)] := by
    decide +kernel
  have hadd : (untaught.addRule transaction rule).Gives { vars := 4 } _ _ :=
    Attempt.gives_resultOr hrule (default, untaught)
  have hreached : Reached ⟨reasoner, []⟩ := ⟨{}, untaught, rfl, .single (.addRule hadd)⟩
  have hgives := Resolve.gives_resultOr hok []
  obtain ⟨_, _, -, has⟩ := (faithful_answers hreached transaction).1 pattern hgives
  exact ⟨_, _, _, hgives, hfound, fun a ha => (has a ha).1⟩

end Grandparent

end GraphInference
