import GraphInference.Proofs.Resolution.Bounds
import GraphInference.Proofs.Resolution.Consequence
import GraphInference.Proofs.Resolution.Joint

/-!
# What holds throughout a resolution

What look-ups and records keep of the knowledge is kept by every resolution, and a property of answers
that look-ups, known answers and the rules respect is one of all answers (`AnswerStream.Invariant`).
The induction over steps, rounds and nested streams is done here once.
-/

namespace GraphInference

open Resolve

variable {s : Setting} {k k' : Knowledge} {t t' : Supply}

namespace AnswerStream

/-- Rules may be applied to the query: reasoning is on, and in a closed world nothing is found. -/
def Unanswered (s : Setting) (N : AtomicQuery → Prop) (q : AtomicQuery) : Prop :=
  s.config.reasoningEnabled = true ∧ (s.config.lookupPolicy = .closedWorld → N q)

/-- Properties that resolution keeps: `K` of the knowledge, `N` of the queries for which look-ups find
nothing, `P` of the answers to some queries. -/
structure Invariant (s : Setting) (involved : AtomicQuery → Prop) (K : Knowledge → Nat → Prop)
    (N : AtomicQuery → Prop) (P : ResolutionPath → Interpretation) : Prop where
  body : ∀ {q id u r}, involved q → (id, u) ∈ s.rules.applicable q.central →
    s.rules.get? id = some r → ∀ p ∈ r.body, ∀ i, involved (p.renumber i)
  lookup : ∀ {path q k t as k' t'}, involved q → K k t.vars → (lookup s q).Gives k t as k' t' →
    K k' t'.vars ∧ (as = [] → N q) ∧ ∀ a ∈ as, P path q a.binding
  known : ∀ {path q k n b}, involved q → K k n → ({ query := q, path } : AnswerStream).Cut s →
    k.known.Serves q b → P path q b
  record : ∀ {path q k n as}, involved q → K k n → (∀ a ∈ as, P path q a.binding) →
    K { k with known := (k.known.record q as).2 } n
  rule : ∀ {path q id u r ρ b}, involved q → Unanswered s N q →
    (id, u) ∈ s.rules.applicable q.central → s.rules.get? id = some r →
    Interpretation.Joins (fun p c => ∃ i, P (q :: path) (p.renumber i) c) r.body .empty ρ →
    s.Yields q u ρ b → P path q b

variable {involved : AtomicQuery → Prop} {K : Knowledge → Nat → Prop} {N : AtomicQuery → Prop}
  {P : ResolutionPath → Interpretation} {resolve : Resolver} {st st' : AnswerStream}

/-- A resolver that keeps the property. -/
def Maintains (involved : AtomicQuery → Prop) (K : Knowledge → Nat → Prop)
    (P : ResolutionPath → Interpretation) (resolve : Resolver) : Prop :=
  ∀ {path q k t as k' t'}, involved q → K k t.vars → (resolve path q).Gives k t as k' t' →
    K k' t'.vars ∧ ∀ a ∈ as, P path q a.binding

/-- What is true of a stream, whatever its stage. -/
structure Upholds (s : Setting) (involved : AtomicQuery → Prop) (N : AtomicQuery → Prop)
    (P : ResolutionPath → Interpretation) (st : AnswerStream) : Prop where
  involved : involved st.query
  answers : ∀ b, st.answers.Has b → P st.path st.query b
  lookedUp : st.stage = .lookupAttempted → st.answers.answers = [] → N st.query
  unanswered : st.stage = .needsRuleExpansion → Unanswered s N st.query
  rules : ∀ e ∈ st.rules, e ∈ s.rules.applicable st.query.central
  rulesLeft : ∀ e ∈ st.rulesLeft, e ∈ s.rules.applicable st.query.central

/-- Fewer queries may be involved if the queries of the rules' bodies are. -/
theorem Invariant.restrict {involved' : AtomicQuery → Prop} (hinv : Invariant s involved K N P)
    (hle : ∀ q, involved' q → involved q)
    (hbody : ∀ r ∈ s.rules.rules, ∀ p ∈ r.body, ∀ i, involved' (p.renumber i)) :
    Invariant s involved' K N P where
  body := fun _ _ hr => hbody _ (List.mem_of_getElem? hr)
  lookup := fun hq => hinv.lookup (hle _ hq)
  known := fun hq => hinv.known (hle _ hq)
  record := fun hq => hinv.record (hle _ hq)
  rule := fun hq => hinv.rule (hle _ hq)

theorem Upholds.mono {involved' : AtomicQuery → Prop} (h : st.Upholds s involved N P)
    (hle : ∀ q, involved q → involved' q) : st.Upholds s involved' N P :=
  ⟨hle _ h.involved, h.answers, h.lookedUp, h.unanswered, h.rules, h.rulesLeft⟩

theorem has_emitAll {as : List Answer} {b : Binding} :
    (st.emitAll as).answers.Has b ↔ st.answers.Has b ∨ ∃ a ∈ as, a.binding = b := by
  rw [answers_emitAll, AnswerSet.has_foldl_insert]

/-- Emitting nothing new into a set without answers is emitting nothing. -/
theorem eq_nil_of_answers_emitAll {as : List Answer} (h : (st.emitAll as).answers.answers = []) :
    st.answers.answers = [] ∧ as = [] := by
  have hnone {b : Binding} : ¬ (st.emitAll as).answers.Has b := fun ⟨a, ha, _⟩ => by
    rw [h] at ha
    cases ha
  refine ⟨List.eq_nil_iff_forall_not_mem.mpr fun a ha => ?_, List.eq_nil_iff_forall_not_mem.mpr fun a ha => ?_⟩
  · exact hnone (has_emitAll.mpr (.inl ⟨a, ha, rfl⟩))
  · exact hnone (has_emitAll.mpr (.inr ⟨a, ha, rfl⟩))

theorem Upholds.emitAll (h : st.Upholds s involved N P) {as : List Answer}
    (has : ∀ a ∈ as, P st.path st.query a.binding) : (st.emitAll as).Upholds s involved N P := by
  refine ⟨by simpa using h.involved, fun b hb => ?_, fun hstage hnone => ?_, by simpa using h.unanswered,
    by simpa using h.rules, by simpa using h.rulesLeft⟩
  · rw [path_emitAll, query_emitAll]
    rcases has_emitAll.mp hb with hb | ⟨a, ha, rfl⟩
    · exact h.answers b hb
    · exact has a ha
  · rw [query_emitAll]
    exact h.lookedUp (stage_emitAll st as ▸ hstage) (eq_nil_of_answers_emitAll hnone).1

/-- A stream that is opened for an involved query. -/
theorem Upholds.start {path : ResolutionPath} {q : AtomicQuery} (hq : involved q) :
    ({ query := q, path } : AnswerStream).Upholds s involved N P :=
  ⟨hq, fun _ ⟨_, ha, _⟩ => (nomatch ha), nofun, nofun, fun _ he => (nomatch he), fun _ he => nomatch he⟩

/-- The answers of a stream are recorded for its query. -/
theorem Invariant.record_answers (hinv : Invariant s involved K N P) (h : st.Upholds s involved N P)
    {n : Nat} (hk : K k n) : K { k with known := (k.known.record st.query st.answers.answers).2 } n :=
  hinv.record h.involved hk fun a ha => h.answers a.binding ⟨a, ha, rfl⟩

theorem Invariant.applyRule (hinv : Invariant s involved K N P) (hresolve : Maintains involved K P resolve)
    (hq : involved st.query) (hunanswered : Unanswered s N st.query) {id : RuleId} {u : Unifier}
    (hu : (id, u) ∈ s.rules.applicable st.query.central) (hk : K k t.vars) {as : List Answer}
    (h : (applyRule resolve s st id u).Gives k t as k' t') :
    K k' t'.vars ∧ ∀ a ∈ as, P st.path st.query a.binding := by
  unfold AnswerStream.applyRule at h
  split at h
  · exact absurd h not_gives_throw
  · next r hr =>
    obtain ⟨rows, k₁, t₁, hjoin, hderive⟩ := gives_bind.mp h
    obtain ⟨hk₁, hrows, -⟩ := joins_of_gives_joinBody (K := K) (L := fun _ _ => False)
      (U := fun p c => ∃ i, P (st.query :: st.path) (p.renumber i) c)
      (fun p hp i k t as k' t' hk hgives => by
        obtain ⟨hk', has⟩ := hresolve (hinv.body hq hu hr p hp i) hk hgives
        exact ⟨hk', fun _ h => h.elim, fun a ha => ⟨i, has a ha⟩⟩) hjoin hk
    obtain ⟨rfl, hvars, hyields⟩ := yields_of_gives_derive hderive
    refine ⟨hvars ▸ hk₁, fun a ha => ?_⟩
    obtain ⟨row, hrow, hyield⟩ := (hyields a.binding).mp ⟨a, ha, rfl⟩
    obtain ⟨old, hold, hjoins⟩ := hrows row hrow
    obtain rfl := List.mem_singleton.mp hold
    exact hinv.rule hq hunanswered hu hr hjoins hyield

/-- One step keeps what holds of the knowledge and of the stream. -/
theorem Invariant.step (hinv : Invariant s involved K N P) (hresolve : Maintains involved K P resolve)
    (h : st.Upholds s involved N P) (hk : K k t.vars) (hstep : Steps resolve s st k t st' k' t') :
    st'.Upholds s involved N P ∧ K k' t'.vars := by
  cases hstep with
  | cut hstage hcut =>
    have hemit : (st.emitAll ((k.known.get? st.query).getD [])).Upholds s involved N P := h.emitAll fun a ha =>
      hinv.known h.involved hk ((cut_iff_of_eq rfl rfl).mpr hcut) <| by
        cases hget : k.known.get? st.query with
        | none => rw [hget] at ha; cases ha
        | some as => exact ⟨as, hget, a, by rwa [hget] at ha, rfl⟩
    exact ⟨⟨hemit.involved, hemit.answers, nofun, nofun, hemit.rules, hemit.rulesLeft⟩, hk⟩
  | lookedUp hstage hcut hlookup =>
    obtain ⟨hk', hnone, has⟩ := hinv.lookup h.involved hk hlookup
    have hemit := h.emitAll has
    refine ⟨⟨hemit.involved, hemit.answers, fun _ hempty => ?_, nofun, hemit.rules, hemit.rulesLeft⟩,
      hinv.record_answers hemit hk'⟩
    rw [query_emitAll]
    exact hnone (eq_nil_of_answers_emitAll hempty).2
  | unruled => exact ⟨⟨h.involved, h.answers, nofun, nofun, h.rules, h.rulesLeft⟩, hk⟩
  | ruled hstage hreasoning hunanswered =>
    exact ⟨⟨h.involved, h.answers, nofun, fun _ => ⟨hreasoning, fun hclosed =>
      h.lookedUp hstage (hunanswered hclosed)⟩, fun _ he => he, fun _ he => he⟩, hk⟩
  | @applied hstage id u rulesLeft hleft as l v happly =>
    have hleft' := h.rulesLeft
    rw [hleft, List.forall_mem_cons] at hleft'
    obtain ⟨hk', has⟩ := hinv.applyRule hresolve h.involved (h.unanswered hstage) hleft'.1 hk happly
    have hrest : ({ st with rulesLeft } : AnswerStream).Upholds s involved N P :=
      ⟨h.involved, h.answers, h.lookedUp, h.unanswered, h.rules, hleft'.2⟩
    have hrest := hrest.emitAll has
    exact ⟨hrest, hinv.record_answers hrest hk'⟩
  | repeated => exact ⟨⟨h.involved, h.answers, h.lookedUp, h.unanswered, h.rules, h.rules⟩, hk⟩
  | finished => exact ⟨⟨h.involved, h.answers, nofun, nofun, h.rules, h.rulesLeft⟩, hk⟩
  | ended => exact ⟨h, hk⟩

/-- What every step keeps, a stream has when it is finished. -/
theorem finishWithin_induction {p : AnswerStream → Knowledge → Supply → Prop}
    (hstep : ∀ {st k t st' k' t'}, Steps resolve s st k t st' k' t' → p st k t → p st' k' t') {n : Nat}
    (h : (finishWithin resolve s n st).Gives k t st' k' t') (hp : p st k t) : p st' k' t' := by
  induction n generalizing st k t with
  | zero =>
    rw [finishWithin.eq_def] at h
    dsimp only at h
    split at h
    · obtain ⟨rfl, rfl, rfl⟩ := gives_pure.mp h
      exact hp
    · split at h
      · exact absurd h not_gives_throw
      · obtain ⟨rfl, rfl, rfl⟩ := gives_pure.mp h
        exact hp
  | succ n ih =>
    by_cases hended : st.Ended
    · rw [finishWithin_of_ended hended] at h
      obtain ⟨rfl, rfl, rfl⟩ := gives_pure.mp h
      exact hp
    cases hopen : s.transaction.isOpen with
    | false =>
      rw [finishWithin_of_closed hended hopen] at h
      exact absurd h not_gives_throw
    | true =>
      rw [finishWithin_succ hended hopen] at h
      obtain ⟨mid, k₁, t₁, hmid, h⟩ := gives_bind.mp h
      exact ih h (hstep (steps_of_gives hmid) hp)

theorem Invariant.drainWith (hinv : Invariant s involved K N P)
    (hresolve : Maintains involved K P resolve) :
    Maintains involved K P fun path q => drainWith resolve s { query := q, path } := by
  intro path q k t as k' t' hq hk h
  obtain ⟨st, k₁, t₁, hfinish, h⟩ := gives_bind.mp h
  obtain ⟨rfl, rfl, rfl⟩ := gives_pure.mp h
  obtain ⟨⟨hst, hk₁⟩, rfl, rfl⟩ := finishWithin_induction
    (p := fun st k t => (st.Upholds s involved N P ∧ K k t.vars) ∧ st.query = q ∧ st.path = path)
    (fun hstep ⟨⟨hst, hk⟩, hquery, hpath⟩ => ⟨hinv.step hresolve hst hk hstep,
      hstep.query_eq.trans hquery, hstep.path_eq.trans hpath⟩) hfinish ⟨⟨.start hq, hk⟩, rfl, rfl⟩
  exact ⟨hk₁, fun a ha => hst.answers a.binding ⟨a, ha, rfl⟩⟩

theorem Invariant.resolveWithin (hinv : Invariant s involved K N P) (n : Nat) :
    Maintains involved K P (resolveWithin s n) := by
  induction n with
  | zero =>
    refine hinv.drainWith fun _ hk h => ?_
    obtain ⟨rfl, rfl, rfl⟩ := gives_pure.mp h
    exact ⟨hk, fun _ ha => nomatch ha⟩
  | succ n ih => exact hinv.drainWith ih

theorem Invariant.drain (hinv : Invariant s involved K N P) :
    Maintains involved K P fun path q => drain s { query := q, path } := fun hq hk h =>
  hinv.drainWith (hinv.resolveWithin _) hq hk h

end AnswerStream

/-! ## Patterns -/

namespace AnswerSet

variable {set : AnswerSet} {a : Answer} {as : List Answer}

/-- The answers of a set have different bindings. -/
def IsSet (set : AnswerSet) : Prop :=
  (set.answers.map Answer.binding).Nodup

theorem IsSet.insert (h : set.IsSet) : (set.insert a).2.IsSet := by
  have hnew := @insert_fst set a
  unfold AnswerSet.insert at hnew ⊢
  split
  · have hmap (d : Answer) : (if d.binding = a.binding then
        a.explanations.foldl Answer.addExplanation d else d).binding = d.binding := by
      split
      · exact binding_foldl_addExplanation d a.explanations
      · rfl
    unfold IsSet
    rw [List.map_map]
    simp only [Function.comp_def, hmap]
    exact h
  · next hcontains =>
    rw [if_neg hcontains] at hnew
    have hout : a.binding ∉ set.answers.map Answer.binding := fun hmem =>
      hnew.mp rfl (List.mem_map.mp hmem)
    unfold IsSet
    rw [List.map_append, List.map_singleton, List.nodup_append]
    exact ⟨h, List.nodup_singleton _, fun b hb c hc hbc =>
      hout (List.mem_singleton.mp hc ▸ hbc ▸ hb)⟩

theorem isSet_ofList (as : List Answer) : (ofList as).IsSet := by
  have hfold {set : AnswerSet} (h : set.IsSet) :
      (as.foldl (fun s a => (s.insert a).2) set).IsSet := by
    induction as generalizing set with
    | nil => exact h
    | cons a as ih => exact ih h.insert
  exact hfold .nil

end AnswerSet

namespace Reasoner

open Decomposition

variable {c : Conjunction} {d : DecomposedQuery} {queries : List AtomicQuery}
  {rows rows' : List JoinRow} {K : Knowledge → Nat → Prop} {L U : Interpretation} {as : List Answer}

/-- The joined rows where `drain` finds the answers to each query. -/
def joinAllWith (drain : AtomicQuery → Resolve (List Answer)) (rows : List JoinRow) :
    List AtomicQuery → Resolve (List JoinRow)
  | [] => return rows
  | q :: rest => do
    let answers ← drain q
    let rows := JoinRow.join rows answers
    if rows.isEmpty then return [] else joinAllWith drain rows rest

/-- The answers to a conjunction where `drain` finds those to each of its queries. -/
def resolveWith (drain : AtomicQuery → Resolve (List Answer)) (t : Transaction) (c : Conjunction) :
    Resolve (List Answer) := do
  let d ← Resolve.ofAttempt (ofConjunction t c)
  let vars := c.userVars.toList
  let answers ← match d.queries with
    | [q] => drain q
    | queries => do
      let rows ← joinAllWith drain [.empty] queries
      rows.mapM fun row => (Answer.make row.binding (.join row.answers) : Fresh _)
  return (AnswerSet.ofList (answers.map (·.project vars))).answers

theorem joinAll_eq : joinAll s rows queries = joinAllWith (fun q => (stream q).drain s) rows queries := by
  induction queries generalizing rows with
  | nil => rfl
  | cons q queries ih =>
    unfold joinAll joinAllWith
    simp only [ih]

theorem resolve_eq : resolve s c = resolveWith (fun q => (stream q).drain s) s.transaction c := by
  have hjoin : joinAll s = joinAllWith fun q => (stream q).drain s := by
    funext rows queries
    exact joinAll_eq
  unfold resolve resolveWith
  rewrite [hjoin]
  rfl

variable {drain : AtomicQuery → Resolve (List Answer)} {tx : Transaction}

/-- If the answers to the queries are between two interpretations, then so are the joined rows. -/
theorem joins_of_gives_joinAllWith
    (hdrain : ∀ q ∈ queries, ∀ k t as k' t', K k t.vars → (drain q).Gives k t as k' t' →
      K k' t'.vars ∧ (∀ b, L q b → ∃ a ∈ as, a.binding = b) ∧ ∀ a ∈ as, U q a.binding)
    (h : (joinAllWith drain rows queries).Gives k t rows' k' t') (hk : K k t.vars) :
    K k' t'.vars ∧ (∀ row ∈ rows', ∃ old ∈ rows, U.Joins queries old.binding row.binding) ∧
      ∀ old ∈ rows, ∀ ρ, L.Joins queries old.binding ρ → ∃ row ∈ rows', row.binding = ρ := by
  induction queries generalizing rows k t with
  | nil =>
    obtain ⟨rfl, rfl, rfl⟩ := gives_pure.mp h
    exact ⟨hk, fun row hrow => ⟨row, hrow, rfl⟩, fun row hrow ρ h => ⟨row, hrow, h⟩⟩
  | cons q queries ih =>
    obtain ⟨hq, hqueries⟩ := List.forall_mem_cons.mp hdrain
    obtain ⟨as, k₁, t₁, has, h⟩ := gives_bind.mp h
    obtain ⟨hk₁, hL, hU⟩ := hq _ _ _ _ _ hk has
    obtain ⟨hup, hdown⟩ := @AnswerStream.exists_join_of_answers rows L U q as hL hU
    dsimp only at h
    split at h
    · next hempty =>
      obtain ⟨rfl, rfl, rfl⟩ := gives_pure.mp h
      refine ⟨hk₁, fun _ hrow => (nomatch hrow), ?_⟩
      rintro old hold ρ ⟨b, mid, hb, hmerge, -⟩
      obtain ⟨row, hrow, -⟩ := hdown old hold b mid hb hmerge
      rw [List.isEmpty_iff.mp hempty] at hrow
      cases hrow
    · obtain ⟨hk', hup', hdown'⟩ := ih hqueries h hk₁
      refine ⟨hk', fun row hrow => ?_, ?_⟩
      · obtain ⟨mid, hmid, hjoins⟩ := hup' row hrow
        obtain ⟨old, hold, b, hb, hmerge⟩ := hup mid hmid
        exact ⟨old, hold, b, mid.binding, hb, hmerge, hjoins⟩
      · rintro old hold ρ ⟨b, mid, hb, hmerge, hjoins⟩
        obtain ⟨row, hrow, rfl⟩ := hdown old hold b mid hb hmerge
        exact hdown' row hrow ρ hjoins

theorem merge?_empty (b : Binding) : Binding.merge? .empty b = some b :=
  Binding.merge?_eq_some_iff.mpr ⟨fun _ _ _ h => (nomatch h), fun v i => by simp⟩

/-- The answers to one query are its joined rows. -/
theorem exists_rows_of_gives {q : AtomicQuery} (h : (drain q).Gives k t as k' t') : ∃ rows,
    (joinAllWith drain [.empty] [q]).Gives k t rows k' t' ∧
      ∀ b, (∃ row ∈ rows, row.binding = b) ↔ ∃ a ∈ as, a.binding = b := by
  refine ⟨JoinRow.join [.empty] as, gives_bind.mpr ⟨as, k', t', h, ?_⟩, fun b => JoinRow.exists_join_iff.trans ?_⟩
  · dsimp only
    split
    · next hempty =>
      rw [List.isEmpty_iff.mp hempty]
      exact gives_pure.mpr ⟨rfl, rfl, rfl⟩
    · exact gives_pure.mpr ⟨rfl, rfl, rfl⟩
  · constructor
    · rintro ⟨row, hrow, a, ha, hmerge⟩
      obtain rfl := List.mem_singleton.mp hrow
      exact ⟨a, ha, Option.some.inj ((merge?_empty _).symm.trans hmerge)⟩
    · rintro ⟨a, ha, rfl⟩
      exact ⟨_, .head _, a, ha, merge?_empty _⟩

/-- Every row is made into an answer with its binding. -/
theorem bindings_of_gives_make
    (h : (rows.mapM fun row => (Answer.make row.binding (.join row.answers) : Fresh _) :
      Resolve (List Answer)).Gives k t as k' t') :
    k' = k ∧ t'.vars = t.vars ∧ as.map Answer.binding = rows.map JoinRow.binding := by
  induction rows generalizing as k t with
  | nil =>
    obtain ⟨rfl, rfl, rfl⟩ := gives_pure.mp h
    exact ⟨rfl, rfl, rfl⟩
  | cons row rows ih =>
    rw [List.mapM_cons] at h
    obtain ⟨a, k₁, t₁, ha, h⟩ := gives_bind.mp h
    obtain ⟨as', k₂, t₂, has, h⟩ := gives_bind.mp h
    obtain ⟨rfl, rfl, rfl⟩ := gives_pure.mp h
    obtain ⟨hrun, rfl⟩ := gives_lift.mp ha
    obtain ⟨rfl, rfl⟩ := Prod.mk.inj hrun
    obtain ⟨rfl, hvars, hbindings⟩ := ih has
    exact ⟨rfl, hvars, by rw [List.map_cons, hbindings]; rfl⟩

/-- The answers to a conjunction are the joined rows of its queries, as far as its user-defined variables go. -/
theorem exists_rows_of_gives_resolveWith {v v₁ : Supply} (hd : (ofConjunction tx c).Gives v d v₁)
    (h : (resolveWith drain tx c).Gives k v as k' t') :
    ∃ rows t₁, (joinAllWith drain [.empty] d.queries).Gives k v₁ rows k' t₁ ∧ t₁.vars = t'.vars ∧
      (as.map Answer.binding).Nodup ∧
      ∀ b, (∃ a ∈ as, a.binding = b) ↔ ∃ row ∈ rows, row.binding.restrict c.userVars.contains = b := by
  obtain ⟨d', k₀, t₀, hresult, h⟩ := gives_bind.mp h
  obtain ⟨hd', rfl⟩ := gives_ofAttempt.mp hresult
  obtain ⟨heq, rfl⟩ := Prod.mk.inj (hd.symm.trans hd')
  obtain rfl := Except.ok.inj heq
  obtain ⟨found, rows, t₁, hrows, hvars, hfound, rfl⟩ : ∃ (found : List Answer) (rows : List JoinRow) (t₁ : Supply),
      (joinAllWith drain [.empty] d.queries).Gives k v₁ rows k' t₁ ∧ t₁.vars = t'.vars ∧
      (∀ b, (∃ row ∈ rows, row.binding = b) ↔ ∃ a ∈ found, a.binding = b) ∧
      (AnswerSet.ofList (found.map (·.project c.userVars.toList))).answers = as := by
    dsimp only at h
    split at h
    · next q hqueries =>
      obtain ⟨found, k₁, t₂, hfound, h⟩ := gives_bind.mp h
      obtain ⟨rfl, rfl, rfl⟩ := gives_pure.mp h
      obtain ⟨rows, hrows, hiff⟩ := exists_rows_of_gives hfound
      rw [hqueries]
      exact ⟨found, rows, t₂, hrows, rfl, hiff, rfl⟩
    · obtain ⟨rows, k₁, t₂, hrows, h⟩ := gives_bind.mp h
      obtain ⟨found, k₂, t₃, hmade, h⟩ := gives_bind.mp h
      obtain ⟨rfl, rfl, rfl⟩ := gives_pure.mp h
      obtain ⟨rfl, hvars, hbindings⟩ := bindings_of_gives_make hmade
      refine ⟨found, rows, t₂, hrows, hvars.symm, fun b => ?_, rfl⟩
      rw [← List.mem_map, ← List.mem_map, hbindings]
  refine ⟨rows, t₁, hrows, hvars, AnswerSet.isSet_ofList _, fun b => ?_⟩
  show (AnswerSet.ofList _).Has b ↔ _
  rw [AnswerSet.ofList, AnswerSet.has_foldl_insert]
  simp only [List.mem_map, exists_exists_and_eq_and, binding_project]
  constructor
  · rintro (⟨_, ha, -⟩ | ⟨a, ha, rfl⟩)
    · cases ha
    · obtain ⟨row, hrow, heq⟩ := (hfound _).mpr ⟨a, ha, rfl⟩
      exact ⟨row, hrow, by rw [heq]⟩
  · rintro ⟨row, hrow, rfl⟩
    obtain ⟨a, ha, heq⟩ := (hfound _).mp ⟨row, hrow, rfl⟩
    exact .inr ⟨a, ha, by rw [heq]⟩

/-- The answers to a conjunction are joined from answers to its atomic queries and have different
bindings of its user-defined variables. -/
theorem joins_of_gives_resolveWith {v v₁ : Supply} (hd : (ofConjunction tx c).Gives v d v₁)
    (hdrain : ∀ q ∈ d.queries, ∀ k t as k' t', K k t.vars → (drain q).Gives k t as k' t' →
      K k' t'.vars ∧ (∀ b, L q b → ∃ a ∈ as, a.binding = b) ∧ ∀ a ∈ as, U q a.binding)
    (h : (resolveWith drain tx c).Gives k v as k' t') (hk : K k v₁.vars) :
    K k' t'.vars ∧ (as.map Answer.binding).Nodup ∧
      (∀ a ∈ as, ∃ ρ, U.Joins d.queries .empty ρ ∧ ρ.restrict c.userVars.contains = a.binding) ∧
      ∀ ρ, L.Joins d.queries .empty ρ → ∃ a ∈ as, a.binding = ρ.restrict c.userVars.contains := by
  obtain ⟨rows, t₁, hrows, hvars, hset, hmem⟩ := exists_rows_of_gives_resolveWith hd h
  obtain ⟨hk', hup, hdown⟩ := joins_of_gives_joinAllWith hdrain hrows hk
  refine ⟨hvars ▸ hk', hset, fun a ha => ?_, fun ρ hρ => ?_⟩
  · obtain ⟨row, hrow, heq⟩ := (hmem _).mp ⟨a, ha, rfl⟩
    obtain ⟨old, hold, hjoins⟩ := hup row hrow
    obtain rfl := List.mem_singleton.mp hold
    exact ⟨row.binding, hjoins, heq⟩
  · obtain ⟨row, hrow, rfl⟩ := hdown .empty (.head _) ρ hρ
    exact (hmem _).mpr ⟨row, hrow, rfl⟩

theorem joins_of_gives_resolve {v v₁ : Supply} (hd : (ofConjunction s.transaction c).Gives v d v₁)
    (hdrain : ∀ q ∈ d.queries, ∀ k t as k' t', K k t.vars → ((stream q).drain s).Gives k t as k' t' →
      K k' t'.vars ∧ (∀ b, L q b → ∃ a ∈ as, a.binding = b) ∧ ∀ a ∈ as, U q a.binding)
    (h : (resolve s c).Gives k v as k' t') (hk : K k v₁.vars) :
    K k' t'.vars ∧ (as.map Answer.binding).Nodup ∧
      (∀ a ∈ as, ∃ ρ, U.Joins d.queries .empty ρ ∧ ρ.restrict c.userVars.contains = a.binding) ∧
      ∀ ρ, L.Joins d.queries .empty ρ → ∃ a ∈ as, a.binding = ρ.restrict c.userVars.contains :=
  joins_of_gives_resolveWith hd hdrain (resolve_eq ▸ h) hk

end Reasoner

end GraphInference
