import GraphInference.Proofs.Resolution.Computation

/-!
# Steps of a stream

What a successful step of an answer stream does, one case for each way (`AnswerStream.Steps`). Later
proofs about streams go through these cases and do not open `step`.
-/

namespace GraphInference

namespace Resolve

variable {α β : Type} {k k' : Knowledge} {s s' : Supply}

theorem gives_knownAnswers {q : AtomicQuery} {as : List Answer} :
    (knownAnswers q).Gives k s as k' s' ↔ (k.known.get? q).getD [] = as ∧ k = k' ∧ s = s' := by
  constructor
  · intro h
    cases h
    exact ⟨rfl, rfl, rfl⟩
  · rintro ⟨rfl, rfl, rfl⟩
    rfl

theorem gives_record {q : AtomicQuery} {as : List Answer} {u : Unit} :
    (record q as).Gives k s u k' s' ↔ { k with known := (k.known.record q as).2 } = k' ∧ s = s' := by
  constructor
  · intro h
    cases h
    exact ⟨rfl, rfl⟩
  · rintro ⟨rfl, rfl⟩
    rfl

/-- What follows a piece of work matters only for the results that the work has. -/
theorem bind_congr_of_gives {x : Resolve α} {f g : α → Resolve β}
    (h : ∀ k s a k' s', x.Gives k s a k' s' → f a = g a) : x >>= f = x >>= g := by
  funext k
  funext s
  show ((x >>= f).run.run k).run s = ((x >>= g).run.run k).run s
  rw [run_bind, run_bind]
  rcases hx : (x.run.run k).run s with ⟨⟨e | a, l⟩, t⟩
  · rfl
  · show (((f a).run).run l).run t = (((g a).run).run l).run t
    rw [h k s a l t hx]

end Resolve

namespace AnswerStream

open Resolve

/-- Whether the stream is a repetition on its path or too deep, so that it is not expanded. -/
def Cut (s : Setting) (st : AnswerStream) : Prop :=
  st.path.meets st.query = true ∨ s.config.maxRecursionDepth ≤ st.path.length

/-- A step from one stream, knowledge and supply to the next. -/
inductive Steps (resolve : Resolver) (s : Setting) (st : AnswerStream) (k : Knowledge) (t : Supply) :
    AnswerStream → Knowledge → Supply → Prop where
  | cut (hstage : st.stage = .unresolved) (hcut : st.Cut s) : Steps resolve s st k t
      { st.emitAll ((k.known.get? st.query).getD []) with stage := .exhausted } k t
  | lookedUp (hstage : st.stage = .unresolved) (hcut : ¬ st.Cut s) {as : List Answer} {l : Knowledge}
      {u : Supply} (hlookup : (lookup s st.query).Gives k t as l u) : Steps resolve s st k t
      { st.emitAll as with stage := .lookupAttempted }
      { l with known := (l.known.record (st.emitAll as).query (st.emitAll as).answers.answers).2 } u
  | unruled (hstage : st.stage = .lookupAttempted) (hunruled : s.config.reasoningEnabled = false ∨
        s.config.lookupPolicy = .closedWorld ∧ st.answers.answers ≠ [] ∨
        s.rules.applicable st.query.central = []) :
      Steps resolve s st k t { st with stage := .resolvedByLookup } k t
  | ruled (hstage : st.stage = .lookupAttempted) (hreasoning : s.config.reasoningEnabled = true)
        (hunanswered : s.config.lookupPolicy = .closedWorld → st.answers.answers = []) :
      Steps resolve s st k t { st with
        stage := .needsRuleExpansion
        rules := s.rules.applicable st.query.central
        rulesLeft := s.rules.applicable st.query.central
        recursive := (s.rules.applicable st.query.central).any fun r => s.rules.isRecursive r.1
        roundAdded := false } k t
  | applied (hstage : st.stage = .needsRuleExpansion) {id : RuleId} {u : Unifier}
      {rulesLeft : List (RuleId × Unifier)} (hleft : st.rulesLeft = (id, u) :: rulesLeft)
      {as : List Answer} {l : Knowledge} {v : Supply}
      (happly : (applyRule resolve s st id u).Gives k t as l v) : Steps resolve s st k t
      ({ st with rulesLeft }.emitAll as)
      { l with known := (l.known.record ({ st with rulesLeft }.emitAll as).query
        ({ st with rulesLeft }.emitAll as).answers.answers).2 } v
  | repeated (hstage : st.stage = .needsRuleExpansion) (hleft : st.rulesLeft = [])
      (hrecursive : st.recursive = true) (hadded : st.roundAdded = true)
      (hround : st.round + 1 < s.config.maxFixpointIterations) : Steps resolve s st k t
      { st with round := st.round + 1, rulesLeft := st.rules, roundAdded := false } k t
  | finished (hstage : st.stage = .needsRuleExpansion) (hleft : st.rulesLeft = [])
      (hdone : ¬ (st.recursive = true ∧ st.roundAdded = true ∧
        st.round + 1 < s.config.maxFixpointIterations)) : Steps resolve s st k t
      { st with round := st.round + 1, stage := .resolvedByRule } k t
  | ended (hstage : st.stage.isTerminal = true) : Steps resolve s st k t st k t

variable {resolve : Resolver} {s : Setting} {st st' : AnswerStream} {k k' : Knowledge} {t t' : Supply}

theorem steps_of_gives (h : (step resolve s st).Gives k t st' k' t') :
    Steps resolve s st k t st' k' t' := by
  unfold step at h
  split at h
  case h_1 hstage =>
    split at h
    case isTrue hcut =>
      obtain ⟨as, k₁, t₁, has, h⟩ := gives_bind.mp h
      obtain ⟨rfl, rfl, rfl⟩ := gives_knownAnswers.mp has
      obtain ⟨rfl, rfl, rfl⟩ := gives_pure.mp h
      exact .cut hstage hcut
    case isFalse hcut =>
      obtain ⟨as, k₁, t₁, has, h⟩ := gives_bind.mp h
      obtain ⟨_, k₂, t₂, hrecord, h⟩ := gives_bind.mp h
      obtain ⟨rfl, rfl⟩ := gives_record.mp hrecord
      obtain ⟨rfl, rfl, rfl⟩ := gives_pure.mp h
      exact .lookedUp hstage hcut has
  case h_2 hstage =>
    dsimp only at h
    split at h
    case isTrue hunruled =>
      obtain ⟨rfl, rfl, rfl⟩ := gives_pure.mp h
      refine .unruled hstage (hunruled.imp ?_ (Or.imp ?_ List.isEmpty_iff.mp))
      · exact Bool.eq_false_iff.mpr
      · exact And.imp_right fun hanswered hempty => hanswered (List.isEmpty_iff.mpr hempty)
    case isFalse hruled =>
      obtain ⟨rfl, rfl, rfl⟩ := gives_pure.mp h
      refine .ruled hstage (by simpa using fun hoff => hruled (.inl hoff)) fun hclosed => ?_
      by_contra hanswered
      exact hruled (.inr (.inl ⟨hclosed, mt List.isEmpty_iff.mp hanswered⟩))
  case h_3 hstage =>
    split at h
    case h_1 id u rulesLeft hleft =>
      obtain ⟨as, k₁, t₁, has, h⟩ := gives_bind.mp h
      obtain ⟨_, k₂, t₂, hrecord, h⟩ := gives_bind.mp h
      obtain ⟨rfl, rfl⟩ := gives_record.mp hrecord
      obtain ⟨rfl, rfl, rfl⟩ := gives_pure.mp h
      exact .applied hstage hleft has
    case h_2 hleft =>
      dsimp only at h
      split at h
      case isTrue hagain =>
        obtain ⟨rfl, rfl, rfl⟩ := gives_pure.mp h
        exact .repeated hstage hleft hagain.1 hagain.2.1 hagain.2.2
      case isFalse hdone =>
        obtain ⟨rfl, rfl, rfl⟩ := gives_pure.mp h
        exact .finished hstage hleft hdone
  case h_4 hunresolved hlookedUp hexpanding =>
    obtain ⟨rfl, rfl, rfl⟩ := gives_pure.mp h
    refine .ended ?_
    cases hstage : st.stage with
    | unresolved => exact absurd hstage hunresolved
    | lookupAttempted => exact absurd hstage hlookedUp
    | needsRuleExpansion => exact absurd hstage hexpanding
    | resolvedByLookup | resolvedByRule | exhausted => rfl

/-! ## What emitting leaves alone -/

/-- The stream with its answers, those that are pending and the mark of this round aside. -/
theorem emitAll_eq (st : AnswerStream) (as : List Answer) : ∃ pending answers roundAdded,
    st.emitAll as = { st with pending, answers, roundAdded } := by
  induction as generalizing st with
  | nil => exact ⟨_, _, _, rfl⟩
  | cons a as ih =>
    obtain ⟨pending, answers, roundAdded, h⟩ := ih (st.emit a)
    have hemit : ∃ pending answers roundAdded,
        st.emit a = { st with pending, answers, roundAdded } := by
      unfold emit
      dsimp only
      split
      · exact ⟨_, _, _, rfl⟩
      · exact ⟨_, _, _, rfl⟩
    obtain ⟨p, m, r, hfirst⟩ := hemit
    refine ⟨pending, answers, roundAdded, ?_⟩
    show (st.emit a).emitAll as = _
    rw [h, hfirst]

@[simp] theorem query_emitAll (st : AnswerStream) (as : List Answer) :
    (st.emitAll as).query = st.query := by
  obtain ⟨_, _, _, h⟩ := emitAll_eq st as
  rw [h]

@[simp] theorem path_emitAll (st : AnswerStream) (as : List Answer) :
    (st.emitAll as).path = st.path := by
  obtain ⟨_, _, _, h⟩ := emitAll_eq st as
  rw [h]

@[simp] theorem stage_emitAll (st : AnswerStream) (as : List Answer) :
    (st.emitAll as).stage = st.stage := by
  obtain ⟨_, _, _, h⟩ := emitAll_eq st as
  rw [h]

@[simp] theorem rules_emitAll (st : AnswerStream) (as : List Answer) :
    (st.emitAll as).rules = st.rules := by
  obtain ⟨_, _, _, h⟩ := emitAll_eq st as
  rw [h]

@[simp] theorem rulesLeft_emitAll (st : AnswerStream) (as : List Answer) :
    (st.emitAll as).rulesLeft = st.rulesLeft := by
  obtain ⟨_, _, _, h⟩ := emitAll_eq st as
  rw [h]

@[simp] theorem recursive_emitAll (st : AnswerStream) (as : List Answer) :
    (st.emitAll as).recursive = st.recursive := by
  obtain ⟨_, _, _, h⟩ := emitAll_eq st as
  rw [h]

@[simp] theorem round_emitAll (st : AnswerStream) (as : List Answer) :
    (st.emitAll as).round = st.round := by
  obtain ⟨_, _, _, h⟩ := emitAll_eq st as
  rw [h]

@[simp] theorem failed_emitAll (st : AnswerStream) (as : List Answer) :
    (st.emitAll as).failed = st.failed := by
  obtain ⟨_, _, _, h⟩ := emitAll_eq st as
  rw [h]

/-- A step goes on with the same query on the same path. -/
theorem Steps.query_eq (h : Steps resolve s st k t st' k' t') : st'.query = st.query := by
  cases h <;> simp

theorem Steps.path_eq (h : Steps resolve s st k t st' k' t') : st'.path = st.path := by
  cases h <;> simp

theorem Steps.failed_eq (h : Steps resolve s st k t st' k' t') : st'.failed = st.failed := by
  cases h <;> simp

end AnswerStream

end GraphInference
