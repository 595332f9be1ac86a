import GraphInference.Proofs.Resolution.Completeness

/-!
# Streams find all that follows

A stream that comes to no bound ends after a round without new answers, or after its only round if none of
its rules is recursive. What it has then is closed under its rules (`AnswerStream.Covers`), so that a free
drain gives at least what follows from the answers known at its start, and without a path exactly what
follows from the graph: `Setting.Coherent.entails_iff_of_gives_drainFreely`.
-/

namespace GraphInference

open AtomicQuery Resolve

namespace AnswerStream

variable {s : Setting} {queries : List AtomicQuery} {start : AnswerCache} {resolve : Resolver}
  {st st' : AnswerStream} {k k' : Knowledge} {t t' : Supply} {as : List Answer}
  {done : List (RuleId × Unifier)}

/-- A round to which emitting adds nothing had the answers before. -/
theorem has_of_roundAdded_emitAll (h : (st.emitAll as).roundAdded = false) :
    st.roundAdded = false ∧ ∀ b, (st.emitAll as).answers.Has b → st.answers.Has b := by
  have hemit {a : Answer} {st : AnswerStream} (h : (st.emit a).roundAdded = false) :
      st.roundAdded = false ∧ ∀ b, (st.emit a).answers.Has b → st.answers.Has b := by
    have hnew := @AnswerSet.insert_fst st.answers a
    unfold emit at h ⊢
    dsimp only at h ⊢
    split at h
    · cases h
    · next hold =>
      rw [if_neg hold]
      refine ⟨h, fun b hb => ?_⟩
      rcases AnswerSet.has_insert.mp hb with hb | rfl
      · exact hb
      · exact not_not.mp (mt hnew.mpr hold)
  induction as generalizing st with
  | nil => exact ⟨h, fun _ hb => hb⟩
  | cons a as ih =>
    obtain ⟨hfirst, hrest⟩ := ih (show ((st.emit a).emitAll as).roundAdded = false from h)
    exact ⟨(hemit hfirst).1, fun b hb => (hemit hfirst).2 b (hrest b hb)⟩

/-! ## Rounds -/

/-- A resolver that gives at least what follows from the known answers, and only adds to these. -/
def Completes (s : Setting) (queries : List AtomicQuery) (resolve : Resolver) : Prop :=
  ∀ {path q k t as k' t'}, q.IsAmong queries → s.Trusts queries k t.vars →
    (resolve path q).Gives k t as k' t' →
      k.known.Grows k'.known ∧ ∀ b, s.EntailsFrom path k.known.Serves q b → ∃ a ∈ as, a.binding = b

/-- The stream was expanded, has found what is in the graph and has all its answers recorded. -/
structure Finds (s : Setting) (st : AnswerStream) (k : Knowledge) : Prop where
  uncut : ¬ st.path.meets st.query = true
  found : ∀ b, s.Found st.query b → st.answers.Has b
  served : ∀ b, st.answers.Has b → k.known.Serves st.query b

/-- A round that began with the knowledge `c`: the answers cover what the rules that are done derive from
it, and all of them were known then if none was added. -/
structure Round (s : Setting) (queries : List AtomicQuery) (start : AnswerCache) (st : AnswerStream)
    (k c : Knowledge) (done : List (RuleId × Unifier)) : Prop where
  trusts : ∃ n, s.Trusts queries c n
  begun : start.Grows c.known
  grown : c.known.Grows k.known
  rules : done ++ st.rulesLeft = s.rules.applicable st.query.central
  derived : ∀ e ∈ done, ∀ r ρ b, s.rules.get? e.1 = some r →
    (s.EntailsFrom (st.query :: st.path) c.known.Serves).Joins r.body .empty ρ →
    s.Yields st.query e.2 ρ b → st.answers.Has b
  unchanged : st.roundAdded = false → ∀ b, st.answers.Has b → c.known.Serves st.query b

/-- What the answers of a stream that comes to no bound cover at each of its stages. -/
inductive Covers (s : Setting) (queries : List AtomicQuery) (start : AnswerCache) (st : AnswerStream)
    (k : Knowledge) : Prop where
  | unresolved (hstage : st.stage = .unresolved) (hnone : st.answers.answers = [])
  | lookedUp (hstage : st.stage = .lookupAttempted) (hfinds : st.Finds s k)
      (hsound : ∀ b, st.answers.Has b → s.Found st.query b)
  | expanding (hstage : st.stage = .needsRuleExpansion) (hfinds : st.Finds s k)
      (hrules : st.rules = s.rules.applicable st.query.central)
      (hrecursive : st.recursive = st.rules.any fun r => s.rules.isRecursive r.1) {c : Knowledge}
      {done : List (RuleId × Unifier)} (hround : st.Round s queries start k c done)
  | complete (hstage : st.stage.isTerminal = true)
      (hall : ∀ b, s.EntailsFrom st.path start.Serves st.query b → st.answers.Has b)

/-- A new round begins with all answers known. -/
theorem Finds.round (h : st.Finds s k) {n : Nat} (hk : s.Trusts queries k n)
    (hgrows : start.Grows k.known) (hleft : st.rulesLeft = s.rules.applicable st.query.central) :
    st.Round s queries start k k [] :=
  ⟨⟨n, hk⟩, hgrows, .refl _, hleft, fun _ he => (nomatch he), fun _ => h.served⟩

/-- A rule derives what follows by it from what was known when the round began. -/
theorem Completes.applyRule (hresolve : Completes s queries resolve) (h : s.Coherent queries)
    (hmaintains : Maintains (IsAmong queries) (s.Trusts queries) (fun _ => s.Entails) resolve)
    {c : Knowledge} (hgrown : c.known.Grows k.known) (hk : s.Trusts queries k t.vars) {id : RuleId}
    {u : Unifier} (hgives : (applyRule resolve s st id u).Gives k t as k' t') :
    k.known.Grows k'.known ∧ ∀ r ρ b, s.rules.get? id = some r →
      (s.EntailsFrom (st.query :: st.path) c.known.Serves).Joins r.body .empty ρ →
      s.Yields st.query u ρ b → ∃ a ∈ as, a.binding = b := by
  unfold AnswerStream.applyRule at hgives
  split at hgives
  · exact absurd hgives not_gives_throw
  · next r hr =>
    obtain ⟨rows, k₁, t₁, hjoin, hderive⟩ := gives_bind.mp hgives
    obtain ⟨⟨-, hgrows⟩, -, hrows⟩ := joins_of_gives_joinBody
      (K := fun l n => s.Trusts queries l n ∧ k.known.Grows l.known)
      (L := s.EntailsFrom (st.query :: st.path) c.known.Serves) (U := fun _ _ => True)
      (fun p hp i l v as l' v' ⟨hl, hkl⟩ hbody => by
        have hmem := h.bodies r (List.mem_of_getElem? hr) p hp
        have hamong : (p.renumber i).IsAmong queries := (isAmong_of_mem hmem).renumber
        obtain ⟨hll', hall⟩ := hresolve hamong hl hbody
        refine ⟨⟨(hmaintains hamong hl hbody).1, hkl.trans hll'⟩, fun b hb => hall b ?_,
          fun _ _ => trivial⟩
        refine ((IsCopyOf.refl p).renumber.entailsFrom_iff (h.made p hmem).hasPredicates).mpr ?_
        exact hb.mono fun q b _ hb => (hgrown.trans hkl).serves hb) hjoin ⟨hk, .refl _⟩
    obtain ⟨rfl, -, hyields⟩ := yields_of_gives_derive hderive
    refine ⟨hgrows, fun r' ρ b hr' hρ hb => ?_⟩
    obtain rfl := Option.some.inj (hr.symm.trans hr')
    obtain ⟨row, hrow, rfl⟩ := hrows .empty (.head _) ρ hρ
    exact (hyields b).mpr ⟨row, hrow, hb⟩

/-- One more rule is done when its answers are emitted. -/
theorem Round.emitAll {c : Knowledge} (hround : st.Round s queries start k c done) {id : RuleId}
    {u : Unifier} {rulesLeft : List (RuleId × Unifier)} (hleft : st.rulesLeft = (id, u) :: rulesLeft)
    (hgrown : k.known.Grows k'.known)
    (hderived : ∀ r ρ b, s.rules.get? id = some r →
      (s.EntailsFrom (st.query :: st.path) c.known.Serves).Joins r.body .empty ρ →
      s.Yields st.query u ρ b → ∃ a ∈ as, a.binding = b) :
    ({ st with rulesLeft }.emitAll as).Round s queries start k' c (done ++ [(id, u)]) := by
  refine ⟨hround.trusts, hround.begun, hround.grown.trans hgrown, ?_, fun e he r ρ b hr hρ hb => ?_, ?_⟩
  · rw [rulesLeft_emitAll, query_emitAll, List.append_assoc, ← hround.rules, hleft]
    rfl
  · rw [query_emitAll, path_emitAll] at hρ
    rw [query_emitAll] at hb
    rcases List.mem_append.mp he with he | he
    · exact has_emitAll.mpr (.inl (hround.derived e he r ρ b hr hρ hb))
    · obtain rfl := List.mem_singleton.mp he
      exact has_emitAll.mpr (.inr (hderived r ρ b hr hρ hb))
  · intro hadded b hb
    obtain ⟨hbefore, hhas⟩ := has_of_roundAdded_emitAll hadded
    rw [query_emitAll]
    exact hround.unchanged hbefore b (hhas b hb)

/-- All that follows for the query is among its answers when every rule is done. -/
theorem Round.has_of_infers {c : Knowledge} (hround : st.Round s queries start k c done)
    (hfinds : st.Finds s k) (hleft : st.rulesLeft = []) {b : Binding}
    (hb : s.Infers (s.EntailsFrom (st.query :: st.path) c.known.Serves) st.query b) :
    st.answers.Has b := by
  have hdone : done = s.rules.applicable st.query.central := by
    rw [← hround.rules, hleft, List.append_nil]
  rcases hb with hb | ⟨-, id, u, r, ρ, hid, hr, hρ, hb⟩
  · exact hfinds.found b hb
  · exact hround.derived (id, u) (hdone ▸ hid) r ρ b hr hρ hb

/-- A round that added nothing, or the only round of rules that are not recursive, is the last one. -/
theorem Round.complete (h : s.Coherent queries) {c : Knowledge}
    (hround : st.Round s queries start k c done) (hfinds : st.Finds s k)
    (hq : st.query.IsAmong queries) (hleft : st.rulesLeft = [])
    (hlast : st.roundAdded = false ∨ ∀ e ∈ s.rules.applicable st.query.central,
      ¬ s.rules.isRecursive e.1 = true) {b : Binding}
    (hb : s.EntailsFrom st.path start.Serves st.query b) : st.answers.Has b := by
  obtain ⟨n, hc⟩ := hround.trusts
  refine hround.has_of_infers hfinds hleft ?_
  refine ((Setting.entailsFrom_iff_of_not_meets hfinds.uncut).mp hb).mono ?_
  intro id u r hid hr p hp b hb
  rcases hlast with hadded | hrecursive
  · refine h.entailsFrom_of_closed hc hq hround.begun (fun b hb => ?_)
      (isAmong_of_mem (h.bodies r (List.mem_of_getElem? hr) p hp)) hb
    exact hround.unchanged hadded b (hround.has_of_infers hfinds hleft hb)
  · exact h.entailsFrom_of_not_recursive hq hround.begun (fun id u hid => hrecursive (id, u) hid)
      hid hr hp hb

/-! ## Steps -/

/-- Recording the answers of a stream adds to the knowledge, and all of them are served. -/
theorem Upholds.served (h : s.Coherent queries) (hst : s.Sound queries st) {n : Nat}
    (hk : s.Trusts queries k n) {b : Binding} (hb : st.answers.Has b) :
    (k.known.record st.query st.answers.answers).2.Serves st.query b := by
  obtain ⟨a, ha, rfl⟩ := hb
  exact h.serves_record hk hst.involved (fun a ha => hst.answers a.binding ⟨a, ha, rfl⟩) a ha

namespace Covers

theorem unanswered (h : Covers s queries start st k) (hstage : st.stage = .unresolved) : st.answers.answers = [] := by
  cases h with
  | unresolved _ hnone => exact hnone
  | lookedUp h | expanding h => cases hstage.symm.trans h
  | complete h => rw [hstage] at h; cases h

/-- A stream that has looked its query up has found just what is in the graph. -/
theorem finds (h : Covers s queries start st k) (hstage : st.stage = .lookupAttempted) :
    st.Finds s k ∧ ∀ b, st.answers.Has b → s.Found st.query b := by
  cases h with
  | lookedUp _ hfinds hsound => exact ⟨hfinds, hsound⟩
  | unresolved h | expanding h => cases hstage.symm.trans h
  | complete h => rw [hstage] at h; cases h

/-- A stream that applies rules is in a round. -/
theorem exists_round (h : Covers s queries start st k) (hstage : st.stage = .needsRuleExpansion) :
    st.Finds s k ∧ st.rules = s.rules.applicable st.query.central ∧
      (st.recursive = st.rules.any fun r => s.rules.isRecursive r.1) ∧ ∃ c done, st.Round s queries start k c done := by
  cases h with
  | expanding _ hfinds hrules hrecursive hround => exact ⟨hfinds, hrules, hrecursive, _, _, hround⟩
  | unresolved h | lookedUp h => cases hstage.symm.trans h
  | complete h => rw [hstage] at h; cases h

/-- A stream that is cut off on a cycle has what was known at its start. -/
theorem cut (hgrows : start.Grows k.known) (hmeets : st.path.meets st.query = true) :
    Covers s queries start { st.emitAll ((k.known.get? st.query).getD []) with stage := .exhausted } k := by
  refine .complete rfl fun b hb => ?_
  rw [path_emitAll, query_emitAll, Setting.entailsFrom_iff_of_meets hmeets] at hb
  obtain ⟨as, hget, a, ha, rfl⟩ := hgrows.serves hb
  exact has_emitAll.mpr (.inr ⟨a, by rwa [hget], rfl⟩)

/-- What is looked up is all that is in the graph. -/
theorem looked (h : Covers s queries start st k) (hstage : st.stage = .unresolved) (hcut : ¬ st.Cut s)
    (hfound : ∀ b, AnswerSet.Has ⟨as⟩ b ↔ s.Found st.query b)
    (hserved : ∀ b, (st.emitAll as).answers.Has b → k'.known.Serves (st.emitAll as).query b) :
    Covers s queries start { st.emitAll as with stage := .lookupAttempted } k' := by
  have hnew {b : Binding} : (st.emitAll as).answers.Has b ↔ AnswerSet.Has ⟨as⟩ b := by
    refine has_emitAll.trans (or_iff_right ?_)
    rintro ⟨a, ha, -⟩
    rw [h.unanswered hstage] at ha
    cases ha
  refine .lookedUp rfl ⟨?_, fun b hb => ?_, hserved⟩ fun b hb => ?_
  · rw [path_emitAll, query_emitAll]
    exact fun hmeets => hcut (.inl hmeets)
  · rw [query_emitAll] at hb
    exact hnew.mpr ((hfound b).mpr hb)
  · rw [query_emitAll]
    exact (hfound b).mp (hnew.mp hb)

/-- A stream to which no rule is applied has all that follows. -/
theorem unruled (h : Covers s queries start st k) (hstage : st.stage = .lookupAttempted)
    (hunruled : s.config.reasoningEnabled = false ∨
      s.config.lookupPolicy = .closedWorld ∧ st.answers.answers ≠ [] ∨ s.rules.applicable st.query.central = []) :
    Covers s queries start { st with stage := .resolvedByLookup } k := by
  obtain ⟨hfinds, hsound⟩ := h.finds hstage
  refine .complete rfl fun b hb => ?_
  rcases (Setting.entailsFrom_iff_of_not_meets hfinds.uncut).mp hb with hb | ⟨hexpands, id, u, _, _, hid, -⟩
  · exact hfinds.found b hb
  · rcases hunruled with hoff | ⟨hclosed, hanswered⟩ | hrules
    · cases hoff.symm.trans hexpands.1
    · obtain ⟨a, ha⟩ := List.exists_mem_of_ne_nil _ hanswered
      exact absurd (hsound a.binding ⟨a, ha, rfl⟩) (hexpands.2 hclosed a.binding)
    · rw [hrules] at hid
      cases hid

/-- A stream whose rounds are over has all that follows. -/
theorem finished (h : Covers s queries start st k) (hcoherent : s.Coherent queries) (hst : s.Sound queries st)
    (hfree : ¬ st.AtBound s) (hstage : st.stage = .needsRuleExpansion) (hleft : st.rulesLeft = [])
    (hdone : ¬ (st.recursive = true ∧ st.roundAdded = true ∧ st.round + 1 < s.config.maxFixpointIterations)) :
    Covers s queries start { st with round := st.round + 1, stage := .resolvedByRule } k := by
  obtain ⟨hfinds, hrules, hrecursive, c, done, hround⟩ := h.exists_round hstage
  refine .complete rfl fun b hb => hround.complete hcoherent hfinds hst.involved hleft ?_ hb
  by_cases hadded : st.roundAdded = true
  · refine .inr fun e he hrec => ?_
    have hrecursive : st.recursive = true := by
      rw [hrecursive, hrules]
      exact List.any_eq_true.mpr ⟨e, he, hrec⟩
    by_cases hlast : st.round + 1 < s.config.maxFixpointIterations
    · exact hdone ⟨hrecursive, hadded, hlast⟩
    · exact hfree (.inr ⟨hstage, hleft, hrecursive, hadded, Nat.le_of_not_lt hlast⟩)
  · exact .inl (Bool.eq_false_iff.mpr hadded)

/-- One step that comes to no bound keeps what the answers cover. -/
theorem step (h : s.Coherent queries) (hresolve : Completes s queries resolve)
    (hmaintains : Maintains (IsAmong queries) (s.Trusts queries) (fun _ => s.Entails) resolve)
    (hst : s.Sound queries st) (hst' : s.Sound queries st') (hk : s.Trusts queries k t.vars)
    (hgrows : start.Grows k.known) (hcovers : Covers s queries start st k) (hfree : ¬ st.AtBound s)
    (hstep : Steps resolve s st k t st' k' t') :
    start.Grows k'.known ∧ Covers s queries start st' k' := by
  cases hstep with
  | cut hstage hcut =>
    have hmeets : st.path.meets st.query = true := by
      by_contra hmeets
      exact hfree (.inl ⟨hstage, hmeets, hcut.resolve_left hmeets⟩)
    exact ⟨hgrows, .cut hgrows hmeets⟩
  | @lookedUp hstage hcut as l u hlookup =>
    obtain ⟨hl, hfound⟩ := h.found_iff_of_gives_lookup hst.involved hk hlookup
    have hknown := known_of_gives_lookup hlookup
    exact ⟨hgrows.trans (hknown ▸ AnswerCache.grows_record),
      hcovers.looked hstage hcut hfound fun b hb => hst'.served h hl hb⟩
  | unruled hstage hunruled => exact ⟨hgrows, hcovers.unruled hstage hunruled⟩
  | ruled hstage =>
    obtain ⟨hfinds, -⟩ := hcovers.finds hstage
    have hfinds' : Finds s { st with
        stage := .needsRuleExpansion
        rules := s.rules.applicable st.query.central
        rulesLeft := s.rules.applicable st.query.central
        recursive := (s.rules.applicable st.query.central).any fun r => s.rules.isRecursive r.1
        roundAdded := false } k := ⟨hfinds.uncut, hfinds.found, hfinds.served⟩
    exact ⟨hgrows, .expanding rfl hfinds' rfl rfl (hfinds'.round hk hgrows rfl)⟩
  | @applied hstage id u rulesLeft hleft as l v happly =>
    obtain ⟨hfinds, hrules, hrecursive, c, done, hround⟩ := hcovers.exists_round hstage
    obtain ⟨hkl, hderived⟩ := hresolve.applyRule h hmaintains hround.grown hk happly
    have hid : (id, u) ∈ s.rules.applicable st.query.central := hst.rulesLeft _ (hleft ▸ .head _)
    obtain ⟨hl, -⟩ := h.invariant.applyRule hmaintains hst.involved (hst.unanswered hstage) hid hk happly
    let mid : AnswerStream := { st with rulesLeft }
    have hgrown : k.known.Grows
        (l.known.record (mid.emitAll as).query (mid.emitAll as).answers.answers).2 :=
      hkl.trans AnswerCache.grows_record
    have hfinds' : Finds s (mid.emitAll as)
        { l with known := (l.known.record (mid.emitAll as).query (mid.emitAll as).answers.answers).2 } := by
      refine ⟨?_, fun b hb => ?_, fun b hb => hst'.served h hl hb⟩
      · rw [path_emitAll, query_emitAll]
        exact hfinds.uncut
      · rw [query_emitAll] at hb
        exact has_emitAll.mpr (.inl (hfinds.found b hb))
    exact ⟨hgrows.trans hgrown, .expanding (by rwa [stage_emitAll]) hfinds'
      (by rwa [rules_emitAll, query_emitAll]) (by rwa [recursive_emitAll, rules_emitAll])
      (hround.emitAll hleft hgrown hderived)⟩
  | repeated hstage =>
    obtain ⟨hfinds, hrules, hrecursive, -⟩ := hcovers.exists_round hstage
    have hfinds' : Finds s { st with round := st.round + 1, rulesLeft := st.rules, roundAdded := false } k :=
      ⟨hfinds.uncut, hfinds.found, hfinds.served⟩
    exact ⟨hgrows, .expanding hstage hfinds' hrules hrecursive (hfinds'.round hk hgrows hrules)⟩
  | finished hstage hleft hdone => exact ⟨hgrows, hcovers.finished h hst hfree hstage hleft hdone⟩
  | ended => exact ⟨hgrows, hcovers⟩

end Covers

/-! ## Drains -/

theorem Completes.drainFreelyWith (hresolve : Completes s queries resolve) (h : s.Coherent queries)
    (hmaintains : Maintains (IsAmong queries) (s.Trusts queries) (fun _ => s.Entails) resolve) :
    Completes s queries fun path q => drainFreelyWith resolve s { query := q, path } := by
  intro path q k t as k' t' hq hk hgives
  obtain ⟨st, k₁, t₁, hfinish, hgives⟩ := gives_bind.mp hgives
  obtain ⟨rfl, rfl, rfl⟩ := gives_pure.mp hgives
  obtain ⟨⟨-, -, hgrows, hcovers, hfailed, hquery, hpath⟩, hended⟩ := finishFreely_induction
    (p := fun st l u => s.Sound queries st ∧
      s.Trusts queries l u.vars ∧ k.known.Grows l.known ∧ Covers s queries k.known st l ∧
      st.failed = false ∧ st.query = q ∧ st.path = path)
    (fun hfree hstep ⟨hst, hl, hgrows, hcovers, hfailed, hquery, hpath⟩ => by
      obtain ⟨hst', hl'⟩ := h.invariant.step hmaintains hst hl hstep
      obtain ⟨hgrows', hcovers'⟩ := hcovers.step h hresolve hmaintains hst hst' hl hgrows hfree hstep
      exact ⟨hst', hl', hgrows', hcovers', hstep.failed_eq.trans hfailed, hstep.query_eq.trans hquery,
        hstep.path_eq.trans hpath⟩)
    hfinish ⟨.start hq, hk, .refl _, .unresolved rfl rfl, rfl, rfl, rfl⟩
  have hterminal : st.stage.isTerminal = true := hended.resolve_left (by simp [hfailed])
  refine ⟨hgrows, fun b hb => ?_⟩
  cases hcovers with
  | complete _ hall => exact hall b (hpath ▸ hquery ▸ hb)
  | unresolved h | lookedUp h | expanding h => rw [h] at hterminal; cases hterminal

end AnswerStream

namespace Setting.Coherent

open AnswerStream

variable {s : Setting} {queries : List AtomicQuery} {q : AtomicQuery} {k k' : Knowledge} {t t' : Supply}
  {as : List Answer} {path : ResolutionPath}

theorem maintains_resolveFreely (h : s.Coherent queries) (n : Nat) :
    Maintains (IsAmong queries) (s.Trusts queries) (fun _ => s.Entails) (resolveFreely s n) :=
  fun hq hk hgives => h.invariant.resolveWithin n hq hk (refines_resolveFreely s n hgives)

/-- A free resolution gives at least what follows from the known answers. -/
theorem completes_resolveFreely (h : s.Coherent queries) (n : Nat) :
    Completes s queries (resolveFreely s n) := by
  induction n with
  | zero =>
    exact Completes.drainFreelyWith (fun _ _ hgives => absurd hgives not_gives_throw) h
      fun _ _ hgives => absurd hgives not_gives_throw
  | succ n ih => exact Completes.drainFreelyWith ih h (h.maintains_resolveFreely n)

/-- A stream that comes to no bound, and that no query is expanded for, gives exactly what follows from the
graph by the rules, whatever was known before. -/
theorem entails_iff_of_gives_drainFreely (h : s.Coherent queries) (hq : q.IsAmong queries)
    (hk : s.Trusts queries k t.vars)
    (hdrain : (drainFreely s { query := q, path := [] }).Gives k t as k' t') {b : Binding} :
    (∃ a ∈ as, a.binding = b) ↔ s.Entails q b := by
  constructor
  · rintro ⟨a, ha, rfl⟩
    exact (h.entails_of_gives_drain hq hk (gives_drain_of_freely hdrain)).2 a ha
  · have hcompletes (n : Nat) : Completes s queries fun path q =>
        drainFreelyWith (resolveFreely s n) s { query := q, path } :=
      Completes.drainFreelyWith (h.completes_resolveFreely n) h (h.maintains_resolveFreely n)
    exact fun hb => (hcompletes _ hq hk hdrain).2 b hb.entailsFrom

/-- In an open world these are exactly the derivable bindings. -/
theorem derivable_iff_of_gives_drainFreely (h : s.Coherent queries)
    (hpolicy : s.config.lookupPolicy = .openWorld) (hreasoning : s.config.reasoningEnabled = true)
    (hq : q.IsAmong queries) (hk : s.Trusts queries k t.vars)
    (hdrain : (drainFreely s { query := q, path := [] }).Gives k t as k' t') {b : Binding} :
    (∃ a ∈ as, a.binding = b) ↔ s.Derivable q b :=
  (h.entails_iff_of_gives_drainFreely hq hk hdrain).trans (entails_iff_derivable hpolicy hreasoning)

end Setting.Coherent

end GraphInference
