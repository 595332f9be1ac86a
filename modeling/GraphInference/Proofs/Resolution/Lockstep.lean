import GraphInference.Proofs.Resolution.Mirror

/-!
# Streams in step

Where two settings mirror each other, streams for mirrored queries go in step: they are at the same stage, on paths
of mirrored queries, with the same rules left and with the same answers but for names (`AnswerStream.Mirrored`). One
step keeps this (`Setting.Mirrors.agrees_step`), and so does a whole stream with the streams under it
(`Setting.Mirrors.agrees_drain`).
-/

namespace GraphInference

open AtomicQuery Binding Resolve

/-! ## Streams -/

namespace AnswerStream

theorem answers_emit_has {st : AnswerStream} {a : Answer} {b : Binding} :
    (st.emit a).answers.Has b ↔ st.answers.Has b ∨ a.binding = b := by
  unfold emit
  rw [← AnswerSet.has_insert]
  dsimp only
  split <;> exact Iff.rfl

theorem roundAdded_emit {st : AnswerStream} {a : Answer} :
    (st.emit a).roundAdded = true ↔ st.roundAdded = true ∨ ¬ st.answers.Has a.binding := by
  have hnew := @AnswerSet.insert_fst st.answers a
  unfold emit
  dsimp only
  split
  · next hnew' => exact iff_of_true rfl (.inr (hnew.mp hnew'))
  · next hnew' => exact (or_iff_left fun h => hnew' (hnew.mpr h)).symm

/-- A round has found something new if one of the answers is. -/
theorem roundAdded_emitAll {st : AnswerStream} {as : List Answer} : (st.emitAll as).roundAdded = true ↔
    st.roundAdded = true ∨ ∃ b, AnswerSet.Has ⟨as⟩ b ∧ ¬ st.answers.Has b := by
  induction as generalizing st with
  | nil => exact (or_iff_left fun ⟨_, ⟨_, ha, _⟩, _⟩ => nomatch ha).symm
  | cons a as ih =>
    have hcons {b : Binding} : AnswerSet.Has ⟨a :: as⟩ b ↔ a.binding = b ∨ AnswerSet.Has ⟨as⟩ b :=
      List.exists_mem_cons_iff ..
    show ((st.emit a).emitAll as).roundAdded = true ↔ _
    simp only [ih, roundAdded_emit, answers_emit_has, hcons]
    constructor
    · rintro ((hold | hnew) | ⟨b, hb, hnew⟩)
      · exact .inl hold
      · exact .inr ⟨_, .inl rfl, hnew⟩
      · exact .inr ⟨b, .inr hb, mt Or.inl hnew⟩
    · rintro (hold | ⟨b, rfl | hb, hnew⟩)
      · exact .inl (.inl hold)
      · exact .inl (.inr hnew)
      · by_cases heq : a.binding = b
        · exact .inl (.inr (heq ▸ hnew))
        · exact .inr ⟨b, hb, not_or.mpr ⟨hnew, heq⟩⟩

/-- The unifiers are of the same rule, under the old names and under the new ones, and do the same to the query. -/
def Matched (s s' : Setting) (u : Unifier) (p : AtomicQuery) (e e' : RuleId × Unifier) : Prop :=
  e'.1 = e.1 ∧ ∃ c c' w, s.rules.get? e.1 = some c ∧ s'.rules.get? e.1 = some c' ∧ c.RenamedBy w c' ∧
    e.2.Tracks u.apply w.apply p e'.2 c.body c'.body

/-- The streams have come equally far with mirrored queries. -/
structure Mirrored (s s' : Setting) (queries queries' : List AtomicQuery) (u : Unifier) (p : AtomicQuery)
    (st st' : AnswerStream) : Prop where
  query : AtomicQuery.Mirrored queries queries' u p st.query st'.query
  path : List.Forall₂ (fun r r' => ∃ w o, AtomicQuery.Mirrored queries queries' w o r r') st.path st'.path
  stage : st'.stage = st.stage
  answers : Images u.apply st.answers.Has st'.answers.Has
  rules : List.Forall₂ (Matched s s' u p) st.rules st'.rules
  rulesLeft : List.Forall₂ (Matched s s' u p) st.rulesLeft st'.rulesLeft
  recursive : st'.recursive = st.recursive
  round : st'.round = st.round
  roundAdded : st'.roundAdded = st.roundAdded
  failed : st'.failed = st.failed

variable {s s' : Setting} {queries queries' : List AtomicQuery} {u : Unifier} {p : AtomicQuery}
  {st st' : AnswerStream} {as as' : List Answer}

theorem Mirrored.emitAll (h : st.Mirrored s s' queries queries' u p st')
    (has : Images u.apply (AnswerSet.Has ⟨as⟩) (AnswerSet.Has ⟨as'⟩)) :
    (st.emitAll as).Mirrored s s' queries queries' u p (st'.emitAll as') where
  query := by simpa using h.query
  path := by simpa using h.path
  stage := by simpa using h.stage
  answers := (h.answers.or has).congr (fun _ => has_emitAll) fun _ => has_emitAll
  rules := by simpa using h.rules
  rulesLeft := by simpa using h.rulesLeft
  recursive := by simpa using h.recursive
  round := by simpa using h.round
  roundAdded := by
    rw [Bool.eq_iff_iff, roundAdded_emitAll, roundAdded_emitAll, h.roundAdded]
    refine or_congr_right ⟨?_, ?_⟩
    · rintro ⟨_, hrenamed, hnew⟩
      obtain ⟨b, hb, rfl⟩ := (has _).mp hrenamed
      exact ⟨b, hb, mt (h.answers.apply_iff h.query.permutes.injective).mpr hnew⟩
    · rintro ⟨b, hb, hnew⟩
      exact ⟨_, (has _).mpr ⟨b, hb, rfl⟩, mt (h.answers.apply_iff h.query.permutes.injective).mp hnew⟩
  failed := by simpa using h.failed

theorem Mirrored.ended_iff (h : st.Mirrored s s' queries queries' u p st') : st'.Ended ↔ st.Ended := by
  rw [Ended, Ended, h.failed, h.stage]

theorem finishWithin_zero {resolve : Resolver} (h : ¬ st.Ended) (hopen : s.transaction.isOpen = true) :
    finishWithin resolve s 0 st = pure st := by
  rw [finishWithin.eq_def]
  exact (if_neg h).trans (if_neg (by simp [hopen]))

end AnswerStream

namespace Setting

open AnswerStream

variable {s s' : Setting} {queries queries' : List AtomicQuery} {u w : Unifier} {p q q' : AtomicQuery}
  {c c' : CompiledRule} {path path' : ResolutionPath} {st st' mid mid' : AnswerStream} {resolve resolve' : Resolver}
  {k k' l l' : Knowledge} {t t' v v' : Supply}

/-- The resolvers find what follows, and mirrored answers to mirrored queries. -/
structure Resolvers (s s' : Setting) (queries queries' : List AtomicQuery) (resolve resolve' : Resolver) : Prop where
  maintains : Maintains (IsAmong queries) (s.Trusts queries) (fun _ => s.Entails) resolve
  maintains_renamed : Maintains (IsAmong queries') (s'.Trusts queries') (fun _ => s'.Entails) resolve'
  agrees : ∀ {u p q q' path path'}, AtomicQuery.Mirrored queries queries' u p q q' →
    List.Forall₂ (fun r r' => ∃ w o, AtomicQuery.Mirrored queries queries' w o r r') path path' →
    Agrees (s.Shares s' queries queries') (resolve path q) (resolve' path' q') fun as as' =>
      Images u.apply (AnswerSet.Has ⟨as⟩) (AnswerSet.Has ⟨as'⟩)

/-- Mirrored streams that have ended stay as they are. -/
theorem agrees_finishWithin_of_stopped (hst : st.Mirrored s s' queries queries' u p st')
    (hstopped : st.Ended ∨ s.transaction.isOpen = false) {n : Nat} :
    Agrees (s.Shares s' queries queries') (finishWithin resolve s n st) (finishWithin resolve' s' n st') fun mid mid' =>
      mid.Mirrored s s' queries queries' u p mid' := by
  by_cases hended : st.Ended
  · rw [finishWithin_of_ended hended, finishWithin_of_ended (hst.ended_iff.mpr hended)]
    exact agrees_pure hst
  · rw [finishWithin_of_closed hended (hstopped.resolve_left hended)]
    exact fun _ _ _ _ _ _ _ _ _ _ _ hgives => absurd hgives not_gives_throw

namespace Mirrors

variable (h : s.Mirrors s' queries queries')

include h

/-- The rules that apply to mirrored queries are the same. -/
theorem forall₂_applicable (hq : AtomicQuery.Mirrored queries queries' u p q q') :
    List.Forall₂ (Matched s s' u p) (s.rules.applicable q.central) (s'.rules.applicable q'.central) := by
  obtain ⟨_, _, hp, hp'⟩ := h.decomposed hq
  rw [hq.copy.applicable_eq, hq.copy_rename.applicable_eq]
  have hrules : List.Forall₂ (fun c c' => (∃ w, c.RenamedBy w c') ∧ c ∈ s.rules.rules ∧ c' ∈ s'.rules.rules)
      s.rules.rules s'.rules.rules :=
    forall₂_imp_of_mem_mem h.rules fun c hc c' hc' hrenamed => ⟨hrenamed, hc, hc'⟩
  refine List.rel_filterMap ?_ hrules
  rintro c c' ⟨⟨w, hrenamed⟩, hc, hc'⟩
  have hrel := hrenamed.rel_unify? hq.permutes hq.tidy hp.central.1 (h.hygienic.rules p hq.mem c hc)
    (h.hygienic_renamed.rules _ hq.mem_rename c' hc')
  dsimp only
  generalize c.unify? p.central = y at hrel ⊢
  generalize c'.unify? (p.rename u).central = y' at hrel ⊢
  cases hrel with
  | none => exact .none
  | some htracks =>
    exact .some ⟨hrenamed.id, c, c', w, h.coherent.built.get?_id hc,
      hrenamed.id ▸ h.coherent_renamed.built.get?_id hc', hrenamed, htracks⟩

theorem cut_iff (hst : st.Mirrored s s' queries queries' u p st') : st'.Cut s' ↔ st.Cut s := by
  unfold Cut
  rw [h.meets_eq hst.query hst.path, h.config, hst.path.length_eq]

theorem agrees_lookup (hq : AtomicQuery.Mirrored queries queries' u p q q') :
    Agrees (s.Shares s' queries queries') (lookup s q) (lookup s' q') fun as as' =>
      Images u.apply (AnswerSet.Has ⟨as⟩) (AnswerSet.Has ⟨as'⟩) := by
  intro k t as l v k' t' as' l' v' hk hlookup hlookup'
  obtain ⟨htrusts, hfound⟩ := h.coherent.found_iff_of_gives_lookup hq.isAmong.1 hk.trusts hlookup
  obtain ⟨htrusts', hfound'⟩ := h.coherent_renamed.found_iff_of_gives_lookup hq.isAmong.2 hk.trusts_renamed hlookup'
  refine ⟨⟨htrusts, htrusts', ?_⟩, (h.images_found hq).congr hfound hfound'⟩
  rw [known_of_gives_lookup hlookup, known_of_gives_lookup hlookup']
  exact hk.classes

/-- The bodies of a rule and of the renamed rule have mirrored joins. -/
theorem agrees_joinBody (hresolve : s.Resolvers s' queries queries' resolve resolve') (hc : c.RenamedBy w c')
    (hmem : c ∈ s.rules.rules) (hmem' : c' ∈ s'.rules.rules)
    (hpath : List.Forall₂ (fun r r' => ∃ w o, AtomicQuery.Mirrored queries queries' w o r r') path path') :
    Agrees (s.Shares s' queries queries') (joinBody resolve path [.empty] c.body)
      (joinBody resolve' path' [.empty] c'.body) fun rows rows' => Images w.apply (JoinRow.Has rows) (JoinRow.Has rows') := by
  rw [joinBody_eq, joinBody_eq, hc.body]
  refine Reasoner.agrees_joinAllWith hc.permutes.injective
    (List.forall₂_map_right_iff.mpr (List.forall₂_same.mpr fun o ho => ?_)) fun b => ?_
  · refine Agrees.bind (R := fun r r' => ∃ i j, r = o.renumber i ∧ r' = (o.rename w).renumber j)
      (agrees_lift (fun _ => rfl) (fun _ => rfl) fun _ _ => ⟨_, _, rfl, rfl⟩) ?_
    rintro _ _ ⟨i, j, rfl, rfl⟩
    have ho' : o.rename w ∈ c'.body := hc.body ▸ List.mem_map_of_mem ho
    have hmirrored : AtomicQuery.Mirrored queries queries' w o o (o.rename w) := ⟨hc.permutes, hc.tidy o ho,
      h.coherent.bodies c hmem o ho, h.coherent_renamed.bodies c' hmem' _ ho', .refl _, .refl _⟩
    exact hresolve.agrees hmirrored.renumber hpath
  · simp [JoinRow.Has, JoinRow.empty]

/-- Joined rows bind what the body binds. -/
theorem binds_of_gives_joinBody (hresolve : s.Resolvers s' queries queries' resolve resolve')
    (hmem : c ∈ s.rules.rules) (hk : s.Trusts queries k t.vars) {rows : List JoinRow}
    (hjoin : (joinBody resolve path [.empty] c.body).Gives k t rows k' t') :
    ∀ row ∈ rows, ∀ v, row.binding.contains v = true → Binds c.body v := by
  obtain ⟨-, hrows, -⟩ := joins_of_gives_joinBody (K := s.Trusts queries) (L := fun _ _ => False) (U := s.Entails)
    (fun o ho i k t as k' t' hk hgives => by
      have hamong : o.IsAmong queries := isAmong_of_mem (h.coherent.bodies c hmem o ho)
      obtain ⟨hk', has⟩ := hresolve.maintains hamong.renumber hk hgives
      exact ⟨hk', fun _ h => h.elim, fun a ha => (IsCopyOf.refl o).renumber.entails_iff.mp (has a ha)⟩)
    hjoin hk
  intro row hrow v hv
  obtain ⟨old, hold, hjoins⟩ := hrows row hrow
  obtain rfl := List.mem_singleton.mp hold
  exact hjoins.binds (fun _ _ _ hb _ => hb.mem_userVars) hv

/-- The same rule derives mirrored answers. -/
theorem agrees_applyRule (hresolve : s.Resolvers s' queries queries' resolve resolve')
    (hst : st.Mirrored s s' queries queries' u p st') {e e' : RuleId × Unifier} (he : Matched s s' u p e e') :
    Agrees (s.Shares s' queries queries') (applyRule resolve s st e.1 e.2) (applyRule resolve' s' st' e'.1 e'.2)
      fun as as' => Images u.apply (AnswerSet.Has ⟨as⟩) (AnswerSet.Has ⟨as'⟩) := by
  obtain ⟨hid, c, c', w, hc, hc', hrenamed, htracks⟩ := he
  have hmem : c ∈ s.rules.rules := List.mem_of_getElem? hc
  intro k t as l v k' t' as' l' v' hk happly happly'
  unfold applyRule at happly happly'
  rw [hc] at happly
  rw [hid, hc'] at happly'
  obtain ⟨rows, k₁, t₁, hjoin, hderive⟩ := gives_bind.mp happly
  obtain ⟨rows', k₁', t₁', hjoin', hderive'⟩ := gives_bind.mp happly'
  obtain ⟨hk₁, himages⟩ := h.agrees_joinBody hresolve hrenamed hmem (List.mem_of_getElem? hc')
    (.cons ⟨u, p, hst.query⟩ hst.path) _ _ _ _ _ _ _ _ _ _ hk hjoin hjoin'
  obtain ⟨rfl, hvars, hyields⟩ := yields_of_gives_derive hderive
  obtain ⟨rfl, hvars', hyields'⟩ := yields_of_gives_derive hderive'
  have hiff {row : JoinRow} (hrow : row ∈ rows) {b : Binding} := h.yields_rename_iff (b := b) hst.query hrenamed
    htracks (h.binds_of_gives_joinBody hresolve hmem hk.trusts hjoin row hrow)
  refine ⟨hvars ▸ hvars' ▸ hk₁, fun b => ⟨fun hb => ?_, ?_⟩⟩
  · obtain ⟨row', hrow', hyield⟩ := (hyields' b).mp hb
    obtain ⟨_, ⟨row, hrow, rfl⟩, heq⟩ := (himages _).mp ⟨row', hrow', rfl⟩
    obtain ⟨d, hd, rfl⟩ := (hiff hrow).mp (heq ▸ hyield)
    exact ⟨d, (hyields d).mpr ⟨row, hrow, hd⟩, rfl⟩
  · rintro ⟨d, hd, rfl⟩
    obtain ⟨row, hrow, hyield⟩ := (hyields d).mp hd
    obtain ⟨row', hrow', heq⟩ := (himages _).mpr ⟨_, ⟨row, hrow, rfl⟩, rfl⟩
    exact (hyields' _).mpr ⟨row', hrow', heq ▸ (hiff hrow).mpr ⟨d, hyield, rfl⟩⟩

/-- Recording the answers of mirrored streams leaves the same known. -/
theorem forall₂_record (hst : st.Mirrored s s' queries queries' u p st')
    (hentails : ∀ b, st.answers.Has b → s.Entails st.query b)
    (hk : List.Forall₂ (AnswerClass.Mirrored queries queries') k.known.classes k'.known.classes) :
    List.Forall₂ (AnswerClass.Mirrored queries queries') (k.known.record st.query st.answers.answers).2.classes
      (k'.known.record st'.query st'.answers.answers).2.classes :=
  h.forall₂_recordAmong hst.query hst.answers (fun a ha _ hv => (hentails _ ⟨a, ha, rfl⟩).mem_userVars hv) hk

/-! ## Steps -/

theorem step_unresolved (hst : st.Mirrored s s' queries queries' u p st') (hstage : st.stage = .unresolved)
    (hk : s.Shares s' queries queries' k t.vars k' t'.vars) (hsound : s.Sound queries mid)
    (hstep : (step resolve s st).Gives k t mid l v) (hstep' : (step resolve' s' st').Gives k' t' mid' l' v') :
    List.Forall₂ (AnswerClass.Mirrored queries queries') l.known.classes l'.known.classes ∧
      mid.Mirrored s s' queries queries' u p mid' := by
  unfold AnswerStream.step at hstep hstep'
  rw [hst.stage] at hstep'
  rw [hstage] at hstep hstep'
  dsimp only at hstep hstep'
  by_cases hcut : st.path.meets st.query = true ∨ s.config.maxRecursionDepth ≤ st.path.length
  · have hcut' : st'.path.meets st'.query = true ∨ s'.config.maxRecursionDepth ≤ st'.path.length :=
      (h.cut_iff hst).mpr hcut
    rw [if_pos hcut] at hstep
    rw [if_pos hcut'] at hstep'
    obtain ⟨as, _, _, has, hstep⟩ := gives_bind.mp hstep
    obtain ⟨as', _, _, has', hstep'⟩ := gives_bind.mp hstep'
    obtain ⟨rfl, rfl, rfl⟩ := gives_knownAnswers.mp has
    obtain ⟨rfl, rfl, rfl⟩ := gives_knownAnswers.mp has'
    obtain ⟨rfl, rfl, rfl⟩ := gives_pure.mp hstep
    obtain ⟨rfl, rfl, rfl⟩ := gives_pure.mp hstep'
    have hserves {known : AnswerCache} {q : AtomicQuery} (b : Binding) :
        AnswerSet.Has ⟨(known.get? q).getD []⟩ b ↔ known.Serves q b := by
      unfold AnswerCache.Serves AnswerSet.Has
      cases known.get? q <;> simp
    exact ⟨hk.classes, { hst.emitAll ((h.images_serves hk hst.query).congr hserves hserves) with stage := rfl }⟩
  · have hcut' : ¬ (st'.path.meets st'.query = true ∨ s'.config.maxRecursionDepth ≤ st'.path.length) :=
      mt (h.cut_iff hst).mp hcut
    rw [if_neg hcut] at hstep
    rw [if_neg hcut'] at hstep'
    obtain ⟨as, k₁, t₁, hlookup, hstep⟩ := gives_bind.mp hstep
    obtain ⟨as', k₁', t₁', hlookup', hstep'⟩ := gives_bind.mp hstep'
    obtain ⟨hk₁, has⟩ := h.agrees_lookup hst.query _ _ _ _ _ _ _ _ _ _ hk hlookup hlookup'
    obtain ⟨_, _, _, hrecord, hstep⟩ := gives_bind.mp hstep
    obtain ⟨_, _, _, hrecord', hstep'⟩ := gives_bind.mp hstep'
    obtain ⟨rfl, rfl⟩ := gives_record.mp hrecord
    obtain ⟨rfl, rfl⟩ := gives_record.mp hrecord'
    obtain ⟨rfl, rfl, rfl⟩ := gives_pure.mp hstep
    obtain ⟨rfl, rfl, rfl⟩ := gives_pure.mp hstep'
    have hemit := hst.emitAll has
    exact ⟨h.forall₂_record hemit hsound.answers hk₁.classes, { hemit with stage := rfl }⟩

theorem step_lookupAttempted (hst : st.Mirrored s s' queries queries' u p st') (hstage : st.stage = .lookupAttempted)
    (hk : s.Shares s' queries queries' k t.vars k' t'.vars)
    (hstep : (step resolve s st).Gives k t mid l v) (hstep' : (step resolve' s' st').Gives k' t' mid' l' v') :
    List.Forall₂ (AnswerClass.Mirrored queries queries') l.known.classes l'.known.classes ∧
      mid.Mirrored s s' queries queries' u p mid' := by
  have hrules := h.forall₂_applicable hst.query
  have hempty : (s'.rules.applicable st'.query.central).isEmpty = (s.rules.applicable st.query.central).isEmpty := by
    rw [Bool.eq_iff_iff, List.isEmpty_iff_length_eq_zero, List.isEmpty_iff_length_eq_zero, hrules.length_eq]
  have hanswers : st'.answers.answers.isEmpty = st.answers.answers.isEmpty := by
    have hnone {set : AnswerSet} : set.answers.isEmpty = true ↔ ¬ ∃ b, set.Has b := by
      rw [List.isEmpty_iff, List.eq_nil_iff_forall_not_mem]
      exact ⟨fun h ⟨_, a, ha, _⟩ => h a ha, fun h a ha => h ⟨_, a, ha, rfl⟩⟩
    rw [Bool.eq_iff_iff, hnone, hnone, hst.answers.exists_iff]
  have hrecursive : (s'.rules.applicable st'.query.central).any (fun e => s'.rules.isRecursive e.1) =
      (s.rules.applicable st.query.central).any fun e => s.rules.isRecursive e.1 := by
    rw [RuleSet.isRecursive_eq_of_renamedBy h.rules]
    generalize s.rules.applicable st.query.central = es at hrules
    generalize s'.rules.applicable st'.query.central = es' at hrules
    induction hrules with
    | nil => rfl
    | cons he _ ih => rw [List.any_cons, List.any_cons, he.1, ih]
  unfold AnswerStream.step at hstep hstep'
  rw [hst.stage] at hstep'
  rw [hstage] at hstep hstep'
  dsimp only at hstep hstep'
  rw [h.config, hanswers, hempty, hrecursive] at hstep'
  split at hstep
  · next hunruled =>
    rw [if_pos hunruled] at hstep'
    obtain ⟨rfl, rfl, rfl⟩ := gives_pure.mp hstep
    obtain ⟨rfl, rfl, rfl⟩ := gives_pure.mp hstep'
    exact ⟨hk.classes, { hst with stage := rfl }⟩
  · next hruled =>
    rw [if_neg hruled] at hstep'
    obtain ⟨rfl, rfl, rfl⟩ := gives_pure.mp hstep
    obtain ⟨rfl, rfl, rfl⟩ := gives_pure.mp hstep'
    exact ⟨hk.classes, { hst with
      stage := rfl, rules := hrules, rulesLeft := hrules, recursive := rfl, roundAdded := rfl }⟩

theorem step_needsRuleExpansion (hresolve : s.Resolvers s' queries queries' resolve resolve')
    (hst : st.Mirrored s s' queries queries' u p st') (hstage : st.stage = .needsRuleExpansion)
    (hk : s.Shares s' queries queries' k t.vars k' t'.vars) (hsound : s.Sound queries mid)
    (hstep : (step resolve s st).Gives k t mid l v) (hstep' : (step resolve' s' st').Gives k' t' mid' l' v') :
    List.Forall₂ (AnswerClass.Mirrored queries queries') l.known.classes l'.known.classes ∧
      mid.Mirrored s s' queries queries' u p mid' := by
  unfold AnswerStream.step at hstep hstep'
  rw [hst.stage] at hstep'
  rw [hstage] at hstep hstep'
  dsimp only at hstep hstep'
  have hleft := hst.rulesLeft
  cases hrules : st.rulesLeft with
  | nil =>
    rw [hrules] at hstep hleft
    rw [List.forall₂_nil_left_iff.mp hleft] at hstep'
    dsimp only at hstep hstep'
    rw [hst.recursive, hst.roundAdded, hst.round, h.config] at hstep'
    split at hstep
    · next hrepeated =>
      rw [if_pos hrepeated] at hstep'
      obtain ⟨rfl, rfl, rfl⟩ := gives_pure.mp hstep
      obtain ⟨rfl, rfl, rfl⟩ := gives_pure.mp hstep'
      exact ⟨hk.classes, { hst with
        stage := rfl, recursive := rfl, round := rfl, rulesLeft := hst.rules, roundAdded := rfl }⟩
    · next hfinished =>
      rw [if_neg hfinished] at hstep'
      obtain ⟨rfl, rfl, rfl⟩ := gives_pure.mp hstep
      obtain ⟨rfl, rfl, rfl⟩ := gives_pure.mp hstep'
      exact ⟨hk.classes, { hst with
        stage := rfl, recursive := rfl, round := rfl, rulesLeft := .nil, roundAdded := rfl }⟩
  | cons e rest =>
    obtain ⟨id, y⟩ := e
    rw [hrules] at hstep hleft
    obtain ⟨⟨id', y'⟩, rest', he, hrest, hrules'⟩ := List.forall₂_cons_left_iff.mp hleft
    rw [hrules'] at hstep'
    dsimp only at hstep hstep'
    have hshorter : AnswerStream.Mirrored s s' queries queries' u p
        { st with stage := .needsRuleExpansion, rulesLeft := rest }
        { st' with stage := .needsRuleExpansion, rulesLeft := rest' } := { hst with stage := rfl, rulesLeft := hrest }
    obtain ⟨as, k₁, t₁, happly, hstep⟩ := gives_bind.mp hstep
    obtain ⟨as', k₁', t₁', happly', hstep'⟩ := gives_bind.mp hstep'
    obtain ⟨hk₁, has⟩ := h.agrees_applyRule hresolve hst he _ _ _ _ _ _ _ _ _ _ hk happly happly'
    obtain ⟨_, _, _, hrecord, hstep⟩ := gives_bind.mp hstep
    obtain ⟨_, _, _, hrecord', hstep'⟩ := gives_bind.mp hstep'
    obtain ⟨rfl, rfl⟩ := gives_record.mp hrecord
    obtain ⟨rfl, rfl⟩ := gives_record.mp hrecord'
    obtain ⟨rfl, rfl, rfl⟩ := gives_pure.mp hstep
    obtain ⟨rfl, rfl, rfl⟩ := gives_pure.mp hstep'
    have hmid := hshorter.emitAll has
    exact ⟨h.forall₂_record hmid hsound.answers hk₁.classes, hmid⟩

/-- One step keeps mirrored streams mirrored. -/
theorem agrees_step (hresolve : s.Resolvers s' queries queries' resolve resolve')
    (hst : st.Mirrored s s' queries queries' u p st') (hsound : s.Sound queries st) (hsound' : s'.Sound queries' st') :
    Agrees (s.Shares s' queries queries') (step resolve s st) (step resolve' s' st') fun mid mid' =>
      mid.Mirrored s s' queries queries' u p mid' ∧ s.Sound queries mid ∧ s'.Sound queries' mid' := by
  intro k t mid l v k' t' mid' l' v' hk hstep hstep'
  obtain ⟨hmid, htrusts⟩ :=
    h.coherent.invariant.step hresolve.maintains hsound hk.trusts (steps_of_gives hstep)
  obtain ⟨hmid', htrusts'⟩ :=
    h.coherent_renamed.invariant.step hresolve.maintains_renamed hsound' hk.trusts_renamed (steps_of_gives hstep')
  suffices hgoal : List.Forall₂ (AnswerClass.Mirrored queries queries') l.known.classes l'.known.classes ∧
      mid.Mirrored s s' queries queries' u p mid' from
    ⟨⟨htrusts, htrusts', hgoal.1⟩, hgoal.2, hmid, hmid'⟩
  cases hstage : st.stage with
  | unresolved => exact h.step_unresolved hst hstage hk hmid hstep hstep'
  | lookupAttempted => exact h.step_lookupAttempted hst hstage hk hstep hstep'
  | needsRuleExpansion => exact h.step_needsRuleExpansion hresolve hst hstage hk hmid hstep hstep'
  | _ =>
    unfold AnswerStream.step at hstep hstep'
    rw [hst.stage] at hstep'
    rw [hstage] at hstep hstep'
    obtain ⟨rfl, rfl, rfl⟩ := gives_pure.mp hstep
    obtain ⟨rfl, rfl, rfl⟩ := gives_pure.mp hstep'
    exact ⟨hk.classes, hst⟩

/-! ## Whole streams -/

/-- Streams that are mirrored at the start are mirrored at the end. -/
theorem agrees_finishWithin (hresolve : s.Resolvers s' queries queries' resolve resolve') (n : Nat)
    (hst : st.Mirrored s s' queries queries' u p st') (hsound : s.Sound queries st) (hsound' : s'.Sound queries' st') :
    Agrees (s.Shares s' queries queries') (finishWithin resolve s n st) (finishWithin resolve' s' n st') fun mid mid' =>
      mid.Mirrored s s' queries queries' u p mid' := by
  induction n generalizing st st' with
  | zero =>
    by_cases hstopped : st.Ended ∨ s.transaction.isOpen = false
    · exact agrees_finishWithin_of_stopped hst hstopped
    obtain ⟨hended, hopen⟩ := not_or.mp hstopped
    have hopen : s.transaction.isOpen = true := Bool.eq_true_of_not_eq_false hopen
    rw [finishWithin_zero hended hopen, finishWithin_zero (mt hst.ended_iff.mp hended) (h.transaction ▸ hopen)]
    exact agrees_pure hst
  | succ n ih =>
    by_cases hstopped : st.Ended ∨ s.transaction.isOpen = false
    · exact agrees_finishWithin_of_stopped hst hstopped
    obtain ⟨hended, hopen⟩ := not_or.mp hstopped
    have hopen : s.transaction.isOpen = true := Bool.eq_true_of_not_eq_false hopen
    rw [finishWithin_succ hended hopen, finishWithin_succ (mt hst.ended_iff.mp hended) (h.transaction ▸ hopen)]
    refine (h.agrees_step hresolve hst hsound hsound').bind ?_
    rintro mid mid' ⟨hmid, hsound, hsound'⟩
    exact ih hmid hsound hsound'

/-- Streams of mirrored resolvers are such resolvers. -/
theorem resolvers_drainWith (hresolve : s.Resolvers s' queries queries' resolve resolve') :
    s.Resolvers s' queries queries' (fun path q => drainWith resolve s { query := q, path })
      fun path q => drainWith resolve' s' { query := q, path } where
  maintains := h.coherent.invariant.drainWith hresolve.maintains
  maintains_renamed := h.coherent_renamed.invariant.drainWith hresolve.maintains_renamed
  agrees := by
    intro u p q q' path path' hq hpath
    have hst : AnswerStream.Mirrored s s' queries queries' u p { query := q, path } { query := q', path := path' } := {
      query := hq, path := hpath, stage := rfl, rules := .nil, rulesLeft := .nil, recursive := rfl, round := rfl,
      roundAdded := rfl, failed := rfl
      answers := .none (fun _ ⟨_, ha, _⟩ => nomatch ha) fun _ ⟨_, ha, _⟩ => nomatch ha }
    have hbound : stepBound s' = stepBound s := by
      rw [stepBound, stepBound, h.config, RuleSet.size, RuleSet.size, h.rules.length_eq]
    unfold drainWith
    rw [hbound]
    exact (h.agrees_finishWithin hresolve _ hst (.start hq.isAmong.1) (.start hq.isAmong.2)).bind
      fun _ _ hmid => agrees_pure hmid.answers

theorem resolvers_resolveWithin (n : Nat) :
    s.Resolvers s' queries queries' (resolveWithin s n) (resolveWithin s' n) := by
  induction n with
  | zero =>
    have hnothing : s.Resolvers s' queries queries' (fun _ _ => return []) fun _ _ => return [] :=
      ⟨fun _ hk h => by
        obtain ⟨rfl, rfl, rfl⟩ := gives_pure.mp h
        exact ⟨hk, fun _ ha => nomatch ha⟩, fun _ hk h => by
        obtain ⟨rfl, rfl, rfl⟩ := gives_pure.mp h
        exact ⟨hk, fun _ ha => nomatch ha⟩,
        fun _ _ => agrees_pure (.none (fun _ ⟨_, ha, _⟩ => nomatch ha) fun _ ⟨_, ha, _⟩ => nomatch ha)⟩
    exact h.resolvers_drainWith hnothing
  | succ n ih => exact h.resolvers_drainWith ih

/-- Whole streams give mirrored queries mirrored answers. -/
theorem agrees_drain (hq : AtomicQuery.Mirrored queries queries' u p q q') :
    Agrees (s.Shares s' queries queries') ((Reasoner.stream q).drain s) ((Reasoner.stream q').drain s')
      fun as as' => Images u.apply (AnswerSet.Has ⟨as⟩) (AnswerSet.Has ⟨as'⟩) := by
  have hresolve := h.resolvers_resolveWithin (s.config.maxRecursionDepth - 1)
  have hbody : bodyResolver s' (Reasoner.stream q') = resolveWithin s' (s.config.maxRecursionDepth - 1) := by
    rw [bodyResolver, h.config]
    rfl
  unfold drain
  rw [hbody]
  exact (h.resolvers_drainWith hresolve).agrees hq .nil

end Mirrors

end Setting

end GraphInference
