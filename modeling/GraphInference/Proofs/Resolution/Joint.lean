import GraphInference.Proofs.Answer.Joins
import GraphInference.Proofs.Query.Lookup
import GraphInference.Proofs.Query.Scope
import GraphInference.Proofs.Resolution.Steps
import GraphInference.Resolution.Reasoner

/-!
# Resolution without rules

With reasoning disabled a reasoner looks its atomic queries up one by one, projects the answers to the
user-defined variables and joins them. It finds the bindings that combine the queries
(`Reasoner.exists_resolve`), which are those of one traversal of all the queries' patterns together unless
two queries share a variable that is not user-defined: `Reasoner.resolve_eq_execute_joint`.
-/

namespace GraphInference

/-! ## What look-ups leave behind -/

/-- The queries name no variable that is yet to be generated, and what is kept under their texts are
plans of them. -/
def Knowledge.Settled (k : Knowledge) (s : Supply) (queries : List AtomicQuery) : Prop :=
  ∀ q ∈ queries, q.FreshFrom s ∧ k.KeepsPlansOf q

theorem AtomicQuery.FreshFrom.mono {q : AtomicQuery} {s s' : Supply} (h : q.FreshFrom s)
    (hle : s.vars ≤ s'.vars) : q.FreshFrom s' :=
  fun k hk => h k (hle.trans hk)

namespace Resolve

variable {α : Type} {k k' : Knowledge} {s s' : Supply} {q : AtomicQuery} {queries : List AtomicQuery}
  {g : Graph} {st : Setting}

/-- Planning keeps at most the new plan besides what was kept. -/
theorem entries_of_gives_plan (hg : g.WellFormed) {c : Conjunction} {p : Program}
    (h : (plan c).Gives k s p k' s') : s.vars ≤ s'.vars ∧ ∀ e ∈ k'.programs.entries,
      e ∈ k.programs.entries ∨ e.1 = c.text ∧ (Planner.planWithBound c .empty).Gives s e.2 s' := by
  rcases ProgramCache.cases_of_plan (run_of_gives_plan h) with ⟨e, -, -, rfl, hentries⟩ |
    ⟨-, hplan, hentries⟩
  · exact ⟨le_rfl, fun e he => .inl (hentries e he)⟩
  · obtain ⟨sets, hsets, -⟩ := Planner.order_of_gives hplan
    refine ⟨(FragmentSet.conveys_of_gives hg hsets).le, fun e he => ?_⟩
    refine (hentries e he).imp_right fun ⟨hkey, hp⟩ => ⟨hkey, ?_⟩
    rw [← Except.ok.inj hp]
    exact hplan

theorem settled_of_gives_plan (hg : g.WellFormed) {p : Program}
    (htexts : ∀ r ∈ queries, r.text = q.text → r.toConjunction = q.toConjunction)
    (hs : k.Settled s queries) (h : (plan q.toConjunction).Gives k s p k' s') : k'.Settled s' queries := by
  obtain ⟨hle, hentries⟩ := entries_of_gives_plan hg h
  intro r hr
  obtain ⟨hfresh, hkeeps⟩ := hs r hr
  refine ⟨hfresh.mono hle, fun e he htext => ?_⟩
  rcases hentries e he with he | ⟨heq, hplan⟩
  · exact hkeeps e he htext
  · exact ⟨s, s', hfresh, htexts r hr (htext.symm.trans heq) ▸ hplan⟩

/-- A look-up leaves what planning leaves, if it plans at all. -/
theorem exists_plan_of_gives_lookup {as : List Answer} (h : (lookup st q).Gives k s as k' s') :
    k' = k ∧ s' = s ∨ ∃ p t, (plan q.toConjunction).Gives k s p k' t ∧ s'.vars = t.vars := by
  unfold lookup at h
  dsimp only at h
  split at h
  · obtain ⟨-, rfl, rfl⟩ := gives_pure.mp h
    exact .inl ⟨rfl, rfl⟩
  · obtain ⟨p, k₁, s₁, hp, h⟩ := gives_bind.mp h
    obtain ⟨bs, k₂, s₂, hbs, h⟩ := gives_bind.mp h
    obtain ⟨-, rfl, rfl⟩ := gives_liftExcept.mp hbs
    obtain ⟨rfl, hvars⟩ := mapM_preserves (p := fun l t => l = k₁ ∧ t.vars = s₁.vars)
      (fun b l t a l' t' ha hl => by
        obtain ⟨made, l₁, t₁, hmade, ha⟩ := gives_bind.mp ha
        obtain ⟨-, rfl, rfl⟩ := gives_pure.mp ha
        obtain ⟨hrun, rfl⟩ := gives_lift.mp hmade
        obtain ⟨-, rfl⟩ := Prod.mk.inj hrun
        exact hl) h ⟨rfl, rfl⟩
    exact .inr ⟨p, s₁, hp, hvars⟩

theorem settled_of_gives_lookup (hg : g.WellFormed) {as : List Answer}
    (htexts : ∀ r ∈ queries, r.text = q.text → r.toConjunction = q.toConjunction)
    (hs : k.Settled s queries) (h : (lookup st q).Gives k s as k' s') : k'.Settled s' queries := by
  rcases exists_plan_of_gives_lookup h with ⟨rfl, rfl⟩ | ⟨p, t, hp, hvars⟩
  · exact hs
  · exact fun r hr => (settled_of_gives_plan hg htexts hs hp r hr).imp_left (·.mono hvars.ge)

/-- A look-up keeps at most a plan of its query besides what was kept. -/
theorem entries_of_gives_lookup (hg : g.WellFormed) {as : List Answer}
    (h : (lookup st q).Gives k s as k' s') :
    ∀ e ∈ k'.programs.entries, e ∈ k.programs.entries ∨ e.1 = q.text := by
  rcases exists_plan_of_gives_lookup h with ⟨rfl, rfl⟩ | ⟨p, t, hp, -⟩
  · exact fun _ he => .inl he
  · exact fun e he => ((entries_of_gives_plan hg hp).2 e he).imp_right And.left

end Resolve

/-! ## Streams without rules -/

namespace AnswerStream

open Resolve

variable {st : Setting} {q : AtomicQuery} {as : List Answer} {k k' : Knowledge} {s s' : Supply}

theorem answers_emitAll (stream : AnswerStream) (as : List Answer) :
    (stream.emitAll as).answers = as.foldl (fun s a => (s.insert a).2) stream.answers := by
  induction as generalizing stream with
  | nil => rfl
  | cons a as ih =>
    rw [emitAll, List.foldl_cons, ← emitAll, ih, List.foldl_cons, emit]
    dsimp only
    split <;> rfl

variable {resolve : Resolver} {stream stream' : AnswerStream}

theorem gives_finishWithin_of_isTerminal (h : stream.stage.isTerminal = true) (n : Nat) :
    (finishWithin resolve st n stream).Gives k s stream k s := by
  rw [finishWithin.eq_def]
  dsimp only
  rw [if_pos (.inr h)]
  exact gives_pure.mpr ⟨rfl, rfl, rfl⟩

theorem gives_finishWithin_succ (hopen : st.transaction.isOpen = true) (hfailed : stream.failed = false)
    (hstage : stream.stage.isTerminal = false) {n : Nat} {k₁ : Knowledge} {s₁ : Supply}
    {mid : AnswerStream} (hstep : (step resolve st stream).Gives k s mid k₁ s₁)
    (h : (finishWithin resolve st n mid).Gives k₁ s₁ stream' k' s') :
    (finishWithin resolve st (n + 1) stream).Gives k s stream' k' s' := by
  rw [finishWithin.eq_def]
  dsimp only
  rw [if_neg (by simp [hfailed, hstage]), if_neg (by simp [hopen])]
  exact gives_bind.mpr ⟨mid, k₁, s₁, hstep, h⟩

/-- A stream that is not cut short looks its query up. -/
theorem gives_step_unresolved (hstage : stream.stage = .unresolved)
    (hcut : ¬ (stream.path.meets stream.query = true ∨
      st.config.maxRecursionDepth ≤ stream.path.length))
    (h : (lookup st stream.query).Gives k s as k' s') :
    (step resolve st stream).Gives k s { stream.emitAll as with stage := .lookupAttempted }
      { k' with known := (k'.known.record (stream.emitAll as).query
        (stream.emitAll as).answers.answers).2 } s' := by
  unfold step
  rw [hstage]
  dsimp only
  rw [if_neg hcut]
  exact gives_bind.mpr ⟨as, k', s', h, gives_bind.mpr ⟨(), _, s', rfl, gives_pure.mpr ⟨rfl, rfl, rfl⟩⟩⟩

theorem gives_step_lookupAttempted (hstage : stream.stage = .lookupAttempted)
    (hoff : st.config.reasoningEnabled = false) :
    (step resolve st stream).Gives k s { stream with stage := .resolvedByLookup } k s := by
  unfold step
  rw [hstage]
  dsimp only
  rw [if_pos (.inl (by simp [hoff]))]
  exact gives_pure.mpr ⟨rfl, rfl, rfl⟩

/-- Without rules a stream ends after its look-up and has the bindings that were looked up. -/
theorem exists_drain (hopen : st.transaction.isOpen = true)
    (hdepth : 0 < st.config.maxRecursionDepth) (hoff : st.config.reasoningEnabled = false)
    (h : (lookup st q).Gives k s as k' s') :
    ∃ bs known, ((Reasoner.stream q).drain st).Gives k s bs { k' with known } s' ∧
      ∀ b, (∃ a ∈ bs, a.binding = b) ↔ ∃ a ∈ as, a.binding = b := by
  let found := (Reasoner.stream q).emitAll as
  have hcut : ¬ ((Reasoner.stream q).path.meets (Reasoner.stream q).query = true ∨
      st.config.maxRecursionDepth ≤ (Reasoner.stream q).path.length) := by
    rintro (h | h)
    · cases h
    · exact absurd h (Nat.not_le.mpr hdepth)
  have hfailed : ({ found with stage := .lookupAttempted } : AnswerStream).failed = false :=
    failed_emitAll _ as
  have hfinish := gives_finishWithin_succ hopen rfl rfl (gives_step_unresolved rfl hcut h)
    (gives_finishWithin_succ hopen hfailed rfl (gives_step_lookupAttempted rfl hoff)
      (@gives_finishWithin_of_isTerminal st _ _ (bodyResolver st (Reasoner.stream q)) _ rfl
        (st.config.maxFixpointIterations * (st.rules.size + 1))))
  have hbound : stepBound st = st.config.maxFixpointIterations * (st.rules.size + 1) + 1 + 1 := by
    unfold stepBound
    omega
  rw [← hbound] at hfinish
  refine ⟨found.answers.answers, (k'.known.record found.query found.answers.answers).2,
    gives_bind.mpr ⟨{ found with stage := .resolvedByLookup }, _, _, hfinish,
      gives_pure.mpr ⟨rfl, rfl, rfl⟩⟩, fun b => ?_⟩
  have hhas : found.answers = as.foldl (fun s a => (s.insert a).2) {} := answers_emitAll _ as
  show found.answers.Has b ↔ _
  rw [hhas, AnswerSet.has_foldl_insert]
  exact or_iff_right fun ⟨a, ha, _⟩ => nomatch ha

end AnswerStream

/-! ## Joined look-ups -/

/-- A look-up can plan the query and shows the user-defined variables that the query names. -/
structure AtomicQuery.Plannable (q : AtomicQuery) : Prop where
  plain : q.Plain
  searchable : q.Searchable
  statements : q.toConjunction.statements ≠ []
  vars : ∀ v, v.userDefined = true → q.Names v → v ∈ q.userVars

namespace Reasoner

open Resolve Decomposition

variable {st : Setting} {c : Conjunction} {d : DecomposedQuery} {q : AtomicQuery}
  {queries : List AtomicQuery} {k k' : Knowledge} {s s' : Supply}

/-- Without rules the answers to a query are what its matches bind of the user-defined variables. -/
theorem exists_drain_combines (hg : st.transaction.graph.Reachable)
    (hopen : st.transaction.isOpen = true) (hdepth : 0 < st.config.maxRecursionDepth)
    (hoff : st.config.reasoningEnabled = false) (hplannable : q.Plannable)
    (htexts : ∀ r ∈ queries, r.text = q.text → r.toConjunction = q.toConjunction)
    (hq : q ∈ queries) (hs : k.Settled s queries) :
    ∃ as k' s', ((stream q).drain st).Gives k s as k' s' ∧ k'.Settled s' queries ∧
      ∀ b, (∃ a ∈ as, a.binding = b) ↔ Combines st.transaction.graph [q] b := by
  obtain ⟨hfresh, hkeeps⟩ := hs q hq
  obtain ⟨found, k₁, s₁, ms, hlookup, -, hms, hfound⟩ := exists_lookup hg hplannable.plain hkeeps hfresh
    (.inr ⟨hopen, hplannable.searchable⟩)
  obtain ⟨as, known, hdrain, has⟩ := AnswerStream.exists_drain hopen hdepth hoff hlookup
  have hsettled : k₁.Settled s₁ queries := settled_of_gives_lookup hg.wellFormed htexts hs hlookup
  refine ⟨as, _, s₁, hdrain, hsettled, fun b => ?_⟩
  have hrestrict {m : Binding} (hm : q.IsMatch st.transaction.graph m) :
      m.restrict q.userVars.contains = m.restrict Var.userDefined := by
    refine SortedMap.ext_find? fun v => Option.ext fun i => ?_
    rw [hm.find?_restrict_user, SortedMap.find?_restrict]
    split
    · next hv =>
      have huser := (SortedSet.mem_filter.mp (SortedSet.contains_iff.mp hv)).2
      refine ⟨fun h => ⟨huser, (hm.domain v).mp (SortedMap.contains_iff_isSome.mpr ⟨i, h⟩), h⟩,
        fun h => h.2.2⟩
    · next hv =>
      refine iff_of_false (fun h => nomatch h) fun ⟨huser, hnames, _⟩ => hv ?_
      exact SortedSet.contains_iff.mpr (hplannable.vars v huser hnames)
  have hmap : (∃ a ∈ found, a.binding = b) ↔ b ∈ found.map Answer.binding := List.mem_map.symm
  rw [has, hmap, hfound, List.mem_map, combines_singleton]
  refine exists_congr fun m => ?_
  rw [hms, and_iff_right hplannable.statements]
  exact and_congr_right fun hm => by rw [hrestrict hm]

/-- The rows that are joined from the answers to the queries combine the queries. -/
theorem exists_joinAll (hg : st.transaction.graph.Reachable)
    (hopen : st.transaction.isOpen = true) (hdepth : 0 < st.config.maxRecursionDepth)
    (hoff : st.config.reasoningEnabled = false) (hplannable : ∀ q ∈ queries, q.Plannable)
    (htexts : ∀ q ∈ queries, ∀ r ∈ queries, r.text = q.text → r.toConjunction = q.toConjunction)
    {done rest : List AtomicQuery} (hrest : ∀ q ∈ rest, q ∈ queries) (hs : k.Settled s queries)
    {rows : List JoinRow}
    (hrows : ∀ b, (∃ row ∈ rows, row.binding = b) ↔ Combines st.transaction.graph done b) :
    ∃ rows' k' s', (joinAll st rows rest).Gives k s rows' k' s' ∧
      ∀ b, (∃ row ∈ rows', row.binding = b) ↔ Combines st.transaction.graph (done ++ rest) b := by
  induction rest generalizing done rows k s with
  | nil => exact ⟨rows, k, s, gives_pure.mpr ⟨rfl, rfl, rfl⟩, by simpa using hrows⟩
  | cons q rest ih =>
    obtain ⟨hq, hrest⟩ := List.forall_mem_cons.mp hrest
    obtain ⟨as, k₁, s₁, hdrain, hs₁, has⟩ :=
      exists_drain_combines hg hopen hdepth hoff (hplannable q hq) (htexts q hq) hq hs
    have hjoin (b : Binding) : (∃ row ∈ JoinRow.join rows as, row.binding = b) ↔
        Combines st.transaction.graph (done ++ [q]) b := by
      rw [JoinRow.exists_join_iff, combines_concat]
      constructor
      · rintro ⟨row, hrow, a, ha, hmerge⟩
        obtain ⟨m, hm, hma⟩ := combines_singleton.mp ((has a.binding).mp ⟨a, ha, rfl⟩)
        exact ⟨row.binding, m, (hrows _).mp ⟨row, hrow, rfl⟩, hm, hma ▸ hmerge⟩
      · rintro ⟨left, m, hleft, hm, hmerge⟩
        obtain ⟨row, hrow, rfl⟩ := (hrows left).mpr hleft
        obtain ⟨a, ha, hma⟩ := (has _).mpr (combines_singleton.mpr ⟨m, hm, rfl⟩)
        exact ⟨row, hrow, a, ha, hma ▸ hmerge⟩
    rw [joinAll]
    by_cases hempty : (JoinRow.join rows as).isEmpty = true
    · refine ⟨[], k₁, s₁, gives_bind.mpr ⟨as, k₁, s₁, hdrain, ?_⟩, fun b => ?_⟩
      · dsimp only
        rw [if_pos hempty]
        exact gives_pure.mpr ⟨rfl, rfl, rfl⟩
      · refine iff_of_false (fun ⟨row, hrow, _⟩ => nomatch hrow) fun h => ?_
        rw [← List.singleton_append, ← List.append_assoc] at h
        obtain ⟨left, hleft⟩ := h.exists_of_append
        obtain ⟨row, hrow, -⟩ := (hjoin left).mpr hleft
        rw [List.isEmpty_iff.mp hempty] at hrow
        cases hrow
    · obtain ⟨rows', k₂, s₂, hrest, hrows'⟩ := ih hrest hs₁ hjoin
      refine ⟨rows', k₂, s₂, gives_bind.mpr ⟨as, k₁, s₁, hdrain, ?_⟩, fun b => ?_⟩
      · dsimp only
        rw [if_neg hempty]
        exact hrest
      · rw [hrows', List.append_assoc, List.singleton_append]

/-- The answers that are made of the joined rows combine all queries. -/
theorem exists_joined (hg : st.transaction.graph.Reachable)
    (hopen : st.transaction.isOpen = true) (hdepth : 0 < st.config.maxRecursionDepth)
    (hoff : st.config.reasoningEnabled = false) (hplannable : ∀ q ∈ queries, q.Plannable)
    (htexts : ∀ q ∈ queries, ∀ r ∈ queries, r.text = q.text → r.toConjunction = q.toConjunction)
    (hs : k.Settled s queries) : ∃ rows k₁ s₁ as k₂ s₂, (joinAll st [.empty] queries).Gives k s rows k₁ s₁ ∧
      (rows.mapM fun row => (Answer.make row.binding (.join row.answers) : Fresh _) :
        Resolve (List Answer)).Gives k₁ s₁ as k₂ s₂ ∧
      ∀ b, (∃ a ∈ as, a.binding = b) ↔ Combines st.transaction.graph queries b := by
  have hstart (b : Binding) : (∃ row ∈ [JoinRow.empty], row.binding = b) ↔
      Combines st.transaction.graph [] b := by
    rw [combines_nil]
    simp [JoinRow.empty, eq_comm]
  obtain ⟨rows, k₁, s₁, hjoin, hrows⟩ := exists_joinAll hg hopen hdepth hoff hplannable htexts
    (fun q hq => hq) hs hstart
  obtain ⟨as, k₂, s₂, has, hforall⟩ := @exists_gives_mapM JoinRow Answer
    (fun row => (Answer.make row.binding (.join row.answers) : Fresh _))
    (fun row a => a.binding = row.binding) (fun row k s =>
      ⟨_, k, _, gives_lift.mpr ⟨rfl, rfl⟩, rfl⟩) rows k₁ s₁
  refine ⟨rows, k₁, s₁, as, k₂, s₂, hjoin, has, fun b => ?_⟩
  rw [← List.nil_append queries, ← hrows]
  constructor
  · rintro ⟨a, ha, rfl⟩
    obtain ⟨row, hrow, heq⟩ := exists_of_forall₂_of_mem hforall.flip ha
    exact ⟨row, hrow, heq.symm⟩
  · rintro ⟨row, hrow, rfl⟩
    exact exists_of_forall₂_of_mem hforall hrow

/-- Bindings that combine queries are not narrowed by variables that are all those of the queries. -/
theorem has_ofList_project {g : Graph} {vars : SortedSet Var} {as : List Answer}
    (hvars : ∀ q ∈ queries, ∀ v, v.userDefined = true → q.Names v → v ∈ vars)
    (has : ∀ b, (∃ a ∈ as, a.binding = b) ↔ Combines g queries b) (b : Binding) :
    (AnswerSet.ofList (as.map (·.project vars.toList))).Has b ↔ Combines g queries b := by
  have hkeep {a : Answer} (ha : a ∈ as) : a.binding.restrict vars.contains = a.binding := by
    have hb : Combines g queries a.binding := (has _).mp ⟨a, ha, rfl⟩
    refine SortedMap.ext_find? fun v => Option.ext fun i => ?_
    rw [SortedMap.find?_restrict]
    split
    · rfl
    · next hv =>
      refine iff_of_false (fun h => nomatch h) fun hi => hv ?_
      obtain ⟨huser, q, hq, hnames⟩ := hb.domain v (SortedMap.contains_iff_isSome.mpr ⟨i, hi⟩)
      exact SortedSet.contains_iff.mpr (hvars q hq v huser hnames)
  rw [AnswerSet.ofList, AnswerSet.has_foldl_insert]
  simp only [List.mem_map, exists_exists_and_eq_and, binding_project, ← has]
  constructor
  · rintro (⟨a, ha, -⟩ | ⟨a, ha, rfl⟩)
    · cases ha
    · exact ⟨a, ha, (hkeep ha).symm⟩
  · rintro ⟨a, ha, rfl⟩
    exact .inr ⟨a, ha, hkeep ha⟩

/-- Without rules a reasoner finds the bindings that combine the queries of the conjunction. -/
theorem exists_resolve (hg : st.transaction.graph.Reachable)
    (hopen : st.transaction.isOpen = true) (hdepth : 0 < st.config.maxRecursionDepth)
    (hoff : st.config.reasoningEnabled = false)
    (hd : (ofConjunction st.transaction c).Gives s d s')
    (hvars : ∀ q ∈ d.queries, ∀ v, v.userDefined = true → q.Names v → v ∈ c.userVars)
    (hplannable : ∀ q ∈ d.queries, q.Plannable)
    (htexts : ∀ q ∈ d.queries, ∀ r ∈ d.queries, r.text = q.text → r.toConjunction = q.toConjunction)
    (hs : k.Settled s' d.queries) :
    ∃ as k' t, (resolve st c).Gives k s as k' t ∧
      ∀ b, (∃ a ∈ as, a.binding = b) ↔ Combines st.transaction.graph d.queries b := by
  suffices h : ∃ (as : List Answer) (k' : Knowledge) (t : Supply),
      (∀ b, (∃ a ∈ as, a.binding = b) ↔ Combines st.transaction.graph d.queries b) ∧
      (resolve st c).Gives k s (AnswerSet.ofList (as.map (·.project c.userVars.toList))).answers k' t by
    obtain ⟨as, k', t, has, hresolve⟩ := h
    exact ⟨_, k', t, hresolve, has_ofList_project hvars has⟩
  obtain ⟨rows, k₁, s₁, as, k₂, s₂, hjoin, hmade, has⟩ := exists_joined hg hopen hdepth hoff hplannable htexts hs
  unfold resolve
  dsimp only
  rcases hqueries : d.queries with _ | ⟨q, _ | ⟨q', rest⟩⟩
  case cons.nil =>
    rw [hqueries] at hplannable htexts hs
    obtain ⟨as, k', t, hdrain, -, has⟩ := exists_drain_combines hg hopen hdepth hoff
      (hplannable q (.head _)) (htexts q (.head _)) (.head _) hs
    refine ⟨as, k', t, has, gives_bind.mpr ⟨d, k, s', gives_ofAttempt.mpr ⟨hd, rfl⟩, ?_⟩⟩
    rw [hqueries]
    exact gives_bind.mpr ⟨as, k', t, hdrain, gives_pure.mpr ⟨rfl, rfl, rfl⟩⟩
  all_goals
    rw [hqueries] at hjoin has
    refine ⟨as, k₂, s₂, has, gives_bind.mpr ⟨d, k, s', gives_ofAttempt.mpr ⟨hd, rfl⟩, ?_⟩⟩
    rw [hqueries]
    exact gives_bind.mpr ⟨rows, k₁, s₁, hjoin, gives_bind.mpr ⟨as, k₂, s₂, hmade,
      gives_pure.mpr ⟨rfl, rfl, rfl⟩⟩⟩

end Reasoner

/-! ## All patterns together -/

namespace DecomposedQuery

open Decomposition

variable {t : Transaction} {c : Conjunction} {d : DecomposedQuery} {s s' : Supply} {q : AtomicQuery}
  {v : Var}

/-- The user-defined variables that a query names are those of the conjunction. -/
theorem mem_userVars_of_names (hg : t.graph.WellFormed) (hd : (ofConjunction t c).Gives s d s')
    (hpresent : ∀ v, c.Names v → v.isEmpty = false) (hq : q ∈ d.queries)
    (huser : v.userDefined = true) (hv : q.Names v) : v.isEmpty = false ∧ v ∈ c.userVars := by
  have hnamed : c.Names v := by
    refine (names_or_hidden hg hd hpresent hq hv).resolve_right ?_
    rintro ⟨k, -, -, rfl⟩
    cases huser
  exact ⟨hpresent v hnamed,
    SortedSet.mem_filter.mpr ⟨mem_vars_of_names hnamed (hpresent v hnamed), huser⟩⟩

theorem plannable_of_mem_queries (hg : t.graph.WellFormed) (hd : (ofConjunction t c).Gives s d s')
    (hpresent : ∀ v, c.Names v → v.isEmpty = false) (hq : q ∈ d.queries)
    (hplan : ∃ p u, (Planner.planWithBound q.toConjunction .empty).Gives s' p u) : q.Plannable := by
  have hdecomposed := decomposed_of_mem_queries hd hq
  obtain ⟨p, u, hp⟩ := hplan
  obtain ⟨sets, hsets, -⟩ := Planner.order_of_gives hp
  refine ⟨hdecomposed.plain,
    (FragmentSet.exists_gives_iff_searchable hg hdecomposed.plain).mp ⟨sets, u, hsets⟩,
    statements_ne_nil hd hpresent hq, fun v huser hv => SortedSet.mem_filter.mpr ⟨?_, huser⟩⟩
  exact AtomicQuery.mem_vars_of_names hdecomposed hv
    (mem_userVars_of_names hg hd hpresent hq huser hv).1

theorem exists_plan (hg : t.graph.WellFormed) (hd : (ofConjunction t c).Gives s d s') (hq : q ∈ d.queries)
    (hsearchable : q.Searchable) (u : Supply) :
    ∃ p u', (Planner.planWithBound q.toConjunction .empty).Gives u p u' := by
  obtain ⟨sets, u', hsets⟩ := (FragmentSet.exists_gives_iff_searchable hg
    (decomposed_of_mem_queries hd hq).plain (s := u)).mpr hsearchable
  obtain ⟨p, hp⟩ := Planner.exists_planWithBound hsets .empty
  exact ⟨p, u', hp⟩

theorem exists_gives_joint (hg : t.graph.WellFormed) (hd : (ofConjunction t c).Gives s d s')
    (hsearchable : ∀ q ∈ d.queries, q.Searchable) (u : Supply) :
    ∃ sets u', (FragmentSet.ofConjunction d.joint).Gives u sets u' := by
  have hatoms : d.joint = ⟨(d.queries.flatMap AtomicQuery.atoms).flatMap Atom.toStatements⟩ := by
    rw [List.flatMap_assoc]
    rfl
  rw [hatoms]
  refine (FragmentSet.exists_gives_iff_searchable hg fun a ha => ?_).mpr fun a ha => ?_
  · obtain ⟨q, hq, ha⟩ := List.mem_flatMap.mp ha
    exact (decomposed_of_mem_queries hd hq).plain a ha
  · obtain ⟨q, hq, ha⟩ := List.mem_flatMap.mp ha
    exact hsearchable q hq a ha

theorem freshFrom_joint (hg : t.graph.WellFormed) (hd : (ofConjunction t c).Gives s d s')
    (hpresent : ∀ v, c.Names v → v.isEmpty = false) (hfresh : ∀ k, s.vars ≤ k → .generated k ∉ c.vars) :
    d.joint.FreshFrom s'.vars := by
  intro k hk hv
  obtain ⟨q, hq, hv⟩ := (names_joint_iff hd).mp hv
  exact not_names_generated hg hd hpresent hfresh hq hk hv

/-- One traversal of the patterns of all queries finds what combines them, provided that no two queries
share a variable that is not user-defined. -/
theorem exists_execute_joint (hg : t.graph.Reachable) (hd : (ofConjunction t c).Gives s d s')
    (hpresent : ∀ v, c.Names v → v.isEmpty = false) (hfresh : ∀ k, s.vars ≤ k → .generated k ∉ c.vars)
    (hsearchable : ∀ q ∈ d.queries, q.Searchable)
    (hlinks : d.queries.Pairwise fun q r => ∀ v, q.Names v → r.Names v → v.userDefined = true)
    {u : Supply} (hu : s'.vars ≤ u.vars) : ∃ p u' bs,
      (Planner.planWithBound d.joint .empty).Gives u p u' ∧ p.execute t.graph .empty = .ok bs ∧
        ∀ b, Combines t.graph d.queries b ↔ ∃ m ∈ bs, m.restrict c.userVars.contains = b := by
  have hwf := hg.wellFormed
  obtain ⟨sets, u', hsets⟩ := exists_gives_joint hwf hd hsearchable u
  obtain ⟨p, hp⟩ := Planner.exists_planWithBound hsets .empty
  have hjoint : d.joint.FreshFrom u.vars := fun k hk =>
    freshFrom_joint hwf hd hpresent hfresh k (hu.trans hk)
  obtain ⟨bs, hexecute, hsound, hcomplete⟩ := Conjunction.execute_plan hg hjoint hp
  have hrestrict {b m : Binding} (hm : d.joint.IsMatch t.graph m)
      (heq : ∀ v, ¬ FragmentSet.Hidden u.vars u'.vars v → b.find? v = m.find? v) :
      b.restrict c.userVars.contains = m.restrict Var.userDefined := by
    refine SortedMap.ext_find? fun v => ?_
    rw [SortedMap.find?_restrict, SortedMap.find?_restrict]
    by_cases huser : v.userDefined = true
    · have hout : ¬ FragmentSet.Hidden u.vars u'.vars v := by
        rintro ⟨k, -, -, rfl⟩
        cases huser
      rw [if_pos huser, heq v hout]
      split
      · rfl
      · next hv =>
        refine (SortedMap.contains_eq_false_iff.mp (Bool.eq_false_iff.mpr fun hm' => hv ?_)).symm
        obtain ⟨q, hq, hnames⟩ := (names_joint_iff hd).mp ((hm.domain v).mp hm')
        exact SortedSet.contains_iff.mpr (mem_userVars_of_names hwf hd hpresent hq huser hnames).2
    · have hv : ¬ c.userVars.contains v = true :=
        fun hv => huser (SortedSet.mem_filter.mp (SortedSet.contains_iff.mp hv)).2
      rw [if_neg huser, if_neg hv]
  refine ⟨p, u', bs, hp, hexecute, fun b => (combines_iff_isMatch_joint hwf hd hlinks).trans ⟨?_, ?_⟩⟩
  · rintro ⟨m, hm, rfl⟩
    obtain ⟨b, hb, heq⟩ := hcomplete m hm
    exact ⟨b, hb, hrestrict hm heq⟩
  · rintro ⟨b, hb, rfl⟩
    obtain ⟨m, hm, heq⟩ := hsound b hb
    exact ⟨m, hm, (hrestrict hm heq).symm⟩

end DecomposedQuery

namespace Reasoner

open Resolve Decomposition

variable {c : Conjunction} {d : DecomposedQuery} {s s' : Supply}

/-- A fresh reasoner has a valid configuration and has planned nothing. -/
theorem make_eq_ok {config : Config} {r : Reasoner} (h : make config = .ok r) :
    0 < config.maxRecursionDepth ∧ r.config = config ∧ r.knowledge.programs.entries = [] := by
  obtain ⟨config', hvalid, h⟩ := Except.bind_eq_ok.mp h
  obtain rfl := Except.ok.inj h
  unfold Config.validate at hvalid
  split at hvalid
  · cases hvalid
  · split at hvalid
    · cases hvalid
    · split at hvalid
      · cases hvalid
      · next hdepth _ _ =>
        obtain rfl := Except.ok.inj hvalid
        exact ⟨Nat.pos_of_ne_zero hdepth, rfl, rfl⟩

/-- With reasoning disabled a fresh reasoner finds the bindings that combine the atomic queries. These
are what one traversal of all their patterns together binds of the user-defined variables, provided that
no two queries share another variable. -/
theorem resolve_eq_execute_joint {config : Config} {r : Reasoner} {t : Transaction} (rules : RuleSet)
    (hr : make config = .ok r) (hoff : config.reasoningEnabled = false) (hg : t.graph.Reachable)
    (hopen : t.isOpen = true) (hd : (ofConjunction t c).Gives s d s')
    (hpresent : ∀ v, c.Names v → v.isEmpty = false) (hfresh : ∀ k, s.vars ≤ k → .generated k ∉ c.vars)
    (hplans : ∀ q ∈ d.queries, ∃ p u, (Planner.planWithBound q.toConjunction .empty).Gives s' p u)
    (htexts : ∀ q ∈ d.queries, ∀ r ∈ d.queries, r.text = q.text → r.toConjunction = q.toConjunction) :
    ∃ as k' u, (resolve ({ r with rules }.setting t) c).Gives r.knowledge s as k' u ∧
      (∀ b, (∃ a ∈ as, a.binding = b) ↔ Combines t.graph d.queries b) ∧
      ((d.queries.Pairwise fun q r => ∀ v, q.Names v → r.Names v → v.userDefined = true) →
        ∀ u, s'.vars ≤ u.vars → ∃ p u' bs, (Planner.planWithBound d.joint .empty).Gives u p u' ∧
          p.execute t.graph .empty = .ok bs ∧
          ∀ b, (∃ a ∈ as, a.binding = b) ↔ ∃ m ∈ bs, m.restrict c.userVars.contains = b) := by
  obtain ⟨hdepth, hconfig, hentries⟩ := make_eq_ok hr
  have hwf := hg.wellFormed
  have hplannable (q : AtomicQuery) (hq : q ∈ d.queries) : q.Plannable :=
    DecomposedQuery.plannable_of_mem_queries hwf hd hpresent hq (hplans q hq)
  have hsettled : r.knowledge.Settled s' d.queries := fun q hq =>
    ⟨fun k => DecomposedQuery.not_names_generated hwf hd hpresent hfresh hq,
      fun e he => absurd he (hentries ▸ List.not_mem_nil)⟩
  let st : Setting := { r with rules }.setting t
  have hst : st.config = config := hconfig
  obtain ⟨as, k', u, hresolve, has⟩ := @exists_resolve st c d r.knowledge s s' hg hopen
    (hst ▸ hdepth) (hst ▸ hoff) hd
    (fun q hq v huser hv => (DecomposedQuery.mem_userVars_of_names hwf hd hpresent hq huser hv).2)
    hplannable htexts hsettled
  refine ⟨as, k', u, hresolve, has, fun hlinks u hu => ?_⟩
  obtain ⟨p, u', bs, hp, hexecute, hbs⟩ := DecomposedQuery.exists_execute_joint hg hd hpresent hfresh
    (fun q hq => (hplannable q hq).searchable) hlinks hu
  exact ⟨p, u', bs, hp, hexecute, fun b => (has b).trans (hbs b)⟩

end Reasoner

/-! ## Two patterns -/

/-- Queries share a variable that they name only if it is in the slots of both. -/
theorem DecomposedQuery.pairwise_of_slots {t : Transaction} {c : Conjunction} {d : DecomposedQuery}
    {s s' : Supply} (hd : (Decomposition.ofConjunction t c).Gives s d s')
    (h : d.queries.Pairwise fun q r => ∀ v ∈ q.slots, v ∈ r.slots → v.userDefined = true) :
    d.queries.Pairwise fun q r => ∀ v, q.Names v → r.Names v → v.userDefined = true :=
  h.imp_of_mem fun hq hr h v hv hv' =>
    h v (AtomicQuery.mem_slots_of_names (Decomposition.decomposed_of_mem_queries hd hq) hv)
      (AtomicQuery.mem_slots_of_names (Decomposition.decomposed_of_mem_queries hd hr) hv')

/-- No listed variable is absent or yet to be generated, and the queries can be planned and have texts of
their own. -/
structure DecomposedQuery.Regular (d : DecomposedQuery) (c : Conjunction) (s : Supply) : Prop where
  present : ∀ st ∈ c.statements, ∀ v ∈ st.subject :: st.properties.flatMap Property.vars,
    v.isEmpty = false
  fresh : ∀ v ∈ c.vars.toList, v.userDefined = true ∨ v ∈ (List.range s.vars).map Var.generated
  searchable : ∀ q ∈ d.queries, ∀ a ∈ q.atoms, a.Searchable
  texts : ∀ q ∈ d.queries, ∀ r ∈ d.queries, r.text = q.text → r.toConjunction = q.toConjunction

namespace DecomposedQuery.Regular

instance (d : DecomposedQuery) (c : Conjunction) (s : Supply) : Decidable (d.Regular c s) :=
  decidable_of_iff ((∀ st ∈ c.statements, ∀ v ∈ st.subject :: st.properties.flatMap Property.vars,
      v.isEmpty = false) ∧
    (∀ v ∈ c.vars.toList, v.userDefined = true ∨ v ∈ (List.range s.vars).map Var.generated) ∧
    (∀ q ∈ d.queries, ∀ a ∈ q.atoms, a.Searchable) ∧
    ∀ q ∈ d.queries, ∀ r ∈ d.queries, r.text = q.text → r.toConjunction = q.toConjunction)
    ⟨fun ⟨h₁, h₂, h₃, h₄⟩ => ⟨h₁, h₂, h₃, h₄⟩, fun ⟨h₁, h₂, h₃, h₄⟩ => ⟨h₁, h₂, h₃, h₄⟩⟩

variable {d : DecomposedQuery} {c : Conjunction} {s : Supply}

theorem isEmpty_of_names (h : d.Regular c s) (v : Var) (hv : c.Names v) : v.isEmpty = false := by
  obtain ⟨st, hst, hv⟩ := exists_mem_of_names hv
  exact h.present st hst v hv

theorem not_mem_vars (h : d.Regular c s) (k : Nat) (hk : s.vars ≤ k) : .generated k ∉ c.vars := by
  intro hv
  rcases h.fresh _ hv with huser | hgenerated
  · cases huser
  · obtain ⟨j, hj, heq⟩ := List.mem_map.mp hgenerated
    obtain rfl := Var.generated_injective heq
    exact absurd (List.mem_range.mp hj) (Nat.not_lt.mpr hk)

end DecomposedQuery.Regular

/-- A reasoner that applies no rules. -/
def Reasoner.lookingUp : Reasoner where
  config := { reasoningEnabled := false }
  rules := {}
  knowledge := { programs := .ofCapacity 256 }

theorem Reasoner.make_lookingUp : make lookingUp.config = .ok lookingUp := rfl

namespace OneThing

def transaction : Transaction where
  name := ""
  graph := [.entityType ⟨"a"⟩, .entity ⟨"a"⟩].foldl Graph.perform {}

/-- `$x isa a; $x isa $t;` -/
def pattern : Conjunction :=
  ⟨[⟨.named "x", [.isa (.label ⟨"a"⟩)]⟩, ⟨.named "x", [.isa (.var (.named "t"))]⟩]⟩

def decomposed : DecomposedQuery :=
  (Decomposition.ofConjunction transaction pattern).resultOr {} ⟨⟨[]⟩, []⟩

def supply : Supply :=
  ((Decomposition.ofConjunction transaction pattern).run {}).2

def found : List Answer :=
  (Reasoner.resolve (Reasoner.lookingUp.setting transaction) pattern).resultOr
    Reasoner.lookingUp.knowledge {} []

def binding : Binding :=
  .ofList [(.named "t", ⟨"T1"⟩), (.named "x", ⟨"V2"⟩)]

theorem isOk_and_regular :
    ((Decomposition.ofConjunction transaction pattern).run {}).1.isOk = true ∧
      decomposed.Regular pattern {} ∧
      (decomposed.queries.Pairwise fun q r => ∀ v ∈ q.slots, v ∈ r.slots → v.userDefined = true) ∧
      found.map Answer.binding = [binding] := by
  decide +kernel

/-- The thing and its type are found by joined look-ups and by one traversal of both patterns. -/
theorem resolve_eq_execute_joint_thing : found.map Answer.binding = [binding] ∧ ∃ p u bs,
    (Planner.planWithBound decomposed.joint .empty).Gives supply p u ∧
      p.execute transaction.graph .empty = .ok bs ∧
      ∃ m ∈ bs, m.restrict pattern.userVars.contains = binding := by
  obtain ⟨hok, hregular, hslots, hfound⟩ := isOk_and_regular
  have hd := Attempt.gives_resultOr hok ⟨⟨[]⟩, []⟩
  have hg : transaction.graph.Reachable := ⟨_, rfl⟩
  obtain ⟨as, k, u, has, -, hjoint⟩ := Reasoner.resolve_eq_execute_joint {} Reasoner.make_lookingUp rfl
    hg rfl hd hregular.isEmpty_of_names hregular.not_mem_vars
    (fun q hq => DecomposedQuery.exists_plan hg.wellFormed hd hq (hregular.searchable q hq) _)
    hregular.texts
  obtain ⟨p, u', bs, hp, hexecute, hbs⟩ :=
    hjoint (DecomposedQuery.pairwise_of_slots hd hslots) supply le_rfl
  have heq : found = as := Resolve.resultOr_eq_of_gives has []
  refine ⟨hfound, p, u', bs, hp, hexecute, (hbs _).mp ?_⟩
  rw [← heq, ← List.mem_map, hfound]
  exact .head _

end OneThing

namespace NotedOwnership

/-- A person who has a note and plays in an ownership that has none. -/
def transaction : Transaction where
  name := ""
  graph := [.entityType ⟨"person"⟩, .attributeType ⟨"note"⟩,
    .relationType ⟨"ownership"⟩ [⟨"owner"⟩], .entity ⟨"person"⟩, .attr ⟨"note"⟩ (.string "z"),
    .relation ⟨"ownership"⟩ [(⟨"owner"⟩, ⟨"V8"⟩)], .has ⟨"V8"⟩ ⟨"V9"⟩].foldl Graph.perform {}

/-- `(owner: $x) isa ownership, has note "z";` -/
def pattern : Conjunction :=
  ⟨[⟨.generated 1, [.relation [⟨some ⟨"owner"⟩, .named "x"⟩], .isa (.label ⟨"ownership"⟩),
    .has ⟨"note"⟩ (.generated 0) (some (.eq (.string "z")))]⟩]⟩

def decomposed : DecomposedQuery :=
  (Decomposition.ofConjunction transaction pattern).resultOr { vars := 2 } ⟨⟨[]⟩, []⟩

def supply : Supply :=
  ((Decomposition.ofConjunction transaction pattern).run { vars := 2 }).2

def found : List Answer :=
  (Reasoner.resolve (Reasoner.lookingUp.setting transaction) pattern).resultOr
    Reasoner.lookingUp.knowledge { vars := 2 } []

theorem isOk_and_found :
    (((Reasoner.resolve (Reasoner.lookingUp.setting transaction) pattern).run.run
        Reasoner.lookingUp.knowledge).run { vars := 2 }).1.1.isOk = true ∧
      found.map Answer.binding = [.ofList [(.named "x", ⟨"V8"⟩)]] := by
  decide +kernel

theorem isOk_and_joint :
    ((Decomposition.ofConjunction transaction pattern).run { vars := 2 }).1.isOk = true ∧
      decomposed.Regular pattern { vars := 2 } ∧
      (∃ s ∈ decomposed.joint.statements, s.subject = .generated 1 ∧
        .relation [⟨some ⟨"owner"⟩, .named "x"⟩] ∈ s.properties) ∧
      ∃ s ∈ decomposed.joint.statements, ∃ ps ∈ s.properties.filterMap Property.players?,
        ⟨some (Label.ownerRole ⟨"note"⟩), .generated 1⟩ ∈ ps := by
  decide +kernel

/-- The ownership is no owner of a note. -/
theorem ne_of_plays {e e' : Element} {c c' : Casting} (h : transaction.graph.Plays e c)
    (h' : transaction.graph.Plays e' c') (hrole : c.role = ⟨"owner"⟩)
    (hrole' : c'.role = Label.ownerRole ⟨"note"⟩) : c.relation ≠ c'.player := by
  have hstored : ∀ d ∈ transaction.graph.castings,
      d.relation = ⟨"V10"⟩ ∧ d.role ≠ Label.ownerRole ⟨"note"⟩ := by decide +kernel
  have hedge : ∀ d ∈ transaction.graph.edges, d.owned.ownerRole ≠ ⟨"owner"⟩ ∧
      d.owned.valueRole ≠ ⟨"owner"⟩ ∧ d.owned.valueRole ≠ Label.ownerRole ⟨"note"⟩ ∧
      d.owner ≠ ⟨"V10"⟩ := by decide +kernel
  cases h with
  | stored hc =>
    cases h' with
    | stored hc' => exact absurd hrole' (hstored _ hc').2
    | owner hd => exact fun heq => (hedge _ hd).2.2.2 (heq.symm.trans (hstored _ hc).1)
    | value hd => exact absurd hrole' (hedge _ hd).2.2.1
  | owner hd => exact absurd hrole (hedge _ hd).1
  | value hd => exact absurd hrole (hedge _ hd).2.1

theorem not_reads_joint (look : Var → Option ConceptId) :
    ¬ decomposed.joint.Reads transaction.graph look := by
  intro h
  obtain ⟨-, -, ⟨s, hs, hsubject, hp⟩, s', hs', ps, hps, hplayer⟩ := isOk_and_joint
  obtain ⟨p, hp', hpplayers⟩ := List.mem_filterMap.mp hps
  obtain ⟨cs, -, hcs⟩ := h s hs _ hp
  obtain ⟨c, -, hc⟩ := exists_of_forall₂_of_mem hcs (.head _)
  cases p with
  | relation ps' =>
    obtain rfl := Option.some.inj hpplayers
    obtain ⟨cs', -, hcs'⟩ := h s' hs' _ hp'
    obtain ⟨c', -, hc'⟩ := exists_of_forall₂_of_mem hcs' hplayer
    obtain ⟨e, he⟩ := hc.plays
    obtain ⟨e', he'⟩ := hc'.plays
    refine ne_of_plays he he' (hc.role _ rfl) (hc'.role _ rfl) (Option.some.inj ?_)
    rw [← hc.relation, ← hc'.player, hsubject]
  | _ => cases hpplayers

/-- The ownership and its note are looked up apart and nothing of the ownership itself is joined: the
person is found although the ownership has no note. -/
theorem resolve_ne_execute_joint : ¬ ∀ (config : Config) (r : Reasoner) (t : Transaction)
    (c : Conjunction) (d : DecomposedQuery) (s s' : Supply), Reasoner.make config = .ok r →
    config.reasoningEnabled = false → t.graph.Reachable → t.isOpen = true →
    (Decomposition.ofConjunction t c).Gives s d s' →
    (∀ q ∈ d.queries, ∃ p u, (Planner.planWithBound q.toConjunction .empty).Gives s' p u) →
    ∀ as k' u p u' bs, (Reasoner.resolve (r.setting t) c).Gives r.knowledge s as k' u →
      (Planner.planWithBound d.joint .empty).Gives s' p u' → p.execute t.graph .empty = .ok bs →
      ∀ b, (∃ a ∈ as, a.binding = b) ↔ ∃ m ∈ bs, m.restrict c.userVars.contains = b := by
  intro h
  obtain ⟨hresolve, hfound⟩ := isOk_and_found
  obtain ⟨hok, hregular, -⟩ := isOk_and_joint
  have hg : transaction.graph.Reachable := ⟨_, rfl⟩
  have hd := Attempt.gives_resultOr hok ⟨⟨[]⟩, []⟩
  obtain ⟨sets, u, hsets⟩ :=
    DecomposedQuery.exists_gives_joint hg.wellFormed hd hregular.searchable supply
  obtain ⟨p, hp⟩ := Planner.exists_planWithBound hsets .empty
  obtain ⟨bs, hexecute, hsound, -⟩ := Conjunction.execute_plan hg (DecomposedQuery.freshFrom_joint
    hg.wellFormed hd hregular.isEmpty_of_names hregular.not_mem_vars) hp
  obtain ⟨m, hm, -⟩ := (h _ _ _ _ _ _ _ Reasoner.make_lookingUp rfl hg rfl hd
    (fun q hq => DecomposedQuery.exists_plan hg.wellFormed hd hq (hregular.searchable q hq) _) _ _ _ _ _ _
    (Resolve.gives_resultOr hresolve []) hp hexecute
    (.ofList [(.named "x", ⟨"V8"⟩)])).mp (List.mem_map.mp (hfound ▸ List.mem_singleton_self _))
  obtain ⟨m, hm, -⟩ := hsound m hm
  exact not_reads_joint _ hm.reads

end NotedOwnership

end GraphInference
