import GraphInference.Proofs.Resolution.Cancellation
import GraphInference.Proofs.Resolution.Completeness
import GraphInference.Proofs.Unification.Alike

/-!
# What resolution comes back to

A rule comes back to itself through dependencies exactly if it is on a cycle of the dependency graph, so that
the strongly connected components of the graph tell which rules do (`RuleSet.mem_cyclic_iff`). What comes back
to a query in the course of a resolution is of its family and its type, and so every stream below the
application of a rule is opened for the body of a rule that this one reaches. Hence no query below a rule that
is not recursive is equivalent to the query that the rule is applied to: `RuleSet.Below.not_isEquivalent`.
The application looks at nothing that is known of that query and adds nothing to it
(`AnswerStream.ignores_applyRule`).
-/

namespace GraphInference

open AtomicQuery Relation Resolve

/-! ## Components of the dependency graph -/

namespace RuleSet

variable {s : RuleSet} {components : List (List RuleId)} {i j : RuleId}

/-- The lists are the strongly connected components of the dependency graph. -/
structure AreComponents (s : RuleSet) (components : List (List RuleId)) : Prop where
  nodup : ∀ c ∈ components, c.Nodup
  covers : ∀ r ∈ s.rules, ∃ c ∈ components, r.id ∈ c
  mem_iff : ∀ c ∈ components, ∀ i ∈ c, ∀ j, j ∈ c ↔
    (∃ r ∈ s.rules, r.id = j) ∧ ReflTransGen s.DependsOn i j ∧ ReflTransGen s.DependsOn j i

/-- The rules in components with more than one rule or with a rule that depends on itself. -/
def cyclic (s : RuleSet) (components : List (List RuleId)) : List RuleId :=
  (components.filter fun c => 1 < c.length || c.head?.any fun i => i ∈ s.dependenciesOf i).flatten

theorem mem_cyclic : i ∈ s.cyclic components ↔
    ∃ c ∈ components, (1 < c.length ∨ ∃ j, c.head? = some j ∧ s.DependsOn j j) ∧ i ∈ c := by
  simp [cyclic, DependsOn, Option.any_eq_true, and_assoc]

theorem eq_singleton_of_length_le_one {c : List RuleId} (hi : i ∈ c) (hc : c.length ≤ 1) : c = [i] := by
  obtain ⟨j, rfl⟩ := List.length_eq_one_iff.mp (le_antisymm hc (List.length_pos_of_mem hi))
  rw [List.mem_singleton.mp hi]

/-- The rules on cycles are those that reach themselves. -/
theorem mem_cyclic_iff (hs : s.Built) (h : s.AreComponents components) :
    i ∈ s.cyclic components ↔ TransGen s.DependsOn i i := by
  rw [mem_cyclic]
  constructor
  · rintro ⟨c, hc, hcyclic, hi⟩
    by_cases hlong : 1 < c.length
    · -- The component has another member, which the rule reaches and which reaches the rule.
      obtain ⟨j, hj, hne⟩ : ∃ j ∈ c, j ≠ i := by
        by_contra hall
        push Not at hall
        have hrep : c = List.replicate c.length i := List.eq_replicate_of_mem hall
        have hnodup := h.nodup c hc
        rw [hrep, List.nodup_replicate] at hnodup
        omega
      obtain ⟨-, hij, hji⟩ := (h.mem_iff c hc i hi j).mp hj
      obtain rfl | hij := reflTransGen_iff_eq_or_transGen.mp hij
      · exact absurd rfl hne
      · exact hij.trans_left hji
    · obtain ⟨j, hj, hloop⟩ := hcyclic.resolve_left hlong
      rw [eq_singleton_of_length_le_one hi (not_lt.mp hlong)] at hj
      obtain rfl := Option.some.inj hj
      exact .single hloop
  · intro hcycle
    obtain ⟨j, hij, hji⟩ := TransGen.head'_iff.mp hcycle
    obtain ⟨r, hr, r', hr', -, rfl⟩ := dependsOn_iff.mp hij
    have hid : r.id = i := hs.id_eq hr
    obtain ⟨c, hc, hi⟩ := h.covers r (List.mem_of_getElem? hr)
    rw [hid] at hi
    refine ⟨c, hc, ?_, hi⟩
    by_cases hlong : 1 < c.length
    · exact .inl hlong
    · -- The rule is alone in its component, so that the dependency it starts with is one on itself.
      have hj : r'.id ∈ c := (h.mem_iff c hc i hi _).mpr ⟨⟨r', hr', rfl⟩, .single hij, hji⟩
      rw [eq_singleton_of_length_le_one hi (not_lt.mp hlong)] at hj ⊢
      rw [List.mem_singleton.mp hj] at hij
      exact .inr ⟨i, rfl, hij⟩

end RuleSet

/-! ## What rules feed -/

/-- A rule that fits a query feeds every rule with a query of its family and type in the body. -/
theorem CompiledRule.dependsOn_of_fits {c c' : CompiledRule} {p : AtomicQuery} {a : Atom} (hp : p ∈ c.body)
    (hfamily : p.central.family = a.family) (htype : p.central.typeId? = a.typeId?) (h : c'.Fits a) :
    c.dependsOn c' = true := by
  refine List.any_eq_true.mpr ⟨p, hp, ?_⟩
  obtain ⟨hfits, hfitsType⟩ := h
  rw [Bool.and_eq_true, Bool.or_eq_true, decide_eq_true_eq, decide_eq_true_eq, hfamily, htype]
  refine ⟨hfits, ?_⟩
  rw [not_and_or, not_not, Option.not_isSome_iff_eq_none, ← Option.isNone_iff_eq_none] at hfitsType
  exact hfitsType

namespace RuleSet

variable {s : RuleSet} {i j l : RuleId} {u : Unifier} {c d : CompiledRule} {p q b : AtomicQuery}

/-- The query is one of the body of a rule that `i` is or reaches, whatever its number. -/
def Below (s : RuleSet) (i : RuleId) (q : AtomicQuery) : Prop :=
  ∃ j c b n, ReflTransGen s.DependsOn i j ∧ s.get? j = some c ∧ b ∈ c.body ∧ q = b.renumber n

/-- A rule that applies to a query feeds the rules with a query of its family and type in the body. -/
theorem Built.dependsOn_of_applicable (hs : s.Built) (hc : s.get? j = some c) (hb : b ∈ c.body)
    (hfamily : b.central.family = q.central.family) (htype : b.central.typeId? = q.central.typeId?)
    (hl : (l, u) ∈ s.applicable q.central) : s.DependsOn j l := by
  obtain ⟨d, hd, hunify⟩ := hs.get?_of_applicable hl
  exact dependsOn_iff.mpr ⟨c, hc, d, List.mem_of_getElem? hd,
    CompiledRule.dependsOn_of_fits hb hfamily htype (CompiledRule.fits_of_unify? hunify), hs.id_eq hd⟩

/-- Below a query that is below are the queries of the bodies of the rules that apply to it. -/
theorem Below.body (hs : s.Built) (h : s.Below i q) (hl : (l, u) ∈ s.applicable q.central)
    (hd : s.get? l = some d) (hp : p ∈ d.body) (n : QueryId) : s.Below i (p.renumber n) := by
  obtain ⟨j, c, b, m, hij, hc, hb, rfl⟩ := h
  have hjl : s.DependsOn j l :=
    hs.dependsOn_of_applicable hc hb Atom.family_withQuery.symm Atom.typeId?_withQuery.symm hl
  exact ⟨l, d, p, n, hij.tail hjl, hd, hp, rfl⟩

/-- No query below a rule that is not recursive is equivalent to one that the rule applies to. -/
theorem Below.not_isEquivalent (hs : s.Built) (hi : (i, u) ∈ s.applicable q.central)
    (hrecursive : s.isRecursive i = false) (h : s.Below i p) : p.isEquivalent q = false := by
  obtain ⟨j, c, b, n, hij, hc, hb, rfl⟩ := h
  by_contra heq
  rw [Bool.not_eq_false] at heq
  obtain ⟨hfamily, htype⟩ := Atom.family_eq_of_isEquivalent (Bool.and_eq_true_iff.mp heq).1
  rw [central_renumber, Atom.family_withQuery] at hfamily
  rw [central_renumber, Atom.typeId?_withQuery] at htype
  have hji : s.DependsOn j i := hs.dependsOn_of_applicable hc hb hfamily.symm htype.symm hi
  rw [isRecursive_iff.mpr (.tail' hij hji)] at hrecursive
  cases hrecursive

end RuleSet

/-! ## Streams below an application -/

namespace AnswerStream

variable {s : Setting} {st st' start : AnswerStream} {k k' : Knowledge} {t t' : Supply} {n : Nat}
  {resolve : Resolver} {q : AtomicQuery} {path : ResolutionPath} {id : RuleId} {u : Unifier}
  {inner outer : List AnswerStream} {rulesLeft : List (RuleId × Unifier)}

/-- The rules of the stream apply to its query. -/
structure RulesApply (s : Setting) (st : AnswerStream) : Prop where
  rules : ∀ e ∈ st.rules, e ∈ s.rules.applicable st.query.central
  rulesLeft : ∀ e ∈ st.rulesLeft, e ∈ s.rules.applicable st.query.central

theorem rulesApply_start (s : Setting) (q : AtomicQuery) (path : ResolutionPath) :
    RulesApply s { query := q, path } :=
  ⟨fun _ he => (nomatch he), fun _ he => nomatch he⟩

theorem RulesApply.emitAll (h : st.RulesApply s) (as : List Answer) : (st.emitAll as).RulesApply s :=
  ⟨by simpa using h.rules, by simpa using h.rulesLeft⟩

theorem RulesApply.step (h : st.RulesApply s) (hstep : Steps resolve s st k t st' k' t') :
    st'.RulesApply s := by
  cases hstep with
  | cut | lookedUp =>
    have hemit := h.emitAll
    exact ⟨(hemit _).rules, (hemit _).rulesLeft⟩
  | ruled => exact ⟨fun _ he => he, fun _ he => he⟩
  | @applied _ _ _ rulesLeft hleft =>
    have hrest := h.rulesLeft
    rw [hleft, List.forall_mem_cons] at hrest
    have hst : ({ st with rulesLeft } : AnswerStream).RulesApply s := ⟨h.rules, hrest.2⟩
    exact hst.emitAll _
  | repeated => exact ⟨h.rules, h.rules⟩
  | unruled | finished => exact ⟨h.rules, h.rulesLeft⟩
  | ended => exact h

theorem RulesApply.of_runs (hstart : start.RulesApply s) (h : Runs s start n st) : st.RulesApply s := by
  induction h with
  | start => exact hstart
  | take _ _ ih | close _ _ _ ih | fail _ _ _ ih => exact ⟨ih.rules, ih.rulesLeft⟩
  | step _ _ hstep ih => exact ih.step (steps_of_gives hstep)

theorem Runs.query_eq (h : Runs s start n st) : st.query = start.query := by
  induction h with
  | start => rfl
  | take _ _ ih | close _ _ _ ih | fail _ _ _ ih => exact ih
  | step _ _ hstep ih => exact (steps_of_gives hstep).query_eq.trans ih

theorem Chain.rulesApply (h : Chain s (st :: outer)) : st.RulesApply s := by
  obtain ⟨q, path, n, hrun⟩ := h.exists_runs
  exact (rulesApply_start s q path).of_runs hrun

/-- Below the application of a rule streams are opened for the bodies of rules that this one reaches. -/
theorem Chain.forall_below (hs : s.rules.Built) (h : Chain s (inner ++ st :: outer))
    (hleft : st.rulesLeft = (id, u) :: rulesLeft) : ∀ st' ∈ inner, s.rules.Below id st'.query := by
  induction inner with
  | nil => exact fun _ hst' => nomatch hst'
  | cons st₁ inner ih =>
    rcases inner with _ | ⟨st₂, inner⟩
    · cases h with
      | @nested _ _ _ id' u' _ c b i _ _ _ _ hleft' hc hb hrun =>
        obtain ⟨rfl, rfl⟩ := Prod.mk.inj (List.cons.inj (hleft.symm.trans hleft')).1
        exact List.forall_mem_singleton.mpr ⟨id, c, b, i, .refl, hc, hb, hrun.query_eq⟩
    · cases h with
      | @nested _ _ _ l v _ c b i _ hchain _ _ hleft₂ hc hb hrun =>
        have hbelow := ih hchain
        refine List.forall_mem_cons.mpr ⟨?_, hbelow⟩
        have hl : (l, v) ∈ s.rules.applicable st₂.query.central :=
          hchain.rulesApply.rulesLeft _ (hleft₂ ▸ .head _)
        rw [hrun.query_eq]
        exact (hbelow st₂ (.head _)).body hs hl hc hb i

end AnswerStream

/-! ## What is not looked at -/

namespace AnswerCache

variable {c c' : AnswerCache} {q r : AtomicQuery} {as : List Answer}

/-- What is recorded for a query is recorded in its class and in no other. -/
theorem class?_record : (c.record q as).2.class? r =
    if q.isEquivalent r then some (recordIn ((c.class? q).getD ⟨q, {}⟩) q as).2 else c.class? r := by
  obtain ⟨pre, e, post, hpre, hclasses, hrecord⟩ := exists_recordAmong q as c.classes
  have hnone : class? ⟨pre⟩ q = none := List.find?_eq_none.mpr fun d hd => by simp [hpre d hd]
  obtain ⟨he, hclass, hrest⟩ : e.query.isEquivalent q = true ∧ (c.class? q).getD ⟨q, {}⟩ = e ∧
      (¬ q.isEquivalent r = true → c.class? r = (class? ⟨pre⟩ r).or (class? ⟨post⟩ r)) := by
    rcases hclasses with ⟨hclasses, he⟩ | ⟨hclasses, rfl, rfl⟩
    · refine ⟨he, ?_, fun hr => ?_⟩
      · show (class? ⟨c.classes⟩ q).getD _ = e
        rw [hclasses, class?_of_equivalent hpre he]
        rfl
      · have her : ¬ e.query.isEquivalent r = true := fun her =>
          hr (isEquivalent_trans (isEquivalent_symm he) her)
        show class? ⟨c.classes⟩ r = _
        rw [hclasses, class?_append, class?_cons, if_neg her]
    · refine ⟨isEquivalent_refl q, ?_, fun _ => ?_⟩
      · show (class? ⟨c.classes⟩ q).getD _ = _
        rw [hclasses, hnone]
        rfl
      · show class? ⟨c.classes⟩ r = _
        rw [hclasses]
        exact (Option.or_none ..).symm
  have hrecorded : (recordIn e q as).2.query.isEquivalent q = true := query_recordIn.symm ▸ he
  show class? ⟨(recordAmong q as c.classes).2⟩ r = _
  rw [hrecord, hclass]
  split
  · next hr => rw [← class?_eq_of_isEquivalent hr, class?_of_equivalent hpre hrecorded]
  · next hr =>
    have her : ¬ (recordIn e q as).2.query.isEquivalent r = true := fun her =>
      hr (isEquivalent_trans (isEquivalent_symm hrecorded) her)
    rw [class?_append, class?_cons, if_neg her, hrest hr]

theorem get?_congr (h : c.class? q = c'.class? q) : c.get? q = c'.get? q := by
  unfold get?
  rw [h]

end AnswerCache

/-- The same is known but for the queries that are equivalent to `q`. -/
structure Knowledge.AgreesOff (q : AtomicQuery) (k k' : Knowledge) : Prop where
  programs : k.programs = k'.programs
  known : ∀ p, p.isEquivalent q = false → k.known.class? p = k'.known.class? p

namespace Resolve

variable {α β : Type} {p : α → Prop} {p' : β → Prop} {q r : AtomicQuery}

/-- The work looks at nothing that is known of `q` and adds nothing to it, and its result has a property. -/
def Ignores (q : AtomicQuery) (x : Resolve α) (p : α → Prop) : Prop :=
  ∀ k k' t, k.AgreesOff q k' → ∃ result l l' u, (x.run.run k).run t = ((result, l), u) ∧
    (x.run.run k').run t = ((result, l'), u) ∧ l.AgreesOff q l' ∧
    (l.known.class? q = k.known.class? q ∧ l'.known.class? q = k'.known.class? q) ∧
    ∀ a, result = .ok a → p a

theorem ignores_pure {a : α} (h : p a) : Ignores q (pure a) p :=
  fun _ _ _ hk => ⟨_, _, _, _, rfl, rfl, hk, ⟨rfl, rfl⟩, fun _ hb => Except.ok.inj hb ▸ h⟩

theorem ignores_throw {e : InferenceError} : Ignores q (throw e) p :=
  fun _ _ _ hk => ⟨_, _, _, _, rfl, rfl, hk, ⟨rfl, rfl⟩, fun _ h => nomatch h⟩

theorem Ignores.bind {x : Resolve α} {f : α → Resolve β} (hx : Ignores q x p)
    (hf : ∀ a, p a → Ignores q (f a) p') : Ignores q (x >>= f) p' := by
  intro k k' t hk
  obtain ⟨result, l, l', u, hrun, hrun', hl, ⟨hkept, hkept'⟩, hp⟩ := hx k k' t hk
  rw [run_bind, run_bind, hrun, hrun']
  cases result with
  | error e => exact ⟨_, _, _, _, rfl, rfl, hl, ⟨hkept, hkept'⟩, fun _ h => nomatch h⟩
  | ok a =>
    obtain ⟨result, m, m', v, hrun, hrun', hm, ⟨hkept₁, hkept₁'⟩, hp'⟩ := hf a (hp a rfl) l l' u hl
    exact ⟨result, m, m', v, hrun, hrun', hm, ⟨hkept₁.trans hkept, hkept₁'.trans hkept'⟩, hp'⟩

theorem ignores_lift {x : Fresh α} (h : Fresh.Always x p) : Ignores q (x : Resolve α) p :=
  fun _ _ t hk => ⟨_, _, _, _, rfl, rfl, hk, ⟨rfl, rfl⟩, fun _ ha => Except.ok.inj ha ▸ h t⟩

theorem ignores_liftExcept (x : Except InferenceError α) :
    Ignores q (liftExcept x : Resolve α) fun _ => True := by
  cases x with
  | ok a => exact ignores_pure trivial
  | error e => exact ignores_throw

theorem ignores_mapM {γ : Type} {f : γ → Resolve α} {l : List γ} (h : ∀ c, Ignores q (f c) fun _ => True) :
    Ignores q (l.mapM f) fun _ => True := by
  induction l with
  | nil => exact ignores_pure trivial
  | cons c l ih =>
    rw [List.mapM_cons]
    exact (h c).bind fun _ _ => ih.bind fun _ _ => ignores_pure trivial

theorem ignores_plan (c : Conjunction) : Ignores q (plan c) fun _ => True := by
  rintro ⟨programs, known⟩ ⟨programs', known'⟩ t ⟨rfl, hknown⟩
  exact ⟨_, _, _, _, rfl, rfl, ⟨rfl, hknown⟩, ⟨rfl, rfl⟩, fun _ _ => trivial⟩

theorem ignores_knownAnswers (hr : r.isEquivalent q = false) :
    Ignores q (knownAnswers r) fun _ => True := by
  intro k k' t hk
  have hget := AnswerCache.get?_congr (hk.known r hr)
  refine ⟨.ok ((k.known.get? r).getD []), k, k', t, rfl, ?_, hk, ⟨rfl, rfl⟩, fun _ _ => trivial⟩
  rw [hget]
  rfl

theorem ignores_record (hr : r.isEquivalent q = false) (as : List Answer) :
    Ignores q (record r as) fun _ => True := by
  intro k k' t hk
  have hkept (c : AnswerCache) : (c.record r as).2.class? q = c.class? q := by
    rw [AnswerCache.class?_record, hr]
    rfl
  refine ⟨.ok (), _, _, t, rfl, rfl, ⟨hk.programs, fun p hp => ?_⟩, ⟨hkept _, hkept _⟩, fun _ _ => trivial⟩
  show (k.known.record r as).2.class? p = (k'.known.record r as).2.class? p
  rw [AnswerCache.class?_record, AnswerCache.class?_record, hk.known r hr, hk.known p hp]

theorem ignores_lookup (s : Setting) (r : AtomicQuery) : Ignores q (lookup s r) fun _ => True := by
  unfold lookup
  dsimp only
  split
  · exact ignores_pure trivial
  · refine (ignores_plan _).bind fun _ _ => (ignores_liftExcept _).bind fun _ _ => ?_
    exact ignores_mapM fun _ => (ignores_lift (p := fun _ => True) fun _ => trivial).bind fun _ _ =>
      ignores_pure trivial

end Resolve

namespace AnswerStream

variable {s : Setting} {st : AnswerStream} {resolve : Resolver} {q : AtomicQuery} {id : RuleId} {u : Unifier}
  {Q : AtomicQuery → Prop}

/-- A set of queries to which `q` is not equivalent, with the bodies of the rules that apply to them. -/
structure Apart (s : Setting) (q : AtomicQuery) (Q : AtomicQuery → Prop) : Prop where
  body : ∀ {p id u c b}, Q p → (id, u) ∈ s.rules.applicable p.central → s.rules.get? id = some c →
    b ∈ c.body → ∀ n, Q (b.renumber n)
  not_isEquivalent : ∀ {p}, Q p → p.isEquivalent q = false

theorem apart_below (hs : s.rules.Built) (hi : (id, u) ∈ s.rules.applicable q.central)
    (hrecursive : s.rules.isRecursive id = false) : Apart s q (s.rules.Below id) :=
  ⟨fun h hl hc hb n => h.body hs hl hc hb n, fun h => h.not_isEquivalent hs hi hrecursive⟩

theorem ignores_joinBody {path : ResolutionPath} {body : List AtomicQuery}
    (hresolve : ∀ path p, Q p → Ignores q (resolve path p) fun _ => True)
    (hbody : ∀ b ∈ body, ∀ n, Q (b.renumber n)) (rows : List JoinRow) :
    Ignores q (joinBody resolve path rows body) fun _ => True := by
  induction body generalizing rows with
  | nil => exact ignores_pure trivial
  | cons b body ih =>
    obtain ⟨hb, hbody⟩ := List.forall_mem_cons.mp hbody
    unfold joinBody
    refine (ignores_lift fun _ => ⟨_, rfl⟩).bind (p := fun r => ∃ n, r = b.renumber n) ?_
    rintro _ ⟨n, rfl⟩
    refine (hresolve path _ (hb n)).bind fun as _ => ?_
    dsimp only
    split
    · exact ignores_pure trivial
    · exact ih hbody _

theorem ignores_derive (s : Setting) (p : AtomicQuery) (rule : RuleRef) (u : Unifier) (rows : List JoinRow) :
    Ignores q (derive s p rule u rows) fun _ => True := by
  refine (ignores_mapM fun row => ?_).bind fun _ _ => ignores_pure trivial
  dsimp only
  split
  · refine (ignores_liftExcept _).bind fun _ _ => ?_
    split
    · exact (ignores_lift (p := fun _ => True) fun _ => trivial).bind fun _ _ => ignores_pure trivial
    · exact ignores_pure trivial
  · exact ignores_pure trivial

theorem ignores_applyRule_of_body (hresolve : ∀ path p, Q p → Ignores q (resolve path p) fun _ => True)
    (hbody : ∀ c, s.rules.get? id = some c → ∀ b ∈ c.body, ∀ n, Q (b.renumber n)) (u : Unifier) :
    Ignores q (applyRule resolve s st id u) fun _ => True := by
  unfold applyRule
  split
  · exact ignores_throw
  · next c hc =>
    exact (ignores_joinBody hresolve (hbody c hc) _).bind fun _ _ => ignores_derive s _ _ u _

/-- One step of a stream for a query apart from `q`. -/
theorem ignores_step (hQ : Apart s q Q) (hresolve : ∀ path p, Q p → Ignores q (resolve path p) fun _ => True)
    (hst : Q st.query) (hrules : st.RulesApply s) :
    Ignores q (step resolve s st) fun st' => Q st'.query ∧ st'.RulesApply s := by
  have hemit (st : AnswerStream) (hst : Q st.query) (hrules : st.RulesApply s) (as : List Answer) :
      Q (st.emitAll as).query ∧ (st.emitAll as).RulesApply s :=
    ⟨(query_emitAll st as).symm ▸ hst, hrules.emitAll as⟩
  unfold step
  split
  · split
    · refine (ignores_knownAnswers (hQ.not_isEquivalent hst)).bind fun as _ => ignores_pure ?_
      obtain ⟨hquery, hrules⟩ := hemit st hst hrules as
      exact ⟨hquery, ⟨hrules.rules, hrules.rulesLeft⟩⟩
    · refine (ignores_lookup s st.query).bind fun as _ => ?_
      obtain ⟨hquery, hrules⟩ := hemit st hst hrules as
      dsimp only
      exact (ignores_record (hQ.not_isEquivalent hquery) _).bind fun _ _ =>
        ignores_pure ⟨hquery, ⟨hrules.rules, hrules.rulesLeft⟩⟩
  · dsimp only
    split
    · exact ignores_pure ⟨hst, ⟨hrules.rules, hrules.rulesLeft⟩⟩
    · exact ignores_pure ⟨hst, ⟨fun _ he => he, fun _ he => he⟩⟩
  · split
    · next id u rulesLeft hleft =>
      have hrest := hrules.rulesLeft
      rw [hleft, List.forall_mem_cons] at hrest
      refine (ignores_applyRule_of_body hresolve (fun c hc b hb n => hQ.body hst hrest.1 hc hb n) u).bind
        fun as _ => ?_
      obtain ⟨hquery, hrules⟩ := hemit { st with rulesLeft } hst ⟨hrules.rules, hrest.2⟩ as
      dsimp only
      exact (ignores_record (hQ.not_isEquivalent hquery) _).bind fun _ _ => ignores_pure ⟨hquery, hrules⟩
    · dsimp only
      split
      · exact ignores_pure ⟨hst, ⟨hrules.rules, hrules.rules⟩⟩
      · exact ignores_pure ⟨hst, ⟨hrules.rules, hrules.rulesLeft⟩⟩
  · exact ignores_pure ⟨hst, hrules⟩

theorem ignores_finishWithin (hQ : Apart s q Q)
    (hresolve : ∀ path p, Q p → Ignores q (resolve path p) fun _ => True) (hst : Q st.query)
    (hrules : st.RulesApply s) (n : Nat) : Ignores q (finishWithin resolve s n st) fun _ => True := by
  induction n generalizing st with
  | zero =>
    rw [finishWithin.eq_def]
    dsimp only
    split
    · exact ignores_pure trivial
    · split
      · exact ignores_throw
      · exact ignores_pure trivial
  | succ n ih =>
    rw [finishWithin.eq_def]
    dsimp only
    split
    · exact ignores_pure trivial
    · split
      · exact ignores_throw
      · exact (ignores_step hQ hresolve hst hrules).bind fun st' hst' => ih hst'.1 hst'.2

theorem ignores_resolveWithin (hQ : Apart s q Q) (n : Nat) (path : ResolutionPath) (p : AtomicQuery)
    (hp : Q p) : Ignores q (resolveWithin s n path p) fun _ => True := by
  have hstart := rulesApply_start s p path
  induction n generalizing path p with
  | zero =>
    exact (ignores_finishWithin hQ (fun _ _ _ => ignores_pure trivial) hp hstart _).bind fun _ _ =>
      ignores_pure trivial
  | succ n ih =>
    have hresolve (path : ResolutionPath) (p : AtomicQuery) (hp : Q p) :
        Ignores q (resolveWithin s n path p) fun _ => True := ih path p hp (rulesApply_start s p path)
    exact (ignores_finishWithin hQ hresolve hp hstart _).bind fun _ _ => ignores_pure trivial

/-- The application of a rule that is not recursive looks at nothing that is known of the query. -/
theorem ignores_applyRule (hs : s.rules.Built) (hi : (id, u) ∈ s.rules.applicable st.query.central)
    (hrecursive : s.rules.isRecursive id = false) :
    Ignores st.query (applyRule (bodyResolver s st) s st id u) fun _ => True := by
  have hQ := apart_below hs hi hrecursive
  refine ignores_applyRule_of_body (ignores_resolveWithin hQ _) (fun c hc b hb n => ?_) u
  exact ⟨id, c, b, n, .refl, hc, hb, rfl⟩

theorem agreesOff_record (k : Knowledge) (q : AtomicQuery) (as : List Answer) :
    k.AgreesOff q { k with known := (k.known.record q as).2 } := by
  refine ⟨rfl, fun p hp => ?_⟩
  have hqp : ¬ q.isEquivalent p = true := fun h => Bool.eq_false_iff.mp hp (isEquivalent_symm h)
  show k.known.class? p = (k.known.record q as).2.class? p
  rw [AnswerCache.class?_record, if_neg hqp]

/-- Recursion is never missed. The recursive rules are those that reach themselves through dependencies, as
they are told by the strongly connected components. While a rule that is not recursive is applied to the query
of a stream, no stream that is open below resolves an equivalent query; and whatever a round has recorded for
the query, to apply the rule once more gives the same and adds nothing to what is known of the query, so that
one round of the rule is enough. -/
theorem recursion_never_missed (hs : s.rules.Built) :
    (∀ i, s.rules.isRecursive i = true ↔ TransGen s.rules.DependsOn i i) ∧
      (∀ components, s.rules.AreComponents components →
        ∀ i, i ∈ s.rules.cyclic components ↔ s.rules.isRecursive i = true) ∧
      ∀ st outer id u rulesLeft, Chain s (st :: outer) → st.rulesLeft = (id, u) :: rulesLeft →
        s.rules.isRecursive id = false →
        (∀ inner, Chain s (inner ++ st :: outer) → ∀ st' ∈ inner,
          st'.query.isEquivalent st.query = false ∧ st.query.isEquivalent st'.query = false) ∧
        ∀ k t as, ∃ result l l' t',
          ((applyRule (bodyResolver s st) s st id u).run.run k).run t = ((result, l), t') ∧
          ((applyRule (bodyResolver s st) s st id u).run.run
            { k with known := (k.known.record st.query as).2 }).run t = ((result, l'), t') ∧
          l.AgreesOff st.query l' ∧
          l'.known.class? st.query = (k.known.record st.query as).2.class? st.query := by
  refine ⟨fun i => RuleSet.isRecursive_iff, fun components h i => ?_,
    fun st outer id u rulesLeft hchain hleft hrecursive => ⟨fun inner hinner st' hst' => ?_, fun k t as => ?_⟩⟩
  · rw [RuleSet.mem_cyclic_iff hs h, RuleSet.isRecursive_iff]
  · have hi := hchain.rulesApply.rulesLeft (id, u) (hleft ▸ .head _)
    have hne := (hinner.forall_below hs hleft st' hst').not_isEquivalent hs hi hrecursive
    exact ⟨hne, Bool.eq_false_iff.mpr fun h => Bool.eq_false_iff.mp hne (isEquivalent_symm h)⟩
  · have hi := hchain.rulesApply.rulesLeft (id, u) (hleft ▸ .head _)
    obtain ⟨result, l, l', t', hrun, hrun', hagree, ⟨-, hkept⟩, -⟩ :=
      ignores_applyRule hs hi hrecursive k _ t (agreesOff_record k st.query as)
    exact ⟨result, l, l', t', hrun, hrun', hagree, hkept⟩

end AnswerStream

/-! ## Two students -/

namespace TwoStudents

open AnswerStream

/-- The stream after a step. -/
def stepped (st : AnswerStream) : AnswerStream :=
  (step (bodyResolver setting st) setting st).resultOr moment.knowledge moment.supply st

/-- The stream of persons when it applies the rule. -/
def expanding : AnswerStream :=
  stepped (stepped { query, path := [] })

theorem built_rules : setting.rules.Built := by
  have h : ((RuleSet.add {} transaction rule).run {}).1.isOk = true := by decide +kernel
  exact .add .empty (Attempt.gives_resultOr h (default, {}))

theorem runs_stepped {start st : AnswerStream} {n : Nat} (h : Runs setting start n st) (hrunning : ¬ st.Ended)
    (hok : (((step (bodyResolver setting st) setting st).run.run moment.knowledge).run
      moment.supply).1.1.isOk = true) : Runs setting start (n + 1) (stepped st) :=
  h.step hrunning (Resolve.gives_resultOr hok st)

/-- What the stream of persons comes through until it applies the rule. -/
theorem runs_expanding :
    (∃ c b, setting.rules.rules = [c] ∧ c.id = ⟨0⟩ ∧ c.body = [b]) ∧
      setting.rules.isRecursive ⟨0⟩ = false ∧ (∃ u, expanding.rulesLeft = [(⟨0⟩, u)]) ∧
      expanding.stage = .needsRuleExpansion ∧ ¬ expanding.Ended ∧
      ∃ n, Runs setting { query, path := [] } n expanding := by
  let start : AnswerStream := { query, path := [] }
  let isOk (st : AnswerStream) : Bool := (((step (bodyResolver setting st) setting st).run.run
    moment.knowledge).run moment.supply).1.1.isOk
  obtain ⟨hids, hbodies, hrecursive, hleft, hstage, hended, hfirst, hended', hsecond⟩ :
      setting.rules.rules.map CompiledRule.id = [⟨0⟩] ∧
      (∀ r ∈ setting.rules.rules, r.body.length = 1) ∧ setting.rules.isRecursive ⟨0⟩ = false ∧
      expanding.rulesLeft.map Prod.fst = [⟨0⟩] ∧ expanding.stage = .needsRuleExpansion ∧
      ¬ expanding.Ended ∧ isOk start = true ∧ ¬ (stepped start).Ended ∧ isOk (stepped start) = true := by
    decide +kernel
  obtain ⟨c, hc, hid⟩ := List.map_eq_singleton_iff.mp hids
  obtain ⟨b, hb⟩ := List.length_eq_one_iff.mp (hbodies c (hc ▸ .head _))
  obtain ⟨⟨id, u⟩, hu, rfl⟩ := List.map_eq_singleton_iff.mp hleft
  have hrunning : ¬ start.Ended := by
    rintro (h | h) <;> cases h
  have hrun := runs_stepped (runs_stepped .start hrunning hfirst) hended' hsecond
  exact ⟨⟨c, b, hc, hid, hb⟩, hrecursive, ⟨u, hu⟩, hstage, hended, 2, hrun⟩

/-- The rule depends on no rule, and the query of its body is not equivalent to the one it is applied to. -/
theorem recursion_never_missed_students :
    ⟨0⟩ ∉ setting.rules.cyclic [[⟨0⟩]] ∧
      ∃ st, Chain setting [st, expanding] ∧ st.query.isEquivalent expanding.query = false := by
  obtain ⟨⟨c, b, hc, hid, hb⟩, hrecursive, ⟨u, hleft⟩, hstage, hended, n, hrun⟩ := runs_expanding
  obtain ⟨-, hcyclic, hbelow⟩ := recursion_never_missed built_rules
  have hcomponents : setting.rules.AreComponents [[⟨0⟩]] := by
    refine ⟨by simp, ?_, ?_⟩
    · rw [hc]
      simp [hid]
    · rintro _ (_ | ⟨_, ⟨⟩⟩) i hi j
      obtain rfl := List.mem_singleton.mp hi
      rw [hc, List.mem_singleton]
      constructor
      · rintro rfl
        exact ⟨⟨c, .head _, hid⟩, .refl, .refl⟩
      · rintro ⟨⟨r, hr, rfl⟩, -⟩
        rw [List.mem_singleton.mp hr, hid]
  refine ⟨fun h => ?_, ?_⟩
  · rw [hcyclic _ hcomponents, hrecursive] at h
    cases h
  · have hchain : Chain setting [expanding] := .outermost hrun
    have hget : setting.rules.get? ⟨0⟩ = some c := by
      rw [RuleSet.get?, hc]
      rfl
    have hnested : Chain setting
        [{ query := b.renumber ⟨0⟩, path := expanding.query :: expanding.path }, expanding] :=
      .nested hchain hended hstage hleft hget (hb ▸ .head _) .start
    obtain ⟨hapart, -⟩ := hbelow expanding [] ⟨0⟩ u [] hchain hleft hrecursive
    exact ⟨_, hnested, (hapart [_] hnested _ (.head _)).1⟩

end TwoStudents

end GraphInference
