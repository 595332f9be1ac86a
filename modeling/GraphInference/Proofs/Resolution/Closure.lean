import GraphInference.Proofs.Resolution.Saturation
import GraphInference.Proofs.Unification.Identity

/-!
# Resolution is closed under the rules

What a rule concludes from answers to its body is an answer to its head: the answers that streams find when
they come to no bound are exactly those that are derivable, and a head whose only atom is the central one
takes every joined binding as it is (`Setting.exists_head_answer`). This rests on coherence, which is about
the queries in the rules alone. Where a body is taken for the head although it is none of its renamings, it
is not expanded below the head, and the conclusion is lost.
-/

namespace GraphInference

open AtomicQuery Attempt

/-! ## Compiled rules -/

namespace RuleSet

variable {rules : RuleSet} {g : Graph} {c : CompiledRule}

/-- The rules were added one by one, each compiled against the graph or an earlier state of it. -/
inductive CompiledFor (g : Graph) : RuleSet → Prop where
  | empty : CompiledFor g {}
  | add {rules rules' : RuleSet} {t : Transaction} {r : Rule} {id : RuleId} {s s' : Supply}
    (h : CompiledFor g rules) (ht : t.graph.Precedes g)
    (hadd : (rules.add t r).Gives s (id, rules') s') : CompiledFor g rules'

theorem CompiledFor.built (h : rules.CompiledFor g) : rules.Built := by
  induction h with
  | empty => exact .empty
  | add _ _ hadd ih => exact .add ih hadd

/-- The head and the body of a compiled rule are decomposed queries. -/
theorem CompiledFor.made (h : rules.CompiledFor g) (hc : c ∈ rules.rules) :
    ∀ q ∈ c.head :: c.body, q.MadeFor g := by
  induction h with
  | empty => cases hc
  | @add rules rules' t r id s s' _ ht hadd ih =>
    obtain ⟨d, s₁, hd, hadd⟩ := gives_bind.mp hadd
    split at hadd
    · next head hhead =>
      obtain ⟨e, s₂, he, hadd⟩ := gives_bind.mp hadd
      obtain ⟨heq, -⟩ := gives_pure.mp hadd
      obtain ⟨-, rfl⟩ := Prod.mk.inj heq
      rcases List.mem_append.mp hc with hc | hc
      · exact ih hc
      · obtain rfl := List.mem_singleton.mp hc
        refine List.forall_mem_cons.mpr ⟨?_, fun q hq => ?_⟩
        · exact ⟨t.graph, ht, Decomposition.decomposed_of_mem_queries hd (hhead ▸ .head _)⟩
        · exact ⟨t.graph, ht, Decomposition.decomposed_of_mem_queries he hq⟩
    · exact absurd hadd not_gives_throw

/-- The set of rules that are added one by one. -/
def ofRules (t : Transaction) (rules : List Rule) : Attempt RuleSet :=
  rules.foldlM (fun set r => do return (← set.add t r).2) {}

theorem compiledFor_of_gives_ofRules {t : Transaction} {l : List Rule} {s s' : Supply}
    (h : (ofRules t l).Gives s rules s') : rules.CompiledFor t.graph := by
  have hfold {set : RuleSet} (hset : set.CompiledFor t.graph)
      (h : (l.foldlM (fun set r => do return (← set.add t r).2) set : Attempt RuleSet).Gives s rules s') :
      rules.CompiledFor t.graph := by
    clear * - hset h
    induction l generalizing set s with
    | nil =>
      obtain ⟨rfl, -⟩ := gives_pure.mp h
      exact hset
    | cons r l ih =>
      rw [List.foldlM_cons] at h
      obtain ⟨set', s₁, hset', h⟩ := gives_bind.mp h
      obtain ⟨⟨id, added⟩, s₂, hadd, hset'⟩ := gives_bind.mp hset'
      obtain ⟨rfl, rfl⟩ := gives_pure.mp hset'
      exact ih (.add hset ⟨[], rfl⟩ hadd) h
  exact hfold .empty h

/-- The head of the rule and the queries in the bodies of all rules. -/
def queriesFor (rules : RuleSet) (c : CompiledRule) : List AtomicQuery :=
  c.head :: rules.rules.flatMap CompiledRule.body

theorem mem_queriesFor_of_mem_body {d : CompiledRule} {p : AtomicQuery} (hd : d ∈ rules.rules)
    (hp : p ∈ d.body) : p ∈ rules.queriesFor c :=
  .tail _ (List.mem_flatMap.mpr ⟨d, hd, hp⟩)

theorem CompiledFor.made_queriesFor (h : rules.CompiledFor g) (hc : c ∈ rules.rules) :
    ∀ q ∈ rules.queriesFor c, q.MadeFor g := by
  refine List.forall_mem_cons.mpr ⟨h.made hc _ (.head _), fun q hq => ?_⟩
  obtain ⟨d, hd, hq⟩ := List.mem_flatMap.mp hq
  exact h.made hd q (.tail _ hq)

/-- A rule applies to its own head and leaves its variables alone. -/
theorem mem_applicable_head (hrules : rules.Built) (hc : c ∈ rules.rules)
    (hhead : c.head.central.isPredicate = false) :
    (c.id, {}) ∈ rules.applicable c.head.central ∧ rules.get? c.id = some c := by
  have hunify : c.unify? c.head.central = some {} := by
    unfold CompiledRule.unify?
    dsimp only
    rw [if_neg (not_not.mpr rfl), if_neg fun h => h.2 rfl, Atom.unifier_self hhead]
    rfl
  refine ⟨List.mem_filterMap.mpr ⟨c, hc, by rw [hunify]; rfl⟩, ?_⟩
  obtain ⟨i, hi⟩ := List.getElem?_of_mem hc
  rw [get?, hrules.id_eq hi]
  exact hi

end RuleSet

/-! ## Conclusions -/

/-- Answers that agree are joined into their merged binding. -/
theorem Interpretation.joins_of_forall₂ {I : Interpretation} {body : List AtomicQuery}
    {chosen : List Answer} {m ρ : Binding}
    (hchosen : List.Forall₂ (fun p a => I p a.binding) body chosen)
    (hmerge : chosen.foldlM (fun b a => Binding.merge? b a.binding) m = some ρ) : I.Joins body m ρ := by
  induction hchosen generalizing m with
  | nil => exact Option.some.inj hmerge
  | @cons p a body chosen ha _ ih =>
    rw [List.foldlM_cons] at hmerge
    obtain ⟨mid, hmid, hmerge⟩ := Option.bind_eq_some_iff.mp hmerge
    exact ⟨a.binding, mid, ha, hmid, ih hmerge⟩

namespace Setting

open AnswerStream

variable {s : Setting} {c : CompiledRule} {ρ : Binding}

/-- The knowledge of a reasoner that has resolved nothing yet. -/
def untaught (s : Setting) : Knowledge where
  programs := .ofCapacity s.config.planCacheCapacity

theorem trusts_untaught {queries : List AtomicQuery} {n : Nat}
    (h : ∀ q ∈ queries, q.FreshFrom { vars := n }) : s.Trusts queries s.untaught n :=
  ⟨fun q hq => ⟨h q hq, fun _ he => nomatch he⟩, fun _ he => (nomatch he), fun _ he => nomatch he⟩

/-- A head without predicates takes a joined binding that binds its variables as it is. -/
theorem yields_head (hhead : c.head.predicates = []) (hbound : ∀ v ∈ c.head.userVars, ρ.contains v = true) :
    s.Yields c.head {} ρ (ρ.restrict c.head.userVars.contains) := by
  have hpull {v : Var} (hv : v ∈ c.head.userVars) {i : ConceptId} :
      (pullBack c.head {} ρ).find? v = some i ↔ ρ.find? v = some i := by
    rw [find?_pullBack, Unifier.apply_of_get?_eq_none rfl]
    exact and_iff_right (SortedSet.mem_filter.mp hv).1
  refine ⟨fun v hv => ?_, ?_, ?_⟩
  · simp only [SortedMap.contains_iff_isSome, hpull hv]
    exact SortedMap.contains_iff_isSome.mp (hbound v hv)
  · rw [admits_eq_ok_iff, hhead]
    exact fun _ hp => nomatch hp
  · refine SortedMap.ext_find? fun v => Option.ext fun i => ?_
    rw [find?_restrict_userVars, find?_restrict_userVars]
    exact and_congr_right fun hv => hpull hv

/-- Resolution is closed under every rule whose head has no predicates, if the equivalent ones among its
head and the bodies of all rules are renamings of each other by their unifiers and the rules respect these:
an answer to each query of the body, found by reasoners of their own, makes an answer to the head, as far as
they agree and bind its variables. -/
theorem exists_head_answer (hg : s.transaction.graph.Reachable)
    (hrules : s.rules.CompiledFor s.transaction.graph) (hpolicy : s.config.lookupPolicy = .openWorld)
    (hreasoning : s.config.reasoningEnabled = true) (hc : c ∈ s.rules.rules)
    (hhead : c.head.predicates = [])
    (htexts : ∀ q ∈ s.rules.queriesFor c, ∀ r ∈ s.rules.queriesFor c, q.text = r.text →
      q.toConjunction = r.toConjunction)
    (hunifiers : ∀ q ∈ s.rules.queriesFor c, ∀ r ∈ s.rules.queriesFor c, q.isEquivalent r = true →
      s.rules.UnifiesWell q r)
    {chosen : List Answer}
    (hchosen : List.Forall₂ (fun p a => ∃ t as k' t', (∀ q ∈ s.rules.queriesFor c, q.FreshFrom t) ∧
      ((Reasoner.stream p).drain s).Gives s.untaught t as k' t' ∧ a ∈ as) c.body chosen)
    (hmerge : mergeAll? chosen = some ρ) (hbound : ∀ v ∈ c.head.userVars, ρ.contains v = true)
    {t t' : Supply} {as : List Answer} {k' : Knowledge}
    (hfresh : ∀ q ∈ s.rules.queriesFor c, q.FreshFrom t)
    (hdrain : (drainFreely s (Reasoner.stream c.head)).Gives s.untaught t as k' t') :
    ∃ a ∈ as, a.binding = ρ.restrict c.head.userVars.contains := by
  have hmade := hrules.made_queriesFor hc
  have h : s.Coherent (s.rules.queriesFor c) := ⟨hg, hrules.built,
    fun d hd p hp => RuleSet.mem_queriesFor_of_mem_body hd hp, hmade, htexts, hunifiers⟩
  have hfound : List.Forall₂ (fun p a => s.Derivable p a.binding) c.body chosen := by
    refine forall₂_imp_of_mem hchosen fun p hp a ⟨t, as, k', t', ht, hgives, ha⟩ => ?_
    exact (h.derivable_of_gives_drain (isAmong_of_mem (RuleSet.mem_queriesFor_of_mem_body hc hp))
      (trusts_untaught ht) hgives).2 a ha
  obtain ⟨g₁, -, hdecomposed⟩ := hmade c.head (.head _)
  obtain ⟨hid, hget⟩ := RuleSet.mem_applicable_head hrules.built hc hdecomposed.central.1
  refine (h.derivable_iff_of_gives_drainFreely hpolicy hreasoning (isAmong_of_mem (.head _))
    (trusts_untaught hfresh) hdrain).mpr (derivable_iff.mpr (.inr ?_))
  exact ⟨c.id, {}, c, ρ, hid, hget, Interpretation.joins_of_forall₂ hfound hmerge,
    yields_head hhead hbound⟩

end Setting

/-- A query whose places hold no variable yet to be generated names none. -/
theorem AtomicQuery.freshFrom_of_slots {q : AtomicQuery} {g : Graph} {t : Supply} (hq : q.MadeFor g)
    (h : ∀ v ∈ q.slots, v.userDefined = true ∨ v ∈ (List.range t.vars).map Var.generated) :
    q.FreshFrom t := by
  obtain ⟨g₁, -, hq⟩ := hq
  intro k hk hnames
  rcases h _ (mem_slots_of_names hq hnames) with huser | hgenerated
  · cases huser
  · obtain ⟨j, hj, heq⟩ := List.mem_map.mp hgenerated
    obtain rfl := Var.generated_injective heq
    exact absurd (List.mem_range.mp hj) (Nat.not_lt.mpr hk)

theorem mergeAll?_singleton (a : Answer) : mergeAll? [a] = some a.binding := by
  show [a].foldlM (fun b a => Binding.merge? b a.binding) .empty = _
  rw [List.foldlM_cons, Reasoner.merge?_empty]
  rfl

/-! ## Rules about types -/

namespace Subtypes

open AnswerStream

/-- Two types with one thing of the first. -/
def transaction : Transaction where
  name := ""
  graph := [.entityType ⟨"a"⟩, .entityType ⟨"b"⟩, .entity ⟨"a"⟩].foldl Graph.perform {}

/-- What is of one type is of the other. -/
def rule (var body head : String) : Rule where
  label := body ++ "-is-" ++ head
  body := ⟨[⟨.named var, [.isa (.label ⟨body⟩)]⟩]⟩
  head := ⟨[⟨.named var, [.isa (.label ⟨head⟩)]⟩]⟩

def added (rules : RuleSet) (r : Rule) (n : Nat) : RuleSet :=
  ((rules.add transaction r).resultOr { vars := n } (default, {})).2

/-- `$x isa a; => $x isa b;` and `$y isa b; => $y isa a;` -/
def setting : Setting where
  transaction := transaction
  config := {}
  rules := added (added {} (rule "x" "a" "b") 0) (rule "y" "b" "a") 9

def first : CompiledRule :=
  setting.rules.rules.headD default

def answers (q : AtomicQuery) : List Answer :=
  (drainFreely setting (Reasoner.stream q)).resultOr setting.untaught { vars := 18 } []

def thing : Binding :=
  .ofList [(.named "x", ⟨"V3"⟩)]

theorem compiledFor : setting.rules.CompiledFor transaction.graph := by
  have h : ((RuleSet.add {} transaction (rule "x" "a" "b")).run { vars := 0 }).1.isOk = true ∧
      ((RuleSet.add (added {} (rule "x" "a" "b") 0) transaction (rule "y" "b" "a")).run
        { vars := 9 }).1.isOk = true := by decide +kernel
  have hprecedes : Graph.Precedes transaction.graph transaction.graph := ⟨[], rfl⟩
  exact .add (.add .empty hprecedes (gives_resultOr h.1 (default, {}))) hprecedes
    (gives_resultOr h.2 (default, {}))

/-- What the rule needs of its queries. -/
theorem isOk_and_coherent :
    first.body.length = 1 ∧ first.head.predicates.isEmpty = true ∧
      (∀ q ∈ [first.body.headD default, first.head], ((((drainFreely setting (Reasoner.stream q)).run.run
        setting.untaught).run { vars := 18 }).1.1.isOk = true)) ∧
      (∀ q ∈ setting.rules.queriesFor first, ∀ v ∈ q.slots,
        v.userDefined = true ∨ v ∈ (List.range 18).map Var.generated) ∧
      (∀ q ∈ setting.rules.queriesFor first, ∀ r ∈ setting.rules.queriesFor first,
        q.text = r.text → q.toConjunction = r.toConjunction) ∧
      (∀ q ∈ setting.rules.queriesFor first, ∀ r ∈ setting.rules.queriesFor first,
        q.isEquivalent r = true → setting.rules.UnifiesWell q r) ∧
      (answers (first.body.headD default)).map Answer.binding = [thing] ∧
      (∀ v ∈ first.head.userVars.toList, thing.contains v = true) ∧
      thing.restrict first.head.userVars.contains = thing := by
  decide +kernel

/-- From the thing of the first type the rule concludes that it is of the second, and a reasoner that is
asked for things of the second type finds it. -/
theorem exists_head_answer_thing : ∃ a ∈ answers first.head, a.binding = thing := by
  obtain ⟨hbody, hhead, hok, hslots, htexts, hunifiers, hfound, hbound, hthing⟩ := isOk_and_coherent
  obtain ⟨p, hp⟩ := List.length_eq_one_iff.mp hbody
  rw [hp, List.headD_cons] at hok hfound
  obtain ⟨a, ha, hbinding⟩ : ∃ a ∈ answers p, a.binding = thing := List.mem_map.mp (hfound ▸ .head _)
  have hfirst : first ∈ setting.rules.rules := .head _
  have hfresh : ∀ q ∈ setting.rules.queriesFor first, q.FreshFrom { vars := 18 } := fun q hq =>
    freshFrom_of_slots (compiledFor.made_queriesFor hfirst q hq) (hslots q hq)
  have hchosen : List.Forall₂ (fun p a => ∃ t as k' t',
      (∀ q ∈ setting.rules.queriesFor first, q.FreshFrom t) ∧
        ((Reasoner.stream p).drain setting).Gives setting.untaught t as k' t' ∧ a ∈ as) first.body [a] := by
    rw [hp]
    refine .cons ⟨_, _, _, _, hfresh, gives_drain_of_freely (Resolve.gives_resultOr ?_ []), ha⟩ .nil
    exact hok p (.head _)
  have hmerge : mergeAll? [a] = some thing := by
    rw [mergeAll?_singleton, hbinding]
  have h := Setting.exists_head_answer (s := setting) (c := first) ⟨_, rfl⟩ compiledFor rfl rfl hfirst
    (List.isEmpty_iff.mp hhead) htexts hunifiers hchosen hmerge hbound hfresh
    (Resolve.gives_resultOr (hok _ (.tail _ (.head _))) [])
  rwa [hthing] at h

end Subtypes

/-! ## A type of itself -/

namespace Reflexive

open AnswerStream

/-- One thing of one type. -/
def transaction : Transaction where
  name := ""
  graph := [.entityType ⟨"a"⟩, .entity ⟨"a"⟩].foldl Graph.perform {}

/-- `$y isa $t; => $t isa $t;` -/
def rule : Rule where
  label := "reflexive"
  body := ⟨[⟨.named "y", [.isa (.var (.named "t"))]⟩]⟩
  head := ⟨[⟨.named "t", [.isa (.var (.named "t"))]⟩]⟩

def setting : Setting where
  transaction := transaction
  config := {}
  rules := ((RuleSet.add {} transaction rule).resultOr {} (default, {})).2

def compiled : CompiledRule :=
  setting.rules.rules.headD default

def answers (q : AtomicQuery) : List Answer :=
  (drainFreely setting (Reasoner.stream q)).resultOr setting.untaught { vars := 9 } []

/-- The body `$y isa $t;` passes for the head `$t isa $t;` and is not expanded below it, so that the type of
the thing is not found to be of itself. -/
theorem not_exists_head_answer : ¬ ∀ (s : Setting) (c : CompiledRule) (chosen as : List Answer)
    (ρ : Binding) (t t' : Supply) (k' : Knowledge), s.transaction.graph.Reachable →
    s.rules.CompiledFor s.transaction.graph → s.config.lookupPolicy = .openWorld →
    s.config.reasoningEnabled = true → c ∈ s.rules.rules → c.head.predicates = [] →
    List.Forall₂ (fun p a => ∃ t as k' t', (∀ q ∈ s.rules.queriesFor c, q.FreshFrom t) ∧
      (drainFreely s (Reasoner.stream p)).Gives s.untaught t as k' t' ∧ a ∈ as) c.body chosen →
    mergeAll? chosen = some ρ → (∀ v ∈ c.head.userVars, ρ.contains v = true) →
    (∀ q ∈ s.rules.queriesFor c, q.FreshFrom t) →
    (drainFreely s (Reasoner.stream c.head)).Gives s.untaught t as k' t' →
    ∃ a ∈ as, a.binding = ρ.restrict c.head.userVars.contains := by
  intro h
  have hadd : ((RuleSet.add {} transaction rule).run {}).1.isOk = true := by decide +kernel
  have hprecedes : Graph.Precedes transaction.graph transaction.graph := ⟨[], rfl⟩
  have hcompiled : setting.rules.CompiledFor transaction.graph :=
    .add .empty hprecedes (gives_resultOr hadd (default, {}))
  obtain ⟨hbody, hhead, hok, hslots, hfound, hnone⟩ : compiled.body.length = 1 ∧
      compiled.head.predicates.isEmpty = true ∧
      (∀ q ∈ [compiled.body.headD default, compiled.head], ((((drainFreely setting
        (Reasoner.stream q)).run.run setting.untaught).run { vars := 9 }).1.1.isOk = true)) ∧
      (∀ q ∈ setting.rules.queriesFor compiled, ∀ v ∈ q.slots,
        v.userDefined = true ∨ v ∈ (List.range 9).map Var.generated) ∧
      ((answers (compiled.body.headD default)).any fun a =>
        compiled.head.userVars.toList.all a.binding.contains) = true ∧
      (answers compiled.head).isEmpty = true := by decide +kernel
  obtain ⟨p, hp⟩ := List.length_eq_one_iff.mp hbody
  rw [hp, List.headD_cons] at hok hfound
  obtain ⟨a, ha, hbound⟩ := List.any_eq_true.mp hfound
  have hmem : compiled ∈ setting.rules.rules := .head _
  have hfresh : ∀ q ∈ setting.rules.queriesFor compiled, q.FreshFrom { vars := 9 } := fun q hq =>
    freshFrom_of_slots (hcompiled.made_queriesFor hmem q hq) (hslots q hq)
  obtain ⟨b, hb, -⟩ := h setting compiled [a] (answers compiled.head) a.binding _ _ _ ⟨_, rfl⟩ hcompiled rfl
    rfl hmem (List.isEmpty_iff.mp hhead)
    (by
      rw [hp]
      exact .cons ⟨_, _, _, _, hfresh, Resolve.gives_resultOr (hok p (.head _)) [], ha⟩ .nil)
    (mergeAll?_singleton a)
    (List.all_eq_true.mp hbound) hfresh (Resolve.gives_resultOr (hok _ (.tail _ (.head _))) [])
  rw [List.isEmpty_iff.mp hnone] at hb
  cases hb

end Reflexive

end GraphInference
