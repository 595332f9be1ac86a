import GraphInference.Proofs.Graph.Reachable
import GraphInference.Proofs.Resolution.Computation
import GraphInference.Proofs.Unification.Alignment

/-!
# What rules derive

The answers that a rule derives for a query come from the joined answers to its body. Such an answer
gives a user-defined variable of the query what the joined binding gives the variable that the unifier
renames it to. So the head matches the query as far as the unifier carries the variables of the query
to those at their places in the head.
-/

namespace GraphInference

/-! ## Rule sets -/

/-- The set was made by adding rules. -/
inductive RuleSet.Built : RuleSet → Prop where
  | empty : Built {}
  | add {rules rules' : RuleSet} {t : Transaction} {r : Rule} {id : RuleId} {s s' : Supply}
    (h : Built rules) (hadd : (rules.add t r).Gives s (id, rules') s') : Built rules'

namespace RuleSet

open Attempt

theorem add_gives {rules rules' : RuleSet} {t : Transaction} {r : Rule} {id : RuleId}
    {s s' : Supply} (h : (rules.add t r).Gives s (id, rules') s') :
    ∃ c : CompiledRule, c.id = ⟨rules.size⟩ ∧ rules'.rules = rules.rules ++ [c] := by
  obtain ⟨d, s₁, hd, h⟩ := gives_bind.mp h
  split at h
  · obtain ⟨e, s₂, he, h⟩ := gives_bind.mp h
    obtain ⟨h, -⟩ := gives_pure.mp h
    obtain ⟨-, rfl⟩ := Prod.mk.inj h
    exact ⟨_, rfl, rfl⟩
  · exact absurd h not_gives_throw

/-- The number of a rule is its place. -/
theorem Built.id_eq {rules : RuleSet} (h : rules.Built) {i : Nat} {c : CompiledRule}
    (hc : rules.rules[i]? = some c) : c.id = ⟨i⟩ := by
  induction h with
  | empty => cases hc
  | @add rules rules' _ _ _ _ _ _ hadd ih =>
    obtain ⟨d, hd, hrules⟩ := add_gives hadd
    rw [hrules, List.getElem?_append] at hc
    split at hc
    · exact ih hc
    · next hge =>
      have hmem := List.mem_of_getElem? hc
      obtain ⟨hlt, -⟩ := List.getElem?_eq_some_iff.mp hc
      obtain rfl := List.mem_singleton.mp hmem
      have hi : i = rules.size := by
        rw [List.length_singleton] at hlt
        unfold size
        omega
      rw [hi, hd]

/-- An applicable rule is found under its number. -/
theorem Built.get?_of_applicable {rules : RuleSet} (h : rules.Built) {a : Atom} {id : RuleId}
    {u : Unifier} (hu : (id, u) ∈ rules.applicable a) :
    ∃ c, rules.get? id = some c ∧ c.unify? a = some u := by
  obtain ⟨c, hc, he⟩ := List.mem_filterMap.mp hu
  obtain ⟨u', hu', he⟩ := Option.map_eq_some_iff.mp he
  obtain ⟨rfl, rfl⟩ := Prod.mk.inj he
  obtain ⟨i, hi⟩ := List.getElem?_of_mem hc
  refine ⟨c, ?_, hu'⟩
  rw [get?, h.id_eq hi]
  exact hi

end RuleSet

/-- A unifier of a rule is one of its head. -/
theorem CompiledRule.unifier_of_unify? {c : CompiledRule} {a : Atom} {u : Unifier}
    (h : c.unify? a = some u) : a.unifier c.head.central = .ok u := by
  rw [CompiledRule.unify?] at h
  split at h
  · cases h
  · split at h
    · cases h
    · cases hu : a.unifier c.head.central with
      | error e => rw [hu] at h; cases h
      | ok w => rw [hu] at h; exact congrArg Except.ok (Option.some.inj h)

/-! ## Joined rows -/

/-- The bindings of a list of answers as one, if they agree. -/
def mergeAll? (answers : List Answer) : Option Binding :=
  answers.foldlM (fun b a => Binding.merge? b a.binding) .empty

/-- Every row holds the merged binding of its answers. -/
def Merged (rows : List JoinRow) : Prop :=
  ∀ row ∈ rows, mergeAll? row.answers = some row.binding

theorem merged_empty : Merged [.empty] := by
  intro row hrow
  obtain rfl := List.mem_singleton.mp hrow
  rfl

theorem Merged.join {rows : List JoinRow} (h : Merged rows) (answers : List Answer) :
    Merged (JoinRow.join rows answers) := by
  intro row hrow
  obtain ⟨old, hold, hrow⟩ := List.mem_flatMap.mp hrow
  obtain ⟨a, -, hrow⟩ := List.mem_filterMap.mp hrow
  obtain ⟨b, hb, rfl⟩ := Option.map_eq_some_iff.mp hrow
  rw [mergeAll?, List.foldlM_append]
  have hold := h old hold
  rw [mergeAll?] at hold
  rw [hold]
  show List.foldlM (fun b a => Binding.merge? b a.binding) old.binding [a] = some b
  rw [List.foldlM_cons, hb]
  rfl

namespace AnswerStream

open Resolve

theorem merged_of_gives_joinBody {resolve : Resolver} {path : ResolutionPath}
    {body : List AtomicQuery} {rows rows' : List JoinRow} {k k' : Knowledge} {s s' : Supply}
    (hrows : Merged rows) (h : (joinBody resolve path rows body).Gives k s rows' k' s') :
    Merged rows' := by
  induction body generalizing rows k s with
  | nil =>
    obtain ⟨rfl, -⟩ := gives_pure.mp h
    exact hrows
  | cons q body ih =>
    obtain ⟨q', k₁, s₁, -, h⟩ := gives_bind.mp h
    obtain ⟨answers, k₂, s₂, -, h⟩ := gives_bind.mp h
    dsimp only at h
    split at h
    · obtain ⟨rfl, -⟩ := gives_pure.mp h
      exact fun _ hrow => nomatch hrow
    · exact ih (hrows.join answers) h

/-! ## Derived answers -/

/-- A variable has in one binding the concept that another has in a second. -/
def SameConcept (b ρ : Binding) (v w : Var) : Prop :=
  ∃ id, b.find? v = some id ∧ ρ.find? w = some id

/-- The binding gives different concepts to different variables. -/
def Injective (ρ : Binding) : Prop :=
  ∀ v w id, ρ.find? v = some id → ρ.find? w = some id → v = w

theorem find?_pullBack {q : AtomicQuery} {u : Unifier} {ρ : Binding} {v : Var} {id : ConceptId} :
    (pullBack q u ρ).find? v = some id ↔ v ∈ q.vars ∧ ρ.find? (u.apply v) = some id := by
  rw [pullBack, SortedMap.find?_ofList_keys, SortedSet.mem_iff_mem_toList]

theorem find?_project {a : Answer} {vars : List Var} {v : Var} {id : ConceptId} :
    (a.project vars).binding.find? v = some id ↔ v ∈ vars ∧ a.binding.find? v = some id :=
  SortedMap.find?_ofList_keys

/-- A derived answer explains itself by the answers of a row and gives each user-defined variable of
the query what the row gives the variable it is renamed to. -/
theorem exists_row_of_mem_derive {st : Setting} {q : AtomicQuery} {rule : RuleRef} {u : Unifier}
    {rows : List JoinRow} {as : List Answer} {k k' : Knowledge} {s s' : Supply}
    (h : (derive st q rule u rows).Gives k s as k' s') {a : Answer} (ha : a ∈ as) :
    ∃ row ∈ rows, a.explanation = .rule rule q.snapshot row.answers ∧
      ∀ v ∈ q.userVars, SameConcept a.binding row.binding v (u.apply v) := by
  obtain ⟨answers, k₁, s₁, hanswers, h⟩ := gives_bind.mp h
  obtain ⟨rfl, rfl, rfl⟩ := gives_pure.mp h
  obtain ⟨o, ho, rfl⟩ := List.mem_filterMap.mp ha
  obtain ⟨row, hrow, k₂, s₂, k₃, s₃, hf⟩ := exists_of_gives_mapM hanswers ho
  dsimp only at hf
  split at hf
  · next hall =>
    obtain ⟨admitted, k₄, s₄, -, hf⟩ := gives_bind.mp hf
    split at hf
    · obtain ⟨made, k₅, s₅, hmade, hf⟩ := gives_bind.mp hf
      obtain ⟨hsome, -⟩ := gives_pure.mp hf
      obtain rfl := Option.some.inj hsome
      obtain ⟨hmade, -⟩ := gives_lift.mp hmade
      obtain ⟨rfl, -⟩ := Prod.mk.inj hmade
      refine ⟨row, hrow, rfl, fun v hv => ?_⟩
      obtain ⟨id, hid⟩ := SortedMap.contains_iff_isSome.mp (List.all_eq_true.mp hall v hv)
      exact ⟨id, find?_project.mpr ⟨hv, hid⟩, (find?_pullBack.mp hid).2⟩
    · cases (gives_pure.mp hf).1
  · cases (gives_pure.mp hf).1

theorem mem_userVars {q : AtomicQuery} {v : Var} (hv : v ∈ q.central.vars)
    (hu : v.userDefined = true) : v ∈ q.userVars := by
  refine SortedSet.mem_filter.mpr ⟨SortedSet.mem_ofList.mpr ?_, hu⟩
  exact List.mem_flatMap.mpr ⟨q.central, .head _, hv⟩

/-- The head of a rule matches the query at every answer that the rule derives, provided that the
unifier carries the query's variables to those at their places in the head, as it does for clear
atoms; where the joined binding tells variables apart the head matches only then. -/
theorem applyRule_corresponds {resolve : Resolver} {st : Setting} {stream : AnswerStream}
    {id : RuleId} {u : Unifier} {as : List Answer} {k k' : Knowledge} {s s' : Supply}
    (hrules : st.rules.Built) (hq : stream.query.central.isPredicate = false)
    (hu : (id, u) ∈ st.rules.applicable stream.query.central)
    (hrun : (applyRule resolve st stream id u).Gives k s as k' s') :
    ∃ r, st.rules.get? id = some r ∧
      (∃ js, RelationAtom.Placement stream.query.central.players r.head.central.players js) ∧
      (stream.query.central.Clear r.head.central →
        stream.query.central.Corresponds (fun v w => u.apply v = w) r.head.central) ∧
      ∀ a ∈ as, ∃ ρ, mergeAll? a.explanation.answers = some ρ ∧
        (stream.query.central.Corresponds (fun v w => u.apply v = w) r.head.central →
          stream.query.central.Corresponds (SameConcept a.binding ρ) r.head.central) ∧
        (Injective ρ →
          stream.query.central.Corresponds (SameConcept a.binding ρ) r.head.central →
          stream.query.central.Corresponds (fun v w => u.apply v = w) r.head.central) := by
  obtain ⟨r, hr, hunify⟩ := hrules.get?_of_applicable hu
  have hunifier := CompiledRule.unifier_of_unify? hunify
  refine ⟨r, hr, ⟨_, (Atom.get?_unifier hq hunifier).1⟩, fun hc => hc.corresponds hq hunifier,
    fun a ha => ?_⟩
  unfold applyRule at hrun
  rw [hr] at hrun
  obtain ⟨rows, k₁, s₁, hrows, hderive⟩ := gives_bind.mp hrun
  obtain ⟨row, hrow, hexp, hsame⟩ := exists_row_of_mem_derive hderive ha
  refine ⟨row.binding, ?_, fun hc => hc.mono ?_, fun hinj hc => hc.mono ?_⟩
  · rw [hexp]
    exact merged_of_gives_joinBody merged_empty hrows row hrow
  · rintro v w hv huser rfl
    exact hsame v (mem_userVars hv huser)
  · rintro v w hv huser ⟨i, hi, hw⟩
    obtain ⟨j, hj, hρ⟩ := hsame v (mem_userVars hv huser)
    obtain rfl := Option.some.inj (hi.symm.trans hj)
    exact hinj _ _ _ hρ hw

end AnswerStream

/-! ## A captured anchor -/

namespace Enrolment

open AnswerStream

/-- One person, and a relation in which everyone plays by the rule below. -/
def transaction : Transaction where
  name := ""
  graph := [.entityType ⟨"person"⟩, .relationType ⟨"enrolment"⟩ [⟨"enrolled"⟩],
    .entity ⟨"person"⟩].foldl Graph.perform {}

/-- `$c isa person; => (enrolled: $c) isa enrolment;` -/
def rule : Rule where
  label := "everyone"
  body := ⟨[⟨.named "c", [.isa (.label ⟨"person"⟩)]⟩]⟩
  head := ⟨[⟨.generated 0,
    [.relation [⟨some ⟨"enrolled"⟩, .named "c"⟩], .isa (.label ⟨"enrolment"⟩)]⟩]⟩

def setting : Setting where
  transaction := transaction
  config := {}
  rules := ((RuleSet.add {} transaction rule).resultOr { vars := 1 } (default, {})).2

/-- `(enrolled: $x) isa enrolment;` about an anchor. -/
def pattern (anchor : Var) : Conjunction :=
  ⟨[⟨anchor, [.relation [⟨some ⟨"enrolled"⟩, .named "x"⟩], .isa (.label ⟨"enrolment"⟩)]⟩]⟩

def decomposed (anchor : Var) : DecomposedQuery :=
  (Decomposition.ofConjunction transaction (pattern anchor)).resultOr { vars := 9 } ⟨⟨[]⟩, []⟩

def stream (anchor : Var) : AnswerStream :=
  { query := (decomposed anchor).queries.headD default, path := [] }

/-- The rule with its unifier. -/
def applicable (anchor : Var) : RuleId × Unifier :=
  (setting.rules.applicable (stream anchor).query.central).headD default

/-- The rule applied to the query. -/
def application (anchor : Var) : Resolve (List Answer) :=
  AnswerStream.applyRule (AnswerStream.bodyResolver setting (stream anchor)) setting (stream anchor)
    (applicable anchor).1 (applicable anchor).2

def answers (anchor : Var) : List Answer :=
  (application anchor).resultOr { programs := .ofCapacity 1 } { vars := 19 } []

theorem built_rules : setting.rules.Built := by
  have h : ((RuleSet.add {} transaction rule).run { vars := 1 }).1.isOk = true := by decide +kernel
  exact .add .empty (Attempt.gives_resultOr h (default, {}))

/-- Without an anchor of its own the query is clear of the head, and everyone is enrolled. -/
theorem applyRule_corresponds_everyone :
    (answers (.generated 8)).length = 1 ∧ ∃ r, setting.rules.get? ⟨0⟩ = some r ∧
      ∀ a ∈ answers (.generated 8), ∃ ρ, mergeAll? a.explanation.answers = some ρ ∧
        ((stream (.generated 8)).query.central.Corresponds
            (fun v w => (applicable (.generated 8)).2.apply v = w) r.head.central →
          (stream (.generated 8)).query.central.Corresponds (SameConcept a.binding ρ)
            r.head.central) := by
  have hmem : (⟨0⟩, (applicable (.generated 8)).2) ∈
      setting.rules.applicable (stream (.generated 8)).query.central := by decide +kernel
  have hok : (((application (.generated 8)).run.run { programs := .ofCapacity 1 }).run
      { vars := 19 }).1.1.isOk = true := by decide +kernel
  obtain ⟨r, hr, -, -, hanswers⟩ := applyRule_corresponds built_rules (by decide +kernel) hmem
    (Resolve.gives_resultOr hok [])
  refine ⟨by decide +kernel, r, hr, fun a ha => ?_⟩
  obtain ⟨ρ, hρ, h, -⟩ := hanswers a ha
  exact ⟨ρ, hρ, h⟩

/-- A user-defined anchor that has the name of a variable of the rule is taken for that variable: at
the anchor of `$c (enrolled: $x) isa enrolment;` stands the enrolled person. -/
theorem anchor_captured : ¬ ∀ (st : Setting) (stream : AnswerStream) (id : RuleId)
    (u : Unifier) (as : List Answer) (k k' : Knowledge) (s s' : Supply),
    st.transaction.graph.Reachable → st.rules.Built →
    (∃ c t d t', (Decomposition.ofConjunction st.transaction c).Gives t d t' ∧
      stream.query ∈ d.queries) →
    (id, u) ∈ st.rules.applicable stream.query.central →
    (applyRule (bodyResolver st stream) st stream id u).Gives k s as k' s' →
    ∀ a ∈ as, ∃ r ρ, st.rules.get? id = some r ∧ mergeAll? a.explanation.answers = some ρ ∧
      stream.query.central.Corresponds (SameConcept a.binding ρ) r.head.central := by
  intro h
  have hdecomposed : ((Decomposition.ofConjunction transaction (pattern (.named "c"))).run
      { vars := 9 }).1.isOk = true := by decide +kernel
  have hquery : (stream (.named "c")).query ∈ (decomposed (.named "c")).queries := by
    have hlen : (decomposed (.named "c")).queries.length = 1 := by decide +kernel
    obtain ⟨q, hq⟩ := List.length_eq_one_iff.mp hlen
    show (decomposed (.named "c")).queries.headD default ∈ _
    rw [hq]
    exact .head _
  have hmem : (⟨0⟩, (applicable (.named "c")).2) ∈
      setting.rules.applicable (stream (.named "c")).query.central := by decide +kernel
  have hok : (((application (.named "c")).run.run { programs := .ofCapacity 1 }).run
      { vars := 19 }).1.1.isOk = true := by decide +kernel
  have hunbound : ((answers (.named "c")).any fun a =>
      (mergeAll? a.explanation.answers).all fun ρ =>
        (setting.rules.get? ⟨0⟩).all fun r => !ρ.contains r.head.central.var) = true := by
    decide +kernel
  obtain ⟨a, ha, hunbound⟩ := List.any_eq_true.mp hunbound
  obtain ⟨r, ρ, hr, hρ, hc⟩ := h setting (stream (.named "c")) ⟨0⟩ _ _ _ _ _ _ ⟨_, rfl⟩ built_rules
    ⟨_, _, _, _, Attempt.gives_resultOr hdecomposed ⟨⟨[]⟩, []⟩, hquery⟩ hmem
    (Resolve.gives_resultOr hok []) a ha
  obtain ⟨i, -, hi⟩ := hc.anchor (by decide +kernel) (by decide +kernel)
  rw [hρ, hr, Option.all_some, Option.all_some, SortedMap.contains, hi] at hunbound
  cases hunbound

end Enrolment

end GraphInference
