import GraphInference.Proofs.Resolution.Configurations
import GraphInference.Proofs.Resolution.Lockstep

/-!
# The names of rules' variables

A reasoner finds the same bindings whatever the user-defined variables of its rules are called, if the rules capture
no variable of a query, neither under the old names nor under the new ones (`RuleSet.Hygienic`):
`Reasoner.exists_answers_of_renamed_rules`. It is so at any bound, since streams under the one names go in step with
streams under the others. Where a rule's variable has the name of an anchor of the pattern, the reasoner takes the
anchor for that variable, and finds what it does not find under another name: `Pupils.not_answers_of_renamed_rules`.
-/

namespace GraphInference

open Decomposition Resolve Binding

/-! ## Patterns -/

theorem Binding.images_id_iff {B B' : Binding → Prop} : Images id B B' ↔ ∀ b, B' b ↔ B b := by
  simp [Images, relabel_id]

namespace Reasoner

variable {S : Knowledge → Nat → Knowledge → Nat → Prop} {drain drain' : AtomicQuery → Resolve (List Answer)}
  {tx : Transaction} {c : Conjunction} {d : DecomposedQuery} {q : AtomicQuery} {k k' l l' : Knowledge}
  {t t₁ u u' : Supply} {as as' : List Answer} {b : Binding}

/-- Where each query of a pattern has the same bindings the pattern has. -/
theorem has_iff_of_gives_resolveWith (hd : (ofConjunction tx c).Gives t d t₁)
    (hqueries : ∀ q ∈ d.queries, Agrees S (drain q) (drain' q) fun as as' =>
      Images id (AnswerSet.Has ⟨as⟩) (AnswerSet.Has ⟨as'⟩))
    (hs : S k t₁.vars k' t₁.vars) (h : (resolveWith drain tx c).Gives k t as l u)
    (h' : (resolveWith drain' tx c).Gives k' t as' l' u') : AnswerSet.Has ⟨as⟩ b ↔ AnswerSet.Has ⟨as'⟩ b := by
  obtain ⟨rows, _, hrows, -, -, has⟩ := exists_rows_of_gives_resolveWith hd h
  obtain ⟨rows', _, hrows', -, -, has'⟩ := exists_rows_of_gives_resolveWith hd h'
  have hstart : Images id (JoinRow.Has [.empty]) (JoinRow.Has [.empty]) := images_id_iff.mpr fun _ => Iff.rfl
  obtain ⟨-, himages⟩ := agrees_joinAllWith Function.injective_id (List.forall₂_same.mpr hqueries) hstart
    _ _ _ _ _ _ _ _ _ _ hs hrows hrows'
  have hiff := images_id_iff.mp himages
  refine (has b).trans (Iff.trans ⟨?_, ?_⟩ (has' b).symm)
  · rintro ⟨row, hrow, rfl⟩
    obtain ⟨row', hrow', heq⟩ := (hiff _).mpr ⟨row, hrow, rfl⟩
    exact ⟨row', hrow', by rw [heq]⟩
  · rintro ⟨row', hrow', rfl⟩
    obtain ⟨row, hrow, heq⟩ := (hiff _).mp ⟨row', hrow', rfl⟩
    exact ⟨row, hrow, by rw [heq]⟩

end Reasoner

namespace Setting.Mirrors

open Reasoner

variable {s s' : Setting} {queries queries' : List AtomicQuery} {c : Conjunction} {d : DecomposedQuery}
  {k k' l l' : Knowledge} {t t₁ u u' : Supply} {as as' : List Answer} {b : Binding}

/-- Settings that mirror each other answer a pattern with the same bindings. -/
theorem has_iff_of_gives_resolve (h : s.Mirrors s' queries queries') (hd : (ofConjunction s.transaction c).Gives t d t₁)
    (hqueries : ∀ q ∈ d.queries, AtomicQuery.Mirrored queries queries' {} q q q)
    (hk : s.Shares s' queries queries' k t₁.vars k' t₁.vars) (hresolve : (resolve s c).Gives k t as l u)
    (hresolve' : (resolve s' c).Gives k' t as' l' u') : AnswerSet.Has ⟨as⟩ b ↔ AnswerSet.Has ⟨as'⟩ b := by
  rw [resolve_eq] at hresolve hresolve'
  rw [h.transaction] at hresolve'
  exact has_iff_of_gives_resolveWith hd (fun q hq => h.agrees_drain (hqueries q hq)) hk hresolve hresolve'

end Setting.Mirrors

namespace Reasoner

variable {s : Setting} {R R' : List Rule} {c : Conjunction} {d : DecomposedQuery} {t t' v v' : Supply}

/-- Rules whose variables are renamed compile as the rules do, and a pattern is answered with the same bindings, if
the rules are hygienic under the old names and under the new ones. -/
theorem exists_answers_of_renamed_rules (hg : s.transaction.graph.Reachable) (hopen : s.transaction.isOpen = true)
    (hrenamed : List.Forall₂ Rule.RenamedTo R R') (hrules : (RuleSet.ofRules s.transaction R).Gives v s.rules v')
    (hd : (ofConjunction s.transaction c).Gives t d t') (hregular : s.Regular c d.queries t)
    (hhygienic : s.rules.Hygienic (d.queries ++ s.rules.bodies)) :
    ∃ rules', (RuleSet.ofRules s.transaction R').Gives v rules' v' ∧
      (({ s with rules := rules' } : Setting).Regular c d.queries t →
        rules'.Hygienic (d.queries ++ rules'.bodies) →
        ∃ as k u as' k' u', (resolve s c).Gives s.untaught t as k u ∧
          (resolve { s with rules := rules' } c).Gives s.untaught t as' k' u' ∧
          ∀ b, (∃ a ∈ as, a.binding = b) ↔ ∃ a ∈ as', a.binding = b) := by
  obtain ⟨rules', hrules', hall⟩ := RuleSet.exists_gives_ofRules hrenamed hrules
  refine ⟨rules', hrules', fun hregular' hhygienic' => ?_⟩
  have hcompiled : s.rules.CompiledFor s.transaction.graph := RuleSet.compiledFor_of_gives_ofRules hrules
  have hcompiled' : rules'.CompiledFor s.transaction.graph := RuleSet.compiledFor_of_gives_ofRules hrules'
  obtain ⟨as, k, u, hgives⟩ := hregular.exists_gives_resolve hg hcompiled hd hopen
  obtain ⟨as', k', u', hgives'⟩ : ∃ as k u, (resolve { s with rules := rules' } c).Gives s.untaught t as k u :=
    hregular'.exists_gives_resolve hg hcompiled' hd hopen
  have hmirrors : s.Mirrors { s with rules := rules' } (d.queries ++ s.rules.bodies) (d.queries ++ rules'.bodies) := {
    transaction := rfl, config := rfl, rules := hall
    coherent := hregular.coherent_of_gives hg hcompiled hd
    coherent_renamed := hregular'.coherent_of_gives hg hcompiled' hd
    hygienic := hhygienic, hygienic_renamed := hhygienic' }
  have hqueries : ∀ q ∈ d.queries, AtomicQuery.Mirrored (d.queries ++ s.rules.bodies) (d.queries ++ rules'.bodies)
      {} q q q := fun q hq => by
    have htidy := tidy_of_gives hregular.present hd q hq
    have hmem : q ∈ d.queries ++ rules'.bodies := List.mem_append_left _ hq
    refine ⟨Unifier.permutes_empty, htidy, List.mem_append_left _ hq, ?_, .refl q, ?_⟩
    · rwa [htidy.rename_empty]
    · rw [htidy.rename_empty]
      exact .refl q
  have hshares : s.Shares { s with rules := rules' } (d.queries ++ s.rules.bodies) (d.queries ++ rules'.bodies)
      s.untaught t'.vars s.untaught t'.vars := {
    trusts := (hregular.freshFor hcompiled).trusts_untaught hg.wellFormed hd
    trusts_renamed := (hregular'.freshFor hcompiled').trusts_untaught hg.wellFormed hd
    classes := .nil }
  exact ⟨as, k, u, as', k', u', hgives, hgives', fun b =>
    hmirrors.has_iff_of_gives_resolve hd hqueries hshares hgives hgives'⟩

end Reasoner

/-! ## A pupil by other names -/

namespace Pupils

open Reasoner
open Enrolment (transaction pattern decomposed)

/-- `$name isa person; => (enrolled: $name) isa enrolment;` -/
def rule (name : String) : Rule where
  label := "everyone"
  body := ⟨[⟨.named name, [.isa (.label ⟨"person"⟩)]⟩]⟩
  head := ⟨[⟨.generated 0, [.relation [⟨some ⟨"enrolled"⟩, .named name⟩], .isa (.label ⟨"enrolment"⟩)]⟩]⟩

/-- The rule by itself, compiled. -/
def rules (name : String) : RuleSet :=
  (RuleSet.ofRules transaction [rule name]).resultOr { vars := 1 } {}

def setting (rules : RuleSet) : Setting where
  transaction := transaction
  config := {}
  rules := rules

/-- What a reasoner binds that has resolved nothing before. -/
def found? (name : String) (anchor : Var) : Option (List Binding) :=
  (resolve (setting (rules name)) (pattern anchor)).bindings? (setting (rules name)).untaught { vars := 9 }

theorem withRules_eq (rules rules' : RuleSet) : ({ setting rules with rules := rules' } : Setting) = setting rules' :=
  rfl

theorem untaught_eq (rules rules' : RuleSet) : (setting rules).untaught = (setting rules').untaught :=
  rfl

theorem mem_names_iff {name : String} {v : Var} : v ∈ (rule name).names ↔ v = .named name ∨ v = .generated 0 := by
  simp only [rule, Rule.names, Property.vars, List.cons_append, List.nil_append, List.flatMap_cons, List.flatMap_nil,
    List.append_nil, List.map_cons, List.map_nil, List.mem_cons, List.not_mem_nil, or_false]
  grind

/-- The rule under one name is the rule under another one, renamed. -/
theorem renamedTo {m n : String} (hm : (Var.named m).isEmpty = false) (hn : (Var.named n).isEmpty = false) :
    (rule m).RenamedTo (rule n) := by
  have hne {name : String} : Var.generated 0 ≠ .named name :=
    fun heq => Bool.noConfusion (congrArg Var.userDefined heq)
  have hgenerated : (Var.generated 0).isEmpty = false := by decide +kernel
  refine ⟨fun v hv => ?_, fun v => if v = .named m then .named n else v, ?_, fun v hv w hw heq => ?_, fun v hv => ?_⟩
  · rcases mem_names_iff.mp hv with rfl | rfl
    · exact hm
    · exact hgenerated
  · simp [rule, Rule.mapVars, Conjunction.mapVars, Statement.mapVars, Property.mapVars, RolePlayer.mapVars,
      TypeRef.mapVars, hne]
  · rcases mem_names_iff.mp hv with rfl | rfl <;> rcases mem_names_iff.mp hw with rfl | rfl <;>
      simp [hne, hne.symm] at heq ⊢
  · rcases mem_names_iff.mp hv with rfl | rfl
    · simpa [Var.named] using hn
    · simpa [hne] using hgenerated

/-- The name of the pattern's own variable is a name like others. -/
theorem exists_answers_of_renamed_rules_pupil : ∃ as k u as' k' u',
    (resolve (setting (rules "d")) (pattern (.generated 8))).Gives (setting (rules "d")).untaught { vars := 9 } as k u ∧
      (resolve (setting (rules "x")) (pattern (.generated 8))).Gives (setting (rules "d")).untaught { vars := 9 }
        as' k' u' ∧
      ∀ b, (∃ a ∈ as, a.binding = b) ↔ ∃ a ∈ as', a.binding = b := by
  have hrule : ((RuleSet.ofRules transaction [rule "d"]).run { vars := 1 }).1.isOk = true := by decide +kernel
  have hrule' : ((RuleSet.ofRules transaction [rule "x"]).run { vars := 1 }).1.isOk = true := by decide +kernel
  have hok : ((ofConjunction transaction (pattern (.generated 8))).run { vars := 9 }).1.isOk = true := by
    decide +kernel
  have hregular : (setting (rules "d")).Regular (pattern (.generated 8)) (decomposed (.generated 8)).queries
      { vars := 9 } := by
    decide +kernel
  have hregular' : (setting (rules "x")).Regular (pattern (.generated 8)) (decomposed (.generated 8)).queries
      { vars := 9 } := by
    decide +kernel
  have hhygienic : (rules "d").Hygienic ((decomposed (.generated 8)).queries ++ (rules "d").bodies) := by
    decide +kernel
  have hhygienic' : (rules "x").Hygienic ((decomposed (.generated 8)).queries ++ (rules "x").bodies) := by
    decide +kernel
  have hrenamed : List.Forall₂ Rule.RenamedTo [rule "d"] [rule "x"] :=
    .cons (renamedTo (by decide +kernel) (by decide +kernel)) .nil
  obtain ⟨rules', hrules', hsame⟩ := exists_answers_of_renamed_rules (s := setting (rules "d")) ⟨_, rfl⟩ rfl hrenamed
    (Attempt.gives_resultOr hrule {}) (Attempt.gives_resultOr hok ⟨⟨[]⟩, []⟩) hregular hhygienic
  obtain rfl : rules' = rules "x" :=
    Except.ok.inj (Prod.mk.inj (hrules'.symm.trans (Attempt.gives_resultOr hrule' {}))).1
  rw [withRules_eq] at hsame
  exact hsame hregular' hhygienic'

/-- Where the anchor of the pattern has the name of the rule's variable, it is taken for that variable, and the
person is found as both the enrolment and the enrolled. Under another name nothing is found. -/
theorem not_answers_of_renamed_rules : ¬ ∀ (s : Setting) (R R' : List Rule) (rules' : RuleSet) (c : Conjunction)
    (as as' : List Answer) (k k' : Knowledge) (t u u' v v' w' : Supply), s.transaction.graph.Reachable →
    s.transaction.isOpen = true → s.config.validate = .ok s.config → List.Forall₂ Rule.RenamedTo R R' →
    (RuleSet.ofRules s.transaction R).Gives v s.rules v' →
    (RuleSet.ofRules s.transaction R').Gives v rules' w' →
    (resolve s c).Gives s.untaught t as k u →
    (resolve { s with rules := rules' } c).Gives s.untaught t as' k' u' →
    ∀ b, (∃ a ∈ as, a.binding = b) ↔ ∃ a ∈ as', a.binding = b := by
  intro h
  have hrule : ((RuleSet.ofRules transaction [rule "d"]).run { vars := 1 }).1.isOk = true := by decide +kernel
  have hrule' : ((RuleSet.ofRules transaction [rule "c"]).run { vars := 1 }).1.isOk = true := by decide +kernel
  have hfound : found? "d" (.named "c") = some [] := by decide +kernel
  have hfound' : found? "c" (.named "c") = some [.ofList [(.named "c", ⟨"V4"⟩), (.named "x", ⟨"V4"⟩)]] := by
    decide +kernel
  obtain ⟨as, _, _, hgives, has⟩ := Resolve.exists_gives_of_bindings? hfound
  obtain ⟨as', _, _, hgives', has'⟩ := Resolve.exists_gives_of_bindings? hfound'
  have hrenamed : List.Forall₂ Rule.RenamedTo [rule "d"] [rule "c"] :=
    .cons (renamedTo (by decide +kernel) (by decide +kernel)) .nil
  rw [untaught_eq (rules "c") (rules "d"), ← withRules_eq (rules "d") (rules "c")] at hgives'
  have hsame := h (setting (rules "d")) _ _ (rules "c") _ _ _ _ _ _ _ _ _ _ _ ⟨_, rfl⟩ rfl rfl hrenamed
    (Attempt.gives_resultOr hrule {}) (Attempt.gives_resultOr hrule' {}) hgives hgives'
  exact List.not_mem_nil ((has _).mp ((hsame _).mpr ((has' _).mpr (.head _))))

end Pupils

end GraphInference
