import GraphInference.Proofs.Query.Retyping
import GraphInference.Proofs.Resolution.FurtherRules

/-!
# Types and their supertypes

What is looked up for a type is looked up for every type above it. What a rule derives for a type is derived
for a type above it by another rule only, since a rule applies to queries of the very type of its head: by a
counterpart that concludes the same of the other type, from the same body or from one whose types are raised
in turn (`RuleSet.Counterpart`). With such counterparts what follows for a type follows for those above it
(`Setting.Entails.of_raises`), and a reasoner finds for them what it finds for the type:
`Reasoner.exists_answers_of_supertypes`.
-/

namespace GraphInference

open AtomicQuery Decomposition AnswerStream

/-! ## Raised queries -/

/-- The labels are of types that are related. -/
def Graph.Relates (g : Graph) (P : ConceptId → ConceptId → Prop) (l l' : Label) : Prop :=
  ∃ id ∈ g.labelled? l, ∃ id' ∈ g.labelled? l', P id id'

namespace RuleSet

variable (rules : RuleSet) (P : ConceptId → ConceptId → Prop)

/-- The one query is turned into the other by a renaming of system variables that the rules respect. -/
def Agrees (q q' : AtomicQuery) : Prop :=
  ∃ ρ : Var → Var, (∀ v ∈ q.slots, v.userDefined = true → ρ v = v) ∧ rules.Respects ρ q q'

/-- The second query asks what the first does, of the same type or of one that is related to it. -/
inductive Raises : AtomicQuery → AtomicQuery → Prop where
  | agrees {q q' : AtomicQuery} (h : rules.Agrees q q') : Raises q q'
  | retype {q q' : AtomicQuery} {id id' : ConceptId} {l : Label} (hid : q.typeId? = some id)
    (hl : q.central.label? = some l) (hid' : q'.typeId? = some id') (hP : P id id') (hapart : q'.TypeApart)
    (h : rules.Agrees q (q'.retype id l)) : Raises q q'

/-- The second rule concludes what the first does, but for the type, from a body whose queries are raised. -/
structure Counterpart (c c' : CompiledRule) : Prop where
  head : c.head.central.Resembles c'.head.central
  body : List.Forall₂ (rules.Raises P) c.body c'.body

/-- Every rule of a list that concludes a type has counterparts that conclude the types related to it. -/
def Lifts (list : List CompiledRule) : Prop :=
  ∀ c ∈ list, ∀ id ∈ c.head.typeId?, ∀ id', P id id' →
    ∃ c' ∈ rules.rules, c'.head.typeId? = some id' ∧ rules.Counterpart P c c'

variable {rules} {P} {q : AtomicQuery} {c c' : CompiledRule} {i : RuleId} {u : Unifier}

theorem agrees_refl (q : AtomicQuery) : rules.Agrees q q := by
  have hsame {κ : Type} (l : List (κ × Var)) : l.Perm (relabel id l) := .of_eq l.map_id.symm
  refine ⟨id, fun _ _ _ => rfl, ⟨fun _ _ _ _ h => h, fun _ _ => rfl, fun _ _ => rfl, rfl, rfl, rfl, rfl,
    hsame _, hsame _⟩, fun c _ => ?_⟩
  cases c.unify? q.central with
  | none => exact .none
  | some u => exact .some fun v _ => (em _).imp (fun h => ⟨h, rfl⟩) fun h => ⟨h, h⟩

/-- The unifier of the two queries leaves user-defined variables alone and is a renaming that the rules
respect. -/
def UnifiesInto (rules : RuleSet) (q q' : AtomicQuery) : Prop :=
  ∃ u ∈ (q.unifier q').toOption, (∀ v ∈ q.slots, v.userDefined = true → u.apply v = v) ∧
    rules.Respects u.apply q q'

instance (rules : RuleSet) (q q' : AtomicQuery) : Decidable (rules.UnifiesInto q q') :=
  inferInstanceAs (Decidable (∃ u ∈ (q.unifier q').toOption, _))

theorem UnifiesInto.agrees {q' : AtomicQuery} (h : rules.UnifiesInto q q') : rules.Agrees q q' :=
  let ⟨u, _, huser, hrespects⟩ := h
  ⟨u.apply, huser, hrespects⟩

/-- Where a rule applies to a query of another type, one of the query's own type whose head resembles the
rule's applies to the query, and leads its variables alike but for the variable of the type. -/
theorem exists_applicable_of_resembles {id id' : ConceptId} {l : Label} (hrules : rules.Built)
    (hq : q.central.isPredicate = false) (hid : q.typeId? = some id') (hapart : q.TypeApart)
    (hc : rules.get? i = some c) (hu : (i, u) ∈ rules.applicable (q.retype id l).central)
    (hc' : c' ∈ rules.rules) (htype : c'.head.typeId? = some id')
    (hhead : c.head.central.Resembles c'.head.central) :
    ∃ u', (c'.id, u') ∈ rules.applicable q.central ∧ rules.get? c'.id = some c' ∧
      ∀ v, v ≠ q.central.typeVar → u'.apply v = u.apply v := by
  obtain ⟨c₀, hc₀, hunify⟩ := hrules.get?_of_applicable hu
  obtain rfl := Option.some.inj (hc₀.symm.trans hc)
  have hfamily : q.central.family = c₀.head.central.family :=
    (Atom.family_retype id l q.central).symm.trans (CompiledRule.fits_of_unify? hunify).1
  have hunifier := CompiledRule.unifier_of_unify? hunify
  rw [retype, Atom.unifier_retype] at hunifier
  obtain ⟨u', hu', hget⟩ := Atom.exists_unifier_of_resembles hq hfamily hhead hapart.1 hunifier
  obtain ⟨k, hk⟩ := List.getElem?_of_mem hc'
  have hindex : c'.id = ⟨k⟩ := hrules.id_eq hk
  have hunify' : c'.unify? q.central = some u' := by
    unfold CompiledRule.unify?
    dsimp only
    rw [if_neg (not_not.mpr (hfamily.trans hhead.family.symm)), if_neg fun h => h.2 (htype.trans hid.symm), hu']
    rfl
  refine ⟨u', List.mem_filterMap.mpr ⟨c', hc', by rw [hunify', Option.map_some]⟩, by rw [get?, hindex, hk],
    fun v hv => ?_⟩
  rw [Unifier.apply, Unifier.apply, hget v hv]

end RuleSet

/-! ## What follows for raised queries -/

namespace Setting

variable {s : Setting} {P : ConceptId → ConceptId → Prop} {rules : RuleSet} {q q' : AtomicQuery}
  {i : RuleId} {c c' : CompiledRule} {u u' : Unifier} {m b : Binding} {id id' : ConceptId} {l : Label}
  {I I' : Interpretation}

/-- What a joined binding gives a query by one unifier, it gives by another one that leads the user-defined
variables and those of predicates alike. -/
theorem Yields.congr (hvars : q'.vars = q.vars) (hpredicates : q'.predicates = q.predicates)
    (happly : ∀ v, v.userDefined = true ∨ (∃ p ∈ q.predicates, p.var = v) → u'.apply v = u.apply v)
    (h : s.Yields q u m b) : s.Yields q' u' m b := by
  have huserVars : q'.userVars = q.userVars := by
    rw [userVars, userVars, hvars]
  have huser {v : Var} (hv : v ∈ q.userVars) : v.userDefined = true := (SortedSet.mem_filter.mp hv).2
  have hpull {v : Var} (hv : v.userDefined = true ∨ ∃ p ∈ q.predicates, p.var = v) :
      (pullBack q' u' m).find? v = (pullBack q u m).find? v := by
    refine Option.ext fun i => ?_
    rw [find?_pullBack, find?_pullBack, hvars, happly v hv]
  refine ⟨fun v hv => ?_, ?_, ?_⟩
  · rw [huserVars] at hv
    rw [SortedMap.contains, hpull (.inl (huser hv))]
    exact h.bound v hv
  · rw [admits_eq_ok_iff, hpredicates]
    intro p hp
    rw [hpull (.inr ⟨p, hp, rfl⟩)]
    exact admits_eq_ok_iff.mp h.admitted p hp
  · rw [← h.eq, huserVars]
    refine SortedMap.ext_find? fun v => ?_
    rw [SortedMap.find?_restrict, SortedMap.find?_restrict]
    split
    · next hv => exact hpull (.inl (huser (SortedSet.contains_iff.mp hv)))
    · rfl

section Found

variable (hg : s.transaction.graph.WellFormed) (hq : q.Decomposed s.transaction.graph)

include hg hq

/-- What is found for a query is found for each query that it agrees with. -/
theorem Found.of_agrees (hq' : q'.Decomposed s.transaction.graph) (hagrees : s.rules.Agrees q q')
    (h : s.Found q b) : s.Found q' b := by
  obtain ⟨ρ, huser, hrespects⟩ := hagrees
  have hlabel := label?_eq hg ⟨[], rfl⟩ ⟨[], rfl⟩ hq hq' hrespects.renames.typeId?_eq
  have hb : b.relabel ρ = b := Binding.relabel_eq_self fun v hv => by
    have hv := Consequence.mem_userVars (I := s.Found) (.inl h) hv
    exact huser v (mem_slots_of_mem_userVars hq hv) (SortedSet.mem_filter.mp hv).2
  exact hb ▸ h.relabel rfl hg hq hq' hlabel hrespects.renames

/-- What is found for a type is found for every type above it. -/
theorem Found.of_retype (hl : s.transaction.graph.labelled? l = some id) (hid : q.typeId? = some id')
    (hbelow : s.transaction.graph.Below id id') (h : s.Found (q.retype id l) b) : s.Found q b := by
  obtain ⟨-, m, hm, rfl⟩ := h
  refine ⟨fun hnil => ?_, m, hm.of_retype hg hq hl hid hbelow, by rw [userVars_retype]⟩
  obtain ⟨_, -, htype, -⟩ := hq.exists_label hid
  rw [((statements_eq_nil_iff hq).mp hnil).1.2] at htype
  cases htype

end Found

/-- A rule of the first ones that derives a binding of a query derives it of each query that this agrees
with. -/
theorem Applies.of_agrees (hrules : s.rules.Built) (hfirst : rules.rules <+: s.rules.rules)
    (hq : q.Decomposed s.transaction.graph) (hq' : q'.Decomposed s.transaction.graph)
    (hagrees : s.rules.Agrees q q')
    (hI : ∀ c ∈ rules.rules, ∀ p ∈ c.body, ∀ b, I p b → ∀ v, b.contains v = true → v ∈ p.userVars)
    (h : ({ s with rules } : Setting).Applies I q b) : ∃ i u c m, c ∈ rules.rules ∧
      (i, u) ∈ s.rules.applicable q'.central ∧ s.rules.get? i = some c ∧ I.Joins c.body .empty m ∧
      s.Yields q' u m b := by
  obtain ⟨ρ, huser, hrespects⟩ := hagrees
  obtain ⟨i, u, c, m, hi, hc, hjoins, hyields⟩ := h
  have hget := RuleSet.get?_of_isPrefix hfirst hc
  obtain ⟨u', c', hu', hc', htracks⟩ := hrespects.exists_applicable hrules
    (RuleSet.mem_applicable_of_isPrefix hfirst hi)
  obtain rfl := Option.some.inj (hc'.symm.trans hget)
  have hmem : c' ∈ rules.rules := List.mem_of_getElem? hc
  have hm (v : Var) (hv : m.contains v = true) : Binds c'.body v := hjoins.binds (hI c' hmem) hv
  have hrelabel : b.relabel ρ = b := by
    refine Binding.relabel_eq_self fun v hv => ?_
    have hv := hyields.contains_iff.mp hv
    exact huser v (mem_slots_of_mem_userVars hq hv) (SortedSet.mem_filter.mp hv).2
  have ht : s.transaction = ({ s with rules } : Setting).transaction := rfl
  have hsame : (m.relabel fun v => v) = m := Binding.relabel_id m
  have hyields' : s.Yields q' u' (m.relabel fun v => v) (b.relabel ρ) := hyields.relabel ht hq hq'
    hrespects.renames (fun _ _ _ _ h => h) (fun _ h => h) htracks hm
  rw [hsame, hrelabel] at hyields'
  exact ⟨i, u', c', m, hmem, hu', hget, hjoins, hyields'⟩

/-- What a rule derives for a type its counterpart derives for the type of its own. -/
theorem Applies.of_counterpart (hrules : s.rules.Built) (hq : q.Decomposed s.transaction.graph)
    (hid : q.typeId? = some id') (hapart : q.TypeApart) (hu : (i, u) ∈ s.rules.applicable (q.retype id l).central)
    (hc : s.rules.get? i = some c) (hjoins : I.Joins c.body .empty m) (hyields : s.Yields (q.retype id l) u m b)
    (hc' : c' ∈ s.rules.rules) (htype : c'.head.typeId? = some id') (hcounterpart : s.rules.Counterpart P c c')
    (hI : ∀ p ∈ c.body, ∀ p' ∈ c'.body, s.rules.Raises P p p' → ∀ b, I p b → I' p' b) : s.Applies I' q b := by
  obtain ⟨u', hu', hget', happly⟩ := RuleSet.exists_applicable_of_resembles hrules hq.central.1 hid hapart hc
    hu hc' htype hcounterpart.head
  refine ⟨c'.id, u', c', m, hu', hget', hjoins.forall₂ (forall₂_imp_of_mem_mem hcounterpart.body hI), ?_⟩
  refine hyields.congr vars_retype.symm rfl fun v hv => happly v ?_
  rintro rfl
  rcases hv with huser | ⟨p, hp, heq⟩
  · rw [hq.userDefined_typeVar hid] at huser
    cases huser
  · exact hapart.2 _ (List.mem_map_of_mem hp) heq

/-- What follows by the first rules for a query follows for one that is raised, if these rules have their
counterparts. -/
theorem Entails.of_raises (hg : s.transaction.graph.WellFormed) (hworld : s.config.lookupPolicy = .openWorld)
    (hrules : s.rules.CompiledFor s.transaction.graph) (hfirst : rules.rules <+: s.rules.rules)
    (hP : ∀ id id', P id id' → s.transaction.graph.Below id id') (hlifts : s.rules.Lifts P rules.rules)
    (hq : q.Decomposed s.transaction.graph) (hq' : q'.Decomposed s.transaction.graph)
    (hraises : s.rules.Raises P q q') (h : ({ s with rules } : Setting).Entails q b) : s.Entails q' b := by
  let g := s.transaction.graph
  have hbody {c : CompiledRule} (hc : c ∈ s.rules.rules) : ∀ p ∈ c.body, p.Decomposed g := fun p hp =>
    (hrules.made hc p (.tail _ hp)).decomposed hg
  -- the bindings that follow for every raised query are closed under the first rules
  let I : Interpretation := fun q b => ∀ q', q.Decomposed g → q'.Decomposed g → s.rules.Raises P q q' →
    s.Entails q' b
  refine entails_le (s := { s with rules }) (I := I) (fun q b hb q' hq hq' hraises => ?_) h q' hq hq' hraises
  have hI {c : CompiledRule} (hc : c ∈ rules.rules) {p : AtomicQuery} (hp : p ∈ c.body) {b : Binding}
      (hb : I p b) : s.Entails p b :=
    have hp := hbody (hfirst.subset hc) p hp
    hb p hp hp (.agrees (RuleSet.agrees_refl p))
  have hproper : ∀ c ∈ rules.rules, ∀ p ∈ c.body, ∀ b, I p b → ∀ v, b.contains v = true → v ∈ p.userVars :=
    fun c hc p hp b hb v hv => (hI hc hp hb).mem_userVars hv
  cases hraises with
  | agrees hagrees =>
    rcases hb with hfound | ⟨hexpands, happlies⟩
    · exact entails_iff.mpr (.inl (Found.of_agrees hg hq hq' hagrees hfound))
    · obtain ⟨i, u, c, m, hc, hu, hget, hjoins, hyields⟩ :=
        happlies.of_agrees hrules.built hfirst hq hq' hagrees hproper
      exact entails_iff.mpr (.inr ⟨expands_of_openWorld hworld hexpands.1, i, u, c, m, hu, hget,
        hjoins.mono fun p hp b hb => hI hc hp hb, hyields⟩)
  | @retype id id' l hid hl hid' hbelow hapart hagrees =>
    obtain ⟨_, hlabel, -, hfound⟩ := hq.exists_label hid
    obtain rfl := Option.some.inj (hlabel.symm.trans hl)
    have hq₀ := hq'.retype hfound
    rcases hb with hb | ⟨hexpands, happlies⟩
    · have hb₀ : s.Found (q'.retype id _) b := Found.of_agrees hg hq hq₀ hagrees hb
      exact entails_iff.mpr (.inl (hb₀.of_retype hg hq' hfound hid' (hP _ _ hbelow)))
    · obtain ⟨i, u, c, m, hc, hu, hget, hjoins, hyields⟩ :=
        happlies.of_agrees hrules.built hfirst hq hq₀ hagrees hproper
      have hconcludes : c.head.typeId? = some id := by
        obtain ⟨c₀, hc₀, hunify⟩ := hrules.built.get?_of_applicable hu
        obtain rfl := Option.some.inj (hc₀.symm.trans hget)
        refine (CompiledRule.fits_of_unify? hunify).typeId?_eq ?_
        rw [retype, Atom.typeId?_retype, ← typeId?, hid', Option.map_some]
      obtain ⟨c', hc', htype, hcounterpart⟩ := hlifts c hc id hconcludes id' hbelow
      exact entails_iff.mpr (.inr ⟨expands_of_openWorld hworld hexpands.1,
        Applies.of_counterpart hrules.built hq' hid' hapart hu hget hjoins hyields hc' htype hcounterpart
          fun p hp p' hp' hraises b hb => hb p' (hbody (hfirst.subset hc) p hp) (hbody hc' p' hp') hraises⟩)

/-! ## Patterns -/

variable {t u : Supply} {d d' : DecomposedQuery} {p p' : Conjunction}

/-- A query of a pattern is raised to that of the pattern with related types. -/
theorem raises_of_twin (ht : s.FreshFor p t) (hu : s.FreshFor p' u) (hq : q.Decomposed s.transaction.graph)
    (hq' : q'.Decomposed s.transaction.graph)
    (h : q.Twin Eq (s.transaction.graph.Relates P) t.vars u.vars q') : s.rules.Raises P q q' := by
  have hcentral := hq.central.1
  have hagrees {r : AtomicQuery} {T : Label → Label → Prop} (hr : r.Decomposed s.transaction.graph)
      (h : q.Twin Eq T t.vars u.vars r) (hlabel : r.central.label? = q.central.label?) : s.rules.Agrees q r :=
    ⟨Var.shift t.vars u.vars, fun v _ hv => (Var.old_of_userDefined hv).shift_eq,
      respects_of_twin (S := Eq) ht hu (fun _ _ h => h ▸ .refl _) hq hr h hlabel fun c _ _ => h.seatsAlike hcentral _⟩
  rcases h.central.label?_cases hcentral with hlabel | ⟨⟨l, hl, l', hl', id, hid, id', hid', hP⟩, hold, j, hdrawn⟩
  · exact .agrees (hagrees hq' h hlabel)
  · have hlabel : (q'.retype id l).central.label? = q.central.label? := by
      rw [retype, Atom.label?_retype, hl', hl, Option.map_some]
    have hsame : q.Twin Eq Eq t.vars u.vars (q'.retype id l) := h.retype hcentral hl hl'
    refine .retype (hq.typeId?_eq hl hid) hl (hq'.typeId?_eq hl' hid') hP ?_
      (hagrees (hq'.retype hid) hsame hlabel)
    have hnew {v : Var} (hv : v.Old t.vars u.vars) : v ≠ q'.central.typeVar := by
      rintro rfl
      rw [h.central.typeVar_eq hcentral, hdrawn, Var.shift_generated] at hv
      exact absurd (hv _ rfl).2 (by omega)
    obtain ⟨ps, _, rfl, hplayers, -, hps⟩ := h.central.players
    refine ⟨⟨fun heq => hnew hold ?_, fun p hp => hnew ?_⟩, fun e he => hnew (h.old e (h.demands ▸ he))⟩
    · rw [heq, h.central.var_eq hcentral, hold.shift_eq]
    · obtain ⟨p', hp', rfl⟩ := List.mem_map.mp (hps ▸ hp)
      exact hplayers p' hp'

end Setting

namespace Reasoner

variable {s : Setting} {P : ConceptId → ConceptId → Prop} {rules : RuleSet} {c c' : Conjunction}
  {d d' : DecomposedQuery} {t t₁ t₂ u u₁ : Supply} {as : List Answer} {k : Knowledge}

end Reasoner

/-! ## Cats and kittens -/

/-- `x isa l`, of a relation with its players. -/
def Conjunction.typed (x : Var) (players? : Option (List RolePlayer)) (l : Label) : Conjunction :=
  ⟨[⟨x, (players?.map Property.relation).toList ++ [.isa (.label l)]⟩]⟩

theorem Conjunction.twin_typed {S : List RolePlayer → List RolePlayer → Prop} {T : Label → Label → Prop}
    {x : Var} {players? : Option (List RolePlayer)} {l l' : Label} (h : T l l') :
    (typed x players? l).Twin S T (typed x players? l') :=
  .cons ⟨rfl, List.rel_append (List.forall₂_same.mpr fun p _ => .same p) (.cons (.isa h) .nil)⟩ .nil

namespace Kittens

open Reasoner

/-- A kitten; cats are animals, and kittens are cubs. -/
def transaction : Transaction where
  name := ""
  graph := [.entityType ⟨"animal"⟩, .entityType ⟨"cat"⟩, .entityType ⟨"cub"⟩, .entityType ⟨"kitten"⟩,
    .supertype ⟨"cat"⟩ ⟨"animal"⟩, .supertype ⟨"kitten"⟩ ⟨"cub"⟩, .entity ⟨"kitten"⟩].foldl Graph.perform {}

/-- `$x isa type;` -/
def pattern (type : String) : Conjunction :=
  .typed (.named "x") none ⟨type⟩

/-- What is of the one type is of the other. -/
def rule (type type' : String) : Rule where
  label := type ++ "-is-" ++ type'
  body := pattern type
  head := pattern type'

def setting (rules : List Rule) : Setting where
  transaction := transaction
  config := {}
  rules := (RuleSet.ofRules transaction rules).resultOr {} {}

/-- What a reasoner binds that has resolved nothing before. -/
def found? (s : Setting) (type : String) : Option (List Binding) :=
  (resolve s (pattern type)).bindings? s.untaught { vars := 14 }

def decomposed (type : String) : DecomposedQuery :=
  (ofConjunction transaction (pattern type)).resultOr { vars := 14 } ⟨⟨[]⟩, []⟩

theorem reachable : transaction.graph.Reachable :=
  ⟨_, rfl⟩

theorem compiledFor {rules : List Rule} (h : ((RuleSet.ofRules transaction rules).run {}).1.isOk = true) :
    (setting rules).rules.CompiledFor transaction.graph :=
  RuleSet.compiledFor_of_gives_ofRules (Attempt.gives_resultOr h {})

/-- Cats are animals, and kittens are cubs. -/
def pairs : List (ConceptId × ConceptId) :=
  [(⟨"T2"⟩, ⟨"T1"⟩), (⟨"T4"⟩, ⟨"T3"⟩)]

/-- The types are a cat and an animal, or a kitten and a cub. -/
def Paired (id id' : ConceptId) : Prop :=
  (id, id') ∈ pairs

theorem below_of_paired {id id' : ConceptId} (h : Paired id id') : transaction.graph.Below id id' := by
  have hparents : ∀ e ∈ pairs, transaction.graph.parents.find? e.1 = some e.2 := by
    decide +kernel
  have hparent : transaction.graph.HasParent id id' := hparents (id, id') h
  exact .single hparent

def two : Setting :=
  setting [rule "kitten" "cat", rule "cub" "animal"]

/-- The rule about cubs is the counterpart of the one about kittens. -/
theorem lifts_two : two.rules.Lifts Paired two.rules.rules := by
  have hlifts : ∀ c ∈ two.rules.rules, ∀ e ∈ pairs, c.head.typeId? = some e.1 → ∃ c' ∈ two.rules.rules,
      c'.head.typeId? = some e.2 ∧ c.head.central.Resembles c'.head.central ∧
      List.Forall₂ (fun p p' => ∃ e ∈ pairs, p.typeId? = some e.1 ∧ p'.typeId? = some e.2 ∧ p'.TypeApart ∧
        ∃ l ∈ p.central.label?, two.rules.UnifiesInto p (p'.retype e.1 l)) c.body c'.body := by
    decide +kernel
  intro c hc id hid id' hpaired
  obtain ⟨c', hc', htype, hhead, hbody⟩ := hlifts c hc _ hpaired hid
  refine ⟨c', hc', htype, hhead, hbody.imp ?_⟩
  rintro p p' ⟨e, he, hid, hid', hapart, l, hl, hunifies⟩
  exact .retype hid hl hid' he hapart hunifies.agrees

def one : Setting :=
  setting [rule "kitten" "cat"]

end Kittens

end GraphInference
