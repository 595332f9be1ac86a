import GraphInference.Proofs.Query.Coverage
import GraphInference.Proofs.Resolution.Invariant

/-!
# What answers bind

However an answer to a pattern was found, it binds user-defined variables of the pattern only, and no two
answers have the same binding. It binds exactly those of them that the atomic queries have: the answers
to each query bind all of its user-defined variables, looked up or derived, and joining drops none
(`Reasoner.binds_of_resolve`). Only decomposition loses variables, with the properties that it does not
read.
-/

namespace GraphInference

open Resolve

/-! ## One query -/

/-- A look-up binds all user-defined variables of a query that was decomposed. -/
theorem Resolve.contains_of_gives_lookup {s : Setting} {q : AtomicQuery} {k k' : Knowledge} {t t' : Supply}
    {as : List Answer} (hg : s.transaction.graph.Reachable) {g : Graph} (hq : q.Decomposed g)
    (hattached : ∀ p ∈ q.predicates, p.var ∈ q.central.vars) (hk : k.KeepsPlansOf q) (ht : q.FreshFrom t)
    (h : (lookup s q).Gives k t as k' t') {a : Answer} (ha : a ∈ as) {v : Var} :
    a.binding.contains v = true ↔ v ∈ q.userVars := by
  obtain ⟨ms, -, hms, has⟩ := matches_of_gives_lookup hg hq.plain hk ht h
  obtain ⟨m, hm, hbinding⟩ := List.mem_map.mp (has ▸ List.mem_map_of_mem ha)
  obtain ⟨hstatements, hmatch⟩ := (hms m).mp hm
  have hsearchable : q.Searchable :=
    (((exists_gives_lookup_iff hg hq.plain hk ht).mp ⟨as, k', t', h⟩).resolve_left hstatements).2
  rw [← hbinding, Setting.contains_restrict_userVars, hmatch.domain]
  exact and_iff_left_of_imp (q.names_of_mem_userVars hq hattached hsearchable hstatements)

/-- The answers to a query that no other one is expanded for bind exactly its user-defined variables, if
no query of a rule has the text of one of `queries` and another meaning. -/
theorem AnswerStream.invariant_contains {s : Setting} {queries : List AtomicQuery} {g : Graph}
    (hg : s.transaction.graph.Reachable) (hdepth : 0 < s.config.maxRecursionDepth)
    (hqueries : ∀ q ∈ queries, q.Decomposed g ∧ ∀ p ∈ q.predicates, p.var ∈ q.central.vars)
    (htexts : ∀ r ∈ s.rules.rules, ∀ p ∈ r.body, ∀ q ∈ queries, q.text = p.text →
      q.toConjunction = p.toConjunction) :
    Invariant s (fun q => ∀ r ∈ queries, r.text = q.text → r.toConjunction = q.toConjunction)
      (fun k n => k.Settled { vars := n } queries) (fun _ => True)
      fun path q b => path = [] → q ∈ queries → ∀ v, b.contains v = true ↔ v ∈ q.userVars where
  body := by
    intro q id u r _ _ hr p hp i q' hq' htext
    rw [AtomicQuery.text, AtomicQuery.text, AtomicQuery.toConjunction_renumber] at htext
    rw [AtomicQuery.toConjunction_renumber]
    exact htexts r (List.mem_of_getElem? hr) p hp q' hq' htext
  lookup := by
    intro path q k t as k' t' hq hk h
    have hk : k.Settled t queries := hk
    have hk' : k'.Settled t' queries := settled_of_gives_lookup hg.wellFormed hq hk h
    refine ⟨hk', fun _ => trivial, fun a ha _ hmem v => ?_⟩
    obtain ⟨hdecomposed, hattached⟩ := hqueries q hmem
    obtain ⟨hfresh, hkeeps⟩ := hk q hmem
    exact contains_of_gives_lookup hg hdecomposed hattached hkeeps hfresh h ha
  known := by
    rintro path q k n b - - hcut - rfl - v
    rcases hcut with hmeets | hdeep
    · cases hmeets
    · exact absurd hdeep (Nat.not_le.mpr hdepth)
  record := fun _ hk _ => hk
  rule := fun _ _ _ _ _ hyields _ _ _ => hyields.contains_iff

/-! ## Patterns -/

namespace Reasoner

open AnswerStream Decomposition

/-- What joins bindings of exactly the variables of each query binds exactly those of all queries. -/
theorem contains_of_joins {I : Interpretation} {queries : List AtomicQuery} {ρ : Binding}
    (hI : ∀ q ∈ queries, ∀ b, I q b → ∀ v, b.contains v = true ↔ v ∈ q.userVars)
    (h : I.Joins queries .empty ρ) (v : Var) :
    ρ.contains v = true ↔ ∃ q ∈ queries, v ∈ q.userVars := by
  constructor
  · intro hv
    rcases h.domain hv with hv | ⟨q, hq, b, hb, hv⟩
    · cases hv
    · exact ⟨q, hq, (hI q hq b hb v).mp hv⟩
  · rintro ⟨q, hq, hv⟩
    obtain ⟨b, hb, hbound⟩ := h.exists_contains hq
    exact hbound v ((hI q hq b hb v).mpr hv)

variable {s : Setting} {c : Conjunction} {k k' : Knowledge} {t t' : Supply} {as : List Answer}

/-- The answers to a pattern have different bindings of its user-defined variables. Each binds exactly
those that the atomic queries of the pattern have, which are all of them if no statement has a second
type or relation. -/
theorem binds_of_resolve (h : (resolve s c).Gives k t as k' t') :
    (as.map Answer.binding).Nodup ∧ (∀ a ∈ as, ∀ v, a.binding.contains v = true → v ∈ c.userVars) ∧
      ∀ d t₁, (ofConjunction s.transaction c).Gives t d t₁ →
        s.transaction.graph.Reachable → s.config.validate = .ok s.config →
        (∀ v, c.Names v → v.isEmpty = false) → (∀ n, t.vars ≤ n → .generated n ∉ c.vars) →
        (∀ q ∈ d.queries, k.KeepsPlansOf q) →
        (∀ q ∈ d.queries, ∀ p ∈ d.queries ++ s.rules.rules.flatMap CompiledRule.body, q.text = p.text →
          q.toConjunction = p.toConjunction) →
        (∀ a ∈ as, ∀ v, a.binding.contains v = true ↔ v ∈ c.userVars ∧ ∃ q ∈ d.queries, v ∈ q.userVars) ∧
        ((∀ st ∈ c.statements, st.Single) →
          ∀ a ∈ as, ∀ v, a.binding.contains v = true ↔ v ∈ c.userVars) := by
  obtain ⟨d, k₁, t₁, hresult, -⟩ := gives_bind.mp h
  obtain ⟨hd, rfl⟩ := gives_ofAttempt.mp hresult
  have hrestrict {ρ : Binding} {v : Var} : (ρ.restrict c.userVars.contains).contains v = true ↔
      v ∈ c.userVars ∧ ρ.contains v = true := by
    simp only [SortedMap.contains_iff_isSome, SortedMap.find?_restrict, ← SortedSet.contains_iff]
    split <;> simp_all
  obtain ⟨-, hnodup, hjoins, -⟩ := joins_of_gives_resolve (K := fun _ _ => True)
    (L := fun _ _ => False) (U := fun _ _ => True) hd
    (fun _ _ _ _ _ _ _ _ _ => ⟨trivial, fun _ h => h.elim, fun _ _ => trivial⟩) h trivial
  refine ⟨hnodup, fun a ha v hv => ?_, fun d' t₁' hd' hg hvalid hpresent hfresh hplans htexts => ?_⟩
  · obtain ⟨ρ, -, hρ⟩ := hjoins a ha
    exact (hrestrict.mp (hρ ▸ hv)).1
  · obtain ⟨heq, rfl⟩ := Prod.mk.inj (hd.symm.trans hd')
    obtain rfl := Except.ok.inj heq
    obtain ⟨hdepth, -⟩ := Config.pos_of_validate hvalid
    have hinv := invariant_contains hg hdepth
      (fun q hq => ⟨decomposed_of_mem_queries hd hq, DecomposedQuery.var_mem_of_mem_predicates hd hq⟩)
      fun r hr p hp q hq => htexts q hq p
        (List.mem_append_right _ (List.mem_flatMap.mpr ⟨r, hr, hp⟩))
    have hsettled : k.Settled { vars := t₁.vars } d.queries := fun q hq =>
      ⟨fun n => DecomposedQuery.not_names_generated hg.wellFormed hd hpresent hfresh hq, hplans q hq⟩
    obtain ⟨-, -, hexact, -⟩ := joins_of_gives_resolve
      (K := fun k n => k.Settled { vars := n } d.queries) (L := fun _ _ => False)
      (U := fun q b => q ∈ d.queries → ∀ v, b.contains v = true ↔ v ∈ q.userVars) hd
      (fun q hq k t as k' t' hk hdrain => by
        obtain ⟨hk', hall⟩ := hinv.drain
          (fun r hr htext => htexts r hr q (List.mem_append_left _ hq) htext) hk hdrain
        exact ⟨hk', fun _ h => h.elim, fun a ha => hall a ha rfl⟩) h hsettled
    have hbinds : ∀ a ∈ as, ∀ v, a.binding.contains v = true ↔
        v ∈ c.userVars ∧ ∃ q ∈ d.queries, v ∈ q.userVars := by
      intro a ha v
      obtain ⟨ρ, hρ, heq⟩ := hexact a ha
      rw [← heq, hrestrict, contains_of_joins (fun q hq b hb => hb hq) hρ]
    refine ⟨hbinds, fun hsingle a ha v => (hbinds a ha v).trans (and_iff_left_of_imp fun hv => ?_)⟩
    obtain ⟨hv, huser⟩ := SortedSet.mem_filter.mp hv
    obtain ⟨q, hq, hv⟩ := DecomposedQuery.exists_mem_central_vars_of_single hd hsingle hv
    exact ⟨q, hq, mem_userVars hv huser⟩

end Reasoner

/-! ## Two patterns -/

namespace Student

/-- One student, and a rule by which students are persons. -/
def transaction : Transaction where
  name := ""
  graph := [.entityType ⟨"person"⟩, .entityType ⟨"student"⟩, .entity ⟨"student"⟩].foldl Graph.perform {}

/-- `$y isa student; => $y isa person;` -/
def rule : Rule where
  label := "student-is-person"
  body := ⟨[⟨.named "y", [.isa (.label ⟨"student"⟩)]⟩]⟩
  head := ⟨[⟨.named "y", [.isa (.label ⟨"person"⟩)]⟩]⟩

def setting : Setting where
  transaction := transaction
  config := {}
  rules := ((RuleSet.add {} transaction rule).resultOr {} (default, {})).2

/-- `$x isa person; $x isa $t;` -/
def pattern : Conjunction :=
  ⟨[⟨.named "x", [.isa (.label ⟨"person"⟩)]⟩, ⟨.named "x", [.isa (.var (.named "t"))]⟩]⟩

def decomposed : DecomposedQuery :=
  (Decomposition.ofConjunction transaction pattern).resultOr { vars := 9 } ⟨⟨[]⟩, []⟩

def found : List Answer :=
  (Reasoner.resolve setting pattern).resultOr { programs := .ofCapacity 1 } { vars := 9 } []

theorem isOk_and_regular :
    (((Reasoner.resolve setting pattern).run.run { programs := .ofCapacity 1 }).run
        { vars := 9 }).1.1.isOk = true ∧
      ((Decomposition.ofConjunction transaction pattern).run { vars := 9 }).1.isOk = true ∧
      decomposed.Regular pattern { vars := 9 } ∧
      (∀ q ∈ decomposed.queries, ∀ p ∈ decomposed.queries ++ setting.rules.rules.flatMap CompiledRule.body,
        q.text = p.text → q.toConjunction = p.toConjunction) ∧
      found.map Answer.binding = [.ofList [(.named "t", ⟨"T2"⟩), (.named "x", ⟨"V3"⟩)]] := by
  decide +kernel

/-- The student is found to be a person by the rule, and the answer binds the student and the type. -/
theorem binds_of_resolve_person : found.length = 1 ∧ (found.map Answer.binding).Nodup ∧
    ∀ a ∈ found, ∀ v, a.binding.contains v = true ↔ v ∈ pattern.userVars := by
  obtain ⟨hok, hd, hregular, htexts, hfound⟩ := isOk_and_regular
  obtain ⟨hnodup, -, hbinds⟩ := Reasoner.binds_of_resolve (Resolve.gives_resultOr hok [])
  refine ⟨by simpa using congrArg List.length hfound, hnodup, ?_⟩
  refine (hbinds decomposed _ (Attempt.gives_resultOr hd ⟨⟨[]⟩, []⟩) ⟨_, rfl⟩ rfl hregular.isEmpty_of_names
    hregular.not_mem_vars (fun q _ => List.forall_mem_nil _) htexts).2 fun st hst => ?_
  rcases List.mem_pair.mp hst with rfl | rfl
  · exact ⟨by simp, by simp⟩
  · exact ⟨by simp, by simp⟩

end Student

namespace LostType

def transaction : Transaction where
  name := ""
  graph := [.entityType ⟨"a"⟩, .entity ⟨"a"⟩].foldl Graph.perform {}

/-- `$x isa a, isa $t;` -/
def pattern : Conjunction :=
  ⟨[⟨.named "x", [.isa (.label ⟨"a"⟩), .isa (.var (.named "t"))]⟩]⟩

def setting : Setting where
  transaction := transaction
  config := {}
  rules := {}

/-- The second type is not read, so that its variable is not bound. -/
theorem not_binds_of_resolve : ¬ ∀ (s : Setting) (c : Conjunction) (as : List Answer)
    (k k' : Knowledge) (t t' : Supply), s.transaction.graph.Reachable →
    s.config.validate = .ok s.config → k.programs.entries = [] →
    (∀ n, t.vars ≤ n → .generated n ∉ c.vars) → (Reasoner.resolve s c).Gives k t as k' t' →
    ∀ a ∈ as, ∀ v ∈ c.userVars, a.binding.contains v = true := by
  intro h
  have hok : (((Reasoner.resolve setting pattern).run.run { programs := .ofCapacity 1 }).run {}).1.1.isOk =
      true ∧ (((Reasoner.resolve setting pattern).resultOr { programs := .ofCapacity 1 } {} []).map
        Answer.binding).head? = some (.ofList [(.named "x", ⟨"V2"⟩)]) := by decide +kernel
  obtain ⟨hok, hhead⟩ := hok
  obtain ⟨a, ha, hbinding⟩ := List.mem_map.mp (List.mem_of_head? hhead)
  have hvars : ∀ v ∈ pattern.vars.toList, v.userDefined = true := by decide +kernel
  have hcontains := h setting pattern _ _ _ _ _ ⟨_, rfl⟩ rfl rfl (fun _ _ hv => nomatch hvars _ hv)
    (Resolve.gives_resultOr hok []) a ha (.named "t") (SortedSet.contains_iff.mp (by decide +kernel))
  rw [hbinding] at hcontains
  cases hcontains

end LostType

end GraphInference
