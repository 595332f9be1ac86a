import GraphInference.Proofs.Answer.Joins
import GraphInference.Proofs.Resolution.RuleApplication
import GraphInference.Proofs.Resolution.Steps

/-!
# What follows in one step

An interpretation gives every atomic query bindings of its variables. From an interpretation of the
queries in the bodies of the rules follow, for each query, the bindings that are found in the graph and
those that one application of a rule derives (`Setting.Consequence`). A configuration may keep the rules
from some queries (`Setting.Expands`), for which only what is found remains (`Setting.Infers`). The joins
of a body and the derivations of a stream compute exactly this: `AnswerStream.joins_of_gives_joinBody` and
`AnswerStream.yields_of_gives_derive`.
-/

namespace GraphInference

/-- The bindings that each query has. -/
abbrev Interpretation := AtomicQuery → Binding → Prop

/-- The second binding is joined onto the first from a binding of each query. -/
def Interpretation.Joins (I : Interpretation) : List AtomicQuery → Binding → Binding → Prop
  | [], ρ, ρ' => ρ = ρ'
  | q :: body, ρ, ρ' => ∃ b mid, I q b ∧ Binding.merge? ρ b = some mid ∧ I.Joins body mid ρ'

namespace Setting

open AnswerStream

variable (s : Setting)

/-- The binding is what a match of the query binds of its user-defined variables. -/
def Found (q : AtomicQuery) (b : Binding) : Prop :=
  q.toConjunction.statements ≠ [] ∧
    ∃ m, q.IsMatch s.transaction.graph m ∧ m.restrict q.userVars.contains = b

/-- The binding is what a joined binding of a rule's body gives the query. -/
structure Yields (q : AtomicQuery) (u : Unifier) (ρ b : Binding) : Prop where
  bound : ∀ v ∈ q.userVars, (pullBack q u ρ).contains v = true
  admitted : q.admits s.transaction (pullBack q u ρ) = .ok true
  eq : (pullBack q u ρ).restrict q.userVars.contains = b

/-- The binding is derived by a rule that applies to the query. -/
def Applies (I : Interpretation) (q : AtomicQuery) (b : Binding) : Prop :=
  ∃ id u r ρ, (id, u) ∈ s.rules.applicable q.central ∧ s.rules.get? id = some r ∧
    I.Joins r.body .empty ρ ∧ s.Yields q u ρ b

/-- The binding is found or derived. -/
def Consequence (I : Interpretation) : Interpretation :=
  fun q b => s.Found q b ∨ s.Applies I q b

/-- Rules are applied to the query: if reasoning is on, in an open world to every query and in a closed one
to those of which nothing is found. -/
def Expands (q : AtomicQuery) : Prop :=
  s.config.reasoningEnabled = true ∧ (s.config.lookupPolicy = .closedWorld → ∀ b, ¬ s.Found q b)

/-- The binding is found, or derived if rules are applied to the query. -/
def Infers (I : Interpretation) : Interpretation :=
  fun q b => s.Found q b ∨ s.Expands q ∧ s.Applies I q b

end Setting

/-! ## More to start from -/

namespace Interpretation

variable {I I' : Interpretation} {body : List AtomicQuery} {ρ ρ' : Binding}

theorem Joins.mono (hI : ∀ q ∈ body, ∀ b, I q b → I' q b) (h : I.Joins body ρ ρ') :
    I'.Joins body ρ ρ' := by
  induction body generalizing ρ with
  | nil => exact h
  | cons q body ih =>
    obtain ⟨hq, hbody⟩ := List.forall_mem_cons.mp hI
    obtain ⟨b, mid, hb, hmerge, h⟩ := h
    exact ⟨b, mid, hq b hb, hmerge, ih hbody h⟩

/-- A joined binding binds what it was joined from and nothing else. -/
theorem Joins.domain (h : I.Joins body ρ ρ') {v : Var} (hv : ρ'.contains v = true) :
    ρ.contains v = true ∨ ∃ q ∈ body, ∃ b, I q b ∧ b.contains v = true := by
  induction body generalizing ρ with
  | nil =>
    obtain rfl : ρ = ρ' := h
    exact .inl hv
  | cons q body ih =>
    obtain ⟨b, mid, hb, hmerge, h⟩ := h
    rcases ih h with hmid | ⟨r, hr, hbound⟩
    · obtain ⟨i, hi⟩ := SortedMap.contains_iff_isSome.mp hmid
      refine ((Binding.merge?_eq_some_iff.mp hmerge).2 v i |>.mp hi).imp ?_ ?_
      · exact fun hi => SortedMap.contains_iff_isSome.mpr ⟨i, hi⟩
      · exact fun hi => ⟨q, .head _, b, hb, SortedMap.contains_iff_isSome.mpr ⟨i, hi⟩⟩
    · exact .inr ⟨r, .tail _ hr, hbound⟩

/-- What was bound before stays bound. -/
theorem Joins.contains_of_contains (h : I.Joins body ρ ρ') {v : Var} (hv : ρ.contains v = true) :
    ρ'.contains v = true := by
  induction body generalizing ρ with
  | nil =>
    obtain rfl : ρ = ρ' := h
    exact hv
  | cons q body ih =>
    obtain ⟨b, mid, hb, hmerge, h⟩ := h
    obtain ⟨i, hi⟩ := SortedMap.contains_iff_isSome.mp hv
    exact ih h (SortedMap.contains_iff_isSome.mpr
      ⟨i, ((Binding.merge?_eq_some_iff.mp hmerge).2 v i).mpr (.inl hi)⟩)

/-- What a query of the body binds is bound. -/
theorem Joins.exists_contains (h : I.Joins body ρ ρ') {q : AtomicQuery} (hq : q ∈ body) :
    ∃ b, I q b ∧ ∀ v, b.contains v = true → ρ'.contains v = true := by
  induction body generalizing ρ with
  | nil => cases hq
  | cons r body ih =>
    obtain ⟨b, mid, hb, hmerge, h⟩ := h
    rcases List.mem_cons.mp hq with rfl | hq
    · refine ⟨b, hb, fun v hv => h.contains_of_contains ?_⟩
      obtain ⟨i, hi⟩ := SortedMap.contains_iff_isSome.mp hv
      exact SortedMap.contains_iff_isSome.mpr
        ⟨i, ((Binding.merge?_eq_some_iff.mp hmerge).2 v i).mpr (.inr hi)⟩
    · exact ih h hq

end Interpretation

namespace Setting

variable {s : Setting} {I I' : Interpretation} {q : AtomicQuery} {u : Unifier} {b ρ : Binding}

theorem Applies.mono (hI : ∀ id u r, (id, u) ∈ s.rules.applicable q.central → s.rules.get? id = some r →
    ∀ p ∈ r.body, ∀ b, I p b → I' p b) (h : s.Applies I q b) : s.Applies I' q b := by
  obtain ⟨id, u, r, ρ, hid, hr, hjoins, hyields⟩ := h
  exact ⟨id, u, r, ρ, hid, hr, hjoins.mono (hI id u r hid hr), hyields⟩

theorem Consequence.mono (hI : ∀ id u r, (id, u) ∈ s.rules.applicable q.central →
    s.rules.get? id = some r → ∀ p ∈ r.body, ∀ b, I p b → I' p b) (h : s.Consequence I q b) :
    s.Consequence I' q b :=
  h.imp_right (Applies.mono hI)

theorem Infers.mono (hI : ∀ id u r, (id, u) ∈ s.rules.applicable q.central →
    s.rules.get? id = some r → ∀ p ∈ r.body, ∀ b, I p b → I' p b) (h : s.Infers I q b) :
    s.Infers I' q b :=
  h.imp_right (And.imp_right (Applies.mono hI))

theorem Infers.consequence (h : s.Infers I q b) : s.Consequence I q b :=
  h.imp_right And.right

theorem expands_of_openWorld (hpolicy : s.config.lookupPolicy = .openWorld)
    (hreasoning : s.config.reasoningEnabled = true) : s.Expands q :=
  ⟨hreasoning, fun hclosed => nomatch hpolicy.symm.trans hclosed⟩

theorem find?_restrict_userVars {m : Binding} {v : Var} {i : ConceptId} :
    (m.restrict q.userVars.contains).find? v = some i ↔ v ∈ q.userVars ∧ m.find? v = some i := by
  rw [SortedMap.find?_restrict, ← SortedSet.contains_iff]
  split <;> simp_all

theorem contains_restrict_userVars {m : Binding} {v : Var} :
    (m.restrict q.userVars.contains).contains v = true ↔ v ∈ q.userVars ∧ m.contains v = true := by
  simp only [SortedMap.contains_iff_isSome, find?_restrict_userVars, exists_and_left]

/-- A consequence binds user-defined variables of the query only. -/
theorem Consequence.mem_userVars (h : s.Consequence I q b) {v : Var} (hv : b.contains v = true) :
    v ∈ q.userVars := by
  rcases h with ⟨-, m, -, rfl⟩ | ⟨_, _, _, _, -, -, -, hyields⟩
  · exact (contains_restrict_userVars.mp hv).1
  · rw [← hyields.eq] at hv
    exact (contains_restrict_userVars.mp hv).1

theorem Infers.mem_userVars (h : s.Infers I q b) {v : Var} (hv : b.contains v = true) : v ∈ q.userVars :=
  h.consequence.mem_userVars hv

/-- A derived binding binds all of them. -/
theorem Yields.contains_iff (h : s.Yields q u ρ b) {v : Var} :
    b.contains v = true ↔ v ∈ q.userVars := by
  rw [← h.eq, contains_restrict_userVars]
  exact and_iff_left_of_imp (h.bound v)

end Setting

/-! ## The number of the query -/

namespace AtomicQuery.IsCopyOf

open AnswerStream

variable {q r : AtomicQuery} {s : Setting} {I : Interpretation} {u : Unifier} {b ρ : Binding}

theorem isMatch_iff (h : q.IsCopyOf r) {g : Graph} {m : Binding} : q.IsMatch g m ↔ r.IsMatch g m := by
  have hone (q : AtomicQuery) (i : QueryId) : (q.renumber i).IsMatch g m ↔ q.IsMatch g m := by
    refine ⟨fun h => ⟨fun v => (h.domain v).trans names_renumber, fun a ha => ?_⟩,
      fun h => ⟨fun v => (h.domain v).trans names_renumber.symm, fun a ha => ?_⟩⟩
    · refine Atom.matches_withQuery.mp (h.reads (a.withQuery i) ?_)
      exact atoms_renumber ▸ List.mem_map_of_mem ha
    · obtain ⟨a, ha', rfl⟩ := List.mem_map.mp (atoms_renumber ▸ ha)
      exact Atom.matches_withQuery.mpr (h.reads a ha')
  rcases h with rfl | ⟨i, rfl⟩
  · exact Iff.rfl
  · exact hone r i

theorem family_eq (h : q.IsCopyOf r) : q.central.family = r.central.family := by
  rcases h with rfl | ⟨i, rfl⟩
  · rfl
  · exact Atom.family_withQuery

theorem typeId?_eq (h : q.IsCopyOf r) : q.central.typeId? = r.central.typeId? := by
  rcases h with rfl | ⟨i, rfl⟩
  · rfl
  · exact Atom.typeId?_withQuery

theorem unify?_eq (h : q.IsCopyOf r) (c : CompiledRule) : c.unify? q.central = c.unify? r.central := by
  have hunifier (a : Atom) : q.central.unifier a = r.central.unifier a := by
    rcases h with rfl | ⟨i, rfl⟩
    · rfl
    · exact Atom.unifier_withQuery
  rw [CompiledRule.unify?, CompiledRule.unify?, h.family_eq, h.typeId?_eq, hunifier]

theorem applicable_eq (h : q.IsCopyOf r) (rules : RuleSet) :
    rules.applicable q.central = rules.applicable r.central := by
  rw [RuleSet.applicable, RuleSet.applicable]
  simp only [h.unify?_eq]

theorem admits_eq (h : q.IsCopyOf r) (t : Transaction) (b : Binding) : q.admits t b = r.admits t b := by
  have hall (i : QueryId) (ps : List Atom) :
      admitsAll t b (ps.map (·.withQuery i)) = admitsAll t b ps := by
    have hone (id : ConceptId) (p : Atom) : satisfies t id (p.withQuery i) = satisfies t id p := by
      cases p <;> rfl
    induction ps with
    | nil => rfl
    | cons p ps ih => simp only [List.map_cons, admitsAll, Atom.var_withQuery, hone, ih]
  rcases h with rfl | ⟨i, rfl⟩
  · rfl
  · exact hall i r.predicates

theorem found_iff (h : q.IsCopyOf r) : s.Found q b ↔ s.Found r b := by
  simp only [Setting.Found, h.toConjunction_eq, h.isMatch_iff, h.userVars_eq]

theorem yields_iff (h : q.IsCopyOf r) : s.Yields q u ρ b ↔ s.Yields r u ρ b := by
  have hpull : pullBack q u ρ = pullBack r u ρ := by
    rw [pullBack, pullBack, h.vars_eq]
  constructor
  · rintro ⟨hbound, hadmitted, heq⟩
    exact ⟨by rwa [← hpull, ← h.userVars_eq], by rwa [← hpull, ← h.admits_eq],
      by rwa [← hpull, ← h.userVars_eq]⟩
  · rintro ⟨hbound, hadmitted, heq⟩
    exact ⟨by rwa [hpull, h.userVars_eq], by rwa [hpull, h.admits_eq],
      by rwa [hpull, h.userVars_eq]⟩

theorem expands_iff (h : q.IsCopyOf r) : s.Expands q ↔ s.Expands r := by
  simp only [Setting.Expands, h.found_iff]

theorem infers_iff (h : q.IsCopyOf r) : s.Infers I q b ↔ s.Infers I r b := by
  simp only [Setting.Infers, Setting.Applies, h.found_iff, h.expands_iff, h.yields_iff, h.applicable_eq]

end AtomicQuery.IsCopyOf

/-! ## Joins -/

namespace AnswerStream

open Resolve

variable {s : Setting} {resolve : Resolver} {path : ResolutionPath} {body : List AtomicQuery}
  {rows rows' : List JoinRow} {k k' : Knowledge} {t t' : Supply} {K : Knowledge → Nat → Prop}
  {L U : Interpretation}

/-- The rows joined from answers to one more query. -/
theorem exists_join_of_answers {q : AtomicQuery} {as : List Answer}
    (hL : ∀ b, L q b → ∃ a ∈ as, a.binding = b) (hU : ∀ a ∈ as, U q a.binding) :
    (∀ row ∈ JoinRow.join rows as, ∃ old ∈ rows, ∃ b, U q b ∧
        Binding.merge? old.binding b = some row.binding) ∧
      ∀ old ∈ rows, ∀ b mid, L q b → Binding.merge? old.binding b = some mid →
        ∃ row ∈ JoinRow.join rows as, row.binding = mid := by
  constructor
  · intro row hrow
    obtain ⟨old, hold, a, ha, hmerge⟩ := JoinRow.exists_join_iff.mp ⟨row, hrow, rfl⟩
    exact ⟨old, hold, a.binding, hU a ha, hmerge⟩
  · intro old hold b mid hb hmerge
    obtain ⟨a, ha, rfl⟩ := hL b hb
    exact JoinRow.exists_join_iff.mpr ⟨old, hold, a, ha, hmerge⟩

/-- If the answers to the queries of a body are between two interpretations, then so are the joined rows.
What every resolution keeps of the knowledge, joining keeps. -/
theorem joins_of_gives_joinBody
    (hresolve : ∀ q ∈ body, ∀ i k t as k' t', K k t.vars →
      (resolve path (q.renumber i)).Gives k t as k' t' →
      K k' t'.vars ∧ (∀ b, L q b → ∃ a ∈ as, a.binding = b) ∧ ∀ a ∈ as, U q a.binding)
    (h : (joinBody resolve path rows body).Gives k t rows' k' t') (hk : K k t.vars) :
    K k' t'.vars ∧ (∀ row ∈ rows', ∃ old ∈ rows, U.Joins body old.binding row.binding) ∧
      ∀ old ∈ rows, ∀ ρ, L.Joins body old.binding ρ → ∃ row ∈ rows', row.binding = ρ := by
  induction body generalizing rows k t with
  | nil =>
    obtain ⟨rfl, rfl, rfl⟩ := gives_pure.mp h
    exact ⟨hk, fun row hrow => ⟨row, hrow, rfl⟩, fun row hrow ρ h => ⟨row, hrow, h⟩⟩
  | cons q body ih =>
    obtain ⟨hq, hbody⟩ := List.forall_mem_cons.mp hresolve
    obtain ⟨_, k₁, t₁, hfork, h⟩ := gives_bind.mp h
    obtain ⟨hrun, rfl⟩ := gives_lift.mp hfork
    obtain ⟨rfl, rfl⟩ := Prod.mk.inj hrun
    obtain ⟨as, k₂, t₂, has, h⟩ := gives_bind.mp h
    obtain ⟨hk₂, hL, hU⟩ := hq _ _ _ _ _ _ (by exact hk) has
    obtain ⟨hup, hdown⟩ := @exists_join_of_answers rows L U q as hL hU
    dsimp only at h
    split at h
    · next hempty =>
      obtain ⟨rfl, rfl, rfl⟩ := gives_pure.mp h
      refine ⟨hk₂, fun _ hrow => (nomatch hrow), ?_⟩
      rintro old hold ρ ⟨b, mid, hb, hmerge, -⟩
      obtain ⟨row, hrow, -⟩ := hdown old hold b mid hb hmerge
      rw [List.isEmpty_iff.mp hempty] at hrow
      cases hrow
    · obtain ⟨hk', hup', hdown'⟩ := ih hbody h hk₂
      refine ⟨hk', fun row hrow => ?_, ?_⟩
      · obtain ⟨mid, hmid, hjoins⟩ := hup' row hrow
        obtain ⟨old, hold, b, hb, hmerge⟩ := hup mid hmid
        exact ⟨old, hold, b, mid.binding, hb, hmerge, hjoins⟩
      · rintro old hold ρ ⟨b, mid, hb, hmerge, hjoins⟩
        obtain ⟨row, hrow, rfl⟩ := hdown old hold b mid hb hmerge
        exact hdown' row hrow ρ hjoins

/-! ## Derivations -/

/-- What deriving an answer from a row leaves and yields. -/
theorem yields_of_gives_derive {q : AtomicQuery} {rule : RuleRef} {u : Unifier} {as : List Answer}
    (h : (derive s q rule u rows).Gives k t as k' t') : k' = k ∧ t'.vars = t.vars ∧
      ∀ b, (∃ a ∈ as, a.binding = b) ↔ ∃ row ∈ rows, s.Yields q u row.binding b := by
  obtain ⟨os, k₁, t₁, hos, hpure⟩ := gives_bind.mp h
  obtain ⟨rfl, rfl, rfl⟩ := gives_pure.mp hpure
  clear h hpure
  induction rows generalizing os k t with
  | nil =>
    obtain ⟨rfl, rfl, rfl⟩ := gives_pure.mp hos
    exact ⟨rfl, rfl, fun b => by simp⟩
  | cons row rows ih =>
    rw [List.mapM_cons] at hos
    obtain ⟨o, k₂, t₂, ho, hos⟩ := gives_bind.mp hos
    obtain ⟨os', k₃, t₃, hos', hos⟩ := gives_bind.mp hos
    obtain ⟨rfl, rfl, rfl⟩ := gives_pure.mp hos
    have hrow : k₂ = k ∧ t₂.vars = t.vars ∧
        ∀ b, o.map Answer.binding = some b ↔ s.Yields q u row.binding b := by
      dsimp only at ho
      split at ho
      · next hall =>
        obtain ⟨admitted, k₄, t₄, hrun, ho⟩ := gives_bind.mp ho
        obtain ⟨hadmits, rfl, rfl⟩ := gives_liftExcept.mp hrun
        have hbound : ∀ v ∈ q.userVars, (pullBack q u row.binding).contains v = true :=
          fun v hv => List.all_eq_true.mp hall v hv
        split at ho
        · next hadmitted =>
          obtain ⟨made, k₅, t₅, hmade, ho⟩ := gives_bind.mp ho
          obtain ⟨rfl, rfl, rfl⟩ := gives_pure.mp ho
          obtain ⟨hrun, rfl⟩ := gives_lift.mp hmade
          obtain ⟨rfl, rfl⟩ := Prod.mk.inj hrun
          refine ⟨rfl, rfl, fun b => ?_⟩
          rw [Option.map_some, Option.some.injEq, binding_project]
          exact ⟨fun h => ⟨hbound, by rw [hadmits, hadmitted], h⟩, fun h => h.eq⟩
        · next hadmitted =>
          obtain ⟨rfl, rfl, rfl⟩ := gives_pure.mp ho
          refine ⟨rfl, rfl, fun b => iff_of_false (fun h => nomatch h) fun h => hadmitted ?_⟩
          exact Except.ok.inj (hadmits.symm.trans h.admitted)
      · next hall =>
        obtain ⟨rfl, rfl, rfl⟩ := gives_pure.mp ho
        refine ⟨rfl, rfl, fun b => iff_of_false (fun h => nomatch h) fun h => hall ?_⟩
        exact List.all_eq_true.mpr fun v hv => h.bound v hv
    obtain ⟨rfl, hvars, hyields⟩ := hrow
    obtain ⟨rfl, hvars', hyields'⟩ := ih os' hos'
    refine ⟨rfl, hvars'.trans hvars, fun b => ?_⟩
    rw [List.exists_mem_cons_iff, ← hyields, ← hyields']
    cases o with
    | none => simp
    | some a => simp

end AnswerStream

end GraphInference
