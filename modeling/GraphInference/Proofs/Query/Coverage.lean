import GraphInference.Proofs.Query.Scope

/-!
# The variables that atomic queries cover

A query that can be looked up names all its user-defined variables, so that every match binds them
(`AtomicQuery.names_of_mem_userVars`). Between them the queries of a pattern have the subjects of its
statements and the variables of every property that decomposition reads
(`DecomposedQuery.exists_mem_central_vars`).
-/

namespace GraphInference

namespace AtomicQuery

variable {q : AtomicQuery} {g : Graph} {v : Var}

/-- The variable of the type is named if it is user-defined, as no label is beside it then. -/
theorem names_typeVar (hq : q.Decomposed g) (huser : q.central.typeVar.userDefined = true)
    (hpresent : q.central.typeVar.isEmpty = false) : q.Names q.central.typeVar := by
  obtain ⟨c, hc, hresolved⟩ := hq.exists_anchor
  have hcv : q.central.typeVar = c.typeVar := by
    rw [Atom.typeVar, hc]
    rfl
  rw [hcv] at huser hpresent ⊢
  have hlabel : c.label = none := by
    cases hl : c.label with
    | none => rfl
    | some l =>
      unfold Anchor.ResolvedIn at hresolved
      rw [hl] at hresolved
      rw [hresolved.1] at huser
      cases huser
  refine (names_iff hq).mpr (.inr (.inl ⟨.var c.typeVar, ?_, .inr rfl⟩))
  rw [Option.mem_def, Atom.type?, hc, Option.bind_some, Anchor.type?, hlabel]
  simp [hpresent]

/-- The predicates of an untyped query that is no relation are on its anchor. -/
theorem var_eq_of_untyped (hq : q.Decomposed g) (hnone : q.central.type? = none) (hplayers : q.central.players = [])
    {v : Var} (hv : v ∈ q.central.vars) : v = q.central.var := by
  obtain ⟨c, hc, hresolved⟩ := hq.exists_anchor
  rcases (Atom.mem_vars_central_iff hq.central.1).mp hv with ⟨hvar | hvar, hne⟩ | ⟨p, hp, -⟩
  · exact hvar
  · have hnone : c.type? = none := by
      rw [← hnone, Atom.type?, hc]
      rfl
    rw [hvar, Atom.typeVar, hc, Option.elim_some, hresolved.plain.type?_eq_none_iff.mp hnone] at hne
    cases hne
  · rw [hplayers] at hp
    cases hp

/-- The anchor is named if the query has statements and can be looked up. -/
theorem names_var (hq : q.Decomposed g) (hattached : ∀ p ∈ q.predicates, p.var ∈ q.central.vars)
    (hsearchable : q.Searchable) (hstatements : q.toConjunction.statements ≠ []) : q.Names q.central.var := by
  have hcentral := hq.central.1
  cases ht : q.central.type? with
  | some t =>
    refine (names_iff hq).mpr (.inr (.inl ⟨t, ht, ?_⟩))
    cases t with
    | label l => exact rfl
    | var w => exact .inl rfl
  | none =>
    by_cases hfamily : q.central.family = .relation
    · rcases (searchable_iff hq).mp hsearchable hfamily with hplayers | htype
      · obtain ⟨p, hp⟩ := List.exists_mem_of_ne_nil _ hplayers
        exact (names_iff hq).mpr (.inl ⟨p, hp, .inl rfl⟩)
      · exact absurd ht htype
    · have hisa : q.central.family = .isa ∧ q.central.players = [] := by
        cases hcase : q.central with
        | isa _ => exact ⟨rfl, rfl⟩
        | relation _ => rw [hcase] at hfamily; exact absurd rfl hfamily
        | _ => rw [hcase] at hcentral; cases hcentral
      have hdemands : q.demands ≠ [] := fun hnil =>
        hstatements ((statements_eq_nil_iff hq).mpr ⟨⟨hisa.1, ht⟩, hnil⟩)
      obtain ⟨e, he⟩ := List.exists_mem_of_ne_nil _ hdemands
      obtain ⟨p, hp, rfl⟩ := List.mem_map.mp he
      have hvar : p.var = q.central.var := var_eq_of_untyped hq ht hisa.2 (hattached p hp)
      exact (names_iff hq).mpr (.inr (.inr ⟨_, he, hvar.symm⟩))

theorem names_of_mem_userVars (hq : q.Decomposed g)
    (hattached : ∀ p ∈ q.predicates, p.var ∈ q.central.vars) (hsearchable : q.Searchable)
    (hstatements : q.toConjunction.statements ≠ []) (hv : v ∈ q.userVars) : q.Names v := by
  obtain ⟨hv, huser⟩ := SortedSet.mem_filter.mp hv
  rcases (mem_vars_iff hq).mp hv with ⟨rfl | rfl, hpresent⟩ | ⟨p, hp, rfl⟩ | ⟨e, he, rfl⟩
  · exact names_var hq hattached hsearchable hstatements
  · exact names_typeVar hq huser hpresent
  · exact (names_iff hq).mpr (.inl ⟨p, hp, .inr rfl⟩)
  · exact (names_iff hq).mpr (.inr (.inr ⟨e, he, rfl⟩))

end AtomicQuery

namespace DecomposedQuery

open Attempt Decomposition

variable {t : Transaction} {c : Conjunction} {d : DecomposedQuery} {s s' : Supply} {q : AtomicQuery}
  {v : Var}

theorem vars_of_gives_anchor {x : Var} {type : Option TypeRef} {a : Anchor}
    (h : (anchor t x type).Gives s a s') : a.var = x ∧ ∀ w, type = some (.var w) → a.typeVar = w := by
  unfold anchor at h
  split at h
  · obtain ⟨_, _, -, h⟩ := gives_bind.mp h
    obtain ⟨_, _, -, h⟩ := gives_bind.mp h
    obtain ⟨rfl, -⟩ := gives_pure.mp h
    exact ⟨rfl, fun _ h => nomatch h⟩
  · obtain ⟨rfl, -⟩ := gives_pure.mp h
    exact ⟨rfl, fun w h => TypeRef.var.inj (Option.some.inj h)⟩
  · obtain ⟨rfl, -⟩ := gives_pure.mp h
    exact ⟨rfl, fun _ h => nomatch h⟩

/-- The predicates of a query are on variables of its central atom. -/
theorem var_mem_of_mem_predicates (hd : (ofConjunction t c).Gives s d s') (hq : q ∈ d.queries) :
    ∀ p ∈ q.predicates, p.var ∈ q.central.vars := by
  obtain ⟨central, u, -, -, hqueries⟩ := exists_of_gives_ofConjunction hd
  obtain ⟨a, -, id, rfl⟩ := exists_of_forall₂_of_mem hqueries.flip hq
  intro p hp
  obtain ⟨p', hp', rfl⟩ := List.mem_map.mp hp
  rw [Atom.var_withQuery, AtomicQuery.central_renumber, Atom.vars_withQuery]
  exact SortedSet.contains_iff.mp (List.mem_filter.mp hp').2

/-- A variable of a central atom or of a predicate is one of a query. -/
theorem exists_mem_vars (hd : (ofConjunction t c).Gives s d s') {st : Statement}
    (hst : st ∈ c.statements) (hpresent : v.isEmpty = false)
    (h : ∀ {as u u'}, (centralAtoms t st).Gives u as u' →
      (∃ a ∈ as, v ∈ a.vars) ∨ ∃ p ∈ predicates st, p.var = v) :
    ∃ q ∈ d.queries, v ∈ q.central.vars := by
  obtain ⟨central, u, hcentral, -, hqueries⟩ := exists_of_gives_ofConjunction hd
  obtain ⟨as, has, u, u', hatoms⟩ := exists_result_of_gives_mapM hcentral hst
  obtain ⟨a, ha, hv⟩ : ∃ a ∈ cover central.flatten (c.statements.flatMap predicates), v ∈ a.vars := by
    rcases h hatoms with ⟨a, ha, hv⟩ | ⟨p, hp, rfl⟩
    · exact ⟨a, mem_cover_of_mem (List.mem_flatten.mpr ⟨as, has, ha⟩), hv⟩
    · exact exists_mem_cover (List.mem_flatMap.mpr ⟨st, hst, hp⟩) hpresent
  obtain ⟨q, hq, id, rfl⟩ := exists_of_forall₂_of_mem hqueries ha
  exact ⟨_, hq, by rwa [AtomicQuery.central_renumber, Atom.vars_withQuery]⟩

/-! ## Central atoms -/

section

variable {st : Statement} {as : List Atom} {b : Atom}

/-- The atom of a relation has the subject, the type's variable and the players. -/
theorem mem_vars_of_gives_relationAtom {ps : List RolePlayer} (h : (relationAtom t st ps).Gives s b s')
    (hpresent : v.isEmpty = false)
    (hv : v = st.subject ∨ st.type? = some (.var v) ∨ ∃ p ∈ ps, p.player = v) : v ∈ b.vars := by
  obtain ⟨_, _, hanchor, h⟩ := gives_bind.mp h
  obtain ⟨_, _, -, h⟩ := gives_bind.mp h
  obtain ⟨rfl, -⟩ := gives_pure.mp h
  rw [Atom.mem_vars_central_iff rfl]
  rcases hv with rfl | htype | ⟨p, hp, rfl⟩
  · exact .inl ⟨.inl (vars_of_gives_anchor hanchor).1.symm, hpresent⟩
  · exact .inl ⟨.inr ((vars_of_gives_anchor hanchor).2 v htype).symm, hpresent⟩
  · exact .inr ⟨_, List.mem_map_of_mem hp, rfl⟩

/-- The atom of an ownership has the owner and the attribute. -/
theorem mem_vars_of_gives_hasAtom {owner value : Var} {owned : Label} (h : (hasAtom t owner owned value).Gives s b s')
    (hv : v = owner ∨ v = value) : v ∈ b.vars := by
  unfold hasAtom at h
  split at h
  · exact absurd h not_gives_throw
  · obtain ⟨_, _, -, h⟩ := gives_bind.mp h
    obtain ⟨_, _, -, h⟩ := gives_bind.mp h
    obtain ⟨rfl, -⟩ := gives_pure.mp h
    rw [Atom.mem_vars_central_iff rfl]
    rcases hv with rfl | rfl
    · exact .inr ⟨_, .head _, rfl⟩
    · exact .inr ⟨_, .tail _ (.head _), rfl⟩

theorem exists_mem_vars_of_players (h : (centralAtoms t st).Gives s as s') {ps : List RolePlayer}
    (hps : st.players? = some ps) (hpresent : v.isEmpty = false)
    (hv : v = st.subject ∨ st.type? = some (.var v) ∨ ∃ p ∈ ps, p.player = v) : ∃ a ∈ as, v ∈ a.vars := by
  obtain ⟨first, w, owned, rfl, -, hfirst⟩ := exists_of_gives_centralAtoms h
  rcases hfirst with ⟨ps', b, hps', rfl, hb⟩ | ⟨_, _, hnone, -⟩ | ⟨hnone, -⟩
  · obtain rfl := Option.some.inj (hps.symm.trans hps')
    exact ⟨b, List.mem_append_left _ (.head _), mem_vars_of_gives_relationAtom hb hpresent hv⟩
  · cases hps.symm.trans hnone
  · cases hps.symm.trans hnone

theorem exists_mem_vars_of_type (h : (centralAtoms t st).Gives s as s') {type : TypeRef}
    (htype : st.type? = some type) (hpresent : v.isEmpty = false)
    (hv : v = st.subject ∨ st.type? = some (.var v)) : ∃ a ∈ as, v ∈ a.vars := by
  obtain ⟨first, w, owned, rfl, -, hfirst⟩ := exists_of_gives_centralAtoms h
  rcases hfirst with ⟨ps, b, hps, rfl, -⟩ | ⟨type', anchor, -, htype', rfl, hanchor⟩ | ⟨-, hnone, -⟩
  · exact exists_mem_vars_of_players h hps hpresent (hv.imp_right .inl)
  · refine ⟨_, List.mem_append_left _ (.head _), (Atom.mem_vars_central_iff rfl).mpr (.inl ⟨?_, hpresent⟩)⟩
    rw [← htype'] at hanchor
    exact hv.imp (fun hv => hv.trans (vars_of_gives_anchor hanchor).1.symm)
      fun hv => ((vars_of_gives_anchor hanchor).2 v hv).symm
  · cases htype.symm.trans hnone

theorem exists_mem_vars_of_ownership (h : (centralAtoms t st).Gives s as s') {o : Label × Var × Option Constraint}
    (ho : o ∈ st.ownerships) (hv : v = st.subject ∨ v = o.2.1) : ∃ a ∈ as, v ∈ a.vars := by
  obtain ⟨first, w, owned, rfl, howned, -⟩ := exists_of_gives_centralAtoms h
  obtain ⟨a, ha, w₁, w₂, hatom⟩ := exists_result_of_gives_mapM howned ho
  exact ⟨a, List.mem_append_right _ ha, mem_vars_of_gives_hasAtom hatom hv⟩

end

/-- The queries have the subject of each statement and the variables of each property that is read: of
types and relations the first, of all else every one. -/
theorem exists_mem_central_vars (hd : (ofConjunction t c).Gives s d s') {st : Statement}
    (hst : st ∈ c.statements) (hpresent : v.isEmpty = false)
    (hv : v = st.subject ∨ ∃ p, st.Keeps p ∧ v ∈ p.vars) : ∃ q ∈ d.queries, v ∈ q.central.vars := by
  refine exists_mem_vars hd hst hpresent fun {as u u'} hatoms => ?_
  have hproperties : st.properties ≠ [] := by
    intro hnil
    unfold centralAtoms at hatoms
    rw [hnil] at hatoms
    obtain ⟨_, _, h, -⟩ := gives_bind.mp hatoms
    exact not_gives_throw h
  rcases hv with rfl | ⟨p, hkept, hv⟩
  · obtain ⟨p, hp⟩ := List.exists_mem_of_ne_nil _ hproperties
    cases p with
    | isa type =>
      obtain ⟨type', htype⟩ : ∃ type', st.type? = some type' :=
        Option.isSome_iff_exists.mp (List.findSome?_isSome_iff.mpr ⟨_, hp, rfl⟩)
      exact .inl (exists_mem_vars_of_type hatoms htype hpresent (.inl rfl))
    | relation ps =>
      obtain ⟨ps', hps⟩ : ∃ ps', st.players? = some ps' :=
        Option.isSome_iff_exists.mp (List.findSome?_isSome_iff.mpr ⟨_, hp, rfl⟩)
      exact .inl (exists_mem_vars_of_players hatoms hps hpresent (.inl rfl))
    | has owned value predicate =>
      have ho : (owned, value, predicate) ∈ st.ownerships := Statement.mem_ownerships.mpr hp
      exact .inl (exists_mem_vars_of_ownership hatoms ho (.inl rfl))
    | value constraint =>
      refine .inr ⟨.value ⟨st.subject, constraint, none⟩, ?_, rfl⟩
      exact List.mem_append_left _ (List.mem_append_right _
        (List.mem_map_of_mem (Statement.mem_constraints.mpr hp)))
    | identity id =>
      refine .inr ⟨.identity ⟨st.subject, id, none⟩, ?_, rfl⟩
      exact List.mem_append_right _ (List.mem_map_of_mem (Statement.mem_ids.mpr hp))
  · cases p with
    | isa type =>
      cases type with
      | label l => cases hv
      | var type =>
        obtain rfl := List.mem_singleton.mp hv
        exact .inl (exists_mem_vars_of_type hatoms hkept hpresent (.inr hkept))
    | relation ps =>
      exact .inl (exists_mem_vars_of_players hatoms hkept hpresent (.inr (.inr (List.mem_map.mp hv))))
    | has owned value predicate =>
      have ho : (owned, value, predicate) ∈ st.ownerships := Statement.mem_ownerships.mpr hkept
      exact .inl (exists_mem_vars_of_ownership hatoms ho (.inr (List.mem_singleton.mp hv)))
    | value _ | identity _ => cases hv

/-- A conjunction whose statements have one type and one relation at the most loses no variable. -/
theorem exists_mem_central_vars_of_single (hd : (ofConjunction t c).Gives s d s')
    (hsingle : ∀ st ∈ c.statements, st.Single) (hv : v ∈ c.vars) :
    ∃ q ∈ d.queries, v ∈ q.central.vars := by
  obtain ⟨st, hst, hv⟩ := List.mem_flatMap.mp (SortedSet.mem_ofList.mp hv)
  obtain ⟨hv, hpresent⟩ := SortedSet.mem_filter.mp hv
  refine exists_mem_central_vars hd hst (by simpa using hpresent) ?_
  refine (List.mem_cons.mp (SortedSet.mem_ofList.mp hv)).imp_right fun hv => ?_
  obtain ⟨p, hp, hv⟩ := List.mem_flatMap.mp hv
  exact ⟨p, (hsingle st hst).keeps_iff.mpr hp, hv⟩

end DecomposedQuery

end GraphInference
