import GraphInference.Proofs.Query.Preservation

/-!
# The variables of atomic queries

The atomic queries of a conjunction name its variables and those that were generated while it was
decomposed (`DecomposedQuery.names_or_hidden`), and each of them has a statement to look up.
-/

namespace GraphInference

theorem Var.isEmpty_generated (k : Nat) : (Var.generated k).isEmpty = false := by
  refine decide_eq_false fun h => ?_
  have := congrArg String.toList h
  rw [Var.generated, Var.generatedName, String.toList_ofList] at this
  cases this

theorem Atom.type?_withQuery {a : Atom} {i : QueryId} : (a.withQuery i).type? = a.type? := by
  cases a <;> rfl

/-- A variable that a query names is one of its variables, unless it is absent. -/
theorem AtomicQuery.mem_vars_of_names {g : Graph} {q : AtomicQuery} {v : Var} (hq : q.Decomposed g)
    (hv : q.Names v) (hpresent : v.isEmpty = false) : v ∈ q.vars := by
  rw [mem_vars_iff hq]
  rcases mem_slots.mp (mem_slots_of_names hq hv) with h | h | h | h
  · exact .inl ⟨.inl h, hpresent⟩
  · exact .inl ⟨.inr h, hpresent⟩
  · exact .inr (.inl h)
  · exact .inr (.inr h)

namespace Decomposition

open Attempt

variable {t : Transaction} {s s' : Supply} {a : Atom}

theorem family_of_gives_relationAtom {st : Statement} {ps : List RolePlayer}
    (h : (relationAtom t st ps).Gives s a s') : a.family = .relation := by
  obtain ⟨c, u, -, h⟩ := gives_bind.mp h
  obtain ⟨_, v, -, h⟩ := gives_bind.mp h
  obtain ⟨rfl, -⟩ := gives_pure.mp h
  rfl

theorem family_of_gives_hasAtom {owner value : Var} {owned : Label}
    (h : (hasAtom t owner owned value).Gives s a s') : a.family = .relation := by
  unfold hasAtom at h
  split at h
  · exact absurd h not_gives_throw
  · obtain ⟨v, u, -, h⟩ := gives_bind.mp h
    obtain ⟨w, u', -, h⟩ := gives_bind.mp h
    obtain ⟨rfl, -⟩ := gives_pure.mp h
    rfl

end Decomposition

namespace DecomposedQuery

open Attempt Decomposition FragmentSet

variable {t : Transaction} {c : Conjunction} {d : DecomposedQuery} {s s' : Supply} {q : AtomicQuery}
  {v : Var}

/-- A query names variables of the conjunction and generated ones. -/
theorem names_or_hidden {g : Graph} (hg : g.WellFormed) (hd : (ofConjunction t c).Gives s d s')
    (hpresent : ∀ v, c.Names v → v.isEmpty = false) (hq : q ∈ d.queries) (hv : q.Names v) :
    c.Names v ∨ Hidden s.vars s'.vars v := by
  obtain ⟨central, -, hasks, hqueries⟩ := exists_asks hg hd hpresent
  have hnames {st : Statement} (hst : st ∈ c.statements) {v : Var} (hv : st.Names v) : c.Names v :=
    ⟨st, hst, hv⟩
  obtain ⟨a, ha, id, rfl⟩ := exists_of_forall₂_of_mem hqueries.flip hq
  obtain ⟨b, hb, hv⟩ := hv
  rw [AtomicQuery.atoms_renumber, List.mem_map] at hb
  obtain ⟨b, hb, rfl⟩ := hb
  rw [Atom.names_withQuery] at hv
  have hpredicate {p : Atom} (hp : p ∈ c.statements.flatMap predicates) (hv : p.Names v) :
      c.Names v := by
    obtain ⟨st, hst, hp⟩ := List.mem_flatMap.mp hp
    obtain rfl := (Atom.names_predicate_iff (isPredicate_of_mem_predicates hp)).mp hv
    exact hnames hst (names_var_of_mem_predicates hp)
  rcases List.mem_cons.mp hb with rfl | hb
  · rcases mem_of_mem_cover ha with ha | ⟨p, hp, rfl⟩
    · exact (hasks.scope b ha v hv).imp_left fun ⟨st, hst, hv⟩ => hnames hst hv
    · obtain ⟨t, ht, -⟩ := hv
      cases ht
  · exact .inl (hpredicate (List.mem_of_mem_filter hb) hv)

/-- If the conjunction names no variable that was yet to be generated, then the queries name none that
still is. -/
theorem not_names_generated {g : Graph} (hg : g.WellFormed) (hd : (ofConjunction t c).Gives s d s')
    (hpresent : ∀ v, c.Names v → v.isEmpty = false) (hfresh : ∀ k, s.vars ≤ k → .generated k ∉ c.vars)
    (hq : q ∈ d.queries) {k : Nat} (hk : s'.vars ≤ k) : ¬ q.Names (.generated k) := by
  intro hv
  obtain ⟨_, _, hasks, _⟩ := exists_asks hg hd hpresent
  rcases names_or_hidden hg hd hpresent hq hv with hv | ⟨n, -, hn, heq⟩
  · exact hfresh k (hasks.le.trans hk) (mem_vars_of_names hv (hpresent _ hv))
  · have := Var.generated_injective heq
    omega

/-- Every query has a statement. -/
theorem statements_ne_nil (hd : (ofConjunction t c).Gives s d s')
    (hpresent : ∀ v, c.Names v → v.isEmpty = false) (hq : q ∈ d.queries) :
    q.toConjunction.statements ≠ [] := by
  rw [Ne, AtomicQuery.statements_eq_nil_iff (decomposed_of_mem_queries hd hq)]
  rintro ⟨⟨hfamily, htype⟩, hdemands⟩
  obtain ⟨central, u, hcentral, -, hqueries⟩ := exists_of_gives_ofConjunction hd
  obtain ⟨a, ha, id, rfl⟩ := exists_of_forall₂_of_mem hqueries.flip hq
  rw [AtomicQuery.central_renumber, Atom.family_withQuery] at hfamily
  rw [AtomicQuery.central_renumber, Atom.type?_withQuery] at htype
  rcases mem_of_mem_cover ha with ha | ⟨p, hp, rfl⟩
  · obtain ⟨as, has, ha⟩ := List.mem_flatten.mp ha
    obtain ⟨st, hst, v, w, hatoms⟩ := exists_of_gives_mapM hcentral has
    obtain ⟨first, u, owned, rfl, howned, hfirst⟩ := exists_of_gives_centralAtoms hatoms
    rcases List.mem_append.mp ha with ha | ha
    · rcases hfirst with ⟨ps, b, -, rfl, hb⟩ | ⟨type, c, -, htype', rfl, hc⟩ | ⟨-, -, rfl, -⟩
      · obtain rfl := List.mem_singleton.mp ha
        rw [family_of_gives_relationAtom hb] at hfamily
        cases hfamily
      · obtain rfl := List.mem_singleton.mp ha
        obtain ⟨-, hctype, -⟩ := type?_of_gives_anchor hc fun v hv => hpresent v
          ⟨st, hst, _, Statement.mem_of_type? (htype'.trans hv), .inr rfl⟩
        cases hctype.symm.trans htype
      · cases ha
    · obtain ⟨o, -, u', v', hatom⟩ := exists_of_gives_mapM howned ha
      rw [family_of_gives_hasAtom hatom] at hfamily
      cases hfamily
  · have hvar : p.var.isEmpty = false := by
      obtain ⟨st, hst, hp⟩ := List.mem_flatMap.mp hp
      exact hpresent _ ⟨st, hst, names_var_of_mem_predicates hp⟩
    have hin : (Atom.untyped p.var).vars.contains p.var = true :=
      SortedSet.contains_iff.mpr (SortedSet.mem_ofList.mpr (by simp [Atom.untyped, Anchor.vars, hvar]))
    have hattached : p ∈ (c.statements.flatMap predicates).filter fun p' =>
      (Atom.untyped p.var).vars.contains p'.var := List.mem_filter.mpr ⟨hp, hin⟩
    rw [AtomicQuery.demands, List.map_eq_nil_iff] at hdemands
    exact List.ne_nil_of_mem hattached (List.map_eq_nil_iff.mp hdemands)

end DecomposedQuery

end GraphInference
