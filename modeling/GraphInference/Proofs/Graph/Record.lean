import GraphInference.Proofs.Graph.Elements

/-!
# What a history records of relations

A relation comes into a graph by one operation, with a list of roles and players: an ordinary relation
with the list that is given, the ownership of an attribute with owner and value. The castings of the
graph are the entries of these lists, whatever was done before and after
(`exists_plays_iff_records`); how often an entry stands in its list, and where, they do not tell.
-/

namespace GraphInference.Graph

/-- The operation adds a relation to the graph, with a list of roles and players. -/
inductive Adds (g : Graph) : Operation → ConceptId → List (Label × ConceptId) → Prop
  | relation {type : Label} {players : List (Label × ConceptId)} {r : ConceptId} {h : Graph}
    (hr : g.addRelation type players = .ok (r, h)) : g.Adds (.relation type players) r players
  | ownership {owner value r : ConceptId} {owned : Label} {h : Graph}
    (howned : g.attributeLabel? value = some owned) (hr : g.addHas owner value = .ok (r, h)) :
    g.Adds (.has owner value) r [(owned.ownerRole, owner), (owned.valueRole, value)]

/-- One of the operations, made in their order on an empty graph, adds the relation with the list of
roles and players. -/
def Records (ops : List Operation) (r : ConceptId) (players : List (Label × ConceptId)) : Prop :=
  ∃ before op after, ops = before ++ op :: after ∧ (before.foldl perform {}).Adds op r players

/-! ## Castings after one operation -/

/-- The castings that an ownership stands for. -/
def castingsOfEdge (e : HasEdge) : List Casting :=
  [⟨e.id, e.owned.ownerRole, e.owner⟩, ⟨e.id, e.owned.valueRole, e.value⟩]

theorem exists_plays_iff {g : Graph} {c : Casting} :
    (∃ e, g.Plays e c) ↔ c ∈ g.castings ∨ ∃ e ∈ g.edges, c ∈ castingsOfEdge e := by
  constructor
  · rintro ⟨_, h | h | h⟩
    · exact .inl h
    · exact .inr ⟨_, h, .head _⟩
    · exact .inr ⟨_, h, .tail _ (.head _)⟩
  · rintro (h | ⟨e, he, h⟩)
    · exact ⟨_, .stored h⟩
    · rcases List.mem_cons.mp h with rfl | h
      · exact ⟨_, .owner he⟩
      · cases List.mem_singleton.mp h
        exact ⟨_, .value he⟩

/-- The second graph links no other concepts than the first. -/
structure SameLinks (g h : Graph) : Prop where
  castings : h.castings = g.castings
  edges : h.edges = g.edges

variable {g : Graph}

theorem SameLinks.exists_plays_iff {h : Graph} (hs : g.SameLinks h) {c : Casting} :
    (∃ e, h.Plays e c) ↔ ∃ e, g.Plays e c := by
  rw [Graph.exists_plays_iff, Graph.exists_plays_iff, hs.castings, hs.edges]

theorem SameLinks.trans {h k : Graph} (hs : g.SameLinks h) (ht : h.SameLinks k) : g.SameLinks k :=
  ⟨ht.castings.trans hs.castings, ht.edges.trans hs.edges⟩

theorem sameLinks_define (g : Graph) (kind : Kind) (l : Label) :
    g.SameLinks (g.define kind l).2 := by
  unfold define
  split <;> exact ⟨rfl, rfl⟩

theorem sameLinks_defineRoles (roles : List Label) (g : Graph) :
    g.SameLinks (roles.foldl (fun g role => (g.defineRole role).2) g) := by
  induction roles generalizing g with
  | nil => exact ⟨rfl, rfl⟩
  | cons role roles ih => exact (g.sameLinks_define .role role).trans (ih _)

theorem sameLinks_added {r : Except InferenceError (ConceptId × Graph)}
    (hr : ∀ x, r = .ok x → g.SameLinks x.2) : g.SameLinks (g.added r) := by
  cases r with
  | error e => exact ⟨rfl, rfl⟩
  | ok x => exact hr x rfl

theorem addRelation_eq_ok {type : Label} {players : List (Label × ConceptId)}
    {x : ConceptId × Graph} (hx : g.addRelation type players = .ok x) :
    x.1 = g.nextId 'V' ∧ (∃ t, x.2.concepts = g.concepts ++ [⟨x.1, .relation, none, some t, none⟩]) ∧
      x.2.castings = g.castings ++ players.map (fun p => ⟨x.1, p.1, p.2⟩) ∧ x.2.edges = g.edges := by
  obtain ⟨t, -, hx⟩ := Except.bind_eq_ok.mp hx
  obtain ⟨_, -, hx⟩ := Except.bind_eq_ok.mp hx
  obtain rfl := Except.ok.inj hx
  exact ⟨rfl, ⟨t, rfl⟩, rfl, rfl⟩

theorem addHas_eq_ok {owner value : ConceptId} {x : ConceptId × Graph}
    (hx : g.addHas owner value = .ok x) :
    x.1 = g.nextId 'E' ∧ (∃ t, x.2.concepts = g.concepts ++ [⟨x.1, .relation, none, some t, none⟩]) ∧
      x.2.castings = g.castings ∧ ∃ owned, g.attributeLabel? value = some owned ∧
        x.2.edges = g.edges ++ [⟨x.1, owned, owner, value⟩] := by
  obtain ⟨_, -, hx⟩ := Except.bind_eq_ok.mp hx
  split at hx
  · cases hx
  · next owned howned =>
    obtain ⟨t, -, hx⟩ := Except.bind_eq_ok.mp hx
    obtain rfl := Except.ok.inj hx
    exact ⟨rfl, ⟨t, rfl⟩, rfl, owned, howned, rfl⟩

/-- A relation that is added has an identifier not used before, and the graph holds it afterwards. -/
theorem Adds.spec {op : Operation} {r : ConceptId} {players : List (Label × ConceptId)}
    (h : g.Adds op r players) : (∃ letter, r = g.nextId letter) ∧ (g.perform op).Holds r := by
  cases h with
  | relation hr =>
    obtain ⟨hid, ⟨t, hconcepts⟩, -⟩ := addRelation_eq_ok hr
    refine ⟨⟨_, hid⟩, ⟨r, .relation, none, some t, none⟩, ?_, rfl⟩
    rw [perform, hr]
    exact hconcepts ▸ List.mem_append_right _ (.head _)
  | ownership _ hr =>
    obtain ⟨hid, ⟨t, hconcepts⟩, -⟩ := addHas_eq_ok hr
    refine ⟨⟨_, hid⟩, ⟨r, .relation, none, some t, none⟩, ?_, rfl⟩
    rw [perform, hr]
    exact hconcepts ▸ List.mem_append_right _ (.head _)

/-- An operation that adds no relation links nothing. -/
theorem sameLinks_perform {op : Operation} (h : ∀ r players, ¬ g.Adds op r players) :
    g.SameLinks (g.perform op) := by
  cases op with
  | entityType l | role l => exact g.sameLinks_define _ l
  | relationType l roles => exact (sameLinks_defineRoles roles g).trans (sameLinks_define _ _ l)
  | attributeType l =>
    exact (((g.sameLinks_define _ _).trans (sameLinks_define _ _ _)).trans
      (sameLinks_define _ _ _)).trans (sameLinks_define _ _ _)
  | supertype sub sup =>
    rw [perform]
    split
    · next k hk =>
      obtain ⟨a, b, -, -, rfl⟩ := setSupertype_eq_ok hk
      exact ⟨rfl, rfl⟩
    · exact ⟨rfl, rfl⟩
  | entity type =>
    refine sameLinks_added fun x hx => ?_
    obtain ⟨t, -, hx⟩ := Except.bind_eq_ok.mp hx
    obtain rfl := Except.ok.inj hx
    exact ⟨rfl, rfl⟩
  | attr type value =>
    refine sameLinks_added fun x hx => ?_
    obtain ⟨t, -, hx⟩ := Except.bind_eq_ok.mp hx
    split at hx <;>
    · obtain rfl := Except.ok.inj hx
      exact ⟨rfl, rfl⟩
  | relation type players => exact sameLinks_added fun x hx => absurd (.relation hx) (h _ _)
  | has owner value =>
    refine sameLinks_added fun x hx => ?_
    obtain ⟨-, -, -, owned, howned, -⟩ := addHas_eq_ok hx
    exact absurd (.ownership howned hx) (h _ _)

/-- An operation adds a casting for each entry of the list it adds a relation with, and no other. -/
theorem exists_plays_perform_iff {op : Operation} {c : Casting} :
    (∃ e, (g.perform op).Plays e c) ↔ (∃ e, g.Plays e c) ∨
      ∃ players, g.Adds op c.relation players ∧ (c.role, c.player) ∈ players := by
  by_cases hop : ∃ r players, g.Adds op r players
  · obtain ⟨r, players, hop⟩ := hop
    cases hop with
    | @relation type _ _ h hr =>
      obtain ⟨-, -, hcastings, hedges⟩ := addRelation_eq_ok hr
      have hperform : g.perform (.relation type players) = h := by rw [perform, hr]; rfl
      have hadds : (∃ qs, g.Adds (.relation type players) c.relation qs ∧ (c.role, c.player) ∈ qs) ↔
          c.relation = r ∧ (c.role, c.player) ∈ players := by
        constructor
        · rintro ⟨_, ⟨hr'⟩, hmem⟩
          cases hr.symm.trans hr'
          exact ⟨rfl, hmem⟩
        · rintro ⟨rfl, hmem⟩
          exact ⟨players, .relation hr, hmem⟩
      have hnew : c ∈ players.map (fun p => (⟨r, p.1, p.2⟩ : Casting)) ↔
          c.relation = r ∧ (c.role, c.player) ∈ players := by
        rw [List.mem_map]
        constructor
        · rintro ⟨p, hp, rfl⟩
          exact ⟨rfl, hp⟩
        · rintro ⟨rfl, hp⟩
          exact ⟨_, hp, rfl⟩
      rw [hperform, hadds, exists_plays_iff, exists_plays_iff, hcastings, hedges, List.mem_append, hnew,
        or_right_comm]
    | @ownership owner value _ owned h howned hr =>
      obtain ⟨-, -, hcastings, owned', howned', hedges⟩ := addHas_eq_ok hr
      obtain rfl := Option.some.inj (howned.symm.trans howned')
      have hperform : g.perform (.has owner value) = h := by rw [perform, hr]; rfl
      have hadds : (∃ qs, g.Adds (.has owner value) c.relation qs ∧ (c.role, c.player) ∈ qs) ↔
          c ∈ castingsOfEdge ⟨r, owned, owner, value⟩ := by
        obtain ⟨relation, role, player⟩ := c
        constructor
        · rintro ⟨_, hadds, hmem⟩
          cases hadds with
          | ownership howned' hr' =>
            cases hr.symm.trans hr'
            cases howned.symm.trans howned'
            simpa [castingsOfEdge] using hmem
        · intro hmem
          obtain rfl : relation = r := by
            simp only [castingsOfEdge, List.mem_cons, Casting.mk.injEq, List.not_mem_nil] at hmem
            tauto
          exact ⟨_, .ownership howned hr, by simpa [castingsOfEdge] using hmem⟩
      rw [hperform, hadds, exists_plays_iff, exists_plays_iff, hcastings, hedges]
      simp only [List.mem_append, List.mem_singleton, or_and_right, exists_or, exists_eq_left, or_assoc]
  · rw [(sameLinks_perform fun r players h => hop ⟨r, players, h⟩).exists_plays_iff]
    refine (or_iff_left fun h => ?_).symm
    obtain ⟨players, h, -⟩ := h
    exact hop ⟨_, players, h⟩

/-! ## Castings after a history -/

theorem records_concat {ops : List Operation} {op : Operation} {r : ConceptId}
    {players : List (Label × ConceptId)} : Records (ops ++ [op]) r players ↔
      Records ops r players ∨ (ops.foldl perform {}).Adds op r players := by
  constructor
  · rintro ⟨before, op', after, heq, hadds⟩
    rcases List.eq_nil_or_concat after with rfl | ⟨after, last, rfl⟩
    · obtain ⟨rfl, hlast⟩ := List.append_inj' heq rfl
      obtain rfl := List.singleton_inj.mp hlast
      exact .inr hadds
    · rw [List.concat_eq_append, ← List.cons_append, ← List.append_assoc] at heq
      obtain ⟨rfl, -⟩ := List.append_inj' heq rfl
      exact .inl ⟨before, op', after, rfl, hadds⟩
  · rintro (⟨before, op', after, rfl, hadds⟩ | hadds)
    · exact ⟨before, op', after ++ [op], by rw [List.append_assoc, List.cons_append], hadds⟩
    · exact ⟨ops, op, [], rfl, hadds⟩

/-- The castings of a graph are the entries of the lists that its relations were added with. -/
theorem exists_plays_iff_records {ops : List Operation} {c : Casting} :
    (∃ e, (ops.foldl perform {}).Plays e c) ↔
      ∃ players, Records ops c.relation players ∧ (c.role, c.player) ∈ players := by
  induction ops using List.reverseRecOn with
  | nil =>
    rw [exists_plays_iff]
    constructor
    · rintro (h | ⟨e, h, -⟩) <;> cases h
    · rintro ⟨_, ⟨before, op, after, heq, -⟩, -⟩
      cases before <;> cases heq
  | append_singleton ops op ih =>
    simp only [List.foldl_append, List.foldl_cons, List.foldl_nil, exists_plays_perform_iff, ih,
      records_concat, or_and_right, exists_or]

/-- A graph holds what its history records. -/
theorem Records.holds {ops : List Operation} {r : ConceptId} {players : List (Label × ConceptId)}
    (h : Records ops r players) : (ops.foldl perform {}).Holds r := by
  obtain ⟨before, op, after, rfl, hadds⟩ := h
  have hgrows : ((before.foldl perform {}).perform op).Precedes
      ((before ++ op :: after).foldl perform {}) := ⟨after, by rw [List.foldl_append]; rfl⟩
  exact hadds.spec.2.mono hgrows.concepts_subset

/-- A relation is added once. -/
theorem Records.unique {ops : List Operation} {r : ConceptId} {ps qs : List (Label × ConceptId)}
    (hps : Records ops r ps) (hqs : Records ops r qs) : ps = qs := by
  induction ops using List.reverseRecOn with
  | nil =>
    obtain ⟨before, op, after, heq, -⟩ := hps
    cases before <;> cases heq
  | append_singleton ops op ih =>
    -- the identifier of what the last operation adds was not in use before
    have hnew {players players' : List (Label × ConceptId)} (hold : Records ops r players)
        (hadds : (ops.foldl perform {}).Adds op r players') : False := by
      obtain ⟨⟨letter, rfl⟩, -⟩ := hadds.spec
      have hwf := wellFormed_of_foldl_perform wellFormed_empty ops
      exact hwf.nextId_fresh letter hold.holds
    rcases records_concat.mp hps with hps | hps <;> rcases records_concat.mp hqs with hqs | hqs
    · exact ih hps hqs
    · exact absurd hqs (hnew hps)
    · exact absurd hps (hnew hqs)
    · cases hps with
      | relation hr => cases hqs; rfl
      | ownership howned hr =>
        cases hqs with
        | ownership howned' _ => rw [Option.some.inj (howned.symm.trans howned')]

end GraphInference.Graph
