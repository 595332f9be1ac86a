import GraphInference.Proofs.Graph.Reachable
import GraphInference.Proofs.Query.Reading
import GraphInference.Query.Decomposition

/-!
# What decomposition makes

The atomic queries of a decomposed pattern have an `isa` or a relation in their centre, predicates on
values and identifiers, and types that are resolved: a label stands beside the identifier that it has in
the graph (`Anchor.ResolvedIn`).
-/

namespace GraphInference

/-- The type has a label, with a system variable and its identifier in the graph, or else no known
type. -/
def Anchor.ResolvedIn (g : Graph) (c : Anchor) : Prop :=
  match c.label with
  | some l => c.typeVar.userDefined = false ∧ c.typeVar.isEmpty = false ∧
      ∃ p, c.typePredicate = some p ∧ p.var = c.typeVar ∧ g.labelled? l = some p.id
  | none => c.typePredicate = none

theorem Anchor.ResolvedIn.plain {g : Graph} {c : Anchor} (h : c.ResolvedIn g) : c.Plain := by
  unfold ResolvedIn at h
  unfold Plain
  split
  · next l hl =>
    rw [hl] at h
    exact ⟨h.1, h.2.1⟩
  · next hl =>
    rw [hl] at h
    exact h

/-- The type of a resolved anchor is known exactly if it has a label, which is then that of the
identifier. -/
theorem Anchor.ResolvedIn.type_cases {g : Graph} {c : Anchor} (hc : c.ResolvedIn g) :
    (c.label = none ∧ c.typeId? = none) ∨
      ∃ l id, c.label = some l ∧ c.typeId? = some id ∧ g.labelled? l = some id := by
  unfold ResolvedIn at hc
  split at hc
  · next l hl =>
    obtain ⟨-, -, p, hp, -, hid⟩ := hc
    exact .inr ⟨l, p.id, hl, by rw [typeId?, hp, Option.map_some], hid⟩
  · next hl => exact .inl ⟨hl, by rw [typeId?, hc, Option.map_none]⟩

/-- The identifier of a resolved type is asked of the type's variable. -/
theorem Anchor.ResolvedIn.var_eq {g : Graph} {c : Anchor} (hc : c.ResolvedIn g) {p : IdPredicate}
    (hp : c.typePredicate = some p) : p.var = c.typeVar := by
  unfold ResolvedIn at hc
  split at hc
  · obtain ⟨-, -, p', hp', hvar, -⟩ := hc
    obtain rfl := Option.some.inj (hp'.symm.trans hp)
    exact hvar
  · cases hc.symm.trans hp

namespace Atom

/-- An `isa` or a relation with a resolved type. -/
def CentralIn (g : Graph) (a : Atom) : Prop :=
  a.isPredicate = false ∧ ∀ c, a.anchor? = some c → c.ResolvedIn g

theorem CentralIn.withQuery {g : Graph} {a : Atom} (h : a.CentralIn g) (id : QueryId) :
    (a.withQuery id).CentralIn g := by
  have hanchor (c : Anchor) (hc : c.ResolvedIn g) : Anchor.ResolvedIn g { c with
      typePredicate := c.typePredicate.map fun p => { p with query := some id }
      query := some id } := by
    unfold Anchor.ResolvedIn at hc ⊢
    dsimp only
    split
    · next l hl =>
      rw [hl] at hc
      obtain ⟨huser, hempty, p, hp, hvar, hid⟩ := hc
      exact ⟨huser, hempty, { p with query := some id }, by rw [hp, Option.map_some], hvar, hid⟩
    · next hl =>
      rw [hl] at hc
      rw [show c.typePredicate = none from hc, Option.map_none]
  obtain ⟨hpredicate, hresolved⟩ := h
  cases a with
  | isa c | relation r =>
    refine ⟨rfl, fun c' hc' => ?_⟩
    obtain rfl := Option.some.inj hc'
    exact hanchor _ (hresolved _ rfl)
  | _ => cases hpredicate

theorem isPredicate_withQuery (a : Atom) (id : QueryId) :
    (a.withQuery id).isPredicate = a.isPredicate := by
  cases a <;> rfl

end Atom

/-- A query as decomposition against a graph makes it. -/
structure AtomicQuery.Decomposed (g : Graph) (q : AtomicQuery) : Prop where
  central : q.central.CentralIn g
  predicates : ∀ p ∈ q.predicates, p.isPredicate = true

theorem AtomicQuery.Decomposed.exists_anchor {g : Graph} {q : AtomicQuery} (h : q.Decomposed g) :
    ∃ c, q.central.anchor? = some c ∧ c.ResolvedIn g := by
  have hcentral := h.central
  cases hc : q.central with
  | isa c | relation r =>
    rw [hc] at hcentral
    exact ⟨_, rfl, hcentral.2 _ rfl⟩
  | _ =>
    rw [hc] at hcentral
    cases hcentral.1

theorem AtomicQuery.Decomposed.plain {g : Graph} {q : AtomicQuery} (h : q.Decomposed g) :
    ∀ a ∈ q.atoms, a.Plain := by
  intro a ha c hc
  rcases List.mem_cons.mp ha with rfl | ha
  · exact (h.central.2 c hc).plain
  · have := h.predicates a ha
    cases a with
    | isa _ | relation _ => cases this
    | _ => cases hc

namespace Decomposition

open Attempt

variable {t : Transaction} {s s' : Supply}

theorem labelled?_of_resolve {l : Label} {id : ConceptId} (h : resolve t l = .ok id) :
    t.graph.labelled? l = some id := by
  obtain ⟨o, ho, h⟩ := Except.bind_eq_ok.mp h
  obtain ⟨_, -, ho⟩ := Except.bind_eq_ok.mp ho
  obtain rfl := Except.ok.inj ho
  split at h
  · next id' hid =>
    obtain rfl := Except.ok.inj h
    exact hid
  · cases h

theorem resolvedIn_generated {x : Var} {l : Label} {id : ConceptId} {k : Nat}
    (h : t.graph.labelled? l = some id) : Anchor.ResolvedIn t.graph
      ⟨x, .generated k, some ⟨.generated k, id, none⟩, some l, none⟩ := by
  refine ⟨rfl, ?_, _, rfl, rfl, h⟩
  have hne : Var.generatedName k ≠ "" := fun e => by
    have := congrArg String.toList e
    rw [Var.generatedName, String.toList_ofList] at this
    cases this
  exact decide_eq_false hne

theorem resolvedIn_of_gives_anchor {x : Var} {type : Option TypeRef} {c : Anchor}
    (h : (anchor t x type).Gives s c s') : c.ResolvedIn t.graph := by
  unfold anchor at h
  split at h
  · obtain ⟨id, u, hid, h⟩ := gives_bind.mp h
    obtain ⟨v, w, hv, h⟩ := gives_bind.mp h
    obtain ⟨rfl, -⟩ := gives_pure.mp h
    obtain ⟨rfl, -⟩ := Prod.mk.inj (gives_lift.mp hv)
    exact resolvedIn_generated (labelled?_of_resolve (gives_liftExcept.mp hid).1)
  · obtain ⟨rfl, -⟩ := gives_pure.mp h
    exact rfl
  · obtain ⟨rfl, -⟩ := gives_pure.mp h
    exact rfl

theorem centralIn_of_gives_relationAtom {st : Statement} {players : List RolePlayer} {a : Atom}
    (h : (relationAtom t st players).Gives s a s') : a.CentralIn t.graph := by
  obtain ⟨c, u, hc, h⟩ := gives_bind.mp h
  obtain ⟨_, v, -, h⟩ := gives_bind.mp h
  obtain ⟨rfl, -⟩ := gives_pure.mp h
  refine ⟨rfl, fun c' hc' => ?_⟩
  obtain rfl := Option.some.inj hc'
  exact resolvedIn_of_gives_anchor hc

theorem centralIn_of_gives_hasAtom {owner value : Var} {owned : Label} {a : Atom}
    (h : (hasAtom t owner owned value).Gives s a s') : a.CentralIn t.graph := by
  unfold hasAtom at h
  split at h
  · exact absurd h not_gives_throw
  · next id hid =>
    obtain ⟨v, u, hv, h⟩ := gives_bind.mp h
    obtain ⟨w, u', hw, h⟩ := gives_bind.mp h
    obtain ⟨rfl, -⟩ := gives_pure.mp h
    obtain ⟨rfl, -⟩ := Prod.mk.inj (gives_lift.mp hv)
    refine ⟨rfl, fun c hc => ?_⟩
    obtain rfl := Option.some.inj hc
    exact resolvedIn_generated (labelled?_of_resolve hid)

/-- The central atoms of a statement: of its players or else of its type, then of what it owns. -/
theorem exists_of_gives_centralAtoms {st : Statement} {as : List Atom}
    (h : (centralAtoms t st).Gives s as s') : ∃ first u owned, as = first ++ owned ∧
      (st.ownerships.mapM fun o => hasAtom t st.subject o.1 o.2.1).Gives u owned s' ∧
      ((∃ ps a, st.players? = some ps ∧ first = [a] ∧ (relationAtom t st ps).Gives s a u) ∨
        (∃ type c, st.players? = none ∧ st.type? = some type ∧ first = [.isa c] ∧
          (anchor t st.subject (some type)).Gives s c u) ∨
        st.players? = none ∧ st.type? = none ∧ first = [] ∧ u = s) := by
  unfold centralAtoms at h
  dsimp only at h
  split at h
  · obtain ⟨_, _, h, -⟩ := gives_bind.mp h
    exact absurd h not_gives_throw
  · split at h
    · next ps hps =>
      obtain ⟨a, u, ha, h⟩ := gives_bind.mp h
      obtain ⟨_, _, hfirst, h⟩ := gives_bind.mp h
      obtain ⟨rfl, rfl⟩ := gives_pure.mp hfirst
      obtain ⟨owned, v, howned, h⟩ := gives_bind.mp h
      obtain ⟨rfl, rfl⟩ := gives_pure.mp h
      exact ⟨[a], u, owned, rfl, howned, .inl ⟨ps, a, hps, rfl, ha⟩⟩
    · next type hps htype =>
      obtain ⟨c, u, hc, h⟩ := gives_bind.mp h
      obtain ⟨_, _, hfirst, h⟩ := gives_bind.mp h
      obtain ⟨rfl, rfl⟩ := gives_pure.mp hfirst
      obtain ⟨owned, v, howned, h⟩ := gives_bind.mp h
      obtain ⟨rfl, rfl⟩ := gives_pure.mp h
      exact ⟨[.isa c], u, owned, rfl, howned, .inr (.inl ⟨type, c, hps, htype, rfl, hc⟩)⟩
    · next hps htype =>
      obtain ⟨_, _, hfirst, h⟩ := gives_bind.mp h
      obtain ⟨rfl, rfl⟩ := gives_pure.mp hfirst
      obtain ⟨owned, v, howned, h⟩ := gives_bind.mp h
      obtain ⟨rfl, rfl⟩ := gives_pure.mp h
      exact ⟨[], s, owned, rfl, howned, .inr (.inr ⟨hps, htype, rfl, rfl⟩)⟩

theorem centralIn_of_gives_centralAtoms {st : Statement} {as : List Atom}
    (h : (centralAtoms t st).Gives s as s') : ∀ a ∈ as, a.CentralIn t.graph := by
  obtain ⟨first, u, owned, rfl, howned, hfirst⟩ := exists_of_gives_centralAtoms h
  intro a ha
  rcases List.mem_append.mp ha with ha | ha
  · rcases hfirst with ⟨ps, b, -, rfl, hb⟩ | ⟨type, c, -, -, rfl, hc⟩ | ⟨-, -, rfl, -⟩
    · obtain rfl := List.mem_singleton.mp ha
      exact centralIn_of_gives_relationAtom hb
    · obtain rfl := List.mem_singleton.mp ha
      refine ⟨rfl, fun c' hc' => ?_⟩
      obtain rfl := Option.some.inj hc'
      exact resolvedIn_of_gives_anchor hc
    · cases ha
  · obtain ⟨o, -, u', v', hatom⟩ := exists_of_gives_mapM howned ha
    exact centralIn_of_gives_hasAtom hatom

theorem isPredicate_of_mem_predicates {st : Statement} {p : Atom} (h : p ∈ predicates st) :
    p.isPredicate = true := by
  rcases List.mem_append.mp h with h | h
  · rcases List.mem_append.mp h with h | h
    · obtain ⟨⟨label, value, predicate⟩, -, hp⟩ := List.mem_filterMap.mp h
      obtain ⟨c, -, rfl⟩ := Option.map_eq_some_iff.mp hp
      rfl
    · obtain ⟨c, -, rfl⟩ := List.mem_map.mp h
      rfl
  · obtain ⟨id, -, rfl⟩ := List.mem_map.mp h
    rfl

/-- Covering adds untyped atoms only. -/
theorem mem_of_mem_cover {central predicates : List Atom} {a : Atom}
    (h : a ∈ cover central predicates) : a ∈ central ∨ ∃ p ∈ predicates, a = .untyped p.var := by
  induction predicates generalizing central with
  | nil => exact .inl h
  | cons p predicates ih =>
    rw [cover] at h
    split at h
    · exact (ih h).imp_right fun ⟨p', hp', ha⟩ => ⟨p', .tail _ hp', ha⟩
    · rcases ih h with h | ⟨p', hp', ha⟩
      · rcases List.mem_append.mp h with h | h
        · exact .inl h
        · exact .inr ⟨p, .head _, List.mem_singleton.mp h⟩
      · exact .inr ⟨p', .tail _ hp', ha⟩

/-- Every query of a decomposed pattern has the form of such a query. -/
theorem decomposed_of_mem_queries {c : Conjunction} {d : DecomposedQuery}
    (h : (ofConjunction t c).Gives s d s') {q : AtomicQuery} (hq : q ∈ d.queries) :
    q.Decomposed t.graph := by
  unfold ofConjunction at h
  dsimp only at h
  split at h
  · obtain ⟨_, _, h, -⟩ := gives_bind.mp h
    exact absurd h not_gives_throw
  · obtain ⟨atoms, u, hatoms, h⟩ := gives_bind.mp h
    obtain ⟨queries, v, hqueries, h⟩ := gives_bind.mp h
    obtain ⟨rfl, -⟩ := gives_pure.mp h
    have hcover : ∀ a ∈ cover atoms.flatten (c.statements.flatMap predicates),
        a.CentralIn t.graph := by
      intro a ha
      rcases mem_of_mem_cover ha with ha | ⟨p, -, rfl⟩
      · obtain ⟨as, has, ha⟩ := List.mem_flatten.mp ha
        obtain ⟨st, -, u', v', hst⟩ := exists_of_gives_mapM hatoms has
        exact centralIn_of_gives_centralAtoms hst a ha
      · refine ⟨rfl, fun c' hc' => ?_⟩
        obtain rfl := Option.some.inj hc'
        exact rfl
    have hall := Fresh.always_mapM (q := AtomicQuery.Decomposed t.graph)
      (f := attach (c.statements.flatMap predicates)) fun a ha => Fresh.always_bind fun id =>
        Fresh.always_pure ⟨(hcover a ha).withQuery id, fun p hp => ?_⟩
    · have := hall u
      rw [gives_lift.mp hqueries] at this
      exact this q hq
    · obtain ⟨p', hp', rfl⟩ := List.mem_map.mp hp
      obtain ⟨st, -, hp'⟩ := List.mem_flatMap.mp (List.mem_of_mem_filter hp')
      rw [Atom.isPredicate_withQuery]
      exact isPredicate_of_mem_predicates hp'

end Decomposition

end GraphInference
