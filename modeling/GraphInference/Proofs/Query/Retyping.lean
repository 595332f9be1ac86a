import GraphInference.Proofs.Query.Twins
import GraphInference.Proofs.Unification.Alike

/-!
# Types exchanged for supertypes

A query can be asked of another type (`AtomicQuery.retype`), which changes none of its variables. What
matches a query of a type matches it of every type above: `AtomicQuery.IsMatch.of_retype`.
-/

namespace GraphInference

/-! ## Queries of another type -/

/-- The anchor with another type in place of the one that is given by a label, if there is one. -/
def Anchor.retype (id : ConceptId) (l : Label) (c : Anchor) : Anchor :=
  { c with typePredicate := c.typePredicate.map fun p => { p with id }, label := c.label.map fun _ => l }

/-- The atom with another type. -/
def Atom.retype (id : ConceptId) (l : Label) : Atom → Atom
  | .isa c => .isa (c.retype id l)
  | .relation r => .relation { r with anchor := r.anchor.retype id l }
  | a => a

/-- The query with another type. -/
def AtomicQuery.retype (id : ConceptId) (l : Label) (q : AtomicQuery) : AtomicQuery :=
  { q with central := q.central.retype id l }

namespace Atom

variable (id : ConceptId) (l : Label) (a : Atom)

@[simp] theorem family_retype : (a.retype id l).family = a.family := by
  cases a <;> rfl

@[simp] theorem isPredicate_retype : (a.retype id l).isPredicate = a.isPredicate := by
  cases a <;> rfl

@[simp] theorem var_retype : (a.retype id l).var = a.var := by
  cases a <;> rfl

@[simp] theorem vars_retype : (a.retype id l).vars = a.vars := by
  cases a <;> rfl

@[simp] theorem players_retype : (a.retype id l).players = a.players := by
  cases a <;> rfl

@[simp] theorem anchor?_retype : (a.retype id l).anchor? = a.anchor?.map (Anchor.retype id l) := by
  cases a <;> rfl

@[simp] theorem typeVar_retype : (a.retype id l).typeVar = a.typeVar := by
  cases a <;> rfl

@[simp] theorem unifier_retype (h : Atom) : (a.retype id l).unifier h = a.unifier h := by
  cases a <;> cases h <;> rfl

theorem typeId?_retype : (a.retype id l).typeId? = a.typeId?.map fun _ => id := by
  have hanchor (c : Anchor) : (c.retype id l).typeId? = c.typeId?.map fun _ => id := by
    rw [Anchor.typeId?, Anchor.typeId?, Anchor.retype, Option.map_map, Option.map_map]
    rfl
  cases a with
  | isa c => exact hanchor c
  | relation r => exact hanchor r.anchor
  | _ => rfl

theorem label?_retype : (a.retype id l).label? = a.label?.map fun _ => l := by
  cases a <;> rfl

end Atom

namespace AtomicQuery

/-- The variable of the type stands at no other place. -/
def TypeApart (q : AtomicQuery) : Prop :=
  q.central.TypeApart ∧ ∀ e ∈ q.demands, e.2 ≠ q.central.typeVar

instance (q : AtomicQuery) : Decidable q.TypeApart :=
  inferInstanceAs (Decidable (_ ∧ _))

variable {q q' : AtomicQuery} {g : Graph} {id id' : ConceptId} {l l' : Label} {m : Binding} {v : Var}

@[simp] theorem demands_retype : (q.retype id l).demands = q.demands := rfl

@[simp] theorem predicates_retype : (q.retype id l).predicates = q.predicates := rfl

@[simp] theorem vars_retype : (q.retype id l).vars = q.vars := by
  simp [vars, atoms, retype]

@[simp] theorem userVars_retype : (q.retype id l).userVars = q.userVars := by
  simp [userVars]

theorem Decomposed.retype (hq : q.Decomposed g) (hl : g.labelled? l = some id) :
    (q.retype id l).Decomposed g := by
  refine ⟨⟨(Atom.isPredicate_retype id l _).trans hq.central.1, fun c' hc' => ?_⟩, hq.predicates⟩
  obtain ⟨c, hc, rfl⟩ := Option.map_eq_some_iff.mp ((Atom.anchor?_retype id l _).symm.trans hc')
  have hresolved := hq.central.2 c hc
  unfold Anchor.ResolvedIn at hresolved ⊢
  cases hlabel : c.label with
  | none =>
    simp only [hlabel] at hresolved
    simp [Anchor.retype, hlabel, hresolved]
  | some k =>
    simp only [hlabel] at hresolved
    obtain ⟨huser, hempty, p, hp, hvar, -⟩ := hresolved
    simp [Anchor.retype, hlabel, huser, hempty, hp, hvar, hl]

/-- A typed query has the label of its type. -/
theorem Decomposed.exists_label (hq : q.Decomposed g) (hid : q.typeId? = some id) :
    ∃ l, q.central.label? = some l ∧ q.central.type? = some (.label l) ∧ g.labelled? l = some id := by
  obtain ⟨c, hc, hresolved⟩ := hq.exists_anchor
  have hid : c.typeId? = some id := by
    have h := hid
    rw [typeId?, Atom.typeId?, hc] at h
    exact h
  rcases hresolved.type_cases with ⟨-, hnone⟩ | ⟨l, id', hl, hid', hfound⟩
  · rw [hnone] at hid
    cases hid
  · obtain rfl := Option.some.inj (hid'.symm.trans hid)
    refine ⟨l, ?_, ?_, hfound⟩
    · rw [Atom.label?, hc, Option.bind_some, hl]
    · rw [Atom.type?, hc, Option.bind_some, Anchor.type?, hl]

theorem Decomposed.typeId?_eq (hq : q.Decomposed g) (hl : q.central.label? = some l)
    (hid : g.labelled? l = some id) : q.typeId? = some id := by
  obtain ⟨c, hc, hresolved⟩ := hq.exists_anchor
  have hl : c.label = some l := by
    rw [← hl, Atom.label?, hc, Option.bind_some]
  rcases hresolved.type_cases with ⟨hnone, -⟩ | ⟨l', id', hl', hid', hfound⟩
  · rw [hnone] at hl
    cases hl
  · obtain rfl := Option.some.inj (hl'.symm.trans hl)
    obtain rfl := Option.some.inj (hfound.symm.trans hid)
    rw [typeId?, Atom.typeId?, hc]
    exact hid'

theorem Decomposed.userDefined_typeVar (hq : q.Decomposed g) (hid : q.typeId? = some id) :
    q.central.typeVar.userDefined = false := by
  obtain ⟨l, hl, -⟩ := hq.exists_label hid
  obtain ⟨c, hc, hresolved⟩ := hq.exists_anchor
  rw [Atom.label?, hc, Option.bind_some] at hl
  unfold Anchor.ResolvedIn at hresolved
  rw [hl] at hresolved
  rw [Atom.typeVar, hc]
  exact hresolved.1

/-- A binding that matches a query of a type matches it of every type above. -/
theorem IsMatch.of_retype (hg : g.WellFormed) (hq : q.Decomposed g) (hl : g.labelled? l = some id)
    (hid : q.typeId? = some id') (hbelow : g.Below id id') (h : (q.retype id l).IsMatch g m) :
    q.IsMatch g m := by
  obtain ⟨k, -, htype, hk⟩ := hq.exists_label hid
  have hq₀ := hq.retype hl
  have hid₀ : (q.retype id l).typeId? = some id := by
    rw [typeId?, retype, Atom.typeId?_retype, ← typeId?, hid, Option.map_some]
  obtain ⟨k₀, -, htype₀, hk₀⟩ := hq₀.exists_label hid₀
  have hvar : (q.retype id l).central.var = q.central.var := Atom.var_retype id l q.central
  have hplayers : (q.retype id l).central.players = q.central.players := Atom.players_retype id l q.central
  refine ⟨fun v => (h.domain v).trans ?_, (forall_matches_iff hq).mpr ?_⟩
  · rw [names_iff hq, names_iff hq₀, hvar, hplayers, htype, htype₀]
    simp [TypeRef.Names]
  · obtain ⟨hreads, hstands, hdemands⟩ := (forall_matches_iff hq₀).mp h.reads
    rw [htype₀, hvar] at hreads
    rw [hvar, hplayers] at hstands
    refine ⟨fun t ht => ?_, hstands, hdemands⟩
    obtain rfl := Option.some.inj (htype.symm.trans ht)
    obtain ⟨i, c, hc, hlabel, hisA, hi⟩ := hreads _ rfl
    obtain ⟨c', hc', hid', hlabel'⟩ := Graph.labelled?_eq_some hk
    have hcid : c.id = id := Option.some.inj ((hg.labelled?_label hc hlabel).symm.trans hk₀)
    obtain ⟨thing, hthing, hthingId, type, htypeId, htypeBelow⟩ := hisA
    refine ⟨i, c', hc', hlabel', ⟨thing, hthing, hthingId, type, htypeId, ?_⟩, hi⟩
    rw [hid']
    exact (hcid ▸ htypeBelow).trans hbelow

end AtomicQuery

/-! ## Twins -/

section Twins

variable {S : List RolePlayer → List RolePlayer → Prop} {T T' : Label → Label → Prop} {n m : Nat}
  {id : ConceptId} {l l' : Label}

/-- A twin of another type is one of the same type, with its type exchanged. -/
theorem Atom.Twin.retype {a a' : Atom} (h : a.Twin S T n m a') (ha : a.isPredicate = false)
    (hl : a.label? = some l) (hl' : a'.label? = some l') : a.Twin S T' n m (a'.retype id l) := by
  obtain ⟨c, c', hc, hc', hcc', -⟩ := h.exists_anchors ha
  refine ⟨(family_retype id l a').trans h.family, ?_, ?_⟩
  · rw [anchor?_retype, hc, hc']
    refine .some ⟨hcc'.var, hcc'.typeVar, .inl ?_, hcc'.var_apart, hcc'.typeVar_apart⟩
    have hlabel : c.label = some l := by simpa [label?, hc] using hl
    have hlabel' : c'.label = some l' := by simpa [label?, hc'] using hl'
    rw [Anchor.retype, hlabel, hlabel']
    rfl
  · rw [players_retype]
    exact h.players

theorem AtomicQuery.Twin.retype {q q' : AtomicQuery} (h : q.Twin S T n m q') (hq : q.central.isPredicate = false)
    (hl : q.central.label? = some l) (hl' : q'.central.label? = some l') :
    q.Twin S T' n m (q'.retype id l) :=
  ⟨h.central.retype hq hl hl', h.demands, h.old⟩

end Twins

end GraphInference
