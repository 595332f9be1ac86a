import GraphInference.Proofs.Graph.Reachable

/-!
# What stands in a graph

Three facts about a graph that do not mention how it is searched: which elements it has
(`HasElement`), of which types an instance is (`IsA`), and which players a relation has, as a vertex
with castings or as an ownership edge (`Plays`). In a well-formed graph a concept stands at one
element, and the scan visits every instance.
-/

namespace GraphInference.Graph

/-- A concept is of a type if it is a direct instance of a type below it. -/
def IsA (g : Graph) (thing type : ConceptId) : Prop :=
  ∃ c ∈ g.concepts, c.id = thing ∧ ∃ t, c.typeId = some t ∧ g.Below t type

/-- A casting of the relation that stands at an element. -/
inductive Plays (g : Graph) : Element → Casting → Prop where
  | stored {c : Casting} (h : c ∈ g.castings) : g.Plays (.vertex c.relation) c
  | owner {e : HasEdge} (h : e ∈ g.edges) :
    g.Plays (.edge e.id) ⟨e.id, e.owned.ownerRole, e.owner⟩
  | value {e : HasEdge} (h : e ∈ g.edges) :
    g.Plays (.edge e.id) ⟨e.id, e.owned.valueRole, e.value⟩

/-- The elements of a graph: an edge or else a vertex for each concept, and the castings. -/
def HasElement (g : Graph) : Element → Prop
  | .vertex id => g.Holds id ∧ g.edge? id = none
  | .edge id => (g.edge? id).isSome
  | .casting c => ∃ r, g.Plays r c

theorem element_of_edge? {g : Graph} {id : ConceptId} (h : (g.edge? id).isSome) :
    g.element id = .edge id :=
  if_pos h

theorem element_of_edge?_eq_none {g : Graph} {id : ConceptId} (h : g.edge? id = none) :
    g.element id = .vertex id := by
  rw [element, h]
  rfl

@[simp] theorem conceptId?_element (g : Graph) (id : ConceptId) :
    (g.element id).conceptId? = some id := by
  unfold element
  split <;> rfl

theorem element_inj {g : Graph} {a b : ConceptId} (h : g.element a = g.element b) : a = b := by
  have h := congrArg Element.conceptId? h
  simpa using h

/-- A concept stands at one element only. -/
theorem HasElement.eq_element {g : Graph} {e : Element} (he : g.HasElement e) {id : ConceptId}
    (h : e.conceptId? = some id) : e = g.element id := by
  cases e with
  | vertex i =>
    obtain rfl := Option.some.inj h
    exact (element_of_edge?_eq_none he.2).symm
  | edge i =>
    obtain rfl := Option.some.inj h
    exact (element_of_edge? he).symm
  | casting c => cases h

theorem hasElement_element {g : Graph} {id : ConceptId} (h : g.Holds id) :
    g.HasElement (g.element id) := by
  cases he : g.edge? id with
  | none => rw [element_of_edge?_eq_none he]; exact ⟨h, he⟩
  | some e =>
    have he : (g.edge? id).isSome := by rw [he]; rfl
    rw [element_of_edge? he]
    exact he

theorem Plays.relation_eq {g : Graph} {r : Element} {c : Casting} (h : g.Plays r c) :
    r.conceptId? = some c.relation := by
  cases h <;> rfl

/-- The instances found downwards from a type are those that are of it. -/
theorem isA_iff_instances {g : Graph} {i t : ConceptId} :
    g.IsA i t ↔ i ∈ (g.subtypes t).flatMap g.instances := by
  simp only [List.mem_flatMap, instances, List.mem_map, List.mem_filter, decide_eq_true_eq,
    mem_subtypes]
  exact ⟨fun ⟨c, hc, e, s, hs, hb⟩ => ⟨s, hb, c, ⟨hc, hs⟩, e⟩,
    fun ⟨s, hb, c, ⟨hc, hs⟩, e⟩ => ⟨c, hc, e, s, hs, hb⟩⟩

theorem mem_edgeIds {g : Graph} {id : ConceptId} : id ∈ g.edgeIds ↔ ∃ e ∈ g.edges, e.id = id := by
  rw [edgeIds, SortedMap.mem_keys_ofList]
  simp

theorem mem_things {g : Graph} {id : ConceptId} :
    id ∈ g.things ↔ g.HoldsThing id ∧ g.edge? id = none := by
  simp only [things, List.mem_map, List.mem_filter, Bool.and_eq_true, Option.isNone_iff_eq_none,
    HoldsThing]
  constructor
  · rintro ⟨c, ⟨hc, hk, he⟩, rfl⟩
    exact ⟨⟨c, hc, rfl, hk⟩, he⟩
  · rintro ⟨⟨c, hc, rfl, hk⟩, he⟩
    exact ⟨c, ⟨hc, hk, he⟩, rfl⟩

namespace WellFormed

variable {g : Graph} (hg : g.WellFormed)

include hg

/-! ## Types -/

theorem holdsSchema_of_below {a b : ConceptId} (ha : g.HoldsSchema a) (h : g.Below a b) :
    g.HoldsSchema b := by
  induction h with
  | refl => exact ha
  | tail _ hbc _ => exact (hg.parent _ _ hbc).2

theorem holdsSchema_of_typeId {c : Concept} (hc : c ∈ g.concepts) {t : ConceptId}
    (ht : c.typeId = some t) : g.HoldsSchema t ∧ c.kind.isThing := by
  rcases hg.concept c hc with ⟨-, -, hn, -⟩ | ⟨-, hk, t', ht', hs⟩
  · rw [hn] at ht
    cases ht
  · obtain rfl := Option.some.inj (ht'.symm.trans ht)
    exact ⟨hs, hk⟩

theorem isA_holds {i t : ConceptId} (h : g.IsA i t) : g.HoldsThing i ∧ g.HoldsSchema t := by
  obtain ⟨c, hc, rfl, t', ht', hb⟩ := h
  obtain ⟨hs, hk⟩ := hg.holdsSchema_of_typeId hc ht'
  exact ⟨⟨c, hc, rfl, hk⟩, hg.holdsSchema_of_below hs hb⟩

theorem element_of_holdsSchema {t : ConceptId} (h : g.HoldsSchema t) : g.element t = .vertex t :=
  element_of_edge?_eq_none (hg.edge?_of_holdsSchema h)

/-- The types found upwards from an instance are its types. -/
theorem isA_iff_supertypes {i t : ConceptId} :
    g.IsA i t ↔ ∃ s, (g.concept? i).bind (·.typeId) = some s ∧ t ∈ g.supertypes s := by
  constructor
  · rintro ⟨c, hc, rfl, s, hs, hb⟩
    exact ⟨s, by rw [hg.concept?_id hc]; exact hs, mem_supertypes.mpr hb⟩
  · rintro ⟨s, hs, ht⟩
    obtain ⟨c, hc, hcs⟩ := Option.bind_eq_some_iff.mp hs
    obtain ⟨hmem, rfl⟩ := concept?_eq_some hc
    exact ⟨c, hmem, rfl, s, hcs, mem_supertypes.mp ht⟩

/-! ## Relations -/

theorem plays_holds {r : Element} {c : Casting} (h : g.Plays r c) :
    g.HoldsThing c.relation ∧ r = g.element c.relation ∧ g.Holds c.player := by
  cases h with
  | stored hc =>
    obtain ⟨hr, he, hp⟩ := hg.casting c hc
    exact ⟨hr, (element_of_edge?_eq_none he).symm, hp⟩
  | owner he =>
    obtain ⟨hi, ho, -⟩ := hg.edge _ he
    exact ⟨hi, (element_of_edge? (hg.edge?_id he ▸ rfl)).symm, ho⟩
  | value he =>
    obtain ⟨hi, -, hv⟩ := hg.edge _ he
    exact ⟨hi, (element_of_edge? (hg.edge?_id he ▸ rfl)).symm, hv⟩

/-! ## Elements -/

/-- A scan visits every instance. -/
theorem mem_elements {e : Element} : e ∈ g.elements ↔ ∃ id, g.HoldsThing id ∧ e = g.element id := by
  simp only [elements, List.mem_append, List.mem_map, mem_things, mem_edgeIds]
  constructor
  · rintro (⟨id, ⟨hid, he⟩, rfl⟩ | ⟨_, ⟨d, hd, rfl⟩, rfl⟩)
    · exact ⟨id, hid, (element_of_edge?_eq_none he).symm⟩
    · exact ⟨d.id, (hg.edge d hd).1, (element_of_edge? (hg.edge?_id hd ▸ rfl)).symm⟩
  · rintro ⟨id, hid, rfl⟩
    cases he : g.edge? id with
    | none => exact .inl ⟨id, ⟨hid, he⟩, (element_of_edge?_eq_none he).symm⟩
    | some d =>
      exact .inr ⟨id, ⟨d, edge?_eq_some he⟩, (element_of_edge? (he ▸ rfl)).symm⟩

theorem hasElement_of_mem_elements {e : Element} (h : e ∈ g.elements) : g.HasElement e := by
  obtain ⟨id, hid, rfl⟩ := hg.mem_elements.mp h
  exact hasElement_element hid.holds

end WellFormed

end GraphInference.Graph
