import GraphInference.Proofs.Graph.Elements

/-!
# The ledger of a graph

The list of concepts is a ledger: its entries are numbered in the order in which they were made, and the
letter before the number tells a schema concept, an instance vertex and an ownership edge apart. An
attribute type has one instance of a value, and an ownership is of the implicit relation type of its
attribute. An addition keeps all of this (`Ledger.step`), so every reachable graph has it.
-/

namespace GraphInference.Graph

/-- The letter that the identifier of a concept has. -/
def letter (g : Graph) (c : Concept) : Char :=
  if c.label.isSome then 'T' else if (g.edge? c.id).isSome then 'E' else 'V'

/-- The edge is of the implicit relation type of the attribute type whose attribute it ends at. -/
structure TypesEdge (g : Graph) (e : HasEdge) : Prop where
  relation : ∃ c ∈ g.concepts, c.id = e.id ∧ c.kind = .relation ∧
    ∃ t ∈ g.concepts, c.typeId = some t.id ∧ t.kind = .relationType ∧ t.label = some e.owned.ownership
  value : ∃ c ∈ g.concepts, c.id = e.value ∧ c.kind = .attr ∧
    ∃ t ∈ g.concepts, c.typeId = some t.id ∧ t.label = some e.owned

theorem TypesEdge.mono {g h : Graph} (hs : g.concepts ⊆ h.concepts) {e : HasEdge} (he : g.TypesEdge e) :
    h.TypesEdge e := by
  obtain ⟨⟨c, hc, hid, hk, t, ht, hct⟩, d, hd, hid', hk', t', ht', hdt⟩ := he
  exact ⟨⟨c, hs hc, hid, hk, t, hs ht, hct⟩, d, hs hd, hid', hk', t', hs ht', hdt⟩

structure Ledger (g : Graph) : Prop where
  length : g.concepts.length = g.lastId
  id : ∀ i c, g.concepts[i]? = some c → c.id = numbered (g.letter c) (i + 1)
  /-- An attribute type has one instance of a value. -/
  values : ∀ c ∈ g.concepts, ∀ d ∈ g.concepts, c.typeId = d.typeId → c.value.isSome →
    c.value = d.value → c = d
  typed : ∀ e ∈ g.edges, g.TypesEdge e

theorem ledger_empty : Ledger {} where
  length := rfl
  id _ _ h := by simp at h
  values := by simp
  typed := by simp

/-- The label found for a kind names a concept of the kind. -/
theorem WellFormed.exists_of_ofKind {g : Graph} (hg : g.WellFormed) {kind : Kind} {l : Label}
    {id : ConceptId} (h : g.ofKind kind l = .ok id) :
    ∃ c ∈ g.concepts, c.id = id ∧ c.kind = kind ∧ c.label = some l := by
  obtain ⟨c, hc, hk, rfl⟩ := ofKind_eq_ok h
  obtain ⟨d, hd, hc⟩ := Option.bind_eq_some_iff.mp hc
  obtain ⟨hmem, rfl⟩ := concept?_eq_some hc
  obtain ⟨c', hmem', hid, hlabel⟩ := labelled?_eq_some hd
  obtain rfl := hg.eq_of_id hmem' hmem hid
  exact ⟨c', hmem, rfl, hk, hlabel⟩

theorem exists_of_attributeLabel? {g : Graph} {id : ConceptId} {l : Label}
    (h : g.attributeLabel? id = some l) :
    ∃ c ∈ g.concepts, c.id = id ∧ c.kind = .attr ∧
      ∃ t ∈ g.concepts, c.typeId = some t.id ∧ t.label = some l := by
  obtain ⟨c, hc, hlabel⟩ := Option.bind_eq_some_iff.mp h
  obtain ⟨hmem, rfl⟩ := concept?_eq_some hc
  split at hlabel
  · next hk =>
    obtain ⟨type, htype, hbind⟩ := Option.bind_eq_some_iff.mp hlabel
    obtain ⟨t, ht, hl⟩ := Option.bind_eq_some_iff.mp hbind
    obtain ⟨htmem, rfl⟩ := concept?_eq_some ht
    exact ⟨c, hmem, rfl, hk, t, htmem, htype, hl⟩
  · cases hlabel

theorem attribute?_eq_none {g : Graph} {type : ConceptId} {value : Value}
    (h : g.attribute? type value = none) :
    ∀ c ∈ g.concepts, c.typeId = some type → c.value ≠ some value := by
  rw [attribute?, Option.map_eq_none_iff, List.find?_eq_none] at h
  exact fun c hc ht hv => h c hc (by simp [ht, hv])

/-- Edges of other identifiers do not matter for a look-up. -/
theorem edge?_of_append {g h : Graph} {edges : List HasEdge} (hedges : h.edges = g.edges ++ edges)
    {id : ConceptId} (hne : ∀ e ∈ edges, e.id ≠ id) : h.edge? id = g.edge? id := by
  have hnone : edges.find? (·.id = id) = none :=
    List.find?_eq_none.mpr fun e he => by simpa using hne e he
  rw [edge?, hedges, List.find?_append, hnone, Option.or_none, edge?]

theorem WellFormed.edge?_nextId {g : Graph} (hg : g.WellFormed) (a : Char) :
    g.edge? (g.nextId a) = none := by
  by_contra hne
  obtain ⟨e, he, hid⟩ := isSome_edge?_iff.mp (Option.isSome_iff_ne_none.mpr hne)
  exact hg.nextId_fresh a (hid ▸ (hg.edge e he).1.holds)

namespace Ledger

variable {g : Graph}

/-- A concept is entered with the letter of its sort, along with the edge that it is if it is one, and
with no value that its type has an instance of. -/
theorem addConcept (hg : g.WellFormed) (hl : g.Ledger) {h : Graph} {c : Concept} {a : Char}
    {edges : List HasEdge} (hid : c.id = g.nextId a) (hconcepts : h.concepts = g.concepts ++ [c])
    (hlast : h.lastId = g.lastId + 1) (hedges : h.edges = g.edges ++ edges)
    (hnew : ∀ e ∈ edges, e.id = c.id) (hletter : h.letter c = a)
    (hvalue : c.value.isSome → ∀ d ∈ g.concepts, d.typeId = c.typeId → d.value ≠ c.value)
    (htyped : ∀ e ∈ edges, h.TypesEdge e) : h.Ledger := by
  have hfresh {d : Concept} (hd : d ∈ g.concepts) : d.id ≠ c.id :=
    fun e => hg.nextId_fresh a ⟨d, hd, e.trans hid⟩
  have hsub : g.concepts ⊆ h.concepts := hconcepts ▸ List.subset_append_left _ _
  -- the letter of a concept that is there already does not depend on the new edges
  have hold {d : Concept} (hd : d ∈ g.concepts) : h.letter d = g.letter d := by
    have hedge : h.edge? d.id = g.edge? d.id :=
      edge?_of_append hedges fun e he => by simpa [hnew e he] using (hfresh hd).symm
    rw [letter, hedge, letter]
  constructor
  · rw [hconcepts, List.length_append, hl.length, hlast, List.length_singleton]
  · intro i d hd
    rw [hconcepts] at hd
    rcases Nat.lt_or_ge i g.concepts.length with hi | hi
    · rw [List.getElem?_append_left hi] at hd
      rw [hold (List.mem_of_getElem? hd)]
      exact hl.id i d hd
    · rw [List.getElem?_append_right hi, List.getElem?_singleton] at hd
      split at hd
      · next hi' =>
        obtain rfl := Option.some.inj hd
        obtain rfl : i = g.lastId := by rw [← hl.length]; omega
        rw [hletter, hid, nextId_eq]
      · cases hd
  · intro d hd d' hd' htype hsome hval
    rw [hconcepts, List.mem_append, List.mem_singleton] at hd hd'
    rcases hd with hd | rfl <;> rcases hd' with hd' | rfl
    · exact hl.values d hd d' hd' htype hsome hval
    · exact absurd hval (hvalue (hval ▸ hsome) d hd htype)
    · exact absurd hval.symm (hvalue hsome d' hd' htype.symm)
    · rfl
  · intro e he
    rw [hedges] at he
    rcases List.mem_append.mp he with he | he
    · exact (hl.typed e he).mono hsub
    · exact htyped e he

/-- An addition keeps a ledger. -/
theorem step (hg : g.WellFormed) (hl : g.Ledger) {h : Graph} (hgh : g.Step h) : h.Ledger := by
  have hthing {kind : Kind} {t : ConceptId} {value : Option Value} {h : Graph} (he : h.edges = g.edges) :
      h.letter ⟨g.nextId 'V', kind, none, some t, value⟩ = 'V' := by
    have hnone : h.edge? (g.nextId 'V') = none := by rw [edge?, he]; exact hg.edge?_nextId 'V'
    simp [letter, hnone]
  cases hgh with
  | schema hk hnew =>
    exact hl.addConcept hg rfl rfl rfl (List.append_nil _).symm (by simp) rfl (by simp) (by simp)
  | @parent _ _ a b =>
    have hs : g.concepts ⊆ { g with parents := g.parents.insert a b }.concepts := List.Subset.refl _
    exact ⟨hl.length, hl.id, hl.values, fun e he => (hl.typed e he).mono hs⟩
  | entity ht =>
    exact hl.addConcept hg rfl rfl rfl (List.append_nil _).symm (by simp) (hthing rfl) (by simp)
      (by simp)
  | relation ht =>
    exact hl.addConcept hg rfl rfl rfl (List.append_nil _).symm (by simp) (hthing rfl) (by simp)
      (by simp)
  | attr ht hnew =>
    exact hl.addConcept hg rfl rfl rfl (List.append_nil _).symm (by simp) (hthing rfl)
      (fun _ => attribute?_eq_none hnew) (by simp)
  | @has owner value t owned howner howned ht =>
    let e : HasEdge := ⟨g.nextId 'E', owned, owner, value⟩
    have hedge : ((g.edges ++ [e]).find? (·.id = g.nextId 'E')).isSome := by simp [e]
    refine hl.addConcept hg rfl rfl rfl (rfl : _ = g.edges ++ [e]) (by simp [e]) ?_ (by simp)
      fun d hd => ?_
    · simp only [letter, edge?]
      exact if_pos hedge
    · obtain rfl := List.mem_singleton.mp hd
      obtain ⟨t, htype, rfl, hkt, hlt⟩ := hg.exists_of_ofKind ht
      obtain ⟨v, hv, hid, hkv, a, ha, hva, hla⟩ := exists_of_attributeLabel? howned
      exact ⟨⟨_, List.mem_append_right _ (.head _), rfl, rfl, t, List.mem_append_left _ htype, rfl, hkt,
        hlt⟩, v, List.mem_append_left _ hv, hid, hkv, a, List.mem_append_left _ ha, hva, hla⟩

end Ledger

theorem Steps.ledger {g h : Graph} (hg : g.WellFormed) (hl : g.Ledger) (hgh : g.Steps h) : h.Ledger := by
  induction hgh with
  | refl => exact hl
  | tail hsteps hstep ih => exact ih.step (hg.steps hsteps) hstep

theorem Reachable.ledger {g : Graph} (hg : g.Reachable) : g.Ledger := by
  obtain ⟨ops, rfl⟩ := hg
  exact Steps.ledger wellFormed_empty ledger_empty (steps_foldl_perform ops {})

/-! ## Numbers -/

theorem letter_inj {a b : Char} {m n : Nat} (h : numbered a m = numbered b n) : a = b :=
  (List.cons.inj (String.ofList_inj.mp (congrArg ConceptId.text h))).1

namespace Ledger

variable {g : Graph} (hl : g.Ledger)

include hl

/-- The number of a concept is its place. -/
theorem eq_of_numbered {c : Concept} (hc : c ∈ g.concepts) {a : Char} {n : Nat}
    (h : c.id = numbered a n) : a = g.letter c ∧ 0 < n ∧ g.concepts[n - 1]? = some c := by
  obtain ⟨i, hi⟩ := List.getElem?_of_mem hc
  have heq := h.symm.trans (hl.id i c hi)
  obtain rfl := numbered_inj heq
  exact ⟨letter_inj heq, i.succ_pos, hi⟩

theorem exists_numbered {c : Concept} (hc : c ∈ g.concepts) :
    ∃ n, 0 < n ∧ n ≤ g.lastId ∧ c.id = numbered (g.letter c) n := by
  obtain ⟨i, hi⟩ := List.getElem?_of_mem hc
  obtain ⟨hlt, -⟩ := List.getElem?_eq_some_iff.mp hi
  exact ⟨i + 1, i.succ_pos, hl.length ▸ hlt, hl.id i c hi⟩

theorem existsUnique_number {n : Nat} (hpos : 0 < n) (hn : n ≤ g.lastId) :
    ∃! id, g.Holds id ∧ ∃ a, id = numbered a n := by
  have hlt : n - 1 < g.concepts.length := by
    rw [hl.length]
    omega
  have hi := List.getElem?_eq_getElem hlt
  have hid := hl.id _ _ hi
  rw [Nat.sub_add_cancel hpos] at hid
  refine ⟨_, ⟨⟨_, List.getElem_mem hlt, rfl⟩, _, hid⟩, ?_⟩
  rintro _ ⟨⟨c, hc, rfl⟩, a, ha⟩
  obtain ⟨-, -, hc'⟩ := hl.eq_of_numbered hc ha
  rw [Option.some.inj (hc'.symm.trans hi)]

theorem pairwise_concepts : g.concepts.Pairwise fun c d =>
    ∀ a b m n, c.id = numbered a m → d.id = numbered b n → m < n := by
  rw [List.pairwise_iff_getElem]
  intro i j hi hj hij a b m n hm hn
  have hm := numbered_inj (hm.symm.trans (hl.id i _ (List.getElem?_eq_getElem hi)))
  have hn := numbered_inj (hn.symm.trans (hl.id j _ (List.getElem?_eq_getElem hj)))
  omega

end Ledger

/-- The letter of an instance vertex is a `V`. -/
theorem WellFormed.letter_eq_V_iff {g : Graph} (hg : g.WellFormed) {c : Concept} (hc : c ∈ g.concepts) :
    g.letter c = 'V' ↔ c.kind.isThing = true ∧ g.edge? c.id = none := by
  unfold letter
  rcases hg.concept c hc with ⟨hlabel, hk, -⟩ | ⟨hlabel, hk, -⟩
  · simp [hlabel, hk]
  · cases hedge : g.edge? c.id <;> simp [hlabel, hk]

/-! ## What stays -/

variable {g h : Graph}

theorem Step.edge?_eq (hgh : g.Step h) {id : ConceptId} {e : HasEdge} (he : g.edge? id = some e) :
    h.edge? id = some e := by
  cases hgh with
  | has =>
    show (g.edges ++ [_]).find? (·.id = id) = some e
    rw [List.find?_append, show g.edges.find? (·.id = id) = some e from he]
    rfl
  | _ => exact he

/-- Castings come with their relation. -/
theorem Step.castingsOf_eq (hg : g.WellFormed) (hgh : g.Step h) {r : ConceptId} (hr : g.Holds r) :
    h.castingsOf r = g.castingsOf r := by
  cases hgh with
  | @relation _ _ players ht _ =>
    have hnone : (players.map fun p => (⟨g.nextId 'V', p.1, p.2⟩ : Casting)).filter (·.relation = r) = [] :=
      List.filter_eq_nil_iff.mpr fun k hk => by
        obtain ⟨p, -, rfl⟩ := List.mem_map.mp hk
        simpa using fun h : g.nextId 'V' = r => hg.nextId_fresh 'V' (h ▸ hr)
    rw [castingsOf, List.filter_append, hnone, List.append_nil, castingsOf]
  | _ => rfl

theorem Steps.edge?_eq (hgh : g.Steps h) {id : ConceptId} {e : HasEdge} (he : g.edge? id = some e) :
    h.edge? id = some e := by
  induction hgh with
  | refl => exact he
  | tail _ hstep ih => exact hstep.edge?_eq ih

theorem Steps.castingsOf_eq (hg : g.WellFormed) (hgh : g.Steps h) {r : ConceptId} (hr : g.Holds r) :
    h.castingsOf r = g.castingsOf r := by
  induction hgh with
  | refl => rfl
  | tail hsteps hstep ih =>
    rw [hstep.castingsOf_eq (hg.steps hsteps) (hr.mono (Steps.concepts_subset hsteps)), ih]

theorem Steps.concept?_eq (hg : g.WellFormed) (hgh : g.Steps h) {id : ConceptId} {c : Concept}
    (hc : g.concept? id = some c) : h.concept? id = some c := by
  obtain ⟨hmem, rfl⟩ := concept?_eq_some hc
  exact (hg.steps hgh).concept?_id (hgh.concepts_subset hmem)

end GraphInference.Graph
