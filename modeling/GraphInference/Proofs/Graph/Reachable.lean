import GraphInference.Graph.Define
import GraphInference.Proofs.Graph.Hierarchy
import GraphInference.Proofs.Outcome

/-!
# Reachable graphs

A graph is reachable if a sequence of operations makes it from the empty graph; an operation that
fails changes nothing. `WellFormed` is what every reachable graph keeps: identifiers are numbered and
never given out twice, schema concepts have labels and instances have types, and castings, edges and
parents refer to concepts of the graph.
-/

namespace GraphInference.Graph

/-! ## Operations -/

/-- What can be done to a graph. -/
inductive Operation where
  | entityType (label : Label)
  | role (label : Label)
  | relationType (label : Label) (roles : List Label)
  | attributeType (label : Label)
  | supertype (sub sup : Label)
  | entity (type : Label)
  | relation (type : Label) (players : List (Label × ConceptId))
  | attr (type : Label) (value : Value)
  | has (owner value : ConceptId)

/-- The graph that an addition gives; the old one if it failed. -/
def added (g : Graph) : Except InferenceError (ConceptId × Graph) → Graph
  | .ok r => r.2
  | .error _ => g

/-- The graph after an operation. -/
def perform (g : Graph) : Operation → Graph
  | .entityType l => (g.defineEntityType l).2
  | .role l => (g.defineRole l).2
  | .relationType l roles => (g.defineRelationType l roles).2
  | .attributeType l => (g.defineAttributeType l).2
  | .supertype sub sup =>
    match g.setSupertype sub sup with
    | .ok h => h
    | .error _ => g
  | .entity type => g.added (g.addEntity type)
  | .relation type players => g.added (g.addRelation type players)
  | .attr type value => g.added (g.addAttribute type value)
  | .has owner value => g.added (g.addHas owner value)

/-- Some sequence of operations makes the graph. -/
def Reachable (g : Graph) : Prop :=
  ∃ ops : List Operation, g = ops.foldl perform {}

/-! ## Well-formed graphs -/

/-- The graph holds a concept under an identifier. -/
def Holds (g : Graph) (id : ConceptId) : Prop :=
  ∃ c ∈ g.concepts, c.id = id

/-- The graph holds a schema concept, one with a label, under an identifier. -/
def HoldsSchema (g : Graph) (id : ConceptId) : Prop :=
  ∃ c ∈ g.concepts, c.id = id ∧ c.label.isSome

/-- The graph holds an instance under an identifier. -/
def HoldsThing (g : Graph) (id : ConceptId) : Prop :=
  ∃ c ∈ g.concepts, c.id = id ∧ c.kind.isThing

/-- A concept is a labelled one without type and value, or an instance of a schema concept. -/
def Admits (g : Graph) (c : Concept) : Prop :=
  (c.label.isSome ∧ c.kind.isThing = false ∧ c.typeId = none ∧ c.value = none) ∨
    (c.label = none ∧ c.kind.isThing = true ∧ ∃ t, c.typeId = some t ∧ g.HoldsSchema t)

/-- The identifier of a number. -/
def numbered (letter : Char) (n : Nat) : ConceptId :=
  ⟨String.ofList (letter :: Nat.toDigits 10 n)⟩

structure WellFormed (g : Graph) : Prop where
  numbers : ∀ c ∈ g.concepts, ∃ letter n, n ≤ g.lastId ∧ c.id = numbered letter n
  nodup : (g.concepts.map Concept.id).Nodup
  labels : ∀ c ∈ g.concepts, ∀ d ∈ g.concepts, c.label.isSome → c.label = d.label → c = d
  concept : ∀ c ∈ g.concepts, g.Admits c
  casting : ∀ k ∈ g.castings, g.HoldsThing k.relation ∧ g.edge? k.relation = none ∧ g.Holds k.player
  edge : ∀ e ∈ g.edges, g.HoldsThing e.id ∧ g.Holds e.owner ∧ g.Holds e.value
  nodup_edges : (g.edges.map HasEdge.id).Nodup
  parent : ∀ a b, g.HasParent a b → g.HoldsSchema a ∧ g.HoldsSchema b

theorem numbered_inj {a b : Char} {m n : Nat} (h : numbered a m = numbered b n) : m = n := by
  have h : a :: Nat.toDigits 10 m = b :: Nat.toDigits 10 n :=
    String.ofList_inj.mp (congrArg ConceptId.text h)
  have h := congrArg (Nat.ofDigitChars 10 · 0) (List.cons.inj h).2
  simpa using h

theorem nextId_eq (g : Graph) (letter : Char) : g.nextId letter = numbered letter (g.lastId + 1) :=
  rfl

/-! ## Look-ups in a well-formed graph -/

theorem concept?_eq_some {g : Graph} {id : ConceptId} {c : Concept} (h : g.concept? id = some c) :
    c ∈ g.concepts ∧ c.id = id :=
  ⟨List.mem_of_find?_eq_some h, by simpa using List.find?_some h⟩

theorem isSome_concept?_iff {g : Graph} {id : ConceptId} : (g.concept? id).isSome ↔ g.Holds id := by
  simp [concept?, Holds]

theorem isSome_edge?_iff {g : Graph} {id : ConceptId} :
    (g.edge? id).isSome ↔ ∃ e ∈ g.edges, e.id = id := by
  simp [edge?]

theorem edge?_eq_some {g : Graph} {id : ConceptId} {e : HasEdge} (h : g.edge? id = some e) :
    e ∈ g.edges ∧ e.id = id :=
  ⟨List.mem_of_find?_eq_some h, by simpa using List.find?_some h⟩

theorem labelled?_eq_some {g : Graph} {l : Label} {id : ConceptId} (h : g.labelled? l = some id) :
    ∃ c ∈ g.concepts, c.id = id ∧ c.label = some l := by
  obtain ⟨c, hc, rfl⟩ := Option.map_eq_some_iff.mp h
  exact ⟨c, List.mem_of_find?_eq_some hc, rfl, by simpa using List.find?_some hc⟩

theorem labelled?_eq_none {g : Graph} {l : Label} (h : g.labelled? l = none) :
    ∀ c ∈ g.concepts, c.label ≠ some l := by
  rw [labelled?, Option.map_eq_none_iff, List.find?_eq_none] at h
  exact fun c hc e => h c hc (by simpa using e)

theorem holdsSchema_of_labelled? {g : Graph} {l : Label} {id : ConceptId}
    (h : g.labelled? l = some id) : g.HoldsSchema id := by
  obtain ⟨c, hc, he, hl⟩ := labelled?_eq_some h
  exact ⟨c, hc, he, by rw [hl]; rfl⟩

theorem HoldsSchema.holds {g : Graph} {id : ConceptId} (h : g.HoldsSchema id) : g.Holds id :=
  let ⟨c, hc, e, _⟩ := h
  ⟨c, hc, e⟩

theorem HoldsThing.holds {g : Graph} {id : ConceptId} (h : g.HoldsThing id) : g.Holds id :=
  let ⟨c, hc, e, _⟩ := h
  ⟨c, hc, e⟩

/-- The label, if it is of the kind asked for, is that of the concept found. -/
theorem ofKind_eq_ok {g : Graph} {kind : Kind} {l : Label} {id : ConceptId}
    (h : g.ofKind kind l = .ok id) :
    ∃ c, (g.labelled? l).bind g.concept? = some c ∧ c.kind = kind ∧ c.id = id := by
  unfold ofKind at h
  split at h
  · next c hc =>
    split at h
    · next hk => exact ⟨c, hc, hk, Except.ok.inj h⟩
    · cases h
  · cases h

theorem holdsSchema_of_ofKind {g : Graph} {kind : Kind} {l : Label} {id : ConceptId}
    (h : g.ofKind kind l = .ok id) : g.HoldsSchema id := by
  obtain ⟨c, hc, -, rfl⟩ := ofKind_eq_ok h
  obtain ⟨d, hd, hc⟩ := Option.bind_eq_some_iff.mp hc
  obtain ⟨-, rfl⟩ := concept?_eq_some hc
  exact holdsSchema_of_labelled? hd

namespace WellFormed

variable {g : Graph} (hg : g.WellFormed)

include hg

theorem eq_of_id {c d : Concept} (hc : c ∈ g.concepts) (hd : d ∈ g.concepts) (h : c.id = d.id) :
    c = d :=
  List.inj_on_of_nodup_map hg.nodup hc hd h

theorem concept?_id {c : Concept} (hc : c ∈ g.concepts) : g.concept? c.id = some c := by
  obtain ⟨d, hd⟩ := Option.isSome_iff_exists.mp (isSome_concept?_iff.mpr ⟨c, hc, rfl⟩)
  obtain ⟨hmem, he⟩ := concept?_eq_some hd
  rw [hd, hg.eq_of_id hmem hc he]

theorem labelled?_label {c : Concept} (hc : c ∈ g.concepts) {l : Label} (hl : c.label = some l) :
    g.labelled? l = some c.id := by
  cases h : g.labelled? l with
  | none => exact absurd hl (labelled?_eq_none h c hc)
  | some id =>
    obtain ⟨d, hd, rfl, hdl⟩ := labelled?_eq_some h
    rw [hg.labels c hc d hd (by rw [hl]; rfl) (hl.trans hdl.symm)]

theorem edge?_id {e : HasEdge} (he : e ∈ g.edges) : g.edge? e.id = some e := by
  obtain ⟨d, hd⟩ := Option.isSome_iff_exists.mp (isSome_edge?_iff.mpr ⟨e, he, rfl⟩)
  obtain ⟨hmem, heq⟩ := edge?_eq_some hd
  rw [hd, List.inj_on_of_nodup_map hg.nodup_edges hmem he heq]

/-- No schema concept is an instance. -/
theorem not_holdsThing_of_holdsSchema {id : ConceptId} (h : g.HoldsSchema id) :
    ¬ g.HoldsThing id := by
  rintro ⟨d, hd, hde, ht⟩
  obtain ⟨c, hc, hce, hl⟩ := h
  obtain rfl := hg.eq_of_id hc hd (hce.trans hde.symm)
  rcases hg.concept c hc with ⟨-, hk, -⟩ | ⟨hn, -⟩
  · rw [hk] at ht
    cases ht
  · rw [hn] at hl
    cases hl

theorem edge?_of_holdsSchema {id : ConceptId} (h : g.HoldsSchema id) : g.edge? id = none := by
  by_contra hne
  obtain ⟨e, he, rfl⟩ := isSome_edge?_iff.mp (Option.isSome_iff_ne_none.mpr hne)
  exact hg.not_holdsThing_of_holdsSchema h (hg.edge e he).1

theorem nextId_fresh (letter : Char) : ¬ g.Holds (g.nextId letter) := by
  rintro ⟨c, hc, he⟩
  obtain ⟨a, n, hn, hid⟩ := hg.numbers c hc
  have := numbered_inj (hid.symm.trans he)
  omega

end WellFormed

/-! ## Single additions -/

theorem setSupertype_eq_ok {g h : Graph} {sub sup : Label} (hh : g.setSupertype sub sup = .ok h) :
    ∃ a b, g.labelled? sub = some a ∧ g.labelled? sup = some b ∧
      h = { g with parents := g.parents.insert a b } := by
  dsimp only [Graph.setSupertype] at hh
  cases hsub : g.labelled? sub with
  | none => rw [hsub] at hh; cases hh
  | some a =>
    cases hsup : g.labelled? sup with
    | none => rw [hsub, hsup] at hh; cases hh
    | some b =>
      rw [hsub, hsup] at hh
      exact ⟨a, b, rfl, rfl, (Except.ok.inj hh).symm⟩

theorem holds_of_require {g : Graph} {id : ConceptId} {u : Unit} (h : g.require id = .ok u) :
    g.Holds id := by
  unfold require at h
  split at h
  · next hc => exact isSome_concept?_iff.mp hc
  · cases h

theorem holds_of_attributeLabel? {g : Graph} {id : ConceptId} {l : Label}
    (h : g.attributeLabel? id = some l) : g.Holds id := by
  obtain ⟨c, hc, -⟩ := Option.bind_eq_some_iff.mp h
  exact isSome_concept?_iff.mp (hc ▸ rfl)

/-- A single addition to a graph, with all that is checked before it. -/
inductive Step (g : Graph) : Graph → Prop
  | schema {kind : Kind} {l : Label} (hk : kind.isThing = false) (hl : g.labelled? l = none) :
    g.Step (g.addConcept 'T' kind (some l) none none).2
  | parent {sub sup : Label} {a b : ConceptId} (ha : g.labelled? sub = some a)
    (hb : g.labelled? sup = some b) : g.Step { g with parents := g.parents.insert a b }
  | entity {l : Label} {t : ConceptId} (ht : g.ofKind .entityType l = .ok t) :
    g.Step (g.addConcept 'V' .entity none (some t) none).2
  | relation {l : Label} {t : ConceptId} {players : List (Label × ConceptId)}
    (ht : g.ofKind .relationType l = .ok t) (hplayers : ∀ p ∈ players, g.Holds p.2) :
    g.Step { (g.addConcept 'V' .relation none (some t) none).2 with
      castings := g.castings ++ players.map fun p => ⟨g.nextId 'V', p.1, p.2⟩ }
  | attr {l : Label} {t : ConceptId} {value : Value} (ht : g.ofKind .attributeType l = .ok t)
    (hnew : g.attribute? t value = none) :
    g.Step (g.addConcept 'V' .attr none (some t) (some value)).2
  | has {owner value t : ConceptId} {owned : Label} (howner : g.Holds owner)
    (howned : g.attributeLabel? value = some owned)
    (ht : g.ofKind .relationType owned.ownership = .ok t) :
    g.Step { (g.addConcept 'E' .relation none (some t) none).2 with
      edges := g.edges ++ [⟨g.nextId 'E', owned, owner, value⟩] }

/-- Some sequence of additions to the first graph makes the second. -/
abbrev Steps : Graph → Graph → Prop :=
  Relation.ReflTransGen Step

theorem steps_define (g : Graph) {kind : Kind} (hk : kind.isThing = false) (l : Label) :
    g.Steps (g.define kind l).2 := by
  unfold define
  split
  · exact .refl
  · next hl => exact .single (.schema hk hl)

theorem steps_defineRoles (roles : List Label) (g : Graph) :
    g.Steps (roles.foldl (fun g role => (g.defineRole role).2) g) := by
  induction roles generalizing g with
  | nil => exact .refl
  | cons role roles ih => exact (g.steps_define rfl role).trans (ih _)

theorem steps_added {g : Graph} {r : Except InferenceError (ConceptId × Graph)}
    (hr : ∀ x, r = .ok x → g.Steps x.2) : g.Steps (g.added r) := by
  cases r with
  | error e => exact .refl
  | ok x => exact hr x rfl

/-- An operation is a sequence of additions. -/
theorem steps_perform (g : Graph) (op : Operation) : g.Steps (g.perform op) := by
  cases op with
  | entityType l | role l => exact g.steps_define rfl l
  | relationType l roles => exact (steps_defineRoles roles g).trans (steps_define _ rfl l)
  | attributeType l =>
    exact (((g.steps_define rfl _).trans (steps_define _ rfl _)).trans (steps_define _ rfl _)).trans
      (steps_define _ rfl l)
  | supertype sub sup =>
    rw [perform]
    split
    · next h hh =>
      obtain ⟨a, b, ha, hb, rfl⟩ := setSupertype_eq_ok hh
      exact .single (.parent ha hb)
    · exact .refl
  | entity type =>
    refine steps_added fun x hx => ?_
    obtain ⟨t, ht, hx⟩ := Except.bind_eq_ok.mp hx
    obtain rfl := Except.ok.inj hx
    exact .single (.entity ht)
  | relation type players =>
    refine steps_added fun x hx => ?_
    obtain ⟨t, ht, hx⟩ := Except.bind_eq_ok.mp hx
    obtain ⟨_, hplayers, hx⟩ := Except.bind_eq_ok.mp hx
    obtain rfl := Except.ok.inj hx
    refine .single (.relation ht fun p hp => ?_)
    obtain ⟨_, -, hplayer⟩ := Except.bind_eq_ok.mp (Except.forM_eq_ok hplayers p hp)
    exact holds_of_require hplayer
  | attr type value =>
    refine steps_added fun x hx => ?_
    obtain ⟨t, ht, hx⟩ := Except.bind_eq_ok.mp hx
    split at hx
    · obtain rfl := Except.ok.inj hx
      exact .refl
    · next hnew =>
      obtain rfl := Except.ok.inj hx
      exact .single (.attr ht hnew)
  | has owner value =>
    refine steps_added fun x hx => ?_
    obtain ⟨_, howner, hx⟩ := Except.bind_eq_ok.mp hx
    split at hx
    · cases hx
    · next owned howned =>
      obtain ⟨t, ht, hx⟩ := Except.bind_eq_ok.mp hx
      obtain rfl := Except.ok.inj hx
      exact .single (.has (holds_of_require howner) howned ht)

/-- A graph grows by additions only. -/
theorem steps_foldl_perform (ops : List Operation) (g : Graph) : g.Steps (ops.foldl perform g) := by
  induction ops generalizing g with
  | nil => exact .refl
  | cons op ops ih => exact (g.steps_perform op).trans (ih _)

/-! ## Growth -/

theorem concepts_subset_addConcept (g : Graph) (letter : Char) (kind : Kind) (label : Option Label)
    (typeId : Option ConceptId) (value : Option Value) :
    g.concepts ⊆ (g.addConcept letter kind label typeId value).2.concepts :=
  List.subset_append_left _ _

/-- No addition removes a concept. -/
theorem Step.concepts_subset {g h : Graph} (hgh : g.Step h) : g.concepts ⊆ h.concepts := by
  cases hgh with
  | parent => exact List.Subset.refl _
  | _ => exact g.concepts_subset_addConcept _ _ _ _ _

theorem Steps.concepts_subset {g h : Graph} (hgh : g.Steps h) : g.concepts ⊆ h.concepts := by
  induction hgh with
  | refl => exact List.Subset.refl _
  | tail _ hstep ih => exact List.Subset.trans ih hstep.concepts_subset

theorem HoldsSchema.mono {g h : Graph} (hs : g.concepts ⊆ h.concepts) {id : ConceptId} :
    g.HoldsSchema id → h.HoldsSchema id :=
  fun ⟨c, hc, hid⟩ => ⟨c, hs hc, hid⟩

theorem HoldsThing.mono {g h : Graph} (hs : g.concepts ⊆ h.concepts) {id : ConceptId} :
    g.HoldsThing id → h.HoldsThing id :=
  fun ⟨c, hc, hid⟩ => ⟨c, hs hc, hid⟩

theorem Holds.mono {g h : Graph} (hs : g.concepts ⊆ h.concepts) {id : ConceptId} :
    g.Holds id → h.Holds id :=
  fun ⟨c, hc, hid⟩ => ⟨c, hs hc, hid⟩

theorem Admits.mono {g h : Graph} (hs : g.concepts ⊆ h.concepts) {c : Concept} :
    g.Admits c → h.Admits c :=
  Or.imp_right fun ⟨hl, hk, t, ht, hst⟩ => ⟨hl, hk, t, ht, hst.mono hs⟩

/-- Some sequence of operations on the first graph makes the second. -/
def Precedes (g h : Graph) : Prop :=
  ∃ ops : List Operation, h = ops.foldl perform g

theorem Precedes.concepts_subset {g h : Graph} (hgh : g.Precedes h) : g.concepts ⊆ h.concepts := by
  obtain ⟨ops, rfl⟩ := hgh
  exact (steps_foldl_perform ops g).concepts_subset

/-! ## Additions keep graphs well formed -/

theorem wellFormed_empty : WellFormed {} where
  numbers := by simp
  nodup := .nil
  labels := by simp
  concept := by simp
  casting := by simp
  edge := by simp
  nodup_edges := .nil
  parent a b h := by cases h

namespace WellFormed

variable {g : Graph}

theorem addConcept (hg : g.WellFormed) {letter : Char} {kind : Kind} {label : Option Label}
    {typeId : Option ConceptId} {value : Option Value}
    (hc : g.Admits ⟨g.nextId letter, kind, label, typeId, value⟩)
    (hl : ∀ l, label = some l → g.labelled? l = none) :
    (g.addConcept letter kind label typeId value).2.WellFormed := by
  have hs := g.concepts_subset_addConcept letter kind label typeId value
  have hnew : ∀ c ∈ g.concepts, c.label.isSome → c.label ≠ label := fun c hmem hsome e => by
    obtain ⟨l, hcl⟩ := Option.isSome_iff_exists.mp hsome
    exact labelled?_eq_none (hl l (e ▸ hcl)) c hmem hcl
  refine ⟨fun c hmem => ?_, ?_, fun c hcm d hdm hsome e => ?_, fun c hmem => ?_, fun k hk => ?_,
    fun e he => ?_, hg.nodup_edges, fun a b hp => ?_⟩
  · rcases List.mem_append.mp hmem with hmem | hmem
    · obtain ⟨a, n, hn, hid⟩ := hg.numbers c hmem
      exact ⟨a, n, Nat.le_succ_of_le hn, hid⟩
    · obtain rfl := List.mem_singleton.mp hmem
      exact ⟨letter, _, Nat.le_refl _, g.nextId_eq letter⟩
  · show ((g.concepts ++ [_]).map Concept.id).Nodup
    rw [List.map_append, List.nodup_append]
    refine ⟨hg.nodup, List.nodup_singleton _, fun a ha b hb e => ?_⟩
    obtain ⟨c, hc, rfl⟩ := List.mem_map.mp ha
    obtain rfl := List.mem_singleton.mp hb
    exact hg.nextId_fresh letter ⟨c, hc, e⟩
  · rcases List.mem_append.mp hcm with hcm | hcm <;> rcases List.mem_append.mp hdm with hdm | hdm
    · exact hg.labels c hcm d hdm hsome e
    · obtain rfl := List.mem_singleton.mp hdm
      exact absurd e (hnew c hcm hsome)
    · obtain rfl := List.mem_singleton.mp hcm
      exact absurd e.symm (hnew d hdm (e ▸ hsome))
    · exact (List.mem_singleton.mp hcm).trans (List.mem_singleton.mp hdm).symm
  · rcases List.mem_append.mp hmem with hmem | hmem
    · exact (hg.concept c hmem).mono hs
    · obtain rfl := List.mem_singleton.mp hmem
      exact hc.mono hs
  · obtain ⟨hr, he, hp⟩ := hg.casting k hk
    exact ⟨hr.mono hs, he, hp.mono hs⟩
  · obtain ⟨hi, ho, hv⟩ := hg.edge e he
    exact ⟨hi.mono hs, ho.mono hs, hv.mono hs⟩
  · exact (hg.parent a b hp).imp (.mono hs) (.mono hs)

theorem addThing (hg : g.WellFormed) {letter : Char} {kind k : Kind} {l : Label} {t : ConceptId}
    {value : Option Value} (hk : kind.isThing = true) (ht : g.ofKind k l = .ok t) :
    (g.addConcept letter kind none (some t) value).2.WellFormed :=
  hg.addConcept (.inr ⟨rfl, hk, t, rfl, holdsSchema_of_ofKind ht⟩) fun _ e => nomatch e

theorem addCastings (hg : g.WellFormed) {castings : List Casting}
    (h : ∀ k ∈ castings, g.HoldsThing k.relation ∧ g.edge? k.relation = none ∧ g.Holds k.player) :
    { g with castings := g.castings ++ castings }.WellFormed :=
  ⟨hg.numbers, hg.nodup, hg.labels, hg.concept, fun k hk => (List.mem_append.mp hk).elim (hg.casting k) (h k),
    hg.edge, hg.nodup_edges, hg.parent⟩

theorem addEdge (hg : g.WellFormed) {e : HasEdge} (hthing : g.HoldsThing e.id)
    (howner : g.Holds e.owner) (hvalue : g.Holds e.value) (hnew : ∀ d ∈ g.edges, d.id ≠ e.id)
    (hcasting : ∀ k ∈ g.castings, k.relation ≠ e.id) :
    { g with edges := g.edges ++ [e] }.WellFormed := by
  refine ⟨hg.numbers, hg.nodup, hg.labels, hg.concept, fun k hk => ?_, fun d hd => ?_, ?_, hg.parent⟩
  · obtain ⟨hr, he, hp⟩ := hg.casting k hk
    refine ⟨hr, ?_, hp⟩
    have hne : ¬ e.id = k.relation := fun h => hcasting k hk h.symm
    show (g.edges ++ [e]).find? (·.id = k.relation) = none
    rw [List.find?_append, show g.edges.find? (·.id = k.relation) = none from he]
    simp [hne]
  · rcases List.mem_append.mp hd with hd | hd
    · exact hg.edge d hd
    · obtain rfl := List.mem_singleton.mp hd
      exact ⟨hthing, howner, hvalue⟩
  · show ((g.edges ++ [e]).map HasEdge.id).Nodup
    rw [List.map_append, List.nodup_append]
    refine ⟨hg.nodup_edges, List.nodup_singleton _, fun a ha b hb e => ?_⟩
    obtain ⟨d, hd, rfl⟩ := List.mem_map.mp ha
    obtain rfl := List.mem_singleton.mp hb
    exact hnew d hd e

/-- An addition keeps a graph well formed. -/
theorem step (hg : g.WellFormed) {h : Graph} (hgh : g.Step h) : h.WellFormed := by
  cases hgh with
  | @schema _ l hk hl =>
    exact hg.addConcept (.inl ⟨rfl, hk, rfl, rfl⟩) fun m e => Option.some.inj e ▸ hl
  | @parent _ _ a b ha hb =>
    refine ⟨hg.numbers, hg.nodup, hg.labels, hg.concept, hg.casting, hg.edge, hg.nodup_edges,
      fun c d hp => ?_⟩
    have hp : (g.parents.insert a b).find? c = some d := hp
    by_cases hca : c = a
    · subst hca
      rw [SortedMap.find?_insert_self] at hp
      obtain rfl := Option.some.inj hp
      exact ⟨holdsSchema_of_labelled? ha, holdsSchema_of_labelled? hb⟩
    · rw [SortedMap.find?_insert_of_ne _ _ hca] at hp
      exact hg.parent c d hp
  | entity ht | attr ht _ => exact hg.addThing rfl ht
  | @relation _ t players ht hplayers =>
    have hs := g.concepts_subset_addConcept 'V' .relation none (some t) none
    have hthing : (g.addConcept 'V' .relation none (some t) none).2.WellFormed := hg.addThing rfl ht
    refine hthing.addCastings fun k hk => ?_
    obtain ⟨p, hp, rfl⟩ := List.mem_map.mp hk
    refine ⟨⟨_, List.mem_append_right _ (.head _), rfl, rfl⟩, ?_, (hplayers p hp).mono hs⟩
    by_contra hne
    obtain ⟨e, he, hid⟩ := isSome_edge?_iff.mp (Option.isSome_iff_ne_none.mpr hne)
    have hid : e.id = g.nextId 'V' := hid
    exact hg.nextId_fresh 'V' (hid ▸ (hg.edge e he).1.holds)
  | @has owner value t owned howner howned ht =>
    have hs := g.concepts_subset_addConcept 'E' .relation none (some t) none
    have hthing : (g.addConcept 'E' .relation none (some t) none).2.WellFormed := hg.addThing rfl ht
    refine hthing.addEdge ⟨_, List.mem_append_right _ (.head _), rfl, rfl⟩ (howner.mono hs)
      ((holds_of_attributeLabel? howned).mono hs) (fun d hd e => ?_) (fun k hk e => ?_)
    · have e : d.id = g.nextId 'E' := e
      exact hg.nextId_fresh 'E' (e ▸ (hg.edge d hd).1.holds)
    · have e : k.relation = g.nextId 'E' := e
      exact hg.nextId_fresh 'E' (e ▸ (hg.casting k hk).1.holds)

theorem steps (hg : g.WellFormed) {h : Graph} (hgh : g.Steps h) : h.WellFormed := by
  induction hgh with
  | refl => exact hg
  | tail _ hstep ih => exact ih.step hstep

end WellFormed

theorem wellFormed_of_foldl_perform {g : Graph} (hg : g.WellFormed) (ops : List Operation) :
    (ops.foldl perform g).WellFormed :=
  hg.steps (steps_foldl_perform ops g)

/-- Every reachable graph is well formed. -/
theorem Reachable.wellFormed {g : Graph} (hg : g.Reachable) : g.WellFormed := by
  obtain ⟨ops, rfl⟩ := hg
  exact wellFormed_of_foldl_perform wellFormed_empty ops

/-- An identifier has one label, in whichever states of a graph it is looked up. -/
theorem WellFormed.label_eq {g₁ g₂ h : Graph} (hh : h.WellFormed) (h₁ : g₁.Precedes h)
    (h₂ : g₂.Precedes h) {l₁ l₂ : Label} {id : ConceptId} (hl₁ : g₁.labelled? l₁ = some id)
    (hl₂ : g₂.labelled? l₂ = some id) : l₁ = l₂ := by
  obtain ⟨c₁, hc₁, hid₁, hlabel₁⟩ := labelled?_eq_some hl₁
  obtain ⟨c₂, hc₂, hid₂, hlabel₂⟩ := labelled?_eq_some hl₂
  obtain rfl := hh.eq_of_id (h₁.concepts_subset hc₁) (h₂.concepts_subset hc₂)
    (hid₁.trans hid₂.symm)
  exact Option.some.inj (hlabel₁.symm.trans hlabel₂)

end GraphInference.Graph
