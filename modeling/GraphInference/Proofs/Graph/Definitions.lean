import GraphInference.Proofs.Graph.Indexed

/-!
# What definitions promise

A label has one concept, whatever it stands for: users' labels and the implicit ones of ownerships share a
table, and defining a label that has a concept gives that concept as it is. So a definition takes effect
exactly if no concept of another kind has the label when the definition comes to it (`Fits`), and this
decides for good which additions under the label succeed, whatever is done to the graph in between
(`definition_serves_iff`). Making an owner of an attribute needs the implicit relation type, too.
-/

namespace GraphInference

/-! ## Implicit labels and kinds of types -/

namespace Label

theorem length_lt_ownership (l : Label) : l.text.length < l.ownership.text.length := by
  show _ < ("@has-" ++ l.text).length
  rw [String.length_append]
  exact Nat.lt_add_of_pos_left (by decide)

/-- The labels of the roles are longer than that of the relation type. -/
theorem length_ownership_lt {l m : Label} (hm : m ∈ [l.ownerRole, l.valueRole]) :
    l.ownership.text.length < m.text.length := by
  have happend (s : String) (hs : 0 < s.length) : l.ownership.text.length < (l.ownership.text ++ s).length := by
    rw [String.length_append]
    exact Nat.lt_add_of_pos_right hs
  rcases List.mem_pair.mp hm with rfl | rfl <;> exact happend _ (by decide)

theorem ownership_ne (l : Label) : l.ownership ≠ l :=
  fun h => l.length_lt_ownership.ne (congrArg (fun m : Label => m.text.length) h.symm)

theorem not_mem_roles (l : Label) : l ∉ [l.ownerRole, l.valueRole] :=
  fun h => (l.length_lt_ownership.trans (length_ownership_lt h)).ne rfl

theorem ownership_not_mem_roles (l : Label) : l.ownership ∉ [l.ownerRole, l.valueRole] :=
  fun h => (length_ownership_lt h).ne rfl

end Label

/-- The kind that the types of instances of a kind have. -/
def Kind.ofTypes : Kind → Kind
  | .entity => .entityType
  | .relation => .relationType
  | .attr => .attributeType
  | k => k

theorem Kind.ofTypes_eq_attributeType_iff {k : Kind} (hk : k.isThing = true) :
    k.ofTypes = .attributeType ↔ k = .attr := by
  cases k <;> simp_all [Kind.ofTypes, Kind.isThing]

namespace Graph

variable {g h : Graph} {kind k : Kind} {l m : Label}

/-! ## What a label stands for -/

/-- Some concept has the label. -/
def Labelled (g : Graph) (l : Label) : Prop :=
  ∃ c ∈ g.concepts, c.label = some l

/-- A concept of the kind has the label. -/
def Defined (g : Graph) (kind : Kind) (l : Label) : Prop :=
  ∃ c ∈ g.concepts, c.kind = kind ∧ c.label = some l

/-- No concept of another kind has the label. -/
def Free (g : Graph) (kind : Kind) (l : Label) : Prop :=
  ∀ c ∈ g.concepts, c.label = some l → c.kind = kind

theorem Defined.labelled : g.Defined kind l → g.Labelled l :=
  fun ⟨c, hc, _, hl⟩ => ⟨c, hc, hl⟩

theorem Labelled.mono (hs : g.concepts ⊆ h.concepts) : g.Labelled l → h.Labelled l :=
  fun ⟨c, hc, hl⟩ => ⟨c, hs hc, hl⟩

theorem labelled?_eq_none_iff : g.labelled? l = none ↔ ¬ g.Labelled l := by
  simp [labelled?, Labelled]

namespace WellFormed

variable (hg : g.WellFormed)

include hg

/-- The concept of a label tells the kind of all that have it. -/
theorem free_iff {c : Concept} (hc : c ∈ g.concepts) (hl : c.label = some l) :
    g.Free kind l ↔ c.kind = kind := by
  refine ⟨fun hfree => hfree c hc hl, fun hkind d hd hdl => ?_⟩
  rw [← hg.labels c hc d hd (hl ▸ rfl) (hl.trans hdl.symm), hkind]

theorem defined_iff : g.Defined kind l ↔ g.Labelled l ∧ g.Free kind l := by
  constructor
  · rintro ⟨c, hc, hkind, hl⟩
    exact ⟨⟨c, hc, hl⟩, (hg.free_iff hc hl).mpr hkind⟩
  · rintro ⟨⟨c, hc, hl⟩, hfree⟩
    exact ⟨c, hc, hfree c hc hl, hl⟩

/-- What a label stands for never changes. -/
theorem free_iff_of_subset (hs : h.concepts ⊆ g.concepts) (hl : h.Labelled l) :
    g.Free kind l ↔ h.Free kind l := by
  refine ⟨fun hfree c hc => hfree c (hs hc), fun hfree => ?_⟩
  obtain ⟨c, hc, hcl⟩ := hl
  exact (hg.free_iff (hs hc) hcl).mpr (hfree c hc hcl)

theorem exists_ofKind_iff : (∃ t, g.ofKind kind l = .ok t) ↔ g.Defined kind l := by
  constructor
  · rintro ⟨t, ht⟩
    obtain ⟨c, hc, -, hkind, hl⟩ := hg.exists_of_ofKind ht
    exact ⟨c, hc, hkind, hl⟩
  · rintro ⟨c, hc, hkind, hl⟩
    refine ⟨c.id, ?_⟩
    rw [ofKind, hg.labelled?_label hc hl, Option.bind_some, hg.concept?_id hc]
    exact if_pos hkind

end WellFormed

/-! ## Definitions -/

theorem mem_define {c : Concept} : c ∈ (g.define kind l).2.concepts ↔
    c ∈ g.concepts ∨ ¬ g.Labelled l ∧ c = ⟨g.nextId 'T', kind, some l, none, none⟩ := by
  rw [← labelled?_eq_none_iff, define]
  cases hl : g.labelled? l with
  | some id => simp
  | none => simp [addConcept]

theorem labelled_define (g : Graph) (kind : Kind) (l : Label) : (g.define kind l).2.Labelled l := by
  by_cases hl : g.Labelled l
  · exact hl.mono fun c hc => mem_define.mpr (.inl hc)
  · exact ⟨_, mem_define.mpr (.inr ⟨hl, rfl⟩), rfl⟩

theorem free_define_iff :
    (g.define k m).2.Free kind l ↔ g.Free kind l ∧ (m = l → k = kind ∨ g.Labelled l) := by
  constructor
  · refine fun hfree => ⟨fun c hc => hfree c (mem_define.mpr (.inl hc)), ?_⟩
    rintro rfl
    by_cases hm : g.Labelled m
    · exact .inr hm
    · exact .inl (hfree _ (mem_define.mpr (.inr ⟨hm, rfl⟩)) rfl)
  · rintro ⟨hfree, hkind⟩ c hc hl
    rcases mem_define.mp hc with hc | ⟨hm, rfl⟩
    · exact hfree c hc hl
    · obtain rfl : m = l := Option.some.inj hl
      exact (hkind rfl).resolve_right hm

theorem free_define_of_ne (hne : m ≠ l) : (g.define k m).2.Free kind l ↔ g.Free kind l :=
  free_define_iff.trans (and_iff_left fun h => absurd h hne)

theorem defined_define_of_ne (hne : k ≠ kind) : (g.define k m).2.Defined kind l ↔ g.Defined kind l := by
  constructor
  · rintro ⟨c, hc, hkind, hl⟩
    rcases mem_define.mp hc with hc | ⟨-, rfl⟩
    · exact ⟨c, hc, hkind, hl⟩
    · exact absurd hkind hne
  · rintro ⟨c, hc, hkind, hl⟩
    exact ⟨c, mem_define.mpr (.inl hc), hkind, hl⟩

/-- The roles take the label if they have it and it is new. -/
theorem free_defineRoles_iff (hkind : Kind.role ≠ kind) (roles : List Label) (g : Graph) :
    (roles.foldl (fun g role => (g.defineRole role).2) g).Free kind l ↔
      g.Free kind l ∧ (l ∈ roles → g.Defined kind l) := by
  induction roles generalizing g with
  | nil => simp
  | cons role roles ih =>
    rw [List.foldl_cons, ih, defineRole, free_define_iff, defined_define_of_ne hkind, or_iff_right hkind,
      List.mem_cons, or_imp, and_assoc, eq_comm]
    refine and_congr_right fun hfree => and_congr_left fun _ => imp_congr_right fun _ => ?_
    exact ⟨fun ⟨c, hc, hl⟩ => ⟨c, hc, hfree c hc hl, hl⟩, Defined.labelled⟩

/-- What is returned has the label, and it has the kind if no other concept took the label before. -/
theorem WellFormed.define_spec (hg : g.WellFormed) (kind : Kind) (l : Label) :
    ∃ c ∈ (g.define kind l).2.concepts, c.id = (g.define kind l).1 ∧ c.label = some l ∧
      (c.kind = kind ↔ g.Free kind l) := by
  cases hl : g.labelled? l with
  | some id =>
    obtain ⟨c, hc, hid, hcl⟩ := labelled?_eq_some hl
    exact ⟨c, mem_define.mpr (.inl hc), by rw [define, hl, hid], hcl, (hg.free_iff hc hcl).symm⟩
  | none =>
    have hl' := labelled?_eq_none_iff.mp hl
    refine ⟨_, mem_define.mpr (.inr ⟨hl', rfl⟩), ?_, rfl, iff_of_true rfl fun c hc hcl => ?_⟩
    · rw [define, hl]
      rfl
    · exact absurd ⟨c, hc, hcl⟩ hl'

/-- The operation defines the label as one of the kind. -/
inductive Operation.Defines : Operation → Kind → Label → Prop
  | entityType {l : Label} : Defines (.entityType l) .entityType l
  | role {l : Label} : Defines (.role l) .role l
  | relationType {l : Label} {roles : List Label} : Defines (.relationType l roles) .relationType l
  | attributeType {l : Label} : Defines (.attributeType l) .attributeType l

/-- When the operation comes to the label, no concept of another kind has it. A relation type comes after
its roles. -/
def Fits (g : Graph) (kind : Kind) (l : Label) : Operation → Prop
  | .relationType _ roles => g.Free kind l ∧ (l ∈ roles → g.Defined kind l)
  | _ => g.Free kind l

/-- A definition always gives the concept that has the label then. -/
theorem WellFormed.attempt_defines (hg : g.WellFormed) {op : Operation} (hop : op.Defines kind l) :
    ∃ t ∈ (g.perform op).concepts, g.attempt op = .ok (some t.id, g.perform op) ∧ t.label = some l ∧
      (t.kind = kind ↔ g.Fits kind l op) := by
  cases hop with
  | entityType | role =>
    obtain ⟨t, ht, hid, hl, hkind⟩ := hg.define_spec _ l
    exact ⟨t, ht, hid ▸ rfl, hl, hkind⟩
  | @relationType _ roles =>
    have hroles := hg.steps (steps_defineRoles roles g)
    obtain ⟨t, ht, hid, hl, hkind⟩ := hroles.define_spec .relationType l
    exact ⟨t, ht, hid ▸ rfl, hl, hkind.trans (free_defineRoles_iff (by decide) roles g)⟩
  | attributeType =>
    have himplicit := (hg.steps (steps_defineRoles [l.ownerRole, l.valueRole] g)).steps
      (steps_define _ (rfl : Kind.relationType.isThing = false) l.ownership)
    obtain ⟨t, ht, hid, hl, hkind⟩ := himplicit.define_spec .attributeType l
    refine ⟨t, ht, hid ▸ rfl, hl, hkind.trans ((free_define_of_ne l.ownership_ne).trans ?_)⟩
    exact (free_defineRoles_iff (by decide) _ g).trans (and_iff_left fun h => absurd h l.not_mem_roles)

/-- The type of an ownership comes between roles and an attribute type of other labels. -/
theorem ownership_defineAttributeType (g : Graph) (l : Label) :
    (g.perform (.attributeType l)).Labelled l.ownership ∧
      ((g.perform (.attributeType l)).Free .relationType l.ownership ↔ g.Free .relationType l.ownership) := by
  constructor
  · exact (labelled_define _ .relationType l.ownership).mono fun c hc => mem_define.mpr (.inl hc)
  · refine (free_define_of_ne l.ownership_ne.symm).trans (free_define_iff.trans ?_)
    rw [and_iff_left fun _ => .inl rfl]
    exact (free_defineRoles_iff (by decide) [l.ownerRole, l.valueRole] g).trans
      (and_iff_left fun h => absurd h l.ownership_not_mem_roles)

/-! ## Kinds of instances -/

/-- Instances are of types of their kind. -/
def Typed (g : Graph) : Prop :=
  ∀ c ∈ g.concepts, ∀ t ∈ g.concepts, c.typeId = some t.id → t.kind = c.kind.ofTypes

theorem WellFormed.typed_addConcept (hg : g.WellFormed) (hty : g.Typed) {letter : Char} {label : Option Label}
    {typeId : Option ConceptId} {value : Option Value}
    (hnew : ∀ id, typeId = some id → ∃ t ∈ g.concepts, t.id = id ∧ t.kind = kind.ofTypes) :
    (g.addConcept letter kind label typeId value).2.Typed := by
  have hfresh {t : Concept} (ht : t ∈ g.concepts) : t.id ≠ g.nextId letter :=
    fun hid => hg.nextId_fresh letter ⟨t, ht, hid⟩
  intro c hc t ht htype
  rcases List.mem_append.mp hc with hc | hc <;> rcases List.mem_append.mp ht with ht | ht
  · exact hty c hc t ht htype
  · obtain rfl := List.mem_singleton.mp ht
    obtain ⟨⟨d, hd, hid, -⟩, -⟩ := hg.holdsSchema_of_typeId hc htype
    exact absurd hid (hfresh hd)
  · obtain rfl := List.mem_singleton.mp hc
    obtain ⟨d, hd, hid, hkind⟩ := hnew _ htype
    rw [← hg.eq_of_id hd ht hid, hkind]
  · obtain rfl := List.mem_singleton.mp hc
    obtain rfl := List.mem_singleton.mp ht
    obtain ⟨d, hd, hid, -⟩ := hnew _ htype
    exact absurd hid (hfresh hd)

theorem Typed.step (hg : g.WellFormed) (hty : g.Typed) (hgh : g.Step h) : h.Typed := by
  have hof {k : Kind} {l : Label} {t : ConceptId} (ht : g.ofKind k l = .ok t) :
      ∀ id, some t = some id → ∃ t ∈ g.concepts, t.id = id ∧ t.kind = k := by
    obtain ⟨c, hc, hid, hkind, -⟩ := hg.exists_of_ofKind ht
    exact fun _ heq => ⟨c, hc, hid.trans (Option.some.inj heq), hkind⟩
  cases hgh with
  | schema => exact hg.typed_addConcept hty fun _ h => nomatch h
  | parent => exact hty
  | entity ht | relation ht | attr ht | has _ _ ht => exact hg.typed_addConcept hty (hof ht)

theorem Steps.typed (hg : g.WellFormed) (hty : g.Typed) (hgh : g.Steps h) : h.Typed := by
  induction hgh with
  | refl => exact hty
  | tail hsteps hstep ih => exact ih.step (hg.steps hsteps) hstep

theorem Reachable.typed (hg : g.Reachable) : g.Typed := by
  obtain ⟨ops, rfl⟩ := hg
  exact Steps.typed wellFormed_empty (fun c hc => nomatch hc) (steps_foldl_perform ops {})

/-- The instances of an attribute type, and no others, are attributes of its label. -/
theorem WellFormed.attributeLabel?_eq (hg : g.WellFormed) (hty : g.Typed) {c t : Concept} (hc : c ∈ g.concepts)
    (ht : t ∈ g.concepts) (htype : c.typeId = some t.id) (hl : t.label = some l) :
    g.attributeLabel? c.id = if t.kind = .attributeType then some l else none := by
  have hthing := (hg.holdsSchema_of_typeId hc htype).2
  rw [attributeLabel?, hg.concept?_id hc, hty c hc t ht htype]
  simp only [Kind.ofTypes_eq_attributeType_iff hthing]
  show (if c.kind = .attr then _ else _) = _
  split
  · show (c.typeId >>= fun id => g.concept? id >>= Concept.label) = _
    rw [htype]
    show (g.concept? t.id >>= Concept.label) = _
    rw [hg.concept?_id ht]
    exact hl
  · rfl

/-! ## Additions -/

theorem require_eq_ok_iff {id : ConceptId} {u : Unit} : g.require id = .ok u ↔ g.Holds id := by
  rw [← isSome_concept?_iff, require]
  split
  · next hsome => exact iff_of_true rfl hsome
  · next hnone =>
    refine iff_of_false ?_ hnone
    rintro ⟨⟩

namespace WellFormed

variable (hg : g.WellFormed)

include hg

theorem attempt_entity_iff : (∃ r, g.attempt (.entity l) = .ok r) ↔ g.Defined .entityType l := by
  rw [attempt, Except.exists_map_ok, ← hg.exists_ofKind_iff, addEntity, Except.exists_bind_ok]
  exact exists_congr fun t => and_iff_left ⟨_, rfl⟩

theorem attempt_relation_iff {players : List (Label × ConceptId)} :
    (∃ r, g.attempt (.relation l players) = .ok r) ↔
      g.Defined .relationType l ∧ ∀ p ∈ players, g.Defined .role p.1 ∧ g.Holds p.2 := by
  have hplayer (p : Label × ConceptId) : (do let _ ← g.ofKind .role p.1; g.require p.2) = .ok () ↔
      g.Defined .role p.1 ∧ g.Holds p.2 := by
    simp only [Except.bind_eq_ok, require_eq_ok_iff, ← hg.exists_ofKind_iff, exists_and_right]
  rw [attempt, Except.exists_map_ok, ← hg.exists_ofKind_iff, addRelation, Except.exists_bind_ok, ← exists_and_right]
  refine exists_congr fun t => and_congr_right fun _ => Except.exists_bind_ok.trans ?_
  constructor
  · rintro ⟨_, hplayers, -⟩ p hp
    exact (hplayer p).mp (Except.forM_eq_ok hplayers p hp)
  · exact fun hplayers => ⟨(), Except.forM_ok fun p hp => (hplayer p).mpr (hplayers p hp), _, rfl⟩

theorem attempt_attr_iff {value : Value} :
    (∃ r, g.attempt (.attr l value) = .ok r) ↔ g.Defined .attributeType l := by
  rw [attempt, Except.exists_map_ok, ← hg.exists_ofKind_iff, addAttribute, Except.exists_bind_ok]
  refine exists_congr fun t => and_iff_left ?_
  cases g.attribute? t value <;> exact ⟨_, rfl⟩

theorem attempt_has_iff {owner value : ConceptId} : (∃ r, g.attempt (.has owner value) = .ok r) ↔
    g.Holds owner ∧ ∃ owned, g.attributeLabel? value = some owned ∧ g.Defined .relationType owned.ownership := by
  rw [attempt, Except.exists_map_ok, addHas, Except.exists_bind_ok]
  simp only [require_eq_ok_iff, exists_const]
  refine and_congr_right fun _ => ?_
  cases g.attributeLabel? value with
  | none =>
    refine iff_of_false ?_ ?_
    · rintro ⟨_, ⟨⟩⟩
    · rintro ⟨_, ⟨⟩, -⟩
  | some owned =>
    simp only [Option.some.injEq, exists_eq_left', ← hg.exists_ofKind_iff]
    exact Except.exists_bind_ok.trans (exists_congr fun t => and_iff_left ⟨_, rfl⟩)

end WellFormed

/-! ## What a definition serves -/

/-- Additions to a graph that use a definition. Whatever else they need is there: the players, the other
roles, the type of a relation with the role, the attribute of the type and its owner. -/
inductive Uses (g : Graph) (id : ConceptId) : Kind → Label → Operation → Prop
  | entity {l : Label} : g.Uses id .entityType l (.entity l)
  | relation {l : Label} {players : List (Label × ConceptId)}
    (hplayers : ∀ p ∈ players, g.Defined .role p.1 ∧ g.Holds p.2) :
    g.Uses id .relationType l (.relation l players)
  | player {l type : Label} {players : List (Label × ConceptId)} (htype : g.Defined .relationType type)
    (hl : ∃ p ∈ players, p.1 = l)
    (hplayers : ∀ p ∈ players, (p.1 = l ∨ g.Defined .role p.1) ∧ g.Holds p.2) :
    g.Uses id .role l (.relation type players)
  | attr {l : Label} {value : Value} : g.Uses id .attributeType l (.attr l value)
  | has {l : Label} {c : Concept} {owner : ConceptId} (hc : c ∈ g.concepts) (htype : c.typeId = some id)
    (howner : g.Holds owner) : g.Uses id .attributeType l (.has owner c.id)

/-- The operation makes something an owner. -/
def Operation.IsHas : Operation → Prop
  | .has _ _ => True
  | _ => False

/-- The identifier is that of a concept of the kind with the label, and all that uses it succeeds. -/
structure Serves (g : Graph) (id : ConceptId) (kind : Kind) (l : Label) : Prop where
  concept : ∃ c ∈ g.concepts, c.id = id ∧ c.kind = kind ∧ c.label = some l
  uses : ∀ use, g.Uses id kind l use → ∃ r, g.attempt use = .ok r

theorem Uses.eq_attributeType {id : ConceptId} {use : Operation} (huse : g.Uses id kind l use)
    (hhas : use.IsHas) : kind = .attributeType := by
  cases huse with
  | has => rfl
  | _ => cases hhas

/-- An addition succeeds if the concept of the label is of the kind it needs. -/
theorem WellFormed.attempt_use_iff (hg : g.WellFormed) (hty : g.Typed) {t : Concept} (ht : t ∈ g.concepts)
    (hl : t.label = some l) {use : Operation} (huse : g.Uses t.id kind l use) :
    (∃ r, g.attempt use = .ok r) ↔ t.kind = kind ∧ (use.IsHas → g.Defined .relationType l.ownership) := by
  have hdefined (k : Kind) : g.Defined k l ↔ t.kind = k :=
    hg.defined_iff.trans ((and_iff_right ⟨t, ht, hl⟩).trans (hg.free_iff ht hl))
  cases huse with
  | entity => exact hg.attempt_entity_iff.trans ((hdefined _).trans (and_iff_left fun h => nomatch h).symm)
  | relation hplayers =>
    rw [hg.attempt_relation_iff, and_iff_left hplayers, hdefined]
    exact (and_iff_left fun h => nomatch h).symm
  | player htype hrole hplayers =>
    rw [hg.attempt_relation_iff, and_iff_right htype, and_iff_left (fun h => nomatch h), ← hdefined]
    constructor
    · obtain ⟨p, hp, rfl⟩ := hrole
      exact fun h => (h p hp).1
    · intro h p hp
      obtain ⟨hpl, hplayer⟩ := hplayers p hp
      exact ⟨hpl.elim (fun heq => heq ▸ h) id, hplayer⟩
  | attr => exact hg.attempt_attr_iff.trans ((hdefined _).trans (and_iff_left fun h => nomatch h).symm)
  | has hc htype howner =>
    rw [hg.attempt_has_iff, and_iff_right howner, hg.attributeLabel?_eq hty hc ht htype hl]
    by_cases hkind : t.kind = .attributeType <;> simp [hkind, Operation.IsHas]

/-- The attribute that an addition gives is an instance of the type. -/
theorem WellFormed.exists_instance (hg : g.WellFormed) {t : Concept} (ht : t ∈ g.concepts)
    (hl : t.label = some l) {value : Value} (hattr : ∃ r, g.attempt (.attr l value) = .ok r) :
    ∃ c ∈ (g.perform (.attr l value)).concepts, c.typeId = some t.id := by
  obtain ⟨x, hx⟩ := Except.exists_map_ok.mp hattr
  have hperform : g.perform (.attr l value) = x.2 := congrArg g.added hx
  obtain ⟨id, hid, hx⟩ := Except.bind_eq_ok.mp hx
  obtain ⟨d, hd, rfl, -, hdl⟩ := hg.exists_of_ofKind hid
  obtain rfl := hg.labels d hd t ht (hdl ▸ rfl) (hdl.trans hl.symm)
  rw [hperform]
  split at hx
  · next a ha =>
    obtain rfl := Except.ok.inj hx
    obtain ⟨c, hc, -⟩ := Option.map_eq_some_iff.mp ha
    have hfound := List.find?_some hc
    rw [Bool.and_eq_true] at hfound
    exact ⟨c, List.mem_of_find?_eq_some hc, of_decide_eq_true hfound.1⟩
  · obtain rfl := Except.ok.inj hx
    exact ⟨_, List.mem_append_right _ (.head _), rfl⟩

theorem Precedes.reachable (hgh : g.Precedes h) (hg : g.Reachable) : h.Reachable := by
  obtain ⟨ops, rfl⟩ := hg
  obtain ⟨more, rfl⟩ := hgh
  exact ⟨ops ++ more, (List.foldl_append ..).symm⟩

theorem Reachable.perform (hg : g.Reachable) (op : Operation) : (g.perform op).Reachable :=
  Precedes.reachable ⟨[op], rfl⟩ hg

/-- Whether an addition succeeds later was decided before the definition. -/
theorem Reachable.attempt_use_iff (hg : g.Reachable) {op : Operation} (hop : op.Defines kind l) {t : Concept}
    (ht : t ∈ (g.perform op).concepts) (hl : t.label = some l) (hkind : t.kind = kind ↔ g.Fits kind l op)
    (hh : (g.perform op).Precedes h) {use : Operation} (huse : h.Uses t.id kind l use) :
    (∃ r, h.attempt use = .ok r) ↔ g.Fits kind l op ∧ (use.IsHas → g.Free .relationType l.ownership) := by
  have hs := hh.concepts_subset
  have hreach := hh.reachable (hg.perform op)
  rw [hreach.wellFormed.attempt_use_iff hreach.typed (hs ht) hl huse, hkind]
  refine and_congr_right fun _ => imp_congr_right fun hhas => ?_
  obtain rfl := huse.eq_attributeType hhas
  cases hop
  obtain ⟨hlabelled, hfree⟩ := ownership_defineAttributeType g l
  rw [hreach.wellFormed.defined_iff, and_iff_right (hlabelled.mono hs),
    hreach.wellFormed.free_iff_of_subset hs hlabelled, hfree]

/-- A definition always gives the concept of the label. It is of the kind exactly if no concept of another
kind had the label when the definition came to it, and this decides, in every later graph, whether the
additions that use the definition succeed; making an owner succeeds if moreover none of another kind had
the label of the ownership. So the definition serves from then on exactly if neither label was taken. -/
theorem definition_serves_iff (hg : g.Reachable) {op : Operation} (hop : op.Defines kind l) :
    ∃ id, g.attempt op = .ok (some id, g.perform op) ∧
      (∀ h, (g.perform op).Precedes h →
        (∃ c ∈ h.concepts, c.id = id ∧ c.label = some l ∧ (c.kind = kind ↔ g.Fits kind l op)) ∧
        ∀ use, h.Uses id kind l use → ((∃ r, h.attempt use = .ok r) ↔
          g.Fits kind l op ∧ (use.IsHas → g.Free .relationType l.ownership))) ∧
      ((∀ h, (g.perform op).Precedes h → h.Serves id kind l) ↔
        g.Fits kind l op ∧ (kind = .attributeType → g.Free .relationType l.ownership)) := by
  obtain ⟨t, ht, hattempt, hl, hkind⟩ := hg.wellFormed.attempt_defines hop
  have hwf := (hg.perform op).wellFormed
  have huses {h : Graph} (hh : (g.perform op).Precedes h) {use : Operation} (huse : h.Uses t.id kind l use) :=
    hg.attempt_use_iff hop ht hl hkind hh huse
  refine ⟨t.id, hattempt, fun h hh => ⟨⟨t, hh.concepts_subset ht, rfl, hl, hkind⟩, fun _ => huses hh⟩,
    fun hserves => ?_, fun ⟨hfits, howner⟩ h hh => ?_⟩
  · have hself := hserves _ ⟨[], rfl⟩
    obtain ⟨c, hc, hid, hck, -⟩ := hself.concept
    obtain rfl := hwf.eq_of_id hc ht hid
    refine ⟨hkind.mp hck, ?_⟩
    rintro rfl
    -- an attribute of the type, as the owner of itself
    obtain ⟨a, ha, htype⟩ := hwf.exists_instance ht hl (hself.uses (.attr l default) .attr)
    have hlater : (g.perform op).Precedes ((g.perform op).perform (.attr l default)) := ⟨[.attr l default], rfl⟩
    have huse : Graph.Uses _ c.id .attributeType l (.has a.id a.id) := .has ha htype ⟨a, ha, rfl⟩
    exact ((huses hlater huse).mp ((hserves _ hlater).uses _ huse)).2 trivial
  · refine ⟨⟨t, hh.concepts_subset ht, rfl, hkind.mpr hfits, hl⟩, fun use huse => ?_⟩
    exact (huses hh huse).mpr ⟨hfits, fun hhas => howner (huse.eq_attributeType hhas)⟩

namespace NameOwner

def name : Label :=
  ⟨"name"⟩

/-- Its ownership has the label of the owner's role of a name. -/
def nameOwner : Label :=
  ⟨"name-owner"⟩

/-- Defined first, the attribute type of the longer label leaves room for a name's, although an owner's role
then has the label of a relation type. -/
theorem definition_serves_iff_name : (perform {} (.attributeType nameOwner)).Reachable ∧
    (Operation.attributeType name).Defines .attributeType name ∧
    ∃ id, (perform {} (.attributeType nameOwner)).attempt (.attributeType name) =
        .ok (some id, (perform {} (.attributeType nameOwner)).perform (.attributeType name)) ∧
      ∀ h, ((perform {} (.attributeType nameOwner)).perform (.attributeType name)).Precedes h →
        h.Serves id .attributeType name := by
  have hreachable : (perform {} (.attributeType nameOwner)).Reachable := ⟨[.attributeType nameOwner], rfl⟩
  obtain ⟨id, hid, -, hserves⟩ := definition_serves_iff hreachable (.attributeType (l := name))
  refine ⟨hreachable, .attributeType, id, hid, hserves.mpr ⟨?_, fun _ => ?_⟩⟩
  · show ∀ c ∈ _, _
    decide +kernel
  · unfold Free
    decide +kernel

/-- The graph with both attribute types, a person `V9` and a value `V10` of the second one. -/
def graph : Graph :=
  [.attributeType name, .attributeType nameOwner, .entityType ⟨"person"⟩, .entity ⟨"person"⟩,
    .attr nameOwner (.string "x")].foldl perform {}

/-- Defined after a name, the other attribute type never has owners. -/
theorem not_serves : ¬ ∀ g : Graph, g.Reachable → ∀ op kind l, op.Defines kind l → ∀ id,
    g.attempt op = .ok (some id, g.perform op) → ∀ h, (g.perform op).Precedes h → h.Serves id kind l := by
  intro hall
  have hserves := hall (perform {} (.attributeType name)) ⟨[.attributeType name], rfl⟩ (.attributeType nameOwner)
    _ _ .attributeType ⟨"T7"⟩ rfl graph
    ⟨[.entityType ⟨"person"⟩, .entity ⟨"person"⟩, .attr nameOwner (.string "x")], rfl⟩
  have hvalue : (⟨⟨"V10"⟩, .attr, none, some ⟨"T7"⟩, some (.string "x")⟩ : Concept) ∈ graph.concepts := by
    decide +kernel
  have howner : graph.Holds ⟨"V9"⟩ := isSome_concept?_iff.mp (by decide +kernel)
  obtain ⟨r, hr⟩ := hserves.uses _ (.has hvalue rfl howner)
  have herror : (graph.attempt (.has ⟨"V9"⟩ ⟨"V10"⟩)).isOk = false := by decide +kernel
  rw [hr] at herror
  cases herror

end NameOwner

end Graph

end GraphInference
