import GraphInference.Proofs.Traversal.Reading

/-!
# What a step finds

A step gives exactly those assignments that complete the one it starts from by graph elements for
its own variables and under which its fragment holds: `mem_extend_iff`. This needs the start variable
bound, or an index to start from. A step that tries every element for an unbound start finds those
completions that put an instance there: `mem_run_iff_scan`.
-/

namespace GraphInference

/-! ## Adding bindings -/

namespace Assignment

/-- `b` is `a` with the bindings of a list and no others. -/
theorem bind?_eq_some_iff {a b : Assignment} {l : List (Var × Element)} :
    a.bind? l = some b ↔ ∀ v e, b.find? v = some e ↔ a.find? v = some e ∨ (v, e) ∈ l := by
  induction l generalizing a with
  | nil =>
    simp only [bind?, Option.some.injEq, List.not_mem_nil, or_false]
    exact ⟨fun h _ _ => h ▸ Iff.rfl, fun h =>
      SortedMap.ext_find? fun v => Option.ext fun e => (h v e).symm⟩
  | cons hd l ih =>
    obtain ⟨u, d⟩ := hd
    rw [bind?]
    cases hu : a.find? u with
    | none =>
      simp only [ih, SortedMap.find?_insert, Std.compare_eq_iff_eq]
      refine forall₂_congr fun v e => iff_congr Iff.rfl ?_
      by_cases hv : v = u
      · subst hv
        simp [hu, eq_comm]
      · simp [hv]
    | some old =>
      by_cases hd : old = d
      · subst hd
        simp only [if_pos, ih]
        refine forall₂_congr fun v e => iff_congr Iff.rfl ?_
        rw [List.mem_cons, Prod.mk.injEq]
        refine ⟨Or.imp_right .inr, ?_⟩
        rintro (h | ⟨rfl, rfl⟩ | h)
        · exact .inl h
        · exact .inl hu
        · exact .inr h
      · simp only [if_neg hd, reduceCtorEq, false_iff]
        intro h
        have hold := (h u old).mpr (.inl hu)
        have hnew := (h u d).mpr (.inr (.head _))
        exact hd (Option.some.inj (hold.symm.trans hnew))

/-- The assignment has every binding of a list. -/
def Agrees (a : Assignment) (l : List (Var × Element)) : Prop :=
  ∀ p ∈ l, a.find? p.1 = some p.2

theorem agrees_nil {a : Assignment} : a.Agrees [] := fun _ h => nomatch h

theorem agrees_one {a : Assignment} {v : Var} {e : Element} :
    a.Agrees [(v, e)] ↔ a.find? v = some e := by
  simp [Agrees]

theorem agrees_two {a : Assignment} {v w : Var} {d e : Element} :
    a.Agrees [(v, d), (w, e)] ↔ a.find? v = some d ∧ a.find? w = some e := by
  simp [Agrees]

/-- `b` keeps what `a` assigns, has the variables of `a` and those of `vs`, and assigns elements of
the graph. -/
structure Completes (g : Graph) (a : Assignment) (vs : Var → Prop) (b : Assignment) : Prop where
  keeps : ∀ v e, a.find? v = some e → b.find? v = some e
  domain : ∀ v, b.contains v = true ↔ a.contains v = true ∨ vs v
  elements : ∀ v e, b.find? v = some e → g.HasElement e

/-- An assignment of graph elements. -/
def Sound (g : Graph) (a : Assignment) : Prop :=
  ∀ v e, a.find? v = some e → g.HasElement e

theorem Sound.insert {g : Graph} {a : Assignment} (ha : a.Sound g) {v : Var} {e : Element}
    (he : g.HasElement e) : Sound g (a.insert v e) := by
  intro u d hd
  by_cases hu : u = v
  · subst hu
    rw [SortedMap.find?_insert_self] at hd
    exact Option.some.inj hd ▸ he
  · rw [SortedMap.find?_insert_of_ne _ _ hu] at hd
    exact ha u d hd

/-- To complete `a` with `e` put at a variable is to complete `a` so that `e` is there. -/
theorem completes_insert_iff {g : Graph} {a b : Assignment} {vs : Var → Prop} {v : Var} {e : Element}
    (hv : a.contains v = false) (hvs : vs v) :
    Completes g (a.insert v e) vs b ↔ Completes g a vs b ∧ b.find? v = some e := by
  have hnone := SortedMap.contains_eq_false_iff.mp hv
  constructor
  · intro h
    refine ⟨⟨fun u d hd => ?_, fun u => ?_, h.elements⟩, h.keeps v e (SortedMap.find?_insert_self ..)⟩
    · refine h.keeps u d ?_
      rwa [SortedMap.find?_insert_of_ne]
      rintro rfl
      rw [hnone] at hd
      cases hd
    · rw [h.domain]
      by_cases hu : u = v
      · subst hu
        simp [hvs]
      · simp only [SortedMap.contains, SortedMap.find?_insert_of_ne _ _ hu]
  · rintro ⟨h, he⟩
    refine ⟨fun u d hd => ?_, fun u => ?_, h.elements⟩
    · by_cases hu : u = v
      · subst hu
        rw [SortedMap.find?_insert_self] at hd
        exact Option.some.inj hd ▸ he
      · rw [SortedMap.find?_insert_of_ne _ _ hu] at hd
        exact h.keeps u d hd
    · rw [h.domain]
      by_cases hu : u = v
      · subst hu
        simp [hvs]
      · simp only [SortedMap.contains, SortedMap.find?_insert_of_ne _ _ hu]

end Assignment

/-! ## What a fragment looks up -/

namespace Fragment

variable {g : Graph}

theorem valuePasses_iff {p : Constraint} {e : Element} (he : g.HasElement e) :
    valuePasses g p e = true ↔
      ∃ id, e = g.element id ∧ ∃ c, g.concept? id = some c ∧ ∃ x, c.value = some x ∧ p.test x = true := by
  simp only [valuePasses, Option.any_eq_true, Option.bind_eq_some_iff]
  constructor
  · rintro ⟨x, ⟨c, ⟨id, hid, hc⟩, hx⟩, hp⟩
    exact ⟨id, he.eq_element hid, c, hc, x, hx, hp⟩
  · rintro ⟨id, rfl, c, hc, x, hx, hp⟩
    exact ⟨x, ⟨c, ⟨id, g.conceptId?_element id, hc⟩, hx⟩, hp⟩

/-- The castings found at an element are those of the relation there. -/
theorem mem_castingsAt_iff (hg : g.WellFormed) {e : Element} {c : Casting} :
    c ∈ castingsAt g e ↔ g.Plays e c := by
  cases e with
  | vertex id =>
    rw [castingsAt, Graph.castingsOf, List.mem_filter, decide_eq_true_eq]
    constructor
    · rintro ⟨hc, rfl⟩
      exact .stored hc
    · rintro ⟨hc⟩
      exact ⟨hc, rfl⟩
  | edge id =>
    rw [castingsAt]
    constructor
    · cases hd : g.edge? id with
      | none => exact fun h => nomatch h
      | some d =>
        obtain ⟨hmem, rfl⟩ := Graph.edge?_eq_some hd
        intro h
        rcases List.mem_cons.mp h with rfl | h
        · exact .owner hmem
        · obtain rfl := List.mem_singleton.mp h
          exact .value hmem
    · intro h
      cases h with
      | owner hd => simp [hg.edge?_id hd, edgeCastings]
      | value hd => simp [hg.edge?_id hd, edgeCastings]
  | casting d => exact ⟨fun h => (nomatch h), fun h => nomatch h⟩

/-- The castings found from a player are those in which it plays. -/
theorem mem_castingsOfPlayer_iff {player : ConceptId} {e : Element} {c : Casting} :
    (e, c) ∈ castingsOfPlayer g player ↔ g.Plays e c ∧ c.player = player := by
  simp only [castingsOfPlayer, List.mem_append, List.mem_map, Prod.mk.injEq, Graph.castingsBy,
    Graph.edgesFrom, Graph.edgesTo, List.mem_filter, decide_eq_true_eq]
  constructor
  · rintro ((⟨c, ⟨hc, hp⟩, rfl, rfl⟩ | ⟨d, ⟨hd, rfl⟩, rfl, rfl⟩) | ⟨d, ⟨hd, rfl⟩, rfl, rfl⟩)
    · exact ⟨.stored hc, hp⟩
    · exact ⟨.owner hd, rfl⟩
    · exact ⟨.value hd, rfl⟩
  · rintro ⟨h, rfl⟩
    cases h with
    | stored hc => exact .inl (.inl ⟨c, ⟨hc, rfl⟩, rfl, rfl⟩)
    | owner hd => exact .inl (.inr ⟨_, ⟨hd, rfl⟩, rfl, rfl⟩)
    | value hd => exact .inr ⟨_, ⟨hd, rfl⟩, rfl, rfl⟩

end Fragment

namespace RoleLink

variable {g : Graph} {link : RoleLink}

theorem acceptsRole_iff {role : Label} :
    link.acceptsRole role = true ↔ ∀ roles, link.roles = some roles → role ∈ roles := by
  rw [acceptsRole]
  cases link.roles with
  | none => simp
  | some roles => simp [SortedSet.contains_iff]

theorem acceptsRelation_iff (hg : g.WellFormed) {relation : ConceptId} :
    link.acceptsRelation g relation = true ↔ ∀ types, link.relationTypes = some types →
      ∃ t ∈ g.concepts, g.IsA relation t.id ∧ ∃ l ∈ types, t.label = some l := by
  rw [acceptsRelation]
  cases link.relationTypes with
  | none => simp
  | some types =>
    simp only [Option.some.injEq, forall_eq']
    constructor
    · intro h
      split at h
      · cases h
      · next s hs =>
        obtain ⟨t, ht, hl⟩ := List.any_eq_true.mp h
        obtain ⟨l, hl, hmem⟩ := (Option.any_eq_true _ _).mp hl
        obtain ⟨d, hd, hdl⟩ := Option.bind_eq_some_iff.mp hl
        obtain ⟨hmemd, rfl⟩ := Graph.concept?_eq_some hd
        exact ⟨d, hmemd, hg.isA_iff_supertypes.mpr ⟨s, hs, ht⟩, l, SortedSet.contains_iff.mp hmem, hdl⟩
    · rintro ⟨t, ht, hisA, l, hl, htl⟩
      obtain ⟨s, hs, hsup⟩ := hg.isA_iff_supertypes.mp hisA
      rw [hs]
      refine List.any_eq_true.mpr ⟨t.id, hsup, ?_⟩
      rw [hg.concept?_id ht, Option.bind_some, htl]
      exact SortedSet.contains_iff.mpr hl

theorem accepts_iff (hg : g.WellFormed) {c : Casting} :
    link.Accepts g c ↔ link.acceptsRole c.role = true ∧ link.acceptsRelation g c.relation = true :=
  and_congr acceptsRole_iff.symm (acceptsRelation_iff hg).symm

end RoleLink

/-! ## One step -/

namespace Fragment

variable {g : Graph} {f : Fragment} {a b : Assignment}

theorem contains_of_find?_bind {β : Type} {v : Var} {h : Element → Option β} {x : β}
    (hx : (a.find? v).bind h = some x) : a.contains v = true := by
  obtain ⟨e, he, -⟩ := Option.bind_eq_some_iff.mp hx
  exact SortedMap.contains_iff_isSome.mpr ⟨e, he⟩

/-- A step that binds the variables of the fragment but those of `us`, which are bound. -/
theorem contains_or_mem_vars_iff_of_bound {l : List (Var × Element)} (us : List Var)
    (hus : ∀ u ∈ us, a.contains u = true) (hvars : ∀ v, v ∈ f.vars ↔ v ∈ us ∨ v ∈ l.map Prod.fst)
    (v : Var) : a.contains v = true ∨ v ∈ f.vars ↔ a.contains v = true ∨ ∃ e, (v, e) ∈ l := by
  have hkeys : v ∈ l.map Prod.fst ↔ ∃ e, (v, e) ∈ l := by simp
  rw [hvars, hkeys]
  constructor
  · rintro (h | h | h)
    · exact .inl h
    · exact .inl (hus v h)
    · exact .inr h
  · exact Or.imp_right .inr

/-- What a step binds, with what was bound before, are the variables of the fragment. -/
theorem contains_or_mem_vars_iff {l : List (Var × Element)} (hl : l ∈ f.bindings g a) (v : Var) :
    a.contains v = true ∨ v ∈ f.vars ↔ a.contains v = true ∨ ∃ e, (v, e) ∈ l := by
  cases f with
  | identity u id =>
    rw [bindings] at hl
    split at hl
    · obtain rfl := List.mem_singleton.mp hl
      exact contains_or_mem_vars_iff_of_bound [] (by simp) (by simp) v
    · cases hl
  | labelled u label =>
    obtain ⟨t, -, rfl⟩ := List.mem_map.mp hl
    exact contains_or_mem_vars_iff_of_bound [] (by simp) (by simp) v
  | valued u p =>
    rw [bindings] at hl
    split at hl
    · next e he =>
      have hu : a.contains u = true := SortedMap.contains_iff_isSome.mpr ⟨e, he⟩
      split at hl
      · obtain rfl := List.mem_singleton.mp hl
        exact contains_or_mem_vars_iff_of_bound [u] (by simpa using hu) (by simp) v
      · cases hl
    · obtain ⟨e, -, rfl⟩ := List.mem_map.mp hl
      exact contains_or_mem_vars_iff_of_bound [] (by simp) (by simp) v
  | outIsa thing type =>
    rw [bindings] at hl
    split at hl
    · next s hs =>
      obtain ⟨c, hc, -⟩ := Option.bind_eq_some_iff.mp hs
      obtain ⟨i, hi, -⟩ := Option.bind_eq_some_iff.mp hc
      have hthing := contains_of_find?_bind hi
      obtain ⟨t, -, rfl⟩ := List.mem_map.mp hl
      exact contains_or_mem_vars_iff_of_bound [thing] (by simpa using hthing) (by simp) v
    · cases hl
  | inIsa type thing =>
    rw [bindings] at hl
    split at hl
    · next t ht =>
      have htype := contains_of_find?_bind ht
      obtain ⟨i, -, rfl⟩ := List.mem_map.mp hl
      exact contains_or_mem_vars_iff_of_bound [type] (by simpa using htype) (by simp [or_comm]) v
    · cases hl
  | outPlayer link =>
    rw [bindings] at hl
    split at hl
    · next e he =>
      have hrel : a.contains link.relation = true := SortedMap.contains_iff_isSome.mpr ⟨e, he⟩
      split at hl
      · obtain ⟨c, -, rfl⟩ := List.mem_map.mp hl
        exact contains_or_mem_vars_iff_of_bound [link.relation] (by simpa using hrel) (by simp) v
      · cases hl
    · cases hl
  | inPlayer link =>
    rw [bindings] at hl
    split at hl
    · next player hplayer =>
      have hp := contains_of_find?_bind hplayer
      obtain ⟨⟨r, c⟩, -, rfl⟩ := List.mem_map.mp hl
      exact contains_or_mem_vars_iff_of_bound [link.player] (by simpa using hp)
        (by simp [or_comm, or_left_comm]) v
    · cases hl
  | neq left right =>
    rw [bindings] at hl
    split at hl
    · next d e hd he =>
      have hleft : a.contains left = true := SortedMap.contains_iff_isSome.mpr ⟨d, hd⟩
      have hright : a.contains right = true := SortedMap.contains_iff_isSome.mpr ⟨e, he⟩
      split at hl
      · cases hl
      · obtain rfl := List.mem_singleton.mp hl
        exact contains_or_mem_vars_iff_of_bound [left, right] (by simp [hleft, hright]) (by simp) v
    · cases hl

/-- Some bindings of the step agree with `b`. -/
def Meets (f : Fragment) (g : Graph) (a b : Assignment) : Prop :=
  ∃ l ∈ f.bindings g a, b.Agrees l

section Meets

variable {e : Element}

theorem meets_identity {v : Var} {id : ConceptId} :
    (identity v id).Meets g a b ↔ (identity v id).Holds g b := by
  rw [Meets, bindings, Holds, ← Graph.isSome_concept?_iff]
  by_cases h : (g.concept? id).isSome <;> simp [h, Assignment.agrees_one]

theorem meets_labelled (hg : g.WellFormed) {v : Var} {label : Label} :
    (labelled v label).Meets g a b ↔ (labelled v label).Holds g b := by
  simp only [Meets, bindings, Holds, List.mem_map, Option.mem_toList]
  constructor
  · rintro ⟨_, ⟨t, ht, rfl⟩, h⟩
    have hel := hg.element_of_holdsSchema (Graph.holdsSchema_of_labelled? ht)
    obtain ⟨c, hc, rfl, hl⟩ := Graph.labelled?_eq_some ht
    rw [← hel] at h
    exact ⟨c, hc, hl, Assignment.agrees_one.mp h⟩
  · rintro ⟨c, hc, hl, hb⟩
    have ht := hg.labelled?_label hc hl
    rw [hg.element_of_holdsSchema (Graph.holdsSchema_of_labelled? ht)] at hb
    exact ⟨_, ⟨c.id, ht, rfl⟩, Assignment.agrees_one.mpr hb⟩

/-- A concept with a value is an instance, so the scan for a value visits it. -/
theorem mem_filter_valuePasses (hg : g.WellFormed) {p : Constraint} :
    e ∈ g.elements.filter (valuePasses g p) ↔
      ∃ c ∈ g.concepts, e = g.element c.id ∧ ∃ x, c.value = some x ∧ p.test x = true := by
  rw [List.mem_filter]
  constructor
  · rintro ⟨he, hp⟩
    obtain ⟨id, rfl, c, hc, hx⟩ := (valuePasses_iff (hg.hasElement_of_mem_elements he)).mp hp
    obtain ⟨hmem, rfl⟩ := Graph.concept?_eq_some hc
    exact ⟨c, hmem, rfl, hx⟩
  · rintro ⟨c, hc, rfl, x, hx, hp⟩
    have hk : c.kind.isThing = true := by
      rcases hg.concept c hc with ⟨-, -, -, hn⟩ | ⟨-, hk, -⟩
      · rw [hn] at hx
        cases hx
      · exact hk
    have he := hg.mem_elements.mpr ⟨c.id, ⟨c, hc, rfl, hk⟩, rfl⟩
    exact ⟨he, (valuePasses_iff (hg.hasElement_of_mem_elements he)).mpr
      ⟨c.id, rfl, c, hg.concept?_id hc, x, hx, hp⟩⟩

theorem meets_valued (hg : g.WellFormed) (ha : a.Sound g)
    (hab : ∀ v e, a.find? v = some e → b.find? v = some e) {v : Var} {p : Constraint} :
    (valued v p).Meets g a b ↔ (valued v p).Holds g b := by
  rw [Meets, bindings, Holds]
  cases h : a.find? v with
  | none =>
    simp only [List.mem_map, mem_filter_valuePasses hg]
    constructor
    · rintro ⟨_, ⟨_, ⟨c, hc, rfl, hx⟩, rfl⟩, hb⟩
      exact ⟨c, hc, Assignment.agrees_one.mp hb, hx⟩
    · rintro ⟨c, hc, hb, hx⟩
      exact ⟨_, ⟨_, ⟨c, hc, rfl, hx⟩, rfl⟩, Assignment.agrees_one.mpr hb⟩
  | some e =>
    have he := ha v e h
    simp only [hab v e h, Option.some.injEq]
    constructor
    · intro hm
      obtain ⟨l, hl, -⟩ := hm
      split at hl
      · next hp =>
        obtain ⟨id, rfl, c, hc, hx⟩ := (valuePasses_iff he).mp hp
        obtain ⟨hmem, rfl⟩ := Graph.concept?_eq_some hc
        exact ⟨c, hmem, rfl, hx⟩
      · cases hl
    · rintro ⟨c, hc, rfl, hx⟩
      rw [if_pos ((valuePasses_iff he).mpr ⟨c.id, rfl, c, hg.concept?_id hc, hx⟩)]
      exact ⟨[], .head _, Assignment.agrees_nil⟩

theorem meets_outIsa (hg : g.WellFormed) {thing type : Var} (he : g.HasElement e)
    (h : a.find? thing = some e) (hb : b.find? thing = some e) :
    (outIsa thing type).Meets g a b ↔ (outIsa thing type).Holds g b := by
  rw [Meets, bindings, Holds, h, Option.bind_some, hb]
  constructor
  · rintro ⟨l, hl, hbl⟩
    split at hl
    · next s hs =>
      obtain ⟨c, hc, hcs⟩ := Option.bind_eq_some_iff.mp hs
      obtain ⟨i, hi, hc⟩ := Option.bind_eq_some_iff.mp hc
      obtain ⟨t, ht, rfl⟩ := List.mem_map.mp hl
      have hisA := hg.isA_iff_supertypes.mpr ⟨s, by rw [hc]; exact hcs, ht⟩
      refine ⟨i, t, hisA, congrArg some (he.eq_element hi), ?_⟩
      rw [hg.element_of_holdsSchema (hg.isA_holds hisA).2]
      exact Assignment.agrees_one.mp hbl
    · cases hl
  · rintro ⟨i, t, hisA, he, ht⟩
    obtain rfl := Option.some.inj he
    obtain ⟨s, hs, hmem⟩ := hg.isA_iff_supertypes.mp hisA
    rw [hg.element_of_holdsSchema (hg.isA_holds hisA).2] at ht
    rw [Graph.conceptId?_element, Option.bind_some, hs]
    exact ⟨_, List.mem_map.mpr ⟨t, hmem, rfl⟩, Assignment.agrees_one.mpr ht⟩

theorem meets_inIsa {thing type : Var} (he : g.HasElement e)
    (h : a.find? type = some e) (hb : b.find? type = some e) :
    (inIsa type thing).Meets g a b ↔ (inIsa type thing).Holds g b := by
  rw [Meets, bindings, Holds, h, Option.bind_some, hb]
  constructor
  · rintro ⟨l, hl, hbl⟩
    split at hl
    · next t ht =>
      obtain ⟨i, hi, rfl⟩ := List.mem_map.mp hl
      exact ⟨i, t, Graph.isA_iff_instances.mpr hi, Assignment.agrees_one.mp hbl,
        congrArg some (he.eq_element ht)⟩
    · cases hl
  · rintro ⟨i, t, hisA, hi, he⟩
    obtain rfl := Option.some.inj he
    rw [Graph.conceptId?_element]
    exact ⟨_, List.mem_map.mpr ⟨i, Graph.isA_iff_instances.mp hisA, rfl⟩,
      Assignment.agrees_one.mpr hi⟩

theorem meets_outPlayer (hg : g.WellFormed) {link : RoleLink}
    (h : a.find? link.relation = some e) (hb : b.find? link.relation = some e) :
    (outPlayer link).Meets g a b ↔ (outPlayer link).Holds g b := by
  rw [Meets, bindings, Holds, h, hb]
  constructor
  · rintro ⟨l, hl, hbl⟩
    dsimp only at hl
    split at hl
    · next hrel =>
      obtain ⟨c, hc, rfl⟩ := List.mem_map.mp hl
      obtain ⟨hc, hrole⟩ := List.mem_filter.mp hc
      have hplays := (mem_castingsAt_iff hg).mp hc
      rw [hplays.relation_eq] at hrel
      obtain ⟨hcasting, hplayer⟩ := Assignment.agrees_two.mp hbl
      exact ⟨e, c, hplays, (RoleLink.accepts_iff hg).mpr ⟨hrole, hrel⟩, rfl, hcasting, hplayer⟩
    · cases hl
  · rintro ⟨r, c, hplays, hacc, he, hc, hp⟩
    obtain rfl := Option.some.inj he
    obtain ⟨hrole, hrel⟩ := (RoleLink.accepts_iff hg).mp hacc
    have hany : e.conceptId?.any (link.acceptsRelation g) = true := by
      rw [hplays.relation_eq]
      exact hrel
    refine ⟨[(link.casting, .casting c), (link.player, g.element c.player)], ?_, ?_⟩
    · dsimp only
      rw [if_pos hany]
      exact List.mem_map.mpr ⟨c, List.mem_filter.mpr ⟨(mem_castingsAt_iff hg).mpr hplays, hrole⟩, rfl⟩
    · exact Assignment.agrees_two.mpr ⟨hc, hp⟩

theorem meets_inPlayer (hg : g.WellFormed) {link : RoleLink} (he : g.HasElement e)
    (h : a.find? link.player = some e) (hb : b.find? link.player = some e) :
    (inPlayer link).Meets g a b ↔ (inPlayer link).Holds g b := by
  rw [Meets, bindings, Holds, h, hb, Option.bind_some]
  constructor
  · rintro ⟨l, hl, hbl⟩
    split at hl
    · next player hplayer =>
      obtain ⟨⟨r, c⟩, hc, rfl⟩ := List.mem_map.mp hl
      obtain ⟨hc, hacc⟩ := List.mem_filter.mp hc
      obtain ⟨hplays, rfl⟩ := mem_castingsOfPlayer_iff.mp hc
      rw [Bool.and_eq_true] at hacc
      obtain ⟨hrelation, hcasting⟩ := Assignment.agrees_two.mp hbl
      exact ⟨r, c, hplays, (RoleLink.accepts_iff hg).mpr hacc, hrelation, hcasting,
        congrArg some (he.eq_element hplayer)⟩
    · cases hl
  · rintro ⟨r, c, hplays, hacc, hr, hc, he⟩
    obtain rfl := Option.some.inj he
    rw [Graph.conceptId?_element]
    refine ⟨[(link.relation, r), (link.casting, .casting c)], List.mem_map.mpr ⟨(r, c), ?_, rfl⟩, ?_⟩
    · refine List.mem_filter.mpr ⟨mem_castingsOfPlayer_iff.mpr ⟨hplays, rfl⟩, ?_⟩
      exact Bool.and_eq_true_iff.mpr ((RoleLink.accepts_iff hg).mp hacc)
    · exact Assignment.agrees_two.mpr ⟨hr, hc⟩

theorem meets_neq {left right : Var} {l r : Element} (hl : a.find? left = some l)
    (hr : a.find? right = some r) (hbl : b.find? left = some l) (hbr : b.find? right = some r) :
    (neq left right).Meets g a b ↔ (neq left right).Holds g b := by
  rw [Meets, bindings, Holds, hl, hr, hbl, hbr]
  by_cases h : l = r <;> simp [h, Assignment.agrees_nil]

end Meets

/-- A step that can run meets `b` exactly if its fragment holds under `b`. -/
theorem meets_iff_holds (hg : g.WellFormed) (ha : a.Sound g)
    (hab : ∀ v e, a.find? v = some e → b.find? v = some e)
    (hdeps : ∀ v ∈ f.dependencies, a.contains v = true)
    (hstart : a.contains f.start = true ∨ f.isIndexed = true) : f.Meets g a b ↔ f.Holds g b := by
  have hbound (h : f.isIndexed = false) : ∃ e, a.find? f.start = some e :=
    SortedMap.contains_iff_isSome.mp (hstart.resolve_right (by simp [h]))
  cases f with
  | identity v id => exact meets_identity
  | labelled v label => exact meets_labelled hg
  | valued v p => exact meets_valued hg ha hab
  | outIsa thing type =>
    obtain ⟨e, he⟩ := hbound rfl
    exact meets_outIsa hg (ha _ _ he) he (hab _ _ he)
  | inIsa type thing =>
    obtain ⟨e, he⟩ := hbound rfl
    exact meets_inIsa (ha _ _ he) he (hab _ _ he)
  | outPlayer link =>
    obtain ⟨e, he⟩ := hbound rfl
    exact meets_outPlayer hg he (hab _ _ he)
  | inPlayer link =>
    obtain ⟨e, he⟩ := hbound rfl
    exact meets_inPlayer hg (ha _ _ he) he (hab _ _ he)
  | neq left right =>
    obtain ⟨l, hl⟩ := hbound rfl
    obtain ⟨r, hr⟩ := SortedMap.contains_iff_isSome.mp (hdeps right (by simp [dependencies]))
    exact meets_neq hl hr (hab _ _ hl) (hab _ _ hr)

/-- A step gives the completions for its variables under which its fragment holds. -/
theorem mem_extend_iff (hg : g.WellFormed) (ha : a.Sound g)
    (hdeps : ∀ v ∈ f.dependencies, a.contains v = true)
    (hstart : a.contains f.start = true ∨ f.isIndexed = true) :
    b ∈ f.extend g a ↔ a.Completes g (· ∈ f.vars) b ∧ f.Holds g b := by
  simp only [extend, List.mem_filterMap, Assignment.bind?_eq_some_iff]
  constructor
  · rintro ⟨l, hl, hb⟩
    have hkeeps : ∀ v e, a.find? v = some e → b.find? v = some e :=
      fun v e h => (hb v e).mpr (.inl h)
    have hholds : f.Holds g b := (meets_iff_holds hg ha hkeeps hdeps hstart).mp
      ⟨l, hl, fun p hp => (hb p.1 p.2).mpr (.inr hp)⟩
    refine ⟨⟨hkeeps, fun v => ?_, fun v e he => ?_⟩, hholds⟩
    · rw [contains_or_mem_vars_iff hl]
      simp only [SortedMap.contains_iff_isSome, hb, exists_or]
    · by_cases hv : a.contains v = true
      · obtain ⟨d, hd⟩ := SortedMap.contains_iff_isSome.mp hv
        exact ha v e (Option.some.inj ((hkeeps v d hd).symm.trans he) ▸ hd)
      · have hvars := ((contains_or_mem_vars_iff hl v).mpr ?_).resolve_left hv
        · obtain ⟨d, hd, hel⟩ := hholds.exists_element hg hvars
          obtain rfl := Option.some.inj (hd.symm.trans he)
          exact hel fun hdep => hv (hdeps v hdep)
        · rcases (hb v e).mp he with h | h
          · exact .inl (SortedMap.contains_iff_isSome.mpr ⟨e, h⟩)
          · exact .inr ⟨e, h⟩
  · rintro ⟨hb, hholds⟩
    obtain ⟨l, hl, hagrees⟩ := (meets_iff_holds hg ha hb.keeps hdeps hstart).mpr hholds
    refine ⟨l, hl, fun v e => ⟨fun he => ?_, ?_⟩⟩
    · have hv := (hb.domain v).mp (SortedMap.contains_iff_isSome.mpr ⟨e, he⟩)
      rw [contains_or_mem_vars_iff hl, SortedMap.contains_iff_isSome] at hv
      rcases hv with ⟨d, hd⟩ | ⟨d, hd⟩
      · obtain rfl := Option.some.inj ((hb.keeps v d hd).symm.trans he)
        exact .inl hd
      · obtain rfl := Option.some.inj ((hagrees _ hd).symm.trans he)
        exact .inr hd
    · rintro (h | h)
      · exact hb.keeps v e h
      · exact hagrees (v, e) h

/-- A step from an unbound start gives those completions that put an instance there. -/
theorem mem_run_iff_of_scan (hg : g.WellFormed) (ha : a.Sound g) (hdeps : f.dependencies = .empty)
    (hstart : a.contains f.start = false) (hindexed : f.isIndexed = false) :
    b ∈ f.run g a ↔
      (a.Completes g (· ∈ f.vars) b ∧ f.Holds g b) ∧ ∃ e ∈ g.elements, b.find? f.start = some e := by
  have hrun : f.run g a = g.elements.flatMap fun e => f.extend g (a.insert f.start e) := by
    rw [run, hstart, hindexed, hdeps]
    rfl
  have hstep (e : Element) (he : e ∈ g.elements) : b ∈ f.extend g (a.insert f.start e) ↔
      Assignment.Completes g (a.insert f.start e) (· ∈ f.vars) b ∧ f.Holds g b := by
    refine mem_extend_iff hg (ha.insert (hg.hasElement_of_mem_elements he)) (fun v hv => ?_) (.inl ?_)
    · rw [hdeps] at hv
      exact absurd hv (SortedSet.not_mem_empty v)
    · exact SortedMap.contains_iff_isSome.mpr ⟨e, SortedMap.find?_insert_self _ _ _⟩
  rw [hrun, List.mem_flatMap]
  constructor
  · rintro ⟨e, he, hb⟩
    obtain ⟨hcomp, hholds⟩ := (hstep e he).mp hb
    obtain ⟨hcomp, hfind⟩ := (Assignment.completes_insert_iff hstart f.start_mem_vars).mp hcomp
    exact ⟨⟨hcomp, hholds⟩, e, he, hfind⟩
  · rintro ⟨⟨hcomp, hholds⟩, e, he, hfind⟩
    exact ⟨e, he, (hstep e he).mpr
      ⟨(Assignment.completes_insert_iff hstart f.start_mem_vars).mpr ⟨hcomp, hfind⟩, hholds⟩⟩

/-- What is depended on includes the start. -/
theorem start_mem_dependencies (h : f.dependencies ≠ .empty) : f.start ∈ f.dependencies := by
  cases f with
  | neq left right => simp [dependencies, start]
  | _ => exact absurd rfl h

/-- A step gives the completions under which its fragment holds; where it tries every element for its
start, those that put an instance there. -/
theorem mem_run_iff_scan (hg : g.WellFormed) (ha : a.Sound g)
    (hdeps : ∀ v ∈ f.dependencies, a.contains v = true) :
    b ∈ f.run g a ↔ (a.Completes g (· ∈ f.vars) b ∧ f.Holds g b) ∧
      (¬ a.contains f.start = true → f.isIndexed = false → ∃ e ∈ g.elements, b.find? f.start = some e) := by
  by_cases hstart : a.contains f.start = true ∨ f.isIndexed = true
  · rw [run, if_pos (by simpa using hstart), mem_extend_iff hg ha hdeps hstart]
    refine (and_iff_left fun hbound hindexed => ?_).symm
    rw [hindexed] at hstart
    exact absurd hstart (by simp [hbound])
  · obtain ⟨hbound, hindexed⟩ := not_or.mp hstart
    have hindexed := Bool.eq_false_of_not_eq_true hindexed
    have hempty : f.dependencies = .empty := by
      by_contra hne
      exact hbound (hdeps _ (start_mem_dependencies hne))
    rw [mem_run_iff_of_scan hg ha hempty (Bool.eq_false_of_not_eq_true hbound) hindexed]
    exact and_congr_right fun _ => ⟨fun h _ _ => h, fun h => h hbound hindexed⟩

/-- What an outward step starts from is an instance. -/
theorem Holds.start_mem_elements (hg : g.WellFormed) (h : f.Holds g b)
    (hdir : f.direction = .outward) (hdeps : f.dependencies = .empty)
    (hindexed : f.isIndexed = false) : ∃ e ∈ g.elements, b.find? f.start = some e := by
  cases f with
  | identity v id | labelled v l | valued v p => cases hindexed
  | inIsa type thing => cases hdir
  | inPlayer link => cases hdir
  | outIsa thing type =>
    obtain ⟨i, t, hisA, hi, -⟩ := h
    exact ⟨_, hg.mem_elements.mpr ⟨i, (hg.isA_holds hisA).1, rfl⟩, hi⟩
  | outPlayer link =>
    obtain ⟨r, c, hplays, -, hr, -⟩ := h
    obtain ⟨hrelation, rfl, -⟩ := hg.plays_holds hplays
    exact ⟨_, hg.mem_elements.mpr ⟨c.relation, hrelation, rfl⟩, hr⟩
  | neq left right =>
    have hleft : left ∈ (neq left right).dependencies := by simp [dependencies]
    rw [hdeps] at hleft
    exact absurd hleft (SortedSet.not_mem_empty left)

/-- A fragment can make its step from an assignment of `bound` without losing an answer. -/
structure Ready (f : Fragment) (bound : Var → Prop) : Prop where
  dependencies : ∀ v ∈ f.dependencies, bound v
  start : bound f.start ∨ f.isIndexed = true ∨
    f.dependencies = .empty ∧ f.direction = .outward

end Fragment

end GraphInference
