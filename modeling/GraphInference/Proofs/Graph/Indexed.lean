import GraphInference.Graph.Indexed
import GraphInference.Proofs.Graph.Ledger

/-!
# Indexed graphs are graphs

An indexed graph represents a graph if each of its maps gives what the look-up on the lists of the graph
gives. Every update does to the maps what the operation does to the lists, with the same result, and a
failing one writes nothing (`Update.does_perform`); so the maps represent the graph after any history.
-/

namespace GraphInference

/-! ## Indexes -/

namespace IndexedGraph

variable {α : Type}

/-- The values that the entries of a list have at a key. -/
def valuesAt (l : List (ConceptId × α)) (k : ConceptId) : List α :=
  l.filterMap fun e => if e.1 = k then some e.2 else none

/-- The map has, at each key of the list, the values that the list has there. -/
def Indexes (m : SortedMap ConceptId (List α)) (l : List (ConceptId × α)) : Prop :=
  ∀ k, m.find? k = if valuesAt l k = [] then none else some (valuesAt l k)

variable {m : SortedMap ConceptId (List α)} {l : List (ConceptId × α)}

theorem indexes_empty : Indexes (.empty : SortedMap ConceptId (List α)) [] :=
  fun _ => rfl

theorem mem_valuesAt {k : ConceptId} {a : α} : a ∈ valuesAt l k ↔ (k, a) ∈ l := by
  simp [valuesAt]

theorem Indexes.listAt_eq (h : Indexes m l) (k : ConceptId) : listAt m k = valuesAt l k := by
  rw [listAt, h]
  split
  · next hnil => exact hnil.symm
  · rfl

theorem Indexes.eq_of_find? (h : Indexes m l) {k : ConceptId} {vs : List α} (hvs : m.find? k = some vs) :
    vs = valuesAt l k ∧ vs ≠ [] := by
  rw [h] at hvs
  split at hvs
  · cases hvs
  · next hne =>
    obtain rfl := Option.some.inj hvs
    exact ⟨rfl, hne⟩

theorem Indexes.push (h : Indexes m l) (k : ConceptId) (a : α) :
    Indexes (push m k a) (l ++ [(k, a)]) := by
  intro j
  rw [IndexedGraph.push, h.listAt_eq]
  by_cases hj : j = k
  · subst hj
    rw [SortedMap.find?_insert_self]
    simp [valuesAt]
  · have hvalues : valuesAt (l ++ [(k, a)]) j = valuesAt l j := by simp [valuesAt, Ne.symm hj]
    rw [SortedMap.find?_insert_of_ne _ _ hj, hvalues, h]

/-- Each entry of a list stands at one key. -/
theorem perm_flatMap_valuesAt {ks : List ConceptId} (hks : ks.Nodup) (l : List (ConceptId × α))
    (h : ∀ e ∈ l, e.1 ∈ ks) : (ks.flatMap (valuesAt l)).Perm (l.map (·.2)) := by
  induction l with
  | nil => simp [valuesAt]
  | cons e l ih =>
    obtain ⟨he, hl⟩ := List.forall_mem_cons.mp h
    have hcons : valuesAt (e :: l) = fun k => (if e.1 = k then [e.2] else []) ++ valuesAt l k := by
      funext k
      by_cases hk : e.1 = k <;> simp [valuesAt, hk]
    have hone : ks.flatMap (fun k => if e.1 = k then [e.2] else []) = [e.2] := by
      clear ih hl h hcons
      induction ks with
      | nil => cases he
      | cons k ks ih =>
        obtain ⟨hk, hks⟩ := List.nodup_cons.mp hks
        rw [List.flatMap_cons]
        rcases List.mem_cons.mp he with rfl | he
        · have hnone : ks.flatMap (fun k => if e.1 = k then [e.2] else []) = [] :=
            List.flatMap_eq_nil_iff.mpr fun k hk' => if_neg fun h : e.1 = k => hk (h ▸ hk')
          rw [if_pos rfl, hnone, List.append_nil]
        · rw [if_neg fun h : e.1 = k => hk (h ▸ he), List.nil_append, ih hks he]
    rw [hcons]
    refine (List.flatMap_append_perm ks _ _).symm.trans ?_
    rw [hone]
    exact (ih hl).cons _

/-- The lists of an index together are the values of the list that it indexes. -/
theorem Indexes.perm (h : Indexes m l) : (m.entries.flatMap (·.2)).Perm (l.map (·.2)) := by
  have hentries : m.entries.flatMap (·.2) = m.keys.flatMap (valuesAt l) := by
    rw [SortedMap.keys, List.flatMap_map]
    exact List.flatMap_congr fun e he => (h.eq_of_find? (SortedMap.find?_eq_some_iff.mpr he)).1
  rw [hentries]
  refine perm_flatMap_valuesAt m.nodup_keys l fun e he => ?_
  rw [SortedMap.mem_keys_iff, SortedMap.contains, h, if_neg]
  · rfl
  · exact List.ne_nil_of_mem (mem_valuesAt.mpr he)

/-- What is true of the keys and values of a list is true of those of its index. -/
theorem Indexes.forall_entries (h : Indexes m l) {p : ConceptId → Prop} {q : α → Prop}
    (hl : ∀ k v, (k, v) ∈ l → p k ∧ q v) {k : ConceptId} {vs : List α} (hmem : (k, vs) ∈ m.entries) :
    p k ∧ ∀ v ∈ vs, q v := by
  obtain ⟨rfl, hne⟩ := h.eq_of_find? (SortedMap.find?_eq_some_iff.mpr hmem)
  obtain ⟨v, hv⟩ := List.exists_mem_of_ne_nil _ hne
  exact ⟨(hl k v (mem_valuesAt.mp hv)).1, fun v hv => (hl k v (mem_valuesAt.mp hv)).2⟩

/-! ## Representation -/

/-- The maps give what the look-ups on the lists of a graph give. -/
structure Represents (s : IndexedGraph) (g : Graph) : Prop where
  concepts : ∀ id, s.concepts.find? id = g.concept? id
  labels : ∀ l, s.labels.find? l = g.labelled? l
  parents : s.parents = g.parents
  instances : Indexes s.instances (g.concepts.filterMap fun c => c.typeId.map (·, c.id))
  castings : Indexes s.castings (g.castings.map fun c => (c.relation, c))
  castingsByPlayer : Indexes s.castingsByPlayer (g.castings.map fun c => (c.player, c))
  edges : ∀ id, s.edges.find? id = g.edge? id
  edgesByOwner : Indexes s.edgesByOwner (g.edges.map fun e => (e.owner, e.id))
  edgesByValue : Indexes s.edgesByValue (g.edges.map fun e => (e.value, e.id))
  things : s.things = g.things
  lastId : s.lastId = g.lastId

theorem represents_empty : Represents {} {} where
  concepts _ := rfl
  labels _ := rfl
  parents := rfl
  instances := indexes_empty
  castings := indexes_empty
  castingsByPlayer := indexes_empty
  edges _ := rfl
  edgesByOwner := indexes_empty
  edgesByValue := indexes_empty
  things := rfl
  lastId := rfl

variable {s : IndexedGraph} {g : Graph}

theorem attributeLabel?_eq (hs : s.Represents g) (id : ConceptId) :
    s.attributeLabel? id = g.attributeLabel? id := by
  simp only [IndexedGraph.attributeLabel?, Graph.attributeLabel?, hs.concepts]

/-- The values that a list of concepts, castings or edges has at a key are those that it is filtered
for. -/
theorem valuesAt_map {γ : Type} (l : List γ) (key : γ → ConceptId) (val : γ → α) (k : ConceptId) :
    valuesAt (l.map fun a => (key a, val a)) k = (l.filter (key · = k)).map val := by
  induction l with
  | nil => rfl
  | cons a l ih => by_cases h : key a = k <;> simp_all [valuesAt]

theorem castingsOf_eq (hs : s.Represents g) (r : ConceptId) : s.castingsOf r = g.castingsOf r := by
  rw [castingsOf, hs.castings.listAt_eq, valuesAt_map, List.map_id', Graph.castingsOf]

theorem castingsBy_eq (hs : s.Represents g) (p : ConceptId) : s.castingsBy p = g.castingsBy p := by
  rw [castingsBy, hs.castingsByPlayer.listAt_eq, valuesAt_map, List.map_id', Graph.castingsBy]

theorem instancesOf_eq (hs : s.Represents g) (t : ConceptId) : s.instancesOf t = g.instances t := by
  have hmap (l : List Concept) : valuesAt (l.filterMap fun c => c.typeId.map (·, c.id)) t =
      (l.filter (·.typeId = some t)).map Concept.id := by
    induction l with
    | nil => rfl
    | cons c l ih =>
      cases hc : c.typeId with
      | none => simp [hc, ih]
      | some t' => by_cases ht : t' = t <;> simp_all [valuesAt]
  rw [instancesOf, hs.instances.listAt_eq, hmap, Graph.instances]

theorem edgesFrom_eq (hs : s.Represents g) (hg : g.WellFormed) (o : ConceptId) :
    s.edgesFrom o = g.edgesFrom o := by
  rw [edgesFrom, hs.edgesByOwner.listAt_eq, valuesAt_map, List.filterMap_map, Graph.edgesFrom]
  refine (List.filterMap_congr fun e he => ?_).trans (List.filterMap_some)
  exact (hs.edges e.id).trans (hg.edge?_id (List.mem_filter.mp he).1)

theorem edgesTo_eq (hs : s.Represents g) (hg : g.WellFormed) (v : ConceptId) :
    s.edgesTo v = g.edgesTo v := by
  rw [edgesTo, hs.edgesByValue.listAt_eq, valuesAt_map, List.filterMap_map, Graph.edgesTo]
  refine (List.filterMap_congr fun e he => ?_).trans (List.filterMap_some)
  exact (hs.edges e.id).trans (hg.edge?_id (List.mem_filter.mp he).1)

theorem attribute?_eq (hs : s.Represents g) (hg : g.WellFormed) (t : ConceptId) (value : Value) :
    s.attribute? t value = g.attribute? t value := by
  rw [attribute?, instancesOf_eq hs, Graph.instances, List.find?_map, Graph.attribute?, List.find?_filter]
  congr 1
  refine List.find?_congr fun c hc => ?_
  have hvalue : (s.concepts.find? c.id).bind (·.value) = c.value := by
    rw [hs.concepts, hg.concept?_id hc]
    rfl
  simp [hvalue]

/-! ### A concept more -/

section Entry

variable {h : Graph} {c : Concept} {a : Char}

theorem insert_concepts (hs : s.Represents g) (hg : g.WellFormed) (hid : c.id = g.nextId a)
    (hconcepts : h.concepts = g.concepts ++ [c]) (j : ConceptId) :
    (s.concepts.insert c.id c).find? j = h.concept? j := by
  have hfresh : g.concept? c.id = none := by
    rw [← Option.not_isSome_iff_eq_none, Graph.isSome_concept?_iff, hid]
    exact hg.nextId_fresh a
  rw [Graph.concept?, hconcepts, List.find?_append, ← Graph.concept?]
  by_cases hj : j = c.id
  · subst hj
    rw [SortedMap.find?_insert_self, hfresh]
    simp
  · rw [SortedMap.find?_insert_of_ne _ _ hj, hs.concepts]
    simp [Ne.symm hj]

theorem labelled?_entry (hconcepts : h.concepts = g.concepts ++ [c]) (hc : c.label = none) (l : Label) :
    h.labelled? l = g.labelled? l := by
  rw [Graph.labelled?, hconcepts, List.find?_append, Graph.labelled?]
  simp [hc]

theorem insert_labels (hs : s.Represents g) (hconcepts : h.concepts = g.concepts ++ [c]) {l : Label}
    (hc : c.label = some l) (hl : g.labelled? l = none) (j : Label) :
    (s.labels.insert l c.id).find? j = h.labelled? j := by
  rw [Graph.labelled?, hconcepts, List.find?_append, Option.map_or, ← Graph.labelled?]
  by_cases hj : j = l
  · subst hj
    rw [SortedMap.find?_insert_self, hl]
    simp [hc]
  · rw [SortedMap.find?_insert_of_ne _ _ hj, hs.labels]
    simp [hc, Ne.symm hj]

theorem insert_edges (hs : s.Represents g) (hg : g.WellFormed) {e : HasEdge} (hid : e.id = g.nextId a)
    (hedges : h.edges = g.edges ++ [e]) (j : ConceptId) :
    (s.edges.insert e.id e).find? j = h.edge? j := by
  rw [Graph.edge?, hedges, List.find?_append, ← Graph.edge?]
  by_cases hj : j = e.id
  · subst hj
    rw [SortedMap.find?_insert_self, hid, hg.edge?_nextId a, ← hid]
    simp
  · rw [SortedMap.find?_insert_of_ne _ _ hj, hs.edges]
    simp [Ne.symm hj]

/-- An instance is a thing of its own unless it is an edge. -/
theorem things_entry (hg : g.WellFormed) (hid : c.id = g.nextId a)
    (hconcepts : h.concepts = g.concepts ++ [c]) {edges : List HasEdge}
    (hedges : h.edges = g.edges ++ edges) (hnew : ∀ e ∈ edges, e.id = c.id) :
    h.things = g.things ++ if c.kind.isThing = true ∧ edges = [] then [c.id] else [] := by
  have hold : g.concepts.filter (fun d => d.kind.isThing && (h.edge? d.id).isNone) =
      g.concepts.filter fun d => d.kind.isThing && (g.edge? d.id).isNone := by
    refine List.filter_congr fun d hd => ?_
    rw [Graph.edge?_of_append hedges fun e he heq => ?_]
    exact hg.nextId_fresh a ⟨d, hd, heq.symm.trans ((hnew e he).trans hid)⟩
  rw [Graph.things, hconcepts, List.filter_append, List.map_append, hold, Graph.things]
  congr 1
  cases edges with
  | nil =>
    have hnone : h.edge? c.id = none := by
      rw [Graph.edge?_of_append hedges (by simp), hid]
      exact hg.edge?_nextId a
    by_cases hk : c.kind.isThing = true <;> simp [hk, hnone]
  | cons e edges =>
    have hsome : (h.edge? c.id).isSome := Graph.isSome_edge?_iff.mpr
      ⟨e, hedges ▸ List.mem_append_right _ (.head _), hnew e (.head _)⟩
    simp [Option.isSome_iff_ne_none.mp hsome]

end Entry

end IndexedGraph

/-! ## Updates -/

namespace Update

open IndexedGraph

variable {α β : Type} {s : IndexedGraph} {g : Graph}

/-- On maps that represent a graph the update does what is done to the graph: it gives the same result
and maps that represent the new graph, or fails with the same error and writes nothing. -/
def Does (u : Update α) (s : IndexedGraph) : Except InferenceError (α × Graph) → Prop
  | .ok (a, h) => ∃ t, u.run s = (.ok a, t) ∧ t.Represents h
  | .error e => u.run s = (.error e, s)

theorem Does.congr {u v : Update α} {s : IndexedGraph} {r : Except InferenceError (α × Graph)}
    (h : v.Does s r) (huv : u.run s = v.run s) : u.Does s r := by
  cases r <;> simpa [Does, huv] using h

theorem run_bind (x : Update α) (f : α → Update β) (s : IndexedGraph) :
    (x >>= f).run s = ExceptT.bindCont f (x.run s).1 (x.run s).2 := rfl

theorem run_bind_ok {x : Update α} {f : α → Update β} {s t : IndexedGraph} {a : α}
    (hx : x.run s = (.ok a, t)) : (x >>= f).run s = (f a).run t := by
  rw [run_bind, hx]
  rfl

/-- A check writes nothing; what follows it is done to the same maps. -/
theorem Does.check {x : Update α} {f : α → Update β} {r : Except InferenceError α}
    {k : α → Except InferenceError (β × Graph)} (hx : x.run s = (r, s))
    (hf : ∀ a, r = .ok a → (f a).Does s (k a)) : (x >>= f).Does s (r >>= k) := by
  cases r with
  | error e =>
    show (x >>= f).run s = (.error e, s)
    rw [run_bind, hx]
    rfl
  | ok a => exact (hf a rfl).congr (run_bind_ok hx)

/-- After an addition there is no check. -/
theorem Does.add {x : Update α} {f : α → Update β} {a : α} {h : Graph} {r : β × Graph}
    (hx : x.Does s (.ok (a, h))) (hf : ∀ t, t.Represents h → (f a).Does t (.ok r)) :
    (x >>= f).Does s (.ok r) := by
  obtain ⟨t, hxt, ht⟩ := hx
  obtain ⟨u, hfu, hu⟩ := hf t ht
  exact ⟨u, (run_bind_ok hxt).trans hfu, hu⟩

/-! ### Checks -/

theorem run_ofKind (hs : s.Represents g) (kind : Kind) (l : Label) :
    (ofKind kind l).run s = (g.ofKind kind l, s) := by
  rw [ofKind, run_bind_ok (rfl : (get : Update IndexedGraph).run s = (.ok s, s)), Graph.ofKind,
    hs.labels]
  cases g.labelled? l with
  | none => rfl
  | some id =>
    rw [Option.bind_some, Option.filter_some, hs.concepts]
    cases hc : g.concept? id with
    | none => rfl
    | some c =>
      obtain ⟨-, rfl⟩ := Graph.concept?_eq_some hc
      by_cases hk : c.kind = kind
      · simp only [Option.map_some, hk, decide_true, if_true]
        rfl
      · simp only [Option.map_some, Option.some.injEq, hk, decide_false, if_false, Bool.false_eq_true]
        rfl

theorem run_require (hs : s.Represents g) (id : ConceptId) :
    (require id).run s = (g.require id, s) := by
  rw [require, run_bind_ok (rfl : (get : Update IndexedGraph).run s = (.ok s, s)), Graph.require,
    SortedMap.contains, hs.concepts]
  cases (g.concept? id).isSome <;> rfl

/-- Two checks are a check. -/
theorem run_bind_check {x : Update α} {f : α → Update β} {r : Except InferenceError α}
    {k : α → Except InferenceError β} (hx : x.run s = (r, s))
    (hf : ∀ a, (f a).run s = (k a, s)) : (x >>= f).run s = (r >>= k, s) := by
  rw [run_bind, hx]
  cases r with
  | error e => rfl
  | ok a => exact hf a

theorem run_forM_check {γ : Type} {f : γ → Update Unit} {k : γ → Except InferenceError Unit}
    (h : ∀ a, (f a).run s = (k a, s)) (l : List γ) : (l.forM f).run s = (l.forM k, s) := by
  induction l with
  | nil => rfl
  | cons a l ih => exact run_bind_check (h a) fun _ => ih

/-! ### Additions -/

theorem run_newId (hs : s.Represents g) (a : Char) :
    (newId a).run s = (.ok (g.nextId a), { s with lastId := s.lastId + 1 }) := by
  rw [Graph.nextId, ← hs.lastId]
  rfl

theorem does_define (hs : s.Represents g) (hg : g.WellFormed) {kind : Kind} (hk : kind.isThing = false)
    (l : Label) : (define kind l).Does s (.ok (g.define kind l)) := by
  unfold define
  refine Does.congr ?_ (run_bind_ok (rfl : (get : Update IndexedGraph).run s = (.ok s, s)))
  rw [hs.labels, Graph.define]
  cases hl : g.labelled? l with
  | some id => exact ⟨s, rfl, hs⟩
  | none =>
    let c : Concept := ⟨g.nextId 'T', kind, some l, none, none⟩
    refine ⟨{ s with
      concepts := s.concepts.insert c.id c
      labels := s.labels.insert l c.id
      lastId := s.lastId + 1 }, run_bind_ok (run_newId hs 'T'), ?_⟩
    refine ⟨insert_concepts hs hg rfl rfl, insert_labels hs rfl rfl hl, hs.parents, ?_, hs.castings,
      hs.castingsByPlayer, hs.edges, hs.edgesByOwner, hs.edgesByValue, ?_,
      congrArg (· + 1) hs.lastId⟩
    · show Indexes s.instances ((g.concepts ++ [c]).filterMap _)
      simpa [c] using hs.instances
    · have hthings := things_entry (c := c) (h := (g.addConcept 'T' kind (some l) none none).2) hg rfl rfl
        (List.append_nil g.edges).symm (by simp)
      refine Eq.trans ?_ hthings.symm
      simpa [c, hk] using hs.things

theorem does_addThing (hs : s.Represents g) (hg : g.WellFormed) {kind : Kind}
    (hk : kind.isThing = true) (t : ConceptId) (value : Option Value) :
    (addThing t kind value).Does s (.ok (g.addConcept 'V' kind none (some t) value)) := by
  let c : Concept := ⟨g.nextId 'V', kind, none, some t, value⟩
  refine ⟨{ s with
    concepts := s.concepts.insert c.id c
    instances := push s.instances t c.id
    things := s.things ++ [c.id]
    lastId := s.lastId + 1 }, run_bind_ok (run_newId hs 'V'), ?_⟩
  refine ⟨insert_concepts hs hg rfl rfl, fun l => ?_, hs.parents, ?_, hs.castings,
    hs.castingsByPlayer, hs.edges, hs.edgesByOwner, hs.edgesByValue, ?_, congrArg (· + 1) hs.lastId⟩
  · rw [labelled?_entry (c := c) rfl rfl]
    exact hs.labels l
  · show Indexes (push s.instances t c.id) ((g.concepts ++ [c]).filterMap _)
    rw [List.filterMap_append]
    exact hs.instances.push t c.id
  · have hthings := things_entry (c := c) (h := (g.addConcept 'V' kind none (some t) value).2) hg rfl rfl
      (List.append_nil g.edges).symm (by simp)
    refine Eq.trans ?_ hthings.symm
    simpa [c, hk] using hs.things

theorem does_addCastings (hs : s.Represents g) (r : ConceptId) (players : List (Label × ConceptId)) :
    (players.forM fun p => addCasting ⟨r, p.1, p.2⟩).Does s
      (.ok ((), { g with castings := g.castings ++ players.map fun p => ⟨r, p.1, p.2⟩ })) := by
  induction players generalizing s g with
  | nil => exact ⟨s, rfl, by simpa using hs⟩
  | cons p players ih =>
    let k : Casting := ⟨r, p.1, p.2⟩
    have hk : (addCasting k).Does s (.ok ((), { g with castings := g.castings ++ [k] })) := by
      refine ⟨{ s with
        castings := push s.castings k.relation k
        castingsByPlayer := push s.castingsByPlayer k.player k }, rfl, ?_⟩
      refine ⟨hs.concepts, hs.labels, hs.parents, hs.instances, ?_, ?_, hs.edges, hs.edgesByOwner,
        hs.edgesByValue, hs.things, hs.lastId⟩
      · rw [List.map_append]
        exact hs.castings.push k.relation k
      · rw [List.map_append]
        exact hs.castingsByPlayer.push k.player k
    refine Does.add hk fun t ht => ?_
    have h := ih ht
    rwa [List.append_assoc] at h

/-- An edge stands in every index of an instance but the one of vertices. -/
theorem does_addHas (hs : s.Represents g) (hg : g.WellFormed) (owner value : ConceptId) :
    (addHas owner value).Does s (g.addHas owner value) := by
  refine Does.check (run_require hs owner) fun _ _ => ?_
  refine Does.congr ?_ (run_bind_ok (rfl : (get : Update IndexedGraph).run s = (.ok s, s)))
  rw [attributeLabel?_eq hs]
  cases g.attributeLabel? value with
  | none => rfl
  | some owned =>
    refine Does.check (run_ofKind hs _ _) fun t _ => ?_
    let c : Concept := ⟨g.nextId 'E', .relation, none, some t, none⟩
    let e : HasEdge := ⟨c.id, owned, owner, value⟩
    refine ⟨{ s with
      concepts := s.concepts.insert c.id c
      instances := push s.instances t c.id
      edges := s.edges.insert c.id e
      edgesByOwner := push s.edgesByOwner owner c.id
      edgesByValue := push s.edgesByValue value c.id
      lastId := s.lastId + 1 }, run_bind_ok (run_newId hs 'E'), ?_⟩
    refine ⟨insert_concepts hs hg rfl rfl, fun l => ?_, hs.parents, ?_, hs.castings,
      hs.castingsByPlayer, insert_edges (e := e) hs hg rfl rfl, ?_, ?_, ?_,
      congrArg (· + 1) hs.lastId⟩
    · rw [labelled?_entry (c := c) rfl rfl]
      exact hs.labels l
    · show Indexes (push s.instances t c.id) ((g.concepts ++ [c]).filterMap _)
      rw [List.filterMap_append]
      exact hs.instances.push t c.id
    · show Indexes (push s.edgesByOwner owner c.id) ((g.edges ++ [e]).map _)
      rw [List.map_append]
      exact hs.edgesByOwner.push owner c.id
    · show Indexes (push s.edgesByValue value c.id) ((g.edges ++ [e]).map _)
      rw [List.map_append]
      exact hs.edgesByValue.push value c.id
    · have hthings := things_entry (c := c) (h := { (g.addConcept 'E' .relation none (some t) none).2 with
        edges := g.edges ++ [e] }) hg rfl rfl rfl (by simp [e])
      refine Eq.trans ?_ hthings.symm
      simpa using hs.things

/-! ### Operations -/

theorem does_defineRoles (hs : s.Represents g) (hg : g.WellFormed) (roles : List Label) :
    (roles.forM fun role => do let _ ← defineRole role).Does s
      (.ok ((), roles.foldl (fun g role => (g.defineRole role).2) g)) := by
  induction roles generalizing s g with
  | nil => exact ⟨s, rfl, hs⟩
  | cons role roles ih =>
    refine Does.add (h := (g.defineRole role).2) (a := ()) ?_ fun t ht =>
      ih ht (hg.steps (g.steps_define rfl role))
    exact Does.add (does_define hs hg rfl role) fun t ht => ⟨t, rfl, ht⟩

theorem does_defineRelationType (hs : s.Represents g) (hg : g.WellFormed) (l : Label)
    (roles : List Label) : (defineRelationType l roles).Does s (.ok (g.defineRelationType l roles)) :=
  Does.add (does_defineRoles hs hg roles) fun _ ht =>
    does_define ht (hg.steps (Graph.steps_defineRoles roles g)) rfl l

theorem does_defineAttributeType (hs : s.Represents g) (hg : g.WellFormed) (l : Label) :
    (defineAttributeType l).Does s (.ok (g.defineAttributeType l)) := by
  have hrole {g : Graph} (hg : g.WellFormed) (r : Label) : (g.define .role r).2.WellFormed :=
    hg.steps (g.steps_define rfl r)
  refine Does.add (does_define hs hg rfl _) fun t ht => ?_
  have hg := hrole hg l.ownerRole
  refine Does.add (does_define ht hg rfl _) fun t ht => ?_
  have hg := hrole hg l.valueRole
  refine Does.add (does_define ht hg rfl _) fun t ht => ?_
  exact does_define ht (hg.steps (Graph.steps_define _ rfl _)) rfl l

/-- The type of a label, as it is looked up for its parent to be set. -/
def typeLabelled (l : Label) : Update ConceptId := do
  match (← get).labels.find? l with
  | some id => return id
  | none => throw (.unknownSchemaConcept ("no type labelled '" ++ l.text ++ "'"))

/-- The type of a label in the graph. -/
def typeLabelledIn (g : Graph) (l : Label) : Except InferenceError ConceptId :=
  match g.labelled? l with
  | some id => .ok id
  | none => .error (.unknownSchemaConcept ("no type labelled '" ++ l.text ++ "'"))

theorem run_typeLabelled (hs : s.Represents g) (l : Label) :
    (typeLabelled l).run s = (typeLabelledIn g l, s) := by
  rw [typeLabelled, run_bind_ok (rfl : (get : Update IndexedGraph).run s = (.ok s, s)), hs.labels,
    typeLabelledIn]
  cases g.labelled? l <;> rfl

theorem does_setSupertype (hs : s.Represents g) (sub sup : Label) :
    (setSupertype sub sup).Does s ((g.setSupertype sub sup).map ((), ·)) := by
  have hmap : (g.setSupertype sub sup).map ((), ·) = typeLabelledIn g sub >>= fun a =>
      typeLabelledIn g sup >>= fun b => .ok ((), { g with parents := g.parents.insert a b }) := by
    show (typeLabelledIn g sub >>= fun a => typeLabelledIn g sup >>= fun b => _).map _ = _
    cases typeLabelledIn g sub with
    | error e => rfl
    | ok a => cases typeLabelledIn g sup <;> rfl
  rw [hmap]
  refine Does.check (run_typeLabelled hs sub) fun a _ => Does.check (run_typeLabelled hs sup) fun b _ => ?_
  refine ⟨{ s with parents := s.parents.insert a b }, rfl, ?_⟩
  exact ⟨hs.concepts, hs.labels, congrArg (·.insert a b) hs.parents, hs.instances, hs.castings,
    hs.castingsByPlayer, hs.edges, hs.edgesByOwner, hs.edgesByValue, hs.things, hs.lastId⟩

theorem does_addEntity (hs : s.Represents g) (hg : g.WellFormed) (type : Label) :
    (addEntity type).Does s (g.addEntity type) :=
  Does.check (run_ofKind hs _ _) fun t _ => does_addThing hs hg rfl t none

theorem does_addRelation (hs : s.Represents g) (hg : g.WellFormed) (type : Label)
    (players : List (Label × ConceptId)) :
    (addRelation type players).Does s (g.addRelation type players) := by
  refine Does.check (run_ofKind hs _ _) fun t _ => ?_
  refine Does.check (run_forM_check (fun p => ?_) players) fun _ _ => ?_
  · exact run_bind_check (run_ofKind hs .role p.1) fun _ => run_require hs p.2
  · refine Does.add (does_addThing hs hg rfl t none) fun u hu => ?_
    exact Does.add (does_addCastings hu _ players) fun v hv => ⟨v, rfl, hv⟩

theorem does_addAttribute (hs : s.Represents g) (hg : g.WellFormed) (type : Label) (value : Value) :
    (addAttribute type value).Does s (g.addAttribute type value) := by
  refine Does.check (run_ofKind hs _ _) fun t _ => ?_
  refine Does.congr ?_ (run_bind_ok (rfl : (get : Update IndexedGraph).run s = (.ok s, s)))
  rw [attribute?_eq hs hg]
  cases g.attribute? t value with
  | some id => exact ⟨s, rfl, hs⟩
  | none => exact does_addThing hs hg rfl t (some value)

/-- An operation as an update; making a type the parent of another gives no identifier. -/
def perform : Graph.Operation → Update (Option ConceptId)
  | .entityType l => some <$> defineEntityType l
  | .role l => some <$> defineRole l
  | .relationType l roles => some <$> defineRelationType l roles
  | .attributeType l => some <$> defineAttributeType l
  | .supertype sub sup => (fun _ => none) <$> setSupertype sub sup
  | .entity type => some <$> addEntity type
  | .relation type players => some <$> addRelation type players
  | .attr type value => some <$> addAttribute type value
  | .has owner value => some <$> addHas owner value

end Update

/-- What an operation gives and the graph that it makes. -/
def Graph.attempt (g : Graph) : Operation → Except InferenceError (Option ConceptId × Graph)
  | .entityType l => (.ok (g.defineEntityType l) : Except _ _).map (Prod.map some id)
  | .role l => (.ok (g.defineRole l) : Except _ _).map (Prod.map some id)
  | .relationType l roles => (.ok (g.defineRelationType l roles) : Except _ _).map (Prod.map some id)
  | .attributeType l => (.ok (g.defineAttributeType l) : Except _ _).map (Prod.map some id)
  | .supertype sub sup => (g.setSupertype sub sup).map (none, ·)
  | .entity type => (g.addEntity type).map (Prod.map some id)
  | .relation type players => (g.addRelation type players).map (Prod.map some id)
  | .attr type value => (g.addAttribute type value).map (Prod.map some id)
  | .has owner value => (g.addHas owner value).map (Prod.map some id)

theorem Graph.perform_eq_attempt (g : Graph) (op : Operation) :
    g.perform op = match g.attempt op with
      | .ok r => r.2
      | .error _ => g := by
  cases op with
  | entityType l | role l | relationType l roles | attributeType l => rfl
  | supertype sub sup =>
    rw [perform, attempt]
    cases g.setSupertype sub sup <;> rfl
  | entity type =>
    rw [perform, attempt]
    cases g.addEntity type <;> rfl
  | relation type players =>
    rw [perform, attempt]
    cases g.addRelation type players <;> rfl
  | attr type value =>
    rw [perform, attempt]
    cases g.addAttribute type value <;> rfl
  | has owner value =>
    rw [perform, attempt]
    cases g.addHas owner value <;> rfl

namespace Update

variable {α β : Type} {s : IndexedGraph} {g : Graph}

theorem Does.map {u : Update α} {r : Except InferenceError (α × Graph)} (h : u.Does s r) (f : α → β) :
    (f <$> u).Does s (r.map (Prod.map f id)) := by
  cases r with
  | error e =>
    show (u >>= fun a => pure (f a)).run s = (.error e, s)
    rw [run_bind, h]
    rfl
  | ok r =>
    obtain ⟨t, hu, ht⟩ := h
    exact ⟨t, run_bind_ok hu, ht⟩

/-- An operation does to the maps what it does to the graph. -/
theorem does_perform (hs : s.Represents g) (hg : g.WellFormed) (op : Graph.Operation) :
    (perform op).Does s (g.attempt op) := by
  cases op with
  | entityType l | role l => exact (does_define hs hg rfl l).map some
  | relationType l roles => exact (does_defineRelationType hs hg l roles).map some
  | attributeType l => exact (does_defineAttributeType hs hg l).map some
  | supertype sub sup =>
    have h := (does_setSupertype hs sub sup).map fun _ => (none : Option ConceptId)
    rw [Graph.attempt]
    cases hr : g.setSupertype sub sup with
    | error e => rwa [hr] at h
    | ok k => rwa [hr] at h
  | entity type => exact (does_addEntity hs hg type).map some
  | relation type players => exact (does_addRelation hs hg type players).map some
  | attr type value => exact (does_addAttribute hs hg type value).map some
  | has owner value => exact (does_addHas hs hg owner value).map some

end Update

/-! ## Histories -/

namespace IndexedGraph

variable {s : IndexedGraph} {g : Graph}

/-- The maps after an operation, which may have failed. -/
def after (s : IndexedGraph) (op : Graph.Operation) : IndexedGraph :=
  ((Update.perform op).run s).2

/-- What the operation gives. -/
def result (s : IndexedGraph) (op : Graph.Operation) : Except InferenceError (Option ConceptId) :=
  ((Update.perform op).run s).1

theorem Represents.after (hs : s.Represents g) (hg : g.WellFormed) (op : Graph.Operation) :
    (s.after op).Represents (g.perform op) := by
  have h := Update.does_perform hs hg op
  rw [IndexedGraph.after, Graph.perform_eq_attempt]
  cases hr : g.attempt op with
  | error e =>
    rw [hr] at h
    rw [show (Update.perform op).run s = (.error e, s) from h]
    exact hs
  | ok r =>
    rw [hr] at h
    obtain ⟨t, hrun, ht⟩ := h
    rw [hrun]
    exact ht

theorem Represents.result_eq (hs : s.Represents g) (hg : g.WellFormed) (op : Graph.Operation) :
    s.result op = (g.attempt op).map (·.1) := by
  have h := Update.does_perform hs hg op
  rw [result]
  cases hr : g.attempt op with
  | error e =>
    rw [hr] at h
    rw [show (Update.perform op).run s = (.error e, s) from h]
    rfl
  | ok r =>
    rw [hr] at h
    obtain ⟨t, hrun, -⟩ := h
    rw [hrun]
    rfl

/-- An operation that fails leaves everything as it was. -/
theorem Represents.after_of_error (hs : s.Represents g) (hg : g.WellFormed) {op : Graph.Operation}
    {e : InferenceError} (he : s.result op = .error e) : s.after op = s := by
  have h := Update.does_perform hs hg op
  rw [hs.result_eq hg] at he
  cases hr : g.attempt op with
  | error e' =>
    rw [hr] at h
    rw [IndexedGraph.after, show (Update.perform op).run s = (.error e', s) from h]
  | ok r =>
    rw [hr] at he
    cases he

/-- The maps represent the graph after any history. -/
theorem represents_foldl (hs : s.Represents g) (hg : g.WellFormed) (ops : List Graph.Operation) :
    (ops.foldl IndexedGraph.after s).Represents (ops.foldl Graph.perform g) := by
  induction ops generalizing s g with
  | nil => exact hs
  | cons op ops ih => exact ih (hs.after hg op) (hg.steps (g.steps_perform op))

end IndexedGraph

end GraphInference
