import GraphInference.Proofs.Graph.Indexed
import GraphInference.Proofs.Graph.Record

/-!
# Consistency of the indexes

What the maps of an indexed graph have in common after any history of operations, successful or
failing: `consistent_ofHistory`. Identifiers, labels, instances, castings, edges, things and values are
read off the graph that the maps represent.
-/

namespace GraphInference.IndexedGraph

open GraphInference.Graph (Operation numbered)

/-- The maps after a history of operations on an empty graph. -/
def ofHistory (ops : List Operation) : IndexedGraph :=
  ops.foldl after {}

/-- The history has the operation, and it gave the identifier. -/
def Makes (ops : List Operation) (op : Operation) (id : ConceptId) : Prop :=
  ∃ before rest, ops = before ++ op :: rest ∧ (ofHistory before).result op = .ok (some id)

def Holds (s : IndexedGraph) (id : ConceptId) : Prop :=
  ∃ c, s.concepts.find? id = some c

/-- Every identifier that stands anywhere in the maps. -/
def mentioned (s : IndexedGraph) : List ConceptId :=
  s.concepts.entries.flatMap (fun (id, c) => id :: c.id :: c.typeId.toList) ++
  s.labels.entries.map (·.2) ++
  s.parents.entries.flatMap (fun (sub, sup) => [sub, sup]) ++
  s.instances.entries.flatMap (fun (type, ids) => type :: ids) ++
  (s.castings.entries ++ s.castingsByPlayer.entries).flatMap (fun (id, cs) =>
    id :: cs.flatMap fun c => [c.relation, c.player]) ++
  s.edges.entries.flatMap (fun (id, e) => [id, e.id, e.owner, e.value]) ++
  (s.edgesByOwner.entries ++ s.edgesByValue.entries).flatMap (fun (id, ids) => id :: ids) ++
  s.things

/-- The edge is of the implicit relation type of its attribute. -/
structure Owns (s : IndexedGraph) (e : HasEdge) : Prop where
  relation : ∃ c t d, s.concepts.find? e.id = some c ∧ c.kind = .relation ∧ c.typeId = some t ∧
    s.labels.find? e.owned.ownership = some t ∧ s.concepts.find? t = some d ∧ d.kind = .relationType
  value : ∃ c t, s.concepts.find? e.value = some c ∧ c.kind = .attr ∧ c.typeId = some t ∧
    s.labels.find? e.owned = some t

/-- The maps after a history agree with each other and with the history. -/
structure Consistent (ops : List Operation) (s : IndexedGraph) : Prop where
  /-- Every number that was given out names one concept. -/
  numbers : ∀ n, 0 < n → n ≤ s.lastId → ∃! id, s.Holds id ∧ ∃ a, id = numbered a n
  /-- Every concept is named by such a number. -/
  named : ∀ id, s.Holds id → ∃ a n, 0 < n ∧ n ≤ s.lastId ∧ id = numbered a n
  own_id : ∀ id c, s.concepts.find? id = some c → c.id = id
  /-- What an identifier named once it names ever after. -/
  kept : ∀ before rest, ops = before ++ rest →
    ∀ id c, (ofHistory before).concepts.find? id = some c → s.concepts.find? id = some c
  labels : ∀ l id, s.labels.find? l = some id ↔ ∃ c, s.concepts.find? id = some c ∧ c.label = some l
  instances : ∀ t id,
    id ∈ s.instancesOf t ↔ ∃ c, s.concepts.find? id = some c ∧ c.typeId = some t
  nodup_instances : ∀ t, (s.instancesOf t).Nodup
  casting_relation : ∀ r, ∀ k ∈ s.castingsOf r, k.relation = r
  casting_player : ∀ p, ∀ k ∈ s.castingsBy p, k.player = p
  /-- The castings by relation and those by player are the same, repetitions counted. -/
  perm_castings :
    (s.castings.entries.flatMap (·.2)).Perm (s.castingsByPlayer.entries.flatMap (·.2))
  /-- The castings of a relation are the list that it was added with. -/
  castings : ∀ type players r, Makes ops (.relation type players) r →
    s.castingsOf r = players.map fun p => ⟨r, p.1, p.2⟩
  /-- Only relations that were added have castings. -/
  relation : ∀ r, ∀ k ∈ s.castingsOf r, ∃ type players, Makes ops (.relation type players) r
  /-- The edges are the ownerships that were added. -/
  edges : ∀ owner value id, Makes ops (.has owner value) id ↔
    ∃ owned, s.edges.find? id = some ⟨id, owned, owner, value⟩
  own_edge_id : ∀ id e, s.edges.find? id = some e → e.id = id
  /-- An edge is found once from its owner and once from its value. -/
  edge_once : ∀ id e, s.edges.find? id = some e →
    (s.edgesFrom e.owner).count e = 1 ∧ (s.edgesTo e.value).count e = 1
  /-- An edge is found from no other concept. -/
  edge_ends : ∀ e, (∀ o, e ∈ s.edgesFrom o → s.edges.find? e.id = some e ∧ e.owner = o) ∧
    ∀ v, e ∈ s.edgesTo v → s.edges.find? e.id = some e ∧ e.value = v
  owns : ∀ id e, s.edges.find? id = some e → s.Owns e
  /-- The things are the concepts named with a `V`. -/
  things : ∀ id, id ∈ s.things ↔ s.Holds id ∧ ∃ n, id = numbered 'V' n
  /-- The things stand in the order in which they were made. -/
  pairwise_things : s.things.Pairwise fun a b =>
    ∀ m n, a = numbered 'V' m → b = numbered 'V' n → m < n
  /-- An attribute type has one instance of a value. -/
  values : ∀ a b c d, s.concepts.find? a = some c → s.concepts.find? b = some d →
    c.typeId = d.typeId → c.value.isSome → c.value = d.value → a = b
  mentioned : ∀ id ∈ s.mentioned, s.Holds id
  failed : ∀ op e, s.result op = .error e → s.after op = s

/-! ## What the maps find -/

variable {s : IndexedGraph} {g : Graph}

theorem find?_iff (hs : s.Represents g) (hg : g.WellFormed) {id : ConceptId} {c : Concept} :
    s.concepts.find? id = some c ↔ c ∈ g.concepts ∧ c.id = id := by
  rw [hs.concepts]
  exact ⟨Graph.concept?_eq_some, fun ⟨hc, hid⟩ => hid ▸ hg.concept?_id hc⟩

theorem holds_iff (hs : s.Represents g) {id : ConceptId} : s.Holds id ↔ g.Holds id := by
  rw [Holds, ← Graph.isSome_concept?_iff, ← hs.concepts, Option.isSome_iff_exists]

theorem find?_labels_iff (hs : s.Represents g) (hg : g.WellFormed) {l : Label} {id : ConceptId} :
    s.labels.find? l = some id ↔ ∃ c, s.concepts.find? id = some c ∧ c.label = some l := by
  simp only [hs.labels, find?_iff hs hg, and_assoc]
  exact ⟨Graph.labelled?_eq_some, fun ⟨c, hc, hid, hl⟩ => hid ▸ hg.labelled?_label hc hl⟩

theorem mem_instancesOf_iff (hs : s.Represents g) (hg : g.WellFormed) {t id : ConceptId} :
    id ∈ s.instancesOf t ↔ ∃ c, s.concepts.find? id = some c ∧ c.typeId = some t := by
  simp only [instancesOf_eq hs, Graph.instances, List.mem_map, List.mem_filter, decide_eq_true_eq,
    find?_iff hs hg]
  exact exists_congr fun c => and_right_comm

theorem find?_edges_iff (hs : s.Represents g) (hg : g.WellFormed) {id : ConceptId} {e : HasEdge} :
    s.edges.find? id = some e ↔ e ∈ g.edges ∧ e.id = id := by
  rw [hs.edges]
  exact ⟨Graph.edge?_eq_some, fun ⟨he, hid⟩ => hid ▸ hg.edge?_id he⟩

theorem perm_castings (hs : s.Represents g) :
    (s.castings.entries.flatMap (·.2)).Perm (s.castingsByPlayer.entries.flatMap (·.2)) := by
  have h := hs.castings.perm
  have h' := hs.castingsByPlayer.perm
  rw [List.map_map] at h h'
  exact h.trans h'.symm

theorem edge_once (hs : s.Represents g) (hg : g.WellFormed) {id : ConceptId} {e : HasEdge}
    (he : s.edges.find? id = some e) :
    (s.edgesFrom e.owner).count e = 1 ∧ (s.edgesTo e.value).count e = 1 := by
  obtain ⟨hmem, -⟩ := (find?_edges_iff hs hg).mp he
  have hone := List.count_eq_one_of_mem hg.nodup_edges.of_map hmem
  rw [edgesFrom_eq hs hg, edgesTo_eq hs hg, Graph.edgesFrom, Graph.edgesTo,
    List.count_filter (by simp), List.count_filter (by simp)]
  exact ⟨hone, hone⟩

theorem edge_ends (hs : s.Represents g) (hg : g.WellFormed) (e : HasEdge) :
    (∀ o, e ∈ s.edgesFrom o → s.edges.find? e.id = some e ∧ e.owner = o) ∧
      ∀ v, e ∈ s.edgesTo v → s.edges.find? e.id = some e ∧ e.value = v := by
  constructor <;> intro k hk
  · rw [edgesFrom_eq hs hg, Graph.edgesFrom, List.mem_filter] at hk
    exact ⟨(find?_edges_iff hs hg).mpr ⟨hk.1, rfl⟩, by simpa using hk.2⟩
  · rw [edgesTo_eq hs hg, Graph.edgesTo, List.mem_filter] at hk
    exact ⟨(find?_edges_iff hs hg).mpr ⟨hk.1, rfl⟩, by simpa using hk.2⟩

theorem owns_of_find? (hs : s.Represents g) (hg : g.WellFormed) (hl : g.Ledger) {id : ConceptId}
    {e : HasEdge} (he : s.edges.find? id = some e) : s.Owns e := by
  obtain ⟨⟨c, hc, hcid, hck, t, ht, hct, htk, htl⟩, d, hd, hdid, hdk, a, ha, hda, hal⟩ :=
    hl.typed e ((find?_edges_iff hs hg).mp he).1
  have hfind {c : Concept} (hc : c ∈ g.concepts) : s.concepts.find? c.id = some c :=
    (find?_iff hs hg).mpr ⟨hc, rfl⟩
  exact ⟨⟨c, t.id, t, hcid ▸ hfind hc, hck, hct, (find?_labels_iff hs hg).mpr ⟨t, hfind ht, htl⟩,
    hfind ht, htk⟩, d, a.id, hdid ▸ hfind hd, hdk, hda,
    (find?_labels_iff hs hg).mpr ⟨a, hfind ha, hal⟩⟩

theorem mem_things_iff (hs : s.Represents g) (hg : g.WellFormed) (hl : g.Ledger) {id : ConceptId} :
    id ∈ s.things ↔ s.Holds id ∧ ∃ n, id = numbered 'V' n := by
  rw [hs.things, Graph.mem_things, holds_iff hs]
  constructor
  · rintro ⟨⟨c, hc, rfl, hk⟩, he⟩
    obtain ⟨n, -, -, hn⟩ := hl.exists_numbered hc
    rw [(hg.letter_eq_V_iff hc).mpr ⟨hk, he⟩] at hn
    exact ⟨⟨c, hc, rfl⟩, n, hn⟩
  · rintro ⟨⟨c, hc, rfl⟩, n, hn⟩
    obtain ⟨hk, he⟩ := (hg.letter_eq_V_iff hc).mp (hl.eq_of_numbered hc hn).1.symm
    exact ⟨⟨c, hc, rfl, hk⟩, he⟩

theorem pairwise_things (hs : s.Represents g) (hl : g.Ledger) : s.things.Pairwise fun a b =>
    ∀ m n, a = numbered 'V' m → b = numbered 'V' n → m < n := by
  rw [hs.things, Graph.things, List.pairwise_map]
  exact (hl.pairwise_concepts.filter _).imp fun h m n => h _ _ m n

/-! ## What is mentioned -/

section Indexes

variable (hs : s.Represents g) (hg : g.WellFormed)

include hs hg

theorem holds_of_mem_instances {t : ConceptId} {ids : List ConceptId}
    (h : (t, ids) ∈ s.instances.entries) : g.Holds t ∧ ∀ id ∈ ids, g.Holds id := by
  refine hs.instances.forall_entries (fun t i hi => ?_) h
  obtain ⟨c, hc, hi⟩ := List.mem_filterMap.mp hi
  obtain ⟨t', ht, hi⟩ := Option.map_eq_some_iff.mp hi
  cases hi
  exact ⟨(hg.holdsSchema_of_typeId hc ht).1.holds, c, hc, rfl⟩

theorem holds_of_mem_castings {k : ConceptId} {cs : List Casting}
    (h : (k, cs) ∈ s.castings.entries ∨ (k, cs) ∈ s.castingsByPlayer.entries) :
    g.Holds k ∧ ∀ c ∈ cs, g.Holds c.relation ∧ g.Holds c.player := by
  have hcasting {c : Casting} (hc : c ∈ g.castings) : g.Holds c.relation ∧ g.Holds c.player :=
    ⟨(hg.casting c hc).1.holds, (hg.casting c hc).2.2⟩
  rcases h with h | h
  · refine hs.castings.forall_entries (fun k c hc => ?_) h
    obtain ⟨hmem, rfl⟩ : c ∈ g.castings ∧ c.relation = k := by simpa using hc
    exact ⟨(hcasting hmem).1, hcasting hmem⟩
  · refine hs.castingsByPlayer.forall_entries (fun k c hc => ?_) h
    obtain ⟨hmem, rfl⟩ : c ∈ g.castings ∧ c.player = k := by simpa using hc
    exact ⟨(hcasting hmem).2, hcasting hmem⟩

theorem holds_of_mem_edges {k : ConceptId} {ids : List ConceptId}
    (h : (k, ids) ∈ s.edgesByOwner.entries ∨ (k, ids) ∈ s.edgesByValue.entries) :
    g.Holds k ∧ ∀ id ∈ ids, g.Holds id := by
  rcases h with h | h
  · refine hs.edgesByOwner.forall_entries (fun k i hi => ?_) h
    obtain ⟨e, he, rfl, rfl⟩ := by simpa using hi
    exact ⟨(hg.edge e he).2.1, (hg.edge e he).1.holds⟩
  · refine hs.edgesByValue.forall_entries (fun k i hi => ?_) h
    obtain ⟨e, he, rfl, rfl⟩ := by simpa using hi
    exact ⟨(hg.edge e he).2.2, (hg.edge e he).1.holds⟩

/-- The maps mention no identifier that was not given out. -/
theorem holds_of_mem_mentioned {id : ConceptId} (hid : id ∈ s.mentioned) : s.Holds id := by
  rw [holds_iff hs]
  simp only [mentioned, List.mem_append, List.mem_flatMap, List.mem_map, List.mem_cons,
    Prod.exists, Option.mem_toList, List.not_mem_nil, or_false] at hid
  rcases hid with (((((((⟨i, c, hc, hid⟩ | ⟨l, i, hl, rfl⟩) | ⟨a, b, hp, hid⟩) | ⟨t, is, ht, hid⟩) |
    ⟨k, cs, hk, hid⟩) | ⟨i, e, he, hid⟩) | ⟨k, is, hk, hid⟩) | hid)
  · obtain ⟨hmem, rfl⟩ := (find?_iff hs hg).mp (SortedMap.find?_eq_some_iff.mpr hc)
    rcases hid with rfl | rfl | ht
    · exact ⟨c, hmem, rfl⟩
    · exact ⟨c, hmem, rfl⟩
    · exact (hg.holdsSchema_of_typeId hmem ht).1.holds
  · have hl := hs.labels l ▸ SortedMap.find?_eq_some_iff.mpr hl
    exact (Graph.holdsSchema_of_labelled? hl).holds
  · rw [hs.parents] at hp
    obtain ⟨ha, hb⟩ := hg.parent a b (SortedMap.find?_eq_some_iff.mpr hp)
    rcases hid with rfl | rfl
    · exact ha.holds
    · exact hb.holds
  · obtain ⟨htype, hinstances⟩ := holds_of_mem_instances hs hg ht
    rcases hid with rfl | hid
    · exact htype
    · exact hinstances _ hid
  · obtain ⟨hkey, hcastings⟩ := holds_of_mem_castings hs hg hk
    rcases hid with rfl | ⟨c, hc, rfl | rfl⟩
    · exact hkey
    · exact (hcastings c hc).1
    · exact (hcastings c hc).2
  · obtain ⟨hmem, rfl⟩ := (find?_edges_iff hs hg).mp (SortedMap.find?_eq_some_iff.mpr he)
    obtain ⟨hi, ho, hv⟩ := hg.edge e hmem
    rcases hid with rfl | rfl | rfl | rfl
    · exact hi.holds
    · exact hi.holds
    · exact ho
    · exact hv
  · obtain ⟨hkey, hedges⟩ := holds_of_mem_edges hs hg hk
    rcases hid with rfl | hid
    · exact hkey
    · exact hedges _ hid
  · rw [hs.things] at hid
    exact (Graph.mem_things.mp hid).1.holds

end Indexes

/-! ## What histories make -/

/-- The graph after a history of operations on an empty graph. -/
abbrev graphOf (ops : List Operation) : Graph :=
  ops.foldl Graph.perform {}

theorem represents_ofHistory (ops : List Operation) : (ofHistory ops).Represents (graphOf ops) :=
  represents_foldl represents_empty Graph.wellFormed_empty ops

theorem wellFormed_graphOf (ops : List Operation) : (graphOf ops).WellFormed :=
  Graph.wellFormed_of_foldl_perform Graph.wellFormed_empty ops

theorem map_eq_ok_iff {x : Except InferenceError (ConceptId × Graph)} {r : ConceptId} :
    (x.map (Prod.map some id)).map (·.1) = .ok (some r) ↔ ∃ h, x = .ok (r, h) := by
  cases x with
  | error e => exact ⟨fun h => (nomatch h), fun ⟨_, h⟩ => nomatch h⟩
  | ok x =>
    constructor
    · intro h
      cases h
      exact ⟨_, rfl⟩
    · rintro ⟨h, hx⟩
      cases hx
      rfl

theorem makes_relation_iff {ops : List Operation} {type : Label} {players : List (Label × ConceptId)}
    {r : ConceptId} : Makes ops (.relation type players) r ↔
      ∃ before rest h, ops = before ++ .relation type players :: rest ∧
        (graphOf before).addRelation type players = .ok (r, h) := by
  simp only [Makes, (represents_ofHistory _).result_eq (wellFormed_graphOf _), Graph.attempt,
    map_eq_ok_iff, exists_and_left]

theorem makes_has_iff {ops : List Operation} {owner value r : ConceptId} :
    Makes ops (.has owner value) r ↔ ∃ before rest h, ops = before ++ .has owner value :: rest ∧
      (graphOf before).addHas owner value = .ok (r, h) := by
  simp only [Makes, (represents_ofHistory _).result_eq (wellFormed_graphOf _), Graph.attempt,
    map_eq_ok_iff, exists_and_left]

theorem steps_graphOf_append (before rest : List Operation) :
    (graphOf before).Steps (graphOf (before ++ rest)) := by
  rw [graphOf, graphOf, List.foldl_append]
  exact Graph.steps_foldl_perform rest _

/-- What an operation makes is there before what follows it. -/
theorem graphOf_append_cons (before rest : List Operation) (op : Operation) :
    ((graphOf before).perform op).Steps (graphOf (before ++ op :: rest)) := by
  have h := steps_graphOf_append (before ++ [op]) rest
  rwa [List.append_assoc, graphOf, List.foldl_append] at h

theorem castingsOf_of_makes {ops : List Operation} {type : Label} {players : List (Label × ConceptId)}
    {r : ConceptId} (hmakes : Makes ops (.relation type players) r) :
    (graphOf ops).castingsOf r = players.map fun p => ⟨r, p.1, p.2⟩ := by
  obtain ⟨before, rest, h, rfl, hr⟩ := makes_relation_iff.mp hmakes
  have hg := wellFormed_graphOf before
  obtain ⟨hid, ⟨t, hconcepts⟩, hcastings, -⟩ := Graph.addRelation_eq_ok hr
  dsimp only at hid hconcepts hcastings
  have hperform : (graphOf before).perform (.relation type players) = h := by rw [Graph.perform, hr]; rfl
  have hh : h.WellFormed := hperform ▸ hg.steps (Graph.steps_perform _ _)
  have hsteps := graphOf_append_cons before rest (.relation type players)
  rw [hperform] at hsteps
  have hold : (graphOf before).castings.filter (·.relation = r) = [] :=
    List.filter_eq_nil_iff.mpr fun k hk => by
      have hne : k.relation ≠ r := fun e => hg.nextId_fresh 'V' (hid ▸ e ▸ (hg.casting k hk).1.holds)
      simpa using hne
  have hr : h.Holds r := ⟨_, hconcepts ▸ List.mem_append_right _ (.head _), rfl⟩
  rw [hsteps.castingsOf_eq hh hr, Graph.castingsOf, hcastings, List.filter_append, hold, List.nil_append]
  refine List.filter_eq_self.mpr fun k hk => ?_
  obtain ⟨p, -, rfl⟩ := List.mem_map.mp hk
  exact decide_eq_true rfl

theorem edge?_of_makes {ops : List Operation} {owner value r : ConceptId}
    (hmakes : Makes ops (.has owner value) r) :
    ∃ owned, (graphOf ops).edge? r = some ⟨r, owned, owner, value⟩ := by
  obtain ⟨before, rest, h, rfl, hr⟩ := makes_has_iff.mp hmakes
  obtain ⟨-, -, -, owned, -, hedges⟩ := Graph.addHas_eq_ok hr
  dsimp only at hedges
  have hperform : (graphOf before).perform (.has owner value) = h := by rw [Graph.perform, hr]; rfl
  have hh : h.WellFormed := hperform ▸ (wellFormed_graphOf before).steps (Graph.steps_perform _ _)
  have hsteps := graphOf_append_cons before rest (.has owner value)
  rw [hperform] at hsteps
  exact ⟨owned, hsteps.edge?_eq (hh.edge?_id (hedges ▸ List.mem_append_right _ (.head _)))⟩

/-- What has castings was added as a relation, what has an edge as an ownership. -/
theorem exists_makes {ops : List Operation} {r : ConceptId} {players : List (Label × ConceptId)}
    (h : Graph.Records ops r players) :
    (∃ type, Makes ops (.relation type players) r) ∨ ∃ owner value, Makes ops (.has owner value) r := by
  obtain ⟨before, op, rest, rfl, hop⟩ := h
  cases hop with
  | @relation type _ _ h hr => exact .inl ⟨type, makes_relation_iff.mpr ⟨before, rest, h, rfl, hr⟩⟩
  | @ownership owner value _ _ h _ hr =>
    exact .inr ⟨owner, value, makes_has_iff.mpr ⟨before, rest, h, rfl, hr⟩⟩

theorem exists_makes_relation {ops : List Operation} {r : ConceptId} {k : Casting}
    (hk : k ∈ (graphOf ops).castingsOf r) : ∃ type players, Makes ops (.relation type players) r := by
  have hg := wellFormed_graphOf ops
  obtain ⟨hmem, hrel⟩ := List.mem_filter.mp hk
  obtain rfl : k.relation = r := by simpa using hrel
  obtain ⟨players, hrec, -⟩ := Graph.exists_plays_iff_records.mp ⟨_, .stored hmem⟩
  rcases exists_makes hrec with ⟨type, h⟩ | ⟨owner, value, h⟩
  · exact ⟨type, players, h⟩
  · obtain ⟨owned, hedge⟩ := edge?_of_makes h
    rw [(hg.casting k hmem).2.1] at hedge
    cases hedge

theorem makes_of_edge? {ops : List Operation} {owner value r : ConceptId} {owned : Label}
    (he : (graphOf ops).edge? r = some ⟨r, owned, owner, value⟩) : Makes ops (.has owner value) r := by
  have hg := wellFormed_graphOf ops
  obtain ⟨players, hrec, hmem⟩ :=
    Graph.exists_plays_iff_records.mp ⟨_, .owner (Graph.edge?_eq_some he).1⟩
  rcases exists_makes hrec with ⟨type, h⟩ | ⟨owner', value', h⟩
  · have hk := castingsOf_of_makes h
    have hk : (⟨r, _, _⟩ : Casting) ∈ (graphOf ops).castingsOf r :=
      hk ▸ List.mem_map.mpr ⟨_, hmem, rfl⟩
    rw [(hg.casting _ (List.mem_filter.mp hk).1).2.1] at he
    cases he
  · obtain ⟨owned', he'⟩ := edge?_of_makes h
    obtain ⟨-, -, rfl, rfl⟩ := HasEdge.mk.inj (Option.some.inj (he.symm.trans he'))
    exact h

/-- The maps are consistent after every history. They represent the graph that the same operations
make. -/
theorem consistent_ofHistory (ops : List Operation) :
    (ofHistory ops).Represents (graphOf ops) ∧ Consistent ops (ofHistory ops) := by
  have hs := represents_ofHistory ops
  have hg := wellFormed_graphOf ops
  have hl : (graphOf ops).Ledger := Graph.Reachable.ledger ⟨ops, rfl⟩
  refine ⟨hs, ?_⟩
  constructor
  case numbers =>
    intro n hpos hn
    simp only [holds_iff hs]
    exact hl.existsUnique_number hpos (hs.lastId ▸ hn)
  case named =>
    intro id hid
    obtain ⟨c, hc, rfl⟩ := (holds_iff hs).mp hid
    obtain ⟨n, hpos, hn, h⟩ := hl.exists_numbered hc
    exact ⟨_, n, hpos, hs.lastId ▸ hn, h⟩
  case own_id => exact fun id c h => ((find?_iff hs hg).mp h).2
  case kept =>
    rintro before rest rfl id c h
    rw [(represents_ofHistory before).concepts] at h
    rw [hs.concepts]
    exact (steps_graphOf_append before rest).concept?_eq (wellFormed_graphOf before) h
  case labels => exact fun _ _ => find?_labels_iff hs hg
  case instances => exact fun _ _ => mem_instancesOf_iff hs hg
  case nodup_instances =>
    intro t
    rw [instancesOf_eq hs]
    exact hg.nodup.sublist (List.filter_sublist.map _)
  case casting_relation =>
    intro r k hk
    rw [castingsOf_eq hs] at hk
    simpa using (List.mem_filter.mp hk).2
  case casting_player =>
    intro p k hk
    rw [castingsBy_eq hs] at hk
    simpa using (List.mem_filter.mp hk).2
  case perm_castings => exact perm_castings hs
  case castings =>
    intro type players r h
    rw [castingsOf_eq hs]
    exact castingsOf_of_makes h
  case relation =>
    intro r k hk
    rw [castingsOf_eq hs] at hk
    exact exists_makes_relation hk
  case edges =>
    intro owner value id
    rw [hs.edges]
    exact ⟨edge?_of_makes, fun ⟨_, h⟩ => makes_of_edge? h⟩
  case own_edge_id => exact fun id e h => ((find?_edges_iff hs hg).mp h).2
  case edge_once => exact fun id e => edge_once hs hg
  case edge_ends => exact edge_ends hs hg
  case owns => exact fun id e => owns_of_find? hs hg hl
  case things => exact fun id => mem_things_iff hs hg hl
  case pairwise_things => exact pairwise_things hs hl
  case values =>
    intro a b c d hc hd ht hsome hv
    obtain ⟨hcmem, rfl⟩ := (find?_iff hs hg).mp hc
    obtain ⟨hdmem, rfl⟩ := (find?_iff hs hg).mp hd
    exact congrArg Concept.id (hl.values c hcmem d hdmem ht hsome hv)
  case mentioned => exact fun id => holds_of_mem_mentioned hs hg
  case failed => exact fun op e => hs.after_of_error hg

end GraphInference.IndexedGraph
