import GraphInference.Proofs.Query.Lookup
import GraphInference.Proofs.Query.Renaming
import GraphInference.Proofs.Sorted

/-!
# What equivalence promises

Queries that are renamings of each other have the same answers in every graph, each renamed to its
counterpart. Equivalent queries are renamings of each other exactly if the profiles of their variables
are the same; equivalence does not compare the profiles, and there are equivalent queries that ask
different things.
-/

namespace GraphInference

/-! ## Renamed readings -/

namespace TypeRef

/-- The type with its variable renamed. -/
def relabel (ρ : Var → Var) : TypeRef → TypeRef
  | .label l => .label l
  | .var v => .var (ρ v)

theorem reads_relabel {g : Graph} {look : Var → Option ConceptId} {ρ : Var → Var} {x : Var}
    (t : TypeRef) : (t.relabel ρ).Reads g look (ρ x) ↔ t.Reads g (look ∘ ρ) x := by
  cases t <;> exact Iff.rfl

theorem names_relabel {ρ : Var → Var} {x w : Var} (t : TypeRef) :
    (t.relabel ρ).Names (ρ x) w ↔ ∃ v, t.Names x v ∧ ρ v = w := by
  cases t with
  | label l => simp [relabel, Names, eq_comm]
  | var v => simp [relabel, Names, eq_comm]

end TypeRef

/-- The order of a list does not matter for the existence of different counterparts. -/
theorem exists_forall₂_of_perm {α β : Type} {r : α → β → Prop} {l m : List α} (h : l.Perm m)
    (hl : ∃ cs : List β, cs.Nodup ∧ List.Forall₂ r l cs) :
    ∃ cs : List β, cs.Nodup ∧ List.Forall₂ r m cs := by
  obtain ⟨cs, hnodup, hcs⟩ := hl
  obtain ⟨ds, hds, hperm⟩ := List.perm_comp_forall₂ h.symm hcs
  exact ⟨ds, hperm.nodup_iff.mpr hnodup, hds⟩

/-- What a demand says of the concept of its variable. -/
def Demand.Reads (g : Graph) (look : Var → Option ConceptId) (x : Var) : Demand → Prop
  | .value p => p.Reads g look x
  | .identity id => g.Holds id ∧ look x = some id
  | .substitution s => g.Holds ⟨s⟩ ∧ look x = some ⟨s⟩

namespace Atom

variable {a : Atom} {g : Graph} {look look' : Var → Option ConceptId} {v : Var}

/-- The type that the statement of an atom gives. -/
def type? (a : Atom) : Option TypeRef :=
  a.anchor?.bind Anchor.type?

theorem matches_central_iff (ha : a.isPredicate = false) : a.Matches g look ↔
    (∀ t ∈ a.type?, t.Reads g look a.var) ∧ ∃ cs : List Casting, cs.Nodup ∧
      List.Forall₂ (fun p c => g.Stands look a.var p.1.label? p.2 c) a.players cs := by
  cases a with
  | isa c => exact ⟨fun h => ⟨h, [], .nil, .nil⟩, fun h => h.1⟩
  | relation r => exact Iff.rfl
  | _ => cases ha

theorem names_central_iff (ha : a.isPredicate = false) : a.Names v ↔
    (∃ p ∈ a.players, v = a.var ∨ v = p.2) ∨ ∃ t ∈ a.type?, t.Names a.var v := by
  cases a with
  | isa c => exact ⟨.inr, fun h => h.resolve_left fun ⟨_, hp, _⟩ => nomatch hp⟩
  | relation r => exact Iff.rfl
  | _ => cases ha

theorem matches_predicate_iff (ha : a.isPredicate = true) :
    a.Matches g look ↔ ∀ d ∈ a.demand?, d.Reads g look a.var := by
  cases a with
  | isa _ | relation _ => cases ha
  | _ => simp [Matches, demand?, Demand.Reads, var]

theorem names_predicate_iff (ha : a.isPredicate = true) : a.Names v ↔ v = a.var := by
  cases a with
  | isa _ | relation _ => cases ha
  | _ => exact Iff.rfl

theorem toStatements_eq_nil_iff (ha : a.isPredicate = false) (hplain : a.Plain) :
    a.toStatements = [] ↔ a.family = .isa ∧ a.type? = none := by
  cases a with
  | isa c =>
    have hc : c.Plain := hplain c rfl
    show (isa c).toStatements = [] ↔ AtomFamily.isa = .isa ∧ c.type? = none
    rw [and_iff_right rfl, hc.type?_eq_none_iff, toStatements]
    split
    · next he => simp [he]
    · next he =>
      rw [hc.typed_eq]
      split <;> simp [he]
  | relation r =>
    have hr : r.anchor.Plain := hplain r.anchor rfl
    rw [toStatements, RelationAtom.toStatements, hr.typed_eq]
    split <;> simp [family]
  | _ => cases ha

theorem searchable_central_iff (ha : a.isPredicate = false) :
    a.Searchable ↔ (a.family = .relation → a.players ≠ [] ∨ a.type? ≠ none) := by
  cases a with
  | isa c => simp [Searchable, family]
  | relation r => simp [Searchable, family, players, type?, anchor?]
  | _ => cases ha

theorem mem_vars_central_iff (ha : a.isPredicate = false) : v ∈ a.vars ↔
    ((v = a.var ∨ v = a.typeVar) ∧ v.isEmpty = false) ∨ ∃ p ∈ a.players, p.2 = v := by
  cases a with
  | isa c | relation r =>
    simp [vars, Anchor.vars, var, typeVar, anchor?, players]
  | _ => cases ha

/-- Equivalence compares families and types. -/
theorem family_eq_of_isEquivalent {b : Atom} (h : a.isEquivalent b = true) :
    b.family = a.family ∧ b.typeId? = a.typeId? := by
  have hanchor {c d : Anchor} (h : c.isEquivalent d = true) : d.typeId? = c.typeId? :=
    (of_decide_eq_true (Bool.and_eq_true_iff.mp h).2).symm
  unfold isEquivalent at h
  split at h
  · exact ⟨rfl, hanchor h⟩
  · exact ⟨rfl, hanchor (Bool.and_eq_true_iff.mp h).1⟩
  · exact ⟨rfl, rfl⟩
  · exact ⟨rfl, rfl⟩
  · exact ⟨rfl, rfl⟩
  · cases h

/-- An atom reads the variables that it names only. -/
theorem Matches.congr (hg : g.WellFormed) (ha : a.Plain)
    (heq : ∀ v, a.Names v → look v = look' v) (h : a.Matches g look) : a.Matches g look' := by
  rcases FragmentSet.statements_of_plain hg ha with ⟨-, -, hmatches⟩ | ⟨st, -, hspells⟩
  · exact hmatches look'
  · exact (hspells {}).congr look look' heq h

end Atom

/-! ## Renamed queries -/

namespace AtomicQuery

variable {q r : AtomicQuery} {ρ : Var → Var} {g g₁ g₂ : Graph} {look : Var → Option ConceptId}
  {v w : Var}

theorem forall_matches_iff (hq : q.Decomposed g₁) : (∀ a ∈ q.atoms, a.Matches g look) ↔
    (∀ t ∈ q.central.type?, t.Reads g look q.central.var) ∧
      (∃ cs : List Casting, cs.Nodup ∧ List.Forall₂
        (fun p c => g.Stands look q.central.var p.1.label? p.2 c) q.central.players cs) ∧
      ∀ e ∈ q.demands, ∀ d ∈ e.1, d.Reads g look e.2 := by
  rw [atoms, List.forall_mem_cons, Atom.matches_central_iff hq.central.1, and_assoc, demands,
    List.forall_mem_map]
  refine and_congr_right fun _ => and_congr_right fun _ => forall₂_congr fun p hp => ?_
  exact Atom.matches_predicate_iff (hq.predicates p hp)

theorem names_iff (hq : q.Decomposed g₁) : q.Names v ↔
    (∃ p ∈ q.central.players, v = q.central.var ∨ v = p.2) ∨
      (∃ t ∈ q.central.type?, t.Names q.central.var v) ∨ ∃ e ∈ q.demands, v = e.2 := by
  rw [Names, atoms, List.exists_mem_cons_iff, Atom.names_central_iff hq.central.1, or_assoc, demands]
  simp only [List.mem_map, exists_exists_and_eq_and]
  refine or_congr_right (or_congr_right (exists_congr fun p => and_congr_right fun hp => ?_))
  exact Atom.names_predicate_iff (hq.predicates p hp)

/-- A query without statements asks for an untyped variable. -/
theorem statements_eq_nil_iff (hq : q.Decomposed g₁) : q.toConjunction.statements = [] ↔
    (q.central.family = .isa ∧ q.central.type? = none) ∧ q.demands = [] := by
  have hcentral := Atom.toStatements_eq_nil_iff hq.central.1 (hq.plain _ (.head _))
  have hpredicate : ∀ p ∈ q.predicates, p.toStatements ≠ [] := by
    intro p hp
    have := hq.predicates p hp
    cases p with
    | isa _ | relation _ => cases this
    | _ => exact List.cons_ne_nil _ _
  show q.atoms.flatMap Atom.toStatements = [] ↔ _
  rw [List.flatMap_eq_nil_iff, atoms, List.forall_mem_cons, hcentral, demands, List.map_eq_nil_iff]
  refine and_congr_right fun _ => ⟨fun h => ?_, fun h => by simp [h]⟩
  exact List.eq_nil_iff_forall_not_mem.mpr fun p hp => hpredicate p hp (h p hp)

theorem searchable_iff (hq : q.Decomposed g₁) : q.Searchable ↔
    (q.central.family = .relation → q.central.players ≠ [] ∨ q.central.type? ≠ none) := by
  rw [Searchable, atoms, List.forall_mem_cons, Atom.searchable_central_iff hq.central.1]
  refine and_iff_left fun p hp => ?_
  have := hq.predicates p hp
  cases p with
  | isa _ | relation _ => cases this
  | _ => exact trivial

theorem mem_vars_iff (hq : q.Decomposed g₁) : v ∈ q.vars ↔
    ((v = q.central.var ∨ v = q.central.typeVar) ∧ v.isEmpty = false) ∨
      (∃ p ∈ q.central.players, p.2 = v) ∨ ∃ e ∈ q.demands, e.2 = v := by
  rw [← or_assoc, ← Atom.mem_vars_central_iff hq.central.1, vars, SortedSet.mem_ofList, atoms,
    List.flatMap_cons, List.mem_append, ← SortedSet.mem_iff_mem_toList, List.mem_flatMap, demands]
  simp only [List.mem_map, exists_exists_and_eq_and]
  refine or_congr_right (exists_congr fun p => and_congr_right fun hp => ?_)
  have := hq.predicates p hp
  cases p with
  | isa _ | relation _ => cases this
  | _ => simp [Atom.vars, ← SortedSet.mem_iff_mem_toList, Atom.var, eq_comm]

namespace Renames

/-- The same label beside the types, where they have one. -/
theorem type?_eq (h : Renames ρ q r) (hq : q.central.isPredicate = false)
    (hlabel : r.central.label? = q.central.label?) :
    r.central.type? = q.central.type?.map (TypeRef.relabel ρ) := by
  have hanchor {c c' : Anchor} (hl : c'.label = c.label) (ht : c'.typeVar = ρ c.typeVar)
      (he : (ρ c.typeVar).isEmpty = c.typeVar.isEmpty) :
      c'.type? = c.type?.map (TypeRef.relabel ρ) := by
    unfold Anchor.type?
    rw [hl, ht, he]
    split
    · rfl
    · split <;> rfl
  have hfamily := h.family
  have htypeVar := h.typeVar
  have habsent := h.absent _ typeVar_mem_slots
  cases hc : q.central with
  | isa c | relation s =>
    rw [hc] at hfamily htypeVar habsent hlabel
    cases hc' : r.central with
    | isa c' | relation s' =>
      first
        | (rw [hc'] at hfamily; cases hfamily; done)
        | (rw [hc'] at htypeVar hlabel; exact hanchor hlabel htypeVar habsent)
    | _ => rw [hc'] at hfamily; cases hfamily
  | _ => rw [hc] at hq; cases hq

/-- What the one query says after the renaming the other one says. -/
theorem matches_iff (h : Renames ρ q r) (hq : q.Decomposed g₁) (hr : r.Decomposed g₂)
    (hlabel : r.central.label? = q.central.label?) :
    (∀ a ∈ r.atoms, a.Matches g look) ↔ ∀ a ∈ q.atoms, a.Matches g (look ∘ ρ) := by
  rw [forall_matches_iff hr, forall_matches_iff hq, h.type?_eq hq.central.1 hlabel, h.var]
  refine and_congr ?_ (and_congr ?_ ?_)
  · simp only [Option.mem_def, Option.map_eq_some_iff, forall_exists_index, and_imp,
      forall_apply_eq_imp_iff₂, TypeRef.reads_relabel]
  · have hstands {x p : Var} {role : Option Label} {c : Casting} :
        g.Stands look (ρ x) role (ρ p) c ↔ g.Stands (look ∘ ρ) x role p c :=
      ⟨fun h => ⟨h.plays, h.relation, h.role, h.player⟩,
        fun h => ⟨h.plays, h.relation, h.role, h.player⟩⟩
    have hplayers (cs : List Casting) : List.Forall₂
        (fun p c => g.Stands look (ρ q.central.var) p.1.label? p.2 c)
          (relabel ρ q.central.players) cs ↔
        List.Forall₂ (fun p c => g.Stands (look ∘ ρ) q.central.var p.1.label? p.2 c)
          q.central.players cs := by
      rw [relabel, List.forall₂_map_left_iff]
      simp only [hstands]
    constructor
    · intro hcs
      obtain ⟨cs, hnodup, hcs⟩ := exists_forall₂_of_perm h.players hcs
      exact ⟨cs, hnodup, (hplayers cs).mp hcs⟩
    · rintro ⟨cs, hnodup, hcs⟩
      exact exists_forall₂_of_perm h.players.symm ⟨cs, hnodup, (hplayers cs).mpr hcs⟩
  · have hreads {d : Demand} {x : Var} : d.Reads g look (ρ x) ↔ d.Reads g (look ∘ ρ) x := by
      cases d <;> exact Iff.rfl
    simp only [h.demands.mem_iff, relabel, List.forall_mem_map, hreads]

/-- The variables that the other query names are those that the one names, renamed. -/
theorem names_iff (h : Renames ρ q r) (hq : q.Decomposed g₁) (hr : r.Decomposed g₂)
    (hlabel : r.central.label? = q.central.label?) :
    r.Names w ↔ ∃ v, q.Names v ∧ ρ v = w := by
  rw [AtomicQuery.names_iff hr, h.type?_eq hq.central.1 hlabel, h.var]
  simp only [AtomicQuery.names_iff hq, or_and_right, exists_or]
  refine or_congr ?_ (or_congr ?_ ?_)
  · constructor
    · rintro ⟨p, hp, hw⟩
      obtain ⟨p', hp', rfl⟩ := List.mem_map.mp (h.players.mem_iff.mp hp)
      rcases hw with rfl | rfl
      · exact ⟨_, ⟨p', hp', .inl rfl⟩, rfl⟩
      · exact ⟨_, ⟨p', hp', .inr rfl⟩, rfl⟩
    · rintro ⟨v, ⟨p, hp, hv⟩, rfl⟩
      exact ⟨_, h.players.mem_iff.mpr (List.mem_map.mpr ⟨p, hp, rfl⟩),
        hv.imp (congrArg ρ) (congrArg ρ)⟩
  · constructor
    · rintro ⟨t', ht', hw⟩
      obtain ⟨t, ht, rfl⟩ := Option.map_eq_some_iff.mp ht'
      obtain ⟨v, hv, rfl⟩ := t.names_relabel.mp hw
      exact ⟨v, ⟨t, ht, hv⟩, rfl⟩
    · rintro ⟨v, ⟨t, ht, hv⟩, rfl⟩
      exact ⟨_, Option.map_eq_some_iff.mpr ⟨t, ht, rfl⟩, t.names_relabel.mpr ⟨v, hv, rfl⟩⟩
  · constructor
    · rintro ⟨e, he, rfl⟩
      obtain ⟨e', he', rfl⟩ := List.mem_map.mp (h.demands.mem_iff.mp he)
      exact ⟨_, ⟨e', he', rfl⟩, rfl⟩
    · rintro ⟨v, ⟨e, he, rfl⟩, rfl⟩
      exact ⟨_, h.demands.mem_iff.mpr (List.mem_map.mpr ⟨e, he, rfl⟩), rfl⟩

theorem statements_eq_nil_iff (h : Renames ρ q r) (hq : q.Decomposed g₁) (hr : r.Decomposed g₂)
    (hlabel : r.central.label? = q.central.label?) :
    r.toConjunction.statements = [] ↔ q.toConjunction.statements = [] := by
  rw [AtomicQuery.statements_eq_nil_iff hq, AtomicQuery.statements_eq_nil_iff hr, h.family,
    h.type?_eq hq.central.1 hlabel, Option.map_eq_none_iff]
  refine and_congr_right fun _ => ⟨fun hnil => ?_, fun hnil => ?_⟩
  · have hperm := h.demands
    rw [hnil] at hperm
    exact List.map_eq_nil_iff.mp hperm.symm.eq_nil
  · have hperm := h.demands
    rw [hnil] at hperm
    exact hperm.eq_nil

theorem searchable_iff (h : Renames ρ q r) (hq : q.Decomposed g₁) (hr : r.Decomposed g₂)
    (hlabel : r.central.label? = q.central.label?) : r.Searchable ↔ q.Searchable := by
  have hplayers : r.central.players = [] ↔ q.central.players = [] := by
    rw [← List.length_eq_zero_iff, h.players.length_eq, relabel, List.length_map,
      List.length_eq_zero_iff]
  rw [AtomicQuery.searchable_iff hq, AtomicQuery.searchable_iff hr, h.family,
    h.type?_eq hq.central.1 hlabel, Ne, hplayers, Ne, Option.map_eq_none_iff]

end Renames

theorem mem_slots_of_names (hq : q.Decomposed g₁) (hv : q.Names v) : v ∈ q.slots := by
  rcases (names_iff hq).mp hv with ⟨p, hp, rfl | rfl⟩ | ⟨t, ht, hv⟩ | ⟨e, he, rfl⟩
  · exact var_mem_slots
  · exact player_mem_slots hp
  · cases t with
    | label l =>
      obtain rfl : v = q.central.var := hv
      exact var_mem_slots
    | var t =>
      rcases hv with rfl | rfl
      · exact var_mem_slots
      · obtain ⟨c, hc, ht⟩ := Option.bind_eq_some_iff.mp ht
        have hvar : c.typeVar = v := by
          unfold Anchor.type? at ht
          split at ht
          · cases ht
          · split at ht
            · cases ht
            · exact TypeRef.var.inj (Option.some.inj ht)
        have : q.central.typeVar = v := by
          rw [Atom.typeVar, hc]
          exact hvar
        exact this ▸ typeVar_mem_slots
  · exact demand_mem_slots he

end AtomicQuery

/-! ## Renamed answers -/

/-- The binding with its variables renamed. -/
def Binding.relabel (ρ : Var → Var) (b : Binding) : Binding :=
  .ofList (b.entries.map fun e => (ρ e.1, e.2))

theorem Binding.find?_relabel {ρ : Var → Var} {b : Binding}
    (hinj : ∀ v w, b.contains v = true → b.contains w = true → ρ v = ρ w → v = w) {w : Var}
    {id : ConceptId} : (b.relabel ρ).find? w = some id ↔ ∃ v, b.find? v = some id ∧ ρ v = w := by
  have hmem (w : Var) (id : ConceptId) : (w, id) ∈ b.entries.map (fun e => (ρ e.1, e.2)) ↔
      ∃ v, b.find? v = some id ∧ ρ v = w := by
    simp only [List.mem_map, Prod.exists, Prod.mk.injEq, SortedMap.find?_eq_some_iff]
    constructor
    · rintro ⟨v, id', hv, rfl, rfl⟩
      exact ⟨v, hv, rfl⟩
    · rintro ⟨v, hv, rfl⟩
      exact ⟨v, id, hv, rfl, rfl⟩
  rw [relabel, SortedMap.find?_ofList, hmem]
  intro w id id' h h'
  obtain ⟨v, hv, rfl⟩ := (hmem w id).mp h
  obtain ⟨v', hv', heq⟩ := (hmem _ id').mp h'
  obtain rfl := hinj v' v (SortedMap.contains_iff_isSome.mpr ⟨id', hv'⟩)
    (SortedMap.contains_iff_isSome.mpr ⟨id, hv⟩) heq
  exact Option.some.inj (hv.symm.trans hv')

namespace AtomicQuery.Renames

variable {q r : AtomicQuery} {ρ : Var → Var} {g g₁ g₂ : Graph} {m m' : Binding} {v w : Var}
  {id : ConceptId}

theorem find?_relabel (h : Renames ρ q r) (hq : q.Decomposed g₁) (hm : q.IsMatch g m) :
    (m.relabel ρ).find? w = some id ↔ ∃ v, m.find? v = some id ∧ ρ v = w :=
  Binding.find?_relabel fun v w hv hw => h.injective v (mem_slots_of_names hq ((hm.domain v).mp hv))
    w (mem_slots_of_names hq ((hm.domain w).mp hw))

open Classical in
/-- What a binding says of the renamed variables of a query, said of the variables. -/
noncomputable def unrelabel (ρ : Var → Var) (q : AtomicQuery) (m' : Binding) : Binding :=
  .ofList (q.slots.filterMap fun v => (if q.Names v then m'.find? (ρ v) else none).map (v, ·))

theorem find?_unrelabel (hq : q.Decomposed g₁) :
    (unrelabel ρ q m').find? v = some id ↔ q.Names v ∧ m'.find? (ρ v) = some id := by
  simp only [unrelabel, SortedMap.find?_ofList_keys]
  constructor
  · rintro ⟨-, hv⟩
    split at hv
    · next hnamed => exact ⟨hnamed, hv⟩
    · cases hv
  · rintro ⟨hnamed, hv⟩
    exact ⟨mem_slots_of_names hq hnamed, by rw [if_pos hnamed, hv]⟩

/-- A match of the other query is one of the one, taken back. -/
theorem isMatch_unrelabel (h : Renames ρ q r) (hg : g.WellFormed) (hq : q.Decomposed g₁)
    (hr : r.Decomposed g₂) (hlabel : r.central.label? = q.central.label?) (hm' : r.IsMatch g m') :
    q.IsMatch g (unrelabel ρ q m') := by
  refine ⟨fun v => ?_, fun a ha => ?_⟩
  · rw [SortedMap.contains_iff_isSome]
    simp only [find?_unrelabel hq, exists_and_left, ← SortedMap.contains_iff_isSome]
    exact and_iff_left_of_imp fun hv =>
      (hm'.domain _).mpr ((h.names_iff hq hr hlabel).mpr ⟨v, hv, rfl⟩)
  · have hreads := (h.matches_iff hq hr hlabel).mp hm'.reads a ha
    refine hreads.congr hg (hq.plain a ha) fun v hv => Option.ext fun id => ?_
    exact (find?_unrelabel hq).trans (and_iff_right ⟨a, ha, hv⟩) |>.symm

theorem relabel_unrelabel (h : Renames ρ q r) (hg : g.WellFormed) (hq : q.Decomposed g₁)
    (hr : r.Decomposed g₂) (hlabel : r.central.label? = q.central.label?) (hm' : r.IsMatch g m') :
    (unrelabel ρ q m').relabel ρ = m' := by
  refine SortedMap.ext_find? fun w => Option.ext fun id => ?_
  rw [h.find?_relabel hq (h.isMatch_unrelabel hg hq hr hlabel hm')]
  constructor
  · rintro ⟨v, hv, rfl⟩
    exact ((find?_unrelabel hq).mp hv).2
  · intro hw
    obtain ⟨v, hv, rfl⟩ := (h.names_iff hq hr hlabel).mp
      ((hm'.domain w).mp (SortedMap.contains_iff_isSome.mpr ⟨id, hw⟩))
    exact ⟨v, (find?_unrelabel hq).mpr ⟨hv, hw⟩, rfl⟩

/-- A match of the one query, renamed, is one of the other. -/
theorem isMatch_relabel (h : Renames ρ q r) (hg : g.WellFormed) (hq : q.Decomposed g₁)
    (hr : r.Decomposed g₂) (hlabel : r.central.label? = q.central.label?) (hm : q.IsMatch g m) :
    r.IsMatch g (m.relabel ρ) := by
  refine ⟨fun w => ?_, (h.matches_iff hq hr hlabel).mpr fun a ha => ?_⟩
  · rw [SortedMap.contains_iff_isSome, h.names_iff hq hr hlabel]
    simp only [h.find?_relabel hq hm]
    constructor
    · rintro ⟨id, v, hv, rfl⟩
      exact ⟨v, (hm.domain v).mp (SortedMap.contains_iff_isSome.mpr ⟨id, hv⟩), rfl⟩
    · rintro ⟨v, hv, rfl⟩
      obtain ⟨id, hid⟩ := SortedMap.contains_iff_isSome.mp ((hm.domain v).mpr hv)
      exact ⟨id, v, hid, rfl⟩
  · refine (hm.reads a ha).congr hg (hq.plain a ha) fun v hv => Option.ext fun id => ?_
    show m.find? v = some id ↔ (m.relabel ρ).find? (ρ v) = some id
    rw [h.find?_relabel hq hm]
    constructor
    · exact fun hv => ⟨v, hv, rfl⟩
    · rintro ⟨v', hv', heq⟩
      have hnamed' := (hm.domain v').mp (SortedMap.contains_iff_isSome.mpr ⟨id, hv'⟩)
      exact h.injective _ (mem_slots_of_names hq hnamed') _ (mem_slots_of_names hq ⟨a, ha, hv⟩) heq ▸ hv'

/-- The matches of the other query are those of the one, renamed. -/
theorem isMatch_iff (h : Renames ρ q r) (hg : g.WellFormed) (hq : q.Decomposed g₁)
    (hr : r.Decomposed g₂) (hlabel : r.central.label? = q.central.label?) :
    r.IsMatch g m' ↔ ∃ m, q.IsMatch g m ∧ m.relabel ρ = m' := by
  constructor
  · intro hm'
    exact ⟨unrelabel ρ q m', h.isMatch_unrelabel hg hq hr hlabel hm', h.relabel_unrelabel hg hq hr hlabel hm'⟩
  · rintro ⟨m, hm, rfl⟩
    exact h.isMatch_relabel hg hq hr hlabel hm

/-- A renaming of matches forgets nothing. -/
theorem relabel_injective (h : Renames ρ q r) (hq : q.Decomposed g₁) (hm : q.IsMatch g m)
    (hm' : q.IsMatch g m') (heq : m.relabel ρ = m'.relabel ρ) : m = m' := by
  refine SortedMap.ext_find? fun v => Option.ext fun id => ?_
  have hback {m m' : Binding} (hm : q.IsMatch g m) (hm' : q.IsMatch g m')
      (heq : m.relabel ρ = m'.relabel ρ) (hv : m.find? v = some id) : m'.find? v = some id := by
    have hv' := (h.find?_relabel hq hm).mpr ⟨v, hv, rfl⟩
    rw [heq, h.find?_relabel hq hm'] at hv'
    obtain ⟨v', hv', hρ⟩ := hv'
    have hnamed := (hm.domain v).mp (SortedMap.contains_iff_isSome.mpr ⟨id, hv⟩)
    have hnamed' := (hm'.domain v').mp (SortedMap.contains_iff_isSome.mpr ⟨id, hv'⟩)
    exact h.injective _ (mem_slots_of_names hq hnamed') _ (mem_slots_of_names hq hnamed) hρ ▸ hv'
  exact ⟨hback hm hm' heq, hback hm' hm heq.symm⟩

/-- The variables of the other query are those of the one, renamed. -/
theorem mem_vars_iff (h : Renames ρ q r) (hq : q.Decomposed g₁) (hr : r.Decomposed g₂)
    (hv : v ∈ q.slots) : ρ v ∈ r.vars ↔ v ∈ q.vars := by
  have hlist {κ : Type} {l m : List (κ × Var)} (hl : ∀ p ∈ l, p.2 ∈ q.slots)
      (hperm : m.Perm (GraphInference.relabel ρ l)) :
      (∃ p ∈ m, p.2 = ρ v) ↔ ∃ p ∈ l, p.2 = v := by
    simp only [hperm.mem_iff, GraphInference.relabel, List.mem_map, exists_exists_and_eq_and]
    exact exists_congr fun p => and_congr_right fun hp => h.eq_iff (hl p hp) hv
  rw [AtomicQuery.mem_vars_iff hr, AtomicQuery.mem_vars_iff hq,
    hlist (fun p => player_mem_slots) h.players, hlist (fun p => demand_mem_slots) h.demands, h.var,
    h.typeVar, h.eq_iff hv var_mem_slots, h.eq_iff hv typeVar_mem_slots, h.absent v hv]

/-- The user-defined variables of the other query are those of the one, renamed. -/
theorem mem_userVars_iff (h : Renames ρ q r) (hq : q.Decomposed g₁) (hr : r.Decomposed g₂)
    (hv : v ∈ q.slots) : ρ v ∈ r.userVars ↔ v ∈ q.userVars := by
  rw [userVars, userVars, SortedSet.mem_filter, SortedSet.mem_filter, h.userDefined v hv,
    h.mem_vars_iff hq hr hv]

theorem restrict_relabel (h : Renames ρ q r) (hq : q.Decomposed g₁) (hr : r.Decomposed g₂)
    (hm : q.IsMatch g m) : (m.relabel ρ).restrict r.userVars.contains =
      Binding.relabel ρ (m.restrict q.userVars.contains) := by
  have hslots {v : Var} {id : ConceptId} (hv : m.find? v = some id) : v ∈ q.slots :=
    mem_slots_of_names hq ((hm.domain v).mp (SortedMap.contains_iff_isSome.mpr ⟨id, hv⟩))
  have hrestrict {b : Binding} {q : AtomicQuery} {v : Var} {id : ConceptId} :
      (b.restrict q.userVars.contains).find? v = some id ↔ v ∈ q.userVars ∧ b.find? v = some id := by
    rw [SortedMap.find?_restrict, ← SortedSet.contains_iff]
    split <;> simp_all
  have hkept {v : Var} (hv : (m.restrict q.userVars.contains).contains v = true) : v ∈ q.slots := by
    obtain ⟨id, hid⟩ := SortedMap.contains_iff_isSome.mp hv
    exact hslots (hrestrict.mp hid).2
  refine SortedMap.ext_find? fun w => Option.ext fun id => ?_
  rw [hrestrict, h.find?_relabel hq hm,
    Binding.find?_relabel fun v w hv hw => h.injective v (hkept hv) w (hkept hw)]
  constructor
  · rintro ⟨hw, v, hv, rfl⟩
    exact ⟨v, hrestrict.mpr ⟨(h.mem_userVars_iff hq hr (hslots hv)).mp hw, hv⟩, rfl⟩
  · rintro ⟨v, hv, rfl⟩
    obtain ⟨huser, hv⟩ := hrestrict.mp hv
    exact ⟨(h.mem_userVars_iff hq hr (hslots hv)).mpr huser, v, hv, rfl⟩

end AtomicQuery.Renames

namespace AtomicQuery

variable {q r : AtomicQuery} {g₁ g₂ h : Graph}

/-- Queries of one type have one label. -/
theorem label?_eq (hh : h.WellFormed) (h₁ : g₁.Precedes h) (h₂ : g₂.Precedes h)
    (hq : q.Decomposed g₁) (hr : r.Decomposed g₂) (htype : r.typeId? = q.typeId?) :
    r.central.label? = q.central.label? := by
  obtain ⟨c, hc, hres⟩ := hq.exists_anchor
  obtain ⟨c', hc', hres'⟩ := hr.exists_anchor
  have htype : c'.typeId? = c.typeId? := by
    have h := htype
    rw [typeId?, typeId?, Atom.typeId?, Atom.typeId?, hc, hc'] at h
    exact h
  rw [Atom.label?, Atom.label?, hc, hc', Option.bind_some, Option.bind_some]
  rcases hres.type_cases with ⟨hl, hid⟩ | ⟨l, id, hl, hid, hfound⟩ <;>
    rcases hres'.type_cases with ⟨hl', hid'⟩ | ⟨l', id', hl', hid', hfound'⟩ <;>
    rw [hid, hid'] at htype
  · rw [hl, hl']
  · cases htype
  · cases htype
  · obtain rfl := Option.some.inj htype
    rw [hl, hl', hh.label_eq h₁ h₂ hfound hfound']

/-- The type's identifier is asked of the type's variable. -/
theorem typePredicate_var (hq : q.Decomposed g₁) {p : IdPredicate}
    (hp : q.central.typePredicate? = some p) : p.var = q.central.typeVar := by
  obtain ⟨c, hc, hres⟩ := hq.exists_anchor
  rw [Atom.typePredicate?, hc] at hp
  rw [Atom.typeVar, hc]
  exact hres.var_eq hp

/-- Equivalent queries of decomposed patterns are renamings of each other exactly if the profiles of
their variables are the same. Under every renaming between them, their look-ups in a graph succeed
together and have the same answers, those of the one renamed to those of the other. -/
theorem corresponds_of_isEquivalent {t₁ t₂ : Transaction} (hh : h.Reachable)
    (h₁ : t₁.graph.Precedes h) (h₂ : t₂.graph.Precedes h) {c₁ c₂ : Conjunction}
    {s₁ s₁' s₂ s₂' : Supply} {d₁ d₂ : DecomposedQuery}
    (hd₁ : (Decomposition.ofConjunction t₁ c₁).Gives s₁ d₁ s₁') (hq : q ∈ d₁.queries)
    (hd₂ : (Decomposition.ofConjunction t₂ c₂).Gives s₂ d₂ s₂') (hr : r ∈ d₂.queries)
    (heq : q.isEquivalent r = true) :
    ((∃ ρ, Renames ρ q r) ↔ q.profiles = r.profiles) ∧
      ∀ ρ, Renames ρ q r → ∀ (st : Setting) (k l : Knowledge) (s t : Supply),
        st.transaction.graph.Reachable → k.KeepsPlansOf q → q.FreshFrom s →
        l.KeepsPlansOf r → r.FreshFrom t →
        ((∃ as k' s', (Resolve.lookup st q).Gives k s as k' s') ↔
          ∃ bs l' t', (Resolve.lookup st r).Gives l t bs l' t') ∧
        ∀ as k' s' bs l' t', (Resolve.lookup st q).Gives k s as k' s' →
          (Resolve.lookup st r).Gives l t bs l' t' →
          (bs.map Answer.binding).Perm (as.map fun a => a.binding.relabel ρ) := by
  have hq := Decomposition.decomposed_of_mem_queries hd₁ hq
  have hr := Decomposition.decomposed_of_mem_queries hd₂ hr
  obtain ⟨hfamily, htype⟩ := Atom.family_eq_of_isEquivalent (Bool.and_eq_true_iff.mp heq).1
  have hlabel := label?_eq hh.wellFormed h₁ h₂ hq hr htype
  refine ⟨exists_renames_iff hfamily htype (fun _ => typePredicate_var hq)
    fun _ => typePredicate_var hr, fun ρ hρ st k l s t hg hk hs hl ht => ⟨?_, ?_⟩⟩
  · rw [Resolve.exists_gives_lookup_iff hg hq.plain hk hs,
      Resolve.exists_gives_lookup_iff hg hr.plain hl ht, hρ.statements_eq_nil_iff hq hr hlabel,
      hρ.searchable_iff hq hr hlabel]
  · intro as k' s' bs l' t' has hbs
    obtain ⟨ms, hnodup, hms, has⟩ := Resolve.matches_of_gives_lookup hg hq.plain hk hs has
    obtain ⟨ms', hnodup', hms', hbs⟩ := Resolve.matches_of_gives_lookup hg hr.plain hl ht hbs
    have hmatch {m : Binding} (hm : m ∈ ms) : q.IsMatch st.transaction.graph m :=
      ((hms m).mp hm).2
    have hperm : ms'.Perm (ms.map (Binding.relabel ρ)) := by
      refine (List.perm_ext_iff_of_nodup hnodup' (hnodup.map_on fun m hm m' hm' =>
        hρ.relabel_injective hq (hmatch hm) (hmatch hm'))).mpr fun m' => ?_
      rw [hms', hρ.isMatch_iff hg.wellFormed hq hr hlabel, Ne, hρ.statements_eq_nil_iff hq hr hlabel]
      simp only [List.mem_map, hms, and_assoc, exists_and_left]
    have has : (as.map fun a => a.binding.relabel ρ) =
        (ms.map fun m => m.restrict q.userVars.contains).map (Binding.relabel ρ) := by
      rw [← has, List.map_map]
      rfl
    rw [hbs, has, List.map_map]
    refine (hperm.map _).trans ?_
    rw [List.map_map]
    refine List.Perm.of_eq (List.map_congr_left fun m hm => ?_)
    exact hρ.restrict_relabel hq hr (hmatch hm)

end AtomicQuery

/-! ## Equivalent queries that are no renamings -/

/-- Relations have one shape if their players line up in the order of their names. -/
theorem RelationAtom.shape_eq {r s : RelationAtom}
    (h : (r.rolesByPlayer.entries.map fun e => (e.2, e.1.userDefined)) =
      s.rolesByPlayer.entries.map fun e => (e.2, e.1.userDefined)) : r.shape = s.shape := by
  have hshape (r : RelationAtom) : (r.rolesByPlayer.entries.map fun e =>
      (e.2.mergeSort fun a b => (compare a b).isLE, e.1.userDefined)) =
      (r.rolesByPlayer.entries.map fun e => (e.2, e.1.userDefined)).map fun e =>
        (e.1.mergeSort fun a b => (compare a b).isLE, e.2) := by
    rw [List.map_map]
    rfl
  exact congrArg (List.mergeSort · _) ((hshape r).trans ((congrArg _ h).trans (hshape s).symm))

/-- Relations are equivalent in particular if their players line up in the order of their names. -/
theorem AtomicQuery.isEquivalent_of_players {q r : AtomicQuery} (h : (match q.central, r.central with
    | .relation c, .relation d => c.anchor.isEquivalent d.anchor &&
      (c.rolesByPlayer.entries.map fun e => (e.2, e.1.userDefined)) =
        d.rolesByPlayer.entries.map fun e => (e.2, e.1.userDefined)
    | _, _ => false) = true)
    (hpairs : pairOff (fun p p' => p.isEquivalent p' &&
      r.central.position? p'.var = q.central.position? p.var) q.predicates r.predicates = true) :
    q.isEquivalent r = true := by
  refine Bool.and_eq_true_iff.mpr ⟨?_, hpairs⟩
  split at h
  · next c d hc hd =>
    obtain ⟨hanchor, hplayers⟩ := Bool.and_eq_true_iff.mp h
    rw [hc, hd]
    exact Bool.and_eq_true_iff.mpr
      ⟨hanchor, decide_eq_true (RelationAtom.shape_eq (of_decide_eq_true hplayers))⟩
  · cases h

namespace Pairing

open AtomicQuery

/-- A size over three and one under nine, as the members of a pairing. -/
def transaction : Transaction where
  name := ""
  graph := [.attributeType ⟨"size"⟩, .relationType ⟨"pairing"⟩ [⟨"member"⟩],
    .attr ⟨"size"⟩ (.long 5), .attr ⟨"size"⟩ (.long 2),
    .relation ⟨"pairing"⟩ [(⟨"member"⟩, ⟨"V7"⟩), (⟨"member"⟩, ⟨"V8"⟩)]].foldl Graph.perform {}

def setting : Setting where
  transaction := transaction
  config := {}
  rules := {}

/-- `(member: $x, member: $y) isa pairing; $above val > 3; $below val < 9;` -/
def pattern (x y above below : String) : Conjunction :=
  ⟨[⟨.generated 0, [.relation [⟨some ⟨"member"⟩, .named x⟩, ⟨some ⟨"member"⟩, .named y⟩],
      .isa (.label ⟨"pairing"⟩)]⟩,
    ⟨.named above, [.value ⟨.gt, .long 3⟩]⟩, ⟨.named below, [.value ⟨.lt, .long 9⟩]⟩]⟩

def decomposed (x y above below : String) : DecomposedQuery :=
  (Decomposition.ofConjunction transaction (pattern x y above below)).resultOr { vars := 1 }
    ⟨⟨[]⟩, []⟩

def query (x y above below : String) : AtomicQuery :=
  (decomposed x y above below).queries.headD default

def found (x y above below : String) : List Answer :=
  (Resolve.lookup setting (query x y above below)).resultOr { programs := .ofCapacity 1 }
    { vars := 9 } []

/-- Every pattern of the form has one query. -/
def HasQuery (x y above below : String) : Prop :=
  ∃ s, (Decomposition.ofConjunction transaction (pattern x y above below)).Gives { vars := 1 }
      (decomposed x y above below) s ∧
    query x y above below ∈ (decomposed x y above below).queries

theorem hasQuery {x y above below : String}
    (hok : ((Decomposition.ofConjunction transaction (pattern x y above below)).run
      { vars := 1 }).1.isOk = true) (hlen : (decomposed x y above below).queries.length = 1) :
    HasQuery x y above below := by
  obtain ⟨q, hq⟩ := List.length_eq_one_iff.mp hlen
  refine ⟨_, Attempt.gives_resultOr hok ⟨⟨[]⟩, []⟩, ?_⟩
  show (decomposed x y above below).queries.headD default ∈ _
  rw [hq]
  exact .head _

theorem freshFrom {x y above below : String} (h : HasQuery x y above below)
    (hslots : ∀ v ∈ (query x y above below).slots,
      v.userDefined = true ∨ v ∈ (List.range 9).map Var.generated) :
    (query x y above below).FreshFrom { vars := 9 } := by
  intro k hk hnamed
  obtain ⟨s, hd, hq⟩ := h
  rcases hslots _ (mem_slots_of_names (Decomposition.decomposed_of_mem_queries hd hq) hnamed) with
    huser | hgenerated
  · cases huser
  · obtain ⟨j, hj, heq⟩ := List.mem_map.mp hgenerated
    obtain rfl := Var.generated_injective heq
    exact absurd (List.mem_range.mp hj) (Nat.not_lt.mpr hk)

/-- The predicates may be on the members in the other order. -/
theorem corresponds_of_isEquivalent_crossed :
    (found "x" "y" "x" "y").length = 1 ∧
      ∃ ρ, Renames ρ (query "x" "y" "x" "y") (query "u" "v" "v" "u") ∧
        ((found "u" "v" "v" "u").map Answer.binding).Perm
          ((found "x" "y" "x" "y").map fun a => a.binding.relabel ρ) := by
  have hx : HasQuery "x" "y" "x" "y" := hasQuery (by decide +kernel) (by decide +kernel)
  have hu : HasQuery "u" "v" "v" "u" := hasQuery (by decide +kernel) (by decide +kernel)
  obtain ⟨s, hd, hq⟩ := hx
  obtain ⟨s', hd', hr⟩ := hu
  have hreachable : transaction.graph.Reachable := ⟨_, rfl⟩
  obtain ⟨hrenames, hlookups⟩ := corresponds_of_isEquivalent hreachable ⟨[], rfl⟩ ⟨[], rfl⟩ hd hq
    hd' hr (isEquivalent_of_players (by decide +kernel) (by decide +kernel))
  obtain ⟨ρ, hρ⟩ := hrenames.mpr (by decide +kernel)
  have hkeeps (q : AtomicQuery) : Knowledge.KeepsPlansOf { programs := .ofCapacity 1 } q :=
    fun e he => nomatch he
  have hok : (((Resolve.lookup setting (query "x" "y" "x" "y")).run.run
      { programs := .ofCapacity 1 }).run { vars := 9 }).1.1.isOk = true := by decide +kernel
  have hok' : (((Resolve.lookup setting (query "u" "v" "v" "u")).run.run
      { programs := .ofCapacity 1 }).run { vars := 9 }).1.1.isOk = true := by decide +kernel
  refine ⟨by decide +kernel, ρ, hρ, ?_⟩
  exact (hlookups ρ hρ setting _ _ _ _ hreachable (hkeeps _)
    (freshFrom ⟨s, hd, hq⟩ (by decide +kernel)) (hkeeps _)
    (freshFrom ⟨s', hd', hr⟩ (by decide +kernel))).2 _ _ _ _ _ _ (Resolve.gives_resultOr hok [])
    (Resolve.gives_resultOr hok' [])

/-- Which of the members of one role the predicates are on makes no difference to equivalence: both
on one member pass for one on each. -/
theorem isEquivalent_of_unlike_profiles : ¬ ∀ (t₁ t₂ : Transaction) (c₁ c₂ : Conjunction)
    (s₁ s₁' s₂ s₂' : Supply) (d₁ d₂ : DecomposedQuery) (q r : AtomicQuery),
    t₁.graph = t₂.graph → t₁.graph.Reachable →
    (Decomposition.ofConjunction t₁ c₁).Gives s₁ d₁ s₁' → q ∈ d₁.queries →
    (Decomposition.ofConjunction t₂ c₂).Gives s₂ d₂ s₂' → r ∈ d₂.queries →
    q.isEquivalent r = true → ∃ ρ, Renames ρ q r := by
  intro h
  have hsame : HasQuery "x" "y" "x" "x" := hasQuery (by decide +kernel) (by decide +kernel)
  have heach : HasQuery "x" "y" "x" "y" := hasQuery (by decide +kernel) (by decide +kernel)
  obtain ⟨s, hd, hq⟩ := hsame
  obtain ⟨s', hd', hr⟩ := heach
  obtain ⟨ρ, hρ⟩ := h transaction transaction _ _ _ _ _ _ _ _ _ _ rfl ⟨_, rfl⟩ hd hq hd' hr
    (isEquivalent_of_players (by decide +kernel) (by decide +kernel))
  have hunlike : (query "x" "y" "x" "x").profiles ≠ (query "x" "y" "x" "y").profiles := by
    decide +kernel
  exact hunlike hρ.profiles_eq

end Pairing

end GraphInference
