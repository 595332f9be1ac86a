import GraphInference.Proofs.Query.Lookup
import GraphInference.Proofs.Query.Renaming

/-!
# Classes of equivalent queries

Equivalence sorts queries into classes (`isEquivalent_iff`). The number of a query makes no difference
to what it asks: queries that differ in their numbers alone (`AtomicQuery.IsCopyOf`) are of one class,
are unified alike and have the same matches.
-/

namespace GraphInference

/-! ## Pairing off -/

namespace AtomicQuery

section PairOff

variable {α β γ : Type} {p : α → Bool} {l rest : List α}

theorem perm_of_eraseFirst? (h : eraseFirst? p l = some rest) :
    ∃ a, p a = true ∧ l.Perm (a :: rest) := by
  induction l generalizing rest with
  | nil => cases h
  | cons b l ih =>
    rw [eraseFirst?] at h
    split at h
    · next hb =>
      obtain rfl := Option.some.inj h
      exact ⟨b, hb, .refl _⟩
    · obtain ⟨left, hleft, rfl⟩ := Option.map_eq_some_iff.mp h
      obtain ⟨a, ha, hperm⟩ := ih hleft
      exact ⟨a, ha, (hperm.cons b).trans (.swap a b left)⟩

theorem not_mem_of_eraseFirst?_eq_none (h : eraseFirst? p l = none) : ∀ a ∈ l, p a = false := by
  induction l with
  | nil => exact fun _ ha => nomatch ha
  | cons b l ih =>
    rw [eraseFirst?] at h
    split at h
    · cases h
    · next hb =>
      exact List.forall_mem_cons.mpr ⟨Bool.eq_false_iff.mpr hb, ih (Option.map_eq_none_iff.mp h)⟩

/-- Lists pair off by their images if these are permutations of each other. -/
theorem pairOff_iff_perm [DecidableEq γ] {f : α → γ} {h : β → γ} {matching : α → β → Bool}
    {l : List α} {m : List β} (heq : ∀ a ∈ l, ∀ b ∈ m, matching a b = decide (f a = h b)) :
    pairOff matching l m = true ↔ (l.map f).Perm (m.map h) := by
  induction l generalizing m with
  | nil => simp [pairOff, List.isEmpty_iff]
  | cons a l ih =>
    obtain ⟨ha, hl⟩ := List.forall_mem_cons.mp heq
    rw [pairOff]
    split
    · next rest hrest =>
      obtain ⟨b, hb, hperm⟩ := perm_of_eraseFirst? hrest
      have hmem {c : β} (hc : c ∈ b :: rest) : c ∈ m := hperm.mem_iff.mpr hc
      rw [ih fun a' ha' c hc => hl a' ha' c (hmem (.tail _ hc))]
      have hfirst : f a = h b := by
        rw [ha b (hmem (.head _))] at hb
        exact of_decide_eq_true hb
      have hmap := hperm.map h
      rw [List.map_cons, ← hfirst] at hmap
      rw [List.map_cons]
      exact ⟨fun hrest => (hrest.cons _).trans hmap.symm,
        fun hall => (List.perm_cons _).mp (hall.trans hmap)⟩
    · next hnone =>
      refine iff_of_false Bool.false_ne_true fun hall => ?_
      obtain ⟨b, hb, hab⟩ := List.mem_map.mp (hall.mem_iff.mp (.head _))
      have hoff := not_mem_of_eraseFirst?_eq_none hnone b hb
      rw [ha b hb, hab, decide_eq_true rfl] at hoff
      cases hoff

end PairOff

end AtomicQuery

/-! ## Equivalence -/

namespace Atom

variable {a b c : Atom}

theorem isEquivalent_refl (a : Atom) : a.isEquivalent a = true := by
  cases a <;> simp [isEquivalent, Anchor.isEquivalent, RelationAtom.isEquivalent,
    ValuePredicate.isEquivalent, IdPredicate.isEquivalent, Substitution.isEquivalent]

theorem isEquivalent_symm (h : a.isEquivalent b = true) : b.isEquivalent a = true := by
  cases a <;> cases b <;> simp_all [isEquivalent, Anchor.isEquivalent, RelationAtom.isEquivalent,
    ValuePredicate.isEquivalent, IdPredicate.isEquivalent, Substitution.isEquivalent]

theorem isEquivalent_trans (h : a.isEquivalent b = true) (h' : b.isEquivalent c = true) :
    a.isEquivalent c = true := by
  cases a <;> cases b <;> cases c <;> simp_all [isEquivalent, Anchor.isEquivalent,
    RelationAtom.isEquivalent, ValuePredicate.isEquivalent, IdPredicate.isEquivalent,
    Substitution.isEquivalent]

/-- Atoms are equivalent if the same atoms are equivalent to them. -/
theorem isEquivalent_iff_eq : a.isEquivalent b = true ↔ a.isEquivalent = b.isEquivalent := by
  refine ⟨fun h => funext fun c => Bool.eq_iff_iff.mpr ?_, fun h => h ▸ isEquivalent_refl b⟩
  exact ⟨isEquivalent_trans (isEquivalent_symm h), isEquivalent_trans h⟩

/-- Predicates are equivalent if they ask the same. -/
theorem isEquivalent_iff_demand? (ha : a.isPredicate = true) (hb : b.isPredicate = true) :
    a.isEquivalent b = true ↔ a.demand? = b.demand? := by
  cases a <;> cases b <;> first | cases ha; done | cases hb; done | simp [isEquivalent, demand?,
    ValuePredicate.isEquivalent, IdPredicate.isEquivalent, Substitution.isEquivalent]

end Atom

namespace AtomicQuery

variable {q r p : AtomicQuery}

/-- The predicates of a query are predicates. -/
def HasPredicates (q : AtomicQuery) : Prop :=
  ∀ a ∈ q.predicates, a.isPredicate = true

/-- What a predicate asks, and the place of the variable that it asks it of. -/
def place (q : AtomicQuery) (a : Atom) : Option Demand × Option VarPosition :=
  (a.demand?, q.central.position? a.var)

/-- Queries are equivalent if their central atoms are and their predicates ask the same at the same
places. -/
theorem isEquivalent_iff (hq : q.HasPredicates) (hr : r.HasPredicates) :
    q.isEquivalent r = true ↔ q.central.isEquivalent r.central = true ∧
      (q.predicates.map q.place).Perm (r.predicates.map r.place) := by
  rw [isEquivalent, Bool.and_eq_true_iff]
  refine and_congr_right fun _ => pairOff_iff_perm fun a ha b hb => ?_
  rw [Bool.eq_iff_iff, Bool.and_eq_true_iff, Atom.isEquivalent_iff_demand? (hq a ha) (hr b hb),
    decide_eq_true_eq, decide_eq_true_eq, place, place, Prod.mk.injEq, eq_comm (b := r.central.position? _)]

/-- The class of a predicate, and the place of its variable. -/
def kind (q : AtomicQuery) (a : Atom) : (Atom → Bool) × Option VarPosition :=
  (a.isEquivalent, q.central.position? a.var)

/-- Queries are equivalent if their central atoms are and their predicates are of the same kinds. -/
theorem isEquivalent_iff_kind : q.isEquivalent r = true ↔ q.central.isEquivalent r.central = true ∧
    (q.predicates.map q.kind).Perm (r.predicates.map r.kind) := by
  classical
  rw [isEquivalent, Bool.and_eq_true_iff]
  refine and_congr_right fun _ => pairOff_iff_perm fun a ha b hb => ?_
  rw [Bool.eq_iff_iff, Bool.and_eq_true_iff, Atom.isEquivalent_iff_eq, decide_eq_true_eq,
    decide_eq_true_eq, kind, kind, Prod.mk.injEq, eq_comm (b := r.central.position? _)]

theorem isEquivalent_refl (q : AtomicQuery) : q.isEquivalent q = true :=
  isEquivalent_iff_kind.mpr ⟨q.central.isEquivalent_refl, .refl _⟩

theorem isEquivalent_symm (h : q.isEquivalent r = true) : r.isEquivalent q = true := by
  obtain ⟨hcentral, hkinds⟩ := isEquivalent_iff_kind.mp h
  exact isEquivalent_iff_kind.mpr ⟨Atom.isEquivalent_symm hcentral, hkinds.symm⟩

theorem isEquivalent_trans (h : q.isEquivalent r = true) (h' : r.isEquivalent p = true) :
    q.isEquivalent p = true := by
  obtain ⟨hcentral, hkinds⟩ := isEquivalent_iff_kind.mp h
  obtain ⟨hcentral', hkinds'⟩ := isEquivalent_iff_kind.mp h'
  exact isEquivalent_iff_kind.mpr ⟨Atom.isEquivalent_trans hcentral hcentral', hkinds.trans hkinds'⟩

end AtomicQuery

/-! ## Numbers -/

namespace Atom

variable {a b : Atom} {i j : QueryId}

theorem withQuery_withQuery : (a.withQuery i).withQuery j = a.withQuery j := by
  cases a <;> simp [withQuery, Function.comp_def]

theorem demand?_withQuery : (a.withQuery i).demand? = a.demand? := by
  cases a <;> rfl

theorem var_withQuery : (a.withQuery i).var = a.var := by
  cases a <;> rfl

theorem family_withQuery : (a.withQuery i).family = a.family := by
  cases a <;> rfl

theorem typeVar_withQuery : (a.withQuery i).typeVar = a.typeVar := by
  cases a <;> rfl

theorem label?_withQuery : (a.withQuery i).label? = a.label? := by
  cases a <;> rfl

theorem players_withQuery : (a.withQuery i).players = a.players := by
  cases a <;> rfl

theorem vars_withQuery : (a.withQuery i).vars = a.vars := by
  cases a <;> rfl

theorem position?_withQuery {v : Var} : (a.withQuery i).position? v = a.position? v := by
  cases a <;> rfl

theorem typePredicate?_withQuery : (a.withQuery i).typePredicate?.map (fun p => (p.id, p.var)) =
    a.typePredicate?.map fun p => (p.id, p.var) := by
  cases a <;> first | rfl | exact Option.map_map _ _ _

theorem typeId?_withQuery : (a.withQuery i).typeId? = a.typeId? := by
  cases a <;> first | rfl | exact Option.map_map _ _ _

/-- Two atoms that differ in the query that they are parts of. -/
theorem toStatements_withQuery : (a.withQuery i).toStatements = a.toStatements := by
  rcases a with ⟨_, _, _ | _, _, _⟩ | ⟨⟨_, _, _ | _, _, _⟩, _⟩ | _ | _ | _ <;> rfl

theorem isEquivalent_withQuery : (a.withQuery i).isEquivalent b = a.isEquivalent b := by
  rcases a with ⟨_, _, _ | _, _, _⟩ | ⟨⟨_, _, _ | _, _, _⟩, _⟩ | _ | _ | _ <;> cases b <;> rfl

theorem unifier_withQuery : (a.withQuery i).unifier b = a.unifier b := by
  cases a <;> cases b <;> rfl

theorem unifier_withQuery_right : a.unifier (b.withQuery i) = a.unifier b := by
  rcases b with ⟨_, _, _ | _, _, _⟩ | ⟨⟨_, _, _ | _, _, _⟩, _⟩ | _ | _ | _ <;> cases a <;> rfl

theorem matches_withQuery {g : Graph} {look : Var → Option ConceptId} :
    (a.withQuery i).Matches g look ↔ a.Matches g look := by
  cases a <;> exact Iff.rfl

theorem names_withQuery {v : Var} : (a.withQuery i).Names v ↔ a.Names v := by
  cases a <;> exact Iff.rfl

theorem searchable_withQuery : (a.withQuery i).Searchable ↔ a.Searchable := by
  cases a <;> exact Iff.rfl

end Atom

namespace AtomicQuery

variable {q r b c : AtomicQuery} {i : QueryId}

/-- The query is the other one, under its number or another. -/
def IsCopyOf (q b : AtomicQuery) : Prop :=
  q = b ∨ ∃ i, q = b.renumber i

theorem central_renumber : (q.renumber i).central = q.central.withQuery i := rfl

theorem atoms_renumber : (q.renumber i).atoms = q.atoms.map (·.withQuery i) := rfl

theorem HasPredicates.renumber (h : q.HasPredicates) : (q.renumber i).HasPredicates := by
  intro a ha
  obtain ⟨p, hp, rfl⟩ := List.mem_map.mp ha
  rw [Atom.isPredicate_withQuery]
  exact h p hp

theorem map_place_renumber : (q.renumber i).predicates.map (q.renumber i).place =
    q.predicates.map q.place := by
  show (q.predicates.map (·.withQuery i)).map _ = _
  rw [List.map_map]
  refine List.map_congr_left fun a _ => ?_
  show ((a.withQuery i).demand?, (q.central.withQuery i).position? (a.withQuery i).var) = q.place a
  rw [Atom.demand?_withQuery, Atom.var_withQuery, Atom.position?_withQuery]
  rfl

theorem vars_renumber : (q.renumber i).vars = q.vars := by
  rw [vars, vars, atoms_renumber, List.flatMap_map]
  simp only [Atom.vars_withQuery]

theorem toConjunction_renumber : (q.renumber i).toConjunction = q.toConjunction := by
  rw [toConjunction, toConjunction, atoms_renumber, List.flatMap_map]
  simp only [Atom.toStatements_withQuery]

theorem names_renumber {v : Var} : (q.renumber i).Names v ↔ q.Names v := by
  simp only [Names, atoms_renumber, List.mem_map, exists_exists_and_eq_and, Atom.names_withQuery]

namespace IsCopyOf

theorem refl (q : AtomicQuery) : q.IsCopyOf q :=
  .inl rfl

theorem renumber (h : q.IsCopyOf b) : (q.renumber i).IsCopyOf b := by
  rcases h with rfl | ⟨j, rfl⟩
  · exact .inr ⟨i, rfl⟩
  · refine .inr ⟨i, ?_⟩
    simp only [AtomicQuery.renumber, Atom.withQuery_withQuery, List.map_map, Function.comp_def]

theorem hasPredicates (h : q.IsCopyOf b) (hb : b.HasPredicates) : q.HasPredicates := by
  rcases h with rfl | ⟨i, rfl⟩
  · exact hb
  · exact hb.renumber

theorem vars_eq (h : q.IsCopyOf b) : q.vars = b.vars := by
  rcases h with rfl | ⟨i, rfl⟩
  · rfl
  · exact vars_renumber

theorem userVars_eq (h : q.IsCopyOf b) : q.userVars = b.userVars := by
  rw [userVars, userVars, h.vars_eq]

theorem toConjunction_eq (h : q.IsCopyOf b) : q.toConjunction = b.toConjunction := by
  rcases h with rfl | ⟨i, rfl⟩
  · rfl
  · exact toConjunction_renumber

theorem unifier_eq (h : q.IsCopyOf b) (h' : r.IsCopyOf c) : q.unifier r = b.unifier c := by
  have hleft {q r : AtomicQuery} {i : QueryId} : (q.renumber i).unifier r = q.unifier r := by
    rw [AtomicQuery.unifier, central_renumber, Atom.unifier_withQuery, Atom.var_withQuery]
    rfl
  have hright {q r : AtomicQuery} {i : QueryId} : q.unifier (r.renumber i) = q.unifier r := by
    rw [AtomicQuery.unifier, central_renumber, Atom.unifier_withQuery_right, Atom.var_withQuery]
    rfl
  rcases h with rfl | ⟨i, rfl⟩ <;> rcases h' with rfl | ⟨j, rfl⟩
  · rfl
  · exact hright
  · exact hleft
  · exact hleft.trans hright

theorem isEquivalent_eq (h : q.IsCopyOf b) (h' : r.IsCopyOf c) (hb : b.HasPredicates)
    (hc : c.HasPredicates) : q.isEquivalent r = b.isEquivalent c := by
  have hplaces {q b : AtomicQuery} (h : q.IsCopyOf b) :
      q.predicates.map q.place = b.predicates.map b.place := by
    rcases h with rfl | ⟨i, rfl⟩
    · rfl
    · exact map_place_renumber
  have hcentral {q b : AtomicQuery} {a : Atom} (h : q.IsCopyOf b) :
      q.central.isEquivalent a = b.central.isEquivalent a := by
    rcases h with rfl | ⟨i, rfl⟩
    · rfl
    · exact Atom.isEquivalent_withQuery
  have hsymm (a b : Atom) : a.isEquivalent b = b.isEquivalent a :=
    Bool.eq_iff_iff.mpr ⟨Atom.isEquivalent_symm, Atom.isEquivalent_symm⟩
  rw [Bool.eq_iff_iff, isEquivalent_iff (h.hasPredicates hb) (h'.hasPredicates hc),
    isEquivalent_iff hb hc, hplaces h, hplaces h', hcentral h, hsymm, hcentral h', hsymm]

end IsCopyOf

end AtomicQuery

end GraphInference
