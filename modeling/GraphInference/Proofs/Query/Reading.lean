import GraphInference.Proofs.Pattern.Reading
import GraphInference.Query

/-!
# What atoms say

An atom says something of the concepts that stand for its variables: `Atom.Matches`. The statements
that an atom is looked up by make fragment sets that say just this, for every atom that is `Plain`:
its type has a label and then a system variable, or a variable and then no known type.
-/

namespace GraphInference

/-! ## Readings -/

namespace Anchor

/-- The type that the statement of an anchor gives. -/
def type? (c : Anchor) : Option TypeRef :=
  match c.label with
  | some l => some (.label l)
  | none => if c.typeVar.isEmpty then none else some (.var c.typeVar)

/-- A label goes with a system variable, and no label with no known type. -/
def Plain (c : Anchor) : Prop :=
  match c.label with
  | some _ => c.typeVar.userDefined = false ∧ c.typeVar.isEmpty = false
  | none => c.typePredicate = none

theorem Plain.typed_eq {c : Anchor} (h : c.Plain) (s : Statement) :
    c.typed s = match c.type? with
      | some t => [s.withProperty (.isa t)]
      | none => [s] := by
  unfold Plain at h
  unfold typed type?
  split at h
  · next l hl => rw [hl, h.1]
  · next hl =>
    rw [hl, h]
    by_cases he : c.typeVar.isEmpty <;> simp [he]

/-- A type is given unless its variable is absent. -/
theorem Plain.type?_eq_none_iff {c : Anchor} (h : c.Plain) :
    c.type? = none ↔ c.typeVar.isEmpty = true := by
  unfold Plain at h
  unfold type?
  split at h
  · simp [h.2]
  · simp

end Anchor

namespace Atom

/-- The variables that the atom's statements name. -/
def Names (a : Atom) (v : Var) : Prop :=
  match a with
  | .isa c => ∃ t ∈ c.type?, t.Names c.var v
  | .relation r => (∃ p ∈ r.players, v = r.anchor.var ∨ v = p.2) ∨
      ∃ t ∈ r.anchor.type?, t.Names r.anchor.var v
  | a => v = a.var

/-- What the atom says of the concepts of its variables. -/
def Matches (g : Graph) (look : Var → Option ConceptId) : Atom → Prop
  | .isa c => ∀ t ∈ c.type?, t.Reads g look c.var
  | .relation r => (∀ t ∈ r.anchor.type?, t.Reads g look r.anchor.var) ∧ ∃ cs : List Casting,
      cs.Nodup ∧ List.Forall₂ (fun p c => g.Stands look r.anchor.var p.1.label? p.2 c) r.players cs
  | .value p => p.constraint.Reads g look p.var
  | .identity p => g.Holds p.id ∧ look p.var = some p.id
  | .substitution s => g.Holds ⟨s.value⟩ ∧ look s.var = some ⟨s.value⟩

def Plain (a : Atom) : Prop :=
  ∀ c, a.anchor? = some c → c.Plain

/-- A relation has a player or a type, so that its statement makes a fragment set. -/
def Searchable : Atom → Prop
  | .relation r => r.players ≠ [] ∨ r.anchor.type? ≠ none
  | _ => True

instance (a : Atom) : Decidable a.Searchable :=
  match a with
  | .relation r => inferInstanceAs (Decidable (r.players ≠ [] ∨ r.anchor.type? ≠ none))
  | .isa _ | .value _ | .identity _ | .substitution _ => isTrue trivial

end Atom

/-! ## Statements -/

namespace Atom

variable {a : Atom} {g : Graph} {look : Var → Option ConceptId} {v : Var}

theorem toStatements_isa {c : Anchor} (hc : c.Plain) :
    (isa c).toStatements = c.type?.toList.map fun t => ⟨c.var, [.isa t]⟩ := by
  rw [toStatements, hc.typed_eq]
  cases ht : c.type? with
  | none => rw [if_pos (hc.type?_eq_none_iff.mp ht)]; rfl
  | some t =>
    rw [if_neg fun he => by rw [hc.type?_eq_none_iff.mpr he] at ht; cases ht]
    rfl

theorem toStatements_relation {r : RelationAtom} (hr : r.anchor.Plain) :
    (relation r).toStatements =
      [⟨r.anchor.var, .relation (r.players.map fun p => ⟨p.1.label?, p.2⟩) ::
        r.anchor.type?.toList.map .isa⟩] := by
  rw [toStatements, RelationAtom.toStatements, hr.typed_eq]
  cases r.anchor.type? <;> rfl

/-- The statements of a plain atom say what the atom says. -/
theorem Plain.forall_reads_iff (ha : a.Plain) :
    (∀ s ∈ a.toStatements, s.Reads g look) ↔ a.Matches g look := by
  cases a with
  | isa c =>
    rw [toStatements_isa (ha c rfl)]
    simp [Statement.Reads, Property.Reads, Matches]
  | relation r =>
    rw [toStatements_relation (ha r.anchor rfl)]
    simp only [List.mem_singleton, forall_eq, Statement.Reads, List.forall_mem_cons, Matches,
      Property.Reads, List.forall₂_map_left_iff, List.forall_mem_map, Option.mem_toList]
    exact and_comm
  | _ => simp [toStatements, ValuePredicate.toStatement, IdPredicate.toStatement,
      Substitution.toStatement, Statement.Reads, Property.Reads, Matches]

theorem Plain.exists_names_iff (ha : a.Plain) :
    (∃ s ∈ a.toStatements, s.Names v) ↔ a.Names v := by
  cases a with
  | isa c =>
    rw [toStatements_isa (ha c rfl)]
    simp [Statement.Names, Property.Names, Names]
  | relation r =>
    rw [toStatements_relation (ha r.anchor rfl)]
    simp [Statement.Names, Property.Names, Names]
  | _ => simp [toStatements, ValuePredicate.toStatement, IdPredicate.toStatement,
      Substitution.toStatement, Statement.Names, Property.Names, Names, var]

end Atom

namespace FragmentSet

open Attempt

variable {g : Graph} {names names' : Var → Prop} {P P' : (Var → Option ConceptId) → Prop}

theorem run_ofStatement_one (x : Var) (p : Property) (s : Supply) :
    (ofStatement ⟨x, [p]⟩).run s = (ofProperty ⟨x, [p]⟩ p).run s := by
  show ([((ofProperty ⟨x, [p]⟩ p).run s).1].flatten, _) = _
  rw [List.flatten_singleton]
  rfl

theorem spells_ofStatement_one {x : Var} {p : Property}
    (h : Spells g (ofProperty ⟨x, [p]⟩ p) names P) : Spells g (ofStatement ⟨x, [p]⟩) names P := by
  intro s
  rw [run_ofStatement_one]
  exact h s

theorem spells_ofStatement_two {x : Var} {p q : Property}
    (h : Spells g (ofProperty ⟨x, [p, q]⟩ p) names P)
    (h' : Spells g (ofProperty ⟨x, [p, q]⟩ q) names' P') :
    Spells g (ofStatement ⟨x, [p, q]⟩) (fun v => names v ∨ names' v)
      fun look => P look ∧ P' look := by
  intro s
  have happend := (h s).append (h' ((ofProperty ⟨x, [p, q]⟩ p).run s).2)
  have hrun : (ofStatement ⟨x, [p, q]⟩).run s =
      ([((ofProperty ⟨x, [p, q]⟩ p).run s).1, ((ofProperty ⟨x, [p, q]⟩ q).run
        ((ofProperty ⟨x, [p, q]⟩ p).run s).2).1].flatten,
        ((ofProperty ⟨x, [p, q]⟩ q).run ((ofProperty ⟨x, [p, q]⟩ p).run s).2).2) := rfl
  rw [hrun, List.flatten_cons, List.flatten_singleton]
  exact happend

theorem Spells.of_iff {x : Fresh (List FragmentSet)} (h : Spells g x names P)
    (hnames : ∀ v, names v ↔ names' v) (hP : ∀ look, P look ↔ P' look) : Spells g x names' P' :=
  fun s => (h s).of_iff hnames hP

/-- The statement of a relation says what the relation atom does. -/
theorem spells_relation (hg : g.WellFormed) (r : RelationAtom) :
    Spells g (ofStatement ⟨r.anchor.var, .relation (r.players.map fun p => ⟨p.1.label?, p.2⟩) ::
      r.anchor.type?.toList.map .isa⟩) (Atom.relation r).Names
        fun look => (Atom.relation r).Matches g look := by
  have hplayers (v : Var) : (∃ p ∈ r.players.map fun p => (⟨p.1.label?, p.2⟩ : RolePlayer),
      v = r.anchor.var ∨ v = p.player) ↔ ∃ p ∈ r.players, v = r.anchor.var ∨ v = p.2 := by
    simp only [List.mem_map, exists_exists_and_eq_and]
  have hnames (v : Var) : (Atom.relation r).Names v ↔ (∃ p ∈ r.players, v = r.anchor.var ∨ v = p.2) ∨
      ∃ t ∈ r.anchor.type?, t.Names r.anchor.var v := Iff.rfl
  have hmatches (look : Var → Option ConceptId) : (Atom.relation r).Matches g look ↔
      (∀ t ∈ r.anchor.type?, t.Reads g look r.anchor.var) ∧ ∃ cs : List Casting, cs.Nodup ∧
        List.Forall₂ (Fits g look r.anchor.var (accepted r.anchor.type?))
          (r.players.map fun p => ⟨p.1.label?, p.2⟩) cs := by
    refine and_congr_right fun htype => exists_congr fun cs => and_congr_right fun _ => ?_
    rw [forall₂_fits_iff htype, List.forall₂_map_left_iff]
  cases htype : r.anchor.type? with
  | none =>
    refine (spells_ofStatement_one (@spells_ofPlayers g _ (accepted none) _ hg _)).of_iff
      (fun v => ?_) fun look => ?_
    · rw [hplayers, hnames, htype]
      simp
    · rw [hmatches, htype]
      simp
  | some t =>
    refine (spells_ofStatement_two (p := .relation _) (q := .isa t)
      (@spells_ofPlayers g _ (accepted (some t)) _ hg _) (spells_ofIsa hg r.anchor.var t)).of_iff
        (fun v => ?_) fun look => ?_
    · rw [hplayers, hnames, htype]
      simp
    · rw [hmatches, htype, and_comm]
      simp

/-- A plain atom has no statement and says nothing, or one statement that says what it does. -/
theorem statements_of_plain (hg : g.WellFormed) {a : Atom} (ha : a.Plain) :
    (a.toStatements = [] ∧ (∀ v, ¬ a.Names v) ∧ ∀ look, a.Matches g look) ∨
      ∃ st, a.toStatements = [st] ∧ Spells g (ofStatement st) a.Names (a.Matches g ·) := by
  cases a with
  | isa c =>
    have hstatements := Atom.toStatements_isa (ha c rfl)
    cases htype : c.type? with
    | none =>
      rw [htype] at hstatements
      refine .inl ⟨hstatements, fun v hv => ?_, fun look t ht => ?_⟩
      · obtain ⟨t, ht, -⟩ := hv
        rw [htype] at ht
        cases ht
      · rw [htype] at ht
        cases ht
    | some t =>
      rw [htype] at hstatements
      refine .inr ⟨⟨c.var, [.isa t]⟩, hstatements, ?_⟩
      refine (spells_ofStatement_one (spells_ofIsa hg c.var t)).of_iff (fun v => ?_) fun look => ?_
      · simp [Atom.Names, htype]
      · simp [Atom.Matches, htype]
  | relation r => exact .inr ⟨_, Atom.toStatements_relation (ha r.anchor rfl), spells_relation hg r⟩
  | value p => exact .inr ⟨_, rfl, spells_ofStatement_one (spells_value _ p.var p.constraint)⟩
  | identity p => exact .inr ⟨_, rfl, spells_ofStatement_one (spells_identity _ p.var p.id)⟩
  | substitution s => exact .inr ⟨_, rfl, spells_ofStatement_one (spells_identity _ s.var _)⟩

/-! ## Lists of atoms -/

/-- The sets that are made for plain atoms say what the atoms say. -/
theorem says_of_gives (hg : g.WellFormed) {atoms : List Atom} (hplain : ∀ a ∈ atoms, a.Plain)
    {s t : Supply} {sets : List FragmentSet}
    (h : (ofStatements (atoms.flatMap Atom.toStatements)).Gives s sets t) :
    Says g s.vars t.vars sets (fun v => ∃ a ∈ atoms, a.Names v)
      fun look => ∀ a ∈ atoms, a.Matches g look := by
  induction atoms generalizing s sets with
  | nil =>
    obtain ⟨rfl, rfl⟩ := gives_pure.mp h
    exact (Says.nil g s.vars).of_iff (fun v => by simp) fun look => by simp
  | cons a atoms ih =>
    obtain ⟨ha, hatoms⟩ := List.forall_mem_cons.mp hplain
    rcases statements_of_plain hg ha with ⟨hempty, hnames, hmatches⟩ | ⟨st, hst, hspells⟩
    · rw [List.flatMap_cons, hempty, List.nil_append] at h
      exact (ih hatoms h).of_iff (fun v => by simp [hnames]) fun look => by simp [hmatches]
    · rw [List.flatMap_cons, hst, List.singleton_append] at h
      obtain ⟨-, rest, hrest, rfl⟩ := gives_ofStatements_cons.mp h
      exact ((hspells s).append (ih hatoms hrest)).of_iff (fun v => by simp) fun look => by simp

/-- The statement of a searchable atom names a variable. -/
theorem exists_names_of_searchable {a : Atom} (h : a.Searchable) (hst : a.toStatements ≠ []) :
    ∃ v, a.Names v := by
  have hnames (x : Var) (t : TypeRef) : t.Names x x := by
    cases t with
    | label l => exact rfl
    | var v => exact .inl rfl
  cases a with
  | isa c =>
    have hempty : c.typeVar.isEmpty ≠ true := fun e => hst (if_pos e)
    obtain ⟨t, ht⟩ : ∃ t, c.type? = some t := by
      unfold Anchor.type?
      split
      · exact ⟨_, rfl⟩
      · exact ⟨_, if_neg hempty⟩
    exact ⟨c.var, t, ht, hnames c.var t⟩
  | relation r =>
    rcases h with h | h
    · obtain ⟨p, hp⟩ := List.exists_mem_of_ne_nil _ h
      exact ⟨r.anchor.var, .inl ⟨p, hp, .inl rfl⟩⟩
    · obtain ⟨t, ht⟩ := Option.ne_none_iff_exists'.mp h
      exact ⟨r.anchor.var, .inr ⟨t, ht, hnames r.anchor.var t⟩⟩
  | _ => exact ⟨_, rfl⟩

/-- The statement of a plain atom makes a fragment set if and only if the atom is searchable. -/
theorem ofStatement_ne_nil_iff {a : Atom} (ha : a.Plain) {st : Statement}
    (hst : a.toStatements = [st]) (hspells : Spells g (ofStatement st) a.Names (a.Matches g ·))
    (s : Supply) : ((ofStatement st).run s).1 ≠ [] ↔ a.Searchable := by
  constructor
  · intro hne
    cases a with
    | relation r =>
      by_contra hn
      obtain ⟨hplayers, htype⟩ : r.players = [] ∧ r.anchor.type? = none := by
        simpa [Atom.Searchable] using hn
      have htyped := (show r.anchor.Plain from ha r.anchor rfl).typed_eq
        ⟨r.anchor.var, [.relation []]⟩
      rw [htype] at htyped
      rw [Atom.toStatements, RelationAtom.toStatements, hplayers, List.map_nil, htyped] at hst
      obtain rfl := List.singleton_inj.mp hst
      exact hne rfl
    | _ => trivial
  · intro h hnil
    obtain ⟨v, hv⟩ := exists_names_of_searchable h (by simp [hst])
    obtain ⟨set, hset, -⟩ := ((hspells s).mentions v).mpr (.inl hv)
    rw [hnil] at hset
    cases hset

/-- The sets of plain atoms can be made if and only if every relation has a player or a type. -/
theorem exists_gives_iff_searchable (hg : g.WellFormed) {atoms : List Atom}
    (hplain : ∀ a ∈ atoms, a.Plain) {s : Supply} :
    (∃ sets t, (ofStatements (atoms.flatMap Atom.toStatements)).Gives s sets t) ↔
      ∀ a ∈ atoms, a.Searchable := by
  induction atoms generalizing s with
  | nil => exact iff_of_true ⟨[], s, gives_pure.mpr ⟨rfl, rfl⟩⟩ fun _ ha => nomatch ha
  | cons a atoms ih =>
    obtain ⟨ha, hatoms⟩ := List.forall_mem_cons.mp hplain
    rw [List.flatMap_cons, List.forall_mem_cons]
    rcases statements_of_plain hg ha with ⟨hempty, hnames, -⟩ | ⟨st, hst, hspells⟩
    · have hsearchable : a.Searchable := by
        cases a with
        | relation r =>
          by_contra hn
          have hne : (Atom.relation r).toStatements ≠ [] := by
            rw [Atom.toStatements, RelationAtom.toStatements,
              (show r.anchor.Plain from ha r.anchor rfl).typed_eq]
            split <;> exact List.cons_ne_nil _ _
          exact hne hempty
        | _ => trivial
      rw [hempty, List.nil_append, ih hatoms, and_iff_right hsearchable]
    · rw [hst, List.singleton_append, ← ofStatement_ne_nil_iff ha hst hspells s,
        ← ih hatoms (s := ((ofStatement st).run s).2)]
      simp only [gives_ofStatements_cons]
      constructor
      · rintro ⟨sets, t, hne, rest, hrest, -⟩
        exact ⟨hne, rest, t, hrest⟩
      · rintro ⟨hne, rest, t, hrest⟩
        exact ⟨_, t, hne, rest, hrest, rfl⟩

end FragmentSet

end GraphInference
