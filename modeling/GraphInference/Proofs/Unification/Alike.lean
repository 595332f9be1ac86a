import GraphInference.Proofs.Resolution.Derivability
import GraphInference.Proofs.Unification.Distinct

/-!
# Atoms that unify alike

Two central atoms have a unifier exactly if the players of the one have places among those of the other and
no variable is paired with two others (`Atom.exists_unifier_iff`). So a renaming of a query unifies with the
head of a rule if and only if the query does, and to the same effect, provided that alignment treats the
players of both alike (`Atom.SeatsAlike`) and that the renaming moves no variable of the head. Then the rules
respect the renaming: `RuleSet.respects_of_seatsAlike`.
-/

namespace GraphInference

open RelationAtom

/-! ## When there is a unifier -/

namespace Atom

/-- Every player of the atom finds a place among those of the other. -/
def Seated : Atom → Atom → Prop
  | .relation q, .relation h => ∀ o ∈ q.places h, o.isSome = true
  | _, _ => True

/-- The variables face each other and are to be mapped. -/
def Paired (q h : Atom) (v w : Var) : Prop :=
  v ≠ w ∧ (v = q.var ∧ w = h.var ∧ h.var.userDefined = true ∨
    q.typeVar? = some v ∧ h.typeVar? = some w ∨ Counterpart q.players h.players (q.placed h) v w)

theorem exists_unifier_iff {q h : Atom} (hq : q.isPredicate = false) (hfamily : q.family = h.family) :
    (∃ u, q.unifier h = .ok u) ↔ q.Seated h ∧ ∀ v w w', q.Paired h v w → q.Paired h v w' → w = w' := by
  classical
  constructor
  · rintro ⟨u, hu⟩
    obtain ⟨-, hget⟩ := get?_unifier hq hu
    refine ⟨?_, fun v w w' hw hw' => ?_⟩
    · cases q with
      | relation q =>
        cases h with
        | relation h =>
          obtain ⟨_, -, hu⟩ := Except.bind_eq_ok.mp hu
          obtain ⟨pairs, hpairs, -⟩ := Except.bind_eq_ok.mp hu
          exact exists_align_iff.mp ⟨pairs, hpairs⟩
        | _ => cases hfamily
      | _ => trivial
    · have hw := (hget v w).mpr hw
      exact Option.some.inj (hw.symm.trans ((hget v w').mpr hw'))
  · rintro ⟨hseated, hsingle⟩
    let ρ (v : Var) : Var := if h : ∃ w, q.Paired h v w then h.choose else v
    have hρ {v w : Var} (hvw : q.Paired h v w) : w = ρ v := by
      have hex : ∃ w, q.Paired h v w := ⟨w, hvw⟩
      rw [show ρ v = hex.choose from dif_pos hex]
      exact hsingle v w _ hvw hex.choose_spec
    have hanchor {a b : Anchor} (ha : q.anchor? = some a) (hb : h.anchor? = some b) (hvar : q.var = a.var)
        (hvar' : h.var = b.var) : ∃ u, a.unifier b = .ok u ∧ u.Follows ρ := by
      refine Anchor.exists_unifier (fun huser hne => hρ ⟨hne, .inl ⟨hvar.symm, hvar'.symm, ?_⟩⟩)
        fun hpresent hpresent' hne => hρ ⟨hne, .inr (.inl ⟨?_, ?_⟩)⟩
      · rwa [hvar']
      · exact (typeVar?_eq_some ha).mpr ⟨rfl, hpresent⟩
      · exact (typeVar?_eq_some hb).mpr ⟨rfl, hpresent'⟩
    cases q with
    | isa a =>
      cases h with
      | isa b =>
        obtain ⟨u, hu, -⟩ := hanchor rfl rfl rfl rfl
        exact ⟨u, hu⟩
      | _ => cases hfamily
    | relation a =>
      cases h with
      | relation b =>
        obtain ⟨u, hu, hfollows⟩ := hanchor rfl rfl rfl rfl
        obtain ⟨pairs, hpairs⟩ := exists_align_iff.mpr hseated
        obtain ⟨-, hmem⟩ := align_eq_ok hpairs
        obtain ⟨w, hw, -⟩ := exists_unifier_of_follows hu hfollows hpairs fun p hp hne =>
          hρ ⟨hne, .inr (.inr ((hmem p.1 p.2).mp hp))⟩
        exact ⟨w, hw⟩
      | _ => cases hfamily
    | _ => cases hq

/-! ## Renamed atoms -/

/-- Alignment with the head finds places for the players of both atoms or of none, and for both the same
counterparts. -/
structure SeatsAlike (ρ : Var → Var) (q q' h : Atom) : Prop where
  seated : q.Seated h ↔ q'.Seated h
  counterpart : q.Seated h → ∀ v w, (∃ p ∈ q.players, p.2 = v) →
    (Counterpart q'.players h.players (q'.placed h) (ρ v) w ↔ Counterpart q.players h.players (q.placed h) v w)

/-- The variable stands at a place of the atom. -/
def Holds (h : Atom) (w : Var) : Prop :=
  w = h.var ∨ h.typeVar? = some w ∨ ∃ p ∈ h.players, p.2 = w

/-! ## Heads of other types -/

/-- The atoms have the same players and the same variable, unless this is not user-defined. -/
structure Resembles (h h' : Atom) : Prop where
  family : h'.family = h.family
  players : h'.players = h.players
  var : h'.var = h.var ∨ h.var.userDefined = false ∧ h'.var.userDefined = false

/-- The variable of the type stands at no other place. -/
def TypeApart (q : Atom) : Prop :=
  q.typeVar ≠ q.var ∧ ∀ p ∈ q.players, p.2 ≠ q.typeVar

instance (h h' : Atom) : Decidable (h.Resembles h') :=
  decidable_of_iff (h'.family = h.family ∧ h'.players = h.players ∧
    (h'.var = h.var ∨ h.var.userDefined = false ∧ h'.var.userDefined = false))
    ⟨fun ⟨h₁, h₂, h₃⟩ => ⟨h₁, h₂, h₃⟩, fun ⟨h₁, h₂, h₃⟩ => ⟨h₁, h₂, h₃⟩⟩

instance (q : Atom) : Decidable q.TypeApart :=
  inferInstanceAs (Decidable (_ ∧ _))

theorem Resembles.seated_iff {q h h' : Atom} (halike : h.Resembles h') :
    (q.Seated h' ↔ q.Seated h) ∧ q.placed h' = q.placed h := by
  have hfamily := halike.family
  have hplayers := halike.players
  cases q with
  | relation q =>
    cases h <;> cases h' <;> cases hfamily
    case relation.relation.refl b b' =>
      have hplaces : q.places b' = q.places b := by
        unfold RelationAtom.places
        rw [show b'.players = b.players from hplayers]
      exact ⟨by rw [Seated, Seated, hplaces], by rw [placed, placed, RelationAtom.placed, RelationAtom.placed, hplaces]⟩
    all_goals exact ⟨Iff.rfl, rfl⟩
  | _ => cases h <;> cases h' <;> cases hfamily <;> exact ⟨Iff.rfl, rfl⟩

/-- What unifies with an atom unifies with one that resembles it, to the same effect but for the variable of
the type. -/
theorem exists_unifier_of_resembles {q h h' : Atom} {u : Unifier} (hq : q.isPredicate = false)
    (hfamily : q.family = h.family) (halike : h.Resembles h') (hapart : q.TypeApart) (hu : q.unifier h = .ok u) :
    ∃ u', q.unifier h' = .ok u' ∧ ∀ v, v ≠ q.typeVar → u'.get? v = u.get? v := by
  obtain ⟨hseats, hplaced⟩ := halike.seated_iff (q := q)
  have hpaired {v w : Var} (hv : v ≠ q.typeVar) : q.Paired h' v w ↔ q.Paired h v w := by
    have htype {h : Atom} : ¬ (q.typeVar? = some v ∧ h.typeVar? = some w) := fun ⟨hv', _⟩ =>
      hv (AtomicQuery.typeVar?_eq_some_iff.mp hv').1
    have hvar : (w = h'.var ∧ h'.var.userDefined = true) ↔ w = h.var ∧ h.var.userDefined = true := by
      rcases halike.var with heq | ⟨hno, hno'⟩
      · rw [heq]
      · rw [hno, hno']
        simp
    unfold Paired
    rw [hplaced, halike.players, hvar, iff_false_intro htype, iff_false_intro htype]
  obtain ⟨hseated, hsingle⟩ := (exists_unifier_iff hq hfamily).mp ⟨u, hu⟩
  have hfamily' : q.family = h'.family := hfamily.trans halike.family.symm
  obtain ⟨u', hu'⟩ := (exists_unifier_iff hq hfamily').mpr ⟨hseats.mpr hseated, fun v w w' hw hw' => by
    by_cases hv : v = q.typeVar
    · subst hv
      have honly {w : Var} (hw : q.Paired h' q.typeVar w) : h'.typeVar? = some w := by
        rcases hw.2 with ⟨heq, -⟩ | ⟨-, hw⟩ | hw
        · exact absurd heq hapart.1
        · exact hw
        · obtain ⟨i, j, r, r', hi, -⟩ := hw
          exact absurd rfl (hapart.2 _ (List.mem_of_getElem? hi))
      exact Option.some.inj ((honly hw).symm.trans (honly hw'))
    · exact hsingle v w w' ((hpaired hv).mp hw) ((hpaired hv).mp hw')⟩
  refine ⟨u', hu', fun v hv => Option.ext fun w => ?_⟩
  rw [(get?_unifier hq hu).2, (get?_unifier hq hu').2]
  exact hpaired hv

end Atom

theorem RelationAtom.Counterpart.mem {q h : List (Role × Var)} {js : List Nat} {v w : Var}
    (hvw : Counterpart q h js v w) : (∃ p ∈ q, p.2 = v) ∧ ∃ p ∈ h, p.2 = w := by
  obtain ⟨i, j, r, r', hi, -, hj⟩ := hvw
  exact ⟨⟨_, List.mem_of_getElem? hi, rfl⟩, _, List.mem_of_getElem? hj, rfl⟩

namespace AtomicQuery

open Atom

variable {q q' : AtomicQuery} {ρ : Var → Var} {h : Atom} {v w : Var}

theorem Renames.typeId?_eq (hρ : Renames ρ q q') : q'.central.typeId? = q.central.typeId? := by
  have hid (a : Atom) : a.typeId? = (a.typePredicate?.map fun p => (p.id, p.var)).map Prod.fst := by
    cases a with
    | isa c | relation r => simp [Atom.typeId?, Atom.typePredicate?, Anchor.typeId?, Atom.anchor?]; rfl
    | _ => rfl
  rw [hid, hid, hρ.type]
  simp [Function.comp_def]

/-- A renaming has the renamed pairs. -/
theorem Renames.paired_iff (hρ : Renames ρ q q') (hhead : ∀ v ∈ q.slots, ∀ w, h.Holds w → (ρ v = w ↔ v = w))
    (halike : SeatsAlike ρ q.central q'.central h) (hseated : q.central.Seated h) (hv : v ∈ q.slots) :
    q'.central.Paired h (ρ v) w ↔ q.central.Paired h v w := by
  have hplayer : Counterpart q'.central.players h.players (q'.central.placed h) (ρ v) w ↔
      Counterpart q.central.players h.players (q.central.placed h) v w := by
    by_cases hmem : ∃ p ∈ q.central.players, p.2 = v
    · exact halike.counterpart hseated v w hmem
    · refine iff_of_false (fun hvw => hmem ?_) fun hvw => hmem hvw.mem.1
      obtain ⟨p, hp, heq⟩ := hvw.mem.1
      obtain ⟨p', hp', rfl⟩ := List.mem_map.mp (hρ.players.mem_iff.mp hp)
      exact ⟨p', hp', hρ.injective _ (player_mem_slots hp') _ hv heq⟩
  have hvar : ρ v = q'.central.var ↔ v = q.central.var := by
    rw [hρ.var, hρ.eq_iff hv var_mem_slots]
  have htype : q'.central.typeVar? = some (ρ v) ↔ q.central.typeVar? = some v := by
    rw [typeVar?_eq_some_iff, typeVar?_eq_some_iff, hρ.typeVar, hρ.eq_iff hv typeVar_mem_slots,
      hρ.absent v hv]
  unfold Paired
  rw [hvar, htype, hplayer]
  refine and_congr_left fun hfaces => not_congr (hhead v hv w ?_)
  rcases hfaces with ⟨-, rfl, -⟩ | ⟨-, hw⟩ | hvw
  · exact .inl rfl
  · exact .inr (.inl hw)
  · exact .inr (.inr hvw.mem.2)

/-- What a variable is paired with stands at a place of the query. -/
theorem mem_slots_of_paired (hvw : q.central.Paired h v w) : v ∈ q.slots := by
  rcases hvw.2 with ⟨rfl, -⟩ | ⟨hv, -⟩ | hvw
  · exact var_mem_slots
  · rw [(typeVar?_eq_some_iff.mp hv).1]
    exact typeVar_mem_slots
  · obtain ⟨⟨p, hp, rfl⟩, -⟩ := hvw.mem
    exact player_mem_slots hp

/-- A renaming unifies with a head if the query does, and then maps the renamed variables likewise. -/
theorem Renames.rel_unifier (hρ : Renames ρ q q') (hq : q.central.isPredicate = false)
    (hq' : q'.central.isPredicate = false) (hfamily : q.central.family = h.family)
    (hhead : ∀ v ∈ q.slots, ∀ w, h.Holds w → (ρ v = w ↔ v = w))
    (halike : SeatsAlike ρ q.central q'.central h) :
    Option.Rel (fun u u' => ∀ v ∈ q.slots, u'.get? (ρ v) = u.get? v) (q.central.unifier h).toOption
      (q'.central.unifier h).toOption := by
  have hfamily' : q'.central.family = h.family := hρ.family.trans hfamily
  have hexists : (∃ u, q.central.unifier h = .ok u) ↔ ∃ u, q'.central.unifier h = .ok u := by
    rw [Atom.exists_unifier_iff hq hfamily, Atom.exists_unifier_iff hq' hfamily', ← halike.seated]
    refine and_congr_right fun hseated => ⟨fun hsingle v' w w' hw hw' => ?_, fun hsingle v w w' hw hw' => ?_⟩
    · obtain ⟨v, hv, rfl⟩ := hρ.mem_slots_iff.mp (mem_slots_of_paired hw)
      rw [hρ.paired_iff hhead halike hseated hv] at hw hw'
      exact hsingle v w w' hw hw'
    · have hv := mem_slots_of_paired hw
      rw [← hρ.paired_iff hhead halike hseated hv] at hw hw'
      exact hsingle _ w w' hw hw'
  cases hu : q.central.unifier h with
  | error e =>
    cases hu' : q'.central.unifier h with
    | error e' => exact .none
    | ok u' =>
      obtain ⟨u, hok⟩ := hexists.mpr ⟨u', hu'⟩
      cases hu.symm.trans hok
  | ok u =>
    obtain ⟨u', hu'⟩ := hexists.mp ⟨u, hu⟩
    rw [hu']
    have hseated := ((Atom.exists_unifier_iff hq hfamily).mp ⟨u, hu⟩).1
    refine .some fun v hv => Option.ext fun w => ?_
    obtain ⟨-, hget⟩ := Atom.get?_unifier hq hu
    obtain ⟨-, hget'⟩ := Atom.get?_unifier hq' hu'
    rw [hget, hget']
    exact hρ.paired_iff hhead halike hseated hv

end AtomicQuery

/-! ## Rules -/

/-- The rule's head is of the family of the atom and of its type, if that is known. -/
def CompiledRule.Fits (c : CompiledRule) (a : Atom) : Prop :=
  a.family = c.head.central.family ∧ ¬ (a.typeId?.isSome = true ∧ c.head.central.typeId? ≠ a.typeId?)

theorem CompiledRule.fits_of_unify? {c : CompiledRule} {a : Atom} {u : Unifier} (h : c.unify? a = some u) :
    c.Fits a := by
  unfold unify? at h
  dsimp only at h
  split at h
  · cases h
  · next hfamily =>
    split at h
    · cases h
    · next htype => exact ⟨not_not.mp hfamily, htype⟩

theorem CompiledRule.Fits.typeId?_eq {c : CompiledRule} {a : Atom} {id : ConceptId} (h : c.Fits a)
    (hid : a.typeId? = some id) : c.head.central.typeId? = some id := by
  refine of_not_not fun hne => h.2 ⟨by rw [hid]; rfl, ?_⟩
  rwa [hid]

/-- The body of a rule binds user-defined variables only. -/
theorem Binds.userDefined {body : List AtomicQuery} {v : Var} (h : Binds body v) : v.userDefined = true := by
  obtain ⟨p, -, hv⟩ := h
  exact (SortedSet.mem_filter.mp hv).2

/-- Rules respect a renaming that leaves user-defined variables and the variables of their heads alone, if
alignment with every head treats the query and its renaming alike. -/
theorem RuleSet.respects_of_seatsAlike {rules : RuleSet} {q q' : AtomicQuery} {ρ : Var → Var}
    (hρ : AtomicQuery.Renames ρ q q') (hq : q.central.isPredicate = false)
    (hq' : q'.central.isPredicate = false) (huser : ∀ v ∈ q.slots, v.userDefined = true → ρ v = v)
    (hheads : ∀ c ∈ rules.rules, ∀ v ∈ q.slots, ∀ w, c.head.central.Holds w → (ρ v = w ↔ v = w))
    (halike : ∀ c ∈ rules.rules, c.Fits q.central → Atom.SeatsAlike ρ q.central q'.central c.head.central) :
    rules.Respects ρ q q' := by
  refine ⟨hρ, fun c hc => ?_⟩
  unfold CompiledRule.unify?
  dsimp only
  rw [hρ.family, hρ.typeId?_eq]
  split
  · exact .none
  · next hfamily =>
    split
    · exact .none
    · next htypes =>
      have hfits : c.Fits q.central := ⟨not_not.mp hfamily, htypes⟩
      have hrel := hρ.rel_unifier hq hq' hfits.1 (hheads c hc) (halike c hc hfits)
      generalize (q.central.unifier c.head.central).toOption = o at hrel ⊢
      generalize (q'.central.unifier c.head.central).toOption = o' at hrel ⊢
      cases hrel with
      | none => exact .none
      | @some u u' hget =>
        refine .some fun v hv => ?_
        cases hw : u.get? v with
        | some w =>
          rw [Unifier.apply_of_get? hw, Unifier.apply_of_get? ((hget v hv).trans hw), id]
          by_cases hbinds : Binds c.body w
          · exact .inl ⟨hbinds, rfl⟩
          · exact .inr ⟨hbinds, hbinds⟩
        | none =>
          rw [Unifier.apply_of_get?_eq_none hw, Unifier.apply_of_get?_eq_none ((hget v hv).trans hw), id]
          by_cases hdefined : v.userDefined = true
          · rw [huser v hv hdefined]
            by_cases hbinds : Binds c.body v
            · exact .inl ⟨hbinds, rfl⟩
            · exact .inr ⟨hbinds, hbinds⟩
          · refine .inr ⟨fun hbinds => hdefined hbinds.userDefined, fun hbinds => hdefined ?_⟩
            rw [← hρ.userDefined v hv]
            exact hbinds.userDefined

end GraphInference
