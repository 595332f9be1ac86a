import GraphInference.Proofs.Query.Hashing

/-!
# Equivalence ignores names

A renaming that is one-to-one on the variables of a query, keeps which of them are user-defined and leaves
absent variables alone (`Unifier.Relabels`) turns the query into an equivalent one:

1. the shape of a relation groups the roles by player, in the order of names, and then sorts the groups;
2. the position of a variable is found by comparing it with the anchor, the type and the players in turn;
3. so atoms keep their classes and predicates their positions, and predicates pair off by these.

Hence renaming two queries changes nothing about whether they are equivalent:
`AtomicQuery.equivalence_ignores_names`.
-/

namespace GraphInference

open Std

/-- One-to-one on the variables of a list, of which each stays user-defined or not, and absent or not. -/
structure Renaming (ρ : Var → Var) (vs : List Var) : Prop where
  injective : ∀ v ∈ vs, ∀ w ∈ vs, ρ v = ρ w → v = w
  userDefined : ∀ v ∈ vs, (ρ v).userDefined = v.userDefined
  isEmpty : ∀ v ∈ vs, (ρ v).isEmpty = v.isEmpty

namespace Renaming

variable {ρ : Var → Var} {vs ws : List Var} {v w : Var}

theorem mono (h : Renaming ρ vs) (hsub : ws ⊆ vs) : Renaming ρ ws :=
  ⟨fun v hv w hw => h.injective v (hsub hv) w (hsub hw), fun v hv => h.userDefined v (hsub hv),
    fun v hv => h.isEmpty v (hsub hv)⟩

theorem eq_iff (h : Renaming ρ vs) (hv : v ∈ vs) (hw : w ∈ vs) : ρ v = ρ w ↔ v = w :=
  ⟨h.injective v hv w hw, congrArg ρ⟩

end Renaming

/-! ## Relations -/

namespace RelationAtom

variable {r : RelationAtom} {u : Unifier}

/-- A player has its roles under the new name. -/
theorem rolesOf_rename (h : Renaming u.apply (r.players.map (·.2))) {v : Var} (hv : v ∈ r.players.map (·.2)) :
    (r.rename u).rolesOf (u.apply v) = r.rolesOf v := by
  show ((r.players.map fun p => (p.1, u.apply p.2)).filter fun p => p.2 = u.apply v).map (·.1.text) = _
  have hfilter : r.players.filter ((fun p => decide (p.2 = u.apply v)) ∘ fun p => (p.1, u.apply p.2)) =
      r.players.filter fun p => p.2 = v :=
    List.filter_congr fun p hp => decide_eq_decide.mpr (h.eq_iff (List.mem_map_of_mem hp) hv)
  rw [List.filter_map, List.map_map, hfilter]
  rfl

theorem mem_keys_iff {v : Var} : v ∈ r.rolesByPlayer.keys ↔ v ∈ r.players.map (·.2) := by
  rw [mem_keys_rolesByPlayer, List.mem_map]

/-- The players under their new names. -/
theorem perm_keys_rename (h : Renaming u.apply (r.players.map (·.2))) :
    (r.rename u).rolesByPlayer.keys.Perm (r.rolesByPlayer.keys.map u.apply) := by
  refine (List.perm_ext_iff_of_nodup (SortedMap.nodup_keys _) ?_).mpr fun w => ?_
  · refine (SortedMap.nodup_keys _).map_on fun v hv w hw => h.injective v ?_ w ?_
    · exact mem_keys_iff.mp hv
    · exact mem_keys_iff.mp hw
  · rw [mem_keys_iff, List.mem_map, List.mem_map]
    show (∃ p ∈ r.players.map fun p => (p.1, u.apply p.2), p.2 = w) ↔ _
    simp only [mem_keys_iff, List.mem_map, exists_exists_and_eq_and]

/-- The shape has no names. -/
theorem shape_rename (h : Renaming u.apply (r.players.map (·.2))) : (r.rename u).shape = r.shape := by
  rw [shape_eq_iff, groups, groups]
  refine ((perm_keys_rename h).map _).trans (List.Perm.of_eq ?_)
  rw [List.map_map]
  refine List.map_congr_left fun v hv => ?_
  have hv := mem_keys_iff.mp hv
  show ((r.rename u).rolesOf (u.apply v) |>.mergeSort _, (u.apply v).userDefined) = _
  rw [rolesOf_rename h hv, h.userDefined v hv]

end RelationAtom

/-! ## Atoms -/

namespace Anchor

variable {c : Anchor} {u : Unifier}

theorem typeId?_rename : (c.rename u).typeId? = c.typeId? := by
  simp [typeId?, rename, Function.comp_def]

theorem isEquivalent_rename (h : (u.apply c.var).userDefined = c.var.userDefined) :
    (c.rename u).isEquivalent c = true := by
  rw [isEquivalent, typeId?_rename, show (c.rename u).var = u.apply c.var from rfl, h]
  simp

end Anchor

namespace Atom

variable {a : Atom} {u : Unifier} {v : Var}

/-- The variables at the places of an atom, absent ones among them. -/
def slots (a : Atom) : List Var :=
  a.var :: a.typeVar :: a.players.map (·.2)

theorem var_mem_slots : a.var ∈ a.slots :=
  .head _

theorem typeVar_mem_slots : a.typeVar ∈ a.slots :=
  .tail _ (.head _)

theorem players_subset_slots : a.players.map (·.2) ⊆ a.slots :=
  fun _ h => .tail _ (.tail _ h)

theorem var_rename : (a.rename u).var = u.apply a.var := by
  cases a <;> rfl

theorem players_rename : (a.rename u).players = a.players.map fun p => (p.1, u.apply p.2) := by
  cases a <;> rfl

theorem anchor?_rename : (a.rename u).anchor? = a.anchor?.map (·.rename u) := by
  cases a <;> rfl

theorem typeVar_rename : (a.rename u).typeVar = if a.typeVar.isEmpty then .empty else u.apply a.typeVar := by
  cases a <;> rfl

theorem isPredicate_rename : (a.rename u).isPredicate = a.isPredicate := by
  cases a <;> rfl

theorem mem_vars_of_isPredicate (ha : a.isPredicate = true) : v ∈ a.vars ↔ v = a.var := by
  cases a with
  | isa _ | relation _ => cases ha
  | _ => exact SortedSet.mem_ofList.trans List.mem_singleton

/-- A place holds a variable of the atom or none. -/
theorem mem_vars_of_mem_slots (hv : v ∈ a.slots) : v ∈ a.vars ∨ v.isEmpty = true := by
  cases ha : a.isPredicate with
  | true =>
    have hplayers : a.players = [] ∧ a.typeVar = .empty := by
      cases a with
      | isa _ | relation _ => cases ha
      | _ => exact ⟨rfl, rfl⟩
    rw [mem_vars_of_isPredicate ha]
    rw [slots, hplayers.1, hplayers.2] at hv
    rcases List.mem_cons.mp hv with hv | hv
    · exact .inl hv
    · rw [List.mem_singleton.mp hv]
      exact .inr rfl
  | false =>
    rw [mem_vars_central_iff ha]
    cases hempty : v.isEmpty with
    | true => exact .inr rfl
    | false =>
      rcases hv with _ | ⟨_, _ | ⟨_, hv⟩⟩
      · exact .inl (.inl ⟨.inl rfl, rfl⟩)
      · exact .inl (.inl ⟨.inr rfl, rfl⟩)
      · exact .inl (.inr (List.mem_map.mp hv))

/-- The variables of the renamed atom are those of the atom, renamed. -/
theorem mem_vars_rename (h : Renaming u.apply a.slots) : v ∈ (a.rename u).vars ↔ ∃ x ∈ a.vars, u.apply x = v := by
  have hvar := h.isEmpty a.var var_mem_slots
  have htype := h.isEmpty a.typeVar typeVar_mem_slots
  cases ha : a.isPredicate with
  | true =>
    have ha' : (a.rename u).isPredicate = true := isPredicate_rename.trans ha
    simp only [mem_vars_of_isPredicate ha, mem_vars_of_isPredicate ha', var_rename, exists_eq_left]
    exact eq_comm
  | false =>
    have ha' : (a.rename u).isPredicate = false := isPredicate_rename.trans ha
    rw [mem_vars_central_iff ha', var_rename, typeVar_rename, players_rename]
    simp only [mem_vars_central_iff ha, List.mem_map, exists_exists_and_eq_and, or_and_right, exists_or]
    refine or_congr (or_congr ⟨?_, ?_⟩ ⟨?_, ?_⟩) Iff.rfl
    · rintro ⟨rfl, hpresent⟩
      exact ⟨a.var, ⟨rfl, hvar ▸ hpresent⟩, rfl⟩
    · rintro ⟨x, ⟨rfl, hpresent⟩, rfl⟩
      exact ⟨rfl, hvar.trans hpresent⟩
    · rintro ⟨hv, hpresent⟩
      split at hv
      · rw [hv] at hpresent
        cases hpresent
      · exact ⟨a.typeVar, ⟨rfl, by rwa [← htype, ← hv]⟩, hv.symm⟩
    · rintro ⟨x, ⟨rfl, hpresent⟩, rfl⟩
      rw [htype, hpresent]
      exact ⟨rfl, rfl⟩

/-- The renamed atom is equivalent to the atom. -/
theorem isEquivalent_rename (h : Renaming u.apply a.slots) : (a.rename u).isEquivalent a = true := by
  have huser := h.userDefined a.var var_mem_slots
  cases a with
  | isa c => exact Anchor.isEquivalent_rename huser
  | relation r =>
    have hshape : (r.rename u).shape = r.shape :=
      RelationAtom.shape_rename (h.mono (players_subset_slots (a := .relation r)))
    exact Bool.and_eq_true_iff.mpr ⟨Anchor.isEquivalent_rename huser, decide_eq_true hshape⟩
  | _ => exact decide_eq_true rfl

/-- A variable has its position under its new name. -/
theorem position?_rename {vs : List Var} (h : Renaming u.apply vs) (hslots : a.slots ⊆ vs) (hv : v ∈ vs) :
    (a.rename u).position? (u.apply v) = a.position? v := by
  have hvar : (a.rename u).var = u.apply v ↔ a.var = v := by
    rw [var_rename]
    exact h.eq_iff (hslots var_mem_slots) hv
  have htype : (a.rename u).anchor?.any (fun c => !c.typeVar.isEmpty && c.typeVar = u.apply v) =
      a.anchor?.any fun c => !c.typeVar.isEmpty && c.typeVar = v := by
    rw [anchor?_rename]
    cases hc : a.anchor? with
    | none => rfl
    | some c =>
      have hmem : c.typeVar ∈ vs := by
        have hsame : a.typeVar = c.typeVar := by rw [typeVar, hc]; rfl
        exact hslots (hsame ▸ typeVar_mem_slots)
      show (!(c.rename u).typeVar.isEmpty && decide ((c.rename u).typeVar = u.apply v)) =
        (!c.typeVar.isEmpty && decide (c.typeVar = v))
      rw [show (c.rename u).typeVar = if c.typeVar.isEmpty then .empty else u.apply c.typeVar from rfl]
      cases hempty : c.typeVar.isEmpty with
      | true => rfl
      | false =>
        have hpresent : (u.apply c.typeVar).isEmpty = false := (h.isEmpty _ hmem).trans hempty
        simp only [Bool.false_eq_true, if_false, hpresent, Bool.not_false, Bool.true_and, h.eq_iff hmem hv]
  have hplayer : (a.rename u).players.find? (fun p => p.2 = u.apply v) =
      (a.players.find? fun p => p.2 = v).map fun p => (p.1, u.apply p.2) := by
    rw [players_rename, List.find?_map]
    refine congrArg _ (List.find?_congr fun p hp => ?_)
    have hmem : p.2 ∈ vs := hslots (players_subset_slots (List.mem_map_of_mem hp))
    exact decide_eq_decide.mpr (h.eq_iff hmem hv)
  rw [position?, position?, htype, hplayer, Option.map_map]
  simp only [hvar]
  rfl

end Atom

/-! ## Queries -/

/-- The unifier renames the variables of the query one to one and keeps for each whether it is user-defined.
It maps no absent variable, and none to an absent one. -/
structure Unifier.Relabels (u : Unifier) (q : AtomicQuery) : Prop where
  injective : ∀ v ∈ q.vars, ∀ w ∈ q.vars, u.apply v = u.apply w → v = w
  userDefined : ∀ v ∈ q.vars, (u.apply v).userDefined = v.userDefined
  absent : ∀ v, v.isEmpty = true → u.get? v = none
  present : ∀ v ∈ q.vars, ∀ w, u.get? v = some w → w.isEmpty = false

/-- It is enough that no pair of the unifier has an absent variable. -/
theorem Unifier.relabels_of_pairs {u : Unifier} {q : AtomicQuery}
    (hpairs : ∀ p ∈ u.pairs, p.1.isEmpty = false ∧ p.2.isEmpty = false)
    (hinjective : ∀ v ∈ q.vars.toList, ∀ w ∈ q.vars.toList, u.apply v = u.apply w → v = w)
    (huser : ∀ v ∈ q.vars.toList, (u.apply v).userDefined = v.userDefined) : u.Relabels q := by
  have hmem {v w : Var} (h : u.get? v = some w) : (v, w) ∈ u.pairs := by
    obtain ⟨p, hp, rfl⟩ := Option.map_eq_some_iff.mp h
    have hv : p.1 = v := by simpa using List.find?_some hp
    exact hv ▸ List.mem_of_find?_eq_some hp
  refine ⟨hinjective, huser, fun v hv => Option.eq_none_iff_forall_ne_some.mpr fun w h => ?_,
    fun v _ w h => (hpairs _ (hmem h)).2⟩
  have hpresent : v.isEmpty = false := (hpairs _ (hmem h)).1
  rw [hv] at hpresent
  cases hpresent

namespace AtomicQuery

variable {q r : AtomicQuery} {u w : Unifier} {v : Var}

/-- The variables at the places of all atoms, absent ones among them. -/
def places (q : AtomicQuery) : List Var :=
  q.atoms.flatMap Atom.slots

theorem mem_vars_iff_exists : v ∈ q.vars ↔ ∃ a ∈ q.atoms, v ∈ a.vars := by
  rw [vars, SortedSet.mem_ofList, List.mem_flatMap]
  rfl

theorem slots_subset_places {a : Atom} (ha : a ∈ q.atoms) : a.slots ⊆ q.places :=
  fun _ hv => List.mem_flatMap.mpr ⟨a, ha, hv⟩

/-- Absent variables stay where they are, and so the renaming is one at all places. -/
theorem renaming_places (h : u.Relabels q) : Renaming u.apply q.places := by
  have hcases {v : Var} (hv : v ∈ q.places) : v ∈ q.vars ∨ v.isEmpty = true := by
    obtain ⟨a, ha, hv⟩ := List.mem_flatMap.mp hv
    exact (Atom.mem_vars_of_mem_slots hv).imp_left fun hv => mem_vars_iff_exists.mpr ⟨a, ha, hv⟩
  have hstays {v : Var} (hv : v.isEmpty = true) : u.apply v = v :=
    Unifier.apply_of_get?_eq_none (h.absent v hv)
  have hempty {v : Var} (hv : v ∈ q.places) : (u.apply v).isEmpty = v.isEmpty := by
    cases hget : u.get? v with
    | none => rw [Unifier.apply_of_get?_eq_none hget]
    | some x =>
      cases hv' : v.isEmpty with
      | true => rw [h.absent v hv'] at hget; cases hget
      | false =>
        rw [Unifier.apply_of_get? hget]
        exact h.present v ((hcases hv).resolve_right (by simp [hv'])) x hget
  refine ⟨fun v hv w hw heq => ?_, fun v hv => ?_, fun v hv => hempty hv⟩
  · have hsame : v.isEmpty = w.isEmpty := by rw [← hempty hv, ← hempty hw, heq]
    rcases hcases hv with hv' | hv'
    · rcases hcases hw with hw' | hw'
      · exact h.injective v hv' w hw' heq
      · rwa [hstays (hsame.trans hw'), hstays hw'] at heq
    · rwa [hstays hv', hstays (hsame.symm.trans hv')] at heq
  · rcases hcases hv with hv | hv
    · exact h.userDefined v hv
    · rw [hstays hv]

theorem atoms_rename : (q.rename u).atoms = q.atoms.map (·.rename u) := rfl

/-- The renamed query has the renamed variables. -/
theorem mem_vars_rename (h : Renaming u.apply q.places) : v ∈ (q.rename u).vars ↔ ∃ x ∈ q.vars, u.apply x = v := by
  simp only [mem_vars_iff_exists, atoms_rename, List.mem_map, exists_exists_and_eq_and]
  constructor
  · rintro ⟨a, ha, hv⟩
    obtain ⟨x, hx, rfl⟩ := (Atom.mem_vars_rename (h.mono (slots_subset_places ha))).mp hv
    exact ⟨x, ⟨a, ha, hx⟩, rfl⟩
  · rintro ⟨x, ⟨a, ha, hx⟩, rfl⟩
    exact ⟨a, ha, (Atom.mem_vars_rename (h.mono (slots_subset_places ha))).mpr ⟨x, hx, rfl⟩⟩

/-- The renamed query is equivalent to the query. -/
theorem isEquivalent_rename (h : Renaming u.apply q.places) : (q.rename u).isEquivalent q = true := by
  have hcentral : q.central.slots ⊆ q.places := slots_subset_places (.head _)
  refine isEquivalent_iff_kind.mpr ⟨Atom.isEquivalent_rename (h.mono hcentral), List.Perm.of_eq ?_⟩
  show (q.predicates.map (·.rename u)).map (q.rename u).kind = q.predicates.map q.kind
  rw [List.map_map]
  refine List.map_congr_left fun a ha => ?_
  have hslots : a.slots ⊆ q.places := slots_subset_places (.tail _ ha)
  have hclass : (a.rename u).isEquivalent = a.isEquivalent :=
    Atom.isEquivalent_iff_eq.mp (Atom.isEquivalent_rename (h.mono hslots))
  show ((a.rename u).isEquivalent, (q.central.rename u).position? (a.rename u).var) = q.kind a
  rw [hclass, Atom.var_rename, Atom.position?_rename h hcentral (hslots Atom.var_mem_slots), kind]

/-- A renamed query is equivalent to the query, has its hash and the variables of it renamed. Queries are
equivalent after renaming exactly if they were before. -/
theorem equivalence_ignores_names (hu : u.Relabels q) :
    ((q.rename u).isEquivalent q = true ∧ (q.rename u).hash = q.hash ∧
      ∀ v, v ∈ (q.rename u).vars ↔ ∃ x ∈ q.vars, u.apply x = v) ∧
    ∀ (r : AtomicQuery) (w : Unifier), w.Relabels r → (q.rename u).isEquivalent (r.rename w) = q.isEquivalent r := by
  have hself {q : AtomicQuery} {u : Unifier} (hu : u.Relabels q) : (q.rename u).isEquivalent q = true :=
    isEquivalent_rename (renaming_places hu)
  refine ⟨⟨hself hu, hash_eq_of_isEquivalent (hself hu), fun v => mem_vars_rename (renaming_places hu)⟩,
    fun r w hw => Bool.eq_iff_iff.mpr ⟨fun h => ?_, fun h => ?_⟩⟩
  · exact isEquivalent_trans (isEquivalent_symm (hself hu)) (isEquivalent_trans h (hself hw))
  · exact isEquivalent_trans (hself hu) (isEquivalent_trans h (isEquivalent_symm (hself hw)))

end AtomicQuery

namespace SwappedFriends

/-- `(friend: $x, friend: $y) isa friendship; $above val > 3;` -/
def query (x y above : String) : AtomicQuery where
  id := ⟨1⟩
  central := .relation ⟨⟨.generated 0, .generated 1, some ⟨.generated 1, ⟨"T2"⟩, none⟩, some ⟨"friendship"⟩, none⟩,
    [(.known ⟨"friend"⟩, .named x), (.known ⟨"friend"⟩, .named y)]⟩
  predicates := [.value ⟨.named above, ⟨.gt, .long 3⟩, none⟩]

def swap (x y : String) : Unifier :=
  ⟨[(.named x, .named y), (.named y, .named x)]⟩

/-- The friends may exchange their names. -/
theorem equivalence_ignores_names_swapped :
    ((query "x" "y" "x").rename (swap "x" "y")).isEquivalent (query "x" "y" "x") = true ∧
    ((query "x" "y" "x").rename (swap "x" "y")).isEquivalent ((query "a" "b" "b").rename (swap "a" "b")) =
      (query "x" "y" "x").isEquivalent (query "a" "b" "b") := by
  have hxy : (swap "x" "y").Relabels (query "x" "y" "x") :=
    Unifier.relabels_of_pairs (by decide +kernel) (by decide +kernel) (by decide +kernel)
  have hab : (swap "a" "b").Relabels (query "a" "b" "b") :=
    Unifier.relabels_of_pairs (by decide +kernel) (by decide +kernel) (by decide +kernel)
  obtain ⟨⟨hself, -, -⟩, hboth⟩ := AtomicQuery.equivalence_ignores_names hxy
  exact ⟨hself, hboth _ _ hab⟩

end SwappedFriends

end GraphInference
