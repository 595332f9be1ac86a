import GraphInference.Proofs.Query.Equivalence
import GraphInference.Proofs.Unification.Order

/-!
# Unifying equivalent relations

Equivalence compares the roles of relations player by player, whatever the order in which the players are
written. So equivalent relations have the same roles, and then alignment seats every player in its own role
(`RelationAtom.exists_place_of_perm`). But alignment goes by the written order and not by player: a player in
two roles may face two different ones, and then there is no unifier. `RelationAtom.unifies_iff_coherent` says
when there is one that makes the relations the same, and that players with one place, or roles with one place,
are enough.
-/

namespace GraphInference

open Std

namespace RelationAtom

/-! ## Open places -/

section Round

variable {ps : List (Role × Var)} {taken taken' : List Nat} {accepts : Role → Role → Bool}
  {l : List (Role × Option Nat)} {role : Role}

/-- The roles of the places that are not taken. -/
def openRoles (ps : List (Role × Var)) (taken : List Nat) : List Role :=
  (ps.zipIdx.filter fun e => e.2 ∉ taken).map fun e => e.1.1

/-- The roles of the players that have no place yet. -/
def waiting (l : List (Role × Option Nat)) : List Role :=
  (l.filter fun e => e.2 = none).map (·.1)

/-- Before the first round all players wait. -/
theorem waiting_none (roles : List Role) : waiting (roles.map (·, none)) = roles := by
  induction roles with
  | nil => rfl
  | cons role roles ih => exact congrArg (role :: ·) ih

theorem openRoles_nil : openRoles ps [] = ps.map (·.1) := by
  have hfst := congrArg (List.map Prod.fst) (List.zipIdx_map_fst 0 ps)
  rw [List.map_map] at hfst
  simpa [openRoles, Function.comp_def] using hfst

theorem openRoles_congr (h : ∀ j, j ∈ taken ↔ j ∈ taken') : openRoles ps taken = openRoles ps taken' := by
  simp only [openRoles, h]

theorem mem_openRoles : role ∈ openRoles ps taken ↔ ∃ j p, ps[j]? = some p ∧ j ∉ taken ∧ p.1 = role := by
  simp only [openRoles, List.mem_map, List.mem_filter, decide_eq_true_eq, List.mem_zipIdx_iff_getElem?]
  constructor
  · rintro ⟨⟨p, j⟩, ⟨hp, hj⟩, rfl⟩
    exact ⟨j, p, hp, hj, rfl⟩
  · rintro ⟨j, p, hp, hj, rfl⟩
    exact ⟨(p, j), ⟨hp, hj⟩, rfl⟩

/-- Taking a place takes its role off the open ones. -/
theorem perm_openRoles {j : Nat} {p : Role × Var} (hp : ps[j]? = some p) (hj : j ∉ taken) :
    (openRoles ps taken).Perm (p.1 :: openRoles ps (j :: taken)) := by
  have hnodup : (ps.zipIdx.filter fun e => e.2 ∉ taken).Nodup :=
    (List.Nodup.of_map Prod.snd (by rw [List.zipIdx_map_snd]; exact List.nodup_range')).filter _
  have hmem : (p, j) ∈ ps.zipIdx.filter fun e => e.2 ∉ taken :=
    List.mem_filter.mpr ⟨List.mem_zipIdx_iff_getElem?.mpr hp, decide_eq_true hj⟩
  have herase : (ps.zipIdx.filter fun e => e.2 ∉ taken).erase (p, j) =
      ps.zipIdx.filter fun e => e.2 ∉ j :: taken := by
    rw [hnodup.erase_eq_filter, List.filter_filter]
    refine List.filter_congr fun e he => ?_
    have hsame : e = (p, j) ↔ e.2 = j := by
      refine ⟨fun h => h ▸ rfl, fun h => ?_⟩
      have he := List.mem_zipIdx_iff_getElem?.mp he
      rw [h, hp] at he
      exact Prod.ext (Option.some.inj he).symm h
    rw [Bool.eq_iff_iff]
    simp [hsame]
  have hperm := (List.perm_cons_erase hmem).map fun e => e.1.1
  rwa [herase] at hperm

/-- A round in which the waiting players accept open places in their own roles only, in the roles that
`seats` passes. Where there is an open place for every waiting player, each of those gets a place in its role,
and there is still one for every player that waits. -/
theorem assign_round {seats : Role → Bool} {extra : List Role}
    (hgiven : ∀ e ∈ l, ∀ j, e.2 = some j → j ∈ taken)
    (haccepts : ∀ role ∈ waiting l, ∀ place ∈ openRoles ps taken,
      accepts role place = true ↔ place = role ∧ seats role = true)
    (hperm : (openRoles ps taken).Perm (waiting l ++ extra)) :
    List.Forall₂ (fun e o => e.2 = none → seats e.1 = true →
        ∃ j p, o = some j ∧ ps[j]? = some p ∧ p.1 = e.1) l (assign ps accepts taken l) ∧
      (openRoles ps ((assign ps accepts taken l).filterMap id ++ taken)).Perm
        (waiting ((l.map (·.1)).zip (assign ps accepts taken l)) ++ extra) := by
  induction l generalizing taken extra with
  | nil => exact ⟨.nil, hperm⟩
  | cons e l ih =>
    obtain ⟨role, _ | j⟩ := e
    · have hgiven : ∀ e ∈ l, ∀ j, e.2 = some j → j ∈ taken := fun e he => hgiven e (.tail _ he)
      have hperm : (openRoles ps taken).Perm (role :: (waiting l ++ extra)) := hperm
      have hothers : ∀ role ∈ waiting l, ∀ place ∈ openRoles ps taken,
          accepts role place = true ↔ place = role ∧ seats role = true :=
        fun role hrole => haccepts role (.tail _ hrole)
      have hself : ∀ place ∈ openRoles ps taken,
          accepts role place = true ↔ place = role ∧ seats role = true := haccepts role (.head _)
      rw [assign_none]
      cases hfree : freePlace? taken (accepts role) 0 ps with
      | some j =>
        obtain ⟨hj, k, p, hk, hp, hacc⟩ := freePlace?_eq_some hfree
        obtain rfl : j = k := by omega
        obtain ⟨hrole, hseats⟩ := (hself p.1 (mem_openRoles.mpr ⟨j, p, hp, hj, rfl⟩)).mp hacc
        have hopen := perm_openRoles hp hj
        rw [hrole] at hopen
        have hsub : ∀ place ∈ openRoles ps (j :: taken), place ∈ openRoles ps taken :=
          fun place h => hopen.mem_iff.mpr (.tail _ h)
        obtain ⟨hseated, hrest⟩ := @ih (j :: taken) extra
          (fun e he i hi => .tail _ (hgiven e he i hi))
          (fun role hr place hplace => hothers role hr place (hsub place hplace))
          (hopen.symm.trans hperm).cons_inv
        refine ⟨.cons (fun _ _ => ⟨j, p, rfl, hp, hrole⟩) hseated, ?_⟩
        refine (List.Perm.of_eq (openRoles_congr fun i => ?_)).trans hrest
        simp only [Option.toList_some, List.singleton_append, List.filterMap_cons_some (f := id) rfl,
          List.mem_append, List.mem_cons]
        tauto
      | none =>
        have hunseated : ¬ seats role = true := by
          intro hseats
          obtain ⟨j, p, hp, hj, hrole⟩ := mem_openRoles.mp (hperm.mem_iff.mpr (.head _))
          have hacc := (hself p.1 (mem_openRoles.mpr ⟨j, p, hp, hj, rfl⟩)).mpr ⟨hrole, hseats⟩
          have hsome := isSome_freePlace? hp hacc (by rwa [Nat.zero_add])
          rw [hfree] at hsome
          cases hsome
        obtain ⟨hseated, hrest⟩ := @ih taken (role :: extra) hgiven hothers
          (hperm.trans List.perm_middle.symm)
        exact ⟨.cons (fun _ h => absurd h hunseated) hseated, hrest.trans List.perm_middle⟩
    · obtain ⟨hseated, hrest⟩ := ih (fun e he => hgiven e (.tail _ he)) haccepts hperm
      rw [assign]
      refine ⟨.cons (fun h => by cases h) hseated, ?_⟩
      refine (List.Perm.of_eq (openRoles_congr fun i => ?_)).trans hrest
      have hj : j ∈ taken := hgiven _ (.head _) j rfl
      simp only [List.filterMap_cons_some (f := id) rfl, List.cons_append, List.mem_cons, List.mem_append]
      refine or_iff_right_of_imp fun hi => .inr (hi ▸ hj)

end Round

/-! ## Relations of the same roles -/

variable {r s : RelationAtom} {v w : Var}

/-- Between relations of the same roles the first round seats the players of stated roles, and leaves open
the roles of the others. -/
theorem exactPlaces_of_perm (hroles : (r.players.map (·.1)).Perm (s.players.map (·.1))) :
    List.Forall₂ (fun role o => role ≠ .unstated → ∃ j p, o = some j ∧ s.players[j]? = some p ∧ p.1 = role)
        (r.players.map (·.1)) (r.exactPlaces s) ∧
      (openRoles s.players ((r.exactPlaces s).filterMap id)).Perm
        (waiting ((r.players.map (·.1)).zip (r.exactPlaces s))) := by
  obtain ⟨hexact, hopen⟩ := @assign_round s.players [] exactMatch
    ((r.players.map (·.1)).map (·, none)) (fun role => role ≠ .unstated) []
    (fun e he j hj => by
      obtain ⟨role, -, rfl⟩ := List.mem_map.mp he
      cases hj)
    (fun role _ place _ => by simp [exactMatch, and_comm])
    (by rw [openRoles_nil, waiting_none, List.append_nil]; exact hroles.symm)
  have hfst : ((r.players.map (·.1)).map (·, (none : Option Nat))).map (·.1) = r.players.map (·.1) := by
    rw [List.map_map]
    exact List.map_id _
  rw [List.append_nil, List.append_nil, hfst] at hopen
  refine ⟨(List.forall₂_map_left_iff.mp hexact).imp fun role o h hstated => ?_, hopen⟩
  exact h rfl (decide_eq_true hstated)

/-- Between relations of the same roles no player of a stated role waits for the second round. -/
theorem unstated_of_mem_waiting (hroles : (r.players.map (·.1)).Perm (s.players.map (·.1))) {role : Role}
    (hmem : role ∈ waiting ((r.players.map (·.1)).zip (r.exactPlaces s))) : role = .unstated := by
  obtain ⟨⟨role, o⟩, he, rfl⟩ := List.mem_map.mp hmem
  obtain ⟨he, hnone⟩ := List.mem_filter.mp he
  obtain rfl : o = none := of_decide_eq_true hnone
  obtain ⟨k, hk⟩ := List.getElem?_of_mem he
  obtain ⟨hrole, ho⟩ := List.getElem?_zip_eq_some.mp hk
  obtain ⟨o, ho', hseated⟩ := getElem?_of_forall₂ (exactPlaces_of_perm hroles).1 hrole
  obtain rfl := Option.some.inj (ho.symm.trans ho')
  by_contra hstated
  obtain ⟨j, -, hj, -⟩ := hseated hstated
  cases hj

/-- Between relations of the same roles every player gets a place in its own role. -/
theorem exists_place_of_perm (hroles : (r.players.map (·.1)).Perm (s.players.map (·.1))) {i : Nat}
    {p : Role × Var} (hp : r.players[i]? = some p) :
    ∃ j p', (r.places s)[i]? = some (some j) ∧ s.players[j]? = some p' ∧ p'.1 = p.1 := by
  have hplaces : r.places s = assign s.players looseMatch ((r.exactPlaces s).filterMap id)
      ((r.players.map (·.1)).zip (r.exactPlaces s)) := rfl
  have hrole : (r.players.map (·.1))[i]? = some p.1 := by simp [hp]
  obtain ⟨-, hopen⟩ := exactPlaces_of_perm hroles
  -- the second round seats the players that wait, in the places of roles that are not stated either
  obtain ⟨hloose, -⟩ := @assign_round s.players ((r.exactPlaces s).filterMap id) looseMatch
    ((r.players.map (·.1)).zip (r.exactPlaces s)) (fun _ => true) []
    (fun e he j hj => List.mem_filterMap.mpr ⟨some j, hj ▸ (List.of_mem_zip he).2, rfl⟩)
    (fun role hr place hplace => by
      rw [unstated_of_mem_waiting hroles hr, unstated_of_mem_waiting hroles (hopen.mem_iff.mp hplace)]
      simp [looseMatch])
    (by rw [List.append_nil]; exact hopen)
  obtain ⟨o, ho, hseated⟩ := getElem?_exact (h := s) hp
  obtain ⟨o', ho', hlast⟩ := getElem?_of_forall₂ hloose
    (List.getElem?_zip_eq_some (z := (p.1, o)) |>.mpr ⟨hrole, ho⟩)
  rw [← hplaces] at ho'
  cases o with
  | some j =>
    obtain ⟨p', hp', heq⟩ := hseated j rfl
    have hkept := (assign_spec (List.getElem?_zip_eq_some (z := (p.1, some j)) |>.mpr ⟨hrole, ho⟩) ho').1
    exact ⟨j, p', (hkept j rfl) ▸ ho', hp', heq⟩
  | none =>
    obtain ⟨j, p', rfl, hp', heq⟩ := hlast rfl rfl
    exact ⟨j, p', ho', hp', heq⟩

/-- Relations of the same roles align. -/
theorem exists_align_of_perm (hroles : (r.players.map (·.1)).Perm (s.players.map (·.1))) :
    ∃ pairs, r.align s = .ok pairs := by
  refine exists_align_iff.mpr fun o ho => ?_
  obtain ⟨i, hi⟩ := List.getElem?_of_mem ho
  have hlt : i < r.players.length := length_places r s ▸ (List.getElem?_eq_some_iff.mp hi).1
  obtain ⟨j, -, hj, -⟩ := exists_place_of_perm hroles (List.getElem?_eq_getElem hlt)
  rw [Option.some.inj (hi.symm.trans hj)]
  rfl

/-- Players that are renamed to those whom they face are the players of the other relation. -/
theorem perm_of_counterpart (hroles : (r.players.map (·.1)).Perm (s.players.map (·.1))) {ρ : Var → Var}
    (hρ : ∀ v w, Counterpart r.players s.players (r.placed s) v w → ρ v = w) :
    (r.players.map fun p => (p.1, ρ p.2)).Perm s.players := by
  obtain ⟨pairs, hpairs⟩ := exists_align_of_perm hroles
  obtain ⟨⟨hlength, hnodup, -⟩, -⟩ := align_eq_ok hpairs
  have hplaces := map_some_of_forall_isSome (exists_align_iff.mp ⟨pairs, hpairs⟩)
  have hplace {i : Nat} {p : Role × Var} (hp : r.players[i]? = some p) :
      ∃ j, (r.placed s)[i]? = some j ∧ s.players[j]? = some (p.1, ρ p.2) := by
    obtain ⟨j, p', hj, hp', hrole⟩ := exists_place_of_perm hroles hp
    rw [hplaces, List.getElem?_map, Option.map_eq_some_iff] at hj
    obtain ⟨j, hj, heq⟩ := hj
    obtain rfl := Option.some.inj heq
    have hfaces : ρ p.2 = p'.2 := hρ _ _ ⟨i, j, p.1, p'.1, hp, hj, hp'⟩
    exact ⟨j, hj, hp'.trans (congrArg some (Prod.ext hrole hfaces.symm))⟩
  -- the places are all places, in some order
  have hrange : (r.placed s).Perm (List.range s.players.length) := by
    refine (List.subperm_of_subset hnodup fun j hj => ?_).perm_of_length_le ?_
    · obtain ⟨i, hi⟩ := List.getElem?_of_mem hj
      have hlt : i < r.players.length := hlength ▸ (List.getElem?_eq_some_iff.mp hi).1
      obtain ⟨j', hj', hp⟩ := hplace (List.getElem?_eq_getElem hlt)
      obtain rfl := Option.some.inj (hi.symm.trans hj')
      exact List.mem_range.mpr (List.getElem?_eq_some_iff.mp hp).1
    · have hlen := hroles.length_eq
      rw [List.length_map, List.length_map] at hlen
      rw [List.length_range, hlength, hlen]
  have hrenamed : (r.players.map fun p => (p.1, ρ p.2)).map some = (r.placed s).map (s.players[·]?) := by
    refine List.ext_getElem? fun i => ?_
    rw [List.getElem?_map, List.getElem?_map, List.getElem?_map]
    cases hp : r.players[i]? with
    | none =>
      rw [List.getElem?_eq_none_iff, ← hlength] at hp
      rw [List.getElem?_eq_none_iff.mpr hp]
      rfl
    | some p =>
      obtain ⟨j, hj, hp'⟩ := hplace hp
      rw [hj, Option.map_some, Option.map_some, Option.map_some, hp']
  have hall : (List.range s.players.length).map (s.players[·]?) = s.players.map some := by
    refine List.ext_getElem (by simp) fun i h h' => ?_
    simp
  rw [← List.map_perm_map_iff (Option.some_injective _), hrenamed, ← hall]
  exact hrange.map _

/-! ## Shapes -/

/-- The texts of the roles in which a variable plays. -/
def rolesOf (r : RelationAtom) (v : Var) : List String :=
  (r.players.filter fun p => p.2 = v).map (·.1.text)

theorem getD_find?_rolesByPlayer : (r.rolesByPlayer.find? v).getD [] = r.rolesOf v := by
  have hfold (players : List (Role × Var)) (m : SortedMap Var (List String)) :
      ((players.foldl (fun m p => m.alter p.2 fun roles => roles.getD [] ++ [p.1.text]) m).find? v).getD [] =
        (m.find? v).getD [] ++ (players.filter fun p => p.2 = v).map (·.1.text) := by
    induction players generalizing m with
    | nil => simp
    | cons p players ih =>
      rw [List.foldl_cons, ih, SortedMap.alter, SortedMap.find?_insert]
      by_cases hp : p.2 = v
      · subst hp
        simp
      · have hne : ¬ compare v p.2 = .eq := fun h => hp (LawfulEqCmp.eq_of_compare h).symm
        simp [hp, hne]
  exact hfold r.players .empty

theorem mem_keys_rolesByPlayer : v ∈ r.rolesByPlayer.keys ↔ ∃ p ∈ r.players, p.2 = v := by
  have hfold (players : List (Role × Var)) (m : SortedMap Var (List String)) :
      (players.foldl (fun m p => m.alter p.2 fun roles => roles.getD [] ++ [p.1.text]) m).contains v = true ↔
        m.contains v = true ∨ ∃ p ∈ players, p.2 = v := by
    induction players generalizing m with
    | nil => simp
    | cons p players ih =>
      rw [List.foldl_cons, ih, SortedMap.alter, SortedMap.contains, SortedMap.find?_insert]
      by_cases hp : p.2 = v
      · subst hp
        simp
      · have hne : ¬ compare v p.2 = .eq := fun h => hp (LawfulEqCmp.eq_of_compare h).symm
        simp [hp, hne, SortedMap.contains]
  rw [SortedMap.mem_keys_iff, rolesByPlayer, hfold]
  simp [SortedMap.contains]

theorem entries_rolesByPlayer :
    r.rolesByPlayer.entries = r.rolesByPlayer.keys.map fun v => (v, r.rolesOf v) := by
  rw [SortedMap.keys, List.map_map]
  refine (List.map_id _).symm.trans (List.map_congr_left fun e he => Prod.ext rfl ?_)
  have hfind : r.rolesByPlayer.find? e.1 = some e.2 := SortedMap.find?_eq_some_iff.mpr he
  show e.2 = r.rolesOf e.1
  rw [← getD_find?_rolesByPlayer, hfind, Option.getD_some]

/-- The order does not matter to sorting. -/
theorem mergeSort_eq_of_perm {α : Type} [Ord α] [TransOrd α] [LawfulEqOrd α] {l m : List α} (h : l.Perm m) :
    (l.mergeSort fun a b => (compare a b).isLE) = m.mergeSort fun a b => (compare a b).isLE := by
  have hsorted (l : List α) : (l.mergeSort fun a b => (compare a b).isLE).Pairwise
      fun a b => (compare a b).isLE = true :=
    List.pairwise_mergeSort (fun _ _ _ => TransCmp.isLE_trans) (fun a b => by
      cases hab : compare a b with
      | lt | eq => rfl
      | gt => rw [OrientedCmp.lt_of_gt hab]; rfl) l
  refine List.Perm.eq_of_pairwise (fun a b _ _ hab hba => ?_) (hsorted l) (hsorted m) ?_
  · exact LawfulEqCmp.eq_of_compare (OrientedCmp.isLE_antisymm hab hba)
  · exact (List.mergeSort_perm l _).trans (h.trans (List.mergeSort_perm m _).symm)

/-- The roles of each player, with whether the player is user-defined. -/
def groups (r : RelationAtom) : List (List String × Bool) :=
  r.rolesByPlayer.keys.map fun v => ((r.rolesOf v).mergeSort fun a b => (compare a b).isLE, v.userDefined)

theorem shape_eq_iff : r.shape = s.shape ↔ r.groups.Perm s.groups := by
  let _ : Ord (List String × Bool) := lexOrd
  have hshape (r : RelationAtom) : r.shape = r.groups.mergeSort fun a b => (compare a b).isLE := by
    rw [shape, entries_rolesByPlayer, List.map_map]
    rfl
  have _ : TransOrd (List String × Bool) := inferInstance
  have _ : LawfulEqOrd (List String × Bool) := inferInstance
  rw [hshape, hshape]
  constructor
  · intro heq
    exact (List.mergeSort_perm r.groups _).symm.trans (heq ▸ List.mergeSort_perm s.groups _)
  · exact mergeSort_eq_of_perm

/-- The order of the players does not matter to the shape. -/
theorem shape_eq_of_perm (h : r.players.Perm s.players) : r.shape = s.shape := by
  have hkeys : r.rolesByPlayer.keys = s.rolesByPlayer.keys := by
    refine eq_of_ascending_of_mem_iff (List.pairwise_map.mpr r.rolesByPlayer.ascending)
      (List.pairwise_map.mpr s.rolesByPlayer.ascending) fun v => ?_
    refine mem_keys_rolesByPlayer.trans (Iff.trans ?_ mem_keys_rolesByPlayer.symm)
    simp only [h.mem_iff]
  have hroles (v : Var) : (r.rolesOf v).Perm (s.rolesOf v) := (h.filter _).map _
  rw [shape_eq_iff, groups, groups, hkeys]
  exact List.Perm.of_eq (List.map_congr_left fun v _ => by rw [mergeSort_eq_of_perm (hroles v)])

/-- The players of some variables, variable by variable. -/
theorem perm_flatMap_filter {players : List (Role × Var)} {vs : List Var} (hvs : vs.Nodup)
    (hall : ∀ p ∈ players, p.2 ∈ vs) : (vs.flatMap fun v => players.filter fun p => p.2 = v).Perm players := by
  induction vs generalizing players with
  | nil =>
    have hnone : players = [] := List.eq_nil_iff_forall_not_mem.mpr fun p hp => nomatch hall p hp
    rw [hnone]
    exact .refl _
  | cons v vs ih =>
    obtain ⟨hv, hvs⟩ := List.nodup_cons.mp hvs
    have hothers : (vs.flatMap fun v' => players.filter fun p => p.2 = v') =
        vs.flatMap fun v' => (players.filter fun p => !decide (p.2 = v)).filter fun p => p.2 = v' := by
      refine List.flatMap_congr fun v' hv' => ?_
      rw [List.filter_filter]
      refine List.filter_congr fun p _ => ?_
      have hne : v' ≠ v := fun h => hv (h ▸ hv')
      by_cases hp : p.2 = v'
      · simp [hp, hne]
      · simp [hp]
    rw [List.flatMap_cons, hothers]
    refine ((ih hvs fun p hp => ?_).append_left _).trans (List.filter_append_perm _ _)
    obtain ⟨hp, hne⟩ := List.mem_filter.mp hp
    exact (List.mem_cons.mp (hall p hp)).resolve_left (by simpa using hne)

/-- Relations of one shape have the same texts of roles. -/
theorem perm_texts_of_shape (h : r.shape = s.shape) :
    (r.players.map (·.1.text)).Perm (s.players.map (·.1.text)) := by
  have hgroups (r : RelationAtom) : (r.groups.flatMap (·.1)).Perm (r.players.map (·.1.text)) := by
    have hsorted : (r.groups.flatMap (·.1)).Perm (r.rolesByPlayer.keys.flatMap r.rolesOf) := by
      rw [groups, List.flatMap_map]
      exact List.Perm.flatMap_left _ fun v _ => List.mergeSort_perm _ _
    have hplayers : r.rolesByPlayer.keys.flatMap r.rolesOf =
        (r.rolesByPlayer.keys.flatMap fun v => r.players.filter fun p => p.2 = v).map (·.1.text) := by
      rw [List.map_flatMap]
      rfl
    refine hsorted.trans (hplayers ▸ (perm_flatMap_filter r.rolesByPlayer.nodup_keys fun p hp => ?_).map _)
    exact mem_keys_rolesByPlayer.mpr ⟨p, hp, rfl⟩
  exact (hgroups r).symm.trans (((shape_eq_iff.mp h).flatMap_right _).trans (hgroups s))

/-- Between relations of one shape every player has a like: one with the texts of its roles. -/
theorem exists_like_of_shape (h : r.shape = s.shape) (hv : ∃ p ∈ r.players, p.2 = v) :
    ∃ x, ∀ role, (role, v) ∈ r.players → ∃ role', (role', x) ∈ s.players ∧ role'.text = role.text := by
  obtain ⟨x, hx, heq⟩ := List.mem_map.mp ((shape_eq_iff.mp h).mem_iff.mp
    (List.mem_map.mpr ⟨v, mem_keys_rolesByPlayer.mpr hv, rfl⟩))
  have hsorted := (Prod.mk.inj heq).1
  have hperm : (s.rolesOf x).Perm (r.rolesOf v) :=
    (List.mergeSort_perm _ _).symm.trans ((List.Perm.of_eq hsorted).trans (List.mergeSort_perm _ _))
  refine ⟨x, fun role hrole => ?_⟩
  have hmem : role.text ∈ s.rolesOf x := hperm.mem_iff.mpr
    (List.mem_map.mpr ⟨(role, v), List.mem_filter.mpr ⟨hrole, decide_eq_true rfl⟩, rfl⟩)
  obtain ⟨⟨role', x'⟩, hfound, htext⟩ := List.mem_map.mp hmem
  obtain ⟨hp, hx'⟩ := List.mem_filter.mp hfound
  exact ⟨role', (of_decide_eq_true hx' : x' = x) ▸ hp, htext⟩

/-! ## Roles by their texts -/

/-- No role has the label that is written for a role that is not stated. -/
def Spelled (r : RelationAtom) : Prop :=
  ∀ p ∈ r.players, p.1 ≠ .known ⟨Role.unstated.text⟩

instance : Decidable r.Spelled :=
  inferInstanceAs (Decidable (∀ _ ∈ _, _))

/-- The role of a text. -/
def roleOfText (t : String) : Role :=
  if t = Role.unstated.text then .unstated else .known ⟨t⟩

theorem Spelled.roleOfText_text (h : r.Spelled) {p : Role × Var} (hp : p ∈ r.players) :
    roleOfText p.1.text = p.1 := by
  cases hrole : p.1 with
  | unstated => exact if_pos rfl
  | known l =>
    refine if_neg fun heq => h p hp ?_
    rw [hrole, ← heq]
    rfl

/-- Relations of one shape have the same roles. -/
theorem perm_roles_of_shape (hr : r.Spelled) (hs : s.Spelled) (h : r.shape = s.shape) :
    (r.players.map (·.1)).Perm (s.players.map (·.1)) := by
  have hroles {r : RelationAtom} (hr : r.Spelled) :
      (r.players.map (·.1.text)).map roleOfText = r.players.map (·.1) := by
    rw [List.map_map]
    exact List.map_congr_left fun p hp => hr.roleOfText_text hp
  rw [← hroles hr, ← hroles hs]
  exact (perm_texts_of_shape h).map _

/-! ## Coherence -/

/-- The relation has a unifier with the other that makes it equivalent to it, with the same players in the
same roles. -/
def Unifies (r s : RelationAtom) : Prop :=
  ∃ u, r.unifier s = .ok u ∧ (r.rename u).isEquivalent s = true ∧ (r.rename u).players.Perm s.players

/-- No player that is to be mapped stands against itself as well. -/
def Steady (r s : RelationAtom) : Prop :=
  ∀ v w, Counterpart r.players s.players (r.placed s) v v → ¬ (Atom.relation r).Paired (.relation s) v w

/-- The relations have the same roles, no variable is paired with two others, and the anchor is not paired
with a variable of another kind than the other anchor. -/
structure Coherent (r s : RelationAtom) : Prop where
  roles : (r.players.map (·.1)).Perm (s.players.map (·.1))
  single : ∀ v w w', (Atom.relation r).Paired (.relation s) v w → (Atom.relation r).Paired (.relation s) v w' →
    w = w'
  anchor : ∀ w, (Atom.relation r).Paired (.relation s) r.anchor.var w →
    w.userDefined = s.anchor.var.userDefined

/-- What a unifier maps are the pairs. -/
theorem get?_eq_some_iff_paired {u : Unifier} (hu : r.unifier s = .ok u) :
    u.get? v = some w ↔ (Atom.relation r).Paired (.relation s) v w :=
  (@Atom.get?_unifier (.relation r) (.relation s) u rfl hu).2 v w

theorem apply_of_paired {u : Unifier} (hu : r.unifier s = .ok u)
    (h : (Atom.relation r).Paired (.relation s) v w) : u.apply v = w :=
  Unifier.apply_of_get? ((get?_eq_some_iff_paired hu).mpr h)

/-- With the players of the other relation, the renamed one is equivalent to it exactly if the anchors are of one
kind, for a renaming keeps the type. -/
theorem isEquivalent_rename_iff {u : Unifier} (hanchor : r.anchor.isEquivalent s.anchor = true)
    (hperm : (r.rename u).players.Perm s.players) : (r.rename u).isEquivalent s = true ↔
      (u.apply r.anchor.var).userDefined = s.anchor.var.userDefined := by
  have htype : (r.rename u).anchor.typeId? = s.anchor.typeId? := by
    rw [← (of_decide_eq_true (Bool.and_eq_true_iff.mp hanchor).2 : r.anchor.typeId? = s.anchor.typeId?)]
    show (r.anchor.typePredicate.map _).map _ = r.anchor.typePredicate.map _
    rw [Option.map_map]
    rfl
  rw [isEquivalent, Anchor.isEquivalent, shape_eq_of_perm hperm, htype]
  simp only [decide_true, Bool.and_true, decide_eq_true_eq]
  exact Iff.rfl

/-- If no player that is mapped stands against itself, the unifier makes the relations the same exactly if
they are coherent. -/
theorem unifies_iff (heq : r.anchor.isEquivalent s.anchor = true) (hsteady : r.Steady s) :
    r.Unifies s ↔ r.Coherent s := by
  have huser : r.anchor.var.userDefined = s.anchor.var.userDefined := by
    simpa using (Bool.and_eq_true_iff.mp heq).1
  constructor
  · rintro ⟨u, hu, hequivalent, hperm⟩
    refine ⟨?_, fun v w w' hw hw' => ?_, fun w hw => ?_⟩
    · have hroles := hperm.map (·.1)
      rwa [rename, List.map_map] at hroles
    · exact (apply_of_paired hu hw).symm.trans (apply_of_paired hu hw')
    · rw [← apply_of_paired hu hw]
      exact (isEquivalent_rename_iff heq hperm).mp hequivalent
  · intro hc
    obtain ⟨u, hu⟩ : ∃ u, r.unifier s = .ok u :=
      (@Atom.exists_unifier_iff (.relation r) (.relation s) rfl rfl).mpr
        ⟨exists_align_iff.mp (exists_align_of_perm hc.roles), hc.single⟩
    have hperm : (r.rename u).players.Perm s.players := by
      refine perm_of_counterpart hc.roles fun v w hvw => ?_
      by_cases hne : v = w
      · subst hne
        refine Unifier.apply_of_get?_eq_none (Option.eq_none_iff_forall_ne_some.mpr fun w hw => ?_)
        exact hsteady v w hvw ((get?_eq_some_iff_paired hu).mp hw)
      · exact apply_of_paired hu ⟨hne, .inr (.inr hvw)⟩
    refine ⟨u, hu, (isEquivalent_rename_iff heq hperm).mpr ?_, hperm⟩
    cases hget : u.get? r.anchor.var with
    | none => rw [Unifier.apply_of_get?_eq_none hget, huser]
    | some w => rw [Unifier.apply_of_get? hget, hc.anchor w ((get?_eq_some_iff_paired hu).mp hget)]

/-! ## Players with one place -/

/-- Neither the anchor nor the variable of the type plays in the relation. -/
structure Detached (r : RelationAtom) : Prop where
  anchor : ∀ p ∈ r.players, p.2 ≠ r.anchor.var
  type : (Atom.relation r).TypeApart

instance : Decidable r.Detached :=
  decidable_of_iff (_ ∧ _) ⟨fun h => ⟨h.1, h.2⟩, fun h => ⟨h.1, h.2⟩⟩

/-- Players face each other in one role. -/
theorem Counterpart.exists_role (hroles : (r.players.map (·.1)).Perm (s.players.map (·.1)))
    (h : Counterpart r.players s.players (r.placed s) v w) :
    ∃ role, (role, v) ∈ r.players ∧ (role, w) ∈ s.players := by
  obtain ⟨i, j, role, role', hv, hj, hw⟩ := h
  obtain ⟨j', p, hplace, hp, hrole⟩ := exists_place_of_perm hroles hv
  have hplaces := map_some_of_forall_isSome (exists_align_iff.mp (exists_align_of_perm hroles))
  rw [hplaces, List.getElem?_map, show ((r.places s).filterMap id)[i]? = some j from hj] at hplace
  obtain rfl : j = j' := Option.some.inj (Option.some.inj hplace)
  obtain rfl := Option.some.inj (hw.symm.trans hp)
  obtain rfl : role' = role := hrole
  exact ⟨role', List.mem_of_getElem? hv, List.mem_of_getElem? hw⟩

/-- A player faces one variable only if no player stands twice, or no role does. -/
theorem Counterpart.eq_of_nodup (hr : r.Spelled) (hs : s.Spelled) (hshape : r.shape = s.shape)
    (honce : (r.players.map (·.2)).Nodup ∨ (r.players.map (·.1)).Nodup) {w' : Var}
    (h : Counterpart r.players s.players (r.placed s) v w)
    (h' : Counterpart r.players s.players (r.placed s) v w') : w = w' := by
  rcases honce with hplayers | hdistinct
  · obtain ⟨i, j, role, d, hv, hj, hw⟩ := h
    obtain ⟨i', j', role', d', hv', hj', hw'⟩ := h'
    have hi : (r.players.map (·.2))[i]? = some v := by rw [List.getElem?_map, hv]; rfl
    have hi' : (r.players.map (·.2))[i']? = some v := by rw [List.getElem?_map, hv']; rfl
    obtain rfl : i = i' :=
      (List.getElem?_inj (List.getElem?_eq_some_iff.mp hi).1 hplayers).mp (hi.trans hi'.symm)
    obtain rfl := Option.some.inj (hj.symm.trans hj')
    exact (Prod.mk.inj (Option.some.inj (hw.symm.trans hw'))).2
  · have hroles := perm_roles_of_shape hr hs hshape
    obtain ⟨role₀, hv, -⟩ := h.exists_role hroles
    obtain ⟨x, hlike⟩ := exists_like_of_shape hshape ⟨(role₀, v), hv, rfl⟩
    have hx {w : Var} (h : Counterpart r.players s.players (r.placed s) v w) : w = x := by
      obtain ⟨role, hv, hw⟩ := h.exists_role hroles
      obtain ⟨role', hx, htext⟩ := hlike role hv
      have hrole : role' = role := by
        have heq := congrArg roleOfText htext
        rwa [hs.roleOfText_text hx, hs.roleOfText_text hw] at heq
      have hsame := List.inj_on_of_nodup_map (hroles.nodup_iff.mp hdistinct) hw hx hrole.symm
      exact (Prod.mk.inj hsame).2
    rw [hx h, hx h']

/-- Relations with players of one place unify. -/
theorem unifies_of_nodup (heq : r.isEquivalent s = true) (hr : r.Spelled) (hs : s.Spelled) (hd : r.Detached)
    (honce : (r.players.map (·.2)).Nodup ∨ (r.players.map (·.1)).Nodup) : r.Unifies s := by
  obtain ⟨hanchor, hshape⟩ := Bool.and_eq_true_iff.mp heq
  have hshape : r.shape = s.shape := of_decide_eq_true hshape
  have hplayer {v w : Var} (h : Counterpart r.players s.players (r.placed s) v w) :
      ∃ p ∈ r.players, p.2 = v := by
    obtain ⟨i, j, role, role', hv, -⟩ := h
    exact ⟨(role, v), List.mem_of_getElem? hv, rfl⟩
  have hcases {v w : Var} (h : (Atom.relation r).Paired (.relation s) v w) :
      (v = r.anchor.var ∧ w = s.anchor.var) ∨ (v = r.anchor.typeVar ∧ w = s.anchor.typeVar) ∨
        Counterpart r.players s.players (r.placed s) v w := by
    obtain ⟨-, ⟨hv, hw, -⟩ | ⟨hv, hw⟩ | h⟩ := h
    · exact .inl ⟨hv, hw⟩
    · exact .inr (.inl ⟨((Atom.typeVar?_eq_some rfl).mp hv).1, ((Atom.typeVar?_eq_some rfl).mp hw).1⟩)
    · exact .inr (.inr h)
  -- the anchor, the type and a player are three variables
  have hofAnchor {w : Var} (h : (Atom.relation r).Paired (.relation s) r.anchor.var w) : w = s.anchor.var := by
    rcases hcases h with ⟨-, hw⟩ | ⟨hv, -⟩ | hvw
    · exact hw
    · exact absurd hv.symm hd.type.1
    · obtain ⟨p, hp, hv⟩ := hplayer hvw
      exact absurd hv (hd.anchor p hp)
  have hofType {w : Var} (h : (Atom.relation r).Paired (.relation s) r.anchor.typeVar w) :
      w = s.anchor.typeVar := by
    rcases hcases h with ⟨hv, -⟩ | ⟨-, hw⟩ | hvw
    · exact absurd hv hd.type.1
    · exact hw
    · obtain ⟨p, hp, hv⟩ := hplayer hvw
      exact absurd hv (hd.type.2 p hp)
  have hofPlayer {v w : Var} (hv : ∃ p ∈ r.players, p.2 = v)
      (h : (Atom.relation r).Paired (.relation s) v w) : Counterpart r.players s.players (r.placed s) v w := by
    obtain ⟨p, hp, rfl⟩ := hv
    rcases hcases h with ⟨hv, -⟩ | ⟨hv, -⟩ | hvw
    · exact absurd hv (hd.anchor p hp)
    · exact absurd hv (hd.type.2 p hp)
    · exact hvw
  have hone {v w w' : Var} (h : Counterpart r.players s.players (r.placed s) v w)
      (h' : (Atom.relation r).Paired (.relation s) v w') : w = w' :=
    h.eq_of_nodup hr hs hshape honce (hofPlayer (hplayer h) h')
  have hsteady : r.Steady s := fun v w h h' => h'.1 (hone h h')
  refine (unifies_iff hanchor hsteady).mpr ⟨perm_roles_of_shape hr hs hshape, fun v w w' h h' => ?_, fun w h => ?_⟩
  · rcases hcases h with ⟨rfl, rfl⟩ | ⟨rfl, rfl⟩ | hvw
    · exact (hofAnchor h').symm
    · exact (hofType h').symm
    · exact hone hvw h'
  · rw [hofAnchor h]

theorem steady_of_disjoint (h : ∀ v ∈ (Atom.relation r).vars, v ∉ (Atom.relation s).vars) : r.Steady s := by
  rintro v w ⟨i, j, role, role', hv, -, hv'⟩ -
  exact h v (Atom.mem_vars_of_player (q := .relation r) hv) (Atom.mem_vars_of_player (q := .relation s) hv')

/-- Equivalent relations have a unifier that makes them the same exactly if they are coherent, provided that
no player that is mapped stands against itself as well, as where the relations have no variable in common.
They have the same roles, and align in them, unless a role has the label that is written for one that is not
stated. Where moreover neither the anchor nor the type plays and no player stands twice, or no role does,
they unify. -/
theorem unifies_iff_coherent (heq : r.isEquivalent s = true) :
    (r.Steady s → (r.Unifies s ↔ r.Coherent s)) ∧
      ((∀ v ∈ (Atom.relation r).vars, v ∉ (Atom.relation s).vars) → r.Steady s) ∧
      (r.Spelled → s.Spelled →
        (r.players.map (·.1)).Perm (s.players.map (·.1)) ∧ (∃ pairs, r.align s = .ok pairs) ∧
        (r.Detached → (r.players.map (·.2)).Nodup ∨ (r.players.map (·.1)).Nodup → r.Unifies s)) := by
  obtain ⟨hanchor, hshape⟩ := Bool.and_eq_true_iff.mp heq
  refine ⟨unifies_iff hanchor, steady_of_disjoint, fun hr hs => ?_⟩
  have hroles := perm_roles_of_shape hr hs (of_decide_eq_true hshape)
  exact ⟨hroles, exists_align_of_perm hroles, unifies_of_nodup heq hr hs⟩

end RelationAtom

/-! ## Players in crossed roles -/

namespace CrossedPlayers

open RelationAtom

/-- A pairing with its players, each in a role. -/
def pairing (anchor type : Nat) (players : List (String × String)) : RelationAtom where
  anchor := ⟨.generated anchor, .generated type, some ⟨.generated type, ⟨"T3"⟩, none⟩, some ⟨"pairing"⟩, none⟩
  players := players.map fun p => (.known ⟨p.1⟩, .named p.2)

theorem isEquivalent_pairing {a a' t t' : Nat} {ps qs : List (String × String)}
    (h : (pairing a t ps).shape = (pairing a' t' qs).shape) :
    (pairing a t ps).isEquivalent (pairing a' t' qs) = true :=
  Bool.and_eq_true_iff.mpr ⟨rfl, decide_eq_true h⟩

/-- The players may be written in another order, though one of them stands in two roles. -/
theorem unifies_of_distinct_roles :
    let r := pairing 0 2 [("a", "p"), ("b", "p"), ("c", "q")]
    let s := pairing 1 3 [("c", "y"), ("b", "x"), ("a", "x")]
    r.isEquivalent s = true ∧ r.Unifies s := by
  intro r s
  have hshape : r.shape = s.shape := by
    have hlined : r.shape = (pairing 1 3 [("a", "x"), ("b", "x"), ("c", "y")]).shape :=
      shape_eq (by decide +kernel)
    exact hlined.trans (shape_eq_of_perm (by decide +kernel))
  have heq : r.isEquivalent s = true := isEquivalent_pairing hshape
  obtain ⟨-, -, hunifies⟩ := unifies_iff_coherent heq
  obtain ⟨-, -, hdistinct⟩ := hunifies (by decide +kernel) (by decide +kernel)
  exact ⟨heq, hdistinct (by decide +kernel) (.inr (by decide +kernel))⟩

/-- Two players in two roles each, written in a crossed order: equivalent relations that do not unify. -/
theorem not_unifies_crossed : ¬ ∀ r s : RelationAtom, r.isEquivalent s = true → r.Unifies s := by
  intro h
  let r := pairing 0 2 [("a", "p"), ("a", "q"), ("b", "p"), ("b", "q")]
  let s := pairing 1 3 [("a", "x"), ("a", "y"), ("b", "y"), ("b", "x")]
  have heq : r.isEquivalent s = true := isEquivalent_pairing (shape_eq (by decide +kernel))
  have hconflict : (r.unifier s).toOption.isNone = true := by decide +kernel
  obtain ⟨u, hu, -⟩ := h r s heq
  rw [hu] at hconflict
  cases hconflict

end CrossedPlayers

end GraphInference
