import GraphInference.Proofs.Unification.Inverse

/-!
# Unifiers of queries with distinct roles

If the players of a query stand in roles that are stated and different from each other, alignment has
no choice. Between such a query and one that is a renaming of it there is a unifier, and it is the
renaming: `AtomicQuery.exists_unifier_of_renames`.
-/

namespace GraphInference

/-! ## Pairs of one renaming -/

namespace Unifier

variable {u : Unifier} {ρ : Var → Var}

/-- Every pair is one of the renaming. -/
def Follows (u : Unifier) (ρ : Var → Var) : Prop :=
  ∀ v w, u.get? v = some w → w = ρ v

theorem follows_empty (ρ : Var → Var) : Follows {} ρ :=
  fun _ _ h => nomatch h

theorem Follows.exists_add (h : u.Follows ρ) {s t : Var} (ht : t = ρ s) :
    ∃ w, u.add s t = .ok w ∧ w.Follows ρ := by
  obtain ⟨w, hw⟩ : ∃ w, u.add s t = .ok w := by
    unfold add
    split
    · exact ⟨_, rfl⟩
    · next old hold => exact ⟨u, if_pos ((h s old hold).trans ht.symm)⟩
  refine ⟨w, hw, fun v x hx => ?_⟩
  rcases (get?_eq_some_of_add hw).mp hx with hx | ⟨rfl, rfl⟩
  · exact h v x hx
  · exact ht

theorem Follows.exists_addAll (h : u.Follows ρ) {pairs : List (Var × Var)}
    (hpairs : ∀ p ∈ pairs, p.2 = ρ p.1) : ∃ w, u.addAll pairs = .ok w ∧ w.Follows ρ := by
  induction pairs generalizing u with
  | nil => exact ⟨u, rfl, h⟩
  | cons p pairs ih =>
    obtain ⟨hp, hpairs⟩ := List.forall_mem_cons.mp hpairs
    obtain ⟨u', hu', h'⟩ := h.exists_add hp
    obtain ⟨w, hw, hfollows⟩ := ih h' hpairs
    exact ⟨w, Except.bind_eq_ok.mpr ⟨u', hu', hw⟩, hfollows⟩

end Unifier

/-! ## Alignment by role -/

namespace RelationAtom

variable {ps : List (Role × Var)} {taken : List Nat} {accepts : Role → Bool}

theorem isSome_freePlace? {i k : Nat} {p : Role × Var} (hp : ps[k]? = some p)
    (hacc : accepts p.1 = true) (hfree : i + k ∉ taken) :
    (freePlace? taken accepts i ps).isSome = true := by
  induction ps generalizing i k with
  | nil => cases hp
  | cons d ps ih =>
    obtain ⟨role, v⟩ := d
    rw [freePlace?]
    split
    · rfl
    · next hnot =>
      cases k with
      | zero =>
        obtain rfl := Option.some.inj hp
        exact absurd ⟨hfree, hacc⟩ hnot
      | succ k => exact ih hp (by rwa [Nat.add_assoc, Nat.add_comm 1 k])

/-- Different stated roles that all occur get a place each. -/
theorem forall_isSome_assign {roles : List Role} (hnodup : roles.Nodup)
    (hroles : ∀ role ∈ roles, role ≠ .unstated ∧ ∃ p ∈ ps, p.1 = role)
    (htaken : ∀ j ∈ taken, ∀ p, ps[j]? = some p → p.1 ∉ roles) :
    ∀ o ∈ assign ps exactMatch taken (roles.map (·, none)), o.isSome = true := by
  induction roles generalizing taken with
  | nil => exact fun _ ho => nomatch ho
  | cons role roles ih =>
    obtain ⟨hrole, hrest⟩ := List.nodup_cons.mp hnodup
    obtain ⟨⟨hstated, p, hp, heq⟩, hothers⟩ := List.forall_mem_cons.mp hroles
    obtain rfl := heq
    obtain ⟨k, hk⟩ := List.getElem?_of_mem hp
    have hexact : exactMatch p.1 p.1 = true := by simp [exactMatch, hstated]
    have hfree : 0 + k ∉ taken := by
      rw [Nat.zero_add]
      exact fun hmem => htaken k hmem p hk (.head _)
    obtain ⟨j, hj⟩ := Option.isSome_iff_exists.mp (isSome_freePlace? hk hexact hfree)
    rw [List.map_cons, assign, hj]
    refine List.forall_mem_cons.mpr ⟨rfl, ih hrest hothers fun i hi d hd hmem => ?_⟩
    rcases List.mem_cons.mp hi with rfl | hi
    · obtain ⟨-, k', p', heq, hp', hacc⟩ := freePlace?_eq_some hj
      rw [Nat.zero_add] at heq
      obtain rfl := Option.some.inj (hd.symm.trans (heq ▸ hp'))
      have hacc : p.1 ≠ .unstated ∧ d.1 = p.1 := by simpa [exactMatch] using hacc
      exact hrole (hacc.2 ▸ hmem)
    · exact htaken i hi d hd (.tail _ hmem)

/-- A round keeps the places given before. -/
theorem forall_isSome_assign_of_given {accepts : Role → Role → Bool} {l : List (Role × Option Nat)}
    (h : ∀ e ∈ l, e.2.isSome = true) : ∀ o ∈ assign ps accepts taken l, o.isSome = true := by
  induction l with
  | nil => exact fun _ ho => nomatch ho
  | cons e l ih =>
    obtain ⟨he, hl⟩ := List.forall_mem_cons.mp h
    obtain ⟨role, o⟩ := e
    obtain ⟨j, rfl⟩ := Option.isSome_iff_exists.mp he
    exact List.forall_mem_cons.mpr ⟨rfl, ih hl⟩

/-- Relations align exactly if every player has a place. -/
theorem exists_align_iff {q h : RelationAtom} :
    (∃ pairs, q.align h = .ok pairs) ↔ ∀ o ∈ q.places h, o.isSome = true := by
  constructor
  · rintro ⟨pairs, hpairs⟩ o ho
    obtain ⟨i, hi⟩ := List.getElem?_of_mem ho
    have hlt := (List.getElem?_eq_some_iff.mp hi).1
    rw [length_places] at hlt
    have hzip := List.getElem?_zip_eq_some (z := (q.players[i], o)) |>.mpr ⟨List.getElem?_eq_getElem hlt, hi⟩
    obtain ⟨p, -, hp⟩ := getElem?_of_forall₂ (Except.mapM_eq_ok hpairs) hzip
    cases o with
    | some j => rfl
    | none => cases hp
  · intro hall
    refine Except.exists_mapM ?_
    rintro ⟨⟨role, v⟩, o⟩ ho
    obtain ⟨i, hi⟩ := List.getElem?_of_mem ho
    obtain ⟨hp, hplaces⟩ := List.getElem?_zip_eq_some.mp hi
    obtain ⟨j, rfl⟩ := Option.isSome_iff_exists.mp (hall o (List.of_mem_zip ho).2)
    obtain ⟨d, hd, -⟩ := places_fit hp hplaces
    exact ⟨(v, d.2), by dsimp only; rw [Option.bind_some, hd]⟩

/-- Relations whose players have the same different roles align. -/
theorem exists_align {q h : RelationAtom} (hnodup : (q.players.map (·.1)).Nodup)
    (hroles : ∀ role ∈ q.players.map (·.1), role ≠ .unstated ∧ ∃ p ∈ h.players, p.1 = role) :
    ∃ pairs, q.align h = .ok pairs := by
  have hexact := @forall_isSome_assign h.players [] _ hnodup hroles fun _ hj => nomatch hj
  exact exists_align_iff.mpr (forall_isSome_assign_of_given fun e he => hexact _ (List.of_mem_zip he).2)

end RelationAtom

/-! ## Unification along a renaming -/

theorem Anchor.exists_unifier {a b : Anchor} {ρ : Var → Var}
    (hvar : b.var.userDefined = true → a.var ≠ b.var → b.var = ρ a.var)
    (htype : a.typeVar.isEmpty = false → b.typeVar.isEmpty = false → a.typeVar ≠ b.typeVar →
      b.typeVar = ρ a.typeVar) : ∃ u, a.unifier b = .ok u ∧ u.Follows ρ := by
  have hlast {u : Unifier} (hu : u.Follows ρ) : ∃ w, (if a.typeVar.isEmpty = true ∨
      b.typeVar.isEmpty = true ∨ a.typeVar = b.typeVar then .ok u
      else u.add a.typeVar b.typeVar) = .ok w ∧ w.Follows ρ := by
    split
    · exact ⟨u, rfl, hu⟩
    · next hnot =>
      simp only [not_or, Bool.not_eq_true] at hnot
      exact hu.exists_add (htype hnot.1 hnot.2.1 hnot.2.2)
  unfold Anchor.unifier
  dsimp only
  split
  · next hb =>
    obtain ⟨u, hu, hfollows⟩ := (Unifier.follows_empty ρ).exists_add (hvar hb.1 hb.2)
    obtain ⟨w, hw, hfollows'⟩ := hlast hfollows
    exact ⟨w, Except.bind_eq_ok.mpr ⟨u, hu, hw⟩, hfollows'⟩
  · obtain ⟨w, hw, hfollows'⟩ := hlast (Unifier.follows_empty ρ)
    exact ⟨w, Except.bind_eq_ok.mpr ⟨{}, rfl, hw⟩, hfollows'⟩

/-- A unifier of the anchors that follows a renaming can be extended to the players that it renames to each
other. -/
theorem RelationAtom.exists_unifier_of_follows {a b : RelationAtom} {ρ : Var → Var} {u : Unifier}
    {pairs : List (Var × Var)} (hu : a.anchor.unifier b.anchor = .ok u) (hfollows : u.Follows ρ)
    (hpairs : a.align b = .ok pairs) (hfaces : ∀ p ∈ pairs, p.1 ≠ p.2 → p.2 = ρ p.1) :
    ∃ w, a.unifier b = .ok w ∧ w.Follows ρ := by
  have hfaces : ∀ p ∈ pairs.filter fun p => p.1 ≠ p.2, p.2 = ρ p.1 := fun p hp => by
    obtain ⟨hp, hne⟩ := List.mem_filter.mp hp
    exact hfaces p hp (of_decide_eq_true hne)
  obtain ⟨w, hw, hfollows'⟩ := hfollows.exists_addAll hfaces
  refine ⟨w, Except.bind_eq_ok.mpr ⟨u, hu, Except.bind_eq_ok.mpr ⟨pairs, hpairs, ?_⟩⟩, hfollows'⟩
  rw [hw]
  rfl

namespace AtomicQuery

variable {q r : AtomicQuery} {ρ : Var → Var} {u : Unifier} {v w : Var}

/-- The roles of the players are stated and different. -/
def HasDistinctRoles (q : AtomicQuery) : Prop :=
  (q.central.players.map (·.1)).Nodup ∧ ∀ p ∈ q.central.players, p.1 ≠ .unstated

instance {q : AtomicQuery} : Decidable q.HasDistinctRoles :=
  inferInstanceAs (Decidable (_ ∧ _))

/-- Players of one role are renamed to each other. -/
theorem Renames.player_eq (h : Renames ρ q r) (hroles : q.HasDistinctRoles) {role : Role}
    (hv : (role, v) ∈ q.central.players) (hw : (role, w) ∈ r.central.players) : w = ρ v := by
  obtain ⟨⟨role', v'⟩, hv', heq⟩ := List.mem_map.mp (h.players.mem_iff.mp hw)
  obtain ⟨rfl, rfl⟩ := Prod.mk.inj heq
  have hsame := List.inj_on_of_nodup_map hroles.1 hv hv' rfl
  rw [(Prod.mk.inj hsame).2]

/-- What is aligned is renamed. -/
theorem Renames.eq_of_counterpart (h : Renames ρ q r) (hroles : q.HasDistinctRoles) {js : List Nat}
    (hplace : RelationAtom.Placement q.central.players r.central.players js)
    (hvw : RelationAtom.Counterpart q.central.players r.central.players js v w) : w = ρ v := by
  obtain ⟨i, j, role, role', hi, hj, hw⟩ := hvw
  obtain ⟨p, hp, hfit⟩ := hplace.fits i j _ hi hj
  obtain rfl := Option.some.inj (hw.symm.trans hp)
  have hv := List.mem_of_getElem? hi
  have hw := List.mem_of_getElem? hw
  have hstated : role' ≠ .unstated := by
    obtain ⟨⟨d, x⟩, hd, heq⟩ := List.mem_map.mp (h.players.mem_iff.mp hw)
    exact (Prod.mk.inj heq).1 ▸ hroles.2 _ hd
  rcases hfit with heq | hoff | hoff
  · obtain rfl : role' = role := heq
    exact h.player_eq hroles hv hw
  · exact absurd hoff (hroles.2 _ hv)
  · exact absurd hoff hstated

theorem exists_atom_unifier (hcentral : q.central.isPredicate = false) (h : Renames ρ q r)
    (hroles : q.HasDistinctRoles) : ∃ u, q.central.unifier r.central = .ok u ∧ u.Follows ρ := by
  have hvar := h.var
  have htype := h.typeVar
  have hplayers := h.players
  have hfamily := h.family
  have hcounterpart {js : List Nat} {v w : Var}
      (hplace : RelationAtom.Placement q.central.players r.central.players js)
      (hvw : RelationAtom.Counterpart q.central.players r.central.players js v w) : w = ρ v :=
    h.eq_of_counterpart hroles hplace hvw
  unfold HasDistinctRoles at hroles
  cases hq : q.central with
  | isa a =>
    cases hr : r.central with
    | isa b =>
      rw [hq, hr] at hvar htype
      exact Anchor.exists_unifier (fun _ _ => hvar) fun _ _ _ => htype
    | _ => rw [hq, hr] at hfamily; cases hfamily
  | relation a =>
    cases hr : r.central with
    | relation b =>
      rw [hq, hr] at hvar htype hplayers hcounterpart
      rw [hq] at hroles
      have hmem : ∀ role ∈ a.players.map (·.1), role ≠ .unstated ∧ ∃ p ∈ b.players, p.1 = role := by
        intro role hrole
        obtain ⟨p, hp, rfl⟩ := List.mem_map.mp hrole
        exact ⟨hroles.2 p hp, (p.1, ρ p.2),
          hplayers.mem_iff.mpr (List.mem_map.mpr ⟨p, hp, rfl⟩), rfl⟩
      obtain ⟨pairs, hpairs⟩ := RelationAtom.exists_align hroles.1 hmem
      obtain ⟨hplace, hfaces⟩ := RelationAtom.align_eq_ok hpairs
      obtain ⟨u, hu, hfollows⟩ := @Anchor.exists_unifier a.anchor b.anchor ρ
        (fun _ _ => hvar) fun _ _ _ => htype
      exact RelationAtom.exists_unifier_of_follows hu hfollows hpairs fun p hp _ =>
        hcounterpart hplace ((hfaces p.1 p.2).mp hp)
    | _ => rw [hq, hr] at hfamily; cases hfamily
  | _ => rw [hq] at hcentral; cases hcentral

/-- The predicates are on variables of the central atom. -/
def IsAttached (q : AtomicQuery) : Prop :=
  ∀ p ∈ q.demands, p.2 = q.central.var ∨ p.2 = q.central.typeVar ∨ p.2 ∈ q.central.players.map (·.2)

instance {q : AtomicQuery} : Decidable q.IsAttached :=
  inferInstanceAs (Decidable (∀ _ ∈ _, _))

theorem mem_slots_of_isAttached (hq : q.IsAttached) (hv : v ∈ q.slots) :
    v = q.central.var ∨ v = q.central.typeVar ∨ v ∈ q.central.players.map (·.2) := by
  rcases mem_slots.mp hv with h | h | ⟨p, hp, rfl⟩ | ⟨p, hp, rfl⟩
  · exact .inl h
  · exact .inr (.inl h)
  · exact .inr (.inr (List.mem_map.mpr ⟨p, hp, rfl⟩))
  · exact hq p hp

theorem typeVar?_eq_some_iff {a : Atom} : a.typeVar? = some v ↔ v = a.typeVar ∧ v.isEmpty = false := by
  unfold Atom.typeVar? Atom.typeVar
  cases a.anchor? with
  | none =>
    refine iff_of_false (fun h => nomatch h) ?_
    rintro ⟨rfl, h⟩
    cases h
  | some c =>
    rw [Option.map_some, Option.filter_eq_some_iff, Option.some.injEq, Bool.not_eq_true',
      eq_comm (b := v)]
    rfl

/-- What the unifier of the central atoms leaves alone is not renamed, the anchor aside. -/
theorem Renames.eq_of_get?_eq_none (h : Renames ρ q r) (hcentral : q.central.isPredicate = false)
    (hroles : q.HasDistinctRoles) (hattached : q.IsAttached)
    (hu : q.central.unifier r.central = .ok u) (hv : v ∈ q.slots) (hne : v ≠ q.central.var)
    (hnone : u.get? v = none) : ρ v = v := by
  obtain ⟨hplace, hget⟩ := Atom.get?_unifier hcentral hu
  by_contra hmoved
  have hfaces (hfaces : q.central.typeVar? = some v ∧ r.central.typeVar? = some (ρ v) ∨
      RelationAtom.Counterpart q.central.players r.central.players (q.central.placed r.central) v
        (ρ v)) : False := by
    rw [(hget v (ρ v)).mpr ⟨fun heq => hmoved heq.symm, .inr hfaces⟩] at hnone
    cases hnone
  rcases mem_slots_of_isAttached hattached hv with heq | heq | hplayer
  · exact hne heq
  · cases hempty : v.isEmpty with
    | true =>
      have hempty' := (h.absent v hv).trans hempty
      have hname : (ρ v).name = v.name :=
        (of_decide_eq_true hempty').trans (of_decide_eq_true hempty).symm
      exact hmoved (Var.mk.injEq .. ▸ ⟨hname, h.userDefined v hv⟩)
    | false =>
      refine hfaces (.inl ⟨typeVar?_eq_some_iff.mpr ⟨heq, hempty⟩, typeVar?_eq_some_iff.mpr ?_⟩)
      exact ⟨by rw [h.typeVar, heq], (h.absent v hv).trans hempty⟩
  · obtain ⟨⟨role, v⟩, hp, rfl⟩ := List.mem_map.mp hplayer
    obtain ⟨i, hi⟩ := List.getElem?_of_mem hp
    obtain ⟨hlt, -⟩ := List.getElem?_eq_some_iff.mp hi
    have hj := List.getElem?_eq_getElem (hplace.length ▸ hlt)
    obtain ⟨⟨role', w⟩, hw, -⟩ := hplace.fits i _ _ hi hj
    have hcounterpart : RelationAtom.Counterpart q.central.players r.central.players
        (q.central.placed r.central) v w := ⟨i, _, role, role', hi, hj, hw⟩
    obtain rfl := h.eq_of_counterpart hroles hplace hcounterpart
    exact hfaces (.inr hcounterpart)

/-- A query with distinct roles is unified with a renaming of it by that renaming. -/
theorem exists_unifier_of_renames (h : Renames ρ q r) (hcentral : q.central.isPredicate = false)
    (hroles : q.HasDistinctRoles) (hattached : q.IsAttached) :
    ∃ u, q.unifier r = .ok u ∧ ∀ v ∈ q.slots, u.apply v = ρ v := by
  obtain ⟨u, hu, hfollows⟩ := exists_atom_unifier hcentral h hroles
  have hothers {v : Var} (hv : v ∈ q.slots) (hne : v ≠ q.central.var) : u.apply v = ρ v := by
    cases hget : u.get? v with
    | some w => rw [Unifier.apply_of_get? hget, hfollows v w hget]
    | none =>
      rw [Unifier.apply_of_get?_eq_none hget,
        h.eq_of_get?_eq_none hcentral hroles hattached hu hv hne hget]
  -- The unifier of the central atoms may leave the anchor alone, and then it is added.
  obtain ⟨w, hw, hwvar, hwothers⟩ : ∃ w, q.unifier r = .ok w ∧
      w.apply q.central.var = ρ q.central.var ∧ ∀ v, v ≠ q.central.var → w.apply v = u.apply v := by
    by_cases hadd : q.central.var ≠ r.central.var ∧ ¬ u.contains q.central.var = true
    · obtain ⟨w, hw, hfollows'⟩ := hfollows.exists_add h.var
      refine ⟨w, Except.bind_eq_ok.mpr ⟨u, hu, (if_pos hadd).trans hw⟩, ?_, fun v hv => ?_⟩
      · rw [Unifier.apply, Unifier.get?_of_add hw, if_pos rfl, h.var]
        rfl
      · rw [Unifier.apply, Unifier.get?_of_add hw, if_neg hv]
        rfl
    · refine ⟨u, Except.bind_eq_ok.mpr ⟨u, hu, if_neg hadd⟩, ?_, fun _ _ => rfl⟩
      cases hget : u.get? q.central.var with
      | some w => rw [Unifier.apply_of_get? hget, hfollows _ w hget]
      | none =>
        have hnot : ¬ u.contains q.central.var = true := by simp [Unifier.contains, hget]
        have hsame : q.central.var = r.central.var := by
          by_contra hne
          exact hadd ⟨hne, hnot⟩
        rw [Unifier.apply_of_get?_eq_none hget, ← h.var, ← hsame]
  refine ⟨w, hw, fun v hv => ?_⟩
  by_cases hvar : v = q.central.var
  · rw [hvar, hwvar]
  · rw [hwothers v hvar, hothers hv hvar]

end AtomicQuery

end GraphInference
