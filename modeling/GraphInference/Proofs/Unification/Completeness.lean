import GraphInference.Proofs.Unification.Equivalent

/-!
# When relations align

Relations that align have a placement, which gives each player a place of its own. Alignment looks for one in two
rounds, and takes no place back:

1. a stated role takes the first free place of an equal role, so that as many players are seated as can be in
   their own roles, and the `surplus` of them waits (`RelationAtom.ExactRound`);
2. a waiting player takes the first free place, or if its role is stated, the first free place without a stated
   role. Such a place is lost for a player of a stated role where one without a stated role comes first
   (`RelationAtom.InTime`).

So a placement is found in some order of the players, and it is found in every order exactly if there are enough
places without a stated role for all players that wait, or no player of a stated role does (`RelationAtom.Roomy`).
-/

namespace GraphInference

namespace RelationAtom

/-! ## Free places -/

section Places

variable {ps : List (Role × Var)} {taken : List Nat} {accepts : Role → Bool} {j : Nat}

theorem openRoles_cons_of_lt {i : Nat} (h : j < i) :
    ((ps.zipIdx i).filter fun e => e.2 ∉ j :: taken) = (ps.zipIdx i).filter fun e => e.2 ∉ taken := by
  refine List.filter_congr fun e he => ?_
  have hle := List.le_snd_of_mem_zipIdx he
  simp only [List.mem_cons, not_or, decide_eq_decide]
  exact and_iff_right (by omega)

/-- The first free place is that of the first open role that is accepted, and then this role is not open. -/
theorem openRoles_of_freePlace? (h : freePlace? taken accepts 0 ps = some j) : ∃ before role after,
    openRoles ps taken = before ++ role :: after ∧ openRoles ps (j :: taken) = before ++ after ∧
      (∀ x ∈ before, accepts x = false) ∧ accepts role = true := by
  have hfrom (ps : List (Role × Var)) (i : Nat) (h : freePlace? taken accepts i ps = some j) : ∃ before role after,
      ((ps.zipIdx i).filter fun e => e.2 ∉ taken).map (·.1.1) = before ++ role :: after ∧
      ((ps.zipIdx i).filter fun e => e.2 ∉ j :: taken).map (·.1.1) = before ++ after ∧
        (∀ x ∈ before, accepts x = false) ∧ accepts role = true := by
    induction ps generalizing i with
    | nil => cases h
    | cons p ps ih =>
      rw [freePlace?] at h
      rw [List.zipIdx_cons]
      split at h
      · next hi =>
        obtain rfl := Option.some.inj h
        rw [List.filter_cons_of_pos (by simpa using hi.1), List.filter_cons_of_neg (by simp),
          openRoles_cons_of_lt (Nat.lt_succ_self i)]
        exact ⟨[], p.1, _, rfl, rfl, List.forall_mem_nil _, hi.2⟩
      · next hi =>
        obtain ⟨before, role, after, hopen, hrest, hbefore, hrole⟩ := ih (i + 1) h
        by_cases htaken : i ∈ taken
        · rw [List.filter_cons_of_neg (by simpa using htaken), List.filter_cons_of_neg (by simp [htaken])]
          exact ⟨before, role, after, hopen, hrest, hbefore, hrole⟩
        · obtain ⟨-, k, -, hk, -⟩ := freePlace?_eq_some h
          rw [List.filter_cons_of_pos (by simpa using htaken),
            List.filter_cons_of_pos (by simp [htaken]; omega), List.map_cons, List.map_cons, hopen, hrest]
          refine ⟨p.1 :: before, role, after, rfl, rfl, List.forall_mem_cons.mpr ⟨?_, hbefore⟩, hrole⟩
          exact Bool.eq_false_iff.mpr fun hacc => hi ⟨htaken, hacc⟩
  exact hfrom ps 0 h

/-- It does not matter whether a place is taken before a round or in it. -/
theorem openRoles_cons_append {os : List (Option Nat)} :
    openRoles ps (os.filterMap id ++ j :: taken) = openRoles ps ((some j :: os).filterMap id ++ taken) := by
  refine openRoles_congr fun i => ?_
  simp only [List.filterMap_cons_some (f := id) rfl, List.mem_append, List.mem_cons]
  tauto

/-- Without a free place no open role is accepted. -/
theorem refused_of_freePlace?_eq_none (h : freePlace? taken accepts 0 ps = none) :
    ∀ x ∈ openRoles ps taken, accepts x = false := by
  intro x hx
  obtain ⟨j, p, hp, hj, rfl⟩ := mem_openRoles.mp hx
  refine Bool.eq_false_iff.mpr fun hacc => ?_
  have hsome := isSome_freePlace? hp hacc (by rwa [Nat.zero_add])
  rw [h] at hsome
  cases hsome

end Places

/-! ## The first round -/

/-- What the first round leaves over of the roles of players and of places: the players that wait and the places
that are open afterwards. -/
structure ExactRound (roles places waits opens : List Role) : Prop where
  waits_sublist : waits.Sublist roles
  opens_sublist : opens.Sublist places
  length : waits.length + places.length = opens.length + roles.length
  unstated_waits : waits.count .unstated = roles.count .unstated
  unstated_opens : opens.count .unstated = places.count .unstated
  stated_waits : ∀ role, role ≠ .unstated → waits.count role = roles.count role - places.count role

namespace ExactRound

variable {roles places waits opens before after : List Role} {role : Role}

theorem nil : ExactRound [] places [] places :=
  ⟨.slnil, .refl _, Nat.add_comm _ _, rfl, rfl, fun _ _ => (Nat.zero_sub _).symm⟩

/-- A player of a stated role is seated at the first place of its role. -/
theorem seat (h : ExactRound roles (before ++ after) waits opens) (hrole : role ≠ .unstated) :
    ExactRound (role :: roles) (before ++ role :: after) waits opens := by
  have hplaces (x : Role) : (before ++ role :: after).count x = (role :: (before ++ after)).count x :=
    List.perm_middle.count_eq x
  refine ⟨h.waits_sublist.cons _, h.opens_sublist.trans ?_, ?_, ?_, ?_, fun x hx => ?_⟩
  · exact (List.Sublist.refl before).append (List.sublist_cons_self _ _)
  · have hlength := h.length
    simp only [List.length_append, List.length_cons] at hlength ⊢
    omega
  · rw [h.unstated_waits, List.count_cons_of_ne hrole]
  · rw [h.unstated_opens, hplaces, List.count_cons_of_ne hrole]
  · rw [h.stated_waits x hx, hplaces, List.count_cons, List.count_cons]
    omega

/-- A player waits if there is no place of its role, or if its role is not stated. -/
theorem wait (h : ExactRound roles places waits opens) (hnone : role ≠ .unstated → role ∉ places) :
    ExactRound (role :: roles) places (role :: waits) opens := by
  refine ⟨h.waits_sublist.cons_cons _, h.opens_sublist, ?_, ?_, h.unstated_opens, fun x hx => ?_⟩
  · have hlength := h.length
    simp only [List.length_cons]
    omega
  · rw [List.count_cons, List.count_cons, h.unstated_waits]
  · rw [List.count_cons, List.count_cons, h.stated_waits x hx]
    by_cases hsame : role = x
    · subst hsame
      simp [List.count_eq_zero.mpr (hnone hx)]
    · simp [hsame]

end ExactRound

/-- A round in equal roles, by induction on the players: each is seated or waits. -/
theorem exactRound_assign {ps : List (Role × Var)} {taken : List Nat} (roles : List Role) :
    ExactRound roles (openRoles ps taken)
      (waiting (roles.zip (assign ps exactMatch taken (roles.map (·, none)))))
      (openRoles ps ((assign ps exactMatch taken (roles.map (·, none))).filterMap id ++ taken)) := by
  induction roles generalizing taken with
  | nil => exact .nil
  | cons role roles ih =>
    rw [List.map_cons, assign_none]
    cases hfree : freePlace? taken (exactMatch role) 0 ps with
    | some j =>
      obtain ⟨before, role', after, hopen, hrest, -, hexact⟩ := openRoles_of_freePlace? hfree
      obtain ⟨hrole, rfl⟩ : role ≠ .unstated ∧ role' = role := by simpa [exactMatch] using hexact
      have hround := @ih (j :: taken)
      rw [hrest] at hround
      rw [hopen, ← openRoles_cons_append]
      exact hround.seat hrole
    | none =>
      have hrefused := refused_of_freePlace?_eq_none hfree
      refine (@ih taken).wait fun hrole hmem => ?_
      have hexact : exactMatch role role = true := by simp [exactMatch, hrole]
      rw [hrefused role hmem] at hexact
      cases hexact

/-! ## The second round -/

/-- A player of a stated role that waits has, at its turn, a place without a stated role, even if all players
before it have taken one. -/
def InTime (waits opens : List Role) : Prop :=
  ∀ (i : Nat) (role : Role), waits[i]? = some role → role ≠ .unstated → i < opens.count .unstated

/-- The stated roles come last. -/
def StatedLast (roles : List Role) : Prop :=
  roles.Pairwise fun x y => y = .unstated → x = .unstated

/-- The stated roles come first. -/
def StatedFirst (roles : List Role) : Prop :=
  roles.Pairwise fun x y => x = .unstated → y = .unstated

section SecondRound

variable {ps : List (Role × Var)} {taken : List Nat} {l : List (Role × Option Nat)}

theorem looseMatch_eq_true_iff {role place : Role} :
    looseMatch role place = true ↔ role = .unstated ∨ place = .unstated := by
  simp [looseMatch]

theorem looseMatch_eq_false_iff {role place : Role} :
    looseMatch role place = false ↔ role ≠ .unstated ∧ place ≠ .unstated := by
  simp [looseMatch]

/-- Every player gets a place if there are enough, and those without a stated role last. -/
theorem forall_isSome_of_inTime (hlength : (waiting l).length ≤ (openRoles ps taken).length)
    (hin : InTime (waiting l) (openRoles ps taken)) : ∀ o ∈ assign ps looseMatch taken l, o.isSome = true := by
  induction l generalizing taken with
  | nil => exact fun _ ho => nomatch ho
  | cons e l ih =>
    obtain ⟨role, _ | j⟩ := e
    · have hin : InTime (role :: waiting l) (openRoles ps taken) := hin
      have hlength : (waiting l).length + 1 ≤ (openRoles ps taken).length := hlength
      rw [assign_none]
      cases hfree : freePlace? taken (looseMatch role) 0 ps with
      | some j =>
        obtain ⟨before, place, after, hopen, hrest, -, -⟩ := openRoles_of_freePlace? hfree
        refine List.forall_mem_cons.mpr ⟨rfl, @ih (j :: taken) ?_ fun i role' hi hstated => ?_⟩
        · rw [hopen] at hlength
          rw [hrest]
          simp only [List.length_append, List.length_cons] at hlength ⊢
          omega
        · have hlater := hin (i + 1) role' hi hstated
          rw [hopen, List.count_append, List.count_cons] at hlater
          rw [hrest, List.count_append]
          split at hlater <;> omega
      | none =>
        have hrefused := refused_of_freePlace?_eq_none hfree
        obtain ⟨place, hplace⟩ := List.exists_mem_of_length_pos (Nat.zero_lt_of_lt hlength)
        -- the player has a stated role, so it is in time for a place that it does not refuse
        obtain ⟨hstated, -⟩ := looseMatch_eq_false_iff.mp (hrefused place hplace)
        have hmem := List.count_pos_iff.mp (hin 0 role rfl hstated)
        exact absurd rfl (looseMatch_eq_false_iff.mp (hrefused _ hmem)).2
    · rw [assign]
      exact List.forall_mem_cons.mpr ⟨rfl, ih hlength hin⟩

/-- Where the places without a stated role come first, players without a stated role take them before any other
place. -/
theorem inTime_of_forall_isSome (hfirst : StatedLast (openRoles ps taken))
    (hall : ∀ o ∈ assign ps looseMatch taken l, o.isSome = true) :
    InTime (waiting l) (openRoles ps taken) := by
  induction l generalizing taken with
  | nil => exact fun _ _ h => nomatch h
  | cons e l ih =>
    obtain ⟨role, _ | j⟩ := e
    · rw [assign_none] at hall
      obtain ⟨hsome, hall⟩ := List.forall_mem_cons.mp hall
      obtain ⟨j, hfree⟩ := Option.isSome_iff_exists.mp hsome
      rw [hfree] at hall
      obtain ⟨before, place, after, hopen, hrest, hbefore, haccepts⟩ := openRoles_of_freePlace? hfree
      rw [hopen] at hfirst
      obtain rfl : before = [] := by
        by_contra hne
        obtain ⟨x, before, rfl⟩ := List.exists_cons_of_ne_nil hne
        obtain ⟨hstated, hx⟩ := looseMatch_eq_false_iff.mp (hbefore x (.head _))
        have hplace := (looseMatch_eq_true_iff.mp haccepts).resolve_left hstated
        exact hx ((List.pairwise_cons.mp hfirst).1 place (by simp) hplace)
      rw [List.nil_append] at hopen hrest hfirst
      obtain ⟨hbelow, hfirst⟩ := List.pairwise_cons.mp hfirst
      have hwait : InTime (waiting l) after := by
        rw [← hrest]
        exact ih (hrest ▸ hfirst) hall
      rw [hopen]
      intro i role' hi hstated
      have hi : (role :: waiting l)[i]? = some role' := hi
      cases i with
      | zero =>
        obtain rfl := Option.some.inj hi
        exact List.count_pos_iff.mpr (((looseMatch_eq_true_iff.mp haccepts).resolve_left hstated) ▸ .head _)
      | succ i =>
        have hlater := hwait i role' hi hstated
        obtain rfl := hbelow _ (List.count_pos_iff.mp (Nat.zero_lt_of_lt hlater)) rfl
        rw [List.count_cons_self]
        omega
    · rw [assign] at hall
      exact ih hfirst (List.forall_mem_cons.mp hall).2

end SecondRound

/-! ## Placements -/

variable {r r' s s' : RelationAtom}

/-- The roles of the players. -/
def roles (r : RelationAtom) : List Role :=
  r.players.map (·.1)

/-- A role may have the place: it is equal, or one of them is not stated. -/
def Fits (role place : Role) : Prop :=
  place = role ∨ role = .unstated ∨ place = .unstated

/-- There is a place of its own for each player. -/
def HasPlacement (r s : RelationAtom) : Prop :=
  ∃ js, Placement r.players s.players js

theorem hasPlacement_iff_forall₂ : r.HasPlacement s ↔ ∃ js : List Nat, js.Nodup ∧
    List.Forall₂ (fun p j => ∃ p', s.players[j]? = some p' ∧ Fits p.1 p'.1) r.players js := by
  constructor
  · rintro ⟨js, h⟩
    exact ⟨js, h.nodup, List.forall₂_iff_get.mpr ⟨h.length.symm, fun i hi hj =>
      h.fits i _ _ (List.getElem?_eq_getElem hi) (List.getElem?_eq_getElem hj)⟩⟩
  · rintro ⟨js, hnodup, hall⟩
    refine ⟨js, hall.length_eq.symm, hnodup, fun i j p hp hj => ?_⟩
    obtain ⟨j', hj', hfits⟩ := getElem?_of_forall₂ hall hp
    obtain rfl := Option.some.inj (hj.symm.trans hj')
    exact hfits

theorem HasPlacement.of_perm (h : r.HasPlacement s) (hperm : r.players.Perm r'.players) : r'.HasPlacement s :=
  hasPlacement_iff_forall₂.mpr (exists_forall₂_of_perm hperm (hasPlacement_iff_forall₂.mp h))

/-- The places of a placement have roles that fit, each as often as there are places of it at most. -/
theorem HasPlacement.exists_fits (h : r.HasPlacement s) :
    ∃ places : List Role, places.Subperm s.roles ∧ List.Forall₂ Fits r.roles places := by
  obtain ⟨js, hnodup, hall⟩ := hasPlacement_iff_forall₂.mp h
  let look (j : Nat) : Role := (s.roles[j]?).getD .unstated
  have hlook {j : Nat} {p : Role × Var} (hp : s.players[j]? = some p) : look j = p.1 := by simp [look, roles, hp]
  refine ⟨js.map look, ?_, ?_⟩
  · have hrange : js.Subperm (List.range s.roles.length) := by
      refine List.subperm_of_subset hnodup fun j hj => ?_
      obtain ⟨p, -, p', hp', -⟩ := exists_of_forall₂_of_mem hall.flip hj
      rw [List.mem_range, roles, List.length_map]
      exact (List.getElem?_eq_some_iff.mp hp').1
    have hself : (List.range s.roles.length).map look = s.roles :=
      List.ext_getElem (by simp) fun i _ hi => by simp [look, hi]
    have hmapped : (js.map look).Subperm ((List.range s.roles.length).map look) := by
      obtain ⟨l, hperm, hsub⟩ := hrange
      exact ⟨_, hperm.map look, hsub.map look⟩
    rwa [hself] at hmapped
  · rw [roles, List.forall₂_map_left_iff, List.forall₂_map_right_iff]
    refine hall.imp fun p j hfits => ?_
    obtain ⟨p', hp', hfits⟩ := hfits
    rwa [hlook hp']

/-! ## The players in surplus -/

section Surplus

variable {roles roles' places places' : List Role} {role : Role}

/-- The stated roles for which there are too few places of that role. -/
def surplus (roles places : List Role) : Multiset Role :=
  ((roles : Multiset Role) - places).filter (· ≠ .unstated)

theorem count_surplus : (surplus roles places).count role =
    if role ≠ .unstated then roles.count role - places.count role else 0 := by
  rw [surplus, Multiset.count_filter, Multiset.count_sub, Multiset.coe_count, Multiset.coe_count]

theorem surplus_congr (hroles : roles.Perm roles') (hplaces : places.Perm places') :
    surplus roles places = surplus roles' places' := by
  rw [surplus, surplus, Multiset.coe_eq_coe.mpr hroles, Multiset.coe_eq_coe.mpr hplaces]

theorem surplus_unstated_cons : surplus (.unstated :: roles) places = surplus roles places := by
  refine Multiset.ext.mpr fun x => ?_
  rw [count_surplus, count_surplus]
  by_cases hx : x ≠ .unstated
  · rw [if_pos hx, if_pos hx, List.count_cons_of_ne hx.symm]
  · rw [if_neg hx, if_neg hx]

theorem surplus_cons_cons : surplus (role :: roles) (role :: places) = surplus roles places := by
  refine Multiset.ext.mpr fun x => ?_
  rw [count_surplus, count_surplus, List.count_cons, List.count_cons, Nat.add_sub_add_right]

theorem surplus_cons_le : surplus (role :: roles) places ≤ role ::ₘ surplus roles places := by
  refine Multiset.le_iff_count.mpr fun x => ?_
  rw [Multiset.count_cons, count_surplus, count_surplus]
  split
  · rw [List.count_cons]
    simp only [beq_iff_eq, eq_comm (a := role)]
    omega
  · exact Nat.zero_le _

theorem surplus_anti (h : places.Subperm places') : surplus roles places' ≤ surplus roles places := by
  refine Multiset.filter_le_filter _ (tsub_le_tsub_left ?_ _)
  exact Multiset.coe_le.mpr h

/-- Of players that fit their places, those in surplus have places without a stated role. -/
theorem card_surplus_le_of_forall₂ (h : List.Forall₂ Fits roles places) :
    (surplus roles places).card ≤ places.count .unstated := by
  induction h with
  | nil => exact Nat.le_refl 0
  | @cons role place roles places hfits _ ih =>
    have hmore : surplus roles (place :: places) ≤ surplus roles places :=
      surplus_anti (List.sublist_cons_self _ _).subperm
    rcases hfits with rfl | rfl | rfl
    · rw [surplus_cons_cons]
      exact ih.trans List.count_le_count_cons
    · rw [surplus_unstated_cons]
      exact (Multiset.card_le_card hmore).trans (ih.trans List.count_le_count_cons)
    · have hle := Multiset.card_le_card (@surplus_cons_le roles (.unstated :: places) role)
      rw [Multiset.card_cons] at hle
      rw [List.count_cons_self]
      exact hle.trans (Nat.succ_le_succ ((Multiset.card_le_card hmore).trans ih))

end Surplus

/-- Where there is a placement, there are enough places, and enough of them without a stated role for the players
in surplus. -/
theorem HasPlacement.enough (h : r.HasPlacement s) : r.players.length ≤ s.players.length ∧
    (surplus r.roles s.roles).card ≤ s.roles.count .unstated := by
  obtain ⟨places, hplaces, hfits⟩ := h.exists_fits
  constructor
  · have hlength := hfits.length_eq.trans_le hplaces.length_le
    rwa [roles, roles, List.length_map, List.length_map] at hlength
  · calc (surplus r.roles s.roles).card
      _ ≤ (surplus r.roles places).card := Multiset.card_le_card (surplus_anti hplaces)
      _ ≤ places.count .unstated := card_surplus_le_of_forall₂ hfits
      _ ≤ s.roles.count .unstated := hplaces.count_le _

/-! ## Alignment -/

/-- The players of a relation have places in the other one. -/
def Aligns (r s : RelationAtom) : Prop :=
  ∃ pairs, r.align s = .ok pairs

/-- The roles of the players that have no place after the first round. -/
def waits (r s : RelationAtom) : List Role :=
  waiting (r.roles.zip (r.exactPlaces s))

/-- The roles of the places that are open after the first round. -/
def opens (r s : RelationAtom) : List Role :=
  openRoles s.players ((r.exactPlaces s).filterMap id)

theorem exactRound (r s : RelationAtom) : ExactRound r.roles s.roles (r.waits s) (r.opens s) := by
  have hround := @exactRound_assign s.players [] r.roles
  rwa [openRoles_nil, List.append_nil] at hround

/-- There are enough places without a stated role for all players that wait, or no player of a stated role does. -/
def Roomy (roles places : List Role) : Prop :=
  surplus roles places = 0 ∨ roles.count .unstated + (surplus roles places).card ≤ places.count .unstated

instance (roles places : List Role) : Decidable (Roomy roles places) :=
  inferInstanceAs (Decidable (_ ∨ _))

namespace ExactRound

variable {roles places waits opens : List Role}

/-- The players of stated roles that wait are those in surplus. -/
theorem surplus_eq (h : ExactRound roles places waits opens) :
    surplus roles places = (waits.filter (· ≠ .unstated) : List Role) := by
  refine Multiset.ext.mpr fun x => ?_
  rw [count_surplus, Multiset.coe_count]
  split
  · next hx =>
    rw [List.count_filter (by simpa using hx), h.stated_waits x hx]
  · next hx =>
    refine (List.count_eq_zero.mpr fun hmem => hx ?_).symm
    simpa using (List.mem_filter.mp hmem).2

theorem length_waits (h : ExactRound roles places waits opens) :
    waits.length = roles.count .unstated + (surplus roles places).card := by
  rw [h.surplus_eq, Multiset.coe_card, ← h.unstated_waits, List.count, ← List.countP_eq_length_filter,
    List.length_eq_countP_add_countP (· == Role.unstated)]
  simp

/-- Where no player of a stated role waits, or all that wait find a place without a stated role, those of stated
roles are in time. -/
theorem inTime (h : ExactRound roles places waits opens) (hroomy : Roomy roles places) : InTime waits opens := by
  intro i role hi hstated
  rw [h.unstated_opens]
  rcases hroomy with hnone | hle
  · have hmem : role ∈ surplus roles places := by
      rw [h.surplus_eq, Multiset.mem_coe]
      exact List.mem_filter.mpr ⟨List.mem_of_getElem? hi, decide_eq_true hstated⟩
    rw [hnone] at hmem
    cases hmem
  · rw [← h.length_waits] at hle
    exact Nat.lt_of_lt_of_le (List.getElem?_eq_some_iff.mp hi).1 hle

/-- Where stated roles come first, those in surplus are in time. -/
theorem inTime_of_statedFirst (h : ExactRound roles places waits opens) (hfirst : StatedFirst roles)
    (hle : (surplus roles places).card ≤ places.count .unstated) : InTime waits opens := by
  intro i role hi hstated
  obtain ⟨hlt, hrole⟩ := List.getElem?_eq_some_iff.mp hi
  have hbefore : (waits.take (i + 1)).filter (· ≠ .unstated) = waits.take (i + 1) := by
    refine List.filter_eq_self.mpr fun x hx => decide_eq_true ?_
    rintro rfl
    obtain ⟨k, hk, hx⟩ := List.mem_take_iff_getElem.mp hx
    rcases Nat.lt_or_ge k i with hki | hki
    · have hlast := List.pairwise_iff_getElem.mp (hfirst.sublist h.waits_sublist) k i (by omega) hlt hki hx
      exact hstated (hrole.symm.trans hlast)
    · obtain rfl : k = i := by omega
      exact hstated (hrole.symm.trans hx)
  have hlength := ((List.take_sublist (i + 1) waits).filter (· ≠ .unstated)).length_le
  rw [hbefore, List.length_take, Nat.min_eq_left hlt, ← Multiset.coe_card, ← h.surplus_eq] at hlength
  rw [h.unstated_opens]
  exact Nat.lt_of_lt_of_le hlength hle

/-- Where stated roles come last, all players that wait are before one in surplus. -/
theorem roomy_of_inTime (h : ExactRound roles places waits opens) (hlast : StatedLast roles)
    (hin : InTime waits opens) : Roomy roles places := by
  rw [Roomy, or_iff_not_imp_left]
  intro hsome
  obtain ⟨role, hrole⟩ := Multiset.exists_mem_of_ne_zero hsome
  rw [h.surplus_eq, Multiset.mem_coe, List.mem_filter, decide_eq_true_eq] at hrole
  obtain ⟨hmem, hstated⟩ := hrole
  obtain ⟨k, hk⟩ := List.getElem?_of_mem hmem
  obtain ⟨hlt, hk⟩ := List.getElem?_eq_some_iff.mp hk
  have hend : waits.length - 1 < waits.length := by omega
  have hfinal : waits[waits.length - 1] ≠ .unstated := by
    intro hunstated
    rcases Nat.lt_or_ge k (waits.length - 1) with hlt' | hge
    · exact hstated (hk.symm.trans
        (List.pairwise_iff_getElem.mp (hlast.sublist h.waits_sublist) k _ hlt hend hlt' hunstated))
    · obtain rfl : k = waits.length - 1 := by omega
      exact hstated (hk.symm.trans hunstated)
  have hlater := hin _ _ (List.getElem?_eq_getElem hend) hfinal
  rw [h.unstated_opens] at hlater
  rw [← h.length_waits]
  omega

end ExactRound

instance (r s : RelationAtom) : Decidable (r.Aligns s) :=
  decidable_of_iff _ exists_align_iff.symm

theorem Aligns.hasPlacement (h : r.Aligns s) : r.HasPlacement s := by
  obtain ⟨pairs, hpairs⟩ := h
  exact ⟨_, (align_eq_ok hpairs).1⟩

theorem aligns_of_inTime (hlength : r.players.length ≤ s.players.length) (hin : InTime (r.waits s) (r.opens s)) :
    r.Aligns s := by
  refine exists_align_iff.mpr (forall_isSome_of_inTime ?_ hin)
  have hcount := (exactRound r s).length
  rw [roles, roles, List.length_map, List.length_map] at hcount
  show (r.waits s).length ≤ (r.opens s).length
  omega

theorem aligns_of_statedFirst (hfirst : StatedFirst r.roles) (hlength : r.players.length ≤ s.players.length)
    (hle : (surplus r.roles s.roles).card ≤ s.roles.count .unstated) : r.Aligns s :=
  aligns_of_inTime hlength ((exactRound r s).inTime_of_statedFirst hfirst hle)

theorem HasPlacement.aligns (h : r.HasPlacement s) (hroomy : Roomy r.roles s.roles) : r.Aligns s :=
  aligns_of_inTime h.enough.1 ((exactRound r s).inTime hroomy)

theorem Aligns.roomy (h : r.Aligns s) (hr : StatedLast r.roles) (hs : StatedLast s.roles) :
    Roomy r.roles s.roles := by
  have hfirst : StatedLast (r.opens s) := hs.sublist (exactRound r s).opens_sublist
  exact (exactRound r s).roomy_of_inTime hr (inTime_of_forall_isSome hfirst (exists_align_iff.mp h))

/-! ## The order of the players -/

/-- The relation with the players of stated roles before the others. -/
def moveStatedFirst (r : RelationAtom) : RelationAtom :=
  { r with players := r.players.filter (·.1 ≠ .unstated) ++ r.players.filter (·.1 = .unstated) }

/-- The relation with the players of stated roles behind the others. -/
def moveStatedLast (r : RelationAtom) : RelationAtom :=
  { r with players := r.players.filter (·.1 = .unstated) ++ r.players.filter (·.1 ≠ .unstated) }

theorem perm_moveStatedFirst : r.moveStatedFirst.players.Perm r.players := by
  refine List.perm_append_comm.trans ?_
  simpa using List.filter_append_perm (fun p : Role × Var => decide (p.1 = .unstated)) r.players

theorem perm_moveStatedLast : r.moveStatedLast.players.Perm r.players :=
  List.perm_append_comm.trans perm_moveStatedFirst

theorem statedFirst_roles_moveStatedFirst : StatedFirst r.moveStatedFirst.roles := by
  rw [StatedFirst, roles, moveStatedFirst, List.pairwise_map, List.pairwise_append]
  refine ⟨List.pairwise_of_forall_mem_list fun p hp q _ h => ?_, List.pairwise_of_forall_mem_list fun p _ q hq _ => ?_,
    fun p _ q hq _ => ?_⟩
  · exact absurd h (by simpa using (List.mem_filter.mp hp).2)
  · simpa using (List.mem_filter.mp hq).2
  · simpa using (List.mem_filter.mp hq).2

theorem statedLast_roles_moveStatedLast : StatedLast r.moveStatedLast.roles := by
  rw [StatedLast, roles, moveStatedLast, List.pairwise_map, List.pairwise_append]
  refine ⟨List.pairwise_of_forall_mem_list fun p hp q _ _ => ?_, List.pairwise_of_forall_mem_list fun p _ q hq h => ?_,
    fun p hp q _ _ => ?_⟩
  · simpa using (List.mem_filter.mp hp).2
  · exact absurd h (by simpa using (List.mem_filter.mp hq).2)
  · simpa using (List.mem_filter.mp hp).2

theorem roomy_congr (hr : r.players.Perm r'.players) (hs : s.players.Perm s'.players) :
    Roomy r.roles s.roles ↔ Roomy r'.roles s'.roles := by
  have hr : r.roles.Perm r'.roles := hr.map _
  have hs : s.roles.Perm s'.roles := hs.map _
  rw [Roomy, Roomy, surplus_congr hr hs, hr.count_eq, hs.count_eq]

/-- There is a placement exactly where there are enough places, and enough of them without a stated role for the
players in surplus. -/
theorem hasPlacement_iff_enough : r.HasPlacement s ↔ r.players.length ≤ s.players.length ∧
    (surplus r.roles s.roles).card ≤ s.roles.count .unstated := by
  refine ⟨HasPlacement.enough, fun ⟨hlength, hle⟩ => ?_⟩
  have hroles : r.moveStatedFirst.roles.Perm r.roles := perm_moveStatedFirst.map _
  have haligns : r.moveStatedFirst.Aligns s := by
    refine aligns_of_statedFirst statedFirst_roles_moveStatedFirst ?_ ?_
    · rwa [perm_moveStatedFirst.length_eq]
    · rwa [surplus_congr hroles (.refl _)]
  exact haligns.hasPlacement.of_perm perm_moveStatedFirst

instance (r s : RelationAtom) : Decidable (r.HasPlacement s) :=
  decidable_of_iff _ hasPlacement_iff_enough.symm

theorem hasPlacement_congr (hr : r.players.Perm r'.players) (hs : s.players.Perm s'.players) :
    r.HasPlacement s ↔ r'.HasPlacement s' := by
  have hroles : r.roles.Perm r'.roles := hr.map _
  have hplaces : s.roles.Perm s'.roles := hs.map _
  rw [hasPlacement_iff_enough, hasPlacement_iff_enough, hr.length_eq, hs.length_eq, surplus_congr hroles hplaces,
    hplaces.count_eq]

/-- Alignment finds placements only, and finds one if stated roles come first in the relation. It finds one in every
order of the players of both relations exactly if the places without a stated role suffice for those who wait. -/
theorem align_finds_placement (r s : RelationAtom) :
    (r.Aligns s → r.HasPlacement s) ∧
    (StatedFirst r.roles → (r.Aligns s ↔ r.HasPlacement s)) ∧
    ((∀ r' s' : RelationAtom, r'.players.Perm r.players → s'.players.Perm s.players →
        (r'.Aligns s' ↔ r.HasPlacement s)) ↔
      (r.HasPlacement s → Roomy r.roles s.roles)) := by
  refine ⟨Aligns.hasPlacement, fun hfirst => ⟨Aligns.hasPlacement, fun h => ?_⟩, ⟨fun hall h => ?_, fun hroomy => ?_⟩⟩
  · exact aligns_of_statedFirst hfirst h.enough.1 h.enough.2
  · have haligns := (hall _ _ perm_moveStatedLast (perm_moveStatedLast (r := s))).mpr h
    have hroomy := haligns.roomy statedLast_roles_moveStatedLast statedLast_roles_moveStatedLast
    exact (roomy_congr perm_moveStatedLast perm_moveStatedLast).mp hroomy
  · intro r' s' hr hs
    rw [← hasPlacement_congr hr hs, ← roomy_congr hr hs] at hroomy
    rw [← hasPlacement_congr hr hs]
    exact ⟨Aligns.hasPlacement, fun h => h.aligns (hroomy h)⟩

end RelationAtom

/-! ## The first declared place -/

namespace FirstDeclared

open RelationAtom

def pairing (anchor type : Nat) (players : List (Role × Var)) : RelationAtom where
  anchor := ⟨.generated anchor, .generated type, some ⟨.generated type, ⟨"T2"⟩, none⟩, some ⟨"pairing"⟩, none⟩
  players := players

def roleA : Role := .known ⟨"a"⟩

def roleB : Role := .known ⟨"b"⟩

/-- `(a: $y, $x)` aligns with `($p, b: $q)`, though not in every order. -/
theorem align_finds_placement_of_stated_first :
    let r := pairing 0 2 [(roleA, .named "y"), (.unstated, .named "x")]
    let s := pairing 1 3 [(.unstated, .named "p"), (roleB, .named "q")]
    r.Aligns s ∧ ∃ r' s' : RelationAtom, r'.players.Perm r.players ∧ s'.players.Perm s.players ∧ ¬ r'.Aligns s' := by
  intro r s
  obtain ⟨-, hfirst, horders⟩ := align_finds_placement r s
  have hplace : r.HasPlacement s := by decide +kernel
  have haligns : r.Aligns s := (hfirst (by simp [StatedFirst, roles, r, pairing, roleA])).mpr hplace
  refine ⟨haligns, ?_⟩
  by_contra hnone
  have hroomy : Roomy r.roles s.roles := horders.mp (fun r' s' hr hs => iff_of_true (by_contra fun hfails =>
    hnone ⟨r', s', hr, hs, hfails⟩) hplace) hplace
  exact absurd hroomy (by decide +kernel)

/-- In `($x, a: $y)` the first player takes the place of `$p` in `($p, b: $q)`, which is the only one for the
other player. -/
theorem not_align_in_declared_order :
    ¬ (∀ r s : RelationAtom, r.Aligns s ↔ r.HasPlacement s) ∧
      ¬ ∀ r r' s : RelationAtom, r.players.Perm r'.players → (r.Aligns s ↔ r'.Aligns s) := by
  let r := pairing 0 2 [(.unstated, .named "x"), (roleA, .named "y")]
  let r' := pairing 0 2 [(roleA, .named "y"), (.unstated, .named "x")]
  let s := pairing 1 3 [(.unstated, .named "p"), (roleB, .named "q")]
  have hfails : ¬ r.Aligns s := by decide +kernel
  constructor
  · exact fun h => hfails ((h r s).mpr (by decide +kernel))
  · exact fun h => hfails ((h r r' s (.swap _ _ _)).mpr (by decide +kernel))

end FirstDeclared

end GraphInference
