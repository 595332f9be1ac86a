import GraphInference.Proofs.Unification.Alike

/-!
# The order of players

The players of a relation are aligned one after the other, each with the first free place that its role
accepts. So the order in which they are declared decides between players that compete for a place. Where no
two different players do (`RelationAtom.Undisputed`), relations that differ in the order of their players
pair the same variables with those of a head: `RelationAtom.alignsAlike_of_perm`.
-/

namespace GraphInference

theorem Except.rel_mapM_of_perm {ε α β : Type} {f : α → Except ε β} {l l' : List α} (h : l.Perm l') :
    Option.Rel (fun bs bs' => ∀ b, b ∈ bs ↔ b ∈ bs') (l.mapM f).toOption (l'.mapM f).toOption := by
  have hmem {l : List α} {bs : List β} (h : l.mapM f = .ok bs) (b : β) : b ∈ bs ↔ ∃ a ∈ l, f a = .ok b := by
    have hall := Except.mapM_eq_ok h
    constructor
    · intro hb
      obtain ⟨a, ha, hab⟩ := exists_of_forall₂_of_mem hall.flip hb
      exact ⟨a, ha, hab⟩
    · rintro ⟨a, ha, hab⟩
      obtain ⟨b', hb', hab'⟩ := exists_of_forall₂_of_mem hall ha
      exact Except.ok.inj (hab.symm.trans hab') ▸ hb'
  have hok {l l' : List α} (h : l.Perm l') {bs : List β} (hbs : l.mapM f = .ok bs) :
      ∃ bs', l'.mapM f = .ok bs' :=
    Except.exists_mapM fun a ha => by
      obtain ⟨b, -, hab⟩ := exists_of_forall₂_of_mem (Except.mapM_eq_ok hbs) (h.mem_iff.mpr ha)
      exact ⟨b, hab⟩
  cases hl : l.mapM f with
  | error e =>
    cases hl' : l'.mapM f with
    | error e' => exact .none
    | ok bs' =>
      obtain ⟨bs, hbs⟩ := hok h.symm hl'
      cases hl.symm.trans hbs
  | ok bs =>
    obtain ⟨bs', hl'⟩ := hok h hl
    rw [hl']
    exact .some fun b => by simp only [hmem hl, hmem hl', h.mem_iff]

namespace RelationAtom

/-! ## Greedy assignment -/

section Assign

variable {ps : List (Role × Var)} {accepts : Role → Role → Bool} {taken taken' : List Nat}

theorem freePlace?_congr {accepts : Role → Bool} (h : ∀ j, j ∈ taken ↔ j ∈ taken') (i : Nat) :
    freePlace? taken accepts i ps = freePlace? taken' accepts i ps := by
  induction ps generalizing i with
  | nil => rfl
  | cons p ps ih => simp only [freePlace?, ih, h]

/-- A place that is not accepted may as well be taken. -/
theorem freePlace?_cons {accepts : Role → Bool} {a i : Nat}
    (h : ∀ k p, a = i + k → ps[k]? = some p → accepts p.1 = false) :
    freePlace? (a :: taken) accepts i ps = freePlace? taken accepts i ps := by
  induction ps generalizing i with
  | nil => rfl
  | cons p ps ih =>
    have hrest := @ih (i + 1) fun k p' hk hp' => h (k + 1) p' (by omega) hp'
    rw [freePlace?, freePlace?, hrest]
    by_cases hi : i = a
    · have hnot : accepts p.1 = false := h 0 p hi.symm rfl
      simp [hnot]
    · simp [hi]

/-- What another player takes is not missed by one who does not accept it. -/
theorem freePlace?_of_refused {accepts accepts' : Role → Bool} (h : ∀ p ∈ ps, accepts p.1 = true → accepts' p.1 = false) :
    freePlace? ((freePlace? taken accepts 0 ps).toList ++ taken) accepts' 0 ps = freePlace? taken accepts' 0 ps := by
  cases ha : freePlace? taken accepts 0 ps with
  | none => rfl
  | some a =>
    obtain ⟨-, k, p, rfl, hp, hacc⟩ := freePlace?_eq_some ha
    refine freePlace?_cons fun i d hi hd => ?_
    obtain rfl : k = i := by omega
    obtain rfl := Option.some.inj (hp.symm.trans hd)
    exact h p (List.mem_of_getElem? hp) hacc

theorem assign_none (role : Role) (l : List (Role × Option Nat)) :
    assign ps accepts taken ((role, none) :: l) = freePlace? taken (accepts role) 0 ps ::
      assign ps accepts ((freePlace? taken (accepts role) 0 ps).toList ++ taken) l := by
  rw [assign]
  cases freePlace? taken (accepts role) 0 ps <;> rfl

theorem assign_congr (h : ∀ j, j ∈ taken ↔ j ∈ taken') (l : List (Role × Option Nat)) :
    assign ps accepts taken l = assign ps accepts taken' l := by
  induction l generalizing taken taken' with
  | nil => rfl
  | cons e l ih =>
    obtain ⟨role, _ | j⟩ := e
    · rw [assign_none, assign_none, freePlace?_congr h]
      exact congrArg _ (ih fun j => by simp [h])
    · rw [assign, assign, ih h]

/-- No place is accepted by two different players that have none yet. -/
def Undisputing (ps : List (Role × Var)) (accepts : Role → Role → Bool)
    (l : List ((Role × Var) × Option Nat)) : Prop :=
  ∀ e ∈ l, ∀ e' ∈ l, e.2 = none → e'.2 = none → e ≠ e' →
    ∀ p ∈ ps, accepts e.1.1 p.1 = true → accepts e'.1.1 p.1 = false

/-- Players that do not compete get the same places in every order. -/
theorem perm_assign {l l' : List ((Role × Var) × Option Nat)} (hperm : l.Perm l')
    (htaken : ∀ j, j ∈ taken ↔ j ∈ taken') (h : Undisputing ps accepts l) :
    (l.zip (assign ps accepts taken (l.map fun e => (e.1.1, e.2)))).Perm
      (l'.zip (assign ps accepts taken' (l'.map fun e => (e.1.1, e.2)))) := by
  induction hperm generalizing taken taken' with
  | nil => exact .refl _
  | @cons e l l' _ ih =>
    have hrest : Undisputing ps accepts l := fun d hd d' hd' => h d (.tail _ hd) d' (.tail _ hd')
    obtain ⟨p, _ | j⟩ := e
    · rw [List.map_cons, List.map_cons, assign_none, assign_none, freePlace?_congr htaken]
      exact (ih (fun j => by simp [htaken]) hrest).cons _
    · rw [List.map_cons, List.map_cons, assign, assign]
      exact (ih htaken hrest).cons _
  | swap e e' l =>
    rw [← assign_congr htaken]
    by_cases heq : e = e'
    · rw [heq]
    obtain ⟨p, _ | j⟩ := e <;> obtain ⟨p', _ | j'⟩ := e' <;> simp only [List.map_cons]
    · have hrefused := h _ (.tail _ (.head _)) _ (.head _) rfl rfl heq
      have hrefused' := h _ (.head _) _ (.tail _ (.head _)) rfl rfl (Ne.symm heq)
      have hsame (x y : List Nat) (j : Nat) : j ∈ x ++ (y ++ taken) ↔ j ∈ y ++ (x ++ taken) := by
        simp [or_left_comm]
      rw [assign_none, assign_none, assign_none, assign_none, freePlace?_of_refused hrefused,
        freePlace?_of_refused hrefused', assign_congr (hsame _ _)]
      exact .swap _ _ _
    · rw [assign, assign_none, assign_none, assign]
      exact .swap _ _ _
    · rw [assign_none, assign, assign, assign_none]
      exact .swap _ _ _
    · rw [assign, assign, assign, assign]
      exact .swap _ _ _
  | @trans l₁ l₂ l₃ h₁₂ _ ih₁ ih₂ =>
    refine (ih₁ htaken h).trans (ih₂ (fun _ => Iff.rfl) fun d hd d' hd' => ?_)
    exact h d (h₁₂.mem_iff.mpr hd) d' (h₁₂.mem_iff.mpr hd')

end Assign

/-! ## Alignment -/

/-- The places in equal roles, if there are any left. -/
def exactPlaces (q h : RelationAtom) : List (Option Nat) :=
  assign h.players exactMatch [] ((q.players.map (·.1)).map (·, none))

/-- A role that is stated in the head is played by one variable, and the players that find no place in
their role are all the same. -/
structure Undisputed (q h : RelationAtom) : Prop where
  exact : ∀ p ∈ q.players, ∀ p' ∈ q.players, p.1 ≠ .unstated → p'.1 = p.1 → (∃ d ∈ h.players, d.1 = p.1) →
    p' = p
  loose : ∀ e ∈ q.players.zip (q.exactPlaces h), ∀ e' ∈ q.players.zip (q.exactPlaces h), e.2 = none →
    e'.2 = none → e' = e

instance (q h : RelationAtom) : Decidable (q.Undisputed h) :=
  decidable_of_iff (_ ∧ _) ⟨fun h => ⟨h.1, h.2⟩, fun h => ⟨h.1, h.2⟩⟩

/-- Either both relations align with the third and pair the same variables, or neither does. -/
def AlignsAlike (q q' h : RelationAtom) : Prop :=
  Option.Rel (fun ps ps' => ∀ p, p ∈ ps ↔ p ∈ ps') (q.align h).toOption (q'.align h).toOption

variable {q q' h : RelationAtom}

/-- In the first round every player in a role that the head states is the same. -/
theorem perm_exactPlaces (hperm : q.players.Perm q'.players) (hundisputed : q.Undisputed h) :
    (q.players.zip (q.exactPlaces h)).Perm (q'.players.zip (q'.exactPlaces h)) := by
  have hdisputes : Undisputing h.players exactMatch (q.players.map (·, none)) := by
    intro e he e' he' _ _ hne d hd haccepts
    obtain ⟨p, hp, rfl⟩ := List.mem_map.mp he
    obtain ⟨p', hp', rfl⟩ := List.mem_map.mp he'
    have hexact {r : Role × Var} (h : exactMatch r.1 d.1 = true) : r.1 ≠ .unstated ∧ d.1 = r.1 := by
      simpa [exactMatch] using h
    obtain ⟨hstated, hrole⟩ := hexact haccepts
    refine Bool.eq_false_iff.mpr fun haccepts' => hne ?_
    rw [hundisputed.exact p hp p' hp' hstated ((hexact haccepts').2.symm.trans hrole) ⟨d, hd, hrole⟩]
  have hround := perm_assign (hperm.map (·, none)) (fun j => (Iff.rfl : j ∈ [] ↔ _)) hdisputes
  simpa [exactPlaces, List.zip_map_left, Function.comp_def] using hround.map fun e => (e.1.1, e.2)

/-- In the second round all players without a place are the same. -/
theorem perm_places (hperm : q.players.Perm q'.players) (hundisputed : q.Undisputed h) :
    (q.players.zip (q.places h)).Perm (q'.players.zip (q'.places h)) := by
  have hexact := perm_exactPlaces hperm hundisputed
  have hlength (q : RelationAtom) : (q.exactPlaces h).length = q.players.length := by
    simp [exactPlaces, length_assign]
  have hgiven (q : RelationAtom) : (q.players.zip (q.exactPlaces h)).map Prod.snd = q.exactPlaces h :=
    List.map_snd_zip (hlength q).le
  have htaken (j : Nat) : j ∈ (q.exactPlaces h).filterMap id ↔ j ∈ (q'.exactPlaces h).filterMap id := by
    rw [← hgiven q, ← hgiven q']
    exact ((hexact.map _).filterMap _).mem_iff
  have hdisputes : Undisputing h.players looseMatch (q.players.zip (q.exactPlaces h)) := by
    intro e he e' he' hnone hnone' hne
    exact absurd (hundisputed.loose e' he' e he hnone' hnone) hne
  have hround := perm_assign hexact htaken hdisputes
  have hplaces (q : RelationAtom) : q.places h = assign h.players looseMatch ((q.exactPlaces h).filterMap id)
      ((q.players.zip (q.exactPlaces h)).map fun e => (e.1.1, e.2)) := by
    rw [places, List.zip_map_left]
    rfl
  rw [← hplaces, ← hplaces] at hround
  have hplayers (q : RelationAtom) : q.players.zip (q.places h) =
      ((q.players.zip (q.exactPlaces h)).zip (q.places h)).map (Prod.map Prod.fst id) := by
    rw [← List.zip_map_left, List.map_fst_zip (hlength q).ge]
  rw [hplayers q, hplayers q']
  exact hround.map _

/-- What is aligned are the players with their places, whatever their order is. -/
theorem alignsAlike_of_perm_zip (hperm : (q.players.zip (q.places h)).Perm (q'.players.zip (q'.places h))) :
    q.AlignsAlike q' h :=
  Except.rel_mapM_of_perm hperm

theorem alignsAlike_of_perm (hperm : q.players.Perm q'.players) (hundisputed : q.Undisputed h) :
    q.AlignsAlike q' h :=
  alignsAlike_of_perm_zip (perm_places hperm hundisputed)

end RelationAtom

namespace Atom

open RelationAtom

/-- Relations that align alike with a relation. -/
def AlignsAlike : Atom → Atom → Atom → Prop
  | .relation q, .relation q', .relation h => q.AlignsAlike q' h
  | _, _, _ => True

/-- No two different players of a relation compete for a place in the other one. -/
def Undisputed : Atom → Atom → Prop
  | .relation q, .relation h => q.Undisputed h
  | _, _ => True

instance : ∀ q h : Atom, Decidable (q.Undisputed h)
  | .relation q, .relation h => inferInstanceAs (Decidable (q.Undisputed h))
  | .relation _, .isa _ | .relation _, .value _ | .relation _, .identity _ | .relation _, .substitution _
  | .isa _, _ | .value _, _ | .identity _, _ | .substitution _, _ => isTrue trivial

theorem alignsAlike_of_perm {q q' h : Atom} (hperm : q.players.Perm q'.players) (hundisputed : q.Undisputed h) :
    q.AlignsAlike q' h := by
  cases q with
  | relation q =>
    cases q' with
    | relation q' =>
      cases h with
      | relation h => exact RelationAtom.alignsAlike_of_perm hperm hundisputed
      | _ => trivial
    | _ => trivial
  | _ => trivial

/-- Relations that align alike seat their players alike. -/
theorem AlignsAlike.seatsAlike {ρ : Var → Var} {q q' h : Atom} (halike : q.AlignsAlike q' h)
    (hfamily : q'.family = q.family) (hρ : ∀ p ∈ q.players, ρ p.2 = p.2) : SeatsAlike ρ q q' h := by
  cases q <;> cases q' <;> cases hfamily
  case relation.relation.refl a a' =>
    cases h with
    | relation b =>
      have halike : Option.Rel _ (a.align b).toOption (a'.align b).toOption := halike
      refine ⟨?_, fun hseated v w hplayer => ?_⟩
      · rw [Seated, Seated, ← exists_align_iff, ← exists_align_iff]
        cases ha : a.align b with
        | error e =>
          cases ha' : a'.align b with
          | error e' => simp
          | ok ps' =>
            rw [ha, ha'] at halike
            cases halike
        | ok ps =>
          cases ha' : a'.align b with
          | error e' =>
            rw [ha, ha'] at halike
            cases halike
          | ok ps' => exact ⟨fun _ => ⟨ps', rfl⟩, fun _ => ⟨ps, rfl⟩⟩
      · obtain ⟨p, hp, hv⟩ := hplayer
        obtain ⟨ps, hps⟩ := exists_align_iff.mpr hseated
        rw [hps] at halike
        cases ha' : a'.align b with
        | error e' =>
          rw [ha'] at halike
          cases halike
        | ok ps' =>
          rw [ha'] at halike
          obtain ⟨hsame⟩ := halike
          rw [← hv, hρ p hp]
          exact ((align_eq_ok ha').2 p.2 w).symm.trans ((hsame _).symm.trans ((align_eq_ok hps).2 p.2 w))
    | _ =>
      refine ⟨Iff.rfl, fun _ _ _ _ => iff_of_false ?_ ?_⟩
      all_goals
        rintro ⟨_, _, _, _, _, h, _⟩
        cases h
  all_goals
    cases h
    all_goals
      refine ⟨Iff.rfl, fun _ _ _ hplayer => ?_⟩
      obtain ⟨_, hp, _⟩ := hplayer
      cases hp

end Atom

end GraphInference
