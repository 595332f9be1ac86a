import GraphInference.Atom.Unification
import GraphInference.Proofs.Sorted
import GraphInference.Proofs.Unification.Renaming

/-!
# What alignment finds

Aligning the players of a relation with those of another gives each a place of its own with an equal
role, or where one of the roles is not stated (`Placement`). The unifier of two atoms pairs every
variable with the variables that it faces (`Atom.Faces`), but not with itself and not with an anchor
that is a system variable. So it carries every user-defined variable to the variable that it faces only
if the atoms are `Clear` of each other.
-/

namespace GraphInference

/-! ## Placements -/

namespace RelationAtom

/-- Each of the players `q` has a place of its own among the players `h`, where the role is equal or
one of the roles is not stated. -/
structure Placement (q h : List (Role × Var)) (js : List Nat) : Prop where
  length : js.length = q.length
  nodup : js.Nodup
  fits : ∀ (i j : Nat) (p : Role × Var), q[i]? = some p → js[i]? = some j →
    ∃ p', h[j]? = some p' ∧ (p'.1 = p.1 ∨ p.1 = .unstated ∨ p'.1 = .unstated)

theorem freePlace?_eq_some {taken : List Nat} {accepts : Role → Bool} {i j : Nat}
    {ps : List (Role × Var)} (h : freePlace? taken accepts i ps = some j) :
    j ∉ taken ∧ ∃ k p, j = i + k ∧ ps[k]? = some p ∧ accepts p.1 = true := by
  induction ps generalizing i with
  | nil => cases h
  | cons p ps ih =>
    rw [freePlace?] at h
    split at h
    · next hi =>
      obtain rfl := Option.some.inj h
      exact ⟨hi.1, 0, p, rfl, rfl, hi.2⟩
    · obtain ⟨hj, k, p', rfl, hp', hacc⟩ := ih h
      exact ⟨hj, k + 1, p', by omega, hp', hacc⟩

section Assign

variable {ps : List (Role × Var)} {accepts : Role → Role → Bool} {taken : List Nat}
  {l : List (Role × Option Nat)}

theorem length_assign : (assign ps accepts taken l).length = l.length := by
  induction l generalizing taken with
  | nil => rfl
  | cons e l ih =>
    obtain ⟨role, j | j⟩ := e
    · rw [assign]
      split <;> simp [ih]
    · simp [assign, ih]

/-- A place given before stays, and one given now accepts the role. -/
theorem assign_spec {i : Nat} {e : Role × Option Nat} {o : Option Nat} (he : l[i]? = some e)
    (ho : (assign ps accepts taken l)[i]? = some o) :
    (∀ j, e.2 = some j → o = some j) ∧
      ∀ j, o = some j → e.2 = none → ∃ p, ps[j]? = some p ∧ accepts e.1 p.1 = true := by
  induction l generalizing taken i with
  | nil => cases he
  | cons d l ih =>
    obtain ⟨role, j | j⟩ := d
    · rw [assign] at ho
      split at ho
      · next j hj =>
        cases i with
        | zero =>
          obtain rfl := Option.some.inj he
          obtain rfl := Option.some.inj ho
          refine ⟨fun _ h => (nomatch h), fun k hk _ => ?_⟩
          obtain rfl := Option.some.inj hk
          obtain ⟨-, k, p, rfl, hp, hacc⟩ := freePlace?_eq_some hj
          exact ⟨p, by rwa [Nat.zero_add], hacc⟩
        | succ i => exact ih he ho
      · cases i with
        | zero =>
          obtain rfl := Option.some.inj he
          obtain rfl := Option.some.inj ho
          exact ⟨fun _ h => (nomatch h), fun _ h => nomatch h⟩
        | succ i => exact ih he ho
    · rw [assign] at ho
      cases i with
      | zero =>
        obtain rfl := Option.some.inj he
        obtain rfl := Option.some.inj ho
        exact ⟨fun _ => id, fun _ _ h => nomatch h⟩
      | succ i => exact ih he ho

/-- A place was given before or was not taken. -/
theorem given_or_not_mem_taken {j : Nat} (hj : some j ∈ assign ps accepts taken l) :
    j ∈ l.filterMap (·.2) ∨ j ∉ taken := by
  induction l generalizing taken with
  | nil => cases hj
  | cons d l ih =>
    obtain ⟨role, k | k⟩ := d
    · rw [assign] at hj
      split at hj
      · next k hk =>
        rcases List.mem_cons.mp hj with hj | hj
        · obtain rfl := Option.some.inj hj
          exact .inr (freePlace?_eq_some hk).1
        · refine (ih hj).imp (fun h => by simpa using h) fun h => ?_
          exact fun hmem => h (.tail _ hmem)
      · rcases List.mem_cons.mp hj with hj | hj
        · cases hj
        · exact (ih hj).imp (fun h => by simpa using h) id
    · rw [assign] at hj
      rcases List.mem_cons.mp hj with hj | hj
      · obtain rfl := Option.some.inj hj
        exact .inl (by simp)
      · refine (ih hj).imp (fun h => ?_) id
        rw [List.filterMap_cons]
        exact .tail _ h

/-- No place is given twice, provided that those given before count as taken. -/
theorem nodup_assign (hl : (l.filterMap (·.2)).Nodup) (htaken : l.filterMap (·.2) ⊆ taken) :
    ((assign ps accepts taken l).filterMap id).Nodup := by
  induction l generalizing taken with
  | nil => exact .nil
  | cons d l ih =>
    obtain ⟨role, k | k⟩ := d
    · rw [assign]
      have hl : (l.filterMap (·.2)).Nodup := hl
      have htaken : l.filterMap (·.2) ⊆ taken := htaken
      split
      · next k hk =>
        obtain ⟨hfree, -⟩ := freePlace?_eq_some hk
        show (k :: (assign ps accepts (k :: taken) l).filterMap id).Nodup
        refine List.nodup_cons.mpr ⟨fun hmem => ?_, ih hl ?_⟩
        rcases given_or_not_mem_taken (by simpa using hmem) with h | h
        · exact hfree (htaken h)
        · exact h (.head _)
        · exact List.subset_cons_of_subset k htaken
      · exact ih hl htaken
    · rw [assign]
      have hl : (k :: l.filterMap (·.2)).Nodup := hl
      have htaken : k :: l.filterMap (·.2) ⊆ taken := htaken
      obtain ⟨hk, hl⟩ := List.nodup_cons.mp hl
      obtain ⟨hkt, htaken⟩ := List.cons_subset.mp htaken
      show (k :: (assign ps accepts taken l).filterMap id).Nodup
      refine List.nodup_cons.mpr ⟨fun hmem => ?_, ih hl htaken⟩
      rcases given_or_not_mem_taken (by simpa using hmem) with h | h
      · exact hk h
      · exact h hkt

end Assign

/-! ## Alignment -/

/-- Where `v` stands among the players `q`, `w` stands at the place given among the players `h`. -/
def Counterpart (q h : List (Role × Var)) (js : List Nat) (v w : Var) : Prop :=
  ∃ (i j : Nat) (r r' : Role), q[i]? = some (r, v) ∧ js[i]? = some j ∧ h[j]? = some (r', w)

/-- The places that the players get stand for themselves if every player gets one. -/
theorem map_some_of_forall_isSome {os : List (Option Nat)} (h : ∀ o ∈ os, o.isSome) :
    os = (os.filterMap id).map some := by
  induction os with
  | nil => rfl
  | cons o os ih =>
    obtain ⟨ho, hos⟩ := List.forall_mem_cons.mp h
    obtain ⟨j, rfl⟩ := Option.isSome_iff_exists.mp ho
    exact congrArg (some j :: ·) (ih hos)

theorem length_places (q h : RelationAtom) : (q.places h).length = q.players.length := by
  simp [places, length_assign]

/-- The places given in the first round. -/
theorem getElem?_exact {q h : RelationAtom} {i : Nat} {p : Role × Var}
    (hp : q.players[i]? = some p) : ∃ o : Option Nat,
      (assign h.players exactMatch [] ((q.players.map (·.1)).map (·, none)))[i]? = some o ∧
      ∀ j, o = some j → ∃ p', h.players[j]? = some p' ∧ p'.1 = p.1 := by
  have hroles : ((q.players.map (·.1)).map (·, (none : Option Nat)))[i]? = some (p.1, none) := by
    simp [hp]
  have hlt : i < (assign h.players exactMatch [] ((q.players.map (·.1)).map (·, none))).length := by
    obtain ⟨hi, -⟩ := List.getElem?_eq_some_iff.mp hp
    simpa [length_assign] using hi
  refine ⟨_, List.getElem?_eq_getElem hlt, fun j hj => ?_⟩
  obtain ⟨p', hp', hacc⟩ := (assign_spec hroles (List.getElem?_eq_getElem hlt)).2 j hj rfl
  have hacc : p.1 ≠ .unstated ∧ p'.1 = p.1 := by simpa [exactMatch] using hacc
  exact ⟨p', hp', hacc.2⟩

/-- A place fits the role of its player. -/
theorem places_fit {q h : RelationAtom} {i j : Nat} {p : Role × Var}
    (hp : q.players[i]? = some p) (hj : (q.places h)[i]? = some (some j)) :
    ∃ p', h.players[j]? = some p' ∧ (p'.1 = p.1 ∨ p.1 = .unstated ∨ p'.1 = .unstated) := by
  obtain ⟨o, ho, hexact⟩ := getElem?_exact (h := h) hp
  have hrole : (q.players.map (·.1))[i]? = some p.1 := by simp [hp]
  have hspec := assign_spec (List.getElem?_zip_eq_some (z := (p.1, o)) |>.mpr ⟨hrole, ho⟩) hj
  cases o with
  | some k =>
    obtain rfl := Option.some.inj (hspec.1 k rfl)
    obtain ⟨p', hp', he⟩ := hexact j rfl
    exact ⟨p', hp', .inl he⟩
  | none =>
    obtain ⟨p', hp', hacc⟩ := hspec.2 j rfl rfl
    have hacc : p.1 = .unstated ∨ p'.1 = .unstated := by simpa [looseMatch] using hacc
    exact ⟨p', hp', .inr hacc⟩

/-- No place is given twice. -/
theorem nodup_places (q h : RelationAtom) : ((q.places h).filterMap id).Nodup := by
  have hgiven (exact : List (Option Nat)) (hlen : exact.length = q.players.length) :
      ((q.players.map (·.1)).zip exact).filterMap (·.2) = exact.filterMap id := by
    have hsnd : ((q.players.map (·.1)).zip exact).map Prod.snd = exact :=
      List.map_snd_zip (by simp [hlen])
    conv_rhs => rw [← hsnd, List.filterMap_map]
    rfl
  rw [places]
  refine nodup_assign ?_ ?_
  · rw [hgiven _ (by simp [length_assign])]
    exact nodup_assign (by simp) (by simp)
  · rw [hgiven _ (by simp [length_assign])]
    exact List.Subset.refl _

/-- The places of the players that have one. -/
def placed (q h : RelationAtom) : List Nat :=
  (q.places h).filterMap id

/-- Relations that align have a placement, and the pairs of players are those it puts together. -/
theorem align_eq_ok {q h : RelationAtom} {pairs : List (Var × Var)} (hp : q.align h = .ok pairs) :
    Placement q.players h.players (q.placed h) ∧
      ∀ v w, (v, w) ∈ pairs ↔ Counterpart q.players h.players (q.placed h) v w := by
  have hall := Except.mapM_eq_ok hp
  have hpair {i : Nat} {r : Role} {v : Var} {o : Option Nat} (hi : q.players[i]? = some (r, v))
      (ho : (q.places h)[i]? = some o) : ∃ (j : Nat) (r' : Role) (w : Var),
        o = some j ∧ h.players[j]? = some (r', w) ∧ pairs[i]? = some (v, w) := by
    have hzip := List.getElem?_zip_eq_some (z := ((r, v), o)) |>.mpr ⟨hi, ho⟩
    obtain ⟨p, hp, hf⟩ := getElem?_of_forall₂ hall hzip
    dsimp only at hf
    split at hf
    · next p' hp' =>
      obtain rfl := Except.ok.inj hf
      obtain ⟨j, rfl, hj⟩ := Option.bind_eq_some_iff.mp hp'
      exact ⟨j, p'.1, p'.2, rfl, hj, hp⟩
    · cases hf
  have hplayer {i : Nat} {o : Option Nat} (ho : (q.places h)[i]? = some o) :
      ∃ p, q.players[i]? = some p := by
    obtain ⟨hi, -⟩ := List.getElem?_eq_some_iff.mp ho
    rw [length_places] at hi
    exact ⟨_, List.getElem?_eq_getElem hi⟩
  have hsome : ∀ o ∈ q.places h, o.isSome := by
    intro o ho
    obtain ⟨i, ho⟩ := List.getElem?_of_mem ho
    obtain ⟨p, hp⟩ := hplayer ho
    obtain ⟨j, -, -, rfl, -⟩ := hpair hp ho
    rfl
  have hjs := map_some_of_forall_isSome hsome
  have hplace {i j : Nat} (hj : (q.placed h)[i]? = some j) : (q.places h)[i]? = some (some j) := by
    rw [hjs, List.getElem?_map, show ((q.places h).filterMap id)[i]? = some j from hj]
    rfl
  refine ⟨⟨?_, nodup_places q h, ?_⟩, fun v w => ⟨fun hvw => ?_, ?_⟩⟩
  · have hlen := congrArg List.length hjs
    rwa [List.length_map, length_places, eq_comm] at hlen
  · intro i j p hp hj
    exact places_fit hp (hplace hj)
  · obtain ⟨i, hi⟩ := List.getElem?_of_mem hvw
    obtain ⟨⟨⟨r, v'⟩, o⟩, hzip, -⟩ := getElem?_of_forall₂ hall.flip hi
    obtain ⟨hq, ho⟩ := List.getElem?_zip_eq_some.mp hzip
    obtain ⟨j, r', w', rfl, hh, hp⟩ := hpair hq ho
    obtain ⟨rfl, rfl⟩ := Prod.mk.inj (Option.some.inj (hi.symm.trans hp))
    refine ⟨i, j, r, r', hq, ?_, hh⟩
    rw [hjs, List.getElem?_map, Option.map_eq_some_iff] at ho
    obtain ⟨j', hj', e⟩ := ho
    exact Option.some.inj e ▸ hj'
  · rintro ⟨i, j, r, r', hq, hj, hh⟩
    obtain ⟨j', r'', w', e, hh', hp⟩ := hpair hq (hplace hj)
    obtain rfl := Option.some.inj e
    obtain ⟨rfl, rfl⟩ := Prod.mk.inj (Option.some.inj (hh.symm.trans hh'))
    exact List.mem_of_getElem? hp

end RelationAtom

/-! ## Unification -/

namespace Atom

open RelationAtom

/-- The variable of the type, unless it is absent. -/
def typeVar? (a : Atom) : Option Var :=
  (a.anchor?.map Anchor.typeVar).filter fun v => !v.isEmpty

/-- The places that the players of `q` are given among those of `h`. -/
def placed : Atom → Atom → List Nat
  | .relation q, .relation h => q.placed h
  | _, _ => []

/-- The variables that stand at the same place of two atoms. -/
inductive Faces (q h : Atom) : Var → Var → Prop where
  | anchor : Faces q h q.var h.var
  | type {v w : Var} (hv : q.typeVar? = some v) (hw : h.typeVar? = some w) : Faces q h v w
  | player {v w : Var} (hvw : Counterpart q.players h.players (q.placed h) v w) : Faces q h v w

/-- The anchor is mapped before the variable of the type. -/
theorem exists_of_anchorUnifier {a b : Anchor} {u : Unifier} (h : a.unifier b = .ok u) :
    ∃ u', (if b.var.userDefined = true ∧ a.var ≠ b.var then Unifier.add {} a.var b.var
      else .ok {}) = .ok u' ∧
      (if a.typeVar.isEmpty = true ∨ b.typeVar.isEmpty = true ∨ a.typeVar = b.typeVar then .ok u'
        else u'.add a.typeVar b.typeVar) = .ok u := by
  unfold Anchor.unifier at h
  dsimp only at h
  split at h
  · next hb =>
    rw [if_pos hb]
    exact Except.bind_eq_ok.mp h
  · next hb =>
    rw [if_neg hb]
    exact Except.bind_eq_ok.mp h

/-- The pairs of a unifier of typed anchors. -/
theorem get?_anchorUnifier {a b : Anchor} {u : Unifier} (h : a.unifier b = .ok u) {v w : Var} :
    u.get? v = some w ↔ v ≠ w ∧ (v = a.var ∧ w = b.var ∧ b.var.userDefined = true ∨
      v = a.typeVar ∧ w = b.typeVar ∧ v.isEmpty = false ∧ w.isEmpty = false) := by
  obtain ⟨u', hu', h⟩ := exists_of_anchorUnifier h
  have hanchor : u'.get? v = some w ↔
      v = a.var ∧ w = b.var ∧ b.var.userDefined = true ∧ a.var ≠ b.var := by
    split at hu'
    · next hb =>
      rw [Unifier.get?_eq_some_of_add hu']
      simp [Unifier.get?, hb]
    · next hb =>
      obtain rfl := Except.ok.inj hu'
      simp only [Unifier.get?, List.find?_nil, Option.map_none, reduceCtorEq, false_iff]
      exact fun h => hb h.2.2
  have htype : u.get? v = some w ↔ u'.get? v = some w ∨ v = a.typeVar ∧ w = b.typeVar ∧
      a.typeVar.isEmpty = false ∧ b.typeVar.isEmpty = false ∧ a.typeVar ≠ b.typeVar := by
    split at h
    · next ht =>
      obtain rfl := Except.ok.inj h
      grind
    · next ht =>
      rw [Unifier.get?_eq_some_of_add h]
      grind
  rw [htype, hanchor]
  grind

theorem typeVar?_eq_some {q : Atom} {a : Anchor} (ha : q.anchor? = some a) {v : Var} :
    q.typeVar? = some v ↔ v = a.typeVar ∧ v.isEmpty = false := by
  rw [typeVar?, ha, Option.map_some, Option.filter_eq_some_iff, Option.some.injEq]
  grind

/-- The unifier pairs what faces each other, but nothing with itself and no anchor with one that is
not user-defined. -/
theorem get?_unifier {q h : Atom} {u : Unifier} (hq : q.isPredicate = false)
    (hu : q.unifier h = .ok u) : Placement q.players h.players (q.placed h) ∧ ∀ v w,
      u.get? v = some w ↔ v ≠ w ∧ (v = q.var ∧ w = h.var ∧ h.var.userDefined = true ∨
        q.typeVar? = some v ∧ h.typeVar? = some w ∨
        Counterpart q.players h.players (q.placed h) v w) := by
  cases q with
  | isa a =>
    cases h with
    | isa b =>
      refine ⟨⟨rfl, .nil, fun i j p hp => nomatch hp⟩, fun v w => ?_⟩
      have hnone : ¬ Counterpart (isa a).players (isa b).players ((isa a).placed (isa b)) v w :=
        fun ⟨_, _, _, _, hi, _⟩ => nomatch hi
      rw [get?_anchorUnifier hu, typeVar?_eq_some rfl, typeVar?_eq_some rfl]
      simp only [hnone, or_false]
      show _ ↔ v ≠ w ∧ (v = a.var ∧ w = b.var ∧ b.var.userDefined = true ∨ _)
      grind
    | relation _ | value _ | identity _ | substitution _ => cases hu
  | relation r =>
    cases h with
    | relation s =>
      obtain ⟨u', hu', hu⟩ := Except.bind_eq_ok.mp hu
      obtain ⟨pairs, hpairs, hu⟩ := Except.bind_eq_ok.mp hu
      split at hu
      · next u'' hadd =>
        obtain rfl := Except.ok.inj hu
        obtain ⟨hplace, hmem⟩ := align_eq_ok hpairs
        refine ⟨hplace, fun v w => ?_⟩
        rw [Unifier.get?_eq_some_of_addAll hadd, get?_anchorUnifier hu', List.mem_filter, hmem,
          typeVar?_eq_some rfl, typeVar?_eq_some rfl]
        show _ ↔ v ≠ w ∧ (v = r.anchor.var ∧ w = s.anchor.var ∧ s.anchor.var.userDefined = true ∨
          _ ∨ Counterpart r.players s.players (r.placed s) v w)
        simp only [decide_eq_true_eq]
        grind
      · cases hu
    | isa _ | value _ | identity _ | substitution _ => cases hu
  | value _ | identity _ | substitution _ => cases hq

/-! ## Correspondence -/

/-- The players of `q` are placed among those of `h` so that every user-defined variable of `q`, an
anchor, a type or a player, is related to the variable of `h` at its place. -/
structure Corresponds (R : Var → Var → Prop) (q h : Atom) : Prop where
  anchor : q.var.userDefined = true → q.var.isEmpty = false → R q.var h.var
  type : ∀ v, q.typeVar? = some v → v.userDefined = true → ∃ w, h.typeVar? = some w ∧ R v w
  players : ∃ js, Placement q.players h.players js ∧
    ∀ v w, Counterpart q.players h.players js v w → v.userDefined = true → R v w

/-- Every user-defined variable of `q` faces one variable of `h` only; a user-defined anchor does not
face another name that is not user-defined, and a user-defined type faces a type. -/
structure Clear (q h : Atom) : Prop where
  anchor : q.var.userDefined = true → q.var.isEmpty = false →
    h.var.userDefined = true ∨ q.var = h.var
  type : ∀ v, q.typeVar? = some v → v.userDefined = true → ∃ w, h.typeVar? = some w
  single : ∀ v w w', v.userDefined = true → Faces q h v w → Faces q h v w' → w = w'

theorem mem_vars_of_player {q : Atom} {i : Nat} {r : Role} {v : Var}
    (h : q.players[i]? = some (r, v)) : v ∈ q.vars := by
  cases q with
  | relation s =>
    have hmem : (r, v) ∈ s.players := List.mem_of_getElem? h
    exact SortedSet.mem_ofList.mpr (List.mem_append_right _ (List.mem_map.mpr ⟨_, hmem, rfl⟩))
  | isa _ | value _ | identity _ | substitution _ => cases h

theorem mem_vars_of_anchor {q : Atom} (h : q.var.isEmpty = false) : q.var ∈ q.vars := by
  have h : (!q.var.isEmpty) = true := by rw [h]; rfl
  cases q with
  | isa a => exact SortedSet.mem_ofList.mpr (List.mem_filter.mpr ⟨.head _, h⟩)
  | relation r =>
    exact SortedSet.mem_ofList.mpr (List.mem_append_left _ (List.mem_filter.mpr ⟨.head _, h⟩))
  | value _ | identity _ | substitution _ => exact SortedSet.mem_ofList.mpr (.head _)

theorem mem_vars_of_type {q : Atom} {v : Var} (h : q.typeVar? = some v) : v ∈ q.vars := by
  cases q with
  | isa a =>
    obtain ⟨rfl, hv⟩ := (typeVar?_eq_some rfl).mp h
    have hv : (!a.typeVar.isEmpty) = true := by rw [hv]; rfl
    exact SortedSet.mem_ofList.mpr (List.mem_filter.mpr ⟨.tail _ (.head _), hv⟩)
  | relation r =>
    obtain ⟨rfl, hv⟩ := (typeVar?_eq_some rfl).mp h
    have hv : (!r.anchor.typeVar.isEmpty) = true := by rw [hv]; rfl
    exact SortedSet.mem_ofList.mpr
      (List.mem_append_left _ (List.mem_filter.mpr ⟨.tail _ (.head _), hv⟩))
  | value _ | identity _ | substitution _ => cases h

/-- A relation between variables may be replaced by one that it implies on the variables of `q`. -/
theorem Corresponds.mono {R S : Var → Var → Prop} {q h : Atom} (hc : Corresponds R q h)
    (hRS : ∀ v w, v ∈ q.vars → v.userDefined = true → R v w → S v w) : Corresponds S q h := by
  refine ⟨fun hu he => ?_, fun v hv hu => ?_, ?_⟩
  · exact hRS _ _ (mem_vars_of_anchor he) hu (hc.anchor hu he)
  · obtain ⟨w, hw, hR⟩ := hc.type v hv hu
    exact ⟨w, hw, hRS v w (mem_vars_of_type hv) hu hR⟩
  · obtain ⟨js, hjs, hR⟩ := hc.players
    refine ⟨js, hjs, fun v w hvw hu => ?_⟩
    obtain ⟨i, j, r, r', hi, -⟩ := id hvw
    exact hRS v w (mem_vars_of_player hi) hu (hR v w hvw hu)

/-- Between clear atoms the unifier carries every user-defined variable to the one it faces. -/
theorem Clear.corresponds {q h : Atom} {u : Unifier} (hc : Clear q h) (hq : q.isPredicate = false)
    (hu : q.unifier h = .ok u) : Corresponds (fun v w => u.apply v = w) q h := by
  obtain ⟨hplace, hget⟩ := get?_unifier hq hu
  have hfaces {v w : Var} (hv : u.get? v = some w) : Faces q h v w := by
    rcases ((hget v w).mp hv).2 with ⟨rfl, rfl, -⟩ | ⟨hv, hw⟩ | hvw
    · exact .anchor
    · exact .type hv hw
    · exact .player hvw
  -- a variable without a target stays as it is, and so must face itself
  have happly {v w : Var} (hv : v.userDefined = true) (hvw : Faces q h v w)
      (hpair : v ≠ w → u.get? v = some w) : u.apply v = w := by
    cases hx : u.get? v with
    | some x => rw [Unifier.apply_of_get? hx, hc.single v x w hv (hfaces hx) hvw]
    | none =>
      rw [Unifier.apply_of_get?_eq_none hx]
      by_contra hne
      rw [hpair hne] at hx
      cases hx
  refine ⟨fun hv he => happly hv .anchor fun hne => ?_, fun v hv hu => ?_, q.placed h, hplace,
    fun v w hvw hv => happly hv (.player hvw) fun hne => (hget v w).mpr ⟨hne, .inr (.inr hvw)⟩⟩
  · exact (hget _ _).mpr ⟨hne, .inl ⟨rfl, rfl, (hc.anchor hv he).resolve_right hne⟩⟩
  · obtain ⟨w, hw⟩ := hc.type v hv hu
    exact ⟨w, hw, happly hu (.type hv hw) fun hne => (hget v w).mpr ⟨hne, .inr (.inl ⟨hv, hw⟩)⟩⟩

end Atom

end GraphInference
