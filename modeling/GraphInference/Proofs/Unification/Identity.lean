import GraphInference.Proofs.Unification.Alignment

/-!
# Unifying an atom with itself

A player is aligned with the first free place, so in an alignment of a relation with itself every player
is aligned with itself: those of stated roles first, then the others. Hence the unifier of a central atom
with itself leaves every variable alone (`Atom.unifier_self`).
-/

namespace GraphInference

namespace RelationAtom

variable {taken : List Nat}

/-- The place after others that are taken or refused is given if it is free and accepted. -/
theorem freePlace?_eq_of_first {accepts : Role → Bool} {i : Nat} {pre post : List (Role × Var)}
    {p : Role × Var} (hpre : ∀ j d, pre[j]? = some d → i + j ∈ taken ∨ accepts d.1 = false)
    (hfree : i + pre.length ∉ taken) (hacc : accepts p.1 = true) :
    freePlace? taken accepts i (pre ++ p :: post) = some (i + pre.length) := by
  induction pre generalizing i with
  | nil => exact if_pos ⟨hfree, hacc⟩
  | cons d pre ih =>
    have hskip : ¬ (i ∉ taken ∧ accepts d.1 = true) := by
      rintro ⟨hi, hd⟩
      rcases hpre 0 d rfl with h | h
      · exact hi h
      · rw [hd] at h
        cases h
    have hnext : i + 1 + pre.length = i + (d :: pre).length := by
      rw [List.length_cons]
      omega
    have hrest : freePlace? taken accepts (i + 1) (pre ++ p :: post) = some (i + 1 + pre.length) := by
      refine ih (fun j d hj => ?_) (hnext ▸ hfree)
      rw [Nat.add_assoc, Nat.add_comm 1 j]
      exact hpre (j + 1) d hj
    rw [← hnext, ← hrest]
    exact if_neg hskip

theorem freePlace?_exactMatch_unstated {i : Nat} {ps : List (Role × Var)} :
    freePlace? taken (exactMatch .unstated) i ps = none := by
  induction ps generalizing i with
  | nil => rfl
  | cons p ps ih => exact (if_neg fun h => by simp [exactMatch] at h).trans ih

/-- In the first round the players of stated roles get their own places. -/
theorem assign_exactMatch_self {pre suf : List (Role × Var)}
    (htaken : ∀ j p, (pre ++ suf)[j]? = some p → (j ∈ taken ↔ j < pre.length ∧ p.1 ≠ .unstated)) :
    assign (pre ++ suf) exactMatch taken (suf.map fun p => (p.1, none)) =
      (suf.zipIdx pre.length).map fun e => if e.1.1 = .unstated then none else some e.2 := by
  induction suf generalizing pre taken with
  | nil => rfl
  | cons p suf ih =>
    have hnext : pre ++ p :: suf = (pre ++ [p]) ++ suf := by simp
    have hlength : (pre ++ [p]).length = pre.length + 1 := by simp
    have hself : (pre ++ p :: suf)[pre.length]? = some p := by simp
    rw [List.map_cons, List.zipIdx_cons, List.map_cons, assign]
    by_cases hp : p.1 = .unstated
    · rw [hp, freePlace?_exactMatch_unstated, if_pos rfl, hnext, ih, hlength]
      intro j d hj
      rw [← hnext] at hj
      rw [htaken j d hj, hlength]
      refine and_congr_left fun hd => ⟨fun hlt => by omega, fun hlt => ?_⟩
      rcases Nat.lt_succ_iff_lt_or_eq.mp hlt with hlt | rfl
      · exact hlt
      · rw [hself] at hj
        exact absurd (Option.some.inj hj ▸ hp) hd
    · have hfirst : freePlace? taken (exactMatch p.1) 0 (pre ++ p :: suf) = some (0 + pre.length) := by
        refine freePlace?_eq_of_first (fun j d hj => ?_) ?_ (by simp [exactMatch, hp])
        · by_cases hd : d.1 = p.1
          · have hlt : j < pre.length := (List.getElem?_eq_some_iff.mp hj).1
            have hmem : (pre ++ p :: suf)[j]? = some d := by rw [List.getElem?_append_left hlt, hj]
            rw [Nat.zero_add]
            exact .inl ((htaken j d hmem).mpr ⟨hlt, hd ▸ hp⟩)
          · exact .inr (by simp [exactMatch, hd])
        · rw [Nat.zero_add, htaken _ p hself]
          exact fun h => Nat.lt_irrefl _ h.1
      rw [hfirst, if_neg hp]
      dsimp only
      rw [Nat.zero_add, hnext, ih, hlength]
      intro j d hj
      rw [← hnext] at hj
      rw [List.mem_cons, htaken j d hj, hlength]
      constructor
      · rintro (rfl | ⟨hlt, hd⟩)
        · rw [hself] at hj
          exact ⟨Nat.lt_succ_self _, Option.some.inj hj ▸ hp⟩
        · exact ⟨by omega, hd⟩
      · rintro ⟨hlt, hd⟩
        exact (Nat.lt_succ_iff_lt_or_eq.mp hlt).symm.imp_right fun hlt => ⟨hlt, hd⟩

/-- In the second round the other players get theirs. -/
theorem assign_looseMatch_self {pre suf : List (Role × Var)}
    (htaken : ∀ j p, (pre ++ suf)[j]? = some p → (j ∈ taken ↔ j < pre.length ∨ p.1 ≠ .unstated)) :
    assign (pre ++ suf) looseMatch taken ((suf.zipIdx pre.length).map fun e =>
      (e.1.1, if e.1.1 = .unstated then none else some e.2)) =
        (suf.zipIdx pre.length).map fun e => some e.2 := by
  induction suf generalizing pre taken with
  | nil => rfl
  | cons p suf ih =>
    have hnext : pre ++ p :: suf = (pre ++ [p]) ++ suf := by simp
    have hlength : (pre ++ [p]).length = pre.length + 1 := by simp
    have hself : (pre ++ p :: suf)[pre.length]? = some p := by simp
    rw [List.zipIdx_cons, List.map_cons, List.map_cons]
    by_cases hp : p.1 = .unstated
    · have hfirst : freePlace? taken (looseMatch p.1) 0 (pre ++ p :: suf) = some (0 + pre.length) := by
        refine freePlace?_eq_of_first (fun j d hj => .inl ?_) ?_ (by simp [looseMatch, hp])
        · have hlt : j < pre.length := (List.getElem?_eq_some_iff.mp hj).1
          rw [Nat.zero_add, htaken j d (by rw [List.getElem?_append_left hlt, hj])]
          exact .inl hlt
        · rw [Nat.zero_add, htaken _ p hself]
          exact fun h => h.elim (Nat.lt_irrefl _) (absurd hp)
      rw [if_pos hp, assign, hfirst]
      dsimp only
      rw [Nat.zero_add, hnext, ← hlength, ih]
      intro j d hj
      rw [← hnext] at hj
      rw [List.mem_cons, htaken j d hj, hlength, Nat.lt_succ_iff_lt_or_eq, ← or_assoc,
        or_comm (a := j = pre.length)]
    · rw [if_neg hp, assign, hnext, ← hlength, ih]
      intro j d hj
      rw [← hnext] at hj
      rw [htaken j d hj, hlength, Nat.lt_succ_iff_lt_or_eq]
      constructor
      · exact Or.imp_left .inl
      · rintro ((hlt | rfl) | hd)
        · exact .inl hlt
        · rw [hself] at hj
          exact .inr (Option.some.inj hj ▸ hp)
        · exact .inr hd

theorem places_self (r : RelationAtom) : r.places r = r.players.zipIdx.map fun e => some e.2 := by
  have hexact : assign r.players exactMatch [] (r.players.map fun p => (p.1, none)) =
      r.players.zipIdx.map fun e => if e.1.1 = .unstated then none else some e.2 :=
    @assign_exactMatch_self [] [] r.players fun j p _ =>
      iff_of_false List.not_mem_nil fun h => Nat.not_lt_zero j h.1
  have hroles : r.players.map (·.1) = r.players.zipIdx.map fun e => e.1.1 := by
    have hfst := congrArg (List.map Prod.fst) (List.zipIdx_map_fst 0 r.players)
    rw [List.map_map] at hfst
    exact hfst.symm
  have hplaces : r.places r = assign r.players looseMatch
      ((r.players.zipIdx.map fun e => if e.1.1 = .unstated then none else some e.2).filterMap id)
      (r.players.zipIdx.map fun e => (e.1.1, if e.1.1 = .unstated then none else some e.2)) := by
    unfold places
    dsimp only
    rw [List.map_map]
    have hexact : assign r.players exactMatch [] (r.players.map ((fun x => (x, none)) ∘ fun x => x.1)) =
      r.players.zipIdx.map fun e => if e.1.1 = .unstated then none else some e.2 := hexact
    rw [hexact, hroles, List.zip_map']
  rw [hplaces]
  refine @assign_looseMatch_self _ [] r.players fun j p hj => ?_
  have hnone : ¬ j < ([] : List (Role × Var)).length := Nat.not_lt_zero j
  rw [List.nil_append] at hj
  rw [or_iff_right hnone, List.mem_filterMap]
  constructor
  · rintro ⟨o, ho, rfl⟩
    obtain ⟨⟨d, i⟩, he, hsome⟩ := List.mem_map.mp ho
    split at hsome
    · cases hsome
    · next hd =>
      obtain rfl := Option.some.inj hsome
      obtain rfl := Option.some.inj ((List.mem_zipIdx_iff_getElem?.mp he).symm.trans hj)
      exact hd
  · intro hp
    exact ⟨some j, List.mem_map.mpr ⟨(p, j), List.mem_zipIdx_iff_getElem?.mpr hj, if_neg hp⟩, rfl⟩

/-- Every player is aligned with itself. -/
theorem align_self (r : RelationAtom) : ∃ pairs, r.align r = .ok pairs ∧ ∀ p ∈ pairs, p.1 = p.2 := by
  have hzip {e : (Role × Var) × Option Nat} (he : e ∈ r.players.zip (r.places r)) :
      e.2.bind (r.players[·]?) = some e.1 := by
    obtain ⟨i, hi⟩ := List.getElem?_of_mem he
    obtain ⟨hp, hplace⟩ := List.getElem?_zip_eq_some.mp hi
    rw [places_self, List.getElem?_map, Option.map_eq_some_iff] at hplace
    obtain ⟨⟨d, j⟩, hj, hsome⟩ := hplace
    rw [List.getElem?_zipIdx, hp, Option.map_some, Option.some.injEq, Prod.mk.injEq, Nat.zero_add] at hj
    rw [← hsome, ← hj.2, Option.bind_some, hp]
  obtain ⟨pairs, hpairs⟩ : ∃ pairs, r.align r = .ok pairs :=
    Except.exists_mapM fun ((role, v), o) he => ⟨(v, v), by dsimp only; rw [hzip he]⟩
  refine ⟨pairs, hpairs, fun p hp => ?_⟩
  obtain ⟨⟨⟨role, v⟩, o⟩, he, heq⟩ := exists_of_forall₂_of_mem (Except.mapM_eq_ok hpairs).flip hp
  dsimp only at heq
  rw [hzip he] at heq
  obtain rfl := Except.ok.inj heq
  rfl

end RelationAtom

theorem Anchor.unifier_self (a : Anchor) : a.unifier a = .ok {} := by
  unfold unifier
  rw [if_neg fun h => h.2 rfl]
  exact if_pos (.inr (.inr rfl))

theorem RelationAtom.unifier_self (r : RelationAtom) : r.unifier r = .ok {} := by
  obtain ⟨pairs, hpairs, heq⟩ := r.align_self
  have hfilter : (pairs.filter fun p => p.1 ≠ p.2) = [] :=
    List.filter_eq_nil_iff.mpr fun p hp => by simp [heq p hp]
  unfold unifier
  rw [Anchor.unifier_self, hpairs]
  dsimp only [Bind.bind, Except.bind]
  rw [hfilter]
  rfl

/-- The unifier of a central atom with itself renames nothing. -/
theorem Atom.unifier_self {a : Atom} (ha : a.isPredicate = false) : a.unifier a = .ok {} := by
  cases a with
  | isa c => exact c.unifier_self
  | relation r => exact r.unifier_self
  | _ => cases ha

end GraphInference
