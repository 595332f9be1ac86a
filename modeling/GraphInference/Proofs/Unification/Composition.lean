import GraphInference.Proofs.Unification.Inverse

/-!
# Compositions of unifiers

A unifier is built if the operations on unifiers make it from pairs of variables. Every built unifier has
one target for each source (`Built.nodup_sources`): what adds a pair checks the source first, turning
around checks the targets, and a composition takes from the second unifier no source of the first. So a
composition finds for a variable what the second unifier makes of its target in the first
(`get?_compose`), and applying it is applying one after the other (`compose_is_composition`).
-/

namespace GraphInference.Unifier

variable {u v w : Unifier} {x y : Var}

/-- The operations on unifiers make the unifier. -/
inductive Built : Unifier → Prop
  | new : Built {}
  | ofPairs {pairs : List (Var × Var)} {u : Unifier} (h : Unifier.ofPairs pairs = .ok u) : Built u
  | add {u w : Unifier} {source target : Var} (hu : Built u) (h : u.add source target = .ok w) : Built w
  | merge {u v w : Unifier} (hu : Built u) (hv : Built v) (h : u.merge v = .ok w) : Built w
  | compose {u v : Unifier} (hu : Built u) (hv : Built v) : Built (u.compose v)
  | inverse {u w : Unifier} (hu : Built u) (h : u.inverse = .ok w) : Built w
  | restrict {u : Unifier} (hu : Built u) (vars : SortedSet Var) : Built (u.restrict vars)

/-! ## Sources -/

theorem contains_eq_false_iff : u.contains x = false ↔ u.get? x = none := by
  rw [contains, Option.isSome_eq_false_iff, Option.isNone_iff_eq_none]

theorem get?_eq_none_iff : u.get? x = none ↔ x ∉ u.sources := by
  rw [get?, Option.map_eq_none_iff, List.find?_eq_none, sources, List.mem_map]
  simp only [decide_eq_true_eq]
  constructor
  · rintro h ⟨p, hp, hx⟩
    exact h p hp hx
  · exact fun h p hp hx => h ⟨p, hp, hx⟩

theorem nodup_sources_compose (hu : u.sources.Nodup) (hv : v.sources.Nodup) :
    (u.compose v).sources.Nodup := by
  have hleft : (u.pairs.map fun p => (p.1, v.apply p.2)).map Prod.fst = u.sources := by
    simp [sources]
  have hall : (((u.pairs.map fun p => (p.1, v.apply p.2)) ++
      v.pairs.filter fun p => !u.contains p.1).map Prod.fst).Nodup := by
    rw [List.map_append, hleft, List.nodup_append]
    refine ⟨hu, hv.sublist (List.filter_sublist.map _), fun a ha b hb => ?_⟩
    obtain ⟨p, hp, rfl⟩ := List.mem_map.mp hb
    have hnot : u.contains p.1 = false := by simpa using (List.mem_filter.mp hp).2
    rintro rfl
    exact get?_eq_none_iff.mp (contains_eq_false_iff.mp hnot) ha
  exact hall.sublist (List.filter_sublist.map _)

theorem nodup_sources_of_invertOnto {done : Unifier} {pairs : List (Var × Var)}
    (h : invertOnto done pairs = .ok w) (hdone : done.sources.Nodup) : w.sources.Nodup := by
  induction pairs generalizing done with
  | nil =>
    obtain rfl := Except.ok.inj h
    exact hdone
  | cons p pairs ih =>
    obtain ⟨source, target⟩ := p
    rw [invertOnto] at h
    split at h
    · cases h
    · next hnot =>
      refine ih h ?_
      have hnew : target ∉ done.sources :=
        get?_eq_none_iff.mp (contains_eq_false_iff.mp (Bool.eq_false_iff.mpr hnot))
      show (List.map Prod.fst (done.pairs ++ [(target, source)])).Nodup
      rw [List.map_append]
      exact List.concat_eq_append ▸ hdone.concat hnew

/-- However it was built, a unifier has one target for each source. -/
theorem Built.nodup_sources (hu : u.Built) : u.sources.Nodup := by
  induction hu with
  | new => exact .nil
  | ofPairs h => exact nodup_sources_of_addAll h .nil
  | add _ h ih => exact nodup_sources_of_add h ih
  | merge _ _ h ih => exact nodup_sources_of_addAll h ih
  | compose _ _ ihu ihv => exact nodup_sources_compose ihu ihv
  | inverse _ h => exact nodup_sources_of_invertOnto h .nil
  | restrict _ vars ih => exact ih.sublist (List.filter_sublist.map _)

/-! ## Application -/

theorem mem_pairs_compose : (x, y) ∈ (u.compose v).pairs ↔
    x ≠ y ∧ ((∃ z, (x, z) ∈ u.pairs ∧ v.apply z = y) ∨ u.get? x = none ∧ (x, y) ∈ v.pairs) := by
  simp only [compose, List.mem_filter, List.mem_append, List.mem_map, Prod.mk.injEq, Prod.exists,
    Bool.not_eq_true', contains_eq_false_iff, decide_eq_true_eq]
  rw [and_comm]
  refine and_congr_right fun _ => or_congr ?_ and_comm
  constructor
  · rintro ⟨x, z, hz, rfl, rfl⟩
    exact ⟨z, hz, rfl⟩
  · rintro ⟨z, hz, rfl⟩
    exact ⟨x, z, hz, rfl, rfl⟩

/-- A composition finds what the second unifier makes of the target in the first, unless this is the
variable itself. -/
theorem get?_compose (hu : u.sources.Nodup) (hv : v.sources.Nodup) :
    (u.compose v).get? x = (((u.get? x).map v.apply).or (v.get? x)).filter (x ≠ ·) := by
  refine Option.ext fun y => ?_
  rw [get?_eq_some_iff (nodup_sources_compose hu hv), mem_pairs_compose, Option.filter_eq_some_iff,
    and_comm, decide_eq_true_eq, ← get?_eq_some_iff hv]
  refine and_congr_left fun _ => ?_
  simp only [← get?_eq_some_iff hu]
  cases hx : u.get? x <;> simp

theorem apply_compose (hu : u.sources.Nodup) (hv : v.sources.Nodup) (x : Var) :
    (u.compose v).apply x = v.apply (u.apply x) := by
  have hkept (t : Var) : ((some t).filter (x ≠ ·)).getD x = t := by
    by_cases hx : x = t <;> simp [Option.filter, hx]
  rw [apply, get?_compose hu hv]
  cases hx : u.get? x with
  | some y => rw [Option.map_some, Option.some_or, hkept, apply_of_get? hx]
  | none =>
    rw [Option.map_none, Option.none_or, apply_of_get?_eq_none hx, apply]
    cases v.get? x with
    | some y => exact hkept y
    | none => rfl

/-- Composition is composition of the renamings, and it is associative; a built unifier has one target for
each source, a composition of built ones among them. -/
theorem compose_is_composition (hu : u.Built) (hv : v.Built) (hw : w.Built) :
    (∀ x, (u.compose v).apply x = v.apply (u.apply x)) ∧
      (∀ x, ((u.compose v).compose w).apply x = (u.compose (v.compose w)).apply x) ∧
      u.sources.Nodup ∧ (u.compose v).Built ∧ (u.compose v).sources.Nodup := by
  have huv : (u.compose v).Built := .compose hu hv
  have hvw : (v.compose w).Built := .compose hv hw
  refine ⟨apply_compose hu.nodup_sources hv.nodup_sources, fun x => ?_, hu.nodup_sources, huv,
    huv.nodup_sources⟩
  calc ((u.compose v).compose w).apply x
      = w.apply (v.apply (u.apply x)) := by
        rw [apply_compose huv.nodup_sources hw.nodup_sources,
          apply_compose hu.nodup_sources hv.nodup_sources]
    _ = (u.compose (v.compose w)).apply x := by
        rw [apply_compose hu.nodup_sources hvw.nodup_sources,
          apply_compose hv.nodup_sources hw.nodup_sources]

/-! ## Cycles -/

namespace Cycle

/-- A unifier of pairs of names. -/
def named (pairs : List (String × String)) : Unifier :=
  ⟨pairs.map fun p => (.named p.1, .named p.2)⟩

/-- Two variables that change places. -/
def swap : Unifier :=
  named [("x", "y"), ("y", "x")]

/-- A chain, and a variable that is mapped to itself. -/
def chain : Unifier :=
  named [("x", "z"), ("y", "x"), ("w", "w")]

/-- The chain turned around. -/
def back : Unifier :=
  named [("z", "x"), ("x", "y"), ("w", "w")]

/-- A swap, a chain and the way back along the chain, one after the other. -/
theorem compose_is_composition_cycle : (swap.Built ∧ chain.Built ∧ back.Built) ∧
    (∀ v, (swap.compose chain).apply v = chain.apply (swap.apply v)) ∧
      (∀ v, ((swap.compose chain).compose back).apply v = (swap.compose (chain.compose back)).apply v) ∧
      swap.sources.Nodup ∧ (swap.compose chain).Built ∧ (swap.compose chain).sources.Nodup := by
  have hswap : swap.Built := @Built.ofPairs swap.pairs _ rfl
  have hchain : chain.Built := @Built.ofPairs chain.pairs _ rfl
  have hback : back.Built := hchain.inverse rfl
  exact ⟨⟨hswap, hchain, hback⟩, compose_is_composition hswap hchain hback⟩

/-- What comes back to itself has no pair in the composition. -/
example : swap.compose chain = named [("y", "z")] := by decide +kernel

end Cycle

end GraphInference.Unifier
