import GraphInference.Proofs.Outcome
import GraphInference.Unifier

/-!
# What unifiers find

A unifier that was built by adding pairs has the pairs it was built from and no others.
-/

namespace GraphInference.Unifier

theorem get?_append_of_none {u : Unifier} {s t v : Var} (hs : u.get? s = none) :
    get? ⟨u.pairs ++ [(s, t)]⟩ v = if v = s then some t else u.get? v := by
  rw [get?, List.find?_append]
  by_cases hv : v = s
  · subst hv
    rw [get?, Option.map_eq_none_iff] at hs
    simp [hs]
  · have hne : ¬ s = v := fun e => hv e.symm
    simp [hv, hne, get?]

/-- Adding a pair gives its source its target and changes nothing else. -/
theorem get?_of_add {u w : Unifier} {s t : Var} (h : u.add s t = .ok w) (v : Var) :
    w.get? v = if v = s then some t else u.get? v := by
  rw [add] at h
  split at h
  · next hs =>
    obtain rfl := Except.ok.inj h
    exact get?_append_of_none hs
  · next old hs =>
    split at h
    · next hold =>
      obtain rfl := Except.ok.inj h
      subst hold
      split
      · next hv => rw [hv, hs]
      · rfl
    · cases h

/-- A pair is added only to a unifier that has no other target for its source. -/
theorem get?_source_of_add {u w : Unifier} {s t : Var} (h : u.add s t = .ok w) :
    u.get? s = none ∨ u.get? s = some t := by
  rw [add] at h
  split at h
  · next hs => exact .inl hs
  · next old hs =>
    split at h
    · next hold => exact .inr (hold ▸ hs)
    · cases h

theorem get?_eq_some_of_add {u w : Unifier} {s t : Var} (h : u.add s t = .ok w) {v x : Var} :
    w.get? v = some x ↔ u.get? v = some x ∨ v = s ∧ x = t := by
  rw [get?_of_add h]
  by_cases hv : v = s
  · subst hv
    rw [if_pos rfl, Option.some.injEq]
    rcases get?_source_of_add h with hs | hs
    · simp [hs, eq_comm]
    · simp only [hs, Option.some.injEq, true_and]
      tauto
  · simp [hv]

/-- Adding pairs in turn adds all of them and nothing else. -/
theorem get?_eq_some_of_addAll {u w : Unifier} {pairs : List (Var × Var)}
    (h : u.addAll pairs = .ok w) {v x : Var} :
    w.get? v = some x ↔ u.get? v = some x ∨ (v, x) ∈ pairs := by
  induction pairs generalizing u with
  | nil =>
    obtain rfl := Except.ok.inj h
    simp
  | cons p pairs ih =>
    obtain ⟨u', hu', h⟩ := Except.bind_eq_ok.mp h
    rw [ih h, get?_eq_some_of_add hu', List.mem_cons, or_assoc, Prod.mk.injEq]

theorem apply_of_get? {u : Unifier} {v x : Var} (h : u.get? v = some x) : u.apply v = x := by
  rw [apply, h]
  rfl

theorem apply_of_get?_eq_none {u : Unifier} {v : Var} (h : u.get? v = none) : u.apply v = v := by
  rw [apply, h]
  rfl

end GraphInference.Unifier
