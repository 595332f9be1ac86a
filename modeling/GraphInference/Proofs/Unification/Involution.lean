import GraphInference.Proofs.Answer.Keeping
import GraphInference.Proofs.Unification.Composition

/-!
# Unifiers turned around

A unifier has an inverse exactly if no two of its variables have the same target, and the inverse has its pairs
turned around in the same order (`Unifier.inverse_eq_ok_iff`). Turning around twice thus gives the unifier back, and
either one undoes the other on its sources, however sources and targets overlap (`inverse_undoes`). A binding of
sources keeps all its variables, since a map can only lose variables that become one and those would not come back.
-/

namespace GraphInference

namespace SortedMap

variable {α β : Type} [Ord α]

theorem length_insertEntry_le (k : α) (v : β) (l : List (α × β)) :
    (insertEntry k v l).length ≤ l.length + 1 := by
  induction l with
  | nil => rfl
  | cons e l ih =>
    rw [insertEntry]
    split
    · rfl
    · exact Nat.le_succ _
    · exact Nat.succ_le_succ ih

theorem size_ofList_le [Std.TransOrd α] (l : List (α × β)) : (ofList l).size ≤ l.length := by
  induction l using List.reverseRecOn with
  | nil => exact Nat.le_refl 0
  | append_singleton l e ih =>
    rw [ofList, List.foldl_append, List.length_append]
    exact (length_insertEntry_le e.1 e.2 _).trans (Nat.succ_le_succ ih)

end SortedMap

theorem Binding.size_relabel_le (ρ : Var → Var) (b : Binding) : (b.relabel ρ).size ≤ b.size :=
  (SortedMap.size_ofList_le _).trans_eq (List.length_map _)

namespace Unifier

variable {u w : Unifier} {x y : Var}

theorem pairs_of_invertOnto {done : Unifier} {pairs : List (Var × Var)} (h : invertOnto done pairs = .ok w) :
    w.pairs = done.pairs ++ pairs.map Prod.swap := by
  induction pairs generalizing done with
  | nil =>
    obtain rfl := Except.ok.inj h
    exact (List.append_nil _).symm
  | cons p pairs ih =>
    rw [invertOnto] at h
    split at h
    · cases h
    · rw [ih h, List.append_assoc]
      rfl

/-- The inverse has every pair turned around, and there is one if the targets are different. -/
theorem inverse_eq_ok_iff : u.inverse = .ok w ↔ u.targets.Nodup ∧ w.pairs = u.pairs.map Prod.swap := by
  constructor
  · intro h
    have hpairs : w.pairs = u.pairs.map Prod.swap := pairs_of_invertOnto h
    have hsources : w.sources = u.targets := by
      rw [sources, hpairs, List.map_map]
      rfl
    exact ⟨hsources ▸ nodup_sources_of_invertOnto h .nil, hpairs⟩
  · rintro ⟨hnodup, hpairs⟩
    rw [inverse_eq_ok hnodup, ← hpairs]

theorem nodup_targets_iff (hu : u.sources.Nodup) :
    u.targets.Nodup ↔ ∀ x y z, u.get? x = some z → u.get? y = some z → x = y := by
  simp only [get?_eq_some_iff hu]
  rw [targets, List.nodup_map_iff_inj_on (hu.of_map _)]
  constructor
  · exact fun h x y z hx hy => congrArg Prod.fst (h _ hx _ hy rfl)
  · rintro h ⟨x, z⟩ hx ⟨y, _⟩ hy rfl
    rw [h x y z hx hy]

/-! ## There and back -/

section Inverse

variable (h : u.inverse = .ok w)

include h

theorem sources_of_inverse : w.sources = u.targets := by
  rw [sources, (inverse_eq_ok_iff.mp h).2, List.map_map]
  rfl

theorem inverse_of_inverse (hu : u.sources.Nodup) : w.inverse = .ok u := by
  obtain ⟨-, hpairs⟩ := inverse_eq_ok_iff.mp h
  refine inverse_eq_ok_iff.mpr ⟨?_, ?_⟩
  · rw [targets, hpairs, List.map_map]
    exact hu
  · rw [hpairs, List.map_map, Prod.swap_swap_eq, List.map_id]

/-- The inverse takes every source back from its target. -/
theorem apply_apply_of_inverse (hu : u.sources.Nodup) (hx : x ∈ u.sources) : w.apply (u.apply x) = x := by
  obtain ⟨p, hp, rfl⟩ := List.mem_map.mp hx
  have hback : (p.2, p.1) ∈ w.pairs := by
    rw [(inverse_eq_ok_iff.mp h).2]
    exact List.mem_map_of_mem hp
  have hw : w.sources.Nodup := sources_of_inverse h ▸ (inverse_eq_ok_iff.mp h).1
  rw [apply_of_get? ((get?_eq_some_iff hu).mpr hp), apply_of_get? ((get?_eq_some_iff hw).mpr hback)]

/-- A binding of sources comes back as it was, and none of its variables is lost on the way. -/
theorem relabel_relabel_of_inverse (hu : u.sources.Nodup) {b : Binding} (hb : ∀ x ∈ b.keys, x ∈ u.sources) :
    (b.relabel u.apply).relabel w.apply = b ∧ (b.relabel u.apply).size = b.size := by
  have hback : (b.relabel u.apply).relabel w.apply = b :=
    Binding.relabel_relabel fun x hx => apply_apply_of_inverse h hu (hb x (SortedMap.mem_keys_iff.mpr hx))
  refine ⟨hback, (Binding.size_relabel_le _ b).antisymm ?_⟩
  calc b.size = ((b.relabel u.apply).relabel w.apply).size := by rw [hback]
    _ ≤ (b.relabel u.apply).size := Binding.size_relabel_le _ _

end Inverse

/-- A built unifier has an inverse exactly if no two of its variables have the same target. The inverse of the
inverse is the unifier; each of them takes the sources of the other back; and an answer that binds sources only is
the same after it was renamed there and back, with as many variables in between. -/
theorem inverse_undoes (hu : u.Built) :
    ((∃ w, u.inverse = .ok w) ↔ ∀ x y z, u.get? x = some z → u.get? y = some z → x = y) ∧
    ∀ w, u.inverse = .ok w → w.inverse = .ok u ∧ (∀ x ∈ u.sources, w.apply (u.apply x) = x) ∧
      (∀ y ∈ u.targets, u.apply (w.apply y) = y) ∧
      ∀ a : Answer, (∀ x ∈ a.binding.keys, x ∈ u.sources) →
        (a.rename u).rename w = a ∧ (a.rename u).binding.size = a.binding.size := by
  have hsources := hu.nodup_sources
  refine ⟨?_, fun w hw => ⟨inverse_of_inverse hw hsources, fun x => apply_apply_of_inverse hw hsources,
    fun y hy => ?_, fun a ha => ?_⟩⟩
  · rw [← nodup_targets_iff hsources]
    exact ⟨fun ⟨w, hw⟩ => (inverse_eq_ok_iff.mp hw).1, fun hnodup => ⟨_, inverse_eq_ok hnodup⟩⟩
  · rw [← sources_of_inverse hw] at hy
    exact apply_apply_of_inverse (inverse_of_inverse hw hsources) (hu.inverse hw).nodup_sources hy
  · obtain ⟨hback, hsize⟩ := relabel_relabel_of_inverse hw hsources ha
    refine ⟨?_, hsize⟩
    cases a with
    | mk id b e es =>
      show Answer.mk id ((b.relabel u.apply).relabel w.apply) e es = _
      exact congrArg (Answer.mk id · e es) hback

/-! ## Chains -/

namespace Chain

/-- Each variable takes the place of the next one, and another one is mapped to itself. -/
def forward : Unifier :=
  Cycle.named [("x", "y"), ("y", "z"), ("w", "w")]

def backward : Unifier :=
  Cycle.named [("y", "x"), ("z", "y"), ("w", "w")]

/-- Two variables of the chain. -/
def bound : Answer :=
  .mk ⟨1⟩ (.ofList [(.named "x", ⟨"V1"⟩), (.named "y", ⟨"V2"⟩)]) .empty [.lookup default]

/-- Along the chain and back, though the second variable is a source and a target. -/
theorem inverse_undoes_chain : forward.Built ∧ forward.inverse = .ok backward ∧
    (∀ x y z, forward.get? x = some z → forward.get? y = some z → x = y) ∧ backward.inverse = .ok forward ∧
    backward.apply (forward.apply (.named "y")) = .named "y" ∧
    forward.apply (backward.apply (.named "y")) = .named "y" ∧
    (bound.rename forward).rename backward = bound ∧
    (bound.rename forward).binding.size = bound.binding.size := by
  have hbuilt : forward.Built := @Built.ofPairs forward.pairs _ rfl
  have hinverse : forward.inverse = .ok backward := rfl
  obtain ⟨hdifferent, hundone⟩ := inverse_undoes hbuilt
  obtain ⟨hback, hsources, htargets, hanswers⟩ := hundone backward hinverse
  exact ⟨hbuilt, hinverse, hdifferent.mp ⟨_, hinverse⟩, hback, hsources _ (by decide +kernel),
    htargets _ (by decide +kernel), hanswers bound (by decide +kernel)⟩

/-- Two variables of one target have no way back. -/
example : (Cycle.named [("x", "y"), ("z", "y")]).inverse.toOption = none := by decide +kernel

end Chain

end Unifier

end GraphInference
