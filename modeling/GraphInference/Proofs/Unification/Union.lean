import GraphInference.Proofs.Unification.Composition
import GraphInference.Proofs.Unification.Distinct

/-!
# Unions of unifiers

Pairs are added to a unifier one at a time, and the first one that gives a source a second target ends the
addition. Which pair that is depends on their order, but whether there is one, and what is found if there is
none, depends on the pairs alone. An outcome gathers a relation between variables (`Unifier.Gathers`) if it is a
unifier exactly where the relation gives no variable two targets, and then finds the targets of the relation;
outcomes that gather the same relation are the same partial function, or refusals both (`Gathers.outcome_eq`).
Adding pairs gathers them, so merging is a union of relations (`merge_is_union`).
-/

namespace GraphInference.Unifier

variable {R T : Var → Var → Prop} {o o' : Except InferenceError Unifier} {u v w : Unifier}
  {pairs : List (Var × Var)}

/-- The partial function that an outcome finds, none for a refusal. -/
def function? (o : Except InferenceError Unifier) : Option (Var → Option Var) :=
  o.toOption.map get?

/-- The outcome is a unifier exactly if the relation gives no variable two targets, and a unifier with the
targets of the relation. -/
structure Gathers (R : Var → Var → Prop) (o : Except InferenceError Unifier) : Prop where
  exists_iff : (∃ u, o = .ok u) ↔ Relator.RightUnique R
  get?_iff : ∀ u, o = .ok u → ∀ x y, u.get? x = some y ↔ R x y

/-- What is gathered determines the outcome up to the order of pairs and the message of a refusal. -/
theorem Gathers.outcome_eq (h : Gathers R o) (h' : Gathers R o') : function? o = function? o' := by
  cases o with
  | ok u =>
    obtain ⟨w, rfl⟩ := h'.exists_iff.mpr (h.exists_iff.mp ⟨u, rfl⟩)
    refine congrArg some (funext fun x => Option.ext fun y => ?_)
    rw [h.get?_iff u rfl, h'.get?_iff w rfl]
  | error e =>
    cases o' with
    | ok w =>
      obtain ⟨u, hu⟩ := h.exists_iff.mpr (h'.exists_iff.mp ⟨w, rfl⟩)
      cases hu
    | error e' => rfl

theorem Gathers.congr (h : Gathers R o) (hR : ∀ x y, R x y ↔ T x y) : Gathers T o := by
  obtain rfl : R = T := funext fun x => funext fun y => propext (hR x y)
  exact h

/-- A step that gathers more than the one before it. -/
theorem Gathers.bind {f : Unifier → Except InferenceError Unifier} (h : Gathers R o)
    (hsub : ∀ x y, R x y → T x y) (hf : ∀ v, o = .ok v → Gathers T (f v)) : Gathers T (o >>= f) where
  exists_iff := by
    rw [Except.exists_bind_ok]
    constructor
    · rintro ⟨v, hv, hok⟩
      exact (hf v hv).exists_iff.mp hok
    · intro hT
      obtain ⟨v, hv⟩ := h.exists_iff.mpr fun x y z hy hz => hT (hsub x y hy) (hsub x z hz)
      exact ⟨v, hv, (hf v hv).exists_iff.mpr hT⟩
  get?_iff m hm := by
    obtain ⟨v, hv, hm⟩ := Except.bind_eq_ok.mp hm
    exact (hf v hv).get?_iff m hm

/-! ## Additions -/

/-- Adding pairs in turn gathers them, whatever their order. -/
theorem gathers_addAll (u : Unifier) (pairs : List (Var × Var)) :
    Gathers (fun x y => u.get? x = some y ∨ (x, y) ∈ pairs) (u.addAll pairs) where
  exists_iff := by
    constructor
    · rintro ⟨w, hw⟩ x y z hy hz
      rw [← get?_eq_some_of_addAll hw] at hy hz
      exact Option.some.inj (hy.symm.trans hz)
    · intro hR
      -- a renaming that every pair follows is refused nowhere
      have hone (x : Var) : ∃ t, ∀ y, u.get? x = some y ∨ (x, y) ∈ pairs → y = t := by
        by_cases hx : ∃ t, u.get? x = some t ∨ (x, t) ∈ pairs
        · obtain ⟨t, ht⟩ := hx
          exact ⟨t, fun y hy => hR hy ht⟩
        · exact ⟨x, fun y hy => absurd ⟨y, hy⟩ hx⟩
      choose ρ hρ using hone
      have hfollows : u.Follows ρ := fun x y hy => hρ x y (.inl hy)
      obtain ⟨w, hw, -⟩ := hfollows.exists_addAll fun p hp => hρ p.1 p.2 (.inr hp)
      exact ⟨w, hw⟩
  get?_iff _ hw _ _ := get?_eq_some_of_addAll hw

theorem gathers_ofPairs (pairs : List (Var × Var)) : Gathers (fun x y => (x, y) ∈ pairs) (ofPairs pairs) :=
  (gathers_addAll {} pairs).congr fun _ _ => or_iff_right nofun

/-- Merging gathers the targets of both unifiers. -/
theorem gathers_merge (u : Unifier) (hv : v.sources.Nodup) :
    Gathers (fun x y => u.get? x = some y ∨ v.get? x = some y) (u.merge v) :=
  (gathers_addAll u v.pairs).congr fun _ _ => or_congr_right (get?_eq_some_iff hv).symm

/-- The targets of both unifiers are single exactly if they agree wherever both have one. -/
theorem rightUnique_or_iff (u v : Unifier) :
    Relator.RightUnique (fun x y => u.get? x = some y ∨ v.get? x = some y) ↔
      ∀ x y z, u.get? x = some y → v.get? x = some z → y = z := by
  constructor
  · exact fun h x y z hy hz => h (.inl hy) (.inr hz)
  · rintro h x y z (hy | hy) (hz | hz)
    · exact Option.some.inj (hy.symm.trans hz)
    · exact h x y z hy hz
    · exact (h x z y hz hy).symm
    · exact Option.some.inj (hy.symm.trans hz)

theorem outcome_merge_comm (hu : u.sources.Nodup) (hv : v.sources.Nodup) :
    function? (u.merge v) = function? (v.merge u) :=
  (gathers_merge u hv).outcome_eq ((gathers_merge v hu).congr fun _ _ => or_comm)

/-- Merging the third unifier into the first two gathers what merging the last two into the first does. -/
theorem outcome_merge_assoc (u : Unifier) (hv : v.Built) (hw : w.Built) :
    function? (u.merge v >>= fun m => m.merge w) = function? (v.merge w >>= u.merge) := by
  let R x y := u.get? x = some y ∨ v.get? x = some y ∨ w.get? x = some y
  have huv := gathers_merge u hv.nodup_sources
  have hvw := gathers_merge v hw.nodup_sources
  have hleft : Gathers R (u.merge v >>= fun m => m.merge w) := by
    refine huv.bind (fun x y h => or_assoc.mp (.inl h)) fun m hm => ?_
    refine (gathers_merge m hw.nodup_sources).congr fun x y => ?_
    rw [huv.get?_iff m hm, or_assoc]
  have hright : Gathers R (v.merge w >>= u.merge) := by
    refine hvw.bind (fun x y => .inr) fun m hm => ?_
    refine (gathers_merge u (hv.merge hw hm).nodup_sources).congr fun x y => ?_
    rw [hvw.get?_iff m hm]
  exact hleft.outcome_eq hright

theorem outcome_merge_self (hu : u.sources.Nodup) : function? (u.merge u) = some u.get? := by
  have hself : Gathers (fun x y => u.get? x = some y) (.ok u) := by
    refine ⟨iff_of_true ⟨u, rfl⟩ fun x y z hy hz => Option.some.inj (hy.symm.trans hz), ?_⟩
    rintro _ ⟨⟩ x y
    rfl
  exact ((gathers_merge u hu).congr fun _ _ => or_self_iff).outcome_eq hself

/-- Merging is the union of partial functions: two unifiers merge exactly if they agree wherever both have a
target, into one with the targets of both; the order and the grouping of merged unifiers make no difference to
whether there is a result and to its targets, and a unifier merged with itself has its own. Pairs make a unifier
exactly if no variable has two targets among them, one with just these targets, and in whatever order and however
often they come. -/
theorem merge_is_union (hu : u.Built) (hv : v.Built) (hw : w.Built) (pairs : List (Var × Var)) :
    (((∃ m, u.merge v = .ok m) ↔ ∀ x y z, u.get? x = some y → v.get? x = some z → y = z) ∧
      ∀ m, u.merge v = .ok m → ∀ x y, m.get? x = some y ↔ u.get? x = some y ∨ v.get? x = some y) ∧
    (function? (u.merge v) = function? (v.merge u) ∧
      function? (u.merge v >>= fun m => m.merge w) = function? (v.merge w >>= u.merge) ∧
      function? (u.merge u) = some u.get?) ∧
    ((∃ m, ofPairs pairs = .ok m) ↔ ∀ x y z, (x, y) ∈ pairs → (x, z) ∈ pairs → y = z) ∧
    (∀ m, ofPairs pairs = .ok m → ∀ x y, m.get? x = some y ↔ (x, y) ∈ pairs) ∧
    ∀ pairs', (∀ p, p ∈ pairs ↔ p ∈ pairs') → function? (ofPairs pairs) = function? (ofPairs pairs') := by
  have hmerge := gathers_merge u hv.nodup_sources
  have hpairs := gathers_ofPairs pairs
  refine ⟨⟨hmerge.exists_iff.trans (rightUnique_or_iff u v), hmerge.get?_iff⟩,
    ⟨outcome_merge_comm hu.nodup_sources hv.nodup_sources, outcome_merge_assoc u hv hw,
      outcome_merge_self hu.nodup_sources⟩, hpairs.exists_iff, hpairs.get?_iff, fun pairs' hsame => ?_⟩
  exact hpairs.outcome_eq ((gathers_ofPairs pairs').congr fun x y => (hsame (x, y)).symm)

/-! ## Overlaps -/

namespace Overlap

def left : Unifier :=
  Cycle.named [("x", "a"), ("y", "b")]

/-- It overlaps with the left one in a variable that both map alike. -/
def right : Unifier :=
  Cycle.named [("y", "b"), ("z", "c")]

/-- It gives a variable of the right one another target. -/
def other : Unifier :=
  Cycle.named [("z", "a")]

/-- The left and the right one merge, and the third is refused in either grouping. -/
theorem merge_is_union_overlap : (left.Built ∧ right.Built ∧ other.Built) ∧
    (∃ m, left.merge right = .ok m ∧ ∀ x y, m.get? x = some y ↔ left.get? x = some y ∨ right.get? x = some y) ∧
    (¬ ∃ m, right.merge other = .ok m) ∧
    (function? (left.merge right) = function? (right.merge left) ∧
      function? (left.merge right >>= fun m => m.merge other) = function? (right.merge other >>= left.merge) ∧
      function? (left.merge left) = some left.get?) ∧
    (∃ m, ofPairs left.pairs = .ok m ∧ ∀ x y, m.get? x = some y ↔ (x, y) ∈ left.pairs) ∧
    function? (ofPairs left.pairs) = function? (ofPairs (left.pairs.reverse ++ left.pairs)) := by
  have hleft : left.Built := @Built.ofPairs left.pairs _ rfl
  have hright : right.Built := @Built.ofPairs right.pairs _ rfl
  have hother : other.Built := @Built.ofPairs other.pairs _ rfl
  obtain ⟨⟨-, hmerged⟩, hlaws, -, hmade, horder⟩ := merge_is_union hleft hright hother left.pairs
  obtain ⟨⟨hrefused, -⟩, -⟩ := merge_is_union hright hother hleft []
  obtain ⟨m, hm⟩ : ∃ m, left.merge right = .ok m := ⟨_, rfl⟩
  obtain ⟨m', hm'⟩ : ∃ m, ofPairs left.pairs = .ok m := ⟨_, rfl⟩
  refine ⟨⟨hleft, hright, hother⟩, ⟨m, hm, hmerged m hm⟩, fun hok => ?_, hlaws, ⟨m', hm', hmade m' hm'⟩,
    horder _ fun p => ?_⟩
  · have hsame : Var.named "c" = .named "a" := hrefused.mp hok (.named "z") _ _ rfl rfl
    exact absurd hsame (by decide +kernel)
  · rw [List.mem_append, List.mem_reverse, or_self_iff]

end Overlap

end GraphInference.Unifier
