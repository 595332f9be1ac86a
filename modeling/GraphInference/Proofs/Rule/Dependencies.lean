import Mathlib
import GraphInference.Rule.Set

/-!
# Recursive rules

The rules that a rule reaches through its dependencies are found in as many rounds as there are rules,
so that the recursive rules are those that reach themselves: `isRecursive_iff`.
-/

namespace GraphInference.RuleSet

open Relation

variable {s : RuleSet} {n : Nat} {ids : List RuleId} {i j : RuleId}

/-- Answers of the rule `j` may feed the body of the rule `i`. -/
def DependsOn (s : RuleSet) (i j : RuleId) : Prop :=
  j ∈ s.dependenciesOf i

theorem dependsOn_iff : s.DependsOn i j ↔
    ∃ r, s.get? i = some r ∧ ∃ r' ∈ s.rules, r.dependsOn r' = true ∧ r'.id = j := by
  unfold DependsOn dependenciesOf
  cases s.get? i with
  | none => exact ⟨fun h => (nomatch h), fun ⟨_, h, _⟩ => nomatch h⟩
  | some r => simp [and_assoc]

/-- The rules that are not in a list. -/
def unseen (s : RuleSet) (ids : List RuleId) : Finset RuleId :=
  (s.rules.map CompiledRule.id).toFinset.filter (· ∉ ids)

theorem mem_unseen : i ∈ s.unseen ids ↔ (∃ r ∈ s.rules, r.id = i) ∧ i ∉ ids := by
  rw [unseen, Finset.mem_filter, List.mem_toFinset, List.mem_map]

theorem card_unseen_le (ids : List RuleId) : (s.unseen ids).card ≤ s.size :=
  calc (s.unseen ids).card ≤ (s.rules.map CompiledRule.id).toFinset.card :=
        Finset.card_filter_le _ _
    _ ≤ (s.rules.map CompiledRule.id).length := List.toFinset_card_le _
    _ = s.size := List.length_map _

theorem DependsOn.mem_unseen (h : s.DependsOn i j) (hj : j ∉ ids) : j ∈ s.unseen ids := by
  obtain ⟨_, -, r', hr', -, rfl⟩ := dependsOn_iff.mp h
  exact RuleSet.mem_unseen.mpr ⟨⟨r', hr', rfl⟩, hj⟩

/-- The dependencies of listed rules that are not listed. -/
theorem mem_new : j ∈ ((ids.flatMap s.dependenciesOf).eraseDups.filter fun id => id ∉ ids) ↔
    (∃ i ∈ ids, s.DependsOn i j) ∧ j ∉ ids := by
  rw [List.mem_filter, List.mem_eraseDups, List.mem_flatMap, decide_eq_true_eq]
  exact Iff.rfl

theorem mem_reach_of_mem (h : i ∈ ids) : i ∈ s.reach n ids := by
  induction n generalizing ids with
  | zero => exact h
  | succ n ih => exact ih (List.mem_append_left _ h)

theorem exists_of_mem_reach (h : j ∈ s.reach n ids) : ∃ i ∈ ids, ReflTransGen s.DependsOn i j := by
  induction n generalizing ids with
  | zero => exact ⟨j, h, .refl⟩
  | succ n ih =>
    obtain ⟨i, hi, hij⟩ := ih h
    rcases List.mem_append.mp hi with hi | hi
    · exact ⟨i, hi, hij⟩
    · obtain ⟨⟨k, hk, hki⟩, -⟩ := mem_new.mp hi
      exact ⟨k, hk, .head hki hij⟩

theorem reach_eq_of_closed (h : ∀ i ∈ ids, ∀ j, s.DependsOn i j → j ∈ ids) :
    s.reach n ids = ids := by
  induction n with
  | zero => rfl
  | succ n ih =>
    have hnew : ((ids.flatMap s.dependenciesOf).eraseDups.filter fun id => id ∉ ids) = [] := by
      refine List.eq_nil_iff_forall_not_mem.mpr fun j hj => ?_
      obtain ⟨⟨i, hi, hij⟩, hj⟩ := mem_new.mp hj
      exact hj (h i hi j hij)
    rw [reach, hnew, List.append_nil, ih]

/-- After a round for each rule that is missing no dependency is. -/
theorem mem_reach_of_dependsOn (hn : (s.unseen ids).card ≤ n) (hi : i ∈ s.reach n ids)
    (hij : s.DependsOn i j) : j ∈ s.reach n ids := by
  induction n generalizing ids with
  | zero =>
    by_contra hj
    have hpos : 0 < (s.unseen ids).card := Finset.card_pos.mpr ⟨j, hij.mem_unseen hj⟩
    omega
  | succ n ih =>
    by_cases hclosed : ∀ i ∈ ids, ∀ j, s.DependsOn i j → j ∈ ids
    · rw [reach_eq_of_closed hclosed] at hi ⊢
      exact hclosed i hi j hij
    · push Not at hclosed
      obtain ⟨k, hk, l, hkl, hl⟩ := hclosed
      refine ih ?_ hi
      have hlt : (s.unseen (ids ++ (ids.flatMap s.dependenciesOf).eraseDups.filter
          fun id => id ∉ ids)).card < (s.unseen ids).card := by
        refine Finset.card_lt_card (Finset.ssubset_iff_of_subset ?_ |>.mpr
          ⟨l, hkl.mem_unseen hl, fun hmem => ?_⟩)
        · intro a ha
          obtain ⟨hrule, ha⟩ := RuleSet.mem_unseen.mp ha
          exact RuleSet.mem_unseen.mpr ⟨hrule, fun hmem => ha (List.mem_append_left _ hmem)⟩
        · obtain ⟨-, hnew⟩ := RuleSet.mem_unseen.mp hmem
          exact hnew (List.mem_append_right _ (mem_new.mpr ⟨⟨k, hk, hkl⟩, hl⟩))
      omega

/-- A rule is recursive if it depends on itself, directly or through others. -/
theorem isRecursive_iff : s.isRecursive i = true ↔ TransGen s.DependsOn i i := by
  rw [isRecursive, decide_eq_true_eq]
  constructor
  · intro h
    obtain ⟨j, hij, hji⟩ := exists_of_mem_reach h
    exact .head' hij hji
  · intro h
    obtain ⟨j, hij, hji⟩ := TransGen.head'_iff.mp h
    have hreach {k : RuleId} (hk : ReflTransGen s.DependsOn j k) :
        k ∈ s.reach s.size (s.dependenciesOf i) := by
      induction hk with
      | refl => exact mem_reach_of_mem hij
      | tail _ hdep ih => exact mem_reach_of_dependsOn (card_unseen_le _) ih hdep
    exact hreach hji

end GraphInference.RuleSet
