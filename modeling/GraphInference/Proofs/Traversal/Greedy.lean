import GraphInference.Proofs.Pattern.Refusal
import GraphInference.Proofs.Traversal.Validity

/-!
# Greedy plans

A plan repeats one step: of the fragments that can run next it takes the first of the cheapest, drops
the set that holds it and counts its variables as bound (`Planner.Greedy`). What such a step keeps holds
at every point of the plan, with the fragments behind it taken from some of the sets and the others
still pending (`Planner.Greedy.split`). So every plan is valid and takes one fragment of each set, and
planning fails only for a pattern that makes no set (`Planner.exists_valid_plan_iff`).
-/

namespace GraphInference

open Attempt

namespace Planner

variable {bound : SortedSet Var} {sets : List FragmentSet} {steps done rest : List PlannedStep}

/-! ## Greedy steps -/

/-- The steps that the pending sets offer, in the order of the sets and of their fragments. -/
def runnable (bound : SortedSet Var) (pending : List FragmentSet) : List PlannedStep :=
  pending.flatMap fun set =>
    (set.fragments.filter fun f => f.dependencies.subset bound).map (stepOf bound set)

/-- The step is the first of the cheapest ones. -/
def FirstCheapest (steps : List PlannedStep) (step : PlannedStep) : Prop :=
  ∃ l₁ l₂, steps = l₁ ++ step :: l₂ ∧ (∀ d ∈ l₁, step.cost.rank < d.cost.rank) ∧
    ∀ d ∈ l₂, step.cost.rank ≤ d.cost.rank

/-- The steps take the first of the cheapest again and again, until no set is pending. -/
inductive Greedy : SortedSet Var → List FragmentSet → List PlannedStep → Prop where
  | done {bound : SortedSet Var} : Greedy bound [] []
  | step {bound : SortedSet Var} {pre post : List FragmentSet} {set : FragmentSet} {f : Fragment}
    {rest : List PlannedStep} (hf : f ∈ set.fragments) (hdeps : ∀ v ∈ f.dependencies, v ∈ bound)
    (hfirst : FirstCheapest (runnable bound (pre ++ set :: post)) (stepOf bound set f))
    (hrest : Greedy (bound.union f.vars) (pre ++ post) rest) :
    Greedy bound (pre ++ set :: post) (stepOf bound set f :: rest)

theorem map_fst_choices (bound : SortedSet Var) (before sets : List FragmentSet) :
    (choices bound before sets).map Prod.fst = runnable bound sets := by
  induction sets generalizing before with
  | nil => rfl
  | cons set sets ih =>
    rw [choices, List.map_append, ih, List.map_map]
    rfl

theorem mem_runnable {step : PlannedStep} : step ∈ runnable bound sets ↔
    ∃ set ∈ sets, ∃ f ∈ set.fragments, (∀ v ∈ f.dependencies, v ∈ bound) ∧
      stepOf bound set f = step := by
  simp only [runnable, List.mem_flatMap, List.mem_map, List.mem_filter, SortedSet.subset_iff,
    and_assoc]

theorem FirstCheapest.rank_le {step d : PlannedStep} (h : FirstCheapest steps step)
    (hd : d ∈ steps) : step.cost.rank ≤ d.cost.rank := by
  obtain ⟨l₁, l₂, rfl, h₁, h₂⟩ := h
  rcases List.mem_append.mp hd with hd | hd
  · exact (h₁ d hd).le
  · rcases List.mem_cons.mp hd with rfl | hd
    · exact Nat.le_refl _
    · exact h₂ d hd

theorem firstCheapest_of_cheapest {c : PlannedStep × List FragmentSet}
    (h : cheapest (choices bound [] sets) = some c) : FirstCheapest (runnable bound sets) c.1 := by
  obtain ⟨l₁, l₂, hl, h₁, h₂⟩ := cheapest_eq_some h
  refine ⟨l₁.map Prod.fst, l₂.map Prod.fst, ?_, ?_, ?_⟩
  · rw [← map_fst_choices bound [] sets, hl, List.map_append, List.map_cons]
  · exact List.forall_mem_map.mpr h₁
  · exact List.forall_mem_map.mpr h₂

theorem greedy_of_order (h : order bound sets.length sets = .ok steps) :
    Greedy bound sets steps := by
  generalize hn : sets.length = n at h
  induction n generalizing bound sets steps with
  | zero =>
    obtain rfl := Except.ok.inj h
    obtain rfl := List.length_eq_zero_iff.mp hn
    exact .done
  | succ n ih =>
    rw [order] at h
    split at h
    · cases h
    · next step left hcheapest =>
      obtain ⟨steps', hsteps, h⟩ := Except.bind_eq_ok.mp h
      obtain rfl := Except.ok.inj h
      have hfirst := firstCheapest_of_cheapest hcheapest
      obtain ⟨l₁, l₂, hl, -⟩ := cheapest_eq_some hcheapest
      obtain ⟨pre, set, post, f, fs₁, fs₂, rfl, hset, hdeps, hc, -⟩ := takes_of_choices_eq hl
      obtain ⟨rfl, rfl⟩ := Prod.mk.inj hc
      have hf : f ∈ set.fragments := by
        rw [hset]
        simp
      have hlength : (pre ++ post).length = n := by
        simp only [List.length_append, List.length_cons] at hn ⊢
        omega
      exact .step hf (SortedSet.subset_iff.mp hdeps) hfirst (ih hlength hsteps)

/-! ## Greedy runs -/

/-- What is bound after the steps. -/
def boundAfter (bound : SortedSet Var) (steps : List PlannedStep) : SortedSet Var :=
  steps.foldl (fun bound step => bound.union step.fragment.vars) bound

/-- What every greedy step keeps holds at each point of a plan: of some of the sets a fragment has been
taken, the others are pending, and the rest of the plan is greedy again. -/
theorem Greedy.split {P : SortedSet Var → List FragmentSet → Prop}
    (hstep : ∀ bound pre set post f, P bound (pre ++ set :: post) → f ∈ set.fragments →
      (∀ v ∈ f.dependencies, v ∈ bound) → P (bound.union f.vars) (pre ++ post))
    (h : Greedy bound sets (done ++ rest)) (hP : P bound sets) : ∃ taken pending,
      (taken ++ pending).Perm sets ∧ pending.Sublist sets ∧
      List.Forall₂ (fun step set => step.fragment ∈ set.fragments) done taken ∧
      Greedy (boundAfter bound done) pending rest ∧ P (boundAfter bound done) pending := by
  -- on the steps that have been made: the first drops its set, the others are made of what it leaves
  induction done generalizing bound sets with
  | nil => exact ⟨[], sets, .refl _, .refl _, .nil, h, hP⟩
  | cons step done ih =>
    cases h with
    | @step bound pre post set f rest hf hdeps hfirst hrest =>
      obtain ⟨taken, pending, hperm, hsub, hdone, hgreedy, hkept⟩ :=
        ih hrest (hstep _ _ _ _ _ hP hf hdeps)
      refine ⟨set :: taken, pending, ?_, ?_, .cons hf hdone, hgreedy, hkept⟩
      · exact (hperm.cons set).trans List.perm_middle.symm
      · exact hsub.trans (List.Sublist.append_left (List.sublist_cons_self set post) pre)

/-- Each step finds what it depends on bound, and its start too unless it is marked as a start. -/
theorem Greedy.validFrom (h : Greedy bound sets steps) : Program.validFrom bound steps = true := by
  induction h with
  | done => rfl
  | @step bound pre post set f rest hf hdeps hfirst hrest ih =>
    have hstart : (bound.contains f.start || !bound.contains f.start || f.isIndexed) = true := by
      cases bound.contains f.start <;> rfl
    rw [Program.validFrom, Bool.and_eq_true, Bool.and_eq_true]
    exact ⟨⟨SortedSet.subset_iff.mpr hdeps, hstart⟩, ih⟩

theorem greedy_of_gives {c : Conjunction} {s t : Supply} {p : Program}
    (h : (planWithBound c bound).Gives s p t) :
    ∃ sets, (FragmentSet.ofConjunction c).Gives s sets t ∧ Greedy bound sets p.steps := by
  obtain ⟨sets, hsets, horder⟩ := order_of_gives h
  exact ⟨sets, hsets, greedy_of_order horder⟩

theorem totalCost_eq_sum (p : Program) :
    p.totalCost = (p.steps.map fun step => step.cost.weight).sum := by
  rw [Program.totalCost, List.sum, List.foldr_map]

/-- A conjunction is planned if and only if each of its statements makes a fragment set: the program
takes one fragment of each set, costs what its steps cost and is valid for what is bound. What is not
planned is refused for a statement that makes none. -/
theorem exists_valid_plan_iff (c : Conjunction) (bound : SortedSet Var) (s : Supply) :
    ((∃ p t, (planWithBound c bound).Gives s p t) ↔
      ∀ st ∈ c.statements, ∀ u, ((FragmentSet.ofStatement st).run u).1 ≠ []) ∧
    match (planWithBound c bound).run s with
    | (.ok p, t) => ∃ sets, (FragmentSet.ofConjunction c).Gives s sets t ∧ p.Picks sets ∧
        p.totalCost = (p.steps.map fun step => step.cost.weight).sum ∧ p.isValid bound = true
    | (.error e, _) => c.RefusedFor e := by
  constructor
  · simp only [Ne, FragmentSet.ofStatement_eq_nil_iff, not_not, forall_const]
    rw [← FragmentSet.exists_gives_iff_isFounded (u := s)]
    constructor
    · rintro ⟨p, t, hp⟩
      obtain ⟨sets, hsets, -⟩ := order_of_gives hp
      exact ⟨sets, t, hsets⟩
    · rintro ⟨sets, t, hsets⟩
      obtain ⟨p, hp⟩ := exists_planWithBound hsets bound
      exact ⟨p, t, hp⟩
  · split
    · next p t hp =>
      obtain ⟨sets, hsets, horder⟩ := order_of_gives hp
      have hpicks : p.Picks sets := (order_spec (FragmentSet.ofConjunction_balanced hsets) horder).2
      exact ⟨sets, hsets, hpicks, totalCost_eq_sum p, (greedy_of_order horder).validFrom⟩
    · next e t he => exact fails_planWithBound he

end Planner

end GraphInference
