import GraphInference.Proofs.Traversal.Castings
import GraphInference.Proofs.Traversal.Greedy

/-!
# Scans

A step has scan cost if it tries every element for its start. At every point of a plan the castings of
the pending links are unbound (`Planner.Unseated`), so that whatever else a pending set has bound is the
start of one of its fragments, which runs for less than a scan. A plan therefore scans only where all the
variables of all pending edges are unbound and no index is left to start from
(`Planner.scans_only_when_unavoidable`).
-/

namespace GraphInference

namespace Planner

open Attempt

variable {bound : SortedSet Var} {pending : List FragmentSet} {set : FragmentSet} {f : Fragment}

/-- The pending sets keep apart, and what is bound of them is the start of a fragment. -/
structure Unseated (bound : SortedSet Var) (pending : List FragmentSet) : Prop where
  apart : pending.Pairwise FragmentSet.Apart
  twoWay : ∀ s ∈ pending, s.IsTwoWay
  unbound : ∀ s ∈ pending, ∀ v, s.HasCasting v → v ∉ bound

theorem mem_dependencies_of_mem_vars {v : Var} (h : f.dependencies ≠ .empty) (hv : v ∈ f.vars) :
    v ∈ f.dependencies := by
  cases f with
  | neq left right => simpa [Fragment.dependencies] using hv
  | _ => exact absurd rfl h

/-- A step binds no casting of the sets that it leaves. -/
theorem Unseated.step {pre post : List FragmentSet} (h : Unseated bound (pre ++ set :: post))
    (hf : f ∈ set.fragments) (hdeps : ∀ v ∈ f.dependencies, v ∈ bound) :
    Unseated (bound.union f.vars) (pre ++ post) := by
  have hperm : (pre ++ set :: post).Perm (set :: (pre ++ post)) := List.perm_middle
  have hmem {s : FragmentSet} (hs : s ∈ pre ++ post) : s ∈ pre ++ set :: post :=
    hperm.mem_iff.mpr (.tail _ hs)
  obtain ⟨hapart, hrest⟩ := List.pairwise_cons.mp ((hperm.pairwise_iff fun h => h.symm).mp h.apart)
  refine ⟨hrest, fun s hs => h.twoWay s (hmem hs), fun s hs v hv hbound => ?_⟩
  have hunbound := h.unbound s (hmem hs) v hv
  rcases SortedSet.mem_union.mp hbound with hbound | hbound
  · exact hunbound hbound
  · -- a fragment that depends on variables has no others, so that it binds nothing new
    by_cases hempty : f.dependencies = .empty
    · exact (hapart s hs v).2 ⟨hv, f, hf, hempty, hbound⟩
    · exact hunbound (hdeps v (mem_dependencies_of_mem_vars hempty hbound))

theorem unseated_of_gives {c : Conjunction} {s t : Supply} {sets : List FragmentSet}
    (h : (FragmentSet.ofConjunction c).Gives s sets t) (hfresh : c.FreshFrom s.vars)
    (hbound : ∀ k, s.vars ≤ k → .generated k ∉ bound) : Unseated bound sets where
  apart := (FragmentSet.draws_of_gives h).apart hfresh
  twoWay := (FragmentSet.draws_of_gives h).twoWay
  unbound set hset v hv := by
    obtain ⟨k, hk, -, rfl⟩ := (FragmentSet.draws_of_gives h).castings set hset v hv
    exact hbound k hk

/-! ## Costs -/

theorem rank_lt_scan {c : Cost} (h : c ≠ .scan) : c.rank < Cost.scan.rank := by
  revert h
  cases c <;> decide

theorem cost_ne_scan (f : Fragment) : f.cost ≠ .scan := by
  have hlink (link : RoleLink) : link.cost ≠ .scan := by
    unfold RoleLink.cost
    split <;> exact nofun
  cases f with
  | outPlayer link | inPlayer link => exact hlink link
  | _ => exact nofun

theorem startCost_ne_scan (h : f.isIndexed = true) : f.startCost ≠ .scan := by
  cases f with
  | identity | labelled | valued => exact nofun
  | _ => cases h

/-- A fragment whose start is bound, or found in an index, runs for less than a scan. -/
theorem rank_stepOf_lt_scan (h : f.start ∈ bound ∨ f.isIndexed = true) :
    (stepOf bound set f).cost.rank < Cost.scan.rank := by
  refine rank_lt_scan ?_
  show (if bound.contains f.start then f.cost else f.startCost) ≠ _
  split
  · exact cost_ne_scan f
  · next hnot =>
    exact startCost_ne_scan (h.resolve_left fun hmem => hnot (SortedSet.contains_iff.mpr hmem))

theorem startsTraversal_stepOf : (stepOf bound set f).startsTraversal = true ↔ f.start ∉ bound := by
  show (!bound.contains f.start) = true ↔ _
  rw [Bool.not_eq_true', ← Bool.not_eq_true, SortedSet.contains_iff]

/-- What is bound of a pending set lets one of its fragments run for less than a scan. -/
theorem Unseated.exists_runnable (h : Unseated bound pending) (hset : set ∈ pending) {v : Var}
    (hv : set.Supplies v) (hbound : v ∈ bound) :
    ∃ step ∈ runnable bound pending, step.cost.rank < Cost.scan.rank := by
  rcases h.twoWay set hset v hv with hcasting | ⟨f, hf, hdeps, rfl⟩
  · exact absurd hbound (h.unbound set hset v hcasting)
  · refine ⟨_, mem_runnable.mpr ⟨set, hset, f, hf, ?_, rfl⟩, rank_stepOf_lt_scan (.inl hbound)⟩
    exact fun v hv => absurd (hdeps ▸ hv) (SortedSet.not_mem_empty v)

theorem FirstCheapest.not_lt_scan {steps : List PlannedStep} {step d : PlannedStep}
    (h : FirstCheapest steps step) (hscan : step.cost = .scan) (hd : d ∈ steps) :
    ¬ d.cost.rank < Cost.scan.rank :=
  Nat.not_lt.mpr (hscan ▸ h.rank_le hd)

/-- Where the cheapest step is a scan, no index is left to start from. -/
theorem FirstCheapest.isIndexed_eq_false {step : PlannedStep}
    (h : FirstCheapest (runnable bound pending) step) (hscan : step.cost = .scan)
    (hset : set ∈ pending) (hf : f ∈ set.fragments) : f.isIndexed = false := by
  by_contra hne
  have hindexed : f.isIndexed = true := by simpa using hne
  have hdeps : f.dependencies = .empty := by
    cases f with
    | neq => cases hindexed
    | _ => rfl
  have hmem : stepOf bound set f ∈ runnable bound pending := by
    refine mem_runnable.mpr ⟨set, hset, f, hf, fun v hv => ?_, rfl⟩
    exact absurd (hdeps ▸ hv) (SortedSet.not_mem_empty v)
  exact h.not_lt_scan hscan hmem (rank_stepOf_lt_scan (.inr hindexed))

/-- Where the cheapest step is a scan, nothing that a pending set binds is bound. -/
theorem Unseated.not_mem_of_scan (h : Unseated bound pending) {step : PlannedStep}
    (hfirst : FirstCheapest (runnable bound pending) step) (hscan : step.cost = .scan)
    (hset : set ∈ pending) {v : Var} (hv : set.Supplies v) : v ∉ bound := by
  intro hbound
  obtain ⟨d, hd, hlt⟩ := h.exists_runnable hset hv hbound
  exact hfirst.not_lt_scan hscan hd hlt

/-- A step is marked as a start exactly when nothing of its fragment is bound. -/
theorem Unseated.startsTraversal_iff (h : Unseated bound pending) (hset : set ∈ pending)
    (hf : f ∈ set.fragments) (hdeps : ∀ v ∈ f.dependencies, v ∈ bound)
    (hfirst : FirstCheapest (runnable bound pending) (stepOf bound set f)) :
    (stepOf bound set f).startsTraversal = true ↔ ∀ v ∈ f.vars, v ∉ bound := by
  rw [startsTraversal_stepOf]
  constructor
  · intro hstart v hv hbound
    have hempty : f.dependencies = .empty := by
      by_contra hne
      exact hstart (hdeps _ (Fragment.start_mem_dependencies hne))
    cases hindexed : f.isIndexed with
    | true =>
      exact hstart (FragmentSet.eq_start_of_isIndexed hindexed hv ▸ hbound)
    | false =>
      -- from an unbound start it would be a scan, though the set has a variable bound
      have hscan : (stepOf bound set f).cost = .scan := by
        rw [stepOf, if_neg fun e => hstart (SortedSet.contains_iff.mp e)]
        exact startCost_eq_scan hindexed
      exact h.not_mem_of_scan hfirst hscan hset ⟨f, hf, hempty, hv⟩ hbound
  · exact fun hall => hall f.start (Fragment.start_mem_vars f)

theorem dependencies_eq_empty_of_finish (h : f.finish?.isSome = true) : f.dependencies = .empty := by
  cases f with
  | neq => cases h
  | _ => rfl

/-- Of the pending sets the step is chosen: it is the first of the cheapest, it is marked as a start
exactly when nothing of its fragment is bound, and it scans only if no index is left to start from and no
variable of a pending edge is bound. -/
structure Chooses (bound : SortedSet Var) (pending : List FragmentSet) (step : PlannedStep) : Prop where
  first : FirstCheapest (runnable bound pending) step
  starts : step.startsTraversal = true ↔ ∀ v ∈ step.fragment.vars, v ∉ bound
  scan : step.cost = .scan → ∀ set ∈ pending, ∀ f ∈ set.fragments, f.isIndexed = false ∧
    (f.finish?.isSome = true → ∀ v ∈ f.vars, v ∉ bound)

theorem Unseated.chooses (h : Unseated bound pending) {step : PlannedStep} {later : List PlannedStep}
    (hgreedy : Greedy bound pending (step :: later)) : Chooses bound pending step := by
  cases hgreedy with
  | @step bound pre post set f rest hf hdeps hfirst =>
    refine ⟨hfirst, h.startsTraversal_iff (by simp) hf hdeps hfirst, fun hscan s hs d hd => ?_⟩
    refine ⟨hfirst.isIndexed_eq_false hscan hs hd, fun hfinish v hv => ?_⟩
    have hempty := dependencies_eq_empty_of_finish hfinish
    exact h.not_mem_of_scan hfirst hscan hs ⟨d, hd, hempty, hv⟩

/-- Each step of a plan is chosen of the sets from which no fragment has been taken before it. -/
theorem scans_only_when_unavoidable {c : Conjunction} {s t : Supply} {p : Program}
    (hfresh : c.FreshFrom s.vars) (hbound : ∀ k, s.vars ≤ k → .generated k ∉ bound)
    (hp : (planWithBound c bound).Gives s p t) :
    ∃ sets, (FragmentSet.ofConjunction c).Gives s sets t ∧
      ∀ done step later, p.steps = done ++ step :: later → ∃ taken pending,
        (taken ++ pending).Perm sets ∧ pending.Sublist sets ∧
        List.Forall₂ (fun step set => step.fragment ∈ set.fragments) done taken ∧
        Chooses (boundAfter bound done) pending step := by
  obtain ⟨sets, hsets, hgreedy⟩ := greedy_of_gives hp
  refine ⟨sets, hsets, fun done step later hsteps => ?_⟩
  rw [hsteps] at hgreedy
  obtain ⟨taken, pending, hperm, hsub, hdone, hrest, hkept⟩ :=
    hgreedy.split (fun _ _ _ _ _ h hf hdeps => h.step hf hdeps) (unseated_of_gives hsets hfresh hbound)
  exact ⟨taken, pending, hperm, hsub, hdone, hkept.chooses hrest⟩

/-! ## A scan and a step from it -/

namespace ScanThenPlayer

/-- `$x isa $t; $r (member: $x);` -/
def pattern : Conjunction :=
  ⟨[⟨.named "x", [.isa (.var (.named "t"))]⟩,
    ⟨.named "r", [.relation [⟨some ⟨"member"⟩, .named "x"⟩]]⟩]⟩

/-- The link to the player, with the first variable that is drawn for its casting. -/
def link : RoleLink :=
  ⟨.named "r", .generated 0, .named "x", some (FragmentSet.only ⟨"member"⟩), none⟩

/-- The instances are scanned, and the relations are found from what was scanned. -/
def program : Program :=
  ⟨[⟨.outIsa (.named "x") (.named "t"), .scan, true, "$x isa $t"⟩,
    ⟨.inPlayer link, .playersPerRole, false, "$r (member: $x)"⟩]⟩

theorem freshFrom_pattern (n : Nat) : pattern.FreshFrom n := by
  rintro k - ⟨s, hs, p, hp, hv⟩
  rcases List.mem_pair.mp hs with rfl | rfl
  · obtain rfl := List.mem_singleton.mp hp
    exact hv.elim (Var.generated_ne_named k _) (Var.generated_ne_named k _)
  · obtain rfl := List.mem_singleton.mp hp
    obtain ⟨q, hq, hv⟩ := hv
    obtain rfl := List.mem_singleton.mp hq
    exact hv.elim (Var.generated_ne_named k _) (Var.generated_ne_named k _)

theorem gives_program : (planWithBound pattern .empty).Gives {} program { vars := 1 } := by
  rfl

/-- First the scan, with nothing bound, then the step from the instances that it has found. -/
theorem scans_only_when_unavoidable_player : pattern.FreshFrom 0 ∧
    (∀ k, 0 ≤ k → Var.generated k ∉ SortedSet.empty) ∧
    (planWithBound pattern .empty).Gives {} program { vars := 1 } ∧
    ∃ sets, (FragmentSet.ofConjunction pattern).Gives {} sets { vars := 1 } ∧
      ∀ done step later, program.steps = done ++ step :: later → ∃ taken pending,
        (taken ++ pending).Perm sets ∧ pending.Sublist sets ∧
        List.Forall₂ (fun step set => step.fragment ∈ set.fragments) done taken ∧
        Chooses (boundAfter .empty done) pending step := by
  have hbound : ∀ k, 0 ≤ k → Var.generated k ∉ SortedSet.empty :=
    fun k _ => SortedSet.not_mem_empty (Var.generated k)
  exact ⟨freshFrom_pattern 0, hbound, gives_program,
    scans_only_when_unavoidable (freshFrom_pattern 0) hbound gives_program⟩

end ScanThenPlayer

end Planner

end GraphInference
