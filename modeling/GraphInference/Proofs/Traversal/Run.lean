import GraphInference.Proofs.Traversal.Step
import GraphInference.Traversal.Program

/-!
# What a program finds

A list of steps gives the completions for the variables of its fragments under which every fragment
holds and which put an instance wherever a step has to try every element: `mem_runSteps_iff_scans`.
If each step is ready when its turn comes, these are all the completions under which the fragments
hold: `mem_runSteps_iff`. The order of the steps does not occur in this.
-/

namespace GraphInference

namespace Assignment

theorem Completes.find?_eq {g : Graph} {a b : Assignment} {vs : Var → Prop}
    (h : a.Completes g vs b) {v : Var} (hv : a.contains v = true) : a.find? v = b.find? v := by
  obtain ⟨e, he⟩ := SortedMap.contains_iff_isSome.mp hv
  rw [he, h.keeps v e he]

/-- Without variables to add, only the assignment itself completes it. -/
theorem completes_none_iff {g : Graph} {a b : Assignment} (ha : a.Sound g) :
    a.Completes g (fun _ => False) b ↔ b = a := by
  constructor
  · intro h
    refine SortedMap.ext_find? fun v => ?_
    by_cases hv : a.contains v = true
    · exact (h.find?_eq hv).symm
    · have hb : b.contains v = false := by
        rw [← Bool.not_eq_true, h.domain v]
        simpa using hv
      rw [SortedMap.contains_eq_false_iff.mp hb,
        SortedMap.contains_eq_false_iff.mp (Bool.eq_false_of_not_eq_true hv)]
  · rintro rfl
    exact ⟨fun _ _ => id, fun v => by simp, ha⟩

theorem Completes.trans {g : Graph} {a b c : Assignment} {vs ws : Var → Prop}
    (hb : a.Completes g vs b) (hc : b.Completes g ws c) :
    a.Completes g (fun v => vs v ∨ ws v) c where
  keeps v e h := hc.keeps v e (hb.keeps v e h)
  domain v := by rw [hc.domain, hb.domain, or_assoc]
  elements := hc.elements

/-- A completion for more variables goes through one for fewer. -/
theorem Completes.split {g : Graph} {a c : Assignment} {vs ws : Var → Prop}
    (h : a.Completes g (fun v => vs v ∨ ws v) c) :
    ∃ b, a.Completes g vs b ∧ b.Completes g ws c := by
  classical
  let b := c.restrict fun v => decide (a.contains v = true ∨ vs v)
  have hfind (v : Var) : b.find? v = if a.contains v = true ∨ vs v then c.find? v else none := by
    simp only [b, SortedMap.find?_restrict, decide_eq_true_eq]
  have hdomain (v : Var) : b.contains v = true ↔ a.contains v = true ∨ vs v := by
    rw [SortedMap.contains, hfind]
    split
    · next hv => exact iff_of_true ((h.domain v).mpr (or_assoc.mp (.inl hv))) hv
    · next hv => exact iff_of_false (by simp) hv
  have hkeeps (v : Var) (e : Element) (he : b.find? v = some e) : c.find? v = some e := by
    rw [hfind] at he
    split at he
    · exact he
    · cases he
  refine ⟨b, ⟨fun v e he => ?_, hdomain, fun v e he => h.elements v e (hkeeps v e he)⟩, hkeeps,
    fun v => ?_, h.elements⟩
  · rw [hfind, if_pos (.inl (SortedMap.contains_iff_isSome.mpr ⟨e, he⟩))]
    exact h.keeps v e he
  · rw [hdomain, h.domain, or_assoc]

end Assignment

namespace Program

/-- Each step is ready once `bound` and the variables of the steps before it are bound. -/
def ReadyFrom : (Var → Prop) → List PlannedStep → Prop
  | _, [] => True
  | bound, s :: rest =>
    s.fragment.Ready bound ∧ ReadyFrom (fun v => bound v ∨ v ∈ s.fragment.vars) rest

/-- Assignments do not interfere with each other. -/
theorem mem_runSteps {g : Graph} {steps : List PlannedStep} {states : List Assignment}
    {b : Assignment} : b ∈ runSteps g states steps ↔ ∃ a ∈ states, b ∈ runSteps g [a] steps := by
  induction steps generalizing states with
  | nil => simp [runSteps]
  | cons s steps ih =>
    simp only [runSteps, List.flatMap_cons, List.flatMap_nil, List.append_nil]
    rw [ih]
    simp only [List.mem_flatMap]
    constructor
    · rintro ⟨c, ⟨a, ha, hc⟩, hb⟩
      exact ⟨a, ha, ih.mpr ⟨c, hc, hb⟩⟩
    · rintro ⟨a, ha, hb⟩
      obtain ⟨c, hc, hb⟩ := ih.mp hb
      exact ⟨c, ⟨a, ha, hc⟩, hb⟩

/-- What each step depends on is bound once `bound` and the variables of the steps before it are. -/
def SuppliedFrom : (Var → Prop) → List PlannedStep → Prop
  | _, [] => True
  | bound, s :: rest =>
    (∀ v ∈ s.fragment.dependencies, bound v) ∧
      SuppliedFrom (fun v => bound v ∨ v ∈ s.fragment.vars) rest

/-- A step with the fragment has to try every element for its start, with `bound` and the variables of
the steps before it bound. -/
def ScansFrom (f : Fragment) : (Var → Prop) → List PlannedStep → Prop
  | _, [] => False
  | bound, s :: rest =>
    (s.fragment = f ∧ ¬ bound f.start ∧ f.isIndexed = false) ∨
      ScansFrom f (fun v => bound v ∨ v ∈ s.fragment.vars) rest

/-- A list of steps gives the completions under which all its fragments hold and in which instances
stand wherever a step tries every element. -/
theorem mem_runSteps_iff_scans {g : Graph} (hg : g.WellFormed) {steps : List PlannedStep}
    {a b : Assignment} (ha : a.Sound g) (hsupplied : SuppliedFrom (a.contains · = true) steps) :
    b ∈ runSteps g [a] steps ↔
      (a.Completes g (fun v => ∃ s ∈ steps, v ∈ s.fragment.vars) b ∧
        ∀ s ∈ steps, s.fragment.Holds g b) ∧
      ∀ f, ScansFrom f (a.contains · = true) steps → ∃ e ∈ g.elements, b.find? f.start = some e := by
  induction steps generalizing a with
  | nil => simp [runSteps, ScansFrom, Assignment.completes_none_iff ha]
  | cons s steps ih =>
    obtain ⟨hs, hrest⟩ := hsupplied
    have hdomain {c : Assignment} (hc : a.Completes g (· ∈ s.fragment.vars) c) :
        (c.contains · = true) = fun v => a.contains v = true ∨ v ∈ s.fragment.vars :=
      funext fun v => propext (hc.domain v)
    have hkeep {c : Assignment} {vs : Var → Prop} (hc : a.Completes g (· ∈ s.fragment.vars) c)
        (hb : c.Completes g vs b) {v : Var} (hv : v ∈ s.fragment.vars) : c.find? v = b.find? v :=
      hb.find?_eq ((hc.domain v).mpr (.inr hv))
    have hholds {c : Assignment} {vs : Var → Prop} (hc : a.Completes g (· ∈ s.fragment.vars) c)
        (hb : c.Completes g vs b) : s.fragment.Holds g c ↔ s.fragment.Holds g b :=
      Fragment.Holds.congr fun v => hkeep hc hb
    simp only [runSteps, List.flatMap_cons, List.flatMap_nil, List.append_nil,
      List.exists_mem_cons_iff, List.forall_mem_cons]
    rw [mem_runSteps]
    constructor
    · rintro ⟨c, hc, hb⟩
      obtain ⟨⟨hcomp, hc⟩, hscan⟩ := (Fragment.mem_run_iff_scan hg ha hs).mp hc
      obtain ⟨⟨hcomp', hc'⟩, hscans⟩ := (ih hcomp.elements (hdomain hcomp ▸ hrest)).mp hb
      refine ⟨⟨hcomp.trans hcomp', (hholds hcomp hcomp').mp hc, hc'⟩, ?_⟩
      rintro f (⟨rfl, hstart, hindexed⟩ | hf)
      · rw [← hkeep hcomp hcomp' (Fragment.start_mem_vars _)]
        exact hscan hstart hindexed
      · exact hscans f (hdomain hcomp ▸ hf)
    · rintro ⟨⟨hcomp, hs', hsteps⟩, hscans⟩
      obtain ⟨c, hc, hcb⟩ := hcomp.split
      refine ⟨c, (Fragment.mem_run_iff_scan hg ha hs).mpr ⟨⟨hc, (hholds hc hcb).mpr hs'⟩, ?_⟩, ?_⟩
      · rw [hkeep hc hcb (Fragment.start_mem_vars _)]
        exact fun hstart hindexed => hscans _ (.inl ⟨rfl, hstart, hindexed⟩)
      · refine (ih hc.elements (hdomain hc ▸ hrest)).mpr ⟨⟨hcb, hsteps⟩, fun f hf => ?_⟩
        exact hscans f (.inr (hdomain hc ▸ hf))

theorem ReadyFrom.suppliedFrom {steps : List PlannedStep} {bound : Var → Prop}
    (h : ReadyFrom bound steps) : SuppliedFrom bound steps := by
  induction steps generalizing bound with
  | nil => trivial
  | cons s steps ih => exact ⟨h.1.dependencies, ih h.2⟩

theorem ScansFrom.exists_step {f : Fragment} {steps : List PlannedStep} {bound : Var → Prop}
    (h : ScansFrom f bound steps) : ∃ s ∈ steps, s.fragment = f := by
  induction steps generalizing bound with
  | nil => cases h
  | cons s steps ih =>
    rcases h with ⟨hf, -⟩ | h
    · exact ⟨s, .head _, hf⟩
    · obtain ⟨s', hs', hf⟩ := ih h
      exact ⟨s', .tail _ hs', hf⟩

/-- A step that tries every element depends on nothing: its start would be bound. -/
theorem SuppliedFrom.of_scansFrom {f : Fragment} {steps : List PlannedStep} {bound : Var → Prop}
    (h : SuppliedFrom bound steps) (hf : ScansFrom f bound steps) :
    f.dependencies = .empty ∧ f.isIndexed = false := by
  induction steps generalizing bound with
  | nil => cases hf
  | cons s steps ih =>
    rcases hf with ⟨rfl, hstart, hindexed⟩ | hf
    · refine ⟨?_, hindexed⟩
      by_contra hne
      exact hstart (h.1 _ (Fragment.start_mem_dependencies hne))
    · exact ih h.2 hf

/-- Of the fragments that are ready in their turn only outward ones try every element. -/
theorem ReadyFrom.outward_of_scansFrom {f : Fragment} {steps : List PlannedStep} {bound : Var → Prop}
    (h : ReadyFrom bound steps) (hf : ScansFrom f bound steps) : f.direction = .outward := by
  induction steps generalizing bound with
  | nil => cases hf
  | cons s steps ih =>
    rcases hf with ⟨rfl, hstart, hindexed⟩ | hf
    · exact ((h.1.start.resolve_left hstart).resolve_left (by simp [hindexed])).2
    · exact ih h.2 hf

/-- Where outward steps alone try every element, they find an instance at each start. -/
theorem SuppliedFrom.start_mem_elements {g : Graph} (hg : g.WellFormed) {steps : List PlannedStep}
    {bound : Var → Prop} (h : SuppliedFrom bound steps)
    (houtward : ∀ f, ScansFrom f bound steps → f.direction = .outward) {b : Assignment}
    (hb : ∀ s ∈ steps, s.fragment.Holds g b) :
    ∀ f, ScansFrom f bound steps → ∃ e ∈ g.elements, b.find? f.start = some e := by
  intro f hf
  obtain ⟨hdeps, hindexed⟩ := h.of_scansFrom hf
  have hdir := houtward f hf
  obtain ⟨s, hs, rfl⟩ := hf.exists_step
  exact (hb s hs).start_mem_elements hg hdir hdeps hindexed

/-- A list of ready steps gives exactly the completions under which all its fragments hold. -/
theorem mem_runSteps_iff {g : Graph} (hg : g.WellFormed) {steps : List PlannedStep}
    {a b : Assignment} (ha : a.Sound g) (hready : ReadyFrom (a.contains · = true) steps) :
    b ∈ runSteps g [a] steps ↔
      a.Completes g (fun v => ∃ s ∈ steps, v ∈ s.fragment.vars) b ∧
        ∀ s ∈ steps, s.fragment.Holds g b := by
  rw [mem_runSteps_iff_scans hg ha hready.suppliedFrom]
  exact and_iff_left_of_imp fun h =>
    hready.suppliedFrom.start_mem_elements hg (fun _ => hready.outward_of_scansFrom) h.2

end Program

end GraphInference
