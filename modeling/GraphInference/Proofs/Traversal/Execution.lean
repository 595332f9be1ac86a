import GraphInference.Proofs.Traversal.Planner

/-!
# The answers of a planned program

Planning a conjunction and running the program gives the bindings of the solutions of its fragment
sets and nothing else, whatever order the plan chose: `mem_execute_iff_solution`.
-/

namespace GraphInference

/-- An assignment of graph elements to the variables of fragment sets that extends a start and
under which every set holds. -/
structure Solution (g : Graph) (sets : List FragmentSet) (start : Binding) (a : Assignment) :
    Prop where
  extends_start : ∀ v id, start.find? v = some id → a.find? v = some (g.element id)
  domain : ∀ v, a.contains v = true ↔ start.contains v = true ∨ ∃ s ∈ sets, s.Mentions v
  elements : ∀ v e, a.find? v = some e → g.HasElement e
  holds : ∀ s ∈ sets, s.Holds g a

namespace Program

variable {g : Graph}

/-- Concepts are kept, castings dropped. -/
theorem find?_conceptBinding (a : Assignment) (v : Var) :
    (conceptBinding a).find? v = (a.find? v).bind Element.conceptId? :=
  a.find?_ofList_filterMap Element.conceptId? v

/-- A start of existing concepts puts them at their elements. -/
theorem initial_eq_ok {start : Binding} (h : ∀ v id, start.find? v = some id → g.Holds id) :
    ∃ a, initial g start = .ok a ∧ ∀ v, a.find? v = (start.find? v).map g.element := by
  have hfold : ∀ (l : List (Var × ConceptId)) (a : Assignment), (∀ e ∈ l, g.Holds e.2) →
      l.foldlM (fun a e => if (g.concept? e.2).isSome then .ok (a.insert e.1 (g.element e.2))
        else .error (.unknownConcept e.2.text)) a =
      (.ok ((l.map fun e => (e.1, g.element e.2)).foldl (fun m e => m.insert e.1 e.2) a) :
        Except InferenceError Assignment) := by
    intro l
    induction l with
    | nil => exact fun _ _ => rfl
    | cons e l ih =>
      intro a hl
      obtain ⟨he, hl⟩ := List.forall_mem_cons.mp hl
      rw [List.foldlM_cons, if_pos (Graph.isSome_concept?_iff.mpr he)]
      exact ih _ hl
  refine ⟨_, hfold start.entries .empty fun e he => ?_, start.find?_ofList_map g.element⟩
  exact h e.1 e.2 (SortedMap.find?_eq_some_iff.mpr he)

section

variable {sets sets' : List FragmentSet} {steps : List PlannedStep}

/-- The fragments that one takes of each set hold where the sets hold. -/
theorem forall_holds_iff (hsets : FragmentSet.Balanced sets) (hperm : sets'.Perm sets)
    (hforall : List.Forall₂ (fun step set => step.fragment ∈ set.fragments) steps sets')
    {b : Assignment} : (∀ s ∈ steps, s.fragment.Holds g b) ↔ ∀ s ∈ sets, s.Holds g b := by
  constructor
  · intro h set hset
    obtain ⟨step, hstep, hmem⟩ := exists_of_forall₂_of_mem hforall.flip (hperm.mem_iff.mpr hset)
    exact ⟨_, hmem, h step hstep⟩
  · intro h step hstep
    obtain ⟨set, hset, hmem⟩ := exists_of_forall₂_of_mem hforall hstep
    have hset := hperm.mem_iff.mp hset
    obtain ⟨f, hf, hfb⟩ := h set hset
    exact (((hsets set hset).alike hf hmem).2 g b).mp hfb

/-- The steps of a plan together ask for what the sets ask for. -/
theorem completes_iff_solution (hsets : FragmentSet.Balanced sets) (hperm : sets'.Perm sets)
    (hforall : List.Forall₂ (fun step set => step.fragment ∈ set.fragments) steps sets')
    {start : Binding} {a b : Assignment} (ha : ∀ v, a.find? v = (start.find? v).map g.element) :
    (a.Completes g (fun v => ∃ s ∈ steps, v ∈ s.fragment.vars) b ∧
      ∀ s ∈ steps, s.fragment.Holds g b) ↔ Solution g sets start b := by
  have hvars (v : Var) : (∃ s ∈ steps, v ∈ s.fragment.vars) ↔ ∃ s ∈ sets, s.Mentions v := by
    constructor
    · rintro ⟨step, hstep, hv⟩
      obtain ⟨set, hset, hmem⟩ := exists_of_forall₂_of_mem hforall hstep
      exact ⟨set, hperm.mem_iff.mp hset, _, hmem, hv⟩
    · rintro ⟨set, hset, f, hf, hv⟩
      obtain ⟨step, hstep, hmem⟩ := exists_of_forall₂_of_mem hforall.flip (hperm.mem_iff.mpr hset)
      exact ⟨step, hstep, (((hsets set hset).alike hf hmem).1 v).mp hv⟩
  have hholds := forall_holds_iff (g := g) (b := b) hsets hperm hforall
  have hcontains (v : Var) : a.contains v = start.contains v := by
    rw [SortedMap.contains, ha, Option.isSome_map, SortedMap.contains]
  constructor
  · rintro ⟨hcomp, hsteps⟩
    refine ⟨fun v id hv => hcomp.keeps v _ ?_, fun v => ?_, hcomp.elements, hholds.mp hsteps⟩
    · rw [ha, hv, Option.map_some]
    · rw [hcomp.domain, hvars, hcontains]
  · rintro ⟨hstart, hdomain, helements, hb⟩
    refine ⟨⟨fun v e hv => ?_, fun v => ?_, helements⟩, hholds.mpr hb⟩
    · rw [ha, Option.map_eq_some_iff] at hv
      obtain ⟨id, hid, rfl⟩ := hv
      exact hstart v id hid
    · rw [hdomain, hvars, hcontains]

end

/-- A start leaves just its own variables bound. -/
theorem contains_eq_mem_keys {start : Binding} {a : Assignment}
    (ha : ∀ v, a.find? v = (start.find? v).map g.element) :
    (a.contains · = true) = (· ∈ SortedSet.ofList start.keys) := by
  funext v
  rw [SortedSet.mem_ofList, SortedMap.mem_keys_iff, SortedMap.contains, ha, Option.isSome_map,
    SortedMap.contains]

/-- What a program gives are the bindings of the assignments that its steps give, each once and in
order. -/
theorem exists_execute_of_mem {start : Binding} {steps : List PlannedStep} {P : Assignment → Prop}
    (hstart : ∀ v id, start.find? v = some id → g.Holds id)
    (hsteps : ∀ a : Assignment, a.Sound g → (∀ v, a.find? v = (start.find? v).map g.element) →
      ∀ d, d ∈ runSteps g [a] steps ↔ P d) :
    ∃ bs, execute ⟨steps⟩ g start = .ok bs ∧ (bs.Pairwise fun b b' => compare b b' = .lt) ∧
      ∀ b, b ∈ bs ↔ ∃ a, P a ∧ ∀ v, b.find? v = (a.find? v).bind Element.conceptId? := by
  obtain ⟨a, ha, hfind⟩ := initial_eq_ok hstart
  have hsound : a.Sound g := fun v e hv => by
    rw [hfind, Option.map_eq_some_iff] at hv
    obtain ⟨id, hid, rfl⟩ := hv
    exact Graph.hasElement_element (hstart v id hid)
  refine ⟨(SortedSet.ofList ((runSteps g [a] steps).map conceptBinding)).toList, ?_,
    SortedSet.ascending _, fun b => ?_⟩
  · rw [execute, ha]
    rfl
  · rw [← SortedSet.mem_iff_mem_toList, SortedSet.mem_ofList, List.mem_map]
    refine exists_congr fun d => ?_
    rw [hsteps a hsound hfind]
    refine and_congr_right fun _ => ?_
    constructor
    · rintro rfl
      exact find?_conceptBinding d
    · intro h
      refine SortedMap.ext_find? fun v => ?_
      rw [find?_conceptBinding, h]

/-- Steps in an order that the planner gives find the bindings of the solutions, each once and in
order. -/
theorem exists_execute (hg : g.WellFormed) {sets : List FragmentSet}
    (hbal : FragmentSet.Balanced sets) {start : Binding}
    (hstart : ∀ v id, start.find? v = some id → g.Holds id) {steps : List PlannedStep}
    (horder : Planner.order (.ofList start.keys) sets.length sets = .ok steps) :
    ∃ bs, execute ⟨steps⟩ g start = .ok bs ∧ (bs.Pairwise fun b b' => compare b b' = .lt) ∧
      ∀ b, b ∈ bs ↔ ∃ a, Solution g sets start a ∧
        ∀ v, b.find? v = (a.find? v).bind Element.conceptId? := by
  obtain ⟨hready, sets', hperm, hforall⟩ := Planner.order_spec hbal horder
  refine exists_execute_of_mem hstart fun a ha hfind d => ?_
  rw [mem_runSteps_iff hg ha (contains_eq_mem_keys hfind ▸ hready),
    completes_iff_solution hbal hperm hforall hfind]

/-- Running the plan for a conjunction from a start of existing concepts gives, each once and in
order, the bindings of the solutions of the conjunction's fragment sets that extend the start. -/
theorem mem_execute_iff_solution (hg : g.Reachable) {c : Conjunction} {start : Binding}
    (hstart : ∀ v id, start.find? v = some id → g.Holds id) {s t : Supply} {p : Program}
    (hp : (Planner.planWithBound c (.ofList start.keys)).Gives s p t) :
    ∃ sets bs, (FragmentSet.ofConjunction c).Gives s sets t ∧ p.execute g start = .ok bs ∧
      (bs.Pairwise fun b b' => compare b b' = .lt) ∧
      ∀ b, b ∈ bs ↔ ∃ a, Solution g sets start a ∧
        ∀ v, b.find? v = (a.find? v).bind Element.conceptId? := by
  obtain ⟨sets, hsets, horder⟩ := Planner.order_of_gives hp
  obtain ⟨bs, hbs⟩ :=
    exists_execute hg.wellFormed (FragmentSet.ofConjunction_balanced hsets) hstart horder
  exact ⟨sets, bs, hsets, hbs⟩

/-- From the type in a graph of one person, `$x isa $t` finds the person. -/
theorem mem_execute_iff_solution_person :
    let g : Graph := [.entityType ⟨"person"⟩, .entity ⟨"person"⟩].foldl Graph.perform {}
    let start : Binding := SortedMap.empty.insert (.named "t") (Graph.nextId {} 'T')
    let c : Conjunction := ⟨[⟨.named "x", [.isa (.var (.named "t"))]⟩]⟩
    g.Reachable ∧ (∀ v id, start.find? v = some id → g.Holds id) ∧
      ∃ p t, (Planner.planWithBound c (.ofList start.keys)).Gives {} p t ∧
        ∃ sets bs, (FragmentSet.ofConjunction c).Gives {} sets t ∧ p.execute g start = .ok bs ∧
          (bs.Pairwise fun b b' => compare b b' = .lt) ∧
          ∀ b, b ∈ bs ↔ ∃ a, Solution g sets start a ∧
            ∀ v, b.find? v = (a.find? v).bind Element.conceptId? := by
  intro g start c
  have hg : g.Reachable := ⟨_, rfl⟩
  have hstart : ∀ v id, start.find? v = some id → g.Holds id := by
    intro v id h
    rw [SortedMap.find?_insert] at h
    split at h
    · obtain rfl := Option.some.inj h
      exact ⟨_, .head _, rfl⟩
    · cases h
  exact ⟨hg, hstart, _, _, rfl, mem_execute_iff_solution hg hstart rfl⟩

end Program

end GraphInference
