import GraphInference.Proofs.Traversal.Execution

/-!
# Valid programs

A program is valid if no step takes a variable before it is bound. Validity does not settle what a
program finds: where a step has to try every element for its start, it tries instances only, and so a
solution that puts a schema concept there is out of its reach. Two valid programs for the same fragment
sets agree exactly if they reach the same solutions: `execute_eq_iff_of_isValid`.
-/

namespace GraphInference

namespace Program

variable {g : Graph}

/-- The program takes one fragment of each set, in any order. -/
def Picks (p : Program) (sets : List FragmentSet) : Prop :=
  ∃ sets' : List FragmentSet, sets'.Perm sets ∧
    List.Forall₂ (fun step set => step.fragment ∈ set.fragments) p.steps sets'

/-- The binding has an instance wherever the program has to try every element. -/
def Reaches (p : Program) (g : Graph) (bound : SortedSet Var) (b : Binding) : Prop :=
  ∀ f, ScansFrom f (· ∈ bound) p.steps → ∃ id, b.find? f.start = some id ∧ g.HoldsThing id

/-- Only steps of which no variable is bound before are marked as starts of the traversal. -/
def MarkedFrom : (Var → Prop) → List PlannedStep → Prop
  | _, [] => True
  | bound, s :: rest =>
    (s.startsTraversal = true → ∀ v ∈ s.fragment.vars, ¬ bound v) ∧
      MarkedFrom (fun v => bound v ∨ v ∈ s.fragment.vars) rest

theorem suppliedFrom_of_validFrom {steps : List PlannedStep} {bound : SortedSet Var}
    (h : validFrom bound steps = true) : SuppliedFrom (· ∈ bound) steps := by
  induction steps generalizing bound with
  | nil => trivial
  | cons s steps ih =>
    simp only [validFrom, Bool.and_eq_true] at h
    obtain ⟨⟨hdeps, -⟩, hrest⟩ := h
    have hunion : (fun v => v ∈ bound ∨ v ∈ s.fragment.vars) = (· ∈ bound.union s.fragment.vars) :=
      funext fun v => propext SortedSet.mem_union.symm
    refine ⟨SortedSet.subset_iff.mp hdeps, ?_⟩
    rw [hunion]
    exact ih hrest

/-- An assignment puts a graph element to a variable that a scan visits if its concept is an instance. -/
theorem exists_mem_elements_iff (hg : g.WellFormed) {a : Assignment} (ha : a.Sound g) {b : Binding}
    (hb : ∀ v, b.find? v = (a.find? v).bind Element.conceptId?) {v : Var} :
    (∃ e ∈ g.elements, a.find? v = some e) ↔ ∃ id, b.find? v = some id ∧ g.HoldsThing id := by
  constructor
  · rintro ⟨e, he, hv⟩
    obtain ⟨id, hid, rfl⟩ := hg.mem_elements.mp he
    refine ⟨id, ?_, hid⟩
    rw [hb, hv, Option.bind_some, Graph.conceptId?_element]
  · rintro ⟨id, hv, hid⟩
    rw [hb, Option.bind_eq_some_iff] at hv
    obtain ⟨e, hv, he⟩ := hv
    obtain rfl := (ha v e hv).eq_element he
    exact ⟨_, hg.mem_elements.mpr ⟨id, hid, rfl⟩, hv⟩

/-- A valid program finds those bindings of the solutions that it reaches, each once and in order. -/
theorem exists_execute_of_isValid (hg : g.WellFormed) {sets : List FragmentSet}
    (hbal : FragmentSet.Balanced sets) {start : Binding}
    (hstart : ∀ v id, start.find? v = some id → g.Holds id) {p : Program} (hp : p.Picks sets)
    (hvalid : p.isValid (.ofList start.keys) = true) :
    ∃ bs, p.execute g start = .ok bs ∧ (bs.Pairwise fun b b' => compare b b' = .lt) ∧
      ∀ b, b ∈ bs ↔ ∃ a, Solution g sets start a ∧
        (∀ v, b.find? v = (a.find? v).bind Element.conceptId?) ∧
          p.Reaches g (.ofList start.keys) b := by
  obtain ⟨sets', hperm, hforall⟩ := hp
  obtain ⟨bs, hbs, hascending, hmem⟩ := exists_execute_of_mem hstart
    (P := fun d => Solution g sets start d ∧
      ∀ f, ScansFrom f (· ∈ SortedSet.ofList start.keys) p.steps →
        ∃ e ∈ g.elements, d.find? f.start = some e) fun a ha hfind d => by
    have hbound := contains_eq_mem_keys hfind
    rw [mem_runSteps_iff_scans hg ha (hbound ▸ suppliedFrom_of_validFrom hvalid),
      completes_iff_solution hbal hperm hforall hfind, hbound]
  refine ⟨bs, hbs, hascending, fun b => (hmem b).trans (exists_congr fun a => ?_)⟩
  rw [and_assoc]
  refine and_congr_right fun ha => ?_
  rw [and_comm]
  exact and_congr_right fun hb =>
    forall₂_congr fun f _ => exists_mem_elements_iff hg ha.elements hb

/-- A program that tries every element for outward steps only reaches every solution. -/
theorem reaches_of_outward (hg : g.WellFormed) {sets : List FragmentSet}
    (hbal : FragmentSet.Balanced sets) {p : Program} (hp : p.Picks sets) {bound : SortedSet Var}
    (hvalid : p.isValid bound = true)
    (houtward : ∀ f, ScansFrom f (· ∈ bound) p.steps → f.direction = .outward) {start : Binding}
    {a : Assignment} (ha : Solution g sets start a) {b : Binding}
    (hb : ∀ v, b.find? v = (a.find? v).bind Element.conceptId?) : p.Reaches g bound b := by
  obtain ⟨sets', hperm, hforall⟩ := hp
  have hholds := (forall_holds_iff hbal hperm hforall).mpr ha.holds
  exact fun f hf => (exists_mem_elements_iff hg ha.elements hb).mp
    ((suppliedFrom_of_validFrom hvalid).start_mem_elements hg houtward hholds f hf)

/-- Two valid programs for the same sets find the same bindings exactly if they reach the same
solutions. -/
theorem execute_eq_iff (hg : g.WellFormed) {sets : List FragmentSet}
    (hbal : FragmentSet.Balanced sets) {p q : Program} (hp : p.Picks sets) (hq : q.Picks sets)
    (hpvalid : p.isValid .empty = true) (hqvalid : q.isValid .empty = true) :
    ∃ bs bs', p.execute g .empty = .ok bs ∧ q.execute g .empty = .ok bs' ∧
      (∀ b, b ∈ bs ↔ ∃ a, Solution g sets .empty a ∧
        (∀ v, b.find? v = (a.find? v).bind Element.conceptId?) ∧ p.Reaches g .empty b) ∧
      (bs = bs' ↔ ∀ a b, Solution g sets .empty a →
        (∀ v, b.find? v = (a.find? v).bind Element.conceptId?) →
          (p.Reaches g .empty b ↔ q.Reaches g .empty b)) := by
  have hstart : ∀ v id, (SortedMap.empty : Binding).find? v = some id → g.Holds id :=
    fun _ _ h => nomatch h
  obtain ⟨bs, hbs, hascending, hmem⟩ := exists_execute_of_isValid hg hbal hstart hp hpvalid
  obtain ⟨bs', hbs', hascending', hmem'⟩ := exists_execute_of_isValid hg hbal hstart hq hqvalid
  have hreaches {r : Program} {l : List Binding} (hl : ∀ b, b ∈ l ↔ ∃ a, Solution g sets .empty a ∧
      (∀ v, b.find? v = (a.find? v).bind Element.conceptId?) ∧ r.Reaches g .empty b) {a : Assignment}
      {b : Binding} (ha : Solution g sets .empty a)
      (hb : ∀ v, b.find? v = (a.find? v).bind Element.conceptId?) :
      r.Reaches g .empty b ↔ b ∈ l := by
    rw [hl]
    exact ⟨fun h => ⟨a, ha, hb, h⟩, fun ⟨_, _, _, h⟩ => h⟩
  refine ⟨bs, bs', hbs, hbs', hmem, ?_, fun h => ?_⟩
  · rintro rfl a b ha hb
    rw [hreaches hmem ha hb, hreaches hmem' ha hb]
  · refine eq_of_ascending_of_mem_iff hascending hascending' fun b => ?_
    rw [hmem, hmem']
    exact exists_congr fun a => and_congr_right fun ha => and_congr_right fun hb => h a b ha hb

/-- Valid programs in which outward steps alone try every element find the same bindings. -/
theorem execute_eq_of_outward (hg : g.WellFormed) {sets : List FragmentSet}
    (hbal : FragmentSet.Balanced sets) {p q : Program} (hp : p.Picks sets) (hq : q.Picks sets)
    (hpvalid : p.isValid .empty = true) (hqvalid : q.isValid .empty = true)
    (hpoutward : ∀ f, ScansFrom f (· ∈ SortedSet.empty) p.steps → f.direction = .outward)
    (hqoutward : ∀ f, ScansFrom f (· ∈ SortedSet.empty) q.steps → f.direction = .outward) :
    p.execute g .empty = q.execute g .empty := by
  obtain ⟨bs, bs', hbs, hbs', -, hiff⟩ := execute_eq_iff hg hbal hp hq hpvalid hqvalid
  rw [hbs, hbs', hiff.mpr fun a b ha hb => iff_of_true
    (reaches_of_outward hg hbal hp hpvalid hpoutward ha hb)
    (reaches_of_outward hg hbal hq hqvalid hqoutward ha hb)]

/-- Two valid programs that take one fragment of each set of a conjunction both find bindings, and
find the same ones exactly if they reach the same solutions. -/
theorem execute_eq_iff_of_isValid (hg : g.Reachable) {c : Conjunction} {s t : Supply}
    {sets : List FragmentSet} (hsets : (FragmentSet.ofConjunction c).Gives s sets t) {p q : Program}
    (hp : p.Picks sets) (hq : q.Picks sets) (hpvalid : p.isValid .empty = true)
    (hqvalid : q.isValid .empty = true) :
    ∃ bs bs', p.execute g .empty = .ok bs ∧ q.execute g .empty = .ok bs' ∧
      (∀ b, b ∈ bs ↔ ∃ a, Solution g sets .empty a ∧
        (∀ v, b.find? v = (a.find? v).bind Element.conceptId?) ∧ p.Reaches g .empty b) ∧
      (bs = bs' ↔ ∀ a b, Solution g sets .empty a →
        (∀ v, b.find? v = (a.find? v).bind Element.conceptId?) →
          (p.Reaches g .empty b ↔ q.Reaches g .empty b)) :=
  execute_eq_iff hg.wellFormed (FragmentSet.ofConjunction_balanced hsets) hp hq hpvalid hqvalid

/-! ## Two programs for one pattern -/

namespace InwardStart

/-- A type with one instance. -/
def graph : Graph :=
  [.entityType ⟨"a"⟩, .entity ⟨"a"⟩].foldl Graph.perform {}

def pattern : Conjunction :=
  ⟨[⟨.named "x", [.isa (.var (.named "t"))]⟩]⟩

def sets : List FragmentSet :=
  [.isaStep "$x isa $t" (.named "x") (.named "t")]

/-- The program of one step, from a variable that is not bound. -/
def starting (f : Fragment) : Program :=
  ⟨[⟨f, f.startCost, true, ""⟩]⟩

def outward : Program := starting (.outIsa (.named "x") (.named "t"))

def inward : Program := starting (.inIsa (.named "t") (.named "x"))

theorem gives_sets : (FragmentSet.ofConjunction pattern).Gives {} sets {} := rfl

theorem picks_outward : outward.Picks sets := ⟨_, .refl _, .cons (.head _) .nil⟩

theorem picks_inward : inward.Picks sets := ⟨_, .refl _, .cons (.tail _ (.head _)) .nil⟩

/-- The step from the instance and the step from the type are both valid. -/
theorem execute_eq_iff_of_isValid_instance : graph.Reachable ∧ outward.isValid .empty = true ∧
    inward.isValid .empty = true ∧
    ∃ bs bs', outward.execute graph .empty = .ok bs ∧ inward.execute graph .empty = .ok bs' ∧
      (∀ b, b ∈ bs ↔ ∃ a, Solution graph sets .empty a ∧
        (∀ v, b.find? v = (a.find? v).bind Element.conceptId?) ∧ outward.Reaches graph .empty b) ∧
      (bs = bs' ↔ ∀ a b, Solution graph sets .empty a →
        (∀ v, b.find? v = (a.find? v).bind Element.conceptId?) →
          (outward.Reaches graph .empty b ↔ inward.Reaches graph .empty b)) :=
  ⟨⟨_, rfl⟩, rfl, rfl,
    execute_eq_iff_of_isValid ⟨_, rfl⟩ gives_sets picks_outward picks_inward rfl rfl⟩

/-- The step from the type tries instances for it and finds nothing, though it is valid, honestly
marked, and an alternative to the step from the instance. -/
theorem execute_inward_ne_outward : ¬ ∀ (g : Graph) (c : Conjunction) (s t : Supply)
    (sets : List FragmentSet) (p q : Program), g.Reachable →
    (FragmentSet.ofConjunction c).Gives s sets t → p.Picks sets → q.Picks sets →
    MarkedFrom (fun _ => False) p.steps → MarkedFrom (fun _ => False) q.steps →
    p.isValid .empty = true → q.isValid .empty = true →
    p.execute g .empty = q.execute g .empty := by
  intro h
  have hmarked (f : Fragment) : MarkedFrom (fun _ => False) (starting f).steps :=
    ⟨fun _ _ _ => id, trivial⟩
  have h := h graph pattern {} {} sets outward inward ⟨_, rfl⟩ gives_sets picks_outward picks_inward
    (hmarked _) (hmarked _) rfl rfl
  revert h
  decide +kernel

end InwardStart

end Program

end GraphInference
