import GraphInference.Proofs.Pattern.Reading
import GraphInference.Proofs.Traversal.Execution

/-!
# What a program finds of a pattern

A match of a conjunction binds the variables that the conjunction names to concepts of which it holds.
A plan of the conjunction finds the matches, with generated variables besides:
`Conjunction.execute_plan`.
-/

namespace GraphInference

/-! ## Solutions -/

namespace FragmentSet.Conveys

variable {g : Graph} {m n : Nat} {sets : List FragmentSet} {names : Var → Prop}
  {P : (Var → Option ConceptId) → Prop} {a b : Assignment} {v : Var}

theorem contains_iff (h : Conveys g m n sets names P) (ha : Solution g sets .empty a) :
    a.contains v = true ↔ names v ∨ Hidden m n v := by
  rw [ha.domain, ← h.mentions]
  exact or_iff_right Bool.false_ne_true

theorem concept?_eq_none (h : Conveys g m n sets names P) (ha : Solution g sets .empty a)
    (hv : ¬ names v) (hhidden : ¬ Hidden m n v) : a.concept? v = none := by
  have hoff : a.contains v = false := by
    rw [← Bool.not_eq_true, h.contains_iff ha]
    exact not_or.mpr ⟨hv, hhidden⟩
  rw [Assignment.concept?, SortedMap.contains_eq_false_iff.mp hoff]
  rfl

/-- A binding of which the sets convey the truth is a part of a solution. -/
theorem exists_solution (hg : g.WellFormed) (hbal : Balanced sets) (hgrounded : Grounded sets)
    (h : Conveys g m n sets names P) (hfresh : ∀ k, m ≤ k → ¬ names (.generated k)) {look : Binding}
    (hP : P look.find?) :
    ∃ a, Solution g sets .empty a ∧ ∀ v, names v → a.concept? v = look.find? v := by
  classical
  let start : Assignment := .ofList (look.entries.map fun e => (e.1, g.element e.2))
  have hstart (v : Var) : start.find? v = (look.find? v).map g.element :=
    look.find?_ofList_map g.element v
  obtain ⟨b, hb, hholds⟩ := h.complete hfresh look.find? start hP fun v _ => hstart v
  let a := b.restrict fun v => decide (names v ∨ Hidden m n v)
  have hfind (v : Var) : a.find? v = if names v ∨ Hidden m n v then b.find? v else none := by
    simp only [a, SortedMap.find?_restrict, decide_eq_true_eq]
  have helement (v : Var) (hv : names v ∨ Hidden m n v) :
      ∃ e, b.find? v = some e ∧ g.HasElement e := by
    obtain ⟨s, hs, hmentions⟩ := (h.mentions v).mpr hv
    exact exists_element_of_grounded hg hbal hgrounded hholds hs hmentions
  refine ⟨a, ⟨fun v id hv => (nomatch hv), fun v => ?_, fun v e hv => ?_, fun s hs => ?_⟩,
    fun v hv => ?_⟩
  · have hnone : ¬ (SortedMap.empty : Binding).contains v = true := Bool.false_ne_true
    rw [h.mentions, or_iff_right hnone, SortedMap.contains, hfind]
    split
    · next hv =>
      obtain ⟨e, he, -⟩ := helement v hv
      exact iff_of_true (by rw [he]; rfl) hv
    · next hv => exact iff_of_false Bool.false_ne_true hv
  · rw [hfind] at hv
    split at hv
    · next hnamed =>
      obtain ⟨e', he', hHas⟩ := helement v hnamed
      obtain rfl := Option.some.inj (hv.symm.trans he')
      exact hHas
    · cases hv
  · refine (hholds s hs).congr_mentions fun v hv => ?_
    rw [hfind, if_pos ((h.mentions v).mp ⟨s, hs, hv⟩)]
  · have hout : ¬ Hidden m n v := by
      rintro ⟨k, hk, -, rfl⟩
      exact hfresh k hk hv
    rw [Assignment.concept?, hfind, if_pos (.inl hv), hb v hout, hstart]
    cases look.find? v with
    | none => rfl
    | some id => exact g.conceptId?_element id

end FragmentSet.Conveys

/-! ## Matches -/

namespace Conjunction

/-- A binding of the variables that the conjunction names, of which the conjunction holds. -/
structure IsMatch (c : Conjunction) (g : Graph) (m : Binding) : Prop where
  domain : ∀ v, m.contains v = true ↔ c.Names v
  reads : c.Reads g m.find?

/-- The concepts of the named variables make a match if the conjunction holds of them. -/
theorem exists_isMatch {g : Graph} {c : Conjunction} {look : Binding} (h : c.Reads g look.find?) :
    ∃ m, c.IsMatch g m ∧ ∀ v, c.Names v → m.find? v = look.find? v := by
  classical
  let m := look.restrict fun v => decide (c.Names v)
  have hfind (v : Var) : m.find? v = if c.Names v then look.find? v else none := by
    simp only [m, SortedMap.find?_restrict, decide_eq_true_eq]
  have hnamed (v : Var) (hv : c.Names v) : m.find? v = look.find? v := by rw [hfind, if_pos hv]
  refine ⟨m, ⟨fun v => ?_, h.congr fun v hv => (hnamed v hv).symm⟩, hnamed⟩
  by_cases hv : c.Names v
  · obtain ⟨id, hid⟩ := h.exists_of_names hv
    rw [SortedMap.contains, hnamed v hv, hid]
    exact iff_of_true rfl hv
  · rw [SortedMap.contains, hfind, if_neg hv]
    exact iff_of_false Bool.false_ne_true hv

/-- Running a plan of a conjunction finds the matches, with generated variables besides. -/
theorem execute_plan {g : Graph} (hg : g.Reachable) {c : Conjunction} {s t : Supply}
    (hfresh : c.FreshFrom s.vars) {p : Program}
    (hp : (Planner.planWithBound c .empty).Gives s p t) :
    ∃ bs, p.execute g .empty = .ok bs ∧
      (∀ b ∈ bs, ∃ m, c.IsMatch g m ∧
        ∀ v, ¬ FragmentSet.Hidden s.vars t.vars v → b.find? v = m.find? v) ∧
      ∀ m, c.IsMatch g m → ∃ b ∈ bs,
        ∀ v, ¬ FragmentSet.Hidden s.vars t.vars v → b.find? v = m.find? v := by
  have hwf := hg.wellFormed
  obtain ⟨sets, hsets, horder⟩ := Planner.order_of_gives hp
  have hbal := FragmentSet.ofConjunction_balanced hsets
  have hstart : ∀ v id, (SortedMap.empty : Binding).find? v = some id → g.Holds id :=
    fun v id h => nomatch h
  obtain ⟨bs, hexecute, -, hbs⟩ := Program.exists_execute hwf hbal hstart horder
  have hconveys := FragmentSet.conveys_of_gives hwf hsets
  have hnone {m : Binding} (hm : c.IsMatch g m) {v : Var} (hv : ¬ c.Names v) : m.find? v = none := by
    rw [← hm.domain, Bool.not_eq_true, SortedMap.contains_eq_false_iff] at hv
    exact hv
  refine ⟨bs, hexecute, fun b hb => ?_, fun m hm => ?_⟩
  · obtain ⟨a, ha, hba⟩ := (hbs b).mp hb
    have hreads : c.Reads g b.find? :=
      (hconveys.sound a ha.holds).congr fun v _ => (hba v).symm
    obtain ⟨m, hm, hmb⟩ := exists_isMatch hreads
    refine ⟨m, hm, fun v hv => ?_⟩
    by_cases hnamed : c.Names v
    · exact (hmb v hnamed).symm
    · rw [hnone hm hnamed, hba]
      exact hconveys.concept?_eq_none ha hnamed hv
  · obtain ⟨a, ha, hlook⟩ := hconveys.exists_solution hwf hbal
      (FragmentSet.ofConjunction_grounded hsets) hfresh hm.reads
    refine ⟨Program.conceptBinding a, (hbs _).mpr ⟨a, ha, Program.find?_conceptBinding a⟩,
      fun v hv => ?_⟩
    rw [Program.find?_conceptBinding]
    by_cases hnamed : c.Names v
    · exact hlook v hnamed
    · rw [hnone hm hnamed]
      exact hconveys.concept?_eq_none ha hnamed hv

end Conjunction

end GraphInference
