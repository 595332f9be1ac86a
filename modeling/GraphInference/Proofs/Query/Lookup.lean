import GraphInference.Proofs.Pattern.Matching
import GraphInference.Proofs.Query.Reading
import GraphInference.Proofs.Resolution.Computation
import GraphInference.Proofs.Traversal.Kept

/-!
# What a look-up finds

The answers that a query finds in the graph are its matches, each once, projected to the user-defined
variables: `Resolve.matches_of_gives_lookup`. Whether the query is planned or an earlier plan of it is at hand
makes no difference, as long as the query names none of the variables generated for its plan.
-/

namespace GraphInference

/-! ## Solutions -/

/-- The named variables decide which concepts a solution has. -/
theorem FragmentSet.Says.concept?_eq {g : Graph} {m n : Nat} {sets : List FragmentSet}
    {names : Var → Prop} {P : (Var → Option ConceptId) → Prop} {a b : Assignment}
    (h : Says g m n sets names P) (ha : Solution g sets .empty a) (hb : Solution g sets .empty b)
    (heq : ∀ v, names v → a.concept? v = b.concept? v) (v : Var) : a.concept? v = b.concept? v := by
  by_cases hv : names v
  · exact heq v hv
  · by_cases hhidden : Hidden m n v
    · exact h.determined a b ha.holds hb.holds v hhidden
    · rw [h.concept?_eq_none ha hv hhidden, h.concept?_eq_none hb hv hhidden]

/-! ## Matches -/

namespace AtomicQuery

/-- The variables that the statements of the query name. -/
def Names (q : AtomicQuery) (v : Var) : Prop :=
  ∃ a ∈ q.atoms, a.Names v

def Plain (q : AtomicQuery) : Prop :=
  ∀ a ∈ q.atoms, a.Plain

def Searchable (q : AtomicQuery) : Prop :=
  ∀ a ∈ q.atoms, a.Searchable

/-- The query names no variable that the supply has yet to generate. -/
def FreshFrom (q : AtomicQuery) (s : Supply) : Prop :=
  ∀ k, s.vars ≤ k → ¬ q.Names (.generated k)

/-- A binding of the variables that the query names under which every atom holds. -/
structure IsMatch (q : AtomicQuery) (g : Graph) (m : Binding) : Prop where
  domain : ∀ v, m.contains v = true ↔ q.Names v
  reads : ∀ a ∈ q.atoms, a.Matches g m.find?

open Classical in
/-- A binding without the variables that the query does not name. -/
noncomputable def named (q : AtomicQuery) (b : Binding) : Binding :=
  b.restrict fun v => decide (q.Names v)

theorem find?_named_of_names {q : AtomicQuery} {v : Var} (hv : q.Names v) (b : Binding) :
    (q.named b).find? v = b.find? v := by
  rw [named, SortedMap.find?_restrict, if_pos (by simpa using hv)]

theorem find?_named_of_not_names {q : AtomicQuery} {v : Var} (hv : ¬ q.Names v) (b : Binding) :
    (q.named b).find? v = none := by
  rw [named, SortedMap.find?_restrict, if_neg (by simpa using hv)]

/-- What a solution binds of the named variables is a match. -/
theorem isMatch_named {g : Graph} {q : AtomicQuery} {m n : Nat} {sets : List FragmentSet} {a : Assignment}
    {b : Binding}
    (hspells : FragmentSet.Says g m n sets q.Names fun look => ∀ a ∈ q.atoms, a.Matches g look)
    (ha : Solution g sets .empty a) (hb : ∀ v, b.find? v = a.concept? v) : q.IsMatch g (q.named b) := by
  have hreads := hspells.sound a ha.holds
  have hlook (v : Var) (hv : q.Names v) : a.concept? v = (q.named b).find? v := by
    rw [find?_named_of_names hv, hb]
  refine ⟨fun v => ?_, hspells.congr _ _ hlook hreads⟩
  by_cases hv : q.Names v
  · obtain ⟨id, hid⟩ := hspells.total _ hreads v hv
    rw [SortedMap.contains, ← hlook v hv, hid]
    exact iff_of_true rfl hv
  · rw [SortedMap.contains, find?_named_of_not_names hv]
    exact iff_of_false Bool.false_ne_true hv

theorem IsMatch.named_eq {g : Graph} {q : AtomicQuery} {m b : Binding} (hm : q.IsMatch g m)
    (h : ∀ v, q.Names v → b.find? v = m.find? v) : q.named b = m := by
  refine SortedMap.ext_find? fun v => ?_
  by_cases hv : q.Names v
  · rw [find?_named_of_names hv, h v hv]
  · rw [find?_named_of_not_names hv]
    rw [← hm.domain, Bool.not_eq_true, SortedMap.contains_eq_false_iff] at hv
    exact hv.symm

/-- Running a plan of a query finds the matches, each once, with generated variables besides. -/
theorem execute_plan {g : Graph} (hg : g.Reachable) {q : AtomicQuery} (hplain : q.Plain)
    {s t : Supply} (hfresh : q.FreshFrom s) {p : Program}
    (hp : (Planner.planWithBound q.toConjunction .empty).Gives s p t) :
    ∃ bs ms, p.execute g .empty = .ok bs ∧ ms.Nodup ∧ (∀ m, m ∈ ms ↔ q.IsMatch g m) ∧
      List.Forall₂ (fun b m => ∀ v : Var, v.userDefined = true → b.find? v = m.find? v) bs ms := by
  have hwf := hg.wellFormed
  obtain ⟨sets, hsets, horder⟩ := Planner.order_of_gives hp
  have hbal := FragmentSet.ofConjunction_balanced hsets
  have hstart : ∀ v id, (SortedMap.empty : Binding).find? v = some id → g.Holds id :=
    fun v id h => nomatch h
  obtain ⟨bs, hexecute, hascending, hbs⟩ := Program.exists_execute hwf hbal hstart horder
  have hspells : FragmentSet.Says g s.vars t.vars sets q.Names fun look =>
      ∀ a ∈ q.atoms, a.Matches g look := FragmentSet.says_of_gives hwf hplain hsets
  have hgrounded := FragmentSet.ofConjunction_grounded hsets
  refine ⟨bs, bs.map q.named, hexecute, ?_, fun m => ?_, ?_⟩
  · refine (nodup_of_ascending hascending).map_on fun b hb b' hb' heq => ?_
    obtain ⟨a, ha, hba⟩ := (hbs b).mp hb
    obtain ⟨a', ha', hba'⟩ := (hbs b').mp hb'
    refine SortedMap.ext_find? fun v => ?_
    rw [hba, hba']
    refine hspells.concept?_eq ha ha' (fun w hw => ?_) v
    have hsame := congrArg (SortedMap.find? · w) heq
    simpa only [find?_named_of_names hw, hba, hba', Assignment.concept?] using hsame
  · rw [List.mem_map]
    constructor
    · rintro ⟨b, hb, rfl⟩
      obtain ⟨a, ha, hba⟩ := (hbs b).mp hb
      exact isMatch_named hspells ha hba
    · intro hm
      obtain ⟨a, ha, hlook⟩ := hspells.exists_solution hwf hbal hgrounded hfresh hm.reads
      refine ⟨Program.conceptBinding a, (hbs _).mpr ⟨a, ha, Program.find?_conceptBinding a⟩,
        hm.named_eq fun v hv => ?_⟩
      rw [Program.find?_conceptBinding]
      exact hlook v hv
  · rw [List.forall₂_map_right_iff, List.forall₂_same]
    intro b hb v huser
    by_cases hv : q.Names v
    · exact (find?_named_of_names hv b).symm
    · rw [find?_named_of_not_names hv]
      obtain ⟨a, ha, hba⟩ := (hbs b).mp hb
      rw [hba]
      refine hspells.concept?_eq_none ha hv ?_
      rintro ⟨k, -, -, rfl⟩
      cases huser

end AtomicQuery

/-! ## Look-ups -/

/-- Every program that is kept under the text of the query was planned for it. -/
def Knowledge.KeepsPlansOf (k : Knowledge) (q : AtomicQuery) : Prop :=
  ∀ e ∈ k.programs.entries, e.1 = q.text → ∃ u t, q.FreshFrom u ∧
    (Planner.planWithBound q.toConjunction .empty).Gives u e.2 t

namespace Resolve

open Attempt

variable {k k' : Knowledge} {s s' : Supply} {q : AtomicQuery}

/-- A program is the kept one, or else the planned one. -/
theorem result_plan (c : Conjunction) (k : Knowledge) (s : Supply) :
    (((plan c).run.run k).run s).1.1 = match k.programs.entries.find? (·.1 = c.text) with
      | some e => .ok e.2
      | none => ((Planner.planWithBound c .empty).run s).1 := by
  have hrun : (((plan c).run.run k).run s).1.1 = ((ProgramCache.plan c k.programs).run s).1.1 := rfl
  rw [hrun, ProgramCache.run_plan, ProgramCache.get_fst]
  cases k.programs.entries.find? (·.1 = c.text) <;> rfl

/-- Planning changes the kept programs and nothing else that is known. -/
theorem run_of_gives_plan {c : Conjunction} {p : Program} (h : (plan c).Gives k s p k' s') :
    (ProgramCache.plan c k.programs).run s = ((.ok p, k'.programs), s') := by
  have hrun : ((plan c).run.run k).run s =
      ((((ProgramCache.plan c k.programs).run s).1.1,
        { k with programs := ((ProgramCache.plan c k.programs).run s).1.2 }),
        ((ProgramCache.plan c k.programs).run s).2) := rfl
  rw [Gives, hrun] at h
  generalize (ProgramCache.plan c k.programs).run s = x at h ⊢
  rcases x with ⟨⟨r, programs⟩, t⟩
  cases h
  rfl

theorem exists_planned {p : Program} (hk : k.KeepsPlansOf q) (hs : q.FreshFrom s)
    (h : (plan q.toConjunction).Gives k s p k' s') : ∃ u t, q.FreshFrom u ∧
      (Planner.planWithBound q.toConjunction .empty).Gives u p t := by
  have hresult : (((plan q.toConjunction).run.run k).run s).1.1 = .ok p := by
    rw [h]
  rw [result_plan] at hresult
  split at hresult
  · next e he =>
    obtain rfl := Except.ok.inj hresult
    have hkey : e.1 = q.toConjunction.text := by simpa using List.find?_some he
    exact hk e (List.mem_of_find?_eq_some he) hkey
  · exact ⟨s, _, hs, Prod.ext hresult rfl⟩

theorem exists_plan {sets : List FragmentSet} {t : Supply}
    (hsets : (FragmentSet.ofConjunction q.toConjunction).Gives s sets t) :
    ∃ p k' s', (plan q.toConjunction).Gives k s p k' s' := by
  obtain ⟨p, hp⟩ := Planner.exists_planWithBound hsets .empty
  obtain ⟨p', hresult⟩ : ∃ p', (((plan q.toConjunction).run.run k).run s).1.1 = .ok p' := by
    rw [result_plan]
    split
    · exact ⟨_, rfl⟩
    · exact ⟨p, congrArg Prod.fst hp⟩
  exact ⟨p', _, _, Prod.ext (Prod.ext hresult rfl) rfl⟩

theorem binding_project (a : Answer) (vars : SortedSet Var) :
    (a.project vars.toList).binding = a.binding.restrict vars.contains := by
  refine SortedMap.ext_find? fun v => Option.ext fun id => ?_
  have hproject : (a.project vars.toList).binding.find? v = some id ↔
      v ∈ vars.toList ∧ a.binding.find? v = some id := SortedMap.find?_ofList_keys
  rw [hproject, SortedMap.find?_restrict, ← SortedSet.mem_iff_mem_toList, ← SortedSet.contains_iff]
  split <;> simp_all

/-- A look-up makes an answer of each binding, projected to the user-defined variables. -/
theorem exists_answers (q : AtomicQuery) (bs : List Binding) (k : Knowledge) (s : Supply) :
    ∃ as s', (bs.mapM fun b => do
      return (← (Answer.make b (.lookup q.snapshot) : Fresh _)).project q.userVars.toList :
        Resolve (List Answer)).Gives k s as k s' ∧
      List.Forall₂ (fun b a => a.binding = b.restrict q.userVars.contains) bs as := by
  induction bs generalizing s with
  | nil => exact ⟨[], s, gives_pure.mpr ⟨rfl, rfl, rfl⟩, .nil⟩
  | cons b bs ih =>
    let made := (Answer.make b (.lookup q.snapshot)).run s
    obtain ⟨as, s', has, hforall⟩ := ih made.2
    refine ⟨made.1.project q.userVars.toList :: as, s', ?_, .cons (binding_project _ _) hforall⟩
    rw [List.mapM_cons]
    refine gives_bind.mpr ⟨made.1.project q.userVars.toList, k, made.2, ?_,
      gives_bind.mpr ⟨as, k, s', has, ?_⟩⟩
    · exact gives_bind.mpr ⟨made.1, k, made.2, gives_lift.mpr ⟨rfl, rfl⟩,
        gives_pure.mpr ⟨rfl, rfl, rfl⟩⟩
    · exact gives_pure.mpr ⟨rfl, rfl, rfl⟩

theorem exists_lookup {st : Setting} (hg : st.transaction.graph.Reachable) (hplain : q.Plain)
    (hk : k.KeepsPlansOf q) (hs : q.FreshFrom s)
    (h : q.toConjunction.statements = [] ∨ st.transaction.isOpen = true ∧ q.Searchable) :
    ∃ as k' s', ∃ ms : List Binding, (lookup st q).Gives k s as k' s' ∧ ms.Nodup ∧
      (∀ m, m ∈ ms ↔ q.toConjunction.statements ≠ [] ∧ q.IsMatch st.transaction.graph m) ∧
      as.map Answer.binding = ms.map fun m => m.restrict q.userVars.contains := by
  by_cases hempty : q.toConjunction.statements = []
  · refine ⟨[], k, s, [], ?_, .nil, fun m => by simp [hempty], rfl⟩
    unfold lookup
    dsimp only
    rw [if_pos (List.isEmpty_iff.mpr hempty)]
    exact gives_pure.mpr ⟨rfl, rfl, rfl⟩
  · obtain ⟨hopen, hsearchable⟩ := h.resolve_left hempty
    obtain ⟨sets, t, hsets⟩ :=
      (FragmentSet.exists_gives_iff_searchable hg.wellFormed hplain (s := s)).mpr hsearchable
    obtain ⟨p, k₁, s₁, hp⟩ := exists_plan (k := k) hsets
    obtain ⟨u, v, hu, hplanned⟩ := exists_planned hk hs hp
    obtain ⟨bs, ms, hexecute, hnodup, hms, hsame⟩ :=
      AtomicQuery.execute_plan hg hplain hu hplanned
    obtain ⟨as, s₂, has, hbindings⟩ := exists_answers q bs k₁ s₁
    refine ⟨as, k₁, s₂, ms, ?_, hnodup, fun m => by rw [hms, and_iff_right hempty], ?_⟩
    · unfold lookup
      dsimp only
      rw [if_neg fun e => hempty (List.isEmpty_iff.mp e)]
      refine gives_bind.mpr ⟨p, k₁, s₁, hp, gives_bind.mpr ⟨bs, k₁, s₁, ?_, has⟩⟩
      refine gives_liftExcept.mpr ⟨Except.bind_eq_ok.mpr ⟨(), ?_, hexecute⟩, rfl, rfl⟩
      exact if_pos hopen
    · have has : as.map Answer.binding = bs.map fun b => b.restrict q.userVars.contains := by
        rw [← List.forall₂_eq_eq_eq, List.forall₂_map_left_iff, List.forall₂_map_right_iff]
        exact hbindings.flip
      rw [has, ← List.forall₂_eq_eq_eq, List.forall₂_map_left_iff, List.forall₂_map_right_iff]
      refine hsame.imp fun b m heq => SortedMap.ext_find? fun v => ?_
      rw [SortedMap.find?_restrict, SortedMap.find?_restrict]
      split
      · next hv => exact heq v (SortedSet.mem_filter.mp (SortedSet.contains_iff.mp hv)).2
      · rfl

/-- A look-up succeeds if there is nothing to look up, or else if the transaction is open and every
relation of the query has a player or a type. -/
theorem exists_gives_lookup_iff {st : Setting} (hg : st.transaction.graph.Reachable)
    (hplain : q.Plain) (hk : k.KeepsPlansOf q) (hs : q.FreshFrom s) :
    (∃ as k' s', (lookup st q).Gives k s as k' s') ↔
      q.toConjunction.statements = [] ∨ st.transaction.isOpen = true ∧ q.Searchable := by
  constructor
  · rintro ⟨as, k', s', h⟩
    refine or_iff_not_imp_left.mpr fun hne => ?_
    unfold lookup at h
    dsimp only at h
    rw [if_neg fun e => hne (List.isEmpty_iff.mp e)] at h
    obtain ⟨p, k₁, s₁, hp, h⟩ := gives_bind.mp h
    obtain ⟨bs, k₂, s₂, hbs, -⟩ := gives_bind.mp h
    obtain ⟨hbs, -⟩ := gives_liftExcept.mp hbs
    obtain ⟨_, hopen, -⟩ := Except.bind_eq_ok.mp hbs
    obtain ⟨u, t, -, hplanned⟩ := exists_planned hk hs hp
    obtain ⟨sets, v, hsets, -⟩ := Attempt.gives_bind.mp hplanned
    refine ⟨?_, (FragmentSet.exists_gives_iff_searchable hg.wellFormed hplain).mp ⟨sets, v, hsets⟩⟩
    by_contra hclosed
    unfold Transaction.ensureOpen at hopen
    rw [if_neg hclosed] at hopen
    cases hopen
  · intro h
    obtain ⟨as, k', s', ms, hgives, -⟩ := exists_lookup hg hplain hk hs h
    exact ⟨as, k', s', hgives⟩

/-- A look-up finds the matches of the query, each once, as far as they bind user-defined
variables. -/
theorem matches_of_gives_lookup {st : Setting} {as : List Answer}
    (hg : st.transaction.graph.Reachable) (hplain : q.Plain) (hk : k.KeepsPlansOf q)
    (hs : q.FreshFrom s) (h : (lookup st q).Gives k s as k' s') :
    ∃ ms : List Binding, ms.Nodup ∧
      (∀ m, m ∈ ms ↔ q.toConjunction.statements ≠ [] ∧ q.IsMatch st.transaction.graph m) ∧
      as.map Answer.binding = ms.map fun m => m.restrict q.userVars.contains := by
  obtain ⟨as', k₁, s₁, ms, hgives, hnodup, hms, has⟩ := exists_lookup hg hplain hk hs
    ((exists_gives_lookup_iff hg hplain hk hs).mp ⟨as, k', s', h⟩)
  obtain rfl : as = as' := Except.ok.inj (congrArg (fun r => r.1.1) (h.symm.trans hgives))
  exact ⟨ms, hnodup, hms, has⟩

end Resolve

end GraphInference
