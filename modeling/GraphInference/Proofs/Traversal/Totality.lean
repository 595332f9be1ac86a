import GraphInference.Proofs.Traversal.Planner

/-!
# Planning succeeds

Only the fragments that tell castings apart depend on variables, and each of these variables is bound
by the link to a player that stands in the casting (`FragmentSet.Grounded`). A list of grounded sets
can always be ordered: as long as one of the links is left it can run, and when none is left
everything that the other fragments depend on is bound.
-/

namespace GraphInference

namespace FragmentSet

open Fresh

/-- Each fragment of the set binds the variable, and each can run whatever is bound. -/
def Binds (s : FragmentSet) (v : Var) : Prop :=
  ∀ f ∈ s.fragments, v ∈ f.vars ∧ f.dependencies = .empty

/-- Every variable that a fragment depends on is bound by one of the sets. -/
def Grounded (sets : List FragmentSet) : Prop :=
  ∀ s ∈ sets, ∀ f ∈ s.fragments, ∀ v ∈ f.dependencies, ∃ s' ∈ sets, s'.Binds v

theorem grounded_append {l r : List FragmentSet} (hl : Grounded l) (hr : Grounded r) :
    Grounded (l ++ r) := by
  intro s hs f hf v hv
  rcases List.mem_append.mp hs with hs | hs
  · obtain ⟨s', hs', h⟩ := hl s hs f hf v hv
    exact ⟨s', List.mem_append_left r hs', h⟩
  · obtain ⟨s', hs', h⟩ := hr s hs f hf v hv
    exact ⟨s', List.mem_append_right l hs', h⟩

/-- Sets whose fragments depend on nothing are grounded. -/
theorem grounded_of_independent {sets : List FragmentSet}
    (h : ∀ s ∈ sets, ∀ f ∈ s.fragments, f.dependencies = .empty) : Grounded sets := by
  intro s hs f hf v hv
  rw [h s hs f hf] at hv
  exact absurd hv (SortedSet.not_mem_empty v)

theorem ofIsa_independent (thing : Var) (type : TypeRef) : Always (ofIsa thing type)
    fun sets => ∀ s ∈ sets, ∀ f ∈ s.fragments, f.dependencies = .empty := by
  cases type with
  | label l =>
    refine always_bind fun v => always_pure ?_
    simp [isaStep, Fragment.dependencies]
  | var v =>
    refine always_pure ?_
    simp [isaStep, Fragment.dependencies]

/-- Of every two members both are members. -/
theorem mem_of_mem_pairs {α : Type} {l : List α} {p : α × α} (h : p ∈ pairs l) :
    p.1 ∈ l ∧ p.2 ∈ l := by
  induction l with
  | nil => cases h
  | cons a l ih =>
    rcases List.mem_append.mp h with h | h
    · obtain ⟨b, hb, rfl⟩ := List.mem_map.mp h
      exact ⟨.head _, .tail _ hb⟩
    · exact (ih h).imp (.tail _) (.tail _)

theorem ofPlayers_grounded (description : String) (relation : Var)
    (types : Option (SortedSet Label)) (players : List RolePlayer) :
    Always (ofPlayers description relation types players) Grounded := by
  refine always_bind fun links => always_pure fun s hs f hf v hv => ?_
  rcases List.mem_append.mp hs with hs | hs
  · obtain ⟨link, -, rfl⟩ := List.mem_map.mp hs
    rcases List.mem_pair.mp hf with rfl | rfl <;> exact absurd hv (SortedSet.not_mem_empty v)
  · obtain ⟨p, hp, rfl⟩ := List.mem_map.mp hs
    obtain rfl := List.mem_singleton.mp hf
    have hv : v = p.1 ∨ v = p.2 := by simpa [Fragment.dependencies] using hv
    have hmem : v ∈ links.map RoleLink.casting := by
      obtain ⟨h₁, h₂⟩ := mem_of_mem_pairs hp
      rcases hv with rfl | rfl
      · exact h₁
      · exact h₂
    obtain ⟨link, hlink, rfl⟩ := List.mem_map.mp hmem
    refine ⟨ofLink description link, ?_, fun d hd => ?_⟩
    · exact List.mem_append_left _ (List.mem_map.mpr ⟨link, hlink, rfl⟩)
    · rcases List.mem_pair.mp hd with rfl | rfl <;> exact ⟨by simp, rfl⟩

theorem ofHas_independent (description : String) (owner : Var) (owned : Label) (value : Var)
    (predicate : Option Constraint) : Always (ofHas description owner owned value predicate)
      fun sets => ∀ s ∈ sets, ∀ f ∈ s.fragments, f.dependencies = .empty := by
  have hlink (link : RoleLink) : ∀ f ∈ (ofLink description link).fragments,
      f.dependencies = .empty := by
    simp [ofLink, Fragment.dependencies]
  refine always_bind fun relation => (ofIsa_independent _ _).bind fun isa hisa => ?_
  refine Always.bind (p := fun s => ∀ f ∈ s.fragments, f.dependencies = .empty)
    (always_bind fun casting => always_pure (hlink _)) fun ownerLink howner => ?_
  refine Always.bind (p := fun s => ∀ f ∈ s.fragments, f.dependencies = .empty)
    (always_bind fun casting => always_pure (hlink _)) fun valueLink hvalue => ?_
  refine always_pure fun s hs => ?_
  rcases List.mem_append.mp hs with hs | hs
  · rcases List.mem_append.mp hs with hs | hs
    · exact hisa s hs
    · rcases List.mem_pair.mp hs with rfl | rfl
      · exact howner
      · exact hvalue
  · obtain ⟨p, -, rfl⟩ := List.mem_map.mp hs
    simp [Fragment.dependencies]

theorem ofProperty_grounded (s : Statement) (p : Property) :
    Always (ofProperty s p) Grounded := by
  cases p with
  | isa type => exact fun u => grounded_of_independent (ofIsa_independent s.subject type u)
  | relation players => exact ofPlayers_grounded _ _ _ players
  | has owned v predicate =>
    exact fun u => grounded_of_independent (ofHas_independent _ s.subject owned v predicate u)
  | value predicate =>
    exact always_pure (grounded_of_independent (by simp [Fragment.dependencies]))
  | identity id => exact always_pure (grounded_of_independent (by simp [Fragment.dependencies]))

theorem ofConjunction_grounded {c : Conjunction} {s t : Supply} {sets : List FragmentSet}
    (h : (ofConjunction c).Gives s sets t) : Grounded sets :=
  ofConjunction_induction (fun _ hs => nomatch hs) (fun _ _ => grounded_append)
    (fun st _ q _ => ofProperty_grounded st q) h

/-- The sets together assign an element of the graph to every variable that they mention. -/
theorem exists_element_of_grounded {g : Graph} (hg : g.WellFormed) {sets : List FragmentSet}
    (hbal : Balanced sets) (hgrounded : Grounded sets) {a : Assignment}
    (ha : ∀ s ∈ sets, s.Holds g a) {s : FragmentSet} (hs : s ∈ sets) {v : Var}
    (hv : s.Mentions v) : ∃ e, a.find? v = some e ∧ g.HasElement e := by
  obtain ⟨f, hf, hv⟩ := hv
  obtain ⟨d, hd, hda⟩ := ha s hs
  have hv : v ∈ d.vars := (((hbal s hs).alike hf hd).1 v).mp hv
  by_cases hdep : v ∈ d.dependencies
  · obtain ⟨s', hs', hbinds⟩ := hgrounded s hs d hd v hdep
    obtain ⟨d', hd', hda'⟩ := ha s' hs'
    obtain ⟨hv', hnone⟩ := hbinds d' hd'
    obtain ⟨e, he, helement⟩ := hda'.exists_element hg hv'
    exact ⟨e, he, helement (hnone ▸ SortedSet.not_mem_empty v)⟩
  · obtain ⟨e, he, helement⟩ := hda.exists_element hg hv
    exact ⟨e, he, helement hdep⟩

end FragmentSet

namespace Planner

open Attempt

/-- A fragment is a choice once its dependencies are bound. -/
theorem exists_mem_choices {bound : SortedSet Var} (before : List FragmentSet)
    {sets : List FragmentSet} {s : FragmentSet} (hs : s ∈ sets) {f : Fragment} (hf : f ∈ s.fragments)
    (hdeps : f.dependencies.subset bound = true) :
    ∃ rest, (stepOf bound s f, rest) ∈ choices bound before sets := by
  induction sets generalizing before with
  | nil => cases hs
  | cons d sets ih =>
    rcases List.mem_cons.mp hs with rfl | hs
    · refine ⟨before ++ sets, List.mem_append_left _ ?_⟩
      exact List.mem_map.mpr ⟨f, List.mem_filter.mpr ⟨hf, hdeps⟩, rfl⟩
    · obtain ⟨rest, hrest⟩ := ih (before ++ [d]) hs
      exact ⟨rest, List.mem_append_right _ hrest⟩

/-- Sets can be ordered if what their fragments depend on is bound before or by one of them. -/
theorem exists_order (bound : SortedSet Var) {sets : List FragmentSet}
    (hbal : FragmentSet.Balanced sets) (h : ∀ s ∈ sets, ∀ f ∈ s.fragments, ∀ v ∈ f.dependencies,
      v ∈ bound ∨ ∃ s' ∈ sets, s'.Binds v) :
    ∃ steps, order bound sets.length sets = .ok steps := by
  generalize hn : sets.length = n
  induction n generalizing bound sets with
  | zero => exact ⟨[], rfl⟩
  | succ n ih =>
    have hchoice : choices bound [] sets ≠ [] := by
      have hne : sets ≠ [] := by
        rintro rfl
        cases hn
      obtain ⟨s, hs, f, hf, hdeps⟩ : ∃ s ∈ sets, ∃ f ∈ s.fragments,
          f.dependencies.subset bound = true := by
        by_cases hbinds : ∃ s ∈ sets, ∃ v, s.Binds v
        · obtain ⟨s, hs, v, hv⟩ := hbinds
          obtain ⟨f, hf⟩ := List.exists_mem_of_ne_nil _ (hbal s hs).ne_nil
          exact ⟨s, hs, f, hf, by rw [(hv f hf).2]; rfl⟩
        · obtain ⟨s, hs⟩ := List.exists_mem_of_ne_nil _ hne
          obtain ⟨f, hf⟩ := List.exists_mem_of_ne_nil _ (hbal s hs).ne_nil
          refine ⟨s, hs, f, hf, SortedSet.subset_iff.mpr fun v hv => ?_⟩
          rcases h s hs f hf v hv with hv | ⟨s', hs', hv⟩
          · exact hv
          · exact absurd ⟨s', hs', v, hv⟩ hbinds
      obtain ⟨rest, hrest⟩ := exists_mem_choices [] hs hf hdeps
      exact List.ne_nil_of_mem hrest
    rw [order]
    split
    · next hnone => exact absurd (cheapest_eq_none hnone) hchoice
    · next step rest hcheapest =>
      obtain ⟨-, pre, set, post, rfl, rfl, hmem⟩ := ready_of_cheapest hbal hcheapest
      have hsub {s : FragmentSet} (hs : s ∈ pre ++ post) : s ∈ pre ++ set :: post := by
        rcases List.mem_append.mp hs with hs | hs
        · exact List.mem_append_left _ hs
        · exact List.mem_append_right _ (.tail _ hs)
      have hlen : (pre ++ post).length = n := by
        simp only [List.length_append, List.length_cons] at hn ⊢
        omega
      have hnext : ∀ s ∈ pre ++ post, ∀ f ∈ s.fragments, ∀ v ∈ f.dependencies,
          v ∈ bound.union step.fragment.vars ∨ ∃ s' ∈ pre ++ post, s'.Binds v := by
        intro s hs f hf v hv
        rw [SortedSet.mem_union]
        rcases h s (hsub hs) f hf v hv with hv | ⟨s', hs', hbinds⟩
        · exact .inl (.inl hv)
        · rcases List.mem_append.mp hs' with hs' | hs'
          · exact .inr ⟨s', List.mem_append_left _ hs', hbinds⟩
          · rcases List.mem_cons.mp hs' with rfl | hs'
            · exact .inl (.inr (hbinds _ hmem).1)
            · exact .inr ⟨s', List.mem_append_right _ hs', hbinds⟩
      obtain ⟨steps, hsteps⟩ := ih _ (fun s hs => hbal s (hsub hs)) hnext hlen
      exact ⟨step :: steps, by rw [hsteps]; rfl⟩

/-- A conjunction whose fragment sets are built can be planned, whatever is bound. -/
theorem exists_planWithBound {c : Conjunction} {s t : Supply} {sets : List FragmentSet}
    (h : (FragmentSet.ofConjunction c).Gives s sets t) (bound : SortedSet Var) :
    ∃ p, (planWithBound c bound).Gives s p t := by
  obtain ⟨steps, hsteps⟩ := exists_order bound (FragmentSet.ofConjunction_balanced h)
    fun s hs f hf v hv => .inr (FragmentSet.ofConjunction_grounded h s hs f hf v hv)
  exact ⟨⟨steps⟩, gives_bind.mpr ⟨sets, t, h, gives_bind.mpr
    ⟨steps, t, gives_liftExcept.mpr ⟨hsteps, rfl⟩, gives_pure.mpr ⟨rfl, rfl⟩⟩⟩⟩

end Planner

end GraphInference
