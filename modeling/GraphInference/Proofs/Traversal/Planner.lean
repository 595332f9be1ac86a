import GraphInference.Proofs.Traversal.Run
import GraphInference.Traversal.Planner

/-!
# What a plan takes

Every fragment set of a conjunction holds one fragment or the two directions of one edge, the outward
one first (`Alternatives`). A plan takes one fragment of each set, in an order in which each is ready:
of an edge whose ends are both unbound the outward direction comes first among the choices, so that
the inward one, which a scan over the instances could not start, is never taken.
-/

namespace GraphInference

open Attempt

/-! ## Alternatives -/

/-- The alternatives of a set: a fragment alone, or both directions of an edge. -/
inductive Alternatives : List Fragment → Prop where
  | alone {f : Fragment} (h : f.direction = .outward) : Alternatives [f]
  | isa (thing type : Var) : Alternatives [.outIsa thing type, .inIsa type thing]
  | player (link : RoleLink) : Alternatives [.outPlayer link, .inPlayer link]

namespace Alternatives

variable {fs : List Fragment} {f f' : Fragment}

/-- Alternatives say the same of the same variables. -/
theorem alike (h : Alternatives fs) (hf : f ∈ fs) (hf' : f' ∈ fs) :
    (∀ v, v ∈ f.vars ↔ v ∈ f'.vars) ∧ ∀ g a, f.Holds g a ↔ f'.Holds g a := by
  cases h with
  | alone =>
    obtain rfl := List.mem_singleton.mp hf
    obtain rfl := List.mem_singleton.mp hf'
    exact ⟨fun _ => Iff.rfl, fun _ _ => Iff.rfl⟩
  | isa thing type =>
    simp only [List.mem_cons, List.not_mem_nil, or_false] at hf hf'
    rcases hf with rfl | rfl <;> rcases hf' with rfl | rfl <;> simp [Fragment.Holds]
  | player link =>
    simp only [List.mem_cons, List.not_mem_nil, or_false] at hf hf'
    rcases hf with rfl | rfl <;> rcases hf' with rfl | rfl <;> simp [Fragment.Holds]

theorem ne_nil (h : Alternatives fs) : fs ≠ [] := by
  cases h <;> exact List.cons_ne_nil _ _

/-- An inward direction stands behind a fragment that can always run. -/
theorem exists_before {l r : List Fragment} (h : Alternatives (l ++ f :: r))
    (hf : f.direction = .inward) : ∃ d ∈ l, d.dependencies = .empty := by
  generalize hfs : l ++ f :: r = fs at h
  cases h with
  | alone hd =>
    have hmem : f ∈ l ++ f :: r := by simp
    rw [hfs, List.mem_singleton] at hmem
    subst hmem
    rw [hd] at hf
    cases hf
  | isa thing type =>
    cases l with
    | nil =>
      obtain ⟨rfl, -⟩ := List.cons.inj hfs
      cases hf
    | cons d l =>
      obtain ⟨rfl, -⟩ := List.cons.inj hfs
      exact ⟨_, .head _, rfl⟩
  | player link =>
    cases l with
    | nil =>
      obtain ⟨rfl, -⟩ := List.cons.inj hfs
      cases hf
    | cons d l =>
      obtain ⟨rfl, -⟩ := List.cons.inj hfs
      exact ⟨_, .head _, rfl⟩

end Alternatives

/-! ## The sets of a conjunction -/

namespace FragmentSet

open Fresh

/-- The alternatives of every set. -/
def Balanced (sets : List FragmentSet) : Prop :=
  ∀ s ∈ sets, Alternatives s.fragments

theorem balanced_append {l r : List FragmentSet} (hl : Balanced l) (hr : Balanced r) :
    Balanced (l ++ r) :=
  fun s hs => (List.mem_append.mp hs).elim (hl s) (hr s)

theorem balanced_one {description : String} {f : Fragment} (h : f.direction = .outward) :
    Balanced [⟨description, [f]⟩] :=
  fun _ hs => List.mem_singleton.mp hs ▸ .alone h

theorem ofIsa_balanced (thing : Var) (type : TypeRef) : Always (ofIsa thing type) Balanced := by
  cases type with
  | label l =>
    refine always_bind fun v => always_pure fun s hs => ?_
    rcases List.mem_pair.mp hs with rfl | rfl
    · exact .alone rfl
    · exact .isa thing v
  | var v =>
    refine always_pure fun s hs => ?_
    obtain rfl := List.mem_singleton.mp hs
    exact .isa thing v

theorem ofPlayers_balanced (description : String) (relation : Var)
    (types : Option (SortedSet Label)) (players : List RolePlayer) :
    Always (ofPlayers description relation types players) Balanced := by
  refine always_bind fun links => always_pure (balanced_append (fun s hs => ?_) fun s hs => ?_)
  · obtain ⟨link, -, rfl⟩ := List.mem_map.mp hs
    exact .player link
  · obtain ⟨p, -, rfl⟩ := List.mem_map.mp hs
    exact .alone rfl

theorem ofHas_balanced (description : String) (owner : Var) (owned : Label) (value : Var)
    (predicate : Option Constraint) :
    Always (ofHas description owner owned value predicate) Balanced := by
  refine always_bind fun relation => (ofIsa_balanced _ _).bind fun isa hisa => ?_
  refine Always.bind (p := fun s => Alternatives s.fragments)
    (always_bind fun casting => always_pure (.player _)) fun ownerLink howner => ?_
  refine Always.bind (p := fun s => Alternatives s.fragments)
    (always_bind fun casting => always_pure (.player _)) fun valueLink hvalue => ?_
  refine always_pure (balanced_append (balanced_append hisa fun s hs => ?_) fun s hs => ?_)
  · rcases List.mem_pair.mp hs with rfl | rfl
    · exact howner
    · exact hvalue
  · obtain ⟨p, -, rfl⟩ := List.mem_map.mp hs
    exact .alone rfl

theorem ofProperty_balanced (s : Statement) (p : Property) : Always (ofProperty s p) Balanced := by
  cases p with
  | isa type => exact ofIsa_balanced s.subject type
  | relation players => exact ofPlayers_balanced _ _ _ players
  | has owned v predicate => exact ofHas_balanced _ _ owned v predicate
  | value predicate => exact always_pure (balanced_one rfl)
  | identity id => exact always_pure (balanced_one rfl)

/-- What is true of the sets of every property and passes to joined lists is true of the sets of a
conjunction. -/
theorem ofConjunction_induction {p : List FragmentSet → Prop} {c : Conjunction} (hnil : p [])
    (happend : ∀ l r, p l → p r → p (l ++ r))
    (hproperty : ∀ st ∈ c.statements, ∀ q ∈ st.properties, Always (ofProperty st q) p)
    {s t : Supply} {sets : List FragmentSet} (h : (ofConjunction c).Gives s sets t) : p sets := by
  have hflatten (ls : List (List FragmentSet)) (hls : ∀ l ∈ ls, p l) : p ls.flatten := by
    induction ls with
    | nil => exact hnil
    | cons l ls ih =>
      obtain ⟨hl, hls⟩ := List.forall_mem_cons.mp hls
      exact happend _ _ hl (ih hls)
  obtain ⟨statements⟩ := c
  replace h : (ofStatements statements).Gives s sets t := h
  induction statements generalizing s t sets with
  | nil =>
    obtain ⟨rfl, -⟩ := gives_pure.mp h
    exact hnil
  | cons st statements ih =>
    obtain ⟨hst, hstatements⟩ := List.forall_mem_cons.mp hproperty
    obtain ⟨head, u, hhead, h⟩ := gives_bind.mp h
    have hp : Always (ofStatement st) p :=
      (always_mapM hst).bind fun ls hls => always_pure (hflatten ls hls)
    have hp : p head := by
      have := hp s
      rwa [gives_lift.mp hhead] at this
    dsimp only at h
    split at h
    · obtain ⟨_, _, h, -⟩ := gives_bind.mp h
      exact absurd h not_gives_throw
    · obtain ⟨rest, v, hrest, h⟩ := gives_bind.mp h
      obtain ⟨rfl, -⟩ := gives_pure.mp h
      exact happend _ _ hp (ih hstatements hrest)

theorem ofConjunction_balanced {c : Conjunction} {s t : Supply} {sets : List FragmentSet}
    (h : (ofConjunction c).Gives s sets t) : Balanced sets :=
  ofConjunction_induction (fun _ hs => nomatch hs) (fun _ _ => balanced_append)
    (fun st _ q _ => ofProperty_balanced st q) h

/-- The set has a fragment with the variable. -/
def Mentions (s : FragmentSet) (v : Var) : Prop :=
  ∃ f ∈ s.fragments, v ∈ f.vars

end FragmentSet

/-! ## The cheapest choice -/

namespace Planner

theorem cheapest_eq_none {l : List (PlannedStep × List FragmentSet)} (h : cheapest l = none) :
    l = [] := by
  cases l with
  | nil => rfl
  | cons c l =>
    rw [cheapest] at h
    split at h
    · cases h
    · split at h <;> cases h

/-- The cheapest choice is the first of the cheapest. -/
theorem cheapest_eq_some {l : List (PlannedStep × List FragmentSet)}
    {c : PlannedStep × List FragmentSet} (h : cheapest l = some c) :
    ∃ l₁ l₂, l = l₁ ++ c :: l₂ ∧ (∀ d ∈ l₁, c.1.cost.rank < d.1.cost.rank) ∧
      ∀ d ∈ l₂, c.1.cost.rank ≤ d.1.cost.rank := by
  induction l generalizing c with
  | nil => cases h
  | cons e l ih =>
    rw [cheapest] at h
    split at h
    · next hnone =>
      obtain rfl := Option.some.inj h
      obtain rfl := cheapest_eq_none hnone
      exact ⟨[], [], rfl, fun _ hd => (nomatch hd), fun _ hd => nomatch hd⟩
    · next d hd =>
      obtain ⟨l₁, l₂, rfl, h₁, h₂⟩ := ih hd
      split at h
      · next hlt =>
        obtain rfl := Option.some.inj h
        exact ⟨e :: l₁, l₂, rfl, List.forall_mem_cons.mpr ⟨hlt, h₁⟩, h₂⟩
      · next hle =>
        obtain rfl := Option.some.inj h
        refine ⟨[], _, rfl, fun _ hd => (nomatch hd), fun f hf => ?_⟩
        have hd : d.1.cost.rank ≤ f.1.cost.rank := by
          rcases List.mem_append.mp hf with hf | hf
          · exact (h₁ f hf).le
          · exact (List.forall_mem_cons.mpr ⟨Nat.le_refl _, h₂⟩ : ∀ x ∈ d :: l₂, _) f hf
        omega

/-- The choice takes a fragment that can run from one of the sets and leaves the others; the
fragments before it in its set that can run too are chosen in `earlier`. -/
def Takes (bound : SortedSet Var) (before sets : List FragmentSet)
    (earlier : List (PlannedStep × List FragmentSet)) (c : PlannedStep × List FragmentSet) : Prop :=
  ∃ pre set post f fs₁ fs₂, sets = pre ++ set :: post ∧ set.fragments = fs₁ ++ f :: fs₂ ∧
    f.dependencies.subset bound = true ∧ c = (stepOf bound set f, before ++ pre ++ post) ∧
    ∀ d ∈ fs₁, d.dependencies.subset bound = true → ∃ rest, (stepOf bound set d, rest) ∈ earlier

theorem Takes.cons {bound : SortedSet Var} {before sets : List FragmentSet} {set : FragmentSet}
    {l l₁ : List (PlannedStep × List FragmentSet)} {c : PlannedStep × List FragmentSet}
    (h : Takes bound (before ++ [set]) sets l c) (hl : l ⊆ l₁) :
    Takes bound before (set :: sets) l₁ c := by
  obtain ⟨pre, s, post, f, fs₁, fs₂, rfl, hs, hf, rfl, h₁⟩ := h
  refine ⟨set :: pre, s, post, f, fs₁, fs₂, rfl, hs, hf, by simp, fun d hd hdep => ?_⟩
  obtain ⟨rest, hrest⟩ := h₁ d hd hdep
  exact ⟨rest, hl hrest⟩

theorem takes_of_choices_eq {bound : SortedSet Var} {before sets : List FragmentSet}
    {l₁ l₂ : List (PlannedStep × List FragmentSet)} {c : PlannedStep × List FragmentSet}
    (h : choices bound before sets = l₁ ++ c :: l₂) : Takes bound before sets l₁ c := by
  induction sets generalizing before l₁ with
  | nil => cases l₁ <;> cases h
  | cons set sets ih =>
    rw [choices] at h
    rcases List.append_eq_append_iff.mp h with ⟨l, rfl, hl⟩ | ⟨l, hl, hc⟩
    · exact (ih hl).cons (List.subset_append_right _ _)
    · rcases List.cons_eq_append_iff.mp hc with ⟨rfl, hc⟩ | ⟨l', rfl, -⟩
      · have hc : choices bound (before ++ [set]) sets = [] ++ c :: l₂ := hc.symm
        exact (ih hc).cons (List.nil_subset _)
      · obtain ⟨fs, gs, hfs, rfl, hgs⟩ := List.map_eq_append_iff.mp hl
        obtain ⟨f, gs, rfl, rfl, -⟩ := List.map_eq_cons_iff.mp hgs
        obtain ⟨fs₁, r, hset, rfl, hr⟩ := List.filter_eq_append_iff.mp hfs
        obtain ⟨fs₂, r, rfl, hfs₂, hf, -⟩ := List.filter_eq_cons_iff.mp hr
        refine ⟨[], set, sets, f, fs₁ ++ fs₂, r, rfl, by rw [hset, List.append_assoc], hf, by simp,
          fun d hd hdep => ⟨before ++ sets, List.mem_map.mpr ⟨d, ?_, rfl⟩⟩⟩
        rcases List.mem_append.mp hd with hd | hd
        · exact List.mem_filter.mpr ⟨hd, hdep⟩
        · exact absurd hdep (hfs₂ d hd)

/-! ## Orders -/

theorem rank_le_scan (c : Cost) : c.rank ≤ Cost.scan.rank := by
  cases c <;> decide

theorem startCost_eq_scan {f : Fragment} (h : f.isIndexed = false) : f.startCost = .scan := by
  cases f <;> first | rfl | cases h

/-- The cheapest choice is ready: were it an inward step from an unbound start, then the outward one
of the same edge would be an earlier choice and no dearer. -/
theorem ready_of_cheapest {bound : SortedSet Var} {sets rest : List FragmentSet}
    {step : PlannedStep} (hsets : FragmentSet.Balanced sets)
    (h : cheapest (choices bound [] sets) = some (step, rest)) :
    step.fragment.Ready (· ∈ bound) ∧
      ∃ pre set post, sets = pre ++ set :: post ∧ rest = pre ++ post ∧
        step.fragment ∈ set.fragments := by
  obtain ⟨l₁, l₂, hl, hlt, -⟩ := cheapest_eq_some h
  obtain ⟨pre, set, post, f, fs₁, fs₂, rfl, hset, hdeps, hc, hearlier⟩ := takes_of_choices_eq hl
  obtain ⟨rfl, rfl⟩ := Prod.mk.inj hc
  refine ⟨⟨SortedSet.subset_iff.mp hdeps, ?_⟩, pre, set, post, rfl, rfl, ?_⟩
  · by_cases hbound : f.start ∈ bound
    · exact .inl hbound
    · cases hindexed : f.isIndexed with
      | true => exact .inr (.inl hindexed)
      | false =>
        refine .inr (.inr ⟨?_, ?_⟩)
        · by_contra hne
          exact hbound (SortedSet.subset_iff.mp hdeps _ (Fragment.start_mem_dependencies hne))
        · cases hdir : f.direction with
          | outward => exact hdir
          | inward =>
            have hbal : Alternatives set.fragments := hsets set (by simp)
            rw [hset] at hbal
            obtain ⟨d, hd, hdep⟩ := hbal.exists_before hdir
            obtain ⟨r, hr⟩ := hearlier d hd (by rw [hdep]; rfl)
            have hcost : (stepOf bound set f).cost = .scan := by
              rw [stepOf, if_neg fun e => hbound (SortedSet.contains_iff.mp e)]
              exact startCost_eq_scan hindexed
            have hlt := hlt _ hr
            rw [hcost] at hlt
            exact absurd (rank_le_scan (stepOf bound set d).cost) (Nat.not_le.mpr hlt)
  · show f ∈ set.fragments
    rw [hset]
    simp

/-- A plan takes one fragment of each set, each ready in its turn. -/
theorem order_spec {bound : SortedSet Var} {sets : List FragmentSet} {steps : List PlannedStep}
    (hsets : FragmentSet.Balanced sets) (h : order bound sets.length sets = .ok steps) :
    Program.ReadyFrom (· ∈ bound) steps ∧ ∃ sets' : List FragmentSet, sets'.Perm sets ∧
      List.Forall₂ (fun step set => step.fragment ∈ set.fragments) steps sets' := by
  generalize hn : sets.length = n at h
  induction n generalizing bound sets steps with
  | zero =>
    obtain rfl := Except.ok.inj h
    obtain rfl := List.length_eq_zero_iff.mp hn
    exact ⟨trivial, [], .nil, .nil⟩
  | succ n ih =>
    rw [order] at h
    split at h
    · cases h
    · next step rest hcheapest =>
      obtain ⟨steps', hsteps, h⟩ := Except.bind_eq_ok.mp h
      obtain rfl := Except.ok.inj h
      obtain ⟨hready, pre, set, post, rfl, rfl, hmem⟩ := ready_of_cheapest hsets hcheapest
      have hperm : (pre ++ set :: post).Perm (set :: (pre ++ post)) := List.perm_middle
      have hbal : FragmentSet.Balanced (pre ++ post) :=
        fun s hs => hsets s (hperm.mem_iff.mpr (.tail _ hs))
      have hlen : (pre ++ post).length = n := by
        have := hperm.length_eq
        rw [hn, List.length_cons] at this
        omega
      obtain ⟨hrest, sets', hsets', hforall⟩ := ih hbal hlen hsteps
      refine ⟨⟨hready, ?_⟩, set :: sets', (hsets'.cons set).trans hperm.symm, .cons hmem hforall⟩
      have : (fun v => v ∈ bound ∨ v ∈ step.fragment.vars) = (· ∈ bound.union step.fragment.vars) :=
        funext fun v => propext SortedSet.mem_union.symm
      rwa [this]

/-- A program is an order of the fragment sets of its conjunction. -/
theorem order_of_gives {c : Conjunction} {bound : SortedSet Var} {s t : Supply} {p : Program}
    (h : (planWithBound c bound).Gives s p t) : ∃ sets,
      (FragmentSet.ofConjunction c).Gives s sets t ∧ order bound sets.length sets = .ok p.steps := by
  obtain ⟨sets, u, hsets, h⟩ := Attempt.gives_bind.mp h
  obtain ⟨steps, u, hsteps, h⟩ := Attempt.gives_bind.mp h
  obtain ⟨rfl, rfl⟩ := Attempt.gives_pure.mp h
  obtain ⟨horder, rfl⟩ := Attempt.gives_liftExcept.mp hsteps
  exact ⟨sets, hsets, horder⟩

end Planner

end GraphInference
