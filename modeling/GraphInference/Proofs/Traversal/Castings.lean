import GraphInference.Proofs.Pattern.Reading

/-!
# Castings of their own

The casting of a link is a variable that is drawn for this link alone. Of the sets of a conjunction none
binds a casting of another one, provided that the conjunction names no variable that is yet to be
generated (`FragmentSet.Draws`); and every other variable that a set binds is the start of one of its
fragments (`FragmentSet.IsTwoWay`).
-/

namespace GraphInference

namespace FragmentSet

open Attempt

/-- The set has a link with the casting. -/
def HasCasting (s : FragmentSet) (v : Var) : Prop :=
  ∃ f ∈ s.fragments, ∃ link, f.link? = some link ∧ link.casting = v

/-- A fragment of the set binds the variable, whatever is bound before. -/
def Supplies (s : FragmentSet) (v : Var) : Prop :=
  ∃ f ∈ s.fragments, f.dependencies = .empty ∧ v ∈ f.vars

/-- What the set binds, castings aside, is the start of one of its fragments. -/
def IsTwoWay (s : FragmentSet) : Prop :=
  ∀ v, s.Supplies v → s.HasCasting v ∨ ∃ f ∈ s.fragments, f.dependencies = .empty ∧ f.start = v

/-- Neither set binds a casting of the other. -/
def Apart (s s' : FragmentSet) : Prop :=
  ∀ v, ¬ (s.HasCasting v ∧ s'.Supplies v) ∧ ¬ (s'.HasCasting v ∧ s.Supplies v)

theorem Apart.symm {s s' : FragmentSet} (h : s.Apart s') : s'.Apart s :=
  fun v => (h v).symm

/-- The sets were made while the supply went from `m` to `n` variables: their castings were drawn then,
and everything else that they bind was drawn then or is named. -/
structure Draws (m n : Nat) (names : Var → Prop) (sets : List FragmentSet) : Prop where
  le : m ≤ n
  twoWay : ∀ s ∈ sets, s.IsTwoWay
  supplies : ∀ s ∈ sets, ∀ v, s.Supplies v → names v ∨ Hidden m n v
  castings : ∀ s ∈ sets, ∀ v, s.HasCasting v → Hidden m n v
  apart : (∀ k, m ≤ k → ¬ names (.generated k)) → sets.Pairwise Apart

section Combinations

variable {l m n : Nat} {sets sets' : List FragmentSet} {names names' : Var → Prop}

theorem Draws.mono (h : Draws m n names sets) (hnames : ∀ v, names v → names' v) :
    Draws m n names' sets where
  le := h.le
  twoWay := h.twoWay
  supplies s hs v hv := (h.supplies s hs v hv).imp_left (hnames v)
  castings := h.castings
  apart hfresh := h.apart fun k hk hn => hfresh k hk (hnames _ hn)

/-- Sets made one after the other: the supply keeps their castings apart. -/
theorem Draws.append (h : Draws l m names sets) (h' : Draws m n names' sets') :
    Draws l n (fun v => names v ∨ names' v) (sets ++ sets') where
  le := h.le.trans h'.le
  twoWay := List.forall_mem_append.mpr ⟨h.twoWay, h'.twoWay⟩
  supplies s hs v hv := by
    rw [hidden_trans h.le h'.le]
    rcases List.mem_append.mp hs with hs | hs
    · exact (h.supplies s hs v hv).imp .inl .inl
    · exact (h'.supplies s hs v hv).imp .inr .inr
  castings s hs v hv := by
    rw [hidden_trans h.le h'.le]
    rcases List.mem_append.mp hs with hs | hs
    · exact .inl (h.castings s hs v hv)
    · exact .inr (h'.castings s hs v hv)
  apart := by
    intro hfresh
    -- what is drawn for the one list is neither named nor drawn for the other
    refine List.pairwise_append.mpr ⟨h.apart fun k hk hn => hfresh k hk (.inl hn),
      h'.apart fun k hk hn => hfresh k (h.le.trans hk) (.inr hn), fun s hs s' hs' v => ⟨?_, ?_⟩⟩
    · rintro ⟨hcasting, hsupplies⟩
      have hhidden := h.castings s hs v hcasting
      rcases h'.supplies s' hs' v hsupplies with hn | hhidden'
      · obtain ⟨k, hk, -, rfl⟩ := hhidden
        exact hfresh k hk (.inr hn)
      · exact not_hidden_of_hidden hhidden hhidden'
    · rintro ⟨hcasting, hsupplies⟩
      have hhidden' := h'.castings s' hs' v hcasting
      rcases h.supplies s hs v hsupplies with hn | hhidden
      · obtain ⟨k, hk, -, rfl⟩ := hhidden'
        exact hfresh k (h.le.trans hk) (.inl hn)
      · exact not_hidden_of_hidden hhidden hhidden'

/-- The first variable that is drawn need not be named. -/
theorem Draws.hide (h : Draws (m + 1) n (fun v => v = .generated m ∨ names v) sets) :
    Draws m n names sets where
  le := (Nat.le_succ m).trans h.le
  twoWay := h.twoWay
  supplies s hs v hv := by
    rw [hidden_trans (Nat.le_succ m) h.le, hidden_succ]
    have := h.supplies s hs v hv
    tauto
  castings s hs v hv := (hidden_trans (Nat.le_succ m) h.le v).mpr (.inr (h.castings s hs v hv))
  apart hfresh := by
    refine h.apart fun k hk => ?_
    rintro (heq | hn)
    · have := Var.generated_injective heq
      omega
    · exact hfresh k (by omega) hn

/-- Sets without links. -/
theorem draws_of_not_hasCasting (hmn : m ≤ n) (htwoWay : ∀ s ∈ sets, s.IsTwoWay)
    (hsupplies : ∀ s ∈ sets, ∀ v, s.Supplies v → names v ∨ Hidden m n v)
    (hnone : ∀ s ∈ sets, ∀ v, ¬ s.HasCasting v) : Draws m n names sets where
  le := hmn
  twoWay := htwoWay
  supplies := hsupplies
  castings s hs v hv := absurd hv (hnone s hs v)
  apart _ := List.pairwise_of_forall_mem_list fun s hs s' hs' v =>
    ⟨fun h => hnone s hs v h.1, fun h => hnone s' hs' v h.1⟩

end Combinations

theorem draws_nil {m : Nat} {names : Var → Prop} : Draws m m names [] :=
  have hnil {p : FragmentSet → Prop} : ∀ s ∈ ([] : List FragmentSet), p s := fun _ hs => nomatch hs
  draws_of_not_hasCasting le_rfl hnil hnil hnil

theorem dependencies_neq {l r : Var} : (Fragment.neq l r).dependencies ≠ .empty := by
  intro h
  have hl : l ∈ (Fragment.neq l r).dependencies := by simp [Fragment.dependencies]
  exact SortedSet.not_mem_empty l (h ▸ hl)

/-! ## The sets of a property -/

section Properties

variable {m : Nat} {description : String} {names : Var → Prop} {s : FragmentSet} {v : Var}

@[simp] theorem supplies_one {f : Fragment} : (⟨description, [f]⟩ : FragmentSet).Supplies v ↔
    f.dependencies = .empty ∧ v ∈ f.vars := by
  simp [Supplies]

@[simp] theorem hasCasting_one {f : Fragment} : (⟨description, [f]⟩ : FragmentSet).HasCasting v ↔
    ∃ link, f.link? = some link ∧ link.casting = v := by
  simp [HasCasting]

@[simp] theorem supplies_isaStep {thing type : Var} :
    (isaStep description thing type).Supplies v ↔ v = thing ∨ v = type := by
  simp [Supplies, isaStep, Fragment.dependencies, or_comm]

@[simp] theorem not_hasCasting_isaStep {thing type : Var} :
    ¬ (isaStep description thing type).HasCasting v := by
  simp [HasCasting, isaStep, Fragment.link?]

@[simp] theorem supplies_ofLink {link : RoleLink} : (ofLink description link).Supplies v ↔
    v = link.relation ∨ v = link.casting ∨ v = link.player := by
  simp [Supplies, ofLink, Fragment.dependencies, or_comm]

@[simp] theorem hasCasting_ofLink {link : RoleLink} :
    (ofLink description link).HasCasting v ↔ v = link.casting := by
  simp [HasCasting, ofLink, Fragment.link?, eq_comm]

theorem draws_one (htwoWay : s.IsTwoWay) (hsupplies : ∀ v, s.Supplies v → names v)
    (hnone : ∀ v, ¬ s.HasCasting v) : Draws m m names [s] := by
  have hmem {p : FragmentSet → Prop} (h : p s) : ∀ s' ∈ [s], p s' :=
    fun _ hs => List.mem_singleton.mp hs ▸ h
  exact draws_of_not_hasCasting le_rfl (hmem htwoWay) (hmem fun v hv => .inl (hsupplies v hv))
    (hmem hnone)

theorem eq_start_of_isIndexed {f : Fragment} (hf : f.isIndexed = true) (hv : v ∈ f.vars) :
    v = f.start := by
  cases f with
  | identity | labelled | valued => simpa [Fragment.start] using hv
  | _ => cases hf

/-- A look-up in an index. -/
theorem draws_indexed {f : Fragment} (hf : f.isIndexed = true) (hstart : names f.start) :
    Draws m m names [⟨description, [f]⟩] := by
  have hlink : f.link? = none := by
    cases f <;> first | rfl | cases hf
  refine draws_one (fun v hv => .inr ?_) (fun v hv => ?_) fun v hv => ?_
  · obtain ⟨hdeps, hv⟩ := supplies_one.mp hv
    exact ⟨f, .head _, hdeps, (eq_start_of_isIndexed hf hv).symm⟩
  · exact eq_start_of_isIndexed hf (supplies_one.mp hv).2 ▸ hstart
  · obtain ⟨link, h, -⟩ := hasCasting_one.mp hv
    cases hlink.symm.trans h

theorem draws_isaStep {thing type : Var} (hthing : names thing) (htype : names type) :
    Draws m m names [isaStep description thing type] := by
  refine draws_one (fun v hv => .inr ?_) (fun v hv => ?_) fun v => not_hasCasting_isaStep
  · rcases supplies_isaStep.mp hv with rfl | rfl
    · exact ⟨_, .head _, rfl, rfl⟩
    · exact ⟨_, .tail _ (.head _), rfl, rfl⟩
  · rcases supplies_isaStep.mp hv with rfl | rfl
    · exact hthing
    · exact htype

/-- A link whose casting is drawn for it. -/
theorem draws_ofLink {link : RoleLink} (hcasting : link.casting = .generated m)
    (hrelation : names link.relation) (hplayer : names link.player) :
    Draws m (m + 1) names [ofLink description link] where
  le := Nat.le_succ m
  twoWay := by
    intro s hs v hv
    obtain rfl := List.mem_singleton.mp hs
    rcases supplies_ofLink.mp hv with rfl | rfl | rfl
    · exact .inr ⟨_, .head _, rfl, rfl⟩
    · exact .inl (hasCasting_ofLink.mpr rfl)
    · exact .inr ⟨_, .tail _ (.head _), rfl, rfl⟩
  supplies := by
    intro s hs v hv
    obtain rfl := List.mem_singleton.mp hs
    rcases supplies_ofLink.mp hv with rfl | rfl | rfl
    · exact .inl hrelation
    · exact .inr (hidden_succ.mpr hcasting)
    · exact .inl hplayer
  castings := by
    intro s hs v hv
    obtain rfl := List.mem_singleton.mp hs
    exact hidden_succ.mpr ((hasCasting_ofLink.mp hv).trans hcasting)
  apart _ := List.pairwise_singleton _ _

/-- Whatever the supply, the sets bind what is named and what was drawn for them. -/
def DrawsFor (x : Fresh (List FragmentSet)) (names : Var → Prop) : Prop :=
  ∀ u : Supply, Draws u.vars (x.run u).2.vars names (x.run u).1

theorem draws_ofIsa (x : Var) (type : TypeRef) : DrawsFor (ofIsa x type) (type.Names x) := by
  intro u
  cases type with
  | var t => exact draws_isaStep (.inl rfl) (.inr rfl)
  | label l =>
    have hlabel : Draws (u.vars + 1) (u.vars + 1) (fun v => v = .generated u.vars ∨ v = x)
        [⟨x.text ++ " isa " ++ l.text, [.labelled (.generated u.vars) l]⟩] :=
      draws_indexed rfl (.inl rfl)
    have hisa : Draws (u.vars + 1) (u.vars + 1) (fun v => v = .generated u.vars ∨ v = x)
        [isaStep (x.text ++ " isa " ++ l.text) x (.generated u.vars)] :=
      draws_isaStep (.inr rfl) (.inl rfl)
    exact ((hlabel.append hisa).mono fun v => or_self_iff.mp).hide

theorem draws_linksFrom (relation : Var) (types : Option (SortedSet Label)) (ps : List RolePlayer) :
    Draws m (m + ps.length) (fun v => ∃ p ∈ ps, v = relation ∨ v = p.player)
      ((linksFrom relation types m ps).map (ofLink description)) := by
  induction ps generalizing m with
  | nil => exact draws_nil
  | cons p ps ih =>
    have hlink : Draws m (m + 1) (fun v => v = relation ∨ v = p.player)
        [ofLink description ⟨relation, .generated m, p.player, p.role.map only, types⟩] :=
      draws_ofLink rfl (.inl rfl) (.inr rfl)
    have hlength : m + (p :: ps).length = m + 1 + ps.length := by
      rw [List.length_cons]
      omega
    rw [hlength]
    exact (hlink.append ih).mono fun v hv => by simpa using hv

theorem draws_ofPlayers (description : String) (relation : Var) (types : Option (SortedSet Label))
    (ps : List RolePlayer) : DrawsFor (ofPlayers description relation types ps)
      fun v => ∃ p ∈ ps, v = relation ∨ v = p.player := by
  intro u
  let distinct (links : List RoleLink) : List FragmentSet :=
    (pairs (links.map RoleLink.casting)).map fun p =>
      ⟨relation.text ++ " distinct castings", [.neq p.1 p.2]⟩
  have hrun : (ofPlayers description relation types ps).run u =
      ((linksFrom relation types u.vars ps).map (ofLink description) ++
        distinct (linksFrom relation types u.vars ps), { u with vars := u.vars + ps.length }) :=
    congrArg (fun r : List RoleLink × Supply =>
      (r.1.map (ofLink description) ++ distinct r.1, r.2)) (run_links u)
  rw [hrun]
  have hdistinct : Draws (u.vars + ps.length) (u.vars + ps.length) (fun _ => False)
      (distinct (linksFrom relation types u.vars ps)) := by
    have hidle : ∀ s ∈ distinct (linksFrom relation types u.vars ps), ∀ v,
        ¬ s.Supplies v ∧ ¬ s.HasCasting v := by
      intro s hs v
      obtain ⟨⟨l, r⟩, -, rfl⟩ := List.mem_map.mp hs
      rw [supplies_one, hasCasting_one]
      exact ⟨fun h => dependencies_neq h.1, fun ⟨_, h, _⟩ => nomatch h⟩
    exact draws_of_not_hasCasting le_rfl (fun s hs v hv => absurd hv (hidle s hs v).1)
      (fun s hs v hv => absurd hv (hidle s hs v).1) fun s hs v => (hidle s hs v).2
  exact ((draws_linksFrom relation types ps).append hdistinct).mono fun v => (or_false _).mp

theorem draws_ofHas (description : String) (owner : Var) (owned : Label) (value : Var)
    (predicate : Option Constraint) : DrawsFor (ofHas description owner owned value predicate)
      ((Property.has owned value predicate).Names owner) := by
  intro u
  let relation := Var.generated u.vars
  let types := some (only owned.ownership)
  let after (k : Nat) : Supply := { u with vars := u.vars + k }
  let names (v : Var) : Prop := v = relation ∨ (Property.has owned value predicate).Names owner v
  have hisa := draws_ofIsa relation (.label owned.ownership) (after 1)
  have howner : Draws (u.vars + 2) (u.vars + 3) names [ofLink description
      ⟨relation, .generated (u.vars + 2), owner, some (only owned.ownerRole), types⟩] :=
    draws_ofLink rfl (.inl rfl) (.inr (.inl rfl))
  have hvalue : Draws (u.vars + 3) (u.vars + 4) names [ofLink description
      ⟨relation, .generated (u.vars + 3), value, some (only owned.valueRole), types⟩] :=
    draws_ofLink rfl (.inl rfl) (.inr (.inr rfl))
  have hfilter : Draws (u.vars + 4) (u.vars + 4) names
      (predicate.toList.map fun p => ⟨description, [.valued value p]⟩) := by
    cases predicate with
    | none => exact draws_nil
    | some p => exact draws_indexed rfl (.inr (.inr rfl))
  refine Draws.hide (((hisa.append (howner.append hvalue)).append hfilter).mono fun v hv => ?_)
  simp only [TypeRef.Names] at hv
  tauto

theorem draws_ofProperty (s : Statement) (p : Property) :
    DrawsFor (ofProperty s p) (p.Names s.subject) := by
  cases p with
  | isa type => exact draws_ofIsa s.subject type
  | relation players => exact draws_ofPlayers _ s.subject _ players
  | has owned value predicate => exact draws_ofHas _ s.subject owned value predicate
  | value predicate => exact fun u => draws_indexed rfl rfl
  | identity id => exact fun u => draws_indexed rfl rfl

end Properties

/-! ## The sets of a conjunction -/

theorem draws_ofStatement (s : Statement) : DrawsFor (ofStatement s) s.Names := by
  have hlist (ps : List Property) : DrawsFor (return (← ps.mapM (ofProperty s)).flatten)
      fun v => ∃ p ∈ ps, p.Names s.subject v := by
    induction ps with
    | nil => exact fun _ => draws_nil
    | cons p ps ih =>
      intro u
      rw [List.mapM_cons]
      exact ((draws_ofProperty s p u).append (ih ((ofProperty s p).run u).2)).mono
        fun v hv => by simpa using hv
  exact hlist s.properties

/-- The sets of a conjunction have castings of their own. -/
theorem draws_of_gives {c : Conjunction} {s t : Supply} {sets : List FragmentSet}
    (h : (ofConjunction c).Gives s sets t) : Draws s.vars t.vars c.Names sets := by
  obtain ⟨statements⟩ := c
  replace h : (ofStatements statements).Gives s sets t := h
  induction statements generalizing s sets with
  | nil =>
    obtain ⟨rfl, rfl⟩ := gives_pure.mp h
    exact draws_nil
  | cons st statements ih =>
    obtain ⟨-, rest, hrest, rfl⟩ := gives_ofStatements_cons.mp h
    exact ((draws_ofStatement st s).append (ih hrest)).mono
      fun v hv => by simpa [Conjunction.Names] using hv

end FragmentSet

end GraphInference
